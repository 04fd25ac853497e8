import Pllm.Maverick.ProtocolCorrect

/-! Completeness: a client accepts what an honest server answers, and gets the exact products. -/
namespace Pllm.Maverick
open Pllm.Lib Client List

/-- A server that holds the matrices and the `q` of a publication. -/
def Server.Serves (s : Server) (m : Material) : Prop :=
  s.matrices=m.source.matrices ∧ s.q=m.parts.q

/-- An answer that an honest server gives in some state. -/
def Answers (m : Material) (request reply : Message) : Prop :=
  ∃ s s' : Server,s.Serves m ∧ s.evaluate true request = (.ok reply,s')

def Projects (m : Material) (chal : Challenge) (aux : Message) : Prop :=
  ∃ s s' : Server,s.Serves m ∧ s.project true chal = (.ok aux,s')

/-- A state of the client of a publication, in one session. -/
def Client.Of (c : Client) (m : Material) (session : Words) : Prop :=
  c.material=m ∧ c.session=session

lemma picked {β : Type} (f : Fin 2 → β) (i : Fin 2) : (if i=0 then f 0 else f 1) = f i := by
  match i with
  | 0 => rfl
  | 1 => rfl

/-- A header of the publication and the session. -/
def Header.Of (h : Header) (m : Material) (session : Words) : Prop :=
  h.publication=m.binding ∧ h.session=session

variable {m : Material} {request reply : Message} {length weight : ℕ} {header : Header}
  {values : Words} {α : Type} {a : α}

lemma Answers.spec (h : Answers m request reply) {b : Fin batchSize} (slot : request.header.slot=b)
    : reply = ⟨request.header,Server.product (m.source.matrices b) request.values⟩ := by
  obtain ⟨s,s',⟨matrices,-⟩,eq⟩ := h
  unfold Server.evaluate at eq
  split at eq
  · cases eq
  dsimp only at eq
  split at eq
  · split at eq
    · cases eq
    split at eq
    · cases eq
    split at eq
    · cases eq
    · simp only [Prod.mk.injEq,ok_eq_ok] at eq
      rw [← eq.1,matrices]
      congr 3
      exact Fin.ext slot
  · cases eq

lemma fromPairs_pairs (e : Sparse length weight) :
    Sparse.fromPairs length weight e.pairs = .ok e := by
  unfold Sparse.fromPairs
  split
  · rename_i h
    cases h.symm.trans e.valid
  · rfl

lemma Projects.spec {primary : Checks codeLength}
    {aux : Message} (h : Projects m ⟨header,fun i => (primary i).pairs⟩ aux) :
    aux = ⟨header,(project (m.parts.q 0) (primary 0)++project (m.parts.q 1) (primary 0)) ++
      (project (m.parts.q 0) (primary 1)++project (m.parts.q 1) (primary 1))⟩ := by
  obtain ⟨s,s',⟨-,q⟩,eq⟩ := h
  have read : both (fun i => Sparse.fromPairs codeLength checkWeight (primary i).pairs) =
      .ok primary := both_eq_ok.mpr fun i => fromPairs_pairs (primary i)
  unfold Server.project at eq
  split at eq
  · cases eq
  rw [read] at eq
  split at eq
  · cases eq
  split at eq
  · cases eq
  · simp only [Prod.mk.injEq,ok_eq_ok] at eq
    rw [← eq.1,Server.projections,Server.projections,q]

section Session

variable {v : ValidatedPublication} {session : Words} {c : Client}

section
variable (own : c.Of v.material session) (of : header.Of v.material session)
  (ok : canonical values length = .ok ())
include own of ok

lemma checked_ok : c.checked ⟨header,values⟩ header length = .ok () := by
  have head : c.checkHeader header header = .ok () := by
    unfold checkHeader
    rw [own.1,own.2]
    simp [of.1,of.2]
  rw [checked,head,ok_bind,ok]

lemma fixed_ok : c.fixed true ⟨header,values⟩ header length = .ok values := by
  rw [fixed,checked_ok own of ok]
  rfl

end

lemma start_ok {reserved : Except Error Header × Client} {body : Header → Except Error
    α} {c' : Client} (h : start reserved body = (.ok a,c')) :
    ∃ header,reserved.1 = .ok header ∧ body header = .ok a := by
  unfold start at h
  split at h
  · cases h
  rename_i header eq
  split at h
  · cases h
  rename_i ok
  cases h
  exact ⟨header,eq,ok⟩

section
variable {c' d : Client} {slot : ℕ} {input : Words} {noise : Noise}

lemma query_length {out : Query × Message} (issued : c.issueQuery true slot input (.ok noise) =
    (.ok out,c')) : input.length=dimension := by
  obtain ⟨header,-,body⟩ := start_ok issued
  split at body
  · obtain ⟨_,ok,-⟩ := bind_eq_ok.mp body
    exact (canonical_eq_ok.mp ok).1
  · cases body

variable {inputs : Fin batchSize → Words}

lemma batch_length {noise : Fin batchSize → Noise} {out : Batch ×
    (Fin batchSize → Message)} (issued : c.issueBatch true inputs (.ok noise) = (.ok out,c')) (b :
    Fin batchSize) : (inputs b).length = dimension := by
  obtain ⟨header,-,body⟩ := start_ok issued
  obtain ⟨_,ok,-⟩ := bind_eq_ok.mp body
  exact (canonical_eq_ok.mp (both_eq_ok.mp ok b)).1

lemma request_length {inputs : Fin 2 → Fin batchSize → Words} {noise : Fin 2 → Fin batchSize →
    Noise} {out : Protocol2Request × (Fin 2 → Fin batchSize → Message)} (issued : c.issueRequest
    true inputs (.ok noise) = (.ok out,c')) (i : Fin 2) (b : Fin batchSize) : (inputs i b).length =
    dimension := by
  obtain ⟨header,-,body⟩ := start_ok issued
  obtain ⟨_,ok,-⟩ := bind_eq_ok.mp body
  exact (canonical_eq_ok.mp (both_eq_ok.mp (both_eq_ok.mp ok i) b)).1

lemma dependent_length {out : DependentRequest × Message} (issued : c.issueDependent true input
    (.ok noise) = (.ok out,c')) : input.length=dimension := by
  obtain ⟨header,-,body⟩ := start_ok issued
  obtain ⟨_,ok,-⟩ := bind_eq_ok.mp body
  exact (canonical_eq_ok.mp ok).1

lemma proceed_ok {d' : Client} {body : Except Error α}
    (h : d.proceed body = (.ok a,d')) : body = .ok a := by
  unfold proceed at h
  split at h
  · cases h
  · cases h
    rfl

lemma reserve_ok {mode : Mode} {count : ℕ} (own : c.Of v.material session)
    (h : (c.reserveOrdinals mode count).1 = .ok header) : header.Of v.material session := by
  unfold reserveOrdinals at h
  split at h
  · cases h
  split at h
  · cases h
  · cases h
    exact ⟨congrArg Material.binding own.1,own.2⟩

/-- A single query. -/
lemma query_accepted (own : c.Of v.material session) (later : d.Of v.material session) {query :
    Query} (issued : c.issueQuery true slot input (.ok noise) = (.ok (query,request),c')) (answer :
    Answers v.material request reply) (challenges : Checks codeLength) :
    ∃ h : slot<batchSize,(d.finishQuery true query reply (.ok challenges)).1 =
      .ok ⟨query.claim.header,Server.product (v.material.source.matrices ⟨slot,h⟩) input⟩ := by
  obtain ⟨header,reserved,body⟩ := start_ok issued
  have of := reserve_ok own reserved
  split at body
  swap
  · cases body
  rename_i inRange
  obtain ⟨_,ok,body⟩ := bind_eq_ok.mp body
  obtain ⟨claim,eq,claimed,head⟩ := v.claim_ok own.1 header ⟨slot,inRange⟩ input noise
  simp only [ok_bind,eq,pure_eq_ok] at body
  obtain ⟨rfl,rfl⟩ := body
  have of : claim.header.Of v.material session := by
    rw [head]
    exact of
  obtain rfl := answer.spec claimed.slot
  have fixed := fixed_ok later of
    (product_canonical (v.material.source.matrices ⟨slot,inRange⟩) claim.input)
  obtain ⟨encoded,enc,-⟩ := v.material.gy.encode_ok
    (product_canonical (v.material.source.matrices ⟨slot,inRange⟩) claim.input)
  refine ⟨inRange,?_⟩
  have slotEq : claim.header.slot=slot := claimed.slot
  have inside : claim.header.slot<batchSize := slotEq ▸ inRange
  have place : (⟨claim.header.slot,inside⟩ : Fin batchSize)=⟨slot,inRange⟩ := Fin.ext slotEq
  have holds (i : Fin repetitions) : dot (project (v.material.parts.q ⟨slot,inRange⟩) (challenges i))
      claim.input = (challenges i).dot encoded :=
    v.original_holds ⟨slot,inRange⟩ (canonical_eq_ok.mp claimed.input).1 (challenges i) enc
      (canonical_eq_ok.mp (project_canonical _ _)).1 fun j hj => vec_project _ _ hj
  simp only [finishQuery,finish,fixed,ok_bind,later.1,enc,dif_pos inside,place]
  rw [if_neg fun ⟨i,ne⟩ => ne (holds i),decrypt, v.demask_product claimed (canonical_eq_ok.mp ok).1]

end

/-- A batch whose originals were answered honestly. -/
structure Verified (v : ValidatedPublication) (session : Words) (batch : ChallengedBatch)
    (inputs : Fin batchSize → Words) : Prop where
  claimed : ∀ b,Claimed v.material (batch.claims b) b (inputs b)
  length : ∀ b,(inputs b).length = dimension
  outputs : ∀ b,batch.outputs b =
    Server.product (v.material.source.matrices b) (batch.claims b).input
  encoded : ∀ b,v.material.gy.encode (batch.outputs b) = .ok (batch.encoded b)
  header : batch.header.Of v.material session

/-- The exact products, under the headers of the claims. -/
def exactProducts (m : Material) (claims : Fin batchSize → Claim)
    (inputs : Fin batchSize → Words) : AcceptedBatch :=
  ⟨fun b => ⟨(claims b).header,Server.product (m.source.matrices b) (inputs b)⟩⟩

lemma accept_exact {batch : ChallengedBatch} (verified : Verified
    v session batch inputs) : acceptBatch batch = exactProducts v.material batch.claims inputs := by
  unfold acceptBatch exactProducts
  congr 1
  funext b
  rw [decrypt,verified.outputs b,v.demask_product (verified.claimed b) (verified.length b)]

section
-- several imports offer an instance for the numeral below: this one fixes its term
local instance auxiliaryTwo : NeZero 2 := ⟨Nat.succ_ne_zero 1⟩

/-- The honest auxiliary reply to the challenges of a batch. -/
def auxiliaryOf (m : Material) (primary : Checks codeLength) : Words :=
  (project (m.parts.q 0) (primary 0)++project (m.parts.q 1) (primary 0)) ++
    (project (m.parts.q 0) (primary 1)++project (m.parts.q 1) (primary 1))

end

section
variable {batch : ChallengedBatch} {inputs : Fin batchSize → Words} {aux : Message}

lemma length_project (matrix : Words) (e : Sparse length weight) :
    (project matrix e).length = dimension := (canonical_eq_ok.mp (project_canonical matrix e)).1

lemma auxiliary_canonical (m : Material) (primary : Checks codeLength) :
    canonical (auxiliaryOf m primary) (repetitions*secondaryDimension) = .ok () := by
  rw [canonical_eq_ok]
  refine ⟨by simp only [auxiliaryOf,length_append,length_project]; rfl,fun x mem => ?_⟩
  have part {q : Words} {e : Sparse codeLength checkWeight} (mem : x ∈ project q e) : x<field :=
    (canonical_eq_ok.mp (project_canonical q e)).2 x mem
  simp only [auxiliaryOf,mem_append] at mem
  rcases mem with (mem | mem) | (mem | mem) <;> exact part mem

lemma slice_auxiliary (m : Material) (primary : Checks codeLength) (q : Fin repetitions) :
    (auxiliaryOf m primary).slice (q*secondaryDimension) secondaryDimension =
      project (m.parts.q 0) (primary q)++project (m.parts.q 1) (primary q) := by
  have length (i : Fin repetitions) : (project (m.parts.q 0) (primary i) ++
      project (m.parts.q 1) (primary i)).length = secondaryDimension := by
    rw [length_append,length_project,length_project]
    rfl
  unfold Words.slice auxiliaryOf
  match q with
  | 0 =>
    rw [show ((0 : Fin repetitions) : ℕ)*secondaryDimension=0 from zero_mul _,drop_zero,
      take_left' (length 0)]
  | 1 =>
    rw [show ((1 : Fin repetitions) : ℕ)*secondaryDimension=secondaryDimension from one_mul _,
      drop_left' (length 0),take_of_length_le (length 1).le]

lemma slice_projection (m : Material) (primary : Checks codeLength)
    (q : Fin repetitions) (b : Fin batchSize) : (auxiliaryOf m primary).slice
    (q*secondaryDimension+b*dimension) dimension = project (m.parts.q b) (primary q) := by
  have split : (auxiliaryOf m primary).slice (q*secondaryDimension+b*dimension) dimension =
      Words.slice ((auxiliaryOf m primary).slice (q*secondaryDimension) secondaryDimension)
        (b*dimension) dimension := by
    have room : (b : ℕ)*dimension+dimension ≤ secondaryDimension := by
      match b with
      | 0 => decide
      | 1 => decide
    unfold Words.slice
    rw [drop_take,take_take,drop_drop,min_eq_left (by omega)]
  rw [split,slice_auxiliary]
  unfold Words.slice
  match b with
  | 0 =>
    rw [show ((0 : Fin batchSize) : ℕ)*dimension=0 from zero_mul _,drop_zero,
      take_left' (length_project _ _)]
  | 1 =>
    rw [show ((1 : Fin batchSize) : ℕ)*dimension=dimension from one_mul _,
      drop_left' (length_project _ _),take_of_length_le (length_project _ _).le]

variable (own : c.Of v.material session) (verified : Verified v session batch inputs)
include own verified

lemma equations_hold (secondary : Checks secondaryLength) :
    c.checkEquations batch (auxiliaryOf v.material batch.primary) secondary = .ok true := by
  have seconds (j : Fin repetitions) : c.secondaryHolds batch
      (auxiliaryOf v.material batch.primary) (secondary j) = .ok true := by
    obtain ⟨r,syn,-⟩ := v.material.gp.syndrome_ok (secondary j) (mul_comm ..)
    simp only [secondaryHolds,own.1,syn,ok_bind,pure_eq_ok,ok_eq_ok,decide_eq_true_eq]
    intro q
    rw [slice_auxiliary]
    refine v.secondary_holds (batch.primary q) (secondary j) syn ?_ fun t ht => ?_
    · rw [length_append,length_project,length_project]
      rfl
    · exact vec_projections _ (fun b => (v.parts_canonical.1 b).1) _ ht
  have originals : ∀ q b,originalHolds batch (auxiliaryOf v.material batch.primary) q b := by
    intro q b
    unfold originalHolds
    rw [slice_projection]
    exact v.original_holds b (canonical_eq_ok.mp (verified.claimed b).input).1 _
      (verified.outputs b ▸ verified.encoded b) (length_project _ _) fun j hj => vec_project _ _ hj
  have both : both (fun j => c.secondaryHolds batch (auxiliaryOf v.material batch.primary)
      (secondary j)) = .ok fun _ => true := both_eq_ok.mpr seconds
  simp only [checkEquations,both,decide_eq_true originals]
  rfl

variable
  (projects : Projects v.material ⟨batch.header,fun i => (batch.primary i).pairs⟩ aux)
include projects

/-- An honest auxiliary reply passes the checks of its shape. -/
lemma auxiliary_fixed : c.checked aux batch.header (repetitions*secondaryDimension) = .ok
    () ∧ c.fixAuxiliary true batch aux = .ok (auxiliaryOf v.material batch.primary) := by
  have eq : aux=⟨batch.header,auxiliaryOf v.material batch.primary⟩ := projects.spec
  have ok := auxiliary_canonical v.material batch.primary
  rw [eq]
  exact ⟨checked_ok own verified.header ok,fixed_ok own verified.header ok⟩

lemma finish_accepted (secondary : Checks secondaryLength) : (c.finishBatch
    true batch aux (.ok secondary)).1 = .ok (exactProducts v.material batch.claims inputs) := by
  simp only [finishBatch,finish,(auxiliary_fixed own verified projects).2,ok_bind,
    equations_hold own verified secondary,Bool.not_true,Bool.false_eq_true,if_false,pure_eq_ok]
  rw [accept_exact verified]

end

/-- The claims of a batch under one session, with the messages that ask for their products. -/
structure Issued (v : ValidatedPublication) (session : Words) (claims : Fin batchSize → Claim)
    (inputs : Fin batchSize → Words) (requests : Fin batchSize → Message) : Prop where
  claimed : ∀ b,Claimed v.material (claims b) b (inputs b)
  length : ∀ b,(inputs b).length = dimension
  header : ∀ b,(claims b).header.Of v.material session
  request : ∀ b,requests b = ⟨(claims b).header,(claims b).input⟩

section
variable {inputs : Fin batchSize → Words} {noise : Fin batchSize → Noise}
  {claims : Fin batchSize → Claim} {requests replies : Fin batchSize → Message} {c' d e : Client}

lemma claims_issued (own : c.Of v.material session) (of : header.Of v.material
    session) {u : Fin 2 → Unit} (canonical : both (fun b => canonical (inputs b) dimension) = .ok u)
    {claims : Fin 2 → Claim × Message} (ok : both (fun b => c.claim header b (inputs b) (noise b)) =
    .ok claims) : Issued v session (fun b => (claims b).1) inputs fun b => (claims b).2 := by
  have each (b : Fin batchSize) : Claimed v.material (claims b).1 b (inputs b) ∧ (claims b).1.header
      = { header with slot := b } ∧ (claims b).2 = ⟨(claims b).1.header,(claims b).1.input⟩ := by
    obtain ⟨claim,eq,claimed,head⟩ := v.claim_ok own.1 header b (inputs b) (noise b)
    have same : claims b=(claim,⟨claim.header,claim.input⟩) :=
      ok_inj ((both_eq_ok.mp ok b).symm.trans eq)
    rw [same]
    exact ⟨claimed,head,rfl⟩
  refine ⟨fun b => (each b).1,fun b => (canonical_eq_ok.mp (both_eq_ok.mp canonical b)).1,
    fun b => ?_,fun b => (each b).2.2⟩
  rw [(each b).2.1]
  exact of

section
variable (own : c.Of v.material session) (issued : Issued v session claims inputs requests)
include own issued

/-- The challenges of a batch with honest originals. -/
lemma prepare_verified (challenges : Checks codeLength) : ∃ batch,c.prepareBatch true claims
    (fun b => Server.product (v.material.source.matrices b) (claims b).input)
    (.ok challenges) = .ok (batch,⟨batch.header,fun i => (batch.primary i).pairs⟩) ∧
    batch.claims=claims ∧ Verified v session batch inputs := by
  choose encoded enc using fun b : Fin batchSize => v.material.gy.encode_ok
    (product_canonical (v.material.source.matrices b) (claims b).input)
  have all : both (fun b => v.material.gy.encode
      (Server.product (v.material.source.matrices b) (claims b).input)) = .ok encoded :=
    both_eq_ok.mpr fun b => (enc b).1
  refine ⟨⟨claims,fun b => Server.product (v.material.source.matrices b) (claims b).input,encoded,
    challenges,{ (claims 0).header with slot := batchSlot }⟩,?_,rfl,issued.claimed,issued.length,
    fun b => rfl,fun b => (enc b).1,issued.header 0⟩
  simp only [prepareBatch,own.1,all,ok_bind,grant,if_true,pure_eq_ok]

variable (answers : ∀ b,Answers v.material (requests b) (replies b))
include answers

/-- The answers to a batch fix the products of the masked inputs. -/
lemma answer_checked (b : Fin batchSize) :
    replies b = ⟨(claims b).header,Server.product (v.material.source.matrices b) (claims b).input⟩ ∧
      c.checked (replies b) (claims b).header dimension = .ok () := by
  have answer := answers b
  rw [issued.request b] at answer
  have eq := answer.spec (issued.claimed b).slot
  refine ⟨eq,?_⟩
  rw [eq]
  exact checked_ok own (issued.header b) (product_canonical _ _)

lemma originals_fixed : c.fixOriginals true claims [replies 0,replies 1] = .ok fun b =>
      Server.product (v.material.source.matrices b) (claims b).input := by
  have pick (b : Fin batchSize) := picked replies b
  have checked : both (fun b => c.checked (replies b) (claims b).header dimension) =
      .ok fun _ => () := both_eq_ok.mpr fun b => (answer_checked own issued answers b).2
  simp only [fixOriginals,pick,checked,ok_bind,grant,if_true,pure_eq_ok,ok_eq_ok]
  funext b
  rw [(answer_checked own issued answers b).1]

end

variable (own : c.Of v.material session) (later : d.Of v.material session)
include own later

/-- A batch of queries. -/
lemma batch_accepted (last : e.Of v.material session) {batch : Batch} (issued : c.issueBatch true
    inputs (.ok noise) = (.ok (batch,requests),c')) (answers : ∀ b,Answers v.material (requests b)
    (replies b)) (challenges : Checks codeLength) (secondary : Checks secondaryLength) : ∃ chd chal,
    (d.beginVerification true batch [replies 0,replies 1] (.ok challenges)).1 = .ok (chd,chal) ∧
    ∀ aux,Projects v.material chal aux → (e.finishBatch true chd aux (.ok secondary)).1 = .ok
    (exactProducts v.material batch.claims inputs) := by
  obtain ⟨header,reserved,body⟩ := start_ok issued
  obtain ⟨u,canonical,body⟩ := bind_eq_ok.mp body
  simp only [ok_bind,grant,if_true] at body
  obtain ⟨claims,ok,body⟩ := bind_eq_ok.mp body
  obtain ⟨rfl,rfl⟩ := body
  have issued := claims_issued own (reserve_ok own reserved) canonical ok
  obtain ⟨chd,prepared,same,verified⟩ := prepare_verified later issued challenges
  refine ⟨chd,⟨chd.header,fun i => (chd.primary i).pairs⟩,?_,
    fun aux projects => ?_⟩
  · simp only [beginVerification,originals_fixed later issued answers,ok_bind,prepared]
    rfl
  · rw [finish_accepted last verified projects secondary,same]

/-- A request of two batches. -/
lemma request_accepted (last :
    e.Of v.material session) {inputs : Fin 2 → Fin batchSize → Words} {noise : Fin 2 → Fin batchSize
    → Noise} {request : Protocol2Request} {messages replies : Fin 2 → Fin batchSize → Message}
    (issued : c.issueRequest true inputs (.ok noise) = (.ok (request,messages),c')) (answers : ∀ i
    b,Answers v.material (messages i b) (replies i b)) (challenges : Fin 2 → Checks codeLength)
    (secondary : Fin 2 → Checks secondaryLength) :
    ∃ chd chal, (d.beginRequestVerification true request
        [replies 0 0,replies 0 1,replies 1 0,replies 1 1] (.ok challenges)).1 =
          .ok (chd,chal) ∧
      ∀ aux : Fin 2 → Message,(∀ i,Projects v.material (chal i) (aux i)) →
        (e.finishRequest true chd [aux 0,aux 1] (.ok secondary)).1 =
          .ok fun i => exactProducts v.material (request.claims i) (inputs i) := by
  obtain ⟨header,reserved,body⟩ := start_ok issued
  obtain ⟨u,canonical,body⟩ := bind_eq_ok.mp body
  simp only [ok_bind,grant,if_true] at body
  obtain ⟨claims,ok,body⟩ := bind_eq_ok.mp body
  obtain ⟨rfl,rfl⟩ := body
  have of := reserve_ok own reserved
  have each (i : Fin 2) : Header.Of { header with attempt := header.attempt+i } v.material session :=
    of
  have issued (i : Fin 2) : Issued v session (fun b => (claims i b).1) (inputs i)
      fun b => (claims i b).2 :=
    claims_issued own (each i) (both_eq_ok.mp canonical i) (both_eq_ok.mp ok i)
  choose batch prepared same verified using fun i => prepare_verified later (issued i) (challenges i)
  refine ⟨⟨batch⟩,fun i => ⟨(batch i).header,fun j => ((batch i).primary j).pairs⟩,?_,
    fun aux projects => ?_⟩
  · have pick (i b : Fin 2) : (if i=0 then if b=0 then replies 0 0 else replies 0 1
        else if b=0 then replies 1 0 else replies 1 1)=replies i b := by
      rw [picked (replies 0),picked (replies 1),picked fun i => replies i b]
    have first := picked fun i => replies i 0
    have checked : both (fun i => both fun b =>
        d.checked (replies i b) (claims i b).1.header dimension) = .ok fun _ _ => () :=
      both_eq_ok.mpr fun i => both_eq_ok.mpr fun b =>
        (answer_checked later (issued i) (answers i) b).2
    have fixed : both (fun i => d.fixOriginals true (fun b => (claims i b).1)
        [replies i 0,replies i 1]) = .ok fun i b =>
          Server.product (v.material.source.matrices b) (claims i b).1.input :=
      both_eq_ok.mpr fun i => originals_fixed later (issued i) (answers i)
    have all := both_eq_ok.mpr prepared
    simp only [beginRequestVerification,proceed,pick,if_true,first,checked,ok_bind,
      fixed,all,pure_eq_ok]
  · have checked : both (fun i => e.checked (aux i) (batch i).header
        (repetitions*secondaryDimension)) = .ok fun _ => () :=
      both_eq_ok.mpr fun i => (auxiliary_fixed last (verified i) (projects i)).1
    have fixed : both (fun i => e.fixAuxiliary true (batch i) (aux i)) =
        .ok fun i => auxiliaryOf v.material (batch i).primary :=
      both_eq_ok.mpr fun i => (auxiliary_fixed last (verified i) (projects i)).2
    have equations : both (fun i => e.checkEquations (batch i)
        (auxiliaryOf v.material (batch i).primary) (secondary i)) = .ok fun _ => true :=
      both_eq_ok.mpr fun i => equations_hold last (verified i) (secondary i)
    simp only [finishRequest,finish,picked aux,checked,ok_bind,fixed,equations,
      Bool.and_self,Bool.not_true,Bool.false_eq_true,if_false,pure_eq_ok,ok_eq_ok]
    funext i
    rw [accept_exact (verified i),same i]

/-- The chain of the two matrices: the second takes the product of the first. -/
lemma dependent_accepted {d' f : Client} (next : e.Of v.material session) (last : f.Of v.material session) {input : Words}
    {noise noise' : Noise} {owner : DependentRequest} {batch : DependentBatch} {message message'
    reply reply' : Message} (issued : c.issueDependent true input (.ok noise) = (.ok
    (owner,message),c')) (answer : Answers v.material message reply) (continued :
    d.continueDependent true owner reply (.ok noise') = (.ok (batch,message'),d')) (answer' :
    Answers v.material message' reply') (challenges : Checks codeLength) (secondary : Checks
    secondaryLength) :
    ∃ chd chal, (e.beginDependentVerification true batch reply' (.ok challenges)).1 =
        .ok (chd,chal) ∧
      ∀ aux,Projects v.material chal aux →
        (f.finishBatch true chd aux (.ok secondary)).1 =
          .ok (exactProducts v.material batch.batch.claims fun b => if b=0 then input
            else Server.product (v.material.source.matrices 0) input) := by
  obtain ⟨header,reserved,body⟩ := start_ok issued
  obtain ⟨_,canonical,body⟩ := bind_eq_ok.mp body
  have of := reserve_ok own reserved
  obtain ⟨first,eq,claimed,head⟩ := v.claim_ok own.1 header 0 input noise
  simp only [ok_bind,eq,pure_eq_ok] at body
  obtain ⟨rfl,rfl⟩ := body
  have firstOf : first.header.Of v.material session := by
    rw [head]
    exact of
  have length := (canonical_eq_ok.mp canonical).1
  obtain rfl := answer.spec claimed.slot
  have demasked := v.demask_product claimed length
  have second := proceed_ok continued
  simp only [fixed_ok later firstOf (product_canonical (v.material.source.matrices 0) first.input),
    ok_bind,demasked] at second
  obtain ⟨claim,eq',claimed',head'⟩ := v.claim_ok later.1 first.header 1
    (Server.product (v.material.source.matrices 0) input) noise'
  simp only [eq',pure_eq_ok] at second
  obtain ⟨rfl,rfl⟩ := second
  have secondOf : claim.header.Of v.material session := by
    rw [head']
    exact firstOf
  obtain rfl := answer'.spec claimed'.slot
  let claims (b : Fin batchSize) : Claim := if b=0 then first else claim
  let inputs (b : Fin batchSize) : Words :=
    if b=0 then input else Server.product (v.material.source.matrices 0) input
  have issued : Issued v session claims inputs fun b => ⟨(claims b).header,(claims b).input⟩ := by
    refine ⟨?_,?_,?_,fun b => rfl⟩ <;> rw [Fin.forall_fin_two]
    · exact ⟨claimed,claimed'⟩
    · exact ⟨length,(canonical_eq_ok.mp (product_canonical _ _)).1⟩
    · exact ⟨firstOf,secondOf⟩
  obtain ⟨chd,prepared,same,verified⟩ := prepare_verified next issued challenges
  refine ⟨chd,⟨chd.header,fun i => (chd.primary i).pairs⟩,?_,
    fun aux projects => ?_⟩
  · have head0 : e.checkHeader first.header first.header = .ok () := by
      unfold checkHeader
      rw [next.1,next.2]
      simp [firstOf.1,firstOf.2]
    have fixed := fixed_ok next secondOf
      (product_canonical (v.material.source.matrices 1) claim.input)
    have outputs : (fun b : Fin batchSize => if b=0 then
        Server.product (v.material.source.matrices 0) first.input
          else Server.product (v.material.source.matrices 1) claim.input) =
        fun b => Server.product (v.material.source.matrices b) (claims b).input := by
      exact funext fun b => picked (fun b => Server.product (v.material.source.matrices b)
        (claims b).input) b
    have second : (if (1 : Fin batchSize)=0 then first else claim)=claim := rfl
    simp only [beginDependentVerification,if_true,second,head0,fixed,ok_bind,outputs]
    exact congrArg (fun r => (e.proceed r).1) prepared
  · rw [finish_accepted last verified projects secondary,same]

end

end Session

end Pllm.Maverick
