import Pllm.Common.Slices
import Pllm.Maverick.ProtocolComplete

/-! A client gets the exact products of whatever it asks an honest server for, and an honest server
has answers to give. -/
namespace Pllm.Maverick
open Pllm.Lib List

/-- A message that holds the product of a matrix with a vector over the field, and nothing of the
noise of the request. -/
structure ExactProduct (matrix input : Words) (output : Message) : Prop where
  length : output.values.length=dimension
  canonical : ∀ x∈output.values,x<field
  product : ∀ i<dimension,(output.values.at i : ZMod field) =
    ∑ j ∈ Finset.range dimension,(matrix.at (i*dimension+j) : ZMod field) * (input.at j : ZMod field)

lemma exactProduct {matrix input : Words} (square : matrix.length=dimension*dimension)
    (length : input.length=dimension) (header : Header) :
    ExactProduct matrix input ⟨header,Server.product matrix input⟩ := by
  obtain ⟨count,bound⟩ := canonical_eq_ok.mp (product_canonical matrix input)
  exact ⟨count,bound,fun i hi => vec_product square length hi⟩

/-- Every verification of honest answers is accepted, with the exact products of the inputs: of a
query, of a batch, of a request of two batches, and of the chain of the two matrices. -/
theorem honest_answers_accepted (v : ValidatedPublication) (session : Words) {c d e f : Client}
    (own : c.Of v.material session) (later : d.Of v.material session)
    (next : e.Of v.material session) (last : f.Of v.material session) :
    (∀ slot input noise query request reply challenges c', c.issueQuery true slot input (.ok noise)
      = (.ok (query,request),c') → Answers v.material request reply →
      ∃ (h : slot<batchSize) (output : Message), (d.finishQuery true query reply (.ok challenges)).1
        = .ok output ∧ ExactProduct (v.material.source.matrices ⟨slot,h⟩) input output) ∧
    (∀ inputs noise batch requests (replies : Fin batchSize → Message) challenges secondary c',
      c.issueBatch true inputs (.ok noise) = (.ok (batch,requests),c') →
      (∀ b,Answers v.material (requests b) (replies b)) →
      ∃ chd chal,
        (d.beginVerification true batch [replies 0,replies 1] (.ok challenges)).1 =
          .ok (chd,chal) ∧
        ∀ aux,Projects v.material chal aux →
          ∃ accepted : AcceptedBatch,
            (e.finishBatch true chd aux (.ok secondary)).1 = .ok accepted ∧
            ∀ b,ExactProduct (v.material.source.matrices b) (inputs b) (accepted.outputs b)) ∧
    (∀ inputs noise request messages (replies : Fin 2 → Fin batchSize → Message) challenges
      secondary c', c.issueRequest true inputs (.ok noise) = (.ok (request,messages),c') → (∀ i
      b,Answers v.material (messages i b) (replies i b)) →
      ∃ chd chal, (d.beginRequestVerification true request
          [replies 0 0,replies 0 1,replies 1 0,replies 1 1] (.ok challenges)).1 =
            .ok (chd,chal) ∧
        ∀ aux : Fin 2 → Message,(∀ i,Projects v.material (chal i) (aux i)) →
          ∃ accepted : Fin 2 → AcceptedBatch,
            (e.finishRequest true chd [aux 0,aux 1] (.ok secondary)).1 =
              .ok accepted ∧
            ∀ i b,ExactProduct (v.material.source.matrices b) (inputs i b)
              ((accepted i).outputs b)) ∧
    (∀ input noise noise' owner message reply batch message' reply' challenges secondary c' d',
      c.issueDependent true input (.ok noise) = (.ok (owner,message),c') → Answers v.material
      message reply → d.continueDependent true owner reply (.ok noise') = (.ok (batch,message'),d')
      → Answers v.material message' reply' →
      ∃ chd chal, (e.beginDependentVerification true batch reply' (.ok challenges)).1 =
          .ok (chd,chal) ∧
        ∀ aux,Projects v.material chal aux →
          ∃ accepted : AcceptedBatch, (f.finishBatch true chd aux (.ok secondary)).1 =
            .ok accepted ∧ ExactProduct (v.material.source.matrices 0) input (accepted.outputs 0) ∧
            ExactProduct (v.material.source.matrices 1) (accepted.outputs 0).values
              (accepted.outputs 1)) := by
  have square (b : Fin batchSize) := (v.matrices_canonical b).1
  refine ⟨?_,?_,?_,?_⟩
  · intro slot input noise query request reply challenges c' issued answer
    obtain ⟨h,accepted⟩ := query_accepted own later issued answer challenges
    exact ⟨h,_,accepted,exactProduct (square _) (query_length issued) _⟩
  · intro inputs noise batch requests replies challenges secondary c' issued answers
    obtain ⟨chd,chal,begun,finished⟩ :=
      batch_accepted own later next issued answers challenges secondary
    refine ⟨chd,chal,begun,fun aux projects => ?_⟩
    exact ⟨_,finished aux projects,fun b =>
      exactProduct (square b) (batch_length issued b) _⟩
  · intro inputs noise request messages replies challenges secondary c' issued answers
    obtain ⟨chd,chal,begun,finished⟩ :=
      request_accepted own later next issued answers challenges secondary
    refine ⟨chd,chal,begun,fun aux projects => ?_⟩
    exact ⟨_,finished aux projects,fun i b =>
      exactProduct (square b) (request_length issued i b) _⟩
  · intro input noise noise' owner message reply batch message' reply' challenges secondary c' d'
      issued answer continued answer'
    obtain ⟨chd,chal,begun,finished⟩ :=
      dependent_accepted own later next last issued answer continued answer' challenges secondary
    refine ⟨chd,chal,begun,fun aux projects => ?_⟩
    exact ⟨_,finished aux projects,exactProduct (square 0) (dependent_length issued) _,
      exactProduct (square 1) (canonical_eq_ok.mp (product_canonical _ _)).1 _⟩

/-! Requests do get issued, and a server that has not seen their attempt answers. -/

section Issued

variable {v : ValidatedPublication} {c : Client}

lemma reserved (free : c.live=false) (count : ℕ) (room : c.issued+count ≤ maxAttempts) (mode : Mode)
    : c.reserveOrdinals mode count = (.ok ⟨c.material.binding,c.session,c.issued,mode,batchSlot⟩,
    { c with issued := c.issued+count, live := true }) := by
  unfold Client.reserveOrdinals
  rw [if_neg (by omega),free]
  rfl

lemma claims_ok (own : c.material=v.material) (header : Header) (inputs : Fin batchSize → Words)
    (noise : Fin batchSize → Noise) : ∃ claims,both (fun b => c.claim header b (inputs b) (noise b))
    = .ok claims ∧ ∀ b,canonical (claims b).2.values dimension = .ok () ∧
    (claims b).2.header = { header with slot := b } ∧ (claims b).1.header=(claims b).2.header := by
  choose claim eq claimed head using fun b => v.claim_ok own header b (inputs b) (noise b)
  exact ⟨_,both_eq_ok.mpr eq,fun b => ⟨(claimed b).input,head b,rfl⟩⟩

variable (own : c.material=v.material) (free : c.live=false)
include own free

lemma query_issued (room : c.issued < maxAttempts) {slot : ℕ} (inRange : slot<batchSize)
    {input : Words} (ok : canonical input dimension = .ok ()) (noise : Noise) :
    ∃ query request,c.issueQuery true slot input (.ok noise) =
        (.ok (query,request),{ c with issued := c.issued+1, live := true }) ∧
      canonical request.values dimension = .ok () ∧
      request.header = ⟨c.material.binding,c.session,c.issued,.single,slot⟩ := by
  obtain ⟨claim,eq,claimed,head⟩ := v.claim_ok own
    ⟨c.material.binding,c.session,c.issued,.single,batchSlot⟩ ⟨slot,inRange⟩ input noise
  refine ⟨⟨claim⟩,⟨claim.header,claim.input⟩,?_,claimed.input,head⟩
  simp only [Client.issueQuery,Client.start,Client.reserve,reserved free 1 room,dif_pos inRange,ok,
    ok_bind,grant,if_true,eq,pure_eq_ok]

lemma batch_issued (room : c.issued < maxAttempts) {inputs : Fin batchSize → Words}
    (ok : ∀ b,canonical (inputs b) dimension = .ok ()) (noise : Fin batchSize → Noise) :
    ∃ batch requests,c.issueBatch true inputs (.ok noise) =
        (.ok (batch,requests),{ c with issued := c.issued+1, live := true }) ∧
      ∀ b,canonical (requests b).values dimension = .ok () ∧
        (requests b).header = ⟨c.material.binding,c.session,c.issued,.batch,b⟩ ∧
        (batch.claims b).header=(requests b).header := by
  obtain ⟨claims,eq,each⟩ := claims_ok own
    ⟨c.material.binding,c.session,c.issued,.batch,batchSlot⟩ inputs noise
  have inputsOk := both_eq_ok.mpr ok
  refine ⟨⟨fun b => (claims b).1⟩,fun b => (claims b).2,?_,each⟩
  simp only [Client.issueBatch,Client.start,Client.reserve,reserved free 1 room,inputsOk,ok_bind,grant,
    if_true,eq,pure_eq_ok]

lemma request_issued (room : c.issued+2 ≤ maxAttempts) {inputs : Fin 2 → Fin batchSize → Words}
    (ok : ∀ i b,canonical (inputs i b) dimension = .ok ()) (noise : Fin 2 → Fin batchSize → Noise) :
    ∃ request messages,c.issueRequest true inputs (.ok noise) =
        (.ok (request,messages),{ c with issued := c.issued+2, live := true }) ∧
      ∀ i b,canonical (messages i b).values dimension = .ok () ∧
        (messages i b).header = ⟨c.material.binding,c.session,c.issued+i,.batch,b⟩ := by
  choose claims eq each using fun i : Fin 2 => claims_ok own
    ⟨c.material.binding,c.session,c.issued+i,.batch,batchSlot⟩ (inputs i) (noise i)
  have inputsOk := both_eq_ok.mpr fun i => both_eq_ok.mpr (ok i)
  have all := both_eq_ok.mpr eq
  refine ⟨⟨fun i b => (claims i b).1⟩,fun i b => (claims i b).2,?_,fun i b =>
    ⟨(each i b).1,(each i b).2.1⟩⟩
  simp only [Client.issueRequest,Client.start,reserved free 2 room,inputsOk,ok_bind,grant,if_true,all,
    pure_eq_ok]

lemma dependent_issued (room : c.issued < maxAttempts) {input : Words}
    (ok : canonical input dimension = .ok ()) (noise : Noise) :
    ∃ owner message,c.issueDependent true input (.ok noise) =
        (.ok (owner,message),{ c with issued := c.issued+1, live := true }) ∧
      canonical message.values dimension = .ok () ∧
      message.header = ⟨c.material.binding,c.session,c.issued,.batch,0⟩ := by
  obtain ⟨claim,eq,claimed,head⟩ := v.claim_ok own
    ⟨c.material.binding,c.session,c.issued,.batch,batchSlot⟩ 0 input noise
  refine ⟨⟨claim⟩,⟨claim.header,claim.input⟩,?_,claimed.input,head⟩
  simp only [Client.issueDependent,Client.start,Client.reserve,reserved free 1 room,ok,ok_bind,grant,
    if_true,eq,pure_eq_ok]

end Issued

section Served

variable {s t : Server} {i : ℕ}

/-- A request that nothing of its attempt rules out, after some slots of the attempt. -/
lemma evaluate_ok {request : Message} (slots : ℕ) (head : s.check request.header = .ok i)
    (slot : request.header.slot<batchSize)
    (mode : ∀ mode ∈ s.modes.getD i none,mode=request.header.mode)
    (seen : s.seen.getD i 0 = slots) (evaluated : s.evaluated.getD i 0 = slots)
    (unseen : slots &&& 1 <<< request.header.slot = 0)
    (single : request.header.mode = .single → slots=0)
    (ok : canonical request.values dimension = .ok ())
    (next : { s with
      modes := s.modes.set i (some request.header.mode)
      seen := s.seen.set i (slots ||| 1 <<< request.header.slot)
      evaluated := s.evaluated.set i (slots ||| 1 <<< request.header.slot) } = t) :
    ∃ reply,s.evaluate true request = (.ok reply,t) := by
  subst next
  unfold Server.evaluate Server.burn
  simp only [head,dif_pos slot,ok,seen,evaluated]
  rw [if_neg]
  · exact ⟨_,rfl⟩
  · rintro (⟨m,mem,ne⟩ | seen | ⟨is,seen⟩)
    · exact ne (mode m mem)
    · exact seen unseen
    · exact seen (single is)

/-- A batch that has been evaluated is projected once. -/
lemma project_ok {header : Header} (primary : Checks codeLength) (head : s.check header = .ok i)
    (batch : header.mode = .batch) (slot : header.slot=batchSlot) (modes : s.modes.getD i none =
    some .batch) (seen : s.seen.getD i 0 = 3) (evaluated : s.evaluated.getD i 0 = 3) :
    ∃ aux s',s.project true ⟨header,fun i => (primary i).pairs⟩ = (.ok aux,s') := by
  have entries : both (fun i => Sparse.fromPairs codeLength checkWeight (primary i).pairs) =
      .ok primary := both_eq_ok.mpr fun i => fromPairs_pairs (primary i)
  unfold Server.project
  simp only [head,batch,slot,modes,seen,evaluated,entries]
  simp

lemma challenge_eq {d : Client} {batch : Batch} {responses : List Message}
    {challenges : Checks codeLength} {chd : ChallengedBatch} {chal : Challenge}
    (begun : (d.beginVerification true batch responses (.ok challenges)).1 =
      .ok (chd,chal)) :
    chal = ⟨{ (batch.claims 0).header with slot := batchSlot },
      fun i => (challenges i).pairs⟩ := by
  obtain ⟨outputs,-,prepared⟩ := bind_eq_ok.mp (proceed_ok (Prod.ext begun rfl))
  simp only [Client.prepareBatch,bind_eq_ok,ok_eq_ok,pure_eq_ok] at prepared
  obtain ⟨_,-,_,rfl,_,-,eq⟩ := prepared
  exact (Prod.mk.inj eq).2.symm

end Served

def plainCode (n : ℕ) : CodeDescription :=
  ⟨field,n,List.range (n*repeats),List.range (n*repeats),List.replicate (n*repeats) 1,
    List.replicate (n*repeats) 1⟩

lemma plainCode_valid {n : ℕ} (pos : 1≤n) (small : n ≤ secondaryDimension) :
    (plainCode n).validate n = .ok () := by
  have permutation : checkPermutation (n*repeats) (range (n*repeats)) = .ok () := by
    unfold checkPermutation
    rw [if_neg (by simp),if_pos ⟨by simp,nodup_range⟩]
  have scale : checkScale (n*repeats) (replicate (n*repeats) 1) = .ok () := by
    have ok : canonical (replicate (n*repeats) 1) (n*repeats) = .ok () :=
      canonical_eq_ok.mpr ⟨length_replicate,fun x m =>
        eq_of_mem_replicate m ▸ by decide⟩
    rw [checkScale,ok,ok_bind,if_neg fun m => by cases eq_of_mem_replicate m]
  unfold CodeDescription.validate
  rw [if_neg (by simp [plainCode]),if_neg (by simp [plainCode]; omega)]
  simp only [plainCode,permutation,scale,ok_bind]

section
variable {n count : ℕ} (c : Code n) {w : Words} {rows : ℕ → Words}

/-- The codewords of a table's rows, one after the other. -/
def Code.encoded (w : Words) : Words := (c.encode w).toOption.getD []

def Code.table (rows : ℕ → Words) (count : ℕ) : Words :=
  (range count).flatMap fun row => c.encoded (rows row)

lemma Code.encoded_spec (h : canonical w n = .ok ()) : c.encode w = .ok (c.encoded w) ∧
    (c.encoded w).length = repeats*n ∧ ∀ x∈c.encoded w,x<field := by
  obtain ⟨out,eq,length,bound,-⟩ := c.encode_ok h
  have same : c.encoded w=out := by
    rw [Code.encoded,eq]
    rfl
  rw [same,mul_comm]
  exact ⟨eq,length,bound⟩

lemma Code.table_spec {width : ℕ} (eq : width=repeats*n)
    (h : ∀ row<count,canonical (rows row) n = .ok ()) : canonical (c.table rows count) (count*width)
    = .ok () ∧ ∀ row<count,(c.table rows count).slice (row*width) width = c.encoded (rows row) := by
  subst eq
  have length (row : ℕ) (m : row∈range count) : (c.encoded (rows row)).length=repeats*n :=
    (c.encoded_spec (h row (mem_range.mp m))).2.1
  refine ⟨canonical_eq_ok.mpr ⟨?_,fun x m => ?_⟩,fun row less => ?_⟩
  · rw [Code.table,length_flatMap_const _ length,length_range,mul_comm]
  · obtain ⟨row,m,mem⟩ := mem_flatMap.mp m
    exact (c.encoded_spec (h row (mem_range.mp m))).2.2 x mem
  · refine (row_flatMap length ((length_range (n := count)).symm ▸ less)).trans ?_
    rw [getElem_range]

end

lemma row_canonical {matrix : Words} {n row : ℕ} (h : canonical matrix (n*dimension) = .ok ())
    (less : row<n) : canonical (matrixRow matrix row) dimension = .ok () := by
  obtain ⟨length,bound⟩ := canonical_eq_ok.mp h
  refine slice_canonical bound ?_
  rw [length,← Nat.succ_mul]
  exact Nat.mul_le_mul_right _ less

lemma column_canonical {matrix : Words} {n : ℕ} (h : canonical matrix n = .ok ()) (col : ℕ) :
    canonical (matrixColumn matrix col) dimension = .ok () :=
  map_range_canonical (fun _ => at_lt (canonical_eq_ok.mp h).2 _) dimension

lemma stacked_canonical {q : Fin batchSize → Words} {n r : ℕ} (h : ∀ b,canonical (q b) (n*dimension)
    = .ok ()) (less : r<n) : canonical (stackedRow q r) secondaryDimension = .ok () := by
  obtain ⟨l0,b0⟩ := canonical_eq_ok.mp (row_canonical (h 0) less)
  obtain ⟨l1,b1⟩ := canonical_eq_ok.mp (row_canonical (h 1) less)
  rw [canonical_eq_ok,stackedRow,length_append,l0,l1]
  exact ⟨rfl,fun x m => (mem_append.mp m).elim (b0 x) (b1 x)⟩

lemma at_table (f : ℕ → ℕ → ℕ) {rows width r col : ℕ} (hr : r<rows) (hc : col<width) :
    Words.at ((range (rows*width)).map fun i => f (i/width) (i%width)) (r*width+col) = f r col := by
  have inside : r*width+col<rows*width := (Nat.add_lt_add_left hc _).trans_le
    ((Nat.succ_mul r width).symm.trans_le (Nat.mul_le_mul_right _ hr))
  rw [at_map_range _ inside,Nat.mul_add_mod',Nat.mod_eq_of_lt hc,Nat.add_comm,
    Nat.add_mul_div_right _ _ (Nat.zero_lt_of_lt hc),Nat.div_eq_of_lt hc,Nat.zero_add]

/-- The parts that a check recomputes. -/
lemma check_ok {m : Material} (matrices : ∀ b,canonical (m.source.matrices b) (dimension*dimension) =
    .ok ()) (qs : ∀ b,canonical (m.parts.q b) (codeLength*dimension) = .ok ())
    (p : ∀ b,∀ r<dimension,(m.parts.p b).slice (r*codeLength) codeLength =
      (m.gx b).encoded (matrixRow (m.source.matrices b) r))
    (q : ∀ b,∀ col<dimension,∀ r<codeLength,(m.parts.q b).at (r*dimension+col) =
      (m.gy.encoded (matrixColumn (m.source.matrices b) col)).at r)
    (aux : ∀ r<codeLength,m.parts.qAuxiliary.slice (r*secondaryLength) secondaryLength =
      m.gp.encoded (stackedRow m.parts.q r)) : m.check = .ok () := by
  have checkRow (b : Fin batchSize) : (range dimension).forM (m.checkRow b) = .ok () := by
    refine forM_eq_ok.mpr fun r mr => ?_
    have less := mem_range.mp mr
    rw [Material.checkRow,((m.gx b).encoded_spec (row_canonical (matrices b) less)).1,ok_bind]
    exact if_neg (not_not.mpr (p b r less).symm)
  have checkColumn (b : Fin batchSize) : (range dimension).forM (m.checkColumn b) = .ok () := by
    refine forM_eq_ok.mpr fun col mc => ?_
    rw [Material.checkColumn,(m.gy.encoded_spec (column_canonical (matrices b) col)).1,ok_bind]
    exact if_neg fun ⟨r,hr,ne⟩ => ne (q b col (mem_range.mp mc) r hr).symm
  have checkStacked : (range codeLength).forM m.checkStacked = .ok () := by
    refine forM_eq_ok.mpr fun r mr => ?_
    have less := mem_range.mp mr
    rw [Material.checkStacked,(m.gp.encoded_spec (stacked_canonical qs less)).1,ok_bind]
    exact if_neg (not_not.mpr (aux r less).symm)
  simp only [Material.check,checkRow,checkColumn,checkStacked,ok_bind]

/-- Every admitted setup has a publication. -/
lemma exists_publication {source : SetupInputs} (valid : source.validate = .ok ()) (binding : Words) :
    ∃ v : ValidatedPublication,v.material.source=source ∧ v.material.binding=binding := by
  obtain ⟨matrices,x,y,z⟩ := SetupInputs.spec valid
  let gy : Code dimension := ⟨source.primaryCode,y⟩
  let gp : Code secondaryDimension := ⟨source.secondaryCode,z⟩
  obtain ⟨q,qs,entries⟩ : ∃ q : Fin batchSize → Words,
      (∀ b,canonical (q b) (codeLength*dimension) = .ok ()) ∧ ∀ b,∀ col<dimension,
        ∀ r<codeLength,(q b).at (r*dimension+col) =
          (gy.encoded (matrixColumn (source.matrices b) col)).at r :=
    ⟨fun b => (range (codeLength*dimension)).map fun i =>
      (gy.encoded (matrixColumn (source.matrices b) (i%dimension))).at (i/dimension),
      fun b => map_range_canonical
        (fun _ => at_lt (gy.encoded_spec (column_canonical (matrices b) _)).2.2 _) _,
      fun b col less r hr => @at_table
        (fun r c => (gy.encoded (matrixColumn (source.matrices b) c)).at r) _ _ _ _ hr less⟩
  have p (b : Fin batchSize) := Code.table_spec ⟨source.privacyCodes b,x b⟩
    (show codeLength=repeats*dimension from rfl) fun r less => row_canonical (matrices b) less
  obtain ⟨aux,shaped,rows⟩ : ∃ aux : Words,
      canonical aux (codeLength*secondaryLength) = .ok () ∧ ∀ r<codeLength,
        aux.slice (r*secondaryLength) secondaryLength = gp.encoded (stackedRow q r) :=
    ⟨_,gp.table_spec (show secondaryLength=repeats*secondaryDimension from rfl)
      fun r less => stacked_canonical qs less⟩
  have first (b : Fin batchSize) := (p b).1
  let parts : PublicationParts := ⟨fun b => Code.table ⟨source.privacyCodes b,x b⟩
    (matrixRow (source.matrices b)) dimension,q,aux⟩
  have shape : parts.validateShape = .ok () := by
    simp only [parts,PublicationParts.validateShape,first,qs,shaped,ok_bind]
  let m : Material := ⟨source,valid,parts,shape,binding⟩
  exact ⟨⟨m,check_ok matrices qs (fun b => (p b).2) entries rows⟩,rfl,rfl⟩
/-- Matrices of ones, with codes that leave every place where it is. -/
def ones : SetupInputs := ⟨fun _ => replicate (dimension*dimension) 1,fun _ => plainCode dimension,
  plainCode dimension,plainCode secondaryDimension⟩

lemma ones_canonical (n : ℕ) : canonical (replicate n 1) n = .ok () :=
  canonical_eq_ok.mpr ⟨length_replicate,fun _ m => eq_of_mem_replicate m ▸ by decide⟩

lemma ones_valid : ones.validate = .ok () := by
  have small := plainCode_valid (n := dimension) (by decide) (by decide)
  have large := plainCode_valid (n := secondaryDimension) (by decide) (by decide)
  simp only [SetupInputs.validate,ones,ones_canonical,small,large,ok_bind]

lemma leading_valid {length weight : ℕ} (pos : 0<weight) (small : length ≤ secondaryLength) (h :
    weight≤length) : checkPairs length weight ((range weight).flatMap fun i => [i,1]) = .ok () := by
  have pairs (l : List ℕ) : pairsOf (l.flatMap fun i => [i,1])=l.map fun i => (i,1) := by
    induction l with
    | nil => rfl
    | cons i l ih => exact congrArg ((i,1)::·) ih
  have count (l : List ℕ) : (l.flatMap fun i => [i,1]).length=2*l.length := by
    induction l with
    | nil => rfl
    | cons i l ih =>
      rw [flatMap_cons,length_append,length_cons]
      simp only [length_cons,length_nil]
      omega
  unfold checkPairs
  rw [if_neg (by rw [count,length_range]; omega),pairs,if_pos]
  refine ⟨all_eq_true.mpr fun p mem => ?_,?_⟩
  · obtain ⟨i,m,rfl⟩ := mem_map.mp mem
    have := mem_range.mp m
    simp only [Bool.and_eq_true,decide_eq_true_eq]
    exact ⟨⟨by omega,by decide⟩,by decide⟩
  · simpa [Function.comp_def] using nodup_range

/-- Ones at the first places. -/
def leading (length weight : ℕ) (h : 0<weight ∧ length ≤ secondaryLength ∧ weight≤length) :
    Sparse length weight := ⟨_,leading_valid h.1 h.2.1 h.2.2⟩

/-- The first batch of a session with matrices of ones: it is issued, answered, challenged,
projected and accepted. -/
theorem honest_answers_accepted_ones : ∃ (v : ValidatedPublication) (batch : Batch)
    (requests : Fin batchSize → Message) (chd : ChallengedBatch) (chal : Challenge)
    (accepted : AcceptedBatch) (c : Client) (s t u : Server) (first second aux : Message),
    v.material.source=ones ∧
    (v.split []).1.issueBatch true (fun _ => replicate dimension 1)
      (.ok fun _ => leading _ _ (by decide)) = (.ok (batch,requests),c) ∧
    (v.split []).2.evaluate true (requests 0) = (.ok first,s) ∧
    s.evaluate true (requests 1) = (.ok second,t) ∧
    (c.beginVerification true batch [first,second] (.ok fun _ => leading _ _ (by decide))).1 =
      .ok (chd,chal) ∧
    t.project true chal = (.ok aux,u) ∧
    (c.finishBatch true chd aux (.ok fun _ => leading _ _ (by decide))).1 =
      .ok accepted ∧
    ∀ b,ExactProduct (ones.matrices b) (replicate dimension 1) (accepted.outputs b) := by
  obtain ⟨v,source,binding⟩ := exists_publication ones_valid []
  have own (issued : ℕ) (live : Bool) :
      Client.Of ⟨v.material,[],issued,live⟩ v.material [] := ⟨rfl,rfl⟩
  obtain ⟨batch,requests,issued,each⟩ := batch_issued (c := (v.split []).1) (v := v) rfl rfl
    (show 0 < maxAttempts by decide) (fun _ => ones_canonical dimension)
    (fun _ => leading _ _ (by decide))
  have head (b : Fin batchSize) : (requests b).header=⟨[],[],0,.batch,b⟩ :=
    (each b).2.1.trans (by rw [← binding]; rfl)
  have checks (server : Server) (hb : server.binding=v.material.binding)
      (hs : server.session = []) (slot : ℕ) : server.check ⟨[],[],0,.batch,slot⟩ = .ok 0 := by
    simp [Server.check,hb,hs,binding,maxAttempts]
  have head0 : (requests 0).header=⟨[],[],0,.batch,0⟩ := head 0
  have head1 : (requests 1).header=⟨[],[],0,.batch,1⟩ := head 1
  -- the server once it has seen and evaluated some slots of the batch
  let seen (slots : ℕ) : Server := { (v.split []).2 with
    modes := (replicate maxAttempts none).set 0 (some .batch)
    seen := (replicate maxAttempts 0).set 0 slots
    evaluated := (replicate maxAttempts 0).set 0 slots }
  obtain ⟨first,evaluated⟩ := evaluate_ok (s := (v.split []).2) (t := seen 1) 0
    (by rw [head0]; exact checks _ rfl rfl 0) (by rw [head0]; decide)
    (by rintro m ⟨⟩) rfl rfl (Nat.zero_and _) (fun _ => rfl) (each 0).1 (by rw [head0]; rfl)
  obtain ⟨second,evaluated'⟩ := evaluate_ok (s := seen 1) (t := seen 3) 1
    (by rw [head1]; exact checks _ rfl rfl 1) (by rw [head1]; decide)
    (by rw [head1]; rintro m ⟨⟩; rfl) rfl rfl (by rw [head1]; rfl) (by rw [head1]; exact nofun)
    (each 1).1 (by rw [head1]; rfl)
  obtain ⟨chd,chal,begun,finished⟩ := (honest_answers_accepted v [] (own 0 false)
    (own 1 true) (own 1 true) (own 1 true)).2.1 _ _ batch requests ![first,second]
    (fun _ => leading _ _ (by decide)) (fun _ => leading _ _ (by decide)) _ issued
    (Fin.forall_fin_two.mpr ⟨⟨_,_,⟨rfl,rfl⟩,evaluated⟩,⟨_,_,⟨rfl,rfl⟩,evaluated'⟩⟩)
  have eq := challenge_eq begun
  rw [(each 0).2.2,head] at eq
  obtain ⟨aux,u,projected⟩ := project_ok (s := seen 3) (fun _ => leading _ _ (by decide))
    (checks _ rfl rfl batchSlot) rfl rfl rfl rfl rfl
  rw [← eq] at projected
  obtain ⟨accepted,done,exact_⟩ := finished aux ⟨_,u,⟨rfl,rfl⟩,projected⟩
  exact ⟨v,batch,requests,chd,chal,accepted,_,_,_,u,first,second,aux,source,issued,
    evaluated,evaluated',begun,projected,done,fun b => source ▸ exact_ b⟩

end Pllm.Maverick
