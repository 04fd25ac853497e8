import Pllm.Freivalds.ProjectionCorrect
import Pllm.Freivalds.Verifier

/-! Imported projections stay what they were prepared as until their rows are claimed, and the
verifier of claimed rows compares outputs with the honest ones. -/
namespace Pllm.Freivalds
open Pllm.Lib Finset ProjectionBatch Nat

variable {prim : Primitives} {seed binding : Bytes}

lemma decode_encode {values : List ℕ} (canonical : ∀ x∈values,x < modulus) :
    (chunksExact 4 (values.flatMap fun value => leBytes 4 (BitVec.ofNat 32 value))).map
      (fun chunk => (ofLeBytes 32 chunk).toNat)=values := by
  rw [chunksExact_flatMap (by decide) values fun _ _ => length_leBytes 4 _,List.map_map]
  refine (List.map_congr_left fun x m => ?_).trans (List.map_id values)
  have small := canonical x m
  unfold modulus at small
  have word : ofLeBytes 32 (leBytes 4 (BitVec.ofNat 32 x))=BitVec.ofNat 32 x :=
    ofLeBytes_leBytes _ (by decide)
  simp only [Function.comp_apply,word,id_eq]
  exact mod_eq_of_lt (by omega)

variable {weights : List ℤ} {resources : ResourcePolicy}

/-- An import under the terms of the preparation takes the projections as they are. -/
lemma import_prepared {b b' : ProjectionBatch} {encoded tag seed' : Bytes}
    {granted : Bool} {session session' : Session} (prepared : Prepared
    prim seed binding weights b) (enc : b.encode = .ok encoded) (own : session.id=b.terms.sessionId)
    (h : importProjections prim granted encoded tag seed' binding session b.inventoryRows b.terms
      resources = (.ok b',session')) : b' = { b with claimable := true } := by
  have bytes : encoded=b.values.flatMap fun value => leBytes 4 (BitVec.ofNat 32 value) := by
    unfold encode at enc
    split at enc
    · cases enc
    · obtain ⟨_,-,eq⟩ := bind_eq_ok.mp enc
      exact (ok_inj eq).symm
  have terms : { b.terms with sessionId := session.id } = b.terms := by rw [own]
  unfold importProjections at h
  rw [terms] at h
  dsimp only at h
  split at h
  · cases h
  rename_i digest checked
  split at h
  · cases h
  split at h
  · cases h
  split at h
  · cases h
  have same : digest=b.bindingDigest := by
    unfold checkImport at checked
    split at checked
    · cases checked
    obtain ⟨_,-,_,-,_,-,checked⟩ := bind₃_eq_ok.mp checked
    split at checked
    · cases checked
    obtain ⟨_,-,digest',digested,checked⟩ := bind₂_eq_ok.mp checked
    split at checked
    · cases checked
    obtain rfl := ok_inj checked
    exact ok_inj (digested.symm.trans prepared.digest)
  rw [bytes,decode_encode prepared.canonical,same] at h
  cases h
  rw [← prepared.consumed]

/-- What claims leave of projections: the rows that are not consumed are as they were. -/
structure Held (origin b : ProjectionBatch) : Prop where
  inventory : b.inventoryRows=origin.inventoryRows
  terms : b.terms=origin.terms
  digest : b.bindingDigest=origin.bindingDigest
  consumed_length : b.consumed.length=origin.inventoryRows
  length : b.values.length =
    origin.inventoryRows*(origin.terms.policy.checks*origin.terms.inFeatures)
  rows : ∀ r<origin.inventoryRows,b.consumed.getD r true = false →
    row (origin.terms.policy.checks*origin.terms.inFeatures) b.values r =
      row (origin.terms.policy.checks*origin.terms.inFeatures) origin.values r

lemma Prepared.held {b : ProjectionBatch}
    (prepared : Prepared prim seed binding weights b) : Held b { b with claimable := true } := by
  refine ⟨rfl,rfl,rfl,?_,?_,fun _ _ _ => rfl⟩
  · rw [prepared.consumed,List.length_replicate]
  · rw [← mul_assoc]
    exact prepared.length

/-- What a claim has looked at before it burns its rows. -/
structure Admitted (prim : Primitives) (binding : Bytes) (b : ProjectionBatch)
    (rowStart batchRows start length : ℕ) : Prop where
  digest : bindingDigest prim binding = .ok b.bindingDigest
  inside : rowStart+batchRows≤b.inventoryRows
  nonempty : 0<batchRows
  start_eq : start = rowStart*(b.terms.policy.checks*b.terms.inFeatures)
  length_eq : length = batchRows*(b.terms.policy.checks*b.terms.inFeatures)
  room : start+length≤b.values.length
  blocks : batchRows*b.terms.policy.checks<2^64
  projections : batchRows*b.terms.policy.checks*b.terms.inFeatures < 2^64
  challenges : batchRows*b.terms.policy.checks*b.terms.outFeatures < 2^64
  matrix : b.terms.outFeatures*b.terms.inFeatures<2^64
  inputs : batchRows*b.terms.inFeatures<2^64
  outputs : batchRows*b.terms.outFeatures<2^64
  features : b.terms.inFeatures+b.terms.outFeatures<2^64
  fresh : ∀ r,rowStart ≤ r → r < rowStart+batchRows → b.consumed.getD r false = false

lemma validateSelection_ends (inventoryRows rowStart batchRows inFeatures outFeatures checks : ℕ)
    (signedOutputBound : ℤ) (resources : ResourcePolicy) :
    Ends (validateSelection inventoryRows rowStart batchRows inFeatures outFeatures checks
      signedOutputBound resources) (fun _ => rowStart+batchRows ≤ inventoryRows ∧ 0<batchRows ∧
        0 < checks ∧ batchRows*checks<2^64 ∧ batchRows*checks*inFeatures<2^64 ∧
        batchRows*checks*outFeatures<2^64 ∧ outFeatures*inFeatures<2^64 ∧
        batchRows*outFeatures<2^64 ∧ inFeatures+outFeatures<2^64) Sane := by
  refine (checkedAdd_ends _ _).bind fun rowEnd ⟨eq,_⟩ => ?_
  split
  · exact sane_refused _
  split
  · exact sane_refused _
  refine bind_checkedMul fun matrix => ?_
  refine bind_checkedMul fun blocksSmall => ?_
  refine bind_checkedMul fun projectionsSmall => ?_
  refine bind_checkedMul fun challengesSmall => ?_
  refine bind_checkedMul fun outputsSmall => ?_
  refine bind_checkedAdd fun features => ?_
  refine bind_checkedMul fun _ => ?_
  split
  · exact sane_refused _
  exact ⟨by omega,by omega,by omega,blocksSmall,projectionsSmall,challengesSmall,matrix,
      outputsSmall,features⟩

lemma checkClaim_ends (prim : Primitives) (binding : Bytes) (b : ProjectionBatch)
    (rowStart batchRows : ℕ) (session : Session) (resources : ResourcePolicy) :
    Ends (b.checkClaim prim binding rowStart batchRows session resources) (fun place =>
      (session.id=b.terms.sessionId ∧ session.policy=b.terms.policy) ∧
        Admitted prim binding b rowStart batchRows place.1 place.2) Sane := by
  unfold checkClaim
  split
  · exact sane_refused _
  split
  · exact sane_refused _
  rename_i owner
  simp only [not_or,not_not] at owner
  refine (bindingDigest_ends binding).bind fun digest hdig => ?_
  split
  · exact sane_refused _
  rename_i same
  rw [not_not.mp same] at hdig
  refine (validateSelection_ends ..).bind fun _
    ⟨inside,nonempty,checks,blocks,projections,challenges,matrix,outputs,features⟩ => ?_
  refine bind_checkedMul fun _ => ?_
  refine (checkedMul_ends _ _).bind fun start ⟨hst,_⟩ => ?_
  refine (checkedMul_ends _ _).bind fun length ⟨hlen,_⟩ => ?_
  refine bind_checkedAdd fun _ => ?_
  split
  · exact sane_refused _
  rename_i room
  split
  · exact sane_refused _
  rename_i fresh
  have inputs : batchRows*b.terms.inFeatures<2^64 := by
    refine lt_of_le_of_lt ?_ projections
    exact Nat.mul_le_mul_right _ (Nat.le_mul_of_pos_right _ checks)
  refine ⟨owner,hdig,inside,nonempty,hst,hlen,not_lt.mp room,blocks,projections,challenges,
    matrix,inputs,outputs,features,fun r low high => ?_⟩
  by_contra taken
  rw [Bool.not_eq_false] at taken
  refine fresh (List.any_eq_true.mpr ⟨true,List.mem_of_getElem? (i := r-rowStart) ?_,rfl⟩)
  rw [getElem?_slice,if_pos (by omega),Nat.add_sub_cancel' low]
  rw [List.getD_eq_getElem?_getD] at taken
  cases eq : b.consumed[r]? with
  | none =>
    rw [eq] at taken
    cases taken
  | some x =>
    rw [eq] at taken
    exact congrArg Option.some taken

/-- A claim is refused and changes nothing, or its rows are burned in the batch and taken from the
session, whatever becomes of the verifier. -/
lemma claimVerifier_cases (prim : Primitives) (seed binding : Bytes) (b : ProjectionBatch)
    (granted granted' : Bool) (rowStart batchRows : ℕ) (session : Session) (resources : ResourcePolicy) :
    let r := b.claimVerifier prim granted granted' seed binding rowStart batchRows session resources
    (∃ e,Sane e ∧ r = (.error e,b,session)) ∨ ∃ start length, Admitted prim binding b rowStart
      batchRows start length ∧ session.policy=b.terms.policy ∧ batchRows ≤ session.remainingAttempts ∧
      r.2 = ({ b with
          consumed := fillPart b.consumed rowStart batchRows true
          values := fillPart b.values start length 0 },
        { session with remainingAttempts := session.remainingAttempts-batchRows }) ∧
      Ends r.1 (fun v => ∃ challenges,
        Challenges prim seed (prim.contextDigest b.bindingDigest b.terms) b.terms rowStart batchRows
          challenges ∧
        v = ⟨batchRows,b.terms.inFeatures,b.terms.outFeatures,b.terms.policy.checks,
          b.terms.signedInputBound,b.terms.signedOutputBound,b.terms.maxRowL1,challenges,
          slice b.values start length,false⟩) Sane := by
  unfold claimVerifier
  have ends := checkClaim_ends prim binding b rowStart batchRows session resources
  split
  · rename_i e refused
    exact .inl ⟨e,ends.error refused,rfl⟩
  rename_i start length checked
  obtain ⟨owner,admitted⟩ := ends.ok checked
  split
  · rename_i e refused
    refine .inl ⟨e,?_,rfl⟩
    unfold Session.claim at refused
    split at refused
    · cases refused
      exact sane_refused _
    · cases refused
  rename_i session' claimed
  obtain ⟨room,rfl⟩ : batchRows ≤ session.remainingAttempts ∧
      { session with remainingAttempts := session.remainingAttempts-batchRows } = session' := by
    unfold Session.claim at claimed
    split at claimed
    · cases claimed
    · rename_i room
      exact ⟨not_lt.mp room,ok_inj claimed⟩
  refine .inr ⟨start,length,admitted,owner.2,room,?_⟩
  split
  · exact ⟨rfl,sane_refused _⟩
  refine ⟨rfl,?_⟩
  refine bind_checkedAdd fun _ => ?_
  refine (validateSelection_ends ..).bind fun _ _ => ?_
  split
  · exact sane_refused _
  refine (deriveChallenges_ends b.terms rowStart batchRows).bind fun challenges
    ⟨digest,digested,derived⟩ => ?_
  obtain rfl : digest=b.bindingDigest := ok_inj (digested.symm.trans admitted.digest)
  exact ⟨challenges,derived,rfl⟩

variable {α : Type} {xs : List α} {start length : ℕ}

lemma length_fillPart (x : α) (h :
    start+length≤xs.length) : (fillPart xs start length x).length = xs.length :=
  length_splice (by simpa using h)

lemma getD_fillPart (x d : α) (h : start+length≤xs.length) (i : ℕ) :
    (fillPart xs start length x).getD i d =
      if start ≤ i ∧ i < start+length then x else xs.getD i d := by
  rw [fillPart,List.getD_eq_getElem?_getD,getElem?_splice (by simpa using h),
    List.length_replicate]
  split
  · have : i-start<length := by omega
    simp [this]
  · rw [List.getD_eq_getElem?_getD]

lemma Held.claim {origin b : ProjectionBatch} (held : Held origin b) (granted granted' : Bool)
    (rowStart batchRows : ℕ) (session : Session) (resources : ResourcePolicy) :
    Held origin (b.claimVerifier prim granted granted' seed binding rowStart batchRows session
      resources).2.1 := by
  rcases claimVerifier_cases prim seed binding b granted granted'
    rowStart batchRows session resources with
      ⟨e,-,eq⟩ | ⟨start,length,admitted,-,-,eq,-⟩
  · rw [eq]
    exact held
  · rw [eq]
    have inside : rowStart+batchRows≤b.consumed.length := by
      rw [held.consumed_length,← held.inventory]
      exact admitted.inside
    refine ⟨held.inventory,held.terms,held.digest,?_,?_,fun r hr fresh => ?_⟩
    · exact (length_fillPart true inside).trans held.consumed_length
    · exact (length_fillPart 0 admitted.room).trans held.length
    · rw [getD_fillPart true true inside] at fresh
      split at fresh
      · cases fresh
      rename_i outside
      rw [← held.rows r hr fresh]
      have terms := held.terms
      have start_eq := admitted.start_eq
      have length_eq := admitted.length_eq
      rw [terms] at start_eq length_eq
      subst start_eq length_eq
      show row _ (splice b.values _ (List.replicate _ 0)) r=_
      rw [row_splice List.length_replicate (by simpa using admitted.room),if_neg outside]

/-- A verifier of rows whose projections were prepared. -/
structure Claimed (prim : Primitives) (seed : Bytes) (origin : ProjectionBatch)
    (rowStart batchRows : ℕ) (v : Verifier) : Prop where
  rows : v.batchRows=batchRows
  inFeatures : v.inFeatures=origin.terms.inFeatures
  outFeatures : v.outFeatures=origin.terms.outFeatures
  checks : v.checks=origin.terms.policy.checks
  inputBound : v.signedInputBound = origin.terms.signedInputBound
  outputBound : v.signedOutputBound = origin.terms.signedOutputBound
  l1 : v.maxRowL1=origin.terms.maxRowL1
  consumed : v.consumed=false
  inside : rowStart+batchRows≤origin.inventoryRows
  nonempty : 0<batchRows
  blocks : batchRows*origin.terms.policy.checks<2^64
  projectionsSized : batchRows*origin.terms.policy.checks*origin.terms.inFeatures < 2^64
  inputs : batchRows*origin.terms.inFeatures<2^64
  outputs : batchRows*origin.terms.outFeatures<2^64
  features : origin.terms.inFeatures+origin.terms.outFeatures < 2^64
  challenges : Challenges prim seed (prim.contextDigest origin.bindingDigest origin.terms)
    origin.terms rowStart batchRows v.challenges
  projections : ∀ r<batchRows,∀ check<origin.terms.policy.checks,
    slice v.projections ((r*origin.terms.policy.checks+check)*origin.terms.inFeatures)
      origin.terms.inFeatures =
    slice origin.values (((rowStart+r)*origin.terms.policy.checks+check)*origin.terms.inFeatures)
      origin.terms.inFeatures

lemma slice_row (xs : List ℕ) {r check checks width : ℕ} (h : check < checks) : slice xs
    ((r*checks+check)*width) width = slice (row (checks*width) xs r) (check*width) width := by
  have room : check*width+width ≤ checks*width := by
    rw [← succ_mul]
    exact Nat.mul_le_mul_right _ h
  rw [row,slice_slice _ room]
  congr 1
  ring

lemma Held.claimed {origin b : ProjectionBatch} (held : Held origin b) {granted granted' : Bool}
    {rowStart batchRows : ℕ} {session : Session} {v : Verifier}
    (h : (b.claimVerifier prim granted granted' seed binding rowStart batchRows session
      resources).1 = .ok v) : Claimed prim seed origin rowStart batchRows v := by
  rcases claimVerifier_cases prim seed binding b granted granted'
    rowStart batchRows session resources with
      ⟨e,-,eq⟩ | ⟨start,length,admitted,-,-,-,ends⟩
  · rw [eq] at h
    cases h
  obtain ⟨challenges,derived,rfl⟩ := ends.ok h
  have inside := admitted.inside
  obtain ⟨terms,digest,inventory⟩ := And.intro held.terms (And.intro held.digest held.inventory)
  have blocks := admitted.blocks
  have projections := admitted.projections
  have inputs := admitted.inputs
  have outputs := admitted.outputs
  have features := admitted.features
  have start_eq := admitted.start_eq
  have length_eq := admitted.length_eq
  rw [terms] at derived blocks projections inputs outputs features start_eq length_eq
  rw [digest] at derived
  rw [inventory] at inside
  refine ⟨rfl,by rw [terms],by rw [terms],by rw [terms],by rw [terms],by rw [terms],by rw [terms],
    rfl,inside,admitted.nonempty,blocks,projections,inputs,outputs,features,derived,
    fun r hr check hc => ?_⟩
  let width := origin.terms.policy.checks*origin.terms.inFeatures
  have fresh : b.consumed.getD (rowStart+r) true=false := by
    have taken := admitted.fresh (rowStart+r) (by omega) (by omega)
    have inside : rowStart+r<b.consumed.length := by
      rw [held.consumed_length]
      omega
    simpa [inside] using taken
  have part : row width (slice b.values start length) r=row width origin.values (rowStart+r) := by
    rw [← held.rows (rowStart+r) (by omega) fresh]
    have room : r*width+width≤length := by
      rw [length_eq,← succ_mul]
      exact Nat.mul_le_mul_right _ hr
    rw [row,slice_slice _ room,start_eq]
    congr 1
    ring
  rw [slice_row _ hc,slice_row _ hc]
  exact congrArg (fun xs => slice xs (check*origin.terms.inFeatures) origin.terms.inFeatures) part

/-- The honest output of a row of inputs. -/
def honest (weights : List ℤ) (inFeatures output : ℕ) (input : ℕ → ℤ) : ℤ :=
  ∑ j ∈ Finset.range inFeatures,weight weights inFeatures output j*input j

/-- The projections of an input meet the challenge of its honest output. -/
lemma fieldDot_projections {inFeatures outFeatures : ℕ} {challenge : ℕ → ℕ} {projection : ℕ → ℕ}
    (input : ℕ → ℤ) (h : ∀ j < inFeatures,(projection j : ZMod modulus) = fieldDot outFeatures
    (fun o => weight weights inFeatures o j) challenge) : fieldDot inFeatures input projection =
    fieldDot outFeatures (fun o => honest weights inFeatures o input) challenge := by
  unfold fieldDot at h ⊢
  calc ∑ j ∈ range inFeatures,(input j : ZMod modulus) * (projection j : ZMod modulus)
      = ∑ j ∈ range inFeatures,∑ o ∈ range outFeatures,
          (input j : ZMod modulus) * ((weight weights inFeatures o j : ZMod modulus) *
            (challenge o : ZMod modulus)) := by
        refine sum_congr rfl fun j m => ?_
        rw [h j (mem_range.mp m),mul_sum]
    _ = ∑ o ∈ range outFeatures,∑ j ∈ range inFeatures,
          (input j : ZMod modulus) * ((weight weights inFeatures o j : ZMod modulus) *
            (challenge o : ZMod modulus)) := sum_comm
    _ = ∑ o ∈ range outFeatures, ((honest weights inFeatures o input:ℤ) : ZMod modulus) *
            (challenge o : ZMod modulus) := by
        refine sum_congr rfl fun o _ => ?_
        rw [honest,Int.cast_sum,sum_mul]
        refine sum_congr rfl fun j _ => ?_
        rw [Int.cast_mul]
        ring

lemma natAbs_honest_le {inFeatures output l1 m : ℕ} {input : ℕ → ℤ} (rows : ∑ j
    ∈ range inFeatures,(weight weights inFeatures output j).natAbs ≤ l1) (inputs : ∀ j <
    inFeatures,(input j).natAbs ≤ m) : (honest weights inFeatures output input).natAbs ≤ m*l1 := by
  calc (∑ j ∈ range inFeatures,weight weights inFeatures output j*input j).natAbs
      ≤ ∑ j ∈ range inFeatures,(weight weights inFeatures output j*input j).natAbs := by
        zify
        exact abs_sum_le_sum_abs ..
    _ ≤ ∑ j ∈ range inFeatures,(weight weights inFeatures output j).natAbs*m := by
        refine sum_le_sum fun j mem => ?_
        rw [Int.natAbs_mul]
        exact Nat.mul_le_mul_left _ (inputs j (mem_range.mp mem))
    _ = m*∑ j ∈ range inFeatures,(weight weights inFeatures output j).natAbs := by
        rw [← sum_mul,mul_comm]
    _ ≤ m*l1 := Nat.mul_le_mul_left _ rows

lemma inputMax_spec (input : List ℤ) (start : ℕ) : start ≤ input.foldl
    (fun maximum value => max maximum value.natAbs) start ∧ (∀ x∈input,x.natAbs ≤ input.foldl
    (fun maximum value => max maximum value.natAbs) start) ∧ ∀ m,start ≤ m → (∀ x∈input,x.natAbs ≤
    m) → input.foldl (fun maximum value => max maximum value.natAbs) start ≤ m := by
  induction input generalizing start with
  | nil => exact ⟨le_rfl,fun _ m => absurd m List.not_mem_nil,fun m le _ => le⟩
  | cons x input ih =>
    obtain ⟨le,all,least⟩ := ih (max start x.natAbs)
    refine ⟨(le_max_left _ _).trans le,fun y m => ?_,fun m le bound => ?_⟩
    · rcases List.mem_cons.mp m with rfl | m
      · exact (le_max_right _ _).trans le
      · exact all y m
    · refine least m (max_le le (bound x List.mem_cons_self)) fun y mem => ?_
      exact bound y (List.mem_cons_of_mem _ mem)

namespace Claimed

variable {origin : ProjectionBatch} {rowStart batchRows : ℕ} {v : Verifier} {weights : List ℤ}

/-- The challenge of a check of a row of the verifier. -/
def challenge (v : Verifier) (r check : ℕ) : List ℕ :=
  slice v.challenges ((r*v.checks+check)*v.outFeatures) v.outFeatures

/-- A check compares the output with the honest one under its challenge. -/
lemma checkRow_ok (claimed : Claimed prim seed origin rowStart batchRows v) (prepared : Prepared
    prim seed binding weights origin) {r check : ℕ} (hr : r<batchRows) (hc : check<v.checks) {input
    output : List ℤ} (hin : input.length=v.inFeatures) (hout : output.length=v.outFeatures) :
    ∃ holds,v.checkRow r input output check = .ok holds ∧ (holds=true ↔
      fieldDot v.outFeatures (output.getD · 0) ((challenge v r check).getD · 0) =
      fieldDot v.outFeatures (fun o => honest weights v.inFeatures o (input.getD · 0))
        ((challenge v r check).getD · 0)) := by
  obtain ⟨rfl,hIn,hOut,hChecks⟩ :=
    And.intro claimed.rows (And.intro claimed.inFeatures (And.intro claimed.outFeatures claimed.checks))
  have blocks := claimed.blocks
  have sizedIn := claimed.projectionsSized
  have sizedOut := claimed.challenges.sized
  have length := claimed.challenges.length
  have derived := claimed.challenges.each r hr check (hChecks ▸ hc)
  have part := claimed.projections r hr check (hChecks ▸ hc)
  obtain ⟨challenge',again,projected⟩ := prepared.projections (rowStart+r)
    (by have := claimed.inside; omega) check (hChecks ▸ hc)
  rw [← hIn,← hChecks] at sizedIn part projected
  rw [← hOut,← hChecks] at sizedOut length derived
  rw [← hChecks] at blocks
  rw [← hOut] at again projected
  have same : challenge'=challenge v r check := ok_inj (again.symm.trans derived)
  subst same
  have next : r*v.checks+check+1≤v.batchRows*v.checks := by
    have : (r+1)*v.checks≤v.batchRows*v.checks := Nat.mul_le_mul_right _ hr
    rw [succ_mul] at this
    omega
  have stop (width : ℕ) : (r*v.checks+check)*width+width ≤ v.batchRows*v.checks*width := by
    rw [← succ_mul]
    exact Nat.mul_le_mul_right _ next
  have stopIn := stop v.inFeatures
  have stopOut := stop v.outFeatures
  obtain ⟨left,leftOk,leftSmall,leftValue⟩ := dotSignedField_ok hout derived.canonical.1
    (by omega) derived.canonical.2
  have inside : ((rowStart+r)*v.checks+check)*v.inFeatures+v.inFeatures ≤ origin.values.length := by
    rw [prepared.length,← hChecks,← hIn,← succ_mul]
    refine Nat.mul_le_mul_right _ ?_
    have : (rowStart+r+1)*v.checks ≤ origin.inventoryRows*v.checks :=
      Nat.mul_le_mul_right _ (by have := claimed.inside; omega)
    rw [succ_mul] at this
    omega
  have canonical : ∀ x ∈ slice origin.values (((rowStart+r)*v.checks+check)*v.inFeatures)
      v.inFeatures,x < modulus := fun x m =>
    prepared.canonical x (List.mem_of_mem_drop (List.mem_of_mem_take m))
  obtain ⟨right,rightOk,rightSmall,rightValue⟩ := dotSignedField_ok hin (length_slice inside)
    (by omega) canonical
  refine ⟨decide (left=right),?_,?_⟩
  · unfold Verifier.checkRow
    rw [blockStart_ok hr (lt_succ_of_lt hc) sizedOut blocks,ok_bind,addOf_ok (by omega),ok_bind,
      blockStart_ok hr (lt_succ_of_lt hc) sizedIn blocks,ok_bind,addOf_ok (by omega),ok_bind,
      leftOk,ok_bind,part,rightOk,ok_bind]
    rfl
  · have meets := fieldDot_projections (input.getD · 0) projected
    rw [decide_eq_true_eq,← meets,← rightValue]
    unfold challenge
    rw [← leftValue]
    exact ⟨fun eq => congrArg _ eq,fun eq => eq_of_cast leftSmall rightSmall eq⟩

end Claimed

end Pllm.Freivalds
