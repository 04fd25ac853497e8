import Pllm.Freivalds.Projection

/-! What the preparation of projections establishes: the projection of a check of a row is the
product of its challenge with the weights. -/
namespace Pllm.Freivalds
open Pllm.Lib List

variable {α : Type*} {context : Bytes} {outF inF m output inv : ℕ}
  {chal : List ℕ} {inB outB : ℤ} {policy : Policy}
  {resources : ResourcePolicy}

section Blocks

variable {xss : List (List (List ℕ))} {checks width : ℕ}

section
variable (hche : ∀ xs∈xss,xs.length=checks) (hwd : ∀ xs∈xss,∀ x∈xs,x.length=width)
include hche hwd

lemma length_blocks : (xss.flatMap flatten).length = xss.length*checks*width := by
  have block (xs : List (List ℕ)) (m : xs∈xss) : xs.flatten.length=width*checks := by
    rw [length_flatten_const (hwd xs m),hche xs m]
  rw [length_flatMap_const xss block]
  ring

lemma slice_blocks {r c : ℕ} (hr : r<xss.length) (hc : c < checks) : slice (xss.flatMap flatten)
    ((r*checks+c)*width) width = (xss.getD r []).getD c [] := by
  have block (xs : List (List ℕ)) (m : xs∈xss) : xs.flatten.length=checks*width := by
    rw [length_flatten_const (hwd xs m),hche xs m,mul_comm]
  have mem := getElem_mem hr
  have inner : c<xss[r].length := (hche _ mem).symm ▸ hc
  have outer : slice (xss.flatMap flatten) (r*(checks*width)) (checks*width)=xss[r].flatten :=
    row_flatMap block hr
  have within : slice xss[r].flatten (c*width) width=xss[r][c] := by
    rw [flatten_eq_flatMap]
    exact row_flatMap (hwd _ mem) inner
  have room : c*width+width ≤ checks*width := by
    rw [← Nat.succ_mul]
    exact Nat.mul_le_mul_right _ hc
  rw [← outer,slice_slice _ room] at within
  have place : (r*checks+c)*width=r*(checks*width)+c*width := by ring
  rw [place,within]
  simp [hr,inner]

end

end Blocks

lemma forall_mem_getD {xs : List α} {p : α → Prop} {n : ℕ} (d : α) (hn : xs.length=n)
    (h : ∀ i<n,p (xs.getD i d)) : ∀ x∈xs,p x := by
  intro x m
  obtain ⟨i,hi,rfl⟩ := getElem_of_mem m
  have := h i (hn ▸ hi)
  simpa [hi] using this

lemma fill_ends (block : ℕ → List ℕ) (length blocks counter : ℕ) (filled : List ℕ)
    (canonical : ∀ x∈filled,x < modulus) : Ends (fill block length blocks counter filled)
    (fun out => out.length=length ∧ ∀ x∈out,x < modulus) Sane := by
  induction blocks generalizing counter filled with
  | zero => exact sane_refused _
  | succ blocks ih =>
    have more : ∀ x ∈ (filled++(block counter).filter (· < modulus)).take length,x < modulus := by
      intro x m
      rcases mem_append.mp (mem_of_mem_take m) with m | m
      · exact canonical x m
      · simpa using (mem_filter.mp m).2
    unfold fill
    split
    · exact sane_refused _
    dsimp only
    split
    · rename_i full
      exact ⟨full,more⟩
    · exact ih _ _ more

variable {prim : Primitives} {seed binding : Bytes}

lemma deriveChallenge_ends (context : Bytes) (row check outF : ℕ) : Ends (deriveChallenge
    prim seed context row check outF) (fun out => out.length=outF ∧ ∀ x∈out,x < modulus) Sane :=
  fill_ends _ _ _ _ [] fun _ m => absurd m not_mem_nil

/-- The challenge of a check of a row. -/
def Challenge (prim : Primitives) (seed : Bytes) (context : Bytes) (outF row check : ℕ)
    (chal : List ℕ) : Prop :=
  deriveChallenge prim seed context row check outF = .ok chal

lemma Challenge.canonical {outF row check : ℕ} (h : Challenge prim seed context outF
    row check chal) : chal.length=outF ∧ ∀ x∈chal,x < modulus :=
  (deriveChallenge_ends context row check outF).ok h

/-- The challenges of some rows, block by block. -/
structure Challenges (prim : Primitives) (seed context : Bytes) (terms : Terms)
    (rowStart rows : ℕ) (flat : List ℕ) : Prop where
  blocks : rows*terms.policy.checks<2^64
  sized : rows*terms.policy.checks*terms.outFeatures < 2^64
  length : flat.length = rows*terms.policy.checks*terms.outFeatures
  each : ∀ row < rows,∀ check<terms.policy.checks,
    Challenge prim seed context terms.outFeatures (rowStart+row) check
      (slice flat ((row*terms.policy.checks+check)*terms.outFeatures) terms.outFeatures)

lemma forall₂_getD {α β : Type*} {r : α → β → Prop} {xs : List α} {ys : List β}
    (h : Forall₂ r xs ys) {i : ℕ} (hi : i<xs.length) (d : β) : r xs[i] (ys.getD i d) := by
  have hi' : i<ys.length := h.length_eq ▸ hi
  have := h.get hi hi'
  simpa [hi'] using this

lemma bindingDigest_ends (binding : Bytes) :
    Ends (bindingDigest prim binding) (fun d => bindingDigest prim binding = .ok d) Sane := by
  unfold bindingDigest
  split
  · exact sane_refused _
  exact rfl

lemma deriveChallenges_ends (terms : Terms) (rowStart rows : ℕ) : Ends (deriveChallenges prim seed
    binding terms rowStart rows) (fun flat => ∃ digest, bindingDigest prim binding = .ok digest ∧
    Challenges prim seed (prim.contextDigest digest terms) terms rowStart rows flat) Sane := by
  refine (checkedMul_ends rows terms.policy.checks).bind fun count ⟨hcnt,blocks⟩ => ?_
  refine (checkedMul_ends count terms.outFeatures).bind fun size ⟨hsize,sized⟩ => ?_
  refine (bindingDigest_ends binding).bind fun digest hdig => ?_
  subst hcnt hsize
  refine (Ends.mapM (fun row (xs : List (List ℕ)) => Forall₂ (fun check x =>
    Challenge prim seed (prim.contextDigest digest terms) terms.outFeatures (rowStart+row) check x)
      (range terms.policy.checks) xs) fun row _ => ?_).bind fun xss all => ?_
  · refine (Ends.mapM (fun check x => Challenge prim seed (prim.contextDigest digest terms)
      terms.outFeatures (rowStart+row) check x) fun check _ => ?_).mono fun xs all =>
        all.imp fun _ _ h => h.2
    refine bind_checkedAdd fun _ => ?_
    exact (deriveChallenge_ends _ _ _ _).result.mono fun _ h => h.1
  have count : xss.length=rows := by simpa using all.length_eq.symm
  have each (row : ℕ) (h : row < rows) : Forall₂ (fun check x =>
      Challenge prim seed (prim.contextDigest digest terms) terms.outFeatures (rowStart+row) check x)
        (range terms.policy.checks) (xss.getD row []) := by
    have inside : row < (range rows).length := by simpa using h
    have := (forall₂_getD all inside []).2
    rwa [getElem_range] at this
  have hche : ∀ xs∈xss,xs.length=terms.policy.checks := by
    refine forall_mem_getD [] count fun row h => ?_
    simpa using (each row h).length_eq.symm
  have chal (row check : ℕ) (h : row < rows) (h' : check<terms.policy.checks) :
      Challenge prim seed (prim.contextDigest digest terms) terms.outFeatures (rowStart+row) check
        ((xss.getD row []).getD check []) := by
    have inside : check < (range terms.policy.checks).length := by simpa using h'
    have := forall₂_getD (each row h) inside []
    rwa [getElem_range] at this
  have hwd : ∀ xs∈xss,∀ x∈xs,x.length=terms.outFeatures := by
    refine forall_mem_getD [] count fun row h => ?_
    refine forall_mem_getD [] (by simpa using (each row h).length_eq.symm) fun check h' => ?_
    exact (chal row check h h').canonical.1
  refine ⟨digest,hdig,blocks,sized,?_,fun row h check h' => ?_⟩
  · rw [length_blocks hche hwd,count]
  · rw [slice_blocks hche hwd (count.symm ▸ h) h']
    exact chal row check h h'

lemma foldlM_of_ok {ε α β : Type} {f g : β → α → Except ε β}
    (h : ∀ s x t,f s x = .ok t → g s x = .ok t) (l : List α) (start : β) {out : β}
    (ok : l.foldlM f start = .ok out) : l.foldlM g start = .ok out := by
  induction l generalizing start with
  | nil => exact ok
  | cons x l ih =>
    rw [foldlM_cons] at ok ⊢
    obtain ⟨next,head,rest⟩ := bind_eq_ok.mp ok
    rw [h start x next head]
    exact ih next rest

lemma checkedAdd_eq_ok {a b c : ℕ} (h : checkedAdd a b = .ok c) : a+b<2^64 ∧ c=a+b := by
  have := (checkedAdd_ends a b).ok h
  omega

variable {weights : List ℤ}

lemma maxRowL1_unchecked (h : maxRowL1 checkedAdd weights
    inF = .ok m) : maxRowL1 (addOf 64) weights inF = .ok m := by
  refine foldlM_of_ok (fun maximum row next ok => ?_) _ 0 h
  obtain ⟨l1,sum,ok⟩ := bind_eq_ok.mp ok
  have again := foldlM_of_ok (g := fun sum (weight : ℤ) => addOf 64 sum weight.natAbs)
    (fun s x t added => by
      obtain ⟨small,rfl⟩ := checkedAdd_eq_ok added
      exact addOf_ok small) row 0 sum
  rw [again]
  exact ok

lemma maxRowL1_ends (weights : List ℤ) (inF : ℕ) : Ends (maxRowL1 checkedAdd weights inF)
    (fun m => m<2^64 ∧ ∀ row ∈ chunksExact inF weights,(row.map Int.natAbs).sum ≤ m) Sane := by
  have sums (row : List ℤ) (start : ℕ) (small : start<2^64) :
      Ends (row.foldlM (fun sum weight => checkedAdd sum weight.natAbs) start)
        (fun l1 => l1 = start+(row.map Int.natAbs).sum ∧ l1<2^64) Sane := by
    induction row generalizing start with
    | nil => exact ⟨by simp,small⟩
    | cons x row ih =>
      refine (checkedAdd_ends start x.natAbs).bind fun next ⟨eq,small⟩ => ?_
      refine (ih next small).mono fun l1 ⟨sum,small⟩ => ⟨?_,small⟩
      rw [sum,eq,map_cons,sum_cons,add_assoc]
  have loop (rows : List (List ℤ)) (start : ℕ) (small : start<2^64) :
      Ends (rows.foldlM (fun maximum row => do
        let l1 ← row.foldlM (fun sum weight => checkedAdd sum weight.natAbs) 0
        pure (max maximum l1)) start)
        (fun m => m<2^64 ∧ start ≤ m ∧ ∀ row∈rows,(row.map Int.natAbs).sum ≤ m) Sane := by
    induction rows generalizing start with
    | nil => exact ⟨small,le_rfl,fun _ m => absurd m not_mem_nil⟩
    | cons row rows ih =>
      have first : Ends (do
          let l1 ← row.foldlM (fun sum weight => checkedAdd sum weight.natAbs) 0
          pure (max start l1))
          (fun next => next = max start (row.map Int.natAbs).sum ∧ next<2^64) Sane := by
        refine (sums row 0 (Nat.two_pow_pos 64)).bind fun l1 ⟨sum,bound⟩ => ?_
        have : l1=(row.map Int.natAbs).sum := by omega
        exact ⟨by rw [this],max_lt small bound⟩
      refine first.bind fun next ⟨eq,small⟩ => ?_
      refine (ih next small).mono fun m ⟨small,le,all⟩ => ⟨small,?_,fun row' m' => ?_⟩
      · exact (le_max_left _ _).trans (eq ▸ le)
      · rcases mem_cons.mp m' with rfl | m'
        · exact (le_max_right _ _).trans (eq ▸ le)
        · exact all row' m'
  exact (loop _ 0 (Nat.two_pow_pos 64)).mono fun m ⟨small,_,all⟩ => ⟨small,all⟩

/-- The entry of the weights at an output and an input. -/
def weight (weights : List ℤ) (inF output input : ℕ) : ℤ :=
  weights.getD (output*inF+input) 0

lemma sum_chunk (length : weights.length=outF*inF) (h : output<outF) :
    ((slice weights (inF*output) inF).map Int.natAbs).sum =
      ∑ j ∈ Finset.range inF,(weight weights inF output j).natAbs := by
  have room : inF*output+inF≤weights.length := by
    rw [length,mul_comm,← Nat.succ_mul]
    exact Nat.mul_le_mul_right _ h
  have part : slice weights (inF*output) inF =
      (range inF).map fun j => weight weights inF output j := by
    refine ext_getElem ?_ fun j hj _ => ?_
    · rw [length_slice room,length_map,length_range]
    · rw [length_slice room] at hj
      have inside : output*inF+j<weights.length := by
        rw [mul_comm]
        omega
      simp [slice,weight,mul_comm inF,inside]
  rw [part,map_map]
  rfl

lemma row_le_maxRowL1 (pos : 0 < inF) (length : weights.length=outF*inF) (h : ∀
    row ∈ chunksExact inF weights,(row.map Int.natAbs).sum ≤ m) (ho : output<outF) : ∑
    j ∈ Finset.range inF,(weight weights inF output j).natAbs ≤ m := by
  rw [← sum_chunk length ho]
  refine h _ (mem_map.mpr ⟨output,?_,rfl⟩)
  rw [length,Nat.mul_div_cancel _ pos]
  exact mem_range.mpr ho

lemma projectColumn_ok (weights : List ℤ) {outF inF column : ℕ}
    (canonical : ∀ x∈chal,x < modulus) (inside : column < inF) (sized : outF*inF<2^64) :
    ∃ r,projectColumn weights outF inF column chal = .ok r ∧ r < modulus ∧ (r : ZMod modulus) =
    fieldDot outF (fun o => weight weights inF o column) (chal.getD · 0) := by
  have small : outF≤2^64 := by
    have := Nat.le_mul_of_pos_right outF (Nat.zero_lt_of_lt inside)
    omega
  have sum := foldlM_accumulate (range outF)
    (fun o => signedToField (weight weights inF o column)) (fun o => chal.getD o 0)
    (fun sum output => do
      let start ← mulOf 64 output inF
      let place ← addOf 64 start column
      accumulate sum (signedToField (weights.getD place 0)) (chal.getD output 0))
    (fun o m sum => by
      have bound : o*inF+column<outF*inF :=
        mul_add_lt (mem_range.mp m) inside
      rw [mulOf_ok (by omega),ok_bind,addOf_ok (by omega)]
      rfl)
    (fun _ _ => signedToField_lt _) (fun o _ => getD_lt canonical o) 0 (by
      rw [length_range,zero_add]
      calc outF*2^64≤2^64*2^64 := Nat.mul_le_mul_right _ small
        _ = 2^128 := by decide)
  have eq : projectColumn weights outF inF column chal =
      .ok (reduce (0+((range outF).map fun o =>
        signedToField (weight weights inF o column)*chal.getD o 0).sum)) := by
    rw [projectColumn,sum]
    rfl
  refine ⟨_,eq,reduce_lt _,?_⟩
  rw [cast_reduce,zero_add,cast_sum_range]

/-- The projections of the checks of a row. -/
lemma projectRow_ends {terms : Terms} {row rows : ℕ} {challenges : List ℕ} (derived : Challenges prim seed context terms row 1 challenges)
    (inside : row < rows) (blocks : rows*terms.policy.checks<2^64)
    (projections : rows*terms.policy.checks*terms.inFeatures < 2^64)
    (sized : terms.outFeatures*terms.inFeatures<2^64) :
    Ends (projectRow weights terms row challenges) (fun xs => xs.length=terms.policy.checks ∧
      ∀ check<terms.policy.checks,(xs.getD check []).length = terms.inFeatures ∧
        ∃ chal,Challenge prim seed context terms.outFeatures row check chal ∧
          ∀ j<terms.inFeatures,(xs.getD check []).getD j 0 < modulus ∧
            (((xs.getD check []).getD j 0:ℕ) : ZMod modulus) = fieldDot terms.outFeatures
              (fun o => weight weights terms.inFeatures o j) (chal.getD · 0)) Sane := by
  refine (Ends.mapM (fun check (x : List ℕ) => x.length=terms.inFeatures ∧
    ∃ chal,Challenge prim seed context terms.outFeatures row check chal ∧
      ∀ j<terms.inFeatures,x.getD j 0 < modulus ∧ ((x.getD j 0:ℕ) : ZMod modulus) =
        fieldDot terms.outFeatures (fun o => weight weights terms.inFeatures o j)
          (chal.getD · 0)) fun check m => ?_).mono fun xs all => ?_
  · have hc := mem_range.mp m
    have chal := derived.each 0 Nat.one_pos check hc
    rw [zero_mul,zero_add] at chal
    have start : check*terms.outFeatures<2^64 := by
      refine lt_of_le_of_lt ?_ derived.sized
      rw [one_mul]
      exact Nat.mul_le_mul_right _ hc.le
    rw [mulOf_ok start,blockStart_ok inside (Nat.succ_lt_succ hc) projections blocks,ok_bind]
    refine (Ends.mapM (fun j (x : ℕ) => x < modulus ∧ (x : ZMod modulus) =
      fieldDot terms.outFeatures (fun o => weight weights terms.inFeatures o j)
        ((slice challenges (check*terms.outFeatures) terms.outFeatures).getD · 0))
      fun j m => ?_).mono fun x all => ?_
    · obtain ⟨r,eq,value⟩ := projectColumn_ok weights chal.canonical.2 (mem_range.mp m) sized
      rw [eq]
      exact value
    · refine ⟨by simpa using all.length_eq.symm,_,chal,fun j hj => ?_⟩
      have inside : j < (range terms.inFeatures).length := by simpa using hj
      have := (forall₂_getD all inside 0).2
      rwa [getElem_range] at this
  · refine ⟨by simpa using all.length_eq.symm,fun check hc => ?_⟩
    have inside : check < (range terms.policy.checks).length := by simpa using hc
    have := (forall₂_getD all inside []).2
    rwa [getElem_range] at this

lemma validateDeclaredBound_ends
    {l1 : ℕ} (machine : inB<2^63) (small : l1<2^64) : Ends (validateDeclaredBound inB outB l1)
    (fun _ => 0 < inB ∧ 0 < outB ∧ outB < modulus/2 ∧ inB.toNat*l1 ≤ outB.toNat) Sane := by
  unfold validateDeclaredBound
  split
  · exact sane_refused _
  rename_i inside
  simp only [boundOutside,not_or,not_le] at inside
  have product : inB.toNat*l1<2^128 := by
    calc inB.toNat*l1≤2^63*2^64 :=
          Nat.mul_le_mul (by omega) small.le
      _ < 2^128 := by decide
  rw [mulOf_ok product,ok_bind]
  split
  · exact sane_refused _
  rename_i bound
  exact ⟨inside.1,inside.2.1,inside.2.2,not_lt.mp bound⟩

/-- Projections that were prepared of weights. -/
structure Prepared (prim : Primitives) (seed binding : Bytes) (weights : List ℤ)
    (b : ProjectionBatch) : Prop where
  shape : 0<b.terms.outFeatures ∧ 0<b.terms.inFeatures ∧ 0<b.inventoryRows
  weights_length : weights.length = b.terms.outFeatures*b.terms.inFeatures
  rows : ∀ o<b.terms.outFeatures,∑ j ∈ Finset.range b.terms.inFeatures,
    (weight weights b.terms.inFeatures o j).natAbs ≤ b.terms.maxRowL1
  bound : 0<b.terms.signedInputBound ∧ 0<b.terms.signedOutputBound ∧
    b.terms.signedOutputBound < modulus/2 ∧
    b.terms.signedInputBound.toNat*b.terms.maxRowL1 ≤ b.terms.signedOutputBound.toNat
  digest : bindingDigest prim binding = .ok b.bindingDigest
  length : b.values.length = b.inventoryRows*b.terms.policy.checks*b.terms.inFeatures
  canonical : ∀ x∈b.values,x < modulus
  projections : ∀ row<b.inventoryRows,∀ check<b.terms.policy.checks,∃ chal,
    Challenge prim seed (prim.contextDigest b.bindingDigest b.terms) b.terms.outFeatures row check
      chal ∧
    ∀ j<b.terms.inFeatures,(((slice b.values
      ((row*b.terms.policy.checks+check)*b.terms.inFeatures) b.terms.inFeatures).getD j 0 : ℕ) :
        ZMod modulus) = fieldDot b.terms.outFeatures
          (fun o => weight weights b.terms.inFeatures o j) (chal.getD · 0)
  consumed : b.consumed = List.replicate b.inventoryRows false

lemma validatePreparation_ends (machine : inB<2^63) :
    Ends (validatePreparation weights outF inF inv inB
      outB policy resources) (fun _ =>
        (0<outF ∧ 0 < inF ∧ 0 < inv) ∧
        weights.length=outF*inF ∧ outF*inF<2^64 ∧
        inv*policy.checks<2^64 ∧ inv*policy.checks*inF<2^64 ∧
        ∃ l1,maxRowL1 checkedAdd weights inF = .ok l1 ∧ l1<2^64 ∧
          (∀ row ∈ chunksExact inF weights,(row.map Int.natAbs).sum ≤ l1) ∧
          0 < inB ∧ 0 < outB ∧ outB < modulus/2 ∧
          inB.toNat*l1 ≤ outB.toNat) Sane := by
  unfold validatePreparation
  split
  · exact sane_refused _
  refine bind_checkedMul fun small => ?_
  split
  · exact sane_refused _
  rename_i length
  refine bind_checkedMul fun blocks => ?_
  refine bind_checkedMul fun sized => ?_
  refine bind_checkedMul fun _ => ?_
  refine bind_checkedMul fun _ => ?_
  refine bind_checkedMul fun _ => ?_
  split
  · exact sane_refused _
  refine (maxRowL1_ends weights inF).result.bind fun l1 ⟨eq,bound,rows⟩ => ?_
  refine (validateDeclaredBound_ends machine bound).mono fun _ declared => ?_
  exact ⟨by omega,not_not.mp length,small,blocks,sized,l1,eq,bound,rows,declared⟩

/-- The terms of a preparation. -/
def ProjectionBatch.For (b : ProjectionBatch) (outF inF inv : ℕ)
    (sessionId materialId : Bytes) (inB outB : ℤ) (policy : Policy) :
    Prop :=
  b.terms.outFeatures=outF ∧ b.terms.inFeatures=inF ∧
    b.inventoryRows=inv ∧ b.terms.sessionId=sessionId ∧
    b.terms.materialId=materialId ∧ b.terms.signedInputBound=inB ∧
    b.terms.signedOutputBound=outB ∧ b.terms.policy=policy

lemma prepareProjections_ends {granted : Bool} {weights : List ℤ} {sessionId materialId : Bytes}
    (machine : inB<2^63) : Ends (prepareProjections prim granted weights outF inF inv seed binding
    sessionId materialId inB outB policy resources) (fun b => Prepared prim seed binding weights b ∧
    b.For outF inF inv sessionId materialId inB outB policy) Sane := by
  refine (bindingDigest_ends binding).bind fun digest hdig => ?_
  refine (validatePreparation_ends machine).bind fun _
    ⟨shape,length,small,blocks,sized,l1,eq,bound,chunks,declared⟩ => ?_
  rw [maxRowL1_unchecked eq]
  split
  · exact sane_refused _
  let terms : Terms := ⟨sessionId,materialId,policy,inB,outB,l1,
    inF,outF⟩
  let context := prim.contextDigest digest terms
  let Good (row : ℕ) (xs : List (List ℕ)) : Prop := xs.length=policy.checks ∧
    ∀ check<policy.checks,(xs.getD check []).length = inF ∧
      ∃ chal,Challenge prim seed context outF row check chal ∧
        ∀ j < inF,(xs.getD check []).getD j 0 < modulus ∧
          (((xs.getD check []).getD j 0:ℕ) : ZMod modulus) = fieldDot outF
            (fun o => weight weights inF o j) (chal.getD · 0)
  have each : ∀ row ∈ range inv,Ends (do
      let challenges ← deriveChallenges prim seed binding terms row 1
      projectRow weights terms row challenges) (Good row) Sane := by
    intro row m
    refine (deriveChallenges_ends terms row 1).bind fun flat ⟨digest',hdig',derived⟩ => ?_
    obtain rfl : digest=digest' := ok_inj (hdig.symm.trans hdig')
    exact projectRow_ends derived (mem_range.mp m) blocks sized small
  refine (Ends.mapM Good each).bind fun xss all => ?_
  have count : xss.length=inv := by simpa using all.length_eq.symm
  have good (row : ℕ) (h : row < inv) : Good row (xss.getD row []) := by
    have inside : row < (range inv).length := by simpa using h
    have := (forall₂_getD all inside []).2
    rwa [getElem_range] at this
  have hche : ∀ xs∈xss,xs.length=policy.checks :=
    forall_mem_getD [] count fun row h => (good row h).1
  have hwd : ∀ xs∈xss,∀ x∈xs,x.length=inF :=
    forall_mem_getD [] count fun row h =>
      forall_mem_getD [] (good row h).1 fun check h' => ((good row h).2 check h').1
  have canonical : ∀ xs∈xss,∀ x∈xs,∀ y∈x,y < modulus := by
    refine forall_mem_getD [] count fun row h => forall_mem_getD [] (good row h).1 fun check h' => ?_
    obtain ⟨width,_,-,values⟩ := (good row h).2 check h'
    exact forall_mem_getD 0 width fun j hj => (values j hj).1
  refine ⟨⟨shape,length,?_,declared,hdig,?_,?_,?_,rfl⟩,rfl,rfl,rfl,rfl,rfl,rfl,rfl,rfl⟩
  · exact fun o h => row_le_maxRowL1 shape.2.1 length chunks h
  · rw [length_blocks hche hwd,count]
  · intro y m
    obtain ⟨xs,mem,m⟩ := mem_flatMap.mp m
    obtain ⟨x,mem',m⟩ := mem_flatten.mp m
    exact canonical xs mem x mem' y m
  · intro row h check h'
    obtain ⟨-,chal,derived,values⟩ := (good row h).2 check h'
    refine ⟨chal,derived,fun j hj => ?_⟩
    rw [slice_blocks hche hwd (count.symm ▸ h) h']
    exact (values j hj).2

end Pllm.Freivalds
