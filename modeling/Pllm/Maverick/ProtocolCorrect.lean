import Pllm.Lib.Exec
import Pllm.Maverick.CodeCorrect
import Pllm.Maverick.Protocol

/-! Honest answers pass every equation, and the correction takes the noise out again. -/
namespace Pllm.Maverick
open Pllm.Lib Finset Nat Material

/-- An entry of a matrix of `dimension` columns. -/
def entry (matrix : Words) (i j : ℕ) : ZMod field := vec matrix (i*dimension+j)

variable {j n i row : ℕ} {x : Words}

lemma vec_matrixRow (matrix : Words) (row : ℕ) (h : j<dimension) :
    vec (matrixRow matrix row) j = entry matrix row j := by
  rw [vec,matrixRow,at_slice _ _ h]
  rfl

lemma at_map_range (f : ℕ → ℕ) (h : i<n) : Words.at ((List.range n).map f) i = f i := by
  simp [Words.at,h]

lemma vec_map_range (f : ℕ → ℕ) (h : i<n) : vec ((List.range n).map f) i = (f i : ZMod field) := by
  rw [vec,at_map_range f h]

lemma map_range_canonical {f : ℕ → ℕ} (h : ∀ i,f i < field) (n : ℕ) :
    canonical ((List.range n).map f) n = .ok () := by
  rw [canonical_eq_ok]
  refine ⟨by simp,fun v m => ?_⟩
  obtain ⟨i,-,rfl⟩ := List.mem_map.mp m
  exact h i

lemma both_eq_ok {α : Type} {f : Fin 2 → Except Error α} {g : Fin 2 → α} :
    both f = .ok g ↔ ∀ i,f i = .ok (g i) := by
  unfold both
  simp only [bind_eq_ok,Fin.forall_fin_two]
  constructor
  · rintro ⟨a,h0,b,h1,eq⟩
    obtain rfl := ok_inj eq
    exact ⟨h0,h1⟩
  · rintro ⟨h0,h1⟩
    refine ⟨g 0,h0,g 1,h1,congrArg Except.ok (funext fun i => ?_)⟩
    match i with
    | 0 => rfl
    | 1 => rfl

namespace ValidatedPublication

variable (v : ValidatedPublication)

variable (b : Fin batchSize)

lemma matrices_canonical : (v.material.source.matrices b).length = dimension*dimension ∧
      ∀ x ∈ v.material.source.matrices b,x<field :=
  canonical_eq_ok.mp ((SetupInputs.spec v.material.sourceValid).1 b)

lemma matrixRow_canonical (h : row<dimension) :
    canonical (matrixRow (v.material.source.matrices b) row) dimension = .ok () := by
  refine slice_canonical (v.matrices_canonical b).2 ?_
  rw [(v.matrices_canonical b).1,← succ_mul]
  exact Nat.mul_le_mul_right _ h

lemma parts_canonical : (∀ b,(v.material.parts.q b).length = codeLength*dimension ∧
      ∀ x ∈ v.material.parts.q b,x<field) ∧
    v.material.parts.qAuxiliary.length = codeLength*secondaryLength := by
  have shape := v.material.partsShape
  unfold PublicationParts.validateShape at shape
  simp only [bind_eq_ok] at shape
  obtain ⟨_,-,_,-,_,q0,_,q1,aux⟩ := shape
  exact ⟨Fin.forall_fin_two.mpr ⟨canonical_eq_ok.mp q0,canonical_eq_ok.mp q1⟩,
    (canonical_eq_ok.mp aux).1⟩

lemma checks : (∀ b,∀ row<dimension,v.material.checkRow b row = .ok ()) ∧
    (∀ b,∀ col<dimension,v.material.checkColumn b col = .ok ()) ∧
    ∀ row < codeLength,v.material.checkStacked row = .ok () := by
  have checked := v.checked
  unfold Material.check at checked
  simp only [bind_eq_ok] at checked
  obtain ⟨_,r0,_,c0,_,r1,_,c1,s⟩ := checked
  have all {f : ℕ → Except Error Unit} {n : ℕ} (h : (List.range n).forM f = .ok ()) :
      ∀ i<n,f i = .ok () := fun i hi => forM_eq_ok.mp h i (List.mem_range.mpr hi)
  exact ⟨Fin.forall_fin_two.mpr ⟨all r0,all r1⟩,Fin.forall_fin_two.mpr ⟨all c0,all c1⟩,all s⟩

lemma vec_p (h : row<dimension) (hi : i < codeLength) :
    vec ((v.material.parts.p b).slice (row*codeLength) codeLength) i =
      (v.material.gx b).linear (vec (matrixRow (v.material.source.matrices b) row)) i := by
  obtain ⟨encoded,enc,-,-,linear⟩ := (v.material.gx b).encode_ok (v.matrixRow_canonical b h)
  have check := v.checks.1 b row h
  unfold checkRow at check
  rw [enc,ok_bind] at check
  split at check
  · cases check
  rename_i same
  rw [← not_not.mp same]
  exact linear i (by unfold codeLength at hi; rwa [mul_comm])

lemma matrixColumn_canonical (col : ℕ) :
    canonical (matrixColumn (v.material.source.matrices b) col) dimension = .ok () :=
  map_range_canonical (fun _ => at_lt (v.matrices_canonical b).2 _) dimension

lemma entry_q {col i : ℕ} (h : col<dimension) (hi : i < codeLength) : entry (v.material.parts.q b) i col =
    v.material.gy.linear (vec (matrixColumn (v.material.source.matrices b) col)) i := by
  obtain ⟨encoded,enc,-,-,linear⟩ := v.material.gy.encode_ok (v.matrixColumn_canonical b col)
  have check := v.checks.2.1 b col h
  unfold checkColumn at check
  rw [enc,ok_bind] at check
  split at check
  · cases check
  rename_i same
  have here : encoded.at i=(v.material.parts.q b).at (i*dimension+col) := by
    by_contra ne
    exact same ⟨i,hi,ne⟩
  rw [← linear i (by unfold codeLength at hi; rwa [mul_comm]),entry,vec,← here]
  rfl

lemma stackedRow_canonical (h : row < codeLength) :
    canonical (stackedRow v.material.parts.q row) secondaryDimension = .ok () := by
  have part (b : Fin batchSize) : canonical (matrixRow (v.material.parts.q b) row) dimension = .ok () := by
    refine slice_canonical (v.parts_canonical.1 b).2 ?_
    rw [(v.parts_canonical.1 b).1,← succ_mul]
    exact Nat.mul_le_mul_right _ h
  have p0 := canonical_eq_ok.mp (part 0)
  have p1 := canonical_eq_ok.mp (part 1)
  rw [canonical_eq_ok,stackedRow,List.length_append,p0.1,p1.1]
  refine ⟨rfl,fun x m => ?_⟩
  exact (List.mem_append.mp m).elim (p0.2 x) (p1.2 x)

lemma vec_aux (h : row < codeLength) (hi : i < secondaryLength) : vec v.material.parts.qAuxiliary
    (row*secondaryLength+i) = v.material.gp.linear (vec (stackedRow v.material.parts.q row)) i := by
  obtain ⟨encoded,enc,-,-,linear⟩ := v.material.gp.encode_ok (v.stackedRow_canonical h)
  have check := v.checks.2.2 row h
  unfold checkStacked at check
  rw [enc,ok_bind] at check
  split at check
  · cases check
  rename_i same
  rw [← linear i (by unfold secondaryLength at hi; rwa [mul_comm]),not_not.mp same,vec,vec,
    at_slice _ _ hi]

end ValidatedPublication

lemma product_canonical (matrix input : Words) :
    canonical (Server.product matrix input) dimension = .ok () :=
  map_range_canonical (fun _ => dot_lt ..) dimension

lemma vec_product {matrix input : Words} (hm : matrix.length=dimension*dimension)
    (hi : input.length=dimension) (h : i<dimension) :
    vec (Server.product matrix input) i = ∑ j ∈ range dimension,entry matrix i j * vec input j := by
  have length : (matrixRow matrix i).length=dimension := by
    have : i*dimension+dimension ≤ matrix.length := by
      rw [hm,← succ_mul]
      exact Nat.mul_le_mul_right _ h
    simp [matrixRow,Words.slice]
    omega
  rw [Server.product,vec_map_range _ h,cast_dot length hi]
  refine sum_congr rfl fun j m => ?_
  rw [vec_matrixRow _ _ (mem_range.mp m)]

lemma project_loop (matrix : Words) (l : List (ℕ × ℕ)) {g : Words}
    (hg : canonical g dimension = .ok ()) :
    let out := l.foldl (fun (result : Words) p => (List.range dimension).map fun j =>
      add (result.at j) (mul p.2 (matrix.at (p.1*dimension+j)))) g
    canonical out dimension = .ok () ∧ ∀ j<dimension,
      vec out j = vec g j + (l.map fun p => (p.2 : ZMod field) * entry matrix p.1 j).sum := by
  induction l generalizing g with
  | nil => exact ⟨hg,fun j _ => by simp⟩
  | cons p l ih =>
    obtain ⟨ok,out⟩ := ih (map_range_canonical (f := fun j =>
      add (g.at j) (mul p.2 (matrix.at (p.1*dimension+j)))) (fun _ => add_lt ..) dimension)
    refine ⟨ok,fun j hj => ?_⟩
    rw [List.foldl_cons,out j hj,vec_map_range _ hj,cast_add,cast_mul,List.map_cons,List.sum_cons,
      add_assoc]
    rfl

lemma replicate_canonical (n : ℕ) : canonical (List.replicate n 0) n = .ok () :=
  canonical_eq_ok.mpr ⟨List.length_replicate,fun _ m => List.eq_of_mem_replicate m ▸ field_pos⟩

section
variable {length weight : ℕ} (matrix : Words) (e : Sparse length weight)

lemma project_canonical : canonical (project matrix e) dimension = .ok () :=
  (project_loop matrix e.entries (replicate_canonical dimension)).1

lemma vec_project (h : j<dimension) : vec (project matrix e) j =
      ∑ i ∈ range length,entry matrix i j * e.dense i := by
  rw [← e.sum_entries fun i => entry matrix i j]
  refine ((project_loop matrix e.entries (replicate_canonical dimension)).2 j h).trans ?_
  rw [vec_replicate,zero_add]

end

lemma vec_of_le (h : x.length ≤ i) : vec x i = 0 := by
  simp [vec,Words.at,List.getElem?_eq_none h]

/-- A claim on the product of a matrix with `x`: the input hides `x` by a noise vector, and the
correction is the product of the noise. -/
structure Claimed (m : Material) (claim : Claim) (b : Fin batchSize) (x : Words) : Prop where
  slot : claim.header.slot=b
  input : canonical claim.input dimension = .ok ()
  correction : ∀ i,claim.correction.at i < field
  noise : ∃ s : ℕ → ZMod field,(∀ i<dimension,vec claim.input i = vec x i + s i) ∧
    ∀ i<dimension,vec claim.correction i =
      ∑ j ∈ Finset.range dimension,entry (m.source.matrices b) i j * s j

namespace ValidatedPublication

variable (v : ValidatedPublication)

lemma claim_ok {c : Client} (own : c.material=v.material) (header : Header)
    (b : Fin batchSize) (x : Words) (noise : Noise) :
    ∃ claim,c.claim header b x noise = .ok (claim,⟨claim.header,claim.input⟩) ∧
      Claimed v.material claim b x ∧ claim.header = { header with slot := b } := by
  obtain ⟨mask,syn,-,-,transpose⟩ := (v.material.gx b).syndrome_ok noise (mul_comm ..)
  refine ⟨⟨{ header with slot := b },(List.range dimension).map fun i => add (x.at i) (mask.at i),
    (List.range dimension).map fun i =>
      noise.dot ((v.material.parts.p b).slice (i*codeLength) codeLength)⟩,?_,⟨rfl,
    map_range_canonical (f := fun i => add (x.at i) (mask.at i)) (fun _ => add_lt ..) dimension,
    ?_,vec mask,?_,?_⟩,rfl⟩
  · simp only [Client.claim,own]
    rw [syn]
    rfl
  · exact at_lt (canonical_eq_ok.mp (map_range_canonical (f := fun i =>
      noise.dot ((v.material.parts.p b).slice (i*codeLength) codeLength))
      (fun _ => noise.dot_lt _) dimension)).2
  · intro i hi
    rw [vec_map_range _ hi,cast_add]
    rfl
  · intro i hi
    rw [vec_map_range _ hi,noise.cast_dot]
    have rows := transpose (vec (matrixRow (v.material.source.matrices b) i))
    refine Eq.trans (sum_congr rfl fun k m => ?_) (rows.trans ?_)
    · rw [v.vec_p b hi (mem_range.mp m)]
    · refine sum_congr rfl fun j m => ?_
      rw [vec_matrixRow _ _ (mem_range.mp m)]

lemma demask_product {claim : Claim} {b : Fin batchSize}
    (claimed : Claimed v.material claim b x) (hx : x.length=dimension) :
    Client.demaskValues claim (Server.product (v.material.source.matrices b) claim.input) =
      Server.product (v.material.source.matrices b) x := by
  obtain ⟨s,input,correction⟩ := claimed.noise
  have square := (v.matrices_canonical b).1
  have hin := (canonical_eq_ok.mp claimed.input).1
  have left := canonical_eq_ok.mp (map_range_canonical (f := fun i =>
    sub ((Server.product (v.material.source.matrices b) claim.input).at i) (claim.correction.at i))
    (fun _ => sub_lt ..) dimension)
  have right := canonical_eq_ok.mp (product_canonical (v.material.source.matrices b) x)
  refine ext_of_vec (left.1.trans right.1.symm) left.2 right.2 fun i hi => ?_
  have hi : i<dimension := hi.trans_eq left.1
  rw [Client.demaskValues,vec_map_range _ hi,cast_sub (claimed.correction i)]
  change vec (Server.product _ claim.input) i - vec claim.correction i=_
  rw [vec_product square hin hi,vec_product square hx hi,correction i hi,← sum_sub_distrib]
  refine sum_congr rfl fun j m => ?_
  rw [input j (mem_range.mp m)]
  ring

lemma vec_product_eq_sum (b : Fin batchSize) (hx : x.length=dimension) :
    vec (Server.product (v.material.source.matrices b) x) = ∑ j ∈ range dimension,
      vec x j • vec (matrixColumn (v.material.source.matrices b) j) := by
  funext k
  rw [Finset.sum_apply]
  by_cases hk : k<dimension
  · rw [vec_product (v.matrices_canonical b).1 hx hk]
    refine sum_congr rfl fun j _ => ?_
    rw [Pi.smul_apply,mul_comm,matrixColumn,vec_map_range _ hk]
    rfl
  · have out (f : ℕ → ℕ) : ((List.range dimension).map f).length ≤ k := by
      simpa using hk
    rw [Server.product,vec_of_le (out _)]
    refine (sum_eq_zero fun j _ => ?_).symm
    rw [Pi.smul_apply,matrixColumn,vec_of_le (out _),smul_zero]

/-- The original equation: a projected row of `q` meets the encoded honest answer. -/
lemma original_holds (b : Fin batchSize)
    {x row encoded : Words} {weight : ℕ} (hx : x.length=dimension) (e : Sparse codeLength weight)
    (enc : v.material.gy.encode (Server.product (v.material.source.matrices b) x) = .ok encoded)
    (hrow : row.length=dimension) (projected : ∀ j<dimension,vec row j = ∑ i ∈
    range codeLength,entry (v.material.parts.q b) i j * e.dense i) : dot row x = e.dot encoded := by
  obtain ⟨encoded',enc',-,-,linear⟩ := v.material.gy.encode_ok (product_canonical
    (v.material.source.matrices b) x)
  obtain rfl : encoded=encoded' := ok_inj (enc.symm.trans enc')
  refine eq_of_cast (dot_lt ..) (e.dot_lt _) ?_
  rw [cast_dot hrow hx,e.cast_dot]
  have image (i : ℕ) (hi : i < codeLength) : vec encoded i =
      ∑ j ∈ range dimension,vec x j * entry (v.material.parts.q b) i j := by
    rw [linear i (by unfold codeLength at hi; rwa [mul_comm]),v.vec_product_eq_sum b hx,map_sum,
      Finset.sum_apply]
    refine sum_congr rfl fun j m => ?_
    rw [map_smul,Pi.smul_apply,smul_eq_mul,v.entry_q b (mem_range.mp m) hi]
  calc ∑ j ∈ range dimension,vec row j * vec x j = ∑ j ∈ range dimension,∑ i ∈ range codeLength,
          vec x j * entry (v.material.parts.q b) i j * e.dense i := by
        refine sum_congr rfl fun j m => ?_
        rw [projected j (mem_range.mp m),sum_mul]
        exact sum_congr rfl fun i _ => by ring
    _ = ∑ i ∈ range codeLength,vec encoded i * e.dense i := by
        rw [sum_comm]
        refine sum_congr rfl fun i m => ?_
        rw [image i (mem_range.mp m),sum_mul]

end ValidatedPublication

variable {α : Type*} {f : ℕ → α → ℕ}

lemma cast_foldl {g : α → ZMod field} (step : ∀ s a,((f s a:ℕ) : ZMod field) = s + g a) (l : List
    α) (start : ℕ) : ((l.foldl f start:ℕ) : ZMod field) = start + (l.map g).sum := by
  induction l generalizing start with
  | nil => simp
  | cons a l ih => rw [List.foldl_cons,ih,step,List.map_cons,List.sum_cons,add_assoc]

lemma foldl_lt (step : ∀ s<field,∀ a,f s a < field)
    (l : List α) {start : ℕ} (h : start<field) : l.foldl f start < field := by
  induction l generalizing start with
  | nil => exact h
  | cons a l ih => exact ih (step start h a)

lemma vec_append {x y : Words} (t : ℕ) :
    vec (x++y) t = if t<x.length then vec x t else vec y (t-x.length) := by
  simp only [vec,Words.at,List.getD_eq_getElem?_getD,List.getElem?_append]
  split <;> rfl

lemma vec_projections (q : Fin batchSize → Words) {weight t : ℕ} (square : ∀ b,(q b).length =
    codeLength*dimension) (e : Sparse codeLength weight) (h : t < secondaryDimension) : vec (project
    (q 0) e++project (q 1) e) t = ∑ i ∈ range codeLength,vec (stackedRow q i) t * e.dense i := by
  have first := (canonical_eq_ok.mp (project_canonical (q 0) e)).1
  have rows (i : ℕ) (hi : i < codeLength) : (matrixRow (q 0) i).length=dimension := by
    have : i*dimension+dimension ≤ (q 0).length := by
      rw [square,← succ_mul]
      exact Nat.mul_le_mul_right _ hi
    simp [matrixRow,Words.slice]
    omega
  rw [vec_append,first]
  by_cases low : t<dimension
  · rw [if_pos low,vec_project _ e low]
    refine sum_congr rfl fun i m => ?_
    rw [stackedRow,vec_append,rows i (mem_range.mp m),if_pos low,vec_matrixRow _ _ low]
  · have high : t-dimension<dimension := by
      have : t<2*dimension := h
      omega
    rw [if_neg low,vec_project _ e high]
    refine sum_congr rfl fun i m => ?_
    rw [stackedRow,vec_append,rows i (mem_range.mp m),if_neg low,vec_matrixRow _ _ high]

namespace ValidatedPublication

variable (v : ValidatedPublication)

/-- The secondary equation holds of an honest auxiliary response. -/
lemma secondary_holds (e : Sparse codeLength checkWeight) (ep : Sparse secondaryLength checkWeight)
    {r response : Words} (syn : v.material.gp.syndrome ep = .ok r)
    (length : response.length=secondaryDimension)
    (honest : ∀ t < secondaryDimension,vec response t =
      ∑ i ∈ range codeLength,vec (stackedRow v.material.parts.q i) t * e.dense i) :
    e.entries.foldl (fun left p => ep.entries.foldl (fun left p' => add left (mul (mul p.2 p'.2)
      (v.material.parts.qAuxiliary.at (p.1*secondaryLength+p'.1)))) left) 0 = dot r response := by
  obtain ⟨r',syn',hr,-,transpose⟩ := v.material.gp.syndrome_ok ep (mul_comm ..)
  obtain rfl : r=r' := ok_inj (syn.symm.trans syn')
  have aux (i : ℕ) (hi : i < codeLength) :
      ∑ k ∈ range secondaryLength,vec v.material.parts.qAuxiliary (i*secondaryLength+k) *
        ep.dense k = ∑ t ∈ range secondaryDimension,
          vec (stackedRow v.material.parts.q i) t * vec r t := by
    refine Eq.trans (sum_congr rfl fun k m => ?_) (transpose _)
    rw [v.vec_aux hi (mem_range.mp m)]
  refine eq_of_cast (foldl_lt (fun s h p => foldl_add_lt _ _ h) _ field_pos) (dot_lt ..) ?_
  have inner (s : ℕ) (p : ℕ × ℕ) : ((ep.entries.foldl (fun left p' => add left
      (mul (mul p.2 p'.2) (v.material.parts.qAuxiliary.at (p.1*secondaryLength+p'.1)))) s : ℕ) :
        ZMod field) = s + p.2 * ∑ k ∈ range secondaryLength,
          vec v.material.parts.qAuxiliary (p.1*secondaryLength+k) * ep.dense k := by
    rw [cast_foldl_add ep.entries fun p' =>
      mul (mul p.2 p'.2) (v.material.parts.qAuxiliary.at (p.1*secondaryLength+p'.1))]
    rw [← ep.sum_entries fun k => vec v.material.parts.qAuxiliary (p.1*secondaryLength+k),
      ← List.sum_map_mul_left]
    simp only [cast_mul,mul_assoc]
    rfl
  rw [cast_foldl inner,cast_zero,zero_add,cast_dot hr length]
  rw [e.sum_entries fun i => ∑ k ∈ range secondaryLength,
    vec v.material.parts.qAuxiliary (i*secondaryLength+k) * ep.dense k]
  calc ∑ i ∈ range codeLength,(∑ k ∈ range secondaryLength,
          vec v.material.parts.qAuxiliary (i*secondaryLength+k) * ep.dense k) * e.dense i
      = ∑ i ∈ range codeLength,∑ t ∈ range secondaryDimension,
          vec r t * (vec (stackedRow v.material.parts.q i) t * e.dense i) := by
        refine sum_congr rfl fun i m => ?_
        rw [aux i (mem_range.mp m),sum_mul]
        exact sum_congr rfl fun t _ => by ring
    _ = ∑ t ∈ range secondaryDimension,vec r t * vec response t := by
        rw [sum_comm]
        refine sum_congr rfl fun t m => ?_
        rw [honest t (mem_range.mp m),mul_sum]

end ValidatedPublication

end Pllm.Maverick
