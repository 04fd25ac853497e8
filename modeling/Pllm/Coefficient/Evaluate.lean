import Pllm.Coefficient.Product

/-! Blocks, groups and the parsed product. -/
namespace Pllm.Coefficient
open Pllm.Lib CoefficientLayout
open Coordinates (address subtract visible)

lemma getD_zipWith {n i : ℕ} (f : ℕ → ℕ → ℕ) {xs ys : List ℕ} (hx : xs.length=n) (hy :
    ys.length=n) (hi : i<n) : (List.zipWith f xs ys).getD i 0 = f (xs.getD i 0) (ys.getD i 0) := by
  have left : i<xs.length := hx.symm ▸ hi
  have right : i<ys.length := hy.symm ▸ hi
  simp [left,right]

variable {x dim width row col : ℕ}

lemma div_lt_ceilDiv (pos : 0<width) (h : x<dim) : x/width<dim ⌈/⌉ width :=
  Nat.div_lt_of_lt_mul (lt_of_lt_of_le h (le_smul_ceilDiv pos))

lemma mod_lt_part (pos : 0<width) (h : x<dim) : x%width < part dim width (x/width) := by
  have := Nat.div_add_mod' x width
  exact lt_min (Nat.mod_lt _ pos) (by omega)

section Evaluate

variable {l : CoefficientLayout} {a b : List ℕ} (adm : Admitted l)
  (ha : a.length=l.shape.k*l.shape.m) (canonA : ∀ x∈a,x<l.ring.modulus)
  (hb : b.length=l.shape.m*l.shape.n) (canonB : ∀ x∈b,x<l.ring.modulus)
include adm ha canonA hb canonB

/-- The entry of the product at an output. -/
lemma block_spec {t : ℕ} (ht : t<l.blocks.k*l.blocks.n) : ∃ total,l.block a b t = .ok total ∧ Poly
    l.ring.degree l.ring.modulus total ∧ ∀ r < part l.shape.k l.window.k (t/l.blocks.n), ∀ c < part
    l.shape.n l.window.n (t%l.blocks.n), coeff l.ring.modulus total ((r*l.window.n+c)*l.window.m) =
    ∑ x ∈ Finset.range l.shape.m, ((a.getD ((t/l.blocks.n*l.window.k+r)*l.shape.m+x) 0 : ℕ) :
    ZMod l.ring.modulus) * (b.getD (x*l.shape.n+t%l.blocks.n*l.window.n+c) 0:ℕ) := by
  have pos := ring_pos l.ring
  have small := l.ring.modulus_range.2
  have columns : 0<l.blocks.n := pos_of_ne_zero fun zero => by
    rw [zero] at ht
    exact Nat.not_lt_zero _ ht
  have hrow : t/l.blocks.n<l.blocks.k := Nat.div_lt_of_lt_mul (by rwa [mul_comm])
  have hcol : t%l.blocks.n<l.blocks.n := Nat.mod_lt _ columns
  let zero := List.replicate l.ring.degree 0
  have zeroLength : zero.length=l.ring.degree := List.length_replicate
  let step (total : List ℕ) (inner : ℕ) : Result (List ℕ) := do
    let left ← l.packLhs a (t/l.blocks.n) inner zero
    let right ← l.packRhs b inner (t%l.blocks.n) zero
    pure (List.zipWith (add l.ring.modulus) total
      (negacyclic l.ring.degree l.ring.modulus left right))
  let window (inner : ℕ) : List ℕ := negacyclic l.ring.degree l.ring.modulus
    (l.leftWindow a (t/l.blocks.n) inner) (l.rightWindow b inner (t%l.blocks.n))
  have loop (n : ℕ) (hn : n≤l.blocks.m) : ∃ total,(List.range n).foldlM step zero = .ok total ∧
      Poly l.ring.degree l.ring.modulus total ∧ ∀ k<l.ring.degree,
        coeff l.ring.modulus total k = ∑ inner ∈ Finset.range n,coeff l.ring.modulus (window inner) k := by
    induction n with
    | zero =>
      refine ⟨zero,rfl,⟨zeroLength,fun x m => ?_⟩,fun k hk => ?_⟩
      · rw [List.eq_of_mem_replicate m]
        exact pos
      · rw [coeff,getD_replicate]
        exact Nat.cast_zero
    | succ n ih =>
      obtain ⟨total,eq,poly,sum⟩ := ih (Nat.le_of_succ_le hn)
      obtain ⟨windowPoly,-⟩ := negacyclic_spec pos l.ring.degree
        (l.leftWindow a (t/l.blocks.n) n) (l.rightWindow b n (t%l.blocks.n))
      have next : step total n = .ok (List.zipWith (add l.ring.modulus) total (window n)) := by
        dsimp only [step]
        rw [adm.packLhs_ok ha canonA zeroLength hrow hn,ok_bind,
          adm.packRhs_ok hb canonB zeroLength hn hcol,ok_bind]
        rfl
      have entry (i : ℕ) (hi : i<l.ring.degree) :=
        getD_zipWith (add l.ring.modulus) poly.1 windowPoly.1 hi
      refine ⟨List.zipWith (add l.ring.modulus) total (window n),?_,poly_of_getD ?_ fun i hi => ?_,
        fun k hk => ?_⟩
      · rw [List.range_succ,List.foldlM_append,eq,ok_bind,List.foldlM_cons,next]
        rfl
      · rw [List.length_zipWith,poly.1,windowPoly.1,Nat.min_self]
      · rw [entry i hi]
        exact add_lt pos _ _
      · rw [Finset.sum_range_succ,← sum k hk]
        unfold coeff
        rw [entry k hk,cast_add small (poly.getD_lt pos k) (windowPoly.getD_lt pos k)]
  obtain ⟨total,eq,poly,sum⟩ := loop l.blocks.m le_rfl
  refine ⟨total,eq,poly,fun r hr c hc => ?_⟩
  have place : (r*l.window.n+c)*l.window.m<l.ring.degree := by
    have volume := adm.volume_eq
    have first := Nat.mul_le_mul_right l.window.n
      (Nat.succ_le_of_lt (hr.trans_le (min_le_left _ _)))
    rw [Nat.succ_mul] at first
    have column := hc.trans_le (min_le_left l.window.n (l.shape.n-t%l.blocks.n*l.window.n))
    have second := Nat.mul_lt_mul_of_pos_right
      (show r*l.window.n+c < l.window.k*l.window.n by omega) adm.window.2.1
    exact second.trans_le volume
  rw [sum _ place,Finset.sum_congr rfl fun inner _ =>
    coefficient_window canonA adm hr hc]
  let f (x : ℕ) : ZMod l.ring.modulus :=
    ((a.getD ((t/l.blocks.n*l.window.k+r)*l.shape.m+x) 0 : ℕ) : ZMod l.ring.modulus) *
      (b.getD (x*l.shape.n+t%l.blocks.n*l.window.n+c) 0:ℕ)
  have parts := sum_parts l.shape.m adm.window.2.1 f
  have blocks : l.blocks.m=l.shape.m ⌈/⌉ l.window.m := by
    rw [adm.blocks]
    rfl
  rw [← blocks] at parts
  refine Eq.trans (Finset.sum_congr rfl fun inner _ => Finset.sum_congr rfl fun h _ => ?_) parts
  unfold leftEntry rightEntry
  simp only [f,add_assoc]

/-- A group has the coefficients of its blocks on their lanes. -/
lemma group_spec {g : ℕ} (hg : g<l.groups) : ∃ out,l.group a b g = .ok out ∧
    Poly l.ring.degree l.ring.modulus out ∧ ∀ t<l.blocks.k*l.blocks.n,t/l.window.m=g →
    ∃ total,l.block a b t = .ok total ∧ ∀ s,s*l.window.m+t%l.window.m<l.ring.degree → out.getD
    (s*l.window.m+t%l.window.m) 0 = total.getD (s*l.window.m) 0 := by
  obtain ⟨k,s,hk,hs,order,-⟩ := adm.degree_eq
  have width := adm.window.2.1
  have begins : g*l.window.m<l.blocks.k*l.blocks.n := by
    by_contra beyond
    rw [adm.groups] at hg
    have : (l.blocks.k*l.blocks.n) ⌈/⌉ l.window.m≤g :=
      (ceilDiv_le_iff_le_smul width).mpr (by rw [smul_eq_mul,mul_comm l.window.m]; omega)
    omega
  let count := min (l.blocks.k*l.blocks.n-g*l.window.m) l.window.m
  have countPos : 0 < count := lt_min (by omega) width
  let zero := List.replicate l.ring.degree 0
  have blocks (lane : ℕ) (h : lane < count) : g*l.window.m+lane<l.blocks.k*l.blocks.n := by
    omega
  have spec (lane : ℕ) (h : lane < count) :=
    block_spec adm ha canonA hb canonB (blocks lane h)
  obtain ⟨inputs,inputsOk⟩ : ∃ inputs,(List.range count).mapM
      (fun lane => l.block a b (g*l.window.m+lane)) = .ok inputs := by
    cases result : (List.range count).mapM (fun lane => l.block a b (g*l.window.m+lane)) with
    | ok inputs => exact ⟨inputs,rfl⟩
    | error e =>
      obtain ⟨lane,m,failed⟩ := mapM_eq_error result
      obtain ⟨total,eq,-⟩ := spec lane (List.mem_range.mp m)
      rw [eq] at failed
      cases failed
  obtain ⟨length,each⟩ := mapM_range_eq_ok [] inputsOk
  have polys : ∀ x∈inputs,Poly l.ring.degree l.ring.modulus x := by
    intro x m
    obtain ⟨i,hi,rfl⟩ := List.getElem_of_mem m
    obtain ⟨total,eq,poly,-⟩ := spec i (length ▸ hi)
    have same := (each i (length ▸ hi)).symm.trans eq
    rw [List.getD_eq_getElem _ _ hi] at same
    rw [ok_inj same]
    exact poly
  have flatLength : inputs.flatten.length=count*2^k := by
    rw [length_flatten_const (fun x m => (polys x m).1),mul_comm,length,hk]
  have flatCanon : ∀ x∈inputs.flatten,x<l.ring.modulus := by
    intro x m
    obtain ⟨y,m,m'⟩ := List.mem_flatten.mp m
    exact (polys y m).2 x m'
  have fits : count ≤ min (2^s) 256 := by
    rw [← hs]
    exact (min_le_right _ _).trans (le_min le_rfl adm.inputs)
  have scratch : l.ring.interleaveScratchWords l.window.m count =
      .ok ((nextPowerOfTwo count+1)*l.ring.degree) := by
    unfold CoefficientRing.interleaveScratchWords CoefficientRing.interleaveGeometry
    have le : l.window.m≤l.ring.degree := by
      rw [hk,hs]
      exact Nat.pow_le_pow_right (by decide) order
    have geometry : ¬(¬isPowerOfTwo l.window.m=true ∨ l.window.m>l.ring.degree ∨ count=0 ∨
        count>min l.window.m maxInterleaveInputs) := by
      exact not_or.mpr ⟨not_not.mpr adm.powerOfTwo,by unfold maxInterleaveInputs; omega⟩
    rw [if_neg geometry]
    rfl
  have degree := hk ▸ l.ring.degree_le
  obtain ⟨out,interleaved,poly,lanes⟩ : ∃ out,interleave (2^k) l.ring.modulus maxDegree
      inputs.flatten (2^s) count zero
        (List.replicate ((nextPowerOfTwo count+1)*l.ring.degree) 0) = .ok out ∧
      Poly (2^k) l.ring.modulus out ∧ ∀ i<2^k,out.getD i 0 =
        if i%2^s < count then inputs.flatten.getD (i%2^s*2^k+(i-i%2^s)) 0 else 0 :=
    interleave_ok degree (degree.trans (by decide)) l.ring.modulus_range.1 l.ring.modulus_range.2
      l.ring.odd order countPos fits flatLength flatCanon (by rw [List.length_replicate,hk])
      (by rw [List.length_replicate,hk])
  rw [← hk] at poly
  refine ⟨out,?_,poly,fun t ht htg => ?_⟩
  · unfold group groupInputs
    rw [if_neg (not_le.mpr hg),ok_bind,inputsOk,scratch,ok_bind]
    rw [← hk,← hs] at interleaved
    exact interleaved
  · have lane : t%l.window.m < count := by
      have := Nat.div_add_mod' t l.window.m
      rw [htg] at this
      exact lt_min (by omega) (Nat.mod_lt _ width)
    have whole : g*l.window.m+t%l.window.m=t := by rw [← htg,Nat.div_add_mod']
    obtain ⟨total,eq,-,-⟩ := spec _ lane
    have same := ok_inj ((each _ lane).symm.trans eq)
    rw [whole] at eq
    refine ⟨total,eq,fun q hq => ?_⟩
    have rest : (q*l.window.m+t%l.window.m)%l.window.m=t%l.window.m := by
      rw [mul_comm,Nat.mul_add_mod,Nat.mod_mod]
    have value := lanes _ (hk ▸ hq)
    rw [← hs,rest,if_pos lane,Nat.add_sub_cancel,← hk] at value
    rw [value,getD_flatten (fun x m => (polys x m).1) (length.symm ▸ lane) (by omega),same]

end Evaluate

open Nat List

lemma digits {a b n : ℕ} (h : b<n) : (a*n+b)/n=a ∧ (a*n+b)%n=b := by
  rw [mul_comm]
  exact ⟨by rw [mul_add_div (zero_lt_of_lt h),div_eq_of_lt h,add_zero],
    by rw [mul_add_mod,mod_eq_of_lt h]⟩

lemma subtract_ok {a b : ℕ} (h : b≤a) : subtract a b = .ok (a-b) := if_pos h

lemma subtract_eq_ok {a b c : ℕ} (h : subtract a b = .ok c) : b≤a ∧ c=a-b := by
  unfold subtract at h
  split at h
  · rename_i le
    exact ⟨le,(ok_inj h).symm⟩
  · cases h

namespace Admitted

variable {l : CoefficientLayout} (adm : Admitted l)
include adm

lemma block_of (hrow : row<l.shape.k) (hcol : col<l.shape.n) :
    let t := row/l.window.k*l.blocks.n+col/l.window.n
    t < l.blocks.k*l.blocks.n ∧ t/l.blocks.n=row/l.window.k ∧ t%l.blocks.n=col/l.window.n := by
  have rows : row/l.window.k<l.blocks.k := by
    rw [adm.blocks]
    exact div_lt_ceilDiv adm.window.1 hrow
  have cols : col/l.window.n<l.blocks.n := by
    rw [adm.blocks]
    exact div_lt_ceilDiv adm.window.2.2 hcol
  exact ⟨mul_add_lt rows cols,(digits cols).1,(digits cols).2⟩

lemma coefficient_lt {r c lane : ℕ} (hr : r<l.window.k) (hc : c<l.window.n)
    (hl : lane<l.window.m) : (r*l.window.n+c)*l.window.m+lane < l.ring.degree :=
  (mul_add_lt (mul_add_lt hr hc) hl).trans_le adm.volume_eq

lemma packedAddress_ok (hrow : row<l.shape.k) (hcol : col<l.shape.n) :
    l.packedAddress row col = .ok ((row/l.window.k*l.blocks.n+col/l.window.n)/l.window.m,
      (row%l.window.k*l.window.n+col%l.window.n)*l.window.m +
        (row/l.window.k*l.blocks.n+col/l.window.n)%l.window.m) := by
  unfold packedAddress
  rw [if_neg (by omega),adm.coordinates_ok,ok_bind]
  unfold address
  rw [if_neg (by dsimp only; omega)]

lemma evaluate_ok {a b : List ℕ} (ha : a.length=l.shape.k*l.shape.m)
    (canonA : ∀ x∈a,x<l.ring.modulus) (hb : b.length=l.shape.m*l.shape.n) (canonB :
    ∀ x∈b,x<l.ring.modulus) : ∃ out,l.evaluate a b = .ok out ∧ out.length=l.shape.k*l.shape.n ∧
    ∀ row<l.shape.k,∀ col<l.shape.n,out.getD (row*l.shape.n+col) 0 = (∑ h ∈ Finset.range l.shape.m,
    a.getD (row*l.shape.m+h) 0*b.getD (h*l.shape.n+col) 0)%l.ring.modulus := by
  have pos := ring_pos l.ring
  have spec (g : ℕ) (hg : g<l.groups) := group_spec adm ha canonA hb canonB hg
  obtain ⟨groups,groupsOk⟩ : ∃ groups,(range l.groups).mapM (l.group a b) = .ok groups := by
    cases result : (range l.groups).mapM (l.group a b) with
    | ok groups => exact ⟨groups,rfl⟩
    | error e =>
      obtain ⟨g,m,failed⟩ := mapM_eq_error result
      obtain ⟨out,eq,-⟩ := spec g (mem_range.mp m)
      rw [eq] at failed
      cases failed
  obtain ⟨length,each⟩ := mapM_range_eq_ok [] groupsOk
  have polys : ∀ x∈groups,Poly l.ring.degree l.ring.modulus x := by
    intro x m
    obtain ⟨i,hi,rfl⟩ := getElem_of_mem m
    obtain ⟨out,eq,poly,-⟩ := spec i (length ▸ hi)
    have same := (each i (length ▸ hi)).symm.trans eq
    rw [getD_eq_getElem _ _ hi] at same
    rw [ok_inj same]
    exact poly
  have flatLength : groups.flatten.length=l.storage.packedWords := by
    rw [length_flatten_const (fun x m => (polys x m).1),mul_comm,length,adm.packedWords]
  have flatCanon : ∀ x∈groups.flatten,x<l.ring.modulus := by
    intro x m
    obtain ⟨y,m,m'⟩ := mem_flatten.mp m
    exact (polys y m).2 x m'
  let output := replicate l.storage.outputMatrixWords 0
  have outputLength : output.length=l.shape.k*l.shape.n :=
    length_replicate.trans adm.outputWords
  let place (q : ℕ × ℕ) : ℕ := q.1*l.shape.n+q.2
  let value (q : ℕ × ℕ) : ℕ :=
    groups.flatten.getD ((q.1/l.window.k*l.blocks.n+q.2/l.window.n)/l.window.m*l.ring.degree +
      ((q.1%l.window.k*l.window.n+q.2%l.window.n)*l.window.m +
        (q.1/l.window.k*l.blocks.n+q.2/l.window.n)%l.window.m)) 0
  let outputs := range l.shape.k ×ˢ range l.shape.n
  have members (q : ℕ × ℕ) : q∈outputs ↔ q.1<l.shape.k ∧ q.2<l.shape.n := by
    rw [mem_product,mem_range,mem_range]
  have parsed : l.parse groups.flatten output = .ok (scatter place value outputs output) := by
    unfold parse
    rw [if_neg (by simp [flatLength,output]),canonical_ok flatCanon]
    refine (foldlM_ok (P := fun _ => True) outputs output trivial fun buffer _ q m =>
      ⟨?_,trivial⟩).1
    obtain ⟨hrow,hcol⟩ := (members q).mp m
    rw [adm.packedAddress_ok hrow hcol]
    rfl
  refine ⟨scatter place value outputs output,?_,(length_scatter _ _).trans outputLength,
    fun row hrow col hcol => ?_⟩
  · unfold evaluate
    rw [groupsOk]
    exact parsed
  have alone : ∀ q∈outputs,place q=place (row,col) → q=(row,col) := by
    intro q m eq
    obtain ⟨first,second⟩ := (mul_add_inj ((members q).mp m).2 hcol).mp eq
    exact Prod.ext first second
  have inside : place (row,col)<output.length := outputLength.symm ▸ mul_add_lt hrow hcol
  refine (getD_scatter 0 ((members (row,col)).mpr ⟨hrow,hcol⟩) alone inside).trans ?_
  -- The output is a coefficient of its block, at the multiple of the inner width.
  obtain ⟨ht,first,second⟩ := adm.block_of hrow hcol
  let t := row/l.window.k*l.blocks.n+col/l.window.n
  have rows := mod_lt row adm.window.1
  have cols := mod_lt col adm.window.2.2
  have lane := mod_lt t adm.window.2.1
  have hg : t/l.window.m<l.groups := by
    rw [adm.groups]
    exact div_lt_ceilDiv adm.window.2.1 ht
  have coefficient := adm.coefficient_lt rows cols lane
  obtain ⟨out,groupOk,-,lanes⟩ := spec _ hg
  obtain ⟨total,blockOk,total_eq⟩ := lanes t ht rfl
  obtain ⟨total',blockOk',poly,entries⟩ := block_spec adm ha canonA hb canonB ht
  obtain rfl : total=total' := ok_inj (blockOk.symm.trans blockOk')
  have same : groups.getD (t/l.window.m) []=out :=
    ok_inj ((each _ hg).symm.trans groupOk)
  have found : value (row,col) =
      total.getD ((row%l.window.k*l.window.n+col%l.window.n)*l.window.m) 0 := by
    show groups.flatten.getD (t/l.window.m*l.ring.degree+_) 0=_
    rw [getD_flatten (fun x m => (polys x m).1) (length.symm ▸ hg) coefficient,same]
    exact total_eq _ coefficient
  rw [found]
  refine eq_of_cast (poly.getD_lt pos _) (mod_lt _ pos) ?_
  have entry := entries (row%l.window.k) (by rw [first]; exact mod_lt_part adm.window.1 hrow)
    (col%l.window.n) (by rw [second]; exact mod_lt_part adm.window.2.2 hcol)
  refine entry.trans ?_
  rw [first,second,div_add_mod',ZMod.natCast_mod,cast_sum]
  refine Finset.sum_congr rfl fun h _ => ?_
  rw [add_assoc,div_add_mod',Nat.cast_mul]

/-- What `visible` compares at a block and a place in it. -/
lemma visible_eq {t s : ℕ} (ht : t<l.blocks.k*l.blocks.n)
    (hs : s*l.window.m+t%l.window.m<l.ring.degree) :
    (do
      let c ← l.coordinates
      c.visible (t/l.window.m) (s*l.window.m+t%l.window.m)) =
      (do
        let rowStart ← product (t/l.blocks.n) l.window.k
        let colStart ← product (t%l.blocks.n) l.window.n
        let rows ← subtract l.shape.k rowStart
        let cols ← subtract l.shape.n colStart
        pure (s/l.window.n < l.window.k && s/l.window.n < rows && s%l.window.n < cols)) := by
  obtain ⟨quotient,remainder⟩ := digits (a := s) (mod_lt t adm.window.2.1)
  have whole := div_add_mod' t l.window.m
  have count := adm.count
  rw [adm.coordinates_ok,ok_bind]
  unfold visible sum
  dsimp only
  rw [if_neg (not_le.mpr hs),product_ok (by omega),ok_bind,remainder,whole,if_pos (by omega),ok_bind,
    if_neg (not_le.mpr ht),quotient]

lemma visible_iff (group coefficient : ℕ) : (do
      let c ← l.coordinates
      c.visible group coefficient) = .ok true ↔
      ∃ row<l.shape.k,∃ col<l.shape.n,l.packedAddress row col = .ok (group,coefficient) := by
  have width := adm.window.2.1
  constructor
  · intro h
    have split := h
    rw [adm.coordinates_ok,ok_bind] at split
    unfold visible at split
    split at split
    · cases split
    rename_i inside
    obtain ⟨first,hfst,t,ht,split⟩ := bind₂_eq_ok.mp split
    rw [product_eq_ok] at hfst
    obtain ⟨-,rfl⟩ := hfst
    obtain rfl : t=group*l.window.m+coefficient%l.window.m := by
      unfold sum at ht
      split at ht
      · exact (ok_inj ht).symm
      · cases ht
    split at split
    · cases split
    rename_i valid
    obtain ⟨quotient,remainder⟩ := digits (a := group) (mod_lt coefficient width)
    let t := group*l.window.m+coefficient%l.window.m
    have place : coefficient/l.window.m*l.window.m+t%l.window.m=coefficient := by
      rw [remainder,div_add_mod']
    have h : (do
        let c ← l.coordinates
        c.visible (t/l.window.m) (coefficient/l.window.m*l.window.m+t%l.window.m)) = .ok true := by
      rw [place,quotient]
      exact h
    rw [adm.visible_eq (not_le.mp valid) (place.symm ▸ not_le.mp inside)] at h
    obtain ⟨rowStart,hrowS,colStart,hcolS,rows,hrows,cols,hcols,h⟩ := bind₄_eq_ok.mp h
    have limits := ok_inj h
    rw [product_eq_ok] at hrowS hcolS
    obtain ⟨-,rfl⟩ := hrowS
    obtain ⟨-,rfl⟩ := hcolS
    have rows_eq := subtract_eq_ok hrows
    have cols_eq := subtract_eq_ok hcols
    rw [Bool.and_eq_true,Bool.and_eq_true,decide_eq_true_eq,decide_eq_true_eq,decide_eq_true_eq]
      at limits
    obtain ⟨⟨low,rowInside⟩,colInside⟩ := limits
    rw [rows_eq.2] at rowInside
    rw [cols_eq.2] at colInside
    have hrow : t/l.blocks.n*l.window.k+coefficient/l.window.m/l.window.n < l.shape.k :=
      add_lt_of_lt_sub' rowInside
    have hcol : t%l.blocks.n*l.window.n+coefficient/l.window.m%l.window.n < l.shape.n :=
      add_lt_of_lt_sub' colInside
    have narrow := mod_lt (coefficient/l.window.m) adm.window.2.2
    refine ⟨_,hrow,_,hcol,?_⟩
    rw [adm.packedAddress_ok hrow hcol,(digits low).1,(digits low).2,
      (digits narrow).1,(digits narrow).2,div_add_mod',div_add_mod',place,quotient]
  · rintro ⟨row,hrow,col,hcol,found⟩
    rw [adm.packedAddress_ok hrow hcol] at found
    obtain ⟨rfl,rfl⟩ := Prod.mk.inj (ok_inj found)
    obtain ⟨ht,first,second⟩ := adm.block_of hrow hcol
    have rows := mod_lt row adm.window.1
    have cols := mod_lt col adm.window.2.2
    have rowWhole := div_add_mod' row l.window.k
    have colWhole := div_add_mod' col l.window.n
    have tall : l.shape.k<2^64 :=
      lt_of_le_of_lt (Nat.le_mul_of_pos_right _ adm.shape.2.1) adm.left
    have wide : l.shape.n<2^64 :=
      lt_of_le_of_lt (Nat.le_mul_of_pos_left _ adm.shape.2.1) adm.right
    rw [adm.visible_eq ht (adm.coefficient_lt rows cols (mod_lt _ width)),first,second,
      product_ok (by omega),ok_bind,product_ok (by omega),ok_bind,subtract_ok (by omega),ok_bind,
      subtract_ok (by omega),ok_bind,(digits cols).1,(digits cols).2]
    refine congrArg Except.ok ?_
    rw [Bool.and_eq_true,Bool.and_eq_true,decide_eq_true_eq,decide_eq_true_eq,decide_eq_true_eq]
    exact ⟨⟨rows,by omega⟩,by omega⟩

end Admitted

/-- For every layout and all canonical matrices the evaluation by packed polynomials is the matrix
product, and the visible coefficients are the addresses of its entries. -/
theorem coefficient_product : (∀ ring shape window maxCallerBytes l,
      CoefficientLayout.new ring shape window maxCallerBytes = .ok l →
      ∀ a b : List ℕ,a.length=shape.k*shape.m → (∀ x∈a,x < ring.modulus) →
      b.length=shape.m*shape.n → (∀ x∈b,x < ring.modulus) →
      ∃ out,l.evaluate a b = .ok out ∧ out.length=shape.k*shape.n ∧
        ∀ row < shape.k,∀ col < shape.n,out.getD (row*shape.n+col) 0 = (∑ h ∈ Finset.range shape.m,
            a.getD (row*shape.m+h) 0*b.getD (h*shape.n+col) 0)%ring.modulus) ∧
    ∀ ring shape window maxCallerBytes l,
      CoefficientLayout.new ring shape window maxCallerBytes = .ok l →
      ∀ group coefficient,(do
          let c ← l.coordinates
          c.visible group coefficient) = .ok true ↔
        ∃ row < shape.k,∃ col < shape.n,l.packedAddress row col = .ok (group,coefficient) := by
  refine ⟨fun ring shape window max l h a b ha canonA hb canonB => ?_,
    fun ring shape window max l h => ?_⟩
  · obtain ⟨⟨rfl,rfl,rfl⟩,adm⟩ := admitted_of_new h
    exact adm.evaluate_ok ha canonA hb canonB
  · obtain ⟨⟨rfl,rfl,rfl⟩,adm⟩ := admitted_of_new h
    exact adm.visible_iff

/-- Two rows and a column in two inner blocks, the second of them half empty. -/
theorem coefficient_product_small : ∃ ring l out,CoefficientRing.new 4 17 = .ok ring ∧
    CoefficientLayout.new ring ⟨2,3,1⟩ ⟨1,2,1⟩ 4096 = .ok l ∧
    l.evaluate [1,2,3,4,5,6] [7,8,9] = .ok out ∧ out.getD 0 0 = (7+16+27)%17 ∧
    out.getD 1 0 = (28+40+54)%17 ∧ (l.coordinates.bind fun c => c.visible 0 1) = .ok true := by
  obtain ⟨ring,made⟩ : ∃ ring,CoefficientRing.new 4 17 = .ok ring := ⟨_,rfl⟩
  obtain ⟨l,new⟩ : ∃ l,CoefficientLayout.new ring ⟨2,3,1⟩ ⟨1,2,1⟩ 4096 = .ok l := by
    cases made
    exact ⟨_,rfl⟩
  have modulus : ring.modulus=17 := by
    cases made
    rfl
  obtain ⟨product,visible⟩ := coefficient_product
  obtain ⟨out,ok,-,entries⟩ := product ring _ _ _ l new [1,2,3,4,5,6] [7,8,9] rfl
    (by rw [modulus]; decide) rfl (by rw [modulus]; decide)
  refine ⟨ring,l,out,made,new,ok,?_,?_,(visible ring _ _ _ l new 0 1).mpr ⟨1,by decide,0,by decide,?_⟩⟩
  · exact (entries 0 (by decide) 0 (by decide)).trans (by rw [modulus]; rfl)
  · exact (entries 1 (by decide) 0 (by decide)).trans (by rw [modulus]; rfl)
  · cases made
    cases new
    rfl

end Pllm.Coefficient
