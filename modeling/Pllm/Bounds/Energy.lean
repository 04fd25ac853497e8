import Pllm.Bounds.Scan
import Pllm.Lib.Energy

/-! Bounds of the energies of rows, from the certificates of the matrices that they go through. -/
namespace Pllm.Bounds
open Finset Nat

/-- The square of the operator norm, through the sums of rows and columns or of everything. -/
def MatrixCertificate.operatorSquared (c : MatrixCertificate) : Except Error ℕ := do
  shape c.rows c.columns
  -- A product that overflows exceeds every bound of the sum of all squares.
  pure (if c.maximumRowL1*c.maximumColumnL1 < 2^128 then
    min (c.maximumRowL1*c.maximumColumnL1) c.frobeniusSquared else c.frobeniusSquared)

/-- The ceiling of the square root. -/
def ceilSqrt (value : ℕ) : ℕ :=
  let floor := value.sqrt
  floor+if floor*floor ≠ value then 1 else 0

def divCeil (a b : ℕ) : ℕ := (a+b-1)/b

def rescaledEnergy (rawSquared coords shift roundingUnits : ℕ) : Except Error ℕ :=
  if coords=0 ∨ coords>maxColumns then .error .shape
  else if shift≥128 then .error .bounds
  else do
    let rounding ← checkedMul (ceilSqrt coords) roundingUnits
    let radius ← checkedAdd (divCeil (ceilSqrt rawSquared) (2^shift)) rounding
    squared radius

def linearEnergy (inputSquared : ℕ) (matrix : MatrixCertificate) (shift roundingUnits : ℕ) :
    Except Error ℕ := do
  let operator ← matrix.operatorSquared
  let raw ← checkedMul inputSquared operator
  rescaledEnergy raw matrix.rows shift roundingUnits

def sumEnergy (left right : ℕ) : Except Error ℕ := do
  let radius ← checkedAdd (ceilSqrt left) (ceilSqrt right)
  squared radius

/-- The greatest squared norm of the rotations. -/
def rotations (cos sin : List ℤ) : Except Error ℕ :=
  (cos.zip sin).foldlM (fun maximum p => do
    let c ← squared p.1.natAbs
    let s ← squared p.2.natAbs
    let sum ← checkedAdd c s
    pure (max maximum sum)) 0

def rotaryEnergy (inputSquared : ℕ) (cos sin : List ℤ) (shift roundingUnits : ℕ) :
    Except Error ℕ :=
  if cos=[] ∨ cos.length≠sin.length ∨ cos.length>maxRows/2 then .error .shape
  else do
    let maximum ← rotations cos sin
    let raw ← checkedMul inputSquared maximum
    rescaledEnergy raw (2*cos.length) shift roundingUnits

def dotRadius (leftSquared rightSquared : ℕ) : Except Error ℕ := do
  let product ← checkedMul leftSquared rightSquared
  pure (ceilSqrt product)

/-! Every bound is one: nothing that is within its assumptions has more energy. -/
open Pllm.Lib

/-- The bounds of a certificate hold of a matrix. -/
structure Certifies (c : MatrixCertificate) (w : ℕ → ℕ → ℤ) : Prop where
  row : ∀ i < c.rows,∑ j ∈ Finset.range c.columns,(w i j).natAbs ≤ c.maximumRowL1
  column : ∀ j < c.columns,∑ i ∈ Finset.range c.rows,(w i j).natAbs ≤ c.maximumColumnL1
  frobenius : ∑ i ∈ Finset.range c.rows,∑ j ∈ Finset.range c.columns,(w i j).natAbs^2 ≤
    c.frobeniusSquared

variable {c : MatrixCertificate} {values : List ℤ}

lemma Statistics.certifies {rows cols : ℕ}
    (s : Statistics values rows cols c) : Certifies c (entry values cols) := by
  refine ⟨fun i hi => ?_,fun j hj => ?_,?_⟩
  · rw [s.maximumRowL1,s.columns_eq]
    exact le_sup (f := fun i => ∑ j ∈ range cols,(entry values cols i j).natAbs)
      (mem_range.mpr (s.rows_eq ▸ hi))
  · rw [s.maximumColumnL1,s.rows_eq]
    exact le_sup (f := fun j => ∑ i ∈ range rows,(entry values cols i j).natAbs)
      (mem_range.mpr (s.columns_eq ▸ hj))
  · rw [s.frobeniusSquared,s.rows_eq,s.columns_eq]

/-- A code stands for a value that was divided by a power of two, up to some units. -/
def Rounds (shift units : ℕ) (raw code : ℤ) : Prop := |code*2^shift-raw| ≤ units*2^shift

section
variable {s : Finset ℕ} {x y a b : ℕ → ℤ} {bound shift units input left right : ℕ}
  {c : MatrixCertificate} {w : ℕ → ℕ → ℤ} {cos sin : List ℤ}

lemma le_ceilSqrt_sq (value : ℕ) : value ≤ ceilSqrt value^2 := by
  unfold ceilSqrt
  dsimp only
  split
  · rw [sq]
    exact le_of_lt (lt_succ_sqrt value)
  · rename_i eq
    rw [add_zero,sq,not_not.mp eq]

lemma le_mul_divCeil (a : ℕ) {b : ℕ} (pos : 0<b) : a ≤ b*divCeil a b := by
  have := lt_mul_div_succ (a+b-1) pos
  unfold divCeil
  rw [mul_add] at this
  omega

lemma energy_le_ceilSqrt (h : ∑ i ∈ s,x i^2 ≤ bound) : ∑ i ∈ s,x i^2 ≤ (ceilSqrt bound:ℤ)^2 :=
  h.trans (by exact_mod_cast le_ceilSqrt_sq bound)

lemma rescaledEnergy_sound {raw coords : ℕ} (h : rescaledEnergy raw coords shift units = .ok bound)
    (energy : ∑ i ∈ range coords,x i^2 ≤ raw)
    (rounds : ∀ i < coords,Rounds shift units (x i) (y i)) : ∑ i ∈ range coords,y i^2 ≤ bound := by
  unfold rescaledEnergy at h
  split at h
  · cases h
  split at h
  · cases h
  obtain ⟨rounding,hr,h⟩ := bind_eq_ok.mp h
  obtain ⟨-,rfl⟩ := checkedMul_eq_ok.mp hr
  obtain ⟨radius,hd,h⟩ := bind_eq_ok.mp h
  obtain ⟨-,rfl⟩ := checkedAdd_eq_ok.mp hd
  obtain ⟨-,rfl⟩ := squared_eq_ok.mp h
  have scale : (0:ℤ) < 2^shift := by positivity
  -- the deviations of the scaled codes have a radius of their own
  have deviation : ∑ i ∈ range coords,(y i*2^shift-x i)^2 ≤
      ((ceilSqrt coords:ℤ)*(units*2^shift))^2 := by
    calc ∑ i ∈ range coords,(y i*2^shift-x i)^2
        ≤ ∑ i ∈ range coords,((units:ℤ)*2^shift)^2 := by
          refine sum_le_sum fun i m => sq_le_sq.mpr ?_
          exact (rounds i (mem_range.mp m)).trans (le_abs_self _)
      _ = coords*((units:ℤ)*2^shift)^2 := by
          rw [sum_const,card_range,nsmul_eq_mul]
      _ ≤ (ceilSqrt coords:ℤ)^2*((units:ℤ)*2^shift)^2 := by
          gcongr
          exact_mod_cast le_ceilSqrt_sq coords
      _ = ((ceilSqrt coords:ℤ)*(units*2^shift))^2 := (mul_pow ..).symm
  have total := energy_add_le (by positivity) (by positivity) (energy_le_ceilSqrt energy) deviation
  have divided : (ceilSqrt raw : ℤ) ≤ 2^shift*divCeil (ceilSqrt raw) (2^shift) := by
    exact_mod_cast le_mul_divCeil (ceilSqrt raw) (Nat.two_pow_pos shift)
  refine le_of_mul_le_mul_left ?_ (pow_pos scale 2)
  calc (2^shift:ℤ)^2*∑ i ∈ range coords,y i^2
      = ∑ i ∈ range coords,(x i+(y i*2^shift-x i))^2 := by
        rw [mul_sum]
        exact sum_congr rfl fun i _ => by ring
    _ ≤ ((ceilSqrt raw:ℤ)+ceilSqrt coords*(units*2^shift))^2 := total
    _ ≤ (2^shift*divCeil (ceilSqrt raw) (2^shift)+ceilSqrt coords*(units*2^shift))^2 := by
        gcongr
    _ = (2^shift:ℤ)^2*
        ((divCeil (ceilSqrt raw) (2^shift)+ceilSqrt coords*units)^2 : ℕ) := by
        push_cast
        ring

lemma operatorSquared_sound {operator : ℕ}
    (h : c.operatorSquared = .ok operator) (certifies : Certifies c w) (x : ℕ → ℤ) : ∑ i ∈
    range c.rows,(∑ j ∈ range c.columns,w i j*x j)^2 ≤ operator*∑ j ∈ range c.columns,x j^2 := by
  obtain ⟨_,-,h⟩ := bind_eq_ok.mp h
  have energy : 0 ≤ ∑ j ∈ range c.columns,x j^2 := sum_nonneg fun _ _ => sq_nonneg _
  have sums : ∑ i ∈ range c.rows,(∑ j ∈ range c.columns,w i j*x j)^2 ≤
      (c.maximumRowL1*c.maximumColumnL1:ℕ)*∑ j ∈ range c.columns,x j^2 := by
    rw [cast_mul]
    refine energy_apply_le (cast_nonneg _) (fun i m => ?_) fun j m => ?_
    · simp only [← Int.natCast_natAbs]
      exact_mod_cast certifies.row i (mem_range.mp m)
    · simp only [← Int.natCast_natAbs]
      exact_mod_cast certifies.column j (mem_range.mp m)
  have whole : ∑ i ∈ range c.rows,(∑ j ∈ range c.columns,w i j*x j)^2 ≤
      (c.frobeniusSquared:ℕ)*∑ j ∈ range c.columns,x j^2 := by
    refine (energy_apply_le_sum w x).trans (mul_le_mul_of_nonneg_right ?_ energy)
    have squares (i j : ℕ) : w i j^2=(((w i j).natAbs^2:ℕ) : ℤ) := by
      rw [cast_pow,Int.natAbs_sq]
    simp only [squares]
    exact_mod_cast certifies.frobenius
  obtain rfl := ok_inj h
  split
  · rcases min_cases (c.maximumRowL1*c.maximumColumnL1) c.frobeniusSquared with ⟨eq,-⟩ | ⟨eq,-⟩
    · rw [eq]
      exact sums
    · rw [eq]
      exact whole
  · exact whole

lemma linearEnergy_sound (h : linearEnergy input c shift units = .ok bound) (certifies :
    Certifies c w) (energy : ∑ j ∈ range c.columns,x j^2 ≤ input) (rounds : ∀ i < c.rows,Rounds
    shift units (∑ j ∈ range c.columns,w i j*x j) (y i)) : ∑ i ∈ range c.rows,y i^2 ≤ bound := by
  obtain ⟨operator,ho,raw,hr,h⟩ := bind₂_eq_ok.mp h
  obtain ⟨-,rfl⟩ := checkedMul_eq_ok.mp hr
  refine rescaledEnergy_sound h ?_ rounds
  refine (operatorSquared_sound ho certifies x).trans ?_
  rw [cast_mul,mul_comm (input : ℤ)]
  exact mul_le_mul_of_nonneg_left energy (cast_nonneg _)

lemma sumEnergy_sound (h : sumEnergy left right = .ok bound)
    (ha : ∑ i ∈ s,a i^2 ≤ left) (hb : ∑ i ∈ s,b i^2 ≤ right) : ∑ i ∈ s,(a i+b i)^2 ≤ bound := by
  obtain ⟨radius,hr,h⟩ := bind_eq_ok.mp h
  obtain ⟨-,rfl⟩ := checkedAdd_eq_ok.mp hr
  obtain ⟨-,rfl⟩ := squared_eq_ok.mp h
  have := energy_add_le (cast_nonneg _) (cast_nonneg _) (energy_le_ceilSqrt ha)
    (energy_le_ceilSqrt hb)
  exact_mod_cast this

lemma dotRadius_sound {radius : ℕ} (h : dotRadius left right = .ok radius)
    (ha : ∑ i ∈ s,a i^2 ≤ left) (hb : ∑ i ∈ s,b i^2 ≤ right) :
    |∑ i∈s,a i*b i| ≤ radius := by
  obtain ⟨product,hp,h⟩ := bind_eq_ok.mp h
  obtain ⟨-,rfl⟩ := checkedMul_eq_ok.mp hp
  obtain rfl := ok_inj h
  refine abs_le_of_sq_le_sq ?_ (cast_nonneg _)
  calc (∑ i∈s,a i*b i)^2 ≤ (∑ i∈s,a i^2)*∑ i∈s,b i^2 := sum_mul_sq_le_sq_mul_sq ..
    _ ≤ (left:ℤ)*right :=
      mul_le_mul ha hb (sum_nonneg fun _ _ => sq_nonneg _) (cast_nonneg _)
    _ ≤ (ceilSqrt (left*right):ℤ)^2 := by exact_mod_cast le_ceilSqrt_sq (left*right)

lemma rotations_ge {maximum : ℕ} (same : cos.length=sin.length)
    (h : rotations cos sin = .ok maximum) {j : ℕ} (hj : j < cos.length) :
    (cos.getD j 0).natAbs^2+(sin.getD j 0).natAbs^2 ≤ maximum := by
  have loop (l : List (ℤ × ℤ)) (start : ℕ) (h : l.foldlM (fun maximum p => do
      let c ← squared p.1.natAbs
      let s ← squared p.2.natAbs
      let sum ← checkedAdd c s
      pure (max maximum sum)) start = Except.ok (ε := Error) maximum) :
      start ≤ maximum ∧ ∀ p∈l,p.1.natAbs^2+p.2.natAbs^2 ≤ maximum := by
    induction l generalizing start with
    | nil =>
      obtain rfl := ok_inj h
      exact ⟨le_rfl,fun _ m => absurd m List.not_mem_nil⟩
    | cons p l ih =>
      obtain ⟨next,hp,h⟩ := bind_eq_ok.mp h
      obtain ⟨c,hc,hp⟩ := bind_eq_ok.mp hp
      obtain ⟨-,rfl⟩ := squared_eq_ok.mp hc
      obtain ⟨s,hs,hp⟩ := bind_eq_ok.mp hp
      obtain ⟨-,rfl⟩ := squared_eq_ok.mp hs
      obtain ⟨sum,hsum,hp⟩ := bind_eq_ok.mp hp
      obtain ⟨-,rfl⟩ := checkedAdd_eq_ok.mp hsum
      obtain rfl := ok_inj hp
      obtain ⟨le,all⟩ := ih _ h
      refine ⟨(le_max_left _ _).trans le,fun q m => ?_⟩
      rcases List.mem_cons.mp m with rfl | m
      · exact (le_max_right _ _).trans le
      · exact all q m
  have inside : j < (cos.zip sin).length := by simp [← same,hj]
  have mem := List.getElem_mem inside
  have := (loop _ 0 h).2 _ mem
  simpa [hj,same ▸ hj] using this

lemma rotaryEnergy_sound (h : rotaryEnergy input cos sin shift units = .ok bound)
    (energy : ∑ i ∈ range (2*cos.length),x i^2 ≤ input) (rounds : ∀ j < cos.length,
      Rounds shift units (cos.getD j 0*x j-sin.getD j 0*x (cos.length+j)) (y j) ∧
      Rounds shift units (cos.getD j 0*x (cos.length+j)+sin.getD j 0*x j) (y (cos.length+j))) :
    ∑ i ∈ range (2*cos.length),y i^2 ≤ bound := by
  unfold rotaryEnergy at h
  split at h
  · cases h
  rename_i shaped
  have same : cos.length=sin.length := by
    by_contra ne
    exact shaped (.inr (.inl ne))
  obtain ⟨maximum,hm,raw,hr,h⟩ := bind₂_eq_ok.mp h
  obtain ⟨-,rfl⟩ := checkedMul_eq_ok.mp hr
  let half := cos.length
  -- the exact rotation of the input
  let turned (i : ℕ) : ℤ := if i<half then cos.getD i 0*x i-sin.getD i 0*x (half+i)
    else cos.getD (i-half) 0*x i+sin.getD (i-half) 0*x (i-half)
  have halv (f : ℕ → ℤ) : ∑ i ∈ range (2*half),f i =
      ∑ j ∈ range half,(f j+f (half+j)) := by
    rw [two_mul,sum_range_add,sum_add_distrib]
  have low (j : ℕ) (hj : j<half) : turned j=cos.getD j 0*x j-sin.getD j 0*x (half+j) := if_pos hj
  have high (j : ℕ) : turned (half+j)=cos.getD j 0*x (half+j)+sin.getD j 0*x j := by
    have not_low : ¬half+j < half := by omega
    simp only [turned,if_neg not_low,Nat.add_sub_cancel_left]
  refine rescaledEnergy_sound h (x := turned) ?_ fun i hi => ?_
  · calc ∑ i ∈ range (2*half),turned i^2
        = ∑ j ∈ range half,
            (cos.getD j 0^2+sin.getD j 0^2)*(x j^2+x (half+j)^2) := by
          rw [halv]
          refine sum_congr rfl fun j m => ?_
          rw [low j (mem_range.mp m),high]
          ring
      _ ≤ ∑ j ∈ range half,(maximum : ℤ)*(x j^2+x (half+j)^2) := by
          refine sum_le_sum fun j m => mul_le_mul_of_nonneg_right ?_ (by positivity)
          rw [← Int.natAbs_sq (cos.getD j 0),← Int.natAbs_sq (sin.getD j 0)]
          exact_mod_cast rotations_ge same hm (mem_range.mp m)
      _ = maximum*∑ i ∈ range (2*half),x i^2 := by rw [← mul_sum,halv]
      _ ≤ (input*maximum:ℕ) := by
          rw [cast_mul,mul_comm (input : ℤ)]
          exact mul_le_mul_of_nonneg_left energy (cast_nonneg _)
  · by_cases first : i<half
    · rw [low i first]
      exact (rounds i first).1
    · obtain ⟨j,rfl⟩ := Nat.exists_eq_add_of_le (not_lt.mp first)
      rw [high]
      exact (rounds j (by omega)).2

end

open Pllm.Lib MatrixScan

/-- The sums of a matrix that the words of a scan of its kind have to hold. -/
def Fits (values : List ℤ) (rows cols : ℕ) (full : Prop) : Prop :=
  (full → ∑ i ∈ Finset.range rows,∑ j ∈ Finset.range cols,(entry values cols i j).natAbs^2 <
    2^128) ∧
  ∀ i < rows,∑ j ∈ Finset.range cols,(entry values cols i j).natAbs^2 < 2^128

namespace Exact

variable {values : List ℤ} {rows width n : ℕ} {p : Pending}

variable (known : Exact (values.getD · 0) rows width n p)
include known

lemma push_ok {last : ℕ} (inside : n < rows*width) (more : n≠last) (fits :
    Fits values rows width (p.columns ≠ [])) : ∃ p',p.push last (values.getD n 0) = .ok p' := by
  have pos := known.pos
  let square (k : ℕ) : ℕ := (values.getD k 0).natAbs^2
  have row : n/width < rows := (Nat.div_lt_iff_lt_mul pos).mpr inside
  have stop : n<(n/width+1)*width := by
    rw [succ_mul]
    exact lt_div_mul_add pos
  -- the row that is being read stays within its complete row
  have line : p.currentRowSquared+square n < 2^128 := by
    rw [known.squares.grown]
    refine lt_of_le_of_lt ?_ (fits.2 _ row)
    have whole : ∑ j ∈ range width,(entry values width (n/width) j).natAbs^2 =
        ∑ k ∈ Ico (n/width*width) ((n/width+1)*width),square k := by
      rw [sum_Ico_eq_sum_range,succ_mul,Nat.add_sub_cancel_left]
      rfl
    rw [whole]
    exact sum_le_sum_of_subset (Ico_subset_Ico_right stop)
  have value : (values.getD n 0).natAbs^2 < 2^128 := lt_of_le_of_lt le_add_self line
  have squared' : squared (values.getD n 0).natAbs = .ok (square n) := squared_eq_ok.mpr ⟨value,rfl⟩
  have current : checkedAdd p.currentRowSquared (square n) = .ok (p.currentRowSquared+square n) :=
    checkedAdd_eq_ok.mpr ⟨line,rfl⟩
  have head : p.offset≠last := known.offset ▸ more
  unfold Pending.push
  rw [if_neg head,squared',ok_bind,current,ok_bind]
  unfold Pending.total
  dsimp only
  by_cases none : p.columns=[]
  · rw [if_pos none]
    exact ⟨_,rfl⟩
  rw [if_neg none]
  have totals := known.totals none
  have small : ∑ k ∈ range (n+1),square k < 2^128 := by
    refine lt_of_le_of_lt ?_ (fits.1 none)
    have whole := sum_rows square width rows
    change _ = ∑ i ∈ range rows,∑ j ∈ range width,(entry values width i j).natAbs^2 at whole
    rw [← whole]
    exact sum_le_sum_of_subset (range_mono inside)
  have le (k : ℕ) : (values.getD k 0).natAbs ≤ square k := Nat.le_self_pow two_ne_zero _
  have column : checkedAdd (p.columns.getD (p.offset % p.width) 0) (values.getD n 0).natAbs =
      .ok (p.columns.getD (p.offset % p.width) 0+(values.getD n 0).natAbs) := by
    refine checkedAdd_eq_ok.mpr ⟨lt_of_le_of_lt ?_ small,rfl⟩
    have wide : 0<p.width := known.width_eq ▸ pos
    rw [totals.columns _ (mod_lt _ wide),sum_range_succ]
    refine Nat.add_le_add (sum_le_sum fun k _ => ?_) (le n)
    split
    · exact le k
    · exact zero_le _
  have current : checkedAdd p.currentRow (values.getD n 0).natAbs =
      .ok (p.currentRow+(values.getD n 0).natAbs) := by
    refine checkedAdd_eq_ok.mpr ⟨lt_of_le_of_lt ?_ small,rfl⟩
    rw [totals.rows.grown]
    refine (sum_le_sum fun k _ => le k).trans (sum_le_sum_of_subset ?_)
    rw [range_eq_Ico]
    exact Ico_subset_Ico_left (zero_le _)
  have frobenius : checkedAdd p.frobeniusSquared (square n) =
      .ok (p.frobeniusSquared+square n) := by
    refine checkedAdd_eq_ok.mpr ⟨?_,rfl⟩
    rwa [totals.frobenius,← sum_range_succ]
  rw [column,current,ok_bind,frobenius]
  exact ⟨_,rfl⟩

lemma foldl_ok {last : ℕ} {chunk : List ℤ} (ends : n+chunk.length=last) (inside : last ≤ rows*width)
    (fits : Fits values rows width (p.columns ≠ [])) (same : ∀ i < chunk.length,chunk.getD i 0 =
    values.getD (n+i) 0) : ∃ p',chunk.foldlM (Pending.push last) p = .ok p' := by
  induction chunk generalizing p n with
  | nil => exact ⟨p,rfl⟩
  | cons x chunk ih =>
    rw [List.length_cons] at ends
    have first : x=values.getD n 0 := same 0 (succ_pos _)
    have more : n≠last := by omega
    obtain ⟨q,pushed⟩ := known.push_ok (by omega) more fits
    obtain ⟨next,-,kind⟩ := known.push pushed
    have rest : ∀ i < chunk.length,chunk.getD i 0=values.getD (n+1+i) 0 := fun i hi => by
      rw [add_assoc,add_comm 1 i]
      exact same (i+1) (succ_lt_succ hi)
    rw [List.foldlM_cons,first,pushed]
    refine ih next (by omega) ?_ rest
    rwa [ne_eq,kind]

end Exact

/-- The calls that scan the chunks of a matrix in order. -/
def chunked : ℕ → List (List ℤ) → List MatrixScan.Call
  | _,[] => []
  | offset,chunk::chunks => ⟨offset,chunk.length,chunk⟩::chunked (offset+chunk.length) chunks

lemma streamed_chunked (offset : ℕ) (chunks : List (List ℤ)) :
    streamed (chunked offset chunks) = chunks.flatten := by
  induction chunks generalizing offset with
  | nil => rfl
  | cons chunk chunks ih => exact congrArg (chunk ++ ·) (ih _)

/-- A scan takes every chunk of a matrix whose sums fit. -/
lemma run_chunked {rows width n : ℕ} {p : Pending} {chunks : List (List ℤ)}
    (known : Exact (values.getD · 0) rows width n p) (sized : rows*width<2^64)
    (inside : n+chunks.flatten.length ≤ rows*width) (filled : ∀ chunk∈chunks,chunk ≠ []) (fits :
    Fits values rows width (p.columns ≠ [])) (same : ∀ i < chunks.flatten.length,chunks.flatten.getD
    i 0 = values.getD (n+i) 0) : ∃ p',run ⟨some p⟩ (chunked n chunks) = ⟨some p'⟩ := by
  induction chunks generalizing p n with
  | nil => exact ⟨p,rfl⟩
  | cons chunk chunks ih =>
    rw [List.flatten_cons,List.length_append] at inside same
    have head : ∀ i < chunk.length,chunk.getD i 0=values.getD (n+i) 0 := fun i hi => by
      rw [← same i (by omega)]
      simp [List.getElem?_append_left hi]
    have tail : ∀ i < chunks.flatten.length,chunks.flatten.getD i 0 =
        values.getD (n+chunk.length+i) 0 := fun i hi => by
      rw [add_assoc,← same (chunk.length+i) (by omega),getD_append_add]
    obtain ⟨q,pushed⟩ := known.foldl_ok rfl (by omega) fits head
    obtain ⟨next,kind⟩ := known.foldl pushed head
    have nonempty : chunk.length≠0 :=
      fun zero => filled chunk List.mem_cons_self (List.eq_nil_of_length_eq_zero zero)
    have bound : n+chunk.length<2^64 := lt_of_le_of_lt (by omega) sized
    have ordered : ¬(chunk.length=0 ∨ n≠p.offset ∨ n+chunk.length>p.rows*p.width) := by
      rw [known.offset,known.rows_eq,known.width_eq]
      omega
    have accepted : appendIter ⟨some p⟩ n chunk.length chunk=(.ok (),⟨some q⟩) := by
      unfold appendIter
      dsimp only
      rw [if_neg (not_not.mpr bound),if_neg ordered,pushed]
      exact if_neg (not_not.mpr next.offset)
    rw [chunked,run_cons,accepted]
    refine ih next (by omega) (fun chunk m => filled chunk (List.mem_cons_of_mem _ m)) ?_ tail
    rwa [ne_eq,kind]

section
variable {rows cols stateBytes limit : ℕ} {s : MatrixScan}

lemma shape_eq_ok (h : shape rows cols = .ok ()) : 0 < rows ∧ 0 < cols ∧ rows*cols<2^64 := by
  unfold shape at h
  split at h
  · cases h
  split at h
  · rename_i sized
    exact ⟨by omega,by omega,sized⟩
  · cases h

lemma new_exact {granted : Bool} (h : new stateBytes granted rows cols limit = .ok s) : shape
    rows cols = .ok () ∧ ∃ p,s = ⟨some p⟩ ∧ p.columns ≠ [] ∧ ∀ v,Exact v rows cols 0 p := by
  obtain ⟨bytes,sized,h⟩ := bind_eq_ok.mp h
  obtain ⟨_,shaped,-⟩ := bind_eq_ok.mp sized
  split at h
  · cases h
  split at h
  · cases h
  obtain rfl := ok_inj h
  obtain ⟨-,pos,-⟩ := shape_eq_ok shaped
  have full : List.replicate cols 0 ≠ [] := by
    rw [ne_eq,List.replicate_eq_nil_iff]
    omega
  refine ⟨shaped,_,rfl,full,fun v => ⟨pos,rfl,rfl,rfl,Tally.start _ _,⟨Nat.two_pow_pos 128,Nat.two_pow_pos 128⟩,
    fun _ => ⟨List.length_replicate,fun c hc => ?_,Tally.start _ _,rfl,Nat.two_pow_pos 128⟩,fun _ => rfl⟩⟩
  simp

lemma newRowEnergy_exact (h : newRowEnergy stateBytes rows cols limit = .ok s) :
    rows*cols<2^64 ∧ ∃ p,s = ⟨some p⟩ ∧ p.columns = [] ∧ ∀ v,Exact v rows cols 0 p := by
  obtain ⟨bytes,sized,h⟩ := bind_eq_ok.mp h
  unfold rowEnergyPayloadBytes at sized
  split at sized
  · cases sized
  split at sized
  swap
  · cases sized
  rename_i bound
  split at h
  · cases h
  obtain rfl := ok_inj h
  exact ⟨bound,_,rfl,rfl,fun v => ⟨by omega,rfl,rfl,rfl,Tally.start _ _,⟨Nat.two_pow_pos 128,Nat.two_pow_pos 128⟩,
    fun full => absurd rfl full,fun _ => rfl⟩⟩

end

section
variable {p q : Pending}

lemma run_exact {rows cols : ℕ} {calls : List Call} (start : ∀ v,Exact v rows cols 0 p)
    (h : run ⟨some p⟩ calls = ⟨some q⟩) : Exact ((streamed calls).getD · 0) rows cols
    (streamed calls).length q ∧ (q.columns = [] ↔ p.columns = []) := by
  have done := (start ((streamed calls).getD · 0)).run h fun i _ => by rw [zero_add]
  rwa [zero_add] at done

lemma complete_length {v : ℕ → ℤ} {rows cols n : ℕ} (known : Exact v rows cols n q)
    (h : q.complete = .ok ()) : n=rows*cols := by
  unfold Pending.complete at h
  split at h
  · cases h
  · rename_i ends
    rw [← known.offset,← known.rows_eq,← known.width_eq]
    by_contra ne
    exact ends (.inl ne)

section
variable {rows cols : ℕ} {calls : List Call} (start : ∀ v,Exact v rows cols 0 p)
include start

lemma finish_statistics (full : p.columns ≠ []) (shaped : shape rows cols = .ok ())
    (h : (run ⟨some p⟩ calls).finish = .ok c) : (streamed calls).length = rows*cols ∧ Statistics
    (streamed calls) rows cols c ∧ c.frobeniusSquared<2^128 := by
  cases ended : (run ⟨some p⟩ calls).pending with
  | none =>
    rw [finish,ended] at h
    cases h
  | some q =>
    have run : run ⟨some p⟩ calls=⟨some q⟩ := congrArg mk ended
    obtain ⟨known,kind⟩ := run_exact start run
    have full : q.columns ≠ [] := fun none => full (kind.mp none)
    rw [run] at h
    obtain ⟨_,complete,-⟩ := bind_eq_ok.mp h
    have length := complete_length known complete
    rw [length] at known
    obtain ⟨c',finished,statistics⟩ := known.finish full shaped
    obtain rfl : c'=c := ok_inj (finished.symm.trans h)
    refine ⟨length,statistics,?_⟩
    have totals := known.totals full
    rw [statistics.frobeniusSquared]
    have whole := totals.frobenius.trans (sum_rows _ cols rows)
    exact whole ▸ totals.small

lemma finishRowEnergy_exact {c : RowEnergyCertificate} (h : (run ⟨some p⟩ calls).finishRowEnergy =
    .ok c) : (streamed calls).length = rows*cols ∧ c = ⟨rows,cols,(range rows).sup fun i => ∑ j
    ∈ range cols,(entry (streamed calls) cols i j).natAbs^2⟩ ∧ c.maximumRowSquaredEnergy<2^128 := by
  cases ended : (run ⟨some p⟩ calls).pending with
  | none =>
    rw [finishRowEnergy,ended] at h
    cases h
  | some q =>
    have run : run ⟨some p⟩ calls=⟨some q⟩ := congrArg mk ended
    obtain ⟨known,-⟩ := run_exact start run
    rw [run] at h
    have result := h
    obtain ⟨_,complete,last⟩ := bind_eq_ok.mp h
    have length := complete_length known complete
    rw [length] at known
    have eq := ok_inj (known.finishRowEnergy.symm.trans result)
    refine ⟨length,eq.symm,?_⟩
    rw [← ok_inj last]
    exact known.small.2

end

lemma same_chunks (chunks : List (List ℤ)) : ∀ i < chunks.flatten.length,
    chunks.flatten.getD i 0 = chunks.flatten.getD (0+i) 0 := fun i _ => by rw [zero_add]

section
variable {rows cols : ℕ} {chunks : List (List ℤ)} (start : ∀ v,Exact v rows cols 0 p)
include start

/-- A matrix is scanned in any chunks, unless its sums do not fit. -/
lemma finish_chunked (full : p.columns ≠ []) (shaped : shape rows cols = .ok ())
    (filled : ∀ chunk∈chunks,chunk ≠ []) (length : chunks.flatten.length=rows*cols) :
    (∃ c,(run ⟨some p⟩ (chunked 0 chunks)).finish = .ok c) ↔ ∑ i ∈ range rows,∑ j ∈ range cols,
    (entry chunks.flatten cols i j).natAbs^2 < 2^128 := by
  constructor
  · rintro ⟨c,finished⟩
    obtain ⟨-,statistics,small⟩ := finish_statistics start full shaped finished
    rw [streamed_chunked] at statistics
    rwa [← statistics.frobeniusSquared]
  · intro small
    have fits : Fits chunks.flatten rows cols (p.columns ≠ []) := by
      refine ⟨fun _ => small,fun i hi => lt_of_le_of_lt ?_ small⟩
      exact single_le_sum (f := fun i => ∑ j ∈ range cols, (entry chunks.flatten cols i
        j).natAbs^2) (fun _ _ => zero_le _) (mem_range.mpr hi)
    obtain ⟨q,run⟩ := run_chunked (start _) (shape_eq_ok shaped).2.2 (by omega) filled fits
      (same_chunks chunks)
    obtain ⟨known,kind⟩ := run_exact start run
    rw [streamed_chunked,length] at known
    obtain ⟨c,finished,-⟩ := known.finish (fun none => full (kind.mp none)) shaped
    exact ⟨c,run ▸ finished⟩

lemma finishRowEnergy_chunked (none : p.columns = []) (sized : rows*cols<2^64)
    (filled : ∀ chunk∈chunks,chunk ≠ []) (length : chunks.flatten.length=rows*cols) :
    (∃ c,(run ⟨some p⟩ (chunked 0 chunks)).finishRowEnergy = .ok c) ↔
      ∀ i < rows,∑ j ∈ range cols,(entry chunks.flatten cols i j).natAbs^2 < 2^128 := by
  constructor
  · rintro ⟨c,finished⟩ i hi
    obtain ⟨-,rfl,small⟩ := finishRowEnergy_exact start finished
    rw [streamed_chunked] at small
    refine lt_of_le_of_lt ?_ small
    exact le_sup (f := fun i => ∑ j ∈ range cols,
      (entry chunks.flatten cols i j).natAbs^2) (mem_range.mpr hi)
  · intro small
    have fits : Fits chunks.flatten rows cols (p.columns ≠ []) :=
      ⟨fun full => absurd none full,small⟩
    obtain ⟨q,run⟩ := run_chunked (start _) sized (by omega) filled fits (same_chunks chunks)
    obtain ⟨known,-⟩ := run_exact start run
    rw [streamed_chunked,length] at known
    exact ⟨_,run ▸ known.finishRowEnergy⟩

end

lemma retired_for_good {s : MatrixScan} {c : Call} {e : Error}
    (h : (s.appendIter c.offset c.length c.values).1 = .error e) (calls : List Call) :
    let r := (s.appendIter c.offset c.length c.values).2.run calls
    (∀ c : Call,(r.appendIter c.offset c.length c.values).1 = .error .retired) ∧
      r.finish = .error .retired ∧ r.finishRowEnergy = .error .retired := by
  rcases s.appendIter_cases c.offset c.length c.values with ⟨e',eq⟩ | ⟨p,eq⟩
  · rw [eq]
    rw [run_retired]
    exact ⟨fun _ => rfl,rfl,rfl⟩
  · rw [eq] at h
    cases h

/-- Certificates are exact whatever the chunks, errors retire a scan, and every bound is sound. -/
theorem integer_bounds :
    (∀ stateBytes granted rows cols limit s, new stateBytes granted rows cols limit = .ok s →
      (∀ calls c,(s.run calls).finish = .ok c →
        (streamed calls).length = rows*cols ∧ Statistics (streamed calls) rows cols c) ∧
      ∀ chunks : List (List ℤ),(∀ chunk∈chunks,chunk ≠ []) → chunks.flatten.length=rows*cols →
        ((∃ c,(s.run (chunked 0 chunks)).finish = .ok c) ↔
          ∑ i ∈ range rows,∑ j ∈ range cols,
            (entry chunks.flatten cols i j).natAbs^2 < 2^128)) ∧
    (∀ stateBytes rows cols limit s, newRowEnergy stateBytes rows cols limit = .ok s →
      (∀ calls c,(s.run calls).finishRowEnergy = .ok c → (streamed calls).length = rows*cols ∧
        c = ⟨rows,cols,(range rows).sup fun i =>
          ∑ j ∈ range cols,(entry (streamed calls) cols i j).natAbs^2⟩) ∧
      ∀ chunks : List (List ℤ),(∀ chunk∈chunks,chunk ≠ []) → chunks.flatten.length=rows*cols →
        ((∃ c,(s.run (chunked 0 chunks)).finishRowEnergy = .ok c) ↔ ∀ i < rows,
          ∑ j ∈ range cols,(entry chunks.flatten cols i j).natAbs^2 < 2^128)) ∧
    (∀ (s : MatrixScan) (c : Call) e calls, (s.appendIter c.offset c.length c.values).1 = .error e →
      let r := (s.appendIter c.offset c.length c.values).2.run calls
      (∀ c : Call,(r.appendIter c.offset c.length c.values).1 = .error .retired) ∧
        r.finish = .error .retired ∧ r.finishRowEnergy = .error .retired) ∧
    (∀ (values : List ℤ) rows cols c,Statistics values rows cols c →
      Certifies c (entry values cols)) ∧
    (∀ (c : MatrixCertificate) w operator,Certifies c w → c.operatorSquared = .ok operator →
      ∀ x : ℕ → ℤ,∑ i ∈ range c.rows,(∑ j ∈ range c.columns,w i j*x j)^2 ≤
        operator*∑ j ∈ range c.columns,x j^2) ∧
    (∀ (c : MatrixCertificate) w input shift units bound,Certifies c w →
      linearEnergy input c shift units = .ok bound →
      ∀ x y : ℕ → ℤ,∑ j ∈ range c.columns,x j^2 ≤ input →
      (∀ i < c.rows,Rounds shift units (∑ j ∈ range c.columns,w i j*x j) (y i)) →
      ∑ i ∈ range c.rows,y i^2 ≤ bound) ∧
    (∀ raw coords shift units bound, rescaledEnergy raw coords shift units = .ok bound →
      ∀ x y : ℕ → ℤ,∑ i ∈ range coords,x i^2 ≤ raw →
      (∀ i < coords,Rounds shift units (x i) (y i)) → ∑ i ∈ range coords,y i^2 ≤ bound) ∧
    (∀ input (cos sin : List ℤ) shift units bound,
      rotaryEnergy input cos sin shift units = .ok bound →
      ∀ x y : ℕ → ℤ,∑ i ∈ range (2*cos.length),x i^2 ≤ input →
      (∀ j < cos.length, Rounds shift units (cos.getD j 0*x j-sin.getD j 0*x (cos.length+j)) (y j) ∧
        Rounds shift units (cos.getD j 0*x (cos.length+j)+sin.getD j 0*x j) (y (cos.length+j))) →
      ∑ i ∈ range (2*cos.length),y i^2 ≤ bound) ∧
    (∀ left right bound,sumEnergy left right = .ok bound → ∀ (s : Finset ℕ)
      (a b : ℕ → ℤ),∑ i∈s,a i^2 ≤ left → ∑ i ∈ s,b i^2 ≤ right → ∑ i ∈ s,(a i+b i)^2 ≤ bound) ∧
    ∀ left right radius,dotRadius left right = .ok radius →
      ∀ (s : Finset ℕ) (a b : ℕ → ℤ),∑ i∈s,a i^2 ≤ left → ∑ i ∈ s,b i^2 ≤ right →
      |∑ i∈s,a i*b i| ≤ radius := by
  refine ⟨?_,?_,fun s c e calls h => retired_for_good h calls,fun _ _ _ _ s => s.certifies, fun c w
    operator certifies h x => operatorSquared_sound h certifies x, fun c w input shift units bound
    certifies h x y => linearEnergy_sound h certifies, fun raw coords shift units bound h x y
    => rescaledEnergy_sound h, fun input cos sin shift units bound h x y => rotaryEnergy_sound h,
    fun left right bound h s a b => sumEnergy_sound h, fun left right radius h s a b =>
    dotRadius_sound h⟩
  · intro stateBytes granted rows cols limit s h
    obtain ⟨shaped,p,rfl,full,start⟩ := new_exact h
    refine ⟨fun calls c finished => ?_,fun chunks filled length =>
      finish_chunked start full shaped filled length⟩
    obtain ⟨length,statistics,-⟩ := finish_statistics start full shaped finished
    exact ⟨length,statistics⟩
  · intro stateBytes rows cols limit s h
    obtain ⟨sized,p,rfl,none,start⟩ := newRowEnergy_exact h
    refine ⟨fun calls c finished => ?_,fun chunks filled length =>
      finishRowEnergy_chunked start none sized filled length⟩
    obtain ⟨length,eq,-⟩ := finishRowEnergy_exact start finished
    exact ⟨length,eq⟩

/-- A matrix that is scanned in two chunks, the second over the end of a row. -/
theorem integer_bounds_small : ∃ s c,MatrixScan.new 64 true 2 2 1000 = .ok s ∧
    (s.run (chunked 0 [[1],[-2,3,4]])).finish = .ok c ∧ c.frobeniusSquared=30 ∧
    c.maximumRowL1=7 ∧ c.operatorSquared = .ok 30 ∧ ∀ x : ℕ → ℤ,∑ i ∈ range c.rows,(∑
    j ∈ range c.columns,entry [1,-2,3,4] 2 i j*x j)^2 ≤ (30:ℕ)*∑ j ∈ range c.columns,x j^2 := by
  obtain ⟨scans,-,-,certifies,operator,-⟩ := integer_bounds
  obtain ⟨certificates,finishes⟩ := scans 64 true 2 2 1000
    (.start 2 2 (List.replicate 2 0)) rfl
  obtain ⟨c,finished⟩ := (finishes [[1],[-2,3,4]] (by decide) rfl).mpr (by decide)
  obtain ⟨-,statistics⟩ := certificates _ c finished
  have sound : Certifies c (entry [1,-2,3,4] 2) := certifies _ _ _ _ statistics
  have radius : c.operatorSquared = .ok 30 := by
    rw [MatrixCertificate.operatorSquared,statistics.rows_eq,statistics.columns_eq,
      statistics.maximumRowL1,statistics.maximumColumnL1, statistics.frobeniusSquared]
    rfl
  exact ⟨_,c,rfl,finished,statistics.frobeniusSquared,statistics.maximumRowL1,radius,
    operator c _ 30 sound radius⟩

end

end Pllm.Bounds
