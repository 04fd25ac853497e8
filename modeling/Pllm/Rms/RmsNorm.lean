import Pllm.Common.Slices
import Pllm.Lib.Except
import Pllm.Lib.Rounding

/-! The integer RMS normalisation with ten fraction bits: a reciprocal square root found by a
binary search of fixed length, and the rounded products with it. -/
namespace Pllm.Rms
open Pllm.Lib List

inductive RmsNormQ10Error
  | emptyInput
  | emptyWeight
  | widthTooLarge (width maximum : ℕ)
  | lengthMismatch (input width : ℕ)
  | sumSquaresOutOfRange
  | arithmeticOverflow
  | allocationFailed
  deriving DecidableEq

def reciprocalScale : ℕ := 2^30

def epsilonDenominator : ℕ := 1000000

def maxWidth : ℕ := 8192

def checkedU64 (n : ℕ) : Except RmsNormQ10Error ℕ :=
  if n<2^64 then .ok n else .error .arithmeticOverflow

def checkedI64 (n : ℤ) : Except RmsNormQ10Error ℤ :=
  if -2^63 ≤ n ∧ n<2^63 then .ok n else .error .arithmeticOverflow

/-- Unchecked `u128` arithmetic. -/
def wrapU128 (n : ℕ) : ℕ := n%2^128

/-- The source rounds with this floor division in `i128`. -/
def divRoundTiesEven (numerator denominator : ℤ) : ℤ := roundQuotient numerator denominator

def validateQ10Width (width : ℕ) : Except RmsNormQ10Error Unit :=
  if width=0 then .error .emptyWeight
  else if width>maxWidth then .error (.widthTooLarge width maxWidth)
  else .ok ()

/-- The rounds of the binary search between `low` and `high`. -/
def searchRoot (statistic target : ℕ) : ℕ → ℕ × ℕ → ℕ × ℕ
  | 0, bounds => bounds
  | rounds+1, (low,high) =>
    let midpoint := (low+high+1)/2
    let product := wrapU128 (wrapU128 (midpoint*midpoint)*statistic)
    searchRoot statistic target rounds
      (if product ≤ target then (midpoint,high) else (low,midpoint-1))

def rmsNormalizerQ30 (sumSquares width : ℕ) : Except RmsNormQ10Error ℕ := do
  validateQ10Width width
  let maximumSum ← checkedU64 (width*2^30)
  if sumSquares>maximumSum then .error .sumSquaresOutOfRange
  else do
    let scaled ← checkedU64 (sumSquares*epsilonDenominator)
    let statistic ← checkedU64 (scaled+width*2^20)
    let numerator ← checkedU64 (width*epsilonDenominator)
    let target := wrapU128 (numerator*2^60)
    let low := (searchRoot statistic target 31 (0,reciprocalScale)).1
    let midpointLeft := wrapU128 (wrapU128 ((low*2+1)*(low*2+1))*statistic)
    let midpointRight := wrapU128 (target*4)
    let rounded :=
      if midpointLeft < midpointRight then low+1
      else if midpointLeft>midpointRight then low
      else if low%2=0 then low else low+1
    if rounded<2^32 then .ok rounded else .error .arithmeticOverflow

def addSquare (sum : ℕ) (value : BitVec 16) : Except RmsNormQ10Error ℕ :=
  let square := value.toInt*value.toInt
  if square<0 then .error .arithmeticOverflow else checkedU64 (sum+square.toNat)

def normalize (reciprocal : ℕ) (pair : BitVec 16 × BitVec 16) : Except RmsNormQ10Error ℤ := do
  let weighted ← checkedI64 (pair.1.toInt*pair.2.toInt)
  let product ← checkedI64 (weighted*reciprocal)
  let rounded := divRoundTiesEven product (2^30)
  if -2^31 ≤ rounded ∧ rounded<2^31 then .ok rounded else .error .arithmeticOverflow

def normRow (weight row : List (BitVec 16)) : Except RmsNormQ10Error (List ℤ) := do
  let sumSquares ← row.foldlM addSquare 0
  let reciprocal ← rmsNormalizerQ30 sumSquares weight.length
  (row.zip weight).mapM (normalize reciprocal)

/-- `granted` tells whether the output can be allocated. -/
def rmsNormQ10Direct (granted : Bool) (input weight : List (BitVec 16)) :
    Except RmsNormQ10Error (List ℤ) :=
  if input=[] then .error .emptyInput
  else do
    validateQ10Width weight.length
    if input.length%weight.length≠0 then
      .error (.lengthMismatch input.length weight.length)
    else if ¬granted then .error .allocationFailed
    else do
      let rows ← (chunksExact weight.length input).mapM (normRow weight)
      return rows.flatten

/-- The sum of squares of a row. -/
def sumSquares (row : List (BitVec 16)) : ℕ := (row.map fun x => x.toInt.natAbs^2).sum

section
-- several imports offer an instance for the numeral below: this one fixes its term
local instance atLeastTwo : Nat.AtLeastTwo 2 := ⟨le_rfl⟩

/-- The real normaliser of a row with a sum of squares. -/
noncomputable def normaliser (sum width : ℕ) : ℝ :=
  √((width*10^6:ℝ)/(10^6*sum+width*2^20))

end

variable {n width sum : ℕ}

section
variable {statistic target : ℕ}

/-- The root stays between the two bounds. -/
def Brackets (statistic target : ℕ) (bounds : ℕ × ℕ) : Prop :=
  bounds.1≤bounds.2 ∧ bounds.2≤2^30 ∧ bounds.1^2*statistic≤target ∧
    target<(bounds.2+1)^2*statistic

lemma wrapU128_of_lt (h : n<2^128) : wrapU128 n = n := Nat.mod_eq_of_lt h

lemma wrap_square {m : ℕ} (small : statistic<2^64) (hm : m<2^32) :
    wrapU128 (wrapU128 (m*m)*statistic)=m^2*statistic := by
  have square : m*m<2^64 := by nlinarith
  have inner : wrapU128 (m*m)=m*m := wrapU128_of_lt (square.trans (by norm_num))
  have product : m*m*statistic<2^64*2^64 := Nat.mul_lt_mul'' square small
  rw [inner,wrapU128_of_lt product,sq]

lemma Brackets.step {low high : ℕ} (h : Brackets statistic target (low,high))
    (small : statistic<2^64) (gap : high-low<2^(n+1)) :
    let midpoint := (low+high+1)/2
    let product := wrapU128 (wrapU128 (midpoint*midpoint)*statistic)
    let next := if product≤target then (midpoint,high) else (low,midpoint-1)
    Brackets statistic target next ∧ next.2-next.1<2^n := by
  intro midpoint product next
  obtain ⟨ordered,bounded,below,above⟩ := h
  have hmid : low ≤ midpoint ∧ midpoint≤high ∧ 2*midpoint≤low+high+1 ∧ low+high≤2*midpoint := by
    omega
  have hprd : product=midpoint^2*statistic :=
    wrap_square small (lt_of_le_of_lt (hmid.2.1.trans bounded) (by norm_num))
  by_cases hle : product≤target
  · simp only [next,if_pos hle]
    refine ⟨⟨hmid.2.1,bounded,hprd ▸ hle,above⟩,?_⟩
    omega
  · simp only [next,if_neg hle]
    have hlow : low < midpoint := by
      refine lt_of_le_of_ne hmid.1 fun he => hle ?_
      rw [hprd,← he]
      exact below
    refine ⟨⟨by dsimp only; omega,by dsimp only; omega,below,?_⟩,by omega⟩
    rw [Nat.sub_add_cancel (by omega),← hprd]
    exact not_le.mp hle

lemma searchRoot_spec (small : statistic<2^64) (rounds : ℕ) {bounds : ℕ × ℕ}
    (h : Brackets statistic target bounds) (gap : bounds.2-bounds.1<2^rounds) :
    let root := (searchRoot statistic target rounds bounds).1
    root ≤ 2^30 ∧ root^2*statistic≤target ∧ target<(root+1)^2*statistic := by
  induction rounds generalizing bounds with
  | zero =>
    obtain ⟨ordered,bounded,below,above⟩ := h
    have meet : bounds.2=bounds.1 := by
      omega
    rw [meet] at above bounded
    exact ⟨bounded,below,above⟩
  | succ rounds ih =>
    obtain ⟨next,narrower⟩ := Brackets.step h small gap
    exact ih next narrower

end

lemma checkedU64_of_lt (h : n<2^64) : checkedU64 n = .ok n := if_pos h

lemma checkedI64_of_abs {n : ℤ} (h : |n| < 2^63) : checkedI64 n = .ok n := by
  have := abs_lt.mp h
  exact if_pos (by omega)

section
variable (hw : 1≤width ∧ width≤8192)
include hw

lemma validateQ10Width_of_mem : validateQ10Width width = .ok () := by
  rw [validateQ10Width,if_neg (by omega),if_neg (by rw [maxWidth]; omega)]

lemma maximumSum_lt : width*2^30<2^64 := by
  omega

lemma rmsNormalizerQ30_spec (hsum : sum≤width*2^30) : ∃ q, rmsNormalizerQ30 sum width = .ok q ∧
    q≤2^30+1 ∧ IsNearestEven q (2^30*normaliser sum width) := by
  have hwide : 4*(width*epsilonDenominator*2^60)<2^128 := by
    rw [epsilonDenominator]
    omega
  have hsca : sum*epsilonDenominator<2^64 := by
    rw [epsilonDenominator]
    omega
  have hstat : sum*epsilonDenominator+width*2^20<2^64 := by
    rw [epsilonDenominator]
    omega
  have hnum : width*epsilonDenominator<2^64 := by
    rw [epsilonDenominator]
    omega
  generalize hsta : sum*epsilonDenominator+width*2^20=statistic at hstat
  have htar : wrapU128 (width*epsilonDenominator*2^60)=width*epsilonDenominator*2^60 :=
    wrapU128_of_lt (lt_of_le_of_lt (Nat.le_mul_of_pos_left _ four_pos) hwide)
  have hpos : 0 < statistic := by omega
  have start : Brackets statistic (width*epsilonDenominator*2^60) (0,reciprocalScale) := by
    refine ⟨zero_le,le_refl _,by simp,?_⟩
    have : width*2^20 ≤ statistic := by omega
    calc width*epsilonDenominator*2^60 < (2^30+1)^2*(width*2^20) := by
          rw [epsilonDenominator]
          omega
      _ ≤ (2^30+1)^2*statistic := Nat.mul_le_mul_left _ this
  obtain ⟨hroot,low,high⟩ := searchRoot_spec hstat 31 start (by norm_num [reciprocalScale])
  generalize hfou : (searchRoot statistic (width*epsilonDenominator*2^60) 31
    (0,reciprocalScale)).1 = root at hroot low high
  have hleft : wrapU128 (wrapU128 ((root*2+1)*(root*2+1))*statistic)=(2*root+1)^2*statistic := by
    rw [wrap_square hstat (by omega),mul_comm root]
  have hrt : wrapU128 (width*epsilonDenominator*2^60*4)=4*(width*epsilonDenominator*2^60) := by
    rw [mul_comm _ 4]
    exact wrapU128_of_lt hwide
  have hrou : roundRoot root (width*epsilonDenominator*2^60) statistic ≤ root+1 := by
    unfold roundRoot
    split_ifs <;> omega
  refine ⟨roundRoot root (width*epsilonDenominator*2^60) statistic,?_,by omega,?_⟩
  · rw [rmsNormalizerQ30,validateQ10Width_of_mem hw,ok_bind,
      checkedU64_of_lt (maximumSum_lt hw),ok_bind,if_neg (not_lt.mpr hsum),checkedU64_of_lt hsca,
      ok_bind,hsta,checkedU64_of_lt hstat,ok_bind,checkedU64_of_lt hnum,ok_bind,htar]
    simp only [hfou,hleft,hrt]
    exact if_pos (lt_of_le_of_lt hrou (by omega))
  · have nearest := isNearestEven_roundRoot hpos low high
    have value : √(((width*epsilonDenominator*2^60:ℕ):ℝ)/statistic)=2^30*normaliser sum width := by
      have scale : (((width*epsilonDenominator*2^60:ℕ):ℝ)/statistic) =
          (2^30)^2*((width*10^6:ℝ)/(10^6*sum+width*2^20)) := by
        rw [← hsta,epsilonDenominator]
        push_cast
        ring
      rw [scale,Real.sqrt_mul (by positivity),Real.sqrt_sq (by positivity),normaliser]
    rwa [value] at nearest

end

lemma natAbs_toInt_le (x : BitVec 16) : x.toInt.natAbs≤2^15 := by
  have := x.two_mul_toInt_le
  have := x.le_two_mul_toInt
  omega

lemma square_le (x : BitVec 16) : x.toInt.natAbs^2≤2^30 :=
  (Nat.pow_le_pow_left (natAbs_toInt_le x) 2).trans (by norm_num)

lemma sumSquares_le (row : List (BitVec 16)) : sumSquares row ≤ row.length*2^30 := by
  have h := sum_le_card_nsmul (row.map fun x => x.toInt.natAbs^2) (2^30) fun n hn => by
    obtain ⟨x,-,rfl⟩ := mem_map.mp hn
    exact square_le x
  rwa [length_map] at h

lemma foldlM_addSquare (row : List (BitVec 16)) (h : sum+row.length*2^30<2^64) :
    row.foldlM addSquare sum = .ok (sum+sumSquares row) := by
  induction row generalizing sum with
  | nil => rfl
  | cons x row ih =>
    have square : x.toInt*x.toInt=(x.toInt.natAbs^2:ℕ) := by
      rw [Nat.cast_pow,Int.natAbs_sq,sq]
    have small := square_le x
    rw [length_cons] at h
    have step : addSquare sum x = .ok (sum+x.toInt.natAbs^2) := by
      rw [addSquare]
      simp only [square]
      rw [if_neg (not_lt.mpr (Int.natCast_nonneg _)),Int.toNat_natCast,checkedU64_of_lt (by omega)]
    rw [foldlM_cons,step,ok_bind,ih (by omega),sumSquares,sumSquares,map_cons,
      sum_cons,add_assoc]

lemma abs_weighted_le (x w : BitVec 16) : |x.toInt*w.toInt| ≤ 2^30 := by
  rw [abs_mul,Int.abs_eq_natAbs,Int.abs_eq_natAbs]
  have hx := natAbs_toInt_le x
  have hw := natAbs_toInt_le w
  calc (x.toInt.natAbs*w.toInt.natAbs:ℤ)≤2^15*2^15 := by
        exact_mod_cast mul_le_mul' hx hw
    _ = 2^30 := by norm_num

/-- The rounded product differs from the real one by the half unit of this rounding and, through a
factor below `2^30`, by at most the half unit of the reciprocal. -/
lemma abs_rounded_sub_le {product q : ℤ} {r : ℝ} (bounded : |product| ≤ 2^30)
    (nearest : IsNearestEven q (2^30*r)) :
    |(divRoundTiesEven (product*q) (2^30):ℝ)-product*r| ≤ 1 := by
  have outer := (isNearestEven_roundQuotient (product*q) (by norm_num : (0:ℤ)<2^30)).1
  rw [Int.cast_mul,Int.cast_pow] at outer
  have inner : |(product:ℝ)*q/2^30-product*r| ≤ 1/2 := by
    have factor : (product:ℝ)*q/2^30-product*r=(product/2^30)*(q-2^30*r) := by
      field_simp
    have small : |(product:ℝ)/2^30| ≤ 1 := by
      rw [abs_div,div_le_one (by positivity)]
      exact_mod_cast bounded
    rw [factor,abs_mul]
    calc |(product:ℝ)/2^30| * |(q:ℝ)-2^30*r| ≤ 1*(1/2) :=
          mul_le_mul small ((abs_sub_comm _ _).trans_le nearest.1) (abs_nonneg _) zero_le_one
      _ = 1/2 := one_mul _
  rw [abs_sub_comm] at outer
  calc |(divRoundTiesEven (product*q) (2^30):ℝ)-product*r|
      ≤ |(divRoundTiesEven (product*q) (2^30):ℝ)-product*q/2^30|+
        |(product:ℝ)*q/2^30-product*r| := abs_sub_le _ _ _
    _ ≤ 1/2+1/2 := add_le_add outer inner
    _ = 1 := by norm_num

lemma normalize_eq {q : ℕ} (bounded : q≤2^30+1) (x w : BitVec 16) :
    normalize q (x,w) = .ok (divRoundTiesEven (x.toInt*w.toInt*q) (2^30)) := by
  have hp := abs_weighted_le x w
  have hprd : |x.toInt*w.toInt*q| ≤ 2^30*(2^30+1) := by
    rw [abs_mul,Nat.abs_cast]
    exact mul_le_mul hp (by exact_mod_cast bounded) (Int.natCast_nonneg _) (by norm_num)
  have hquo : -2^31 ≤ divRoundTiesEven (x.toInt*w.toInt*q) (2^30) ∧
      divRoundTiesEven (x.toInt*w.toInt*q) (2^30)<2^31 := by
    have := abs_le.mp hprd
    rw [divRoundTiesEven,roundQuotient]
    split_ifs <;> omega
  rw [normalize,checkedI64_of_abs (lt_of_le_of_lt hp (by norm_num)),ok_bind,
    checkedI64_of_abs (lt_of_le_of_lt hprd (by norm_num)),ok_bind]
  exact if_pos hquo

/-- What one row yields, from its normaliser. -/
lemma normRow_eq {weight row : List (BitVec 16)} (hw : 1≤weight.length ∧ weight.length≤8192)
    (same : row.length=weight.length) : ∃ q : ℕ, rmsNormalizerQ30 (sumSquares row) weight.length =
    .ok q ∧ IsNearestEven q (2^30*normaliser (sumSquares row) weight.length) ∧ normRow weight row =
    .ok (zipWith (fun x w => divRoundTiesEven (x.toInt*w.toInt*q) (2^30)) row weight) := by
  obtain ⟨q,found,bounded,nearest⟩ := rmsNormalizerQ30_spec hw (same ▸ sumSquares_le row)
  refine ⟨q,found,nearest,?_⟩
  rw [normRow,foldlM_addSquare row (by rw [same]; omega),ok_bind,zero_add,found,ok_bind,
    mapM_ok (row.zip weight) fun pair _ => normalize_eq bounded pair.1 pair.2]
  simp only [zip_eq_zipWith,map_zipWith]

lemma getD_flatten_row {α : Type*} {d : α} {rows : List (List α)} (h : ∀ row∈rows,row.length=n) {r
    c : ℕ} (hc : c<n) : rows.flatten.getD (n*r+c) d = (rows.getD r []).getD c d := by
  induction rows generalizing r with
  | nil => simp
  | cons row rows ih =>
    have here := h row mem_cons_self
    rw [flatten_cons]
    cases r with
    | zero => rw [mul_zero,zero_add,getD_append _ _ _ _ (here ▸ hc)]; rfl
    | succ r =>
      rw [getD_append_right _ _ _ _ (by rw [here,Nat.mul_succ]; omega),here,
        show n*(r+1)+c-n=n*r+c by rw [Nat.mul_succ]; omega,
        ih fun row m => h row (mem_cons_of_mem _ m)]
      rfl

lemma length_slice_row {input : List (BitVec 16)} {n r : ℕ} (hr : r < input.length/n) :
    (slice input (n*r) n).length = n := by
  have h : n*(r+1) ≤ input.length :=
    (Nat.mul_le_mul_left n hr).trans (Nat.mul_div_le input.length n)
  exact length_slice h

/-- Every admitted batch is normalised without overflow and to within one unit. -/
lemma rmsNormQ10Direct_ok {input weight : List (BitVec 16)} (hw : 1≤weight.length ∧
    weight.length≤8192) (nonempty : input ≠ []) (divides : weight.length ∣ input.length) :
    ∃ output,rmsNormQ10Direct true input weight = .ok output ∧ output.length=input.length ∧
      ∀ r < input.length/weight.length,∀ c<weight.length,
        |(output.getD (weight.length*r+c) 0:ℝ)-(input.getD (weight.length*r+c) 0).toInt*
          (weight.getD c 0).toInt*normaliser (sumSquares (slice input (weight.length*r)
            weight.length)) weight.length| ≤ 1 := by
  have spec : ∀ r,∃ q : ℕ,r < input.length/weight.length →
      IsNearestEven q (2^30*normaliser (sumSquares (slice input (weight.length*r) weight.length))
        weight.length) ∧
      normRow weight (slice input (weight.length*r) weight.length) = .ok (zipWith
        (fun x w => divRoundTiesEven (x.toInt*w.toInt*q) (2^30))
        (slice input (weight.length*r) weight.length) weight) := by
    intro r
    by_cases hr : r < input.length/weight.length
    · obtain ⟨q,-,nearest,run⟩ := normRow_eq hw (length_slice_row hr)
      exact ⟨q,fun _ => ⟨nearest,run⟩⟩
    · exact ⟨0,fun h => absurd h hr⟩
  choose q hq using spec
  let rows := (range (input.length/weight.length)).map fun r => zipWith (fun x w => divRoundTiesEven
    (x.toInt*w.toInt*q r) (2^30)) (slice input (weight.length*r) weight.length) weight
  have lengths : ∀ row∈rows,row.length=weight.length := by
    intro row m
    obtain ⟨r,hr,rfl⟩ := mem_map.mp m
    rw [length_zipWith,length_slice_row (mem_range.mp hr),min_self]
  refine ⟨rows.flatten,?_,?_,?_⟩
  · have runs : (chunksExact weight.length input).mapM (normRow weight) = .ok rows := by
      rw [chunksExact,mapM_map]
      exact mapM_ok _ fun r hr => (hq r (mem_range.mp hr)).2
    rw [rmsNormQ10Direct,if_neg nonempty,validateQ10Width_of_mem hw,ok_bind,
      if_neg (not_not.mpr (Nat.mod_eq_zero_of_dvd divides)),if_neg (by simp),runs]
    rfl
  · rw [length_flatten,map_congr_left lengths,map_const',sum_replicate,
      length_map,length_range,smul_eq_mul,Nat.div_mul_cancel divides]
  · intro r hr c hc
    have inside := length_slice_row hr
    rw [getD_flatten_row lengths hc]
    have row : rows.getD r []=zipWith (fun x w => divRoundTiesEven (x.toInt*w.toInt*q r) (2^30))
        (slice input (weight.length*r) weight.length) weight := by
      simp [rows,hr]
    have entry : (input.getD (weight.length*r+c) 0) =
        (slice input (weight.length*r) weight.length).getD c 0 := by
      simp [slice,hc,getElem?_drop]
    have hx : c < (slice input (weight.length*r) weight.length).length := inside.symm ▸ hc
    rw [row,entry,getD_eq_getElem _ _ (by rw [length_zipWith,inside]; omega),
      getElem_zipWith,getD_eq_getElem _ _ hx,getD_eq_getElem _ _ hc]
    have close := abs_rounded_sub_le (abs_weighted_le
      ((slice input (weight.length*r) weight.length)[c]) weight[c]) (hq r hr).1
    rw [Int.cast_mul] at close
    exact close

/-- The normalisation within its domain: no operation overflows, the reciprocal is the nearest one
and every output is within one unit. -/
theorem rms_norm_q10 :
    (∀ weight input : List (BitVec 16),1≤weight.length ∧ weight.length≤8192 → input ≠ [] →
      weight.length ∣ input.length →
      ∃ output,rmsNormQ10Direct true input weight = .ok output ∧ output.length=input.length ∧
        ∀ r < input.length/weight.length,∀ c<weight.length,
          |(output.getD (weight.length*r+c) 0:ℝ)-(input.getD (weight.length*r+c) 0).toInt*
            (weight.getD c 0).toInt*normaliser (sumSquares (slice input (weight.length*r)
              weight.length)) weight.length| ≤ 1) ∧
    ∀ width sum,1≤width ∧ width≤8192 → sum≤width*2^30 →
      ∃ q : ℕ,rmsNormalizerQ30 sum width = .ok q ∧
        IsNearestEven q (2^30*√((width*10^6:ℝ)/(10^6*sum+width*2^20))) :=
  ⟨fun _ _ hw nonempty divides => rmsNormQ10Direct_ok hw nonempty divides,fun _ _ hw hsum =>
    have ⟨q,found,_,nearest⟩ := rmsNormalizerQ30_spec hw hsum
    ⟨q,found,nearest⟩⟩

/-- No rows at all are refused, although their length is a multiple of every width. -/
theorem no_rows : (1 ≤ [(1024:BitVec 16)].length ∧ [(1024:BitVec 16)].length ≤ 8192) ∧
    [(1024:BitVec 16)].length ∣ ([]:List (BitVec 16)).length ∧
    rmsNormQ10Direct true [] [1024] = .error .emptyInput := by
  decide

end Pllm.Rms
