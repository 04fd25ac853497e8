import Mathlib.Analysis.Real.Sqrt

/-! Rounding to the nearest integer with ties to even, of quotients and of square roots. -/
namespace Pllm.Lib
open Int

/-- No integer is nearer, and of two that are equally near this is the even one. -/
def IsNearestEven (q : ℤ) (x : ℝ) : Prop := |x-q| ≤ 1/2 ∧ (|x-q| = 1/2 → Even q)

namespace IsNearestEven
variable {q q' : ℤ} {x : ℝ}

lemma le_of_le (h : IsNearestEven q x) (h' : IsNearestEven q' x) : q≤q' := by
  by_contra hlt
  push Not at hlt
  have h₁ := abs_le.mp h.1
  have h₂ := abs_le.mp h'.1
  have hle : (q:ℝ)≤q'+1 := by linarith
  have heq : q=q'+1 := by
    have := cast_le (R := ℝ) (m := q) (n := q'+1) |>.mp (by push_cast; exact hle)
    omega
  subst heq
  push_cast at h₁ h₂
  have hx : x=q'+1/2 := by linarith
  have even : Even q' := h'.2 (by rw [hx,add_sub_cancel_left,abs_of_pos (by norm_num)])
  have even' : Even (q'+1) := h.2 (by
    rw [hx]
    push_cast
    rw [show (q':ℝ)+1/2-(q'+1) = -(1/2) by ring,abs_neg,abs_of_pos (by norm_num)])
  exact (Int.even_add_one.mp even') even

/-- The rounded value is determined. -/
lemma unique (h : IsNearestEven q x) (h' : IsNearestEven q' x) : q=q' :=
  le_antisymm (h.le_of_le h') (h'.le_of_le h)

lemma neg (h : IsNearestEven q x) : IsNearestEven (-q) (-x) := by
  have same : |-x-(-q:ℤ)| = |x-q| := by
    push_cast
    rw [← abs_neg]
    ring_nf
  rw [IsNearestEven,same]
  exact ⟨h.1,fun tie => (h.2 tie).neg⟩

lemma of_floor (r : ℤ) (low : (r:ℝ)≤x) (high : x ≤ r+1)
    (below : x < r+1/2 → q=r) (above : r+1/2<x → q=r+1)
    (tie : x=r+1/2 → q = if Even r then r else r+1) : IsNearestEven q x := by
  rcases lt_trichotomy x (r+1/2) with h | h | h
  · obtain rfl := below h
    have hd : |x-q| < 1/2 := abs_lt.mpr ⟨by linarith,by linarith⟩
    exact ⟨hd.le,fun he => absurd he hd.ne⟩
  · have he := tie h
    split_ifs at he with even
    · subst he
      refine ⟨?_,fun _ => even⟩
      rw [h,add_sub_cancel_left,abs_of_pos (by norm_num)]
    · subst he
      refine ⟨?_,fun _ => (not_even_iff_odd.mp even).add_one⟩
      rw [h]
      push_cast
      rw [show (r:ℝ)+1/2-(r+1) = -(1/2) by ring,abs_neg,abs_of_pos (by norm_num)]
  · obtain rfl := above h
    have hd : |x-(r+1)| < 1/2 := abs_lt.mpr ⟨by linarith,by linarith⟩
    rw [IsNearestEven]
    push_cast
    exact ⟨hd.le,fun he => absurd he hd.ne⟩

end IsNearestEven

/-- The quotient of floor division, moved up past the half and at the half when it is odd. -/
def roundQuotient (n d : ℤ) : ℤ :=
  if n%d<d-n%d then n/d
  else if n%d>d-n%d then n/d+1
  else if n/d%2=0 then n/d else n/d+1

lemma isNearestEven_roundQuotient (n : ℤ) {d : ℤ} (hd : 0<d) :
    IsNearestEven (roundQuotient n d) ((n:ℝ)/d) := by
  have hd' : (0:ℝ)<d := by exact_mod_cast hd
  have split : (n:ℝ)=d*(n/d:ℤ)+(n%d:ℤ) := by exact_mod_cast (mul_ediv_add_emod n d).symm
  have pos : (0:ℝ)≤(n%d:ℤ) := by exact_mod_cast emod_nonneg n hd.ne'
  have lt : ((n%d:ℤ):ℝ)<d := by exact_mod_cast emod_lt_of_pos n hd
  have value : (n:ℝ)/d=(n/d:ℤ)+(n%d:ℤ)/d := by
    rw [split]
    field_simp
  have below : (n:ℝ)/d<(n/d:ℤ)+1/2 ↔ 2*(n%d)<d := by
    rw [value,add_lt_add_iff_left,div_lt_div_iff₀ hd' two_pos,one_mul,mul_comm]
    exact_mod_cast Iff.rfl
  have above : (n/d:ℤ)+1/2<(n:ℝ)/d ↔ d<2*(n%d) := by
    rw [value,add_lt_add_iff_left,div_lt_div_iff₀ two_pos hd',one_mul,mul_comm]
    exact_mod_cast Iff.rfl
  refine IsNearestEven.of_floor (n/d) ?_ ?_ ?_ ?_ ?_
  · rw [value]
    exact le_add_of_nonneg_right (div_nonneg pos hd'.le)
  · have : ((n%d:ℤ):ℝ)/d≤1 := (div_le_one hd').mpr lt.le
    linarith
  · intro h
    rw [roundQuotient,if_pos (by have := below.mp h; omega)]
  · intro h
    have := above.mp h
    rw [roundQuotient,if_neg (by omega),if_pos (by omega)]
  · intro h
    have := mt below.mpr h.not_lt
    have := mt above.mpr h.not_gt
    rw [roundQuotient,if_neg (by omega),if_neg (by omega)]
    simp only [even_iff]

lemma roundQuotient_neg (n : ℤ) {d : ℤ} (hd : 0<d) : roundQuotient (-n) d = -roundQuotient n d := by
  refine (isNearestEven_roundQuotient (-n) hd).unique ?_
  have h := (isNearestEven_roundQuotient n hd).neg
  rwa [← neg_div,← cast_neg] at h

/-- The same rounding of a natural number. -/
def roundNat (n d : ℕ) : ℕ := n/d+(decide (d<2*(n%d) ∨ (2*(n%d)=d ∧ n/d%2=1))).toNat

lemma roundNat_le (n d : ℕ) : roundNat n d ≤ n/d+1 := Nat.add_le_add_left (Bool.toNat_le _) _

lemma two_mul_roundNat_le (n : ℕ) {d : ℕ} (hd : 2≤d) : 2*roundNat n d ≤ n+1 := by
  have split := Nat.div_add_mod n d
  have twice : 2*(n/d)≤d*(n/d) := Nat.mul_le_mul_right _ hd
  rw [roundNat]
  by_cases up : d<2*(n%d) ∨ (2*(n%d)=d ∧ n/d%2=1)
  · rw [decide_eq_true up,Bool.toNat_true]
    omega
  · rw [decide_eq_false up,Bool.toNat_false]
    omega

lemma roundQuotient_natCast (n d : ℕ) : roundQuotient n d = (roundNat n d:ℕ) := by
  rw [roundQuotient,roundNat,← natCast_div]
  by_cases up : d<2*(n%d) ∨ (2*(n%d)=d ∧ n/d%2=1)
  · rw [decide_eq_true up,Bool.toNat_true]
    split_ifs <;> omega
  · rw [decide_eq_false up,Bool.toNat_false]
    split_ifs <;> omega

/-- Rounding of an integer is rounding of its magnitude under its sign. -/
lemma roundQuotient_natAbs (z : ℤ) {d : ℕ} (hd : 0<d) :
    roundQuotient z d = if z<0 then -(roundNat z.natAbs d:ℤ) else roundNat z.natAbs d := by
  rw [← roundQuotient_natCast]
  split
  · next neg =>
    have sign : z = -(z.natAbs:ℤ) := by omega
    rw [← roundQuotient_neg _ (by exact_mod_cast hd),← sign]
  · next pos => rw [natAbs_of_nonneg (not_lt.mp pos)]

/-- The integer square root of a quotient, moved up by comparing with its half-way point. -/
def roundRoot (root numerator denominator : ℕ) : ℕ :=
  if (2*root+1)^2*denominator<4*numerator then root+1
  else if (2*root+1)^2*denominator>4*numerator then root
  else if root%2=0 then root else root+1

lemma isNearestEven_roundRoot {r N D : ℕ} (hD : 0<D) (low : r^2*D≤N)
    (high : N<(r+1)^2*D) : IsNearestEven (roundRoot r N D:ℕ) (√((N:ℝ)/D)) := by
  have hD' : (0:ℝ)<D := by exact_mod_cast hD
  have half : ((r:ℝ)+1/2) = √(((2*r+1)^2*D)/(4*D)) := by
    rw [show ((2*(r:ℝ)+1)^2*D)/(4*D)=(r+1/2)^2 by field_simp; ring,
      Real.sqrt_sq (by positivity)]
  have quad : (N:ℝ)/D=(4*N)/(4*D) := by field_simp
  have lt : √((N:ℝ)/D) < (r:ℤ)+1/2 ↔ 4*N<(2*r+1)^2*D := by
    rw [cast_natCast,half,quad,Real.sqrt_lt_sqrt_iff (by positivity),
      div_lt_div_iff_of_pos_right (by positivity)]
    exact_mod_cast Iff.rfl
  have gt : (r:ℤ)+1/2 < √((N:ℝ)/D) ↔ (2*r+1)^2*D<4*N := by
    rw [cast_natCast,half,quad,Real.sqrt_lt_sqrt_iff (by positivity),
      div_lt_div_iff_of_pos_right (by positivity)]
    exact_mod_cast Iff.rfl
  refine IsNearestEven.of_floor r ?_ ?_ ?_ ?_ ?_
  · refine Real.le_sqrt_of_sq_le ?_
    rw [le_div_iff₀ hD']
    exact_mod_cast low
  · refine Real.sqrt_le_iff.mpr ⟨by positivity,?_⟩
    rw [div_le_iff₀ hD']
    exact_mod_cast high.le
  · intro h
    have := lt.mp h
    rw [roundRoot,if_neg (by omega),if_pos (by omega)]
  · intro h
    rw [roundRoot,if_pos (gt.mp h)]
    rfl
  · intro h
    have h₁ := mt lt.mpr h.not_lt
    have h₂ := mt gt.mpr h.not_gt
    rw [roundRoot,if_neg h₂,if_neg (by omega)]
    simp only [even_coe_nat,Nat.even_iff]
    split <;> rfl

end Pllm.Lib
