import Mathlib.Tactic.Ring
import Mathlib.Tactic.Linarith

/-! Truncation of a masked value. A value below half the modulus is opened under a mask; the top
halves of the opening and of the mask tell whether the masked sum reached the upper half. -/
namespace Pllm.Lib.Truncation

open Nat Int

/-- The unreduced sum of a value below `half` and the lower part of its mask. -/
lemma lift_opening {half x r : ℕ} (hx : x<half) (hr : r<2*half) :
    (if (x+r)%(2*half)/half = r/half then 0 else half)+(x+r)%(2*half)%half = x+r%half := by
  have hh : 0<half := by omega
  have hm : (x+r)%(2*half)%half=(x+r)%half := mod_mod_of_dvd _ (Dvd.intro_left 2 rfl)
  have hq : (x+r)%half+half*((x+r)/half)=x+r := mod_add_div ..
  have hrq : r%half+half*(r/half)=r := mod_add_div ..
  have hrl := mod_lt r hh
  have htop : (x+r)%(2*half)/half=(x+r)/half%2 := by
    rw [mul_comm,mod_mul_right_div_self]
  have hr1 : r/half<2 := Nat.div_lt_of_lt_mul (by linarith)
  have hstep : (x+r)/half=r/half ∨ (x+r)/half=r/half+1 := by
    have h1 : r/half≤(x+r)/half := Nat.div_le_div_right (by omega)
    have h2 : (x+r)/half ≤ r/half+1 := by
      apply le_of_lt_succ
      apply Nat.div_lt_of_lt_mul
      have : half*(r/half+1).succ=half*(r/half)+2*half := by
        rw [succ_eq_add_one]
        ring
      omega
    omega
  rw [htop]
  rcases hstep with h | h
  · have hmod : r/half%2=r/half := mod_eq_of_lt hr1
    rw [h] at hq ⊢
    rw [if_pos hmod]
    omega
  · have hne : (r/half+1)%2≠r/half := by omega
    rw [h] at hq ⊢
    rw [if_neg hne]
    have : half*(r/half+1)=half*(r/half)+half := by ring
    omega

/-- The same sum, divided by a unit of which the half is a multiple. -/
lemma lift_opening_div {half unit q x r : ℕ} (hq : half=unit*q) (hx : x<half) (hr : r<2*half) :
    (if (x+r)%(2*half)/half = r/half then 0 else q)+(x+r)%(2*half)%half/unit = (x+r%half)/unit := by
  have hu : 0 < unit := pos_of_ne_zero fun h => by simp [h] at hq; omega
  rw [←lift_opening hx hr]
  split
  · rw [zero_add,zero_add]
  · conv_rhs => rw [hq]
    rw [mul_add_div hu,←hq]

/-- Truncating value and mask apart loses at most the carry out of the low part. -/
lemma ediv_sub_ediv (x r : ℤ) {unit : ℤ} (hu : 0 < unit) :
    (x+r)/unit-r/unit=x/unit ∨ (x+r)/unit-r/unit=x/unit+1 := by
  have hx := mul_ediv_add_emod x unit
  have hr := mul_ediv_add_emod r unit
  have hxl := emod_lt_of_pos x hu
  have hrl := emod_lt_of_pos r hu
  have hx0 := emod_nonneg x hu.ne'
  have hr0 := emod_nonneg r hu.ne'
  have hs : x+r=(x%unit+r%unit)+unit*(x/unit+r/unit) := by
    rw [mul_add]
    omega
  rw [hs,add_mul_ediv_left _ _ hu.ne']
  have hc : (x%unit+r%unit)/unit=0 ∨ (x%unit+r%unit)/unit=1 := by
    have h0 : 0≤(x%unit+r%unit)/unit := ediv_nonneg (by omega) hu.le
    have h1 : (x%unit+r%unit)/unit<2 := Int.ediv_lt_of_lt_mul hu (by omega)
    omega
  omega

/-- A multiple of the unit is truncated exactly. -/
lemma ediv_sub_ediv_of_dvd {x unit : ℤ} (r : ℤ) (hu : 0 < unit) (hd : unit ∣ x) :
    (x+r)/unit-r/unit=x/unit := by
  obtain ⟨q,rfl⟩ := hd
  rw [add_comm,add_mul_ediv_left _ _ hu.ne',mul_ediv_cancel_left _ hu.ne']
  omega

end Pllm.Lib.Truncation
