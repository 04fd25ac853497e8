import Mathlib.Algebra.Order.BigOperators.Ring.Finset

/-! Energies of finite vectors, without square roots: a radius is anything whose square bounds the
energy. -/
namespace Pllm.Lib
open Finset

variable {R : Type*} [CommRing R] [LinearOrder R] [IsStrictOrderedRing R] {ι κ : Type*}

section
variable {s : Finset ι} {f g : ι → R} {a b : R} {t : Finset κ}

section
variable (ha : 0≤a) (hb : 0≤b) (hf : ∑ i ∈ s,f i^2 ≤ a^2) (hg : ∑ i ∈ s,g i^2 ≤ b^2)
include ha hb hf hg

/-- The Cauchy-Schwarz inequality in terms of radii. -/
lemma abs_sum_mul_le : |∑ i∈s,f i*g i| ≤ a*b := by
  refine abs_le_of_sq_le_sq ?_ (mul_nonneg ha hb)
  calc (∑ i∈s,f i*g i)^2 ≤ (∑ i∈s,f i^2)*∑ i∈s,g i^2 := sum_mul_sq_le_sq_mul_sq ..
    _ ≤ a^2*b^2 := mul_le_mul hf hg (sum_nonneg fun i _ => sq_nonneg _) (sq_nonneg a)
    _ = (a*b)^2 := (mul_pow a b 2).symm

/-- Radii add up. -/
lemma energy_add_le : ∑ i ∈ s,(f i+g i)^2 ≤ (a+b)^2 := by
  have cross := (abs_le.mp (abs_sum_mul_le ha hb hf hg)).2
  have expand : ∑ i ∈ s,(f i+g i)^2 = ∑ i ∈ s,f i^2+2*∑ i∈s,f i*g i+∑ i∈s,g i^2 := by
    rw [mul_sum,← sum_add_distrib,← sum_add_distrib]
    exact sum_congr rfl fun i _ => by ring
  rw [expand]
  calc ∑ i ∈ s,f i^2+2*∑ i∈s,f i*g i+∑ i∈s,g i^2 ≤ a^2+2*(a*b)+b^2 := by gcongr
    _ = (a+b)^2 := by ring

end

/-- A matrix whose rows and columns have small absolute sums. -/
lemma energy_apply_le {w : ι → κ → R} {x : κ → R} {r c : R} (hr : 0 ≤ r) (rows : ∀ i∈s,∑ j∈t,|w i j|
    ≤ r) (columns : ∀ j∈t,∑ i∈s,|w i j| ≤ c) : ∑ i ∈ s,(∑ j∈t,w i j*x j)^2 ≤ r*c*∑ j∈t,x j^2 := by
  have row (i : ι) (m : i∈s) : (∑ j∈t,w i j*x j)^2 ≤ r*∑ j∈t,|w i j| * x j^2 := by
    have nonneg : 0 ≤ ∑ j ∈ t,|w i j| * x j^2 :=
      sum_nonneg fun j _ => mul_nonneg (abs_nonneg _) (sq_nonneg _)
    refine (sum_sq_le_sum_mul_sum_of_sq_le_mul t (fun j _ => abs_nonneg (w i j))
      (fun j _ => mul_nonneg (abs_nonneg (w i j)) (sq_nonneg (x j))) fun j _ => le_of_eq ?_).trans
      (mul_le_mul_of_nonneg_right (rows i m) nonneg)
    rw [mul_pow,← mul_assoc,← sq,sq_abs]
  calc ∑ i ∈ s,(∑ j∈t,w i j*x j)^2 ≤ ∑ i ∈ s,r*∑ j∈t,|w i j| * x j^2 := sum_le_sum row
    _ = r*∑ j∈t,(∑ i∈s,|w i j|)*x j^2 := by
      rw [← mul_sum,sum_comm]
      simp only [sum_mul]
    _ ≤ r*∑ j∈t,c*x j^2 := by
      refine mul_le_mul_of_nonneg_left (sum_le_sum fun j m => ?_) hr
      exact mul_le_mul_of_nonneg_right (columns j m) (sq_nonneg _)
    _ = r*c*∑ j∈t,x j^2 := by rw [← mul_sum,mul_assoc]

/-- The energy of the whole matrix bounds what it does to a vector. -/
lemma energy_apply_le_sum (w : ι → κ → R) (x : κ → R) :
    ∑ i ∈ s,(∑ j∈t,w i j*x j)^2 ≤ (∑ i∈s,∑ j∈t,w i j^2)*∑ j∈t,x j^2 := by
  rw [sum_mul]
  exact sum_le_sum fun i _ => sum_mul_sq_le_sq_mul_sq ..

end

end Pllm.Lib
