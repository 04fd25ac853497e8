import Mathlib

/-! The tree of the binary prefixes of the numbers below a bound. At height `h` above the leaves it
has one node for every value of `t/2^h`; a node has two children, except that the last node of a
level may have its left child only. -/
namespace Pllm.Lib.PrefixTree

open Finset

/-- The nodes at height `h` over the numbers below `v`: `v/2^h`, rounded up. -/
def width (v h : ℕ) : ℕ := (v+2^h-1)/2^h

variable {v t : ℕ}

lemma width_eq (hv : 0<v) (h : ℕ) : width v h = (v-1)/2^h+1 := by
  have hpos : 0<2^h := Nat.two_pow_pos h
  rw [width,show v+2^h-1=v-1+2^h by omega,Nat.add_div_right _ hpos]

@[simp] lemma width_zero (v : ℕ) : width v 0 = v := by simp [width]

/-- The nodes of two neighbouring levels. -/
lemma width_step (hv : 0<v) (h : ℕ) : ∃ q, width v (h+1)=q+1 ∧
    (width v h = 2*q+1 ∨ width v h = 2*q+2) ∧ (2^h<v → 0 < width v h-width v (h+1)) := by
  have hhalf : (v-1)/2^(h+1)=(v-1)/2^h/2 := by rw [pow_succ,Nat.div_div_eq_div_mul]
  refine ⟨(v-1)/2^(h+1),width_eq hv _,?_,fun hlt => ?_⟩
  · rw [width_eq hv]
    omega
  · have hone : 1≤(v-1)/2^h := (Nat.le_div_iff_mul_le (Nat.two_pow_pos h)).mpr (by omega)
    rw [width_eq hv,width_eq hv]
    omega

lemma width_le (hv : 0<v) (h : ℕ) : width v h ≤ v := by
  have hle := Nat.div_le_self (v-1) (2^h)
  rw [width_eq hv]
  omega

/-- Every number below the bound has its prefix in the tree. -/
lemma prefix_lt (ht : t<v) (h : ℕ) : t/2^h < width v h := by
  have hle : t/2^h≤(v-1)/2^h := Nat.div_le_div_right (by omega)
  rw [width_eq (by omega)]
  omega

/-- A prefix and the next bit. -/
lemma prefix_step (t h : ℕ) : t/2^h = 2*(t/2^(h+1))+(t.testBit h).toNat := by
  rw [Nat.toNat_testBit,pow_succ,←Nat.div_div_eq_div_mul]
  omega

section
variable {R : Type} [CommRing R]

/-- One level down: the first `branches` nodes split on the bit, and one that is left over hands its
value to its only child. -/
def descend (branches : ℕ) (s : ℕ → R) (b : R) (c : ℕ) : R :=
  if c/2<branches then if c%2=1 then s (c/2)*b else s (c/2)-s (c/2)*b else s (c/2)

/-- The indicator of a prefix becomes the indicator of the longer prefix. -/
lemma descend_indicator (ht : t<v) (h : ℕ) {s : ℕ → R} {b : R} (hs : ∀ c < width v
    (h+1), s c = if c=t/2^(h+1) then 1 else 0) (hb : b = if t.testBit h then 1 else 0) {c : ℕ} (hc :
    c < width v h) : descend (width v h-width v (h+1)) s b c = if c=t/2^h then 1 else 0 := by
  obtain ⟨q,hq,hwd,-⟩ := width_step (by omega : 0<v) h
  have hstep := prefix_step t h
  have hlt := prefix_lt ht h
  have hsc := hs (c/2) (by omega)
  unfold descend
  rw [hsc,hb]
  cases hbit : t.testBit h with
  | false =>
    rw [hbit,Bool.toNat_false] at hstep
    by_cases hbrn : c/2 < width v h-width v (h+1)
    · rw [if_pos hbrn]
      by_cases hodd : c%2=1
      · rw [if_pos hodd,if_neg (by omega : ¬c=t/2^h)]
        simp
      · rw [if_neg hodd,if_congr (by omega : c/2=t/2^(h+1) ↔ c=t/2^h) rfl rfl]
        simp
    · rw [if_neg hbrn,if_congr (by omega : c/2=t/2^(h+1) ↔ c=t/2^h) rfl rfl]
  | true =>
    rw [hbit,Bool.toNat_true] at hstep
    by_cases hbrn : c/2 < width v h-width v (h+1)
    · rw [if_pos hbrn]
      by_cases hodd : c%2=1
      · rw [if_pos hodd,if_congr (by omega : c/2=t/2^(h+1) ↔ c=t/2^h) rfl rfl]
        simp
      · rw [if_neg hodd,if_neg (by omega : ¬c=t/2^h)]
        simp
    · -- the prefix with a one bit is in the tree, so its parent has two children
      rw [if_neg hbrn,if_neg (by omega : ¬c/2=t/2^(h+1)),if_neg (by omega : ¬c=t/2^h)]

/-- A table is read at the place of an indicator. -/
lemma sum_indicator (ht : t<v) {s : ℕ → R} (hs : ∀ c<v, s c = if c=t then 1 else 0)
    (table : ℕ → R) : ∑ c ∈ range v, s c*table c = table t := by
  rw [sum_eq_single t]
  · rw [hs t ht,if_pos rfl,one_mul]
  · intro c hc hne
    rw [hs c (mem_range.mp hc),if_neg hne,zero_mul]
  · intro hout
    exact absurd (mem_range.mpr ht) hout

end

end Pllm.Lib.PrefixTree
