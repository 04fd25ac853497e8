import Mathlib

/-! Consecutive ranges that fill an interval, each with its start and its length. -/
namespace Pllm.Lib

open List

/-- The ranges follow each other from `a` to `b`, and none of them is empty. -/
def Tiles : ℕ → ℕ → List (ℕ × ℕ) → Prop
  | a, b, [] => a=b
  | a, b, range::ranges => range.1=a ∧ 0 < range.2 ∧ Tiles (a+range.2) b ranges

namespace Tiles
variable {a b : ℕ} {ranges : List (ℕ × ℕ)}

section
variable (h : Tiles a b ranges)
include h

lemma le : a≤b := by
  induction ranges generalizing a with
  | nil => exact le_of_eq h
  | cons range ranges ih => exact le_trans (Nat.le_add_right a range.2) (ih h.2.2)

lemma bounds {range : ℕ × ℕ} (hmem : range∈ranges) :
    a ≤ range.1 ∧ 0 < range.2 ∧ range.1+range.2≤b := by
  induction ranges generalizing a with
  | nil => cases hmem
  | cons first ranges ih =>
    obtain ⟨hst,hpos,hrest⟩ := h
    rcases mem_cons.mp hmem with rfl | hmem
    · rw [hst]
      exact ⟨le_rfl,hpos,hrest.le⟩
    · obtain ⟨hlow,hrng⟩ := ih hrest hmem
      exact ⟨by omega,hrng⟩

lemma add_sum : a+(ranges.map Prod.snd).sum = b := by
  induction ranges generalizing a with
  | nil => exact h
  | cons range ranges ih =>
    have hrest := ih h.2.2
    rw [map_cons,sum_cons]
    omega

/-- Every point of the interval lies in exactly one of the ranges. -/
lemma existsUnique {x : ℕ} (ha : a≤x) (hb : x<b) :
    ∃! i : ℕ, ∃ range : ℕ × ℕ, ranges[i]? = some range ∧ range.1≤x ∧ x < range.1+range.2 := by
  induction ranges generalizing a with
  | nil =>
    obtain rfl : a=b := h
    omega
  | cons first ranges ih =>
    obtain ⟨hst,hpos,hrest⟩ := h
    by_cases hx : x<a+first.2
    · refine ⟨0,⟨first,rfl,by omega,by omega⟩,?_⟩
      rintro (_ | i) ⟨range,hget,hlow,-⟩
      · rfl
      · have hbds := hrest.bounds (mem_of_getElem? hget)
        omega
    · obtain ⟨i,hi,huniq⟩ := ih hrest (by omega)
      refine ⟨i+1,hi,?_⟩
      rintro (_ | j) ⟨range,hget,hlow,hhigh⟩
      · obtain rfl : first=range := by simpa using hget
        omega
      · rw [huniq j ⟨range,hget,hlow,hhigh⟩]

end

end Tiles

/-- Blocks of `n`, the last of them cut off at the end of the interval. -/
lemma tiles_blocks {n total : ℕ} (hn : 0<n) (start count : ℕ) (hcnt : (start+count)*n<total+n)
    (htot : total≤(start+count)*n) (hst : start*n≤total) : Tiles (start*n) total ((range'
    start count).map fun i => (i*n,min (total-i*n) n)) := by
  induction count generalizing start with
  | zero =>
    exact le_antisymm hst htot
  | succ count ih =>
    have hstep : (start+1)*n=start*n+n := Nat.succ_mul start n
    have hlast : (start+(count+1))*n=(start+1)*n+count*n := by ring
    have hsucc : start+1+count=start+(count+1) := by omega
    refine ⟨rfl,by simp only [Nat.lt_min]; omega,?_⟩
    by_cases hle : (start+1)*n≤total
    · have hmin : start*n+min (total-start*n) n=(start+1)*n := by omega
      simp only [hmin]
      exact ih (start+1) (by rwa [hsucc]) (by rwa [hsucc]) hle
    · have hzero : count=0 := by
        by_contra hne
        have hcount' := Nat.le_mul_of_pos_left n (Nat.pos_of_ne_zero hne)
        omega
      subst hzero
      change start*n+min (total-start*n) n=total
      omega

end Pllm.Lib
