import Mathlib

/-! Reference counting: holders that each keep one owner alive, the count of every owner and the
bytes that the live owners occupy together. -/
namespace Pllm.Lib.Holders
open Finset
variable {ι κ : Type*} [DecidableEq κ] (owner : ι → κ) (bytes : κ → ℕ) {holders : Finset ι}

def count (holders : Finset ι) (k : κ) : ℕ := {i ∈ holders | owner i = k}.card

/-- The owners that some holder keeps alive. -/
def held (holders : Finset ι) : Finset κ := holders.image owner

def total (holders : Finset ι) : ℕ := ∑ k ∈ held owner holders, bytes k

lemma count_eq_zero {k : κ} : count owner holders k = 0 ↔ k ∉ held owner holders := by
  rw [count,card_eq_zero,filter_eq_empty_iff,held,mem_image]
  push Not
  rfl

section
variable [DecidableEq ι] {i : ι}

lemma count_insert (h : i ∉ holders) (k : κ) :
    count owner (insert i holders) k = count owner holders k + if owner i = k then 1 else 0 := by
  unfold count
  rw [filter_insert]
  split
  · rw [card_insert_of_notMem fun hi => h (mem_filter.mp hi).1]
  · rfl

/-- An owner is charged when its first holder arrives. -/
lemma total_insert : total owner bytes (insert i holders) = total owner bytes holders +
    if count owner holders (owner i)=0 then bytes (owner i) else 0 := by
  rw [total,total,held,image_insert,← held]
  split
  · next h => rw [sum_insert ((count_eq_zero owner).mp h),add_comm]
  · next h =>
    rw [insert_eq_of_mem,add_zero]
    exact not_not.mp fun hn => h ((count_eq_zero owner).mpr hn)

lemma count_erase (h : i∈holders) (k : κ) :
    count owner holders k = count owner (holders.erase i) k + if owner i = k then 1 else 0 := by
  rw [← count_insert owner (notMem_erase i holders),insert_erase h]

/-- An owner is discharged when its last holder leaves. -/
lemma total_erase (h : i∈holders) :
    total owner bytes holders = total owner bytes (holders.erase i) +
      if count owner (holders.erase i) (owner i)=0 then bytes (owner i) else 0 := by
  rw [← total_insert,insert_erase h]

lemma count_pos (h : i∈holders) : 0 < count owner holders (owner i) := by
  rw [count_erase owner h,if_pos rfl]
  exact Nat.succ_pos _

end

end Pllm.Lib.Holders
