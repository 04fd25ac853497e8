import Mathlib

/-! The number of set bits of a word and its parity, which is linear in exclusive-or. -/
namespace Pllm.Lib
open BitVec

variable {w : ℕ}

def countOnes (x : BitVec w) : ℕ := (List.range w).countP fun i => x.getLsbD i

/-- The low bit of the number of set bits. -/
def oddOnes (x : BitVec w) : Bool := (countOnes x).testBit 0

lemma countP_xor_testBit_zero (f g : ℕ → Bool) (l : List ℕ) :
    (l.countP fun i => f i ^^ g i).testBit 0 = ((l.countP f).testBit 0 ^^ (l.countP g).testBit 0) := by
  induction l with
  | nil => simp
  | cons i l ih =>
    simp only [List.countP_cons] at ih ⊢
    cases f i <;> cases g i <;> simp <;> grind

lemma oddOnes_xor (x y : BitVec w) : oddOnes (x ^^^ y) = (oddOnes x ^^ oddOnes y) := by
  simp only [oddOnes,countOnes,← countP_xor_testBit_zero,getLsbD_xor]

@[simp] lemma oddOnes_zero : oddOnes 0#w = false := by
  simp [oddOnes,countOnes]

/-- A single bit has odd parity while it lies inside the word. -/
lemma oddOnes_twoPow (p : ℕ) : oddOnes (twoPow w p) = decide (p<w) := by
  have hc : countOnes (twoPow w p)=if p<w then 1 else 0 := by
    have hf : ∀ i ∈ List.range w, (twoPow w p).getLsbD i=true ↔ (i==p)=true := by
      grind
    rw [countOnes,List.countP_congr hf]
    split
    · next hp => exact List.count_eq_one_of_mem List.nodup_range (by simpa using hp)
    · next hp => exact List.count_eq_zero_of_not_mem (by simpa using hp)
  rw [oddOnes,hc]
  split <;> simp_all

/-- The set bits above an offset. -/
lemma oddOnes_twoPow_shiftRight {p : ℕ} (hp : p<w) (offset : ℕ) :
    oddOnes (twoPow w p >>> (offset+1)) = decide (offset<p) := by
  by_cases h : offset<p
  · have hs : twoPow w p >>> (offset+1)=twoPow w (p-(offset+1)) := by
      grind
    rw [hs,oddOnes_twoPow]
    simp
    omega
  · have hs : twoPow w p >>> (offset+1)=0 := by
      apply eq_of_getLsbD_eq
      simp only [getLsbD_ushiftRight,getLsbD_twoPow,ofNat_eq_ofNat,getLsbD_zero]
      grind
    simp [hs,h]

section
variable {a b : BitVec w} {p : ℕ} (h : a ^^^ b = twoPow w p) (hp : p<w) (offset : ℕ)
include h hp

/-- Two words that differ in one bit hold shares of an equality at every offset. -/
lemma getLsbD_zero_of_xor_eq_twoPow : ((a >>> offset).getLsbD 0 ^^ (b >>> offset).getLsbD 0) = decide (offset=p) := by
  rw [← getLsbD_xor,← ushiftRight_xor_distrib,h,getLsbD_ushiftRight,getLsbD_twoPow]
  grind

/-- Two words that differ in one bit hold shares of a comparison, as suffix parities. -/
lemma oddOnes_of_xor_eq_twoPow :
    (oddOnes (a >>> (offset+1)) ^^ oddOnes (b >>> (offset+1))) = decide (offset<p) := by
  rw [← oddOnes_xor,← ushiftRight_xor_distrib,h,oddOnes_twoPow_shiftRight hp]

end

/-- The set bits up to an offset, kept by a low mask. -/
lemma oddOnes_and_of_xor_eq_twoPow {a b mask : BitVec w} {p : ℕ} (h : a ^^^ b = twoPow w p) (hp :
    p<w) : (oddOnes (a &&& mask) ^^ oddOnes (b &&& mask)) = mask.getLsbD p := by
  have hm : twoPow w p &&& mask=if mask.getLsbD p then twoPow w p else 0#w := by
    apply eq_of_getLsbD_eq
    intro i hi
    cases hp : mask.getLsbD p <;> simp [getLsbD_twoPow] <;> grind
  have hd : (a &&& mask) ^^^ (b &&& mask)=(a ^^^ b) &&& mask := by
    apply eq_of_getLsbD_eq
    intro i hi
    simp only [getLsbD_xor,getLsbD_and,Bool.and_xor_distrib_right]
  rw [← oddOnes_xor,hd,h,hm]
  cases mask.getLsbD p <;> simp [oddOnes_twoPow,hp]

end Pllm.Lib
