import Mathlib.Algebra.BigOperators.Ring.Finset
import Mathlib.Tactic.Abel

/-! Replicated sharing around a cycle of three parties: party `p` holds the components of `p` and of
its successor, and a value is the sum of the three components. -/
namespace Pllm.Lib

open Finset

/-- A cycle through the three elements of a type. -/
structure ThreeCycle (ι : Type) [Fintype ι] where
  next : ι → ι
  next_ne : ∀ p, next p ≠ p
  next_next_next : ∀ p, next (next (next p))=p
  card : Fintype.card ι = 3

namespace ThreeCycle
variable {ι : Type} [Fintype ι] (C : ThreeCycle ι)

lemma next_next_ne (p : ι) : C.next (C.next p)≠p := by
  intro h
  apply C.next_ne p
  have hn := C.next_next_next p
  rwa [h] at hn

/-- The sum over the parties, seen from any one of them. -/
lemma sum_eq {M : Type} [AddCommMonoid M] (f : ι → M) (p : ι) :
    ∑ q, f q = f p+f (C.next p)+f (C.next (C.next p)) := by
  classical
  have h1 := C.next_ne p
  have h2 := C.next_next_ne p
  have h3 := C.next_ne (C.next p)
  have hu : ({p,C.next p,C.next (C.next p)} : Finset ι)=univ := by
    apply eq_univ_of_card
    rw [C.card]
    exact card_eq_three.mpr ⟨p,_,_,h1.symm,h2.symm,h3.symm,rfl⟩
  rw [←hu,sum_insert (by simp [h1.symm,h2.symm]),sum_insert (by simp [h3.symm]),
    sum_singleton,add_assoc]

/-- The differences of adjacent keys share zero. -/
lemma sum_sub_next {M : Type} [AddCommGroup M] (k : ι → M) : ∑ p, (k p-k (C.next p))=0 := by
  cases isEmpty_or_nonempty ι with
  | inl h => simp
  | inr h =>
    obtain ⟨p⟩ := h
    rw [C.sum_eq _ p,C.next_next_next]
    abel

/-- The cross terms that the parties can compute alone add up to the whole product. -/
lemma sum_cross {R S T : Type} [AddCommGroup R] [AddCommGroup S] [AddCommGroup T]
    (f : R →+ S →+ T) (l : ι → R) (r : ι → S) :
    ∑ p, (f (l p) (r p+r (C.next p))+f (l (C.next p)) (r p)) = f (∑ p, l p) (∑ p, r p) := by
  cases isEmpty_or_nonempty ι with
  | inl h => simp
  | inr h =>
    obtain ⟨p⟩ := h
    rw [C.sum_eq _ p,C.sum_eq l p,C.sum_eq r p,C.next_next_next]
    simp only [map_add,AddMonoidHom.add_apply]
    abel

end ThreeCycle

end Pllm.Lib
