import Mathlib.Algebra.BigOperators.Intervals
import Mathlib.Algebra.BigOperators.Ring.Finset
import Mathlib.Algebra.Algebra.Bilinear

/-! Accumulation as a linear map, and its transpose. -/
namespace Pllm.Lib
open Finset

variable {R : Type*} [CommSemiring R]

/-- Prefix sums, the place itself included. -/
def accumulate : (ℕ → R) →ₗ[R] ℕ → R where
  toFun x i := ∑ k ∈ Finset.range (i+1),x k
  map_add' x y := by
    funext i
    exact Finset.sum_add_distrib
  map_smul' c x := by
    funext i
    simp [Finset.mul_sum]

@[simp] lemma accumulate_apply (x : ℕ → R) (i : ℕ) :
    accumulate x i = ∑ k ∈ range (i+1),x k := rfl

/-- The transpose of a prefix sum is a suffix sum. -/
lemma sum_accumulate_mul (n : ℕ) (x y : ℕ → R) :
    ∑ i ∈ range n,accumulate x i * y i = ∑ k ∈ range n,x k * ∑ i ∈ Ico k n,y i := by
  simp only [accumulate_apply,sum_mul,mul_sum]
  refine sum_comm' fun i k => ?_
  simp only [mem_range,mem_Ico]
  omega

variable {n d : ℕ} {σ ρ : ℕ → ℕ}

/-- A sum read through a permutation of its places. -/
lemma sum_range_permuted (bound : ∀ k<n,σ k < n) (injective : ∀ j<n,∀ k<n,σ j
    = σ k → j=k) (f : ℕ → R) : ∑ k ∈ range n,f (σ k) = ∑ i ∈ range n,f i := by
  have maps : Set.MapsTo σ (range n) (range n) := fun k m =>
    mem_coe.mpr (mem_range.mpr (bound k (mem_range.mp m)))
  have inj : Set.InjOn σ (range n) := fun j hj k hk eq =>
    injective j (mem_range.mp hj) k (mem_range.mp hk) eq
  refine sum_nbij σ maps inj ?_ fun _ _ => rfl
  exact surjOn_of_injOn_of_card_le σ maps inj le_rfl

/-- The transpose of a repetition adds up each fiber. -/
lemma sum_repeated_mul (bound : ∀ k<n,ρ k < d) (w t : ℕ → R) :
    ∑ k ∈ range n,w (ρ k) * t k = ∑ r ∈ range d,w r * ∑ k ∈ range n with ρ k = r,t k := by
  have maps : ∀ k ∈ range n,ρ k ∈ range d := fun k m =>
    mem_range.mpr (bound k (mem_range.mp m))
  rw [← sum_fiberwise_of_maps_to maps]
  refine sum_congr rfl fun r _ => ?_
  rw [mul_sum]
  refine sum_congr rfl fun k m => ?_
  rw [(mem_filter.mp m).2]

/-- Repeat, scale, accumulate, permute, scale and accumulate again. -/
def repeatAccumulate (ρ σ : ℕ → ℕ) (u v : ℕ → R) : (ℕ → R) →ₗ[R] ℕ → R :=
  accumulate ∘ₗ LinearMap.mulRight R v ∘ₗ LinearMap.funLeft R R σ ∘ₗ
    accumulate ∘ₗ LinearMap.mulRight R u ∘ₗ LinearMap.funLeft R R ρ

lemma repeatAccumulate_apply (ρ σ : ℕ → ℕ) (u v w : ℕ → R) (i : ℕ) : repeatAccumulate ρ σ u v w i =
      accumulate (fun k => accumulate (fun l => w (ρ l) * u l) (σ k) * v k) i := rfl

/-- The transpose of the encoder, by suffix sums and inverse movement: `g` is the vector between
its two halves, and `s` its value. -/
lemma sum_repeatAccumulate_mul (rows : ∀ k<n,ρ k < d) (bound : ∀ k<n,σ k < n) (injective : ∀ j<n,∀
    k<n,σ j = σ k → j=k) {u v e g s : ℕ → R} (middle : ∀ k<n,g (σ k) = (∑ i ∈ Ico k n,e i) * v k)
    (result : ∀ r<d,s r = ∑ k ∈ range n with ρ k = r,(∑ i ∈ Ico k n,g i) * u k) (w : ℕ → R) : ∑ i ∈
    range n,repeatAccumulate ρ σ u v w i * e i = ∑ r ∈ range d,w r * s r := by
  simp only [repeatAccumulate_apply]
  rw [sum_accumulate_mul]
  calc ∑ k ∈ range n,accumulate (fun l => w (ρ l) * u l) (σ k) * v k * ∑ i ∈ Ico k n,e i
      = ∑ k ∈ range n,accumulate (fun l => w (ρ l) * u l) (σ k) * g (σ k) := by
        refine sum_congr rfl fun k m => ?_
        rw [middle k (mem_range.mp m),mul_assoc,mul_comm (v k)]
    _ = ∑ i ∈ range n,accumulate (fun l => w (ρ l) * u l) i * g i :=
        sum_range_permuted bound injective fun i => accumulate (fun l => w (ρ l) * u l) i * g i
    _ = ∑ l ∈ range n,w (ρ l) * (u l * ∑ i ∈ Ico l n,g i) := by
        rw [sum_accumulate_mul]
        simp only [mul_assoc]
    _ = ∑ r ∈ range d,w r * s r := by
        rw [sum_repeated_mul rows]
        refine sum_congr rfl fun r m => ?_
        rw [result r (mem_range.mp m)]
        simp only [mul_comm]

end Pllm.Lib
