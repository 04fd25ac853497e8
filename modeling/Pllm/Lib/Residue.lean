import Mathlib.Data.Nat.ModEq
import Mathlib.Tactic.Linarith
import Mathlib.Tactic.LinearCombination
import Mathlib.Tactic.Ring
import Pllm.Lib.Accumulate

/-! Residues, their digits, and sums over all of them. -/
namespace Pllm.Lib
open Finset Nat

/-- Residues are told apart by what they leave. -/
lemma residue_unique {n a b x y : ℕ} (hx : x<n) (hy : y<n) (ex : x+b ≡ a [MOD n])
    (ey : y+b ≡ a [MOD n]) : x=y :=
  ModEq.eq_of_lt_of_lt (Nat.ModEq.add_right_cancel' b (ex.trans ey.symm)) hx hy

/-- A sum over all residues that starts anywhere. -/
lemma sum_rotated {M : Type*} [AddCommMonoid M] {n : ℕ} (t : ℕ) (f : ℕ → M) :
    ∑ k ∈ range n,f ((t+k)%n) = ∑ k ∈ range n,f k := by
  have bound (k : ℕ) (h : k<n) : (t+k)%n<n := mod_lt _ (by omega)
  have injective : Set.InjOn (fun k => (t+k)%n) (range n) := by
    intro i hi j hj eq
    rw [mem_coe,mem_range] at hi hj
    exact ModEq.eq_of_lt_of_lt (Nat.ModEq.add_left_cancel' t eq) hi hj
  have maps : Set.MapsTo (fun k => (t+k)%n) (range n) (range n) := fun k m =>
    mem_coe.mpr (mem_range.mpr (bound k (mem_range.mp m)))
  refine sum_nbij (fun k => (t+k)%n) maps injective ?_ fun _ _ => rfl
  exact surjOn_of_injOn_of_card_le _ maps injective le_rfl

/-- A sum over numbers of two digits. -/
lemma sum_digits {M : Type*} [AddCommMonoid M] {n : ℕ} (hn : 0<n) (m : ℕ) (f : ℕ → ℕ → M) :
    ∑ k ∈ range (n*m),f (k/n) (k%n) = ∑ i ∈ range m,∑ j ∈ range n,f i j := by
  induction m with
  | zero => rfl
  | succ m ih =>
    rw [mul_succ,sum_range_add,sum_range_succ]
    congr 1
    refine sum_congr rfl fun j mj => ?_
    have hj := mem_range.mp mj
    rw [mul_add_div hn,mul_add_mod,div_eq_of_lt hj,mod_eq_of_lt hj,add_zero]

/-- What is left of a difference of numbers of two digits: the higher one borrows. -/
lemma high_of_sub {c m x r k : ℕ} (hc : 0 < c) (eq : x+k ≡ r [MOD m*c]) :
    x/c+k/c+(if r%c < k%c then 1 else 0) ≡ r/c [MOD m] := by
  have low : x%c+k%c ≡ r%c [MOD c] := by
    have h := eq.of_mul_left m
    rw [ModEq] at h ⊢
    rw [← add_mod,h,mod_mod]
  have carry : x%c+k%c=r%c+(if r%c < k%c then c else 0) := by
    have hx := mod_lt x hc
    have hk := mod_lt k hc
    have hr := mod_lt r hc
    rw [ModEq,mod_eq_of_lt hr] at low
    rcases lt_or_ge (x%c+k%c) c with small | big
    · rw [mod_eq_of_lt small] at low
      rw [if_neg (by omega)]
      omega
    · rw [mod_eq_sub_mod big,mod_eq_of_lt (by omega)] at low
      rw [if_pos (by omega)]
      omega
  have split : (x/c+k/c+(if r%c < k%c then 1 else 0))*c+r%c=x+k := by
    have hx := div_add_mod' x c
    have hk := div_add_mod' k c
    split at carry
    · rename_i h
      rw [if_pos h]
      linarith
    · rename_i h
      rw [if_neg h]
      linarith
  have whole : (x/c+k/c+(if r%c < k%c then 1 else 0))*c+r%c ≡ r/c*c+r%c [MOD m*c] := by
    rw [split,div_add_mod']
    exact eq
  exact Nat.ModEq.mul_right_cancel' hc.ne' (Nat.ModEq.add_right_cancel' _ whole)

/-! Polynomials modulo `X^n+1` as functions of their coefficients, and what `X ↦ X^e` does. -/

variable {R : Type*} [CommRing R]

/-- The sign of a power of `X`, which is the one of the turns around `n` that it makes. -/
def turnSign (R : Type*) [CommRing R] (n x : ℕ) : R := if x%(2*n)<n then 1 else -1

/-- The sum of `f` and of what `X ↦ X^e` makes of `g`. -/
def Turned (n e : ℕ) (f g r : ℕ → R) : Prop :=
  ∀ i<n,r (i*e%n) = f (i*e%n)+turnSign R n (i*e)*g i

lemma turn_injective {n e : ℕ} (coprime : Coprime n e) {i j : ℕ} (hi : i<n) (hj : j<n)
    (eq : i*e%n=j*e%n) : i=j :=
  ModEq.eq_of_lt_of_lt (ModEq.cancel_right_of_coprime coprime eq) hi hj

lemma turn_surjective {n e : ℕ} (coprime : Coprime n e) {place : ℕ} (h : place<n) :
    ∃ i<n,i*e%n=place := by
  have maps : Set.MapsTo (fun i => i*e%n) (range n) (range n) := fun i _ =>
    mem_coe.mpr (mem_range.mpr (mod_lt _ (zero_lt_of_lt h)))
  have inj : Set.InjOn (fun i => i*e%n) (range n) := fun i hi j hj eq =>
    turn_injective coprime (mem_range.mp hi) (mem_range.mp hj) eq
  obtain ⟨i,hi,eq⟩ := surjOn_of_injOn_of_card_le _ maps inj le_rfl (mem_coe.mpr (mem_range.mpr h))
  exact ⟨i,mem_range.mp hi,eq⟩

namespace Turned

variable {n h d : ℕ} {f g r : ℕ → R} {q : ℕ}

/-- Multiples of `h` stay where they are, and every other one changes its sign. -/
lemma multiple (turned : Turned n (d+1) f g r) (hd : h*d=n) (hq : h*q<n) :
    r (h*q) = f (h*q)+(-1)^q*g (h*q) := by
  have turns : h*q*(d+1)=h*q+q*n := by
    rw [← hd]
    ring
  have stays : h*q*(d+1)%n=h*q := by
    rw [turns,add_mul_mod_self_right,mod_eq_of_lt hq]
  have sign : turnSign R n (h*q*(d+1))=(-1)^q := by
    unfold turnSign
    rw [turns]
    rcases even_or_odd' q with ⟨m,rfl | rfl⟩
    · rw [show h*(2*m)+2*m*n=h*(2*m)+m*(2*n) by ring,add_mul_mod_self_right,
        mod_eq_of_lt (by omega),if_pos hq,pow_mul,neg_one_sq,one_pow]
    · rw [show h*(2*m+1)+(2*m+1)*n=h*(2*m+1)+n+m*(2*n) by ring,add_mul_mod_self_right,
        mod_eq_of_lt (by omega),if_neg (by omega),pow_succ,pow_mul,neg_one_sq,one_pow,one_mul]
  have := turned (h*q) hq
  rwa [stays,sign] at this

/-- What is zero on the multiples of `b` that are none of `h` stays so. -/
lemma zero {b e : ℕ} (turned : Turned n e f g r) (coprime : Coprime n e) (hb : b ∣ n)
    (hh : h ∣ n) (hf : ∀ i<n,b ∣ i → ¬h ∣ i → f i = 0) (hg : ∀ i<n,b ∣ i → ¬h ∣ i → g i = 0)
    {place : ℕ} (hp : place<n) (hbp : b ∣ place) (hhp : ¬h ∣ place) : r place = 0 := by
  obtain ⟨i,hi,eq⟩ := turn_surjective coprime hp
  have whole (c : ℕ) (hc : c ∣ n) : c ∣ i*e ↔ c ∣ place := by
    rw [← eq]
    exact (dvd_mod_iff hc).symm
  have first : b ∣ i := (Coprime.coprime_dvd_left hb coprime).dvd_of_dvd_mul_right
    ((whole b hb).mpr hbp)
  have second : ¬h ∣ i := fun divides => hhp ((whole h hh).mp (divides.mul_right e))
  rw [← eq,turned i hi,eq,hf place hp hbp hhp,hg i hi first second,mul_zero,add_zero]

/-- A polynomial with what it becomes: of the multiples of `h` the even ones double, the odd ones
vanish. -/
lemma doubled (turned : Turned n (d+1) f f r) (hd : h*d=n) (hq : h*q<n) :
    r (h*q) = if 2 ∣ q then 2*f (h*q) else 0 := by
  rw [turned.multiple hd hq]
  split
  · rename_i even
    obtain ⟨m,rfl⟩ := even
    rw [pow_mul,neg_one_sq]
    ring
  · have odd : Odd q := odd_iff.mpr (by omega)
    rw [odd.neg_one_pow]
    ring

/-- The sum and the difference of `a` and `s`: even multiples take from `a`, odd ones from `s`. -/
lemma merged {a s : ℕ → R} (turned : Turned n (d+1) (a+s) (a-s) r) (hd : h*d=n)
    (hq : h*q<n) : r (h*q) = if 2 ∣ q then 2*a (h*q) else 2*s (h*q) := by
  rw [turned.multiple hd hq,Pi.add_apply,Pi.sub_apply]
  split
  · rename_i even
    obtain ⟨m,rfl⟩ := even
    rw [pow_mul,neg_one_sq]
    ring
  · have odd : Odd q := odd_iff.mpr (by omega)
    rw [odd.neg_one_pow]
    ring

end Turned

end Pllm.Lib
