import Pllm.Freivalds.Acceptance
import Pllm.Lib.Attempts

/-! How many draws of the challenges let a wrong output pass: a policy has as many checks as leave
all attempts of a session together below the failures it is sized for. -/
namespace Pllm.Freivalds
open Pllm.Lib Finset Policy

/-- None of `2^k` numbers divides `n`. -/
def coprimes (n : ℕ) : ℕ → ℕ → Bool
  | 0, first => n%first != 0
  | k+1, first => coprimes n k first && coprimes n k (first+2^k)

lemma not_dvd_of_coprimes {n : ℕ} (k first : ℕ) (h : coprimes n k first = true) :
    ∀ m,first ≤ m → m < first+2^k → ¬m ∣ n := by
  induction k generalizing first with
  | zero =>
    intro m low high divides
    obtain rfl : m=first := by omega
    simp [coprimes,Nat.mod_eq_zero_of_dvd divides] at h
  | succ k ih =>
    rw [coprimes,Bool.and_eq_true] at h
    intro m low high
    by_cases left : m < first+2^k
    · exact ih _ h.1 m low left
    · exact ih _ h.2 m (by omega) (by rw [pow_succ] at high; omega)

lemma modulus_prime : modulus.Prime := by
  have none : coprimes modulus 16 2=true := by decide +kernel
  refine Nat.prime_def_le_sqrt.mpr ⟨by decide,fun m low high => ?_⟩
  have := high.trans_lt (Nat.sqrt_lt.mpr (by decide : modulus<65536*65536))
  exact not_dvd_of_coprimes 16 2 none m low (by omega)
instance factPrimeModulus : Fact modulus.Prime := ⟨modulus_prime⟩

lemma sizedForAttempts_eq_ok {target attempts : ℕ} {policy : Policy}
    (h : sizedForAttempts target attempts = .ok policy) :
    policy.maxAttempts=attempts ∧ 2^target*attempts ≤ modulus^policy.checks := by
  simp only [sizedForAttempts] at h
  split_ifs at h with positive bits checks <;> try cases h
  refine ⟨rfl,?_⟩
  have fits : attempts≤2^(attempts-1).size := by
    have := Nat.lt_size_self (attempts-1)
    omega
  calc 2^target*attempts ≤ 2^target*2^(attempts-1).size := Nat.mul_le_mul_left _ fits
    _ = 2^(target+(attempts-1).size) := (pow_add ..).symm
    _ ≤ 2^(31*((target+(attempts-1).size+31-1)/31)) :=
        Nat.pow_le_pow_right (by decide) (by omega)
    _ = (2^31)^((target+(attempts-1).size+31-1)/31) := pow_mul ..
    _ ≤ modulus^((target+(attempts-1).size+31-1)/31) := Nat.pow_le_pow_left (by decide) _

/-- What is put up for one row. -/
structure Attempt where
  input : List ℤ
  output : List ℤ

/-- The challenges of the checks of one row. -/
abbrev Draw (policy : Policy) (outFeatures : ℕ) : Type :=
  Fin policy.checks → Fin outFeatures → ZMod modulus

namespace Attempt

variable (weights : List ℤ) (inFeatures outFeatures : ℕ)

def difference (a : Attempt) (o : ℕ) : ℤ :=
  a.output.getD o 0-honest weights inFeatures o (a.input.getD · 0)

/-- Within the declared bounds, with an output that is not the one of the inputs. -/
def Wrong (inputBound outputBound : ℤ) (a : Attempt) : Prop :=
  (∀ x∈a.input,x.natAbs ≤ inputBound.toNat) ∧ (∀ x∈a.output,x.natAbs ≤ outputBound.toNat) ∧
    ∃ o<outFeatures,a.difference weights inFeatures o ≠ 0

/-- All checks miss the difference. -/
def Passes {policy : Policy} (draw : Draw policy outFeatures) (a : Attempt) : Prop :=
  ∀ check,∑ o : Fin outFeatures,(a.difference weights inFeatures o : ZMod modulus)*draw check o = 0

instance decidablePasses {policy : Policy} (draw : Draw policy outFeatures) (a : Attempt) :
    Decidable (a.Passes weights inFeatures outFeatures draw) :=
  inferInstanceAs (Decidable (∀ _,_))

variable {weights inFeatures outFeatures}

/-- A difference within the bounds does not vanish in the field. -/
lemma Wrong.ne_zero {inputBound outputBound : ℤ} {l1 : ℕ} {a : Attempt}
    (wrong : a.Wrong weights inFeatures outFeatures inputBound outputBound)
    (rows : ∀ o<outFeatures,∑ j ∈ range inFeatures,(weight weights inFeatures o j).natAbs ≤ l1)
    (reached : inputBound.toNat*l1 ≤ outputBound.toNat) (small : outputBound < modulus/2) :
    (fun o : Fin outFeatures => (a.difference weights inFeatures o : ZMod modulus)) ≠ 0 := by
  obtain ⟨inputs,outputs,o,ho,differs⟩ := wrong
  have within {xs : List ℤ} {bound : ℕ} (h : ∀ x∈xs,x.natAbs ≤ bound) (i : ℕ) :
      (xs.getD i 0).natAbs ≤ bound := by
    rw [List.getD_eq_getElem?_getD]
    cases found : xs[i]? with
    | none => simp
    | some x => exact h x (List.mem_of_getElem? found)
  have honestly := natAbs_honest_le (rows o ho) fun j _ => within inputs j
  have given := within outputs o
  intro zero
  have divides := (ZMod.intCast_zmod_eq_zero_iff_dvd _ _).mp (congrFun zero ⟨o,ho⟩)
  refine differs (Int.eq_zero_of_abs_lt_dvd divides ?_)
  rw [Int.abs_eq_natAbs,difference]
  rw [modulus] at small ⊢
  omega

lemma card_passes_le {policy : Policy} {a : Attempt} (h : (fun o : Fin outFeatures =>
    (a.difference weights inFeatures o : ZMod modulus)) ≠ 0) :
    modulus^policy.checks*#{draw : Draw policy outFeatures |
      a.Passes weights inFeatures outFeatures draw} ≤ Fintype.card (Draw policy outFeatures) := by
  have all : ({draw : Draw policy outFeatures | a.Passes weights inFeatures outFeatures draw} :
      Finset _) = Fintype.piFinset fun _ => {x : Fin outFeatures → ZMod modulus |
        ∑ o : Fin outFeatures,(a.difference weights inFeatures o : ZMod modulus)*x o = 0} := by
    ext draw
    rw [mem_filter_univ,Fintype.mem_piFinset]
    simp only [Passes,mem_filter_univ]
  rw [all,Fintype.card_piFinset,prod_const,card_univ,Fintype.card_fin,← mul_pow,Fintype.card_fun,
    Fintype.card_fin]
  refine Nat.pow_le_pow_left ?_ _
  have := card_vanishing_le h
  rwa [ZMod.card] at this

end Attempt

/-- A row of a verifier is accepted where its output passes for the challenges of the row. -/
lemma Claimed.verifyRow_iff {prim : Primitives} {seed binding : Bytes} {origin : ProjectionBatch}
    {rowStart batchRows r : ℕ} {v : Verifier} {weights : List ℤ} {a : Attempt}
    (claimed : Claimed prim seed origin rowStart batchRows v)
    (prepared : Prepared prim seed binding weights origin) (hr : r<batchRows)
    (hin : a.input.length=v.inFeatures) (hout : a.output.length=v.outFeatures)
    (bounded : ∀ x∈a.output,x.natAbs ≤ v.signedOutputBound.toNat) :
    v.verifyRow r a.input a.output = .ok true ↔
      a.Passes weights v.inFeatures v.outFeatures ((fun check o =>
        (Claimed.challenge v r check).getD o 0) : Draw origin.terms.policy v.outFeatures) := by
  obtain ⟨holds,eq,spec⟩ := Ends.exists_ok (claimed.verifyRow_ok prepared hr hin hout bounded)
  rw [eq,ok_eq_ok,spec,claimed.checks,Attempt.Passes,Fin.forall_iff]
  refine forall₂_congr fun check _ => ?_
  rw [Meets,← ZMod.intCast_zmod_eq_zero_iff_dvd,Int.cast_sum,sum_range]
  simp [Attempt.difference]

/-- Whatever wrong outputs a session is offered, each chosen with all earlier challenges in sight,
one of its attempts passes for one run of draws in `2^targetFailureBits` at most. -/
theorem forgeries_within_target {target attempts : ℕ} {policy : Policy}
    (sized : sizedForAttempts target attempts = .ok policy) {weights : List ℤ}
    {outFeatures inFeatures inventoryRows : ℕ} {inputBound outputBound : ℤ}
    {resources : ResourcePolicy} (machine : inputBound<2^63)
    (admitted : validatePreparation weights outFeatures inFeatures inventoryRows inputBound
      outputBound policy resources = .ok ()) (offer : List (Draw policy outFeatures) → Attempt)
    (wrong : ∀ before,(offer before).Wrong weights inFeatures outFeatures inputBound outputBound) :
    2^target*#{draws : Fin attempts → Draw policy outFeatures | ∃ attempt : Fin attempts,
        (offer ((List.ofFn draws).take attempt)).Passes weights inFeatures outFeatures
          (draws attempt)} ≤ Fintype.card (Fin attempts → Draw policy outFeatures) := by
  obtain ⟨shape,length,-,-,-,l1,-,-,rows,-,-,small,reached⟩ :=
    (validatePreparation_ends machine).ok admitted
  obtain ⟨rfl,bits⟩ := sizedForAttempts_eq_ok sized
  have passing := card_passing_le (fun before => Attempt.card_passes_le ((wrong before).ne_zero
    (fun o ho => row_le_maxRowL1 shape.2.1 length rows ho) reached small)) policy.maxAttempts []
  rw [Fintype.card_fun,Fintype.card_fin]
  refine Nat.le_of_mul_le_mul_left ?_ (Nat.pow_pos modulus_prime.pos : 0 < modulus^policy.checks)
  calc modulus^policy.checks*(2^target*_) = 2^target*(modulus^policy.checks*_) :=
        mul_left_comm ..
    _ ≤ 2^target*(policy.maxAttempts*Fintype.card (Draw policy outFeatures)^policy.maxAttempts) :=
        Nat.mul_le_mul_left _ passing
    _ = 2^target*policy.maxAttempts*Fintype.card (Draw policy outFeatures)^policy.maxAttempts :=
        (mul_assoc ..).symm
    _ ≤ modulus^policy.checks*Fintype.card (Draw policy outFeatures)^policy.maxAttempts :=
        Nat.mul_le_mul_right _ bits

/-- Three attempts at a matrix of two rows, each with an input that turns on the challenges so far,
for thirty bits. -/
theorem forgeries_within_target_at : ∃ policy,sizedForAttempts 30 3 = .ok policy ∧
    2^30*#{draws : Fin 3 → Draw policy 2 | ∃ attempt : Fin 3,
      (⟨[1,((List.ofFn draws).take attempt).length%2],[5,5]⟩ : Attempt).Passes [2,-1,3,1] 2 2
        (draws attempt)} ≤ Fintype.card (Fin 3 → Draw policy 2) := by
  obtain ⟨policy,sized⟩ : ∃ policy,sizedForAttempts 30 3 = .ok policy := ⟨_,rfl⟩
  have admitted : validatePreparation [2,-1,3,1] 2 2 1 1 5 policy ⟨4,8,8,2,16,1⟩ = .ok () := by
    obtain rfl := ok_inj sized
    rfl
  have wrong (before : List (Draw policy 2)) :
      (⟨[1,before.length%2],[5,5]⟩ : Attempt).Wrong [2,-1,3,1] 2 2 1 5 := by
    have parity : (before.length:ℤ)%2=0 ∨ (before.length:ℤ)%2=1 := by omega
    rcases parity with even | odd
    · rw [even]
      exact ⟨by decide,by decide,0,Nat.two_pos,by decide⟩
    · rw [odd]
      exact ⟨by decide,by decide,0,Nat.two_pos,by decide⟩
  exact ⟨policy,sized,forgeries_within_target sized (by decide) admitted
    (fun before => ⟨[1,before.length%2],[5,5]⟩) wrong⟩

end Pllm.Freivalds
