import Mathlib.Algebra.BigOperators.Ring.Finset
import Mathlib.Algebra.Order.BigOperators.Group.Finset
import Mathlib.Data.Fintype.BigOperators
import Mathlib.Tactic.Ring

/-! Counts of draws: those that a linear form misses, and the runs of draws in which one of several
attempts passes. -/
namespace Pllm.Lib
open Finset

/-- A linear form that is not zero vanishes on one vector in `|K|` at most. -/
lemma card_vanishing_le {K ι : Type*} [Field K] [Fintype K] [DecidableEq K] [Fintype ι]
    [DecidableEq ι] {d : ι → K} (hd : d ≠ 0) :
    Fintype.card K*#{x : ι → K | ∑ i,d i*x i = 0} ≤ Fintype.card (ι → K) := by
  obtain ⟨o,ho⟩ := Function.ne_iff.mp hd
  have shifted (x : ι → K) (c : K) :
      ∑ i,d i*(x i+(Pi.single o c : ι → K) i) = ∑ i,d i*x i+d o*c := by
    simp [mul_add,sum_add_distrib,Pi.single_apply]
  rw [← card_univ,← card_univ,← card_product]
  refine card_le_card_of_injOn (fun p => p.2+Pi.single o p.1) (fun _ _ => mem_univ _) ?_
  rintro ⟨c,x⟩ hx ⟨e,y⟩ hy h
  change x+Pi.single o c=y+Pi.single o e at h
  simp only [coe_product,coe_univ,coe_filter,mem_univ,true_and,Set.mem_prod,Set.mem_univ,
    Set.mem_ofPred_eq] at hx hy
  have values : d o*c=d o*e := by
    have := congrArg (fun z : ι → K => ∑ i,d i*z i) h
    simpa only [Pi.add_apply,shifted,hx,hy,zero_add] using this
  obtain rfl := mul_left_cancel₀ ho values
  rw [add_right_cancel h]

section
variable {X : Type*} [Fintype X] {pass : List X → X → Prop} [∀ before,DecidablePred (pass before)]

/-- If every attempt, whatever was drawn before it, passes for one draw in `N` at most, then one of
`n` attempts passes for `n` runs of draws in `N` at most. -/
lemma card_passing_le {N : ℕ} (h : ∀ before,N*#{x | pass before x} ≤ Fintype.card X)
    (n : ℕ) (before : List X) : N*#{xs : Fin n →
    X | ∃ i : Fin n,pass (before++(List.ofFn xs).take i) (xs i)} ≤ n*Fintype.card X^n := by
  induction n generalizing before with
  | zero => simp
  | succ n ih =>
    have split : #{xs : Fin (n+1) → X | ∃ i : Fin (n+1),pass (before++(List.ofFn xs).take i) (xs i)} ≤
        ∑ x,((if pass before x then Fintype.card X^n else 0)+
          #{xs : Fin n → X | ∃ i : Fin n,pass ((before++[x])++(List.ofFn xs).take i) (xs i)}) := by
      classical
      rw [card_filter,← (Fin.consEquiv fun _ => X).sum_comp,Fintype.sum_prod_type]
      refine sum_le_sum fun x _ => ?_
      rw [← card_filter]
      simp only [Fin.consEquiv_apply,Fin.exists_fin_succ,List.ofFn_succ,Fin.cons_zero,Fin.cons_succ,
        Fin.val_zero,List.take_zero,List.append_nil,Fin.val_succ,List.take_succ_cons,
        List.append_assoc,List.singleton_append]
      rw [filter_or]
      refine (card_union_le _ _).trans (Nat.add_le_add_right ?_ _)
      by_cases passed : pass before x <;> simp [passed]
    calc N*_ ≤ ∑ x,((if pass before x then N*Fintype.card X^n else 0)+n*Fintype.card X^n) := by
          refine (Nat.mul_le_mul_left N split).trans ?_
          rw [mul_sum]
          refine sum_le_sum fun x _ => ?_
          rw [mul_add,mul_ite,mul_zero]
          exact Nat.add_le_add_left (ih _) _
      _ = N*#{x | pass before x}*Fintype.card X^n+Fintype.card X*(n*Fintype.card X^n) := by
          rw [sum_add_distrib,← sum_filter,sum_const,sum_const,card_univ,nsmul_eq_mul,nsmul_eq_mul,
            Nat.cast_id,Nat.cast_id]
          ring
      _ ≤ Fintype.card X*Fintype.card X^n+Fintype.card X*(n*Fintype.card X^n) :=
          Nat.add_le_add_right (Nat.mul_le_mul_right _ (h before)) _
      _ = (n+1)*Fintype.card X^(n+1) := by ring

end

end Pllm.Lib
