import Mathlib

/-! Inversion and computation rules for fallible code written in `Except`. -/
namespace Pllm.Lib
open List

universe u
variable {ε α β γ : Type u}

@[simp] lemma ok_bind (a : α) (f : α → Except ε β) : (Except.ok a >>= f) = f a := rfl
@[simp] lemma error_bind (e : ε) (f : α → Except ε β) : (Except.error e >>= f) = .error e := rfl
lemma ok_inj {a b : α} (h : Except.ok (ε := ε) a = .ok b) : a = b := Except.ok.inj h
lemma ok_eq_ok {a b : α} : Except.ok (ε := ε) a = .ok b ↔ a = b := ⟨ok_inj,congrArg _⟩
lemma some_inj {a b : α} (h : some a = some b) : a = b := Option.some.inj h
@[simp] lemma pure_eq_ok (a : α) : (pure a : Except ε α) = .ok a := rfl

variable {x : Except ε α} {f : α → Except ε β}

/-- A sequenced computation succeeds exactly when both halves do. -/
lemma bind_eq_ok {b : β} : (x >>= f) = .ok b ↔ ∃ a, x = .ok a ∧ f a = .ok b := by
  cases x with
  | error e => simp
  | ok a => simp

lemma bind₂_eq_ok {y : α → Except ε β} {f : α → β → Except ε γ} {c : γ} :
    (x >>= fun a => y a >>= f a) = .ok c ↔ ∃ a, x = .ok a ∧ ∃ b, y a = .ok b ∧ f a b = .ok c := by
  simp only [bind_eq_ok]

section
variable {δ θ : Type u} {x : Except ε α} {y : α → Except ε β} {z : α → β → Except ε γ}

lemma bind₃_eq_ok {f : α → β → γ → Except ε δ} {d : δ} : (x >>= fun a => y a >>= fun b => z a b >>=
    f a b) = .ok d ↔ ∃ a, x = .ok a ∧ ∃ b, y a = .ok b ∧ ∃ c, z a b = .ok c ∧ f a b c = .ok d := by
  simp only [bind_eq_ok]

lemma bind₄_eq_ok {w : α → β → γ → Except ε δ} {f : α → β → γ → δ → Except ε θ} {e : θ} :
    (x >>= fun a => y a >>= fun b => z a b >>= fun c => w a b c >>= f a b c) = .ok e ↔ ∃ a, x =
    .ok a ∧ ∃ b, y a = .ok b ∧ ∃ c, z a b = .ok c ∧ ∃ d, w a b c = .ok d ∧ f a b c d = .ok e := by
  simp only [bind_eq_ok]

end

variable {e : ε} {a : α}

/-- A guarded failure does not fire in a run that succeeds. -/
lemma ite_error_eq_ok {p : Prop} [Decidable p] :
    (if p then .error e else x) = .ok a ↔ ¬p ∧ x = .ok a := by
  by_cases h : p <;> simp [h]

/-- A checked value is returned where its check holds. -/
lemma ite_ok_eq_ok {p : Prop} [Decidable p] {b : α} :
    (if p then .ok b else .error e : Except ε α) = .ok a ↔ p ∧ b=a := by
  by_cases h : p <;> simp [h]

/-- Success as a test that can be evaluated. -/
lemma isSome_toOption : x.toOption.isSome ↔ ∃ a, x = .ok a := by
  cases x with
  | error e => simp [Except.toOption]
  | ok a => simp [Except.toOption]

variable {f : α → Except ε β} {xs : List α}

/-- A checked traversal succeeds with one result for each element, in order. -/
lemma mapM_eq_ok {ys : List β} : xs.mapM f = .ok ys ↔ Forall₂ (fun x y => f x = .ok y) xs ys := by
  induction xs generalizing ys with
  | nil => simp [forall₂_nil_left_iff,eq_comm]
  | cons x xs ih =>
    simp only [mapM_cons,bind_eq_ok,forall₂_cons_left_iff]
    constructor
    · rintro ⟨y,hy,zs,hzs,he⟩
      cases he
      exact ⟨y,zs,hy,ih.mp hzs,rfl⟩
    · rintro ⟨y,zs,hy,hzs,rfl⟩
      exact ⟨y,hy,zs,ih.mpr hzs,rfl⟩

lemma mapM_ok {g : α → β} (xs : List α)
    (h : ∀ x∈xs, f x = .ok (g x)) : xs.mapM f = .ok (xs.map g) := by
  rw [mapM_eq_ok,forall₂_map_right_iff,forall₂_same]
  exact h

lemma mapM_range_eq_ok {ε β : Type} {f : ℕ → Except ε β} {n : ℕ} {ys : List β} (d : β) (h : (range
    n).mapM f = .ok ys) : ys.length=n ∧ ∀ i<n, f i = .ok (ys.getD i d) := by
  have hall := mapM_eq_ok.mp h
  have hlen : ys.length=n := by simpa using hall.length_eq.symm
  refine ⟨hlen,fun i hi => ?_⟩
  have hi' : i<ys.length := hlen.symm ▸ hi
  have hget := hall.get (by simpa using hi) hi'
  rw [get_eq_getElem,get_eq_getElem,getElem_range] at hget
  rw [hget,getD_eq_getElem _ _ hi']

lemma bind_eq_error : x >>= f = .error e ↔ x = .error e ∨ ∃ a,x = .ok a ∧ f a = .error e := by
  cases x with
  | error e' => simp
  | ok a => simp

lemma mapM_eq_error (h : xs.mapM f = .error e) : ∃ x∈xs, f x = .error e := by
  induction xs with
  | nil => cases h
  | cons x xs ih =>
    rw [mapM_cons] at h
    cases hx : f x with
    | error e' =>
      obtain rfl : e'=e := by simpa [hx] using h
      exact ⟨x,mem_cons_self,hx⟩
    | ok y =>
      rw [hx] at h
      cases hxs : xs.mapM f with
      | error e' =>
        obtain rfl : e'=e := by simpa [hxs] using h
        obtain ⟨x',hx',he⟩ := ih hxs
        exact ⟨x',mem_cons_of_mem _ hx',he⟩
      | ok ys => simp [hxs] at h

/-- Related lists cover each other. -/
lemma exists_of_forall₂ {R : α → β → Prop} {as : List α} {bs : List β} (h : Forall₂ R as bs)
    (ha : a∈as) : ∃ b∈bs, R a b := by
  induction h with
  | nil => cases ha
  | cons hab _ ih =>
    rcases mem_cons.mp ha with rfl | ha
    · exact ⟨_,mem_cons_self,hab⟩
    · obtain ⟨b,hb,hab⟩ := ih ha
      exact ⟨b,mem_cons_of_mem _ hb,hab⟩

/-- A checked loop whose steps succeed as long as an invariant holds. -/
lemma foldlM_ok {f : β → α → Except ε β} {g : β → α → β} {P : β → Prop} (xs : List α) (init : β)
    (hinit : P init) (h : ∀ s, P s → ∀ x∈xs, f s x = .ok (g s x) ∧ P (g s x)) : xs.foldlM f init =
    .ok (xs.foldl g init) ∧ P (xs.foldl g init) := by
  induction xs generalizing init with
  | nil => exact ⟨rfl,hinit⟩
  | cons x xs ih =>
    obtain ⟨hx,hnext⟩ := h init hinit x mem_cons_self
    rw [foldlM_cons,hx,foldl_cons]
    exact ih _ hnext fun s hs y hy => h s hs y (mem_cons_of_mem _ hy)

/-- What holds of a computation that returns, and what holds of one that fails. -/
def Ends (x : Except ε α) (good : α → Prop) (bad : ε → Prop) : Prop :=
  match x with
  | .ok a => good a
  | .error e => bad e

section
variable {x : Except ε α} {good good' : α → Prop} {bad : ε → Prop}

lemma Ends.bind {next : β → Prop} (h : Ends x good bad)
    (hf : ∀ a, good a → Ends (f a) next bad) : Ends (x >>= f) next bad := by
  cases x with
  | ok a => exact hf a h
  | error e => exact h

lemma Ends.bind_eq {a : α} {next : β → Prop} (h : Ends x (· = a) bad) (hf : Ends (f a) next bad) :
    Ends (x >>= f) next bad :=
  h.bind fun _ eq => eq ▸ hf

section
variable (h : Ends x good bad)
include h

lemma Ends.mono (himp : ∀ a, good a → good' a) : Ends x good' bad := by
  cases x with
  | ok a => exact himp a h
  | error e => exact h

lemma Ends.ok (hx : x = .ok a) : good a := by
  subst hx
  exact h

lemma Ends.error (hx : x = .error e) : bad e := by
  subst hx
  exact h

lemma Ends.result : Ends x (fun a => x = .ok a ∧ good a) bad := by
  cases x with
  | ok a => exact ⟨rfl,h⟩
  | error e => exact h

end

/-- A loop whose invariant speaks of the part of the list it has gone through. -/
lemma Ends.foldlM {f : β → α → Except ε β} {I : List α → β → Prop} (xs : List α) (init : β)
    (hinit : I [] init) (step : ∀ front x, front++[x] <+: xs → ∀ s, I front s →
      Ends (f s x) (I (front++[x])) bad) : Ends (xs.foldlM f init) (I xs) bad := by
  induction xs using reverseRecOn with
  | nil => exact hinit
  | append_singleton xs x ih =>
    rw [foldlM_append]
    refine (ih fun front y h => step front y (h.trans (prefix_append _ _))).bind fun s hs => ?_
    rw [List.foldlM_cons,show (fun t => List.foldlM f t [])=pure from rfl,bind_pure]
    exact step xs x prefix_rfl s hs

end

end Pllm.Lib
