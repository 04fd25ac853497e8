import Mathlib

/-! Fallible programs over a state that survives failure, run against an environment that may turn
their requests down. The weakest precondition takes one postcondition for results and one for
failures; its rules are equations, so that `simp` runs a program symbolically. -/
namespace Pllm.Lib

open Function

/-- A fallible program that keeps the state it reached. Its requests to the environment are
numbered from the given number on; the first argument holds the answers. -/
def Exec (ε σ α : Type) : Type := (ℕ → Option ε) → σ → ℕ → Except ε α × σ × ℕ

namespace Exec
variable {ε σ τ ι α β : Type}

instance : Monad (Exec ε σ) where
  pure a := fun _ s k => (.ok a,s,k)
  bind x f := fun deny s k =>
    match x deny s k with
    | (.ok a,t,j) => f a deny t j
    | (.error e,t,j) => (.error e,t,j)

def fail (e : ε) : Exec ε σ α := fun _ s k => (.error e,s,k)

def read : Exec ε σ σ := fun _ s k => (.ok s,s,k)

def modify (f : σ → σ) : Exec ε σ Unit := fun _ s k => (.ok (),f s,k)

def require (p : Prop) [Decidable p] (e : ε) : Exec ε σ Unit := if p then pure () else fail e

def ofExcept : Except ε α → Exec ε σ α
  | .ok a => pure a
  | .error e => fail e

/-- The value of a partial operation. -/
def expect (a : Option α) (e : ε) : Exec ε σ α :=
  match a with
  | some a => pure a
  | none => fail e

/-- One request to the environment. -/
def request : Exec ε σ Unit := fun deny s k =>
  match deny k with
  | none => (.ok (),s,k+1)
  | some e => (.error e,s,k+1)

/-- Clean up after a failure. -/
def checked (cleanup : σ → σ) (x : Exec ε σ α) : Exec ε σ α := fun deny s k =>
  match x deny s k with
  | (.ok a,t,j) => (.ok a,t,j)
  | (.error e,t,j) => (.error e,cleanup t,j)

/-- Run on one part of the state. -/
def zoom (get : σ → τ) (set : τ → σ → σ) (x : Exec ε τ α) : Exec ε σ α := fun deny s k =>
  let r := x deny (get s) k
  (r.1,set r.2.1 s,r.2.2)

/-- Run at one index of a family of states. -/
def onIndex [DecidableEq ι] (i : ι) (x : Exec ε τ α) : Exec ε (ι → τ) α :=
  zoom (fun s => s i) (fun t s => Function.update s i t) x

/-- The weakest precondition for a result to satisfy `post` and a failure to satisfy `bad`. -/
def wp (deny : ℕ → Option ε) (x : Exec ε σ α) (s : σ) (k : ℕ) (post : α → σ → ℕ → Prop)
    (bad : ε → σ → ℕ → Prop) : Prop :=
  match x deny s k with
  | (.ok a,t,j) => post a t j
  | (.error e,t,j) => bad e t j

section
variable {deny : ℕ → Option ε} {s t : σ} {k j : ℕ} {post : α → σ → ℕ → Prop}
  {bad : ε → σ → ℕ → Prop}

variable {x : Exec ε σ α} {f : β → Exec ε σ α}

@[simp] lemma wp_pure (a : α) : wp deny (pure a) s k post bad ↔ post a s k := Iff.rfl

@[simp] lemma wp_bind (x : Exec ε σ β) (f : β → Exec ε σ α) : wp deny
    (x >>= f) s k post bad ↔ wp deny x s k (fun b t j => wp deny (f b) t j post bad) bad := by
  unfold wp
  change (match (match x deny s k with
    | (.ok a,t,j) => f a deny t j
    | (.error e,t,j) => (.error e,t,j)) with
    | (.ok a,t,j) => post a t j
    | (.error e,t,j) => bad e t j) ↔ _
  rcases x deny s k with ⟨_ | b,t,j⟩ <;> exact Iff.rfl

@[simp] lemma wp_fail (e : ε) : wp deny (fail e) s k post bad ↔ bad e s k := Iff.rfl

@[simp] lemma wp_read {post : σ → σ → ℕ → Prop} : wp deny read s k post bad ↔ post s s k := Iff.rfl

@[simp] lemma wp_modify {post : Unit → σ → ℕ → Prop} (f : σ → σ) :
    wp deny (modify f) s k post bad ↔ post () (f s) k := Iff.rfl

@[simp] lemma wp_ite (p : Prop) [Decidable p] (x y : Exec ε σ α) :
    wp deny (if p then x else y) s k post bad ↔
      (p → wp deny x s k post bad) ∧ (¬p → wp deny y s k post bad) := by
  by_cases h : p <;> simp [h]

@[simp] lemma wp_require {post : Unit → σ → ℕ → Prop} (p : Prop) [Decidable p] (e : ε) :
    wp deny (require p e) s k post bad ↔ (p → post () s k) ∧ (¬p → bad e s k) := by
  rw [require,wp_ite,wp_pure,wp_fail]

@[simp] lemma wp_ofExcept (x : Except ε α) : wp deny
    (ofExcept x) s k post bad ↔ (∀ a, x = .ok a → post a s k) ∧ ∀ e, x = .error e → bad e s k := by
  cases x with
  | ok a => simp [ofExcept,wp_pure]
  | error e => simp [ofExcept,wp_fail]

@[simp] lemma wp_expect (x : Option α) (e : ε) :
    wp deny (expect x e) s k post bad ↔ (∀ a, x = some a → post a s k) ∧ (x=none → bad e s k) := by
  cases x with
  | some a => simp [expect,wp_pure]
  | none => simp [expect,wp_fail]

@[simp] lemma wp_request {post : Unit → σ → ℕ → Prop} : wp deny request s k post bad ↔
    (deny k = none → post () s (k+1)) ∧ ∀ e, deny k = some e → bad e s (k+1) := by
  unfold wp request
  cases h : deny k with
  | none => simp
  | some e => simp

@[simp] lemma wp_checked (cleanup : σ → σ) (x : Exec ε σ α) : wp deny
    (checked cleanup x) s k post bad ↔ wp deny x s k post (fun e t j => bad e (cleanup t) j) := by
  unfold wp checked
  rcases x deny s k with ⟨_ | a,t,j⟩ <;> exact Iff.rfl

@[simp] lemma wp_zoom (get : σ → τ) (set : τ → σ → σ) (x : Exec ε τ α) :
    wp deny (zoom get set x) s k post bad ↔
      wp deny x (get s) k (fun a t j => post a (set t s) j) (fun e t j => bad e (set t s) j) := by
  unfold wp zoom
  rcases x deny (get s) k with ⟨_ | a,t,j⟩ <;> exact Iff.rfl

@[simp] lemma wp_onIndex [DecidableEq ι] {s : ι → τ} {post : α → (ι → τ) → ℕ → Prop}
    {bad : ε → (ι → τ) → ℕ → Prop} (i : ι) (x : Exec ε τ α) :
    wp deny (onIndex i x) s k post bad ↔
      wp deny x (s i) k (fun a t j => post a (update s i t) j)
        (fun e t j => bad e (update s i t) j) := wp_zoom ..

/-- Consequence. -/
lemma wp.mono {post' : α → σ → ℕ → Prop} {bad' : ε → σ → ℕ → Prop} (h : wp deny x s k post bad)
    (hp : ∀ a t j, post a t j → post' a t j) (hb : ∀ e t j, bad e t j → bad' e t j) :
    wp deny x s k post' bad' := by
  unfold wp at h ⊢
  generalize x deny s k=r at h ⊢
  obtain ⟨_ | a,t,j⟩ := r
  · exact hb _ _ _ h
  · exact hp _ _ _ h

lemma wp.ok (h : wp deny x s k post bad) {a : α} (hx : x deny s k = (.ok a,t,j)) : post a t j := by
  unfold wp at h
  rwa [hx] at h

lemma wp.error (h : wp deny x s k post bad) {e : ε} (hx : x deny s k = (.error e,t,j)) :
    bad e t j := by
  unfold wp at h
  rwa [hx] at h

lemma bind_ok {x : Exec ε σ β} {b : β} (h : x deny s k = (.ok b,t,j)) :
    (x >>= f) deny s k = f b deny t j := by
  change (match x deny s k with
    | (.ok b,t,j) => f b deny t j
    | (.error e,t,j) => (Except.error e,t,j))=_
  rw [h]

lemma bind_error {x : Exec ε σ β} {e : ε} (h : x deny s k = (.error e,t,j)) :
    (x >>= f) deny s k = (.error e,t,j) := by
  change (match x deny s k with
    | (.ok b,t,j) => f b deny t j
    | (.error e,t,j) => (Except.error e,t,j))=_
  rw [h]

end

/-- A run is known by its weakest preconditions. -/
lemma eq_of_wp {deny : ℕ → Option ε} {x y : Exec ε σ α} {s t : σ} {k i : ℕ}
    (h : ∀ post bad, wp deny y t i post bad → wp deny x s k post bad) : x deny s k = y deny t i := by
  have hx := h (fun a u l => y deny t i=(.ok a,u,l)) (fun e u l => y deny t i=(.error e,u,l)) ?_
  · unfold wp at hx
    generalize x deny s k=run at hx
    obtain ⟨_ | a,u,l⟩ := run <;> exact hx.symm
  · unfold wp
    generalize y deny t i=run
    obtain ⟨_ | a,u,l⟩ := run <;> rfl

/-- Some request is turned down. -/
def Denied (deny : ℕ → Option ε) : Prop := ∃ j e, deny j = some e

@[simp] lemma denied_of_eq (deny : ℕ → Option ε) (k : ℕ) :
    (∀ e, deny k = some e → Denied deny) ↔ True := iff_true_intro fun e h => ⟨k,e,h⟩

lemma not_denied : ¬Denied (fun _ => (none : Option ε)) := by
  rintro ⟨j,e,h⟩
  cases h

/-- Every result satisfies `post`, and a failure needs answers that are `bad`. -/
def Meets (bad : (ℕ → Option ε) → Prop) (x : Exec ε σ α) (s : σ) (post : α → σ → Prop) : Prop :=
  ∀ deny k, wp deny x s k (fun a t _ => post a t) (fun _ _ _ => bad deny)

/-- Every result satisfies `post`, and only a turned-down request can keep the program from one. -/
abbrev Yields (x : Exec ε σ α) (s : σ) (post : α → σ → Prop) : Prop := Meets Denied x s post

/-- Every result satisfies `post`. -/
abbrev Ensures (x : Exec ε σ α) (s : σ) (post : α → σ → Prop) : Prop :=
  Meets (fun _ => True) x s post

section
variable {bad : (ℕ → Option ε) → Prop} {x : Exec ε σ α} {s : σ} {post : α → σ → Prop}

variable {e : ε} {f : Unit → Exec ε σ α}

/-- A result of a run that asks for nothing that is turned down. -/
lemma Meets.exists_ok (h : Yields x s post) :
    ∃ a t j, x (fun _ => none) s 0 = (.ok a,t,j) ∧ post a t := by
  have hw := h (fun _ => none) 0
  unfold wp at hw
  generalize x (fun _ => none) s 0=r at hw ⊢
  obtain ⟨_ | a,t,j⟩ := r
  · exact absurd hw not_denied
  · exact ⟨a,t,j,rfl,hw⟩

/-- A run that gives a result gives one the postcondition admits. -/
lemma Meets.of_isOk (h : Ensures x s post) (hok : (x (fun _ => none) s 0).1.isOk = true) :
    ∃ a t k, x (fun _ => none) s 0 = (.ok a,t,k) ∧ post a t := by
  have hw := h (fun _ => none) 0
  unfold wp at hw
  generalize x (fun _ => none) s 0=run at hw hok ⊢
  obtain ⟨_ | a,t,k⟩ := run
  · cases hok
  · exact ⟨a,t,k,rfl,hw⟩

lemma Meets.mono {post' : α → σ → Prop} (h : Meets bad x s post)
    (hp : ∀ a t, post a t → post' a t) : Meets bad x s post' :=
  fun deny k => (h deny k).mono (fun a t _ => hp a t) fun _ _ _ he => he

lemma Meets.bind {f : α → Exec ε σ β} {post' : β → σ → Prop} (h : Meets bad x s post)
    (hf : ∀ a t, post a t → Meets bad (f a) t post') : Meets bad (x >>= f) s post' := by
  intro deny k
  rw [wp_bind]
  exact (h deny k).mono (fun a t j hm => hf a t hm deny j) fun _ _ _ he => he

lemma meets_pure {a : α} : Meets bad (pure a : Exec ε σ α) s post ↔ post a s := by
  refine ⟨fun h => h (fun _ => none) 0,fun h _ _ => h⟩

lemma Meets.expect {o : Option β} {f : β → Exec ε σ α} {b : β} (ho : o = some b)
    (h : Meets bad (f b) s post) : Meets bad (Exec.expect o e >>= f) s post := by
  subst ho
  exact h

lemma Meets.require {p : Prop} [Decidable p] (holds : p) (h : Meets bad (f ()) s post) :
    Meets bad (Exec.require p e >>= f) s post := by
  rw [Exec.require,if_pos holds]
  exact h

lemma Meets.read {f : σ → Exec ε σ α} (h : Meets bad (f s) s post) :
    Meets bad (Exec.read >>= f) s post := h

lemma Meets.modify {g : σ → σ} (h : Meets bad (f ()) (g s) post) :
    Meets bad (Exec.modify g >>= f) s post := h

lemma Meets.value {a : α} (h : post a s) : Meets bad (pure a : Exec ε σ α) s post :=
  meets_pure.mpr h

lemma Meets.request (h : Yields (f ()) s post) : Yields (Exec.request >>= f) s post := by
  intro deny k
  rw [wp_bind,wp_request]
  exact ⟨fun _ => h deny (k+1),fun e eq => ⟨k,e,eq⟩⟩

lemma Meets.checked (cleanup : σ → σ) (h : Meets bad x s post) :
    Meets bad (checked cleanup x) s post := by
  intro deny k
  rw [wp_checked]
  exact h deny k

lemma Meets.onIndex [DecidableEq ι] {x : Exec ε τ α} {s : ι → τ} {i : ι} {post : α → τ → Prop}
    (h : Meets bad x (s i) post) :
    Meets bad (onIndex i x) s fun a t => post a (t i) ∧ ∀ j, j≠i → t j = s j := by
  intro deny k
  rw [wp_onIndex]
  refine (h deny k).mono (fun a t _ ha => ?_) fun _ _ _ he => he
  refine ⟨by simpa using ha,fun j hj => update_of_ne hj t s⟩

end

/-- One step of a protocol: each listed party runs its program, and its result replaces the one
held for it so far. -/
def each [DecidableEq ι] (x : ι → Exec ε τ α) : List ι → (ι → α) → Exec ε (ι → τ) (ι → α)
  | [],results => pure results
  | i::order,results => do
    let a ← onIndex i (x i)
    each x order (Function.update results i a)

variable {bad : (ℕ → Option ε) → Prop}

/-- The parties of one step do not see each other. -/
lemma meets_each [DecidableEq ι] {x : ι → Exec ε τ α}
    {post : ι → α → τ → Prop} {order : List ι} (hn : order.Nodup) {s : ι → τ} {results : ι → α}
    (h : ∀ i∈order, Meets bad (x i) (s i) (post i)) : Meets bad (each x order results) s
    fun r t => ∀ i, (i∈order → post i (r i) (t i)) ∧ (i ∉ order → r i = results i ∧ t i = s i) := by
  induction order generalizing s results with
  | nil =>
    intro deny k
    simp [each]
  | cons i order ih =>
    obtain ⟨hi,hn⟩ := List.nodup_cons.mp hn
    refine (Meets.onIndex (h i (by simp))).bind fun a t ⟨ha,ht⟩ => ?_
    refine (ih hn fun j hj => ?_).mono fun r u hu j => ?_
    · rw [ht j fun e => hi (e ▸ hj)]
      exact h j (by simp [hj])
    · obtain ⟨h1,h2⟩ := hu j
      by_cases hj : j=i
      · subst hj
        obtain ⟨hr,hs⟩ := h2 hi
        rw [hr,hs]
        simpa using ha
      · refine ⟨fun hm => h1 ((List.mem_cons.mp hm).resolve_left hj),fun hm => ?_⟩
        obtain ⟨hr,hs⟩ := h2 fun hm' => hm (List.mem_cons_of_mem i hm')
        rw [hr,hs,ht j hj]
        simp [hj]

/-- An order in which all parties take one step. -/
structure Turn (ι : Type) where
  order : List ι
  nodup : order.Nodup
  mem : ∀ i, i∈order

/-- One lockstep round of all parties. -/
def round [DecidableEq ι] [Inhabited α] (turn : Turn ι) (x : ι → Exec ε τ α) :
    Exec ε (ι → τ) (ι → α) := each x turn.order fun _ => default

/-- The order within a round does not matter. -/
lemma meets_round [DecidableEq ι] [Inhabited α] {turn : Turn ι} {x :
    ι → Exec ε τ α} {s : ι → τ} (post : ι → α → τ → Prop) (h : ∀ i, Meets bad (x i) (s i) (post i))
    : Meets bad (round turn x) s fun r t => ∀ i, post i (r i) (t i) :=
  (meets_each turn.nodup fun i _ => h i).mono fun _ _ hp i => (hp i).1 (turn.mem i)

/-- Every result satisfies `good` and every failure leaves a state that satisfies `bad`. -/
def Outcome (x : Exec ε σ α) (s : σ) (good : α → σ → Prop) (bad : σ → Prop) :
    Prop := ∀ deny k, wp deny x s k (fun a t _ => good a t) fun _ t _ => bad t

namespace Outcome
variable {s : σ} {good : β → σ → Prop} {bad : σ → Prop}

section
variable {e : ε} {x : Exec ε σ α} {bad' : σ → Prop} {f : α → Exec ε σ β}

lemma pure {a : β} (h : good a s) : Outcome (Pure.pure a : Exec ε σ β) s good bad := fun _ _ => h

lemma fail (h : bad s) : Outcome (Exec.fail e : Exec ε σ β) s good bad := fun _ _ => h

lemma mono {x : Exec ε σ β} {good' : β → σ → Prop} (h : Outcome x s good bad) (hg : ∀ a t, good a
    t → good' a t) (hb : ∀ t, bad t → bad' t) : Outcome x s good' bad' :=
  fun deny k => (h deny k).mono (fun a t _ => hg a t) fun _ t _ => hb t

lemma bind {mid : α → σ → Prop} (hx : Outcome x s mid bad) (hf : ∀ a t, mid a t → Outcome (f a) t
    good bad) : Outcome (x >>= f) s good bad := by
  intro deny k
  rw [wp_bind]
  exact (hx deny k).mono (fun a t i hm => hf a t hm deny i) fun _ _ _ hb => hb

/-- Sequencing through a stated intermediate condition. -/
lemma via (mid : α → σ → Prop) (hx : Outcome x s mid bad) (hf : ∀ a t, mid a t → Outcome (f a) t
    good bad) : Outcome (x >>= f) s good bad := hx.bind hf

/-- A step that leaves the state. -/
lemma skip (h : bad s) (hx : Outcome x s (fun _ t => t=s) fun t => t=s) (hf : ∀ a, Outcome (f a) s
    good bad) : Outcome (x >>= f) s good bad := by
  intro deny k
  rw [wp_bind]
  refine (hx deny k).mono ?_ ?_
  · rintro a t i rfl
    exact hf a deny i
  · rintro e t i rfl
    exact h

/-- A program that leaves the state, and what its results satisfy. -/
lemma quiet {mid : α → Prop} (hx : Outcome x s (fun a t => t=s ∧ mid a) fun t => t=s)
    (h : bad s) (hf : ∀ a, mid a → Outcome (f a) s good bad) : Outcome (x >>= f) s good bad := by
  refine Outcome.bind (hx.mono (fun _ _ both => both) fun t eq => eq ▸ h) ?_
  rintro a t ⟨rfl,m⟩
  exact hf a m

lemma ofExcept {x : Except ε α} (h : bad s) (hf : ∀ a, x = .ok a → Outcome (f a) s good bad) :
    Outcome (Exec.ofExcept x >>= f) s good bad := by
  cases x with
  | error e => exact fun _ _ => h
  | ok a => exact hf a rfl

lemma expect {x : Option α} (h : bad s) (hf : ∀ a, x = some a → Outcome (f a) s good bad) :
    Outcome (Exec.expect x e >>= f) s good bad := by
  cases x with
  | none => exact fun _ _ => h
  | some a => exact hf a rfl

variable {f : Unit → Exec ε σ β}

lemma require {c : Prop} [Decidable c] (h : bad s)
    (hf : c → Outcome (f ()) s good bad) : Outcome (Exec.require c e >>= f) s good bad := by
  intro deny k
  rw [wp_bind,wp_require]
  exact ⟨fun hc => hf hc deny k,fun _ => h⟩

lemma read {f : σ → Exec ε σ β} (hf : Outcome (f s) s good bad) :
    Outcome (Exec.read >>= f) s good bad := hf

lemma modify {g : σ → σ} (hf : Outcome (f ()) (g s) good bad) :
    Outcome (Exec.modify g >>= f) s good bad := hf

lemma request (h : bad s) (hf : Outcome (f ()) s good bad) :
    Outcome (Exec.request >>= f) s good bad := by
  intro deny k
  rw [wp_bind,wp_request]
  exact ⟨fun _ => hf deny (k+1),fun _ _ => h⟩

lemma checked {x : Exec ε σ β} {cleanup : σ → σ} (h : Outcome x s good bad')
    (hb : ∀ t, bad' t → bad (cleanup t)) : Outcome (Exec.checked cleanup x) s good bad := by
  intro deny k
  rw [wp_checked]
  exact (h deny k).mono (fun _ _ _ hg => hg) fun _ t _ => hb t

lemma zoom {get : σ → τ} {set : τ → σ → σ} {x : Exec ε τ β} (h : Outcome x (get s) (fun a t =>
    good a (set t s)) fun t => bad (set t s)) : Outcome (Exec.zoom get set x) s good bad := by
  intro deny k
  rw [wp_zoom]
  exact h deny k

end

end Outcome

end Exec

open List

/-- A loop of checks succeeds exactly when every check does. -/
lemma forM_eq_ok {ε α : Type} {f : α → Except ε Unit} {xs : List α} :
    xs.forM f = .ok () ↔ ∀ x∈xs, f x = .ok () := by
  induction xs with
  | nil => exact iff_of_true rfl (by simp)
  | cons x xs ih =>
    rw [forall_mem_cons,← ih]
    change (f x >>= fun _ => xs.forM f) = .ok () ↔ _
    cases hx : f x with
    | error e => exact iff_of_false (fun h => by cases h) fun h => by cases h.1
    | ok a => exact ⟨fun h => ⟨rfl,h⟩,fun h => h.2⟩

/-- A checked loop: what each step preserves of the state, how it moves on, and what it achieves for
its element and later steps keep. -/
lemma foldlM_eq_ok {ε α β : Type} {f : β → α → Except ε β} {P : β → Prop} {R : β → β → Prop} {Q :
    α → β → Prop} (refl : ∀ s, R s s) (trans : ∀ s t u, R s t → R t u → R s u) (keep : ∀ x s t, R s
    t → Q x s → Q x t) {xs : List α} (step : ∀ x∈xs, ∀ s t, P s → f s x = .ok t → P t ∧ R s t ∧ Q x
    t) {s t : β} (hs : P s) (h : xs.foldlM f s = .ok t) : P t ∧ R s t ∧ ∀ x∈xs, Q x t := by
  induction xs generalizing s with
  | nil =>
    obtain rfl : s=t := Except.ok.inj h
    exact ⟨hs,refl s,nofun⟩
  | cons x xs ih =>
    rw [foldlM_cons] at h
    cases hx : f s x with
    | error e =>
      rw [hx] at h
      cases h
    | ok u =>
      rw [hx] at h
      obtain ⟨hP,hR,hQ⟩ := step x mem_cons_self s u hs hx
      obtain ⟨hP',hR',hQ'⟩ := ih (fun y hy => step y (mem_cons_of_mem _ hy)) hP h
      refine ⟨hP',trans _ _ _ hR hR',fun y hy => ?_⟩
      rcases mem_cons.mp hy with rfl | hy
      · exact keep _ _ _ hR' hQ
      · exact hQ' y hy

lemma mapError_eq_ok {ε ε' α : Type} {x : Except ε α} {f : ε → ε'} {a : α} :
    x.mapError f = .ok a ↔ x = .ok a := by
  cases x with
  | error e => exact iff_of_false (fun h => by cases h) fun h => by cases h
  | ok b => simp [Except.mapError]

namespace Exec
variable {ε σ α : Type}

/-- `for x in xs { body }`. -/
def forEach (body : α → Exec ε σ Unit) : List α → Exec ε σ Unit
  | [] => pure ()
  | x::xs => do
    body x
    forEach body xs

variable {body : α → Exec ε σ Unit} {s : σ} {bad : σ → Prop}

section
variable {β : Type} {e : ε} {good : β → σ → Prop} {deny : ℕ → Option ε} {k j : ℕ}

lemma Meets.forEach {refused : (ℕ → Option ε) → Prop} (I : List α → σ → Prop) {xs : List α}
    (h : I xs s) (step : ∀ x rest t, I (x::rest) t → Meets refused (body x) t fun _ u => I rest u) :
    Meets refused (forEach body xs) s fun _ t => I [] t := by
  induction xs generalizing s with
  | nil => exact .value h
  | cons x xs ih => exact (step x xs s h).bind fun _ t ht => ih ht

/-- The invariant speaks of what the loop has still to visit. -/
lemma Outcome.forEach (I : List α → σ → Prop) {xs : List α} (h : I xs s)
    (step : ∀ x rest t, I (x::rest) t → Outcome (body x) t (fun _ u => I rest u) bad) :
    Outcome (forEach body xs) s (fun _ t => I [] t) bad := by
  induction xs generalizing s with
  | nil => exact .pure h
  | cons x xs ih => exact (step x xs s h).bind fun _ t ht => ih ht

lemma Outcome.forRange (I : ℕ → σ → Prop) {n : ℕ} {body : ℕ → Exec ε σ Unit} (h : I 0 s)
    (step : ∀ i<n, ∀ t, I i t → Outcome (body i) t (fun _ u => I (i+1) u) bad) :
    Outcome (Exec.forEach body (range n)) s (fun _ t => I n t) bad := by
  refine Outcome.mono (Outcome.forEach
    (fun rest t => ∃ i≤n, rest = range' i (n-i) ∧ I i t) ?_ ?_) ?_ fun _ h => h
  · exact ⟨0,n.zero_le,by rw [range_eq_range',Nat.sub_zero],h⟩
  · rintro i rest t ⟨j,hj,hrest,hI⟩
    obtain ⟨d,hd⟩ : ∃ d, n-j=d+1 := ⟨n-j-1,by
      have : (i::rest).length=n-j := by rw [hrest,length_range']
      simp only [length_cons] at this
      omega⟩
    rw [hd,range'_succ,cons.injEq] at hrest
    obtain ⟨rfl,hrest⟩ := hrest
    refine (step i (by omega) t hI).mono (fun _ u hu => ⟨i+1,by omega,?_,hu⟩) fun _ h => h
    rw [hrest,show n-(i+1)=d by omega]
  · rintro _ t ⟨i,hi,hrest,hI⟩
    have hz : n-i=0 := by simpa using congrArg length hrest.symm
    rwa [show n=i by omega]

/-- Two judgements of one program. -/
lemma Meets.also {refused : (ℕ → Option ε) → Prop} {post : β → σ → Prop} {x : Exec ε σ β}
    (h : Meets refused x s post) (outcome : Outcome x s good bad) :
    Meets refused x s fun a t => post a t ∧ good a t := by
  intro deny k
  have result := h deny k
  have also := outcome deny k
  unfold wp at result also ⊢
  generalize x deny s k=run at result also ⊢
  obtain ⟨_ | a,t,j⟩ := run
  · exact result
  · exact ⟨result,also⟩

/-- A guard that holds. -/
lemma Outcome.guard {c : Prop} [Decidable c] (h : c) (hf : Outcome (f ())
    s good bad) : Outcome (Exec.require c e >>= f) s good bad := by
  intro deny k
  rw [wp_bind,wp_require]
  exact ⟨fun _ => hf deny k,fun hn => absurd h hn⟩

/-- What holds of every outcome holds of the one that a run gives. -/
lemma Outcome.ok {x : Exec ε σ β} (h : Outcome x s good bad) {a : β} {t : σ}
    (hx : x deny s k = (.ok a,t,j)) : good a t :=
  (h deny k).ok hx

lemma Outcome.error {x : Exec ε σ β} (h : Outcome x s good bad) {t : σ}
    (hx : x deny s k = (.error e,t,j)) : bad t :=
  (h deny k).error hx

end

end Exec

end Pllm.Lib
