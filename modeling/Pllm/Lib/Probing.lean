import Mathlib.Data.Finset.Card
import Mathlib.Data.Nat.Find
import Mathlib.Data.Nat.ModEq

/-! Open addressing without deletion: a table, a probe path for every key, and the search along it.
A key is written at the first free place of its path, so it is found again before any free place. -/
namespace Pllm.Lib.Probing
open Function Finset
variable {α : Type*}

/-- A stride prime to the size never returns to a place before it has been everywhere. -/
lemma stride_injOn {n d : ℕ} (hd : Nat.Coprime n d) (start : ℕ) :
    Set.InjOn (fun i => (start+i*d)%n) (range n) := by
  intro i hi j hj h
  simp only [coe_range] at hi hj
  have hsum : start+i*d ≡ start+j*d [MOD n] := h
  have hmul : i*d ≡ j*d [MOD n] := Nat.ModEq.add_left_cancel' start hsum
  have hij : i ≡ j [MOD n] := Nat.ModEq.cancel_right_of_coprime hd hmul
  exact Nat.ModEq.eq_of_lt_of_lt hij hi hj

lemma stride_covers {n d : ℕ} (hd : Nat.Coprime n d) (start : ℕ) {s : ℕ} (hs : s<n) :
    ∃ i<n, (start+i*d)%n=s := by
  have hmaps : Set.MapsTo (fun i => (start+i*d)%n) (range n) (range n) := by
    intro i _
    simpa using Nat.mod_lt _ (by omega)
  have hsurj := surjOn_of_injOn_of_card_le _ hmaps (stride_injOn hd start) le_rfl
  obtain ⟨i,hi,hval⟩ := hsurj (by simpa using hs : s ∈ (range n : Set ℕ))
  exact ⟨i,by simpa using hi,hval⟩

lemma iterate_stride (n d start i : ℕ) (hs : start<n) :
    (fun s => (s+d)%n)^[i] start = (start+i*d)%n := by
  induction i with
  | zero => simp [Nat.mod_eq_of_lt hs]
  | succ i ih =>
    rw [iterate_succ_apply',ih]
    simp only [Nat.mod_add_mod]
    rw [Nat.add_assoc,Nat.succ_mul]

inductive Found
  | vacant (slot : ℕ)
  | stored
  | lost

/-- From place to place, until one is free or holds the key. -/
def seek [DecidableEq α] (table : ℕ → Option α) (next : ℕ → ℕ) (key : α) : ℕ → ℕ → Found
  | 0, _ => .lost
  | n+1, slot =>
    match table slot with
    | none => .vacant slot
    | some a => if a=key then .stored else seek table next key n (next slot)

/-- The places of the path before this one hold other keys. -/
def Passed (table : ℕ → Option α) (path : ℕ → ℕ) (key : α) (i : ℕ) : Prop :=
  ∀ j < i, ∃ a, table (path j) = some a ∧ a≠key

lemma seek_passed [DecidableEq α] {table : ℕ → Option α} {next : ℕ → ℕ} {key : α} {i n slot : ℕ}
    (h : Passed table (fun j => next^[j] slot) key i) (hin : i≤n) :
    seek table next key n slot = seek table next key (n-i) (next^[i] slot) := by
  induction i generalizing n slot with
  | zero => simp
  | succ i ih =>
    obtain ⟨a,ha,hne⟩ := h 0 (by omega)
    obtain ⟨m,rfl⟩ : ∃ m, n=m+1 := ⟨n-1,by omega⟩
    have hrest : Passed table (fun j => next^[j] (next slot)) key i := by
      intro j hj
      have hj' := h (j+1) (by omega)
      simpa only [iterate_succ_apply] using hj'
    simp only [iterate_zero,id_eq] at ha
    rw [iterate_succ_apply,show m+1-(i+1)=m-i by omega,← ih hrest (by omega)]
    simp only [seek,ha,if_neg hne]

def occupied (table : ℕ → Option α) (n : ℕ) : Finset ℕ :=
  (Finset.range n).filter fun s => (table s).isSome

structure Holds (path : α → ℕ → ℕ) (n : ℕ) (table : ℕ → Option α) (keys : List α) : Prop where
  stored : ∀ a, a∈keys ↔ ∃ s<n, table s = some a
  count : (occupied table n).card ≤ keys.length
  behind : ∀ s<n, ∀ a, table s = some a →
    ∃ i<n, path a i = s ∧ ∀ j < i, (table (path a j)).isSome

variable {path : α → ℕ → ℕ} {n : ℕ} {table : ℕ → Option α} {keys : List α}

lemma holds_empty : Holds path n (fun _ => none) ([] : List α) := by
  constructor
  · simp
  · simp [occupied]
  · intro s _ a h
    cases h

section
variable (h : Holds path n table keys)
include h

/-- Fewer keys than places leave a free place. -/
lemma Holds.vacancy (room : keys.length<n) : ∃ s<n, table s = none := by
  by_contra hfull
  push Not at hfull
  have hall : occupied table n=range n := by
    ext s
    simp only [occupied,mem_filter,mem_range,and_iff_left_iff_imp]
    intro hs
    exact Option.isSome_iff_ne_none.mpr (hfull s hs)
  have hcnt := h.count
  rw [hall,card_range] at hcnt
  omega

/-- The first place of the path that is free or holds the key. -/
lemma Holds.stop (room : keys.length<n) (key : α) (cover : ∀ s<n, ∃ i<n, path key i = s) : ∃ i<n,
    Passed table (path key) key i ∧ (table (path key i)=none ∨ table (path key i) = some key) := by
  classical
  obtain ⟨s,hs,hnone⟩ := h.vacancy room
  obtain ⟨i,hi,rfl⟩ := cover s hs
  have hex : ∃ i, table (path key i)=none ∨ table (path key i)=some key := ⟨i,.inl hnone⟩
  refine ⟨Nat.find hex,lt_of_le_of_lt (Nat.find_le (.inl hnone)) hi,?_,Nat.find_spec hex⟩
  intro j hj
  have hmin := Nat.find_min hex hj
  push Not at hmin
  obtain ⟨a,ha⟩ := Option.ne_none_iff_exists'.mp hmin.1
  refine ⟨a,ha,?_⟩
  rintro rfl
  exact hmin.2 ha

/-- A search that stops at a free place has passed every place the key could be at. -/
lemma Holds.fresh {key : α} {i : ℕ}
    (hpas : Passed table (path key) key i) (hnone : table (path key i)=none) : key ∉ keys := by
  intro hmem
  obtain ⟨s,hs,hkey⟩ := (h.stored key).mp hmem
  obtain ⟨l,-,rfl,hbef⟩ := h.behind s hs key hkey
  rcases lt_trichotomy l i with hlt | rfl | hgt
  · obtain ⟨a,ha,hne⟩ := hpas l hlt
    rw [hkey] at ha
    exact hne (Option.some.inj ha).symm
  · rw [hkey] at hnone
    cases hnone
  · have hsome := hbef i hgt
    rw [hnone] at hsome
    cases hsome

end

variable {next : α → ℕ → ℕ} {start : α → ℕ}

/-- The search never gives up: it ends at the key exactly when the key was written. -/
lemma Holds.seek [DecidableEq α] (h : Holds (fun a i => (next a)^[i] (start a)) n table keys)
    (room : keys.length<n) (key : α) (inside : ∀ i, (next key)^[i] (start key)<n)
    (cover : ∀ s<n, ∃ i<n, (next key)^[i] (start key)=s) :
    (key∈keys ∧ seek table (next key) key n (start key) = .stored) ∨ (key ∉ keys ∧ ∃ i<n, Passed
    table (fun j => (next key)^[j] (start key)) key i ∧ table ((next key)^[i] (start key))=none ∧
    seek table (next key) key n (start key) = .vacant ((next key)^[i] (start key))) := by
  obtain ⟨i,hi,hpas,hstop⟩ := h.stop room key cover
  have hseek := seek_passed (n := n) hpas hi.le
  obtain ⟨m,hm⟩ : ∃ m, n-i=m+1 := ⟨n-i-1,by omega⟩
  rw [hm] at hseek
  rcases hstop with hnone | hsome
  · refine .inr ⟨h.fresh hpas hnone,i,hi,hpas,hnone,?_⟩
    rw [hseek]
    simp only [Probing.seek,hnone]
  · refine .inl ⟨(h.stored key).mpr ⟨_,inside i,hsome⟩,?_⟩
    rw [hseek]
    simp only [Probing.seek,hsome,if_true]

/-- A key written at the free place its search found. -/
lemma Holds.write (h : Holds path n table keys) {key : α} {i : ℕ} (hi : i<n) (hin : path key i <
    n) (hpas : Passed table (path key) key i) (hnone : table (path key i)=none) : Holds path n
    (update table (path key i) (some key)) (key::keys) := by
  have hkeep : ∀ s, (table s).isSome → update table (path key i) (some key) s=table s := by
    intro s hs
    refine update_of_ne ?_ _ _
    rintro rfl
    simp [hnone] at hs
  constructor
  · intro a
    simp only [List.mem_cons,h.stored a]
    constructor
    · rintro (rfl | ⟨s,hs,ha⟩)
      · exact ⟨_,hin,update_self ..⟩
      · exact ⟨s,hs,by rw [hkeep s (by simp [ha]),ha]⟩
    · rintro ⟨s,hs,ha⟩
      by_cases hat : s=path key i
      · subst hat
        rw [update_self] at ha
        exact .inl (Option.some.inj ha).symm
      · rw [update_of_ne hat] at ha
        exact .inr ⟨s,hs,ha⟩
  · have hsub : occupied (update table (path key i) (some key)) n ⊆
        insert (path key i) (occupied table n) := by
      intro s hs
      simp only [occupied,mem_filter,mem_insert] at hs ⊢
      by_cases hat : s=path key i
      · exact .inl hat
      · rw [update_of_ne hat] at hs
        exact .inr hs
    calc (occupied (update table (path key i) (some key)) n).card
        ≤ (insert (path key i) (occupied table n)).card := card_le_card hsub
      _ ≤ (occupied table n).card+1 := card_insert_le _ _
      _ ≤ (key::keys).length := by simpa using h.count
  · have hup : ∀ s, (table s).isSome → (update table (path key i) (some key) s).isSome := by
      intro s hs
      rw [hkeep s hs]
      exact hs
    intro s hs a ha
    by_cases hat : s=path key i
    · subst hat
      rw [update_self] at ha
      obtain rfl := Option.some.inj ha
      refine ⟨i,hi,rfl,fun j hj => hup _ ?_⟩
      obtain ⟨b,hb,-⟩ := hpas j hj
      simp [hb]
    · rw [update_of_ne hat] at ha
      obtain ⟨l,hl,hpath,hbef⟩ := h.behind s hs a ha
      exact ⟨l,hl,hpath,fun j hj => hup _ (hbef j hj)⟩

end Pllm.Lib.Probing
