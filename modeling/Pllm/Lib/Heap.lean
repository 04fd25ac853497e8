import Mathlib

/-! Binary heaps in an indexed store: place `i` has its children at `2*i+1` and `2*i+2`. -/
namespace Pllm.Lib

def IsChild (child parent : ℕ) : Prop := child=2*parent+1 ∨ child=2*parent+2

lemma IsChild.lt {child parent : ℕ} (h : IsChild child parent) : parent < child := by
  unfold IsChild at h
  omega

lemma IsChild.inj {child p q : ℕ} (hp : IsChild child p) (hq : IsChild child q) : p=q := by
  unfold IsChild at hp hq
  omega

section
variable {α : Type*} (le : α → α → Prop) (f : ℕ → α)

/-- No child of a place that lies before `fin` is above it. -/
def Dominates (fin i : ℕ) : Prop := ∀ c, IsChild c i → c<fin → le (f c) (f i)

/-- The heap property of the places from `lo` on. -/
def IsHeap (lo fin : ℕ) : Prop := ∀ i, lo ≤ i → Dominates le f fin i

/-- A heap but for one place, whose children are below its parent. -/
structure HeapBut (lo root fin : ℕ) : Prop where
  other : ∀ i, lo ≤ i → i≠root → Dominates le f fin i
  above : ∀ p, lo≤p → IsChild root p → ∀ c, IsChild c root → c<fin → le (f c) (f p)

/-- Two places exchanged. -/
def exchange (a b : ℕ) : ℕ → α := fun i => if i=a then f b else if i=b then f a else f i

end

section
variable {α : Type*} {le : α → α → Prop} {f : ℕ → α} {lo root fin child : ℕ}

@[simp] lemma exchange_left (a b : ℕ) : exchange f a b a = f b := if_pos rfl

@[simp] lemma exchange_right (a b : ℕ) : exchange f a b b = f a := by
  by_cases h : b=a
  · rw [h,exchange_left]
  · rw [exchange,if_neg h,if_pos rfl]

lemma exchange_of_ne {a b i : ℕ} (ha : i≠a) (hb : i≠b) : exchange f a b i = f i := by
  rw [exchange,if_neg ha,if_neg hb]

/-- Nothing is left to do when the root is not below its children. -/
lemma HeapBut.done (h : HeapBut le f lo root fin) (hroot : Dominates le f fin root) :
    IsHeap le f lo fin := by
  intro i hi
  by_cases heq : i=root
  · rw [heq]
    exact hroot
  · exact h.other i hi heq

lemma IsHeap.but (h : IsHeap le f (root+1) fin) : HeapBut le f root root fin := by
  refine ⟨fun i hi hne => h i (by omega),fun p hp hchd => ?_⟩
  have hlt := hchd.lt
  omega

/-- The root exchanged with its greater child moves the exception down. -/
lemma HeapBut.step (h : HeapBut le f lo root fin) (hlo : lo ≤ root) (hchd : IsChild child root)
    (hfin : child<fin) (hmax : ∀ c, IsChild c root → c<fin → le (f c) (f child))
    (hblw : le (f root) (f child)) : HeapBut le (exchange f root child) lo child fin := by
  have hroot := hchd.lt
  constructor
  · intro i hi hne c hc hcfin
    have hic := hc.lt
    by_cases hir : i=root
    · subst hir
      rw [exchange_left]
      by_cases hcc : c=child
      · rw [hcc,exchange_right]
        exact hblw
      · rw [exchange_of_ne (by omega) hcc]
        exact hmax c hc hcfin
    · rw [exchange_of_ne hir hne]
      by_cases hcr : c=root
      · rw [hcr,exchange_left]
        exact h.above i hi (hcr ▸ hc) child hchd hfin
      · have hcc : c≠child := fun heq => hir ((heq ▸ hc).inj hchd)
        rw [exchange_of_ne hcr hcc]
        exact h.other i hi hir c hc hcfin
  · intro p hp hpch c hc hcfin
    obtain rfl := hpch.inj hchd
    have hcc := hc.lt
    rw [exchange_left,exchange_of_ne (by omega) (by omega)]
    exact h.other child (by omega) (by omega) c hc hcfin

/-- The first place of a heap is above all others. -/
lemma IsHeap.le_root (h : IsHeap le f 0 fin) (hrefl : ∀ a, le a a)
    (htra : ∀ a b c, le a b → le b c → le a c) {i : ℕ} (hi : i<fin) : le (f i) (f 0) := by
  induction i using Nat.strong_induction_on with
  | _ i ih =>
    rcases Nat.eq_zero_or_pos i with rfl | hpos
    · exact hrefl _
    · have hchd : IsChild i ((i-1)/2) := by
        unfold IsChild
        omega
      have hlt := hchd.lt
      exact htra _ _ _ (h _ zero_le i hchd hi) (ih _ hlt (by omega))

end

/-! Taking the greatest element of a heap to the end of the store, again and again. -/
section
variable {α : Type*} (le : α → α → Prop) (f : ℕ → α)

/-- The places from `fin` on are in order and not below the places before them. -/
def SortedFrom (fin n : ℕ) : Prop := ∀ i j, i<j → fin≤j → j<n → le (f i) (f j)

end

section
variable {α : Type*} {le : α → α → Prop} {f g : ℕ → α} {fin n : ℕ}

/-- A heap with its first place exchanged with the last one before `fin`. -/
lemma IsHeap.exchange_last (h : IsHeap le f 0 (fin+1)) : HeapBut le (exchange f 0 fin) 0 0 fin := by
  refine ⟨fun i _ hne c hc hfin => ?_,fun p _ hp => ?_⟩
  · have hlt := hc.lt
    rw [exchange_of_ne (by omega) (by omega),exchange_of_ne (by omega) (by omega)]
    exact h i zero_le c hc (by omega)
  · have hlt := hp.lt
    omega

lemma SortedFrom.exchange_last (hsrt : SortedFrom le f (fin+1) n) (hheap : IsHeap le f 0 (fin+1))
    (hrefl : ∀ a, le a a) (htra : ∀ a b c, le a b → le b c → le a c) :
    SortedFrom le (exchange f 0 fin) fin n := by
  have htop : ∀ i, i<fin+1 → le (f i) (f 0) := fun i hi => hheap.le_root hrefl htra hi
  intro i j hij hj hjn
  rcases eq_or_lt_of_le hj with rfl | hj
  · rw [exchange_right]
    by_cases hi : i=0
    · rw [hi]
      exact htop _ (by omega)
    · rw [exchange_of_ne hi (by omega)]
      exact htop i (by omega)
  · rw [exchange_of_ne (i := j) (by omega) (by omega)]
    unfold exchange
    split_ifs
    · exact hsrt fin j (by omega) (by omega) hjn
    · exact hsrt 0 j (by omega) (by omega) hjn
    · exact hsrt i j hij (by omega) hjn

/-- Rearranging the places before `fin` keeps the order of the rest. -/
lemma SortedFrom.congr (h : SortedFrom le f fin n) (hrest : ∀ i, fin ≤ i → g i = f i)
    (hfrt : ∀ i, i<fin → ∃ j, j<fin ∧ g i = f j) : SortedFrom le g fin n := by
  intro i j hij hj hjn
  rw [hrest j hj]
  rcases lt_or_ge i fin with hi | hi
  · obtain ⟨k,hk,heq⟩ := hfrt i hi
    rw [heq]
    exact h k j (by omega) hj hjn
  · rw [hrest i hi]
    exact h i j hij hj hjn

end

end Pllm.Lib
