import Pllm.Lib.Except
import Pllm.Lib.Heap

/-! An index of entries by key: a metered heapsort over their ordinals, and binary searches. -/
namespace Pllm.Keyed
open Pllm.Lib

inductive Error
  | overflow
  | capacity
  | workLimit
  | incomplete
  | position
  deriving DecidableEq

def checkedAdd (a b : ℕ) : Except Error ℕ := if a+b<2^128 then .ok (a+b) else .error .overflow
def checkedMul (a b : ℕ) : Except Error ℕ := if a*b<2^128 then .ok (a*b) else .error .overflow

/-- The bytes of `count` machine words. -/
def layoutBytes (count : ℕ) : Except Error ℕ :=
  if 8*count≤2^63-1 then .ok (8*count) else .error .overflow

structure Usage where
  work : ℕ
  comparisons : ℕ

namespace Usage

def step (usage : Usage) : Usage := ⟨usage.work+1,usage.comparisons⟩

/-- `comparisons += 1; step()`. -/
def compared (usage : Usage) : Usage := ⟨usage.work+1,usage.comparisons+1⟩

def charge (usage : Usage) (work limit : ℕ) : Except Error Usage := do
  let next ← checkedAdd usage.work work
  if next>limit then .error .workLimit else return ⟨next,usage.comparisons⟩

end Usage

section
variable {α : Type} [Inhabited α] (compare : α → α → Usage → Ordering × Usage)

/-- The child of `root` that is compared with it. -/
def greaterChild (items : Array α) (fin root : ℕ) (usage : Usage) : ℕ × Usage :=
  let child := 2*root+1
  if child+1<fin then
    let (order,usage) := compare items[child]! items[child+1]! usage.compared
    (if order = .lt then child+1 else child,usage)
  else (child,usage)

/-- The fuel bounds the turns of the loop: each one goes down a level. -/
def sift (fin : ℕ) : ℕ → Array α → ℕ → Usage → Array α × Usage
  | 0, items, _, usage => (items,usage)
  | fuel+1, items, root, usage =>
    if root<fin/2 then
      let (child,usage) := greaterChild compare items fin root usage
      let (order,usage) := compare items[root]! items[child]! usage.compared
      if order ≠ .lt then (items,usage)
      else sift fin fuel (items.swapIfInBounds root child) child usage.step
    else (items,usage)

/-- The first loop: the roots before `root`, from the last one down. -/
def buildHeap : ℕ → Array α → Usage → Array α × Usage
  | 0, items, usage => (items,usage)
  | root+1, items, usage =>
    let (items,usage) := sift compare items.size items.size items root usage
    buildHeap root items usage

/-- The second loop, on `fin+1` items. -/
def extractHeap : ℕ → Array α → Usage → Array α × Usage
  | 0, items, usage => (items,usage)
  | fin+1, items, usage =>
    let items := items.swapIfInBounds 0 (fin+1)
    let (items,usage) := sift compare (fin+1) items.size items 0 usage.step
    extractHeap fin items usage

def heapsort (items : Array α) (usage : Usage) : Array α × Usage :=
  let (items,usage) := buildHeap compare (items.size/2) items usage
  extractHeap compare (items.size-1) items usage

end

/-- The bit length of `n`. -/
def searchComparisonBound (n : ℕ) : ℕ := n.size

def sortComparisonBound (n : ℕ) : Except Error ℕ :=
  if n<2 then .ok 0
  else do
    let sifts ← checkedAdd (n/2) (n-1)
    let twice ← checkedMul 2 sifts
    checkedMul twice (searchComparisonBound n)

section
variable {α : Type} [Inhabited α] (compare : α → Usage → Ordering × Usage) (items : Array α)

/-- The fuel bounds the turns of the loop. -/
def lowerBound : ℕ → ℕ → ℕ → Usage → ℕ × Usage
  | 0, lo, _, usage => (lo,usage)
  | fuel+1, lo, hi, usage =>
    if lo<hi then
      let mid := lo+(hi-lo)/2
      let (order,usage) := compare items[mid]! usage
      if order = .lt then lowerBound fuel (mid+1) hi usage else lowerBound fuel lo mid usage
    else (lo,usage)

/-- The first item not less than the query, among the items from `start` to `fin`. -/
def lowerBoundBy (start fin : ℕ) (usage : Usage) : ℕ × Usage :=
  lowerBound compare items (fin-start) start fin usage

end

/-- A key with metered operations. -/
class Key (K : Type) where
  quoteWork : K → Usage → ℕ → Except Error (ℕ × Usage)
  compare : K → K → Usage → Ordering × Usage

instance : Key String where
  quoteWork self usage limit := do
    let usage ← usage.charge 1 limit
    return (← checkedAdd self.utf8ByteSize 1,usage)
  compare self other usage := (Ord.compare self other,
    ⟨usage.work+min self.utf8ByteSize other.utf8ByteSize+1,usage.comparisons⟩)

/-- A scalar field under its own order. -/
structure Scalar (α : Type) where
  value : α

instance {α : Type} [Ord α] : Key (Scalar α) where
  quoteWork _ usage limit := do
    let usage ← usage.charge 1 limit
    return (1,usage)
  compare self other usage := (Ord.compare self.value other.value,usage.step)

/-- `then_with` on metered comparisons. -/
def thenWith (first : Usage → Ordering × Usage) (second : Usage → Ordering × Usage)
    (usage : Usage) : Ordering × Usage :=
  let (order,usage) := first usage
  if order = .eq then second usage else (order,usage)

structure Entry (K V : Type) where
  key : K
  position : ℕ
  value : V
  deriving Inhabited

structure Resources where
  heapBytes : ℕ
  workspaceBytes : ℕ
  quoteWork : ℕ
  constructionWork : ℕ
  constructionComparisons : ℕ
  lookupWork : ℕ
  lookupComparisons : ℕ

structure KeyStats where
  count : ℕ
  keyWork : ℕ
  usage : Usage

structure Quote (K V : Type) where
  entries : Array (Entry K V)
  resources : Resources

structure Index (K V : Type) where
  entries : Array (Entry K V)
  order : Array ℕ
  resources : Resources
  usage : Usage

namespace KeyStats

def push {K : Type} [Key K] (self : KeyStats) (key : K) (maxQuoteWork : ℕ) :
    Except Error KeyStats := do
  let usage ← self.usage.charge 1 maxQuoteWork
  let (keyWork,usage) ← Key.quoteWork key usage maxQuoteWork
  if self.count+1<2^64 then return ⟨self.count+1,max self.keyWork keyWork,usage⟩
  else .error .overflow

/-- `slotBytes` are the fixed slots of the index and its cursors. -/
def resources (slotBytes : ℕ) (self : KeyStats) : Except Error Resources := do
  let heapBytes ← layoutBytes self.count
  let comparisons ← sortComparisonBound self.count
  let unit ← checkedAdd self.keyWork 4
  let sorting ← checkedMul comparisons unit
  let swaps ← checkedAdd sorting (self.count-1)
  let constructionWork ← checkedAdd self.count swaps
  let lookupComparisons ← checkedMul 2 (searchComparisonBound self.count)
  let probe ← checkedAdd self.keyWork 1
  let lookupWork ← checkedMul lookupComparisons probe
  if heapBytes+slotBytes<2^64 then
    return ⟨heapBytes,heapBytes+slotBytes,self.usage.work,constructionWork,comparisons,lookupWork,
      lookupComparisons⟩
  else .error .overflow

end KeyStats

section
variable {K V : Type} [Key K] [Inhabited K] [Inhabited V]

def Quote.checked (slotBytes : ℕ) (entries : Array (Entry K V)) (maxQuoteWork : ℕ) :
    Except Error (Quote K V) := do
  let _ ← layoutBytes entries.size
  let stats ← entries.toList.foldlM (fun stats entry => stats.push entry.key maxQuoteWork)
    (⟨0,0,⟨0,0⟩⟩ : KeyStats)
  let resources ← stats.resources slotBytes
  return ⟨entries,resources⟩

/-- Key, then position, then ordinal. -/
def compareOrdinals (entries : Array (Entry K V)) (a b : ℕ) : Usage → Ordering × Usage :=
  thenWith (thenWith (Key.compare entries[a]!.key entries[b]!.key)
      fun usage => (Ord.compare entries[a]!.position entries[b]!.position,usage.step))
    fun usage => (Ord.compare a b,usage.step)

def Quote.construct (self : Quote K V) (workspaceCapacity maxWork : ℕ) :
    Except Error (Index K V) :=
  if workspaceCapacity < self.resources.workspaceBytes then .error .capacity
  else if maxWork < self.resources.constructionWork then .error .workLimit
  else do
    let _ ← layoutBytes self.entries.size
    let (order,usage) := heapsort (compareOrdinals self.entries) (Array.range self.entries.size)
      ⟨self.entries.size,0⟩
    return ⟨self.entries,order,self.resources,usage⟩

def requireWork (usage : Usage) (work comparisons limit : ℕ) : Except Error Unit := do
  let work ← checkedAdd usage.work work
  let _ ← checkedAdd usage.comparisons comparisons
  if work>limit then .error .workLimit else return ()

/-- A range of places of the order. -/
structure Matches (K V : Type) where
  index : Index K V
  start : ℕ
  fin : ℕ

/-- The entries that match `key`, with the counters after the search. -/
def Index.matches (self : Index K V) (key : K) (usage : Usage) (maxWork : ℕ) :
    Except Error (Matches K V × Usage) := do
  requireWork usage self.resources.lookupWork self.resources.lookupComparisons maxWork
  let compare := fun index (usage : Usage) => Key.compare self.entries[index]!.key key usage.compared
  let (start,usage) := lowerBoundBy compare self.order 0 self.order.size usage
  let (fin,usage) := lowerBoundBy (fun index usage =>
    let (order,usage) := compare index usage
    (if order = .gt then .gt else .lt,usage)) self.order start self.order.size usage
  return (⟨self,start,fin⟩,usage)

namespace Matches
variable (self : Matches K V)

def len : ℕ := self.fin-self.start

/-- The ordinals in the range. -/
def ordinals : List ℕ := (self.index.order.toList.drop self.start).take self.len

def iter : List (Entry K V) := self.ordinals.map fun index => self.index.entries[index]!

def first : Option (Entry K V) := self.ordinals.head?.map fun index => self.index.entries[index]!

def firstBefore (position : ℕ) : Option (Entry K V) :=
  self.first.filter fun entry => entry.position<position

def lastBefore (position : ℕ) (usage : Usage) (maxWork : ℕ) :
    Except Error (Option (Entry K V) × Usage) := do
  let comparisons := searchComparisonBound self.len
  let twice ← checkedMul 2 comparisons
  requireWork usage twice comparisons maxWork
  let (fin,usage) := lowerBoundBy (fun index (usage : Usage) =>
    (Ord.compare self.index.entries[index]!.position position,usage.compared.step))
    self.index.order self.start self.fin usage
  return (if fin = self.start then none
    else some self.index.entries[self.index.order[fin-1]!]!,usage)

end Matches

end

class LawfulKey (K : Type) [Key K] where
  order : K → K → Ordering
  bound : K → ℕ
  trans : Std.TransCmp order
  lawfulEq : Std.LawfulEqCmp order
  compare_order : ∀ (a b : K) (usage : Usage), (Key.compare a b usage).1 = order a b
  compare_comparisons : ∀ (a b : K) (usage : Usage),
    (Key.compare a b usage).2.comparisons = usage.comparisons
  compare_work : ∀ (a b : K) (usage : Usage),
    (Key.compare a b usage).2.work ≤ usage.work+min (bound a) (bound b)
  quote_work : ∀ (a : K) (usage : Usage) (limit work : ℕ) (after : Usage),
    Key.quoteWork a usage limit = .ok (work,after) → work = bound a

lemma checkedAdd_eq_ok {a b c : ℕ} : checkedAdd a b = .ok c ↔ a+b<2^128 ∧ a+b=c := by
  rw [checkedAdd,ite_ok_eq_ok]

lemma checkedMul_eq_ok {a b c : ℕ} : checkedMul a b = .ok c ↔ a*b<2^128 ∧ a*b=c := by
  rw [checkedMul,ite_ok_eq_ok]

section
variable {f g : Usage → Ordering × Usage} {usage : Usage} {first second : Ordering} {a b : ℕ}

lemma thenWith_order (hf : (f usage).1 = first) (hg : ∀ usage, (g usage).1 = second) :
    (thenWith f g usage).1 = first.then second := by
  unfold thenWith
  rcases hfst : f usage with ⟨order,after⟩
  rw [hfst] at hf
  subst hf
  cases order <;> simp [hg,Ordering.then]

lemma thenWith_comparisons (hf : (f usage).2.comparisons = usage.comparisons)
    (hg : ∀ usage, (g usage).2.comparisons = usage.comparisons) :
    (thenWith f g usage).2.comparisons = usage.comparisons := by
  unfold thenWith
  rcases hfst : f usage with ⟨order,after⟩
  rw [hfst] at hf
  change after.comparisons=usage.comparisons at hf
  cases order <;> simp [hg,hf]

lemma thenWith_work (hf : (f usage).2.work ≤ usage.work+a) (hg : ∀ usage, (g usage).2.work ≤
    usage.work+b) : (thenWith f g usage).2.work ≤ usage.work+(a+b) := by
  unfold thenWith
  rcases hfst : f usage with ⟨order,after⟩
  rw [hfst] at hf
  change after.work ≤ usage.work+a at hf
  have hrest := hg after
  cases order <;> simp <;> omega

end

section
variable {α β : Type} {cmp : α → α → Ordering}

lemma transCmp_comap (f : β → α) (h : Std.TransCmp cmp) :
    Std.TransCmp fun a b => cmp (f a) (f b) where
  eq_swap := Std.OrientedCmp.eq_swap
  isLE_trans := Std.TransCmp.isLE_trans

end

instance : LawfulKey String where
  order := Ord.compare
  bound key := key.utf8ByteSize+1
  trans := inferInstance
  lawfulEq := inferInstance
  compare_order _ _ _ := rfl
  compare_comparisons _ _ _ := rfl
  compare_work a b usage := by
    simp only [Key.compare]
    omega
  quote_work a usage limit work after h := by
    obtain ⟨_,-,_,hadd,h⟩ := bind₂_eq_ok.mp h
    obtain ⟨-,rfl⟩ := checkedAdd_eq_ok.mp hadd
    exact (congrArg Prod.fst (Except.ok.inj h)).symm

instance {α : Type} [Ord α] [Std.TransOrd α] [Std.LawfulEqOrd α] : LawfulKey (Scalar α) where
  order a b := Ord.compare a.value b.value
  bound _ := 1
  trans := transCmp_comap Scalar.value inferInstance
  lawfulEq := {
    compare_self := Std.ReflCmp.compare_self
    eq_of_compare := fun {a b} h => by
      cases a
      cases b
      exact congrArg Scalar.mk (Std.LawfulEqCmp.eq_of_compare h) }
  compare_order _ _ _ := rfl
  compare_comparisons _ _ _ := rfl
  compare_work _ _ _ := le_rfl
  quote_work a usage limit work after h := by
    obtain ⟨_,-,h⟩ := bind_eq_ok.mp h
    exact (congrArg Prod.fst (Except.ok.inj h)).symm

end Pllm.Keyed
