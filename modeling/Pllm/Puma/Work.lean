import Pllm.Puma.Conversion

/-! The public budget of a schedule: the ordinals and the keystream blocks it takes. -/
namespace Pllm.Puma
open Pllm.Lib List

/-- The bits of a number: its width less the leading zeros. -/
def bitLength (n : ℕ) : ℕ := if n=0 then 0 else n.log2+1

lemma lt_bitLength {m n : ℕ} : m < bitLength n ↔ 2^m≤n := by
  have hpos := Nat.two_pow_pos m
  unfold bitLength
  split
  · omega
  · next hn =>
    rw [Nat.lt_succ_iff,Nat.le_log2 hn]

structure WorkBudget where
  operations : ℕ
  publicBlocks : ℕ
  pairBlocks : ℕ
  privateBlocks : ℕ
  aesBlocks : ℕ

variable {a b : ℕ} {x y : WorkBudget}

namespace WorkBudget

instance : Zero WorkBudget := ⟨⟨0,0,0,0,0⟩⟩

instance : Add WorkBudget := ⟨fun a b => ⟨a.operations+b.operations,a.publicBlocks+b.publicBlocks,
  a.pairBlocks+b.pairBlocks,a.privateBlocks+b.privateBlocks,a.aesBlocks+b.aesBlocks⟩⟩

def checkedAdd (self other : WorkBudget) : Except Error WorkBudget := do
  let operations ← Puma.checkedAdd self.operations other.operations
  let publicBlocks ← Puma.checkedAdd self.publicBlocks other.publicBlocks
  let pairBlocks ← Puma.checkedAdd self.pairBlocks other.pairBlocks
  let privateBlocks ← Puma.checkedAdd self.privateBlocks other.privateBlocks
  let aesBlocks ← Puma.checkedAdd self.aesBlocks other.aesBlocks
  return ⟨operations,publicBlocks,pairBlocks,privateBlocks,aesBlocks⟩

/-- One ordinal and nothing else; the source's `local`. -/
def localStep : WorkBudget := ⟨1,0,0,0,0⟩

def blocks (lanes bytes : ℕ) : Except Error ℕ :=
  if 1≤lanes ∧ lanes ≤ maxLanes then .ok ((lanes*bytes+15)/16) else .error .bounds

def backing (bits : ℕ) : Except Error ℕ :=
  if bits≤8 then .ok 1 else if bits≤16 then .ok 2 else if bits≤32 then .ok 4
  else if bits≤64 then .ok 8 else .error .bounds

def rescale (lanes : ℕ) : Except Error WorkBudget := do
  let q ← blocks lanes 8
  return ⟨1,1,2*q,lanes,4*q+lanes+1⟩

/-- A complete product, with its truncation where one is asked for. -/
def product (lanes : ℕ) (rescaled : Bool) : Except Error WorkBudget := do
  let q ← blocks lanes 8
  let result : WorkBudget := ⟨0,0,q,0,2*q⟩
  if rescaled then result.checkedAdd (← rescale lanes) else return { result with operations := 1 }

def conversionBounded (lanes bits : ℕ) : Except Error WorkBudget := do
  if ¬(1≤bits ∧ bits≤64) then .error .bounds
  else do
    let bytes ← backing bits
    let rounds := bitLength (bits-1)
    let pairs := 2*(← blocks lanes bytes)+rounds*(← blocks (2*lanes) bytes)
    return { localStep with pairBlocks := pairs, aesBlocks := 2*pairs }

def fromBoolean (lanes bits : ℕ) : Except Error WorkBudget := do
  let _ ← blocks lanes 8
  if bits=0 then return localStep
  else if bits≤8 then do
    let q ← blocks (lanes*bits) 8
    return { localStep with publicBlocks := 1, pairBlocks := 3*q, aesBlocks := 4*q+1 }
  else if bits≤64 then do
    let pairs := 3*(← blocks lanes 8)+6*(← blocks (lanes*2) 8)
    return { localStep with pairBlocks := pairs, aesBlocks := 2*pairs }
  else .error .bounds

/-- The budget of a raw product of `n` lanes. -/
def rawProduct (n : ℕ) : WorkBudget := ⟨1,0,blockCount n 8,0,2*blockCount n 8⟩

lemma product_eq {n : ℕ} (hpos : 0<n) (hle : n ≤ maxLanes) :
    product n false = .ok (rawProduct n) := by
  rw [product,blocks,if_pos ⟨hpos,hle⟩]
  rfl

/-- Every count of the budget is at most `b`. -/
structure AtMost (b : ℕ) (w : WorkBudget) : Prop where
  operations : w.operations≤b
  publicBlocks : w.publicBlocks≤b
  pairBlocks : w.pairBlocks≤b
  privateBlocks : w.privateBlocks≤b
  aesBlocks : w.aesBlocks≤b

lemma AtMost.add (hx : x.AtMost a) (hy : y.AtMost b) : (x+y).AtMost (a+b) :=
  ⟨add_le_add hx.operations hy.operations,add_le_add hx.publicBlocks hy.publicBlocks,
    add_le_add hx.pairBlocks hy.pairBlocks,add_le_add hx.privateBlocks hy.privateBlocks,
    add_le_add hx.aesBlocks hy.aesBlocks⟩

lemma AtMost.mono (h : x.AtMost a) (hab : a≤b) : x.AtMost b :=
  ⟨h.operations.trans hab,h.publicBlocks.trans hab,h.pairBlocks.trans hab,
    h.privateBlocks.trans hab,h.aesBlocks.trans hab⟩

lemma checkedAdd_eq (h : (x+y).AtMost b) (hb : b<2^64) : x.checkedAdd y = .ok (x+y) := by
  have hok : ∀ m n : ℕ, m+n≤b → Puma.checkedAdd m n = .ok (m+n) :=
    fun m n hmn => if_pos (lt_of_le_of_lt hmn hb)
  simp only [checkedAdd,hok _ _ h.operations,hok _ _ h.publicBlocks,hok _ _ h.pairBlocks,
    hok _ _ h.privateBlocks,hok _ _ h.aesBlocks]
  rfl

/-- The budgets of a list of steps, added in order. -/
def total (start : WorkBudget) (steps : List WorkBudget) : WorkBudget := steps.foldl (·+·) start

lemma total_rawProduct (start : WorkBudget) (ns : List ℕ) :
    total start (ns.map rawProduct) = ⟨start.operations+ns.length,start.publicBlocks,
      start.pairBlocks+(ns.map fun n => blockCount n 8).sum,start.privateBlocks,
      start.aesBlocks+(ns.map fun n => 2*blockCount n 8).sum⟩ := by
  induction ns generalizing start with
  | nil => rfl
  | cons n ns ih =>
    change total (start+rawProduct n) (ns.map rawProduct)=_
    rw [ih]
    change WorkBudget.mk (start.operations+1+_) (start.publicBlocks+0) (start.pairBlocks+_+_)
      (start.privateBlocks+0) (start.aesBlocks+_+_)=_
    simp only [length_cons,map_cons,sum_cons,add_zero,add_assoc, add_comm 1]
    rfl

/-- A loop that adds small budgets never overflows. -/
lemma foldlM_checkedAdd {α : Type} (cost : α → Except Error WorkBudget) (price : α → WorkBudget)
    (xs : List α) {start : WorkBudget} (hst : start.AtMost a) (hcost : ∀ x∈xs,
    cost x = .ok (price x) ∧ (price x).AtMost b) (hlt : a+xs.length*b<2^64) :
    xs.foldlM (fun work x => do work.checkedAdd (← cost x)) start = .ok (total start (xs.map price))
      ∧ (total start (xs.map price)).AtMost (a+xs.length*b) := by
  induction xs generalizing a start with
  | nil => simpa [total,pure,Except.pure] using hst
  | cons x xs ih =>
    obtain ⟨hx,hxb⟩ := hcost x (by simp)
    have hadd := hst.add hxb
    rw [length_cons,Nat.succ_mul] at hlt ⊢
    obtain ⟨hrun,hmost⟩ := ih hadd (fun y hy => hcost y (by simp [hy])) (by omega)
    refine ⟨?_,hmost.mono (by omega)⟩
    rw [foldlM_cons,hx]
    change ((start.checkedAdd (price x)) >>= _)=_
    rw [checkedAdd_eq hadd (by omega)]
    exact hrun

end WorkBudget

end Pllm.Puma
