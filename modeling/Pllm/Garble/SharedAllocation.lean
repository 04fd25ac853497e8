import Mathlib.Data.Multiset.Bind
import Mathlib.Tactic.Linarith

/-! One budget shared by any number of threads: its counter, the guards that hold bytes of it, and
the calls that are under way, one atomic operation a step. -/
namespace Pllm.Garble.SharedAllocation

open Multiset

def maxAllocationBytes : ℕ := 64*1024*1024

/-- Sizes of the guards themselves, and of what a budget of its own needs to start. -/
structure Sizes where
  externalCharge : ℕ
  ownedExternalCharge : ℕ
  ownedBudget : ℕ
  arcBacking : ℕ
  bootstrapTransition : ℕ

def checkedAdd (a b : ℕ) : Option ℕ := if a+b<2^64 then some (a+b) else none

/-- A lease, a borrowed or an owned charge with the bytes each holds, or a handle of the budget. -/
inductive Guard
  | lease (bytes : ℕ)
  | external (bytes : ℕ)
  | owned (bytes : ℕ)
  | owner
  deriving DecidableEq

def Guard.bytes (z : Sizes) : Guard → ℕ
  | .lease bytes | .external bytes | .owned bytes => bytes
  | .owner => z.ownedBudget

/-- The methods. One that changes or drops a guard takes it by its bytes; `own` says whether the
budget in the arguments is the guard's. -/
inductive Call
  | reserve (bytes : ℕ)
  | chargeExternal (payload : ℕ)
  | chargeOwned (payload : ℕ)
  | tryClone
  | split (self bytes : ℕ)
  | splitPayload (self : ℕ) (own : Bool) (bytes : ℕ)
  | splitNative (self : ℕ) (own : Bool) (bytes : ℕ)
  | splitOwned (self payload : ℕ)
  | splitExternal (self payload : ℕ)
  | resizeExternal (self payload : ℕ)
  | resizeOwned (self payload : ℕ)
  | drop (guard : Guard)
  deriving DecidableEq

namespace Call

/-- The guard the call has to itself. -/
def held : Call → Multiset Guard
  | .reserve _ | .chargeExternal _ | .chargeOwned _ | .tryClone => 0
  | .split self _ => {.lease self}
  | .splitPayload self _ _ | .resizeExternal self _ => {.external self}
  | .splitNative self _ _ | .splitOwned self _ | .splitExternal self _ | .resizeOwned self _ =>
    {.owned self}
  | .drop guard => {guard}

def isSplit : Call → Bool
  | .split .. | .splitPayload .. | .splitNative .. | .splitOwned .. | .splitExternal .. => true
  | _ => false

end Call

/-- What a call comes to before its first atomic operation: an error, a result, or the bytes that
it adds to the counter or subtracts from it, in the last case with the guards it leaves. -/
inductive Begun
  | failed
  | done (guards : Multiset Guard)
  | reserving (bytes : ℕ)
  | releasing (bytes : ℕ) (guards : Multiset Guard)

namespace Call
variable (z : Sizes)

/-- Charges of a payload and the guard over it. -/
def charge (payload metadata : ℕ) : Begun :=
  match checkedAdd payload metadata with
  | none => .failed
  | some bytes => .reserving bytes

/-- A child with its own metadata, carved from the payload of an owned charge. -/
def carve (self payload metadata : ℕ) (child : ℕ → Guard) : Begun :=
  match checkedAdd payload metadata with
  | none => .failed
  | some bytes =>
    if bytes ≤ self-z.ownedExternalCharge then .done {.owned (self-bytes),child bytes} else .failed

def resize (self payload metadata : ℕ) (guard : ℕ → Guard) : Begun :=
  match checkedAdd payload metadata with
  | none => .failed
  | some bytes =>
    if bytes>self then .reserving (bytes-self) else .releasing (self-bytes) {guard bytes}

def start : Call → Begun
  | .reserve bytes => .reserving bytes
  | .chargeExternal payload => charge payload z.externalCharge
  | .chargeOwned payload => charge payload z.ownedExternalCharge
  | .tryClone => .reserving z.ownedBudget
  | .split self bytes => if bytes ≤ self then .done {.lease (self-bytes),.lease bytes} else .failed
  | .splitPayload self own bytes =>
    if ¬own ∨ bytes>self-z.externalCharge then .failed
    else if bytes ≤ self then .done {.external (self-bytes),.lease bytes} else .failed
  | .splitNative self own bytes =>
    if ¬own ∨ bytes>self-z.ownedExternalCharge then .failed
    else .done {.owned (self-bytes),.lease bytes}
  | .splitOwned self payload => carve z self payload z.ownedExternalCharge .owned
  | .splitExternal self payload => carve z self payload z.externalCharge .external
  | .resizeExternal self payload => resize self payload z.externalCharge .external
  | .resizeOwned self payload => resize self payload z.ownedExternalCharge .owned
  | .drop guard => .releasing (guard.bytes z) 0

/-- The guard of a call whose reservation went through. -/
def adopted : Call → Guard
  | .reserve bytes => .lease bytes
  | .chargeExternal payload | .resizeExternal _ payload => .external (payload+z.externalCharge)
  | .chargeOwned payload | .resizeOwned _ payload => .owned (payload+z.ownedExternalCharge)
  | _ => .owner

end Call

/-- Where a reserving call stands: before its load, with the value it saw, behind its successful
exchange, or about to drop the emptied increment of a grown borrowed charge. -/
inductive Pc
  | entered
  | seen (previous : ℕ)
  | reserved (previous : ℕ)
  | closing
  deriving DecidableEq

structure Pending where
  call : Call
  bytes : ℕ
  pc : Pc
  deriving DecidableEq

/-- The guard that the call has in hand. -/
def Pending.held (z : Sizes) (p : Pending) : Multiset Guard :=
  match p.pc with
  | .closing => {p.call.adopted z}
  | _ => p.call.held

/-- What the counter has admitted for the call and no guard holds yet. -/
def Pending.inFlight (p : Pending) : ℕ :=
  match p.pc with
  | .reserved _ => p.bytes
  | _ => 0

/-- `fixed` is what the start of an owned budget leaves charged for good. -/
structure State where
  limit : ℕ
  used : ℕ
  peak : ℕ
  fixed : ℕ
  live : Multiset Guard
  pending : Multiset Pending
  deriving DecidableEq

/-- `Budget::new`. -/
def State.new (limit : ℕ) : Option State :=
  if limit=0 ∨ limit>maxAllocationBytes then none else some ⟨limit,0,0,0,0,0⟩

/-- `OwnedBudget::new`: the first reservation covers the backing, the bootstrap and the handle. -/
def State.newOwned (z : Sizes) (limit : ℕ) : Option State := do
  let fresh ← State.new limit
  let sum ← checkedAdd z.arcBacking z.bootstrapTransition
  let initial ← checkedAdd sum z.ownedBudget
  if initial>fresh.limit then none
  else some { fresh with used := initial, peak := initial, fixed := sum, live := {.owner} }

/-- Wrapping, as on the machine. -/
def fetchSub (used bytes : ℕ) : ℕ := (used+2^64-bytes)%2^64

inductive Event
  /-- A method up to its first atomic operation, and through it where that is the only one. -/
  | invoke (call : Call)
  /-- The next atomic operation of a call under way. `weak`: an exchange fails without cause. -/
  | resume (p : Pending) (weak : Bool)

inductive Outcome
  | running
  | ok
  | failed

def State.invoke (z : Sizes) (s : State) (call : Call) : Option (State × Outcome) :=
  if ¬call.held ≤ s.live then none
  else
    let rest := s.live-call.held
    match call.start z with
    | .failed => some (s,.failed)
    | .done guards => some ({ s with live := guards+rest },.ok)
    | .reserving bytes =>
      some ({ s with live := rest, pending := ⟨call,bytes,.entered⟩ ::ₘ s.pending },.running)
    | .releasing bytes guards =>
      some ({ s with used := fetchSub s.used bytes, live := guards+rest },.ok)

def State.resume (z : Sizes) (s : State) (p : Pending) (weak : Bool) : Option (State × Outcome) :=
  if p ∉ s.pending then none
  else
    let rest := s.pending.erase p
    match p.pc with
    | .entered => some ({ s with pending := { p with pc := .seen s.used } ::ₘ rest },.running)
    | .seen previous =>
      if previous+p.bytes<2^64 ∧ previous+p.bytes ≤ s.limit then
        if s.used=previous ∧ ¬weak then
          some ({ s with used := previous+p.bytes,
                         pending := { p with pc := .reserved previous } ::ₘ rest },.running)
        else some ({ s with pending := { p with pc := .seen s.used } ::ₘ rest },.running)
      else some ({ s with live := p.call.held+s.live, pending := rest },.failed)
    | .reserved previous =>
      let s := { s with peak := max s.peak (previous+p.bytes) }
      match p.call with
      | .resizeExternal .. =>
        some ({ s with pending := { p with pc := .closing } ::ₘ rest },.running)
      | _ => some ({ s with live := p.call.adopted z ::ₘ s.live, pending := rest },.ok)
    | .closing =>
      some ({ s with used := fetchSub s.used 0, live := p.call.adopted z ::ₘ s.live,
                     pending := rest },.ok)

def State.step (z : Sizes) (s : State) : Event → Option (State × Outcome)
  | .invoke call => s.invoke z call
  | .resume p weak => s.resume z p weak

def State.run (z : Sizes) (s : State) : List Event → Option State
  | [] => some s
  | e::es => do
    let (s,_) ← s.step z e
    s.run z es

def bytesOf (z : Sizes) (guards : Multiset Guard) : ℕ := (guards.map (Guard.bytes z)).sum

/-- Every guard, at rest or in the hand of a call. -/
def State.guards (z : Sizes) (s : State) : Multiset Guard := s.live+s.pending.bind (Pending.held z)

def State.inFlight (s : State) : ℕ := (s.pending.map Pending.inFlight).sum

/-- The operand of the subtraction that an event performs on the counter, if any. -/
def Event.released (z : Sizes) : Event → Option ℕ
  | .invoke call =>
    match call.start z with
    | .releasing bytes _ => some bytes
    | _ => none
  | .resume p _ => if p.pc = .closing then some 0 else none

/-! The counter of a shared budget is the sum of what its guards hold and of what is in flight, in
every interleaving. -/
variable {z : Sizes}

@[simp] lemma bytesOf_zero : bytesOf z 0 = 0 := rfl
@[simp] lemma bytesOf_singleton (g : Guard) : bytesOf z {g} = g.bytes z := by simp [bytesOf]
@[simp] lemma bytesOf_cons (g : Guard) (gs : Multiset Guard) :
    bytesOf z (g ::ₘ gs) = g.bytes z+bytesOf z gs := by simp [bytesOf]
@[simp] lemma bytesOf_add (gs hs : Multiset Guard) :
    bytesOf z (gs+hs) = bytesOf z gs+bytesOf z hs := by simp [bytesOf]

lemma checkedAdd_eq_some {a b n : ℕ} : checkedAdd a b = some n ↔ a+b<2^64 ∧ a+b=n := by
  unfold checkedAdd
  split <;> simp_all

/-- A charge never holds less than its own metadata. -/
def Guard.WellFormed (z : Sizes) : Guard → Prop
  | .external bytes => z.externalCharge≤bytes
  | .owned bytes => z.ownedExternalCharge≤bytes
  | _ => True

def AllFormed (z : Sizes) (gs : Multiset Guard) : Prop := ∀ g∈gs, g.WellFormed z

lemma AllFormed.add {gs hs : Multiset Guard} (hg : AllFormed z gs) (hh : AllFormed z hs) :
    AllFormed z (gs+hs) := by
  intro g hmem
  rcases mem_add.mp hmem with hmem | hmem
  · exact hg g hmem
  · exact hh g hmem

lemma AllFormed.mono {gs hs : Multiset Guard} (h : AllFormed z hs) (hle : gs≤hs) :
    AllFormed z gs := fun g hg => h g (mem_of_le hle hg)

lemma allFormed_pair {g h : Guard} : AllFormed z {g,h} ↔ g.WellFormed z ∧ h.WellFormed z := by
  simp [AllFormed]

lemma allFormed_singleton {g : Guard} : AllFormed z {g} ↔ g.WellFormed z := by simp [AllFormed]

/-- The bytes of the guards before and after, against what is asked of the counter. -/
def Begun.Balanced (z : Sizes) (call : Call) : Begun → Prop
  | .failed => True
  | .done guards => bytesOf z guards=bytesOf z call.held ∧ AllFormed z guards
  | .reserving bytes =>
    (call.adopted z).bytes z = bytesOf z call.held+bytes ∧ (call.adopted z).WellFormed z
  | .releasing bytes guards => bytesOf z guards+bytes=bytesOf z call.held ∧ AllFormed z guards

section
variable {call : Call} {payload metadata self : ℕ}

lemma charge_balanced (hheld : call.held=0) (hbyt : (call.adopted z).bytes z = payload+metadata)
    (hfmd : (call.adopted z).WellFormed z) : (Call.charge payload metadata).Balanced z call := by
  unfold Call.charge
  cases hadd : checkedAdd payload metadata with
  | none => trivial
  | some bytes =>
    obtain ⟨-,rfl⟩ := checkedAdd_eq_some.mp hadd
    exact ⟨by simp [hheld,hbyt],hfmd⟩

lemma carve_balanced {child : ℕ → Guard} (hheld : call.held = {.owned self}) (hself :
    z.ownedExternalCharge ≤ self) (hbyt : (child (payload+metadata)).bytes z = payload+metadata)
    (hfmd : (child (payload+metadata)).WellFormed z) : (Call.carve z self payload metadata
    child).Balanced z call := by
  unfold Call.carve
  cases hadd : checkedAdd payload metadata with
  | none => trivial
  | some bytes =>
    obtain ⟨-,rfl⟩ := checkedAdd_eq_some.mp hadd
    dsimp only
    split
    next hle =>
      refine ⟨?_,allFormed_pair.mpr ⟨?_,hfmd⟩⟩
      · rw [hheld,bytesOf_singleton,insert_eq_cons,bytesOf_cons,bytesOf_singleton,hbyt]
        simp only [Guard.bytes]
        omega
      · simp only [Guard.WellFormed]
        omega
    · trivial

lemma resize_balanced {guard : ℕ → Guard} (hheld : call.held = {guard self})
    (hado : call.adopted z = guard (payload+metadata)) (hbyt : ∀ n, (guard n).bytes z = n)
    (hfmd : (guard (payload+metadata)).WellFormed z) :
    (Call.resize self payload metadata guard).Balanced z call := by
  unfold Call.resize
  cases hadd : checkedAdd payload metadata with
  | none => trivial
  | some bytes =>
    obtain ⟨-,rfl⟩ := checkedAdd_eq_some.mp hadd
    dsimp only
    split
    next hgt =>
      refine ⟨?_,hado ▸ hfmd⟩
      rw [hado,hheld,bytesOf_singleton,hbyt,hbyt]
      omega
    next hle =>
      refine ⟨?_,allFormed_singleton.mpr hfmd⟩
      rw [hheld,bytesOf_singleton,bytesOf_singleton,hbyt,hbyt]
      omega

lemma start_balanced (call : Call) (h : AllFormed z call.held) :
    (call.start z).Balanced z call := by
  cases call with
  | reserve bytes => exact ⟨by simp [Call.adopted,Call.held,Guard.bytes],trivial⟩
  | chargeExternal payload | chargeOwned payload =>
    exact charge_balanced rfl rfl le_add_self
  | tryClone => exact ⟨by simp [Call.adopted,Call.held,Guard.bytes],trivial⟩
  | split self bytes =>
    simp only [Call.start]
    split
    next hle =>
      refine ⟨?_,allFormed_pair.mpr ⟨trivial,trivial⟩⟩
      simp only [Call.held,insert_eq_cons,bytesOf_cons,bytesOf_singleton,Guard.bytes]
      omega
    · trivial
  | splitPayload self own bytes =>
    have hself : z.externalCharge ≤ self := allFormed_singleton.mp h
    simp only [Call.start]
    split
    · trivial
    next hpay =>
      split
      next hle =>
        refine ⟨?_,allFormed_pair.mpr ⟨?_,trivial⟩⟩
        · simp only [Call.held,insert_eq_cons,bytesOf_cons,bytesOf_singleton,Guard.bytes]
          omega
        · simp only [Guard.WellFormed]
          omega
      · trivial
  | splitNative self own bytes =>
    have hself : z.ownedExternalCharge ≤ self := allFormed_singleton.mp h
    simp only [Call.start]
    split
    · trivial
    next hpay =>
      refine ⟨?_,allFormed_pair.mpr ⟨?_,trivial⟩⟩
      · simp only [Call.held,insert_eq_cons,bytesOf_cons,bytesOf_singleton,Guard.bytes]
        omega
      · simp only [Guard.WellFormed]
        omega
  | splitOwned self payload | splitExternal self payload =>
    exact carve_balanced rfl (allFormed_singleton.mp h) rfl le_add_self
  | resizeExternal self payload | resizeOwned self payload =>
    exact resize_balanced rfl rfl (fun _ => rfl) le_add_self
  | drop guard =>
    exact ⟨by simp [Call.held],by simp [AllFormed]⟩

end

end Pllm.Garble.SharedAllocation
