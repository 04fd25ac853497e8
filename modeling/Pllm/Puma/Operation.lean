import Pllm.Common.Bytes
import Pllm.Lib.Except
import Pllm.Lib.Exec

/-! Public bindings, limits, shares and frames of the three-party ring protocol. -/
namespace Pllm.Puma
open Pllm.Lib

def profile : String := "puma.spu-a42c261.truncapr.ring64.quarter-gap.replicated3.v1"
def maxLanes : ℕ := 1024
def maxOperations : ℕ := 4096
def maxAdmittedBytes : ℕ := 256*2^10
def inputMin : ℤ := -2^62
def inputMaxExclusive : ℤ := 2^62
def fixedReserveBytes : ℕ := 4096
def wordsPerLaneReserve : ℕ := 16

inductive Error
  | bounds
  | allocation
  | binding
  | role
  | phase
  | shape
  | entropy
  | retired
  deriving DecidableEq

inductive Party
  | p0
  | p1
  | p2
  deriving Inhabited, DecidableEq

namespace Party

def next : Party → Party
  | p0 => p1
  | p1 => p2
  | p2 => p0

/-- The discriminant. -/
def code : Party → Byte
  | p0 => 0
  | p1 => 1
  | p2 => 2

@[simp] lemma next_next_next (p : Party) : p.next.next.next=p := by cases p <;> rfl

lemma next_ne (p : Party) : p.next≠p := by cases p <;> decide

lemma next_next_ne (p : Party) : p.next.next≠p := by cases p <;> decide

@[simp] lemma next_inj {p q : Party} : p.next=q.next ↔ p=q := by
  cases p <;> cases q <;> decide

instance : Fintype Party where
  elems := {p0,p1,p2}
  complete := by
    intro p
    cases p <;> decide

lemma eq_or (a p : Party) : p=a ∨ p=a.next ∨ p=a.next.next := by
  cases a <;> cases p <;> decide

end Party

abbrev Word := BitVec 64
abbrev Words := List Word

/-- The code outside the crate: the AES block function, SHA-256 and the process identity. -/
structure Platform where
  aes : Block → Block → Block
  sha256 : List Byte → BitVec 256
  processId : ℕ

/-- A platform for test vectors. -/
def Platform.sample : Platform where
  aes key block := key ^^^ block.rotateLeft 29
  sha256 bytes := bytes.foldl (fun digest b => digest*257+b.setWidth 256+1) 1
  processId := 1

def u64Bytes (n : ℕ) : List Byte := leBytes 8 (BitVec.ofNat 64 n)
def i64Bytes (n : ℤ) : List Byte := leBytes 8 (BitVec.ofInt 64 n)
def u8Bytes (n : ℕ) : List Byte := [BitVec.ofNat 8 n]

/-- Shape admission; the constructors keep the lane ceiling. -/
structure Limits where
  maxLanes : ℕ
  maxOperations : ℕ
  maxBytes : ℕ
  maxLanes_le : maxLanes≤Puma.maxLanes

namespace Limits

def admittedBytes (self : Limits) (lanes : ℕ) : Except Error ℕ :=
  let bytes := lanes*wordsPerLaneReserve*8+fixedReserveBytes
  if lanes=0 ∨ lanes>self.maxLanes ∨ bytes>self.maxBytes then .error .bounds else .ok bytes

def default : Limits := ⟨Puma.maxLanes,Puma.maxOperations,maxAdmittedBytes,le_rfl⟩

lemma admittedBytes_eq_ok {self : Limits} {lanes bytes : ℕ} (h : self.admittedBytes lanes = .ok
    bytes) : 0<lanes ∧ lanes ≤ self.maxLanes ∧ bytes=lanes*128+4096 ∧ bytes ≤ self.maxBytes := by
  simp only [admittedBytes] at h
  split at h
  · cases h
  · next hn =>
    obtain rfl := ok_inj h
    simp only [wordsPerLaneReserve,fixedReserveBytes] at hn ⊢
    omega

end Limits

structure Context where
  session : BitVec 256
  schedule : BitVec 256
  phase : ℕ
  deriving Inhabited, DecidableEq

structure SourceBinding where
  setup : BitVec 256
  publicStart : ℕ
  maskStart : ℕ
  outputStart : ℕ
  deriving DecidableEq

structure Operation where
  context : Context
  sequence : ℕ
  pivot : Party
  lanes : ℕ
  shift : ℕ
  source : Option SourceBinding
  consumer : Option (BitVec 256)
  deriving Inhabited, DecidableEq

def prssProfile : String :=
  "puma.spu-a42c261.yacl-5418371.prss.le64.aes128-ctr-call-reset.v1"

namespace Operation

def new (context : Context) (sequence : ℕ) (pivot : Party) (lanes shift : ℕ) (limits : Limits) :
    Except Error Operation := do
  let _ ← limits.admittedBytes lanes
  if sequence≥limits.maxOperations ∨ ¬(1 ≤ shift ∧ shift≤62) then .error .bounds
  else return ⟨context,sequence,pivot,lanes,shift,none,none⟩

lemma new_eq_ok {context : Context} {sequence lanes shift : ℕ} {pivot : Party} {limits : Limits}
    {operation : Operation} (h : new context sequence pivot lanes shift limits = .ok operation) :
    operation = ⟨context,sequence,pivot,lanes,shift,none,none⟩ ∧ sequence<limits.maxOperations
      ∧ (1 ≤ shift ∧ shift≤62) ∧ ∃ bytes, limits.admittedBytes lanes = .ok bytes := by
  obtain ⟨bytes,hb,h⟩ := bind_eq_ok.mp h
  obtain ⟨hn,h⟩ := ite_error_eq_ok.mp h
  obtain rfl := ok_inj h
  exact ⟨rfl,by omega,by omega,bytes,hb⟩

def evaluatorA (self : Operation) : Party := self.pivot
def evaluatorB (self : Operation) : Party := self.pivot.next
def helper (self : Operation) : Party := self.pivot.next.next

def digest (env : Platform) (self : Operation) : BitVec 256 :=
  env.sha256 (ascii profile++leBytes 32 self.context.session++leBytes 32 self.context.schedule
    ++ u64Bytes self.context.phase++u64Bytes self.sequence
    ++ [self.pivot.code,BitVec.ofNat 8 self.shift]++u64Bytes self.lanes
    ++ (match self.source with
      | some source => ascii prssProfile++leBytes 32 source.setup++ascii "public-pivot"
          ++ u64Bytes source.publicStart++ascii "pairwise-mask" ++ u64Bytes source.maskStart
          ++ ascii "pairwise-reshare" ++ u64Bytes source.outputStart
      | none => [])
    ++ (match self.consumer with
      | some consumer => ascii "compound-consumer" ++ leBytes 32 consumer
      | none => []))

end Operation

/-- `words[i]`; the callers keep `i` inside the buffer. -/
def lane (words : Words) (i : ℕ) : Word := words.getD i 0

/-- A loop that fills a buffer of `n` words. -/
def tabulate (n : ℕ) (f : ℕ → Word) : Words := (List.range n).map f

@[simp] lemma length_tabulate (n : ℕ) (f : ℕ → Word) : (tabulate n f).length = n := by
  simp [tabulate]

lemma lane_tabulate {n i : ℕ} (f : ℕ → Word) (hi : i<n) : lane (tabulate n f) i = f i := by
  simp [lane,tabulate,hi]

lemma tabulate_congr {n : ℕ} {f g : ℕ → Word} (h : ∀ i<n, f i = g i) :
    tabulate n f = tabulate n g :=
  List.map_congr_left fun i hi => h i (List.mem_range.mp hi)

lemma tabulate_lane {n : ℕ} {words : Words} (h : words.length=n) :
    tabulate n (lane words)=words := by
  apply List.ext_getElem
  · simp [h]
  · intro i _ hi
    simp [tabulate,lane,List.getElem?_eq_getElem hi]

lemma all_tabulate {n : ℕ} {f : ℕ → Word} {g : Word → Bool} :
    (tabulate n f).all g = true ↔ ∀ i<n, g (f i)=true := by
  simp [tabulate]

/-! Every buffer is leased from the runtime's ledger and then allocated, and an imported buffer is
charged to it. What the ledger answers depends on the frames the caller still holds, so each lease
and each charge is one request to the environment. -/

def zeros {σ : Type} (n : ℕ) : Exec Error σ Words := do
  .require (n≤2*maxLanes) .bounds
  .request
  return tabulate n fun _ => 0

def copy {σ : Type} (values : Words) (n : ℕ) : Exec Error σ Words := do
  .require (values.length=n) .shape
  let _ ← zeros n
  return values

def charge {σ : Type} : Exec Error σ Unit := .request

/-- The words a raw import copies. -/
def copyWords (values : Words) (n : ℕ) : Except Error Words :=
  if values.length≠n then .error .shape
  else if n>2*maxLanes then .error .bounds
  else .ok values

/-- One party's two components `(x_i, x_(i+1))`. -/
structure ReplicatedShare where
  operation : Operation
  party : Party
  first : Words
  second : Words
  deriving Inhabited, DecidableEq

namespace ReplicatedShare

def chargeTo {σ : Type} (_self : ReplicatedShare) : Exec Error σ Unit := do
  charge
  charge

def fromLocal (operation : Operation) (party : Party) (first second : Words) (limits : Limits) :
    Except Error ReplicatedShare := do
  let _ ← limits.admittedBytes operation.lanes
  if first.length≠operation.lanes ∨ second.length≠operation.lanes then .error .shape
  else do
    let first ← copyWords first operation.lanes
    let second ← copyWords second operation.lanes
    return ⟨operation,party,first,second⟩

end ReplicatedShare

inductive MaterialData
  | evaluator (mask output : Words)
  | helper (maskA maskB : Words) (split : Option Words) (outputA outputB : Words)

/-- One-use correlated randomness of one party. -/
structure LocalMaterial where
  operation : Operation
  party : Party
  data : MaterialData

namespace LocalMaterial

def chargeTo {σ : Type} (self : LocalMaterial) : Exec Error σ Unit :=
  match self.data with
  | .evaluator .. => do
    charge
    charge
  | .helper _ _ split _ _ => do
    charge
    charge
    charge
    charge
    if split.isSome then charge else pure ()

end LocalMaterial

inductive MessagePhase
  | multiply
  | booleanAnd
  | arithmeticToBoolean
  | booleanOtMask
  | booleanOtZero
  | booleanOtOne
  | booleanOtReshare
  | booleanPpaMask
  | booleanPpaReveal
  | booleanPpaRotate
  | maskedInput
  | correlation
  | reshare
  deriving Inhabited, DecidableEq

/-- The envelope of a frame: the source's `from` and `to` are `sender` and `recipient`. -/
structure Header where
  binding : BitVec 256
  sender : Party
  recipient : Party
  phase : MessagePhase
  deriving Inhabited

structure Message where
  header : Header
  words : Words
  deriving Inhabited

namespace Message

/-- The words a frame of a phase carries for an operation. -/
def expected (operation : Operation) (phase : MessagePhase) : ℕ :=
  operation.lanes*(if phase = .correlation then 2 else 1)

def validate (env : Platform) (self : Message) (operation : Operation) (sender recipient : Party)
    (phase : MessagePhase) : Except Error Unit :=
  if self.header.binding ≠ operation.digest env then .error .binding
  else if self.header.sender≠sender ∨ self.header.recipient≠recipient then .error .role
  else if self.header.phase≠phase then .error .phase
  else if self.words.length ≠ expected operation phase then .error .shape
  else .ok ()

lemma validate_mk (env : Platform) (operation : Operation) (sender recipient : Party)
    (phase : MessagePhase) (words : Words) (h : words.length = expected operation phase) :
    validate env ⟨⟨operation.digest env,sender,recipient,phase⟩,words⟩ operation sender recipient
      phase = .ok () := by
  simp [validate,h]

end Message

inductive Status
  | ready
  | awaitingOpen
  | awaitingReshare
  | complete
  | retired
  deriving DecidableEq

/-- The draws of `n` fresh words, one after the other. -/
def Entropy := ℕ → Except Error Word

def Entropy.fill (self : Entropy) (n : ℕ) : Except Error Words := (List.range n).mapM self

/-- The two frames a step may send. -/
abbrev Frames := Option Message × Option Message

inductive State
  | ready
  | opening (operation : Operation) (ownOpen outputComponent : Words)
  | resharing (operation : Operation) (ownReshare outputComponent : Words)
  | complete (output : ReplicatedShare)
  | retired
  deriving DecidableEq

structure PartyRuntime where
  context : Context
  party : Party
  limits : Limits
  nextSequence : ℕ
  state : State

def header (env : Platform) (operation : Operation) (sender recipient : Party)
    (phase : MessagePhase) : Header := ⟨operation.digest env,sender,recipient,phase⟩

/-- The other evaluator. -/
def Operation.peer (self : Operation) (party : Party) : Party :=
  if party=self.evaluatorA then self.evaluatorB else self.evaluatorA

namespace PartyRuntime

def status (self : PartyRuntime) : Status :=
  match self.state with
  | .ready => .ready
  | .opening .. => .awaitingOpen
  | .resharing .. => .awaitingReshare
  | .complete _ => .complete
  | .retired => .retired

def cancel (self : PartyRuntime) : PartyRuntime := { self with state := .retired }

def setState (state : State) : Exec Error PartyRuntime Unit :=
  .modify fun s => { s with state := state }

/-- `std::mem::replace(&mut self.state, State::Retired)`. -/
def takeState : Exec Error PartyRuntime State := do
  let s ← .read
  setState .retired
  return s.state

def consumeOrdinal (operation : Operation) : Exec Error PartyRuntime Unit := do
  let s ← .read
  .require (s.state = .ready) .phase
  .require (operation.context=s.context ∧ operation.sequence=s.nextSequence
    ∧ operation.sequence < s.limits.maxOperations) .binding
  let _ ← .ofExcept (s.limits.admittedBytes operation.lanes)
  .modify fun s => { s with nextSequence := s.nextSequence+1 }

/-- What an evaluator opens: its part of the recentred input under its mask. -/
def maskedInput (a : Bool) (operation : Operation) (input : ReplicatedShare) (mask : Words) :
    Words :=
  tabulate operation.lanes fun i =>
    let x := if a then lane input.first i+lane input.second i+(1 : Word) <<< 62
      else lane input.second i
    x+lane mask i

def beginEvaluator (env : Platform) (operation : Operation) (input : ReplicatedShare)
    (mask output : Words) : Exec Error PartyRuntime Frames := do
  let s ← .read
  let n := operation.lanes
  let _ ← zeros n
  let opening := maskedInput (s.party=operation.evaluatorA) operation input mask
  let words ← copy opening n
  setState (.opening operation opening output)
  return (some ⟨header env operation s.party (operation.peer s.party) .maskedInput,words⟩,none)

/-- The private split of the helper: `rb` first, `rc` second. -/
def takeSplit (entropy : Entropy) (split : Option Words) (n : ℕ) :
    Exec Error PartyRuntime Words :=
  match split with
  | some words => return words
  | none => do
    let _ ← zeros (2*n)
    .ofExcept (entropy.fill (2*n))

/-- The correction of the first evaluator: the top bit of the mask, then its shifted rest. -/
def correlationA (operation : Operation) (maskA maskB split : Words) : Words :=
  let n := operation.lanes
  tabulate (2*n) fun i =>
    if i<n then lane split i+((lane maskA i+lane maskB i) >>> 63)
    else lane split i
      +(((lane maskA (i-n)+lane maskB (i-n)) &&& lowMask 63) >>> operation.shift)

def correlationB (operation : Operation) (split : Words) : Words :=
  tabulate (2*operation.lanes) fun i => 0-lane split i

def beginHelper (env : Platform) (entropy : Entropy) (operation : Operation)
    (maskA maskB : Words) (split : Option Words) (outputA outputB : Words) :
    Exec Error PartyRuntime Frames := do
  let s ← .read
  let n := operation.lanes
  .require (s.party=operation.helper) .role
  let split ← takeSplit entropy split n
  let _ ← zeros (2*n)
  let cb := correlationB operation split
  let ca := correlationA operation maskA maskB split
  setState (.complete ⟨operation,s.party,outputB,outputA⟩)
  return (some ⟨header env operation s.party operation.evaluatorA .correlation,ca⟩,
    some ⟨header env operation s.party operation.evaluatorB .correlation,cb⟩)

def beginInner (env : Platform) (operation : Operation) (input : ReplicatedShare)
    (material : LocalMaterial) (entropy : Entropy) : Exec Error PartyRuntime Frames := do
  let s ← .read
  .require (s.state = .ready) (if s.status = .retired then .retired else .phase)
  .require (operation.context=s.context ∧ operation.sequence=s.nextSequence ∧ operation.sequence
    < s.limits.maxOperations ∧ input.operation=operation ∧ material.operation=operation) .binding
  .require (input.party=s.party ∧ material.party=s.party) .role
  .modify fun s => { s with nextSequence := s.nextSequence+1 }
  let _ ← .ofExcept (s.limits.admittedBytes operation.lanes)
  input.chargeTo
  material.chargeTo
  match material.data with
  | .evaluator mask output => beginEvaluator env operation input mask output
  | .helper maskA maskB split outputA outputB =>
    beginHelper env entropy operation maskA maskB split outputA outputB

def beginWithRandomness (env : Platform) (operation : Operation) (input : ReplicatedShare)
    (material : LocalMaterial) (entropy : Entropy) : Exec Error PartyRuntime Frames :=
  .checked cancel (beginInner env operation input material entropy)

/-- The masked input is public to the evaluators, so its sign is too: only `rb`, `rc` and the
output component enter the share as secrets. -/
def openLane (a : Bool) (shift : ℕ) (c rb rc output : Word) : Word :=
  let msb := c >>> 63
  let b := rb+(if a then msb else 0)-msb*rb*2
  let y := (b <<< (63-shift))-rc
  let y := if a then y+((c &&& lowMask 63) >>> shift)-((1 : Word) <<< (62-shift)) else y
  y-output

def openShare (a : Bool) (operation : Operation) (ownOpen peerOpen correlation output : Words) :
    Words :=
  let n := operation.lanes
  tabulate n fun i => openLane a operation.shift (lane ownOpen i+lane peerOpen i)
    (lane correlation i) (lane correlation (n+i)) (lane output i)

def openInner (env : Platform) (peerOpen correlation : Message) :
    Exec Error PartyRuntime Message := do
  match ← takeState with
  | .opening operation ownOpen outputComponent => do
    let s ← .read
    .ofExcept (peerOpen.validate env operation (operation.peer s.party) s.party .maskedInput)
    .ofExcept (correlation.validate env operation operation.helper s.party .correlation)
    charge
    charge
    let n := operation.lanes
    let _ ← zeros n
    let share := openShare (s.party=operation.evaluatorA) operation ownOpen peerOpen.words
      correlation.words outputComponent
    let words ← copy share n
    setState (.resharing operation share outputComponent)
    return ⟨header env operation s.party (operation.peer s.party) .reshare,words⟩
  | _ => .fail .phase

/-- The source's `open`. -/
def openRound (env : Platform) (peerOpen correlation : Message) :
    Exec Error PartyRuntime Message :=
  .checked cancel (openInner env peerOpen correlation)

def reshareInner (env : Platform) (peerShare : Message) : Exec Error PartyRuntime Unit := do
  match ← takeState with
  | .resharing operation ownReshare outputComponent => do
    let s ← .read
    .ofExcept (peerShare.validate env operation (operation.peer s.party) s.party .reshare)
    charge
    let total := tabulate operation.lanes fun i => lane ownReshare i+lane peerShare.words i
    setState (.complete (if s.party = operation.evaluatorA
      then ⟨operation,s.party,outputComponent,total⟩
      else ⟨operation,s.party,total,outputComponent⟩))
  | _ => .fail .phase

def reshare (env : Platform) (peerShare : Message) : Exec Error PartyRuntime Unit :=
  .checked cancel (reshareInner env peerShare)

def takeOutput : Exec Error PartyRuntime ReplicatedShare := do
  match ← takeState with
  | .complete output => do
    setState .ready
    return output
  | _ => .fail .phase

end PartyRuntime

end Pllm.Puma
