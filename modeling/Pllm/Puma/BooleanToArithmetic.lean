import Pllm.Puma.Conversion

/-! Boolean-to-arithmetic conversion: three-party oblivious transfer of the bits up to eight bits,
a masked reveal behind the carry circuit above. -/
namespace Pllm.Puma.Multiply.BooleanToArithmetic
open Pllm.Lib Boolean

def profile : String := "puma.spu-a42c261.b2a-by-ot.ring64.replicated3.v1"
def ppaProfile : String := "puma.spu-a42c261.b2a-by-ppa.ring64.replicated3.v1"

structure Plan where
  operation : Operation
  inputBinding : BitVec 256
  bits : ℕ
  pairStart : ℕ
  pairEnd : ℕ
  admittedBytes : ℕ
  setup : BitVec 256
  limits : Limits

namespace Plan

def digest (env : Platform) (self : Plan) : BitVec 256 := self.operation.digest env
def lanes (self : Plan) : ℕ := self.operation.lanes
def helper (self : Plan) : Party := self.operation.pivot
def receiver (self : Plan) : Party := self.helper.next
def sender (self : Plan) : Party := self.receiver.next
def expanded (self : Plan) : ℕ := self.lanes*self.bits

def messageOperation (env : Platform) (self : Plan) (phase : MessagePhase) :
    Except Error Operation :=
  if self.bits=0 then .error .phase
  else do
    let (tag,lanes) ← (match phase with
      | .booleanOtMask => .ok (0,self.expanded)
      | .booleanOtZero => .ok (1,self.expanded)
      | .booleanOtOne => .ok (2,self.expanded)
      | .booleanOtReshare => .ok (3,self.lanes)
      | _ => .error .phase : Except Error (ℕ × ℕ))
    let consumer := env.sha256
      (ascii "pllm.puma.b2a-message.v1" ++ leBytes 32 (self.digest env)++u8Bytes tag)
    return { self.operation with lanes := lanes, consumer := some consumer }

def endpoints (self : Plan) (phase : MessagePhase) : Except Error (Party × Party) :=
  match phase with
  | .booleanOtMask => .ok (self.helper,self.receiver)
  | .booleanOtZero => .ok (self.sender,self.receiver)
  | .booleanOtOne => .ok (self.sender,self.receiver)
  | .booleanOtReshare => .ok (self.receiver,self.helper)
  | _ => .error .phase

def frame (env : Platform) (self : Plan) (phase : MessagePhase) (words : Words) :
    Except Error Message := do
  let operation ← self.messageOperation env phase
  if words.length≠operation.lanes then .error .shape
  else do
    let (sender,recipient) ← self.endpoints phase
    return ⟨⟨operation.digest env,sender,recipient,phase⟩,words⟩

def accept (env : Platform) (self : Plan) (phase : MessagePhase) (frame : Message) :
    Exec Error SourceParty Words := do
  let (sender,recipient) ← .ofExcept (self.endpoints phase)
  let operation ← .ofExcept (self.messageOperation env phase)
  .ofExcept (frame.validate env operation sender recipient phase)
  charge
  return frame.words

end Plan

namespace Ppa

/-- The masked reveal: `Split` adds the mask's sharing, `Carry` runs the adder, and role zero opens
the sum before the additive components rotate. -/
inductive State
  | split (plan : Plan) (random first : Words) (input : Share)
  | carry (plan : Plan) (random : Words) (work : Conversion.Work)
  | reveal (plan : Plan) (first second : Words)
  | rotate (plan : Plan) (first : Words)

def State.status : State → Status
  | .reveal .. => .awaitingOpen
  | .rotate .. => .awaitingReshare
  | _ => .awaitingRotate

end Ppa

inductive State
  | planned (plan : Plan)
  | helper (plan : Plan) (first : Words)
  | receiver (plan : Plan) (choices second : Words)
  | complete (output : ReplicatedShare)
  | ppa (state : Ppa.State)

def State.status : State → Status
  | .planned _ => .planned
  | .helper .. => .awaitingReshare
  | .receiver .. => .awaitingOpen
  | .complete _ => .complete
  | .ppa state => state.status

/-- The selection bit is zero or one. -/
def choose (zero one bit : Word) : Word := zero ^^^ ((zero ^^^ one) &&& (0-bit))

/-- The wrapping sum of the shifted bit words of a lane. -/
def composeLane (f : ℕ → Word) (bits : ℕ) : Word :=
  (List.range bits).foldl (fun value bit => value+f bit <<< bit) 0

def compose (words : Words) (plan : Plan) : Exec Error SourceParty Words := do
  let _ ← zeros plan.lanes
  return tabulate plan.lanes fun lane' =>
    composeLane (fun bit => lane words (lane'*plan.bits+bit)) plan.bits

namespace Ppa

def carry (plan : Plan) : Except Error Conversion.Plan := do
  let q ← blocks plan.lanes
  Conversion.Plan.nestedAdder plan.operation plan.setup (plan.pairStart+2*q) plan.limits

def operation (env : Platform) (plan : Plan) (phase : MessagePhase) : Except Error Operation := do
  let tag ← (match phase with
    | .booleanPpaMask => .ok 0
    | .booleanPpaReveal => .ok 1
    | .booleanPpaRotate => .ok 2
    | _ => .error .phase : Except Error ℕ)
  let consumer := env.sha256
    (ascii "pllm.puma.b2a-ppa-message.v1" ++ leBytes 32 (plan.digest env)++u8Bytes tag)
  return { plan.operation with consumer := some consumer }

def destination (phase : MessagePhase) (sender : Party) : Except Error Party :=
  match phase with
  | .booleanPpaReveal => if sender = .p2 then .ok .p0 else .error .role
  | .booleanPpaMask => .ok sender.next.next
  | .booleanPpaRotate => .ok sender.next.next
  | _ => .error .role

def frame (env : Platform) (plan : Plan) (phase : MessagePhase) (sender : Party) (words : Words) :
    Except Error Message :=
  if words.length≠plan.lanes then .error .shape
  else do
    let operation ← operation env plan phase
    let recipient ← destination phase sender
    return ⟨⟨operation.digest env,sender,recipient,phase⟩,words⟩

def accept (env : Platform) (plan : Plan) (phase : MessagePhase) (message : Message) :
    Exec Error SourceParty Words := do
  let s ← .read
  let sender := if phase = .booleanPpaReveal then .p2 else s.party.next
  let recipient ← .ofExcept (destination phase sender)
  .require (recipient=s.party) .role
  let operation ← .ofExcept (operation env plan phase)
  .ofExcept (message.validate env operation sender s.party phase)
  charge
  return message.words

def issue (env : Platform) (plan : Plan) (input : Share) :
    Exec Error SourceParty (BooleanToArithmetic.State × Frames) := do
  let s ← .read
  let n := plan.lanes
  let q ← .ofExcept (blocks n)
  let work ← .ofExcept (s.work (4*q))
  SourceParty.setCursors fun c => { c with pairBlocks := plan.pairStart+2*q, aesWork := work }
  let seeds ← .expect s.seeds .retired
  let adjacent ← .expect seeds.next .phase
  let _ ← zeros n
  let _ ← zeros n
  let _ ← zeros n
  let _ ← zeros n
  let random ← SourceParty.fill env .own seeds.own plan.pairStart n 8
  let nextRandom ← SourceParty.fill env .next adjacent plan.pairStart n 8
  let zero ← SourceParty.fill env .own seeds.own (plan.pairStart+q) n 8
  let nextZero ← SourceParty.fill env .next adjacent (plan.pairStart+q) n 8
  let first := tabulate n fun i =>
    let masked := lane zero i ^^^ lane nextZero i
    if s.party = .p1 then masked ^^^ (lane random i+lane nextRandom i) else masked
  let words ← copy first n
  let message ← .ofExcept (frame env plan .booleanPpaMask s.party words)
  return (.ppa (.split plan random first { input with bits := 64 }),(some message,none))

/-- Role zero waits for the missing component of the sum; the others share their negated masks. -/
def afterCarry (env : Platform) (plan : Plan) (random : Words) (output : Share) :
    Exec Error SourceParty (BooleanToArithmetic.State × Frames) := do
  let s ← .read
  if s.party = .p0 then
    return (.ppa (.reveal plan output.first output.second),(none,none))
  else do
    let reveal ← (if s.party = .p2 then do
        let message ← .ofExcept (frame env plan .booleanPpaReveal s.party output.first)
        return some message
      else return none : Exec Error SourceParty (Option Message))
    let negated := tabulate plan.lanes fun i => -lane random i
    let words ← copy negated plan.lanes
    let rotate ← .ofExcept (frame env plan .booleanPpaRotate s.party words)
    return (.ppa (.rotate plan negated),(reveal,some rotate))

def advance (env : Platform) (state : State) (message : Message) :
    Exec Error SourceParty (BooleanToArithmetic.State × Frames) :=
  match state with
  | .split plan random first input => do
    let second ← accept env plan .booleanPpaMask message
    let s ← .read
    let rhs : Share := ⟨⟨plan.operation,s.party,first,second⟩,64⟩
    let carry ← .ofExcept (carry plan)
    let (work,outgoing) ← Conversion.start env carry input rhs
    return (.ppa (.carry plan random work),(some outgoing,none))
  | .carry plan random work => do
    let (next,outgoing) ← Conversion.advance env work message
    match next with
    | .circuit work => return (.ppa (.carry plan random work),(outgoing,none))
    | .complete output => do
      let s ← .read
      .require (outgoing=none ∧ s.cursors.pairBlocks=plan.pairEnd) .binding
      afterCarry env plan random output
    | _ => .fail .phase
  | .reveal plan first second => do
    let received ← accept env plan .booleanPpaReveal message
    let s ← .read
    let opened := tabulate plan.lanes fun i =>
      lane first i ^^^ lane second i ^^^ lane received i
    let words ← copy opened plan.lanes
    let reply ← .ofExcept (frame env plan .booleanPpaRotate s.party words)
    return (.ppa (.rotate plan opened),(some reply,none))
  | .rotate plan first => do
    let second ← accept env plan .booleanPpaRotate message
    let s ← .read
    return (.complete ⟨plan.operation,s.party,first,second⟩,(none,none))

end Ppa

/-- The helper masks the message its choice bit selects. -/
def issueHelper (env : Platform) (plan : Plan) (q : ℕ) (seeds : LocalSeeds) (r0 : Words)
    (input : Share) : Exec Error SourceParty (State × Frames) := do
  let first ← compose r0 plan
  let _ ← zeros plan.expanded
  let _ ← zeros plan.expanded
  let m0 ← SourceParty.fill env .own seeds.own (plan.pairStart+q) plan.expanded 8
  let m1 ← SourceParty.fill env .own seeds.own (plan.pairStart+2*q) plan.expanded 8
  let chosen := tabulate plan.expanded fun i =>
    choose (lane m0 i) (lane m1 i) ((lane input.second (i/plan.bits) >>> (i%plan.bits)) &&& 1)
  let message ← .ofExcept (plan.frame env .booleanOtMask chosen)
  return (.helper plan first,(some message,none))

/-- The sender offers its bit and the complement, both under the random sharing. -/
def issueSender (env : Platform) (plan : Plan) (q : ℕ) (next : Block) (r0 r1 : Words)
    (input : Share) : Exec Error SourceParty (State × Frames) := do
  let s ← .read
  let first ← compose r0 plan
  let second ← compose r1 plan
  let value (i : ℕ) := ((lane input.first (i/plan.bits) ^^^ lane input.second (i/plan.bits))
    >>> (i%plan.bits)) &&& 1
  let _ ← zeros plan.expanded
  let mask ← SourceParty.fill env .next next (plan.pairStart+q) plan.expanded 8
  let zero := tabulate plan.expanded fun i => (value i-(lane r0 i+lane r1 i)) ^^^ lane mask i
  let mask ← SourceParty.fill env .next next (plan.pairStart+2*q) plan.expanded 8
  let one := tabulate plan.expanded fun i =>
    ((value i ^^^ 1)-(lane r0 i+lane r1 i)) ^^^ lane mask i
  let m0 ← .ofExcept (plan.frame env .booleanOtZero zero)
  let m1 ← .ofExcept (plan.frame env .booleanOtOne one)
  return (.complete ⟨plan.operation,s.party,first,second⟩,(some m0,some m1))

def issue (env : Platform) (plan : Plan) (input : Share) :
    Exec Error SourceParty (State × Frames) := do
  if plan.bits>8 then Ppa.issue env plan input
  else do
    let s ← .read
    if plan.bits=0 then do
      let first ← zeros plan.lanes
      let second ← zeros plan.lanes
      return (.complete ⟨plan.operation,s.party,first,second⟩,(none,none))
    else do
      let q ← .ofExcept (blocks plan.expanded)
      let work ← .ofExcept (s.work (if s.party = plan.receiver then 2*q else 4*q))
      SourceParty.setCursors fun c => { c with pairBlocks := plan.pairEnd, aesWork := work }
      let seeds ← .expect s.seeds .retired
      let next ← .expect seeds.next .phase
      let _ ← zeros plan.expanded
      let _ ← zeros plan.expanded
      let r0 ← SourceParty.fill env .own seeds.own plan.pairStart plan.expanded 8
      let r1 ← SourceParty.fill env .next next plan.pairStart plan.expanded 8
      if s.party=plan.helper then issueHelper env plan q seeds r0 input
      else if s.party=plan.receiver then do
        let second ← compose r1 plan
        return (.receiver plan input.first second,(none,none))
      else issueSender env plan q next r0 r1 input

/-- The receiver's sum of the transferred words of a lane. -/
def receivedLane (plan : Plan) (m0 m1 mc choices : Words) (i : ℕ) : Word :=
  composeLane (fun bit =>
    let j := i*plan.bits+bit
    choose (lane m0 j) (lane m1 j) ((lane choices i >>> bit) &&& 1) ^^^ lane mc j) plan.bits

end Pllm.Puma.Multiply.BooleanToArithmetic
