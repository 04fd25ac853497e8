import Pllm.Puma.Boolean

/-! Arithmetic-to-Boolean conversion: a masked split of the additive components into two XOR
shares, then a public carry circuit of Boolean gates, shifted or shrinking. -/
namespace Pllm.Puma.Multiply.Conversion
open Pllm.Lib Boolean

def profile : String := "puma.spu-a42c261.a2b-msb.ring64.replicated3.v1"
def compactMsbProfile : String := "puma.signed-bucket-msb.compact.replicated3.v1"

inductive Kind
  | bits
  | mostSignificantBit
  | lowBits (width : ℕ)
  | compactMostSignificantBit (width : ℕ)

namespace Kind

def width : Kind → ℕ
  | lowBits width => width
  | compactMostSignificantBit width => width
  | _ => 64

/-- `u8::BITS - (bits - 1).leading_zeros()` is the bit length of `bits - 1`. -/
def rounds : Kind → ℕ
  | lowBits width => Nat.size (width-1)
  | compactMostSignificantBit width => Nat.log2 width
  | _ => 6

def sign : Kind → Bool
  | mostSignificantBit => true
  | compactMostSignificantBit _ => true
  | _ => false

def compact : Kind → Bool
  | lowBits _ => true
  | compactMostSignificantBit _ => true
  | _ => false

/-- The nominal width of the gates of a later round. -/
def roundBits (self : Kind) (round : ℕ) : ℕ :=
  match self with
  | bits => 64
  | mostSignificantBit => 64 >>> round
  | compactMostSignificantBit width => width >>> round
  | lowBits width => width

end Kind

def backing (bits : ℕ) : ℕ :=
  if bits≤8 then 1 else if bits≤16 then 2 else if bits≤32 then 4 else 8

structure Plan where
  operation : Operation
  setup : BitVec 256
  kind : Kind
  pairStart : ℕ
  gateStart : ℕ
  pairEnd : ℕ
  admittedBytes : ℕ
  limits : Limits

namespace Plan

def digest (env : Platform) (self : Plan) : BitVec 256 := self.operation.digest env
def lanes (self : Plan) : ℕ := self.operation.lanes

def inputBinding (env : Platform) (self : Plan) : Operation :=
  { self.operation with
    consumer := some (env.sha256
      (ascii "pllm.puma.conversion-input.v1" ++ leBytes 32 (self.digest env))) }

/-- Lanes and nominal width of the gate of a round. -/
def geometry (self : Plan) (round : ℕ) : ℕ × ℕ :=
  if round=0 then (self.lanes,self.kind.width) else (2*self.lanes,self.kind.roundBits round)

def gate (env : Platform) (self : Plan) (round : ℕ) : Except Error Boolean.Plan := do
  if round>self.kind.rounds then .error .bounds
  else do
    let start ← (List.range round).foldlM (fun start r => do
      let (lanes,bits) := self.geometry r
      return start+(← typedBlocks lanes (backing bits))) self.gateStart
    let (lanes,bits) := self.geometry round
    let plan ← Boolean.Plan.nested env self.operation self.setup round lanes bits start self.limits
    return if self.kind.compact then plan.toCompact env else plan

def nestedAdder (operation : Operation) (setup : BitVec 256) (gateStart : ℕ) (limits : Limits) :
    Except Error Plan := do
  let n := operation.lanes
  let _ ← limits.admittedBytes (2*n)
  let single ← typedBlocks n 8
  let double ← typedBlocks (2*n) 8
  let pairEnd ← checkedAdd gateStart (single+6*double)
  return ⟨operation,setup,.bits,gateStart,gateStart,pairEnd,fixedReserveBytes+256*n,limits⟩

end Plan

structure Work where
  plan : Plan
  initial : Share
  propagate : Share
  generate : Option Share
  gate : Gate
  round : ℕ

inductive State
  | planned (plan : Plan)
  | split (plan : Plan) (first : Words) (other : ReplicatedShare)
  | circuit (work : Work)
  | complete (share : Share)

def State.status : State → Status
  | .planned _ => .planned
  | .split .. => .awaitingRotate
  | .circuit _ => .awaitingRotate
  | .complete _ => .complete

/-- The even bits of every block of `bits` bits, then its odd bits. -/
def reorder (value : Word) (bits : ℕ) : Word :=
  (List.range' 0 ((8*backing bits+bits-1)/bits) bits).foldl (fun reordered base =>
    (List.range bits).foldl (fun reordered i =>
      reordered ||| ((value >>> (base+i)) &&& 1) <<< (base+i/2+(i%2)*(bits/2))) reordered) 0

/-- The even and the odd bits; the odd half keeps the permuted padding above it. -/
def scatter (value : Word) (bits : ℕ) : Word × Word :=
  let reordered := reorder value bits
  let half := bits/2
  (reordered &&& ((1 : Word) <<< half-1), (reordered >>> half) &&& wordMask (backing half))

/-- Two fresh buffers. -/
def pair (operation : Operation) (party : Party) (bits : ℕ) : Exec Error SourceParty Share := do
  let first ← zeros operation.lanes
  let second ← zeros operation.lanes
  return ⟨⟨operation,party,first,second⟩,bits⟩

def checkInput (source : SourceParty) (plan : Plan) (value : Share) : Except Error Unit :=
  if value.bits≠plan.kind.width ∨ value.first.length≠plan.lanes
      ∨ value.second.length≠plan.lanes then .error .shape
  else if value.party≠source.party ∨ value.value.operation.context≠source.context then
    .error .binding
  else .ok ()

/-- The sum bit that no carry has reached yet. -/
def initialLane (kind : Kind) (xor : Word) : Word :=
  if kind.sign then xor >>> (kind.width-1) else xor

def start (env : Platform) (plan : Plan) (left right : Share) :
    Exec Error SourceParty (Work × Message) := do
  let s ← .read
  .ofExcept (checkInput s plan left)
  .ofExcept (checkInput s plan right)
  let gatePlan ← .ofExcept (plan.gate env 0)
  let left := { left with
    value := { left.value with operation := (gatePlan.operand env .left).1 } }
  let right := { right with
    value := { right.value with operation := (gatePlan.operand env .right).1 } }
  let propagate ← pair plan.operation s.party plan.kind.width
  let initial ← pair plan.operation s.party (if plan.kind.sign then 1 else plan.kind.width)
  let n := plan.lanes
  let propagate := propagate.fillWith n
    (fun i => lane left.first i ^^^ lane right.first i)
    (fun i => lane left.second i ^^^ lane right.second i)
  let initial := initial.fillWith n
    (fun i => initialLane plan.kind (lane left.first i ^^^ lane right.first i))
    (fun i => initialLane plan.kind (lane left.second i ^^^ lane right.second i))
  let (gate,outgoing) ← issue env gatePlan left right
  return (⟨plan,initial,propagate,none,gate,0⟩,outgoing)

/-- Add the carries to the initial bits. -/
def finishLane (kind : Kind) (initial carry : Word) : Word :=
  let sum := initial ^^^ (if kind.sign then carry else carry <<< 1)
  match kind with
  | .lowBits width => sum &&& widthMask width
  | .compactMostSignificantBit _ => sum &&& 1
  | _ => sum

/-- The operands of the next gate from one lane: left and right of the propagate half, left and
right of the generate half, and the generate bits that stay. -/
def nextLane (kind : Kind) (round propagateBits generateBits : ℕ) (p g : Word) :
    (Word × Word) × (Word × Word) × Word :=
  if kind.sign then
    -- the odd 63-bit carry chain is padded by one bit
    let p := if round=0 then p <<< 1 else p
    let g := if round=0 then g <<< 1 else g
    let (p0,p1) := scatter p propagateBits
    let (g0,g1) := scatter g generateBits
    ((p0,p1),(g0,p1),g1)
  else
    let shift := 1 <<< round
    ((p,p <<< shift),(p,g <<< shift),g)

def advance (env : Platform) (work : Work) (message : Message) :
    Exec Error SourceParty (State × Option Message) := do
  let plan := work.plan
  let round := work.round
  let output ← work.gate.receive env message
  let n := plan.lanes
  let (propagate,generate) ← (if round = 0 then return (work.propagate,output)
    else do
      let generate ← .expect work.generate .phase
      let bits := (plan.geometry round).2
      return ({ work.propagate.fillWith n (lane output.first) (lane output.second) with
          bits := bits },
        { generate.fillWith n
          (fun i => lane generate.first i ^^^ lane output.first (n+i))
          (fun i => lane generate.second i ^^^ lane output.second (n+i)) with bits := bits }) :
    Exec Error SourceParty (Share × Share))
  if round=plan.kind.rounds then do
    let initial := work.initial.fillWith n
      (fun i => finishLane plan.kind (lane work.initial.first i) (lane generate.first i))
      (fun i => finishLane plan.kind (lane work.initial.second i) (lane generate.second i))
    let s ← .read
    .require (s.cursors.pairBlocks=plan.pairEnd) .binding
    return (.complete { initial with value := { initial.value with operation := plan.operation } },
      none)
  else do
    let nextRound := round+1
    let gatePlan ← .ofExcept (plan.gate env nextRound)
    let s ← .read
    let left ← pair (gatePlan.operand env .left).1 s.party gatePlan.outputBits
    let right ← pair (gatePlan.operand env .right).1 s.party gatePlan.outputBits
    let step (p g : Word) := nextLane plan.kind round propagate.bits generate.bits p g
    let first (i : ℕ) := step (lane propagate.first i) (lane generate.first i)
    let second (i : ℕ) := step (lane propagate.second i) (lane generate.second i)
    let left := left.fillWith (2*n)
      (fun i => if i<n then (first i).1.1 else (first (i-n)).2.1.1)
      (fun i => if i<n then (second i).1.1 else (second (i-n)).2.1.1)
    let right := right.fillWith (2*n)
      (fun i => if i<n then (first i).1.2 else (first (i-n)).2.1.2)
      (fun i => if i<n then (second i).1.2 else (second (i-n)).2.1.2)
    let generate := generate.fillWith n (fun i => (first i).2.2) (fun i => (second i).2.2)
    let (gate,outgoing) ← issue env gatePlan left right
    return (.circuit ⟨plan,work.initial,propagate,some generate,gate,nextRound⟩,some outgoing)

end Pllm.Puma.Multiply.Conversion
