import Pllm.Puma.Prss

/-! Products of replicated XOR shares: one typed fill of each adjacent key, the local cross terms and
one rotation. -/
namespace Pllm.Puma.Multiply
open Pllm.Lib

inductive Operand
  | left
  | right

/-- The owner of the compound operations: what a caller may see of its phase. -/
inductive Status
  | ready
  | planned
  | awaitingRotate
  | awaitingOpen
  | awaitingReshare
  | complete
  | retired
  deriving DecidableEq

namespace Boolean

def profile : String := "puma.spu-a42c261.and-bb.typed.replicated3.v1"

def wordBytes (bits : ℕ) : Except Error ℕ :=
  if bits≤8 then .ok 1
  else if bits≤16 then .ok 2
  else if bits≤32 then .ok 4
  else if bits≤64 then .ok 8
  else .error .bounds

/-- `u64::MAX >> (64 - width)`; the shift amount wraps at the width zero. -/
def widthMask (width : ℕ) : Word := BitVec.allOnes 64 >>> ((64-width)%64)

def wordMask (bytes : ℕ) : Word := widthMask (8*bytes)

/-- No word has a bit outside the mask. -/
def within (words : Words) (mask : Word) : Bool := words.all fun v => v &&& ~~~mask==0

/-- A pair of XOR components with the nominal width of the value. -/
structure Share where
  value : ReplicatedShare
  bits : ℕ
  deriving Inhabited

namespace Share

def first (self : Share) : Words := self.value.first
def second (self : Share) : Words := self.value.second
def party (self : Share) : Party := self.value.party
def binding (env : Platform) (self : Share) : BitVec 256 := self.value.operation.digest env

/-- A loop over both components. -/
def fillWith (self : Share) (n : ℕ) (first second : ℕ → Word) : Share :=
  { self with value := { self.value with first := tabulate n first, second := tabulate n second } }

end Share

structure Plan where
  operation : Operation
  leftBits : ℕ
  rightBits : ℕ
  bytes : ℕ
  pairStart : ℕ
  admittedBytes : ℕ
  compact : Bool
  deriving Inhabited

namespace Plan

def toCompact (env : Platform) (self : Plan) : Plan :=
  let consumer := env.sha256
    (ascii "pllm.puma.boolean.nominal-domain.compact.v1" ++ leBytes 32 (self.operation.digest env))
  { self with operation := { self.operation with consumer := some consumer }, compact := true }

def outputBits (self : Plan) : ℕ := max self.leftBits self.rightBits

def outputMask (self : Plan) : Word :=
  if self.compact then widthMask self.outputBits else wordMask self.bytes

def digest (env : Platform) (self : Plan) : BitVec 256 := self.operation.digest env
def lanes (self : Plan) : ℕ := self.operation.lanes

def operand (env : Platform) (self : Plan) (operand : Operand) : Operation × ℕ :=
  let (index,bits) := match operand with
    | .left => (0,self.leftBits)
    | .right => (1,self.rightBits)
  let consumer := env.sha256 (ascii "pllm.puma.boolean-operand.v1"
    ++ leBytes 32 (self.digest env)++u8Bytes index++u8Bytes bits)
  ({ self.operation with consumer := some consumer },bits)

/-- A substep of a circuit: the ordinal of its parent, but a binding of its own. -/
def nested (env : Platform) (parent : Operation) (setup : BitVec 256) (step lanes bits : ℕ)
    (pairStart : ℕ) (limits : Limits) : Except Error Plan := do
  let bytes ← wordBytes bits
  let operation ← Operation.new parent.context parent.sequence .p0 lanes 1 limits
  let consumer := env.sha256 (ascii profile++ascii prssProfile++leBytes 32 setup
    ++ ascii "bound-circuit-gate" ++ leBytes 32 (parent.digest env)++u8Bytes step++u8Bytes bits
    ++ u8Bytes bytes++u64Bytes pairStart)
  let admittedBytes ← limits.admittedBytes lanes
  return ⟨{ operation with consumer := some consumer },bits,bits,bytes,pairStart,admittedBytes,false⟩

end Plan

structure Gate where
  plan : Plan
  product : Words

def validateOperands (env : Platform) (source : SourceParty) (plan : Plan) (left right : Share) :
    Except Error Unit := do
  let validate (value : Share) (operand : Operand) : Except Error Unit :=
    let (op,bits) := plan.operand env operand
    if value.value.operation≠op ∨ value.bits≠bits then .error .binding
    else if value.party≠source.party then .error .role
    else .ok ()
  validate left .left
  validate right .right
  if source.cursors.pairBlocks≠plan.pairStart then .error .binding else return ()

/-- The local cross terms under the zero share; a compact plan projects them. -/
def crossProduct (plan : Plan) (own adjacent : Words) (left right : Share) : Words :=
  tabulate plan.lanes fun i =>
    let product := lane own i ^^^ lane adjacent i
      ^^^ (lane left.first i &&& lane right.first i)
      ^^^ (lane left.first i &&& lane right.second i)
      ^^^ (lane left.second i &&& lane right.first i)
    if plan.compact then product &&& plan.outputMask else product

def issue (env : Platform) (plan : Plan) (left right : Share) :
    Exec Error SourceParty (Gate × Message) := do
  let s ← .read
  .ofExcept (validateOperands env s plan left right)
  let n := plan.lanes
  let q ← .ofExcept (typedBlocks n plan.bytes)
  let pairEnd ← .ofExcept (checkedAdd plan.pairStart q)
  let work ← .ofExcept (s.work (2*q))
  SourceParty.setCursors fun c => { c with pairBlocks := pairEnd, aesWork := work }
  left.value.chargeTo
  right.value.chargeTo
  let seeds ← .expect s.seeds .retired
  let next ← .expect seeds.next .phase
  let _ ← zeros n
  let _ ← zeros n
  let own ← SourceParty.fill env .own seeds.own plan.pairStart n plan.bytes
  let adjacent ← SourceParty.fill env .next next plan.pairStart n plan.bytes
  let product := crossProduct plan own adjacent left right
  let words ← copy product n
  return (⟨plan,product⟩,⟨⟨plan.digest env,s.party,s.party.next.next,.booleanAnd⟩,words⟩)

def Gate.receive (env : Platform) (self : Gate) (message : Message) :
    Exec Error SourceParty Share := do
  let s ← .read
  .ofExcept (message.validate env self.plan.operation s.party.next s.party .booleanAnd)
  .require (within message.words self.plan.outputMask) .bounds
  charge
  return ⟨⟨self.plan.operation,s.party,self.product,message.words⟩,self.plan.outputBits⟩

inductive State
  | planned (plan : Plan)
  | rotating (gate : Gate)
  | complete (share : Share)

def State.status : State → Status
  | .planned _ => .planned
  | .rotating _ => .awaitingRotate
  | .complete _ => .complete

end Boolean

end Pllm.Puma.Multiply
