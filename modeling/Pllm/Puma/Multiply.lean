import Pllm.Puma.BooleanToArithmetic

/-! The compound owner: one phase, one source and one ordinal for products, truncations, Boolean
gates and conversions. -/
namespace Pllm.Puma.Multiply
open Pllm.Lib

def profile : String := "puma.spu-a42c261.mul-aa-truncapr18.ring64.quarter-gap.replicated3.v1"
def matmulProfile : String :=
  "puma.spu-a42c261.matmul-aa-truncapr18.ring64.quarter-gap.replicated3.v1"
def numericProfile : String := "puma.source-derived-q18.v1"
def rawProductProfile : String := "puma.spu-a42c261.mul-aa.ring64.replicated3.v1"
def rawMatmulProfile : String := "puma.matmul-aa.raw-ring64.replicated3.v1"
def fractionBits : ℕ := 18

/-- A count of elements: positive and within the lane ceiling. -/
def Countable (n : ℕ) : Prop := 1≤n ∧ n ≤ maxLanes

instance (n : ℕ) : Decidable (Countable n) := inferInstanceAs (Decidable (_ ∧ _))

/-- Row-major `(rows × inner) · (inner × columns)`. -/
structure MatrixShape where
  rows : ℕ
  inner : ℕ
  columns : ℕ
  left_countable : Countable (rows*inner)
  right_countable : Countable (inner*columns)
  output_countable : Countable (rows*columns)
  deriving DecidableEq

namespace MatrixShape

def leftElements (self : MatrixShape) : ℕ := self.rows*self.inner
def rightElements (self : MatrixShape) : ℕ := self.inner*self.columns
def outputElements (self : MatrixShape) : ℕ := self.rows*self.columns

end MatrixShape

inductive Product
  | elementwise
  | matrix (shape : MatrixShape)
  deriving Inhabited, DecidableEq

/-- Inclusive bounds that fit a signed word. -/
structure Interval where
  lower : ℤ
  upper : ℤ
  lower_le_upper : lower ≤ upper
  le_lower : -2^63 ≤ lower
  upper_lt : upper<2^63
  deriving DecidableEq

namespace Interval

def new (lower upper : ℤ) : Except Error Interval :=
  if h : lower ≤ upper ∧ -2^63 ≤ lower ∧ upper<2^63 then .ok ⟨lower,upper,h.1,h.2.1,h.2.2⟩
  else .error .bounds

def corners (self : Interval) : List ℤ := [self.lower,self.upper]

end Interval

structure InputBounds where
  left : Interval
  right : Interval

/-- `i128::checked_mul`. -/
def checkedMul (a b : ℤ) : Except Error ℤ :=
  if -2^127 ≤ a*b ∧ a*b<2^127 then .ok (a*b) else .error .bounds

/-- The bounds of a complete dot product of `terms` terms. -/
def InputBounds.dotProduct (self : InputBounds) (terms : ℕ) : Except Error Interval := do
  if terms=0 ∨ terms>maxLanes then .error .bounds
  else do
    let products ← (self.left.corners.flatMap fun x => self.right.corners.map fun y => (x,y)).mapM
      fun (x,y) => do checkedMul (← checkedMul x y) terms
    let lower := products.foldl min (2^127-1)
    let upper := products.foldl max (-2^127)
    if lower < inputMin ∨ upper≥inputMaxExclusive then .error .bounds
    else Interval.new lower upper

/-- The raw product has to fit a signed word; its corners are multiplied in `i128`. -/
def InputBounds.rawProduct (self : InputBounds) (terms : ℕ) : Except Error Unit :=
  if (self.left.corners.all fun x => self.right.corners.all fun y =>
      let product := Int.bmod (x*y*terms) (2^128)
      decide (-2^63 ≤ product ∧ product<2^63)) then .ok () else .error .bounds

/-- All outputs a truncation may have. -/
def rescaledBounds (bounds : Interval) (shift : ℕ) : Except Error Interval :=
  if ¬(1 ≤ shift ∧ shift≤62) ∨ bounds.lower < inputMin ∨ bounds.upper≥inputMaxExclusive then
    .error .bounds
  else Interval.new (bounds.lower/2^shift)
    (bounds.upper/2^shift+(if bounds.upper%2^shift ≠ 0 then 1 else 0))

structure Plan where
  input : Operation
  zeroStart : ℕ
  product : Product
  workingBytes : ℕ
  rescale : Bool
  deriving Inhabited

namespace Plan

def digest (env : Platform) (self : Plan) : BitVec 256 := self.input.digest env
def lanes (self : Plan) : ℕ := self.input.lanes

def operandBinding (env : Platform) (self : Plan) (operand : Operand) : Operation :=
  match self.product with
  | .elementwise => self.input
  | .matrix shape =>
    let (tag,lanes) := match operand with
      | .left => (0,shape.leftElements)
      | .right => (1,shape.rightElements)
    let consumer := env.sha256
      (ascii "pllm.puma.matrix-operand.v1" ++ leBytes 32 (self.digest env)++u8Bytes tag)
    { self.input with lanes := lanes, consumer := some consumer }

def shareOperand (env : Platform) (self : Plan) (operand : Operand) (party : Party)
    (first second : Words) (limits : Limits) : Except Error ReplicatedShare :=
  ReplicatedShare.fromLocal (self.operandBinding env operand) party first second limits

end Plan

inductive Phase
  | ready
  | planned (plan : Plan)
  | rotating (plan : Plan) (product : Words)
  | truncating (operation : Operation)
  | boolean (state : Boolean.State)
  | conversion (state : Conversion.State)
  | booleanToArithmetic (state : BooleanToArithmetic.State)
  | rawComplete (output : ReplicatedShare)
  | retired

structure PartyRuntime where
  source : SourceParty
  phase : Phase

/-- The cross terms of one pair of entries. -/
def crossTerm (left right : ReplicatedShare) (x y : ℕ) : Word :=
  lane left.first x*(lane right.first y+lane right.second y)+lane left.second x*lane right.first y

/-- Add the cross terms of an output lane to its zero share. -/
def accumulate (product : Product) (left right : ReplicatedShare) (value : Word) (i : ℕ) : Word :=
  match product with
  | .elementwise => value+crossTerm left right i i
  | .matrix shape =>
    let row := i/shape.columns
    let column := i%shape.columns
    (List.range shape.inner).foldl (fun value k =>
      value+crossTerm left right (row*shape.inner+k) (k*shape.columns+column)) value

namespace PartyRuntime

def context (self : PartyRuntime) : Context := self.source.context
def party (self : PartyRuntime) : Party := self.source.party

def status (self : PartyRuntime) : Status :=
  match self.phase with
  | .ready => .ready
  | .planned _ => .planned
  | .rotating .. => .awaitingRotate
  | .truncating _ => match self.source.status with
    | .awaitingOpen => .awaitingOpen
    | .awaitingReshare => .awaitingReshare
    | .complete => .complete
    | _ => .retired
  | .boolean state => state.status
  | .conversion state => state.status
  | .booleanToArithmetic state => state.status
  | .rawComplete _ => .complete
  | .retired => .retired

def cancel (self : PartyRuntime) : PartyRuntime := ⟨self.source.cancel,.retired⟩

def setPhase (phase : Phase) : Exec Error PartyRuntime Unit :=
  .modify fun s => { s with phase := phase }

/-- `std::mem::replace(&mut self.phase, Phase::Retired)`. -/
def takePhase : Exec Error PartyRuntime Phase := do
  let s ← .read
  setPhase .retired
  return s.phase

def onSource {α : Type} (x : Exec Error SourceParty α) : Exec Error PartyRuntime α :=
  .zoom source (fun source s => { s with source := source }) x

def live (env : Platform) : Exec Error PartyRuntime Unit := onSource (SourceParty.live env)

/-- The phase has to be `Ready`. -/
def requireReady : Exec Error PartyRuntime Unit := do
  match (← .read).phase with
  | .ready => return ()
  | _ => .fail .phase

def consumeOrdinal (operation : Operation) : Exec Error PartyRuntime Unit :=
  onSource (SourceParty.onRuntime (Puma.PartyRuntime.consumeOrdinal operation))

/-- What a product plan hashes before its cursor. -/
def productHash (product : Product) (bounds : List InputBounds) (rescale : Bool)
    (certified : Option (Interval × BitVec 256)) : List Byte :=
  ascii (match product,rescale with
    | .elementwise,false => rawProductProfile
    | .elementwise,true => profile
    | .matrix _,true => matmulProfile
    | .matrix _,false => rawMatmulProfile)
  ++ ascii numericProfile
  ++ (match certified with
    | some (raw,graph) => ascii (match product with
        | .elementwise => "native-tensor-correlated-product.v1"
        | .matrix _ => "public-row-energy-matmul.v1")
      ++ leBytes 32 graph++i64Bytes raw.lower++i64Bytes raw.upper
    | none => [])
  ++ (match product with
    | .elementwise => []
    | .matrix shape => u64Bytes shape.rows++u64Bytes shape.inner++u64Bytes shape.columns)
  ++ bounds.flatMap fun bound => i64Bytes bound.left.lower++i64Bytes bound.left.upper
    ++ i64Bytes bound.right.lower++i64Bytes bound.right.upper

/-- The declared operand boxes of an uncertified plan. -/
def checkBounds (product : Product) (bounds : List InputBounds) (rescale : Bool) :
    Except Error Unit := do
  let terms := match product with
    | .elementwise => 1
    | .matrix shape => shape.inner
  for bound in bounds do
    if rescale then let _ ← bound.dotProduct terms
    else bound.rawProduct terms

def planProductInner (env : Platform) (product : Product) (bounds : List InputBounds)
    (rescale : Bool) (certified : Option (Interval × BitVec 256)) :
    Exec Error PartyRuntime Plan := do
  live env
  requireReady
  let s := (← .read).source
  let core := s.limits.core
  let n := match product with
    | .elementwise => bounds.length
    | .matrix shape => shape.outputElements
  let working := (← .ofExcept (core.admittedBytes n))-fixedReserveBytes
  let working ← (match product with
    | .elementwise => return working
    | .matrix shape => do
      let _ ← .ofExcept (core.admittedBytes shape.leftElements)
      let _ ← .ofExcept (core.admittedBytes shape.rightElements)
      return max working ((2*shape.leftElements+2*shape.rightElements+3*n)*8) :
    Exec Error PartyRuntime ℕ)
  -- the ledger has to have room for the working set
  .request
  match certified with
    | some (raw,_) => if rescale then let _ ← .ofExcept (rescaledBounds raw fractionBits)
    | none => .ofExcept (checkBounds product bounds rescale)
  let q ← .ofExcept (blocks n)
  let _ ← .ofExcept (s.work (if rescale then 6*q+n+1 else 2*q))
  .require (s.runtime.nextSequence < core.maxOperations) .bounds
  if rescale then
    let _ ← .ofExcept (checkedAdd s.cursors.publicBlocks 1)
    let _ ← .ofExcept (checkedAdd s.cursors.privateBlocks n)
  let zeroStart := s.cursors.pairBlocks
  let maskStart ← .ofExcept (checkedAdd zeroStart q)
  if rescale then
    let _ ← .ofExcept (checkedAdd maskStart (2*q))
  let operation ← .ofExcept
    (Operation.new s.context s.runtime.nextSequence .p0 n fractionBits core)
  let hash := productHash product bounds rescale certified
    ++ ascii "pairwise-product-zero" ++ u64Bytes zeroStart
    ++ (if rescale then [] else leBytes 32 s.setup)
  let input := { operation with
    source := if rescale then
      some ⟨s.setup,s.cursors.publicBlocks,maskStart,maskStart+q⟩ else none
    consumer := some (env.sha256 hash) }
  let plan : Plan := ⟨input,zeroStart,product,working,rescale⟩
  setPhase (.planned plan)
  return plan

def planProduct (env : Platform) (product : Product) (bounds : List InputBounds) (rescale : Bool)
    (certified : Option (Interval × BitVec 256)) : Exec Error PartyRuntime Plan :=
  .checked cancel (planProductInner env product bounds rescale certified)

def planRingProduct (env : Platform) (bounds : List InputBounds) : Exec Error PartyRuntime Plan :=
  planProduct env .elementwise bounds false none

/-- Move a share into the operand slot of the plan. -/
def bindOperand (env : Platform) (operand : Operand) (value : ReplicatedShare) :
    Exec Error PartyRuntime ReplicatedShare := .checked cancel do
  live env
  let s ← .read
  match s.phase with
  | .planned plan => do
    let operation := plan.operandBinding env operand
    .require (value.party=s.party) .role
    .require (value.operation.context=s.context) .binding
    .require (value.first.length=operation.lanes ∧ value.second.length=operation.lanes) .shape
    value.chargeTo
    return { value with operation := operation }
  | _ => .fail .phase

def beginInner (env : Platform) (left right : ReplicatedShare) :
    Exec Error PartyRuntime Message := do
  live env
  let s ← .read
  match s.phase with
  | .planned plan => do
    let operation := plan.input
    .require (left.operation = plan.operandBinding env .left
      ∧ right.operation = plan.operandBinding env .right) .binding
    .require (left.party=s.party ∧ right.party=s.party) .role
    left.chargeTo
    right.chargeTo
    let n := operation.lanes
    let q ← .ofExcept (blocks n)
    if plan.rescale then pure () else consumeOrdinal operation
    let pairEnd ← .ofExcept (checkedAdd plan.zeroStart q)
    onSource (SourceParty.setCursors fun c => { c with pairBlocks := pairEnd })
    let work ← .ofExcept (s.source.work (2*q))
    onSource (SourceParty.setCursors fun c => { c with aesWork := work })
    let seeds ← .expect s.source.seeds .retired
    let own ← onSource (SourceParty.expand env .own seeds.own plan.zeroStart n)
    let nextSeed ← .expect seeds.next .retired
    let next ← onSource (SourceParty.expand env .next nextSeed plan.zeroStart n)
    let product := tabulate n fun i =>
      accumulate plan.product left right (lane own i-lane next i) i
    let words ← copy product n
    setPhase (.rotating plan product)
    return ⟨⟨operation.digest env,s.party,s.party.next.next,.multiply⟩,words⟩
  | _ => .fail .phase

/-- The source's `begin`. -/
def beginProduct (env : Platform) (left right : ReplicatedShare) :
    Exec Error PartyRuntime Message :=
  .checked cancel (beginInner env left right)

/-- Start the truncation of a planned source operation. -/
def beginTruncation (env : Platform) (operation : Operation) (first second : Words) :
    Exec Error PartyRuntime Frames := do
  let s ← .read
  onSource (SourceParty.setPending (some operation))
  let messages ← onSource (SourceParty.beginRound env ⟨operation,s.party,first,second⟩)
  setPhase (.truncating operation)
  return messages

def rotate (env : Platform) (next : Message) : Exec Error PartyRuntime Frames :=
  .checked cancel do
    live env
    match ← takePhase with
    | .rotating plan product => do
      let s ← .read
      .ofExcept (next.validate env plan.input s.party.next s.party .multiply)
      charge
      if plan.rescale then do
        let operation ← onSource (SourceParty.plan env plan.lanes fractionBits)
        beginTruncation env { operation with consumer := some (plan.digest env) } product next.words
      else do
        setPhase (.rawComplete ⟨plan.input,s.party,product,next.words⟩)
        return (none,none)
    | _ => .fail .phase

def truncating (env : Platform) : Exec Error PartyRuntime Unit := do
  live env
  match (← .read).phase with
  | .truncating _ => return ()
  | _ => .fail .phase

def openRound (env : Platform) (peer correlation : Message) : Exec Error PartyRuntime Message :=
  .checked cancel do
    truncating env
    onSource (SourceParty.openRound env peer correlation)

def reshare (env : Platform) (peer : Message) : Exec Error PartyRuntime Unit :=
  .checked cancel do
    truncating env
    onSource (SourceParty.reshare env peer)

def takeOutput (env : Platform) : Exec Error PartyRuntime ReplicatedShare :=
  .checked cancel do
    live env
    match (← .read).phase with
    | .rawComplete output => do
      setPhase .ready
      return output
    | .booleanToArithmetic (.complete output) => do
      setPhase .ready
      return output
    | .booleanToArithmetic _ => .fail .phase
    | _ => do
      truncating env
      let output ← onSource (SourceParty.takeOutput env)
      setPhase .ready
      return output

end PartyRuntime

end Pllm.Puma.Multiply
