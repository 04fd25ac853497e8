import Pllm.Levels.Schedule
import Pllm.Lib.Holders

/-! The validator of a supplied execution trace: typed capabilities, immutable values with explicit
releases, and the bytes of every backing owner that is still referenced. -/
namespace Pllm.Levels
open Pllm.Lib

structure PublicCiphertextError where
  modelIdentity : String
  bound : Option ℕ
  deriving DecidableEq

structure PublicCiphertextState where
  scheme : String
  keyDomain : String
  layout : String
  scale : String
  level : ℕ
  shape : List ℕ
  error : PublicCiphertextError
  deriving DecidableEq

structure PublicCiphertextOwner where
  identity : String
  bytes : Option ℕ

structure PublicCiphertextValue where
  identity : String
  state : PublicCiphertextState
  owner : String

inductive PublicCiphertextJoin
  | unary
  | aligned
  | scalarBroadcast (vectorInput : ℕ)

inductive PublicCiphertextExecution
  | ckks (compute : PublicLevelCompute) (depth : ℕ) (transition : PublicLevelTransition)
  | hybrid (roundTrip : PublicHybridRoundTrip)
  | view (cost : PublicCost)

structure PublicCiphertextCapability where
  identity : String
  kernelIdentity : String
  primitive : PublicPrimitive
  inputs : List PublicCiphertextState
  output : PublicCiphertextState
  join : PublicCiphertextJoin
  execution : PublicCiphertextExecution
  errorAssumption : Option String
  scratchBytes : Option ℕ
  recoveryOverlapBytes : Option ℕ

structure PublicCiphertextGraphOperation where
  identity : String
  kernelIdentity : String
  primitive : PublicPrimitive
  inputs : List String
  output : PublicCiphertextValue

structure PublicCiphertextGraph where
  costModelIdentity : String
  costUnit : String
  maximumLevel : ℕ
  owners : List PublicCiphertextOwner
  persistentOwners : List String
  inputs : List PublicCiphertextValue
  operations : List PublicCiphertextGraphOperation
  capabilities : List PublicCiphertextCapability
  outputs : List String
  retainedInputs : List String

structure PublicCiphertextTraceStep where
  operation : String
  capability : String
  release : List String

structure PublicCiphertextTraceCapacity where
  maxRecords : ℕ
  maxWork : ℕ
  maxBufferBytes : ℕ
  maxLiveOwnerBytes : ℕ

structure PublicCiphertextTraceSummary where
  totalCost : ℕ
  peakLiveBackingBytes : ℕ
  peakLiveOwnerBytes : ℕ
  finalLiveBackingBytes : ℕ
  workBound : ℕ
  bufferBytes : ℕ
  deriving DecidableEq

/-- A trace is refused with a message; an index, a subtraction or an `unwrap` that fails panics. -/
inductive TraceError
  | refused (message : String)
  | panicked
  deriving DecidableEq

/-- `if c { return Err(e) }`. -/
def rejectIf {ε : Type} (c : Prop) [Decidable c] (e : ε) : Except ε Unit :=
  if c then .error e else .ok ()

/-- `.ok_or(e)?`. -/
def okOr {ε α : Type} (a : Option α) (e : ε) : Except ε α :=
  match a with
  | some a => .ok a
  | none => .error e

def traceRecords (n extra limit : ℕ) : Except String ℕ := do
  let n ← add n extra
  rejectIf (n>limit) "composite record capacity exceeded"
  return n

def checkedAdd (a b : ℕ) : Option ℕ := if a+b<2^64 then some (a+b) else none

def checkedMul (a b : ℕ) : Option ℕ := if a*b<2^64 then some (a*b) else none

def traceResourceBound (records : ℕ) : Option (ℕ × ℕ) := do
  let square ← checkedMul records records
  let cube ← checkedMul square records
  let scans ← checkedMul cube 64
  let linear ← checkedMul records 256
  let work ← checkedAdd scans linear
  let bytes ← checkedAdd linear 1024
  return (work,bytes)

namespace TraceRecordCounter

def top (records n : ℕ) : Option ℕ := checkedAdd records n

def state (records rank : ℕ) : Option ℕ := (checkedAdd 9 rank).bind (top records)

def operation (records arity : ℕ) : Option ℕ := (checkedAdd 3 arity).bind (top records)

def capability (records arity : ℕ) : Option ℕ := (checkedAdd 12 arity).bind (top records)

def step (records releases : ℕ) : Option ℕ := (checkedAdd 2 releases).bind (top records)

end TraceRecordCounter

/-- One count of the preflight, and the record limit after it. -/
def countRecords (limit : ℕ) (records : Option ℕ) : Except String ℕ := do
  let records ← okOr records "composite resource overflow"
  let _ ← traceRecords 0 records limit
  return records

def stateRecords (limit records : ℕ) (s : PublicCiphertextState) : Except String ℕ :=
  countRecords limit (TraceRecordCounter.state records s.shape.length)

def tracePreflight (g : PublicCiphertextGraph) (trace : List PublicCiphertextTraceStep)
    (c : PublicCiphertextTraceCapacity) : Except String (ℕ × ℕ) := do
  let limit := c.maxRecords
  let records ← [g.owners.length,g.persistentOwners.length,g.inputs.length,g.operations.length,
    g.capabilities.length,g.outputs.length,g.retainedInputs.length,trace.length].foldlM
      (fun records n => countRecords limit (TraceRecordCounter.top records n)) 1
  let records ← g.inputs.foldlM (fun records v => stateRecords limit records v.state) records
  let records ← g.operations.foldlM (fun records op => do
    let records ← okOr (TraceRecordCounter.operation records op.inputs.length)
      "composite resource overflow"
    stateRecords limit records op.output.state) records
  let records ← g.capabilities.foldlM (fun records cap => do
    let records ← okOr (TraceRecordCounter.capability records cap.inputs.length)
      "composite resource overflow"
    let records ← stateRecords limit records cap.output
    cap.inputs.foldlM (stateRecords limit) records) records
  let records ← trace.foldlM (fun records step =>
    countRecords limit (TraceRecordCounter.step records step.release.length)) records
  let (work,bytes) ← okOr (traceResourceBound records) "composite resource overflow"
  rejectIf (work>c.maxWork ∨ bytes>c.maxBufferBytes) "composite work/buffer capacity exceeded"
  return (work,bytes)

/-- `elements`: the extent of a shape, one dimension after the other. -/
def shapeElements (shape : List ℕ) : Except String ℕ :=
  shape.foldlM (fun elements dim => do
    rejectIf (dim=0) "zero composite dimension"
    okOr (checkedMul elements dim) "composite shape overflow") 1

def traceState (maximum : ℕ) (s : PublicCiphertextState) : Except String Unit := do
  [s.scheme,s.keyDomain,s.layout,s.scale,s.error.modelIdentity].forM identity
  rejectIf (s.level>maximum ∨ s.shape = [] ∨ s.error.bound=none)
    "unknown error or invalid composite state"
  let _ ← shapeElements s.shape
  return ()

def sameDomain (a b : PublicCiphertextState) : Bool :=
  a.scheme==b.scheme && a.keyDomain==b.keyDomain && a.scale==b.scale && a.level==b.level
    && a.error.modelIdentity==b.error.modelIdentity

def sameBackingState (a b : PublicCiphertextState) : Bool :=
  sameDomain a b && a.layout==b.layout && a.error==b.error

def checkJoin (cap : PublicCiphertextCapability) (first : PublicCiphertextState) :
    Except String Unit :=
  match cap.join, cap.inputs with
  | .unary, [_] => .ok ()
  | .aligned, _::_::_ =>
    rejectIf ((cap.inputs.any fun s => !sameDomain first s || first.layout != s.layout
        || first.shape != s.shape) ∨ cap.output.layout≠first.layout
        ∨ cap.output.shape≠first.shape) "incompatible aligned join"
  | .scalarBroadcast vectorInput, [left,right] =>
    if vectorInput<2 then
      let (vector,scalar) := if vectorInput=0 then (left,right) else (right,left)
      rejectIf (sameDomain vector scalar = false ∨ scalar.shape ≠ [1]
        ∨ cap.output.shape≠vector.shape ∨ cap.output.layout≠vector.layout)
        "incompatible scalar broadcast join"
    else .error "invalid composite join arity"
  | _, _ => .error "invalid composite join arity"

/-- The cost of an execution that is legal for its capability. The shapes have been checked by
`traceState`, so their products do not overflow. -/
def checkExecution (cap : PublicCiphertextCapability) (first : PublicCiphertextState)
    (maximum : ℕ) : Except String ℕ :=
  match cap.execution with
  | .ckks compute depth t => do
    rejectIf (t.legal=false ∨ compute.inputLevel<depth ∨ compute.inputLevel>maximum
      ∨ t.fromLevel≠compute.inputLevel-depth ∨ t.toLevel≠cap.output.level
      ∨ t.toLevel>maximum ∨ (cap.inputs.any fun s => s.level != compute.inputLevel
        || s.scheme != cap.output.scheme || s.keyDomain != cap.output.keyDomain))
      "illegal composite compute/transition"
    let computed ← cost compute.cost
    let moved ← cost t.cost
    sumCost computed moved
  | .hybrid h => do
    identity h.identity
    rejectIf (cap.primitive = .arithmetic ∨ cap.inputs.length≠1 ∨ h.inputLevel≠first.level
      ∨ h.outputLevel≠cap.output.level) "illegal composite hybrid entry/recovery"
    hybridCost h
  | .view charge => do
    rejectIf (cap.primitive ≠ .arithmetic ∨ cap.inputs.length≠1
      ∨ sameBackingState first cap.output = false) "view cannot mutate physical parent state"
    rejectIf (cap.output.shape.prod>first.shape.prod) "view exceeds parent extent"
    cost charge

def traceCapability (cap : PublicCiphertextCapability) (maximum : ℕ) : Except String ℕ := do
  identity cap.identity
  identity cap.kernelIdentity
  let assumption ← okOr cap.errorAssumption "unknown error assumption"
  identity assumption
  let scratch ← okOr cap.scratchBytes "unknown scratch owners"
  let recovery ← okOr cap.recoveryOverlapBytes "unknown recovery owners"
  let _ ← sumCost scratch recovery
  match cap.inputs with
  | [] => .error "unknown primitive or missing composite inputs"
  | first::_ => do
    rejectIf (cap.primitive = .unknownNonlinear) "unknown primitive or missing composite inputs"
    (cap.inputs++[cap.output]).forM (traceState maximum)
    checkJoin cap first
    checkExecution cap first maximum

/-- `xs[..i].iter().any(|y| y.key==x.key)`. -/
def repeated {α : Type} (key : α → String) (xs : List α) (entry : α × ℕ) : Bool :=
  (xs.take entry.2).any fun y => key y==key entry.1

/-- The checks of single records: identities, owners, values, operations and steps. -/
def traceRecordChecks (g : PublicCiphertextGraph) (trace : List PublicCiphertextTraceStep) :
    Except String Unit := do
  identity g.costModelIdentity
  identity g.costUnit
  rejectIf (g.inputs = [] ∨ g.operations = [] ∨ g.outputs = []
    ∨ trace.length≠g.operations.length) "incomplete composite graph/trace"
  g.owners.forM fun owner => do
    identity owner.identity
    rejectIf (owner.bytes=none ∨ owner.bytes = some 0) "unknown or empty backing owner"
  (g.inputs++g.operations.map (·.output)).forM fun value => do
    identity value.identity
    identity value.owner
    traceState g.maximumLevel value.state
  g.operations.forM fun op => do
    identity op.identity
    identity op.kernelIdentity
    rejectIf (op.inputs = [] ∨ op.primitive = .unknownNonlinear) "unknown composite operation"
    op.inputs.forM identity
  (g.outputs++g.retainedInputs++g.persistentOwners).forM identity
  trace.forM fun step => do
    identity step.operation
    identity step.capability
    step.release.forM identity

/-- The checks of pairs of records, up to the values. -/
def tracePairChecks (g : PublicCiphertextGraph) : Except String Unit := do
  g.capabilities.zipIdx.forM fun entry => do
    let _ ← traceCapability entry.1 g.maximumLevel
    rejectIf (repeated (·.identity) g.capabilities entry) "duplicate composite capability"
  g.operations.zipIdx.forM fun entry =>
    rejectIf (repeated (·.identity) g.operations entry) "duplicate composite operation"
  g.owners.zipIdx.forM fun entry =>
    rejectIf (repeated (·.identity) g.owners entry) "duplicate composite owner"
  g.inputs.zipIdx.forM fun entry =>
    rejectIf ((g.inputs.take entry.2).any fun earlier =>
      earlier.owner==entry.1.owner && !sameBackingState earlier.state entry.1.state)
      "aliased inputs disagree on physical backing state"

def PublicCiphertextGraph.values (g : PublicCiphertextGraph) : List PublicCiphertextValue :=
  g.inputs++g.operations.map (·.output)

def valueIndex (g : PublicCiphertextGraph) (id : String) : Except String ℕ :=
  okOr (g.values.findIdx? fun v => v.identity==id) "unknown composite value"

def ownerIndex (g : PublicCiphertextGraph) (id message : String) : Except String ℕ :=
  okOr (g.owners.findIdx? fun o => o.identity==id) message

/-- The owner of every value, and the checks of references between the tables. -/
def traceOwners (env : Platform) (g : PublicCiphertextGraph) : Except String (List ℕ) := do
  let count ← add g.inputs.length g.operations.length
  rejectIf (env.reserve count = false) "composite allocation failed"
  let owners ← g.values.zipIdx.mapM fun entry => do
    rejectIf (repeated (·.identity) g.values entry) "duplicate composite value"
    ownerIndex g entry.1.owner "unknown backing owner"
  g.owners.forM fun owner =>
    rejectIf ((g.values.any fun v => v.owner==owner.identity)=false
      ∧ owner.identity ∉ g.persistentOwners) "unused backing owner"
  g.operations.forM fun op => op.inputs.forM fun id => do
    let _ ← valueIndex g id
    return ()
  g.outputs.zipIdx.forM fun entry => do
    let _ ← valueIndex g entry.1
    rejectIf (entry.1 ∈ g.outputs.take entry.2) "duplicate composite output"
  g.retainedInputs.zipIdx.forM fun entry =>
    rejectIf ((g.inputs.any fun v => v.identity==entry.1)=false
      ∨ entry.1 ∈ g.retainedInputs.take entry.2) "invalid retained parent"
  return owners

/-- The vectors of the loop, each indexed by positions found in the table it runs parallel to, and
its running sums. -/
structure TraceState where
  live : ℕ → Bool
  executed : ℕ → Bool
  references : ℕ → ℕ
  created : ℕ → Bool
  backing : ℕ
  peakBacking : ℕ
  peakOwners : ℕ
  totalCost : ℕ

def TraceState.empty : TraceState :=
  ⟨fun _ => false,fun _ => false,fun _ => 0,fun _ => false,0,0,0,0⟩

/-- `.unwrap()`, or an index into a vector. -/
def unwrap {α : Type} (a : Option α) : Except TraceError α := okOr a .panicked

/-- `?` on a result whose error is a message. -/
def refuse {α : Type} (x : Except String α) : Except TraceError α := x.mapError .refused

/-- `g.owners[owner].bytes.unwrap()`. -/
def bytesOf (g : PublicCiphertextGraph) (owner : ℕ) : Except TraceError ℕ := do
  let entry ← unwrap g.owners[owner]?
  unwrap entry.bytes

/-- The backing once an owner has one more reference: its first one adds its bytes. -/
def charged (g : PublicCiphertextGraph) (owner : ℕ) (s : TraceState) : Except TraceError ℕ :=
  if s.references owner=0 then do
    let bytes ← bytesOf g owner
    refuse (sumCost s.backing bytes)
  else .ok s.backing

def retain (g : PublicCiphertextGraph) (owner : ℕ) (s : TraceState) :
    Except TraceError TraceState := do
  let backing ← charged g owner s
  let count ← refuse (add (s.references owner) 1)
  return {s with backing := backing, references := Function.update s.references owner count}

def persist (g : PublicCiphertextGraph) (s : TraceState) (entry : String × ℕ) :
    Except TraceError TraceState := do
  let owner ← refuse (ownerIndex g entry.1 "unknown persistent owner")
  rejectIf (entry.1 ∈ g.persistentOwners.take entry.2)
    (TraceError.refused "duplicate persistent owner")
  let bytes ← bytesOf g owner
  let backing ← refuse (sumCost s.backing bytes)
  return {s with
    references := Function.update s.references owner 1
    created := Function.update s.created owner true
    backing := backing}

def supply (g : PublicCiphertextGraph) (owners : List ℕ) (s : TraceState) (i : ℕ) :
    Except TraceError TraceState := do
  let owner ← unwrap owners[i]?
  let s ← retain g owner {s with live := Function.update s.live i true}
  return {s with created := Function.update s.created owner true}

/-- The state before the first step. -/
def traceStart (env : Platform) (g : PublicCiphertextGraph) (owners : List ℕ)
    (capacity : PublicCiphertextTraceCapacity) : Except TraceError TraceState := do
  rejectIf (env.reserve (g.inputs.length+g.operations.length)=false
    ∨ env.reserve g.operations.length = false ∨ env.reserve g.owners.length = false)
    (TraceError.refused "composite allocation failed")
  let s ← g.persistentOwners.zipIdx.foldlM (persist g) TraceState.empty
  let s ← (List.range g.inputs.length).foldlM (supply g owners) s
  rejectIf (s.backing>capacity.maxLiveOwnerBytes)
    (TraceError.refused "composite owner capacity exceeded")
  return {s with peakBacking := s.backing, peakOwners := s.backing}

/-- Every input of the operation is live and in the state that the capability expects. -/
def checkParents (g : PublicCiphertextGraph) (s : TraceState)
    (parents : List (String × PublicCiphertextState)) : Except TraceError Unit :=
  parents.forM fun parent => do
    let input ← refuse (valueIndex g parent.1)
    let value ← unwrap g.values[input]?
    rejectIf (s.live input = false ∨ value.state≠parent.2) (TraceError.refused
      "unavailable parent (cycle, early release or type mismatch)")

/-- A view keeps the backing of its parent, every other output takes a fresh one. -/
def checkBacking (g : PublicCiphertextGraph) (owners : List ℕ)
    (cap : PublicCiphertextCapability) (op : PublicCiphertextGraphOperation) (owner : ℕ)
    (s : TraceState) : Except TraceError TraceState :=
  match cap.execution with
  | .view _ => do
    let first ← unwrap op.inputs[0]?
    let parent ← refuse (valueIndex g first)
    let parentOwner ← unwrap owners[parent]?
    rejectIf (owner≠parentOwner) (TraceError.refused "view must retain parent backing")
    return s
  | _ => do
    rejectIf (s.created owner) (TraceError.refused "non-view output needs fresh immutable backing")
    return {s with created := Function.update s.created owner true}

/-- The part of a step before its releases. -/
def execute (g : PublicCiphertextGraph) (owners : List ℕ)
    (capacity : PublicCiphertextTraceCapacity) (step : PublicCiphertextTraceStep)
    (s : TraceState) : Except TraceError TraceState := do
  let index ← refuse (okOr (g.operations.findIdx? fun op => op.identity==step.operation)
    "unknown trace operation")
  rejectIf (s.executed index) (TraceError.refused "duplicate trace execution")
  let op ← unwrap g.operations[index]?
  let cap ← refuse (okOr (g.capabilities.find? fun c => c.identity==step.capability)
    "unknown trace capability")
  rejectIf (cap.kernelIdentity≠op.kernelIdentity ∨ cap.primitive≠op.primitive
    ∨ cap.inputs.length≠op.inputs.length ∨ cap.output≠op.output.state)
    (TraceError.refused "composite capability/output mismatch")
  checkParents g s (op.inputs.zip cap.inputs)
  let output := g.inputs.length+index
  let owner ← unwrap owners[output]?
  let s ← checkBacking g owners cap op owner s
  let s ← retain g owner s
  let scratch ← unwrap cap.scratchBytes
  let withScratch ← refuse (sumCost s.backing scratch)
  let recovery ← unwrap cap.recoveryOverlapBytes
  let overlap ← refuse (sumCost withScratch recovery)
  rejectIf (overlap>capacity.maxLiveOwnerBytes)
    (TraceError.refused "composite owner capacity exceeded")
  let charge ← refuse (traceCapability cap g.maximumLevel)
  let totalCost ← refuse (sumCost s.totalCost charge)
  return {s with
    live := Function.update s.live output true
    executed := Function.update s.executed index true
    peakBacking := max s.peakBacking s.backing
    peakOwners := max s.peakOwners overlap
    totalCost := totalCost}

/-- `a - b` on unsigned integers. -/
def subtract (a b : ℕ) : Except TraceError ℕ := if b≤a then .ok (a-b) else .error .panicked

/-- The backing once the references of an owner have dropped to `count`. -/
def discharged (g : PublicCiphertextGraph) (owner count : ℕ) (s : TraceState) :
    Except TraceError ℕ :=
  if count=0 then do
    let bytes ← bytesOf g owner
    subtract s.backing bytes
  else .ok s.backing

def release (g : PublicCiphertextGraph) (owners : List ℕ) (s : TraceState) (id : String) :
    Except TraceError TraceState := do
  let released ← refuse (valueIndex g id)
  rejectIf (s.live released = false ∨ id∈g.retainedInputs)
    (TraceError.refused "invalid release or immutable retained parent retirement")
  let owner ← unwrap owners[released]?
  let count ← subtract (s.references owner) 1
  let backing ← discharged g owner count s
  return {s with
    live := Function.update s.live released false
    references := Function.update s.references owner count
    backing := backing}

def traceStep (g : PublicCiphertextGraph) (owners : List ℕ)
    (capacity : PublicCiphertextTraceCapacity) (s : TraceState)
    (step : PublicCiphertextTraceStep) : Except TraceError TraceState := do
  let s ← execute g owners capacity step s
  step.release.foldlM (release g owners) s

def checkBoundary (g : PublicCiphertextGraph) (s : TraceState) : Except TraceError Unit :=
  (g.outputs++g.retainedInputs).forM fun id => do
    let index ← refuse (valueIndex g id)
    rejectIf (s.live index = false) (TraceError.refused "missing composite boundary value")

def validatePublicCiphertextTrace (env : Platform) (g : PublicCiphertextGraph)
    (trace : List PublicCiphertextTraceStep) (capacity : PublicCiphertextTraceCapacity) :
    Except TraceError PublicCiphertextTraceSummary := do
  let (workBound,bufferBytes) ← refuse (tracePreflight g trace capacity)
  refuse (traceRecordChecks g trace)
  refuse (tracePairChecks g)
  let owners ← refuse (traceOwners env g)
  let s ← traceStart env g owners capacity
  let s ← trace.foldlM (traceStep g owners capacity) s
  checkBoundary g s
  return ⟨s.totalCost,s.peakBacking,s.peakOwners,s.backing,workBound,bufferBytes⟩

open List

/-- What the loop goes through: a step, then each of its releases. -/
inductive TraceEvent
  | execute (step : PublicCiphertextTraceStep)
  | release (id : String)

def stepEvents (step : PublicCiphertextTraceStep) : List TraceEvent :=
  .execute step :: step.release.map .release

def traceEvents (trace : List PublicCiphertextTraceStep) : List TraceEvent :=
  trace.flatMap stepEvents

/-- What keeps a backing alive: its place among the persistent owners, or a live value. -/
inductive Holder
  | persistent (owner : String)
  | value (identity : String)
  deriving DecidableEq

variable {env : Platform} {g : PublicCiphertextGraph} {owners : List ℕ}
variable {trace : List PublicCiphertextTraceStep} {capacity : PublicCiphertextTraceCapacity}

namespace PublicCiphertextGraph

def holderOwner (g : PublicCiphertextGraph) : Holder → String
  | .persistent owner => owner
  | .value id => match g.values.find? fun v => v.identity==id with
    | some v => v.owner
    | none => ""

def ownerBytes (g : PublicCiphertextGraph) (id : String) : ℕ :=
  ((g.owners.find? fun o => o.identity==id).bind (·.bytes)).getD 0

/-- The value that a step makes. -/
def made (g : PublicCiphertextGraph) (step : PublicCiphertextTraceStep) : Option String :=
  (g.operations.find? fun op => op.identity==step.operation).map (·.output.identity)

def startHolders (g : PublicCiphertextGraph) : Finset Holder :=
  (g.persistentOwners.map Holder.persistent++g.inputs.map fun v => Holder.value v.identity).toFinset

def holdersStep (g : PublicCiphertextGraph) (live : Finset Holder) : TraceEvent → Finset Holder
  | .execute step => match g.made step with
    | some id => insert (.value id) live
    | none => live
  | .release id => live.erase (.value id)

/-- The live holders after a run of events. -/
def holders (g : PublicCiphertextGraph) (events : List TraceEvent) : Finset Holder :=
  events.foldl g.holdersStep g.startHolders

/-- The bytes of the owners that are live after a run of events. -/
def liveBytes (g : PublicCiphertextGraph) (events : List TraceEvent) : ℕ :=
  Holders.total g.holderOwner g.ownerBytes (g.holders events)

/-- The references to an owner after a run of events. -/
def liveReferences (g : PublicCiphertextGraph) (events : List TraceEvent) (owner : String) : ℕ :=
  Holders.count g.holderOwner (g.holders events) owner

/-- The scratch and the recovery bytes of a step. -/
def overhead (g : PublicCiphertextGraph) (step : PublicCiphertextTraceStep) : ℕ :=
  match g.capabilities.find? fun c => c.identity==step.capability with
  | some cap => cap.scratchBytes.getD 0 + cap.recoveryOverlapBytes.getD 0
  | none => 0

section
variable (g : PublicCiphertextGraph) (events : List TraceEvent)

lemma holders_append_execute
    (step : PublicCiphertextTraceStep) : g.holders (events++[.execute step]) =
      g.holdersStep (g.holders events) (.execute step) := foldl_concat ..

lemma holders_append_release
    (id : String) : g.holders (events++[.release id]) = (g.holders events).erase (.value id) :=
  foldl_concat ..

end

end PublicCiphertextGraph

/-- The operations that a run of events executes, in order. -/
def executedBy (events : List TraceEvent) : List String :=
  events.filterMap fun
    | .execute step => some step.operation
    | .release _ => none

def releasedBy (events : List TraceEvent) : List String :=
  events.filterMap fun
    | .execute _ => none
    | .release id => some id

/-- A value that is there once the events have run: an input, or made by an executed operation. -/
def Produced (g : PublicCiphertextGraph) (events : List TraceEvent) (id : String) : Prop :=
  id ∈ g.inputs.map (·.identity) ∨
    ∃ op∈g.operations, op.output.identity=id ∧ op.identity ∈ executedBy events

/-- The memory that some moment of the run needs: the start, or a step together with its scratch and
its recovery overlap, before its releases. -/
def Moment (g : PublicCiphertextGraph) (events : List TraceEvent) (n : ℕ) : Prop :=
  n = g.liveBytes [] ∨ ∃ front step, front++[.execute step] <+: events ∧
    n = g.liveBytes (front++[.execute step]) + g.overhead step

section
variable {α : Type} {key : α → String} {xs : List α} {i : ℕ} {x : α}

lemma findIdx?_some {id : String} (h : xs.findIdx? (fun y => key y==id) = some i) :
    ∃ y, xs[i]? = some y ∧ key y = id := by
  obtain ⟨hi,hkey,-⟩ := findIdx?_eq_some_iff_getElem.mp h
  exact ⟨xs[i],getElem?_eq_getElem hi,by simpa using hkey⟩

lemma key_inj (hnd : (xs.map key).Nodup) {j : ℕ} {y : α} (hi : xs[i]? = some x)
    (hj : xs[j]? = some y) (h : key x = key y) : i=j := by
  refine (getElem?_inj ?_ hnd).mp ?_
  · rw [length_map]
    exact (List.getElem?_eq_some_iff.mp hi).1
  · rw [getElem?_map,getElem?_map,hi,hj]
    exact congrArg some h

lemma find?_key (hnd : (xs.map key).Nodup) (hi : xs[i]? = some x) :
    xs.find? (fun y => key y==key x) = some x := by
  have hmem : x∈xs := mem_of_getElem? hi
  cases hfind : xs.find? (fun y => key y==key x) with
  | none =>
    have := find?_eq_none.mp hfind x hmem
    simp at this
  | some y =>
    have hy : key y=key x := by simpa using find?_some hfind
    obtain ⟨j,hj⟩ := getElem?_of_mem (mem_of_find?_eq_some hfind)
    obtain rfl := key_inj hnd hi hj hy.symm
    rw [hi] at hj
    exact hj.symm

lemma nodup_of_repeated (h : ∀ entry∈xs.zipIdx, repeated key xs entry = false) :
    (xs.map key).Nodup := by
  rw [Nodup,pairwise_map,pairwise_iff_getElem]
  intro i j hi hj hij heq
  have hent := h (xs[j],j) (mk_mem_zipIdx_iff_getElem?.mpr (getElem?_eq_getElem hj))
  rw [repeated,any_eq_false] at hent
  refine hent xs[i] ?_ (by simpa using heq)
  rw [mem_take_iff_getElem]
  exact ⟨i,by omega,rfl⟩

end

lemma rejectIf_eq_ok {ε : Type} {c : Prop} [Decidable c] {e : ε} {u : Unit} :
    rejectIf c e = .ok u ↔ ¬c := by
  rw [rejectIf]
  split <;> simp_all

lemma okOr_eq_ok {ε α : Type} {a : Option α} {e : ε} {b : α} : okOr a e = .ok b ↔ a = some b := by
  cases a <;> simp [okOr]

/-- What the tables satisfy once their checks have passed. -/
structure Admitted (g : PublicCiphertextGraph) (owners : List ℕ) : Prop where
  valuesNodup : (g.values.map (·.identity)).Nodup
  ownersNodup : (g.owners.map (·.identity)).Nodup
  operationsNodup : (g.operations.map (·.identity)).Nodup
  bytes : ∀ o∈g.owners, ∃ b, o.bytes = some b
  overheads : ∀ c∈g.capabilities, ∃ (s r : ℕ), c.scratchBytes = some s ∧ c.recoveryOverlapBytes = some r
  parents : ∀ op∈g.operations, op.inputs ≠ []
  owner : ∀ (i : ℕ) (v : PublicCiphertextValue), g.values[i]? = some v →
    ∃ (k : ℕ) (o : PublicCiphertextOwner), owners[i]? = some k ∧ g.owners[k]? = some o ∧ o.identity=v.owner

lemma traceCapability_eq_ok {cap : PublicCiphertextCapability} {maximum charge : ℕ}
    (h : traceCapability cap maximum = .ok charge) :
    ∃ (s r : ℕ), cap.scratchBytes = some s ∧ cap.recoveryOverlapBytes = some r := by
  obtain ⟨_,-,_,-,_,-,_,-,h⟩ := bind₄_eq_ok.mp h
  obtain ⟨s,hs,r,hr,-⟩ := bind₂_eq_ok.mp h
  exact ⟨s,r,okOr_eq_ok.mp hs,okOr_eq_ok.mp hr⟩

lemma traceRecordChecks_eq_ok (h : traceRecordChecks g trace = .ok ()) :
    trace.length=g.operations.length ∧ (∀ o∈g.owners, ∃ b, o.bytes = some b)
      ∧ ∀ op∈g.operations, op.inputs ≠ [] := by
  obtain ⟨_,-,_,-,_,hshp,_,hown,h⟩ := bind₄_eq_ok.mp h
  obtain ⟨_,-,_,hops,-⟩ := bind₂_eq_ok.mp h
  refine ⟨?_,fun o ho => ?_,fun op hop => ?_⟩
  · have := rejectIf_eq_ok.mp hshp
    tauto
  · obtain ⟨_,-,hrej⟩ := bind_eq_ok.mp (forM_eq_ok.mp hown o ho)
    have := rejectIf_eq_ok.mp hrej
    exact Option.ne_none_iff_exists'.mp fun hn => this (.inl hn)
  · obtain ⟨_,-,hop⟩ := bind_eq_ok.mp (forM_eq_ok.mp hops op hop)
    obtain ⟨_,-,_,hrej,-⟩ := bind₂_eq_ok.mp hop
    exact fun hn => rejectIf_eq_ok.mp hrej (.inl hn)

lemma tracePairChecks_eq_ok (h : tracePairChecks g = .ok ()) :
    (g.operations.map (·.identity)).Nodup ∧ (g.owners.map (·.identity)).Nodup ∧
      ∀ c∈g.capabilities, ∃ (s r : ℕ), c.scratchBytes = some s ∧ c.recoveryOverlapBytes = some r := by
  obtain ⟨_,hcaps,_,hops,_,hown,-⟩ := bind₃_eq_ok.mp h
  refine ⟨nodup_of_repeated fun entry hent => ?_,nodup_of_repeated fun entry hent => ?_,
    fun c hc => ?_⟩
  · simpa using rejectIf_eq_ok.mp (forM_eq_ok.mp hops entry hent)
  · simpa using rejectIf_eq_ok.mp (forM_eq_ok.mp hown entry hent)
  · obtain ⟨i,hi⟩ := getElem?_of_mem hc
    obtain ⟨charge,hcha,-⟩ :=
      bind_eq_ok.mp (forM_eq_ok.mp hcaps (c,i) (mk_mem_zipIdx_iff_getElem?.mpr hi))
    exact traceCapability_eq_ok hcha

lemma traceOwners_eq_ok (h : traceOwners env g = .ok owners) : (g.values.map (·.identity)).Nodup ∧ ∀
    (i : ℕ) (v : PublicCiphertextValue), g.values[i]? = some v → ∃ (k : ℕ) (o :
    PublicCiphertextOwner), owners[i]? = some k ∧ g.owners[k]? = some o ∧ o.identity=v.owner := by
  obtain ⟨_,-,_,-,found,hfou,_,-,h⟩ := bind₄_eq_ok.mp h
  obtain ⟨_,-,_,-,_,-,h⟩ := bind₃_eq_ok.mp h
  obtain rfl := Except.ok.inj h
  have hall := mapM_eq_ok.mp hfou
  have hlen : g.values.length=found.length := by simpa using hall.length_eq
  have hent : ∀ (i : ℕ) (v : PublicCiphertextValue), g.values[i]? = some v → ∃ k, found[i]? = some k ∧
      repeated (·.identity) g.values (v,i)=false ∧
      ownerIndex g v.owner "unknown backing owner" = .ok k := by
    intro i v hv
    obtain ⟨hi,rfl⟩ := List.getElem?_eq_some_iff.mp hv
    have hi' : i<found.length := hlen ▸ hi
    have hget := hall.get (by simpa using hi) hi'
    obtain ⟨_,hrej,hidx⟩ := bind_eq_ok.mp hget
    simp only [get_eq_getElem,getElem_zipIdx] at hrej hidx
    exact ⟨found[i],getElem?_eq_getElem hi',by simpa using rejectIf_eq_ok.mp hrej,hidx⟩
  refine ⟨nodup_of_repeated fun entry hentry' => ?_,fun i v hv => ?_⟩
  · obtain ⟨v,i⟩ := entry
    obtain ⟨k,-,hrep,-⟩ := hent i v (mk_mem_zipIdx_iff_getElem?.mp hentry')
    exact hrep
  · obtain ⟨k,hk,-,hidx⟩ := hent i v hv
    obtain ⟨o,ho,hid⟩ := findIdx?_some (okOr_eq_ok.mp hidx)
    exact ⟨k,o,hk,ho,hid⟩

end Pllm.Levels
