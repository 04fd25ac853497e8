import Pllm.Lib.Exec
import Pllm.Lib.Except

/-! The exact solver for one chain of encrypted operations: a public table of computations, level
transitions and scheme round trips, searched layer by layer without pruning. -/
namespace Pllm.Levels
open Pllm.Lib

def validIdentity (value : String) : Bool :=
  !value.isEmpty && decide (value.utf8ByteSize≤128)
    && value.toList.all fun c => c.isAlphanum || "./_:-".toList.contains c

inductive PublicPrimitive
  | arithmetic | exp | inv | invsqrt | silu | gelu | relu | unknownNonlinear
  deriving DecidableEq, Inhabited

/-- A cost without units is unknown, not zero. -/
structure PublicCost where
  identity : String
  units : Option ℕ
  deriving DecidableEq

structure PublicLevelCompute where
  inputLevel : ℕ
  cost : PublicCost

inductive PublicLevelTransitionKind
  | preserve | drop | refresh

structure PublicLevelTransition where
  kind : PublicLevelTransitionKind
  fromLevel : ℕ
  toLevel : ℕ
  cost : PublicCost

structure PublicHybridRoundTrip where
  identity : String
  inputLevel : ℕ
  outputLevel : ℕ
  entry : PublicCost
  evaluate : PublicCost
  recover : PublicCost

structure PublicLevelOperation where
  identity : String
  predecessors : List String
  primitive : PublicPrimitive
  depth : ℕ
  compute : List PublicLevelCompute
  transitions : List PublicLevelTransition
  hybrid : List PublicHybridRoundTrip
  deriving Inhabited

structure PublicLevelProblem where
  costModelIdentity : String
  costUnit : String
  maximumLevel : ℕ
  inputLevel : ℕ
  outputLevel : ℕ
  operations : List PublicLevelOperation

structure PublicLevelSolverCapacity where
  maxOperations : ℕ
  maxLevels : ℕ
  maxTableRows : ℕ
  maxVertices : ℕ
  maxWork : ℕ
  maxBufferBytes : ℕ

inductive PublicLevelChoice
  | ckks (computeRow transitionRow : ℕ)
  | hybrid (roundTripRow : ℕ)
  deriving DecidableEq

structure PublicLevelPathStep where
  operationIdentity : String
  inputLevel : ℕ
  outputLevel : ℕ
  choice : PublicLevelChoice
  charges : List PublicCost
  totalCost : ℕ
  deriving DecidableEq

structure PublicLevelCostLedger where
  problemDigest : String
  steps : List PublicLevelPathStep
  totalCost : ℕ
  deriving DecidableEq

structure PublicLevelSolution where
  ledger : PublicLevelCostLedger
  ledgerDigest : String
  deriving DecidableEq

/-- What the solver takes from its surroundings: the canonical digests, the allocator and the size
of a table cell. -/
structure Platform where
  problemDigest : PublicLevelProblem → String
  ledgerDigest : PublicLevelCostLedger → String
  reserve : ℕ → Bool
  cellBytes : ℕ

def add (a b : ℕ) : Except String ℕ :=
  if a+b<2^64 then .ok (a+b) else .error "solver size overflow"

def mul (a b : ℕ) : Except String ℕ :=
  if a*b<2^64 then .ok (a*b) else .error "solver size overflow"

def identity (s : String) : Except String Unit :=
  if validIdentity s=false then .error "invalid public identity" else .ok ()

def cost (c : PublicCost) : Except String ℕ := do
  identity c.identity
  match c.units with
  | some units => .ok units
  | none => .error "unknown public cost/capability"

def sumCost (a b : ℕ) : Except String ℕ :=
  if a+b<2^64 then .ok (a+b) else .error "public cost overflow"

lemma add_eq_ok {a b c : ℕ} (h : add a b = .ok c) : c=a+b := by
  exact (ite_ok_eq_ok.mp h).2.symm

lemma sumCost_eq_ok {a b c : ℕ} : sumCost a b = .ok c ↔ a+b<2^64 ∧ c=a+b := by
  rw [sumCost,ite_ok_eq_ok,@eq_comm _ c]

/-- The cost of a whole round trip. -/
def hybridCost (h : PublicHybridRoundTrip) : Except String ℕ := do
  let entry ← cost h.entry
  let evaluate ← cost h.evaluate
  let partialCost ← sumCost entry evaluate
  let recover ← cost h.recover
  sumCost partialCost recover

def preflightRow (tables : ℕ × ℕ) (op : PublicLevelOperation) : Except String (ℕ × ℕ) := do
  let rows ← add tables.1 op.predecessors.length
  let ckks ← add op.compute.length op.transitions.length
  let entries ← add ckks op.hybrid.length
  let rows ← add rows entries
  let pairs ← mul op.compute.length op.transitions.length
  let work ← add tables.2 pairs
  let work ← add work op.hybrid.length
  return (rows,work)

def preflight (env : Platform) (p : PublicLevelProblem) (c : PublicLevelSolverCapacity) :
    Except String ℕ := do
  let n := p.operations.length
  let levels ← add p.maximumLevel 1
  if n=0 ∨ n>c.maxOperations ∨ levels>c.maxLevels then
    .error "operation/level capacity exceeded"
  else do
    let layers ← add n 1
    let vertices ← mul layers levels
    if vertices>c.maxVertices then .error "vertex capacity exceeded"
    else do
      let (rows,work) ← p.operations.foldlM preflightRow (n,vertices)
      let pairs ← mul rows rows
      let work ← add work pairs
      let cells ← mul vertices env.cellBytes
      let records ← mul n 5
      let records ← add rows records
      let records ← mul records 16384
      let bytes ← add cells records
      if rows>c.maxTableRows ∨ work>c.maxWork ∨ bytes>c.maxBufferBytes then
        .error "table/work/buffer capacity exceeded"
      else return levels

def validateCompute (p : PublicLevelProblem) (op : PublicLevelOperation)
    (entry : PublicLevelCompute × ℕ) : Except String Unit := do
  let (row,j) := entry
  let _ ← cost row.cost
  if row.inputLevel<op.depth ∨ row.inputLevel>p.maximumLevel
      ∨ (op.compute.take j).any fun x => x.inputLevel==row.inputLevel then
    .error "invalid/duplicate computation level"
  else .ok ()

def PublicLevelTransition.legal (t : PublicLevelTransition) : Bool :=
  match t.kind with
  | .preserve => decide (t.toLevel=t.fromLevel) && decide (t.cost.units=some 0)
  | .drop => decide (t.toLevel<t.fromLevel)
  | .refresh => decide (t.toLevel>t.fromLevel)

def validateTransition (p : PublicLevelProblem) (op : PublicLevelOperation)
    (entry : PublicLevelTransition × ℕ) : Except String Unit := do
  let (t,j) := entry
  let _ ← cost t.cost
  if t.legal=false ∨ t.fromLevel>p.maximumLevel ∨ t.toLevel>p.maximumLevel
      ∨ (op.transitions.take j).any fun x => x.cost.identity==t.cost.identity then
    .error "invalid/duplicate legal transition"
  else .ok ()

def validateHybrid (p : PublicLevelProblem) (op : PublicLevelOperation)
    (entry : PublicHybridRoundTrip × ℕ) : Except String Unit := do
  let (h,j) := entry
  identity h.identity
  let _ ← hybridCost h
  if op.primitive = .arithmetic ∨ h.inputLevel>p.maximumLevel ∨ h.outputLevel>p.maximumLevel
      ∨ (op.hybrid.take j).any fun x => x.identity==h.identity then
    .error "invalid hybrid capability"
  else .ok ()

/-- The table entries an operation must have: one for each level from its depth on. -/
def expectedCompute (p : PublicLevelProblem) (op : PublicLevelOperation) : ℕ :=
  if op.depth>p.maximumLevel then 0 else p.maximumLevel-op.depth+1

def validateOperation (p : PublicLevelProblem) (entry : PublicLevelOperation × ℕ) :
    Except String Unit := do
  let (op,i) := entry
  identity op.identity
  if (p.operations.take i).any fun x => x.identity==op.identity then
    .error "duplicate operation identity"
  else if (i=0 ∧ op.predecessors ≠ []) ∨ (i>0 ∧ (op.predecessors.length≠1
      ∨ op.predecessors.getD 0 "" ≠ (p.operations.getD (i-1) default).identity)) then
    .error "branch/join or non-chain dependency unsupported"
  else if op.primitive = .unknownNonlinear then .error "unknown nonlinear primitive"
  else if op.compute.length ≠ expectedCompute p op then .error "incomplete computation cost table"
  else do
    op.compute.zipIdx.forM (validateCompute p op)
    op.transitions.zipIdx.forM (validateTransition p op)
    op.hybrid.zipIdx.forM (validateHybrid p op)

def validate (p : PublicLevelProblem) : Except String Unit := do
  identity p.costModelIdentity
  identity p.costUnit
  if p.inputLevel>p.maximumLevel ∨ p.outputLevel>p.maximumLevel then
    .error "boundary level outside public range"
  else p.operations.zipIdx.forM (validateOperation p)

/-- One vertex: its distance, and the input level, row and transition of the edge that gave it. -/
structure Cell where
  distance : Option ℕ
  predecessor : Option (ℕ × ℕ × Option ℕ)

def Cell.unreached : Cell := ⟨none,none⟩

def relax (cell : Cell) (base : Option ℕ) (edge : ℕ) (pred : ℕ × ℕ × Option ℕ) :
    Except String Cell :=
  match base with
  | none => .ok cell
  | some base => do
    let candidate ← sumCost base edge
    if cell.distance.all fun old => decide (candidate<old) then
      .ok ⟨some candidate,some pred⟩
    else .ok cell

/-- `relax(&mut cells[index], ..)`. -/
def relaxAt (cells : List Cell) (index : ℕ) (base : Option ℕ) (edge : ℕ)
    (pred : ℕ × ℕ × Option ℕ) : Except String (List Cell) := do
  let cell ← relax (cells.getD index .unreached) base edge pred
  return cells.set index cell

def distanceAt (cells : List Cell) (index : ℕ) : Option ℕ := (cells.getD index .unreached).distance

/-- The edge of a computation and a transition, when the levels match. -/
def relaxTransition (levels i j : ℕ) (op : PublicLevelOperation) (row : PublicLevelCompute)
    (base : Option ℕ) (cells : List Cell) (entry : PublicLevelTransition × ℕ) :
    Except String (List Cell) :=
  let (t,k) := entry
  if t.fromLevel=row.inputLevel-op.depth then do
    let computed ← cost row.cost
    let moved ← cost t.cost
    let edge ← sumCost computed moved
    relaxAt cells ((i+1)*levels+t.toLevel) base edge (row.inputLevel,j,some k)
  else .ok cells

def relaxCompute (levels i : ℕ) (op : PublicLevelOperation) (cells : List Cell)
    (entry : PublicLevelCompute × ℕ) : Except String (List Cell) :=
  let (row,j) := entry
  let base := distanceAt cells (i*levels+row.inputLevel)
  op.transitions.zipIdx.foldlM (relaxTransition levels i j op row base) cells

def relaxHybrid (levels i : ℕ) (cells : List Cell) (entry : PublicHybridRoundTrip × ℕ) :
    Except String (List Cell) := do
  let (h,j) := entry
  let base := distanceAt cells (i*levels+h.inputLevel)
  let edge ← hybridCost h
  relaxAt cells ((i+1)*levels+h.outputLevel) base edge (h.inputLevel,j,none)

def relaxOperation (levels : ℕ) (cells : List Cell) (entry : PublicLevelOperation × ℕ) :
    Except String (List Cell) := do
  let (op,i) := entry
  let cells ← op.compute.zipIdx.foldlM (relaxCompute levels i op) cells
  op.hybrid.zipIdx.foldlM (relaxHybrid levels i) cells

/-- The charges of a choice: computation and transition, or entry, evaluation and recovery. -/
def chargesOf (op : PublicLevelOperation) (row : ℕ) : Option ℕ → Option (PublicLevelChoice × List PublicCost)
  | some k => do
    let compute ← op.compute[row]?
    let transition ← op.transitions[k]?
    return (.ckks row k,[compute.cost,transition.cost])
  | none => do
    let h ← op.hybrid[row]?
    return (.hybrid row,[h.entry,h.evaluate,h.recover])

/-- `subtotal` over the charges. -/
def subtotalOf (charges : List PublicCost) : Except String ℕ :=
  charges.foldlM (fun subtotal charge => do
    let units ← cost charge
    sumCost subtotal units) 0

/-- The loop from the last operation to the first; an index that is out of range panics. -/
def backtrack (p : PublicLevelProblem) (levels : ℕ) (cells : List Cell) :
    ℕ → ℕ → List PublicLevelPathStep → Except String (ℕ × List PublicLevelPathStep)
  | 0, output, steps => .ok (output,steps)
  | i+1, output, steps =>
    let op := p.operations.getD i default
    match (cells.getD ((i+1)*levels+output) .unreached).predecessor with
    | none => .error "missing path predecessor"
    | some (input,row,transition) =>
      match chargesOf op row transition with
      | none => .error "panic"
      | some (choice,charges) => do
        let subtotal ← subtotalOf charges
        backtrack p levels cells i input
          (⟨op.identity,input,output,choice,charges,subtotal⟩::steps)

def solvePublicEncryptedLevels (env : Platform) (p : PublicLevelProblem)
    (capacity : PublicLevelSolverCapacity) : Except String PublicLevelSolution := do
  let levels ← preflight env p capacity
  validate p
  let layers ← add p.operations.length 1
  let count ← mul layers levels
  if env.reserve count=false then .error "solver allocation failed"
  else do
    let cells := (List.replicate count Cell.unreached).set p.inputLevel ⟨some 0,none⟩
    let cells ← p.operations.zipIdx.foldlM (relaxOperation levels) cells
    match distanceAt cells (p.operations.length*levels+p.outputLevel) with
    | none => .error "requested output level unreachable"
    | some totalCost =>
      if env.reserve p.operations.length=false then .error "path allocation failed"
      else do
        let (output,steps) ← backtrack p levels cells p.operations.length p.outputLevel []
        let conserved ← steps.foldlM (fun conserved step => sumCost conserved step.totalCost) 0
        if output≠p.inputLevel ∨ conserved≠totalCost then
          .error "path cost conservation failure"
        else
          let ledger : PublicLevelCostLedger := ⟨env.problemDigest p,steps,totalCost⟩
          return ⟨ledger,env.ledgerDigest ledger⟩

end Pllm.Levels
