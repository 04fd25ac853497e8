import Pllm.Lib.Exec

/-! Greedy decoding with drafted tokens. One controller checks a draft row by row with snapshots, the
other evaluates whole blocks and cuts the rejected rows from the cache. Calls of the target, of the
drafter and of the listener may fail; each is one request. -/
namespace Pllm.Decoder.GreedyVerification
open Pllm.Lib

section
variable (R V : Type)

/-- A deterministic causal decoder: the rows kept for earlier tokens and the next token give the row
that is kept for it and its scores. -/
structure Target where
  vocabSize : ℕ
  step : List R → ℤ → R × List V
  width : ∀ c t,(step c t).2.length = vocabSize
  positive : 0<vocabSize

inductive Phase
  | completedPrefill
  | incremental
  deriving DecidableEq

/-- What the kept rows were computed by. -/
structure Basis where
  phase : Phase
  position : ℕ
  ownerResponseId : Option ℕ

/-- The last field counts the rows that the target evaluated. -/
structure Runtime where
  caches : List R
  position : ℕ
  basis : Option Basis
  continuationOwner : Option ℕ
  continuationFailed : Bool
  observed : Bool
  evaluated : ℕ

structure Snapshot where
  position : ℕ
  caches : List R
  basis : Option Basis

/-- A call of the target that fails leaves what its layers had written. -/
inductive Failure
  | valueError
  | clientError
  | assertionError
  | target (left : List R)
  | callback

end

variable {R V : Type}

abbrev Run (R α : Type) := Exec (Failure R) (Runtime R) α

namespace Target

/-- A block of tokens, row by row. -/
def block (T : Target R V) : List R → List ℤ → List R × List (List V)
  | c,[] => (c,[])
  | c,t::ts =>
    let row := T.step c t
    let rest := T.block (c++[row.1]) ts
    (rest.1,row.2::rest.2)

end Target

def Failure.left : Failure R → List R → List R
  | .target left,_ => left
  | _,kept => kept

/-- `np.argmax` -/
def argmax [LinearOrder V] (scores : List V) : ℕ :=
  scores.findIdx fun x => decide (∀ y∈scores,y≤x)

namespace Runtime

def reset (r : Runtime R) : Runtime R :=
  { r with caches := [], position := 0, basis := none, continuationOwner := none }

def snapshot (r : Runtime R) : Snapshot R := ⟨r.position,r.caches,r.basis⟩

def restore (r : Runtime R) (saved : Snapshot R) : Runtime R :=
  { r with position := saved.position, caches := saved.caches }

end Runtime

section
variable (T : Target R V)

/-- The target's own work on one block. -/
def evaluate (ids : List ℤ) : Run R (List (List V)) := fun deny r k =>
  match deny k with
  | none =>
    let block := T.block r.caches ids
    (.ok block.2,
      { r with
        caches := block.1
        position := r.position+ids.length
        evaluated := r.evaluated+ids.length },k+1)
  | some e => (.error e,{ r with caches := e.left r.caches },k+1)

/-- A drafted vector, checked. -/
def draft (propose : ℕ → List ℤ → ℕ → Option (List ℤ)) (index : ℕ) (history : List ℤ) (cap : ℕ)
    (bound : ℤ → Bool) : Run R (List ℤ) := do
  Exec.request
  let proposals ← Exec.expect (propose index history cap) .valueError
  Exec.require (1≤proposals.length ∧ proposals.length ≤ cap ∧ proposals.all bound) .valueError
  pure proposals

end

section
variable [LinearOrder V] (T : Target R V)

/-- What `verify_greedy` keeps between its windows. -/
structure Serial (V : Type) where
  history : List ℤ
  generated : List ℤ
  pending : Option ℤ
  logits : List V
  offered : ℕ
  accepted : ℕ
  wasted : ℕ
  targetRows : ℕ
  windows : ℕ

/-- The last row of a call. -/
def lastRow (rows : List (List V)) : Run R (List V) := Exec.expect rows.getLast? .clientError

def prepareIds (ids : List ℤ) : Run R (List V) := do
  Exec.modify Runtime.reset
  let rows ← evaluate T ids
  lastRow rows

def forwardIds (ids : List ℤ) : Run R (List V) := do
  Exec.require (ids ≠ []) .clientError
  let rows ← evaluate T ids
  lastRow rows

/-- The target's scores after each proposal, and the state it was in. -/
def score : List ℤ → Run R (List (List V) × List (Snapshot R))
  | [] => pure ([],[])
  | token::tokens => do
    let scores ← forwardIds T [token]
    let r ← Exec.read
    let rest ← score tokens
    pure (scores::rest.1,r.snapshot::rest.2)

/-- How many proposals are the target's own choices. -/
def accept : List ℤ → List (List V) → ℕ
  | token::tokens,scores::rest => if token ≠ argmax scores then 0 else accept tokens rest+1
  | _,_ => 0

/-- The pending correction is fed to the target. -/
def feed (s : Serial V) : Run R (Serial V) :=
  match s.pending with
  | some token => do
    let logits ← forwardIds T [token]
    pure { s with
      logits := logits
      history := s.history++[token]
      targetRows := s.targetRows+1
      pending := none }
  | none => pure s

def serialWindow (propose : ℕ → List ℤ → ℕ → Option (List ℤ)) (cap : ℕ) (s : Serial V) :
    Run R (Serial V) := do
  let proposals ← draft propose s.windows s.history cap fun token => decide (0≤token)
  let before ← Exec.read
  let scored ← score T proposals
  let scores := s.logits::scored.1
  let snapshots := before.snapshot::scored.2
  let accepted := accept proposals scores
  let saved ← Exec.expect snapshots[accepted]? .valueError
  Exec.modify fun r => r.restore saved
  let logits ← Exec.expect scores[accepted]? .valueError
  let pending : ℤ := argmax logits
  pure { s with
    windows := s.windows+1
    offered := s.offered+proposals.length
    targetRows := s.targetRows+proposals.length
    accepted := s.accepted+accepted
    wasted := s.wasted+(proposals.length-accepted)
    history := s.history++proposals.take accepted
    pending := some pending
    generated := s.generated++(proposals.take accepted++[pending])
    logits := logits }

/-- The loop; every window adds a token, so that as many windows as outputs are enough. -/
def serialLoop (propose : ℕ → List ℤ → ℕ → Option (List ℤ)) (outputs width : ℕ) :
    ℕ → Serial V → Run R (Serial V)
  | 0,s => pure s
  | fuel+1,s =>
    if s.generated.length<outputs then do
      let s ← feed T s
      let remaining := outputs-s.generated.length
      if remaining=1 then
        pure { s with generated := s.generated++[(argmax s.logits:ℤ)] }
      else do
        let s ← serialWindow T propose (min width (remaining-1)) s
        serialLoop propose outputs width fuel s
    else pure s

structure SerialReport where
  tokens : List ℤ
  draftOffered : ℕ
  draftAccepted : ℕ
  rejectedTargetRows : ℕ
  targetDecodeRows : ℕ
  verificationWindows : ℕ
  retainedPosition : ℕ

def verifyGreedy (prompt : List ℤ) (propose : ℕ → List ℤ → ℕ → Option (List ℤ))
    (outputs width : ℕ) : Run R SerialReport := do
  Exec.require (1≤outputs ∧ outputs≤32 ∧ 1≤width ∧ width≤8) .valueError
  Exec.require (1≤prompt.length ∧ prompt.length≤256 ∧ ∀ t∈prompt,0≤t) .valueError
  let logits ← prepareIds T prompt
  let s ← serialLoop T propose outputs width outputs ⟨prompt,[],none,logits,0,0,0,0,0⟩
  let r ← Exec.read
  Exec.require (r.position=prompt.length+outputs-1) .assertionError
  pure ⟨s.generated,s.offered,s.accepted,s.wasted,s.targetRows,s.windows,r.position⟩

end

/-! Whole blocks, on the semantic decoder with canonical full-KV execution. -/

/-- The bounds of one compiled graph. -/
structure Graph where
  querySequence : ℕ
  maximumKeySequence : ℕ

/-- The prefill and the decode graph of the runtime, and the continuation's: its admission of a query
after a prefix within some memory, its own graph, and the geometry of the client's head. -/
structure Contract where
  prefill : Graph
  decode : Graph
  installs : Bool
  admits : ℕ → ℕ → ℕ → Bool
  graph : Graph
  outFeatures : ℕ
  inFeatures : ℕ

namespace Contract

/-- The bytes of the heads that are evaluated on a block's earlier rows. -/
def extraBytes (c : Contract) (rows : ℕ) : ℕ := 4*rows*(3*c.outFeatures+c.inFeatures)

end Contract

def memoryBytes : ℕ := 2*2^30

/-- Whether a basis is one of a completed prefill that no response owns. -/
def Basis.completedPrefill (b : Basis) : Bool :=
  decide (b.phase = .completedPrefill ∧ b.ownerResponseId=none)

section
variable (T : Target R V) (c : Contract)

/-- One phase of the decoder. The state a phase starts from qualifies what it leaves. -/
def forwardPhase (continuation : Bool) (ids : List ℤ) : Run R (List (List V)) := do
  let r ← Exec.read
  Exec.require (r.continuationFailed=false) .clientError
  let decoding := continuation=false ∧ r.position≠0
  let graph := if continuation then c.graph else if r.position=0 then c.prefill else c.decode
  Exec.require (1 ≤ ids.length ∧ (if decoding then ids.length=1 else
    ids.length≤graph.querySequence) ∧ r.position+ids.length ≤ graph.maximumKeySequence) .clientError
  Exec.modify fun r => { r with basis := none }
  let rows ← evaluate T ids
  let incremental := (r.position≠0 ∧ continuation=false) ∨ ∃ b∈r.basis,b.completedPrefill=false
  Exec.modify fun r => { r with
    basis := some ⟨if incremental then .incremental else .completedPrefill,r.position,
      r.continuationOwner⟩ }
  pure rows

/-- A fresh prefill. -/
def prefill (ids : List ℤ) : Run R (List V) := do
  Exec.modify Runtime.reset
  let rows ← forwardPhase T c false ids
  lastRow rows

/-- A snapshot that one response owns, and its restoration. -/
def ownResponse (owner : ℕ) : Run R Unit := do
  let r ← Exec.read
  let basis ← Exec.expect r.basis .clientError
  Exec.require (1 ≤ r.position ∧ r.position ≤ c.decode.maximumKeySequence ∧
    r.caches.length=r.position) .clientError
  Exec.require (1≤basis.position ∧ basis.position=r.position) .clientError
  Exec.modify fun r => { r with
    basis := some { basis with ownerResponseId := some owner }
    continuationOwner := some owner }

/-- The rows of a block appended to the declared full cache. -/
def continueIds (ids : List ℤ) : Run R (List (List V)) := do
  let r ← Exec.read
  Exec.require (r.continuationFailed=false) .clientError
  Exec.checked (fun r => { r with continuationFailed := true }) do
    Exec.require (∀ t∈ids,0≤t ∧ t<T.vocabSize) .clientError
    Exec.require (c.admits r.position ids.length memoryBytes) .valueError
    let basis ← Exec.expect r.basis .clientError
    Exec.require (1≤basis.position ∧ basis.position=r.position ∧ (basis.completedPrefill ∨
      r.continuationOwner≠none ∧ basis.ownerResponseId=r.continuationOwner)) .clientError
    Exec.require (1 ≤ r.position ∧ r.position ≤ c.decode.maximumKeySequence ∧
      r.caches.length=r.position) .clientError
    forwardPhase T c true ids

/-- All rows of a block: the final one from the graph, the earlier ones from the head that the
observer evaluates on the hidden rows. -/
def targetBlock (block : List ℤ) : Run R (List (List V)) := do
  let extra := c.extraBytes block.length
  Exec.require (extra≤32*2^20) .valueError
  let r ← Exec.read
  Exec.require (c.admits r.position block.length (memoryBytes-extra)) .valueError
  Exec.modify fun r => { r with observed := true }
  let rows ← Exec.checked (fun r => { r with observed := false }) (continueIds T c block)
  Exec.modify fun r => { r with observed := false }
  pure (rows.dropLast++rows.getLast?.toList)

end

/-- The rejected rows are erased; what was attempted stays counted. -/
def truncateResponsePrefix (kept owner : ℕ) : Run R Unit := do
  let r ← Exec.read
  let basis ← Exec.expect r.basis .valueError
  Exec.require (1≤basis.position ∧ basis.position=r.position ∧
    basis.ownerResponseId = some owner ∧ 1≤kept ∧ kept ≤ r.position) .valueError
  Exec.modify fun r => { r with
    caches := r.caches.take kept
    position := kept
    basis := some ⟨.incremental,kept,some owner⟩ }

section
variable [LinearOrder V] (T : Target R V) (c : Contract)

/-- What `verify_batched_greedy` keeps between its windows. -/
structure Batch (V : Type) where
  history : List ℤ
  generated : List ℤ
  pending : List ℤ
  logits : List V
  offered : ℕ
  acceptedTotal : ℕ
  wasted : ℕ
  targetRows : ℕ
  windows : ℕ
  batches : ℕ
  maximumQueriedPosition : ℕ

/-- The accepted proposals are handed to the listener one by one. -/
def emitAccepted : List ℤ → List (List V) → Run R ℕ
  | token::tokens,scores::rest =>
    if token ≠ argmax scores then pure 0
    else do
      Exec.request
      let more ← emitAccepted tokens rest
      pure (more+1)
  | _,_ => pure 0

/-- The last output needs no draft. -/
def batchedDraft (propose : ℕ → List ℤ → ℕ → Option (List ℤ)) (outputs width : ℕ) (b : Batch V) :
    Run R (List ℤ) :=
  let remaining := outputs-b.generated.length
  if remaining=1 then pure []
  else draft propose b.windows b.history (min width (remaining-1)) fun token =>
    decide (0≤token ∧ token<T.vocabSize)

def batchedRows (block : List ℤ) : Run R (List (List V)) :=
  if block=[] then pure [] else targetBlock T c block

def batchedWindow (propose : ℕ → List ℤ → ℕ → Option (List ℤ)) (outputs width owner : ℕ)
    (b : Batch V) : Run R (Batch V) := do
  let proposals ← batchedDraft T propose outputs width b
  let start ← Exec.read
  let block := b.pending++proposals
  let rows ← batchedRows T c block
  Exec.require (rows.length=block.length ∧ ∀ row∈rows,row.length=T.vocabSize) .valueError
  let scores := if b.pending = [] then b.logits::rows else rows
  let reached ← Exec.read
  let accepted ← emitAccepted proposals scores
  let logits ← Exec.expect scores[accepted]? .valueError
  let correction : ℤ := argmax logits
  Exec.request
  truncateResponsePrefix (start.position+b.pending.length+accepted) owner
  pure
    { history := b.history++(proposals.take accepted++[correction])
      generated := b.generated++(proposals.take accepted++[correction])
      pending := [correction]
      logits := logits
      offered := b.offered+proposals.length
      acceptedTotal := b.acceptedTotal+accepted
      wasted := b.wasted+(proposals.length-accepted)
      targetRows := b.targetRows+block.length
      windows := b.windows+(if proposals = [] then 0 else 1)
      batches := b.batches+(if block = [] then 0 else 1)
      maximumQueriedPosition := max b.maximumQueriedPosition reached.position }

/-- The loop; every window adds a token, so that as many windows as outputs are enough. -/
def batchedLoop (propose : ℕ → List ℤ → ℕ → Option (List ℤ)) (outputs width owner : ℕ) :
    ℕ → Batch V → Run R (Batch V)
  | 0,b => pure b
  | fuel+1,b =>
    if b.generated.length<outputs then do
      let b ← batchedWindow T c propose outputs width owner b
      batchedLoop propose outputs width owner fuel b
    else pure b

structure BatchedReport where
  tokens : List ℤ
  draftOffered : ℕ
  draftAccepted : ℕ
  rejectedTargetRows : ℕ
  targetDecodeRows : ℕ
  verificationWindows : ℕ
  targetBatches : ℕ
  retainedPosition : ℕ
  maximumQueriedPosition : ℕ
  extraClientHeadRows : ℕ

/-- The part that cleans up after a failure. -/
def batchedOutputs (propose : ℕ → List ℤ → ℕ → Option (List ℤ)) (prompt : List ℤ)
    (outputs width owner : ℕ) (logits : List V) : Run R BatchedReport := do
  let start ← Exec.read
  let first : ℤ := argmax logits
  Exec.request
  let b ← batchedLoop T c propose outputs width owner outputs
    ⟨prompt++[first],[first],[first],logits,0,0,0,0,0,0,start.position⟩
  let r ← Exec.read
  Exec.require (r.position=prompt.length+outputs-1) .assertionError
  pure ⟨b.generated,b.offered,b.acceptedTotal,b.wasted,b.targetRows,b.windows,b.batches,r.position,
    b.maximumQueriedPosition,b.targetRows-b.batches⟩

/-- What comes before: the arguments, the admission, the prefill and the hand-over to the response. -/
def batchedPrefill (prompt : List ℤ) (outputs width owner : ℕ) : Run R (List V) := do
  Exec.require (1≤outputs ∧ outputs≤32 ∧ 1≤width ∧ width≤16) .valueError
  Exec.require (1≤prompt.length ∧ prompt.length≤256 ∧ ∀ t∈prompt,0≤t ∧ t<T.vocabSize)
    .valueError
  Exec.require (c.installs=true) .clientError
  let r ← Exec.read
  Exec.require (r.observed=false) .valueError
  Exec.require (outputs≤1 ∨ c.admits prompt.length (outputs-1) memoryBytes) .valueError
  let logits ← prefill T c prompt
  ownResponse c owner
  pure logits

/-- A failure resets the runtime and burns its continuation. -/
def verifyBatchedGreedy (propose : ℕ → List ℤ → ℕ → Option (List ℤ)) (prompt : List ℤ)
    (outputs width owner : ℕ) : Run R BatchedReport := do
  let logits ← batchedPrefill T c prompt outputs width owner
  Exec.checked (fun r => { r.reset with continuationFailed := true })
    (batchedOutputs T c propose prompt outputs width owner logits)

end

end Pllm.Decoder.GreedyVerification
