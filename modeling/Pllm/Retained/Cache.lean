import Pllm.Common.Slices
import Pllm.Garble.Boolean
import Pllm.Lib.Except

/-! Client-local key/value rows with their original token positions: append, compaction and close.
A stored `f32` is its 32 bits. -/
namespace Pllm.Retained
open Pllm.Lib

abbrev Float32 := BitVec 32

def Float32.isFinite (v : Float32) : Bool := (v.extractLsb' 23 8) != 255

def maxRows : ℕ := 8192
def maxWidth : ℕ := 8192
def maxPosition : ℕ := 2^20
def maxStorageBytes : ℕ := 64*2^20
def maxPrefillBytes : ℕ := 128*2^20

structure RetainedKvCache where
  keys : List Float32
  values : List Float32
  positions : List (BitVec 32)
  width : ℕ
  capacity : ℕ
  length : ℕ
  nextPosition : ℕ
  maximumPosition : ℕ
  closed : Bool
  deriving DecidableEq

def storageBytes (capacity width : ℕ) : Except String ℕ :=
  if capacity=0 ∨ capacity>maxRows ∨ width=0 ∨ width>maxWidth then
    .error "retained KV dimensions exceed their bounds"
  else if capacity*width*8+capacity*4>maxStorageBytes then
    .error "retained KV storage exceeds its allocation bound"
  else .ok (capacity*width*8+capacity*4)

def positionsValid (positions : List ℕ) (limit : ℕ) : Bool :=
  positions ≠ [] && positions.length ≤ maxRows && decide (positions.IsChain (· < ·))
    && decide (positions.getLastD 0 < limit)

namespace RetainedKvCache

def empty (width capacity maximumPosition : ℕ) : Except String RetainedKvCache := do
  let _ ← storageBytes capacity width
  return {
    keys := List.replicate (capacity*width) 0
    values := List.replicate (capacity*width) 0
    positions := List.replicate capacity 0
    width := width
    capacity := capacity
    length := 0
    nextPosition := 0
    maximumPosition := maximumPosition
    closed := false }

def live (self : RetainedKvCache) : Except String Unit :=
  if self.closed then .error "retained KV state is closed" else .ok ()

/-- Copies the chosen rows of `source` to consecutive rows of an empty cache. -/
def gatherRows (source : List Float32) (width : ℕ) (rows : List ℕ) (target : List Float32) :
    List Float32 :=
  splice target 0 (rows.flatMap fun row => slice source (row*width) width)

def fromPrefill (keys values : List Float32) (width : ℕ) (retained : List ℕ)
    (capacity maximumPosition : ℕ) : Except String RetainedKvCache := do
  let _ ← storageBytes capacity width
  if keys=[] ∨ keys.length≠values.length ∨ keys.length%width≠0
      ∨ keys.length>maxPrefillBytes/8 ∨ maximumPosition=0 ∨ maximumPosition>maxPosition then
    .error "retained KV prefill shape or position bound is invalid"
  else
    let rows := keys.length/width
    if rows>maxRows ∨ rows>maximumPosition ∨ retained.length>capacity
        ∨ !positionsValid retained rows ∨ (keys++values).any fun v => !Float32.isFinite v then
      .error "retained KV prefill values or selection are invalid"
    else do
      let result ← empty width capacity maximumPosition
      return { result with
        keys := gatherRows keys width retained result.keys
        values := gatherRows values width retained result.values
        positions := splice result.positions 0 (retained.map (BitVec.ofNat 32))
        length := retained.length
        nextPosition := rows }

def append (self : RetainedKvCache) (firstPosition : ℕ) (keys values : List Float32) :
    Except String RetainedKvCache := do
  self.live
  if firstPosition≠self.nextPosition ∨ keys=[] ∨ keys.length≠values.length
      ∨ keys.length%self.width≠0 then
    .error "retained KV append shape or logical position differs"
  else
    let rows := keys.length/self.width
    if rows>self.capacity-self.length ∨ rows>self.maximumPosition-self.nextPosition
        ∨ (keys++values).any fun v => !Float32.isFinite v then
      .error "retained KV append exceeds capacity or has nonfinite values"
    else
      return { self with
        keys := splice self.keys (self.length*self.width) keys
        values := splice self.values (self.length*self.width) values
        positions := splice self.positions self.length
          ((List.range rows).map fun offset => BitVec.ofNat 32 (firstPosition+offset))
        length := self.length+rows
        nextPosition := self.nextPosition+rows }

/-- A binary search; the positions held are strictly increasing. -/
def find (positions : List (BitVec 32)) (position : BitVec 32) : Option ℕ :=
  positions.idxOf? position

def slots (self : RetainedKvCache) (positions : List ℕ) : Except String (List ℕ) := do
  self.live
  if !positionsValid positions self.nextPosition then
    .error "retained KV requested positions are invalid"
  else
    positions.mapM fun position =>
      match find (self.positions.take self.length) (BitVec.ofNat 32 position) with
      | some slot => .ok slot
      | none => .error "retained KV requested position was evicted"

def retain (self : RetainedKvCache) (positions : List ℕ) (capacity : ℕ) :
    Except String RetainedKvCache := do
  let slots ← self.slots positions
  if capacity<positions.length ∨ capacity>self.capacity then
    .error "retained KV compaction capacity is invalid"
  else do
    let next ← empty self.width capacity self.maximumPosition
    return { next with
      keys := gatherRows self.keys self.width slots next.keys
      values := gatherRows self.values self.width slots next.values
      positions := splice next.positions 0 (positions.map (BitVec.ofNat 32))
      length := positions.length
      nextPosition := self.nextPosition }

/-- The rows in use: keys, values and positions. -/
def active (self : RetainedKvCache) :
    Except String (List Float32 × List Float32 × List (BitVec 32)) := do
  self.live
  return (self.keys.take (self.length*self.width),self.values.take (self.length*self.width),
    self.positions.take self.length)

def allocatedBytes (self : RetainedKvCache) : ℕ :=
  (self.keys.length+self.values.length)*4+self.positions.length*4

def close (self : RetainedKvCache) : RetainedKvCache :=
  { self with
    keys := []
    values := []
    positions := []
    length := 0
    capacity := 0
    nextPosition := 0
    closed := true }

lemma retain_eq_ok {self next : RetainedKvCache} {positions : List ℕ} {capacity : ℕ}
    (h : self.retain positions capacity = .ok next) :
    next.capacity=capacity ∧ next.length=positions.length ∧ next.width=self.width ∧
      next.nextPosition=self.nextPosition ∧ self.closed=false := by
  simp only [retain,slots,live,empty,bind_eq_ok,ite_error_eq_ok,pure_eq_ok,ok_eq_ok] at h
  obtain ⟨slots,⟨_,⟨hlive,-⟩,-⟩,-,cache,⟨_,-,rfl⟩,rfl⟩ := h
  exact ⟨rfl,rfl,rfl,rfl,by simpa using hlive⟩

end RetainedKvCache

open Pllm.Garble

def maxSelectionRows : ℕ := 512
def maxSelectionWidth : ℕ := 8192
def maxAllocationBytes : ℕ := 64*2^20

inductive Layout
  | fullRecords
  | compactIndices
  deriving DecidableEq

/-- The exponent of `n.next_power_of_two()`. -/
def ceilLog2 (n : ℕ) : ℕ := Nat.clog 2 n

def nextPowerOfTwo (n : ℕ) : ℕ := 2^ceilLog2 n

def indexBits (rows : ℕ) : ℕ := max (ceilLog2 rows) 4

/-- Float score, recent and valid bits over the index. -/
def rankBits (rows : ℕ) : ℕ := indexBits rows+34

structure Context where
  plan : BitVec 256
  source : BitVec 256
  stateContract : BitVec 256
  layer : ℕ
  deriving DecidableEq

structure Policy where
  keep : ℕ
  recent : ℕ
  deriving DecidableEq

structure Binding where
  context : Context
  owner : BitVec 256
  revision : ℕ
  issuance : CircuitId
  rows : ℕ
  width : ℕ
  nextPosition : ℕ
  policy : Policy
  layout : Layout
  deriving DecidableEq

structure Estimate where
  wireBound : ℕ
  combinedAllocationBoundBytes : ℕ
  inputBits : ℕ
  outputBits : ℕ

structure Projection where
  estimate : Estimate
  actualWires : ℕ
  andGates : ℕ
  constantLabelBytes : ℕ
  publicMetadataBytesEstimate : ℕ

def Projection.admitted (self : Projection) : Bool :=
  self.estimate.combinedAllocationBoundBytes ≤ maxAllocationBytes
    && self.estimate.inputBits ≤ maxReferenceInputs
    && self.estimate.outputBits ≤ maxReferenceOutputs
    && self.estimate.wireBound ≤ maxReferenceWires
    && self.andGates ≤ maxReferenceAndGates

def comparisons (rows : ℕ) : ℕ :=
  let n := nextPowerOfTwo rows
  let levels := ceilLog2 rows
  n*levels*(levels+1)/4

/-- The exact gate counts of the two layouts; every count has to fit a `usize`. -/
def project (rows width : ℕ) (policy : Policy) (stateBytes : ℕ) (layout : Layout) :
    Except String Projection :=
  if ¬(1 ≤ rows ∧ rows ≤ maxSelectionRows) ∨ ¬(1≤width ∧ width ≤ maxSelectionWidth)
      ∨ policy.keep=0 ∨ policy.keep>rows ∨ policy.recent>policy.keep then
    .error "retained selection geometry or policy exceeds its bounds"
  else
    let index := indexBits rows
    let rank := index+34
    let gatherIndex := index+1
    let payload := 32+64*width
    let input := rows*(32+payload)
    let output := policy.keep*payload
    let record := match layout with
      | .fullRecords => rank+payload
      | .compactIndices => rank+gatherIndex
    let orderKey := match layout with
      | .fullRecords => 32
      | .compactIndices => gatherIndex
    let first := comparisons rows
    let second := comparisons policy.keep
    let keyBits := first*rank+second*orderKey
    let swaps := (first+second)*record
    let constants := rows*(index+2+if layout = .compactIndices then gatherIndex else 0)
      +(nextPowerOfTwo rows-rows+(nextPowerOfTwo policy.keep-policy.keep))*record
      +2*(first+second)
    let gatherNots := if layout = .compactIndices then policy.keep*gatherIndex else 0
    let gatherAnds :=
      if layout = .compactIndices then policy.keep*rows*(gatherIndex-1+payload) else 0
    let gatherXors := if layout = .compactIndices then policy.keep*(rows-1)*payload else 0
    let nots := 2*keyBits+gatherNots
    let xors := 2*keyBits+3*swaps+gatherXors
    let ands := 3*keyBits+swaps+gatherAnds
    let gatherWires := gatherNots+gatherAnds+gatherXors
    let actualWires := input+constants+nots+xors+ands
    let wireBound := input+2*(nextPowerOfTwo rows+nextPowerOfTwo policy.keep)*record
      +first*(7*rank+2+4*record)+second*(7*orderKey+2+4*record)+gatherWires
    let allocation := wireBound*384+(input+output)*64+4*2^20+2*stateBytes
    let constantLabelBytes := constants*16
    let metadata := 64+8*output+constants+9*nots+17*xors+25*ands
    if [wireBound,allocation,input,output,actualWires,ands,constantLabelBytes,metadata].any
        fun n => decide (n≥2^64) then
      .error "retained selection resource size overflows usize"
    else .ok
      { estimate := ⟨wireBound,allocation,input,output⟩
        actualWires := actualWires
        andGates := ands
        constantLabelBytes := constantLabelBytes
        publicMetadataBytesEstimate := metadata }

def estimateLayout (rows width : ℕ) (policy : Policy) (stateAllocationBytes : ℕ) (layout : Layout) :
    Except String Estimate := do
  let projection ← project rows width policy stateAllocationBytes layout
  if !projection.admitted then
    .error "retained selection exceeds its allocation or circuit boundary limit"
  else return projection.estimate

structure SelectionOwner where
  cache : RetainedKvCache
  context : Context
  identity : BitVec 256
  revision : ℕ
  pending : Option CircuitId

structure SelectionClient where
  binding : Binding
  decoder : BooleanCircuitDecoder
  deriving DecidableEq

structure SelectionEvaluator where
  binding : Binding
  program : BooleanCircuitProgram
  inputs : BooleanCircuitInputs

structure SelectionOutput where
  binding : Binding
  outputs : BooleanCircuitOutputs

/-- The bits of a word, lowest first. -/
def pushWord (value : BitVec 32) : List Bool := (List.range 32).map value.getLsbD

def readWord (bits : List Bool) : BitVec 32 :=
  bits.zipIdx.foldl (fun n (v,bit) => n ||| ((BitVec.ofBool v).setWidth 32 <<< bit)) 0

/-- `score < 0.0`, for a finite score. -/
def Float32.isNegative (v : Float32) : Bool := v.getLsbD 31 && v != 0x80000000

/-- `score.to_bits()`, with both zeros as zero. -/
def scoreBits (score : Float32) : BitVec 32 := if score=0x80000000 then 0 else score

/-- The private inputs of a selection, row by row. -/
def inputBits (scores keys values : List Float32) (positions : List (BitVec 32)) (width : ℕ) :
    List Bool :=
  (positions.zip scores).zipIdx.flatMap fun ((position,score),row) =>
    pushWord (scoreBits score)++pushWord position
      ++ (slice keys (row*width) width++slice values (row*width) width).flatMap pushWord

/-- The circuit of a layout, built with the draws of one issuance. -/
abbrev CircuitBuild :=
  Layout → ℕ → ℕ → Policy → Except String (BooleanCircuitClient × BooleanCircuitProgram)

namespace SelectionOwner

def new (context : Context) (cache : RetainedKvCache) (identity : BitVec 256) :
    Except String SelectionOwner :=
  if context.plan=0 ∨ context.source=0 ∨ context.stateContract=0 ∨ context.layer≥128 then
    .error "retained selection context is invalid"
  else do
    let _ ← cache.active
    return ⟨cache,context,identity,0,none⟩

/-- `revision.checked_add(1)` on a `u64`. -/
def nextRevision (self : SelectionOwner) : Except String ℕ :=
  if self.revision+1≥2^64 then .error "selection revision exhausted" else .ok (self.revision+1)

def append (self : SelectionOwner) (first : ℕ) (keys values : List Float32) :
    Except String Unit × SelectionOwner :=
  match (do
    let revision ← self.nextRevision
    let cache ← self.cache.append first keys values
    return (revision,cache)) with
  | .error e => (.error e,self)
  | .ok (revision,cache) =>
    (.ok (),{ self with
      revision := revision
      cache := cache
      pending := none })

def cancel (self : SelectionOwner) : SelectionOwner := { self with pending := none }

def close (self : SelectionOwner) : SelectionOwner :=
  { self.cancel with cache := self.cancel.cache.close }

/-- All of `issue_with_layout` that may fail; it leaves the owner as it is. -/
def prepare (build : CircuitBuild) (self : SelectionOwner) (scores : List Float32) (policy : Policy)
    (layout : Layout) : Except String (SelectionClient × SelectionEvaluator) := do
  let (keys,values,positions) ← self.cache.active
  if self.pending.isSome then
    .error "retained selection already has an outstanding query"
  else if scores.length≠positions.length
      ∨ scores.any (fun v => !Float32.isFinite v || Float32.isNegative v) then
    .error "retained selection requires one finite nonnegative score per row"
  else do
    let bound ← estimateLayout positions.length self.cache.width policy self.cache.allocatedBytes
      layout
    let _ ← self.nextRevision
    let width := self.cache.width
    let (encoder,program) ← build layout positions.length width policy
    if program.wireCount>bound.wireBound then
      .error "retained selection circuit exceeds preflight"
    else do
      let binding : Binding :=
        { context := self.context
          owner := self.identity
          revision := self.revision
          issuance := program.circuitId
          rows := positions.length
          width := width
          nextPosition := self.cache.nextPosition
          policy := policy
          layout := layout }
      let (inputs,decoder) ← encoder.encode (inputBits scores keys values positions width)
      return (⟨binding,decoder⟩,⟨binding,program,inputs⟩)

def issueWithLayout (build : CircuitBuild) (self : SelectionOwner) (scores : List Float32)
    (policy : Policy) (layout : Layout) :
    Except String (SelectionClient × SelectionEvaluator) × SelectionOwner :=
  match self.prepare build scores policy layout with
  | .error e => (.error e,self)
  | .ok issued => (.ok issued,{ self with pending := some issued.1.binding.issuance })

end SelectionOwner

namespace SelectionClient

/-- The loop over the decoded records: each names an owned position, above the one before, and
repeats that row's words. -/
def checkRecords (keys values : List Float32) (positions : List (BitVec 32)) (width : ℕ) :
    Option ℕ → List (List Bool) → Except String (List ℕ)
  | _, [] => .ok []
  | last, record::records =>
    let position := readWord (record.take 32)
    if last.any fun p => decide (p≥position.toNat) then
      .error "retained selection output positions are not ordered"
    else
      match RetainedKvCache.find positions position with
      | none => .error "retained selection output position is not owned"
      | some row =>
        if ((chunksExact 32 (record.drop 32)).zip
            (slice keys (row*width) width++slice values (row*width) width)).any
              fun (encoded,value) => readWord encoded != value then
          .error "retained selection output KV does not match its owner"
        else do
          let rest ← checkRecords keys values positions width (some position.toNat) records
          return position.toNat::rest

/-- What `finish` does once the issuance is burned: the compacted cache and the next revision. -/
def commit (self : SelectionClient) (owner : SelectionOwner) (output : SelectionOutput) :
    Except String (RetainedKvCache × ℕ) := do
  let b := self.binding
  if output.binding≠b ∨ owner.context≠b.context ∨ owner.revision≠b.revision
      ∨ owner.cache.length≠b.rows ∨ owner.cache.width≠b.width
      ∨ owner.cache.nextPosition≠b.nextPosition then
    .error "retained selection state or output context mismatch"
  else do
    let bits ← self.decoder.decode output.outputs
    let (keys,values,positions) ← owner.cache.active
    let rowBits := 32+64*b.width
    if bits.length≠b.policy.keep*rowBits then
      .error "retained selection output shape mismatch"
    else do
      let selected ← checkRecords keys values positions b.width none (chunksExact rowBits bits)
      let capacity := b.policy.keep+owner.cache.capacity-owner.cache.length
      let revision ← owner.nextRevision
      let cache ← owner.cache.retain selected capacity
      return (cache,revision)

def finish (self : SelectionClient) (owner : SelectionOwner) (output : SelectionOutput) :
    Except String Unit × SelectionOwner :=
  if owner.identity≠self.binding.owner ∨ owner.pending ≠ some self.binding.issuance then
    (.error "retained selection owner or issuance is stale",owner)
  else
    -- the issuance is burned before any further check
    let owner := { owner with pending := none }
    match self.commit owner output with
    | .error e => (.error e,owner)
    | .ok (cache,revision) => (.ok (),{ owner with cache := cache, revision := revision })

end SelectionClient

end Pllm.Retained
