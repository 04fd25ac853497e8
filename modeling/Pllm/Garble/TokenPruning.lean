import Pllm.Garble.Gadgets

/-! Token pruning: the circuit that counts the rows above a threshold, the circuit that moves the kept
rows to the front, and the projection of what both cost. -/
namespace Pllm.Garble.TokenPruning
open Pllm.Lib Retained

def scale : ℕ := 2^16
def maxAttentionElements : ℕ := 2^20
def maxAllocationBytes : ℕ := 64*2^20

structure Parameters where
  tokens : ℕ
  heads : ℕ
  features : ℕ
  thresholdQ16 : ℕ
  reductionThresholdQ16 : ℕ

namespace Parameters

def attentionElements (p : Parameters) : ℕ := p.heads*p.tokens*p.tokens

def validate (p : Parameters) : Except String Unit :=
  if ¬(1≤p.tokens ∧ p.tokens≤256) ∨ ¬(1≤p.heads ∧ p.heads≤32) ∨
      ¬(1≤p.features ∧ p.features≤8192) ∨ p.thresholdQ16≥p.reductionThresholdQ16 ∨
      p.reductionThresholdQ16>scale then
    .error "invalid token-pruning dimensions or Q16 thresholds"
  else if p.attentionElements>maxAttentionElements then
    .error "token-pruning attention exceeds its bounded input size"
  else .ok ()

/-- Validated parameters keep the product below `2^30`. -/
def scoreThreshold (p : Parameters) (reduction : Bool) : ℕ :=
  p.heads*p.tokens*if reduction then p.reductionThresholdQ16 else p.thresholdQ16

end Parameters

/-- The exchanges of all passes. -/
def swaps (tokens retained : ℕ) : Except String ℕ :=
  if tokens=0 ∨ tokens>256 ∨ retained>tokens then .error "invalid pruning-count projection"
  else
    let removed := tokens-retained
    .ok (removed*(2*tokens-removed-1)/2)

structure Counts where
  inputBits : ℕ
  outputBits : ℕ
  constants : ℕ
  nots : ℕ
  xors : ℕ
  ands : ℕ

def countOnes (word : ℕ) : ℕ := ((List.range 32).map word.testBit).count true

namespace Counts

def zero : Counts := ⟨0,0,0,0,0,0⟩

def wires (c : Counts) : ℕ := c.inputBits+c.constants+c.nots+c.xors+c.ands

def metadataBytes (c : Counts) : ℕ :=
  if c.wires=0 then 0
  else 64+8*c.outputBits+c.constants+9*c.nots+17*c.xors+25*c.ands

def adders (c : Counts) (count width : ℕ) : Counts :=
  { c with
    constants := c.constants+count
    xors := c.xors+count*width*3
    ands := c.ands+count*width*2 }

def subtractors (c : Counts) (count width : ℕ) : Counts :=
  let c := c.adders count width
  { c with nots := c.nots+count*width*2 }

def greater (c : Counts) (count threshold : ℕ) : Counts :=
  let ones := countOnes threshold
  { c with
    constants := c.constants+2*count
    nots := c.nots+33*count
    xors := c.xors+count*(ones+1)
    ands := c.ands+count*(32+ones) }

def check (c : Counts) (program : BooleanCircuitProgram) : Except String Unit :=
  if program.wireCount≠c.wires ∨ program.andGateCount≠c.ands ∨
      program.constantLabelBytes≠16*c.constants ∨
      program.publicMetadataBytesEstimate ≠ c.metadataBytes then
    .error "pruning circuit differs from its preflight resource contract"
  else .ok ()

end Counts

def countBits (tokens : ℕ) : ℕ := tokens.size

/-- The counts of both circuits, from the geometry alone. -/
def project (p : Parameters) (retained : ℕ) : Except String (Counts × Counts) := do
  p.validate
  if retained>p.tokens then throw "retained count exceeds input tokens"
  let n := p.tokens
  let k := retained
  let width := p.features
  let countWidth := countBits p.tokens
  let first : Counts :=
    { Counts.zero with inputBits := 65*n, outputBits := n+countWidth, constants := 1, xors := n }
  let first := ((first.adders n 32).greater n (p.scoreThreshold false)).adders n countWidth
  if retained≠0 ∧ retained≠p.tokens then
    let second : Counts := { Counts.zero with
      inputBits := 64*n*(width+1)+2*n+32*k*width
      outputBits := 32*k*width+if retained < p.tokens then k else 0
      xors := n }
    let second := second.adders (n*(width+1)) 32
    let swaps ← swaps p.tokens retained
    let recordBits := 1+32*(width+1)
    let second := { second with
      nots := second.nots+swaps
      xors := second.xors+3*swaps*recordBits
      ands := second.ands+swaps*recordBits }
    let second := second.subtractors (k*width) 32
    let second := if retained<p.tokens then second.greater k (p.scoreThreshold true) else second
    return (first,second)
  else return (first,Counts.zero)

def allocationEstimate (p : Parameters) : Except String ℕ := do
  p.validate
  let maximum ← (List.range (p.tokens+1)).foldlM (fun maximum kept => do
    let (first,second) ← project p kept
    let wires := first.wires+second.wires
    let boundaries := (first.inputBits+first.outputBits)+(second.inputBits+second.outputBits)
    return max maximum (384*wires+64*boundaries)) 0
  return maximum+16*(p.attentionElements+p.tokens*p.features)+4*2^20

/-- The limits of a one-use circuit. -/
def Counts.limits (c : Counts) : Except String Unit :=
  if c.inputBits>maxReferenceInputs ∨ c.outputBits>maxReferenceOutputs ∨
      c.wires>maxReferenceWires then
    .error "pruning exceeds the one-use circuit limits"
  else .ok ()

def admits (p : Parameters) : Except String ℕ := do
  let bytes ← allocationEstimate p
  if bytes>maxAllocationBytes then throw "pruning exceeds the 64 MiB allocation estimate"
  (List.range (p.tokens+1)).forM fun kept => do
    let (first,second) ← project p kept
    first.limits
    second.limits
  return bytes

section
variable (iss : Issuer)

def greater (word : List BooleanWire) (threshold : ℕ) : Drawing BooleanWire := do
  let (less,equal) ← iss.compareUnsignedToConstant word threshold
  let atMost ← iss.xor less equal
  iss.not atMost

/-- A row of the count circuit: two shares of its score and a mask. -/
def countInput : Drawing (List BooleanWire × List BooleanWire × BooleanWire) := do
  let left ← iss.inputWord 32
  let right ← iss.inputWord 32
  let mask ← iss.input
  return (left,right,mask)

def countRow (threshold : ℕ) (zero : BooleanWire) (state : List BooleanWire × List BooleanWire)
    (row : List BooleanWire × List BooleanWire × BooleanWire) :
    Drawing (List BooleanWire × List BooleanWire) := do
  let (score,_) ← iss.addUnsigned row.1 row.2.1
  let keep ← greater iss score threshold
  let output ← iss.xor keep row.2.2
  let addend := (List.replicate state.1.length zero).set 0 keep
  let (count,_) ← iss.addUnsigned state.1 addend
  return (count,state.2++[output])

/-- The outputs of the count circuit: a masked flag for each row, then the count. -/
def countOutputs (p : Parameters) : Drawing (List BooleanWire) := do
  let inputs ← (List.range p.tokens).mapM fun _ => countInput iss
  let zero ← iss.constant false
  let (count,outputs) ← inputs.foldlM (countRow iss (p.scoreThreshold false) zero)
    (List.replicate (countBits p.tokens) zero,[])
  return outputs++count

abbrev Circuit := BooleanCircuitClient × BooleanCircuitProgram

/-- Build, finish and compare with the projection. -/
def issue (circuitId : CircuitId) (drawn : Block) (counts : Counts)
    (outputs : Drawing (List BooleanWire)) : Except String Circuit := do
  let builder ← BooleanCircuitBuilder.withWireLimit circuitId drawn counts.wires
  let (outputs,draft) ← outputs ⟨builder,[]⟩
  let (client,program) ← draft.builder.finish outputs
  counts.check program
  return (client,program)

def countCircuit (circuitId : CircuitId) (drawn : Block) (p : Parameters) : Except String Circuit := do
  let (counts,_) ← project p 0
  issue circuitId drawn counts (countOutputs iss p)

def wordPair : Drawing (List BooleanWire × List BooleanWire) := do
  let left ← iss.inputWord 32
  let right ← iss.inputWord 32
  return (left,right)

/-- A row of the compaction circuit: two shares of its score and of each feature, and its flag. -/
def compactInput (features : ℕ) :
    Drawing (List (List BooleanWire × List BooleanWire) × BooleanWire × BooleanWire) := do
  let words ← (List.range (features+1)).mapM fun _ => wordPair iss
  let leftKeep ← iss.input
  let rightKeep ← iss.input
  return (words,leftKeep,rightKeep)

def openWord (pair : List BooleanWire × List BooleanWire) : Drawing (List BooleanWire) := do
  let (word,_) ← iss.addUnsigned pair.1 pair.2
  return word

/-- The flag comes first, then the score and the features. -/
def openRecord
    (row : List (List BooleanWire × List BooleanWire) × BooleanWire × BooleanWire) :
    Drawing (List BooleanWire) := do
  let flag ← iss.xor row.2.1 row.2.2
  let words ← row.1.mapM (openWord iss)
  return flag::words.flatten

def exchangeBit (swap : BooleanWire) (pair : BooleanWire × BooleanWire) :
    Drawing (BooleanWire × BooleanWire) := do
  let different ← iss.xor pair.1 pair.2
  let movement ← iss.and swap different
  let left ← iss.xor pair.1 movement
  let right ← iss.xor pair.2 movement
  return (left,right)

/-- A record that is not kept changes places with the next one. -/
def exchangeRow (records : List (List BooleanWire)) (row : ℕ) :
    Drawing (List (List BooleanWire)) := do
  let swap ← iss.not ((records.getD row []).getD 0 ⟨0,0⟩)
  let moved ← ((records.getD row []).zip (records.getD (row+1) [])).mapM (exchangeBit iss swap)
  return (records.set row (moved.map Prod.fst)).set (row+1) (moved.map Prod.snd)

def compactPass (tokens : ℕ) (records : List (List BooleanWire)) (pass : ℕ) :
    Drawing (List (List BooleanWire)) :=
  (List.range (tokens-pass-1)).foldlM (exchangeRow iss) records

def maskedFeature (record mask : List BooleanWire) (feature : ℕ) : Drawing (List BooleanWire) := do
  let (difference,_) ← iss.subtractUnsigned (slice record (33+feature*32) 32) mask
  return difference

def maskedRecord (features : ℕ) (masks : List (List BooleanWire))
    (row : ℕ × List BooleanWire) : Drawing (List BooleanWire) := do
  let words ← (List.range features).mapM fun feature =>
    maskedFeature iss row.2 (masks.getD (row.1*features+feature) []) feature
  return words.flatten

/-- The outputs of the compaction circuit: the masked features of the rows kept, then the degrees. -/
def compactOutputs (p : Parameters) (retained : ℕ) : Drawing (List BooleanWire) := do
  let inputs ← (List.range p.tokens).mapM fun _ => compactInput iss p.features
  let masks ← (List.range (retained*p.features)).mapM fun _ => iss.inputWord 32
  let records ← inputs.mapM (openRecord iss)
  let records ← (List.range (p.tokens-retained)).foldlM (compactPass iss p.tokens) records
  let words ← ((List.range retained).zip (records.take retained)).mapM
    (maskedRecord iss p.features masks)
  let degrees ← if retained<p.tokens then
      (records.take retained).mapM fun record =>
        greater iss (slice record 1 32) (p.scoreThreshold true)
    else pure []
  return words.flatten++degrees

def compactCircuit (circuitId : CircuitId) (drawn : Block) (p : Parameters) (retained : ℕ) :
    Except String Circuit := do
  if retained=0 ∨ retained=p.tokens then
    throw "empty or unchanged pruning needs no compaction circuit"
  let (_,counts) ← project p retained
  issue circuitId drawn counts (compactOutputs iss p retained)

end

/-- Lowest bit first. -/
def put (word : BitVec 32) : List Bool := (List.range 32).map word.getLsbD

def word (bits : List Bool) : BitVec 32 := BitVec.ofNat 32 (wordValue bits)

/-- What the two parties hold of a row. -/
structure Row where
  score : BitVec 32 × BitVec 32
  features : List (BitVec 32 × BitVec 32)
  keep : Bool × Bool

namespace Row

def clearScore (row : Row) : BitVec 32 := row.score.1+row.score.2

def clearFeatures (row : Row) : List (BitVec 32) := row.features.map fun pair => pair.1+pair.2

def kept (row : Row) : Bool := row.keep.1 ^^ row.keep.2

/-- The bits that the parties put for a row, in the order of the circuit's inputs. -/
def bits (row : Row) : List Bool :=
  (row.score::row.features).flatMap (fun pair => put pair.1++put pair.2) ++
    [row.keep.1,row.keep.2]

end Row

/-- The words without their masks, and the degrees. -/
def unmask (decoded : List Bool) (masks : List (BitVec 32)) : List (BitVec 32) × List Bool :=
  (((chunksExact 32 (decoded.take (32*masks.length))).zip masks).map fun (bits,mask) =>
    word bits+mask,decoded.drop (32*masks.length))

end Pllm.Garble.TokenPruning
