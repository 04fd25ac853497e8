import Pllm.Retained.Cache
import Pllm.Lib.Bitonic

/-! The two selection circuits, over any gates: with Boolean wires they are their own plain
evaluation, with the wires of a circuit builder they emit the garbled program. -/
namespace Pllm.Retained
open Pllm.Lib

/-- The gates a circuit is written with. -/
structure Gates (m : Type → Type) (W : Type) where
  constant : Bool → m W
  xor : W → W → m W
  not : W → m W
  and : W → W → m W

def plainGates : Gates (Except String) Bool where
  constant value := .ok value
  xor left right := .ok (left ^^ right)
  not input := .ok (!input)
  and left right := .ok (left && right)

section
variable {m : Type → Type} [Monad m] [MonadExcept String m] {W : Type} (gates : Gates m W)

def constantWord (value width : ℕ) : m (List W) :=
  if width=0 ∨ width>128 ∨ (width<128 ∧ value≥2^width) then
    throw "Boolean constant does not fit its declared width"
  else (List.range width).mapM fun shift => gates.constant (value.testBit shift)

/-- The highest bits come first in the scan. -/
def compareUnsigned (left right : List W) : m (W × W) :=
  if left.length=0 ∨ left.length≠right.length ∨ left.length>128 then
    throw "Boolean comparison operands must share a width up to 128"
  else do
    let less ← gates.constant false
    let equal ← gates.constant true
    (left.zip right).reverse.foldlM (fun (less,equal) (leftBit,rightBit) => do
      let notLeft ← gates.not leftBit
      let leftLess ← gates.and notLeft rightBit
      let newlyLess ← gates.and equal leftLess
      let less ← gates.xor less newlyLess
      let different ← gates.xor leftBit rightBit
      let same ← gates.not different
      let equal ← gates.and equal same
      return (less,equal)) (less,equal)

/-- One pair of a sorting pass; `key` is a range of the record bits, as start and length. -/
def exchange (key : ℕ × ℕ) (ascending : Bool) (group distance : ℕ) (records : List (List W))
    (left : ℕ) : m (List (List W)) :=
  let right := left ^^^ distance
  if right≤left then return records
  else do
    let increasing := decide (left &&& group = 0)==ascending
    let (a,b) := if increasing then (right,left) else (left,right)
    let (swap,_) ← compareUnsigned gates (slice (records.getD a []) key.1 key.2)
      (slice (records.getD b []) key.1 key.2)
    let moved ← ((records.getD left []).zip (records.getD right [])).mapM
      fun (leftBit,rightBit) => do
        let different ← gates.xor leftBit rightBit
        let moveBit ← gates.and swap different
        let leftBit ← gates.xor leftBit moveBit
        let rightBit ← gates.xor rightBit moveBit
        return (leftBit,rightBit)
    return (records.set left (moved.map Prod.fst)).set right (moved.map Prod.snd)

/-- The loop `while distance != 0`, from `distance = 2^(t-1)` on. -/
def sortGroup (key : ℕ × ℕ) (ascending : Bool) (group : ℕ) :
    ℕ → List (List W) → m (List (List W))
  | 0, records => return records
  | t+1, records => do
    let records ← (List.range records.length).foldlM (exchange gates key ascending group (2^t))
      records
    sortGroup key ascending group t records

/-- The loop `while group <= records.len()`, up to `group = 2^s`. -/
def sortGroups (key : ℕ × ℕ) (ascending : Bool) : ℕ → List (List W) → m (List (List W))
  | 0, records => return records
  | s+1, records => do
    let records ← sortGroups key ascending s records
    sortGroup gates key ascending (2^(s+1)) (s+1) records

def sort (records : List (List W)) (key : ℕ × ℕ) (ascending : Bool) : m (List (List W)) :=
  sortGroups gates key ascending (Nat.log 2 records.length) records

/-- Push records of constant bits up to a length. -/
def pad (records : List (List W)) (length recordBits : ℕ) (value : Bool) : m (List (List W)) := do
  let padding ← (List.range (length-records.length)).mapM fun _ =>
    (List.range recordBits).mapM fun _ => gates.constant value
  return records++padding

/-- Both circuits: the greatest `keep` ranks, put in the order of the bits after the rank. -/
def topRecords (records : List (List W)) (rows keep recordBits rank order : ℕ) :
    m (List (List W)) := do
  let records ← pad gates records (nextPowerOfTwo rows) recordBits false
  let records ← sort gates records (0,rank) false
  -- dummy records sort after every kept one
  let records ← pad gates (records.take keep) (nextPowerOfTwo keep) recordBits true
  let records ← sort gates records (rank,order) true
  return records.take keep

/-- The rank bits of a row: its stable slot, score, recency and validity. -/
def rankWord (rows recent slot : ℕ) (score : List W) : m (List W) := do
  let index ← constantWord gates (2^indexBits rows-1-slot) (indexBits rows)
  let newest ← gates.constant (decide (slot≥rows-recent))
  let valid ← gates.constant true
  return index++score++[newest,valid]

/-- The inputs are a score and a payload for every row. -/
def fullRecords (rows width : ℕ) (policy : Policy) (inputs : List (List W × List W)) :
    m (List W) := do
  let rank := rankBits rows
  let recordBits := rank+32+64*width
  let records ← inputs.zipIdx.mapM fun ((score,payload),slot) => do
    let row ← rankWord gates rows policy.recent slot score
    return row++payload
  let records ← topRecords gates records rows policy.keep recordBits rank 32
  return records.flatMap (List.drop rank)

variable [Inhabited W]

/-- Whether a slot word spells `original`: one AND for each bit after the first. -/
def slotFlag (slot inverted : List W) (original : ℕ) : m W :=
  let matching := fun bit =>
    if original.testBit bit then slot.getD bit default else inverted.getD bit default
  (List.range' 1 (slot.length-1)).foldlM (fun flag bit => gates.and flag (matching bit))
    (matching 0)

/-- One payload bit of the flagged row: every row is read. -/
def gatherBit (flags : List W) (inputs : List (List W × List W)) (rows bit : ℕ) : m W := do
  let value ← gates.and (flags.getD 0 default) ((inputs.getD 0 default).2.getD bit default)
  (List.range' 1 (rows-1)).foldlM (fun value row => do
    let selected ← gates.and (flags.getD row default) ((inputs.getD row default).2.getD bit default)
    gates.xor value selected) value

def compactIndices (rows width : ℕ) (policy : Policy) (inputs : List (List W × List W)) :
    m (List W) := do
  -- an extra bit keeps the all-ones padding index above every slot
  let index := indexBits rows+1
  let rank := rankBits rows
  let recordBits := rank+index
  let records ← inputs.zipIdx.mapM fun ((score,_),slot) => do
    let row ← rankWord gates rows policy.recent slot score
    let slotWord ← constantWord gates slot index
    return row++slotWord
  let records ← topRecords gates records rows policy.keep recordBits rank index
  let output ← records.mapM fun record => do
    let slot := record.drop rank
    let inverted ← slot.mapM gates.not
    let flags ← (List.range rows).mapM (slotFlag gates slot inverted)
    (List.range (32+64*width)).mapM (gatherBit gates flags inputs rows)
  return output.flatten

def circuit (layout : Layout) (rows width : ℕ) (policy : Policy)
    (inputs : List (List W × List W)) : m (List W) :=
  match layout with
  | .fullRecords => fullRecords gates rows width policy inputs
  | .compactIndices => compactIndices gates rows width policy inputs

end

/-- The input wires as declared, row by row: a score word, then the payload words. -/
def declaredInputs {W : Type} (width : ℕ) (wires : List W) : List (List W × List W) :=
  (chunksExact (64+64*width) wires).map fun row => (row.take 32,row.drop 32)

/-- The plain evaluation of a circuit on its input bits. -/
def evaluatePlain (layout : Layout) (rows width : ℕ) (policy : Policy) (bits : List Bool) :
    Except String (List Bool) :=
  circuit plainGates layout rows width policy (declaredInputs width bits)

/-- Whether row `i` ranks before row `j`: recent rows first, then the score bits, then the slot. -/
def ranksBefore (rows recent : ℕ) (scores : List Float32) (i j : ℕ) : Bool :=
  let newest := fun slot => decide (slot≥rows-recent)
  let score := fun slot => (scoreBits (scores.getD slot 0)).toNat
  (newest i && !newest j) || (newest i==newest j
    && (decide (score i>score j) || (decide (score i = score j) && decide (i<j))))

/-- The rows with fewer than `keep` rows ranked before them, in position order. -/
def selectedRows (rows : ℕ) (policy : Policy) (scores : List Float32) : List ℕ :=
  (List.range rows).filter fun i =>
    decide (((List.range rows).filter fun j =>
      ranksBefore rows policy.recent scores j i).length < policy.keep)

/-- A row as the evaluator returns it. -/
def rowBits (keys values : List Float32) (positions : List (BitVec 32)) (width row : ℕ) :
    List Bool :=
  pushWord (positions.getD row 0)
    ++ (slice keys (row*width) width++slice values (row*width) width).flatMap pushWord

end Pllm.Retained
