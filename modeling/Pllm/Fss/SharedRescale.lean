import Pllm.Fss.IntervalFss
import Pllm.Fss.PointFss

/-! Two-share signed rescaling with a sign bit: the dealer's one-use correlations and the two
parties' masked openings, over every layout and comparison backend. -/
namespace Pllm.Fss.SharedRescale

def maxLanes : ℕ := 1024
def maxAllocationEstimate : ℕ := 64*2^20
def openingHeaderBytes : ℕ := 78
def magic : List Byte := ascii "PLLMRS01"

inductive Rounding
  | floor
  | tiesEven
  deriving DecidableEq

inductive Layout
  | fused
  | unfused
  deriving DecidableEq

inductive Backend
  | prefixDpf
  | compactDcf
  | intervalDcf
  deriving DecidableEq

def Backend.comparisonBytes (self : Backend) (bits : ℕ) : ℕ :=
  match self with
  | .prefixDpf => PointFss.Comparison.bytes bits
  | .compactDcf | .intervalDcf => CompactDcf.Key.bytes bits

inductive Comparison
  | ofPrefix (key : PointFss.Comparison)
  | ofCompact (key : CompactDcf.Key (BitVec 32))

/-- The code outside the crate: AES, the layout sizes of its key owners and SHA-256. -/
structure Platform where
  aes : Aes
  sizes : CompactDcf.Sizes
  sha256 : List Byte → BitVec 256

namespace Comparison

def issue (env : Platform) (backend : Backend) (bits : ℕ) (threshold : BitVec 32)
    (roots : ℕ → Block × Block) : Except Error (Comparison × Comparison) :=
  match backend with
  | .prefixDpf => do
    let keys ← PointFss.Comparison.issue env.aes bits threshold roots
    return (.ofPrefix keys.1,.ofPrefix keys.2)
  | .compactDcf => do
    let keys ← CompactDcf.Key.issue env.aes env.sizes bits threshold (roots 0)
    return (.ofCompact keys.1,.ofCompact keys.2)
  | .intervalDcf => .error .domain

def eval (env : Platform) (self : Comparison) (party : Bool) (input : BitVec 32) : BitVec 32 :=
  match self with
  | .ofPrefix key => key.eval env.aes party input
  | .ofCompact key => key.eval env.aes party input

end Comparison

structure Descriptor where
  bits : ℕ
  shift : ℕ
  rounding : Rounding
  backend : Backend

structure Context where
  plan : BitVec 256
  session : BitVec 256
  operation : BitVec 256
  firstTensorIndex : ℕ

structure Resources where
  lanes : ℕ
  rounds : ℕ
  partyKeyPayloadBytes : ℕ
  partyAllocationEstimateBytes : ℕ
  totalAllocationEstimateBytes : ℕ
  peerFrameBytes : ℕ
  comparisonWidths : List ℕ
  comparisonEvaluationsPerLane : ℕ

/-- The source's `mask`. -/
def mask (bits : ℕ) : BitVec 32 := lowMask bits

/-- An additive split of a word; `left` is the drawn share. -/
def share (value left : BitVec 32) : BitVec 32 × BitVec 32 := (left,value-left)

/-- The width of the ring a phase opens in. -/
def Descriptor.phaseBits (d : Descriptor) (phase : ℕ) : ℕ :=
  if phase=1 then d.bits-d.shift else d.bits

/-- The widths and public boundaries of a phase's comparisons, in evaluation order. -/
def querySpecs (d : Descriptor) (layout : Layout) (phase : ℕ) : List (ℕ × BitVec 32) :=
  let bits := d.phaseBits phase
  let half := (1 : BitVec 32) <<< (bits-1)
  let queries : List (ℕ × BitVec 32) :=
    if phase=1 then [(bits,half),(bits,0)]
    else if layout = .fused then [(bits,half),(d.shift,0),(bits,0)]
    else [(d.shift,0)]
  if phase=0 ∧ d.rounding = .tiesEven then
    let unit := (1 : BitVec 32) <<< d.shift
    queries++[unit,unit/2+1,unit+unit/2,0].map fun boundary => (d.shift+1,boundary)
  else queries

namespace Descriptor

def new (bits shift : ℕ) (rounding : Rounding) : Except Error Descriptor :=
  if ¬(2≤bits ∧ bits≤32) ∨ shift=0 ∨ shift≥bits then .error .domain
  else .ok ⟨bits,shift,rounding,.prefixDpf⟩

def withBackend (self : Descriptor) (backend : Backend) : Descriptor :=
  { self with backend := backend }

def rounds (layout : Layout) : ℕ := if layout = .fused then 1 else 2

def resources (self : Descriptor) (layout : Layout) (lanes : ℕ) : Except Error Resources :=
  if ¬(1≤lanes ∧ lanes ≤ maxLanes) then .error .resource
  else
    let rounds := rounds layout
    let phases := (List.range rounds).map fun phase => (querySpecs self layout phase).map Prod.fst
    let evaluations := (phases.map List.length).sum
    let widths := phases.flatMap fun widths =>
      if self.backend = .intervalDcf then widths.mergeSort.dedup else widths
    let payload := lanes*(16*rounds+(widths.map self.backend.comparisonBytes).sum)
    let party := 3*payload+4096*lanes
    let total := 2*party+64*1024
    if total>maxAllocationEstimate then .error .resource
    else .ok
      { lanes := lanes
        rounds := rounds
        partyKeyPayloadBytes := payload
        partyAllocationEstimateBytes := party
        totalAllocationEstimateBytes := total
        peerFrameBytes := 2*rounds*(openingHeaderBytes+4*lanes)
        comparisonWidths := widths
        comparisonEvaluationsPerLane := evaluations }

end Descriptor

/-- The three secret constants of a lane: value, sign and rounding. -/
structure Constants where
  value : BitVec 32
  sign : BitVec 32
  rounding : BitVec 32

structure Lane where
  maskShare : BitVec 32
  constants : Constants
  comparisons : List Comparison
  sharedComparisons : List (ℕ × IntervalFss.Comparison)

/-- Folds the dealer's boundary corrections into the constants. -/
def foldShiftCorrections (d : Descriptor) (layout : Layout) (phase : ℕ) (c : ℕ → BitVec 32)
    (constants : Constants) : Constants :=
  let unit := (1 : BitVec 32) <<< (d.bits-d.shift)
  let (constants,roundStart) :=
    if phase=1 then
      ({ constants with
        value := constants.value+unit*c 0
        sign := constants.sign+c 0-c 1 },0)
    else if layout = .fused then
      ({ constants with
        value := constants.value+unit*c 0-c 1
        sign := constants.sign+c 0-c 2 },3)
    else ({ constants with value := constants.value-c 0 },1)
  if phase=0 ∧ d.rounding = .tiesEven then
    { constants with
      rounding := constants.rounding+c roundStart-c (roundStart+1)-c (roundStart+2)
        +c (roundStart+3) }
  else constants

/-- The dealer's draws for one lane: the words in order and the roots of each comparison. -/
structure LaneRandom where
  word : ℕ → BitVec 32
  roots : ℕ → ℕ → Block × Block

/-- A one-bit integer as a `u32`. -/
def bit (p : Prop) [Decidable p] : BitVec 32 := if p then 1 else 0

/-- The constants of a lane before any boundary correction. -/
def laneConstants (d : Descriptor) (layout : Layout) (phase : ℕ) (r : BitVec 32) : Constants :=
  let bits := d.phaseBits phase
  let ring := 2^bits
  let carry := bit (r.toNat+ring/2≥ring)
  let constants : Constants :=
    if phase=1 then ⟨-r+BitVec.ofNat 32 ring*(carry-1),carry,0⟩
    else if layout = .fused then
      ⟨-(r >>> d.shift)+((1 : BitVec 32) <<< (bits-d.shift))*(carry-1),carry,0⟩
    else ⟨-(r >>> d.shift),0,0⟩
  if phase=0 ∧ d.rounding = .tiesEven then
    let width := d.shift+1
    let lowMask := (r &&& mask width).toNat
    let unit := 2^d.shift
    let carries := fun boundary => bit (lowMask+boundary≥2^width)
    { constants with
      rounding := 1+carries unit-carries (unit/2+1)-carries (unit+unit/2) }
  else constants

/-- One shared key for each distinct width, in order of first use. -/
def issueShared (env : Platform) (r : BitVec 32) (roots : ℕ → Block × Block) :
    List ((ℕ × BitVec 32) × ℕ) →
      List (ℕ × (IntervalFss.Comparison × IntervalFss.Comparison)) →
      Except Error (List (ℕ × (IntervalFss.Comparison × IntervalFss.Comparison)))
  | [], shared => .ok shared
  | ((width,_),index)::specs, shared =>
    if shared.any fun entry => entry.1==width then issueShared env r roots specs shared
    else do
      let keys ← IntervalFss.Comparison.issue env.aes env.sizes width (r &&& mask width)
        (roots index)
      issueShared env r roots specs (shared++[(width,keys)])

def issueLane (env : Platform) (d : Descriptor) (layout : Layout) (phase : ℕ)
    (random : LaneRandom) : Except Error (Lane × Lane) := do
  let bits := d.phaseBits phase
  let r := random.word 0 &&& mask bits
  let specs := querySpecs d layout phase
  let plain := laneConstants d layout phase r
  let constants :=
    if d.backend = .intervalDcf then
      let corrections := specs.map fun (width,boundary) =>
        IntervalFss.correction width (r &&& mask width) boundary
      foldShiftCorrections d layout phase (fun i => corrections.getD i 0) plain
    else plain
  let masks := share r (random.word 1)
  let value := share constants.value (random.word 2)
  let sign := share constants.sign (random.word 3)
  let rounding := share constants.rounding (random.word 4)
  let comparisons ←
    if d.backend = .intervalDcf then pure []
    else specs.zipIdx.mapM fun ((width,boundary),index) =>
      Comparison.issue env d.backend width ((r+boundary) &&& mask width) (random.roots index)
  let shared ←
    if d.backend = .intervalDcf then
      issueShared env r (fun index => random.roots index 0) specs.zipIdx []
    else pure []
  let lane := fun party : Bool =>
    { maskShare := pick masks party &&& mask bits
      constants := ⟨pick value party,pick sign party,pick rounding party⟩
      comparisons := comparisons.map fun keys => pick keys party
      sharedComparisons := shared.map fun entry => (entry.1,pick entry.2 party) : Lane }
  return (lane false,lane true)

structure Material where
  current : List Lane
  next : Option (List Lane)

inductive State
  | ready (material : Material)
  | waiting (phase : ℕ) (material : Material) (own rounding : List (BitVec 32))

structure Party where
  id : Bool
  descriptor : Descriptor
  layout : Layout
  lanes : ℕ
  binding : BitVec 256
  nonce : BitVec 256
  state : Option State

structure OutputShare where
  rescaled : BitVec 32
  nonnegative : BitVec 32

inductive Progress
  | opening (frame : List Byte)
  | complete (outputs : List OutputShare)

/-- A `u32` vector in little-endian bytes. -/
def wordBytes (words : List (BitVec 32)) : List Byte := words.flatMap (leBytes 4)

/-- The words of a byte string, four bytes each; a short tail is dropped. -/
def bytesWords : List Byte → List (BitVec 32)
  | a::b::c::d::rest => ofLeBytes 32 [a,b,c,d]::bytesWords rest
  | _ => []

namespace Party

def cancel (self : Party) : Party := { self with state := none }

def frame (self : Party) (phase : ℕ) (words : List (BitVec 32)) : List Byte :=
  magic++leBytes 32 self.binding++leBytes 32 self.nonce
    ++ [BitVec.ofNat 8 phase,if self.id then 1 else 0]
    ++ leBytes 4 (BitVec.ofNat 32 self.lanes)++wordBytes words

def parse (self : Party) (bytes : List Byte) (phase bits : ℕ) :
    Except Error (List (BitVec 32)) :=
  if bytes.length≠openingHeaderBytes+4*self.lanes ∨ bytes.take 8 ≠ magic
      ∨ (bytes.drop 8).take 32 ≠ leBytes 32 self.binding
      ∨ (bytes.drop 40).take 32 ≠ leBytes 32 self.nonce
      ∨ bytes[72]? ≠ some (BitVec.ofNat 8 phase)
      ∨ bytes[73]? ≠ some (if self.id then 0 else 1)
      ∨ (ofLeBytes 32 ((bytes.drop 74).take 4)).toNat ≠ self.lanes then .error .context
  else
    let words := bytesWords (bytes.drop openingHeaderBytes)
    if words.any fun word => decide (word>mask bits) then .error .domain else .ok words

def start (self : Party) (input : List (BitVec 32)) : Except Error (List Byte) × Party :=
  match self.state with
  | none => (.error .consumed,self)
  | some (.waiting ..) => (.error .context,{ self with state := none })
  | some (.ready material) =>
    if input.length≠self.lanes
        ∨ input.any (fun x => decide (x>mask self.descriptor.bits)) then
      (.error .domain,{ self with state := none })
    else
      let own := List.zipWith (fun x lane => (x+lane.maskShare) &&& mask self.descriptor.bits)
        input material.current
      (.ok (self.frame 0 own),{ self with state := some (.waiting 0 material own []) })

end Party

/-- One party's share of the `i`-th comparison of a lane. A missing key, on which the source
panics, counts as zero; an issued lane has every key. -/
def Lane.eval (env : Platform) (d : Descriptor) (id : Bool) (specs : List (ℕ × BitVec 32))
    (lane : Lane) (opened : BitVec 32) (i width : ℕ) : BitVec 32 :=
  if d.backend = .intervalDcf then
    match lane.sharedComparisons.find? fun entry => entry.1==width with
    | some entry =>
      entry.2.eval env.aes id (opened &&& mask width) (specs.getD i (0,0)).2
    | none => 0
  else
    match lane.comparisons[i]? with
    | some key => key.eval env id (opened &&& mask width)
    | none => 0

/-- What one lane of a phase yields. -/
@[ext] structure LaneOutput where
  scaled : BitVec 32
  sign : BitVec 32
  increment : BitVec 32

/-- The body of the loop over lanes; `rounding` is the increment kept from phase zero. -/
def Lane.output (env : Platform) (d : Descriptor) (layout : Layout) (phase : ℕ) (id : Bool)
    (lane : Lane) (opened rounding : BitVec 32) : LaneOutput :=
  let bits := d.phaseBits phase
  let specs := querySpecs d layout phase
  let publicWord := if id=false then opened else 0
  let eval := lane.eval env d id specs opened
  let (value,nonnegative,roundStart) : BitVec 32 × BitVec 32 × ℕ :=
    if phase=1 then
      let upper := eval 0 bits
      (publicWord+lane.constants.value+((1 : BitVec 32) <<< bits)*upper,
        lane.constants.sign+upper-eval 1 bits,0)
    else if layout = .fused then
      let upper := eval 0 bits
      ((publicWord >>> d.shift)+lane.constants.value+((1 : BitVec 32) <<< (bits-d.shift))*upper
          -eval 1 d.shift, lane.constants.sign+upper-eval 2 bits,3)
    else ((publicWord >>> d.shift)+lane.constants.value-eval 0 d.shift,0,1)
  let increment :=
    if phase=1 then rounding
    else if d.rounding = .floor then 0
    else lane.constants.rounding+eval roundStart (d.shift+1)-eval (roundStart+1) (d.shift+1)
      -eval (roundStart+2) (d.shift+1)+eval (roundStart+3) (d.shift+1)
  ⟨value,nonnegative,increment⟩

namespace Party

/-- All remaining phases are burned before the peer's frame is parsed. -/
def advance (env : Platform) (self : Party) (peer : List Byte) : Except Error Progress × Party :=
  match self.state with
  | none => (.error .consumed,self)
  | some (.ready _) => (.error .context,{ self with state := none })
  | some (.waiting phase material own rounding) =>
    let d := self.descriptor
    let bits := if phase=0 then d.bits else d.bits-d.shift
    match self.parse peer phase bits with
    | .error e => (.error e,{ self with state := none })
    | .ok peerWords =>
      let outputs := material.current.zipIdx.map fun (lane,index) =>
        lane.output env d self.layout phase self.id
          ((own.getD index 0+peerWords.getD index 0) &&& mask bits) (rounding.getD index 0)
      match material.next with
      | some next =>
        let own := List.zipWith (fun output lane =>
          (output.scaled+lane.maskShare) &&& mask (d.bits-d.shift)) outputs next
        (.ok (.opening (self.frame 1 own)),{ self with
          state := some (.waiting 1 ⟨next,none⟩ own (outputs.map LaneOutput.increment)) })
      | none =>
        (.ok (.complete (outputs.map fun output =>
          ⟨(output.scaled+output.increment) &&& mask d.bits,output.sign &&& mask d.bits⟩)),
          { self with state := none })

end Party

def Rounding.code : Rounding → Byte
  | .floor => 0
  | .tiesEven => 1

def Layout.code : Layout → Byte
  | .fused => 0
  | .unfused => 1

/-- The bytes the issuance hash covers. -/
def bindingBytes (d : Descriptor) (layout : Layout) (context : Context) (lanes : ℕ) : List Byte :=
  ascii "pllm.shared_rescale_reference.v1\x00"
    ++ [BitVec.ofNat 8 d.bits,BitVec.ofNat 8 d.shift,d.rounding.code,layout.code]
    ++ leBytes 8 (BitVec.ofNat 64 lanes)++leBytes 32 context.plan
    ++ leBytes 32 context.session++leBytes 32 context.operation
    ++ leBytes 8 (BitVec.ofNat 64 context.firstTensorIndex)
    ++ (match d.backend with
      | .prefixDpf => []
      | .compactDcf => ascii "compact_dcf.v1\x00"
      | .intervalDcf => ascii "interval_dcf.v1\x00")

/-- Every lane of one phase. -/
def issuePhase (env : Platform) (d : Descriptor) (layout : Layout) (lanes phase : ℕ)
    (random : ℕ → LaneRandom) : Except Error (List (Lane × Lane)) :=
  (List.range lanes).mapM fun index => issueLane env d layout phase (random index)

def Descriptor.issueReference (env : Platform) (self : Descriptor) (layout : Layout)
    (context : Context) (lanes : ℕ) (nonce : BitVec 256) (random : ℕ → ℕ → LaneRandom) :
    Except Error (Party × Party) := do
  let _ ← self.resources layout lanes
  if context.firstTensorIndex+lanes≥2^64 then .error .domain
  else do
    let binding := env.sha256 (bindingBytes self layout context lanes)
    let first ← issuePhase env self layout lanes 0 (random 0)
    let second ←
      if layout = .fused then pure none
      else some <$> issuePhase env self layout lanes 1 (random 1)
    let make := fun id : Bool =>
      { id := id
        descriptor := self
        layout := layout
        lanes := lanes
        binding := binding
        nonce := nonce
        state := some (.ready ⟨first.map fun lane => pick lane id,
          second.map fun batch => batch.map fun lane => pick lane id⟩) : Party }
    return (make false,make true)

/-- The two parties exchange frames for a number of rounds and then complete together. -/
def exchange (env : Platform) :
    ℕ → Party → Party → List Byte → List Byte → Option (List OutputShare × List OutputShare)
  | 0, _, _, _, _ => none
  | rounds+1, a, b, fromA, fromB =>
    match a.advance env fromB, b.advance env fromA with
    | (.ok (.opening nextA),a'), (.ok (.opening nextB),b') => exchange env rounds a' b' nextA nextB
    | (.ok (.complete outputsA),_), (.ok (.complete outputsB),_) =>
      if rounds=0 then some (outputsA,outputsB) else none
    | _, _ => none

/-- A whole run from fresh parties to completion after exactly `rounds` exchanges. -/
def run (env : Platform) (rounds : ℕ) (a b : Party) (left right : List (BitVec 32)) :
    Option (List OutputShare × List OutputShare) :=
  match a.start left, b.start right with
  | (.ok fromA,a'), (.ok fromB,b') => exchange env rounds a' b' fromA fromB
  | _, _ => none

end Pllm.Fss.SharedRescale
