import Pllm.Fusefss.Descriptor
import Pllm.Fss.SharedRescale

/-! Two parties evaluate the Boolean outputs of a descriptor on a shared word, once: comparison keys at
the opened masked word, and a stack machine over exclusive-or shares that stops at every gate. -/
namespace Pllm.Fusefss.Predicates
open Pllm.Lib
open Pllm.Fss (Aes)
open Pllm.Fss.CompactDcf (RingComparison bitWord)
open Pllm.Fss.SharedRescale (Context)

def headerBytes : ℕ := 80
def envelopeBytes : ℕ := 120
def tripleBytes : ℕ := 24
def maxAllocationBytes : ℕ := 64*2^20
def magic : List Byte := ascii "PLLMFB01"

inductive Error
  | domain
  | unsupported
  | resource
  | allocation
  | randomness
  | context
  | consumed

def primitiveError : Fss.Error → Error
  | .domain => .domain
  | .resource => .resource
  | .randomness => .randomness
  | .consumed => .consumed
  | .context => .context

def compilerError : Fusefss.Error → Error
  | .allocation => .allocation
  | _ => .domain

/-- The sizes of owners in memory. -/
structure OwnerSizes where
  predicateQuery : ℕ
  instruction : ℕ
  query : ℕ
  optionTriple : ℕ

/-- AES, the sizes of the key owners and SHA-256. A word of a key is a `u64`. -/
structure Platform where
  aes : Aes
  sizes : Fss.CompactDcf.Sizes
  owners : OwnerSizes
  sha256 : List Byte → BitVec 256
  word : sizes.word=8

/-- A shared budget, before the reservation that is made from it. -/
structure Budget where
  limit : ℕ
  used : ℕ

def Budget.reserve (self : Budget) (bytes : ℕ) : Except Error ℕ :=
  if self.used+bytes>self.limit then .error .resource else .ok bytes

/-- A part of a reservation; what stays. -/
def split (lease bytes : ℕ) : Except Error ℕ :=
  if lease<bytes then .error .resource else .ok (lease-bytes)

structure Resources where
  dcfKeysPerParty : ℕ
  dcfEvaluationsPerParty : ℕ
  triplesPerParty : ℕ
  framesPerParty : ℕ
  totalPeerFrameBytes : ℕ
  outputBytesPerParty : ℕ
  materialPacketBytesBound : ℕ
  compilerOverlapBytes : ℕ
  partyReservationBytes : ℕ
  combinedReservationBytes : ℕ

def keyResources (env : Platform) (bits : ℕ) : Except Error Fss.CompactDcf.Resources :=
  (RingComparison.resources env.sizes bits 1).mapError primitiveError

def resources (env : Platform) (d : Descriptor) : Except Error Resources :=
  let s := d.shape
  if s.booleanOutputs=0 then .error .unsupported
  else do
    let key ← keyResources env d.bits
    let compiler := 2*(s.sourceIntervals*16+(s.paddedIntervals+1)*8+s.paddedIntervals*24
      +s.queries*env.owners.predicateQuery+s.vmOps*env.owners.instruction)+8192
    let frames := headerBytes+8+s.booleanAnds*(headerBytes+16)
    let output := 8*s.booleanOutputs
    let party := s.queries*(env.owners.query+key.keyCapacityBytes+8)+s.vmOps*(16+8)
      +s.booleanAnds*env.owners.optionTriple+frames+output+8192
    let combined := 2*party+compiler+key.issuanceScratchBytes
    if combined>maxAllocationBytes then .error .resource
    else return {
      dcfKeysPerParty := s.queries
      dcfEvaluationsPerParty := s.queries
      triplesPerParty := s.booleanAnds
      framesPerParty := 1+s.booleanAnds
      totalPeerFrameBytes := 2*frames
      outputBytesPerParty := output
      materialPacketBytesBound := envelopeBytes+8+s.queries*(16+key.encodedKeyBytes)+s.vmOps*16
        +s.booleanAnds*tripleBytes
      compilerOverlapBytes := compiler
      partyReservationBytes := party
      combinedReservationBytes := combined }

structure TripleShare where
  words : BitVec 64 × BitVec 64 × BitVec 64
  mask : BitVec 64

namespace TripleShare

def ringMask (bits : ℕ) : Except Fss.Error (BitVec 64) :=
  if ¬(1≤bits ∧ bits≤64) then .error .domain else .ok (BitVec.allOnes 64 >>> (64-bits))

/-- The shares of a triple from five drawn words. -/
def issue (bits : ℕ) (word : ℕ → BitVec 64) : Except Fss.Error (TripleShare × TripleShare) := do
  let mask ← ringMask bits
  let a := word 0 &&& mask
  let b := word 1 &&& mask
  let left := (word 2 &&& mask,word 3 &&& mask,word 4 &&& mask)
  let right := ((a-left.1) &&& mask,(b-left.2.1) &&& mask,(a*b-left.2.2) &&& mask)
  return (⟨left,mask⟩,⟨right,mask⟩)

def canonical (self : TripleShare) (values : BitVec 64 × BitVec 64) : Except Fss.Error Unit :=
  if values.1>self.mask ∨ values.2>self.mask then .error .domain else .ok ()

def opening (self : TripleShare) (x y : BitVec 64) : Except Fss.Error (BitVec 64 × BitVec 64) := do
  self.canonical (x,y)
  return ((x-self.words.1) &&& self.mask,(y-self.words.2.1) &&& self.mask)

def finish (self : TripleShare) (party : Bool) (own peer : BitVec 64 × BitVec 64) :
    Except Fss.Error (BitVec 64) := do
  self.canonical own
  self.canonical peer
  let d := (own.1+peer.1) &&& self.mask
  let e := (own.2+peer.2) &&& self.mask
  return (self.words.2.2+d*self.words.2.1+e*self.words.1+d*e*(if party then 0 else 1)) &&& self.mask

end TripleShare

/-- A key with the public width and shift of its comparison. -/
structure Query where
  bits : ℕ
  shift : BitVec 64
  key : RingComparison

/-- An opcode, and the share of a bit or the number of a comparison. -/
abbrev CodeWord := ℕ × BitVec 64

structure Material where
  mask : BitVec 64
  queries : List Query
  code : List CodeWord
  triples : List (Option TripleShare)

/-- The stack has its top in front. -/
structure Execution where
  material : Material
  queries : List (BitVec 64)
  stack : List (BitVec 64)
  outputs : List (BitVec 64)
  pc : ℕ
  outputIndex : ℕ
  stop : ℕ
  gate : ℕ

structure Pending where
  triple : TripleShare
  opening : BitVec 64 × BitVec 64
  orXor : BitVec 64

inductive State
  | ready (material : Material)
  | masked (material : Material) (own : BitVec 64)
  | gate (e : Execution) (pending : Pending)

/-- `lease` is what is left of the reservation. -/
structure Party where
  id : Bool
  bits : ℕ
  shape : Shape
  binding : BitVec 256
  nonce : BitVec 256
  round : ℕ
  state : Option State
  lease : ℕ

inductive Step
  | frame (bytes : List Byte)
  | output (values : List (BitVec 64))

def opcodeNumber : Opcode → ℕ
  | .bit => 0
  | .query => 1
  | .not => 2
  | .xor => 3
  | .and => 4
  | .or => 5

def isGate : Opcode → Bool
  | .and | .or => true
  | _ => false

/-- The dealer's draws. -/
structure Random where
  mask : BitVec 64
  maskShare : BitVec 64
  roots : ℕ → Block × Block
  bit : ℕ → BitVec 64
  triple : ℕ → ℕ → BitVec 64
  nonce : BitVec 256

def binding (env : Platform) (digest sourceDigest : BitVec 256) (context : Context) : BitVec 256 :=
  env.sha256 (ascii "pllm.fusefss.boolean-vm.v1\x00" ++ leBytes 32 digest++leBytes 32 sourceDigest
    ++ leBytes 32 context.plan++leBytes 32 context.session++leBytes 32 context.operation
    ++ leBytes 8 (BitVec.ofNat 64 context.firstTensorIndex))

def issueQuery (env : Platform) (q : PredicateQuery) (roots : Block × Block) :
    Except Error (Query × Query) := do
  let limit ← keyResources env q.bits
  let keys ← (RingComparison.issueWith env.aes env.sizes q.bits 1 (BitVec.ofNat 64 q.threshold) 1
    limit.combinedAllocationBytes roots).mapError primitiveError
  if keys.1.key.words.length*env.sizes.correction>limit.keyCapacityBytes
      ∨ keys.2.key.words.length*env.sizes.correction>limit.keyCapacityBytes then .error .resource
  else
    let shift := BitVec.ofNat 64 q.shift
    return (⟨q.bits,shift,keys.1⟩,⟨q.bits,shift,keys.2⟩)

def issueCode (ins : Instruction) (drawn : BitVec 64) : CodeWord × CodeWord :=
  let arg := BitVec.ofNat 64 ins.argument
  let left := if ins.opcode = .bit then drawn &&& 1 else arg
  let right := if ins.opcode = .bit then left ^^^ arg else arg
  ((opcodeNumber ins.opcode,left),(opcodeNumber ins.opcode,right))

/-- The shares of a compiled plan. -/
def issueMaterial (env : Platform) (bits : ℕ) (s : Shape) (plan : DealerPlan) (r : Random) :
    Except Error (Material × Material) := do
  let mask := r.mask &&& lowMask bits
  let ma := r.maskShare &&& lowMask bits
  let queries ← plan.queries.zipIdx.mapM fun (q,i) => issueQuery env q (r.roots i)
  let code := plan.instructions.zipIdx.map fun (ins,i) => issueCode ins (r.bit i)
  let gates := plan.instructions.filter fun ins => isGate ins.opcode
  let triples ← gates.zipIdx.mapM fun (_,i) => (TripleShare.issue 1 (r.triple i)).mapError primitiveError
  if triples.length≠s.booleanAnds then .error .domain
  else return (
    ⟨ma,queries.map Prod.fst,code.map Prod.fst,triples.map fun t => some t.1⟩,
    ⟨(mask-ma) &&& lowMask bits,queries.map Prod.snd,code.map Prod.snd,triples.map fun t => some t.2⟩)

def issue (env : Platform) (d : Descriptor) (digest sourceDigest : BitVec 256) (context : Context)
    (budget : Budget) (r : Random) : Except Error (Party × Party) := do
  let cost ← resources env d
  if context.firstTensorIndex+1≥2^64 then .error .domain
  else do
    let reservation ← budget.reserve cost.combinedReservationBytes
    let s := d.shape
    let plan ← (compile d (r.mask &&& lowMask d.bits).toNat).mapError compilerError
    if plan.shape≠s ∨ plan.queries.length≠s.queries ∨ plan.instructions.length≠s.vmOps then
      .error .domain
    else do
      let (a,b) ← issueMaterial env d.bits s plan r
      let binding := binding env digest sourceDigest context
      let reservation ← split reservation cost.partyReservationBytes
      let _ ← split reservation cost.partyReservationBytes
      return ( ⟨false,d.bits,s,binding,r.nonce,0,some (.ready a),cost.partyReservationBytes⟩,
        ⟨true,d.bits,s,binding,r.nonce,0,some (.ready b),cost.partyReservationBytes⟩)

namespace Execution

/-- At the end of a program its output is kept, and the last output ends the run. -/
def boundary (shape : Shape) (e : Execution) : Except Error (List (BitVec 64) ⊕ Execution) :=
  if e.pc≠e.stop then .ok (.inr e)
  else match e.stack with
    | [v] =>
      let e := { e with stack := [], outputs := e.outputs++[v], outputIndex := e.outputIndex+1 }
      if e.outputIndex=shape.booleanOutputs then
        if e.pc≠e.material.code.length ∨ e.gate≠shape.booleanAnds then .error .domain
        else .ok (.inl e.outputs)
      else .ok (.inr { e with stop := e.stop+shape.programLengths.getD e.outputIndex 0 })
    | _ => .error .domain

/-- One instruction; a gate leaves its operands and takes its triple. -/
def step (id : Bool) (e : Execution) : CodeWord → Except Error (Pending × Execution ⊕ Execution)
  | (0,arg) => .ok (.inr { e with stack := arg::e.stack })
  | (1,arg) =>
    match e.queries[arg.toNat]? with
    | none => .error .domain
    | some v => .ok (.inr { e with stack := v::e.stack })
  | (2,_) =>
    match e.stack with
    | v::stack => .ok (.inr { e with stack := (v ^^^ (if id then 0 else 1))::stack })
    | [] => .error .domain
  | (3,_) =>
    match e.stack with
    | right::left::stack => .ok (.inr { e with stack := (left ^^^ right)::stack })
    | _ => .error .domain
  | (4,_) => gateStep false e
  | (5,_) => gateStep true e
  | _ => .error .domain
where
  gateStep (or : Bool) (e : Execution) : Except Error (Pending × Execution ⊕ Execution) :=
    match e.stack with
    | right::left::stack =>
      match e.material.triples.getD e.gate none with
      | none => .error .consumed
      | some triple => do
        let opening ← (triple.opening left right).mapError primitiveError
        let e := { e with
          stack := stack
          material := { e.material with triples := e.material.triples.set e.gate none }
          gate := e.gate+1 }
        return .inl (⟨triple,opening,if or then left ^^^ right else 0⟩,e)
    | _ => .error .domain

/-- The loop, up to the next gate or the outputs; the list is the code from the program counter on. -/
def run (id : Bool) (shape : Shape) :
    List CodeWord → Execution → Except Error (Pending × Execution ⊕ List (BitVec 64))
  | [], e => do
    match ← e.boundary shape with
    | .inl values => return .inr values
    | .inr _ => .error .domain
  | ins::rest, e => do
    match ← e.boundary shape with
    | .inl values => return .inr values
    | .inr e =>
      match ← step id { e with pc := e.pc+1 } ins with
      | .inl (pending,e) => return .inl (pending,e)
      | .inr e => run id shape rest e

end Execution

/-- The word of a frame. -/
def readWord (frame : List Byte) (index : ℕ) : BitVec 64 :=
  ofLeBytes 64 ((frame.drop (headerBytes+8*index)).take 8)

namespace Party

def cancel (self : Party) : Party := { self with state := none }

def frameBytes (self : Party) (words : List (BitVec 64)) : List Byte :=
  magic++leBytes 32 self.binding++leBytes 32 self.nonce
    ++ [BitVec.ofNat 8 self.bits,if self.id then 1 else 0,0,0]
    ++ leBytes 4 (BitVec.ofNat 32 self.round)++words.flatMap (leBytes 8)

def frame (self : Party) (granted : Bool) (words : List (BitVec 64)) :
    Except Error (List Byte × Party) := do
  if ¬granted then .error .allocation
  else do
    let lease ← split self.lease (headerBytes+words.length*8)
    return (self.frameBytes words,{ self with lease := lease })

def check (self : Party) (peer : List Byte) (words : ℕ) (max : BitVec 64) : Except Error Unit :=
  if peer.length≠headerBytes+8*words ∨ peer.take 8 ≠ magic
      ∨ (peer.drop 8).take 32 ≠ leBytes 32 self.binding
      ∨ (peer.drop 40).take 32 ≠ leBytes 32 self.nonce
      ∨ (peer.drop 72).take 4 ≠ [BitVec.ofNat 8 self.bits,if self.id then 0 else 1,0,0]
      ∨ (peer.drop 76).take 4 ≠ leBytes 4 (BitVec.ofNat 32 self.round)
      ∨ (List.range words).any fun i => decide (readWord peer i>max) then .error .context
  else .ok ()

/-- The first step from a state that was taken out. `granted` answers the allocations of the call. -/
def opened (self : Party) (granted : ℕ → Bool) (inputShare : BitVec 64) (state : State) :
    Except Error (List Byte × Party) :=
  match state with
  | .ready material => do
    let max := lowMask self.bits
    if inputShare>max then .error .domain
    else do
      let own := (inputShare+material.mask) &&& max
      let (bytes,self) ← self.frame (granted 0) [own]
      return (bytes,{ self with state := some (.masked material own) })
  | _ => .error .context

/-- The comparisons at the opened word. -/
def answers (env : Platform) (self : Party) (material : Material) (opened : BitVec 64) :
    Except Error (List (BitVec 64)) :=
  material.queries.mapM fun q =>
    (q.key.eval env.aes (if self.id then 1 else 0) ((opened+q.shift) &&& lowMask q.bits)).mapError
      primitiveError

/-- The execution that a frame of the peer sets going, with the number of allocations so far. -/
def resumed (env : Platform) (self : Party) (granted : ℕ → Bool) (peer : List Byte) (state : State) :
    Except Error (Execution × ℕ) :=
  match state with
  | .ready _ => .error .context
  | .masked material own => do
    self.check peer 1 (lowMask self.bits)
    let opened := (own+readWord peer 0) &&& lowMask self.bits
    if ¬granted 0 then .error .allocation
    else do
      let queries ← self.answers env material opened
      if ¬granted 1 ∨ ¬granted 2 then .error .allocation
      else return (⟨material,queries,[],[],0,0,self.shape.programLengths.getD 0 0,0⟩,3)
  | .gate e pending => do
    self.check peer 2 1
    let theirs := (readWord peer 0,readWord peer 1)
    let v ← (pending.triple.finish self.id pending.opening theirs).mapError primitiveError
    return ({ e with stack := (v ^^^ pending.orXor)::e.stack },0)

def advanced (env : Platform) (self : Party) (granted : ℕ → Bool) (peer : List Byte)
    (state : State) : Except Error (Step × Party) := do
  let (e,allocations) ← self.resumed env granted peer state
  let self := { self with round := self.round+1 }
  match ← Execution.run self.id self.shape (e.material.code.drop e.pc) e with
  | .inl (pending,e) => do
    let (bytes,self) ← self.frame (granted allocations) [pending.opening.1,pending.opening.2]
    return (.frame bytes,{ self with state := some (.gate e pending) })
  | .inr values => do
    let lease ← split self.lease (8*self.shape.booleanOutputs)
    return (.output values,{ self with lease := lease })

/-- A call takes the state out first; only a step that succeeds puts one back. -/
def taking {α : Type} (self : Party) (call : Party → State → Except Error (α × Party)) :
    Except Error α × Party :=
  match self.state with
  | none => (.error .consumed,self)
  | some state =>
    let taken := { self with state := none }
    match call taken state with
    | .error e => (.error e,taken)
    | .ok (a,self) => (.ok a,self)

def start (self : Party) (granted : ℕ → Bool) (inputShare : BitVec 64) :
    Except Error (List Byte) × Party :=
  self.taking fun taken state => taken.opened granted inputShare state

def advance (env : Platform) (self : Party) (granted : ℕ → Bool) (peer : List Byte) :
    Except Error Step × Party :=
  self.taking fun taken state => taken.advanced env granted peer state

end Party

end Pllm.Fusefss.Predicates
