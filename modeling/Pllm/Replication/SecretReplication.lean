import Pllm.Common.Slices
import Pllm.Fss.SharedRescale

/-! The two-party secret-replication correlation: the dealer's seeds, whole or punctured, the
parties' local expansion, and the one-use product of a shared scalar with a shared vector. -/
namespace Pllm.Replication
open Pllm.Lib Pllm.Fss
open Pllm.Fss.SharedRescale (Context bytesWords wordBytes)

def maxLanes : ℕ := 4096
def maxAllocationBytes : ℕ := 16*2^20
def headerBytes : ℕ := 78
def magic : List Byte := ascii "PLLMPC01"

/-- AES-128, SHA-256 and the size of an AES key schedule. -/
structure Platform where
  aes : Aes
  sha256 : List Byte → BitVec 256
  scheduleBytes : ℕ

inductive Encoding
  | expanded
  | punctured
  deriving DecidableEq

def Encoding.code : Encoding → Byte
  | .expanded => 0
  | .punctured => 1

structure Parameters where
  field : ℕ
  scalarDomain : ℕ
  lanes : ℕ
  encoding : Encoding

namespace Parameters

/-- The depth of the seed tree: `scalar_domain.next_power_of_two().ilog2()`. -/
def depth (self : Parameters) : ℕ := Nat.clog 2 self.scalarDomain

def allocationBytes (env : Platform) (self : Parameters) : ℕ :=
  4096+2*(2*self.scalarDomain-1)*(32+env.scheduleBytes)+128*2^self.depth+128*self.lanes

def validate (env : Platform) (self : Parameters) : Except Error Unit :=
  if self.field ∉ [2,17,257] ∨ ¬(2 ≤ self.scalarDomain ∧ self.scalarDomain ≤ self.field) then
    .error .domain
  else if ¬(1 ≤ self.lanes ∧ self.lanes ≤ maxLanes) then .error .resource
  else if self.allocationBytes env>maxAllocationBytes then .error .resource
  else .ok ()

end Parameters

def add (a b p : ℕ) : ℕ := (a+b)%p
def sub (a b p : ℕ) : ℕ := (a+p-b)%p
def mul (a b p : ℕ) : ℕ := a*b%p

/-- Rejection sampling of a residue: `remaining` more draws, from number `attempt` on. -/
def uniform (draw : ℕ → BitVec 32) (p : ℕ) (attempt : ℕ) : ℕ → Except Error ℕ
  | 0 => .error .randomness
  | remaining+1 =>
    if (draw attempt).toNat < 2^32/p*p then .ok ((draw attempt).toNat%p)
    else uniform draw p (attempt+1) remaining

def randomWord (draw : ℕ → BitVec 32) (p : ℕ) : Except Error ℕ := uniform draw p 0 128

/-- One child of a seed; the branch is in the last byte of the block. -/
def children (env : Platform) (seed : Block) : Block × Block :=
  let block := Block.ofBytes (ascii "PLLM.PCF.tree.v1")
  (env.aes seed block,env.aes seed (block.setByte 15 (block.byte 15 ^^^ 1)))

/-- A subtree of `2^depth` leaves from leaf `first` on. -/
structure Node where
  first : ℕ
  depth : ℕ
  seed : Block

/-- The recursion over `size = 2^depth`; leaves past the end of the output are dropped. -/
def fillLeaves (env : Platform) : ℕ → ℕ → Block → List (Option Block) → List (Option Block)
  | 0, first, seed, output => if first<output.length then output.set first (some seed) else output
  | depth+1, first, seed, output =>
    let next := children env seed
    fillLeaves env depth (first+2^depth) next.2 (fillLeaves env depth first next.1 output)

def puncture (env : Platform) (point : ℕ) : ℕ → ℕ → Block → List Node
  | 0, _, _ => []
  | depth+1, first, seed =>
    let next := children env seed
    let split := first+2^depth
    if point < split then ⟨split,depth,next.2⟩::puncture env point depth first next.1
    else ⟨first,depth,next.1⟩::puncture env point depth split next.2

inductive Seeds
  | expanded (raw : List (Option Block))
  | tree (nodes : List Node)

/-- Every leaf of a list of subtrees, over an empty domain. -/
def fillNodes (env : Platform) (domain : ℕ) (nodes : List Node) : List (Option Block) :=
  nodes.foldl (fun raw node => fillLeaves env node.depth node.first node.seed raw)
    (List.replicate domain none)

def Seeds.leaves (env : Platform) (self : Seeds) (domain : ℕ) : List (Option Block) :=
  match self with
  | expanded raw => raw
  | tree nodes => fillNodes env domain nodes

/-- Seeds in the encoding asked for. -/
def Seeds.encode (env : Platform) (p : Parameters) (nodes : List Node) : Seeds :=
  if p.encoding = .punctured then .tree nodes else .expanded (fillNodes env p.scalarDomain nodes)

def sender (env : Platform) (root : Block) (p : Parameters) : Seeds :=
  Seeds.encode env p [⟨0,p.depth,root⟩]

def receiver (env : Platform) (root : Block) (point : ℕ) (p : Parameters) : Seeds :=
  Seeds.encode env p (puncture env point p.depth 0 root)

/-- The residue a leaf key yields for one lane. -/
def prf (env : Platform) (key : Block) (namespaceBytes : List Byte) (index p : ℕ) :
    Except Error ℕ :=
  uniform (fun attempt => (env.aes key (Block.ofBytes (namespaceBytes
    ++ leBytes 4 (BitVec.ofNat 32 index)++leBytes 4 (BitVec.ofNat 32 attempt)))).setWidth 32) p 0 128

structure Key where
  scalar : ℕ
  sender : Seeds
  receiver : Seeds

structure Share where
  scalar : ℕ
  vectors : List (ℕ × ℕ)

inductive State
  | key (key : Key)
  | prepared (share : Share)
  | waiting (share : Share) (vectorOpening : List ℕ) (scalarOpening : ℕ)

structure Party where
  id : Bool
  parameters : Parameters
  binding : BitVec 256
  nonce : BitVec 256
  state : Option State

/-- The dealer's draws. -/
structure Random where
  nonce : BitVec 256
  roots : Block × Block
  scalars : Bool → ℕ → BitVec 32

def bindingBytes (p : Parameters) (context : Context) : List Byte :=
  ascii "pllm.secret_replication.v1\x00" ++ leBytes 4 (BitVec.ofNat 32 p.field)
    ++ leBytes 4 (BitVec.ofNat 32 p.scalarDomain)++leBytes 8 (BitVec.ofNat 64 p.lanes)
    ++ [p.encoding.code]++leBytes 32 context.plan++leBytes 32 context.session
    ++ leBytes 32 context.operation++leBytes 8 (BitVec.ofNat 64 context.firstTensorIndex)

def issueReference (env : Platform) (p : Parameters) (context : Context) (random : Random) :
    Except Error (Party × Party) := do
  p.validate env
  if context.firstTensorIndex+p.lanes≥2^64 then .error .domain
  else do
    let left ← randomWord (random.scalars false) p.scalarDomain
    let right ← randomWord (random.scalars true) p.scalarDomain
    let make := fun id : Bool =>
      { id := id
        parameters := p
        binding := env.sha256 (bindingBytes p context)
        nonce := random.nonce
        state := some (.key
          { scalar := pick (left,right) id
            sender := sender env (pick random.roots id) p
            receiver := receiver env (pick random.roots !id) (pick (left,right) id) p }) : Party }
    return (make false,make true)

/-- The loop over the party's own leaves, from leaf `j` on: the coefficients `a` and `b`. -/
def senderSums (env : Platform) (namespaceBytes : List Byte) (index p : ℕ) :
    ℕ → List (Option Block) → ℕ × ℕ → Except Error (ℕ × ℕ)
  | _, [], sums => .ok sums
  | _, none::_, _ => .error .context
  | j, some key::leaves, sums => do
    let value ← prf env key namespaceBytes index p
    senderSums env namespaceBytes index p (j+1) leaves
      (add sums.1 value p,sub sums.2 (mul j value p) p)

/-- The loop over the other party's leaves, all but the scalar's own. -/
def receiverSum (env : Platform) (namespaceBytes : List Byte) (index p scalar : ℕ) :
    ℕ → List (Option Block) → ℕ → Except Error ℕ
  | _, [], sum => .ok sum
  | j, none::leaves, sum =>
    if j≠scalar then .error .context
    else receiverSum env namespaceBytes index p scalar (j+1) leaves sum
  | j, some key::leaves, sum => do
    let value ← prf env key namespaceBytes index p
    receiverSum env namespaceBytes index p scalar (j+1) leaves
      (add sum (mul (sub scalar j p) value p) p)

/-- One lane of the correlation: the vector mask and the product share. -/
def prepareLane (env : Platform) (namespaceBytes : List Byte) (p scalar : ℕ)
    (senderLeaves receiverLeaves : List (Option Block)) (index : ℕ) : Except Error (ℕ × ℕ) := do
  let (a,b) ← senderSums env namespaceBytes index p 0 senderLeaves (0,0)
  let y ← receiverSum env namespaceBytes index p scalar 0 receiverLeaves 0
  return (a,sub (add (mul a scalar p) y p) b p)

namespace Party

def cancel (self : Party) : Party := { self with state := none }

def prfNamespace (env : Platform) (self : Party) : List Byte :=
  leBytes 8 (env.sha256 (ascii "pllm.secret_replication.prf.v1\x00" ++ leBytes 32 self.binding
    ++ leBytes 32 self.nonce))

def prepare (env : Platform) (self : Party) : Except Error Unit × Party :=
  match self.state with
  | none => (.error .consumed,self)
  | some (.key key) =>
    let p := self.parameters
    let senderLeaves := key.sender.leaves env p.scalarDomain
    let receiverLeaves := key.receiver.leaves env p.scalarDomain
    match (List.range p.lanes).mapM (prepareLane env (self.prfNamespace env) p.field key.scalar
        senderLeaves receiverLeaves) with
    | .error e => (.error e,self.cancel)
    | .ok vectors => (.ok (),{ self with state := some (.prepared ⟨key.scalar,vectors⟩) })
  | some _ => (.error .context,self.cancel)

def frame (self : Party) (scalarOpening : ℕ) (vectorOpening : List ℕ) : List Byte :=
  magic++leBytes 32 self.binding++leBytes 32 self.nonce++[0,if self.id then 1 else 0]
    ++ leBytes 4 (BitVec.ofNat 32 self.parameters.lanes)
    ++ wordBytes ((scalarOpening::vectorOpening).map (BitVec.ofNat 32))

def start (self : Party) (scalar : ℕ) (vector : List ℕ) : Except Error (List Byte) × Party :=
  match self.state with
  | none => (.error .consumed,self)
  | some (.prepared share) =>
    let p := self.parameters
    if p.scalarDomain≠p.field ∨ scalar≥p.field ∨ vector.length≠p.lanes
        ∨ vector.any (fun v => decide (v≥p.field)) then (.error .domain,self.cancel)
    else
      let scalarOpening := sub scalar share.scalar p.field
      let vectorOpening := List.zipWith (fun v (pair : ℕ × ℕ) => sub v pair.1 p.field) vector
        share.vectors
      (.ok (self.frame scalarOpening vectorOpening),
        { self with state := some (.waiting share vectorOpening scalarOpening) })
  | some _ => (.error .context,self.cancel)

/-- One lane of `finish`: a peer's word, the own opening and the lane's correlation. -/
def finishLane (self : Party) (share : Share) (scalar : ℕ) (raw : BitVec 32) (own : ℕ)
    (pair : ℕ × ℕ) : Except Error ℕ :=
  let p := self.parameters.field
  if raw.toNat≥p then .error .domain
  else
    let vector := add raw.toNat own p
    let cross := if self.id=false then mul vector scalar p else 0
    .ok (add (add pair.2 (mul vector share.scalar p) p) (add (mul scalar pair.1 p) cross p) p)

def finish (self : Party) (peer : List Byte) : Except Error (List ℕ) × Party :=
  match self.state with
  | none => (.error .consumed,self)
  | some (.waiting share ownVector ownScalar) =>
    let p := self.parameters
    let result : Except Error (List ℕ) :=
      if peer.length≠headerBytes+4*(p.lanes+1) ∨ peer.take 8 ≠ magic
          ∨ slice peer 8 32 ≠ leBytes 32 self.binding ∨ slice peer 40 32 ≠ leBytes 32 self.nonce
          ∨ peer.getD 72 0 ≠ 0 ∨ peer.getD 73 0 ≠ (if self.id then 0 else 1)
          ∨ (ofLeBytes 32 (slice peer 74 4)).toNat ≠ p.lanes then .error .context
      else
        let scalar := (ofLeBytes 32 (slice peer 78 4)).toNat
        if scalar≥p.field then .error .domain
        else
          let scalar := add scalar ownScalar p.field
          (((bytesWords (peer.drop 82)).zip ownVector).zip share.vectors).mapM fun entry =>
            self.finishLane share scalar entry.1.1 entry.1.2 entry.2
    (result,self.cancel)
  | some _ => (.error .context,self.cancel)

end Party

end Pllm.Replication
