import Mathlib
import Pllm.Lib.Dict

/-! The owner of prefills that are still being computed. Requests join a producer whose whole prompt is
a prefix of theirs, wait for its result, and are released one by one; a producer that has finished and
has no request left is retired. Each section under the owner's lock is one step. -/
namespace Pllm.Runtime.InflightPrefix
open Pllm.Lib

/-- Five digests, each of 64 hexadecimal digits. -/
structure Binding where
  sourceDigest : String
  compositionDigest : String
  compiledDigest : String
  stateBindingDigest : String
  nativePrefillDigest : String
  deriving DecidableEq

structure Resources where
  layers : ℕ
  kvHeads : ℕ
  headDim : ℕ
  vocabSize : ℕ
  capacityTokens : ℕ
  deriving DecidableEq

namespace Resources

def kvRowBytes (r : Resources) : ℕ := r.layers*2*r.kvHeads*r.headDim*4

def logitsBytes (r : Resources) : ℕ := r.vocabSize*4

def runtimeOverlapBytes (r : Resources) : ℕ := 2*r.capacityTokens*r.kvRowBytes+r.logitsBytes

/-- The prefix is one that the capacity admits. -/
def payloadBytes (r : Resources) (prefixTokens : ℕ) : ℕ := prefixTokens*r.kvRowBytes+r.logitsBytes

def producerBytes (r : Resources) (prefixTokens : ℕ) : ℕ :=
  2*r.payloadBytes prefixTokens+r.runtimeOverlapBytes

def branchBytes (r : Resources) (prefixTokens : ℕ) : ℕ :=
  r.payloadBytes prefixTokens+r.runtimeOverlapBytes

end Resources

/-- A key stands for the digest of what it is made of. -/
abbrev Key := Binding × List ℤ

/-- A commitment to a snapshot and its logits, taken to be free of collisions. -/
structure Hashing (π δ : Type) where
  commit : π → δ
  injective : Function.Injective commit

inductive Status
  | pending
  | published
  | failed
  deriving DecidableEq

structure Node (π δ : Type) where
  key : Option Key
  binding : Binding
  resources : Resources
  tokens : List ℤ
  reservation : ℕ
  cancel : Bool
  requests : Finset ℕ
  active : Bool
  status : Status
  result : Option π
  commitment : Option δ

def Node.publish {π δ : Type} (node : Node π δ) (saved : π) (commitment : δ) : Node π δ :=
  { node with result := some saved, commitment := some commitment, status := .published }

/-- The result is erased, and so are the tokens, the key and the commitment. -/
def Node.erase {π δ : Type} (node : Node π δ) : Node π δ :=
  { node with
    result := none
    tokens := List.replicate node.tokens.length 0
    commitment := none
    key := none }

inductive Lease (π : Type)
  | none
  | held (payload : π)
  | erased

/-- The prompt, the binding and the resources are those that the caller asked with. -/
structure Request (π : Type) where
  node : ℕ
  isProducer : Bool
  prefixTokens : ℕ
  reservation : ℕ
  released : Bool
  cancelled : Bool
  lease : Lease π
  prompt : List ℤ
  binding : Binding
  resources : Resources

/-- The arrays of a lease are erased with its request. -/
def Request.drop {π : Type} (q : Request π) : Request π :=
  { q with
    released := true
    lease := match q.lease with
      | .held _ => .erased
      | lease => lease }

structure Stats where
  reservedBytes : ℤ
  peakReservedBytes : ℤ
  requests : ℤ
  producerRegistrations : ℕ
  publications : ℕ
  joins : ℕ
  failures : ℕ
  cancellations : ℕ
  cancelledProducers : ℕ
  retired : ℕ
  copyBytes : ℕ
  boundRejections : ℕ
  cacheBypasses : ℕ

/-- The bounds that the owner is made with. -/
structure Bounds where
  maxRequests : ℕ
  maxNodes : ℕ
  maxBytes : ℕ
  requests : 1 ≤ maxRequests ∧ maxRequests≤64
  nodes : 1 ≤ maxNodes ∧ maxNodes≤64
  bytes : 1 ≤ maxBytes ∧ maxBytes≤256*2^20

/-- A thread that waits on the condition, for a request or for the last node to retire. -/
inductive Parked
  | request (r : ℕ) (timed : Bool)
  | close (timed : Bool)

/-- Nodes and requests are numbered as they are made; the maps hold all that were ever made. -/
structure Owner (π δ : Type) where
  bounds : Bounds
  pending : Dict Key ℕ
  nodes : Finset ℕ
  closed : Bool
  stats : Stats
  node : ℕ → Node π δ
  madeNodes : ℕ
  request : ℕ → Request π
  madeRequests : ℕ
  parked : ℕ → Option Parked

def noBinding : Binding := ⟨"","","","",""⟩

def noResources : Resources := ⟨0,0,0,0,0⟩

def Owner.new {π δ : Type} (bounds : Bounds) : Owner π δ where
  bounds := bounds
  pending := Dict.empty
  nodes := ∅
  closed := false
  stats := ⟨0,0,0,0,0,0,0,0,0,0,0,0,0⟩
  node _ := ⟨none,noBinding,noResources,[],0,false,∅,false,.failed,none,none⟩
  madeNodes := 0
  request _ := ⟨0,false,0,0,true,true,.none,[],noBinding,noResources⟩
  madeRequests := 0
  parked _ := none

inductive Failure
  | valueError
  | runtimeError
  | cancelled
  | timedOut
  | producerFailed
  /-- Raised by the caller's own admission, validation or copies. -/
  | foreign

inductive Answer (π : Type)
  | request (r : ℕ)
  | bypassed
  | done
  | lease (r : ℕ) (payload : π)
  | drained (all : Bool)
  | parked
  | raised (failure : Failure)
  | idle

namespace Owner
variable {π δ : Type}

def setNode (o : Owner π δ) (n : ℕ) (f : Node π δ → Node π δ) : Owner π δ :=
  { o with node := Function.update o.node n (f (o.node n)) }

def setRequest (o : Owner π δ) (r : ℕ) (f : Request π → Request π) : Owner π δ :=
  { o with request := Function.update o.request r (f (o.request r)) }

def count (o : Owner π δ) (f : Stats → Stats) : Owner π δ := { o with stats := f o.stats }

/-- A newer node of the same key may be the one that is indexed. -/
def unindex (o : Owner π δ) (n : ℕ) : Owner π δ :=
  match (o.node n).key with
  | some key => if o.pending.get? key=some n then { o with pending := o.pending.erase key } else o
  | none => o

def markFailed (o : Owner π δ) (n : ℕ) : Owner π δ :=
  let o := if (o.node n).status ≠ .failed then
      (o.setNode n fun node => { node with status := .failed }).count fun s =>
        { s with failures := s.failures+1 }
    else o
  o.unindex n

def retire (o : Owner π δ) (n : ℕ) : Owner π δ :=
  if (o.node n).requests ≠ ∅ ∨ (o.node n).active ∨ n ∉ o.nodes then o
  else
    let o := o.unindex n
    let o := o.setNode n Node.erase
    let o := o.count fun s =>
      { s with
        reservedBytes := s.reservedBytes-(o.node n).reservation
        retired := s.retired+1 }
    { o with nodes := o.nodes.erase n }

def signal (o : Owner π δ) (n : ℕ) : Owner π δ :=
  if (o.node n).active ∧ (o.node n).cancel=false then
    (o.setNode n fun node => { node with cancel := true }).count fun s =>
      { s with cancelledProducers := s.cancelledProducers+1 }
  else o

/-- The request leaves its node. -/
def leave (o : Owner π δ) (r : ℕ) : Owner π δ :=
  let n := (o.request r).node
  let o := o.setRequest r Request.drop
  let o := o.setNode n fun node => { node with requests := node.requests.erase r }
  o.count fun s =>
    { s with
      requests := s.requests-1
      reservedBytes := s.reservedBytes-(o.request r).reservation }

def release (o : Owner π δ) (r : ℕ) : Owner π δ :=
  if (o.request r).released then o
  else
    let n := (o.request r).node
    let o := o.leave r
    let o := if (o.node n).requests = ∅ then (o.unindex n).signal n else o
    o.retire n

def cancel (o : Owner π δ) (r : ℕ) : Owner π δ :=
  if (o.request r).released ∨ (o.request r).cancelled then o
  else
    let o := (o.setRequest r fun q => { q with cancelled := true }).count fun s =>
      { s with cancellations := s.cancellations+1 }
    match (o.request r).lease with
    | .none => o.release r
    | _ => o

end Owner

/-- What a call of the caller's code and memory comes to during a publication: the two validations,
the arrays as they are committed to, copied, and committed to again. -/
structure Publishing (π : Type) where
  valid : Bool
  snapshot : π
  copied : Option π
  copyValid : Bool
  after : π

/-- What memory comes to when a result is handed out: the arrays read back and the copy made. -/
structure Copying (π : Type) where
  seen : Option π
  copied : Option π

/-- The arguments of a lookup, and whether the caller's admission raises. -/
structure Lookup where
  trusted : Bool
  binding : Binding
  tokenIds : List ℤ
  resources : Resources
  admits : Bool
  completedCacheHit : Bool

namespace Owner
variable {π δ : Type} [DecidableEq δ] (h : Hashing π δ)

/-- The pending node with the longest prompt that starts this one. -/
def candidate (o : Owner π δ) (l : Lookup) : Option ℕ :=
  let candidates := (o.pending.items.map Prod.snd).filter fun n =>
    (o.node n).binding = l.binding ∧ (o.node n).resources = l.resources ∧
      (o.node n).tokens <+: l.tokenIds
  candidates.argmax fun n => (o.node n).tokens.length

/-- A new producer of the whole prompt. -/
def register (o : Owner π δ) (l : Lookup) (producer : ℕ) : Owner π δ :=
  let n := o.madeNodes
  let key := (l.binding,l.tokenIds)
  { o with
    nodes := insert n o.nodes
    pending := o.pending.set key n
    node := Function.update o.node n
      ⟨some key,l.binding,l.resources,l.tokenIds,producer,false,∅,true,.pending,none,none⟩
    madeNodes := n+1
    stats := { o.stats with producerRegistrations := o.stats.producerRegistrations+1 } }

/-- A new request of a node. -/
def enter (o : Owner π δ) (l : Lookup) (n producer branch : ℕ) : Owner π δ :=
  let r := o.madeRequests
  let reserved := o.stats.reservedBytes+(producer+branch)
  { o with
    request := Function.update o.request r
      ⟨n,decide (producer≠0),(o.node n).tokens.length,branch,false,false,.none,l.tokenIds,
        l.binding,l.resources⟩
    madeRequests := r+1
    node := Function.update o.node n
      { o.node n with requests := insert r (o.node n).requests }
    stats := { o.stats with
      requests := o.stats.requests+1
      reservedBytes := reserved
      peakReservedBytes := max o.stats.peakReservedBytes reserved } }

def lookupOrRegister (o : Owner π δ) (l : Lookup) : Answer π × Owner π δ :=
  if l.trusted=false then (.raised .valueError,o)
  else if ¬(1≤l.tokenIds.length ∧ l.tokenIds.length ≤ min 4096 l.resources.capacityTokens) then
    (.raised .valueError,o)
  else if ∃ t∈l.tokenIds,¬(0≤t ∧ t < min l.resources.vocabSize (2^32)) then
    (.raised .valueError,o)
  else if o.closed then (.raised .cancelled,o)
  else if l.completedCacheHit then
    (.bypassed,o.count fun s => { s with cacheBypasses := s.cacheBypasses+1 })
  else
    let node := o.candidate l
    let prefixTokens := match node with
      | some n => (o.node n).tokens.length
      | none => l.tokenIds.length
    let branch := l.resources.branchBytes prefixTokens
    let producer := if node=none then l.resources.producerBytes prefixTokens else 0
    if o.stats.requests≥o.bounds.maxRequests ∨ (node=none ∧ o.nodes.card≥o.bounds.maxNodes) ∨
        o.stats.reservedBytes+branch+producer>o.bounds.maxBytes then
      (.bypassed,o.count fun s => { s with boundRejections := s.boundRejections+1 })
    else if l.admits=false then (.raised .foreign,o)
    else
      match node with
      | none => (.request o.madeRequests,(o.register l producer).enter l o.madeNodes producer branch)
      | some n => (.request o.madeRequests,
          (o.count fun s => { s with joins := s.joins+1 }).enter l n producer branch)

/-- Whether the request may act as the producer of its node. -/
def isProducing (o : Owner π δ) (r : ℕ) : Prop :=
  (o.request r).isProducer ∧ (o.request r).node ∈ o.nodes

instance (o : Owner π δ) (r : ℕ) : Decidable (o.isProducing r) :=
  inferInstanceAs (Decidable (_ ∧ _))

def publish (o : Owner π δ) (r : ℕ) (p : Publishing π) : Answer π × Owner π δ :=
  let n := (o.request r).node
  let node := o.node n
  if ¬o.isProducing r then (.raised .runtimeError,o)
  else if node.active=false ∨ node.status ≠ .pending ∨ node.cancel then (.raised .cancelled,o)
  else
    match p.copied with
    | some saved =>
      if p.valid ∧ p.copyValid ∧ h.commit saved=h.commit p.snapshot ∧
          h.commit p.after = h.commit p.snapshot then
        let o := o.setNode n fun node => node.publish saved (h.commit p.snapshot)
        (.done,(o.unindex n).count fun s =>
          { s with
            publications := s.publications+1
            copyBytes := s.copyBytes+node.resources.payloadBytes node.tokens.length })
      else (.raised .foreign,o.markFailed n)
    | none => (.raised .foreign,o.markFailed n)

def fail (o : Owner π δ) (r : ℕ) : Answer π × Owner π δ :=
  let n := (o.request r).node
  if ¬o.isProducing r then (.raised .runtimeError,o)
  else if (o.node n).active=false then (.raised .runtimeError,o)
  else (.done,o.markFailed n)

/-- The producer is done, its own arrays erased; idempotent, after retirement too. -/
def finish (o : Owner π δ) (r : ℕ) : Answer π × Owner π δ :=
  let n := (o.request r).node
  if (o.request r).isProducer=false then (.raised .runtimeError,o)
  else if (o.node n).active=false then (.done,o)
  else
    let o := if (o.node n).status = .pending then o.markFailed n else o
    let o := o.setNode n fun node => { node with active := false }
    (.done,o.retire n)

/-- What ends a wait: the node is settled, or the request or the owner is over. -/
def settled (o : Owner π δ) (r : ℕ) : Prop :=
  (o.node (o.request r).node).status ≠ .pending ∨ (o.request r).cancelled ∨
    (o.request r).released ∨ o.closed

instance (o : Owner π δ) (r : ℕ) : Decidable (o.settled r) :=
  inferInstanceAs (Decidable (_ ∨ _))

/-- The end of a wait: a private copy of the result, checked against the commitment. -/
def deliver (o : Owner π δ) (r : ℕ) (c : Copying π) : Answer π × Owner π δ :=
  let n := (o.request r).node
  let node := o.node n
  if (o.request r).released ∨ (o.request r).cancelled ∨ o.closed then (.raised .cancelled,o)
  else
    match (o.request r).lease with
    | .held payload => (.lease r payload,o)
    | _ =>
      if node.status = .failed then (.raised .producerFailed,o.release r)
      else if c.seen.map h.commit=none ∨ c.seen.map h.commit ≠ node.commitment then
        (.raised .foreign,(o.markFailed n).release r)
      else
        match c.copied with
        | some saved =>
          if some (h.commit saved)=node.commitment then
            (.lease r saved,(o.setRequest r fun q => { q with lease := .held saved }).count fun s =>
              { s with
                copyBytes := s.copyBytes+
                  node.resources.payloadBytes (o.request r).prefixTokens })
          else (.raised .foreign,o.release r)
        | none => (.raised .foreign,o.release r)

def park (o : Owner π δ) (thread : ℕ) (p : Option Parked) : Owner π δ :=
  { o with parked := Function.update o.parked thread p }

def wait (o : Owner π δ) (thread r : ℕ) (timeout : Option ℚ) (c : Copying π) :
    Answer π × Owner π δ :=
  if ∃ t∈timeout,t<0 then (.raised .valueError,o)
  else if (o.request r).released ∨ (o.request r).cancelled ∨ o.closed then (.raised .cancelled,o)
  else
    match (o.request r).lease with
    | .held payload => (.lease r payload,o)
    | _ =>
      if o.settled r then o.deliver h r c
      else if timeout=some 0 then (.raised .timedOut,o.cancel r)
      else (.parked,o.park thread (some (.request r timeout.isSome)))

/-- A node's producer is signalled, its key given up and its requests cancelled. -/
def abandon (o : Owner π δ) (n : ℕ) : Owner π δ :=
  let o := (o.signal n).unindex n
  ((o.node n).requests.sort (· ≤ ·)).foldl cancel o

def close (o : Owner π δ) (thread : ℕ) (wait : Bool) (timeout : Option ℚ) : Answer π × Owner π δ :=
  if ∃ t∈timeout,t<0 then (.raised .valueError,o)
  else
    let o := { o with closed := true }
    let o := (o.nodes.sort (· ≤ ·)).foldl abandon o
    if wait ∧ o.nodes ≠ ∅ ∧ timeout ≠ some 0 then
      (.parked,o.park thread (some (.close timeout.isSome)))
    else (.drained (decide (o.nodes = ∅)),o)

/-- A thread that waits looks again, because it was notified or because its time is over. -/
def wake (o : Owner π δ) (thread : ℕ) (expired : Bool) (c : Copying π) : Answer π × Owner π δ :=
  match o.parked thread with
  | some (.request r timed) =>
    if o.settled r then (o.park thread none).deliver h r c
    else if timed ∧ expired then (.raised .timedOut,(o.park thread none).cancel r)
    else (.parked,o)
  | some (.close timed) =>
    if o.nodes = ∅ then (.drained true,o.park thread none)
    else if timed ∧ expired then (.drained false,o.park thread none)
    else (.parked,o)
  | none => (.idle,o)

end Owner

inductive Action (π : Type)
  | lookupOrRegister (l : Lookup)
  | publish (r : ℕ) (p : Publishing π)
  | fail (r : ℕ)
  | finish (r : ℕ)
  | wait (r : ℕ) (timeout : Option ℚ) (c : Copying π)
  | cancel (r : ℕ)
  | release (r : ℕ)
  | close (wait : Bool) (timeout : Option ℚ)
  | wake (expired : Bool) (c : Copying π)

/-- The request that an action is made on. -/
def Action.on {π : Type} : Action π → Option ℕ
  | .publish r _ | .fail r | .finish r | .wait r _ _ | .cancel r | .release r => some r
  | _ => none

structure Event (π : Type) where
  thread : ℕ
  action : Action π

section
variable {π δ : Type} [DecidableEq δ] (h : Hashing π δ)

def act (o : Owner π δ) (thread : ℕ) : Action π → Answer π × Owner π δ
  | .lookupOrRegister l => o.lookupOrRegister l
  | .publish r p => o.publish h r p
  | .fail r => o.fail r
  | .finish r => o.finish r
  | .wait r timeout c => o.wait h thread r timeout c
  | .cancel r => (.done,o.cancel r)
  | .release r => (.done,o.release r)
  | .close wait timeout => o.close thread wait timeout
  | .wake expired c => o.wake h thread expired c

/-- A parked thread can only wake, and an action needs a request that was made. -/
def possible (o : Owner π δ) (e : Event π) : Prop :=
  (match e.action with
    | .wake _ _ => True
    | _ => o.parked e.thread=none) ∧ ∀ r∈e.action.on,r<o.madeRequests

instance (o : Owner π δ) (e : Event π) : Decidable (possible o e) := by
  unfold possible
  cases e.action <;> infer_instance

def step (o : Owner π δ) (e : Event π) : Answer π × Owner π δ :=
  if possible o e then act h o e.thread e.action else (.idle,o)

def run (events : List (Event π)) (o : Owner π δ) : Owner π δ :=
  events.foldl (fun o e => (step h o e).2) o

end

end Pllm.Runtime.InflightPrefix
