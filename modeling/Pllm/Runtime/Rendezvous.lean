import Mathlib.Data.Finset.Card
import Pllm.Lib.Dict

/-! The rendezvous of corrections with the requests they belong to. Every section under the lock is
a step, the clock gives it any value, and `T` is the type of the clock's values. -/
namespace Pllm.Runtime.Corrections
open Pllm.Lib

/-- What a correction and a request have to agree on. -/
structure Metadata where
  sessionId : String
  model : String
  bodyFingerprint : String
  attemptId : String
  stageId : String
  weightDigest : String
  rows : ℕ
  inFeatures : ℕ
  outFeatures : ℕ
  weightBits : ℕ
  activationBits : ℕ
  signedOutputBound : ℕ
  ring : Option String
  modulus : ℕ
  wireBits : ℕ
  deriving DecidableEq

structure CorrectionPush where
  metadata : Metadata
  correction : List (List ℕ)
  serverNs : ℕ

structure SessionAuthorization where
  sessionId : String
  model : String
  bodyFingerprint : String
  stageCommitment : String
  weightBits : ℕ
  activationBits : ℕ
  maxAttempts : ℕ
  rows : ℕ
  stageIds : List String
  verificationComponent : String
  verificationTargetFailureBits : ℕ
  stageRows : List ℕ
  deriving DecidableEq

structure MaskedStageRequest where
  model : String
  stageId : String
  correlationId : String
  /-- The shape of the masked input, a vector or a matrix. -/
  shape : List ℕ
  modulus : ℕ
  wireBits : ℕ
  ring : Option String
  bodyFingerprint : String
  weightDigest : String
  weightBits : ℕ
  activationBits : ℕ
  sessionId : String
  outFeatures : ℕ
  signedOutputBound : ℕ
  deriving DecidableEq

def MaskedStageRequest.rows (r : MaskedStageRequest) : ℕ :=
  if r.shape.length=1 then 1 else r.shape.headD 0

/-- An empty correlation id stands for the one of the request. -/
def requestMetadata (r : MaskedStageRequest) (correlationId : String) (rows : ℕ) : Metadata where
  sessionId := r.sessionId
  model := r.model
  bodyFingerprint := r.bodyFingerprint
  attemptId := if correlationId = "" then r.correlationId else correlationId
  stageId := r.stageId
  weightDigest := r.weightDigest
  rows := rows
  inFeatures := r.shape.getLastD 0
  outFeatures := r.outFeatures
  weightBits := r.weightBits
  activationBits := r.activationBits
  signedOutputBound := r.signedOutputBound
  ring := r.ring
  modulus := r.modulus
  wireBits := r.wireBits

def MaskedStageRequest.metadata (r : MaskedStageRequest) : Metadata :=
  requestMetadata r r.correlationId r.rows

/-- The checks of the messages themselves beyond their shapes, and the derived attempt ids. -/
structure Protocol where
  authorization : SessionAuthorization → Bool
  correction : CorrectionPush → Bool
  onlineAttemptId : CorrectionPush → ℕ → String

abbrev Key := String × List ℕ

def hexDigit (c : Char) : Option ℕ :=
  if '0' ≤ c ∧ c ≤ '9' then some (c.toNat - '0'.toNat)
  else if 'a' ≤ c ∧ c ≤ 'f' then some (c.toNat - 'a'.toNat + 10)
  else none

def fromHex : List Char → Option (List ℕ)
  | [] => some []
  | [_] => none
  | c::d::rest => do
    let high ← hexDigit c
    let low ← hexDigit d
    let bytes ← fromHex rest
    pure ((16*high+low)::bytes)

def key (sessionId attemptId : String) : Except String Key :=
  if attemptId.toList.length≠32 then .error "attempt id must encode at least 128 random bits"
  else match fromHex attemptId.toList with
    | none => .error "attempt id must encode at least 128 random bits"
    | some bytes => .ok (sessionId,bytes)

inductive Future
  | pending
  | result (c : CorrectionPush)
  | cancelled

def Future.cancel : Future → Future
  | .pending => .cancelled
  | f => f

/-- `future` is the place of the entry's future among all that were made, and tells entries apart. -/
structure Entry (T : Type) where
  created : T
  future : ℕ
  correction : Option CorrectionPush
  correctionBytes : ℤ
  activated : Bool
  preloaded : Bool
  activationMetadata : Option Metadata

structure Session (T : Type) where
  expected : SessionAuthorization
  burned : Finset (List ℕ)
  lastActive : T
  authorized : Bool

def Session.burn {T : Type} (s : Session T) (attempt : List ℕ) : Session T :=
  { s with burned := insert attempt s.burned }

structure Limits (T : Type) where
  timeout : T
  capacity : ℕ
  maxBytes : ℤ
  sessionCapacity : ℕ
  sessionIdleTimeout : T

structure Counters where
  authorizations : ℕ
  authorizationBytes : ℤ
  attempts : ℕ
  consumed : ℕ
  failures : ℕ

/-- The bounded rendezvous of the corrections of authorized sessions. `waiting` are the consumers
that wait for the correction of an entry. -/
structure Rendezvous (T : Type) where
  limits : Limits T
  entries : Dict Key (Entry T)
  sessions : Dict String (Session T)
  bytes : ℤ
  counters : Counters
  futures : List Future
  waiting : List (MaskedStageRequest × ℕ)

namespace Rendezvous

variable {T : Type}

def live (q : Rendezvous T) (sessionId : String) : ℕ :=
  q.entries.sum fun k _ => if k.1=sessionId then 1 else 0

def failed (q : Rendezvous T) : Rendezvous T :=
  { q with counters := { q.counters with failures := q.counters.failures+1 } }

/-- Takes an entry out and cancels it. -/
def discard (q : Rendezvous T) (k : Key) : Rendezvous T :=
  match q.entries.get? k with
  | none => q
  | some e => { q with
    entries := q.entries.erase k
    bytes := q.bytes - e.correctionBytes
    futures := q.futures.modify e.future Future.cancel }

def mark (q : Rendezvous T) (k : Key) : Rendezvous T :=
  { q with sessions := q.sessions.modify k.1 fun s => s.burn k.2 }

def burn (q : Rendezvous T) (k : Key) (failure : Bool) : Rendezvous T :=
  let q := (q.discard k).mark k
  if failure then q.failed else q

def terminal (q : Rendezvous T) (sessionId : String) : Rendezvous T :=
  let keys := q.entries.keysWhere fun k _ => k.1=sessionId
  keys.foldl (fun q k => (q.discard k).failed) { q with sessions := q.sessions.erase sessionId }

def touch (q : Rendezvous T) (sessionId : String) (now : T) : Rendezvous T :=
  { q with sessions := q.sessions.modify sessionId fun s => { s with lastActive := now } }

section Clock

variable [Sub T] [LE T] [DecidableLE T]

def cleanupEntries (q : Rendezvous T) (now : T) : Rendezvous T :=
  let keys := q.entries.keysWhere fun _ e =>
    !e.preloaded && decide (e.created ≤ now - q.limits.timeout)
  keys.foldl (fun q k => q.burn k true) q

def cleanupSessions (q : Rendezvous T) (now : T) : Rendezvous T :=
  let ids := q.sessions.keysWhere fun _ s =>
    decide (s.lastActive ≤ now - q.limits.sessionIdleTimeout)
  ids.foldl terminal q

def cleanup (q : Rendezvous T) (now : T) : Rendezvous T := (q.cleanupEntries now).cleanupSessions now

def registerSession (protocol : Protocol) (q : Rendezvous T) (a : SessionAuthorization) (now : T) :
    Except String Unit × Rendezvous T :=
  if !protocol.authorization a then (.error "invalid session authorization",q)
  else
    let q := q.cleanup now
    match q.sessions.get? a.sessionId with
    | some _ => (.error "correction session is already registered",q)
    | none =>
      if q.sessions.size≥q.limits.sessionCapacity then
        (.error "correction session capacity exceeded",q)
      else (.ok (),{ q with sessions := q.sessions.set a.sessionId ⟨a,∅,now,false⟩ })

def authorizeSession (protocol : Protocol) (q : Rendezvous T) (a : SessionAuthorization)
    (payloadBytes : ℤ) (now : T) : Except String Unit × Rendezvous T :=
  if !protocol.authorization a then (.error "invalid session authorization",q)
  else
    let q := q.cleanup now
    match q.sessions.get? a.sessionId with
    | none => (.error "correction session is not active",q)
    | some session =>
      if a≠session.expected then (.error "session authorization metadata mismatch",q)
      else if session.authorized then
        (.error "session authorization was already consumed",q)
      else if payloadBytes≤0 then (.error "session authorization payload is empty",q)
      else (.ok (),{ q with
        sessions := q.sessions.modify a.sessionId fun s =>
          { s with authorized := true, lastActive := now }
        counters := { q.counters with
          authorizations := q.counters.authorizations+1
          authorizationBytes := q.counters.authorizationBytes+payloadBytes } })

/-- A fresh entry takes its place and a future of its own. -/
def admitEntry (q : Rendezvous T) (k : Key) (now : T) : Entry T × Rendezvous T :=
  let e : Entry T := ⟨now,q.futures.length,none,0,false,false,none⟩
  (e,{ q with
    entries := q.entries.set k e
    futures := q.futures++[.pending]
    counters := { q.counters with attempts := q.counters.attempts+1 } })

def entryLocked (q : Rendezvous T) (k : Key) (now : T) : Except String (Entry T) × Rendezvous T :=
  let q := q.cleanup now
  match q.sessions.get? k.1 with
  | none => (.error "correction session is not active",q)
  | some session =>
    if !session.authorized then (.error "correction session is not authorized",q)
    else
      let q := q.touch k.1 now
      if k.2∈session.burned then (.error "attempt was already consumed or burned",q)
      else match q.entries.get? k with
        | some e => (.ok e,q)
        | none =>
          if q.entries.size≥q.limits.capacity then
            (.error "correction rendezvous capacity exceeded",q.failed)
          else if session.burned.card + q.live k.1≥session.expected.maxAttempts then
            (.error "session attempt capacity exceeded",q.failed)
          else (.ok (q.admitEntry k now).1,(q.admitEntry k now).2)

/-- An update of an entry in its place. -/
def update (q : Rendezvous T) (k : Key) (f : Entry T → Entry T) : Rendezvous T :=
  { q with entries := q.entries.modify k f }

/-- The correction and its bytes join the entry. -/
def join (q : Rendezvous T) (k : Key) (c : CorrectionPush) (payloadBytes : ℤ) : Rendezvous T :=
  { q with
    entries := q.entries.modify k fun e =>
      { e with correction := some c, correctionBytes := payloadBytes }
    bytes := q.bytes+payloadBytes }

/-- The future takes the correction unless somebody cancelled it. -/
def attach (q : Rendezvous T) (k : Key) (future : ℕ) (c : CorrectionPush) (payloadBytes : ℤ) :
    Except String Unit × Rendezvous T :=
  let q := q.join k c payloadBytes
  match q.futures[future]? with
  | some .pending => (.ok (),{ q with futures := q.futures.set future (.result c) })
  | _ => (.error "correction arrived after attempt cancellation",q.burn k true)

def push (q : Rendezvous T) (c : CorrectionPush) (payloadBytes : ℤ) (now : T) :
    Except String Unit × Rendezvous T :=
  match key c.metadata.sessionId c.metadata.attemptId with
  | .error text => (.error text,q)
  | .ok k =>
    match q.entryLocked k now with
    | (.error text,q) => (.error text,q)
    | (.ok e,q) =>
      if e.activated ∧ some c.metadata ≠ e.activationMetadata then
        (.error "correction and activation metadata mismatch",q.burn k true)
      else if e.correction.isSome then (.error "duplicate correction push",q.burn k true)
      else if payloadBytes≤0 ∨ q.bytes+payloadBytes>q.limits.maxBytes then
        (.error "correction rendezvous byte capacity exceeded",q.burn k true)
      else q.attach k e.future c payloadBytes

/-- The correction of one row of a bulk. -/
def rowCorrection (c : CorrectionPush) (attemptId : String) (row : ℕ) : CorrectionPush where
  metadata := { c.metadata with attemptId := attemptId, rows := 1 }
  correction := (c.correction.drop row).take 1
  serverNs := c.serverNs

/-- One row of a bulk joins, with its share of the bytes: the first rows take one of the remainder
each. -/
def preloadRow (c : CorrectionPush) (payloadBytes : ℤ) (now : T) (q : Rendezvous T)
    (row : (Key × String) × ℕ) : Rendezvous T :=
  let correction := rowCorrection c row.1.2 row.2
  let share := payloadBytes / c.metadata.rows +
    if (row.2:ℤ) < payloadBytes % c.metadata.rows then 1 else 0
  { q with
    entries := q.entries.set row.1.1
      ⟨now,q.futures.length,some correction,share,false,true,none⟩
    futures := q.futures++[.result correction] }

/-- All rows of a bulk join, and then its bytes. -/
def preloadRows (q : Rendezvous T) (c : CorrectionPush) (payloadBytes : ℤ)
    (rows : List (Key × String)) (now : T) : Rendezvous T :=
  let q := rows.zipIdx.foldl (preloadRow c payloadBytes now) q
  { q with
    bytes := q.bytes+payloadBytes
    counters := { q.counters with attempts := q.counters.attempts+c.metadata.rows } }

/-- The section of a bulk under the lock, after the cleanup. -/
def preloadLocked (q : Rendezvous T) (c : CorrectionPush) (payloadBytes : ℤ) (keys : List Key)
    (attemptIds : List String) (now : T) : Except String Unit × Rendezvous T :=
  match q.sessions.get? c.metadata.sessionId with
  | none => (.error "correction session is not active",q)
  | some session =>
    if !session.authorized then (.error "correction session is not authorized",q)
    else if c.metadata.model≠session.expected.model
        ∨ c.metadata.bodyFingerprint ≠ session.expected.bodyFingerprint
        ∨ c.metadata.weightBits ≠ session.expected.weightBits
        ∨ c.metadata.activationBits ≠ session.expected.activationBits then
      (.error "correction and session authorization metadata mismatch",q)
    else if ∃ k∈keys,k.2∈session.burned then
      (.error "attempt was already consumed or burned",q)
    else if ∃ k∈keys,(q.entries.get? k).isSome then (.error "duplicate correction push",q)
    else if q.entries.size + c.metadata.rows>q.limits.capacity then
      (.error "correction rendezvous capacity exceeded",q)
    else if session.burned.card + q.live c.metadata.sessionId + c.metadata.rows
        > session.expected.maxAttempts then
      (.error "session attempt capacity exceeded",q)
    else if q.bytes+payloadBytes>q.limits.maxBytes then
      (.error "correction rendezvous byte capacity exceeded",q)
    else
      (.ok (),(q.preloadRows c payloadBytes (keys.zip attemptIds) now).touch c.metadata.sessionId now)

def preloadBulk (protocol : Protocol) (q : Rendezvous T) (c : CorrectionPush) (payloadBytes : ℤ)
    (now : T) : Except String Unit × Rendezvous T :=
  let m := c.metadata
  if m.rows=0 ∨ m.inFeatures=0 ∨ m.outFeatures=0 then
    (.error "correction shape must be positive",q)
  else if !protocol.correction c then (.error "invalid correction",q)
  else if ¬(c.correction.length=m.rows ∧ ∀ row∈c.correction,row.length=m.outFeatures) then
    (.error "correction shape mismatch",q)
  else if payloadBytes≤0 then (.error "correction payload is empty",q)
  else
    let attemptIds := (List.range m.rows).map (protocol.onlineAttemptId c)
    match attemptIds.mapM (key m.sessionId) with
    | .error text => (.error text,q)
    | .ok keys =>
      if ¬keys.Nodup then (.error "bulk correction contains duplicate attempt keys",q)
      else (q.cleanup now).preloadLocked c payloadBytes keys attemptIds now

def activate (q : Rendezvous T) (r : MaskedStageRequest) (now : T) :
    Except String ℕ × Rendezvous T :=
  match key r.sessionId r.correlationId with
  | .error text => (.error text,q)
  | .ok k =>
    match q.entryLocked k now with
    | (.error text,q) => (.error text,q)
    | (.ok e,q) =>
      match q.sessions.get? r.sessionId with
      | none => (.error "session",q)
      | some session =>
        if r.model≠session.expected.model
            ∨ r.bodyFingerprint ≠ session.expected.bodyFingerprint then
          (.error "activation and session authorization metadata mismatch",q.burn k true)
        else if e.activated then (.error "duplicate activation attempt",q.burn k true)
        else
          let q := q.update k fun e =>
            { e with
              activated := true
              created := if e.preloaded then now else e.created
              preloaded := false
              activationMetadata := some r.metadata }
          if ∃ c∈e.correction,c.metadata≠r.metadata then
            (.error "correction and activation metadata mismatch",q.burn k true)
          else (.ok e.future,q)

end Clock

/-- Whether the entry of a key is the one with this future. -/
def isEntry (q : Rendezvous T) (k : Key) (future : ℕ) : Bool :=
  (q.entries.get? k).any fun e => e.future=future

def abort (q : Rendezvous T) (r : MaskedStageRequest) (future : ℕ) :
    Except String Unit × Rendezvous T :=
  match key r.sessionId r.correlationId with
  | .error text => (.error text,q)
  | .ok k => (.ok (),if q.isEntry k future then q.burn k true else q)

/-- The first section of a consumer, up to its wait. -/
def correction (q : Rendezvous T) (r : MaskedStageRequest) (future : ℕ) :
    Except String Unit × Rendezvous T :=
  match key r.sessionId r.correlationId with
  | .error text => (.error text,q)
  | .ok k =>
    if q.isEntry k future then (.ok (),{ q with waiting := q.waiting++[(r,future)] })
    else (.error "attempt was concurrently burned",q)

structure Delivery where
  key : Key
  correction : CorrectionPush
  requested : Metadata

/-- What a consumer does with the result of the future. -/
def received (q : Rendezvous T) (r : MaskedStageRequest) (future : ℕ) :
    Except String (List Delivery) × Rendezvous T :=
  match q.futures[future]? with
  | some (.result c) =>
    if c.metadata≠r.metadata then
      (.error "correction and activation metadata mismatch",(q.abort r future).2)
    else match key r.sessionId r.correlationId with
      | .error text => (.error text,q)
      | .ok k =>
        if q.isEntry k future then
          (.ok [⟨k,c,r.metadata⟩],{ q.burn k false with
            counters := { q.counters with consumed := q.counters.consumed+1 } })
        else (.error "attempt was concurrently burned",q)
  | _ => (.error "correction rendezvous timed out",(q.abort r future).2)

/-- A consumer whose wait has ended with the result of the future. -/
def receive (q : Rendezvous T) (r : MaskedStageRequest) (future : ℕ) :
    Except String (List Delivery) × Rendezvous T :=
  { q with waiting := q.waiting.erase (r,future) }.received r future

/-- A consumer whose wait has ended with the time or with a cancellation. -/
def abandon (q : Rendezvous T) (r : MaskedStageRequest) (future : ℕ) :
    Except String Unit × Rendezvous T :=
  (.error "correction rendezvous timed out",
    ({ q with waiting := q.waiting.erase (r,future) }.abort r future).2)

/-- The check of one item of a prepared batch. -/
def prepared (q : Rendezvous T) (session : Session T) (r : MaskedStageRequest)
    (item : Key × String) : Except String Delivery :=
  if item.1.2∈session.burned then .error "attempt was already consumed or burned"
  else match q.entries.get? item.1 with
    | none => .error "prepared correction is not preloaded"
    | some e => match e.correction with
      | none => .error "prepared correction is not preloaded"
      | some c =>
        if e.activated then .error "duplicate activation attempt"
        else if c.metadata ≠ requestMetadata r item.2 1 then
          .error "correction and activation metadata mismatch"
        else .ok ⟨item.1,c,requestMetadata r item.2 1⟩

/-- One item of a batch that passed is activated and burned. -/
def consumeItem (r : MaskedStageRequest) (q : Rendezvous T) (item : Key × String) : Rendezvous T :=
  (q.update item.1 fun e =>
    { e with
      activated := true
      preloaded := false
      activationMetadata := some (requestMetadata r item.2 1) }).burn item.1 false

section Clock

variable [Sub T] [LE T] [DecidableLE T]

/-- The section of a batch under the lock, after the cleanup. -/
def consumeLocked (q : Rendezvous T) (r : MaskedStageRequest) (correlationIds : List String)
    (keys : List Key) (now : T) : Except String (List Delivery) × Rendezvous T :=
  match q.sessions.get? r.sessionId with
  | none => (.error "correction session is not active",q)
  | some session =>
    if !session.authorized then (.error "correction session is not authorized",q)
    else if r.model≠session.expected.model
        ∨ r.bodyFingerprint ≠ session.expected.bodyFingerprint then
      (.error "activation and session authorization metadata mismatch",q)
    else match (keys.zip correlationIds).mapM (q.prepared session r) with
      | .error text => (.error text,keys.foldl (fun q k => q.burn k true) q)
      | .ok deliveries =>
        let q := ((keys.zip correlationIds).foldl (consumeItem r) q).touch r.sessionId now
        (.ok deliveries,{ q with
          counters := { q.counters with consumed := q.counters.consumed+r.rows } })

def consumePreloadedBatch (q : Rendezvous T) (r : MaskedStageRequest) (correlationIds : List String)
    (now : T) : Except String (List Delivery) × Rendezvous T :=
  if r.rows≠correlationIds.length ∨ correlationIds=[] then
    (.error "prepared batch correlation count mismatch",q)
  else match correlationIds.mapM (key r.sessionId) with
    | .error text => (.error text,q)
    | .ok keys =>
      if ¬keys.Nodup then (.error "prepared batch correlation ids must be unique",q)
      else (q.cleanup now).consumeLocked r correlationIds keys now

end Clock

/-- An id that is none ends the loop. -/
def burnReserved (q : Rendezvous T) (sessionId : String) :
    List String → Except String Unit × Rendezvous T
  | [] => (.ok (),q)
  | attemptId::rest =>
    match key sessionId attemptId with
    | .error text => (.error text,q)
    | .ok k =>
      burnReserved (if (q.entries.get? k).isSome then q.burn k false else q) sessionId rest

def close (q : Rendezvous T) : Rendezvous T :=
  { q with
    futures := q.entries.keys.foldl (fun futures k =>
      match q.entries.get? k with
      | none => futures
      | some e => futures.modify e.future Future.cancel) q.futures
    entries := .empty
    sessions := .empty
    bytes := 0 }

end Rendezvous
end Pllm.Runtime.Corrections
