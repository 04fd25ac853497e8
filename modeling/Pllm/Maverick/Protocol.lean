import Pllm.Maverick.Code

/-! The client and the server of a publication. `granted` says whether the allocator grants the
buffers of a call, and sampled vectors come as an argument, or as the error of their source. -/
namespace Pllm.Maverick

inductive Mode
  | single
  | batch
  deriving DecidableEq

def batchSlot : ℕ := 255

structure Header where
  publication : Words
  session : Words
  attempt : ℕ
  mode : Mode
  slot : ℕ
  deriving DecidableEq

/-- A request, a reply or an auxiliary reply. -/
structure Message where
  header : Header
  values : Words

structure Challenge where
  header : Header
  entries : Fin repetitions → Words

structure Claim where
  header : Header
  input : Words
  correction : Words

abbrev Noise := Sparse codeLength privacyWeight
abbrev Checks (length : ℕ) := Fin repetitions → Sparse length checkWeight

structure Client where
  material : Material
  session : Words
  issued : ℕ
  live : Bool

/-! The owners of a lease. Each is used once: it has gone after the call that takes it. -/

structure Query where
  claim : Claim

structure Batch where
  claims : Fin batchSize → Claim

structure ChallengedBatch where
  claims : Fin batchSize → Claim
  outputs : Fin batchSize → Words
  encoded : Fin batchSize → Words
  primary : Checks codeLength
  header : Header

structure Protocol2Request where
  claims : Fin 2 → Fin batchSize → Claim

structure ChallengedRequest where
  batches : Fin 2 → ChallengedBatch

structure DependentRequest where
  claim : Claim

structure DependentBatch where
  firstOutput : Words
  batch : Batch

structure AcceptedBatch where
  outputs : Fin batchSize → Message

-- several imports offer an instance for the numerals of the definitions: this one fixes their term
local instance neZeroTwo : @NeZero ℕ Zero.ofOfNat0 2 := ⟨Nat.succ_ne_zero 1⟩

/-- The results of a family of checked computations, or the error of the first that fails. -/
def both {α : Type} (f : Fin 2 → Except Error α) : Except Error (Fin 2 → α) := do
  let a ← f 0
  let b ← f 1
  pure fun i => if i=0 then a else b

def grant (granted : Bool) : Except Error Unit := if granted then .ok () else .error .allocation

namespace Client

variable (c : Client)

def reserveOrdinals (mode : Mode) (count : ℕ) : Except Error Header × Client :=
  if c.issued+count>maxAttempts then (.error .attempts,c)
  else
    let issued := { c with issued := c.issued+count }
    if c.live then (.error .busy,issued)
    else (.ok ⟨c.material.binding,c.session,c.issued,mode,batchSlot⟩,{ issued with live := true })

def reserve (mode : Mode) : Except Error Header × Client := c.reserveOrdinals mode 1

/-- A call that starts an owner: the lease it has reserved goes with an error. -/
def start {α : Type} (reserved : Except Error Header × Client)
    (body : Header → Except Error α) : Except Error α × Client :=
  match reserved.1 with
  | .error e => (.error e,reserved.2)
  | .ok header => match body header with
    | .error e => (.error e,{ reserved.2 with live := false })
    | .ok a => (.ok a,reserved.2)

/-- A call that hands the lease of its owner on, unless it fails. -/
def proceed {α : Type} (body : Except Error α) : Except Error α × Client :=
  match body with
  | .error e => (.error e,{ c with live := false })
  | .ok a => (.ok a,c)

/-- A call that ends the lease of its owner. -/
def finish {α : Type} (body : Except Error α) : Except Error α × Client :=
  (body,{ c with live := false })

def checkHeader (actual expected : Header) : Except Error Unit :=
  if actual≠expected ∨ expected.publication≠c.material.binding
      ∨ expected.session≠c.session then .error .binding
  else .ok ()

def claim (header : Header) (slot : Fin batchSize) (input : Words) (noise : Noise) :
    Except Error (Claim × Message) := do
  let m := c.material
  let header := { header with slot := slot }
  let mask ← (m.gx slot).syndrome noise
  let masked : Words := (List.range dimension).map fun i => add (input.at i) (mask.at i)
  let correction := (List.range dimension).map fun i =>
    noise.dot ((m.parts.p slot).slice (i*codeLength) codeLength)
  pure (⟨header,masked,correction⟩,⟨header,masked⟩)

def issueQuery (granted : Bool) (slot : ℕ) (input : Words) (noise : Except Error Noise) :
    Except Error (Query × Message) × Client :=
  start (c.reserve .single) fun header =>
    if h : slot<batchSize then do
      canonical input dimension
      let noise ← noise
      grant granted
      let (claim,request) ← c.claim header ⟨slot,h⟩ input noise
      pure (⟨claim⟩,request)
    else .error .shape

def issueBatch (granted : Bool) (inputs : Fin batchSize → Words)
    (noise : Except Error (Fin batchSize → Noise)) :
    Except Error (Batch × (Fin batchSize → Message)) × Client :=
  start (c.reserve .batch) fun header => do
    let _ ← both fun b => canonical (inputs b) dimension
    let noise ← noise
    grant granted
    let claims ← both fun b => c.claim header b (inputs b) (noise b)
    pure (⟨fun b => (claims b).1⟩,fun b => (claims b).2)

def checked (reply : Message) (header : Header) (length : ℕ) : Except Error Unit := do
  c.checkHeader reply.header header
  canonical reply.values length

/-- The client's copy of a checked reply. -/
def fixed (granted : Bool) (reply : Message) (header : Header) (length : ℕ) :
    Except Error Words := do
  c.checked reply header length
  grant granted
  pure reply.values

/-- The output of a claim without its correction. -/
def demaskValues (claim : Claim) (fixed : Words) : Words :=
  (List.range dimension).map fun i => sub (fixed.at i) (claim.correction.at i)

def decrypt (claim : Claim) (fixed : Words) : Message := ⟨claim.header,demaskValues claim fixed⟩

def finishQuery (granted : Bool) (query : Query) (reply : Message)
    (challenges : Except Error (Checks codeLength)) : Except Error Message × Client :=
  c.finish do
    let m := c.material
    let fixed ← c.fixed granted reply query.claim.header dimension
    let encoded ← m.gy.encode fixed
    let challenges ← challenges
    if h : query.claim.header.slot<batchSize then
      if ∃ i,dot (project (m.parts.q ⟨query.claim.header.slot,h⟩) (challenges i)) query.claim.input
          ≠ (challenges i).dot encoded then .error .rejected
      else .ok (decrypt query.claim fixed)
    else .error .shape

/-- All originals of a batch, in order. -/
def fixOriginals (granted : Bool) (claims : Fin batchSize → Claim) (responses : List Message) :
    Except Error (Fin batchSize → Words) :=
  match responses with
  | [r0,r1] => do
    let response (b : Fin batchSize) : Message := if b=0 then r0 else r1
    let _ ← both fun b => c.checked (response b) (claims b).header dimension
    grant granted
    pure fun b => (response b).values
  | _ => .error .shape

/-- Challenges come after every original and its encoding are fixed. -/
def prepareBatch (granted : Bool) (claims : Fin batchSize → Claim) (outputs : Fin batchSize → Words)
    (challenges : Except Error (Checks codeLength)) :
    Except Error (ChallengedBatch × Challenge) := do
  let encoded ← both fun b => c.material.gy.encode (outputs b)
  let primary ← challenges
  grant granted
  let header := { (claims 0).header with slot := batchSlot }
  pure (⟨claims,outputs,encoded,primary,header⟩,⟨header,fun i => (primary i).pairs⟩)

def beginVerification (granted : Bool) (batch : Batch) (responses : List Message)
    (challenges : Except Error (Checks codeLength)) :
    Except Error (ChallengedBatch × Challenge) × Client :=
  c.proceed do
    let outputs ← c.fixOriginals granted batch.claims responses
    c.prepareBatch granted batch.claims outputs challenges

/-- The four secondary equations: one challenge is shared by the fixed auxiliary responses. -/
def secondaryHolds (batch : ChallengedBatch) (fixed : Words)
    (ep : Sparse secondaryLength checkWeight) : Except Error Bool := do
  let r ← c.material.gp.syndrome ep
  pure (decide (∀ q : Fin repetitions,
    (batch.primary q).entries.foldl (fun left p => ep.entries.foldl (fun left p' =>
      add left (mul (mul p.2 p'.2)
        (c.material.parts.qAuxiliary.at (p.1*secondaryLength+p'.1)))) left) 0 =
    dot r (fixed.slice (q*secondaryDimension) secondaryDimension)))

def originalHolds (batch : ChallengedBatch) (fixed : Words) (q : Fin repetitions)
    (b : Fin batchSize) : Prop :=
  dot (fixed.slice (q*secondaryDimension+b*dimension) dimension) (batch.claims b).input =
    (batch.primary q).dot (batch.encoded b)

instance (batch : ChallengedBatch) (fixed : Words) (q : Fin repetitions) (b : Fin batchSize) :
    Decidable (originalHolds batch fixed q b) := inferInstanceAs (Decidable (_=_))

def checkEquations (batch : ChallengedBatch) (fixed : Words) (secondary : Checks secondaryLength) :
    Except Error Bool := do
  let seconds ← both fun j => c.secondaryHolds batch fixed (secondary j)
  pure (seconds 0 && seconds 1 && decide (∀ q b,originalHolds batch fixed q b))

def acceptBatch (batch : ChallengedBatch) : AcceptedBatch :=
  ⟨fun b => decrypt (batch.claims b) (batch.outputs b)⟩

def fixAuxiliary (granted : Bool) (batch : ChallengedBatch) (auxiliary : Message) :
    Except Error Words :=
  c.fixed granted auxiliary batch.header (repetitions*secondaryDimension)

def finishBatch (granted : Bool) (batch : ChallengedBatch) (auxiliary : Message)
    (challenges : Except Error (Checks secondaryLength)) : Except Error AcceptedBatch × Client :=
  c.finish do
    let fixed ← c.fixAuxiliary granted batch auxiliary
    let secondary ← challenges
    let holds ← c.checkEquations batch fixed secondary
    if !holds then .error .rejected else pure (acceptBatch batch)

def issueRequest (granted : Bool) (inputs : Fin 2 → Fin batchSize → Words)
    (noise : Except Error (Fin 2 → Fin batchSize → Noise)) :
    Except Error (Protocol2Request × (Fin 2 → Fin batchSize → Message)) × Client :=
  start (c.reserveOrdinals .batch 2) fun first => do
    let headers (i : Fin 2) : Header := { first with attempt := first.attempt+i }
    let _ ← both fun i => both fun b => canonical (inputs i b) dimension
    grant granted
    let noise ← noise
    let claims ← both fun i => both fun b => c.claim (headers i) b (inputs i b) (noise i b)
    pure (⟨fun i b => (claims i b).1⟩,fun i b => (claims i b).2)

def beginRequestVerification (granted : Bool) (request : Protocol2Request)
    (responses : List Message) (challenges : Except Error (Fin 2 → Checks codeLength)) :
    Except Error (ChallengedRequest × (Fin 2 → Challenge)) × Client :=
  c.proceed do
    match responses with
    | [r0,r1,r2,r3] =>
      let response (i b : Fin 2) : Message :=
        if i=0 then if b=0 then r0 else r1 else if b=0 then r2 else r3
      let _ ← both fun i => both fun b =>
        c.checked (response i b) (request.claims i b).header dimension
      let outputs ← both fun i =>
        c.fixOriginals granted (request.claims i) [response i 0,response i 1]
      let challenges ← challenges
      let prepared ← both fun i =>
        c.prepareBatch granted (request.claims i) (outputs i) (.ok (challenges i))
      pure (⟨fun i => (prepared i).1⟩,fun i => (prepared i).2)
    | _ => .error .shape

def finishRequest (granted : Bool) (request : ChallengedRequest) (auxiliary : List Message)
    (challenges : Except Error (Fin 2 → Checks secondaryLength)) :
    Except Error (Fin 2 → AcceptedBatch) × Client :=
  c.finish do
    match auxiliary with
    | [a0,a1] =>
      let reply (i : Fin 2) : Message := if i=0 then a0 else a1
      let _ ← both fun i => c.checked (reply i) (request.batches i).header
        (repetitions*secondaryDimension)
      let fixed ← both fun i => c.fixAuxiliary granted (request.batches i) (reply i)
      let secondary ← challenges
      let holds ← both fun i => c.checkEquations (request.batches i) (fixed i) (secondary i)
      if !(holds 0 && holds 1) then .error .rejected
      else pure fun i => acceptBatch (request.batches i)
    | _ => .error .shape

def issueDependent (granted : Bool) (input : Words) (noise : Except Error Noise) :
    Except Error (DependentRequest × Message) × Client :=
  start (c.reserve .batch) fun header => do
    canonical input dimension
    let noise ← noise
    grant granted
    let (claim,request) ← c.claim header 0 input noise
    pure (⟨claim⟩,request)

def continueDependent (granted : Bool) (owner : DependentRequest) (response : Message)
    (noise : Except Error Noise) : Except Error (DependentBatch × Message) × Client :=
  c.proceed do
    let firstOutput ← c.fixed granted response owner.claim.header dimension
    let noise ← noise
    let (second,request) ← c.claim owner.claim.header 1 (demaskValues owner.claim firstOutput) noise
    pure (⟨firstOutput,⟨fun b => if b=0 then owner.claim else second⟩⟩,request)

def beginDependentVerification (granted : Bool) (owner : DependentBatch) (response : Message)
    (challenges : Except Error (Checks codeLength)) :
    Except Error (ChallengedBatch × Challenge) × Client :=
  c.proceed do
    c.checkHeader (owner.batch.claims 0).header (owner.batch.claims 0).header
    let second ← c.fixed granted response (owner.batch.claims 1).header dimension
    c.prepareBatch granted owner.batch.claims (fun b => if b=0 then owner.firstOutput else second)
      challenges

end Client

/-- A party of its own: public matrices and `q`, and what it has seen of each attempt. -/
structure Server where
  matrices : Fin batchSize → Words
  q : Fin batchSize → Words
  binding : Words
  session : Words
  seen : List ℕ
  evaluated : List ℕ
  modes : List (Option Mode)

/-- The two owners of a validated publication. -/
def ValidatedPublication.split (v : ValidatedPublication) (session : Words) : Client × Server :=
  (⟨v.material,session,0,false⟩,
    ⟨v.material.source.matrices,v.material.parts.q,v.material.binding,session,
      List.replicate maxAttempts 0,List.replicate maxAttempts 0,List.replicate maxAttempts none⟩)

namespace Server

def check (s : Server) (header : Header) : Except Error ℕ :=
  if header.publication≠s.binding ∨ header.session≠s.session ∨ header.attempt≥maxAttempts then
    .error .binding
  else .ok header.attempt

/-- The mode and the slot are burned before anything of the request is looked at. -/
def burn (s : Server) (at_ slot : ℕ) (mode : Mode) : Server :=
  { s with
    modes := s.modes.set at_ (some mode)
    seen := s.seen.set at_ (s.seen.getD at_ 0 ||| 1 <<< slot) }

/-- The product of a matrix with a vector, row by row. -/
def product (matrix input : Words) : Words :=
  (List.range dimension).map fun row => dot (matrixRow matrix row) input

def evaluate (s : Server) (granted : Bool) (request : Message) : Except Error Message × Server :=
  match s.check request.header with
  | .error e => (.error e,s)
  | .ok at_ =>
    if h : request.header.slot<batchSize then
      let slot := request.header.slot
      if (∃ mode ∈ s.modes.getD at_ none,mode≠request.header.mode)
          ∨ s.seen.getD at_ 0 &&& 1 <<< slot ≠ 0
          ∨ request.header.mode = .single ∧ s.seen.getD at_ 0 ≠ 0 then (.error .replay,s)
      else
        let burned := s.burn at_ slot request.header.mode
        match canonical request.values dimension with
        | .error e => (.error e,burned)
        | .ok () =>
          if !granted then (.error .allocation,burned)
          else (.ok ⟨request.header,product (s.matrices ⟨slot,h⟩) request.values⟩,
            { burned with
              evaluated := s.evaluated.set at_ (s.evaluated.getD at_ 0 ||| 1 <<< slot) })
    else (.error .shape,s)

/-- The projection of both matrices by one challenge, one after the other. -/
def projections (s : Server) (e : Sparse codeLength checkWeight) : Words :=
  project (s.q 0) e++project (s.q 1) e

def project (s : Server) (granted : Bool) (challenge : Challenge) :
    Except Error Message × Server :=
  match s.check challenge.header with
  | .error e => (.error e,s)
  | .ok at_ =>
    if challenge.header.mode ≠ .batch ∨ challenge.header.slot≠batchSlot
        ∨ s.modes.getD at_ none ≠ some .batch ∨ s.seen.getD at_ 0 ≠ 3
        ∨ s.evaluated.getD at_ 0 ≠ 3 then (.error .replay,s)
    else
      let spent := { s with seen := s.seen.set at_ (s.seen.getD at_ 0 ||| 4) }
      if !granted then (.error .allocation,spent)
      else match both fun i => Sparse.fromPairs codeLength checkWeight (challenge.entries i) with
        | .error e => (.error e,spent)
        | .ok e => (.ok ⟨challenge.header,s.projections (e 0)++s.projections (e 1)⟩,spent)

end Server

/-- What holds a live lease. -/
inductive Owner
  | query (query : Query)
  | batch (batch : Batch)
  | challengedBatch (batch : ChallengedBatch)
  | request (request : Protocol2Request)
  | challengedRequest (request : ChallengedRequest)
  | dependentRequest (request : DependentRequest)
  | dependentBatch (batch : DependentBatch)

/-- A call that issues an owner. -/
inductive Issue
  | query (slot : ℕ) (input : Words) (noise : Except Error Noise)
  | batch (inputs : Fin batchSize → Words) (noise : Except Error (Fin batchSize → Noise))
  | request (inputs : Fin 2 → Fin batchSize → Words)
    (noise : Except Error (Fin 2 → Fin batchSize → Noise))
  | dependent (input : Words) (noise : Except Error Noise)

/-- A call that takes an owner. -/
inductive Use
  | finishQuery (reply : Message) (challenges : Except Error (Checks codeLength))
  | beginVerification (responses : List Message) (challenges : Except Error (Checks codeLength))
  | finishBatch (auxiliary : Message) (challenges : Except Error (Checks secondaryLength))
  | beginRequestVerification (responses : List Message)
    (challenges : Except Error (Fin 2 → Checks codeLength))
  | finishRequest (auxiliary : List Message)
    (challenges : Except Error (Fin 2 → Checks secondaryLength))
  | continueDependent (response : Message) (noise : Except Error Noise)
  | beginDependentVerification (response : Message)
    (challenges : Except Error (Checks codeLength))
  | cancel

inductive Event
  | issue (granted : Bool) (call : Issue)
  | use (n : ℕ) (granted : Bool) (call : Use)
  | evaluate (granted : Bool) (request : Message)
  | project (granted : Bool) (challenge : Challenge)

/-- An attempt, a slot and a mode that the server was asked for. -/
structure Taken where
  attempt : ℕ
  slot : ℕ
  mode : Mode

/-- The attempts of the requests that the client has let go, what the server has burned and what it
has evaluated of it, and the attempts that it has burned for a projection. -/
structure History where
  issued : List ℕ
  burned : List Taken
  evaluated : List Taken
  projected : List ℕ

structure System where
  client : Client
  owners : List Owner
  server : Server
  history : History

namespace System

/-- The owners of a validated publication, at the start of a session. -/
def start (v : ValidatedPublication) (session : Words) : System :=
  ⟨(v.split session).1,[],(v.split session).2,⟨[],[],[],[]⟩⟩

/-- The result of a call to the client, as the owner it returns and the attempts of its messages. -/
def answered {α : Type} (owner : α → List Owner) (attempts : α → List ℕ)
    (r : Except Error α × Client) : Except Error (List Owner × List ℕ) × Client :=
  (r.1.map fun a => (owner a,attempts a),r.2)

def issue (c : Client) (granted : Bool) :
    Issue → Except Error (List Owner × List ℕ) × Client
  | .query slot input noise =>
    answered (fun a => [.query a.1]) (fun a => [a.2.header.attempt])
      (c.issueQuery granted slot input noise)
  | .batch inputs noise =>
    answered (fun a => [.batch a.1]) (fun a => [(a.2 0).header.attempt])
      (c.issueBatch granted inputs noise)
  | .request inputs noise =>
    answered (fun a => [.request a.1])
      (fun a => [(a.2 0 0).header.attempt,(a.2 1 0).header.attempt])
      (c.issueRequest granted inputs noise)
  | .dependent input noise =>
    answered (fun a => [.dependentRequest a.1]) (fun a => [a.2.header.attempt])
      (c.issueDependent granted input noise)

/-- The call of an owner, or none where the owner is not of the kind that the call takes. -/
def use (c : Client) (granted : Bool) :
    Owner → Use → Option (Except Error (List Owner × List ℕ) × Client)
  | _,.cancel => some (.ok ([],[]),{ c with live := false })
  | .query query,.finishQuery reply challenges =>
    some (answered (fun _ => []) (fun _ => []) (c.finishQuery granted query reply challenges))
  | .batch batch,.beginVerification responses challenges =>
    some (answered (fun a => [.challengedBatch a.1]) (fun _ => [])
      (c.beginVerification granted batch responses challenges))
  | .challengedBatch batch,.finishBatch auxiliary challenges =>
    some (answered (fun _ => []) (fun _ => []) (c.finishBatch granted batch auxiliary challenges))
  | .request request,.beginRequestVerification responses challenges =>
    some (answered (fun a => [.challengedRequest a.1]) (fun _ => [])
      (c.beginRequestVerification granted request responses challenges))
  | .challengedRequest request,.finishRequest auxiliary challenges =>
    some (answered (fun _ => []) (fun _ => [])
      (c.finishRequest granted request auxiliary challenges))
  | .dependentRequest owner,.continueDependent response noise =>
    some (answered (fun a => [.dependentBatch a.1]) (fun _ => [])
      (c.continueDependent granted owner response noise))
  | .dependentBatch owner,.beginDependentVerification response challenges =>
    some (answered (fun a => [.challengedBatch a.1]) (fun _ => [])
      (c.beginDependentVerification granted owner response challenges))
  | _,_ => none

/-- The owners that are left, and what a call has added to them. -/
def settle (s : System) (left : List Owner) (r : Except Error (List Owner × List ℕ) × Client) :
    System :=
  match r.1 with
  | .error _ => { s with
      client := r.2
      owners := left }
  | .ok (owners,attempts) => { s with
      client := r.2
      owners := left++owners
      history := { s.history with issued := s.history.issued++attempts } }

/-- Whether a call has burned something of an attempt. -/
def burns (before after : Server) (at_ : ℕ) : Bool := before.seen.getD at_ 0 != after.seen.getD at_ 0

def evaluate (s : System) (granted : Bool) (request : Message) : System :=
  let r := s.server.evaluate granted request
  let taken : List Taken := [⟨request.header.attempt,request.header.slot,request.header.mode⟩]
  { s with
    server := r.2
    history := { s.history with
      burned := s.history.burned ++
        if burns s.server r.2 request.header.attempt then taken else []
      evaluated := s.history.evaluated++if r.1.isOk then taken else [] } }

def project (s : System) (granted : Bool) (challenge : Challenge) : System :=
  let r := s.server.project granted challenge
  { s with
    server := r.2
    history := { s.history with
      projected := s.history.projected ++
        if burns s.server r.2 challenge.header.attempt then [challenge.header.attempt] else [] } }

def step (s : System) : Event → System
  | .issue granted call => s.settle s.owners (issue s.client granted call)
  | .use n granted call =>
    match s.owners[n]? with
    | none => s
    | some owner => match use s.client granted owner call with
      | none => s
      | some r => s.settle (s.owners.eraseIdx n) r
  | .evaluate granted request => s.evaluate granted request
  | .project granted challenge => s.project granted challenge

def after (s : System) (events : List Event) : System := events.foldl step s

end System

end Pllm.Maverick
