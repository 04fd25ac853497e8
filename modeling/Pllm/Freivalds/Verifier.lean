import Pllm.Freivalds.Projection

/-! Sessions, imported projections and the verifiers that are claimed from them. -/
namespace Pllm.Freivalds

def maxProcessSessions : ℕ := 65536

structure Session where
  id : Bytes
  policy : Policy
  remainingAttempts : ℕ
  materialIds : Finset Bytes

namespace Session

/-- The registry holds the ids of all sessions of the process. -/
def register (registry : Finset Bytes) (id : Bytes) (policy : Policy) :
    Result Session × Finset Bytes :=
  if id=List.replicate 32 0 then (refuse .binding,registry)
  else if registry.card≥maxProcessSessions ∨ id∈registry then (refuse .consumed,registry)
  else (.ok ⟨id,policy,policy.maxAttempts,∅⟩,insert id registry)

def registerMaterial (s : Session) (id : Bytes) : Result Session :=
  if s.materialIds.card≥s.policy.maxAttempts ∨ id∈s.materialIds then refuse .consumed
  else .ok { s with materialIds := insert id s.materialIds }

def claim (s : Session) (rows : ℕ) : Result Session :=
  if s.remainingAttempts < rows then refuse .consumed
  else .ok { s with remainingAttempts := s.remainingAttempts-rows }

end Session

structure Verifier where
  batchRows : ℕ
  inFeatures : ℕ
  outFeatures : ℕ
  checks : ℕ
  signedInputBound : ℤ
  signedOutputBound : ℤ
  maxRowL1 : ℕ
  challenges : List ℕ
  projections : List ℕ
  consumed : Bool

structure VerifiedBatch where
  rows : ℕ
  columns : ℕ
  values : List ℤ

def validateSelection (inventoryRows rowStart batchRows inFeatures outFeatures checks : ℕ)
    (signedOutputBound : ℤ) (resources : ResourcePolicy) : Result Unit := do
  let rowEnd ← checkedAdd rowStart batchRows
  if rowEnd>inventoryRows then refuse .dimension
  else if rowEnd=rowStart ∨ inFeatures=0 ∨ outFeatures=0 ∨ checks=0 ∨ checks>maxChecks
      ∨ batchRows>resources.maxBatchRows ∨ boundOutside signedOutputBound then refuse .policy
  else do
    let matrixElements ← checkedMul outFeatures inFeatures
    let blocks ← checkedMul batchRows checks
    let projectionElements ← checkedMul blocks inFeatures
    let challengeElements ← checkedMul blocks outFeatures
    let outputElements ← checkedMul batchRows outFeatures
    let width ← checkedAdd inFeatures outFeatures
    let verificationAccumulates ← checkedMul blocks width
    if matrixElements>resources.maxMatrixElements
        ∨ projectionElements>resources.maxProjectionElements
        ∨ challengeElements>resources.maxChallengeElements
        ∨ outputElements>resources.maxOutputElements
        ∨ verificationAccumulates>resources.maxMultiplyAccumulates then refuse .policy
    else pure ()

variable (prim : Primitives)

/-- The verifier of some rows, with the challenges that their projections were prepared from. -/
def Verifier.new (granted : Bool) (rootSeed binding : Bytes) (terms : Terms)
    (rowStart batchRows : ℕ) (projections : List ℕ) (resources : ResourcePolicy) :
    Result Verifier := do
  let rowEnd ← checkedAdd rowStart batchRows
  validateSelection rowEnd rowStart batchRows terms.inFeatures terms.outFeatures
    terms.policy.checks terms.signedOutputBound resources
  if !granted then refuse .allocation
  else do
    let challenges ← deriveChallenges prim rootSeed binding terms rowStart batchRows
    pure ⟨batchRows,terms.inFeatures,terms.outFeatures,terms.policy.checks,terms.signedInputBound,
      terms.signedOutputBound,terms.maxRowL1,challenges,projections,false⟩

namespace ProjectionBatch

/-- A part of a buffer, with `x` at each of its places. -/
def fillPart {α : Type} (xs : List α) (start length : ℕ) (x : α) : List α :=
  splice xs start (List.replicate length x)

/-- What has to hold before rows are taken, and where their projections are. -/
def checkClaim (b : ProjectionBatch) (binding : Bytes) (rowStart batchRows : ℕ) (session : Session)
    (resources : ResourcePolicy) : Result (ℕ × ℕ) := do
  if !b.claimable then refuse .policy
  else if session.id≠b.terms.sessionId ∨ session.policy≠b.terms.policy then refuse .binding
  else do
    let digest ← Freivalds.bindingDigest prim binding
    if digest≠b.bindingDigest then refuse .binding
    else do
      validateSelection b.inventoryRows rowStart batchRows b.terms.inFeatures b.terms.outFeatures
        b.terms.policy.checks b.terms.signedOutputBound resources
      let rowWidth ← checkedMul b.terms.policy.checks b.terms.inFeatures
      let start ← checkedMul rowStart rowWidth
      let length ← checkedMul batchRows rowWidth
      let last ← checkedAdd start length
      if last>b.values.length then refuse .dimension
      else if (slice b.consumed rowStart batchRows).any id then refuse .consumed
      else pure (start,length)

/-- Rows are claimed from the session and burned before anything can fail. The first allocation
is the one of the projections, the second the one of the challenges. -/
def claimVerifier (b : ProjectionBatch) (granted granted' : Bool) (rootSeed binding : Bytes)
    (rowStart batchRows : ℕ) (session : Session) (resources : ResourcePolicy) :
    Result Verifier × ProjectionBatch × Session :=
  match b.checkClaim prim binding rowStart batchRows session resources with
  | .error e => (.error e,b,session)
  | .ok (start,length) => match session.claim batchRows with
    | .error e => (.error e,b,session)
    | .ok session =>
      let burned := { b with
        consumed := fillPart b.consumed rowStart batchRows true
        values := fillPart b.values start length 0 }
      if !granted then (refuse .allocation,burned,session)
      else (Verifier.new prim granted' rootSeed binding b.terms rowStart batchRows
        (slice b.values start length) resources,burned,session)

end ProjectionBatch

def validateImport (inventoryRows outFeatures inFeatures : ℕ)
    (signedInputBound signedOutputBound : ℤ) (maxRowL1 : ℕ) (policy : Policy)
    (resources : ResourcePolicy) : Result Unit := do
  let matrixElements ← checkedMul outFeatures inFeatures
  let blocks ← checkedMul inventoryRows policy.checks
  let projectionElements ← checkedMul blocks inFeatures
  let projectionWork ← checkedMul blocks matrixElements
  if outFeatures=0 ∨ inFeatures=0 ∨ inventoryRows=0 ∨ inventoryRows>policy.maxAttempts
      ∨ matrixElements>resources.maxMatrixElements
      ∨ projectionElements>resources.maxProjectionElements
      ∨ projectionWork>resources.maxMultiplyAccumulates
      ∨ inventoryRows>resources.maxBatchRows then refuse .policy
  else validateDeclaredBound signedInputBound signedOutputBound maxRowL1

/-- What has to hold before a session takes a material. -/
def checkImport (encoded tag rootSeed binding : Bytes) (session : Session) (inventoryRows : ℕ)
    (terms : Terms) (resources : ResourcePolicy) : Result Bytes :=
  if session.policy≠terms.policy then refuse .binding
  else do
    let blocks ← checkedMul inventoryRows terms.policy.checks
    let elements ← checkedMul blocks terms.inFeatures
    let bytes ← checkedMul elements 4
    if encoded.length≠bytes then refuse .dimension
    else do
      validateImport inventoryRows terms.outFeatures terms.inFeatures terms.signedInputBound
        terms.signedOutputBound terms.maxRowL1 terms.policy resources
      let digest ← bindingDigest prim binding
      if prim.tag rootSeed (prim.contextDigest digest terms) encoded ≠ tag then refuse .integrity
      else pure digest

/-- Projections are taken under the id of the session that imports them. -/
def importProjections (granted : Bool) (encoded tag rootSeed binding : Bytes) (session : Session)
    (inventoryRows : ℕ) (terms : Terms) (resources : ResourcePolicy) :
    Result ProjectionBatch × Session :=
  let terms := { terms with sessionId := session.id }
  match checkImport prim encoded tag rootSeed binding session inventoryRows terms resources with
  | .error e => (.error e,session)
  | .ok digest => match session.registerMaterial terms.materialId with
    | .error e => (.error e,session)
    | .ok session =>
      let values := (chunksExact 4 encoded).map fun chunk => (ofLeBytes 32 chunk).toNat
      if !granted then (refuse .allocation,session)
      else if values.any (modulus ≤ ·) then (refuse .fieldElement,session)
      else (.ok ⟨inventoryRows,terms,digest,true,values,List.replicate inventoryRows false⟩,session)

namespace Verifier

def inputMax (input : List ℤ) : ℕ := input.foldl (fun maximum value => max maximum value.natAbs) 0

/-- One check of one row. -/
def checkRow (v : Verifier) (row : ℕ) (input output : List ℤ) (check : ℕ) : Result Bool := do
  let challengeStart ← blockStart row v.checks check v.outFeatures
  let _ ← addOf 64 challengeStart v.outFeatures
  let projectionStart ← blockStart row v.checks check v.inFeatures
  let _ ← addOf 64 projectionStart v.inFeatures
  let left ← dotSignedField output (slice v.challenges challengeStart v.outFeatures)
  let right ← dotSignedField input (slice v.projections projectionStart v.inFeatures)
  pure (left=right)

/-- All checks of a row whose outputs are within their bound. -/
def verifyRow (v : Verifier) (row : ℕ) (input output : List ℤ) : Result Bool :=
  if output.any (v.signedOutputBound.toNat < ·.natAbs) then refuse .range
  else do
    let checks ← (List.range v.checks).mapM (v.checkRow row input output)
    pure (checks.all id)

def verifyClaimed (v : Verifier) (granted : Bool) (input output : List ℤ) :
    Result VerifiedBatch := do
  let expectedInput ← checkedMul v.batchRows v.inFeatures
  let expectedOutput ← checkedMul v.batchRows v.outFeatures
  if input.length≠expectedInput ∨ output.length≠expectedOutput then refuse .dimension
  else do
    let reached ← mulOf 128 (inputMax input) v.maxRowL1
    if inputMax input>v.signedInputBound.toNat ∨ reached>v.signedOutputBound.toNat then
      refuse .range
    else if !granted then refuse .allocation
    else do
      let integrity ← (List.range v.batchRows).mapM fun i =>
        v.verifyRow i (row v.inFeatures input i) (row v.outFeatures output i)
      if !integrity.all id then refuse .integrity
      else pure ⟨v.batchRows,v.outFeatures,output⟩

/-- A verifier is consumed before it looks at anything, and erased in the end. -/
def verify (v : Verifier) (granted : Bool) (input output : List ℤ) :
    Result VerifiedBatch × Verifier :=
  if v.consumed then (refuse .consumed,v)
  else (v.verifyClaimed granted input output,
    { v with
      consumed := true
      challenges := List.replicate v.challenges.length 0
      projections := List.replicate v.projections.length 0 })

end Verifier

end Pllm.Freivalds
