import Pllm.Common.Slices
import Pllm.Freivalds.Field

/-! Policies, challenges and the projections that are prepared from them. -/
namespace Pllm.Freivalds

abbrev Bytes := List Byte

def maxChecks : ℕ := 8
def maxBindingBytes : ℕ := 4096
def maxSoundnessBits : ℕ := 128
def conservativeBitsPerCheck : ℕ := 31

structure ResourcePolicy where
  maxMatrixElements : ℕ
  maxProjectionElements : ℕ
  maxChallengeElements : ℕ
  maxOutputElements : ℕ
  maxMultiplyAccumulates : ℕ
  maxBatchRows : ℕ

/-- Policies come from `sizedForAttempts` only, which bounds the checks. -/
structure Policy where
  checks : ℕ
  targetFailureBits : ℕ
  maxAttempts : ℕ
  sized : 0 < checks ∧ checks ≤ maxChecks
  deriving DecidableEq

def Policy.sizedForAttempts (targetFailureBits maxAttempts : ℕ) : Result Policy :=
  if targetFailureBits=0 ∨ maxAttempts=0 then refuse .policy
  else
    let requiredBits := targetFailureBits+(maxAttempts-1).size
    if ¬requiredBits < 2^32 ∨ requiredBits>maxSoundnessBits then refuse .policy
    else
      let checks := (requiredBits+conservativeBitsPerCheck-1)/conservativeBitsPerCheck
      if h : 0 < checks ∧ checks ≤ maxChecks then
        .ok ⟨checks,targetFailureBits,maxAttempts,h⟩
      else refuse .policy

/-- Everything that a challenge is derived for. -/
structure Terms where
  sessionId : Bytes
  materialId : Bytes
  policy : Policy
  signedInputBound : ℤ
  signedOutputBound : ℤ
  maxRowL1 : ℕ
  inFeatures : ℕ
  outFeatures : ℕ

/-- The hash and the cipher: the digest of a binding, the digest of the terms under it, the words
of a block of the stream of a check of a row, and the tag of encoded projections. -/
structure Primitives where
  bindingDigest : Bytes → Bytes
  contextDigest : Bytes → Terms → Bytes
  block : Bytes → Bytes → ℕ → ℕ → ℕ → List ℕ
  tag : Bytes → Bytes → Bytes → Bytes

variable (prim : Primitives)

def bindingDigest (binding : Bytes) : Result Bytes :=
  if binding=[] ∨ binding.length>maxBindingBytes then refuse .binding
  else .ok (prim.bindingDigest binding)

/-- Canonical words of the stream, until the target is full or the blocks are spent. -/
def fill (block : ℕ → List ℕ) (length : ℕ) : ℕ → ℕ → List ℕ → Result (List ℕ)
  | 0,_,_ => refuse .random
  | blocks+1,counter,filled =>
    if ¬counter < 2^32 then refuse .dimension
    else
      let filled := (filled++(block counter).filter (· < modulus)).take length
      if filled.length=length then .ok filled else fill block length blocks (counter+1) filled

/-- The challenge of one check of one row. -/
def deriveChallenge (rootSeed context : Bytes) (row check outFeatures : ℕ) : Result (List ℕ) :=
  fill (prim.block rootSeed context row check) outFeatures ((outFeatures+7)/8+64) 0 []

/-- The challenges of the checks of some rows, one after the other. -/
def deriveChallenges (rootSeed binding : Bytes) (terms : Terms) (rowStart rows : ℕ) :
    Result (List ℕ) := do
  let count ← checkedMul rows terms.policy.checks
  let _ ← checkedMul count terms.outFeatures
  let digest ← bindingDigest prim binding
  let context := prim.contextDigest digest terms
  let challenges ← (List.range rows).mapM fun row =>
    (List.range terms.policy.checks).mapM fun check => do
      let absoluteRow ← checkedAdd rowStart row
      deriveChallenge prim rootSeed context absoluteRow check terms.outFeatures
  pure (challenges.flatMap List.flatten)

structure ProjectionBatch where
  inventoryRows : ℕ
  terms : Terms
  bindingDigest : Bytes
  claimable : Bool
  values : List ℕ
  consumed : List Bool

/-- The greatest sum of magnitudes of a row, with an addition that is checked or not. -/
def maxRowL1 (add : ℕ → ℕ → Result ℕ) (weights : List ℤ) (inFeatures : ℕ) : Result ℕ :=
  (chunksExact inFeatures weights).foldlM (fun maximum row => do
    let l1 ← row.foldlM (fun sum weight => add sum weight.natAbs) 0
    pure (max maximum l1)) 0

def boundOutside (signedOutputBound : ℤ) : Prop :=
  signedOutputBound≤0 ∨ signedOutputBound≥modulus/2

instance (bound : ℤ) : Decidable (boundOutside bound) := inferInstanceAs (Decidable (_ ∨ _))

def validateDeclaredBound (signedInputBound signedOutputBound : ℤ) (maxRowL1 : ℕ) : Result Unit :=
  if signedInputBound≤0 ∨ boundOutside signedOutputBound then refuse .range
  else do
    let product ← mulOf 128 signedInputBound.toNat maxRowL1
    if product>signedOutputBound.toNat then refuse .range else pure ()

def validatePreparation (weights : List ℤ) (outFeatures inFeatures inventoryRows : ℕ)
    (signedInputBound signedOutputBound : ℤ) (policy : Policy) (resources : ResourcePolicy) :
    Result Unit :=
  if outFeatures=0 ∨ inFeatures=0 ∨ inventoryRows=0 ∨ signedInputBound≤0
      ∨ boundOutside signedOutputBound then refuse .dimension
  else do
    let matrixElements ← checkedMul outFeatures inFeatures
    if weights.length≠matrixElements then refuse .dimension
    else do
      let checks ← checkedMul inventoryRows policy.checks
      let projectionElements ← checkedMul checks inFeatures
      let challengeElements ← checkedMul policy.checks outFeatures
      let outputElements ← checkedMul inventoryRows outFeatures
      let multiplyAccumulates ← checkedMul checks matrixElements
      if matrixElements>resources.maxMatrixElements
          ∨ projectionElements>resources.maxProjectionElements
          ∨ challengeElements>resources.maxChallengeElements
          ∨ outputElements>resources.maxOutputElements
          ∨ multiplyAccumulates>resources.maxMultiplyAccumulates
          ∨ inventoryRows>resources.maxBatchRows then refuse .policy
      else do
        let l1 ← maxRowL1 checkedAdd weights inFeatures
        validateDeclaredBound signedInputBound signedOutputBound l1

/-- A column of the weights against a challenge. -/
def projectColumn (weights : List ℤ) (outFeatures inFeatures column : ℕ) (challenge : List ℕ) :
    Result ℕ := do
  let sum ← (List.range outFeatures).foldlM (fun sum output => do
    let start ← mulOf 64 output inFeatures
    let place ← addOf 64 start column
    accumulate sum (signedToField (weights.getD place 0)) (challenge.getD output 0)) 0
  pure (reduce sum)

def projectRow (weights : List ℤ) (terms : Terms) (row : ℕ) (challenges : List ℕ) :
    Result (List (List ℕ)) :=
  (List.range terms.policy.checks).mapM fun check => do
    let start ← mulOf 64 check terms.outFeatures
    let _ ← blockStart row terms.policy.checks (check+1) terms.inFeatures
    (List.range terms.inFeatures).mapM fun column =>
      projectColumn weights terms.outFeatures terms.inFeatures column
        (slice challenges start terms.outFeatures)

/-- `granted` says whether the allocator grants the buffers of a call. -/
def prepareProjections (granted : Bool) (weights : List ℤ) (outFeatures inFeatures inventoryRows : ℕ)
    (rootSeed binding sessionId materialId : Bytes) (signedInputBound signedOutputBound : ℤ)
    (policy : Policy) (resources : ResourcePolicy) : Result ProjectionBatch := do
  let digest ← bindingDigest prim binding
  validatePreparation weights outFeatures inFeatures inventoryRows signedInputBound
    signedOutputBound policy resources
  let l1 ← maxRowL1 (addOf 64) weights inFeatures
  let terms : Terms := ⟨sessionId,materialId,policy,signedInputBound,signedOutputBound,l1,
    inFeatures,outFeatures⟩
  if !granted then refuse .allocation
  else do
    let rows ← (List.range inventoryRows).mapM fun row => do
      let challenges ← deriveChallenges prim rootSeed binding terms row 1
      projectRow weights terms row challenges
    pure ⟨inventoryRows,terms,digest,false,rows.flatMap List.flatten,List.replicate inventoryRows false⟩

namespace ProjectionBatch

def encode (b : ProjectionBatch) : Result Bytes :=
  if b.consumed.any id then refuse .consumed
  else do
    let _ ← checkedMul b.values.length 4
    pure (b.values.flatMap fun value => leBytes 4 (BitVec.ofNat 32 value))

end ProjectionBatch

end Pllm.Freivalds
