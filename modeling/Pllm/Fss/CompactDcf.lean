import Pllm.Common.Bytes
import Pllm.Lib.Except
import Pllm.Lib.Xor

/-! The bounded distributed comparison with one correction word per input bit: issuing a key pair
and evaluating one key, over each of its three ring words. -/
namespace Pllm.Fss

/-- AES-128: the key, then the block it encrypts. -/
abbrev Aes := Block → Block → Block

/-- A stand-in for AES on fixed inputs. -/
def mixingAes : Aes := fun key block => 5*key+block

inductive Error
  | domain
  | resource
  | randomness
  | consumed
  | context

/-- The operations of a key's output ring, each reduced by the public mask. -/
class Word (W : Type) where
  zero : W
  convert : Block → BitVec 64 → W
  add : W → W → BitVec 64 → W
  sub : W → W → BitVec 64 → W
  scale : W → BitVec 64 → BitVec 64 → W

/-- The eight little-endian bytes of a seed from byte `8*j` on. -/
def seedWord (seed : Block) (j : ℕ) : BitVec 64 := seed.extractLsb' (64*j) 64

/-- The `scalar_word!` instance at one width. -/
@[reducible] def scalarWord (w : ℕ) : Word (BitVec w) where
  zero := 0
  convert seed mask := (seedWord seed 0 &&& mask).setWidth w
  add a b mask := ((a.setWidth 64+b.setWidth 64) &&& mask).setWidth w
  sub a b mask := ((a.setWidth 64-b.setWidth 64) &&& mask).setWidth w
  scale a value mask := ((a.setWidth 64*value) &&& mask).setWidth w

instance : Word (BitVec 32) := scalarWord 32
instance : Word (BitVec 64) := scalarWord 64

instance : Word (BitVec 64 × BitVec 64) where
  zero := (0,0)
  convert seed mask := (seedWord seed 0 &&& mask,seedWord seed 1 &&& mask)
  add a b mask := ((a.1+b.1) &&& mask,(a.2+b.2) &&& mask)
  sub a b mask := ((a.1-b.1) &&& mask,(a.2-b.2) &&& mask)
  scale a value mask := ((a.1*value) &&& mask,(a.2*value) &&& mask)

namespace CompactDcf

structure Correction (W : Type) where
  seed : Block
  value : W
  control : Bool × Bool

structure Key (W : Type) where
  root : Block
  words : List (Correction W)
  finalWord : W

structure Expansion (W : Type) where
  seeds : Block × Block
  values : W × W
  controls : Bool × Bool

/-- The five AES outputs under a seed: two child seeds, two values and the controls. -/
def expand {W : Type} [Word W] (aes : Aes) (seed : Block) (mask : BitVec 64) : Expansion W :=
  let block := fun counter : Byte =>
    aes seed ((Block.ofBytes (ascii "PLLM.DCF.PRG.v1\x00")).setByte 15 counter)
  { seeds := (block 0,block 1)
    values := (Word.convert (block 2) mask,Word.convert (block 3) mask)
    controls := (((block 4).byte 0).getLsbD 0,((block 4).byte 1).getLsbD 0) }

/-- A one-bit integer as a `u64`. -/
def bitWord (b : Bool) : BitVec 64 := if b then 1 else 0

def signed {W : Type} [Word W] (value : W) (negative : Bool) (mask : BitVec 64) : W :=
  Word.scale value (1-2*bitWord negative) mask

def correct (seed word : Block) (control : Bool) : Block := seed ^^^ (word &&& spread control)

/-- What the issuer carries from one level to the next. -/
structure Issuing (W : Type) where
  seeds : Block × Block
  controls : Bool × Bool
  pathValue : W

section
variable {W : Type} [Word W] (aes : Aes) (mask : BitVec 64)

/-- One pass of the issuer's loop, for a threshold bit `keep`. -/
def issueLevel (payload : W) (keep : Bool) (s : Issuing W) : Correction W × Issuing W :=
  let lose := !keep
  let left : Expansion W := expand aes s.seeds.1 mask
  let right : Expansion W := expand aes s.seeds.2 mask
  let word : Correction W :=
    { seed := pick left.seeds lose ^^^ pick right.seeds lose
      value := signed
        (Word.add (Word.sub (Word.sub (pick right.values lose) (pick left.values lose) mask)
          s.pathValue mask) (Word.scale payload (bitWord keep) mask) mask) s.controls.2 mask
      control := (left.controls.1 ^^ right.controls.1 ^^ !keep,
        left.controls.2 ^^ right.controls.2 ^^ keep) }
  (word,
    { seeds := (correct (pick left.seeds keep) word.seed s.controls.1,
        correct (pick right.seeds keep) word.seed s.controls.2)
      controls := (pick left.controls keep ^^ (s.controls.1 && pick word.control keep),
        pick right.controls keep ^^ (s.controls.2 && pick word.control keep))
      pathValue := Word.add (Word.sub (Word.add s.pathValue (pick left.values keep) mask)
        (pick right.values keep) mask) (signed word.value s.controls.2 mask) mask })

/-- The issuer's loop over the threshold bits below `n`, from the top one down. -/
def issueLevels (threshold : BitVec 64) (payload : W) :
    ℕ → Issuing W → List (Correction W) × Issuing W
  | 0, s => ([],s)
  | n+1, s =>
    let level := issueLevel aes mask payload (threshold.getLsbD n) s
    let rest := issueLevels threshold payload n level.2
    (level.1::rest.1,rest.2)

/-- The key pair grown from two drawn roots. -/
def growKeys (bits : ℕ) (threshold : BitVec 64) (payload : W) (roots : Block × Block) :
    Key W × Key W :=
  let issued := issueLevels aes mask threshold payload bits
    { seeds := roots, controls := (false,true), pathValue := Word.zero }
  let s := issued.2
  let finalWord := signed (Word.sub (Word.sub (Word.convert s.seeds.2 mask)
    (Word.convert s.seeds.1 mask) mask) s.pathValue mask) s.controls.2 mask
  (⟨roots.1,issued.1,finalWord⟩,⟨roots.2,issued.1,finalWord⟩)

/-- The evaluator's loop; the direction at each level is the input bit above the remaining ones. -/
def evaluateWords (party : Bool) (input : BitVec 64) (finalWord : W) :
    List (Correction W) → Block → Bool → W → W
  | [], seed, control, sum =>
    Word.add sum (signed (Word.add (Word.convert seed mask)
      (Word.scale finalWord (bitWord control) mask) mask) party mask) mask
  | word::rest, seed, control, sum =>
    let direction := input.getLsbD rest.length
    let children : Expansion W := expand aes seed mask
    let sum := Word.add sum (signed (Word.add (pick children.values direction)
      (Word.scale word.value (bitWord control) mask) mask) party mask) mask
    evaluateWords party input finalWord rest
      (correct (pick children.seeds direction) word.seed control)
      (pick children.controls direction ^^ (control && pick word.control direction)) sum

def evaluate (key : Key W) (party : Bool) (input : BitVec 64) : W :=
  evaluateWords aes mask party input key.finalWord key.words key.root party Word.zero

end

/-- The sizes the resource estimate adds up, in bytes. -/
structure Sizes where
  word : ℕ
  correction : ℕ
  expansion : ℕ
  aes128 : ℕ
  owner : ℕ

structure Resources where
  encodedKeyBytes : ℕ
  keyOwnerBytes : ℕ
  keyCapacityBytes : ℕ
  issuanceScratchBytes : ℕ
  combinedAllocationBytes : ℕ

def resources (sizes : Sizes) (bits : ℕ) (capacities : ℕ × ℕ) : Resources :=
  let scratch := 64+2+8+2*sizes.word+3*sizes.expansion+sizes.correction+sizes.word+80+
    sizes.aes128+2*sizes.owner
  let capacity := (capacities.1*sizes.correction,capacities.2*sizes.correction)
  { encodedKeyBytes := 16+sizes.word+bits*(18+sizes.word)
    keyOwnerBytes := sizes.owner
    keyCapacityBytes := capacity.1
    issuanceScratchBytes := scratch
    combinedAllocationBytes := 2*sizes.owner+capacity.1+capacity.2+scratch }

/-- Both exact reservations and both root draws are taken to succeed, so the check made on the
requested capacities and the one made on the reserved ones agree. -/
def generate {W : Type} [Word W] (aes : Aes) (sizes : Sizes) (bits : ℕ) (threshold : BitVec 64)
    (payload : W) (mask : BitVec 64) (limit : ℕ) (roots : Block × Block) :
    Except Error (Key W × Key W) :=
  if (resources sizes bits (bits,bits)).combinedAllocationBytes>limit then .error .resource
  else .ok (growKeys aes mask bits threshold payload roots)

def Key.bytes (bits : ℕ) : ℕ := 20+22*bits

/-- The scalar `u32` key, which checks its own domain. -/
def Key.issuePayload (aes : Aes) (sizes : Sizes) (bits : ℕ) (threshold payload : BitVec 32)
    (roots : Block × Block) : Except Error (Key (BitVec 32) × Key (BitVec 32)) :=
  if ¬(1≤bits ∧ bits≤32) ∨ threshold.toNat≥2^bits then .error .domain
  else generate aes sizes bits (threshold.setWidth 64) payload (lowMask 32) (2^64-1) roots

def Key.issue (aes : Aes) (sizes : Sizes) (bits : ℕ) (threshold : BitVec 32)
    (roots : Block × Block) : Except Error (Key (BitVec 32) × Key (BitVec 32)) :=
  Key.issuePayload aes sizes bits threshold 1 roots

def Key.eval (aes : Aes) (key : Key (BitVec 32)) (party : Bool) (input : BitVec 32) : BitVec 32 :=
  evaluate aes (lowMask 32) key party (input.setWidth 64)

structure RingComparison where
  key : Key (BitVec 64)
  inputBits : ℕ
  outputBits : ℕ

namespace RingComparison

def validate (inputBits outputBits : ℕ) : Except Error Unit :=
  if ¬(1 ≤ inputBits ∧ inputBits≤50) ∨ ¬(1≤outputBits ∧ outputBits≤50) then .error .domain
  else .ok ()

def resources (sizes : Sizes) (inputBits outputBits : ℕ) : Except Error Resources := do
  validate inputBits outputBits
  return CompactDcf.resources sizes inputBits (inputBits,inputBits)

def issueWith (aes : Aes) (sizes : Sizes) (inputBits outputBits : ℕ)
    (threshold payload : BitVec 64) (allocationLimit : ℕ) (roots : Block × Block) :
    Except Error (RingComparison × RingComparison) := do
  let cost ← resources sizes inputBits outputBits
  if threshold.toNat≥2^inputBits ∨ payload.toNat≥2^outputBits then .error .domain
  else if cost.combinedAllocationBytes>allocationLimit then .error .resource
  else do
    let keys ← generate aes sizes inputBits threshold payload (lowMask outputBits)
      allocationLimit roots
    return (⟨keys.1,inputBits,outputBits⟩,⟨keys.2,inputBits,outputBits⟩)

/-- A uniform threshold with an additive split of it, drawn before the roots. -/
def issueUniformSplit (aes : Aes) (sizes : Sizes) (inputBits outputBits allocationLimit : ℕ)
    (drawn : BitVec 64 × BitVec 64) (roots : Block × Block) :
    Except Error ((RingComparison × RingComparison) × (BitVec 64 × BitVec 64)) := do
  validate inputBits outputBits
  let mask := lowMask inputBits
  let threshold := drawn.1 &&& mask
  let share := drawn.2 &&& mask
  let keys ← generate aes sizes inputBits threshold (1 : BitVec 64) (lowMask outputBits)
    allocationLimit roots
  return ((⟨keys.1,inputBits,outputBits⟩,⟨keys.2,inputBits,outputBits⟩),
    (share,(threshold-share) &&& mask))

def eval (aes : Aes) (self : RingComparison) (party : ℕ) (input : BitVec 64) :
    Except Error (BitVec 64) :=
  if party>1 ∨ input.toNat≥2^self.inputBits then .error .domain
  else .ok (evaluate aes (lowMask self.outputBits) self.key (party==1) input)

end RingComparison

structure VectorComparison where
  key : Key (BitVec 64 × BitVec 64)
  inputBits : ℕ
  outputBits : ℕ

namespace VectorComparison

def resources (sizes : Sizes) (inputBits outputBits : ℕ) : Except Error Resources := do
  RingComparison.validate inputBits outputBits
  return CompactDcf.resources sizes inputBits (inputBits,inputBits)

def issueWith (aes : Aes) (sizes : Sizes) (inputBits outputBits : ℕ) (threshold : BitVec 64)
    (payload : BitVec 64 × BitVec 64) (allocationLimit : ℕ) (roots : Block × Block) :
    Except Error (VectorComparison × VectorComparison) := do
  let cost ← resources sizes inputBits outputBits
  if threshold.toNat≥2^inputBits ∨ payload.1.toNat≥2^outputBits ∨
      payload.2.toNat≥2^outputBits then .error .domain
  else if cost.combinedAllocationBytes>allocationLimit then .error .resource
  else do
    let keys ← generate aes sizes inputBits threshold payload (lowMask outputBits)
      allocationLimit roots
    return (⟨keys.1,inputBits,outputBits⟩,⟨keys.2,inputBits,outputBits⟩)

def eval (aes : Aes) (self : VectorComparison) (party : ℕ) (input : BitVec 64) :
    Except Error (BitVec 64 × BitVec 64) :=
  if party>1 ∨ input.toNat≥2^self.inputBits then .error .domain
  else .ok (evaluate aes (lowMask self.outputBits) self.key (party==1) input)

end VectorComparison

end CompactDcf

end Pllm.Fss
