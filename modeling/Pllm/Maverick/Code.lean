import Mathlib.Data.List.Nodup

/-! The field words, sparse vectors and codes of the batch capsule. -/
namespace Pllm.Maverick

def field : ℕ := 2013265921
def dimension : ℕ := 64
abbrev batchSize : ℕ := 2
def repeats : ℕ := 8
def codeLength : ℕ := repeats*dimension
def secondaryDimension : ℕ := batchSize*dimension
def secondaryLength : ℕ := repeats*secondaryDimension
def privacyWeight : ℕ := 165
def checkWeight : ℕ := 31
abbrev repetitions : ℕ := 2
def maxAttempts : ℕ := 16

inductive Error
  | shape
  | field
  | code
  | publication
  | binding
  | replay
  | busy
  | attempts
  | randomness
  | allocation
  | rejected

/-- A buffer of 32-bit words. -/
abbrev Words := List ℕ

/-- The element at a place of a buffer. -/
def Words.at (v : Words) (i : ℕ) : ℕ := v.getD i 0

/-- The part of a buffer from `start` with `count` words. -/
def Words.slice (v : Words) (start count : ℕ) : Words := (v.drop start).take count

def canonical (x : Words) (length : ℕ) : Except Error Unit :=
  if x.length≠length then .error .shape
  else if x.any (field ≤ ·) then .error .field
  else .ok ()

def add (a b : ℕ) : ℕ := (a+b) % field
def sub (a b : ℕ) : ℕ := (a+field-b) % field
def mul (a b : ℕ) : ℕ := a*b % field

def dot (a b : Words) : ℕ := (a.zip b).foldl (fun acc p => add acc (mul p.1 p.2)) 0

/-- Explicit public description of a code. -/
structure CodeDescription where
  field : ℕ
  dimension : ℕ
  firstPermutation : Words
  secondPermutation : Words
  firstScale : Words
  secondScale : Words
  deriving DecidableEq

def checkPermutation (length : ℕ) (permutation : Words) : Except Error Unit :=
  if permutation.length≠length then .error .code
  else if permutation.all (· < length) ∧ permutation.Nodup then .ok ()
  else .error .code

def checkScale (length : ℕ) (scale : Words) : Except Error Unit := do
  canonical scale length
  if 0∈scale then .error .code else .ok ()

def CodeDescription.validate (c : CodeDescription) (dimension : ℕ) : Except Error Unit :=
  if c.field≠Maverick.field then .error .field
  else if c.dimension≠dimension ∨ ¬(1≤dimension ∧ dimension ≤ secondaryDimension) then
    .error .code
  else do
    let length := dimension*repeats
    checkPermutation length c.firstPermutation
    checkPermutation length c.secondPermutation
    checkScale length c.firstScale
    checkScale length c.secondScale

/-- A code is a description that passed its validation. -/
structure Code (dimension : ℕ) where
  description : CodeDescription
  valid : description.validate dimension = .ok ()

/-- Position and value pairs of a buffer. -/
def pairsOf : Words → List (ℕ × ℕ)
  | position::value::rest => (position,value)::pairsOf rest
  | _ => []

def checkPairs (length weight : ℕ) (pairs : Words) : Except Error Unit :=
  if length>secondaryLength ∨ weight=0 ∨ weight>length ∨ pairs.length≠2*weight then
    .error .shape
  else if (pairsOf pairs).all (fun p => p.1 < length && p.2 ≠ 0 && p.2 < field)
      ∧ ((pairsOf pairs).map Prod.fst).Nodup then .ok ()
  else .error .field

/-- A vector of the given length with `weight` nonzero places. -/
structure Sparse (length weight : ℕ) where
  pairs : Words
  valid : checkPairs length weight pairs = .ok ()

namespace Sparse

variable {length weight : ℕ}

def fromPairs (length weight : ℕ) (pairs : Words) : Except Error (Sparse length weight) :=
  match h : checkPairs length weight pairs with
  | .error e => .error e
  | .ok () => .ok ⟨pairs,h⟩

def entries (e : Sparse length weight) : List (ℕ × ℕ) := pairsOf e.pairs

/-- The dense buffer of the entries. -/
def spread (e : Sparse length weight) : Words :=
  e.entries.foldl (fun (dense : Words) p => dense.set p.1 p.2) (List.replicate length 0)

def dot (e : Sparse length weight) (vector : Words) : ℕ :=
  e.entries.foldl (fun sum p => add sum (mul p.2 (vector.at p.1))) 0

end Sparse

namespace Code

variable {dimension : ℕ}

/-- Running sums of a buffer, from a start value. -/
def running : ℕ → Words → Words
  | _,[] => []
  | sum,x::xs => add sum x::running (add sum x) xs

def encode (c : Code dimension) (input : Words) : Except Error Words := do
  canonical input dimension
  let d := c.description
  let first := running 0
    ((d.firstPermutation.zip d.firstScale).map fun p => mul (input.at (p.1/repeats)) p.2)
  pure (running 0
    ((d.secondPermutation.zip d.secondScale).map fun p => mul (first.at p.1) p.2))

/-- The places of a buffer from the last to the first. -/
def places (n : ℕ) : List ℕ := (List.range n).reverse

/-- Suffix sums of the sparse vector, scaled and moved back through the second permutation. -/
def moved (d : CodeDescription) (length : ℕ) (dense : Words) : Words :=
  ((places length).foldl (fun (s : ℕ × Words) j =>
    (add s.1 (dense.at j),
      s.2.set (d.secondPermutation.at j) (mul (add s.1 (dense.at j)) (d.secondScale.at j))))
    (0,List.replicate length 0)).2

/-- Suffix sums again, scaled and added up over the repetitions of each row. -/
def gathered (d : CodeDescription) (dimension length : ℕ) (first : Words) : Words :=
  ((places length).foldl (fun (s : ℕ × Words) j =>
    let row := d.firstPermutation.at j/repeats
    (add s.1 (first.at j),
      s.2.set row (add (s.2.at row) (mul (add s.1 (first.at j)) (d.firstScale.at j)))))
    (0,List.replicate dimension 0)).2

def syndrome (c : Code dimension) {length weight : ℕ} (sparse : Sparse length weight) :
    Except Error Words :=
  if length≠dimension*repeats then .error .shape
  else .ok (gathered c.description dimension length (moved c.description length sparse.spread))

end Code

/-- The projection of a matrix by a sparse vector. -/
def project {length weight : ℕ} (matrix : Words) (e : Sparse length weight) : Words :=
  e.entries.foldl (fun (result : Words) p =>
    (List.range dimension).map fun j =>
      add (result.at j) (mul p.2 (matrix.at (p.1*dimension+j))))
    (List.replicate dimension 0)

structure SetupInputs where
  matrices : Fin batchSize → Words
  privacyCodes : Fin batchSize → CodeDescription
  primaryCode : CodeDescription
  secondaryCode : CodeDescription

structure PublicationParts where
  p : Fin batchSize → Words
  q : Fin batchSize → Words
  qAuxiliary : Words

def SetupInputs.validate (s : SetupInputs) : Except Error Unit := do
  canonical (s.matrices 0) (dimension*dimension)
  canonical (s.matrices 1) (dimension*dimension)
  (s.privacyCodes 0).validate dimension
  (s.privacyCodes 1).validate dimension
  s.primaryCode.validate dimension
  s.secondaryCode.validate secondaryDimension

def PublicationParts.validateShape (p : PublicationParts) : Except Error Unit := do
  canonical (p.p 0) (dimension*codeLength)
  canonical (p.p 1) (dimension*codeLength)
  canonical (p.q 0) (codeLength*dimension)
  canonical (p.q 1) (codeLength*dimension)
  canonical p.qAuxiliary (codeLength*secondaryLength)

/-- An imported publication: its source and its parts have their shapes. -/
structure Material where
  source : SetupInputs
  sourceValid : source.validate = .ok ()
  parts : PublicationParts
  partsShape : parts.validateShape = .ok ()
  binding : Words

/-- Row, column and stacked row of the published matrices. -/
def matrixRow (matrix : Words) (row : ℕ) : Words := matrix.slice (row*dimension) dimension

def matrixColumn (matrix : Words) (col : ℕ) : Words :=
  (List.range dimension).map fun row => matrix.at (row*dimension+col)

def stackedRow (q : Fin batchSize → Words) (row : ℕ) : Words :=
  matrixRow (q 0) row++matrixRow (q 1) row

lemma SetupInputs.spec {s : SetupInputs} (h : s.validate = .ok ()) : (∀ b,canonical (s.matrices b)
    (dimension*dimension) = .ok ()) ∧ (∀ b,(s.privacyCodes b).validate dimension = .ok ()) ∧
    s.primaryCode.validate dimension = .ok () ∧ s.secondaryCode.validate secondaryDimension = .ok ()
    := by
  have split {x : Except Error Unit} {f : Unit → Except Error Unit} (h : (x >>= f) = .ok ()) :
      x = .ok () ∧ f () = .ok () := by
    cases x with
    | error e => cases h
    | ok u => exact ⟨rfl,h⟩
  obtain ⟨m0,h⟩ := split h
  obtain ⟨m1,h⟩ := split h
  obtain ⟨x0,h⟩ := split h
  obtain ⟨x1,h⟩ := split h
  obtain ⟨y,h⟩ := split h
  exact ⟨Fin.forall_fin_two.mpr ⟨m0,m1⟩,Fin.forall_fin_two.mpr ⟨x0,x1⟩,y,h⟩

namespace Material

variable (m : Material)

def gx (b : Fin batchSize) : Code dimension :=
  ⟨m.source.privacyCodes b,(SetupInputs.spec m.sourceValid).2.1 b⟩

def gy : Code dimension := ⟨m.source.primaryCode,(SetupInputs.spec m.sourceValid).2.2.1⟩

def gp : Code secondaryDimension :=
  ⟨m.source.secondaryCode,(SetupInputs.spec m.sourceValid).2.2.2⟩

/-- Every row of `p` is recomputed. -/
def checkRow (b : Fin batchSize) (row : ℕ) : Except Error Unit := do
  let encoded ← (m.gx b).encode (matrixRow (m.source.matrices b) row)
  if encoded ≠ (m.parts.p b).slice (row*codeLength) codeLength then .error .publication
  else .ok ()

def checkColumn (b : Fin batchSize) (col : ℕ) : Except Error Unit := do
  let encoded ← m.gy.encode (matrixColumn (m.source.matrices b) col)
  if ∃ row < codeLength,encoded.at row ≠ (m.parts.q b).at (row*dimension+col) then
    .error .publication
  else .ok ()

def checkStacked (row : ℕ) : Except Error Unit := do
  let encoded ← m.gp.encode (stackedRow m.parts.q row)
  if encoded ≠ m.parts.qAuxiliary.slice (row*secondaryLength) secondaryLength then
    .error .publication
  else .ok ()

/-- Every entry is recomputed, no spot check. -/
def check : Except Error Unit := do
  (List.range dimension).forM (m.checkRow 0)
  (List.range dimension).forM (m.checkColumn 0)
  (List.range dimension).forM (m.checkRow 1)
  (List.range dimension).forM (m.checkColumn 1)
  (List.range codeLength).forM m.checkStacked

end Material

structure ValidatedPublication where
  material : Material
  checked : material.check = .ok ()

end Pllm.Maverick
