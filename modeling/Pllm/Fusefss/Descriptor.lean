import Pllm.Lib.Rotation

/-! Scalar descriptors: a partition of the words, affine pieces, and Boolean expressions of the word,
kept as a flat list of nodes. -/
namespace Pllm.Fusefss

def maxInstanceBytes : ℕ := 2^20
def maxSourceIntervals : ℕ := 512
def maxBooleanOutputs : ℕ := 4
def maxExpressionNodes : ℕ := 8192
def maxExpressionDepth : ℕ := 12
def maxQueries : ℕ := 32768
def maxVmOps : ℕ := 65536

inductive Error
  | allocation
  | descriptorBytes
  | instanceBytes
  | encoding
  | type
  | range
  | metadata
  | partition
  | booleanArity
  | expressionBudget
  | workBudget
  | unsupportedProfile
  | unsupportedPhi
  | descriptorIdentity
  | shape

inductive Value
  | int (v : ℤ)
  | bool (v : Bool)
  | string (v : String)
  | array (v : List Value)
  | object (v : List (String × Value))

namespace Value

def toInt : Value → Except Error ℤ
  | .int v => .ok v
  | _ => .error .type

def toUint (self : Value) : Except Error ℕ := do
  let v ← self.toInt
  if v<0 then .error .range else .ok v.toNat

def toStr : Value → Except Error String
  | .string v => .ok v
  | _ => .error .type

def toArray : Value → Except Error (List Value)
  | .array v => .ok v
  | _ => .error .type

end Value

/-- A node of the source expressions; the operands are earlier nodes. -/
inductive Expr
  | const (v : Bool)
  | lt (t : ℕ)
  | lowLt (k t : ℕ)
  | signedLt (t : ℤ)
  | msb (c : ℕ)
  | not (a : ℕ)
  | xor (a b : ℕ)
  | and (a b : ℕ)
  | or (a b : ℕ)

/-- A node goes behind the nodes there are. -/
def pushNode (e : Expr) (nodes : List Expr) : Except Error (ℕ × List Expr) :=
  if nodes.length≥maxExpressionNodes then .error .expressionBudget
  else .ok (nodes.length,nodes++[e])

/-- The index of the expression and the nodes after it. `left` is how many levels of nesting the
depth limit still allows: `maxExpressionDepth+1-depth`. -/
def parseExpr (bits : ℕ) : ℕ → Value → List Expr → Except Error (ℕ × List Expr)
  | 0, _, _ => .error .expressionBudget
  | left+1, v, nodes =>
    if nodes.length≥maxExpressionNodes then .error .expressionBudget
    else do
      let n := 2^bits
      match ← v.toArray with
      | [tag,first] => do
        match ← tag.toStr with
        | "const" => do
          let b ← first.toUint
          if b>1 then .error .type else pushNode (.const (decide (b≠0))) nodes
        | "lt" => do
          let t ← first.toUint
          if t>n then .error .range else pushNode (.lt t) nodes
        | "slt" => do
          let t ← first.toInt
          let h : ℤ := (n/2:ℕ)
          if t < -h ∨ t>h then .error .range else pushNode (.signedLt t) nodes
        | "msb" => do
          let c ← first.toUint
          if c≥n then .error .range else pushNode (.msb c) nodes
        | "not" => do
          let (a,nodes) ← parseExpr bits left first nodes
          pushNode (.not a) nodes
        | _ => .error .type
      | [tag,first,second] => do
        match ← tag.toStr with
        | "low_lt" => do
          let k ← first.toUint
          if k=0 ∨ k>bits then .error .range
          else do
            let t ← second.toUint
            if t>2^k then .error .range else pushNode (.lowLt k t) nodes
        | "xor" => do
          let (a,nodes) ← parseExpr bits left first nodes
          let (b,nodes) ← parseExpr bits left second nodes
          pushNode (.xor a b) nodes
        | "and" => do
          let (a,nodes) ← parseExpr bits left first nodes
          let (b,nodes) ← parseExpr bits left second nodes
          pushNode (.and a b) nodes
        | "or" => do
          let (a,nodes) ← parseExpr bits left first nodes
          let (b,nodes) ← parseExpr bits left second nodes
          pushNode (.or a b) nodes
        | _ => .error .type
      | tag::_ => do
        let _ ← tag.toStr
        .error .type
      | [] => .error .type

structure Piece where
  coefficients : ℕ × ℕ
  roots : List ℕ
  deriving Inhabited

/-- The layout that a descriptor alone fixes. -/
structure Shape where
  sourceIntervals : ℕ
  paddedIntervals : ℕ
  booleanOutputs : ℕ
  queries : ℕ
  vmOps : ℕ
  booleanAnds : ℕ
  booleanXors : ℕ
  referenceBytes : ℕ
  programLengths : List ℕ
  deriving DecidableEq

structure Descriptor where
  bits : ℕ
  boundaries : List ℕ
  pieces : List Piece
  expressions : List Expr
  shape : Shape

/-- The boundaries, strictly increasing and at most `n`. -/
def readBoundaries (n : ℕ) (bounds : List Value) : Except Error (List ℕ) :=
  bounds.foldlM (fun boundaries v => do
    let v ← v.toUint
    if v>n ∨ (boundaries.getLast?.any fun p => p≥v) then .error .partition
    else .ok (boundaries++[v])) []

/-- The expressions of one piece. -/
def readBooleans (bits : ℕ) (booleans : List Value) (nodes : List Expr) :
    Except Error (List ℕ × List Expr) :=
  booleans.foldlM (fun (roots,nodes) e => do
    let (root,nodes) ← parseExpr bits (maxExpressionDepth+1) e nodes
    return (roots++[root],nodes)) ([],nodes)

def readPiece (bits arity : ℕ) (coefficients booleans : List Value) (nodes : List Expr) :
    Except Error (Piece × List Expr) := do
  match coefficients with
  | [constant,linear] => do
    let constant ← constant.toUint
    let linear ← linear.toUint
    if constant≥2^bits ∨ linear≥2^bits then .error .range
    else if booleans.length≠arity then .error .booleanArity
    else do
      let (roots,nodes) ← readBooleans bits booleans nodes
      return (⟨(constant,linear),roots⟩,nodes)
  | _ => .error .type

def readPieces (bits arity : ℕ) (pieces : List (List Value × List Value)) :
    Except Error (List Piece × List Expr) :=
  pieces.foldlM (fun (read,nodes) p => do
    let (piece,nodes) ← readPiece bits arity p.1 p.2 nodes
    return (read++[piece],nodes)) ([],[])

/-! The dealer's compiler: the partition moved by the mask and padded by one interval, and postfix
programs over comparisons of the masked word. -/
open Pllm.Lib

/-- A comparison `(y+shift) mod 2^bits < threshold` of the masked word. -/
structure PredicateQuery where
  bits : ℕ
  shift : ℕ
  threshold : ℕ

inductive Opcode
  | bit
  | query
  | not
  | xor
  | and
  | or
  deriving DecidableEq

structure Instruction where
  opcode : Opcode
  argument : ℕ

/-- A dry emitter only counts; one with capacities also keeps what it emits. -/
structure Emitter where
  bits : ℕ
  mask : ℕ
  keep : Option (ℕ × ℕ)
  queries : List PredicateQuery
  instructions : List Instruction
  queryCount : ℕ
  ops : ℕ
  ands : ℕ
  xors : ℕ
  programLengths : List ℕ

namespace Emitter

def new (bits mask : ℕ) (shape : Option Shape) : Emitter :=
  ⟨bits,mask,shape.map fun s => (s.queries,s.vmOps),[],[],0,0,0,0,[]⟩

def emit (opcode : Opcode) (argument : ℕ) (self : Emitter) : Except Error Emitter :=
  if self.ops+1>maxVmOps then .error .workBudget
  else
    let self := { self with
      ops := self.ops+1
      ands := self.ands+(if opcode = Opcode.and ∨ opcode=Opcode.or then 1 else 0)
      xors := self.xors+(if opcode = Opcode.xor then 1 else if opcode=Opcode.or then 2 else 0) }
    match self.keep with
    | none => .ok self
    | some (_,capacity) =>
      if self.instructions.length=capacity then .error .shape
      else .ok { self with instructions := self.instructions++[Instruction.mk opcode argument] }

def query (bits shift threshold : ℕ) (self : Emitter) : Except Error Emitter :=
  let index := self.queryCount
  if index+1>maxQueries then .error .workBudget
  else
    let self := { self with queryCount := index+1 }
    match self.keep with
    | none => self.emit .query index
    | some (capacity,_) =>
      if self.queries.length=capacity then .error .shape
      else { self with queries := self.queries++[PredicateQuery.mk bits shift threshold] }.emit .query index

/-- The comparison of the unmasked word with a threshold. -/
def lt (bits shift threshold : ℕ) (self : Emitter) : Except Error Emitter :=
  let n := 2^bits
  if threshold=0 ∨ threshold=n then self.emit .bit (if threshold=n then 1 else 0)
  else do
    let r := self.mask%n
    -- both slots stay even where a moved threshold is zero
    let self ← self.query bits shift ((r+threshold)%n)
    let self ← self.query bits shift r
    let self ← self.emit .xor 0
    let self ← self.emit .bit (if r+threshold≥n then 1 else 0)
    self.emit .xor 0

/-- The postfix program of a node. The first argument bounds the nesting. -/
def expression (nodes : List Expr) : ℕ → ℕ → Emitter → Except Error Emitter
  | 0, _, _ => .error .shape
  | fuel+1, index, self =>
    match nodes[index]? with
    | none => .error .shape
    | some (.const v) => self.emit .bit (if v then 1 else 0)
    | some (.lt t) => self.lt self.bits 0 t
    | some (.lowLt k t) => self.lt k 0 t
    | some (.signedLt t) =>
      let half := 2^(self.bits-1)
      self.lt self.bits half (t+(half:ℕ)).toNat
    | some (.msb c) => do
      let self ← self.lt self.bits c (2^(self.bits-1))
      self.emit .not 0
    | some (.not a) => do
      let self ← expression nodes fuel a self
      self.emit .not 0
    | some (.xor a b) => do
      let self ← expression nodes fuel a self
      let self ← expression nodes fuel b self
      self.emit .xor 0
    | some (.and a b) => do
      let self ← expression nodes fuel a self
      let self ← expression nodes fuel b self
      self.emit .and 0
    | some (.or a b) => do
      let self ← expression nodes fuel a self
      let self ← expression nodes fuel b self
      self.emit .or 0

/-- One piece of one output: inside the piece, and its expression. -/
def piece (d : Descriptor) (output i : ℕ) (self : Emitter) : Except Error Emitter := do
  let self ← self.lt self.bits 0 (d.boundaries.getD (i+1) 0)
  let self ← self.lt self.bits 0 (d.boundaries.getD i 0)
  let self ← self.emit .xor 0
  let root := (d.pieces.getD i default).roots.getD output 0
  let self ← expression d.expressions (maxExpressionDepth+1) root self
  let self ← self.emit .and 0
  if i≠0 then self.emit .xor 0 else .ok self

def output (d : Descriptor) (self : Emitter) (output : ℕ) : Except Error Emitter := do
  let start := self.ops
  let self ← (List.range d.pieces.length).foldlM (fun self i => self.piece d output i) self
  return { self with programLengths := self.programLengths++[self.ops-start] }

def normalize (d : Descriptor) (self : Emitter) : Except Error Emitter :=
  (List.range d.shape.booleanOutputs).foldlM (fun self o => self.output d o) self

end Emitter

def divCeil (a b : ℕ) : ℕ := (a+b-1)/b

/-- The layout, from a pass that knows no mask. -/
def admission (d : Descriptor) : Except Error Shape := do
  let dry ← (Emitter.new d.bits 0 none).normalize d
  let source := d.pieces.length
  let padded := min (source+1) (2^d.bits)
  let w := divCeil d.bits 8
  let b := divCeil (d.bits+1) 8
  let size := 56+w+(padded+1)*b+padded*(2+2*w)+dry.queryCount*(1+2*w)+d.shape.booleanOutputs*4
    +dry.ops*5
  if size>maxInstanceBytes then .error .instanceBytes
  else return ⟨source,padded,d.shape.booleanOutputs,dry.queryCount,dry.ops,dry.ands,dry.xors,size,
    dry.programLengths⟩

/-- Admission of the parsed fields of a descriptor. -/
def Descriptor.fromFields (bits arity : ℕ) (bounds : List Value)
    (pieces : List (List Value × List Value)) : Except Error Descriptor := do
  if ¬(1≤bits ∧ bits≤50) then .error .range
  else if arity>maxBooleanOutputs then .error .booleanArity
  else if pieces.length=0 ∨ pieces.length>maxSourceIntervals then .error .partition
  else if bounds.length≠pieces.length+1 then .error .partition
  else do
    let boundaries ← readBoundaries (2^bits) bounds
    if boundaries.head? ≠ some 0 ∨ boundaries.getLast? ≠ some (2^bits) then .error .partition
    else do
      let (pieces,expressions) ← readPieces bits arity pieces
      let d : Descriptor := ⟨bits,boundaries,pieces,expressions,⟨0,0,arity,0,0,0,0,0,[]⟩⟩
      let shape ← admission d
      return { d with shape := shape }

structure DealerPlan where
  shape : Shape
  boundaries : List ℕ
  coefficients : List (ℕ × ℕ)
  queries : List PredicateQuery
  instructions : List Instruction

/-- The postfix program of an output: the programs lie behind one another. -/
def DealerPlan.program (self : DealerPlan) (o : ℕ) : List Instruction :=
  (self.instructions.drop (self.shape.programLengths.take o).sum).take
    (self.shape.programLengths.getD o 0)

/-- The moved start of every piece with its ordinal, in order. -/
def sortedStarts (d : Descriptor) (mask : ℕ) : List (ℕ × ℕ) :=
  ((List.range d.pieces.length).map fun i => ((d.boundaries.getD i 0+mask)%2^d.bits,i)).mergeSort
    fun a b => decide (a.1<b.1 ∨ a.1=b.1 ∧ a.2≤b.2)

/-- The starts of the padded intervals with the ordinals of their pieces: a wrapped interval in front,
or the first eligible one split. -/
def paddedEntries (n source : ℕ) (starts : List (ℕ × ℕ)) : List (ℕ × ℕ) :=
  if (starts.head?.map Prod.fst).getD 0 ≠ 0 then
    (0,(starts.getLast?.map Prod.snd).getD 0)::starts
  else if source<n then Rotation.splitFirst n starts else starts

def compile (d : Descriptor) (mask : ℕ) : Except Error DealerPlan := do
  let n := 2^d.bits
  if mask≥n then .error .range
  else do
    let s := d.shape
    let entries := paddedEntries n s.sourceIntervals (sortedStarts d mask)
    let boundaries := entries.map Prod.fst++[n]
    let ordinals := entries.map Prod.snd
    let coefficients := ordinals.map fun i => (d.pieces.getD i default).coefficients
    let emitter ← (Emitter.new d.bits mask (some s)).normalize d
    if ordinals.length≠s.paddedIntervals ∨ boundaries.length≠s.paddedIntervals+1
        ∨ emitter.queryCount≠s.queries ∨ emitter.ops≠s.vmOps
        ∨ emitter.programLengths≠s.programLengths then .error .shape
    else return ⟨s,boundaries,coefficients,emitter.queries,emitter.instructions⟩

end Pllm.Fusefss
