import Pllm.Common.Bytes

/-! Free-XOR and half-gates garbling of a Boolean circuit: the one-use builder, the client that
encodes the inputs, the evaluator's program and the output decoder. The keyed hash is a parameter. -/
namespace Pllm.Garble

abbrev CircuitId := BitVec 256

/-- Stands for the fixed-key AES hash of a label, a circuit, a gate index and a half. -/
abbrev FixedKeyHash := Block → CircuitId → ℕ → ℕ → Block

def maxReferenceWires : ℕ := 2000000
def maxReferenceAndGates : ℕ := 1000000
def maxReferenceInputs : ℕ := 131072
def maxReferenceOutputs : ℕ := 131072

def xorBlock (left right : Block) : Block := left ^^^ right

/-- The low bit of the last byte of a label. -/
def permuteBit (label : Block) : Bool := (label.byte 15).getLsbD 0

@[ext] structure BooleanLabel where
  bytes : Block

def BooleanLabel.selectionBit (label : BooleanLabel) : Bool := permuteBit label.bytes

structure BooleanWireEncoding where
  zero : Block
  delta : Block
  deriving DecidableEq

namespace BooleanWireEncoding

def encode (wire : BooleanWireEncoding) (value : Bool) : BooleanLabel :=
  ⟨if value then xorBlock wire.zero wire.delta else wire.zero⟩

def decode (wire : BooleanWireEncoding) (label : BooleanLabel) : Except String Bool :=
  if label.bytes=wire.zero then .ok false
  else if label.bytes=xorBlock wire.zero wire.delta then .ok true
  else .error "Boolean label does not belong to this wire"

end BooleanWireEncoding

structure HalfGate where
  circuitId : CircuitId
  gateIndex : ℕ
  generatorTable : Block
  evaluatorTable : Block

def HalfGate.evaluate (hash : FixedKeyHash) (gate : HalfGate) (left right : BooleanLabel) :
    BooleanLabel :=
  let leftHash := hash left.bytes gate.circuitId gate.gateIndex 0
  let rightHash := hash right.bytes gate.circuitId gate.gateIndex 1
  let generator :=
    if left.selectionBit then xorBlock leftHash gate.generatorTable else leftHash
  let evaluator :=
    if right.selectionBit then xorBlock rightHash (xorBlock gate.evaluatorTable left.bytes)
    else rightHash
  ⟨xorBlock generator evaluator⟩

structure BooleanGarbler where
  circuitId : CircuitId
  delta : Block
  nextGate : ℕ

namespace BooleanGarbler

/-- `delta[15] |= 1` on the drawn offset. -/
def new (circuitId : CircuitId) (drawn : Block) : BooleanGarbler :=
  ⟨circuitId,drawn.setByte 15 (drawn.byte 15 ||| 1),0⟩

/-- A fresh wire; `zero` is the drawn label. -/
def wire (garbler : BooleanGarbler) (zero : Block) : BooleanWireEncoding := ⟨zero,garbler.delta⟩

def requireCompatible (garbler : BooleanGarbler) (wire : BooleanWireEncoding) :
    Except String Unit :=
  if wire.delta≠garbler.delta then
    .error "Boolean wire belongs to a different garbling circuit"
  else .ok ()

def xor (garbler : BooleanGarbler) (left right : BooleanWireEncoding) :
    Except String BooleanWireEncoding := do
  garbler.requireCompatible left
  garbler.requireCompatible right
  return ⟨xorBlock left.zero right.zero,garbler.delta⟩

def not (garbler : BooleanGarbler) (input : BooleanWireEncoding) :
    Except String BooleanWireEncoding := do
  garbler.requireCompatible input
  return ⟨xorBlock input.zero garbler.delta,garbler.delta⟩

/-- The two ciphertexts of an AND gate and the encoding of its output. -/
def halfGate (hash : FixedKeyHash) (garbler : BooleanGarbler) (gateIndex : ℕ)
    (left right : BooleanWireEncoding) : HalfGate × BooleanWireEncoding :=
  let leftOne := xorBlock left.zero garbler.delta
  let rightOne := xorBlock right.zero garbler.delta
  let leftPermute := permuteBit left.zero
  let rightPermute := permuteBit right.zero
  let leftZeroHash := hash left.zero garbler.circuitId gateIndex 0
  let leftOneHash := hash leftOne garbler.circuitId gateIndex 0
  let rightZeroHash := hash right.zero garbler.circuitId gateIndex 1
  let rightOneHash := hash rightOne garbler.circuitId gateIndex 1
  let generatorTable :=
    let table := xorBlock leftZeroHash leftOneHash
    if rightPermute then xorBlock table garbler.delta else table
  let generatorZero :=
    if leftPermute then xorBlock leftZeroHash generatorTable else leftZeroHash
  let evaluatorTable := xorBlock (xorBlock rightZeroHash rightOneHash) left.zero
  let evaluatorZero :=
    if rightPermute then xorBlock rightZeroHash (xorBlock evaluatorTable left.zero)
    else rightZeroHash
  (⟨garbler.circuitId,gateIndex,generatorTable,evaluatorTable⟩,
    ⟨xorBlock generatorZero evaluatorZero,garbler.delta⟩)

/-- The gate counter is a `u64` and never wraps. -/
def garbleAnd (hash : FixedKeyHash) (garbler : BooleanGarbler)
    (left right : BooleanWireEncoding) :
    Except String ((HalfGate × BooleanWireEncoding) × BooleanGarbler) := do
  garbler.requireCompatible left
  garbler.requireCompatible right
  let gateIndex := garbler.nextGate
  if 2^64≤gateIndex+1 then .error "Boolean half-gate index is exhausted"
  else return (halfGate hash garbler gateIndex left right,
    { garbler with nextGate := gateIndex+1 })

end BooleanGarbler

def evaluateXor (left right : BooleanLabel) : BooleanLabel := ⟨xorBlock left.bytes right.bytes⟩

def evaluateNot (input : BooleanLabel) : BooleanLabel := input

structure BooleanWire where
  index : ℕ
  circuitId : CircuitId

inductive BooleanInstruction
  | constant (label : BooleanLabel)
  | xor (left right : ℕ)
  | not (input : ℕ)
  | and (left right : ℕ) (gate : HalfGate)

structure BooleanCircuitClient where
  circuitId : CircuitId
  inputEncodings : List BooleanWireEncoding
  outputEncodings : List BooleanWireEncoding

structure BooleanCircuitInputs where
  circuitId : CircuitId
  labels : List BooleanLabel

structure BooleanCircuitOutputs where
  circuitId : CircuitId
  labels : List BooleanLabel

structure BooleanCircuitDecoder where
  circuitId : CircuitId
  outputEncodings : List BooleanWireEncoding
  deriving DecidableEq

structure BooleanCircuitProgram where
  circuitId : CircuitId
  inputCount : ℕ
  wireCount : ℕ
  outputWires : List ℕ
  instructions : List BooleanInstruction

structure BooleanCircuitBuilder where
  garbler : BooleanGarbler
  encodings : List BooleanWireEncoding
  instructions : List BooleanInstruction
  inputCount : ℕ
  andGateCount : ℕ
  wireLimit : ℕ

namespace BooleanCircuitBuilder

def new (circuitId : CircuitId) (drawn : Block) : BooleanCircuitBuilder :=
  ⟨BooleanGarbler.new circuitId drawn,[],[],0,0,maxReferenceWires⟩

def withWireLimit (circuitId : CircuitId) (drawn : Block) (wireLimit : ℕ) :
    Except String BooleanCircuitBuilder :=
  if wireLimit=0 ∨ wireLimit>maxReferenceWires then
    .error "Boolean circuit wire admission exceeds the reference limit"
  else .ok { new circuitId drawn with wireLimit := wireLimit }

def encoding (builder : BooleanCircuitBuilder) (wire : BooleanWire) :
    Except String BooleanWireEncoding :=
  if wire.circuitId≠builder.garbler.circuitId then
    .error "Boolean wire belongs to a different circuit builder"
  else match builder.encodings[wire.index]? with
    | some encoding => .ok encoding
    | none => .error "Boolean circuit wire is out of range"

/-- Allocation itself is taken to succeed. -/
def reserveWire (builder : BooleanCircuitBuilder) : Except String Unit :=
  if builder.encodings.length≥builder.wireLimit then
    .error "Boolean reference circuit wire limit exceeded"
  else .ok ()

def nextWire (builder : BooleanCircuitBuilder) : BooleanWire :=
  ⟨builder.encodings.length,builder.garbler.circuitId⟩

def input (builder : BooleanCircuitBuilder) (zero : Block) :
    Except String (BooleanWire × BooleanCircuitBuilder) :=
  if builder.instructions ≠ [] then
    .error "Boolean circuit inputs must be declared before gates"
  else if builder.inputCount≥maxReferenceInputs then
    .error "Boolean reference circuit input limit exceeded"
  else do
    builder.reserveWire
    return (builder.nextWire, { builder with
      encodings := builder.encodings++[builder.garbler.wire zero]
      inputCount := builder.inputCount+1 })

/-- Appends an instruction together with the encoding of the wire it drives. -/
def emit (builder : BooleanCircuitBuilder) (encoding : BooleanWireEncoding)
    (instruction : BooleanInstruction) : BooleanWire × BooleanCircuitBuilder :=
  (builder.nextWire, { builder with
    encodings := builder.encodings++[encoding]
    instructions := builder.instructions++[instruction] })

def constant (builder : BooleanCircuitBuilder) (value : Bool) (zero : Block) :
    Except String (BooleanWire × BooleanCircuitBuilder) := do
  builder.reserveWire
  let encoding := builder.garbler.wire zero
  return builder.emit encoding (.constant (encoding.encode value))

def xor (builder : BooleanCircuitBuilder) (left right : BooleanWire) :
    Except String (BooleanWire × BooleanCircuitBuilder) := do
  let leftEncoding ← builder.encoding left
  let rightEncoding ← builder.encoding right
  let output ← builder.garbler.xor leftEncoding rightEncoding
  builder.reserveWire
  return builder.emit output (.xor left.index right.index)

def not (builder : BooleanCircuitBuilder) (input : BooleanWire) :
    Except String (BooleanWire × BooleanCircuitBuilder) := do
  let inputEncoding ← builder.encoding input
  let output ← builder.garbler.not inputEncoding
  builder.reserveWire
  return builder.emit output (.not input.index)

def and (hash : FixedKeyHash) (builder : BooleanCircuitBuilder) (left right : BooleanWire) :
    Except String (BooleanWire × BooleanCircuitBuilder) :=
  if builder.andGateCount≥maxReferenceAndGates then
    .error "Boolean reference circuit AND-gate limit exceeded"
  else do
    let leftEncoding ← builder.encoding left
    let rightEncoding ← builder.encoding right
    let ((gate, output), garbler) ← builder.garbler.garbleAnd hash leftEncoding rightEncoding
    let builder := { builder with garbler := garbler }
    builder.reserveWire
    let (wire, builder) := builder.emit output (.and left.index right.index gate)
    return (wire, { builder with andGateCount := builder.andGateCount+1 })

def finish (builder : BooleanCircuitBuilder) (outputs : List BooleanWire) :
    Except String (BooleanCircuitClient × BooleanCircuitProgram) :=
  if outputs=[] ∨ outputs.length>maxReferenceOutputs then
    .error "Boolean circuit output count is outside the reference limit"
  else do
    let outputEncodings ← outputs.mapM builder.encoding
    return (⟨builder.garbler.circuitId,builder.encodings.take builder.inputCount,
        outputEncodings⟩,
      ⟨builder.garbler.circuitId,builder.inputCount,builder.encodings.length,
        outputs.map BooleanWire.index,builder.instructions⟩)

end BooleanCircuitBuilder

def BooleanCircuitClient.encode (client : BooleanCircuitClient) (values : List Bool) :
    Except String (BooleanCircuitInputs × BooleanCircuitDecoder) :=
  if values.length≠client.inputEncodings.length then
    .error ("Boolean circuit requires " ++ toString client.inputEncodings.length ++
      " inputs, received " ++ toString values.length)
  else .ok (⟨client.circuitId,List.zipWith BooleanWireEncoding.encode client.inputEncodings values⟩,
    ⟨client.circuitId,client.outputEncodings⟩)

def BooleanCircuitDecoder.decode (decoder : BooleanCircuitDecoder)
    (outputs : BooleanCircuitOutputs) : Except String (List Bool) :=
  if outputs.circuitId≠decoder.circuitId then
    .error "Boolean circuit output belongs to a different circuit"
  else if outputs.labels.length ≠ decoder.outputEncodings.length then
    .error "Boolean circuit output count is invalid"
  else (decoder.outputEncodings.zip outputs.labels).mapM fun (encoding, label) =>
    encoding.decode label

def requireLabel (wires : List (Option BooleanLabel)) (wire : ℕ) : Except String BooleanLabel :=
  match wires[wire]? with
  | some (some label) => .ok label
  | _ => .error "Boolean circuit program references an unavailable wire"

/-- The label one instruction produces from the wires already present. -/
def BooleanInstruction.label (hash : FixedKeyHash) (wires : List (Option BooleanLabel)) :
    BooleanInstruction → Except String BooleanLabel
  | .constant label => .ok label
  | .xor left right => do
    let leftLabel ← requireLabel wires left
    let rightLabel ← requireLabel wires right
    return evaluateXor leftLabel rightLabel
  | .not input => do
    let label ← requireLabel wires input
    return evaluateNot label
  | .and left right gate => do
    let leftLabel ← requireLabel wires left
    let rightLabel ← requireLabel wires right
    return gate.evaluate hash leftLabel rightLabel

namespace BooleanCircuitProgram

/-- The evaluator's loop: one label is pushed for each instruction. -/
def runInstructions (hash : FixedKeyHash) :
    List BooleanInstruction → List (Option BooleanLabel) →
      Except String (List (Option BooleanLabel))
  | [], wires => .ok wires
  | instruction::rest, wires => do
    let label ← instruction.label hash wires
    runInstructions hash rest (wires++[some label])

def evaluate (hash : FixedKeyHash) (program : BooleanCircuitProgram)
    (inputs : BooleanCircuitInputs) : Except String BooleanCircuitOutputs :=
  if inputs.circuitId≠program.circuitId then
    .error "Boolean circuit input belongs to a different circuit"
  else if inputs.labels.length≠program.inputCount then
    .error "Boolean circuit input count is invalid"
  else do
    let wires ← runInstructions hash program.instructions (inputs.labels.map some)
    let labels ← program.outputWires.mapM (requireLabel wires)
    return ⟨program.circuitId,labels⟩

end BooleanCircuitProgram

/-- One builder call; a call that draws a label carries the drawn block. -/
inductive BuilderCall
  | input (zero : Block)
  | constant (value : Bool) (zero : Block)
  | xor (left right : BooleanWire)
  | not (input : BooleanWire)
  | and (left right : BooleanWire)

def BuilderCall.apply (hash : FixedKeyHash) (builder : BooleanCircuitBuilder) :
    BuilderCall → Except String (BooleanWire × BooleanCircuitBuilder)
  | .input zero => builder.input zero
  | .constant value zero => builder.constant value zero
  | .xor left right => builder.xor left right
  | .not operand => builder.not operand
  | .and left right => builder.and hash left right

/-- A whole sequence of calls, stopped by the first one that fails. -/
def BooleanCircuitBuilder.build (hash : FixedKeyHash) :
    BooleanCircuitBuilder → List BuilderCall → Except String BooleanCircuitBuilder
  | builder, [] => .ok builder
  | builder, call::calls => do
    let (_, builder) ← call.apply hash builder
    builder.build hash calls

end Pllm.Garble
