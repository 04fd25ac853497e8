import Pllm.Lib.Except
import Pllm.Lib.Xor
import Pllm.Garble.Boolean

/-! Correctness of the garbled circuit: each evaluator label encodes the plain value of its wire,
through every instruction the builder emits. -/
namespace Pllm.Garble
open Pllm.Lib List Except BooleanCircuitProgram
open BooleanCircuitBuilder (build new withWireLimit)

@[simp] lemma permuteBit_xor (a b : Block) :
    permuteBit (xorBlock a b) = (permuteBit a ^^ permuteBit b) := by
  simp [permuteBit,xorBlock,Block.byte]

@[simp] lemma permuteBit_new (circuitId : CircuitId) (drawn : Block) :
    permuteBit (BooleanGarbler.new circuitId drawn).delta = true := by
  simp [permuteBit,BooleanGarbler.new,Block.byte,Block.setByte]

namespace BooleanWireEncoding

section
variable (wire : BooleanWireEncoding) (h : permuteBit wire.delta = true) (value : Bool)
include h

lemma decode_encode : wire.decode (wire.encode value) = .ok value := by
  have hne : xorBlock wire.zero wire.delta ≠ wire.zero := by
    intro he
    have hp := congrArg permuteBit he
    simp [h] at hp
  cases value <;> simp [decode,encode,hne]

/-- The active label of a wire differs from its zero label in the permute bit exactly when the
wire carries true. -/
lemma selectionBit_encode : (wire.encode value).selectionBit = (permuteBit wire.zero ^^ value) := by
  cases value <;> simp [encode,BooleanLabel.selectionBit,h]

end

end BooleanWireEncoding

section
variable {left right output input : BooleanWireEncoding}

section
variable (garbler : BooleanGarbler)

lemma evaluateXor_encode (h : garbler.xor left right = .ok output) (a b
    : Bool) : evaluateXor (left.encode a) (right.encode b) = output.encode (a ^^ b) := by
  simp only [BooleanGarbler.xor,BooleanGarbler.requireCompatible,bind_eq_ok,
    ite_error_eq_ok,pure_eq_ok,ok.injEq,not_not] at h
  obtain ⟨-,⟨hl,-⟩,-,⟨hr,-⟩,rfl⟩ := h
  ext1
  cases a <;> cases b <;>
    simp [evaluateXor,BooleanWireEncoding.encode,xorBlock,hl,hr,BitVec.xor_comm,xor_left_comm]

lemma evaluateNot_encode (h : garbler.not input = .ok output) (a :
    Bool) : evaluateNot (input.encode a) = output.encode (!a) := by
  simp only [BooleanGarbler.not,BooleanGarbler.requireCompatible,bind_eq_ok,
    ite_error_eq_ok,pure_eq_ok,ok.injEq,not_not] at h
  obtain ⟨-,⟨hi,-⟩,rfl⟩ := h
  ext1
  cases a <;> simp [evaluateNot,BooleanWireEncoding.encode,xorBlock,hi]

lemma BooleanGarbler.xor_delta (h : garbler.xor left right = .ok
    output) : output.delta=garbler.delta := by
  simp only [BooleanGarbler.xor,bind_eq_ok,pure_eq_ok,ok.injEq] at h
  obtain ⟨-,-,-,-,rfl⟩ := h
  rfl

lemma BooleanGarbler.not_delta (h : garbler.not input = .ok output) :
    output.delta=garbler.delta := by
  simp only [BooleanGarbler.not,bind_eq_ok,pure_eq_ok,ok.injEq] at h
  obtain ⟨-,-,rfl⟩ := h
  rfl

end

/-- The half-gates identity, over both permute bits and both truth values. -/
lemma evaluate_halfGate (hash : FixedKeyHash) (garbler : BooleanGarbler) (gateIndex : ℕ)
    (left right : BooleanWireEncoding) (hd : permuteBit garbler.delta = true)
    (hl : left.delta=garbler.delta) (hr : right.delta=garbler.delta) (a b : Bool) :
    (garbler.halfGate hash gateIndex left right).1.evaluate hash (left.encode a) (right.encode b) =
      (garbler.halfGate hash gateIndex left right).2.encode (a && b) := by
  have sl := left.selectionBit_encode (hl ▸ hd) a
  have sr := right.selectionBit_encode (hr ▸ hd) b
  simp only [HalfGate.evaluate,sl,sr]
  simp only [BooleanGarbler.halfGate,BooleanWireEncoding.encode,hl,hr,xorBlock]
  ext1
  cases permuteBit left.zero <;> cases permuteBit right.zero <;> cases a <;> cases b <;>
    simp [BitVec.xor_comm,xor_left_comm]

end

/-- The plain Boolean value of the wire a call creates. Inputs come before gates, so input `i`
is wire `i`. -/
def BuilderCall.value (env wires : List Bool) : BuilderCall → Bool
  | .input _ => env.getD wires.length false
  | .constant value _ => value
  | .xor left right => wires.getD left.index false ^^ wires.getD right.index false
  | .not operand => !wires.getD operand.index false
  | .and left right => wires.getD left.index false && wires.getD right.index false

/-- Plain evaluation of the gate DAG the calls describe. -/
def plainWires (env : List Bool) : List Bool → List BuilderCall → List Bool
  | wires, [] => wires
  | wires, call::calls => plainWires env (wires++[call.value env wires]) calls

lemma runInstructions_append (hash : FixedKeyHash)
    (xs ys : List BooleanInstruction) (wires : List (Option BooleanLabel)) : runInstructions hash
    (xs++ys) wires = (runInstructions hash xs wires >>= runInstructions hash ys) := by
  induction xs generalizing wires with
  | nil => rfl
  | cons x xs ih =>
    simp only [cons_append,runInstructions]
    cases x.label hash wires with
    | error e => rfl
    | ok label => exact ih _

/-- The evaluator's wires when every wire carries the encoding of its plain value. -/
def activeLabels (encodings : List BooleanWireEncoding) (wires : List Bool) :
    List (Option BooleanLabel) :=
  (List.zipWith BooleanWireEncoding.encode encodings wires).map some

lemma requireLabel_active {encodings : List BooleanWireEncoding} {wires : List Bool} {i : ℕ} {wire
    : BooleanWireEncoding} (hs : encodings.length=wires.length) (hi : encodings[i]? = some wire) :
    requireLabel (activeLabels encodings wires) i = .ok (wire.encode (wires.getD i false)) := by
  obtain ⟨hlt,he⟩ := List.getElem?_eq_some_iff.mp hi
  have hw : i<wires.length := hs ▸ hlt
  simp [requireLabel,activeLabels,getElem?_zipWith,getElem?_eq_getElem hw,hi]

/-- The builder after some calls, seen against the plain wires of one input assignment. -/
structure Garbled (hash : FixedKeyHash) (env : List Bool)
    (bld : BooleanCircuitBuilder) (wires : List Bool) : Prop where
  permute : permuteBit bld.garbler.delta = true
  offset : ∀ wire∈bld.encodings, wire.delta=bld.garbler.delta
  size : bld.encodings.length=wires.length
  inputs : bld.inputCount≤bld.encodings.length
  fresh : bld.instructions = [] → bld.inputCount=bld.encodings.length
  declared : bld.instructions = [] → wires = env.take bld.inputCount ∨
    env.length<bld.inputCount
  labels : bld.inputCount≤env.length →
    BooleanCircuitProgram.runInstructions hash bld.instructions
        (activeLabels (bld.encodings.take bld.inputCount) env) =
      .ok (activeLabels bld.encodings wires)

lemma garbled_new (hash : FixedKeyHash) (env : List Bool) (circuitId : CircuitId)
    (drawn : Block) : Garbled hash env (new circuitId drawn) [] where
  permute := permuteBit_new circuitId drawn
  offset := by simp [BooleanCircuitBuilder.new]
  size := rfl
  inputs := le_rfl
  fresh _ := rfl
  declared _ := .inl rfl
  labels _ := rfl

section
variable {hash : FixedKeyHash} {env : List Bool} {bld : BooleanCircuitBuilder}
  {wires : List Bool}

variable {value : Bool} {after : BooleanCircuitBuilder} {zero : Block}

section
variable (h : Garbled hash env bld wires)
include h

variable {wire : BooleanWire}

lemma Garbled.encoding {found : BooleanWireEncoding} (hw : bld.encoding wire = .ok found) :
    found.delta=bld.garbler.delta ∧ requireLabel (activeLabels bld.encodings wires)
    wire.index = .ok (found.encode (wires.getD wire.index false)) := by
  simp only [BooleanCircuitBuilder.encoding,ite_error_eq_ok] at hw
  obtain ⟨-,hw⟩ := hw
  cases hi : bld.encodings[wire.index]? with
  | none => simp [hi] at hw
  | some e =>
    simp only [hi,ok.injEq] at hw
    subst hw
    exact ⟨h.offset e (mem_of_getElem? hi),requireLabel_active h.size hi⟩

/-- Emitting an instruction keeps the invariant when its label encodes the new plain value. -/
lemma Garbled.emit {encoding : BooleanWireEncoding} {instruction : BooleanInstruction}
    (he : bld.emit encoding instruction = (wire,after)) (hd : encoding.delta=bld.garbler.delta)
    (hv : instruction.label hash (activeLabels bld.encodings wires) = .ok (encoding.encode value)) :
    Garbled hash env after (wires++[value]) := by
  obtain ⟨-,rfl⟩ := Prod.mk.inj he
  refine ⟨h.permute,?_,by simp [h.size],?_,by simp,by simp,?_⟩
  · simp only [mem_append,mem_singleton]
    rintro wire (hw | rfl)
    · exact h.offset wire hw
    · exact hd
  · have hi := h.inputs
    simp only [length_append]
    omega
  · intro ha
    have hr := h.labels ha
    simp only [take_append_of_le_length h.inputs,runInstructions_append,hr,ok_bind,
      runInstructions,hv]
    simp [activeLabels,zipWith_append h.size]

/-- The garbler's gate counter and the builder's AND count are outside the invariant. -/
lemma Garbled.counters (gate ands : ℕ) : Garbled hash env { bld with
      garbler := { bld.garbler with nextGate := gate }
      andGateCount := ands } wires :=
  ⟨h.permute,h.offset,h.size,h.inputs,h.fresh,h.declared,h.labels⟩

end

lemma activeLabels_take (encodings : List BooleanWireEncoding) (wires : List Bool) :
    activeLabels encodings (wires.take encodings.length) = activeLabels encodings wires := by
  induction encodings generalizing wires with
  | nil => simp [activeLabels]
  | cons e encodings ih =>
    cases wires with
    | nil => rfl
    | cons w wires => simpa [activeLabels] using ih wires

section
variable (h : Garbled hash env bld wires)
include h

lemma Garbled.input (ha : bld.input zero = .ok (wire,after)) : Garbled hash
    env after (wires++[env.getD wires.length false]) := by
  simp only [BooleanCircuitBuilder.input,ite_error_eq_ok,bind_eq_ok,pure_eq_ok,not_not] at ha
  obtain ⟨hnil,-,-,-,-,rfl⟩ := ha
  have hc := h.fresh hnil
  have hs := h.size
  have hwir : bld.inputCount<env.length →
      wires++[env.getD wires.length false] = env.take (bld.inputCount+1) := by
    intro hlt
    obtain hw | hw := h.declared hnil
    · have hlen : wires.length=bld.inputCount := by omega
      rw [hlen,take_add_one,hw]
      simp [hlt]
    · omega
  refine ⟨h.permute,?_,by simp [hs],by simp [hc],by simp [hc],?_,?_⟩
  · simp only [mem_append,mem_singleton]
    rintro wire (hw | rfl)
    · exact h.offset wire hw
    · rfl
  · intro _
    by_cases hlt : bld.inputCount<env.length
    · exact .inl (hwir hlt)
    · right
      simp only
      omega
  · intro hle
    -- no gate has been emitted, so the labels are exactly those the client sends
    have hlen : bld.inputCount+1 =
        (bld.encodings++[bld.garbler.wire zero]).length := by simp [hc]
    simp only [hnil,BooleanCircuitProgram.runInstructions]
    rw [hwir hle,hlen,take_length,activeLabels_take]

lemma Garbled.constant (ha : bld.constant value zero = .ok (wire,after)) :
    Garbled hash env after (wires++[value]) := by
  simp only [BooleanCircuitBuilder.constant,bind_eq_ok,pure_eq_ok,ok.injEq] at ha
  obtain ⟨-,-,he⟩ := ha
  exact h.emit he rfl rfl

variable {after : BooleanCircuitBuilder}

lemma Garbled.xor {left right : BooleanWire} (ha : bld.xor left right = .ok (wire,after)) : Garbled
    hash env after (wires++[wires.getD left.index false ^^ wires.getD right.index false]) := by
  simp only [BooleanCircuitBuilder.xor,bind_eq_ok,pure_eq_ok,ok.injEq] at ha
  obtain ⟨l,hl,r,hr,output,ho,-,-,he⟩ := ha
  refine h.emit he (bld.garbler.xor_delta ho) ?_
  simp only [BooleanInstruction.label,(h.encoding hl).2,(h.encoding hr).2,ok_bind,pure_eq_ok]
  rw [evaluateXor_encode bld.garbler ho]

lemma Garbled.not {input : BooleanWire} (ha : bld.not input = .ok (wire,after)) :
    Garbled hash env after (wires++[!wires.getD input.index false]) := by
  simp only [BooleanCircuitBuilder.not,bind_eq_ok,pure_eq_ok,ok.injEq] at ha
  obtain ⟨i,hi,output,ho,-,-,he⟩ := ha
  refine h.emit he (bld.garbler.not_delta ho) ?_
  simp only [BooleanInstruction.label,(h.encoding hi).2,ok_bind,pure_eq_ok]
  rw [evaluateNot_encode bld.garbler ho]

lemma Garbled.and {left right : BooleanWire} (ha : bld.and hash left right = .ok (wire,after)) :
    Garbled hash env after
      (wires++[wires.getD left.index false && wires.getD right.index false]) := by
  simp only [BooleanCircuitBuilder.and,ite_error_eq_ok,bind_eq_ok,pure_eq_ok,
    BooleanGarbler.garbleAnd,ok.injEq] at ha
  obtain ⟨-,l,hl,r,hr,⟨⟨gate,output⟩,garbler⟩,⟨-,-,-,-,-,hg⟩,-,-,he⟩ := ha
  obtain ⟨hgate,rfl⟩ := Prod.mk.inj hg
  obtain ⟨dl,sl⟩ := h.encoding hl
  obtain ⟨dr,sr⟩ := h.encoding hr
  have hhalf := evaluate_halfGate hash bld.garbler bld.garbler.nextGate l r h.permute dl dr
    (wires.getD left.index false) (wires.getD right.index false)
  rw [hgate] at hhalf
  have hout : output.delta=bld.garbler.delta := by
    have hd := congrArg (fun p => p.2.delta) hgate
    exact hd.symm
  have hlabe : (BooleanInstruction.and left.index right.index gate).label hash
      (activeLabels bld.encodings wires) =
      .ok (output.encode (wires.getD left.index false && wires.getD right.index false)) := by
    simp only [BooleanInstruction.label,sl,sr,ok_bind,pure_eq_ok,hhalf]
  have hemit := (h.counters (bld.garbler.nextGate+1) bld.andGateCount).emit rfl hout
    hlabe
  obtain ⟨-,rfl⟩ := Prod.mk.inj he
  exact hemit.counters (bld.garbler.nextGate+1) (bld.andGateCount+1)

lemma Garbled.apply {call : BuilderCall} (ha : call.apply hash bld = .ok
    (wire,after)) : Garbled hash env after (wires++[call.value env wires]) := by
  cases call with
  | input zero => exact h.input ha
  | constant value zero => exact h.constant ha
  | xor left right => exact h.xor ha
  | not operand => exact h.not ha
  | and left right => exact h.and ha

end

lemma Garbled.build {calls : List BuilderCall} {built : BooleanCircuitBuilder}
    (h : Garbled hash env bld wires) (hb : bld.build hash calls = .ok built) :
    Garbled hash env built (plainWires env wires calls) := by
  induction calls generalizing bld wires with
  | nil =>
    simp only [build,ok.injEq] at hb
    exact hb ▸ h
  | cons call calls ih =>
    simp only [build,bind_eq_ok] at hb
    obtain ⟨⟨wire,after⟩,ha,hb⟩ := hb
    exact ih (h.apply ha) hb

lemma Garbled.encodings_delta (h : Garbled hash env bld wires)
    {outputs : List BooleanWire} {found : List BooleanWireEncoding}
    (hf : outputs.mapM bld.encoding = .ok found) :
    (outputs.map BooleanWire.index).mapM (requireLabel (activeLabels bld.encodings wires)) =
      .ok (zipWith BooleanWireEncoding.encode found
        (outputs.map fun wire => wires.getD wire.index false)) ∧
    (found.zip (zipWith BooleanWireEncoding.encode found
        (outputs.map fun wire => wires.getD wire.index false))).mapM
      (fun (encoding,label) => encoding.decode label) =
      .ok (outputs.map fun wire => wires.getD wire.index false) := by
  rw [mapM_eq_ok] at hf
  induction hf with
  | nil => exact ⟨rfl,rfl⟩
  | cons hw hrest ih =>
    obtain ⟨hd,hl⟩ := h.encoding hw
    have hdec := BooleanWireEncoding.decode_encode _ (hd ▸ h.permute)
    simp only [map_cons,mapM_cons,hl,ok_bind,ih.1,zipWith_cons_cons,
      zip_cons_cons,hdec,ih.2,pure_eq_ok,and_self]

end

/-- A builder fresh from either of its two constructors. -/
def BooleanCircuitBuilder.Opened (bld : BooleanCircuitBuilder) : Prop :=
  ∃ circuitId drawn, bld = BooleanCircuitBuilder.new circuitId drawn ∨
    ∃ wireLimit, BooleanCircuitBuilder.withWireLimit circuitId drawn wireLimit = .ok bld

lemma garbled_opened (hash : FixedKeyHash) (env : List Bool) {bld :
    BooleanCircuitBuilder} (h : bld.Opened) : Garbled hash env bld [] := by
  obtain ⟨circuitId,drawn,rfl | ⟨wireLimit,hw⟩⟩ := h
  · exact garbled_new hash env circuitId drawn
  · simp only [withWireLimit,ite_error_eq_ok,ok.injEq] at hw
    obtain ⟨-,rfl⟩ := hw
    have h := garbled_new hash env circuitId drawn
    exact ⟨h.permute,h.offset,h.size,h.inputs,h.fresh,h.declared,h.labels⟩

/-- Garbled evaluation of any circuit the builder accepts is the plain evaluation of its DAG. -/
theorem decode_evaluate_encode (hash : FixedKeyHash) (calls : List BuilderCall)
    (outputs : List BooleanWire) (values : List Bool) {start bld : BooleanCircuitBuilder}
    {client : BooleanCircuitClient} {program : BooleanCircuitProgram} (hs : start.Opened)
    (hb : start.build hash calls = .ok bld) (hf : bld.finish outputs = .ok (client,program))
    (hv : values.length=bld.inputCount) : ∃ inputs decoder results, client.encode values = .ok
    (inputs,decoder) ∧ program.evaluate hash inputs = .ok results ∧ decoder.decode results = .ok
    (outputs.map fun wire => (plainWires values [] calls).getD wire.index false) := by
  have h := (garbled_opened hash values hs).build hb
  simp only [BooleanCircuitBuilder.finish,ite_error_eq_ok,bind_eq_ok,pure_eq_ok,ok.injEq] at hf
  obtain ⟨-,found,hfou,he⟩ := hf
  obtain ⟨rfl,rfl⟩ := Prod.mk.inj he
  have hlen : (bld.encodings.take bld.inputCount).length=bld.inputCount := by
    simp [h.inputs]
  obtain ⟨hlab,hdeco⟩ := h.encodings_delta hfou
  have hcnt := (mapM_eq_ok.mp hfou).length_eq
  have hrun := h.labels hv.ge
  simp only [activeLabels] at hrun hlab
  refine ⟨⟨bld.garbler.circuitId,zipWith BooleanWireEncoding.encode
    (bld.encodings.take bld.inputCount) values⟩,⟨bld.garbler.circuitId,found⟩,
    ⟨bld.garbler.circuitId,zipWith BooleanWireEncoding.encode found
      (outputs.map fun wire => (plainWires values [] calls).getD wire.index false)⟩,?_,?_,?_⟩
  · simp only [BooleanCircuitClient.encode,hlen,hv,ne_eq,not_true_eq_false,if_false]
  · simp only [BooleanCircuitProgram.evaluate,length_zipWith,hlen,hv,min_self,ne_eq,
      not_true_eq_false,if_false,hrun,ok_bind,hlab]
    rfl
  · simp only [BooleanCircuitDecoder.decode,length_zipWith,length_map,hcnt,
      min_self,ne_eq,not_true_eq_false,if_false]
    exact hdeco

/-- A full adder: the calls, the wires its outputs name and its value on one input. -/
def fullAdder (circuitId : CircuitId) : List BuilderCall × List BooleanWire :=
  let wire := fun index => (⟨index,circuitId⟩ : BooleanWire)
  ([.input 17,.input 91,.input 3,.xor (wire 0) (wire 1),.xor (wire 3) (wire 2),
    .and (wire 0) (wire 1),.and (wire 3) (wire 2),.xor (wire 5) (wire 6)],
    [wire 4,wire 7])

/-- An invertible stand-in for the hash. -/
def mixingHash : FixedKeyHash := fun label _ gate half => 3*label+BitVec.ofNat 128 (gate+half)

theorem fullAdder_decodes : ∃ client program, ((BooleanCircuitBuilder.new 5 40).build
    mixingHash (fullAdder 5).1 >>= fun bld => bld.finish (fullAdder 5).2) = .ok (client,program) ∧
    ∃ inputs decoder results, client.encode [true,true,false] = .ok (inputs,decoder) ∧
    program.evaluate mixingHash inputs = .ok results ∧ decoder.decode results = .ok [false,true] :=
  ⟨_,_,rfl,decode_evaluate_encode mixingHash (fullAdder 5).1 (fullAdder 5).2 [true,true,false]
    ⟨5,40,.inl rfl⟩ rfl rfl rfl⟩

end Pllm.Garble
