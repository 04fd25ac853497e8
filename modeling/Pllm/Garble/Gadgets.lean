import Pllm.Garble.BooleanCorrect
import Pllm.Retained.SelectionCircuitCorrect

/-! Circuits written with a builder: what a piece of code emits, what its wires carry and how many
gates of each kind it costs. The arithmetic gadgets of the builder come last. -/
namespace Pllm.Garble
open Pllm.Lib Retained List

inductive Kind
  | input
  | constant
  | not
  | xor
  | and
  deriving DecidableEq

instance : Fintype Kind where
  elems := {.input,.constant,.not,.xor,.and}
  complete k := by cases k <;> decide

abbrev Tally := Kind → ℕ

/-- One gate of a kind. -/
def one (k : Kind) : Tally := Pi.single k 1

def BuilderCall.kind : BuilderCall → Kind
  | .input _ => .input
  | .constant _ _ => .constant
  | .xor _ _ => .xor
  | .not _ => .not
  | .and _ _ => .and

def BooleanInstruction.kind : BooleanInstruction → Kind
  | .constant _ => .constant
  | .xor _ _ => .xor
  | .not _ => .not
  | .and _ _ _ => .and

def tally (calls : List BuilderCall) : Tally := fun k => (calls.map BuilderCall.kind).count k

@[simp] lemma tally_nil : tally []=0 := rfl

lemma tally_append (xs ys : List BuilderCall) : tally (xs++ys) = tally xs+tally ys := by
  funext k
  simp [tally]

lemma tally_singleton (c : BuilderCall) : tally [c] = one c.kind := by
  funext k
  by_cases h : k=c.kind
  · simp [tally,one,h]
  · simp [tally,one,Ne.symm h]

lemma sum_tally (calls : List BuilderCall) : ∑ k, tally calls k = calls.length := by
  induction calls with
  | nil => simp
  | cons c calls ih =>
    have h := tally_append [c] calls
    simp only [singleton_append] at h
    rw [h,tally_singleton]
    simp only [Pi.add_apply,Finset.sum_add_distrib,ih,one,length_cons]
    rw [Finset.sum_pi_single' c.kind 1 Finset.univ,if_pos (Finset.mem_univ _),add_comm]

/-- A circuit being built: the builder and the calls made on it so far. -/
structure Draft where
  builder : BooleanCircuitBuilder
  calls : List BuilderCall

abbrev Drawing := StateT Draft (Except String)

/-- The keyed hash, and the labels that are drawn: one for each wire, used where it has one. -/
structure Issuer where
  hash : FixedKeyHash
  labels : ℕ → Block

namespace Issuer
variable (iss : Issuer)

def call (make : Block → BuilderCall) : Drawing BooleanWire := fun draft => do
  let made := make (iss.labels draft.calls.length)
  let (wire,builder) ← made.apply iss.hash draft.builder
  return (wire,⟨builder,draft.calls++[made]⟩)

def input : Drawing BooleanWire := iss.call .input

def constant (value : Bool) : Drawing BooleanWire := iss.call (.constant value)

def xor (left right : BooleanWire) : Drawing BooleanWire := iss.call fun _ => .xor left right

def not (operand : BooleanWire) : Drawing BooleanWire := iss.call fun _ => .not operand

def and (left right : BooleanWire) : Drawing BooleanWire := iss.call fun _ => .and left right

def inputWord (width : ℕ) : Drawing (List BooleanWire) :=
  if width=0 ∨ width>128 then throw "Boolean input word width must be between 1 and 128"
  else (List.range width).mapM fun _ => iss.input

def addBit (state : List BooleanWire × BooleanWire) (bits : BooleanWire × BooleanWire) :
    Drawing (List BooleanWire × BooleanWire) := do
  let either ← iss.xor bits.1 bits.2
  let sumBit ← iss.xor either state.2
  let both ← iss.and bits.1 bits.2
  let carryEither ← iss.and state.2 either
  let carry ← iss.xor both carryEither
  return (state.1++[sumBit],carry)

def addUnsigned (left right : List BooleanWire) : Drawing (List BooleanWire × BooleanWire) :=
  if left=[] ∨ left.length≠right.length then
    throw "Boolean unsigned addends must have the same nonzero width"
  else do
    let carry ← iss.constant false
    (left.zip right).foldlM iss.addBit ([],carry)

def compareBit (state : BooleanWire × BooleanWire) (bits : BooleanWire × Bool) :
    Drawing (BooleanWire × BooleanWire) :=
  if bits.2 then do
    let notValue ← iss.not bits.1
    let newlyLess ← iss.and state.2 notValue
    let less ← iss.xor state.1 newlyLess
    let equal ← iss.and state.2 bits.1
    return (less,equal)
  else do
    let notValue ← iss.not bits.1
    let equal ← iss.and state.2 notValue
    return (state.1,equal)

/-- The highest bits come first in the scan. -/
def compareUnsignedToConstant (value : List BooleanWire) (constant : ℕ) :
    Drawing (BooleanWire × BooleanWire) :=
  if value=[] ∨ value.length>128 then
    throw "Boolean comparison width must be between 1 and 128"
  else if value.length<128 ∧ constant≥2^value.length then
    throw "Boolean comparison constant does not fit the value width"
  else do
    let less ← iss.constant false
    let equal ← iss.constant true
    (value.zip ((List.range value.length).map constant.testBit)).reverse.foldlM iss.compareBit
      (less,equal)

def subtractBit (state : List BooleanWire × BooleanWire) (bits : BooleanWire × BooleanWire) :
    Drawing (List BooleanWire × BooleanWire) := do
  let either ← iss.xor bits.1 bits.2
  let difference ← iss.xor either state.2
  let notLeft ← iss.not bits.1
  let directBorrow ← iss.and notLeft bits.2
  let same ← iss.not either
  let carriedBorrow ← iss.and state.2 same
  let borrow ← iss.xor directBorrow carriedBorrow
  return (state.1++[difference],borrow)

def subtractUnsigned (left right : List BooleanWire) : Drawing (List BooleanWire × BooleanWire) :=
  if left=[] ∨ left.length≠right.length ∨ left.length>128 then
    throw "Boolean subtraction operands must share a width up to 128"
  else do
    let borrow ← iss.constant false
    (left.zip right).foldlM iss.subtractBit ([],borrow)

end Issuer

namespace BooleanCircuitProgram

def count (program : BooleanCircuitProgram) (k : Kind) : ℕ :=
  (program.instructions.map BooleanInstruction.kind).count k

def andGateCount (program : BooleanCircuitProgram) : ℕ := program.count .and

def constantLabelBytes (program : BooleanCircuitProgram) : ℕ := program.count .constant*16

def metadataBytes : BooleanInstruction → ℕ
  | .constant _ => 1
  | .not _ => 1+8
  | .xor _ _ => 1+2*8
  | .and _ _ _ => 1+3*8

/-- Indices and tags in a hypothetical fixed-width encoding. -/
def publicMetadataBytesEstimate (program : BooleanCircuitProgram) : ℕ :=
  32+4*8+program.outputWires.length*8+(program.instructions.map metadataBytes).sum

end BooleanCircuitProgram

/-- What the builder has recorded of the calls made on it. -/
structure Sound (hash : FixedKeyHash) (start : BooleanCircuitBuilder) (draft : Draft) : Prop where
  opened : start.Opened
  built : start.build hash draft.calls = .ok draft.builder
  circuit : draft.builder.garbler.circuitId = start.garbler.circuitId
  wireLimit : draft.builder.wireLimit=start.wireLimit
  wires : draft.builder.encodings.length = draft.calls.length
  inputs : draft.builder.inputCount = tally draft.calls .input
  ands : draft.builder.andGateCount = tally draft.calls .and
  gates : draft.builder.garbler.nextGate = tally draft.calls .and
  instructions : ∀ k ≠ .input,
    (draft.builder.instructions.map BooleanInstruction.kind).count k = tally draft.calls k
  fresh : (∀ c∈draft.calls,c.kind = .input) → draft.builder.instructions = []

lemma build_append (hash : FixedKeyHash) (builder : BooleanCircuitBuilder)
    (xs ys : List BuilderCall) :
    builder.build hash (xs++ys) = builder.build hash xs >>= fun b => b.build hash ys := by
  induction xs generalizing builder with
  | nil => rfl
  | cons x xs ih =>
    simp only [cons_append,BooleanCircuitBuilder.build]
    cases x.apply hash builder with
    | error e => rfl
    | ok pair => exact ih pair.2

section
variable {hash : FixedKeyHash} {start : BooleanCircuitBuilder} {draft : Draft}

lemma sound_start (opened : start.Opened) : Sound hash start ⟨start,[]⟩ := by
  obtain ⟨circuitId,drawn,rfl | ⟨wireLimit,h⟩⟩ := opened
  · exact ⟨⟨circuitId,drawn,.inl rfl⟩,rfl,rfl,rfl,rfl,rfl,rfl,rfl,fun _ _ => rfl,fun _ => rfl⟩
  · have limited := h
    simp only [BooleanCircuitBuilder.withWireLimit,ite_error_eq_ok,ok_eq_ok] at h
    obtain ⟨-,rfl⟩ := h
    exact ⟨⟨circuitId,drawn,.inr ⟨wireLimit,limited⟩⟩,rfl,rfl,rfl,rfl,rfl,rfl,rfl,
      fun _ _ => rfl,fun _ => rfl⟩

lemma Sound.garbled (h : Sound hash start draft) (env : List Bool) :
    Garbled hash env draft.builder (plainWires env [] draft.calls) :=
  (garbled_opened hash env h.opened).build h.built

variable {w : BooleanWire}

lemma Sound.encoding (h : Sound hash start draft)
    (circuit : w.circuitId=draft.builder.garbler.circuitId) (index : w.index<draft.calls.length) :
    ∃ e,draft.builder.encoding w = .ok e ∧ e.delta=draft.builder.garbler.delta := by
  have inside : w.index<draft.builder.encodings.length := h.wires ▸ index
  refine ⟨draft.builder.encodings[w.index],?_,(h.garbled []).offset _ (getElem_mem inside)⟩
  rw [BooleanCircuitBuilder.encoding,if_neg (not_not.mpr circuit),getElem?_eq_getElem inside]

/-- A call that adds one wire and one instruction keeps the record. -/
lemma Sound.emit (h : Sound hash start draft) {c : BuilderCall} {b :
    BooleanCircuitBuilder} {e : BooleanWireEncoding} {i : BooleanInstruction} (done : c.apply hash
    draft.builder = .ok (w,b)) (kinds : i.kind=c.kind) (gate : c.kind ≠ .input) (circuit :
    b.garbler.circuitId = draft.builder.garbler.circuitId) (limit :
    b.wireLimit=draft.builder.wireLimit) (encodings : b.encodings = draft.builder.encodings++[e])
    (instructions : b.instructions = draft.builder.instructions++[i]) (inputs :
    b.inputCount=draft.builder.inputCount) (ands : b.andGateCount=draft.builder.andGateCount+one
    c.kind .and) (gates : b.garbler.nextGate = draft.builder.garbler.nextGate+one c.kind .and) :
    Sound hash start ⟨b,draft.calls++[c]⟩ := by
  have total (k : Kind) : tally (draft.calls++[c]) k=tally draft.calls k+one c.kind k := by
    rw [tally_append,tally_singleton]
    rfl
  refine ⟨h.opened,?_,circuit.trans h.circuit,limit.trans h.wireLimit,?_,?_,?_,?_,?_,?_⟩
  · rw [build_append,h.built]
    simp [BooleanCircuitBuilder.build,done]
  · rw [encodings,length_append,length_append,h.wires]
    rfl
  · rw [inputs,h.inputs,total,one,Pi.single_eq_of_ne (Ne.symm gate),add_zero]
  · rw [ands,h.ands,total]
  · rw [gates,h.gates,total]
  · intro k hk
    rw [total,← h.instructions k hk,instructions,map_append,count_append,map_singleton,kinds]
    by_cases same : k=c.kind
    · simp [one,same]
    · simp [one,Ne.symm same]
  · intro all
    exact absurd (all c (mem_append_right _ (mem_singleton_self c))) gate

end

lemma plainWires_append (env wires : List Bool) (xs ys : List BuilderCall) :
    plainWires env wires (xs++ys) = plainWires env (plainWires env wires xs) ys := by
  induction xs generalizing wires with
  | nil => rfl
  | cons x xs ih => exact ih _

lemma length_plainWires (env wires : List Bool) (calls : List BuilderCall) :
    (plainWires env wires calls).length = wires.length+calls.length := by
  induction calls generalizing wires with
  | nil => rfl
  | cons c calls ih =>
    rw [plainWires,ih,length_append,length_singleton,length_cons]
    omega

lemma getElem?_plainWires (env : List Bool) {wires : List Bool} {i : ℕ} (h : i<wires.length)
    (calls : List BuilderCall) : (plainWires env wires calls)[i]? = wires[i]? := by
  induction calls generalizing wires with
  | nil => rfl
  | cons c calls ih =>
    have more : i < (wires++[c.value env wires]).length := by
      rw [length_append]
      omega
    rw [plainWires,ih more,getElem?_append_left h]

/-- The circuit may still grow by so many gates. -/
def Room (draft : Draft) (cost : Tally) : Prop :=
  ∑ k, (tally draft.calls+cost) k ≤ draft.builder.wireLimit ∧
    (tally draft.calls+cost) .and ≤ maxReferenceAndGates ∧
    (tally draft.calls+cost) .input ≤ maxReferenceInputs

structure Grown (before after : Draft) (cost : Tally) : Prop where
  circuit : after.builder.garbler.circuitId = before.builder.garbler.circuitId
  calls : ∃ new,after.calls = before.calls++new ∧ tally new = cost

lemma Grown.refl (d : Draft) : Grown d d 0 := ⟨rfl,[],(append_nil _).symm,rfl⟩

lemma Grown.trans {d e f : Draft} {c c' : Tally} (h : Grown d e c) (h' : Grown e f c') :
    Grown d f (c+c') := by
  obtain ⟨new,eq,cost⟩ := h.calls
  obtain ⟨new',eq',cost'⟩ := h'.calls
  refine ⟨h'.circuit.trans h.circuit,new++new',?_,?_⟩
  · rw [eq',eq,append_assoc]
  · rw [tally_append,cost,cost']

lemma Grown.tally {d e : Draft} {c : Tally} (h : Grown d e c) :
    Garble.tally e.calls = Garble.tally d.calls+c := by
  obtain ⟨new,eq,cost⟩ := h.calls
  rw [eq,tally_append,cost]

/-- The wire carries the value when the circuit is evaluated plainly on the assignment. -/
def Draft.Has (env : List Bool) (d : Draft) (w : BooleanWire) (value : Bool) : Prop :=
  w.circuitId=d.builder.garbler.circuitId ∧
    (plainWires env [] d.calls)[w.index]? = some value

def Draft.HasWord (env : List Bool) (d : Draft) (ws : List BooleanWire)
    (values : List Bool) : Prop :=
  List.Forall₂ (d.Has env) ws values

variable {values rest : List Bool} {k : Kind} {bits : Bool × Bool}

section
variable {env : List Bool} {d e : Draft} {w : BooleanWire} {value : Bool} {cost : Tally}

section
variable (h : d.Has env w value)
include h

lemma Draft.Has.index : w.index<d.calls.length := by
  obtain ⟨inside,-⟩ := List.getElem?_eq_some_iff.mp h.2
  rwa [length_plainWires,length_nil,zero_add] at inside

lemma Draft.Has.getD : (plainWires env [] d.calls).getD w.index false = value := by
  rw [getD_eq_getElem?_getD,h.2]
  rfl

lemma Draft.Has.later (grown : Grown d e cost) : e.Has env w value := by
  obtain ⟨new,eq,-⟩ := grown.calls
  refine ⟨h.1.trans grown.circuit.symm,?_⟩
  have inside := h.index
  rw [eq,plainWires_append,
    getElem?_plainWires env (by rwa [length_plainWires,length_nil,zero_add]),h.2]

end

lemma Draft.HasWord.later {ws : List BooleanWire}
    (h : d.HasWord env ws values) (grown : Grown d e cost) : e.HasWord env ws values :=
  Forall₂.imp (fun _ _ has => has.later grown) h

end

/-- With room for its cost the code succeeds, grows the circuit by exactly that cost, and what it
returns is good. -/
def Emits {α : Type} (hash : FixedKeyHash) (start : BooleanCircuitBuilder) (x : Drawing α)
    (d : Draft) (cost : Tally) (good : α → Draft → Prop) : Prop :=
  Sound hash start d → Room d cost →
    ∃ a e,x d = .ok (a,e) ∧ Sound hash start e ∧ Grown d e cost ∧ good a e

section
variable {α β : Type} {hash : FixedKeyHash} {start : BooleanCircuitBuilder} {d : Draft}
  {cost cost' : Tally}

section
variable {good : α → Draft → Prop} {f : α → Drawing β} {δ : Type} {V : α → δ → Draft → Prop}
  {xs : List α} {ys : List δ}

lemma Emits.pure {a : α} (h : good a d) : Emits hash start (Pure.pure a : Drawing α) d 0 good :=
  fun sound _ => ⟨a,d,rfl,sound,Grown.refl d,h⟩

lemma Room.weaken (h : Room d (cost+cost')) : Room d cost := by
  obtain ⟨wires,ands,inputs⟩ := h
  refine ⟨le_trans (Finset.sum_le_sum fun k _ => ?_) wires,le_trans ?_ ands,le_trans ?_ inputs⟩ <;>
    · simp only [Pi.add_apply]
      omega

lemma Room.later {e : Draft} (h : Room d (cost+cost')) (grown : Grown d e cost)
    (limit : e.builder.wireLimit=d.builder.wireLimit) : Room e cost' := by
  unfold Room
  rw [grown.tally,add_assoc,limit]
  exact h

variable {x : Drawing α}

lemma Emits.bind {mid : α → Draft → Prop} {good : β → Draft → Prop} (h : Emits
    hash start x d cost mid) (hf : ∀ a e,Grown d e cost → mid a e → Emits hash start (f a) e cost'
    good) : Emits hash start (x >>= f) d (cost+cost') good := by
  intro sound room
  obtain ⟨a,e,run,soundE,grown,here⟩ := h sound room.weaken
  obtain ⟨b,g,run',soundG,grown',there⟩ := hf a e grown here soundE
    (room.later grown (soundE.wireLimit.trans sound.wireLimit.symm))
  refine ⟨b,g,?_,soundG,grown.trans grown',there⟩
  change x d >>= (fun p => f p.1 p.2)=_
  rw [run]
  exact run'

lemma Emits.mono {good' : α → Draft → Prop} (h : Emits hash start x d cost good)
    (imp : ∀ a e,Grown d e cost → good a e → good' a e) : Emits hash start x d cost good' := by
  intro sound room
  obtain ⟨a,e,run,soundE,grown,here⟩ := h sound room
  exact ⟨a,e,run,soundE,grown,imp a e grown here⟩

lemma Emits.costs (h : Emits hash start x d cost good) (eq : cost=cost') :
    Emits hash start x d cost' good := eq ▸ h

/-- Each round of a loop emits a part, while the value it carries follows a plain loop over the
values of the list. -/
lemma Emits.foldlM {γ : Type} {f : β → α → Drawing β} {g : γ → δ → γ}
    (costs : δ → Tally) (later : ∀ x y e e' c,V x y e → Grown e e' c → V x y e') (P : γ → Prop)
    (R : β → γ → Draft → Prop) (values : Forall₂ (fun x y => V x y d) xs ys) {b : β} {c : γ}
    (hc : P c) (hb : R b c d) (keep : ∀ c,∀ y∈ys,P c → P (g c y)) (step : ∀ b c e x,∀ y∈ys,P c →
    V x y e → R b c e → Emits hash start (f b x) e (costs y) fun b' e' => R b' (g c y) e') :
    Emits hash start (xs.foldlM f b) d (ys.map costs).sum fun b' e => R b' (ys.foldl g c) e := by
  induction ys generalizing xs b c d with
  | nil =>
    cases values
    exact Emits.pure hb
  | cons y ys ih =>
    obtain _ | ⟨here,values⟩ := values
    refine (step b c d _ y mem_cons_self hc here hb).bind fun b' e grown next => ?_
    refine ih (values.imp fun _ _ v => later _ _ _ _ _ v grown) (keep c y mem_cons_self hc)
      next (fun c y' m => keep c y' (mem_cons_of_mem _ m)) ?_
    exact fun b c e x y' m => step b c e x y' (mem_cons_of_mem _ m)

/-- Each element of a list emits a part that follows its value, and what it leaves behind stays as
the circuit grows. -/
lemma Emits.mapM (costs : δ → Tally) (later : ∀ x y e e' c,V x y e → Grown e e' c → V x y e')
    {R : δ → β → Draft → Prop} (remains : ∀ y b e e' c,R y b e → Grown e e' c → R y b e')
    (values : Forall₂ (fun x y => V x y d) xs ys) (step : ∀ e total x,∀ y∈ys,Grown d e total →
    V x y e → Emits hash start (f x) e (costs y) (R y)) : Emits hash start
    (xs.mapM f) d (ys.map costs).sum fun bs e => Forall₂ (fun b y => R y b e) bs ys := by
  induction ys generalizing xs d with
  | nil =>
    cases values
    exact Emits.pure .nil
  | cons y ys ih =>
    obtain _ | ⟨here,values⟩ := values
    rw [mapM_cons,map_cons,sum_cons]
    refine (step d 0 _ y mem_cons_self (Grown.refl d) here).bind fun b e grown first => ?_
    rw [← add_zero (ys.map costs).sum]
    refine (ih (values.imp fun _ _ v => later _ _ _ _ _ v grown) fun e' total x y m grown' =>
      step e' _ x y (mem_cons_of_mem _ m) (grown.trans grown')).bind fun bs g grown' rest => ?_
    exact Emits.pure (.cons (remains _ _ _ _ _ first grown') rest)

end

variable {env : List Bool}

variable (env) in
/-- A call that the builder accepts drives one new wire. -/
lemma emits_call {iss : Issuer} (make : Block → BuilderCall)
    (kind : ∀ label,(make label).kind = k)
    (accepted : Sound iss.hash start d → Room d (one k) → ∃ b,
      (make (iss.labels d.calls.length)).apply iss.hash d.builder =
        .ok (⟨d.calls.length,d.builder.garbler.circuitId⟩,b) ∧
      Sound iss.hash start ⟨b,d.calls++[make (iss.labels d.calls.length)]⟩) :
    Emits iss.hash start (iss.call make) d (one k) fun w e =>
      e.calls = d.calls++[make (iss.labels d.calls.length)] ∧ e.Has env w
        ((make (iss.labels d.calls.length)).value env (plainWires env [] d.calls)) := by
  intro sound room
  obtain ⟨b,run,soundB⟩ := accepted sound room
  refine ⟨⟨d.calls.length,d.builder.garbler.circuitId⟩,_,?_,soundB,
    ⟨soundB.circuit.trans sound.circuit.symm,_,rfl,?_⟩,rfl,?_,?_⟩
  · rw [Issuer.call,run]
    rfl
  · rw [tally_singleton,kind]
  · exact sound.circuit.trans soundB.circuit.symm
  · rw [plainWires_append]
    refine (getElem?_append_right ?_).trans ?_
    · rw [length_plainWires,length_nil,zero_add]
    · rw [length_plainWires,length_nil,zero_add,tsub_self]
      rfl

lemma Room.reserve (sound : Sound hash start d) (room : Room d (one k)) :
    d.builder.reserveWire = .ok () := by
  have total : ∑ k',(tally d.calls+one k) k'=d.calls.length+1 := by
    simp only [Pi.add_apply,Finset.sum_add_distrib,sum_tally,one]
    rw [Finset.sum_pi_single' k 1 Finset.univ,if_pos (Finset.mem_univ _)]
  have wires := room.1
  rw [BooleanCircuitBuilder.reserveWire,if_neg]
  rw [sound.wires]
  omega

lemma Sound.nextWire (sound : Sound hash start d) :
    d.builder.nextWire = ⟨d.calls.length,d.builder.garbler.circuitId⟩ := by
  rw [BooleanCircuitBuilder.nextWire,sound.wires]

variable {iss : Issuer} {l r : BooleanWire} {a b : Bool}

variable (env) in
lemma emits_constant (value : Bool) : Emits iss.hash start
    (iss.constant value) d (one .constant) fun w e => e.Has env w value := by
  refine (emits_call env (.constant value) (fun _ => rfl) fun sound room => ?_).mono
    fun w e _ h => h.2
  have done : (BuilderCall.constant value (iss.labels d.calls.length)).apply iss.hash
      d.builder = .ok (⟨d.calls.length,d.builder.garbler.circuitId⟩,
        (d.builder.emit (d.builder.garbler.wire (iss.labels d.calls.length))
          (.constant ((d.builder.garbler.wire (iss.labels d.calls.length)).encode value))).2) := by
    rw [BuilderCall.apply,BooleanCircuitBuilder.constant,room.reserve sound,← sound.nextWire]
    rfl
  exact ⟨_,done,sound.emit done rfl (by simp [BuilderCall.kind]) rfl rfl rfl rfl rfl rfl rfl⟩

lemma emits_xor (hl : d.Has env l a) (hr : d.Has env r b) :
    Emits iss.hash start (iss.xor l r) d (one .xor) fun w e => e.Has env w (a ^^ b) := by
  refine (emits_call env (fun _ => .xor l r) (fun _ => rfl) fun sound room => ?_).mono
    fun w e _ h => ?_
  · obtain ⟨x,found,offset⟩ := sound.encoding hl.1 hl.index
    obtain ⟨y,found',offset'⟩ := sound.encoding hr.1 hr.index
    have done : (BuilderCall.xor l r).apply iss.hash d.builder =
        .ok (⟨d.calls.length,d.builder.garbler.circuitId⟩,
          (d.builder.emit ⟨xorBlock x.zero y.zero,d.builder.garbler.delta⟩
            (.xor l.index r.index)).2) := by
      simp only [BuilderCall.apply,BooleanCircuitBuilder.xor,found,found',ok_bind,
        BooleanGarbler.xor,BooleanGarbler.requireCompatible,offset,offset',ne_eq,
        not_true_eq_false,if_false,room.reserve sound,pure_eq_ok,← sound.nextWire]
      rfl
    exact ⟨_,done,sound.emit done rfl (by simp [BuilderCall.kind]) rfl rfl rfl rfl rfl rfl rfl⟩
  · simpa only [BuilderCall.value,hl.getD,hr.getD] using h.2

lemma emits_not (hl : d.Has env l a) :
    Emits iss.hash start (iss.not l) d (one .not) fun w e => e.Has env w (!a) := by
  refine (emits_call env (fun _ => .not l) (fun _ => rfl) fun sound room => ?_).mono
    fun w e _ h => ?_
  · obtain ⟨x,found,offset⟩ := sound.encoding hl.1 hl.index
    have done : (BuilderCall.not l).apply iss.hash d.builder =
        .ok (⟨d.calls.length,d.builder.garbler.circuitId⟩,
          (d.builder.emit ⟨xorBlock x.zero d.builder.garbler.delta,d.builder.garbler.delta⟩
            (.not l.index)).2) := by
      simp only [BuilderCall.apply,BooleanCircuitBuilder.not,found,ok_bind,
        BooleanGarbler.not,BooleanGarbler.requireCompatible,offset,ne_eq,
        not_true_eq_false,if_false,room.reserve sound,pure_eq_ok,← sound.nextWire]
      rfl
    exact ⟨_,done,sound.emit done rfl (by simp [BuilderCall.kind]) rfl rfl rfl rfl rfl rfl rfl⟩
  · simpa only [BuilderCall.value,hl.getD] using h.2

lemma emits_and (hl : d.Has env l a) (hr : d.Has env r b) :
    Emits iss.hash start (iss.and l r) d (one .and) fun w e => e.Has env w (a && b) := by
  refine (emits_call env (fun _ => .and l r) (fun _ => rfl) fun sound room => ?_).mono
    fun w e _ h => ?_
  · obtain ⟨x,found,offset⟩ := sound.encoding hl.1 hl.index
    obtain ⟨y,found',offset'⟩ := sound.encoding hr.1 hr.index
    have few : tally d.calls .and+1 ≤ maxReferenceAndGates := room.2.1
    have count : ¬d.builder.andGateCount≥maxReferenceAndGates := by
      rw [sound.ands]
      omega
    have index : ¬2^64 ≤ d.builder.garbler.nextGate+1 := by
      have bound : maxReferenceAndGates<2^64 := by decide
      rw [sound.gates]
      omega
    have done : (BuilderCall.and l r).apply iss.hash d.builder =
        .ok (⟨d.calls.length,d.builder.garbler.circuitId⟩, { d.builder with
            garbler := { d.builder.garbler with nextGate := d.builder.garbler.nextGate+1 }
            encodings := d.builder.encodings ++
              [(d.builder.garbler.halfGate iss.hash d.builder.garbler.nextGate x y).2]
            instructions := d.builder.instructions++[.and l.index r.index
              (d.builder.garbler.halfGate iss.hash d.builder.garbler.nextGate x y).1]
            andGateCount := d.builder.andGateCount+1 }) := by
      have reserve : (({ d.builder with
          garbler := { d.builder.garbler with nextGate := d.builder.garbler.nextGate+1 } }) :
          BooleanCircuitBuilder).reserveWire = .ok () := room.reserve sound
      simp only [BuilderCall.apply,BooleanCircuitBuilder.and,if_neg count,found,found',ok_bind,
        BooleanGarbler.garbleAnd,BooleanGarbler.requireCompatible,offset,offset',ne_eq,
        not_true_eq_false,if_false,if_neg index,reserve,pure_eq_ok,← sound.nextWire]
      rfl
    exact ⟨_,done,sound.emit done rfl (by simp [BuilderCall.kind]) rfl rfl rfl rfl rfl rfl rfl⟩
  · simpa only [BuilderCall.value,hl.getD,hr.getD] using h.2

/-- Only inputs so far; the assignment goes on with these values. -/
def Draft.Reads (env : List Bool) (d : Draft) (rest : List Bool) : Prop :=
  (∀ c∈d.calls,c.kind = .input) ∧ env.drop d.calls.length = rest

lemma emits_input {value : Bool} (reads : d.Reads env (value::rest)) : Emits iss.hash
    start iss.input d (one .input) fun w e => e.Has env w value ∧ e.Reads env rest := by
  have inside : env[d.calls.length]? = some value := by
    rw [← head?_drop,reads.2]
    rfl
  refine (emits_call env .input (fun _ => rfl) fun sound room => ?_).mono
    fun w e _ h => ⟨?_,?_,?_⟩
  · have few : tally d.calls .input+1 ≤ maxReferenceInputs := room.2.2
    have count : ¬d.builder.inputCount≥maxReferenceInputs := by
      rw [sound.inputs]
      omega
    have none := sound.fresh reads.1
    have done : (BuilderCall.input (iss.labels d.calls.length)).apply iss.hash d.builder =
        .ok (⟨d.calls.length,d.builder.garbler.circuitId⟩,{ d.builder with
          encodings := d.builder.encodings++[d.builder.garbler.wire (iss.labels d.calls.length)]
          inputCount := d.builder.inputCount+1 }) := by
      simp only [BuilderCall.apply,BooleanCircuitBuilder.input,none,ne_eq,not_true_eq_false,
        if_false,if_neg count,room.reserve sound,ok_bind,pure_eq_ok,← sound.nextWire]
    have total (k : Kind) : tally (d.calls++[.input (iss.labels d.calls.length)]) k =
        tally d.calls k+one .input k := by
      rw [tally_append,tally_singleton]
      rfl
    refine ⟨_,done,sound.opened,?_,sound.circuit,sound.wireLimit,?_,?_,?_,?_,?_,fun _ => none⟩
    · rw [build_append,sound.built]
      simp [BooleanCircuitBuilder.build,done]
    · simp [sound.wires]
    · exact (congrArg (· + 1) sound.inputs).trans (total .input).symm
    · exact sound.ands.trans (total .and).symm
    · exact sound.gates.trans (total .and).symm
    · intro k hk
      rw [total,one,Pi.single_eq_of_ne hk]
      exact sound.instructions k hk
  · have has := h.2
    rwa [BuilderCall.value,length_plainWires,length_nil,zero_add,
      getD_eq_getElem?_getD,inside] at has
  · rw [h.1]
    intro c m
    rcases mem_append.mp m with m | m
    · exact reads.1 c m
    · rw [mem_singleton.mp m]
      rfl
  · rw [h.1,length_append,← drop_drop,reads.2]
    rfl

/-- The same code is run once for each of the data that the assignment spells in turn. -/
lemma emits_collect {γ ι : Type} {x : Drawing β} (spell : γ → List Bool) (R : γ → β → Draft → Prop)
    (later : ∀ c b e e' k,R c b e → Grown e e' k → R c b e') {rounds : List ι} {data : List γ}
    (same : rounds.length=data.length) (once : ∀ c∈data,∀ e rest,e.Reads env (spell c++rest) →
    Emits hash start x e cost fun b e' => R c b e' ∧ e'.Reads env rest)
    (reads : d.Reads env (data.flatMap spell++rest)) : Emits hash start (rounds.mapM fun _ => x) d
    (rounds.length • cost) fun bs e => Forall₂ (fun b c => R c b e) bs data ∧ e.Reads env rest := by
  induction rounds generalizing data d with
  | nil =>
    obtain rfl := length_eq_zero_iff.mp same.symm
    refine (Emits.pure ⟨.nil,reads⟩).costs ?_
    rw [length_nil,zero_nsmul]
  | cons i rounds ih =>
    obtain ⟨c,data,rfl⟩ := exists_cons_of_length_eq_add_one same.symm
    rw [flatMap_cons,append_assoc] at reads
    rw [mapM_cons,length_cons,succ_nsmul']
    refine (once c mem_cons_self d _ reads).bind fun b e grown here => ?_
    rw [← add_zero (rounds.length • cost)]
    refine (ih (Nat.succ.inj same) (fun c m => once c (mem_cons_of_mem _ m)) here.2).bind
      fun bs e' grown' there => ?_
    exact Emits.pure ⟨.cons (later _ _ _ _ _ here.1 grown') there.1,there.2⟩

lemma emits_inputWord {word rest : List Bool} (pos : 0<word.length) (short : word.length≤128)
    (reads : d.Reads env (word++rest)) : Emits iss.hash start (iss.inputWord word.length) d
    (word.length • one .input) fun ws e => e.HasWord env ws word ∧ e.Reads env rest := by
  rw [Issuer.inputWord,if_neg (by omega)]
  have spelled : word.flatMap (fun b => [b])=word := by
    rw [flatMap_singleton']
  have all : Emits iss.hash start ((range word.length).mapM fun _ => iss.input) d
      ((range word.length).length • one .input) _ :=
    emits_collect (fun b => [b]) (fun b w e => e.Has env w b)
      (fun _ _ _ _ _ has grown => has.later grown) length_range
      (fun b _ e rest reads => emits_input reads) (spelled.symm ▸ reads)
  rw [length_range] at all
  exact all

/-- A pair of wires carries a pair of bits. -/
def Draft.HasPair (env : List Bool) (ws : BooleanWire × BooleanWire) (bits : Bool × Bool)
    (d : Draft) : Prop :=
  d.Has env ws.1 bits.1 ∧ d.Has env ws.2 bits.2

lemma Draft.HasWord.zip {ls rs : List BooleanWire} {as bs : List Bool}
    (hl : d.HasWord env ls as) (hr : d.HasWord env rs bs) :
    Forall₂ (fun ws bits => Draft.HasPair env ws bits d) (ls.zip rs) (as.zip bs) := by
  induction hl generalizing rs bs with
  | nil => exact .nil
  | cons ha hl ih =>
    cases hr with
    | nil => exact .nil
    | cons hb hr => exact .cons ⟨ha,hb⟩ (ih hr)

lemma Draft.HasPair.later {e : Draft} {ws : BooleanWire × BooleanWire} (h : Draft.HasPair env
    ws bits d) (grown : Grown d e cost) : Draft.HasPair env ws bits e :=
  ⟨h.1.later grown,h.2.later grown⟩

/-- The wires of a sum or a difference so far, and the carry. -/
def Draft.HasSum (env : List Bool) (out : List BooleanWire × BooleanWire)
    (bits : List Bool × Bool) (d : Draft) : Prop :=
  d.HasWord env out.1 bits.1 ∧ d.Has env out.2 bits.2

def plainAdd (state : List Bool × Bool) (bits : Bool × Bool) : List Bool × Bool :=
  (state.1++[(bits.1 ^^ bits.2) ^^ state.2], (bits.1 && bits.2) ^^ (state.2 && (bits.1 ^^ bits.2)))

def plainSubtract (state : List Bool × Bool) (bits : Bool × Bool) : List Bool × Bool :=
  (state.1++[(bits.1 ^^ bits.2) ^^ state.2],
    (!bits.1 && bits.2) ^^ (state.2 && !(bits.1 ^^ bits.2)))

def plainCompare (state : Bool × Bool) (bits : Bool × Bool) : Bool × Bool :=
  if bits.2 then (state.1 ^^ (state.2 && !bits.1),state.2 && bits.1)
  else (state.1,state.2 && !bits.1)

def addCost (width : ℕ) : Tally := one .constant+width • (3 • one .xor+2 • one .and)

def subtractCost (width : ℕ) : Tally :=
  one .constant+width • (3 • one .xor+2 • one .and+2 • one .not)

def compareCost (bit : Bool) : Tally :=
  if bit then one .not+2 • one .and+one .xor else one .not+one .and

section
variable {ws ls rs : List BooleanWire} {state : List BooleanWire × BooleanWire}
  {plain : List Bool × Bool} {as bs : List Bool}

lemma Draft.HasWord.snoc {value : Bool} (h : d.HasWord env ws values) (hw :
    d.Has env w value) : d.HasWord env (ws++[w]) (values++[value]) :=
  rel_append h (.cons hw .nil)

lemma emits_addBit {ws : BooleanWire × BooleanWire} (hs : Draft.HasSum env state plain d)
    (hw : Draft.HasPair env ws bits d) : Emits iss.hash start (iss.addBit state ws) d
    (3 • one .xor+2 • one .and) fun out e => Draft.HasSum env out (plainAdd plain bits) e := by
  have total : (3 • one .xor+2 • one .and : Tally) =
      one .xor+(one .xor+(one .and+(one .and+(one .xor+0)))) := by
    funext k
    cases k <;> rfl
  rw [total]
  refine (emits_xor hw.1 hw.2).bind fun either e₁ g₁ h₁ => ?_
  refine (emits_xor h₁ (hs.2.later g₁)).bind fun sumBit e₂ g₂ h₂ => ?_
  refine (emits_and (hw.1.later (g₁.trans g₂)) (hw.2.later (g₁.trans g₂))).bind
    fun both e₃ g₃ h₃ => ?_
  refine (emits_and (hs.2.later ((g₁.trans g₂).trans g₃)) (h₁.later (g₂.trans g₃))).bind
    fun carryEither e₄ g₄ h₄ => ?_
  refine (emits_xor (h₃.later g₄) h₄).bind fun carry e₅ g₅ h₅ => ?_
  have since := ((g₁.trans g₂).trans g₃).trans (g₄.trans g₅)
  exact Emits.pure ⟨(hs.1.later since).snoc (h₂.later (g₃.trans (g₄.trans g₅))),h₅⟩

lemma sum_constant {δ : Type} (ys : List δ) (c : Tally) :
    (ys.map fun _ => c).sum = ys.length • c := by
  rw [map_const',sum_replicate]

lemma emits_addUnsigned (pos : 0<as.length) (same : as.length=bs.length) (hl : d.HasWord env ls as)
    (hr : d.HasWord env rs bs) : Emits iss.hash start (iss.addUnsigned ls rs) d (addCost as.length)
    fun out e => Draft.HasSum env out ((as.zip bs).foldl plainAdd ([],false)) e := by
  have left := Forall₂.length_eq hl
  have right := Forall₂.length_eq hr
  rw [Issuer.addUnsigned,if_neg]
  · refine (emits_constant env false).bind fun carry e grown has => ?_
    have looped : Emits iss.hash start ((ls.zip rs).foldlM iss.addBit ([],carry)) e
        ((as.zip bs).map fun _ => (3 • one .xor+2 • one .and : Tally)).sum _ :=
      Emits.foldlM (fun _ => 3 • one .xor+2 • one .and) (fun _ _ _ _ _ h g => h.later g)
        (fun _ => True) (fun out bits e => Draft.HasSum env out bits e)
        (c := ([],false)) ((hl.later grown).zip (hr.later grown)) trivial ⟨.nil,has⟩
        (fun _ _ _ _ => trivial) fun state plain e ws bits _ _ hw hs => emits_addBit hs hw
    rw [sum_constant,length_zip,same,min_self] at looped
    rwa [same]
  · rw [← length_eq_zero_iff]
    omega

lemma emits_subtractBit {ws : BooleanWire × BooleanWire} (hs : Draft.HasSum env state plain d) (hw :
    Draft.HasPair env ws bits d) : Emits iss.hash start (iss.subtractBit state ws) d (3 • one .xor+2
    • one .and+2 • one .not) fun out e => Draft.HasSum env out (plainSubtract plain bits) e := by
  have total : (3 • one .xor+2 • one .and+2 • one .not : Tally) =
      one .xor+(one .xor+(one .not+(one .and+(one .not+(one .and+(one .xor+0)))))) := by
    funext k
    cases k <;> rfl
  rw [total]
  refine (emits_xor hw.1 hw.2).bind fun either e₁ g₁ h₁ => ?_
  refine (emits_xor h₁ (hs.2.later g₁)).bind fun difference e₂ g₂ h₂ => ?_
  refine (emits_not (hw.1.later (g₁.trans g₂))).bind fun notLeft e₃ g₃ h₃ => ?_
  refine (emits_and h₃ (hw.2.later ((g₁.trans g₂).trans g₃))).bind fun directBorrow e₄ g₄ h₄ => ?_
  refine (emits_not (h₁.later ((g₂.trans g₃).trans g₄))).bind fun same e₅ g₅ h₅ => ?_
  refine (emits_and (hs.2.later ((((g₁.trans g₂).trans g₃).trans g₄).trans g₅)) h₅).bind
    fun carriedBorrow e₆ g₆ h₆ => ?_
  refine (emits_xor (h₄.later (g₅.trans g₆)) h₆).bind fun borrow e₇ g₇ h₇ => ?_
  have rest := ((g₃.trans g₄).trans (g₅.trans g₆)).trans g₇
  exact Emits.pure ⟨(hs.1.later ((g₁.trans g₂).trans rest)).snoc (h₂.later rest),h₇⟩

lemma emits_subtractUnsigned (pos : 0<as.length) (short : as.length≤128) (same :
    as.length=bs.length) (hl : d.HasWord env ls as) (hr : d.HasWord env rs bs) :
    Emits iss.hash start (iss.subtractUnsigned ls rs) d (subtractCost as.length) fun out e =>
      Draft.HasSum env out ((as.zip bs).foldl plainSubtract ([],false)) e := by
  have left := Forall₂.length_eq hl
  have right := Forall₂.length_eq hr
  rw [Issuer.subtractUnsigned,if_neg]
  · refine (emits_constant env false).bind fun borrow e grown has => ?_
    have looped : Emits iss.hash start ((ls.zip rs).foldlM iss.subtractBit ([],borrow)) e
        ((as.zip bs).map fun _ => (3 • one .xor+2 • one .and+2 • one .not : Tally)).sum _ :=
      Emits.foldlM (fun _ => 3 • one .xor+2 • one .and+2 • one .not) (fun _ _ _ _ _ h g => h.later
        g) (fun _ => True) (fun out bits e => Draft.HasSum env out bits e) (c := ([],false))
        ((hl.later grown).zip (hr.later grown)) trivial ⟨.nil,has⟩ (fun _ _ _ _ => trivial) fun
        state plain e ws bits _ _ hw hs => emits_subtractBit hs hw
    rw [sum_constant,length_zip,same,min_self] at looped
    rwa [same]
  · rw [← length_eq_zero_iff]
    omega

lemma emits_compareBit {state : BooleanWire × BooleanWire} {plain : Bool × Bool}
    {ws : BooleanWire × Bool} (hs : Draft.HasPair env state plain d) (hw : d.Has env ws.1 bits.1 ∧
    ws.2=bits.2) : Emits iss.hash start (iss.compareBit state ws) d
    (compareCost bits.2) fun out e => Draft.HasPair env out (plainCompare plain bits) e := by
  rw [Issuer.compareBit,plainCompare,compareCost,hw.2]
  split
  · have total : (one .not+2 • one .and+one .xor : Tally) =
        one .not+(one .and+(one .xor+(one .and+0))) := by
      funext k
      cases k <;> rfl
    rw [total]
    refine (emits_not hw.1).bind fun notValue e₁ g₁ h₁ => ?_
    refine (emits_and (hs.2.later g₁) h₁).bind fun newlyLess e₂ g₂ h₂ => ?_
    refine (emits_xor (hs.1.later (g₁.trans g₂)) h₂).bind fun less e₃ g₃ h₃ => ?_
    have since := (g₁.trans g₂).trans g₃
    refine (emits_and (hs.2.later since) (hw.1.later since)).bind fun equal e₄ g₄ h₄ => ?_
    exact Emits.pure ⟨h₃.later g₄,h₄⟩
  · rw [← add_zero (one .and : Tally)]
    · refine (emits_not hw.1).bind fun notValue e₁ g₁ h₁ => ?_
      refine (emits_and (hs.2.later g₁) h₁).bind fun equal e₂ g₂ h₂ => ?_
      exact Emits.pure ⟨hs.1.later (g₁.trans g₂),h₂⟩

lemma Draft.HasWord.zip_constant {cs : List Bool} (h : d.HasWord env ws as) :
    Forall₂ (fun w bits => d.Has env w.1 bits.1 ∧ w.2=bits.2) (ws.zip cs) (as.zip cs) := by
  induction h generalizing cs with
  | nil => exact .nil
  | cons ha h ih =>
    cases cs with
    | nil => exact .nil
    | cons c cs => exact .cons ⟨ha,rfl⟩ ih

lemma emits_compareUnsignedToConstant {constant : ℕ} (pos : 0<as.length)
    (short : as.length≤128) (fits : constant<2^as.length) (h : d.HasWord env ws as) :
    Emits iss.hash start (iss.compareUnsignedToConstant ws constant) d (one
    .constant+(one .constant+ (((range as.length).map constant.testBit).map compareCost).sum)) fun
    out e => Draft.HasPair env out ((as.zip ((range as.length).map constant.testBit)).reverse.foldl
    plainCompare (false,true)) e := by
  have same := Forall₂.length_eq h
  have nonempty : ¬(ws=[] ∨ ws.length>128) := by
    rw [← length_eq_zero_iff]
    omega
  rw [Issuer.compareUnsignedToConstant,if_neg nonempty,if_neg (by rw [same]; omega),same]
  refine (emits_constant env false).bind fun less e₁ g₁ h₁ => ?_
  refine (emits_constant env true).bind fun equal e₂ g₂ h₂ => ?_
  have costs : ((as.zip ((range as.length).map constant.testBit)).reverse.map fun bits =>
      compareCost bits.2).sum = (((range as.length).map constant.testBit).map compareCost).sum := by
    rw [map_reverse,sum_reverse]
    have split : (fun bits : Bool × Bool => compareCost bits.2)=compareCost ∘ Prod.snd := rfl
    rw [split,← map_map,map_snd_zip]
    rw [length_map,length_range]
  rw [← costs]
  refine Emits.foldlM (fun bits : Bool × Bool => compareCost bits.2)
    (fun _ _ _ _ _ has grown => ⟨has.1.later grown,has.2⟩) (fun _ => True)
    (fun out bits e => Draft.HasPair env out bits e) ?_ trivial ⟨h₁.later g₂,h₂⟩
    (fun _ _ _ _ => trivial) fun state plain e ws bits _ _ hw hs => emits_compareBit hs hw
  exact rel_reverse (h.later (g₁.trans g₂)).zip_constant

end

end

section
variable {as bs : List Bool}

variable (as bs) in
lemma foldl_plainAdd (same : as.length=bs.length) (done : List Bool) (carry : Bool) :
    ∃ sum final,(as.zip bs).foldl plainAdd (done,carry)=(done++sum,final) ∧ sum.length=as.length ∧
    wordValue sum+2^as.length*final.toNat = wordValue as+wordValue bs+carry.toNat := by
  induction as generalizing bs done carry with
  | nil => exact ⟨[],carry,by rw [append_nil]; rfl,rfl,by
      obtain rfl := length_eq_zero_iff.mp same.symm
      simp [wordValue]⟩
  | cons a as ih =>
    obtain ⟨b,bs,rfl⟩ := exists_cons_of_length_eq_add_one same.symm
    obtain ⟨sum,final,eq,len,value⟩ := ih bs (Nat.succ.inj same) (done++[(a ^^ b) ^^ carry])
      ((a && b) ^^ (carry && (a ^^ b)))
    refine ⟨((a ^^ b) ^^ carry)::sum,final,?_,congrArg (· + 1) len,?_⟩
    · rw [zip_cons_cons,List.foldl_cons,plainAdd,eq,append_assoc]
      rfl
    · rw [wordValue,wordValue,wordValue,length_cons,pow_succ]
      have bit : ((a ^^ b) ^^ carry).toNat+2*((a && b) ^^ (carry && (a ^^ b))).toNat =
          a.toNat+b.toNat+carry.toNat := by
        cases a <;> cases b <;> cases carry <;> rfl
      linear_combination bit+2*value

variable (as bs) in
lemma foldl_plainSubtract (same : as.length=bs.length) (done : List Bool) (borrow : Bool) :
    ∃ difference final,(as.zip bs).foldl plainSubtract (done,borrow)=(done++difference,final) ∧
      difference.length=as.length ∧ wordValue difference+wordValue bs+borrow.toNat =
        wordValue as+2^as.length*final.toNat := by
  induction as generalizing bs done borrow with
  | nil => exact ⟨[],borrow,by rw [append_nil]; rfl,rfl,by
      obtain rfl := length_eq_zero_iff.mp same.symm
      simp [wordValue]⟩
  | cons a as ih =>
    obtain ⟨b,bs,rfl⟩ := exists_cons_of_length_eq_add_one same.symm
    obtain ⟨difference,final,eq,len,value⟩ := ih bs (Nat.succ.inj same)
      (done++[(a ^^ b) ^^ borrow]) ((!a && b) ^^ (borrow && !(a ^^ b)))
    refine ⟨((a ^^ b) ^^ borrow)::difference,final,?_,congrArg (· + 1) len,?_⟩
    · rw [zip_cons_cons,List.foldl_cons,plainSubtract,eq,append_assoc]
      rfl
    · rw [wordValue,wordValue,wordValue,length_cons,pow_succ]
      have bit : ((a ^^ b) ^^ borrow).toNat+b.toNat+borrow.toNat =
          a.toNat+2*((!a && b) ^^ (borrow && !(a ^^ b))).toNat := by
        cases a <;> cases b <;> cases borrow <;> rfl
      linear_combination bit+2*value

lemma foldl_plainCompare (same : as.length=bs.length) : (as.zip bs).reverse.foldl plainCompare
    (false,true) = (decide (wordValue as < wordValue bs),decide (wordValue as = wordValue bs)) := by
  induction as generalizing bs with
  | nil =>
    obtain rfl := length_eq_zero_iff.mp same.symm
    rfl
  | cons a as ih =>
    obtain ⟨b,bs,rfl⟩ := exists_cons_of_length_eq_add_one same.symm
    rw [zip_cons_cons,reverse_cons,foldl_append,ih (Nat.succ.inj same)]
    obtain ⟨less,equal⟩ := compare_step a b (wordValue as) (wordValue bs)
    rw [wordValue,wordValue,← less,← equal]
    cases a <;> cases b <;> simp [plainCompare]

lemma wordValue_injective (same : as.length=bs.length) (h : wordValue as = wordValue bs) :
    as=bs := by
  induction as generalizing bs with
  | nil => exact (length_eq_zero_iff.mp same.symm).symm
  | cons a as ih =>
    obtain ⟨b,bs,rfl⟩ := exists_cons_of_length_eq_add_one same.symm
    rw [wordValue,wordValue] at h
    have low : a=b := by
      cases a <;> cases b <;> simp at h ⊢ <;> omega
    rw [low,ih (Nat.succ.inj same)]
    subst low
    omega

lemma wordValue_lt (as : List Bool) : wordValue as < 2^as.length := by
  induction as with
  | nil => exact one_pos
  | cons a as ih =>
    rw [wordValue,length_cons]
    have bit := a.toNat_lt
    omega

end

end Pllm.Garble
