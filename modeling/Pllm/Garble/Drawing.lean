import Pllm.Garble.Gadgets

/-! Code that draws a part of a circuit: how many wires and AND gates it adds, that it fails exactly
when the room for them runs out, and what the wires it returns carry. -/
namespace Pllm.Garble
open Pllm.Lib Retained List BuilderCall BooleanGarbler

/-- The circuit may still grow by so many wires, so many of them of AND gates. -/
def HasRoom (draft : Draft) (wires ands : ℕ) : Prop :=
  draft.calls.length+wires ≤ draft.builder.wireLimit ∧
    tally draft.calls .and+ands ≤ maxReferenceAndGates

/-- Calls that add so many wires, so many of them of AND gates and none of inputs. -/
def Sized (cost : Tally) (wires ands : ℕ) : Prop :=
  ∑ k,cost k = wires ∧ cost .and = ands ∧ cost .input = 0

/-- The code adds so many wires and AND gates: it succeeds exactly when the circuit has room for
them, and what it returns is good. -/
def Draws {α : Type} (hash : FixedKeyHash) (start : BooleanCircuitBuilder) (x : Drawing α)
    (d : Draft) (wires ands : ℕ) (good : α → Draft → Prop) : Prop :=
  Sound hash start d → Room d 0 →
    (HasRoom d wires ands → ∃ a e cost,x d = .ok (a,e) ∧ Sound hash start e ∧ Grown d e cost ∧
      Sized cost wires ands ∧ good a e) ∧
    (¬HasRoom d wires ands → ∃ message,x d = .error message)

lemma sized_one {k : Kind} (gate : k ≠ .input) : Sized (one k) 1 (one k .and) := by
  refine ⟨?_,rfl,Pi.single_eq_of_ne (Ne.symm gate) _⟩
  rw [one,Finset.sum_pi_single' k 1 Finset.univ,if_pos (Finset.mem_univ _)]

section
variable {d : Draft} {cost cost' : Tally} {wires ands wires' ands' : ℕ}

lemma Sized.add (h : Sized cost wires ands) (h' : Sized cost' wires' ands') :
    Sized (cost+cost') (wires+wires') (ands+ands') := by
  obtain ⟨rfl,rfl,none⟩ := h
  obtain ⟨rfl,rfl,none'⟩ := h'
  exact ⟨Finset.sum_add_distrib,rfl,congrArg₂ (· + ·) none none'⟩

/-- Gates of other kinds than inputs leave the inputs their room. -/
lemma Sized.room (sized : Sized cost wires ands) (room : Room d 0) :
    Room d cost ↔ HasRoom d wires ands := by
  obtain ⟨rfl,rfl,none⟩ := sized
  have inputs : tally d.calls .input+cost .input ≤ maxReferenceInputs := by
    rw [none]
    exact room.2.2
  unfold Room HasRoom
  simp only [inputs,and_true,Pi.add_apply,Finset.sum_add_distrib,sum_tally]

section
variable {e : Draft} (grown : Grown d e cost) (limit : e.builder.wireLimit=d.builder.wireLimit)
include grown limit

lemma Grown.room (cost' : Tally) : Room e cost' ↔ Room d (cost+cost') := by
  unfold Room
  rw [grown.tally,add_assoc,limit]

lemma Grown.hasRoom (sized : Sized cost wires ands) (wires' ands' : ℕ) :
    HasRoom e wires' ands' ↔ HasRoom d (wires+wires') (ands+ands') := by
  obtain ⟨rfl,rfl,-⟩ := sized
  unfold HasRoom
  rw [← sum_tally,← sum_tally,grown.tally,limit]
  simp only [Pi.add_apply,Finset.sum_add_distrib,add_assoc]

end

end

section
variable {α β : Type} {hash : FixedKeyHash} {start : BooleanCircuitBuilder} {d : Draft}
  {wires ands wires' ands' : ℕ} {good : α → Draft → Prop}

section
variable {f : α → Drawing β} {mid : α → Draft → Prop} {γ δ : Type} {g : γ → δ → γ}
  {V : α → δ → Draft → Prop} {xs : List α} {ys : List δ} {R : δ → β → Draft → Prop}

lemma Draws.pure {a : α} (h : good a d) : Draws hash start (Pure.pure a : Drawing α) d 0 0 good := by
  have none : Sized 0 0 0 := ⟨by simp,rfl,rfl⟩
  exact fun sound room => ⟨fun _ => ⟨a,d,0,rfl,sound,Grown.refl d,none,h⟩,
    fun full => absurd ((none.room room).mp room) full⟩

section
variable {x : Drawing α}

lemma Draws.bind {good : β → Draft → Prop} (h : Draws hash start x d wires ands mid)
    (hf : ∀ a e cost,Grown d e cost → mid a e → Draws hash start (f a) e wires' ands' good) :
    Draws hash start (x >>= f) d (wires+wires') (ands+ands') good := by
  intro sound room
  obtain ⟨enough,full⟩ := h sound room
  by_cases fits : HasRoom d wires ands
  · obtain ⟨a,e,cost,run,soundE,grown,sized,here⟩ := enough fits
    have limit := soundE.wireLimit.trans sound.wireLimit.symm
    obtain ⟨enough',full'⟩ := hf a e cost grown here soundE ((grown.room limit 0).mpr
      ((add_zero cost).symm ▸ (sized.room room).mpr fits))
    have step : (x >>= f) d=f a e := by
      change x d >>= (fun p => f p.1 p.2)=_
      rw [run]
      rfl
    rw [← grown.hasRoom limit sized,step]
    refine ⟨fun fits' => ?_,full'⟩
    obtain ⟨b,g,cost',run',soundG,grown',sized',there⟩ := enough' fits'
    exact ⟨b,g,cost+cost',run',soundG,grown.trans grown',sized.add sized',there⟩
  · obtain ⟨message,run⟩ := full fits
    refine ⟨fun ⟨short,few⟩ => absurd ⟨by omega,by omega⟩ fits,fun _ => ⟨message,?_⟩⟩
    change x d >>= (fun p => f p.1 p.2)=_
    rw [run]
    rfl

/-- First steps without an AND gate, without any gate, of one gate and of one AND gate. -/
lemma Draws.bind_wires {good : β → Draft → Prop} (h : Draws hash start x d wires 0 mid)
    (hf : ∀ a e cost,Grown d e cost → mid a e → Draws hash start (f a) e wires' ands good) :
    Draws hash start (x >>= f) d (wires+wires') ands good :=
  zero_add ands ▸ h.bind hf

lemma Draws.bind_none {good : β → Draft → Prop} (h : Draws hash start x d 0 0 mid)
    (hf : ∀ a e cost,Grown d e cost → mid a e → Draws hash start (f a) e wires ands good) :
    Draws hash start (x >>= f) d wires ands good :=
  zero_add wires ▸ h.bind_wires hf

lemma Draws.bind_free {good : β → Draft → Prop} (h : Draws hash start x d 1 0 mid)
    (hf : ∀ a e cost,Grown d e cost → mid a e → Draws hash start (f a) e wires ands good) :
    Draws hash start (x >>= f) d (wires+1) ands good :=
  add_comm 1 wires ▸ h.bind_wires hf

lemma Draws.bind_and {good : β → Draft → Prop} (h : Draws hash start x d 1 1 mid)
    (hf : ∀ a e cost,Grown d e cost → mid a e → Draws hash start (f a) e wires ands good) :
    Draws hash start (x >>= f) d (wires+1) (ands+1) good :=
  add_comm 1 wires ▸ add_comm 1 ands ▸ h.bind hf

lemma Draws.bind_pure {f : α → β} {good : β → Draft → Prop} (h : Draws hash start x d wires ands
    fun a e => good (f a) e) : Draws hash start (x >>= fun a => Pure.pure (f a)) d wires ands good :=
  h.bind fun _ _ _ _ here => Draws.pure here

section
variable (h : Draws hash start x d wires ands good)
include h

lemma Draws.mono {good' : α → Draft → Prop} (imp : ∀ a e cost,Grown d e cost → good a e →
    good' a e) : Draws hash start x d wires ands good' := by
  intro sound room
  obtain ⟨enough,full⟩ := h sound room
  refine ⟨fun fits => ?_,full⟩
  obtain ⟨a,e,cost,run,soundE,grown,sized,here⟩ := enough fits
  exact ⟨a,e,cost,run,soundE,grown,sized,imp a e cost grown here⟩

lemma Draws.count (eq : wires=wires') (eq' : ands=ands') :
    Draws hash start x d wires' ands' good := eq ▸ eq' ▸ h

lemma Draws.ok (sound : Sound hash start d) (room : Room d 0)
    {a : α} {e : Draft} (run : x d = .ok (a,e)) : good a e ∧ Sound hash start e ∧ Room e 0 ∧
    (∃ cost,Grown d e cost) ∧ e.builder.andGateCount = d.builder.andGateCount+ands := by
  obtain ⟨enough,full⟩ := h sound room
  by_cases fits : HasRoom d wires ands
  · obtain ⟨a',e',cost,run',soundE,grown,sized,here⟩ := enough fits
    obtain ⟨rfl,rfl⟩ := Prod.mk.inj (ok_inj (run'.symm.trans run))
    have same := grown.room (soundE.wireLimit.trans sound.wireLimit.symm) 0
    refine ⟨here,soundE,same.mpr ((add_zero cost).symm ▸ (sized.room room).mpr fits),
      ⟨cost,grown⟩,?_⟩
    rw [soundE.ands,sound.ands,grown.tally,Pi.add_apply,sized.2.1]
  · obtain ⟨message,run'⟩ := full fits
    rw [run] at run'
    cases run'

end

lemma run_bind_ok {r : β × Draft} :
    (x >>= f) d = .ok r ↔ ∃ a e,x d = .ok (a,e) ∧ f a e = .ok r := by
  change (x d >>= fun p => f p.1 p.2)=_ ↔ _
  rw [bind_eq_ok]
  exact ⟨fun ⟨p,h,h'⟩ => ⟨p.1,p.2,h,h'⟩,fun ⟨a,e,h,h'⟩ => ⟨(a,e),h,h'⟩⟩

end

/-- Each round of a loop draws a part, while the value it carries follows a plain loop. -/
lemma Draws.foldlM {f : β → α → Drawing β} (wires ands : δ → ℕ)
    (later : ∀ x y e e' c,V x y e → Grown e e' c → V x y e') (R : β → γ → Draft → Prop)
    (values : Forall₂ (fun x y => V x y d) xs ys) {b : β} {c : γ} (hb : R b c d)
    (step : ∀ b c e x,∀ y∈ys,V x y e → R b c e →
      Draws hash start (f b x) e (wires y) (ands y) fun b' e' => R b' (g c y) e') :
    Draws hash start (xs.foldlM f b) d (ys.map wires).sum (ys.map ands).sum
      fun b' e => R b' (ys.foldl g c) e := by
  induction ys generalizing xs b c d with
  | nil =>
    cases values
    exact Draws.pure hb
  | cons y ys ih =>
    obtain _ | ⟨here,values⟩ := values
    refine (step b c d _ y mem_cons_self here hb).bind fun b' e cost grown next => ?_
    refine ih (values.imp fun _ _ v => later _ _ _ _ _ v grown) next ?_
    exact fun b c e x y' m => step b c e x y' (mem_cons_of_mem _ m)

/-- Rounds of one cost. -/
lemma Draws.foldlM_each {f : β → α → Drawing β} (later : ∀ x y e e' c,V x y e → Grown e e' c →
    V x y e') (R : β → γ → Draft → Prop) (values : Forall₂ (fun x y => V x y d) xs ys)
    {b : β} {c : γ} (hb : R b c d) (step : ∀ b c e x,∀ y∈ys,V x y e →
    R b c e → Draws hash start (f b x) e wires ands fun b' e' => R b' (g c y) e') : Draws hash start
    (xs.foldlM f b) d (wires*ys.length) (ands*ys.length) fun b' e => R b' (ys.foldl g c) e := by
  have looped := Draws.foldlM (fun _ => wires) (fun _ => ands) later R values hb step
  simpa only [map_const',sum_replicate,smul_eq_mul,mul_comm] using looped

lemma Draws.mapM (wires ands : δ → ℕ) (later : ∀ x y e e' c,V x y e → Grown e e' c → V x y e')
    (remains : ∀ y b e e' c,R y b e → Grown e e' c → R y b e')
    (values : Forall₂ (fun x y => V x y d) xs ys) (step : ∀ e total x,∀ y∈ys,Grown d e total →
    V x y e → Draws hash start (f x) e (wires y) (ands y) (R y)) : Draws hash start (xs.mapM f) d
    (ys.map wires).sum (ys.map ands).sum fun bs e => Forall₂ (fun b y => R y b e) bs ys := by
  induction ys generalizing xs d with
  | nil =>
    cases values
    exact Draws.pure .nil
  | cons y ys ih =>
    obtain _ | ⟨here,values⟩ := values
    rw [mapM_cons]
    refine (step d 0 _ y mem_cons_self (Grown.refl d) here).bind fun b e cost grown first => ?_
    exact (ih (values.imp fun _ _ v => later _ _ _ _ _ v grown) fun e' total x y m grown' =>
      step e' _ x y (mem_cons_of_mem _ m) (grown.trans grown')).bind
        fun bs g cost' grown' rest => Draws.pure (.cons (remains _ _ _ _ _ first grown') rest)

/-- Elements of one cost. -/
lemma Draws.mapM_each (later : ∀ x y e e' c,V x y e → Grown e e' c → V x y e') (remains : ∀ y b e
    e' c,R y b e → Grown e e' c → R y b e') (values : Forall₂ (fun x y => V x y d) xs ys) (step : ∀
    e total x,∀ y∈ys,Grown d e total → V x y e → Draws hash start (f x) e wires ands (R y)) :
    Draws hash start (xs.mapM f) d (wires*ys.length) (ands*ys.length)
      fun bs e => Forall₂ (fun b y => R y b e) bs ys := by
  have mapped := Draws.mapM (fun _ => wires) (fun _ => ands) later remains values step
  simpa only [map_const',sum_replicate,smul_eq_mul,mul_comm] using mapped

lemma Draws.of_emits {x : Drawing α} {k : Kind} (gate : k ≠ .input) (h : Emits hash start x d (one
    k) good) (full : Sound hash start d → Room d 0 → ¬Room d (one k) → ∃ message,x d = .error
    message) : Draws hash start x d 1 (one k .and) good := by
  intro sound room
  have sized := sized_one gate
  rw [← sized.room room]
  refine ⟨fun fits => ?_,full sound room⟩
  obtain ⟨a,e,run,soundE,grown,here⟩ := h sound fits
  exact ⟨a,e,one k,run,soundE,grown,sized,here⟩

end

def wireLimitMessage : String := "Boolean reference circuit wire limit exceeded"

lemma reserve_full (sound : Sound hash start d) (room : Room d 0) {k : Kind} (gate : k ≠ .input)
    (few : tally d.calls .and+one k .and ≤ maxReferenceAndGates) (full : ¬Room d (one k)) :
    d.builder.reserveWire = .error wireLimitMessage := by
  have total : ∑ k',(tally d.calls+one k) k'=d.calls.length+1 := by
    simp only [Pi.add_apply,Finset.sum_add_distrib,sum_tally,one]
    rw [Finset.sum_pi_single' k 1 Finset.univ,if_pos (Finset.mem_univ _)]
  have inputs : one k .input=0 := Pi.single_eq_of_ne (Ne.symm gate) _
  have wires : ¬d.calls.length+1 ≤ d.builder.wireLimit := fun fits => full ⟨total ▸ fits,few,by
    rw [Pi.add_apply,inputs]
    exact room.2.2⟩
  rw [BooleanCircuitBuilder.reserveWire,if_pos,wireLimitMessage]
  rw [sound.wires]
  omega

variable {env : List Bool} {iss : Issuer} {l r : BooleanWire} {a b : Bool}

lemma call_error (make : Block → BuilderCall) (message : String)
    (h : (make (iss.labels d.calls.length)).apply iss.hash d.builder = .error message) :
    iss.call make d = .error message := by
  rw [Issuer.call,h]
  rfl

variable (env) in
lemma draws_constant (value : Bool) :
    Draws iss.hash start (iss.constant value) d 1 0 fun w e => e.Has env w value :=
  Draws.of_emits (by decide) (emits_constant env value) fun sound room full =>
    ⟨_,call_error (.constant value) wireLimitMessage (by
      rw [apply,BooleanCircuitBuilder.constant,
        reserve_full (k := .constant) sound room (by decide) room.2.1 full]
      rfl)⟩

variable (hl : d.Has env l a)
include hl

lemma draws_xor (hr : d.Has env r b) :
    Draws iss.hash start (iss.xor l r) d 1 0 fun w e => e.Has env w (a ^^ b) := by
  refine Draws.of_emits (by decide) (emits_xor hl hr) fun sound room full => ?_
  obtain ⟨x,found,offset⟩ := sound.encoding hl.1 hl.index
  obtain ⟨y,found',offset'⟩ := sound.encoding hr.1 hr.index
  refine ⟨_,call_error (fun _ => .xor l r) wireLimitMessage ?_⟩
  simp only [apply,BooleanCircuitBuilder.xor,found,found',ok_bind,
    BooleanGarbler.xor,requireCompatible,offset,offset',ne_eq,
    not_true_eq_false,if_false,reserve_full (k := .xor) sound room (by decide) room.2.1 full,pure_eq_ok,
    error_bind]

lemma draws_not : Draws iss.hash start (iss.not l) d 1 0 fun w e => e.Has env w (!a) := by
  refine Draws.of_emits (by decide) (emits_not hl) fun sound room full => ?_
  obtain ⟨x,found,offset⟩ := sound.encoding hl.1 hl.index
  refine ⟨_,call_error (fun _ => .not l) wireLimitMessage ?_⟩
  simp only [apply,BooleanCircuitBuilder.not,found,ok_bind,
    BooleanGarbler.not,requireCompatible,offset,ne_eq,
    not_true_eq_false,if_false,reserve_full (k := .not) sound room (by decide) room.2.1 full,pure_eq_ok,
    error_bind]

lemma draws_and (hr : d.Has env r b) :
    Draws iss.hash start (iss.and l r) d 1 1 fun w e => e.Has env w (a && b) := by
  refine Draws.of_emits (k := .and) (by decide) (emits_and hl hr) fun sound room full => ?_
  by_cases few : tally d.calls .and+1 ≤ maxReferenceAndGates
  · obtain ⟨x,found,offset⟩ := sound.encoding hl.1 hl.index
    obtain ⟨y,found',offset'⟩ := sound.encoding hr.1 hr.index
    have count : ¬d.builder.andGateCount≥maxReferenceAndGates := by
      rw [sound.ands]
      omega
    have index : ¬2^64 ≤ d.builder.garbler.nextGate+1 := by
      have bound : maxReferenceAndGates<2^64 := by decide
      rw [sound.gates]
      omega
    have reserve : (({ d.builder with
        garbler := { d.builder.garbler with nextGate := d.builder.garbler.nextGate+1 } }) :
        BooleanCircuitBuilder).reserveWire = .error wireLimitMessage :=
      reserve_full (k := .and) sound room (by decide) few full
    refine ⟨_,call_error (fun _ => .and l r) wireLimitMessage ?_⟩
    simp only [apply,BooleanCircuitBuilder.and,if_neg count,found,found',ok_bind,
      garbleAnd,requireCompatible,offset,offset',ne_eq,
      not_true_eq_false,if_false,if_neg index,pure_eq_ok]
    rw [reserve]
    rfl
  · refine ⟨_,call_error (fun _ => .and l r) "Boolean reference circuit AND-gate limit exceeded" ?_⟩
    rw [apply,BooleanCircuitBuilder.and,if_pos]
    rw [sound.ands]
    omega

end

/-- A circuit of the two constants has all its room but for them. -/
lemma constants_drawn (iss : Issuer) : ∃ d zero one,
    Sound iss.hash (BooleanCircuitBuilder.new 0 0) d ∧ Room d 0 ∧ d.Has [] zero false ∧
    d.Has [] one true ∧ d.builder.wireLimit = maxReferenceWires ∧ ∀ wires ands,
      wires+2 ≤ maxReferenceWires → ands ≤ maxReferenceAndGates → HasRoom d wires ands := by
  let start := BooleanCircuitBuilder.new 0 0
  have sound : Sound iss.hash start ⟨start,[]⟩ := sound_start ⟨0,0,.inl rfl⟩
  have room : Room ⟨start,[]⟩ 0 := by refine ⟨?_,?_,?_⟩ <;> decide
  have drawn : Draws iss.hash start (do
      let zero ← iss.constant false
      let one ← iss.constant true
      return (zero,one)) ⟨start,[]⟩ 2 0 fun ws e => e.Has [] ws.1 false ∧ e.Has [] ws.2 true :=
    (draws_constant [] false).bind_free fun _ _ _ _ h =>
      (draws_constant [] true).bind_free fun _ _ _ grown h' => Draws.pure ⟨h.later grown,h'⟩
  obtain ⟨ws,d,cost,run,soundD,grown,sized,has⟩ := (drawn sound room).1 (by constructor <;> decide)
  obtain ⟨-,-,roomD,-⟩ := drawn.ok sound room run
  refine ⟨d,ws.1,ws.2,soundD,roomD,has.1,has.2,soundD.wireLimit,fun wires ands short few => ?_⟩
  refine (grown.hasRoom soundD.wireLimit sized wires ands).mpr ⟨?_,?_⟩
  · change 0+(2+wires) ≤ maxReferenceWires
    omega
  · change 0+(0+ands) ≤ maxReferenceAndGates
    omega

namespace Issuer
variable (iss : Issuer)

def constantWord (value width : ℕ) : Drawing (List BooleanWire) :=
  if width=0 ∨ width>128 ∨ (width<128 ∧ value≥2^width) then
    throw "Boolean constant does not fit its declared width"
  else (List.range width).mapM fun shift => iss.constant (value.testBit shift)

/-- A word moved up by `shift`, with zeros below and above it. -/
def placed (zero : BooleanWire) (width shift : ℕ) (bits : List BooleanWire) : List BooleanWire :=
  (List.replicate shift zero++(bits++List.replicate width zero)).take width

def multiplyRow (zero : BooleanWire) (left : List BooleanWire) (width : ℕ)
    (product : List BooleanWire) (right : BooleanWire × ℕ) : Drawing (List BooleanWire) := do
  let bits ← left.mapM fun leftBit => iss.and leftBit right.1
  let sum ← iss.addUnsigned product (placed zero width right.2 bits)
  return sum.1

def multiplyUnsignedWide (left right : List BooleanWire) : Drawing (List BooleanWire) :=
  if left=[] ∨ right=[] then throw "Boolean unsigned factors must be nonempty"
  else if left.length+right.length>128 then throw "Boolean product width exceeds 128 bits"
  else do
    let zero ← iss.constant false
    right.zipIdx.foldlM (iss.multiplyRow zero left (left.length+right.length))
      (List.replicate (left.length+right.length) zero)

def multiplyUnsigned (left right : List BooleanWire) : Drawing (List BooleanWire) :=
  if left=[] ∨ left.length≠right.length ∨ left.length>64 then
    throw "Boolean unsigned factors must have the same width between 1 and 64"
  else iss.multiplyUnsignedWide left right

def addPlaced (zero : BooleanWire) (input : List BooleanWire) (factor width : ℕ)
    (product : List BooleanWire) (shift : ℕ) : Drawing (List BooleanWire) :=
  if factor.testBit shift then do
    let sum ← iss.addUnsigned product (placed zero width shift input)
    return sum.1
  else return product

def multiplyByPublic (input : List BooleanWire) (factor outW : ℕ) :
    Drawing (List BooleanWire) :=
  if input=[] ∨ outW=0 ∨ outW>128 then
    throw "Boolean public multiplication width is invalid"
  else do
    let zero ← iss.constant false
    (List.range 128).foldlM (iss.addPlaced zero input factor outW)
      (List.replicate outW zero)

def compareBits (state bits : BooleanWire × BooleanWire) : Drawing (BooleanWire × BooleanWire) := do
  let notLeft ← iss.not bits.1
  let leftLess ← iss.and notLeft bits.2
  let newlyLess ← iss.and state.2 leftLess
  let less ← iss.xor state.1 newlyLess
  let different ← iss.xor bits.1 bits.2
  let same ← iss.not different
  let equal ← iss.and state.2 same
  return (less,equal)

def compareUnsigned (left right : List BooleanWire) : Drawing (BooleanWire × BooleanWire) :=
  if left=[] ∨ left.length≠right.length ∨ left.length>128 then
    throw "Boolean comparison operands must share a width up to 128"
  else do
    let less ← iss.constant false
    let equal ← iss.constant true
    (left.zip right).reverse.foldlM iss.compareBits (less,equal)

def selectBit (condition : BooleanWire) (bits : BooleanWire × BooleanWire) : Drawing BooleanWire := do
  let difference ← iss.xor bits.1 bits.2
  let selectedDifference ← iss.and condition difference
  iss.xor bits.1 selectedDifference

def selectWord (condition : BooleanWire) (whenFalse whenTrue : List BooleanWire) :
    Drawing (List BooleanWire) :=
  if whenFalse=[] ∨ whenFalse.length≠whenTrue.length ∨ whenFalse.length>128 then
    throw "Boolean selected words must share a width up to 128"
  else (whenFalse.zip whenTrue).mapM (iss.selectBit condition)

/-- One round of the loop that adds a carry to a word. -/
def incrementBit (state : List BooleanWire × BooleanWire) (bit : BooleanWire) :
    Drawing (List BooleanWire × BooleanWire) := do
  let output ← iss.xor bit state.2
  let carry ← iss.and bit state.2
  return (state.1++[output],carry)

/-- That loop; the last carry is dropped. -/
def increment (word : List BooleanWire) (carry : BooleanWire) : Drawing (List BooleanWire) := do
  let out ← word.foldlM iss.incrementBit ([],carry)
  return out.1

/-- The highest wire of a word. -/
def signWire (input : List BooleanWire) : BooleanWire := input.getD (input.length-1) ⟨0,0⟩

def absoluteSigned (input : List BooleanWire) : Drawing (List BooleanWire) :=
  if input.length<2 ∨ input.length>64 then
    throw "Boolean signed input width must be between 2 and 64"
  else do
    let sign := signWire input
    let inverted ← input.mapM fun bit => iss.xor bit sign
    iss.increment inverted sign

def negateBit (negate : BooleanWire) (state : List BooleanWire × BooleanWire) (bit : BooleanWire) :
    Drawing (List BooleanWire × BooleanWire) := do
  let inverted ← iss.xor bit negate
  let output ← iss.xor inverted state.2
  let carry ← iss.and inverted state.2
  return (state.1++[output],carry)

def conditionalNegate (magnitude : List BooleanWire) (negate : BooleanWire) :
    Drawing (List BooleanWire) :=
  if magnitude=[] ∨ magnitude.length>128 then
    throw "Boolean conditional-negation width is invalid"
  else do
    let out ← magnitude.foldlM (iss.negateBit negate) ([],negate)
    return out.1

def squareSigned (input : List BooleanWire) : Drawing (List BooleanWire) :=
  if input.length<2 ∨ input.length>32 then
    throw "Boolean signed square input width must be between 2 and 32"
  else do
    let magnitude ← iss.absoluteSigned input
    iss.multiplyUnsigned magnitude magnitude

def roundShiftTiesEven (magnitude : List BooleanWire) (shift outW : ℕ) :
    Drawing (List BooleanWire) :=
  if shift=0 ∨ shift≥magnitude.length ∨ outW < magnitude.length-shift+1
      ∨ outW>128 then
    throw "Boolean rounded-shift dimensions are invalid"
  else do
    let (belowHalf,equalHalf) ←
      iss.compareUnsignedToConstant (magnitude.take shift) (2^(shift-1))
    let belowOrEqual ← iss.xor belowHalf equalHalf
    let aboveHalf ← iss.not belowOrEqual
    let tieAndOdd ← iss.and equalHalf (magnitude.getD shift ⟨0,0⟩)
    let carry ← iss.xor aboveHalf tieAndOdd
    let zero ← iss.constant false
    iss.increment ((magnitude.drop shift++List.replicate outW zero).take outW)
      carry

/-- The wires of a word are looked up before anything is drawn. -/
def requireWires (wires : List BooleanWire) : Drawing Unit := fun draft => do
  let _ ← wires.mapM draft.builder.encoding
  return ((),draft)

/-- One round of the restoring division by a public divisor; the quotient grows downwards. -/
def divideSignedBit (den : List BooleanWire) (divisor : ℕ)
    (state : List BooleanWire × List BooleanWire) (bit : BooleanWire) :
    Drawing (List BooleanWire × List BooleanWire) := do
  let shifted := bit::state.1.take 8
  let (less,_) ← iss.compareUnsignedToConstant shifted divisor
  let greaterOrEqual ← iss.not less
  let (difference,_) ← iss.subtractUnsigned shifted den
  let remainder ← iss.selectWord greaterOrEqual shifted difference
  return (remainder,greaterOrEqual::state.2)

def divideSignedByPublicTiesEven (input : List BooleanWire) (divisor : ℕ) :
    Drawing (List BooleanWire) :=
  if ¬(2 ≤ input.length ∧ input.length≤64) ∨ ¬(1≤divisor ∧ divisor≤256) then
    throw "Boolean signed/public division dimensions are invalid"
  else do
    requireWires input
    if divisor=1 then return input
    else do
      let sign := signWire input
      let magnitude ← iss.absoluteSigned input
      let zero ← iss.constant false
      let den ← iss.constantWord divisor 9
      let (remainder,quotient) ← magnitude.reverse.foldlM
        (iss.divideSignedBit den divisor) (List.replicate 9 zero,[])
      let (belowHalf,atHalf) ← iss.compareUnsignedToConstant remainder (divisor/2)
      let atOrBelowHalf ← iss.xor belowHalf atHalf
      let aboveHalf ← iss.not atOrBelowHalf
      let tieAndOdd ← (if divisor%2 = 0 then iss.and atHalf (quotient.getD 0 ⟨0,0⟩)
        else pure zero)
      let carry ← iss.xor aboveHalf tieAndOdd
      let rounded ← iss.increment quotient carry
      iss.conditionalNegate rounded sign

def multiplySignedByPublicRoundTiesEven (input : List BooleanWire) (factor : ℤ)
    (shift outW : ℕ) : Drawing (List BooleanWire) :=
  if ¬(2 ≤ input.length ∧ input.length≤32) ∨ factor.natAbs>2^27 ∨ ¬(1 ≤ shift ∧ shift≤30)
      ∨ outW < input.length+28-shift+1 ∨ outW>64 then
    throw "Boolean signed/public multiplication dimensions are invalid"
  else do
    requireWires input
    if factor=0 then iss.constantWord 0 outW
    else do
      let sign ← (if factor < 0 then iss.not (signWire input) else pure (signWire input))
      let magnitude ← iss.absoluteSigned input
      let product ← iss.multiplyByPublic magnitude factor.natAbs (input.length+28)
      let rounded ← iss.roundShiftTiesEven product shift outW
      iss.conditionalNegate rounded sign

/-- One round of the restoring division of a public number. -/
def dividePublicBit (den : List BooleanWire) (state : List BooleanWire × List BooleanWire)
    (bit : Bool) : Drawing (List BooleanWire × List BooleanWire) := do
  let incoming ← iss.constant bit
  let shifted := incoming::state.1.take (state.1.length-1)
  let (difference,borrow) ← iss.subtractUnsigned shifted den
  let greaterOrEqual ← iss.not borrow
  let remainder ← iss.selectWord greaterOrEqual shifted difference
  return (remainder,greaterOrEqual::state.2)

def dividePublicBySecret (numerator : ℕ) (den : List BooleanWire) :
    Drawing (List BooleanWire) :=
  if numerator=0 ∨ den=[] ∨ den.length>127 then
    throw "Boolean public/secret division dimensions are invalid"
  else do
    let zero ← iss.constant false
    let extendedDenominator := den++[zero]
    let out ← ((List.range numerator.size).map numerator.testBit).reverse.foldlM
      (iss.dividePublicBit extendedDenominator)
      (List.replicate extendedDenominator.length zero,[])
    return out.2

def checkedU128 (n : ℕ) (message : String) : Drawing ℕ :=
  if n<2^128 then pure n else throw message

/-- `resize` with a filling wire. -/
def resized (zero : BooleanWire) (width : ℕ) (word : List BooleanWire) : List BooleanWire :=
  (word++List.replicate width zero).take width

/-- One bit of the root: it stays where the square of the trial does not exceed the quotient. -/
def rootBit (zero one : BooleanWire) (quotient result : List BooleanWire) (bit : ℕ) :
    Drawing (List BooleanWire) := do
  let trial := result.set bit one
  let square ← iss.multiplyUnsigned trial trial
  let (less,equal) ← iss.compareUnsigned (resized zero quotient.length square) quotient
  let kept ← iss.xor less equal
  return result.set bit kept

def reciprocalSqrtQ (sumSquares : List BooleanWire) (rowWidth frac : ℕ) :
    Drawing (List BooleanWire) :=
  if sumSquares=[] ∨ sumSquares.length>44 ∨ rowWidth=0 ∨ rowWidth>8192 then
    throw "Boolean reciprocal-square-root dimensions are invalid"
  else if ¬(5≤frac ∧ frac≤30) then
    throw "Boolean reciprocal-square-root precision must be between 5 and 30"
  else do
    let scaled ← checkedU128 (rowWidth*1000000)
      "Boolean reciprocal-square-root numerator overflows u128"
    -- `checked_shl` checks the shift alone
    let numerator := scaled*2^(2*frac)%2^128
    let epsilon ← checkedU128 (rowWidth*1048576)
      "Boolean reciprocal-square-root epsilon overflows u128"
    let scaledSum ← iss.multiplyByPublic sumSquares 1000000 64
    let epsilonWord ← iss.constantWord epsilon 64
    let (den,_) ← iss.addUnsigned scaledSum epsilonWord
    let quotient ← iss.dividePublicBySecret numerator den
    let zero ← iss.constant false
    let one ← iss.constant true
    let result ← (List.range frac).reverse.foldlM (iss.rootBit zero one quotient)
      (List.replicate frac zero)
    let twicePlusOne := one::result
    let thresholdSquare ← iss.multiplyUnsigned twicePlusOne twicePlusOne
    let threshold ← iss.multiplyUnsignedWide thresholdSquare den
    let fourNumerator ← checkedU128 (numerator*4)
      "Boolean reciprocal-square-root rounding threshold overflows u128"
    let (below,equal) ← iss.compareUnsignedToConstant threshold fourNumerator
    let equalAndOdd ← iss.and equal (result.getD 0 ⟨0,0⟩)
    let carry ← iss.xor below equalAndOdd
    iss.increment result carry

def addSquareSigned (zero : BooleanWire) (sumSquares value : List BooleanWire) :
    Drawing (List BooleanWire) := do
  let square ← iss.squareSigned value
  let sum ← iss.addUnsigned sumSquares (resized zero 44 square)
  return sum.1

def normElement (inputWidth frac : ℕ) (normalizer : List BooleanWire)
    (element : List BooleanWire × ℤ) : Drawing (List BooleanWire) := do
  let magnitude ← iss.absoluteSigned element.1
  let weighted ← iss.multiplyByPublic magnitude element.2.natAbs (inputWidth*2)
  let scaled ← iss.multiplyUnsignedWide weighted normalizer
  let rounded ← iss.roundShiftTiesEven scaled frac 64
  let sign ← (if element.2 < 0 then iss.not (element.1.getD (inputWidth-1) ⟨0,0⟩)
    else pure (element.1.getD (inputWidth-1) ⟨0,0⟩))
  iss.conditionalNegate rounded sign

def rmsNormDirectQ (rows : List (List BooleanWire)) (weights : List ℤ) (frac : ℕ) :
    Drawing (List (List BooleanWire)) :=
  let inputWidth := (rows.getD 0 []).length
  if rows=[] ∨ rows.length>8192 ∨ rows.length≠weights.length then
    throw "Boolean RMSNorm row and weight counts must match and be nonzero"
  else if ¬(2 ≤ inputWidth ∧ inputWidth≤16) ∨ ∃ value∈rows,value.length≠inputWidth then
    throw "Boolean RMSNorm inputs must share a width between 2 and 16"
  else if ∃ weight∈weights,weight < -2^(inputWidth-1) ∨ weight>2^(inputWidth-1)-1 then
    throw "Boolean RMSNorm weight is outside the input fixed-point domain"
  else do
    let zero ← iss.constant false
    let sumSquares ← rows.foldlM (iss.addSquareSigned zero) (List.replicate 44 zero)
    let normalizer ← iss.reciprocalSqrtQ sumSquares rows.length frac
    (rows.zip weights).mapM (iss.normElement inputWidth frac normalizer)

end Issuer
end Pllm.Garble
