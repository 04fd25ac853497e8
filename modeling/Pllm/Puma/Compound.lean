import Pllm.Puma.Multiply

/-! The remaining entry points of the compound owner: Boolean products, conversions both ways and
the standalone rescale. -/
namespace Pllm.Puma.Multiply
open Pllm.Lib

def rescaleProfile : String := "puma.spu-a42c261.bound-truncapr.ring64.replicated3.v1"

namespace PartyRuntime

def planAndInner (env : Platform) (lanes leftBits rightBits : ℕ) :
    Exec Error PartyRuntime Boolean.Plan := do
  live env
  requireReady
  let _ ← .ofExcept (Boolean.wordBytes leftBits)
  let _ ← .ofExcept (Boolean.wordBytes rightBits)
  let bytes ← .ofExcept (Boolean.wordBytes (max leftBits rightBits))
  let s := (← .read).source
  let admittedBytes ← .ofExcept (s.limits.core.admittedBytes lanes)
  .request
  let q ← .ofExcept (typedBlocks lanes bytes)
  let pairStart := s.cursors.pairBlocks
  let _ ← .ofExcept (checkedAdd pairStart q)
  let _ ← .ofExcept (s.work (2*q))
  let operation ← .ofExcept
    (Operation.new s.context s.runtime.nextSequence .p0 lanes 1 s.limits.core)
  let consumer := env.sha256 (ascii Boolean.profile++ascii prssProfile++leBytes 32 s.setup
    ++ ascii "typed-pairwise-boolean-product" ++ u64Bytes pairStart
    ++ u8Bytes leftBits++u8Bytes rightBits++u8Bytes bytes)
  let plan : Boolean.Plan := ⟨{ operation with consumer := some consumer },leftBits,rightBits,bytes,
    pairStart,admittedBytes,false⟩
  setPhase (.boolean (.planned plan))
  return plan

def planAnd (env : Platform) (lanes leftBits rightBits : ℕ) :
    Exec Error PartyRuntime Boolean.Plan :=
  .checked cancel (planAndInner env lanes leftBits rightBits)

def planAndCompact (env : Platform) (lanes leftBits rightBits : ℕ) :
    Exec Error PartyRuntime Boolean.Plan := do
  let plan ← planAnd env lanes leftBits rightBits
  setPhase (.boolean (.planned (plan.toCompact env)))
  return plan.toCompact env

def bindAndOperand (env : Platform) (operand : Operand) (value : Boolean.Share) :
    Exec Error PartyRuntime Boolean.Share := .checked cancel do
  live env
  let s ← .read
  match s.phase with
  | .boolean (.planned plan) => do
    let (operation,bits) := plan.operand env operand
    .require (value.party=s.party) .role
    .require (value.value.operation.context=s.context ∧ value.bits=bits) .binding
    .require (value.first.length=operation.lanes ∧ value.second.length=operation.lanes) .shape
    value.value.chargeTo
    return { value with value := { value.value with operation := operation } }
  | _ => .fail .phase

def beginAndInner (env : Platform) (left right : Boolean.Share) :
    Exec Error PartyRuntime Message := do
  live env
  let s ← .read
  match s.phase with
  | .boolean (.planned plan) => do
    .ofExcept (Boolean.validateOperands env s.source plan left right)
    consumeOrdinal plan.operation
    let (gate,message) ← onSource (Boolean.issue env plan left right)
    setPhase (.boolean (.rotating gate))
    return message
  | _ => .fail .phase

def beginAnd (env : Platform) (left right : Boolean.Share) : Exec Error PartyRuntime Message :=
  .checked cancel (beginAndInner env left right)

def receiveAnd (env : Platform) (message : Message) : Exec Error PartyRuntime Unit :=
  .checked cancel do
    live env
    match ← takePhase with
    | .boolean (.rotating gate) => do
      let share ← onSource (gate.receive env message)
      setPhase (.boolean (.complete share))
    | _ => .fail .phase

def takeBooleanOutput (env : Platform) : Exec Error PartyRuntime Boolean.Share :=
  .checked cancel do
    live env
    match ← takePhase with
    | .boolean (.complete output) => do
      setPhase .ready
      return output
    | .conversion (.complete output) => do
      setPhase .ready
      return output
    | _ => .fail .phase

/-- The widths a conversion supports. -/
def supported : Conversion.Kind → Bool
  | .lowBits width => 1 ≤ width && width ≤ 64
  | .compactMostSignificantBit width => width=8 || width=16 || width=32 || width=64
  | _ => true

def kindBytes : Conversion.Kind → List Byte
  | .bits => u8Bytes 0
  | .mostSignificantBit => u8Bytes 1
  | .compactMostSignificantBit width =>
    u8Bytes 3++u8Bytes width++ascii Conversion.compactMsbProfile
  | .lowBits width => u8Bytes 2++u8Bytes width++ascii "nominal-xor-domain.compact-wire.v1"

def planConversionInner (env : Platform) (lanes : ℕ) (kind : Conversion.Kind) :
    Exec Error PartyRuntime Conversion.Plan := do
  live env
  requireReady
  let s := (← .read).source
  let limits := s.limits.core
  .require (supported kind) .bounds
  let _ ← .ofExcept (limits.admittedBytes (lanes*2))
  let admittedBytes := fixedReserveBytes+32*lanes*8
  .request
  let pairStart := s.cursors.pairBlocks
  let single ← .ofExcept (typedBlocks lanes (Conversion.backing kind.width))
  let count ← .ofExcept ((List.range kind.rounds).foldlM (fun count r => do
    return count+(← typedBlocks (2*lanes) (Conversion.backing (kind.roundBits (r+1))))) (2*single))
  let pairEnd ← .ofExcept (checkedAdd pairStart count)
  let _ ← .ofExcept (s.work (2*count))
  let operation ← .ofExcept (Operation.new s.context s.runtime.nextSequence .p0 lanes 1 limits)
  let consumer := env.sha256 (ascii Conversion.profile++ascii prssProfile++leBytes 32 s.setup
    ++ kindBytes kind++u64Bytes pairStart++u64Bytes pairEnd)
  let plan : Conversion.Plan := ⟨{ operation with consumer := some consumer },s.setup,kind,pairStart,
    pairStart+single,pairEnd,admittedBytes,limits⟩
  setPhase (.conversion (.planned plan))
  return plan

def planConversion (env : Platform) (lanes : ℕ) (kind : Conversion.Kind) :
    Exec Error PartyRuntime Conversion.Plan :=
  .checked cancel (planConversionInner env lanes kind)

def bindConversionInput (env : Platform) (input : ReplicatedShare) :
    Exec Error PartyRuntime ReplicatedShare := .checked cancel do
  live env
  let s ← .read
  match s.phase with
  | .conversion (.planned plan) => do
    .require (input.party=s.party) .role
    .require (input.operation.context=s.context) .binding
    .require (input.first.length=plan.lanes ∧ input.second.length=plan.lanes) .shape
    input.chargeTo
    return { input with operation := plan.inputBinding env }
  | _ => .fail .phase

/-- The first party's two components in the ring of the width, under the zero share. -/
def splitLane (kind : Conversion.Kind) (party : Party) (zero x y : Word) : Word :=
  let mask := Boolean.widthMask kind.width
  let masked := if party = .p0 then zero ^^^ ((x+y) &&& mask) else zero
  if kind.compact then masked &&& mask else masked

def beginConversionInner (env : Platform) (input : ReplicatedShare) :
    Exec Error PartyRuntime Message := do
  live env
  let s ← .read
  match s.phase with
  | .conversion (.planned plan) => do
    .require (input.operation = plan.inputBinding env) .binding
    .require (input.party=s.party) .role
    .require (s.source.cursors.pairBlocks=plan.pairStart) .binding
    consumeOrdinal plan.operation
    let n := plan.lanes
    let bytes := Conversion.backing plan.kind.width
    let q ← .ofExcept (typedBlocks n bytes)
    let work ← .ofExcept (s.source.work (2*q))
    onSource (SourceParty.setCursors fun c =>
      { c with pairBlocks := c.pairBlocks+q, aesWork := work })
    input.chargeTo
    let _ ← zeros n
    let _ ← zeros n
    let seeds ← .expect s.source.seeds .retired
    let own ← onSource (SourceParty.fill env .own seeds.own plan.pairStart n bytes)
    let nextSeed ← .expect seeds.next .phase
    let adjacent ← onSource (SourceParty.fill env .next nextSeed plan.pairStart n bytes)
    let first := tabulate n fun i => splitLane plan.kind s.party (lane own i ^^^ lane adjacent i)
      (lane input.first i) (lane input.second i)
    let mask := Boolean.widthMask plan.kind.width
    -- the last component is the second summand: its two holders keep it
    let other : ReplicatedShare := { input with
      first := tabulate n fun i => if s.party = .p2 then lane input.first i &&& mask else 0
      second := tabulate n fun i => if s.party = .p1 then lane input.second i &&& mask else 0 }
    let words ← copy first n
    setPhase (.conversion (.split plan first other))
    return ⟨⟨plan.digest env,s.party,s.party.next.next,.arithmeticToBoolean⟩,words⟩
  | _ => .fail .phase

def beginConversion (env : Platform) (input : ReplicatedShare) :
    Exec Error PartyRuntime Message :=
  .checked cancel (beginConversionInner env input)

def advanceConversionInner (env : Platform) (message : Message) :
    Exec Error PartyRuntime (Option Message) := do
  live env
  match ← takePhase with
  | .conversion (.split plan first other) => do
    let s ← .read
    .ofExcept (message.validate env plan.operation s.party.next s.party .arithmeticToBoolean)
    let mask := if plan.kind.compact then Boolean.widthMask plan.kind.width
      else Boolean.wordMask (Conversion.backing plan.kind.width)
    .require (Boolean.within message.words mask) .bounds
    charge
    let left : Boolean.Share := ⟨⟨plan.operation,s.party,first,message.words⟩,plan.kind.width⟩
    let right : Boolean.Share := ⟨other,plan.kind.width⟩
    let (work,outgoing) ← onSource (Conversion.start env plan left right)
    setPhase (.conversion (.circuit work))
    return some outgoing
  | .conversion (.circuit work) => do
    let (state,outgoing) ← onSource (Conversion.advance env work message)
    setPhase (.conversion state)
    return outgoing
  | _ => .fail .phase

def advanceConversion (env : Platform) (message : Message) :
    Exec Error PartyRuntime (Option Message) :=
  .checked cancel (advanceConversionInner env message)

def planBooleanToArithmeticInner (env : Platform) (input : Boolean.Share) :
    Exec Error PartyRuntime BooleanToArithmetic.Plan := do
  live env
  requireReady
  let s := (← .read).source
  .require (input.party=s.party) .role
  .require (input.value.operation.context=s.context ∧ input.bits≤64) .binding
  let lanes := input.value.operation.lanes
  let expanded := lanes*input.bits
  .require (expanded<2^64) .bounds
  let ppa : Bool := input.bits>8
  let _ ← .ofExcept (s.limits.core.admittedBytes (if ppa then 2*lanes else max lanes expanded))
  let admittedBytes := fixedReserveBytes
    +(if ppa then 320*lanes else (16*expanded+8*lanes)*8)
  .request
  let q ← .ofExcept (if input.bits = 0 then .ok 0 else if ppa then blocks lanes
    else blocks expanded)
  let pairStart := s.cursors.pairBlocks
  let double ← .ofExcept (if ppa then blocks (2*lanes) else .ok 0)
  let count := 3*q+6*double
  let pairEnd ← .ofExcept (checkedAdd pairStart count)
  let publicStart := s.cursors.publicBlocks
  let operation ← .ofExcept
    (Operation.new s.context s.runtime.nextSequence .p0 lanes 1 s.limits.core)
  let role ← (if ppa then do
      let _ ← .ofExcept (s.work (2*count))
      return .p0
    else if input.bits≠0 then do
      let _ ← .ofExcept (s.work (4*q+1))
      let publicEnd ← .ofExcept (checkedAdd publicStart 1)
      let work ← .ofExcept (s.work 1)
      onSource (SourceParty.setCursors fun c =>
        { c with publicBlocks := publicEnd, aesWork := work })
      let word ← onSource (SourceParty.fill env .publicSeed s.publicSeed publicStart 1 8)
      .ofExcept (pivot (lane word 0))
    else return .p0 : Exec Error PartyRuntime Party)
  let operation := { operation with pivot := role }
  let consumer := env.sha256
    (ascii (if ppa then BooleanToArithmetic.ppaProfile else BooleanToArithmetic.profile)
    ++ ascii prssProfile++leBytes 32 s.setup++leBytes 32 (input.binding env)
    ++ u8Bytes input.bits++u64Bytes publicStart++u64Bytes pairStart++u64Bytes pairEnd)
  let plan : BooleanToArithmetic.Plan := ⟨{ operation with consumer := some consumer },
    input.binding env,input.bits,pairStart,pairEnd,admittedBytes,s.setup,s.limits.core⟩
  setPhase (.booleanToArithmetic (.planned plan))
  return plan

def planBooleanToArithmetic (env : Platform) (input : Boolean.Share) :
    Exec Error PartyRuntime BooleanToArithmetic.Plan :=
  .checked cancel (planBooleanToArithmeticInner env input)

def beginBooleanToArithmeticInner (env : Platform) (input : Boolean.Share) :
    Exec Error PartyRuntime Frames := do
  live env
  let s ← .read
  match s.phase with
  | .booleanToArithmetic (.planned plan) => do
    .require (input.binding env = plan.inputBinding ∧ input.bits=plan.bits
      ∧ s.source.cursors.pairBlocks=plan.pairStart) .binding
    .require (input.party=s.party) .role
    consumeOrdinal plan.operation
    input.value.chargeTo
    let (state,messages) ← onSource (BooleanToArithmetic.issue env plan input)
    setPhase (.booleanToArithmetic state)
    return messages
  | _ => .fail .phase

def beginBooleanToArithmetic (env : Platform) (input : Boolean.Share) :
    Exec Error PartyRuntime Frames :=
  .checked cancel (beginBooleanToArithmeticInner env input)

/-- The helper receives one frame, the receiver three; the sender has nothing to receive. -/
def receiveBooleanToArithmeticInner (env : Platform)
    (messages : Option Message × Option Message × Option Message) :
    Exec Error PartyRuntime (Option Message) := do
  live env
  match ← takePhase,messages with
  | .booleanToArithmetic (.helper plan first),(some reply,none,none) => do
    let second ← onSource (plan.accept env .booleanOtReshare reply)
    let s ← .read
    setPhase (.booleanToArithmetic (.complete ⟨plan.operation,s.party,first,second⟩))
    return none
  | .booleanToArithmetic (.receiver plan choices second),(some mc,some m0,some m1) => do
    let mc ← onSource (plan.accept env .booleanOtMask mc)
    let m0 ← onSource (plan.accept env .booleanOtZero m0)
    let m1 ← onSource (plan.accept env .booleanOtOne m1)
    let _ ← zeros plan.lanes
    let first := tabulate plan.lanes (BooleanToArithmetic.receivedLane plan m0 m1 mc choices)
    let words ← copy first plan.lanes
    let reply ← .ofExcept (plan.frame env .booleanOtReshare words)
    let s ← .read
    setPhase (.booleanToArithmetic (.complete ⟨plan.operation,s.party,first,second⟩))
    return some reply
  | _,_ => .fail .phase

def receiveBooleanToArithmetic (env : Platform)
    (messages : Option Message × Option Message × Option Message) :
    Exec Error PartyRuntime (Option Message) :=
  .checked cancel (receiveBooleanToArithmeticInner env messages)

def advanceBooleanToArithmetic (env : Platform) (message : Message) :
    Exec Error PartyRuntime Frames := .checked cancel do
  live env
  match ← takePhase with
  | .booleanToArithmetic (.ppa state) => do
    let (state,replies) ← onSource (BooleanToArithmetic.Ppa.advance env state message)
    setPhase (.booleanToArithmetic state)
    return replies
  | _ => .fail .phase

/-- What every local operation asks of an arithmetic operand. -/
def validate (self : PartyRuntime) (value : ReplicatedShare) : Except Error Unit :=
  if value.party≠self.party then .error .role
  else if value.operation.context≠self.context then .error .binding
  else if value.first.length≠value.operation.lanes
      ∨ value.second.length≠value.operation.lanes then .error .shape
  else do
    let _ ← self.source.limits.core.admittedBytes value.operation.lanes
    return ()

def beginRescaleInner (env : Platform) (input : ReplicatedShare) (shift : ℕ) (bounds : Interval) :
    Exec Error PartyRuntime (Operation × Frames) := do
  live env
  requireReady
  let s ← .read
  .ofExcept (validate s input)
  let _ ← .ofExcept (rescaledBounds bounds shift)
  let n := input.operation.lanes
  let _ ← .ofExcept (s.source.limits.core.admittedBytes n)
  .request
  let q ← .ofExcept (blocks n)
  let _ ← .ofExcept (s.source.work (4*q+n+1))
  let _ ← .ofExcept (checkedAdd s.source.cursors.privateBlocks n)
  let consumer := env.sha256 (ascii rescaleProfile++leBytes 32 (input.operation.digest env)
    ++ i64Bytes bounds.lower++i64Bytes bounds.upper++u8Bytes shift)
  let operation ← onSource (SourceParty.plan env n shift)
  let operation := { operation with consumer := some consumer }
  let messages ← beginTruncation env operation input.first input.second
  return (operation,messages)

def beginRescale (env : Platform) (input : ReplicatedShare) (shift : ℕ) (bounds : Interval) :
    Exec Error PartyRuntime (Operation × Frames) :=
  .checked cancel (beginRescaleInner env input shift bounds)

end PartyRuntime

open Pllm.Lib.Exec Multiply.PartyRuntime

/-- A call of the owner with its arguments. -/
inductive Call
  | planProduct (product : Product) (bounds : List InputBounds) (rescale : Bool)
    (certified : Option (Interval × BitVec 256))
  | bindOperand (operand : Operand) (value : ReplicatedShare)
  | beginProduct (left right : ReplicatedShare)
  | rotate (next : Message)
  | openRound (peer correlation : Message)
  | reshare (peer : Message)
  | takeOutput
  | planAnd (lanes leftBits rightBits : ℕ)
  | planAndCompact (lanes leftBits rightBits : ℕ)
  | bindAndOperand (operand : Operand) (value : Boolean.Share)
  | beginAnd (left right : Boolean.Share)
  | receiveAnd (message : Message)
  | takeBooleanOutput
  | planConversion (lanes : ℕ) (kind : Conversion.Kind)
  | bindConversionInput (input : ReplicatedShare)
  | beginConversion (input : ReplicatedShare)
  | advanceConversion (message : Message)
  | planBooleanToArithmetic (input : Boolean.Share)
  | beginBooleanToArithmetic (input : Boolean.Share)
  | receiveBooleanToArithmetic (messages : Option Message × Option Message × Option Message)
  | advanceBooleanToArithmetic (message : Message)
  | beginRescale (input : ReplicatedShare) (shift : ℕ) (bounds : Interval)

/-- Run a call for its effect. -/
def discard {α : Type} (x : Exec Error PartyRuntime α) : Exec Error PartyRuntime Unit := do
  let _ ← x

def Call.run (env : Platform) : Call → Exec Error PartyRuntime Unit
  | planProduct product bounds rescale certified =>
    discard (PartyRuntime.planProduct env product bounds rescale certified)
  | bindOperand operand value => discard (PartyRuntime.bindOperand env operand value)
  | beginProduct left right => discard (PartyRuntime.beginProduct env left right)
  | rotate next => discard (PartyRuntime.rotate env next)
  | openRound peer correlation => discard (PartyRuntime.openRound env peer correlation)
  | reshare peer => discard (PartyRuntime.reshare env peer)
  | takeOutput => discard (PartyRuntime.takeOutput env)
  | planAnd lanes leftBits rightBits => discard (PartyRuntime.planAnd env lanes leftBits rightBits)
  | planAndCompact lanes leftBits rightBits =>
    discard (PartyRuntime.planAndCompact env lanes leftBits rightBits)
  | bindAndOperand operand value => discard (PartyRuntime.bindAndOperand env operand value)
  | beginAnd left right => discard (PartyRuntime.beginAnd env left right)
  | receiveAnd message => discard (PartyRuntime.receiveAnd env message)
  | takeBooleanOutput => discard (PartyRuntime.takeBooleanOutput env)
  | planConversion lanes kind => discard (PartyRuntime.planConversion env lanes kind)
  | bindConversionInput input => discard (PartyRuntime.bindConversionInput env input)
  | beginConversion input => discard (PartyRuntime.beginConversion env input)
  | advanceConversion message => discard (PartyRuntime.advanceConversion env message)
  | planBooleanToArithmetic input => discard (PartyRuntime.planBooleanToArithmetic env input)
  | beginBooleanToArithmetic input => discard (PartyRuntime.beginBooleanToArithmetic env input)
  | receiveBooleanToArithmetic messages =>
    discard (PartyRuntime.receiveBooleanToArithmetic env messages)
  | advanceBooleanToArithmetic message =>
    discard (PartyRuntime.advanceBooleanToArithmetic env message)
  | beginRescale input shift bounds => discard (PartyRuntime.beginRescale env input shift bounds)

/-- An owner without its keys. -/
structure Retired (s : PartyRuntime) : Prop where
  seeds : s.source.seeds=none
  phase : s.phase = .retired

/-- A program that cleans up after a failure: the failure retires the owner, and a retired owner
turns the program down before anything else. -/
structure Guarded {α : Type} (x : Exec Error PartyRuntime α) : Prop where
  retires : ∀ deny s k, wp deny x s k (fun _ _ _ => True) fun _ t _ => Retired t
  refuses : ∀ deny s k, Retired s → wp deny x s k (fun _ _ _ => False) fun _ t _ => Retired t

variable {env : Platform} {α β : Type}

section
variable {post : Unit → PartyRuntime → ℕ → Prop} {bad : Error → PartyRuntime → ℕ → Prop}
  {x : Exec Error PartyRuntime α}

lemma retired_cancel (s : PartyRuntime) : Retired s.cancel := ⟨rfl,rfl⟩

section
variable {s : PartyRuntime} (h : Retired s) {deny : ℕ → Option Error} {k : ℕ}
include h

lemma wp_live_of_retired : wp deny (live env) s k post bad ↔ bad .retired s k := by
  simp [live,onSource,SourceParty.live,h.seeds]

lemma wp_truncating_of_retired : wp deny (truncating env) s k post bad ↔ bad .retired s k := by
  rw [truncating,wp_bind,wp_live_of_retired h]

end

lemma guarded_checked (hx : ∀ deny s k, Retired s → wp deny x s k (fun _ _ _ => False) fun _ _ _
    => True) : Guarded (checked cancel x) where
  retires deny s k := by
    rw [wp_checked]
    unfold wp
    rcases x deny s k with ⟨_ | a,t,i⟩
    · exact retired_cancel t
    · trivial
  refuses deny s k h := by
    rw [wp_checked]
    exact (hx deny s k h).mono (fun _ _ _ hfal => hfal) fun _ t _ _ => retired_cancel t

lemma guarded_live (x : Unit → Exec Error PartyRuntime α) :
    Guarded (checked cancel (live env >>= x)) := by
  apply guarded_checked
  intro deny s k h
  rw [wp_bind,wp_live_of_retired h]
  trivial

lemma guarded_truncating (x : Unit → Exec Error PartyRuntime α) :
    Guarded (checked cancel (truncating env >>= x)) := by
  apply guarded_checked
  intro deny s k h
  rw [wp_bind,wp_truncating_of_retired h]
  trivial

lemma Guarded.bind (h : Guarded x) {f : α → Exec Error PartyRuntime β} (hf : ∀ a deny s k, wp deny
    (f a) s k (fun _ _ _ => True) fun _ _ _ => False) : Guarded (x >>= f) where
  retires deny s k := by
    rw [wp_bind]
    exact (h.retires deny s k).mono (fun a t i _ => (hf a deny t i).mono (fun _ _ _ _ => trivial)
      fun _ _ _ hfal => hfal.elim) fun _ _ _ hret => hret
  refuses deny s k hs := by
    rw [wp_bind]
    exact (h.refuses deny s k hs).mono (fun _ _ _ hfal => hfal.elim)
      fun _ _ _ hret => hret

lemma Guarded.discard (h : Guarded x) : Guarded (discard x) :=
  h.bind fun _ _ _ _ => trivial

lemma guarded_planAnd (lanes leftBits rightBits : ℕ) :
    Guarded (planAnd env lanes leftBits rightBits) := guarded_live _

lemma guarded_planAndCompact (lanes leftBits rightBits : ℕ) :
    Guarded (planAndCompact env lanes leftBits rightBits) := by
  apply (guarded_planAnd lanes leftBits rightBits).bind
  simp [setPhase]

lemma Call.guarded (env : Platform) (call : Call) : Guarded (call.run env) := by
  cases call with
  | planAndCompact lanes leftBits rightBits =>
    exact (guarded_planAndCompact lanes leftBits rightBits).discard
  | openRound peer correlation => exact (guarded_truncating _).discard
  | reshare peer => exact (guarded_truncating _).discard
  | _ => exact (guarded_live _).discard

end

/-- What a caller sees of a call and of the calls after it: the owner stays, whatever it answers. -/
inductive Runs (env : Platform) : PartyRuntime → List (Call × Except Error Unit) → PartyRuntime → Prop
  | done (s : PartyRuntime) : Runs env s [] s
  | call {s t u : PartyRuntime} {calls : List (Call × Except Error Unit)} (call : Call)
      (deny : ℕ → Option Error) (k : ℕ) {answer : Except Error Unit} {i : ℕ}
      (hcall : call.run env deny s k = (answer,t,i)) (hrest : Runs env t calls u) :
      Runs env s ((call,answer)::calls) u

section
variable {s t : PartyRuntime} {calls : List (Call × Except Error Unit)}

lemma Runs.retired (h : Runs env s calls t) (hs : Retired s) :
    Retired t ∧ ∀ entry∈calls, ∃ e, entry.2 = .error e := by
  induction h with
  | done s => exact ⟨hs,by simp⟩
  | call call deny k hcall hrest ih =>
    next s t u calls answer i =>
    have href := (call.guarded env).refuses deny s k hs
    cases answer with
    | ok a => exact (href.ok hcall).elim
    | error e =>
      obtain ⟨hu,hall⟩ := ih (href.error hcall)
      refine ⟨hu,fun entry hent => ?_⟩
      rcases List.mem_cons.mp hent with rfl | hmem
      · exact ⟨e,rfl⟩
      · exact hall entry hmem

lemma Runs.pairwise (h : Runs env s calls t) :
    calls.Pairwise fun earlier later => (∃ e, earlier.2 = .error e) → ∃ e, later.2 = .error e := by
  induction h with
  | done s => exact .nil
  | call call deny k hcall hrest ih =>
    next s t u calls answer i =>
    refine List.pairwise_cons.mpr ⟨fun later hlat herr => ?_,ih⟩
    obtain ⟨e,rfl⟩ := herr
    have hret := ((call.guarded env).retires deny s k).error hcall
    exact (hrest.retired hret).2 later hlat

end

end Pllm.Puma.Multiply
