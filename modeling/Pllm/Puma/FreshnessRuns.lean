import Pllm.Puma.Freshness

/-! The fill log of an owner over a run of calls. An operation in flight is due two cursors, which
its own calls reach and which no other call moves. -/
namespace Pllm.Puma
open Pllm.Lib Pllm.Lib.Exec SourceParty Cursors Platform

variable {α : Type} {call : Call} {calls : List (Call × Except Error Unit)}

namespace Multiply

/-- The public and the pair cursor that the operation in flight ends at. -/
def Phase.due (c : Cursors) : Phase → ℕ × ℕ
  | .planned plan =>
    if plan.rescale then (c.publicBlocks+1,c.pairBlocks+3*blockCount plan.lanes 8)
    else (c.publicBlocks,c.pairBlocks+blockCount plan.lanes 8)
  | .rotating plan _ =>
    if plan.rescale then (c.publicBlocks+1,c.pairBlocks+2*blockCount plan.lanes 8)
    else (c.publicBlocks,c.pairBlocks)
  | .boolean (.planned plan) => (c.publicBlocks,c.pairBlocks+blockCount plan.lanes plan.bytes)
  | .conversion (.planned plan) => (c.publicBlocks,plan.pairEnd)
  | .conversion (.split plan ..) => (c.publicBlocks,plan.pairEnd)
  | .conversion (.circuit work) => (c.publicBlocks,work.plan.pairEnd)
  | .booleanToArithmetic state => (c.publicBlocks,state.due c.pairBlocks)
  | _ => (c.publicBlocks,c.pairBlocks)

/-- The public and the pair cursor. -/
def PartyRuntime.spent (s : PartyRuntime) : ℕ × ℕ :=
  (s.source.cursors.publicBlocks,s.source.cursors.pairBlocks)

def PartyRuntime.due (s : PartyRuntime) : ℕ × ℕ := s.phase.due s.source.cursors

/-- A planned operation announces the ranges it will fill. -/
def Sane (s : PartyRuntime) : Prop :=
  match s.phase with
  | .planned plan => plan.zeroStart=s.source.cursors.pairBlocks
  | .booleanToArithmetic (.planned plan) => plan.Sound
  | _ => True

/-- What a successful call has done, and what any call has done. -/
structure Spends (s t : PartyRuntime) (cost : ℕ × ℕ) : Prop where
  sane : Sane t
  grows : Grows s.source t.source
  due : t.due=s.due+cost

/-- The owner moved on as its source did. -/
abbrev Kept (s t : PartyRuntime) : Prop := Grows s.source t.source

namespace PartyRuntime
variable {env : Platform} {β : Type} {s : PartyRuntime}

section
variable {good : β → PartyRuntime → Prop} {bad : PartyRuntime → Prop}
  {f : Unit → Exec Error PartyRuntime β} {base : SourceParty} {slot : Slot} {key : Block}
  {marks : Slot → ℕ}

/-- A call that leaves the cursors that are due. -/
abbrev Free (x : Exec Error PartyRuntime β) (s : PartyRuntime) : Prop :=
  Outcome x s (fun _ t => Spends s t 0) fun t => Sane t ∧ Kept s t

lemma kept : Kept s s := Grows.refl s.source

lemma outcome_guard {x : Exec Error PartyRuntime β} (h : Outcome x s good (Kept s)) :
    Outcome (Exec.checked cancel x) s good fun t => Sane t ∧ Kept s t :=
  .checked h fun _ hb => ⟨trivial,hb.cancel⟩

lemma outcome_live (h : bad s) (hf : Outcome (f ()) s good bad) :
    Outcome (live env >>= f) s good bad := by
  intro deny k
  simp only [live,onSource,SourceParty.live,wp_bind,wp_zoom,wp_require]
  exact ⟨fun _ => hf deny k,fun _ => h⟩

lemma outcome_requireReady (h : bad s) (hf : s.phase = .ready → Outcome (f ()) s good bad) :
    Outcome (requireReady >>= f) s good bad := by
  intro deny k
  simp only [requireReady,wp_bind,wp_read]
  cases hph : s.phase with
  | ready => exact hf hph deny k
  | _ => exact h

lemma outcome_planProduct (product : Product) (bounds : List InputBounds) (rescale : Bool)
    (certified : Option (Interval × BitVec 256)) :
    Outcome (planProductInner env product bounds rescale certified) s
      (fun plan t => s.phase = .ready ∧ t = { s with phase := .planned plan }
        ∧ plan.zeroStart=s.source.cursors.pairBlocks
        ∧ plan.lanes = productElements product bounds ∧ plan.rescale=rescale) (Kept s) := by
  have hln : ∀ {limits : Limits} {n : ℕ} {operation : Operation}, Operation.new s.source.context
      s.source.runtime.nextSequence .p0 n fractionBits limits = .ok operation →
      operation.lanes=n := fun h => by
    obtain ⟨rfl,-⟩ := Operation.new_eq_ok h
    rfl
  refine outcome_live kept (outcome_requireReady kept fun hrdy => .read ?_)
  refine .ofExcept kept fun bytes _ => .skip kept (fun deny k => ?_) fun working => ?_
  · cases product <;> simp
  refine .request kept ?_
  cases rescale with
  | false =>
    cases certified with
    | none =>
      refine .ofExcept kept fun _ _ => .ofExcept kept fun q _ => .ofExcept kept fun _ _ => ?_
      refine .require kept fun _ => .ofExcept kept fun _ _ => .ofExcept kept fun op hop => ?_
      exact .modify (.pure ⟨hrdy,rfl,rfl,show op.lanes=_ from hln hop,rfl⟩)
    | some certificate =>
      refine .ofExcept kept fun q _ => .ofExcept kept fun _ _ => ?_
      refine .require kept fun _ => .ofExcept kept fun _ _ => .ofExcept kept fun op hop => ?_
      exact .modify (.pure ⟨hrdy,rfl,rfl,show op.lanes=_ from hln hop,rfl⟩)
  | true =>
    cases certified
    all_goals
      refine .ofExcept kept fun _ _ => .ofExcept kept fun q _ => .ofExcept kept fun _ _ => ?_
      refine .require kept fun _ => .ofExcept kept fun _ _ => .ofExcept kept fun _ _ => ?_
      refine .ofExcept kept fun _ _ => .ofExcept kept fun _ _ => .ofExcept kept fun op hop => ?_
      exact .modify (.pure ⟨hrdy,rfl,rfl,show op.lanes=_ from hln hop,rfl⟩)

lemma outcome_bindOperand (operand : Operand) (value : ReplicatedShare) :
    Outcome (bindOperand env operand value) s (fun _ t => t=s) fun t => t=s.cancel := by
  refine .checked ?_ fun t (h : t=s) => h ▸ rfl
  refine outcome_live rfl (.read ?_)
  cases s.phase with
  | planned plan =>
    refine .require rfl fun _ => .require rfl fun _ => .require rfl fun _ => ?_
    exact outcome_charge rfl fun _ => .pure rfl
  | _ => exact .fail rfl

lemma outcome_consume (operation : Operation) :
    Outcome (consumeOrdinal operation) s
      (fun _ t => ∃ runtime, t = { s with source := { s.source with runtime := runtime } })
      fun t => ∃ runtime, t = { s with source := { s.source with runtime := runtime } } := by
  unfold consumeOrdinal onSource
  refine .zoom ((outcome_onRuntime _ s.source).mono ?_ ?_)
  · rintro _ t ⟨runtime,rfl⟩
    exact ⟨runtime,rfl⟩
  · rintro t ⟨runtime,rfl⟩
    exact ⟨runtime,rfl⟩

lemma outcome_consumeOrdinal {operation : Operation} (h : Grows base s.source)
    (hf : ∀ runtime, Outcome (f ()) { s with source := { s.source with runtime := runtime } } good
      fun t => Grows base t.source) :
    Outcome (consumeOrdinal operation >>= f) s good fun t => Grows base t.source := by
  refine .bind ((outcome_consume operation).mono (fun _ _ hg => hg) ?_) ?_
  · rintro t ⟨runtime,rfl⟩
    exact h.withRuntime runtime
  · rintro _ t ⟨runtime,rfl⟩
    exact hf runtime

lemma outcome_setCursors {g : Cursors → Cursors}
    (hf : Outcome (f ()) { s with source := { s.source with cursors := g s.source.cursors } } good
      bad) : Outcome (onSource (SourceParty.setCursors g) >>= f) s good bad := hf

variable {f : Words → Exec Error PartyRuntime β}

/-- A fill of the owner on the way from a source. -/
lemma outcome_ownerExpand {start n : ℕ}
    (h : Filling base s.source marks) (hst : marks slot ≤ start)
    (hend : start+blockCount n 8 ≤ s.source.cursors.bound slot)
    (hf : ∀ a v, Filling base v (Function.update marks slot (start+blockCount n 8)) →
      v = { s.source with fills := s.source.fills++[⟨slot,start,blockCount n 8⟩] } →
      Outcome (f a) { s with source := v } good fun t => Grows base t.source) :
    Outcome (onSource (SourceParty.expand env slot key start n) >>= f) s good
      fun t => Grows base t.source := by
  have hg := h.grows
  intro deny k
  simp only [onSource,SourceParty.expand,SourceParty.fill,Puma.zeros,wp_bind,wp_zoom,
    wp_ofExcept,wp_modify,wp_pure,wp_require,wp_request]
  exact ⟨fun _ _ => ⟨fun _ _ => ⟨fun _ => ⟨fun _ => ⟨fun a ha =>
    hf a _ (h.fill (fill_done slot ha) hst hend) rfl deny _,fun _ _ => hg⟩,fun _ _ => hg⟩,fun _ => hg⟩,
    fun _ _ => hg⟩,fun _ _ => hg⟩

lemma outcome_ownerFill {start words bytes : ℕ}
    (h : Filling base s.source marks) (hst : marks slot ≤ start)
    (hend : start+blockCount words bytes ≤ s.source.cursors.bound slot)
    (hf : ∀ a v, Filling base v (Function.update marks slot (start+blockCount words bytes)) →
      v = { s.source with fills := s.source.fills++[⟨slot,start,blockCount words bytes⟩] } →
      Outcome (f a) { s with source := v } good fun t => Grows base t.source) :
    Outcome (onSource (SourceParty.fill env slot key start words bytes) >>= f) s good
      fun t => Grows base t.source := by
  intro deny k
  simp only [onSource,SourceParty.fill,wp_bind,wp_zoom,wp_ofExcept,wp_pure]
  exact ⟨fun a ha => hf a _ (h.fill (fill_done slot ha) hst hend) rfl deny k,fun _ _ => h.grows⟩

/-- What a product does after its ordinal. -/
lemma outcome_accumulate {plan : Plan} (hph : s.phase = .planned plan)
    (hst : plan.zeroStart=s.source.cursors.pairBlocks) (left right : ReplicatedShare)
    (runtime : Puma.PartyRuntime) (header : Header) :
    Outcome (do
        let pairEnd ← Exec.ofExcept (checkedAdd plan.zeroStart (blockCount plan.lanes 8))
        onSource (SourceParty.setCursors fun c => { c with pairBlocks := pairEnd })
        let work ← Exec.ofExcept (s.source.work (2*blockCount plan.lanes 8))
        onSource (SourceParty.setCursors fun c => { c with aesWork := work })
        let seeds ← Exec.expect s.source.seeds .retired
        let own ← onSource (SourceParty.expand env .own seeds.own plan.zeroStart plan.lanes)
        let nextSeed ← Exec.expect seeds.next .retired
        let next ← onSource (SourceParty.expand env .next nextSeed plan.zeroStart plan.lanes)
        let product := tabulate plan.lanes fun i =>
          accumulate plan.product left right (lane own i-lane next i) i
        let words ← copy product plan.lanes
        setPhase (.rotating plan product)
        return Message.mk header words) { s with source := { s.source with runtime := runtime } }
      (fun _ t => Spends s t 0) (Kept s) := by
  refine .ofExcept (kept.withRuntime runtime) fun pairEnd hend => ?_
  obtain ⟨rfl,-⟩ := checkedAdd_eq_ok hend
  rw [hst]
  refine outcome_setCursors ?_
  have h0 : Grows s.source { s.source with
      runtime := runtime
      cursors := { s.source.cursors with
        pairBlocks := s.source.cursors.pairBlocks+blockCount plan.lanes 8 } } :=
    .of_cursors ⟨le_rfl,le_self_add,le_rfl,le_rfl⟩ rfl
  refine .ofExcept h0 fun work hwork => ?_
  obtain ⟨rfl,-,-⟩ := SourceParty.work_eq_ok hwork
  refine outcome_setCursors ?_
  have hfill : Filling s.source { s.source with
      runtime := runtime
      cursors := { s.source.cursors with
        pairBlocks := s.source.cursors.pairBlocks+blockCount plan.lanes 8
        aesWork := s.source.cursors.aesWork+2*blockCount plan.lanes 8 } } s.source.cursors.bound :=
    .start ⟨le_rfl,le_self_add,le_rfl,le_self_add⟩ rfl
  have h1 := hfill.grows
  refine .expect h1 fun seeds _ => ?_
  refine outcome_ownerExpand hfill le_rfl le_rfl fun own a ha haeq => ?_
  refine .expect ha.grows fun next _ => ?_
  refine outcome_ownerExpand ha (by simp [Cursors.bound]) (by simp [Cursors.bound,haeq])
    fun adjacent b hb hbeq => ?_
  refine outcome_copy hb.grows fun _ => .modify (.pure ⟨trivial,hb.grows,?_⟩)
  cases hrsc : plan.rescale with
  | false => simp [due,Phase.due,hph,hrsc,hbeq,haeq]
  | true =>
    simp [due,Phase.due,hph,hrsc,hbeq,haeq]
    omega

lemma outcome_beginProduct (hs : Sane s) (left right : ReplicatedShare) :
    Outcome (beginInner env left right) s (fun _ t => Spends s t 0) (Kept s) := by
  refine outcome_live kept (.read ?_)
  cases hph : s.phase with
  | planned plan =>
    have hst : plan.zeroStart=s.source.cursors.pairBlocks := by
      simpa only [Sane,hph] using hs
    refine .require kept fun _ => .require kept fun _ => ?_
    refine outcome_charge kept fun _ => outcome_charge kept fun _ => ?_
    refine .ofExcept kept fun q hq => ?_
    obtain ⟨-,-,-,rfl⟩ := typedBlocks_eq_ok hq
    have htail := @outcome_accumulate env s plan hph hst left right
    -- a raw product consumes its ordinal here, one that is rescaled with its truncation
    cases hrsc : plan.rescale with
    | false =>
      exact outcome_consumeOrdinal kept fun runtime => htail runtime _
    | true =>
      exact htail s.source.runtime _
  | _ => exact .fail kept

end

/-- Programs of the source that touch neither its cursors nor its log. -/
def Still (s t : SourceParty) : Prop := t.cursors=s.cursors ∧ t.fills=s.fills

section
variable {good : β → PartyRuntime → Prop} {bad : PartyRuntime → Prop}
  {f : Unit → Exec Error PartyRuntime β}

lemma Still.grows {s t : SourceParty} (h : Still s t) : Grows s t := .of_cursors (h.1 ▸ .refl _) h.2

lemma outcome_still {x : Exec Error Puma.PartyRuntime β} (source : SourceParty) :
    Outcome (Exec.checked SourceParty.cancel (do SourceParty.live env; SourceParty.onRuntime x)) source
      (fun _ t => Still source t) (Still source) := by
  refine .checked ?_ fun t (h : Still source t) => h
  refine Multiply.outcome_live env ⟨rfl,rfl⟩ ?_
  refine (outcome_onRuntime x source).mono ?_ ?_
  · rintro _ t ⟨runtime,rfl⟩
    exact ⟨rfl,rfl⟩
  · rintro t ⟨runtime,rfl⟩
    exact ⟨rfl,rfl⟩

lemma outcome_onSource {x : Exec Error SourceParty α} (mid : α → SourceParty → Prop)
    {base : SourceParty} {f : α → Exec Error PartyRuntime β}
    (hx : Outcome x s.source mid (Grows base))
    (hf : ∀ a v, mid a v → Outcome (f a) { s with source := v } good fun t => Grows base t.source) :
    Outcome (onSource x >>= f) s good fun t => Grows base t.source := by
  refine Outcome.via (fun a t => mid a t.source ∧ t = { s with source := t.source })
    (.zoom (hx.mono (fun a t h => ⟨h,rfl⟩) fun _ h => h)) ?_
  rintro a ⟨v,phase⟩ ⟨hmid,heq⟩
  rw [heq]
  exact hf a v hmid

lemma outcome_takePhase {f : Phase → Exec Error PartyRuntime β}
    (hf : Outcome (f s.phase) { s with phase := .retired } good bad) :
    Outcome (takePhase >>= f) s good bad := hf

lemma outcome_chargeFrame (h : bad s) (hf : Outcome (f ()) s good bad) :
    Outcome (charge >>= f) s good bad := .request h hf

/-- A truncation ends two pair ranges further on. -/
lemma outcome_beginTruncation {op : Operation} {setup : BitVec 256} {publicStart maskStart : ℕ}
    (hs : op.source = some ⟨setup,publicStart,maskStart,maskStart+blockCount op.lanes 8⟩)
    (first second : Words) :
    Outcome (beginTruncation env op first second) s
      (fun _ t => Sane t ∧ Kept s t ∧ t.due=t.spent ∧ t.due = (s.source.cursors.publicBlocks,
        s.source.cursors.pairBlocks+2*blockCount op.lanes 8)) (Kept s) := by
  refine .read ?_
  refine outcome_onSource (fun _ v => v = { s.source with pending := some op }) ?_ ?_
  · exact fun deny k => rfl
  rintro _ v rfl
  refine outcome_onSource (fun _ t => Moves s.source t s.source.cursors.publicBlocks
    (s.source.cursors.pairBlocks+2*blockCount op.lanes 8)) ?_ fun messages v hv => ?_
  · have hpnd : Grows s.source { s.source with pending := some op } := .of_cursors (.refl _) rfl
    exact (outcome_beginRound env _ rfl hs).mono
      (fun _ t ht => ⟨hpnd.trans ht.grows,ht.publicBlocks,ht.pairBlocks⟩)
      fun t ht => hpnd.trans ht
  · refine .modify (.pure ⟨trivial,hv.grows,rfl,?_⟩)
    simp [due,Phase.due,hv.publicBlocks,hv.pairBlocks]

lemma outcome_rotate (next : Message) : Free (rotate env next) s := by
  refine outcome_guard (outcome_live kept (outcome_takePhase ?_))
  cases hph : s.phase with
  | rotating plan product =>
    refine .read (.ofExcept kept fun _ _ => outcome_chargeFrame kept ?_)
    cases hrsc : plan.rescale with
    | false =>
      refine .modify (.pure ⟨trivial,kept,?_⟩)
      simp [due,Phase.due,hph,hrsc]
    | true =>
      refine outcome_onSource _ (outcome_plan env plan.lanes fractionBits s.source) ?_
      rintro op v ⟨hln,⟨setup,publicStart,hsrc⟩,hmov⟩
      refine (outcome_beginTruncation (s := ⟨v,.retired⟩) (by simpa [hln] using hsrc) _ _).mono
        ?_ fun t ht => hmov.grows.trans ht
      rintro _ t ⟨hsane,hkept,-,hdue⟩
      refine ⟨hsane,hmov.grows.trans hkept,hdue.trans ?_⟩
      simp [due,Phase.due,hph,hrsc,hmov.publicBlocks,hmov.pairBlocks,hln]
  | _ => exact .fail kept

lemma outcome_truncating (h : bad s) (hf : ∀ operation, s.phase = .truncating operation →
    Outcome (f ()) s good bad) : Outcome (truncating env >>= f) s good bad := by
  refine Outcome.via (fun _ t => t=s ∧ ∃ operation, s.phase = .truncating operation)
    (outcome_live h (.read ?_)) ?_
  · cases hph : s.phase with
    | truncating operation => exact .pure ⟨rfl,operation,rfl⟩
    | _ => exact .fail h
  · rintro _ t ⟨rfl,operation,hph⟩
    exact hf operation hph

lemma outcome_openRound (peer correlation : Message) : Free (openRound env peer correlation) s := by
  refine outcome_guard (outcome_truncating kept fun operation hph => ?_)
  refine .zoom ((outcome_still s.source).mono ?_ fun t ht => ht.grows)
  intro _ t ht
  exact ⟨by simp [Sane,hph],ht.grows,by simp [due,Phase.due,hph,ht.1]⟩

lemma outcome_reshare (peer : Message) : Free (reshare env peer) s := by
  refine outcome_guard (outcome_truncating kept fun operation hph => ?_)
  refine .zoom ((outcome_still s.source).mono ?_ fun t ht => ht.grows)
  intro _ t ht
  exact ⟨by simp [Sane,hph],ht.grows,by simp [due,Phase.due,hph,ht.1]⟩

lemma outcome_takeOutput : Free (takeOutput env) s := by
  have htru : Outcome (do
      truncating env
      let output ← onSource (SourceParty.takeOutput env)
      setPhase .ready
      return output) s (fun _ t => Spends s t 0) (Kept s) := by
    refine outcome_truncating kept fun operation hph => ?_
    refine outcome_onSource _ ((outcome_still s.source).mono (fun _ _ h => h) fun _ h => h.grows) ?_
    intro _ v hv
    exact .modify (.pure ⟨trivial,hv.grows,by simp [due,Phase.due,hph,hv.1]⟩)
  refine outcome_guard (outcome_live kept (.read ?_))
  cases hph : s.phase with
  | rawComplete output =>
    exact .modify (.pure ⟨trivial,kept,by simp [due,Phase.due,hph]⟩)
  | booleanToArithmetic state =>
    cases state with
    | complete output =>
      refine .modify (.pure ⟨trivial,kept,?_⟩)
      simp [due,Phase.due,BooleanToArithmetic.State.due,hph]
    | _ => exact .fail kept
  | _ => exact htru

lemma outcome_planAnd (lanes leftBits rb : ℕ) :
    Outcome (planAnd env lanes leftBits rb) s
      (fun plan t => s.phase = .ready ∧ t = { s with phase := .boolean (.planned plan) }
        ∧ plan.lanes=lanes ∧ plan.bytes = Conversion.backing (max leftBits rb))
      fun t => Sane t ∧ Kept s t := by
  refine outcome_guard (outcome_live kept (outcome_requireReady kept fun hrdy => ?_))
  refine .ofExcept kept fun _ _ => .ofExcept kept fun _ _ => .ofExcept kept fun bytes hb => ?_
  obtain ⟨-,rfl⟩ := wordBytes_eq_ok hb
  refine .read (.ofExcept kept fun _ _ => .request kept ?_)
  refine .ofExcept kept fun _ _ => .ofExcept kept fun _ _ => .ofExcept kept fun _ _ => ?_
  refine .ofExcept kept fun op hop => ?_
  obtain ⟨rfl,-⟩ := Operation.new_eq_ok hop
  exact .modify (.pure ⟨hrdy,rfl,rfl,rfl⟩)

lemma outcome_bindAndOperand (operand : Operand) (value : Boolean.Share) :
    Outcome (bindAndOperand env operand value) s (fun _ t => t=s) fun t => t=s.cancel := by
  refine .checked ?_ fun t (h : t=s) => h ▸ rfl
  refine outcome_live rfl (.read ?_)
  cases s.phase with
  | boolean state =>
    cases state with
    | planned plan =>
      refine .require rfl fun _ => .require rfl fun _ => .require rfl fun _ => ?_
      exact outcome_charge rfl fun _ => .pure rfl
    | _ => exact .fail rfl
  | _ => exact .fail rfl

lemma outcome_beginAnd (left right : Boolean.Share) : Free (beginAnd env left right) s := by
  refine outcome_guard (outcome_live kept (.read ?_))
  cases hph : s.phase with
  | boolean state =>
    cases state with
    | planned plan =>
      refine .ofExcept kept fun _ _ => outcome_consumeOrdinal kept fun runtime => ?_
      have hrunt := (Grows.refl s.source).withRuntime runtime
      refine outcome_onSource _ ((outcome_issue env plan left right _).mono (fun _ _ h => h)
        fun _ h => hrunt.trans h) fun out v hv => .modify (.pure ⟨trivial,?_,?_⟩)
      · exact hrunt.trans hv.2.grows
      · simp [due,Phase.due,hph,hv.2.publicBlocks,hv.2.pairBlocks]
    | _ => exact .fail kept
  | _ => exact .fail kept

lemma outcome_receiveAnd (message : Message) : Free (receiveAnd env message) s := by
  refine outcome_guard (outcome_live kept (outcome_takePhase ?_))
  cases hph : s.phase with
  | boolean state =>
    cases state with
    | rotating gate =>
      refine outcome_onSource (fun _ v => v=s.source) (fun deny k => ?_) fun share v hv => ?_
      · simp [Boolean.Gate.receive,charge,Grows.refl]
      · subst hv
        exact fun deny k => ⟨trivial,kept,by simp [due,Phase.due,hph]⟩
    | _ => exact .fail kept
  | _ => exact .fail kept

lemma outcome_takeBooleanOutput : Free (takeBooleanOutput env) s := by
  refine outcome_guard (outcome_live kept (outcome_takePhase ?_))
  cases hph : s.phase with
  | boolean state | conversion state =>
    cases state with
    | complete output => exact .modify (.pure ⟨trivial,kept,by simp [due,Phase.due,hph]⟩)
    | _ => exact .fail kept
  | _ => exact .fail kept

end

/-- The pair blocks of an arithmetic-to-Boolean conversion. -/
def conversionBlocks (lanes : ℕ) (kind : Conversion.Kind) : ℕ :=
  2*blockCount lanes (Conversion.backing kind.width)+((List.range kind.rounds).map fun r =>
    blockCount (2*lanes) (Conversion.backing (kind.roundBits (r+1)))).sum

lemma foldlM_blocks {lanes : ℕ} {bytes : ℕ → ℕ} {rounds : List ℕ} {init count : ℕ}
    (h : rounds.foldlM (fun count r => do return count+(← typedBlocks lanes (bytes r))) init
      = .ok count) : count = init+(rounds.map fun r => blockCount lanes (bytes r)).sum := by
  induction rounds generalizing init with
  | nil => simpa using (ok_inj h).symm
  | cons r rounds ih =>
    obtain ⟨next,hnext,hrest⟩ := bind_eq_ok.mp h
    obtain ⟨q,hq,hsum⟩ := bind_eq_ok.mp hnext
    obtain ⟨-,-,-,rfl⟩ := typedBlocks_eq_ok hq
    obtain rfl := ok_inj hsum
    rw [ih hrest,List.map_cons,List.sum_cons,add_assoc]

lemma outcome_planConversion (lanes : ℕ) (kind : Conversion.Kind) :
    Outcome (planConversion env lanes kind) s
      (fun plan t => s.phase = .ready ∧ t = { s with phase := .conversion (.planned plan) }
        ∧ plan.pairEnd = s.source.cursors.pairBlocks+conversionBlocks lanes kind)
      fun t => Sane t ∧ Kept s t := by
  refine outcome_guard (outcome_live kept (outcome_requireReady kept fun hrdy => .read ?_))
  refine .require kept fun _ => .ofExcept kept fun _ _ => .request kept ?_
  refine .ofExcept kept fun single hsin => .ofExcept kept fun count hcnt => ?_
  obtain ⟨-,-,-,rfl⟩ := typedBlocks_eq_ok hsin
  obtain rfl := foldlM_blocks hcnt
  refine .ofExcept kept fun pairEnd hend => .ofExcept kept fun _ _ => .ofExcept kept fun op _ => ?_
  obtain ⟨rfl,-⟩ := checkedAdd_eq_ok hend
  exact .modify (.pure ⟨hrdy,rfl,rfl⟩)

variable (input : ReplicatedShare)

lemma outcome_bindConversionInput :
    Outcome (bindConversionInput env input) s (fun _ t => t=s) fun t => t=s.cancel := by
  refine .checked ?_ fun t (h : t=s) => h ▸ rfl
  refine outcome_live rfl (.read ?_)
  cases s.phase with
  | conversion state =>
    cases state with
    | planned plan =>
      refine .require rfl fun _ => .require rfl fun _ => .require rfl fun _ => ?_
      exact outcome_charge rfl fun _ => .pure rfl
    | _ => exact .fail rfl
  | _ => exact .fail rfl

lemma outcome_beginConversion : Free (beginConversion env input) s := by
  refine outcome_guard (outcome_live kept (.read ?_))
  cases hph : s.phase with
  | conversion state =>
    cases state with
    | planned plan =>
      refine .require kept fun _ => .require kept fun _ => .require kept fun hst => ?_
      refine outcome_consumeOrdinal kept fun runtime => ?_
      have hrunt := (Grows.refl s.source).withRuntime runtime
      refine .ofExcept hrunt fun q hq => ?_
      obtain ⟨-,-,-,rfl⟩ := typedBlocks_eq_ok hq
      refine .ofExcept hrunt fun work hwork => ?_
      obtain ⟨rfl,-,-⟩ := work_eq_ok hwork
      refine outcome_setCursors ?_
      have hfill : Filling s.source { s.source with
          runtime := runtime
          cursors := { s.source.cursors with
            pairBlocks := s.source.cursors.pairBlocks
              +blockCount plan.lanes (Conversion.backing plan.kind.width)
            aesWork := s.source.cursors.aesWork
              +2*blockCount plan.lanes (Conversion.backing plan.kind.width) } }
          s.source.cursors.bound :=
        .start ⟨le_rfl,le_self_add,le_rfl,le_self_add⟩ rfl
      have h0 := hfill.grows
      refine outcome_charge h0 fun _ => outcome_zeros h0 fun _ => outcome_zeros h0 fun _ => .expect h0 fun seeds _ => ?_
      rw [←hst]
      refine outcome_ownerFill hfill le_rfl le_rfl fun own a ha haeq => ?_
      refine .expect ha.grows fun next _ => ?_
      refine outcome_ownerFill ha (by simp [bound]) (by simp [bound,haeq])
        fun adjacent b hb hbeq => ?_
      refine outcome_copy hb.grows fun _ => .modify (.pure ⟨trivial,hb.grows,?_⟩)
      simp [due,Phase.due,hph,hbeq,haeq]
    | _ => exact .fail kept
  | _ => exact .fail kept

lemma outcome_advanceConversion (message : Message) : Free (advanceConversion env message) s := by
  refine outcome_guard (outcome_live kept (outcome_takePhase ?_))
  cases hph : s.phase with
  | conversion state =>
    cases state with
    | split plan first other =>
      refine .read (.ofExcept kept fun _ _ => .require kept fun _ => ?_)
      refine outcome_chargeFrame kept ?_
      refine outcome_onSource _ (outcome_start env plan _ _ s.source) fun out v hv => ?_
      refine .modify (.pure ⟨trivial,hv.2.grows,?_⟩)
      simp [due,Phase.due,hph,hv.2.publicBlocks,hv.1]
    | circuit work =>
      refine outcome_onSource _ (outcome_advance env work message s.source) fun out v hv => ?_
      obtain ⟨state,outgoing⟩ := out
      obtain ⟨hat,hpass⟩ := hv
      refine .modify (.pure ⟨trivial,hpass.grows,?_⟩)
      cases state with
      | circuit next =>
        have hplan : next.plan=work.plan := hat
        simp [due,Phase.due,hph,hpass.publicBlocks,hplan]
      | complete share =>
        have hend : v.cursors.pairBlocks=work.plan.pairEnd := hat
        simp [due,Phase.due,hph,hpass.publicBlocks,hend]
      | planned plan => exact absurd hat id
      | split plan first other => exact absurd hat id
    | _ => exact .fail kept
  | _ => exact .fail kept

/-- The cursors that a Boolean-to-arithmetic conversion of so many lanes and bits spends. -/
def arithmeticCost (lanes bits : ℕ) : ℕ × ℕ :=
  if bits>8 then (0,3*blockCount lanes 8+6*blockCount (2*lanes) 8)
  else if bits=0 then (0,0)
  else (1,3*blockCount (lanes*bits) 8)

lemma arithmetic_blocks {lanes bits q double : ℕ}
    (hq : (if bits = 0 then .ok 0 else if decide (bits>8) = true then blocks lanes
      else blocks (lanes*bits))=Except.ok q)
    (hdou : (if decide (bits>8) = true then blocks (2*lanes) else .ok 0) = Except.ok double) :
    3*q+6*double = (arithmeticCost lanes bits).2 := by
  by_cases hppa : bits>8
  · rw [if_neg (by omega),if_pos (by simpa using hppa)] at hq
    rw [if_pos (by simpa using hppa)] at hdou
    obtain ⟨-,-,-,rfl⟩ := typedBlocks_eq_ok hq
    obtain ⟨-,-,-,rfl⟩ := typedBlocks_eq_ok hdou
    simp [arithmeticCost,hppa]
  · rw [if_neg (by simpa using hppa)] at hdou
    obtain rfl := ok_inj hdou
    by_cases hzero : bits=0
    · rw [if_pos hzero] at hq
      obtain rfl := ok_inj hq
      simp [arithmeticCost,hzero]
    · rw [if_neg hzero,if_neg (by simpa using hppa)] at hq
      obtain ⟨-,-,-,rfl⟩ := typedBlocks_eq_ok hq
      simp [arithmeticCost,hppa,hzero]

lemma outcome_planBooleanToArithmetic (input : Boolean.Share) :
    Outcome (planBooleanToArithmetic env input) s
      (fun _ t => Spends s t (arithmeticCost input.value.operation.lanes input.bits)
        ∧ s.phase = .ready
        ∧ t.spent = s.spent+((arithmeticCost input.value.operation.lanes input.bits).1,0))
      fun t => Sane t ∧ Kept s t := by
  refine outcome_guard (outcome_live kept (outcome_requireReady kept fun hrdy => .read ?_))
  refine .require kept fun _ => .require kept fun _ => .require kept fun _ => ?_
  refine .ofExcept kept fun _ _ => .request kept ?_
  refine .ofExcept kept fun q hq => .ofExcept kept fun double hdou => ?_
  have hblo := arithmetic_blocks hq hdou
  refine .ofExcept kept fun pairEnd hend => ?_
  obtain ⟨rfl,-⟩ := checkedAdd_eq_ok hend
  refine .ofExcept kept fun op hop => ?_
  -- the pivot is a public draw on the transfer path only
  refine Outcome.via (fun _ t => Kept s t
    ∧ t.source.cursors.publicBlocks = s.source.cursors.publicBlocks
      +(arithmeticCost input.value.operation.lanes input.bits).1
    ∧ t.source.cursors.pairBlocks = s.source.cursors.pairBlocks) ?_ ?_
  · by_cases hppa : input.bits>8
    · simp only [hppa]
      exact .ofExcept kept fun _ _ => .pure ⟨kept,by simp [arithmeticCost,hppa],rfl⟩
    · by_cases hzero : input.bits=0
      · simp only [hzero,ne_eq,not_true_eq_false]
        exact .pure ⟨kept,by simp [arithmeticCost],rfl⟩
      · simp only [hppa,hzero,decide_false,Bool.false_eq_true,if_false,ne_eq,not_false_eq_true,
          if_true]
        refine .ofExcept kept fun _ _ => .ofExcept kept fun publicEnd hpub => ?_
        obtain ⟨rfl,-⟩ := checkedAdd_eq_ok hpub
        refine .ofExcept kept fun work hwork => ?_
        obtain ⟨rfl,-,-⟩ := work_eq_ok hwork
        refine outcome_setCursors ?_
        have hfill : Filling s.source { s.source with
            cursors := { s.source.cursors with
              publicBlocks := s.source.cursors.publicBlocks+1
              aesWork := s.source.cursors.aesWork+1 } } s.source.cursors.bound :=
          .start ⟨le_self_add,le_rfl,le_rfl,le_self_add⟩ rfl
        refine outcome_ownerFill hfill le_rfl (by simp [bound,blockCount])
          fun word a ha haeq => ?_
        intro deny k
        rw [wp_ofExcept]
        refine ⟨fun _ _ => ⟨ha.grows,?_,?_⟩,fun _ _ => ha.grows⟩
        · simp [haeq,arithmeticCost,hppa,hzero]
        · simp [haeq]
  · rintro role t ⟨hkept,hpub,hpair⟩
    refine .modify (.pure ⟨⟨?_,hkept,?_⟩,hrdy,by simp [spent,hpub,hpair]⟩)
    · refine ⟨fun hzero => ?_,fun hzero hle => ?_⟩
      · have hbits : input.bits=0 := hzero
        simp only [hblo,arithmeticCost,hbits]
        simp
      · have hbits : input.bits≠0 := hzero
        have hlow : ¬input.bits>8 := by
          have : input.bits≤8 := hle
          omega
        have hln : op.lanes=input.value.operation.lanes := by
          obtain ⟨rfl,-⟩ := Operation.new_eq_ok hop
          rfl
        simp only [hblo,arithmeticCost,if_neg hbits,if_neg hlow,
          BooleanToArithmetic.Plan.expanded,BooleanToArithmetic.Plan.lanes,hln]
    · simp [due,Phase.due,hrdy,hpub,hblo]
      rfl

lemma outcome_beginBooleanToArithmetic (hs : Sane s) (input : Boolean.Share) :
    Free (beginBooleanToArithmetic env input) s := by
  refine outcome_guard (outcome_live kept (.read ?_))
  cases hph : s.phase with
  | booleanToArithmetic state =>
    cases state with
    | planned plan =>
      have hplan : plan.Sound := by simpa only [Sane,hph] using hs
      refine .require kept fun hbin => .require kept fun _ => ?_
      refine outcome_consumeOrdinal kept fun runtime => ?_
      have hrunt := (Grows.refl s.source).withRuntime runtime
      refine outcome_charge hrunt fun _ => ?_
      refine outcome_onSource _ ((outcome_b2aIssue env plan input
        (s := { s.source with runtime := runtime }) hbin.2.2.symm hplan).mono (fun _ _ h => h)
        fun _ h => hrunt.trans h) fun out v hv => ?_
      obtain ⟨state,messages⟩ := out
      obtain ⟨hdue,hbeg,hpass⟩ := hv
      refine .modify (.pure ⟨?_,hrunt.trans hpass.grows,?_⟩)
      · cases state with
        | planned plan => exact absurd hbeg id
        | _ => trivial
      · have hsta : state.due v.cursors.pairBlocks=plan.pairEnd := hdue
        rw [due,due,hph]
        simp only [Phase.due,hpass.publicBlocks,hsta]
        rfl
    | _ => exact .fail kept
  | _ => exact .fail kept

variable {bad : PartyRuntime → Prop}

lemma outcome_acceptFrame {plan : BooleanToArithmetic.Plan} {phase : MessagePhase} {message :
    Message} {good : β → PartyRuntime → Prop} (h : bad s) (hf : ∀ a, Outcome (f a) s good bad) :
    Outcome (onSource (plan.accept env phase message) >>= f) s good bad := by
  refine .skip h (fun deny k => ?_) hf
  simp [onSource,BooleanToArithmetic.Plan.accept,Puma.charge]

lemma outcome_receiveBooleanToArithmetic (messages : Option Message
    × Option Message × Option Message) : Free (receiveBooleanToArithmetic env messages) s := by
  refine outcome_guard (outcome_live kept (outcome_takePhase ?_))
  split
  · next plan first reply hph =>
    refine outcome_acceptFrame kept fun second => .read (.modify (.pure ⟨trivial,kept,?_⟩))
    simp [due,Phase.due,BooleanToArithmetic.State.due,hph]
  · next plan choices second mc m0 m1 hph =>
    refine outcome_acceptFrame kept fun mc => outcome_acceptFrame kept fun m0 => ?_
    refine outcome_acceptFrame kept fun m1 => outcome_zeros kept fun _ => outcome_copy kept fun _ => ?_
    refine .ofExcept kept fun _ _ => .read (.modify (.pure ⟨trivial,kept,?_⟩))
    simp [due,Phase.due,BooleanToArithmetic.State.due,hph]
  · exact .fail kept

lemma outcome_advanceBooleanToArithmetic (message : Message) :
    Free (advanceBooleanToArithmetic env message) s := by
  refine outcome_guard (outcome_live kept (outcome_takePhase ?_))
  cases hph : s.phase with
  | booleanToArithmetic state =>
    cases state with
    | ppa state =>
      refine outcome_onSource _ (outcome_ppaAdvance env state message s.source) fun out v hv => ?_
      obtain ⟨next,replies⟩ := out
      obtain ⟨hdue,hbeg,hpass⟩ := hv
      refine .modify (.pure ⟨?_,hpass.grows,?_⟩)
      · cases next with
        | planned plan => exact absurd hbeg id
        | _ => trivial
      · have hnext : next.due v.cursors.pairBlocks
            = (BooleanToArithmetic.State.ppa state).due s.source.cursors.pairBlocks := hdue
        simp [due,Phase.due,hph,hpass.publicBlocks,hnext]
    | _ => exact .fail kept
  | _ => exact .fail kept

lemma outcome_beginRescale (shift : ℕ) (bounds : Interval) : Outcome (beginRescale env input shift
    bounds) s (fun _ t => Spends s t (1,2*blockCount input.operation.lanes 8) ∧ s.phase = .ready ∧
    t.spent = s.spent+(1,2*blockCount input.operation.lanes 8)) fun t => Sane t ∧ Kept s t := by
  refine outcome_guard (outcome_live kept (outcome_requireReady kept fun hrdy => .read ?_))
  refine .ofExcept kept fun _ _ => .ofExcept kept fun _ _ => .ofExcept kept fun _ _ => ?_
  refine .request kept (.ofExcept kept fun _ _ => .ofExcept kept fun _ _ => ?_)
  refine .ofExcept kept fun _ _ => ?_
  refine outcome_onSource _ (outcome_plan env input.operation.lanes shift s.source) ?_
  rintro op v ⟨hln,⟨setup,publicStart,hsrc⟩,hmov⟩
  refine Outcome.bind ((outcome_beginTruncation (s := ⟨v,s.phase⟩)
    (by simpa [hln] using hsrc) _ _).mono (fun _ _ h => h)
    fun t ht => hmov.grows.trans ht) ?_
  rintro messages t ⟨hsane,hkept,hspt,hdue⟩
  have hend : t.due=s.spent+(1,2*blockCount input.operation.lanes 8) := by
    rw [hdue]
    simp [spent,hmov.publicBlocks,hmov.pairBlocks,hln]
  refine .pure ⟨⟨hsane,hmov.grows.trans hkept,hend.trans ?_⟩,hrdy,hspt.symm.trans hend⟩
  simp [due,spent,Phase.due,hrdy]

end PartyRuntime

/-- What a planner is asked for. -/
inductive Request
  | product (product : Product) (bounds : List InputBounds) (rescale : Bool)
    (certified : Option (Interval × BitVec 256))
  | conjunction (compact : Bool) (lanes leftBits rb : ℕ)
  | conversion (lanes : ℕ) (kind : Conversion.Kind)
  | arithmetic (lanes bits : ℕ)
  | rescale (lanes shift : ℕ) (bounds : Interval)

/-- The request of a call that plans. -/
def Call.request : Call → Option Request
  | planProduct product bounds rescale certified => some (.product product bounds rescale certified)
  | planAnd lanes leftBits rb => some (.conjunction false lanes leftBits rb)
  | planAndCompact lanes leftBits rb => some (.conjunction true lanes leftBits rb)
  | planConversion lanes kind => some (.conversion lanes kind)
  | planBooleanToArithmetic input => some (.arithmetic input.value.operation.lanes input.bits)
  | beginRescale input shift bounds => some (.rescale input.operation.lanes shift bounds)
  | _ => none

/-- The public and the pair blocks of an operation. -/
def Request.cost : Request → ℕ × ℕ
  | .product factors bounds rescaled _ =>
    let q := blockCount (productElements factors bounds) 8
    if rescaled then (1,3*q) else (0,q)
  | .conjunction _ lanes leftBits rb =>
    (0,blockCount lanes (Conversion.backing (max leftBits rb)))
  | .conversion lanes kind => (0,PartyRuntime.conversionBlocks lanes kind)
  | .arithmetic lanes bits => PartyRuntime.arithmeticCost lanes bits
  | .rescale lanes _ _ => (1,2*blockCount lanes 8)

/-- What planning alone draws; a rescale plans and begins at once. -/
def Request.drawn : Request → ℕ × ℕ
  | .arithmetic lanes bits => ((PartyRuntime.arithmeticCost lanes bits).1,0)
  | .rescale lanes shift bounds => (Request.rescale lanes shift bounds).cost
  | _ => 0

def Call.cost (call : Call) : ℕ × ℕ := (call.request.map Request.cost).getD 0

variable {s : PartyRuntime}

lemma outcome_discard {x : Exec Error PartyRuntime α} {good : PartyRuntime → Prop}
    (h : Outcome x s (fun _ => good) bad) : Outcome (discard x) s (fun _ => good) bad :=
  h.bind fun _ _ ht => .pure ht

/-- One call of an owner: its log grows in order, and the end of the operation in flight moves by
the cost of the call. -/
lemma Call.spends (env : Platform) (call : Call) (hs : Sane s) :
    Outcome (call.run env) s (fun _ t => Spends s t call.cost) fun t => Sane t ∧ Kept s t := by
  have hstay : Spends s s 0 := ⟨hs,.refl _,by simp⟩
  have hcan : Sane s.cancel ∧ Kept s s.cancel := ⟨trivial,(Grows.refl s.source).cancel⟩
  cases call with
  | planProduct product bounds rescale certified =>
    refine outcome_discard ((PartyRuntime.outcome_guard (PartyRuntime.outcome_planProduct product
      bounds rescale certified)).mono ?_ fun _ h => h)
    rintro plan t ⟨hrdy,rfl,hst,hln,rfl⟩
    refine ⟨hst,.refl _,?_⟩
    cases hrsc : plan.rescale <;>
      simp [PartyRuntime.due,Phase.due,hrdy,hrsc,Call.cost,Call.request,Request.cost, hln]
  | bindOperand operand value =>
    exact outcome_discard ((PartyRuntime.outcome_bindOperand operand value).mono
      (fun _ _ h => h ▸ hstay) fun _ h => h ▸ hcan)
  | beginProduct left right =>
    exact outcome_discard (PartyRuntime.outcome_guard (PartyRuntime.outcome_beginProduct hs left right))
  | rotate next => exact outcome_discard (PartyRuntime.outcome_rotate next)
  | openRound peer correlation => exact outcome_discard (PartyRuntime.outcome_openRound peer correlation)
  | reshare peer => exact outcome_discard (PartyRuntime.outcome_reshare peer)
  | takeOutput => exact outcome_discard PartyRuntime.outcome_takeOutput
  | planAnd lanes leftBits rb =>
    refine outcome_discard ((PartyRuntime.outcome_planAnd lanes leftBits rb).mono ?_
      fun _ h => h)
    rintro plan t ⟨hrdy,rfl,hln,hbyt⟩
    refine ⟨trivial,.refl _,?_⟩
    simp [PartyRuntime.due,Phase.due,hrdy,Call.cost,Call.request,Request.cost,hln,hbyt]
  | planAndCompact lanes leftBits rb =>
    refine outcome_discard ((PartyRuntime.outcome_planAnd lanes leftBits rb).bind ?_)
    rintro plan t ⟨hrdy,rfl,hln,hbyt⟩
    refine .modify (.pure ⟨trivial,.refl _,?_⟩)
    have hcom : (plan.toCompact env).lanes=lanes := hln
    have hwds : (plan.toCompact env).bytes=_ := hbyt
    simp [PartyRuntime.due,Phase.due,hrdy,Call.cost,Call.request,Request.cost,hcom, hwds]
  | bindAndOperand operand value =>
    exact outcome_discard ((PartyRuntime.outcome_bindAndOperand operand value).mono
      (fun _ _ h => h ▸ hstay) fun _ h => h ▸ hcan)
  | beginAnd left right => exact outcome_discard (PartyRuntime.outcome_beginAnd left right)
  | receiveAnd message => exact outcome_discard (PartyRuntime.outcome_receiveAnd message)
  | takeBooleanOutput => exact outcome_discard PartyRuntime.outcome_takeBooleanOutput
  | planConversion lanes kind =>
    refine outcome_discard ((PartyRuntime.outcome_planConversion lanes kind).mono ?_ fun _ h => h)
    rintro plan t ⟨hrdy,rfl,hend⟩
    refine ⟨trivial,.refl _,?_⟩
    simp [PartyRuntime.due,Phase.due,hrdy,Call.cost,Call.request,Request.cost,hend]
  | bindConversionInput input =>
    exact outcome_discard ((PartyRuntime.outcome_bindConversionInput input).mono
      (fun _ _ h => h ▸ hstay) fun _ h => h ▸ hcan)
  | beginConversion input => exact outcome_discard (PartyRuntime.outcome_beginConversion input)
  | advanceConversion message => exact outcome_discard (PartyRuntime.outcome_advanceConversion message)
  | planBooleanToArithmetic input =>
    exact outcome_discard ((PartyRuntime.outcome_planBooleanToArithmetic input).mono
      (fun _ _ h => h.1) fun _ h => h)
  | beginBooleanToArithmetic input =>
    exact outcome_discard (PartyRuntime.outcome_beginBooleanToArithmetic hs input)
  | receiveBooleanToArithmetic messages =>
    exact outcome_discard (PartyRuntime.outcome_receiveBooleanToArithmetic messages)
  | advanceBooleanToArithmetic message =>
    exact outcome_discard (PartyRuntime.outcome_advanceBooleanToArithmetic message)
  | beginRescale input shift bounds =>
    exact outcome_discard ((PartyRuntime.outcome_beginRescale input shift bounds).mono
      (fun _ _ h => h.1) fun _ h => h)

lemma Call.plans (env : Platform) {request : Request}
    (h : call.request = some request) (s : PartyRuntime) : Outcome (call.run env) s
    (fun _ t => s.phase = .ready ∧ t.spent=s.spent+request.drawn) fun _ => True := by
  have hany : ∀ t : PartyRuntime, True := fun _ => trivial
  cases call with
  | planProduct product bounds rescale certified =>
    obtain rfl := some_inj h
    refine outcome_discard ((PartyRuntime.outcome_guard (PartyRuntime.outcome_planProduct product
      bounds rescale certified)).mono ?_ fun t _ => hany t)
    rintro plan t ⟨hrdy,rfl,-⟩
    exact ⟨hrdy,by simp [PartyRuntime.spent,Request.drawn]⟩
  | planAnd lanes leftBits rb =>
    obtain rfl := some_inj h
    refine outcome_discard ((PartyRuntime.outcome_planAnd lanes leftBits rb).mono ?_
      fun t _ => hany t)
    rintro plan t ⟨hrdy,rfl,-⟩
    exact ⟨hrdy,by simp [PartyRuntime.spent,Request.drawn]⟩
  | planAndCompact lanes leftBits rb =>
    obtain rfl := some_inj h
    refine outcome_discard (((PartyRuntime.outcome_planAnd lanes leftBits rb).mono
      (fun _ _ hg => hg) fun t _ => hany t).bind ?_)
    rintro plan t ⟨hrdy,rfl,-⟩
    exact .modify (.pure ⟨hrdy,by simp [PartyRuntime.spent,Request.drawn]⟩)
  | planConversion lanes kind =>
    obtain rfl := some_inj h
    refine outcome_discard ((PartyRuntime.outcome_planConversion lanes kind).mono ?_
      fun t _ => hany t)
    rintro plan t ⟨hrdy,rfl,-⟩
    exact ⟨hrdy,by simp [PartyRuntime.spent,Request.drawn]⟩
  | planBooleanToArithmetic input =>
    obtain rfl := some_inj h
    exact outcome_discard ((PartyRuntime.outcome_planBooleanToArithmetic input).mono
      (fun _ _ hg => hg.2) fun t _ => hany t)
  | beginRescale input shift bounds =>
    obtain rfl := some_inj h
    exact outcome_discard ((PartyRuntime.outcome_beginRescale input shift bounds).mono
      (fun _ _ hg => hg.2) fun t _ => hany t)
  | _ => cases h

variable {t : PartyRuntime} {env : Platform}

lemma Runs.kept (h : Runs env s calls t) (hs : Sane s) : Sane t ∧ Kept s t := by
  induction h with
  | done s => exact ⟨hs,.refl _⟩
  | call call deny k hcall hrest ih =>
    next s t u calls answer i =>
    have hstep := call.spends env hs deny k
    have hmid : Sane t ∧ Kept s t := by
      cases answer with
      | ok a =>
        have hgood := hstep.ok hcall
        exact ⟨hgood.sane,hgood.grows⟩
      | error e => exact hstep.error hcall
    obtain ⟨hu,hkept⟩ := ih hmid.1
    exact ⟨hu,hmid.2.trans hkept⟩

/-- The plans of a run. -/
def requests (calls : List (Call × Except Error Unit)) : List Request :=
  calls.filterMap fun entry => entry.1.request

lemma Runs.due (h : Runs env s calls t) (hs : Sane s) (hok : ∀ entry∈calls, entry.2 = .ok ()) :
    t.due = s.due+((requests calls).map Request.cost).sum := by
  induction h with
  | done s => simp [requests]
  | call call deny k hcall hrest ih =>
    next s t u calls answer i =>
    obtain rfl : answer = .ok () := hok (call,answer) (by simp)
    have hgood := (call.spends env hs deny k).ok hcall
    rw [ih hgood.sane fun entry hent => hok entry (by simp [hent]),hgood.due,add_assoc]
    congr 1
    cases hreq : call.request with
    | none => simp [requests,Call.cost,hreq]
    | some request => simp [requests,Call.cost,hreq]

/-- The phases of an operation that has drawn all it will draw. -/
def Phase.settled : Phase → Bool
  | .planned _ => false
  | .rotating plan _ => !plan.rescale
  | .boolean (.planned _) => false
  | .conversion (.complete _) => true
  | .conversion _ => false
  | .booleanToArithmetic (.planned _) => false
  | .booleanToArithmetic (.ppa (.split ..)) => false
  | .booleanToArithmetic (.ppa (.carry ..)) => false
  | _ => true

lemma due_of_settled (h : s.phase.settled=true) : s.due=s.spent := by
  unfold PartyRuntime.due PartyRuntime.spent
  generalize s.phase=phase at h
  cases phase with
  | planned plan => cases h
  | rotating plan product =>
    have hraw : plan.rescale=false := by simpa [Phase.settled] using h
    simp [Phase.due,hraw]
  | boolean state =>
    cases state with
    | planned plan => cases h
    | _ => rfl
  | conversion state =>
    cases state with
    | complete share => rfl
    | _ => cases h
  | booleanToArithmetic state =>
    cases state with
    | planned plan => cases h
    | ppa state =>
      cases state with
      | split => cases h
      | carry => cases h
      | _ => rfl
    | _ => rfl
  | _ => rfl

/-- An owner that has not drawn anything yet. -/
structure Fresh (s : PartyRuntime) : Prop where
  phase : s.phase = .ready
  fills : s.source.fills = []

lemma Fresh.sane (h : Fresh s) : Sane s := by
  rw [Sane,h.phase]
  trivial

lemma Fresh.logged (h : Fresh s) : Logged s.source := by
  refine ⟨?_,?_,?_⟩ <;> rw [h.fills]
  · simp
  · exact .nil
  · simp

lemma counterBlock_ne {f g : Fill} (hg : g.Done) (h : f.start+f.blocks≤g.start) {i j : ℕ}
    (hi : i<f.blocks) (hj : j<g.blocks) : counterBlock f.start i ≠ counterBlock g.start j := by
  intro heq
  have h2 := hg.lt
  obtain ⟨hst,-⟩ := counterBlock_inj (by omega) (by omega) (by omega) (by omega) heq
  omega

/-- Freshness: over any calls of an owner in any order, accepted or not, the fills of each key
ascend, no cipher input is used twice, the cursors only move up, and nothing is accepted after an
error. Parties that make the same plans from the same cursors hold the same cursors after each plan
and whenever an operation has drawn all it will draw. -/
theorem prss_freshness (env : Platform) :
    (∀ (s t u : PartyRuntime) (calls later : List (Call × Except Error Unit)), Fresh s →
      Runs env s calls t → Runs env t later u →
      (u.source.fills.Pairwise fun f g => f.slot=g.slot → f.start+f.blocks≤g.start
        ∧ ∀ i<f.blocks, ∀ j<g.blocks, counterBlock f.start i ≠ counterBlock g.start j)
      ∧ t.source.cursors.Le u.source.cursors
      ∧ later.Pairwise fun first second => (∃ e, first.2 = .error e) → ∃ e, second.2 = .error e)
    ∧ ∀ (s t : Party → PartyRuntime) (calls : Party → List (Call × Except Error Unit)),
      (∀ p, Fresh (s p)) → (∀ p q, (s p).spent = (s q).spent) →
      (∀ p, Runs env (s p) (calls p) (t p)) → (∀ p, ∀ entry ∈ calls p, entry.2 = .ok ()) →
      (∀ p q, requests (calls p) = requests (calls q)) →
      (∀ p q, (t p).phase.settled = true → (t q).phase.settled = true → (t p).spent = (t q).spent)
      ∧ ∀ (call : Party → Call) (request : Request) (u : Party → PartyRuntime),
        (∀ p, (call p).request = some request) →
        (∀ p, ∃ deny k i, (call p).run env deny (t p) k = (.ok (),u p,i)) →
        ∀ p q, (u p).spent = (u q).spent := by
  refine ⟨fun s t u calls later hs ht hu => ?_,fun s t calls hs hst ht hok hsame => ?_⟩
  · obtain ⟨hsane,hkept⟩ := ht.kept hs.sane
    obtain ⟨-,hlat⟩ := hu.kept hsane
    have hlog := (hkept.trans hlat).logged hs.logged
    refine ⟨?_,hlat.cursors,hu.pairwise⟩
    refine hlog.ordered.imp_of_mem fun hf hg hbef heq => ⟨hbef heq,fun i hi j hj => ?_⟩
    exact counterBlock_ne (hlog.done _ hg) (hbef heq) hi hj
  · have hset : ∀ p q, (t p).phase.settled=true → (t q).phase.settled=true →
        (t p).spent = (t q).spent := by
      have hrdy : ∀ p, (s p).due=(s p).spent := fun p =>
        due_of_settled (by rw [(hs p).phase]; rfl)
      intro p q hp hq
      rw [←due_of_settled hp,←due_of_settled hq,(ht p).due (hs p).sane (hok p),
        (ht q).due (hs q).sane (hok q),hrdy,hrdy,hst p q,hsame p q]
    refine ⟨hset,fun call request u hcall hrun p q => ?_⟩
    have hplan : ∀ r, (t r).phase = .ready ∧ (u r).spent=(t r).spent+request.drawn := by
      intro r
      obtain ⟨deny,k,i,hr⟩ := hrun r
      exact (Call.plans env (hcall r) (t r) deny k).ok hr
    obtain ⟨hp,hup⟩ := hplan p
    obtain ⟨hq,huq⟩ := hplan q
    rw [hup,huq,hset p q (by rw [hp]; rfl) (by rw [hq]; rfl)]

/-- The owner after a call that nothing turns down. -/
def Call.after (call : Call) (s : PartyRuntime) : PartyRuntime :=
  (call.run Platform.sample (fun _ => none) s 0).2.1

/-- Nothing turns the calls down. -/
def accepted : List Call → PartyRuntime → Bool
  | [],_ => true
  | call::calls,s => (call.run Platform.sample (fun _ => none) s 0).1.isOk
    && accepted calls (call.after s)

lemma runs_of_accepted {calls : List Call} (h : accepted calls s = true) : Runs Platform.sample s
    (calls.map fun call => (call,.ok ())) (calls.foldl (fun s call => call.after s) s) := by
  induction calls generalizing s with
  | nil => exact .done s
  | cons call calls ih =>
    obtain ⟨first,rest⟩ := Bool.and_eq_true_iff.mp h
    have run : ∃ i,call.run Platform.sample (fun _ => none) s 0=(.ok (),call.after s,i) := by
      unfold Call.after
      generalize call.run Platform.sample (fun _ => none) s 0=run at first
      obtain ⟨_ | a,t,i⟩ := run
      · cases first
      · exact ⟨i,rfl⟩
    obtain ⟨i,run⟩ := run
    exact .call _ _ _ run (ih rest)

/-- An operand of zeros for the gate that a party has planned. -/
def PartyRuntime.zeros (s : PartyRuntime) (operand : Operand) : Boolean.Share :=
  match s.phase with
  | .boolean (.planned plan) =>
    ⟨⟨(plan.operand Platform.sample operand).1,s.party,[0,0,0],[0,0,0]⟩,
      (plan.operand Platform.sample operand).2⟩
  | _ => default

/-- The gate that a party has planned, at zero, and the message that it sends. -/
def PartyRuntime.gate (s : PartyRuntime) : Call := .beginAnd (s.zeros .left) (s.zeros .right)

def PartyRuntime.sent (s : PartyRuntime) : Message :=
  match (PartyRuntime.beginAnd Platform.sample (s.zeros .left) (s.zeros .right)
    (fun _ => none) s 0).1 with
  | .ok message => message
  | .error _ => default

def sampleCalls (p : Party) : List Call :=
  let planned (p : Party) := (Call.planAnd 3 5 9).after (sampleParty p)
  let first : List Call := [.planAnd 3 5 9,(planned p).gate,.receiveAnd (planned p.next).sent,
    .takeBooleanOutput,.planAndCompact 3 4 4]
  first++[(first.foldl (fun s call => call.after s) (sampleParty p)).gate]

/-- Two gates of the three parties of the sample setup, which fill from each key twice. -/
theorem prss_freshness_at : ∃ t : Party → PartyRuntime, (∀ p,
    Runs Platform.sample (sampleParty p) ((sampleCalls p).map fun call => (call,.ok ())) (t p)) ∧
    (t .p0).spent = (t .p1).spent ∧ (t .p1).spent = (t .p2).spent ∧ (t .p0).source.fills.length =
    4 ∧ (t .p0).source.fills.Pairwise fun f g => f.slot=g.slot → f.start+f.blocks≤g.start ∧
    ∀ i<f.blocks, ∀ j<g.blocks, counterBlock f.start i ≠ counterBlock g.start j := by
  have fresh : ∀ p, Fresh (sampleParty p) := fun p => ⟨rfl,rfl⟩
  have runs (p : Party) : Runs Platform.sample (sampleParty p)
      ((sampleCalls p).map fun call => (call,.ok ()))
      ((sampleCalls p).foldl (fun s call => call.after s) (sampleParty p)) :=
    runs_of_accepted (by cases p <;> decide +kernel)
  obtain ⟨hone,hthr⟩ := prss_freshness Platform.sample
  have settled := (hthr sampleParty _ _ fresh (fun p q => rfl) runs
    (fun p entry m => by obtain ⟨call,-,rfl⟩ := List.mem_map.mp m; rfl)
    (fun p q => by simp [requests,sampleCalls,Call.request,PartyRuntime.gate])).1
  exact ⟨_,runs,settled _ _ (by decide +kernel) (by decide +kernel),
    settled _ _ (by decide +kernel) (by decide +kernel),by decide +kernel,
    (hone _ _ _ _ _ (fresh .p0) (runs .p0) (.done _)).1⟩

end Multiply

end Pllm.Puma
