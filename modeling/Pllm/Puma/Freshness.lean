import Pllm.Puma.MultiplyCorrect

/-! The fill log of a source over a run: in every slot the fills ascend and stay below the cursor, so
no counter of a key is used twice. -/
namespace Pllm.Puma
open Pllm.Lib Pllm.Lib.Exec

/-- The cursor that the fills of a slot stay below. -/
def Cursors.bound (c : Cursors) : Slot → ℕ
  | .publicSeed => c.publicBlocks
  | .privateSeed => c.privateBlocks
  | .own => c.pairBlocks
  | .next => c.pairBlocks

structure Cursors.Le (c d : Cursors) : Prop where
  publicBlocks : c.publicBlocks≤d.publicBlocks
  pairBlocks : c.pairBlocks≤d.pairBlocks
  privateBlocks : c.privateBlocks≤d.privateBlocks
  aesWork : c.aesWork≤d.aesWork

lemma Cursors.Le.refl (c : Cursors) : c.Le c := ⟨le_rfl,le_rfl,le_rfl,le_rfl⟩

lemma Cursors.Le.trans {c d e : Cursors} (h : c.Le d) (h' : d.Le e) : c.Le e :=
  ⟨h.publicBlocks.trans h'.publicBlocks,h.pairBlocks.trans h'.pairBlocks,
    h.privateBlocks.trans h'.privateBlocks,h.aesWork.trans h'.aesWork⟩

lemma Cursors.Le.bound {c d : Cursors} (h : c.Le d) (slot : Slot) : c.bound slot ≤ d.bound slot := by
  cases slot
  · exact h.publicBlocks
  · exact h.privateBlocks
  · exact h.pairBlocks
  · exact h.pairBlocks

/-- One fill of a key ends where the next begins, or before. -/
def Fill.Before (f g : Fill) : Prop := f.slot=g.slot → f.start+f.blocks≤g.start

/-- A fill that was done: it has counters, and they fit the cursor's word. -/
structure Fill.Done (f : Fill) : Prop where
  pos : 0<f.blocks
  lt : f.start+f.blocks<2^64

/-- The fills of each slot ascend up to the cursor. -/
structure Logged (s : SourceParty) : Prop where
  done : ∀ f∈s.fills, f.Done
  ordered : s.fills.Pairwise Fill.Before
  bounded : ∀ f∈s.fills, f.start+f.blocks ≤ s.cursors.bound f.slot

/-- Cursors only move up, and the log stays in order. -/
structure Grows (s t : SourceParty) : Prop where
  cursors : s.cursors.Le t.cursors
  logged : Logged s → Logged t

lemma Grows.refl (s : SourceParty) : Grows s s := ⟨.refl _,id⟩

lemma Grows.trans {s t u : SourceParty} (h : Grows s t) (h' : Grows t u) : Grows s u :=
  ⟨h.cursors.trans h'.cursors,fun hs => h'.logged (h.logged hs)⟩

lemma Grows.of_cursors {s t : SourceParty} (hc : s.cursors.Le t.cursors)
    (hf : t.fills=s.fills) : Grows s t :=
  ⟨hc,fun hs => ⟨hf ▸ hs.done,hf ▸ hs.ordered,fun f hmem => (hs.bounded f (hf ▸ hmem)).trans (hc.bound f.slot)⟩⟩

lemma Grows.cancel {s t : SourceParty} (h : Grows s t) : Grows s t.cancel :=
  ⟨h.cursors,fun hs => ⟨(h.logged hs).done,(h.logged hs).ordered,(h.logged hs).bounded⟩⟩

lemma Grows.withRuntime {s t : SourceParty} (h : Grows s t) (runtime : Puma.PartyRuntime) :
    Grows s { t with runtime := runtime } :=
  ⟨h.cursors,fun hs => ⟨(h.logged hs).done,(h.logged hs).ordered,(h.logged hs).bounded⟩⟩

/-- On the way from `s`: no slot is filled above its mark, and no mark is above its cursor. -/
structure Filling (s u : SourceParty) (marks : Slot → ℕ) : Prop where
  cursors : s.cursors.Le u.cursors
  marks_le : ∀ slot, marks slot ≤ u.cursors.bound slot
  done : Logged s → ∀ f∈u.fills, f.Done
  ordered : Logged s → u.fills.Pairwise Fill.Before
  marked : Logged s → ∀ f∈u.fills, f.start+f.blocks ≤ marks f.slot

lemma Filling.grows {s u : SourceParty} {marks : Slot → ℕ} (h : Filling s u marks) : Grows s u :=
  ⟨h.cursors,fun hs => ⟨h.done hs,h.ordered hs,fun f hf => (h.marked hs f hf).trans (h.marks_le f.slot)⟩⟩

lemma Filling.start {s u : SourceParty} (hc : s.cursors.Le u.cursors) (hf : u.fills=s.fills) :
    Filling s u s.cursors.bound :=
  ⟨hc,hc.bound,fun hs => hf ▸ hs.done,fun hs => hf ▸ hs.ordered,fun hs => hf ▸ hs.bounded⟩

lemma Filling.fill {s u : SourceParty} {marks : Slot → ℕ} (h : Filling s u marks) {slot : Slot}
    {start q : ℕ} (hdone : Fill.Done ⟨slot,start,q⟩) (hst : marks slot ≤ start)
    (hend : start+q ≤ u.cursors.bound slot) :
    Filling s { u with fills := u.fills++[⟨slot,start,q⟩] }
      (Function.update marks slot (start+q)) where
  cursors := h.cursors
  marks_le other := by
    by_cases ho : other=slot
    · subst ho
      simpa using hend
    · simpa [Function.update_of_ne ho] using h.marks_le other
  done hs f hf := by
    rcases List.mem_append.mp hf with hold | hnew
    · exact h.done hs f hold
    · exact List.mem_singleton.mp hnew ▸ hdone
  ordered hs := by
    refine List.pairwise_append.mpr ⟨h.ordered hs,by simp,fun f hf g hg heq => ?_⟩
    obtain rfl := List.mem_singleton.mp hg
    have hle := h.marked hs f hf
    rw [heq] at hle
    exact hle.trans hst
  marked hs f hf := by
    rcases List.mem_append.mp hf with hold | hnew
    · have hle := h.marked hs f hold
      by_cases ho : f.slot=slot
      · rw [ho] at hle ⊢
        simp only [Function.update_self]
        omega
      · rwa [Function.update_of_ne ho]
    · obtain rfl := List.mem_singleton.mp hnew
      simp

namespace Multiply

section
variable {env : Platform} {s u : SourceParty} {σ β : Type} {good : β → σ → Prop} {bad : σ → Prop}
  {n start words bytes : ℕ} {f : Words → Exec Error σ β} {key : Block} {slot : Slot}
  {marks : Slot → ℕ}

lemma pairStart_eq {plan : Boolean.Plan} {l r : Boolean.Share} (h : Boolean.validateOperands env s
    plan l r = .ok ()) : plan.pairStart=s.cursors.pairBlocks := by
  obtain ⟨_,-,_,-,h⟩ := bind₂_eq_ok.mp h
  obtain ⟨hne,-⟩ := ite_error_eq_ok.mp h
  exact (not_not.mp hne).symm

lemma outcome_zeros {s : σ} (h : bad s) (hf : ∀ a, Outcome (f a) s good bad) :
    Outcome (Puma.zeros n >>= f) s good bad := by
  refine .skip h (fun deny k => ?_) hf
  simp [Puma.zeros]

lemma outcome_copy {s : σ} {words : Words} (h : bad s) (hf : ∀ a, Outcome (f a) s good bad) :
    Outcome (Puma.copy words n >>= f) s good bad := by
  refine .skip h (fun deny k => ?_) hf
  simp [Puma.copy,Puma.zeros]

lemma outcome_charge {s : σ} {share : ReplicatedShare} {f : Unit → Exec Error σ β} (h : bad s)
    (hf : ∀ a, Outcome (f a) s good bad) : Outcome (share.chargeTo >>= f) s good bad := by
  refine .skip h (fun deny k => ?_) hf
  simp [ReplicatedShare.chargeTo,Puma.charge]

lemma fill_done {out : Words} (slot : Slot) (h : fillTyped env key start words bytes = .ok out) :
    Fill.Done ⟨slot,start,blockCount words bytes⟩ := by
  obtain ⟨q,hq,h⟩ := bind_eq_ok.mp h
  obtain ⟨hpos,-,hbac,rfl⟩ := typedBlocks_eq_ok hq
  obtain ⟨next,hnext,-⟩ := bind_eq_ok.mp h
  obtain ⟨-,hlt⟩ := checkedAdd_eq_ok hnext
  refine ⟨?_,hlt⟩
  simp only [blockCount]
  rcases hbac with rfl | rfl | rfl | rfl <;> omega

section
variable {good : β → SourceParty → Prop} {f : Words → Exec Error SourceParty β} (h : Filling s u marks) (hst : marks slot ≤ start)
include h hst

lemma outcome_fill (hend : start+blockCount words bytes ≤ u.cursors.bound slot)
    (hf : ∀ a v, Filling s v (Function.update marks slot (start+blockCount words bytes)) →
      v = { u with fills := u.fills++[⟨slot,start,blockCount words bytes⟩] } →
      Outcome (f a) v good (Grows s)) :
    Outcome (SourceParty.fill env slot key start words bytes >>= f) u good (Grows s) := by
  intro deny k
  simp only [SourceParty.fill,wp_bind,wp_ofExcept,wp_pure]
  exact ⟨fun a ha => hf a _ (h.fill (fill_done slot ha) hst hend) rfl deny k,fun _ _ => h.grows⟩

lemma outcome_expand (hend : start+blockCount n 8 ≤ u.cursors.bound slot)
    (hf : ∀ a v, Filling s v (Function.update marks slot (start+blockCount n 8)) → v = { u with
      fills := u.fills++[⟨slot,start,blockCount n 8⟩] } → Outcome (f a) v good (Grows s)) :
    Outcome (SourceParty.expand env slot key start n >>= f) u good (Grows s) := by
  have hg := h.grows
  intro deny k
  simp only [SourceParty.expand,SourceParty.fill,Puma.zeros,wp_bind,wp_ofExcept,wp_modify,
    wp_pure,wp_require,wp_request]
  exact ⟨fun _ _ => ⟨fun _ _ => ⟨fun _ => ⟨fun _ => ⟨fun a ha =>
    hf a _ (h.fill (fill_done slot ha) hst hend) rfl deny _,fun _ _ => hg⟩,fun _ _ => hg⟩,fun _ => hg⟩,
    fun _ _ => hg⟩,fun _ _ => hg⟩

end

end

/-- A source that has moved on by whole fills to the given public and pair cursors. -/
structure Moves (s t : SourceParty) (publicBlocks pairBlocks : ℕ) : Prop where
  grows : Grows s t
  publicBlocks : t.cursors.publicBlocks=publicBlocks
  pairBlocks : t.cursors.pairBlocks=pairBlocks

lemma outcome_issue (env : Platform) (plan : Boolean.Plan) (l r : Boolean.Share) (s : SourceParty) :
    Outcome (Boolean.issue env plan l r) s (fun out t => out.1.plan=plan ∧ Moves s t
    s.cursors.publicBlocks (s.cursors.pairBlocks+blockCount plan.lanes plan.bytes)) (Grows s) := by
  refine .read ?_
  refine .ofExcept (.refl s) fun _ hvld => ?_
  have hst := pairStart_eq hvld
  refine .ofExcept (.refl s) fun q hq => ?_
  obtain ⟨-,-,-,rfl⟩ := typedBlocks_eq_ok hq
  refine .ofExcept (.refl s) fun pairEnd hend => ?_
  obtain ⟨rfl,-⟩ := checkedAdd_eq_ok hend
  refine .ofExcept (.refl s) fun work hwork => ?_
  obtain ⟨rfl,-,-⟩ := SourceParty.work_eq_ok hwork
  rw [hst]
  have hmove : s.cursors.Le { s.cursors with
      pairBlocks := s.cursors.pairBlocks+blockCount plan.lanes plan.bytes
      aesWork := s.cursors.aesWork+2*blockCount plan.lanes plan.bytes } :=
    ⟨le_rfl,le_self_add,le_rfl,le_self_add⟩
  have hfill := Filling.start (s := s) (u := { s with cursors := _ }) hmove rfl
  have h0 := hfill.grows
  refine outcome_charge h0 fun _ => outcome_charge h0 fun _ => ?_
  refine .expect h0 fun seeds _ => .expect h0 fun next _ => ?_
  refine outcome_zeros h0 fun _ => outcome_zeros h0 fun _ => ?_
  refine outcome_fill hfill le_rfl le_rfl fun own u hu hueq => ?_
  refine outcome_fill hu (by simp [Cursors.bound]) (by simp [Cursors.bound,hueq])
    fun adjacent v hv hveq => ?_
  exact outcome_copy hv.grows fun _ => .pure ⟨rfl,hv.grows,by simp [hveq,hueq],by simp [hveq,hueq]⟩

lemma outcome_onRuntime {α : Type} (x : Exec Error Puma.PartyRuntime α) (s : SourceParty) :
    Outcome (SourceParty.onRuntime x) s (fun _ t => ∃ runtime, t = { s with runtime := runtime })
      fun t => ∃ runtime, t = { s with runtime := runtime } := by
  apply Outcome.zoom
  intro deny k
  unfold wp
  rcases x deny s.runtime k with ⟨_ | a,r,i⟩
  · exact ⟨r,rfl⟩
  · exact ⟨r,rfl⟩

variable {bad : SourceParty → Prop} {β : Type}

lemma outcome_live (env : Platform) {s : SourceParty} {good : β → SourceParty → Prop}
    {f : Unit → Exec Error SourceParty β} (h : bad s)
    (hf : Outcome (f ()) s good bad) : Outcome (SourceParty.live env >>= f) s good bad := by
  intro deny k
  simp only [SourceParty.live,wp_bind,wp_require]
  exact ⟨fun _ => hf deny k,fun _ => h⟩

/-- A reserved truncation: one public block is spent, and the pair ranges begin at the cursor. -/
lemma outcome_plan (env : Platform) (lanes shift : ℕ) (s : SourceParty) :
    Outcome (SourceParty.plan env lanes shift) s
      (fun op t => op.lanes=lanes ∧ (∃ setup publicStart, op.source = some ⟨setup,publicStart,
          s.cursors.pairBlocks,s.cursors.pairBlocks+blockCount lanes 8⟩)
        ∧ Moves s t (s.cursors.publicBlocks+1) s.cursors.pairBlocks) (Grows s) := by
  refine .checked ?_ fun _ (h : Grows s _) => h.cancel
  have hrefl := Grows.refl s
  refine outcome_live env hrefl ?_
  refine .read (.require hrefl fun _ => ?_)
  refine .ofExcept hrefl fun op hop => ?_
  obtain ⟨rfl,-,-,-⟩ := Operation.new_eq_ok hop
  refine .ofExcept hrefl fun nextPublic hpub => ?_
  obtain ⟨rfl,-⟩ := checkedAdd_eq_ok hpub
  refine .ofExcept hrefl fun q hq => ?_
  obtain ⟨-,-,-,rfl⟩ := typedBlocks_eq_ok hq
  refine .ofExcept hrefl fun outputStart hout => ?_
  obtain ⟨rfl,-⟩ := checkedAdd_eq_ok hout
  refine .ofExcept hrefl fun _ _ => ?_
  refine .ofExcept hrefl fun work hwork => ?_
  obtain ⟨rfl,-,-⟩ := SourceParty.work_eq_ok hwork
  refine .modify ?_
  have hmove : s.cursors.Le { s.cursors with
      publicBlocks := s.cursors.publicBlocks+1
      aesWork := s.cursors.aesWork+1 } :=
    ⟨le_self_add,le_rfl,le_rfl,le_self_add⟩
  refine outcome_fill (.start hmove rfl) le_rfl (by simp [Cursors.bound,blockCount])
    fun word u hu hueq => ?_
  refine .ofExcept hu.grows fun role _ => ?_
  refine .modify (.pure ⟨rfl,⟨_,_,rfl⟩,?_,?_,?_⟩)
  · exact hu.grows.trans (.of_cursors (.refl _) rfl)
  · simp [hueq]
  · simp [hueq]

/-- An evaluator fills two ranges of one key, one after the other. -/
lemma outcome_evaluator {env : Platform} {slot : Slot} {key : Block} {start n : ℕ}
    {s u : SourceParty} {marks : Slot → ℕ} (h : Filling s u marks) (hst : marks slot ≤ start)
    (hend : start+blockCount n 8+blockCount n 8 ≤ u.cursors.bound slot) :
    Outcome (do
        let mask ← SourceParty.expand env slot key start n
        let output ← SourceParty.expand env slot key (start+blockCount n 8) n
        return MaterialData.evaluator mask output) u
      (fun _ t => Grows s t ∧ t.cursors=u.cursors) (Grows s) := by
  refine outcome_expand h hst (by omega) fun mask a ha haeq => ?_
  refine outcome_expand ha (by simp) (by simpa [haeq] using hend) fun output b hb hbeq => ?_
  exact .pure ⟨hb.grows,by simp [hbeq,haeq]⟩

/-- The ranges a truncation fills. -/
lemma outcome_beginRound (env : Platform) (input : ReplicatedShare) {op : Operation}
    {setup : BitVec 256} {publicStart maskStart : ℕ} {s : SourceParty} (hp : s.pending = some op)
    (hs : op.source = some ⟨setup,publicStart,maskStart,maskStart+blockCount op.lanes 8⟩) :
    Outcome (SourceParty.beginRound env input) s (fun _ t => Moves s t s.cursors.publicBlocks
        (s.cursors.pairBlocks+2*blockCount op.lanes 8)) (Grows s) := by
  refine .checked ?_ fun _ (h : Grows s _) => h.cancel
  have hrefl := Grows.refl s
  refine outcome_live env hrefl (.read (.modify ?_))
  have h0 : Grows s { s with pending := none } := .of_cursors (.refl _) rfl
  rw [hp]
  refine .expect h0 fun op' hop => ?_
  obtain rfl := some_inj hop
  refine .require h0 fun _ => .require h0 fun _ => .ofExcept h0 fun _ _ => ?_
  rw [hs]
  refine .expect h0 fun source hsrc => ?_
  obtain rfl := some_inj hsrc
  refine .require h0 fun hbin => ?_
  obtain ⟨hst,-⟩ := hbin
  subst hst
  refine .ofExcept h0 fun q hq => ?_
  obtain ⟨-,-,-,rfl⟩ := typedBlocks_eq_ok hq
  refine .ofExcept h0 fun privateEnd hpri => ?_
  obtain ⟨rfl,-⟩ := checkedAdd_eq_ok hpri
  refine .ofExcept h0 fun pairEnd hpair => ?_
  obtain ⟨rfl,-⟩ := checkedAdd_eq_ok hpair
  refine .ofExcept h0 fun work hwork => ?_
  obtain ⟨rfl,-,-⟩ := SourceParty.work_eq_ok hwork
  have hmove : s.cursors.Le { s.cursors with
      pairBlocks := s.cursors.pairBlocks+blockCount op.lanes 8+blockCount op.lanes 8
      privateBlocks := s.cursors.privateBlocks+if s.party = op.helper then op.lanes else 0
      aesWork := s.cursors.aesWork+if s.party = op.helper then 4*blockCount op.lanes 8+op.lanes
        else 2*blockCount op.lanes 8 } :=
    ⟨le_rfl,by simp only; omega,le_self_add,le_self_add⟩
  have hfill := Filling.start (s := s) (u := { s with pending := none, cursors := _ }) hmove rfl
  have h1 := hfill.grows
  refine outcome_charge h1 fun _ => .expect h1 fun seeds _ => .expect h1 fun next _ => ?_
  refine Outcome.via (fun _ t => Moves s t s.cursors.publicBlocks
    (s.cursors.pairBlocks+2*blockCount op.lanes 8)) ?_ fun data t ht => ?_
  · refine .read ?_
    by_cases hh : s.party=op.helper
    · have hspl : blockCount (2*op.lanes) 8=op.lanes := by
        simp only [blockCount]
        omega
      simp only [if_pos hh] at hmove hfill h1 ⊢
      refine outcome_expand hfill le_rfl (by simp [Cursors.bound]) fun _ a ha haeq => ?_
      refine outcome_expand ha (by simp [Cursors.bound]) (by simp [Cursors.bound,haeq])
        fun _ b hb hbeq => ?_
      refine outcome_expand hb (by simp [Cursors.bound]) (by simp [Cursors.bound,haeq,hbeq,hspl])
        fun _ c hc hceq => ?_
      refine outcome_expand hc (by simp) (by simp [Cursors.bound,haeq,hbeq,hceq])
        fun _ d hd hdeq => ?_
      refine outcome_expand hd (by simp) (by simp [Cursors.bound,haeq,hbeq,hceq,hdeq])
        fun _ e he heeq => .pure ⟨he.grows,?_,?_⟩
      · simp [haeq,hbeq,hceq,hdeq,heeq]
      · simp [haeq,hbeq,hceq,hdeq,heeq]
        omega
    · simp only [if_neg hh] at hmove hfill h1 ⊢
      refine (outcome_evaluator hfill (by split <;> rfl)
        (by split <;> simp [Cursors.bound])).mono ?_ fun _ h => h
      rintro data t ⟨hgro,hcur⟩
      refine ⟨hgro,by rw [hcur],?_⟩
      rw [hcur]
      simp only
      omega
  · exact (outcome_onRuntime _ t).mono
      (fun _ u ⟨runtime,hu⟩ => hu ▸ ⟨ht.grows.withRuntime runtime,ht.publicBlocks,ht.pairBlocks⟩)
      fun u ⟨runtime,hu⟩ => hu ▸ ht.grows.withRuntime runtime

/-- A source that has grown without a draw from the public seed. -/
structure Passes (s t : SourceParty) : Prop where
  grows : Grows s t
  publicBlocks : t.cursors.publicBlocks=s.cursors.publicBlocks

section
variable {β : Type} {s : SourceParty} {good : β → SourceParty → Prop} {bad : SourceParty → Prop}
  {f : Boolean.Share → Exec Error SourceParty β}

lemma Passes.refl (s : SourceParty) : Passes s s := ⟨.refl s,rfl⟩

lemma outcome_pair {operation : Operation} {party : Party} {bits : ℕ} (h : bad s) (hf : ∀ a, Outcome
    (f a) s good bad) : Outcome (Conversion.pair operation party bits >>= f) s good bad := by
  refine .skip h (fun deny k => ?_) hf
  simp [Conversion.pair,Puma.zeros]

lemma outcome_receive {env : Platform} {gate : Boolean.Gate} {message : Message} (h : bad s) (hf :
    ∀ a, Outcome (f a) s good bad) : Outcome (gate.receive env message >>= f) s good bad := by
  refine .skip h (fun deny k => ?_) hf
  simp [Boolean.Gate.receive,Puma.charge]

lemma outcome_start (env : Platform) (plan : Conversion.Plan) (l r : Boolean.Share)
    (s : SourceParty) : Outcome (Conversion.start env plan l r) s
      (fun out t => out.1.plan=plan ∧ Passes s t) (Grows s) := by
  have hrefl := Grows.refl s
  refine .read (.ofExcept hrefl fun _ _ => .ofExcept hrefl fun _ _ => ?_)
  refine .ofExcept hrefl fun gatePlan _ => ?_
  refine outcome_pair hrefl fun propagate => outcome_pair hrefl fun initial => ?_
  refine (outcome_issue env gatePlan _ _ s).bind fun out t ht => .pure ?_
  exact ⟨rfl,ht.2.grows,ht.2.publicBlocks⟩

end

/-- Where a conversion stands. -/
def Conversion.State.At (plan : Conversion.Plan) (pairBlocks : ℕ) : Conversion.State → Prop
  | .circuit work => work.plan=plan
  | .complete _ => pairBlocks=plan.pairEnd
  | _ => False

lemma outcome_advance (env : Platform) (work : Conversion.Work) (message : Message)
    (s : SourceParty) : Outcome (Conversion.advance env work message) s
      (fun out t => out.1.At work.plan t.cursors.pairBlocks ∧ Passes s t) (Grows s) := by
  have hrefl := Grows.refl s
  refine outcome_receive hrefl fun output => ?_
  refine .skip hrefl (fun deny k => ?_) fun shares => ?_
  · split <;> simp
  by_cases hlast : work.round=work.plan.kind.rounds
  · simp only [if_pos hlast]
    refine .read (.require hrefl fun hend => .pure ⟨hend,.refl s⟩)
  · simp only [if_neg hlast]
    refine .ofExcept hrefl fun gatePlan _ => .read ?_
    refine outcome_pair hrefl fun left => outcome_pair hrefl fun right => ?_
    refine (outcome_issue env gatePlan _ _ s).bind fun out t ht => .pure ?_
    exact ⟨rfl,ht.2.grows,ht.2.publicBlocks⟩

/-- The pair cursor that a Boolean-to-arithmetic conversion ends at. -/
def BooleanToArithmetic.State.due (pairBlocks : ℕ) : BooleanToArithmetic.State → ℕ
  | .planned plan => plan.pairEnd
  | .ppa (.split plan ..) => plan.pairEnd
  | .ppa (.carry plan ..) => plan.pairEnd
  | _ => pairBlocks

/-- A conversion that has begun. -/
def BooleanToArithmetic.State.Begun : BooleanToArithmetic.State → Prop
  | .planned _ => False
  | _ => True

lemma outcome_ppaIssue (env : Platform) (plan : BooleanToArithmetic.Plan) (input : Boolean.Share)
    {s : SourceParty} (hst : plan.pairStart=s.cursors.pairBlocks) :
    Outcome (BooleanToArithmetic.Ppa.issue env plan input) s (fun out t => out.1.due
      t.cursors.pairBlocks = plan.pairEnd ∧ out.1.Begun ∧ Passes s t) (Grows s) := by
  have hrefl := Grows.refl s
  refine .read (.ofExcept hrefl fun q hq => ?_)
  obtain ⟨-,-,-,rfl⟩ := typedBlocks_eq_ok hq
  refine .ofExcept hrefl fun work hwork => ?_
  obtain ⟨rfl,-,-⟩ := SourceParty.work_eq_ok hwork
  rw [hst]
  have hmove : s.cursors.Le { s.cursors with
      pairBlocks := s.cursors.pairBlocks+2*blockCount plan.lanes 8
      aesWork := s.cursors.aesWork+4*blockCount plan.lanes 8 } :=
    ⟨le_rfl,le_self_add,le_rfl,le_self_add⟩
  have hfill := Filling.start (s := s) (u := { s with cursors := _ }) hmove rfl
  have h0 := hfill.grows
  refine .expect h0 fun seeds _ => .expect h0 fun adjacent _ => ?_
  refine outcome_zeros h0 fun _ => outcome_zeros h0 fun _ => outcome_zeros h0 fun _ => outcome_zeros h0 fun _ => ?_
  refine outcome_fill hfill le_rfl (by simp [Cursors.bound]; omega) fun _ a ha haeq => ?_
  refine outcome_fill ha (by simp [Cursors.bound]) (by simp [Cursors.bound,haeq]; omega)
    fun _ b hb hbeq => ?_
  refine outcome_fill hb (by simp) (by simp [Cursors.bound,haeq,hbeq]; omega) fun _ c hc hceq => ?_
  refine outcome_fill hc (by simp) (by simp [Cursors.bound,haeq,hbeq,hceq]; omega)
    fun _ d hd hdeq => ?_
  refine outcome_copy hd.grows fun _ => .ofExcept hd.grows fun _ _ => .pure ⟨rfl,trivial,hd.grows,?_⟩
  simp [haeq,hbeq,hceq,hdeq]

variable {plan : BooleanToArithmetic.Plan}

lemma outcome_compose {words : Words} {s : SourceParty} {good : β → SourceParty → Prop}
    {f : Words → Exec Error SourceParty β} (h : bad s) (hf : ∀ a, Outcome (f a) s good bad) :
    Outcome (BooleanToArithmetic.compose words plan >>= f) s good bad := by
  refine .skip h (fun deny k => ?_) hf
  simp [BooleanToArithmetic.compose,Puma.zeros]

/-- The ends that a plan of a Boolean-to-arithmetic conversion announces. -/
structure BooleanToArithmetic.Plan.Sound (plan : BooleanToArithmetic.Plan) : Prop where
  empty : plan.bits=0 → plan.pairEnd=plan.pairStart
  transfer : plan.bits≠0 → plan.bits≤8 →
    plan.pairEnd = plan.pairStart+3*blockCount plan.expanded 8

lemma outcome_b2aIssue (env : Platform) (plan : BooleanToArithmetic.Plan) (input : Boolean.Share)
    {s : SourceParty} (hst : plan.pairStart=s.cursors.pairBlocks) (hplan : plan.Sound) :
    Outcome (BooleanToArithmetic.issue env plan input) s (fun out t => out.1.due
      t.cursors.pairBlocks = plan.pairEnd ∧ out.1.Begun ∧ Passes s t) (Grows s) := by
  have hrefl := Grows.refl s
  unfold BooleanToArithmetic.issue
  by_cases hppa : plan.bits>8
  · simp only [if_pos hppa]
    exact outcome_ppaIssue env plan input hst
  simp only [if_neg hppa]
  refine .read ?_
  by_cases hzero : plan.bits=0
  · simp only [if_pos hzero]
    refine outcome_zeros hrefl fun first => outcome_zeros hrefl fun second => .pure ⟨?_,trivial,.refl s⟩
    exact (hst.symm.trans (hplan.empty hzero).symm)
  simp only [if_neg hzero]
  have hend := hplan.transfer hzero (by omega)
  refine .ofExcept hrefl fun q hq => ?_
  obtain ⟨-,-,-,rfl⟩ := typedBlocks_eq_ok hq
  refine .ofExcept hrefl fun work hwork => ?_
  obtain ⟨rfl,-,-⟩ := SourceParty.work_eq_ok hwork
  have hmove : s.cursors.Le { s.cursors with
      pairBlocks := plan.pairEnd
      aesWork := s.cursors.aesWork+if s.party = plan.receiver then 2*blockCount plan.expanded 8
        else 4*blockCount plan.expanded 8 } :=
    ⟨le_rfl,by simp only; omega,le_rfl,le_self_add⟩
  have hfill := Filling.start (s := s) (u := { s with cursors := _ }) hmove rfl
  have h0 := hfill.grows
  refine .expect h0 fun seeds _ => .expect h0 fun next _ => ?_
  refine outcome_zeros h0 fun _ => outcome_zeros h0 fun _ => ?_
  refine outcome_fill hfill (by simp [Cursors.bound,hst])
    (by simp [Cursors.bound,hend]; omega) fun r0 a ha haeq => ?_
  refine outcome_fill ha (by simp [Cursors.bound,hst])
    (by simp [Cursors.bound,haeq,hend]; omega) fun r1 b hb hbeq => ?_
  split
  · refine outcome_compose hb.grows fun first => ?_
    refine outcome_zeros hb.grows fun _ => outcome_zeros hb.grows fun _ => ?_
    refine outcome_fill hb (by simp) (by simp [Cursors.bound,haeq,hbeq,hend]; omega)
      fun _ c hc hceq => ?_
    refine outcome_fill hc (by simp; omega) (by simp [Cursors.bound,haeq,hbeq,hceq,hend]; omega)
      fun _ d hd hdeq => ?_
    refine .ofExcept hd.grows fun _ _ => .pure ⟨?_,trivial,hd.grows,?_⟩
    · simp [BooleanToArithmetic.State.due,haeq,hbeq,hceq,hdeq]
    · simp [haeq,hbeq,hceq,hdeq]
  · split
    · refine outcome_compose hb.grows fun second => .pure ⟨?_,trivial,hb.grows,?_⟩
      · simp [BooleanToArithmetic.State.due,haeq,hbeq]
      · simp [haeq,hbeq]
    · refine .read (outcome_compose hb.grows fun first => outcome_compose hb.grows fun second => ?_)
      refine outcome_zeros hb.grows fun _ => ?_
      refine outcome_fill hb (by simp) (by simp [Cursors.bound,haeq,hbeq,hend]; omega)
        fun _ c hc hceq => ?_
      refine outcome_fill hc (by simp; omega)
        (by simp [Cursors.bound,haeq,hbeq,hceq,hend]; omega) fun _ d hd hdeq => ?_
      refine .ofExcept hd.grows fun _ _ => .ofExcept hd.grows fun _ _ =>
        .pure ⟨?_,trivial,hd.grows,?_⟩
      · simp [BooleanToArithmetic.State.due,haeq,hbeq,hceq,hdeq]
      · simp [haeq,hbeq,hceq,hdeq]

lemma outcome_accept {env : Platform} {phase : MessagePhase}
    {message : Message} {s : SourceParty} {good : β → SourceParty → Prop}
    {f : Words → Exec Error SourceParty β} (h : bad s) (hf : ∀ a, Outcome (f a) s good bad) :
    Outcome (BooleanToArithmetic.Ppa.accept env plan phase message >>= f) s good bad := by
  refine .skip h (fun deny k => ?_) hf
  simp [BooleanToArithmetic.Ppa.accept,Puma.charge]

lemma outcome_afterCarry (env : Platform) (plan : BooleanToArithmetic.Plan) (random : Words)
    (output : Boolean.Share) (s : SourceParty) :
    Outcome (BooleanToArithmetic.Ppa.afterCarry env plan random output) s (fun out t => out.1.due
      t.cursors.pairBlocks = s.cursors.pairBlocks ∧ out.1.Begun ∧ t=s) (Grows s) := by
  have hrefl := Grows.refl s
  refine .read ?_
  split
  · exact .pure ⟨rfl,trivial,rfl⟩
  · refine .skip hrefl (fun deny k => ?_) fun reveal => ?_
    · split <;> simp
    · exact outcome_copy hrefl fun _ => .ofExcept hrefl fun _ _ => .pure ⟨rfl,trivial,rfl⟩

lemma outcome_ppaAdvance (env : Platform) (state : BooleanToArithmetic.Ppa.State) (message :
    Message) (s : SourceParty) : Outcome (BooleanToArithmetic.Ppa.advance env state message) s
    (fun out t => out.1.due t.cursors.pairBlocks = (BooleanToArithmetic.State.ppa state).due
    s.cursors.pairBlocks ∧ out.1.Begun ∧ Passes s t) (Grows s) := by
  have hrefl := Grows.refl s
  cases state with
  | split plan random first input =>
    refine outcome_accept hrefl fun second => .read (.ofExcept hrefl fun carry _ => ?_)
    refine (outcome_start env carry input _ s).bind fun out t ht => .pure ⟨rfl,trivial,ht.2⟩
  | carry plan random work =>
    refine (outcome_advance env work message s).bind fun out t ⟨hat,hpass⟩ => ?_
    obtain ⟨next,outgoing⟩ := out
    cases next with
    | circuit work => exact .pure ⟨rfl,trivial,hpass⟩
    | complete output =>
      refine .read (.require hpass.grows fun hend => ?_)
      refine (outcome_afterCarry env plan random output t).mono ?_ fun u hu => hpass.grows.trans hu
      rintro out u ⟨hdue,hbeg,rfl⟩
      exact ⟨hdue.trans hend.2,hbeg,hpass⟩
    | planned plan => exact absurd hat id
    | split plan first other => exact absurd hat id
  | reveal plan first second =>
    refine outcome_accept hrefl fun received => .read (outcome_copy hrefl fun _ => ?_)
    exact .ofExcept hrefl fun _ _ => .pure ⟨rfl,trivial,.refl s⟩
  | rotate plan first =>
    exact outcome_accept hrefl fun second => .read (.pure ⟨rfl,trivial,.refl s⟩)

end Multiply

end Pllm.Puma
