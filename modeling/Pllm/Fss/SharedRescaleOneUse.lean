import Pllm.Fss.SharedRescaleRun

/-! One use of the rescaling correlations: whatever calls a party receives, in any order and with
any bytes, its masks leave it in at most one frame a phase. -/
namespace Pllm.Fss.SharedRescale
open List

inductive Call
  | start (input : List (BitVec 32))
  | advance (peer : List Byte)
  | cancel

/-- What the caller of a party sees. -/
inductive Reply
  | frame (bytes : List Byte)
  | complete (outputs : List OutputShare)
  | failed (e : Error)
  | cancelled

namespace Reply

def ofStart : Except Error (List Byte) → Reply
  | .ok bytes => frame bytes
  | .error e => failed e

def ofAdvance : Except Error Progress → Reply
  | .ok (.opening bytes) => frame bytes
  | .ok (.complete outputs) => complete outputs
  | .error e => failed e

def Succeeds : Reply → Prop
  | frame _ | complete _ => True
  | failed _ | cancelled => False

def bytes? : Reply → Option (List Byte)
  | frame bytes => some bytes
  | _ => none

def outputs? : Reply → Option (List OutputShare)
  | complete outputs => some outputs
  | _ => none

end Reply

/-- The lane without its mask: all that the comparisons and constants of a phase read. -/
def Lane.unmasked (lane : Lane) : Lane := { lane with maskShare := 0 }

variable {m : Material} {own rounding : List (BitVec 32)}

namespace Party

def call (env : Platform) (self : Party) : Call → Reply × Party
  | .start input => ((self.start input).1 |> Reply.ofStart,(self.start input).2)
  | .advance peer => ((self.advance env peer).1 |> Reply.ofAdvance,(self.advance env peer).2)
  | .cancel => (.cancelled,self.cancel)

/-- The party after a sequence of calls. -/
def after (env : Platform) (self : Party) : List Call → Party
  | [] => self
  | c::calls => after env (self.call env c).2 calls

/-- The replies of a sequence of calls, in order. -/
def replies (env : Platform) (self : Party) : List Call → List Reply
  | [] => []
  | c::calls => (self.call env c).1::replies env (self.call env c).2 calls

/-- The frames a sequence of calls emits. -/
def frames (env : Platform) (self : Party) (calls : List Call) : List (List Byte) :=
  (self.replies env calls).filterMap Reply.bytes?

/-- The results a sequence of calls returns. -/
def completions (env : Platform) (self : Party) (calls : List Call) : List (List OutputShare) :=
  (self.replies env calls).filterMap Reply.outputs?

/-- What a phase computes from the opened words: no lane's mask is read. -/
def phase (env : Platform) (self : Party) (index : ℕ) (lanes : List Lane)
    (own peer rounding : List (BitVec 32)) : List LaneOutput :=
  phaseOutputs env self.descriptor self.layout index self.id (lanes.map Lane.unmasked) own peer
    rounding

lemma phase_eq (env : Platform) (self : Party) (index : ℕ) (lanes : List Lane)
    (own peer rounding : List (BitVec 32)) : phaseOutputs env self.descriptor self.layout
    index self.id lanes own peer rounding = self.phase env index lanes own peer rounding := by
  unfold phase phaseOutputs
  rw [zipIdx_map,map_map]
  rfl

/-- The words a party opens in its second phase, from what it and its peer opened before. -/
def secondWords (env : Platform) (self : Party) (current next : List Lane)
    (own peer : List (BitVec 32)) : List (BitVec 32) :=
  masked (self.descriptor.bits-self.descriptor.shift)
    ((self.phase env 0 current own peer []).map LaneOutput.scaled) next

def outputShares (self : Party) (outputs : List LaneOutput) : List OutputShare :=
  outputs.map fun output => ⟨(output.scaled+output.increment) &&& mask self.descriptor.bits,
    output.sign &&& mask self.descriptor.bits⟩

/-- What follows the first frame of an undisturbed run. -/
def rest (env : Platform) (self : Party) (m : Material) (own peer peer' : List (BitVec 32)) :
    List Reply :=
  let outputs := self.phase env 0 m.current own peer []
  match m.next with
  | none => [.complete (self.outputShares outputs)]
  | some next =>
    let own' := self.secondWords env m.current next own peer
    [.frame (self.frame 1 own'),.complete (self.outputShares
      (self.phase env 1 next own' peer' (outputs.map LaneOutput.increment)))]

/-- The replies of an undisturbed run: the masks of each phase's lanes enter its frame alone. -/
def script (env : Platform) (self : Party) (m : Material) (input peer peer' : List (BitVec 32)) :
    List Reply :=
  let own := masked self.descriptor.bits input m.current
  .frame (self.frame 0 own)::self.rest env m own peer peer'

/-- The replies that carry a frame or a result. -/
def successes (env : Platform) (self : Party) (calls : List Call) : List Reply :=
  (self.replies env calls).filter fun reply => reply.bytes?.isSome || reply.outputs?.isSome

variable {env : Platform} {self : Party}

@[simp] lemma successes_cons (c : Call) (calls : List Call) :
    self.successes env (c::calls) =
      (match (self.call env c).1 with
        | .frame bytes => [.frame bytes]
        | .complete outputs => [.complete outputs]
        | _ => [])++(self.call env c).2.successes env calls := by
  unfold successes
  rw [replies]
  cases (self.call env c).1 <;> simp [Reply.bytes?,Reply.outputs?]

lemma start_cases (self : Party) (input : List (BitVec 32)) :
    (∃ e, (self.start input).1 = .error e ∧ (self.start input).2.state = none) ∨
      ∃ m, self.state = some (.ready m) ∧
        let own := masked self.descriptor.bits input m.current
        self.start input =
          (.ok (self.frame 0 own),{ self with state := some (.waiting 0 m own []) }) := by
  unfold start
  split
  · exact .inl ⟨_,rfl,by assumption⟩
  · exact .inl ⟨_,rfl,rfl⟩
  · rename_i m hs
    split_ifs with hinp
    · exact .inl ⟨_,rfl,rfl⟩
    · exact .inr ⟨m,hs,rfl⟩

variable (env) in
lemma advance_cases {phase : ℕ}
    (hs : self.state = some (.waiting phase m own rounding)) (hph : phase≤1)
    (bytes : List Byte) :
    (∃ e, (self.advance env bytes).1 = .error e ∧ (self.advance env bytes).2.state = none) ∨
      ∃ peer, let outputs := self.phase env phase m.current own peer rounding
        (m.next=none ∧
          self.advance env bytes = (.ok (.complete (self.outputShares outputs)),self.cancel)) ∨
        ∃ next, m.next = some next ∧
          let own' := masked (self.descriptor.bits-self.descriptor.shift)
            (outputs.map LaneOutput.scaled) next
          self.advance env bytes = (.ok (.opening (self.frame 1 own')),{ self with
            state := some (.waiting 1 ⟨next,none⟩ own' (outputs.map LaneOutput.increment)) }) := by
  have hbits : (if phase=0 then self.descriptor.bits
      else self.descriptor.bits-self.descriptor.shift)=self.descriptor.phaseBits phase := by
    obtain rfl | rfl : phase=0 ∨ phase=1 := by omega
    · rfl
    · rfl
  cases hp : self.parse bytes phase (self.descriptor.phaseBits phase) with
  | error e => exact .inl ⟨e,by simp [advance,hs,hbits,hp],by simp [advance,hs,hbits,hp]⟩
  | ok peer =>
    refine .inr ⟨peer,?_⟩
    rw [← phase_eq]
    cases hnext : m.next with
    | none => exact .inl ⟨rfl,by simp [advance,hs,hbits,hp,hnext,phaseOutputs,outputShares,cancel]⟩
    | some next =>
      exact .inr ⟨next,rfl,by simp [advance,hs,hbits,hp,hnext,phaseOutputs,masked,
        zipWith_map_left]⟩

variable (env) in
lemma advance_idle (h : ∀ phase m own rounding, self.state ≠ some (.waiting phase m own rounding))
    (bytes : List Byte) :
    ∃ e, (self.advance env bytes).1 = .error e ∧ (self.advance env bytes).2.state = none := by
  unfold advance
  split
  · exact ⟨_,rfl,by assumption⟩
  · exact ⟨_,rfl,rfl⟩
  · rename_i hs
    exact absurd hs (h _ _ _ _)

lemma call_refused {c : Call} (h : ¬(self.call env c).1.Succeeds) :
    (self.call env c).2.state = none := by
  cases c with
  | cancel => rfl
  | start input =>
    obtain ⟨e,he,hnone⟩ | ⟨m,hs,heq⟩ := self.start_cases input
    · exact hnone
    · simp [call,heq,Reply.ofStart,Reply.Succeeds] at h
  | advance peer =>
    simp only [call,advance] at h ⊢
    split
    · assumption
    · rfl
    · rename_i phase material own rounding hs
      simp only [hs] at h
      split
      · rfl
      · rename_i words hp
        simp only [hp] at h
        cases hnext : material.next <;>
          simp [hnext,Reply.ofAdvance,Reply.Succeeds] at h ⊢

variable (env) in
lemma call_stateless (h : self.state=none) (c : Call) :
    ¬(self.call env c).1.Succeeds ∧ (self.call env c).2.state = none := by
  have href : ¬(self.call env c).1.Succeeds := by
    cases c <;> simp [call,start,advance,h,Reply.ofStart,Reply.ofAdvance,Reply.Succeeds]
  exact ⟨href,call_refused href⟩

lemma after_append (first rest : List Call) :
    self.after env (first++rest) = (self.after env first).after env rest := by
  induction first generalizing self with
  | nil => rfl
  | cons c first ih => exact ih

lemma after_stateless (h : self.state=none) (calls : List Call) :
    (self.after env calls).state = none := by
  induction calls generalizing self with
  | nil => exact h
  | cons c calls ih => exact ih (call_stateless env h c).2

lemma successes_stateless (h : self.state=none) (calls : List Call) :
    self.successes env calls = [] := by
  induction calls generalizing self with
  | nil => rfl
  | cons c calls ih =>
    obtain ⟨href,hnone⟩ := call_stateless env h c
    cases hr : (self.call env c).1 <;> simp_all [Reply.Succeeds]

lemma successes_refused {c : Call} (h : ¬(self.call env c).1.Succeeds) (calls : List Call) :
    self.successes env (c::calls) = [] := by
  rw [successes_cons,successes_stateless (call_refused h)]
  cases hr : (self.call env c).1 with
  | frame bytes => exact absurd (hr ▸ trivial) h
  | complete outputs => exact absurd (hr ▸ trivial) h
  | failed e => rfl
  | cancelled => rfl

variable (env) in
lemma successes_last {phase : ℕ} {current : List Lane}
    (hs : self.state = some (.waiting phase ⟨current,none⟩ own rounding)) (hph : phase≤1)
    (calls : List Call) :
    ∃ peer, self.successes env calls <+:
      [.complete (self.outputShares (self.phase env phase current own peer rounding))] := by
  cases calls with
  | nil => exact ⟨[], nil_prefix⟩
  | cons c calls =>
    by_cases hc : (self.call env c).1.Succeeds
    · cases c with
      | cancel => exact absurd hc not_false
      | start input =>
        obtain ⟨e,he,-⟩ | ⟨m,hm,-⟩ := self.start_cases input
        · simp [call,he,Reply.ofStart,Reply.Succeeds] at hc
        · simp [hs] at hm
      | advance bytes =>
        obtain ⟨e,he,-⟩ | ⟨peer,⟨-,heq⟩ | ⟨next,hnext,-⟩⟩ :=
          advance_cases env hs hph bytes
        · simp [call,he,Reply.ofAdvance,Reply.Succeeds] at hc
        · refine ⟨peer,?_⟩
          rw [successes_cons,call,heq,successes_stateless rfl]
          exact prefix_rfl
        · cases hnext
    · rw [successes_refused hc]
      exact ⟨[], nil_prefix⟩

variable (env) in
lemma successes_first (hs : self.state = some (.waiting 0 m own [])) (calls : List Call) :
    ∃ peer peer', self.successes env calls <+: self.rest env m own peer peer' := by
  cases calls with
  | nil => exact ⟨[],[], nil_prefix⟩
  | cons c calls =>
    by_cases hc : (self.call env c).1.Succeeds
    · cases c with
      | cancel => exact absurd hc not_false
      | start input =>
        obtain ⟨e,he,-⟩ | ⟨m,hm,-⟩ := self.start_cases input
        · simp [call,he,Reply.ofStart,Reply.Succeeds] at hc
        · simp [hs] at hm
      | advance bytes =>
        obtain ⟨e,he,-⟩ | ⟨peer,⟨hnext,heq⟩ | ⟨next,hnext,heq⟩⟩ :=
          advance_cases env hs (Nat.zero_le 1) bytes
        · simp [call,he,Reply.ofAdvance,Reply.Succeeds] at hc
        · refine ⟨peer,[],?_⟩
          rw [successes_cons,call,heq,successes_stateless rfl,rest,hnext]
          exact prefix_rfl
        · dsimp only at heq
          have hwait := congrArg (fun result => result.2.state) heq
          obtain ⟨peer',hlast⟩ := successes_last env hwait le_rfl calls
          refine ⟨peer,peer',?_⟩
          rw [successes_cons,call,rest,hnext]
          rw [heq] at hlast ⊢
          exact prefix_append_right_inj _ |>.mpr hlast
    · rw [successes_refused hc]
      exact ⟨[],[], nil_prefix⟩

variable (env) in
lemma successes_ready (hs : self.state = some (.ready m)) (calls : List Call) :
    ∃ input peer peer', self.successes env calls <+: self.script env m input peer peer' := by
  cases calls with
  | nil => exact ⟨[],[],[], nil_prefix⟩
  | cons c calls =>
    by_cases hc : (self.call env c).1.Succeeds
    · cases c with
      | cancel => exact absurd hc not_false
      | start input =>
        obtain ⟨e,he,-⟩ | ⟨m',hm,heq⟩ := self.start_cases input
        · simp [call,he,Reply.ofStart,Reply.Succeeds] at hc
        · obtain rfl : m=m' := by simpa [hs] using hm
          dsimp only at heq
          have hwait := congrArg (fun result => result.2.state) heq
          obtain ⟨peer,peer',hrest⟩ := successes_first env hwait calls
          refine ⟨input,peer,peer',?_⟩
          rw [successes_cons,call,script]
          rw [heq] at hrest ⊢
          exact prefix_append_right_inj [_] |>.mpr hrest
      | advance bytes =>
        have hidle : ∀ phase m own rounding,
            self.state ≠ some (.waiting phase m own rounding) := by simp [hs]
        obtain ⟨e,he,-⟩ := advance_idle env hidle bytes
        simp [call,he,Reply.ofAdvance,Reply.Succeeds] at hc
    · rw [successes_refused hc]
      exact ⟨[],[],[], nil_prefix⟩

lemma frames_eq (calls : List Call) :
    self.frames env calls = (self.successes env calls).filterMap Reply.bytes? := by
  rw [frames,successes,filterMap_filter]
  congr 1
  funext reply
  cases reply <;> rfl

lemma completions_eq (calls : List Call) :
    self.completions env calls = (self.successes env calls).filterMap Reply.outputs? := by
  rw [completions,successes,filterMap_filter]
  congr 1
  funext reply
  cases reply <;> rfl

lemma frame_phase (phase : ℕ) (words : List (BitVec 32)) :
    (self.frame phase words)[72]? = some (BitVec.ofNat 8 phase) := by
  have hmag : magic.length=8 := rfl
  simp [frame,hmag,getElem?_append]

end Party

/-- From issuance on, a refused or cancelled call leaves a party without state for good; what it
gives out is a prefix of one script, so that each phase's masks enter at most one frame and at most
one result is returned. -/
theorem shared_rescale_one_use (env : Platform) {p : Party} {m : Material}
    (h : p.state = some (.ready m)) :
    (∀ before c later, ¬((p.after env before).call env c).1.Succeeds →
      (p.after env (before++c::later)).state = none ∧
        ∀ c', ¬((p.after env (before++c::later)).call env c').1.Succeeds) ∧
    ∀ calls, (∃ input peer peer', p.successes env calls <+: p.script env m input peer peer') ∧
      (∀ k : Byte, (p.frames env calls).countP (fun bytes => bytes[72]? = some k) ≤ 1) ∧
      (p.completions env calls).length ≤ 1 := by
  refine ⟨fun before c later hc => ?_,fun calls => ?_⟩
  · have hnone : (p.after env (before++c::later)).state=none := by
      rw [Party.after_append]
      exact Party.after_stateless (Party.call_refused hc) later
    exact ⟨hnone,fun c' => (Party.call_stateless env hnone c').1⟩
  · obtain ⟨input,peer,peer',hscr⟩ := Party.successes_ready env h calls
    refine ⟨⟨input,peer,peer',hscr⟩,fun k => ?_,?_⟩
    · rw [Party.frames_eq]
      refine ((hscr.filterMap _).sublist.countP_le).trans ?_
      cases hnext : m.next with
      | none =>
        rw [Party.script,Party.rest,hnext]
        exact countP_le_length
      | some next =>
        rw [Party.script,Party.rest,hnext]
        change countP _ [p.frame 0 _,p.frame 1 _] ≤ 1
        simp only [countP_cons,countP_nil,Party.frame_phase,Option.some.injEq, decide_eq_true_eq]
        -- the two phase bytes differ
        grind
    · rw [Party.completions_eq]
      refine ((hscr.filterMap _).length_le).trans ?_
      rw [Party.script,Party.rest]
      cases hnext : m.next with
      | none => exact le_rfl
      | some next => exact le_rfl

/-- A party advanced before it started: a later start gives nothing. -/
theorem shared_rescale_one_use_at :
    let p := partyAt ⟨8,2,.floor,.prefixDpf⟩ .fused 1 0 0 false
      (some (.ready ⟨[⟨9,⟨1,2,3⟩,[],[]⟩],none⟩))
    ¬((p.after sample.1 [.advance []]).call sample.1 (.start [5])).1.Succeeds ∧
      (p.completions sample.1 [.start [5],.advance [],.start [5]]).length ≤ 1 := by
  intro p
  obtain ⟨hdead,hruns⟩ := shared_rescale_one_use sample.1 (p := p) rfl
  exact ⟨(hdead [] (.advance []) [] not_false).2 _,(hruns _).2.2⟩

end Pllm.Fss.SharedRescale
