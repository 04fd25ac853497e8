import Pllm.Runtime.RendezvousBulk

/-! Runs of the rendezvous: every order of its sections, with any arguments and clock values. -/
namespace Pllm.Runtime.Corrections
open Pllm.Lib List Dict

inductive Event (T : Type)
  | registerSession (a : SessionAuthorization) (now : T)
  | authorizeSession (a : SessionAuthorization) (payloadBytes : ℤ) (now : T)
  | push (c : CorrectionPush) (payloadBytes : ℤ) (now : T)
  | preloadBulk (c : CorrectionPush) (payloadBytes : ℤ) (now : T)
  | activate (r : MaskedStageRequest) (now : T)
  | correction (r : MaskedStageRequest) (future : ℕ)
  /-- The wait of a consumer ends with the result, or with the time or a cancellation. -/
  | receive (r : MaskedStageRequest) (future : ℕ)
  | abandon (r : MaskedStageRequest) (future : ℕ)
  /-- The cancellation of a wait reaches the future of the entry. -/
  | cancelFuture (future : ℕ)
  | consumePreloadedBatch (r : MaskedStageRequest) (correlationIds : List String) (now : T)
  | abort (r : MaskedStageRequest) (future : ℕ)
  | burnReserved (sessionId : String) (attemptIds : List String)
  | terminal (sessionId : String)
  | close
  | stats (now : T)

def Event.registers {T : Type} : Event T → Bool
  | .registerSession _ _ => true
  | _ => false

inductive Outcome
  | refused (text : String)
  | done
  | registered (sessionId : String)
  | activated (future : ℕ)
  | delivered (ds : List Rendezvous.Delivery)

/-- What a section yields, or the text of its error. -/
def Outcome.of {α : Type} (f : α → Outcome) : Except String α → Outcome
  | .error text => .refused text
  | .ok a => f a

section Clock

variable {T : Type} [Sub T] [LE T] [DecidableLE T]

namespace Rendezvous

def new (timeout : T) (capacity : ℕ) (maxBytes : ℤ) (sessionCapacity : Option ℕ)
    (sessionIdleTimeout zero : T) : Option (Rendezvous T) :=
  let sessionCapacity := sessionCapacity.getD capacity
  if timeout≤zero ∨ capacity=0 ∨ maxBytes≤0 ∨ sessionCapacity=0
      ∨ sessionIdleTimeout≤zero then none
  else some ⟨⟨timeout,capacity,maxBytes,sessionCapacity,sessionIdleTimeout⟩,.empty,.empty,0,
    ⟨0,0,0,0,0⟩,[],[]⟩

def step (proto : Protocol) (q : Rendezvous T) : Event T → Outcome × Rendezvous T
  | .registerSession a now =>
    let p := q.registerSession proto a now
    (.of (fun _ => .registered a.sessionId) p.1,p.2)
  | .authorizeSession a payloadBytes now =>
    let p := q.authorizeSession proto a payloadBytes now
    (.of (fun _ => .done) p.1,p.2)
  | .push c payloadBytes now =>
    let p := q.push c payloadBytes now
    (.of (fun _ => .done) p.1,p.2)
  | .preloadBulk c payloadBytes now =>
    let p := q.preloadBulk proto c payloadBytes now
    (.of (fun _ => .done) p.1,p.2)
  | .activate r now =>
    let p := q.activate r now
    (.of .activated p.1,p.2)
  | .correction r future =>
    let p := q.correction r future
    (.of (fun _ => .done) p.1,p.2)
  | .receive r future =>
    if (r,future)∈q.waiting then
      let p := q.receive r future
      (.of .delivered p.1,p.2)
    else (.done,q)
  | .abandon r future =>
    if (r,future)∈q.waiting then
      let p := q.abandon r future
      (.of (fun _ => .done) p.1,p.2)
    else (.done,q)
  | .cancelFuture future => (.done,{ q with futures := q.futures.modify future Future.cancel })
  | .consumePreloadedBatch r correlationIds now =>
    let p := q.consumePreloadedBatch r correlationIds now
    (.of .delivered p.1,p.2)
  | .abort r future =>
    let p := q.abort r future
    (.of (fun _ => .done) p.1,p.2)
  | .burnReserved sessionId attemptIds =>
    let p := q.burnReserved sessionId attemptIds
    (.of (fun _ => .done) p.1,p.2)
  | .terminal sessionId => (.done,q.terminal sessionId)
  | .close => (.done,q.close)
  | .stats now => (.done,q.cleanup now)

end Rendezvous

/-- A run remembers the sessions in the order of their registrations, and each delivery under the
number of registrations that its session had. -/
structure Run (T : Type) where
  state : Rendezvous T
  registrations : List String
  delivered : List (ℕ × Rendezvous.Delivery)

namespace Run

def start (q : Rendezvous T) : Run T := ⟨q,[],[]⟩

def ordinal (r : Run T) (id : String) : ℕ := r.registrations.count id

def note (r : Run T) : Outcome → Run T
  | .registered id => { r with registrations := r.registrations++[id] }
  | .delivered ds => { r with delivered := r.delivered++ds.map fun d => (r.ordinal d.key.1,d) }
  | _ => r

def step (proto : Protocol) (r : Run T) (e : Event T) : Run T :=
  { r.note (r.state.step proto e).1 with state := (r.state.step proto e).2 }

def after (proto : Protocol) (r : Run T) (events : List (Event T)) : Run T :=
  events.foldl (step proto) r

end Run

namespace Rendezvous

/-- The condition on a section: only a batch that fails can admit attempts by burning them. -/
def Admissible (q : Rendezvous T) : Event T → Prop
  | .consumePreloadedBatch r ids now => FitsBatch q r ids now
  | _ => True

omit [Sub T] [LE T] [DecidableLE T] in
lemma live_eq_zero {q : Rendezvous T} {id : String}
    (none : ∀ k e,q.entries.get? k = some e → k.1≠id) : q.live id = 0 := by
  refine sum_eq_zero fun x m => ?_
  obtain ⟨⟨k,e⟩,mem,rfl⟩ := mem_map.mp m
  exact if_neg (none k e (get?_eq_some.mpr mem))

/-- A registration adds a session that no entry belongs to. -/
structure Registers (q : Rendezvous T) (id : String) (p : Except String Unit × Rendezvous T) :
    Prop where
  inv : Inv q → Inv p.2
  room : Inv q → Room q → Room p.2
  refused : ∀ text,p.1 = .error text → Safe q p.2
  sessions : ∀ x s',x≠id → p.2.sessions.get? x = some s' →
    ∃ s,q.sessions.get? x = some s ∧ s.burned ⊆ s'.burned

omit [Sub T] [LE T] [DecidableLE T] in
lemma Registers.of_error {q q' : Rendezvous T} {id text : String} (safe : Safe q q') :
    Registers q id (.error text,q') := by
  refine ⟨safe.inv,safe.room,fun _ _ => safe,fun x s' _ get => ?_⟩
  obtain ⟨s,get,sub,-⟩ := safe.sessions x s' get
  exact ⟨s,get,sub⟩

section
variable (proto : Protocol)

variable (q : Rendezvous T)

lemma registerSession_registers (a : SessionAuthorization) (now : T) : Registers q a.sessionId
    (q.registerSession proto a now) := by
  have clean := q.cleanup_safe now
  dsimp only [registerSession]
  split
  · exact .of_error (.refl q)
  split
  · exact .of_error clean
  rename_i new
  split
  · exact .of_error clean
  rename_i capacity
  have foreign (i : Inv (q.cleanup now)) (k : Key) (e : Entry T)
      (h : (q.cleanup now).entries.get? k = some e) : k.1≠a.sessionId := by
    obtain ⟨s,known,-⟩ := i.known k e h
    rintro eq
    rw [eq,new] at known
    cases known
  refine ⟨fun i => ?_,fun i r id s h => ?_,fun _ eq => (by cases eq),fun x s' other h => ?_⟩
  · have i := clean.inv i
    refine { i with sessions_le := ?_, known := fun k e h => ?_ }
    · rw [size_eq_sum,sum_insert _ new,← size_eq_sum]
      exact not_le.mp capacity
    · obtain ⟨s,known,out⟩ := i.known k e h
      exact ⟨s,by rw [get?_set,if_neg (foreign i k e h)]; exact known,out⟩
  · simp only [get?_set] at h
    split at h
    · rename_i eq
      cases h
      have : (q.cleanup now).live id=0 := live_eq_zero (eq ▸ foreign (clean.inv i))
      exact (zero_add _).trans_le (this.trans_le zero_le)
    · exact clean.room i r id s h
  · simp only [get?_set,if_neg other] at h
    obtain ⟨s,get,sub,-⟩ := clean.sessions x s' h
    exact ⟨s,get,sub⟩

lemma step_safe (e : Event T) (fits : Admissible q e)
    (other : e.registers=false) : Safe q (q.step proto e).2 := by
  cases e with
  | registerSession a now => cases other
  | authorizeSession a payload now => exact q.authorizeSession_safe proto a payload now
  | push c payload now => exact q.push_safe c payload now
  | preloadBulk c payload now => exact (q.preloadBulk_bulked proto c payload now).1
  | activate r now => exact q.activate_safe r now
  | correction r future => exact q.correction_safe r future
  | receive r future =>
    simp only [step]
    split <;> [exact (q.receive_delivers r future).1; exact .refl q]
  | abandon r future =>
    simp only [step]
    split <;> [exact q.abandon_safe r future; exact .refl q]
  | cancelFuture future => exact .of_eq rfl rfl rfl rfl
  | consumePreloadedBatch r ids now => exact (q.consumePreloadedBatch_delivers r ids now).2 fits
  | abort r future => exact q.abort_safe r future
  | burnReserved id ids => exact q.burnReserved_safe id ids
  | terminal id => exact q.terminal_safe id
  | close => exact q.close_safe
  | stats now => exact q.cleanup_safe now

lemma step_keeps (e : Event T) (other : e.registers=false) : Keeps q (q.step proto e).2 := by
  cases e with
  | consumePreloadedBatch r ids now => exact (q.consumePreloadedBatch_delivers r ids now).1.keeps
  | _ =>
    refine (q.step_safe proto _ ?_ other).toKeeps
    trivial

lemma step_inv {q : Rendezvous T} (inv : Inv q) (e : Event T) : Inv (q.step proto e).2 := by
  cases e with
  | registerSession a now => exact (q.registerSession_registers proto a now).inv inv
  | _ => exact (q.step_keeps proto _ rfl).inv inv

lemma step_room {q : Rendezvous T} (inv : Inv q) (room : Room q)
    {e : Event T} (fits : Admissible q e) : Room (q.step proto e).2 := by
  cases e with
  | registerSession a now => exact (q.registerSession_registers proto a now).room inv room
  | _ => exact (q.step_safe proto _ fits rfl).room inv room

lemma step_limits (e : Event T) : (q.step proto e).2.limits = q.limits := by
  cases e with
  | registerSession a now =>
    have clean := (q.cleanup_safe now).limits
    dsimp only [step,registerSession]
    split
    · rfl
    split
    · exact clean
    split <;> exact clean
  | _ => exact (q.step_keeps proto _ rfl).limits

end

end Rendezvous

namespace Run
open Rendezvous

/-- A delivery that matches its request. -/
def Matches (d : Delivery) : Prop :=
  d.correction.metadata=d.requested ∧
    key d.requested.sessionId d.requested.attemptId = .ok d.key

/-- How a later state of a run stands to an earlier one. Within one registration of a session burned
attempts stay burned, and what is delivered was open before and is spent after. -/
structure Evolves (r t : Run T) : Prop where
  ordinal : ∀ id,r.ordinal id ≤ t.ordinal id
  sessions : ∀ id,r.ordinal id = t.ordinal id → ∀ s',t.state.sessions.get? id = some s' →
    ∃ s,r.state.sessions.get? id = some s ∧ s.burned ⊆ s'.burned
  delivered : ∃ new,t.delivered = r.delivered++new ∧ (new.map fun d => (d.1,d.2.key)).Nodup ∧
    ∀ d∈new,Matches d.2 ∧ r.ordinal d.2.key.1 ≤ d.1 ∧ d.1 ≤ t.ordinal d.2.key.1 ∧
      (d.1 = r.ordinal d.2.key.1 → Open r.state d.2.key) ∧
      (d.1 = t.ordinal d.2.key.1 → Spent t.state d.2.key)

omit [Sub T] [LE T] [DecidableLE T] in
lemma Evolves.refl (r : Run T) : Evolves r r :=
  ⟨fun _ => le_rfl,fun _ _ s h => ⟨s,h,subset_rfl⟩,[],by simp⟩

omit [Sub T] [LE T] [DecidableLE T] in
lemma Evolves.trans {r m t : Run T} (h : Evolves r m) (h' : Evolves m t) : Evolves r t := by
  have ordinal (id : String) : r.ordinal id ≤ t.ordinal id := (h.ordinal id).trans (h'.ordinal id)
  obtain ⟨new,eq,nodup,all⟩ := h.delivered
  obtain ⟨new',eq',nodup',all'⟩ := h'.delivered
  refine ⟨ordinal,fun id same s' get => ?_,new++new',by rw [eq',eq,append_assoc],?_, fun d m => ?_⟩
  · have low := h.ordinal id
    have high := h'.ordinal id
    obtain ⟨s,get,sub⟩ := h'.sessions id (by omega) s' get
    obtain ⟨s₀,get,sub₀⟩ := h.sessions id (by omega) s get
    exact ⟨s₀,get,sub₀.trans sub⟩
  · rw [map_append]
    refine nodup_append.mpr ⟨nodup,nodup',?_⟩
    -- a delivery on either side would find the attempt both spent and open
    rintro x mx y my rfl
    obtain ⟨d,m,rfl⟩ := mem_map.mp mx
    obtain ⟨d',m',same⟩ := mem_map.mp my
    obtain ⟨-,-,high,-,spent⟩ := all d m
    obtain ⟨-,low,-,open_,-⟩ := all' d' m'
    obtain ⟨ord,key⟩ := Prod.mk.inj same
    rw [key] at low open_
    obtain ⟨s,get,out⟩ := open_ (by omega)
    exact out (spent (by omega) s get)
  · rcases mem_append.mp m with m | m
    · obtain ⟨matches_,low,high,open_,spent⟩ := all d m
      have later := h'.ordinal d.2.key.1
      refine ⟨matches_,low,high.trans later,open_,fun eq s' get => ?_⟩
      obtain ⟨s,get,sub⟩ := h'.sessions _ (by omega) s' get
      exact sub (spent (by omega) s get)
    · obtain ⟨matches_,low,high,open_,spent⟩ := all' d m
      have earlier := h.ordinal d.2.key.1
      refine ⟨matches_,earlier.trans low,high,fun eq => ?_,spent⟩
      obtain ⟨s',get,out⟩ := open_ (by omega)
      obtain ⟨s,get,sub⟩ := h.sessions _ (by omega) s' get
      exact ⟨s,get,fun burned => out (sub burned)⟩

omit [Sub T] [LE T] [DecidableLE T] in
lemma Evolves.of_keeps {r : Run T} {q : Rendezvous T} (keeps : Keeps r.state q) :
    Evolves r { r with state := q } := by
  refine ⟨fun _ => le_rfl,fun id _ s' get => ?_,[],by simp⟩
  obtain ⟨s,get,sub,-⟩ := keeps.sessions id s' get
  exact ⟨s,get,sub⟩

omit [Sub T] [LE T] [DecidableLE T] in
lemma Evolves.of_delivers {r : Run T} {p : Except String (List Delivery) × Rendezvous T}
    (inv : Inv r.state) (h : Delivers r.state p) :
    Evolves r { r.note (.of .delivered p.1) with state := p.2 } := by
  obtain ⟨result,q⟩ := p
  cases result with
  | error text => exact .of_keeps h.keeps
  | ok ds =>
    refine ⟨fun _ => le_rfl,(Evolves.of_keeps h.keeps).sessions,_,rfl,?_,fun d m => ?_⟩
    · rw [map_map]
      refine Nodup.of_map Prod.snd ?_
      rw [map_map]
      exact h.nodup ds rfl
    · obtain ⟨d',m',rfl⟩ := mem_map.mp m
      obtain ⟨metadata,key,before,after⟩ := h.delivered ds rfl d' m'
      exact ⟨⟨metadata,key⟩,le_rfl,le_rfl,fun _ => before inv,fun _ => after⟩

section
variable (proto : Protocol)

variable {r : Run T}

lemma step_evolves (inv : Inv r.state) (e : Event T) : Evolves r (r.step proto e) := by
  have silent {α : Type} {x : Except String α} {q : Rendezvous T} (keeps : Keeps r.state q) :
      Evolves r { r.note (.of (fun _ => .done) x) with state := q } := by
    cases x <;> exact .of_keeps keeps
  cases e with
  | registerSession a now =>
    have h := r.state.registerSession_registers proto a now
    simp only [step,Rendezvous.step]
    generalize r.state.registerSession proto a now=p at h
    obtain ⟨result,q⟩ := p
    cases result with
    | error text => exact .of_keeps (h.refused text rfl).toKeeps
    | ok u =>
      have ordinal (id : String) : (r.registrations++[a.sessionId]).count id =
          r.ordinal id + if a.sessionId=id then 1 else 0 := by
        rw [count_append,count_singleton]
        simp [Run.ordinal]
      refine ⟨fun id => ?_,fun id same s' get => ?_,[],by simp [note,Outcome.of]⟩
      · exact le_self_add.trans (ordinal id).ge
      · refine h.sessions id s' ?_ get
        rintro rfl
        have : r.ordinal a.sessionId=r.ordinal a.sessionId + 1 :=
          same.trans ((ordinal _).trans (by simp))
        omega
  | receive request future =>
    simp only [step,Rendezvous.step]
    split
    · exact .of_delivers inv (r.state.receive_delivers _ _).2
    · exact .of_keeps (.refl _)
  | abandon request future =>
    simp only [step,Rendezvous.step]
    split
    · exact silent (x := (r.state.abandon request future).1)
        (r.state.abandon_safe request future).toKeeps
    · exact .of_keeps (.refl _)
  | consumePreloadedBatch request ids now =>
    exact .of_delivers inv (r.state.consumePreloadedBatch_delivers request ids now).1
  | activate request now =>
    have keeps := (r.state.activate_safe request now).toKeeps
    simp only [step,Rendezvous.step]
    generalize r.state.activate request now=p at keeps
    obtain ⟨result,q⟩ := p
    cases result <;> exact .of_keeps keeps
  | cancelFuture future => exact .of_keeps (r.state.step_keeps proto (.cancelFuture future) rfl)
  | terminal id => exact .of_keeps (r.state.terminal_safe id).toKeeps
  | close => exact .of_keeps r.state.close_safe.toKeeps
  | stats now => exact .of_keeps (r.state.cleanup_safe now).toKeeps
  | _ => exact silent (r.state.step_keeps proto _ rfl)

lemma after_inv (inv : Inv r.state) (events : List (Event T)) :
    Inv (r.after proto events).state := by
  induction events generalizing r with
  | nil => exact inv
  | cons e events ih => exact ih (step_inv proto inv e)

lemma after_limits (r : Run T) (events : List (Event T)) :
    (r.after proto events).state.limits = r.state.limits := by
  induction events generalizing r with
  | nil => rfl
  | cons e events ih => exact (ih (r.step proto e)).trans (step_limits proto r.state e)

lemma after_evolves (inv : Inv r.state)
    (events : List (Event T)) : Evolves r (r.after proto events) := by
  induction events generalizing r with
  | nil => exact .refl r
  | cons e events ih => exact (step_evolves proto inv e).trans (ih (step_inv proto inv e))

lemma after_room (inv : Inv r.state) (room : Room r.state)
    {events : List (Event T)} (fits : ∀ before e later,events = before++e::later →
      Admissible (r.after proto before).state e) : Room (r.after proto events).state := by
  induction events generalizing r with
  | nil => exact room
  | cons e events ih =>
    refine ih (step_inv proto inv e) (step_room proto inv room (fits [] e events rfl)) ?_
    intro before e' later eq
    exact fits (e::before) e' later (by rw [eq]; rfl)

end

end Run

open Rendezvous

omit [Sub T] in
lemma Rendezvous.new_inv {timeout idle zero : T} {capacity : ℕ} {maxBytes : ℤ}
    {sessionCapacity : Option ℕ} {q : Rendezvous T}
    (new : Rendezvous.new timeout capacity maxBytes sessionCapacity idle zero = some q) :
    Inv q ∧ Room q ∧ q.limits = ⟨timeout,capacity,maxBytes,sessionCapacity.getD capacity,idle⟩ := by
  dsimp only [Rendezvous.new] at new
  split at new
  · cases new
  rename_i positive
  simp only [not_or,not_le] at positive
  cases new
  have noEntry {k : Key} {e : Entry T} : (empty : Dict Key (Entry T)).get? k ≠ some e := by
    simp
  have noSession {id : String} {s : Session T} :
      (empty : Dict String (Session T)).get? id ≠ some s := by
    simp
  exact ⟨⟨⟨rfl,positive.2.2.1.le,zero_le,fun _ _ h => absurd h noEntry, fun _ _ h => absurd h
    noEntry⟩,zero_le,fun _ _ h => absurd h noEntry⟩, fun _ _ h => absurd h noSession,rfl⟩

/-- Every run: the books, the capacities, one delivery to an attempt, none to a burned one, bulks
that are turned down, and the attempts of a session as long as no failed batch admits too many. -/
theorem rendezvous_runs (proto : Protocol) {timeout idle zero : T} {capacity : ℕ} {maxBytes : ℤ}
    {sessionCapacity : Option ℕ} {q : Rendezvous T} (new : Rendezvous.new timeout capacity maxBytes
    sessionCapacity idle zero = some q) (events : List (Event T)) :
    let r := (Run.start q).after proto events
    (r.state.bytes = r.state.entries.sum (fun _ e => e.correctionBytes) ∧ r.state.bytes ≤ maxBytes) ∧
    (r.state.entries.size ≤ capacity ∧ r.state.sessions.size ≤ sessionCapacity.getD capacity) ∧
    ((r.delivered.map fun d => (d.1,d.2.key)).Nodup ∧ ∀ d∈r.delivered,Run.Matches d.2) ∧
    (∀ later,∃ more,(r.after proto later).delivered = r.delivered++more ∧
      ∀ id s,r.state.sessions.get? id = some s → ∀ attempt∈s.burned,
        ∀ d∈more,d.2.key=(id,attempt) → d.1 ≠ r.ordinal id) ∧
    (∀ c payloadBytes now text, (r.state.preloadBulk proto c payloadBytes now).1 = .error text →
        (r.state.preloadBulk proto c payloadBytes now).2 = r.state ∨
        (r.state.preloadBulk proto c payloadBytes now).2 = r.state.cleanup now) ∧
    ((∀ before e later,events = before++e::later →
        Admissible ((Run.start q).after proto before).state e) →
      ∀ id s,r.state.sessions.get? id = some s →
        s.burned.card + r.state.live id ≤ s.expected.maxAttempts) := by
  intro r
  obtain ⟨inv₀,room₀,limits₀⟩ := new_inv new
  have inv : Inv r.state := Run.after_inv proto inv₀ events
  have limits : r.state.limits=q.limits := Run.after_limits proto (Run.start q) events
  have evolves : Run.Evolves (Run.start q) r := Run.after_evolves proto inv₀ events
  refine ⟨⟨inv.bytes_eq,?_⟩,⟨?_,?_⟩,?_,fun later => ?_,fun c payload now text refused => ?_,
    fun fits => Run.after_room proto inv₀ room₀ fits⟩
  · simpa [limits,limits₀] using inv.bytes_le
  · simpa [limits,limits₀] using inv.entries_le
  · simpa [limits,limits₀] using inv.sessions_le
  · obtain ⟨delivered,eq,nodup,all⟩ := evolves.delivered
    rw [eq]
    exact ⟨nodup,fun d m => (all d m).1⟩
  · obtain ⟨more,eq,-,all⟩ := (Run.after_evolves proto inv later).delivered
    refine ⟨more,eq,fun id s get attempt burned d m key same => ?_⟩
    obtain ⟨-,-,-,open_,-⟩ := all d m
    obtain ⟨s',get',out⟩ := open_ (by rw [key]; exact same)
    rw [key] at get' out
    obtain rfl : s=s' := Option.some.inj (get.symm.trans get')
    exact out burned
  · exact (r.state.preloadBulk_bulked proto c payload now).2 text refused

end Clock

def anyProtocol : Protocol := ⟨fun _ => true,fun _ => true,fun _ _ => ""⟩

def oneAttempt : SessionAuthorization :=
  ⟨"session","model","body","stages",8,8,1,1,["stage"],"none",0,[]⟩

def twoRows : MaskedStageRequest :=
  ⟨"model","stage","",[2,1],256,8,none,"body","digest",8,8,"session",1,1⟩

/-- A batch of two attempts that nobody ever pushed. -/
def unknownBatch : Event ℤ :=
  .consumePreloadedBatch twoRows
    ["00000000000000000000000000000000","00000000000000000000000000000001"] 0

def oneRow : MaskedStageRequest :=
  { twoRows with correlationId := "00000000000000000000000000000000", shape := [1,1] }

/-- A correction that is pushed, activated and received. -/
def delivery : List (Event ℤ) :=
  [.registerSession oneAttempt 0,.authorizeSession oneAttempt 1 0,.push ⟨oneRow.metadata,[[5]],0⟩ 1 0,
    .activate oneRow 0,.correction oneRow 0,.receive oneRow 0]

theorem rendezvous_runs_one : ∃ q,Rendezvous.new (1:ℤ) 1 1 none 1 0 = some q ∧
    let r := (Run.start q).after anyProtocol delivery
    (r.delivered.map fun d => (d.1,d.2.correction.correction)) = [(1,[[5]])] ∧
    (r.delivered.map fun d => (d.1,d.2.key)).Nodup ∧ r.state.bytes ≤ 1 ∧
    ∀ s,r.state.sessions.get? "session" = some s →
      s.burned.card + r.state.live "session" ≤ s.expected.maxAttempts := by
  have new : Rendezvous.new (1:ℤ) 1 1 none 1 0=some _ := rfl
  obtain ⟨books,-,once,-,-,attempts⟩ := rendezvous_runs anyProtocol new delivery
  refine ⟨_,new,by decide,once.1,books.2,attempts (fun before e later eq => ?_) "session"⟩
  have m : e∈delivery := eq ▸ by simp
  simp only [delivery,mem_cons,not_mem_nil,or_false] at m
  obtain rfl | rfl | rfl | rfl | rfl | rfl := m <;> trivial

/-- A failed batch burns what its session never admitted, beyond the attempts of the session. -/
theorem failed_batch_exceeds_attempts : ∃ q,Rendezvous.new (1:ℤ) 1 1 none 1 0 = some q ∧
    ∃ s,((Run.start q).after anyProtocol [.registerSession oneAttempt 0,
      .authorizeSession oneAttempt 1 0,unknownBatch]).state.sessions.get? "session" = some s ∧
    s.expected.maxAttempts < s.burned.card := by
  decide

end Pllm.Runtime.Corrections
