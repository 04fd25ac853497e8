import Mathlib.Data.List.Nodup

/-! The queue of prepared scopes of one client: seats reserved before anything else, a line of the
scopes that are ready, and one scope that runs. Every section under the condition lock is a step. -/
namespace Pllm.Runtime.PreparedQueue

inductive Error
  | clientClosed
  | capacity
  | scopeRetired
  | alreadyEntered
  | queuedCancelled
  | queuedRetired
  deriving DecidableEq

structure Scope where
  entered : Bool
  retainUntilClose : Bool

/-- A scope is known by its number among all scopes ever made. `waiting` are the threads that wait on
the condition inside an entry, by their scope. -/
structure Queue where
  maximum : ℕ
  scopes : List ℕ
  ready : List ℕ
  active : Option ℕ
  closed : Bool
  peak : ℕ
  objects : List Scope
  waiting : List ℕ

inductive Event
  | admitContext (retainUntilClose : Bool)
  /-- An entry up to its first wait. `cancelled` is what the cancellation says at this moment. -/
  | enter (scope : ℕ) (cancelled : Bool)
  /-- A waiting thread has the lock again. -/
  | resume (scope : ℕ) (cancelled : Bool)
  /-- The wait of a thread ends in an exception. -/
  | interrupt (scope : ℕ)
  | release (scope : ℕ)
  | close
  | wake

inductive Outcome
  | admitted (scope : ℕ)
  /-- The call is turned down before it changes anything. -/
  | refused (e : Error)
  | waits (scope : ℕ)
  | activated (scope : ℕ)
  /-- An entry that was in the line ends in an error. -/
  | failed (scope : ℕ)
  | done
  deriving DecidableEq

namespace Queue

def new (maxRequests : ℕ) : Option Queue :=
  if ¬(1 ≤ maxRequests ∧ maxRequests≤64) then none
  else some ⟨maxRequests,[],[],none,false,0,[],[]⟩

def admitContext (q : Queue) (retainUntilClose : Bool) : Outcome × Queue :=
  if q.closed then (.refused .clientClosed,q)
  else if q.scopes.length≥q.maximum then (.refused .capacity,q)
  else
    let scope := q.objects.length
    (.admitted scope,{ q with
      scopes := q.scopes++[scope]
      objects := q.objects++[⟨false,retainUntilClose⟩]
      peak := max q.peak (q.scopes.length+1) })

def release (q : Queue) (scope : ℕ) : Queue :=
  if scope ∉ q.scopes then q
  else { q with
    scopes := q.scopes.erase scope
    active := if q.active = some scope then none else q.active
    ready := q.ready.erase scope }

def retained (q : Queue) (scope : ℕ) : Bool :=
  (q.objects[scope]?).any Scope.retainUntilClose

def entered (q : Queue) (scope : ℕ) : Bool :=
  (q.objects[scope]?).any Scope.entered

/-- The exception path of an entry. -/
def fail (q : Queue) (scope : ℕ) : Queue :=
  let q := { q with waiting := q.waiting.erase scope }
  if q.retained scope then { q with ready := q.ready.erase scope } else q.release scope

/-- One pass of the loop of an entry. -/
def turn (q : Queue) (scope : ℕ) (cancelled : Bool) : Outcome × Queue :=
  if q.closed ∨ cancelled then (.failed scope,q.fail scope)
  else if scope ∉ q.scopes then (.failed scope,q.fail scope)
  else if q.active=none ∧ q.ready.head? = some scope then
    (.activated scope,{ q with
      ready := q.ready.tail
      active := some scope
      waiting := q.waiting.erase scope })
  else (.waits scope,q)

/-- The queue once an entry has joined the line. -/
def joined (q : Queue) (scope : ℕ) : Queue :=
  { q with
    objects := q.objects.modify scope fun s => { s with entered := true }
    ready := q.ready++[scope]
    waiting := scope::q.waiting }

def enter (q : Queue) (scope : ℕ) (cancelled : Bool) : Outcome × Queue :=
  if scope ∉ q.scopes then (.refused .scopeRetired,q)
  else if q.entered scope then (.refused .alreadyEntered,q)
  else (q.joined scope).turn scope cancelled

/-- An event of a thread that does not wait is none. -/
def step (q : Queue) : Event → Outcome × Queue
  | .admitContext retainUntilClose => q.admitContext retainUntilClose
  | .enter scope cancelled => q.enter scope cancelled
  | .resume scope cancelled =>
    if scope∈q.waiting then q.turn scope cancelled else (.done,q)
  | .interrupt scope => if scope∈q.waiting then (.failed scope,q.fail scope) else (.done,q)
  | .release scope => (.done,q.release scope)
  | .close => (.done,{ q with closed := true })
  | .wake => (.done,q)

end Queue

/-- The scopes that joined the line, that were activated and whose entry failed in the line, each in
order. -/
structure History where
  entries : List ℕ
  activations : List ℕ
  failures : List ℕ

def History.outcome (h : History) : Outcome → History
  | .activated scope => { h with activations := h.activations++[scope] }
  | .failed scope => { h with failures := h.failures++[scope] }
  | _ => h

def History.note (h : History) : Event → Outcome → History
  | .enter _ _, .refused _ => h
  | .enter scope _, o => { h with entries := h.entries++[scope] }.outcome o
  | _, o => h.outcome o

structure Run where
  queue : Queue
  history : History

def Run.start (q : Queue) : Run := ⟨q,⟨[],[],[]⟩⟩

def Run.step (r : Run) (e : Event) : Run :=
  ⟨(r.queue.step e).2,r.history.note e (r.queue.step e).1⟩

def Run.after (r : Run) (events : List Event) : Run := events.foldl Run.step r

open List

namespace Queue

variable {q : Queue} {s x : ℕ} {c : Bool}

section
variable (q : Queue) (s : ℕ)

@[simp] lemma release_objects : (q.release s).objects = q.objects := by
  unfold release
  split <;> rfl

@[simp] lemma release_maximum : (q.release s).maximum = q.maximum := by
  unfold release
  split <;> rfl

@[simp] lemma release_closed : (q.release s).closed = q.closed := by
  unfold release
  split <;> rfl

@[simp] lemma release_waiting : (q.release s).waiting = q.waiting := by
  unfold release
  split <;> rfl

lemma release_scopes : (q.release s).scopes = q.scopes.erase s := by
  unfold release
  split
  · rename_i h
    exact (erase_of_not_mem h).symm
  · rfl

end

lemma mem_release_scopes (h : q.scopes.Nodup) : x ∈ (q.release s).scopes ↔ x≠s ∧ x∈q.scopes := by
  rw [release_scopes,h.mem_erase_iff]

/-- A scope whose entry failed, taken out of the line. -/
def unqueue (q : Queue) (s : ℕ) : Queue :=
  { q with waiting := q.waiting.erase s, ready := q.ready.erase s }

lemma fail_eq (seated : ∀ s∈q.ready,s∈q.scopes) (nodup : q.ready.Nodup) (s : ℕ) :
    q.fail s = if q.retained s then q.unqueue s else (q.unqueue s).release s := by
  have retained : Queue.retained { q with waiting := q.waiting.erase s } s=q.retained s := rfl
  unfold fail
  simp only [retained]
  split
  · rfl
  · by_cases h : s∈q.scopes
    · have twice : (q.ready.erase s).erase s=q.ready.erase s :=
        erase_of_not_mem nodup.not_mem_erase
      simp only [release,unqueue,h,twice]
      rfl
    · have out : q.ready.erase s=q.ready := erase_of_not_mem fun m => h (seated s m)
      simp only [unqueue,out]

lemma entered_joined (q : Queue) (known : s<q.objects.length) (x : ℕ) :
    (q.joined s).entered x = (decide (x=s) || q.entered x) := by
  simp only [entered,joined]
  by_cases h : s=x
  · subst h
    simp [getElem?_eq_getElem known]
  · simp [h,Ne.symm h]

lemma lt_of_entered (h : q.entered s = true) : s<q.objects.length := by
  by_contra out
  simp [entered,getElem?_eq_none (Nat.not_lt.mp out)] at h

lemma turn_cases (q : Queue) (s : ℕ) (c : Bool) :
    ((q.closed=true ∨ c=true ∨ s ∉ q.scopes) ∧ q.turn s c = (.failed s,q.fail s)) ∨
    (q.closed=false ∧ s∈q.scopes ∧ q.active=none ∧ q.ready.head? = some s ∧
      q.turn s c = (.activated s,{ q with
        ready := q.ready.tail, active := some s, waiting := q.waiting.erase s })) ∨
    q.turn s c = (.waits s,q) := by
  unfold turn
  split
  · rename_i h
    exact .inl ⟨h.imp_right .inl,rfl⟩
  · rename_i notClosed
    split
    · rename_i out
      exact .inl ⟨.inr (.inr out),rfl⟩
    · rename_i seated
      split
      · rename_i head
        refine .inr (.inl ⟨?_,not_not.mp seated,head.1,head.2,rfl⟩)
        simpa using fun h => notClosed (.inl h)
      · exact .inr (.inr rfl)

end Queue

/-- `entries` holds every scope that ever joined the line, in order: `activations` and then the line
are a part of it, and what is missing from them has failed or has given up its seat. -/
structure Inv (r : Run) : Prop where
  room : r.queue.scopes.length ≤ r.queue.maximum
  scopes_nodup : r.queue.scopes.Nodup
  known : ∀ s∈r.queue.scopes,s < r.queue.objects.length
  line : (r.history.activations++r.queue.ready).Sublist r.history.entries
  entries_nodup : r.history.entries.Nodup
  mem_entries : ∀ s,s∈r.history.entries ↔ r.queue.entered s = true
  waiting_nodup : r.queue.waiting.Nodup
  waiting_entered : ∀ s∈r.queue.waiting,s∈r.history.entries
  waiting_apart : ∀ s∈r.queue.waiting,s ∉ r.history.activations ∧ s ∉ r.history.failures
  ready_seated : ∀ s∈r.queue.ready,s∈r.queue.scopes
  ready_waits : ∀ s∈r.queue.ready,s∈r.queue.waiting
  failures_entered : ∀ s∈r.history.failures,s∈r.history.entries
  failures_apart : ∀ s∈r.history.failures,s ∉ r.history.activations
  active_seated : ∀ s,r.queue.active = some s → s∈r.queue.scopes
  active_ran : ∀ s,r.queue.active = some s → s∈r.history.activations
  running : ∀ s∈r.history.activations,s∈r.queue.scopes → r.queue.active = some s
  settled : ∀ s∈r.history.entries,s∈r.history.activations ∨ s∈r.queue.ready ∨
    s∈r.history.failures ∨ s ∉ r.queue.scopes

variable {m : ℕ} {r : Run} {e : Event}

namespace Inv

variable {q : Queue} {h : History} {s : ℕ} {c : Bool}

lemma line_nodup (inv : Inv ⟨q,h⟩) : (h.activations++q.ready).Nodup :=
  inv.line.nodup inv.entries_nodup

lemma ready_nodup (inv : Inv ⟨q,h⟩) : q.ready.Nodup :=
  inv.line_nodup.of_append_right

lemma start (new : Queue.new m = some q) : Inv (Run.start q) := by
  unfold Queue.new at new
  split at new
  · cases new
  · cases new
    constructor <;> simp [Run.start,Queue.entered]

section
variable (inv : Inv ⟨q,h⟩)
include inv

lemma admitContext (b : Bool) : Inv ⟨(q.admitContext b).2,h⟩ := by
  unfold Queue.admitContext
  split
  · exact inv
  split
  · exact inv
  · rename_i room
    have fresh : q.objects.length ∉ q.scopes := fun m => Nat.lt_irrefl _ (inv.known _ m)
    have old : ∀ s∈h.entries,s<q.objects.length :=
      fun s m => Queue.lt_of_entered ((inv.mem_entries s).mp m)
    have entered (s : ℕ) : Queue.entered { q with
        scopes := q.scopes++[q.objects.length], objects := q.objects++[⟨false,b⟩],
        peak := max q.peak (q.scopes.length+1) } s = q.entered s := by
      simp only [Queue.entered]
      rcases Nat.lt_trichotomy s q.objects.length with lt | rfl | gt
      · rw [getElem?_append_left lt]
      · simp
      · rw [getElem?_eq_none (by simp; omega),getElem?_eq_none (Nat.le_of_lt gt)]
    exact { inv with
      room := by simp at room ⊢; omega
      scopes_nodup := nodup_append.mpr ⟨inv.scopes_nodup,by simp,by
        rintro a ha b hb rfl
        exact fresh (mem_singleton.mp hb ▸ ha)⟩
      known := by
        intro s m
        rcases mem_append.mp m with m | m
        · exact Nat.lt_of_lt_of_le (inv.known s m) (by simp)
        · simp [mem_singleton.mp m]
      mem_entries := fun s => (inv.mem_entries s).trans (by rw [entered])
      ready_seated := fun s m => mem_append_left _ (inv.ready_seated s m)
      active_seated := fun s m => mem_append_left _ (inv.active_seated s m)
      running := by
        intro s m seat
        rcases mem_append.mp seat with seat | seat
        · exact inv.running s m seat
        · exact absurd (old s (inv.line.subset (mem_append_left _ m)))
            (by simp [mem_singleton.mp seat])
      settled := by
        intro s m
        refine (inv.settled s m).imp_right (Or.imp_right (Or.imp_right fun out seat => ?_))
        rcases mem_append.mp seat with seat | seat
        · exact out seat
        · exact absurd (old s m) (by simp [mem_singleton.mp seat]) }

lemma release (s : ℕ) : Inv ⟨q.release s,h⟩ := by
  have mem {x : ℕ} : x ∈ (q.release s).scopes ↔ x≠s ∧ x∈q.scopes :=
    Queue.mem_release_scopes inv.scopes_nodup
  by_cases seat : s∈q.scopes
  · have ready : (q.release s).ready=q.ready.erase s := by simp [Queue.release,seat]
    have active : (q.release s).active=if q.active=some s then none else q.active := by
      simp [Queue.release,seat]
    have mem_ready {x : ℕ} : x ∈ (q.release s).ready ↔ x≠s ∧ x∈q.ready := by
      rw [ready,inv.ready_nodup.mem_erase_iff]
    exact {
      room := by
        simpa [Queue.release_scopes] using Nat.le_trans length_erase_le inv.room
      scopes_nodup := by simpa [Queue.release_scopes] using inv.scopes_nodup.erase s
      known := fun x m => by simpa using inv.known x (mem.mp m).2
      line := by
        refine Sublist.trans ?_ inv.line
        simpa [ready] using erase_sublist
      entries_nodup := inv.entries_nodup
      mem_entries := fun x => by simpa [Queue.entered] using inv.mem_entries x
      waiting_nodup := by simpa using inv.waiting_nodup
      waiting_entered := by simpa using inv.waiting_entered
      waiting_apart := by simpa using inv.waiting_apart
      ready_seated := fun x m => mem.mpr ⟨(mem_ready.mp m).1,inv.ready_seated x (mem_ready.mp m).2⟩
      ready_waits := fun x m => by simpa using inv.ready_waits x (mem_ready.mp m).2
      failures_entered := inv.failures_entered
      failures_apart := inv.failures_apart
      active_seated := by
        intro x act
        simp only [active] at act
        split at act
        · cases act
        · rename_i other
          exact mem.mpr ⟨fun eq => other (eq ▸ act),inv.active_seated x act⟩
      active_ran := by
        intro x act
        simp only [active] at act
        split at act
        · cases act
        · exact inv.active_ran x act
      running := by
        intro x m seat
        have act := inv.running x m (mem.mp seat).2
        have other : q.active ≠ some s := by
          simpa [show q.active=some x from act] using (mem.mp seat).1
        simpa only [active,if_neg other] using act
      settled := by
        intro x m
        by_cases eq : x=s
        · exact .inr (.inr (.inr fun seat => (mem.mp seat).1 eq))
        · refine (inv.settled x m).imp_right (Or.imp (fun m => mem_ready.mpr ⟨eq,m⟩)
            (Or.imp_right fun out seat => out (mem.mp seat).2)) }
  · simpa [Queue.release,seat] using inv

lemma close : Inv ⟨{ q with closed := true },h⟩ :=
  { inv with }

lemma joined (seat : s∈q.scopes) (new : q.entered s = false) :
    Inv ⟨q.joined s,{ h with entries := h.entries++[s] }⟩ := by
  have fresh : s ∉ h.entries := fun m => by simp [(inv.mem_entries s).mp m] at new
  have notWaiting : s ∉ q.waiting := fun m => fresh (inv.waiting_entered s m)
  have mem {x : ℕ} : x ∈ h.entries++[s] ↔ x∈h.entries ∨ x=s := by simp
  exact { inv with
    known := fun x m => by simpa [Queue.joined] using inv.known x m
    line := by
      simpa [Queue.joined] using inv.line.append_right [s]
    entries_nodup := nodup_append.mpr ⟨inv.entries_nodup,by simp,by
      rintro a ha b hb rfl
      exact fresh (mem_singleton.mp hb ▸ ha)⟩
    mem_entries := by
      intro x
      rw [mem,Queue.entered_joined q (inv.known s seat),inv.mem_entries x]
      simp [or_comm]
    waiting_nodup := nodup_cons.mpr ⟨notWaiting,inv.waiting_nodup⟩
    waiting_entered := by
      intro x m
      rcases mem_cons.mp m with rfl | m
      · exact mem.mpr (.inr rfl)
      · exact mem.mpr (.inl (inv.waiting_entered x m))
    waiting_apart := by
      intro x m
      rcases mem_cons.mp m with rfl | m
      · exact ⟨fun m => fresh (inv.line.subset (mem_append_left _ m)),
          fun m => fresh (inv.failures_entered _ m)⟩
      · exact inv.waiting_apart x m
    ready_seated := by
      intro x m
      rcases mem_append.mp m with m | m
      · exact inv.ready_seated x m
      · exact mem_singleton.mp m ▸ seat
    ready_waits := by
      intro x m
      rcases mem_append.mp m with m | m
      · exact mem_cons_of_mem _ (inv.ready_waits x m)
      · exact mem_singleton.mp m ▸ mem_cons_self
    failures_entered := fun x m => mem.mpr (.inl (inv.failures_entered x m))
    settled := by
      intro x m
      rcases mem.mp m with m | rfl
      · exact (inv.settled x m).imp_right (Or.imp_left (mem_append_left _))
      · exact .inr (.inl (by simp [Queue.joined])) }

lemma unqueue (waits : s∈q.waiting) : Inv ⟨q.unqueue s,{ h with failures := h.failures++[s] }⟩ := by
  have mem_ready {x : ℕ} : x ∈ q.ready.erase s ↔ x≠s ∧ x∈q.ready :=
    inv.ready_nodup.mem_erase_iff
  have mem_waiting {x : ℕ} : x ∈ q.waiting.erase s ↔ x≠s ∧ x∈q.waiting :=
    inv.waiting_nodup.mem_erase_iff
  have mem {x : ℕ} : x ∈ h.failures++[s] ↔ x∈h.failures ∨ x=s := by simp
  exact { inv with
    line := (Sublist.append_left erase_sublist _).trans inv.line
    waiting_nodup := inv.waiting_nodup.erase s
    waiting_entered := fun x m => inv.waiting_entered x (mem_waiting.mp m).2
    waiting_apart := by
      intro x m
      obtain ⟨other,m⟩ := mem_waiting.mp m
      refine ⟨(inv.waiting_apart x m).1,fun f => ?_⟩
      exact (mem.mp f).elim (inv.waiting_apart x m).2 other
    ready_seated := fun x m => inv.ready_seated x (mem_ready.mp m).2
    ready_waits := fun x m =>
      mem_waiting.mpr ⟨(mem_ready.mp m).1,inv.ready_waits x (mem_ready.mp m).2⟩
    failures_entered := by
      intro x m
      rcases mem.mp m with m | rfl
      · exact inv.failures_entered x m
      · exact inv.waiting_entered _ waits
    failures_apart := by
      intro x m
      rcases mem.mp m with m | rfl
      · exact inv.failures_apart x m
      · exact (inv.waiting_apart _ waits).1
    settled := by
      intro x m
      by_cases eq : x=s
      · exact .inr (.inr (.inl (mem.mpr (.inr eq))))
      · exact (inv.settled x m).imp_right (Or.imp (fun m => mem_ready.mpr ⟨eq,m⟩)
          (Or.imp_left fun m => mem.mpr (.inl m))) }

lemma fail (waits : s∈q.waiting) : Inv ⟨q.fail s,{ h with failures := h.failures++[s] }⟩ := by
  rw [Queue.fail_eq inv.ready_seated inv.ready_nodup]
  split
  · exact inv.unqueue waits
  · exact (inv.unqueue waits).release s

lemma activate (seat : s∈q.scopes) (idle : q.active=none)
    (head : q.ready.head? = some s) :
    Inv ⟨{ q with ready := q.ready.tail, active := some s, waiting := q.waiting.erase s },
      { h with activations := h.activations++[s] }⟩ := by
  obtain ⟨rest,ready⟩ : ∃ rest,q.ready=s::rest := head?_eq_some_iff.mp head
  have nodup := ready ▸ inv.ready_nodup
  have mem_waiting {x : ℕ} : x ∈ q.waiting.erase s ↔ x≠s ∧ x∈q.waiting :=
    inv.waiting_nodup.mem_erase_iff
  have mem {x : ℕ} : x ∈ h.activations++[s] ↔ x∈h.activations ∨ x=s := by simp
  have inReady {x : ℕ} (m : x∈rest) : x∈q.ready := by simp [ready,m]
  have waits : s∈q.waiting := inv.ready_waits s (by simp [ready])
  exact { inv with
    line := by simpa [ready] using inv.line
    waiting_nodup := inv.waiting_nodup.erase s
    waiting_entered := fun x m => inv.waiting_entered x (mem_waiting.mp m).2
    waiting_apart := by
      intro x m
      obtain ⟨other,m⟩ := mem_waiting.mp m
      exact ⟨fun a => (mem.mp a).elim (inv.waiting_apart x m).1 other,(inv.waiting_apart x m).2⟩
    ready_seated := fun x m => inv.ready_seated x (inReady (by simpa [ready] using m))
    ready_waits := by
      intro x m
      have m : x∈rest := by simpa [ready] using m
      refine mem_waiting.mpr ⟨?_,inv.ready_waits x (inReady m)⟩
      intro eq
      exact (nodup_cons.mp nodup).1 (eq ▸ m)
    failures_apart := by
      intro x m a
      rcases mem.mp a with a | rfl
      · exact inv.failures_apart x m a
      · exact (inv.waiting_apart _ waits).2 m
    active_seated := by
      rintro x ⟨⟩
      exact seat
    active_ran := by
      rintro x ⟨⟩
      exact mem.mpr (.inr rfl)
    running := by
      intro x m seat
      rcases mem.mp m with m | rfl
      · have := inv.running x m seat
        rw [show q.active=none from idle] at this
        cases this
      · rfl
    settled := by
      intro x m
      rcases inv.settled x m with a | r | out
      · exact .inl (mem.mpr (.inl a))
      · rcases mem_cons.mp (ready ▸ r : x∈s::rest) with rfl | r
        · exact .inl (mem.mpr (.inr rfl))
        · exact .inr (.inl (by simpa [ready] using r))
      · exact .inr (.inr out) }

lemma turn (waits : s∈q.waiting) (c : Bool) : Inv ⟨(q.turn s c).2,h.outcome (q.turn s c).1⟩ := by
  obtain ⟨-,eq⟩ | ⟨-,seat,idle,head,eq⟩ | eq := q.turn_cases s c <;> rw [eq]
  · exact inv.fail waits
  · exact inv.activate seat idle head
  · exact inv

lemma enter (s : ℕ) (c : Bool) : Inv ⟨(q.enter s c).2,h.note (.enter s c) (q.enter s c).1⟩ := by
  unfold Queue.enter
  split
  · exact inv
  split
  · exact inv
  · rename_i seat new
    have next := (inv.joined (not_not.mp seat) (by simpa using new)).turn mem_cons_self c
    obtain ⟨-,eq⟩ | ⟨-,-,-,-,eq⟩ | eq := (q.joined s).turn_cases s c <;> rw [eq] at next ⊢ <;>
      exact next

end

lemma step (inv : Inv r) (e : Event) : Inv (r.step e) := by
  obtain ⟨q,h⟩ := r
  cases e with
  | admitContext b =>
    have next := inv.admitContext b
    have note : h.note (.admitContext b) (q.admitContext b).1=h := by
      unfold Queue.admitContext
      split <;> [rfl; split <;> rfl]
    simpa only [Run.step,Queue.step,note] using next
  | enter s c => exact inv.enter s c
  | resume s c =>
    by_cases waits : s∈q.waiting
    · simpa only [Run.step,Queue.step,if_pos waits,History.note] using inv.turn waits c
    · simp only [Run.step,Queue.step,if_neg waits]
      exact inv
  | interrupt s =>
    by_cases waits : s∈q.waiting
    · simp only [Run.step,Queue.step,if_pos waits]
      exact inv.fail waits
    · simp only [Run.step,Queue.step,if_neg waits]
      exact inv
  | release s => exact inv.release s
  | close => exact inv.close
  | wake => exact inv

lemma after (inv : Inv r) (events : List Event) : Inv (r.after events) := by
  induction events generalizing r with
  | nil => exact inv
  | cons e events ih => exact ih (inv.step e)

end Inv

namespace Queue

variable {q : Queue} {s : ℕ} {c : Bool}

section
variable (q : Queue) (s : ℕ)

lemma fail_objects : (q.fail s).objects = q.objects := by
  simp only [fail]
  split <;> simp

lemma fail_maximum : (q.fail s).maximum = q.maximum := by
  simp only [fail]
  split <;> simp

lemma fail_closed : (q.fail s).closed = q.closed := by
  simp only [fail]
  split <;> simp

lemma fail_scopes :
    (q.fail s).scopes = if q.retained s then q.scopes else q.scopes.erase s := by
  have retained : Queue.retained { q with waiting := q.waiting.erase s } s=q.retained s := rfl
  unfold fail
  simp only [retained]
  split
  · rfl
  · rw [release_scopes]

lemma turn_frame (c : Bool) : (q.turn s c).2.objects = q.objects ∧
    (q.turn s c).2.maximum = q.maximum ∧ (q.turn s c).2.closed = q.closed ∧ ((q.turn s c).2.scopes =
    q.scopes ∨ q.retained s = false ∧ (q.turn s c).2.scopes = q.scopes.erase s) := by
  obtain ⟨-,eq⟩ | ⟨-,-,-,-,eq⟩ | eq := q.turn_cases s c <;> rw [eq]
  · refine ⟨q.fail_objects s,q.fail_maximum s,q.fail_closed s,?_⟩
    cases retained : q.retained s <;> simp [fail_scopes,retained]
  · exact ⟨rfl,rfl,rfl,.inl rfl⟩
  · exact ⟨rfl,rfl,rfl,.inl rfl⟩

end

lemma retained_joined (q : Queue) (s x : ℕ) : (q.joined s).retained x = q.retained x := by
  simp only [retained,joined,getElem?_modify]
  by_cases h : s=x
  · cases q.objects[x]? <;> simp [h]
  · simp [h]

lemma step_maximum (q : Queue) (e : Event) : (q.step e).2.maximum = q.maximum := by
  cases e with
  | admitContext b =>
    simp only [step,admitContext]
    split <;> [rfl; split <;> rfl]
  | enter s c =>
    simp only [step,enter]
    split <;> [rfl; split <;> [rfl; exact ((q.joined s).turn_frame s c).2.1]]
  | resume s c =>
    simp only [step]
    split <;> [exact (q.turn_frame s c).2.1; rfl]
  | interrupt s =>
    simp only [step]
    split <;> [exact q.fail_maximum s; rfl]
  | release s => exact q.release_maximum s
  | close => rfl
  | wake => rfl

lemma step_refused {err : Error} (refused : (q.step e).1 = .refused err) : (q.step e).2 = q := by
  have notTurn {q : Queue} {s : ℕ} {c : Bool} : (q.turn s c).1 ≠ .refused err := by
    obtain ⟨-,eq⟩ | ⟨-,-,-,-,eq⟩ | eq := q.turn_cases s c <;> rw [eq] <;> nofun
  cases e with
  | admitContext b =>
    simp only [step,admitContext] at refused ⊢
    split at refused <;> [skip; split at refused] <;> simp_all
  | enter s c =>
    simp only [step,enter] at refused ⊢
    split at refused
    · simp_all
    split at refused
    · simp_all
    · exact absurd refused notTurn
  | resume s c =>
    simp only [step] at refused
    split at refused
    · exact absurd refused notTurn
    · cases refused
  | interrupt s =>
    simp only [step] at refused
    split at refused <;> cases refused
  | release s => cases refused
  | close => cases refused
  | wake => cases refused

lemma step_seat (seat : s∈q.scopes) (known : s<q.objects.length) (retained : q.retained s = true)
    (other : e ≠ .release s) : s ∈ (q.step e).2.scopes ∧ (q.step e).2.retained s = true := by
  have turn {q : Queue} {x : ℕ} {c : Bool} (seat : s∈q.scopes) (retained : q.retained s=true) :
      s ∈ (q.turn x c).2.scopes ∧ (q.turn x c).2.retained s = true := by
    obtain ⟨objects,-,-,scopes⟩ := q.turn_frame x c
    refine ⟨?_,by rw [Queue.retained,objects]; exact retained⟩
    rcases scopes with eq | ⟨leaves,eq⟩ <;> rw [eq]
    · exact seat
    · refine (mem_erase_of_ne ?_).mpr seat
      rintro rfl
      simp [retained] at leaves
  cases e with
  | admitContext b =>
    simp only [step,admitContext]
    split
    · exact ⟨seat,retained⟩
    split
    · exact ⟨seat,retained⟩
    · refine ⟨mem_append_left _ seat,?_⟩
      simpa only [Queue.retained,getElem?_append_left known] using retained
  | enter x c =>
    simp only [step,enter]
    split
    · exact ⟨seat,retained⟩
    split
    · exact ⟨seat,retained⟩
    · exact turn seat ((q.retained_joined x s).trans retained)
  | resume x c =>
    simp only [step]
    split <;> [exact turn seat retained; exact ⟨seat,retained⟩]
  | interrupt x =>
    simp only [step]
    split
    · refine ⟨?_,by rw [Queue.retained,fail_objects]; exact retained⟩
      rw [fail_scopes]
      split
      · exact seat
      · rename_i leaves
        exact (mem_erase_of_ne (by rintro rfl; exact leaves retained)).mpr seat
    · exact ⟨seat,retained⟩
  | release x =>
    refine ⟨?_,by simpa [step,Queue.retained] using retained⟩
    rw [step,release_scopes]
    exact (mem_erase_of_ne (by rintro rfl; exact other rfl)).mpr seat
  | close => exact ⟨seat,retained⟩
  | wake => exact ⟨seat,retained⟩

end Queue

lemma Run.step_closed (closed : r.queue.closed=true) (e : Event) :
    (r.step e).queue.closed = true ∧ (r.step e).queue.objects.length = r.queue.objects.length ∧
      (∀ s ∈ (r.step e).queue.scopes,s∈r.queue.scopes) ∧
      (r.step e).history.activations = r.history.activations := by
  obtain ⟨q,h⟩ := r
  have fail {q : Queue} (s : ℕ) : ∀ x ∈ (q.fail s).scopes,x∈q.scopes := by
    intro x m
    rw [Queue.fail_scopes] at m
    split at m <;> [exact m; exact mem_of_mem_erase m]
  have turn {q : Queue} (closed : q.closed=true) (s : ℕ) (c : Bool) :
      q.turn s c = (.failed s,q.fail s) := by
    simp [Queue.turn,closed]
  cases e with
  | admitContext b =>
    have shut : q.admitContext b=(.refused .clientClosed,q) := by
      simp [Queue.admitContext,show q.closed=true from closed]
    simp only [Run.step,Queue.step,shut]
    exact ⟨closed,trivial,fun _ m => m,rfl⟩
  | enter s c =>
    simp only [Run.step,Queue.step,Queue.enter]
    split
    · exact ⟨closed,rfl,fun _ m => m,rfl⟩
    split
    · exact ⟨closed,rfl,fun _ m => m,rfl⟩
    · rw [turn (q := q.joined s) closed]
      refine ⟨(Queue.fail_closed ..).trans closed,?_,fun x m => fail (q := q.joined s) s x m,rfl⟩
      rw [Queue.fail_objects]
      simp [Queue.joined]
  | resume s c =>
    simp only [Run.step,Queue.step]
    split
    · rw [turn closed]
      exact ⟨(Queue.fail_closed ..).trans closed,by rw [Queue.fail_objects],fail s,rfl⟩
    · exact ⟨closed,rfl,fun _ m => m,rfl⟩
  | interrupt s =>
    simp only [Run.step,Queue.step]
    split
    · exact ⟨(Queue.fail_closed ..).trans closed,by rw [Queue.fail_objects],fail s,rfl⟩
    · exact ⟨closed,rfl,fun _ m => m,rfl⟩
  | release s =>
    refine ⟨(q.release_closed s).trans closed,by simp [Run.step,Queue.step],?_,rfl⟩
    intro x m
    simp only [Run.step,Queue.step,Queue.release_scopes] at m
    exact mem_of_mem_erase m
  | close => exact ⟨rfl,rfl,fun _ m => m,rfl⟩
  | wake => exact ⟨closed,rfl,fun _ m => m,rfl⟩

lemma Run.after_closed (closed : r.queue.closed=true) (later : List Event) :
    (r.after later).queue.closed = true ∧ (r.after later).queue.objects.length =
      r.queue.objects.length ∧ (∀ s ∈ (r.after later).queue.scopes,s∈r.queue.scopes) ∧ (r.after
      later).history.activations = r.history.activations := by
  induction later generalizing r with
  | nil => exact ⟨closed,rfl,fun _ m => m,rfl⟩
  | cons e later ih =>
    obtain ⟨shut,objects,scopes,activations⟩ := r.step_closed closed e
    obtain ⟨shut',objects',scopes',activations'⟩ := ih shut
    exact ⟨shut',objects'.trans objects,fun s m => scopes s (scopes' s m),
      activations'.trans activations⟩

lemma Run.after_seat (inv : Inv r) {s : ℕ} (seat : s∈r.queue.scopes)
    (retained : r.queue.retained s = true) {later : List Event} (kept : .release s ∉ later) :
    s ∈ (r.after later).queue.scopes := by
  induction later generalizing r with
  | nil => exact seat
  | cons e later ih =>
    have other : e ≠ .release s := fun eq => kept (eq ▸ mem_cons_self)
    obtain ⟨seat,retained⟩ := Queue.step_seat seat (inv.known s seat) retained other
    exact ih (inv.step e) seat retained fun m => kept (mem_cons_of_mem _ m)

lemma History.outcome_failures (h : History) (o : Outcome) :
    ∀ s∈h.failures,s ∈ (h.outcome o).failures := by
  intro s m
  cases o <;> simp [History.outcome,m]

lemma Run.step_failures (r : Run) (e : Event) :
    ∀ s∈r.history.failures,s ∈ (r.step e).history.failures := by
  intro s m
  simp only [Run.step]
  unfold History.note
  split
  · exact m
  · exact History.outcome_failures _ _ s m
  · exact History.outcome_failures _ _ s m

lemma Run.after_failures (r : Run) (later : List Event) :
    ∀ s∈r.history.failures,s ∈ (r.after later).history.failures := by
  induction later generalizing r with
  | nil => exact fun s m => m
  | cons e later ih => exact fun s m => ih (r.step e) s (r.step_failures e s m)

lemma Run.after_maximum (r : Run) (events : List Event) :
    (r.after events).queue.maximum = r.queue.maximum := by
  induction events generalizing r with
  | nil => rfl
  | cons e events ih => exact (ih (r.step e)).trans (r.queue.step_maximum e)

lemma Queue.new_maximum {q : Queue} (new : Queue.new m = some q) : q.maximum=m := by
  unfold Queue.new at new
  split at new <;> cases new
  rfl

/-- Every run: seats, the running scope, the order of the line, failed entries and the close. -/
theorem queue_runs {m : ℕ} {q : Queue} (new : Queue.new m = some q) (events later : List Event) :
    let r := (Run.start q).after events
    let t := r.after later
    (r.queue.scopes.Nodup ∧ r.queue.scopes.length ≤ m) ∧
    (∀ s,r.queue.active = some s ↔ s∈r.history.activations ∧ s∈r.queue.scopes) ∧
    (∀ s∈r.queue.ready,s∈r.queue.scopes) ∧
    (r.history.entries.Nodup ∧ (r.history.activations++r.queue.ready).Sublist r.history.entries ∧
      ∀ s∈r.history.entries,s∈r.history.activations ∨ s∈r.queue.ready ∨
        s∈r.history.failures ∨ s ∉ r.queue.scopes) ∧
    r.history.activations.Nodup ∧
    (∀ s∈r.queue.scopes,r.queue.retained s = true → .release s ∉ later → s∈t.queue.scopes) ∧
    (∀ s∈r.history.failures,s ∉ t.history.activations) ∧
    (∀ e err,(r.queue.step e).1 = .refused err → (r.queue.step e).2 = r.queue) ∧
    (r.queue.closed=true → t.queue.closed=true ∧ t.queue.objects.length=r.queue.objects.length ∧ (∀
      s∈t.queue.scopes,s∈r.queue.scopes) ∧ t.history.activations=r.history.activations) := by
  intro r t
  have inv : Inv r := (Inv.start new).after events
  have maximum : r.queue.maximum=m :=
    ((Run.start q).after_maximum events).trans (Queue.new_maximum new)
  refine ⟨⟨inv.scopes_nodup,maximum ▸ inv.room⟩,?_,inv.ready_seated,
    ⟨inv.entries_nodup,inv.line,inv.settled⟩,inv.line_nodup.of_append_left,?_,?_,?_,?_⟩
  · intro s
    exact ⟨fun active => ⟨inv.active_ran s active,inv.active_seated s active⟩,
      fun ⟨ran,seat⟩ => inv.running s ran seat⟩
  · exact fun s seat retained kept => Run.after_seat inv seat retained kept
  · exact fun s failed => (inv.after later).failures_apart s (r.after_failures later s failed)
  · exact fun e err refused => Queue.step_refused refused
  · exact fun closed => Run.after_closed closed later

/-- The second scope in line runs when the first has released its seat, and none after the close. -/
theorem queue_runs_two : ∃ q,Queue.new 2 = some q ∧
    let r := (Run.start q).after [.admitContext true,.admitContext false,.enter 0 false,
      .enter 1 false,.release 0,.resume 1 false,.close]
    r.history.entries = [0,1] ∧ r.history.activations = [0,1] ∧ r.queue.active = some 1 ∧
    (r.history.activations++r.queue.ready).Sublist r.history.entries ∧
    (r.after [.release 1,.admitContext true,.enter 2 false]).history.activations = [0,1] := by
  refine ⟨_,rfl,?_⟩
  intro r
  obtain ⟨-,active,-,⟨-,line,-⟩,-,-,-,-,closed⟩ := queue_runs (m := 2) rfl
    [.admitContext true,.admitContext false,.enter 0 false,.enter 1 false,.release 0,
      .resume 1 false,.close] [.release 1,.admitContext true,.enter 2 false]
  have ran : r.history.activations=[0,1] := by decide
  exact ⟨by decide,ran,(active 1).mpr (by decide),line,(closed (by decide)).2.2.2.trans ran⟩

/-- The entry of a scope that waits in the line does not end with the refusal of another one. -/
theorem refused_entry_runs_later : ∃ q,Queue.new 2 = some q ∧
    let r := (Run.start q).after [.admitContext true,.admitContext true,.enter 0 false,.enter 1 false]
    r.queue.retained 1 = true ∧
    (r.queue.step (.enter 1 false)).1 = .refused .alreadyEntered ∧
    (r.after [.enter 1 false,.release 0,.resume 1 false]).queue.active = some 1 :=
  ⟨_,rfl,by decide⟩

end Pllm.Runtime.PreparedQueue
