import Pllm.Lib.Exec

/-! The durable ledger of prepared correlations: two tables that each call changes in one
transaction. -/
namespace Pllm.Runtime.CorrelationLedger
open Pllm.Lib Exec

inductive State
  | available
  | reserved
  | consumed
  | burned
  deriving DecidableEq

inductive Mark
  | created
  | reserved
  | consumed
  | burned

structure Key where
  modelId : String
  stageId : String
  keyId : String
  deriving DecidableEq

structure Correlation where
  id : ℤ
  key : Key
  payloadPath : Option String
  state : State
  createdAt : ℚ
  reservedAt : Option ℚ
  consumedAt : Option ℚ

structure Event where
  sequence : ℤ
  correlationId : ℤ
  event : Mark
  createdAt : ℚ

/-- The tables, and the greatest key that each of them has ever had. -/
structure Database where
  correlations : List Correlation
  events : List Event
  lastCorrelation : ℤ
  lastSequence : ℤ

def Database.empty : Database := ⟨[],[],0,0⟩

/-- The database may fail at any statement, for reasons of its own. -/
inductive Failure
  | valueError (text : String)
  | unavailable (text : String)
  | overflow
  | full
  | database

structure Reservation where
  correlationId : ℤ
  key : Key
  reservedAt : ℚ

abbrev Ledger := Exec Failure Database

/-- What a transaction has done is taken back when it fails, be it at its end. -/
def transaction {α : Type} (body : Ledger α) : Ledger α := do
  request
  let before ← read
  checked (fun _ => before) do
    let result ← body
    request
    pure result

/-- No key of a table is used twice. -/
def insertCorrelation (key : Key) (payloadPath : Option String) (now : ℚ) : Ledger ℤ := do
  request
  let db ← read
  require (db.lastCorrelation<2^63-1) .full
  modify fun db => { db with
    correlations := db.correlations ++
      [⟨db.lastCorrelation+1,key,payloadPath,.available,now,none,none⟩]
    lastCorrelation := db.lastCorrelation+1 }
  pure (db.lastCorrelation+1)

def insertEvent (correlationId : ℤ) (event : Mark) (now : ℚ) : Ledger Unit := do
  request
  let db ← read
  require (db.lastSequence<2^63-1) .full
  modify fun db => { db with
    events := db.events++[⟨db.lastSequence+1,correlationId,event,now⟩]
    lastSequence := db.lastSequence+1 }

/-- An update changes the rows that a condition selects, and says how many they were. -/
def update (selects : Correlation → Bool) (change : Correlation → Correlation) : Ledger ℕ := do
  request
  let db ← read
  modify fun db => { db with
    correlations := db.correlations.map fun r => if selects r then change r else r }
  pure (db.correlations.countP selects)

def selectIds (selects : Correlation → Bool) : Ledger (List ℤ) := do
  request
  let db ← read
  pure ((db.correlations.filter selects).map Correlation.id)

def addOne (key : Key) (payloadPrefix : String) (now : ℚ) (index : ℕ) : Ledger Unit := do
  let cid ← insertCorrelation key
    (if payloadPrefix = "" then none else some s!"{payloadPrefix}{index}") now
  insertEvent cid .created now

def add (key : Key) (count : ℤ) (payloadPrefix : String) (now : ℚ) : Ledger Unit := do
  require (1 ≤ count) (.valueError "count must be positive")
  transaction (forEach (addOne key payloadPrefix now) (List.range count.toNat))

def isAvailable (key : Key) (r : Correlation) : Bool := r.key=key ∧ r.state = .available

def reserveText (modelId stageId keyId : String) : String :=
  s!"no available correlation for {modelId}/{stageId}/{keyId}"

def reserve (key : Key) (now : ℚ) : Ledger Reservation := do
  transaction do
    let ids ← selectIds (isAvailable key)
    -- ordered by id, the first row
    let cid ← expect ids.min?
      (.unavailable (reserveText key.modelId key.stageId key.keyId))
    let updated ← update (fun r => r.id=cid ∧ r.state = .available)
      fun r => { r with state := .reserved, reservedAt := some now }
    require (updated=1) (.unavailable "correlation was reserved concurrently")
    insertEvent cid .reserved now
    pure ⟨cid,key,now⟩

def consume (correlationId : ℤ) (now : ℚ) : Ledger Unit := do
  transaction do
    require (-2^63 ≤ correlationId ∧ correlationId<2^63) .overflow
    let updated ← update (fun r => r.id=correlationId ∧ r.state = .reserved)
      fun r => { r with state := .consumed, consumedAt := some now }
    require (updated=1) (.unavailable "correlation is not reserved")
    insertEvent correlationId .consumed now

def isStale (cutoff : ℚ) (r : Correlation) : Bool :=
  r.state = .reserved && r.reservedAt.any (· < cutoff)

def burnOne (now : ℚ) (cid : ℤ) : Ledger Unit := do
  let _ ← update (fun r => r.id=cid ∧ r.state = .reserved)
    fun r => { r with state := .burned, consumedAt := some now }
  insertEvent cid .burned now

/-- The clock is read twice. -/
def burnStaleReservations (olderThanSeconds before now : ℚ) : Ledger ℕ := do
  let cutoff := before-olderThanSeconds
  transaction do
    let ids ← selectIds (isStale cutoff)
    forEach (burnOne now) ids
    pure ids.length

/-- A call, with the times that its clock gives. -/
inductive Call
  | add (key : Key) (count : ℤ) (payloadPrefix : String) (now : ℚ)
  | reserve (key : Key) (now : ℚ)
  | consume (correlationId : ℤ) (now : ℚ)
  | burnStaleReservations (olderThanSeconds before now : ℚ)

inductive Reply
  | done
  | reserved (reservation : Reservation)
  | burned (count : ℕ)
  | failed (failure : Failure)

def Call.body : Call → Ledger Reply
  | .add key count payloadPrefix now => do
    CorrelationLedger.add key count payloadPrefix now
    pure .done
  | .reserve key now => do
    let r ← CorrelationLedger.reserve key now
    pure (.reserved r)
  | .consume correlationId now => do
    CorrelationLedger.consume correlationId now
    pure .done
  | .burnStaleReservations olderThanSeconds before now => do
    let n ← CorrelationLedger.burnStaleReservations olderThanSeconds before now
    pure (.burned n)

/-- Calls of any connections come one after another; `deny` holds what the database answers to the
statements of the call. A process that ends leaves the tables as they are. -/
inductive Action
  | call (connection : ℕ) (call : Call) (deny : ℕ → Option Failure)
  | crash (connection : ℕ)

def step (db : Database) : Action → Option Reply × Database
  | .call _ call deny =>
    match call.body deny db 0 with
    | (.ok reply,db,_) => (some reply,db)
    | (.error e,db,_) => (some (.failed e),db)
  | .crash _ => (none,db)

/-- The replies of a run, and the tables it leaves. -/
def run : List Action → Database → List Reply × Database
  | [],db => ([],db)
  | action::actions,db =>
    let first := step db action
    let rest := run actions first.2
    (first.1.toList++rest.1,rest.2)

open List

/-- The events that lead to a state. -/
def State.path : State → List Mark
  | .available => [.created]
  | .reserved => [.created,.reserved]
  | .consumed => [.created,.reserved,.consumed]
  | .burned => [.created,.reserved,.burned]

/-- One change of the state of a correlation. -/
inductive Follows : Option State → Option State → Prop
  | created : Follows none (some .available)
  | reserved : Follows (some .available) (some .reserved)
  | consumed : Follows (some .reserved) (some .consumed)
  | burned : Follows (some .reserved) (some .burned)

variable {s : State} {t : Database}

namespace Database

def stateOf (db : Database) (id : ℤ) : Option State :=
  (db.correlations.find? fun r => r.id=id).map Correlation.state

def trail (db : Database) (id : ℤ) : List Mark :=
  (db.events.filter fun e => e.correlationId=id).map Event.event

/-- The log tells how each correlation has come to its state. -/
structure InStep (db : Database) : Prop where
  ids : (db.correlations.map Correlation.id).Pairwise (· < ·)
  bound : ∀ r∈db.correlations,r.id≤db.lastCorrelation
  sequences : (db.events.map Event.sequence).Pairwise (· < ·)
  latest : ∀ e∈db.events,e.sequence≤db.lastSequence
  trails : ∀ id,db.trail id = (db.stateOf id).elim [] State.path

lemma inStep_empty : InStep empty :=
  ⟨.nil,nofun,.nil,nofun,fun _ => rfl⟩

/-- The tables after a row and its event, or after a change of rows and its event. -/
def withEvent (db : Database) (correlations : List Correlation) (last cid : ℤ) (mark : Mark)
    (now : ℚ) : Database :=
  ⟨correlations,db.events++[⟨db.lastSequence+1,cid,mark,now⟩],last,db.lastSequence+1⟩

section

variable {db : Database} {cid id last : ℤ} {mark : Mark} {now : ℚ} {rows : List Correlation}

lemma trail_withEvent : (db.withEvent rows last cid mark now).trail id =
    db.trail id++if id=cid then [mark] else [] := by
  simp only [trail,withEvent,filter_append,map_append]
  congr 1
  by_cases same : id=cid
  · rw [if_pos same,filter_cons_of_pos (by simp [same])]
    rfl
  · rw [if_neg same,filter_cons_of_neg (by simpa using Ne.symm same)]
    rfl

lemma stateOf_of_mem (h : db.InStep) {r : Correlation} (m : r∈db.correlations) :
    db.stateOf r.id = some r.state := by
  have nodup : db.correlations.Pairwise fun a b => a.id<b.id := pairwise_map.mp h.ids
  have found : (db.correlations.find? fun q => q.id=r.id)=some r := by
    rw [find?_eq_some_iff_append]
    obtain ⟨before,after,eq⟩ := append_of_mem m
    refine ⟨decide_eq_true rfl,before,after,eq,fun q mq => ?_⟩
    rw [eq,pairwise_append] at nodup
    have := nodup.2.2 q mq r mem_cons_self
    simp only [Bool.not_eq_true',decide_eq_false_iff_not]
    omega
  rw [stateOf,found]
  rfl

lemma exists_of_stateOf (eq : db.stateOf id = some s) :
    ∃ r∈db.correlations,r.id=id ∧ r.state=s := by
  obtain ⟨r,found,state⟩ := Option.map_eq_some_iff.mp eq
  exact ⟨r,mem_of_find?_eq_some found,of_decide_eq_true (find?_some found :),state⟩

/-- An event and the change of state that it tells. -/
lemma InStep.withEvent (h : db.InStep) (ids : (rows.map Correlation.id).Pairwise (· < ·))
    (bound : ∀ r∈rows,r.id≤last)
    (others : ∀ id≠cid,(db.withEvent rows last cid mark now).stateOf id = db.stateOf id)
    (path : ((db.withEvent rows last cid mark now).stateOf cid).elim [] State.path =
      (db.stateOf cid).elim [] State.path++[mark]) :
    (db.withEvent rows last cid mark now).InStep where
  ids := ids
  bound := bound
  sequences := by
    rw [Database.withEvent,map_append,pairwise_append]
    refine ⟨h.sequences,pairwise_singleton _ _,fun a ma b mb => ?_⟩
    obtain ⟨e,me,rfl⟩ := mem_map.mp ma
    obtain rfl := mem_singleton.mp mb
    have := h.latest e me
    show e.sequence<db.lastSequence+1
    omega
  latest := by
    intro e me
    rcases mem_append.mp me with me | me
    · have := h.latest e me
      show e.sequence≤db.lastSequence+1
      omega
    · obtain rfl := mem_singleton.mp me
      exact le_rfl
  trails := by
    intro id
    rw [trail_withEvent,h.trails]
    by_cases same : id=cid
    · subst same
      rw [if_pos rfl,path]
    · rw [if_neg same,append_nil,others id same]

end

section

variable {db : Database} {cid id : ℤ} {mark : Mark} {now : ℚ} {source target : State}
  {change : Correlation → Correlation}

/-- The rows after an update of one correlation in a given state. -/
def advanced (db : Database) (cid : ℤ) (source : State) (change : Correlation → Correlation) :
    List Correlation :=
  db.correlations.map fun r => if decide (r.id=cid ∧ r.state=source) then change r else r

lemma stateOf_advanced (keeps : ∀ r,(change r).id = r.id) (state : ∀ r,(change r).state = target) :
    (db.withEvent (db.advanced cid source change) db.lastCorrelation cid mark now).stateOf id =
      (db.stateOf id).map fun s => if id=cid ∧ s=source then target else s := by
  have same : ((fun r : Correlation => decide (r.id=id)) ∘ fun r =>
      if r.id=cid ∧ r.state=source then change r else r)=fun r => decide (r.id=id) := by
    funext r
    simp only [Function.comp_apply]
    split
    · rw [keeps]
    · rfl
  simp only [stateOf,withEvent,advanced,decide_eq_true_eq,find?_map,same]
  cases found : db.correlations.find? fun r => decide (r.id=id) with
  | none => rfl
  | some r =>
    have is : r.id=id := of_decide_eq_true (find?_some found :)
    simp only [Option.map_some,is]
    split
    · rw [state]
    · rfl

/-- One correlation goes on from a state, and its event is logged. -/
lemma InStep.advance (h : db.InStep) (source target : State) (now : ℚ)
    (change : Correlation → Correlation) (keeps : ∀ r,(change r).id = r.id)
    (state : ∀ r,(change r).state = target) (path : target.path = source.path++[mark])
    (here : db.stateOf cid = some source) :
    (db.withEvent (db.advanced cid source change) db.lastCorrelation cid mark now).InStep ∧
      ∀ id,(db.withEvent (db.advanced cid source change) db.lastCorrelation cid mark now).stateOf
        id = if id=cid then some target else db.stateOf id := by
  have states (id : ℤ) : (db.withEvent (db.advanced cid source change) db.lastCorrelation cid mark
      now).stateOf id = if id=cid then some target else db.stateOf id := by
    rw [stateOf_advanced keeps state]
    by_cases same : id=cid
    · subst same
      rw [here]
      simp
    · simp [same]
  have idOf (r : Correlation) :
      (if decide (r.id=cid ∧ r.state=source) then change r else r).id = r.id := by
    split
    · exact keeps r
    · rfl
  refine ⟨h.withEvent ?_ ?_ (fun id other => ?_) ?_,states⟩
  · rw [advanced,map_map]
    refine (congrArg (List.Pairwise (· < ·)) (map_congr_left fun r _ => ?_)).mpr h.ids
    exact idOf r
  · intro r m
    obtain ⟨q,mq,rfl⟩ := mem_map.mp m
    rw [idOf]
    exact h.bound q mq
  · rw [states,if_neg other]
  · rw [states,if_pos rfl,here]
    exact path

lemma InStep.fresh (h : db.InStep) : db.stateOf (db.lastCorrelation+1) = none := by
  by_contra some
  obtain ⟨s,eq⟩ := Option.ne_none_iff_exists'.mp some
  obtain ⟨q,mq,same,-⟩ := exists_of_stateOf eq
  have := h.bound q mq
  omega

/-- A new correlation. -/
lemma InStep.create (h : db.InStep) (now : ℚ) (r : Correlation) (id : r.id=db.lastCorrelation+1)
    (state : r.state = .available) :
    (db.withEvent (db.correlations++[r]) (db.lastCorrelation+1) (db.lastCorrelation+1) .created
      now).InStep ∧ ∀ i,(db.withEvent (db.correlations++[r]) (db.lastCorrelation+1)
        (db.lastCorrelation+1) .created now).stateOf i =
          if i=db.lastCorrelation+1 then some .available else db.stateOf i := by
  have fresh := h.fresh
  have states (i : ℤ) : (db.withEvent (db.correlations++[r]) (db.lastCorrelation+1)
      (db.lastCorrelation+1) .created now).stateOf i =
        if i=db.lastCorrelation+1 then some .available else db.stateOf i := by
    simp only [stateOf,Database.withEvent,find?_append]
    by_cases same : i=db.lastCorrelation+1
    · subst same
      rw [stateOf,Option.map_eq_none_iff] at fresh
      rw [if_pos rfl,fresh,Option.none_or,find?_cons_of_pos (by simp [id]),Option.map_some,
        state]
    · rw [if_neg same,find?_cons_of_neg (by simpa [id] using Ne.symm same),find?_nil,
        Option.or_none]
  refine ⟨h.withEvent ?_ ?_ (fun i other => ?_) ?_,states⟩
  · rw [map_append,pairwise_append]
    refine ⟨h.ids,pairwise_singleton _ _,fun a ma b mb => ?_⟩
    obtain ⟨q,mq,rfl⟩ := mem_map.mp ma
    obtain rfl := mem_singleton.mp mb
    have := h.bound q mq
    omega
  · intro q mq
    rcases mem_append.mp mq with mq | mq
    · have := h.bound q mq
      omega
    · obtain rfl := mem_singleton.mp mq
      omega
  · rw [states,if_neg other]
  · rw [states,if_pos rfl,fresh]
    rfl

end

end Database

section Calls

variable {α : Type} {db : Database} {good : α → Database → Prop}

lemma transaction_outcome {body : Ledger α} (h : Outcome body db good fun _ => True) :
    Outcome (transaction body) db good (· = db) := by
  intro deny k
  simp only [transaction,wp_bind,wp_request,wp_read,wp_checked]
  refine ⟨fun _ => ?_,fun _ _ => trivial⟩
  exact (h deny _).mono (fun a t _ holds => ⟨fun _ => holds,fun _ _ => trivial⟩) fun _ _ _ _ => trivial

lemma insertCorrelation_outcome (key : Key) (payloadPath : Option String) (now : ℚ) :
    Outcome (insertCorrelation key payloadPath now) db (fun cid t => cid=db.lastCorrelation+1 ∧
      t = ⟨db.correlations ++
        [⟨db.lastCorrelation+1,key,payloadPath,.available,now,none,none⟩],db.events,
        db.lastCorrelation+1,db.lastSequence⟩) fun _ => True := by
  intro deny k
  simp [insertCorrelation]

lemma insertEvent_outcome (cid : ℤ) (mark : Mark) (now : ℚ) :
    Outcome (insertEvent cid mark now) db (fun _ t =>
      t = db.withEvent db.correlations db.lastCorrelation cid mark now) fun _ => True := by
  intro deny k
  simp [insertEvent,Database.withEvent]

lemma update_outcome (selects : Correlation → Bool) (change : Correlation → Correlation) :
    Outcome (update selects change) db (fun n t => n = db.correlations.countP selects ∧
      t = { db with correlations := db.correlations.map fun r => if selects r then change r else r })
      fun _ => True := by
  intro deny k
  simp [update]

lemma selectIds_outcome (selects : Correlation → Bool) : Outcome (selectIds selects) db (fun
    ids t => ids = (db.correlations.filter selects).map Correlation.id ∧ t=db) fun _ => True := by
  intro deny k
  simp [selectIds]

lemma require_outcome (p : Prop) [Decidable p] (e : Failure) :
    Outcome (require p e) db (fun _ t => p ∧ t=db) fun _ => True := by
  intro deny k
  simp only [wp_require]
  exact ⟨fun holds => ⟨holds,trivial⟩,fun _ => trivial⟩

/-- What a step of the tables may change. -/
def Moves (db t : Database) : Prop :=
  t.InStep ∧ ∀ id,t.stateOf id = db.stateOf id ∨ Follows (db.stateOf id) (t.stateOf id)

lemma moves_refl (h : db.InStep) : Moves db db := ⟨h,fun _ => .inl rfl⟩

/-- Rows are created, and nothing else. -/
def Creates (db t : Database) : Prop :=
  t.InStep ∧ ∀ id,t.stateOf id = db.stateOf id ∨
    db.stateOf id = none ∧ t.stateOf id = some .available

lemma Creates.moves (h : Creates db t) : Moves db t := by
  refine ⟨h.1,fun id => (h.2 id).imp_right ?_⟩
  rintro ⟨before,after⟩
  rw [before,after]
  exact .created

lemma addOne_outcome (h : db.InStep) (key : Key) (pre : String) (now : ℚ) (index : ℕ) :
    Outcome (addOne key pre now index) db (fun _ t => Creates db t) fun _ => True := by
  refine (insertCorrelation_outcome key _ now).bind fun cid t eq => ?_
  obtain ⟨rfl,rfl⟩ := eq
  refine (insertEvent_outcome _ .created now).mono (fun _ t eq => ?_) fun _ _ => trivial
  subst eq
  obtain ⟨inStep,states⟩ := h.create now
    ⟨db.lastCorrelation+1,key,_,.available,now,none,none⟩ rfl rfl
  refine ⟨inStep,fun id => ?_⟩
  by_cases same : id=db.lastCorrelation+1
  · subst same
    exact .inr ⟨h.fresh,(states _).trans (if_pos rfl)⟩
  · exact .inl ((states id).trans (if_neg same))

lemma add_outcome (h : db.InStep) (key : Key) (count : ℤ) (pre : String) (now : ℚ) :
    Outcome (add key count pre now) db (fun _ t => Moves db t) (· = db) := by
  have loop : Outcome (forEach (addOne key pre now) (range count.toNat)) db
      (fun _ t => Creates db t) fun _ => True := by
    refine Outcome.forEach (fun _ t => Creates db t) ⟨h,fun _ => .inl rfl⟩ fun index rest t made => ?_
    refine (addOne_outcome made.1 key pre now index).mono (fun _ u more => ?_)
      fun _ _ => trivial
    refine ⟨more.1,fun id => ?_⟩
    rcases made.2 id with same | ⟨before,after⟩
    · exact same ▸ more.2 id
    · refine .inr ⟨before,?_⟩
      rcases more.2 id with same | ⟨none,-⟩
      · exact same.trans after
      · rw [after] at none
        cases none
  have positive : Outcome
      (require (1 ≤ count) (Failure.valueError "count must be positive")) db
      (fun _ t => t=db) (· = db) := by
    intro deny k
    simp
  refine positive.bind fun _ t eq => ?_
  subst eq
  exact (transaction_outcome loop).mono (fun _ _ made => made.moves) fun _ eq => eq

lemma stateOf_of_count (h : db.InStep) {cid : ℤ} (one : db.correlations.countP
    (fun r => decide (r.id=cid ∧ r.state=s)) = 1) : db.stateOf cid = some s := by
  obtain ⟨r,m,found⟩ := countP_pos_iff.mp (one ▸ Nat.one_pos)
  obtain ⟨rfl,rfl⟩ := of_decide_eq_true found
  exact Database.stateOf_of_mem h m

/-- One correlation goes on, and nothing else changes. -/
def Advances (cid : ℤ) (source target : State) (db t : Database) : Prop :=
  t.InStep ∧ db.stateOf cid = some source ∧
    ∀ id,t.stateOf id = if id=cid then some target else db.stateOf id

lemma Advances.moves {cid : ℤ} {source target : State} (h : Advances cid source target db t)
    (follows : Follows (some source) (some target)) : Moves db t := by
  refine ⟨h.1,fun id => ?_⟩
  rw [h.2.2]
  by_cases same : id=cid
  · subst same
    rw [if_pos rfl,h.2.1]
    exact .inr follows
  · rw [if_neg same]
    exact .inl rfl

lemma reserve_outcome (h : db.InStep) (key : Key) (now : ℚ) :
    Outcome (reserve key now) db (fun r t => r.key=key ∧
      IsLeast { id | ∃ row∈db.correlations,row.id=id ∧ row.key=key ∧ row.state = .available }
        r.correlationId ∧ Advances r.correlationId .available .reserved db t) (· = db) := by
  refine transaction_outcome ?_
  refine (selectIds_outcome (isAvailable key)).bind fun ids t eq => ?_
  obtain ⟨rfl,rfl⟩ := eq
  have least (cid : ℤ) (eq : ((t.correlations.filter (isAvailable key)).map Correlation.id).min? =
      some cid) : IsLeast { id | ∃ row∈t.correlations,row.id=id ∧ row.key=key ∧
        row.state = .available } cid := by
    obtain ⟨m,all⟩ := min?_eq_some_iff.mp eq
    have available (row : Correlation) :
        isAvailable key row = true ↔ row.key=key ∧ row.state = .available := decide_eq_true_iff
    constructor
    · obtain ⟨row,selected,rfl⟩ := mem_map.mp m
      obtain ⟨m,is⟩ := mem_filter.mp selected
      exact ⟨row,m,rfl,(available row).mp is⟩
    · rintro id ⟨row,m,rfl,is⟩
      exact all _ (mem_map.mpr ⟨row,mem_filter.mpr ⟨m,(available row).mpr is⟩,rfl⟩)
  have first (e : Failure) : Outcome (expect
      ((t.correlations.filter (isAvailable key)).map Correlation.id).min? e) t
      (fun cid u => u=t ∧ IsLeast { id | ∃ row∈t.correlations,
        row.id=id ∧ row.key=key ∧ row.state = .available } cid) fun _ => True := by
    intro deny k
    rw [wp_expect]
    exact ⟨fun cid eq => ⟨rfl,least cid eq⟩,fun _ => trivial⟩
  refine (first _).bind fun cid u eq => ?_
  obtain ⟨rfl,least⟩ := eq
  refine (update_outcome _ _).bind fun updated v eq => ?_
  obtain ⟨rfl,rfl⟩ := eq
  refine (require_outcome _ _).bind fun _ v eq => ?_
  obtain ⟨one,rfl⟩ := eq
  have here := stateOf_of_count h one
  refine (insertEvent_outcome cid .reserved now).bind fun _ w eq => ?_
  subst eq
  obtain ⟨inStep,states⟩ := h.advance .available .reserved now
    (fun r => { r with state := .reserved, reservedAt := some now })
    (fun _ => rfl) (fun _ => rfl) rfl here
  exact .pure ⟨rfl,least,inStep,here,states⟩

lemma consume_outcome (h : db.InStep) (correlationId : ℤ) (now : ℚ) : Outcome (consume correlationId
    now) db (fun _ t => Advances correlationId .reserved .consumed db t) (· = db) := by
  refine transaction_outcome ?_
  refine (require_outcome _ _).bind fun _ t eq => ?_
  obtain ⟨-,rfl⟩ := eq
  refine (update_outcome _ _).bind fun updated u eq => ?_
  obtain ⟨rfl,rfl⟩ := eq
  refine (require_outcome _ _).bind fun _ u eq => ?_
  obtain ⟨one,rfl⟩ := eq
  have here := stateOf_of_count h one
  refine (insertEvent_outcome correlationId .consumed now).mono (fun _ w eq => ?_) fun _ _ => trivial
  subst eq
  obtain ⟨inStep,states⟩ := h.advance .reserved .consumed now
    (fun r => { r with state := .consumed, consumedAt := some now })
    (fun _ => rfl) (fun _ => rfl) rfl here
  exact ⟨inStep,here,states⟩

/-- The correlations that are still to be burned are reserved, and all others are as before or
burned. -/
structure Burning (db : Database) (rest : List ℤ) (t : Database) : Prop where
  inStep : t.InStep
  nodup : rest.Nodup
  left : ∀ id∈rest,t.stateOf id = some .reserved
  moved : ∀ id,t.stateOf id = db.stateOf id ∨
    db.stateOf id = some .reserved ∧ t.stateOf id = some .burned

lemma burnOne_outcome {cid : ℤ} {rest : List ℤ} (h : Burning db (cid::rest) t)
    (now : ℚ) : Outcome (burnOne now cid) t (fun _ u => Burning db rest u ∧ ∀ id,u.stateOf id =
      if id=cid then some .burned else t.stateOf id) fun _ => True := by
  have here := h.left cid mem_cons_self
  obtain ⟨other,nodup⟩ := nodup_cons.mp h.nodup
  refine (update_outcome _ _).bind fun updated u eq => ?_
  obtain ⟨rfl,rfl⟩ := eq
  refine (insertEvent_outcome cid .burned now).mono (fun _ w eq => ?_) fun _ _ => trivial
  let change (r : Correlation) : Correlation := { r with state := .burned, consumedAt := some now }
  obtain rfl : w=t.withEvent (t.advanced cid .reserved change) t.lastCorrelation cid .burned now :=
    eq
  obtain ⟨inStep,states⟩ := h.inStep.advance .reserved .burned now change
    (fun _ => rfl) (fun _ => rfl) rfl here
  refine ⟨⟨inStep,nodup,fun id m => ?_,fun id => ?_⟩,states⟩
  · have apart : id≠cid := fun same => other (same ▸ m)
    rw [states,if_neg apart]
    exact h.left id (mem_cons_of_mem _ m)
  · by_cases same : id=cid
    · subst same
      refine .inr ⟨?_,(states id).trans (if_pos rfl)⟩
      rcases h.moved id with eq | ⟨-,burned⟩
      · exact eq.symm.trans here
      · rw [here] at burned
        cases burned
    · rw [states,if_neg same]
      exact h.moved id

/-- The stale reservations are to be burned. -/
lemma burning_start (h : db.InStep) (cutoff : ℚ) :
    Burning db ((db.correlations.filter (isStale cutoff)).map Correlation.id) db := by
  refine ⟨h,?_,fun id m => ?_,fun _ => .inl rfl⟩
  · have nodup : (db.correlations.map Correlation.id).Nodup := h.ids.imp ne_of_lt
    exact nodup.sublist (filter_sublist.map _)
  · obtain ⟨r,selected,rfl⟩ := mem_map.mp m
    obtain ⟨mr,stale⟩ := mem_filter.mp selected
    rw [Database.stateOf_of_mem h mr,of_decide_eq_true (Bool.and_eq_true_iff.mp stale).1]

lemma burnStaleReservations_outcome (h : db.InStep) (age before now : ℚ) : Outcome
    (burnStaleReservations age before now) db (fun _ t => Moves db t) (· = db) := by
  refine transaction_outcome ?_
  refine (selectIds_outcome _).bind fun ids t eq => ?_
  obtain ⟨rfl,rfl⟩ := eq
  have loop : Outcome (forEach (burnOne now) ((t.correlations.filter
      (isStale (before-age))).map Correlation.id)) t (fun _ u => Burning t [] u)
      fun _ => True :=
    Outcome.forEach (fun rest u => Burning t rest u) (burning_start h _)
      fun cid rest u burning => (burnOne_outcome burning now).mono (fun _ _ => And.left) fun _ h => h
  refine loop.bind fun _ u burned => .pure ⟨burned.inStep,fun id => ?_⟩
  refine (burned.moved id).imp_right ?_
  rintro ⟨was,is⟩
  rw [was,is]
  exact .burned

section Success

variable {cid : ℤ}

lemma transaction_yields {body : Ledger α} (h : Yields body db good) :
    Yields (transaction body) db good :=
  .request (.read (.checked _ (h.bind fun _ _ holds => .request (.value holds))))

lemma insertCorrelation_yields (key : Key) (payloadPath : Option String) (now : ℚ)
    (room : db.lastCorrelation<2^63-1) : Yields (insertCorrelation key payloadPath now) db fun _ t =>
      t = ⟨db.correlations++[⟨db.lastCorrelation+1,key,payloadPath,.available,now,none,none⟩],
        db.events,db.lastCorrelation+1,db.lastSequence⟩ :=
  .request (.read (.require room (.modify (.value rfl))))

lemma insertEvent_yields (mark : Mark) (now : ℚ) (room : db.lastSequence<2^63-1) :
    Yields (insertEvent cid mark now) db fun _ t =>
      t = db.withEvent db.correlations db.lastCorrelation cid mark now :=
  .request (.read (.require room (.modify (.value rfl))))

lemma selectIds_yields (selects : Correlation → Bool) : Yields (selectIds selects)
    db fun ids t => ids = (db.correlations.filter selects).map Correlation.id ∧ t=db :=
  .request (.read (.value ⟨rfl,rfl⟩))

lemma update_yields (selects : Correlation → Bool) (change : Correlation → Correlation) :
    Yields (update selects change) db fun n t => n = db.correlations.countP selects ∧
      t.lastSequence=db.lastSequence :=
  .request (.read (.modify (.value ⟨rfl,rfl⟩)))

/-- The row that an addition inserts. -/
def created (db : Database) (key : Key) (pre : String) (now : ℚ) (index : ℕ) :
    Correlation :=
  ⟨db.lastCorrelation+1+index,key,if pre = "" then none else
    some s!"{pre}{index}",.available,now,none,none⟩

lemma addOne_yields (key : Key) (pre : String) (now : ℚ) (index : ℕ)
    (ids : db.lastCorrelation<2^63-1) (sequences : db.lastSequence<2^63-1) :
    Yields (addOne key pre now index) db fun _ t =>
      t.correlations = db.correlations++[⟨db.lastCorrelation+1,key,if pre = "" then none
        else some s!"{pre}{index}",.available,now,none,none⟩] ∧
      t.lastCorrelation=db.lastCorrelation+1 ∧ t.lastSequence=db.lastSequence+1 := by
  refine (insertCorrelation_yields key _ now ids).bind fun cid t eq => ?_
  subst eq
  refine (insertEvent_yields .created now ?_).mono fun _ t eq => ?_
  · exact sequences
  · subst eq
    exact ⟨rfl,rfl,rfl⟩

/-- An addition that the counters have room for. -/
lemma add_yields (key : Key) {count : ℤ} (pre : String) (now : ℚ) (positive : 1 ≤ count)
    (ids : db.lastCorrelation+count<2^63) (sequences : db.lastSequence+count<2^63) :
    Yields (add key count pre now) db fun _ t => t.correlations = db.correlations ++
      (range count.toNat).map (created db key pre now) := by
  refine Meets.require positive (transaction_yields ?_)
  refine (Meets.forEach (fun rest t => ∃ past,range count.toNat=past++rest ∧
    t.correlations = db.correlations++past.map (created db key pre now) ∧
    t.lastCorrelation=db.lastCorrelation+past.length ∧ t.lastSequence=db.lastSequence+past.length)
    ⟨[],rfl,by simp⟩ fun index rest t made => ?_).mono fun _ t made => ?_
  · obtain ⟨past,split,rows,lastId,lastSequence⟩ := made
    have less : past.length<count.toNat := by
      have := congrArg length split
      simp only [length_range,length_append,length_cons] at this
      omega
    obtain rfl : past.length=index := by
      have here := congrArg (·[past.length]?) split
      simpa [getElem?_range less] using here
    refine (addOne_yields key pre now _ (by omega) (by omega)).mono fun _ u more => ?_
    refine ⟨past++[past.length],by rw [split,append_assoc]; rfl,?_⟩
    rw [more.1,more.2.1,more.2.2,rows,lastId,lastSequence,map_append,length_append,append_assoc]
    refine ⟨?_,by simp; ring,by simp; ring⟩
    simp only [map_cons,map_nil,created]
    ring_nf
  · obtain ⟨past,split,rows,-⟩ := made
    rw [split,append_nil]
    exact rows

/-- No two rows have one id. -/
lemma count_of_stateOf (h : db.InStep) (here : db.stateOf cid = some s) :
    db.correlations.countP (fun r => decide (r.id=cid ∧ r.state=s)) = 1 := by
  obtain ⟨r,m,id,state⟩ := Database.exists_of_stateOf here
  have nodup : (db.correlations.map Correlation.id).Nodup := h.ids.imp ne_of_lt
  have atMost : db.correlations.countP (fun r => decide (r.id=cid ∧ r.state=s)) ≤
      (db.correlations.map Correlation.id).count cid := by
    rw [count,countP_map]
    refine countP_mono_left fun q _ both => ?_
    exact beq_iff_eq.mpr (of_decide_eq_true both).1
  have one := atMost.trans (nodup_iff_count_le_one.mp nodup cid)
  have some : 0<db.correlations.countP (fun r => decide (r.id=cid ∧ r.state=s)) :=
    countP_pos_iff.mpr ⟨r,m,decide_eq_true ⟨id,state⟩⟩
  omega

/-- A reservation finds the row that it has read. -/
lemma reserve_yields (h : db.InStep) (key : Key) (now : ℚ) (sequences : db.lastSequence<2^63-1)
    (some : ∃ r∈db.correlations,r.key=key ∧ r.state = .available) :
    Yields (reserve key now) db fun r _ => r.key=key ∧ r.reservedAt=now := by
  obtain ⟨r,m,is⟩ := some
  have selected : r.id ∈ (db.correlations.filter (isAvailable key)).map Correlation.id :=
    mem_map.mpr ⟨r,mem_filter.mpr ⟨m,decide_eq_true is⟩,rfl⟩
  obtain ⟨cid,least⟩ : ∃ cid,((db.correlations.filter (isAvailable key)).map
      Correlation.id).min? = .some cid :=
    Option.ne_none_iff_exists'.mp fun none => ne_nil_of_mem selected (min?_eq_none_iff.mp none)
  obtain ⟨q,mq,rfl⟩ := mem_map.mp (min?_mem least)
  obtain ⟨mq,available⟩ := mem_filter.mp mq
  have one := count_of_stateOf h ((Database.stateOf_of_mem h mq).trans
    (congrArg _ (of_decide_eq_true available).2))
  refine transaction_yields ((selectIds_yields _).bind fun ids t eq => ?_)
  obtain ⟨rfl,rfl⟩ := eq
  refine .expect least ((update_yields _ _).bind fun updated u eq => ?_)
  obtain ⟨rfl,last⟩ := eq
  refine .require one ((insertEvent_yields .reserved now ?_).bind fun _ _ _ => .value ⟨rfl,rfl⟩)
  exact last ▸ sequences

lemma consume_yields (h : db.InStep) (now : ℚ) (sequences : db.lastSequence<2^63-1)
    (int64 : -2^63 ≤ cid ∧ cid<2^63) (here : db.stateOf cid = some .reserved) :
    Yields (consume cid now) db fun _ _ => True := by
  refine transaction_yields (.require int64 ((update_yields _ _).bind fun updated t eq => ?_))
  obtain ⟨rfl,last⟩ := eq
  refine .require (count_of_stateOf h here) ((insertEvent_yields .consumed now ?_).mono ?_)
  · exact last ▸ sequences
  · exact fun _ _ _ => trivial

/-- The stale reservations are burned, each of them. -/
lemma burnStaleReservations_yields (h : db.InStep) (age before now : ℚ)
    (sequences : db.lastSequence + db.correlations.countP (isStale (before-age))<2^63) :
    Yields (burnStaleReservations age before now) db fun n t => n = db.correlations.countP (isStale
    (before-age)) ∧ ∀ r∈db.correlations,isStale (before-age) r → t.stateOf r.id = some .burned := by
  rw [countP_eq_length_filter] at sequences ⊢
  refine transaction_yields ((selectIds_yields _).bind fun ids t eq => ?_)
  obtain ⟨rfl,rfl⟩ := eq
  refine (Meets.forEach (fun rest u => Burning t rest u ∧ u.lastSequence+rest.length<2^63 ∧
    ∀ r∈t.correlations,isStale (before-age) r →
      r.id∈rest ∨ u.stateOf r.id = some .burned)
    ⟨burning_start h _,by simpa using sequences,fun r m stale => .inl (mem_map.mpr
      ⟨r,mem_filter.mpr ⟨m,stale⟩,rfl⟩)⟩ fun id rest u burning => ?_).bind fun _ u burning => ?_
  · obtain ⟨burning,room,left⟩ := burning
    have last : Yields (burnOne now id) u fun _ v => v.lastSequence=u.lastSequence+1 := by
      refine (update_yields _ _).bind fun _ v eq => (insertEvent_yields .burned now ?_).mono ?_
      · have := eq.2
        rw [length_cons] at room
        push_cast at room
        omega
      · rintro _ w rfl
        exact congrArg (· + 1) eq.2
    refine (last.also (burnOne_outcome burning now)).mono fun _ v both => ?_
    obtain ⟨last,burning,states⟩ := both
    refine ⟨burning,?_,fun r m stale => ?_⟩
    · rw [length_cons] at room
      push_cast at room
      omega
    · rw [states]
      by_cases same : r.id=id
      · exact .inr (if_pos same)
      · rw [if_neg same]
        exact (left r m stale).imp_left fun m => (mem_cons.mp m).resolve_left same
  · exact .value ⟨length_map _,fun r m stale => (burning.2.2 r m stale).resolve_left not_mem_nil⟩

/-- What a call does whose statements the database does not deny, where the counters have room. -/
def Serves (db : Database) (call : Call) (reply : Option Reply) (t : Database) : Prop :=
  match call with
  | .add key count pre now =>
    (count<1 → reply = some (.failed (.valueError "count must be positive"))) ∧
    (1 ≤ count → db.lastCorrelation+count<2^63 → db.lastSequence+count<2^63 → reply = some .done ∧
      t.correlations = db.correlations++(range count.toNat).map (created db key pre now))
  | .reserve key now =>
    ((¬∃ row∈db.correlations,row.key=key ∧ row.state = .available) →
      reply = some (.failed (.unavailable (reserveText key.modelId key.stageId key.keyId)))) ∧
    ((∃ row∈db.correlations,row.key=key ∧ row.state = .available) → db.lastSequence<2^63-1 →
      ∃ id,reply = some (.reserved ⟨id,key,now⟩) ∧ IsLeast { id | ∃ row∈db.correlations,
        row.id=id ∧ row.key=key ∧ row.state = .available } id ∧ t.stateOf id = some .reserved)
  | .consume correlationId _ => -2^63 ≤ correlationId → correlationId<2^63 →
    (db.stateOf correlationId ≠ some .reserved →
      reply = some (.failed (.unavailable "correlation is not reserved"))) ∧
    (db.stateOf correlationId = some .reserved → db.lastSequence<2^63-1 →
      reply = some .done ∧ t.stateOf correlationId = some .consumed)
  | .burnStaleReservations age before _ =>
    let stale := isStale (before-age)
    db.lastSequence+db.correlations.countP stale<2^63 →
      reply = some (.burned (db.correlations.countP stale)) ∧
      ∀ row∈db.correlations,stale row → t.stateOf row.id = some .burned

lemma step_ok {x : Ledger α} (connection : ℕ) (call : Call) (reply : α → Reply)
    (h : Yields x db good) (body : call.body = x >>= fun a => pure (reply a)) :
    ∃ a t,step db (.call connection call fun _ => none) = (some (reply a),t) ∧ good a t := by
  obtain ⟨a,t,k,eq,holds⟩ := h.exists_ok
  exact ⟨a,t,by simp only [step,body,bind_ok eq]; rfl,holds⟩

lemma step_failed {call : Call} {e : Failure} (connection : ℕ)
    (h : wp (fun _ => none) call.body db 0 (fun _ _ _ => False) fun e' _ _ => e'=e) :
    (step db (.call connection call fun _ => none)).1 = some (.failed e) := by
  simp only [step]
  cases result : call.body (fun _ => none) db 0 with
  | mk returned rest =>
    obtain ⟨t,k⟩ := rest
    cases returned with
    | ok reply => exact (h.ok result).elim
    | error e' => rw [h.error result]

lemma step_serves (h : db.InStep) (connection : ℕ) (call : Call) : Serves db call (step db
    (.call connection call fun _ => none)).1 (step db (.call connection call fun _ => none)).2 := by
  cases call with
  | add key count pre now =>
    refine ⟨fun few => step_failed connection ?_,fun positive ids sequences => ?_⟩
    · simp [Call.body,add,not_le.mpr few]
    · obtain ⟨-,t,eq,rows⟩ := step_ok connection (.add ..) (fun _ => .done)
        (add_yields key pre now positive ids sequences) rfl
      rw [eq]
      exact ⟨rfl,rows⟩
  | reserve key now =>
    refine ⟨fun none => step_failed connection ?_,fun some sequences => ?_⟩
    · have empty : (db.correlations.filter (isAvailable key)).map Correlation.id=[] := by
        rw [map_eq_nil_iff,filter_eq_nil_iff]
        exact fun row m is => none ⟨row,m,of_decide_eq_true is⟩
      simp [Call.body,reserve,transaction,selectIds,empty]
    · obtain ⟨r,t,eq,⟨key,time⟩,-,least,advances⟩ := step_ok connection (.reserve ..) .reserved
        ((reserve_yields h key now sequences some).also (reserve_outcome h key now)) rfl
      rw [eq]
      refine ⟨r.correlationId,by rw [← key,← time],least,?_⟩
      rw [advances.2.2,if_pos rfl]
  | consume correlationId now =>
    refine fun low high => ⟨fun other => step_failed connection ?_,fun here sequences => ?_⟩
    · have no : db.correlations.countP
          (fun r => decide (r.id=correlationId ∧ r.state = .reserved)) ≠ 1 :=
        fun one => other (stateOf_of_count h one)
      simp only [Bool.decide_and] at no
      simp only [Call.body,consume,transaction,update,wp_bind,wp_request,wp_read,wp_checked,
        wp_require,wp_modify,wp_pure]
      simp [no]
      omega
    · obtain ⟨-,t,eq,-,advances⟩ := step_ok connection (.consume ..) (fun _ => .done)
        ((consume_yields h now sequences ⟨low,high⟩ here).also (consume_outcome h _ now)) rfl
      rw [eq]
      exact ⟨rfl,(advances.2.2 correlationId).trans (if_pos rfl)⟩
  | burnStaleReservations age before now =>
    intro room
    obtain ⟨n,t,eq,rfl,burned⟩ := step_ok connection (.burnStaleReservations ..) .burned
      (burnStaleReservations_yields h age before now room) rfl
    rw [eq]
    exact ⟨rfl,burned⟩

end Success

/-- What a call does to the tables, when it returns. -/
def Returns (call : Call) (db : Database) (reply : Reply) (t : Database) : Prop :=
  Moves db t ∧ (∀ e,reply ≠ .failed e) ∧ ∀ r,reply = .reserved r →
    (∃ now,call = .reserve r.key now) ∧
    IsLeast { id | ∃ row∈db.correlations,row.id=id ∧ row.key=r.key ∧ row.state = .available }
      r.correlationId ∧ Advances r.correlationId .available .reserved db t

lemma body_outcome (h : db.InStep) (call : Call) :
    Outcome call.body db (fun reply t => Returns call db reply t) (· = db) := by
  cases call with
  | add key count pre now =>
    exact (add_outcome h key count pre now).bind fun _ t moves => .pure ⟨moves,nofun,nofun⟩
  | reserve key now =>
    refine (reserve_outcome h key now).bind fun r t eq => .pure ?_
    obtain ⟨rfl,least,advances⟩ := eq
    refine ⟨advances.moves .reserved,nofun,fun q same => ?_⟩
    obtain rfl := Reply.reserved.inj same
    exact ⟨⟨now,rfl⟩,least,advances⟩
  | consume correlationId now =>
    exact (consume_outcome h correlationId now).bind fun _ t advances =>
      .pure ⟨advances.moves .consumed,nofun,nofun⟩
  | burnStaleReservations age before now =>
    exact (burnStaleReservations_outcome h age before now).bind fun _ t moves =>
      .pure ⟨moves,nofun,nofun⟩

end Calls

section Runs

variable {db : Database}

lemma step_cases (h : db.InStep) (action : Action) : (∃ connection call deny reply t,action =
    .call connection call deny ∧ step db action = (some reply,t) ∧ Returns call db reply t) ∨
    (∃ e,step db action = (some (.failed e),db)) ∨ step db action = (none,db) := by
  cases action with
  | crash connection => exact .inr (.inr rfl)
  | call connection call deny =>
    have outcome := body_outcome h call
    cases result : call.body deny db 0 with
    | mk returned rest =>
      obtain ⟨t,k⟩ := rest
      simp only [step,result]
      cases returned with
      | ok reply => exact .inl ⟨connection,call,deny,reply,t,rfl,rfl,outcome.ok result⟩
      | error e =>
        have eq : t=db := outcome.error result
        rw [eq]
        exact .inr (.inl ⟨e,rfl⟩)

lemma step_moves (h : db.InStep) (action : Action) : Moves db (step db action).2 := by
  rcases step_cases h action with ⟨_,_,_,_,_,-,eq,moves,-⟩ | ⟨_,eq⟩ | eq
  · rw [eq]
    exact moves
  · rw [eq]
    exact moves_refl h
  · rw [eq]
    exact moves_refl h

/-- The correlations that have been handed out. -/
def reservedIds (replies : List Reply) : List ℤ :=
  replies.filterMap fun
    | .reserved r => some r.correlationId
    | _ => none

lemma run_sound (h : db.InStep) (actions : List Action) :
    (run actions db).2.InStep ∧ (reservedIds (run actions db).1).Nodup ∧ ∀ id ∈ reservedIds
    (run actions db).1, db.stateOf id = none ∨ db.stateOf id = some .available := by
  induction actions generalizing db with
  | nil => exact ⟨h,.nil,nofun⟩
  | cons action actions ih =>
    have moves := step_moves h action
    obtain ⟨inStep,nodup,fresh⟩ := ih moves.1
    have earlier (id : ℤ) (m : id ∈ reservedIds (run actions (step db action).2).1) :
        db.stateOf id = none ∨ db.stateOf id = some .available := by
      have later := fresh id m
      rcases moves.2 id with same | follows
      · rwa [same] at later
      · generalize db.stateOf id=s at follows ⊢
        generalize (step db action).2.stateOf id=t at follows later
        cases follows with
        | created => exact .inl rfl
        | reserved => exact .inr rfl
        | consumed => rcases later with eq | eq <;> cases eq
        | burned => rcases later with eq | eq <;> cases eq
    have replies : reservedIds (run (action::actions) db).1 =
        reservedIds (step db action).1.toList ++
          reservedIds (run actions (step db action).2).1 := filterMap_append
    refine ⟨inStep,?_⟩
    rw [replies]
    have others (none : reservedIds (step db action).1.toList=[]) :
        (reservedIds (step db action).1.toList ++
          reservedIds (run actions (step db action).2).1).Nodup ∧
        ∀ id ∈ reservedIds (step db action).1.toList ++
          reservedIds (run actions (step db action).2).1,
          db.stateOf id = .none ∨ db.stateOf id = some .available := by
      rw [none]
      exact ⟨nodup,earlier⟩
    rcases step_cases h action with ⟨_,_,_,reply,t,-,eq,-,-,reserves⟩ | ⟨_,eq⟩ | eq
    · cases reply with
      | reserved r =>
        obtain ⟨-,-,advances⟩ := reserves r rfl
        have here : reservedIds (step db action).1.toList=[r.correlationId] := by
          rw [eq]
          rfl
        rw [here]
        refine ⟨nodup_cons.mpr ⟨fun m => ?_,nodup⟩,fun id m => ?_⟩
        · have later := fresh _ m
          rw [eq,advances.2.2,if_pos rfl] at later
          rcases later with eq | eq <;> cases eq
        · rcases mem_cons.mp m with rfl | m
          · exact .inr advances.2.1
          · exact earlier id m
      | done => exact others (by rw [eq]; rfl)
      | burned count => exact others (by rw [eq]; rfl)
      | failed failure => exact others (by rw [eq]; rfl)
    · exact others (by rw [eq]; rfl)
    · exact others (by rw [eq]; rfl)

/-- After every run of calls of any connections the log tells the state of each correlation, none
has been handed out twice, and each further step moves a correlation along its path at most once,
hands out the least one that is available, and changes nothing when it fails. A call that the
database lets through does its work. -/
theorem ledger_runs (actions : List Action) :
    let db := (run actions .empty).2
    db.InStep ∧ (reservedIds (run actions .empty).1).Nodup ∧ ∀ action,
      let next := step db action
      (∀ id,next.2.stateOf id = db.stateOf id ∨ Follows (db.stateOf id) (next.2.stateOf id)) ∧
      (∀ r,next.1 = some (.reserved r) →
        (∃ connection now deny,action = .call connection (.reserve r.key now) deny) ∧
        next.2.stateOf r.correlationId = some .reserved ∧
        IsLeast { id | ∃ row∈db.correlations,
          row.id=id ∧ row.key=r.key ∧ row.state = .available } r.correlationId) ∧
      (∀ e,next.1 = some (.failed e) → next.2=db) ∧
      (∀ connection,action = .crash connection → next=(none,db)) ∧
      ∀ connection call,action = .call connection call (fun _ => none) →
        Serves db call next.1 next.2 := by
  obtain ⟨inStep,nodup,-⟩ := run_sound Database.inStep_empty actions
  refine ⟨inStep,nodup,fun action => ?_⟩
  intro next
  refine ⟨(step_moves inStep action).2,?_,?_,?_,?_⟩
  · intro r eq
    rcases step_cases inStep action with ⟨c,call,deny,reply,t,is,done,-,-,reserves⟩ | ⟨_,done⟩ | done
    · have same : reply = .reserved r := Option.some.inj ((congrArg Prod.fst done).symm.trans eq)
      obtain ⟨⟨now,key⟩,least,advances⟩ := reserves r same
      have final : next.2=t := congrArg Prod.snd done
      refine ⟨⟨c,now,deny,key ▸ is⟩,?_,least⟩
      rw [final,advances.2.2,if_pos rfl]
    · cases (congrArg Prod.fst done).symm.trans eq
    · cases (congrArg Prod.fst done).symm.trans eq
  · intro e eq
    rcases step_cases inStep action with ⟨c,call,deny,reply,t,-,done,-,answered,-⟩ | ⟨_,done⟩ | done
    · exact absurd (Option.some.inj ((congrArg Prod.fst done).symm.trans eq)) (answered e)
    · exact congrArg Prod.snd done
    · exact congrArg Prod.snd done
  · rintro connection rfl
    rfl
  · rintro connection call rfl
    exact step_serves inStep connection call

/-- The first of two correlations is handed out and consumed, and cannot be consumed again. -/
theorem ledger_runs_consumed :
    let key : Key := ⟨"m","s","k"⟩
    let actions : List Action := [.call 0 (.add key 2 "p" 1) fun _ => none,
      .call 1 (.reserve key 2) fun _ => none,.call 0 (.consume 1 3) fun _ => none,
      .call 1 (.consume 1 4) fun _ => none]
    let db := (run actions .empty).2
    (run actions .empty).1 = [.done,.reserved ⟨1,key,2⟩,.done,
      .failed (.unavailable "correlation is not reserved")] ∧
    (db.stateOf 1 = some .consumed ∧ db.stateOf 2 = some .available) ∧ db.InStep ∧
    Serves db (.reserve key 5) (step db (.call 0 (.reserve key 5) fun _ => none)).1
      (step db (.call 0 (.reserve key 5) fun _ => none)).2 :=
  ⟨rfl,⟨rfl,rfl⟩,(ledger_runs _).1,((ledger_runs _).2.2 _).2.2.2.2 _ _ rfl⟩

end Runs

end Pllm.Runtime.CorrelationLedger
