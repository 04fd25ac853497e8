import Pllm.Lib.Except
import Pllm.Runtime.RendezvousCorrect

/-! The sections that take several attempts at once, and the two that deliver. -/
namespace Pllm.Runtime.Corrections
open Pllm.Lib List
open Prod (fst snd)
variable {attemptId text : String} {ids : List String} {keys : List Key} {item : Key × String}

namespace Rendezvous

variable {T : Type} {q : Rendezvous T} {k : Key} {id : String}

lemma key_fst (h : Corrections.key id attemptId = .ok k) : k.1=id := by
  unfold Corrections.key at h
  split at h
  · cases h
  split at h <;> cases h
  rfl

lemma ne_empty_of_key (h : Corrections.key id attemptId = .ok k) : attemptId ≠ "" := by
  rintro rfl
  simp [Corrections.key] at h

lemma keys_spec (h : ids.mapM (Corrections.key id) = .ok
    keys) : keys.length=ids.length ∧ ∀ k∈keys,k.1=id := by
  have all := mapM_eq_ok.mp h
  refine ⟨all.length_eq.symm,fun k m => ?_⟩
  clear h
  induction all with
  | nil => cases m
  | cons head _ ih =>
    rcases mem_cons.mp m with rfl | m
    · exact key_fst head
    · exact ih m

/-- The share that a row has of the bytes of a bulk. -/
def share (payloadBytes : ℤ) (rows row : ℕ) : ℤ :=
  payloadBytes / rows + if (row : ℤ) < payloadBytes % rows then 1 else 0

section
variable {payload : ℤ} {rows : ℕ} {c : CorrectionPush}

lemma share_nonneg (pos : 0<payload) (row : ℕ) : 0 ≤ share payload rows row := by
  have : 0 ≤ payload / (rows:ℤ) := Int.ediv_nonneg pos.le (Int.natCast_nonneg rows)
  unfold share
  split <;> omega

lemma sum_range_lt (m : ℤ) (pos : 0 ≤ m) (n : ℕ) :
    ((range n).map fun i : ℕ => if (i : ℤ) < m then (1:ℤ) else 0).sum = min (n : ℤ) m := by
  induction n with
  | zero => simpa using pos
  | succ n ih =>
    rw [range_succ,map_append,sum_append]
    simp only [map_cons,map_nil,sum_cons,sum_nil]
    split <;> omega

lemma sum_share (pos : rows≠0) : ((range rows).map (share payload rows)).sum = payload := by
  have divisor : (0:ℤ) < rows := by omega
  have low := Int.emod_nonneg payload divisor.ne'
  have high := Int.emod_lt_of_pos payload divisor
  have split := sum_range_lt (payload % rows) low rows
  have total : ((range rows).map (share payload rows)).sum =
      rows * (payload / rows) + payload % rows := by
    have add : share payload rows=fun i : ℕ => payload / rows +
        if (i : ℤ) < payload % rows then 1 else 0 := rfl
    rw [add,sum_map_add,split,min_eq_right high.le]
    simp
  rw [total]
  exact Int.mul_ediv_add_emod payload rows

lemma sum_zipIdx_share {α : Type*} (l : List α) (payload : ℤ) (rows : ℕ) : (l.zipIdx.map
    fun r => share payload rows r.2).sum = ((range l.length).map (share payload rows)).sum := by
  have places : l.zipIdx.map snd=range l.length := by
    rw [zipIdx_map_snd,range_eq_range']
  rw [← places,map_map]
  rfl

lemma preloadRows_spec (pos : 0<payload) (now : T) {rows : List ((Key × String) × ℕ)}
    (nodup : (rows.map fun r => r.1.1).Nodup) (new : ∀ r∈rows,q.entries.get? r.1.1 = none) :
    let q' := rows.foldl (preloadRow c payload now) q
    q'.sessions = q.sessions ∧ q'.limits=q.limits ∧ q'.bytes=q.bytes ∧
      q'.entries.size = q.entries.size + rows.length ∧
      q'.entries.sum (fun _ e => e.correctionBytes) = q.entries.sum (fun _ e => e.correctionBytes) +
          (rows.map fun r => share payload c.metadata.rows r.2).sum ∧
      (∀ id,q'.live id = q.live id + rows.countP fun r => r.1.1.1=id) ∧
      ∀ x e,q'.entries.get? x = some e → q.entries.get? x = some e ∨
        (∃ r∈rows,x=r.1.1) ∧ 0≤e.correctionBytes ∧ e.correction≠none := by
  induction rows generalizing q with
  | nil => exact ⟨rfl,rfl,rfl,rfl,by simp,fun _ => by simp,fun _ _ h => .inl h⟩
  | cons r rows ih =>
    obtain ⟨fresh,nodup⟩ := nodup_cons.mp nodup
    have free : q.entries.get? r.1.1=none := new r mem_cons_self
    have rest : ∀ x∈rows,(preloadRow c payload now q r).entries.get? x.1.1=none := by
      intro x m
      rw [preloadRow,Dict.get?_set,if_neg]
      · exact new x (mem_cons_of_mem _ m)
      · intro eq
        exact fresh (mem_map.mpr ⟨x,m,eq⟩)
    obtain ⟨sessions,limits,bytes,size,sum,live,get⟩ := ih nodup rest
    refine ⟨sessions,limits,bytes,size.trans ?_,sum.trans ?_,fun id => (live id).trans ?_,
      fun x e h => ?_⟩
    · rw [preloadRow,Dict.size_eq_sum,Dict.sum_insert _ free,← Dict.size_eq_sum,length_cons]
      omega
    · rw [preloadRow,Dict.sum_insert _ free,map_cons,add_assoc]
      rfl
    · have : (preloadRow c payload now q r).live id =
          q.live id + if r.1.1.1=id then 1 else 0 := live_set q free _ id
      rw [countP_cons]
      simp only [decide_eq_true_eq]
      omega
    · rcases get x e h with old | ⟨⟨y,m,eq⟩,bytes⟩
      · rw [preloadRow,Dict.get?_set] at old
        split at old
        · cases old
          exact .inr ⟨⟨r,mem_cons_self,‹_›⟩,share_nonneg pos r.2,Option.some_ne_none _⟩
        · exact .inl old
      · exact .inr ⟨⟨y,mem_cons_of_mem _ m,eq⟩,bytes⟩

/-- All rows of a bulk join at once: between the first and the last of them the books are wrong. -/
lemma preloadRows_safe (pos : 0<payload) (rows : c.metadata.rows≠0) {pairs : List (Key × String)}
    (length : pairs.length=c.metadata.rows) (distinct : (pairs.map fst).Nodup)
    {session : Session T} (registered : q.sessions.get? c.metadata.sessionId = some session)
    (owner : ∀ r∈pairs,r.1.1=c.metadata.sessionId) (notBurned : ∀ r∈pairs,r.1.2 ∉ session.burned)
    (notLive : ∀ r∈pairs,q.entries.get? r.1 = none) (capacity : q.entries.size + c.metadata.rows ≤
    q.limits.capacity) (attempts : session.burned.card + q.live c.metadata.sessionId
    + c.metadata.rows ≤ session.expected.maxAttempts) (bytes : q.bytes+payload≤q.limits.maxBytes)
    (now : T) : Safe q (q.preloadRows c payload pairs now) := by
  have inPairs {r : (Key × String) × ℕ} (m : r∈pairs.zipIdx) : r.1∈pairs := by
    have : r.1 ∈ pairs.zipIdx.map fst := mem_map.mpr ⟨r,m,rfl⟩
    rwa [zipIdx_map_fst] at this
  have first : pairs.zipIdx.map (fun r => r.1.1)=pairs.map fst := by
    conv_rhs => rw [← zipIdx_map_fst 0 pairs,map_map]
    rfl
  obtain ⟨sessions,limits,bytes',size,sum,live,get⟩ :=
    preloadRows_spec (q := q) (c := c) pos now
      (show (pairs.zipIdx.map fun r => r.1.1).Nodup from first ▸ distinct) fun r m => notLive r.1 (inPairs m)
  rw [length_zipIdx,length] at size
  rw [sum_zipIdx_share,length,sum_share rows] at sum
  have count (id : String) : pairs.zipIdx.countP (fun r => r.1.1.1=id) =
      if id=c.metadata.sessionId then c.metadata.rows else 0 := by
    split
    · rename_i eq
      rw [countP_eq_length.mpr fun r m => by simp [owner _ (inPairs m),eq],length_zipIdx,length]
    · rename_i ne
      refine countP_eq_zero.mpr fun r m => ?_
      simpa [owner _ (inPairs m)] using fun eq => ne (Eq.symm eq)
  refine ⟨⟨limits,fun i => ⟨⟨?_,?_,?_,fun x e h => ?_,fun x e h none => ?_⟩,?_,fun x e h => ?_⟩,
    fun x s h => ?_⟩,fun i r x s h => ?_⟩
  · exact (congrArg (· + payload) (bytes'.trans i.bytes_eq)).trans sum.symm
  · simp only [preloadRows,bytes',limits]
    exact bytes
  · simp only [preloadRows,size,limits]
    exact capacity
  · exact (get x e h).elim (i.nonneg x e) fun new => new.2.1
  · exact (get x e h).elim (fun old => i.blank x e old none) fun new => absurd none new.2.2
  · simp only [preloadRows,sessions,limits]
    exact i.sessions_le
  · simp only [preloadRows,sessions]
    rcases get x e h with old | ⟨⟨r,m,rfl⟩,-⟩
    · exact i.known x e old
    · exact ⟨session,(owner _ (inPairs m)).symm ▸ registered,notBurned _ (inPairs m)⟩
  · exact ⟨s,sessions ▸ h,subset_rfl,rfl⟩
  · have h : q.sessions.get? x=some s := sessions ▸ h
    have live : (q.preloadRows c payload pairs now).live x =
        q.live x + if x=c.metadata.sessionId then c.metadata.rows else 0 :=
      (live x).trans (by rw [count])
    rw [live]
    split
    · rename_i eq
      subst eq
      obtain rfl : session=s := some_inj (registered.symm.trans h)
      omega
    · exact r x s h

end

/-- A section that changes nothing when it fails. -/
def Atomic (q : Rendezvous T) (p : Except String Unit × Rendezvous T) : Prop :=
  Safe q p.2 ∧ ∀ text,p.1 = .error text → p.2=q

lemma Atomic.of_error : Atomic q (.error text,q) := ⟨.refl q,fun _ _ => rfl⟩

lemma preloadLocked_atomic {c : CorrectionPush} {payload : ℤ} (pos : 0<payload)
    (rows : c.metadata.rows≠0) (distinct : keys.Nodup)
    (owner : ∀ k∈keys,k.1=c.metadata.sessionId) {attemptIds : List String}
    (length : keys.length=c.metadata.rows) (ids : attemptIds.length=c.metadata.rows) (now : T) :
    Atomic q (q.preloadLocked c payload keys attemptIds now) := by
  unfold preloadLocked
  split
  · exact .of_error
  rename_i session registered
  split
  · exact .of_error
  split
  · exact .of_error
  split
  · exact .of_error
  rename_i notBurned
  split
  · exact .of_error
  rename_i notLive
  split
  · exact .of_error
  rename_i capacity
  split
  · exact .of_error
  rename_i attempts
  split
  · exact .of_error
  rename_i bytes
  have first : (keys.zip attemptIds).map fst=keys :=
    map_fst_zip (length.trans ids.symm).le
  have inKeys {r : Key × String} (m : r ∈ keys.zip attemptIds) : r.1∈keys :=
    first ▸ mem_map.mpr ⟨r,m,rfl⟩
  have paired : (keys.zip attemptIds).length=c.metadata.rows := by simp [length,ids]
  have joined := preloadRows_safe (q := q) pos rows paired (first.symm ▸ distinct) registered (fun r m => owner _ (inKeys m))
    (fun r m burned => notBurned ⟨_,inKeys m,burned⟩)
    (fun r m => by
      by_contra live
      exact notLive ⟨_,inKeys m,Option.isSome_iff_ne_none.mpr live⟩)
    (not_lt.mp capacity) (not_lt.mp attempts) (not_lt.mp bytes) now
  exact ⟨joined.trans (touch_safe _ _ now),fun _ eq => by cases eq⟩

section Clock

variable [Sub T] [LE T] [DecidableLE T]

/-- A bulk that is turned down leaves the state as it is, or as the cleanup leaves it. -/
def Bulked (q : Rendezvous T) (now : T) (p : Except String Unit × Rendezvous T) : Prop :=
  Safe q p.2 ∧ ∀ text,p.1 = .error text → p.2=q ∨ p.2 = q.cleanup now

lemma preloadBulk_bulked (protocol : Protocol) (q : Rendezvous T) (c : CorrectionPush)
    (payload : ℤ) (now : T) : Bulked q now (q.preloadBulk protocol c payload now) := by
  have same {text : String} : Bulked q now (.error text,q) := ⟨.refl q,fun _ _ => .inl rfl⟩
  dsimp only [preloadBulk]
  split
  · exact same
  rename_i shape
  split
  · exact same
  split
  · exact same
  split
  · exact same
  rename_i pos
  split
  · exact same
  rename_i keys ids
  split
  · exact same
  rename_i distinct
  obtain ⟨length,owner⟩ := keys_spec ids
  rw [length_map,length_range] at length
  have ids : ((range c.metadata.rows).map (protocol.onlineAttemptId c)).length =
      c.metadata.rows := by simp
  obtain ⟨safe,atomic⟩ := preloadLocked_atomic (q := q.cleanup now) (not_le.mp pos)
    (fun eq => shape (.inl eq)) (not_not.mp distinct) owner length ids now
  exact ⟨(q.cleanup_safe now).trans safe,fun text eq => .inr (atomic text eq)⟩

end Clock

/-- A registered session that has not burned the attempt. -/
def Open (q : Rendezvous T) (k : Key) : Prop :=
  ∃ s,q.sessions.get? k.1 = some s ∧ k.2 ∉ s.burned

def Spent (q : Rendezvous T) (k : Key) : Prop :=
  ∀ s,q.sessions.get? k.1 = some s → k.2∈s.burned

lemma Keeps.open_of {q q' : Rendezvous T} (h : Keeps q q') (o : Open q' k) : Open q k := by
  obtain ⟨s',get',out⟩ := o
  obtain ⟨s,get,sub,-⟩ := h.sessions _ s' get'
  exact ⟨s,get,fun m => out (sub m)⟩

lemma Keeps.spent {q q' : Rendezvous T} (h : Keeps q q') (spent : Spent q k) : Spent q' k := by
  intro s' get'
  obtain ⟨s,get,sub,-⟩ := h.sessions _ s' get'
  exact sub (spent s get)

lemma burn_spent (q : Rendezvous T) (k : Key) (f : Bool) : Spent (q.burn k f) k := by
  intro s get
  rw [get?_burn_sessions,if_pos rfl] at get
  obtain ⟨s,-,rfl⟩ := Option.map_eq_some_iff.mp get
  exact Finset.mem_insert_self ..

/-- What holds of a delivery: it matches its request, and the attempt was neither consumed nor
burned before and is afterwards. -/
structure Delivered (q q' : Rendezvous T) (d : Delivery) : Prop where
  metadata : d.correction.metadata=d.requested
  key : Corrections.key d.requested.sessionId d.requested.attemptId = .ok d.key
  before : Inv q → Open q d.key
  after : Spent q' d.key

/-- A section that delivers different attempts only, and none when it fails. -/
structure Delivers (q : Rendezvous T) (p : Except String (List Delivery) × Rendezvous T) : Prop where
  keeps : Keeps q p.2
  nodup : ∀ ds,p.1 = .ok ds → (ds.map Delivery.key).Nodup
  delivered : ∀ ds,p.1 = .ok ds → ∀ d∈ds,Delivered q p.2 d

section
variable {session : Session T} {r : MaskedStageRequest} {items : List (Key × String)}

lemma Delivers.of_error {q' : Rendezvous T} (keeps : Keeps q q') : Delivers q (.error text,q') :=
  ⟨keeps,fun _ eq => (by cases eq),fun _ eq => (by cases eq)⟩

lemma requestMetadata_attemptId (r : MaskedStageRequest) (h : Corrections.key
    id attemptId = .ok k) (rows : ℕ) : (requestMetadata r attemptId rows).attemptId = attemptId :=
  if_neg (ne_empty_of_key h)

lemma received_delivers (q : Rendezvous T) (r : MaskedStageRequest) (future : ℕ) :
    Safe q (q.received r future).2 ∧ Delivers q (q.received r future) := by
  have aborted := q.abort_safe r future
  unfold received
  split
  · split
    · exact ⟨aborted,.of_error aborted.toKeeps⟩
    rename_i c _ same
    split
    · exact ⟨.refl q,.of_error (.refl q)⟩
    rename_i k ok
    split
    · rename_i is
      obtain ⟨e,here,-⟩ := Option.any_eq_true _ _ |>.mp is
      have safe : Safe q { q.burn k false with
          counters := { q.counters with consumed := q.counters.consumed+1 } } :=
        (burn_live_safe here false).trans (.of_eq rfl rfl rfl rfl)
      refine ⟨safe,safe.toKeeps,fun ds eq => ?_,fun ds eq d m => ?_⟩
      · cases eq
        exact nodup_singleton _
      · cases eq
        obtain rfl := mem_singleton.mp m
        refine ⟨not_not.mp same,?_,fun i => i.known k e here,q.burn_spent k false⟩
        rw [MaskedStageRequest.metadata,requestMetadata_attemptId r ok]
        exact ok
    · exact ⟨.refl q,.of_error (.refl q)⟩
  · exact ⟨aborted,.of_error aborted.toKeeps⟩

lemma Delivers.trans {a b : Rendezvous T} {p : Except String (List Delivery) × Rendezvous T}
    (h : Keeps a b) (h' : Delivers b p) : Delivers a p where
  keeps := h.trans h'.keeps
  nodup := h'.nodup
  delivered ds eq d m :=
    have d' := h'.delivered ds eq d m
    ⟨d'.metadata,d'.key,fun i => h.open_of (d'.before (h.inv i)),d'.after⟩

lemma receive_delivers (q : Rendezvous T) (r : MaskedStageRequest) (future : ℕ) :
    Safe q (q.receive r future).2 ∧ Delivers q (q.receive r future) := by
  have left : Safe q { q with waiting := q.waiting.erase (r,future) } := .of_eq rfl rfl rfl rfl
  obtain ⟨safe,delivers⟩ := received_delivers { q with waiting := q.waiting.erase (r,future) } r future
  exact ⟨left.trans safe,.trans left.toKeeps delivers⟩

lemma prepared_ok {d : Delivery} (h : q.prepared session r item = .ok d) :
    d.key=item.1 ∧ d.requested = requestMetadata r item.2 1 ∧
      d.correction.metadata=d.requested ∧ ∃ e,q.entries.get? item.1 = some e := by
  unfold prepared at h
  split at h
  · cases h
  split at h
  · cases h
  rename_i e here
  split at h
  · cases h
  split at h
  · cases h
  split at h
  · cases h
  rename_i same
  cases h
  exact ⟨rfl,rfl,not_not.mp same,e,here⟩

lemma consumeItem_safe {e : Entry T}
    (here : q.entries.get? item.1 = some e) : Safe q (consumeItem r q item) := by
  have updated := q.update_safe item.1 (f := fun e =>
    { e with
      activated := true
      preloaded := false
      activationMetadata := some (requestMetadata r item.2 1) }) (fun _ => rfl) fun _ => rfl
  exact updated.trans (burn_live_safe (get?_update here _) false)

lemma consumeItems (nodup : (items.map fst).Nodup) (live : ∀ item∈items,∃ e,q.entries.get? item.1 =
    some e) : Safe q (items.foldl (consumeItem r) q) ∧ ∀ item∈items,Spent
    (items.foldl (consumeItem r) q) item.1 := by
  induction items generalizing q with
  | nil => exact ⟨.refl q,nofun⟩
  | cons item items ih =>
    obtain ⟨new,nodup⟩ := nodup_cons.mp nodup
    obtain ⟨e,here⟩ := live item mem_cons_self
    have rest : ∀ x∈items,∃ e,(consumeItem r q item).entries.get? x.1=some e := by
      intro x m
      obtain ⟨e,here⟩ := live x (mem_cons_of_mem _ m)
      have other : x.1≠item.1 := fun eq => new (mem_map.mpr ⟨x,m,eq⟩)
      refine ⟨e,?_⟩
      rw [consumeItem,burn_entries,Dict.get?_erase,if_neg other,update,Dict.get?_modify,if_neg other]
      exact here
    obtain ⟨safe,spent⟩ := ih nodup rest
    refine ⟨(consumeItem_safe here).trans safe,fun x m => ?_⟩
    rcases mem_cons.mp m with rfl | m
    · exact safe.toKeeps.spent (burn_spent _ _ false)
    · exact spent x m

lemma prepared_all {ds : List Delivery} (h : items.mapM (q.prepared session r) = .ok ds) :
    ds.map Delivery.key = items.map fst ∧ (∀ item∈items,∃ e,q.entries.get? item.1 = some e) ∧
      ∀ d∈ds,∃ item∈items,q.prepared session r item = .ok d := by
  have all := mapM_eq_ok.mp h
  clear h
  induction all with
  | nil => exact ⟨rfl,nofun,nofun⟩
  | cons head _ ih =>
    obtain ⟨keys,live,source⟩ := ih
    obtain ⟨key,-,-,here⟩ := prepared_ok head
    refine ⟨by rw [map_cons,map_cons,key,keys],fun x m => ?_,fun d m => ?_⟩
    · rcases mem_cons.mp m with rfl | m
      · exact here
      · exact live x m
    · rcases mem_cons.mp m with rfl | m
      · exact ⟨_,mem_cons_self,head⟩
      · obtain ⟨item,m,eq⟩ := source d m
        exact ⟨item,mem_cons_of_mem _ m,eq⟩

lemma key_of_mem_zip (h : ids.mapM (Corrections.key id) = .ok keys) (m : item ∈ keys.zip ids) :
    Corrections.key id item.2 = .ok item.1 := by
  have all := mapM_eq_ok.mp h
  clear h
  induction all with
  | nil => cases m
  | cons head _ ih =>
    rcases mem_cons.mp m with rfl | m
    · exact head
    · exact ih m

end

/-- The attempts of a batch whose scan fails and that its session never admitted must fit with the
others. -/
def Fits (q : Rendezvous T) (r : MaskedStageRequest) (ids : List String) (keys : List Key) : Prop :=
  ∀ session,q.sessions.get? r.sessionId = some session → session.authorized →
    (r.model=session.expected.model ∧ r.bodyFingerprint=session.expected.bodyFingerprint) →
    (∃ text,(keys.zip ids).mapM (q.prepared session r) = .error text) →
    session.burned.card + q.live r.sessionId + keys.countP (q.fresh session) ≤
      session.expected.maxAttempts

lemma consumeLocked_delivers {r : MaskedStageRequest} (ok : ids.mapM (Corrections.key r.sessionId) =
    .ok keys) (distinct : keys.Nodup) (now : T) : Delivers q (q.consumeLocked r ids keys now) ∧
    (Fits q r ids keys → Safe q (q.consumeLocked r ids keys now).2) := by
  have same {text : String} : Delivers q (.error text,q) ∧
      (Fits q r ids keys → Safe q ((.error text,q) : Except String (List Delivery) × _).2) :=
    ⟨.of_error (.refl q),fun _ => .refl q⟩
  obtain ⟨length,owner⟩ := keys_spec ok
  have first : (keys.zip ids).map fst=keys := map_fst_zip length.le
  unfold consumeLocked
  split
  · exact same
  rename_i session registered
  split
  · exact same
  rename_i authorized
  split
  · exact same
  rename_i metadata
  split
  · rename_i text failed
    have keeps := burnAll_keeps true keys q
    refine ⟨.of_error keeps,fun fits => ⟨keeps,fun inv room id s' get => ?_⟩⟩
    obtain ⟨s,get,eq,load⟩ := load_burnAll inv distinct get
    rw [load,← eq]
    by_cases h : id=r.sessionId
    · subst h
      obtain rfl : session=s := some_inj (registered.symm.trans get)
      have count : keys.countP (fun k => decide (k.1=r.sessionId) && q.fresh session k) =
          keys.countP (q.fresh session) := by
        refine countP_congr fun k m => ?_
        simp [owner k m]
      rw [count]
      exact fits session registered (by simpa using authorized) (by simpa [not_or] using metadata)
        ⟨text,failed⟩
    · have count : keys.countP (fun k => decide (k.1=id) && q.fresh s k)=0 := by
        refine countP_eq_zero.mpr fun k m => ?_
        simp [owner k m,Ne.symm h]
      rw [count]
      exact room id s get
  · rename_i ds prepared
    obtain ⟨dkeys,live,source⟩ := prepared_all prepared
    obtain ⟨safe,spent⟩ := consumeItems (q := q) (r := r) (first.symm ▸ distinct) live
    have touched := safe.trans (touch_safe _ r.sessionId now)
    have after := (touch_safe ((keys.zip ids).foldl (consumeItem r) q) r.sessionId now).toKeeps
    have counted : Safe q { (((keys.zip ids).foldl (consumeItem r) q).touch r.sessionId now) with
        counters := { (((keys.zip ids).foldl (consumeItem r) q).touch r.sessionId now).counters with
          consumed := (((keys.zip ids).foldl (consumeItem r) q).touch r.sessionId now).counters.consumed
            + r.rows } } := touched.trans (.of_eq rfl rfl rfl rfl)
    refine ⟨⟨counted.toKeeps,fun ds' eq => ?_,fun ds' eq d m => ?_⟩,fun _ => counted⟩
    · cases eq
      rw [dkeys,first]
      exact distinct
    · cases eq
      obtain ⟨item,m,eq⟩ := source d m
      obtain ⟨key,requested,metadata,e,here⟩ := prepared_ok eq
      have itemKey := key_of_mem_zip ok m
      refine ⟨metadata,?_,fun i => key ▸ i.known _ e here,key ▸ after.spent (spent item m)⟩
      rw [requested,key,requestMetadata_attemptId r itemKey]
      exact itemKey

section Clock

variable [Sub T] [LE T] [DecidableLE T]

/-- The condition on a batch that reaches its scan, in the state that the cleanup leaves. -/
def FitsBatch (q : Rendezvous T) (r : MaskedStageRequest) (ids : List String) (now : T) : Prop :=
  r.rows=ids.length → ids ≠ [] → ∀ keys,ids.mapM (Corrections.key r.sessionId) = .ok keys →
    keys.Nodup → Fits (q.cleanup now) r ids keys

lemma consumePreloadedBatch_delivers (q : Rendezvous T) (r : MaskedStageRequest)
    (ids : List String) (now : T) : Delivers q (q.consumePreloadedBatch r ids now) ∧
      (FitsBatch q r ids now → Safe q (q.consumePreloadedBatch r ids now).2) := by
  have same {text : String} : Delivers q (.error text,q) ∧
      (FitsBatch q r ids now → Safe q ((.error text,q) : Except String (List Delivery) × _).2) :=
    ⟨.of_error (.refl q),fun _ => .refl q⟩
  unfold consumePreloadedBatch
  split
  · exact same
  rename_i shape
  split
  · exact same
  rename_i keys ok
  split
  · exact same
  rename_i distinct
  have clean := q.cleanup_safe now
  obtain ⟨delivers,safe⟩ :=
    consumeLocked_delivers (q := q.cleanup now) ok (not_not.mp distinct) now
  rw [not_or,not_not] at shape
  exact ⟨.trans clean.toKeeps delivers,fun fits => clean.trans
    (safe (fits shape.1 shape.2 keys ok (not_not.mp distinct)))⟩

end Clock

end Rendezvous
end Pllm.Runtime.Corrections
