import Mathlib.Algebra.Order.BigOperators.Group.List
import Mathlib.Tactic.Linarith
import Pllm.Runtime.Rendezvous

/-! What the sections of the rendezvous keep. -/
namespace Pllm.Runtime.Corrections
open Pllm.Lib Dict List
namespace Rendezvous

variable {T : Type} {q : Rendezvous T} {k : Key} {id : String}

/-- The entries and the counter of their bytes. -/
structure Books (q : Rendezvous T) : Prop where
  bytes_eq : q.bytes=q.entries.sum fun _ e => e.correctionBytes
  bytes_le : q.bytes≤q.limits.maxBytes
  entries_le : q.entries.size≤q.limits.capacity
  nonneg : ∀ k e,q.entries.get? k = some e → 0≤e.correctionBytes
  blank : ∀ k e,q.entries.get? k = some e → e.correction=none → e.correctionBytes=0

/-- Every live attempt belongs to a registered session that has not burned it. -/
structure Inv (q : Rendezvous T) : Prop extends Books q where
  sessions_le : q.sessions.size≤q.limits.sessionCapacity
  known : ∀ k e,q.entries.get? k = some e → ∃ s,q.sessions.get? k.1 = some s ∧ k.2 ∉ s.burned

def Room (q : Rendezvous T) : Prop :=
  ∀ id s,q.sessions.get? id = some s → s.burned.card + q.live id ≤ s.expected.maxAttempts

/-- A section that keeps the books and takes no burned attempt back. -/
structure Keeps (q q' : Rendezvous T) : Prop where
  limits : q'.limits=q.limits
  inv : Inv q → Inv q'
  sessions : ∀ id s',q'.sessions.get? id = some s' →
    ∃ s,q.sessions.get? id = some s ∧ s.burned ⊆ s'.burned ∧ s.expected=s'.expected

/-- A section that also keeps the sessions within their attempts. -/
structure Safe (q q' : Rendezvous T) : Prop extends Keeps q q' where
  room : Inv q → Room q → Room q'

lemma Keeps.refl (q : Rendezvous T) : Keeps q q :=
  ⟨rfl,fun h => h,fun _ s h => ⟨s,h,subset_rfl,rfl⟩⟩

lemma Keeps.trans {a b c : Rendezvous T} (h : Keeps a b) (h' : Keeps b c) : Keeps a c where
  limits := h'.limits.trans h.limits
  inv i := h'.inv (h.inv i)
  sessions := by
    intro id s'' get
    obtain ⟨s',get',sub',eq'⟩ := h'.sessions id s'' get
    obtain ⟨s,get,sub,eq⟩ := h.sessions id s' get'
    exact ⟨s,get,sub.trans sub',eq.trans eq'⟩

lemma Safe.refl (q : Rendezvous T) : Safe q q :=
  ⟨.refl q,fun _ h => h⟩

lemma Safe.trans {a b c : Rendezvous T} (h : Safe a b) (h' : Safe b c) : Safe a c :=
  ⟨h.toKeeps.trans h'.toKeeps,fun i r => h'.room (h.inv i) (h.room i r)⟩

lemma Safe.foldl {α : Type*} {f : Rendezvous T → α → Rendezvous T} (safe : ∀ q a,Safe q (f q a))
    (l : List α) (q : Rendezvous T) : Safe q (l.foldl f q) := by
  induction l generalizing q with
  | nil => exact .refl q
  | cons a l ih => exact (safe q a).trans (ih (f q a))

lemma Safe.of_eq {q q' : Rendezvous T} (limits : q'.limits=q.limits)
    (entries : q'.entries=q.entries) (sessions : q'.sessions=q.sessions)
    (bytes : q'.bytes=q.bytes) : Safe q q' where
  limits := limits
  inv i := ⟨⟨by rw [bytes,entries]; exact i.bytes_eq,by rw [bytes,limits]; exact i.bytes_le,
    by rw [entries,limits]; exact i.entries_le,by rw [entries]; exact i.nonneg,
    by rw [entries]; exact i.blank⟩,by rw [sessions,limits]; exact i.sessions_le,
    by rw [entries,sessions]; exact i.known⟩
  sessions id s get := ⟨s,sessions ▸ get,subset_rfl,rfl⟩
  room _ r id s get := by
    rw [live,entries]
    exact r id s (sessions ▸ get)

section
variable (q : Rendezvous T)

lemma failed_safe : Safe q q.failed := .of_eq rfl rfl rfl rfl

lemma modify_safe (id : String) {f : Session T → Session T}
    (burned : ∀ s,(f s).burned = s.burned) (expected : ∀ s,(f s).expected = s.expected) :
    Safe q { q with sessions := q.sessions.modify id f } := by
  have get {x : String} {s' : Session T} (h : (q.sessions.modify id f).get? x=some s') :
      ∃ s,q.sessions.get? x = some s ∧ s.burned=s'.burned ∧ s.expected=s'.expected := by
    rw [get?_modify] at h
    split at h
    · obtain ⟨s,get,rfl⟩ := Option.map_eq_some_iff.mp h
      exact ⟨s,get,(burned s).symm,(expected s).symm⟩
    · exact ⟨s',h,rfl,rfl⟩
  refine ⟨⟨rfl,fun i => ?_,fun x s' h => ?_⟩,fun i r x s' h => ?_⟩
  · refine { i with sessions_le := ?_, known := fun k e h => ?_ }
    · simpa [size,Dict.modify] using i.sessions_le
    · obtain ⟨s,known,out⟩ := i.known k e h
      simp only [get?_modify]
      split
      · exact ⟨f s,by rw [known]; rfl,by rwa [burned]⟩
      · exact ⟨s,known,out⟩
  · obtain ⟨s,get,b,e⟩ := get h
    exact ⟨s,get,b.subset,e⟩
  · obtain ⟨s,get,b,e⟩ := get h
    exact b ▸ e ▸ r x s get

lemma touch_safe (id : String) (now : T) : Safe q (q.touch id now) :=
  q.modify_safe id (fun _ => rfl) fun _ => rfl

@[simp] lemma discard_sessions (k : Key) : (q.discard k).sessions = q.sessions := by
  unfold discard
  split <;> rfl

@[simp] lemma discard_limits (k : Key) : (q.discard k).limits = q.limits := by
  unfold discard
  split <;> rfl

@[simp] lemma discard_entries (k : Key) : (q.discard k).entries = q.entries.erase k := by
  unfold discard
  split
  · rename_i h
    exact (erase_of_none h).symm
  · rfl

end

lemma size_erase_le (d : Dict Key (Entry T)) (k : Key) : (d.erase k).size ≤ d.size :=
  length_filter_le ..

lemma live_discard_le (q : Rendezvous T) (k : Key) (id : String) :
    (q.discard k).live id ≤ q.live id := by
  rw [live,discard_entries,live]
  cases h : q.entries.get? k with
  | none => rw [erase_of_none h]
  | some e =>
    rw [← sum_erase _ h]
    exact le_add_self

lemma discard_books (books : Books q) (k : Key) : Books (q.discard k) := by
  have sub {x : Key} {e : Entry T} (h : (q.discard k).entries.get? x=some e) :
      q.entries.get? x = some e := by
    rw [discard_entries,get?_erase] at h
    split at h
    · cases h
    · exact h
  have bytes : (q.discard k).bytes=(q.discard k).entries.sum (fun _ e => e.correctionBytes) ∧
      (q.discard k).bytes ≤ q.bytes := by
    unfold discard
    cases h : q.entries.get? k with
    | none => exact ⟨(erase_of_none h).symm ▸ books.bytes_eq,le_rfl⟩
    | some e =>
      have total := sum_erase (fun _ e => e.correctionBytes) h
      have eq := books.bytes_eq
      have pos := books.nonneg k e h
      exact ⟨by simp only; linarith,by simp only; linarith⟩
  refine ⟨bytes.1,?_,?_,fun x e h => books.nonneg x e (sub h),fun x e h => books.blank x e (sub h)⟩
  · rw [discard_limits]
    exact bytes.2.trans books.bytes_le
  · rw [discard_limits,discard_entries]
    exact (size_erase_le _ k).trans books.entries_le

section
variable (q : Rendezvous T) (k : Key) (f : Bool)

@[simp] lemma burn_sessions :
    (q.burn k f).sessions = q.sessions.modify k.1 fun s => s.burn k.2 := by
  cases f <;> simp [burn,mark,failed]

@[simp] lemma burn_entries : (q.burn k f).entries = q.entries.erase k := by
  cases f <;> simp [burn,mark,failed]

@[simp] lemma burn_limits : (q.burn k f).limits = q.limits := by
  cases f <;> simp [burn,mark,failed]

end

lemma burn_books (books : Books q) (k : Key) (f : Bool) : Books (q.burn k f) := by
  have books := discard_books books k
  have marked : Books ((q.discard k).mark k) :=
    ⟨books.bytes_eq,books.bytes_le,books.entries_le,books.nonneg,books.blank⟩
  cases f
  · exact marked
  · exact ⟨marked.bytes_eq,marked.bytes_le,marked.entries_le,marked.nonneg,marked.blank⟩

lemma get?_burn_sessions (q : Rendezvous T) (k : Key) (f : Bool) (id : String) :
    (q.burn k f).sessions.get? id =
      if id=k.1 then (q.sessions.get? id).map fun s => s.burn k.2 else q.sessions.get? id := by
  rw [burn_sessions,get?_modify]

lemma burn_keeps (q : Rendezvous T) (k : Key) (f : Bool) : Keeps q (q.burn k f) := by
  refine ⟨q.burn_limits k f,fun i => ⟨burn_books i.toBooks k f,?_,fun x e h => ?_⟩,fun id s' h => ?_⟩
  · simpa [size,Dict.modify] using i.sessions_le
  · rw [burn_entries,get?_erase] at h
    split at h
    · cases h
    rename_i other
    obtain ⟨s,known,out⟩ := i.known x e h
    rw [get?_burn_sessions]
    split
    · rename_i same
      refine ⟨s.burn k.2,by rw [known]; rfl,?_⟩
      simp only [Session.burn,Finset.mem_insert,not_or]
      exact ⟨fun eq => other (Prod.ext same eq),out⟩
    · exact ⟨s,known,out⟩
  · rw [get?_burn_sessions] at h
    split at h
    · obtain ⟨s,get,rfl⟩ := Option.map_eq_some_iff.mp h
      exact ⟨s,get,Finset.subset_insert ..,rfl⟩
    · exact ⟨s',h,subset_rfl,rfl⟩

/-- Whether a key was never admitted to its session. -/
def fresh (q : Rendezvous T) (s : Session T) (k : Key) : Bool :=
  (q.entries.get? k).isNone && decide (k.2 ∉ s.burned)

lemma live_burn (q : Rendezvous T) (k : Key) (f : Bool) (id : String) :
    (q.burn k f).live id + (if (q.entries.get? k).isSome ∧ k.1=id then 1 else 0) = q.live id := by
  rw [live,live]
  cases h : q.entries.get? k with
  | none => simp [erase_of_none h]
  | some e =>
    rw [← sum_erase _ h,add_comm]
    simp

lemma load_burn (inv : Inv q) (k : Key) (f : Bool) {s : Session T}
    (get : q.sessions.get? k.1 = some s) :
    (s.burn k.2).burned.card + (q.burn k f).live k.1 =
      s.burned.card + q.live k.1 + if q.fresh s k then 1 else 0 := by
  have live := q.live_burn k f k.1
  simp only [Session.burn]
  cases h : q.entries.get? k with
  | some e =>
    obtain ⟨s',get',out⟩ := inv.known k e h
    obtain rfl : s=s' := Option.some.inj (get.symm.trans get')
    have admitted : q.fresh s k=false := by simp [fresh,h]
    rw [Finset.card_insert_of_notMem out,admitted]
    simp [h] at live ⊢
    omega
  | none =>
    by_cases burned : k.2∈s.burned
    · have admitted : q.fresh s k=false := by simp [fresh,burned]
      rw [Finset.insert_eq_of_mem burned,admitted]
      simp [h] at live ⊢
      omega
    · have new : q.fresh s k=true := by simp [fresh,h,burned]
      rw [Finset.card_insert_of_notMem burned,new]
      simp [h] at live ⊢
      omega

lemma load_burnAll {f : Bool} (inv : Inv q) {keys : List Key} (nodup : keys.Nodup) {id : String}
    {s' : Session T} (get : (keys.foldl (fun q k => q.burn k f) q).sessions.get? id = some s') :
    ∃ s,q.sessions.get? id = some s ∧ s.expected=s'.expected ∧
      s'.burned.card + (keys.foldl (fun q k => q.burn k f) q).live id =
        s.burned.card + q.live id + keys.countP (fun k => decide (k.1=id) && q.fresh s k) := by
  induction keys generalizing q with
  | nil => exact ⟨s',get,rfl,rfl⟩
  | cons k keys ih =>
    obtain ⟨new,nodup⟩ := nodup_cons.mp nodup
    obtain ⟨s₁,get₁,eq₁,load₁⟩ := ih ((q.burn_keeps k f).inv inv) nodup get
    simp only [foldl_cons,countP_cons,load₁]
    rw [get?_burn_sessions] at get₁
    have unchanged (x : Key) (m : x∈keys) :
        (q.burn k f).entries.get? x = q.entries.get? x := by
      rw [burn_entries,get?_erase,if_neg]
      rintro rfl
      exact new m
    split at get₁
    · rename_i same
      subst same
      obtain ⟨s,get,rfl⟩ := Option.map_eq_some_iff.mp get₁
      refine ⟨s,get,eq₁,?_⟩
      have count : keys.countP (fun x => decide (x.1=k.1) && (q.burn k f).fresh (s.burn k.2) x) =
          keys.countP (fun x => decide (x.1=k.1) && q.fresh s x) := by
        refine countP_congr fun x m => ?_
        have other : x.1=k.1 → x.2≠k.2 := fun eq eq' => new (Prod.ext eq eq' ▸ m)
        simp only [fresh,unchanged x m,Session.burn,Finset.mem_insert,Bool.and_eq_true,
          decide_eq_true_eq]
        constructor
        · rintro ⟨a,b,c⟩
          exact ⟨a,b,fun burned => c (.inr burned)⟩
        · rintro ⟨a,b,c⟩
          exact ⟨a,b,fun burned => burned.elim (other a) c⟩
      rw [count,load_burn inv k f get]
      simp only [decide_true,Bool.true_and]
      omega
    · rename_i other
      refine ⟨s₁,get₁,eq₁,?_⟩
      have live := q.live_burn k f id
      have count : keys.countP (fun x => decide (x.1=id) && (q.burn k f).fresh s₁ x) =
          keys.countP (fun x => decide (x.1=id) && q.fresh s₁ x) := by
        refine countP_congr fun x m => ?_
        simp only [fresh,unchanged x m]
      simp only [Ne.symm other,and_false,if_false] at live
      simp [Ne.symm other]
      omega

lemma burnAll_keeps (f : Bool) (keys : List Key) (q : Rendezvous T) :
    Keeps q (keys.foldl (fun q k => q.burn k f) q) := by
  induction keys generalizing q with
  | nil => exact .refl q
  | cons k keys ih => exact (q.burn_keeps k f).trans (ih _)

lemma burnAll_room {f : Bool} (inv : Inv q) {keys : List Key} (nodup : keys.Nodup)
    (admitted : ∀ k∈keys,∀ s,q.sessions.get? k.1 = some s → q.fresh s k = false) (room : Room q) :
    Room (keys.foldl (fun q k => q.burn k f) q) := by
  intro id s' get
  obtain ⟨s,get,eq,load⟩ := load_burnAll inv nodup get
  have none : keys.countP (fun k => decide (k.1=id) && q.fresh s k)=0 := by
    refine countP_eq_zero.mpr fun k m => ?_
    simp only [Bool.and_eq_true,decide_eq_true_eq,not_and,Bool.not_eq_true]
    rintro rfl
    exact admitted k m s get
  rw [load,none,← eq]
  exact room id s get

lemma burn_safe (q : Rendezvous T) (k : Key) (f : Bool) (admitted : Inv q →
    ∀ s,q.sessions.get? k.1 = some s → q.fresh s k = false) : Safe q (q.burn k f) := by
  refine ⟨q.burn_keeps k f,fun inv room => ?_⟩
  refine burnAll_room inv (nodup_singleton k) (fun x m => ?_) room
  exact mem_singleton.mp m ▸ admitted inv

lemma burn_live_safe {e : Entry T} (h : q.entries.get? k = some e) (f : Bool) :
    Safe q (q.burn k f) :=
  q.burn_safe k f fun _ _ _ => by simp [fresh,h]

end Rendezvous

namespace Rendezvous

variable {T : Type} {q : Rendezvous T} {k : Key} {id : String}

lemma discardAll (keys : List Key) (q : Rendezvous T) :
    let q' := keys.foldl (fun q k => (q.discard k).failed) q
    q'.sessions = q.sessions ∧ q'.limits=q.limits ∧ (Books q → Books q') ∧
      (∀ id,q'.live id ≤ q.live id) ∧
      ∀ x,q'.entries.get? x = if x∈keys then none else q.entries.get? x := by
  induction keys generalizing q with
  | nil => exact ⟨rfl,rfl,fun b => b,fun _ => le_rfl,fun _ => by simp⟩
  | cons k keys ih =>
    obtain ⟨sessions,limits,books,live,entries⟩ := ih (q.discard k).failed
    refine ⟨sessions.trans (q.discard_sessions k),limits.trans (q.discard_limits k),
      fun b => books ?_,fun id => (live id).trans (q.live_discard_le k id),fun x => ?_⟩
    · have b := discard_books b k
      exact ⟨b.bytes_eq,b.bytes_le,b.entries_le,b.nonneg,b.blank⟩
    · have step : (q.discard k).failed.entries=q.entries.erase k := q.discard_entries k
      rw [foldl_cons,entries,step,get?_erase]
      by_cases h : x=k <;> simp [h]

lemma terminal_safe (q : Rendezvous T) (id : String) : Safe q (q.terminal id) := by
  obtain ⟨sessions,limits,books,live,entries⟩ := discardAll
    (q.entries.keysWhere fun k _ => k.1=id) { q with sessions := q.sessions.erase id }
  change (q.terminal id).sessions=q.sessions.erase id at sessions
  change (q.terminal id).limits=q.limits at limits
  change ∀ x,(q.terminal id).entries.get? x =
    if x ∈ q.entries.keysWhere (fun k _ => k.1=id) then none else q.entries.get? x at entries
  have sub {x : String} {s : Session T} (h : (q.terminal id).sessions.get? x=some s) :
      q.sessions.get? x = some s := by
    rw [sessions,get?_erase] at h
    split at h
    · cases h
    · exact h
  refine ⟨⟨limits,fun i => ⟨books ⟨i.bytes_eq,i.bytes_le,i.entries_le,i.nonneg,i.blank⟩,?_,?_⟩,
    fun x s h => ⟨s,sub h,subset_rfl,rfl⟩⟩,fun i r x s h => ?_⟩
  · rw [sessions,limits]
    exact (length_filter_le ..).trans i.sessions_le
  · intro x e h
    rw [entries] at h
    split at h
    · cases h
    rename_i out
    obtain ⟨s,known,notBurned⟩ := i.known x e h
    refine ⟨s,?_,notBurned⟩
    rw [sessions,get?_erase,if_neg fun eq => out ?_]
    · exact known
    · exact (keysWhere_eq ..).mpr ⟨e,h,by simp [eq]⟩
  · exact (Nat.add_le_add_left (live x) _).trans (r x s (sub h))

section Clock

variable [Sub T] [LE T] [DecidableLE T]

lemma cleanup_safe (q : Rendezvous T) (now : T) : Safe q (q.cleanup now) := by
  refine Safe.trans ⟨burnAll_keeps true _ q,fun inv room => ?_⟩
    (Safe.foldl (fun q id => q.terminal_safe id) _ _)
  refine burnAll_room inv (nodup_keysWhere ..) (fun k m s _ => ?_) room
  obtain ⟨e,live,-⟩ := (keysWhere_eq ..).mp m
  simp [fresh,live]

end Clock

lemma live_update (q : Rendezvous T) (k : Key) (f : Entry T → Entry T) (id : String) :
    (q.update k f).live id = q.live id :=
  sum_modify_of_eq _ fun _ _ => rfl

lemma update_safe (q : Rendezvous T) (k : Key) {f : Entry T → Entry T}
    (bytes : ∀ e,(f e).correctionBytes = e.correctionBytes)
    (correction : ∀ e,(f e).correction = e.correction) : Safe q (q.update k f) := by
  have get {x : Key} {e' : Entry T} (h : (q.update k f).entries.get? x=some e') :
      ∃ e,q.entries.get? x = some e ∧ e'.correctionBytes=e.correctionBytes ∧
        e'.correction=e.correction := by
    simp only [update,get?_modify] at h
    split at h
    · obtain ⟨e,get,rfl⟩ := Option.map_eq_some_iff.mp h
      exact ⟨e,get,bytes e,correction e⟩
    · exact ⟨e',h,rfl,rfl⟩
  refine ⟨⟨rfl,fun i => ⟨⟨?_,i.bytes_le,?_,fun x e' h => ?_,fun x e' h none => ?_⟩,i.sessions_le,
    fun x e' h => ?_⟩,fun _ s h => ⟨s,h,subset_rfl,rfl⟩⟩,fun _ r id s h => ?_⟩
  · exact i.bytes_eq.trans (sum_modify_of_eq _ fun e _ => bytes e).symm
  · simpa [update,size,Dict.modify] using i.entries_le
  · obtain ⟨e,get,eq,-⟩ := get h
    exact eq ▸ i.nonneg x e get
  · obtain ⟨e,get,eq,eq'⟩ := get h
    exact eq ▸ i.blank x e get (eq' ▸ none)
  · obtain ⟨e,get,-⟩ := get h
    exact i.known x e get
  · rw [live_update]
    exact r id s h

lemma get?_update {e : Entry T} (here : q.entries.get? k = some e) (f : Entry T → Entry T) :
    (q.update k f).entries.get? k = some (f e) := by
  simp [update,get?_modify,here]

lemma live_set (q : Rendezvous T) (new : q.entries.get? k = none) (e : Entry T) (id : String) :
    (q.entries.set k e).sum (fun k _ => if k.1=id then 1 else 0) =
      q.live id + if k.1=id then 1 else 0 :=
  sum_insert _ new

lemma admit_safe {now : T} {s : Session T} (new : q.entries.get? k = none) (known : q.sessions.get?
    k.1 = some s) (open_ : k.2 ∉ s.burned) (room : q.entries.size<q.limits.capacity) (attempts :
    s.burned.card + q.live k.1 < s.expected.maxAttempts) : Safe q (q.admitEntry k now).2 := by
  refine ⟨⟨rfl,fun i => ⟨⟨?_,i.bytes_le,?_,fun x e h => ?_,fun x e h _ => ?_⟩,i.sessions_le,
    fun x e h => ?_⟩,fun _ s h => ⟨s,h,subset_rfl,rfl⟩⟩,fun _ r id s' h => ?_⟩
  · exact i.bytes_eq.trans ((sum_insert _ new).trans (add_zero _)).symm
  · rw [admitEntry,size_eq_sum,sum_insert _ new,← size_eq_sum]
    exact room
  · simp only [admitEntry,get?_set] at h
    split at h
    · cases h
      exact le_rfl
    · exact i.nonneg x e h
  · simp only [admitEntry,get?_set] at h
    split at h
    · cases h
      rfl
    · exact i.blank x e h ‹_›
  · simp only [admitEntry,get?_set] at h
    split at h
    · rename_i eq
      exact ⟨s,eq ▸ known,eq ▸ open_⟩
    · exact i.known x e h
  · rw [live,admitEntry,live_set q new]
    by_cases eq : k.1=id
    · subst eq
      obtain rfl : s=s' := Option.some.inj (known.symm.trans h)
      rw [if_pos rfl]
      omega
    · rw [if_neg eq]
      exact r id s' h

/-- The entry that a lookup yields is the one in its place. -/
def Looked (q : Rendezvous T) (k : Key) (p : Except String (Entry T) × Rendezvous T) : Prop :=
  Safe q p.2 ∧ ∀ e,p.1 = .ok e → p.2.entries.get? k = some e

lemma Looked.of_error {q' : Rendezvous T} {text : String} (safe : Safe q q') :
    Looked q k (.error text,q') :=
  ⟨safe,fun _ eq => by cases eq⟩

section Clock

variable [Sub T] [LE T] [DecidableLE T]

lemma entryLocked_looked (q : Rendezvous T) (k : Key) (now : T) :
    Looked q k (q.entryLocked k now) := by
  have clean := q.cleanup_safe now
  dsimp only [entryLocked]
  split
  · exact .of_error clean
  rename_i session registered
  split
  · exact .of_error clean
  have touched := clean.trans ((q.cleanup now).touch_safe k.1 now)
  split
  · exact .of_error touched
  rename_i notBurned
  split
  · rename_i e live
    refine ⟨touched,fun e' eq => ?_⟩
    cases eq
    exact live
  rename_i new
  split
  · exact .of_error (touched.trans (failed_safe _))
  rename_i capacity
  split
  · exact .of_error (touched.trans (failed_safe _))
  rename_i attempts
  have here : ((q.cleanup now).touch k.1 now).sessions.get? k.1 =
      some { session with lastActive := now } := by
    simp only [touch,get?_modify,registered]
    rfl
  refine ⟨touched.trans (admit_safe new here notBurned (not_le.mp capacity) (not_le.mp attempts)),
    fun e eq => ?_⟩
  cases eq
  simp [admitEntry,get?_set]

end Clock

section
variable {e : Entry T} {c : CorrectionPush} {payload : ℤ} (here : q.entries.get? k = some e)
  (blank : e.correction=none) (pos : 0<payload) (fits : q.bytes+payload≤q.limits.maxBytes)
include here blank pos fits

lemma join_safe : Safe q (q.join k c payload) := by
  have get {x : Key} {e' : Entry T} (h : (q.join k c payload).entries.get? x=some e') :
      (e'.correctionBytes=payload ∧ e'.correction = some c ∧ x=k) ∨ q.entries.get? x = some e' := by
    simp only [join,get?_modify] at h
    split at h
    · obtain ⟨w,-,rfl⟩ := Option.map_eq_some_iff.mp h
      exact .inl ⟨rfl,rfl,‹_›⟩
    · exact .inr h
  refine ⟨⟨rfl,fun i => ⟨⟨?_,fits,?_,fun x e' h => ?_,fun x e' h none => ?_⟩,i.sessions_le,
    fun x e' h => ?_⟩,fun _ s h => ⟨s,h,subset_rfl,rfl⟩⟩,fun _ r id s h => ?_⟩
  · have total := sum_modify (fun _ (e : Entry T) => e.correctionBytes)
      (g := fun e => { e with correction := some c, correctionBytes := payload }) here
    have was := i.blank k e here blank
    have eq := i.bytes_eq
    simp only [join] at total ⊢
    linarith
  · simpa [join,size,Dict.modify] using i.entries_le
  · rcases get h with ⟨eq,-⟩ | old
    · exact eq ▸ pos.le
    · exact i.nonneg x e' old
  · rcases get h with ⟨-,eq,-⟩ | old
    · cases eq.symm.trans none
    · exact i.blank x e' old none
  · rcases get h with ⟨-,-,rfl⟩ | old
    · exact i.known x e here
    · exact i.known x e' old
  · have live : (q.join k c payload).live id=q.live id := q.live_update k _ id
    exact live.symm ▸ r id s h

lemma attach_safe : Safe q (q.attach k e.future c payload).2 := by
  have joined : Safe q (q.join k c payload) := join_safe here blank pos fits
  have live : (q.join k c payload).entries.get? k =
      some { e with correction := some c, correctionBytes := payload } := get?_update here _
  have burned : Safe q ((q.join k c payload).burn k true) := joined.trans (burn_live_safe live true)
  dsimp only [attach]
  split
  · exact joined.trans (.of_eq rfl rfl rfl rfl)
  · exact burned

end

section Clock

variable [Sub T] [LE T] [DecidableLE T]

lemma push_safe (q : Rendezvous T) (c : CorrectionPush) (payload : ℤ) (now : T) :
    Safe q (q.push c payload now).2 := by
  dsimp only [push]
  split
  · exact .refl q
  rename_i k _
  obtain ⟨safe,here⟩ := q.entryLocked_looked k now
  split
  · rename_i eq
    rw [eq] at safe
    exact safe
  rename_i e q' eq
  rw [eq] at safe here
  have here : q'.entries.get? k=some e := here e rfl
  have burned : Safe q (q'.burn k true) := safe.trans (burn_live_safe here true)
  split
  · exact burned
  split
  · exact burned
  rename_i blank
  split
  · exact burned
  rename_i fits
  rw [not_or,not_le,not_lt] at fits
  exact safe.trans (attach_safe here (by simpa using blank) fits.1 fits.2)

lemma activate_safe (q : Rendezvous T) (r : MaskedStageRequest) (now : T) :
    Safe q (q.activate r now).2 := by
  dsimp only [activate]
  split
  · exact .refl q
  rename_i k _
  obtain ⟨safe,here⟩ := q.entryLocked_looked k now
  split
  · rename_i eq
    rw [eq] at safe
    exact safe
  rename_i e q' eq
  rw [eq] at safe here
  have here : q'.entries.get? k=some e := here e rfl
  have burned : Safe q (q'.burn k true) := safe.trans (burn_live_safe here true)
  split
  · exact safe
  split
  · exact burned
  split
  · exact burned
  have updated := safe.trans (q'.update_safe k (f := fun e =>
    { e with
      activated := true
      created := if e.preloaded then now else e.created
      preloaded := false
      activationMetadata := some r.metadata }) (fun _ => rfl) fun _ => rfl)
  split
  · exact updated.trans (burn_live_safe (get?_update here _) true)
  · exact updated

lemma authorizeSession_safe (protocol : Protocol) (q : Rendezvous T) (a : SessionAuthorization)
    (payload : ℤ) (now : T) : Safe q (q.authorizeSession protocol a payload now).2 := by
  have clean := q.cleanup_safe now
  dsimp only [authorizeSession]
  split
  · exact .refl q
  split
  · exact clean
  split
  · exact clean
  split
  · exact clean
  split
  · exact clean
  · refine (clean.trans ((q.cleanup now).modify_safe a.sessionId (f := fun s =>
      { s with authorized := true, lastActive := now }) (fun _ => rfl) fun _ => rfl)).trans ?_
    exact .of_eq rfl rfl rfl rfl

end Clock

section
variable (q : Rendezvous T) (r : MaskedStageRequest) (future : ℕ)

lemma abort_safe : Safe q (q.abort r future).2 := by
  unfold abort
  split
  · exact .refl q
  · split
    · rename_i k _ is
      obtain ⟨e,here,-⟩ := Option.any_eq_true _ _ |>.mp is
      exact burn_live_safe here true
    · exact .refl q

lemma correction_safe : Safe q (q.correction r future).2 := by
  unfold correction
  split
  · exact .refl q
  split
  · exact .of_eq rfl rfl rfl rfl
  · exact .refl q

lemma abandon_safe : Safe q (q.abandon r future).2 :=
  Safe.trans (b := { q with waiting := q.waiting.erase (r,future) }) (.of_eq rfl rfl rfl rfl)
    (abort_safe _ r future)

end

lemma burnReserved_safe (q : Rendezvous T) (id : String) (attempts : List String) :
    Safe q (q.burnReserved id attempts).2 := by
  induction attempts generalizing q with
  | nil => exact .refl q
  | cons attempt rest ih =>
    rw [burnReserved]
    split
    · exact .refl q
    refine Safe.trans ?_ (ih _)
    split
    · rename_i live
      obtain ⟨e,here⟩ := Option.isSome_iff_exists.mp live
      exact burn_live_safe here false
    · exact .refl q

lemma close_safe (q : Rendezvous T) : Safe q q.close := by
  have noSession {id : String} {s : Session T} : q.close.sessions.get? id ≠ some s := by
    simp [close]
  have noEntry {k : Key} {e : Entry T} : q.close.entries.get? k ≠ some e := by
    simp [close]
  have positive (i : Inv q) : 0≤q.limits.maxBytes := by
    refine le_trans ?_ (i.bytes_eq ▸ i.bytes_le)
    refine sum_nonneg fun x m => ?_
    obtain ⟨⟨k,e⟩,mem,rfl⟩ := mem_map.mp m
    exact i.nonneg k e (get?_eq_some.mpr mem)
  exact ⟨⟨rfl,fun i => ⟨⟨rfl,positive i,zero_le,fun _ _ h => absurd h noEntry,
    fun _ _ h => absurd h noEntry⟩,zero_le,fun _ _ h => absurd h noEntry⟩,
    fun _ _ h => absurd h noSession⟩,fun _ _ _ _ h => absurd h noSession⟩

end Rendezvous
end Pllm.Runtime.Corrections
