import Pllm.Canonical.StreamRuns

/-! Soundness of the streaming writer: between two calls the written bytes are those of the open
containers and their finished members, and what a finished session has written is one value. -/
namespace Pllm.Canonical
open Pllm.Lib Pllm.Lib.Exec Value List

namespace Value

/-- The keys of every object of the tree are strictly increasing. -/
def increasing : Value → Bool :=
  fold (fun _ => true) (fun bs => bs.all id)
    (fun es => decide ((es.map Prod.fst).Pairwise (· < ·)) && es.all Prod.snd)

lemma increasing_array (values : List Value) :
    (array values).increasing = true ↔ ∀ v∈values, v.increasing=true := by
  rw [increasing,fold_array,all_map,all_eq_true]
  rfl

lemma increasing_object (entries : List (Text × Value)) : (object entries).increasing = true ↔
      (entries.map Prod.fst).Pairwise (· < ·) ∧ ∀ e∈entries, e.2.increasing=true := by
  rw [increasing,fold_object,Bool.and_eq_true,decide_eq_true_eq,map_map,all_map,all_eq_true]
  rfl

/-- The tree with the entries of every object in the order of their keys. -/
def sorted : Value → Value := fold .scalar .array fun es => .object (sortEntries es)

end Value

lemma sorted_canonical (toVec : Text → List Octet) (v : Value) (h : v.distinctKeys=true) :
    v.sorted.increasing=true ∧ writeCanonicalValue toVec v.sorted = writeCanonicalValue toVec v := by
  induction v using induct with
  | scalar s =>
    rw [sorted,fold_scalar]
    exact ⟨by rw [increasing,fold_scalar],rfl⟩
  | array values ih =>
    rw [distinctKeys_array] at h
    rw [sorted,fold_array,increasing_array]
    constructor
    · intro v hv
      obtain ⟨w,hw,rfl⟩ := mem_map.mp hv
      exact (ih w hw (h w hw)).1
    · rw [writeCanonicalValue,fold_array,fold_array,map_map]
      exact congrArg arrayBytes (map_congr_left fun v hv => (ih v hv (h v hv)).2)
  | object entries ih =>
    rw [distinctKeys_object] at h
    rw [sorted,fold_object,← sorted,increasing_object]
    have hkeys : (sortEntries (entries.map fun e => (e.1,e.2.sorted))).map Prod.fst |>.Pairwise (· < ·) := by
      refine sortEntries_increasing ?_
      rw [map_map]
      exact h.1
    refine ⟨⟨hkeys,fun e he => ?_⟩,?_⟩
    · obtain ⟨f,hf,rfl⟩ := mem_map.mp ((sortEntries_perm _).mem_iff.mp he)
      exact (ih f hf (h.2 f hf)).1
    · rw [writeCanonicalValue,fold_object,fold_object,← writeCanonicalValue]
      have hbyt : (sortEntries (entries.map fun e => (e.1,e.2.sorted))).map
          (fun e => (e.1,writeCanonicalValue toVec e.2)) =
            sortEntries (entries.map fun e => (e.1,writeCanonicalValue toVec e.2)) := by
        rw [← sortEntries_map,map_map]
        exact congrArg sortEntries (map_congr_left fun e he =>
          congrArg (Prod.mk e.1) (ih e he (h.2 e he)).2)
      rw [objectBytes,objectBytes,hbyt,sortEntries_eq_self]
      exact sortEntries_increasing (by rw [map_map]; exact h.1)

namespace Stream

variable {s : Session} {toVec : Text → List Octet}

lemma separated_append (items : List (List Octet)) (item : List Octet) :
    separated (items++[item]) = separated items++comma items.length++item := by
  simp [separated,zipIdx_append]

def itemBytes (toVec : Text → List Octet) (values : List Value) : List Octet :=
  separated (values.map (writeCanonicalValue toVec))

def memberBytes (toVec : Text → List Octet) (entries : List (Text × Value)) : List Octet :=
  separated (entries.map fun e => toVec e.1++octets ":" ++ writeCanonicalValue toVec e.2)

/-- Finished members of an object: increasing keys, and values that are themselves increasing. -/
def Members (entries : List (Text × Value)) : Prop :=
  (entries.map Prod.fst).Pairwise (· < ·) ∧ ∀ e∈entries, e.2.increasing=true

/-- The bytes before a value whose place is taken: those of the containers around it, outermost
first, with their finished members. -/
inductive Hole (toVec : Text → List Octet) : List StreamFrame → List Octet → Prop
  | root : Hole toVec [] []
  | element {rest : List StreamFrame} {writer : List Octet} {frame : StreamFrame}
      {values : List Value} (outer : Hole toVec rest writer) (kind : frame.kind = .array)
      (emitted : frame.emitted=true) (done : ∀ v∈values, v.increasing=true) :
      Hole toVec (frame::rest)
        (writer++octets "[" ++ itemBytes toVec values++comma values.length)
  | member {rest : List StreamFrame} {writer : List Octet} {frame : StreamFrame}
      {entries : List (Text × Value)} {key : Text} (outer : Hole toVec rest writer)
      (kind : frame.kind = .object) (emitted : frame.emitted=true)
      (waiting : frame.waiting=false) (previous : frame.previous = some key)
      (done : Members entries) (later : ∀ e∈entries, e.1<key) :
      Hole toVec (frame::rest) (writer++octets "\x7b" ++ memberBytes toVec entries
        ++ comma entries.length++toVec key++octets ":")

/-- The bytes between two calls. -/
inductive Ready (toVec : Text → List Octet) : View → Prop
  | start {failed : Bool} : Ready toVec ⟨[],false,[],failed⟩
  | finished {v : Value} {failed : Bool} (done : v.increasing=true) :
      Ready toVec ⟨[],true,writeCanonicalValue toVec v,failed⟩
  | array {rest : List StreamFrame} {writer : List Octet} {frame : StreamFrame} {failed : Bool}
      {values : List Value} (outer : Hole toVec rest writer) (kind : frame.kind = .array)
      (emitted : frame.emitted = decide (0<values.length))
      (done : ∀ v∈values, v.increasing=true) :
      Ready toVec ⟨frame::rest,true,writer++octets "[" ++ itemBytes toVec values,failed⟩
  | object {rest : List StreamFrame} {writer : List Octet} {frame : StreamFrame} {failed : Bool}
      {entries : List (Text × Value)} (outer : Hole toVec rest writer) (kind : frame.kind = .object)
      (emitted : frame.emitted = decide (0<entries.length)) (waiting : frame.waiting=false)
      (previous : frame.previous = (entries.map Prod.fst).getLast?) (done : Members entries) :
      Ready toVec ⟨frame::rest,true,writer++octets "\x7b" ++ memberBytes toVec entries,failed⟩
  | key {rest : List StreamFrame} {writer : List Octet} {frame : StreamFrame} {failed : Bool}
      {entries : List (Text × Value)} {key : Text} (outer : Hole toVec rest writer)
      (kind : frame.kind = .object) (emitted : frame.emitted=true)
      (waiting : frame.waiting=true) (previous : frame.previous = some key)
      (done : Members entries) (later : ∀ e∈entries, e.1<key) :
      Ready toVec ⟨frame::rest,true,writer++octets "\x7b" ++ memberBytes toVec entries
        ++ comma entries.length++toVec key++octets ":",failed⟩

section
variable {v : View} {writer : List Octet} {frame : StreamFrame} {rest : List StreamFrame}
  {root failed : Bool} {key : Text}

lemma Ready.place (h : Ready toVec v) (hopen : v.Open) :
    Hole toVec v.place.stack v.place.writer ∧ v.place.root=true := by
  cases h with
  | start => exact ⟨.root,rfl⟩
  | finished done => cases hopen
  | @array rest writer frame failed values outer kind emitted done =>
    obtain ⟨_,_,waiting,previous,fragment,cursor⟩ := frame
    obtain rfl : _=Kind.array := kind
    obtain rfl : _=decide (0<values.length) := emitted
    simp only [View.place,comma_eq]
    exact ⟨@Hole.element _ _ _ ⟨.array,true,waiting,previous,fragment,cursor⟩ _ outer rfl rfl done,
      trivial⟩
  | object outer kind emitted waiting previous done =>
    rw [hopen kind] at waiting
    cases waiting
  | @key rest writer frame failed entries key outer kind emitted waiting previous done later =>
    obtain ⟨_,_,_,_,fragment,cursor⟩ := frame
    obtain rfl : _=Kind.object := kind
    exact ⟨@Hole.member _ _ _ ⟨.object,_,false,_,fragment,cursor⟩ _ _ outer rfl emitted rfl previous
      done later,rfl⟩

lemma Hole.fill {stack : List StreamFrame} (h : Hole toVec stack writer) {v : Value}
    (hv : v.increasing=true) (failed : Bool) :
    Ready toVec ⟨stack,true,writer++writeCanonicalValue toVec v,failed⟩ := by
  cases h with
  | root => exact .finished hv
  | @element rest writer frame values outer kind emitted done =>
    have hnext := @Ready.array toVec rest writer frame failed (values++[v]) outer kind
      (by simpa using emitted) (by simpa using fun w hw => hw.elim (done w) fun h => h ▸ hv)
    rw [itemBytes,map_append,map_singleton,separated_append] at hnext
    simpa [itemBytes] using hnext
  | @member rest writer frame entries key outer kind emitted waiting previous done later =>
    have hnext := @Ready.object toVec rest writer frame failed (entries++[(key,v)]) outer kind
      (by simpa using emitted) waiting (by simpa using previous) ⟨?_,?_⟩
    · rw [memberBytes,map_append,map_singleton,separated_append] at hnext
      simpa [memberBytes] using hnext
    · rw [map_append,pairwise_append]
      refine ⟨done.1,by simp,fun a ha b hb => ?_⟩
      obtain ⟨e,he,rfl⟩ := mem_map.mp ha
      rw [map_singleton,mem_singleton] at hb
      exact hb ▸ later e he
    · intro e he
      rcases mem_append.mp he with he | he
      · exact done.2 e he
      · rw [mem_singleton.mp he]
        exact hv

lemma canonical_array (values : List Value) : writeCanonicalValue toVec (.array values) =
    octets "[" ++ itemBytes toVec values++octets "]" := by
  rw [writeCanonicalValue,fold_array]
  rfl

lemma canonical_object {entries : List (Text × Value)}
    (h : (entries.map Prod.fst).Pairwise (· < ·)) : writeCanonicalValue toVec (.object entries) =
      octets "\x7b" ++ memberBytes toVec entries++octets "\x7d" := by
  rw [writeCanonicalValue,fold_object,objectBytes,sortEntries_eq_self,map_map]
  · rfl
  · rw [map_map]
    exact h

lemma Ready.end_ (h : Ready toVec ⟨frame::rest,root,writer,failed⟩) (hwai :
    frame.waiting=false) : Ready toVec ⟨rest,root,writer++closing frame.kind,failed⟩ := by
  cases h with
  | @array _ outerWriter _ _ values outer kind emitted done =>
    have hfill := outer.fill ((increasing_array values).mpr done) failed
    rw [canonical_array,← append_assoc,← append_assoc] at hfill
    rw [kind]
    exact hfill
  | @object _ outerWriter _ _ entries outer kind emitted waiting previous done =>
    have hfill := outer.fill ((increasing_object entries).mpr done) failed
    rw [canonical_object done.1,← append_assoc,← append_assoc] at hfill
    rw [kind]
    exact hfill
  | key outer kind emitted waiting previous done later =>
    rw [hwai] at waiting
    cases waiting

lemma lt_of_getLast {keys : List Text} (h : keys.Pairwise (· < ·))
    (hlast : ∀ earlier, keys.getLast? = some earlier → earlier<key) : ∀ k∈keys, k<key := by
  induction keys using reverseRecOn with
  | nil => exact nofun
  | append_singleton keys last ih =>
    have hkey : last<key := hlast last (by simp)
    intro k hk
    rcases mem_append.mp hk with hk | hk
    · exact ((pairwise_append.mp h).2.2 k hk last (mem_singleton_self _)).trans hkey
    · exact mem_singleton.mp hk ▸ hkey

lemma Ready.orderedKey (h : Ready toVec ⟨frame::rest,root,writer,failed⟩)
    (hkind : frame.kind = .object) (hwai : frame.waiting=false)
    (hlat : ∀ earlier, frame.previous = some earlier → earlier<key) :
    Ready toVec ⟨{frame with previous := some key, emitted := true, waiting := true}::rest,root,
      writer++keyBytes toVec frame key,failed⟩ := by
  cases h with
  | array outer kind emitted done =>
    rw [hkind] at kind
    cases kind
  | @object _ outerWriter _ _ entries outer kind emitted waiting previous done =>
    rw [previous] at hlat
    have hall := lt_of_getLast done.1 hlat
    have hnext := @Ready.key toVec rest outerWriter
      {frame with previous := some key, emitted := true, waiting := true} failed entries key outer
      kind rfl rfl rfl done fun e he => hall _ (mem_map_of_mem he)
    rw [keyBytes,emitted,comma_eq]
    simpa only [append_assoc] using hnext
  | key outer kind emitted waiting previous done later =>
    rw [hwai] at waiting
    cases waiting

lemma ready_begin (h : Ready toVec v) (hopen : v.Open) (kind : Kind) :
    Ready toVec ((v.place.write (opening kind)).push (StreamFrame.new kind)) := by
  obtain ⟨hhole,hroot⟩ := h.place hopen
  cases kind with
  | array =>
    have := @Ready.array toVec _ _ (StreamFrame.new .array) v.place.failed [] hhole rfl rfl
      fun _ member => absurd member not_mem_nil
    simpa [View.push,View.write,opening,itemBytes,separated,hroot] using this
  | object =>
    have := @Ready.object toVec _ _ (StreamFrame.new .object) v.place.failed [] hhole rfl rfl rfl rfl
      ⟨Pairwise.nil,fun _ member => absurd member not_mem_nil⟩
    simpa [View.push,View.write,opening,memberBytes,separated,hroot] using this

lemma ready_write (h : Ready toVec v) (hopen : v.Open) {value : Value} (hval :
    value.increasing=true) : Ready toVec (v.place.write (writeCanonicalValue toVec value)) := by
  obtain ⟨hhole,hroot⟩ := h.place hopen
  have := hhole.fill hval v.place.failed
  rwa [← hroot] at this

lemma gives_operation (hvec : CompactStrings toVec) (hs : s.failed=true) (h : Ready toVec s.view)
    (event : Event) : Gives (operation event) s fun _ t => Ready toVec t.view := by
  have hscl (v : Scalar) : Gives (scalar v) s fun _ t => Ready toVec t.view := by
    refine (gives_scalar hvec hs v).mono (fun _ t ht => ?_) fun _ h => h
    have hbyt : scalarBytes toVec v=writeCanonicalValue toVec (.scalar v) := by
      rw [writeCanonicalValue,fold_scalar]
    rw [ht.1,hbyt]
    exact ready_write h ht.2 (by rw [increasing,fold_scalar])
  have hbeg (kind : Kind) : Gives (begin_ kind none) s fun _ t => Ready toVec t.view := by
    refine (gives_begin hs kind none).mono (fun _ t ht => ?_) fun _ h => h
    rw [ht.1]
    exact ready_begin h ht.2 kind
  have hend (kind : Kind) : Gives (end_ kind) s fun _ t => Ready toVec t.view := by
    refine (gives_end hs kind).mono (fun _ t ht => ?_) fun _ h => h
    obtain ⟨frame,rest,hstk,rfl,hwai,hview⟩ := ht
    rw [Session.view,hstk,hs] at h
    rw [hview]
    exact h.end_ hwai
  cases event with
  | beginObject => exact hbeg .object
  | endObject => exact hend .object
  | beginArray => exact hbeg .array
  | endArray => exact hend .array
  | key key =>
    refine (gives_orderedKey hvec hs key).mono (fun _ t ht => ?_) fun _ h => h
    obtain ⟨frame,rest,hstk,hkind,hwai,hlat,hview⟩ := ht
    rw [Session.view,hstk,hs] at h
    rw [hview]
    exact h.orderedKey hkind hwai hlat
  | null => exact hscl .null
  | bool b => exact hscl (.bool b)
  | string t => exact hscl (.string t)
  | number n => exact hscl (.number n)
  | integer n => exact hscl (.number n)
  | float value =>
    cases value with
    | none => exact Outcome.fail hs
    | some n => exact hscl (.number n)
  | json v =>
    refine (gives_fragment hvec v hs).mono (fun _ t ht => ?_) fun _ h => h
    obtain ⟨hinc,hbyt⟩ := sorted_canonical toVec v.1 v.2
    rw [ht.1,← hbyt]
    exact ready_write h ht.2 hinc

end

/-- The calls of a caller that goes on after errors, with the result of each. -/
def run (deny : ℕ → Option StreamError) :
    List Event → Session → ℕ → List (Except StreamError Unit) × Session × ℕ
  | [], s, k => ([],s,k)
  | event::events, s, k =>
    let called := step (operation event) deny s k
    let later := run deny events called.2.1 called.2.2
    (called.1::later.1,later.2)

/-- A session that is not poisoned is between two calls. -/
def Sound (toVec : Text → List Octet) (s : Session) : Prop := s.failed=false → Ready toVec s.view

lemma outcome_step {op : Op Unit} (good : Session → Prop) (hfail : s.failed=false)
    (hop : ∀ t : Session, t.view = {s.view with failed := true} → Gives op t fun _ u => good u) :
    Outcome (step op) s (fun _ t => ∃ u, good u ∧ t = {u with failed := false})
      fun t => t.failed=true := by
  refine .read (Outcome.guard hfail (.modify ?_))
  refine (checks_work 1).bind rfl fun _ t ht _ => ?_
  refine (hop t ht).bind fun _ u hu => ?_
  exact fun _ _ => ⟨u,hu,rfl⟩

lemma poisoned_step (op : Op Unit) (hfail : s.failed=true) (deny : ℕ → Option StreamError)
    (k : ℕ) : step op deny s k = (.error .poisoned,s,k) := by
  have hreq : (require (s.failed=false) StreamError.poisoned : Op Unit) =
      fail .poisoned := by rw [require,if_neg (by simp [hfail])]
  change (require (s.failed=false) StreamError.poisoned >>= _) deny s k=_
  rw [hreq]
  rfl

lemma Ready.unfail {v : View} (h : Ready toVec v) (failed : Bool) :
    Ready toVec {v with failed := failed} := by
  cases h with
  | start => exact .start
  | finished done => exact .finished done
  | array outer kind emitted done => exact .array outer kind emitted done
  | object outer kind emitted waiting previous done =>
    exact .object outer kind emitted waiting previous done
  | key outer kind emitted waiting previous done later =>
    exact .key outer kind emitted waiting previous done later

lemma outcome_event (hvec : CompactStrings toVec) (h : Sound toVec s) (hfail : s.failed=false)
    (event : Event) : Outcome (step (operation event)) s
      (fun _ t => t.failed=false ∧ Ready toVec t.view) fun t => t.failed=true := by
  refine (outcome_step (fun u => Ready toVec u.view) hfail fun t ht => ?_).mono ?_ fun _ h => h
  · refine gives_operation hvec (congrArg View.failed ht) ?_ event
    rw [ht]
    exact (h hfail).unfail true
  · rintro _ _ ⟨u,hu,rfl⟩
    exact ⟨rfl,hu.unfail false⟩

/-- A run keeps the session sound, and an error in it leaves the session poisoned. -/
lemma run_sound (hvec : CompactStrings toVec) (deny : ℕ → Option StreamError)
    (events : List Event) (s : Session) (k : ℕ) (h : Sound toVec s) : Sound toVec
    (run deny events s k).2.1 ∧ ((s.failed=true ∨ ∃ e, .error e ∈ (run deny events s k).1) →
    (run deny events s k).2.1.failed = true) := by
  induction events generalizing s k with
  | nil => exact ⟨h,fun he => he.resolve_right fun ⟨_,hmem⟩ => not_mem_nil hmem⟩
  | cons event events ih =>
    rw [run]
    cases hfail : s.failed with
    | true =>
      have hstep := poisoned_step (operation event) hfail deny k
      obtain ⟨hsou,hpoi⟩ := ih s k h
      simp only [hstep]
      exact ⟨hsou,fun _ => hpoi (.inl hfail)⟩
    | false =>
      have hcall := outcome_event hvec h hfail event deny k
      unfold wp at hcall
      rcases hstep : step (operation event) deny s k with ⟨_ | _,t,j⟩
      · rw [hstep] at hcall
        obtain ⟨hsou,hpoi⟩ := ih t j fun hf => absurd hf (by simp [show t.failed=true from hcall])
        exact ⟨hsou,fun _ => hpoi (.inl hcall)⟩
      · rw [hstep] at hcall
        obtain ⟨hsou,hpoi⟩ := ih t j fun _ => hcall.2
        refine ⟨hsou,fun he => hpoi (.inr ?_)⟩
        obtain ⟨e,hmem⟩ := he.resolve_left Bool.false_ne_true
        exact ⟨e,(mem_cons.mp hmem).resolve_left nofun⟩

/-- The bytes of the comma that a value may need before it. -/
def Lead (lead : List Octet) : Prop := lead = [] ∨ lead=octets ","

lemma place_lead (v : View) : ∃ lead, Lead lead ∧ v.place.writer = v.writer++lead := by
  unfold View.place
  split
  · exact ⟨[],.inl rfl,(append_nil _).symm⟩
  · next frame rest _ =>
    split
    · exact ⟨[],.inl rfl,(append_nil _).symm⟩
    · refine ⟨_,?_,rfl⟩
      cases frame.emitted
      · exact .inl rfl
      · exact .inr rfl

lemma outcome_json (hvec : CompactStrings toVec) (hfail : s.failed=false) (v : Json) :
    Outcome (step (operation (.json v))) s (fun _ t => ∃ lead, Lead lead ∧
      t.writer = s.writer++lead++writeCanonicalValue toVec v.1) fun t => t.failed=true := by
  refine (outcome_step (fun u => u.writer =
    (View.place {s.view with failed := true}).writer++writeCanonicalValue toVec v.1) hfail
      fun t ht => ?_).mono ?_ fun _ h => h
  · refine (gives_fragment hvec v (congrArg View.failed ht)).mono (fun _ u hu => ?_) fun _ h => h
    rw [ht] at hu
    exact congrArg View.writer hu.1
  · rintro _ _ ⟨u,hu,rfl⟩
    obtain ⟨lead,hlead,hpla⟩ := place_lead {s.view with failed := true}
    refine ⟨lead,hlead,?_⟩
    rw [hpla] at hu
    exact hu

lemma outcome_finish (h : Sound toVec s) (hfail : s.failed=false) :
    Outcome finish s (fun _ t => t.writer=s.writer ∧ ∃ v : Value, v.increasing=true ∧
      s.writer = writeCanonicalValue toVec v) fun t => t.failed=true := by
  refine (outcome_step (fun u => u.writer=s.writer ∧ ∃ v : Value, v.increasing=true ∧
    s.writer = writeCanonicalValue toVec v) hfail fun t ht => ?_).mono ?_ fun _ h => h
  · have hrdy := h hfail
    have htfa : t.failed=true := congrArg View.failed ht
    have hvie : t.stack=s.stack ∧ t.root=s.root ∧ t.writer=s.writer := by
      have := ht
      simp only [Session.view,View.mk.injEq] at this
      exact ⟨this.1,this.2.1,this.2.2.1⟩
    refine .read fun deny k => ?_
    rw [wp_require]
    refine ⟨fun hdone => ⟨hvie.2.2,?_⟩,fun _ => htfa⟩
    rw [hvie.1,hvie.2.1] at hdone
    rw [Session.view,hdone.1,hdone.2] at hrdy
    generalize s.writer=writer at hrdy ⊢
    cases hrdy with
    | @finished v failed done => exact ⟨v,done,rfl⟩
  · rintro _ _ ⟨u,hu,rfl⟩
    exact hu

/-- Any session, after any calls, whatever the writer refuses: what it says once it finishes, what
an error does to it, and what a fragment writes. -/
theorem session_sound (hvec : CompactStrings toVec) (slots frameBytes : ℕ) (limits : StreamLimits)
    (opened : Session) (hnew : new slots frameBytes limits = .ok opened)
    (deny : ℕ → Option StreamError) (events : List Event) :
    let called := run deny events opened 0
    (∀ t j, finish deny called.2.1 called.2.2 = (.ok (),t,j) →
      (∀ e, .error e ∉ called.1) ∧ t.writer=called.2.1.writer ∧
        ∃ v : Value, v.increasing=true ∧ t.writer = writeCanonicalValue toVec v) ∧
    ((∃ e, .error e ∈ called.1) →
      (∀ event k, step (operation event) deny called.2.1 k = (.error .poisoned,called.2.1,k)) ∧
        ∀ k, finish deny called.2.1 k = (.error .poisoned,called.2.1,k)) ∧
    (∀ (v : Json) t j, step (operation (.json v)) deny called.2.1 called.2.2 = (.ok (),t,j) →
      ∃ lead, Lead lead ∧
        t.writer = called.2.1.writer++lead++writeCanonicalValue toVec v.1) := by
  intro called
  have hst : Sound toVec opened := by
    obtain ⟨-,hopen⟩ := ite_error_eq_ok.mp hnew
    obtain rfl := Except.ok.inj hopen
    exact fun _ => .start
  obtain ⟨hsou,hpoi⟩ := run_sound hvec deny events opened 0 hst
  refine ⟨fun t j hfin => ?_,fun herr => ?_,fun v t j hcall => ?_⟩
  · cases hfail : called.2.1.failed with
    | true =>
      have href : finish deny called.2.1 called.2.2=(.error .poisoned,called.2.1,called.2.2) :=
        poisoned_step _ hfail deny called.2.2
      rw [href] at hfin
      cases hfin
    | false =>
      obtain ⟨hwr,v,hv,hbyt⟩ := (outcome_finish hsou hfail).ok hfin
      refine ⟨fun e he => ?_,hwr,v,hv,hwr.trans hbyt⟩
      rw [hpoi (.inr ⟨e,he⟩)] at hfail
      cases hfail
  · have hfail := hpoi (.inr herr)
    exact ⟨fun event k => poisoned_step _ hfail deny k,fun k => poisoned_step _ hfail deny k⟩
  · cases hfail : called.2.1.failed with
    | true =>
      rw [poisoned_step _ hfail deny called.2.2] at hcall
      cases hcall
    | false => exact (outcome_json hvec hfail v).ok hcall

/-- An object with a fragment under its one key. -/
theorem session_sound_at :
    let toVec : Text → List Octet :=
      fun text => octets "\"" ++ text.flatMap Output.escaped++octets "\""
    let opened : Session := ⟨[],⟨9,4,99,9,9,9,999,512⟩,⟨0,0,0,0,0⟩,4,[],false,false⟩
    let fragment : Json := ⟨.object [(octets "c",.scalar .null),(octets "b",.array [])],by decide⟩
    let called := run (fun _ => none) [.beginObject,.key (octets "a"),.json fragment,.endObject]
      opened 0
    (finish (fun _ => none) called.2.1 called.2.2).1 = .ok () ∧
      ∃ v : Value, v.increasing=true ∧ called.2.1.writer = writeCanonicalValue toVec v := by
  intro toVec opened fragment called
  have hvec : CompactStrings toVec := fun _ => rfl
  have hok : (finish (fun _ => none) called.2.1 called.2.2).1 = .ok () := by decide +kernel
  refine ⟨hok,?_⟩
  rcases hfin : finish (fun _ => none) called.2.1 called.2.2 with ⟨result,t,j⟩
  rw [hfin] at hok
  obtain rfl : result = .ok () := hok
  obtain ⟨-,hwr,v,hv,hbyt⟩ := (session_sound hvec 4 128 opened.limits opened rfl
    (fun _ => none) [.beginObject,.key (octets "a"),.json fragment,.endObject]).1 t j hfin
  exact ⟨v,hv,hwr.symm.trans hbyt⟩

end Stream

end Pllm.Canonical
