import Pllm.Canonical.Stream

/-! What every event does, and how a borrowed fragment unrolls into events. -/
namespace Pllm.Canonical.Stream
open Pllm.Lib Pllm.Lib.Exec Outcome List Session Value Nat

variable {s : Session} {toVec : Text → List Octet}

namespace View

/-- A value may be placed here: at a root not yet taken, behind a key, or in an array. -/
def Open (v : View) : Prop :=
  match v.stack with
  | [] => v.root=false
  | frame::_ => frame.kind = .object → frame.waiting=true

/-- The view once the place is taken. -/
def place (v : View) : View :=
  match v.stack with
  | [] => {v with root := true}
  | frame::rest =>
    match frame.kind with
    | .object => {v with stack := {frame with waiting := false}::rest}
    | .array => {v with
        stack := {frame with emitted := true}::rest
        writer := v.writer++if frame.emitted then octets "," else []}

lemma length_place (v : View) : v.place.stack.length=v.stack.length := by
  unfold place
  split
  · next h => simp [h]
  · next frame rest h => split <;> simp [h]

end View

lemma failed_of_view {t : Session} {v : View} (h : t.view=v) (hv : v.failed=true) :
    t.failed=true := (congrArg View.failed h).trans hv

lemma gives_takePlace (hs : s.failed=true) :
    Gives takePlace s fun _ t => t.view=s.view.place ∧ s.view.Open := by
  refine read ?_
  simp only [View.place,View.Open,view]
  cases hstk : s.stack with
  | nil => exact require hs fun hroot => fun _ _ => ⟨by simp [hstk],hroot⟩
  | cons frame rest =>
    cases hkind : frame.kind with
    | object =>
      simp only [hkind]
      exact require hs fun hwai => fun _ _ => ⟨rfl,fun _ => hwai⟩
    | array =>
      simp only [hkind]
      refine (gives_emit hs _).bind fun _ t ht => fun _ _ => ⟨?_,fun other => by cases other⟩
      have hview : t.view=⟨s.stack,s.root,s.writer++_,s.failed⟩ := ht
      simp only [view,View.mk.injEq] at hview ⊢
      obtain ⟨-,hroot,hwr,hfai⟩ := hview
      refine ⟨trivial,hroot,?_,hfai⟩
      rw [hwr]
      cases frame.emitted <;> simp

lemma gives_value (hs : s.failed=true) :
    Gives value s fun _ t => t.view=s.view.place ∧ s.view.Open := by
  refine (gives_takePlace hs).bind fun _ t ht => ?_
  have hfai : t.failed=true := by
    refine failed_of_view ht.1 ?_
    unfold View.place
    split
    · exact hs
    · split <;> exact hs
  refine read (require hfai fun _ => require hfai fun _ => ?_)
  exact fun _ _ => ht

lemma failed_place (hs : s.failed=true) : s.view.place.failed=true := by
  unfold View.place
  split
  · exact hs
  · split <;> exact hs

lemma gives_scalar (hvec : CompactStrings toVec) (hs : s.failed=true) (v : Scalar) : Gives
    (scalar v) s fun _ t => t.view = s.view.place.write (scalarBytes toVec v) ∧ s.view.Open := by
  have haft {x : Op Unit} (hx : ∀ u : Session, u.failed=true →
      Gives x u fun _ t => t.view = u.view.write (scalarBytes toVec v)) :
      Gives (value >>= fun _ => x) s fun _ t =>
        t.view = s.view.place.write (scalarBytes toVec v) ∧ s.view.Open := by
    refine (gives_value hs).bind fun _ u hu => ?_
    refine (hx u (failed_of_view hu.1 (failed_place hs))).mono (fun _ t ht => ?_) fun _ h => h
    exact ⟨ht.trans (congrArg (View.write · _) hu.1),hu.2⟩
  have hraw (bytes : List Octet) (u : Session) (hu : u.failed=true) :
      Gives (raw bytes) u fun _ t => t.view = u.view.write bytes := by
    have := gives_emit hu [bytes]
    rwa [flatten_singleton] at this
  cases v with
  | null => exact haft fun u hu => hraw _ u hu
  | bool b => exact haft fun u hu => hraw _ u hu
  | string t => exact haft fun u hu => gives_text hvec hu t false
  | number n => exact haft fun u hu => gives_emit hu n.pieces

/-- A new innermost frame. -/
def View.push (v : View) (frame : StreamFrame) : View := {v with stack := frame::v.stack}

lemma gives_begin (hs : s.failed=true) (kind : Kind) (fragment : Option Value) :
    Gives (begin_ kind fragment) s fun _ t =>
      t.view = (s.view.place.write (opening kind)).push {StreamFrame.new kind with fragment := fragment}
        ∧ s.view.Open := by
  refine (gives_value hs).bind fun _ u hu => ?_
  have hfai := failed_of_view hu.1 (failed_place hs)
  refine read (require hfai fun _ => ?_)
  refine (gives_emit hfai [opening kind]).bind fun _ t ht => fun _ _ => ⟨?_,hu.2⟩
  rw [hu.1,flatten_singleton] at ht
  rw [← ht]
  rfl

lemma gives_end (hs : s.failed=true) (kind : Kind) :
    Gives (end_ kind) s fun _ t => ∃ frame rest, s.stack=frame::rest ∧ frame.kind=kind ∧
      frame.waiting=false ∧ t.view = ⟨rest,s.root,s.writer++closing kind,true⟩ := by
  refine read ?_
  cases hstk : s.stack with
  | nil => exact fail hs
  | cons frame rest =>
    refine require hs fun hfrm => ?_
    refine (gives_emit hs [closing kind]).bind fun _ t ht => fun _ _ => ?_
    refine ⟨frame,rest,rfl,hfrm.1,hfrm.2,?_⟩
    rw [flatten_singleton] at ht
    have hview : t.view=⟨s.stack,s.root,s.writer++_,s.failed⟩ := ht
    simp only [view,View.mk.injEq] at hview ⊢
    exact ⟨trivial,hview.2.1,hview.2.2.1,hview.2.2.2.trans hs⟩

/-- The bytes between the last member of an object and the value behind a new key. -/
def keyBytes (toVec : Text → List Octet) (frame : StreamFrame) (key : Text) : List Octet :=
  (if frame.emitted then octets "," else [])++toVec key++octets ":"

lemma gives_orderedKey (hvec : CompactStrings toVec) (hs : s.failed=true) (key : Text) :
    Gives (orderedKey key) s fun _ t => ∃ frame rest, s.stack=frame::rest ∧ frame.kind = .object ∧
      frame.waiting=false ∧ (∀ earlier, frame.previous = some earlier → earlier<key) ∧
      t.view = ⟨{frame with previous := some key, emitted := true, waiting := true}::rest,s.root,
        s.writer++keyBytes toVec frame key,true⟩ := by
  refine (checks_checkText key true).bind hs fun _ u hu _ => ?_
  have hfai := failed_of_view hu hs
  have hvie : u.stack=s.stack ∧ u.root=s.root ∧ u.writer=s.writer ∧ u.failed=s.failed := by
    simpa [view] using hu
  refine read ?_
  rw [← hvie.1]
  cases hstk : u.stack with
  | nil => exact fail hfai
  | cons frame rest =>
    refine require hfai fun hfrm => ?_
    refine (checks_checkOrder frame.previous key).bind hfai fun _ v hv hord => ?_
    have hv' := failed_of_view hv hfai
    refine (gives_emit hv' _).bind fun _ w hw => ?_
    have hw' : w.failed=true := failed_of_view hw hv'
    refine (gives_text hvec hw' key true).bind fun _ x hx => ?_
    have hx' : x.failed=true := failed_of_view hx hw'
    refine (gives_emit hx' [octets ":"]).bind fun _ y hy => fun _ _ => ?_
    refine ⟨frame,rest,rfl,hfrm.1,hfrm.2,hord,?_⟩
    rw [hx,hw,hv,hu] at hy
    simp only [view,View.write,View.mk.injEq] at hy ⊢
    obtain ⟨-,hroot,hwr,hfail⟩ := hy
    refine ⟨trivial,hroot,?_,hfail.trans hs⟩
    rw [hwr,keyBytes]
    cases frame.emitted <;> simp

variable {root : Bool} {values : List Value} {rest : List StreamFrame}
  {entries : List (Text × Value)}

/-! A fragment: its rounds, from the start of a value to the round after its last byte. -/
section
variable {base n : ℕ} {good : Unit → Session → Prop}

/-- The run of one value: what holds once its bytes are written in its place holds of the run. -/
def Unrolls (toVec : Text → List Octet) (v : Value) : Prop :=
  ∀ (base n : ℕ) (good : Unit → Session → Prop) (s : Session), s.failed=true →
    base ≤ s.stack.length →
    (s.view.Open → ∀ t : Session, t.view = s.view.place.write (writeCanonicalValue toVec v) →
      Gives (fragmentLoop base n) t good) →
    Gives (fragmentValue v >>= fun _ => fragmentLoop base (rounds v+n)) s good

/-- The frame of an array whose items up to `i` are written. -/
def arrayFrame (values : List Value) (i : ℕ) : StreamFrame :=
  ⟨.array,decide (0 < i),false,none,some (.array values),i⟩

lemma comma_eq (i : ℕ) : (if decide (0 < i) then octets "," else []) = comma i := by
  unfold comma
  split <;> simp_all

lemma view_eq {stack : List StreamFrame} {writer : List Octet} (h : s.view=⟨stack,root,writer,true⟩)
    : s.stack=stack ∧ s.root=root ∧ s.writer=writer ∧ s.failed=true := by
  simpa [view] using h

/-- The items from `i` on, with the commas before them. -/
def itemsFrom (toVec : Text → List Octet) (values : List Value) (i : ℕ) : List Octet :=
  ((values.zipIdx i).map fun e => comma e.2++writeCanonicalValue toVec e.1).flatten

lemma array_unrolls (later : List Value) (i : ℕ) (hlat : values.drop i =
    later) (ih : ∀ v∈later, Unrolls toVec v) (writer : List
    Octet) (hbase : base ≤ rest.length) (hs : s.view = ⟨arrayFrame values i::rest,root,writer,true⟩)
    (hdone : ∀ t : Session,
      t.view = ⟨rest,root,writer++itemsFrom toVec later i++octets "]",true⟩ →
        Gives (fragmentLoop base n) t good) :
    Gives (fragmentLoop base ((later.map fun v => rounds v+1).sum+1+n)) s good := by
  induction later generalizing i s writer with
  | nil =>
    obtain ⟨hstk,hroot,hwr,hfai⟩ := view_eq hs
    have hget : values[i]? = none := getElem?_eq_none (drop_eq_nil_iff.mp hlat)
    rw [map_nil,sum_nil,add_comm 1,fragmentLoop]
    refine read ?_
    simp only [hstk,if_neg (not_le.mpr (lt_succ_of_le hbase)),arrayFrame,hget]
    refine (gives_end hfai .array).bind fun _ t ht => hdone t ?_
    obtain ⟨frame,rest',hstk',-,-,hview⟩ := ht
    rw [hstk] at hstk'
    obtain ⟨rfl,rfl⟩ := List.cons.inj hstk'
    rw [hview,hroot,hwr]
    simp [itemsFrom,closing]
  | cons child later hind =>
    obtain ⟨hstk,hroot,hwr,hfai⟩ := view_eq hs
    have hget : values[i]? = some child := by
      rw [← head?_drop,hlat]
      rfl
    have hnext : values.drop (i+1)=later := by
      rw [← drop_drop,hlat]
      rfl
    rw [map_cons,sum_cons,show rounds child+1+(later.map fun v => rounds v+1).sum+1+n =
      rounds child+((later.map fun v => rounds v+1).sum+1+n)+1 by omega, fragmentLoop]
    refine read ?_
    simp only [hstk,if_neg (not_le.mpr (lt_succ_of_le hbase)),arrayFrame,hget]
    refine modify ?_
    refine ih child mem_cons_self base _ good _ hfai (hbase.trans (le_succ _))
      fun _ t ht => ?_
    refine hind (i+1) hnext (fun v hv => ih v (mem_cons_of_mem _ hv))
      (writer++comma i++writeCanonicalValue toVec child) ?_ fun u hu => hdone u ?_
    · rw [ht]
      simp only [view,View.place,View.write,arrayFrame,hroot,hwr,hfai,← comma_eq]
      simp
    · rw [hu]
      simp [itemsFrom]

lemma unrolls_scalar (hvec : CompactStrings toVec) (v : Scalar) : Unrolls toVec (.scalar v) := by
  intro base n good s hs hbase hdone
  have hval : Gives (fragmentValue (.scalar v)) s fun _ t =>
      t.view = s.view.place.write (scalarBytes toVec v) ∧ s.view.Open := by
    refine (checks_work 1).bind hs fun _ u hu _ => ?_
    rw [← hu]
    exact gives_scalar hvec (failed_of_view hu hs) v
  rw [show rounds (.scalar v)+n=n by simp [rounds]]
  refine hval.bind fun _ t ht => hdone ht.2 t ?_
  rw [ht.1,writeCanonicalValue,fold_scalar]

lemma gives_fragmentContainer (hs : s.failed=true) (kind : Kind) (fragment : Option Value) :
    Gives (work 1 >>= fun _ => begin_ kind fragment) s fun _ t =>
      t.view = (s.view.place.write (opening kind)).push {StreamFrame.new kind with fragment := fragment}
        ∧ s.view.Open := by
  refine (checks_work 1).bind hs fun _ u hu _ => ?_
  rw [← hu]
  exact gives_begin (failed_of_view hu hs) kind fragment

lemma unrolls_array (ih : ∀ v∈values, Unrolls toVec v) : Unrolls toVec (.array values) := by
  intro base n good s hs hbase hdone
  refine (gives_fragmentContainer hs .array (some (.array values))).bind fun _ t ht => ?_
  have hrou : rounds (.array values)=(values.map fun v => rounds v+1).sum+1 := by
    rw [rounds,fold_array,map_map]
    rfl
  have hview : t.view=⟨arrayFrame values 0::s.view.place.stack,s.view.place.root,
      s.view.place.writer++opening .array,true⟩ := ht.1.trans (by
    simp [View.push,View.write,failed_place hs,StreamFrame.new,arrayFrame])
  rw [hrou]
  refine array_unrolls values 0 rfl ih _ (hbase.trans (View.length_place s.view).ge) hview
    fun u hu => hdone ht.2 u ?_
  rw [hu,writeCanonicalValue,fold_array,arrayBytes,separated,zipIdx_map,map_map]
  simp only [View.write,failed_place hs,opening,append_assoc]
  rfl

/-- The frame of an object whose first `i` members are written, the last of them under `previous`. -/
def objectFrame (entries : List (Text × Value)) (i : ℕ) (previous : Option Text) : StreamFrame :=
  ⟨.object,decide (0 < i),false,previous,some (.object entries),0⟩

/-- The members from number `i` on, with the commas before them. -/
def membersFrom (toVec : Text → List Octet) (entries : List (Text × Value)) (i : ℕ) : List Octet :=
  ((entries.zipIdx i).map fun e =>
    comma e.2++(toVec e.1.1++octets ":" ++ writeCanonicalValue toVec e.1.2)).flatten

variable (hvec : CompactStrings toVec)
include hvec

lemma object_unrolls (later : List
    (Text × Value)) (i : ℕ) {previous : Option Text} (hperm : Perm (entries.filter (after previous))
    later) (hsrt : (later.map Prod.fst).Pairwise (· < ·)) (ih : ∀ e∈later, Unrolls toVec e.2) (writer : List Octet) (hbase : base ≤ rest.length) (hs :
    s.view = ⟨objectFrame entries i previous::rest,root,writer,true⟩)
    (hdone : ∀ t : Session,
      t.view = ⟨rest,root,writer++membersFrom toVec later i++octets "\x7d",true⟩ →
        Gives (fragmentLoop base n) t good) :
    Gives (fragmentLoop base ((later.map fun e => rounds e.2+1).sum+1+n)) s good := by
  induction later generalizing i s writer previous with
  | nil =>
    obtain ⟨hstk,hroot,hwr,hfai⟩ := view_eq hs
    rw [map_nil,sum_nil,add_comm 1,fragmentLoop]
    refine read ?_
    simp only [hstk,if_neg (not_le.mpr (lt_succ_of_le hbase))]
    have hbest : Best previous [] none := nofun
    have hsel := checks_select [] entries hbest
    refine hsel.bind hfai fun best t ht hbest => ?_
    obtain rfl : best=none := hbest.eq_head hperm hsrt
    have htfa := failed_of_view ht hfai
    refine (gives_end htfa .object).bind fun _ u hu => hdone u ?_
    obtain ⟨frame,rest',hstk',-,-,hview⟩ := hu
    obtain ⟨hstk₂,hroot₂,hwr₂,-⟩ := view_eq (ht.trans hs)
    rw [hstk₂] at hstk'
    obtain ⟨rfl,rfl⟩ := List.cons.inj hstk'
    rw [hview,hroot₂,hwr₂]
    simp [membersFrom,closing]
  | cons entry later hind =>
    obtain ⟨key,child⟩ := entry
    obtain ⟨hstk,hroot,hwr,hfai⟩ := view_eq hs
    have hrest := hsrt
    rw [map_cons,pairwise_cons] at hrest
    have hnext : Perm (entries.filter (after (some key))) later := by
      refine filter_after_cons hperm ?_ fun hmem => lt_irrefl _ (hrest.1 _ hmem)
      exact (pairwise_map.mp hsrt).imp le_of_lt
    rw [map_cons,sum_cons,show rounds (key,child).2+1+(later.map fun e =>
      rounds e.2+1).sum+1+n = rounds child+((later.map fun e => rounds e.2+1).sum+1+n)+1 by
        simp only; omega, fragmentLoop]
    refine read ?_
    simp only [hstk,if_neg (not_le.mpr (lt_succ_of_le hbase))]
    have hbest : Best previous [] none := nofun
    have hsel := checks_select [] entries hbest
    refine hsel.bind hfai fun best t ht hbest => ?_
    obtain rfl : best=some (key,child) := hbest.eq_head hperm hsrt
    have htfa := failed_of_view ht hfai
    obtain ⟨hstk₂,hroot₂,hwr₂,-⟩ := view_eq (ht.trans hs)
    refine (gives_orderedKey hvec htfa key).bind fun _ u hu => ?_
    obtain ⟨frame,rest',hstk',-,-,-,hview⟩ := hu
    rw [hstk₂] at hstk'
    obtain ⟨rfl,rfl⟩ := List.cons.inj hstk'
    have hufa : u.failed=true := congrArg View.failed hview
    have hust : u.stack=_::rest := congrArg View.stack hview
    refine ih _ mem_cons_self base _ good u hufa ?_ fun _ v hv => ?_
    · rw [hust]
      exact hbase.trans (le_succ _)
    refine hind (i+1) hnext hrest.2 (fun e he => ih e (mem_cons_of_mem _ he))
      (writer++keyBytes toVec (objectFrame entries i previous) key++writeCanonicalValue toVec child)
      ?_ fun w hw => hdone w ?_
    · rw [hv,hview]
      simp [View.place,View.write,objectFrame,hroot₂,hwr₂]
    · rw [hw]
      simp [membersFrom,keyBytes,objectFrame,← comma_eq]

lemma unrolls_object (hkeys : (entries.map Prod.fst).Nodup) (ih : ∀
    e∈entries, Unrolls toVec e.2) : Unrolls toVec (.object entries) := by
  intro base n good s hs hbase hdone
  refine (gives_fragmentContainer hs .object (some (.object entries))).bind fun _ t ht => ?_
  have hsort := sortEntries_perm entries
  have hsrt := sortEntries_increasing hkeys
  have hrou : rounds (.object entries) =
      ((sortEntries entries).map fun e => rounds e.2+1).sum+1 := by
    rw [rounds,fold_object,map_map]
    exact congrArg (·+1) ((hsort.map fun e : Text × Value => rounds e.2+1).sum_eq).symm
  have hall : entries.filter (after none)=entries := filter_eq_self.mpr fun _ _ => rfl
  have hview : t.view=⟨objectFrame entries 0 none::s.view.place.stack,s.view.place.root,
      s.view.place.writer++opening .object,true⟩ := ht.1.trans (by
    simp [View.push,View.write,failed_place hs,StreamFrame.new,objectFrame])
  rw [hrou]
  refine object_unrolls hvec (sortEntries entries) 0 (hall.symm ▸ hsort.symm) hsrt
    (fun e he => ih e (hsort.mem_iff.mp he)) _ (hbase.trans (View.length_place s.view).ge) hview
    fun u hu => hdone ht.2 u ?_
  have hmap := sortEntries_map (writeCanonicalValue toVec) entries
  rw [hu,writeCanonicalValue,fold_object,objectBytes,← writeCanonicalValue,hmap,
    map_map,separated,zipIdx_map,map_map]
  simp only [View.write,failed_place hs,membersFrom,append_assoc]
  rfl

lemma unrolls (v : Value) (h : v.distinctKeys=true) : Unrolls toVec v := by
  induction v using induct with
  | scalar v => exact unrolls_scalar hvec v
  | array values ih =>
    rw [distinctKeys_array] at h
    exact unrolls_array fun v hv => ih v hv (h v hv)
  | object entries ih =>
    rw [distinctKeys_object] at h
    exact unrolls_object hvec h.1 fun e he => ih e he (h.2 e he)

end

lemma gives_fragment (hvec : CompactStrings toVec) (v : Json) (hs : s.failed=true) :
    Gives (fragment v.1) s fun _ t =>
      t.view = s.view.place.write (writeCanonicalValue toVec v.1) ∧ s.view.Open := by
  refine read ?_
  refine unrolls hvec v.1 v.2 s.stack.length 0 _ s hs le_rfl fun hopen t ht => ?_
  exact pure ⟨ht,hopen⟩

end Pllm.Canonical.Stream
