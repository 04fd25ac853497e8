import Pllm.Canonical.BorrowedCorrect

/-! The traversal against the marks of its value: every event takes the first mark of what the
stack still has before it. -/
namespace Pllm.Canonical.Borrowed
open Pllm.Lib Pllm.Lib.Exec Outcome List Borrowed.Frame Option

/-- The entries that an entered object has not yielded. -/
def Frame.rest (order : Order) (f : Frame) (entries : List (Text × Value)) : List (Text × Value) :=
  match order with
  | .sorted => sortEntries (entries.filter (after f.previous))
  | .native => f.iterator

/-- The marks that a frame at a depth has before it. -/
def frameMarks (order : Order) (f : Frame) (depth : ℕ) : List Mark :=
  if f.entered then
    match f.value with
    | .scalar _ => []
    | .array values => itemMarks order depth (values.drop f.index)
    | .object entries => f.pending.elim [] (fun v => marks order v (depth+1)) ++
        memberMarks order depth (f.rest order entries)
  else marks order f.value depth

def stackMarks (order : Order) : List Frame → List Mark
  | [] => []
  | f::rest => frameMarks order f (rest.length+1)++stackMarks order rest

/-- A sorted traversal relies on distinct keys; a frame that is not entered is new. -/
structure Frame.Ok (order : Order) (f : Frame) : Prop where
  distinct : order = .sorted → f.value.distinctKeys=true
  pending : order = .sorted → ∀ v, f.pending = some v → v.distinctKeys=true
  fresh : f.entered=false → f = Frame.new f.value

variable {order : Order} {slots : ℕ} {m : Meter} {f : Frame} {rest : List Frame}

lemma Frame.Ok.new {v : Value} (h : order = .sorted → v.distinctKeys=true) :
    (new v).Ok order := ⟨h,fun _ _ h => (nomatch h),fun _ => rfl⟩

/-- What a step with or without an event leaves before the stack, and what it spends. -/
def Advances (order : Order) (before : List Mark) (m : Meter) (event : Option Event)
    (stack : List Frame) (t : Meter) : Prop :=
  (∀ f∈stack, f.Ok order) ∧
  match event with
  | some e => before=e.mark :: stackMarks order stack ∧ Grew m e.mark.nodes e.mark.bytes t ∧
      e.mark.Fits m.limits
  | none => before=stackMarks order stack ∧ Grew m 0 0 t

lemma marks_enter (f : Frame) (hf : f = new f.value) (depth : ℕ) (iterator : List (Text × Value))
    (hite : ∀ entries, order = .native → f.value = .object entries → iterator=entries) :
    marks order f.value depth = .value (head f.value) depth ::
      frameMarks order {f with entered := true, iterator := iterator} depth := by
  have hidx : f.index=0 := congrArg Frame.index hf
  have hpre : f.previous=none := congrArg Frame.previous hf
  have hpnd : f.pending=none := congrArg Frame.pending hf
  rw [frameMarks,if_pos rfl]
  cases hv : f.value with
  | scalar s => exact marks_scalar s depth
  | array values =>
    rw [marks_array]
    simp only [hidx,drop_zero,head]
  | object entries =>
    rw [marks_object]
    simp only [hpnd,head,Frame.rest,hpre]
    cases order with
    | sorted =>
      have hall : entries.filter (after none)=entries := filter_eq_self.mpr fun _ _ => rfl
      rw [hall]
      rfl
    | native => rw [hite entries rfl hv]; rfl

lemma yields_enter (hf : f.Ok order) (hrest : ∀ g∈rest, g.Ok order)
    (hent : f.entered=false) : Yields (enter order f rest) m fun r t =>
      Advances order (stackMarks order (f::rest)) m r.1 r.2 t := by
  refine read (require trivial fun hdep => ?_)
  refine (yields_add _ _).bind ?_
  rintro nodes _ ⟨rfl,rfl⟩
  refine require trivial fun hnod => modify ?_
  refine (yields_payload f.value (rest.length+1)).bind ?_
  rintro numberBytes t ⟨ht,hfits⟩
  refine pure ⟨?_,?_,?_,hfits hdep⟩
  · intro g hg
    rcases mem_cons.mp hg with rfl | hg
    · exact ⟨hf.distinct,hf.pending,fun h => (nomatch h)⟩
    · exact hrest g hg
  · rw [stackMarks,stackMarks,← cons_append,frameMarks,if_neg (by simp [hent])]
    congr 1
    refine marks_enter f (hf.fresh hent) _ _ ?_
    rintro entries rfl hv
    simp only [hv]
  · exact ⟨ht.limits,ht.nodes,ht.bytes,ht.work,fun hw => ht.within ⟨hnod,hw.2⟩⟩

lemma yields_push {stack : List Frame} {child : Value} (hstk : ∀ g∈stack, g.Ok order)
    (hchd : order = .sorted → child.distinctKeys=true) :
    Yields (push slots stack child) m fun stack' t => t=m ∧ (∀ g∈stack', g.Ok order) ∧
      stackMarks order stack' = marks order child (stack.length+1)++stackMarks order stack := by
  refine (yields_add _ _).bind ?_
  rintro depth _ ⟨-,rfl⟩
  refine read (require trivial fun _ => require trivial fun _ => ?_)
  refine pure ⟨rfl,fun g hg => ?_,rfl⟩
  rcases mem_cons.mp hg with rfl | hg
  · exact .new hchd
  · exact hstk g hg

/-- The entry that the object yields next, and what it has left then. -/
lemma yields_nextEntry {entries : List (Text × Value)} (hval : f.value = .object entries)
    (hf : f.Ok order) : Yields (nextEntry order f entries) m fun r t => Grew m 0 0 t ∧
      match r.1 with
      | none => f.rest order entries=[]
      | some e => f.rest order entries=e :: {f with previous := some e.1, iterator := r.2}.rest
          order entries ∧ (order = .sorted → e.2.distinctKeys=true) := by
  cases order with
  | sorted =>
    have hdst := hf.distinct rfl
    rw [hval,Value.distinctKeys_object] at hdst
    have hperm := (sortEntries_perm (entries.filter (after f.previous))).symm
    have hnd : ((entries.filter (after f.previous)).map Prod.fst).Nodup :=
      hdst.1.sublist (filter_sublist.map _)
    have hsrt := sortEntries_increasing hnd
    have hbest : Stream.Best f.previous [] none := nofun
    refine (yields_select [] entries hbest).bind fun best t ht => pure ⟨ht.1,?_⟩
    have hhead := ht.2
    obtain rfl := hhead.eq_head hperm hsrt
    cases hlat : sortEntries (entries.filter (after f.previous)) with
    | nil => exact hlat
    | cons e later =>
      rw [hlat] at hperm hsrt
      have hrest := hsrt
      rw [map_cons,pairwise_cons] at hrest
      have hnext := filter_after_cons hperm ((pairwise_map.mp hsrt).imp le_of_lt)
        fun hmem => lt_irrefl _ (hrest.1 _ hmem)
      have hmem := mem_of_mem_filter (hperm.mem_iff.mpr mem_cons_self)
      refine ⟨?_,fun _ => hdst.2 e hmem⟩
      change sortEntries (entries.filter (after f.previous)) =
        e :: sortEntries (entries.filter (after (some e.1)))
      rw [hlat,sortEntries_congr hnext hrest.2]
  | native =>
    unfold nextEntry
    cases hite : f.iterator with
    | nil => exact pure ⟨.refl m,hite⟩
    | cons e later =>
      refine yields_candidate.bind fun _ t ht => (yields_textLimit e.1 true).bind ?_
      rintro _ _ ⟨rfl,-⟩
      exact pure ⟨ht,hite,fun h => (nomatch h)⟩

lemma yields_resume (hf : f.Ok order) (hrest : ∀ g∈rest, g.Ok order)
    (hent : f.entered=true) : Yields (resume order slots f rest) m fun r t =>
      Advances order (stackMarks order (f::rest)) m r.1 r.2 t := by
  obtain ⟨value,entered,index,previous,pending,iterator⟩ := f
  obtain rfl : entered=true := hent
  have hstk {g : Frame} (hg : g.Ok order) : ∀ h∈g::rest, h.Ok order := by
    intro h hh
    rcases mem_cons.mp hh with rfl | hh
    · exact hg
    · exact hrest h hh
  cases value with
  | scalar s => exact pure ⟨hrest,rfl,.refl m⟩
  | array values =>
    cases hget : values[index]? with
    | none =>
      simp only [resume,hget]
      refine pure ⟨hrest,?_,.refl m⟩
      have hnil : values.drop index=[] :=
        drop_eq_nil_of_le (List.getElem?_eq_none_iff.mp hget)
      simp only [stackMarks,frameMarks,hnil]
      rfl
    | some child =>
      obtain ⟨hlt,hchd⟩ := List.getElem?_eq_some_iff.mp hget
      have hdrop : values.drop index=child::values.drop (index+1) := by
        rw [drop_eq_getElem_cons hlt,hchd]
      have hdst : order = .sorted → child.distinctKeys=true := fun h =>
        (Value.distinctKeys_array values).mp (hf.distinct h) child (hchd ▸ getElem_mem hlt)
      have hfrm : Ok order ⟨.array values,true,index+1,previous,pending,iterator⟩ :=
        ⟨hf.distinct,hf.pending,fun h => (nomatch h)⟩
      simp only [resume,hget]
      refine (yields_add _ _).bind ?_
      rintro next _ ⟨rfl,rfl⟩
      refine (yields_push (hstk hfrm) hdst).bind ?_
      rintro stack _ ⟨rfl,hok,hmar⟩
      refine pure ⟨hok,?_,.refl _⟩
      rw [hmar]
      simp only [stackMarks,frameMarks,if_true,hdrop,itemMarks,flatMap_cons,
        append_assoc,length_cons]
  | object entries =>
    cases pending with
    | some child =>
      have hdst : order = .sorted → child.distinctKeys=true := fun h => hf.pending h child rfl
      have hfrm : Ok order ⟨.object entries,true,index,previous,none,iterator⟩ :=
        ⟨hf.distinct,fun _ _ h => (nomatch h),fun h => (nomatch h)⟩
      refine (yields_push (hstk hfrm) hdst).bind ?_
      rintro stack _ ⟨rfl,hok,hmar⟩
      refine pure ⟨hok,?_,.refl _⟩
      rw [hmar]
      simp only [stackMarks,frameMarks,if_true,elim_some,elim_none,nil_append,
        append_assoc,length_cons]
      rfl
    | none =>
      refine (yields_nextEntry rfl hf).bind ?_
      rintro ⟨selected,iterator⟩ t ⟨ht,hsel⟩
      cases selected with
      | none =>
        refine pure ⟨hrest,?_,ht⟩
        simp only [stackMarks,frameMarks,elim_none,nil_append] at hsel ⊢
        rw [hsel]
        rfl
      | some e =>
        obtain ⟨key,child⟩ := e
        obtain ⟨hnext,hdst⟩ := hsel
        refine (yields_text key true).bind ?_
        rintro _ u ⟨hu,-,hfits⟩
        have hgrew := ht.trans hu
        rw [zero_add,zero_add] at hgrew
        have hfrm : Ok order ⟨.object entries,true,index,some key,some child,iterator⟩ := by
          refine ⟨hf.distinct,?_,fun h => (nomatch h)⟩
          rintro h _ ⟨⟩
          exact hdst h
        refine pure ⟨hstk hfrm,?_,hgrew,ht.limits ▸ hfits rfl⟩
        simp only [stackMarks,frameMarks,if_true,elim_none,elim_some,
          nil_append,hnext,memberMarks,flatMap_cons,cons_append,append_assoc]
        rfl

lemma yields_visit (hf : f.Ok order) (hrest : ∀ g∈rest, g.Ok order) : Yields (visit
    order slots f rest) m fun r t => Advances order (stackMarks order (f::rest)) m r.1 r.2 t := by
  unfold visit
  cases hent : f.entered with
  | true => exact yields_resume hf hrest hent
  | false => exact yields_enter hf hrest hent

/-- What `next` returns: the first mark that the stack has before it, or none when it has none. -/
def Takes (c : Cursor) (m : Meter) (r : Option Event × Cursor) (t : Meter) : Prop :=
  match r.1 with
  | some e => stackMarks c.order c.stack=e.mark :: stackMarks c.order r.2.stack ∧
      r.2.order=c.order ∧ (∀ f∈r.2.stack, f.Ok c.order) ∧
      Grew m e.mark.nodes e.mark.bytes t ∧ e.mark.Fits m.limits ∧ m.usage.work<t.usage.work
  | none => stackMarks c.order c.stack=[] ∧ Grew m 0 0 t

variable (n : ℕ) (c : Cursor)

section
variable (hc : ∀ f∈c.stack, f.Ok c.order)
include hc

lemma yields_nextLoop : Yields (nextLoop n c) m fun r t => Takes c m r t := by
  induction n generalizing c m with
  | zero => exact fail trivial
  | succ n ih =>
    rw [nextLoop]
    cases hstk : c.stack with
    | nil =>
      refine pure ?_
      rw [Takes,hstk]
      exact ⟨rfl,.refl m⟩
    | cons frame rest =>
      rw [hstk] at hc
      have hfrm := hc frame mem_cons_self
      have hrest : ∀ g∈rest, g.Ok c.order := fun g hg => hc g (mem_cons_of_mem _ hg)
      refine (yields_spent 1).bind ?_
      rintro _ t ⟨ht,hspt⟩
      refine (yields_visit hfrm hrest).bind ?_
      rintro ⟨event,stack⟩ u ⟨hok,heve⟩
      cases event with
      | some e =>
        obtain ⟨hmar,hgrew,hfits⟩ := heve
        refine pure ?_
        rw [Takes,hstk]
        have hall := ht.trans hgrew
        rw [Nat.zero_add,Nat.zero_add] at hall
        exact ⟨hmar,rfl,hok,hall,ht.limits ▸ hfits,by have := hgrew.work; omega⟩
      | none =>
        obtain ⟨hmar,hgrew⟩ := heve
        refine (ih {c with stack := stack} hok).mono ?_ fun _ h => h
        rintro ⟨event,c'⟩ v hv
        have hbef := ht.trans hgrew
        unfold Takes at hv ⊢
        rw [hstk,hmar]
        cases event with
        | none =>
          obtain ⟨hnil,hrest⟩ := hv
          exact ⟨hnil,hbef.trans hrest⟩
        | some e =>
          obtain ⟨hcons,hord,hok,hrest,hfits,hmore⟩ := hv
          have hall := hbef.trans hrest
          rw [Nat.zero_add,Nat.zero_add] at hall
          exact ⟨hcons,hord,hok,hall,hbef.limits ▸ hfits,hbef.work.trans_lt hmore⟩

lemma yields_next :
    Yields c.next m fun r t => Takes c m r t := read (yields_nextLoop _ c hc)

lemma yields_drain : Yields (drain n c) m fun _ t => Grew m
    ((stackMarks c.order c.stack).map Mark.nodes).sum ((stackMarks c.order c.stack).map
    Mark.bytes).sum t ∧ ∀ mark ∈ stackMarks c.order c.stack, mark.Fits m.limits := by
  induction n generalizing c m with
  | zero => exact fail trivial
  | succ n ih =>
    refine (yields_next c hc).bind ?_
    rintro ⟨event,c'⟩ t ht
    cases event with
    | none =>
      obtain ⟨hnil,hgrew⟩ := ht
      refine pure ?_
      rw [hnil]
      exact ⟨hgrew,nofun⟩
    | some e =>
      obtain ⟨hcons,hord,hok,hgrew,hfits,-⟩ := ht
      refine (ih c' (hord ▸ hok)).mono ?_ fun _ h => h
      rintro _ u ⟨hu,hrest⟩
      rw [hord] at hu hrest
      rw [hcons,map_cons,map_cons,sum_cons]
      refine ⟨hgrew.trans hu,fun mark hmark => ?_⟩
      rcases mem_cons.mp hmark with rfl | hmark
      · exact hfits
      · exact hgrew.limits ▸ hrest mark hmark

end

end Pllm.Canonical.Borrowed
