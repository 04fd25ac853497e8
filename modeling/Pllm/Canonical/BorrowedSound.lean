import Pllm.Canonical.BorrowedRuns

/-! The equality of two borrowed values: what it answers is recursive equality, and it answers only
about values that fit the limits. -/
namespace Pllm.Canonical.Borrowed
open Pllm.Lib Pllm.Lib.Exec Outcome List Prod Value Canonical.Stream

/-- The raw bytes of strings, keys and numbers. -/
def payloadBytes : Value → ℕ :=
  Value.fold scalarPayload List.sum fun es => (es.map fun e => e.1.length+e.2).sum

/-- A tree whose root is at a depth meets the limits on depth, strings and keys everywhere. -/
def FitsAt (limits : Limits) : Value → ℕ → Prop :=
  Value.fold (fun s depth => depth≤limits.maxDepth ∧ StringFits limits s)
    (fun ps depth => depth≤limits.maxDepth ∧ ∀ p∈ps, p (depth+1))
    (fun es depth => depth≤limits.maxDepth ∧ ∀ e∈es, KeyFits limits e.1 ∧ e.2 (depth+1))

variable {order : Order}

lemma arrange_perm (entries : List (Text × Value)) : Perm (order.arrange entries) entries := by
  cases order with
  | sorted => exact sortEntries_perm entries
  | native => exact .refl _

lemma sum_flatMap {α : Type} (w : Mark → ℕ) (f : α → List Mark) (as : List α) :
    ((as.flatMap f).map w).sum = (as.map fun a => ((f a).map w).sum).sum := by
  induction as with
  | nil => rfl
  | cons a as ih => rw [flatMap_cons,map_append,sum_append,ih,map_cons,sum_cons]

/-- A weight that does not look at depths adds up to the same over every order of the marks. -/
lemma marks_sum (w : Mark → ℕ) (total : Value → ℕ)
    (hscl : ∀ s depth, w (.value (.scalar s) depth) = total (.scalar s))
    (harr : ∀ values depth, total (.array values) =
      w (.value (.array values.length) depth)+(values.map total).sum)
    (hobj : ∀ entries depth, total (.object entries) = w (.value (.object entries.length) depth)+
        (entries.map fun e => w (.key e.1 depth)+total e.2).sum) (v : Value) (depth : ℕ) :
    ((marks order v depth).map w).sum = total v := by
  induction v using induct generalizing depth with
  | scalar s => rw [marks_scalar,map_singleton,sum_singleton,hscl]
  | array values ih =>
    rw [marks_array,map_cons,sum_cons,itemMarks,sum_flatMap,harr values depth]
    exact congrArg _ (congrArg sum (map_congr_left fun v hv => ih v hv (depth+1)))
  | object entries ih =>
    rw [marks_object,map_cons,sum_cons,memberMarks,sum_flatMap,hobj entries depth,
      ((arrange_perm entries).map _).sum_eq]
    refine congrArg _ (congrArg sum (map_congr_left fun e he => ?_))
    rw [map_cons,sum_cons,ih e he (depth+1)]

lemma marks_nodes (v : Value) (depth : ℕ) :
    ((marks order v depth).map Mark.nodes).sum = v.nodes := by
  refine marks_sum Mark.nodes Value.nodes (fun _ _ => ?_) (fun values _ => ?_) (fun entries _ => ?_)
    v depth
  · rfl
  · rw [nodes_array,add_comm]
    rfl
  · rw [nodes_object,add_comm]
    simp [Mark.nodes]

lemma marks_bytes (v : Value) (depth : ℕ) :
    ((marks order v depth).map Mark.bytes).sum = payloadBytes v := by
  refine marks_sum Mark.bytes payloadBytes (fun _ _ => ?_) (fun values _ => ?_) (fun entries _ => ?_)
    v depth
  · rfl
  · rw [payloadBytes,fold_array,Mark.bytes,zero_add]
    exact nofun
  · rw [payloadBytes,fold_object,List.map_map]
    exact (zero_add _).symm

variable {limits : Limits} {resources : Except Error ℕ} {usage : Usage}

lemma fitsAt_of_marks (v : Value) (depth : ℕ)
    (h : ∀ mark ∈ marks order v depth, mark.Fits limits) : FitsAt limits v depth := by
  induction v using induct generalizing depth with
  | scalar s =>
    exact h _ (marks_scalar s depth ▸ mem_singleton_self _)
  | array values ih =>
    rw [marks_array] at h
    rw [FitsAt,fold_array]
    refine ⟨h _ mem_cons_self,?_⟩
    rintro _ hp
    obtain ⟨v,hv,rfl⟩ := mem_map.mp hp
    exact ih v hv (depth+1) fun mark hmark =>
      h mark (mem_cons_of_mem _ (mem_flatMap.mpr ⟨v,hv,hmark⟩))
  | object entries ih =>
    rw [marks_object] at h
    rw [FitsAt,fold_object]
    refine ⟨h _ mem_cons_self,?_⟩
    rintro _ hp
    obtain ⟨e,he,rfl⟩ := mem_map.mp hp
    have hmember {mark : Mark} (hmark : mark ∈ Mark.key e.1 depth :: marks order e.2 (depth+1)) :
        mark.Fits limits := by
      refine h mark (mem_cons_of_mem _ (mem_flatMap.mpr ⟨e,?_,hmark⟩))
      exact (arrange_perm entries).mem_iff.mpr he
    exact ⟨hmember mem_cons_self,
      ih e he (depth+1) fun mark hmark => hmember (mem_cons_of_mem _ hmark)⟩

section
variable (rep : Number → Representation)

def sameScalar : Scalar → Scalar → Bool
  | .null, .null => true
  | .bool a, .bool b => a=b
  | .number a, .number b => (rep a).same (rep b)
  | .string a, .string b => a=b
  | _, _ => false

/-- Recursive equality: arrays by position, objects as maps from their keys. -/
def Same : Value → Value → Prop :=
  Value.fold (fun s v => ∃ t, v = .scalar t ∧ sameScalar rep s t = true)
    (fun ps v => ∃ values, v = .array values ∧ List.Forall₂ (fun p w => p w) ps values)
    (fun es v => ∃ entries, v = .object entries ∧
      (∀ e∈es, ∃ f∈entries, f.1=e.1 ∧ e.2 f.2) ∧ ∀ f∈entries, ∃ e∈es, f.1=e.1 ∧ e.2 f.2)

lemma same_scalar (s : Scalar) (v : Value) : Same rep (.scalar s) v ↔
    ∃ t, v = .scalar t ∧ sameScalar rep s t = true := by
  rw [Same,fold_scalar]

lemma same_array (values : List Value) (v : Value) : Same rep (.array values) v ↔
    ∃ others, v = .array others ∧ Forall₂ (Same rep) values others := by
  rw [Same,fold_array]
  simp only [forall₂_map_left_iff]

lemma same_object (entries : List (Text × Value)) (v : Value) : Same rep (.object entries) v ↔
    ∃ others, v = .object others ∧ (∀ e∈entries, ∃ f∈others, f.1=e.1 ∧ Same rep e.2 f.2) ∧
    ∀ f∈others, ∃ e∈entries, f.1=e.1 ∧ Same rep e.2 f.2 := by
  rw [Same,fold_object]
  simp only [mem_map,forall_exists_index,and_imp,forall_apply_eq_imp_iff₂,exists_exists_and_eq_and]

def Mark.Same : Mark → Mark → Prop
  | .value (.scalar s) _, .value (.scalar t) _ => sameScalar rep s t=true
  | .value (.array a) _, .value (.array b) _ => a=b
  | .value (.object a) _, .value (.object b) _ => a=b
  | .key a _, .key b _ => a=b
  | _, _ => False

section
variable {m : Meter} {α β : Type} {R : α → β → Prop}

lemma yields_sameText (s t : Text) (key : Bool) : Yields (do
    let order ← compareText s t key
    pure (decide (order = .eq))) m fun equal u => Grew m 0 0 u ∧ (equal=true ↔ s=t) := by
  refine (yields_compareText s t key).bind ?_
  rintro o u ⟨hu,rfl⟩
  refine pure ⟨hu,?_⟩
  rw [compareOfLessAndEq]
  rcases lt_trichotomy s t with h | rfl | h
  · simp [h.ne]
  · simp
  · simp [h.ne']

lemma yields_sameScalar (s t : Scalar) (depth depth' ab bb : ℕ) :
    Yields (sameEvent rep (.value (.scalar s) depth ab) (.value (.scalar t) depth' bb)) m
      fun equal u => Grew m 0 0 u ∧ (equal=true ↔ sameScalar rep s t = true) := by
  refine (yields_work 1).bind fun _ u hu => ?_
  cases s <;> cases t
  case number.number n n' =>
    refine (yields_add _ _).bind ?_
    rintro span _ ⟨-,rfl⟩
    exact (yields_work span).bind fun _ t ht => pure ⟨hu.trans ht,Iff.rfl⟩
  case string.string a b =>
    refine (yields_sameText a b false).mono ?_ fun _ h => h
    rintro equal t ⟨ht,hequ⟩
    exact ⟨hu.trans ht,hequ.trans (decide_eq_true_iff).symm⟩
  all_goals exact pure ⟨hu,Iff.rfl⟩

lemma yields_sameEvent (a b : Event) : Yields (sameEvent rep a b) m
    fun equal u => Grew m 0 0 u ∧ (equal=true ↔ Mark.Same rep a.mark b.mark) := by
  rcases a with ⟨v,depth,ab⟩ | ⟨key,depth⟩ <;> rcases b with ⟨w,depth',bb⟩ | ⟨other,depth'⟩
  · cases v <;> cases w
    case scalar.scalar s t => exact yields_sameScalar rep s t depth depth' ab bb
    case array.array values others =>
      exact (yields_work 1).bind fun _ u hu => pure ⟨hu,decide_eq_true_iff⟩
    case object.object entries others =>
      exact (yields_work 1).bind fun _ u hu => pure ⟨hu,decide_eq_true_iff⟩
    case scalar.array s others =>
      refine (yields_work 1).bind fun _ u hu => ?_
      cases s <;> exact pure ⟨hu,iff_of_false Bool.false_ne_true id⟩
    case scalar.object s others =>
      refine (yields_work 1).bind fun _ u hu => ?_
      cases s <;> exact pure ⟨hu,iff_of_false Bool.false_ne_true id⟩
    all_goals
      refine (yields_work 1).bind fun _ u hu => ?_
      exact pure ⟨hu,iff_of_false Bool.false_ne_true id⟩
  · refine (yields_work 1).bind fun _ u hu => pure ⟨hu,?_⟩
    simp [Event.mark,Mark.Same]
  · refine (yields_work 1).bind fun _ u hu => pure ⟨hu,?_⟩
    simp [Event.mark,Mark.Same]
  · refine (yields_work 1).bind fun _ u hu => ?_
    exact (yields_sameText key other true).mono (fun _ _ h => ⟨hu.trans h.1,h.2⟩) fun _ h => h

/-- The replay compares the marks that both stacks have before them. -/
lemma yields_replay (n : ℕ) (left right : Cursor) (hleft : ∀ f∈left.stack, f.Ok left.order)
    (hrt : ∀ f∈right.stack, f.Ok right.order) : Yields (replay rep n left right) m fun equal t =>
    (∃ nodes bytes, Grew m nodes bytes t) ∧ (equal=true ↔ Forall₂
    (Mark.Same rep) (stackMarks left.order left.stack) (stackMarks right.order right.stack)) := by
  induction n generalizing left right m with
  | zero => exact fail trivial
  | succ n ih =>
    refine (yields_next left hleft).bind ?_
    rintro ⟨a,left'⟩ t ht
    refine (yields_next right hrt).bind ?_
    rintro ⟨b,right'⟩ u hu
    cases a with
    | none =>
      obtain ⟨hleftNil,ht⟩ := ht
      cases b with
      | none =>
        obtain ⟨hrigh,hu⟩ := hu
        refine pure ⟨⟨_,_,ht.trans hu⟩,?_⟩
        rw [hleftNil,hrigh]
        exact iff_of_true rfl .nil
      | some b =>
        obtain ⟨hrig,-,-,hu,-⟩ := hu
        refine pure ⟨⟨_,_,ht.trans hu⟩,?_⟩
        rw [hleftNil,hrig]
        exact iff_of_false Bool.false_ne_true nofun
    | some a =>
      obtain ⟨hleftCons,hlef,hleftOk,ht,-⟩ := ht
      cases b with
      | none =>
        obtain ⟨hrigh,hu⟩ := hu
        refine pure ⟨⟨_,_,ht.trans hu⟩,?_⟩
        rw [hleftCons,hrigh]
        exact iff_of_false Bool.false_ne_true nofun
      | some b =>
        obtain ⟨hrig,hrightOrder,hrightOk,hu,-⟩ := hu
        refine (yields_sameEvent rep a b).bind ?_
        rintro equal v ⟨hv,hequ⟩
        have hgrew := (ht.trans hu).trans hv
        rw [hleftCons,hrig,forall₂_cons,← hequ]
        cases equal with
        | false => exact pure ⟨⟨_,_,hgrew⟩,by simp⟩
        | true =>
          have hrest := ih left' right' (m := v) (hlef ▸ hleftOk) (hrightOrder ▸ hrightOk)
          refine mono hrest ?_ fun _ h => h
          rintro equal w ⟨⟨_,_,hw⟩,hequ⟩
          rw [hlef,hrightOrder] at hequ
          exact ⟨⟨_,_,hgrew.trans hw⟩,hequ.trans (and_iff_right rfl).symm⟩

/-- Lists of marks in blocks of which every one tells where it ends. -/
lemma forall₂_flatMap {f : α → List Mark} {g : β → List Mark} (xs ys : List Mark) (as : List α)
    (bs : List β) (hlen : as.length=bs.length) (h : ∀ a∈as, ∀ b∈bs, ∀ xs ys, Forall₂ (Mark.Same rep)
    (f a++xs) (g b++ys) ↔ R a b ∧ Forall₂ (Mark.Same rep) xs ys) : Forall₂ (Mark.Same rep)
    (as.flatMap f++xs) (bs.flatMap g++ys) ↔ Forall₂ R as bs ∧ Forall₂ (Mark.Same rep) xs ys := by
  induction as generalizing bs with
  | nil =>
    obtain rfl := length_eq_zero_iff.mp hlen.symm
    simp
  | cons a as ih =>
    cases bs with
    | nil => cases hlen
    | cons b bs =>
      rw [flatMap_cons,flatMap_cons,append_assoc,append_assoc,
        h a mem_cons_self b mem_cons_self,forall₂_cons,and_assoc,
        ih bs (Nat.succ.inj hlen) fun a ha b hb =>
          h a (mem_cons_of_mem _ ha) b (mem_cons_of_mem _ hb)]

lemma forall₂_of_keys {R : Value → Value → Prop} (es fs : List (Text × Value)) (hkeys : es.map fst
    = fs.map fst) (hnd : (es.map fst).Nodup) (h : ∀ e∈es, ∃ f∈fs, f.1=e.1 ∧ R e.2 f.2) : Forall₂
    (fun e f => f.1=e.1 ∧ R e.2 f.2) es fs := by
  induction es generalizing fs with
  | nil =>
    obtain rfl := map_eq_nil_iff.mp hkeys.symm
    exact .nil
  | cons e es ih =>
    cases fs with
    | nil => cases hkeys
    | cons f fs =>
      rw [map_cons,map_cons,List.cons.injEq] at hkeys
      rw [map_cons,nodup_cons] at hnd
      refine .cons ?_ (ih fs hkeys.2 hnd.2 fun e' he' => ?_)
      · obtain ⟨f',hf',hkey,hr⟩ := h e mem_cons_self
        rcases mem_cons.mp hf' with rfl | hf'
        · exact ⟨hkey,hr⟩
        · have hmem : f'.1 ∈ fs.map fst := mem_map_of_mem hf'
          rw [hkey,← hkeys.2] at hmem
          exact absurd hmem hnd.1
      · obtain ⟨f',hf',hkey,hr⟩ := h e' (mem_cons_of_mem _ he')
        rcases mem_cons.mp hf' with rfl | hf'
        · have hmem : e'.1 ∈ es.map fst := mem_map_of_mem he'
          rw [← hkey,← hkeys.1] at hmem
          exact absurd hmem hnd.1
        · exact ⟨f',hf',hkey,hr⟩

lemma forall₂_sortEntries {R : Value → Value → Prop} {es fs : List (Text × Value)}
    (hes : (es.map fst).Nodup) (hfs : (fs.map fst).Nodup) :
    Forall₂ (fun e f => f.1=e.1 ∧ R e.2 f.2) (sortEntries es) (sortEntries fs) ↔
      (∀ e∈es, ∃ f∈fs, f.1=e.1 ∧ R e.2 f.2) ∧ ∀ f∈fs, ∃ e∈es, f.1=e.1 ∧ R e.2 f.2 := by
  have hmem {es : List (Text × Value)} {e : Text × Value} : e ∈ sortEntries es ↔ e∈es :=
    (sortEntries_perm es).mem_iff
  constructor
  · intro h
    refine ⟨fun e he => ?_,fun f hf => ?_⟩
    · obtain ⟨f,hf,hef⟩ := exists_of_forall₂ h (hmem.mpr he)
      exact ⟨f,hmem.mp hf,hef⟩
    · obtain ⟨e,he,hef⟩ := exists_of_forall₂ h.flip (hmem.mpr hf)
      exact ⟨e,hmem.mp he,hef⟩
  · rintro ⟨hleft,hrt⟩
    have hsrt := sortEntries_increasing hes
    have hkeys : (sortEntries es).map fst=(sortEntries fs).map fst := by
      refine Perm.eq_of_pairwise (fun _ _ _ _ hlt hgt => absurd hgt (lt_asymm hlt)) hsrt
        (sortEntries_increasing hfs) ?_
      refine (perm_ext_iff_of_nodup (hsrt.imp ne_of_lt)
        ((sortEntries_increasing hfs).imp ne_of_lt)).mpr fun key => ?_
      simp only [mem_map,hmem]
      constructor
      · rintro ⟨e,he,rfl⟩
        obtain ⟨f,hf,hkey,-⟩ := hleft e he
        exact ⟨f,hf,hkey⟩
      · rintro ⟨f,hf,rfl⟩
        obtain ⟨e,he,hkey,-⟩ := hrt f hf
        exact ⟨e,he,hkey.symm⟩
    refine forall₂_of_keys _ _ hkeys (hsrt.imp ne_of_lt) fun e he => ?_
    obtain ⟨f,hf,hef⟩ := hleft e (hmem.mp he)
    exact ⟨f,hmem.mpr hf,hef⟩

/-- The marks of a value tell where it ends, so that equal marks are equal values. -/
lemma forall₂_marks (v w : Value) (hv : v.distinctKeys=true) (hw : w.distinctKeys=true)
    (depth depth' : ℕ) (xs ys : List Mark) : Forall₂ (Mark.Same rep) (marks .sorted v depth++xs)
    (marks .sorted w depth'++ys) ↔ Same rep v w ∧ Forall₂ (Mark.Same rep) xs ys := by
  induction v using induct generalizing w depth depth' xs ys with
  | scalar s =>
    rw [marks_scalar,same_scalar]
    cases w with
    | scalar t => simp [marks_scalar,Mark.Same]
    | array others => simp [marks_array,Mark.Same]
    | object others => simp [marks_object,Mark.Same]
  | array values ih =>
    rw [marks_array,same_array]
    cases w with
    | scalar t => simp [marks_scalar,Mark.Same]
    | object others => simp [marks_object,Mark.Same]
    | array others =>
      rw [distinctKeys_array] at hv hw
      rw [marks_array,cons_append,cons_append,forall₂_cons]
      have hite (hlen : values.length=others.length) :=
        forall₂_flatMap rep xs ys values others hlen
          fun v hmem w hmem' => ih v hmem w (hv v hmem) (hw w hmem') (depth+1) (depth'+1)
      constructor
      · rintro ⟨hlen,hrest⟩
        obtain ⟨hsame,hrest⟩ := (hite hlen).mp hrest
        exact ⟨⟨others,rfl,hsame⟩,hrest⟩
      · rintro ⟨⟨_,⟨⟩,hsame⟩,hrest⟩
        exact ⟨hsame.length_eq,(hite hsame.length_eq).mpr ⟨hsame,hrest⟩⟩
  | object entries ih =>
    rw [marks_object,same_object]
    cases w with
    | scalar t => simp [marks_scalar,Mark.Same]
    | array others => simp [marks_array,Mark.Same]
    | object others =>
      rw [distinctKeys_object] at hv hw
      rw [marks_object,cons_append,cons_append,forall₂_cons]
      have hmem {es : List (Text × Value)} {e : Text × Value} : e ∈ sortEntries es ↔ e∈es :=
        (sortEntries_perm es).mem_iff
      have hsrt := forall₂_sortEntries (R := Same rep) hv.1 hw.1
      have hlens := (sortEntries_perm entries).length_eq
      have hlens' := (sortEntries_perm others).length_eq
      have hmemb (hlen : entries.length=others.length) :=
        forall₂_flatMap rep (R := fun e f => f.1=e.1 ∧ Same rep e.2 f.2) (f :=
          fun e => Mark.key e.1 depth :: marks .sorted e.2 (depth+1)) (g := fun e => Mark.key e.1
          depth' :: marks .sorted e.2 (depth'+1)) xs ys (sortEntries entries) (sortEntries others)
          (by rw [hlens,hlens',hlen])
          fun e he f hf xs ys => by
            have hchd := ih e (hmem.mp he) f.2 (hv.2 e (hmem.mp he)) (hw.2 f (hmem.mp hf))
              (depth+1) (depth'+1) xs ys
            rw [cons_append,cons_append,forall₂_cons,hchd,and_assoc]
            exact and_congr_left' eq_comm
      constructor
      · rintro ⟨hlen,hrest⟩
        obtain ⟨hsame,hrest⟩ := (hmemb hlen).mp hrest
        exact ⟨⟨others,rfl,hsrt.mp hsame⟩,hrest⟩
      · rintro ⟨⟨_,⟨⟩,hsame⟩,hrest⟩
        have hposs := hsrt.mpr hsame
        have hlen : entries.length=others.length := by
          rw [← hlens,← hlens',hposs.length_eq]
        exact ⟨hlen,(hmemb hlen).mpr ⟨hposs,hrest⟩⟩

lemma yields_cursor {order : Order} (slots : ℕ) (v : Json) :
    Yields (Cursor.new order slots v.1) m fun c t => t=m ∧ c.order=order ∧
      (∀ f∈c.stack, f.Ok c.order) ∧ stackMarks c.order c.stack = marks order v.1 1 := by
  refine require trivial fun _ => pure ⟨rfl,rfl,fun f hf => ?_,?_⟩
  · rw [mem_singleton.mp hf]
    exact .new fun _ => v.2
  · rw [stackMarks,stackMarks,append_nil]
    rfl

end

/-- What a traversal of a whole value has checked and spent. -/
def Visited (v : Value) (before m : Meter) : Prop :=
  Grew before v.nodes (payloadBytes v) m ∧ FitsAt before.limits v 1

lemma yields_traversal {n : ℕ} {c : Cursor} {v : Value} {m : Meter}
    (hok : ∀ f∈c.stack, f.Ok c.order) (hmar : stackMarks c.order c.stack = marks c.order v 1) :
    Yields (drain n c) m fun _ t => Visited v m t := by
  refine (yields_drain n c hok).mono ?_ fun _ h => h
  rintro _ t ⟨hgrew,hfits⟩
  rw [hmar,marks_nodes,marks_bytes] at hgrew
  exact ⟨hgrew,fitsAt_of_marks v 1 (hmar ▸ hfits)⟩

/-- What a comparison that answered has checked. -/
structure Compared (limits : Limits) (left right : Value) (equal : Bool) (usage : Usage) : Prop where
  leftFits : FitsAt limits left 1
  rightFits : FitsAt limits right 1
  nodes : left.nodes+right.nodes≤limits.maxNodes
  bytes : payloadBytes left+payloadBytes right ≤ limits.maxBytes
  work : usage.work≤limits.maxWork
  same : equal=true ↔ Same rep left right

lemma yields_compareValues (limits : Limits) (leftSlots rightSlots : ℕ)
    (left right : Json) : Yields (compareValues rep leftSlots rightSlots left.1 right.1)
    ⟨limits,⟨0,0,0,0,0⟩⟩ fun equal t => Compared rep limits left.1 right.1 equal t.usage := by
  refine (yields_cursor leftSlots left).bind ?_
  rintro a _ ⟨rfl,haOr,haOk,haMa⟩
  refine (yields_cursor rightSlots right).bind ?_
  rintro b _ ⟨rfl,hbOr,hbOk,hbMa⟩
  rw [← haOr] at haMa
  rw [← hbOr] at hbMa
  refine (yields_traversal haOk haMa).bind fun _ t ht => ?_
  refine (yields_traversal hbOk hbMa).bind fun _ u hu => ?_
  refine (yields_replay rep _ a b haOk hbOk).mono ?_ fun _ h => h
  rintro equal v ⟨⟨_,_,hv⟩,hequ⟩
  have hboth := ht.1.trans hu.1
  have hlim : u.limits=limits := hboth.limits
  have hwit : u.Within := hboth.within ⟨zero_le,zero_le,zero_le⟩
  have hnod := hwit.1
  have hbyt := hwit.2.1
  have hwork := (hv.within hwit).2.2
  rw [hboth.nodes,zero_add,hlim] at hnod
  rw [hboth.bytes,zero_add,hlim] at hbyt
  rw [hv.limits,hlim] at hwork
  have hrt := hu.2
  rw [ht.1.limits] at hrt
  refine ⟨ht.2,hrt,hnod,hbyt,hwork,hequ.trans ?_⟩
  rw [haMa,hbMa,haOr,hbOr]
  have hmar := forall₂_marks rep left.1 right.1 left.2 right.2 1 1 [] []
  rw [append_nil,append_nil] at hmar
  exact hmar.trans (and_iff_left Forall₂.nil)

end

lemma metered_ok {α : Type} (good : α → Usage → Prop) {x : Op α} {a : α} (hx : Yields x ⟨limits,⟨0,0,0,0,0⟩⟩ fun a t => good a
    t.usage) (h : metered resources limits x = .ok (a,usage)) : (∃ quote≤limits.maxWorkspaceBytes,
    resources = .ok quote) ∧ good a usage := by
  obtain ⟨quote,hquo,h⟩ := bind_eq_ok.mp h
  split at h
  · cases h
  next hle =>
    obtain ⟨result,hres,h⟩ := bind_eq_ok.mp h
    obtain ⟨rfl,rfl⟩ := mk.inj (ok_inj h)
    refine ⟨⟨quote,not_lt.mp hle,hquo⟩,?_⟩
    have hgood := hx (fun _ => none) 0
    unfold wp at hgood
    rcases hran : x (fun _ => none) ⟨limits,⟨0,0,0,0,0⟩⟩ 0 with ⟨ran,t,k⟩
    rw [hran] at hgood hres
    obtain rfl : ran = .ok result := hres
    exact hgood

lemma preflight_usage {order : Order} {slots : ℕ} {v : Json} (h : preflight order resources limits
    slots v.1 = .ok ((),usage)) : usage.nodes=v.1.nodes ∧ usage.bytes = payloadBytes v.1 := by
  refine (metered_ok (fun _ usage => usage.nodes=v.1.nodes ∧ usage.bytes=payloadBytes v.1) ?_ h).2
  refine (yields_cursor slots v).bind ?_
  rintro c _ ⟨rfl,hord,hok,hmar⟩
  rw [← hord] at hmar
  refine read ((yields_traversal hok hmar).mono ?_ fun _ h => h)
  rintro _ t ⟨hgrew,-⟩
  exact ⟨hgrew.nodes.trans (zero_add _),hgrew.bytes.trans (zero_add _)⟩

/-- What an answer of the equality says, and what both orders of a traversal report. -/
theorem structuralEq_sound (rep : Number → Representation) :
    (∀ (resources : Except Error ℕ) (limits : Limits) (leftSlots rightSlots : ℕ)
      (left right : Stream.Json) (equal : Bool) (usage : Usage),
      structuralEq rep resources limits leftSlots rightSlots left.1 right.1 =
        .ok (equal,usage) →
      (∃ quote≤limits.maxWorkspaceBytes, resources = .ok quote) ∧
        Compared rep limits left.1 right.1 equal usage) ∧
    ∀ (sortedResources nativeResources : Except Error ℕ) (sortedLimits nativeLimits : Limits)
      (sortedSlots nativeSlots : ℕ) (v : Stream.Json) (sortedUsage nativeUsage : Usage),
      preflight .sorted sortedResources sortedLimits sortedSlots v.1 = .ok ((),sortedUsage) →
      preflight .native nativeResources nativeLimits nativeSlots v.1 = .ok ((),nativeUsage) →
      sortedUsage.nodes=nativeUsage.nodes ∧ sortedUsage.bytes=nativeUsage.bytes := by
  refine ⟨?_,?_⟩
  · intro resources limits leftSlots rightSlots left right equal usage h
    exact metered_ok _ (yields_compareValues rep limits leftSlots rightSlots left right) h
  · intro _ _ _ _ _ _ v sortedUsage nativeUsage hsrt hnat
    obtain ⟨hnod,hbyt⟩ := preflight_usage hsrt
    obtain ⟨hnod',hbyt'⟩ := preflight_usage hnat
    exact ⟨hnod.trans hnod'.symm,hbyt.trans hbyt'.symm⟩

/-- An object in two orders of its keys, and one that differs from it in an array. -/
theorem structuralEq_sound_at :
    let limits : Limits := ⟨99,9,99,9,9,199,99⟩
    let rep : Number → Representation := fun _ => .posInt 0
    let left : Stream.Json := ⟨.object [(octets "b",.array []),(octets "a",.scalar .null)],by decide⟩
    let right : Stream.Json := ⟨.object [(octets "a",.scalar .null),(octets "b",.array [])],by decide⟩
    let other : Stream.Json :=
      ⟨.object [(octets "a",.scalar .null),(octets "b",.array [.scalar .null])],by decide⟩
    let sortedUsage : Usage := ⟨3,2,2,26,6⟩
    let nativeUsage : Usage := ⟨3,2,2,12,2⟩
    Same rep left.1 right.1 ∧ ¬Same rep left.1 other.1 ∧
      preflight .sorted (.ok 80) limits 2 left.1 = .ok ((),sortedUsage) ∧
      preflight .native (.ok 80) limits 2 left.1 = .ok ((),nativeUsage) ∧
      sortedUsage.nodes=nativeUsage.nodes ∧ sortedUsage.bytes=nativeUsage.bytes := by
  intro limits rep left right other sortedUsage nativeUsage
  have hequ : structuralEq rep (.ok 80) limits 2 2 left.1 right.1 =
      .ok (true,⟨12,2,8,113,24⟩) := by decide +kernel
  have hdif : structuralEq rep (.ok 80) limits 2 3 left.1 other.1 =
      .ok (false,⟨13,3,8,100,20⟩) := by decide +kernel
  have hsrt : preflight .sorted (.ok 80) limits 2 left.1 = .ok ((),sortedUsage) := by
    decide +kernel
  have hnat : preflight .native (.ok 80) limits 2 left.1 = .ok ((),nativeUsage) := by
    decide +kernel
  obtain ⟨hans,hrep⟩ := structuralEq_sound rep
  have hsame := (hans _ _ _ _ left right _ _ hequ).2.same.mp rfl
  have hnot := mt (hans _ _ _ _ left other _ _ hdif).2.same.mpr Bool.false_ne_true
  exact ⟨hsame,hnot,hsrt,hnat,hrep _ _ _ _ _ _ left _ _ hsrt hnat⟩

end Pllm.Canonical.Borrowed
