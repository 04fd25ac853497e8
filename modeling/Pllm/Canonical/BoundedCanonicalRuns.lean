import Pllm.Canonical.Value

/-! Whole runs of the bounded walk: what a subtree adds to the totals, and when it fits. -/
namespace Pllm.Canonical
open Pllm.Lib List

namespace Node

/-- The value that a node stands for. -/
def toValue : Node → Value
  | .json value => value
  | .scalar s => .scalar s
  | .array values => .array (toValues values)
  | .object entries => .object (toEntries entries)
where
  toValues : List Node → List Value
    | [] => []
    | n::ns => n.toValue :: toValues ns
  toEntries : List (Text × Node) → List (Text × Value)
    | [] => []
    | (key,n)::es => (key,n.toValue) :: toEntries es

lemma toValue_array (values : List Node) :
    (Node.array values).toValue = .array (values.map toValue) := by
  rw [toValue]
  congr 1
  induction values with
  | nil => rfl
  | cons n ns ih => rw [toValue.toValues,ih,map_cons]

lemma toValue_object (entries : List (Text × Node)) :
    (Node.object entries).toValue = .object (entries.map fun e => (e.1,e.2.toValue)) := by
  rw [toValue]
  congr 1
  induction entries with
  | nil => rfl
  | cons e es ih => rw [toValue.toEntries,ih,map_cons]

@[simp] lemma toValue_json (value : Value) : (Node.json value).toValue = value := by rw [toValue]

end Node

def Shape.toValue : Shape → Value
  | .scalar s => .scalar s
  | .array values => .array (values.map Node.toValue)
  | .object entries => .object (entries.map fun e => (e.1,e.2.toValue))

lemma shape_toValue (node : Node) : node.shape.toValue=node.toValue := by
  cases node with
  | json value =>
    cases value <;> simp [Node.shape,Shape.toValue,Function.comp_def]
  | scalar s => rw [Node.toValue]; rfl
  | array values => rw [Node.toValue_array]; rfl
  | object entries => rw [Node.toValue_object]; rfl

lemma shape_normalized (node : Node) : (normalized node).shape = node.shape := by
  cases node with
  | json value => cases value <;> rfl
  | scalar s => rfl
  | array values => rfl
  | object entries => rfl

/-- What the walk has counted and written so far. -/
structure Totals where
  nodes : ℕ
  depth : ℕ
  written : List Octet

variable (lim : Bounds) (toVec : Text → List Octet)

namespace Totals

def emit (t : Totals) (bytes : List Octet) : Totals := {t with written := t.written++bytes}

/-- One more node, at a depth. -/
def visit (t : Totals) (depth : ℕ) : Totals := {t with nodes := t.nodes+1, depth := max t.depth depth}

/-- A whole tree under a container at some depth. -/
def tree (t : Totals) (depth : ℕ) (v : Value) : Totals :=
  ⟨t.nodes+v.nodes,max t.depth (depth+v.depth),t.written++writeCanonicalValue toVec v⟩

/-- The children of a container, each behind its lead. -/
def body (depth : ℕ) : Totals → List (List Octet × Value) → Totals
  | t, [] => t
  | t, (lead,v)::items => body depth ((t.emit lead).tree toVec depth v) items

/-- The totals that the limits admit. -/
structure Fits (t : Totals) : Prop where
  nodes : t.nodes≤lim.limits.maxNodes
  depth : t.depth≤lim.limits.maxDepth
  workspace : t.depth*lim.frameBytes ≤ lim.limits.maxWorkspaceBytes
  slots : t.depth≤lim.slots
  bytes : t.written.length≤lim.limits.maxBytes

structure Below (t u : Totals) : Prop where
  nodes : t.nodes ≤ u.nodes
  depth : t.depth ≤ u.depth
  written : t.written.length ≤ u.written.length

variable {t u v : Totals} {lim toVec}

lemma Below.refl (t : Totals) : Below t t := ⟨le_rfl,le_rfl,le_rfl⟩

lemma Below.trans (h : Below t u) (h' : Below u v) : Below t v :=
  ⟨h.nodes.trans h'.nodes,h.depth.trans h'.depth,h.written.trans h'.written⟩

lemma Fits.below (hu : u.Fits lim) (h : Below t u) : t.Fits lim :=
  ⟨h.nodes.trans hu.nodes,h.depth.trans hu.depth,(Nat.mul_le_mul_right _ h.depth).trans
    hu.workspace,h.depth.trans hu.slots,h.written.trans hu.bytes⟩

lemma below_emit (t : Totals) (bytes : List Octet) : Below t (t.emit bytes) :=
  ⟨le_rfl,le_rfl,by simp [emit]⟩

lemma below_tree (t : Totals) (depth : ℕ) (v : Value) : Below t (t.tree toVec depth v) :=
  ⟨le_self_add,le_max_left _ _,by simp [tree]⟩

lemma depth_pos (v : Value) : 0<v.depth := by
  cases v <;> simp [Value.depth]

lemma visit_below_tree (t : Totals) (depth : ℕ) (v : Value) :
    Below (t.visit (depth+1)) (t.tree toVec depth v) :=
  ⟨Nat.add_le_add_left v.nodes_pos _,max_le_max_left _ (Nat.add_le_add_left (depth_pos v) _),
    by simp [visit,tree]⟩

lemma below_body (depth : ℕ) (t : Totals) (items : List (List Octet × Value)) :
    Below t (body toVec depth t items) := by
  induction items generalizing t with
  | nil => exact .refl t
  | cons item items ih =>
    exact ((below_emit t item.1).trans (below_tree _ _ _)).trans (ih _)

lemma body_eq {depth : ℕ} (h : depth≤t.depth) (items : List (List Octet × Value)) :
    body toVec depth t items = ⟨t.nodes + (items.map fun i => i.2.nodes).sum,
      max t.depth (depth + (items.map fun i => i.2.depth).foldr max 0),
      t.written++(items.map fun i => i.1++writeCanonicalValue toVec i.2).flatten⟩ := by
  induction items generalizing t with
  | nil => simp [body,h]
  | cons item items ih =>
    rw [body,ih (h.trans (le_max_left _ _))]
    simp only [tree,emit,map_cons,sum_cons,foldr_cons,flatten_cons,
      append_assoc,add_assoc,max_assoc,← Nat.add_max_add_left]

end Totals

/-- The state of the walk, as the frames and the totals determine it. -/
def State.ofTotals (frames : List Frame) (t : Totals) : State :=
  ⟨frames,⟨t.written,t.written.length,lim.limits.maxBytes⟩,t.nodes,t.depth, t.depth*lim.frameBytes⟩

/-- A run from one state to another, whatever happens afterwards. -/
def Reaches (s t : State) : Prop :=
  ∃ k, ∀ fuel, walkLoop lim (k+fuel) s = walkLoop lim fuel t

def Fails (s : State) : Prop := ∃ k e, ∀ fuel, walkLoop lim (k+fuel) s = some (.error e)

/-- The run reaches a state if a condition holds, and fails if it does not. -/
def Decides (s : State) (p : Prop) (t : State) : Prop :=
  (p → Reaches lim s t) ∧ (¬p → Fails lim s)

section
variable {lim} {s t u : State} {p q r : Prop}

lemma Decides.trans (h : Decides lim s p t) (h' : p → Decides lim t q u) (hr : r ↔ p ∧ q) :
    Decides lim s r u := by
  refine ⟨fun hyes => ?_,fun hno => ?_⟩
  · obtain ⟨hp,hq⟩ := hr.mp hyes
    obtain ⟨k,hk⟩ := h.1 hp
    obtain ⟨j,hj⟩ := (h' hp).1 hq
    exact ⟨k+j,fun fuel => by rw [add_assoc,hk,hj]⟩
  · by_cases hp : p
    · obtain ⟨k,hk⟩ := h.1 hp
      obtain ⟨j,e,hj⟩ := (h' hp).2 fun hq => hno (hr.mpr ⟨hp,hq⟩)
      exact ⟨k+j,e,fun fuel => by rw [add_assoc,hk,hj]⟩
    · exact h.2 hp

lemma Decides.refused (h : Decides lim s p t) (hp : ¬p) (hr : ¬r) : Decides lim s r u :=
  ⟨fun hyes => absurd hyes hr,fun _ => h.2 hp⟩

lemma Decides.congr (h : Decides lim s p t) (hr : r ↔ p) : Decides lim s r t :=
  ⟨fun hyes => h.1 (hr.mp hyes),fun hno => h.2 (mt hr.mpr hno)⟩

lemma decides_round {frame : Frame} {rest : List Frame} (hfra : s.frames=frame::rest)
    {x : Except Error State} (hx : (if frame.entered then advance lim frame rest s
      else enter lim frame rest s)=x) (hok : p → x = .ok t) (herr : ¬p → ∃ e, x = .error e) :
    Decides lim s p t := by
  refine ⟨fun hp => ⟨1,fun fuel => ?_⟩,fun hp => ?_⟩
  · rw [add_comm 1,walkLoop,hfra]
    simp only [hx,hok hp]
  · obtain ⟨e,he⟩ := herr hp
    refine ⟨1,e,fun fuel => ?_⟩
    rw [add_comm 1,walkLoop,hfra]
    simp only [hx,he]

end

section
variable {lim toVec} {t : Totals} {frame next : Frame} {rest : List Frame}

/-- `ofTotals` makes the totals' output. -/
def Totals.output (lim : Bounds) (t : Totals) : Output :=
  ⟨t.written,t.written.length,lim.limits.maxBytes⟩

lemma raw_output (t : Totals) (bytes : List Octet) : (t.output lim).raw bytes =
    if (t.emit bytes).written.length ≤ lim.limits.maxBytes then
      .ok ((t.emit bytes).output lim) else .error .byteLimit := by
  simp only [Totals.output,Totals.emit,length_append]
  rfl

lemma output_le (h : t.Fits lim) : (t.output lim).bytes ≤ (t.output lim).limit := h.bytes

lemma fits_emit (h : t.Fits lim) (bytes : List Octet) : (t.emit bytes).Fits lim ↔
    (t.emit bytes).written.length ≤ lim.limits.maxBytes :=
  ⟨fun h' => h'.bytes,fun h' => ⟨h.nodes,h.depth,h.workspace,h.slots,h'⟩⟩

/-- A round that writes and then continues in a state of its own. -/
lemma decides_raw (frame : Frame) (rest : List Frame) (h : t.Fits lim) {bytes : List Octet}
    {frames : List Frame}
    (hrou : (if frame.entered then advance lim frame rest (.ofTotals lim (frame::rest) t)
      else enter lim frame rest (.ofTotals lim (frame::rest) t)) =
        (t.output lim).raw bytes >>= fun out =>
          .ok {State.ofTotals lim (frame::rest) t with frames := frames, output := out}) :
    Decides lim (.ofTotals lim (frame::rest) t) ((t.emit bytes).Fits lim)
      (.ofTotals lim frames (t.emit bytes)) := by
  refine decides_round rfl hrou (fun hfits => ?_) fun hno => ?_
  · rw [raw_output,if_pos hfits.bytes]
    rfl
  · rw [fits_emit h] at hno
    rw [raw_output,if_neg hno]
    exact ⟨_,rfl⟩

lemma checkPush_eq {depth : ℕ} (h : t.Fits lim) :
    ((t.visit depth).Fits lim → checkPush lim depth t.nodes = .ok (depth*lim.frameBytes))
      ∧ (¬(t.visit depth).Fits lim → ∃ e, checkPush lim depth t.nodes = .error e) := by
  unfold checkPush
  split_ifs with hnod hdep hwork hsls
  · refine ⟨fun hf => ?_,fun _ => ⟨_,rfl⟩⟩
    have : t.nodes+1≤lim.limits.maxNodes := hf.nodes
    omega
  · refine ⟨fun hf => ?_,fun _ => ⟨_,rfl⟩⟩
    have := (le_max_right t.depth depth).trans hf.depth
    omega
  · refine ⟨fun hf => ?_,fun _ => ⟨_,rfl⟩⟩
    have := (Nat.mul_le_mul_right lim.frameBytes (le_max_right t.depth depth)).trans hf.workspace
    omega
  · refine ⟨fun hf => ?_,fun _ => ⟨_,rfl⟩⟩
    have := (le_max_right t.depth depth).trans hf.slots
    omega
  · refine ⟨fun _ => rfl,fun hno => absurd ?_ hno⟩
    refine ⟨?_,max_le h.depth (not_lt.mp hdep),?_,max_le h.slots (not_lt.mp hsls),h.bytes⟩
    · change t.nodes+1 ≤ _
      omega
    · rcases max_choice t.depth depth with hmax | hmax
      · exact (congrArg (· * lim.frameBytes) hmax).trans_le h.workspace
      · exact (congrArg (· * lim.frameBytes) hmax).trans_le (not_lt.mp hwork)

/-- A round that writes the lead of a child and pushes it. -/
lemma decides_push (h : t.Fits lim) {lead : List Octet} {child : Node}
    (hent : frame.entered=true)
    (hrou : advance lim frame rest (.ofTotals lim (frame::rest) t) =
      (t.output lim).raw lead >>= fun out =>
        push lim next rest child out (.ofTotals lim (frame::rest) t)) :
    Decides lim (.ofTotals lim (frame::rest) t)
      (((t.emit lead).visit (rest.length+1+1)).Fits lim)
      (.ofTotals lim (Frame.new (normalized child)::{next with index := next.index+1}::rest)
        ((t.emit lead).visit (rest.length+1+1))) := by
  refine decides_round rfl ((if_pos hent).trans hrou) (fun hfits => ?_) fun hno => ?_
  · have hlead : (t.emit lead).Fits lim :=
      hfits.below ⟨Nat.le_succ _,le_max_left _ _,le_rfl⟩
    rw [raw_output,if_pos hlead.bytes,ok_bind]
    have hpush : checkPush lim (rest.length+1+1) t.nodes=_ := (checkPush_eq hlead).1 hfits
    change (checkPush lim (rest.length+1+1) t.nodes >>= _)=_
    rw [hpush,ok_bind]
    congr 2
    exact (Nat.mul_max_mul_right ..)
  · by_cases hlead : (t.emit lead).Fits lim
    · obtain ⟨e,he⟩ := (@checkPush_eq _ _ (rest.length+1+1) hlead).2 hno
      rw [raw_output,if_pos hlead.bytes,ok_bind]
      change ∃ e, (checkPush lim (rest.length+1+1) t.nodes >>= _)=_
      exact ⟨e,by rw [show checkPush lim (rest.length+1+1) t.nodes=_ from he,error_bind]⟩
    · rw [fits_emit h] at hlead
      rw [raw_output,if_neg hlead]
      exact ⟨_,rfl⟩

end

/-- What a run does with a value: the frames below are reached again once the value is written, and
they are reached exactly when its keys are distinct and the new totals fit. -/
def Walks (v : Value) : Prop :=
  ∀ (node : Node), node.toValue=v → ∀ (rest : List Frame) (t : Totals),
    (t.visit (rest.length+1)).Fits lim →
      Decides lim
        (.ofTotals lim (Frame.new (normalized node)::rest) (t.visit (rest.length+1)))
        (v.distinctKeys=true ∧ (t.tree toVec rest.length v).Fits lim)
        (.ofTotals lim rest (t.tree toVec rest.length v))

/-- The rounds of an opened container: its children in order, each behind its lead, up to its end or
to a repeated key. -/
inductive Plan (closing : List Octet) : Frame → List (List Octet × Node) → Bool → Prop
  | close {frame : Frame} (entered : frame.entered=true)
      (round : ∀ rest (s : State), s.output.bytes ≤ s.output.limit →
        advance lim frame rest s = close closing rest s) : Plan closing frame [] true
  | stop {frame : Frame} (entered : frame.entered=true)
      (round : ∀ rest (s : State), ∃ e, advance lim frame rest s = .error e) :
      Plan closing frame [] false
  | item {frame next : Frame} {lead : List Octet} {child : Node}
      {items : List (List Octet × Node)} {ok : Bool} (entered : frame.entered=true)
      (round : ∀ rest (s : State), s.output.bytes ≤ s.output.limit →
        advance lim frame rest s =
          s.output.raw lead >>= fun out => push lim next rest child out s)
      (later : Plan closing {next with index := next.index+1} items ok) :
      Plan closing frame ((lead,child)::items) ok

def valued (items : List (List Octet × Node)) : List (List Octet × Value) :=
  items.map fun i => (i.1,i.2.toValue)

section
variable {lim toVec} {t : Totals} {frame : Frame} {rest : List Frame}

/-- The rest of a container, by induction on its rounds. -/
lemma Plan.decides {closing : List Octet}
    {items : List (List Octet × Node)} {ok : Bool} (h : Plan lim closing frame items ok)
    (hwal : ∀ i∈items, Walks lim toVec i.2.toValue) (ht : t.Fits lim) : Decides lim
    (.ofTotals lim (frame::rest) t) (ok=true ∧ (∀ i∈items, i.2.toValue.distinctKeys=true) ∧
    ((Totals.body toVec (rest.length+1) t (valued items)).emit closing).Fits lim)
    (.ofTotals lim rest ((Totals.body toVec (rest.length+1) t (valued items)).emit closing)) := by
  induction h generalizing t with
  | close entered round =>
    refine (decides_raw _ rest ht ?_).congr ?_
    · rw [if_pos entered,round _ _ (output_le ht)]
      rfl
    · simp [valued,Totals.body]
  | @stop frame entered round =>
    obtain ⟨e,he⟩ := round rest (.ofTotals lim (frame::rest) t)
    exact decides_round rfl (if_pos entered) (fun h => absurd h.1 Bool.false_ne_true)
      fun _ => ⟨e,he⟩
  | @item frame next lead child items ok entered round later ih =>
    have hchd := hwal _ mem_cons_self child rfl
      ({next with index := next.index+1}::rest) (t.emit lead)
    have hblw : Totals.Below _ (Totals.body toVec _ _ _) := Totals.below_body (rest.length+1)
      ((t.emit lead).tree toVec (rest.length+1) child.toValue) (valued items)
    have hbelow' := hblw.trans (Totals.below_emit _ closing)
    refine (decides_push ht entered (round _ _ (output_le ht))).trans (fun hvis => ?_)
      (q := child.toValue.distinctKeys=true ∧ ok=true ∧ (∀ i∈items, i.2.toValue.distinctKeys=true) ∧
        ((Totals.body toVec (rest.length+1) t (valued ((lead,child)::items))).emit closing).Fits
          lim) ⟨?_,?_⟩
    · refine (hchd hvis).trans (fun htree => ?_) ⟨?_,?_⟩
        (q := ok=true ∧ (∀ i∈items, i.2.toValue.distinctKeys=true) ∧
          ((Totals.body toVec (rest.length+1) t (valued ((lead,child)::items))).emit closing).Fits
            lim)
      · exact ih (fun i hi => hwal i (mem_cons_of_mem _ hi)) htree.2
      · rintro ⟨hkeys,hok,hall,hfits⟩
        exact ⟨⟨hkeys,hfits.below hbelow'⟩,hok,hall,hfits⟩
      · rintro ⟨⟨hkeys,-⟩,hok,hall,hfits⟩
        exact ⟨hkeys,hok,hall,hfits⟩
    · rintro ⟨hok,hall,hfits⟩
      obtain ⟨hkeys,hall⟩ := forall_mem_cons.mp hall
      refine ⟨?_,hkeys,hok,hall,hfits⟩
      exact hfits.below ((Totals.visit_below_tree _ _ _).trans hbelow')
    · rintro ⟨-,hkeys,hok,hall,hfits⟩
      exact ⟨hok,forall_mem_cons.mpr ⟨hkeys,hall⟩,hfits⟩

end

end Pllm.Canonical
