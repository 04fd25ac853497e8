import Pllm.Canonical.Borrowed
import Pllm.Canonical.Stream

/-! What a traversal visits, as a list of marks that depends on the value and the order alone, and
what every operation spends on it. -/
namespace Pllm.Canonical.Borrowed
open Pllm.Lib Pllm.Lib.Exec Outcome List Canonical.Stream

/-- What the comparison sees of a value: a scalar, or a container with its length. -/
inductive Head
  | scalar (value : Scalar)
  | array (length : ℕ)
  | object (length : ℕ)

def head : Value → Head
  | .scalar s => .scalar s
  | .array values => .array values.length
  | .object entries => .object entries.length

inductive Mark
  | value (head : Head) (depth : ℕ)
  | key (key : Text) (depth : ℕ)

def Event.mark : Event → Mark
  | .value v depth _ => .value (head v) depth
  | .key text depth => .key text depth

def scalarPayload : Scalar → ℕ
  | .string t => t.length
  | .number n => n.toText.length
  | _ => 0

def Mark.nodes : Mark → ℕ
  | .value _ _ => 1
  | .key _ _ => 0

def Mark.bytes : Mark → ℕ
  | .value (.scalar s) _ => scalarPayload s
  | .value _ _ => 0
  | .key text _ => text.length

def StringFits (limits : Limits) : Scalar → Prop
  | .string t => t.length≤limits.maxStringBytes
  | _ => True

def KeyFits (limits : Limits) (key : Text) : Prop :=
  key.length≤limits.maxKeyBytes ∧ key.length≤limits.maxStringBytes

def Mark.Fits (limits : Limits) : Mark → Prop
  | .value (.scalar s) depth => depth≤limits.maxDepth ∧ StringFits limits s
  | .value _ depth => depth≤limits.maxDepth
  | .key text _ => KeyFits limits text

def Order.arrange {α : Type} : Order → List (Text × α) → List (Text × α)
  | .sorted, entries => sortEntries entries
  | .native, entries => entries

/-- The marks of a value whose root is at a depth. -/
def marks (order : Order) : Value → ℕ → List Mark :=
  Value.fold (fun s depth => [.value (.scalar s) depth])
    (fun ms depth => .value (.array ms.length) depth :: ms.flatMap (· (depth+1)))
    (fun es depth => .value (.object es.length) depth ::
      (order.arrange es).flatMap fun e => .key e.1 depth :: e.2 (depth+1))

def itemMarks (order : Order) (depth : ℕ) (values : List Value) : List Mark :=
  values.flatMap fun v => marks order v (depth+1)

def memberMarks (order : Order) (depth : ℕ) (entries : List (Text × Value)) : List Mark :=
  entries.flatMap fun e => .key e.1 depth :: marks order e.2 (depth+1)

variable {order : Order}

lemma marks_scalar (s : Scalar) (depth : ℕ) :
    marks order (.scalar s) depth = [.value (.scalar s) depth] := by
  rw [marks,Value.fold_scalar]

lemma marks_array (values : List Value) (depth : ℕ) : marks order (.array values) depth =
    .value (.array values.length) depth :: itemMarks order depth values := by
  rw [marks,Value.fold_array,length_map,flatMap_map]
  rfl

lemma marks_object (entries : List (Text × Value)) (depth : ℕ) : marks order (.object entries) depth
    = .value (.object entries.length) depth :: memberMarks order depth (order.arrange entries) := by
  rw [marks,Value.fold_object,length_map]
  have harr : order.arrange (entries.map fun e => (e.1,marks order e.2)) =
      (order.arrange entries).map fun e => (e.1,marks order e.2) := by
    cases order with
    | sorted => exact sortEntries_map (marks .sorted) entries
    | native => rfl
  rw [← marks,harr,flatMap_map]
  rfl

def Meter.Within (m : Meter) : Prop :=
  m.usage.nodes ≤ m.limits.maxNodes ∧ m.usage.bytes ≤ m.limits.maxBytes ∧
    m.usage.work ≤ m.limits.maxWork

/-- So many nodes and bytes more, under the same limits, and no less work. -/
structure Grew (before : Meter) (nodes bytes : ℕ) (m : Meter) : Prop where
  limits : m.limits=before.limits
  nodes : m.usage.nodes=before.usage.nodes+nodes
  bytes : m.usage.bytes=before.usage.bytes+bytes
  work : before.usage.work ≤ m.usage.work
  within : before.Within → m.Within

lemma Grew.refl (m : Meter) : Grew m 0 0 m := ⟨rfl,rfl,rfl,le_rfl,id⟩

lemma Grew.trans {a b c : Meter} {n n' k k' : ℕ} (h : Grew a n k b) (h' : Grew b n' k' c) :
    Grew a (n+n') (k+k') c :=
  ⟨h'.limits.trans h.limits,by rw [h'.nodes,h.nodes,add_assoc],by rw
    [h'.bytes,h.bytes,add_assoc],h.work.trans h'.work,fun hw => h'.within (h.within hw)⟩

/-- Every result satisfies `good`. -/
abbrev Yields {α : Type} (x : Op α) (m : Meter) (good : α → Meter → Prop) : Prop :=
  Outcome x m good fun _ => True

variable {m : Meter}

lemma yields_require {c : Prop} [Decidable c] {e : Error} {good : Unit → Meter → Prop}
    (h : c → good () m) : Yields (require c e) m good := by
  intro deny k
  rw [wp_require]
  exact ⟨h,fun _ => trivial⟩

lemma yields_add (a b : ℕ) : Yields (add a b) m fun c t => c=a+b ∧ t=m :=
  require trivial fun _ => pure ⟨rfl,rfl⟩

lemma yields_spent (amount : ℕ) : Yields (work amount) m fun _ t =>
    Grew m 0 0 t ∧ t.usage.work=m.usage.work+amount := by
  refine read ((yields_add _ _).bind ?_)
  rintro next t ⟨rfl,rfl⟩
  refine require trivial fun hle => ?_
  exact fun _ _ => ⟨⟨rfl,rfl,rfl,le_self_add,fun hw => ⟨hw.1,hw.2.1,hle⟩⟩,rfl⟩

lemma yields_work (amount : ℕ) : Yields (work amount) m fun _ t => Grew m 0 0 t :=
  (yields_spent amount).mono (fun _ _ h => h.1) fun _ h => h

lemma yields_bytes (amount : ℕ) : Yields (bytes amount) m fun _ t => Grew m 0 amount t := by
  refine read ((yields_add _ _).bind ?_)
  rintro next t ⟨rfl,rfl⟩
  refine require trivial fun hle => ?_
  exact fun _ _ => ⟨rfl,rfl,rfl,le_rfl,fun hw => ⟨hw.1,hle,hw.2.2⟩⟩

lemma yields_textLimit (t : Text) (key : Bool) : Yields (textLimit t key) m fun _ u => u=m ∧
    t.length ≤ m.limits.maxStringBytes ∧ (key=true → KeyFits m.limits t) := by
  refine read (require trivial fun hkey => yields_require fun hle => ?_)
  exact ⟨rfl,hle,fun hk => ⟨not_lt.mp fun h => hkey ⟨hk,h⟩,hle⟩⟩

lemma yields_text (t : Text) (key : Bool) : Yields (text t key) m fun _ u =>
    Grew m 0 t.length u ∧ t.length ≤ m.limits.maxStringBytes ∧ (key=true → KeyFits m.limits t) := by
  refine (yields_textLimit t key).bind ?_
  rintro _ u ⟨rfl,hle,hkey⟩
  exact (yields_bytes t.length).mono (fun _ _ h => ⟨h,hle,hkey⟩) fun _ h => h

lemma yields_compareText (a b : Text) (key : Bool) : Yields (compareText a b key) m fun o t =>
    Grew m 0 0 t ∧ o = compareOfLessAndEq a b := by
  refine (yields_textLimit a key).bind ?_
  rintro _ _ ⟨rfl,-⟩
  refine (yields_textLimit b key).bind ?_
  rintro _ _ ⟨rfl,-⟩
  refine (yields_add _ _).bind ?_
  rintro span _ ⟨-,rfl⟩
  exact (yields_work span).bind fun _ t ht => pure ⟨ht,rfl⟩

lemma yields_candidate : Yields candidate m fun _ t => Grew m 0 0 t := by
  refine (yields_work 1).bind fun _ t ht => read ((yields_add _ _).bind ?_)
  rintro next _ ⟨-,rfl⟩
  exact fun _ _ => ⟨ht.limits,ht.nodes,ht.bytes,ht.work,ht.within⟩

lemma compareOfLessAndEq_orders (a b : Text) : Orders a b (compareOfLessAndEq a b) := by
  unfold Orders compareOfLessAndEq
  rcases lt_trichotomy a b with h | rfl | h
  · simp [h,h.not_gt]
  · simp
  · simp [h,h.not_gt,h.ne']

lemma yields_compareWith {without : Ordering} {key : Text} {earlier : Option Text} :
    Yields (compareWith without key earlier) m fun o t => Grew m 0 0 t ∧
      ((earlier=none ∧ o=without) ∨ ∃ text, earlier = some text ∧ Orders key text o) := by
  cases earlier with
  | none => exact pure ⟨.refl m,.inl ⟨rfl,rfl⟩⟩
  | some text =>
    refine (yields_compareText key text true).mono ?_ fun _ h => h
    rintro o t ⟨ht,rfl⟩
    exact ⟨ht,.inr ⟨text,rfl,compareOfLessAndEq_orders key text⟩⟩

lemma yields_select {previous : Option Text} (seen entries : List (Text × Value))
    {best : Option (Text × Value)} (h : Best previous seen best) : Yields (select
    previous best entries) m fun best t => Grew m 0 0 t ∧ Best previous (seen++entries) best := by
  induction entries generalizing seen best m with
  | nil =>
    rw [append_nil]
    exact pure ⟨.refl m,h⟩
  | cons entry entries ih =>
    rw [← singleton_append,← append_assoc]
    refine yields_candidate.bind fun _ t₁ h₁ => ?_
    refine (yields_textLimit entry.1 true).bind ?_
    rintro _ _ ⟨rfl,-⟩
    refine yields_compareWith.bind ?_
    rintro order t₂ ⟨h₂,hord⟩
    have haft : order = .gt ↔ after previous entry=true := by
      rcases hord with ⟨rfl,rfl⟩ | ⟨earlier,rfl,hord⟩
      · exact iff_of_true rfl rfl
      · rw [hord.2]
        simp [after]
    by_cases hgt : order = .gt
    · rw [if_neg (not_not.mpr hgt)]
      refine yields_compareWith.bind ?_
      rintro order t₃ ⟨h₃,hord⟩
      have hgrew := (h₁.trans h₂).trans h₃
      by_cases hlt : order = .lt
      · rw [if_neg (not_not.mpr hlt)]
        have hbest := h.take (haft.mp hgt) fun b hb => by
          subst hb
          rcases hord with ⟨he,-⟩ | ⟨text,he,hord⟩
          · cases he
          · rw [← some_inj he] at hord
            exact hord.1.mp hlt
        exact (ih _ hbest).mono (fun _ _ hu => ⟨hgrew.trans hu.1,hu.2⟩) fun _ h => h
      · rw [if_pos hlt]
        have hbest := h.skip fun _ => by
          rcases hord with ⟨-,ho⟩ | ⟨text,he,hord⟩
          · exact absurd ho hlt
          · obtain ⟨b,rfl,rfl⟩ := Option.map_eq_some_iff.mp he
            exact ⟨b,rfl,not_lt.mp (mt hord.1.mpr hlt)⟩
        exact (ih _ hbest).mono (fun _ _ hu => ⟨hgrew.trans hu.1,hu.2⟩) fun _ h => h
    · rw [if_pos hgt]
      have hbest := h.skip fun ha => absurd (haft.mpr ha) hgt
      exact (ih _ hbest).mono (fun _ _ hu => ⟨(h₁.trans h₂).trans hu.1,hu.2⟩) fun _ h => h

lemma yields_number (counted : ℕ) (pieces : List (List Octet)) :
    Yields (number counted pieces) m fun _ t => Grew m 0 pieces.flatten.length t := by
  induction pieces generalizing counted m with
  | nil => exact pure (.refl m)
  | cons piece pieces ih =>
    refine (yields_add _ _).bind ?_
    rintro counted _ ⟨-,rfl⟩
    refine (yields_bytes _).bind fun _ t₁ h₁ => (yields_work _).bind fun _ t₂ h₂ => ?_
    refine (ih counted).mono (fun _ _ hu => ?_) fun _ h => h
    rw [flatten_cons,length_append]
    exact (h₁.trans h₂).trans hu

lemma yields_payload (v : Value) (depth : ℕ) : Yields (payload v) m fun _ t =>
    Grew m 0 (Mark.value (head v) depth).bytes t ∧
      (depth ≤ m.limits.maxDepth → (Mark.value (head v) depth).Fits m.limits) := by
  rcases v with (_ | b | n | t) | values | entries
  · exact pure ⟨.refl m,fun h => ⟨h,trivial⟩⟩
  · exact pure ⟨.refl m,fun h => ⟨h,trivial⟩⟩
  · exact (yields_number 0 n.pieces).mono (fun _ _ h => ⟨h,fun hd => ⟨hd,trivial⟩⟩) fun _ h => h
  · refine (yields_text t false).bind ?_
    rintro _ u ⟨hu,hle,-⟩
    exact pure ⟨hu,fun hd => ⟨hd,hle⟩⟩
  · exact pure ⟨.refl m,id⟩
  · exact pure ⟨.refl m,id⟩

end Pllm.Canonical.Borrowed
