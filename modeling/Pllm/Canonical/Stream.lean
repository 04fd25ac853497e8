import Pllm.Canonical.Value
import Pllm.Lib.Exec

/-! The streaming canonical writer: direct schema events and borrowed fragments under one budget. A
session keeps one frame for every open container, and the first error poisons it. -/
namespace Pllm.Canonical.Stream
open Pllm.Lib Pllm.Lib.Exec

structure StreamLimits where
  maxNodes : ℕ
  maxDepth : ℕ
  maxBytes : ℕ
  maxStringBytes : ℕ
  maxKeyBytes : ℕ
  maxTotalStringBytes : ℕ
  maxWork : ℕ
  maxStackBytes : ℕ

structure StreamUsage where
  nodes : ℕ
  depth : ℕ
  bytes : ℕ
  stringBytes : ℕ
  work : ℕ

inductive StreamError
  | nodeLimit | depthLimit | byteLimit | stringLimit | keyLimit | totalStringLimit | workLimit
  | stackLimit | stackTooSmall | structure_ | keyOrder | nonFiniteNumber | poisoned | io
  deriving DecidableEq

inductive Kind
  | array | object
  deriving DecidableEq

structure StreamFrame where
  kind : Kind
  emitted : Bool
  waiting : Bool
  previous : Option Text
  fragment : Option Value
  cursor : ℕ

/-- A frame of a kind, as `begin` stores it. -/
def StreamFrame.new (kind : Kind) : StreamFrame := ⟨kind,false,false,none,none,0⟩

/-- The meter, the live part of the stack with the innermost frame first, and the flags. The
traversal scratch of the source holds what are local names here. -/
structure Session where
  writer : List Octet
  limits : StreamLimits
  usage : StreamUsage
  slots : ℕ
  stack : List StreamFrame
  root : Bool
  failed : Bool

abbrev Op (α : Type) : Type := Exec StreamError Session α

/-- The constructor; `frameBytes` is the size of a frame. -/
def new (slots frameBytes : ℕ) (limits : StreamLimits) : Except StreamError Session :=
  if slots*frameBytes>limits.maxStackBytes then .error .stackLimit
  else .ok ⟨[],limits,⟨0,0,0,0,0⟩,slots,[],false,false⟩

def work (amount : ℕ) : Op Unit := do
  let s ← read
  require (s.usage.work+amount ≤ s.limits.maxWork) .workLimit
  modify fun s => {s with usage := {s.usage with work := s.usage.work+amount}}

def checkText (text : Text) (key : Bool) : Op Unit := do
  let s ← read
  require (¬(key=true ∧ text.length>s.limits.maxKeyBytes)) .keyLimit
  require (text.length ≤ s.limits.maxStringBytes) .stringLimit

/-- The loop over byte pairs; past the common prefix the rest decides as the lengths do. -/
def compareLoop : Text → Text → Op Ordering
  | a::left, b::right => do
    work 1
    if a=b then compareLoop left right
    else pure (if a < b then .lt else .gt)
  | left, right => do
    work 1
    pure (compare left.length right.length)

def compareText (left right : Text) : Op Ordering := do
  checkText left true
  checkText right true
  compareLoop left right

/-- One `write_all` through the meter, which the writer behind it may refuse. -/
def writeAll (bytes : List Octet) : Op Unit :=
  if bytes=[] then pure ()
  else do
    let s ← read
    require (s.usage.bytes+bytes.length ≤ s.limits.maxBytes) .byteLimit
    require (s.usage.work+bytes.length ≤ s.limits.maxWork) .workLimit
    request
    modify fun s => {s with
      writer := s.writer++bytes
      usage := {s.usage with bytes := s.usage.bytes+bytes.length, work := s.usage.work+bytes.length}}

/-- The writes of one operation on the output, in order. -/
def emit : List (List Octet) → Op Unit
  | [] => pure ()
  | chunk::chunks => do
    writeAll chunk
    emit chunks

def raw (bytes : List Octet) : Op Unit := emit [bytes]

/-- The writes of `Output::string`, whose loop has `pending` bytes behind it. -/
def stringChunks (pending : List Octet) : List Octet → List (List Octet)
  | [] => [pending,octets "\""]
  | byte::bytes =>
    match Output.escape byte with
    | some escaped => pending :: escaped :: stringChunks [] bytes
    | none => stringChunks (pending++[byte]) bytes

def text (t : Text) (key : Bool) : Op Unit := do
  checkText t key
  let s ← read
  require (s.usage.stringBytes+t.length ≤ s.limits.maxTotalStringBytes) .totalStringLimit
  modify fun s => {s with usage := {s.usage with stringBytes := s.usage.stringBytes+t.length}}
  work t.length
  require (t.length+2<2^64) .byteLimit
  emit (octets "\"" :: stringChunks [] t)

/-- The place that a value takes: the root, the value of a waiting key, or the next array item. -/
def takePlace : Op Unit := do
  let s ← read
  match s.stack with
  | [] => do
    require (s.root=false) .structure_
    modify fun s => {s with root := true}
  | frame::rest =>
    match frame.kind with
    | .object => do
      require (frame.waiting=true) .structure_
      modify fun s => {s with stack := {frame with waiting := false}::rest}
    | .array => do
      emit (if frame.emitted then [octets ","] else [])
      modify fun s => {s with stack := {frame with emitted := true}::rest}

def value : Op Unit := do
  takePlace
  let s ← read
  require (s.usage.nodes < s.limits.maxNodes) .nodeLimit
  require (s.stack.length+1 ≤ s.limits.maxDepth) .depthLimit
  modify fun s => {s with
    usage := {s.usage with nodes := s.usage.nodes+1, depth := max s.usage.depth (s.stack.length+1)}}

def opening : Kind → List Octet
  | .array => octets "["
  | .object => octets "\x7b"

def closing : Kind → List Octet
  | .array => octets "]"
  | .object => octets "\x7d"

def begin_ (kind : Kind) (fragment : Option Value) : Op Unit := do
  value
  let s ← read
  require (s.stack.length≠s.slots) .stackTooSmall
  raw (opening kind)
  modify fun s => {s with stack := {StreamFrame.new kind with fragment := fragment}::s.stack}

def end_ (kind : Kind) : Op Unit := do
  let s ← read
  match s.stack with
  | [] => fail .structure_
  | frame::rest => do
    require (frame.kind=kind ∧ frame.waiting=false) .structure_
    raw (closing kind)
    modify fun s => {s with stack := rest}

/-- `if let Some(previous)`: the key must come after the one before it. -/
def checkOrder (previous : Option Text) (key : Text) : Op Unit :=
  match previous with
  | none => pure ()
  | some earlier => do
    let order ← compareText earlier key
    require (order = .lt) .keyOrder

def orderedKey (key : Text) : Op Unit := do
  checkText key true
  let s ← read
  match s.stack with
  | [] => fail .structure_
  | frame::rest => do
    require (frame.kind = .object ∧ frame.waiting=false) .structure_
    checkOrder frame.previous key
    emit (if frame.emitted then [octets ","] else [])
    text key true
    raw (octets ":")
    modify fun s => {s with
      stack := {frame with previous := some key, emitted := true, waiting := true}::rest}

def scalar : Scalar → Op Unit
  | .null => do
    value
    raw (octets "null")
  | .bool b => do
    value
    raw (if b then octets "true" else octets "false")
  | .string t => do
    value
    text t false
  | .number n => do
    value
    emit n.pieces

/-- How a key compares with an earlier one, when there is one; `without` stands for its absence. -/
def compareWith (without : Ordering) (key : Text) : Option Text → Op Ordering
  | none => pure without
  | some earlier => compareText key earlier

/-- The scan of `Selection::run` for the least key after `previous`. -/
def select (previous : Option Text) : Option (Text × Value) → List (Text × Value) →
    Op (Option (Text × Value))
  | best, [] => pure best
  | best, entry::entries => do
    work 1
    checkText entry.1 true
    let order ← compareWith .gt entry.1 previous
    if order ≠ .gt then select previous best entries
    else do
      let order ← compareWith .lt entry.1 (best.map Prod.fst)
      if order ≠ .lt then select previous best entries
      else select previous (some entry) entries

/-- `begin` of a fragment's container records it in the new frame. -/
def fragmentValue (v : Value) : Op Unit := do
  work 1
  match v with
  | .scalar s => scalar s
  | .array _ => begin_ .array (some v)
  | .object _ => begin_ .object (some v)

/-- The loop of `fragment` down to the depth at which it began, for at most so many rounds. -/
def fragmentLoop (base : ℕ) : ℕ → Op Unit
  | 0 => pure ()
  | rounds+1 => do
    let s ← read
    match s.stack with
    | [] => pure ()
    | frame::rest =>
      if rest.length+1≤base then pure ()
      else match frame.fragment with
        | none => fail .structure_
        | some (.scalar _) => fail .structure_
        | some (.array values) =>
          match values[frame.cursor]? with
          | some child => do
            modify fun s => {s with stack := {frame with cursor := frame.cursor+1}::rest}
            fragmentValue child
            fragmentLoop base rounds
          | none => do
            end_ .array
            fragmentLoop base rounds
        | some (.object entries) => do
          match ← select frame.previous none entries with
          | some (key,child) => do
            orderedKey key
            fragmentValue child
            fragmentLoop base rounds
          | none => do
            end_ .object
            fragmentLoop base rounds

/-- One round for every child and one for every end of a container. -/
def rounds : Value → ℕ :=
  Value.fold (fun _ => 0) (fun rs => (rs.map (·+1)).sum+1)
    (fun es => (es.map fun e => e.2+1).sum+1)

def fragment (v : Value) : Op Unit := do
  let s ← read
  fragmentValue v
  fragmentLoop s.stack.length (rounds v)

/-- A `serde_json` value, whose maps hold every key once. -/
abbrev Json : Type := {v : Value // v.distinctKeys=true}

/-- The public calls. An integer and a finite float stand for the number whose text they write. -/
inductive Event
  | beginObject | endObject | beginArray | endArray
  | key (key : Text)
  | null
  | bool (value : Bool)
  | string (text : Text)
  | number (value : Number)
  | integer (value : Number)
  | float (value : Option Number)
  | json (value : Json)

def operation : Event → Op Unit
  | .beginObject => begin_ .object none
  | .endObject => end_ .object
  | .beginArray => begin_ .array none
  | .endArray => end_ .array
  | .key key => orderedKey key
  | .null => scalar .null
  | .bool b => scalar (.bool b)
  | .string t => scalar (.string t)
  | .number n => scalar (.number n)
  | .integer n => scalar (.number n)
  | .float none => fail .nonFiniteNumber
  | .float (some n) => scalar (.number n)
  | .json v => fragment v.1

/-- A call: a poisoned session refuses it, and the session stays poisoned unless it succeeds. -/
def step (operation : Op Unit) : Op Unit := do
  let s ← read
  require (s.failed=false) .poisoned
  modify fun s => {s with failed := true}
  work 1
  operation
  modify fun s => {s with failed := false}

def finish : Op Unit := step do
  let s ← read
  require (s.root=true ∧ s.stack = []) .structure_

open List

/-- What the invariants of a session speak of. -/
structure View where
  stack : List StreamFrame
  root : Bool
  writer : List Octet
  failed : Bool

def Session.view (s : Session) : View := ⟨s.stack,s.root,s.writer,s.failed⟩

def View.write (v : View) (bytes : List Octet) : View := {v with writer := v.writer++bytes}

/-- Every result satisfies `good`, and every failure leaves a poisoned session. -/
abbrev Gives {α : Type} (x : Op α) (s : Session) (good : α → Session → Prop) : Prop :=
  Outcome x s good fun t => t.failed=true

variable {s : Session} {toVec : Text → List Octet}

/-- A check of the meter: it leaves the view, and what it returns satisfies `good`. -/
def Checks {α : Type} (x : Op α) (good : α → Prop) : Prop :=
  ∀ s : Session, s.failed=true → Gives x s fun a t => t.view=s.view ∧ good a

section
variable {α β : Type} {x : Op α} {f : α → Op β} {good : α → Prop}

lemma Checks.bind {post : β → Session → Prop} (h : Checks x good) (hs : s.failed=true)
    (hf : ∀ a t, t.view=s.view → good a → Gives (f a) t post) : Gives (x >>= f) s post :=
  Outcome.bind (h s hs) fun a t ht => hf a t ht.1 ht.2

lemma Checks.then {post : β → Prop} (h : Checks x good) (hf : ∀ a, good a → Checks (f a) post) :
    Checks (x >>= f) post := by
  intro s hs
  refine h.bind hs fun a t ht ha => ?_
  have hfail : t.failed=true := (congrArg View.failed ht).trans hs
  exact (hf a ha t hfail).mono (fun b u hu => ⟨hu.1.trans ht,hu.2⟩) fun _ h => h

lemma checks_pure {a : α} (h : good a) : Checks (pure a) good :=
  fun _ _ => .pure ⟨rfl,h⟩

lemma checks_work (amount : ℕ) : Checks (work amount) fun _ => True := by
  intro s hs
  refine .read (.require hs fun _ => ?_)
  exact fun _ _ => ⟨rfl,trivial⟩

lemma checks_checkText (t : Text) (key : Bool) : Checks (checkText t key) fun _ => True := by
  intro s hs
  refine .read (.require hs fun _ => fun deny k => ?_)
  rw [wp_require]
  exact ⟨fun _ => ⟨rfl,trivial⟩,fun _ => hs⟩

end

/-- An order that is the one of the texts. -/
def Orders (left right : Text) (order : Ordering) : Prop :=
  (order = .lt ↔ left < right) ∧ (order = .gt ↔ right<left)

lemma checks_compareLoop (left right : Text) :
    Checks (compareLoop left right) (Orders left right) := by
  induction left generalizing right with
  | nil =>
    have hend : Checks (compareLoop [] right) (Orders [] right) := by
      refine (checks_work 1).then fun _ _ => checks_pure ?_
      cases right with
      | nil => exact ⟨by simp,by simp⟩
      | cons b right => exact ⟨by simp [Nat.compare_eq_lt],by simp [Nat.compare_eq_gt]⟩
    exact hend
  | cons a left ih =>
    cases right with
    | nil =>
      refine (checks_work 1).then fun _ _ => checks_pure ?_
      exact ⟨by simp [Nat.compare_eq_lt],by simp [Nat.compare_eq_gt]⟩
    | cons b right =>
      refine (checks_work 1).then fun _ _ => ?_
      by_cases hab : a=b
      · rw [if_pos hab]
        subst hab
        intro s hs
        refine (ih right s hs).mono (fun o t ht => ⟨ht.1,?_⟩) fun _ h => h
        simpa [Orders] using ht.2
      · rw [if_neg hab]
        refine checks_pure ?_
        unfold Orders
        rw [cons_lt_cons_iff,cons_lt_cons_iff]
        rcases lt_or_gt_of_ne hab with h | h
        · simp [h,h.not_gt,Ne.symm hab]
        · simp [h,h.not_gt,hab]

lemma checks_compareText (left right : Text) :
    Checks (compareText left right) (Orders left right) :=
  (checks_checkText left true).then fun _ _ => (checks_checkText right true).then fun _ _ =>
    checks_compareLoop left right

lemma checks_checkOrder (previous : Option Text) (key : Text) :
    Checks (checkOrder previous key) fun _ => ∀ earlier, previous = some earlier → earlier<key := by
  cases previous with
  | none => exact checks_pure nofun
  | some earlier =>
    refine (checks_compareText earlier key).then fun order hord s hs => ?_
    intro deny k
    rw [wp_require]
    refine ⟨fun h => ⟨rfl,?_⟩,fun _ => hs⟩
    rintro _ ⟨⟩
    exact hord.1.mp h

/-- What the scan knows of the entries behind it. -/
def Best (previous : Option Text) (seen : List (Text × Value)) : Option (Text × Value) → Prop
  | none => ∀ e∈seen, after previous e=false
  | some best => best∈seen ∧ after previous best=true ∧
      ∀ e∈seen, after previous e = true → best.1≤e.1

section
variable {previous : Option Text} {seen : List (Text × Value)} {best : Option (Text × Value)}
  {entry : Text × Value}

lemma checks_compareWith {without : Ordering} {key : Text} {earlier : Option Text} :
    Checks (compareWith without key earlier) fun order =>
      (earlier=none ∧ order=without) ∨ ∃ text, earlier = some text ∧ Orders key text order := by
  cases earlier with
  | none => exact checks_pure (.inl ⟨rfl,rfl⟩)
  | some text =>
    intro s hs
    exact (checks_compareText key text s hs).mono
      (fun _ _ h => ⟨h.1,.inr ⟨text,rfl,h.2⟩⟩) fun _ h => h

lemma Best.skip (h : Best previous seen best) (hskip : after previous entry = true → ∃ b, best =
    some b ∧ b.1≤entry.1) : Best previous (seen++[entry]) best := by
  cases best with
  | none =>
    intro e he
    rcases mem_append.mp he with he | he
    · exact h e he
    · rw [mem_singleton.mp he]
      by_contra haft
      obtain ⟨b,hb,-⟩ := hskip (by simpa using haft)
      cases hb
  | some best =>
    obtain ⟨hmem,haft,hle⟩ := h
    refine ⟨mem_append_left _ hmem,haft,fun e he hae => ?_⟩
    rcases mem_append.mp he with he | he
    · exact hle e he hae
    · rw [mem_singleton.mp he] at hae ⊢
      obtain ⟨b,hb,hle⟩ := hskip hae
      rwa [some_inj hb]

lemma Best.take (h : Best previous seen best) (haft : after previous entry = true) (hless : ∀ b,
    best = some b → entry.1<b.1) : Best previous (seen++[entry]) (some entry) := by
  refine ⟨mem_append_right _ (mem_singleton_self _),haft,fun e he hae => ?_⟩
  rcases mem_append.mp he with he | he
  · cases best with
    | none => rw [h e he] at hae; cases hae
    | some b => exact (hless b rfl).le.trans (h.2.2 e he hae)
  · rw [mem_singleton.mp he]

lemma checks_select (seen entries : List (Text × Value)) (h : Best previous seen best) :
    Checks (select previous best entries) (Best previous (seen++entries)) := by
  induction entries generalizing seen best with
  | nil =>
    rw [append_nil]
    exact checks_pure h
  | cons entry entries ih =>
    rw [← singleton_append,← append_assoc]
    refine (checks_work 1).then fun _ _ => (checks_checkText entry.1 true).then fun _ _ => ?_
    refine checks_compareWith.then fun order hord => ?_
    have haft : order = .gt ↔ after previous entry=true := by
      rcases hord with ⟨rfl,rfl⟩ | ⟨earlier,rfl,hord⟩
      · exact iff_of_true rfl rfl
      · rw [hord.2]
        simp [after]
    by_cases hgt : order = .gt
    · rw [if_neg (not_not.mpr hgt)]
      refine checks_compareWith.then fun order hord => ?_
      by_cases hlt : order = .lt
      · rw [if_neg (not_not.mpr hlt)]
        refine ih _ (h.take (haft.mp hgt) fun b hb => ?_)
        subst hb
        rcases hord with ⟨he,-⟩ | ⟨text,he,hord⟩
        · cases he
        · rw [← some_inj he] at hord
          exact hord.1.mp hlt
      · rw [if_pos hlt]
        refine ih _ (h.skip fun _ => ?_)
        rcases hord with ⟨-,ho⟩ | ⟨text,he,hord⟩
        · exact absurd ho hlt
        · obtain ⟨b,rfl,rfl⟩ := Option.map_eq_some_iff.mp he
          exact ⟨b,rfl,not_lt.mp (mt hord.1.mpr hlt)⟩
    · rw [if_pos hgt]
      exact ih _ (h.skip fun ha => absurd (haft.mpr ha) hgt)

lemma Best.eq_head {entries later : List (Text × Value)} (h : Best previous entries best)
    (hperm : Perm (entries.filter (after previous)) later)
    (hsrt : (later.map Prod.fst).Pairwise (· < ·)) : best=later.head? := by
  cases best with
  | none =>
    have hnil : entries.filter (after previous)=[] :=
      filter_eq_nil_iff.mpr fun e he => by simp [h e he]
    rw [hnil] at hperm
    rw [hperm.nil_eq.symm]
    rfl
  | some best =>
    obtain ⟨hmem,haft,hle⟩ := h
    have hbest : best∈later := hperm.mem_iff.mp (mem_filter.mpr ⟨hmem,haft⟩)
    cases later with
    | nil => cases hbest
    | cons first later =>
      rw [map_cons,pairwise_cons] at hsrt
      rcases mem_cons.mp hbest with rfl | hlat
      · rfl
      · have hfst := mem_filter.mp (hperm.mem_iff.mpr mem_cons_self)
        have hlt := hsrt.1 _ (mem_map_of_mem hlat)
        exact absurd (hle first hfst.1 hfst.2) (not_le.mpr hlt)

end

lemma gives_emit (hs : s.failed=true) (chunks : List (List Octet)) :
    Gives (emit chunks) s fun _ t => t.view = s.view.write chunks.flatten := by
  induction chunks generalizing s with
  | nil => exact .pure (by simp [View.write])
  | cons chunk chunks ih =>
    have hwri : Gives (writeAll chunk) s fun _ t => t.view=s.view.write chunk := by
      unfold writeAll
      split
      · next h => exact .pure (by simp [View.write,h])
      · refine .read (.require hs fun _ => .require hs fun _ =>
          .request hs ?_)
        exact fun _ _ => rfl
    refine hwri.bind fun _ t ht => ?_
    have hfail : t.failed=true := (congrArg View.failed ht).trans hs
    refine (ih hfail).mono (fun _ u hu => ?_) fun _ h => h
    rw [hu,ht,flatten_cons,View.write,View.write,View.write,append_assoc]

lemma stringChunks_flatten (pending bytes : List Octet) : (stringChunks pending bytes).flatten =
      pending++bytes.flatMap Output.escaped++octets "\"" := by
  induction bytes generalizing pending with
  | nil => simp [stringChunks]
  | cons byte bytes ih =>
    rw [stringChunks,flatMap_cons,Output.escaped]
    cases Output.escape byte with
    | none => simp [ih]
    | some escapes => simp [ih]

lemma gives_text (hvec : CompactStrings toVec) (hs : s.failed=true) (t : Text) (key : Bool) :
    Gives (text t key) s fun _ u => u.view = s.view.write (toVec t) := by
  refine (checks_checkText t key).bind hs fun _ u hu _ => ?_
  have hfail : u.failed=true := (congrArg View.failed hu).trans hs
  refine .read (.require hfail fun _ => .modify ?_)
  refine (checks_work t.length).bind hfail fun _ v hv _ => ?_
  have hview : v.view=s.view := hv.trans hu
  have hfailed' : v.failed=true := (congrArg View.failed hview).trans hs
  refine .require hfailed' fun _ => ?_
  refine (gives_emit hfailed' _).mono (fun _ w hw => ?_) fun _ h => h
  rw [hw,hview,hvec,flatten_cons,stringChunks_flatten,nil_append,append_assoc]

end Pllm.Canonical.Stream
