import Pllm.Lib.Except

/-! JSON values, the recursive writer of their canonical bytes, and the measures that the bounded
walk accounts for. -/
namespace Pllm.Canonical
open List
open Prod (fst)

/-- A byte with its order; `str` values compare as strings of these. -/
abbrev Octet := Fin 256
abbrev Text := List Octet

def octets (s : String) : List Octet := s.toList.map fun c => Fin.ofNat 256 c.toNat

/-- A number, as the pieces in which its `Display` writes it. -/
structure Number where
  pieces : List (List Octet)

def Number.toText (n : Number) : List Octet := n.pieces.flatten

inductive Scalar
  | null
  | bool (value : Bool)
  | number (value : Number)
  | string (text : Text)

inductive Value
  | scalar (value : Scalar)
  | array (values : List Value)
  | object (entries : List (Text × Value))

namespace Value

/-- Recursion over a value: what to make of a scalar, and of the results for the children. -/
def fold {α : Type} (scalar : Scalar → α) (array : List α → α) (object : List (Text × α) → α) :
    Value → α
  | .scalar s => scalar s
  | .array values => array (foldAll values)
  | .object entries => object (foldEntries entries)
where
  foldAll : List Value → List α
    | [] => []
    | v::vs => fold scalar array object v :: foldAll vs
  foldEntries : List (Text × Value) → List (Text × α)
    | [] => []
    | (key,v)::es => (key,fold scalar array object v) :: foldEntries es

section
variable {α : Type} (scalar : Scalar → α) (array : List α → α) (object : List (Text × α) → α)

@[simp] lemma fold_scalar (s : Scalar) : fold scalar array object (.scalar s) = scalar s := by
  rw [fold]

@[simp] lemma fold_array (values : List Value) : fold scalar array object (.array values) =
    array (values.map (fold scalar array object)) := by
  rw [fold]
  congr 1
  induction values with
  | nil => rfl
  | cons v vs ih => rw [fold.foldAll,ih,map_cons]

@[simp] lemma fold_object (entries : List (Text × Value)) : fold scalar array object
    (.object entries) = object (entries.map fun e => (e.1,fold scalar array object e.2)) := by
  rw [fold]
  congr 1
  induction entries with
  | nil => rfl
  | cons e es ih => rw [fold.foldEntries,ih,map_cons]

end

/-- Induction over a value, with a hypothesis for every child. -/
lemma induct {P : Value → Prop} (scalar : ∀ s, P (.scalar s)) (array : ∀ values, (∀ v∈values, P v)
    → P (.array values)) (object : ∀ entries, (∀ e∈entries, P e.2) → P (.object entries)) : ∀ v, P v
  | .scalar s => scalar s
  | .array values => array values fun v _ => induct scalar array object v
  | .object entries => object entries fun e _ => induct scalar array object e.2
termination_by v => sizeOf v
decreasing_by
  · have := sizeOf_lt_of_mem ‹v ∈ values›
    simp only [Value.array.sizeOf_spec]
    omega
  · have := sizeOf_lt_of_mem ‹e ∈ entries›
    obtain ⟨key,v⟩ := e
    simp only [Value.object.sizeOf_spec,Prod.mk.sizeOf_spec] at this ⊢
    omega

end Value

/-- `if index>0 { bytes.push(b',') }`. -/
def comma (index : ℕ) : List Octet := if index>0 then octets "," else []

/-- Items with a comma before each but the first. -/
def separated (items : List (List Octet)) : List Octet :=
  (items.zipIdx.map fun item => comma item.2++item.1).flatten

section
variable (toVec : Text → List Octet)

def scalarBytes : Scalar → List Octet
  | .null => octets "null"
  | .bool value => if value then octets "true" else octets "false"
  | .number value => value.toText
  | .string text => toVec text

/-- The stable sort `sort_by(|left, right| left.0.cmp(right.0))`. -/
def sortEntries {α : Type} (entries : List (Text × α)) : List (Text × α) :=
  entries.insertionSort fun left right => left.1 ≤ right.1

def arrayBytes (items : List (List Octet)) : List Octet :=
  octets "[" ++ separated items++octets "]"

def objectBytes (entries : List (Text × List Octet)) : List Octet :=
  octets "\x7b" ++ separated ((sortEntries entries).map fun e => toVec e.1++octets ":" ++ e.2)
    ++ octets "\x7d"

/-- `write_canonical_value`, over the `serde_json::to_vec` of strings. The sort looks at keys only,
so the values may be written before it. -/
def writeCanonicalValue : Value → List Octet :=
  Value.fold (scalarBytes toVec) arrayBytes (objectBytes toVec)

end

namespace Value

/-- The values in a tree, the tree itself among them. -/
def nodes : Value → ℕ := fold (fun _ => 1) (fun ns => ns.sum+1) (fun es => (es.map Prod.snd).sum+1)

/-- The depth of a tree, whose root is at depth one. -/
def depth : Value → ℕ :=
  fold (fun _ => 1) (fun ds => ds.foldr max 0+1) (fun es => (es.map Prod.snd).foldr max 0+1)

/-- No object of the tree has a key twice. -/
def distinctKeys : Value → Bool :=
  fold (fun _ => true) (fun bs => bs.all id)
    (fun es => decide (es.map Prod.fst).Nodup && es.all Prod.snd)

variable (values : List Value)

lemma nodes_array : (array values).nodes = (values.map nodes).sum+1 := fold_array ..

lemma nodes_object (entries : List (Text × Value)) :
    (object entries).nodes = (entries.map fun e => e.2.nodes).sum+1 := by
  rw [nodes,fold_object,map_map]
  rfl

lemma depth_array : (array values).depth = (values.map depth).foldr max 0+1 := fold_array ..

lemma depth_object (entries : List (Text × Value)) :
    (object entries).depth = (entries.map fun e => e.2.depth).foldr max 0+1 := by
  rw [depth,fold_object,map_map]
  rfl

lemma distinctKeys_array :
    (array values).distinctKeys = true ↔ ∀ v∈values, v.distinctKeys=true := by
  rw [distinctKeys,fold_array,all_map,all_eq_true]
  rfl

lemma distinctKeys_object (entries : List (Text × Value)) : (object entries).distinctKeys = true ↔
      (entries.map fst).Nodup ∧ ∀ e∈entries, e.2.distinctKeys=true := by
  rw [distinctKeys,fold_object,Bool.and_eq_true,decide_eq_true_eq,map_map,all_map,all_eq_true]
  rfl

lemma nodes_pos (v : Value) : 0<v.nodes := by
  cases v <;> simp [nodes]

end Value

section
variable {α : Type}

lemma sortEntries_perm (entries : List (Text × α)) : Perm (sortEntries entries) entries :=
  perm_insertionSort _ _

instance : Std.Total fun (left right : Text × α) => left.1 ≤ right.1 :=
  ⟨fun left right => le_total left.1 right.1⟩

instance : IsTrans (Text × α) fun left right => left.1 ≤ right.1 := ⟨fun _ _ _ => le_trans⟩

lemma sortEntries_pairwise (entries : List (Text × α)) :
    (sortEntries entries).Pairwise fun left right => left.1 ≤ right.1 :=
  pairwise_insertionSort _ entries

lemma sortEntries_map {β : Type} (f : α → β) (entries : List (Text × α)) : sortEntries
    (entries.map fun e => (e.1,f e.2)) = (sortEntries entries).map fun e => (e.1,f e.2) :=
  (map_insertionSort (fun left right : Text × α => left.1 ≤ right.1) (fun left right : Text × β =>
    left.1 ≤ right.1) (fun e : Text × α => (e.1,f e.2)) entries fun _ _ _ _ => Iff.rfl).symm

variable {entries : List (Text × α)}

lemma sortEntries_eq_self
    (h : (entries.map fst).Pairwise (· < ·)) : sortEntries entries = entries :=
  Pairwise.insertionSort_eq ((pairwise_map.mp h).imp le_of_lt)

lemma sortEntries_increasing
    (h : (entries.map fst).Nodup) : ((sortEntries entries).map fst).Pairwise (· < ·) := by
  have hle := pairwise_map.mpr (sortEntries_pairwise entries)
  have hne : ((sortEntries entries).map fst).Nodup :=
    ((sortEntries_perm entries).map fst).nodup_iff.mpr h
  exact hle.imp₂ (fun _ _ => lt_of_le_of_ne) hne

lemma sortEntries_congr {later : List (Text × α)} (hperm : Perm entries later)
    (h : (later.map fst).Pairwise (· < ·)) : sortEntries entries = later := by
  have hkeys : (entries.map fst).Nodup :=
    (hperm.map fst).nodup_iff.mpr (h.imp ne_of_lt)
  have hsrt := pairwise_map.mp (sortEntries_increasing hkeys)
  exact Perm.eq_of_pairwise (fun _ _ _ _ hlt hgt => absurd hgt (lt_asymm hlt)) hsrt
    (pairwise_map.mp h) ((sortEntries_perm entries).trans hperm)

end

open Pllm.Lib

inductive Node
  | json (value : Value)
  | scalar (value : Scalar)
  | array (values : List Node)
  | object (entries : List (Text × Node))

structure Limits where
  maxNodes : ℕ
  maxDepth : ℕ
  maxBytes : ℕ
  maxWorkspaceBytes : ℕ

structure Usage where
  nodes : ℕ
  depth : ℕ
  bytes : ℕ
  workspaceBytes : ℕ

inductive Error
  | nodeLimit | depthLimit | byteLimit | workspaceLimit | workspaceTooSmall | duplicateKey
  | unreachable

structure Frame where
  node : Node
  entered : Bool
  index : ℕ
  previousKey : Option Text

def Frame.new (node : Node) : Frame := ⟨node,false,0,none⟩

/-- The writer collects what it is given, as `Vec<u8>` does. -/
structure Output where
  writer : List Octet
  bytes : ℕ
  limit : ℕ

namespace Output

def raw (bytes : List Octet) (out : Output) : Except Error Output :=
  if out.bytes+bytes.length≤out.limit then
    .ok {out with writer := out.writer++bytes, bytes := out.bytes+bytes.length}
  else .error .byteLimit

def hexDigit (n : ℕ) : Octet := (octets "0123456789abcdef").getD n 0

/-- How a byte inside a string is written, unless it stands for itself. -/
def escape (byte : Octet) : Option (List Octet) :=
  if byte=34 then some (octets "\\\"")
  else if byte=92 then some (octets "\\\\")
  else if byte=8 then some (octets "\\b")
  else if byte=12 then some (octets "\\f")
  else if byte=10 then some (octets "\\n")
  else if byte=13 then some (octets "\\r")
  else if byte=9 then some (octets "\\t")
  else if byte≤31 then
    some (octets "\\u00" ++ [hexDigit (byte.val/16),hexDigit (byte.val%16)])
  else none

/-- The loop over the bytes of a string; `pending` is `text.as_bytes()[start..index]`. -/
def stringLoop (pending : List Octet) : List Octet → Output → Except Error Output
  | [], out => do
    let out ← raw pending out
    raw (octets "\"") out
  | byte::bytes, out =>
    match escape byte with
    | some escaped => do
      let out ← raw pending out
      let out ← raw escaped out
      stringLoop [] bytes out
    | none => stringLoop (pending++[byte]) bytes out

def string (text : Text) (out : Output) : Except Error Output :=
  if text.length+2>out.limit-out.bytes then .error .byteLimit
  else do
    let out ← raw (octets "\"") out
    stringLoop [] text out

def number (n : Number) (out : Output) : Except Error Output :=
  n.pieces.foldlM (fun out piece => raw piece out) out

def scalar : Scalar → Output → Except Error Output
  | .null => raw (octets "null")
  | .bool value => raw (if value then octets "true" else octets "false")
  | .number value => number value
  | .string text => string text

/-- `if index>0 { output.raw(b",")? }`. -/
def separator (index : ℕ) (out : Output) : Except Error Output :=
  if index>0 then raw (octets ",") out else .ok out

end Output

def normalized : Node → Node
  | .json (.scalar s) => .scalar s
  | node => node

/-- What a match on a node distinguishes: a scalar, an array or an object, borrowed or typed. -/
inductive Shape
  | scalar (value : Scalar)
  | array (values : List Node)
  | object (entries : List (Text × Node))

def Node.shape : Node → Shape
  | .json (.scalar s) => .scalar s
  | .json (.array values) => .array (values.map .json)
  | .json (.object entries) => .object (entries.map fun e => (e.1,.json e.2))
  | .scalar s => .scalar s
  | .array values => .array values
  | .object entries => .object entries

/-- One entry against the best key so far, and whether that key occurred again. -/
def selectEntry (previous : Option Text) (best : Option (Text × Node) × Bool)
    (entry : Text × Node) : Option (Text × Node) × Bool :=
  if previous.any fun earlier => decide (entry.1≤earlier) then best
  else match best.1 with
    | none => (some entry,false)
    | some old =>
      if entry.1<old.1 then (some entry,false)
      else if entry.1=old.1 then (some old,true)
      else best

def nextEntry (entries : List (Text × Node)) (previous : Option Text) :
    Except Error (Option (Text × Node)) :=
  let selected := entries.foldl (selectEntry previous) (none,false)
  if selected.2 then .error .duplicateKey else .ok selected.1

/-- The limits, the length of the workspace and the size of a frame. -/
structure Bounds where
  limits : Limits
  slots : ℕ
  frameBytes : ℕ

structure State where
  frames : List Frame
  output : Output
  nodes : ℕ
  depth : ℕ
  workspaceBytes : ℕ

variable (bounds : Bounds)

def checkPush (depth nodes : ℕ) : Except Error ℕ :=
  if nodes≥bounds.limits.maxNodes then .error .nodeLimit
  else if depth>bounds.limits.maxDepth then .error .depthLimit
  else if depth*bounds.frameBytes>bounds.limits.maxWorkspaceBytes then .error .workspaceLimit
  else if depth>bounds.slots then .error .workspaceTooSmall
  else .ok (depth*bounds.frameBytes)

def Shape.children : Shape → ℕ
  | .scalar _ => 0
  | .array values => values.length
  | .object entries => entries.length

/-- The first visit of a frame: a scalar is written and popped, a container is opened. -/
def enter (frame : Frame) (rest : List Frame) (s : State) : Except Error State :=
  if frame.node.shape.children>bounds.limits.maxNodes-s.nodes then .error .nodeLimit
  else match frame.node.shape with
    | .scalar value => do
      let out ← s.output.scalar value
      return {s with frames := rest, output := out}
    | .array _ => do
      let out ← s.output.raw (octets "[")
      return {s with frames := {frame with entered := true}::rest, output := out}
    | .object _ => do
      let out ← s.output.raw (octets "\x7b")
      return {s with frames := {frame with entered := true}::rest, output := out}

/-- The end of a container. -/
def close (closing : List Octet) (rest : List Frame) (s : State) : Except Error State := do
  let out ← s.output.raw closing
  return {s with frames := rest, output := out}

/-- A child gets a frame of its own above the one of its container. -/
def push (frame : Frame) (rest : List Frame) (child : Node) (out : Output) (s : State) :
    Except Error State := do
  let nextDepth := rest.length+1+1
  let bytes ← checkPush bounds nextDepth s.nodes
  return ⟨Frame.new (normalized child)::{frame with index := frame.index+1}::rest,out,s.nodes+1,
    max s.depth nextDepth,max s.workspaceBytes bytes⟩

/-- A later visit: the next child of the container, or its end. -/
def advance (frame : Frame) (rest : List Frame) (s : State) : Except Error State :=
  match frame.node.shape with
  | .scalar _ => .error .unreachable
  | .array values =>
    match values[frame.index]? with
    | none => close (octets "]") rest s
    | some child => do
      let out ← s.output.separator frame.index
      push bounds frame rest child out s
  | .object entries => do
    match ← nextEntry entries frame.previousKey with
    | none => close (octets "\x7d") rest s
    | some (key,child) => do
      let out ← s.output.separator frame.index
      let out ← out.string key
      let out ← out.raw (octets ":")
      push bounds {frame with previousKey := some key} rest child out s

/-- The loop `while depth != 0`, for at most `fuel` rounds. -/
def walkLoop : ℕ → State → Option (Except Error State)
  | 0, _ => none
  | fuel+1, s =>
    match s.frames with
    | [] => some (.ok s)
    | frame::rest =>
      match if frame.entered then advance bounds frame rest s else enter bounds frame rest s with
      | .error e => some (.error e)
      | .ok t => walkLoop fuel t

/-- The usage and the written bytes. -/
def walk (fuel : ℕ) (root : Node) : Option (Except Error (Usage × List Octet)) :=
  match checkPush bounds 1 0 with
  | .error e => some (.error e)
  | .ok bytes =>
    (walkLoop bounds fuel ⟨[Frame.new (normalized root)],⟨[],0,bounds.limits.maxBytes⟩,1,1,bytes⟩).map
      fun result => result.map fun s =>
        (⟨s.nodes,s.depth,s.output.bytes,s.workspaceBytes⟩,s.output.writer)

end Pllm.Canonical

/-! The bounded walk succeeds exactly on the trees without repeated keys that fit the limits, and
then writes what the recursive writer writes. -/
namespace Pllm.Canonical
open Pllm.Lib List

variable {out : Output}

namespace Output

lemma raw_raw (a b : List Octet) (out : Output) :
    (raw a out >>= fun out => raw b out) = raw (a++b) out := by
  unfold raw
  by_cases ha : out.bytes+a.length≤out.limit
  · rw [if_pos ha,ok_bind]
    simp only [length_append,append_assoc,add_assoc]
  · rw [if_neg ha,error_bind,if_neg]
    rw [length_append]
    omega

lemma raw_nil (h : out.bytes≤out.limit) : raw [] out = .ok out := by
  rw [raw,length_nil,add_zero,if_pos h,append_nil]

/-- A byte as it stands inside a written string. -/
def escaped (byte : Octet) : List Octet := (escape byte).getD [byte]

lemma escaped_ne_nil (byte : Octet) : escaped byte ≠ [] := by
  unfold escaped escape
  repeat' split
  all_goals simp [octets]

lemma stringLoop_eq (pending bytes : List Octet) (out : Output) :
    stringLoop pending bytes out = raw (pending++bytes.flatMap escaped++octets "\"") out := by
  induction bytes generalizing pending out with
  | nil => rw [stringLoop,raw_raw,flatMap_nil,append_nil]
  | cons byte bytes ih =>
    rw [stringLoop,flatMap_cons]
    cases hesc : escape byte with
    | none =>
      have : escaped byte=[byte] := by rw [escaped,hesc]; rfl
      simp only [this,ih,append_assoc]
    | some escapes =>
      have : escaped byte=escapes := by rw [escaped,hesc]; rfl
      simp only [ih,this,nil_append]
      rw [← bind_assoc,raw_raw,raw_raw]
      simp only [append_assoc]

end Output

/-- How `serde_json::to_vec` writes a string: UTF-8 as it is, with quotes, backslashes and control
characters escaped. -/
def CompactStrings (toVec : Text → List Octet) : Prop :=
  ∀ text, toVec text = octets "\"" ++ text.flatMap Output.escaped++octets "\""

section
variable {toVec : Text → List Octet} (hvec : CompactStrings toVec)
include hvec

lemma length_toVec (text : Text) : text.length+2 ≤ (toVec text).length := by
  have hbody : text.length ≤ (text.flatMap Output.escaped).length := by
    induction text with
    | nil => exact Nat.zero_le _
    | cons byte bytes ih =>
      have := length_pos_of_ne_nil (Output.escaped_ne_nil byte)
      rw [flatMap_cons,length_append,length_cons]
      omega
  have hquo : (octets "\"").length=1 := rfl
  rw [hvec,length_append,length_append]
  omega

lemma string_eq (h : out.bytes≤out.limit) (text : Text) :
    out.string text = out.raw (toVec text) := by
  have hlen := length_toVec hvec text
  unfold Output.string
  split
  · rw [Output.raw,if_neg]
    omega
  · have hloop : Output.stringLoop [] text =
        Output.raw (text.flatMap Output.escaped++octets "\"") := by
      funext out
      rw [Output.stringLoop_eq,nil_append]
    rw [hloop,hvec]
    exact Output.raw_raw _ _ _

lemma scalar_eq (h : out.bytes≤out.limit) (s : Scalar) :
    out.scalar s = out.raw (scalarBytes toVec s) := by
  cases s with
  | null => rfl
  | bool value => cases value <;> rfl
  | number n =>
    obtain ⟨pieces⟩ := n
    change pieces.foldlM (fun out piece => Output.raw piece out) out=out.raw pieces.flatten
    induction pieces generalizing out with
    | nil => exact (Output.raw_nil h).symm
    | cons piece pieces ih =>
      rw [foldlM_cons,flatten_cons,← Output.raw_raw]
      by_cases hp : out.bytes+piece.length≤out.limit
      · have hraw : out.raw piece = .ok {out with
            writer := out.writer++piece, bytes := out.bytes+piece.length} := if_pos hp
        rw [hraw,ok_bind]
        exact ih hp
      · have hraw : out.raw piece = .error .byteLimit := if_neg hp
        rw [hraw,error_bind,error_bind]
  | string text => exact string_eq hvec h text

end

lemma separator_eq (h : out.bytes≤out.limit) (index : ℕ) :
    out.separator index = out.raw (comma index) := by
  unfold Output.separator comma
  split
  · rfl
  · exact (Output.raw_nil h).symm

/-- What the scan knows of the entries that it has not skipped. -/
def Selected (entries : List (Text × Node)) (best : Option (Text × Node) × Bool) : Prop :=
  match best.1 with
  | none => entries=[] ∧ best.2=false
  | some old => ∃ others, List.Perm entries (old::others) ∧ (∀ e∈others, old.1≤e.1) ∧
      (best.2=true ↔ old.1 ∈ others.map Prod.fst)

/-- An entry that the scan does not skip. -/
def after {α : Type} (previous : Option Text) (entry : Text × α) : Bool :=
  previous.all fun earlier => decide (earlier<entry.1)

section
variable {previous : Option Text} {entries : List (Text × Node)}

lemma selectEntry_selected {best : Option (Text × Node) × Bool} (h : Selected entries best)
    (entry : Text × Node) :
    Selected (entries++[entry].filter (after previous)) (selectEntry previous best entry) := by
  have haft : (previous.any fun earlier => decide (entry.1≤earlier)) = !after previous entry := by
    cases previous with
    | none => rfl
    | some earlier => simp only [after,Option.any_some,Option.all_some,← decide_not,not_lt]
  unfold selectEntry
  rw [haft]
  cases hskip : after previous entry with
  | false =>
    have hnil : [entry].filter (after previous)=[] := by simp [hskip]
    rw [hnil,append_nil]
    exact h
  | true =>
    have hkeep : [entry].filter (after previous)=[entry] := by simp [hskip]
    rw [hkeep]
    have hperm : Perm (entries++[entry]) (entry::entries) := perm_append_comm
    obtain ⟨old | old,duplicate⟩ := best
    · obtain ⟨rfl,-⟩ := h
      exact ⟨[],hperm,nofun,by simp⟩
    · obtain ⟨others,hoth,hle,hdup⟩ := h
      have hcons : Perm (entries++[entry]) (entry::old::others) := hperm.trans (hoth.cons _)
      simp only [Bool.not_true,Bool.false_eq_true,if_false]
      split
      · next hlt =>
        refine ⟨old::others,hcons,?_,?_⟩
        · exact forall_mem_cons.mpr ⟨hlt.le,fun e he => hlt.le.trans (hle e he)⟩
        · refine iff_of_false Bool.false_ne_true fun hmem => ?_
          obtain ⟨e,he,hkey⟩ := mem_map.mp hmem
          rcases mem_cons.mp he with rfl | he
          · exact hlt.ne' hkey
          · exact (hlt.trans_le (hle e he)).ne' hkey
      · next hlt =>
        have hge : old.1≤entry.1 := not_lt.mp hlt
        split
        · next heq =>
          refine ⟨entry::others,hcons.trans (.swap _ _ _),forall_mem_cons.mpr ⟨hge,hle⟩,?_⟩
          exact iff_of_true rfl (mem_cons.mpr (.inl heq.symm))
        · next hne =>
          refine ⟨entry::others,hcons.trans (.swap _ _ _),forall_mem_cons.mpr ⟨hge,hle⟩,?_⟩
          rw [map_cons,mem_cons,or_iff_right (Ne.symm hne)]
          exact hdup

lemma foldl_selected (previous : Option Text) (entries : List (Text × Node)) : Selected
    (entries.filter (after previous)) (entries.foldl (selectEntry previous) (none,false)) := by
  induction entries using reverseRecOn with
  | nil => exact ⟨rfl,rfl⟩
  | append_singleton entries entry ih =>
    rw [foldl_concat,filter_append]
    exact selectEntry_selected ih entry

/-- The scan finds the head of the sorted rest, or that its key stands there twice. -/
lemma nextEntry_cons {rest : List (Text × Node)} {entry : Text × Node}
    (hperm : Perm (entries.filter (after previous)) (entry::rest))
    (hsrt : (entry::rest).Pairwise fun left right => left.1 ≤ right.1) :
    nextEntry entries previous =
      if entry.1 ∈ rest.map Prod.fst then .error .duplicateKey else .ok (some entry) := by
  have hsel := foldl_selected previous entries
  unfold nextEntry
  generalize entries.foldl (selectEntry previous) (none,false)=best at hsel ⊢
  obtain ⟨old | old,duplicate⟩ := best
  · rw [hsel.1] at hperm
    cases hperm.nil_eq
  · obtain ⟨others,hoth,hle,hdup⟩ := hsel
    have hboth : Perm (old::others) (entry::rest) := hoth.symm.trans hperm
    have hhead := (pairwise_cons.mp hsrt).1
    have hkey : old.1=entry.1 := by
      apply le_antisymm
      · rcases mem_cons.mp (hboth.mem_iff.mpr mem_cons_self) with h | h
        · exact h ▸ le_rfl
        · exact hle _ h
      · rcases mem_cons.mp (hboth.mem_iff.mp mem_cons_self) with h | h
        · exact h ▸ le_rfl
        · exact hhead _ h
    have hkeys : Perm (others.map Prod.fst) (rest.map Prod.fst) := by
      have := hboth.map Prod.fst
      rw [map_cons,hkey] at this
      exact this.cons_inv
    have haga : duplicate=true ↔ entry.1 ∈ rest.map Prod.fst := by
      rw [← hkeys.mem_iff,← hkey]
      exact hdup
    by_cases h : duplicate=true
    · rw [if_pos h,if_pos (haga.mp h)]
    · have hfrs := mt haga.mpr h
      rw [if_neg h,if_neg hfrs]
      rcases mem_cons.mp (hboth.mem_iff.mpr mem_cons_self) with he | he
      · rw [he]
      · exact absurd (hkeys.mem_iff.mp (mem_map_of_mem he)) hfrs

lemma nextEntry_nil (hperm : Perm (entries.filter (after previous)) []) :
    nextEntry entries previous = .ok none := by
  have hsel := foldl_selected previous entries
  rw [hperm.eq_nil] at hsel
  unfold nextEntry
  generalize entries.foldl (selectEntry previous) (none,false)=best at hsel ⊢
  obtain ⟨old | old,duplicate⟩ := best
  · obtain ⟨-,rfl⟩ : _ ∧ duplicate=false := hsel
    rfl
  · obtain ⟨others,hoth,-⟩ := hsel
    cases hoth.nil_eq

/-- Once the head is taken, the rest is what comes after its key. -/
lemma filter_after_cons {α : Type} {entries rest : List (Text × α)} {entry : Text × α} (hperm :
    Perm (entries.filter (after previous)) (entry::rest)) (hsrt : (entry::rest).Pairwise fun left
    right => left.1 ≤ right.1) (hfrs : entry.1 ∉ rest.map Prod.fst) : Perm (entries.filter (after
    (some entry.1))) rest := by
  have hmem : entry ∈ entries.filter (after previous) := hperm.mem_iff.mpr mem_cons_self
  have hear := (mem_filter.mp hmem).2
  have hfil := hperm.filter (after (some entry.1))
  rw [filter_filter] at hfil
  have hleft : (entries.filter fun e => after (some entry.1) e && after previous e) =
      entries.filter (after (some entry.1)) := by
    refine filter_congr fun e _ => ?_
    cases previous with
    | none => simp [after]
    | some earlier =>
      simp only [after,Option.all_some,decide_eq_true_eq] at hear ⊢
      by_cases h : entry.1<e.1
      · simp [hear.trans h]
      · simp [h]
  have hrt : (entry::rest).filter (after (some entry.1))=rest := by
    rw [filter_cons_of_neg (by simp [after]),filter_eq_self]
    intro e he
    have hle := rel_of_pairwise_cons hsrt he
    have hne : entry.1≠e.1 := fun h => hfrs (h ▸ mem_map_of_mem he)
    simp [after,lt_of_le_of_ne hle hne]
  rwa [hleft,hrt] at hfil

end

end Pllm.Canonical
