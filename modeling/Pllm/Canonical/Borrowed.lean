import Pllm.Canonical.Value
import Pllm.Lib.Exec

/-! The bounded traversal of borrowed values, in sorted or in native order, and the equality that
replays two sorted traversals under one meter. -/
namespace Pllm.Canonical.Borrowed
open Pllm.Lib Pllm.Lib.Exec

inductive Order
  | sorted | native

structure Limits where
  maxNodes : ℕ
  maxDepth : ℕ
  maxBytes : ℕ
  maxStringBytes : ℕ
  maxKeyBytes : ℕ
  maxWork : ℕ
  maxWorkspaceBytes : ℕ

structure Usage where
  nodes : ℕ
  depth : ℕ
  bytes : ℕ
  work : ℕ
  objectCandidates : ℕ
  deriving DecidableEq

inductive Error
  | overflow | nodeLimit | depthLimit | byteLimit | stringLimit | keyLimit | workLimit
  | workspaceLimit | workspaceTooSmall
  deriving DecidableEq

structure Meter where
  limits : Limits
  usage : Usage

abbrev Op (α : Type) : Type := Exec Error Meter α

/-- `checked_add` at the width of `usize`. -/
def add (a b : ℕ) : Op ℕ := do
  require (a+b<2^64) .overflow
  pure (a+b)

def work (amount : ℕ) : Op Unit := do
  let s ← read
  let next ← add s.usage.work amount
  require (next ≤ s.limits.maxWork) .workLimit
  modify fun s => {s with usage := {s.usage with work := next}}

def bytes (amount : ℕ) : Op Unit := do
  let s ← read
  let next ← add s.usage.bytes amount
  require (next ≤ s.limits.maxBytes) .byteLimit
  modify fun s => {s with usage := {s.usage with bytes := next}}

def textLimit (text : Text) (key : Bool) : Op Unit := do
  let s ← read
  require (¬(key=true ∧ text.length>s.limits.maxKeyBytes)) .keyLimit
  require (text.length ≤ s.limits.maxStringBytes) .stringLimit

def text (t : Text) (key : Bool) : Op Unit := do
  textLimit t key
  bytes t.length

def compareText (a b : Text) (key : Bool) : Op Ordering := do
  textLimit a key
  textLimit b key
  let span ← add (min a.length b.length) 1
  work span
  pure (compareOfLessAndEq a b)

def candidate : Op Unit := do
  work 1
  let s ← read
  let next ← add s.usage.objectCandidates 1
  modify fun s => {s with usage := {s.usage with objectCandidates := next}}

/-- How a key compares with an earlier one, when there is one; `without` stands for its absence. -/
def compareWith (without : Ordering) (key : Text) : Option Text → Op Ordering
  | none => pure without
  | some earlier => compareText key earlier true

/-- The scan of `Selection::run` for the least key after `previous`. -/
def select (previous : Option Text) : Option (Text × Value) → List (Text × Value) →
    Op (Option (Text × Value))
  | best, [] => pure best
  | best, entry::entries => do
    candidate
    textLimit entry.1 true
    let order ← compareWith .gt entry.1 previous
    if order ≠ .gt then select previous best entries
    else do
      let order ← compareWith .lt entry.1 (best.map Prod.fst)
      if order ≠ .lt then select previous best entries
      else select previous (some entry) entries

/-- The writes of `NumberCounter`, with the bytes that it has counted. -/
def number (counted : ℕ) : List (List Octet) → Op ℕ
  | [] => pure counted
  | piece::pieces => do
    let counted ← add counted piece.length
    bytes piece.length
    work piece.length
    number counted pieces

inductive Event
  | value (value : Value) (depth : ℕ) (numberBytes : ℕ)
  | key (key : Text) (depth : ℕ)

/-- A live frame; `iterator` holds the entries that the iterator of a native frame has left. -/
structure Frame where
  value : Value
  entered : Bool
  index : ℕ
  previous : Option Text
  pending : Option Value
  iterator : List (Text × Value)

/-- A frame as `reset` stores it. -/
def Frame.new (value : Value) : Frame := ⟨value,false,0,none,none,[]⟩

/-- The live part of the workspace, with the innermost frame first. -/
structure Cursor where
  order : Order
  slots : ℕ
  stack : List Frame

def Cursor.new (order : Order) (slots : ℕ) (root : Value) : Op Cursor := do
  require (slots≠0) .workspaceTooSmall
  pure ⟨order,slots,[Frame.new root]⟩

/-- The stack with a frame for a child on it. -/
def push (slots : ℕ) (stack : List Frame) (child : Value) : Op (List Frame) := do
  let depth ← add stack.length 1
  let s ← read
  require (depth ≤ s.limits.maxDepth) .depthLimit
  require (depth ≤ slots) .workspaceTooSmall
  pure (Frame.new child::stack)

/-- What the payload of a value adds; the count is the one of a number. -/
def payload : Value → Op ℕ
  | .scalar (.string t) => do
    text t false
    pure 0
  | .scalar (.number n) => number 0 n.pieces
  | _ => pure 0

/-- The first visit of a frame. -/
def enter (order : Order) (frame : Frame) (rest : List Frame) : Op (Option Event × List Frame) := do
  let s ← read
  require (rest.length+1 ≤ s.limits.maxDepth) .depthLimit
  let nodes ← add s.usage.nodes 1
  require (nodes ≤ s.limits.maxNodes) .nodeLimit
  modify fun s => {s with
    usage := {s.usage with nodes := nodes, depth := max s.usage.depth (rest.length+1)}}
  let numberBytes ← payload frame.value
  let iterator := match order, frame.value with
    | .native, .object entries => entries
    | _, _ => frame.iterator
  pure (some (.value frame.value (rest.length+1) numberBytes),
    {frame with entered := true, iterator := iterator}::rest)

/-- The next entry of an object, and what its iterator has left. -/
def nextEntry (order : Order) (frame : Frame) (entries : List (Text × Value)) :
    Op (Option (Text × Value) × List (Text × Value)) :=
  match order with
  | .sorted => do
    let selected ← select frame.previous none entries
    pure (selected,frame.iterator)
  | .native =>
    match frame.iterator with
    | [] => pure (none,[])
    | entry::later => do
      candidate
      textLimit entry.1 true
      pure (some entry,later)

/-- A later visit of a frame. -/
def resume (order : Order) (slots : ℕ) (frame : Frame) (rest : List Frame) :
    Op (Option Event × List Frame) :=
  match frame.value with
  | .scalar _ => pure (none,rest)
  | .array values =>
    match values[frame.index]? with
    | some child => do
      let index ← add frame.index 1
      let stack ← push slots ({frame with index := index}::rest) child
      pure (none,stack)
    | none => pure (none,rest)
  | .object entries =>
    match frame.pending with
    | some child => do
      let stack ← push slots ({frame with pending := none}::rest) child
      pure (none,stack)
    | none => do
      let (selected,iterator) ← nextEntry order frame entries
      match selected with
      | some (key,child) => do
        text key true
        pure (some (.key key (rest.length+1)),
          {frame with previous := some key, pending := some child, iterator := iterator}::rest)
      | none => pure (none,rest)

def visit (order : Order) (slots : ℕ) (frame : Frame) (rest : List Frame) :
    Op (Option Event × List Frame) :=
  if frame.entered then resume order slots frame rest else enter order frame rest

/-- The loop of `next`, for at most so many rounds. -/
def nextLoop : ℕ → Cursor → Op (Option Event × Cursor)
  | 0, _ => fail .workLimit
  | rounds+1, c =>
    match c.stack with
    | [] => pure (none,c)
    | frame::rest => do
      work 1
      let (event,stack) ← visit c.order c.slots frame rest
      match event with
      | some event => pure (some event,{c with stack := stack})
      | none => nextLoop rounds {c with stack := stack}

/-- Every round costs a unit of work, so that no loop has more rounds than these. -/
def rounds (limits : Limits) : ℕ := limits.maxWork+1

def Cursor.next (c : Cursor) : Op (Option Event × Cursor) := do
  let s ← read
  nextLoop (rounds s.limits) c

/-- `while next()?.is_some()`, for at most so many rounds. -/
def drain : ℕ → Cursor → Op Unit
  | 0, _ => fail .workLimit
  | rounds+1, c => do
    let (event,c) ← c.next
    match event with
    | some _ => drain rounds c
    | none => pure ()

/-- How `serde_json` holds a number: a `u64`, a negative `i64` or the bits of a finite `f64`. -/
inductive Representation
  | posInt (value : ℕ)
  | negInt (value : ℤ)
  | float (bits : BitVec 64)

/-- Finite floats are equal when their bits are, or when both are zeros. -/
def Representation.same : Representation → Representation → Bool
  | .posInt a, .posInt b => a=b
  | .negInt a, .negInt b => a=b
  | .float a, .float b => a=b || (a <<< 1=0 && b <<< 1=0)
  | _, _ => false

section
variable (representation : Number → Representation)

def sameEvent : Event → Event → Op Bool
  | .key a _, .key b _ => do
    work 1
    let order ← compareText a b true
    pure (order = .eq)
  | .value a _ ab, .value b _ bb => do
    work 1
    match a, b with
    | .scalar .null, .scalar .null => pure true
    | .scalar (.bool a), .scalar (.bool b) => pure (a=b)
    | .scalar (.number a), .scalar (.number b) => do
      let span ← add (min ab bb) 1
      work span
      pure ((representation a).same (representation b))
    | .scalar (.string a), .scalar (.string b) => do
      let order ← compareText a b false
      pure (order = .eq)
    | .array a, .array b => pure (a.length=b.length)
    | .object a, .object b => pure (a.length=b.length)
    | _, _ => pure false
  | _, _ => do
    work 1
    pure false

/-- The comparing replay, for at most so many rounds. -/
def replay : ℕ → Cursor → Cursor → Op Bool
  | 0, _, _ => fail .workLimit
  | rounds+1, left, right => do
    let (leftEvent,left) ← left.next
    let (rightEvent,right) ← right.next
    match leftEvent, rightEvent with
    | none, none => pure true
    | some a, some b => do
      let equal ← sameEvent representation a b
      if equal then replay rounds left right else pure false
    | _, _ => pure false

/-- Both preflights and the replay. -/
def compareValues (leftSlots rightSlots : ℕ) (left right : Value) : Op Bool := do
  let leftCursor ← Cursor.new .sorted leftSlots left
  let rightCursor ← Cursor.new .sorted rightSlots right
  let s ← read
  drain (rounds s.limits) leftCursor
  drain (rounds s.limits) rightCursor
  replay representation (rounds s.limits) leftCursor rightCursor

/-- Check a quote of the logical workspace, and run under a new meter. -/
def metered {α : Type} (resources : Except Error ℕ) (limits : Limits) (x : Op α) :
    Except Error (α × Usage) := do
  let logicalWorkspaceBytes ← resources
  if logicalWorkspaceBytes>limits.maxWorkspaceBytes then .error .workspaceLimit
  else
    let ran := x (fun _ => none) ⟨limits,⟨0,0,0,0,0⟩⟩ 0
    let result ← ran.1
    .ok (result,ran.2.1.usage)

def structuralEq (resources : Except Error ℕ) (limits : Limits) (leftSlots rightSlots : ℕ)
    (left right : Value) : Except Error (Bool × Usage) :=
  metered resources limits (compareValues representation leftSlots rightSlots left right)

end

/-- `preflight` in sorted and `preflight_native` in native order. -/
def preflight (order : Order) (resources : Except Error ℕ) (limits : Limits) (slots : ℕ)
    (value : Value) : Except Error (Unit × Usage) :=
  metered resources limits do
    let cursor ← Cursor.new order slots value
    let s ← read
    drain (rounds s.limits) cursor

end Pllm.Canonical.Borrowed
