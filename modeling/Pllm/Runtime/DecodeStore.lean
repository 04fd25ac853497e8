import Pllm.Lib.Dict
import Pllm.Lib.Exec

/-! A store of decode states. Rows are pages that all states share, a state is a manifest of its pages,
and an index file names the states that are published. Hashing and encryption are ideal: an identity
stands for what it is computed from, and a file gives back what was written under the same metadata.
Reads, writes, resource estimates and the caller's runtime may raise; each is one request. -/
namespace Pllm.Runtime.DecodeStore
open Pllm.Lib

inductive Kind
  | key
  | value
  deriving DecidableEq

/-- Where a row is kept in a full cache. -/
structure Slot where
  layer : ℕ
  start : ℕ
  kind : Kind
  deriving DecidableEq

section
variable (ρ L : Type)

/-- The content identity of a page. -/
structure PageId where
  slot : Slot
  raw : ρ
  deriving DecidableEq

/-- A frame's name and its digest. -/
structure Record where
  name : ℕ
  digest : ℕ
  deriving DecidableEq

structure Page where
  slot : Slot
  record : Record

structure Node where
  tokens : List ℕ
  record : Record

inductive Phase
  | completedPrefill
  | canonicalIncremental
  | incremental
  deriving DecidableEq

structure Basis where
  phase : Phase
  nativePhase : ℕ
  execution : ℕ
  prefillExtent : ℕ

structure NodeDoc where
  path : List ℕ
  position : ℕ
  pages : List (PageId ρ)
  basis : Basis
  logits : L

structure IndexDoc where
  nodes : Dict (List ℕ) Node
  pages : Dict (PageId ρ) Page

inductive Content
  | row (raw : ρ)
  | node (doc : NodeDoc ρ L)
  | index (doc : IndexDoc ρ)

/-- What a frame is authenticated with. -/
inductive Metadata
  | page (id : PageId ρ) (slot : Slot)
  | node (path : List ℕ)
  | index (revision : ℕ)
  deriving DecidableEq

structure Frame where
  digest : ℕ
  metadata : Metadata ρ
  content : Content ρ L

structure Head where
  revision : ℕ
  record : Record
  deriving DecidableEq

/-- The geometry and the bounds that a store is made with. -/
structure Setting where
  layers : ℕ
  vocab : ℕ
  maximum : ℕ
  maxStaged : ℕ
  maxNodes : ℕ
  maxPages : ℕ
  contract : ℕ

/-- A snapshot to be staged. -/
structure Snapshot where
  position : ℕ
  rows : Slot → ρ
  basis : Basis
  eligible : Bool
  finite : Bool

/-- The last field keeps, for the proofs only, what each ticket was given for. -/
structure Store where
  head : Option Head
  nodes : Dict (List ℕ) Node
  pages : Dict (PageId ρ) Page
  staged : Dict ℕ (Node × Dict (PageId ρ) Page)
  pending : Dict (PageId ρ) Page
  files : ℕ → Option (Frame ρ L)
  made : ℕ
  tickets : ℕ
  hits : ℕ
  misses : ℕ
  publications : ℕ
  offered : ℕ → Option (Node × (Slot → ρ) × L)

inductive Failure
  | valueError
  | outside

end

variable {ρ L : Type}

abbrev Run (ρ L α : Type) := Exec Failure (Store ρ L) α

def Store.new : Store ρ L :=
  ⟨none,Dict.empty,Dict.empty,Dict.empty,Dict.empty,fun _ => none,0,0,0,0,0,fun _ => none⟩

/-- The slots of a state, in the order of its manifest. -/
def Setting.slots (S : Setting) (rows : ℕ) : List Slot :=
  (List.range S.layers).flatMap fun layer => (List.range rows).flatMap fun start =>
    [⟨layer,start,.key⟩,⟨layer,start,.value⟩]

def write (metadata : Metadata ρ) (content : Content ρ L) : Run ρ L Record := do
  Exec.request
  let s ← Exec.read
  Exec.modify fun s => { s with
    files := Function.update s.files s.made (some ⟨s.made,metadata,content⟩)
    made := s.made+1 }
  pure ⟨s.made,s.made⟩

section
variable [DecidableEq ρ]

def read (record : Record) (metadata : Metadata ρ) : Run ρ L (Content ρ L) := do
  Exec.request
  let s ← Exec.read
  let frame ← Exec.expect (s.files record.name) .outside
  Exec.require (frame.digest=record.digest) .valueError
  Exec.require (frame.metadata=metadata) .outside
  pure frame.content

def Content.raw? : Content ρ L → Option ρ
  | .row raw => some raw
  | _ => none

def Content.nodeDoc? : Content ρ L → Option (NodeDoc ρ L)
  | .node doc => some doc
  | _ => none

def Content.indexDoc? : Content ρ L → Option (IndexDoc ρ)
  | .index doc => some doc
  | _ => none

namespace Setting
variable (S : Setting)

def tokens (ids : List ℕ) : Bool :=
  decide (1 ≤ ids.length ∧ ids.length≤S.maximum ∧ ∀ t∈ids,t<S.vocab)

def validBasis (position : ℕ) (basis : Basis) : Bool :=
  decide (basis.phase ≠ .incremental ∧
    (basis.phase = .canonicalIncremental → basis.nativePhase=S.contract) ∧
    position≤basis.prefillExtent ∧ basis.prefillExtent≤S.maximum)

/-- Every page is known and is the one of its slot. -/
def validPages (pages : Dict (PageId ρ) Page) (rows : ℕ) (refs : List (PageId ρ)) : Bool :=
  decide (refs.length = (S.slots rows).length) &&
    (refs.zip (S.slots rows)).all fun x => decide ((pages.get? x.1).map Page.slot = some x.2)

def validNode (pages : Dict (PageId ρ) Page) (ids : List ℕ) (doc : NodeDoc ρ L) : Bool :=
  decide (doc.path=ids ∧ doc.position=ids.length) && S.validPages pages ids.length doc.pages &&
    S.validBasis ids.length doc.basis

def validIndex (doc : IndexDoc ρ) : Bool :=
  decide (doc.nodes.size≤S.maxNodes ∧ doc.pages.size≤S.maxPages) &&
    doc.pages.items.all (fun i => decide (i.2.slot.layer<S.layers ∧ i.2.slot.start<S.maximum)) &&
    doc.nodes.items.all fun i => S.tokens i.2.tokens && decide (i.1=i.2.tokens)

end Setting

/-- `d.update(e)` -/
def update {κ ν : Type} [DecidableEq κ] (d : Dict κ ν) (items : List (κ × ν)) : Dict κ ν :=
  items.foldl (fun d i => d.set i.1 i.2) d

def Store.allPages (s : Store ρ L) : Dict (PageId ρ) Page := update s.pages s.pending.items

/-- A dictionary without some keys. -/
def without {κ ν : Type} (d : Dict κ ν) (out : κ → Bool) : Dict κ ν where
  items := d.items.filter fun i => !out i.1
  nodup := d.nodup.sublist (List.filter_sublist.map _)

variable (S : Setting)

def nodeDoc (node : Node) (pages : Dict (PageId ρ) Page) : Run ρ L (NodeDoc ρ L) := do
  Exec.require (S.tokens node.tokens = true) .valueError
  Exec.request
  let content ← read node.record (.node node.tokens)
  Exec.request
  let doc ← Exec.expect content.nodeDoc? .valueError
  Exec.require (S.validNode pages node.tokens doc = true) .valueError
  pure doc

/-- The pages of a snapshot: those that exist are read back, the others are written. -/
def stagePages (old : Dict (PageId ρ) Page) (rows : Slot → ρ) :
    List Slot → Run ρ L (List (PageId ρ) × Dict (PageId ρ) Page)
  | [] => pure ([],Dict.empty)
  | slot::slots => do
    let id : PageId ρ := ⟨slot,rows slot⟩
    match old.get? id with
    | some page =>
      let content ← read page.record (.page id page.slot)
      Exec.require (content.raw? = some id.raw) .valueError
      let rest ← stagePages old rows slots
      pure (id::rest.1,rest.2)
    | none =>
      let record ← write (.page id slot) (.row id.raw)
      let rest ← stagePages old rows slots
      pure (id::rest.1,rest.2.set id ⟨slot,record⟩)

/-- The node of a path, published or staged. -/
def Store.find (s : Store ρ L) (ids : List ℕ) : Option Node :=
  match s.nodes.get? ids with
  | some node => some node
  | none => (s.staged.items.map fun i => i.2.1).find? fun node => decide (node.tokens=ids)

/-- How many paths are published or staged, with one more. -/
def Store.paths (s : Store ρ L) (ids : List ℕ) : ℕ :=
  ((s.nodes.keys++s.staged.items.map fun i => i.2.1.tokens)++[ids]).dedup.length

variable [DecidableEq L]

def stage (ids : List ℕ) (snapshot : Snapshot ρ) (logits : L) : Run ρ L (Option ℕ) := do
  Exec.require (S.tokens ids = true) .valueError
  Exec.request
  let s ← Exec.read
  Exec.require (s.staged.size<S.maxStaged) .valueError
  Exec.require (snapshot.position=ids.length) .valueError
  Exec.require (snapshot.eligible=true ∧ S.validBasis ids.length snapshot.basis = true) .valueError
  Exec.request
  Exec.require (snapshot.finite=true) .valueError
  Exec.require (s.paths ids ≤ S.maxNodes) .valueError
  let old := s.allPages
  let fresh := (S.slots ids.length).countP fun slot => decide (old.get? ⟨slot,snapshot.rows slot⟩=none)
  Exec.require (old.size+fresh≤S.maxPages) .valueError
  Exec.request
  let (refs,newPages) ← stagePages old snapshot.rows (S.slots ids.length)
  match s.find ids with
  | some node =>
    let doc ← nodeDoc S node old
    Exec.require (doc.pages=refs ∧ doc.logits=logits) .valueError
    pure none
  | none =>
    let record ← write (.node ids) (.node ⟨ids,ids.length,refs,snapshot.basis,logits⟩)
    let node : Node := ⟨ids,record⟩
    Exec.modify fun s => { s with
      staged := s.staged.set s.tickets (node,newPages)
      pending := update s.pending newPages.items
      tickets := s.tickets+1
      offered := Function.update s.offered s.tickets (some (node,snapshot.rows,logits)) }
    pure (some (s.tickets))

/-- The tickets of a call: some, each staged and given once. -/
def ticketsOf (tickets : List ℕ) : Run ρ L Unit := do
  let s ← Exec.read
  Exec.require (1≤tickets.length ∧ tickets.length≤S.maxStaged ∧
    (∀ t∈tickets,s.staged.get? t ≠ none) ∧ tickets.Nodup) .valueError

/-- Pages that no ticket needs any more are forgotten with the last ticket, published ones at once. -/
def Store.drop (s : Store ρ L) (staged : Dict ℕ (Node × Dict (PageId ρ) Page)) : Store ρ L :=
  { s with
    staged := staged
    pending := if staged.items = [] then Dict.empty
      else without s.pending fun id => decide (s.pages.get? id ≠ none) }

def Store.discard (s : Store ρ L) (tickets : Option (List ℕ)) : Store ρ L :=
  match tickets with
  | none => s.drop Dict.empty
  | some tickets => s.drop (tickets.foldl Dict.erase s.staged)

def discard (tickets : Option (List ℕ)) : Run ρ L Unit := do
  match tickets with
  | none => Exec.modify fun s => s.discard none
  | some ts =>
    ticketsOf S ts
    Exec.modify fun s => s.discard (some ts)

/-- The nodes and pages of the tickets, each authenticated. -/
def collect (available : Dict (PageId ρ) Page) :
    List ℕ → IndexDoc ρ → Run ρ L (IndexDoc ρ)
  | [],doc => pure doc
  | ticket::tickets,doc => do
    let s ← Exec.read
    let staged ← Exec.expect (s.staged.get? ticket) .valueError
    let node := staged.1
    let manifest ← nodeDoc S node available
    let found ← Exec.expect (manifest.pages.mapM fun id => (available.get? id).map fun page => (id,page))
      .valueError
    collect available tickets ⟨doc.nodes.set node.tokens node,update doc.pages found⟩

/-- The new index is written before anything is published. -/
def publish (tickets : List ℕ) : Run ρ L Head := do
  let s ← Exec.read
  let doc ← collect S s.allPages tickets ⟨s.nodes,s.pages⟩
  Exec.request
  Exec.require (S.validIndex doc = true) .valueError
  let revision := match s.head with
    | some head => head.revision+1
    | none => 0
  Exec.require (revision<4096) .valueError
  let record ← write (.index revision) (.index doc)
  let head : Head := ⟨revision,record⟩
  Exec.request
  Exec.modify fun s => { s with
    nodes := doc.nodes
    pages := doc.pages
    head := some head
    publications := s.publications+1 }
  Exec.modify fun s => s.discard (some tickets)
  pure head

/-- The tickets are given up also when the publication fails. -/
def commit (tickets : List ℕ) (acknowledged : Bool) : Run ρ L Head := do
  ticketsOf S tickets
  Exec.require (acknowledged=true) .valueError
  Exec.checked (fun s => s.discard (some tickets)) (publish S tickets)

def restoreHead (previous : Option Head) : Run ρ L Unit := do
  Exec.modify fun s => { s with staged := Dict.empty, pending := Dict.empty }
  match previous with
  | none => Exec.modify fun s => { s with nodes := Dict.empty, pages := Dict.empty, head := none }
  | some previous =>
    let s ← Exec.read
    let head ← Exec.expect s.head .valueError
    Exec.require (previous.revision≤head.revision ∧
      (previous.revision=head.revision → previous=head)) .valueError
    let content ← read previous.record (.index previous.revision)
    Exec.request
    let doc ← Exec.expect content.indexDoc? .valueError
    Exec.require (S.validIndex doc = true) .valueError
    Exec.modify fun s => { s with nodes := doc.nodes, pages := doc.pages, head := some previous }

/-- The rows of a manifest, each read and compared with its identity. -/
def lookupRows (pages : Dict (PageId ρ) Page) : List (PageId ρ × Slot) → Run ρ L (List ρ)
  | [] => pure []
  | (id,slot)::rest => do
    let page ← Exec.expect (pages.get? id) .valueError
    let content ← read page.record (.page id page.slot)
    let raw ← Exec.expect content.raw? .valueError
    Exec.require ((⟨slot,raw⟩ : PageId ρ)=id) .valueError
    let rows ← lookupRows pages rest
    pure (raw::rows)

def lookup (ids : List ℕ) : Run ρ L (Option (List ρ × L)) := do
  Exec.require (S.tokens ids = true) .valueError
  let s ← Exec.read
  match s.nodes.get? ids with
  | none =>
    Exec.modify fun s => { s with misses := s.misses+1 }
    pure none
  | some node =>
    Exec.request
    let doc ← nodeDoc S node s.pages
    let rows ← lookupRows s.pages (doc.pages.zip (S.slots ids.length))
    Exec.request
    Exec.modify fun s => { s with hits := s.hits+1 }
    pure (some (rows,doc.logits))

inductive Call (ρ L : Type)
  | stage (ids : List ℕ) (snapshot : Snapshot ρ) (logits : L)
  | commit (tickets : List ℕ) (acknowledged : Bool)
  | discard (tickets : Option (List ℕ))
  | restoreHead (previous : Option Head)
  | lookup (ids : List ℕ)

inductive Answer (ρ L : Type)
  | ticket (t : Option ℕ)
  | head (h : Head)
  | done
  | hit (state : Option (List ρ × L))

def act : Call ρ L → Run ρ L (Answer ρ L)
  | .stage ids snapshot logits => Answer.ticket <$> stage S ids snapshot logits
  | .commit tickets acknowledged => Answer.head <$> commit S tickets acknowledged
  | .discard tickets => (fun _ => Answer.done) <$> discard S tickets
  | .restoreHead previous => (fun _ => Answer.done) <$> restoreHead S previous
  | .lookup ids => Answer.hit <$> lookup S ids

/-- The calls of one owner in turn, with the number of the next request. -/
def run (deny : ℕ → Option Failure) (calls : List (Call ρ L)) : Store ρ L × ℕ :=
  calls.foldl (fun s call => (act S call deny s.1 s.2).2) (Store.new,0)

end

end Pllm.Runtime.DecodeStore
