import Pllm.Runtime.DecodeStore

/-! The pages of every staged and every published state resolve after every run of calls, and a lookup
gives back what was staged. -/
namespace Pllm.Runtime.DecodeStore
open Pllm.Lib Exec List Option Function
open Dict (get?_eq_some get?_set)

section
variable {κ ν : Type} [DecidableEq κ]

variable {d : Dict κ ν} {k : κ} {items : List (κ × ν)}

lemma get?_update_old (items : List (κ × ν)) (h : d.get? k ≠ none) :
    (update d items).get? k ≠ none := by
  induction items generalizing d with
  | nil => exact h
  | cons i items ih =>
    refine ih ?_
    rw [get?_set]
    split
    · exact some_ne_none _
    · exact h

lemma get?_update_new {i : κ × ν} (h : i∈items) : (update d items).get? i.1 ≠ none := by
  induction items generalizing d with
  | nil => cases h
  | cons j items ih =>
    rcases mem_cons.mp h with rfl | h
    · refine get?_update_old items ?_
      rw [get?_set,if_pos rfl]
      exact some_ne_none _
    · exact ih h

lemma get?_update {v : ν} (h : (update d items).get? k = some v) :
    (k,v)∈items ∨ d.get? k = some v := by
  induction items generalizing d with
  | nil => exact .inr h
  | cons i items ih =>
    rcases ih h with m | found
    · exact .inl (mem_cons_of_mem i m)
    · rw [get?_set] at found
      split at found
      · next eq =>
        cases found
        exact .inl (eq ▸ mem_cons_self)
      · exact .inr found

lemma get?_without (d : Dict κ ν) (out : κ → Bool) (k : κ) :
    (without d out).get? k = if out k then none else d.get? k := by
  apply ext
  intro v
  rw [get?_eq_some]
  split
  · next gone => simp [without,gone]
  · next kept => simp [without,kept,get?_eq_some]

lemma get?_erases (ks : List κ) (d : Dict κ ν) (k : κ) :
    (ks.foldl Dict.erase d).get? k = if k∈ks then none else d.get? k := by
  induction ks generalizing d with
  | nil => rfl
  | cons j ks ih =>
    rw [foldl_cons,ih,Dict.get?_erase]
    by_cases eq : k=j
    · simp [eq]
    · simp [eq]

end

variable {i : ℕ} {α β : Type} {basis : Basis}

lemma mapM_pairs {f : α → Option β} {l : List α} {found : List (α × β)}
    (h : l.mapM (fun a => (f a).map fun b => (a,b)) = some found) :
    (∀ a∈l,∃ b,(a,b)∈found) ∧ ∀ x∈found,f x.1 = some x.2 := by
  induction l generalizing found with
  | nil =>
    cases h
    exact ⟨fun a m => absurd m not_mem_nil,fun x m => absurd m not_mem_nil⟩
  | cons a l ih =>
    rw [mapM_cons] at h
    obtain ⟨x,first,h⟩ := bind_eq_some_iff.mp h
    obtain ⟨rest,second,h⟩ := bind_eq_some_iff.mp h
    obtain ⟨b,value,rfl⟩ := map_eq_some_iff.mp first
    cases h
    obtain ⟨all,right⟩ := ih second
    refine ⟨fun c m => ?_,fun y m => ?_⟩
    · rcases mem_cons.mp m with rfl | m
      · exact ⟨b,mem_cons_self⟩
      · obtain ⟨d,member⟩ := all c m
        exact ⟨d,mem_cons_of_mem _ member⟩
    · rcases mem_cons.mp m with rfl | m
      · exact value
      · exact right y m

variable {ρ L : Type}

/-- A file that holds what it should. -/
def Holds (files : ℕ → Option (Frame ρ L)) (record : Record) (metadata : Metadata ρ)
    (content : Content ρ L) : Prop :=
  files record.name = some ⟨record.digest,metadata,content⟩

def PageOk (files : ℕ → Option (Frame ρ L)) (id : PageId ρ) (page : Page) : Prop :=
  page.slot=id.slot ∧ Holds files page.record (.page id id.slot) (.row id.raw)

/-- The pages of a state. -/
def refs (S : Setting) (node : Node) (rows : Slot → ρ) : List (PageId ρ) :=
  (S.slots node.tokens.length).map fun slot => ⟨slot,rows slot⟩

/-- A node whose file holds the manifest of what its ticket was given for. -/
structure NodeOk (S : Setting) (s : Store ρ L) (t : ℕ) (node : Node) (rows : Slot → ρ) (logits : L) :
    Prop where
  offered : s.offered t = some (node,rows,logits)
  tokens : S.tokens node.tokens = true
  manifest : ∃ basis,S.validBasis node.tokens.length basis = true ∧
    Holds s.files node.record (.node node.tokens)
      (.node ⟨node.tokens,node.tokens.length,refs S node rows,basis,logits⟩)

/-- Files and tickets are never taken back. -/
structure Grows (s t : Store ρ L) : Prop where
  files : ∀ n frame,s.files n = some frame → t.files n = some frame
  offered : ∀ i x,s.offered i = some x → t.offered i = some x

lemma Grows.refl (s : Store ρ L) : Grows s s := ⟨fun _ _ h => h,fun _ _ h => h⟩

variable {s t u : Store ρ L}

lemma Grows.trans (h : Grows s t) (h' : Grows t u) : Grows s u :=
  ⟨fun n f e => h'.files n f (h.files n f e),fun i x e => h'.offered i x (h.offered i x e)⟩

lemma Grows.page (h : Grows s t) {id : PageId ρ} {page : Page}
    (ok : PageOk s.files id page) : PageOk t.files id page := ⟨ok.1,h.files _ _ ok.2⟩

variable {S : Setting} {rows : Slot → ρ} {logits : L}

lemma Grows.node (h : Grows s t) {node : Node}
    (ok : NodeOk S s i node rows logits) : NodeOk S t i node rows logits := by
  obtain ⟨basis,valid,file⟩ := ok.manifest
  exact ⟨h.offered _ _ ok.offered,ok.tokens,basis,valid,h.files _ _ file⟩

/-- Only files were written. -/
structure Extends (s t : Store ρ L) : Prop where
  rest : t = { s with files := t.files, made := t.made }
  files : ∀ n frame,s.files n = some frame → t.files n = some frame
  named : ∀ n frame,t.files n = some frame → n<t.made ∧ frame.digest=n

namespace Extends
variable {s t : Store ρ L} (w : Extends s t)
include w

lemma grows : Grows s t := by
  refine ⟨w.files,fun i x h => ?_⟩
  rw [w.rest]
  exact h

lemma nodes : t.nodes=s.nodes := by rw [w.rest]

lemma pages : t.pages=s.pages := by rw [w.rest]

lemma pending : t.pending=s.pending := by rw [w.rest]

lemma staged : t.staged=s.staged := by rw [w.rest]

lemma offered : t.offered=s.offered ∧ t.tickets=s.tickets := by
  rw [w.rest]
  exact ⟨rfl,rfl⟩

end Extends

/-- Only files were written, and none of them is an index. -/
structure Wrote (s t : Store ρ L) : Prop extends Extends s t where
  indexes : ∀ n frame doc,t.files n = some frame → frame.content = .index doc →
    s.files n = some frame

lemma Wrote.trans (w : Wrote s t) (w' : Wrote t u) : Wrote s u := by
  refine ⟨⟨?_,fun n f h => w'.files n f (w.files n f h),w'.named⟩,fun n f d h c =>
    w.indexes n f d (w'.indexes n f d h c) c⟩
  rw [w'.rest,w.rest]

section
variable [DecidableEq ρ]

structure IndexOk (S : Setting) (s : Store ρ L) (nodes : Dict (List ℕ) Node)
    (pages : Dict (PageId ρ) Page) : Prop where
  nodes : ∀ ids node,nodes.get? ids = some node → node.tokens=ids ∧
    ∃ t rows logits,NodeOk S s t node rows logits ∧ ∀ id ∈ refs S node rows,pages.get? id ≠ none
  pages : ∀ id page,pages.get? id = some page → PageOk s.files id page

/-- The invariant. Index files stay what they were when they were written, so that restoring one gives
pages that resolve. -/
structure Inv (S : Setting) (s : Store ρ L) : Prop where
  files : ∀ n frame,s.files n = some frame → n < s.made ∧ frame.digest=n
  indexes : ∀ n frame doc,s.files n = some frame → frame.content = .index doc →
    IndexOk S s doc.nodes doc.pages
  published : IndexOk S s s.nodes s.pages
  pending : ∀ id page,s.pending.get? id = some page → PageOk s.files id page
  staged : ∀ t x,s.staged.get? t = some x → ∃ rows logits,NodeOk S s t x.1 rows logits ∧
    ∀ id ∈ refs S x.1 rows,s.pages.get? id ≠ none ∨ s.pending.get? id ≠ none
  tickets : ∀ t,s.offered t ≠ none → t < s.tickets

section
variable {S : Setting} {s t : Store ρ L} {nodes : Dict (List ℕ) Node}

lemma Grows.index (h : Grows s t) {pages : Dict (PageId ρ) Page}
    (ok : IndexOk S s nodes pages) : IndexOk S t nodes pages := by
  refine ⟨fun ids node found => ?_,fun id page found => h.page (ok.pages id page found)⟩
  obtain ⟨same,i,rows,logits,node,closed⟩ := ok.nodes ids node found
  exact ⟨same,i,rows,logits,h.node node,closed⟩

lemma Inv.extends (inv : Inv S s) (w : Extends s t) (indexes : ∀ n frame doc,t.files n =
    some frame → frame.content = .index doc → IndexOk S t doc.nodes doc.pages) : Inv S t := by
  have g := w.grows
  refine ⟨w.named,indexes,?_,?_,?_,?_⟩
  · rw [w.nodes,w.pages]
    exact g.index inv.published
  · intro id page found
    rw [w.pending] at found
    exact g.page (inv.pending id page found)
  · intro i x found
    rw [w.staged] at found
    obtain ⟨rows,logits,node,closed⟩ := inv.staged i x found
    rw [w.pages,w.pending]
    exact ⟨rows,logits,g.node node,closed⟩
  · rw [w.offered.1,w.offered.2]
    exact inv.tickets

lemma Inv.wrote (inv : Inv S s) (w : Wrote s t) : Inv S t :=
  inv.extends w.toExtends fun n f d h c => w.grows.index (inv.indexes n f d (w.indexes n f d h c) c)

lemma Inv.same (inv : Inv S s) : Wrote s s :=
  ⟨⟨rfl,fun _ _ h => h,inv.files⟩,fun _ _ _ h _ => h⟩

end

/-- Every file has its own name as its digest. -/
def Named (s : Store ρ L) : Prop := ∀ n frame,s.files n = some frame → n < s.made ∧ frame.digest=n

omit [DecidableEq ρ] in
lemma grows_write (named : Named s) (metadata : Metadata ρ) (content : Content ρ L) :
    let t := { s with
      files := Function.update s.files s.made (some ⟨s.made,metadata,content⟩)
      made := s.made+1 }
    (∀ n frame,s.files n = some frame → t.files n = some frame) ∧ Named t ∧
      Holds t.files ⟨s.made,s.made⟩ metadata content := by
  intro t
  have file (n : ℕ) : t.files n=if n=s.made then some ⟨s.made,metadata,content⟩ else s.files n :=
    update_apply _ _ _ _
  refine ⟨fun n frame found => ?_,fun n frame found => ?_,?_⟩
  · rw [file,if_neg (named n frame found).1.ne]
    exact found
  · rw [file] at found
    split at found
    · next eq =>
      cases found
      exact ⟨eq ▸ Nat.lt_succ_self _,eq.symm⟩
    · exact ⟨Nat.lt_succ_of_lt (named n frame found).1,(named n frame found).2⟩
  · exact (file s.made).trans (if_pos rfl)

variable {content : Content ρ L}

omit [DecidableEq ρ] in
lemma outcome_write (named : Named s) (metadata : Metadata ρ) (plain : ∀ doc,content ≠ .index doc) :
    Outcome (write metadata content) s
      (fun record t => Wrote s t ∧ Holds t.files record metadata content) fun t => t=s := by
  obtain ⟨files,named',holds⟩ := grows_write named metadata content
  refine .request rfl (.read (.modify (.pure
    ⟨⟨⟨rfl,files,named'⟩,fun n frame doc found index => ?_⟩,holds⟩)))
  have file : Function.update s.files s.made (some ⟨s.made,metadata,content⟩) n=some frame := found
  rw [update_apply] at file
  split at file
  · cases file
    exact absurd index (plain doc)
  · exact file

lemma outcome_read (record : Record) (metadata : Metadata ρ) : Outcome (read record metadata) s
    (fun content t => t=s ∧ Holds s.files record metadata content) fun t => t=s := by
  refine .request rfl (.read (.expect rfl fun frame found => ?_))
  refine .require rfl fun digest => .require rfl fun same =>
    .pure ⟨rfl,?_⟩
  rw [Holds,found,← digest,← same]

lemma outcome_nodeDoc (node : Node) (pages : Dict (PageId ρ) Page) :
    Outcome (nodeDoc S node pages) s (fun doc t => t=s ∧
      Holds s.files node.record (.node node.tokens) (.node doc)) fun t => t=s := by
  refine .require rfl fun _ =>
    .request rfl (.quiet (outcome_read _ _) rfl
    fun content holds => .request rfl (.expect rfl fun doc found =>
      .require rfl fun _ => .pure ⟨rfl,?_⟩))
  cases content with
  | node doc' =>
    cases found
    exact holds
  | row raw => cases found
  | index doc' => cases found

lemma outcome_stagePages (old : Dict (PageId ρ) Page) (rows : Slot → ρ) (slots : List Slot) :
    ∀ {s : Store ρ L},Named s → Outcome (stagePages old rows slots) s
      (fun r t => Wrote s t ∧ r.1 = slots.map (fun slot => ⟨slot,rows slot⟩) ∧
        (∀ id page,r.2.get? id = some page → PageOk t.files id page) ∧
        ∀ id∈r.1,old.get? id ≠ none ∨ r.2.get? id ≠ none) fun t => Wrote s t := by
  induction slots with
  | nil =>
    intro s named
    have same : Wrote s s := ⟨⟨rfl,fun _ _ h => h,named⟩,fun _ _ _ h _ => h⟩
    refine .pure ⟨same,rfl,fun id page found => ?_,fun id m => ?_⟩
    · cases found
    · cases m
  | cons slot slots ih =>
    intro s named
    have same : Wrote s s := ⟨⟨rfl,fun _ _ h => h,named⟩,fun _ _ _ h _ => h⟩
    rw [stagePages]
    cases known : old.get? ⟨slot,rows slot⟩ with
    | some page =>
      refine .quiet (outcome_read _ _) same fun content _ => .require same fun _ => ?_
      refine (ih named).bind ?_
      rintro ⟨ids,fresh⟩ t ⟨wrote,all,ok,closed⟩
      refine .pure ⟨wrote,?_,ok,fun id m => ?_⟩
      · rw [map_cons,← all]
      · rcases mem_cons.mp m with rfl | m
        · exact .inl (known ▸ some_ne_none page)
        · exact closed id m
    | none =>
      have plain (doc : IndexDoc ρ) : (Content.row (rows slot) : Content ρ L) ≠ .index doc := nofun
      refine Outcome.bind ((outcome_write named _ plain).mono
        (fun _ _ both => both) fun t eq => eq ▸ same) ?_
      rintro record t ⟨first,holds⟩
      refine Outcome.bind ((ih first.named).mono (fun _ _ both => both) fun u w =>
        first.trans w) ?_
      rintro ⟨ids,fresh⟩ u ⟨wrote,all,ok,closed⟩
      refine .pure ⟨first.trans wrote,?_,fun id page found => ?_,fun id m => ?_⟩
      · rw [map_cons,← all]
      · rw [get?_set] at found
        split at found
        · next eq =>
          cases found
          rw [eq]
          exact wrote.grows.page ⟨rfl,holds⟩
        · exact ok id page found
      · rw [get?_set]
        rcases mem_cons.mp m with rfl | m
        · exact .inr (by rw [if_pos rfl]; exact some_ne_none _)
        · refine (closed id m).imp_right fun some => ?_
          split
          · exact some_ne_none _
          · exact some

/-- What a call keeps: the invariant, and what was given a file or a ticket. -/
structure Safe (S : Setting) (s t : Store ρ L) : Prop where
  inv : Inv S t
  grows : Grows s t

/-- The published part. -/
def Store.published (s : Store ρ L) : Option Head × Dict (List ℕ) Node × Dict (PageId ρ) Page :=
  (s.head,s.nodes,s.pages)

omit [DecidableEq ρ] in
lemma Extends.published (w : Extends s t) : t.published=s.published := by
  rw [w.rest]
  rfl

section
variable {S : Setting} {s : Store ρ L}

variable (inv : Inv S s)
include inv

lemma Inv.allPages : (∀ id page,s.allPages.get? id = some page → PageOk s.files id page) ∧
    ∀ id,s.allPages.get? id ≠ none → s.pages.get? id ≠ none ∨ s.pending.get? id ≠ none := by
  refine ⟨fun id page found => ?_,fun id some => ?_⟩
  · rcases get?_update found with m | found
    · exact inv.pending id page (get?_eq_some.mpr m)
    · exact inv.published.pages id page found
  · obtain ⟨page,found⟩ := ne_none_iff_exists'.mp some
    rcases get?_update found with m | found
    · exact .inr (get?_eq_some.mpr m ▸ some_ne_none page)
    · exact .inl (found ▸ some_ne_none page)

/-- A new ticket. Its pages are those that were known and those that it brings. -/
lemma Inv.offer (w : Wrote s t) (node : Node) (rows : Slot → ρ) {fresh : Dict (PageId ρ) Page}
    (tokens : S.tokens node.tokens = true) (valid : S.validBasis node.tokens.length basis = true)
    (manifest : Holds t.files node.record (.node node.tokens)
      (.node ⟨node.tokens,node.tokens.length,refs S node rows,basis,logits⟩))
    (ok : ∀ id page,fresh.get? id = some page → PageOk t.files id page)
    (closed : ∀ id ∈ refs S node rows,s.allPages.get? id ≠ none ∨ fresh.get? id ≠ none) :
    let u := { t with
      staged := t.staged.set t.tickets (node,fresh)
      pending := update t.pending fresh.items
      tickets := t.tickets+1
      offered := Function.update t.offered t.tickets (some (node,rows,logits)) }
    Inv S u ∧ Grows t u := by
  intro u
  have inv' := inv.wrote w
  have offered (i : ℕ) : u.offered i=if i=t.tickets then some (node,rows,logits) else t.offered i :=
    update_apply _ _ _ _
  have grows : Grows t u := by
    refine ⟨fun _ _ h => h,fun i x h => ?_⟩
    have old : i≠t.tickets := (inv'.tickets i (h ▸ some_ne_none x)).ne
    rw [offered,if_neg old]
    exact h
  refine ⟨⟨inv'.files,fun n f d h c => grows.index (inv'.indexes n f d h c),
    grows.index inv'.published,fun id page found => ?_,fun i x found => ?_,fun i some => ?_⟩,grows⟩
  · rcases get?_update found with m | found
    · exact ok id page (get?_eq_some.mpr m)
    · exact inv'.pending id page found
  · rw [get?_set] at found
    split at found
    · next eq =>
      cases found
      refine ⟨rows,logits,⟨?_,tokens,basis,valid,manifest⟩,fun id m => ?_⟩
      · rw [offered,if_pos eq]
      · rcases closed id m with known | new
        · refine (inv.allPages.2 id known).imp (fun h => ?_) fun h => get?_update_old _ ?_
          · rw [← w.pages] at h
            exact h
          · rw [w.pending]
            exact h
        · obtain ⟨page,found⟩ := ne_none_iff_exists'.mp new
          exact .inr (get?_update_new (get?_eq_some.mp found))
    · obtain ⟨rows',logits',node',closed'⟩ := inv'.staged i x found
      exact ⟨rows',logits',grows.node node',fun id m =>
        (closed' id m).imp_right fun h => get?_update_old _ h⟩
  · rw [offered] at some
    split at some
    · next eq => exact eq ▸ Nat.lt_succ_self _
    · exact Nat.lt_succ_of_lt (inv'.tickets i some)

lemma Inv.drop {staged : Dict ℕ (Node × Dict (PageId ρ) Page)}
    (sub : ∀ t x,staged.get? t = some x → s.staged.get? t = some x) : Inv S (s.drop staged) := by
  have grows : Grows s (s.drop staged) := ⟨fun _ _ h => h,fun _ _ h => h⟩
  refine ⟨inv.files,fun n f d h c => grows.index (inv.indexes n f d h c),grows.index inv.published,
    fun id page found => ?_,fun t x found => ?_,inv.tickets⟩
  · rw [Store.drop] at found
    split at found
    · cases found
    · rw [get?_without] at found
      split at found
      · cases found
      · exact inv.pending id page found
  · obtain ⟨rows,logits,node,closed⟩ := inv.staged t x (sub t x found)
    refine ⟨rows,logits,grows.node node,fun id m => ?_⟩
    rw [Store.drop]
    have some : staged.items ≠ [] := fun none => by
      have member := get?_eq_some.mp found
      change (t,x)∈staged.items at member
      rw [none] at member
      cases member
    rw [if_neg some,get?_without]
    by_cases known : s.pages.get? id=none
    · refine .inr ?_
      rw [if_neg (by simpa using known)]
      exact (closed id m).resolve_left (not_not.mpr known)
    · exact .inl known

lemma Inv.discard (tickets : Option (List ℕ)) :
    Safe S s (s.discard tickets) ∧ (s.discard tickets).published = s.published := by
  cases tickets with
  | none =>
    refine ⟨⟨inv.drop fun t x found => ?_,⟨fun _ _ h => h,fun _ _ h => h⟩⟩,rfl⟩
    cases found
  | some tickets =>
    refine ⟨⟨inv.drop fun t x found => ?_,⟨fun _ _ h => h,fun _ _ h => h⟩⟩,rfl⟩
    rw [get?_erases] at found
    split at found
    · cases found
    · exact found

end

omit [DecidableEq ρ] in
lemma outcome_ticketsOf (tickets : List ℕ) :
    Outcome (ticketsOf S tickets) s (fun _ t => t=s ∧ True) fun t => t=s := by
  intro deny k
  rw [ticketsOf,wp_bind,wp_read,wp_require]
  exact ⟨fun _ => ⟨rfl,trivial⟩,fun _ => rfl⟩

section
variable {S : Setting} {s : Store ρ L} {pages : Dict (PageId ρ) Page} {node : Node} {logits : L}

lemma outcome_discard (tickets : Option (List ℕ)) :
    Outcome (discard S tickets) s (fun _ t => t = s.discard tickets) fun t => t=s := by
  cases tickets with
  | none => exact fun deny k => rfl
  | some tickets =>
    exact .quiet (outcome_ticketsOf tickets) rfl fun _ _ => fun deny k => rfl

section
variable (inv : Inv S s)
include inv

variable (tickets : List ℕ)

lemma outcome_collect : ∀ {doc : IndexDoc ρ},IndexOk S s doc.nodes doc.pages → Outcome
    (collect S s.allPages tickets doc) s (fun doc' t => t=s ∧ IndexOk S s doc'.nodes doc'.pages ∧
    ∀ id,doc.pages.get? id ≠ none → doc'.pages.get? id ≠ none) fun t => t=s := by
  induction tickets with
  | nil => exact fun ok => .pure ⟨rfl,ok,fun id some => some⟩
  | cons ticket tickets ih =>
    intro doc ok
    refine .read (.expect rfl fun staged found => ?_)
    refine .quiet (outcome_nodeDoc staged.1 s.allPages) rfl fun manifest holds => ?_
    refine .expect rfl fun pages all => (ih ?_).mono ?_ fun _ eq => eq
    case refine_2 =>
      rintro doc' t ⟨eq,ok',more⟩
      exact ⟨eq,ok',fun id some => more id (get?_update_old pages some)⟩
    obtain ⟨rows,logits,node,-⟩ := inv.staged ticket staged found
    obtain ⟨basis,-,file⟩ := node.manifest
    obtain rfl : manifest=⟨staged.1.tokens,staged.1.tokens.length,refs S staged.1 rows,basis,logits⟩ := by
      have same := holds.symm.trans file
      cases same
      rfl
    obtain ⟨every,right⟩ := mapM_pairs all
    refine ⟨fun ids other at' => ?_,fun id page at' => ?_⟩
    · rw [get?_set] at at'
      split at at'
      · next eq =>
        cases at'
        refine ⟨eq.symm,ticket,rows,logits,node,fun id m => ?_⟩
        obtain ⟨page,member⟩ := every id m
        exact get?_update_new member
      · obtain ⟨same,t,rows',logits',node',closed⟩ := ok.nodes ids other at'
        exact ⟨same,t,rows',logits',node',fun id m => get?_update_old pages (closed id m)⟩
    · rcases get?_update at' with m | old
      · exact inv.allPages.1 id page (right (id,page) m)
      · exact ok.pages id page old

lemma outcome_writeIndex
    (revision : ℕ) {doc : IndexDoc ρ} (ok : IndexOk S s doc.nodes doc.pages) : Outcome
    (write (.index revision) (.index doc)) s (fun _ t => Extends s t ∧ Inv S t) fun t => t=s := by
  obtain ⟨files,named,-⟩ := grows_write inv.files (.index revision) (Content.index doc : Content ρ L)
  refine .request rfl (.read (.modify (.pure ?_)))
  have w : Extends s { s with
      files := Function.update s.files s.made (some ⟨s.made,.index revision,.index doc⟩)
      made := s.made+1 } := ⟨rfl,files,named⟩
  refine ⟨w,inv.extends w fun n frame doc' found index => ?_⟩
  have file : Function.update s.files s.made (some ⟨s.made,.index revision,.index doc⟩) n =
    some frame := found
  rw [update_apply] at file
  split at file
  · cases file
    cases index
    exact w.grows.index ok
  · exact w.grows.index (inv.indexes n frame doc' file index)

lemma Inv.republish (ok : IndexOk S s nodes pages)
    (more : ∀ i,s.staged.get? i ≠ none → ∀ id,s.pages.get? id ≠ none → pages.get? id ≠ none)
    (head : Option Head) (publications : ℕ) : Inv S { s with
      nodes := nodes
      pages := pages
      head := head
      publications := publications } := by
  have grows : Grows s { s with
      nodes := nodes
      pages := pages
      head := head
      publications := publications } := ⟨fun _ _ h => h,fun _ _ h => h⟩
  refine ⟨inv.files,fun n f d h c => grows.index (inv.indexes n f d h c),grows.index ok,inv.pending,
    fun i x found => ?_,inv.tickets⟩
  obtain ⟨rows,logits,node,closed⟩ := inv.staged i x found
  exact ⟨rows,logits,grows.node node,fun id m => (closed id m).imp_left
    (more i (found ▸ some_ne_none x) id)⟩

lemma outcome_publish : Outcome (publish S tickets) s
      (fun _ t => Safe S s t ∧ ∃ u : Store ρ L,t = u.discard (some tickets) ∧ u.staged=s.staged)
      fun t => Safe S s t ∧ t.published=s.published ∧ t.staged=s.staged := by
  have same : Safe S s s ∧ s.published=s.published ∧ s.staged=s.staged :=
    ⟨⟨inv,Grows.refl s⟩,rfl,rfl⟩
  refine .read
    (.quiet (outcome_collect inv tickets inv.published) same fun doc more => ?_)
  obtain ⟨ok,more⟩ := more
  refine .request same (.require same fun valid =>
    .require same fun _ => ?_)
  refine Outcome.bind ((outcome_writeIndex inv _ ok).mono (fun _ _ both => both)
    fun t eq => eq ▸ same) ?_
  rintro record t ⟨w,inv'⟩
  refine .request ⟨⟨inv',w.grows⟩,w.published,w.staged⟩
    (.modify (.modify (.pure ?_)))
  have published (head : Option Head) (publications : ℕ) : Inv S { t with
      nodes := doc.nodes
      pages := doc.pages
      head := head
      publications := publications } := by
    refine inv'.republish (w.grows.index ok) (fun _ _ id known => more id ?_) head publications
    rw [w.pages] at known
    exact known
  obtain ⟨safe,-⟩ := (published _ _).discard (some tickets)
  exact ⟨⟨safe.inv,⟨fun n f h => w.files n f h,fun i x h => w.grows.offered i x h⟩⟩,_,rfl,w.staged⟩

/-- A call either leaves the published part, or it is one that publishes. -/
lemma outcome_commit (acknowledged : Bool) : Outcome (commit S tickets acknowledged) s (fun
    _ t => Safe S s t ∧ acknowledged=true ∧ ∀ i ∉ tickets,t.staged.get? i = s.staged.get? i) fun t
    => Safe S s t ∧ t.published=s.published ∧ ∀ i ∉ tickets,t.staged.get? i = s.staged.get? i := by
  have still : Safe S s s ∧ s.published=s.published ∧
      ∀ i ∉ tickets,s.staged.get? i = s.staged.get? i :=
    ⟨⟨inv,Grows.refl s⟩,rfl,fun _ _ => rfl⟩
  have others (t : Store ρ L) (i : ℕ) (out : i ∉ tickets) :
      (t.discard (some tickets)).staged.get? i = t.staged.get? i := by
    change (tickets.foldl Dict.erase t.staged).get? i=_
    rw [get?_erases,if_neg out]
  refine .quiet (outcome_ticketsOf tickets) still fun _ _ =>
    .require still fun ack => ?_
  refine Outcome.checked ((outcome_publish inv tickets).mono ?_ fun _ both => both) ?_
  · rintro head _ ⟨safe,u,rfl,staged⟩
    exact ⟨safe,ack,fun i out => by rw [others u i out,staged]⟩
  · rintro t ⟨safe,published,staged⟩
    obtain ⟨safe',published'⟩ := safe.inv.discard (some tickets)
    refine ⟨⟨safe'.inv,safe.grows.trans safe'.grows⟩,published'.trans published,fun i out => ?_⟩
    rw [others t i out,staged]

lemma outcome_restoreHead (previous : Option Head) : Outcome (restoreHead S previous) s
    (fun _ t => Safe S s t) fun t => Safe S s t ∧ t.published=s.published := by
  obtain ⟨safe,published⟩ := inv.discard none
  refine .modify ?_
  have inv' := safe.inv
  cases previous with
  | none =>
    intro deny k
    have empty : IndexOk S (s.discard none) Dict.empty Dict.empty :=
      ⟨fun ids node found => (nomatch found),fun id page found => (nomatch found)⟩
    have republished := inv'.republish empty (fun i some => absurd rfl some) none s.publications
    exact ⟨republished,safe.grows.files,safe.grows.offered⟩
  | some previous =>
    refine .read (.expect ⟨safe,published⟩ fun head _ =>
      .require ⟨safe,published⟩ fun _ => .quiet (outcome_read _ _) ⟨safe,published⟩
        fun content holds => .request ⟨safe,published⟩ (.expect
          ⟨safe,published⟩ fun doc found => .require ⟨safe,published⟩ fun _ => ?_))
    have index : content = .index doc := by
      cases content with
      | index doc' => cases found; rfl
      | row raw => cases found
      | node doc' => cases found
    have ok := inv.indexes _ _ doc holds index
    intro deny k
    have republished := inv'.republish (safe.grows.index ok) (fun i some => absurd rfl some)
      (some previous) s.publications
    exact ⟨republished,safe.grows.files,safe.grows.offered⟩

end

lemma yields_read {record : Record} {metadata : Metadata ρ} (holds : Holds s.files
    record metadata content) : Yields (read record metadata) s fun a t => a=content ∧ t=s := by
  refine .request ?_
  exact .expect holds (.require rfl (.require rfl (.value ⟨rfl,rfl⟩)))

lemma validNode_refs (valid : S.validBasis node.tokens.length basis = true)
    (slots : ∀ id ∈ refs S node rows,(pages.get? id).map Page.slot = some id.slot) : S.validNode
    pages node.tokens ⟨node.tokens,node.tokens.length,refs S node rows,basis,logits⟩=true := by
  have known : ∀ x ∈ (refs S node rows).zip (S.slots node.tokens.length),
      (pages.get? x.1).map Page.slot = some x.2 := by
    rintro ⟨id,slot⟩ m
    rw [refs,zip_map_left] at m
    obtain ⟨⟨a,b⟩,member,eq⟩ := List.mem_map.mp m
    cases eq
    obtain ⟨k,at'⟩ := mem_iff_getElem?.mp member
    have same : a=b := by
      rw [getElem?_zip_eq_some] at at'
      exact Option.some.inj (at'.1.symm.trans at'.2)
    rw [same]
    exact slots _ (List.mem_map.mpr ⟨b,(of_mem_zip member).2,rfl⟩)
  simp only [Setting.validNode,Setting.validPages,valid,Bool.and_true,Bool.and_eq_true,
    decide_eq_true_eq,List.all_eq_true]
  exact ⟨⟨trivial,trivial⟩,by rw [refs,length_map],known⟩

lemma yields_nodeDoc (ok : NodeOk S s i node rows logits)
    (slots : ∀ id ∈ refs S node rows,(pages.get? id).map Page.slot = some id.slot) : Yields (nodeDoc
    S node pages) s fun doc t => doc.pages = refs S node rows ∧ doc.logits=logits ∧ t=s := by
  obtain ⟨basis,valid,holds⟩ := ok.manifest
  refine .require ok.tokens (.request ((yields_read holds).bind ?_))
  rintro _ _ ⟨rfl,rfl⟩
  refine .request (.expect rfl (.require (validNode_refs valid slots) ?_))
  exact meets_pure.mpr ⟨rfl,rfl,rfl⟩

/-- The rows of a manifest whose pages are held. -/
lemma yields_lookupRows (ok : ∀ id page,pages.get? id = some page → PageOk s.files id page)
    (f : Slot → ρ) (slots : List Slot) (known : ∀ slot∈slots,pages.get? ⟨slot,f slot⟩≠none) :
    Yields (lookupRows pages (slots.map fun slot => (⟨slot,f slot⟩,slot))) s
      fun rows t => rows = slots.map f ∧ t=s := by
  induction slots with
  | nil => exact meets_pure.mpr ⟨rfl,rfl⟩
  | cons slot slots ih =>
    obtain ⟨page,found⟩ := ne_none_iff_exists'.mp (known slot mem_cons_self)
    obtain ⟨same,holds⟩ := ok _ page found
    rw [← same] at holds
    refine .expect found ((yields_read holds).bind ?_)
    rintro _ _ ⟨rfl,rfl⟩
    refine .expect rfl (.require rfl
      ((ih fun slot m => known slot (mem_cons_of_mem _ m)).bind ?_))
    rintro _ _ ⟨rfl,rfl⟩
    exact meets_pure.mpr ⟨rfl,rfl⟩

end

/-- What a lookup of a path gives: what was staged for the node that is published. -/
def Found (S : Setting) (s : Store ρ L) (ids : List ℕ) : Option (List ρ × L) → Prop
  | some (rows,logits) => ∃ node t f,s.nodes.get? ids=some node ∧ node.tokens=ids ∧
      s.offered t = some (node,f,logits) ∧ rows = (S.slots ids.length).map f
  | none => s.nodes.get? ids=none

lemma yields_lookup (inv : Inv S s) {ids : List ℕ} (tokens :
    S.tokens ids = true) : Yields (lookup S ids) s fun state _ => Found S s ids state := by
  refine .require tokens (.read ?_)
  cases found : s.nodes.get? ids with
  | none => exact fun deny k => found
  | some node =>
    obtain ⟨same,t,f,logits,ok,closed⟩ := inv.published.nodes ids node found
    have slots : ∀ id ∈ refs S node f,(s.pages.get? id).map Page.slot=some id.slot := by
      intro id m
      obtain ⟨page,known⟩ := ne_none_iff_exists'.mp (closed id m)
      rw [known,map_some,(inv.published.pages id page known).1]
    refine .request ((yields_nodeDoc ok slots).bind ?_)
    rintro doc _ ⟨pages,rfl,rfl⟩
    have zipped : doc.pages.zip (S.slots ids.length) =
        (S.slots ids.length).map fun slot => (⟨slot,f slot⟩,slot) := by
      rw [pages,refs,same,zip_map_left]
      simp [zip]
    rw [zipped]
    refine (yields_lookupRows inv.published.pages f _ fun slot m => closed _ ?_).bind ?_
    · rw [refs,same]
      exact List.mem_map.mpr ⟨slot,m,rfl⟩
    · rintro _ _ ⟨rfl,rfl⟩
      exact .request fun deny k => ⟨node,t,f,found,same,ok.offered,rfl⟩

variable [DecidableEq L]

lemma outcome_stage (inv : Inv S s) (ids : List ℕ) (snapshot : Snapshot ρ) (logits : L) :
    Outcome (stage S ids snapshot logits) s (fun _ t => Safe S s t ∧ t.published=s.published) fun t
      => Safe S s t ∧ t.published=s.published := by
  have kept {t : Store ρ L} (w : Wrote s t) : Safe S s t ∧ t.published=s.published :=
    ⟨⟨inv.wrote w,w.grows⟩,w.published⟩
  have still := kept inv.same
  refine .require still fun tokens => .request still (.read
    (.require still fun _ => .require still fun _ =>
      .require still fun eligible => .request still (.require still
        fun _ => .require still fun _ => .require still fun _ =>
          .request still ?_)))
  refine Outcome.bind ((outcome_stagePages s.allPages snapshot.rows (S.slots ids.length)
    inv.files).mono (fun _ _ both => both) fun t w => kept w) ?_
  rintro ⟨pages,fresh⟩ t ⟨w,all,ok,closed⟩
  cases found : s.find ids with
  | some node =>
    exact .quiet (outcome_nodeDoc node s.allPages) (kept w) fun doc _ =>
      .require (kept w) fun _ => .pure (kept w)
  | none =>
    have plain (doc : IndexDoc ρ) : (Content.node ⟨ids,ids.length,pages,snapshot.basis,logits⟩ :
      Content ρ L) ≠ .index doc := nofun
    refine Outcome.bind ((outcome_write w.named _ plain).mono (fun _ _ both => both)
      fun u eq => eq ▸ kept w) ?_
    rintro record u ⟨w',holds⟩
    have both := w.trans w'
    obtain rfl : pages=refs S ⟨ids,record⟩ snapshot.rows := all
    have offer := inv.offer both ⟨ids,record⟩ snapshot.rows tokens eligible.2 holds
      (fun id page found => w'.grows.page (ok id page found)) closed
    refine .modify (.pure ⟨⟨?_,both.grows.trans offer.2⟩,both.published⟩)
    exact offer.1

omit [DecidableEq L] in
lemma Inv.count (inv : Inv S s) (hits misses : ℕ) :
    Safe S s { s with hits := hits, misses := misses } := by
  have grows : Grows s { s with hits := hits, misses := misses } := ⟨fun _ _ h => h,fun _ _ h => h⟩
  refine ⟨⟨inv.files,fun n f d h c => grows.index (inv.indexes n f d h c),grows.index inv.published,
    inv.pending,fun i x found => ?_,inv.tickets⟩,grows⟩
  obtain ⟨rows,logits,node,closed⟩ := inv.staged i x found
  exact ⟨rows,logits,grows.node node,closed⟩

omit [DecidableEq L] in
lemma outcome_lookupRows (pages : Dict (PageId ρ) Page) (pairs : List (PageId ρ ×
    Slot)) : Outcome (lookupRows pages pairs) s (fun _ t => t=s ∧ True) fun t => t=s := by
  induction pairs with
  | nil => exact .pure ⟨rfl,trivial⟩
  | cons pair pairs ih =>
    exact .expect rfl fun page _ => .quiet (outcome_read _ _) rfl fun content _ =>
      .expect rfl fun raw _ => .require rfl fun _ =>
        .quiet ih rfl fun rows _ => .pure ⟨rfl,trivial⟩

omit [DecidableEq L] in
lemma outcome_lookup (inv : Inv S s) (ids : List ℕ) : Outcome (lookup S ids) s (fun
    _ t => Safe S s t ∧ t.published=s.published) fun t => Safe S s t ∧ t.published=s.published := by
  have still : Safe S s s ∧ s.published=s.published := ⟨⟨inv,Grows.refl s⟩,rfl⟩
  refine .require still fun _ => .read ?_
  cases s.nodes.get? ids with
  | none => exact fun deny k => ⟨inv.count s.hits (s.misses+1),rfl⟩
  | some node =>
    exact .request still (.quiet ((outcome_nodeDoc node s.pages).mono
      (fun _ _ both => ⟨both.1,trivial⟩) fun _ eq => eq) still fun doc (_ : True) =>
        .quiet (outcome_lookupRows _ _) still fun rows _ => .request still
          fun deny k => ⟨inv.count (s.hits+1) s.misses,rfl⟩)

/-- The calls that may publish. -/
def Call.Publishes : Call ρ L → Prop
  | .commit _ acknowledged => acknowledged=true
  | .restoreHead _ => True
  | _ => False

/-- The tickets that a commit or a discard of some tickets does not name stay. -/
def Call.Keeps (s t : Store ρ L) : Call ρ L → Prop
  | .commit tickets _ | .discard (some tickets) => ∀ i ∉ tickets,t.staged.get? i=s.staged.get? i
  | _ => True

omit [DecidableEq ρ] [DecidableEq L] in
lemma outcome_map {x : Run ρ L α} {f : α → β} {good bad : Store ρ L → Prop}
    (h : Outcome x s (fun _ t => good t) bad) : Outcome (f <$> x) s (fun _ t => good t) bad :=
  Outcome.bind h fun _ _ h => .pure h

lemma outcome_act (inv : Inv S s) (call : Call ρ L) :
    Outcome (act S call) s (fun _ t => Safe S s t ∧ (call.Publishes ∨ t.published=s.published) ∧
      call.Keeps s t) fun t => Safe S s t ∧ t.published=s.published ∧ call.Keeps s t := by
  cases call with
  | stage ids snapshot logits =>
    exact outcome_map ((outcome_stage inv ids snapshot logits).mono
      (fun _ _ h => ⟨h.1,.inr h.2,trivial⟩) fun _ h => ⟨h.1,h.2,trivial⟩)
  | commit tickets acknowledged =>
    exact outcome_map ((outcome_commit inv tickets acknowledged).mono
      (fun _ _ h => ⟨h.1,.inl h.2.1,h.2.2⟩) fun _ h => h)
  | discard tickets =>
    refine outcome_map ((outcome_discard tickets).mono ?_ ?_)
    · rintro _ t rfl
      obtain ⟨safe,published⟩ := inv.discard tickets
      refine ⟨safe,.inr published,?_⟩
      cases tickets with
      | none => exact trivial
      | some tickets =>
        intro i out
        change (tickets.foldl Dict.erase s.staged).get? i=_
        rw [get?_erases,if_neg out]
    · rintro t rfl
      refine ⟨⟨inv,Grows.refl t⟩,rfl,?_⟩
      cases tickets with
      | none => exact trivial
      | some tickets => exact fun _ _ => rfl
  | restoreHead previous =>
    exact outcome_map ((outcome_restoreHead inv previous).mono
      (fun _ _ h => ⟨h,.inl trivial,trivial⟩) fun _ h => ⟨h.1,h.2,trivial⟩)
  | lookup ids =>
    exact outcome_map ((outcome_lookup inv ids).mono
      (fun _ _ h => ⟨h.1,.inr h.2,trivial⟩) fun _ h => ⟨h.1,h.2,trivial⟩)

omit [DecidableEq L] in
lemma Inv.new (S : Setting) : Inv S (Store.new : Store ρ L) :=
  ⟨fun _ _ h => (nomatch h),fun _ _ _ h _ => (nomatch h), ⟨fun _ _ h => (nomatch h),fun _ _ h =>
    (nomatch h)⟩,fun _ _ h => (nomatch h), fun _ _ h => (nomatch h),fun _ h => absurd rfl h⟩

lemma Inv.act (inv : Inv S s) (call : Call ρ L)
    (deny : ℕ → Option Failure) (k : ℕ) : Inv S (act S call deny s k).2.1 := by
  have h := outcome_act inv call deny k
  unfold wp at h
  generalize DecodeStore.act S call deny s k=r at h ⊢
  obtain ⟨_ | a,t,j⟩ := r
  · exact h.1.inv
  · exact h.1.inv

lemma Inv.run (S : Setting) (deny : ℕ → Option Failure) (calls : List (Call ρ L)) :
    Inv S (run S deny calls).1 := by
  have from' (s : Store ρ L × ℕ) (inv : Inv S s.1) :
      Inv S (calls.foldl (fun s call => (DecodeStore.act S call deny s.1 s.2).2) s).1 := by
    induction calls generalizing s with
    | nil => exact inv
    | cons call calls ih => exact ih _ (inv.act call deny s.2)
  exact from' (Store.new,0) (Inv.new S)

omit [DecidableEq L] in
/-- The manifests of all staged and published states, and that their pages are at hand. -/
def Resolves (s : Store ρ L) : Prop :=
  (∀ t x,s.staged.get? t = some x → ∃ doc,Holds s.files x.1.record (.node x.1.tokens) (.node doc) ∧
    ∀ id∈doc.pages,s.pages.get? id ≠ none ∨ s.pending.get? id ≠ none) ∧
  ∀ ids node,s.nodes.get? ids = some node → ∃ doc,
    Holds s.files node.record (.node node.tokens) (.node doc) ∧
      ∀ id∈doc.pages,s.pages.get? id ≠ none

omit [DecidableEq L] in
lemma Inv.resolves (inv : Inv S s) : Resolves s := by
  refine ⟨fun t x found => ?_,fun ids node found => ?_⟩
  · obtain ⟨rows,logits,node,closed⟩ := inv.staged t x found
    obtain ⟨basis,-,holds⟩ := node.manifest
    exact ⟨_,holds,closed⟩
  · obtain ⟨-,t,rows,logits,node,closed⟩ := inv.published.nodes ids node found
    obtain ⟨basis,-,holds⟩ := node.manifest
    exact ⟨_,holds,closed⟩

/-- After every run of calls, whatever is turned down: the pages of all staged and published states
resolve, and do so after any further call, which keeps the tickets that it does not name; only an
acknowledged commit or a restoration that returns changes what is published; and a lookup gives the
rows and the scores that were staged for its path, in their order, or tells that none is published. -/
theorem decode_store_runs (S : Setting) (deny : ℕ → Option Failure) (calls : List (Call ρ L)) :
    let s := (run S deny calls).1
    Resolves s ∧
    (∀ call (deny : ℕ → Option Failure) k,let r := act S call deny s k
      Resolves r.2.1 ∧ call.Keeps s r.2.1 ∧
        (r.2.1.published≠s.published → call.Publishes ∧ ∃ a,r.1 = .ok a)) ∧
    ∀ ids,S.tokens ids = true → Yields (lookup S ids) s fun state _ => Found S s ids state := by
  intro s
  have inv : Inv S s := Inv.run S deny calls
  refine ⟨inv.resolves,fun call deny k => ?_,fun ids tokens => yields_lookup inv tokens⟩
  intro r
  refine ⟨(inv.act call deny k).resolves,?_⟩
  have h := outcome_act inv call deny k
  unfold wp at h
  have eq : DecodeStore.act S call deny s k=r := rfl
  rw [eq] at h
  obtain ⟨_ | a,t,j⟩ := r
  · exact ⟨h.2.2,fun changed => absurd h.2.1 changed⟩
  · exact ⟨h.2.2,fun changed => ⟨h.2.1.resolve_right changed,a,rfl⟩⟩

end

def oneLayer : Setting := ⟨1,10,4,2,3,8,1⟩

/-- Rows that are numbers. -/
def countedRows (position : ℕ) : Snapshot ℕ :=
  ⟨position,fun slot => 10+slot.start,⟨.completedPrefill,0,0,2⟩,true,true⟩

/-- Two states that share their first row are staged and committed together, and one is looked up. -/
theorem decode_store_runs_two :
    let s := (run oneLayer (fun _ => none) [.stage [1] (countedRows 1) 7,
      .stage [1,2] (countedRows 2) 8,.commit [0,1] true]).1
    s.publications=1 ∧ s.pages.size=4 ∧ Resolves s ∧ Found oneLayer s [1,2] (some ([10,10,11,11],8)) ∧
      ∃ t j,lookup oneLayer [1,2] (fun _ => none) s 0 = (.ok (some ([10,10,11,11],8)),t,j) := by
  obtain ⟨resolves,-,lookups⟩ := decode_store_runs oneLayer (fun _ => none)
    [.stage [1] (countedRows 1) 7,.stage [1,2] (countedRows 2) 8,.commit [0,1] true]
  obtain ⟨state,t,j,ok,found⟩ := (lookups [1,2] rfl).exists_ok
  have answer : (Except.ok (some ([10,10,11,11],8)) : Except Failure _) = .ok state :=
    congrArg Prod.fst ok
  cases answer
  exact ⟨by rfl,by rfl,resolves,found,t,j,ok⟩

end Pllm.Runtime.DecodeStore
