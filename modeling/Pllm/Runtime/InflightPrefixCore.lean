import Pllm.Runtime.InflightPrefix

/-! The invariant of the owner of pending prefills, what no step takes back, and the changes of one node
or one request that the calls are made of. -/
namespace Pllm.Runtime.InflightPrefix
open Pllm.Lib Finset Function

variable {π δ : Type}

/-- The requests that were made and are not released. -/
def Owner.unreleased (o : Owner π δ) : Finset ℕ :=
  {r ∈ Finset.range o.madeRequests | (o.request r).released = false}

lemma mem_unreleased {o : Owner π δ} {r : ℕ} :
    r∈o.unreleased ↔ r<o.madeRequests ∧ (o.request r).released = false := by
  rw [Owner.unreleased,mem_filter,mem_range]

structure Core (h : Hashing π δ) (o : Owner π δ) : Prop where
  requests : o.stats.requests=o.unreleased.card
  reserved : o.stats.reservedBytes = ∑ r ∈ o.unreleased,((o.request r).reservation:ℤ)+
    ∑ n ∈ o.nodes,((o.node n).reservation:ℤ)
  within : o.stats.reservedBytes≤o.bounds.maxBytes ∧ o.unreleased.card≤o.bounds.maxRequests ∧
    o.nodes.card≤o.bounds.maxNodes
  holders : ∀ n r,r ∈ (o.node n).requests ↔ r∈o.unreleased ∧ (o.request r).node = n
  held : ∀ r∈o.unreleased,(o.request r).node ∈ o.nodes
  made : ∀ n∈o.nodes,n<o.madeNodes
  gone : ∀ n ∉ o.nodes,(o.node n).active = false ∧ (o.node n).result = none
  indexed : ∀ k n,o.pending.get? k = some n → n∈o.nodes ∧ (o.node n).key = some k ∧
    (o.node n).status = .pending ∧ k = ((o.node n).binding,(o.node n).tokens)
  leases : ∀ r p,(o.request r).lease = .held p →
    r∈o.unreleased ∧ (o.node (o.request r).node).result = some p
  committed : ∀ n∈o.nodes,(o.node n).commitment = (o.node n).result.map h.commit ∧
    ((o.node n).status = .published → (o.node n).result ≠ none) ∧
    ((o.node n).status = .pending → (o.node n).result = none)
  retired : o.stats.retired+o.nodes.card=o.madeNodes
  joined : ∀ r∈o.unreleased,(o.node (o.request r).node).binding = (o.request r).binding ∧
    (o.node (o.request r).node).resources = (o.request r).resources ∧
    (o.node (o.request r).node).tokens <+: (o.request r).prompt ∧
    (o.request r).prefixTokens = (o.node (o.request r).node).tokens.length

/-- A node that is not retired has an active producer or a request. -/
def Needed (o : Owner π δ) (n : ℕ) : Prop :=
  n∈o.nodes → (o.node n).active = true ∨ (o.node n).requests ≠ ∅

structure Consistent (h : Hashing π δ) (o : Owner π δ) : Prop where
  core : Core h o
  needed : ∀ n,Needed o n

/-- What no step takes back, and what a step may add. -/
structure Follows (o o' : Owner π δ) : Prop where
  bounds : o'.bounds=o.bounds
  closed : o.closed=true →
    o'.closed=true ∧ o'.madeNodes=o.madeNodes ∧ o'.madeRequests=o.madeRequests
  madeNodes : o.madeNodes≤o'.madeNodes
  madeRequests : o.madeRequests≤o'.madeRequests
  gone : ∀ n<o.madeNodes,n ∉ o.nodes → n ∉ o'.nodes
  result : ∀ n<o.madeNodes,∀ p,(o.node n).result = some p → n∈o'.nodes →
    (o'.node n).result = some p
  released : ∀ r<o.madeRequests,(o.request r).released = true → (o'.request r).released = true
  cancelled : ∀ r<o.madeRequests,(o.request r).cancelled = true → (o'.request r).cancelled = true
  lease : ∀ r<o.madeRequests,∀ p,(o'.request r).lease = .held p →
    (o.request r).lease = .held p ∨ (o.request r).released = false ∧
      (o.request r).cancelled = false ∧ o.closed=false
  fixed : ∀ r<o.madeRequests,(o'.request r).node = (o.request r).node

lemma Follows.refl (o : Owner π δ) : Follows o o :=
  ⟨rfl,fun c => ⟨c,rfl,rfl⟩,le_rfl,le_rfl,fun _ _ g => g,fun _ _ _ r _ => r,fun _ _ d => d,
    fun _ _ d => d,fun _ _ _ l => .inl l,fun _ _ => rfl⟩

lemma Follows.trans {o o' o'' : Owner π δ} (h : Follows o o') (h' : Follows o' o'') :
    Follows o o'' := by
  refine ⟨h'.bounds.trans h.bounds,?_,h.madeNodes.trans h'.madeNodes,
    h.madeRequests.trans h'.madeRequests,?_,?_,?_,?_,?_,?_⟩
  · intro closed
    obtain ⟨closed',nodes,requests⟩ := h.closed closed
    obtain ⟨closed'',nodes',requests'⟩ := h'.closed closed'
    exact ⟨closed'',nodes'.trans nodes,requests'.trans requests⟩
  · intro n made gone
    exact h'.gone n (made.trans_le h.madeNodes) (h.gone n made gone)
  · intro n made p result here
    have still : n∈o'.nodes := by
      by_contra gone
      exact h'.gone n (made.trans_le h.madeNodes) gone here
    exact h'.result n (made.trans_le h.madeNodes) p (h.result n made p result still) here
  · intro r made released
    exact h'.released r (made.trans_le h.madeRequests) (h.released r made released)
  · intro r made cancelled
    exact h'.cancelled r (made.trans_le h.madeRequests) (h.cancelled r made cancelled)
  · intro r made p lease
    rcases h'.lease r (made.trans_le h.madeRequests) p lease with lease | ⟨released,cancelled,closed⟩
    · exact h.lease r made p lease
    · refine .inr ⟨?_,?_,?_⟩
      · by_contra done
        rw [h.released r made (by simpa using done)] at released
        cases released
      · by_contra done
        rw [h.cancelled r made (by simpa using done)] at cancelled
        cases cancelled
      · by_contra done
        rw [(h.closed (by simpa using done)).1] at closed
        cases closed
  · intro r made
    exact (h'.fixed r (made.trans_le h.madeRequests)).trans (h.fixed r made)

section
variable {h : Hashing π δ} {o : Owner π δ} {n r : ℕ}

section
variable {α : Type} {f : Node π δ → Node π δ}

lemma node_setNode (f : Node π δ → Node π δ) (m : ℕ) :
    (o.setNode n f).node m = if m=n then f (o.node n) else o.node m :=
  update_apply _ _ _ _

lemma request_setRequest (f : Request π → Request π) (m : ℕ) :
    (o.setRequest r f).request m = if m=r then f (o.request r) else o.request m :=
  update_apply _ _ _ _

lemma part_setNode (part : Node π δ → α) (keeps : part (f (o.node n)) = part (o.node n)) (m : ℕ) :
    part ((o.setNode n f).node m) = part (o.node m) := by
  rw [node_setNode]
  split
  · next same => rw [same,keeps]
  · rfl

lemma part_setRequest {f : Request π → Request π} (part : Request π → α)
    (keeps : part (f (o.request r)) = part (o.request r)) (m : ℕ) :
    part ((o.setRequest r f).request m) = part (o.request m) := by
  rw [request_setRequest]
  split
  · next same => rw [same,keeps]
  · rfl

lemma unindex_eq (o : Owner π δ) (n : ℕ) : ∃ pending : Dict Key ℕ, o.unindex n = { o with pending
    := pending } ∧ (∀ k m,pending.get? k = some m → o.pending.get? k = some m) ∧
    ∀ k,(o.node n).key = some k → pending.get? k ≠ some n := by
  rw [Owner.unindex]
  split
  · next key found =>
    split
    · refine ⟨o.pending.erase key,rfl,fun k m indexed => ?_,fun k same => ?_⟩
      · rw [Dict.get?_erase] at indexed
        split at indexed
        · cases indexed
        · exact indexed
      · rw [Dict.get?_erase,if_pos (Option.some.inj (same.symm.trans found))]
        exact Option.some_ne_none _ |>.symm
    · next other =>
      refine ⟨o.pending,rfl,fun _ _ indexed => indexed,fun k same => ?_⟩
      rw [← Option.some.inj (found.symm.trans same)]
      exact other
  · next none =>
    refine ⟨o.pending,rfl,fun _ _ indexed => indexed,fun k same => ?_⟩
    rw [none] at same
    cases same

lemma Core.unindex (core : Core h o) (n : ℕ) : Core h (o.unindex n) := by
  obtain ⟨pending,eq,sub,-⟩ := unindex_eq o n
  rw [eq]
  exact ⟨core.requests,core.reserved,core.within,core.holders,core.held,core.made,core.gone,
    fun k m indexed => core.indexed k m (sub k m indexed),core.leases,core.committed,core.retired,
    core.joined⟩

lemma Core.not_indexed (core : Core h o) (n : ℕ) (k : Key) :
    (o.unindex n).pending.get? k ≠ some n := by
  obtain ⟨pending,eq,sub,out⟩ := unindex_eq o n
  rw [eq]
  intro indexed
  exact out k (core.indexed k n (sub k n indexed)).2.1 indexed

lemma Follows.unindex (o : Owner π δ) (n : ℕ) : Follows o (o.unindex n) := by
  obtain ⟨pending,eq,-⟩ := unindex_eq o n
  rw [eq]
  exact ⟨rfl,fun c => ⟨c,rfl,rfl⟩,le_rfl,le_rfl,fun _ _ g => g,fun _ _ _ r _ => r,fun _ _ d => d,
    fun _ _ d => d,fun _ _ _ l => .inl l,fun _ _ => rfl⟩

/-- A change of a node that keeps what it is, whom it serves and what it has published. -/
lemma Core.setNode (core : Core h o)
    (keeps : (f (o.node n)).key = (o.node n).key ∧ (f (o.node n)).binding = (o.node n).binding ∧
      (f (o.node n)).resources = (o.node n).resources ∧ (f (o.node n)).tokens = (o.node n).tokens ∧
      (f (o.node n)).reservation = (o.node n).reservation ∧
      (f (o.node n)).requests = (o.node n).requests)
    (gone : n ∉ o.nodes → (f (o.node n)).active = false ∧ (f (o.node n)).result = none)
    (indexed : ∀ k,o.pending.get? k = some n → (f (o.node n)).status = .pending)
    (leases : ∀ p,(o.node n).result = some p → (f (o.node n)).result = some p)
    (committed : n∈o.nodes → (f (o.node n)).commitment = (f (o.node n)).result.map h.commit ∧
      ((f (o.node n)).status = .published → (f (o.node n)).result ≠ none) ∧
      ((f (o.node n)).status = .pending → (f (o.node n)).result = none)) :
    Core h (o.setNode n f) := by
  obtain ⟨key,binding,resources,tokens,reservation,requests⟩ := keeps
  refine ⟨core.requests,?_,core.within,?_,core.held,core.made,?_,?_,?_,?_,core.retired,?_⟩
  · refine core.reserved.trans (congrArg₂ _ rfl (sum_congr rfl fun m _ => ?_))
    rw [part_setNode Node.reservation reservation]
  · intro m r
    rw [part_setNode Node.requests requests]
    exact core.holders m r
  · intro m out
    rw [node_setNode]
    split
    · next same => exact gone (same ▸ out)
    · exact core.gone m out
  · intro k m found
    obtain ⟨here,keyed,status,same⟩ := core.indexed k m found
    rw [part_setNode Node.key key,part_setNode Node.binding binding,part_setNode Node.tokens tokens]
    refine ⟨here,keyed,?_,same⟩
    rw [node_setNode]
    split
    · next eq => exact indexed k (eq ▸ found)
    · exact status
  · intro r p lease
    obtain ⟨unreleased,result⟩ := core.leases r p lease
    refine ⟨unreleased,?_⟩
    rw [node_setNode]
    split
    · next eq => exact leases p (eq ▸ result)
    · exact result
  · intro m here
    rw [node_setNode]
    split
    · next eq => exact committed (eq ▸ here)
    · exact core.committed m here
  · intro r unreleased
    obtain ⟨sameBinding,sameResources,start,size⟩ := core.joined r unreleased
    rw [part_setNode Node.binding binding]
    refine ⟨sameBinding,?_,?_,?_⟩
    · exact (part_setNode Node.resources resources _).trans sameResources
    · exact (part_setNode Node.tokens tokens _).symm ▸ start
    · exact (part_setNode Node.tokens tokens _).symm ▸ size

lemma Follows.setNode (o : Owner π δ) (result : ∀ p,(o.node n).result = some p → (f (o.node
    n)).result = some p) : Follows o (o.setNode n f) := by
  refine ⟨rfl,fun c => ⟨c,rfl,rfl⟩,le_rfl,le_rfl,fun _ _ g => g,?_,fun _ _ d => d,fun _ _ d => d,
    fun _ _ _ l => .inl l,fun _ _ => rfl⟩
  intro m _ p had _
  rw [node_setNode]
  split
  · next eq => exact result p (eq ▸ had)
  · exact had

lemma Core.count (core : Core h o) {f : Stats → Stats}
    (same : (f o.stats).requests = o.stats.requests ∧ (f o.stats).reservedBytes =
    o.stats.reservedBytes ∧ (f o.stats).retired = o.stats.retired) : Core h (o.count f) :=
  ⟨same.1.trans core.requests,same.2.1.trans core.reserved,
    ⟨same.2.1.le.trans core.within.1,core.within.2⟩,core.holders,core.held,core.made,core.gone,
    core.indexed,core.leases,core.committed,(congrArg (· + o.nodes.card) same.2.2).trans core.retired,
    core.joined⟩

lemma Follows.count (o : Owner π δ) (f : Stats → Stats) : Follows o (o.count f) :=
  ⟨rfl,fun c => ⟨c,rfl,rfl⟩,le_rfl,le_rfl,fun _ _ g => g,fun _ _ _ r _ => r,fun _ _ d => d,
    fun _ _ d => d,fun _ _ _ l => .inl l,fun _ _ => rfl⟩

end

/-- A step that changes one node only. -/
structure Moves (n : ℕ) (o o' : Owner π δ) : Prop where
  follows : Follows o o'
  others : ∀ m≠n,o'.node m = o.node m ∧ (m∈o'.nodes → m∈o.nodes)

lemma Moves.refl (n : ℕ) (o : Owner π δ) : Moves n o o :=
  ⟨Follows.refl o,fun _ _ => ⟨rfl,fun here => here⟩⟩

lemma Moves.trans {o' o'' : Owner π δ} (m : Moves n o o') (m' : Moves n o' o'') : Moves n o o'' := by
  refine ⟨m.follows.trans m'.follows,fun k ne => ?_⟩
  obtain ⟨same,sub⟩ := m.others k ne
  obtain ⟨same',sub'⟩ := m'.others k ne
  exact ⟨same'.trans same,fun here => sub (sub' here)⟩

lemma Consistent.moves {o' : Owner π δ} (c : Consistent h o) (core : Core h o')
    (m : Moves n o o') (needed : Needed o' n) : Consistent h o' := by
  refine ⟨core,fun k => ?_⟩
  by_cases eq : k=n
  · rw [eq]
    exact needed
  · obtain ⟨same,sub⟩ := m.others k eq
    intro here
    rw [same]
    exact c.needed k (sub here)

lemma Moves.unindex (o : Owner π δ) (n : ℕ) : Moves n o (o.unindex n) := by
  refine ⟨Follows.unindex o n,fun m _ => ?_⟩
  obtain ⟨pending,eq,-⟩ := unindex_eq o n
  rw [eq]
  exact ⟨rfl,fun here => here⟩

variable {f : Node π δ → Node π δ}

lemma Moves.setNode (o : Owner π δ) (result : ∀ p,(o.node n).result =
    some p → (f (o.node n)).result = some p) : Moves n o (o.setNode n f) :=
  ⟨Follows.setNode o result,fun m ne => ⟨(node_setNode f m).trans (if_neg ne),fun here => here⟩⟩

lemma Moves.count (n : ℕ) (o : Owner π δ) (f : Stats → Stats) : Moves n o (o.count f) :=
  ⟨Follows.count o f,fun _ _ => ⟨rfl,fun here => here⟩⟩

section
variable (o : Owner π δ)

lemma node_unindex (n : ℕ) : (o.unindex n).node = o.node := by
  obtain ⟨pending,eq,-⟩ := unindex_eq o n
  rw [eq]

lemma nodes_unindex (n : ℕ) : (o.unindex n).nodes = o.nodes := by
  obtain ⟨pending,eq,-⟩ := unindex_eq o n
  rw [eq]

lemma unindex_count (n : ℕ) (f : Stats → Stats) :
    (o.count f).unindex n = (o.unindex n).count f := by
  simp only [Owner.unindex,Owner.count]
  cases (o.node n).key with
  | none => rfl
  | some key => by_cases indexed : o.pending.get? key=some n <;> simp [indexed]

lemma unindex_setNode (key : (f (o.node n)).key =
    (o.node n).key) : (o.setNode n f).unindex n = (o.unindex n).setNode n f := by
  simp only [Owner.unindex,Owner.setNode,update_self,key]
  cases (o.node n).key with
  | none => rfl
  | some k => by_cases indexed : o.pending.get? k=some n <;> simp [indexed]

lemma markFailed_eq (n : ℕ) : o.markFailed n =
    if (o.node n).status ≠ .failed then
      ((o.unindex n).setNode n fun node => { node with status := .failed }).count fun s =>
        { s with failures := s.failures+1 }
    else o.unindex n := by
  rw [Owner.markFailed]
  split
  · rw [unindex_count,unindex_setNode]
    rfl
  · rfl

end

lemma Core.markFailed (core : Core h o) (n : ℕ) : Core h (o.markFailed n) := by
  rw [markFailed_eq]
  split
  · refine ((core.unindex n).setNode ⟨rfl,rfl,rfl,rfl,rfl,rfl⟩ ?_ ?_ ?_ ?_).count ⟨rfl,rfl,rfl⟩
    · exact (core.unindex n).gone n
    · exact fun k found => absurd found (core.not_indexed n k)
    · exact fun p result => result
    · exact fun here => ⟨((core.unindex n).committed n here).1,fun eq => Status.noConfusion eq,
        fun eq => Status.noConfusion eq⟩
  · exact core.unindex n

lemma Moves.markFailed (o : Owner π δ) (n : ℕ) : Moves n o (o.markFailed n) := by
  rw [markFailed_eq]
  split
  · exact ((Moves.unindex o n).trans (Moves.setNode _ fun p result => result)).trans
      (Moves.count n _ _)
  · exact Moves.unindex o n

lemma node_setNode_count (f : Node π δ → Node π δ) (g : Stats → Stats) :
    ((o.setNode n f).count g).node n = f (o.node n) := update_self _ _ _

lemma node_markFailed (o : Owner π δ) (n : ℕ) : (o.markFailed n).nodes = o.nodes ∧ ((o.markFailed
    n).node n).active = (o.node n).active ∧ ((o.markFailed n).node n).requests = (o.node n).requests
    ∧ (o.markFailed n).request = o.request := by
  obtain ⟨pending,eq,-⟩ := unindex_eq o n
  rw [markFailed_eq,eq]
  split
  · rw [node_setNode_count]
    exact ⟨rfl,rfl,rfl,rfl⟩
  · exact ⟨rfl,rfl,rfl,rfl⟩

lemma Consistent.markFailed (c : Consistent h o) (n : ℕ) : Consistent h (o.markFailed n) := by
  refine c.moves (c.core.markFailed n) (Moves.markFailed o n) fun here => ?_
  obtain ⟨nodes,active,requests,-⟩ := node_markFailed o n
  rw [active,requests]
  exact c.needed n (nodes ▸ here)

lemma Core.signal (core : Core h o) (n : ℕ) : Core h (o.signal n) := by
  rw [Owner.signal]
  split
  · exact (core.setNode ⟨rfl,rfl,rfl,rfl,rfl,rfl⟩ (core.gone n) (fun k found =>
      (core.indexed k n found).2.2.1) (fun p result => result) (core.committed n)).count
        ⟨rfl,rfl,rfl⟩
  · exact core

lemma Moves.signal (o : Owner π δ) (n : ℕ) : Moves n o (o.signal n) := by
  rw [Owner.signal]
  split
  · exact (Moves.setNode o fun p result => result).trans (Moves.count n _ _)
  · exact Moves.refl n o

lemma node_signal (o : Owner π δ) (n : ℕ) : (o.signal n).nodes = o.nodes ∧
    ((o.signal n).node n).active = (o.node n).active ∧
    ((o.signal n).node n).requests = (o.node n).requests ∧ (o.signal n).request = o.request := by
  rw [Owner.signal]
  split
  · rw [node_setNode_count]
    exact ⟨rfl,rfl,rfl,rfl⟩
  · exact ⟨rfl,rfl,rfl,rfl⟩

lemma Core.retire (core : Core h o) (n : ℕ) : Core h (o.retire n) := by
  rw [Owner.retire]
  split
  · exact core
  · next idle =>
    push Not at idle
    obtain ⟨empty,inactive,here⟩ := idle
    have elsewhere : ∀ r∈o.unreleased,(o.request r).node ≠ n := by
      intro r unreleased eq
      have member := (core.holders n r).mpr ⟨unreleased,eq⟩
      rw [empty] at member
      exact notMem_empty r member
    have out (k : Key) (m : ℕ) (found : (o.unindex n).pending.get? k=some m) : m≠n := by
      rintro rfl
      exact core.not_indexed m k found
    obtain ⟨pending,eq,sub,-⟩ := unindex_eq o n
    rw [eq] at out ⊢
    let o' : Owner π δ := { o with pending := pending }
    have same (m : ℕ) (ne : m≠n) : (o'.setNode n Node.erase).node m=o.node m :=
      (node_setNode Node.erase m).trans (if_neg ne)
    have reservation (m : ℕ) : ((o'.setNode n Node.erase).node m).reservation=(o.node m).reservation :=
      part_setNode Node.reservation rfl m
    have cleared : (o'.setNode n Node.erase).node n=(o.node n).erase :=
      (node_setNode Node.erase n).trans (if_pos rfl)
    refine ⟨core.requests,?_,⟨?_,core.within.2.1,?_⟩,?_,?_,?_,?_,?_,?_,?_,?_,?_⟩
    · change o.stats.reservedBytes-((o'.setNode n Node.erase).node n).reservation =
        ∑ r ∈ o.unreleased,((o.request r).reservation:ℤ)+
          ∑ m ∈ o.nodes.erase n,(((o'.setNode n Node.erase).node m).reservation : ℤ)
      have rest := add_sum_erase o.nodes (fun m => ((o.node m).reservation:ℤ)) here
      simp only [reservation]
      rw [core.reserved,← rest]
      ring
    · change o.stats.reservedBytes-((o'.setNode n Node.erase).node n).reservation ≤
        (o.bounds.maxBytes:ℤ)
      have most := core.within.1
      omega
    · exact (card_erase_le).trans core.within.2.2
    · intro m r
      change r ∈ ((o'.setNode n Node.erase).node m).requests ↔ _
      rw [part_setNode (o := o') Node.requests rfl m]
      exact core.holders m r
    · exact fun r unreleased => mem_erase.mpr ⟨elsewhere r unreleased,core.held r unreleased⟩
    · exact fun m member => core.made m (mem_of_mem_erase member)
    · intro m gone
      change ((o'.setNode n Node.erase).node m).active=false ∧ ((o'.setNode n Node.erase).node m).result=none
      by_cases ne : m=n
      · rw [ne,cleared]
        exact ⟨Bool.eq_false_iff.mpr inactive,rfl⟩
      · rw [same m ne]
        exact core.gone m fun member => gone (mem_erase.mpr ⟨ne,member⟩)
    · intro k m found
      have ne := out k m found
      obtain ⟨member,rest⟩ := core.indexed k m (sub k m found)
      refine ⟨mem_erase.mpr ⟨ne,member⟩,?_⟩
      change ((o'.setNode n Node.erase).node m).key=_ ∧ ((o'.setNode n Node.erase).node m).status=_ ∧
        k = (((o'.setNode n Node.erase).node m).binding,((o'.setNode n Node.erase).node m).tokens)
      rw [same m ne]
      exact rest
    · intro r p lease
      obtain ⟨unreleased,result⟩ := core.leases r p lease
      refine ⟨unreleased,?_⟩
      change ((o'.setNode n Node.erase).node (o.request r).node).result=_
      rw [same _ (elsewhere r unreleased)]
      exact result
    · intro m member
      obtain ⟨ne,member⟩ := mem_erase.mp member
      change ((o'.setNode n Node.erase).node m).commitment =
        ((o'.setNode n Node.erase).node m).result.map h.commit ∧
        (((o'.setNode n Node.erase).node m).status = _ →
          ((o'.setNode n Node.erase).node m).result ≠ none) ∧
        (((o'.setNode n Node.erase).node m).status = _ →
          ((o'.setNode n Node.erase).node m).result = none)
      rw [same m ne]
      exact core.committed m member
    · have size := card_erase_add_one here
      have before := core.retired
      change o.stats.retired+1+(o.nodes.erase n).card=o.madeNodes
      omega
    · intro r unreleased
      change ((o'.setNode n Node.erase).node (o.request r).node).binding=_ ∧
        ((o'.setNode n Node.erase).node (o.request r).node).resources = _ ∧
        ((o'.setNode n Node.erase).node (o.request r).node).tokens <+: _ ∧
        _ = ((o'.setNode n Node.erase).node (o.request r).node).tokens.length
      rw [same _ (elsewhere r unreleased)]
      exact core.joined r unreleased

lemma Moves.retire (o : Owner π δ) (n : ℕ) : Moves n o (o.retire n) := by
  rw [Owner.retire]
  split
  · exact Moves.refl n o
  · have moved := (Moves.unindex o n).others
    have follows := Follows.unindex o n
    have kept (m : ℕ) (ne : m≠n) : ((o.unindex n).setNode n Node.erase).node m=o.node m :=
      ((node_setNode Node.erase m).trans (if_neg ne)).trans (moved m ne).1
    refine ⟨⟨follows.bounds,follows.closed,follows.madeNodes,follows.madeRequests,?_,?_,
      follows.released,follows.cancelled,follows.lease,follows.fixed⟩,fun m ne => ⟨kept m ne,?_⟩⟩
    · exact fun m made gone member => follows.gone m made gone (mem_of_mem_erase member)
    · intro m _ p result member
      exact (congrArg Node.result (kept m (ne_of_mem_erase member))).trans result
    · exact fun member => (moved m ne).2 (mem_of_mem_erase member)

lemma needed_retire (o : Owner π δ) (n : ℕ) : Needed (o.retire n) n := by
  intro here
  rw [Owner.retire] at here ⊢
  split at here
  · next busy =>
    rw [if_pos busy]
    rcases busy with requests | active | out
    · exact .inr requests
    · exact .inl active
    · exact absurd here out
  · exact absurd rfl (ne_of_mem_erase here)

lemma held_drop (q : Request π) (p : π) : q.drop.lease ≠ .held p := by
  rw [Request.drop]
  cases q.lease <;> simp

lemma Core.leave (core : Core h o) (unreleased : r∈o.unreleased) : Core h (o.leave r) := by
  let part : Node π δ → Node π δ := fun node => { node with requests := node.requests.erase r }
  have node (m : ℕ) : (o.leave r).node m =
      if m=(o.request r).node then part (o.node (o.request r).node) else o.node m :=
    update_apply _ _ _ _
  have request (q : ℕ) : (o.leave r).request q =
      if q=r then (o.request r).drop else o.request q := update_apply _ _ _ _
  have left : (o.leave r).unreleased=o.unreleased.erase r := by
    ext q
    rw [mem_erase,mem_unreleased,mem_unreleased,request]
    by_cases eq : q=r
    · simp [eq,Request.drop]
    · simp only [eq,ne_eq,not_false_eq_true,true_and]
      rfl
  have apart (q : ℕ) (member : q ∈ o.unreleased.erase r) : (o.leave r).request q=o.request q := by
    rw [request,if_neg (ne_of_mem_erase member)]
  have kept {α : Type} (f : Node π δ → α) (same : f (part (o.node (o.request r).node)) =
      f (o.node (o.request r).node)) (m : ℕ) : f ((o.leave r).node m) = f (o.node m) := by
    rw [node]
    split
    · next eq => rw [eq,same]
    · rfl
  have own : ((o.setRequest r Request.drop).setNode (o.request r).node part).request r =
      (o.request r).drop := update_self _ _ _
  have same : (o.request r).drop.reservation=(o.request r).reservation := rfl
  have freed : (o.leave r).stats.reservedBytes=o.stats.reservedBytes-(o.request r).reservation :=
    by
    change o.stats.reservedBytes-
      (((o.setRequest r Request.drop).setNode (o.request r).node part).request r).reservation = _
    rw [own,same]
  refine ⟨?_,?_,⟨?_,?_,core.within.2.2⟩,?_,?_,core.made,?_,?_,?_,?_,core.retired,?_⟩
  · have size := card_erase_add_one unreleased
    have before := core.requests
    rw [left]
    change o.stats.requests-1=_
    omega
  · rw [left,freed,core.reserved,← add_sum_erase _ _ unreleased]
    have rest : ∑ q ∈ o.unreleased.erase r,(((o.leave r).request q).reservation : ℤ) =
        ∑ q ∈ o.unreleased.erase r,((o.request q).reservation:ℤ) :=
      sum_congr rfl fun q member => by rw [apart q member]
    have nodes : ∑ m ∈ (o.leave r).nodes,(((o.leave r).node m).reservation : ℤ) =
        ∑ m ∈ o.nodes,((o.node m).reservation:ℤ) :=
      sum_congr rfl fun m _ => by rw [kept Node.reservation rfl]
    rw [rest,nodes]
    ring
  · have most := core.within.1
    change _ ≤ (o.bounds.maxBytes:ℤ)
    omega
  · rw [left]
    exact card_erase_le.trans core.within.2.1
  · intro m q
    rw [left,mem_erase]
    by_cases eq : q=r
    · simp only [eq,ne_eq,not_true_eq_false,false_and,iff_false]
      rw [node]
      split
      · exact notMem_erase _ _
      · next other => exact fun member => other ((core.holders m r).mp member).2.symm
    · rw [request]
      have same : q ∈ ((o.leave r).node m).requests ↔ q ∈ (o.node m).requests := by
        rw [node]
        split
        · next here =>
          rw [here,mem_erase]
          exact ⟨fun member => member.2,fun member => ⟨eq,member⟩⟩
        · exact Iff.rfl
      rw [same,core.holders m q]
      simp [eq]
  · intro q member
    rw [left] at member
    rw [apart q member]
    exact core.held q (mem_of_mem_erase member)
  · intro m out
    rw [kept Node.active rfl,kept Node.result rfl]
    exact core.gone m out
  · intro k m found
    rw [kept Node.key rfl,kept Node.status rfl,kept Node.binding rfl,kept Node.tokens rfl]
    exact core.indexed k m found
  · intro q p lease
    by_cases eq : q=r
    · exfalso
      rw [request,if_pos eq] at lease
      exact held_drop _ p lease
    · rw [request,if_neg eq] at lease
      obtain ⟨member,result⟩ := core.leases q p lease
      rw [left,request,if_neg eq,kept Node.result rfl]
      exact ⟨mem_erase.mpr ⟨eq,member⟩,result⟩
  · intro m here
    rw [kept Node.commitment rfl,kept Node.result rfl,kept Node.status rfl]
    exact core.committed m here
  · intro q member
    rw [left] at member
    rw [apart q member,kept Node.binding rfl,kept Node.resources rfl,kept Node.tokens rfl]
    exact core.joined q (mem_of_mem_erase member)

lemma Moves.leave (o : Owner π δ) (r : ℕ) : Moves (o.request r).node o (o.leave r) := by
  have node (m : ℕ) : (o.leave r).node m=if m=(o.request r).node then
      { o.node (o.request r).node with requests := (o.node (o.request r).node).requests.erase r }
      else o.node m := update_apply _ _ _ _
  have request (q : ℕ) : (o.leave r).request q =
      if q=r then (o.request r).drop else o.request q := update_apply _ _ _ _
  refine ⟨⟨rfl,fun c => ⟨c,rfl,rfl⟩,le_rfl,le_rfl,fun _ _ g => g,?_,?_,?_,?_,?_⟩,fun m ne =>
    ⟨(node m).trans (if_neg ne),fun here => here⟩⟩
  · intro m _ p result _
    rw [node]
    split
    · next eq => exact eq ▸ result
    · exact result
  · intro q _ done
    rw [request]
    split
    · rfl
    · exact done
  · intro q _ done
    rw [request]
    split
    · next eq => exact eq ▸ done
    · exact done
  · intro q _ p lease
    by_cases eq : q=r
    · exfalso
      rw [request,if_pos eq] at lease
      exact held_drop _ p lease
    · rw [request,if_neg eq] at lease
      exact .inl lease
  · intro q _
    rw [request]
    split
    · next eq =>
      rw [eq]
      rfl
    · rfl

end

end Pllm.Runtime.InflightPrefix
