import Pllm.Runtime.InflightPrefixCore

/-! What holds of the owner of pending prefills after every run of calls of any threads: the counters
tell the requests that are not released and the bytes they hold, a node retires once when its producer
has finished and its requests are released, and a lease is the result that the producer published. -/
namespace Pllm.Runtime.InflightPrefix
open Pllm.Lib Finset Function

variable {π δ : Type}

section
variable {h : Hashing π δ} {o : Owner π δ} {n r : ℕ}

/-- What a call keeps consistent, and what it does not take back. -/
def Safe (h : Hashing π δ) (o o' : Owner π δ) : Prop := Consistent h o' ∧ Follows o o'

lemma Consistent.release (c : Consistent h o) (made : r<o.madeRequests) :
    Safe h o (o.release r) := by
  rw [Owner.release]
  split
  · exact ⟨c,Follows.refl o⟩
  · next live =>
    have unreleased : r∈o.unreleased := mem_unreleased.mpr ⟨made,Bool.eq_false_iff.mpr live⟩
    have left := c.core.leave unreleased
    have moved := Moves.leave o r
    simp only
    split
    · have signalled := (left.unindex (o.request r).node).signal (o.request r).node
      have all := (moved.trans (Moves.unindex _ _)).trans (Moves.signal _ _)
      exact ⟨c.moves (signalled.retire _) (all.trans (Moves.retire _ _)) (needed_retire _ _),
        (all.trans (Moves.retire _ _)).follows⟩
    · exact ⟨c.moves (left.retire _) (moved.trans (Moves.retire _ _)) (needed_retire _ _),
        (moved.trans (Moves.retire _ _)).follows⟩

variable {f : Request π → Request π}

/-- A change of a request that keeps its node, its bytes and whether it is released. -/
lemma Core.setRequest (core : Core h o) (keeps : (f (o.request r)).node = (o.request r).node ∧
      (f (o.request r)).reservation = (o.request r).reservation ∧
      (f (o.request r)).released = (o.request r).released ∧
      (f (o.request r)).prompt = (o.request r).prompt ∧
      (f (o.request r)).binding = (o.request r).binding ∧
      (f (o.request r)).resources = (o.request r).resources ∧
      (f (o.request r)).prefixTokens = (o.request r).prefixTokens)
    (lease : ∀ p,(f (o.request r)).lease = .held p →
      r∈o.unreleased ∧ (o.node (o.request r).node).result = some p) :
    Core h (o.setRequest r f) := by
  obtain ⟨node,reservation,released,prompt,binding,resources,tokens⟩ := keeps
  have same : (o.setRequest r f).unreleased=o.unreleased := by
    ext q
    rw [mem_unreleased,mem_unreleased,part_setRequest Request.released released]
    rfl
  refine ⟨?_,?_,?_,?_,?_,core.made,core.gone,core.indexed,?_,core.committed,core.retired,?_⟩
  · rw [same]
    exact core.requests
  · rw [same]
    refine core.reserved.trans (congrArg₂ _ (sum_congr rfl fun q _ => ?_) rfl)
    rw [part_setRequest Request.reservation reservation]
  · rw [same]
    exact core.within
  · intro m q
    rw [same,part_setRequest Request.node node]
    exact core.holders m q
  · intro q member
    rw [same] at member
    rw [part_setRequest Request.node node]
    exact core.held q member
  · intro q p found
    rw [same,part_setRequest Request.node node]
    rw [request_setRequest] at found
    split at found
    · next eq => exact eq ▸ lease p found
    · exact core.leases q p found
  · intro q member
    rw [same] at member
    rw [part_setRequest Request.node node,part_setRequest Request.prompt prompt,
      part_setRequest Request.binding binding,part_setRequest Request.resources resources,
      part_setRequest Request.prefixTokens tokens]
    exact core.joined q member

lemma Follows.setRequest (o : Owner π δ) (node : (f (o.request r)).node = (o.request r).node)
    (released : (o.request r).released = true → (f (o.request r)).released = true)
    (cancelled : (o.request r).cancelled = true → (f (o.request r)).cancelled = true) (lease :
    ∀ p,(f (o.request r)).lease = .held p → (o.request r).lease = .held p ∨ (o.request r).released =
    false ∧ (o.request r).cancelled = false ∧ o.closed=false) : Follows o (o.setRequest r f) := by
  refine ⟨rfl,fun c => ⟨c,rfl,rfl⟩,le_rfl,le_rfl,fun _ _ g => g,fun _ _ _ r _ => r,?_,?_,?_,?_⟩
  · intro q _ done
    rw [request_setRequest]
    split
    · next eq => exact released (eq ▸ done)
    · exact done
  · intro q _ done
    rw [request_setRequest]
    split
    · next eq => exact cancelled (eq ▸ done)
    · exact done
  · intro q _ p found
    rw [request_setRequest] at found
    split at found
    · next eq => exact eq ▸ lease p found
    · exact .inl found
  · exact fun q _ => part_setRequest Request.node node q

lemma Safe.trans {o' o'' : Owner π δ} (s : Safe h o o') (s' : Safe h o' o'') : Safe h o o'' :=
  ⟨s'.1,s.2.trans s'.2⟩

section
variable (c : Consistent h o)
include c

lemma Consistent.cancel (made : r<o.madeRequests) : Safe h o (o.cancel r) := by
  rw [Owner.cancel]
  split
  · exact ⟨c,Follows.refl o⟩
  · have marked : Core h ((o.setRequest r fun q => { q with cancelled := true }).count fun s =>
        { s with cancellations := s.cancellations+1 }) :=
      (c.core.setRequest ⟨rfl,rfl,rfl,rfl,rfl,rfl,rfl⟩ (c.core.leases r)).count ⟨rfl,rfl,rfl⟩
    have follows : Follows o ((o.setRequest r fun q => { q with cancelled := true }).count fun s =>
        { s with cancellations := s.cancellations+1 }) :=
      (Follows.setRequest o rfl (fun done => done) (fun _ => rfl) fun _ lease => .inl lease).trans
        (Follows.count _ _)
    have here : Safe h o _ := ⟨⟨marked,c.needed⟩,follows⟩
    simp only
    split
    · exact here.trans (here.1.release made)
    · exact here

lemma Safe.refl : Safe h o o := ⟨c,Follows.refl o⟩

lemma Consistent.markedFailed (n : ℕ) : Safe h o (o.markFailed n) :=
  ⟨c.markFailed n,(Moves.markFailed o n).follows⟩

lemma Consistent.fail (r : ℕ) : Safe h o (o.fail r).2 := by
  rw [Owner.fail]
  split
  · exact Safe.refl c
  · split
    · exact Safe.refl c
    · exact c.markedFailed _

lemma Consistent.finish (r : ℕ) : Safe h o (o.finish r).2 := by
  rw [Owner.finish]
  split
  · exact Safe.refl c
  · split
    · exact Safe.refl c
    · have retired {o' : Owner π δ} (s : Safe h o o') (same : Moves (o.request r).node o o') :
          Safe h o ((o'.setNode (o.request r).node fun node => { node with active := false }).retire
            (o.request r).node) := by
        have stopped : Core h (o'.setNode (o.request r).node fun node =>
            { node with active := false }) :=
          s.1.core.setNode ⟨rfl,rfl,rfl,rfl,rfl,rfl⟩ (fun out => ⟨rfl,(s.1.core.gone _ out).2⟩)
            (fun k found => (s.1.core.indexed k _ found).2.2.1) (fun p result => result)
            (s.1.core.committed _)
        have all := (same.trans (Moves.setNode o' fun p result => result)).trans
          (Moves.retire (o'.setNode (o.request r).node fun node => { node with active := false })
            (o.request r).node)
        exact ⟨c.moves (stopped.retire _) all (needed_retire _ _),all.follows⟩
      split
      · exact retired (c.markedFailed _) (Moves.markFailed o _)
      · exact retired (Safe.refl c) (Moves.refl _ o)

end

variable [DecidableEq δ] in
lemma Consistent.publish (c : Consistent h o) (r : ℕ) (p : Publishing π) :
    Safe h o (o.publish h r p).2 := by
  rw [Owner.publish]
  split
  · exact Safe.refl c
  · next producing =>
    split
    · exact Safe.refl c
    · next open' =>
      push Not at open'
      obtain ⟨-,pending,-⟩ := open'
      have here : (o.request r).node ∈ o.nodes := (not_not.mp producing).2
      split
      · next saved _ =>
        split
        · next checks =>
          obtain ⟨-,-,same,-⟩ := checks
          have before := c.core.committed _ here
          have none := before.2.2 pending
          have result (q : π) (had : ((o.unindex (o.request r).node).node
              (o.request r).node).result = some q) : (((o.unindex (o.request r).node).node
              (o.request r).node).publish saved (h.commit p.snapshot)).result = some q := by
            rw [node_unindex,none] at had
            cases had
          have core : Core h ((o.unindex (o.request r).node).setNode (o.request r).node fun node =>
              node.publish saved (h.commit p.snapshot)) :=
            (c.core.unindex (o.request r).node).setNode ⟨rfl,rfl,rfl,rfl,rfl,rfl⟩
              (fun out => absurd here (nodes_unindex o (o.request r).node ▸ out))
              (fun k found => absurd found (c.core.not_indexed _ k)) result
              fun _ => ⟨congrArg some same.symm,fun _ => Option.some_ne_none _,fun eq =>
                Status.noConfusion eq⟩
          have moves := (Moves.unindex o (o.request r).node).trans
            (Moves.setNode (f := fun node => node.publish saved (h.commit p.snapshot)) _ result)
          dsimp only
          rw [unindex_setNode o rfl]
          refine ⟨c.moves (core.count ⟨rfl,rfl,rfl⟩) (moves.trans (Moves.count _ _ _)) fun member => ?_,
            (moves.trans (Moves.count (o.request r).node _ _)).follows⟩
          rw [node_setNode_count,node_unindex]
          exact c.needed _ here
        · exact c.markedFailed _
      · exact c.markedFailed _

/-- What an answer promises of the state that it comes with. -/
def Answered (o o' : Owner π δ) : Answer π → Prop
  | .request r => o.closed=false ∧ r=o.madeRequests ∧ o'.madeRequests=o.madeRequests+1
  | .lease r p => (o'.request r).lease = .held p
  | .drained all => all=true ↔ o'.nodes = ∅
  | _ => True

variable [DecidableEq δ] in
lemma Consistent.deliver (c : Consistent h o) (made : r<o.madeRequests) (copying : Copying π) :
    Safe h o (o.deliver h r copying).2 ∧
      Answered o (o.deliver h r copying).2 (o.deliver h r copying).1 := by
  rw [Owner.deliver]
  split
  · exact ⟨Safe.refl c,trivial⟩
  · next live =>
    simp only [not_or,Bool.not_eq_true] at live
    obtain ⟨released,cancelled,closed⟩ := live
    have unreleased : r∈o.unreleased := mem_unreleased.mpr ⟨made,released⟩
    split
    · next payload lease => exact ⟨Safe.refl c,lease⟩
    · split
      · exact ⟨c.release made,trivial⟩
      · split
        · have failed := c.markedFailed (o.request r).node
          exact ⟨failed.trans (failed.1.release (made.trans_le failed.2.madeRequests)),trivial⟩
        · split
          · next saved _ =>
            split
            · next same =>
              have here := c.core.held r unreleased
              obtain ⟨commitment,-⟩ := c.core.committed _ here
              have result : (o.node (o.request r).node).result=some saved := by
                rw [commitment] at same
                obtain ⟨x,found,eq⟩ := Option.map_eq_some_iff.mp same.symm
                rw [found,h.injective eq]
              have core := (c.core.setRequest (r := r) (f := fun q => { q with
                  lease := .held saved }) ⟨rfl,rfl,rfl,rfl,rfl,rfl,rfl⟩ fun p lease => by
                cases lease
                exact ⟨unreleased,result⟩)
              dsimp only
              refine ⟨⟨⟨core.count ⟨rfl,rfl,rfl⟩,c.needed⟩,?_⟩,?_⟩
              · exact (Follows.setRequest o rfl (fun done => done) (fun done => done) fun _ _ =>
                  .inr ⟨released,cancelled,closed⟩).trans (Follows.count _ _)
              · change ((o.setRequest r fun q => { q with lease := .held saved }).request r).lease=_
                rw [request_setRequest,if_pos rfl]
            · exact ⟨c.release made,trivial⟩
          · exact ⟨c.release made,trivial⟩

lemma Consistent.parks (c : Consistent h o) (thread : ℕ) (p : Option Parked) :
    Safe h o (o.park thread p) :=
  ⟨⟨⟨c.core.requests,c.core.reserved,c.core.within,c.core.holders,c.core.held,c.core.made,
    c.core.gone,c.core.indexed,c.core.leases,c.core.committed,c.core.retired,c.core.joined⟩,c.needed⟩,
    ⟨rfl,fun c => ⟨c,rfl,rfl⟩,le_rfl,le_rfl,fun _ _ g => g,fun _ _ _ r _ => r,fun _ _ d => d,
      fun _ _ d => d,fun _ _ _ l => .inl l,fun _ _ => rfl⟩⟩

variable [DecidableEq δ] in
lemma Consistent.wait (c : Consistent h o) (thread : ℕ) (made : r<o.madeRequests)
    (timeout : Option ℚ) (copying : Copying π) : Safe h o (o.wait h thread r timeout copying).2 ∧
    Answered o (o.wait h thread r timeout copying).2 (o.wait h thread r timeout copying).1 := by
  rw [Owner.wait]
  split
  · exact ⟨Safe.refl c,trivial⟩
  · split
    · exact ⟨Safe.refl c,trivial⟩
    · split
      · next payload lease => exact ⟨Safe.refl c,lease⟩
      · split
        · exact c.deliver made copying
        · split
          · exact ⟨c.cancel made,trivial⟩
          · exact ⟨c.parks thread _,trivial⟩

lemma Consistent.cancels (rs : List ℕ) : ∀ {o : Owner π δ},Consistent h o →
    (∀ r∈rs,r<o.madeRequests) → Safe h o (rs.foldl Owner.cancel o) := by
  induction rs with
  | nil => exact fun c _ => Safe.refl c
  | cons r rs ih =>
    intro o c made
    have first := c.cancel (made r List.mem_cons_self)
    exact first.trans (ih first.1 fun q m =>
      (made q (List.mem_cons_of_mem _ m)).trans_le first.2.madeRequests)

lemma Consistent.abandon (c : Consistent h o) (n : ℕ) : Safe h o (o.abandon n) := by
  have moves := (Moves.signal o n).trans (Moves.unindex (o.signal n) n)
  have signalled : Consistent h ((o.signal n).unindex n) := by
    refine c.moves ((c.core.signal n).unindex n) moves fun here => ?_
    obtain ⟨nodes,active,requests,-⟩ := node_signal o n
    rw [node_unindex,active,requests]
    exact c.needed n (nodes ▸ nodes_unindex (o.signal n) n ▸ here)
  refine Safe.trans ⟨signalled,moves.follows⟩ (Consistent.cancels _ signalled fun r member => ?_)
  exact (mem_unreleased.mp ((signalled.core.holders n r).mp ((mem_sort _).mp member)).1).1

lemma Consistent.abandons (ns : List ℕ) : ∀ {o : Owner π δ},Consistent h o →
    Safe h o (ns.foldl Owner.abandon o) := by
  induction ns with
  | nil => exact fun c => Safe.refl c
  | cons n ns ih =>
    intro o c
    have first := c.abandon n
    exact first.trans (ih first.1)

lemma Consistent.close (c : Consistent h o) (thread : ℕ) (waits : Bool) (timeout : Option ℚ) :
    Safe h o (o.close thread waits timeout).2 ∧
      Answered o (o.close thread waits timeout).2 (o.close thread waits timeout).1 := by
  rw [Owner.close]
  split
  · exact ⟨Safe.refl c,trivial⟩
  · have closed : Safe h o { o with closed := true } :=
      ⟨⟨⟨c.core.requests,c.core.reserved,c.core.within,c.core.holders,c.core.held,c.core.made,
        c.core.gone,c.core.indexed,c.core.leases,c.core.committed,c.core.retired,c.core.joined⟩,
        c.needed⟩,⟨rfl,fun _ => ⟨rfl,rfl,rfl⟩,le_rfl,le_rfl,fun _ _ g => g,fun _ _ _ r _ => r,
        fun _ _ d => d,fun _ _ d => d,fun _ _ _ l => .inl l,fun _ _ => rfl⟩⟩
    have abandoned := closed.trans (Consistent.abandons
      (({ o with closed := true } : Owner π δ).nodes.sort (· ≤ ·)) closed.1)
    dsimp only
    split
    · exact ⟨abandoned.trans (abandoned.1.parks thread _),trivial⟩
    · exact ⟨abandoned,decide_eq_true_iff⟩

section
variable {l : Lookup} {n prod branch : ℕ}

variable [DecidableEq δ] in
lemma Consistent.wake (c : Consistent h o) (thread : ℕ) (expired : Bool) (copying : Copying π)
    (made : ∀ r timed,o.parked thread = some (.request r timed) → r<o.madeRequests) :
    Safe h o (o.wake h thread expired copying).2 ∧
      Answered o (o.wake h thread expired copying).2 (o.wake h thread expired copying).1 := by
  have free := c.parks thread none
  rw [Owner.wake]
  split
  · next r timed parked =>
    split
    · obtain ⟨safe,answered⟩ := free.1.deliver (made r timed parked) copying
      exact ⟨free.trans safe,answered⟩
    · split
      · exact ⟨free.trans (free.1.cancel (made r timed parked)),trivial⟩
      · exact ⟨Safe.refl c,trivial⟩
  · next timed _ =>
    split
    · next empty => exact ⟨free,⟨fun _ => empty,fun _ => rfl⟩⟩
    · next some =>
      split
      · exact ⟨free,⟨fun none => absurd none Bool.false_ne_true,fun empty => absurd empty some⟩⟩
      · exact ⟨Safe.refl c,trivial⟩
  · exact ⟨Safe.refl c,trivial⟩

lemma Core.enter
    (core : Core h (o.count fun s => { s with reservedBytes := s.reservedBytes+prod }))
    (here : n∈o.nodes)
    (same : (o.node n).binding = l.binding ∧ (o.node n).resources = l.resources ∧
      (o.node n).tokens <+: l.tokenIds) (few : o.stats.requests<o.bounds.maxRequests)
    (fits : o.stats.reservedBytes+branch+prod ≤ o.bounds.maxBytes) :
    Core h (o.enter l n prod branch) := by
  let made : Request π := ⟨n,decide (prod≠0),(o.node n).tokens.length,branch,false,false,.none,
    l.tokenIds,l.binding,l.resources⟩
  let joined : Node π δ := { o.node n with requests := insert o.madeRequests (o.node n).requests }
  have node (m : ℕ) : (o.enter l n prod branch).node m=if m=n then joined else o.node m :=
    update_apply _ _ _ _
  have request (q : ℕ) : (o.enter l n prod branch).request q =
      if q=o.madeRequests then made else o.request q := update_apply _ _ _ _
  have kept {α : Type} (f : Node π δ → α) (eq : f joined=f (o.node n)) (m : ℕ) :
      f ((o.enter l n prod branch).node m) = f (o.node m) := by
    rw [node]
    split
    · next is => rw [is,eq]
    · rfl
  have fresh : o.madeRequests ∉ o.unreleased := fun member =>
    lt_irrefl _ (mem_unreleased.mp member).1
  have now : (o.enter l n prod branch).unreleased=insert o.madeRequests o.unreleased := by
    ext q
    rw [mem_insert,mem_unreleased,mem_unreleased,request]
    by_cases eq : q=o.madeRequests
    · simp [eq,Owner.enter,made]
    · have more : q<o.madeRequests+1 ↔ q<o.madeRequests := by omega
      change q < o.madeRequests+1 ∧ _ ↔ _
      rw [more]
      simp [eq]
  have apart (q : ℕ) (member : q∈o.unreleased) :
      (o.enter l n prod branch).request q = o.request q := by
    rw [request,if_neg fun eq : q=o.madeRequests => fresh (eq ▸ member)]
  have own : (o.enter l n prod branch).request o.madeRequests=made := by
    rw [request,if_pos rfl]
  have size : (insert o.madeRequests o.unreleased).card=o.unreleased.card+1 :=
    card_insert_of_notMem fresh
  have counted : o.stats.requests=o.unreleased.card := core.requests
  have bytes : o.stats.reservedBytes+prod = ∑ r ∈ o.unreleased,((o.request r).reservation:ℤ)+
    ∑ m ∈ o.nodes,((o.node m).reservation:ℤ) := core.reserved
  refine ⟨?_,?_,⟨?_,?_,core.within.2.2⟩,?_,?_,core.made,?_,?_,?_,?_,core.retired,?_⟩
  · rw [now,size]
    change o.stats.requests+1=_
    rw [counted]
    rfl
  · rw [now,sum_insert fresh,own]
    have rest : ∑ q ∈ o.unreleased,(((o.enter l n prod branch).request q).reservation : ℤ) =
        ∑ q ∈ o.unreleased,((o.request q).reservation:ℤ) :=
      sum_congr rfl fun q member => by rw [apart q member]
    have nodes : ∑ m ∈ (o.enter l n prod branch).nodes,
        (((o.enter l n prod branch).node m).reservation : ℤ) =
        ∑ m ∈ o.nodes,((o.node m).reservation:ℤ) :=
      sum_congr rfl fun m _ => by rw [kept Node.reservation rfl]
    change o.stats.reservedBytes+((prod:ℤ)+branch)=(branch:ℤ)+_+_
    linarith
  · change o.stats.reservedBytes+((prod:ℤ)+branch) ≤ (o.bounds.maxBytes:ℤ)
    linarith
  · rw [now,size]
    change o.unreleased.card+1 ≤ o.bounds.maxRequests
    omega
  · intro m q
    rw [now,mem_insert,request]
    by_cases eq : q=o.madeRequests
    · simp only [eq,true_or,true_and,made]
      rw [node]
      split
      · next is => exact ⟨fun _ => is.symm,fun _ => mem_insert_self _ _⟩
      · next other =>
        exact ⟨fun member => absurd ((core.holders m _).mp member).1 fresh,fun is => absurd is.symm other⟩
    · have old : q ∈ ((o.enter l n prod branch).node m).requests ↔ q ∈ (o.node m).requests := by
        rw [node]
        split
        · next is =>
          rw [is]
          exact ⟨fun member => (mem_insert.mp member).resolve_left eq,
            mem_insert_of_mem⟩
        · exact Iff.rfl
      rw [old]
      refine (core.holders m q).trans ?_
      simp only [eq,false_or]
      rfl
  · intro q member
    rw [now,mem_insert] at member
    rcases member with rfl | member
    · rw [own]
      exact here
    · rw [apart q member]
      exact core.held q member
  · intro m out
    rw [kept Node.active rfl,kept Node.result rfl]
    exact core.gone m out
  · intro k m found
    rw [kept Node.key rfl,kept Node.status rfl,kept Node.binding rfl,kept Node.tokens rfl]
    exact core.indexed k m found
  · intro q p lease
    rw [now]
    by_cases eq : q=o.madeRequests
    · rw [eq,own] at lease
      cases lease
    · rw [request,if_neg eq] at lease
      obtain ⟨member,result⟩ := core.leases q p lease
      rw [request,if_neg eq,kept Node.result rfl]
      exact ⟨mem_insert_of_mem member,result⟩
  · intro m member
    rw [kept Node.commitment rfl,kept Node.result rfl,kept Node.status rfl]
    exact core.committed m member
  · intro q member
    rw [now,mem_insert] at member
    rw [kept Node.binding rfl,kept Node.resources rfl,kept Node.tokens rfl]
    rcases member with rfl | member
    · rw [own]
      exact ⟨same.1,same.2.1,same.2.2,rfl⟩
    · rw [apart q member]
      exact core.joined q member

lemma Core.register (core : Core h o) (few : o.nodes.card<o.bounds.maxNodes)
    (fits : o.stats.reservedBytes+prod ≤ o.bounds.maxBytes) : Core h
    ((o.register l prod).count fun s => { s with reservedBytes := s.reservedBytes+prod }) := by
  let fresh : Node π δ := ⟨some (l.binding,l.tokenIds),l.binding,l.resources,l.tokenIds,prod,false,
    ∅,true,.pending,none,none⟩
  have node (m : ℕ) : (o.register l prod).node m =
      if m=o.madeNodes then fresh else o.node m := update_apply _ _ _ _
  have new : o.madeNodes ∉ o.nodes := fun member => lt_irrefl _ (core.made _ member)
  have old (m : ℕ) (member : m∈o.nodes) : (o.register l prod).node m=o.node m := by
    rw [node,if_neg fun eq : m=o.madeNodes => new (eq ▸ member)]
  have own : (o.register l prod).node o.madeNodes=fresh := by rw [node,if_pos rfl]
  have size : (insert o.madeNodes o.nodes).card=o.nodes.card+1 := card_insert_of_notMem new
  refine ⟨core.requests,?_,⟨fits,core.within.2.1,?_⟩,?_,?_,?_,?_,?_,?_,?_,?_,?_⟩
  · change o.stats.reservedBytes+(prod:ℤ) = ∑ r ∈ o.unreleased,((o.request r).reservation:ℤ)+
      ∑ m ∈ insert o.madeNodes o.nodes,(((o.register l prod).node m).reservation : ℤ)
    have rest : ∑ m ∈ o.nodes,(((o.register l prod).node m).reservation : ℤ) =
        ∑ m ∈ o.nodes,((o.node m).reservation:ℤ) :=
      sum_congr rfl fun m member => by rw [old m member]
    rw [sum_insert new,own,rest,core.reserved]
    ring
  · change (insert o.madeNodes o.nodes).card ≤ o.bounds.maxNodes
    omega
  · intro m r
    change r ∈ ((o.register l prod).node m).requests ↔ r∈o.unreleased ∧ (o.request r).node=m
    rw [node]
    split
    · next eq =>
      refine ⟨fun member => absurd member (notMem_empty r),fun here => ?_⟩
      exact absurd (eq ▸ here.2 ▸ core.held r here.1) new
    · exact core.holders m r
  · exact fun r member => mem_insert_of_mem (core.held r member)
  · intro m member
    rcases mem_insert.mp member with rfl | member
    · exact Nat.lt_succ_self _
    · exact Nat.lt_succ_of_lt (core.made m member)
  · intro m out
    have other : m≠o.madeNodes := fun eq => out (eq ▸ mem_insert_self _ _)
    change ((o.register l prod).node m).active=false ∧
      ((o.register l prod).node m).result = none
    rw [node,if_neg other]
    exact core.gone m fun member => out (mem_insert_of_mem member)
  · intro k m found
    change (o.pending.set (l.binding,l.tokenIds) o.madeNodes).get? k=some m at found
    change m ∈ insert o.madeNodes o.nodes ∧ ((o.register l prod).node m).key=some k ∧
      ((o.register l prod).node m).status = .pending ∧
      k = (((o.register l prod).node m).binding,((o.register l prod).node m).tokens)
    rw [Dict.get?_set] at found
    split at found
    · next eq =>
      obtain rfl := Option.some.inj found
      rw [own,eq]
      exact ⟨mem_insert_self _ _,rfl,rfl,rfl⟩
    · obtain ⟨member,rest⟩ := core.indexed k m found
      rw [old m member]
      exact ⟨mem_insert_of_mem member,rest⟩
  · intro r p lease
    obtain ⟨member,result⟩ := core.leases r p lease
    refine ⟨member,?_⟩
    change ((o.register l prod).node (o.request r).node).result=some p
    rw [old _ (core.held r member)]
    exact result
  · intro m member
    change ((o.register l prod).node m).commitment =
        ((o.register l prod).node m).result.map h.commit ∧
      (((o.register l prod).node m).status = .published →
        ((o.register l prod).node m).result ≠ none) ∧
      (((o.register l prod).node m).status = .pending → ((o.register l prod).node m).result = none)
    rcases mem_insert.mp member with rfl | member
    · rw [own]
      exact ⟨rfl,fun eq => Status.noConfusion eq,fun _ => rfl⟩
    · rw [old m member]
      exact core.committed m member
  · have before := core.retired
    change o.stats.retired+(insert o.madeNodes o.nodes).card=o.madeNodes+1
    omega
  · intro r member
    change ((o.register l prod).node (o.request r).node).binding=_ ∧
      ((o.register l prod).node (o.request r).node).resources = _ ∧
      ((o.register l prod).node (o.request r).node).tokens <+: _ ∧
      _ = ((o.register l prod).node (o.request r).node).tokens.length
    rw [old _ (core.held r member)]
    exact core.joined r member

lemma Follows.register (o : Owner π δ) (l : Lookup) (prod : ℕ) (live : o.closed=false) :
    Follows o (o.register l prod) := by
  have old (m : ℕ) (made : m<o.madeNodes) : (o.register l prod).node m=o.node m :=
    (update_apply _ _ _ _).trans (if_neg made.ne)
  refine ⟨rfl,fun closed => ?_,Nat.le_succ _,le_rfl,fun m made gone member => ?_,
    fun m made p result _ => ?_,fun _ _ d => d,fun _ _ d => d,fun _ _ _ l => .inl l,fun _ _ => rfl⟩
  · rw [live] at closed
    cases closed
  · exact gone ((mem_insert.mp member).resolve_left made.ne)
  · rw [old m made]
    exact result

lemma Follows.enter (o : Owner π δ) (l : Lookup) (n prod branch : ℕ) (live : o.closed=false) :
    Follows o (o.enter l n prod branch) := by
  have old (q : ℕ) (made : q<o.madeRequests) : (o.enter l n prod branch).request q =
      o.request q := (update_apply _ _ _ _).trans (if_neg made.ne)
  have node (m : ℕ) : (o.enter l n prod branch).node m=if m=n then
      { o.node n with requests := insert o.madeRequests (o.node n).requests } else o.node m :=
    update_apply _ _ _ _
  refine ⟨rfl,fun closed => ?_,le_rfl,Nat.le_succ _,fun _ _ g => g,fun m _ p result _ => ?_,
    fun q made d => ?_,fun q made d => ?_,fun q made p lease => ?_,fun q made => ?_⟩
  · rw [live] at closed
    cases closed
  · rw [node]
    split
    · next eq => exact eq ▸ result
    · exact result
  · rw [old q made]
    exact d
  · rw [old q made]
    exact d
  · rw [old q made] at lease
    exact .inl lease
  · rw [old q made]

lemma candidate_spec (core : Core h o) (found : o.candidate l = some n) :
    n∈o.nodes ∧ (o.node n).binding = l.binding ∧ (o.node n).resources = l.resources ∧
      (o.node n).tokens <+: l.tokenIds := by
  have member := List.argmax_mem found
  obtain ⟨listed,checks⟩ := List.mem_filter.mp member
  obtain ⟨⟨k,m⟩,item,rfl⟩ := List.mem_map.mp listed
  refine ⟨(core.indexed k m (Dict.get?_eq_some.mpr item)).1,?_⟩
  simpa using checks

lemma Needed.enter (needed : ∀ m≠n,Needed o m) (m : ℕ) : Needed (o.enter l n prod branch) m := by
  have node : (o.enter l n prod branch).node m=if m=n then
      { o.node n with requests := insert o.madeRequests (o.node n).requests } else o.node m :=
    update_apply _ _ _ _
  intro here
  rw [node]
  split
  · exact .inr (insert_ne_empty _ _)
  · next other => exact needed m other here

lemma Needed.register (needed : ∀ m,Needed o m) (m : ℕ) (other : m≠o.madeNodes) :
    Needed (o.register l prod) m := by
  have node : (o.register l prod).node m=o.node m :=
    (update_apply _ _ _ _).trans (if_neg other)
  intro here
  rw [node]
  exact needed m ((mem_insert.mp here).resolve_left other)

lemma Consistent.lookupOrRegister (c : Consistent h o) (l : Lookup) : Safe h o
    (o.lookupOrRegister l).2 ∧ Answered o (o.lookupOrRegister l).2 (o.lookupOrRegister l).1 := by
  have counted (f : Stats → Stats) (same : (f o.stats).requests=o.stats.requests ∧
      (f o.stats).reservedBytes = o.stats.reservedBytes ∧
      (f o.stats).retired = o.stats.retired) : Safe h o (o.count f) :=
    ⟨⟨c.core.count same,c.needed⟩,Follows.count o f⟩
  rw [Owner.lookupOrRegister]
  split
  · exact ⟨Safe.refl c,trivial⟩
  split
  · exact ⟨Safe.refl c,trivial⟩
  split
  · exact ⟨Safe.refl c,trivial⟩
  split
  · exact ⟨Safe.refl c,trivial⟩
  next live =>
  have live : o.closed=false := by simpa using live
  split
  · exact ⟨counted (fun s => { s with cacheBypasses := s.cacheBypasses+1 }) ⟨rfl,rfl,rfl⟩,
      trivial⟩
  have rejected := counted (fun s => { s with boundRejections := s.boundRejections+1 })
    ⟨rfl,rfl,rfl⟩
  cases found : o.candidate l with
  | none =>
    simp only [true_and,if_true]
    split
    · exact ⟨rejected,trivial⟩
    next fits =>
    simp only [not_or,not_le,gt_iff_lt,not_lt] at fits
    obtain ⟨requests,nodes,bytes⟩ := fits
    split
    · exact ⟨Safe.refl c,trivial⟩
    have room : o.stats.reservedBytes+l.resources.producerBytes l.tokenIds.length ≤
        o.bounds.maxBytes := by linarith
    have registered := c.core.register (l := l) nodes room
    have own : (o.register l (l.resources.producerBytes l.tokenIds.length)).node o.madeNodes=_ :=
      update_self _ _ _
    refine ⟨⟨⟨registered.enter (mem_insert_self _ _) ?_ requests bytes,
      fun m => Needed.enter (Needed.register c.needed) m⟩,
      (Follows.register o l _ live).trans (Follows.enter _ l _ _ _ live)⟩,
      live,rfl,rfl⟩
    rw [own]
    exact ⟨rfl,rfl,List.prefix_rfl⟩
  | some n =>
    simp only [reduceCtorEq,false_and,false_or,if_false]
    split
    · exact ⟨rejected,trivial⟩
    next fits =>
    simp only [not_or,not_le,gt_iff_lt,not_lt] at fits
    obtain ⟨requests,bytes⟩ := fits
    split
    · exact ⟨Safe.refl c,trivial⟩
    obtain ⟨here,same⟩ := candidate_spec c.core found
    have joined : Core h ((o.count fun s => { s with joins := s.joins+1 }).count fun s =>
        { s with reservedBytes := s.reservedBytes+(0:ℕ) }) :=
      (c.core.count ⟨rfl,rfl,rfl⟩).count ⟨rfl,add_zero _,rfl⟩
    have others (m : ℕ) (_ : m≠n) : Needed (o.count fun s => { s with joins := s.joins+1 }) m :=
      c.needed m
    exact ⟨⟨⟨joined.enter here same requests bytes,fun m => Needed.enter others m⟩,
      (Follows.count o _).trans (Follows.enter _ l _ _ _ live)⟩,
      live,rfl,rfl⟩

end

/-- A thread waits for requests that were made. -/
def Owner.Waits (o : Owner π δ) : Prop :=
  ∀ thread r timed,o.parked thread = some (.request r timed) → r<o.madeRequests

lemma Owner.Waits.follows {o' : Owner π δ} (w : o.Waits) (f : Follows o o')
    (parked : ∀ thread p,o'.parked thread = some p → o.parked thread = some p) : o'.Waits :=
  fun thread r timed found => (w thread r timed (parked thread _ found)).trans_le f.madeRequests

end

section
variable {h : Hashing π δ} {o : Owner π δ} {n r : ℕ}

/-- What most calls leave alone: who waits, and how many requests were made. -/
def Owner.frame (o : Owner π δ) : (ℕ → Option Parked) × ℕ := (o.parked,o.madeRequests)

section
variable (o : Owner π δ)

lemma frame_markFailed (n : ℕ) : (o.markFailed n).frame = o.frame := by
  obtain ⟨pending,eq,-⟩ := unindex_eq o n
  rw [markFailed_eq,eq]
  split <;> rfl

lemma frame_signal (n : ℕ) : (o.signal n).frame = o.frame := by
  rw [Owner.signal]
  split <;> rfl

lemma frame_unindex (n : ℕ) : (o.unindex n).frame = o.frame := by
  obtain ⟨pending,eq,-⟩ := unindex_eq o n
  rw [eq]
  rfl

lemma frame_retire (n : ℕ) : (o.retire n).frame = o.frame := by
  rw [Owner.retire]
  split
  · rfl
  · exact frame_unindex o n

lemma frame_release (r : ℕ) : (o.release r).frame = o.frame := by
  rw [Owner.release]
  split
  · rfl
  · rw [frame_retire]
    split
    · rw [frame_signal,frame_unindex]
      rfl
    · rfl

lemma frame_cancel (r : ℕ) : (o.cancel r).frame = o.frame := by
  rw [Owner.cancel]
  split
  · rfl
  · dsimp only
    split
    · exact frame_release _ r
    · rfl

lemma frame_fail (r : ℕ) : (o.fail r).2.frame = o.frame := by
  rw [Owner.fail]
  split
  · rfl
  · split
    · rfl
    · exact frame_markFailed _ _

lemma frame_finish (r : ℕ) : (o.finish r).2.frame = o.frame := by
  rw [Owner.finish]
  split
  · rfl
  · split
    · rfl
    · rw [frame_retire]
      split
      · exact frame_markFailed _ _
      · rfl

end

lemma frame_cancels (rs : List ℕ) (o : Owner π δ) : (rs.foldl Owner.cancel o).frame = o.frame := by
  induction rs generalizing o with
  | nil => rfl
  | cons r rs ih => exact (ih (o.cancel r)).trans (frame_cancel o r)

lemma frame_abandon (o : Owner π δ) (n : ℕ) : (o.abandon n).frame = o.frame := by
  rw [Owner.abandon,frame_cancels,frame_unindex,frame_signal]

lemma frame_abandons (ns : List ℕ) (o : Owner π δ) :
    (ns.foldl Owner.abandon o).frame = o.frame := by
  induction ns generalizing o with
  | nil => rfl
  | cons n ns ih => exact (ih (o.abandon n)).trans (frame_abandon o n)

lemma parked_lookupOrRegister (o : Owner π δ) (l : Lookup) :
    (o.lookupOrRegister l).2.parked = o.parked := by
  rw [Owner.lookupOrRegister]
  dsimp only
  cases o.candidate l <;> (repeat' split) <;> rfl

variable [DecidableEq δ]

lemma frame_publish (o : Owner π δ) (r : ℕ) (p : Publishing π) :
    (o.publish h r p).2.frame = o.frame := by
  rw [Owner.publish]
  split
  · rfl
  · split
    · rfl
    · split
      · split
        · exact frame_unindex _ _
        · exact frame_markFailed _ _
      · exact frame_markFailed _ _

lemma frame_deliver (o : Owner π δ) (r : ℕ) (c : Copying π) :
    (o.deliver h r c).2.frame = o.frame := by
  rw [Owner.deliver]
  split
  · rfl
  · split
    · rfl
    · split
      · exact frame_release o r
      · split
        · exact (frame_release _ r).trans (frame_markFailed o _)
        · split
          · split
            · rfl
            · exact frame_release o r
          · exact frame_release o r

omit [DecidableEq δ] in
lemma parked_eq {o' : Owner π δ} (same : o'.frame=o.frame) : o'.parked=o.parked :=
  congrArg Prod.fst same

omit [DecidableEq δ] in
lemma made_eq {o' : Owner π δ} (same : o'.frame=o.frame) : o'.madeRequests=o.madeRequests :=
  congrArg Prod.snd same

omit [DecidableEq δ] in
lemma parked_park (o : Owner π δ) (thread t : ℕ) (p : Option Parked) :
    (o.park thread p).parked t = if t=thread then p else o.parked t :=
  update_apply _ _ _ _

lemma Owner.Waits.wait (w : o.Waits) (thread : ℕ) (made : r<o.madeRequests)
    (timeout : Option ℚ) (c : Copying π) (f : Follows o (o.wait h thread r timeout c).2) :
    (o.wait h thread r timeout c).2.Waits := by
  intro t q timed found
  refine lt_of_lt_of_le ?_ f.madeRequests
  rw [Owner.wait] at found
  split at found
  · exact w t q timed found
  · split at found
    · exact w t q timed found
    · split at found
      · exact w t q timed found
      · split at found
        · exact w t q timed (parked_eq (frame_deliver (h := h) o r c) ▸ found)
        · split at found
          · exact w t q timed (parked_eq (frame_cancel o r) ▸ found)
          · rw [parked_park] at found
            split at found
            · cases found
              exact made
            · exact w t q timed found

omit [DecidableEq δ] in
lemma Owner.Waits.close (w : o.Waits) (thread : ℕ) (waits : Bool) (timeout : Option ℚ)
    (f : Follows o (o.close thread waits timeout).2) : (o.close thread waits timeout).2.Waits := by
  intro t q timed found
  refine lt_of_lt_of_le ?_ f.madeRequests
  rw [Owner.close] at found
  split at found
  · exact w t q timed found
  · dsimp only at found
    split at found
    · rw [parked_park,parked_eq (frame_abandons _ _)] at found
      split at found
      · cases found
      · exact w t q timed found
    · rw [parked_eq (frame_abandons _ _)] at found
      exact w t q timed found

lemma Owner.Waits.wake (w : o.Waits) (thread : ℕ) (expired : Bool) (c : Copying π)
    (f : Follows o (o.wake h thread expired c).2) : (o.wake h thread expired c).2.Waits := by
  intro t q timed found
  refine lt_of_lt_of_le ?_ f.madeRequests
  have before (p : Option Parked) (eq : p=(o.park thread none).parked t)
      (found : p = some (.request q timed)) : q<o.madeRequests := by
    rw [eq,parked_park] at found
    split at found
    · cases found
    · exact w t q timed found
  rw [Owner.wake] at found
  split at found
  · next r limited _ =>
    split at found
    · exact before _ (congrFun (parked_eq (frame_deliver (h := h) (o.park thread none) r c)) t) found
    · split at found
      · exact before _ (congrFun (parked_eq (frame_cancel (o.park thread none) r)) t) found
      · exact w t q timed found
  · split at found
    · exact before _ rfl found
    · split at found
      · exact before _ rfl found
      · exact w t q timed found
  · exact w t q timed found

lemma made_wait (o : Owner π δ) (thread r : ℕ) (timeout : Option ℚ) (c : Copying π) :
    (o.wait h thread r timeout c).2.madeRequests = o.madeRequests := by
  rw [Owner.wait]
  split
  · rfl
  · split
    · rfl
    · split
      · rfl
      · split
        · exact made_eq (frame_deliver o r c)
        · split
          · exact made_eq (frame_cancel o r)
          · rfl

omit [DecidableEq δ] in
lemma made_close (o : Owner π δ) (thread : ℕ) (waits : Bool) (timeout : Option ℚ) :
    (o.close thread waits timeout).2.madeRequests = o.madeRequests := by
  rw [Owner.close]
  split
  · rfl
  · dsimp only
    have same := made_eq (frame_abandons (o.nodes.sort (· ≤ ·)) { o with closed := true })
    split
    · exact same
    · exact same

lemma made_wake (o : Owner π δ) (thread : ℕ) (expired : Bool) (c : Copying π) :
    (o.wake h thread expired c).2.madeRequests = o.madeRequests := by
  rw [Owner.wake]
  split
  · next r timed _ =>
    have delivered := made_eq (frame_deliver (h := h) (o.park thread none) r c)
    have cancelled := made_eq (frame_cancel (o.park thread none) r)
    split
    · exact delivered
    · split
      · exact cancelled
      · rfl
  · split
    · rfl
    · split <;> rfl
  · rfl

omit [DecidableEq δ] in
lemma lease_lookupOrRegister (o : Owner π δ) (l : Lookup) (r : ℕ) (p : π)
    (held : ((o.lookupOrRegister l).2.request r).lease = .held p) : (o.request r).lease = .held p := by
  have entered (o' : Owner π δ) (same : o'.request=o.request) (n prod branch : ℕ)
      (held : ((o'.enter l n prod branch).request r).lease = .held p) :
      (o.request r).lease = .held p := by
    have request : (o'.enter l n prod branch).request r=if r=o'.madeRequests then _ else
      o'.request r := update_apply _ _ _ _
    rw [request] at held
    split at held
    · cases held
    · exact same ▸ held
  rw [Owner.lookupOrRegister] at held
  dsimp only at held
  cases found : o.candidate l with
  | none =>
    simp only [found] at held
    repeat' split at held
    all_goals first | exact held | exact entered (o.register l _) rfl _ _ _ held
  | some n =>
    simp only [found] at held
    repeat' split at held
    all_goals first | exact held | exact entered (o.count _) rfl _ _ _ held

/-- What holds of every owner that is reached. -/
structure Reached (h : Hashing π δ) (o : Owner π δ) : Prop where
  consistent : Consistent h o
  waits : o.Waits

/-- A lease that a step adds is of a request that is neither released nor cancelled. -/
def Grants (o o' : Owner π δ) : Prop :=
  ∀ r p,(o'.request r).lease = .held p → (o.request r).lease = .held p ∨
    r∈o.unreleased ∧ (o.request r).cancelled = false ∧ o.closed=false

omit [DecidableEq δ] in
lemma Consistent.grants {o' : Owner π δ} (c : Consistent h o') (f : Follows o o')
    (made : o'.madeRequests=o.madeRequests) : Grants o o' := by
  intro r p held
  have here : r<o.madeRequests := made ▸ (mem_unreleased.mp (c.core.leases r p held).1).1
  rcases f.lease r here p held with held | ⟨released,rest⟩
  · exact .inl held
  · exact .inr ⟨mem_unreleased.mpr ⟨here,released⟩,rest⟩

/-- What one step gives. -/
structure Steps (h : Hashing π δ) (o : Owner π δ) (s : Answer π × Owner π δ) : Prop where
  reached : Reached h s.2
  follows : Follows o s.2
  grants : Grants o s.2
  answered : Answered o s.2 s.1

omit [DecidableEq δ] in
lemma Reached.still (c : Reached h o) (answer : Answer π) (answered : Answered o o answer) :
    Steps h o (answer,o) :=
  ⟨c,Follows.refl o,fun _ _ held => .inl held,answered⟩

omit [DecidableEq δ] in
lemma Reached.frame (c : Reached h o) {s : Answer π × Owner π δ} (safe : Safe h o s.2)
    (same : s.2.frame=o.frame) (answered : Answered o s.2 s.1) : Steps h o s :=
  ⟨⟨safe.1,c.waits.follows safe.2 fun _ _ found => parked_eq same ▸ found⟩,safe.2,
    safe.1.grants safe.2 (made_eq same),answered⟩

lemma Reached.act (c : Reached h o) (thread : ℕ) (a : Action π)
    (made : ∀ r∈a.on,r<o.madeRequests) : Steps h o (act h o thread a) := by
  cases a with
  | lookupOrRegister l =>
    obtain ⟨safe,answered⟩ := c.consistent.lookupOrRegister l
    exact ⟨⟨safe.1,c.waits.follows safe.2 fun t p found => parked_lookupOrRegister o l ▸ found⟩,
      safe.2,fun r p held => .inl (lease_lookupOrRegister o l r p held),answered⟩
  | publish r p =>
    refine c.frame (c.consistent.publish r p) (frame_publish o r p) ?_
    change Answered o (o.publish h r p).2 (o.publish h r p).1
    rw [Owner.publish]
    repeat' split
    all_goals trivial
  | fail r =>
    refine c.frame (c.consistent.fail r) (frame_fail o r) ?_
    change Answered o (o.fail r).2 (o.fail r).1
    rw [Owner.fail]
    repeat' split
    all_goals trivial
  | finish r =>
    refine c.frame (c.consistent.finish r) (frame_finish o r) ?_
    change Answered o (o.finish r).2 (o.finish r).1
    rw [Owner.finish]
    repeat' split
    all_goals trivial
  | wait r timeout copying =>
    obtain ⟨safe,answered⟩ := c.consistent.wait thread (made r rfl) timeout copying
    exact ⟨⟨safe.1,c.waits.wait thread (made r rfl) timeout copying safe.2⟩,safe.2,
      safe.1.grants safe.2 (made_wait o thread r timeout copying),answered⟩
  | cancel r =>
    exact c.frame (c.consistent.cancel (made r rfl)) (frame_cancel o r) trivial
  | release r =>
    exact c.frame (c.consistent.release (made r rfl)) (frame_release o r) trivial
  | close waits timeout =>
    obtain ⟨safe,answered⟩ := c.consistent.close thread waits timeout
    exact ⟨⟨safe.1,c.waits.close thread waits timeout safe.2⟩,safe.2,
      safe.1.grants safe.2 (made_close o thread waits timeout),answered⟩
  | wake expired copying =>
    obtain ⟨safe,answered⟩ := c.consistent.wake thread expired copying (c.waits thread)
    exact ⟨⟨safe.1,c.waits.wake thread expired copying safe.2⟩,safe.2,
      safe.1.grants safe.2 (made_wake o thread expired copying),answered⟩

lemma Reached.step (c : Reached h o) (e : Event π) : Steps h o (step h o e) := by
  rw [InflightPrefix.step]
  split
  · next possible => exact c.act e.thread e.action possible.2
  · exact c.still .idle trivial

lemma Reached.run (events : List (Event π)) (c : Reached h o) :
    Reached h (run h events o) ∧ (run h events o).bounds = o.bounds := by
  induction events generalizing o with
  | nil => exact ⟨c,rfl⟩
  | cons e events ih =>
    obtain ⟨reached,bounds⟩ := ih (c.step e).reached
    exact ⟨reached,bounds.trans (c.step e).follows.bounds⟩

omit [DecidableEq δ] in
lemma Reached.new (h : Hashing π δ) (bounds : Bounds) : Reached h (Owner.new bounds) := by
  have none : (Owner.new bounds : Owner π δ).unreleased = ∅ := rfl
  refine ⟨⟨⟨rfl,rfl,⟨Nat.cast_nonneg _,zero_le,zero_le⟩,fun n r => ?_,fun r m => ?_,
    fun n m => ?_,fun n _ => ⟨rfl,rfl⟩,fun k n found => ?_,fun r p held => ?_,fun n m => ?_,rfl,
    fun r m => ?_⟩,fun n m => ?_⟩,fun t r timed parked => ?_⟩
  · rw [none]
    exact ⟨fun m => absurd m (notMem_empty r),fun m => absurd m.1 (notMem_empty r)⟩
  · exact absurd (none ▸ m) (notMem_empty r)
  · exact absurd m (notMem_empty n)
  · cases found
  · cases held
  · exact absurd m (notMem_empty n)
  · exact absurd (none ▸ m) (notMem_empty r)
  · exact absurd m (notMem_empty n)
  · cases parked

end

/-- A result commits to itself. -/
def plainHashing : Hashing ℕ ℕ := ⟨id,Function.injective_id⟩

def fourRequests : Bounds := ⟨4,2,4096,by decide,by decide,by decide⟩

/-- A producer of two tokens, a request of three that joins it and parks, a publication that wakes it,
and the release of both. -/
def sharedPrefill : List (Event ℕ) :=
  [⟨0,.lookupOrRegister ⟨true,noBinding,[1,2],⟨1,1,1,4,8⟩,true,false⟩⟩,
    ⟨1,.lookupOrRegister ⟨true,noBinding,[1,2,3],⟨1,1,1,4,8⟩,true,false⟩⟩,
    ⟨1,.wait 1 none ⟨none,none⟩⟩,⟨0,.publish 0 ⟨true,7,some 7,true,7⟩⟩,
    ⟨1,.wake false ⟨some 7,some 7⟩⟩]

end Pllm.Runtime.InflightPrefix
