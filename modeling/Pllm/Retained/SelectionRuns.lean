import Pllm.Retained.Cache

/-! Runs of one selection owner under calls in any order, with receipts of its own and of other
owners: which calls may change the cached rows. -/
namespace Pllm.Retained
open Pllm.Lib Pllm.Garble List

inductive Event
  | append (first : ℕ) (keys values : List Float32)
  | issue (build : CircuitBuild) (scores : List Float32) (policy : Policy) (layout : Layout)
  | cancel
  | finish (client : SelectionClient) (output : SelectionOutput)
  | close

/-- An owner with the history of its receipts: `outstanding` is the last one issued, until an
append, a cancellation, a close or an attempt to finish it retires it. -/
structure System where
  owner : SelectionOwner
  issued : List SelectionClient
  outstanding : Option SelectionClient

namespace System

def step (s : System) : Event → Except String Unit × System
  | .append first keys values =>
    let r := s.owner.append first keys values
    (r.1,⟨r.2,s.issued,if r.1.isOk then none else s.outstanding⟩)
  | .issue build scores policy layout =>
    match s.owner.issueWithLayout build scores policy layout with
    | (.error e,owner) => (.error e,⟨owner,s.issued,s.outstanding⟩)
    | (.ok issued,owner) => (.ok (),⟨owner,issued.1::s.issued,some issued.1⟩)
  | .cancel => (.ok (),⟨s.owner.cancel,s.issued,none⟩)
  | .finish client output =>
    let r := client.finish s.owner output
    (r.1,⟨r.2,s.issued,if s.outstanding = some client then none else s.outstanding⟩)
  | .close => (.ok (),⟨s.owner.close,s.issued,none⟩)

/-- Receipts come from this owner or from one with another identity, and issuance identities, which
are drawn at random, do not repeat. -/
def Admissible (s : System) : Event → Prop
  | .finish client _ => client∈s.issued ∨ client.binding.owner≠s.owner.identity
  | .issue build scores policy layout => ∀ issued,
    s.owner.prepare build scores policy layout = .ok issued →
      issued.1.binding.issuance ∉ s.issued.map fun client => client.binding.issuance
  | _ => True

/-- The states of an owner's runs, from its construction on. -/
inductive Reachable : System → Prop
  | new {context : Context} {cache : RetainedKvCache} {identity : BitVec 256} {owner : SelectionOwner}
    (h : SelectionOwner.new context cache identity = .ok owner) : Reachable ⟨owner,[],none⟩
  | step {s : System} (hs : Reachable s) (e : Event) (he : s.Admissible e) :
    Reachable (s.step e).2

/-- What ties the owner's marker to the receipts it gave out. -/
structure Valid (s : System) : Prop where
  pending : s.owner.pending=s.outstanding.map fun client => client.binding.issuance
  outstanding : ∀ client, s.outstanding = some client → client∈s.issued
  unique : (s.issued.map fun client => client.binding.issuance).Nodup
  owner : ∀ client∈s.issued, client.binding.owner=s.owner.identity
  revision : ∀ client, s.outstanding = some client → client.binding.revision=s.owner.revision

end System

namespace SelectionOwner

lemma append_cases (self : SelectionOwner) (first : ℕ) (keys values : List Float32) :
    (∃ e, self.append first keys values = (.error e,self)) ∨
      ∃ cache, self.append first keys values = (.ok (),{ self with
        revision := self.revision+1
        cache := cache
        pending := none }) := by
  unfold append nextRevision
  split_ifs with hrev
  · exact .inl ⟨_,rfl⟩
  · cases hcac : self.cache.append first keys values with
    | error e => exact .inl ⟨e,rfl⟩
    | ok cache => exact .inr ⟨cache,rfl⟩

lemma prepare_binding {build : CircuitBuild} {self : SelectionOwner} {scores : List Float32}
    {policy : Policy} {layout : Layout} {issued : SelectionClient × SelectionEvaluator}
    (h : self.prepare build scores policy layout = .ok issued) : self.pending=none ∧
    issued.1.binding.owner=self.identity ∧ issued.1.binding.revision=self.revision := by
  simp only [prepare,bind_eq_ok,ite_error_eq_ok,pure_eq_ok,ok_eq_ok] at h
  obtain ⟨-,-,hpnd,-,-,-,-,-,-,-,-,-,-,rfl⟩ := h
  exact ⟨by simpa using hpnd,rfl,rfl⟩

end SelectionOwner

namespace SelectionClient

lemma length_checkRecords {keys values : List Float32} {positions : List (BitVec 32)} {width : ℕ}
    {last : Option ℕ} {records : List (List Bool)} {selected : List ℕ} (h : checkRecords keys values
    positions width last records = .ok selected) : selected.length=records.length := by
  induction records generalizing last selected with
  | nil =>
    simp only [checkRecords,ok_eq_ok] at h
    simp [← h]
  | cons record records ih =>
    rw [checkRecords] at h
    split_ifs at h
    split at h
    · cases h
    · simp only [ite_error_eq_ok,bind_eq_ok,pure_eq_ok,ok_eq_ok] at h
      obtain ⟨-,rest,hrest,rfl⟩ := h
      simp [ih hrest]

/-- A commit keeps the room left for further rows. -/
lemma commit_eq_ok {self : SelectionClient} {owner : SelectionOwner} {output : SelectionOutput}
    {cache : RetainedKvCache} {revision : ℕ} (h : self.commit owner output = .ok (cache,revision)) :
    owner.revision=self.binding.revision ∧ revision=owner.revision+1 ∧
      cache.capacity-cache.length = owner.cache.capacity-owner.cache.length := by
  simp only [commit,SelectionOwner.nextRevision,bind_eq_ok,ite_error_eq_ok,pure_eq_ok,
    ok_eq_ok,Prod.mk.injEq] at h
  obtain ⟨hsame,bits,-,rows,-,hlen,selected,hsel,_,⟨-,rfl⟩,next,hreta,rfl,rfl⟩ := h
  obtain ⟨hcap,hleng,-⟩ := RetainedKvCache.retain_eq_ok hreta
  have hcnt : selected.length=self.binding.policy.keep := by
    rw [length_checkRecords hsel,chunksExact,length_map,length_range]
    rw [not_not] at hlen
    rw [hlen]
    exact Nat.mul_div_cancel _ (by omega)
  omega

/-- All that a call to `finish` can do. -/
lemma finish_cases (self : SelectionClient) (owner : SelectionOwner) (output : SelectionOutput) :
    (∃ e, (owner.identity≠self.binding.owner ∨ owner.pending ≠ some self.binding.issuance) ∧
      self.finish owner output = (.error e,owner)) ∨
    owner.identity=self.binding.owner ∧ owner.pending = some self.binding.issuance ∧
      ((∃ e, self.finish owner output = (.error e,owner.cancel)) ∨
        ∃ cache, owner.revision=self.binding.revision ∧
          cache.capacity-cache.length = owner.cache.capacity-owner.cache.length ∧
          self.finish owner output = (.ok (),{ owner with
            cache := cache
            revision := owner.revision+1
            pending := none })) := by
  unfold finish
  split_ifs with hsta
  · exact .inl ⟨_,hsta,rfl⟩
  · rw [not_or,not_not,not_not] at hsta
    refine .inr ⟨hsta.1,hsta.2,?_⟩
    cases hcom : self.commit { owner with pending := none } output with
    | error e =>
      refine .inl ⟨e,?_⟩
      simp only [hcom]
      rfl
    | ok result =>
      obtain ⟨cache,revision⟩ := result
      obtain ⟨hrev,rfl,hroom⟩ := commit_eq_ok hcom
      refine .inr ⟨cache,hrev,hroom,?_⟩
      simp only [hcom]

end SelectionClient

namespace System

lemma Valid.outstanding_eq {s : System} (hs : s.Valid) {client : SelectionClient}
    (hcli : client∈s.issued ∨ client.binding.owner≠s.owner.identity)
    (hidt : s.owner.identity=client.binding.owner)
    (hpnd : s.owner.pending = some client.binding.issuance) : s.outstanding = some client := by
  rw [hs.pending,Option.map_eq_some_iff] at hpnd
  obtain ⟨live,hlive,hid⟩ := hpnd
  have hmem : client∈s.issued := hcli.resolve_right (not_not_intro hidt.symm)
  rw [hlive,inj_on_of_nodup_map hs.unique (hs.outstanding live hlive) hmem hid]

lemma Valid.step {s : System} (hs : s.Valid) {e : Event} (he : s.Admissible e) :
    (s.step e).2.Valid := by
  have hret : ∀ owner : SelectionOwner, owner.pending=none →
      owner.identity=s.owner.identity → Valid ⟨owner,s.issued,none⟩ := by
    intro owner hpnd hidt
    exact ⟨hpnd,nofun,hs.unique,fun client hc => (hs.owner client hc).trans hidt.symm,nofun⟩
  cases e with
  | append first keys values =>
    obtain ⟨e,heq⟩ | ⟨cache,heq⟩ := s.owner.append_cases first keys values
    · simp only [System.step,heq]
      exact hs
    · simp only [System.step,heq]
      exact hret _ rfl rfl
  | issue build scores policy layout =>
    simp only [System.step,SelectionOwner.issueWithLayout]
    cases hprp : s.owner.prepare build scores policy layout with
    | error e => exact hs
    | ok issued =>
      obtain ⟨-,hown,hrev⟩ := SelectionOwner.prepare_binding hprp
      refine ⟨rfl,?_,?_,?_,?_⟩
      · rintro client ⟨⟩
        exact mem_cons_self
      · exact nodup_cons.mpr ⟨he issued hprp,hs.unique⟩
      · intro client hc
        obtain rfl | hc := mem_cons.mp hc
        · exact hown
        · exact hs.owner client hc
      · rintro client ⟨⟩
        exact hrev
  | cancel => exact hret _ rfl rfl
  | close => exact hret _ rfl rfl
  | finish client output =>
    obtain ⟨e,hsta,heq⟩ | ⟨hidt,hpnd,⟨e,heq⟩ | ⟨cache,-,-,heq⟩⟩ :=
      client.finish_cases s.owner output
    · have hne : s.outstanding ≠ some client := by
        intro hlive
        obtain hne | hne := hsta
        · exact hne (hs.owner client (hs.outstanding client hlive)).symm
        · exact hne (by rw [hs.pending,hlive,Option.map_some])
      simp only [System.step,heq,if_neg hne]
      exact hs
    all_goals
      simp only [System.step,heq,if_pos (hs.outstanding_eq he hidt hpnd)]
      exact hret _ rfl rfl

lemma Reachable.valid {s : System} (hs : Reachable s) : s.Valid := by
  induction hs with
  | new h =>
    simp only [SelectionOwner.new,bind_eq_ok,ite_error_eq_ok,pure_eq_ok,ok_eq_ok] at h
    obtain ⟨-,-,-,rfl⟩ := h
    exact ⟨rfl,nofun,nodup_nil,by simp,nofun⟩
  | step hs e he ih => exact ih.step he

end System

/-- Closing an owner changes its cache. -/
theorem close_changes_cache :
    let cache : RetainedKvCache := ⟨[1],[2],[0],1,1,1,1,4,false⟩
    ∃ owner, SelectionOwner.new ⟨1,1,1,0⟩ cache 5 = .ok owner ∧
      (System.step ⟨owner,[],none⟩ .close).2.owner.cache ≠ owner.cache := by
  refine ⟨_,rfl,?_⟩
  decide

/-- In every run the cached rows change only by a successful append, by a successful finish with the
outstanding receipt at its own revision, or by a close; any other receipt changes nothing, a failed
finish keeps rows and revision, and a successful one keeps the room left. -/
theorem selection_owner_runs {s : System} (hs : s.Reachable) (e : Event) (he : s.Admissible e) :
    ((s.step e).2.owner.cache ≠ s.owner.cache →
      (∃ first keys values, e = .append first keys values ∧ (s.step e).1 = .ok ()) ∨
      (∃ client output, e = .finish client output ∧ (s.step e).1 = .ok () ∧
        s.outstanding = some client ∧ client.binding.revision=s.owner.revision) ∨
      e = .close) ∧
    (e = .close → (s.step e).2.owner.cache = { s.owner.cache with
      keys := [], values := [], positions := [], length := 0, capacity := 0, nextPosition := 0,
      closed := true }) ∧
    ∀ client output, e = .finish client output → (s.outstanding ≠ some client →
        (∃ error, (s.step e).1 = .error error) ∧ (s.step e).2.owner = s.owner) ∧
      ((∃ error, (s.step e).1 = .error error) →
        (s.step e).2.owner.cache = s.owner.cache ∧ (s.step e).2.owner.revision = s.owner.revision) ∧
      ((s.step e).1 = .ok () → (s.step e).2.owner.cache.capacity-(s.step e).2.owner.cache.length =
        s.owner.cache.capacity-s.owner.cache.length) := by
  have hvld := hs.valid
  refine ⟨?_,?_,?_⟩
  · intro hcha
    cases e with
    | append first keys values =>
      obtain ⟨e,heq⟩ | ⟨cache,heq⟩ := s.owner.append_cases first keys values
      · simp [System.step,heq] at hcha
      · exact .inl ⟨first,keys,values,rfl,by simp [System.step,heq]⟩
    | issue build scores policy layout =>
      simp only [System.step,SelectionOwner.issueWithLayout] at hcha
      cases hprp : s.owner.prepare build scores policy layout <;> simp [hprp] at hcha
    | cancel => exact absurd rfl hcha
    | close => exact .inr (.inr rfl)
    | finish client output =>
      obtain ⟨e,-,heq⟩ | ⟨hidt,hpnd,⟨e,heq⟩ | ⟨cache,hrev,-,heq⟩⟩ :=
        client.finish_cases s.owner output
      · simp [System.step,heq] at hcha
      · simp [System.step,heq,SelectionOwner.cancel] at hcha
      · exact .inr (.inl ⟨client,output,rfl,by simp [System.step,heq],
          hvld.outstanding_eq he hidt hpnd,hrev.symm⟩)
  · rintro rfl
    rfl
  · rintro client output rfl
    obtain ⟨e,-,heq⟩ | ⟨hidt,hpnd,⟨e,heq⟩ | ⟨cache,-,hroom,heq⟩⟩ :=
      client.finish_cases s.owner output
    · simp [System.step,heq]
    · have hlive := hvld.outstanding_eq he hidt hpnd
      simp [System.step,heq,hlive,SelectionOwner.cancel]
    · have hlive := hvld.outstanding_eq he hidt hpnd
      simp [System.step,heq,hlive,hroom]

/-- A circuit that copies the last row to its outputs. -/
def copyLast : CircuitBuild := fun _ rows width policy =>
  let record := 32+64*width
  .ok (⟨7,replicate (rows*(32+record)) ⟨0,1⟩,replicate (policy.keep*record) ⟨0,1⟩⟩,
    ⟨7,rows*(32+record),rows*(32+record),range' ((rows-1)*(32+record)+32) record,[]⟩)

/-- A row is appended, the second of the two rows is selected and kept, and the receipt is stale
from then on; closing erases the row. -/
theorem selection_owner_runs_at :
    let start : System := ⟨⟨⟨[1,0],[2,0],[0,0],1,2,1,1,4,false⟩,⟨1,1,1,0⟩,5,0,none⟩,[],none⟩
    let appended := (start.step (.append 1 [3] [4])).2
    let issued := (appended.step (.issue copyLast [0,5] ⟨1,0⟩ .fullRecords)).2
    let binding : Binding := ⟨⟨1,1,1,0⟩,5,1,7,2,1,2,⟨1,0⟩,.fullRecords⟩
    let output : SelectionOutput := ⟨binding,7,
      ([1,3,4] : List Float32).flatMap fun word => (pushWord word).map fun bit =>
        ⟨if bit then 1 else 0⟩⟩
    ∃ client,issued.outstanding = some client ∧
      let finish := Event.finish client output
      let finished := (issued.step finish).2
      finished.owner.cache = ⟨[3],[4],[1],1,1,1,2,4,false⟩ ∧
      (∃ error,(finished.step finish).1 = .error error) ∧
      (finished.step finish).2.owner = finished.owner ∧
      (finished.step .close).2.owner.cache.keys = [] := by
  intro start appended issued binding output
  let client : SelectionClient := ⟨binding,7,replicate 96 ⟨0,1⟩⟩
  have outstanding : issued.outstanding=some client := by decide +kernel
  have mem : client ∈ issued.issued := by decide +kernel
  have new : SelectionOwner.new ⟨1,1,1,0⟩ ⟨[1,0],[2,0],[0,0],1,2,1,1,4,false⟩ 5 = .ok start.owner :=
    rfl
  have reached : issued.Reachable := by
    refine .step (.step (.new new) (.append 1 [3] [4]) trivial) _ ?_
    exact fun _ _ => not_mem_nil
  have finished := reached.step (.finish client output) (.inl mem)
  have stale := (selection_owner_runs finished (.finish client output) (.inl mem)).2.2 _ _ rfl
  have closed := (selection_owner_runs finished .close trivial).2.1 rfl
  obtain ⟨error,same⟩ := stale.1 (by decide +kernel)
  exact ⟨client,outstanding,by decide +kernel,error,same,congrArg RetainedKvCache.keys closed⟩

end Pllm.Retained
