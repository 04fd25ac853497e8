import Pllm.Lib.Scatter
import Pllm.Maverick.Completeness

/-! Every run of a client and a server: one lease at a time and one use of it, and no slot or
projection of an attempt twice. -/
namespace Pllm.Maverick
open Pllm.Lib List

variable {α : Type} {granted : Bool} {call : Use} {r : Except Error (List Owner × List ℕ) × Client}
  {l : List Taken} {i : ℕ}

namespace Client

variable {c : Client}

lemma claim_header {header : Header} {b : Fin batchSize} {x : Words} {noise : Noise} {a : Claim ×
    Message} (h : c.claim header b x noise = .ok a) : a.2.header = { header with slot := b } := by
  cases h
  rfl

/-- A call that starts an owner does so with the next attempts and no lease live, or it fails and
the lease is as before; the attempts that it reserved are gone either way. -/
lemma start_spec (mode : Mode) (count : ℕ) (body : Header → Except Error α) :
    let r := start (c.reserveOrdinals mode count) body
    (∃ a,r = (.ok a,{ c with issued := c.issued+count, live := true }) ∧ c.live=false ∧
      c.issued+count ≤ maxAttempts ∧
      body ⟨c.material.binding,c.session,c.issued,mode,batchSlot⟩ = .ok a) ∨
    ∃ e,r.1 = .error e ∧ r.2.live=c.live ∧ c.issued ≤ r.2.issued ∧
      (c.issued ≤ maxAttempts → r.2.issued ≤ maxAttempts) := by
  unfold start reserveOrdinals
  by_cases full : c.issued+count>maxAttempts
  · rw [if_pos full]
    exact .inr ⟨_,rfl,rfl,le_rfl,id⟩
  rw [if_neg full]
  have room := not_lt.mp full
  cases busy : c.live with
  | true => exact .inr ⟨_,rfl,rfl,le_self_add,fun _ => room⟩
  | false =>
    cases h : body ⟨c.material.binding,c.session,c.issued,mode,batchSlot⟩ with
    | error e =>
      refine .inr ⟨e,?_,?_,?_,?_⟩ <;> simp [h,room]
    | ok a => exact .inl ⟨a,by simp [h],rfl,room,rfl⟩

end Client

namespace System

lemma issue_spec (c : Client) (granted : Bool) (call : Issue) :
    let r := issue c granted call
    (∃ owner attempts count, r = (.ok ([owner],attempts),{ c with issued := c.issued+count, live :=
      true }) ∧ c.live=false ∧ c.issued+count ≤ maxAttempts ∧ attempts.Pairwise (· < ·) ∧
      ∀ a∈attempts,c.issued≤a ∧ a < c.issued+count) ∨
    ∃ e,r.1 = .error e ∧ r.2.live=c.live ∧ c.issued ≤ r.2.issued ∧
      (c.issued ≤ maxAttempts → r.2.issued ≤ maxAttempts) := by
  have failed {α : Type} {owner : α → List Owner} {attempts : α → List ℕ}
      {r : Except Error α × Client} (h : ∃ e,r.1 = .error e ∧ r.2.live=c.live ∧
        c.issued ≤ r.2.issued ∧ (c.issued ≤ maxAttempts → r.2.issued ≤ maxAttempts)) :
      ∃ e,(answered owner attempts r).1 = .error e ∧ (answered owner attempts r).2.live = c.live ∧
        c.issued ≤ (answered owner attempts r).2.issued ∧
        (c.issued ≤ maxAttempts → (answered owner attempts r).2.issued ≤ maxAttempts) := by
    obtain ⟨e,eq,rest⟩ := h
    exact ⟨e,by rw [answered,eq]; rfl,rest⟩
  have one {a : ℕ} (h : a=c.issued) :
      [a].Pairwise (· < ·) ∧ ∀ x ∈ [a],c.issued≤x ∧ x < c.issued+1 := by
    refine ⟨pairwise_singleton ..,fun x m => ?_⟩
    obtain rfl := mem_singleton.mp m
    omega
  cases call with
  | query slot input noise =>
    refine (Client.start_spec (c := c) .single 1 _).imp ?_ failed
    rintro ⟨a,eq,free,room,body⟩
    split at body
    · obtain ⟨_,-,body⟩ := bind_eq_ok.mp body
      obtain ⟨noise,-,_,-,claim,claimed,body⟩ := bind₃_eq_ok.mp body
      cases body
      have head : claim.2.header.attempt=c.issued := by rw [Client.claim_header claimed]
      exact ⟨.query ⟨claim.1⟩,_,1,congrArg (answered _ _) eq,free,room,one head⟩
    · cases body
  | batch inputs noise =>
    refine (Client.start_spec (c := c) .batch 1 _).imp ?_ failed
    rintro ⟨a,eq,free,room,body⟩
    obtain ⟨_,-,noise,-,_,-,claims,claimed,body⟩ := bind₄_eq_ok.mp body
    cases body
    have head : (claims 0).2.header.attempt=c.issued := by
      rw [Client.claim_header (both_eq_ok.mp claimed 0)]
    exact ⟨.batch ⟨fun b => (claims b).1⟩,_,1,congrArg (answered _ _) eq,free,room,one head⟩
  | request inputs noise =>
    refine (Client.start_spec (c := c) .batch 2 _).imp ?_ failed
    rintro ⟨a,eq,free,room,body⟩
    obtain ⟨_,-,_,-,noise,-,claims,claimed,body⟩ := bind₄_eq_ok.mp body
    cases body
    have head (i : Fin 2) : (claims i 0).2.header.attempt=c.issued+i := by
      rw [Client.claim_header (both_eq_ok.mp (both_eq_ok.mp claimed i) 0)]
    have first : (claims 0 0).2.header.attempt=c.issued := head 0
    have second : (claims 1 0).2.header.attempt=c.issued+1 := head 1
    refine ⟨.request ⟨fun i b => (claims i b).1⟩,_,2,congrArg (answered _ _) eq,free,room,?_,?_⟩
    · simp [first,second]
    · simp [first,second]
  | dependent input noise =>
    refine (Client.start_spec (c := c) .batch 1 _).imp ?_ failed
    rintro ⟨a,eq,free,room,body⟩
    obtain ⟨_,-,noise,-,_,-,claim,claimed,body⟩ := bind₄_eq_ok.mp body
    cases body
    have head : claim.2.header.attempt=c.issued := by rw [Client.claim_header claimed]
    exact ⟨.dependentRequest ⟨claim.1⟩,_,1,congrArg (answered _ _) eq,free,room,one head⟩

/-- A call that takes an owner lets no attempt go; with an error the lease is gone, and otherwise
it is gone or the next owner holds it. -/
lemma use_spec {c : Client} {owner : Owner} (h : use c granted owner call = some r) :
    (∃ e,r = (.error e,{ c with live := false })) ∨ r = (.ok ([],[]),{ c with live := false }) ∨
      ∃ next,r = (.ok ([next],[]),c) := by
  have proceeds {α : Type} (f : α → Owner) (body : Except Error α) :
      let r := answered (fun a => [f a]) (fun _ => []) (c.proceed body)
      (∃ e,r = (.error e,{ c with live := false })) ∨ r = (.ok ([],[]),{ c with live := false }) ∨
        ∃ next,r = (.ok ([next],[]),c) := by
    cases body with
    | error e => exact .inl ⟨e,rfl⟩
    | ok a => exact .inr (.inr ⟨f a,rfl⟩)
  have finishes {α : Type} (body : Except Error α) :
      let r := answered (fun _ => []) (fun _ => []) (c.finish body)
      (∃ e,r = (.error e,{ c with live := false })) ∨ r = (.ok ([],[]),{ c with live := false }) ∨
        ∃ next,r = (.ok ([next],[]),c) := by
    cases body with
    | error e => exact .inl ⟨e,rfl⟩
    | ok a => exact .inr (.inl rfl)
  unfold use at h
  split at h
  · cases h
    exact .inr (.inl rfl)
  all_goals cases h
  · exact finishes _
  · exact proceeds _ _
  · exact finishes _
  · exact proceeds _ _
  · exact finishes _
  · exact proceeds _ _
  · exact proceeds _ _

end System

/-- The bits of the two slots and of the projection. -/
def bits (zero one projected : Bool) : ℕ := zero.toNat+2*one.toNat+4*projected.toNat

variable (a b p : Bool) {slot : ℕ}

lemma bits_or (h : slot<batchSize) :
    bits a b p ||| 1 <<< slot = bits (a || decide (slot=0)) (b || decide (slot=1)) p := by
  interval_cases slot <;> revert a b p <;> decide

lemma bits_and (h : slot<batchSize) :
    bits a b p &&& 1 <<< slot = 0 ↔ (if slot = 0 then a else b)=false := by
  interval_cases slot <;> revert a b p <;> decide

lemma bits_or_four : bits a b p ||| 4 = bits a b true := by
  revert a b p
  decide

lemma bits_eq_three {a b p : Bool} : bits a b p = 3 ↔ a=true ∧ b=true ∧ p=false := by
  revert a b p
  decide

lemma bits_eq_zero {a b p : Bool} : bits a b p = 0 ↔ a=false ∧ b=false ∧ p=false := by
  revert a b p
  decide

lemma slot_cases (h : slot<batchSize) : slot=0 ∨ slot=1 := by
  unfold batchSize at h
  omega

/-- Whether a slot of an attempt is in a history. -/
def has (l : List Taken) (i slot : ℕ) : Bool :=
  l.any fun t => decide (t.attempt=i ∧ t.slot=slot)

lemma has_eq_true {i slot : ℕ} :
    has l i slot = true ↔ ∃ t∈l,t.attempt=i ∧ t.slot=slot := by simp [has]

lemma has_eq_false {i slot : ℕ} :
    has l i slot = false ↔ ∀ t∈l,¬(t.attempt=i ∧ t.slot=slot) := by simp [has]

lemma has_append (l : List Taken) (t : Taken) (i slot : ℕ) :
    has (l++[t]) i slot = (has l i slot || decide (t.attempt=i ∧ t.slot=slot)) := by
  simp [has]

namespace Server

/-- A request is refused, or its slot is burned first: the mode fits, the slot is new, and a single
query meets an attempt of which nothing is burned. -/
lemma evaluate_spec (s : Server) (granted : Bool) (request : Message) :
    let r := s.evaluate granted request
    let i := request.header.attempt
    let slot := request.header.slot
    let burned := s.burn i slot request.header.mode
    (r.2=s ∧ r.1.isOk=false) ∨
    i < maxAttempts ∧ slot<batchSize ∧ (∀ mode ∈ s.modes.getD i none,mode=request.header.mode) ∧
      s.seen.getD i 0 &&& 1 <<< slot = 0 ∧ (request.header.mode = .single → s.seen.getD i 0 = 0) ∧
      (r.2=burned ∧ r.1.isOk=false ∨ r.1.isOk=true ∧ r.2 = { burned with
        evaluated := s.evaluated.set i (s.evaluated.getD i 0 ||| 1 <<< slot) }) := by
  unfold evaluate
  split
  · exact .inl ⟨rfl,rfl⟩
  rename_i at_ checked
  obtain ⟨rfl,small⟩ : at_=request.header.attempt ∧ request.header.attempt < maxAttempts := by
    unfold check at checked
    split at checked
    · cases checked
    rename_i h
    cases checked
    exact ⟨rfl,not_le.mp fun le => h (.inr (.inr le))⟩
  split
  swap
  · exact .inl ⟨rfl,rfl⟩
  rename_i inRange
  dsimp only
  split
  · exact .inl ⟨rfl,rfl⟩
  rename_i fresh
  simp only [not_or,not_exists,not_and,not_not] at fresh
  refine .inr ⟨small,inRange,fresh.1,fresh.2.1,fresh.2.2,?_⟩
  split
  · exact .inl ⟨rfl,rfl⟩
  split
  · exact .inl ⟨rfl,rfl⟩
  · exact .inr ⟨rfl,rfl⟩

/-- A projection is refused, or burned first: the attempt is one of batches, both of its slots were
evaluated and it was not projected. -/
lemma project_spec (s : Server) (granted : Bool) (challenge : Challenge) :
    let r := s.project granted challenge
    let i := challenge.header.attempt
    r.2 = s ∨ i < maxAttempts ∧ s.modes.getD i none = some .batch ∧ s.seen.getD i 0 = 3 ∧
      s.evaluated.getD i 0 = 3 ∧ r.2 = { s with seen := s.seen.set i (s.seen.getD i 0 ||| 4) } := by
  unfold project
  split
  · exact .inl rfl
  rename_i at_ checked
  obtain ⟨rfl,small⟩ : at_=challenge.header.attempt ∧ challenge.header.attempt < maxAttempts := by
    unfold check at checked
    split at checked
    · cases checked
    rename_i h
    cases checked
    exact ⟨rfl,not_le.mp fun le => h (.inr (.inr le))⟩
  split
  · exact .inl rfl
  rename_i ready
  simp only [not_or,not_not] at ready
  refine .inr ⟨small,ready.2.2.1,ready.2.2.2.1,ready.2.2.2.2,?_⟩
  split
  · rfl
  split <;> rfl

end Server

/-- The state of the server tells its history, in which nothing happens twice. -/
structure Tracks (s : Server) (h : History) : Prop where
  seen_length : s.seen.length=maxAttempts
  evaluated_length : s.evaluated.length=maxAttempts
  modes_length : s.modes.length=maxAttempts
  seen : ∀ i < maxAttempts,s.seen.getD i 0 =
    bits (has h.burned i 0) (has h.burned i 1) (decide (i∈h.projected))
  evaluated : ∀ i < maxAttempts,s.evaluated.getD i 0 =
    bits (has h.evaluated i 0) (has h.evaluated i 1) false
  modes : ∀ t∈h.burned,s.modes.getD t.attempt none = some t.mode
  small : ∀ t∈h.burned,t.attempt < maxAttempts ∧ t.slot<batchSize
  nodup : (h.burned.map fun t => (t.attempt,t.slot)).Nodup
  sublist : h.evaluated.Sublist h.burned
  single : ∀ t∈h.burned,t.mode = .single → ∀ t'∈h.burned,t'.attempt=t.attempt → t'=t
  projected_nodup : h.projected.Nodup
  projected : ∀ i∈h.projected,⟨i,0,.batch⟩∈h.evaluated ∧ ⟨i,1,.batch⟩∈h.evaluated

namespace Tracks

variable {s : Server} {h : History}

/-- One more burned slot. -/
lemma burn (tracks : Tracks s h) {t : Taken} (small : t.attempt < maxAttempts) (slot :
    t.slot<batchSize) (mode : ∀ mode ∈ s.modes.getD t.attempt none,mode=t.mode) (new : s.seen.getD
    t.attempt 0 &&& 1 <<< t.slot = 0) (single : t.mode = .single → s.seen.getD t.attempt 0 = 0) :
    Tracks (s.burn t.attempt t.slot t.mode) { h with burned := h.burned++[t] } := by
  have old := tracks.seen t.attempt small
  rw [old,bits_and _ _ _ slot] at new
  have fresh : ∀ t'∈h.burned,¬(t'.attempt=t.attempt ∧ t'.slot=t.slot) := by
    refine has_eq_false.mp ?_
    rcases slot_cases slot with eq | eq <;> simpa [eq] using new
  have same : ∀ t'∈h.burned,t'.attempt=t.attempt → t'.mode=t.mode := fun t' m eq =>
    mode t'.mode (eq ▸ tracks.modes t' m)
  have alone : ∀ t'∈h.burned,t'.attempt=t.attempt → t.mode ≠ .single := by
    intro t' m eq isSingle
    have none := single isSingle
    rw [old,bits_eq_zero,has_eq_false,has_eq_false] at none
    rcases slot_cases (tracks.small t' m).2 with slot | slot
    · exact none.1 t' m ⟨eq,slot⟩
    · exact none.2.1 t' m ⟨eq,slot⟩
  refine ⟨by simp [Server.burn,tracks.seen_length],tracks.evaluated_length,
    by simp [Server.burn,tracks.modes_length],fun i hi => ?_,tracks.evaluated,?_,?_,?_,
    tracks.sublist.trans (sublist_append_left ..),?_,tracks.projected_nodup,tracks.projected⟩
  · show (s.seen.set _ _).getD i 0=_
    rw [getD_set _ _ (by rw [tracks.seen_length]; exact small),has_append,has_append]
    split
    · rename_i eq
      rw [old,bits_or _ _ _ slot,← eq]
      simp
    · rename_i ne
      rw [tracks.seen i hi]
      simp [ne]
  · intro t' m
    show (s.modes.set _ _).getD _ none=_
    rw [getD_set _ _ (by rw [tracks.modes_length]; exact small)]
    rcases mem_append.mp m with m | m
    · split
      · rename_i eq
        rw [same t' m eq.symm]
      · exact tracks.modes t' m
    · obtain rfl := mem_singleton.mp m
      exact if_pos rfl
  · intro t' m
    rcases mem_append.mp m with m | m
    · exact tracks.small t' m
    · obtain rfl := mem_singleton.mp m
      exact ⟨small,slot⟩
  · rw [map_append,nodup_append]
    refine ⟨tracks.nodup,by simp,fun a m b m' eq => ?_⟩
    obtain ⟨t',before,rfl⟩ := mem_map.mp m
    obtain rfl := mem_singleton.mp m'
    exact fresh t' before ⟨congrArg Prod.fst eq,congrArg Prod.snd eq⟩
  · intro t₁ m₁ isSingle t₂ m₂ eq
    rcases mem_append.mp m₁ with old₁ | new₁ <;> rcases mem_append.mp m₂ with old₂ | new₂
    · exact tracks.single t₁ old₁ isSingle t₂ old₂ eq
    · obtain rfl := mem_singleton.mp new₂
      exact absurd ((same t₁ old₁ eq.symm).symm.trans isSingle) (alone t₁ old₁ eq.symm)
    · obtain rfl := mem_singleton.mp new₁
      exact absurd isSingle (alone t₂ old₂ eq)
    · exact (mem_singleton.mp new₂).trans (mem_singleton.mp new₁).symm

lemma evaluate (tracks : Tracks s { h with burned := h.burned++[t] })
    (sublist : h.evaluated.Sublist h.burned) :
    Tracks { s with
      evaluated := s.evaluated.set t.attempt (s.evaluated.getD t.attempt 0 ||| 1 <<< t.slot) }
      { h with
        burned := h.burned++[t]
        evaluated := h.evaluated++[t] } := by
  have last : t ∈ h.burned++[t] := mem_append.mpr (.inr (mem_singleton_self t))
  obtain ⟨small,slot⟩ := tracks.small t last
  refine ⟨tracks.seen_length,by simp [tracks.evaluated_length],tracks.modes_length,tracks.seen,
    fun i hi => ?_,tracks.modes,tracks.small,tracks.nodup,sublist.append_right _,tracks.single,
    tracks.projected_nodup,fun i m => ?_⟩
  · rw [getD_set _ _ (by rw [tracks.evaluated_length]; exact small),has_append,has_append]
    have old := tracks.evaluated i hi
    split
    · rename_i eq
      subst eq
      rw [old,bits_or _ _ _ slot]
      simp
    · rename_i ne
      rw [old]
      simp [ne]
  · exact (tracks.projected i m).imp (mem_append.mpr ∘ .inl) (mem_append.mpr ∘ .inl)

lemma project (tracks : Tracks s h) (small : i < maxAttempts) (mode : s.modes.getD i none =
    some .batch) (seen : s.seen.getD i 0 = 3) (evaluated : s.evaluated.getD i 0 = 3) :
    Tracks { s with seen := s.seen.set i (s.seen.getD i 0 ||| 4) }
      { h with projected := h.projected++[i] } := by
  have old := tracks.seen i small
  have fresh : i ∉ h.projected := by
    rw [old,bits_eq_three] at seen
    simpa using seen.2.2
  have both : ∀ slot,has h.evaluated i slot=true → ⟨i,slot,.batch⟩∈h.evaluated := by
    intro slot has
    obtain ⟨t,m,rfl,rfl⟩ := has_eq_true.mp has
    have := tracks.modes t (tracks.sublist.subset m)
    rw [mode] at this
    rw [some_inj this]
    exact m
  refine ⟨by simp [tracks.seen_length],tracks.evaluated_length,tracks.modes_length,fun j hj => ?_,
    tracks.evaluated,tracks.modes,tracks.small,tracks.nodup,tracks.sublist,tracks.single,?_,?_⟩
  · rw [getD_set _ _ (by rw [tracks.seen_length]; exact small)]
    split
    · rename_i eq
      subst eq
      rw [old,bits_or_four]
      simp
    · rename_i ne
      rw [tracks.seen j hj]
      simp [Ne.symm ne]
  · rw [nodup_append]
    refine ⟨tracks.projected_nodup,by simp,fun a m b m' eq => ?_⟩
    obtain rfl := mem_singleton.mp m'
    exact fresh (eq ▸ m)
  · intro j m
    rcases mem_append.mp m with m | m
    · exact tracks.projected j m
    · obtain rfl := mem_singleton.mp m
      rw [tracks.evaluated j small,bits_eq_three] at evaluated
      exact ⟨both 0 evaluated.1,both 1 evaluated.2.1⟩

end Tracks

/-- The state of the client tells the history: attempts go up, and the lease is live while somebody
owns it. -/
structure Leased (s : System) : Prop where
  issued : s.client.issued ≤ maxAttempts
  increasing : s.history.issued.Pairwise (· < ·)
  below : ∀ a∈s.history.issued,a < s.client.issued
  live : s.client.live=true ↔ s.owners ≠ []
  single : s.owners.length≤1

namespace System

variable {s : System}

lemma issue_leased (leased : Leased s) (granted : Bool) (call : Issue) :
    Leased (s.settle s.owners (issue s.client granted call)) := by
  unfold settle
  rcases issue_spec s.client granted call with
    ⟨owner,attempts,count,eq,free,room,sorted,new⟩ | ⟨e,eq,live,grows,room⟩
  · rw [eq]
    have none : s.owners=[] := by
      by_contra some
      rw [leased.live.mpr some] at free
      cases free
    refine ⟨room,?_,fun a m => ?_,by simp,by simp [none]⟩
    · refine pairwise_append.mpr ⟨leased.increasing,sorted,fun a m b m' => ?_⟩
      exact (leased.below a m).trans_le (new b m').1
    · rcases mem_append.mp m with m | m
      · exact (leased.below a m).trans_le le_self_add
      · exact (new a m).2
  · rw [eq]
    refine ⟨room leased.issued,leased.increasing,fun a m => (leased.below a m).trans_le grows,?_,
      leased.single⟩
    rw [live]
    exact leased.live

section
variable (leased : Leased s) {n : ℕ} {owner : Owner} (h : s.owners[n]? = some owner)
include leased h

lemma erase_owner : s.owners.eraseIdx n = [] ∧ s.client.live=true := by
  have inside := (List.getElem?_eq_some_iff.mp h).1
  have single := leased.single
  refine ⟨eq_nil_of_length_eq_zero ?_,leased.live.mpr fun none => by simp [none] at inside⟩
  rw [length_eraseIdx_of_lt inside]
  omega

lemma use_leased (used : use
    s.client granted owner call = some r) : Leased (s.settle (s.owners.eraseIdx n) r) := by
  obtain ⟨none,live⟩ := erase_owner leased h
  unfold settle
  rw [none]
  rcases use_spec used with ⟨e,rfl⟩ | rfl | ⟨next,rfl⟩
  · exact ⟨leased.issued,leased.increasing,leased.below,by simp,by simp⟩
  · exact ⟨leased.issued,by simpa using leased.increasing,by simpa using leased.below,by simp,by simp⟩
  · exact ⟨leased.issued,by simpa using leased.increasing,by simpa using leased.below,
      by simp [live],by simp⟩

end

lemma step_leased (leased : Leased s) (e : Event) : Leased (s.step e) := by
  cases e with
  | issue granted call => exact issue_leased leased granted call
  | use n granted call =>
    unfold step
    dsimp only
    split
    · exact leased
    rename_i owner h
    split
    · exact leased
    · rename_i r used
      exact use_leased leased h used
  | evaluate granted request | project granted challenge =>
    exact ⟨leased.1,leased.2,leased.3,leased.4,leased.5⟩

lemma evaluate_tracks (tracks : Tracks s.server s.history) (granted : Bool) (request : Message) :
    Tracks (s.evaluate granted request).server (s.evaluate granted request).history := by
  rcases s.server.evaluate_spec granted request with
    ⟨same,failed⟩ | ⟨small,slot,mode,new,single,result⟩
  · simp only [evaluate,same,failed,burns]
    simpa using tracks
  let t : Taken := ⟨request.header.attempt,request.header.slot,request.header.mode⟩
  have burned := tracks.burn (t := t) small slot mode new single
  have noted : burns s.server (s.server.burn t.attempt t.slot t.mode) t.attempt=true := by
    show (s.server.seen.getD _ 0 != (s.server.seen.set _ _).getD _ 0)=true
    rw [getD_set _ _ (by rw [tracks.seen_length]; exact small),if_pos rfl,bne_iff_ne]
    intro eq
    rw [eq,Nat.and_or_distrib_right] at new
    have : 1 <<< t.slot &&& 1 <<< t.slot=0 := (Nat.or_eq_zero_iff.mp new).2
    rw [Nat.and_self,Nat.one_shiftLeft] at this
    exact absurd this (by positivity)
  rcases result with ⟨same,failed⟩ | ⟨ok,same⟩
  · simp only [evaluate,same,failed]
    rw [if_pos noted]
    simpa using burned
  · have noted' : burns s.server (s.server.evaluate granted request).2 t.attempt=true := by
      rw [same]
      exact noted
    simp only [evaluate,ok]
    rw [if_pos noted',same]
    exact burned.evaluate tracks.sublist

lemma project_tracks (tracks : Tracks s.server s.history) (granted : Bool) (challenge : Challenge)
    : Tracks (s.project granted challenge).server (s.project granted challenge).history := by
  rcases s.server.project_spec granted challenge with same | ⟨small,mode,seen,evaluated,same⟩
  · simp only [project,same,burns]
    simpa using tracks
  · have noted : burns s.server (s.server.project granted challenge).2 challenge.header.attempt =
        true := by
      rw [same,burns,getD_set _ _ (by rw [tracks.seen_length]; exact small),if_pos rfl,seen]
      rfl
    simp only [project]
    rw [if_pos noted,same]
    exact tracks.project small mode seen evaluated

lemma settle_server (s : System) (left : List Owner)
    (r : Except Error (List Owner × List ℕ) × Client) : (s.settle left r).server = s.server ∧
      (s.settle left r).history = { s.history with issued := (s.settle left r).history.issued } := by
  unfold settle
  split <;> exact ⟨rfl,rfl⟩

lemma step_tracks (tracks : Tracks s.server s.history) (e : Event) :
    Tracks (s.step e).server (s.step e).history := by
  have kept (left : List Owner) (r : Except Error (List Owner × List ℕ) × Client) :
      Tracks (s.settle left r).server (s.settle left r).history := by
    rw [(s.settle_server left r).1,(s.settle_server left r).2]
    exact ⟨tracks.1,tracks.2,tracks.3,tracks.4,tracks.5,tracks.6,tracks.7,tracks.8,tracks.9,
      tracks.10,tracks.11,tracks.12⟩
  cases e with
  | issue granted call => exact kept _ _
  | use n granted call =>
    unfold step
    dsimp only
    split
    · exact tracks
    split
    · exact tracks
    · exact kept _ _
  | evaluate granted request => exact evaluate_tracks tracks granted request
  | project granted challenge => exact project_tracks tracks granted challenge

lemma start_tracks (v : ValidatedPublication) (session : Words) :
    Tracks (start v session).server (start v session).history := by
  have zero {α : Type} (d : α) (i : ℕ) (h : i < maxAttempts) :
      (replicate maxAttempts d).getD i d = d := by simp [h]
  refine ⟨length_replicate,length_replicate,length_replicate,fun i h => ?_,
    fun i h => ?_,?_,?_,nodup_nil,Sublist.refl _,?_,nodup_nil,?_⟩
  · exact zero 0 i h
  · exact zero 0 i h
  all_goals exact fun _ m => absurd m not_mem_nil

lemma after_induction {p : System → Prop} (step : ∀ s e,p s → p (s.step e)) (events : List Event)
    (s : System) (h : p s) : p (s.after events) := by
  induction events generalizing s with
  | nil => exact h
  | cons e events ih => exact ih _ (step s e h)

end System

/-- A client and a server, in any order of calls with any arguments. -/
theorem lifecycle (v : ValidatedPublication) (session : Words) (events : List Event) :
    let s := (System.start v session).after events
    (s.client.issued ≤ maxAttempts ∧ s.history.issued.Pairwise (· < ·) ∧
      ∀ a∈s.history.issued,a < s.client.issued) ∧
    (s.owners.length≤1 ∧ (s.client.live=true ↔ s.owners ≠ [])) ∧
    (∀ n owner granted call r,s.owners[n]? = some owner → System.use s.client granted owner call =
      some r → (s.step (.use n granted call)).client.issued = s.client.issued ∧ (s.step (.use n
      granted call)).history = s.history ∧
      (r.1.isOk=false → (s.step (.use n granted call)).owners = [] ∧
        (s.step (.use n granted call)).client.live = false)) ∧
    ((s.history.burned.map fun t => (t.attempt,t.slot)).Nodup ∧
      s.history.evaluated.Sublist s.history.burned ∧
      ∀ t∈s.history.burned,t.attempt < maxAttempts ∧ t.slot<batchSize) ∧
    (s.history.projected.Nodup ∧ ∀ i∈s.history.projected,∀ slot<batchSize,
      ⟨i,slot,.batch⟩∈s.history.evaluated) ∧
    ∀ t∈s.history.burned,∀ t'∈s.history.burned,t.attempt=t'.attempt →
      t.mode=t'.mode ∧ (t.mode = .single → t=t') := by
  intro s
  have leased : Leased s := by
    refine System.after_induction (p := Leased) (fun s e h => System.step_leased h e) events _ ?_
    exact ⟨Nat.zero_le _,Pairwise.nil,fun _ m => absurd m not_mem_nil,
      ⟨fun h => (by cases h),fun h => absurd rfl h⟩,Nat.zero_le _⟩
  have tracks : Tracks s.server s.history := by
    refine System.after_induction (p := fun s => Tracks s.server s.history)
      (fun s e h => System.step_tracks h e) events _ ?_
    exact System.start_tracks v session
  refine ⟨⟨leased.issued,leased.increasing,leased.below⟩,⟨leased.single,leased.live⟩,?_,
    ⟨tracks.nodup,tracks.sublist,tracks.small⟩,⟨tracks.projected_nodup,fun i m slot h => ?_⟩,
    fun t m t' m' eq => ⟨?_,fun single => (tracks.single t m single t' m' eq.symm).symm⟩⟩
  · intro n owner granted call r owned used
    obtain ⟨none,-⟩ := System.erase_owner leased owned
    have step : s.step (.use n granted call)=s.settle [] r := by
      simp only [System.step,owned,used,none]
    rw [step]
    rcases System.use_spec used with ⟨e,rfl⟩ | rfl | ⟨next,rfl⟩
    · exact ⟨rfl,rfl,fun _ => ⟨rfl,rfl⟩⟩
    · exact ⟨rfl,by simp [System.settle],fun failed => (by cases failed)⟩
    · exact ⟨rfl,by simp [System.settle],fun failed => (by cases failed)⟩
  · rcases slot_cases h with rfl | rfl
    · exact (tracks.projected i m).1
    · exact (tracks.projected i m).2
  · have same := tracks.modes t m
    rw [eq,tracks.modes t' m'] at same
    exact (Option.some.inj same).symm

/-- A query that is replayed, and a second one that is not issued while the first is live. -/
theorem lifecycle_replayed : ∃ (v : ValidatedPublication) (query : Issue) (request : Message),
    let s := (System.start v []).after
      [.issue true query,.issue true query,.evaluate true request,.evaluate true request]
    s.history = ⟨[0],[⟨0,1,.single⟩],[⟨0,1,.single⟩],[]⟩ ∧ s.client.issued = 2 ∧
      s.owners ≠ [] ∧ s.client.live = true := by
  obtain ⟨v,-,binding⟩ := exists_publication ones_valid []
  obtain ⟨query,request,issued,ok,head⟩ := query_issued (c := (v.split []).1) (v := v) rfl rfl
    (show 0 < maxAttempts by decide) Nat.one_lt_two (ones_canonical dimension)
    (leading _ _ (by decide))
  have header : request.header=⟨[],[],0,.single,1⟩ := head.trans (by rw [← binding]; rfl)
  have check (server : Server) (hb : server.binding=v.material.binding)
      (hs : server.session = []) : server.check ⟨[],[],0,.single,1⟩ = .ok 0 := by
    simp [Server.check,hb,hs,binding,maxAttempts]
  -- the server once it has seen and evaluated the query
  let seen : Server := { (v.split []).2 with
    modes := (replicate maxAttempts none).set 0 (some .single)
    seen := (replicate maxAttempts 0).set 0 2
    evaluated := (replicate maxAttempts 0).set 0 2 }
  obtain ⟨reply,evaluated⟩ := evaluate_ok (s := (v.split []).2) (t := seen) 0
    (by rw [header]; exact check _ rfl rfl) (by rw [header]; decide) (by rintro m ⟨⟩) rfl rfl (Nat.zero_and _) (fun _ => rfl) ok
    (by rw [header]; rfl)
  have replayed : seen.evaluate true request=(.error .replay,seen) := by
    unfold Server.evaluate
    simp only [header,check seen rfl rfl,dif_pos Nat.one_lt_two]
    exact if_pos (Or.inr (Or.inl (show 2 &&& 1 <<< 1 ≠ 0 by decide)))
  let call : Issue := .query 1 (replicate dimension 1) (.ok (leading _ _ (by decide)))
  have first : (System.start v []).step (.issue true call) =
      ⟨⟨v.material,[],1,true⟩,[.query query],(v.split []).2,⟨[0],[],[],[]⟩⟩ := by
    simp only [System.step,System.issue,call,System.start,issued]
    simp [System.answered,System.settle,Except.map,header,ValidatedPublication.split]
  have busy : System.issue ⟨v.material,[],1,true⟩ true call =
      (.error .busy,⟨v.material,[],2,true⟩) := rfl
  refine ⟨v,call,request,?_⟩
  have run : (System.start v []).after
      [.issue true call,.issue true call,.evaluate true request,.evaluate true request] =
      ⟨⟨v.material,[],2,true⟩,[.query query],seen,⟨[0],[⟨0,1,.single⟩],[⟨0,1,.single⟩],[]⟩⟩ := by
    simp only [System.after,foldl_cons,foldl_nil,first]
    simp only [System.step,busy,System.settle,System.evaluate,evaluated,replayed,header]
    simp [System.burns,seen,Except.isOk,Except.toBool]
    exact (show (0:ℕ) ≠ 2 by decide)
  have lease := (lifecycle v [] [.issue true call,.issue true call,.evaluate true request,
    .evaluate true request]).2.1.2
  rw [run] at lease ⊢
  exact ⟨rfl,rfl,lease.mp rfl,rfl⟩

end Pllm.Maverick
