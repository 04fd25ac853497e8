import Pllm.Levels.Trace

/-! What every event of an accepted trace preserves, and what a whole trace therefore guarantees. -/
namespace Pllm.Levels
open Pllm.Lib PublicCiphertextGraph List Function Holder
open Prod (fst)
open Holders (held total total_insert)

variable {env : Platform} {g : PublicCiphertextGraph} {owners : List ℕ} {s : TraceState}
variable {trace : List PublicCiphertextTraceStep} {capacity : PublicCiphertextTraceCapacity}

/-- A computation that may refuse the trace, but does not panic. -/
abbrev Safely {α : Type} (x : Except TraceError α) (good : α → Prop) : Prop :=
  Ends x good (· ≠ .panicked)

variable {α : Type} {i : ℕ} {v : PublicCiphertextValue} {id : String}

lemma safely_refuse (x : Except String α) : Safely (refuse x) fun a => x = .ok a := by
  cases x with
  | ok a => exact rfl
  | error e => exact nofun

lemma safely_rejectIf (c : Prop) [Decidable c] (message : String) :
    Safely (rejectIf c (TraceError.refused message)) fun _ => ¬c := by
  by_cases h : c
  · rw [rejectIf,if_pos h]
    exact fun other => by cases other
  · rw [rejectIf,if_neg h]
    exact h

lemma safely_unwrap {α β : Type} {a : Option α} {b : α} {f : α → Except TraceError β}
    {good : β → Prop} (h : a = some b) (hf : Safely (f b) good) : Safely (unwrap a >>= f) good := by
  subst h
  exact hf

lemma safely_forM {f : α → Except TraceError Unit} {Q : α → Prop} (xs : List α)
    (h : ∀ x∈xs, Safely (f x) fun _ => Q x) : Safely (xs.forM f) fun _ => ∀ x∈xs, Q x := by
  induction xs with
  | nil => exact nofun
  | cons x xs ih =>
    refine (h x mem_cons_self).bind fun _ hx => ?_
    refine (ih fun y hy => h y (mem_cons_of_mem _ hy)).mono fun _ hxs => ?_
    exact forall_mem_cons.mpr ⟨hx,hxs⟩

/-- The reference counts and the running sum are those of a set of holders. -/
structure Counters (g : PublicCiphertextGraph) (live : Finset Holder) (s : TraceState) : Prop where
  references : ∀ (i : ℕ) (o : PublicCiphertextOwner), g.owners[i]? = some o →
    s.references i = Holders.count g.holderOwner live o.identity
  backing : s.backing = Holders.total g.holderOwner g.ownerBytes live

section
variable {live : Finset Holder} {holder : Holder} {k : ℕ} {o : PublicCiphertextOwner}

section
variable (ha : Admitted g owners)
include ha

lemma safely_bytesOf (ho : g.owners[k]? = some o) :
    Safely (bytesOf g k) (· = g.ownerBytes o.identity) := by
  obtain ⟨b,hb⟩ := ha.bytes o (mem_of_getElem? ho)
  have hbyt : g.ownerBytes o.identity=b := by
    rw [ownerBytes,find?_key ha.ownersNodup ho]
    simp [hb]
  rw [hbyt]
  refine safely_unwrap ho ?_
  rw [hb]
  exact rfl

variable (hs : Counters g live s) (ho : g.owners[k]? = some o)
include hs ho

section
variable (hfrs : holder ∉ live) (hown : g.holderOwner holder = o.identity)
include hfrs hown

/-- Only the owner of the new holder counts one more. -/
lemma count_insert_owner (i : ℕ) (o' : PublicCiphertextOwner) (ho' : g.owners[i]? = some o') :
    update s.references k (s.references k+1) i =
      Holders.count g.holderOwner (insert holder live) o'.identity := by
  rw [Holders.count_insert _ hfrs,hown]
  by_cases hik : i=k
  · subst hik
    obtain rfl : o=o' := some_inj (ho.symm.trans ho')
    rw [update_self,hs.references i o ho,if_pos rfl]
  · rw [update_of_ne hik,hs.references i o' ho',if_neg,add_zero]
    exact fun he => hik (key_inj ha.ownersNodup ho' ho he.symm)

lemma retain_counters : Safely (retain g k s) fun t => Counters g
    (insert holder live) t ∧ ∃ b r, t = {s with backing := b, references := r} := by
  have href := hs.references k o ho
  have htot : total _ _ (insert holder live)=_ :=
    total_insert g.holderOwner g.ownerBytes
  rw [hown,← href,← hs.backing] at htot
  have hbac : Safely (charged g k s)
      (· = total g.holderOwner g.ownerBytes (insert holder live)) := by
    rw [htot,charged]
    split
    · refine (safely_bytesOf ha ho).bind ?_
      rintro _ rfl
      exact (safely_refuse _).mono fun b hb => (sumCost_eq_ok.mp hb).2
    · exact rfl
  refine hbac.bind ?_
  rintro _ rfl
  refine (safely_refuse _).bind fun count hcnt => ?_
  obtain rfl := add_eq_ok hcnt
  exact ⟨⟨count_insert_owner ha hs ho hfrs hown,rfl⟩,_,_,rfl⟩

end

/-- Only the owner of the lost holder counts one less. -/
lemma count_erase_owner (hmem : holder∈live) (hown : g.holderOwner holder = o.identity)
    (i : ℕ) (o' : PublicCiphertextOwner) (ho' : g.owners[i]? = some o') : update s.references k
    (s.references k-1) i = Holders.count g.holderOwner (live.erase holder) o'.identity := by
  have hcnt := Holders.count_erase g.holderOwner hmem o'.identity
  rw [hown,← hs.references i o' ho'] at hcnt
  by_cases hik : i=k
  · subst hik
    obtain rfl : o=o' := some_inj (ho.symm.trans ho')
    rw [update_self,hcnt,if_pos rfl,Nat.add_sub_cancel]
  · rw [update_of_ne hik,hcnt,if_neg,add_zero]
    exact fun he => hik (key_inj ha.ownersNodup ho' ho he.symm)

end

lemma safely_subtract {a b : ℕ} (h : b≤a) : Safely (subtract a b) (· = a-b) := by
  rw [subtract,if_pos h]
  exact rfl

lemma safely_discharged (ha : Admitted g owners) (hs : Counters g live s) (ho : g.owners[k]? =
    some o) (hmem : holder∈live) (hown : g.holderOwner holder = o.identity) : Safely (discharged
    g k (s.references k-1) s) (· = total g.holderOwner g.ownerBytes (live.erase holder)) := by
  have htot := Holders.total_erase g.holderOwner g.ownerBytes hmem
  have hcnt := count_erase_owner ha hs ho hmem hown k o ho
  rw [update_self] at hcnt
  rw [hown,← hcnt,← hs.backing] at htot
  rw [discharged]
  split
  · next hzero =>
    rw [if_pos hzero] at htot
    refine (safely_bytesOf ha ho).bind ?_
    rintro _ rfl
    refine (safely_subtract (by omega)).mono ?_
    omega
  · next hzero =>
    rw [if_neg hzero] at htot
    exact htot

end

/-- What holds of the loop once a run of events is over. -/
structure TraceInvariant (g : PublicCiphertextGraph) (events : List TraceEvent) (s : TraceState) :
    Prop where
  live : ∀ (i : ℕ) (v : PublicCiphertextValue), g.values[i]? = some v →
    (s.live i = true ↔ .value v.identity ∈ g.holders events)
  counters : Counters g (g.holders events) s
  executed : ∀ (i : ℕ) (op : PublicCiphertextGraphOperation), g.operations[i]? = some op →
    (s.executed i = true ↔ op.identity ∈ executedBy events)
  once : (executedBy events).Nodup
  known : ∀ id ∈ executedBy events, id ∈ g.operations.map (·.identity)
  holders : ∀ id, .value id ∈ g.holders events → Produced g events id ∧ id ∉ releasedBy events
  released : ∀ id ∈ releasedBy events, Produced g events id
  reads : ∀ front step, front++[.execute step] <+: events → ∃ op∈g.operations,
    op.identity=step.operation ∧ ∀ id∈op.inputs, .value id ∈ g.holders front ∧
      Produced g front id ∧ id ∉ releasedBy front
  peak : IsGreatest {n | Moment g events n} s.peakOwners

lemma holderOwner_value (ha : Admitted g owners)
    (hv : g.values[i]? = some v) : g.holderOwner (.value v.identity) = v.owner := by
  simp only [holderOwner,find?_key ha.valuesNodup hv]

lemma valueIndex_eq_ok (h : valueIndex g id = .ok i) :
    ∃ v, g.values[i]? = some v ∧ v.identity=id := findIdx?_some (okOr_eq_ok.mp h)

lemma values_operation {op : PublicCiphertextGraphOperation}
    (h : g.operations[i]? = some op) : g.values[g.inputs.length+i]? = some op.output := by
  rw [values,getElem?_append_right le_self_add, Nat.add_sub_cancel_left,getElem?_map,h]
  rfl

section
variable {events : List TraceEvent}

variable {n index : ℕ} {op : PublicCiphertextGraphOperation}

section
variable (events : List TraceEvent)

lemma executedBy_append_release (id : String) :
    executedBy (events++[.release id]) = executedBy events := by
  rw [executedBy,filterMap_append]
  exact append_nil _

variable (step : PublicCiphertextTraceStep)

lemma executedBy_append_execute :
    executedBy (events++[.execute step]) = executedBy events++[step.operation] := by
  rw [executedBy,filterMap_append]
  rfl

lemma releasedBy_append_release (id : String) :
    releasedBy (events++[.release id]) = releasedBy events++[id] := by
  rw [releasedBy,filterMap_append]
  rfl

lemma releasedBy_append_execute : releasedBy (events++[.execute step]) = releasedBy events := by
  rw [releasedBy,filterMap_append]
  exact append_nil _

end

lemma Produced.append (h : Produced g events id) (event : TraceEvent) :
    Produced g (events++[event]) id := by
  refine h.imp_right ?_
  rintro ⟨op,hop,hid,hex⟩
  refine ⟨op,hop,hid,?_⟩
  rw [executedBy,filterMap_append]
  exact mem_append_left _ hex

lemma moment_append_release (id : String) :
    Moment g (events++[.release id]) n ↔ Moment g events n := by
  refine or_congr_right (exists₂_congr fun front step => and_congr_left fun _ => ?_)
  rw [prefix_concat_iff]
  refine or_iff_right fun h => ?_
  have := append_inj_right' h rfl
  cases cons.inj this |>.1

lemma moment_append_execute (step : PublicCiphertextTraceStep) : Moment g (events++[.execute step])
    n ↔ Moment g events n ∨ n = g.liveBytes (events++[.execute step]) + g.overhead step := by
  constructor
  · rintro (h | ⟨front,step',hfrt,rfl⟩)
    · exact .inl (.inl h)
    · rcases prefix_concat_iff.mp hfrt with h | h
      · obtain ⟨rfl,hlast⟩ := append_inj' h rfl
        obtain rfl := TraceEvent.execute.inj (cons.inj hlast).1
        exact .inr rfl
      · exact .inl (.inr ⟨front,step',h,rfl⟩)
  · rintro ((h | ⟨front,step',hfrt,rfl⟩) | rfl)
    · exact .inl h
    · exact .inr ⟨front,step',hfrt.trans (prefix_append _ _),rfl⟩
    · exact .inr ⟨events,step,prefix_rfl,rfl⟩

lemma release_invariant (ha : Admitted g owners) (hs : TraceInvariant g events s) (id : String) :
    Safely (release g owners s id) (TraceInvariant g (events++[.release id])) := by
  refine (safely_refuse _).bind fun i hi => ?_
  obtain ⟨v,hv,rfl⟩ := valueIndex_eq_ok hi
  refine (safely_rejectIf _ _).bind fun _ hlive => ?_
  push Not at hlive
  have hmem : .value v.identity ∈ g.holders events := (hs.live i v hv).mp (by simpa using hlive.1)
  obtain ⟨k,o,hk,ho,hown⟩ := ha.owner i v hv
  have howne : g.holderOwner (.value v.identity)=o.identity := by
    rw [holderOwner_value ha hv,hown]
  refine safely_unwrap hk ?_
  have hpos := Holders.count_pos g.holderOwner hmem
  rw [howne,← hs.counters.references k o ho] at hpos
  refine (safely_subtract hpos).bind ?_
  rintro _ rfl
  refine (safely_discharged ha hs.counters ho hmem howne).bind ?_
  rintro _ rfl
  have hhol := g.holders_append_release events v.identity
  refine
    { live := fun j w hw => ?_
      counters := ⟨fun j o' ho' => ?_,?_⟩
      executed := fun j op hop => ?_
      once := ?_
      known := ?_
      holders := fun id hid => ?_
      released := fun id hid => ?_
      reads := fun front step hfrt => ?_
      peak := ?_ }
  · change update s.live i false j=true ↔ _
    rw [hhol,Finset.mem_erase,update_apply]
    split
    · next hj =>
      subst hj
      obtain rfl : v=w := some_inj (hv.symm.trans hw)
      simp
    · next hj =>
      rw [hs.live j w hw,and_iff_right]
      exact fun he => hj (key_inj ha.valuesNodup hw hv (Holder.value.inj he))
  · rw [hhol]
    exact count_erase_owner ha hs.counters ho hmem howne j o' ho'
  · rw [hhol]
  · rw [executedBy_append_release]
    exact hs.executed j op hop
  · rw [executedBy_append_release]
    exact hs.once
  · rw [executedBy_append_release]
    exact hs.known
  · rw [hhol,Finset.mem_erase] at hid
    obtain ⟨hp,hr⟩ := hs.holders id hid.2
    refine ⟨hp.append _,?_⟩
    rw [releasedBy_append_release,mem_append,mem_singleton]
    rintro (h | rfl)
    · exact hr h
    · exact hid.1 rfl
  · rw [releasedBy_append_release,mem_append,mem_singleton] at hid
    rcases hid with h | rfl
    · exact (hs.released id h).append _
    · exact (hs.holders _ hmem).1.append _
  · rcases prefix_concat_iff.mp hfrt with h | h
    · cases (cons.inj (append_inj_right' h rfl)).1
    · exact hs.reads front step h
  · simp only [moment_append_release]
    exact hs.peak

lemma safely_checkParents (hs : TraceInvariant g events s) {inputs : List String} {expected :
    List PublicCiphertextState} (hlen : expected.length=inputs.length) : Safely (checkParents
    g s (inputs.zip expected)) fun _ => ∀ id∈inputs, .value id ∈ g.holders events := by
  refine (safely_forM (Q := fun parent => .value parent.1 ∈ g.holders events) _
    fun parent hpare => ?_).mono fun _ hall id hid => ?_
  · refine (safely_refuse _).bind fun i hi => ?_
    obtain ⟨v,hv,hid⟩ := valueIndex_eq_ok hi
    refine safely_unwrap hv ?_
    refine (safely_rejectIf _ _).mono fun _ hlive => ?_
    push Not at hlive
    rw [← hid]
    exact (hs.live i v hv).mp (by simpa using hlive.1)
  · obtain ⟨i,hi⟩ := getElem?_of_mem hid
    obtain ⟨hlt,rfl⟩ := List.getElem?_eq_some_iff.mp hi
    have hzip : (inputs[i],expected[i]) ∈ inputs.zip expected := by
      rw [mem_iff_getElem]
      exact ⟨i,by simpa [hlen] using hlt,by simp⟩
    exact hall _ hzip

section
variable (ha : Admitted g owners)
include ha

lemma safely_checkBacking {cap : PublicCiphertextCapability} (hop : op∈g.operations) (owner : ℕ) :
    Safely (checkBacking g owners cap op owner s) fun t => ∃ c, t = {s with created := c} := by
  unfold checkBacking
  split
  · obtain ⟨first,rest,hinp⟩ := exists_cons_of_ne_nil (ha.parents op hop)
    refine safely_unwrap (b := first) (by rw [hinp]; rfl) ?_
    refine (safely_refuse _).bind fun i hi => ?_
    obtain ⟨v,hv,-⟩ := valueIndex_eq_ok hi
    obtain ⟨k,-,hk,-,-⟩ := ha.owner i v hv
    refine safely_unwrap hk ?_
    exact (safely_rejectIf _ _).bind fun _ _ => ⟨_,rfl⟩
  · exact (safely_rejectIf _ _).bind fun _ _ => ⟨_,rfl⟩

lemma output_fresh (hop : g.operations[index]? = some op)
    (hnew : op.identity ∉ executedBy events) : ¬Produced g events op.output.identity := by
  have hout := values_operation hop
  rintro (h | ⟨other,hoth,hid,hex⟩)
  · obtain ⟨v,hv,hid⟩ := mem_map.mp h
    obtain ⟨i,hi⟩ := getElem?_of_mem hv
    obtain ⟨hlt,-⟩ := List.getElem?_eq_some_iff.mp hi
    have hval : g.values[i]? = some v := by
      rw [values,getElem?_append_left hlt,hi]
    have := key_inj ha.valuesNodup hval hout hid
    omega
  · obtain ⟨j,hj⟩ := getElem?_of_mem hoth
    have hidx := key_inj ha.valuesNodup (values_operation hj) hout hid
    obtain rfl : j=index := by omega
    obtain rfl : other=op := some_inj (hj.symm.trans hop)
    exact hnew hex

lemma made_eq {step : PublicCiphertextTraceStep} (hop : g.operations[index]? = some op)
    (hid : op.identity=step.operation) : g.made step = some op.output.identity := by
  rw [made,← hid,find?_key ha.operationsNodup hop]
  rfl

lemma execute_invariant (hs : TraceInvariant g events s) (step : PublicCiphertextTraceStep) :
    Safely (execute g owners capacity step s) (TraceInvariant g (events++[.execute step])) := by
  refine (safely_refuse _).bind fun index hidx => ?_
  obtain ⟨op,hop,hid⟩ := findIdx?_some (okOr_eq_ok.mp hidx)
  have hmem : op∈g.operations := mem_of_getElem? hop
  refine (safely_rejectIf _ _).bind fun _ hexe => ?_
  have hnew : op.identity ∉ executedBy events := fun h => hexe ((hs.executed index op hop).mpr h)
  refine safely_unwrap hop ?_
  refine (safely_refuse _).bind fun cap hcap => ?_
  rw [okOr_eq_ok] at hcap
  obtain ⟨scratch,recovery,hscr,hrec⟩ :=
    ha.overheads cap (mem_of_find?_eq_some hcap)
  refine (safely_rejectIf _ _).bind fun _ hmat => ?_
  push Not at hmat
  refine (safely_checkParents hs hmat.2.2.1).bind fun _ hpar => ?_
  have hout := values_operation hop
  obtain ⟨k,o,hk,ho,hown⟩ := ha.owner _ _ hout
  refine safely_unwrap hk ?_
  refine (safely_checkBacking ha hmem k).bind ?_
  rintro _ ⟨created,rfl⟩
  have hfrs := output_fresh ha hop hnew
  have hcts : Counters g (g.holders events) {s with created := created} :=
    ⟨hs.counters.references,hs.counters.backing⟩
  refine (retain_counters ha hcts ho (fun h => hfrs (hs.holders _ h).1)
    ((holderOwner_value ha hout).trans hown.symm)).bind ?_
  rintro _ ⟨hcts,backing,references,rfl⟩
  rw [hscr,hrec]
  refine (safely_refuse _).bind fun withScratch hwith => ?_
  refine (safely_refuse _).bind fun overlap hover => ?_
  obtain ⟨-,rfl⟩ := sumCost_eq_ok.mp hwith
  obtain ⟨-,rfl⟩ := sumCost_eq_ok.mp hover
  refine (safely_rejectIf _ _).bind fun _ _ => ?_
  refine (safely_refuse _).bind fun charge _ => ?_
  refine (safely_refuse _).bind fun totalCost _ => ?_
  have hhol : g.holders (events++[.execute step]) =
      insert (.value op.output.identity) (g.holders events) := by
    rw [holders_append_execute,holdersStep, made_eq ha hop hid]
  have hrel := releasedBy_append_execute events step
  have hexec := executedBy_append_execute events step
  refine
    { live := fun j w hw => ?_
      counters := ?_
      executed := fun j op' hop' => ?_
      once := ?_
      known := ?_
      holders := fun id hid => ?_
      released := fun id hid => ?_
      reads := fun front step' hfrt => ?_
      peak := ?_ }
  · change update s.live (g.inputs.length+index) true j=true ↔ _
    rw [hhol,Finset.mem_insert,update_apply]
    split
    · next hj =>
      subst hj
      obtain rfl : op.output=w := some_inj (hout.symm.trans hw)
      simp
    · next hj =>
      rw [hs.live j w hw,or_iff_right]
      exact fun he => hj (key_inj ha.valuesNodup hw hout (Holder.value.inj he))
  · rw [hhol]
    exact ⟨hcts.references,hcts.backing⟩
  · change update s.executed index true j=true ↔ _
    rw [hexec,mem_append,mem_singleton,← hid,update_apply]
    split
    · next hj =>
      subst hj
      obtain rfl : op=op' := some_inj (hop.symm.trans hop')
      simp
    · next hj =>
      rw [hs.executed j op' hop',or_iff_left]
      exact fun he => hj (key_inj ha.operationsNodup hop' hop he)
  · rw [hexec,← hid]
    exact nodup_append.mpr ⟨hs.once,nodup_singleton _,by
      rintro x hx _ hy rfl
      exact hnew (mem_singleton.mp hy ▸ hx)⟩
  · rw [hexec,← hid]
    refine fun x hx => (mem_append.mp hx).elim (hs.known x) fun hx => ?_
    rw [mem_singleton.mp hx]
    exact mem_map_of_mem hmem
  · rw [hrel]
    rw [hhol,Finset.mem_insert] at hid
    rcases hid with he | h
    · obtain rfl := Holder.value.inj he
      refine ⟨.inr ⟨op,hmem,rfl,?_⟩,fun hr => hfrs (hs.released _ hr)⟩
      rw [hexec,‹op.identity=step.operation›]
      exact mem_append_right _ (mem_singleton_self _)
    · obtain ⟨hp,hr⟩ := hs.holders id h
      exact ⟨hp.append _,hr⟩
  · rw [hrel] at hid
    exact (hs.released id hid).append _
  · rcases prefix_concat_iff.mp hfrt with h | h
    · obtain ⟨rfl,hlast⟩ := append_inj' h rfl
      obtain rfl := TraceEvent.execute.inj (cons.inj hlast).1
      exact ⟨op,hmem,hid,fun id hid => ⟨hpar id hid,hs.holders id (hpar id hid)⟩⟩
    · exact hs.reads front step' h
  · have hove : g.overhead step=scratch+recovery := by
      rw [overhead,hcap]
      simp [hscr,hrec]
    have hbyt : g.liveBytes (events++[.execute step])=backing := by
      rw [liveBytes,hhol]
      exact hcts.backing.symm
    simp only [moment_append_execute,hove,hbyt,← add_assoc]
    have hset : {n | Moment g events n ∨ n=backing+scratch+recovery} =
        insert (backing+scratch+recovery) {n | Moment g events n} := by
      ext n
      exact or_comm
    rw [hset,max_comm]
    exact hs.peak.insert _

end

end

section

lemma mem_take_of_prefix {xs : List α} {front : List (α × ℕ)} {entry : α × ℕ}
    (h : front++[entry] <+: xs.zipIdx) : front.map fst = xs.take entry.2 := by
  obtain ⟨rest,hrest⟩ := h
  have hget : xs.zipIdx[front.length]? = some entry := by
    rw [← hrest,append_assoc,getElem?_append_right le_rfl,tsub_self]
    rfl
  rw [getElem?_zipIdx,Option.map_eq_some_iff] at hget
  obtain ⟨x,-,rfl⟩ := hget
  have hmap := congrArg (map fst) hrest
  rw [map_append,map_append,zipIdx_map_fst] at hmap
  rw [← hmap]
  simp

lemma persist_counters (ha : Admitted g owners) : Safely (g.persistentOwners.zipIdx.foldlM
    (persist g) TraceState.empty) fun s => Counters g (g.persistentOwners.map persistent).toFinset
    s ∧ s.live = (fun _ => false) ∧ s.executed = fun _ => false := by
  refine (Ends.foldlM (I := fun front s => Counters g
    ((front.map fst).map persistent).toFinset s ∧ s.live = (fun _ => false) ∧
      s.executed = fun _ => false) _ _ ?_ fun front entry hfrt s hs => ?_).mono ?_
  · exact ⟨⟨fun _ _ _ => rfl,rfl⟩,rfl,rfl⟩
  · obtain ⟨hcts,hlive,hexe⟩ := hs
    refine (safely_refuse _).bind fun k hk => ?_
    obtain ⟨o,ho,hid⟩ := findIdx?_some (okOr_eq_ok.mp hk)
    refine (safely_rejectIf _ _).bind fun _ hnew => ?_
    rw [← mem_take_of_prefix hfrt] at hnew
    have hfrs : persistent entry.1 ∉
        ((front.map fst).map persistent).toFinset := by
      rw [mem_toFinset,mem_map]
      rintro ⟨_,hmem,he⟩
      exact hnew (Holder.persistent.inj he ▸ hmem)
    have hzero : s.references k=0 := by
      rw [hcts.references k o ho,Holders.count_eq_zero,held,Finset.mem_image]
      rintro ⟨holder,hmem,hown⟩
      obtain ⟨name,hname,rfl⟩ := mem_map.mp (mem_toFinset.mp hmem)
      exact hnew ((hown.trans hid : name=entry.1) ▸ hname)
    have hown : g.holderOwner (.persistent entry.1)=o.identity := hid.symm
    have htot : total _ _ (insert (.persistent entry.1)
        ((front.map fst).map persistent).toFinset) = _ :=
      total_insert g.holderOwner g.ownerBytes
    rw [hown,← hcts.references k o ho,if_pos hzero,← hcts.backing] at htot
    have hset : (((front++[entry]).map fst).map persistent).toFinset =
        insert (.persistent entry.1) ((front.map fst).map persistent).toFinset := by
      ext holder
      simp
    refine (safely_bytesOf ha ho).bind ?_
    rintro _ rfl
    refine (safely_refuse _).bind fun backing hbac => ?_
    obtain ⟨-,rfl⟩ := sumCost_eq_ok.mp hbac
    refine ⟨⟨fun i o' ho' => ?_,?_⟩,hlive,hexe⟩
    · rw [hset,← count_insert_owner ha hcts ho hfrs hown i o' ho',hzero]
    · rw [hset,htot]
  · rw [zipIdx_map_fst]
    exact fun _ h => h

/-- The holders once the first `n` inputs are supplied. -/
def PublicCiphertextGraph.suppliedHolders (g : PublicCiphertextGraph) (n : ℕ) : Finset Holder :=
  (g.persistentOwners.map Holder.persistent
    ++ (g.inputs.take n).map fun v => Holder.value v.identity).toFinset

lemma supply_counters (ha : Admitted g owners)
    {n : ℕ} (hv : g.inputs[n]? = some v) (hs : Counters g (g.suppliedHolders n) s)
    (hlive : ∀ i, s.live i = true ↔ i<n) : Safely (supply g owners s n) fun t => Counters g
    (g.suppliedHolders (n+1)) t ∧ (∀ i, t.live i = true ↔ i<n+1) ∧ t.executed=s.executed := by
  obtain ⟨hlt,hget⟩ := List.getElem?_eq_some_iff.mp hv
  have hval : g.values[n]? = some v := by
    rw [values,getElem?_append_left hlt,hv]
  obtain ⟨k,o,hk,ho,hown⟩ := ha.owner n v hval
  have hset : g.suppliedHolders (n+1)=insert (.value v.identity) (g.suppliedHolders n) := by
    ext holder
    simp [suppliedHolders,take_add_one,hv]
  have hfrs : value v.identity ∉ g.suppliedHolders n := by
    rw [suppliedHolders,mem_toFinset,mem_append]
    rintro (h | h)
    · obtain ⟨_,-,he⟩ := mem_map.mp h
      cases he
    · obtain ⟨w,hw,he⟩ := mem_map.mp h
      obtain ⟨i,hi,rfl⟩ := mem_take_iff_getElem.mp hw
      have hi' : i<g.inputs.length := by omega
      have hw : g.values[i]? = some g.inputs[i] := by
        rw [values,getElem?_append_left hi',getElem?_eq_getElem hi']
      have := key_inj ha.valuesNodup hw hval (Holder.value.inj he)
      omega
  refine safely_unwrap hk ?_
  have hcts : Counters g (g.suppliedHolders n) {s with live := update s.live n true} :=
    ⟨hs.references,hs.backing⟩
  refine (retain_counters ha hcts ho hfrs ((holderOwner_value ha hval).trans hown.symm)).bind ?_
  rintro _ ⟨hcts,backing,references,rfl⟩
  rw [← hset] at hcts
  refine ⟨⟨hcts.references,hcts.backing⟩,fun i => ?_,rfl⟩
  change update s.live n true i=true ↔ _
  rw [update_apply]
  split
  · next hi => exact iff_of_true rfl (by omega)
  · next hi =>
    rw [hlive i]
    omega

lemma eq_length_of_prefix {n i : ℕ} {front : List ℕ} (h : front++[i] <+: range n) :
    i=front.length ∧ i<n := by
  obtain ⟨rest,hrest⟩ := h
  have hget : (range n)[front.length]? = some i := by
    rw [← hrest,append_assoc,getElem?_append_right le_rfl,tsub_self]
    rfl
  obtain ⟨hlt,he⟩ := List.getElem?_eq_some_iff.mp hget
  rw [getElem_range] at he
  rw [length_range] at hlt
  exact ⟨he.symm,he ▸ hlt⟩

lemma supplied_counters (ha : Admitted g owners)
    (hs : Counters g (g.suppliedHolders 0) s) (hlive : s.live = fun _ => false) : Safely
    ((range g.inputs.length).foldlM (supply g owners) s) fun t => Counters g g.startHolders t ∧
    (∀ i, t.live i = true ↔ i<g.inputs.length) ∧ t.executed=s.executed := by
  refine (Ends.foldlM (I := fun front t => Counters g (g.suppliedHolders front.length) t ∧
    (∀ i, t.live i = true ↔ i<front.length) ∧ t.executed=s.executed) _ _ ?_
      fun front i hfrt t ht => ?_).mono ?_
  · exact ⟨hs,fun i => by simp [hlive],rfl⟩
  · obtain ⟨rfl,hlt⟩ := eq_length_of_prefix hfrt
    rw [length_append]
    refine (supply_counters ha (getElem?_eq_getElem hlt) ht.1 ht.2.1).mono fun u hu => ?_
    exact ⟨hu.1,hu.2.1,hu.2.2.trans ht.2.2⟩
  · rw [length_range,suppliedHolders,take_length]
    exact fun _ h => h

lemma moment_nil {n : ℕ} : Moment g [] n ↔ n = g.liveBytes [] := by
  refine or_iff_left ?_
  rintro ⟨front,step,h,-⟩
  cases front <;> cases prefix_nil.mp h

lemma start_invariant (ha : Admitted g owners) (hs : Counters g g.startHolders s)
    (hlive : ∀ i, s.live i = true ↔ i<g.inputs.length) (hexe : s.executed = fun _ => false)
    (hpeak : s.peakOwners=s.backing) : TraceInvariant g [] s where
  live i v hv := by
    rw [hlive]
    constructor
    · intro hi
      refine mem_toFinset.mpr (mem_append_right _ (mem_map.mpr ⟨v,?_,rfl⟩))
      rw [values,getElem?_append_left hi] at hv
      exact mem_of_getElem? hv
    · intro hmem
      rcases mem_append.mp (mem_toFinset.mp hmem) with h | h
      · obtain ⟨_,-,he⟩ := mem_map.mp h
        cases he
      · obtain ⟨w,hw,he⟩ := mem_map.mp h
        obtain ⟨j,hj⟩ := getElem?_of_mem hw
        obtain ⟨hlt,-⟩ := List.getElem?_eq_some_iff.mp hj
        have hval : g.values[j]? = some w := by
          rw [values,getElem?_append_left hlt,hj]
        rwa [key_inj ha.valuesNodup hv hval (Holder.value.inj he).symm]
  counters := hs
  executed i op _ := by
    rw [hexe]
    exact iff_of_false Bool.false_ne_true not_mem_nil
  once := nodup_nil
  known := nofun
  holders id hid := by
    refine ⟨.inl ?_,not_mem_nil⟩
    rcases mem_append.mp (mem_toFinset.mp hid) with h | h
    · obtain ⟨_,-,he⟩ := mem_map.mp h
      cases he
    · obtain ⟨w,hw,he⟩ := mem_map.mp h
      exact mem_map.mpr ⟨w,hw,Holder.value.inj he⟩
  released := nofun
  reads front step h := by cases front <;> cases prefix_nil.mp h
  peak := by
    simp only [moment_nil,hpeak,hs.backing]
    exact isGreatest_singleton

lemma traceStart_invariant (ha : Admitted g owners) :
    Safely (traceStart env g owners capacity) (TraceInvariant g []) := by
  refine (safely_rejectIf _ _).bind fun _ _ => ?_
  refine (persist_counters ha).bind fun s hs => ?_
  have hzero : Counters g (g.suppliedHolders 0) s := by
    rw [suppliedHolders,take_zero,map_nil,append_nil]
    exact hs.1
  refine (supplied_counters ha hzero hs.2.1).bind fun t ht => ?_
  refine (safely_rejectIf _ _).bind fun _ _ => ?_
  exact start_invariant ha ⟨ht.1.references,ht.1.backing⟩ ht.2.1 (ht.2.2.trans hs.2.2) rfl

end

/-- One event of the loop. -/
def traceEvent (g : PublicCiphertextGraph) (owners : List ℕ)
    (capacity : PublicCiphertextTraceCapacity) (s : TraceState) :
    TraceEvent → Except TraceError TraceState
  | .execute step => execute g owners capacity step s
  | .release id => release g owners s id

lemma foldlM_traceEvents (trace : List PublicCiphertextTraceStep) (s : TraceState) :
    trace.foldlM (traceStep g owners capacity) s =
      (traceEvents trace).foldlM (traceEvent g owners capacity) s := by
  induction trace generalizing s with
  | nil => rfl
  | cons step trace ih =>
    have hstep : traceStep g owners capacity s step =
        (stepEvents step).foldlM (traceEvent g owners capacity) s := by
      rw [traceStep,stepEvents]
      congr 1
      funext t
      rw [foldlM_map]
      rfl
    rw [foldlM_cons,traceEvents,flatMap_cons,foldlM_append]
    congr 1
    funext t
    exact ih t

lemma events_invariant (ha : Admitted g owners) (hs : TraceInvariant g [] s)
    (events : List TraceEvent) :
    Safely (events.foldlM (traceEvent g owners capacity) s) (TraceInvariant g events) := by
  refine Ends.foldlM _ _ hs fun front event _ t ht => ?_
  cases event with
  | execute step => exact execute_invariant ha ht step
  | release id => exact release_invariant ha ht id

lemma executedBy_traceEvents (trace : List PublicCiphertextTraceStep) :
    executedBy (traceEvents trace) = trace.map (·.operation) := by
  induction trace with
  | nil => rfl
  | cons step trace ih =>
    have hrele : executedBy (step.release.map .release)=[] := by
      rw [executedBy,filterMap_map,filterMap_eq_nil_iff]
      exact fun _ _ => rfl
    have hstep : executedBy (stepEvents step)=[step.operation] :=
      congrArg (step.operation :: ·) hrele
    rw [executedBy,traceEvents,flatMap_cons,filterMap_append]
    exact congrArg₂ (· ++ ·) hstep ih

lemma count_executed (hs : TraceInvariant g (traceEvents trace) s)
    (hlen : trace.length=g.operations.length) {op : PublicCiphertextGraphOperation}
    (hop : op∈g.operations) : (trace.map (·.operation)).count op.identity = 1 := by
  have hnd := hs.once
  have hkno := hs.known
  rw [executedBy_traceEvents] at hnd hkno
  have hperm : Perm (trace.map (·.operation)) (g.operations.map (·.identity)) := by
    refine (subperm_of_subset hnd hkno).perm_of_length_le ?_
    rw [length_map,length_map,hlen]
  exact count_eq_one_of_mem hnd (hperm.mem_iff.mpr (mem_map_of_mem hop))

lemma safely_checkBoundary (hs : TraceInvariant g (traceEvents trace) s) : Safely (checkBoundary g
    s) fun _ => ∀ id ∈ g.outputs++g.retainedInputs, .value id ∈ g.holders (traceEvents trace) := by
  refine safely_forM _ fun id _ => (safely_refuse _).bind fun i hi => ?_
  obtain ⟨v,hv,rfl⟩ := valueIndex_eq_ok hi
  refine (safely_rejectIf _ _).mono fun _ hlive => ?_
  exact (hs.live i v hv).mp (by simpa using hlive)

/-- What acceptance means, for a loop that starts in `start`. -/
structure Accepted (g : PublicCiphertextGraph) (trace : List PublicCiphertextTraceStep)
    (capacity : PublicCiphertextTraceCapacity) (owners : List ℕ) (start : TraceState)
    (summary : PublicCiphertextTraceSummary) : Prop where
  once : ∀ op∈g.operations, (trace.map (·.operation)).count op.identity = 1
  parents : ∀ front step, front++[.execute step] <+: traceEvents trace → ∃ op∈g.operations,
    op.identity=step.operation ∧ ∀ id∈op.inputs, .value id ∈ g.holders front ∧
      Produced g front id ∧ id ∉ releasedBy front
  counters : ∀ front, front <+: traceEvents trace → ∃ s,
    front.foldlM (traceEvent g owners capacity) start = .ok s ∧ s.backing = g.liveBytes front ∧
      ∀ (i : ℕ) (o : PublicCiphertextOwner), g.owners[i]? = some o →
        s.references i = g.liveReferences front o.identity
  peak : IsGreatest {n | Moment g (traceEvents trace) n} summary.peakLiveOwnerBytes
  final : summary.finalLiveBackingBytes = g.liveBytes (traceEvents trace)
  boundary : ∀ id ∈ g.outputs++g.retainedInputs, .value id ∈ g.holders (traceEvents trace)

/-- The loop is run from a start that the validator itself computes, in tables that passed. -/
lemma accepted_of_run (ha : Admitted g owners) (hlen : trace.length=g.operations.length)
    {start t : TraceState} (hs : TraceInvariant g [] start)
    (ht : TraceInvariant g (traceEvents trace) t)
    (hrun : (traceEvents trace).foldlM (traceEvent g owners capacity) start = .ok t)
    (hbdy : ∀ id ∈ g.outputs++g.retainedInputs, .value id ∈ g.holders (traceEvents trace))
    (workBound bufferBytes : ℕ) : Accepted g trace capacity owners start
      ⟨t.totalCost,t.peakBacking,t.peakOwners,t.backing,workBound,bufferBytes⟩ where
  once _ hop := count_executed ht hlen hop
  parents := ht.reads
  counters front hfrt := by
    obtain ⟨rest,hrest⟩ := hfrt
    rw [← hrest,foldlM_append] at hrun
    obtain ⟨s,hfst,-⟩ := bind_eq_ok.mp hrun
    have hinv := (events_invariant ha hs front).ok hfst
    exact ⟨s,hfst,hinv.counters.backing,hinv.counters.references⟩
  peak := ht.peak
  final := ht.counters.backing
  boundary := hbdy

theorem validatePublicCiphertextTrace_sound (env : Platform) (g : PublicCiphertextGraph)
    (trace : List PublicCiphertextTraceStep) (capacity : PublicCiphertextTraceCapacity) :
    validatePublicCiphertextTrace env g trace capacity ≠ .error .panicked ∧
    ∀ summary, validatePublicCiphertextTrace env g trace capacity = .ok summary →
    ∃ owners start, traceOwners env g = .ok owners ∧ traceStart env g owners capacity = .ok start ∧
    Accepted g trace capacity owners start summary := by
  have hsafe : Safely (validatePublicCiphertextTrace env g trace capacity) fun summary =>
      ∃ owners start, traceOwners env g = .ok owners ∧
        traceStart env g owners capacity = .ok start ∧
        Accepted g trace capacity owners start summary := by
    refine (safely_refuse _).bind fun bounds _ => ?_
    refine (safely_refuse _).bind fun _ hrecs => ?_
    refine (safely_refuse _).bind fun _ hpai => ?_
    refine (safely_refuse _).bind fun owners howners => ?_
    obtain ⟨hlen,hbyt,hpar⟩ := traceRecordChecks_eq_ok hrecs
    obtain ⟨hops,hnd,hcaps⟩ := tracePairChecks_eq_ok hpai
    obtain ⟨hvals,howne⟩ := traceOwners_eq_ok howners
    have ha : Admitted g owners := ⟨hvals,hnd,hops,hbyt,hcaps,hpar,howne⟩
    have hst : Safely (traceStart env g owners capacity) (TraceInvariant g []) :=
      traceStart_invariant ha
    refine hst.result.bind fun start hinit => ?_
    have hall : Safely ((traceEvents trace).foldlM (traceEvent g owners capacity) start)
        (TraceInvariant g (traceEvents trace)) := events_invariant ha hinit.2 _
    rw [foldlM_traceEvents]
    refine hall.result.bind fun t hrun => ?_
    refine (safely_checkBoundary hrun.2).bind fun _ hbdy => ?_
    exact ⟨owners,start,howners,hinit.1, accepted_of_run ha hlen hinit.2 hrun.2 hrun.1 hbdy _ _⟩
  refine ⟨fun h => hsafe.error h rfl,fun summary h => hsafe.ok h⟩

/-- One multiplication that replaces its input: both backings are live together, under the scratch
and the recovery of the step. -/
theorem validatePublicCiphertextTrace_sound_at :
    let state : PublicCiphertextState := ⟨"ckks","key","slots","one",0,[4],⟨"model",some 0⟩⟩
    let cap : PublicCiphertextCapability := ⟨"cap","square",.arithmetic,[state],state,.unary,
      .ckks ⟨0,⟨"c",some 3⟩⟩ 0 ⟨.preserve,0,0,⟨"p",some 0⟩⟩,some "assumed",some 2,some 1⟩
    let g : PublicCiphertextGraph := ⟨"costs","unit",0,[⟨"a",some 8⟩,⟨"b",some 16⟩],[],
      [⟨"x",state,"a"⟩],[⟨"op","square",.arithmetic,["x"],⟨"y",state,"b"⟩⟩],[cap],["y"],[]⟩
    let trace : List PublicCiphertextTraceStep := [⟨"op","cap",["x"]⟩]
    let env : Platform := ⟨fun _ => "p",fun _ => "l",fun _ => true,48⟩
    ∃ summary, validatePublicCiphertextTrace env g trace ⟨999,9999999999,9999999,99⟩ = .ok summary ∧
      summary.peakLiveOwnerBytes=27 ∧ IsGreatest {n | Moment g (traceEvents trace) n} 27 := by
  intro state cap g trace env
  have hrun : ∃ summary, validatePublicCiphertextTrace env g trace
      ⟨999,9999999999,9999999,99⟩ = .ok summary ∧ summary.peakLiveOwnerBytes=27 := by
    refine ⟨⟨3,24,27,16,20141056,18432⟩,?_,rfl⟩
    decide +kernel
  obtain ⟨summary,hsum,hpeak⟩ := hrun
  obtain ⟨_,_,-,-,hacc⟩ := (validatePublicCiphertextTrace_sound env g trace
    ⟨999,9999999999,9999999,99⟩).2 summary hsum
  exact ⟨summary,hsum,hpeak,hpeak ▸ hacc.peak⟩

end Pllm.Levels
