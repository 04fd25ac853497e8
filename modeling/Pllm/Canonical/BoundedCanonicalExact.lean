import Pllm.Canonical.BoundedCanonicalRuns

/-! Exactness of the bounded walk: the children of every container in order, and the whole tree. -/
namespace Pllm.Canonical
open Pllm.Lib Value List Canonical.Frame

variable {lim : Bounds} {toVec : Text → List Octet} {node : Node}

variable {α : Type} {out : Output}

lemma raw_bind_congr {bytes : List Octet} {f g : Output → Except Error α} (h : ∀ out : Output,
    out.bytes≤out.limit → f out = g out) : (out.raw bytes >>= f) = out.raw bytes >>= g := by
  unfold Output.raw
  by_cases hfit : out.bytes+bytes.length≤out.limit
  · rw [if_pos hfit,ok_bind]
    exact h _ hfit
  · rw [if_neg hfit,error_bind,error_bind]

lemma map_zipIdx_fst {α β : Type} (f : α → β) (xs : List α) (i : ℕ) :
    ((xs.zipIdx i).map fun e => f e.1) = xs.map f := by
  exact (map_map ..).symm.trans (congrArg (map f) (zipIdx_map_fst _ _))

/-- The children of an array, each behind its comma. -/
def arrayItems (values : List Node) (i : ℕ) : List (List Octet × Node) :=
  (values.zipIdx i).map fun e => (comma e.2,e.1)

/-- The entries of an object, each behind its comma, its key and a colon. -/
def objectItems (toVec : Text → List Octet) (entries : List (Text × Node)) (i : ℕ) :
    List (List Octet × Node) :=
  (entries.zipIdx i).map fun e => (comma e.2++toVec e.1.1++octets ":",e.1.2)

section
variable {values : List Node} {entries : List (Text × Node)}

lemma plan_array (hshp : node.shape = .array values) (later : List Node) (i : ℕ)
    (hlat : values.drop i = later) (previous : Option Text) :
    Plan lim (octets "]") ⟨node,true,i,previous⟩ (arrayItems later i) true := by
  induction later generalizing i with
  | nil =>
    refine .close rfl fun rest s _ => ?_
    have hget : values[i]? = none := getElem?_eq_none (drop_eq_nil_iff.mp hlat)
    unfold advance
    simp only [hshp,hget]
  | cons child later ih =>
    have hget : values[i]? = some child := by
      rw [← head?_drop,hlat]
      rfl
    have hnext : values.drop (i+1)=later := by
      rw [← drop_drop,hlat]
      rfl
    refine @Plan.item _ _ _ ⟨node,true,i,previous⟩ _ _ _ _ rfl (fun rest s hs => ?_) (ih (i+1) hnext)
    unfold advance
    simp only [hshp,hget,separator_eq hs]

lemma write_key (hvec : CompactStrings toVec) (h : out.bytes≤out.limit) (index : ℕ) (key : Text) (k : Output → Except Error α) :
    (out.separator index >>= fun out => out.string key >>= fun out =>
      out.raw (octets ":") >>= k) = out.raw (comma index++toVec key++octets ":") >>= k := by
  rw [separator_eq h,← Output.raw_raw,← Output.raw_raw,bind_assoc,bind_assoc]
  exact raw_bind_congr fun out hout => by rw [string_eq hvec hout]

/-- The rounds of an object follow its sorted entries, and stop at the first repeated key. -/
lemma plan_object (lim : Bounds) (hvec : CompactStrings toVec)
    (hshp : node.shape = .object entries) (later : List (Text × Node)) (i : ℕ)
    (previous : Option Text) (hperm : Perm (entries.filter (after previous)) later)
    (hsrt : later.Pairwise fun left right => left.1 ≤ right.1) :
    ∃ items ok, Plan lim (octets "\x7d") ⟨node,true,i,previous⟩ items ok ∧
      (∀ item∈items, ∃ e∈later, item.2=e.2) ∧
      (ok=true ↔ (later.map Prod.fst).Nodup) ∧ (ok=true → items = objectItems toVec later i) := by
  induction later generalizing i previous with
  | nil =>
    refine ⟨[],true,.close rfl fun rest s _ => ?_,nofun,by simp,fun _ => rfl⟩
    unfold advance
    simp only [hshp,nextEntry_nil hperm,ok_bind]
  | cons entry later ih =>
    have hnext := nextEntry_cons hperm hsrt
    by_cases hfrs : entry.1 ∈ later.map Prod.fst
    · rw [if_pos hfrs] at hnext
      refine ⟨[],false,.stop rfl fun rest s => ⟨.duplicateKey,?_⟩,nofun,?_,nofun⟩
      · unfold advance
        simp only [hshp,hnext,error_bind]
      · refine iff_of_false Bool.false_ne_true fun h => ?_
        exact (nodup_cons.mp h).1 hfrs
    · rw [if_neg hfrs] at hnext
      obtain ⟨items,ok,hplan,hite,hok,heq⟩ := ih (i+1) (some entry.1)
        (filter_after_cons hperm hsrt hfrs) hsrt.tail
      refine ⟨(comma i++toVec entry.1++octets ":",entry.2)::items,ok,?_,?_,?_,fun h => ?_⟩
      · refine @Plan.item _ _ _ ⟨node,true,i,some entry.1⟩ _ _ _ _ rfl (fun rest s hs => ?_) hplan
        unfold advance
        simp only [hshp,hnext]
        exact write_key hvec hs i entry.1 _
      · refine forall_mem_cons.mpr ⟨⟨entry,mem_cons_self,rfl⟩,fun item hitem => ?_⟩
        obtain ⟨e,he,hval⟩ := hite item hitem
        exact ⟨e,mem_cons_of_mem _ he,hval⟩
      · rw [map_cons,nodup_cons,and_iff_right hfrs]
        exact hok
      · rw [heq h,objectItems,objectItems,zipIdx_cons,map_cons]

lemma length_le_sum_nodes (values : List Value) : values.length ≤ (values.map nodes).sum := by
  have := length_le_sum_of_one_le (values.map nodes) fun n hn => by
    obtain ⟨v,-,rfl⟩ := mem_map.mp hn
    exact v.nodes_pos
  rwa [length_map] at this

lemma children_lt_nodes (node : Node) : node.shape.children<node.toValue.nodes := by
  rw [← shape_toValue]
  cases node.shape with
  | scalar s => exact Nat.one_pos
  | array values =>
    have := length_le_sum_nodes (values.map Node.toValue)
    rw [length_map] at this
    simp only [Shape.toValue,nodes_array]
    exact Nat.lt_succ_of_le this
  | object entries =>
    have := length_le_sum_nodes (entries.map fun e => e.2.toValue)
    rw [length_map,map_map] at this
    simp only [Shape.toValue,nodes_object,map_map]
    exact Nat.lt_succ_of_le this

/-- A container: it is opened if its children can fit at all, and its plan does the rest. -/
lemma walks_container (opening : List Octet) {closing : List Octet} {items : List (List Octet × Node)} {ok : Bool}
    {v : Value} (hv : node.toValue=v)
    (hopen : ∀ rest (s : State), ¬node.shape.children>lim.limits.maxNodes-s.nodes →
      enter lim (new (normalized node)) rest s = s.output.raw opening >>= fun out =>
        .ok {s with frames := ⟨normalized node,true,0,none⟩::rest, output := out})
    (hplan : Plan lim closing ⟨normalized node,true,0,none⟩ items ok)
    (hwal : ∀ i∈items, Walks lim toVec i.2.toValue)
    (hkeys : v.distinctKeys=true ↔ ok=true ∧ ∀ i∈items, i.2.toValue.distinctKeys=true)
    (hnod : ok=true → ((valued items).map fun i => i.2.nodes).sum+1 = v.nodes)
    (hdep : ok=true → ((valued items).map fun i => i.2.depth).foldr max 0+1 = v.depth)
    (hbyt : ok=true → opening
      ++ ((valued items).map fun i => i.1++writeCanonicalValue toVec i.2).flatten++closing =
        writeCanonicalValue toVec v) (rest : List Frame) (t : Totals)
    (ht : (t.visit (rest.length+1)).Fits lim) : Decides lim (.ofTotals lim (new
      (normalized node)::rest) (t.visit (rest.length+1))) (v.distinctKeys=true ∧ (t.tree toVec
      rest.length v).Fits lim) (.ofTotals lim rest (t.tree toVec rest.length v)) := by
  by_cases hwide : node.shape.children>lim.limits.maxNodes-(t.nodes+1)
  · refine decides_round rfl rfl (fun h => ?_) fun _ => ⟨.nodeLimit,?_⟩
    · have hfits : t.nodes+v.nodes≤_ := h.2.nodes
      have hlt := children_lt_nodes node
      rw [hv] at hlt
      omega
    · change enter lim (new (normalized node)) rest _=_
      unfold enter
      rw [if_pos]
      exact (shape_normalized node).symm ▸ hwide
  have hent := (decides_raw (new (normalized node)) rest ht
    (hopen rest (.ofTotals lim (new (normalized node)::rest) (t.visit (rest.length+1))) hwide))
  cases ok with
  | false =>
    have hno : ¬(v.distinctKeys=true ∧ (t.tree toVec rest.length v).Fits lim) :=
      fun h => Bool.false_ne_true (hkeys.mp h.1).1
    refine Decides.refused (hent.trans (fun hfits => hplan.decides hwal hfits) Iff.rfl) ?_ hno
    exact fun h => Bool.false_ne_true h.2.1
  | true =>
    have htot : (Totals.body toVec (rest.length+1) ((t.visit (rest.length+1)).emit opening)
        (valued items)).emit closing = t.tree toVec rest.length v := by
      rw [Totals.body_eq (le_max_right t.depth (rest.length+1))]
      unfold Totals.tree
      rw [← hnod rfl,← hdep rfl,← hbyt rfl]
      simp only [Totals.emit,Totals.visit,append_assoc,Totals.mk.injEq,and_true]
      omega
    have hbody (hfits : ((t.visit (rest.length+1)).emit opening).Fits lim) :
        Decides lim (.ofTotals lim (_::rest) ((t.visit (rest.length+1)).emit opening)) _ _ :=
      hplan.decides hwal hfits
    rw [htot] at hbody
    refine hent.trans hbody ?_
    rw [hkeys,and_iff_right rfl,and_iff_right rfl]
    refine ⟨fun h => ⟨h.2.below ?_,h⟩,fun h => h.2⟩
    rw [← htot]
    exact (Totals.below_body _ _ _).trans (Totals.below_emit _ _)

lemma mem_arrayItems {item : List Octet × Node} (h : item ∈ arrayItems values 0) :
    item.2∈values := by
  obtain ⟨e,he,rfl⟩ := mem_map.mp h
  exact fst_mem_of_mem_zipIdx he

lemma walks_array (hshp : node.shape = .array values) (ih : ∀ v ∈ values.map Node.toValue,
    Walks lim toVec v) (rest : List Frame) (t : Totals) (ht : (t.visit (rest.length+1)).Fits lim) :
    Decides lim (.ofTotals lim (new (normalized node)::rest) (t.visit (rest.length+1)))
    (node.toValue.distinctKeys=true ∧ (t.tree toVec rest.length node.toValue).Fits lim)
    (.ofTotals lim rest (t.tree toVec rest.length node.toValue)) := by
  have hnor : (normalized node).shape = .array values := (shape_normalized node).trans hshp
  have hval : node.toValue = .array (values.map Node.toValue) := by
    rw [← shape_toValue,hshp]
    rfl
  have hvalu : valued (arrayItems values 0) =
      values.zipIdx.map fun e => (comma e.2,e.1.toValue) := by
    rw [valued,arrayItems,map_map]
    rfl
  refine walks_container (octets "[") rfl (fun rest s hwide => ?_) (plan_array hnor values 0 rfl none)
    (fun i hi => ih _ (mem_map_of_mem (mem_arrayItems hi))) ?_ (fun _ => ?_) (fun _ => ?_)
    (fun _ => ?_) rest t ht
  · unfold enter new
    simp only [hnor]
    rw [hshp] at hwide
    rw [if_neg hwide]
    rfl
  · rw [hval,distinctKeys_array,and_iff_right rfl]
    refine ⟨fun h i hi => h _ (mem_map_of_mem (mem_arrayItems hi)),fun h v hv => ?_⟩
    obtain ⟨n,hn,rfl⟩ := mem_map.mp hv
    obtain ⟨i,hi⟩ := getElem?_of_mem hn
    exact h (comma i,n) (mem_map.mpr ⟨(n,i),mk_mem_zipIdx_iff_getElem?.mpr hi,rfl⟩)
  · rw [hval,hvalu,map_map,nodes_array,map_map]
    exact congrArg (·.sum+1) (map_zipIdx_fst (nodes ∘ Node.toValue) values 0)
  · rw [hval,hvalu,map_map,depth_array,map_map]
    exact congrArg (·.foldr max 0+1) (map_zipIdx_fst (depth ∘ Node.toValue) values 0)
  · rw [hval,hvalu,map_map,writeCanonicalValue,fold_array,arrayBytes,separated,
      zipIdx_map,zipIdx_map,map_map,map_map]
    rfl

variable (hvec : CompactStrings toVec)
include hvec

lemma walks_object (hshp : node.shape = .object entries) (ih : ∀ e∈entries, Walks lim
    toVec e.2.toValue) (rest : List Frame) (t : Totals) (ht : (t.visit (rest.length+1)).Fits lim) :
    Decides lim (.ofTotals lim (new (normalized node)::rest) (t.visit (rest.length+1)))
    (node.toValue.distinctKeys=true ∧ (t.tree toVec rest.length node.toValue).Fits lim)
    (.ofTotals lim rest (t.tree toVec rest.length node.toValue)) := by
  have hnor : (normalized node).shape = .object entries := (shape_normalized node).trans hshp
  have hval : node.toValue = .object (entries.map fun e => (e.1,e.2.toValue)) := by
    rw [← shape_toValue,hshp]
    rfl
  have hsort := sortEntries_perm entries
  have hall : entries.filter (after none)=entries := filter_eq_self.mpr fun _ _ => rfl
  obtain ⟨items,ok,hplan,hite,hok,heq⟩ := plan_object lim hvec hnor
    (sortEntries entries) 0 none (hall.symm ▸ hsort.symm) (sortEntries_pairwise entries)
  have hvalu (h : ok=true) : valued items=(sortEntries entries).zipIdx.map fun e =>
      (comma e.2++toVec e.1.1++octets ":",e.1.2.toValue) := by
    rw [heq h,valued,objectItems,map_map]
    rfl
  refine walks_container (octets "\x7b") rfl (fun rest s hwide => ?_) hplan (fun i hi => ?_) ?_
    (fun h => ?_) (fun h => ?_) (fun h => ?_) rest t ht
  · unfold enter new
    simp only [hnor]
    rw [hshp] at hwide
    rw [if_neg hwide]
    rfl
  · obtain ⟨e,he,hchd⟩ := hite i hi
    rw [hchd]
    exact ih e (hsort.mem_iff.mp he)
  · rw [hval,distinctKeys_object,hok,map_map]
    rw [(hsort.map Prod.fst).nodup_iff]
    refine and_congr_right fun hnd => ?_
    have hitems' := heq (hok.mpr ((hsort.map Prod.fst).nodup_iff.mpr hnd))
    rw [hitems',forall_mem_map]
    constructor
    · rintro h _ hi
      obtain ⟨e,he,rfl⟩ := mem_map.mp hi
      exact h e.1 (hsort.mem_iff.mp (fst_mem_of_mem_zipIdx he))
    · intro h e he
      obtain ⟨i,hi⟩ := getElem?_of_mem (hsort.mem_iff.mpr he)
      exact h (comma i++toVec e.1++octets ":",e.2)
        (mem_map.mpr ⟨(e,i),mk_mem_zipIdx_iff_getElem?.mpr hi,rfl⟩)
  · rw [hval,hvalu h,map_map,nodes_object,map_map]
    refine congrArg (·+1) (Eq.trans ?_ (hsort.map fun e => e.2.toValue.nodes).sum_eq)
    exact congrArg sum (map_zipIdx_fst (fun e => e.2.toValue.nodes) (sortEntries entries) 0)
  · rw [hval,hvalu h,map_map,depth_object,map_map]
    refine congrArg (·+1) (Eq.trans ?_ ((hsort.map fun e => e.2.toValue.depth).foldr_eq 0))
    exact congrArg (foldr max 0)
      (map_zipIdx_fst (fun e => e.2.toValue.depth) (sortEntries entries) 0)
  · rw [hval,hvalu h,map_map,writeCanonicalValue,fold_object,objectBytes,separated,map_map]
    have hmap := sortEntries_map (fun n : Node => writeCanonicalValue toVec n.toValue) entries
    rw [writeCanonicalValue] at hmap
    change octets "\x7b" ++ _++_=octets "\x7b" ++ (map _ ((map _ (sortEntries
      (entries.map fun e => (e.1,fold _ _ _ e.2.toValue)))).zipIdx)).flatten++_
    rw [hmap,map_map,zipIdx_map,map_map]
    simp only [Function.comp_def,append_assoc]
    rfl

lemma walks_scalar {s : Scalar} (hshp : node.shape = .scalar s)
    (rest : List Frame) (t : Totals) (ht : (t.visit (rest.length+1)).Fits lim) : Decides lim
      (.ofTotals lim (new (normalized node)::rest) (t.visit (rest.length+1)))
      ((scalar s).distinctKeys = true ∧ (t.tree toVec rest.length (.scalar s)).Fits lim)
      (.ofTotals lim rest (t.tree toVec rest.length (.scalar s))) := by
  have hnor : (normalized node).shape = .scalar s := (shape_normalized node).trans hshp
  refine (decides_raw (new (normalized node)) rest ht ?_).congr ?_
  · unfold enter new
    simp only [hnor]
    exact congrArg (· >>= _) (scalar_eq hvec (output_le ht) s)
  · exact and_iff_right rfl

lemma walks (v : Value) : Walks lim toVec v := by
  induction v using induct with
  | scalar s =>
    intro node hv rest t ht
    have hshp : node.shape = .scalar s := by
      rw [← shape_toValue] at hv
      cases hs : node.shape <;> rw [hs] at hv <;> simp_all [Shape.toValue]
    exact walks_scalar hvec hshp rest t ht
  | array values ih =>
    intro node hv rest t ht
    obtain ⟨children,hshp,rfl⟩ : ∃ children, node.shape = .array children ∧
        children.map Node.toValue = values := by
      rw [← shape_toValue] at hv
      cases hs : node.shape <;> rw [hs] at hv <;> simp_all [Shape.toValue]
    rw [← hv]
    exact walks_array hshp ih rest t ht
  | object entries ih =>
    intro node hv rest t ht
    obtain ⟨children,hshp,rfl⟩ : ∃ children, node.shape = .object children ∧
        (children.map fun e => (e.1,e.2.toValue))=entries := by
      rw [← shape_toValue] at hv
      cases hs : node.shape <;> rw [hs] at hv <;> simp_all [Shape.toValue]
    rw [← hv]
    exact walks_object hvec hshp (fun e he => ih _ (mem_map_of_mem he)) rest t ht

end

/-- The trees that the bounds admit. -/
structure Admits (lim : Bounds) (toVec : Text → List Octet) (v : Value) : Prop where
  keys : v.distinctKeys=true
  nodes : v.nodes≤lim.limits.maxNodes
  depth : v.depth≤lim.limits.maxDepth
  workspace : v.depth*lim.frameBytes ≤ lim.limits.maxWorkspaceBytes
  slots : v.depth≤lim.slots
  bytes : (writeCanonicalValue toVec v).length ≤ lim.limits.maxBytes

/-- The true usage of a tree. -/
def usageOf (lim : Bounds) (toVec : Text → List Octet) (v : Value) : Usage :=
  ⟨v.nodes,v.depth,(writeCanonicalValue toVec v).length,v.depth*lim.frameBytes⟩

theorem walk_exact (hvec : CompactStrings toVec) (lim : Bounds) (root : Node) :
    ∃ n, ∀ fuel≥n, (Admits lim toVec root.toValue → walk lim fuel root =
        some (.ok (usageOf lim toVec root.toValue,writeCanonicalValue toVec root.toValue)))
      ∧ (¬Admits lim toVec root.toValue → ∃ e, walk lim fuel root = some (.error e)) := by
  let empty : Totals := ⟨0,0,[]⟩
  have hemp : empty.Fits lim :=
    ⟨Nat.zero_le _,Nat.zero_le _,(Nat.zero_mul _).trans_le (Nat.zero_le _),Nat.zero_le _,Nat.zero_le _⟩
  have htot : empty.tree toVec 0 root.toValue =
      ⟨root.toValue.nodes,root.toValue.depth,writeCanonicalValue toVec root.toValue⟩ := by
    simp [empty,Totals.tree]
  have hadm : Admits lim toVec root.toValue ↔ root.toValue.distinctKeys=true ∧
      (empty.tree toVec 0 root.toValue).Fits lim := by
    rw [htot]
    exact ⟨fun h => ⟨h.keys,h.nodes,h.depth,h.workspace,h.slots,h.bytes⟩,
      fun h => ⟨h.1,h.2.nodes,h.2.depth,h.2.workspace,h.2.slots,h.2.bytes⟩⟩
  by_cases hfst : (empty.visit 1).Fits lim
  · have hpush : checkPush lim 1 0 = .ok (1*lim.frameBytes) := (checkPush_eq hemp).1 hfst
    have hwalk (fuel : ℕ) : walk lim fuel root =
        (walkLoop lim fuel (.ofTotals lim [Frame.new (normalized root)] (empty.visit 1))).map
          fun result => result.map fun s =>
            (⟨s.nodes,s.depth,s.output.bytes,s.workspaceBytes⟩,s.output.writer) := by
      rw [walk,hpush]
      rfl
    have hdec := (walks hvec root.toValue) root rfl [] empty hfst
    change Decides lim (.ofTotals lim [Frame.new (normalized root)] (empty.visit 1))
      (_ ∧ (empty.tree toVec 0 root.toValue).Fits lim)
      (.ofTotals lim [] (empty.tree toVec 0 root.toValue)) at hdec
    rw [← hadm] at hdec
    by_cases hyes : Admits lim toVec root.toValue
    · obtain ⟨k,hk⟩ := hdec.1 hyes
      refine ⟨k+1,fun fuel hfuel => ⟨fun _ => ?_,fun hno => absurd hyes hno⟩⟩
      obtain ⟨more,rfl⟩ := Nat.exists_eq_add_of_le hfuel
      rw [hwalk,Nat.add_assoc,hk,Nat.add_comm 1]
      rw [htot]
      rfl
    · obtain ⟨k,e,hk⟩ := hdec.2 hyes
      refine ⟨k,fun fuel hfuel => ⟨fun h => absurd h hyes,fun _ => ⟨e,?_⟩⟩⟩
      obtain ⟨more,rfl⟩ := Nat.exists_eq_add_of_le hfuel
      rw [hwalk,hk]
      rfl
  · obtain ⟨e,he⟩ := (checkPush_eq hemp).2 hfst
    have hpush : checkPush lim 1 0 = .error e := he
    refine ⟨0,fun fuel _ => ⟨fun h => absurd ?_ hfst,fun _ => ⟨e,by rw [walk,hpush]⟩⟩⟩
    exact (hadm.mp h).2.below (Totals.visit_below_tree empty 0 root.toValue)

/-- An object whose keys stand in reverse, one member holding a newline and the other an array, under
limits that it meets exactly. -/
theorem walk_exact_at :
    let root : Node := .json (.object [(octets "b",.array [.scalar .null]),
      (octets "a",.scalar (.string [10]))])
    ∃ n, ∀ fuel≥n, walk ⟨⟨4,3,21,120⟩,3,40⟩ fuel root =
      some (.ok (⟨4,3,21,120⟩,octets "\x7b\"a\":\"\\n\",\"b\":[null]\x7d")) := by
  intro root
  let toVec : Text → List Octet :=
    fun text => octets "\"" ++ text.flatMap Output.escaped++octets "\""
  have hwri : writeCanonicalValue toVec root.toValue =
      octets "\x7b\"a\":\"\\n\",\"b\":[null]\x7d" := by decide +kernel
  have hvec : CompactStrings toVec := fun _ => rfl
  obtain ⟨n,hn⟩ := walk_exact hvec ⟨⟨4,3,21,120⟩,3,40⟩ root
  refine ⟨n,fun fuel hfuel => ?_⟩
  have hadm : Admits ⟨⟨4,3,21,120⟩,3,40⟩ toVec root.toValue :=
    ⟨by decide,by decide,by decide,by decide,by decide,by rw [hwri]; decide⟩
  rw [(hn fuel hfuel).1 hadm,hwri]
  rfl

end Pllm.Canonical
