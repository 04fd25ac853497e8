import Pllm.Fusefss.PredicatesRuns

/-! What the dealer issues for an admitted descriptor, and the whole protocol on a shared word. -/
namespace Pllm.Fusefss.Predicates
open Pllm.Lib List BitVec
open Prod (fst snd)
open Pllm.Fss.CompactDcf (RingComparison bitWord)
open Pllm.Fss.SharedRescale (Context)

/-- The comparisons among items fit a word. -/
def ItemFits (bits : ℕ) : Item → Prop
  | .query k shift threshold => Fits bits ⟨k,shift,threshold⟩
  | _ => True

lemma itemFits_itemsLt (mask : ℕ) {bits k shift threshold : ℕ} (hk : 0<k) (hle : k≤bits)
    (hs : shift<2^k) : ∀ item ∈ itemsLt mask k shift threshold, ItemFits bits item := by
  have hpos := Nat.two_pow_pos k
  intro item hitem
  rw [itemsLt] at hitem
  by_cases h : threshold=0 ∨ threshold=2^k
  · rw [if_pos h] at hitem
    obtain rfl := mem_singleton.mp hitem
    trivial
  · simp only [if_neg h,mem_cons,not_mem_nil,or_false] at hitem
    rcases hitem with rfl | rfl | rfl | rfl | rfl
    · exact ⟨hk,hle,hs,Nat.mod_lt _ hpos⟩
    · exact ⟨hk,hle,hs,Nat.mod_lt _ hpos⟩
    · trivial
    · trivial
    · trivial

variable {bits : ℕ}

lemma itemFits_append {a b : List Item} (ha : ∀ item∈a, ItemFits bits item)
    (hb : ∀ item∈b, ItemFits bits item) : ∀ item ∈ a++b, ItemFits bits item := fun _ hitem =>
  (mem_append.mp hitem).elim (ha _) (hb _)

lemma itemFits_one {i : Item} (h : ItemFits bits i) : ∀ item ∈ [i], ItemFits bits item :=
  fun _ hitem => (mem_singleton.mp hitem) ▸ h

lemma itemFits_items (hbits : 0<bits) (mask : ℕ) (t : Tree) (h : t.Admitted bits) :
    ∀ item ∈ t.items bits mask, ItemFits bits item := by
  induction t with
  | const v => exact itemFits_one trivial
  | lt t => exact itemFits_itemsLt mask hbits le_rfl (Nat.two_pow_pos bits)
  | lowLt k t => exact itemFits_itemsLt mask h.1 h.2.1 (Nat.two_pow_pos k)
  | signedLt t =>
    exact itemFits_itemsLt mask hbits le_rfl (Nat.pow_lt_pow_right (by decide) (by omega))
  | msb c => exact itemFits_append (itemFits_itemsLt mask hbits le_rfl h) (itemFits_one trivial)
  | not a ih => exact itemFits_append (ih h) (itemFits_one trivial)
  | xor a b iha ihb | and a b iha ihb | or a b iha ihb =>
    exact itemFits_append (itemFits_append (iha h.1) (ihb h.2)) (itemFits_one trivial)

variable {d : Descriptor} {tree : ℕ → ℕ → Tree}

lemma itemFits_program {arity : ℕ} (htree : TreesOf d arity tree) (hbits : 0<d.bits) (mask : ℕ) :
    ∀ item ∈ programItems d tree mask (range arity), ItemFits d.bits item := by
  intro item hitem
  obtain ⟨o,ho,hitem⟩ := mem_flatMap.mp hitem
  obtain ⟨i,hi,hitem⟩ := mem_flatMap.mp hitem
  have hadm := (htree i (mem_range.mp hi) o (mem_range.mp ho)).2
  have hlt : ∀ threshold, ∀ item ∈ itemsLt mask d.bits 0 threshold, ItemFits d.bits item :=
    fun _ => itemFits_itemsLt mask hbits le_rfl (Nat.two_pow_pos d.bits)
  refine itemFits_append (hlt _) (itemFits_append (hlt _) (itemFits_append
    (@itemFits_one d.bits .xor trivial) (itemFits_append (itemFits_items hbits mask _ hadm)
      (itemFits_append (@itemFits_one d.bits .and trivial) ?_)))) item hitem
  by_cases h : i≠0
  · rw [if_pos h]
    exact itemFits_one trivial
  · rw [if_neg h]
    exact fun _ hnil => absurd hnil not_mem_nil

lemma fits_queriesOf {items : List Item} (h : ∀ item∈items, ItemFits bits item) :
    ∀ q ∈ queriesOf items, Fits bits q := by
  intro q hq
  obtain ⟨item,hitem,hq⟩ := mem_flatMap.mp hq
  cases item with
  | query k shift threshold => exact (mem_singleton.mp hq) ▸ h _ hitem
  | bit | not | xor | and | or => cases hq

/-- The argument of an instruction is a bit, the number of a comparison, or zero. -/
structure WellFormed (n : ℕ) (ins : Instruction) : Prop where
  bit : ins.opcode = .bit → ins.argument≤1
  query : ins.opcode = .query → ins.argument<n
  other : ins.opcode ≠ .bit → ins.opcode ≠ .query → ins.argument=0

lemma wellFormed_code (k : ℕ) (items : List Item) :
    ∀ ins ∈ code k items, WellFormed (k+(queriesOf items).length) ins := by
  induction items generalizing k with
  | nil => exact fun _ hnil => absurd hnil not_mem_nil
  | cons item items ih =>
    intro ins hins
    have hcnt : k+(queriesOf (item::items)).length
        = k+item.queries.length+(queriesOf items).length := by
      rw [queriesOf,flatMap_cons,length_append,←add_assoc,queriesOf]
    rw [hcnt]
    rcases mem_cons.mp hins with rfl | hins
    · cases item with
      | query bits shift threshold =>
        refine ⟨fun other => (by cases other),fun _ => ?_,fun _ hne => absurd rfl hne⟩
        simp only [Item.instruction,Item.queries,length_singleton]
        omega
      | bit v =>
        refine ⟨fun _ => ?_,fun other => (by cases other),fun hne => absurd rfl hne⟩
        cases v with
        | false => exact Nat.zero_le _
        | true => exact le_rfl
      | not | xor | and | or => 
        exact ⟨fun other => (by cases other),fun other => (by cases other),fun _ _ => rfl⟩
    · exact ih _ ins hins

lemma gates_code (k : ℕ) (items : List Item) : gates (code k items) = (items.map Item.ands).sum := by
  induction items generalizing k with
  | nil => rfl
  | cons item items ih =>
    rw [code,gates_cons,ih,map_cons,add_comm]
    congr 1
    cases item <;> rfl

/-- A list cut into parts of these lengths. -/
def parts {α : Type} : List ℕ → List α → List (List α)
  | [], _ => []
  | n::lengths, l => l.take n::parts lengths (l.drop n)

section
variable {α : Type}

section
variable (lengths : List ℕ) (l : List α)

lemma parts_flatten (h : lengths.sum=l.length) : (parts lengths l).flatten = l := by
  induction lengths generalizing l with
  | nil => exact (length_eq_zero_iff.mp h.symm).symm
  | cons n lengths ih =>
    rw [sum_cons] at h
    rw [parts,flatten_cons,ih _ (by rw [length_drop]; omega),take_append_drop]

lemma map_length_parts (h : lengths.sum=l.length) : (parts lengths l).map length = lengths := by
  induction lengths generalizing l with
  | nil => rfl
  | cons n lengths ih =>
    rw [sum_cons] at h
    rw [parts,map_cons,ih _ (by rw [length_drop]; omega),length_take]
    congr 1
    omega

lemma getD_parts (o : ℕ) (ho : o<lengths.length) :
    (parts lengths l).getD o [] = (l.drop (lengths.take o).sum).take (lengths.getD o 0) := by
  induction lengths generalizing l o with
  | nil => exact absurd ho (Nat.not_lt_zero o)
  | cons n lengths ih =>
    cases o with
    | zero => rfl
    | succ o =>
      rw [parts,getD_cons_succ,ih _ o (by simpa using ho),drop_drop,take_succ_cons,
        sum_cons,getD_cons_succ]

lemma length_parts : (parts lengths l).length = lengths.length := by
  induction lengths generalizing l with
  | nil => rfl
  | cons n lengths ih => rw [parts,length_cons,ih,length_cons]

end

end

/-- What the protocol uses of a compiled plan. -/
structure PlanOf (d : Descriptor) (plan : DealerPlan) : Prop where
  shape : plan.shape=d.shape
  queries : plan.queries.length=d.shape.queries
  instructions : plan.instructions.length=d.shape.vmOps
  fits : ∀ q∈plan.queries, Fits d.bits q
  wellFormed : ∀ ins∈plan.instructions, WellFormed d.shape.queries ins
  count : d.shape.queries ≤ maxQueries
  gates : gates plan.instructions = d.shape.booleanAnds
  lengths : d.shape.programLengths.sum = plan.instructions.length
  outputs : d.shape.programLengths.length = d.shape.booleanOutputs

lemma planOf_admitted {bits arity mask : ℕ} {sources : List (List Value × List Value)}
    (h : AdmittedAs bits arity sources d)
    (htree : TreesOf d arity tree) : PlanOf d (planOf d tree arity mask) := by
  obtain ⟨hfits,size,hshp⟩ := h.shape_eq htree
  have hkin := kinds_programItems d tree mask 0 (range arity)
  have hqs := queries_eq_of_kinds hkin
  have hlen := length_eq_of_kinds hkin
  have hands : ((programItems d tree mask (range arity)).map Item.ands).sum
      = ((programItems d tree 0 (range arity)).map Item.ands).sum :=
    sum_eq_of_kinds (g := fun o => if isGate o then 1 else 0) (fun i => by cases i <;> rfl) hkin
  have hbits : 0<d.bits := h.word ▸ h.pos
  refine ⟨rfl,?_,?_,fits_queriesOf (itemFits_program htree hbits mask),fun ins hins => ?_,?_,?_,?_,?_⟩
  · rw [hshp]
    exact hqs
  · rw [hshp]
    exact (length_code ..).trans hlen
  · have hins' := wellFormed_code 0 _ ins hins
    rw [zero_add,hqs] at hins'
    rw [hshp]
    exact hins'
  · rw [hshp]
    have hcnt := hfits.queries
    exact (zero_add _).symm.le.trans hcnt
  · rw [hshp]
    exact (gates_code ..).trans hands
  · rw [hshp]
    change ((range arity).map _).sum=(code 0 _).length
    rw [length_code,hlen,length_programItems]
  · rw [hshp]
    simp only [length_map,length_range]

section
variable {α β : Type} {R : α → β → β → Prop} {xs : List α}

lemma exists_mapM {α β : Type} {ε : Type} {f : α → Except ε β} {P : α → β → Prop} {xs : List α}
    (h : ∀ x∈xs, ∃ y, f x = .ok y ∧ P x y) : ∃ ys, xs.mapM f = .ok ys ∧ Forall₂ P xs ys := by
  induction xs with
  | nil => exact ⟨[],rfl,.nil⟩
  | cons x xs ih =>
    obtain ⟨y,hy,hp⟩ := h x (mem_cons_self ..)
    obtain ⟨ys,hys,hps⟩ := ih fun x hx => h x (mem_cons_of_mem _ hx)
    exact ⟨y::ys,by rw [mapM_cons,hy,ok_bind,hys,ok_bind,pure_eq_ok],.cons hp hps⟩

lemma Pairs.of_forall₂ {γ : Type} {P : γ → β × β → Prop} {g : γ → α} {xs : List γ}
    {ys : List (β × β)} (h : Forall₂ P xs ys) (hR : ∀ x y, P x y → R (g x) y.1 y.2) :
    Pairs R (xs.map g) (ys.map fst) (ys.map snd) := by
  induction h with
  | nil => exact .nil
  | cons hp _ ih => exact .cons (hR _ _ hp) ih

lemma Pairs.getElem? {ys zs : List β} (h : Pairs R xs ys zs) {k : ℕ} (hk : k<xs.length) :
    ∃ x y z, xs[k]? = some x ∧ ys[k]? = some y ∧ zs[k]? = some z ∧ R x y z := by
  induction h generalizing k with
  | nil => exact absurd hk (Nat.not_lt_zero k)
  | cons hr _ ih =>
    cases k with
    | zero => exact ⟨_,_,_,rfl,rfl,rfl,hr⟩
    | succ k => exact ih (by simpa using hk)

lemma Pairs.length_eq {ys zs : List β} (h : Pairs R xs ys zs) :
    ys.length=xs.length ∧ zs.length=xs.length := by
  induction h with
  | nil => exact ⟨rfl,rfl⟩
  | cons _ _ ih => exact ⟨congrArg (·+1) ih.1,congrArg (·+1) ih.2⟩

lemma issueCode_shares {n : ℕ} (hn : n ≤ maxQueries) {ins : Instruction} (h : WellFormed n ins)
    (drawn : BitVec 64) : WordShares n ins (issueCode ins drawn).1 (issueCode ins drawn).2 := by
  obtain ⟨opcode,argument⟩ := ins
  cases opcode with
  | bit =>
    obtain ⟨s,hs⟩ := exists_bitWord drawn
    have hle := h.bit rfl
    have harg : BitVec.ofNat 64 argument=bitWord (decide (argument≠0)) := by
      interval_cases argument <;> rfl
    refine .bit ⟨s,hs,?_⟩
    change (drawn &&& 1) ^^^ BitVec.ofNat 64 argument=_
    rw [hs,harg,bitWord_xor]
  | query =>
    have hlt : argument<n := h.query rfl
    refine .query _ ?_ hlt
    have hmax : maxQueries=32768 := rfl
    change (BitVec.ofNat 64 argument).toNat=argument
    rw [toNat_ofNat,Nat.mod_eq_of_lt (by omega)]
  | not =>
    obtain rfl : argument=0 := h.other nofun nofun
    exact .not
  | xor =>
    obtain rfl : argument=0 := h.other nofun nofun
    exact .xor
  | and =>
    obtain rfl : argument=0 := h.other nofun nofun
    exact .and
  | or =>
    obtain rfl : argument=0 := h.other nofun nofun
    exact .or

end

/-- The two materials of one issuance. -/
structure IssuedMaterial (env : Platform) (d : Descriptor) (plan : DealerPlan) (mask : BitVec 64)
    (a b : Material) : Prop where
  masks : (a.mask+b.mask) &&& lowMask d.bits = mask
  bounded : a.mask ≤ lowMask d.bits ∧ b.mask ≤ lowMask d.bits
  queries : Pairs (QueryPair env) plan.queries a.queries b.queries
  code : CodeShares d.shape.queries plan.instructions a.code b.code
  triples : Pairs (fun _ t u => ∃ x y, t = some x ∧ u = some y ∧ TriplePair x y)
    (plan.instructions.filter fun ins => isGate ins.opcode) a.triples b.triples

lemma and_lowMask_le (x : BitVec 64) {n : ℕ} (hn : n≤64) : x &&& lowMask n ≤ lowMask n := by
  rw [le_def,toNat_and_lowMask x hn,lowMask,toNat_ofNat]
  have hle : 2^n≤2^64 := Nat.pow_le_pow_right (by decide) hn
  omega

lemma issueMaterial_issued (env : Platform) {plan : DealerPlan} (h : PlanOf d plan)
    (hbits : d.bits≤50) (r : Random) : ∃ a b, issueMaterial env d.bits d.shape plan r = .ok (a,b)
      ∧ IssuedMaterial env d plan (r.mask &&& lowMask d.bits) a b := by
  obtain ⟨queries,hqs,hpai⟩ := @exists_mapM _ _ _ (fun (p : PredicateQuery × ℕ) =>
    issueQuery env p.1 (r.roots p.2)) (fun p y => QueryPair env p.1 y.1 y.2) plan.queries.zipIdx
    fun p hp => by
      obtain ⟨a,b,hab,hpair⟩ := issueQuery_pair env
        (h.fits _ (fst_mem_of_mem_zipIdx hp)) hbits (r.roots p.2)
      exact ⟨(a,b),hab,hpair⟩
  obtain ⟨triples,htri,htpa⟩ := @exists_mapM _ _ _ (fun (p : Instruction × ℕ) =>
    (TripleShare.issue 1 (r.triple p.2)).mapError primitiveError) (fun _ y => TriplePair y.1 y.2)
    (plan.instructions.filter fun ins => isGate ins.opcode).zipIdx fun p _ => by
      obtain ⟨t,u,htu,hpair⟩ := issue_one (r.triple p.2)
      exact ⟨(t,u),by rw [htu]; rfl,hpair⟩
  have hcnt : triples.length=d.shape.booleanAnds := by
    rw [←htpa.length_eq,length_zipIdx,←h.gates,gates,countP_eq_length_filter]
  have hmask : ((r.maskShare &&& lowMask d.bits)+((r.mask &&& lowMask d.bits)
      -(r.maskShare &&& lowMask d.bits) &&& lowMask d.bits)) &&& lowMask d.bits
        = r.mask &&& lowMask d.bits := by
    apply eq_of_toNat_eq
    have hn : d.bits≤64 := by omega
    have hring : ((r.maskShare &&& lowMask d.bits)+((r.mask &&& lowMask d.bits)
        -(r.maskShare &&& lowMask d.bits) &&& lowMask d.bits)).setWidth d.bits
          = r.mask.setWidth d.bits := by
      rw [setWidth_add _ _ hn,setWidth_and_lowMask _ hn,setWidth_and_lowMask _ hn,
        Fss.CompactDcf.setWidth_sub _ _ hn,setWidth_and_lowMask _ hn,setWidth_and_lowMask _ hn]
      exact add_sub_cancel _ _
    have hnat := congrArg BitVec.toNat hring
    rw [toNat_setWidth,toNat_setWidth] at hnat
    rw [toNat_and_lowMask _ hn,hnat,toNat_and_lowMask _ hn]
  refine ⟨⟨r.maskShare &&& lowMask d.bits,queries.map fst,(plan.instructions.zipIdx.map
      fun p => issueCode p.1 (r.bit p.2)).map fst,triples.map fun t => some t.1⟩,
    ⟨((r.mask &&& lowMask d.bits)-(r.maskShare &&& lowMask d.bits)) &&& lowMask d.bits,
      queries.map snd,(plan.instructions.zipIdx.map
        fun p => issueCode p.1 (r.bit p.2)).map snd,triples.map fun t => some t.2⟩,
    ?_,hmask,⟨and_lowMask_le _ (by omega),and_lowMask_le _ (by omega)⟩,?_,?_,?_⟩
  · unfold issueMaterial
    simp only [hqs,htri,ok_bind,hcnt,ne_eq,not_true_eq_false,if_false,pure_eq_ok]
  · have hall := Pairs.of_forall₂ (g := fst) (R := QueryPair env) hpai fun _ _ hp => hp
    rwa [zipIdx_map_fst] at hall
  · have hcode : Forall₂ (fun (p : Instruction × ℕ) c => WordShares d.shape.queries p.1 c.1 c.2)
        plan.instructions.zipIdx
        (plan.instructions.zipIdx.map fun p => issueCode p.1 (r.bit p.2)) := by
      rw [forall₂_map_right_iff,forall₂_same]
      exact fun p hp => issueCode_shares h.count (h.wellFormed _ (fst_mem_of_mem_zipIdx hp)) _
    have hall := Pairs.of_forall₂ (g := fst) (R := WordShares d.shape.queries) hcode
      fun _ _ hp => hp
    rwa [zipIdx_map_fst] at hall
  · have hsome : Forall₂ (fun (_ : Instruction × ℕ) (y : Option TripleShare × Option TripleShare) =>
        ∃ t u, y.1 = some t ∧ y.2 = some u ∧ TriplePair t u)
        (plan.instructions.filter fun ins => isGate ins.opcode).zipIdx
        (triples.map fun t => (some t.1,some t.2)) := by
      rw [forall₂_map_right_iff]
      exact htpa.imp fun _ _ hp => ⟨_,_,rfl,rfl,hp⟩
    have hall := Pairs.of_forall₂ (g := fst) (R := fun (_ : Instruction) t u => ∃ x y, t=some
      x ∧ u = some y ∧ TriplePair x y) hsome fun _ _ hp => hp
    rw [zipIdx_map_fst,map_map,map_map] at hall
    exact hall

end Pllm.Fusefss.Predicates
