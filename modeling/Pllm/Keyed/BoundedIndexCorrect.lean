import Pllm.Keyed.Heapsort

/-! The index is in order, its searches find exactly the entries of a key, and its counters stay
within what was quoted. -/
namespace Pllm.Keyed
open Pllm.Lib LawfulKey List Except Quote Key Matches

section
variable {α : Type} [Inhabited α] {probe : α → Usage → Ordering × Usage} {ord : α → Ordering}
  {cost start fin : ℕ} {items : Array α}

/-- Probes that follow `ord`, each one comparison of at most `cost` units. -/
structure Probes (probe : α → Usage → Ordering × Usage) (ord : α → Ordering) (cost : ℕ)
    (items : Array α) (start fin : ℕ) : Prop where
  order : ∀ a usage, ((probe a usage).1 = .lt ↔ ord a = .lt)
  comparisons : ∀ a usage, (probe a usage).2.comparisons = usage.comparisons+1
  work : ∀ i usage, start ≤ i → i<fin → (probe items[i]! usage).2.work ≤ usage.work+cost

/-- A search ends between the items below the query and the others. -/
structure Found (ord : α → Ordering) (cost : ℕ) (items : Array α) (start fin budget : ℕ)
    (before : Usage) (result : ℕ × Usage) : Prop where
  low : start ≤ result.1
  high : result.1≤fin
  below : ∀ i, start ≤ i → i < result.1 → ord items[i]! = .lt
  above : ∀ i, result.1 ≤ i → i<fin → ord items[i]! ≠ .lt
  comparisons : result.2.comparisons ≤ before.comparisons+budget
  work : result.2.work≤before.work+budget*cost

lemma lowerBound_spec (fuel turns lo hi : ℕ) (usage : Usage) (hlo : start≤lo) (hhi : hi≤fin) (hle
    : lo≤hi) (hfuel : hi-lo≤fuel) (htur : hi-lo<2^turns) (hpro : Probes probe ord cost items
    start fin) (hmono : ∀ i j, start ≤ i → i≤j → j<fin → ord items[j]! = .lt → ord items[i]! = .lt)
    (hblw : ∀ i, start ≤ i → i<lo → ord items[i]! = .lt) (habo : ∀ i, hi ≤ i → i<fin → ord items[i]!
    ≠ .lt) : Found ord cost items start fin turns usage (lowerBound probe items fuel lo hi usage) :=
    by
  induction fuel generalizing turns lo hi usage with
  | zero =>
    obtain rfl : lo=hi := by omega
    exact ⟨hlo,hhi,hblw,habo,le_self_add,le_self_add⟩
  | succ fuel ih =>
    by_cases hlt : lo<hi
    · set mid := lo+(hi-lo)/2 with hmid
      have horder := hpro.order items[mid]! usage
      have hcmp := hpro.comparisons items[mid]! usage
      have hwork := hpro.work mid usage (by omega) (by omega)
      cases turns with
      | zero => omega
      | succ turns =>
        have hstep : lowerBound probe items (fuel+1) lo hi usage =
            if (probe items[mid]! usage).1 = .lt then
              lowerBound probe items fuel (mid+1) hi (probe items[mid]! usage).2
            else lowerBound probe items fuel lo mid (probe items[mid]! usage).2 := by
          rw [lowerBound,if_pos hlt]
        have hrest : ∀ result, Found ord cost items start fin turns (probe items[mid]! usage).2
            result → Found ord cost items start fin (turns+1) usage result := by
          intro result h
          have h₁ := h.comparisons
          have h₂ := h.work
          refine ⟨h.low,h.high,h.below,h.above,by omega,?_⟩
          rw [Nat.succ_mul]
          omega
        rw [hstep]
        split_ifs with hord
        · refine hrest _ (ih turns (mid+1) hi _ (by omega) hhi (by omega) (by omega) (by omega) ?_
            habo)
          intro i hi' him
          exact hmono i mid hi' (by omega) (by omega) (horder.mp hord)
        · refine hrest _ (ih turns lo mid _ hlo (by omega) (by omega) (by omega) (by omega) hblw ?_)
          intro i hmi hifin hlow
          exact hord (horder.mpr (hmono mid i (by omega) hmi hifin hlow))
    · obtain rfl : lo=hi := by omega
      rw [lowerBound,if_neg (lt_irrefl _)]
      exact ⟨hlo,hhi,hblw,habo,le_self_add,le_self_add⟩

lemma lowerBoundBy_spec (usage : Usage) (hle : start≤fin) (hpro : Probes probe ord cost items
    start fin) (hmono : ∀ i j, start ≤ i → i≤j → j<fin → ord items[j]! = .lt → ord items[i]! = .lt) :
    Found ord cost items start fin (searchComparisonBound (fin-start)) usage
      (lowerBoundBy probe items start fin usage) :=
  lowerBound_spec (fin-start) _ start fin usage le_rfl le_rfl hle le_rfl (Nat.lt_size_self _) hpro
    hmono (fun i h h' => by omega) fun i h h' => by omega

end

section
variable {K V : Type} [Key K] [LawfulKey K] {limit : ℕ}

lemma foldlM_push {entries : List (Entry K V)} {stats last : KeyStats}
    (h : entries.foldlM (fun stats entry => stats.push entry.key limit) stats = .ok last) :
    last.count=stats.count+entries.length ∧ stats.keyWork≤last.keyWork ∧
      ∀ entry∈entries, bound entry.key ≤ last.keyWork := by
  induction entries generalizing stats with
  | nil =>
    obtain rfl : stats=last := ok.inj h
    exact ⟨rfl,le_rfl,nofun⟩
  | cons entry entries ih =>
    obtain ⟨next,hpush,h⟩ := bind_eq_ok.mp h
    obtain ⟨hcnt,hle,hall⟩ := ih h
    obtain ⟨_,-,hpush⟩ := bind_eq_ok.mp hpush
    obtain ⟨⟨keyWork,_⟩,hquot,hpush⟩ := bind_eq_ok.mp hpush
    have hbd := quote_work _ _ _ _ _ hquot
    simp only at hpush
    split at hpush
    · obtain rfl := ok.inj hpush
      simp only at hcnt hle
      rw [length_cons]
      refine ⟨by omega,(le_max_left _ _).trans hle,forall_mem_cons.mpr ⟨?_,hall⟩⟩
      exact hbd ▸ (le_max_right _ _).trans hle
    · cases hpush

/-- The comparisons that the sort of `n` items is quoted. -/
def sortComparisons (n : ℕ) : ℕ := if n<2 then 0 else 2*(n/2+(n-1))*searchComparisonBound n

lemma sortComparisonBound_eq_ok {n c : ℕ} (h : sortComparisonBound n = .ok c) :
    c = sortComparisons n := by
  unfold sortComparisonBound at h
  unfold sortComparisons
  split at h
  · rename_i hn
    rw [if_pos hn]
    exact (ok.inj h).symm
  · rename_i hn
    obtain ⟨_,hsif,h⟩ := bind_eq_ok.mp h
    obtain ⟨_,htwi,h⟩ := bind_eq_ok.mp h
    obtain ⟨-,rfl⟩ := checkedAdd_eq_ok.mp hsif
    obtain ⟨-,rfl⟩ := checkedMul_eq_ok.mp htwi
    obtain ⟨-,rfl⟩ := checkedMul_eq_ok.mp h
    rw [if_neg hn]

/-- What a quote says about its entries. -/
structure Quoted (entries : Array (Entry K V)) (resources : Resources) (keyWork : ℕ) : Prop where
  bound : ∀ entry∈entries, LawfulKey.bound entry.key ≤ keyWork
  comparisons : resources.constructionComparisons = sortComparisons entries.size
  work : resources.constructionWork =
    entries.size+(resources.constructionComparisons*(keyWork+4)+(entries.size-1))
  lookupComparisons : resources.lookupComparisons = 2*searchComparisonBound entries.size
  lookupWork : resources.lookupWork = resources.lookupComparisons*(keyWork+1)
  layout : layoutBytes entries.size = .ok resources.heapBytes

lemma Quote.checked_quoted {slotBytes : ℕ} {entries : Array (Entry K V)} {quote : Quote K V}
    (h : checked slotBytes entries limit = .ok quote) :
    quote.entries=entries ∧ ∃ keyWork, Quoted entries quote.resources keyWork := by
  obtain ⟨_,-,h⟩ := bind_eq_ok.mp h
  obtain ⟨stats,hsta,h⟩ := bind_eq_ok.mp h
  obtain ⟨resources,hrsr,h⟩ := bind_eq_ok.mp h
  obtain rfl := ok.inj h
  obtain ⟨hcnt,-,hbd⟩ := foldlM_push hsta
  simp only [zero_add,Array.length_toList] at hcnt
  simp only [KeyStats.resources,bind_eq_ok,checkedAdd_eq_ok,checkedMul_eq_ok] at hrsr
  obtain ⟨_,hheap,comparisons,hcmp,_,⟨-,rfl⟩,_,⟨-,rfl⟩,_,⟨-,rfl⟩,_,⟨-,rfl⟩,_,⟨-,rfl⟩,_,
    ⟨-,rfl⟩,_,⟨-,rfl⟩,hrsr⟩ := hrsr
  split at hrsr
  · obtain rfl := ok.inj hrsr
    rw [hcnt] at hcmp hheap
    refine ⟨rfl,stats.keyWork,fun entry hent => hbd entry (Array.mem_toList_iff.mpr hent),
      sortComparisonBound_eq_ok hcmp,?_,?_,rfl,hheap⟩
    · simp only [hcnt]
    · simp only [hcnt]
  · cases hrsr

end

section
variable {K V : Type} [Key K] [LawfulKey K] [Inhabited K] [Inhabited V]

/-- Key, then position, then ordinal. -/
def ordinalOrder (entries : Array (Entry K V)) : ℕ → ℕ → Ordering :=
  compareLex (compareLex (fun a b => LawfulKey.order entries[a]!.key entries[b]!.key)
    fun a b => Ord.compare entries[a]!.position entries[b]!.position) Ord.compare

instance (entries : Array (Entry K V)) : Std.TransCmp (ordinalOrder entries) :=
  have := transCmp_comap (fun a : ℕ => entries[a]!.key) (LawfulKey.trans (K := K))
  have := transCmp_comap (fun a : ℕ => entries[a]!.position)
    (inferInstance : Std.TransCmp (Ord.compare : ℕ → ℕ → Ordering))
  inferInstanceAs (Std.TransCmp (compareLex _ _))

variable {entries : Array (Entry K V)}

lemma metered_compareOrdinals {keyWork : ℕ} (hbd : ∀ entry∈entries, bound entry.key ≤ keyWork) :
    Metered (compareOrdinals entries) (ordinalOrder entries) (· < entries.size) (keyWork+2) where
  order a b usage := thenWith_order (thenWith_order (compare_order _ _ _) fun _ => rfl) fun _ => rfl
  comparisons a b usage := thenWith_comparisons
    (thenWith_comparisons (compare_comparisons _ _ _) fun _ => rfl) fun _ => rfl
  work a b usage ha _ := by
    have hkey : (compare entries[a]!.key entries[b]!.key usage).2.work ≤ usage.work+keyWork := by
      refine (compare_work _ _ _).trans ?_
      have hle := hbd entries[a]! (by
        rw [getElem!_pos entries a ha]
        exact Array.getElem_mem ha)
      omega
    have htie := thenWith_work (g := fun usage => (Ord.compare entries[a]!.position
      entries[b]!.position,usage.step)) hkey fun usage => le_refl (usage.work+1)
    exact thenWith_work (a := keyWork+1) (b := 1) htie fun usage => le_refl (usage.work+1)

/-- An index whose order is the sorted one. -/
structure Ordered (index : Index K V) : Prop where
  perm : index.order.toList.Perm (List.range index.entries.size)
  sorted : index.order.toList.Pairwise fun a b => ordinalOrder index.entries a b = .lt

/-- Construction succeeds within the quoted work, and gives the order. -/
lemma Quote.construct_ok {slotBytes capacity maxWork : ℕ} {quote : Quote K V}
    (h : checked slotBytes entries limit = .ok quote) (hcap : quote.resources.workspaceBytes ≤
    capacity) (hwork : quote.resources.constructionWork ≤ maxWork) : ∃ index, quote.construct
    capacity maxWork = .ok index ∧ index.entries=entries ∧ index.resources=quote.resources ∧
    Ordered index ∧ index.usage.work ≤ quote.resources.constructionWork ∧
    index.usage.comparisons ≤ quote.resources.constructionComparisons := by
  obtain ⟨rfl,keyWork,hquo⟩ := checked_quoted h
  have hmem : ∀ a ∈ Array.range quote.entries.size, a<quote.entries.size := fun a ha => by
    simpa using ha
  have hsort := heapsort_spec (metered_compareOrdinals hquo.bound) ⟨quote.entries.size,0⟩ hmem
  set sorted := heapsort (compareOrdinals quote.entries) (Array.range quote.entries.size)
    ⟨quote.entries.size,0⟩ with hsrt
  obtain ⟨hperm,hpai,-,hcmp,hspt⟩ := hsort
  rw [Array.size_range] at hcmp hspt
  have hcon : quote.construct capacity maxWork =
      .ok ⟨quote.entries,sorted.1,quote.resources,sorted.2⟩ := by
    rw [construct,if_neg (by omega),if_neg (by omega),hquo.layout]
    rfl
  have hlist : sorted.1.toList.Perm (range quote.entries.size) := by
    have := hperm.toList
    rwa [Array.toList_range] at this
  have hbud : 2*((quote.entries.size/2+(quote.entries.size-1))*quote.entries.size.size) =
      sortComparisons quote.entries.size := by
    unfold sortComparisons searchComparisonBound
    split_ifs with hsma
    · have hzero : quote.entries.size/2+(quote.entries.size-1)=0 := by omega
      rw [hzero,Nat.zero_mul]
    · rw [Nat.mul_assoc]
  rw [hbud,← hquo.comparisons] at hcmp hspt
  refine ⟨_,hcon,rfl,rfl,⟨hlist,?_⟩,?_,?_⟩
  · -- Distinct ordinals are never equal in the order.
    refine (hpai.and (hlist.nodup_iff.mpr nodup_range)).imp ?_
    rintro a b ⟨hblw,hne⟩
    have hlt : ordinalOrder quote.entries a b ≠ .eq := by
      intro heq
      simp only [ordinalOrder,compareLex,Ordering.then_eq_eq] at heq
      exact hne (Std.LawfulEqCmp.eq_of_compare heq.2)
    unfold Below at hblw
    cases hord : ordinalOrder quote.entries a b
    · rfl
    · exact absurd hord hlt
    · rw [hord] at hblw
      cases hblw
  · rw [hquo.work]
    simp only at hspt ⊢
    have hcost : (keyWork+2+2)*quote.resources.constructionComparisons =
        quote.resources.constructionComparisons*(keyWork+4) := mul_comm _ _
    omega
  · simpa using hcmp

end

lemma filter_run {α : Type*} {xs : List α} {p : α → Bool} {start fin : ℕ} (hle : start≤fin)
    (h : ∀ i (hi : i<xs.length), p xs[i]=true ↔ start ≤ i ∧ i<fin) :
    xs.filter p = (xs.drop start).take (fin-start) := by
  induction xs generalizing start fin with
  | nil => simp
  | cons x xs ih =>
    have hhead := h 0 (Nat.succ_pos _)
    have htail : ∀ i (hi : i<xs.length), p xs[i]=true ↔ start ≤ i+1 ∧ i+1<fin :=
      fun i hi => h (i+1) (Nat.succ_lt_succ hi)
    rw [getElem_cons_zero] at hhead
    cases start with
    | zero =>
      cases fin with
      | zero =>
        rw [filter_cons_of_neg (by rw [hhead]; omega),@ih 0 0 le_rfl fun i hi => by
          rw [htail i hi]; omega]
        simp
      | succ fin =>
        rw [filter_cons_of_pos (hhead.mpr (by omega)),@ih 0 fin zero_le fun i hi => by
          rw [htail i hi]; omega]
        simp
    | succ start =>
      obtain ⟨fin,rfl⟩ : ∃ f, fin=f+1 := ⟨fin-1,by omega⟩
      rw [filter_cons_of_neg (by rw [hhead]; omega),@ih start fin (by omega) fun i hi => by
        rw [htail i hi]; omega]
      simp

variable {usage after : Usage} {i j : ℕ}

section
variable {K V : Type} [Key K] [LawfulKey K] [Inhabited K] [Inhabited V] {index : Index K V}
  {keyWork : ℕ}

lemma requireWork_eq_ok {work comparisons : ℕ} {u : Unit} :
    requireWork usage work comparisons limit = .ok u ↔ usage.work+work<2^128 ∧
      usage.comparisons+comparisons<2^128 ∧ usage.work+work≤limit := by
  simp only [requireWork,bind_eq_ok,checkedAdd_eq_ok,ite_error_eq_ok,pure_eq_ok,not_lt]
  constructor
  · rintro ⟨_,⟨hwork,rfl⟩,_,⟨hcmp,-⟩,hle,-⟩
    exact ⟨hwork,hcmp,hle⟩
  · rintro ⟨hwork,hcmp,hle⟩
    exact ⟨_,⟨hwork,rfl⟩,_,⟨hcmp,rfl⟩,hle,trivial⟩

lemma Ordered.lt_size (h : Ordered index) (hi : i < index.order.size) :
    index.order[i]! < index.entries.size := by
  have hmem : index.order[i]! ∈ index.order.toList := by
    rw [getElem!_pos index.order i hi]
    exact Array.mem_toList_iff.mpr (Array.getElem_mem hi)
  exact mem_range.mp (h.perm.mem_iff.mp hmem)

lemma Ordered.lt (h : Ordered index) (hij : i<j) (hj : j < index.order.size) :
    ordinalOrder index.entries index.order[i]! index.order[j]! = .lt := by
  have hpair := pairwise_iff_getElem.mp h.sorted i j (by rw [Array.length_toList]; omega)
    (by rwa [Array.length_toList]) hij
  rw [getElem!_pos index.order i (by omega),getElem!_pos index.order j hj]
  rwa [ Array.getElem_toList] at hpair

/-- The key at a place. -/
def keyAt (index : Index K V) (i : ℕ) : K := index.entries[index.order[i]!]!.key

lemma Ordered.key_le (h : Ordered index) (hij : i≤j) (hj : j < index.order.size) :
    (order (keyAt index i) (keyAt index j)).isLE := by
  have := lawfulEq (K := K)
  rcases eq_or_lt_of_le hij with rfl | hij
  · rw [@Std.ReflCmp.compare_self K order]
    rfl
  · have hlt := h.lt hij hj
    simp only [ordinalOrder,compareLex,Ordering.then_eq_lt] at hlt
    unfold keyAt
    rcases hlt with (hlt | ⟨heq,-⟩) | ⟨hkeys,-⟩
    · rw [hlt]
      rfl
    · rw [heq]
      rfl
    · rw [(Ordering.then_eq_eq.mp hkeys).1]
      rfl

/-- The range of the matches of a key. -/
structure Matched (index : Index K V) (key : K) (m : Matches K V) : Prop where
  ofIndex : m.index=index
  le : m.start ≤ m.fin
  high : m.fin ≤ index.order.size
  keys : ∀ i, m.start ≤ i → i < m.fin → LawfulKey.order (keyAt index i) key = .eq
  ordinals : m.ordinals =
    index.order.toList.filter fun i => LawfulKey.order index.entries[i]!.key key = .eq

section
variable {key : K} {limit : ℕ} {m : Matches K V}

lemma probes_key (horde : Ordered index)
    (hbd : ∀ entry∈index.entries, bound entry.key ≤ keyWork) (key : K) (start : ℕ) :
    Probes (fun i (usage : Usage) => compare index.entries[i]!.key key usage.compared) (fun i =>
      order index.entries[i]!.key key) (keyWork+1) index.order start index.order.size where
  order a usage := by rw [compare_order]
  comparisons a usage := compare_comparisons _ _ _
  work i usage _ hi := by
    have hmem := horde.lt_size hi
    have hle := hbd index.entries[index.order[i]!]! (by
      rw [getElem!_pos index.entries _ hmem]
      exact Array.getElem_mem hmem)
    have hwork := compare_work index.entries[index.order[i]!]!.key key usage.compared
    simp only [Usage.compared] at hwork ⊢
    omega

lemma matches_spec (horde : Ordered index) (hquo : Quoted index.entries index.resources keyWork)
    (h : index.matches key usage limit = .ok (m,after)) : Matched index key m ∧
    usage.work+index.resources.lookupWork≤limit ∧ after.work ≤ usage.work+index.resources.lookupWork
    ∧ after.comparisons ≤ usage.comparisons+index.resources.lookupComparisons := by
  have hlaw := trans (K := K)
  obtain ⟨_,hreq,h⟩ := bind_eq_ok.mp h
  have hlim := (requireWork_eq_ok.mp hreq).2.2
  have hpro := probes_key horde hquo.bound key
  have hsize : index.order.size=index.entries.size := by
    rw [← Array.length_toList,horde.perm.length_eq,length_range]
  have hfst := lowerBoundBy_spec usage zero_le (hpro 0) fun i j _ hij hj hlt =>
    Std.TransCmp.lt_of_isLE_of_lt (horde.key_le hij hj) hlt
  set first := lowerBoundBy (fun i (usage : Usage) =>
    compare index.entries[i]!.key key usage.compared) index.order 0 index.order.size usage
    with hfir
  have hupp : Probes (fun i (usage : Usage) =>
      ((if (compare index.entries[i]!.key key usage.compared).1 = .gt then .gt else .lt : Ordering),
        (compare index.entries[i]!.key key usage.compared).2))
      (fun i => if order index.entries[i]!.key key = .gt then .gt else .lt) (keyWork+1)
      index.order first.1 index.order.size :=
    ⟨fun a usage => by rw [compare_order],(hpro first.1).comparisons, (hpro first.1).work⟩
  have hsnd := lowerBoundBy_spec first.2 hfst.high hupp fun i j _ hij hj hlt => by
    -- An item above the query stays above it further on.
    rw [ite_eq_right_iff] at hlt ⊢
    intro hgt
    have hque := Std.OrientedCmp.gt_iff_lt.mp hgt
    exact hlt (Std.OrientedCmp.gt_iff_lt.mpr
      (Std.TransCmp.lt_of_lt_of_isLE hque (horde.key_le hij hj)))
  set second := lowerBoundBy (fun i (usage : Usage) =>
      ((if (compare index.entries[i]!.key key usage.compared).1 = .gt then .gt else .lt : Ordering),
        (compare index.entries[i]!.key key usage.compared).2)) index.order first.1
      index.order.size first.2 with hsec
  obtain ⟨rfl,rfl⟩ : (⟨index,first.1,second.1⟩ : Matches K V)=m ∧ second.2=after := by
    have hpair := ok.inj h
    exact ⟨congrArg Prod.fst hpair,congrArg Prod.snd hpair⟩
  have hkeys : ∀ i, first.1 ≤ i → i < second.1 → order (keyAt index i) key = .eq := by
    intro i hlow hhigh
    have hnotL := hfst.above i hlow (hhigh.trans_le hsnd.high)
    have hnotG := hsnd.below i hlow hhigh
    rw [ite_eq_right_iff] at hnotG
    cases hord : order (keyAt index i) key
    · exact absurd hord hnotL
    · rfl
    · exact absurd (hnotG hord) (by decide)
  refine ⟨⟨rfl,hsnd.low,hsnd.high,hkeys,?_⟩,hlim,?_,?_⟩
  · refine (filter_run hsnd.low fun i hi => ?_).symm
    have hget : index.order.toList[i]=index.order[i]! := by
      rw [getElem!_pos index.order i hi,Array.getElem_toList]
    rw [hget,decide_eq_true_eq]
    constructor
    · intro heq
      constructor
      · by_contra hlow
        have hlt := hfst.below i zero_le (not_le.mp hlow)
        rw [heq] at hlt
        cases hlt
      · by_contra hhigh
        have hgt := hsnd.above i (not_lt.mp hhigh) hi
        rw [heq] at hgt
        exact hgt rfl
    · exact fun hin => hkeys i hin.1 hin.2
  · have h₁ := hfst.work
    have h₂ := hsnd.work
    have hle : searchComparisonBound (index.order.size-first.1) ≤
        searchComparisonBound index.order.size := Nat.size_le_size (Nat.sub_le _ _)
    have hmul := Nat.mul_le_mul_right (keyWork+1) hle
    rw [hquo.lookupWork,hquo.lookupComparisons,mul_assoc,← hsize]
    rw [tsub_zero] at h₁
    omega
  · have h₁ := hfst.comparisons
    have h₂ := hsnd.comparisons
    have hle : searchComparisonBound (index.order.size-first.1) ≤
        searchComparisonBound index.order.size := Nat.size_le_size (Nat.sub_le _ _)
    rw [hquo.lookupComparisons,← hsize]
    rw [tsub_zero] at h₁
    omega

section
variable (h : Matched index key m)
include h

lemma Matched.position_le (horde : Ordered index) (hi : m.start ≤ i) (hij : i≤j) (hj : j < m.fin) :
    index.entries[index.order[i]!]!.position ≤ index.entries[index.order[j]!]!.position := by
  have hlaw := lawfulEq (K := K)
  rcases eq_or_lt_of_le hij with rfl | hij
  · exact le_rfl
  · have hlt := horde.lt hij (hj.trans_le h.high)
    have hkey : keyAt index i=keyAt index j :=
      (Std.LawfulEqCmp.eq_of_compare (h.keys i hi (by omega))).trans
        (Std.LawfulEqCmp.eq_of_compare (h.keys j (by omega) hj)).symm
    have hself : order index.entries[index.order[i]!]!.key
        index.entries[index.order[j]!]!.key = .eq := by
      change order (keyAt index i) (keyAt index j) = .eq
      rw [hkey]
      exact Std.ReflCmp.compare_self
    simp only [ordinalOrder,compareLex,Ordering.then_eq_lt,Ordering.then_eq_eq,hself,
      reduceCtorEq,true_and,false_or] at hlt
    rcases hlt with hlt | ⟨heq,-⟩
    · exact (Nat.compare_eq_lt.mp hlt).le
    · exact (Nat.compare_eq_eq.mp heq).le

lemma Matched.getElem_ordinals (hi : i < m.ordinals.length) :
    m.start+i < m.fin ∧ m.ordinals[i]=index.order[m.start+i]! := by
  have hhigh := h.high
  have hlen : m.ordinals.length ≤ m.fin-m.start := by
    rw [Matches.ordinals,length_take]
    exact min_le_left _ _
  refine ⟨by omega,?_⟩
  rw [getElem!_pos index.order (m.start+i) (by omega)]
  simp only [Matches.ordinals,getElem_take,getElem_drop,h.ofIndex,Array.getElem_toList]

lemma Matched.length_ordinals : m.ordinals.length=m.fin-m.start := by
  have hhigh := h.high
  rw [Matches.ordinals,length_take,length_drop,h.ofIndex,Array.length_toList]
  unfold len
  omega

/-- The greatest match below a position. -/
lemma lastBefore_spec (horde : Ordered index) {position : ℕ} {found : Option (Entry K V)}
    (hlast : m.lastBefore position usage limit = .ok (found,after)) : found = (m.iter.filter
    fun entry => entry.position<position).getLast? ∧ usage.work+2*searchComparisonBound m.len ≤
    limit ∧ after.work ≤ usage.work+2*searchComparisonBound m.len ∧
    after.comparisons ≤ usage.comparisons+searchComparisonBound m.len := by
  obtain ⟨_,htwi,hlast⟩ := bind_eq_ok.mp hlast
  obtain ⟨-,rfl⟩ := checkedMul_eq_ok.mp htwi
  obtain ⟨_,hreq,hlast⟩ := bind_eq_ok.mp hlast
  have hlim := (requireWork_eq_ok.mp hreq).2.2
  rw [h.ofIndex] at hlast
  have hpro : Probes (fun i (usage : Usage) =>
      (Ord.compare index.entries[i]!.position position,usage.compared.step))
      (fun i => Ord.compare index.entries[i]!.position position) 2 index.order m.start m.fin :=
    ⟨fun _ _ => Iff.rfl,fun _ _ => rfl,fun _ _ _ _ => le_rfl⟩
  have hfou := lowerBoundBy_spec usage h.le hpro fun i j hi hij hj hlt => by
    have hle := h.position_le horde hi hij hj
    rw [Nat.compare_eq_lt] at hlt ⊢
    omega
  set result := lowerBoundBy (fun i (usage : Usage) =>
    (Ord.compare index.entries[i]!.position position,usage.compared.step)) index.order m.start m.fin
    usage with hres
  obtain ⟨rfl,rfl⟩ : (if result.1=m.start then none
      else some index.entries[index.order[result.1-1]!]!)=found ∧ result.2=after := by
    have hpair := ok.inj hlast
    exact ⟨congrArg Prod.fst hpair,congrArg Prod.snd hpair⟩
  have hfil : m.ordinals.filter (fun i => decide (index.entries[i]!.position<position)) =
      m.ordinals.take (result.1-m.start) := by
    refine (filter_run zero_le fun i hi => ?_).trans (by rw [drop_zero,tsub_zero])
    obtain ⟨hin,hget⟩ := h.getElem_ordinals hi
    rw [hget,decide_eq_true_eq]
    constructor
    · intro hlt
      by_contra hge
      have hnot := hfou.above (m.start+i) (by omega) hin
      exact hnot (Nat.compare_eq_lt.mpr hlt)
    · rintro ⟨-,hlt⟩
      exact Nat.compare_eq_lt.mp (hfou.below (m.start+i) (by omega) (by omega))
  have hiter : m.iter.filter (fun entry => decide (entry.position<position)) =
      (m.ordinals.take (result.1-m.start)).map fun i => index.entries[i]! := by
    rw [Matches.iter,h.ofIndex,filter_map,← hfil]
    rfl
  have hlow := hfou.low
  have hhigh := hfou.high
  have hleng := h.length_ordinals
  refine ⟨?_,hlim,?_,hfou.comparisons⟩
  · rw [hiter,getLast?_map,getLast?_eq_getElem?,length_take,min_eq_left (by omega)]
    split_ifs with hst
    · rw [hst,tsub_self]
      rfl
    · have hi : result.1-m.start-1 < m.ordinals.length := by omega
      obtain ⟨-,hget⟩ := h.getElem_ordinals hi
      rw [getElem?_take_of_lt (by omega),getElem?_eq_getElem hi,hget]
      congr 3
      omega
  · have hwork := hfou.work
    rw [mul_comm]
    exact hwork

lemma firstBefore_spec (horde : Ordered index) (position : ℕ) :
    m.firstBefore position = (m.iter.filter fun entry => entry.position<position).head? := by
  have hposs : ∀ j (hj : j < m.ordinals.length) (hzero : 0 < m.ordinals.length),
      index.entries[m.ordinals[0]]!.position ≤ index.entries[m.ordinals[j]]!.position := by
    intro j hj hzero
    obtain ⟨-,hfst⟩ := h.getElem_ordinals hzero
    obtain ⟨hin,hget⟩ := h.getElem_ordinals hj
    rw [hfst,hget]
    exact h.position_le horde (by omega) (by omega) hin
  rw [firstBefore,Matches.first,Matches.iter,h.ofIndex]
  cases hordi : m.ordinals with
  | nil => rfl
  | cons i rest =>
    rw [hordi] at hposs
    rw [head?_cons,map_cons]
    by_cases hlt : index.entries[i]!.position<position
    · simp [hlt]
    · have hnone : (index.entries[i]! :: rest.map fun i => index.entries[i]!).filter
          (fun entry => decide (entry.position<position)) = [] := by
        rw [← map_cons (f := fun i => index.entries[i]!),filter_eq_nil_iff]
        intro entry hent
        obtain ⟨j,hj,rfl⟩ := getElem_of_mem hent
        rw [length_map] at hj
        have hle := hposs j hj (Nat.succ_pos _)
        rw [getElem_cons_zero] at hle
        rw [getElem_map,decide_eq_true_eq]
        omega
      rw [hnone]
      simp [Option.filter,hlt]

end

end

end

inductive Lookup (K : Type)
  | all (key : K)
  | before (key : K) (position : ℕ)

section
variable {K V : Type} [Key K] [Inhabited K] [Inhabited V]

/-- One lookup with the counters that the lookups before it left. -/
def Index.lookup (index : Index K V) (limit : ℕ) (usage : Usage) :
    Lookup K → Except Error Usage
  | .all key => do
    let (_,usage) ← index.matches key usage limit
    return usage
  | .before key position => do
    let (m,usage) ← index.matches key usage limit
    let (_,usage) ← m.lastBefore position usage limit
    return usage

/-- What a lookup is quoted: work and comparisons. -/
def Lookup.quote (index : Index K V) : Lookup K → ℕ × ℕ
  | .all _ => (index.resources.lookupWork,index.resources.lookupComparisons)
  | .before _ _ => (index.resources.lookupWork+2*searchComparisonBound index.entries.size,
      index.resources.lookupComparisons+searchComparisonBound index.entries.size)

variable [LawfulKey K] {index : Index K V} {keyWork : ℕ}

section
variable (horde : Ordered index) (hquo : Quoted index.entries index.resources keyWork) {limit : ℕ}
include horde hquo

lemma lookup_within {lookup : Lookup K} (h : index.lookup limit usage lookup = .ok after) :
    after.work ≤ usage.work+(lookup.quote index).1 ∧
      after.comparisons ≤ usage.comparisons+(lookup.quote index).2 ∧ after.work≤limit := by
  cases lookup with
  | all key =>
    obtain ⟨⟨m,_⟩,hmat,h⟩ := bind_eq_ok.mp h
    obtain rfl := ok.inj h
    obtain ⟨-,hlim,hwork,hcmp⟩ := matches_spec horde hquo hmat
    exact ⟨hwork,hcmp,hwork.trans hlim⟩
  | before key position =>
    obtain ⟨⟨m,middle⟩,hmat,h⟩ := bind_eq_ok.mp h
    obtain ⟨⟨found,_⟩,hlast,h⟩ := bind_eq_ok.mp h
    obtain rfl := ok.inj h
    obtain ⟨hmatc,-,hwork,hcmp⟩ := matches_spec horde hquo hmat
    obtain ⟨-,hlim,hwork',hcmp'⟩ := lastBefore_spec hmatc horde hlast
    have hsize : index.order.size=index.entries.size := by
      rw [← Array.length_toList,horde.perm.length_eq,length_range]
    have hle : searchComparisonBound m.len ≤ searchComparisonBound index.entries.size := by
      refine Nat.size_le_size ?_
      have hhigh := hmatc.high
      unfold len
      omega
    simp only [Lookup.quote]
    exact ⟨by omega,by omega,by omega⟩

lemma lookups_within (lookups : List (Lookup K)) (h : lookups.foldlM (index.lookup limit) usage = .ok after) :
    after.work ≤ usage.work+(lookups.map fun l => (l.quote index).1).sum ∧
      after.comparisons ≤ usage.comparisons+(lookups.map fun l => (l.quote index).2).sum ∧
      after.work ≤ max usage.work limit := by
  induction lookups generalizing usage with
  | nil =>
    obtain rfl : usage=after := ok.inj h
    exact ⟨le_rfl,le_rfl,le_max_left _ _⟩
  | cons lookup lookups ih =>
    obtain ⟨next,hloo,h⟩ := bind_eq_ok.mp h
    obtain ⟨hwork,hcmp,hlim⟩ := lookup_within horde hquo hloo
    obtain ⟨hwork',hcmp',hlim'⟩ := ih h
    rw [map_cons,map_cons,sum_cons,sum_cons]
    exact ⟨by omega,by omega,by omega⟩

end

end

def entriesExample : Array (Entry String ℕ) :=
  #[⟨"b",4,0⟩,⟨"a",9,1⟩,⟨"b",2,2⟩,⟨"a",3,3⟩,⟨"b",4,4⟩]

end Pllm.Keyed
