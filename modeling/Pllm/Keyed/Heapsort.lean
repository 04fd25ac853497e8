import Pllm.Keyed.BoundedIndex

/-! The metered heapsort: its result is in order, and its counters stay within the bound. -/
namespace Pllm.Keyed
open Pllm.Lib Nat

/-- A comparison of items with `P` that follows an order and is charged at most `cost`. -/
structure Metered {α : Type} (compare : α → α → Usage → Ordering × Usage) (cmp : α → α → Ordering)
    (P : α → Prop) (cost : ℕ) : Prop where
  order : ∀ a b usage, (compare a b usage).1 = cmp a b
  comparisons : ∀ a b usage, (compare a b usage).2.comparisons = usage.comparisons
  work : ∀ a b usage, P a → P b → (compare a b usage).2.work ≤ usage.work+cost

/-- At most two comparisons in each of `turns` turns, and work in proportion to them. -/
structure Spent (cost turns : ℕ) (before after : Usage) : Prop where
  le : before.comparisons≤after.comparisons
  comparisons : after.comparisons≤before.comparisons+2*turns
  work : after.work+(cost+2)*before.comparisons ≤ before.work+(cost+2)*after.comparisons

lemma Spent.refl (cost turns : ℕ) (usage : Usage) : Spent cost turns usage usage :=
  ⟨le_rfl,le_self_add,le_rfl⟩

lemma Spent.trans {cost turns more : ℕ} {a b c : Usage} (hab : Spent cost turns a b)
    (hbc : Spent cost more b c) : Spent cost (turns+more) a c := by
  have h₁ := hab.comparisons
  have h₂ := hbc.comparisons
  have h₃ := hab.work
  have h₄ := hbc.work
  exact ⟨hab.le.trans hbc.le,by omega,by omega⟩

variable {fin root : ℕ}

section
variable {α : Type} [Inhabited α]

/-- The items of an array by their places. -/
def view (items : Array α) : ℕ → α := fun i => items[i]!

variable {items : Array α}

lemma view_mem {i : ℕ} (hi : i < items.size) : view items i ∈ items := by
  rw [view,getElem!_pos items i hi]
  exact Array.getElem_mem hi

lemma view_swap {a b : ℕ} (ha : a < items.size) (hb : b < items.size) :
    view (items.swapIfInBounds a b) = exchange (view items) a b := by
  funext i
  simp only [view,exchange]
  by_cases hi : i < items.size
  · rw [getElem!_pos _ i (by rwa [Array.size_swapIfInBounds]),Array.getElem_swapIfInBounds,
      getElem!_pos items a ha,getElem!_pos items b hb,getElem!_pos items i hi]
    simp only [ha,hb,and_true]
    rfl
  · rw [getElem!_neg _ i (by rwa [Array.size_swapIfInBounds]),getElem!_neg _ i hi,
      if_neg (by omega),if_neg (by omega)]

/-- Items moved among the places before `fin`. -/
structure Rearranged (fin : ℕ) (before after : Array α) : Prop where
  perm : after.Perm before
  rest : ∀ i, fin ≤ i → view after i = view before i
  front : ∀ i, i<fin → ∃ j, j<fin ∧ view after i = view before j

lemma Rearranged.refl (fin : ℕ) (items : Array α) : Rearranged fin items items :=
  ⟨.refl _,fun _ _ => rfl,fun i hi => ⟨i,hi,rfl⟩⟩

lemma Rearranged.trans {a b c : Array α} (hab : Rearranged fin a b)
    (hbc : Rearranged fin b c) : Rearranged fin a c := by
  refine ⟨hbc.perm.trans hab.perm,fun i hi => (hbc.rest i hi).trans (hab.rest i hi),fun i hi => ?_⟩
  obtain ⟨j,hj,hij⟩ := hbc.front i hi
  obtain ⟨k,hk,hjk⟩ := hab.front j hj
  exact ⟨k,hk,hij.trans hjk⟩

lemma rearranged_swap {a b fin : ℕ} (ha : a<fin) (hb : b<fin)
    (hfin : fin ≤ items.size) : Rearranged fin items (items.swapIfInBounds a b) := by
  have ha' : a < items.size := by omega
  have hb' : b < items.size := by omega
  refine ⟨?_,fun i hi => ?_,fun i hi => ?_⟩
  · rw [Array.swapIfInBounds_def,dif_pos ha',dif_pos hb']
    exact Array.swap_perm ha' hb'
  · rw [view_swap ha' hb',exchange_of_ne (by omega) (by omega)]
  · rw [view_swap ha' hb']
    unfold exchange
    split_ifs
    · exact ⟨b,hb,rfl⟩
    · exact ⟨a,ha,rfl⟩
    · exact ⟨i,hi,rfl⟩

variable {compare : α → α → Usage → Ordering × Usage} {cmp : α → α → Ordering} [Std.TransCmp cmp]
  {P : α → Prop} {cost : ℕ} (hmet : Metered compare cmp P cost)

/-- The order that the items are brought into. -/
def Below (cmp : α → α → Ordering) (a b : α) : Prop := (cmp a b).isLE

omit [Inhabited α] in
lemma below_refl (a : α) : Below cmp a a := by
  rw [Below,@Std.ReflCmp.compare_self _ cmp]
  rfl

omit [Inhabited α] in
lemma below_trans (a b c : α) (hab : Below cmp a b) (hbc : Below cmp b c) : Below cmp a c :=
  Std.TransCmp.isLE_trans hab hbc

omit [Inhabited α] [Std.TransCmp cmp] in
lemma below_of_lt {a b : α} (h : cmp a b = .lt) : Below cmp a b := by
  rw [Below,h]
  rfl

omit [Inhabited α] in
lemma below_of_not_lt {a b : α} (h : cmp a b ≠ .lt) : Below cmp b a := by
  rw [Below,@Std.OrientedCmp.eq_swap _ cmp]
  cases hab : cmp a b
  · exact absurd hab h
  · rfl
  · rfl

include hmet

omit [Inhabited α] [Std.TransCmp cmp] in
lemma compared_spent {a b : α} (ha : P a) (hb : P b) (usage : Usage) :
    (compare a b usage.compared).2.comparisons = usage.comparisons+1 ∧
    (compare a b usage.compared).2.work ≤ usage.work+1+cost :=
  ⟨hmet.comparisons a b _,hmet.work a b _ ha hb⟩

variable {items : Array α}

lemma greaterChild_spec (usage : Usage)
    (hP : ∀ x∈items, P x) (hfin : fin ≤ items.size) (hroot : root<fin/2) :
    let result := greaterChild compare items fin root usage
    IsChild result.1 root ∧ result.1<fin ∧ (∀ c, IsChild c root → c<fin → Below cmp (view items c)
      (view items result.1)) ∧ usage.comparisons ≤ result.2.comparisons ∧
      result.2.comparisons ≤ usage.comparisons+1 ∧ result.2.work+(cost+2)*usage.comparisons ≤
      usage.work+(cost+2)*result.2.comparisons := by
  intro result
  by_cases hrt : 2*root+1+1<fin
  · have hleft := view_mem (show 2*root+1 < items.size by omega)
    have hsnd := view_mem (show 2*root+1+1 < items.size by omega)
    obtain ⟨hcom,hwork⟩ := compared_spent hmet (hP _ hleft) (hP _ hsnd) usage
    have hord := hmet.order (view items (2*root+1)) (view items (2*root+1+1)) usage.compared
    have hres : result =
        (if cmp (view items (2*root+1)) (view items (2*root+1+1)) = .lt then 2*root+1+1
          else 2*root+1,
          (compare (view items (2*root+1)) (view items (2*root+1+1)) usage.compared).2) := by
      rw [← hord]
      simp only [result,greaterChild,if_pos hrt]
      rfl
    rw [hres]
    refine ⟨?_,?_,?_,by simp only; omega,by simp only; omega,?_⟩
    · simp only [IsChild]
      split <;> omega
    · split <;> omega
    · rintro c (rfl | rfl) hc
      · split_ifs with hlt
        · exact below_of_lt hlt
        · exact below_refl _
      · split_ifs with hlt
        · exact below_refl _
        · exact below_of_not_lt hlt
    · simp only [hcom,mul_add]
      omega
  · have hres : result=(2*root+1,usage) := by
      simp only [result,greaterChild,if_neg hrt]
    rw [hres]
    refine ⟨.inl rfl,by simp only; omega,?_,le_rfl,le_succ _,le_rfl⟩
    rintro c (rfl | rfl) hc
    · exact below_refl _
    · exact absurd hc hrt

lemma sift_spec (fuel turns : ℕ) (usage : Usage) {fin lo root : ℕ} (hP : ∀
    x∈items, P x) (hfin : fin ≤ items.size) (hlo : lo ≤ root) (hfuel : fin ≤ root+fuel) (htur :
    fin/2<(root+1)*2^turns) (hheap : HeapBut (Below cmp) (view items) lo root fin) :
    let result := sift compare fin fuel items root usage
    Rearranged fin items result.1 ∧ IsHeap (Below cmp) (view result.1) lo fin ∧
      Spent cost turns usage result.2 := by
  induction fuel generalizing items root turns usage with
  | zero =>
    refine ⟨.refl _ _,hheap.done fun c hc hcfin => ?_,.refl _ _ _⟩
    have hlt := hc.lt
    omega
  | succ fuel ih =>
    intro result
    by_cases hroot : root<fin/2
    · obtain ⟨hchd,hcfin,hmax,hle,hone,hwork⟩ := greaterChild_spec hmet usage hP hfin hroot
      set chosen := greaterChild compare items fin root usage with hcho
      have hroo : root<fin := by omega
      have hord := hmet.order (view items root) (view items chosen.1) chosen.2.compared
      obtain ⟨hcom,hcost⟩ := compared_spent hmet (hP _ (view_mem (by omega :
        root < items.size))) (hP _ (view_mem (by omega : chosen.1 < items.size))) chosen.2
      set answer := compare (view items root) (view items chosen.1) chosen.2.compared with hans
      cases turns with
      | zero => omega
      | succ turns =>
        have hspt : Spent cost 1 usage answer.2.step := by
          refine ⟨?_,?_,?_⟩
          · change usage.comparisons ≤ answer.2.comparisons
            omega
          · change answer.2.comparisons ≤ usage.comparisons+2*1
            omega
          · change answer.2.work+1+(cost+2)*usage.comparisons ≤
              usage.work+(cost+2)*answer.2.comparisons
            rw [hcom,mul_succ]
            omega
        by_cases hlt : cmp (view items root) (view items chosen.1) = .lt
        · have hres : result=sift compare fin fuel (items.swapIfInBounds root chosen.1)
              chosen.1 answer.2.step := by
            simp only [result,sift,if_pos hroot]
            exact if_neg (not_not.mpr (hord.trans hlt))
          have hswap := rearranged_swap hroo hcfin hfin
          have hstep := hheap.step hlo hchd hcfin hmax (below_of_lt hlt)
          rw [← view_swap (by omega) (by omega)] at hstep
          have hchi : (root+1)*2^(turns+1)≤(chosen.1+1)*2^turns := by
            rw [pow_succ,mul_comm (2^turns),← mul_assoc]
            refine Nat.mul_le_mul_right _ ?_
            unfold IsChild at hchd
            omega
          have hlt' := hchd.lt
          obtain ⟨hrea,hdone,hrest⟩ := ih turns answer.2.step (fun x hx => hP x (hswap.perm.mem_iff.mp hx)) (by rwa [Array.size_swapIfInBounds])
            (by omega) (by omega) (by omega) hstep
          rw [hres]
          refine ⟨hswap.trans hrea,hdone,?_⟩
          rw [add_comm turns 1]
          exact hspt.trans hrest
        · have hres : result=(items,answer.2) := by
            simp only [result,sift,if_pos hroot]
            exact if_pos fun heq => hlt (hord.symm.trans heq)
          rw [hres]
          refine ⟨.refl _ _,hheap.done fun c hc hcfin' =>
            below_trans _ _ _ (hmax c hc hcfin') (below_of_not_lt hlt),?_⟩
          have hle' := hspt.le
          have hcmp := hspt.comparisons
          have hwork' := hspt.work
          simp only [Usage.step] at hle' hcmp hwork'
          refine ⟨hle',?_,?_⟩ <;> simp only <;> omega
    · have hres : result=(items,usage) := by
        simp only [result,sift,if_neg hroot]
      rw [hres]
      refine ⟨.refl _ _,hheap.done fun c hc hcfin => ?_,.refl _ _ _⟩
      unfold IsChild at hc
      omega

omit [Inhabited α] hmet [Std.TransCmp cmp] in
lemma half_lt {fin size root : ℕ} (hfin : fin ≤ size) : fin/2<(root+1)*2^size.size := by
  have hlt := lt_size_self size
  have hmul := Nat.le_mul_of_pos_left (2^size.size) (succ_pos root)
  rw [succ_eq_add_one] at hmul
  omega

variable (usage : Usage) (hP : ∀ x∈items, P x)
include usage hP

lemma buildHeap_spec (hheap : IsHeap (Below cmp) (view items) root items.size) :
    let result := buildHeap compare root items usage
    result.1.Perm items ∧ IsHeap (Below cmp) (view result.1) 0 items.size ∧
      Spent cost (root*items.size.size) usage result.2 := by
  induction root generalizing items usage with
  | zero => exact ⟨.refl _,hheap,.refl _ _ _⟩
  | succ root ih =>
    obtain ⟨hrea,hdone,hspt⟩ := sift_spec hmet _ _ usage hP le_rfl le_rfl
      le_add_self (half_lt le_rfl) hheap.but
    set first := sift compare items.size items.size items root usage with hfst
    have hsize : first.1.size=items.size := hrea.perm.size_eq
    rw [← hsize] at hdone
    obtain ⟨hperm,hwho,hrest⟩ := ih first.2
      (fun x hx => hP x (hrea.perm.mem_iff.mp hx)) hdone
    rw [hsize] at hwho hrest
    refine ⟨hperm.trans hrea.perm,hwho,?_⟩
    rw [succ_mul,add_comm]
    exact hspt.trans hrest

lemma extractHeap_spec
    (hfin : fin ≤ items.size-1) (hheap : IsHeap (Below cmp) (view items) 0 (fin+1))
    (hsrt : SortedFrom (Below cmp) (view items) (fin+1) items.size) :
    let result := extractHeap compare fin items usage
    result.1.Perm items ∧ SortedFrom (Below cmp) (view result.1) 1 items.size ∧
      Spent cost (fin*items.size.size) ⟨usage.work+fin,usage.comparisons⟩ result.2 := by
  induction fin generalizing items usage with
  | zero => exact ⟨.refl _,hsrt,.refl _ _ _⟩
  | succ fin ih =>
    have hswap := rearranged_swap (show 0 < fin+2 by omega) (show fin+1 < fin+2 by omega)
      (show fin+2 ≤ items.size by omega)
    have hexc := hheap.exchange_last
    have hlast := hsrt.exchange_last hheap below_refl below_trans
    rw [← view_swap (by omega) (by omega)] at hexc hlast
    set swapped := items.swapIfInBounds 0 (fin+1) with hswa
    have hsize : swapped.size=items.size := Array.size_swapIfInBounds
    have hPswapped : ∀ x∈swapped, P x := fun x hx => hP x (hswap.perm.mem_iff.mp hx)
    obtain ⟨hrea,hdone,hspt⟩ := sift_spec hmet swapped.size items.size.size usage.step
      hPswapped (by omega) le_rfl (by omega) (half_lt (by omega)) hexc
    set sifted := sift compare (fin+1) swapped.size swapped 0 usage.step with hsif
    have hsize' : sifted.1.size=items.size := hrea.perm.size_eq.trans hsize
    have hnext := hlast.congr hrea.rest hrea.front
    rw [← hsize'] at hnext
    obtain ⟨hperm,hres,hrest⟩ := ih sifted.2
      (fun x hx => hPswapped x (hrea.perm.mem_iff.mp hx)) (by omega) hdone hnext
    rw [hsize'] at hres hrest
    refine ⟨hperm.trans (hrea.perm.trans hswap.perm),hres,?_⟩
    have h₁ := hspt.le
    have h₂ := hspt.comparisons
    have h₃ := hspt.work
    have h₄ := hrest.le
    have h₅ := hrest.comparisons
    have h₆ := hrest.work
    simp only [Usage.step] at h₁ h₂ h₃ h₄ h₅ h₆
    rw [succ_mul]
    change Spent cost _ ⟨usage.work+(fin+1),usage.comparisons⟩
      (extractHeap compare fin sifted.1 sifted.2).2
    refine ⟨?_,?_,?_⟩ <;> simp only <;> omega

lemma heapsort_spec :
    let result := heapsort compare items usage
    let sifts := items.size/2+(items.size-1)
    result.1.Perm items ∧ result.1.toList.Pairwise (Below cmp) ∧ usage.comparisons ≤
      result.2.comparisons ∧ result.2.comparisons ≤ usage.comparisons+2*(sifts*items.size.size) ∧
      result.2.work ≤ usage.work+(items.size-1)+(cost+2)*(2*(sifts*items.size.size)) := by
  have hlea : IsHeap (Below cmp) (view items) (items.size/2) items.size := by
    intro i hi c hc hcfin
    unfold IsChild at hc
    omega
  obtain ⟨hperm,hheap,hspt⟩ := buildHeap_spec hmet usage hP hlea
  set built := buildHeap compare (items.size/2) items usage with hbui
  have hsize : built.1.size=items.size := hperm.size_eq
  have hPbuilt : ∀ x∈built.1, P x := fun x hx => hP x (hperm.mem_iff.mp hx)
  have hheap' : IsHeap (Below cmp) (view built.1) 0 (built.1.size-1+1) := by
    intro i hi c hc hcfin
    have hlt := hc.lt
    exact hheap i hi c hc (by omega)
  obtain ⟨hperm',hsrt,hspt'⟩ := extractHeap_spec hmet built.2 hPbuilt le_rfl
    hheap' fun i j hij hj hjn => by omega
  rw [hsize] at hperm' hsrt hspt'
  have h₁ := hspt.le
  have h₂ := hspt.comparisons
  have h₃ := hspt.work
  have h₄ := hspt'.le
  have h₅ := hspt'.comparisons
  have h₆ := hspt'.work
  have hres : heapsort compare items usage =
      extractHeap compare (items.size-1) built.1 built.2 := by
    rw [← hsize]
    rfl
  intro result sifts
  simp only [result,hres]
  simp only at h₁ h₂ h₃ h₄ h₅ h₆
  set last := extractHeap compare (items.size-1) built.1 built.2 with hlast
  have hcom : last.2.comparisons ≤ usage.comparisons+2*(sifts*items.size.size) := by
    simp only [sifts,add_mul]
    omega
  refine ⟨hperm'.trans hperm,?_,by omega,hcom,?_⟩
  · have hsize' : last.1.size=items.size := (hperm'.trans hperm).size_eq
    rw [List.pairwise_iff_getElem]
    intro i j hi hj hij
    rw [Array.length_toList] at hi hj
    have hblw := hsrt i j hij (by omega) (by omega)
    rw [view,view,getElem!_pos _ i hi,getElem!_pos _ j hj] at hblw
    rwa [ Array.getElem_toList]
  · have hmul := Nat.mul_le_mul_left (cost+2) hcom
    rw [mul_add] at hmul
    omega

end

end Pllm.Keyed
