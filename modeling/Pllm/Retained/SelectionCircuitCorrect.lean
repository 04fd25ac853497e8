import Pllm.Retained.SelectionCircuit

/-! The plain evaluation of both selection circuits: the comparison is numeric, a pass of the sort is
a pass of the bitonic network, and what remains after the two sorts are the selected rows. -/
namespace Pllm.Retained
open Pllm.Lib List

/-- The number a word spells, lowest bit first. -/
def wordValue : List Bool → ℕ
  | [] => 0
  | b::bs => b.toNat+2*wordValue bs

lemma wordValue_append (xs ys : List Bool) :
    wordValue (xs++ys) = wordValue xs+2^xs.length*wordValue ys := by
  induction xs with
  | nil => simp [wordValue]
  | cons b bs ih =>
    rw [cons_append,wordValue,wordValue,ih,length_cons]
    ring

lemma wordValue_testBit (v width : ℕ) : wordValue ((range width).map v.testBit)=v%2^width := by
  induction width generalizing v with
  | zero => simp [wordValue,Nat.mod_one]
  | succ width ih =>
    have hmap : ((range width).map Nat.succ).map v.testBit=(range width).map (v/2).testBit := by
      rw [map_map]
      exact map_congr_left fun i _ => Nat.testBit_succ v i
    rw [range_succ_eq_map,map_cons,hmap,wordValue,ih,Nat.testBit_zero,pow_succ',Nat.mod_mul]
    by_cases h : v%2=1
    · simp [h]
    · simp [h]
      omega

lemma wordValue_replicate (b : Bool) (n : ℕ) :
    wordValue (replicate n b) = if b then 2^n-1 else 0 := by
  induction n with
  | zero => simp [wordValue]
  | succ n ih =>
    have hpos := Nat.two_pow_pos n
    rw [replicate_succ,wordValue,ih]
    cases b
    · simp
    · simp
      omega

lemma wordValue_pushWord (v : BitVec 32) : wordValue (pushWord v)=v.toNat := by
  have hmap : pushWord v=(range 32).map v.toNat.testBit := rfl
  rw [hmap,wordValue_testBit,Nat.mod_eq_of_lt v.isLt]

lemma compare_step (b c : Bool) (x y : ℕ) :
    (decide (x<y) ^^ (decide (x=y) && (!b && c))) = decide (b.toNat+2*x < c.toNat+2*y) ∧
      (decide (x=y) && !(b ^^ c)) = decide (b.toNat+2*x=c.toNat+2*y) := by
  constructor
  · by_cases hlt : x<y <;> by_cases heq : x=y <;> cases b <;> cases c <;>
      simp [heq] <;> omega
  · by_cases heq : x=y <;> cases b <;> cases c <;> simp [heq] <;> omega

lemma compareUnsigned_plain {left right : List Bool} (hpos : 0<left.length) (hlen :
    left.length=right.length) (hwide : left.length≤128) : compareUnsigned plainGates left right =
    .ok (decide (wordValue left < wordValue right),decide (wordValue left = wordValue right)) := by
  rw [compareUnsigned,if_neg (by omega)]
  clear hpos hwide
  simp only [plainGates,ok_bind]
  induction left generalizing right with
  | nil =>
    obtain rfl := length_eq_zero_iff.mp hlen.symm
    rfl
  | cons b bs ih =>
    obtain ⟨c,cs,rfl⟩ := exists_cons_of_length_eq_add_one hlen.symm
    rw [zip_cons_cons,reverse_cons,foldlM_append,ih (by simpa using hlen)]
    obtain ⟨hless,hequ⟩ := compare_step b c (wordValue bs) (wordValue cs)
    exact congrArg Except.ok (Prod.ext hless hequ)

/-- The number in a range of record bits. -/
def keyValue (key : ℕ × ℕ) (record : List Bool) : ℕ := wordValue (slice record key.1 key.2)

/-- All records have the width the circuit gives them. -/
def Uniform (bits : ℕ) (recs : List (List Bool)) : Prop :=
  ∀ record∈recs, record.length=bits

lemma getD_mem {recs : List (List Bool)} {i : ℕ} (h : i < recs.length) : recs.getD i []∈recs := by
  rw [getD_eq_getElem _ _ h]
  exact getElem_mem h

/-- The masked exchange of two records. -/
lemma moved_plain (swap : Bool) (left right : List Bool) :
    ((left.zip right).mapM fun (leftBit,rightBit) => do
        let different ← plainGates.xor leftBit rightBit
        let moveBit ← plainGates.and swap different
        let leftBit ← plainGates.xor leftBit moveBit
        let rightBit ← plainGates.xor rightBit moveBit
        return (leftBit,rightBit)) =
      .ok (if swap then right.zip left else left.zip right) := by
  rw [mapM_ok (g := fun pair => if swap then (pair.2,pair.1) else pair) (left.zip right)]
  · cases swap with
    | true =>
      exact congrArg _ (zip_swap left right)
    | false => simp
  · rintro ⟨x,y⟩ -
    cases swap <;> cases x <;> cases y <;> rfl

lemma write_moved {recs : List (List Bool)} {i j : ℕ} (hi : i < recs.length) (hj :
    j < recs.length) (same : (recs.getD i []).length = (recs.getD j []).length) (swap : Bool) :
    let moved := if swap then (recs.getD j []).zip (recs.getD i [])
      else (recs.getD i []).zip (recs.getD j [])
    (recs.set i (moved.map Prod.fst)).set j (moved.map Prod.snd) =
      if swap then (recs.set i (recs.getD j [])).set j (recs.getD i []) else recs := by
  cases swap with
  | true => simp only [if_true,map_fst_zip same.ge,map_snd_zip same.le]
  | false =>
    simp only [Bool.false_eq_true,if_false,map_fst_zip same.le,map_snd_zip same.ge]
    rw [getD_eq_getElem _ _ hi,set_getElem_self,getD_eq_getElem _ _ hj,set_getElem_self]

section
variable {key : ℕ × ℕ} {ascending : Bool} {bits s t k : ℕ} {recs : List (List Bool)}

lemma exchange_plain (huni : Uniform bits recs) (hkey : 0<key.2)
    (hwide : key.2≤128) (hfit : key.1+key.2 ≤ bits) {left : ℕ} (hleft : left < recs.length)
    (hrt : left ^^^ 2^t < recs.length) : exchange plainGates key ascending (2^s)
    (2^t) recs left = .ok (Network.exchange (keyValue key) [] ascending s t recs left) := by
  have hlenL := huni _ (getD_mem hleft)
  have hlenR := huni _ (getD_mem hrt)
  simp only [exchange,Network.exchange]
  by_cases hskip : left ^^^ 2^t ≤ left
  · rw [if_pos hskip,if_pos hskip]
    rfl
  · rw [if_neg hskip,if_neg hskip]
    have hl : (slice (recs.getD left []) key.1 key.2).length=key.2 :=
      length_slice (by omega)
    have hr : (slice (recs.getD (left ^^^ 2^t) []) key.1 key.2).length=key.2 :=
      length_slice (by omega)
    have hlr := hlenL.trans hlenR.symm
    have hdir : (decide (left &&& 2^s=0)==ascending) =
        Network.increasing ascending s left := rfl
    rw [hdir]
    cases Network.increasing ascending s left with
    | true =>
      simp only [if_true]
      rw [compareUnsigned_plain (by omega) (by omega) (by omega)]
      simp only [ok_bind]
      rw [moved_plain]
      simp only [ok_bind,write_moved hleft hrt hlr]
      simp [keyValue]
    | false =>
      simp only [Bool.false_eq_true,if_false]
      rw [compareUnsigned_plain (by omega) (by omega) (by omega)]
      simp only [ok_bind]
      rw [moved_plain]
      simp only [ok_bind,write_moved hleft hrt hlr]
      simp [keyValue]

lemma Uniform.perm {other : List (List Bool)} (h : Uniform bits recs)
    (hperm : other.Perm recs) : Uniform bits other :=
  fun record hreco => h record (hperm.mem_iff.mp hreco)

section
variable (huni : Uniform bits recs) (hkey : 0<key.2) (hwide : key.2≤128) (hfit : key.1+key.2 ≤ bits) (hlen : recs.length=2^k)
include huni hkey hwide hfit hlen

lemma sortGroup_plain (ht : t≤k) : sortGroup plainGates key ascending (2^s) t recs =
      .ok (Network.sortMerge (keyValue key) [] ascending s t recs) := by
  induction t generalizing recs with
  | zero => rfl
  | succ t ih =>
    obtain ⟨hfold,hperm⟩ := foldlM_ok (f := exchange plainGates key ascending (2^s) (2^t))
      (g := Network.exchange (keyValue key) [] ascending s t)
      (P := fun current => current.Perm recs) (range recs.length) recs
      (List.Perm.refl recs) (fun current hcur left hleft => by
        have hcurl := hcur.length_eq.trans hlen
        have hleft : left<2^k := hlen ▸ mem_range.mp hleft
        exact ⟨exchange_plain (huni.perm hcur) hkey hwide hfit (hcurl.symm ▸ hleft)
          (hcurl.symm ▸ Nat.xor_lt_two_pow hleft (Nat.pow_lt_pow_right (by decide) ht)),
          (Network.exchange_perm hcurl ht hleft).trans hcur⟩)
    rw [sortGroup,hfold]
    exact ih (huni.perm hperm) (hperm.length_eq.trans hlen) (Nat.le_of_succ_le ht)

lemma sortGroups_plain (hs : s≤k) : sortGroups plainGates key ascending s recs =
      .ok (Network.sortNetwork (keyValue key) [] ascending s recs) := by
  induction s with
  | zero => rfl
  | succ s ih =>
    have hperm := Network.sortNetwork_perm (keyValue key) ascending (d := []) hlen
      (Nat.le_of_succ_le hs)
    rw [sortGroups,ih (Nat.le_of_succ_le hs)]
    exact sortGroup_plain (huni.perm hperm) hkey hwide hfit (hperm.length_eq.trans hlen) hs

end

variable (ascending) in
/-- On a power of two of uniform records the circuit sorts by the key, and only moves records. -/
lemma sort_plain (huni : Uniform bits recs) (hkey : 0<key.2)
    (hwide : key.2≤128) (hfit : key.1+key.2 ≤ bits) (hlen : recs.length=2^k) :
    ∃ out, sort plainGates recs key ascending = .ok out ∧ out.Perm recs ∧
      out.Pairwise fun a b => if ascending then keyValue key a ≤ keyValue key b
        else keyValue key b ≤ keyValue key a := by
  have hlog : Nat.log 2 recs.length=k := by rw [hlen,Nat.log_pow (by decide)]
  refine ⟨Network.sortNetwork (keyValue key) [] ascending k recs,?_,
    Network.sortNetwork_perm _ _ hlen le_rfl,Network.sortNetwork_sorted hlen⟩
  rw [sort,hlog]
  exact sortGroups_plain huni hkey hwide hfit hlen le_rfl

lemma pad_plain (length : ℕ) (value : Bool) : pad plainGates recs length bits value = .ok
    (recs ++ replicate (length-recs.length) (replicate bits value)) := by
  have hrow : ((range bits).mapM fun _ => plainGates.constant value) =
      .ok (replicate bits value) := by
    have hbits := mapM_ok (f := fun _ => plainGates.constant value) (g := fun _ => value)
      (range bits) fun _ _ => rfl
    rw [hbits,map_const',length_range]
  rw [pad,hrow,mapM_ok (g := fun _ => replicate bits value) _ fun _ _ => rfl,
    map_const', length_range]
  rfl

end

variable {α : Type} {xs : List α} {slots : List ℕ} {policy : Policy}

/-- In a list sorted by a strict order, the elements with fewer than `n` before them are the first
`n`. -/
lemma filter_countP_lt {r : α → α → Bool} (hirr : ∀ a∈xs, r a a = false) (hasy : ∀ a∈xs, ∀
    b∈xs, r a b = true → r b a = false) (hsrt : xs.Pairwise fun a b => r a b = true) (n : ℕ) :
    xs.filter (fun a => decide (xs.countP (fun b => r b a)<n)) = xs.take n := by
  induction xs generalizing n with
  | nil => simp
  | cons x xs ih =>
    obtain ⟨hx,hxs⟩ := pairwise_cons.mp hsrt
    have hhead : (x::xs).countP (fun b => r b x)=0 := by
      rw [countP_eq_zero]
      intro b hb
      obtain rfl | hb' := mem_cons.mp hb
      · simp [hirr b hb]
      · simp [hasy x mem_cons_self b hb (hx b hb')]
    have htail : ∀ a∈xs, (x::xs).countP (fun b => r b a)=xs.countP (fun b => r b a)+1 :=
      fun a ha => by rw [countP_cons,if_pos (hx a ha)]
    have ih := ih (fun a ha => hirr a (mem_cons_of_mem _ ha)) fun a ha b hb =>
      hasy a (mem_cons_of_mem _ ha) b (mem_cons_of_mem _ hb)
    cases n with
    | zero => simp
    | succ n =>
      rw [filter_cons,hhead,if_pos (by simp),take_succ_cons,← ih hxs n]
      congr 1
      refine filter_congr fun a ha => ?_
      rw [htail a ha]
      exact decide_eq_decide.mpr Nat.succ_lt_succ_iff

lemma eq_of_sorted {key : α → ℕ} {up : Bool} {xs ys : List α} (hperm : xs.Perm ys)
    (hxs : xs.Pairwise fun a b => if up then key a ≤ key b else key b ≤ key a)
    (hys : ys.Pairwise fun a b => if up then key a ≤ key b else key b ≤ key a)
    (hinj : ∀ a∈ys, ∀ b∈ys, key a = key b → a=b) : xs=ys := by
  refine Perm.eq_of_pairwise (fun a b ha hb hab hba => ?_) hxs hys hperm
  refine hinj a (hperm.mem_iff.mp ha) b hb ?_
  cases up with
  | true => exact le_antisymm hab hba
  | false => exact le_antisymm hba hab

lemma keyValue_replicate (key : ℕ × ℕ) {bits : ℕ} (hfit : key.1+key.2 ≤ bits)
    (b : Bool) : keyValue key (replicate bits b) = if b then 2^key.2-1 else 0 := by
  rw [keyValue,slice,drop_replicate,take_replicate,min_eq_left (by omega),wordValue_replicate]

lemma pairwise_append_replicate {r : α → α → Prop} {d : α} (n : ℕ) (hxs :
    xs.Pairwise r) (hd : r d d) (hlast : ∀ x∈xs, r x d) : (xs++replicate n d).Pairwise r := by
  refine pairwise_append.mpr ⟨hxs,pairwise_replicate.mpr (.inr hd),fun x hx y hy => ?_⟩
  rw [eq_of_mem_replicate hy]
  exact hlast x hx

/-- What a circuit's records have to satisfy: the rank bits order the rows as `before` does and are
never zero, and the order bits grow with the row and are never all ones. -/
structure Ranked (rows bits rank order : ℕ) (before : ℕ → ℕ → Bool)
    (record : ℕ → List Bool) : Prop where
  length : ∀ i < rows, (record i).length = bits
  rank_pos : 0 < rank ∧ rank≤128
  order_pos : 0<order ∧ order≤128
  fit : rank+order ≤ bits
  before_iff : ∀ i < rows, ∀ j < rows, before i j = true ↔
    keyValue (0,rank) (record j) < keyValue (0,rank) (record i)
  injective : ∀ i < rows, ∀ j < rows,
    keyValue (0,rank) (record i) = keyValue (0,rank) (record j) → i=j
  valid : ∀ i < rows, 0 < keyValue (0,rank) (record i)
  ascending : ∀ i j, i<j → j < rows →
    keyValue (rank,order) (record i) < keyValue (rank,order) (record j)
  below : ∀ i < rows, keyValue (rank,order) (record i)<2^order-1

/-- The rows with fewer than `keep` rows before them. -/
def firstRows (rows keep : ℕ) (before : ℕ → ℕ → Bool) : List ℕ :=
  (List.range rows).filter fun i =>
    decide (((List.range rows).filter fun j => before j i).length < keep)

section
variable {rows keep bits rank order : ℕ} {before : ℕ → ℕ → Bool} {record : ℕ → List Bool}

lemma Ranked.exists_order (h : Ranked rows bits rank order before record) :
    ∃ slots : List ℕ, slots.Perm (range rows) ∧ slots.Pairwise fun i j => before i j = true := by
  have hperm := perm_insertionSort
    (fun i j => keyValue (0,rank) (record j) ≤ keyValue (0,rank) (record i)) (range rows)
  have hsrt := pairwise_insertionSort
    (fun i j => keyValue (0,rank) (record j) ≤ keyValue (0,rank) (record i)) (range rows)
  have hnd := hperm.nodup_iff.mpr nodup_range
  refine ⟨_,hperm,(hsrt.and hnd).imp_of_mem fun {i j} hi hj hij => ?_⟩
  have hi := mem_range.mp (hperm.mem_iff.mp hi)
  have hj := mem_range.mp (hperm.mem_iff.mp hj)
  exact (h.before_iff i hi j hj).mpr (lt_of_le_of_ne hij.1 fun heq =>
    hij.2 (h.injective i hi j hj heq.symm))

variable (keep) in
lemma Ranked.take_perm (h : Ranked rows bits rank order before record)
    (hperm : slots.Perm (range rows)) (hsrt : slots.Pairwise fun i j => before i j = true) :
    (slots.take keep).Perm (firstRows rows keep before) := by
  have hmem : ∀ i∈slots, i < rows := fun i hi => mem_range.mp (hperm.mem_iff.mp hi)
  have hirr : ∀ i∈slots, before i i=false := fun i hi => by
    rw [Bool.eq_false_iff,Ne,h.before_iff i (hmem i hi) i (hmem i hi)]
    exact lt_irrefl _
  have hasy : ∀ i∈slots, ∀ j∈slots, before i j=true → before j i=false :=
    fun i hi j hj hij => by
      rw [h.before_iff i (hmem i hi) j (hmem j hj)] at hij
      rw [Bool.eq_false_iff,Ne,h.before_iff j (hmem j hj) i (hmem i hi)]
      exact hij.not_gt
  have hcnt : ∀ i, slots.countP (fun j => before j i) =
      ((range rows).filter fun j => before j i).length := fun i => by
    rw [hperm.countP_eq,countP_eq_length_filter]
  rw [← filter_countP_lt hirr hasy hsrt]
  simp only [hcnt]
  exact hperm.filter _

lemma Ranked.length_firstRows (h : Ranked rows bits rank order before record)
    (hkeep : keep ≤ rows) : (firstRows rows keep before).length = keep := by
  obtain ⟨slots,hsls,hsrt⟩ := h.exists_order
  rw [← (h.take_perm keep hsls hsrt).length_eq,length_take,hsls.length_eq,
    length_range,min_eq_left hkeep]

/-- Sorting uniform records up to the next power of two, with dummies in their place. -/
lemma sort_padded (key : ℕ × ℕ) (ascending value : Bool) {n : ℕ} {recs sorted : List (List Bool)}
    (huni : Uniform bits sorted) (hlen : sorted.length=n) (hkey : 0<key.2)
    (hwide : key.2≤128) (hfit : key.1+key.2 ≤ bits) (hperm : recs.Perm sorted)
    (hsrt : (sorted++replicate (nextPowerOfTwo n-n) (replicate bits value)).Pairwise
      fun a b => if ascending then keyValue key a ≤ keyValue key b
        else keyValue key b ≤ keyValue key a)
    (hinj : ∀ a∈sorted, ∀ b∈sorted, keyValue key a = keyValue key b → a=b)
    (hdum : ∀ a∈sorted, keyValue key a ≠ keyValue key (replicate bits value)) :
    (do
      let recs ← pad plainGates recs (nextPowerOfTwo n) bits value
      sort plainGates recs key ascending) =
      .ok (sorted++replicate (nextPowerOfTwo n-n) (replicate bits value)) := by
  have hpadl : n ≤ nextPowerOfTwo n := Nat.le_pow_clog (by decide) n
  have hrec : recs.length=n := hperm.length_eq.trans hlen
  have hall := hperm.append_right (replicate (nextPowerOfTwo n-n) (replicate bits value))
  have huniform' : Uniform bits (sorted++replicate (nextPowerOfTwo n-n)
      (replicate bits value)) := by
    intro r hr
    obtain hr | hr := mem_append.mp hr
    · exact huni r hr
    · rw [eq_of_mem_replicate hr,length_replicate]
  obtain ⟨out,hout,houtp,houts⟩ := sort_plain ascending (k := ceilLog2 n)
    (huniform'.perm hall) hkey hwide hfit (by
      rw [length_append,hrec,length_replicate]
      exact Nat.add_sub_cancel' hpadl)
  rw [pad_plain,ok_bind,hrec,hout]
  refine congrArg _ (eq_of_sorted (houtp.trans hall) houts hsrt ?_)
  intro a ha b hb hab
  obtain ha | ha := mem_append.mp ha
  · obtain hb | hb := mem_append.mp hb
    · exact hinj a ha b hb hab
    · rw [eq_of_mem_replicate hb] at hab
      exact absurd hab (hdum a ha)
  · obtain hb | hb := mem_append.mp hb
    · rw [eq_of_mem_replicate ha] at hab
      exact absurd hab.symm (hdum b hb)
    · rw [eq_of_mem_replicate ha,eq_of_mem_replicate hb]

section
variable (h : Ranked rows bits rank order before record)
include h

lemma Ranked.uniform (hsls : ∀ i∈slots, i < rows) : Uniform bits (slots.map record) := by
  intro r hr
  obtain ⟨i,hi,rfl⟩ := mem_map.mp hr
  exact h.length i (hsls i hi)

lemma Ranked.ascending_injective {i j : ℕ} (hi : i < rows) (hj : j < rows) (heq : keyValue
    (rank,order) (record i) = keyValue (rank,order) (record j)) : i=j := by
  obtain hlt | heq' | hlt := lt_trichotomy i j
  · exact absurd heq (h.ascending i j hlt hj).ne
  · exact heq'
  · exact absurd heq (h.ascending j i hlt hi).ne'

lemma topRecords_plain (hkeep : keep ≤ rows) : topRecords plainGates ((range rows).map record)
    rows keep bits rank order = .ok ((firstRows rows keep before).map record) := by
  obtain ⟨slots,hsls,hsrt⟩ := h.exists_order
  have hmem : ∀ i∈slots, i < rows := fun i hi => mem_range.mp (hsls.mem_iff.mp hi)
  have hslotslen : slots.length=rows := hsls.length_eq.trans length_range
  have hfit := h.fit
  have hfitR : (0,rank).1+(0,rank).2 ≤ bits := by
    omega
  have hzero := keyValue_replicate _ hfitR false
  have hones := keyValue_replicate (rank,order) hfit true
  -- the first sort leaves the rows in rank order, with the dummies behind them
  have hfst := sort_padded (0,rank) false false (h.uniform hmem) (by rw [length_map,hslotslen])
    h.rank_pos.1 h.rank_pos.2 hfitR (hsls.symm.map record)
    (by
      refine pairwise_append_replicate _ (pairwise_map.mpr ?_) (by simp) ?_
      · refine hsrt.imp_of_mem fun {i j} hi hj hij => ?_
        simpa using ((h.before_iff i (hmem i hi) j (hmem j hj)).mp hij).le
      · simp [hzero])
    (by
      intro a ha b hb hab
      obtain ⟨i,hi,rfl⟩ := mem_map.mp ha
      obtain ⟨j,hj,rfl⟩ := mem_map.mp hb
      rw [h.injective i (hmem i hi) j (hmem j hj) hab])
    (by
      intro a ha
      obtain ⟨i,hi,rfl⟩ := mem_map.mp ha
      rw [hzero]
      exact (h.valid i (hmem i hi)).ne')
  have htake := h.take_perm keep hsls hsrt
  have hkept : ∀ i ∈ firstRows rows keep before, i < rows := fun i hi =>
    mem_range.mp (mem_filter.mp hi).1
  have hkep := h.length_firstRows hkeep
  have hkeptsorted : (firstRows rows keep before).Pairwise fun i j => i<j :=
    pairwise_lt_range.filter _
  -- the second sort puts the kept rows in position order, before the dummies
  have hsnd := sort_padded (rank,order) true true (h.uniform hkept) (by rw [length_map,hkep])
    h.order_pos.1 h.order_pos.2 hfit (htake.map record)
    (by
      refine pairwise_append_replicate _ (pairwise_map.mpr ?_) (by simp) ?_
      · refine hkeptsorted.imp_of_mem fun {i j} hi hj hij => ?_
        simpa using (h.ascending i j hij (hkept j hj)).le
      · intro r hr
        obtain ⟨i,hi,rfl⟩ := mem_map.mp hr
        rw [hones]
        exact (h.below i (hkept i hi)).le)
    (by
      intro a ha b hb hab
      obtain ⟨i,hi,rfl⟩ := mem_map.mp ha
      obtain ⟨j,hj,rfl⟩ := mem_map.mp hb
      rw [h.ascending_injective (hkept i hi) (hkept j hj) hab])
    (by
      intro a ha
      obtain ⟨i,hi,rfl⟩ := mem_map.mp ha
      rw [hones]
      exact (h.below i (hkept i hi)).ne)
  obtain ⟨padded,hpad,hsort⟩ := bind_eq_ok.mp hfst
  obtain ⟨padded',hpad',hsort'⟩ := bind_eq_ok.mp hsnd
  have htak : (slots.map record++replicate (nextPowerOfTwo rows-rows)
      (replicate bits false)).take keep = (slots.take keep).map record := by
    rw [take_append_of_le_length (by rw [length_map]; omega),map_take]
  rw [topRecords,hpad,ok_bind,hsort,ok_bind,htak,hpad',ok_bind,hsort',ok_bind,
    pure_eq_ok,take_left' (by rw [length_map,hkep])]

end

end

lemma constantWord_plain (value : ℕ) {width : ℕ} (hpos : 0<width) (hwide : width≤128)
    (h : value<2^width) :
    constantWord plainGates value width = .ok ((range width).map value.testBit) := by
  rw [constantWord,if_neg (by omega)]
  exact mapM_ok _ fun _ _ => rfl

/-- The rank bits of a row in plain. -/
def rankRecord (rows recent slot : ℕ) (score : List Bool) : List Bool :=
  (List.range (indexBits rows)).map (2^indexBits rows-1-slot).testBit++score
    ++ [decide (slot≥rows-recent),true]

section
variable {rows recent slot base : ℕ} {score : List Bool}

lemma indexBits_bounds (h : rows ≤ maxSelectionRows) :
    0 < indexBits rows ∧ indexBits rows ≤ 9 ∧ rows ≤ 2^indexBits rows := by
  have hlog : ceilLog2 rows ≤ 9 := Nat.clog_le_of_le_pow h
  refine ⟨by simp only [indexBits]; omega,by simp only [indexBits]; omega,?_⟩
  exact (Nat.le_pow_clog (by decide) rows).trans
    (Nat.pow_le_pow_right (by decide) (le_max_left _ _))

lemma rankWord_plain (h : rows ≤ maxSelectionRows) (score : List Bool) :
    rankWord plainGates rows recent slot score = .ok (rankRecord rows recent slot score) := by
  obtain ⟨hpos,hle,-⟩ := indexBits_bounds h
  have hpow := Nat.two_pow_pos (indexBits rows)
  rw [rankWord,constantWord_plain _ hpos (by omega) (by omega)]
  rfl

lemma length_rankRecord (rows recent slot : ℕ) (h : score.length=32) :
    (rankRecord rows recent slot score).length = rankBits rows := by
  simp [rankRecord,rankBits,h]

lemma wordValue_rankRecord (h : score.length=32) :
    wordValue (rankRecord rows recent slot score) = 2^indexBits rows-1-slot
      +2^indexBits rows*(wordValue score+2^32*((decide (slot≥rows-recent)).toNat+2)) := by
  have hpow := Nat.two_pow_pos (indexBits rows)
  rw [rankRecord,append_assoc,wordValue_append,wordValue_append,wordValue_testBit,
    Nat.mod_eq_of_lt (by omega),length_map,length_range,h]
  rfl

lemma base_lt {a b c d : ℕ} (ha : a<base) (hc : c<base) :
    a+base*b < c+base*d ↔ b<d ∨ (b=d ∧ a < c) := by
  obtain hlt | rfl | hlt := lt_trichotomy b d
  · have hle := Nat.mul_le_mul_left base (Nat.succ_le_of_lt hlt)
    rw [Nat.mul_succ] at hle
    exact ⟨fun _ => .inl hlt,fun _ => by omega⟩
  · exact ⟨fun h => .inr ⟨rfl,by omega⟩,fun h => by omega⟩
  · have hle := Nat.mul_le_mul_left base (Nat.succ_le_of_lt hlt)
    rw [Nat.mul_succ] at hle
    exact ⟨fun h => by omega,fun h => by omega⟩

lemma length_pushWord (v : BitVec 32) : (pushWord v).length = 32 := by simp [pushWord]

lemma rank_order (a b : Bool) {x y i j word : ℕ} (hx : x<word) (hy : y<word) (hi : i<base)
    (hj : j<base) : ((a && !b) || (a==b && (decide (x>y) || (decide (x=y) && decide (i<j)))))=true ↔
    base-1-j+base*(y+word*(b.toNat+2)) < base-1-i+base*(x+word*(a.toNat+2)) := by
  rw [base_lt (by omega) (by omega)]
  cases a <;> cases b <;> simp <;> omega

section
variable (h : rows ≤ maxSelectionRows) (scores : List Float32) {i j : ℕ} (hi : i < rows) (hj : j < rows)
include h hi hj

lemma rank_lt_iff : ranksBefore rows recent scores i j = true ↔
      wordValue (rankRecord rows recent j (pushWord (scoreBits (scores.getD j 0)))) <
        wordValue (rankRecord rows recent i (pushWord (scoreBits (scores.getD i 0)))) := by
  obtain ⟨-,-,hrows⟩ := indexBits_bounds h
  rw [wordValue_rankRecord (length_pushWord _),wordValue_rankRecord (length_pushWord _),
    wordValue_pushWord,wordValue_pushWord]
  exact rank_order _ _ (BitVec.isLt _) (BitVec.isLt _) (by omega) (by omega)

lemma rank_injective
    (heq : wordValue (rankRecord rows recent i (pushWord (scoreBits (scores.getD i 0)))) =
      wordValue (rankRecord rows recent j (pushWord (scoreBits (scores.getD j 0))))) : i=j := by
  obtain ⟨-,-,hrows⟩ := indexBits_bounds h
  have hmod := congrArg (·%2^indexBits rows) heq
  simp only [wordValue_rankRecord (length_pushWord _),Nat.add_mul_mod_self_left] at hmod
  rw [Nat.mod_eq_of_lt (by omega),Nat.mod_eq_of_lt (by omega)] at hmod
  omega

end

/-- Both circuits' records: the rank bits of a row, then bits that order the output. -/
lemma ranked_of_order (h : rows ≤ maxSelectionRows) (recent bits order : ℕ) (scores : List Float32)
    (rest : ℕ → List Bool) (hlen : ∀ i < rows, (rest i).length = bits) (hord : 0<order ∧ order≤128)
    (hfit : order ≤ bits) (hasc : ∀ i j, i<j → j < rows → keyValue (0,order) (rest i)
    < keyValue (0,order) (rest j)) (hblw : ∀ i < rows, keyValue (0,order) (rest i)<2^order-1) :
    Ranked rows (rankBits rows+bits) (rankBits rows) order (ranksBefore rows recent scores)
    fun i => rankRecord rows recent i (pushWord (scoreBits (scores.getD i 0)))++rest i := by
  obtain ⟨-,hle,-⟩ := indexBits_bounds h
  have hran := fun i => length_rankRecord rows recent i
    (length_pushWord (scoreBits (scores.getD i 0)))
  have hrank : ∀ i, keyValue (0,rankBits rows)
      (rankRecord rows recent i (pushWord (scoreBits (scores.getD i 0)))++rest i) =
        wordValue (rankRecord rows recent i (pushWord (scoreBits (scores.getD i 0)))) :=
    fun i => by rw [keyValue,slice_append_left _ (hran i)]
  have hrest : ∀ i, keyValue (rankBits rows,order)
      (rankRecord rows recent i (pushWord (scoreBits (scores.getD i 0)))++rest i) =
        keyValue (0,order) (rest i) :=
    fun i => by rw [keyValue,slice_append_right _ _ (hran i).le,hran i,tsub_self,
      keyValue]
  refine ⟨fun i hi => ?_,⟨?_,?_⟩,hord,Nat.add_le_add_left hfit _,fun i hi j hj => ?_,
    fun i hi j hj heq => ?_,fun i hi => ?_,fun i j hij hj => ?_,fun i hi => ?_⟩
  · rw [length_append,hran i,hlen i hi]
  · simp only [rankBits]
    omega
  · simp only [rankBits]
    omega
  · rw [hrank,hrank]
    exact rank_lt_iff h scores hi hj
  · rw [hrank,hrank] at heq
    exact rank_injective h scores hi hj heq
  · have hpow := Nat.two_pow_pos (indexBits rows)
    rw [hrank,wordValue_rankRecord (length_pushWord _)]
    exact Nat.add_pos_right _ (mul_pos hpow (by omega))
  · rw [hrest,hrest]
    exact hasc i j hij hj
  · rw [hrest]
    exact hblw i hi

end

/-- The rows of an active cache, with a score each. The cache keeps positions below `maxPosition`, so
none spells the word of a dummy record. -/
structure Rows (scores keys values : List Float32) (pos : List (BitVec 32)) (width : ℕ) :
    Prop where
  scores : scores.length=pos.length
  keys : keys.length=pos.length*width
  values : values.length=pos.length*width
  admitted : pos.length ≤ maxSelectionRows
  increasing : pos.Pairwise fun p q => p.toNat<q.toNat
  below : ∀ p∈pos, p.toNat<2^32-1

section
variable {scores keys values : List Float32} {pos : List (BitVec 32)} {width : ℕ}

lemma length_rowBits (h : Rows scores keys values pos width) {row : ℕ} (hrow :
    row<pos.length) : (rowBits keys values pos width row).length = 32+64*width := by
  have hfit : row*width+width≤pos.length*width := by
    rw [← Nat.succ_mul]
    exact Nat.mul_le_mul_right _ hrow
  have hkeys : (slice keys (row*width) width).length=width := length_slice (h.keys ▸ hfit)
  have hvals : (slice values (row*width) width).length=width := length_slice (h.values ▸ hfit)
  rw [rowBits,length_append,length_pushWord,
    length_flatMap_const _ fun v _ => length_pushWord v, length_append, hkeys, hvals]
  omega

lemma declaredInputs_inputBits (h : Rows scores keys values pos width) : declaredInputs width
    (inputBits scores keys values pos width) = (range pos.length).map fun row =>
    (pushWord (scoreBits (scores.getD row 0)),rowBits keys values pos width row) := by
  have hlis : (pos.zip scores).zipIdx=(range pos.length).map fun row =>
      ((pos.getD row 0,scores.getD row 0),row) := by
    have hsco := h.scores
    refine ext_getElem (by simp [hsco]) fun i hi hi' => ?_
    have hpos : i<pos.length := by simpa using hi'
    rw [getElem_zipIdx,getElem_zip,getElem_map,getElem_range,
      getD_eq_getElem _ _ hpos,getD_eq_getElem _ _ (hsco.symm ▸ hpos),zero_add]
  have hbits : inputBits scores keys values pos width =
      (range pos.length).flatMap fun row =>
        pushWord (scoreBits (scores.getD row 0))++rowBits keys values pos width row := by
    rw [inputBits,hlis,flatMap_map]
    simp only [rowBits,append_assoc]
  have hchu : ∀ row ∈ range pos.length, (pushWord (scoreBits (scores.getD row 0))
      ++ rowBits keys values pos width row).length = 64+64*width := fun row hrow => by
    rw [length_append,length_pushWord,length_rowBits h (mem_range.mp hrow)]
    omega
  rw [declaredInputs,hbits,chunksExact_flatMap (by omega) _ hchu,map_map]
  refine map_congr_left fun row _ => ?_
  rw [Function.comp_apply,take_left' (length_pushWord _),drop_left' (length_pushWord _)]

/-- The rank word of every row, with the rest of its record appended. -/
lemma records_plain (rows recent : ℕ) (inputs : ℕ → List Bool × List Bool) (rest : ℕ → List Bool)
    {f : List Bool × List Bool → ℕ → Except String (List Bool)} (hf : ∀ slot < rows,
    f (inputs slot) slot = .ok (rankRecord rows recent slot (inputs slot).1 ++ rest slot)) :
    ((range rows).map inputs).zipIdx.mapM (fun (input,slot) => f input slot) = .ok
    ((range rows).map fun slot => rankRecord rows recent slot (inputs slot).1++rest slot) := by
  have hlist : ((range rows).map inputs).zipIdx=(range rows).map fun slot =>
      (inputs slot,slot) := by
    refine ext_getElem (by simp) fun i hi hi' => ?_
    simp
  rw [hlist,mapM_eq_ok,forall₂_map_left_iff,forall₂_map_right_iff,forall₂_same]
  exact fun slot hslot => hf slot (mem_range.mp hslot)

lemma firstRows_lt {rows keep row : ℕ} {before : ℕ → ℕ → Bool}
    (h : row ∈ firstRows rows keep before) : row < rows :=
  mem_range.mp (mem_filter.mp h).1

/-- Full records order the output by position. -/
lemma Rows.ranked (h : Rows scores keys values pos width)
    (recent : ℕ) : Ranked pos.length (rankBits pos.length+(32+64*width)) (rankBits pos.length) 32
    (ranksBefore pos.length recent scores) fun row => rankRecord pos.length recent row
    (pushWord (scoreBits (scores.getD row 0))) ++ rowBits keys values pos width row := by
  have hword : ∀ row, keyValue (0,32) (rowBits keys values pos width row) =
      (pos.getD row 0).toNat := fun row => by
    rw [keyValue,rowBits,slice_append_left _ (length_pushWord _),wordValue_pushWord]
  refine ranked_of_order h.admitted recent _ _ scores _ (fun row hrow => length_rowBits h hrow)
    ⟨by decide,by decide⟩ (by omega) (fun i j hij hj => ?_) fun i hi => ?_
  · rw [hword,hword,getD_eq_getElem _ _ (hij.trans hj),getD_eq_getElem _ _ hj]
    exact pairwise_iff_getElem.mp h.increasing i j _ _ hij
  · rw [hword,getD_eq_getElem _ _ hi]
    exact h.below _ (getElem_mem hi)

/-- The full records carry the payload through both sorts. -/
lemma fullRecords_plain (h : Rows scores keys values pos width)
    (hkeep : policy.keep≤pos.length) : fullRecords plainGates pos.length width policy
    (declaredInputs width (inputBits scores keys values pos width)) = .ok
    ((selectedRows pos.length policy scores).flatMap (rowBits keys values pos width)) := by
  have hranked := h.ranked policy.recent
  rw [← add_assoc] at hranked
  have hrecs := records_plain pos.length policy.recent
    (fun row => (pushWord (scoreBits (scores.getD row 0)),rowBits keys values pos width row))
    (rowBits keys values pos width)
    (f := fun (score,payload) slot => do
      let row ← rankWord plainGates pos.length policy.recent slot score
      return row++payload)
    (fun slot _ => by
      simp only [rankWord_plain h.admitted,ok_bind,pure_eq_ok])
  rw [fullRecords,declaredInputs_inputBits h,hrecs,ok_bind,topRecords_plain hranked hkeep,
    ok_bind,pure_eq_ok,flatMap_map]
  refine congrArg _ (flatMap_congr fun row _ => ?_)
  exact drop_left' (length_rankRecord _ _ _ (length_pushWord _))

lemma foldl_and (f : ℕ → Bool) (n : ℕ) : (range' 1 n).foldl
    (fun flag bit => flag && f bit) (f 0) = decide (∀ bit<n+1, f bit = true) := by
  induction n with
  | zero => simp
  | succ n ih =>
    rw [range'_concat,foldl_append,ih]
    simp only [foldl_cons,foldl_nil]
    rw [Bool.eq_iff_iff]
    simp only [Bool.and_eq_true,decide_eq_true_eq]
    constructor
    · rintro ⟨hall,hlast⟩ bit hbit
      obtain hbit | rfl := Nat.lt_succ_iff_lt_or_eq.mp hbit
      · exact hall bit hbit
      · rwa [one_mul,add_comm 1 n] at hlast
    · intro hall
      refine ⟨fun bit hbit => hall bit (by omega),?_⟩
      rw [one_mul,add_comm 1 n]
      exact hall (n+1) (by omega)

lemma slotFlag_plain {slot old n : ℕ} (hslot : slot<2^(n+1)) (hori : old<2^(n+1)) :
    slotFlag plainGates ((range (n+1)).map slot.testBit)
      ((range (n+1)).map fun bit => !slot.testBit bit) old = .ok (decide (slot=old)) := by
  have hbit : ∀ bit<n+1, (if old.testBit bit
      then ((range (n+1)).map slot.testBit).getD bit default
      else ((range (n+1)).map fun bit => !slot.testBit bit).getD bit default) =
        (slot.testBit bit==old.testBit bit) := fun bit hbit => by
    rw [getD_eq_getElem _ _ (by simpa using hbit),getD_eq_getElem _ _ (by simpa using hbit)]
    simp only [getElem_map,getElem_range]
    cases old.testBit bit <;> cases slot.testBit bit <;> rfl
  obtain ⟨hfold,-⟩ := foldlM_ok (P := fun _ => True)
    (f := fun flag bit => plainGates.and flag (if old.testBit bit
      then ((range (n+1)).map slot.testBit).getD bit default
      else ((range (n+1)).map fun bit => !slot.testBit bit).getD bit default))
    (g := fun flag bit => flag && (if old.testBit bit
      then ((range (n+1)).map slot.testBit).getD bit default
      else ((range (n+1)).map fun bit => !slot.testBit bit).getD bit default))
    (range' 1 n) (if old.testBit 0
      then ((range (n+1)).map slot.testBit).getD 0 default
      else ((range (n+1)).map fun bit => !slot.testBit bit).getD 0 default)
    trivial (fun _ _ _ _ => ⟨rfl,trivial⟩)
  rw [slotFlag,length_map,length_range]
  refine hfold.trans (congrArg _ ?_)
  rw [foldl_and fun bit => if old.testBit bit
    then ((range (n+1)).map slot.testBit).getD bit default
    else ((range (n+1)).map fun bit => !slot.testBit bit).getD bit default]
  refine decide_eq_decide.mpr ⟨fun hall => Nat.eq_of_testBit_eq fun bit => ?_,fun heq bit hbit' => ?_⟩
  · by_cases hlt : bit<n+1
    · have hsame := hall bit hlt
      rw [hbit bit hlt] at hsame
      exact eq_of_beq hsame
    · have hpow : 2^(n+1)≤2^bit := Nat.pow_le_pow_right (by decide) (by omega)
      rw [Nat.testBit_lt_two_pow (by omega),Nat.testBit_lt_two_pow (by omega)]
  · rw [hbit bit hbit',heq]
    exact beq_self_eq_true _

lemma gatherBit_plain {rows slot bit : ℕ} (hslot : slot < rows) (inputs : ℕ → List Bool × List Bool)
    : gatherBit plainGates ((range rows).map fun old => decide (slot=old))
    ((range rows).map inputs) rows bit = .ok ((inputs slot).2.getD bit default) := by
  have hread : ∀ row < rows, (((range rows).map fun old =>
      decide (slot=old)).getD row default && (((range rows).map inputs).getD row
        default).2.getD bit default) = (decide (slot=row) && (inputs row).2.getD bit default) :=
    fun row hrow => by
      have hinp : ((range rows).map inputs).getD row default=inputs row := by
        rw [getD_eq_getElem _ _ (by simpa using hrow),getElem_map,getElem_range]
      rw [hinp,getD_eq_getElem _ _ (by simpa using hrow),getElem_map,getElem_range]
  have hscan : ∀ n < rows, ((range' 1 n).foldlM (fun value row => do
      let selected ← plainGates.and (((range rows).map fun old =>
        decide (slot=old)).getD row default) ((((range rows).map inputs).getD row
          default).2.getD bit default)
      plainGates.xor value selected) (decide (slot=0) && (inputs 0).2.getD bit default)) =
        .ok (decide (slot≤n) && (inputs slot).2.getD bit default) := by
    intro n
    induction n with
    | zero =>
      by_cases h0 : slot=0
      · subst h0
        simp
      · simp [h0]
    | succ n ih =>
      intro hn
      rw [range'_concat,foldlM_append,ih (by omega),ok_bind,one_mul,add_comm 1 n]
      simp only [foldlM_cons,foldlM_nil,plainGates,ok_bind,pure_eq_ok,hread (n+1) hn]
      obtain hlt | heq | hgt := lt_trichotomy slot (n+1)
      · rw [decide_eq_true (by omega),decide_eq_false (by omega),decide_eq_true (by omega)]
        simp
      · subst heq
        simp
      · rw [decide_eq_false (by omega),decide_eq_false (by omega),decide_eq_false (by omega)]
        simp
  rw [gatherBit]
  have hfst := hread 0 (by omega)
  simp only [plainGates,ok_bind] at hscan ⊢
  rw [hfst,hscan (rows-1) (by omega),decide_eq_true (by omega),Bool.true_and]

/-- The compact records sort slots only; the scan fetches the payload of each slot. -/
lemma compactIndices_plain (h : Rows scores keys values pos width)
    (hkeep : policy.keep≤pos.length) : compactIndices plainGates pos.length width policy
    (declaredInputs width (inputBits scores keys values pos width)) = .ok
    ((selectedRows pos.length policy scores).flatMap (rowBits keys values pos width)) := by
  obtain ⟨hpos,hle,hrows⟩ := indexBits_bounds h.admitted
  have hslo : ∀ slot : ℕ, ((range (indexBits pos.length+1)).map slot.testBit).length =
        indexBits pos.length+1 := fun slot => by simp
  have hword : ∀ slot<pos.length, keyValue (0,indexBits pos.length+1)
      ((range (indexBits pos.length+1)).map slot.testBit)=slot := fun slot hslot => by
    rw [keyValue,slice,drop_zero,take_of_length_le (hslo slot).le,
      wordValue_testBit,Nat.mod_eq_of_lt (by omega)]
  have hranked := ranked_of_order h.admitted policy.recent (indexBits pos.length+1) (indexBits
    pos.length+1) scores (fun slot => (range (indexBits pos.length+1)).map slot.testBit)
    (fun slot _ => hslo slot) ⟨by omega,by omega⟩ le_rfl (fun i j hij hj => by rwa [hword i
    (hij.trans hj),hword j hj])
    (fun i hi => by
      rw [hword i hi]
      omega)
  have hrecs := records_plain pos.length policy.recent
    (fun row => (pushWord (scoreBits (scores.getD row 0)),rowBits keys values pos width row))
    (fun slot => (range (indexBits pos.length+1)).map slot.testBit)
    (f := fun p slot => do
      let row ← rankWord plainGates pos.length policy.recent slot p.1
      let slotWord ← constantWord plainGates slot (indexBits pos.length+1)
      return row++slotWord)
    (fun slot hslot => by
      simp only [rankWord_plain h.admitted,ok_bind,pure_eq_ok,
        constantWord_plain slot (Nat.succ_pos _) (le_trans (Nat.succ_le_succ hle) (by decide))
          (show slot < 2^(indexBits pos.length+1) by omega)])
  have hgat : ((firstRows pos.length policy.keep
      (ranksBefore pos.length policy.recent scores)).map fun slot =>
        rankRecord pos.length policy.recent slot (pushWord (scoreBits (scores.getD slot 0)))
          ++ (range (indexBits pos.length+1)).map slot.testBit).mapM (fun record => do
      let slot := record.drop (rankBits pos.length)
      let inverted ← slot.mapM plainGates.not
      let flags ← (range pos.length).mapM (slotFlag plainGates slot inverted)
      (range (32+64*width)).mapM (gatherBit plainGates flags
        ((range pos.length).map fun row =>
          (pushWord (scoreBits (scores.getD row 0)),rowBits keys values pos width row))
        pos.length)) =
      .ok ((selectedRows pos.length policy scores).map
        (rowBits keys values pos width)) := by
    rw [mapM_eq_ok,forall₂_map_left_iff,forall₂_map_right_iff]
    refine forall₂_same.mpr fun slot hslot => ?_
    have hlt := firstRows_lt hslot
    have hnot := mapM_ok (f := plainGates.not) (g := fun bit => !bit)
      ((range (indexBits pos.length+1)).map slot.testBit) fun _ _ => rfl
    have hfla := mapM_ok (range pos.length)
      (f := slotFlag plainGates ((range (indexBits pos.length+1)).map slot.testBit)
        ((range (indexBits pos.length+1)).map fun bit => !slot.testBit bit))
      (g := fun old => decide (slot=old)) fun old hori =>
        slotFlag_plain (by omega) (by
          have := mem_range.mp hori
          omega)
    have hbits := mapM_ok (range (32+64*width))
      (f := gatherBit plainGates ((range pos.length).map fun old =>
        decide (slot=old)) ((range pos.length).map fun row =>
          (pushWord (scoreBits (scores.getD row 0)),rowBits keys values pos width row))
        pos.length)
      (g := fun bit => (rowBits keys values pos width slot).getD bit default)
      fun bit _ => gatherBit_plain hlt _
    rw [map_map] at hnot
    simp only [drop_left' (length_rankRecord pos.length _ _ (length_pushWord _))]
    rw [hnot,ok_bind]
    simp only [Function.comp_def]
    rw [hfla,ok_bind,hbits]
    refine congrArg _ (ext_getElem (by simp [length_rowBits h hlt]) fun i hi hi' => ?_)
    rw [getElem_map,getElem_range,getD_eq_getElem _ _ hi']
  rw [compactIndices,declaredInputs_inputBits h,hrecs,ok_bind,topRecords_plain hranked hkeep,
    ok_bind,hgat,ok_bind,pure_eq_ok,flatMap]

end

/-- Both circuits give the words of the selected rows: as many as the policy keeps, in strictly
increasing position order. -/
theorem selection_circuits_agree {scores keys values : List Float32} {pos : List (BitVec 32)}
    {width : ℕ} (h : Rows scores keys values pos width) (policy : Policy)
    (hkeep : policy.keep≤pos.length) (layout : Layout) :
    evaluatePlain layout pos.length width policy
        (inputBits scores keys values pos width) =
      .ok ((selectedRows pos.length policy scores).flatMap
        (rowBits keys values pos width)) ∧
    (selectedRows pos.length policy scores).length = policy.keep ∧
    (selectedRows pos.length policy scores).Pairwise fun i j =>
      (pos.getD i 0).toNat < (pos.getD j 0).toNat := by
  refine ⟨?_,(h.ranked policy.recent).length_firstRows hkeep,?_⟩
  · cases layout with
    | fullRecords => exact fullRecords_plain h hkeep
    | compactIndices => exact compactIndices_plain h hkeep
  · have hsrt : (selectedRows pos.length policy scores).Pairwise fun i j => i<j :=
      pairwise_lt_range.filter _
    refine hsrt.imp_of_mem fun {i j} hi hj hij => ?_
    have hj' : j<pos.length := firstRows_lt hj
    rw [getD_eq_getElem _ _ (hij.trans hj'),getD_eq_getElem _ _ hj']
    exact pairwise_iff_getElem.mp h.increasing i j _ _ hij

theorem selection_circuits_agree_at :
    evaluatePlain .compactIndices 3 1 ⟨2,1⟩ (inputBits [1,5,1] [10,20,30] [40,50,60] [2,4,9] 1) =
      .ok ([1,2].flatMap (rowBits [10,20,30] [40,50,60] [2,4,9] 1)) := by
  have hsel : selectedRows 3 ⟨2,1⟩ [1,5,1]=[1,2] := by decide
  have hrows : Rows [1,5,1] [10,20,30] [40,50,60] [2,4,9] 1 :=
    ⟨rfl,rfl,rfl,by decide,by decide,by simp⟩
  exact hsel ▸ (selection_circuits_agree hrows ⟨2,1⟩ (by decide) .compactIndices).1

end Pllm.Retained
