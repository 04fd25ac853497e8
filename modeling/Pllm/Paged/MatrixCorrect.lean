import Pllm.Paged.IndexCorrect
import Pllm.Common.Pieces

/-! Paged matrices compute what resident ones do. -/
namespace Pllm.Paged
open Pllm.Lib PagedMatrix List Nat Except

namespace Matrix
variable {α β : Type} [Inhabited β] (self : Matrix) (kernel : List Byte → List α → β) (x : List α)
  (batch : ℕ)

/-- The result for row `i` of the weights and row `b` of the input. -/
def value (b i : ℕ) : β := kernel (row self.cols self.weights i) (row self.cols x b)

lemma product_eq : self.product kernel x batch =
    (range batch).flatMap fun b => (range self.rows).map (self.value kernel x b) := by
  unfold product transposeResult
  split
  · subst batch
    rw [range_one,flatMap_singleton]
    exact flatMap_pure_eq_map _ _
  · refine flatMap_congr fun b hb => map_congr_left fun i hi => ?_
    rw [mem_range] at hb hi
    set call := fun i => (range batch).map fun b =>
      kernel (row self.cols self.weights i) (row self.cols x b) with hcall
    have hleng : ∀ i ∈ range self.rows, (call i).length=batch := by simp [hcall]
    have hrow := row_flatMap hleng (i := i) (by rwa [length_range])
    rw [getElem_range] at hrow
    have hget : ((range self.rows).flatMap call)[i*batch+b]? = (call i)[b]? := by
      rw [← hrow,row,getElem?_slice,if_pos hb]
    rw [getD_eq_getElem?_getD,hget,getElem?_map,getElem?_range hb]
    rfl

@[simp] lemma length_product : (self.product kernel x batch).length = batch*self.rows := by
  rw [product_eq,length_flatMap_const (n := self.rows) _ fun b _ => by simp, length_range,
    mul_comm]

lemma slice_product {b start len : ℕ} (hb : b<batch) (hlen : start+len ≤ self.rows) :
    slice (self.product kernel x batch) (b*self.rows+start) len =
      (range len).map fun j => self.value kernel x b (start+j) := by
  have hleng : ∀ b ∈ range batch,
      ((range self.rows).map (self.value kernel x b)).length = self.rows := by simp
  have hrow := row_flatMap hleng (i := b) (by rwa [length_range])
  rw [← product_eq,row] at hrow
  rw [← slice_slice _ hlen,hrow,slice,← map_drop]
  refine ext_getElem? fun j => ?_
  by_cases hj : j<len
  · simp [hj,show start+j < self.rows by omega]
  · simp [hj]

end Matrix

/-- The rows of page `i`. -/
def part (cols pageRows : ℕ) (data : List Byte) (i : ℕ) : List Byte :=
  slice data (pageRows*cols*i) (pageRows*cols)

/-- A paged matrix whose pages decode to the rows of `data`. -/
structure Holds (inflate : Inflate) (paged : PagedMatrix) (data : List Byte) : Prop where
  rows_pos : 0<paged.rows
  cols_pos : 0<paged.cols
  rows_le : paged.rows≤1048576
  cols_le : paged.cols≤1048576
  pageRows_pos : 0<paged.pageRows
  length : data.length=paged.rows*paged.cols
  count : paged.pages.length = pageCount paged.rows paged.pageRows
  pages : ∀ (i : ℕ) (page : Page), paged.pages[i]? = some page →
    decode inflate paged.file page = .ok (part paged.cols paged.pageRows data i) ∧
    page.decoded = (rowRange paged.rows paged.pageRows i).2*paged.cols
  maxWeight : paged.maxWeight = maxMagnitude data

lemma maxMagnitude_le (bytes : List Byte) : maxMagnitude bytes ≤ 128 := by
  have hfold : ∀ (xs : List ℕ) (init : ℕ), init≤128 → (∀ x∈xs, x≤128) →
      xs.foldl max init ≤ 128 := by
    intro xs
    induction xs with
    | nil => exact fun init hinit _ => hinit
    | cons x xs ih =>
      intro init hinit hall
      exact ih _ (max_le hinit (hall x mem_cons_self)) fun y hy => hall y (mem_cons_of_mem _ hy)
  refine hfold _ 0 (by decide) fun x hx => ?_
  obtain ⟨b,-,rfl⟩ := mem_map.mp hx
  have hlow := BitVec.le_toInt b
  have hhigh := BitVec.toInt_lt (x := b)
  omega

lemma maxMagnitude_eq (bytes : List Byte) (init : ℕ) :
    (bytes.map fun value => value.toInt.natAbs).foldl max init = max init (maxMagnitude bytes) := by
  unfold maxMagnitude
  generalize bytes.map (fun value => value.toInt.natAbs)=xs
  induction xs using reverseRecOn with
  | nil => simp
  | append_singleton xs x ih => simp [ih,max_assoc]

lemma maxMagnitude_append (xs ys : List Byte) :
    maxMagnitude (xs++ys) = max (maxMagnitude xs) (maxMagnitude ys) := by
  rw [maxMagnitude,map_append,foldl_append,maxMagnitude_eq]
  rfl

lemma maxMagnitude_slice_le (data : List Byte) (start len : ℕ) :
    maxMagnitude (slice data start len) ≤ maxMagnitude data := by
  have hspl : data=data.take start++(slice data start len++(data.drop start).drop len) := by
    rw [slice,take_append_drop,take_append_drop]
  conv_rhs => rw [hspl,maxMagnitude_append,maxMagnitude_append]
  exact (le_max_left _ _).trans (le_max_right _ _)

variable {i j p : ℕ} {u : Unit} {zlib : List Byte → List Byte}

section
variable {inflate : Inflate} {paged : PagedMatrix} {data : List Byte}

/-- The resident matrix of the same weights. -/
def Holds.resident (_ : Holds inflate paged data) : Matrix :=
  ⟨data,paged.rows,paged.cols,maxMagnitude data⟩

/-- A page as a matrix of its own. -/
structure IsPage (paged : PagedMatrix) (data : List Byte) (i : ℕ) (m : Matrix) : Prop where
  weights : m.weights = part paged.cols paged.pageRows data i
  rows : m.rows = (rowRange paged.rows paged.pageRows i).2
  cols : m.cols=paged.cols
  maxWeight : m.maxWeight≤128
  tight : paged.cols*128*128≤2^31-1 ∨ m.maxWeight ≤ maxMagnitude data

variable (h : Holds inflate paged data)
include h

lemma Holds.lt_rows (hi : i<paged.pages.length) : i*paged.pageRows<paged.rows :=
  (mul_lt_of_lt_pageCount h.pageRows_pos).mp (h.count ▸ hi)

lemma Holds.length_part (i : ℕ) : (part paged.cols paged.pageRows data i).length =
      (rowRange paged.rows paged.pageRows i).2*paged.cols := by
  rw [part,slice,length_take,length_drop,h.length,mul_right_comm,
    mul_comm paged.pageRows i,← Nat.sub_mul,Nat.mul_min_mul_right,Nat.min_comm]
  rfl

lemma Holds.pageMatrix_ok (hi : i<paged.pages.length) :
    ∃ m, paged.pageMatrix (part paged.cols paged.pageRows data i)
      (rowRange paged.rows paged.pageRows i).2 = .ok m ∧ IsPage paged data i m := by
  have hpos : 0 < (rowRange paged.rows paged.pageRows i).2 :=
    Nat.lt_min.mpr ⟨Nat.sub_pos_of_lt (h.lt_rows hi),h.pageRows_pos⟩
  have hcond : ¬((rowRange paged.rows paged.pageRows i).2=0 ∨ paged.cols=0 ∨
      (rowRange paged.rows paged.pageRows i).2*paged.cols ≠
        (part paged.cols paged.pageRows data i).length) := by
    rw [h.length_part i]
    have hcols := h.cols_pos
    omega
  unfold pageMatrix
  split
  · rename_i hnar
    exact ⟨_,by rw [Matrix.fromOwnedI8Page,if_neg hcond],rfl,rfl,rfl,le_rfl,.inl hnar⟩
  · exact ⟨_,by rw [Matrix.new,if_neg hcond],rfl,rfl,rfl,maxMagnitude_le _,
      .inr (maxMagnitude_slice_le _ _ _)⟩

omit h in
lemma row_part (hj : j < (rowRange paged.rows paged.pageRows i).2) : row paged.cols
    (part paged.cols paged.pageRows data i) j = row paged.cols data (i*paged.pageRows+j) := by
  have hle : j+1≤paged.pageRows := le_trans hj (min_le_right _ _)
  have hmul := Nat.mul_le_mul_right paged.cols hle
  rw [succ_mul] at hmul
  rw [row,part,slice_slice _ hmul,row]
  congr 1
  ring

section
variable {α β : Type} {kernel : List Byte → List α → β} {x : List α} {batch : ℕ}
  {operation : Matrix → Except String (List β)}

lemma Holds.rowRange_le (hi : i<paged.pages.length) :
    i*paged.pageRows+(rowRange paged.rows paged.pageRows i).2 ≤ paged.rows := by
  have hlt := h.lt_rows hi
  simp only [rowRange]
  omega

lemma Holds.exists_page {r : ℕ} (hr : r<paged.rows) : ∃ i<paged.pages.length,
    i*paged.pageRows ≤ r ∧ r < i*paged.pageRows+(rowRange paged.rows paged.pageRows i).2 := by
  have hdiv := div_add_mod r paged.pageRows
  have hmod := mod_lt r h.pageRows_pos
  rw [mul_comm] at hdiv
  refine ⟨r/paged.pageRows,?_,by omega,?_⟩
  · rw [h.count]
    exact (mul_lt_of_lt_pageCount h.pageRows_pos).mpr (by omega)
  · simp only [rowRange]
    omega

lemma Holds.value_page [Inhabited β] {i b j : ℕ} {m : Matrix} (hm : IsPage paged data i m) (hj :
    j < m.rows) : m.value kernel x b j = h.resident.value kernel x b (i*paged.pageRows+j) := by
  rw [hm.rows] at hj
  rw [Matrix.value,hm.cols,hm.weights,row_part hj]
  rfl

/-- The partial results of a page go where the whole result has them. -/
lemma Holds.stitch_agrees [Inhabited β]
    {m : Matrix} (hi : i<paged.pages.length) (hm : IsPage paged data i m) {out : List β}
    {done : ℕ → Prop} (hagr : Agrees (h.resident.product kernel x batch) out done) : Agrees
    (h.resident.product kernel x batch) (paged.stitch batch i m.rows out (m.product kernel x batch))
    fun k => done k ∨ ∃ b ∈ range batch, piece (b*paged.rows+i*paged.pageRows) m.rows k := by
  have hle := h.rowRange_le hi
  rw [← hm.rows] at hle
  refine hagr.foldl _ fun b hb out done hout => ?_
  rw [mem_range] at hb
  refine hout.splice ?_ ?_
  · have hpage := Matrix.slice_product m kernel x batch hb (show 0+m.rows ≤ m.rows by omega)
    rw [add_zero] at hpage
    have hwho := Matrix.slice_product h.resident kernel x batch hb hle
    rw [row,hpage]
    refine Eq.trans (map_congr_left fun j hj => ?_) hwho.symm
    rw [zero_add]
    exact h.value_page hm (mem_range.mp hj)
  · rw [Matrix.length_product]
    have hmul := Nat.mul_le_mul_right paged.rows (succ_le_of_lt hb)
    rw [succ_mul] at hmul
    change _ ≤ batch*paged.rows
    omega

lemma Holds.execute_ok [Inhabited β] (hope : ∀ i m,
    i<paged.pages.length → IsPage paged data i m → operation m = .ok (m.product kernel x batch)) :
    paged.execute inflate batch operation = .ok (h.resident.product kernel x batch) := by
  refine Agrees.foldlM_eq (fun entry k => ∃ b ∈ range batch,
    piece (b*paged.rows+entry.2*paged.pageRows) (rowRange paged.rows paged.pageRows entry.2).2 k)
    _ ?_ ?_ ?_
  · rw [length_replicate,Matrix.length_product]
    rfl
  · intro k hk
    rw [Matrix.length_product] at hk
    have hdiv := div_add_mod k paged.rows
    have hmod := mod_lt k h.rows_pos
    rw [mul_comm] at hdiv
    obtain ⟨i,hi,hlow,hhigh⟩ := h.exists_page hmod
    refine ⟨(paged.pages[i],i),mk_mem_zipIdx_iff_getElem?.mpr (getElem?_eq_getElem hi),
      k/paged.rows,mem_range.mpr ((Nat.div_lt_iff_lt_mul h.rows_pos).mpr hk),?_⟩
    simp only [piece]
    omega
  · rintro ⟨page,i⟩ hmem out done hout
    have hget := mk_mem_zipIdx_iff_getElem?.mp hmem
    obtain ⟨hi,-⟩ := List.getElem?_eq_some_iff.mp hget
    obtain ⟨hdec,hdcd⟩ := h.pages i page hget
    obtain ⟨m,hm,hpage⟩ := h.pageMatrix_ok hi
    have hrows : page.decoded/paged.cols=m.rows := by
      rw [hdcd,Nat.mul_div_cancel _ h.cols_pos,hpage.rows]
    rw [← hpage.rows] at hm
    simp only [hdec,ok_bind,hrows,hm,hope i m hi hpage]
    refine ⟨_,rfl,?_⟩
    rw [← hpage.rows]
    exact h.stitch_agrees hi hpage hout

lemma Holds.exists_of_execute_ok [Inhabited β] {result : List β}
    (hexe : paged.execute inflate batch operation = .ok result) :
    ∃ i m portion, i<paged.pages.length ∧ IsPage paged data i m ∧ operation m = .ok portion := by
  obtain ⟨i,hi,-⟩ := h.exists_page h.rows_pos
  cases hpag : paged.pages with
  | nil =>
    rw [hpag] at hi
    cases hi
  | cons page pages =>
    have hi0 : 0<paged.pages.length := by rw [hpag]; exact succ_pos _
    obtain ⟨hdec,hdcd⟩ := h.pages 0 page (by rw [hpag]; rfl)
    obtain ⟨m,hm,hpage⟩ := h.pageMatrix_ok hi0
    have hrows : page.decoded/paged.cols=(rowRange paged.rows paged.pageRows 0).2 := by
      rw [hdcd,Nat.mul_div_cancel _ h.cols_pos]
    rw [execute,hpag,zipIdx_cons,foldlM_cons] at hexe
    simp only [hdec,ok_bind,hrows,hm] at hexe
    obtain ⟨next,hstep,-⟩ := bind_eq_ok.mp hexe
    obtain ⟨portion,hpor,-⟩ := bind_eq_ok.mp hstep
    exact ⟨0,m,portion,succ_pos _,hpage,hpor⟩

end

omit h in
lemma check_eq_ok {elements batch : ℕ} : paged.check elements batch = .ok u ↔
    0<batch ∧ paged.cols*batch=elements ∧ elements ≤ maxElements ∧ paged.rows*batch ≤ maxElements := by
  unfold check
  split
  · rename_i hbad
    simp only [reduceCtorEq,false_iff]
    omega
  · simp only [true_iff]
    omega

omit h in
lemma outputSize_ok {elements batch : ℕ} (hchk : paged.check elements batch = .ok ()) {m : Matrix}
    (hcols : m.cols=paged.cols) (hrows : m.rows≤paged.rows) :
    m.outputSize elements batch = .ok (batch*m.rows) := by
  obtain ⟨-,hele,-,hsize⟩ := check_eq_ok.mp hchk
  have hle := Nat.mul_le_mul_left batch hrows
  rw [mul_comm batch paged.rows] at hle
  rw [Matrix.outputSize,if_neg (by rw [hcols,mul_comm]; simpa using hele),
    if_neg (by rw [maxElements] at hsize; omega)]

lemma validate_ok {elements batch maxInput : ℕ} (hchk : paged.check elements batch = .ok ()) {m
    : Matrix} (hcols : m.cols=paged.cols) (hrows : m.rows≤paged.rows) (hwt : m.maxWeight≤128)
    (hinp : maxInput<2^31) : m.validate elements batch maxInput = .ok (batch*m.rows) := by
  have hle := h.cols_le
  have hbd : m.cols*m.maxWeight*maxInput≤1048576*128*2^31 := by
    rw [hcols]
    gcongr
  rw [Matrix.validate,outputSize_ok hchk hcols hrows,ok_bind,if_neg (by omega)]
  rfl

lemma IsPage.rows_le {m : Matrix} (hi : i<paged.pages.length)
    (hm : IsPage paged data i m) : m.rows≤paged.rows := by
  have hle := h.rowRange_le hi
  rw [hm.rows]
  omega

/-- An operation with one condition for all pages. -/
lemma Holds.execute_eq_ok {α β : Type} [Inhabited β] {kernel : List Byte → List α → β}
    {x : List α} {batch : ℕ} {operation : Matrix → Except String (List β)} {cond : Prop}
    (hope : ∀ i m, i<paged.pages.length → IsPage paged data i m → ∀ portion, operation m =
    .ok portion ↔ cond ∧ m.product kernel x batch = portion) {result : List β} : paged.execute
    inflate batch operation = .ok result ↔ cond ∧ h.resident.product kernel x batch = result := by
  have hpag (hcond : cond) :
      paged.execute inflate batch operation = .ok (h.resident.product kernel x batch) :=
    h.execute_ok fun i m hi hm => (hope i m hi hm _).mpr ⟨hcond,rfl⟩
  constructor
  · intro hexe
    obtain ⟨i,m,portion,hi,hm,hpor⟩ := h.exists_of_execute_ok hexe
    have hcond := ((hope i m hi hm portion).mp hpor).1
    rw [hpag hcond] at hexe
    exact ⟨hcond,ok.inj hexe⟩
  · rintro ⟨hcond,rfl⟩
    exact hpag hcond

section
variable {batch : ℕ} {m : Matrix} (hcols : m.cols=paged.cols) (hrows : m.rows≤paged.rows)
  (hwt : m.maxWeight≤128)
include hcols hrows

omit h in
lemma wrap32_eq_ok {x result : List (BitVec 32)} (hchk : paged.check x.length batch = .ok ()) :
    m.wrap32 x batch = .ok result ↔ True ∧ m.product Matrix.dotWrap32 x batch = result := by
  rw [Matrix.wrap32,outputSize_ok hchk hcols hrows,ok_bind,pure_eq_ok,ok.injEq,true_and]

include hwt

lemma modular_eq_ok {x result : List (BitVec 32)} (hchk : paged.check x.length batch = .ok ()) :
    m.modular x batch p = .ok result ↔ ((2≤p ∧ p<2^31) ∧ ¬∃ v∈x, p≤v.toNat) ∧ m.product
      (Matrix.dotModular p) x batch = result := by
  rw [Matrix.modular,ite_error_eq_ok,not_not,@and_assoc (2≤p ∧ p<2^31)]
  refine and_congr_right fun hp => ?_
  rw [validate_ok h hchk hcols hrows hwt (by omega),ok_bind,ite_error_eq_ok,pure_eq_ok,
    ok.injEq]

lemma clear_eq_ok {x : List Byte} {result : List (BitVec 32)}
    (hchk : paged.check x.length batch = .ok ()) : m.clear x batch = .ok result ↔
    m.cols*m.maxWeight*128≤2^31-1 ∧ m.product Matrix.dotClear x batch = result := by
  rw [Matrix.clear,validate_ok h hchk hcols hrows hwt (by decide),ok_bind,ite_error_eq_ok,
    pure_eq_ok,ok.injEq,not_lt]

end

omit h in
lemma check_bind_eq_ok {β : Type} {elements batch : ℕ} {f : Unit → Except String β} {result : β} :
    (paged.check elements batch >>= f) = .ok result ↔
      paged.check elements batch = .ok () ∧ f () = .ok result := by
  rw [bind_eq_ok]
  exact ⟨fun ⟨_,hchk,hrest⟩ => ⟨hchk,hrest⟩,fun ⟨hchk,hrest⟩ => ⟨(),hchk,hrest⟩⟩

section
variable {x result : List (BitVec 32)} {batch : ℕ}

lemma Holds.wrap32_iff : paged.wrap32 inflate x batch = .ok result ↔
      paged.check x.length batch = .ok () ∧ h.resident.wrap32 x batch = .ok result := by
  rw [wrap32,check_bind_eq_ok]
  refine and_congr_right fun hchk => ?_
  rw [wrap32_eq_ok rfl le_rfl hchk]
  exact h.execute_eq_ok fun i m hi hm _ => wrap32_eq_ok hm.cols (hm.rows_le h hi) hchk

lemma Holds.modular_iff : paged.modular inflate x batch p = .ok result ↔
      paged.check x.length batch = .ok () ∧ h.resident.modular x batch p = .ok result := by
  rw [modular,check_bind_eq_ok]
  refine and_congr_right fun hchk => ?_
  rw [modular_eq_ok h rfl le_rfl (maxMagnitude_le data) hchk]
  exact h.execute_eq_ok fun i m hi hm _ =>
    modular_eq_ok h hm.cols (hm.rows_le h hi) hm.maxWeight hchk

lemma Holds.clear_iff {x : List Byte} : paged.clear inflate x batch = .ok result ↔
      paged.check x.length batch = .ok () ∧ h.resident.clear x batch = .ok result := by
  rw [clear,check_bind_eq_ok]
  refine and_congr_right fun hchk => ?_
  rw [clear_eq_ok h rfl le_rfl (maxMagnitude_le data) hchk,ite_error_eq_ok,not_lt,h.maxWeight]
  refine and_congr_right fun hbd => ?_
  have hpag : ∀ i m, i<paged.pages.length → IsPage paged data i m → ∀ portion,
      m.clear x batch = .ok portion ↔ True ∧ m.product Matrix.dotClear x batch = portion := by
    intro i m hi hm portion
    rw [clear_eq_ok h hm.cols (hm.rows_le h hi) hm.maxWeight hchk]
    refine and_congr_left fun _ => iff_true_intro ?_
    rw [hm.cols]
    rcases hm.tight with hnar | htig
    · refine le_trans ?_ hnar
      gcongr
      exact hm.maxWeight
    · refine le_trans ?_ hbd
      gcongr
  rw [h.execute_eq_ok hpag,true_and]

end

end

section
variable {α : Type}

/-- A value that a map of lists has under a key. -/
def HasEntry (groups : List (ℕ × List α)) (key : ℕ) (value : α) : Prop :=
  ∃ group∈groups, group.1=key ∧ value∈group.2

section
variable {groups : List (ℕ × List α)} {key : ℕ} {value : α}

lemma hasEntry_cons {group : ℕ × List α} : HasEntry (group::groups) key value ↔
      (group.1=key ∧ value∈group.2) ∨ HasEntry groups key value := by
  simp [HasEntry]

lemma hasEntry_pushEntry {newKey : ℕ} {newValue : α} : HasEntry (pushEntry newKey newValue groups)
    key value ↔ (newKey=key ∧ value=newValue) ∨ HasEntry groups key value := by
  induction groups with
  | nil => simp [pushEntry,HasEntry]
  | cons group groups ih =>
    unfold pushEntry
    split_ifs with hlt heq
    · rw [hasEntry_cons,mem_singleton]
    · subst heq
      rw [hasEntry_cons,hasEntry_cons,mem_append,mem_singleton]
      tauto
    · rw [hasEntry_cons,hasEntry_cons]
      tauto

lemma pushEntry_ne_nil (h : ∀ group∈groups, group.2 ≠ []) :
    ∀ group ∈ pushEntry key value groups, group.2 ≠ [] := by
  induction groups with
  | nil => simp [pushEntry]
  | cons first groups ih =>
    obtain ⟨hfst,hrest⟩ := forall_mem_cons.mp h
    unfold pushEntry
    split_ifs with hlt heq
    · exact forall_mem_cons.mpr ⟨cons_ne_nil _ _,h⟩
    · exact forall_mem_cons.mpr ⟨by simp,hrest⟩
    · exact forall_mem_cons.mpr ⟨hfst,ih hrest⟩

end

end

lemma hasEntry_grouped {paged : PagedMatrix} {ids : List ℕ} {key position rowIndex : ℕ} :
    HasEntry (paged.grouped ids) key (position,rowIndex) ↔ ∃ id, ids[position]? = some id ∧
      id/paged.pageRows=key ∧ id%paged.pageRows=rowIndex := by
  have hfold : ∀ (xs : List (ℕ × ℕ)) (groups : List (ℕ × List (ℕ × ℕ))),
      HasEntry (xs.foldl (fun groups id => pushEntry (id.1/paged.pageRows)
        (id.2,id.1%paged.pageRows) groups) groups) key (position,rowIndex) ↔
      (∃ id, (id,position)∈xs ∧ id/paged.pageRows=key ∧ id%paged.pageRows=rowIndex) ∨
        HasEntry groups key (position,rowIndex) := by
    intro xs
    induction xs with
    | nil => simp
    | cons x xs ih =>
      intro groups
      rw [foldl_cons,ih,hasEntry_pushEntry]
      obtain ⟨id,at_⟩ := x
      simp only [mem_cons,Prod.mk.injEq]
      constructor
      · rintro (⟨id',hmem,hkey⟩ | ⟨hkey,rfl,rfl⟩ | hgrou)
        · exact .inl ⟨id',.inr hmem,hkey⟩
        · exact .inl ⟨id,.inl ⟨rfl,rfl⟩,hkey,rfl⟩
        · exact .inr hgrou
      · rintro (⟨id',⟨rfl,rfl⟩ | hmem,hkey⟩ | hgrou)
        · exact .inr (.inl ⟨hkey.1,rfl,hkey.2.symm⟩)
        · exact .inl ⟨id',hmem,hkey⟩
        · exact .inr (.inr hgrou)
  rw [grouped,hfold]
  simp only [mk_mem_zipIdx_iff_getElem?,HasEntry,not_mem_nil,false_and,exists_false,or_false]

lemma grouped_ne_nil (paged : PagedMatrix) (ids : List ℕ) :
    ∀ group ∈ paged.grouped ids, group.2 ≠ [] := by
  have hfold : ∀ (xs : List (ℕ × ℕ)) (groups : List (ℕ × List (ℕ × ℕ))),
      (∀ group∈groups, group.2 ≠ []) →
      ∀ group ∈ xs.foldl (fun groups id => pushEntry (id.1/paged.pageRows)
        (id.2,id.1%paged.pageRows) groups) groups, group.2 ≠ [] := by
    intro xs
    induction xs with
    | nil => exact fun _ h => h
    | cons x xs ih => exact fun groups h => ih _ (pushEntry_ne_nil h)
  exact hfold _ _ nofun

lemma checkGather_eq_ok {ids : List ℕ} {bound length : ℕ} {message : String} :
    checkGather ids bound length message = .ok u ↔ ids ≠ [] ∧ ids.length≤4096 ∧
      ids.length*length ≤ maxElements ∧ ∀ i∈ids, i<bound := by
  unfold checkGather
  split
  · rename_i hbad
    simp only [reduceCtorEq,false_iff,not_and,not_forall]
    rintro hne hids hleng
    obtain hnil | hmany | hlar | ⟨i,hi,hbd⟩ := hbad
    · exact absurd hnil hne
    · omega
    · omega
    · exact ⟨i,hi,not_lt.mpr hbd⟩
  · rename_i hgood
    simpa [not_or] using hgood

section
variable {inflate : Inflate} {paged : PagedMatrix} {data : List Byte}
  (h : Holds inflate paged data) {ids : List ℕ}
include h

lemma Holds.gather_ok (hchk : checkGather ids paged.rows paged.cols
      "paged gather indices exceed bounds" = .ok ()) :
    paged.gather inflate ids = .ok (ids.flatMap (row paged.cols data)) := by
  have hrow : ∀ id∈ids, (row paged.cols data id).length=paged.cols := by
    intro id hid
    exact length_row h.length ((checkGather_eq_ok.mp hchk).2.2.2 id hid)
  have hleng := length_flatMap_const ids hrow
  rw [gather,hchk]
  refine Agrees.foldlM_eq (fun group k => ∃ entry∈group.2, piece (entry.1*paged.cols) paged.cols k)
    _ ?_ ?_ ?_
  · rw [length_replicate,hleng,mul_comm]
  · intro k hk
    rw [hleng,mul_comm] at hk
    have hposi : k/paged.cols < ids.length := (Nat.div_lt_iff_lt_mul h.cols_pos).mpr hk
    obtain ⟨group,hgro,-,hent⟩ := hasEntry_grouped.mpr ⟨_,getElem?_eq_getElem hposi,rfl,rfl⟩
    refine ⟨group,hgro,_,hent,?_⟩
    have hdiv := div_add_mod k paged.cols
    have hmod := mod_lt k h.cols_pos
    rw [mul_comm] at hdiv
    simp only [piece]
    omega
  · rintro ⟨key,entries⟩ hgro out done hout
    have hent : ∀ entry∈entries, ∃ id, ids[entry.1]? = some id ∧ id/paged.pageRows=key ∧
        id%paged.pageRows=entry.2 :=
      fun entry hent => hasEntry_grouped.mp ⟨_,hgro,rfl,hent⟩
    have hkey : key<paged.pages.length := by
      obtain ⟨entry,hmem⟩ := exists_mem_of_ne_nil _ (grouped_ne_nil paged ids _ hgro)
      obtain ⟨id,hid,rfl,-⟩ := hent entry hmem
      have hbd := (checkGather_eq_ok.mp hchk).2.2.2 id (mem_of_getElem? hid)
      rw [h.count]
      exact (mul_lt_of_lt_pageCount h.pageRows_pos).mpr
        (lt_of_le_of_lt (div_mul_le_self id _) hbd)
    obtain ⟨hdec,-⟩ := h.pages key paged.pages[key] (getElem?_eq_getElem hkey)
    rw [getD_eq_getElem _ _ hkey]
    simp only [hdec]
    refine ⟨_,rfl,hout.foldl _ fun entry hmem out done hout => ?_⟩
    obtain ⟨id,hid,rfl,hloc⟩ := hent entry hmem
    obtain ⟨hposi,hget⟩ := List.getElem?_eq_some_iff.mp hid
    have hbd := (checkGather_eq_ok.mp hchk).2.2.2 id (mem_of_getElem? hid)
    have hdiv := div_add_mod id paged.pageRows
    have hmod := mod_lt id h.pageRows_pos
    rw [mul_comm] at hdiv
    refine hout.splice ?_ ?_
    · rw [← hloc,row_part (by simp only [rowRange]; omega),hdiv]
      have hwho := row_flatMap hrow hposi
      rw [hget] at hwho
      exact hwho.symm
    · rw [hleng,mul_comm paged.cols]
      have hmul := Nat.mul_le_mul_right paged.cols (succ_le_of_lt hposi)
      rw [succ_mul] at hmul
      exact hmul

/-- The entries of one column, from the first row on. -/
def column (data : List Byte) (rows cols id : ℕ) : List Byte :=
  (List.range rows).map fun r => data.getD (r*cols+id) 0

lemma Holds.chunk_part {chunk : List Byte}
    (hchu : (chunksExact paged.cols (part paged.cols paged.pageRows data i))[j]? = some chunk) :
    j < (rowRange paged.rows paged.pageRows i).2 ∧
      chunk = row paged.cols data (i*paged.pageRows+j) := by
  obtain ⟨hj,rfl⟩ := List.getElem?_eq_some_iff.mp hchu
  rw [length_chunksExact,h.length_part,Nat.mul_div_cancel _ h.cols_pos] at hj
  refine ⟨hj,?_⟩
  rw [← row_part hj]
  simp only [chunksExact,getElem_map,getElem_range,row,mul_comm]

lemma Holds.gatherColumns_ok (hchk : checkGather ids paged.cols paged.rows
      "paged column gather indices exceed bounds" = .ok ()) :
    paged.gatherColumns inflate ids = .ok (ids.flatMap (column data paged.rows paged.cols)) := by
  have hcol : ∀ id∈ids, (column data paged.rows paged.cols id).length=paged.rows := by
    simp [column]
  have hleng := length_flatMap_const ids hcol
  rw [gatherColumns,hchk]
  refine Agrees.foldlM_eq (fun page k =>
    ∃ line ∈ (chunksExact paged.cols (part paged.cols paged.pageRows data page.2)).zipIdx,
      ∃ id∈ids.zipIdx, piece (id.2*paged.rows+page.2*paged.pageRows+line.2) 1 k) _ ?_ ?_ ?_
  · rw [length_replicate,hleng,mul_comm]
  · intro k hk
    rw [hleng,mul_comm] at hk
    have hposi : k/paged.rows < ids.length := (Nat.div_lt_iff_lt_mul h.rows_pos).mpr hk
    have hdiv := div_add_mod k paged.rows
    have hmod := mod_lt k h.rows_pos
    rw [mul_comm] at hdiv
    obtain ⟨i,hi,hlow,hhigh⟩ := h.exists_page hmod
    have hj : k%paged.rows-i*paged.pageRows <
        (chunksExact paged.cols (part paged.cols paged.pageRows data i)).length := by
      rw [length_chunksExact,h.length_part,Nat.mul_div_cancel _ h.cols_pos]
      omega
    refine ⟨(paged.pages[i],i),mk_mem_zipIdx_iff_getElem?.mpr (getElem?_eq_getElem hi),
      (_,k%paged.rows-i*paged.pageRows),mk_mem_zipIdx_iff_getElem?.mpr (getElem?_eq_getElem hj),
      (ids[k/paged.rows],k/paged.rows),mk_mem_zipIdx_iff_getElem?.mpr (getElem?_eq_getElem
      hposi),?_⟩
    simp only [piece]
    omega
  · rintro ⟨page,i⟩ hmem out done hout
    have hget := mk_mem_zipIdx_iff_getElem?.mp hmem
    obtain ⟨hi,-⟩ := List.getElem?_eq_some_iff.mp hget
    obtain ⟨hdec,-⟩ := h.pages i page hget
    simp only [hdec]
    refine ⟨_,rfl,hout.foldl _ ?_⟩
    rintro ⟨chunk,j⟩ hchu out done hout
    obtain ⟨hj,rfl⟩ := h.chunk_part (mk_mem_zipIdx_iff_getElem?.mp hchu)
    refine hout.foldl _ ?_
    rintro ⟨id,position⟩ hid out done hout
    obtain ⟨hposi,rfl⟩ := List.getElem?_eq_some_iff.mp (mk_mem_zipIdx_iff_getElem?.mp hid)
    have hbd := (checkGather_eq_ok.mp hchk).2.2.2 _ (getElem_mem hposi)
    have hrow : i*paged.pageRows+j<paged.rows := by
      have hle := h.rowRange_le hi
      omega
    refine hout.set ?_
    have hwho := congrArg (·[i*paged.pageRows+j]?) (row_flatMap hcol hposi)
    simp only [row,getElem?_slice,if_pos hrow,column,getElem?_map,getElem?_range hrow,
      Option.map_some] at hwho
    rw [add_assoc]
    refine hwho.trans (congrArg some ?_)
    rw [getD_eq_getElem?_getD,getD_eq_getElem?_getD,row,getElem?_slice,if_pos hbd]

end

lemma flatten_chunks {α : Type*} {n : ℕ} (hn : 0<n) (xs : List α) : (chunks n xs).flatten = xs := by
  have htake : ∀ m, ((range m).map fun i => slice xs (n*i) n).flatten=xs.take (n*m) := by
    intro m
    induction m with
    | zero => rw [mul_zero,take_zero]; rfl
    | succ m ih =>
      rw [range_succ,map_append,flatten_append,ih,mul_succ,take_add]
      simp [slice]
  have hcov : xs.length≤n*((xs.length+n-1)/n) := by
    exact le_smul_ceilDiv hn
  rw [chunks,htake,take_of_length_le hcov]

lemma maxMagnitude_flatten (parts : List (List Byte)) :
    (parts.map maxMagnitude).foldl max 0 = maxMagnitude parts.flatten := by
  induction parts using reverseRecOn with
  | nil => rfl
  | append_singleton parts part ih =>
    rw [map_append,foldl_append,ih,flatten_append,maxMagnitude_append]
    simp

variable {inflate : Inflate}

/-- A page decodes to what was written, when the decompressor undoes the compressor. -/
lemma decode_ok (hinf : ∀ page room, page.length < room →
      inflate (zlib page) room = .ok ⟨true,page,(zlib page).length⟩)
    {file bytes : List Byte} {page : Page} (hbd : page.offset+page.stored≤file.length)
    (hdcd : page.decoded=bytes.length)
    (hsli : slice file page.offset page.stored = if page.compressed then zlib bytes else bytes) :
    decode inflate file page = .ok bytes := by
  have hread := readExact_eq_ok.mpr ⟨hbd,hsli⟩
  have hleng := length_slice hbd
  rw [hsli] at hleng
  rw [decode,hread,ok_bind]
  cases hc : page.compressed with
  | false => simp
  | true =>
    rw [hc,if_pos rfl] at hleng
    rw [if_pos rfl,hinf bytes _ (by omega),ok_bind,hleng,hdcd]
    simp

lemma openFile_exportFile {sha256 : List Byte → BitVec 256} (hzlib : ∀ page, 0 < (zlib page).length)
    (hinf : ∀ page room, page.length < room → inflate (zlib page) room =
    .ok ⟨true,page,(zlib page).length⟩) {data file : List Byte} {rows cols pageRows : ℕ}
    {compress : Bool} {digest : BitVec 256} (h : exportFile sha256 zlib data rows cols pageRows
    compress = .ok (file,digest)) : ∃ paged, openFile sha256 inflate file digest = .ok paged ∧
    paged.rows=rows ∧ paged.cols=cols ∧ paged.pageRows=pageRows ∧ Holds inflate paged data := by
  obtain ⟨index,hidx,⟨⟨rfl,rfl,rfl⟩,hcnt,hpag⟩⟩ := exportFile_metadata hzlib h
  have hexa := metadata_exact hidx
  simp only [exportFile,ite_error_eq_ok,bind_eq_ok,pure_eq_ok,ok.injEq,Prod.exists,
    not_not,Prod.mk.injEq,ne_eq] at h
  obtain ⟨size,count,hshp,hdata,hfile,hdig⟩ := h
  obtain ⟨hrows,hcols,hrowsLe,hcolsLe,hpr,-,-,-,rfl,rfl⟩ := shape_eq_ok.mp hshp
  have hpart : ∀ (i : ℕ) (page : Page), index.pages[i]? = some page →
      (chunks (index.pageRows*index.cols) data)[i]? = some (part index.cols index.pageRows data i) ∧
      decode inflate file page = .ok (part index.cols index.pageRows data i) := by
    intro i page hget
    obtain ⟨hi,-⟩ := List.getElem?_eq_some_iff.mp hget
    rw [hcnt] at hi
    have hchu : (chunks (index.pageRows*index.cols) data)[i]? =
        some (part index.cols index.pageRows data i) := by
      rw [length_chunks] at hi
      rw [chunks,getElem?_map,getElem?_range hi]
      rfl
    obtain ⟨page',hget',hdcd,hsli⟩ := hpag i _ hchu
    obtain rfl : page'=page := some_inj (hget'.symm.trans hget)
    exact ⟨hchu,decode_ok hinf (hexa.inside _ (mem_of_getElem? hget)).2.2 hdcd hsli⟩
  have hdec : index.pages.mapM (decode inflate file) =
      .ok (chunks (index.pageRows*index.cols) data) := by
    rw [mapM_eq_ok,forall₂_iff_get]
    refine ⟨hcnt,fun i hi hi' => ?_⟩
    obtain ⟨hchu,hpage⟩ := hpart i index.pages[i] (getElem?_eq_getElem hi)
    rw [get_eq_getElem,get_eq_getElem,hpage, some_inj ((getElem?_eq_getElem hi').symm.trans hchu)]
  have hwt : ofLeBytes 256 (slice index.head 24 32)=sha256 data := by
    have hhead : index.head=slice file 0 (header+index.pages.length*entryBytes) := by
      rw [hexa.head,slice,drop_zero]
    have hfrt : (magic++[index.rows,index.cols,index.pageRows,
        pageCount index.rows index.pageRows].flatMap fun value =>
          leBytes 4 (BitVec.ofNat 32 value)).length = 24 := by
      simp [magic,ascii]
    rw [hhead,slice_slice _ (by rw [header]; omega),← hfile]
    simp only [append_assoc]
    rw [← append_assoc,slice_append_right _ _ hfrt.le,hfrt,tsub_self,
      slice_append_left _ (length_leBytes 32 _),ofLeBytes_leBytes _ (by decide)]
  have hflat : (chunks (index.pageRows*index.cols) data).flatten=data :=
    flatten_chunks (mul_pos hpr hcols) data
  refine ⟨⟨file,index.pages,index.rows,index.cols,index.pageRows,file.length,sha256 data,
    maxMagnitude data⟩,?_,rfl,rfl,rfl,hrows,hcols,hrowsLe,hcolsLe,hpr,hdata,hexa.count,?_,rfl⟩
  · rw [openFile,hidx,ok_bind,if_neg (by rw [← hdig,hfile]; simp),hdec,
      ok_bind,hflat,hwt,if_neg (by simp),maxMagnitude_flatten,hflat]
    rfl
  · exact fun i page hget => ⟨(hpart i page hget).2,(hexa.decoded i page hget).2.1⟩

/-- A matrix that is written to pages and opened again computes what the resident matrix does. -/
theorem paged_matrix_refines (sha256 : List Byte → BitVec 256) (zlib : List Byte → List Byte)
    (inflate : Inflate) (hzlib : ∀ page, 0 < (zlib page).length)
    (hinf : ∀ page room, page.length < room →
      inflate (zlib page) room = .ok ⟨true,page,(zlib page).length⟩)
    (data : List Byte) (rows cols pageRows : ℕ) (compress : Bool) (file : List Byte)
    (digest : BitVec 256)
    (h : exportFile sha256 zlib data rows cols pageRows compress = .ok (file,digest)) :
    ∃ matrix paged, Matrix.new data rows cols = .ok matrix ∧
      openFile sha256 inflate file digest = .ok paged ∧
      (∀ x batch result, paged.clear inflate x batch = .ok result ↔
        paged.check x.length batch = .ok () ∧ matrix.clear x batch = .ok result) ∧
      (∀ x batch result, paged.wrap32 inflate x batch = .ok result ↔
        paged.check x.length batch = .ok () ∧ matrix.wrap32 x batch = .ok result) ∧
      (∀ x batch modulus result, paged.modular inflate x batch modulus = .ok result ↔
        paged.check x.length batch = .ok () ∧ matrix.modular x batch modulus = .ok result) ∧
      (∀ ids result, paged.gather inflate ids = .ok result ↔
        checkGather ids rows cols "paged gather indices exceed bounds" = .ok () ∧
          ids.flatMap (row cols data)=result) ∧
      ∀ ids result, paged.gatherColumns inflate ids = .ok result ↔
        checkGather ids cols rows "paged column gather indices exceed bounds" = .ok () ∧
          ids.flatMap (column data rows cols)=result := by
  obtain ⟨paged,hopen,rfl,rfl,rfl,hhol⟩ := openFile_exportFile hzlib hinf h
  have hrows := hhol.rows_pos
  have hcols := hhol.cols_pos
  have hleng := hhol.length
  refine ⟨hhol.resident,paged,?_,hopen,fun _ _ _ => hhol.clear_iff,fun _ _ _ => hhol.wrap32_iff,
    fun _ _ _ _ => hhol.modular_iff,fun ids result => ?_,fun ids result => ?_⟩
  · rw [Matrix.new,if_neg (by omega)]
    rfl
  · constructor
    · intro hgat
      obtain ⟨_,hchk,-⟩ := bind_eq_ok.mp hgat
      rw [hhol.gather_ok hchk] at hgat
      exact ⟨hchk,ok.inj hgat⟩
    · rintro ⟨hchk,rfl⟩
      exact hhol.gather_ok hchk
  · constructor
    · intro hgat
      obtain ⟨_,hchk,-⟩ := bind_eq_ok.mp hgat
      rw [hhol.gatherColumns_ok hchk] at hgat
      exact ⟨hchk,ok.inj hgat⟩
    · rintro ⟨hchk,rfl⟩
      exact hhol.gatherColumns_ok hchk

/-- Reads a stream of one stored block. -/
def storedInflate : Inflate := fun payload room =>
  if payload.length-11 < room then
    .ok ⟨true,slice payload 7 (payload.length-11),payload.length⟩
  else .error "incomplete stream"

lemma storedInflate_storedZlib (page : List Byte) (room : ℕ) (h : page.length < room) :
    storedInflate (storedZlib page) room = .ok ⟨true,page,(storedZlib page).length⟩ := by
  have hleng : (storedZlib page).length=page.length+11 := by
    simp [storedZlib]
    omega
  have hsli : slice (storedZlib page) 7 page.length=page := by
    unfold storedZlib
    have hfrt : ([0x78,0x01,1]++leBytes 2 (BitVec.ofNat 16 page.length) ++
        leBytes 2 (~~~BitVec.ofNat 16 page.length)).length = 7 := by simp
    rw [append_assoc,slice_append_right _ _ hfrt.le,hfrt,tsub_self,slice_append_left _ rfl]
  rw [storedInflate,hleng,Nat.add_sub_cancel,if_pos h,hsli]

/-- Three rows of two weights, in two pages. -/
theorem paged_matrix_refines_at : ∃ file digest paged, exportFile
    (fun _ => 7) storedZlib [1,2,3,4,5,6] 3 2 2 true = .ok (file,digest) ∧ openFile
    (fun _ => 7) storedInflate file digest = .ok paged ∧ paged.clear storedInflate
    [1,1,0,255] 2 = .ok [3,7,11,-2,-4,-6] ∧ paged.gather storedInflate
    [2,0,2] = .ok [5,6,1,2,5,6] ∧ paged.gatherColumns storedInflate [1,0] = .ok [2,4,6,1,3,5] := by
  obtain ⟨matrix,paged,hmat,hopen,hcle,-,-,hgat,hcolu⟩ :=
    paged_matrix_refines (fun _ => 7) storedZlib storedInflate (fun page => by simp [storedZlib])
      storedInflate_storedZlib [1,2,3,4,5,6] 3 2 2 true _ _ rfl
  have hadm : paged.check 4 2 = .ok () := by
    have hchk := congrArg (Except.map fun p => p.check 4 2) hopen
    exact ok.inj (hchk.symm.trans (by decide +kernel))
  refine ⟨_,_,paged,rfl,hopen,(hcle _ _ _).mpr ⟨hadm,?_⟩,(hgat _ _).mpr ⟨by decide,by decide⟩,
    (hcolu _ _).mpr ⟨by decide,by decide⟩⟩
  obtain rfl : _=matrix := ok.inj hmat
  decide +kernel

end Pllm.Paged
