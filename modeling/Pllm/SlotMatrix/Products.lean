import Pllm.SlotMatrix.Layout

/-! Products of packed matrices, by the diagonals of their operands. -/
namespace Pllm.SlotMatrix
open Pllm.Lib Layout
open List (mem_range range)

/-- How many operations a product is declared to need. -/
structure Schedule where
  tensorProducts : ℕ := 0
  plaintextProducts : ℕ := 0
  inputRotations : ℕ := 0
  outputRotations : ℕ := 0
  conjugations : ℕ := 0
  rescaleAfterProductSums : ℕ := 0
  relinearizeAfterProductSums : ℕ := 0
  relinearizeBeforeOutputRotation : ℕ := 0

def lowerSchedule (left : Layout) : Result Schedule :=
  if left.diagonal ≠ .lower ∨ left.rows>left.columns ∨ left.diagonals%left.capacity≠0 then
    .error .geometry
  else do
    let pairs ← mul left.frames (left.columns-1)
    let tensorProducts ← mul left.frames left.columns
    let plaintextProducts ← mul 4 pairs
    let inputRotations ← mul 2 pairs
    pure {
      tensorProducts
      plaintextProducts
      inputRotations
      rescaleAfterProductSums := left.frames
      relinearizeAfterProductSums := left.frames }

def optimizedLowerSchedule (left : Layout) : Result Schedule := do
  let _ ← lowerSchedule left
  let frames := left.frames
  let pairs ← mul frames (left.columns-1)
  let delayed := if left.columns>1 then frames else 0
  let tensorProducts ← mul frames left.columns
  let plaintextProducts ← mul 3 pairs
  let rescaleAfterProductSums ← add frames delayed
  pure {
    tensorProducts
    plaintextProducts
    inputRotations := pairs
    outputRotations := delayed
    rescaleAfterProductSums
    relinearizeAfterProductSums := frames
    relinearizeBeforeOutputRotation := delayed }

def blockPcSchedule (layout : Layout) : Result Schedule :=
  if layout.rows≠layout.columns ∨ layout.diagonal ≠ .lower ∨ layout.validRows≠layout.rows
      ∨ layout.diagonals%layout.capacity≠0 then .error .geometry
  else do
    let nc := layout.frames
    let align ← mul (layout.heads-1) nc
    let blocks ← mul layout.heads nc
    let plaintextProducts ← add (← mul blocks layout.rows) blocks
    let inputRotations ← mul nc (layout.capacity-1)
    let outputRotations ← mul 2 align
    pure {
      plaintextProducts
      inputRotations
      outputRotations
      rescaleAfterProductSums := blocks }

section

variable {α : Type} [Zero α] [Add α] [Mul α] (finite : α → Bool)

/-- A sum that starts from zero and is taken in order. -/
def total {ι : Type} (xs : List ι) (term : ι → α) : α := xs.foldl (fun sum x => sum+term x) 0

def lowerTerm (left right : Layout) (a b : List α) (p : ℕ × ℕ × ℕ) (k : ℕ) : α :=
  left.read a (minus p.1 k left.rows) (plus p.2.1 k left.columns) p.2.2*right.read b k p.2.1 p.2.2

def lowerMm (left : Layout) (a : List α) (right : Layout) (b : List α) (out : Layout)
    (output : List α) (limits : Limits) : Result (List α) :=
  if left.diagonal ≠ .lower ∨ right.diagonal ≠ .lower ∨ out.diagonal ≠ .lower
      ∨ left.rows>left.columns ∨ right.rows≠left.columns ∨ right.columns≠left.columns
      ∨ out.rows≠left.rows ∨ out.columns≠left.columns ∨ left.heads≠right.heads
      ∨ left.heads≠out.heads ∨ left.validColumns≠right.validRows
      ∨ out.validRows≠left.validRows ∨ out.validColumns≠right.validColumns then
    .error .geometry
  else do
    buffer a.length left.elements limits
    buffer b.length right.elements limits
    buffer output.length out.elements limits
    let inputs ← add left.elements right.elements
    let steps ← add left.columns 1
    let terms ← mul out.elements steps
    let cost ← add inputs terms
    work cost limits
    left.validate finite a limits
    right.validate finite b limits
    pure (scatter out.rawOf
      (fun p => total (List.range left.columns) (lowerTerm left right a b p))
      out.liveLanes (fill out.elements output))

/-- The lane of the left operand whose product a slot of the output needs: the rotation of line 7
is the one of `k`, and the routing of frames is the corrected one. -/
structure Route where
  wrapped : Bool
  slot : ℕ
  source : ℕ

def route (left : Layout) (p : ℕ × ℕ × ℕ) (k : ℕ) : Route :=
  let s := left.frameSlots
  let block := left.length*left.heads
  let frame := p.1/left.capacity
  let within := left.rawOf p%s
  let wrapped := decide (p.2.1≥left.length-k)
  let y := if wrapped then minus within block s else within
  let shift := minus (k*left.heads) (k%left.capacity*block) s
  let routed := minus frame (k/left.capacity) left.frames
  let routed := minus routed (if p.1%left.capacity < k%left.capacity then 1 else 0) left.frames
  ⟨wrapped,y,routed*s+plus y shift s⟩

def routedTerm (left right : Layout) (a b : List α) (x : (ℕ × ℕ × ℕ) × ℕ) : α :=
  let src := (route left x.1 x.2).source
  (if (left.laneAt src).isSome then a.getD src 0 else 0)*right.read b x.2 x.1.2.1 x.1.2.2

/-- The first half of the scratch words adds up the products that stay, the second one those that
are turned in the end. -/
def partialPlace (left : Layout) (x : (ℕ × ℕ × ℕ) × ℕ) : ℕ :=
  let r := route left x.1 x.2
  if r.wrapped then left.elements+x.1.1/left.capacity*left.frameSlots+r.slot else left.rawOf x.1

def turnedPlace (left : Layout) (x : ℕ) : ℕ :=
  left.elements+x/left.frameSlots*left.frameSlots+
    minus (x%left.frameSlots) (left.length*left.heads) left.frameSlots

def optimizedLowerMm (left : Layout) (a : List α) (right : Layout) (b : List α) (out : Layout)
    (scratch output : List α) (limits : Limits) : Result (List α × List α) := do
  let _ ← optimizedLowerSchedule left
  if right.rows≠left.columns ∨ right.columns≠left.columns ∨ right.diagonal ≠ .lower
      ∨ out≠left ∨ right.heads≠left.heads ∨ left.validColumns≠right.validRows
      ∨ out.validColumns≠right.validColumns then .error .geometry
  else do
    let scratchLen ← mul 2 left.elements
    buffer a.length left.elements limits
    buffer b.length right.elements limits
    buffer scratch.length scratchLen limits
    buffer output.length out.elements limits
    let inputs ← add left.elements right.elements
    let passes ← mul 4 out.elements
    let terms ← mul passes left.columns
    let cost ← add inputs terms
    work cost limits
    left.validate finite a limits
    right.validate finite b limits
    let scratch := scatterAdd (partialPlace left) (routedTerm left right a b)
      (left.lanes ×ˢ List.range left.columns) (fill scratchLen scratch)
    pure (scratch,(List.range left.elements).map (fun x =>
      if (out.laneAt x).isSome then scratch.getD x 0+scratch.getD (turnedPlace left x) 0 else 0) ++
        output.drop left.elements)

/-- One entry of a block of weights times the diagonals of a block of the operand. -/
def blockTerm (layout : Layout) (weights b : List α) (p : ℕ × ℕ × ℕ) (x : ℕ × ℕ) : α :=
  let row := plus p.2.1 p.1 layout.rows
  let inner := plus p.2.1 x.2 layout.rows
  weights.getD ((p.2.2*layout.rows+row)*(layout.rows*layout.heads)+x.1*layout.rows+inner) 0 *
    layout.read b x.2 p.2.1 x.1

def blockPcMm (layout : Layout) (weights b output : List α) (limits : Limits) :
    Result (List α) := do
  let _ ← blockPcSchedule layout
  let d ← mul layout.rows layout.heads
  let weightsLen ← mul d d
  buffer weights.length weightsLen limits
  buffer b.length layout.elements limits
  buffer output.length layout.elements limits
  let passes ← mul 2 layout.elements
  let inputs ← add weightsLen passes
  let terms ← mul layout.elements d
  let cost ← add inputs terms
  work cost limits
  if (weights.take weightsLen).any fun w => !finite w then .error .nonFinite
  else do
    layout.validate finite b limits
    pure (scatter layout.rawOf
      (fun p => total (List.range layout.heads ×ˢ List.range layout.rows)
        (blockTerm layout weights b p))
      (layout.lanes.filter fun p => p.2.1<layout.validColumns) (fill layout.elements output))

variable [Sub α] (half : α)

/-- The halves of the products of two diagonals of each operand, as a complex number. -/
def pairedTerm (left right : Layout) (a b : List α) (p : ℕ × ℕ × ℕ) (k : ℕ) : α × α :=
  let n := left.rows
  let m := left.columns
  let a0 := left.read a (minus k p.1 m) (plus p.2.1 p.1 n) p.2.2*half
  let a1 := left.read a (minus (k+m/2) p.1 m) (plus p.2.1 p.1 n) p.2.2*half
  let b0 := right.read b k p.2.1 p.2.2
  let b1 := right.read b (k+m/2) p.2.1 p.2.2
  (a0*b0+a1*b1,a0*b1-a1*b0)

/-- The imaginary part is the one of the product before it is added to its conjugate. -/
def pairedUpperLowerMm (left : Layout) (a : List α) (right : Layout) (b : List α) (out : Layout)
    (imaginary output : List α) (limits : Limits) : Result (List α × List α) :=
  let n := left.rows
  let m := left.columns
  if n < m ∨ m%2≠0 ∨ left.diagonal ≠ .upper ∨ right.diagonal ≠ .lower ∨ out.diagonal ≠ .lower
      ∨ right.rows≠m ∨ right.columns≠n ∨ out.rows≠n ∨ out.columns≠n
      ∨ left.heads≠right.heads ∨ left.heads≠out.heads ∨ left.capacity≠1
      ∨ right.capacity≠1 ∨ out.capacity≠1 ∨ left.validColumns≠right.validRows
      ∨ out.validRows≠left.validRows ∨ out.validColumns≠right.validColumns then
    .error .geometry
  else do
    buffer a.length left.elements limits
    buffer b.length right.elements limits
    buffer output.length out.elements limits
    buffer imaginary.length out.elements limits
    let inputs ← add left.elements right.elements
    let passes ← mul 8 out.elements
    let terms ← mul passes m
    let cost ← add inputs terms
    work cost limits
    left.validate finite a limits
    right.validate finite b limits
    let re (p : ℕ × ℕ × ℕ) :=
      total (List.range (m/2)) fun k => (pairedTerm half left right a b p k).1
    let im (p : ℕ × ℕ × ℕ) :=
      total (List.range (m/2)) fun k => (pairedTerm half left right a b p k).2
    pure (scatter out.rawOf im out.liveLanes (fill out.elements imaginary),
      scatter out.rawOf (fun p => re p+re p) out.liveLanes (fill out.elements output))

end

section Checks

variable {bad : Error → Prop} {limits : Limits} {a b n m : ℕ}

lemma mul_ends (h : 2^64≤a*b → bad .overflow) : Ends (mul a b) (fun c => c=a*b) bad := by
  unfold mul
  split
  · rfl
  · exact h (by omega)

lemma add_ends (h : 2^64≤a+b → bad .overflow) : Ends (add a b) (fun c => c=a+b) bad := by
  unfold add
  split
  · rfl
  · exact h (by omega)

lemma work_ends (h : limits.maxWork<n → bad .workLimit) :
    Ends (work n limits) (fun _ => n≤limits.maxWork) bad := by
  unfold work
  split
  · exact h (by omega)
  · exact Nat.not_lt.mp ‹_›

/-- A buffer that is long enough for what is read or written, and within the limit. -/
def Fits (n : ℕ) (limits : Limits) (m : ℕ) : Prop := m≤n ∧ n≤limits.maxBufferElements

lemma buffer_ends (h : ¬Fits n limits m → bad .buffer) :
    Ends (buffer n m limits) (fun _ => Fits n limits m) bad := by
  unfold buffer
  split
  · refine h fun fits => ?_
    unfold Fits at fits
    omega
  · exact ⟨by omega,by omega⟩

end Checks

/-- Why a call is refused, where it asks for `shapes`, `buffers`, `finite` operands and the work
of `cost`. -/
def Refused (shapes buffers finite : Prop) (cost : ℕ) (limits : Limits) : Error → Prop
  | .geometry => ¬shapes
  | .overflow => 2^64 ≤ cost
  | .buffer => ¬buffers
  | .workLimit => limits.maxWork < cost
  | .nonFinite => ¬finite
  | .optimizedMultiBlockIndexGate => False

/-- A call with nothing to refuse succeeds. -/
lemma ends_ok {α : Type} {x : Result α} {good : α → Prop} {shapes buffers finite : Prop} {cost : ℕ}
    {limits : Limits} (h : Ends x good (Refused shapes buffers finite cost limits)) (hs : shapes)
    (hb : buffers) (hf : finite) (small : cost<2^64) (cheap : cost ≤ limits.maxWork) :
    ∃ a,x = .ok a ∧ good a := by
  rcases x with e | a
  · cases e with
    | geometry => exact absurd hs h
    | overflow => exact absurd small (not_lt.mpr h)
    | buffer => exact absurd hb h
    | workLimit => exact absurd cheap (not_le.mpr h)
    | nonFinite => exact absurd hf h
    | optimizedMultiBlockIndexGate => exact h.elim
  · exact ⟨a,rfl,h⟩

section Outputs

variable {α : Type} [Zero α] {finite : α → Bool} {bad : Error → Prop} {limits : Limits}
  {l : Layout}

/-- Every slot of an entry is finite. -/
def Finite (finite : α → Bool) (l : Layout) (slots : List α) : Prop :=
  ∀ i<l.elements,∀ p,l.laneAt i = some p → finite (slots.getD i 0)=true

lemma validate_ends {slots : List α} (fits : Fits slots.length limits l.elements)
    (h : ¬Finite finite l slots → bad .nonFinite) :
    Ends (l.validate finite slots limits) (fun _ => Finite finite l slots) bad := by
  have again : Ends (buffer slots.length l.elements limits) (fun _ => True) bad :=
    (buffer_ends fun other => absurd fits other).mono fun _ _ => trivial
  refine again.bind fun _ _ => ?_
  split
  · rename_i infinite
    refine h fun all => ?_
    obtain ⟨i,m,found⟩ := List.any_eq_true.mp infinite
    obtain ⟨some,infinite⟩ := Bool.and_eq_true_iff.mp found
    obtain ⟨p,eq⟩ := Option.isSome_iff_exists.mp some
    rw [all i (mem_range.mp m) p eq] at infinite
    cases infinite
  · rename_i none
    intro i small p eq
    by_contra infinite
    refine none (List.any_eq_true.mpr ⟨i,mem_range.mpr small,?_⟩)
    rw [eq,Bool.not_eq_true] at *
    rw [infinite]
    rfl

/-- The front of an output holds a matrix and zeros in its padding. -/
structure Holds (l : Layout) (matrix : ℕ → ℕ → ℕ → α) (before after : List α) : Prop where
  length : after.length=before.length
  entries : ∀ h<l.heads,∀ r<l.validRows,∀ c<l.validColumns,l.entry after h r c = matrix h r c
  padding : ∀ i<l.elements,l.laneAt i = none → after.getD i 0 = 0
  rest : after.drop l.elements = before.drop l.elements

section
variable {n : ℕ} {output : List α} {matrix : ℕ → ℕ → ℕ → α}

@[simp] lemma length_fill (h : n≤output.length) : (fill n output).length = output.length := by
  rw [fill,List.length_append,List.length_replicate,List.length_drop]
  omega

lemma getD_fill {i : ℕ} (output : List α) (h : i<n) : (fill n output).getD i 0 = 0 := by
  rw [fill,List.getD_append _ _ _ _ (by rwa [List.length_replicate]),getD_replicate]

lemma drop_fill (n : ℕ) (output : List α) : (fill n output).drop n = output.drop n := by
  rw [fill,List.drop_left' List.length_replicate]

variable {p : ℕ × ℕ × ℕ}

lemma mem_lanes : p∈l.lanes ↔ p.1<l.diagonals ∧ p.2.1<l.length ∧ p.2.2<l.heads := by
  rw [lanes,List.mem_product,List.mem_product,mem_range,mem_range,mem_range]

lemma rawOf_injective {p q : ℕ × ℕ × ℕ} (mp : p∈l.lanes) (mq : q∈l.lanes)
    (eq : l.rawOf p = l.rawOf q) : p=q := by
  rw [mem_lanes] at mp mq
  obtain ⟨first,second,third⟩ := raw_injective mp.2.1 mq.2.1 mp.2.2 mq.2.2 eq
  exact Prod.ext first (Prod.ext second third)

lemma rawOf_lt (m : p∈l.lanes) : l.rawOf p < l.elements := by
  rw [mem_lanes] at m
  exact raw_lt m.1 m.2.1 m.2.2

lemma mem_liveLanes : p∈l.liveLanes ↔ p∈l.lanes ∧ l.live p.1 p.2.1 = true := List.mem_filter

/-- A loop over the valid lanes writes a matrix. -/
lemma holds_scatter {value : ℕ × ℕ × ℕ → α} (long : l.elements≤output.length)
    (values : ∀ p∈l.lanes,l.live p.1 p.2.1 = true →
      value p = matrix p.2.2 (l.coordinates p.1 p.2.1).1 (l.coordinates p.1 p.2.1).2) :
    Holds l matrix output (scatter l.rawOf value l.liveLanes (fill l.elements output)) := by
  have inside : ∀ p∈l.liveLanes,l.rawOf p < l.elements := fun p m =>
    rawOf_lt (mem_liveLanes.mp m).1
  refine ⟨?_,?_,?_,?_⟩
  · rw [length_scatter,length_fill long]
  · intro h hh r hr c hc
    have valid := l.admitted.valid
    obtain ⟨hd,ht⟩ := place_lt (show r < l.rows by omega) (show c < l.columns by omega)
    have live := live_place hr hc
    let p := ((l.place r c).1,(l.place r c).2,h)
    have mem : p∈l.lanes := mem_lanes.mpr ⟨hd,ht,hh⟩
    have m : p∈l.liveLanes := mem_liveLanes.mpr ⟨mem,live⟩
    have written : (scatter l.rawOf value l.liveLanes (fill l.elements output)).getD (l.rawOf p) 0 =
        value p := getD_scatter 0 m
      (fun q mq eq => rawOf_injective (mem_liveLanes.mp mq).1 mem eq)
      (by rw [length_fill long]; exact (inside p m).trans_le long)
    rw [entry,if_pos ⟨hr,hc⟩]
    refine written.trans ((values p mem live).trans ?_)
    rw [coordinates_place (by omega) (by omega)]
  · intro i small none
    rw [getD_scatter_other 0 fun p m eq => ?_,getD_fill _ small]
    obtain ⟨mem,live⟩ := mem_liveLanes.mp m
    rw [mem_lanes] at mem
    rw [← eq,rawOf,laneAt_raw mem.1 mem.2.1 mem.2.2,if_pos live] at none
    cases none
  · rw [drop_scatter inside,drop_fill]

/-- A pass over all slots writes a matrix. -/
lemma holds_map {value : ℕ → α} (long : l.elements≤output.length)
    (values : ∀ p∈l.lanes,l.live p.1 p.2.1 = true →
      value (l.rawOf p) = matrix p.2.2 (l.coordinates p.1 p.2.1).1 (l.coordinates p.1 p.2.1).2) :
    Holds l matrix output
      ((range l.elements).map (fun x => if (l.laneAt x).isSome then value x else 0) ++
        output.drop l.elements) := by
  have size : ((range l.elements).map fun x =>
      if (l.laneAt x).isSome then value x else 0).length=l.elements := by
    rw [List.length_map,List.length_range]
  have front (i : ℕ) (small : i<l.elements) :
      ((range l.elements).map (fun x => if (l.laneAt x).isSome then value x else 0) ++
        output.drop l.elements).getD i 0 = if (l.laneAt i).isSome then value i else 0 := by
    rw [List.getD_append _ _ _ _ (size.symm ▸ small),List.getD_eq_getElem _ _ (size.symm ▸ small),
      List.getElem_map,List.getElem_range]
  refine ⟨?_,?_,?_,?_⟩
  · rw [List.length_append,List.length_drop]
    omega
  · intro h hh r hr c hc
    have valid := l.admitted.valid
    obtain ⟨hd,ht⟩ := place_lt (show r < l.rows by omega) (show c < l.columns by omega)
    have live := live_place hr hc
    have written := values ((l.place r c).1,(l.place r c).2,h) (mem_lanes.mpr ⟨hd,ht,hh⟩) live
    rw [entry,if_pos ⟨hr,hc⟩,front _ (raw_lt hd ht hh),
      laneAt_raw hd ht hh,if_pos live,if_pos (Option.isSome_some)]
    refine written.trans ?_
    rw [coordinates_place (by omega) (by omega)]
  · intro i small none
    rw [front i small,none]
    rfl
  · rw [List.drop_left' size]

end

end Outputs

section Sums

variable {K : Type} [CommRing K]

lemma total_eq {ι : Type} (xs : List ι) (term : ι → K) : total xs term = (xs.map term).sum := by
  have shifted (start : K) :
      xs.foldl (fun sum x => sum+term x) start = start+(xs.map term).sum := by
    induction xs generalizing start with
    | nil => exact (add_zero start).symm
    | cons x xs ih =>
      rw [List.foldl_cons,ih,List.map_cons,List.sum_cons,add_assoc]
  exact (shifted 0).trans (zero_add _)

/-- The product of two packed matrices of every head. -/
def product (left right : Layout) (a b : List K) (h r c : ℕ) : K :=
  ∑ k ∈ Finset.range left.validColumns,left.entry a h r k*right.entry b h k c

lemma sum_entries (left right : Layout) (a b : List K) {n : ℕ} (le : left.validColumns≤n)
    (h r c : ℕ) :
    ∑ k ∈ Finset.range n,left.entry a h r k*right.entry b h k c = product left right a b h r c := by
  refine (Finset.sum_subset (Finset.range_mono le) fun k _ outside => ?_).symm
  have outside : ¬k < left.validColumns := fun small => outside (Finset.mem_range.mpr small)
  rw [entry_outside fun valid => outside valid.2,zero_mul]

end Sums

end Pllm.SlotMatrix
