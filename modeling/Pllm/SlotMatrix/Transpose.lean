import Pllm.Lib.Exec
import Pllm.SlotMatrix.Optimized

/-! The transpose of a packed matrix, and the calls as they write to the buffer of their caller. -/
namespace Pllm.SlotMatrix
open Pllm.Lib List

section Calls

variable {α : Type} [Zero α] (finite : α → Bool)

/-- The entry of the source that a slot of the target takes; the shapes have been checked. -/
def turned (source : Layout) (input : List α) (p : ℕ × ℕ × ℕ) : α :=
  match source.address p.1 p.2.2 p.2.1 with
  | .ok i => input.getD i 0
  | .error _ => 0

def turnedSlot (source target : Layout) (input : List α) (i : ℕ) : α :=
  match target.laneAt i with
  | some p => turned source input p
  | none => 0

def transpose (source : Layout) (input : List α) (target : Layout) (output : List α)
    (limits : Limits) : Result (List α) :=
  if source.rows≠target.columns ∨ source.columns≠target.rows
      ∨ source.validRows≠target.validColumns ∨ source.validColumns≠target.validRows
      ∨ source.heads≠target.heads then .error .geometry
  else do
    buffer input.length source.elements limits
    buffer output.length target.elements limits
    work (← add source.elements target.elements) limits
    source.validate finite input limits
    pure ((List.range target.elements).map (turnedSlot source target input)
      ++output.drop target.elements)

/-- A loop that writes the first slots of the caller's buffer one after the other. -/
def writeSlots {ε : Type} (n : ℕ) (value : ℕ → α) : Exec ε (List α) Unit :=
  Exec.modify (scatter id value (List.range n))

namespace Layout
variable (l : Layout)

def packSlot (dense : List α) (i : ℕ) : α :=
  match l.laneAt i with
  | some p => dense.getD (l.denseAt p) 0
  | none => 0

def packInPlace (dense : List α) (limits : Limits) : Exec Error (List α) Unit := do
  Exec.ofExcept (buffer dense.length l.denseElements limits)
  let output ← Exec.read
  Exec.ofExcept (buffer output.length l.elements limits)
  let cost ← Exec.ofExcept (mul 2 l.elements)
  Exec.ofExcept (work cost limits)
  Exec.require (¬(List.range l.heads ×ˢ List.range l.validRows ×ˢ List.range l.validColumns).any
    fun p => !finite (dense.getD (l.denseAt p) 0)) .nonFinite
  writeSlots l.elements (l.packSlot dense)

def unpackInPlace (slots : List α) (limits : Limits) : Exec Error (List α) Unit := do
  Exec.ofExcept (buffer slots.length l.elements limits)
  let output ← Exec.read
  Exec.ofExcept (buffer output.length l.denseElements limits)
  let double ← Exec.ofExcept (mul 2 l.elements)
  let cost ← Exec.ofExcept (add double l.denseElements)
  Exec.ofExcept (work cost limits)
  Exec.ofExcept (l.validate finite slots limits)
  Exec.modify (fill l.denseElements)
  Exec.modify fun output => (List.range l.elements).foldl (fun output i =>
    match l.laneAt i with
    | some p => output.set (l.denseAt p) (slots.getD i 0)
    | none => output) output

end Layout

def transposeInPlace (source : Layout) (input : List α) (target : Layout) (limits : Limits) :
    Exec Error (List α) Unit := do
  Exec.require (source.rows=target.columns ∧ source.columns=target.rows
    ∧ source.validRows=target.validColumns ∧ source.validColumns=target.validRows
    ∧ source.heads=target.heads) .geometry
  Exec.ofExcept (buffer input.length source.elements limits)
  let output ← Exec.read
  Exec.ofExcept (buffer output.length target.elements limits)
  let cost ← Exec.ofExcept (add source.elements target.elements)
  Exec.ofExcept (work cost limits)
  Exec.ofExcept (source.validate finite input limits)
  writeSlots target.elements (turnedSlot source target input)

end Calls

variable {e : Error} {n h r c i : ℕ}

section Buffers

variable {α β : Type}

/-- The caller's buffer after a call: the result where there is one, and what it was on an error. -/
def Leaves (x : Exec Error (List α) Unit) (output : List α) (result : Result (List α)) : Prop :=
  ∀ deny k,x deny output k = match result with
    | .ok after => (.ok (),after,k)
    | .error e => (.error e,output,k)

variable {x : Exec Error (List α) Unit} {output : List α} {result : Result (List α)}

lemma Leaves.untouched (h : Leaves x output result) {deny : ℕ → Option Error} {after : List α}
    {k j : ℕ} (run : x deny output k = (.error e,after,j)) : after=output := by
  rw [h] at run
  cases result <;> cases run
  rfl

lemma leaves_modify (f : List α → List α) :
    Leaves (Exec.modify f) output (.ok (f output)) := fun _ _ => rfl

lemma leaves_ofExcept {a : Result β} {f : β → Exec Error (List α) Unit}
    {rest : β → Result (List α)} (h : ∀ b,Leaves (f b) output (rest b)) :
    Leaves (Exec.ofExcept a >>= f) output (a >>= rest) := by
  intro deny k
  cases a with
  | error e => rfl
  | ok b => exact h b deny k

lemma leaves_read {f : List α → Exec Error (List α) Unit} (h : Leaves (f output) output result) :
    Leaves (Exec.read >>= f) output result := h

lemma leaves_require {p : Prop} [Decidable p] {f : Unit → Exec Error (List α) Unit}
    (h : Leaves (f ()) output result) :
    Leaves (Exec.require p e >>= f) output (if p then result else .error e) := by
  intro deny k
  unfold Exec.require
  split
  · exact h deny k
  · rfl

lemma scatter_range [Zero α] (value : ℕ → α) (long : n≤output.length) :
    scatter id value (range n) output = (range n).map value++output.drop n := by
  induction n with
  | zero => rfl
  | succ n ih =>
    have size : ((range n).map value).length=n := by simp
    unfold scatter at ih ⊢
    rw [range_succ,foldl_append,ih (by omega),map_append,append_assoc,foldl_cons,foldl_nil,id_eq]
    rw [set_append_right _ _ (by rw [size]),size,Nat.sub_self,drop_eq_getElem_cons (by omega)]
    rfl

variable [Zero α] {finite : α → Bool} {l source target : Layout} {limits : Limits}

lemma leaves_writeSlots (value : ℕ → α) (long : n≤output.length) :
    Leaves (writeSlots n value) output (.ok ((range n).map value++output.drop n)) := by
  rw [← scatter_range value long]
  exact leaves_modify _

lemma pack_leaves (dense : List α) :
    Leaves (l.packInPlace finite dense limits) output (l.pack finite dense output limits) := by
  refine leaves_ofExcept fun _ => leaves_read ?_
  cases long : buffer output.length l.elements limits with
  | error e => exact fun _ _ => rfl
  | ok _ =>
    refine leaves_ofExcept fun _ => leaves_ofExcept fun _ => leaves_ofExcept fun _ => ?_
    rw [← ite_not]
    refine leaves_require (leaves_writeSlots _ ?_)
    have fits : Ends (buffer output.length l.elements limits) _ fun _ => True :=
      buffer_ends fun _ => trivial
    exact (fits.ok long).1

lemma unpack_leaves (slots : List α) :
    Leaves (l.unpackInPlace finite slots limits) output (l.unpack finite slots output limits) := by
  refine leaves_ofExcept fun _ => leaves_read (leaves_ofExcept fun _ => leaves_ofExcept fun _ =>
    leaves_ofExcept fun _ => leaves_ofExcept fun _ => leaves_ofExcept fun _ => ?_)
  exact fun _ _ => rfl

lemma fits_of_buffer {n m : ℕ} (h : buffer n m limits = .ok ()) : Fits n limits m := by
  have fits : Ends (buffer n m limits) _ fun _ => True := buffer_ends fun _ => trivial
  exact fits.ok h

lemma transpose_leaves (input : List α) : Leaves (transposeInPlace finite
    source input target limits) output (transpose finite source input target output limits) := by
  have shapes : (source.rows=target.columns ∧ source.columns=target.rows
      ∧ source.validRows=target.validColumns ∧ source.validColumns=target.validRows
      ∧ source.heads=target.heads) ↔ ¬(source.rows≠target.columns
      ∨ source.columns≠target.rows ∨ source.validRows≠target.validColumns
      ∨ source.validColumns≠target.validRows ∨ source.heads≠target.heads) := by
    simp only [not_or,not_not]
  unfold transposeInPlace transpose
  rw [← ite_not]
  simp only [← shapes]
  refine leaves_require (leaves_ofExcept fun _ => leaves_read ?_)
  cases long : buffer output.length target.elements limits with
  | error e => exact fun _ _ => rfl
  | ok _ =>
    refine leaves_ofExcept fun _ => leaves_ofExcept fun _ => leaves_ofExcept fun _ =>
      leaves_ofExcept fun _ => leaves_writeSlots _ (fits_of_buffer long).1

/-- The shapes of a matrix and of its transpose. -/
structure TransposeShapes (source target : Layout) : Prop where
  rows : source.rows=target.columns
  columns : source.columns=target.rows
  validRows : source.validRows=target.validColumns
  validColumns : source.validColumns=target.validRows
  heads : source.heads=target.heads

section
variable {p : ℕ × ℕ × ℕ} {matrix : ℕ → ℕ → ℕ → α} {after dense : List α}

lemma address_eq (hh : h<l.heads) (hr : r<l.rows) (hc : c<l.columns) :
    l.address h r c = .ok (l.raw (l.place r c).1 (l.place r c).2 h) := by
  rw [Layout.address,if_neg]
  omega

lemma lane_address (hh : h<l.heads) (hr : r<l.validRows)
    (hc : c<l.validColumns) : ∃ i,l.address h r c = .ok i ∧ l.lane i = .ok (some (h,r,c)) := by
  have valid := l.admitted.valid
  have row : r<l.rows := by omega
  have column : c<l.columns := by omega
  obtain ⟨hd,ht⟩ := Layout.place_lt row column
  refine ⟨_,address_eq hh row column,?_⟩
  have small := Layout.raw_lt hd ht hh
  rw [Layout.lane,if_neg (by omega),Layout.laneAt_raw hd ht hh,if_pos (Layout.live_place hr hc),
    Layout.coordinates_place row column]

lemma address_lane (lane : l.lane i = .ok (some p)) : (p.1<l.heads ∧
    p.2.1<l.validRows ∧ p.2.2<l.validColumns) ∧ l.address p.1 p.2.1 p.2.2 = .ok i := by
  have valid := l.admitted.valid
  obtain ⟨-,eq⟩ := ite_error_eq_ok.mp lane
  obtain ⟨inside,index⟩ := held_of_lane (ok_inj eq)
  exact ⟨inside,index ▸ address_eq inside.1 (by omega) (by omega)⟩

lemma transpose_ends {input : List α} : Ends (transpose finite source input target output limits)
      (Holds target (fun h r c => source.entry input h c r) output)
      (Refused (TransposeShapes source target)
        (Fits input.length limits source.elements ∧ Fits output.length limits target.elements)
        (Finite finite source input) (source.elements+target.elements) limits) := by
  unfold transpose
  split
  · rename_i other
    intro shapes
    rcases other with h | h | h | h | h
    · exact h shapes.rows
    · exact h shapes.columns
    · exact h shapes.validRows
    · exact h shapes.validColumns
    · exact h shapes.heads
  · rename_i same
    simp only [not_or,not_not] at same
    obtain ⟨rows,columns,validRows,validColumns,heads⟩ := same
    refine (buffer_ends fun short fits => short fits.1).bind fun _ fits => ?_
    refine (buffer_ends fun short fits => short fits.2).bind fun _ fitsOut => ?_
    refine (add_ends fun big => big).bind_eq ?_
    refine (work_ends fun big => big).bind fun _ _ => ?_
    refine (validate_ends fits fun infinite all => infinite all).bind fun _ _ => ?_
    have written : Holds target (fun h r c => source.entry input h c r) output
        ((range target.elements).map (fun i => if (target.laneAt i).isSome then
          turnedSlot source target input i else 0)++output.drop target.elements) := by
      refine holds_map fitsOut.1 fun p m live => ?_
      obtain ⟨hd,ht,hh⟩ := mem_lanes.mp m
      obtain ⟨row,column⟩ := Layout.live_iff.mp live
      have valid := target.admitted.valid
      have inside : (target.coordinates p.1 p.2.1).2 < source.rows ∧
          (target.coordinates p.1 p.2.1).1 < source.columns := by omega
      simp only [turnedSlot,Layout.rawOf,Layout.laneAt_raw hd ht hh,if_pos live,turned]
      rw [address_eq (heads ▸ hh) inside.1 inside.2,Layout.entry,if_pos (by omega)]
    have same (i : ℕ) : turnedSlot source target input i =
        if (target.laneAt i).isSome then turnedSlot source target input i else 0 := by
      unfold turnedSlot
      cases target.laneAt i <;> rfl
    rw [← map_congr_left fun i _ => same i] at written
    exact written

lemma Holds.slots (h : Holds l matrix output after) (lane : l.lane i = .ok (some p)) :
    after.getD i 0 = matrix p.1 p.2.1 p.2.2 := by
  obtain ⟨⟨hh,hr,hc⟩,address⟩ := address_lane lane
  have valid := l.admitted.valid
  rw [address_eq hh (by omega) (by omega)] at address
  have entry := h.entries p.1 hh p.2.1 hr p.2.2 hc
  rwa [Layout.entry,if_pos ⟨hr,hc⟩,ok_inj address] at entry

/-- The matrix that is unpacked from a buffer. -/
lemma Holds.unpacks (h : Holds l matrix output after) {back : List α}
    (unpacked : l.unpack finite after dense limits = .ok back) {hd r c : ℕ} (hh : hd<l.heads)
    (hr : r<l.rows) (hc : c<l.columns) :
    back.getD (l.denseAt (hd,r,c)) 0 =
      if r<l.validRows ∧ c<l.validColumns then matrix hd r c else 0 := by
  rw [unpack_ends.ok unpacked hd hh r hr c hc]
  split
  · rename_i inside
    exact h.entries hd hh r inside.1 c inside.2
  · rename_i outside
    exact Layout.entry_outside outside

lemma pack_finite (packed : l.pack finite dense output limits = .ok after) : ∀ h<l.heads,∀
    r<l.validRows,∀ c<l.validColumns, finite (dense.getD (l.denseAt (h,r,c)) 0)=true := by
  obtain ⟨_,-,_,-,_,-,_,-,packed⟩ := bind₄_eq_ok.mp packed
  obtain ⟨all,-⟩ := ite_error_eq_ok.mp packed
  intro h hh r hr c hc
  by_contra infinite
  refine all (any_eq_true.mpr ⟨(h,r,c),?_,?_⟩)
  · simp only [mem_product,mem_range]
    exact ⟨hh,hr,hc⟩
  · rw [Bool.not_eq_true] at infinite
    rw [infinite]
    rfl

end

end Buffers

/-- The addresses of the valid entries are the slots whose lanes hold them; packing, unpacking and
transposing write what these say, and a call that is refused leaves its buffer. -/
theorem slot_layout {α : Type} [Zero α] (finite : α → Bool) : (∀ l : Layout,
      (∀ h<l.heads,∀ r<l.validRows,∀ c<l.validColumns,
        ∃ i,l.address h r c = .ok i ∧ l.lane i = .ok (some (h,r,c))) ∧
      (∀ i p,l.lane i = .ok (some p) → (p.1<l.heads ∧ p.2.1<l.validRows ∧ p.2.2<l.validColumns) ∧
          l.address p.1 p.2.1 p.2.2 = .ok i) ∧
      ∀ i<l.elements,∃ p,l.lane i = .ok p) ∧
    (∀ (l : Layout) (limits : Limits) (dense output packed : List α), l.pack finite dense output
      limits = .ok packed → packed.length=output.length ∧ packed.drop l.elements = output.drop
      l.elements ∧ (∀ i p,l.lane i = .ok (some p) → packed.getD i 0 = dense.getD (l.denseAt p) 0) ∧
      (∀ i,l.lane i = .ok none → packed.getD i 0 = 0) ∧
      (∀ h<l.heads,∀ r<l.validRows,∀ c<l.validColumns,
        ∃! i,l.lane i = .ok (some (h,r,c))) ∧
      ∀ (limits' : Limits) (output' : List α), Ends (l.unpack finite packed output' limits')
          (fun back => ∀ h<l.heads,∀ r<l.rows,∀ c<l.columns,back.getD (l.denseAt (h,r,c)) 0 =
            if r<l.validRows ∧ c<l.validColumns then dense.getD (l.denseAt (h,r,c)) 0 else 0)
          (Refused True (Fits packed.length limits' l.elements ∧ Fits output'.length limits'
            l.denseElements) True (2*l.elements+l.denseElements) limits')) ∧
    (∀ (l : Layout) (limits : Limits) (dense output : List α),
      Ends (l.pack finite dense output limits) (fun _ => True)
        (Refused True (Fits dense.length limits l.denseElements ∧
          Fits output.length limits l.elements)
          (∀ h<l.heads,∀ r<l.validRows,∀ c<l.validColumns,
            finite (dense.getD (l.denseAt (h,r,c)) 0)=true) (2*l.elements) limits)) ∧
    (∀ (source target : Layout) (limits : Limits) (input output : List α),
      Ends (transpose finite source input target output limits) (fun turned =>
          (∀ i p,target.lane i = .ok (some p) →
            ∃ j,source.lane j = .ok (some (p.1,p.2.2,p.2.1)) ∧ turned.getD i 0 = input.getD j 0) ∧
          (∀ i,target.lane i = .ok none → turned.getD i 0 = 0) ∧
          ∀ (limits' : Limits) (dense dense' matrix matrix' : List α), source.unpack finite input
            dense limits' = .ok matrix → target.unpack finite turned dense' limits' = .ok matrix' →
            ∀ h<target.heads,∀ r<target.rows,∀ c<target.columns,
              matrix'.getD (target.denseAt (h,r,c)) 0 = matrix.getD (source.denseAt (h,c,r)) 0)
        (Refused (TransposeShapes source target)
          (Fits input.length limits source.elements ∧ Fits output.length limits target.elements)
          (Finite finite source input) (source.elements+target.elements) limits)) ∧
    ∀ (l source target : Layout) (limits : Limits) (input output : List α),
      (Leaves (l.packInPlace finite input limits) output (l.pack finite input output limits) ∧
        Leaves (l.unpackInPlace finite input limits) output (l.unpack finite input output limits) ∧
        Leaves (transposeInPlace finite source input target limits) output
          (transpose finite source input target output limits)) ∧
      ∀ x ∈ [l.packInPlace finite input limits,l.unpackInPlace finite input limits,
          transposeInPlace finite source input target limits],
        ∀ deny k e after j,x deny output k = (.error e,after,j) → after=output := by
  refine ⟨fun l => ⟨fun h hh r hr c hc => lane_address hh hr hc,
    fun i p lane => address_lane lane,fun i small => ⟨l.laneAt i,if_neg (by omega)⟩⟩,?_,?_,?_,?_⟩
  · intro l limits dense output packed run
    have holds := pack_ends.ok run
    refine ⟨holds.length,holds.rest,fun i p lane => holds.slots lane,?_,?_,?_⟩
    · intro i lane
      obtain ⟨small,eq⟩ := ite_error_eq_ok.mp lane
      exact holds.padding i (by omega) (Except.ok.inj eq)
    · intro h hh r hr c hc
      obtain ⟨i,address,lane⟩ := lane_address hh hr hc
      refine ⟨i,lane,fun j other => ?_⟩
      have same := (address_lane other).2
      rw [address] at same
      exact (Except.ok.inj same).symm
    · intro limits' output'
      have all : Finite finite l packed := by
        intro i small p eq
        have lane : l.lane i = .ok (some p) := by rw [Layout.lane,if_neg (by omega),eq]
        obtain ⟨⟨hh,hr,hc⟩,-⟩ := address_lane lane
        rw [holds.slots lane]
        exact pack_finite run p.1 hh p.2.1 hr p.2.2 hc
      cases back : l.unpack finite packed output' limits' with
      | error e =>
        have refused := unpack_ends.error back
        cases e with
        | nonFinite => exact absurd all refused
        | _ => exact refused
      | ok back' => exact fun h hh r hr c hc => holds.unpacks back hh hr hc
  · exact fun l limits dense output => pack_ends.mono fun _ _ => trivial
  · intro source target limits input output
    cases run : transpose finite source input target output limits with
    | error e => exact transpose_ends.error run
    | ok turned =>
      have holds := transpose_ends.ok run
      have shapes : TransposeShapes source target := by
        obtain ⟨same,-⟩ := ite_error_eq_ok.mp run
        simp only [not_or,not_not] at same
        exact ⟨same.1,same.2.1,same.2.2.1,same.2.2.2.1,same.2.2.2.2⟩
      refine ⟨fun i p lane => ?_,fun i lane => ?_,?_⟩
      · obtain ⟨⟨hh,hr,hc⟩,-⟩ := address_lane lane
        have row : p.2.2 < source.validRows := shapes.validRows ▸ hc
        have column : p.2.1 < source.validColumns := shapes.validColumns ▸ hr
        obtain ⟨j,address,held⟩ := lane_address (shapes.heads ▸ hh) row column
        refine ⟨j,held,?_⟩
        have valid := source.admitted.valid
        rw [address_eq (shapes.heads ▸ hh) (by omega) (by omega)] at address
        rw [holds.slots lane,Layout.entry,if_pos ⟨row,column⟩,Except.ok.inj address]
      · obtain ⟨small,eq⟩ := ite_error_eq_ok.mp lane
        exact holds.padding i (by omega) (Except.ok.inj eq)
      · intro limits' dense dense' matrix matrix' first second h hh r hr c hc
        rw [holds.unpacks second hh hr hc,unpack_ends.ok first h (shapes.heads ▸ hh) c
          (shapes.rows ▸ hc) r (shapes.columns ▸ hr)]
        split
        · rfl
        · rename_i outside
          refine (Layout.entry_outside fun inside => outside ⟨?_,?_⟩).symm
          · exact shapes.validColumns ▸ inside.2
          · exact shapes.validRows ▸ inside.1
  · intro l source target limits input output
    refine ⟨⟨pack_leaves input,unpack_leaves input,transpose_leaves input⟩,?_⟩
    intro x m deny k e after j run
    simp only [mem_cons,not_mem_nil,or_false] at m
    rcases m with rfl | rfl | rfl
    · exact (pack_leaves input).untouched run
    · exact (unpack_leaves input).untouched run
    · exact (transpose_leaves input).untouched run

/-- A padded matrix that is packed behind one more slot, and unpacked over other numbers. -/
theorem slot_layout_small : ∃ packed back,
    twoFrames.pack (fun _ => true) [1,2,3,4,5,6,7,8] (replicate 9 9) ⟨9,24⟩ = .ok packed ∧
    packed.drop 8 = [9] ∧
    twoFrames.unpack (fun _ => true) packed (replicate 8 5) ⟨9,24⟩ = .ok back ∧
    ∀ r<2,∀ c<4,back.getD (4*r+c) 0 = if c<3 then 4*r+c+1 else 0 := by
  obtain ⟨-,packs,total,-⟩ := slot_layout (fun _ : ℕ => true)
  obtain ⟨packed,run,-⟩ := ends_ok (total twoFrames ⟨9,24⟩ [1,2,3,4,5,6,7,8] (replicate 9 9)) trivial
    ⟨⟨by decide,by decide⟩,by decide,by decide⟩ (fun _ _ _ _ _ _ => rfl) (by decide) (by decide)
  obtain ⟨length,rest,-,-,-,unpacks⟩ := packs _ _ _ _ _ run
  obtain ⟨back,ok,entries⟩ := ends_ok (unpacks ⟨9,24⟩ (replicate 8 5)) trivial
    ⟨by rw [Fits,length]; exact ⟨by decide,by decide⟩,by decide,by decide⟩ trivial
    (by decide) (by decide)
  refine ⟨packed,back,run,rest,ok,fun r hr c hc => ?_⟩
  have places : ∀ r<2,∀ c<4,twoFrames.denseAt (0,r,c)=4*r+c := by decide
  rw [← places r hr c hc,entries 0 (by decide) r hr c hc]
  clear entries
  revert r c
  decide

end Pllm.SlotMatrix
