import Pllm.SlotMatrix.Lower

/-! The product whose wrapped terms are turned once, after they have been added up. -/
namespace Pllm.SlotMatrix
open Pllm.Lib Nat

namespace Layout

variable {l : Layout} {d t h : ℕ}

variable (l) in
lemma frameSlots_pos : 0<l.frameSlots :=
  mul_pos (mul_pos l.capacity_pos l.length_pos) l.heads_pos

lemma raw_within (ht : t<l.length) (hh : h<l.heads) : l.raw d t h/l.frameSlots = d/l.capacity ∧
      l.raw d t h%l.frameSlots = (d%l.capacity*l.length+t)*l.heads+h := by
  have small : (d%l.capacity*l.length+t)*l.heads+h < l.frameSlots := by
    rw [Shape.frameSlots,mul_assoc]
    have := raw_lt_of (l := l) (mod_lt d l.capacity_pos) ht hh
    rwa [raw_eq] at this
  rw [raw,add_assoc,mul_comm]
  exact ⟨by rw [mul_add_div l.frameSlots_pos,div_eq_of_lt small,add_zero],
    by rw [mul_add_mod,mod_eq_of_lt small]⟩

lemma frames_of_divides (divides : l.diagonals%l.capacity=0) : l.diagonals=l.frames*l.capacity := by
  rw [Shape.frames,if_neg (not_not.mpr divides),add_zero,Nat.div_mul_cancel
    (dvd_of_mod_eq_zero divides)]

end Layout

section

variable {left : Layout} {p : ℕ × ℕ × ℕ} {k : ℕ}

variable (wide : left.rows≤left.columns) (full : left.diagonals%left.capacity=0)

include wide full in
lemma minus_diagonal (hd : p.1<left.diagonals) : minus p.1 k left.rows < left.frames*left.capacity ∧
      minus p.1 k left.rows+k ≡ p.1 [MOD left.frames*left.capacity] := by
  have rows : left.diagonals=left.rows := min_eq_left wide
  rw [← Layout.frames_of_divides full,rows]
  exact ⟨minus_lt (rows ▸ hd),minus_add (rows ▸ hd)⟩

include wide full in
lemma routed_frame (hd : p.1<left.diagonals) :
    minus (minus (p.1/left.capacity) (k/left.capacity) left.frames)
      (if p.1%left.capacity < k%left.capacity then 1 else 0) left.frames =
        minus p.1 k left.rows/left.capacity := by
  have hc := left.capacity_pos
  obtain ⟨small,turned⟩ := minus_diagonal (k := k) wide full hd
  have frame : p.1/left.capacity<left.frames := by
    rw [Nat.div_lt_iff_lt_mul hc,← Layout.frames_of_divides full]
    exact hd
  have first : minus (p.1/left.capacity) (k/left.capacity) left.frames < left.frames :=
    minus_lt frame
  refine residue_unique (b := k/left.capacity +
    if p.1%left.capacity<k%left.capacity then 1 else 0) (minus_lt first) ?_ ?_ ?_
    (a := p.1/left.capacity)
  · rwa [Nat.div_lt_iff_lt_mul hc]
  · rw [add_comm (k/left.capacity),← add_assoc]
    exact ((minus_add first).add_right _).trans (minus_add frame)
  · rw [← add_assoc]
    exact high_of_sub hc turned

/-- Within a frame a wrapped lane starts one diagonal earlier. -/
def startSlot (left : Layout) (p : ℕ × ℕ × ℕ) (k : ℕ) : ℕ :=
  if p.2.1≥left.length-k then
    minus (left.rawOf p%left.frameSlots) (left.length*left.heads) left.frameSlots
  else left.rawOf p%left.frameSlots

/-- The time that a wrapped lane has gone past the end of its diagonal. -/
def wrap (left : Layout) (p : ℕ × ℕ × ℕ) (k : ℕ) : ℕ :=
  if p.2.1≥left.length-k then left.length else 0

lemma startSlot_lt : startSlot left p k < left.frameSlots := by
  have within : left.rawOf p%left.frameSlots < left.frameSlots :=
    mod_lt _ left.frameSlots_pos
  unfold startSlot
  split
  · exact minus_lt within
  · exact within

lemma startSlot_add : startSlot left p k+wrap left p k*left.heads ≡ left.rawOf p%left.frameSlots
      [MOD left.frameSlots] := by
  unfold startSlot wrap
  split
  · exact minus_add (mod_lt _ left.frameSlots_pos)
  · rw [zero_mul,add_zero]

lemma mod_add_wrap (ht : p.2.1<left.length) (hk : k<left.length) :
    (p.2.1+k)%left.length+wrap left p k = p.2.1+k := by
  unfold wrap
  split
  · rw [mod_eq_sub_mod (by omega),mod_eq_of_lt (by omega)]
    omega
  · rw [mod_eq_of_lt (by omega)]
    omega

include wide full in
lemma routed_slot (m : p∈left.lanes) (hk : k<left.length) : plus (startSlot left p k) (minus
    (k*left.heads) (k%left.capacity*(left.length*left.heads)) left.frameSlots) left.frameSlots =
    left.raw (minus p.1 k left.rows) ((p.2.1+k)%left.length) p.2.2%left.frameSlots := by
  obtain ⟨hd,ht,hh⟩ := mem_lanes.mp m
  have hc := left.capacity_pos
  have slots : left.frameSlots=left.capacity*(left.length*left.heads) := mul_assoc _ _ _
  have low : minus p.1 k left.rows%left.capacity+k%left.capacity ≡ p.1%left.capacity
      [MOD left.capacity] := by
    have h := (minus_diagonal (k := k) wide full hd).2.of_mul_left left.frames
    rw [ModEq] at h ⊢
    rw [← add_mod,h,mod_mod]
  have target := (Layout.raw_within (d := minus p.1 k left.rows) (t := (p.2.1+k)%left.length)
    (mod_lt _ left.length_pos) hh).2
  have shift : k*left.heads<left.frameSlots := by
    rw [Shape.frameSlots]
    exact mul_lt_mul_of_pos_right (hk.trans_le (Nat.le_mul_of_pos_left _ hc)) left.heads_pos
  rw [plus_eq startSlot_lt]
  refine residue_unique (b := k%left.capacity*(left.length*left.heads)+wrap left p k*left.heads)
    (a := left.rawOf p%left.frameSlots+k*left.heads)
    (mod_lt _ left.frameSlots_pos) (mod_lt _ left.frameSlots_pos) ?_ ?_
  · have back : startSlot left p k+wrap left p k*left.heads ≡ left.rawOf p%left.frameSlots
        [MOD left.frameSlots] := startSlot_add
    have sum := back.add (minus_add (b := k%left.capacity*(left.length*left.heads)) shift)
    refine ((mod_modEq _ _).add_right _).trans (Eq.trans ?_ sum)
    congr 1
    ring
  · have whole := (low.mul_right' (left.length*left.heads)).add_right ((p.2.1+k)*left.heads+p.2.2)
    rw [Layout.rawOf,(Layout.raw_within (d := p.1) ht hh).2,target,slots]
    refine Eq.trans ?_ (whole.trans ?_)
    · rw [show (minus p.1 k left.rows%left.capacity*left.length+(p.2.1+k)%left.length)*left.heads +
          p.2.2+(k%left.capacity*(left.length*left.heads)+wrap left p k*left.heads) =
          (minus p.1 k left.rows%left.capacity+k%left.capacity)*(left.length*left.heads) +
            (((p.2.1+k)%left.length+wrap left p k)*left.heads+p.2.2) by ring,
        mod_add_wrap ht hk]
    · congr 1
      ring

include wide full in
lemma route_source (m : p∈left.lanes) (hk : k<left.columns) : (route left p k).source =
      left.raw (minus p.1 k left.rows) (plus p.2.1 k left.columns) p.2.2 := by
  obtain ⟨hd,ht,hh⟩ := mem_lanes.mp m
  have length : left.length=left.columns := max_eq_right wide
  have time : plus p.2.1 k left.columns=(p.2.1+k)%left.length := by
    rw [length] at ht ⊢
    exact plus_eq ht
  have frame := (Layout.raw_within (d := minus p.1 k left.rows) (t := (p.2.1+k)%left.length)
    (mod_lt _ left.length_pos) hh).1
  have source : (route left p k).source =
      minus (minus (p.1/left.capacity) (k/left.capacity) left.frames)
        (if p.1%left.capacity < k%left.capacity then 1 else 0) left.frames*left.frameSlots +
      plus (startSlot left p k)
        (minus (k*left.heads) (k%left.capacity*(left.length*left.heads)) left.frameSlots)
        left.frameSlots := by
    simp only [route,startSlot,decide_eq_true_eq]
  rw [source,routed_frame wide full hd,routed_slot wide full m (length ▸ hk),time,← frame]
  exact div_add_mod' _ _

lemma routedTerm_eq {α : Type} [Zero α] [Add α] [Mul α] {right : Layout} {a b : List α} (wide :
    left.rows≤left.columns) (full : left.diagonals%left.capacity=0) (m : p∈left.lanes) (hk :
    k<left.columns) : routedTerm left right a b (p,k) = lowerTerm left right a b p k := by
  obtain ⟨hd,ht,hh⟩ := mem_lanes.mp m
  have rows : left.diagonals=left.rows := min_eq_left wide
  have length : left.length=left.columns := max_eq_right wide
  have time : plus p.2.1 k left.columns < left.length := by
    rw [length] at ht ⊢
    rw [plus_eq ht]
    exact mod_lt _ left.columns_pos
  have lane := Layout.laneAt_raw (rows ▸ minus_lt (rows ▸ hd)) time hh (d := minus p.1 k left.rows)
  unfold routedTerm lowerTerm
  simp only [route_source wide full m hk,lane]
  cases live : left.live (minus p.1 k left.rows) (plus p.2.1 k left.columns) with
  | false =>
    have read : left.read a (minus p.1 k left.rows) (plus p.2.1 k left.columns) p.2.2=0 :=
      if_neg (live ▸ Bool.false_ne_true)
    rw [read]
    rfl
  | true =>
    have read : left.read a (minus p.1 k left.rows) (plus p.2.1 k left.columns) p.2.2 =
        a.getD (left.raw (minus p.1 k left.rows) (plus p.2.1 k left.columns) p.2.2) 0 := if_pos live
    rw [read]
    rfl

lemma turnedPlace_mem (m : p∈left.lanes) : left.elements ≤ turnedPlace left
    (left.rawOf p) ∧ turnedPlace left (left.rawOf p)<2*left.elements := by
  have small := rawOf_lt m
  have frame : left.rawOf p/left.frameSlots < left.frames := by
    rw [Nat.div_lt_iff_lt_mul left.frameSlots_pos]
    exact small
  have turned := minus_lt (b := left.length*left.heads) (mod_lt (left.rawOf p) left.frameSlots_pos)
  have room : (left.rawOf p/left.frameSlots+1)*left.frameSlots ≤ left.elements :=
    Nat.mul_le_mul_right _ frame
  rw [add_mul] at room
  unfold turnedPlace
  exact ⟨by omega,by omega⟩

lemma turnedPlace_injective {x y : ℕ} (eq : turnedPlace left x = turnedPlace left y) : x=y := by
  have hx := minus_lt (b := left.length*left.heads) (mod_lt x left.frameSlots_pos)
  have hy := minus_lt (b := left.length*left.heads) (mod_lt y left.frameSlots_pos)
  unfold turnedPlace at eq
  rw [add_assoc,add_assoc,mul_comm,mul_comm (y/_)] at eq
  have digits := add_left_cancel eq
  have high := congrArg (·/left.frameSlots) digits
  have low := congrArg (·%left.frameSlots) digits
  simp only [mul_add_div left.frameSlots_pos,mul_add_mod,div_eq_of_lt hx,
    div_eq_of_lt hy,mod_eq_of_lt hx,mod_eq_of_lt hy,add_zero] at high low
  have within : x%left.frameSlots=y%left.frameSlots := by
    have tx := minus_add (b := left.length*left.heads) (mod_lt x left.frameSlots_pos)
    have ty := minus_add (b := left.length*left.heads) (mod_lt y left.frameSlots_pos)
    rw [low] at tx
    exact ModEq.eq_of_lt_of_lt (tx.symm.trans ty) (mod_lt _ left.frameSlots_pos)
      (mod_lt _ left.frameSlots_pos)
  rw [← div_add_mod x left.frameSlots,← div_add_mod y left.frameSlots,high,within]

lemma partialPlace_eq (m : p∈left.lanes) : partialPlace left (p,k) =
    if decide (p.2.1≥left.length-k) then turnedPlace left (left.rawOf p)
    else left.rawOf p := by
  obtain ⟨-,ht,hh⟩ := mem_lanes.mp m
  have frame := (Layout.raw_within (d := p.1) ht hh).1
  simp only [partialPlace,route,turnedPlace,Layout.rawOf,frame]
  split <;> rfl

lemma nodup_lanes : left.lanes.Nodup :=
  List.nodup_range.product (List.nodup_range.product List.nodup_range)

variable {K : Type} [CommRing K] {right out : Layout} {a b : List K} {finite : K → Bool}
  {limits : Limits}

lemma sum_halves (wide : left.rows≤left.columns) (full : left.diagonals%left.capacity=0)
    {scratch : List K} (long : 2*left.elements ≤ scratch.length) (m : p∈left.lanes) :
    let scratch := scatterAdd (partialPlace left) (routedTerm left right a b)
      (left.lanes ×ˢ List.range left.columns) (fill (2*left.elements) scratch)
    scratch.getD (left.rawOf p) 0+scratch.getD (turnedPlace left (left.rawOf p)) 0 =
      ∑ k ∈ Finset.range left.columns,lowerTerm left right a b p k := by
  have inside (q : ℕ × ℕ × ℕ) (mq : q∈left.lanes) : left.rawOf q < 2*left.elements ∧
      turnedPlace left (left.rawOf q)<2*left.elements := by
    have := rawOf_lt mq
    exact ⟨by omega,(turnedPlace_mem mq).2⟩
  have pair := getD_scatterAdd_pair left.rawOf (fun q => turnedPlace left (left.rawOf q))
    (fun q k => decide (q.2.1≥left.length-k)) (fun x => lowerTerm left right a b x.1 x.2)
    (List.range left.columns) nodup_lanes
    (fun q mq => by
      rw [length_fill long]
      exact ⟨(inside q mq).1.trans_le long,(inside q mq).2.trans_le long⟩)
    (fun q mq r mr eq => by
      have := rawOf_lt mq
      have := (turnedPlace_mem mr).1
      omega)
    (fun q mq r mr eq => rawOf_injective mq mr (eq.elim id turnedPlace_injective)) m
    ⟨getD_fill scratch (inside p m).1,getD_fill scratch (inside p m).2⟩
  intro final
  refine Eq.trans ?_ pair
  have same : final=scatterAdd _ _ _ _ := scatterAdd_congr (fun x mx => by
    obtain ⟨mq,mk⟩ := List.mem_product.mp mx
    exact ⟨partialPlace_eq mq,routedTerm_eq wide full mq (List.mem_range.mp mk)⟩) _
  rw [same]

structure OptimizedShapes (left right out : Layout) : Prop where
  shapes : LowerShapes left right out
  full : left.diagonals%left.capacity=0
  same : out=left

lemma optimizedShapes_iff : OptimizedShapes left right out ↔ ¬(left.diagonal ≠ .lower ∨
    left.rows>left.columns ∨ left.diagonals%left.capacity≠0) ∧ ¬(right.rows≠left.columns ∨
    right.columns≠left.columns ∨ right.diagonal ≠ .lower ∨ out≠left ∨ right.heads≠left.heads ∨
    left.validColumns≠right.validRows ∨ out.validColumns≠right.validColumns) := by
  simp only [not_or,not_not,gt_iff_lt,not_lt]
  constructor
  · rintro ⟨⟨⟨h1,h2,-⟩,h3,⟨h4,h5⟩,-,⟨h6,-⟩,⟨h7,-,h8⟩⟩,full,same⟩
    exact ⟨⟨h1,h3,full⟩,h4,h5,h2,same,h6.symm,h7,h8⟩
  · rintro ⟨⟨h1,h3,full⟩,h4,h5,h2,rfl,h6,h7,h8⟩
    exact ⟨⟨⟨h1,h2,h1⟩,h3,⟨h4,h5⟩,⟨rfl,rfl⟩,⟨h6.symm,rfl⟩,⟨h7,rfl,h8⟩⟩,full,rfl⟩

lemma frames_mul_le {n : ℕ} (hn : n≤left.columns) : left.frames*n≤left.elements*left.columns := by
  have := left.frameSlots_pos
  exact mul_le_mul' (Nat.le_mul_of_pos_right _ this) hn

section
variable {bad : Error → Prop}
  (shape : (left.diagonal ≠ .lower ∨ left.rows>left.columns ∨ left.diagonals%left.capacity≠0) → bad .geometry)
  (big : 2^64≤4*(left.elements*left.columns) → bad .overflow)
include shape big

lemma lowerSchedule_ends : Ends (lowerSchedule left) (fun _ =>
    ¬(left.diagonal ≠ .lower ∨ left.rows>left.columns ∨ left.diagonals%left.capacity≠0)) bad := by
  have pairs : left.frames*(left.columns-1) ≤ left.elements*left.columns :=
    frames_mul_le (sub_le _ _)
  have all : left.frames*left.columns ≤ left.elements*left.columns := frames_mul_le le_rfl
  unfold lowerSchedule
  split
  · exact shape ‹_›
  · rename_i fits
    refine (mul_ends fun h => big (by omega)).bind fun _ eq => ?_
    refine (mul_ends fun h => big (by omega)).bind fun _ _ => ?_
    refine (mul_ends fun h => big (by omega)).bind fun _ _ => ?_
    refine (mul_ends fun h => big (by omega)).bind fun _ _ => ?_
    exact fits

lemma optimizedLowerSchedule_ends : Ends (optimizedLowerSchedule left) (fun _ =>
    ¬(left.diagonal ≠ .lower ∨ left.rows>left.columns ∨ left.diagonals%left.capacity≠0)) bad := by
  have pairs : left.frames*(left.columns-1) ≤ left.elements*left.columns :=
    frames_mul_le (sub_le _ _)
  have all : left.frames*left.columns ≤ left.elements*left.columns := frames_mul_le le_rfl
  have one : left.frames*1≤left.elements*left.columns := frames_mul_le left.columns_pos
  refine (lowerSchedule_ends shape big).bind fun _ fits => ?_
  refine (mul_ends fun h => big (by omega)).bind fun _ eq => ?_
  refine (mul_ends fun h => big (by omega)).bind fun _ _ => ?_
  refine (mul_ends fun h => big (by omega)).bind fun _ _ => ?_
  refine (add_ends fun h => big ?_).bind fun _ _ => ?_
  · refine h.trans ?_
    split <;> omega
  · exact fits

end

lemma optimizedLowerMm_ends {scratch output : List K} :
    Ends (optimizedLowerMm finite left a right b out scratch output limits)
      (fun result => Holds out (product left right a b) output result.2)
      (Refused (OptimizedShapes left right out)
        (Fits a.length limits left.elements ∧ Fits b.length limits right.elements ∧
          Fits scratch.length limits (2*left.elements) ∧ Fits output.length limits out.elements)
        (Finite finite left a ∧ Finite finite right b)
        (left.elements+right.elements+4*left.elements*left.columns) limits) := by
  have enough : 2^64≤4*(left.elements*left.columns) →
      2^64 ≤ left.elements+right.elements+4*left.elements*left.columns := by
    rw [mul_assoc]
    omega
  have once : left.elements≤left.elements*left.columns :=
    Nat.le_mul_of_pos_right _ left.columns_pos
  refine (optimizedLowerSchedule_ends (fun wrong shapes =>
    (optimizedShapes_iff.mp shapes).1 wrong) enough).bind fun _ leftFits => ?_
  split
  · rename_i wrong
    exact fun shapes => (optimizedShapes_iff.mp shapes).2 wrong
  · rename_i rightFits
    have lower := (optimizedShapes_iff.mpr ⟨leftFits,rightFits⟩).shapes
    have full := (optimizedShapes_iff.mpr ⟨leftFits,rightFits⟩).full
    obtain rfl := (optimizedShapes_iff.mpr ⟨leftFits,rightFits⟩).same
    refine (mul_ends fun big => enough (by omega)).bind_eq ?_
    refine (buffer_ends fun short fits => short fits.1).bind fun _ fitsA => ?_
    refine (buffer_ends fun short fits => short fits.2.1).bind fun _ fitsB => ?_
    refine (buffer_ends fun short fits => short fits.2.2.1).bind fun _ fitsScratch => ?_
    refine (buffer_ends fun short fits => short fits.2.2.2).bind fun _ fitsOut => ?_
    refine (add_ends fun big => big.trans le_self_add).bind_eq ?_
    refine (mul_ends fun big => enough (by omega)).bind_eq ?_
    refine (mul_ends fun big => big.trans le_add_self).bind_eq ?_
    refine (add_ends fun big => big).bind_eq ?_
    refine (work_ends fun big => big).bind fun _ _ => ?_
    refine (validate_ends fitsA fun infinite all => infinite all.1).bind fun _ _ => ?_
    refine (validate_ends fitsB fun infinite all => infinite all.2).bind fun _ _ => ?_
    refine holds_map fitsOut.1 fun p m _ => ?_
    rw [sum_halves lower.wide full fitsScratch.1 m,sum_lowerTerm lower m]

end

open List

section Dense

variable {l : Layout} {α : Type} [Zero α] {finite : α → Bool} {limits : Limits} {p : ℕ × ℕ × ℕ}

lemma denseAt_injective {q : ℕ × ℕ × ℕ} (hp : p.2.1<l.rows ∧ p.2.2<l.columns)
    (hq : q.2.1<l.rows ∧ q.2.2<l.columns) (eq : l.denseAt p = l.denseAt q) : p=q := by
  have column := congrArg (·%l.columns) eq
  have row := congrArg (·/l.columns) eq
  simp only [Layout.denseAt,mul_comm _ l.columns,mul_add_mod, mul_add_div l.columns_pos,mod_eq_of_lt
    hp.2,mod_eq_of_lt hq.2, div_eq_of_lt hp.2,div_eq_of_lt hq.2,add_zero] at column row
  have low := congrArg (·%l.rows) row
  have high := congrArg (·/l.rows) row
  simp only [mul_comm _ l.rows,mul_add_mod,mul_add_div l.rows_pos,mod_eq_of_lt
    hp.1,mod_eq_of_lt hq.1,div_eq_of_lt hp.1,div_eq_of_lt hq.1,add_zero] at low high
  exact Prod.ext high (Prod.ext low column)

lemma denseAt_lt (hh : p.1<l.heads) (hr : p.2.1<l.rows)
    (hc : p.2.2<l.columns) : l.denseAt p < l.denseElements := by
  calc l.denseAt p < (p.1*l.rows+p.2.1+1)*l.columns := by
        rw [Layout.denseAt,add_mul _ 1]
        omega
    _ ≤ (p.1+1)*l.rows*l.columns := by
        refine Nat.mul_le_mul_right _ ?_
        rw [add_mul _ 1]
        omega
    _ ≤ l.heads*l.rows*l.columns := Nat.mul_le_mul_right _ (Nat.mul_le_mul_right _ hh)
    _ = l.denseElements := by
        rw [Shape.denseElements]
        ring

/-- The lanes that hold an entry, with their indices. -/
def heldLanes (l : Layout) : List ((ℕ × ℕ × ℕ) × ℕ) :=
  (List.range l.elements).filterMap fun i => (l.laneAt i).map fun p => (p,i)

lemma mem_heldLanes {i : ℕ} : (p,i) ∈ heldLanes l ↔ i<l.elements ∧ l.laneAt i = some p := by
  simp only [heldLanes,mem_filterMap,mem_range,Option.map_eq_some_iff,Prod.mk.injEq]
  constructor
  · rintro ⟨j,small,q,eq,rfl,rfl⟩
    exact ⟨small,eq⟩
  · rintro ⟨small,eq⟩
    exact ⟨i,small,p,eq,rfl,rfl⟩

lemma foldl_heldLanes (slots output : List α) : (range l.elements).foldl (fun output i =>
      match l.laneAt i with
      | some p => output.set (l.denseAt p) (slots.getD i 0)
      | none => output) output =
    scatter (fun x => l.denseAt x.1) (fun x => slots.getD x.2 0) (heldLanes l) output := by
  unfold heldLanes
  generalize range l.elements=xs
  induction xs generalizing output with
  | nil => rfl
  | cons i xs ih =>
    rw [foldl_cons,ih,filterMap_cons]
    cases l.laneAt i <;> rfl

lemma held_of_lane {i : ℕ} (eq : l.laneAt i = some p) : (p.1<l.heads ∧ p.2.1<l.validRows ∧
    p.2.2<l.validColumns) ∧ i = l.raw (l.place p.2.1 p.2.2).1 (l.place p.2.1 p.2.2).2 p.1 := by
  obtain ⟨d,t,hd,ht,hh,live,rfl,coordinates⟩ := Layout.laneAt_eq_some eq
  rw [coordinates,Layout.place_coordinates hd ht]
  exact ⟨⟨hh,Layout.live_iff.mp live⟩,rfl⟩

lemma unpack_ends {slots output : List α} : Ends (l.unpack finite slots output limits) (fun dense
    => ∀ h<l.heads,∀ r<l.rows,∀ c<l.columns, dense.getD (l.denseAt (h,r,c)) 0 = l.entry slots h r c)
    (Refused True (Fits slots.length limits l.elements ∧ Fits output.length limits l.denseElements)
    (Finite finite l slots) (2*l.elements+l.denseElements) limits) := by
  have valid := l.admitted.valid
  refine (buffer_ends fun short fits => short fits.1).bind fun _ fits => ?_
  refine (buffer_ends fun short fits => short fits.2).bind fun _ fitsOut => ?_
  refine (mul_ends fun big => big.trans le_self_add).bind_eq ?_
  refine (add_ends fun big => big).bind_eq ?_
  refine (work_ends fun big => big).bind fun _ _ => ?_
  refine (validate_ends fits fun infinite all => infinite all).bind fun _ _ => ?_
  intro h hh r hr c hc
  refine (congrArg (fun dense => dense.getD (l.denseAt (h,r,c)) 0)
    (foldl_heldLanes slots (fill l.denseElements output))).trans ?_
  by_cases inside : r<l.validRows ∧ c<l.validColumns
  · obtain ⟨hd,ht⟩ := Layout.place_lt hr hc
    let i := l.raw (l.place r c).1 (l.place r c).2 h
    have m : ((h,r,c),i) ∈ heldLanes l := by
      refine mem_heldLanes.mpr ⟨Layout.raw_lt hd ht hh,?_⟩
      rw [Layout.laneAt_raw hd ht hh,if_pos (Layout.live_place inside.1 inside.2),
        Layout.coordinates_place hr hc]
    have written : (scatter (fun x : (ℕ × ℕ × ℕ) × ℕ => l.denseAt x.1) (fun x => slots.getD x.2 0)
        (heldLanes l) (fill l.denseElements output)).getD (l.denseAt (h,r,c)) 0 =
          slots.getD i 0 := getD_scatter 0 m
      (fun x mx eq => by
        obtain ⟨held,index⟩ := held_of_lane (mem_heldLanes.mp mx).2
        have same : x.1=(h,r,c) := denseAt_injective ⟨by omega,by omega⟩ ⟨hr,hc⟩ eq
        rw [same] at index
        exact Prod.ext same index)
      (by
        rw [length_fill fitsOut.1]
        exact (denseAt_lt hh hr hc).trans_le fitsOut.1)
    rw [Layout.entry,if_pos inside]
    exact written
  · rw [Layout.entry_outside inside,getD_scatter_other 0 fun x mx eq => ?_,
      getD_fill _ (denseAt_lt hh hr hc)]
    obtain ⟨held,-⟩ := held_of_lane (mem_heldLanes.mp mx).2
    have same : x.1=(h,r,c) := denseAt_injective ⟨by omega,by omega⟩ ⟨hr,hc⟩ eq
    rw [same] at held
    exact inside held.2

lemma pack_ends {dense output : List α} : Ends (l.pack finite dense output limits)
      (Holds l (fun h r c => dense.getD (l.denseAt (h,r,c)) 0) output)
      (Refused True (Fits dense.length limits l.denseElements ∧
        Fits output.length limits l.elements)
        (∀ h<l.heads,∀ r<l.validRows,∀ c<l.validColumns,
          finite (dense.getD (l.denseAt (h,r,c)) 0)=true) (2*l.elements) limits) := by
  refine (buffer_ends fun short fits => short fits.1).bind fun _ _ => ?_
  refine (buffer_ends fun short fits => short fits.2).bind fun _ fitsOut => ?_
  refine (mul_ends fun big => big).bind_eq ?_
  refine (work_ends fun big => big).bind fun _ _ => ?_
  split
  · rename_i infinite
    intro all
    obtain ⟨⟨h,r,c⟩,m,found⟩ := any_eq_true.mp infinite
    simp only [mem_product,mem_range] at m
    rw [all h m.1 r m.2.1 c m.2.2] at found
    cases found
  · let value (i : ℕ) : α := match l.laneAt i with
      | some p => dense.getD (l.denseAt p) 0
      | none => 0
    have same (i : ℕ) : value i=if (l.laneAt i).isSome then value i else 0 := by
      simp only [value]
      cases l.laneAt i <;> rfl
    have written : Holds l (fun h r c => dense.getD (l.denseAt (h,r,c)) 0) output
        ((range l.elements).map (fun i => if (l.laneAt i).isSome then value i else 0) ++
          output.drop l.elements) := holds_map fitsOut.1 fun p m live => by
      obtain ⟨hd,ht,hh⟩ := mem_lanes.mp m
      simp only [value,Layout.rawOf,Layout.laneAt_raw hd ht hh,if_pos live]
    rw [← map_congr_left fun i _ => same i] at written
    exact written

end Dense

section Padding

variable {l left right out : Layout} {α : Type} [Zero α] {finite : α → Bool} {limits : Limits}
  {slots slots' a a' b b' : List α}

/-- Two buffers that differ in slots without an entry at most. -/
def SameLanes (l : Layout) (slots slots' : List α) : Prop :=
  slots.length=slots'.length ∧
    ∀ i<l.elements,(l.laneAt i).isSome = true → slots.getD i 0 = slots'.getD i 0

lemma read_congr (same : SameLanes l slots slots') (m : p∈l.lanes) :
    l.read slots p.1 p.2.1 p.2.2 = l.read slots' p.1 p.2.1 p.2.2 := by
  obtain ⟨hd,ht,hh⟩ := mem_lanes.mp m
  refine ite_congr rfl (fun live => ?_) fun _ => rfl
  refine same.2 _ (Layout.raw_lt hd ht hh) ?_
  rw [Layout.laneAt_raw hd ht hh,if_pos live]
  rfl

lemma validate_congr (same : SameLanes l slots slots') :
    l.validate finite slots limits = l.validate finite slots' limits := by
  have tests : ((range l.elements).any fun i =>
      (l.laneAt i).isSome && !finite (slots.getD i 0)) =
      (range l.elements).any fun i => (l.laneAt i).isSome && !finite (slots'.getD i 0) := by
    rw [Bool.eq_iff_iff,any_eq_true,any_eq_true]
    refine exists_congr fun i => and_congr_right fun m => ?_
    cases some : (l.laneAt i).isSome with
    | false => rfl
    | true => rw [same.2 i (mem_range.mp m) some]
  unfold Layout.validate
  rw [same.1,tests]

lemma total_congr [Add α] {ι : Type} {xs : List ι} {f g : ι → α} (same : ∀ x∈xs,f x = g x) :
    total xs f = total xs g := by
  refine foldl_ext _ _ _ fun sum x m => ?_
  rw [same x m]

variable [Add α] [Mul α]

omit [Add α] in
lemma lowerTerm_congr (shapes : LowerShapes left right out) (sameA : SameLanes left a a')
    (sameB : SameLanes right b b') (m : p∈out.lanes) {k : ℕ}
    (hk : k<left.columns) : lowerTerm left right a b p k = lowerTerm left right a' b' p k := by
  obtain ⟨first,second⟩ := lowerTerm_lanes shapes m hk
  exact congrArg₂ _ (read_congr sameA first) (read_congr sameB second)

lemma lowerMm_congr (sameA : SameLanes left a a') (sameB : SameLanes right b b')
    (output : List α) : lowerMm finite left a right b out output limits =
      lowerMm finite left a' right b' out output limits := by
  unfold lowerMm
  split
  · rfl
  · rename_i admitted
    have shapes := lowerShapes_iff.mpr admitted
    rw [sameA.1,sameB.1,validate_congr sameA,validate_congr sameB,
      scatter_congr fun p m => total_congr fun k mk => lowerTerm_congr shapes sameA sameB
        (mem_liveLanes.mp m).1 (mem_range.mp mk)]

lemma optimizedLowerMm_congr (sameA : SameLanes left a a') (sameB : SameLanes right b b')
    (scratch output : List α) : optimizedLowerMm finite left a right b out scratch output limits =
    optimizedLowerMm finite left a' right b' out scratch output limits := by
  unfold optimizedLowerMm
  cases scheduled : optimizedLowerSchedule left with
  | error e => rfl
  | ok schedule =>
    split
    · rfl
    · rename_i rightFits
      have ends : Ends (optimizedLowerSchedule left) _ fun _ => True :=
        optimizedLowerSchedule_ends (fun _ => trivial) fun _ => trivial
      have leftFits := ends.ok scheduled
      have optimized := optimizedShapes_iff.mpr ⟨leftFits,rightFits⟩
      obtain rfl := optimized.same
      rw [sameA.1,sameB.1,validate_congr sameA,validate_congr sameB]
      iterate 12 refine bind_congr fun _ => ?_
      rw [scatterAdd_congr fun x mx => ?_]
      obtain ⟨m,mk⟩ := mem_product.mp mx
      have hk := mem_range.mp mk
      refine ⟨rfl,?_⟩
      exact (routedTerm_eq optimized.shapes.wide optimized.full m hk).trans
        ((lowerTerm_congr optimized.shapes sameA sameB m hk).trans
          (routedTerm_eq optimized.shapes.wide optimized.full m hk).symm)

lemma blockPcMm_congr {layout : Layout} {weights : List α} (same : SameLanes layout b b')
    (output : List α) : blockPcMm finite layout weights b output limits =
      blockPcMm finite layout weights b' output limits := by
  unfold blockPcMm
  cases scheduled : blockPcSchedule layout with
  | error e => rfl
  | ok schedule =>
    have ends : Ends (blockPcSchedule layout) (fun _ => BlockShape layout) fun _ => True :=
      blockPcSchedule_ends (fun _ => trivial) fun _ => trivial
    have shape := ends.ok scheduled
    have diagonals : layout.diagonals=layout.rows := by
      rw [Shape.diagonals,← shape.square,min_self]
    rw [same.1,validate_congr same,scatter_congr fun p m => total_congr fun x mx => ?_]
    obtain ⟨hd,ht,-⟩ := mem_lanes.mp (mem_filter.mp m).1
    obtain ⟨mk,mj⟩ := mem_product.mp mx
    exact congrArg _ (read_congr (p := (x.2,p.2.1,x.1)) same (mem_lanes.mpr
      ⟨diagonals ▸ mem_range.mp mj,ht,mem_range.mp mk⟩))

variable [Sub α] {half : α}

lemma pairedTerm_congr (shapes : PairedShapes left right out) (sameA : SameLanes left a a') (sameB
    : SameLanes right b b') (m : p∈out.lanes) {k : ℕ} (hk : k<left.columns/2) :
    pairedTerm half left right a b p k = pairedTerm half left right a' b' p k := by
  obtain ⟨first,second⟩ := pairedRead_lanes shapes m (k := k) (by omega)
  obtain ⟨third,fourth⟩ := pairedRead_lanes shapes m (k := k+left.columns/2) (by omega)
  have h1 := read_congr sameA first
  have h2 := read_congr sameB second
  have h3 := read_congr sameA third
  have h4 := read_congr sameB fourth
  simp only [pairedTerm] at *
  rw [h1,h2,h3,h4]

lemma pairedUpperLowerMm_congr (sameA : SameLanes left a a') (sameB : SameLanes right b b')
    (imaginary output : List α) : pairedUpperLowerMm finite half left a right b out imaginary output
    limits = pairedUpperLowerMm finite half left a' right b' out imaginary output limits := by
  unfold pairedUpperLowerMm
  dsimp only
  split
  · rfl
  · rename_i admitted
    have shapes := pairedShapes_iff.mpr admitted
    have terms (p : ℕ × ℕ × ℕ) (m : p∈out.liveLanes) (k : ℕ) (mk : k ∈ range (left.columns/2)) :
        pairedTerm half left right a b p k = pairedTerm half left right a' b' p k :=
      pairedTerm_congr shapes sameA sameB (mem_liveLanes.mp m).1 (mem_range.mp mk)
    have re (p : ℕ × ℕ × ℕ) (m : p∈out.liveLanes) :=
      total_congr fun k mk => congrArg Prod.fst (terms p m k mk)
    have im (p : ℕ × ℕ × ℕ) (m : p∈out.liveLanes) :=
      total_congr fun k mk => congrArg Prod.snd (terms p m k mk)
    rw [sameA.1,sameB.1,validate_congr sameA,validate_congr sameB,scatter_congr im,
      scatter_congr fun p m => congrArg₂ (·+·) (re p m) (re p m)]

end Padding

/-- Unpacking gives the matrix that is held, each product holds the product of the matrices of its
operands, and no product depends on a slot without an entry, not even in its errors. -/
theorem diagonal_products (limits : Limits) : (∀ {K : Type} [CommRing K] (finite : K → Bool),
      (∀ (l : Layout) (slots output : List K),Ends (l.unpack finite slots output limits)
        (fun dense => ∀ h<l.heads,∀ r<l.rows,∀ c<l.columns,
          dense.getD (l.denseAt (h,r,c)) 0 = l.entry slots h r c)
        (Refused True (Fits slots.length limits l.elements ∧ Fits output.length limits
          l.denseElements) (Finite finite l slots) (2*l.elements+l.denseElements) limits)) ∧
      (∀ (left right out : Layout) (a b output : List K),
        Ends (lowerMm finite left a right b out output limits)
          (Holds out (product left right a b) output)
          (Refused (LowerShapes left right out)
            (Fits a.length limits left.elements ∧ Fits b.length limits right.elements ∧
              Fits output.length limits out.elements)
            (Finite finite left a ∧ Finite finite right b)
            (left.elements+right.elements+out.elements*(left.columns+1)) limits)) ∧
      (∀ (left right out : Layout) (a b scratch output : List K),
        Ends (optimizedLowerMm finite left a right b out scratch output limits)
          (fun result => Holds out (product left right a b) output result.2)
          (Refused (OptimizedShapes left right out)
            (Fits a.length limits left.elements ∧ Fits b.length limits right.elements ∧ Fits
              scratch.length limits (2*left.elements) ∧ Fits output.length limits out.elements)
            (Finite finite left a ∧ Finite finite right b)
            (left.elements+right.elements+4*left.elements*left.columns) limits)) ∧
      (∀ (layout : Layout) (weights b output : List K),
        let d := layout.rows*layout.heads
        Ends (blockPcMm finite layout weights b output limits)
          (Holds layout (blockProduct layout weights b) output)
          (Refused (BlockShape layout)
            (Fits weights.length limits (d*d) ∧ Fits b.length limits layout.elements ∧
              Fits output.length limits layout.elements)
            ((∀ w ∈ weights.take (d*d),finite w = true) ∧ Finite finite layout b)
            (d*d+2*layout.elements+layout.elements*d) limits)) ∧
      ∀ half : K,half+half=1 → ∀ (left right out : Layout) (a b imaginary output : List K),
        Ends (pairedUpperLowerMm finite half left a right b out imaginary output limits)
          (fun result => Holds out (product left right a b) output result.2)
          (Refused (PairedShapes left right out)
            (Fits a.length limits left.elements ∧ Fits b.length limits right.elements ∧
              Fits output.length limits out.elements ∧ Fits imaginary.length limits out.elements)
            (Finite finite left a ∧ Finite finite right b)
            (left.elements+right.elements+8*out.elements*left.columns) limits)) ∧
    ∀ {α : Type} [Zero α] [Add α] [Mul α] [Sub α] (finite : α → Bool) (half : α)
      (left right out : Layout) (a a' b b' : List α),
      SameLanes left a a' → SameLanes right b b' → ∀ scratch output : List α,
      lowerMm finite left a right b out output limits =
        lowerMm finite left a' right b' out output limits ∧
      optimizedLowerMm finite left a right b out scratch output limits =
        optimizedLowerMm finite left a' right b' out scratch output limits ∧
      blockPcMm finite right a b output limits = blockPcMm finite right a b' output limits ∧
      pairedUpperLowerMm finite half left a right b out scratch output limits =
        pairedUpperLowerMm finite half left a' right b' out scratch output limits := by
  constructor
  · intro K ring finite
    exact ⟨fun _ _ _ => unpack_ends,fun _ _ _ _ _ _ => lowerMm_ends,
      fun _ _ _ _ _ _ _ => optimizedLowerMm_ends,fun _ _ _ _ => blockPcMm_ends,
      fun half one _ _ _ _ _ _ _ => pairedUpperLowerMm_ends one⟩
  · intro α _ _ _ _ finite half left right out a a' b b' sameA sameB scratch output
    exact ⟨lowerMm_congr sameA sameB output,optimizedLowerMm_congr sameA sameB scratch output,
      blockPcMm_congr sameB output,pairedUpperLowerMm_congr sameA sameB scratch output⟩

/-- A padded layout of two frames. -/
def twoFrames : Layout := ⟨⟨2,4,2,3,1,1,.lower⟩,by decide,by decide,by decide,by decide,by decide,
  by decide⟩

/-- A padded square layout whose frames hold two diagonals. -/
def square : Layout := ⟨⟨4,4,3,2,1,2,.lower⟩,by decide,by decide,by decide,by decide,by decide,
  by decide⟩

/-- A product of padded matrices of two frames each, and other numbers in the padding. -/
theorem diagonal_products_small : ∃ (out : Layout) (after : List ℤ), lowerMm (fun _ => true)
    twoFrames [1,2,3,4,5,6,7,8] square [1,2,3,4,5,6,7,8,9,10,11,12,13,14,15,16] out (replicate 8 9)
    ⟨16,64⟩ = .ok after ∧ (∀ h<1,∀ r<2,∀ c<2,out.entry after h r c = ∑ k ∈ Finset.range 3,
    twoFrames.entry [1,2,3,4,5,6,7,8] h r k * square.entry [1,2,3,4,5,6,7,8,9,10,11,12,13,14,15,16]
    h k c) ∧ lowerMm (fun _ => true) twoFrames [1,2,3,0,5,6,7,0] square
    [1,2,3,4,5,6,7,8,9,10,11,12,13,14,15,16] out (replicate 8 9) ⟨16,64⟩ = .ok after := by
  let out : Layout := ⟨⟨2,4,2,2,1,1,.lower⟩,by decide,by decide,by decide,by decide,by decide,
    by decide⟩
  obtain ⟨products,padding⟩ := diagonal_products ⟨16,64⟩
  obtain ⟨-,lower,-⟩ := products (fun _ : ℤ => true)
  obtain ⟨after,run,holds⟩ := ends_ok (lower twoFrames square out [1,2,3,4,5,6,7,8]
      [1,2,3,4,5,6,7,8,9,10,11,12,13,14,15,16] (replicate 8 9))
    ⟨⟨rfl,rfl,rfl⟩,by decide,⟨rfl,rfl⟩,⟨rfl,rfl⟩,⟨rfl,rfl⟩,rfl,rfl,rfl⟩
    ⟨⟨by decide,by decide⟩,⟨by decide,by decide⟩,by decide,by decide⟩
    ⟨fun _ _ _ _ => rfl,fun _ _ _ _ => rfl⟩ (by decide) (by decide)
  have same : SameLanes twoFrames [(1:ℤ),2,3,0,5,6,7,0] [1,2,3,4,5,6,7,8] :=
    ⟨rfl,by decide +kernel⟩
  exact ⟨out,after,run,holds.entries,(padding (fun _ : ℤ => true) 0 twoFrames square out _ _ _ _ same
    ⟨rfl,fun _ _ _ => rfl⟩ [] _).1.trans run⟩

end Pllm.SlotMatrix
