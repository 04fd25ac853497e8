import Pllm.SlotMatrix.Products

/-! The product of two matrices that are packed by their lower diagonals. -/
namespace Pllm.SlotMatrix
open Pllm.Lib

namespace Layout

variable {l : Layout}

lemma elements_pos : 0<l.elements :=
  Nat.zero_lt_of_lt (raw_lt l.admitted.diagonals l.length_pos l.heads_pos)

lemma coordinates_lower (h : l.diagonal = .lower) (d t : ℕ) :
    l.coordinates d t = along l.rows l.columns d t := by
  rw [coordinates_eq,h]

lemma coordinates_upper (h : l.diagonal = .upper) (d t : ℕ) :
    l.coordinates d t = (along l.columns l.rows d t).swap := by
  rw [coordinates_eq,h]

end Layout

structure LowerShapes (left right out : Layout) : Prop where
  diagonals : left.diagonal = .lower ∧ right.diagonal = .lower ∧ out.diagonal = .lower
  wide : left.rows≤left.columns
  square : right.rows=left.columns ∧ right.columns=left.columns
  output : out.rows=left.rows ∧ out.columns=left.columns
  heads : left.heads=right.heads ∧ left.heads=out.heads
  valid : left.validColumns=right.validRows ∧ out.validRows=left.validRows ∧
    out.validColumns=right.validColumns

section

variable {left right out : Layout}

lemma lowerShapes_iff : LowerShapes left right out ↔
    ¬(left.diagonal ≠ .lower ∨ right.diagonal ≠ .lower ∨ out.diagonal ≠ .lower
      ∨ left.rows>left.columns ∨ right.rows≠left.columns ∨ right.columns≠left.columns
      ∨ out.rows≠left.rows ∨ out.columns≠left.columns ∨ left.heads≠right.heads
      ∨ left.heads≠out.heads ∨ left.validColumns≠right.validRows
      ∨ out.validRows≠left.validRows ∨ out.validColumns≠right.validColumns) := by
  simp only [not_or,not_not,gt_iff_lt,not_lt]
  constructor
  · rintro ⟨⟨h1,h2,h3⟩,h4,⟨h5,h6⟩,⟨h7,h8⟩,⟨h9,h10⟩,⟨h11,h12,h13⟩⟩
    exact ⟨h1,h2,h3,h4,h5,h6,h7,h8,h9,h10,h11,h12,h13⟩
  · rintro ⟨h1,h2,h3,h4,h5,h6,h7,h8,h9,h10,h11,h12,h13⟩
    exact ⟨⟨h1,h2,h3⟩,h4,⟨h5,h6⟩,⟨h7,h8⟩,⟨h9,h10⟩,⟨h11,h12,h13⟩⟩

variable {K : Type} [CommRing K] {a b : List K} {finite : K → Bool} {limits : Limits}

section
variable (shapes : LowerShapes left right out) {p : ℕ × ℕ × ℕ} (m : p∈out.lanes)
include shapes m

lemma lowerTerm_lanes {k : ℕ} (hk : k<left.columns) : (minus
    p.1 k left.rows,plus p.2.1 k left.columns,p.2.2)∈left.lanes ∧ (k,p.2.1,p.2.2)∈right.lanes := by
  obtain ⟨-,wide,⟨rightRows,rightColumns⟩,⟨outRows,outColumns⟩,⟨rightHeads,outHeads⟩,-⟩ := shapes
  obtain ⟨hr,ht,hh⟩ := mem_lanes.mp m
  rw [Shape.diagonals,outRows,outColumns,min_eq_left wide] at hr
  rw [Shape.length,outRows,outColumns,max_eq_right wide] at ht
  rw [← outHeads] at hh
  rw [mem_lanes,mem_lanes,Shape.diagonals,Shape.length,Shape.diagonals,Shape.length,rightRows,
    rightColumns,min_self,max_self,min_eq_left wide,max_eq_right wide,← rightHeads,plus_eq ht]
  exact ⟨⟨minus_lt hr,Nat.mod_lt _ left.columns_pos,hh⟩,hk,ht,hh⟩

lemma lowerTerm_eq {k : ℕ} (hk : k<left.columns) : lowerTerm left right a b p k =
      left.entry a p.2.2 (out.coordinates p.1 p.2.1).1 ((p.2.1+k)%left.columns)*
        right.entry b p.2.2 ((p.2.1+k)%left.columns) (out.coordinates p.1 p.2.1).2 := by
  obtain ⟨first,second⟩ := lowerTerm_lanes shapes m hk
  rw [mem_lanes] at first second
  obtain ⟨⟨leftLower,rightLower,outLower⟩,wide,⟨rightRows,rightColumns⟩,⟨outRows,outColumns⟩,
    -,-⟩ := shapes
  obtain ⟨hr,ht,-⟩ := mem_lanes.mp m
  have divides : left.rows ∣ left.columns := by
    have := left.admitted.divides
    rwa [Shape.diagonals,Shape.length,min_eq_left wide,max_eq_right wide] at this
  rw [Shape.diagonals,outRows,outColumns,min_eq_left wide] at hr
  rw [Shape.length,outRows,outColumns,max_eq_right wide] at ht
  have time : plus p.2.1 k left.columns=(p.2.1+k)%left.columns := plus_eq ht
  have small : (p.2.1+k)%left.columns<left.columns := Nat.mod_lt _ left.columns_pos
  have row : (left.coordinates (minus p.1 k left.rows) ((p.2.1+k)%left.columns)).1 =
      (out.coordinates p.1 p.2.1).1 := by
    refine Nat.ModEq.eq_of_lt_of_lt ?_ Layout.coordinates_lt.1 (outRows ▸ Layout.coordinates_lt.1)
    rw [Layout.coordinates_lower leftLower,Layout.coordinates_lower outLower,outRows]
    calc (along left.rows left.columns (minus p.1 k left.rows) ((p.2.1+k)%left.columns)).1
        ≡ (p.2.1+k)%left.columns+minus p.1 k left.rows [MOD left.rows] := along_fst left.rows_pos
      _ ≡ p.2.1+k+minus p.1 k left.rows [MOD left.rows] :=
          ((Nat.mod_modEq _ _).of_dvd divides).add_right _
      _ ≡ p.2.1+p.1 [MOD left.rows] := by
          rw [add_assoc,add_comm k]
          exact (minus_add hr).add_left _
      _ ≡ (along left.rows out.columns p.1 p.2.1).1 [MOD left.rows] :=
          (along_fst left.rows_pos).symm
  have column : (left.coordinates (minus p.1 k left.rows) ((p.2.1+k)%left.columns)).2 =
      (p.2.1+k)%left.columns := by
    rw [Layout.coordinates_lower leftLower]
    exact Nat.mod_eq_of_lt small
  have other : right.coordinates k p.2.1 =
      ((p.2.1+k)%left.columns,(out.coordinates p.1 p.2.1).2) := by
    rw [Layout.coordinates_lower rightLower,Layout.coordinates_lower outLower,rightRows,
      rightColumns,outColumns]
    refine Prod.ext ?_ rfl
    exact (plus_eq (Nat.mod_lt _ left.columns_pos)).trans (Nat.mod_add_mod _ _ _)
  rw [lowerTerm,Layout.read_eq first.1 first.2.1,Layout.read_eq second.1 second.2.1,time,row,column,
    other]

lemma sum_lowerTerm : ∑ k ∈ Finset.range left.columns,lowerTerm left right a b p k =
      product left right a b p.2.2 (out.coordinates p.1 p.2.1).1 (out.coordinates p.1 p.2.1).2 := by
  rw [← sum_entries left right a b left.admitted.valid.2]
  refine Eq.trans ?_ (sum_rotated p.2.1 _)
  exact Finset.sum_congr rfl fun k mk => lowerTerm_eq shapes m (Finset.mem_range.mp mk)

end

lemma lowerMm_ends {output : List K} : Ends (lowerMm finite left a right b out output limits)
      (Holds out (product left right a b) output)
      (Refused (LowerShapes left right out)
        (Fits a.length limits left.elements ∧ Fits b.length limits right.elements ∧
          Fits output.length limits out.elements)
        (Finite finite left a ∧ Finite finite right b)
        (left.elements+right.elements+out.elements*(left.columns+1)) limits) := by
  have positive : 0<out.elements := Layout.elements_pos
  have steps : left.columns+1≤out.elements*(left.columns+1) := Nat.le_mul_of_pos_left _ positive
  unfold lowerMm
  split
  · rename_i wrong
    exact fun shapes => lowerShapes_iff.mp shapes wrong
  · rename_i admitted
    have shapes := lowerShapes_iff.mpr admitted
    refine (buffer_ends fun short fits => short fits.1).bind fun _ fitsA => ?_
    refine (buffer_ends fun short fits => short fits.2.1).bind fun _ fitsB => ?_
    refine (buffer_ends fun short fits => short fits.2.2).bind fun _ fitsOut => ?_
    refine (add_ends fun big => ?_).bind_eq ?_
    · exact big.trans le_self_add
    refine (add_ends fun big => ?_).bind_eq ?_
    · exact big.trans (steps.trans le_add_self)
    refine (mul_ends fun big => ?_).bind_eq ?_
    · exact big.trans le_add_self
    refine (add_ends fun big => big).bind_eq ?_
    refine (work_ends fun big => big).bind fun _ _ => ?_
    refine (validate_ends fitsA fun infinite all => infinite all.1).bind fun _ _ => ?_
    refine (validate_ends fitsB fun infinite all => infinite all.2).bind fun _ _ => ?_
    refine holds_scatter fitsOut.1 fun p m _ => ?_
    rw [total_eq,sum_map_range,sum_lowerTerm shapes m]

end

open Nat Finset

section Blocks

structure BlockShape (l : Layout) : Prop where
  square : l.rows=l.columns
  lower : l.diagonal = .lower
  rows : l.validRows=l.rows
  full : l.diagonals%l.capacity=0

lemma blockShape_iff {l : Layout} : BlockShape l ↔
    ¬(l.rows≠l.columns ∨ l.diagonal ≠ .lower ∨ l.validRows≠l.rows ∨ l.diagonals%l.capacity≠0) := by
  simp only [not_or,not_not]
  exact ⟨fun ⟨h1,h2,h3,h4⟩ => ⟨h1,h2,h3,h4⟩,fun ⟨h1,h2,h3,h4⟩ => ⟨h1,h2,h3,h4⟩⟩

variable {layout : Layout}

lemma frames_mul_le_elements {n : ℕ} (h : n≤layout.frameSlots) :
    layout.frames*n≤layout.elements := Nat.mul_le_mul_left _ h

lemma blockPcSchedule_ends {bad : Error → Prop} (shape : ¬BlockShape layout → bad .geometry) (big
    : 2^64 ≤ 2*layout.elements+layout.elements*(layout.rows*layout.heads) → bad .overflow) : Ends
    (blockPcSchedule layout) (fun _ => BlockShape layout) bad := by
  have positive := layout.length_pos
  have capacity := layout.capacity_pos
  have heads : layout.heads≤layout.frameSlots :=
    Nat.le_mul_of_pos_left _ (mul_pos capacity positive)
  have lanes : layout.capacity≤layout.frameSlots :=
    (Nat.le_mul_of_pos_right _ positive).trans (Nat.le_mul_of_pos_right _ layout.heads_pos)
  have blocks : layout.heads*layout.frames≤layout.elements := by
    rw [mul_comm]
    exact frames_mul_le_elements heads
  have products : layout.heads*layout.frames*layout.rows ≤
      layout.elements*(layout.rows*layout.heads) :=
    mul_le_mul' blocks (Nat.le_mul_of_pos_right _ layout.heads_pos)
  have align : (layout.heads-1)*layout.frames ≤ layout.elements :=
    (Nat.mul_le_mul_right _ (sub_le _ _)).trans blocks
  have rotations : layout.frames*(layout.capacity-1) ≤ layout.elements :=
    frames_mul_le_elements ((sub_le _ _).trans lanes)
  unfold blockPcSchedule
  split
  · rename_i wrong
    exact shape fun fits => blockShape_iff.mp fits wrong
  · rename_i fits
    refine (mul_ends fun h => big (by omega)).bind fun _ eq => ?_
    refine (mul_ends fun h => big (by omega)).bind_eq ?_
    refine (mul_ends fun h => big (by omega)).bind fun _ eq => ?_
    refine (add_ends fun h => big (by omega)).bind fun _ _ => ?_
    refine (mul_ends fun h => big (by omega)).bind fun _ _ => ?_
    refine (mul_ends fun h => big (by omega)).bind fun _ _ => ?_
    exact blockShape_iff.mpr fits

variable {K : Type} [CommRing K] {weights b : List K} {finite : K → Bool} {limits : Limits}

/-- The rows of the heads of a packed matrix are taken one after another. -/
def blockProduct (layout : Layout) (weights b : List K) (h r c : ℕ) : K :=
  ∑ k ∈ Finset.range (layout.rows*layout.heads),
    weights.getD ((h*layout.rows+r)*(layout.rows*layout.heads)+k) 0 *
      layout.entry b (k/layout.rows) (k%layout.rows) c

section
variable (shape : BlockShape layout) {p : ℕ × ℕ × ℕ} (m : p∈layout.lanes)
include shape m

lemma blockTerm_eq {k j : ℕ} (hj : j<layout.rows) : blockTerm layout weights b p (k,j) =
      weights.getD ((p.2.2*layout.rows+(layout.coordinates p.1 p.2.1).1) *
        (layout.rows*layout.heads)+(k*layout.rows+(p.2.1+j)%layout.rows)) 0 *
      layout.entry b k ((p.2.1+j)%layout.rows) (layout.coordinates p.1 p.2.1).2 := by
  obtain ⟨square,lower,-,-⟩ := shape
  obtain ⟨hr,ht,-⟩ := mem_lanes.mp m
  have length : layout.length=layout.rows := by rw [Shape.length,← square,max_self]
  have diagonals : layout.diagonals=layout.rows := by rw [Shape.diagonals,← square,min_self]
  rw [length] at ht
  have row (d : ℕ) : layout.coordinates d p.2.1=((p.2.1+d)%layout.rows,p.2.1) := by
    rw [Layout.coordinates_lower lower,along,mod_eq_of_lt ht,← square,mod_eq_of_lt ht,plus_eq ht]
  have read : layout.read b j p.2.1 k=layout.entry b k ((p.2.1+j)%layout.rows) p.2.1 := by
    rw [Layout.read_eq (diagonals ▸ hj) (length ▸ ht),row]
  rw [blockTerm,read,row,plus_eq ht,plus_eq ht,add_assoc]

lemma sum_blockTerm : total (List.range layout.heads ×ˢ List.range layout.rows)
    (blockTerm layout weights b p) = blockProduct layout weights b p.2.2
    (layout.coordinates p.1 p.2.1).1 (layout.coordinates p.1 p.2.1).2 := by
  have digits := sum_digits layout.rows_pos layout.heads fun k j =>
    weights.getD ((p.2.2*layout.rows+(layout.coordinates p.1 p.2.1).1) *
      (layout.rows*layout.heads)+(k*layout.rows+j)) 0 *
        layout.entry b k j (layout.coordinates p.1 p.2.1).2
  simp only [div_add_mod'] at digits
  rw [blockProduct,digits,total_eq,sum_map_product,sum_map_range]
  refine sum_congr rfl fun k _ => ?_
  refine Eq.trans ?_ (sum_rotated p.2.1 _)
  exact sum_congr rfl fun j mj => blockTerm_eq shape m (mem_range.mp mj)

end

lemma blockPcMm_ends {output : List K} :
    let d := layout.rows*layout.heads
    Ends (blockPcMm finite layout weights b output limits)
      (Holds layout (blockProduct layout weights b) output)
      (Refused (BlockShape layout)
        (Fits weights.length limits (d*d) ∧ Fits b.length limits layout.elements ∧
          Fits output.length limits layout.elements)
        ((∀ w ∈ weights.take (d*d),finite w = true) ∧ Finite finite layout b)
        (d*d+2*layout.elements+layout.elements*d) limits) := by
  intro d
  have positive : 0<layout.elements := Layout.elements_pos
  have size : d≤layout.elements*d := Nat.le_mul_of_pos_left _ positive
  refine (blockPcSchedule_ends (fun wrong => wrong) fun h => ?_).bind fun _ shape => ?_
  · have h : 2^64≤2*layout.elements+layout.elements*d := h
    exact h.trans (by omega)
  refine (mul_ends fun h => ?_).bind fun d' eq => ?_
  · exact h.trans (size.trans le_add_self)
  obtain rfl : d'=d := eq
  refine (mul_ends fun h => ?_).bind_eq ?_
  · exact h.trans (le_self_add.trans le_self_add)
  refine (buffer_ends fun short fits => short fits.1).bind fun _ _ => ?_
  refine (buffer_ends fun short fits => short fits.2.1).bind fun _ fitsB => ?_
  refine (buffer_ends fun short fits => short fits.2.2).bind fun _ fitsOut => ?_
  refine (mul_ends fun h => ?_).bind_eq ?_
  · exact h.trans (le_add_self.trans le_self_add)
  refine (add_ends fun h => h.trans le_self_add).bind_eq ?_
  refine (mul_ends fun h => h.trans le_add_self).bind_eq ?_
  refine (add_ends fun h => h).bind_eq ?_
  refine (work_ends fun h => h).bind fun _ _ => ?_
  split
  · rename_i infinite
    intro all
    obtain ⟨w,m,none⟩ := List.any_eq_true.mp infinite
    rw [all.1 w m] at none
    cases none
  · refine (validate_ends fitsB fun infinite all => infinite all.2).bind fun _ _ => ?_
    -- every row is valid, so the test of the columns is the one of the lanes
    have lanes : (layout.lanes.filter fun p => p.2.1<layout.validColumns)=layout.liveLanes := by
      refine List.filter_congr fun p m => ?_
      have ht := (mem_lanes.mp m).2.1
      rw [Shape.length,← shape.square,max_self] at ht
      have row : (layout.coordinates p.1 p.2.1).1 < layout.validRows :=
        shape.rows.symm ▸ Layout.coordinates_lt.1
      have column : (layout.coordinates p.1 p.2.1).2=p.2.1 := by
        rw [Layout.coordinates_lower shape.lower,← shape.square]
        exact mod_eq_of_lt ht
      rw [Layout.live,decide_eq_true row,column,Bool.true_and]
    rw [lanes]
    exact holds_scatter fitsOut.1 fun p m _ => sum_blockTerm shape m

end Blocks

section Paired

structure PairedShapes (left right out : Layout) : Prop where
  tall : left.columns≤left.rows
  even : left.columns%2=0
  diagonals : left.diagonal = .upper ∧ right.diagonal = .lower ∧ out.diagonal = .lower
  inner : right.rows=left.columns ∧ right.columns=left.rows
  output : out.rows=left.rows ∧ out.columns=left.rows
  heads : left.heads=right.heads ∧ left.heads=out.heads
  single : left.capacity=1 ∧ right.capacity=1 ∧ out.capacity=1
  valid : left.validColumns=right.validRows ∧ out.validRows=left.validRows ∧
    out.validColumns=right.validColumns

variable {left right out : Layout}

lemma pairedShapes_iff : PairedShapes left right out ↔
    ¬(left.rows<left.columns ∨ left.columns%2≠0 ∨ left.diagonal ≠ .upper ∨ right.diagonal ≠ .lower ∨
      out.diagonal ≠ .lower ∨ right.rows≠left.columns ∨ right.columns≠left.rows ∨ out.rows≠left.rows
      ∨ out.columns≠left.rows ∨ left.heads≠right.heads ∨ left.heads≠out.heads ∨ left.capacity≠1 ∨
      right.capacity≠1 ∨ out.capacity≠1 ∨ left.validColumns≠right.validRows ∨
      out.validRows≠left.validRows ∨ out.validColumns≠right.validColumns) := by
  simp only [not_or,not_not,not_lt]
  constructor
  · rintro ⟨h1,h2,⟨h3,h4,h5⟩,⟨h6,h7⟩,⟨h8,h9⟩,⟨h10,h11⟩,⟨h12,h13,h14⟩,⟨h15,h16,h17⟩⟩
    exact ⟨h1,h2,h3,h4,h5,h6,h7,h8,h9,h10,h11,h12,h13,h14,h15,h16,h17⟩
  · rintro ⟨h1,h2,h3,h4,h5,h6,h7,h8,h9,h10,h11,h12,h13,h14,h15,h16,h17⟩
    exact ⟨h1,h2,⟨h3,h4,h5⟩,⟨h6,h7⟩,⟨h8,h9⟩,⟨h10,h11⟩,⟨h12,h13,h14⟩,⟨h15,h16,h17⟩⟩

variable {K : Type} [CommRing K] {half : K} {a b : List K} {finite : K → Bool} {limits : Limits}

section
variable (shapes : PairedShapes left right out) {p : ℕ × ℕ × ℕ} (m : p∈out.lanes) {k : ℕ} (hk : k<left.columns)
include shapes m hk

lemma pairedRead_lanes : (minus k p.1 left.columns,plus p.2.1 p.1 left.rows,p.2.2)∈left.lanes ∧
      (k,p.2.1,p.2.2)∈right.lanes := by
  obtain ⟨tall,-,-,⟨rightRows,rightColumns⟩,⟨outRows,outColumns⟩,⟨rightHeads,outHeads⟩,-,-⟩ :=
    shapes
  obtain ⟨-,ht,hh⟩ := mem_lanes.mp m
  rw [Shape.length,outRows,outColumns,max_self] at ht
  rw [← outHeads] at hh
  rw [mem_lanes,mem_lanes,Shape.diagonals,Shape.length,Shape.diagonals,Shape.length,rightRows,
    rightColumns,min_eq_right tall,max_eq_left tall,min_eq_left tall,max_eq_right tall,
    ← rightHeads,plus_eq ht]
  exact ⟨⟨minus_lt hk,mod_lt _ left.rows_pos,hh⟩,hk,ht,hh⟩

lemma pairedRead_eq : left.read a (minus k p.1 left.columns)
    (plus p.2.1 p.1 left.rows) p.2.2 * right.read b k p.2.1 p.2.2 = left.entry a p.2.2
    (out.coordinates p.1 p.2.1).1 ((p.2.1+k)%left.columns)* right.entry b p.2.2
    ((p.2.1+k)%left.columns) (out.coordinates p.1 p.2.1).2 := by
  obtain ⟨first,second⟩ := pairedRead_lanes shapes m hk
  rw [mem_lanes] at first second
  obtain ⟨tall,-,⟨leftUpper,rightLower,outLower⟩,⟨rightRows,rightColumns⟩,⟨outRows,outColumns⟩,
    -,-,-⟩ := shapes
  obtain ⟨hr,ht,-⟩ := mem_lanes.mp m
  have divides : left.columns ∣ left.rows := by
    have := left.admitted.divides
    rwa [Shape.diagonals,Shape.length,min_eq_right tall,max_eq_left tall] at this
  rw [Shape.length,outRows,outColumns,max_self] at ht
  have time : plus p.2.1 p.1 left.rows=(p.2.1+p.1)%left.rows := plus_eq ht
  have small : (p.2.1+p.1)%left.rows<left.rows := mod_lt _ left.rows_pos
  have output : out.coordinates p.1 p.2.1=((p.2.1+p.1)%left.rows,p.2.1) := by
    rw [Layout.coordinates_lower outLower,along,outRows,outColumns,mod_eq_of_lt ht,time]
  have column : (left.coordinates (minus k p.1 left.columns) ((p.2.1+p.1)%left.rows)).2 =
      (p.2.1+k)%left.columns := by
    rw [Layout.coordinates_upper leftUpper]
    refine ModEq.eq_of_lt_of_lt ?_ (along_lt left.columns_pos left.rows_pos).1
      (mod_lt _ left.columns_pos)
    calc (along left.columns left.rows (minus k p.1 left.columns) ((p.2.1+p.1)%left.rows)).1
        ≡ (p.2.1+p.1)%left.rows+minus k p.1 left.columns [MOD left.columns] :=
          along_fst left.columns_pos
      _ ≡ p.2.1+p.1+minus k p.1 left.columns [MOD left.columns] :=
          ((mod_modEq _ _).of_dvd divides).add_right _
      _ ≡ p.2.1+k [MOD left.columns] := by
          rw [add_assoc,add_comm p.1]
          exact (minus_add hk).add_left _
      _ ≡ (p.2.1+k)%left.columns [MOD left.columns] := (mod_modEq _ _).symm
  have row : (left.coordinates (minus k p.1 left.columns) ((p.2.1+p.1)%left.rows)).1 =
      (p.2.1+p.1)%left.rows := by
    rw [Layout.coordinates_upper leftUpper]
    exact mod_eq_of_lt small
  have other : right.coordinates k p.2.1=((p.2.1+k)%left.columns,p.2.1) := by
    rw [Layout.coordinates_lower rightLower,along,rightRows,rightColumns,mod_eq_of_lt ht,
      plus_eq (mod_lt _ left.columns_pos),mod_add_mod]
  rw [Layout.read_eq first.1 first.2.1,Layout.read_eq second.1 second.2.1,time,row,column,other,
    output]

end

/-- The real part of two halves is one of them. -/
lemma pairedTerm_add (one : half+half=1) (p : ℕ × ℕ × ℕ) (k : ℕ) :
    (pairedTerm half left right a b p k).1+(pairedTerm half left right a b p k).1 = left.read a
    (minus k p.1 left.columns) (plus p.2.1 p.1 left.rows)
    p.2.2 * right.read b k p.2.1 p.2.2 + left.read a (minus (k+left.columns/2) p.1 left.columns)
    (plus p.2.1 p.1 left.rows) p.2.2 * right.read b (k+left.columns/2) p.2.1 p.2.2 := by
  simp only [pairedTerm]
  generalize left.read a (minus k p.1 left.columns) _ _=a0
  generalize left.read a (minus (k+left.columns/2) p.1 left.columns) _ _=a1
  generalize right.read b k _ _=b0
  generalize right.read b (k+left.columns/2) _ _=b1
  calc a0*half*b0+a1*half*b1+(a0*half*b0+a1*half*b1) = (half+half)*(a0*b0+a1*b1) := by ring
    _ = a0*b0+a1*b1 := by rw [one,one_mul]

lemma sum_pairedTerm (one : half+half=1) (shapes : PairedShapes left right out)
    {p : ℕ × ℕ × ℕ} (m : p∈out.lanes) :
    total (List.range (left.columns/2)) (fun k => (pairedTerm half left right a b p k).1) +
      total (List.range (left.columns/2)) (fun k => (pairedTerm half left right a b p k).1) =
    product left right a b p.2.2 (out.coordinates p.1 p.2.1).1 (out.coordinates p.1 p.2.1).2 := by
  have halv : left.columns=left.columns/2+left.columns/2 := by
    have := shapes.even
    omega
  rw [total_eq,sum_map_range,← sum_add_distrib,
    sum_congr rfl fun k _ => pairedTerm_add one p k,sum_add_distrib]
  rw [← sum_entries left right a b left.admitted.valid.2]
  refine Eq.trans ?_ (sum_rotated p.2.1 _)
  rw [← sum_congr rfl fun k mk => pairedRead_eq shapes m (mem_range.mp mk)]
  conv_rhs => rw [halv,sum_range_add,← halv]
  congr 1
  refine sum_congr rfl fun k _ => ?_
  rw [add_comm k]

lemma pairedUpperLowerMm_ends (one : half+half=1) {imaginary output : List K} :
    Ends (pairedUpperLowerMm finite half left a right b out imaginary output limits)
      (fun result => Holds out (product left right a b) output result.2)
      (Refused (PairedShapes left right out)
        (Fits a.length limits left.elements ∧ Fits b.length limits right.elements ∧
          Fits output.length limits out.elements ∧ Fits imaginary.length limits out.elements)
        (Finite finite left a ∧ Finite finite right b)
        (left.elements+right.elements+8*out.elements*left.columns) limits) := by
  have passes : 8*out.elements≤8*out.elements*left.columns :=
    Nat.le_mul_of_pos_right _ left.columns_pos
  unfold pairedUpperLowerMm
  dsimp only
  split
  · rename_i wrong
    exact fun shapes => pairedShapes_iff.mp shapes wrong
  · rename_i fits
    have shapes := pairedShapes_iff.mpr fits
    refine (buffer_ends fun short fits => short fits.1).bind fun _ fitsA => ?_
    refine (buffer_ends fun short fits => short fits.2.1).bind fun _ fitsB => ?_
    refine (buffer_ends fun short fits => short fits.2.2.1).bind fun _ fitsOut => ?_
    refine (buffer_ends fun short fits => short fits.2.2.2).bind fun _ _ => ?_
    refine (add_ends fun big => big.trans le_self_add).bind_eq ?_
    refine (mul_ends fun big => ?_).bind_eq ?_
    · exact big.trans (passes.trans le_add_self)
    refine (mul_ends fun big => big.trans le_add_self).bind_eq ?_
    refine (add_ends fun big => big).bind_eq ?_
    refine (work_ends fun big => big).bind fun _ _ => ?_
    refine (validate_ends fitsA fun infinite all => infinite all.1).bind fun _ _ => ?_
    refine (validate_ends fitsB fun infinite all => infinite all.2).bind fun _ _ => ?_
    exact holds_scatter fitsOut.1 fun p m _ => sum_pairedTerm one shapes m

end Paired

end Pllm.SlotMatrix
