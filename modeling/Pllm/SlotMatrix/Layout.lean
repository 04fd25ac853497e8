import Pllm.Lib.Residue
import Pllm.Lib.Scatter

/-! The slots of matrices that are packed by their diagonals. -/
namespace Pllm.SlotMatrix
open Pllm.Lib

inductive Diagonal
  | upper
  | lower
  deriving DecidableEq

structure Limits where
  maxBufferElements : ℕ
  maxWork : ℕ

inductive Error
  | geometry
  | overflow
  | buffer
  | workLimit
  | nonFinite
  | optimizedMultiBlockIndexGate

abbrev Result := Except Error

def mul (a b : ℕ) : Result ℕ := if a*b<2^64 then .ok (a*b) else .error .overflow
def add (a b : ℕ) : Result ℕ := if a+b<2^64 then .ok (a+b) else .error .overflow

def work (n : ℕ) (limits : Limits) : Result Unit :=
  if n>limits.maxWork then .error .workLimit else .ok ()

def buffer (actual required : ℕ) (limits : Limits) : Result Unit :=
  if actual < required ∨ actual>limits.maxBufferElements then .error .buffer else .ok ()

/-- A sum of residues that stays in a machine word. -/
def plus (a b n : ℕ) : ℕ :=
  let b := b%n
  if a≥n-b then a-(n-b) else a+b

def minus (a b n : ℕ) : ℕ :=
  let b := b%n
  if a≥b then a-b else n-(b-a)

/-- What a layout is asked to be. -/
structure Shape where
  rows : ℕ
  columns : ℕ
  validRows : ℕ
  validColumns : ℕ
  heads : ℕ
  capacity : ℕ
  diagonal : Diagonal
  deriving DecidableEq

namespace Shape

variable (s : Shape)

def length : ℕ := max s.rows s.columns
def diagonals : ℕ := min s.rows s.columns
def frameSlots : ℕ := s.capacity*s.length*s.heads
def frames : ℕ := s.diagonals/s.capacity+if s.diagonals%s.capacity ≠ 0 then 1 else 0
def elements : ℕ := s.frames*s.frameSlots
def denseElements : ℕ := s.rows*s.columns*s.heads

/-- The tests of a layout that is made. -/
def check (limits : Limits) : Result Unit :=
  if s.diagonals=0 ∨ s.heads=0 ∨ s.capacity=0 ∨ s.capacity>s.diagonals
      ∨ s.length%s.diagonals≠0 ∨ s.validRows>s.rows ∨ s.validColumns>s.columns then
    .error .geometry
  else do
    let lanes ← mul s.capacity s.length
    let frameSlots ← mul lanes s.heads
    let elements ← mul s.frames frameSlots
    let cells ← mul s.rows s.columns
    let denseElements ← mul cells s.heads
    buffer elements elements limits
    buffer denseElements denseElements limits
    work elements limits

structure Admitted : Prop where
  diagonals : 0 < s.diagonals
  heads : 0 < s.heads
  capacity : 0 < s.capacity ∧ s.capacity ≤ s.diagonals
  divides : s.diagonals ∣ s.length
  valid : s.validRows ≤ s.rows ∧ s.validColumns ≤ s.columns
  small : s.elements<2^64 ∧ s.denseElements<2^64

lemma mul_eq_ok {a b c : ℕ} : mul a b = .ok c ↔ a*b<2^64 ∧ c=a*b := by
  rw [mul,ite_ok_eq_ok,@eq_comm _ c]

variable {s} in
lemma admitted_of_check {limits : Limits} (h : s.check limits = .ok ()) : s.Admitted := by
  unfold check at h
  obtain ⟨tests,h⟩ := ite_error_eq_ok.mp h
  obtain ⟨lanes,rowEq,frameSlots,frameEq,elements,elementsEq,cells,cellsEq,h⟩ := bind₄_eq_ok.mp h
  obtain ⟨dense,denseEq,-⟩ := bind_eq_ok.mp h
  rw [mul_eq_ok] at rowEq frameEq elementsEq cellsEq denseEq
  obtain ⟨-,rfl⟩ := rowEq
  obtain ⟨-,rfl⟩ := frameEq
  obtain ⟨-,rfl⟩ := cellsEq
  simp only [not_or] at tests
  obtain ⟨diagonals,heads,capacity,fits,divides,rows,columns⟩ := tests
  exact ⟨by omega,by omega,⟨by omega,by omega⟩,Nat.dvd_of_mod_eq_zero (not_not.mp divides),
    ⟨by omega,by omega⟩,⟨elementsEq.1,denseEq.1⟩⟩

end Shape

/-- A layout, whose lengths are the ones of its shape. -/
structure Layout extends Shape where
  admitted : toShape.Admitted
  deriving DecidableEq

namespace Layout

def new (shape : Shape) (limits : Limits) : Result Layout :=
  match h : shape.check limits with
  | .error e => .error e
  | .ok () => .ok ⟨shape,Shape.admitted_of_check h⟩

variable (l : Layout)

/-- Slots are laid out by frame, diagonal, time and head. -/
def raw (d t h : ℕ) : ℕ :=
  d/l.capacity*l.frameSlots+(d%l.capacity*l.length+t)*l.heads+h

def coordinates (d t : ℕ) : ℕ × ℕ :=
  match l.diagonal with
  | .upper => (t%l.rows,plus (t%l.columns) d l.columns)
  | .lower => (plus (t%l.rows) d l.rows,t%l.columns)

/-- The diagonal and the time of an entry. -/
def place (row column : ℕ) : ℕ × ℕ :=
  match l.diagonal with
  | .upper =>
    if l.rows≥l.columns then (minus column row l.columns,row)
    else
      let d := minus (column%l.rows) row l.rows
      (d,minus column d l.columns)
  | .lower =>
    if l.columns≥l.rows then (minus row column l.rows,column)
    else
      let d := minus (row%l.columns) column l.columns
      (d,minus row d l.rows)

def address (head row column : ℕ) : Result ℕ :=
  if head≥l.heads ∨ row≥l.rows ∨ column≥l.columns then .error .geometry
  else .ok (l.raw (l.place row column).1 (l.place row column).2 head)

def live (d t : ℕ) : Bool :=
  (l.coordinates d t).1 < l.validRows && (l.coordinates d t).2 < l.validColumns

/-- The lane of an index that has been checked. -/
def laneAt (index : ℕ) : Option (ℕ × ℕ × ℕ) :=
  let frame := index/l.frameSlots
  let within := index%l.frameSlots
  let d := frame*l.capacity+within/(l.length*l.heads)
  if d≥l.diagonals then none
  else
    let h := within%l.heads
    let t := within/l.heads%l.length
    if l.live d t then some (h,l.coordinates d t) else none

def lane (index : ℕ) : Result (Option (ℕ × ℕ × ℕ)) :=
  if index≥l.elements then .error .buffer else .ok (l.laneAt index)

/-- The diagonals, times and heads that the loops go through, where an entry is valid. -/
def lanes : List (ℕ × ℕ × ℕ) := List.range l.diagonals ×ˢ List.range l.length ×ˢ List.range l.heads

def rawOf (p : ℕ × ℕ × ℕ) : ℕ := l.raw p.1 p.2.1 p.2.2

def liveLanes : List (ℕ × ℕ × ℕ) := l.lanes.filter fun p => l.live p.1 p.2.1

def denseAt (p : ℕ × ℕ × ℕ) : ℕ := (p.1*l.rows+p.2.1)*l.columns+p.2.2

variable {α : Type} [Zero α] (finite : α → Bool)

def read (slots : List α) (d t h : ℕ) : α :=
  if l.live d t then slots.getD (l.raw d t h) 0 else 0

/-- Padding is no operand. -/
def validate (slots : List α) (limits : Limits) : Result Unit := do
  buffer slots.length l.elements limits
  if (List.range l.elements).any fun i => (l.laneAt i).isSome && !finite (slots.getD i 0) then
    .error .nonFinite
  else .ok ()

end Layout

/-- The front of a buffer is filled with zeros. -/
def fill {α : Type} [Zero α] (n : ℕ) (output : List α) : List α :=
  List.replicate n 0++output.drop n

namespace Layout

variable (l : Layout) {α : Type} [Zero α] (finite : α → Bool)

def pack (dense output : List α) (limits : Limits) : Result (List α) := do
  buffer dense.length l.denseElements limits
  buffer output.length l.elements limits
  work (← mul 2 l.elements) limits
  if (List.range l.heads ×ˢ List.range l.validRows ×ˢ List.range l.validColumns).any
      fun p => !finite (dense.getD (l.denseAt p) 0) then .error .nonFinite
  else
    pure ((List.range l.elements).map (fun i =>
      match l.laneAt i with
      | some p => dense.getD (l.denseAt p) 0
      | none => 0)++output.drop l.elements)

def unpack (slots output : List α) (limits : Limits) : Result (List α) := do
  buffer slots.length l.elements limits
  buffer output.length l.denseElements limits
  work (← add (← mul 2 l.elements) l.denseElements) limits
  l.validate finite slots limits
  pure ((List.range l.elements).foldl (fun output i =>
    match l.laneAt i with
    | some p => output.set (l.denseAt p) (slots.getD i 0)
    | none => output) (fill l.denseElements output))

end Layout

open Nat

section Residues

variable {a b n : ℕ}

lemma plus_eq (h : a<n) : plus a b n = (a+b)%n := by
  have hb := mod_lt b (zero_lt_of_lt h)
  rw [← add_mod_mod]
  simp only [plus]
  generalize b%n=c at hb ⊢
  split
  · rw [mod_eq_sub_mod (by omega),mod_eq_of_lt (by omega)]
    omega
  · rw [mod_eq_of_lt (by omega)]

lemma minus_lt (h : a<n) : minus a b n < n := by
  simp only [minus]
  split <;> omega

lemma minus_add (h : a<n) : minus a b n+b ≡ a [MOD n] := by
  have hb := mod_lt b (zero_lt_of_lt h)
  rw [ModEq,← add_mod_mod]
  simp only [minus]
  split
  · rw [Nat.sub_add_cancel (by omega)]
  · rw [show n-(b%n-a)+b%n=a+n by omega,add_mod_right]

/-- A step along a dimension `n` while the other one is kept. -/
def along (n m d t : ℕ) : ℕ × ℕ := (plus (t%n) d n,t%m)

def back (n m i j : ℕ) : ℕ × ℕ :=
  if m≥n then (minus i j n,j)
  else
    let d := minus (i%m) j m
    (d,minus i d n)

variable {m i j d t : ℕ}

lemma along_fst (hn : 0<n) : (along n m d t).1 ≡ t+d [MOD n] := by
  rw [along,plus_eq (mod_lt t hn)]
  exact (mod_modEq _ _).trans ((mod_modEq t n).add_right d)

lemma along_lt (hn : 0<n) (hm : 0 < m) : (along n m d t).1 < n ∧ (along n m d t).2 < m := by
  rw [along,plus_eq (mod_lt t hn)]
  exact ⟨mod_lt _ hn,mod_lt _ hm⟩

lemma back_lt (hi : i<n) (hj : j < m) :
    (back n m i j).1 < min n m ∧ (back n m i j).2 < max n m := by
  unfold back
  split
  · have := minus_lt (b := j) hi
    exact ⟨by omega,by omega⟩
  · have hm : 0 < m := zero_lt_of_lt hj
    have first := minus_lt (b := j) (mod_lt i hm)
    have second := minus_lt (b := minus (i%m) j m) hi
    rw [min_eq_right (by omega),max_eq_left (by omega)]
    exact ⟨first,second⟩

lemma along_back (divides : min n m ∣ max n m) (hi : i<n) (hj : j < m) :
    along n m (back n m i j).1 (back n m i j).2 = (i,j) := by
  have hn : 0<n := zero_lt_of_lt hi
  have hm : 0 < m := zero_lt_of_lt hj
  unfold back
  split
  · have row : (along n m (minus i j n) j).1=i := by
      refine ModEq.eq_of_lt_of_lt ((along_fst hn).trans ?_) (along_lt hn hm).1 hi
      rw [add_comm]
      exact minus_add hi
    exact Prod.ext row (mod_eq_of_lt hj)
  · rw [min_eq_right (by omega),max_eq_left (by omega)] at divides
    have turned := minus_add (b := minus (i%m) j m) hi
    have row : (along n m (minus (i%m) j m) (minus i (minus (i%m) j m) n)).1=i :=
      ModEq.eq_of_lt_of_lt ((along_fst hn).trans turned) (along_lt hn hm).1 hi
    have kept : minus i (minus (i%m) j m) n ≡ j [MOD m] := by
      have first : j+minus (i%m) j m ≡ i [MOD m] := by
        rw [add_comm]
        exact (minus_add (mod_lt i hm)).trans (mod_modEq i m)
      exact Nat.ModEq.add_right_cancel' _ ((turned.of_dvd divides).trans first.symm)
    exact Prod.ext row (mod_eq_of_modEq kept hj)

lemma back_along (divides : min n m ∣ max n m) (hd : d < min n m) (ht : t < max n m) :
    back n m (along n m d t).1 (along n m d t).2 = (d,t) := by
  have hn : 0<n := by omega
  have hm : 0 < m := by omega
  have inside := along_lt (d := d) (t := t) hn hm
  have first := along_fst (m := m) (d := d) (t := t) hn
  unfold back
  split
  · have column : (along n m d t).2=t := mod_eq_of_lt (by omega)
    rw [column]
    refine Prod.ext ?_ rfl
    refine residue_unique (minus_lt inside.1) (by omega) (minus_add inside.1) ?_
    rw [add_comm]
    exact first.symm
  · rw [min_eq_right (by omega),max_eq_left (by omega)] at divides
    have column : (along n m d t).2 ≡ t [MOD m] := mod_modEq t m
    have small := mod_lt (along n m d t).1 hm
    have diagonal : minus ((along n m d t).1%m) (along n m d t).2 m=d := by
      refine residue_unique (minus_lt small) (by omega) (minus_add small) ?_
      rw [add_comm]
      exact (column.add_right d).trans ((first.of_dvd divides).symm.trans (mod_modEq _ m).symm)
    simp only [diagonal]
    refine Prod.ext rfl ?_
    exact residue_unique (minus_lt inside.1) (by omega) (minus_add inside.1) first.symm

end Residues

namespace Layout

variable (l : Layout)

lemma rows_pos : 0<l.rows := by
  have := l.admitted.diagonals
  unfold Shape.diagonals at this
  omega

lemma columns_pos : 0<l.columns := by
  have := l.admitted.diagonals
  unfold Shape.diagonals at this
  omega

lemma length_pos : 0<l.length := lt_of_lt_of_le l.rows_pos (le_max_left _ _)

lemma heads_pos : 0<l.heads := l.admitted.heads

lemma capacity_pos : 0<l.capacity := l.admitted.capacity.1

lemma coordinates_eq (d t : ℕ) : l.coordinates d t =
    match l.diagonal with
    | .upper => (along l.columns l.rows d t).swap
    | .lower => along l.rows l.columns d t := rfl

lemma place_eq (row column : ℕ) : l.place row column =
    match l.diagonal with
    | .upper => back l.columns l.rows column row
    | .lower => back l.rows l.columns row column := rfl

variable {l} {d t h row column : ℕ}

lemma coordinates_lt : (l.coordinates d t).1 < l.rows ∧ (l.coordinates d t).2 < l.columns := by
  rw [coordinates_eq]
  split
  · exact (along_lt l.columns_pos l.rows_pos).symm
  · exact along_lt l.rows_pos l.columns_pos

lemma place_lt (hr : row<l.rows) (hc : column<l.columns) :
    (l.place row column).1 < l.diagonals ∧ (l.place row column).2 < l.length := by
  rw [place_eq,Shape.diagonals,Shape.length]
  split
  · rw [min_comm,max_comm]
    exact back_lt hc hr
  · exact back_lt hr hc

lemma coordinates_place (hr : row<l.rows) (hc : column<l.columns) :
    l.coordinates (l.place row column).1 (l.place row column).2 = (row,column) := by
  have divides := l.admitted.divides
  unfold Shape.diagonals Shape.length at divides
  rw [coordinates_eq,place_eq]
  cases l.diagonal with
  | upper =>
    rw [min_comm,max_comm] at divides
    exact congrArg Prod.swap (along_back divides hc hr)
  | lower => exact along_back divides hr hc

lemma place_coordinates (hd : d<l.diagonals) (ht : t<l.length) :
    l.place (l.coordinates d t).1 (l.coordinates d t).2 = (d,t) := by
  have divides := l.admitted.divides
  unfold Shape.diagonals at divides hd
  unfold Shape.length at divides ht
  rw [coordinates_eq,place_eq]
  cases l.diagonal with
  | upper =>
    rw [min_comm,max_comm] at divides
    rw [min_comm] at hd
    rw [max_comm] at ht
    exact back_along divides hd ht
  | lower => exact back_along divides hd ht

variable (l) in
lemma raw_eq (d t h : ℕ) : l.raw d t h = (d*l.length+t)*l.heads+h := by
  have split := div_add_mod' d l.capacity
  calc l.raw d t h = ((d/l.capacity*l.capacity+d%l.capacity)*l.length+t)*l.heads+h := by
        rw [raw,Shape.frameSlots]
        ring
    _ = (d*l.length+t)*l.heads+h := by rw [split]

lemma raw_digits (ht : t<l.length) (hh : h<l.heads) : l.raw d t h/(l.length*l.heads)=d ∧
    l.raw d t h/l.heads%l.length = t ∧ l.raw d t h%l.heads = h := by
  have high : ((d*l.length+t)*l.heads+h)/l.heads=d*l.length+t := by
    rw [add_comm,add_mul_div_right _ _ l.heads_pos,div_eq_of_lt hh,zero_add]
  rw [raw_eq]
  refine ⟨?_,?_,?_⟩
  · rw [mul_comm l.length,← Nat.div_div_eq_div_mul,high,add_comm,
      add_mul_div_right _ _ l.length_pos,div_eq_of_lt ht,zero_add]
  · rw [high,add_comm,add_mul_mod_self_right,mod_eq_of_lt ht]
  · rw [add_comm,add_mul_mod_self_right,mod_eq_of_lt hh]

lemma raw_injective {d' t' h' : ℕ} (ht : t<l.length) (ht' : t'<l.length) (hh : h<l.heads)
    (hh' : h'<l.heads) (eq : l.raw d t h = l.raw d' t' h') : d=d' ∧ t=t' ∧ h=h' := by
  obtain ⟨first,second,third⟩ := raw_digits (d := d) ht hh
  obtain ⟨first',second',third'⟩ := raw_digits (d := d') ht' hh'
  rw [eq] at first second third
  exact ⟨first.symm.trans first',second.symm.trans second',third.symm.trans third'⟩

lemma raw_of_digits (i : ℕ) : l.raw (i/(l.length*l.heads)) (i/l.heads%l.length) (i%l.heads)=i := by
  rw [raw_eq,mul_comm l.length,← Nat.div_div_eq_div_mul,div_add_mod',div_add_mod']

variable (l) in
lemma diagonals_le : l.diagonals≤l.frames*l.capacity := by
  have split := div_add_mod' l.diagonals l.capacity
  have rest := mod_lt l.diagonals l.capacity_pos
  rw [Shape.frames]
  split
  · rw [add_mul]
    omega
  · rw [add_zero]
    omega

lemma raw_lt_of {n : ℕ} (hd : d<n) (ht : t<l.length) (hh : h<l.heads) :
    l.raw d t h < n*(l.length*l.heads) := by
  rw [raw_eq]
  calc (d*l.length+t)*l.heads+h < (d*l.length+t+1)*l.heads := by
        rw [add_mul _ 1]
        omega
    _ ≤ ((d+1)*l.length)*l.heads := by
        refine Nat.mul_le_mul_right _ ?_
        rw [add_mul d 1]
        omega
    _ ≤ n*l.length*l.heads := Nat.mul_le_mul_right _ (Nat.mul_le_mul_right _ hd)
    _ = n*(l.length*l.heads) := mul_assoc _ _ _

lemma raw_lt (hd : d<l.diagonals) (ht : t<l.length) (hh : h<l.heads) :
    l.raw d t h < l.elements := by
  refine (raw_lt_of hd ht hh).trans_le ?_
  calc l.diagonals*(l.length*l.heads) ≤ l.frames*l.capacity*(l.length*l.heads) :=
        Nat.mul_le_mul_right _ l.diagonals_le
    _ = l.elements := by
        rw [Shape.elements,Shape.frameSlots]
        ring

variable (l) in
lemma laneAt_eq (i : ℕ) : l.laneAt i =
    if l.diagonals ≤ i/(l.length*l.heads) then none
    else if l.live (i/(l.length*l.heads)) (i/l.heads%l.length) then
      some (i%l.heads,l.coordinates (i/(l.length*l.heads)) (i/l.heads%l.length))
    else none := by
  have slots : l.frameSlots=l.length*l.heads*l.capacity := by
    rw [Shape.frameSlots]
    ring
  have diagonal : i/l.frameSlots*l.capacity+i%l.frameSlots/(l.length*l.heads) =
      i/(l.length*l.heads) := by
    rw [slots,mod_mul_right_div_self,← Nat.div_div_eq_div_mul,div_add_mod']
  have time : i%l.frameSlots/l.heads%l.length=i/l.heads%l.length := by
    rw [show l.frameSlots=l.heads*(l.length*l.capacity) by rw [slots]; ring,
      mod_mul_right_div_self,mod_mod_of_dvd _ ⟨l.capacity,rfl⟩]
  have head : i%l.frameSlots%l.heads=i%l.heads :=
    mod_mod_of_dvd _ ⟨l.length*l.capacity,by rw [slots]; ring⟩
  simp only [laneAt,diagonal,time,head,ge_iff_le]

lemma laneAt_raw (hd : d<l.diagonals) (ht : t<l.length) (hh : h<l.heads) :
    l.laneAt (l.raw d t h) = if l.live d t then some (h,l.coordinates d t) else none := by
  obtain ⟨first,second,third⟩ := raw_digits (d := d) ht hh
  rw [laneAt_eq,first,second,third,if_neg (by omega)]

lemma laneAt_eq_some {i : ℕ} {p : ℕ × ℕ × ℕ} (eq : l.laneAt i = some p) : ∃ d t,d<l.diagonals ∧
    t<l.length ∧ p.1<l.heads ∧ l.live d t ∧ i = l.raw d t p.1 ∧ p.2 = l.coordinates d t := by
  rw [laneAt_eq] at eq
  split at eq
  · cases eq
  · split at eq
    · rename_i live
      cases eq
      exact ⟨_,_,by omega,mod_lt _ l.length_pos,mod_lt _ l.heads_pos,live,
        (raw_of_digits i).symm,rfl⟩
    · cases eq

lemma live_iff : l.live d t = true ↔
    (l.coordinates d t).1 < l.validRows ∧ (l.coordinates d t).2 < l.validColumns := by
  rw [live,Bool.and_eq_true,decide_eq_true_iff,decide_eq_true_iff]

lemma live_place (hr : row<l.validRows) (hc : column<l.validColumns) :
    l.live (l.place row column).1 (l.place row column).2 = true := by
  have valid := l.admitted.valid
  rw [live_iff,coordinates_place (by omega) (by omega)]
  exact ⟨hr,hc⟩

section Entries

variable {α : Type} [Zero α] {slots : List α}

variable (l) in
/-- The matrix that is packed, where everything outside of the valid part is zero. -/
def entry (slots : List α) (head row column : ℕ) : α :=
  if row<l.validRows ∧ column<l.validColumns then
    slots.getD (l.raw (l.place row column).1 (l.place row column).2 head) 0
  else 0

lemma read_eq (hd : d<l.diagonals) (ht : t<l.length) :
    l.read slots d t h = l.entry slots h (l.coordinates d t).1 (l.coordinates d t).2 := by
  rw [read,entry,place_coordinates hd ht]
  simp only [live_iff]

lemma entry_outside (outside : ¬(row<l.validRows ∧ column<l.validColumns)) :
    l.entry slots h row column = 0 := if_neg outside

end Entries

end Layout

end Pllm.SlotMatrix
