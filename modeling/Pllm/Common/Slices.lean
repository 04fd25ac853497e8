import Pllm.Common.Bytes

/-! Ranges and fixed-size chunks of a byte string, as Rust slices cut them. -/
namespace Pllm
open List

/-- The range `start..start+len`. -/
def slice {α : Type*} (xs : List α) (start len : ℕ) : List α := (xs.drop start).take len

/-- The complete chunks of `n` elements; a short tail is dropped. -/
def chunksExact {α : Type*} (n : ℕ) (xs : List α) : List (List α) :=
  (List.range (xs.length/n)).map fun i => slice xs (n*i) n

section
variable {α β : Type*}

variable {xs : List α} {start len n : ℕ} {f : β → List α}

lemma length_slice (h : start+len≤xs.length) : (slice xs start len).length = len := by
  simp only [slice,length_take,length_drop]
  omega

/-- A range of a range. -/
lemma slice_slice (xs : List α) {offset part : ℕ} (h : offset+part≤len) :
    slice (slice xs start len) offset part = slice xs (start+offset) part := by
  rw [slice,slice,drop_take,drop_drop,take_take]
  congr 1
  omega

/-- A range that starts after a prefix. -/
lemma slice_append_right {pre : List α} (xs : List α) (len : ℕ) (h : pre.length ≤ start) :
    slice (pre++xs) start len = slice xs (start-pre.length) len := by
  rw [slice,drop_append,drop_of_length_le h,nil_append,slice]

lemma slice_append_left (post : List α) (h : xs.length=len) : slice (xs++post) 0 len = xs := by
  rw [slice,drop_zero,take_append_of_le_length h.ge,take_of_length_le h.le]

lemma length_flatMap_const (xs : List β) (h : ∀ x∈xs, (f x).length = n) :
    (xs.flatMap f).length = n*xs.length := by
  induction xs with
  | nil => rfl
  | cons x xs ih =>
    have hx := h x mem_cons_self
    have hxs := ih fun y hy => h y (mem_cons_of_mem _ hy)
    rw [flatMap_cons,length_append,hx,hxs,length_cons]
    ring

lemma length_flatten_const {xs : List (List α)} (h : ∀ x∈xs,x.length=n) :
    xs.flatten.length=n*xs.length := by
  rw [flatten_eq_flatMap]
  exact length_flatMap_const xs h

/-- The chunks of a concatenation of chunks. -/
lemma chunksExact_flatMap (hn : 0<n) (xs : List β) (h : ∀ x∈xs, (f x).length = n) :
    chunksExact n (xs.flatMap f) = xs.map f := by
  have hlen := length_flatMap_const xs h
  unfold chunksExact
  rw [hlen,Nat.mul_div_cancel_left _ hn]
  clear hlen
  induction xs with
  | nil => rfl
  | cons x xs ih =>
    have hx := h x mem_cons_self
    rw [length_cons,range_succ_eq_map,map_cons,map_map,map_cons,
      flatMap_cons,mul_zero,slice_append_left _ hx,← ih fun y hy =>
        h y (mem_cons_of_mem _ hy)]
    congr 1
    apply map_congr_left
    intro i _
    rw [Function.comp_apply,slice_append_right _ _ (by rw [hx]; exact Nat.le_mul_of_pos_right n (Nat.succ_pos i)),hx,
      Nat.mul_succ,Nat.add_sub_cancel]

end

open Nat

variable {α : Type*}

/-- `target[start..start+source.len()].copy_from_slice(source)`. -/
def splice (target : List α) (start : ℕ) (source : List α) : List α :=
  target.take start++source++target.drop (start+source.length)

/-- Row `i` of a flat buffer. -/
def row (width : ℕ) (xs : List α) (i : ℕ) : List α := slice xs (i*width) width

section
variable {xs source : List α} {start width n a b : ℕ}

lemma getElem?_slice (xs : List α) (start len i : ℕ) :
    (slice xs start len)[i]? = if i<len then xs[start+i]? else none := by
  rw [slice,getElem?_take,getElem?_drop]

lemma getElem?_splice (h : start+source.length≤xs.length) (i : ℕ) : (splice xs start source)[i]? =
      if start ≤ i ∧ i < start+source.length then source[i-start]? else xs[i]? := by
  have hlen : (xs.take start).length=start := by rw [length_take]; omega
  unfold splice
  rw [append_assoc]
  by_cases h1 : i < start
  · rw [getElem?_append_left (by omega),getElem?_take,if_pos h1,if_neg (by omega)]
  · rw [getElem?_append_right (by omega),hlen]
    by_cases h2 : i < start+source.length
    · rw [getElem?_append_left (by omega),if_pos (by omega)]
    · rw [getElem?_append_right (by omega),if_neg (by omega),getElem?_drop]
      congr 1
      omega

@[simp] lemma length_splice (h : start+source.length≤xs.length) :
    (splice xs start source).length = xs.length := by
  simp only [splice,length_append,length_take,length_drop]
  omega

lemma length_row (h : xs.length=n*width) {i : ℕ} (hi : i<n) : (row width xs i).length = width := by
  apply length_slice
  rw [h]
  have := Nat.mul_le_mul_right width (succ_le_of_lt hi)
  rw [succ_mul] at this
  exact this

lemma row_zero (h : xs.length=width) : row width xs 0 = xs := by
  rw [row,zero_mul,slice,drop_zero,take_of_length_le h.le]

/-- Rows copied to consecutive rows of a buffer. -/
lemma row_splice (hs : source.length=n*width) (h : start*width+source.length≤xs.length) (i : ℕ) :
    row width (splice xs (start*width) source) i =
      if start ≤ i ∧ i < start+n then row width source (i-start) else row width xs i := by
  apply ext_getElem?
  intro d
  unfold row
  rw [getElem?_slice]
  by_cases hd : d<width
  · rw [if_pos hd,getElem?_splice h]
    by_cases hi : start ≤ i ∧ i < start+n
    · obtain ⟨k,rfl⟩ := Nat.exists_eq_add_of_le hi.1
      have hk : k<n := by omega
      have hle := Nat.mul_le_mul_right width (succ_le_of_lt hk)
      rw [succ_mul] at hle
      rw [if_pos hi,if_pos ⟨by rw [add_mul]; omega,by rw [add_mul]; omega⟩,getElem?_slice,
        if_pos hd,Nat.add_sub_cancel_left,add_mul]
      congr 1
      omega
    · rw [if_neg hi,getElem?_slice,if_pos hd,if_neg]
      rintro ⟨h1,h2⟩
      refine hi ⟨?_,?_⟩
      · by_contra hlt
        have hle := Nat.mul_le_mul_right width (succ_le_of_lt (not_le.mp hlt))
        rw [succ_mul] at hle
        omega
      · by_contra hge
        have hle := Nat.mul_le_mul_right width (not_lt.mp hge)
        rw [add_mul] at hle
        omega
  · rw [if_neg hd]
    split <;> rw [getElem?_slice,if_neg hd]

/-- Rows of one width laid out one after the other. -/
lemma row_flatMap {β : Type*} {f : β → List α} {xs : List β} (h : ∀ x∈xs, (f x).length = width) {i
    : ℕ} (hi : i<xs.length) : row width (xs.flatMap f) i = f xs[i] := by
  induction xs generalizing i with
  | nil => exact absurd hi (Nat.not_lt_zero i)
  | cons x xs ih =>
    have hx := h x mem_cons_self
    rw [flatMap_cons,row]
    cases i with
    | zero => rw [zero_mul,slice_append_left _ hx,getElem_cons_zero]
    | succ i =>
      rw [slice_append_right _ _ (by rw [hx,succ_mul]; omega),hx,succ_mul,
        Nat.add_sub_cancel,getElem_cons_succ,
        ← ih (fun y hy => h y (mem_cons_of_mem _ hy)) (by simpa using hi), row]

/-- A second copy that continues the first. -/
lemma splice_splice (tail : List α) (h : start+source.length≤xs.length) :
    splice (splice xs start source) (start+source.length) tail = splice xs start (source++tail) := by
  have hlen : (xs.take start++source).length=start+source.length := by
    rw [length_append,length_take]
    omega
  unfold splice
  rw [take_left' hlen,drop_append,hlen,drop_of_length_le (by omega),nil_append,
    drop_drop,length_append]
  simp only [append_assoc]
  congr 4
  omega

/-- A range of whole rows. -/
lemma slice_rows (width start n : ℕ) (xs : List α) :
    slice xs (start*width) (n*width) = (List.range n).flatMap fun i => row width xs (start+i) := by
  induction n with
  | zero => simp [slice]
  | succ n ih =>
    rw [range_succ,flatMap_append,← ih,flatMap_singleton,row,slice,slice,slice,
      succ_mul,take_add,drop_drop,add_mul]

lemma row_replicate {i : ℕ} (a : α) (hi : i<n) :
    row width (replicate (n*width) a) i = replicate width a := by
  have hle := Nat.mul_le_mul_right width (succ_le_of_lt hi)
  rw [succ_mul] at hle
  rw [row,slice,drop_replicate,take_replicate]
  congr 1
  omega

/-- A row index determines its parts. -/
lemma mul_add_inj {x y : ℕ} (hx : x<n) (hy : y<n) : a*n+x=b*n+y ↔ a=b ∧ x=y := by
  constructor
  · intro h
    have hmod := congrArg (· % n) h
    have hdiv := congrArg (· / n) h
    simp only [mul_add_mod_of_lt hx,mul_add_mod_of_lt hy] at hmod
    have hn : 0<n := by omega
    rw [mul_comm a,mul_comm b] at hdiv
    simp only [mul_add_div hn,div_eq_of_lt hx,div_eq_of_lt hy] at hdiv
    exact ⟨by omega,hmod⟩
  · rintro ⟨rfl,rfl⟩
    rfl

lemma mul_add_lt {x : ℕ} (ha : a<b) (hx : x<n) : a*n+x<b*n := by
  have hle := Nat.mul_le_mul_right n (succ_le_of_lt ha)
  rw [succ_mul] at hle
  omega

end

end Pllm
