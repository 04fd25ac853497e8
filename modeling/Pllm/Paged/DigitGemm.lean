import Pllm.Lib.Scatter
import Pllm.Paged.Index

/-! Products of rings by balanced digits of eight bits and a product of single precision. -/
namespace Pllm.Paged.DigitGemm
open Pllm.Lib Finset

abbrev Word := BitVec 32

def maxElements : ℕ := 4*2^20
def workspaceBytes : ℕ := 64*2^20
def block : ℕ := 1023
def tile : ℕ := 1024

/-- A single of the product, if it is finite. -/
abbrev Single := Option ℚ

/-- The product of an `m×k` and an `n×k` matrix, whose entries are integers, to an `m×n` one. -/
abbrev Sgemm := List ℤ → List ℤ → ℕ → ℕ → ℕ → List Single

/-- `(0..n).step_by(step)` -/
def stepBy (n step : ℕ) : List ℕ := (List.range (n ⌈/⌉ step)).map (· * step)

/-- The balanced digits of the inputs at one shift. -/
def digits (x : List Word) (cols batch start k shift carry : ℕ) : List ℤ :=
  (List.range batch).flatMap fun r => (List.range k).map fun i =>
    let remaining := ((x.getD (r*cols+start+i) 0).toNat+carry)/2^shift
    (((remaining+128)%256:ℕ) : ℤ)-128

def tileWeights (weights : List Byte) (cols first n start k : ℕ) : List ℤ :=
  (List.range n).flatMap fun r => (List.range k).map fun i =>
    (weights.getD ((first+r)*cols+start+i) 0).toInt

/-- The integer of a single, which has to be one of less than 24 bits. -/
def integer : Single → Except String ℤ
  | some v => if |v| ≥ 2^24 ∨ v.den≠1 then
      .error "digit8 SGEMM violated the exact integer bound" else .ok v.num
  | none => .error "digit8 SGEMM violated the exact integer bound"

def addProducts (c : List Single) (rows batch first n shift : ℕ) (out : List Word) :
    Except String (List Word) :=
  (List.range batch ×ˢ List.range n).foldlM (fun out p => do
    let v ← integer (c.getD (p.1*n+p.2) none)
    let index := p.1*rows+first+p.2
    pure (out.set index (out.getD index 0+(BitVec.ofInt 32 v <<< shift)))) out

section
variable (product : Sgemm) (matrix : Matrix) (x : List Word) (batch bits : ℕ)

/-- One digit of one tile, with the carry that the digits before it leave. -/
def addDigit (start k first n : ℕ) (state : List Word × ℕ) (shift : ℕ) :
    Except String (List Word × ℕ) := do
  let a := digits x matrix.cols batch start k shift state.2
  let b := tileWeights matrix.weights matrix.cols first n start k
  let out ← addProducts (product a b batch n k) matrix.rows batch first n shift state.1
  pure (out,state.2+128*2^shift)

def addTile (start k : ℕ) (out : List Word) (first : ℕ) : Except String (List Word) := do
  let n := min (matrix.rows-first) tile
  let state ← (stepBy bits 8).foldlM (addDigit product matrix x batch start k first n) (out,0)
  pure state.1

def addBlock (out : List Word) (start : ℕ) : Except String (List Word) :=
  let k := min (matrix.cols-start) block
  (stepBy matrix.rows tile).foldlM (addTile product matrix x batch bits start k) out

def validate (available : Bool) : Except String Unit :=
  if ¬available then .error "digit8 requires Apple Silicon CPU Accelerate"
  else if ¬(bits=16 ∨ bits=24 ∨ bits=32) ∨ ¬(1≤batch ∧ batch≤4096)
      ∨ batch*matrix.cols≠x.length ∨ x.length>maxElements ∨ batch*matrix.rows>maxElements
      ∨ (bits<32 ∧ x.any (2^bits ≤ ·.toNat)) then
    .error "digit8 input exceeds ring or geometry bounds"
  else
    let t := min matrix.rows tile
    let b := min matrix.cols block
    if 4*(batch*matrix.rows+batch*b+t*b+batch*t)>workspaceBytes then
      .error "digit8 workspace exceeds 64 MiB"
    else .ok ()

def multiply (available : Bool) : Except String (List Word) := do
  validate matrix x batch bits available
  let out ← (stepBy matrix.cols block).foldlM (addBlock product matrix x batch bits)
    (List.replicate (batch*matrix.rows) 0)
  pure (if bits < 32 then out.map (· &&& BitVec.ofNat 32 (2^bits-1)) else out)

end

/-- The product is exact when the terms of every entry stay below 24 bits, in whatever order they
are added up. -/
def Exact (product : Sgemm) : Prop := ∀ a b m n k,
  (∀ r < m,∀ j<n,∑ i ∈ Finset.range k,|a.getD (r*k+i) 0*b.getD (j*k+i) 0| < 2^24) →
  ∀ r < m,∀ j<n,(product a b m n k).getD (r*n+j) none =
    some ((∑ i ∈ Finset.range k,a.getD (r*k+i) 0*b.getD (j*k+i) 0:ℤ) : ℚ)

/-- What the digits before `j` carry. -/
def carried (j : ℕ) : ℕ := ∑ l ∈ Finset.range j,128*2^(l*8)

def digit (v j : ℕ) : ℤ := (((v+carried j)/2^(j*8)+128)%256 : ℕ)-128

lemma digit_abs (v j : ℕ) : |digit v j| ≤ 128 := by
  unfold digit
  rw [abs_le]
  omega

lemma sum_digits (v n : ℕ) : ∑ j ∈ range n,digit v j*2^(j*8) =
    v-2^(n*8)*((v+carried n)/2^(n*8):ℕ) := by
  induction n with
  | zero => simp [carried]
  | succ n ih =>
    have next : (v+carried (n+1))/2^(n*8)=(v+carried n)/2^(n*8)+128 := by
      rw [carried,sum_range_succ,← add_assoc,Nat.add_mul_div_right _ _ (Nat.two_pow_pos _)]
      rfl
    have power : 2^((n+1)*8)=2^(n*8)*256 := by rw [Nat.succ_mul,Nat.pow_add]
    have digits := Nat.div_add_mod ((v+carried (n+1))/2^(n*8)) 256
    rw [Nat.div_div_eq_div_mul,← power,next] at digits
    rw [sum_range_succ,ih,digit]
    zify at digits power ⊢
    linear_combination (2^(n*8):ℤ)*digits-((v+carried (n+1))/2^((n+1)*8) : ℕ)*power

/-- The step adds `f` to the first `size` words. -/
def Adds (size : ℕ) (step : List Word → Except String (List Word)) (f : ℕ → Word) : Prop :=
  ∀ out,out.length=size → ∃ out',step out = .ok out' ∧ out'.length=size ∧
    ∀ i < size,out'.getD i 0 = out.getD i 0+f i

lemma Adds.foldlM {ι : Type} {size : ℕ} {step : List Word → ι → Except String (List Word)}
    {f : ι → ℕ → Word} {xs : List ι} (each : ∀ x∈xs,Adds size (step · x) (f x)) :
    Adds size (xs.foldlM step ·) fun i => (xs.map (f · i)).sum := by
  induction xs with
  | nil => exact fun out length => ⟨out,rfl,length,fun i _ => (add_zero _).symm⟩
  | cons x xs ih =>
    intro out length
    obtain ⟨mid,eval,length,add⟩ := each x List.mem_cons_self out length
    obtain ⟨out',eval',length',add'⟩ := ih (fun y m => each y (List.mem_cons_of_mem _ m)) mid length
    refine ⟨out',?_,length',fun i hi => ?_⟩
    · exact (List.foldlM_cons ..).trans ((congrArg (· >>= _) eval).trans eval')
    · rw [add' i hi,add i hi,add_assoc]
      rfl

lemma sum_stepBy {R : Type*} [AddCommMonoid R] (n : ℕ) {step : ℕ} (pos : 0 < step) (f : ℕ → R) :
    ((stepBy n step).map fun s => ∑ i ∈ range (min step (n-s)),f (s+i)).sum =
      ∑ i ∈ range n,f i := by
  rw [stepBy,List.map_map,sum_map_range]
  exact sum_parts n pos f

lemma getD_table {α : Type} {m k r i : ℕ} (f : ℕ → ℕ → α) (d : α) (hr : r < m) (hi : i<k) :
    ((List.range m).flatMap fun r => (List.range k).map (f r)).getD (r*k+i) d = f r i := by
  have whole : r < (List.range m).length := List.length_range.symm ▸ hr
  have part := row_flatMap (f := fun r => (List.range k).map (f r))
    (fun _ _ => (List.length_map _).trans List.length_range) whole
  have entry := congrArg (·.getD i d) part
  simp only [row,List.getD_eq_getElem?_getD,getElem?_slice,if_pos hi] at entry
  rw [List.getD_eq_getElem?_getD,entry]
  simp [hi]

lemma integer_ok {v : ℤ} (small : |v| < 2^24) : integer (some (v : ℚ)) = .ok v := by
  have bound : |(v : ℚ)| < 2^24 := by exact_mod_cast small
  simp [integer,bound]

/-- One exact product is added to its tile. -/
lemma addProducts_ok {c : List Single} {rows batch first n shift : ℕ} {v : ℕ → ℕ → ℤ}
    (tile : first+n ≤ rows) (small : ∀ r<batch,∀ j<n,|v r j| < 2^24)
    (value : ∀ r<batch,∀ j<n,c.getD (r*n+j) none = some (v r j : ℚ)) :
    Adds (batch*rows) (addProducts c rows batch first n shift) fun i =>
      if first ≤ i%rows ∧ i%rows<first+n then BitVec.ofInt 32 (v (i/rows) (i%rows-first)) <<< shift
        else 0 := by
  intro out length
  let place (p : ℕ × ℕ) : ℕ := p.1*rows+first+p.2
  let upd (p : ℕ × ℕ) (w : Word) : Word := w+(BitVec.ofInt 32 (v p.1 p.2) <<< shift)
  have mem (p : ℕ × ℕ) : p ∈ List.range batch ×ˢ List.range n ↔ p.1<batch ∧ p.2<n := by
    rw [List.mem_product,List.mem_range,List.mem_range]
  obtain ⟨eval,-⟩ := foldlM_ok (f := fun out p => do
      let v ← integer (c.getD (p.1*n+p.2) none)
      let index := p.1*rows+first+p.2
      pure (out.set index (out.getD index 0+(BitVec.ofInt 32 v <<< shift))))
    (g := fun out p => out.set (place p) (upd p (out.getD (place p) 0))) (P := fun _ => True)
    (List.range batch ×ˢ List.range n) out trivial fun out _ p m => by
      obtain ⟨hr,hj⟩ := (mem p).mp m
      rw [value _ hr _ hj,integer_ok (small _ hr _ hj)]
      exact ⟨rfl,trivial⟩
  obtain ⟨length',written,kept⟩ := getD_foldl_update place upd 0 out
    (show (List.range batch ×ˢ List.range n).Nodup from List.nodup_range.product List.nodup_range)
    (fun p m q m' eq => by
      have hp := (mem p).mp m
      have hq := (mem q).mp m'
      have := (mul_add_inj (show first+p.2 < rows by omega) (show first+q.2 < rows by omega)).mp
        (by simpa only [place,add_assoc] using eq)
      exact Prod.ext this.1 (by omega))
    (fun p m => by
      have hp := (mem p).mp m
      have := mul_add_lt hp.1 (show first+p.2 < rows by omega)
      simp only [place,length]
      omega)
  refine ⟨_,eval,length'.trans length,fun i hi => ?_⟩
  have split := Nat.div_add_mod' i rows
  have hr : i/rows<batch := Nat.div_lt_of_lt_mul (mul_comm batch rows ▸ hi)
  dsimp only
  split
  · have here : place (i/rows,i%rows-first)=i := by
      simp only [place]
      omega
    have := written (i/rows,i%rows-first) ((mem _).mpr ⟨hr,by omega⟩)
    rwa [here] at this
  · rw [add_zero]
    refine kept i fun p m eq => ?_
    have hp := (mem p).mp m
    have low : i%rows=first+p.2 := by
      rw [← eq]
      simp only [place,add_assoc]
      rw [mul_comm,Nat.mul_add_mod,Nat.mod_eq_of_lt (by omega)]
    omega

lemma shifted_eq (v : ℤ) (shift : ℕ) : BitVec.ofInt 32 v <<< shift = ((v*2^shift:ℤ) : Word) := by
  have power : BitVec.twoPow 32 shift=((2^shift:ℕ) : Word) := by
    apply BitVec.eq_of_toNat_eq
    rw [BitVec.toNat_twoPow]
    exact (BitVec.toNat_ofNat ..).symm
  rw [BitVec.shiftLeft_eq_mul_twoPow,power]
  push_cast
  rfl

section
variable {product : Sgemm} {matrix : Matrix} {x : List Word} {batch bits : ℕ}

/-- The entries of the inputs and of the weights. -/
def inputAt (matrix : Matrix) (x : List Word) (r c : ℕ) : ℕ := (x.getD (r*matrix.cols+c) 0).toNat
def weightAt (matrix : Matrix) (i c : ℕ) : ℤ := (matrix.weights.getD (i*matrix.cols+c) 0).toInt

/-- The part of a product that comes from digit `j` of the columns from `start` on. -/
def digitDot (matrix : Matrix) (x : List Word) (start k j r i : ℕ) : ℤ :=
  ∑ c ∈ Finset.range k,digit (inputAt matrix x r (start+c)) j*weightAt matrix i (start+c)

variable (exact : Exact product)
include exact

/-- The bound that the products of single precision rest on holds for every block. -/
lemma digit_product {start k first n j r i : ℕ} (short : k≤block) (hr : r<batch) (hi : i<n) :
    |digitDot matrix x start k j r (first+i)| < 2^24 ∧
      (product (digits x matrix.cols batch start k (j*8) (carried j))
        (tileWeights matrix.weights matrix.cols first n start k) batch n k).getD (r*n+i) none =
          some (digitDot matrix x start k j r (first+i):ℚ) := by
  have term (r i c : ℕ) (hr : r<batch) (hi : i<n) (hc : c<k) :
      (digits x matrix.cols batch start k (j*8) (carried j)).getD (r*k+c) 0 *
        (tileWeights matrix.weights matrix.cols first n start k).getD (i*k+c) 0 =
          digit (inputAt matrix x r (start+c)) j*weightAt matrix (first+i) (start+c) := by
    unfold digits tileWeights
    rw [getD_table _ _ hr hc,getD_table _ _ hi hc]
    simp only [digit,inputAt,weightAt,add_assoc]
  have small (r i : ℕ) : ∑ c ∈ range k,
      |digit (inputAt matrix x r (start+c)) j*weightAt matrix (first+i) (start+c)| < 2^24 := by
    refine lt_of_le_of_lt (sum_le_card_nsmul _ _ (128*128) fun c _ => ?_) ?_
    · rw [abs_mul]
      refine mul_le_mul (digit_abs _ _) ?_ (abs_nonneg _) (by decide)
      have low := BitVec.le_toInt (matrix.weights.getD ((first+i)*matrix.cols+(start+c)) 0)
      have high := BitVec.toInt_lt (x := matrix.weights.getD ((first+i)*matrix.cols+(start+c)) 0)
      exact abs_le.mpr ⟨low,by unfold weightAt; omega⟩
    · rw [card_range,nsmul_eq_mul]
      unfold block at short
      omega
  refine ⟨(abs_sum_le_sum_abs _ _).trans_lt (small r i),?_⟩
  have entry := exact (digits x matrix.cols batch start k (j*8) (carried j))
    (tileWeights matrix.weights matrix.cols first n start k) batch n k (fun r hr i hi => ?_) r hr i hi
  · rw [entry,digitDot,sum_congr rfl fun c m => term r i c hr hi (mem_range.mp m)]
  · rw [sum_congr rfl fun c m =>
      congrArg _ (term r i c hr hi (mem_range.mp m))]
    exact small r i

/-- What one column adds to an entry. -/
def columnTerm (matrix : Matrix) (x : List Word) (bits r i c : ℕ) : ℤ :=
  (∑ j ∈ Finset.range (bits ⌈/⌉ 8),digit (inputAt matrix x r c) j*2^(j*8))*weightAt matrix i c

/-- One digit, with the carry that the ones before it leave. -/
lemma addDigit_ok {start k first n : ℕ} (short : k≤block) (room : first+n ≤ matrix.rows) (m : ℕ)
    {mid : List Word} (length : mid.length=batch*matrix.rows) :
    ∃ out,addDigit product matrix x batch start k first n (mid,carried m) (m*8) =
      .ok (out,carried (m+1)) ∧ out.length=batch*matrix.rows ∧
        ∀ i<batch*matrix.rows,out.getD i 0 = mid.getD i 0 +
          if first ≤ i%matrix.rows ∧ i%matrix.rows<first+n then
            ((digitDot matrix x start k m (i/matrix.rows) (i%matrix.rows)*2^(m*8):ℤ) : Word)
          else 0 := by
  have added : Adds (batch*matrix.rows) (addProducts
      (product (digits x matrix.cols batch start k (m*8) (carried m))
        (tileWeights matrix.weights matrix.cols first n start k) batch n k)
      matrix.rows batch first n (m*8)) _ := addProducts_ok
    (v := fun r i => digitDot matrix x start k m r (first+i)) room
    (fun r hr i hi => (digit_product exact short hr hi).1)
    fun r hr i hi => (digit_product exact short hr hi).2
  obtain ⟨out,eval,length,add⟩ := added mid length
  refine ⟨out,?_,length,fun i hi => ?_⟩
  · unfold addDigit
    simp only [eval]
    rw [carried,carried,sum_range_succ]
    rfl
  · rw [add i hi]
    congr 1
    refine if_ctx_congr Iff.rfl (fun h => ?_) fun _ => rfl
    rw [Nat.add_sub_cancel' h.1,shifted_eq]

lemma addTile_ok {start k first : ℕ} (short : k≤block) (inside : first ≤ matrix.rows) :
    Adds (batch*matrix.rows) (addTile product matrix x batch bits start k · first) fun i =>
      ∑ t ∈ range (min tile (matrix.rows-first)),if first+t = i%matrix.rows then
        ((∑ c ∈ range k,columnTerm matrix x bits (i/matrix.rows) (i%matrix.rows) (start+c):ℤ) :
          Word) else 0 := by
  intro out length
  obtain ⟨n,hn⟩ : ∃ n,n=min (matrix.rows-first) tile := ⟨_,rfl⟩
  have loop (m : ℕ) : ∃ out',((List.range m).map (· * 8)).foldlM
      (addDigit product matrix x batch start k first n) (out,0) = .ok (out',carried m) ∧
        out'.length=batch*matrix.rows ∧ ∀ i<batch*matrix.rows,out'.getD i 0 = out.getD i 0 +
          if first ≤ i%matrix.rows ∧ i%matrix.rows<first+n then ((∑ j ∈ range m,
            digitDot matrix x start k j (i/matrix.rows) (i%matrix.rows)*2^(j*8) : ℤ) : Word) else 0 := by
    induction m with
    | zero => exact ⟨out,rfl,length,fun i _ => by simp⟩
    | succ m ih =>
      obtain ⟨mid,eval,length,add⟩ := ih
      obtain ⟨out',eval',length',add'⟩ := addDigit_ok exact short
        (show first+n ≤ matrix.rows by omega) m length
      refine ⟨out',?_,length',fun i hi => ?_⟩
      · rw [List.range_succ,List.map_append,List.foldlM_append,eval,ok_bind]
        exact (List.foldlM_cons ..).trans (congrArg (· >>= _) eval')
      · rw [add' i hi,add i hi,add_assoc]
        congr 1
        by_cases h : first ≤ i%matrix.rows ∧ i%matrix.rows<first+n
        · rw [if_pos h,if_pos h,if_pos h,sum_range_succ,Int.cast_add]
        · rw [if_neg h,if_neg h,if_neg h,add_zero]
  obtain ⟨out',eval,length',add⟩ := loop (bits ⌈/⌉ 8)
  refine ⟨out',?_,length',fun i hi => ?_⟩
  · unfold addTile stepBy
    rw [hn] at eval
    simp only [eval]
    rfl
  · rw [add i hi]
    congr 1
    have terms : ∑ j ∈ range (bits ⌈/⌉ 8),
        digitDot matrix x start k j (i/matrix.rows) (i%matrix.rows)*2^(j*8) =
        ∑ c ∈ range k,columnTerm matrix x bits (i/matrix.rows) (i%matrix.rows) (start+c) := by
      simp only [digitDot,columnTerm,sum_mul]
      rw [sum_comm]
      simp only [mul_right_comm]
    rw [terms]
    dsimp only
    by_cases h : first ≤ i%matrix.rows ∧ i%matrix.rows<first+n
    · rw [if_pos h,sum_eq_single (i%matrix.rows-first) (fun t _ other => if_neg (by omega))
        fun outside => absurd (mem_range.mpr (by omega)) outside,if_pos (by omega)]
    · rw [if_neg h]
      refine (sum_eq_zero fun t m => if_neg ?_).symm
      have := mem_range.mp m
      omega

lemma addBlock_ok {start : ℕ} :
    Adds (batch*matrix.rows) (addBlock product matrix x batch bits · start) fun i =>
      ((∑ c ∈ range (min block (matrix.cols-start)),
        columnTerm matrix x bits (i/matrix.rows) (i%matrix.rows) (start+c) : ℤ) : Word) := by
  intro out length
  have inside : ∀ first ∈ stepBy matrix.rows tile,first ≤ matrix.rows := by
    intro first m
    obtain ⟨q,hq,rfl⟩ := List.mem_map.mp m
    have below := not_le.mpr (List.mem_range.mp hq)
    rw [ceilDiv_le_iff_le_mul (by decide),mul_comm] at below
    omega
  have each : ∀ first ∈ stepBy matrix.rows tile,Adds (batch*matrix.rows)
      (addTile product matrix x batch bits start (min (matrix.cols-start) block) · first) _ :=
    fun first m => addTile_ok exact (min_le_right _ _) (inside first m)
  obtain ⟨out',eval,length',add⟩ := Adds.foldlM each out length
  refine ⟨out',eval,length',fun i hi => (add i hi).trans (congrArg _ ?_)⟩
  have row : i%matrix.rows < matrix.rows := Nat.mod_lt _ (pos_of_ne_zero fun zero => by
    simp [zero] at hi)
  have hit := sum_stepBy matrix.rows (show 0 < tile by decide) fun t => if t=i%matrix.rows then
    ((∑ c ∈ range (min (matrix.cols-start) block),
      columnTerm matrix x bits (i/matrix.rows) (i%matrix.rows) (start+c) : ℤ) : Word) else 0
  rw [sum_ite_eq',if_pos (mem_range.mpr row)] at hit
  rw [min_comm block]
  exact hit

end

/-- Digits and blocks add up to the product of the ring, and no block leaves the bound of exact
integers. -/
theorem digit_gemm {product : Sgemm} (exact : Exact product) (matrix : Matrix) (x : List Word)
    (batch bits : ℕ) (available : Bool) :
    (∀ e,validate matrix x batch bits available = .error e →
      multiply product matrix x batch bits available = .error e) ∧
    (validate matrix x batch bits available = .ok () →
      ∃ out,multiply product matrix x batch bits available = .ok out ∧
        out.length=batch*matrix.rows ∧ ∀ r<batch,∀ i < matrix.rows,
          ((out.getD (r*matrix.rows+i) 0).toNat : ℤ) =
            (∑ c ∈ range matrix.cols,inputAt matrix x r c*weightAt matrix i c)%2^bits) := by
  unfold multiply
  refine ⟨fun e refused => by rw [refused]; rfl,fun accepted => ?_⟩
  have ring : bits=16 ∨ bits=24 ∨ bits=32 := by
    unfold validate at accepted
    simp only [ite_error_eq_ok] at accepted
    tauto
  have each : ∀ start ∈ stepBy matrix.cols block,
      Adds (batch*matrix.rows) (addBlock product matrix x batch bits · start) _ :=
    fun _ _ => addBlock_ok exact
  obtain ⟨out,eval,length,add⟩ := Adds.foldlM each (List.replicate (batch*matrix.rows) 0) List.length_replicate
  have entry (r i : ℕ) (hr : r<batch) (hi : i < matrix.rows) :
      ((out.getD (r*matrix.rows+i) 0).toNat : ℤ) =
        (∑ c ∈ range matrix.cols,columnTerm matrix x bits r i c)%2^32 := by
    have high : (r*matrix.rows+i)/matrix.rows=r := by
      rw [Nat.mul_comm,Nat.mul_add_div (by omega),Nat.div_eq_of_lt hi,Nat.add_zero]
    have low : (r*matrix.rows+i)%matrix.rows=i := by
      rw [Nat.mul_comm,Nat.mul_add_mod,Nat.mod_eq_of_lt hi]
    have sum := add _ (mul_add_lt hr hi)
    simp only [high,low,Int.cast_sum,getD_replicate,zero_add] at sum
    rw [sum_stepBy matrix.cols (by decide) fun c => ((columnTerm matrix x bits r i c:ℤ) : Word),
      ← Int.cast_sum] at sum
    rw [sum]
    exact (congrArg _ (BitVec.toNat_ofInt _)).trans (Int.toNat_of_nonneg (Int.emod_nonneg _ (by decide)))
  have digits (r i : ℕ) : (∑ c ∈ range matrix.cols,columnTerm matrix x bits r i c)%2^bits =
      (∑ c ∈ range matrix.cols,inputAt matrix x r c*weightAt matrix i c)%2^bits := by
    have bytes : bits ⌈/⌉ 8*8=bits := by rcases ring with rfl | rfl | rfl <;> rfl
    refine Int.ModEq.sum fun c _ => ?_
    rw [columnTerm,sum_digits,bytes]
    refine .mul_right _ ?_
    exact Int.modEq_iff_add_fac.mpr ⟨_,(sub_add_cancel _ _).symm⟩
  refine ⟨if bits < 32 then out.map (· &&& BitVec.ofNat 32 (2^bits-1)) else out,?_,?_,
    fun r hr i hi => ?_⟩
  · dsimp only at eval
    rw [accepted,ok_bind,eval]
    rfl
  · split
    · rw [List.length_map,length]
    · exact length
  rw [← digits]
  have inside : r*matrix.rows+i<out.length := length ▸ mul_add_lt hr hi
  split
  · rename_i narrow
    have masked : ((out.map (· &&& BitVec.ofNat 32 (2^bits-1))).getD (r*matrix.rows+i) 0).toNat =
        (out.getD (r*matrix.rows+i) 0).toNat%2^bits := by
      rw [List.getD_eq_getElem _ _ (by rwa [List.length_map]),List.getElem_map,
        List.getD_eq_getElem _ _ inside]
      exact toNat_and_lowMask _ narrow.le
    rw [masked,Int.natCast_mod,entry r i hr hi,Nat.cast_pow,Nat.cast_ofNat]
    exact Int.emod_emod_of_dvd _ (pow_dvd_pow 2 narrow.le)
  · obtain rfl : bits=32 := by omega
    exact entry r i hr hi

/-- The product of single precision on integers. -/
def exactProduct : Sgemm := fun a b m n k =>
  (List.range m).flatMap fun r => (List.range n).map fun j =>
    some ((∑ i ∈ Finset.range k,a.getD (r*k+i) 0*b.getD (j*k+i) 0:ℤ) : ℚ)

theorem digit_gemm_at : ∃ out,multiply exactProduct ⟨[253#8,7#8],1,2,7⟩ [5#32,65535#32] 1 16 true =
    .ok out ∧ ((out.getD 0 0).toNat:ℤ)=65514 := by
  have exact : Exact exactProduct := fun a b m n k _ r hr j hj => getD_table _ _ hr hj
  obtain ⟨out,run,-,value⟩ := (digit_gemm exact ⟨[253#8,7#8],1,2,7⟩ [5#32,65535#32] 1 16 true).2
    (by decide)
  have := value 0 (by decide) 0 (by decide)
  exact ⟨out,run,by simpa [sum_range_succ,inputAt,weightAt] using this⟩

end Pllm.Paged.DigitGemm
