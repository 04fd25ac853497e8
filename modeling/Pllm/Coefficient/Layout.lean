import Pllm.Coefficient.Interleave

/-! Windows of matrices as polynomials, and the addresses of their products. -/
namespace Pllm.Coefficient

open Nat

/-- The dimensions of a left matrix of `k` rows and a right one of `n` columns. -/
structure Dims where
  k : ℕ
  m : ℕ
  n : ℕ

structure LayoutStorage where
  inputMatrixWords : ℕ
  outputMatrixWords : ℕ
  encodingWords : ℕ
  groupWords : ℕ
  interleaveScratchWords : ℕ
  packedWords : ℕ
  callerBytes : ℕ

def product (a b : ℕ) : Result ℕ := if a*b<2^64 then .ok (a*b) else .error .overflow
def sum (a b : ℕ) : Result ℕ := if a+b<2^64 then .ok (a+b) else .error .overflow

/-- Where an entry of a matrix goes, and whether it changes its sign there. -/
structure Coordinate where
  place : ℕ
  coefficient : ℕ
  negative : Bool

structure Coordinates where
  degree : ℕ
  shape : Dims
  window : Dims
  blocks : Dims

def blocksOf (shape window : Dims) : Dims :=
  ⟨shape.k ⌈/⌉ window.k,shape.m ⌈/⌉ window.m,shape.n ⌈/⌉ window.n⟩

/-- A dimension that is zero. -/
def Dims.empty (d : Dims) : Bool := d.k = 0 || d.m = 0 || d.n = 0

namespace Coordinates

def bounded (degree : ℕ) (shape window : Dims) (max : ℕ) : Result Coordinates :=
  if ¬isPowerOfTwo degree ∨ degree>max ∨ degree>8192 ∨ shape.empty ∨ window.empty
      ∨ ¬isPowerOfTwo window.m ∨ window.m>256 then .error .invalidGeometry
  else do
    let area ← product window.k window.m
    let volume ← product area window.n
    if volume>degree then .error .invalidGeometry
    else do
      let _ ← product shape.k shape.m
      let _ ← product shape.m shape.n
      let _ ← product shape.k shape.n
      let blocks := blocksOf shape window
      let _ ← product blocks.k blocks.n
      pure ⟨degree,shape,window,blocks⟩

variable (c : Coordinates)

/-- Entry `(r,h)` of a window goes to the exponent `r*nw*mw-h`. -/
def lhsAt (rowBlock innerBlock : ℕ) (p : ℕ × ℕ) : Coordinate :=
  let base := p.1*c.window.n*c.window.m
  ⟨(rowBlock*c.window.k+p.1)*c.shape.m+innerBlock*c.window.m+p.2,
    if base≥p.2 then base-p.2 else c.degree-(p.2-base),base<p.2⟩

def lhs (rowBlock innerBlock : ℕ) : Result (List Coordinate) :=
  if rowBlock≥c.blocks.k ∨ innerBlock≥c.blocks.m then .error .invalidGeometry
  else .ok ((List.range (min c.window.k (c.shape.k-rowBlock*c.window.k)) ×ˢ
    List.range (min c.window.m (c.shape.m-innerBlock*c.window.m))).map (c.lhsAt rowBlock innerBlock))

/-- Entry `(h,c)` of a window goes to the exponent `c*mw+h`. -/
def rhsAt (innerBlock colBlock : ℕ) (p : ℕ × ℕ) : Coordinate :=
  ⟨(innerBlock*c.window.m+p.1)*c.shape.n+colBlock*c.window.n+p.2,p.2*c.window.m+p.1,false⟩

def rhs (innerBlock colBlock : ℕ) : Result (List Coordinate) :=
  if innerBlock≥c.blocks.m ∨ colBlock≥c.blocks.n then .error .index
  else .ok ((List.range (min c.window.m (c.shape.m-innerBlock*c.window.m)) ×ˢ
    List.range (min c.window.n (c.shape.n-colBlock*c.window.n))).map (c.rhsAt innerBlock colBlock))

/-- The group and the coefficient of an output. -/
def address (row col : ℕ) : Result (ℕ × ℕ) :=
  if row≥c.shape.k ∨ col≥c.shape.n then .error .index
  else
    let t := row/c.window.k*c.blocks.n+col/c.window.n
    .ok (t/c.window.m,(row%c.window.k*c.window.n+col%c.window.n)*c.window.m+t%c.window.m)

def subtract (a b : ℕ) : Result ℕ := if b≤a then .ok (a-b) else .error .overflow

def visible (group coefficient : ℕ) : Result Bool :=
  if coefficient≥c.degree then .error .index
  else do
    let first ← product group c.window.m
    let t ← sum first (coefficient%c.window.m)
    if t≥c.blocks.k*c.blocks.n then pure false
    else do
      let place := coefficient/c.window.m
      let rowStart ← product (t/c.blocks.n) c.window.k
      let colStart ← product (t%c.blocks.n) c.window.n
      let rows ← subtract c.shape.k rowStart
      let cols ← subtract c.shape.n colStart
      let row := place/c.window.n
      let col := place%c.window.n
      pure (row < c.window.k && row < rows && col < cols)

end Coordinates

structure CoefficientLayout where
  ring : CoefficientRing
  shape : Dims
  window : Dims
  blocks : Dims
  groups : ℕ
  storage : LayoutStorage

namespace CoefficientLayout

/-- A caller provides eight bytes for each word, which an allocation can have. -/
def new (ring : CoefficientRing) (shape window : Dims) (maxCallerBytes : ℕ) :
    Result CoefficientLayout :=
  if shape.empty ∨ window.empty ∨ ¬isPowerOfTwo window.m ∨ window.m>maxInterleaveInputs then
    .error .invalidGeometry
  else do
    let area ← product window.k window.m
    let volume ← product area window.n
    if volume>ring.degree then .error .invalidGeometry
    else do
      let blocks := blocksOf shape window
      let count ← product blocks.k blocks.n
      let groups := count ⌈/⌉ window.m
      let left ← product shape.k shape.m
      let right ← product shape.m shape.n
      let inputMatrixWords ← sum left right
      let outputMatrixWords ← product shape.k shape.n
      let encodingWords ← product 2 ring.degree
      let groupWords ← product window.m ring.degree
      let interleaveScratchWords ← ring.interleaveScratchWords window.m (min count window.m)
      let packedWords ← product groups ring.degree
      let words ← [inputMatrixWords,outputMatrixWords,encodingWords,groupWords,
        interleaveScratchWords,packedWords].foldlM sum 0
      let callerBytes ← product words 8
      if callerBytes>maxCallerBytes ∨ callerBytes≥2^63 then .error .resourceLimit
      else pure ⟨ring,shape,window,blocks,groups,⟨inputMatrixWords,outputMatrixWords,
        encodingWords,groupWords,interleaveScratchWords,packedWords,callerBytes⟩⟩

variable (l : CoefficientLayout)

def coordinates : Result Coordinates :=
  Coordinates.bounded l.ring.degree l.shape l.window maxDegree

def groupInputs (group : ℕ) : Result ℕ :=
  if group≥l.groups then .error .index
  else .ok (min (l.blocks.k*l.blocks.n-group*l.window.m) l.window.m)

/-- The entries of a matrix at their coefficients. -/
def packed (matrix : List ℕ) (places : List Coordinate) : List ℕ :=
  places.foldl (fun output at' =>
    let v := matrix.getD at'.place 0
    output.set at'.coefficient (if at'.negative then neg l.ring.modulus v else v))
    (List.replicate l.ring.degree 0)

def packLhs (matrix : List ℕ) (rowBlock innerBlock : ℕ) (output : List ℕ) : Result (List ℕ) :=
  if matrix.length≠l.shape.k*l.shape.m ∨ output.length≠l.ring.degree then .error .bufferLength
  else if rowBlock≥l.blocks.k ∨ innerBlock≥l.blocks.m then .error .index
  else do
    canonical l.ring.modulus matrix
    let coordinates ← l.coordinates
    let places ← coordinates.lhs rowBlock innerBlock
    pure (l.packed matrix places)

def packRhs (matrix : List ℕ) (innerBlock colBlock : ℕ) (output : List ℕ) : Result (List ℕ) :=
  if matrix.length≠l.shape.m*l.shape.n ∨ output.length≠l.ring.degree then .error .bufferLength
  else if innerBlock≥l.blocks.m ∨ colBlock≥l.blocks.n then .error .index
  else do
    canonical l.ring.modulus matrix
    let coordinates ← l.coordinates
    let places ← coordinates.rhs innerBlock colBlock
    pure (l.packed matrix places)

def packedAddress (row col : ℕ) : Result (ℕ × ℕ) :=
  if row≥l.shape.k ∨ col≥l.shape.n then .error .index
  else do
    let coordinates ← l.coordinates
    coordinates.address row col

/-- The outputs row by row, from the polynomials of the groups one after the other. -/
def parse (polynomials output : List ℕ) : Result (List ℕ) :=
  if polynomials.length≠l.storage.packedWords ∨ output.length≠l.storage.outputMatrixWords then
    .error .bufferLength
  else do
    canonical l.ring.modulus polynomials
    (List.range l.shape.k ×ˢ List.range l.shape.n).foldlM (fun output p => do
      let a ← l.packedAddress p.1 p.2
      pure (output.set (p.1*l.shape.n+p.2) (polynomials.getD (a.1*l.ring.degree+a.2) 0))) output

/-! The use of a layout: products of packed polynomials are added up for each block, the blocks of
a group are interleaved, and the groups are parsed. -/

/-- The product modulo `X^n+1`, coefficient by coefficient. -/
def negacyclic (n p : ℕ) (a b : List ℕ) : List ℕ :=
  (List.range n).map fun k => ((∑ i ∈ Finset.range n,∑ j ∈ Finset.range n,
    (if i+j = k then 1 else if i+j=k+n then -1 else 0) *
      ((a.getD i 0:ℕ) : ℤ) * ((b.getD j 0:ℕ) : ℤ)) % p).toNat

/-- The sum of the products over the inner blocks. -/
def block (a b : List ℕ) (t : ℕ) : Result (List ℕ) :=
  let zero := List.replicate l.ring.degree 0
  (List.range l.blocks.m).foldlM (fun total inner => do
    let left ← l.packLhs a (t/l.blocks.n) inner zero
    let right ← l.packRhs b inner (t%l.blocks.n) zero
    pure (List.zipWith (add l.ring.modulus) total (negacyclic l.ring.degree l.ring.modulus left right)))
    zero

def group (a b : List ℕ) (g : ℕ) : Result (List ℕ) := do
  let count ← l.groupInputs g
  let inputs ← (List.range count).mapM fun lane => l.block a b (g*l.window.m+lane)
  let words ← l.ring.interleaveScratchWords l.window.m count
  l.ring.interleave inputs.flatten l.window.m count (List.replicate l.ring.degree 0)
    (List.replicate words 0)

def evaluate (a b : List ℕ) : Result (List ℕ) := do
  let groups ← (List.range l.groups).mapM (l.group a b)
  l.parse groups.flatten (List.replicate l.storage.outputMatrixWords 0)

end CoefficientLayout

/-! The product of packed windows has the dot products at its multiples of `mw`. -/
open Pllm.Lib

lemma product_eq_ok {a b c : ℕ} : product a b = .ok c ↔ a*b<2^64 ∧ c=a*b := by
  rw [product,ite_ok_eq_ok,@eq_comm _ c]

lemma product_ok {a b : ℕ} (h : a*b<2^64) : product a b = .ok (a*b) := if_pos h

lemma Dims.empty_eq_false {d : Dims} : d.empty=false ↔ 0<d.k ∧ 0<d.m ∧ 0<d.n := by
  simp [Dims.empty,Nat.pos_iff_ne_zero,and_assoc]

/-- What a layout has been admitted for. -/
structure Admitted (l : CoefficientLayout) : Prop where
  shape : 0<l.shape.k ∧ 0<l.shape.m ∧ 0<l.shape.n
  window : 0<l.window.k ∧ 0<l.window.m ∧ 0<l.window.n
  powerOfTwo : isPowerOfTwo l.window.m = true
  inputs : l.window.m≤256
  volume : l.window.k*l.window.m*l.window.n ≤ l.ring.degree
  blocks : l.blocks = blocksOf l.shape l.window
  groups : l.groups=(l.blocks.k*l.blocks.n) ⌈/⌉ l.window.m
  left : l.shape.k*l.shape.m<2^64
  right : l.shape.m*l.shape.n<2^64
  output : l.shape.k*l.shape.n<2^64
  count : l.blocks.k*l.blocks.n<2^64
  outputWords : l.storage.outputMatrixWords = l.shape.k*l.shape.n
  packedWords : l.storage.packedWords=l.groups*l.ring.degree

lemma admitted_of_new {ring : CoefficientRing} {shape window : Dims} {max : ℕ}
    {l : CoefficientLayout} (h : CoefficientLayout.new ring shape window max = .ok l) :
    (l.ring=ring ∧ l.shape=shape ∧ l.window=window) ∧ Admitted l := by
  unfold CoefficientLayout.new at h
  split at h
  · cases h
  rename_i geometry
  simp only [not_or,Bool.not_eq_true,Bool.not_eq_false,Dims.empty_eq_false,not_lt] at geometry
  obtain ⟨hshp,hwin,power,inputs⟩ := geometry
  obtain ⟨area,harea,volume,hvol,h⟩ := bind₂_eq_ok.mp h
  split at h
  · cases h
  rename_i small
  obtain ⟨count,hcnt,left,hleft,right,hrt,input,-,h⟩ := bind₄_eq_ok.mp h
  obtain ⟨output,hout,encoding,-,groupWords,-,scratch,-,h⟩ := bind₄_eq_ok.mp h
  obtain ⟨packed,hpac,words,-,bytes,-,h⟩ := bind₃_eq_ok.mp h
  split at h
  · cases h
  obtain rfl := ok_inj h
  rw [product_eq_ok] at harea hvol hcnt hleft hrt hout hpac
  obtain ⟨-,rfl⟩ := harea
  obtain ⟨-,rfl⟩ := hvol
  obtain ⟨countSmall,rfl⟩ := hcnt
  exact ⟨⟨rfl,rfl,rfl⟩,hshp,hwin,power,inputs,not_lt.mp small,rfl,rfl,hleft.1,hrt.1,
    hout.1,countSmall,hout.2,hpac.2⟩

namespace Admitted

variable {l : CoefficientLayout} (admitted : Admitted l)
include admitted

lemma coordinates_ok : l.coordinates = .ok ⟨l.ring.degree,l.shape,l.window,l.blocks⟩ := by
  have degree := l.ring.degree_le
  have geometry : ¬(¬isPowerOfTwo l.ring.degree=true ∨ l.ring.degree>maxDegree ∨
      l.ring.degree>8192 ∨ l.shape.empty=true ∨ l.window.empty=true ∨
      ¬isPowerOfTwo l.window.m = true ∨ l.window.m>256) := by
    simp only [not_or,Bool.not_eq_true,Bool.not_eq_false,Dims.empty_eq_false,not_lt]
    refine ⟨l.ring.powerOfTwo,degree,degree.trans (by decide),admitted.shape,admitted.window,
      admitted.powerOfTwo,admitted.inputs⟩
  have volume := admitted.volume
  have small : l.window.k*l.window.m*l.window.n<2^64 := by
    omega
  have area : l.window.k*l.window.m<2^64 :=
    lt_of_le_of_lt (Nat.le_mul_of_pos_right _ admitted.window.2.2) small
  unfold CoefficientLayout.coordinates Coordinates.bounded
  rw [if_neg geometry,product_ok area,ok_bind,product_ok small,ok_bind,if_neg (not_lt.mpr volume),
    product_ok admitted.left,ok_bind,product_ok admitted.right,ok_bind,product_ok admitted.output,
    ok_bind]
  dsimp only
  rw [← admitted.blocks,product_ok admitted.count]
  rfl

end Admitted

/-- The sign of a power of `X` as coefficient `k`. -/
def wrap (R : Type*) [Ring R] (n x k : ℕ) : R := if x=k then 1 else if x=k+n then -1 else 0

/-- The product of the powers of two entries counts at a multiple of `mw` when they meet there. -/
lemma exponents (R : Type*) [CommRing R] {n d kw mw nw r h h' c s : ℕ} (hn : n=d*mw) (volume :
    kw*nw*mw≤n) (hr : r<kw) (hh : h < mw) (hh' : h' < mw) (hc : c<nw) (hs : s*mw<n) :
    (if r*nw*mw < h then -1 else 1)*wrap R n
      ((if r*nw*mw≥h then r*nw*mw-h else n-(h-r*nw*mw))+(c*mw+h')) (s*mw) =
        if h=h' ∧ r*nw+c=s then 1 else 0 := by
  have place : (r*nw+c)*mw+h'<n := by
    have first : r*nw+c<kw*nw := by
      have := Nat.mul_le_mul_right nw (succ_le_of_lt hr)
      rw [succ_mul] at this
      omega
    have second := Nat.mul_le_mul_right mw (succ_le_of_lt first)
    rw [succ_mul] at second
    omega
  have fits : mw≤n := by
    rw [hn]
    refine Nat.le_mul_of_pos_left mw (pos_of_ne_zero fun zero => ?_)
    rw [hn,zero,zero_mul] at hs
    exact Nat.not_lt_zero _ hs
  have expand : (r*nw+c)*mw=r*nw*mw+c*mw := add_mul ..
  have meet : (h=h' ∧ r*nw+c=s) ↔ (r*nw+c)*mw+h'=s*mw+h := by
    constructor
    · rintro ⟨rfl,rfl⟩
      rfl
    · intro eq
      obtain ⟨first,second⟩ := (mul_add_inj hh' hh).mp eq
      exact ⟨second.symm,first⟩
  rw [if_congr meet rfl rfl]
  unfold wrap
  by_cases low : r*nw*mw<h
  · -- Only the first row has exponents below zero, which wrap around with a sign.
    have first : r*nw=0 := by
      by_contra positive
      have := Nat.le_mul_of_pos_left mw (pos_of_ne_zero positive)
      omega
    rw [first,zero_mul] at low expand
    rw [first,zero_mul,if_pos low,if_neg (not_le.mpr low),Nat.sub_zero]
    have apart : n-h+(c*mw+h')≠s*mw := by
      intro eq
      have sum : (d+c)*mw+h'=s*mw+h := by
        rw [add_mul]
        omega
      obtain ⟨first,-⟩ := (mul_add_inj hh' hh).mp sum
      have := Nat.mul_le_mul_right mw (show d ≤ s by omega)
      omega
    rw [if_neg apart]
    have same : n-h+(c*mw+h')=s*mw+n ↔ (0+c)*mw+h'=s*mw+h := by
      omega
    rw [if_congr same rfl rfl]
    split
    · ring
    · ring
  · rw [if_neg low,if_pos (not_lt.mp low),one_mul]
    have apart : r*nw*mw-h+(c*mw+h')≠s*mw+n := by omega
    rw [if_neg apart]
    refine if_congr ?_ rfl rfl
    omega

end Pllm.Coefficient
