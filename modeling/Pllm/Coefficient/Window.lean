import Pllm.Coefficient.Layout

/-! One window of each matrix, and the product of their polynomials. -/
namespace Pllm.Coefficient
open Pllm.Lib CoefficientLayout Finset Coordinates

lemma toFinset_product (a b : ℕ) :
    (List.range a ×ˢ List.range b).toFinset = range a ×ˢ range b := by
  ext ⟨i,j⟩
  rw [List.mem_toFinset,mem_product,mem_range,mem_range]
  simp only [List.mem_product,List.mem_range]

variable {p : ℕ}

lemma cast_neg {v : ℕ} (h : v<p) : ((neg p v:ℕ) : ZMod p) = -v := by
  unfold neg
  split
  · rename_i zero
    rw [zero,Nat.cast_zero,neg_zero]
  · rw [Nat.cast_sub h.le,ZMod.natCast_self,zero_sub]

lemma cast_toNat_emod (pos : 0<p) (x : ℤ) : (((x % p).toNat:ℕ) : ZMod p)=x := by
  have nonneg := Int.emod_nonneg x (b := p) (by omega)
  have eq : (((x % p).toNat:ℕ) : ℤ)=x % p := Int.toNat_of_nonneg nonneg
  rw [← Int.cast_natCast,eq,ZMod.intCast_mod]

lemma toNat_emod_lt (pos : 0<p) (x : ℤ) : (x % p).toNat < p := by
  have := Int.emod_lt_of_pos x (b := p) (by omega)
  omega

lemma negacyclic_spec (pos : 0<p) (n : ℕ) (a b : List ℕ) : Poly n p (negacyclic n p a b) ∧
      ∀ k<n,coeff p (negacyclic n p a b) k =
        ∑ i ∈ range n,coeff p a i*∑ j ∈ range n, coeff p b j*wrap (ZMod p) n (i+j) k := by
  refine ⟨poly_of_getD (by simp [negacyclic]) fun k hk => ?_,fun k hk => ?_⟩
  · unfold negacyclic
    rw [getD_map_range _ hk]
    exact toNat_emod_lt pos _
  · unfold negacyclic
    rw [coeff,getD_map_range _ hk,cast_toNat_emod pos,Int.cast_sum]
    refine sum_congr rfl fun i _ => ?_
    rw [Int.cast_sum,mul_sum]
    refine sum_congr rfl fun j _ => ?_
    unfold wrap coeff
    push_cast
    ring

namespace CoefficientLayout

variable (l : CoefficientLayout)

/-- The part of a block of `width` that lies within a dimension. -/
def part (dim width block : ℕ) : ℕ := min width (dim-block*width)

def leftEntry (a : List ℕ) (rb kb : ℕ) (q : ℕ × ℕ) : ℕ :=
  a.getD ((rb*l.window.k+q.1)*l.shape.m+kb*l.window.m+q.2) 0

def rightEntry (b : List ℕ) (kb cb : ℕ) (q : ℕ × ℕ) : ℕ :=
  b.getD ((kb*l.window.m+q.1)*l.shape.n+cb*l.window.n+q.2) 0

/-- The place and the sign of an entry of the left window. -/
def leftPlace (q : ℕ × ℕ) : ℕ :=
  if q.1*l.window.n*l.window.m≥q.2 then q.1*l.window.n*l.window.m-q.2
  else l.ring.degree-(q.2-q.1*l.window.n*l.window.m)

def leftWindow (a : List ℕ) (rb kb : ℕ) : List ℕ :=
  scatter l.leftPlace (fun q => if q.1*l.window.n*l.window.m<q.2
      then neg l.ring.modulus (l.leftEntry a rb kb q)
      else l.leftEntry a rb kb q)
    (List.range (part l.shape.k l.window.k rb) ×ˢ
      List.range (part l.shape.m l.window.m kb)) (List.replicate l.ring.degree 0)

def rightWindow (b : List ℕ) (kb cb : ℕ) : List ℕ :=
  scatter (fun q => q.2*l.window.m+q.1) (l.rightEntry b kb cb)
    (List.range (part l.shape.m l.window.m kb) ×ˢ
      List.range (part l.shape.n l.window.n cb)) (List.replicate l.ring.degree 0)

end CoefficientLayout

namespace Admitted

variable {l : CoefficientLayout} (adm : Admitted l)
include adm

lemma packLhs_ok {a output : List ℕ} (ha : a.length=l.shape.k*l.shape.m) (canon :
    ∀ x∈a,x<l.ring.modulus) (hout : output.length=l.ring.degree) {rb kb : ℕ} (hrow : rb<l.blocks.k)
    (hinn : kb<l.blocks.m) : l.packLhs a rb kb output = .ok (l.leftWindow a rb kb) := by
  unfold packLhs
  rw [if_neg (by simp [ha,hout]),if_neg (by omega),canonical_ok canon,ok_bind,
    adm.coordinates_ok,ok_bind]
  unfold lhs
  rw [if_neg (by dsimp only; omega),ok_bind,packed,List.foldl_map]
  simp only [lhsAt,decide_eq_true_eq]
  rfl

lemma packRhs_ok {b output : List ℕ} (hb : b.length=l.shape.m*l.shape.n) (canon :
    ∀ x∈b,x<l.ring.modulus) (hout : output.length=l.ring.degree) {kb cb : ℕ} (hinn : kb<l.blocks.m)
    (hcol : cb<l.blocks.n) : l.packRhs b kb cb output = .ok (l.rightWindow b kb cb) := by
  unfold packRhs
  rw [if_neg (by simp [hb,hout]),if_neg (by omega),canonical_ok canon,ok_bind,
    adm.coordinates_ok,ok_bind]
  unfold rhs
  rw [if_neg (by dsimp only; omega),ok_bind,packed,List.foldl_map]
  rfl

lemma degree_eq : ∃ k s,l.ring.degree=2^k ∧ l.window.m=2^s ∧ s≤k ∧
    l.ring.degree=2^(k-s)*l.window.m := by
  obtain ⟨k,hk⟩ := isPowerOfTwo_iff.mp l.ring.powerOfTwo
  obtain ⟨s,hs⟩ := isPowerOfTwo_iff.mp adm.powerOfTwo
  have le : 2^s≤2^k := by
    rw [← hk,← hs]
    calc l.window.m≤l.window.k*l.window.m := Nat.le_mul_of_pos_left _ adm.window.1
      _ ≤ l.window.k*l.window.m*l.window.n := Nat.le_mul_of_pos_right _ adm.window.2.2
      _ ≤ l.ring.degree := adm.volume
  have order : s≤k := (Nat.pow_le_pow_iff_right (by decide)).mp le
  refine ⟨k,s,hk,hs,order,?_⟩
  rw [hk,hs,← pow_add,Nat.sub_add_cancel order]

lemma volume_eq : l.window.k*l.window.n*l.window.m ≤ l.ring.degree := by
  calc l.window.k*l.window.n*l.window.m = l.window.k*l.window.m*l.window.n := by ring
    _ ≤ l.ring.degree := adm.volume

/-- The product of the powers of an entry of each window at a multiple of the inner width. -/
lemma meets (R : Type*) [CommRing R] {r h h' c s : ℕ} (hr : r<l.window.k) (hh : h<l.window.m)
    (hh' : h'<l.window.m) (hc : c<l.window.n) (hs : s*l.window.m<l.ring.degree) :
    (if r*l.window.n*l.window.m < h then -1 else 1)*wrap R l.ring.degree
      (l.leftPlace (r,h)+(c*l.window.m+h')) (s*l.window.m) =
        if h=h' ∧ r*l.window.n+c=s then 1 else 0 := by
  obtain ⟨k,s',-,-,-,degree⟩ := adm.degree_eq
  exact exponents R degree adm.volume_eq hr hh hh' hc hs

lemma leftPlace_lt {q : ℕ × ℕ} (hr : q.1<l.window.k) : l.leftPlace q < l.ring.degree := by
  have volume := adm.volume_eq
  have base : q.1*l.window.n*l.window.m < l.window.k*l.window.n*l.window.m :=
    mul_lt_mul_of_pos_right (mul_lt_mul_of_pos_right hr adm.window.2.2)
      adm.window.2.1
  unfold leftPlace
  split
  · omega
  · omega

/-- Entries of a left window have places of their own: times a right entry, only the one meets its
multiple of the inner width. -/
lemma leftPlace_injective {q q' : ℕ × ℕ} (hr : q.1<l.window.k) (hh : q.2<l.window.m) (hr' :
    q'.1<l.window.k) (hh' : q'.2<l.window.m) (eq : l.leftPlace q' = l.leftPlace q) : q'=q := by
  obtain ⟨r,h⟩ := q
  obtain ⟨r',h'⟩ := q'
  have volume := adm.volume_eq
  have target : r*l.window.n*l.window.m<l.ring.degree := by
    have := mul_lt_mul_of_pos_right (mul_lt_mul_of_pos_right hr adm.window.2.2)
      adm.window.2.1
    dsimp only at this
    omega
  have first := (adm.meets ℤ hr hh hh adm.window.2.2 target).trans
    (if_pos ⟨rfl,add_zero _⟩)
  have second := adm.meets ℤ hr' hh' hh adm.window.2.2 target
  rw [eq] at second
  have nonzero : wrap ℤ l.ring.degree (l.leftPlace (r,h)+(0*l.window.m+h))
      (r*l.window.n*l.window.m)≠0 := by
    intro zero
    rw [zero,mul_zero] at first
    exact zero_ne_one first
  have sign : (if r'*l.window.n*l.window.m < h' then (-1:ℤ) else 1)≠0 := by
    split
    · decide
    · decide
  have same : h'=h ∧ r'*l.window.n+0=r*l.window.n := by
    by_contra other
    rw [if_neg other] at second
    exact (mul_ne_zero sign nonzero) second
  obtain ⟨rfl,rows⟩ := same
  have rows := Nat.eq_of_mul_eq_mul_right adm.window.2.2 ((add_zero _).symm.trans rows)
  rw [rows]

end Admitted

end Pllm.Coefficient
