import Pllm.Coefficient.Window

/-! The matrix product through packed polynomials. -/
namespace Pllm.Coefficient
open Pllm.Lib CoefficientLayout Finset

variable {xs : List (List ℕ)} {n : ℕ}

lemma getD_flatten (h : ∀ x∈xs,x.length=n) {j i : ℕ}
    (hj : j<xs.length) (hi : i<n) : xs.flatten.getD (j*n+i) 0 = (xs.getD j []).getD i 0 := by
  have part : row n (xs.flatMap id) j=xs[j] := row_flatMap h hj
  have flat : xs.flatten=xs.flatMap id := by simp [List.flatMap]
  rw [List.getD_eq_getElem _ _ hj,← part,← flat,List.getD_eq_getElem?_getD,List.getD_eq_getElem?_getD,
    row,getElem?_slice,if_pos hi]

lemma ring_pos (ring : CoefficientRing) : 0 < ring.modulus :=
  lt_of_lt_of_le (by decide) ring.modulus_range.1

section Windows

variable {l : CoefficientLayout} {a b : List ℕ} (ha : ∀ x∈a,x<l.ring.modulus)

include ha in
lemma leftEntry_lt (rb kb : ℕ) (q : ℕ × ℕ) : l.leftEntry a rb kb q < l.ring.modulus :=
  Poly.getD_lt ⟨rfl,ha⟩ (ring_pos _) _

variable (admitted : Admitted l)
include ha admitted

/-- The product of two windows has the dot product of a row and a column at their multiple of the
inner width. -/
lemma coefficient_window {rb kb cb r c : ℕ} (hr : r < part l.shape.k l.window.k rb)
    (hc : c < part l.shape.n l.window.n cb) : coeff l.ring.modulus
    (negacyclic l.ring.degree l.ring.modulus (l.leftWindow a rb kb) (l.rightWindow b kb cb))
    ((r*l.window.n+c)*l.window.m) = ∑ h ∈ range (part l.shape.m l.window.m kb),
    ((l.leftEntry a rb kb (r,h):ℕ) : ZMod l.ring.modulus) * (l.rightEntry b kb cb (h,c):ℕ) := by
  let p := l.ring.modulus
  let n := l.ring.degree
  let left := List.range (part l.shape.k l.window.k rb) ×ˢ
    List.range (part l.shape.m l.window.m kb)
  let right := List.range (part l.shape.m l.window.m kb) ×ˢ
    List.range (part l.shape.n l.window.n cb)
  have inLeft {q : ℕ × ℕ} (m : q∈left) : q.1<l.window.k ∧ q.2<l.window.m := by
    obtain ⟨first,second⟩ := List.mem_product.mp m
    exact ⟨(List.mem_range.mp first).trans_le (min_le_left _ _),
      (List.mem_range.mp second).trans_le (min_le_left _ _)⟩
  have inRight {q : ℕ × ℕ} (m : q∈right) : q.1<l.window.m ∧ q.2<l.window.n := by
    obtain ⟨first,second⟩ := List.mem_product.mp m
    exact ⟨(List.mem_range.mp first).trans_le (min_le_left _ _),
      (List.mem_range.mp second).trans_le (min_le_left _ _)⟩
  have hr' : r<l.window.k := hr.trans_le (min_le_left _ _)
  have hc' : c<l.window.n := hc.trans_le (min_le_left _ _)
  have volume := admitted.volume_eq
  have place {r c : ℕ} (hr : r<l.window.k) (hc : c<l.window.n) :
      (r*l.window.n+c)*l.window.m+l.window.m≤n := by
    have first := Nat.mul_le_mul_right l.window.n (Nat.succ_le_of_lt hr)
    rw [Nat.succ_mul] at first
    have second := Nat.mul_le_mul_right l.window.m
      (show r*l.window.n+c+1 ≤ l.window.k*l.window.n by omega)
    rw [Nat.succ_mul] at second
    exact second.trans volume
  have target : (r*l.window.n+c)*l.window.m<n := by
    have := place hr' hc'
    have := admitted.window.2.1
    omega
  -- The products of the entries, by what was written to the two polynomials.
  have rightSum (x : ℕ) : ∑ j ∈ range n,coeff p (l.rightWindow b kb cb) j *
      wrap (ZMod p) n (x+j) ((r*l.window.n+c)*l.window.m) =
      ∑ q ∈ right.toFinset,((l.rightEntry b kb cb q:ℕ) : ZMod p) *
        wrap (ZMod p) n (x+(q.2*l.window.m+q.1)) ((r*l.window.n+c)*l.window.m) := by
    refine sum_scatter (fun q m q' m' eq => ?_) (fun q m => ?_) fun j =>
      wrap (ZMod p) n (x+j) ((r*l.window.n+c)*l.window.m)
    · obtain ⟨first,second⟩ := (mul_add_inj (inRight m').1 (inRight m).1).mp eq
      exact Prod.ext second first
    · have := place admitted.window.1 (inRight m).2
      have := (inRight m).1
      rw [zero_mul,zero_add] at *
      omega
  rw [(negacyclic_spec (ring_pos _) n _ _).2 _ target]
  have leftSum : ∑ i ∈ range n,coeff p (l.leftWindow a rb kb) i *
      ∑ j ∈ range n,coeff p (l.rightWindow b kb cb) j *
        wrap (ZMod p) n (i+j) ((r*l.window.n+c)*l.window.m) =
      ∑ q ∈ left.toFinset,((if q.1*l.window.n*l.window.m < q.2
          then neg p (l.leftEntry a rb kb q)
          else l.leftEntry a rb kb q : ℕ) : ZMod p) *
        ∑ j ∈ range n,coeff p (l.rightWindow b kb cb) j *
          wrap (ZMod p) n (l.leftPlace q+j) ((r*l.window.n+c)*l.window.m) := by
    refine sum_scatter (fun q m q' m' eq => ?_) (fun q m => ?_) fun i =>
      ∑ j ∈ range n,coeff p (l.rightWindow b kb cb) j *
        wrap (ZMod p) n (i+j) ((r*l.window.n+c)*l.window.m)
    · exact admitted.leftPlace_injective (inLeft m).1 (inLeft m).2 (inLeft m').1 (inLeft m').2 eq
    · exact admitted.leftPlace_lt (inLeft m).1
  rw [leftSum,toFinset_product,sum_product]
  have each (r' h : ℕ) (hr : r' < part l.shape.k l.window.k rb)
      (hh : h < part l.shape.m l.window.m kb) :
      ((if r'*l.window.n*l.window.m < h
          then neg p (l.leftEntry a rb kb (r',h))
          else l.leftEntry a rb kb (r',h) : ℕ) : ZMod p) *
        ∑ j ∈ range n,coeff p (l.rightWindow b kb cb) j *
          wrap (ZMod p) n (l.leftPlace (r',h)+j) ((r*l.window.n+c)*l.window.m) =
      if r'=r then ((l.leftEntry a rb kb (r',h):ℕ) : ZMod p) *
        (l.rightEntry b kb cb (h,c):ℕ) else 0 := by
    have hr := hr.trans_le (min_le_left _ _)
    have hh' := hh.trans_le (min_le_left _ _)
    have sign : ((if r'*l.window.n*l.window.m < h
        then neg p (l.leftEntry a rb kb (r',h))
        else l.leftEntry a rb kb (r',h) : ℕ) : ZMod p) =
        (l.leftEntry a rb kb (r',h):ℕ) *
          if r'*l.window.n*l.window.m<h then -1 else 1 := by
      split
      · rw [cast_neg (leftEntry_lt ha _ _ _),mul_neg_one]
      · rw [mul_one]
    rw [sign,rightSum,toFinset_product,sum_product,mul_sum]
    have term (h' : ℕ) (m : h' ∈ range (part l.shape.m l.window.m kb))
        (c' : ℕ) (m' : c' ∈ range (part l.shape.n l.window.n cb)) :
        ((l.leftEntry a rb kb (r',h):ℕ) : ZMod p) *
          (if r'*l.window.n*l.window.m < h then -1 else 1) *
          ((l.rightEntry b kb cb (h',c'):ℕ) *
            wrap (ZMod p) n (l.leftPlace (r',h)+(c'*l.window.m+h')) ((r*l.window.n+c)*l.window.m)) =
        if h'=h then if c'=c then if r'=r then
          ((l.leftEntry a rb kb (r',h):ℕ) : ZMod p) *
            (l.rightEntry b kb cb (h',c'):ℕ) else 0 else 0 else 0 := by
      have hh'' := (mem_range.mp m).trans_le (min_le_left _ _)
      have hc'' := (mem_range.mp m').trans_le (min_le_left _ _)
      have meets := admitted.meets (ZMod p) hr hh' hh'' hc'' target
      have both : (h=h' ∧ r'*l.window.n+c'=r*l.window.n+c) ↔ h'=h ∧ c'=c ∧ r'=r := by
        constructor
        · rintro ⟨rfl,eq⟩
          obtain ⟨first,second⟩ := (mul_add_inj hc'' hc').mp eq
          exact ⟨rfl,second,first⟩
        · rintro ⟨rfl,rfl,rfl⟩
          exact ⟨rfl,rfl⟩
      rw [if_congr both rfl rfl] at meets
      rw [mul_mul_mul_comm,meets,ite_and,ite_and]
      split_ifs
      · rw [mul_one]
      · rw [mul_zero]
      · rw [mul_zero]
      · rw [mul_zero]
    have inner (h' : ℕ) (m : h' ∈ range (part l.shape.m l.window.m kb)) :
        ((l.leftEntry a rb kb (r',h):ℕ) : ZMod p) *
          (if r'*l.window.n*l.window.m < h then -1 else 1) *
          ∑ c' ∈ range (part l.shape.n l.window.n cb),
            ((l.rightEntry b kb cb (h',c'):ℕ) : ZMod p) *
              wrap (ZMod p) n (l.leftPlace (r',h)+(c'*l.window.m+h'))
                ((r*l.window.n+c)*l.window.m) =
        if h'=h then if r'=r then ((l.leftEntry a rb kb (r',h):ℕ) : ZMod p) *
          (l.rightEntry b kb cb (h',c):ℕ) else 0 else 0 := by
      rw [mul_sum,sum_congr rfl (term h' m)]
      split
      · rw [sum_ite_eq',if_pos (mem_range.mpr hc)]
      · exact sum_const_zero
    rw [sum_congr rfl inner,sum_ite_eq',if_pos (mem_range.mpr hh)]
  rw [sum_congr rfl fun r' m => sum_congr rfl fun h m' =>
    each r' h (mem_range.mp m) (mem_range.mp m')]
  rw [sum_comm]
  refine sum_congr rfl fun h _ => ?_
  rw [sum_ite_eq',if_pos (mem_range.mpr hr)]

end Windows

end Pllm.Coefficient
