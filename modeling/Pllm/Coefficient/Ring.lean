import Pllm.Common.Slices
import Pllm.Lib.Residue
import Pllm.Lib.Scatter

/-! The coefficient ring of an odd modulus, and the interleaving of its polynomials. -/
namespace Pllm.Coefficient
open List

def maxDegree : ℕ := 4096
def maxInterleaveInputs : ℕ := 256

inductive LayoutError
  | invalidDegree
  | invalidModulus
  | invalidGeometry
  | overflow
  | resourceLimit
  | bufferLength
  | nonCanonical
  | index
  deriving DecidableEq

abbrev Result := Except LayoutError

def isPowerOfTwo (n : ℕ) : Bool := n==2^n.log2

/-- The least power of two that is no less. -/
def nextPowerOfTwo (n : ℕ) : ℕ := 2^Nat.clog 2 n

/-- One odd limb of a coefficient modulus. -/
structure CoefficientRing where
  degree : ℕ
  modulus : ℕ
  powerOfTwo : isPowerOfTwo degree
  degree_le : degree ≤ maxDegree
  modulus_range : 3 ≤ modulus ∧ modulus<2^61
  odd : modulus%2=1

def CoefficientRing.new (degree modulus : ℕ) : Result CoefficientRing :=
  if h : isPowerOfTwo degree ∧ degree ≤ maxDegree then
    if h' : (3 ≤ modulus ∧ modulus<2^61) ∧ modulus%2=1 then
      .ok ⟨degree,modulus,h.1,h.2,h'.1,h'.2⟩
    else .error .invalidModulus
  else .error .invalidDegree

/-! Words of the ring: additions are made in 64 bits and products in 128. -/

def add (p a b : ℕ) : ℕ := (a+b)%2^64%p
def mul (p a b : ℕ) : ℕ := a*b%2^128%p
def sub (p a b : ℕ) : ℕ := if a≥b then a-b else p-(b-a)
def neg (p v : ℕ) : ℕ := if v=0 then 0 else p-v

def canonical (p : ℕ) (values : List ℕ) : Result Unit :=
  if values.any (p ≤ ·) then .error .nonCanonical else .ok ()

/-- The inverse of two, as often as the divisor has trailing zeros. -/
def inversePowerTwo (p divisor : ℕ) : ℕ := (mul p · ((p+1)/2))^[padicValNat 2 divisor] 1

/-- Adds `input` with its powers of `X` multiplied by `element`. -/
def addAutomorphism (n p : ℕ) (output input : List ℕ) (element : ℕ) : List ℕ :=
  (List.range input.length).foldl (fun output i =>
    let place := i*element%(2*n)
    let v := if place<n then input.getD i 0 else sub p 0 (input.getD i 0)
    output.set (place%n) (add p (output.getD (place%n) 0) v)) output

/-- `while h < stride`, with the number of its turns bounded. -/
def traceLoop (n p stride : ℕ) : ℕ → ℕ → List ℕ → List ℕ
  | 0,_,value => value
  | turns+1,h,value =>
    if h < stride then
      traceLoop n p stride turns (h*2) (addAutomorphism n p value value (n/h+1))
    else value

/-- Coefficient `i` of `X^h` times a polynomial. -/
def shifted (n p h : ℕ) (b : List ℕ) (i : ℕ) : ℕ :=
  if i≥h then b.getD (i-h) 0 else sub p 0 (b.getD (n+i-h) 0)

def mergePair (n p h : ℕ) (a b : List ℕ) : List ℕ :=
  let temp := (List.range n).map fun i => sub p (a.getD i 0) (shifted n p h b i)
  let sum := (List.range n).map fun i => add p (a.getD i 0) (shifted n p h b i)
  addAutomorphism n p sum temp (n/h+1)

/-- The first `h` polynomials take in the next ones. -/
def merge (n p h : ℕ) (values : List (List ℕ)) : List (List ℕ) :=
  List.zipWith (mergePair n p h) (values.take h) (values.drop h)++values.drop h

/-- `while h != 0`, with the number of its turns bounded. -/
def mergeLoop (n p : ℕ) : ℕ → ℕ → List (List ℕ) → List (List ℕ)
  | 0,_,values => values
  | turns+1,h,values => if h=0 then values else mergeLoop n p turns (h/2) (merge n p h values)

/-- The inputs times the inverse of the stride, with zero polynomials behind them. -/
def scaled (n p padded inverse : ℕ) (input : List ℕ) : List (List ℕ) :=
  chunksExact n (input.map (mul p · inverse)++List.replicate (padded*n-input.length) 0)

/-- Both buffers are overwritten, so that only their lengths are looked at. -/
def interleave (n p max : ℕ) (input : List ℕ) (stride count : ℕ) (output scratch : List ℕ) :
    Result (List ℕ) :=
  if ¬isPowerOfTwo n ∨ n>max ∨ n>8192 then .error .invalidDegree
  else if ¬(3≤p ∧ p<2^61) ∨ p%2=0 then .error .invalidModulus
  else if ¬isPowerOfTwo stride ∨ stride>n ∨ count=0 ∨ count>min stride 256 then
    .error .invalidGeometry
  else
    let padded := nextPowerOfTwo count
    if input.length≠count*n ∨ output.length≠n ∨ scratch.length≠(padded+1)*n then
      .error .bufferLength
    else do
      canonical p input
      let values := (scaled n p padded (inversePowerTwo p stride) input).map
        (traceLoop n p stride stride padded)
      pure ((mergeLoop n p padded (padded/2) values).headD [])

namespace CoefficientRing

variable (ring : CoefficientRing)

def interleaveGeometry (stride count : ℕ) : Result ℕ :=
  if ¬isPowerOfTwo stride ∨ stride>ring.degree ∨ count=0
      ∨ count>min stride maxInterleaveInputs then .error .invalidGeometry
  else .ok (nextPowerOfTwo count)

def interleaveScratchWords (stride count : ℕ) : Result ℕ := do
  let padded ← ring.interleaveGeometry stride count
  pure ((padded+1)*ring.degree)

def interleave (input : List ℕ) (stride count : ℕ) (output scratch : List ℕ) :
    Result (List ℕ) :=
  Coefficient.interleave ring.degree ring.modulus maxDegree input stride count output scratch

end CoefficientRing

/-! The interleaving puts the coefficients of its inputs on their lanes. -/
open Pllm.Lib

/-- The coefficients of a polynomial as elements of the ring. -/
def coeff (p : ℕ) (xs : List ℕ) (i : ℕ) : ZMod p := ((xs.getD i 0:ℕ) : ZMod p)

/-- A polynomial of canonical words. -/
def Poly (n p : ℕ) (xs : List ℕ) : Prop := xs.length=n ∧ ∀ x∈xs,x<p

section Words

variable {p : ℕ}

variable {a b n : ℕ} {xs : List ℕ}

lemma add_lt (h : 0<p) (a b : ℕ) : add p a b < p := Nat.mod_lt _ h
lemma mul_lt (h : 0<p) (a b : ℕ) : mul p a b < p := Nat.mod_lt _ h

lemma sub_lt (ha : a<p) (b : ℕ) : sub p a b < p := by
  unfold sub
  split
  · omega
  · omega

lemma cast_add (small : p<2^61) (ha : a<p) (hb : b<p) : ((add p a b:ℕ) : ZMod p)=a+b := by
  rw [add,Nat.mod_eq_of_lt (show a+b < 2^64 by omega),ZMod.natCast_mod,Nat.cast_add]

lemma cast_mul (small : p<2^61) (ha : a<p) (hb : b<p) : ((mul p a b:ℕ) : ZMod p)=a*b := by
  have product : a*b<2^128 := by
    calc a*b≤2^61*2^61 := mul_le_mul' (by omega) (by omega)
      _ < 2^128 := by decide
  rw [mul,Nat.mod_eq_of_lt product,ZMod.natCast_mod,Nat.cast_mul]

lemma cast_sub (hb : b<p) : ((sub p a b:ℕ) : ZMod p)=a-b := by
  unfold sub
  split
  · rename_i h
    rw [Nat.cast_sub h]
  · rw [Nat.cast_sub (by omega),Nat.cast_sub (by omega),ZMod.natCast_self]
    ring

lemma Poly.getD_lt (h : Poly n p xs) (pos : 0<p) (i : ℕ) : xs.getD i 0 < p := by
  rw [getD_eq_getElem?_getD]
  cases eq : xs[i]? with
  | none => exact pos
  | some x => exact h.2 x (mem_of_getElem? eq)

lemma poly_of_getD (length : xs.length=n) (h : ∀ i<n,xs.getD i 0 < p) : Poly n p xs := by
  refine ⟨length,fun x m => ?_⟩
  obtain ⟨i,hi,rfl⟩ := getElem_of_mem m
  have := h i (length ▸ hi)
  rwa [getD_eq_getElem _ _ hi] at this

lemma getD_map_range {i : ℕ} (f : ℕ → ℕ) (h : i<n) : ((range n).map f).getD i 0 = f i := by
  simp [h]

end Words

lemma coprime_turn {k c : ℕ} (h : c<k) : Nat.Coprime (2^k) (2^k/2^c+1) := by
  have even : 2^k/2^c=2*2^(k-c-1) := by
    rw [Nat.pow_div h.le (by decide),← pow_succ']
    congr 1
    omega
  refine Nat.Coprime.pow_left k (Nat.coprime_two_left.mpr ?_)
  rw [even]
  exact odd_two_mul_add_one _

lemma two_dvd_iff {c q : ℕ} : 2 ∣ q ↔ 2^(c+1) ∣ 2^c*q := by
  exact (Nat.mul_dvd_mul_iff_left (Nat.two_pow_pos c)).symm

variable {values : List (List ℕ)}

lemma getD_merge {h j : ℕ} (n p : ℕ) (room : 2*h≤values.length) (hj : j<h) :
    (merge n p h values).getD j [] = mergePair n p h (values.getD j []) (values.getD (j+h) []) := by
  have left : j<values.length := by omega
  have right : h+j<values.length := by omega
  have inside : j < (zipWith (mergePair n p h) (values.take h) (values.drop h)).length := by
    rw [length_zipWith,length_take,length_drop]
    omega
  rw [merge,getD_eq_getElem?_getD,getElem?_append_left inside]
  simp [getElem?_zipWith,hj,left,right,add_comm j h]

lemma length_merge {h : ℕ} (n p : ℕ) (room : 2*h≤values.length) :
    (merge n p h values).length = values.length := by
  rw [merge,length_append,length_zipWith,length_take,length_drop]
  omega

variable {n p : ℕ} (small : p<2^61) (pos : 0<p)
include small pos

lemma addAutomorphism_spec {output input : List ℕ} {e : ℕ} (hout : Poly n p output) (hin :
    Poly n p input) (coprime : Nat.Coprime n e) : Poly n p (addAutomorphism n p output input e) ∧
    Turned n e (coeff p output) (coeff p input) (coeff p (addAutomorphism n p output input e)) := by
  let v (i : ℕ) : ℕ := if i*e%(2*n)<n then input.getD i 0 else sub p 0 (input.getD i 0)
  have vSmall (i : ℕ) : v i < p := by
    unfold v
    split
    · exact hin.getD_lt pos i
    · exact sub_lt pos _
  have places (i : ℕ) : i*e%(2*n)%n=i*e%n := Nat.mod_mod_of_dvd _ ⟨2,mul_comm 2 n⟩
  have update := getD_foldl_update (fun i => i*e%(2*n)%n) (fun i x => add p x (v i)) 0 output
    (nodup_range (n := input.length))
  obtain ⟨length,written,-⟩ := update (fun i hi j hj eq => by
      rw [mem_range,hin.1] at hi hj
      rw [places,places] at eq
      exact turn_injective coprime hi hj eq)
    (fun i hi => by
      rw [mem_range,hin.1] at hi
      rw [hout.1]
      exact Nat.mod_lt _ (Nat.zero_lt_of_lt hi))
  have each (i : ℕ) (hi : i<n) : (addAutomorphism n p output input e).getD (i*e%n) 0 =
      add p (output.getD (i*e%n) 0) (v i) := by
    have := written i (mem_range.mpr (hin.1.symm ▸ hi))
    rw [places] at this
    exact this
  refine ⟨poly_of_getD (length.trans hout.1) fun k hk => ?_,fun i hi => ?_⟩
  · obtain ⟨i,hi,rfl⟩ := turn_surjective coprime hk
    rw [each i hi]
    exact add_lt pos _ _
  · have sign : ((v i:ℕ) : ZMod p)=turnSign (ZMod p) n (i*e)*coeff p input i := by
      unfold v turnSign coeff
      split
      · rw [one_mul]
      · rw [cast_sub (hin.getD_lt pos i)]
        ring
    unfold coeff at sign ⊢
    rw [each i hi,cast_add small (hout.getD_lt pos _) (vSmall i),sign]

section
-- several imports offer an instance for the numeral below: this one fixes its term
local instance atLeastTwo : Nat.AtLeastTwo 2 := ⟨le_rfl⟩

/-- The trace of a polynomial: of the multiples of `2^a` those of `2^c` are multiplied, and the
others vanish. -/
def Traced (n p a c : ℕ) (origin value : List ℕ) : Prop :=
  ∀ i<n,2^a ∣ i → coeff p value i = if 2^c ∣ i then 2^(c-a)*coeff p origin i else 0

end

lemma traceLoop_spec {k s a c turns : ℕ} {origin value : List ℕ} (hs : s≤k) (hac : a ≤ c) (hcs : c ≤
    s) (enough : s-c≤turns) (poly : Poly (2^k) p value) (traced : Traced (2^k) p a c origin value) :
    Poly (2^k) p (traceLoop (2^k) p (2^s) turns (2^c) value) ∧
      Traced (2^k) p a s origin (traceLoop (2^k) p (2^s) turns (2^c) value) := by
  induction turns generalizing c value with
  | zero =>
    obtain rfl : c=s := by omega
    exact ⟨poly,traced⟩
  | succ turns ih =>
    unfold traceLoop
    by_cases more : c < s
    · have hck : c<k := lt_of_lt_of_le more hs
      have split : 2^c*(2^k/2^c)=2^k := Nat.mul_div_cancel' (Nat.pow_dvd_pow 2 hck.le)
      rw [if_pos (Nat.pow_lt_pow_right (by decide) more)]
      obtain ⟨poly',turned⟩ := addAutomorphism_spec small pos poly poly (coprime_turn hck)
      refine ih (by omega) more (by omega) poly' fun i hi ha => ?_
      by_cases whole : 2^c ∣ i
      · obtain ⟨q,rfl⟩ := whole
        have parity : 2 ∣ q ↔ 2^(c+1) ∣ 2^c*q := two_dvd_iff
        rw [turned.doubled split hi]
        by_cases even : 2 ∣ q
        · rw [if_pos even,if_pos (parity.mp even),traced _ hi ha,if_pos (Dvd.intro q rfl),
            ← mul_assoc,← pow_succ',Nat.succ_sub hac]
        · rw [if_neg even,if_neg fun h => even (parity.mpr h)]
      · have other : ¬2^(c+1) ∣ i := fun h => whole ((Nat.pow_dvd_pow 2 (Nat.le_succ c)).trans h)
        have before : ∀ j<2^k,2^a ∣ j → ¬2^c ∣ j → coeff p value j=0 := by
          intro j hj haj hcj
          rw [traced j hj haj,if_neg hcj]
        rw [if_neg other]
        exact turned.zero (coprime_turn hck) (Nat.pow_dvd_pow 2 (by omega))
          (Nat.pow_dvd_pow 2 hck.le) before before hi ha whole
    · obtain rfl : c=s := by omega
      rw [if_neg (lt_irrefl _)]
      exact ⟨poly,traced⟩

lemma mergePair_spec {k c : ℕ} {a b : List ℕ} (h : c<k) (ha : Poly (2^k) p a)
    (hb : Poly (2^k) p b) : Poly (2^k) p (mergePair (2^k) p (2^c) a b) ∧
      ∀ q,2^c*q<2^k → coeff p (mergePair (2^k) p (2^c) a b) (2^c*q) =
        if 2 ∣ q then 2*coeff p a (2^c*q) else 2*coeff p b (2^c*q-2^c) := by
  have split : 2^c*(2^k/2^c)=2^k := Nat.mul_div_cancel' (Nat.pow_dvd_pow 2 h.le)
  have shift (i : ℕ) : shifted (2^k) p (2^c) b i < p := by
    unfold shifted
    split
    · exact hb.getD_lt pos _
    · exact sub_lt pos _
  let s (i : ℕ) : ZMod p := ((shifted (2^k) p (2^c) b i:ℕ) : ZMod p)
  let temp := (range (2^k)).map fun i => sub p (a.getD i 0) (shifted (2^k) p (2^c) b i)
  let sum := (range (2^k)).map fun i => add p (a.getD i 0) (shifted (2^k) p (2^c) b i)
  have tempPoly : Poly (2^k) p temp := poly_of_getD (by simp [temp]) fun i hi => by
    rw [getD_map_range _ hi]
    exact sub_lt (ha.getD_lt pos i) _
  have sumPoly : Poly (2^k) p sum := poly_of_getD (by simp [sum]) fun i hi => by
    rw [getD_map_range _ hi]
    exact add_lt pos _ _
  obtain ⟨poly,turned⟩ := addAutomorphism_spec small pos sumPoly tempPoly (coprime_turn h)
  have turned : Turned (2^k) (2^k/2^c+1) (coeff p a+s) (coeff p a-s)
      (coeff p (mergePair (2^k) p (2^c) a b)) := by
    intro i hi
    refine (turned i hi).trans ?_
    have place : i*(2^k/2^c+1)%2^k<2^k := Nat.mod_lt _ (Nat.two_pow_pos k)
    unfold coeff temp sum
    rw [getD_map_range _ place,getD_map_range _ hi,cast_add small (ha.getD_lt pos _) (shift _),
      cast_sub (shift i)]
    rfl
  refine ⟨poly,fun q hq => ?_⟩
  rw [turned.merged split hq]
  split
  · rfl
  · have one : 1≤q := by omega
    have inside : 2^c≤2^c*q := Nat.le_mul_of_pos_right _ one
    show 2*((shifted (2^k) p (2^c) b (2^c*q):ℕ) : ZMod p)=_
    rw [shifted,if_pos inside]
    rfl

/-- The first `2^c` polynomials hold the lanes of `lanes`, each at the multiples of `2^c`. -/
def Merged (n p c : ℕ) (scale : ZMod p) (lanes : ℕ → ZMod p) (values : List (List ℕ)) : Prop :=
  2^c≤values.length ∧ ∀ j<2^c,Poly n p (values.getD j []) ∧
    ∀ i<n,2^c ∣ i → coeff p (values.getD j []) i = scale*lanes (j+i)

section
variable {k c : ℕ} {scale : ZMod p} {lanes : ℕ → ZMod p} {values : List (List ℕ)}

lemma Merged.merge (merged : Merged (2^k) p (c+1) scale lanes values) (h : c<k) :
    Merged (2^k) p c (2*scale) lanes (merge (2^k) p (2^c) values) := by
  obtain ⟨length,each⟩ := merged
  have room : 2*2^c≤values.length := by
    rw [← pow_succ']
    exact length
  refine ⟨?_,fun j hj => ?_⟩
  · rw [length_merge _ _ room]
    omega
  rw [getD_merge _ _ room hj]
  obtain ⟨ha,left⟩ := each j (by omega)
  obtain ⟨hb,right⟩ := each (j+2^c) (by omega)
  obtain ⟨poly,spec⟩ := mergePair_spec small pos h ha hb
  refine ⟨poly,?_⟩
  rintro i hi ⟨q,rfl⟩
  rw [spec q hi]
  split
  · rename_i even
    rw [left _ hi (two_dvd_iff.mp even),mul_assoc]
  · obtain ⟨m,rfl⟩ : ∃ m,q=m+1 := ⟨q-1,by omega⟩
    have back : 2^c*(m+1)-2^c=2^c*m := by rw [Nat.mul_succ,Nat.add_sub_cancel]
    have even : 2 ∣ m := by omega
    have place : j+2^c+2^c*m=j+2^c*(m+1) := by ring
    rw [back,right _ (lt_of_le_of_lt (Nat.mul_le_mul_left _ (Nat.le_succ m)) hi)
      (two_dvd_iff.mp even),place,mul_assoc]

lemma mergeLoop_spec {turns : ℕ} (merged : Merged (2^k) p c scale lanes values) (h : c≤k) (enough
    : c≤turns) : Merged (2^k) p 0 (2^c*scale) lanes (mergeLoop (2^k) p turns (2^c/2) values) := by
  induction c generalizing turns scale values with
  | zero =>
    have done : mergeLoop (2^k) p turns (2^0/2) values=values := by
      cases turns with
      | zero => rfl
      | succ turns => rfl
    rw [done,pow_zero,one_mul]
    exact merged
  | succ c ih =>
    obtain ⟨turns,rfl⟩ : ∃ t,turns=t+1 := ⟨turns-1,by omega⟩
    have half : 2^(c+1)/2=2^c := by rw [pow_succ,Nat.mul_div_cancel _ (by decide)]
    unfold mergeLoop
    rw [half,if_neg (Nat.two_pow_pos c).ne']
    have next := ih (merged.merge small pos h) (by omega) (show c ≤ turns by omega)
    rwa [← mul_assoc,← pow_succ] at next

end

end Pllm.Coefficient
