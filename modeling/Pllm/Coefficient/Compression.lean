import Pllm.Coefficient.Window

/-! Scalars as the coefficients of one polynomial, and back as constant polynomials. -/
namespace Pllm.Coefficient
open Pllm.Lib List

def maxCompressionWork : ℕ := 2^28

namespace CoefficientRing

variable (ring : CoefficientRing)

def inversePowerTwo (divisor : ℕ) : Result ℕ :=
  if ¬isPowerOfTwo divisor ∨ divisor>ring.degree then .error .invalidGeometry
  else .ok (Coefficient.inversePowerTwo ring.modulus divisor)

/-- The product with `X^exponent`. -/
def monomial (input : List ℕ) (exponent : ℤ) (output : List ℕ) : Result (List ℕ) :=
  if input.length≠ring.degree ∨ output.length≠ring.degree then .error .bufferLength
  else do
    canonical ring.modulus input
    let shift := (exponent%((2*ring.degree:ℕ) : ℤ)).toNat
    pure (scatter (fun i => (i+shift)%ring.degree) (fun i =>
      if (i+shift)/ring.degree%2=0 then input.getD i 0 else neg ring.modulus (input.getD i 0))
      (List.range input.length) output)

end CoefficientRing

/-- The automorphism of an odd power of `X`, added to its input. -/
def traceChild (input : List ℕ) (element q : ℕ) : List ℕ :=
  (List.range input.length).foldl (fun output i =>
    let v := input.getD i 0
    let at_ := i*element%(2*input.length)
    let signed := if at_≥input.length ∧ v≠0 then q-v else v
    output.set (at_%input.length) (add q (output.getD (at_%input.length) 0) signed)) input

structure CoefficientCompression where
  ring : CoefficientRing
  outputWords : ℕ
  work : ℕ

namespace CoefficientCompression

def new (ring : CoefficientRing) (maxWork : ℕ) : Result CoefficientCompression := do
  let n := ring.degree
  let outputWords ← product n n
  let work ← sum (← product outputWords 10) (← product n 4)
  if work>min maxWork maxCompressionWork then .error .resourceLimit
  else pure ⟨ring,outputWords,work⟩

variable (c : CoefficientCompression)

def scratchWords : ℕ := 2*c.ring.degree

def compress (scalars output : List ℕ) : Result (List ℕ) :=
  if scalars=[] ∨ scalars.length>c.ring.degree then .error .invalidGeometry
  else if output.length≠c.ring.degree then .error .bufferLength
  else do
    canonical c.ring.modulus scalars
    pure (scalars++List.replicate (output.length-scalars.length) 0)

/-- The children of polynomial `s`. The product with the monomial is expected to be made. -/
def split (h : ℕ) (shifted : List ℕ) (output : List (List ℕ)) (s : ℕ) :
    Result (List (List ℕ)) := do
  let element := c.ring.degree/h+1
  let parent := output.getD s []
  let shifted ← c.ring.monomial parent (-h) shifted
  pure ((output.set s (traceChild parent element c.ring.modulus)).set (s+h)
    (traceChild shifted element c.ring.modulus))

/-- `while h < n`, with the number of its turns bounded. -/
def splitLoop (shifted : List ℕ) : ℕ → ℕ → List (List ℕ) → Result (List (List ℕ))
  | 0,_,output => pure output
  | turns+1,h,output =>
    if h < c.ring.degree then do
      splitLoop shifted turns (h*2) (← (List.range h).foldlM (c.split h shifted) output)
    else pure output

/-- The output has its polynomials one after the other. -/
def decompress (input output scratch : List ℕ) : Result (List ℕ) :=
  let n := c.ring.degree
  if input.length≠n ∨ output.length≠c.outputWords ∨ scratch.length≠c.scratchWords then
    .error .bufferLength
  else do
    canonical c.ring.modulus input
    let inverse ← c.ring.inversePowerTwo n
    let start := input :: List.replicate (n-1) (List.replicate n 0)
    let output ← c.splitLoop (scratch.drop n) n 1 start
    pure (output.flatten.map (mul c.ring.modulus · inverse))

end CoefficientCompression

section Child
variable {n p : ℕ} {input : List ℕ}

lemma traceChild_eq (hin : Poly n p input) (pos : 0<p) (e : ℕ) :
    traceChild input e p = addAutomorphism n p input input e := by
  obtain ⟨rfl,-⟩ := id hin
  refine foldl_ext _ _ _ fun output i _ => ?_
  have signed : (if i*e%(2*input.length)≥input.length ∧ input.getD i 0 ≠ 0
      then p-input.getD i 0 else input.getD i 0) =
      if i*e%(2*input.length) < input.length then input.getD i 0
        else sub p 0 (input.getD i 0) := by
    unfold sub
    split_ifs <;> omega
  dsimp only
  rw [signed]

end Child

lemma monomial_ok (ring : CoefficientRing) {input buffer : List ℕ} {h : ℕ} (hin : Poly ring.degree
    ring.modulus input) (hbuf : buffer.length=ring.degree) (hpos : 0<h) (hh : h < ring.degree) :
    ∃ out,ring.monomial input (-h) buffer = .ok out ∧ Poly ring.degree ring.modulus out ∧
      ∀ i < ring.degree,coeff ring.modulus out i = if i+h < ring.degree
        then coeff ring.modulus input (i+h) else -coeff ring.modulus input (i+h-ring.degree) := by
  have pos : 0 < ring.modulus := by have := ring.modulus_range; omega
  let n := ring.degree
  let p := ring.modulus
  have shift : ((-h:ℤ)%((2*n:ℕ) : ℤ)).toNat=2*n-h := by
    rw [← Int.add_emod_right,Int.emod_eq_of_lt (by omega) (by omega)]
    omega
  let value (j : ℕ) : ℕ :=
    if (j+(2*n-h))/n%2=0 then input.getD j 0 else neg p (input.getD j 0)
  let out := scatter (fun j => (j+(2*n-h))%n) value (range n) buffer
  have written (i : ℕ) (hi : i<n) : out.getD i 0 =
      if i+h<n then input.getD (i+h) 0 else neg p (input.getD (i+h-n) 0) := by
    have source (j q : ℕ) (hj : j<n) (place : j+(2*n-h)=i+n*q) : out.getD i 0 =
        if q%2=0 then input.getD j 0 else neg p (input.getD j 0) := by
      have low : (j+(2*n-h))%n=i := by rw [place,Nat.add_mul_mod_self_left,Nat.mod_eq_of_lt hi]
      have high : (j+(2*n-h))/n=q := by
        rw [place,Nat.add_mul_div_left _ _ (by omega),Nat.div_eq_of_lt hi,zero_add]
      have get : out.getD ((j+(2*n-h))%n) 0=value j := getD_scatter 0 (mem_range.mpr hj)
        (fun y m eq => Nat.ModEq.eq_of_lt_of_lt (Nat.ModEq.add_right_cancel' _ eq)
          (mem_range.mp m) hj) (hbuf.symm ▸ Nat.mod_lt _ (by omega))
      rw [← low,get]
      simp only [value,high]
    split
    · exact source (i+h) 2 ‹_› (by omega)
    · exact source (i+h-n) 1 (by omega) (by omega)
  have neg_lt (v : ℕ) : neg p v < p := by
    unfold neg
    split <;> omega
  refine ⟨out,?_,poly_of_getD ((length_scatter _ _).trans hbuf) fun i hi => ?_,fun i hi => ?_⟩
  · unfold CoefficientRing.monomial
    rw [if_neg (by simp [hin.1,hbuf]),canonical_ok hin.2,shift,hin.1]
    rfl
  · rw [written i hi]
    split
    · exact hin.getD_lt pos _
    · exact neg_lt _
  · unfold coeff
    rw [written i hi]
    split
    · rfl
    · exact cast_neg (hin.getD_lt pos _)

/-- The even multiples of `2^c` double, and everything else vanishes. -/
lemma child_spec {p k c : ℕ} (small : p<2^61) (pos : 0<p) (hc : c<k) {input : List ℕ} {f : ℕ →
    ZMod p} (hin : Poly (2^k) p input) (zero : ∀ i<2^k,¬2^c ∣ i → coeff p input i = 0) (even : ∀
    i<2^k,2^(c+1) ∣ i → coeff p input i = 2^c*f i) :
    Poly (2^k) p (traceChild input (2^k/2^c+1) p) ∧ ∀ i<2^k,
      coeff p (traceChild input (2^k/2^c+1) p) i = if 2^(c+1) ∣ i then 2^(c+1)*f i else 0 := by
  obtain ⟨poly,turned⟩ := addAutomorphism_spec small pos hin hin (coprime_turn hc)
  rw [traceChild_eq hin pos]
  refine ⟨poly,fun i hi => ?_⟩
  by_cases whole : 2^c ∣ i
  · obtain ⟨q,rfl⟩ := whole
    rw [turned.doubled (Nat.mul_div_cancel' (Nat.pow_dvd_pow 2 hc.le)) hi]
    refine if_ctx_congr two_dvd_iff (fun whole => ?_) fun _ => rfl
    rw [even _ hi whole,← mul_assoc,← pow_succ']
  · rw [if_neg fun h => whole ((Nat.pow_dvd_pow 2 (Nat.le_succ c)).trans h)]
    have outside (j : ℕ) (hj : j<2^k) (_ : 1 ∣ j) (other : ¬2^c ∣ j) := zero j hj other
    exact turned.zero (coprime_turn hc) (one_dvd _) (Nat.pow_dvd_pow 2 hc.le) outside outside hi
      (one_dvd i) whole

section
-- several imports offer an instance for the numeral below: this one fixes its term
local instance leafTwo : Nat.AtLeastTwo 2 := ⟨le_rfl⟩

/-- Polynomial `s` has the coefficients that leave `s` modulo `2^c`, at multiples of `2^c`. -/
def Leaf (k p c : ℕ) (origin : ℕ → ZMod p) (s : ℕ) (value : List ℕ) : Prop :=
  Poly (2^k) p value ∧
    ∀ i<2^k,coeff p value i = if 2^c ∣ i then 2^c*origin (s+i) else 0

end

namespace CoefficientCompression
variable {c : CoefficientCompression} {k e : ℕ} {origin : ℕ → ZMod c.ring.modulus}

section
variable (hn : c.ring.degree=2^k) (he : e<k)
include hn he

variable {s : ℕ} {buffer : List ℕ} {output : List (List ℕ)}

lemma split_ok (hbuf : buffer.length=c.ring.degree) (leaf : Leaf k c.ring.modulus e origin s
    (output.getD s [])) : ∃ a b,c.split (2^e) buffer output s = .ok ((output.set s a).set (s+2^e) b)
    ∧ Leaf k c.ring.modulus (e+1) origin s a ∧ Leaf k c.ring.modulus (e+1) origin (s+2^e) b := by
  have small := c.ring.modulus_range
  have less : 2^e<2^k := Nat.pow_lt_pow_right (by decide) he
  have half : 2^e ∣ 2^k := Nat.pow_dvd_pow 2 he.le
  obtain ⟨poly,value⟩ := leaf
  obtain ⟨shifted,eval,polyS,valueS⟩ := monomial_ok c.ring (hn.symm ▸ poly) hbuf
    (Nat.two_pow_pos e) (hn.symm ▸ less)
  rw [hn] at polyS valueS
  have low (i : ℕ) (h : 2^(e+1) ∣ i) : 2^e ∣ i := (Nat.pow_dvd_pow 2 (Nat.le_succ e)).trans h
  have wrapped (i : ℕ) (hi : 2^k ≤ i+2^e) : 2^e ∣ i+2^e-2^k ↔ 2^e ∣ i := by
    rw [Nat.dvd_sub_iff_left hi half,Nat.dvd_add_self_right]
  refine ⟨_,_,?_,child_spec small.2 (by omega) he (f := fun i => origin (s+i)) poly
    (fun i hi other => ?_) fun i hi whole => ?_,child_spec small.2 (by omega) he
      (f := fun i => origin (s+2^e+i)) polyS (fun i hi other => ?_) fun i hi whole => ?_⟩
  · unfold split
    rw [Nat.cast_pow,Nat.cast_ofNat] at eval
    dsimp only
    rw [Nat.cast_pow,Nat.cast_ofNat,eval,hn]
    rfl
  · rw [value i hi,if_neg other]
  · rw [value i hi,if_pos (low i whole)]
  · rw [valueS i hi]
    split
    · rw [value _ ‹_›,if_neg (by rwa [Nat.dvd_add_self_right])]
    · rw [value _ (by omega),if_neg (by rwa [wrapped i (by omega)]),neg_zero]
  · have inside : i+2^e<2^k := by
      obtain ⟨m,rfl⟩ := whole
      obtain ⟨d,hd⟩ := Nat.pow_dvd_pow 2 (show e+1 ≤ k from he)
      rw [hd] at hi ⊢
      have step := Nat.mul_le_mul_left (2^(e+1)) (Nat.lt_of_mul_lt_mul_left hi)
      rw [Nat.mul_succ] at step
      omega
    rw [valueS i hi,if_pos inside,value _ inside,
      if_pos (Nat.dvd_add_self_right.mpr (low i whole)),add_comm i,← add_assoc]

/-- The first `2^e` polynomials become twice as many. -/
lemma splits_ok (hbuf : buffer.length=c.ring.degree) (room : output.length=2^k) (leaves : ∀
    s<2^e,Leaf k c.ring.modulus e origin s (output.getD s [])) :
    ∃ out,(range (2^e)).foldlM (c.split (2^e) buffer) output = .ok out ∧ out.length=2^k ∧
      ∀ s<2^(e+1),Leaf k c.ring.modulus (e+1) origin s (out.getD s []) := by
  have less : 2^(e+1)≤2^k := Nat.pow_le_pow_right (by decide) he
  have first (m : ℕ) (hm : m≤2^e) :
      ∃ out,(range m).foldlM (c.split (2^e) buffer) output = .ok out ∧ out.length=2^k ∧
        (∀ s < m,Leaf k c.ring.modulus (e+1) origin s (out.getD s []) ∧
          Leaf k c.ring.modulus (e+1) origin (s+2^e) (out.getD (s+2^e) [])) ∧
        ∀ s,m ≤ s → s<2^e → out.getD s [] = output.getD s [] := by
    induction m with
    | zero => exact ⟨output,rfl,room,nofun,fun _ _ _ => rfl⟩
    | succ m ih =>
      obtain ⟨out,eval,length,done,rest⟩ := ih (by omega)
      obtain ⟨a,b,step,leafA,leafB⟩ := split_ok hn he hbuf ((rest m le_rfl hm).symm ▸ leaves m hm)
      have get (s : ℕ) : ((out.set m a).set (m+2^e) b).getD s [] =
          if m+2^e=s then b else if m=s then a else out.getD s [] := by
        have here : m+2^e < (out.set m a).length := by
          rw [length_set]
          omega
        rw [getD_set _ _ here,getD_set _ _ (by omega)]
      refine ⟨(out.set m a).set (m+2^e) b,?_,?_,fun s hs => ?_,fun s hs hs' => ?_⟩
      · rw [range_succ,foldlM_append,eval,ok_bind,foldlM_cons,step]
        rfl
      · rw [length_set,length_set,length]
      · rw [get,get,if_neg (by omega)]
        rcases Nat.lt_succ_iff_lt_or_eq.mp hs with before | rfl
        · rw [if_neg (by omega),if_neg (by omega),if_neg (by omega)]
          exact done s before
        · rw [if_pos rfl,if_pos rfl]
          exact ⟨leafA,leafB⟩
      · rw [get,if_neg (by omega),if_neg (by omega),rest s (by omega) hs']
  obtain ⟨out,eval,length,done,-⟩ := first (2^e) le_rfl
  refine ⟨out,eval,length,fun s hs => ?_⟩
  rcases lt_or_ge s (2^e) with low | high
  · exact (done s low).1
  · have := (done (s-2^e) (by omega)).2
    rwa [Nat.sub_add_cancel high] at this

end

/-- After the last stage every polynomial is the multiple of a constant. -/
lemma splitLoop_ok (hn : c.ring.degree=2^k) {turns : ℕ} {buffer : List ℕ} {output : List (List ℕ)}
    (he : e≤k) (enough : k-e≤turns) (hbuf : buffer.length=c.ring.degree) (room : output.length=2^k)
    (leaves : ∀ s<2^e,Leaf k c.ring.modulus e origin s (output.getD s [])) :
    ∃ out,c.splitLoop buffer turns (2^e) output = .ok out ∧ out.length=2^k ∧
      ∀ s<2^k,Leaf k c.ring.modulus k origin s (out.getD s []) := by
  induction turns generalizing e output with
  | zero =>
    obtain rfl : e=k := by omega
    exact ⟨output,rfl,room,leaves⟩
  | succ turns ih =>
    unfold splitLoop
    by_cases more : e<k
    · obtain ⟨out,eval,length,next⟩ := splits_ok hn more hbuf room leaves
      rw [if_pos (hn ▸ Nat.pow_lt_pow_right (by decide) more),eval,← pow_succ]
      exact ih more (by omega) length next
    · obtain rfl : e=k := by omega
      rw [if_neg (by omega)]
      exact ⟨output,rfl,room,leaves⟩

lemma leaf_scaled {p s v inverse : ℕ} {origin : ℕ → ZMod p} {value : List ℕ} (small : p<2^61)
    (leaf : Leaf k p k origin s value) (hv : v<p) (scalar : origin s = v) (lt : inverse<p) (inverts
    : (2 : ZMod p)^k*(inverse:ℕ)=1) : value.map (mul p · inverse) = v :: replicate (2^k-1) 0 := by
  obtain ⟨poly,coefficients⟩ := leaf
  have pos : 0<p := by omega
  have length : value.length=2^k := poly.1
  refine ext_getElem ?_ fun i hi hi' => ?_
  · simp only [length_map,length_cons,length_replicate,length]
    exact (Nat.sub_add_cancel Nat.one_le_two_pow).symm
  rw [length_map,length] at hi
  have word := poly.getD_lt pos i
  have entry := coefficients i hi
  rw [coeff,getD_eq_getElem _ _ (by omega)] at entry
  rw [getD_eq_getElem _ _ (by omega)] at word
  rw [getElem_map]
  refine eq_of_cast (mul_lt pos _ _) ?_ ?_
  · cases i with
    | zero => exact hv
    | succ i => simpa using pos
  · rw [cast_mul small word lt,entry]
    cases i with
    | zero =>
      rw [if_pos (dvd_zero _),add_zero,scalar,getElem_cons_zero]
      linear_combination (v : ZMod p)*inverts
    | succ i =>
      rw [if_neg (Nat.not_dvd_of_pos_of_lt (Nat.succ_pos i) hi)]
      simp

lemma ring_of_new {ring : CoefficientRing} {maxWork : ℕ} (made : new ring maxWork = .ok c) :
    c.ring=ring := by
  unfold new at made
  simp only [bind_eq_ok,ite_error_eq_ok,pure_eq_ok,ok_eq_ok] at made
  obtain ⟨_,-,_,-,_,-,_,-,-,rfl⟩ := made
  rfl

lemma new_ok (ring : CoefficientRing) : ∃ c,new ring maxCompressionWork = .ok c := by
  have square : ring.degree*ring.degree≤4096*4096 :=
    Nat.mul_le_mul ring.degree_le ring.degree_le
  have degree : ring.degree≤4096 := ring.degree_le
  unfold new
  dsimp only
  rw [product_ok (by omega),ok_bind,product_ok (by omega),ok_bind,product_ok (by omega),ok_bind,
    sum,if_pos (by omega),ok_bind,if_neg (by rw [min_self,maxCompressionWork]; omega)]
  exact ⟨_,rfl⟩

/-- A compressed polynomial decompresses to its scalars as constant polynomials, in their order. -/
theorem coefficient_compression (ring : CoefficientRing) : (∃ c,new ring maxCompressionWork = .ok c)
    ∧ ∀ maxWork c,new ring maxWork = .ok c → ∀ scalars buffer output scratch,scalars ≠
    [] → scalars.length ≤ ring.degree → (∀ v∈scalars,v < ring.modulus) → buffer.length=ring.degree →
    output.length=c.outputWords → scratch.length=c.scratchWords → ∃ packed,c.compress scalars
    buffer = .ok packed ∧ c.decompress packed output scratch = .ok ((List.range ring.degree).flatMap
    fun s => scalars.getD s 0 :: replicate (ring.degree-1) 0) := by
  obtain ⟨k,hn⟩ := isPowerOfTwo_iff.mp ring.powerOfTwo
  have range := ring.modulus_range
  refine ⟨new_ok ring,fun maxWork c made scalars buffer output scratch some few canon hbuf hout
    hscr => ?_⟩
  obtain rfl := ring_of_new made
  let p := c.ring.modulus
  let packed := scalars++replicate (buffer.length-scalars.length) 0
  have pos : 0<p := by omega
  have hpac : Poly (2^k) p packed := by
    refine ⟨by simp [packed]; omega,fun x m => ?_⟩
    rcases mem_append.mp m with m | m
    · exact canon x m
    · exact (eq_of_mem_replicate m) ▸ pos
  obtain ⟨inverseSmall,inverse⟩ := inversePowerTwo_spec range.1 range.2 c.ring.odd k
  have root : Leaf k p 0 (coeff p packed) 0 packed :=
    ⟨hpac,fun i _ => by simp⟩
  obtain ⟨out,eval,length,leaves⟩ := splitLoop_ok hn (Nat.zero_le k)
    (show k-0 ≤ c.ring.degree by rw [hn]; exact Nat.lt_two_pow_self.le)
    (show (scratch.drop c.ring.degree).length = _ by
      rw [length_drop,hscr,scratchWords]; omega)
    (show (packed :: replicate (2^k-1) (replicate (2^k) 0)).length = _ by
      rw [length_cons,length_replicate,Nat.sub_add_cancel Nat.one_le_two_pow])
    (fun s hs => by
      obtain rfl : s=0 := by omega
      exact root)
  refine ⟨packed,?_,?_⟩
  · unfold compress
    rw [if_neg (by simp [some,few]),if_neg (by simp [hbuf]),canonical_ok canon]
    rfl
  · unfold decompress
    dsimp only
    rw [if_neg (by simp [hpac.1,hn,hout,hscr]),canonical_ok hpac.2,ok_bind,
      CoefficientRing.inversePowerTwo,if_neg (by simp [c.ring.powerOfTwo]),ok_bind]
    rw [pow_zero] at eval
    rw [hn] at eval ⊢
    rw [eval,ok_bind,pure_eq_ok,Except.ok.injEq,map_flatten]
    congr 1
    refine ext_getElem (by simp [length]) fun s hs _ => ?_
    rw [length_map] at hs
    have value : packed.getD s 0=scalars.getD s 0 := by
      rw [getD_eq_getElem?_getD,getD_eq_getElem?_getD,getElem?_append]
      split
      · rfl
      · rename_i beyond
        rw [getElem?_eq_none (not_lt.mp beyond),getElem?_replicate]
        split <;> rfl
    rw [getElem_map,getElem_map,getElem_range,← getD_eq_getElem _ [] hs]
    exact leaf_scaled range.2 (leaves s (by omega)) (value ▸ hpac.getD_lt pos s)
      (by rw [← value]; rfl) inverseSmall inverse

/-- Three scalars in four coefficients. -/
theorem coefficient_compression_small : ∃ ring c packed,CoefficientRing.new 4 17 = .ok ring ∧
    new ring maxCompressionWork = .ok c ∧ c.compress [3,5,7] [1,1,1,1] = .ok packed ∧
    c.decompress packed (replicate c.outputWords 1) (replicate c.scratchWords 1) =
      .ok [3,0,0,0,5,0,0,0,7,0,0,0,0,0,0,0] := by
  obtain ⟨⟨c,made⟩,exact_⟩ := coefficient_compression ⟨4,17,by decide,by decide,by decide,by decide⟩
  obtain ⟨packed,ok,back⟩ := exact_ _ c made [3,5,7] [1,1,1,1] (replicate c.outputWords 1)
    (replicate c.scratchWords 1) (by simp) (by simp) (by simp) rfl (by simp) (by simp)
  exact ⟨_,c,packed,rfl,made,ok,back⟩

end CoefficientCompression
end Pllm.Coefficient
