import Pllm.Coefficient.Ring

/-! The interleaving as a whole. -/
namespace Pllm.Coefficient
open Pllm.Lib List Nat

lemma isPowerOfTwo_iff {n : ℕ} : isPowerOfTwo n = true ↔ ∃ k,n=2^k := by
  unfold isPowerOfTwo
  rw [beq_iff_eq]
  constructor
  · intro h
    exact ⟨_,h⟩
  · rintro ⟨k,rfl⟩
    rw [log2_two_pow]

lemma canonical_ok {p : ℕ} {values : List ℕ} (h : ∀ x∈values,x<p) :
    canonical p values = .ok () := by
  refine if_neg fun big => ?_
  obtain ⟨x,m,le⟩ := any_eq_true.mp big
  have := h x m
  have := of_decide_eq_true le
  omega

variable {p : ℕ}

lemma eq_of_cast {a b : ℕ} (ha : a<p) (hb : b<p) (h : (a : ZMod p)=b) : a=b := by
  have := (ZMod.natCast_eq_natCast_iff' a b p).mp h
  rwa [mod_eq_of_lt ha,mod_eq_of_lt hb] at this

section Inverse

variable (three : 3≤p) (small : p<2^61) (odd : p%2=1)
include three small odd

lemma inversePowerTwo_spec (s : ℕ) : inversePowerTwo p (2^s)<p ∧
    (2 : ZMod p)^s*(inversePowerTwo p (2^s):ℕ)=1 := by
  have half : 2*(((p+1)/2:ℕ) : ZMod p)=1 := by
    have whole : 2*((p+1)/2)=p+1 := by omega
    have := congrArg (fun x : ℕ => (x : ZMod p)) whole
    simpa using this
  have exponent : padicValNat 2 (2^s)=s := padicValNat.prime_pow s
  unfold inversePowerTwo
  rw [exponent]
  clear exponent
  induction s with
  | zero => exact ⟨by simpa using (show 1 < p by omega),by simp⟩
  | succ s ih =>
    obtain ⟨lt,one⟩ := ih
    rw [Function.iterate_succ_apply']
    refine ⟨mul_lt (by omega) _ _,?_⟩
    rw [cast_mul small lt (by omega)]
    linear_combination (2*(((p+1)/2:ℕ) : ZMod p))*one+half

end Inverse

section Scaled

variable {n padded inverse count : ℕ} {input : List ℕ}

/-- The inputs are scaled, and the polynomials behind them are zero. -/
lemma scaled_spec (hn : 0<n) (small : p<2^61) (pos : 0<p) (hin : input.length=count*n)
    (canon : ∀ x∈input,x<p) (hinv : inverse<p) (room : count≤padded) :
    (scaled n p padded inverse input).length = padded ∧ ∀ j<padded,
      Poly n p ((scaled n p padded inverse input).getD j []) ∧ ∀ i<n,
        coeff p ((scaled n p padded inverse input).getD j []) i =
          if j < count then coeff p input (j*n+i)*inverse else 0 := by
  have fill : count*n≤padded*n := Nat.mul_le_mul_right n room
  let flat := input.map (mul p · inverse)++replicate (padded*n-input.length) 0
  have length : flat.length=padded*n := by
    rw [length_append,length_map,length_replicate]
    omega
  have count_eq : flat.length/n=padded := by rw [length,Nat.mul_div_cancel _ hn]
  have chunk (j : ℕ) (hj : j<padded) :
      (scaled n p padded inverse input).getD j [] = slice flat (n*j) n := by
    show (chunksExact n flat).getD j []=_
    rw [chunksExact,count_eq]
    simp [hj]
  have inside (j : ℕ) (hj : j<padded) : n*j+n≤flat.length := by
    rw [length,mul_comm padded]
    exact Nat.mul_le_mul_left n hj
  have entry (j i : ℕ) (hj : j<padded) (hi : i<n) : (slice flat (n*j) n).getD i 0 =
      if j < count then mul p (input.getD (j*n+i) 0) inverse else 0 := by
    have value : flat.getD (n*j+i) 0 =
        if n*j+i < input.length then mul p (input.getD (n*j+i) 0) inverse else 0 := by
      rw [getD_eq_getElem?_getD]
      split
      · rename_i first
        rw [getElem?_append_left (by simpa using first),getElem?_map,
          getD_eq_getElem?_getD,getElem?_eq_getElem first]
        rfl
      · rename_i second
        rw [getElem?_append_right (by simpa using second),getElem?_replicate]
        split <;> rfl
    rw [getD_eq_getElem?_getD,getElem?_slice,if_pos hi,← getD_eq_getElem?_getD,value, mul_comm n j]
    refine if_congr ?_ rfl rfl
    rw [hin]
    constructor
    · intro lt
      by_contra ge
      have := Nat.mul_le_mul_right n (not_lt.mp ge)
      omega
    · intro lt
      exact mul_add_lt lt hi
  have bounded (i : ℕ) : input.getD i 0 < p := Poly.getD_lt ⟨hin,canon⟩ pos i
  refine ⟨?_,fun j hj => ⟨?_,fun i hi => ?_⟩⟩
  · show (chunksExact n flat).length=padded
    rw [chunksExact,length_map,length_range,count_eq]
  · rw [chunk j hj]
    refine poly_of_getD (length_slice (inside j hj)) fun i hi => ?_
    rw [entry j i hj hi]
    split
    · exact mul_lt pos _ _
    · exact pos
  · unfold coeff
    rw [chunk j hj,entry j i hj hi]
    split
    · exact cast_mul small (bounded _) hinv
    · exact cast_zero

end Scaled

/-- A multiple of `2^s` ends the part of a place behind its remainder, or the place has a greater
remainder. -/
lemma lane_cases {a s : ℕ} (h : a ≤ s) (i : ℕ) :
    (2^s ∣ i-i%2^a ∧ i%2^s=i%2^a) ∨ (¬2^s ∣ i-i%2^a ∧ 2^a ≤ i%2^s) := by
  have pow : 2^a ∣ 2^s := Nat.pow_dvd_pow 2 h
  have lt : i%2^a<2^a := mod_lt _ (Nat.two_pow_pos a)
  have le : 2^a≤2^s := le_of_dvd (Nat.two_pow_pos s) pow
  have low : i%2^a ≤ i := mod_le i _
  by_cases whole : 2^s ∣ i-i%2^a
  · refine .inl ⟨whole,?_⟩
    obtain ⟨m,eq⟩ := whole
    calc i%2^s=(2^s*m+i%2^a)%2^s := by rw [← eq,Nat.sub_add_cancel low]
      _ = i%2^a := by rw [mul_add_mod,mod_eq_of_lt (lt.trans_le le)]
  · refine .inr ⟨whole,?_⟩
    by_contra less
    have same : i%2^s=i%2^a := by
      rw [← mod_mod_of_dvd i pow,mod_eq_of_lt (not_le.mp less)]
    rw [← same] at whole
    exact whole (dvd_sub_mod i)

/-- Coefficient `m*stride+j` of the output is coefficient `m*stride` of input `j`, and the lanes
without an input are zero. -/
lemma interleave_ok {k s count max : ℕ} {input output scratch : List ℕ} (hmax : 2^k ≤ max) (hk :
    2^k≤8192) (three : 3≤p) (small : p<2^61) (odd : p%2=1) (hs : s≤k) (hcnt : 0 < count) (hcount' :
    count ≤ min (2^s) 256) (hin : input.length=count*2^k) (canon : ∀ x∈input,x<p) (hout :
    output.length=2^k) (hscr : scratch.length = (nextPowerOfTwo count+1)*2^k) :
    ∃ out,interleave (2^k) p max input (2^s) count output scratch = .ok out ∧
      Poly (2^k) p out ∧ ∀ i<2^k,out.getD i 0 =
        if i%2^s < count then input.getD (i%2^s*2^k+(i-i%2^s)) 0 else 0 := by
  have pos : 0<p := by omega
  have nonzero : ¬p%2=0 := by omega
  have stride : 2^s≤2^k := Nat.pow_le_pow_right (by decide) hs
  have fits : count≤2^s := hcount'.trans (min_le_left _ _)
  let a := clog 2 count
  have ha : a ≤ s := (clog_le_iff_le_pow (by decide)).mpr fits
  have room : count≤2^a := le_pow_clog (by decide) count
  obtain ⟨inverseSmall,inverse⟩ := inversePowerTwo_spec three small odd s
  obtain ⟨length,each⟩ := scaled_spec (Nat.two_pow_pos k) small pos hin canon inverseSmall room
  let values := scaled (2^k) p (2^a) (inversePowerTwo p (2^s)) input
  let traced := values.map (traceLoop (2^k) p (2^s) (2^s) (2^a))
  let lanes (x : ℕ) : ZMod p :=
    if 2^s ∣ x-x%2^a then 2^(s-a)*coeff p (values.getD (x%2^a) []) (x-x%2^a) else 0
  have merged : Merged (2^k) p a 1 lanes traced := by
    refine ⟨by rw [length_map,length],fun j hj => ?_⟩
    have get : traced.getD j []=traceLoop (2^k) p (2^s) (2^s) (2^a) (values.getD j []) := by
      have inside : j<values.length := length.symm ▸ hj
      simp [traced,inside]
    have turns : s-a≤2^s := (sub_le s a).trans Nat.lt_two_pow_self.le
    have start : Traced (2^k) p a a (values.getD j []) (values.getD j []) := fun i _ whole => by
      rw [if_pos whole,Nat.sub_self,pow_zero,one_mul]
    obtain ⟨poly,trace⟩ := traceLoop_spec small pos hs le_rfl ha turns (each j hj).1 start
    rw [get]
    refine ⟨poly,fun i hi whole => ?_⟩
    obtain ⟨m,rfl⟩ := whole
    have lane : (j+2^a*m)%2^a=j := by rw [add_mul_mod_self_left,mod_eq_of_lt hj]
    rw [trace _ hi (Dvd.intro m rfl),one_mul]
    simp only [lanes,lane,Nat.add_sub_cancel_left]
  obtain ⟨-,final⟩ := mergeLoop_spec small pos merged (ha.trans hs) Nat.lt_two_pow_self.le
  obtain ⟨poly,coefficients⟩ := final 0 Nat.one_pos
  have head : (mergeLoop (2^k) p (2^a) (2^a/2) traced).headD [] =
      (mergeLoop (2^k) p (2^a) (2^a/2) traced).getD 0 [] := by
    rw [headD_eq_head?_getD,getD_eq_getElem?_getD,head?_eq_getElem?]
  refine ⟨_,?_,poly,fun i hi => ?_⟩
  · have power (e : ℕ) : isPowerOfTwo (2^e)=true := isPowerOfTwo_iff.mpr ⟨e,rfl⟩
    have degree : ¬(¬isPowerOfTwo (2^k)=true ∨ 2^k>max ∨ 2^k>8192) :=
      not_or.mpr ⟨not_not.mpr (power k),by omega⟩
    have modulus : ¬(¬(3≤p ∧ p<2^61) ∨ p%2=0) :=
      not_or.mpr ⟨not_not.mpr ⟨three,small⟩,nonzero⟩
    have geometry : ¬(¬isPowerOfTwo (2^s)=true ∨ 2^s>2^k ∨ count=0 ∨
        count>min (2^s) 256) := not_or.mpr ⟨not_not.mpr (power s),by omega⟩
    unfold interleave
    rw [if_neg degree,if_neg modulus,if_neg geometry]
    rw [if_neg (by simp [hin,hout,hscr]),canonical_ok canon]
    exact congrArg Except.ok head
  · refine eq_of_cast (poly.getD_lt pos i) ?_ ?_
    · split
      · exact Poly.getD_lt ⟨hin,canon⟩ pos _
      · exact pos
    have value := coefficients i hi (one_dvd i)
    rw [zero_add] at value
    refine value.trans ?_
    have lt : i%2^a<2^a := mod_lt _ (Nat.two_pow_pos a)
    rcases lane_cases ha i with ⟨whole,same⟩ | ⟨part,greater⟩
    · simp only [lanes]
      rw [if_pos whole,(each _ lt).2 _ (lt_of_le_of_lt (sub_le i _) hi),same]
      split
      · have scale : (2 : ZMod p)^a*2^(s-a)=2^s := by rw [← pow_add,Nat.add_sub_cancel' ha]
        unfold coeff
        linear_combination ((input.getD (i%2^a*2^k+(i-i%2^a)) 0 : ℕ) : ZMod p) *
          (inversePowerTwo p (2^s):ℕ)*scale +
            ((input.getD (i%2^a*2^k+(i-i%2^a)) 0 : ℕ) : ZMod p)*inverse
      · rw [mul_zero,mul_zero,cast_zero]
    · simp only [lanes]
      rw [if_neg part,if_neg (by omega),mul_zero,cast_zero]

end Pllm.Coefficient
