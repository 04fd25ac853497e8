import Pllm.Lib.Except

/-! Coefficients of a homomorphic phase turned into arithmetic shares. -/
namespace Pllm.Coefficient
open Pllm.Lib Nat Int

inductive ConversionError
  | invalidBits
  | invalidModulus
  | arithmeticCapacity
  | nonCanonical
  | invalidDeltaMessage
  | phaseOutOfRange

structure CoefficientPhaseInputs where
  deltaMessage : ℕ
  error : ℤ
  freshZeroError : ℤ
  mask : ℕ

/-- Residues modulo `t`. -/
structure CoefficientPhaseOutputs where
  receiver : ℕ
  sender : ℕ

structure CoefficientConversion where
  bits : ℕ
  t : ℕ
  q : ℕ
  delta : ℕ

variable {a b m : ℕ}

namespace CoefficientConversion

abbrev Result := Except ConversionError

def checkedAdd (a b : ℕ) : Result ℕ :=
  if a+b<2^128 then .ok (a+b) else .error .arithmeticCapacity

def checkedMul (a b : ℕ) : Result ℕ :=
  if a*b<2^128 then .ok (a*b) else .error .arithmeticCapacity

/-- The unchecked subtraction of 128 bits. -/
def minus (a b : ℕ) : ℕ := (a+2^128-b)%2^128

/-- `2*t*v+q`, with every operation checked. -/
def numerator (t q v : ℕ) : Result ℕ := do checkedAdd (← checkedMul (← checkedMul t 2) v) q

def new (bits oddModulus : ℕ) : Result CoefficientConversion :=
  if ¬(1≤bits ∧ bits≤64) then .error .invalidBits
  else
    let t := 2^bits
    let q := oddModulus
    if q≤t ∨ q%2=0 then .error .invalidModulus
    else do
      let _ ← numerator t q (q-1)
      pure ⟨bits,t,q,q/t⟩

variable (c : CoefficientConversion)

def deltaEncode (message : ℕ) : Result ℕ :=
  if message≥c.t then .error .nonCanonical else checkedMul c.delta message

/-- `t*(phase%q)/q` rounded to the nearest, modulo `t`. -/
def down (phase : ℕ) : Result ℕ := do
  let numerator ← numerator c.t c.q (phase%c.q)
  let denominator ← checkedMul c.q 2
  pure (numerator/denominator%c.t)

def add (a b : ℕ) : Result ℕ := do pure ((← checkedAdd a b)%c.q)

def signedPhase (error : ℤ) : Result ℕ :=
  if error.natAbs>c.q/2 then .error .phaseOutOfRange
  else .ok (if error < 0 then minus c.q error.natAbs else error.natAbs)

def evaluate (inputs : CoefficientPhaseInputs) : Result CoefficientPhaseOutputs :=
  if inputs.deltaMessage%c.delta≠0 ∨ inputs.deltaMessage/c.delta≥c.t then
    .error .invalidDeltaMessage
  else if inputs.mask≥c.q then .error .nonCanonical
  else do
    let error ← c.signedPhase inputs.error
    let zeroError ← c.signedPhase inputs.freshZeroError
    let phase ← c.add inputs.deltaMessage error
    let phase ← c.add phase zeroError
    let phase ← c.add phase inputs.mask
    let receiver ← c.down phase
    let sender := minus c.t (← c.down inputs.mask)%c.t
    pure ⟨receiver,sender⟩

/-- What the construction admits. -/
structure Admitted : Prop where
  t_pos : 0 < c.t
  t_lt : c.t < c.q
  fits : c.t*2*(c.q-1)+c.q<2^128
  delta_eq : c.delta=c.q/c.t

variable {c} {bits q : ℕ}

lemma ite_ok_eq_ok {e : ConversionError} {a b n : ℕ} :
    (if a < n then (.ok a : Result ℕ) else .error e) = .ok b ↔ a<n ∧ a=b := by
  split <;> simp_all

lemma checkedAdd_ok (h : a+b<2^128) : checkedAdd a b = .ok (a+b) := if_pos h
lemma checkedMul_ok (h : a*b<2^128) : checkedMul a b = .ok (a*b) := if_pos h

lemma minus_eq (ha : a<2^128) (hb : b≤a) : minus a b = a-b := by
  unfold minus
  rw [show a+2^128-b=a-b+2^128 by omega,add_mod_right,mod_eq_of_lt (by omega)]

lemma numerator_fits {t q v w : ℕ} (h : numerator t q v = .ok w) : t*2*v+q<2^128 := by
  unfold numerator checkedMul checkedAdd at h
  simp only [bind_eq_ok,ite_ok_eq_ok] at h
  obtain ⟨_,⟨-,rfl⟩,_,⟨-,rfl⟩,fits,-⟩ := h
  exact fits

lemma admitted_of_new (h : new bits q = .ok c) : c.Admitted ∧ c.t=2^bits ∧ c.q=q := by
  unfold new at h
  simp only [ite_error_eq_ok,bind_eq_ok,pure_eq_ok,ok_eq_ok] at h
  obtain ⟨-,modulus,w,fits,rfl⟩ := h
  exact ⟨⟨Nat.two_pow_pos bits,by simpa using fun h => modulus (.inl h),numerator_fits fits,rfl⟩,
    rfl,rfl⟩

namespace Admitted
variable (h : c.Admitted)
include h

lemma down_ok (phase : ℕ) : c.down phase = .ok ((c.t*2*(phase%c.q)+c.q)/(c.q*2)%c.t) := by
  obtain ⟨pos,less,fits,-⟩ := h
  have small : phase%c.q ≤ c.q-1 := le_sub_one_of_lt (mod_lt _ (by omega))
  have product : c.t*2*(phase%c.q) ≤ c.t*2*(c.q-1) := Nat.mul_le_mul_left _ small
  have denominator : 1*2*(c.q-1) ≤ c.t*2*(c.q-1) :=
    Nat.mul_le_mul_right _ (Nat.mul_le_mul_right 2 pos)
  unfold down numerator
  rw [checkedMul_ok (by omega),ok_bind,checkedMul_ok (by omega),ok_bind,
    checkedAdd_ok (by omega),ok_bind,checkedMul_ok (by omega)]
  rfl

lemma q_lt : c.q*2<2^128 := by
  obtain ⟨pos,less,fits,-⟩ := h
  have := Nat.mul_le_mul_right (c.q-1) (Nat.mul_le_mul_right 2 pos)
  omega

lemma add_ok (ha : a ≤ c.q) (hb : b < c.q) : c.add a b = .ok ((a+b)%c.q) := by
  have := h.q_lt
  unfold add
  rw [checkedAdd_ok (by omega)]
  rfl

lemma signedPhase_ok {e : ℤ} (small : e.natAbs ≤ c.q/2) :
    ∃ v < c.q,c.signedPhase e = .ok v ∧ (v : ℤ) ≡ e [ZMOD c.q] := by
  have := h.q_lt
  have := h.t_lt
  unfold signedPhase
  rw [if_neg (by omega)]
  split
  · rw [minus_eq (by omega) (by omega)]
    refine ⟨_,by omega,rfl,?_⟩
    have value : ((c.q-e.natAbs:ℕ) : ℤ)=e+c.q := by omega
    rw [value]
    exact add_modEq_right
  · refine ⟨_,by omega,rfl,?_⟩
    have value : (e.natAbs:ℤ)=e := by omega
    rw [value]

end Admitted

/-- The rounded quotient of any representative of a phase. -/
def rounded (c : CoefficientConversion) (x : ℤ) : ℤ := (c.t*2*x+c.q)/(c.q*2)

lemma Admitted.down_modEq (h : c.Admitted) {phase : ℕ} {x : ℤ} (same : (phase : ℤ) ≡ x [ZMOD c.q]) :
    ∃ v < c.t,c.down phase = .ok v ∧ (v : ℤ) ≡ c.rounded x [ZMOD c.t] := by
  have pos := h.t_pos
  have less := h.t_lt
  refine ⟨_,mod_lt _ pos,h.down_ok phase,?_⟩
  obtain ⟨k,split⟩ : ∃ k,x=(phase:ℤ)%c.q+c.q*k := ⟨x/c.q,by
    rw [same.eq]
    exact (emod_add_mul_ediv x c.q).symm⟩
  have whole : (c.t:ℤ)*2*x+c.q=c.t*2*((phase:ℤ)%c.q)+c.q+c.t*k*(c.q*2) := by
    rw [split]
    ring
  push_cast
  refine (Int.mod_modEq _ _).trans ?_
  rw [rounded,whole,Int.add_mul_ediv_right _ _ (by omega)]
  exact (modEq_add_fac_self (t := k)).symm

lemma rounded_near (pos : 0 < c.q) {x y e : ℤ} (moved : (c.t:ℤ)*y = c.t*x+c.q*m+e)
    (small : |e| < c.q) : ∃ d ∈ ({-1,0,1} : Set ℤ),c.rounded y = c.rounded x+m+d := by
  obtain ⟨low,high⟩ := abs_lt.mp small
  have unit : (0:ℤ) < c.q*2 := by omega
  have around (k : ℤ) : (c.t*2*x+c.q+k*(c.q*2))/(c.q*2)=c.rounded x+k :=
    add_mul_ediv_right _ _ unit.ne'
  have below := Int.ediv_le_ediv unit (show c.t*2*x+c.q+(m-1:ℤ)*(c.q*2) ≤ c.t*2*y+c.q by linarith)
  have above := Int.ediv_le_ediv unit (show c.t*2*y+c.q ≤ c.t*2*x+c.q+(m+1:ℤ)*(c.q*2) by linarith)
  rw [around] at below above
  have le : c.rounded x+(m-1) ≤ c.rounded y := below
  have ge : c.rounded y ≤ c.rounded x+(m+1) := above
  refine ⟨c.rounded y-c.rounded x-m,?_,by ring⟩
  simp only [Set.mem_insert_iff,Set.mem_singleton_iff]
  omega

lemma Admitted.encoded_le (h : c.Admitted) (hm : m < c.t) : c.delta*m ≤ c.q := calc
  c.delta*m ≤ c.q/c.t*c.t := Nat.mul_le_mul h.delta_eq.le hm.le
  _ ≤ c.q := div_mul_le_self c.q c.t

lemma Admitted.encode_ok (h : c.Admitted) (hm : m < c.t) : c.deltaEncode m = .ok (c.delta*m) := by
  have := h.encoded_le hm
  have := h.q_lt
  rw [deltaEncode,if_neg (not_le.mpr hm),checkedMul_ok (by omega)]

lemma Admitted.evaluate_ok (h : c.Admitted) {m mask : ℕ} {e z : ℤ} (hm : m < c.t)
    (hmask : mask < c.q) (he : e.natAbs ≤ c.q/2) (hz : z.natAbs ≤ c.q/2) :
    ∃ out,c.evaluate ⟨c.delta*m,e,z,mask⟩ = .ok out ∧ (out.receiver+out.sender:ℤ) ≡
      c.rounded (c.delta*m+e+z+mask)-c.rounded mask [ZMOD c.t] := by
  obtain ⟨hpos,hless,-,hdlt⟩ := id h
  have wide := h.q_lt
  have hd : 0 < c.delta := hdlt ▸ Nat.div_pos hless.le hpos
  obtain ⟨v,hv,evalE,sameE⟩ := h.signedPhase_ok he
  obtain ⟨w,hw,evalZ,sameZ⟩ := h.signedPhase_ok hz
  have first := mod_lt (c.delta*m+v) (show 0 < c.q by omega)
  have second := mod_lt ((c.delta*m+v)%c.q+w) (show 0 < c.q by omega)
  have phase : (((((c.delta*m+v)%c.q+w)%c.q+mask)%c.q : ℕ) : ℤ) ≡
      c.delta*m+e+z+mask [ZMOD c.q] := by
    push_cast
    refine (Int.mod_modEq _ _).trans (.add_right _ ((Int.mod_modEq _ _).trans ?_))
    exact .add ((Int.mod_modEq _ _).trans (.add_left _ sameE)) sameZ
  obtain ⟨a,ha,evalA,sameA⟩ := h.down_modEq phase
  obtain ⟨b,hb,evalB,sameB⟩ := h.down_modEq (Int.ModEq.refl (mask : ℤ))
  refine ⟨⟨a,minus c.t b%c.t⟩,?_,?_⟩
  · unfold evaluate
    rw [if_neg (by simp [Nat.mul_div_cancel_left m hd,hm]),if_neg (by simpa using hmask)]
    rw [evalE,ok_bind,evalZ,ok_bind,h.add_ok (h.encoded_le hm) hv,ok_bind,h.add_ok first.le hw,ok_bind,
      h.add_ok second.le hmask,ok_bind,evalA,ok_bind,evalB]
    rfl
  · rw [minus_eq (by omega) hb.le]
    push_cast [hb.le]
    refine sameA.add ((Int.mod_modEq _ _).trans ?_)
    have turn : (c.t:ℤ)-b ≡ -b [ZMOD c.t] := by
      exact add_modEq_left
    exact turn.trans sameB.neg

lemma Admitted.evaluate_ends (h : c.Admitted) (inputs : CoefficientPhaseInputs) :
    c.evaluate inputs ≠ .error .arithmeticCapacity := by
  obtain ⟨encoded,e,z,mask⟩ := inputs
  by_cases message : encoded%c.delta≠0 ∨ encoded/c.delta≥c.t
  · simp [evaluate,message]
  by_cases large : mask≥c.q
  · simp [evaluate,message,large]
  by_cases he : e.natAbs>c.q/2
  · simp [evaluate,message,large,signedPhase,he]
  by_cases hz : z.natAbs>c.q/2
  · simp [evaluate,message,large,signedPhase,he,hz]
  push Not at message
  obtain ⟨out,eval,-⟩ := h.evaluate_ok message.2 (not_le.mp large) (not_lt.mp he) (not_lt.mp hz)
  rw [Nat.mul_div_cancel' (dvd_of_mod_eq_zero message.1)] at eval
  simp [eval]

/-- The shares add up to the message or to a neighbour of it when the errors are small, and no
operation overflows. -/
theorem coefficient_conversion : (∀ bits q c,new bits q = .ok c → ∀ message phase, c.deltaEncode
    message ≠ .error .arithmeticCapacity ∧ (∃ v<2^bits,c.down phase = .ok v) ∧ ∀ inputs,c.evaluate
    inputs ≠ .error .arithmeticCapacity) ∧ ∀ bits q c,new bits q = .ok c → ∀ (m mask : ℕ)
    (e z : ℤ),m<2^bits → mask<q → e.natAbs≤q/2 → z.natAbs≤q/2 → 2^bits*|e+z|+m*(q%2^bits)<q →
    ∃ encoded out,c.deltaEncode m = .ok encoded ∧ c.evaluate ⟨encoded,e,z,mask⟩ = .ok out ∧ ∃ d ∈
    ({-1,0,1} : Set ℤ),(out.receiver+out.sender:ℤ) ≡ m+d [ZMOD 2^bits] := by
  refine ⟨fun bits q c made message phase => ?_,fun bits q c made m mask e z hm hmask he hz small =>
    ?_⟩
  · obtain ⟨h,ht,-⟩ := admitted_of_new made
    obtain ⟨v,hv,eval,-⟩ := h.down_modEq (Int.ModEq.refl (phase : ℤ))
    refine ⟨?_,⟨v,ht ▸ hv,eval⟩,h.evaluate_ends⟩
    rcases Nat.lt_or_ge message c.t with canonical | large
    · simp [h.encode_ok canonical]
    · simp [deltaEncode,large]
  · obtain ⟨h,ht,rfl⟩ := admitted_of_new made
    rw [← ht] at hm
    obtain ⟨out,eval,same⟩ := h.evaluate_ok hm hmask he hz
    have power : (2:ℤ)^bits=c.t := by exact_mod_cast ht.symm
    rw [power] at small ⊢
    have split : (c.t:ℤ)*c.delta+c.q%c.t=c.q := by
      rw [h.delta_eq]
      exact_mod_cast Nat.div_add_mod c.q c.t
    have rest : 0 ≤ (m:ℤ)*(c.q%c.t) := by exact_mod_cast Nat.zero_le (m*(c.q%c.t))
    have shrunk : |(c.t:ℤ)*(e+z)-m*(c.q%c.t)| < c.q := by
      refine (abs_sub _ _).trans_lt ?_
      rwa [abs_mul,Nat.abs_cast,abs_of_nonneg rest]
    obtain ⟨d,hd,near⟩ := rounded_near (Nat.zero_lt_of_lt h.t_lt) (m := m) (x := mask)
      (y := c.delta*m+e+z+mask) (by linear_combination (m : ℤ)*split) shrunk
    refine ⟨_,out,h.encode_ok hm,eval,d,hd,?_⟩
    rwa [near,add_assoc,add_sub_cancel_left] at same

/-- A four-bit message under a modulus that is one off a multiple of sixteen. -/
theorem coefficient_conversion_small : ∃ c encoded out,new 4 1009 = .ok c ∧
    c.deltaEncode 5 = .ok encoded ∧ c.evaluate ⟨encoded,3,-2,700⟩ = .ok out ∧
    ∃ d ∈ ({-1,0,1} : Set ℤ),(out.receiver+out.sender:ℤ) ≡ (5:ℕ)+d [ZMOD 2^4] := by
  obtain ⟨encoded,out,ok⟩ := coefficient_conversion.2 4 1009 _ rfl 5 700 3 (-2) (by decide)
    (by decide) (by decide) (by decide) (by decide)
  exact ⟨_,encoded,out,rfl,ok⟩

end CoefficientConversion
end Pllm.Coefficient
