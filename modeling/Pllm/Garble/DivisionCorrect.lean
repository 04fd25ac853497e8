import Pllm.Garble.RoundingCorrect

/-! The signed operations of the circuit builder: magnitudes, restoring divisions and rounded
products compute integer arithmetic at every width. -/
namespace Pllm.Garble
open Pllm.Lib Retained Draft Issuer List Draws
open Draft.HasNumber (zeros)
open Nat (mod_eq_of_lt mod_lt zero_mod)

/-- A word of wires carries an integer in two's complement. -/
def Draft.HasInteger (env : List Bool) (ws : List BooleanWire) (width : ℕ) (value : ℤ)
    (d : Draft) : Prop :=
  d.HasNumber env ws width (value%2^width).toNat ∧ -2^(width-1)≤value ∧ value<2^(width-1)

section
variable {n : ℕ} {z : ℤ}

section
variable (hn : 0<n) (low : -2^(n-1)≤z) (high : z<2^(n-1))
include hn low high

lemma toNat_emod : ((z%2^n).toNat:ℤ) = if z<0 then z+2^n else z := by
  have double : (2:ℤ)^n=2*2^(n-1) := by
    rw [← pow_succ',Nat.sub_add_cancel hn]
  rw [Int.toNat_of_nonneg (Int.emod_nonneg _ (by positivity))]
  split
  · rw [← Int.add_emod_right,Int.emod_eq_of_lt (by omega) (by omega)]
  · rw [Int.emod_eq_of_lt (by omega) (by omega)]

lemma sign_iff : 2^(n-1)≤(z%2^n).toNat ↔ z<0 := by
  have value := toNat_emod hn low high
  have double : (2:ℤ)^n=2*2^(n-1) := by
    rw [← pow_succ',Nat.sub_add_cancel hn]
  have cast : ((2^(n-1):ℕ):ℤ)=2^(n-1) := by push_cast; rfl
  split at value <;> omega

lemma magnitude_emod : magnitude n (z%2^n).toNat = z.natAbs := by
  have value := toNat_emod hn low high
  have whole : ((2^n:ℕ):ℤ)=2^n := by push_cast; rfl
  rw [magnitude]
  by_cases neg : z<0
  · rw [if_pos ((sign_iff hn low high).mpr neg)]
    omega
  · rw [if_neg (mt (sign_iff hn low high).mp neg)]
    omega

end

lemma negated_eq {m : ℕ} (s : Bool) (small : m<2^n) :
    negated n m s = ((if s then -(m:ℤ) else m)%2^n).toNat := by
  have whole : ((2^n:ℕ):ℤ)=2^n := by push_cast; rfl
  have back : ((m%2^n:ℕ):ℤ)=(m:ℤ)%2^n := by push_cast; rfl
  rw [negated]
  cases s
  · rw [if_neg (by decide),if_neg (by decide),← back,Int.toNat_natCast,mod_eq_of_lt small]
  · have shifted : (-(m:ℤ))%2^n=(((2^n-m)%2^n:ℕ):ℤ) := by
      rw [Int.natCast_mod,Nat.cast_sub small.le,whole,sub_eq_add_neg,Int.add_emod_left]
    rw [if_pos rfl,if_pos rfl,shifted,Int.toNat_natCast]

end

variable {bits : List Bool} {q : ℕ} {state : List BooleanWire × List BooleanWire} {w : BooleanWire}

section
variable {env : List Bool} {d : Draft} {start : BooleanCircuitBuilder} {iss : Issuer}
  {ls rs ws : List BooleanWire} {n m v u : ℕ} {x : ℤ}

lemma Draft.HasInteger.later {e : Draft} {cost : Tally} (h : HasInteger env ws n x d)
    (grown : Grown d e cost) : HasInteger env ws n x e := ⟨h.1.later grown,h.2⟩

lemma Draft.HasInteger.sign (h : HasInteger env ws n x d) (hn : 0<n) :
    d.Has env (signWire ws) (decide (x<0)) := by
  have has := Draft.HasNumber.sign h.1 hn
  rwa [decide_eq_decide.mpr (sign_iff hn h.2.1 h.2.2)] at has

lemma draws_magnitude (hn : 2≤n) (short : n≤64) (h : HasInteger env ws n x d) : Draws iss.hash
    start (iss.absoluteSigned ws) d (3*n) n fun out e => HasNumber env out n x.natAbs e := by
  exact (draws_absoluteSigned hn short h.1).mono fun out e _ _ has =>
    has.cast rfl (magnitude_emod (by omega) h.2.1 h.2.2)

/-- The signed result of an unsigned one that leaves room for the sign. -/
lemma draws_signed {negate : BooleanWire} {s : Bool} (hn : 0<n) (short : n≤128) (small :
    v<2^(n-1)) (h : HasNumber env ws n v d) (hs : d.Has env negate s) :
    Draws iss.hash start (iss.conditionalNegate ws negate) d (3*n) n fun out e =>
      HasInteger env out n (if s then -(v:ℤ) else v) e := by
  refine (draws_conditionalNegate hn short h hs).mono fun out e _ _ has => ⟨?_,?_⟩
  · exact has.cast rfl (negated_eq s h.lt)
  · have cast : ((2^(n-1):ℕ):ℤ)=2^(n-1) := by push_cast; rfl
    split <;> omega

variable (iss) in
lemma draws_requireWires (h : d.HasWord env ws bits) :
    Draws iss.hash start (requireWires ws) d 0 0 fun _ _ => True := by
  intro sound room
  have found : ∃ es,ws.mapM d.builder.encoding = .ok es := by
    induction h with
    | nil => exact ⟨[],rfl⟩
    | cons has h ih =>
      obtain ⟨e,one,-⟩ := sound.encoding has.1 has.index
      obtain ⟨es,rest⟩ := ih
      refine ⟨e::es,?_⟩
      rw [mapM_cons,one,ok_bind,rest]
      rfl
  obtain ⟨es,found⟩ := found
  have same : requireWires ws d=(Pure.pure () : Drawing Unit) d := by
    rw [requireWires,found]
    rfl
  rw [same]
  exact Draws.pure trivial sound room

lemma draws_squareSigned (hn : 2≤n) (short : n≤32)
    (h : HasInteger env ws n x d) : Draws iss.hash start (iss.squareSigned ws) d
    (3*n+((11*n+1)*n+1)) (n+5*n*n) fun out e => HasNumber env out (2*n) (x.natAbs^2) e := by
  have len := h.1.length
  rw [squareSigned,if_neg (by omega)]
  refine (draws_magnitude hn (by omega) h).bind fun out e _ _ has => ?_
  exact (draws_multiplyUnsigned (by omega) (by omega) has has).mono fun out e _ _ h =>
    h.cast rfl (sq _).symm

lemma divide_step (hq : 0<q) (bit : Bool) (t : ℕ) :
    (bit.toNat+2*t)%q = (if bit.toNat+2*(t%q)<q then bit.toNat+2*(t%q) else bit.toNat+2*(t%q)-q) ∧
    (bit.toNat+2*t)/q = (!decide (bit.toNat+2*(t%q)<q)).toNat+2*(t/q) := by
  have split : bit.toNat+2*t=bit.toNat+2*(t%q)+q*(2*(t/q)) := by
    have := Nat.div_add_mod t q
    linarith
  have small := mod_lt t hq
  have low := bit.toNat_le
  rw [split,Nat.add_mul_mod_self_left,Nat.add_mul_div_left _ _ hq]
  by_cases less : bit.toNat+2*(t%q)<q
  · rw [if_pos less,decide_eq_true less,mod_eq_of_lt less,Nat.div_eq_of_lt less]
    exact ⟨rfl,rfl⟩
  · rw [if_neg less,decide_eq_false less,Nat.mod_eq_sub_mod (not_lt.mp less),
      mod_eq_of_lt (by omega),Nat.div_eq_of_lt_le (k := 1) (by omega) (by omega)]
    exact ⟨rfl,rfl⟩

lemma foldl_cons (bits : List Bool) : bits.reverse.foldl (fun c b => b::c) []=bits := by
  rw [foldl_flip_cons_eq_append',reverse_reverse,append_nil]

/-- Remainder and quotient of the bits scanned so far. -/
structure Divided (env : List Bool) (width div : ℕ)
    (state : List BooleanWire × List BooleanWire) (bits : List Bool) (d : Draft) : Prop where
  remainder : d.HasNumber env state.1 width (wordValue bits%div)
  quotient : d.HasNumber env state.2 bits.length (wordValue bits/div)

variable {den : List BooleanWire} {div : ℕ}

lemma draws_divideSignedBit (pos : 0<div) (small : div≤256) (hd : HasNumber env den 9 div d)
    {bit : Bool} (hs : Divided env 9 div state bits d) (hw : d.Has env w bit) : Draws
    iss.hash start (iss.divideSignedBit den div state w) d (112+2*onesBelow 9 div)
    (36+onesBelow 9 div) fun out e => Divided env 9 div out (bit::bits) e := by
  have below := mod_lt (wordValue bits) pos
  have shifted : HasNumber env (w::state.1.take 8) 9
      (bit.toNat+2*(wordValue bits%div)) d := by
    refine (Draft.HasNumber.cons hw (hs.remainder.take (k := 8) (by omega))).cast rfl ?_
    rw [mod_eq_of_lt (a := wordValue bits%div) (by omega)]
  obtain ⟨remainder,quotient⟩ := divide_step pos bit (wordValue bits)
  rw [show 36+onesBelow 9 div=(9+onesBelow 9 div)+(2*9+9) by omega,
    show 112+2*onesBelow 9 div=(2*(9+onesBelow 9 div)+2)+(1+((7*9+1)+3*9)) by omega]
  refine (draws_compareUnsignedToConstant (by decide) (by decide) (by omega) shifted).bind
    fun compared e₁ _ g₁ h₁ => ?_
  refine (draws_not h₁.1).bind_wires fun greaterOrEqual e₂ _ g₂ h₂ => ?_
  have g₁₂ := g₁.trans g₂
  refine (draws_subtractUnsigned (by decide) (by decide) (shifted.later g₁₂) (hd.later g₁₂)).bind
    fun difference e₃ _ g₃ h₃ => ?_
  refine (mono (draws_selectWord (by decide) (by decide) (h₂.later g₃)
    (shifted.later (g₁₂.trans g₃)) h₃.1) fun out e _ g₄ has => ?_).bind_pure
  refine ⟨has.cast rfl ?_,(Draft.HasNumber.cons (h₂.later (g₃.trans g₄))
    (hs.quotient.later ((g₁₂.trans g₃).trans g₄))).cast rfl quotient.symm⟩
  rw [wordValue,remainder]
  by_cases less : bit.toNat+2*(wordValue bits%div)<div <;> simp [less]

/-- The wires and the AND gates of a signed division; a division by one draws nothing. -/
def divideSignedWires (n div : ℕ) : ℕ :=
  if div=1 then 0
  else 3*n+(9+((112+2*onesBelow 9 div)*n+((2*(9+onesBelow 9 (div/2))+2)+
    ((if div%2 = 0 then 1 else 0)+(2*n+3*n+1)+1+1)))+1)

def divideSignedAnds (n div : ℕ) : ℕ :=
  if div=1 then 0
  else n+((36+onesBelow 9 div)*n+((9+onesBelow 9 (div/2))+((if div%2=0 then 1 else 0)
    +(n+n))))

lemma draws_divideSigned (hn : 2≤n) (short : n≤64) (bounds : 1≤div ∧ div≤256) (h : HasInteger env
    ws n x d) : Draws iss.hash start (iss.divideSignedByPublicTiesEven ws div) d (divideSignedWires
    n div) (divideSignedAnds n div) fun out e => HasInteger env out n (roundQuotient x div) e := by
  have len := h.1.length
  rw [divideSignedByPublicTiesEven,if_neg (by omega)]
  refine (draws_requireWires iss h.1.word).bind_none fun _ e₀ _ g₀ _ => ?_
  replace h := h.later g₀
  by_cases trivial : div=1
  · subst trivial
    refine pure ?_
    have same : roundQuotient x (1:ℕ)=x := by simp [roundQuotient]
    rwa [same]
  rw [if_neg trivial,divideSignedWires,if_neg trivial,divideSignedAnds,if_neg trivial]
  have sign := h.sign (by omega)
  refine (draws_magnitude hn short h).bind fun magnitude e₁ _ g₁ h₁ => ?_
  refine (draws_constant env false).bind_free fun zero e₂ _ g₂ hz => ?_
  refine (draws_constantWord env (by decide) (by decide)
    (by omega : div<2^9)).bind_wires fun den e₃ _ g₃ hd => ?_
  have word := (h₁.later (g₂.trans g₃)).word
  generalize hbits : (range n).map x.natAbs.testBit=bits at word
  have count : bits.length=n := by rw [← hbits,length_map,length_range]
  have value : wordValue bits=x.natAbs := by
    rw [← hbits,wordValue_testBit,mod_eq_of_lt h₁.lt]
  have looped : Draws iss.hash start (magnitude.reverse.foldlM
      (iss.divideSignedBit den div) (replicate 9 zero,[])) e₃
      ((112+2*onesBelow 9 div)*bits.reverse.length)
      ((36+onesBelow 9 div)*bits.reverse.length) _ :=
    foldlM_each (g := fun c b => b::c) (V := fun w b e => e.Has env w b ∧
      HasNumber env den 9 div e) (fun _ _ _ _ _ h g => ⟨h.1.later
      g,h.2.later g⟩) (fun out c e => Divided env 9 div out c e) (c := [])
      (rel_reverse (word.imp fun _ _ has => ⟨has,hd⟩))
      ⟨(zeros (hz.later g₃) 9).cast rfl (zero_mod _).symm,
        Draft.HasNumber.nil.cast rfl (Nat.zero_div _).symm⟩
      fun state c e w b _ hw hs => draws_divideSignedBit (by omega) bounds.2 hw.2 hs hw.1
  rw [length_reverse,count,foldl_cons] at looped
  refine looped.bind fun out e₄ _ g₄ h₄ => ?_
  have remainder := h₄.remainder
  have quotient := h₄.quotient
  rw [value] at remainder quotient
  rw [count] at quotient
  refine (draws_compareUnsignedToConstant (by decide) (by decide) (by omega) remainder).bind
    fun compared e₅ _ g₅ h₅ => ?_
  refine (draws_xor h₅.1 h₅.2).bind_free fun atOrBelow e₆ _ g₆ h₆ => ?_
  refine (draws_not h₆).bind_free fun aboveHalf e₇ _ g₇ h₇ => ?_
  have g₅₇ := (g₅.trans g₆).trans g₇
  have tie : Draws iss.hash start (if div%2=0
      then iss.and compared.2 (out.2.getD 0 ⟨0,0⟩) else Pure.pure zero) e₇
      (if div%2 = 0 then 1 else 0) (if div%2 = 0 then 1 else 0) fun w e => e.Has env w
        (decide (x.natAbs%div=div/2) && (decide (div%2=0) &&
          decide (x.natAbs/div%2=1))) := by
    split
    · next even =>
      rw [decide_eq_true even]
      exact draws_and (h₅.2.later (g₆.trans g₇)) ((quotient.parity (by omega) ⟨0,0⟩).later g₅₇)
    · next odd =>
      rw [decide_eq_false odd,Bool.false_and,Bool.and_false]
      exact pure (hz.later ((g₃.trans g₄).trans g₅₇))
  refine tie.bind fun tieAndOdd e₈ _ g₈ h₈ => ?_
  refine (draws_xor (h₇.later g₈) h₈).bind_free fun carry e₉ _ g₉ h₉ => ?_
  have g₅₉ := g₅₇.trans (g₈.trans g₉)
  refine (draws_increment (quotient.later g₅₉) h₉).bind fun rounded e₁₀ _ g₁₀ h₁₀ => ?_
  have carried : (!(decide (x.natAbs%div<div/2) ^^ decide (x.natAbs%div=div/2)) ^^
      (decide (x.natAbs%div=div/2) && (decide (div%2=0) &&
        decide (x.natAbs/div%2=1)))) = decide (div<2*(x.natAbs%div) ∨
          (2*(x.natAbs%div)=div ∧ x.natAbs/div%2=1)) := by
    rw [round_carry,decide_eq_decide]
    simp only [Bool.and_eq_true,decide_eq_true_eq]
    omega
  have bound : x.natAbs≤2^(n-1) := by
    have cast : ((2^(n-1):ℕ):ℤ)=2^(n-1) := by push_cast; rfl
    have := h.2
    omega
  have double : 2^n=2*2^(n-1) := by rw [← pow_succ',Nat.sub_add_cancel (by omega)]
  have halv := two_mul_roundNat_le x.natAbs (show 2 ≤ div by omega)
  have two : 2≤2^(n-1) := Nat.le_self_pow (by omega) 2
  have exact : (x.natAbs/div+(decide (div<2*(x.natAbs%div) ∨
      (2*(x.natAbs%div)=div ∧ x.natAbs/div%2=1))).toNat)%2^n =
        roundNat x.natAbs div := mod_eq_of_lt (by rw [← roundNat]; omega)
  rw [carried,exact] at h₁₀
  refine (draws_signed (by omega) (by omega) (by omega) h₁₀ (sign.later ((((g₁.trans g₂).trans
    g₃).trans g₄).trans (g₅₉.trans g₁₀)))).mono fun out e _ _ has => ?_
  rw [roundQuotient_natAbs x (show 0 < div by omega)]
  simpa only [decide_eq_true_eq] using has

lemma signed_round (x m : ℤ) (k : ℕ) (hq : 0<q) :
    (if (if m < 0 then !decide (x<0) else decide (x<0))=true
      then -(roundNat (x.natAbs*m.natAbs*k) q:ℤ) else roundNat (x.natAbs*m.natAbs*k) q) =
      roundQuotient (x*m*k) q := by
  have abs : x.natAbs*m.natAbs*k=(x*m*k).natAbs := by
    rw [Int.natAbs_mul,Int.natAbs_mul,Int.natAbs_natCast]
  rw [abs,roundQuotient_natAbs (x*m*k) hq]
  by_cases zero : x*m*k=0
  · have none : roundNat 0 q=0 := by
      rw [roundNat,Nat.zero_div,zero_add]
      simp
    simp [zero,none]
  · obtain ⟨hxm,hk⟩ := mul_ne_zero_iff.mp zero
    obtain ⟨hx,hm⟩ := mul_ne_zero_iff.mp hxm
    have pos : (0:ℤ)<k := by omega
    have sign : x*m*k<0 ↔ x*m<0 := ⟨fun h => by
      by_contra up
      exact absurd (mul_nonneg (not_lt.mp up) pos.le) (not_le.mpr h),fun h => mul_neg_of_neg_of_pos h pos⟩
    congr 1
    rw [sign]
    rcases lt_or_gt_of_ne hx with x₀ | x₀ <;> rcases lt_or_gt_of_ne hm with m₀ | m₀
    · simp [x₀,m₀,(mul_pos_of_neg_of_neg x₀ m₀).le]
    · simp [x₀,m₀.le,mul_neg_of_neg_of_pos x₀ m₀]
    · simp [x₀.le,m₀,mul_neg_of_pos_of_neg x₀ m₀]
    · simp only [if_neg m₀.not_gt,decide_eq_true_eq,x₀.not_gt,(mul_pos x₀ m₀).not_gt]

lemma draws_productSign (h : d.Has env w (decide (x<0))) (m : ℤ) :
    Draws iss.hash start (if m < 0 then iss.not w else Pure.pure w : Drawing BooleanWire) d
      (if m < 0 then 1 else 0) 0 fun w e => e.Has env w (if m < 0 then !decide (x<0) else decide (x<0)) := by
  by_cases neg : m<0
  · simp only [if_pos neg]
    exact draws_not h
  · simp only [if_neg neg]
    exact pure h

def multiplySignedWires (n : ℕ) (factor : ℤ) (shift outW : ℕ) : ℕ :=
  if factor=0 then outW
  else (if factor < 0 then 1 else 0)+(3*n+((onesBelow 128 factor.natAbs*(5*(n+28)+1)+1)+
    ((2*shift+2*outW+9)+3*outW)))

def multiplySignedAnds (n : ℕ) (factor : ℤ) (shift outW : ℕ) : ℕ :=
  if factor=0 then 0
  else n+(onesBelow 128 factor.natAbs*(2*(n+28))+((shift+1+1+outW)+outW))

variable {factor : ℤ} {shift outW : ℕ}

lemma draws_multiplySigned (hn : 2≤n ∧ n≤32) (hf : factor.natAbs≤2^27) (hs : 1 ≤ shift ∧ shift≤30)
    (ho : n+28-shift+1≤outW ∧ outW≤64) (fits : factor=0 ∨ shift<n+28) (h : HasInteger env ws n x d)
    : Draws iss.hash start (iss.multiplySignedByPublicRoundTiesEven ws factor shift outW) d
    (multiplySignedWires n factor shift outW) (multiplySignedAnds n factor shift outW)
    fun out e => HasInteger env out outW (roundQuotient (x*factor) (2^shift:ℕ)) e := by
  have len := h.1.length
  rw [multiplySignedByPublicRoundTiesEven,if_neg (by omega)]
  refine (draws_requireWires iss h.1.word).bind_none fun _ e₀ _ g₀ _ => ?_
  replace h := h.later g₀
  by_cases zero : factor=0
  · subst zero
    refine mono (draws_constantWord env (by omega) (by omega)
      (Nat.two_pow_pos _)) fun out e _ _ has => ?_
    have none : roundQuotient (x*0) (2^shift:ℕ)=0 := by
      have pos := Nat.two_pow_pos shift
      rw [mul_zero,show (0:ℤ)=(0:ℕ) from rfl,roundQuotient_natCast,roundNat,
        Nat.zero_div,zero_mod,zero_add]
      simp
    rw [none]
    have pos : (0:ℤ)<2^(outW-1) := by positivity
    exact ⟨has.cast rfl (by simp),by omega,pos⟩
  have inside := fits.resolve_left zero
  rw [if_neg zero,multiplySignedWires,if_neg zero,multiplySignedAnds,if_neg zero,len]
  refine (draws_productSign (h.sign (by omega)) factor).bind_wires fun sign e₁ _ g₁ h₁ => ?_
  refine (draws_magnitude hn.1 (by omega) (h.later g₁)).bind fun magnitude e₂ _ g₂ h₂ => ?_
  refine (draws_multiplyByPublic (by omega) (show 0 < n+28 by omega) (by omega)
    (lt_of_le_of_lt hf (by norm_num)) h₂).bind fun product e₃ _ g₃ h₃ => ?_
  have bound : x.natAbs≤2^(n-1) := by
    have cast : ((2^(n-1):ℕ):ℤ)=2^(n-1) := by push_cast; rfl
    have := h.2
    omega
  have product₀ : x.natAbs*factor.natAbs≤2^(n+26) := by
    calc x.natAbs*factor.natAbs≤2^(n-1)*2^27 := Nat.mul_le_mul bound hf
      _ = 2^(n+26) := by rw [← pow_add]; congr 1; omega
  have narrow : x.natAbs*factor.natAbs<2^(n+28) :=
    lt_of_le_of_lt product₀ (Nat.pow_lt_pow_right one_lt_two (by omega))
  rw [mod_eq_of_lt narrow] at h₃
  refine (draws_roundShiftTiesEven hs.1 inside (by omega) ho.1 (by omega) h₃).bind
    fun rounded e₄ _ g₄ h₄ => ?_
  have room : roundNat (x.natAbs*factor.natAbs) (2^shift)<2^(outW-1) := by
    have quotient : x.natAbs*factor.natAbs/2^shift<2^(n+27-shift) := by
      rw [Nat.div_lt_iff_lt_mul (by positivity),← pow_add]
      exact lt_of_le_of_lt product₀ (Nat.pow_lt_pow_right one_lt_two (by omega))
    have step : 2^(n+27-shift)<2^(outW-1) := Nat.pow_lt_pow_right one_lt_two (by omega)
    have := roundNat_le (x.natAbs*factor.natAbs) (2^shift)
    omega
  refine (draws_signed (by omega) (by omega) room h₄ (h₁.later ((g₂.trans g₃).trans g₄))).mono
    fun out e _ _ has => ?_
  have rounded := signed_round x factor 1 (Nat.two_pow_pos shift)
  rw [mul_one,Nat.cast_one,mul_one] at rounded
  rwa [rounded] at has

/-- One round of the division of a public number, whatever the remainder so far. -/
lemma draws_dividePublicBit {width r q : ℕ} (short : width+1≤128)
    (hd : HasNumber env den (width+1) v d) (bit : Bool) (hr : HasNumber env state.1 (width+1) r d) (hq :
    HasNumber env state.2 m q d) :
    Draws iss.hash start (iss.dividePublicBit den state bit) d
      (10*(width+1)+3) (3*(width+1)) fun out e =>
      HasNumber env out.1 (width+1) (if bit.toNat+2*(r%2^width)<v
        then bit.toNat+2*(r%2^width) else bit.toNat+2*(r%2^width)-v) e ∧
      HasNumber env out.2 (m+1) ((!decide (bit.toNat+2*(r%2^width)<v)).toNat+2*q) e := by
  rw [dividePublicBit,show 3*(width+1)=2*(width+1)+(width+1) by ring,
    show 10*(width+1)+3=(7*(width+1)+1)+(3*(width+1)+1)+1 by ring,hr.length,Nat.add_sub_cancel]
  refine (draws_constant env bit).bind_free fun incoming e₁ _ g₁ h₁ => ?_
  have shifted := Draft.HasNumber.cons h₁ ((hr.later g₁).take (k := width) (by omega))
  refine (draws_subtractUnsigned (by omega) short shifted (hd.later g₁)).bind
    fun difference e₂ _ g₂ h₂ => ?_
  refine (draws_not h₂.2).bind_free fun greaterOrEqual e₃ _ g₃ h₃ => ?_
  refine (mono (draws_selectWord (by omega) short h₃ (shifted.later (g₂.trans g₃))
    (h₂.1.later g₃)) fun out e _ g₄ has => ?_).bind_pure
  refine ⟨has.cast rfl ?_,Draft.HasNumber.cons (h₃.later g₄)
    (hq.later (((g₁.trans g₂).trans g₃).trans g₄))⟩
  by_cases less : bit.toNat+2*(r%2^width)<v <;> simp [less]

/-- The quotient a restoring division leaves: all ones where the divisor is zero. -/
def restoredQuotient (num width div : ℕ) : ℕ :=
  if div=0 then 2^width-1 else num/div

lemma draws_dividePublicBySecret {num : ℕ} (pos : 0<num) (hn : 0<n) (short : n≤127)
    (h : HasNumber env ws n v d) : Draws iss.hash start (iss.dividePublicBySecret num ws) d
    ((10*(n+1)+3)*num.size+1) (3*(n+1)*num.size) fun out e => HasNumber env out num.size
    (restoredQuotient num num.size v) e := by
  have len := h.length
  have operands : ¬(num=0 ∨ ws=[] ∨ ws.length>127) := by
    rintro (zero | rfl | wide)
    · omega
    · rw [length_nil] at len
      omega
    · omega
  rw [dividePublicBySecret,if_neg operands]
  refine (draws_constant env false).bind_free fun zero e _ grown hz => ?_
  have extended : HasNumber env (ws++[zero]) (n+1) v e :=
    ((h.later grown).append (zeros hz 1)).cast rfl (by rw [mul_zero,add_zero])
  have word : num=wordValue ((range num.size).map num.testBit) := by
    rw [wordValue_testBit,mod_eq_of_lt (Nat.lt_size_self num)]
  generalize hbits : (range num.size).map num.testBit=bits at word
  have count : bits.length=num.size := by rw [← hbits,length_map,length_range]
  have small := h.lt
  have looped : Draws iss.hash start (bits.reverse.foldlM (iss.dividePublicBit (ws++[zero]))
      (replicate (ws++[zero]).length zero,[])) e ((10*(n+1)+3)*bits.reverse.length)
      (3*(n+1)*bits.reverse.length) _ :=
    foldlM_each (g := fun c b => b::c) (V := fun x b e => x=b ∧ HasNumber env (ws
      ++ [zero]) (n+1) v e) (fun _ _ _ _ _ h g => ⟨h.1,h.2.later g⟩)
      (fun out c e => (∃ r,HasNumber env out.1 (n+1) r e ∧ (v≠0 → r = wordValue c%v)) ∧
        HasNumber env out.2 c.length (restoredQuotient (wordValue c) c.length v) e)
      (c := []) (forall₂_same.mpr fun _ _ => ⟨rfl,extended⟩)
      ⟨⟨0,(zeros hz _).cast (by rw [length_append,len]; rfl) rfl,
        fun _ => (zero_mod v).symm⟩,Draft.HasNumber.nil.cast rfl (by
          rw [restoredQuotient]
          split <;> simp [wordValue])⟩
      fun state c e x bit _ hx hs => by
        obtain ⟨rfl,here⟩ := hx
        obtain ⟨⟨r,remainder,exact⟩,quotient⟩ := hs
        refine (draws_dividePublicBit (by omega) here x remainder quotient).mono
          fun out e _ _ next => ⟨⟨_,next.1,fun nonzero => ?_⟩,next.2.cast rfl ?_⟩
        · obtain ⟨step,-⟩ := divide_step (pos_of_ne_zero nonzero) x (wordValue c)
          have below := mod_lt (wordValue c) (pos_of_ne_zero nonzero)
          rw [exact nonzero,wordValue,step,mod_eq_of_lt (b := 2^n) (by omega)]
        · rw [restoredQuotient,restoredQuotient]
          by_cases nonzero : v=0
          · have pos := Nat.two_pow_pos c.length
            rw [if_pos nonzero,nonzero,length_cons,pow_succ]
            simp
            omega
          · obtain ⟨-,step⟩ := divide_step (pos_of_ne_zero nonzero) x (wordValue c)
            have below := mod_lt (wordValue c) (pos_of_ne_zero nonzero)
            rw [if_neg nonzero,if_neg nonzero,exact nonzero,wordValue,step,
              mod_eq_of_lt (b := 2^n) (by omega)]
  rw [length_reverse,count,foldl_cons] at looped
  refine (looped.mono fun out e _ _ has => ?_).bind_pure
  have quotient := has.2
  rwa [← word,count] at quotient

/-- A shift of the whole product is refused by the rounding. -/
lemma multiplySigned_refused (sound : Sound iss.hash start d) (room : Room d 0) (hn : 2≤n ∧ n≤32)
    (hf : factor.natAbs≤2^27) (hs : 1 ≤ shift ∧ shift≤30) (ho : n+28-shift+1≤outW ∧ outW≤64) (wide :
    factor≠0 ∧ n+28 ≤ shift) (h : HasInteger env ws n x d) (result : List BooleanWire × Draft) :
    iss.multiplySignedByPublicRoundTiesEven ws factor shift outW d ≠ .ok result := by
  intro run
  have len := h.1.length
  rw [multiplySignedByPublicRoundTiesEven,if_neg (by omega),run_bind_ok] at run
  obtain ⟨_,e₀,run₀,run⟩ := run
  obtain ⟨-,sound,room,⟨_,g₀⟩,-⟩ :=
    (draws_requireWires iss h.1.word).ok sound room run₀
  replace h := h.later g₀
  rw [if_neg wide.1,run_bind_ok] at run
  obtain ⟨sign,e₁,run₁,run⟩ := run
  obtain ⟨-,sound,room,⟨_,g₁⟩,-⟩ :=
    (draws_productSign (h.sign (by omega)) factor).ok sound room run₁
  obtain ⟨magnitude,e₂,run₂,run⟩ := run_bind_ok.mp run
  obtain ⟨h₂,sound,room,-,-⟩ :=
    (draws_magnitude hn.1 (by omega) (h.later g₁)).ok sound room run₂
  obtain ⟨product,e₃,run₃,run⟩ := run_bind_ok.mp run
  obtain ⟨h₃,-⟩ := (draws_multiplyByPublic (by omega) (by omega) (by omega)
    (lt_of_le_of_lt hf (by norm_num)) h₂).ok sound room run₃
  obtain ⟨rounded,e₄,run₄,-⟩ := run_bind_ok.mp run
  rw [roundShiftTiesEven,if_pos (by rw [h₃.length]; omega)] at run₄
  cases run₄

end

/-- The gadgets on every sound draft, every width and every value: signed division and the signed
product with a public factor round to the nearest integer with ties to even, and the division of a
public number is the floor. -/
theorem builder_arithmetic (iss : Issuer) (start : BooleanCircuitBuilder) (env : List Bool)
    (d : Draft) (ws : List BooleanWire) (n : ℕ) :
    (∀ (x : ℤ) (div : ℕ),2≤n ∧ n≤64 → 1≤div ∧ div≤256 →
      Draft.HasInteger env ws n x d →
      Draws iss.hash start (iss.divideSignedByPublicTiesEven ws div) d
        (divideSignedWires n div) (divideSignedAnds n div) fun out e =>
        ∃ q,Draft.HasInteger env out n q e ∧ IsNearestEven q ((x:ℝ)/div)) ∧
    (∀ (x factor : ℤ) (shift outW : ℕ),2≤n ∧ n≤32 → factor.natAbs≤2^27 → 1 ≤ shift ∧ shift≤30 →
      n+28-shift+1≤outW ∧ outW≤64 → Draft.HasInteger env ws n x d →
      (factor=0 ∨ shift<n+28 →
        Draws iss.hash start (iss.multiplySignedByPublicRoundTiesEven ws factor shift
          outW) d (multiplySignedWires n factor shift outW)
          (multiplySignedAnds n factor shift outW) fun out e =>
          ∃ q,Draft.HasInteger env out outW q e ∧
            IsNearestEven q ((x*factor:ℝ)/2^shift)) ∧
      (factor≠0 ∧ n+28 ≤ shift → Sound iss.hash start d → Room d 0 → ∀ result,
        iss.multiplySignedByPublicRoundTiesEven ws factor shift outW d ≠ .ok result)) ∧
    (∀ num v : ℕ,0<num → 0<n ∧ n≤127 → Draft.HasNumber env ws n v d →
      v≠0 → Draws iss.hash start (iss.dividePublicBySecret num ws) d
        ((10*(n+1)+3)*num.size+1) (3*(n+1)*num.size) fun out e =>
        Draft.HasNumber env out num.size (num/v) e) := by
  refine ⟨fun x div hn bounds h => ?_,fun x factor shift outW hn hf hs ho h =>
    ⟨fun fits => ?_,fun wide sound room result =>
      multiplySigned_refused sound room hn hf hs ho wide h result⟩,fun num v pos hn h nonzero => ?_⟩
  · refine (draws_divideSigned hn.1 hn.2 bounds h).mono fun out e _ _ has => ⟨_,has,?_⟩
    have nearest := isNearestEven_roundQuotient x (show (0:ℤ)<div by omega)
    rwa [Int.cast_natCast] at nearest
  · refine (draws_multiplySigned hn hf hs ho fits h).mono fun out e _ _ has => ⟨_,has,?_⟩
    have nearest := isNearestEven_roundQuotient (x*factor)
      (show (0:ℤ)<(2^shift:ℕ) by exact_mod_cast Nat.two_pow_pos shift)
    push_cast at nearest ⊢
    exact nearest
  · refine (draws_dividePublicBySecret pos hn.1 hn.2 h).mono fun out e _ _ has => has.cast rfl ?_
    rw [restoredQuotient,if_neg nonzero]

/-- One over three, one times three over two, and five over one. -/
theorem builder_arithmetic_one : ∃ (iss : Issuer) (d : Draft) (ws : List BooleanWire),
    Draft.HasInteger [] ws 2 1 d ∧ (∃ out e q,iss.divideSignedByPublicTiesEven ws 3 d =
    .ok (out,e) ∧ Draft.HasInteger [] out 2 q e ∧ IsNearestEven q (((1:ℤ):ℝ)/(3:ℕ))) ∧
    (∃ out e q,iss.multiplySignedByPublicRoundTiesEven ws 3 1 30 d = .ok (out,e) ∧ Draft.HasInteger
    [] out 30 q e ∧ IsNearestEven q (((1:ℤ)*(3:ℤ):ℝ)/2^1)) ∧ ∃ out e,iss.dividePublicBySecret
    5 ws d = .ok (out,e) ∧ Draft.HasNumber [] out (Nat.size 5) (5/1) e := by
  let iss : Issuer := ⟨fun _ _ _ _ => 0,fun _ => 0⟩
  obtain ⟨d,zero,one,sound,room,hz,ho,-,fits⟩ := constants_drawn iss
  have word : Draft.HasNumber [] [one,zero] 2 1 d := Draft.HasNumber.cons ho (Draft.HasNumber.zeros hz 1)
  have number : Draft.HasInteger [] [one,zero] 2 1 d := ⟨word,by decide⟩
  obtain ⟨divide,multiply,quotient⟩ := builder_arithmetic iss (.new 0 0) [] d [one,zero] 2
  have size : Nat.size 5≤3 := Nat.size_le.mpr (by decide)
  obtain ⟨out,e,-,run,-,-,-,q,has,near⟩ := (divide 1 3 (by decide) (by decide) number sound room).1
    (fits _ _ (by decide +kernel) (by decide +kernel))
  obtain ⟨out',e',-,run',-,-,-,q',has',near'⟩ := ((multiply 1 3 1 30 (by decide) (by decide)
    (by decide) (by decide) number).1 (.inr (by decide)) sound room).1
      (fits _ _ (by decide +kernel) (by decide +kernel))
  obtain ⟨out'',e'',-,run'',-,-,-,has''⟩ := (quotient 5 1 (by decide) (by decide) word
    one_ne_zero sound room).1 (fits _ _ (by rw [maxReferenceWires]; omega)
      (by rw [maxReferenceAndGates]; omega))
  exact ⟨iss,d,_,number,⟨out,e,q,run,has,near⟩,⟨out',e',q',run',has',near'⟩,out'',e'',run'',has''⟩

end Pllm.Garble
