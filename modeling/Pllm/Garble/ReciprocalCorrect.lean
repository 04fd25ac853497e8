import Pllm.Garble.DivisionCorrect

/-! The reciprocal square root of the circuit builder: the bits of the root found one by one, and the
last rounding by an exact comparison with the half-way point. -/
namespace Pllm.Garble
open Pllm.Lib Retained Draft.HasNumber Draft List Issuer

/-- The root after the trials of the bits below `k`. -/
def plainRoot (quotient : ℕ) : ℕ → ℕ → ℕ
  | 0, r => r
  | k+1, r => plainRoot quotient k (if (r+2^k)^2 ≤ quotient then r+2^k else r)

lemma plainRoot_spec (quotient : ℕ) (k : ℕ) {r : ℕ} (low : r^2≤quotient) (high : quotient<(r+2^k)^2)
    : plainRoot quotient k r^2 ≤ quotient ∧ quotient < (plainRoot quotient k r+1)^2 := by
  induction k generalizing r with
  | zero => exact ⟨low,high⟩
  | succ k ih =>
    rw [plainRoot]
    split
    · next fits =>
      refine ih fits ?_
      rwa [add_assoc,← two_mul,← pow_succ']
    · next exceeds => exact ih low (not_le.mp exceeds)

section
variable {env : List Bool} {d : Draft} {start : BooleanCircuitBuilder} {iss : Issuer}
  {ws : List BooleanWire} {n v : ℕ}

section
variable {zero one : BooleanWire} {quotient : List BooleanWire} {q bits width : ℕ}

lemma Draft.HasNumber.set {w : BooleanWire} {b : Bool} {i : ℕ} (hi : i<n)
    (free : 2^(i+1) ∣ v) (h : HasNumber env ws n v d) (hw : d.Has env w b) :
    HasNumber env (ws.set i w) n (v+b.toNat*2^i) d := by
  have inside : i<ws.length := h.length.symm ▸ hi
  rw [set_eq_take_append_cons_drop,if_pos inside]
  refine ((h.take hi.le).append (cons hw (h.drop (k := i+1) (by omega)))).cast
    (by omega) ?_
  obtain ⟨q,rfl⟩ := free
  have low : 2^(i+1)*q%2^i=0 :=
    Nat.mod_eq_zero_of_dvd (Dvd.dvd.mul_right (pow_dvd_pow 2 (by omega)) q)
  rw [low,Nat.mul_div_cancel_left _ (Nat.two_pow_pos _)]
  ring

/-- One trial: its square is compared with the quotient. -/
lemma draws_rootBit {k : ℕ} (hk : k<bits) (narrow : 2*bits≤width) (short : width≤128) (free :
    2^(k+1) ∣ v) (hz : d.Has env zero false) (ho : d.Has env one true) (hq :
    HasNumber env quotient width q d) (h : HasNumber env ws bits v d) :
    Draws iss.hash start (iss.rootBit zero one quotient ws k) d
      ((11*bits+1)*bits+1+(7*width+2+1)) (5*bits*bits+3*width) fun out e => HasNumber env out bits (if (v+2^k)^2 ≤ q then v+2^k else v) e := by
  have trial := (h.set hk free ho).cast rfl
    (show v+true.toNat*2^k = v+2^k by rw [Bool.toNat_true,one_mul])
  refine (draws_multiplyUnsigned (by omega) (by omega) trial trial).bind fun square e₁ _ g₁ h₁ => ?_
  rw [← add_zero (3*width),hq.length]
  refine (draws_compareUnsigned (by omega) short (h₁.resized (hz.later g₁) narrow)
    (hq.later g₁)).bind fun compared e₂ _ g₂ h₂ => ?_
  refine (draws_xor h₂.1 h₂.2).bind_free fun kept e₃ _ g₃ h₃ => Draws.pure ?_
  refine ((h.later ((g₁.trans g₂).trans g₃)).set hk free h₃).cast rfl ?_
  rw [← sq]
  rcases lt_trichotomy ((v+2^k)^2) q with less | equal | more
  · simp [less,less.le,less.ne]
  · simp [equal]
  · simp [more.not_ge,more.not_gt,more.ne']

lemma draws_roots (narrow : 2*bits≤width) (short : width≤128) (k : ℕ) (hk : k≤bits) (free : 2^k ∣ v)
    (hz : d.Has env zero false) (ho : d.Has env one true) (hq : HasNumber env quotient width q d)
    (h : HasNumber env ws bits v d) : Draws iss.hash start ((range k).reverse.foldlM
    (iss.rootBit zero one quotient) ws) d (k*((11*bits+1)*bits+1+(7*width+2+1)))
    (k*(5*bits*bits+3*width)) fun out e => HasNumber env out bits (plainRoot q k v) e := by
  induction k generalizing ws v d with
  | zero =>
    rw [zero_mul,zero_mul]
    exact Draws.pure h
  | succ k ih =>
    rw [range_succ,reverse_append,reverse_singleton,singleton_append,
      foldlM_cons,Nat.succ_mul k,Nat.succ_mul k,add_comm (k*_),add_comm (k*_)]
    refine (draws_rootBit hk narrow short free hz ho hq h).bind fun out e _ g has => ?_
    refine ih (by omega) ?_ (hz.later g) (ho.later g) (hq.later g) has
    have coarse : 2^k ∣ v := (pow_dvd_pow 2 (Nat.le_succ k)).trans free
    split
    · exact (Nat.dvd_add_right coarse).mpr dvd_rfl
    · exact coarse

end

/-- Numerator and denominator under the root. -/
def rootNumerator (rowW frac : ℕ) : ℕ := rowW*1000000*2^(2*frac)

def rootDenominator (sum rowW : ℕ) : ℕ := sum*1000000+rowW*1048576

section
variable {sum rowW frac : ℕ}

variable (frac) in
lemma rootNumerator_lt (hw : rowW≤8192) : 4*rootNumerator rowW frac < 2^(2*frac+66) := by
  have small : 4*(rowW*1000000)<2^66 := by omega
  rw [rootNumerator,← mul_assoc,add_comm,pow_add]
  exact mul_lt_mul_of_pos_right small (Nat.two_pow_pos _)

lemma rootDenominator_lt (hs : sum<2^44) (hw : rowW≤8192) : rootDenominator sum rowW < 2^64 := by
  rw [rootDenominator]
  omega

variable (sum frac) in
lemma rootQuotient_lt (hw : 1 ≤ rowW) :
    rootNumerator rowW frac < 2^(2*frac)*rootDenominator sum rowW := by
  have small : rowW*1000000 < rootDenominator sum rowW := by
    rw [rootDenominator]
    omega
  rw [rootNumerator,mul_comm]
  exact mul_lt_mul_of_pos_left small (Nat.two_pow_pos _)

lemma root_fits {r : ℕ} (hw : 1 ≤ rowW) (hf : 5≤frac) (low : (2*r+1)^2*rootDenominator
    sum rowW ≤ 4*rootNumerator rowW frac) : r+1<2^frac := by
  by_contra large
  have wide : 2^5≤2^frac := Nat.pow_le_pow_right two_pos hf
  generalize hB : 2^frac=B at *
  have bound : (2*B-1)^2*(rowW*1048576) ≤ 4*(rowW*1000000*B^2) := by
    calc (2*B-1)^2*(rowW*1048576) ≤ (2*r+1)^2*rootDenominator sum rowW :=
          mul_le_mul' (Nat.pow_le_pow_left (by omega) 2) (by rw [rootDenominator]; omega)
      _ ≤ 4*rootNumerator rowW frac := low
      _ = 4*(rowW*1000000*B^2) := by rw [rootNumerator,mul_comm 2,pow_mul,hB]
  have cancelled : (2*B-1)^2*1048576≤4000000*B^2 := by
    refine Nat.le_of_mul_le_mul_left ?_ (show 0 < rowW by omega)
    calc rowW*((2*B-1)^2*1048576) = (2*B-1)^2*(rowW*1048576) := by ring
      _ ≤ 4*(rowW*1000000*B^2) := bound
      _ = rowW*(4000000*B^2) := by ring
  obtain ⟨c,rfl⟩ : ∃ c,B=c+32 := ⟨B-32,by omega⟩
  rw [show 2*(c+32)-1=2*c+63 by omega] at cancelled
  nlinarith

end

/-- The wires and the AND gates of a reciprocal square root. -/
def reciprocalWires (rowW frac : ℕ) : ℕ :=
  let quotientBits := (rootNumerator rowW frac).size
  onesBelow 128 1000000*(5*64+1)+1+(64+(5*64+1+((10*(64+1)+3)*quotientBits+1+
    (frac*((11*frac+1)*frac+1+(7*quotientBits+2+1))+
      ((11*(frac+1)+1)*(frac+1)+1+
        ((2*(frac+1)+(5*(2*(frac+1)+64)+1))*64+1+
          (2*((2*frac+66)+onesBelow (2*frac+66)
            (4*rootNumerator rowW frac))+2+(2*frac+1+1))))+1+1))))

def reciprocalAnds (rowW frac : ℕ) : ℕ :=
  let quotientBits := (rootNumerator rowW frac).size
  onesBelow 128 1000000*(2*64)+(2*64+(3*(64+1)*quotientBits+
    (frac*(5*frac*frac+3*quotientBits)+
      (5*(frac+1)*(frac+1)+
        ((2*(frac+1)+2*(2*(frac+1)+64))*64+
          ((2*frac+66)+onesBelow (2*frac+66)
            (4*rootNumerator rowW frac)+(frac+1)))))))

lemma onesBelow_le (k v : ℕ) : onesBelow k v ≤ k := by
  refine count_le_length.trans ?_
  rw [length_map,length_range]

lemma reciprocal_le {rowW : ℕ} (hw : rowW≤8192) :
    reciprocalWires rowW 30 ≤ 2^19 ∧ reciprocalAnds rowW 30 ≤ 2^19 := by
  have fourN := rootNumerator_lt 30 hw
  have size : (rootNumerator rowW 30).size ≤ 126 := Nat.size_le.mpr (by omega)
  have ones := onesBelow_le 126 (4*rootNumerator rowW 30)
  have ones' := onesBelow_le 128 1000000
  rw [reciprocalWires,reciprocalAnds]
  generalize onesBelow 126 (4*rootNumerator rowW 30)=b at ones ⊢
  omega

lemma draws_checked {m : ℕ} {message : String} (h : m<2^128) :
    Draws iss.hash start (checkedU128 m message) d 0 0 fun out _ => out=m := by
  rw [checkedU128,if_pos h]
  exact Draws.pure rfl

lemma draws_reciprocalSqrtQ {rowW frac : ℕ} (hn : 1≤n ∧ n≤44)
    (hw : 1 ≤ rowW ∧ rowW≤8192) (hf : 5≤frac ∧ frac≤30) (h : HasNumber env ws n v d) :
    Draws iss.hash start (iss.reciprocalSqrtQ ws rowW frac) d (reciprocalWires rowW frac)
    (reciprocalAnds rowW frac) fun out e => ∃ r, r^2*rootDenominator v rowW ≤
    rootNumerator rowW frac ∧ rootNumerator rowW frac < (r+1)^2*rootDenominator v rowW ∧
    HasNumber env out frac (roundRoot r (rootNumerator rowW frac) (rootDenominator v rowW)) e := by
  have len := h.length
  have operand : ¬(ws=[] ∨ ws.length>44 ∨ rowW=0 ∨ rowW>8192) := by
    rw [← length_eq_zero_iff]
    omega
  have sumBound : v<2^44 := h.lt.trans_le (Nat.pow_le_pow_right two_pos hn.2)
  have fourN := rootNumerator_lt frac hw.2
  have fourN' : 4*rootNumerator rowW frac < 2^128 :=
    fourN.trans_le (Nat.pow_le_pow_right two_pos (by omega))
  have hD := rootDenominator_lt sumBound hw.2
  have hQ := rootQuotient_lt v frac hw.1
  have posD : 0 < rootDenominator v rowW := by
    rw [rootDenominator]
    omega
  have posN : 0 < rootNumerator rowW frac := by
    exact mul_pos (by omega) (Nat.two_pow_pos _)
  have wideQ : 2*frac ≤ (rootNumerator rowW frac).size := by
    refine (Nat.lt_size.mpr ?_).le
    exact Nat.le_mul_of_pos_left _ (by omega)
  have shortQ : (rootNumerator rowW frac).size ≤ 128 := Nat.size_le.mpr (by omega)
  rw [reciprocalSqrtQ,if_neg operand,if_neg (by omega)]
  refine (draws_checked (by omega)).bind_none fun scaled e₀ _ g₀ hsca => ?_
  subst hsca
  have numerator : rowW*1000000*2^(2*frac)%2^128 =
      rootNumerator rowW frac := Nat.mod_eq_of_lt (by rw [← rootNumerator]; omega)
  rw [numerator]
  refine (draws_checked (by omega)).bind_none fun epsilon e₁ _ g₁ heps => ?_
  subst heps
  refine (draws_multiplyByPublic (by omega) (by decide) (by decide) (by norm_num)
    (h.later (g₀.trans g₁))).bind fun scaledSum e₂ _ g₂ h₂ => ?_
  refine (draws_constantWord env (by decide) (by decide)
    (by omega : rowW*1048576<2^64)).bind_wires fun epsilonWord e₃ _ g₃ h₃ => ?_
  refine (draws_addUnsigned (by decide) (h₂.later g₃) h₃).bind fun denominator e₄ _ g₄ h₄ => ?_
  replace h₄ := h₄.cast rfl (show _ = rootDenominator v rowW by
    rw [Nat.mod_add_mod,← rootDenominator,Nat.mod_eq_of_lt hD])
  refine (draws_dividePublicBySecret posN (by decide) (by decide) h₄).bind
    fun quotient e₅ _ g₅ h₅ => ?_
  rw [restoredQuotient,if_neg posD.ne'] at h₅
  refine (draws_constant env false).bind_free fun zero e₆ _ g₆ hz => ?_
  refine (draws_constant env true).bind_free fun one e₇ _ g₇ ho => ?_
  refine (draws_roots wideQ shortQ frac le_rfl (dvd_zero _) (hz.later g₇) ho
    (h₅.later (g₆.trans g₇)) (zeros (hz.later g₇) _)).bind
      fun result e₈ _ g₈ h₈ => ?_
  obtain ⟨low,high⟩ := plainRoot_spec (rootNumerator rowW frac/
    rootDenominator v rowW) frac (r := 0) (by simp) (by
      rw [zero_add,← pow_mul,mul_comm frac,Nat.div_lt_iff_lt_mul posD]
      exact hQ)
  generalize plainRoot _ frac 0=r at low high h₈
  rw [Nat.le_div_iff_mul_le posD] at low
  rw [Nat.div_lt_iff_lt_mul posD] at high
  have twice := cons (ho.later g₈) h₈
  refine (draws_multiplyUnsigned (by omega) (by omega) twice twice).bind
    fun thresholdSquare e₉ _ g₉ h₉ => ?_
  have since₄ := (((g₅.trans g₆).trans g₇).trans g₈).trans g₉
  refine (draws_multiplyUnsignedWide (by omega) (by decide) (by omega) h₉ (h₄.later since₄)).bind
    fun threshold e₁₀ _ g₁₀ h₁₀ => ?_
  rw [mul_comm _ 4]
  refine (draws_checked fourN').bind_none fun fourNumerator e₁₁ _ g₁₁ hfour => ?_
  subst hfour
  replace h₁₀ := h₁₀.cast (show 2*(frac+1)+64 = 2*frac+66 by ring)
    (show (1+2*r)*(1+2*r)*rootDenominator v rowW = (2*r+1)^2*rootDenominator v rowW by ring)
  refine (draws_compareUnsignedToConstant (by omega) (by omega) fourN (h₁₀.later g₁₁)).bind
    fun compared e₁₂ _ g₁₂ h₁₂ => ?_
  have since₈ := (((g₉.trans g₁₀).trans g₁₁).trans g₁₂)
  refine (draws_and h₁₂.2 ((h₈.parity (by omega) ⟨0,0⟩).later since₈)).bind_and
    fun equalAndOdd e₁₃ _ g₁₃ h₁₃ => ?_
  refine (draws_xor (h₁₂.1.later g₁₃) h₁₃).bind_free fun carry e₁₄ _ g₁₄ h₁₄ => ?_
  refine (draws_increment (h₈.later ((since₈.trans g₁₃).trans g₁₄)) h₁₄).mono
    fun out e _ _ has => ⟨r,low,high,has.cast rfl ?_⟩
  have small := h₈.lt
  have rounded : r+(decide ((2*r+1)^2*rootDenominator v rowW <
      4*rootNumerator rowW frac) ^^ (decide ((2*r+1)^2*rootDenominator v rowW =
        4*rootNumerator rowW frac) && decide (r%2=1))).toNat =
      roundRoot r (rootNumerator rowW frac) (rootDenominator v rowW) := by
    rw [roundRoot]
    rcases lt_trichotomy ((2*r+1)^2*rootDenominator v rowW)
      (4*rootNumerator rowW frac) with less | equal | more
    · simp [less,less.ne]
    · rcases Nat.mod_two_eq_zero_or_one r with even | odd
      · simp [equal,even]
      · simp [equal,odd]
    · simp [more.not_gt,more.ne',more]
  rw [rounded,Nat.mod_eq_of_lt]
  by_cases up : (2*r+1)^2*rootDenominator v rowW ≤ 4*rootNumerator rowW frac
  · have := root_fits hw.1 hf.1 up
    rw [roundRoot]
    split_ifs <;> omega
  · rw [roundRoot,if_neg (by omega),if_pos (by omega)]
    exact small

end

lemma sqrt_rootNumerator (sum rowW frac : ℕ) : √((rootNumerator rowW frac:ℝ)/rootDenominator
    sum rowW) = √((rowW*10^6*2^(2*frac):ℝ)/(10^6*sum+rowW*2^20)) := by
  rw [rootNumerator,rootDenominator]
  push_cast
  congr 2
  · norm_num
  · ring

/-- The reciprocal square root on every sum below `2^44`, every row width and every precision: the
nearest integer with ties to even, and every intermediate number within its word. -/
theorem reciprocal_sqrt_q :
    (∀ (iss : Issuer) (start : BooleanCircuitBuilder) (env : List Bool) (d : Draft) (ws :
      List BooleanWire) (n sum rowW frac : ℕ),1≤n ∧ n≤44 → 1 ≤ rowW ∧ rowW≤8192
      → 5≤frac ∧ frac≤30 → Draft.HasNumber env ws n sum d →
      Draws iss.hash start (iss.reciprocalSqrtQ ws rowW frac) d
        (reciprocalWires rowW frac) (reciprocalAnds rowW frac)
        fun out e => ∃ q : ℕ,
        Draft.HasNumber env out frac q e ∧ IsNearestEven q
          (√((rowW*10^6*2^(2*frac):ℝ)/(10^6*sum+rowW*2^20)))) ∧
    ∀ sum rowW frac : ℕ,sum<2^44 → 1 ≤ rowW ∧ rowW≤8192 → rootDenominator sum
      rowW < 2^64 ∧ rootNumerator rowW frac/rootDenominator sum rowW <
      2^(2*frac) ∧ 4*rootNumerator rowW frac < 2^(2*frac+66) ∧
      ∀ root<2^frac,
        (2*root+1)^2*rootDenominator sum rowW < 2^(2*(frac+1)+64) := by
  have positive : ∀ sum rowW : ℕ,1 ≤ rowW → 0 < rootDenominator sum rowW := by
    intro sum rowW hw
    rw [rootDenominator]
    omega
  refine ⟨fun iss start env d ws n sum rowW frac hn hw hf h => ?_,
    fun sum rowW frac small hw => ?_⟩
  · refine (draws_reciprocalSqrtQ hn hw hf h).mono fun out e _ _ has => ?_
    obtain ⟨r,low,high,number⟩ := has
    exact ⟨_,number,sqrt_rootNumerator .. ▸ isNearestEven_roundRoot (positive sum rowW hw.1) low
      high⟩
  · have hD := rootDenominator_lt small hw.2
    refine ⟨hD,?_,rootNumerator_lt frac hw.2,fun root short => ?_⟩
    · rw [Nat.div_lt_iff_lt_mul (positive sum rowW hw.1)]
      exact rootQuotient_lt sum frac hw.1
    · have square : (2*root+1)^2<2^(2*(frac+1)) := by
        rw [Nat.mul_comm 2 (frac+1),pow_mul]
        refine Nat.pow_lt_pow_left ?_ two_ne_zero
        omega
      rw [pow_add]
      exact Nat.mul_lt_mul'' square hD

/-- A circuit of one wire that carries a one, for a row of one square. -/
theorem reciprocal_sqrt_q_one : ∃ (iss : Issuer) (d e : Draft) (ws out : List BooleanWire)
    (q : ℕ),Sound iss.hash (.new 0 0) d ∧ Draft.HasNumber [] ws 1 1 d ∧
    iss.reciprocalSqrtQ ws 1 30 d = .ok (out,e) ∧ Draft.HasNumber [] out 30 q e ∧
    IsNearestEven q (√(((1:ℕ)*10^6*2^(2*30):ℝ)/(10^6*(1:ℕ)+(1:ℕ)*2^20))) := by
  let iss : Issuer := ⟨fun _ _ _ _ => 0,fun _ => 0⟩
  obtain ⟨d,_,one,sound,room,-,ho,-,fits⟩ := constants_drawn iss
  have word : Draft.HasNumber [] [one] 1 1 d := cons ho nil
  have small := reciprocal_le (show 1≤8192 by decide)
  have drawn := reciprocal_sqrt_q.1 iss (.new 0 0) [] d _ 1 1 1 30 (by decide) (by decide)
    (by decide) word
  obtain ⟨out,e,-,run,-,-,-,q,number,nearest⟩ := (drawn sound room).1
    (fits _ _ (by rw [maxReferenceWires]; omega) (by rw [maxReferenceAndGates]; omega))
  exact ⟨iss,d,e,_,out,q,sound,word,run,number,nearest⟩

end Pllm.Garble
