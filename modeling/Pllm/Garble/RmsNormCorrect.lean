import Pllm.Garble.ReciprocalCorrect
import Pllm.Rms.RmsNorm

/-! The protected RMS normalisation: its circuit computes the rows of the plain normalisation, and the
estimate counts its AND gates. -/
namespace Pllm.Garble
open Pllm.Lib Retained Draft List Issuer Rms

structure RmsNormQ10CircuitEstimate where
  andGateCount : ℕ
  evaluatorCiphertextBytes : ℕ

def checkedCount (n : ℕ) (message : String) : Except String ℕ :=
  if n<2^64 then .ok n else .error message

/-- `count_ones` of a word of so many bits. -/
def countOnes (width n : ℕ) : ℕ := ((List.range width).map n.testBit).count true

def estimateOutput (outputs : ℕ) (weight : BitVec 16) : Except String ℕ :=
  let inputBits := 16
  let frac := 30
  let variableProduct := frac*(6*inputBits+2*frac)
  let roundedOutput := frac+1+1+64+64
  let publicProduct := countOnes 16 weight.toInt.natAbs*4*inputBits
  checkedCount (outputs+(inputBits+publicProduct+variableProduct+roundedOutput))
    "RMSNorm estimate gate count overflows u64"

/-- The part of the circuit that finds the reciprocal, from its public numerator. -/
def estimateNormalizer (numerator : ℕ) : ℕ :=
  let frac := 30
  let denominatorBits := 64
  let quotientBits := numerator.size
  let denominator := countOnes 64 1000000*2*denominatorBits+2*denominatorBits
  let division := quotientBits*3*(denominatorBits+1)
  let rootSearch := frac*(5*frac*frac+3*quotientBits)
  let roundedRoot := 5*(frac+1)*(frac+1)
    +denominatorBits*(6*frac+134)
    +(2*frac+66)
    +countOnes 128 (4*numerator)
    +1
    +frac
  denominator+division+rootSearch+roundedRoot

def estimateRmsNormQ10Direct (weights : List (BitVec 16)) :
    Except String RmsNormQ10CircuitEstimate :=
  let rowW := weights.length
  if rowW=0 ∨ rowW>8192 then
    .error "protected Q10 RMSNorm width must be between 1 and 8192"
  else if rowW*1000000≥2^128 then .error "RMSNorm estimate numerator overflows u128"
  else do
    let inputBits := 16
    let sumBits := 44
    let normalizer := estimateNormalizer (rowW*1000000*2^60%2^128)
    let squareInput := inputBits+5*inputBits*inputBits
    let sumAdd := 2*sumBits
    let outputs ← weights.foldlM estimateOutput 0
    let rows ← checkedCount (rowW*(squareInput+sumAdd)) "RMSNorm estimate gate count overflows u64"
    let shared ← checkedCount (rows+normalizer) "RMSNorm estimate gate count overflows u64"
    let andGateCount ← checkedCount (shared+outputs) "RMSNorm estimate gate count overflows u64"
    let evaluatorCiphertextBytes ← checkedCount (andGateCount*(2*16))
      "RMSNorm estimate payload bytes overflow u64"
    return ⟨andGateCount,evaluatorCiphertextBytes⟩

/-- The wires and the AND gates of one output. -/
def elementWires (inW frac : ℕ) (weight : ℤ) : ℕ :=
  3*inW+(onesBelow 128 weight.natAbs*(5*(inW*2)+1)+1+
    ((inW*2+(5*(inW*2+frac)+1))*frac+1+
      (2*frac+2*64+9+((if weight < 0 then 1 else 0)+3*64))))

def elementAnds (inW frac : ℕ) (weight : ℤ) : ℕ :=
  inW+(onesBelow 128 weight.natAbs*(2*(inW*2))+ ((inW*2+2*(inW*2+frac))*frac+ ((frac+1+1+64)+64)))

/-- The wires and the AND gates of a row. -/
def rmsNormWires (inW frac : ℕ) (weights : List ℤ) : ℕ :=
  (3*inW+((11*inW+1)*inW+1)+(5*44+1))*weights.length+
    (reciprocalWires weights.length frac+ (weights.map (elementWires inW frac)).sum)+1

def rmsNormAnds (inW frac : ℕ) (weights : List ℤ) : ℕ :=
  (inW+5*inW*inW+2*44)*weights.length+
    (reciprocalAnds weights.length frac+ (weights.map (elementAnds inW frac)).sum)

section
variable {α β : Type} {R : α → β → Prop} {xs : List α} {ys : List β}

lemma forall₂_replicate {a : α} {b : β} (h : R a b) (n : ℕ) :
    Forall₂ R (replicate n a) (replicate n b) := by
  induction n with
  | zero => exact .nil
  | succ n ih => exact .cons h ih

lemma forall₂_zip_same {γ : Type} (h : Forall₂ R xs ys) (zs : List γ) :
    Forall₂ (fun a b => R a.1 b.1 ∧ a.2=b.2) (xs.zip zs) (ys.zip zs) := by
  induction h generalizing zs with
  | nil => exact .nil
  | cons hab h ih =>
    cases zs with
    | nil => exact .nil
    | cons z zs => exact .cons ⟨hab,rfl⟩ (ih zs)

end

section
variable {env : List Bool} {d : Draft} {start : BooleanCircuitBuilder} {iss : Issuer}
  {ws : List BooleanWire} {n : ℕ} {x : ℤ}

variable {zero : BooleanWire} {rows : List (List BooleanWire)} {xs : List ℤ} {frac : ℕ}

variable (hn : 2≤n ∧ n≤16)
include hn

lemma draws_addSquareSigned {sum : List BooleanWire} {s : ℕ} (hz : d.Has env zero false)
    (hs : HasNumber env sum 44 (s%2^44) d) (h : HasInteger env ws n x d) :
    Draws iss.hash start (iss.addSquareSigned zero sum ws) d (3*n+((11*n+1)*n+1)+(5*44+1))
    (n+5*n*n+2*44) fun out e => HasNumber env out 44 ((s+x.natAbs^2)%2^44) e := by
  refine (draws_squareSigned hn.1 (by omega) h).bind fun square e₁ _ g₁ h₁ => ?_
  refine ((draws_addUnsigned (by decide) (hs.later g₁)
    (h₁.resized (hz.later g₁) (by omega))).mono fun out e _ _ has => has.cast rfl ?_).bind_pure
  rw [Nat.mod_add_mod]

lemma draws_sumSquares (short : xs.length≤8192) (hz : d.Has env zero
    false) (h : Forall₂ (fun ws x => HasInteger env ws n x d) rows xs) :
    Draws iss.hash start (rows.foldlM (iss.addSquareSigned zero) (replicate 44 zero)) d
      ((3*n+((11*n+1)*n+1)+(5*44+1))*xs.length) ((n+5*n*n+2*44)*xs.length) fun out e =>
      HasNumber env out 44 (xs.map fun x => x.natAbs^2).sum e := by
  have looped : Draws iss.hash start (rows.foldlM (iss.addSquareSigned zero) (replicate 44
      zero)) d ((3*n+((11*n+1)*n+1)+(5*44+1))*xs.length) ((n+5*n*n+2*44)*xs.length) _ :=
    Draws.foldlM_each (g := fun (s : ℕ) (x : ℤ) => s+x.natAbs^2) (V := fun ws x e => HasInteger
      env ws n x e ∧ e.Has env zero false) (fun _ _ _ _ _ h g => ⟨h.1.later
      g,h.2.later g⟩) (fun out s e => HasNumber env out 44 (s%2^44) e) (c := 0) (h.imp fun _
      _ has => ⟨has,hz⟩) ((HasNumber.zeros hz 44).cast rfl (Nat.zero_mod _).symm) fun out s e ws x _
      here hs => draws_addSquareSigned hn here.2 hs here.1
  refine looped.mono fun out e _ _ has => has.cast rfl ?_
  have total : xs.foldl (fun (s : ℕ) (x : ℤ) => s+x.natAbs^2) 0=(xs.map fun x => x.natAbs^2).sum := by
    rw [← foldl_map (f := fun x : ℤ => x.natAbs^2) (g := fun (s y : ℕ) => s+y), sum_eq_foldl]
  have bounded : ∀ y∈xs.map fun x => x.natAbs^2,y≤2^30 := by
    intro y m
    obtain ⟨x,hx,rfl⟩ := mem_map.mp m
    obtain ⟨ws,-,has⟩ := exists_of_forall₂ h.flip hx
    have cast : ((2^(n-1):ℕ):ℤ)=2^(n-1) := by push_cast; rfl
    have small : x.natAbs≤2^(n-1) := by
      have := has.2
      omega
    calc x.natAbs^2≤(2^(n-1))^2 := Nat.pow_le_pow_left small 2
      _ ≤ (2^15)^2 := Nat.pow_le_pow_left (Nat.pow_le_pow_right two_pos (by omega)) 2
      _ = 2^30 := by norm_num
  have bound := sum_le_card_nsmul _ _ bounded
  rw [length_map,smul_eq_mul] at bound
  rw [total,Nat.mod_eq_of_lt (by omega)]

variable (hf : 5≤frac ∧ frac≤30)
include hf

lemma draws_normElement {q : ℕ} {normalizer : List BooleanWire} {weight : ℤ} (hw : weight.natAbs≤2^(n-1)) (hq : HasNumber env
    normalizer frac q d) (h : HasInteger env ws n x d) :
    Draws iss.hash start (iss.normElement n frac normalizer (ws,weight)) d
      (elementWires n frac weight) (elementAnds n frac weight) fun out e =>
      HasInteger env out 64 (roundQuotient (x*weight*q) (2^frac:ℕ)) e := by
  have cast : ((2^(n-1):ℕ):ℤ)=2^(n-1) := by push_cast; rfl
  have small : x.natAbs≤2^(n-1) := by
    have := h.2
    omega
  have power : 2^(n-1)≤2^15 := Nat.pow_le_pow_right two_pos (by omega)
  have product : x.natAbs*weight.natAbs<2^(n*2) := by
    calc x.natAbs*weight.natAbs≤2^(n-1)*2^(n-1) := Nat.mul_le_mul small hw
      _ = 2^((n-1)*2) := by rw [← pow_add]; congr 1; omega
      _ < 2^(n*2) := Nat.pow_lt_pow_right one_lt_two (by omega)
  refine (draws_magnitude hn.1 (by omega) h).bind fun magnitude e₁ _ g₁ h₁ => ?_
  refine (draws_multiplyByPublic (by omega) (show 0 < n*2 by omega) (by omega)
    (by omega : weight.natAbs<2^128) h₁).bind fun weighted e₂ _ g₂ h₂ => ?_
  rw [Nat.mod_eq_of_lt product] at h₂
  have g₁₂ := g₁.trans g₂
  refine (draws_multiplyUnsignedWide (by omega) (by omega) (by omega) h₂ (hq.later g₁₂)).bind
    fun scaled e₃ _ g₃ h₃ => ?_
  refine (draws_roundShiftTiesEven (by omega) (by omega) (by omega) (by omega)
    (show 64 ≤ 128 by decide) h₃).bind fun rounded e₄ _ g₄ h₄ => ?_
  have g₁₄ := (g₁₂.trans g₃).trans g₄
  have sign : (ws.getD (n-1) ⟨0,0⟩)=signWire ws := by rw [signWire,h.1.length]
  rw [sign]
  refine (draws_productSign ((h.sign (by omega)).later g₁₄) weight).bind_wires
    fun sign e₅ _ g₅ h₅ => ?_
  have bound : roundNat (x.natAbs*weight.natAbs*q) (2^frac)<2^(64-1) := by
    have quotient : x.natAbs*weight.natAbs*q/2^frac ≤ x.natAbs*weight.natAbs := by
      refine Nat.div_le_of_le_mul ?_
      rw [mul_comm]
      exact Nat.mul_le_mul_right _ hq.lt.le
    have := roundNat_le (x.natAbs*weight.natAbs*q) (2^frac)
    have wide : 2^(n*2)≤2^32 := Nat.pow_le_pow_right two_pos (by omega)
    omega
  refine (draws_signed (by decide) (by decide) bound (h₄.later g₅) h₅).mono fun out e _ _ has => ?_
  rwa [signed_round x weight q (Nat.two_pow_pos frac)] at has

/-- The circuit of one row, whatever its width and precision. -/
lemma draws_rmsNormDirectQ {weights : List ℤ} (hx : 1≤xs.length ∧ xs.length≤8192)
    (same : xs.length=weights.length) (hw : ∀ w∈weights,-2^(n-1)≤w ∧ w<2^(n-1))
    (h : Forall₂ (fun ws x => HasInteger env ws n x d) rows xs) :
    Draws iss.hash start (iss.rmsNormDirectQ rows weights frac) d
      (rmsNormWires n frac weights) (rmsNormAnds n frac weights)
      fun outs e => ∃ r,
      let numerator := rootNumerator weights.length frac
      let denominator := rootDenominator (xs.map fun x => x.natAbs^2).sum weights.length
      r^2*denominator ≤ numerator ∧ numerator<(r+1)^2*denominator ∧
      Forall₂ (fun ws z => HasInteger env ws 64 z e) outs
        (zipWith (fun x w => roundQuotient (x*w*roundRoot r numerator denominator)
          (2^frac:ℕ)) xs weights) := by
  have len := Forall₂.length_eq h
  have widths : ∀ ws∈rows,ws.length=n := fun ws m => by
    obtain ⟨x,-,has⟩ := exists_of_forall₂ h m
    exact has.1.length
  have nonempty : rows ≠ [] := by
    rintro rfl
    rw [length_nil] at len
    omega
  have width : (rows.getD 0 []).length=n := by
    obtain ⟨row,rest,rfl⟩ := exists_cons_of_ne_nil nonempty
    exact widths row mem_cons_self
  have domain : ¬∃ weight∈weights,weight < -2^(n-1) ∨ weight>2^(n-1)-1 := by
    rintro ⟨w,m,outside⟩
    have := hw w m
    omega
  have shapes : ¬(¬(2≤n ∧ n≤16) ∨ ∃ value∈rows,value.length≠n) := by
    rintro (outside | ⟨value,m,differ⟩)
    · exact outside hn
    · exact differ (widths value m)
  rw [rmsNormDirectQ]
  simp only [width]
  rw [if_neg (by rintro (empty | long | differ); exacts [nonempty empty,by omega,by omega]),
    if_neg shapes,if_neg domain,rmsNormWires,rmsNormAnds]
  refine (draws_constant env false).bind_free fun zero e₁ _ g₁ hz => ?_
  rw [← same]
  refine (draws_sumSquares hn hx.2 hz (h.imp fun _ _ has => has.later g₁)).bind
    fun sum e₂ _ g₂ h₂ => ?_
  rw [len]
  refine (draws_reciprocalSqrtQ (by decide) hx hf h₂).bind fun normalizer e₃ _ g₃ h₃ => ?_
  obtain ⟨r,low,high,number⟩ := h₃
  have since := (g₁.trans g₂).trans g₃
  have each : Draws iss.hash start ((rows.zip weights).mapM (iss.normElement n frac
      normalizer)) e₃ ((xs.zip weights).map fun y => elementWires n frac y.2).sum
      ((xs.zip weights).map fun y => elementAnds n frac y.2).sum _ :=
    Draws.mapM (fun y => elementWires n frac y.2) (fun y => elementAnds n frac y.2)
      (V := fun (a : List BooleanWire × ℤ) (b : ℤ × ℤ) e =>
        HasInteger env a.1 n b.1 e ∧ a.2=b.2)
      (fun _ _ _ _ _ h g => ⟨h.1.later g,h.2⟩)
      (R := fun (y : ℤ × ℤ) out e => HasInteger env out 64 (roundQuotient
        (y.1*y.2*roundRoot r (rootNumerator xs.length frac)
          (rootDenominator (xs.map fun x => x.natAbs^2).sum xs.length)) (2^frac:ℕ)) e)
      (fun _ _ _ _ _ has grown => has.later grown)
      ((forall₂_zip_same h weights).imp fun _ _ has => ⟨has.1.later since,has.2⟩)
      fun e total a b m grown has => by
        obtain ⟨ws,w⟩ := a
        obtain ⟨here,rfl⟩ := has
        have range := hw _ (of_mem_zip m).2
        have cast : ((2^(n-1):ℕ):ℤ)=2^(n-1) := by push_cast; rfl
        exact draws_normElement hn hf (by omega) (number.later grown) here
  have apart (cost : ℤ → ℕ) :
      ((xs.zip weights).map fun y => cost y.2).sum = (weights.map cost).sum := by
    rw [← map_snd_zip same.ge,map_map,map_snd_zip same.ge]
    rfl
  refine (each.count (apart _) (apart _)).mono fun outs e _ _ has => ⟨r,low,high,?_⟩
  rw [← map_uncurry_zip_eq_zipWith,forall₂_map_right_iff]
  exact has

end

lemma onesBelow_of_lt {k m v : ℕ} (small : v<2^k) (hk : k ≤ m) : onesBelow m v = onesBelow k v := by
  obtain ⟨j,rfl⟩ := Nat.exists_eq_add_of_le hk
  induction j with
  | zero => rfl
  | succ j ih =>
    rw [← add_assoc,onesBelow_succ,ih (by omega),
      Nat.testBit_lt_two_pow (small.trans_le (Nat.pow_le_pow_right two_pos (by omega)))]
    rfl

lemma countOnes_eq {width k v : ℕ} (small : v<2^k) (hk : k≤width) :
    countOnes width v = onesBelow k v := onesBelow_of_lt small hk

lemma natAbs_weight_lt (w : BitVec 16) : w.toInt.natAbs<2^16 :=
  lt_of_le_of_lt (natAbs_toInt_le w) (by norm_num)

lemma elementAnds_le (w : ℤ) : elementAnds 16 30 w ≤ 2^14 := by
  have ones := onesBelow_le 128 w.natAbs
  rw [elementAnds]
  omega

lemma foldlM_estimateOutput (weights : List (BitVec 16)) (outputs : ℕ)
    (h : outputs+weights.length*2^14<2^64) : weights.foldlM estimateOutput outputs = .ok
    (outputs+((weights.map BitVec.toInt).map (elementAnds 16 30)).sum) := by
  induction weights generalizing outputs with
  | nil => rfl
  | cons w weights ih =>
    rw [length_cons] at h
    have small := elementAnds_le w.toInt
    have step : estimateOutput outputs w = .ok (outputs+elementAnds 16 30 w.toInt) := by
      have same : 16+countOnes 16 w.toInt.natAbs*4*16+30*(6*16+2*30)+(30+1+1+64+64) =
          elementAnds 16 30 w.toInt := by
        rw [elementAnds,countOnes_eq (natAbs_weight_lt w) le_rfl,
          onesBelow_of_lt (natAbs_weight_lt w) (by decide : 16≤128)]
        ring
      rw [estimateOutput]
      simp only [same]
      exact if_pos (by omega)
    rw [foldlM_cons,step,ok_bind,ih _ (by omega),map_cons,map_cons,sum_cons,add_assoc]

lemma sum_elementAnds_le (weights : List ℤ) :
    (weights.map (elementAnds 16 30)).sum ≤ weights.length*2^14 := by
  have h := sum_le_card_nsmul (weights.map (elementAnds 16 30)) (2^14) fun n m => by
    obtain ⟨w,-,rfl⟩ := mem_map.mp m
    exact elementAnds_le w
  rwa [length_map] at h

variable {weights row : List (BitVec 16)} {rowW : ℕ}

lemma estimateNormalizer_eq (hw : rowW≤8192) :
    estimateNormalizer (rootNumerator rowW 30) = reciprocalAnds rowW 30 := by
  have million : countOnes 64 1000000=onesBelow 128 1000000 :=
    (countOnes_eq (k := 20) (by norm_num) (by decide)).trans
      (onesBelow_of_lt (k := 20) (by norm_num) (by decide)).symm
  have four : countOnes 128 (4*rootNumerator rowW 30) =
      onesBelow 126 (4*rootNumerator rowW 30) := countOnes_eq (rootNumerator_lt 30 hw) (by decide)
  rw [estimateNormalizer,reciprocalAnds,four]
  generalize onesBelow 126 (4*rootNumerator rowW 30)=b
  omega

lemma checkedCount_of_lt {n : ℕ} {message : String} (h : n<2^64) :
    checkedCount n message = .ok n := if_pos h

lemma estimateRmsNormQ10Direct_eq (hw : 1≤weights.length ∧ weights.length≤8192) :
    estimateRmsNormQ10Direct weights = .ok ⟨rmsNormAnds 16 30 (weights.map BitVec.toInt),
      rmsNormAnds 16 30 (weights.map BitVec.toInt)*32⟩ := by
  have numerator : weights.length*1000000*2^60%2^128=rootNumerator weights.length 30 :=
    Nat.mod_eq_of_lt (by
      omega)
  have outputs := foldlM_estimateOutput weights 0 (by omega)
  have bound := sum_elementAnds_le (weights.map BitVec.toInt)
  have normalizer := (reciprocal_le hw.2).2
  have whole : weights.length*(16+5*16*16+2*44)+reciprocalAnds weights.length 30+
      ((weights.map BitVec.toInt).map (elementAnds 16 30)).sum =
        rmsNormAnds 16 30 (weights.map BitVec.toInt) := by
    rw [rmsNormAnds,length_map,mul_comm,add_assoc]
  rw [zero_add] at outputs
  rw [length_map] at bound
  rw [estimateRmsNormQ10Direct,if_neg (by omega),if_neg (by omega)]
  rw [numerator,estimateNormalizer_eq hw.2,outputs,ok_bind,← whole]
  rw [checkedCount_of_lt (by omega),ok_bind,checkedCount_of_lt (by omega),ok_bind,
    checkedCount_of_lt (by omega),ok_bind,checkedCount_of_lt (by omega),ok_bind]
  rfl

lemma toInt_hasInteger {env : List Bool} {d : Draft} {ws : List BooleanWire} {x : BitVec 16}
    (h : HasNumber env ws 16 x.toNat d) : HasInteger env ws 16 x.toInt d := by
  refine ⟨h.cast rfl ?_,?_⟩
  · rw [BitVec.toInt_eq_toNat_bmod]
    simp only [Int.bmod]
    split <;> omega
  · have low := x.le_two_mul_toInt
    have high := x.two_mul_toInt_lt
    omega

lemma chunksExact_one {n : ℕ} (hn : 0<n) (same : row.length=n) : chunksExact n row = [row] := by
  rw [chunksExact,same,Nat.div_self hn,range_one,map_singleton,mul_zero,slice,
    drop_zero,take_of_length_le same.le]

/-- What the plain normalisation returns for one row. -/
lemma rmsNormQ10Direct_row (hw : 1≤weights.length ∧ weights.length≤8192)
    (same : row.length=weights.length) : ∃ q : ℕ,IsNearestEven q
    (2^30*normaliser (sumSquares row) weights.length) ∧ rmsNormQ10Direct true row weights = .ok
    (zipWith (fun x w => roundQuotient (x.toInt*w.toInt*q) (2^30)) row weights) := by
  obtain ⟨q,-,nearest,run⟩ := normRow_eq hw same
  have nonempty : row ≠ [] := by
    rintro rfl
    rw [length_nil] at same
    omega
  refine ⟨q,nearest,?_⟩
  rw [rmsNormQ10Direct,if_neg nonempty,validateQ10Width_of_mem hw,ok_bind,same,
    Nat.mod_self,if_neg (by simp),if_neg (by simp),chunksExact_one (by omega) same,
    mapM_cons,run,ok_bind,mapM_nil]
  simp [divRoundTiesEven]

/-- The circuit of the protected normalisation computes the plain one, row for row. -/
lemma draws_rmsNormQ10 (iss : Issuer) (start : BooleanCircuitBuilder) {env : List Bool} {d : Draft}
    {rows : List (List BooleanWire)} (hw : 1≤weights.length ∧ weights.length≤8192) (same :
    row.length=weights.length) (h : Forall₂ (fun ws x => HasNumber env ws 16 x.toNat d) rows row) :
    ∃ output,rmsNormQ10Direct true row weights = .ok output ∧ Draws iss.hash start
    (iss.rmsNormDirectQ rows (weights.map BitVec.toInt) 30) d
    (rmsNormWires 16 30 (weights.map BitVec.toInt)) (rmsNormAnds 16 30 (weights.map BitVec.toInt))
    fun outs e => Forall₂ (fun ws z => HasInteger env ws 64 z e) outs output := by
  obtain ⟨q,nearest,run⟩ := rmsNormQ10Direct_row hw same
  refine ⟨_,run,?_⟩
  have integers : Forall₂ (fun ws x => HasInteger env ws 16 x d) rows
      (row.map BitVec.toInt) :=
    forall₂_map_right_iff.mpr (h.imp fun _ _ => toInt_hasInteger)
  have domain : ∀ w ∈ weights.map BitVec.toInt,-2^(16-1)≤w ∧ w<2^(16-1) := by
    intro w m
    obtain ⟨b,-,rfl⟩ := mem_map.mp m
    have low := b.le_two_mul_toInt
    have high := b.two_mul_toInt_lt
    omega
  refine (draws_rmsNormDirectQ (by decide) (by decide) (by rw [length_map]; omega)
    (by rw [length_map,length_map,same]) domain integers).mono fun outs e _ _ has => ?_
  obtain ⟨r,low,high,outs⟩ := has
  rw [length_map] at low high outs
  have sums : ((row.map BitVec.toInt).map fun x => x.natAbs^2).sum=sumSquares row := by
    rw [map_map]
    rfl
  rw [sums] at low high outs
  have posD : 0 < rootDenominator (sumSquares row) weights.length := by
    rw [rootDenominator]
    omega
  -- both roundings of the reciprocal are nearest to the same real number
  have scaled : 2^30*normaliser (sumSquares row) weights.length =
      √((rootNumerator weights.length 30:ℝ)/rootDenominator (sumSquares row) weights.length) := by
    rw [sqrt_rootNumerator,normaliser,show (weights.length*10^6*2^(2*30):ℝ)/
      (10^6*(sumSquares row)+weights.length*2^20) = (2^30)^2*((weights.length*10^6)/
        (10^6*(sumSquares row)+weights.length*2^20)) by ring,Real.sqrt_mul (by positivity),
      Real.sqrt_sq (by positivity)]
  rw [scaled] at nearest
  have agree := (isNearestEven_roundRoot posD low high).unique nearest
  rw [zipWith_map,agree] at outs
  exact_mod_cast outs

/-- An accepted run of the builder yields the rows of the plain normalisation. -/
theorem rms_norm_circuit :
    (∀ (iss : Issuer) (start : BooleanCircuitBuilder) (env : List Bool) (d : Draft)
      (rows : List (List BooleanWire)) (row weights : List (BitVec 16)),
      1≤weights.length ∧ weights.length≤8192 → row.length=weights.length →
      Forall₂ (fun ws x => HasNumber env ws 16 x.toNat d) rows row →
      ∃ output,Rms.rmsNormQ10Direct true row weights = .ok output ∧
        Draws iss.hash start (iss.rmsNormDirectQ rows (weights.map BitVec.toInt) 30) d
          (rmsNormWires 16 30 (weights.map BitVec.toInt))
          (rmsNormAnds 16 30 (weights.map BitVec.toInt)) fun outs e =>
          Forall₂ (fun ws z => HasInteger env ws 64 z e) outs output) ∧
    ∀ (iss : Issuer) (start : BooleanCircuitBuilder) (env : List Bool) (d e : Draft) (rows
      outs : List (List BooleanWire)) (row weights : List (BitVec 16)), Sound iss.hash start d →
      Room d 0 → 1≤weights.length ∧ weights.length≤8192 → row.length=weights.length → Forall₂ (fun
      ws x => HasNumber env ws 16 x.toNat d) rows row → iss.rmsNormDirectQ rows
      (weights.map BitVec.toInt) 30 d = .ok (outs,e) →
      ∃ output,Rms.rmsNormQ10Direct true row weights = .ok output ∧
        Forall₂ (fun ws z => HasInteger env ws 64 z e) outs output := by
  refine ⟨fun iss start env d rows row weights hw same h =>
    draws_rmsNormQ10 iss start hw same h,
    fun iss start env d e rows outs row weights sound room hw same h run => ?_⟩
  obtain ⟨output,plain,drawn⟩ := draws_rmsNormQ10 iss start hw same h
  exact ⟨output,plain,(drawn.ok sound room run).1⟩

/-- A circuit of two elements is built. -/
lemma pair_built : ∃ (iss : Issuer) (d e : Draft) (rows outs : List (List BooleanWire)),
    Sound iss.hash (.new 0 0) d ∧ Room d 0 ∧
    Forall₂ (fun ws (x : BitVec 16) => HasNumber [] ws 16 x.toNat d) rows [1,0] ∧
    iss.rmsNormDirectQ rows (([1024,512]:List (BitVec 16)).map BitVec.toInt) 30 d = .ok (outs,e) := by
  let iss : Issuer := ⟨fun _ _ _ _ => 0,fun _ => 0⟩
  obtain ⟨d,zero,one,sound,room,hz,ho,-,fits⟩ := constants_drawn iss
  have zeros := HasNumber.zeros hz
  have rows : Forall₂ (fun ws (x : BitVec 16) => HasNumber [] ws 16 x.toNat d)
      [one::replicate 15 zero,replicate 16 zero] [1,0] :=
    .cons (HasNumber.cons ho (zeros 15)) (.cons (zeros 16) .nil)
  obtain ⟨_,-,drawn⟩ := draws_rmsNormQ10 iss (.new 0 0) (by decide)
    (show ([1,0]:List (BitVec 16)).length = ([1024,512]:List (BitVec 16)).length by rfl) rows
  have normalizer := reciprocal_le (show 2≤8192 by decide)
  have wires : rmsNormWires 16 30 (([1024,512]:List (BitVec 16)).map BitVec.toInt) ≤ 2^20 := by
    have elements : ((([1024,512]:List (BitVec 16)).map BitVec.toInt).map (elementWires 16 30)).sum ≤ 2^16 := by
      decide +kernel
    change _*2+(reciprocalWires 2 30+_)+1 ≤ _
    omega
  have ands : rmsNormAnds 16 30 (([1024,512]:List (BitVec 16)).map BitVec.toInt) ≤ 2^19+2^16 := by
    have elements : ((([1024,512]:List (BitVec 16)).map BitVec.toInt).map (elementAnds 16 30)).sum ≤ 2^15 := by
      decide +kernel
    change _*2+(reciprocalAnds 2 30+_) ≤ _
    omega
  obtain ⟨outs,e,-,run,-⟩ := (drawn sound room).1
    (fits _ _ (by rw [maxReferenceWires]; omega) (by rw [maxReferenceAndGates]; omega))
  exact ⟨iss,d,e,_,outs,sound,room,rows,run⟩

theorem rms_norm_circuit_pair : ∃ (iss : Issuer) (d e : Draft) (rows outs : List (List BooleanWire))
    (output : List ℤ),iss.rmsNormDirectQ rows (([1024,512]:List (BitVec 16)).map BitVec.toInt) 30 d =
      .ok (outs,e) ∧ Rms.rmsNormQ10Direct true [1,0] [1024,512] = .ok output ∧
    Forall₂ (fun ws z => HasInteger [] ws 64 z e) outs output := by
  obtain ⟨iss,d,e,rows,outs,sound,room,h,run⟩ := pair_built
  obtain ⟨output,plain,agree⟩ := rms_norm_circuit.2 iss (.new 0 0) [] d e rows outs [1,0]
    [1024,512] sound room (by decide) rfl h run
  exact ⟨iss,d,e,rows,outs,output,run,plain,agree⟩

/-- On a row of the largest width the builder runs out of wires, while the plain normalisation has its
result. -/
theorem widest_row : ∃ (iss : Issuer) (start : BooleanCircuitBuilder) (d : Draft) (ws : List
    BooleanWire),Sound iss.hash start d ∧ Room d 0 ∧ HasNumber [] ws 16 (0:BitVec 16).toNat d ∧
    (∃ output,Rms.rmsNormQ10Direct true (replicate 8192 0) (replicate 8192 1024) = .ok output) ∧
    ∀ result,iss.rmsNormDirectQ (replicate 8192 ws)
      ((replicate 8192 (1024:BitVec 16)).map BitVec.toInt) 30 d ≠ .ok result := by
  let iss : Issuer := ⟨fun _ _ _ _ => 0,fun _ => 0⟩
  obtain ⟨d,w,-,soundD,roomD,has,-,limit,-⟩ := constants_drawn iss
  have word : HasNumber [] (replicate 16 w) 16 (0:BitVec 16).toNat d :=
    HasNumber.zeros has 16
  have widths : (replicate 8192 (1024:BitVec 16)).length=8192 := length_replicate
  have words : Forall₂ (fun ws (x : BitVec 16) => HasNumber [] ws 16 x.toNat d)
      (replicate 8192 (replicate 16 w)) (replicate 8192 0) :=
    forall₂_replicate (R := fun ws (x : BitVec 16) => HasNumber [] ws 16 x.toNat d) word 8192
  have hw : 1 ≤ (replicate 8192 (1024:BitVec 16)).length ∧
      (replicate 8192 (1024:BitVec 16)).length ≤ 8192 := by
    rw [widths]
    decide
  have same : (replicate 8192 (0:BitVec 16)).length=(replicate 8192 (1024:BitVec 16)).length :=
    length_replicate.trans widths.symm
  obtain ⟨output,plain,drawn⟩ := draws_rmsNormQ10 iss (.new 0 0) hw same words
  refine ⟨iss,_,d,_,soundD,roomD,word,⟨output,plain⟩,fun result run => ?_⟩
  -- the sum of the squares alone needs more
  have squares : 2000000 < rmsNormWires 16 30 ((replicate 8192 (1024:BitVec 16)).map BitVec.toInt) := by
    rw [rmsNormWires,length_map,widths]
    omega
  obtain ⟨message,refused⟩ := (drawn soundD roomD).2 fun fits => by
    have wires := fits.1
    rw [limit,maxReferenceWires] at wires
    omega
  rw [run] at refused
  cases refused

/-- The estimate of a vector of weights is the number of AND gates that the circuit adds. -/
theorem estimate_counts : (∀ weights : List (BitVec 16),1≤weights.length ∧ weights.length≤8192 →
    ∃ estimate,estimateRmsNormQ10Direct weights = .ok estimate ∧ estimate.evaluatorCiphertextBytes =
    estimate.andGateCount*32) ∧ ∀ (iss : Issuer) (start : BooleanCircuitBuilder)
    (env : List Bool) (d e : Draft) (rows outs : List (List BooleanWire))
    (xs : List ℤ) (weights : List (BitVec 16)), Sound iss.hash start d → Room d 0 → Forall₂
    (fun ws x => HasInteger env ws 16 x d) rows xs → iss.rmsNormDirectQ rows
    (weights.map BitVec.toInt) 30 d = .ok (outs,e) → ∃ estimate,estimateRmsNormQ10Direct weights =
    .ok estimate ∧ e.builder.andGateCount = d.builder.andGateCount+estimate.andGateCount ∧
    (e.builder.instructions.map BooleanInstruction.kind).count .and =
    (d.builder.instructions.map BooleanInstruction.kind).count .and+estimate.andGateCount := by
  refine ⟨fun weights hw => ⟨_,estimateRmsNormQ10Direct_eq hw,rfl⟩,?_⟩
  intro iss start env d e rows outs xs weights sound room h run
  have len := Forall₂.length_eq h
  have shape : rows ≠ [] ∧ rows.length≤8192 ∧ rows.length=weights.length := by
    by_contra outside
    rw [Issuer.rmsNormDirectQ,length_map,if_pos (by by_contra inside; exact outside (by
      simp only [not_or] at inside
      exact ⟨inside.1,by omega,by omega⟩))] at run
    cases run
  have pos : 0 < rows.length := length_pos_iff.mpr shape.1
  have hw : 1≤weights.length ∧ weights.length≤8192 := by omega
  have domain : ∀ w ∈ weights.map BitVec.toInt,-2^(16-1)≤w ∧ w<2^(16-1) := by
    intro w m
    obtain ⟨b,-,rfl⟩ := mem_map.mp m
    have low := b.le_two_mul_toInt
    have high := b.two_mul_toInt_lt
    omega
  have drawn : Draws iss.hash start
      (iss.rmsNormDirectQ rows (weights.map BitVec.toInt) 30) d _ _ _ :=
    draws_rmsNormDirectQ (by decide) (by decide) (by omega) (by rw [length_map]; omega) domain h
  obtain ⟨-,soundE,-,-,count⟩ := drawn.ok sound room run
  refine ⟨_,estimateRmsNormQ10Direct_eq hw,count,?_⟩
  rw [soundE.instructions .and (by decide),← soundE.ands,sound.instructions .and (by decide),
    ← sound.ands]
  exact count

theorem estimate_counts_pair : ∃ (iss : Issuer) (d e : Draft) (rows outs : List (List BooleanWire))
    (estimate : RmsNormQ10CircuitEstimate),
    iss.rmsNormDirectQ rows (([1024,512]:List (BitVec 16)).map BitVec.toInt) 30 d = .ok (outs,e) ∧
    estimateRmsNormQ10Direct [1024,512] = .ok estimate ∧
    e.builder.andGateCount = d.builder.andGateCount+estimate.andGateCount := by
  obtain ⟨iss,d,e,rows,outs,sound,room,h,run⟩ := pair_built
  obtain ⟨estimate,same,count,-⟩ := estimate_counts.2 iss (.new 0 0) [] d e rows outs
    (([1,0]:List (BitVec 16)).map BitVec.toInt) [1024,512] sound room
    (forall₂_map_right_iff.mpr (h.imp fun _ _ => toInt_hasInteger)) run
  exact ⟨iss,d,e,rows,outs,estimate,run,same,count⟩

end Pllm.Garble
