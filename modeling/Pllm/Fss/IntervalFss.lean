import Pllm.Fss.CompactDcfCorrect

/-! One comparison key at `r-1` for every public boundary of a width, with the dealer's correction. -/
namespace Pllm.Fss.IntervalFss
open Pllm.Lib CompactDcf CompactDcf.RingComparison

/-- The dealer's correction `[((r+p) mod 2^k)>p]`. -/
def correction (bits : ℕ) (inputMask boundary : BitVec 32) : BitVec 32 :=
  if ((inputMask+boundary) &&& lowMask bits)>boundary then 1 else 0

structure Comparison where
  bits : ℕ
  key : CompactDcf.Key (BitVec 32)

namespace Comparison

def issue (aes : Aes) (sizes : CompactDcf.Sizes) (bits : ℕ) (inputMask : BitVec 32)
    (roots : Block × Block) : Except Error (Comparison × Comparison) :=
  if ¬(1≤bits ∧ bits≤32) ∨ inputMask.toNat≥2^bits then .error .domain
  else do
    let keys ← CompactDcf.Key.issue aes sizes bits ((inputMask-1) &&& lowMask bits) roots
    return (⟨bits,keys.1⟩,⟨bits,keys.2⟩)

def eval (aes : Aes) (self : Comparison) (party : Bool) (opened boundary : BitVec 32) :
    BitVec 32 :=
  let shifted := (opened+lowMask self.bits-boundary) &&& lowMask self.bits
  self.key.eval aes party shifted-(if party = false ∧ opened>boundary then 1 else 0)

end Comparison

variable {n o r p : ℕ}

lemma toNat_add_and_lowMask (a b : BitVec 32) (hn : n≤32) :
    ((a+b) &&& lowMask n).toNat = (a.toNat+b.toNat)%2^n := by
  rw [toNat_and_lowMask _ hn,BitVec.toNat_add,Nat.mod_mod_of_dvd _ (Nat.pow_dvd_pow 2 hn)]

lemma toNat_sub_and_lowMask {w n : ℕ} (a b : BitVec w) (hn : n≤w) (hb : b.toNat<2^n) :
    ((a-b) &&& lowMask n).toNat = (a.toNat+(2^n-b.toNat))%2^n := by
  have hdvd := Nat.pow_dvd_pow 2 hn
  obtain ⟨k,hk⟩ := hdvd
  rw [toNat_and_lowMask _ hn,BitVec.toNat_sub,Nat.mod_mod_of_dvd _ (Nat.pow_dvd_pow 2 hn)]
  have hkpos : 0<k := by
    rcases k with - | k
    · omega
    · omega
  obtain ⟨j,rfl⟩ : ∃ j, k=j+1 := ⟨k-1,by omega⟩
  have he : 2^w-b.toNat+a.toNat=(a.toNat+(2^n-b.toNat))+2^n*j := by
    rw [hk,mul_add]
    omega
  rw [he,Nat.add_mul_mod_self_left]

lemma add_mod_eq {a b n : ℕ} (ha : a<n) (hb : b<n) : (a+b)%n = if a+b<n then a+b else a+b-n := by
  split
  · next h => exact Nat.mod_eq_of_lt h
  · next h => rw [Nat.mod_eq_sub_mod (by omega),Nat.mod_eq_of_lt (by omega)]

/-- Moving the threshold to `r-1` and the boundary to the opened side costs the public wrap and the
dealer's correction. -/
lemma shifted_lt_iff (ho : o<n) (hr : r<n) (hp : p<n) :
    (if (o+(n-1-p))%n < (r+(n-1))%n then 1 else 0 : ℤ)-(if p < o then 1 else 0)
        +(if p < (r+p)%n then 1 else 0) = if o<(r+p)%n then 1 else 0 := by
  rw [add_mod_eq ho (by omega),add_mod_eq hr (by omega),add_mod_eq hr hp]
  split_ifs <;> omega

variable {keys : Comparison × Comparison} {roots : Block × Block} {aes : Aes}

/-- With the dealer's correction, one key shares the comparison for every public boundary. -/
lemma Comparison.eval_add_eval {sizes : Sizes} {bits : ℕ} {inputMask : BitVec 32}
    (h : issue aes sizes bits inputMask roots = .ok keys) {opened boundary : BitVec 32}
    (ho : opened.toNat<2^bits) (hp : boundary.toNat<2^bits) :
    keys.1.eval aes false opened boundary+keys.2.eval aes true opened boundary
        +correction bits inputMask boundary =
      if opened.toNat < (inputMask.toNat+boundary.toNat)%2^bits then 1 else 0 := by
  simp only [issue,ite_error_eq_ok,bind_eq_ok,pure_eq_ok,ok_eq_ok] at h
  obtain ⟨hd,grown,hg,rfl⟩ := h
  have hn : bits≤32 := by omega
  have hone : (1 : BitVec 32).toNat < 2^bits := Nat.one_lt_two_pow (by omega)
  have hpow : 2^bits≤2^32 := Nat.pow_le_pow_right (by decide) hn
  have hmask : (lowMask bits : BitVec 32).toNat=2^bits-1 := by
    rw [lowMask,BitVec.toNat_ofNat,Nat.mod_eq_of_lt (by omega)]
  have hshf : ((opened+lowMask bits-boundary) &&& lowMask bits).toNat =
      (opened.toNat+(2^bits-1-boundary.toNat))%2^bits := by
    rw [toNat_sub_and_lowMask _ _ hn hp,BitVec.toNat_add,hmask,Nat.add_mod,
      Nat.mod_mod_of_dvd _ (Nat.pow_dvd_pow 2 hn),← Nat.add_mod,
      show opened.toNat+(2^bits-1)+(2^bits-boundary.toNat) =
        opened.toNat+(2^bits-1-boundary.toNat)+2^bits by omega,Nat.add_mod_right]
  have hthr : ((inputMask-1) &&& lowMask bits).toNat =
      (inputMask.toNat+(2^bits-1))%2^bits := toNat_sub_and_lowMask _ _ hn hone
  have hinp : ((opened+lowMask bits-boundary) &&& lowMask bits).toNat < 2^bits := by
    rw [hshf]
    exact Nat.mod_lt _ (by omega)
  have hkey := CompactDcf.Key.eval_add_eval hg hinp
  have hlt := shifted_lt_iff ho (show inputMask.toNat < 2^bits by omega) hp
  simp only [BitVec.lt_def,hshf,hthr] at hkey
  simp only [eval,correction,gt_iff_lt,BitVec.lt_def,toNat_add_and_lowMask _ _ hn,
    true_and,Bool.true_eq_false,false_and,if_false,sub_zero]
  rw [sub_add_eq_add_sub,hkey]
  split_ifs at hlt ⊢ <;> first | rfl | omega

open BitVec Nat

structure RingComparison where
  bits : ℕ
  outputBits : ℕ
  key : CompactDcf.RingComparison

namespace RingComparison
variable (aes : Aes) (sizes : CompactDcf.Sizes) (extra : ℕ)

/-- The inner estimate, where this owner is `extra` bytes larger than the inner one. -/
def resources (bits outputBits : ℕ) : Except Error CompactDcf.Resources := do
  let cost ← CompactDcf.RingComparison.resources sizes bits outputBits
  return {cost with
    keyOwnerBytes := cost.keyOwnerBytes+extra
    issuanceScratchBytes := cost.issuanceScratchBytes+2*extra
    combinedAllocationBytes := cost.combinedAllocationBytes+4*extra}

def issue (bits outputBits : ℕ) (inputMask : BitVec 64) (allocationLimit : ℕ)
    (roots : Block × Block) : Except Error (RingComparison × RingComparison) := do
  let cost ← resources sizes extra bits outputBits
  if inputMask.toNat≥2^bits then .error .domain
  else if cost.combinedAllocationBytes>allocationLimit then .error .resource
  else do
    let keys ← CompactDcf.RingComparison.issueWith aes sizes bits outputBits
      ((inputMask-1) &&& lowMask bits) 1 (allocationLimit-4*extra) roots
    return (⟨bits,outputBits,keys.1⟩,⟨bits,outputBits,keys.2⟩)

/-- A share of `[opened < (r+p) mod N] - c_p`; the boundary `N` counts as zero. -/
def eval (self : RingComparison) (party : ℕ) (opened boundary : BitVec 64) :
    Except Error (BitVec 64) :=
  if party>1 ∨ opened.toNat≥2^self.bits ∨ boundary.toNat>2^self.bits then .error .domain
  else do
    let p := boundary &&& lowMask self.bits
    let shifted := (opened-1-p) &&& lowMask self.bits
    let value ← self.key.eval aes party shifted
    return (value-(if party = 0 ∧ opened>p then 1 else 0)) &&& lowMask self.outputBits

def ltCorrection (bits outputBits : ℕ) (inputMask boundary : BitVec 64) :
    Except Error (BitVec 64) := do
  let _ ← CompactDcf.RingComparison.resources sizes bits outputBits
  if inputMask.toNat≥2^bits ∨ boundary.toNat>2^bits then .error .domain
  else
    let p := boundary &&& lowMask bits
    let correction : BitVec 64 := if ((inputMask+p) &&& lowMask bits)>p then 1 else 0
    .ok ((correction-(if inputMask>0 then 1 else 0)
      +(if (inputMask+boundary).toNat≥2^bits then 1 else 0)) &&& lowMask outputBits)

end RingComparison

lemma unmasked_lt_iff (ho : o<n) (hr : r<n) (hp : p≤n) :
    (if o < (r+p%n)%n then 1 else 0:ℤ)-(if o < r then 1 else 0)+(if n ≤ r+p then 1 else 0) =
      if (o+(n-r))%n<p then 1 else 0 := by
  rw [add_mod_mod]
  have hleft : (r+p)%n=if r+p<n then r+p else r+p-n := by
    split
    · next h => exact mod_eq_of_lt h
    · next h =>
      rw [mod_eq_sub_mod (by omega)]
      exact mod_eq_of_lt (by omega)
  have hrt : (o+(n-r))%n=if o+(n-r)<n then o+(n-r) else o+(n-r)-n := by
    split
    · next h => exact mod_eq_of_lt h
    · next h =>
      rw [mod_eq_sub_mod (by omega)]
      exact mod_eq_of_lt (by omega)
  rw [hleft,hrt]
  split_ifs <;> omega

lemma setWidth_ite {p : Prop} [Decidable p] :
    (if p then 1 else 0 : BitVec 64).setWidth n = ((if p then 1 else 0:ℤ) : BitVec n) := by
  split
  · apply eq_of_toNat_eq
    simp
  · exact setWidth_zero _ _

lemma setWidth_of_toNat_mod {x : BitVec 64} {p : Prop} [Decidable p]
    (h : x.toNat%2^n = if p then 1 else 0) : x.setWidth n = ((if p then 1 else 0:ℤ) : BitVec n) := by
  have hword : x.setWidth n=BitVec.ofNat n (x.toNat%2^n) := by
    apply eq_of_toNat_eq
    rw [toNat_setWidth,toNat_ofNat,mod_mod]
  rw [hword,h]
  split <;> simp

namespace RingComparison
variable {aes : Aes} {sizes : CompactDcf.Sizes} {extra bits outputBits limit : ℕ}
  {inputMask opened boundary : BitVec 64} {roots : Block × Block}
  {keys : RingComparison × RingComparison}

section
variable (h : issue aes sizes extra bits outputBits inputMask limit roots = .ok keys)
include h

lemma issue_eq_ok : inputMask.toNat<2^bits ∧ ∃ inner, issueWith aes sizes bits outputBits
    ((inputMask-1) &&& lowMask bits) 1 (limit-4*extra) roots = .ok inner ∧
    keys = (⟨bits,outputBits,inner.1⟩,⟨bits,outputBits,inner.2⟩) := by
  simp only [issue,bind_eq_ok,ite_error_eq_ok,pure_eq_ok,ok_eq_ok] at h
  obtain ⟨_,-,hmask,-,inner,hinn,rfl⟩ := h
  exact ⟨by omega,inner,hinn,rfl⟩

lemma widths_of_issue : 1≤bits ∧ bits≤50 ∧ 1≤outputBits ∧ outputBits≤50 := by
  simp only [issue,resources,CompactDcf.RingComparison.resources,
    validate,bind_eq_ok,ite_error_eq_ok,pure_eq_ok] at h
  omega

/-- The two values add up to the masked comparison less the dealer's correction. -/
lemma eval_add_eval (ho : opened.toNat<2^bits) (hp : boundary.toNat≤2^bits) :
    ∃ a b, keys.1.eval aes 0 opened boundary = .ok a ∧ keys.2.eval aes 1 opened boundary = .ok b ∧
      (a+b).setWidth outputBits =
        (((if opened.toNat < (inputMask.toNat+boundary.toNat%2^bits)%2^bits then 1 else 0)
          -(if boundary.toNat%2^bits < (inputMask.toNat+boundary.toNat%2^bits)%2^bits
              then 1 else 0) : ℤ) : BitVec outputBits) := by
  obtain ⟨hb,hb',ho₁,ho₂⟩ := widths_of_issue h
  obtain ⟨hmask,inner,hinn,rfl⟩ := issue_eq_ok h
  have hn : bits≤64 := by omega
  have hw : outputBits≤64 := by omega
  have hpos := Nat.two_pow_pos bits
  have hone : (1 : BitVec 64).toNat < 2^bits := Nat.one_lt_two_pow (by omega)
  have hbdy : (boundary &&& lowMask bits).toNat=boundary.toNat%2^bits :=
    toNat_and_lowMask boundary hn
  have hlt : boundary.toNat%2^bits<2^bits := mod_lt _ hpos
  have hthr : ((inputMask-1) &&& lowMask bits).toNat =
      (inputMask.toNat+(2^bits-1))%2^bits := toNat_sub_and_lowMask _ _ hn hone
  have hshi : ((opened-1-(boundary &&& lowMask bits)) &&& lowMask bits).toNat =
      (opened.toNat+(2^bits-1-boundary.toNat%2^bits))%2^bits := by
    rw [toNat_sub_and_lowMask _ _ hn (hbdy ▸ hlt),hbdy,add_mod,
      ← toNat_and_lowMask (opened-1) hn,toNat_sub_and_lowMask _ _ hn hone,
      ← add_mod,show opened.toNat+(2^bits-(1 : BitVec 64).toNat)+(2^bits-boundary.toNat%2^bits) =
        opened.toNat+(2^bits-1-boundary.toNat%2^bits)+2^bits by
          rw [show (1 : BitVec 64).toNat=1 from rfl]; omega,add_mod_right]
  have hinp : ((opened-1-(boundary &&& lowMask bits)) &&& lowMask bits).toNat < 2^bits := by
    rw [hshi]
    exact mod_lt _ hpos
  obtain ⟨left,right,hleft,hrt,hsum⟩ := CompactDcf.RingComparison.eval_add_eval hinn hinp
  simp only [lt_def,hshi,hthr] at hsum
  refine ⟨(left-(if opened>boundary &&& lowMask bits then 1 else 0)) &&& lowMask outputBits,
    (right-0) &&& lowMask outputBits,?_,?_,?_⟩
  · simp only [eval]
    rw [if_neg (by omega),hleft]
    simp only [true_and]
    rfl
  · simp only [eval]
    rw [if_neg (by omega),hrt]
    rfl
  · have hsha := setWidth_of_toNat_mod hsum
    have hidt := congrArg (Int.cast : ℤ → BitVec outputBits) (shifted_lt_iff ho hmask hlt)
    rw [setWidth_add _ _ hw] at hsha ⊢
    rw [sub_zero,setWidth_and_lowMask _ hw,setWidth_and_lowMask _ hw,
      setWidth_sub _ _ hw,setWidth_ite]
    simp only [lt_def,hbdy]
    rw [sub_add_eq_add_sub,hsha,Int.cast_sub,← hidt]
    push_cast
    ring

end

lemma ltCorrection_eq (hbits : 1≤bits ∧ bits≤50) (hout : 1≤outputBits ∧ outputBits≤50)
    (hmask : inputMask.toNat<2^bits) (hp : boundary.toNat≤2^bits) :
    ∃ c, ltCorrection sizes bits outputBits inputMask boundary = .ok c ∧ c.setWidth outputBits =
      (((if boundary.toNat%2^bits < (inputMask.toNat+boundary.toNat%2^bits)%2^bits then 1 else 0)
        -(if 0 < inputMask.toNat then 1 else 0)
        +(if 2^bits ≤ inputMask.toNat+boundary.toNat then 1 else 0) : ℤ) : BitVec outputBits) := by
  have hn : bits≤64 := by omega
  have hw : outputBits≤64 := by omega
  have hpow : 2^bits≤2^50 := Nat.pow_le_pow_right (by decide) hbits.2
  have hbdy : (boundary &&& lowMask bits).toNat=boundary.toNat%2^bits :=
    toNat_and_lowMask boundary hn
  have hres : ltCorrection sizes bits outputBits inputMask boundary = .ok
      (((if ((inputMask+(boundary &&& lowMask bits)) &&& lowMask bits)>boundary &&& lowMask bits
          then 1 else 0)-(if inputMask>0 then 1 else 0)
        +(if (inputMask+boundary).toNat≥2^bits then 1 else 0)) &&& lowMask outputBits) := by
    simp only [ltCorrection,CompactDcf.RingComparison.resources,validate]
    rw [if_neg (by omega)]
    exact if_neg (by omega)
  refine ⟨_,hres,?_⟩
  · have hsum : (inputMask+boundary).toNat=inputMask.toNat+boundary.toNat := by
      rw [toNat_add,mod_eq_of_lt (by omega)]
    rw [setWidth_and_lowMask _ hw,setWidth_add _ _ hw,setWidth_sub _ _ hw,
      setWidth_ite,setWidth_ite,setWidth_ite,hsum]
    simp only [gt_iff_lt,ge_iff_le,lt_def,hbdy,toNat_and_lowMask _ hn,
      toNat_add,mod_mod_of_dvd _ (Nat.pow_dvd_pow 2 hn)]
    push_cast
    rfl

/-- The differences to the boundary zero add up to the unmasked comparison, less the correction. -/
lemma eval_lt_add (h : issue aes sizes extra bits outputBits inputMask limit roots = .ok keys)
    (ho : opened.toNat<2^bits) (hp : boundary.toNat≤2^bits) :
    ∃ a b a₀ b₀ c, keys.1.eval aes 0 opened boundary = .ok a ∧ keys.1.eval aes 0 opened 0 = .ok a₀ ∧
      keys.2.eval aes 1 opened boundary = .ok b ∧ keys.2.eval aes 1 opened 0 = .ok b₀ ∧
      ltCorrection sizes bits outputBits inputMask boundary = .ok c ∧
      ((a-a₀)+(b-b₀)+c).toNat%2^outputBits =
        if (opened.toNat+(2^bits-inputMask.toNat))%2^bits < boundary.toNat then 1 else 0 := by
  obtain ⟨hb,hb',ho₁,ho₂⟩ := widths_of_issue h
  obtain ⟨hmask,-⟩ := issue_eq_ok h
  have hw : outputBits≤64 := by omega
  obtain ⟨a,b,ha,hb₁,hab⟩ := eval_add_eval h ho hp
  obtain ⟨a₀,b₀,ha₀,hb₀,hab₀⟩ := eval_add_eval h ho
    (show (0 : BitVec 64).toNat ≤ 2^bits from zero_le _)
  obtain ⟨c,hc,hcv⟩ := @ltCorrection_eq sizes _ _ _ _ ⟨hb,hb'⟩ ⟨ho₁,ho₂⟩ hmask hp
  refine ⟨a,b,a₀,b₀,c,ha,ha₀,hb₁,hb₀,hc,?_⟩
  have hword : ((a-a₀)+(b-b₀)+c).setWidth outputBits =
      ((if (opened.toNat+(2^bits-inputMask.toNat))%2^bits < boundary.toNat then 1 else 0 : ℤ) :
        BitVec outputBits) := by
    have hspl : (a-a₀)+(b-b₀)+c=(a+b)-(a₀+b₀)+c := by ring
    rw [hspl,setWidth_add _ _ hw,setWidth_sub _ _ hw,hab,hab₀,hcv, ← unmasked_lt_iff ho hmask hp]
    rw [show (0 : BitVec 64).toNat=0 from rfl,zero_mod,add_zero,mod_eq_of_lt hmask]
    push_cast
    ring
  have htoN := congrArg BitVec.toNat hword
  rw [toNat_setWidth] at htoN
  rw [htoN]
  have hone : 1<2^outputBits := Nat.one_lt_two_pow (by omega)
  split
  · exact mod_eq_of_lt hone
  · rfl

end RingComparison

/-- The scalar key under the same correction, for boundaries inside the range. -/
lemma Comparison.eval_lt_add {sizes ringSizes : Sizes} {bits : ℕ}
    {inputMask opened boundary : BitVec 32}
    (h : issue aes sizes bits inputMask roots = .ok keys) (ho : opened.toNat<2^bits)
    (hp : boundary.toNat<2^bits) :
    ∃ c, RingComparison.ltCorrection ringSizes bits 32 (inputMask.setWidth 64)
        (boundary.setWidth 64) = .ok c ∧
      (keys.1.eval aes false opened boundary-keys.1.eval aes false opened 0)
        +(keys.2.eval aes true opened boundary-keys.2.eval aes true opened 0)+c.setWidth 32 =
        if (opened.toNat+(2^bits-inputMask.toNat))%2^bits < boundary.toNat then 1 else 0 := by
  have hisu := h
  simp only [issue,ite_error_eq_ok] at hisu
  have hbits : 1≤bits ∧ bits≤32 := by omega
  have hmask : inputMask.toNat<2^bits := by omega
  have hup (x : BitVec 32) : (x.setWidth 64).toNat=x.toNat := by
    rw [toNat_setWidth,mod_eq_of_lt (by omega)]
  obtain ⟨c,hc,hcv⟩ := @RingComparison.ltCorrection_eq ringSizes bits 32
    (inputMask.setWidth 64) (boundary.setWidth 64) (by omega) (by omega) (by rwa [hup]) (by rw [hup]; exact hp.le)
  refine ⟨c,hc,?_⟩
  have hsum := Comparison.eval_add_eval h ho hp
  have hsum₀ := Comparison.eval_add_eval h ho
    (show (0 : BitVec 32).toNat < 2^bits from Nat.two_pow_pos bits)
  have hone (p : Prop) [Decidable p] : (if p then 1 else 0 : BitVec 32) =
      ((if p then 1 else 0:ℤ) : BitVec 32) := by
    split <;> simp
  have hcor (p : BitVec 32) : correction bits inputMask p =
      ((if p.toNat < (inputMask.toNat+p.toNat)%2^bits then 1 else 0:ℤ) : BitVec 32) := by
    rw [← hone,correction]
    simp only [lt_def,toNat_add_and_lowMask _ _ hbits.2]
  rw [hcor] at hsum hsum₀
  rw [show (0 : BitVec 32).toNat=0 from rfl,add_zero,mod_eq_of_lt hmask] at hsum₀
  rw [hone,← unmasked_lt_iff ho hmask hp.le,hcv,hup,hup,mod_eq_of_lt hp]
  push_cast at hsum hsum₀ ⊢
  linear_combination hsum-hsum₀

/-- One key for all public boundaries: over a ring up to the end of the range, over `u32` words
inside it. -/
theorem one_key_shares (aes : Aes) (sizes ringSizes : CompactDcf.Sizes) (extra : ℕ)
    (roots : Block × Block) :
    (∀ (bits outputBits limit : ℕ) (inputMask opened boundary : BitVec 64) (keys : RingComparison ×
      RingComparison), RingComparison.issue aes ringSizes extra bits outputBits inputMask limit
      roots = .ok keys → opened.toNat<2^bits → boundary.toNat≤2^bits →
      ∃ a b a₀ b₀ c, keys.1.eval aes 0 opened boundary = .ok a ∧ keys.1.eval aes 0 opened 0 = .ok a₀
        ∧ keys.2.eval aes 1 opened boundary = .ok b ∧ keys.2.eval aes 1 opened 0 = .ok b₀ ∧
        RingComparison.ltCorrection ringSizes bits outputBits inputMask boundary = .ok c ∧
        ((a-a₀)+(b-b₀)+c).toNat%2^outputBits =
          if (opened.toNat+(2^bits-inputMask.toNat))%2^bits < boundary.toNat then 1 else 0) ∧
    ∀ (bits : ℕ) (inputMask opened boundary : BitVec 32) (keys : Comparison × Comparison),
      Comparison.issue aes sizes bits inputMask roots = .ok keys →
      opened.toNat<2^bits → boundary.toNat<2^bits →
      (keys.1.eval aes false opened boundary+keys.2.eval aes true opened boundary
          +correction bits inputMask boundary =
        if opened.toNat < (inputMask.toNat+boundary.toNat)%2^bits then 1 else 0) ∧
      ∃ c, RingComparison.ltCorrection ringSizes bits 32 (inputMask.setWidth 64)
          (boundary.setWidth 64) = .ok c ∧
        (keys.1.eval aes false opened boundary-keys.1.eval aes false opened 0)
          +(keys.2.eval aes true opened boundary-keys.2.eval aes true opened 0)+c.setWidth 32 =
          if (opened.toNat+(2^bits-inputMask.toNat))%2^bits < boundary.toNat then 1 else 0 :=
  ⟨fun _ _ _ _ _ _ _ h ho hp => RingComparison.eval_lt_add h ho hp,
    fun _ _ _ _ _ h ho hp => ⟨Comparison.eval_add_eval h ho hp,Comparison.eval_lt_add h ho hp⟩⟩

/-- The ring key at the end of a range of two bits, and the scalar key inside it. -/
theorem one_key_shares_at :
    (∃ keys a b a₀ b₀ c, RingComparison.issue mixingAes ⟨8,32,56,352,56⟩ 16 2 9 3 4096 (11,94) =
        .ok keys ∧ keys.1.eval mixingAes 0 1 4 = .ok a ∧ keys.1.eval mixingAes 0 1 0 = .ok a₀ ∧
      keys.2.eval mixingAes 1 1 4 = .ok b ∧ keys.2.eval mixingAes 1 1 0 = .ok b₀ ∧
      RingComparison.ltCorrection ⟨8,32,56,352,56⟩ 2 9 3 4 = .ok c ∧
      ((a-a₀)+(b-b₀)+c).toNat%2^9=1) ∧
    ∃ keys, Comparison.issue mixingAes ⟨4,24,44,352,48⟩ 2 3 (11,94) = .ok keys ∧
      keys.1.eval mixingAes false 1 2+keys.2.eval mixingAes true 1 2+correction 2 3 2 = 0 ∧
      ∃ c, RingComparison.ltCorrection ⟨8,32,56,352,56⟩ 2 32 3 2 = .ok c ∧
        (keys.1.eval mixingAes false 1 2-keys.1.eval mixingAes false 1 0)
          +(keys.2.eval mixingAes true 1 2-keys.2.eval mixingAes true 1 0)+c.setWidth 32 = 0 := by
  obtain ⟨hring,hscl⟩ := one_key_shares mixingAes ⟨4,24,44,352,48⟩ ⟨8,32,56,352,56⟩ 16 (11,94)
  constructor
  · obtain ⟨a,b,a₀,b₀,c,ha,ha₀,hb,hb₀,hc,hsum⟩ := hring 2 9 4096 3 1 4 _ rfl (by decide) (by decide)
    exact ⟨_,a,b,a₀,b₀,c,rfl,ha,ha₀,hb,hb₀,hc,hsum⟩
  · obtain ⟨hmas,c,hc,hsum⟩ := hscl 2 3 1 2 _ rfl (by decide) (by decide)
    exact ⟨_,rfl,hmas,c,hc,hsum⟩

/-- The scalar key does not read the end of a range as its boundary: the caller reduces it first. -/
theorem scalar_end_differs :
    ∃ keys c, Comparison.issue mixingAes ⟨4,24,44,352,48⟩ 1 0 (11,94) = .ok keys ∧
      RingComparison.ltCorrection ⟨8,32,56,352,56⟩ 1 32 0 2 = .ok c ∧
      (keys.1.eval mixingAes false 1 2-keys.1.eval mixingAes false 1 0)
        +(keys.2.eval mixingAes true 1 2-keys.2.eval mixingAes true 1 0)+c.setWidth 32 ≠
        if (1+(2^1-0))%2^1<2 then 1 else 0 :=
  ⟨_,_,rfl,rfl,by decide +kernel⟩

end Pllm.Fss.IntervalFss
