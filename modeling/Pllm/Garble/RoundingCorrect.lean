import Pllm.Garble.ArithmeticCorrect
import Pllm.Lib.Rounding

/-! Products, ties-to-even rounding and restoring division of the circuit builder. -/
namespace Pllm.Garble
open Pllm.Lib Retained List Nat Draft Issuer

section
variable {env : List Bool} {d : Draft} {start : BooleanCircuitBuilder} {iss : Issuer}
  {ls rs ws : List BooleanWire} {n m v u : ℕ}

lemma forall₂_zipIdx {α β : Type} {R : α → β → Prop} {xs : List α} {ys : List β} (h : Forall₂ R xs
    ys) (k : ℕ) : Forall₂ (fun x y => R x.1 y.1 ∧ x.2=y.2) (xs.zipIdx k) (ys.zipIdx k) := by
  induction h generalizing k with
  | nil => exact .nil
  | cons hab h ih => exact .cons ⟨hab,rfl⟩ (ih (k+1))

lemma foldl_rows (bits : List Bool) (k p : ℕ) :
    (bits.zipIdx k).foldl (fun p bit => p+v*bit.1.toNat*2^bit.2) p = p+v*(2^k*wordValue bits) := by
  induction bits generalizing k p with
  | nil => simp [wordValue]
  | cons b bits ih =>
    rw [zipIdx_cons,List.foldl_cons,ih,wordValue]
    ring

lemma draws_multiplyRow {zero : BooleanWire} {product : List BooleanWire} {right : BooleanWire × ℕ}
    {bit : Bool × ℕ} {width p : ℕ} (pos : 0<width) (hz : d.Has env zero false) (hl :
    HasNumber env ls n v d) (hp : HasNumber env product width (p%2^width)
    d) (hr : d.Has env right.1 bit.1 ∧ right.2=bit.2) :
    Draws iss.hash start (iss.multiplyRow zero ls width product right) d (n+(5*width+1))
      (n+2*width) fun out e => HasNumber env out width ((p+v*bit.1.toNat*2^bit.2)%2^width) e := by
  obtain ⟨as,word,rfl,rfl⟩ := hl
  have each : Draws iss.hash start (ls.mapM fun leftBit => iss.and leftBit right.1) d
      (1*as.length) (1*as.length) fun us e =>
        Forall₂ (fun u a => e.Has env u (a && bit.1)) us as :=
    Draws.mapM_each (V := fun w b e => e.Has env w b) (fun _ _ _ _ _ h g => h.later g) (R :=
      fun a u e => e.Has env u (a && bit.1)) (fun _ _ _ _ _ has grown => has.later grown)
      word fun e _ x y _ grown h => draws_and h (hr.1.later grown)
  rw [one_mul] at each
  refine each.bind fun bits e _ grown h => ?_
  have value : wordValue (as.map (· && bit.1))=wordValue as*bit.1.toNat := by
    cases bit.1
    · have none : as.map (· && false)=replicate as.length false := by
        simp only [Bool.and_false,map_const']
      rw [none,wordValue_replicate]
      rfl
    · simp
  have row : HasNumber env bits as.length (wordValue as*bit.1.toNat) e :=
    ⟨_,forall₂_map_right_iff.mpr h,length_map _,value⟩
  refine ((draws_addUnsigned pos (hp.later grown) (row.placed (hz.later grown) right.2)).mono
    fun out e' _ _ sum => sum.cast rfl ?_).bind_pure
  rw [← add_mod,hr.2]

lemma draws_multiplyUnsignedWide (hn : 0<n) (hm : 0 < m) (short : n+m≤128) (hl : HasNumber env ls
    n v d) (hr : HasNumber env rs m u d) : Draws iss.hash start (iss.multiplyUnsignedWide ls rs) d
    ((n+(5*(n+m)+1))*m+1) ((n+2*(n+m))*m) fun out e => HasNumber env out (n+m) (v*u) e := by
  have left := hl.length
  have right := hr.length
  have fits : v*u<2^(n+m) := pow_add 2 n m ▸ Nat.mul_lt_mul'' hl.lt hr.lt
  obtain ⟨bs,word,rfl,rfl⟩ := hr
  have operands : ¬(ls=[] ∨ rs=[]) := by
    rw [← length_eq_zero_iff,← length_eq_zero_iff]
    omega
  rw [multiplyUnsignedWide,if_neg operands,if_neg (by omega),left,right]
  refine (draws_constant env false).bind_free fun zero e _ grown hz => ?_
  have looped : Draws iss.hash start (rs.zipIdx.foldlM (iss.multiplyRow zero ls (n+bs.length))
      (replicate (n+bs.length) zero)) e ((n+(5*(n+bs.length)+1))*bs.zipIdx.length)
      ((n+2*(n+bs.length))*bs.zipIdx.length) _ :=
    Draws.foldlM_each (g := fun p (bit : Bool × ℕ) => p+v*bit.1.toNat*2^bit.2)
      (V := fun (w : BooleanWire × ℕ) (bit : Bool × ℕ) e => (e.Has env w.1 bit.1 ∧ w.2=bit.2) ∧
        e.Has env zero false ∧ HasNumber env ls n v e)
      (fun _ _ _ _ _ h g => ⟨⟨h.1.1.later g,h.1.2⟩,h.2.1.later g,h.2.2.later g⟩)
      (fun out p e => HasNumber env out (n+bs.length) (p%2^(n+bs.length)) e)
      (c := 0) ((forall₂_zipIdx (word.later grown) 0).imp fun _ _ h => ⟨h,hz,hl.later grown⟩)
      ((Draft.HasNumber.zeros hz _).cast rfl (zero_mod _).symm)
      fun out p e x y _ h hp => draws_multiplyRow (by omega) h.2.1 h.2.2 hp h.1
  rw [length_zipIdx] at looped
  refine looped.mono fun out e' _ _ product => product.cast rfl ?_
  rw [foldl_rows,zero_add,pow_zero,one_mul,mod_eq_of_lt fits]

lemma draws_multiplyUnsigned (hn : 0<n) (short : n≤64) (hl : HasNumber env ls n v d)
    (hr : HasNumber env rs n u d) : Draws iss.hash start (iss.multiplyUnsigned ls rs) d
    ((11*n+1)*n+1) (5*n*n) fun out e => HasNumber env out (2*n) (v*u) e := by
  have left := hl.length
  have right := hr.length
  have operands : ¬(ls=[] ∨ ls.length≠rs.length ∨ ls.length>64) := by
    rw [← length_eq_zero_iff]
    omega
  rw [multiplyUnsigned,if_neg operands]
  refine ((draws_multiplyUnsignedWide hn hn (by omega) hl hr).count (by ring) (by ring)).mono
    fun out e _ _ h => h.cast (by omega) rfl

lemma testBit_step (factor k : ℕ) :
    factor%2^(k+1) = factor%2^k+(if factor.testBit k then 2^k else 0) := by
  rw [mod_pow_succ,testBit_eq_decide_div_mod_eq]
  split
  · next h =>
    rw [decide_eq_true_eq] at h
    rw [h,mul_one]
  · next h =>
    rw [decide_eq_true_eq] at h
    rw [show factor/2^k%2=0 by omega,mul_zero]

/-- What the loop over the bits of a public factor has added up. -/
def plainPlaced (v factor p shift : ℕ) : ℕ := if factor.testBit shift then p+v*2^shift else p

lemma foldl_plainPlaced (factor k : ℕ) :
    (range k).foldl (plainPlaced v factor) 0 = v*(factor%2^k) := by
  induction k with
  | zero => rw [pow_zero,mod_one]; rfl
  | succ k ih =>
    rw [range_succ,foldl_append,ih,List.foldl_cons,foldl_nil,plainPlaced,testBit_step]
    split <;> ring

lemma onesBelow_succ (k factor : ℕ) :
    onesBelow (k+1) factor = onesBelow k factor+(factor.testBit k).toNat := by
  rw [onesBelow,range_succ,map_append,count_append,map_singleton]
  cases factor.testBit k <;> rfl

lemma sum_onesBelow (each factor k : ℕ) :
    ((range k).map fun shift => if factor.testBit shift then each else 0).sum =
      onesBelow k factor*each := by
  induction k with
  | zero => exact (zero_mul each).symm
  | succ k ih =>
    rw [range_succ,map_append,List.sum_append,ih,onesBelow_succ,add_mul,
      map_singleton,sum_singleton]
    cases factor.testBit k
    · rw [if_neg (by decide),Bool.toNat_false,zero_mul]
    · rw [if_pos rfl,Bool.toNat_true,one_mul]

lemma draws_multiplyByPublic {factor outW : ℕ} (hn : 0<n) (pos : 0<outW)
    (short : outW≤128) (small : factor<2^128) (h : HasNumber env ws n v d) : Draws iss.hash start
    (iss.multiplyByPublic ws factor outW) d (onesBelow 128 factor*(5*outW+1)+1)
    (onesBelow 128 factor*(2*outW)) fun out e => HasNumber env out outW (v*factor%2^outW) e := by
  have len := h.length
  have operands : ¬(ws=[] ∨ outW=0 ∨ outW>128) := by
    rw [← length_eq_zero_iff]
    omega
  rw [multiplyByPublic,if_neg operands]
  refine (draws_constant env false).bind_free fun zero e _ grown hz => ?_
  have looped : Draws iss.hash start ((range 128).foldlM
      (iss.addPlaced zero ws factor outW) (replicate outW zero)) e
      ((range 128).map fun shift => if factor.testBit shift then 5*outW+1 else 0).sum
      ((range 128).map fun shift => if factor.testBit shift then 2*outW else 0).sum _ :=
    Draws.foldlM (g := plainPlaced v factor)
      (fun shift => if factor.testBit shift then 5*outW+1 else 0)
      (fun shift => if factor.testBit shift then 2*outW else 0)
      (V := fun x y e => x=y ∧ e.Has env zero false ∧ HasNumber env ws n v e)
      (fun _ _ _ _ _ h g => ⟨h.1,h.2.1.later g,h.2.2.later g⟩) (fun out p e => HasNumber
      env out outW (p%2^outW) e) (c := 0) (forall₂_same.mpr fun _ _ =>
      ⟨rfl,hz,h.later grown⟩) ((Draft.HasNumber.zeros hz _).cast rfl (zero_mod _).symm)
      fun out p e x shift _ here hp => by
        obtain ⟨rfl,zeroHere,number⟩ := here
        rw [addPlaced,plainPlaced]
        split
        · refine ((draws_addUnsigned pos hp (number.placed zeroHere x)).mono
            fun out e' _ _ sum => sum.cast rfl ?_).bind_pure
          rw [← add_mod]
        · exact Draws.pure hp
  rw [sum_onesBelow,sum_onesBelow] at looped
  refine looped.mono fun out e' _ _ product => product.cast rfl ?_
  rw [foldl_plainPlaced,mod_eq_of_lt small]

lemma onesBelow_two_pow (s : ℕ) : onesBelow (s+1) (2^s)=1 := by
  have below : ∀ k ≤ s,onesBelow k (2^s)=0 := by
    intro k hk
    induction k with
    | zero => rfl
    | succ k ih =>
      rw [onesBelow_succ,ih (by omega),testBit_two_pow_of_ne (by omega)]
      rfl
  rw [onesBelow_succ,below s le_rfl,testBit_two_pow_self]
  rfl

lemma round_carry {r half : ℕ} (odd : Bool) : (!(decide (r<half) ^^ decide (r=half))
    ^^ (decide (r=half) && odd)) = decide (2*half<2*r ∨ (2*r=2*half ∧ odd=true)) := by
  rcases lt_trichotomy r half with h | h | h
  · simp [h,h.ne,show ¬half < r by omega]
  · subst h
    cases odd <;> simp
  · simp [h,h.ne',show ¬r < half by omega]

lemma draws_roundShiftTiesEven {shift outW : ℕ} (pos : 0 < shift) (inside : shift<n)
    (short : shift≤128) (wide : n-shift+1≤outW) (output : outW≤128) (h : HasNumber env ws n v d) :
    Draws iss.hash start (iss.roundShiftTiesEven ws shift outW) d (2*shift+2*outW+9)
    (shift+1+1+outW) fun out e => HasNumber env out outW (roundNat v (2^shift)) e := by
  rw [roundShiftTiesEven,if_neg (by rw [h.length]; omega)]
  obtain ⟨k,rfl⟩ : ∃ k,shift=k+1 := ⟨shift-1,by omega⟩
  have half : 2^(k+1-1)<2^(k+1) := Nat.pow_lt_pow_right one_lt_two (by omega)
  have ones : onesBelow (k+1) (2^(k+1-1))=1 := onesBelow_two_pow k
  rw [show k+1+1+1+outW=(k+1+onesBelow (k+1) (2^(k+1-1)))+(outW+1) by omega,
    show 2*(k+1)+2*outW+9 =
      (2*(k+1+onesBelow (k+1) (2^(k+1-1)))+2)+(2*outW+1+1+1+1+1) by omega]
  refine (draws_compareUnsignedToConstant pos short half (h.take inside.le)).bind
    fun compared e₁ _ g₁ h₁ => ?_
  refine (draws_xor h₁.1 h₁.2).bind_free fun belowOrEqual e₂ _ g₂ h₂ => ?_
  refine (draws_not h₂).bind_free fun aboveHalf e₃ _ g₃ h₃ => ?_
  have g₁₃ := (g₁.trans g₂).trans g₃
  refine (draws_and (h₁.2.later (g₂.trans g₃)) ((h.bit inside ⟨0,0⟩).later g₁₃)).bind_and
    fun tieAndOdd e₄ _ g₄ h₄ => ?_
  refine (draws_xor (h₃.later g₄) h₄).bind_free fun carry e₅ _ g₅ h₅ => ?_
  refine (draws_constant env false).bind_free fun zero e₆ _ g₆ hz => ?_
  have since := g₁₃.trans ((g₄.trans g₅).trans g₆)
  have word := ((h.drop inside.le).later since).resized hz (m := outW) (by omega)
  refine (draws_increment word (h₅.later g₆)).mono fun out e _ _ has => has.cast rfl ?_
  have fits : v/2^(k+1)+1<2^outW := by
    have small := (h.drop inside.le).lt
    calc v/2^(k+1)+1≤2^(n-(k+1)) := small
      _ < 2^outW := Nat.pow_lt_pow_right one_lt_two (by omega)
  rw [round_carry,testBit_eq_decide_div_mod_eq,Nat.add_sub_cancel,← pow_succ',roundNat,
    mod_eq_of_lt (lt_of_le_of_lt (Nat.add_le_add_left (Bool.toNat_le _) _) fits)]
  simp only [decide_eq_true_eq]

end

end Pllm.Garble
