import Pllm.Garble.Drawing

/-! What the arithmetic circuits compute, as numbers: each gadget with the number its word carries
and its AND gates. -/
namespace Pllm.Garble
open Pllm.Lib Retained Draft List Nat Issuer Draws
open Forall₂ (length_eq)

/-- A word of wires carries a number. -/
def Draft.HasNumber (env : List Bool) (ws : List BooleanWire) (width value : ℕ) (d : Draft) :
    Prop :=
  ∃ bits,d.HasWord env ws bits ∧ bits.length=width ∧ wordValue bits = value

variable {k : ℕ} {bits : Bool × Bool} {plain : List Bool × Bool} {negate : BooleanWire} {s : Bool}

namespace Draft.HasNumber
variable {env : List Bool} {d e : Draft} {ws us : List BooleanWire} {n m v u : ℕ}
  {cost : Tally} {w : BooleanWire} {b : Bool}

section
variable (h : HasNumber env ws n v d)
include h

lemma later (grown : Grown d e cost) : HasNumber env ws n v e := by
  obtain ⟨bits,word,len,value⟩ := h
  exact ⟨bits,word.later grown,len,value⟩

lemma length : ws.length=n := by
  obtain ⟨bits,word,len,-⟩ := h
  exact (length_eq word).trans len

lemma lt : v<2^n := by
  obtain ⟨bits,-,rfl,rfl⟩ := h
  exact wordValue_lt bits

lemma cast (width : n=m) (value : v=u) : HasNumber env ws m u d := width ▸ value ▸ h

end

lemma nil : HasNumber env [] 0 0 d := ⟨[],.nil,rfl,rfl⟩

lemma cons (hw : d.Has env w b) (h : HasNumber env ws n v d) :
    HasNumber env (w::ws) (n+1) (b.toNat+2*v) d := by
  obtain ⟨bits,word,rfl,rfl⟩ := h
  exact ⟨b::bits,.cons hw word,rfl,rfl⟩

lemma append (h : HasNumber env ws n v d) (h' : HasNumber env us m u d) :
    HasNumber env (ws++us) (n+m) (v+2^n*u) d := by
  obtain ⟨bits,word,rfl,rfl⟩ := h
  obtain ⟨bits',word',rfl,rfl⟩ := h'
  exact ⟨bits++bits',rel_append word word',length_append,wordValue_append _ _⟩

lemma zeros (h : d.Has env w false) (n : ℕ) : HasNumber env (replicate n w) n 0 d := by
  induction n with
  | zero => exact nil
  | succ n ih => exact cons h ih

lemma word (h : HasNumber env ws n v d) : d.HasWord env ws ((range n).map v.testBit) := by
  have small := h.lt
  obtain ⟨bits,word,len,value⟩ := h
  have same : bits=(range n).map v.testBit := by
    refine wordValue_injective ?_ ?_
    · rw [len,length_map,length_range]
    · rw [wordValue_testBit,mod_eq_of_lt small,value]
  exact same ▸ word

section
variable (h : HasNumber env ws n v d)
include h

lemma bit {i : ℕ} (hi : i<n) (default : BooleanWire) :
    d.Has env (ws.getD i default) (v.testBit i) := by
  have inside : i<ws.length := h.length.symm ▸ hi
  have pointwise := Forall₂.get h.word inside (by simpa using hi)
  rw [getD_eq_getElem _ _ inside]
  simpa using pointwise

lemma split (hk : k≤n) :
    HasNumber env (ws.take k) k (v%2^k) d ∧ HasNumber env (ws.drop k) (n-k) (v/2^k) d := by
  obtain ⟨bits,word,len,value⟩ := h
  have hlen : (bits.take k).length=k := by rw [length_take,len,min_eq_left hk]
  have whole := wordValue_append (bits.take k) (bits.drop k)
  have low := wordValue_lt (bits.take k)
  rw [take_append_drop,value,hlen] at whole
  rw [hlen] at low
  have pos := Nat.two_pow_pos k
  refine ⟨⟨bits.take k,forall₂_take k word,hlen,?_⟩,
    ⟨bits.drop k,forall₂_drop k word,by rw [length_drop,len],?_⟩⟩
  · rw [whole,add_mul_mod_self_left,mod_eq_of_lt low]
  · rw [whole,add_mul_div_left _ _ pos,div_eq_of_lt low,zero_add]

lemma take (hk : k≤n) : HasNumber env (ws.take k) k (v%2^k) d := (h.split hk).1

lemma drop (hk : k≤n) : HasNumber env (ws.drop k) (n-k) (v/2^k) d := (h.split hk).2

lemma resized (hz : d.Has env w false) (hm : n ≤ m) :
    HasNumber env (Issuer.resized w m ws) m v d := by
  have whole := (h.append (zeros hz m)).take (Nat.le_add_left m n)
  refine whole.cast rfl ?_
  rw [mul_zero,add_zero,mod_eq_of_lt]
  exact h.lt.trans_le (Nat.pow_le_pow_right two_pos hm)

lemma placed (hz : d.Has env w false) (shift : ℕ) :
    HasNumber env (Issuer.placed w m shift ws) m (v*2^shift%2^m) d := by
  have whole := ((zeros hz shift).append (h.append (zeros hz m))).take
    (show m ≤ shift+(n+m) by omega)
  refine whole.cast rfl ?_
  rw [zero_add,mul_zero,add_zero,mul_comm]

lemma parity (hn : 0<n) (default : BooleanWire) :
    d.Has env (ws.getD 0 default) (decide (v%2=1)) := by
  have has := h.bit hn default
  rwa [testBit_zero] at has

end

end Draft.HasNumber

section
variable {env : List Bool} {d : Draft} {start : BooleanCircuitBuilder} {iss : Issuer}
  {ls rs ws : List BooleanWire} {n m v u : ℕ}

variable (env) in
lemma draws_constantWord {value width : ℕ}
    (pos : 0<width) (short : width≤128) (fits : value<2^width) : Draws iss.hash start
    (iss.constantWord value width) d width 0 fun ws e => e.HasNumber env ws width value := by
  rw [Issuer.constantWord,if_neg (by omega)]
  have each : Draws iss.hash start
      ((range width).mapM fun shift => iss.constant (value.testBit shift)) d
      (1*(range width).length) (0*(range width).length) fun ws e =>
        Forall₂ (fun w i => e.Has env w (value.testBit i)) ws (range width) :=
    Draws.mapM_each (V := fun x y _ => x=y) (fun _ _ _ _ _ h _ => h) (R := fun i w e =>
      e.Has env w (value.testBit i)) (fun _ _ _ _ _ has grown => has.later grown)
      (forall₂_same.mpr fun _ _ => rfl) fun e _ x y _ _ same => same ▸ draws_constant env _
  refine (each.count (by simp) (by simp)).mono fun ws e _ _ h => ⟨_,forall₂_map_right_iff.mpr h,?_,?_⟩
  · rw [length_map,length_range]
  · rw [wordValue_testBit,mod_eq_of_lt fits]

variable {state : List BooleanWire × BooleanWire}

lemma draws_addBit {ws : BooleanWire × BooleanWire}
    (hs : HasSum env state plain d) (hw : HasPair env ws bits d) : Draws iss.hash start
    (iss.addBit state ws) d 5 2 fun out e => HasSum env out (plainAdd plain bits) e := by
  refine (draws_xor hw.1 hw.2).bind_free fun either e₁ _ g₁ h₁ => ?_
  refine (draws_xor h₁ (hs.2.later g₁)).bind_free fun sumBit e₂ _ g₂ h₂ => ?_
  refine (draws_and (hw.1.later (g₁.trans g₂)) (hw.2.later (g₁.trans g₂))).bind_and
    fun both e₃ _ g₃ h₃ => ?_
  refine (draws_and (hs.2.later ((g₁.trans g₂).trans g₃)) (h₁.later (g₂.trans g₃))).bind_and
    fun carryEither e₄ _ g₄ h₄ => ?_
  refine (draws_xor (h₃.later g₄) h₄).bind_free fun carry e₅ _ g₅ h₅ => ?_
  have since := ((g₁.trans g₂).trans g₃).trans (g₄.trans g₅)
  exact pure ⟨(hs.1.later since).snoc (h₂.later (g₃.trans (g₄.trans g₅))),h₅⟩

lemma draws_addUnsigned (hn : 0<n) (hl : HasNumber env ls n v d)
    (hr : HasNumber env rs n u d) : Draws iss.hash start (iss.addUnsigned ls rs) d
    (5*n+1) (2*n) fun out e => HasNumber env out.1 n ((v+u)%2^n) e := by
  obtain ⟨as,word,rfl,rfl⟩ := hl
  obtain ⟨bs,word',same,rfl⟩ := hr
  have left := length_eq word
  have right := length_eq word'
  have operands : ¬(ls=[] ∨ ls.length≠rs.length) := by
    rw [← length_eq_zero_iff]
    omega
  rw [addUnsigned,if_neg operands]
  refine (draws_constant env false).bind_free fun carry e _ grown has => ?_
  have looped : Draws iss.hash start ((ls.zip rs).foldlM iss.addBit ([],carry)) e
      (5*(as.zip bs).length) (2*(as.zip bs).length) _ :=
    foldlM_each (fun _ _ _ _ _ h g => h.later g) (fun out bits e => HasSum env out bits
      e) (c := ([],false)) ((word.later grown).zip (word'.later grown)) ⟨.nil,has⟩ fun state plain e
      ws bits _ hw hs => draws_addBit hs hw
  rw [length_zip,same,min_self] at looped
  refine looped.mono fun out e _ _ sum => ?_
  obtain ⟨bits,final,eq,len,value⟩ := foldl_plainAdd as bs same.symm [] false
  rw [eq] at sum
  refine ⟨bits,sum.1,len,?_⟩
  have small := wordValue_lt bits
  rw [len] at small
  rw [← mod_eq_of_lt small,← add_mul_mod_self_left _ (2^as.length) final.toNat,value]
  rfl

lemma draws_subtractBit {ws : BooleanWire × BooleanWire} (hs : HasSum env state plain d)
    (hw : HasPair env ws bits d) : Draws iss.hash start (iss.subtractBit state ws)
    d 7 2 fun out e => HasSum env out (plainSubtract plain bits) e := by
  refine (draws_xor hw.1 hw.2).bind_free fun either e₁ _ g₁ h₁ => ?_
  refine (draws_xor h₁ (hs.2.later g₁)).bind_free fun difference e₂ _ g₂ h₂ => ?_
  refine (draws_not (hw.1.later (g₁.trans g₂))).bind_free fun notLeft e₃ _ g₃ h₃ => ?_
  refine (draws_and h₃ (hw.2.later ((g₁.trans g₂).trans g₃))).bind_and
    fun directBorrow e₄ _ g₄ h₄ => ?_
  refine (draws_not (h₁.later ((g₂.trans g₃).trans g₄))).bind_free fun same e₅ _ g₅ h₅ => ?_
  refine (draws_and (hs.2.later ((((g₁.trans g₂).trans g₃).trans g₄).trans g₅)) h₅).bind_and
    fun carriedBorrow e₆ _ g₆ h₆ => ?_
  refine (draws_xor (h₄.later (g₅.trans g₆)) h₆).bind_free fun borrow e₇ _ g₇ h₇ => ?_
  have rest := ((g₃.trans g₄).trans (g₅.trans g₆)).trans g₇
  exact pure ⟨(hs.1.later ((g₁.trans g₂).trans rest)).snoc (h₂.later rest),h₇⟩

/-- The difference wraps around where it borrows. -/
lemma draws_subtractUnsigned (hn : 0<n) (short : n≤128)
    (hl : HasNumber env ls n v d) (hr : HasNumber env rs n u d) :
    Draws iss.hash start (iss.subtractUnsigned ls rs) d (7*n+1) (2*n) fun out e =>
      HasNumber env out.1 n (if v < u then v+2^n-u else v-u) e ∧
        e.Has env out.2 (decide (v < u)) := by
  obtain ⟨as,word,rfl,rfl⟩ := hl
  obtain ⟨bs,word',same,rfl⟩ := hr
  have left := length_eq word
  have right := length_eq word'
  have operands : ¬(ls=[] ∨ ls.length≠rs.length ∨ ls.length>128) := by
    rw [← length_eq_zero_iff]
    omega
  rw [subtractUnsigned,if_neg operands]
  refine (draws_constant env false).bind_free fun borrow e _ grown has => ?_
  have looped : Draws iss.hash start ((ls.zip rs).foldlM iss.subtractBit ([],borrow)) e
      (7*(as.zip bs).length) (2*(as.zip bs).length) _ :=
    foldlM_each (fun _ _ _ _ _ h g => h.later g) (fun out bits e => HasSum env out bits
      e) (c := ([],false)) ((word.later grown).zip (word'.later grown)) ⟨.nil,has⟩ fun state plain e
      ws bits _ hw hs => draws_subtractBit hs hw
  rw [length_zip,same,min_self] at looped
  refine looped.mono fun out e _ _ sum => ?_
  obtain ⟨bits,final,eq,len,value⟩ := foldl_plainSubtract as bs same.symm [] false
  rw [eq] at sum
  have small := wordValue_lt bits
  rw [len] at small
  cases final with
  | false =>
    simp only [Bool.toNat_false,add_zero] at value
    have borrowed : ¬wordValue as < wordValue bs := by omega
    rw [if_neg borrowed,decide_eq_false borrowed]
    exact ⟨⟨bits,sum.1,len,by omega⟩,sum.2⟩
  | true =>
    simp only [Bool.toNat_false,Bool.toNat_true,add_zero] at value
    have borrowed : wordValue as < wordValue bs := by omega
    rw [if_pos borrowed,decide_eq_true borrowed]
    exact ⟨⟨bits,sum.1,len,by omega⟩,sum.2⟩

lemma draws_compareBit {state : BooleanWire × BooleanWire} {plain : Bool × Bool}
    {ws : BooleanWire × Bool} (hs : HasPair env state plain d) (hw : d.Has env ws.1 bits.1 ∧
    ws.2=bits.2) : Draws iss.hash start (iss.compareBit state ws) d (2*(1+bits.2.toNat))
    (1+bits.2.toNat) fun out e => HasPair env out (plainCompare plain bits) e := by
  rw [compareBit,plainCompare,hw.2]
  cases bits.2
  · change Draws _ _ _ d 2 1 _
    refine (draws_not hw.1).bind_free fun notValue e₁ _ g₁ h₁ => ?_
    refine (draws_and (hs.2.later g₁) h₁).bind_and fun equal e₂ _ g₂ h₂ => ?_
    exact pure ⟨hs.1.later (g₁.trans g₂),h₂⟩
  · change Draws _ _ _ d 4 2 _
    refine (draws_not hw.1).bind_free fun notValue e₁ _ g₁ h₁ => ?_
    refine (draws_and (hs.2.later g₁) h₁).bind_and fun newlyLess e₂ _ g₂ h₂ => ?_
    refine (draws_xor (hs.1.later (g₁.trans g₂)) h₂).bind_free fun less e₃ _ g₃ h₃ => ?_
    have since := (g₁.trans g₂).trans g₃
    refine (draws_and (hs.2.later since) (hw.1.later since)).bind_and fun equal e₄ _ g₄ h₄ => ?_
    exact pure ⟨h₃.later g₄,h₄⟩

/-- The one bits of a number among its lowest. -/
def onesBelow (n v : ℕ) : ℕ := ((List.range n).map v.testBit).count true

lemma sum_toNat (bits : List Bool) : (bits.map fun b => 1+b.toNat).sum = bits.length+bits.count true := by
  induction bits with
  | nil => rfl
  | cons b bits ih =>
    rw [map_cons,sum_cons,ih,count_cons]
    cases b <;> simp <;> omega

lemma draws_compareUnsignedToConstant {constant : ℕ} (hn : 0<n)
    (short : n≤128) (fits : constant<2^n) (h : HasNumber env ws n v d) : Draws iss.hash start
    (iss.compareUnsignedToConstant ws constant) d (2*(n+onesBelow n constant)+2) (n+onesBelow
    n constant) fun out e => HasPair env out (decide (v < constant),decide (v=constant)) e := by
  obtain ⟨as,word,rfl,rfl⟩ := h
  have same := length_eq word
  have nonempty : ¬(ws=[] ∨ ws.length>128) := by
    rw [← length_eq_zero_iff]
    omega
  rw [compareUnsignedToConstant,if_neg nonempty,if_neg (by rw [same]; omega),same]
  refine (draws_constant env false).bind_free fun less e₁ _ g₁ h₁ => ?_
  refine (draws_constant env true).bind_free fun equal e₂ _ g₂ h₂ => ?_
  have len : ((range as.length).map constant.testBit).length=as.length := by
    rw [length_map,length_range]
  have costs : ((as.zip ((range as.length).map constant.testBit)).reverse.map
      fun bits => 1+bits.2.toNat).sum = as.length+onesBelow as.length constant := by
    have apart : (fun bits : Bool × Bool => 1+bits.2.toNat)=(fun b => 1+b.toNat) ∘ Prod.snd := rfl
    rw [map_reverse,sum_reverse,apart,← map_map,map_snd_zip (by rw [len]),sum_toNat,len,onesBelow]
  rw [← costs,← sum_map_mul_left]
  have compared := foldl_plainCompare len.symm
  rw [wordValue_testBit,mod_eq_of_lt fits] at compared
  rw [← compared]
  refine Draws.foldlM (fun bits : Bool × Bool => 2*(1+bits.2.toNat))
    (fun bits : Bool × Bool => 1+bits.2.toNat) (fun _ _ _ _ _ has grown =>
    ⟨has.1.later grown,has.2⟩) (fun out bits e => HasPair env out bits e) ?_ ⟨h₁.later g₂,h₂⟩
    fun state plain e ws bits _ hw hs => draws_compareBit hs hw
  exact rel_reverse (word.later (g₁.trans g₂)).zip_constant

def plainCompareBits (state bits : Bool × Bool) : Bool × Bool :=
  (state.1 ^^ (state.2 && (!bits.1 && bits.2)),state.2 && !(bits.1 ^^ bits.2))

lemma foldl_plainCompareBits {as bs : List Bool} (same : as.length=bs.length) :
    (as.zip bs).reverse.foldl plainCompareBits (false,true) =
      (decide (wordValue as < wordValue bs),decide (wordValue as = wordValue bs)) := by
  induction as generalizing bs with
  | nil =>
    obtain rfl := length_eq_zero_iff.mp same.symm
    rfl
  | cons a as ih =>
    obtain ⟨b,bs,rfl⟩ := exists_cons_of_length_eq_add_one same.symm
    rw [zip_cons_cons,reverse_cons,foldl_append,ih (succ.inj same)]
    obtain ⟨less,equal⟩ := compare_step a b (wordValue as) (wordValue bs)
    rw [wordValue,wordValue,← less,← equal]
    rfl

lemma draws_compareBits {state ws : BooleanWire × BooleanWire} {plain bits : Bool × Bool} (hs :
    HasPair env state plain d) (hw : HasPair env ws bits d) : Draws iss.hash start (iss.compareBits
    state ws) d 7 3 fun out e => HasPair env out (plainCompareBits plain bits) e := by
  refine (draws_not hw.1).bind_free fun notLeft e₁ _ g₁ h₁ => ?_
  refine (draws_and h₁ (hw.2.later g₁)).bind_and fun leftLess e₂ _ g₂ h₂ => ?_
  refine (draws_and (hs.2.later (g₁.trans g₂)) h₂).bind_and fun newlyLess e₃ _ g₃ h₃ => ?_
  have g₁₃ := (g₁.trans g₂).trans g₃
  refine (draws_xor (hs.1.later g₁₃) h₃).bind_free fun less e₄ _ g₄ h₄ => ?_
  have g₁₄ := g₁₃.trans g₄
  refine (draws_xor (hw.1.later g₁₄) (hw.2.later g₁₄)).bind_free fun different e₅ _ g₅ h₅ => ?_
  refine (draws_not h₅).bind_free fun same e₆ _ g₆ h₆ => ?_
  have g₅₆ := g₅.trans g₆
  refine (draws_and (hs.2.later (g₁₄.trans g₅₆)) h₆).bind_and fun equal e₇ _ g₇ h₇ => ?_
  exact pure ⟨h₄.later (g₅₆.trans g₇),h₇⟩

lemma draws_compareUnsigned (hn : 0<n) (short : n≤128) (hl : HasNumber env ls n v d)
    (hr : HasNumber env rs n u d) : Draws iss.hash start (iss.compareUnsigned ls rs) d
    (7*n+2) (3*n) fun out e => HasPair env out (decide (v < u),decide (v=u)) e := by
  obtain ⟨as,word,rfl,rfl⟩ := hl
  obtain ⟨bs,word',same,rfl⟩ := hr
  have left := length_eq word
  have right := length_eq word'
  have operands : ¬(ls=[] ∨ ls.length≠rs.length ∨ ls.length>128) := by
    rw [← length_eq_zero_iff]
    omega
  rw [Issuer.compareUnsigned,if_neg operands]
  refine (draws_constant env false).bind_free fun less e₁ _ g₁ h₁ => ?_
  refine (draws_constant env true).bind_free fun equal e₂ _ g₂ h₂ => ?_
  have since := g₁.trans g₂
  have looped : Draws iss.hash start ((ls.zip rs).reverse.foldlM iss.compareBits (less,equal))
      e₂ (7*(as.zip bs).reverse.length) (3*(as.zip bs).reverse.length) _ :=
    foldlM_each (fun _ _ _ _ _ h g => h.later g) (fun out bits e => HasPair env out
      bits e) (c := (false,true)) (rel_reverse ((word.later since).zip (word'.later since)))
      ⟨h₁.later g₂,h₂⟩ fun state plain e ws bits _ hw hs => draws_compareBits hs hw
  rwa [foldl_plainCompareBits same.symm,length_reverse,length_zip,same,min_self] at looped

variable {condition : BooleanWire} {c : Bool}

lemma draws_selectBit {ws : BooleanWire × BooleanWire} (hc : d.Has env condition c) (hw : HasPair env ws bits d) :
    Draws iss.hash start (iss.selectBit condition ws) d 3 1 fun w e =>
      e.Has env w (if c then bits.2 else bits.1) := by
  refine (draws_xor hw.1 hw.2).bind_free fun difference e₁ _ g₁ h₁ => ?_
  refine (draws_and (hc.later g₁) h₁).bind_and fun selected e₂ _ g₂ h₂ => ?_
  refine (draws_xor (hw.1.later (g₁.trans g₂)) h₂).mono fun w e _ _ has => ?_
  have value : (bits.1 ^^ (c && (bits.1 ^^ bits.2)))=if c then bits.2 else bits.1 := by
    cases c <;> cases bits.1 <;> cases bits.2 <;> rfl
  exact value ▸ has

lemma draws_selectWord (hn : 0<n) (short : n≤128) (hc : d.Has env condition c) (hl :
    HasNumber env ls n v d) (hr : HasNumber env rs n u d) :
    Draws iss.hash start (iss.selectWord condition ls rs) d (3*n) n fun ws e =>
      HasNumber env ws n (if c then u else v) e := by
  obtain ⟨as,word,rfl,rfl⟩ := hl
  obtain ⟨bs,word',same,rfl⟩ := hr
  have left := length_eq word
  have right := length_eq word'
  have operands : ¬(ls=[] ∨ ls.length≠rs.length ∨ ls.length>128) := by
    rw [← length_eq_zero_iff]
    omega
  rw [selectWord,if_neg operands]
  have each : Draws iss.hash start ((ls.zip rs).mapM (iss.selectBit condition)) d
      (3*(as.zip bs).length) (1*(as.zip bs).length) fun ws e =>
        Forall₂ (fun w bits => e.Has env w (if c then bits.2 else bits.1)) ws (as.zip bs) :=
    mapM_each (fun _ _ _ _ _ h g => h.later g) (R := fun (bits : Bool × Bool) w e => e.Has
      env w (if c then bits.2 else bits.1)) (fun _ _ _ _ _ has grown => has.later grown)
      (HasWord.zip word word') fun e _ x y _ grown h => draws_selectBit (hc.later grown) h
  rw [length_zip,same,min_self,one_mul] at each
  refine each.mono fun ws e _ _ h => ?_
  have chosen : (as.zip bs).map (fun bits => if c then bits.2 else bits.1)=if c then bs else as := by
    cases c
    · exact map_fst_zip same.ge
    · exact map_snd_zip same.le
  refine ⟨_,forall₂_map_right_iff.mpr h,?_,?_⟩
  · rw [chosen]
    split
    · exact same
    · rfl
  · rw [chosen]
    split <;> rfl

def plainIncrement (state : List Bool × Bool) (bit : Bool) : List Bool × Bool :=
  (state.1++[bit ^^ state.2],bit && state.2)

lemma foldl_plainIncrement (bits done : List Bool) (carry : Bool) :
    ∃ sum final,bits.foldl plainIncrement (done,carry)=(done++sum,final) ∧ sum.length=bits.length
      ∧ wordValue sum+2^bits.length*final.toNat = wordValue bits+carry.toNat := by
  induction bits generalizing done carry with
  | nil => exact ⟨[],carry,by rw [append_nil]; rfl,rfl,by simp [wordValue]⟩
  | cons a bits ih =>
    obtain ⟨sum,final,eq,len,value⟩ := ih (done++[a ^^ carry]) (a && carry)
    refine ⟨(a ^^ carry)::sum,final,?_,congrArg (· + 1) len,?_⟩
    · rw [List.foldl_cons,plainIncrement,eq,append_assoc]
      rfl
    · rw [wordValue,wordValue,length_cons]
      have bit : (a ^^ carry).toNat+2*(a && carry).toNat=a.toNat+carry.toNat := by
        cases a <;> cases carry <;> rfl
      linear_combination bit+2*value

lemma incremented {bits sum : List Bool} {final carry : Bool} (len : sum.length=bits.length)
    (value : wordValue sum+2^bits.length*final.toNat = wordValue bits+carry.toNat) :
    wordValue sum = (wordValue bits+carry.toNat)%2^bits.length := by
  have small := wordValue_lt sum
  rw [len] at small
  rw [← value,add_mul_mod_self_left,mod_eq_of_lt small]

lemma draws_incrementBit {w : BooleanWire} {bit : Bool} (hs : HasSum env state plain d)
    (hw : d.Has env w bit) : Draws iss.hash start (iss.incrementBit state w)
    d 2 1 fun out e => HasSum env out (plainIncrement plain bit) e := by
  refine (draws_xor hw hs.2).bind_free fun output e₁ _ g₁ h₁ => ?_
  refine (draws_and (hw.later g₁) (hs.2.later g₁)).bind_and fun carry e₂ _ g₂ h₂ => ?_
  exact pure ⟨(hs.1.later (g₁.trans g₂)).snoc (h₁.later g₂),h₂⟩

lemma draws_increment {carry : BooleanWire}
    {c : Bool} (h : HasNumber env ws n v d) (hc : d.Has env carry c) : Draws iss.hash start
    (iss.increment ws carry) d (2*n) n fun out e => HasNumber env out n ((v+c.toNat)%2^n) e := by
  obtain ⟨bits,word,rfl,rfl⟩ := h
  have looped : Draws iss.hash start (ws.foldlM iss.incrementBit ([],carry)) d
      (2*bits.length) (1*bits.length) _ :=
    foldlM_each (V := fun w b e => e.Has env w b) (fun _ _ _ _ _ h g => h.later g)
      (fun out bits e => HasSum env out bits e) (c := ([],c)) word ⟨.nil,hc⟩
      fun state plain e w bit _ hw hs => draws_incrementBit hs hw
  rw [one_mul] at looped
  refine (looped.mono fun out e _ _ sum => ?_).bind_pure
  obtain ⟨sum',final,eq,len,value⟩ := foldl_plainIncrement bits [] c
  rw [eq] at sum
  exact ⟨sum',sum.1,len,incremented len value⟩

lemma wordValue_xor (bits : List Bool) (s : Bool) :
    wordValue (bits.map (· ^^ s)) = if s then 2^bits.length-1-wordValue bits else wordValue bits := by
  induction bits with
  | nil => cases s <;> rfl
  | cons b bits ih =>
    have small := wordValue_lt bits
    rw [map_cons,wordValue,ih,wordValue,length_cons]
    cases s
    · simp
    · cases b <;> simp <;> omega

lemma Draft.HasNumber.sign (h : HasNumber env ws n v d) (hn : 0<n) :
    d.Has env (signWire ws) (decide (2^(n-1)≤v)) := by
  have has := h.bit (i := n-1) (by omega) ⟨0,0⟩
  have small := h.lt
  have top : v.testBit (n-1)=decide (2^(n-1)≤v) := by
    rw [show n=n-1+1 by omega] at small
    rw [testBit_eq_decide_div_mod_eq]
    congr 1
    rw [eq_iff_iff]
    constructor
    · intro odd
      by_contra low
      rw [div_eq_of_lt (not_le.mp low)] at odd
      cases odd
    · intro high
      rw [Nat.div_eq_of_lt_le (k := 1) (by omega) (by omega)]
  rw [signWire,h.length,← top]
  exact has

/-- The magnitude of a two's-complement number. -/
def magnitude (n v : ℕ) : ℕ := if 2^(n-1)≤v then 2^n-v else v

lemma draws_absoluteSigned (hn : 2≤n) (short : n≤64) (h : HasNumber env ws n v d) : Draws iss.hash
    start (iss.absoluteSigned ws) d (3*n) n fun out e => HasNumber env out n (magnitude n v) e := by
  have sign := h.sign (by omega)
  have small := h.lt
  have len := h.length
  obtain ⟨bits,word,rfl,rfl⟩ := h
  rw [absoluteSigned,if_neg (by omega)]
  have each : Draws iss.hash start (ws.mapM fun bit => iss.xor bit (signWire ws)) d
      (1*bits.length) (0*bits.length) fun us e => Forall₂ (fun u b => e.Has env u
        (b ^^ decide (2^(bits.length-1) ≤ wordValue bits))) us bits :=
    mapM_each (V := fun w b e => e.Has env w b) (fun _ _ _ _ _ h g => h.later g) (R :=
      fun b u e => e.Has env u (b ^^ decide (2^(bits.length-1) ≤ wordValue bits))) (fun _ _ _
      _ _ has grown => has.later grown) word fun e _ x y _ grown h => draws_xor h (sign.later grown)
  rw [zero_mul] at each
  rw [show 3*bits.length=1*bits.length+2*bits.length by omega]
  refine each.bind_wires fun inverted e₁ _ g₁ h₁ => ?_
  have number : HasNumber env inverted bits.length _ e₁ :=
    ⟨_,forall₂_map_right_iff.mpr h₁,length_map _,wordValue_xor bits _⟩
  refine (draws_increment number (sign.later g₁)).mono fun out e _ _ has => has.cast rfl ?_
  rw [magnitude]
  have pos := Nat.two_pow_pos (bits.length-1)
  by_cases high : 2^(bits.length-1) ≤ wordValue bits
  · rw [decide_eq_true high,if_pos rfl,if_pos high,Bool.toNat_true,mod_eq_of_lt (by omega)]
    omega
  · rw [decide_eq_false high,if_neg (by decide),if_neg high,Bool.toNat_false,add_zero,
      mod_eq_of_lt small]

lemma draws_negateBit {state : List BooleanWire × BooleanWire} {w : BooleanWire} {bit : Bool} (hn : d.Has env negate s) (hs :
    HasSum env state plain d) (hw : d.Has env w bit) :
    Draws iss.hash start (iss.negateBit negate state w) d 3 1 fun out e =>
      HasSum env out (plainIncrement plain (bit ^^ s)) e := by
  refine (draws_xor hw hn).bind_free fun inverted e₁ _ g₁ h₁ => ?_
  refine (draws_xor h₁ (hs.2.later g₁)).bind_free fun output e₂ _ g₂ h₂ => ?_
  refine (draws_and (h₁.later g₂) (hs.2.later (g₁.trans g₂))).bind_and fun carry e₃ _ g₃ h₃ => ?_
  exact pure ⟨(hs.1.later ((g₁.trans g₂).trans g₃)).snoc (h₂.later g₃),h₃⟩

/-- A number or its negation modulo the word. -/
def negated (n v : ℕ) (negate : Bool) : ℕ := if negate then (2^n-v)%2^n else v

lemma draws_conditionalNegate (hn : 0<n) (short : n≤128) (h : HasNumber env ws n v d)
    (hs : d.Has env negate s) : Draws iss.hash start (iss.conditionalNegate ws negate) d
    (3*n) n fun out e => HasNumber env out n (negated n v s) e := by
  have small := h.lt
  have len := h.length
  obtain ⟨bits,word,rfl,rfl⟩ := h
  have operand : ¬(ws=[] ∨ ws.length>128) := by
    rw [← length_eq_zero_iff]
    omega
  rw [conditionalNegate,if_neg operand]
  have looped : Draws iss.hash start (ws.foldlM (iss.negateBit negate) ([],negate)) d
      (3*bits.length) (1*bits.length) _ :=
    foldlM_each (g := fun plain bit => plainIncrement plain (bit ^^ s)) (V := fun w bit e =>
      e.Has env w bit ∧ e.Has env negate s) (fun _ _ _ _ _ h g => ⟨h.1.later
      g,h.2.later g⟩) (fun out bits e => HasSum env out bits e) (c := ([],s)) (word.imp fun _
      _ has => ⟨has,hs⟩) ⟨.nil,hs⟩ fun state plain e w bit _ hw hsum => draws_negateBit hw.2 hsum
      hw.1
  rw [one_mul,← foldl_map] at looped
  refine (looped.mono fun out e _ _ sum => ?_).bind_pure
  obtain ⟨sum',final,eq,len',value⟩ := foldl_plainIncrement (bits.map (· ^^ s)) [] s
  rw [eq] at sum
  refine ⟨sum',sum.1,len'.trans (length_map _),?_⟩
  rw [incremented len' value,wordValue_xor,length_map,negated]
  cases s
  · rw [if_neg (by decide),if_neg (by decide),Bool.toNat_false,add_zero,mod_eq_of_lt small]
  · rw [if_pos rfl,Bool.toNat_true]
    congr 1
    omega

end

end Pllm.Garble
