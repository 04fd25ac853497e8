import Pllm.Fss.CompactDcf

/-! A compact comparison key pair evaluates to additive shares of a multiple of the comparison. -/
namespace Pllm.Fss.CompactDcf
open Pllm.Lib Word Issuing
open Nat (mod_eq_of_lt)

/-- Masked words seen in the group they stand for. -/
structure LawfulWord (W : Type) [Word W] (mask : BitVec 64) {R : Type*} [AddCommGroup R]
    (val : W → R) : Prop where
  zero : val Word.zero = 0
  add : ∀ a b, val (Word.add a b mask) = val a+val b
  sub : ∀ a b, val (Word.sub a b mask) = val a-val b
  scale : ∀ a b, val (Word.scale a (bitWord b) mask) = if b then val a else 0
  signed : ∀ a b, val (signed a b mask) = if b then -val a else val a

variable {w n bits inputBits outputBits limit : ℕ} {thr input : BitVec 64}

lemma setWidth_sub (a b : BitVec w) (h : n≤w) : (a-b).setWidth n = a.setWidth n-b.setWidth n := by
  rw [eq_sub_iff_add_eq,← BitVec.setWidth_add _ _ h,sub_add_cancel]

lemma mul_bitWord (a : BitVec 64) (b : Bool) : a*bitWord b = if b then a else 0 := by
  cases b <;> simp [bitWord]

lemma mul_sign (a : BitVec 64) (b : Bool) : a*(1-2*bitWord b) = if b then -a else a := by
  cases b
  · simp [bitWord]
  · simp only [bitWord,if_true]
    ring

lemma setWidth_masked (x : BitVec 64) (hn : n≤w) (hw : w≤64) :
    ((x &&& lowMask n).setWidth w).setWidth n = x.setWidth n := by
  rw [BitVec.setWidth_setWidth_of_le _ hn,setWidth_and_lowMask x (hn.trans hw)]

lemma lawful_scalarWord (hn : n≤w) (hw : w≤64) :
    @LawfulWord (BitVec w) (scalarWord w) (lowMask n) (BitVec n) _ (fun x => x.setWidth n) := by
  have h64 := hn.trans hw
  have hup : ∀ a : BitVec w, (a.setWidth 64).setWidth n=a.setWidth n := fun a =>
    BitVec.setWidth_setWidth_of_le a h64
  refine @LawfulWord.mk (BitVec w) (scalarWord w) (lowMask n) (BitVec n) _ _ ?_ ?_ ?_ ?_ ?_
  · simp [Word.zero]
  · intro a b
    simp only [Word.add,setWidth_masked _ hn hw,BitVec.setWidth_add _ _ h64,hup]
  · intro a b
    simp only [Word.sub,setWidth_masked _ hn hw,setWidth_sub _ _ h64,hup]
  · intro a b
    simp only [Word.scale,setWidth_masked _ hn hw,mul_bitWord]
    cases b <;> simp [hup]
  · intro a b
    simp only [signed,Word.scale,setWidth_masked _ hn hw,mul_sign]
    cases b <;> simp [BitVec.setWidth_neg_of_le h64,hup]

lemma lawful_vector (hn : n≤64) : LawfulWord (BitVec 64 × BitVec 64) (lowMask n)
    (fun x => (x.1.setWidth n,x.2.setWidth n)) where
  zero := by simp [Word.zero]
  add a b := by simp [Word.add,setWidth_and_lowMask _ hn,BitVec.setWidth_add _ _ hn]
  sub a b := by simp [Word.sub,setWidth_and_lowMask _ hn,setWidth_sub _ _ hn]
  scale a b := by
    simp only [Word.scale,setWidth_and_lowMask _ hn,mul_bitWord]
    cases b <;> simp
  signed a b := by
    simp only [signed,Word.scale,setWidth_and_lowMask _ hn,mul_sign]
    cases b <;> simp [BitVec.setWidth_neg_of_le hn]

section
variable {W : Type} [Word W] (aes : Aes) (mask : BitVec 64)

/-- A seed with its control bit; both children of a state and the two bits that correct them. -/
def expander : Expander (Block × Bool) where
  child s branch :=
    let children : Expansion W := expand aes s.1 mask
    (pick children.seeds branch,pick children.controls branch)
  control := Prod.snd
  control_xor _ _ := rfl

/-- The correction of either child. -/
def Correction.word (word : Correction W) (branch : Bool) : Block × Bool :=
  (word.seed,pick word.control branch)

variable {R : Type*} [AddCommGroup R] (val : W → R)

/-- The evaluator's walk, in the output group. -/
def descent (finalWord : W) : Descent (Block × Bool) (Correction W) R where
  step word branch s := (expander (W := W) aes mask).step word.word branch s
  emit word branch s := val (pick (expand aes s.1 mask : Expansion W).values branch) +
    (if s.2 then val word.value else 0)
  leaf s := val (Word.convert s.1 mask) + (if s.2 then val finalWord else 0)

variable {aes mask val}

lemma expander_step (word : Correction W) (branch : Bool) (seed : Block) (control : Bool) :
    (expander (W := W) aes mask).step word.word branch (seed,control) =
      (correct (pick (expand aes seed mask : Expansion W).seeds branch) word.seed control,
        pick (expand aes seed mask : Expansion W).controls branch ^^
          (control && pick word.control branch)) := by
  cases control
  · exact (xor_zero _).trans (by simp [expander,correct])
  · simp only [Expander.step,expander,Correction.word,correct,and_spread,Bool.true_and,if_true]
    rfl

lemma val_evaluateWords (hv : LawfulWord W mask val) (party : Bool) (input : BitVec 64)
    (finalWord : W) (words : List (Correction W)) (seed : Block) (control : Bool) (sum : W) :
    val (evaluateWords aes mask party input finalWord words seed control sum) =
      val sum + (if party then -(descent aes mask val finalWord).eval input.toNat words (seed,control)
        else (descent aes mask val finalWord).eval input.toNat words (seed,control)) := by
  induction words generalizing seed control sum with
  | nil =>
    simp only [evaluateWords,hv.add,hv.signed,hv.scale,Descent.eval,descent]
  | cons word rest ih =>
    simp only [evaluateWords,ih,hv.add,hv.signed,hv.scale,Descent.eval,descent,expander_step]
    cases party <;> simp [BitVec.getLsbD]
    · abel
    · abel

/-- The state of one of the two parties between two levels. -/
def Issuing.state (s : Issuing W) (party : Bool) : Block × Bool :=
  (pick s.seeds party,pick s.controls party)

variable (aes mask) in
lemma issueLevel_corrects (pay : W) (keep : Bool) (s : Issuing W) :
    (expander (W := W) aes mask).Corrects keep (issueLevel aes mask pay keep s).1.word
      (s.state false) (s.state true) where
  lose := by
    cases keep <;> ext1 <;> simp [issueLevel,Correction.word,expander,state]
  keep := by cases keep <;> simp [issueLevel,Correction.word,expander,state]

lemma issueLevel_state (pay : W) (keep : Bool) (s : Issuing W) (party : Bool) :
    (issueLevel aes mask pay keep s).2.state party =
      (expander (W := W) aes mask).step (issueLevel aes mask pay keep s).1.word keep
        (s.state party) := by
  cases party <;> simp only [state,expander_step] <;> rfl

variable {s : Issuing W}

lemma issueLevel_controls (pay : W) (keep : Bool) (hs : s.controls.2 = !s.controls.1) : (issueLevel
    aes mask pay keep s).2.controls.2 = !(issueLevel aes mask pay keep s).2.controls.1 := by
  have h := (issueLevel_corrects aes mask pay keep s).complementary hs
  rwa [← issueLevel_state,← issueLevel_state] at h

lemma issueLevels_controls (thr : BitVec 64) (pay : W) (n : ℕ)
    (hs : s.controls.2 = !s.controls.1) : (issueLevels aes mask thr pay n s).2.controls.2
    = !(issueLevels aes mask thr pay n s).2.controls.1 := by
  induction n generalizing s with
  | zero => exact hs
  | succ n ih => exact ih (issueLevel_controls pay _ hs)

@[simp] lemma length_issueLevels (thr : BitVec 64) (pay : W) (n : ℕ) (s : Issuing W) :
    (issueLevels aes mask thr pay n s).1.length = n := by
  induction n generalizing s with
  | zero => rfl
  | succ n ih => simp [issueLevels,ih]

section
variable (hv : LawfulWord W mask val) (pay finalWord : W) (keep : Bool)
  (hs : s.controls.2 = !s.controls.1)
include hv pay finalWord keep hs

/-- The value correction cancels both expansions off the path and leaves the payload below it. -/
lemma issueLevel_lose :
    val s.pathValue
        + (descent aes mask val finalWord).emit (issueLevel aes mask pay keep s).1 (!keep)
            (s.state false)
        - (descent aes mask val finalWord).emit (issueLevel aes mask pay keep s).1 (!keep)
            (s.state true) = if keep then val pay else 0 := by
  simp only [descent,issueLevel,state,pick_false,pick_true,hs,hv.signed,hv.add, hv.sub,hv.scale]
  cases s.controls.1 <;> simp <;> abel

lemma issueLevel_keep : val s.pathValue + (descent aes mask val finalWord).emit (issueLevel aes
    mask pay keep s).1 keep (s.state false) - (descent aes mask val finalWord).emit (issueLevel aes
    mask pay keep s).1 keep (s.state true) = val (issueLevel aes mask pay keep s).2.pathValue := by
  simp only [descent,issueLevel,state,pick_false,pick_true,hs,hv.signed,hv.add, hv.sub,hv.scale]
  cases s.controls.1 <;> simp <;> abel

end

/-- The loop issues correction words for its threshold, given the last one. -/
lemma issueLevels_issued (hv : LawfulWord W mask val) (thr : BitVec 64) (pay finalWord : W) (n : ℕ)
    (hs : s.controls.2 = !s.controls.1) (hleaf : val (issueLevels aes mask thr pay n s).2.pathValue
    + (descent aes mask val finalWord).leaf ((issueLevels aes mask thr pay n s).2.state false)
    - (descent aes mask val finalWord).leaf ((issueLevels aes mask thr pay n s).2.state true)=0) :
    (descent aes mask val finalWord).Issued thr.toNat (val pay) 0
    (issueLevels aes mask thr pay n s).1 (val s.pathValue) (s.state false) (s.state true) := by
  induction n generalizing s with
  | zero => exact .leaf hleaf
  | succ n ih =>
    refine .level (thr.getLsbD n) (by rw [length_issueLevels]; rfl) ((issueLevel_corrects aes
      mask pay _ s).merge hs) (issueLevel_lose hv pay finalWord _ hs) ?_
    have hrest := ih (issueLevel_controls pay (thr.getLsbD n) hs) hleaf
    rw [issueLevel_keep hv pay finalWord _ hs]
    rwa [issueLevel_state,issueLevel_state] at hrest

variable (aes) in
/-- The two evaluations of a grown key pair, over any lawful word. -/
lemma val_evaluate_growKeys (hv : LawfulWord W mask val) (bits : ℕ) (thr : BitVec 64)
    (pay : W) (roots : Block × Block) (input : BitVec 64) :
    val (evaluate aes mask (growKeys aes mask bits thr pay roots).1 false input) +
      val (evaluate aes mask (growKeys aes mask bits thr pay roots).2 true input) =
      if input.toNat%2^bits<thr.toNat%2^bits then val pay else 0 := by
  let start : Issuing W := { seeds := roots, controls := (false,true), pathValue := Word.zero }
  let issued := issueLevels aes mask thr pay bits start
  let finalWord := (growKeys aes mask bits thr pay roots).1.finalWord
  have hc : issued.2.controls.2 = !issued.2.controls.1 :=
    issueLevels_controls thr pay bits rfl
  have hleaf : val issued.2.pathValue + (descent aes mask val finalWord).leaf (issued.2.state false)
      - (descent aes mask val finalWord).leaf (issued.2.state true)=0 := by
    have hf : val finalWord=if issued.2.controls.2
        then -(val (convert issued.2.seeds.2 mask) - val (convert issued.2.seeds.1 mask)
          - val issued.2.pathValue)
        else val (convert issued.2.seeds.2 mask) - val (convert issued.2.seeds.1 mask)
          - val issued.2.pathValue := by
      simp only [finalWord,growKeys,hv.signed,hv.sub]
      rfl
    simp only [descent,state,pick_false,pick_true,hf,hc]
    cases issued.2.controls.1 <;> simp <;> abel
  have h := (issueLevels_issued hv thr pay finalWord bits rfl hleaf).eval_sub_eval
    input.toNat
  simp only [length_issueLevels] at h
  simp only [start,hv.zero,ite_self,zero_add] at h
  simp only [evaluate,val_evaluateWords hv,hv.zero,if_true,if_false,Bool.false_eq_true,zero_add]
  rw [← sub_eq_add_neg]
  exact h

end

section
variable {aes : Aes} {sizes : Sizes} {roots : Block × Block}
  {keys : RingComparison × RingComparison}

lemma toNat_add_mod {a b c : BitVec 64} {p : Prop} [Decidable p] (hn : n≤64)
    (hc : c.toNat<2^n) (h : a.setWidth n+b.setWidth n = if p then c.setWidth n else 0) :
    (a+b).toNat%2^n = if p then c.toNat else 0 := by
  rw [← BitVec.setWidth_add _ _ hn] at h
  have ht := congrArg BitVec.toNat h
  rw [BitVec.toNat_setWidth] at ht
  rw [ht]
  split
  · rw [BitVec.toNat_setWidth,mod_eq_of_lt hc]
  · rfl

lemma Key.issuePayload_eq_ok {thr pay : BitVec 32} {keys : Key (BitVec 32) × Key (BitVec 32)}
    (h : Key.issuePayload aes sizes bits thr pay roots = .ok keys) :
    thr.toNat<2^bits ∧ keys = growKeys aes (lowMask 32) bits (thr.setWidth 64) pay roots := by
  simp only [Key.issuePayload,generate,ite_error_eq_ok,ok_eq_ok] at h
  obtain ⟨hd,-,rfl⟩ := h
  exact ⟨by omega,rfl⟩

lemma Key.eval_add_eval {thr pay : BitVec 32} {keys : Key (BitVec 32) × Key
    (BitVec 32)} (h : Key.issuePayload aes sizes bits thr pay roots = .ok keys) {input :
    BitVec 32} (hi : input.toNat<2^bits) :
    keys.1.eval aes false input+keys.2.eval aes true input =
      if input<thr then pay else 0 := by
  obtain ⟨ht,rfl⟩ := Key.issuePayload_eq_ok h
  have hv := val_evaluate_growKeys aes (lawful_scalarWord (w := 32) le_rfl (by decide))
    bits (thr.setWidth 64) pay roots (input.setWidth 64)
  have hup : ∀ x : BitVec 32, (x.setWidth 64).toNat=x.toNat := fun x => by
    rw [BitVec.toNat_setWidth,mod_eq_of_lt (by omega)]
  simp only [hup,mod_eq_of_lt hi,mod_eq_of_lt ht] at hv
  exact hv

lemma RingComparison.issueWith_eq_ok {thr pay : BitVec
    64} (h : issueWith aes sizes inputBits outputBits thr pay limit roots = .ok keys) :
    outputBits≤50 ∧ thr.toNat<2^inputBits ∧ pay.toNat<2^outputBits ∧
      keys = let grown := growKeys aes (lowMask outputBits) inputBits thr pay roots
        (⟨grown.1,inputBits,outputBits⟩,⟨grown.2,inputBits,outputBits⟩) := by
  simp only [issueWith,RingComparison.resources,validate,generate,bind_eq_ok,
    ite_error_eq_ok,pure_eq_ok,ok_eq_ok] at h
  obtain ⟨-,⟨-,⟨hw,-⟩,-⟩,hd,-,-,⟨-,rfl⟩,rfl⟩ := h
  exact ⟨by omega,by omega,by omega,rfl⟩

lemma RingComparison.eval_eq_evaluate {self : RingComparison}
    (hi : input.toNat<2^self.inputBits) (party : Bool) : self.eval aes party.toNat input = .ok
    (evaluate aes (lowMask self.outputBits) self.key party input) := by
  have hp : ¬(party.toNat>1 ∨ input.toNat≥2^self.inputBits) := by
    have := Bool.toNat_le party
    omega
  rw [eval,if_neg hp]
  cases party <;> rfl

lemma VectorComparison.eval_eq_evaluate {self : VectorComparison}
    (hi : input.toNat<2^self.inputBits) (party : Bool) : self.eval aes party.toNat input = .ok
    (evaluate aes (lowMask self.outputBits) self.key party input) := by
  have hp : ¬(party.toNat>1 ∨ input.toNat≥2^self.inputBits) := by
    have := Bool.toNat_le party
    omega
  rw [eval,if_neg hp]
  cases party <;> rfl

lemma RingComparison.eval_add_eval {thr pay : BitVec
    64} (h : issueWith aes sizes inputBits outputBits thr pay limit roots = .ok keys) (hi : input.toNat<2^inputBits) :
    ∃ left right, keys.1.eval aes 0 input = .ok left ∧ keys.2.eval aes 1 input = .ok right ∧
      (left+right).toNat%2^outputBits = if input<thr then pay.toNat else 0 := by
  obtain ⟨hw,ht,hp,rfl⟩ := issueWith_eq_ok h
  have hv := val_evaluate_growKeys aes (lawful_scalarWord (w := 64) (n := outputBits) (by omega)
    le_rfl) inputBits thr pay roots input
  rw [mod_eq_of_lt hi,mod_eq_of_lt ht] at hv
  exact ⟨_,_,eval_eq_evaluate hi false,eval_eq_evaluate hi true,toNat_add_mod (by omega) hp hv⟩

/-- The split variant: the drawn threshold is the sum of the two shares it returns. -/
lemma RingComparison.eval_add_eval_split {drawn shares : BitVec
    64 × BitVec 64} (h : issueUniformSplit aes sizes inputBits outputBits limit drawn roots = .ok
    (keys,shares)) (hi : input.toNat<2^inputBits) :
    ∃ left right, keys.1.eval aes 0 input = .ok left ∧ keys.2.eval aes 1 input = .ok right ∧
      (left+right).toNat%2^outputBits =
        if input.toNat < (shares.1+shares.2).toNat%2^inputBits then 1 else 0 := by
  simp only [issueUniformSplit,validate,generate,bind_eq_ok,ite_error_eq_ok,pure_eq_ok,
    ok_eq_ok,Prod.mk.injEq] at h
  obtain ⟨-,⟨hw,-⟩,-,⟨-,rfl⟩,rfl,rfl⟩ := h
  have ht : ((drawn.2 &&& lowMask inputBits)+
      (((drawn.1 &&& lowMask inputBits)-(drawn.2 &&& lowMask inputBits)) &&& lowMask inputBits)
        ).toNat%2^inputBits = (drawn.1 &&& lowMask inputBits).toNat := by
    refine (toNat_add_mod (p := True) (by omega) ?_ ?_).trans (if_pos trivial)
    · rw [toNat_and_lowMask _ (by omega)]
      exact Nat.mod_lt _ (Nat.two_pow_pos _)
    · have hn : inputBits≤64 := by omega
      simp only [setWidth_and_lowMask _ hn,setWidth_sub _ _ hn]
      abel
  have hv := val_evaluate_growKeys aes (lawful_scalarWord (w := 64) (n := outputBits) (by omega)
    le_rfl) inputBits (drawn.1 &&& lowMask inputBits) 1 roots input
  rw [mod_eq_of_lt hi,← ht,Nat.mod_mod] at hv
  have h1 : (1 : BitVec 64).toNat < 2^outputBits := Nat.one_lt_two_pow (by omega)
  exact ⟨_,_,eval_eq_evaluate hi false,eval_eq_evaluate hi true,toNat_add_mod (by omega) h1 hv⟩

variable {keys : VectorComparison × VectorComparison} {pay : BitVec 64 × BitVec 64}

lemma VectorComparison.issueWith_eq_ok
    (h : issueWith aes sizes inputBits outputBits thr pay limit roots = .ok keys) :
    outputBits≤50 ∧ thr.toNat<2^inputBits ∧ pay.1.toNat<2^outputBits ∧
      pay.2.toNat<2^outputBits ∧
      keys = let grown := growKeys aes (lowMask outputBits) inputBits thr pay roots
        (⟨grown.1,inputBits,outputBits⟩,⟨grown.2,inputBits,outputBits⟩) := by
  simp only [issueWith,VectorComparison.resources,RingComparison.validate,generate,bind_eq_ok,
    ite_error_eq_ok,pure_eq_ok,ok_eq_ok] at h
  obtain ⟨-,⟨-,⟨hw,-⟩,-⟩,hd,-,-,⟨-,rfl⟩,rfl⟩ := h
  exact ⟨by omega,by omega,by omega,by omega,rfl⟩

lemma VectorComparison.eval_add_eval
    (h : issueWith aes sizes inputBits outputBits thr pay limit roots = .ok keys) (hi : input.toNat<2^inputBits) :
    ∃ left right, keys.1.eval aes 0 input = .ok left ∧ keys.2.eval aes 1 input = .ok right ∧
      (left.1+right.1).toNat%2^outputBits = (if input < thr then pay.1.toNat else 0) ∧
      (left.2+right.2).toNat%2^outputBits = if input<thr then pay.2.toNat else 0 := by
  obtain ⟨hw,ht,hp,hq,rfl⟩ := issueWith_eq_ok h
  have hv := val_evaluate_growKeys aes (lawful_vector (n := outputBits) (by omega))
    inputBits thr pay roots input
  rw [mod_eq_of_lt hi,mod_eq_of_lt ht] at hv
  exact ⟨_,_,eval_eq_evaluate hi false,eval_eq_evaluate hi true,
    toNat_add_mod (by omega) hp ((congrArg Prod.fst hv).trans (apply_ite Prod.fst ..)),
    toNat_add_mod (by omega) hq ((congrArg Prod.snd hv).trans (apply_ite Prod.snd ..))⟩

/-- Every issued pair, over each ring word, is a pair of additive shares of the comparison. -/
theorem compact_dcf_shares (aes : Aes) (sizes : Sizes) (roots : Block × Block) :
    (∀ (bits : ℕ) (thr pay input : BitVec 32) (left right : Key (BitVec 32)),
      Key.issuePayload aes sizes bits thr pay roots = .ok (left,right) →
      input.toNat<2^bits →
      left.eval aes false input+right.eval aes true input =
        if input<thr then pay else 0) ∧
    (∀ (inputBits outputBits limit : ℕ) (thr pay input : BitVec 64)
        (left right : RingComparison),
      RingComparison.issueWith aes sizes inputBits outputBits thr pay limit roots =
        .ok (left,right) →
      input.toNat<2^inputBits →
      ∃ a b, left.eval aes 0 input = .ok a ∧ right.eval aes 1 input = .ok b ∧
        (a+b).toNat%2^outputBits = if input<thr then pay.toNat else 0) ∧
    (∀ (inputBits outputBits limit : ℕ) (drawn shares : BitVec 64 × BitVec 64)
        (input : BitVec 64) (left right : RingComparison),
      RingComparison.issueUniformSplit aes sizes inputBits outputBits limit drawn roots =
        .ok ((left,right),shares) →
      input.toNat<2^inputBits →
      ∃ a b, left.eval aes 0 input = .ok a ∧ right.eval aes 1 input = .ok b ∧
        (a+b).toNat%2^outputBits =
          if input.toNat < (shares.1+shares.2).toNat%2^inputBits then 1 else 0) ∧
    (∀ (inputBits outputBits limit : ℕ) (thr input : BitVec 64)
        (pay : BitVec 64 × BitVec 64) (left right : VectorComparison),
      VectorComparison.issueWith aes sizes inputBits outputBits thr pay limit roots =
        .ok (left,right) →
      input.toNat<2^inputBits →
      ∃ a b, left.eval aes 0 input = .ok a ∧ right.eval aes 1 input = .ok b ∧
        (a.1+b.1).toNat%2^outputBits = (if input < thr then pay.1.toNat else 0) ∧
        (a.2+b.2).toNat%2^outputBits = if input<thr then pay.2.toNat else 0) :=
  ⟨fun _ _ _ _ _ _ h hi => Key.eval_add_eval h hi,
    fun _ _ _ _ _ _ _ _ h hi => RingComparison.eval_add_eval h hi,
    fun _ _ _ _ _ _ _ _ h hi => RingComparison.eval_add_eval_split h hi,
    fun _ _ _ _ _ _ _ _ h hi => VectorComparison.eval_add_eval h hi⟩

theorem compact_dcf_shares_at :
    (∃ left right, Key.issuePayload mixingAes ⟨4,24,44,352,48⟩ 2 3 7 (11,94) = .ok (left,right) ∧
      left.eval mixingAes false 2+right.eval mixingAes true 2 = 7) ∧
    (∃ left right, RingComparison.issueWith mixingAes ⟨8,32,56,352,56⟩ 2 9 3 260 4096 (11,94) =
        .ok (left,right) ∧
      ∃ a b, left.eval mixingAes 0 3 = .ok a ∧ right.eval mixingAes 1 3 = .ok b ∧
        (a+b).toNat%2^9=0) ∧
    (∃ left right shares, RingComparison.issueUniformSplit mixingAes ⟨8,32,56,352,56⟩ 3 9 4096
        (13,6) (11,94) = .ok ((left,right),shares) ∧
      ∃ a b, left.eval mixingAes 0 4 = .ok a ∧ right.eval mixingAes 1 4 = .ok b ∧
        (a+b).toNat%2^9=1) ∧
    ∃ left right, VectorComparison.issueWith mixingAes ⟨16,40,72,352,64⟩ 2 9 3 (260,17) 4096
        (11,94) = .ok (left,right) ∧
      ∃ a b, left.eval mixingAes 0 1 = .ok a ∧ right.eval mixingAes 1 1 = .ok b ∧
        (a.1+b.1).toNat%2^9=260 ∧ (a.2+b.2).toNat%2^9=17 :=
  ⟨⟨_,_,rfl,(compact_dcf_shares mixingAes ⟨4,24,44,352,48⟩ (11,94)).1 2 3 7 2 _ _ rfl (by decide)⟩,
    ⟨_,_,rfl,(compact_dcf_shares mixingAes ⟨8,32,56,352,56⟩ (11,94)).2.1 2 9 4096 3 260 3 _ _ rfl
      (by decide)⟩,
    ⟨_,_,_,rfl,(compact_dcf_shares mixingAes ⟨8,32,56,352,56⟩ (11,94)).2.2.1 3 9 4096 (13,6) _ 4 _ _
      rfl (by decide)⟩,
    ⟨_,_,rfl,(compact_dcf_shares mixingAes ⟨16,40,72,352,64⟩ (11,94)).2.2.2 2 9 4096 3 1 (260,17)
      _ _ rfl (by decide)⟩⟩

end

open List

namespace RingComparison

/-- A node of the tree before its own expansion. -/
structure Node where
  seed : Block
  control : Bool
  sum : BitVec 64
  depth : ℕ
  path : ℕ

section
variable (aes : Aes) (self : RingComparison) (party : Bool)

def leaf (node : Node) : BitVec 64 :=
  let mask := lowMask self.outputBits
  Word.add node.sum (signed (Word.add (Word.convert node.seed mask)
    (Word.scale self.key.finalWord (bitWord node.control) mask) mask) party mask) mask

def child (node : Node) (word : Correction (BitVec 64)) (direction : Bool) : Node :=
  let mask := lowMask self.outputBits
  let children : Expansion (BitVec 64) := expand aes node.seed mask
  { seed := correct (pick children.seeds direction) word.seed node.control
    control := pick children.controls direction ^^ (node.control && pick word.control direction)
    sum := Word.add node.sum (signed (Word.add (pick children.values direction)
      (Word.scale word.value (bitWord node.control) mask) mask) party mask) mask
    depth := node.depth+1
    path := 2*node.path+direction.toNat }

def stackNodes : ℕ := 19

/-- How a traversal ends: a place outside of the stack or of the words, and no end at all, are told
apart from an argument that is refused. -/
inductive Failure
  | refused (error : Error)
  | panic
  | endless

/-- The loop, with the top of its stack in front. -/
def visitLoop {σ : Type} (visit : σ → ℕ → BitVec 64 → σ) :
    ℕ → List Node → σ → Except Failure σ
  | _, [], s => .ok s
  | 0, _::_, _ => .error .endless
  | fuel+1, node::stack, s =>
    if node.depth=self.inputBits then
      visitLoop visit fuel stack (visit s node.path (self.leaf party node))
    else
      match self.key.words[node.depth]? with
      | none => .error .panic
      | some word =>
        -- the right child is pushed first, and then the left one
        if stack.length+2>stackNodes then .error .panic
        else visitLoop visit fuel
          (self.child aes party node word false::self.child aes party node word true::stack) s

end

def evalAllVisit {σ : Type} (aes : Aes) (self : RingComparison) (party : ℕ)
    (visit : σ → ℕ → BitVec 64 → σ) (fuel : ℕ) (s : σ) : Except Failure σ :=
  if party>1 ∨ self.inputBits>18 then .error (.refused .domain)
  else visitLoop aes self (party==1) visit fuel [⟨self.key.root,party==1,0,0,0⟩] s

section
variable {σ : Type} {aes : Aes} {self : RingComparison} {party : Bool} {visit : σ → ℕ → BitVec 64 → σ}

lemma getLsbD_half {path m y : ℕ} (hy : y<2^m) (b : Bool) (hm : m<64) :
    (BitVec.ofNat 64 ((2*path+b.toNat)*2^m+y)).getLsbD m = b := by
  rw [BitVec.getLsbD_ofNat,decide_eq_true hm,Bool.true_and,Nat.testBit_eq_decide_div_mod_eq,
    add_comm,Nat.add_mul_div_right _ _ (Nat.two_pow_pos m),Nat.div_eq_of_lt hy]
  cases b <;> simp

/-- What one node leaves: the leaves below it, each with the value of its own evaluation. -/
def below (aes : Aes) (self : RingComparison) (party : Bool) (visit : σ → ℕ → BitVec 64 → σ)
    (rest : List (Correction (BitVec 64))) (node : Node) (s : σ) : σ :=
  (List.range (2^rest.length)).foldl (fun s y =>
    visit s (node.path*2^rest.length+y) (evaluateWords aes (lowMask self.outputBits) party
      (BitVec.ofNat 64 (node.path*2^rest.length+y)) self.key.finalWord rest node.seed node.control
      node.sum)) s

lemma below_cons (word : Correction (BitVec 64)) (rest : List (Correction (BitVec 64)))
    (node : Node) (s : σ) (hlen : rest.length<64) : below aes self party visit
    (word::rest) node s = below aes self party visit rest (self.child aes party node word true)
    (below aes self party visit rest (self.child aes party node word false) s) := by
  have hhalf : ∀ (b : Bool) (y : ℕ), y<2^rest.length →
      evaluateWords aes (lowMask self.outputBits) party
        (BitVec.ofNat 64 ((2*node.path+b.toNat)*2^rest.length+y)) self.key.finalWord (word::rest)
        node.seed node.control node.sum =
      evaluateWords aes (lowMask self.outputBits) party
        (BitVec.ofNat 64 ((2*node.path+b.toNat)*2^rest.length+y)) self.key.finalWord rest
        (self.child aes party node word b).seed (self.child aes party node word b).control
        (self.child aes party node word b).sum := by
    intro b y hy
    rw [evaluateWords,getLsbD_half hy b hlen]
    rfl
  have hspl : 2^(word::rest).length=2^rest.length+2^rest.length := by
    rw [length_cons,pow_succ,Nat.mul_two]
  have hfal : ∀ y, node.path*2^(word::rest).length+y=(2*node.path+false.toNat)*2^rest.length+y := by
    intro y
    rw [hspl,Bool.toNat_false]
    ring
  have htrue : ∀ y, node.path*2^(word::rest).length+(2^rest.length+y) =
      (2*node.path+true.toNat)*2^rest.length+y := by
    intro y
    rw [hspl,Bool.toNat_true]
    ring
  unfold below
  rw [hspl,range_add,foldl_append,foldl_map,← hspl]
  simp only [htrue]
  simp only [hfal]
  have hpath : ∀ b, (self.child aes party node word b).path=2*node.path+b.toNat := fun _ => rfl
  simp only [hpath]
  have hcon : ∀ (b : Bool) (t : σ), (range (2^rest.length)).foldl (fun s y =>
        visit s ((2*node.path+b.toNat)*2^rest.length+y) (evaluateWords aes (lowMask self.outputBits)
          party (BitVec.ofNat 64 ((2*node.path+b.toNat)*2^rest.length+y)) self.key.finalWord
          (word::rest) node.seed node.control node.sum)) t =
      (range (2^rest.length)).foldl (fun s y =>
        visit s ((2*node.path+b.toNat)*2^rest.length+y) (evaluateWords aes (lowMask self.outputBits)
          party (BitVec.ofNat 64 ((2*node.path+b.toNat)*2^rest.length+y)) self.key.finalWord rest
          (self.child aes party node word b).seed (self.child aes party node word b).control
          (self.child aes party node word b).sum)) t := by
    intro b t
    refine foldl_ext _ _ t fun s y hy => ?_
    rw [hhalf b y (mem_range.mp hy)]
  rw [hcon,hcon]

/-- The loop works off the subtree of the top node before anything under it on the stack. -/
lemma visitLoop_node {rest : List (Correction (BitVec 64))} {node : Node} {stack : List Node} {s : σ}
    (fuel : ℕ) (hwds : self.key.words.drop node.depth = rest)
    (hdep : node.depth+rest.length=self.inputBits) (hroom : stack.length+rest.length+1 ≤ stackNodes) :
    visitLoop aes self party visit (2^(rest.length+1)-1+fuel) (node::stack) s =
      visitLoop aes self party visit fuel stack (below aes self party visit rest node s) := by
  induction rest generalizing node stack s fuel with
  | nil =>
    have hleaf : node.depth=self.inputBits := hdep
    have hfuel : 2^([] : List (Correction (BitVec 64))).length.succ-1+fuel=fuel+1 := by simp; omega
    rw [show 2^(([] : List (Correction (BitVec 64))).length+1)-1+fuel=fuel+1 from hfuel,visitLoop,
      if_pos hleaf]
    simp [below,evaluateWords,leaf]
  | cons word rest ih =>
    have hlen : (word::rest).length=rest.length+1 := rfl
    have hword : self.key.words[node.depth]? = some word := by
      have hhead := congrArg head? hwds
      rwa [head?_drop] at hhead
    have hdrop : self.key.words.drop (node.depth+1)=rest := by
      rw [← drop_drop,hwds]
      rfl
    have hpow : 2^((word::rest).length+1)-1+fuel =
        (2^(rest.length+1)-1+(2^(rest.length+1)-1+fuel))+1 := by
      have hpos := Nat.two_pow_pos (rest.length+1)
      rw [hlen]
      omega
    have hinn : ¬node.depth=self.inputBits := by
      omega
    have hstk : ¬stack.length+2>stackNodes := by
      omega
    have hdepth' : node.depth+1+rest.length=self.inputBits := by
      omega
    have hroom' : stack.length+1+rest.length+1 ≤ stackNodes := by
      omega
    rw [hpow,visitLoop,if_neg hinn]
    simp only [hword,if_neg hstk]
    rw [ih (2^(rest.length+1)-1+fuel) hdrop hdepth' (by simpa using hroom'),
      ih fuel hdrop hdepth' (by omega),below_cons word rest node s]
    simp only [stackNodes] at hroom'
    omega

/-- A traversal calls the visitor with every input in order, and with its evaluation. -/
lemma evalAllVisit_eq (words : self.key.words.length=self.inputBits)
    (bits : self.inputBits≤18) {fuel : ℕ} (enough : 2^(self.inputBits+1)≤fuel+1) (s : σ) :
    evalAllVisit aes self party.toNat visit fuel s =
      .ok ((range (2^self.inputBits)).foldl (fun s z =>
        visit s z (evaluate aes (lowMask self.outputBits) self.key party (BitVec.ofNat 64 z))) s) := by
  have bit : (party.toNat==1)=party := by cases party <;> rfl
  have domain : ¬(party.toNat>1 ∨ self.inputBits>18) := by
    have := Bool.toNat_le party
    omega
  have steps : fuel=2^(self.key.words.length+1)-1+(fuel-(2^(self.inputBits+1)-1)) := by
    rw [words]
    omega
  have room : ([] : List Node).length+self.key.words.length+1 ≤ stackNodes := by
    rw [stackNodes,length_nil]
    omega
  let root : Node := ⟨self.key.root,party,0,0,0⟩
  have all : visitLoop aes self party visit
      (2^(self.key.words.length+1)-1+(fuel-(2^(self.inputBits+1)-1))) [root] s =
        visitLoop aes self party visit (fuel-(2^(self.inputBits+1)-1)) []
          (below aes self party visit self.key.words root s) :=
    visitLoop_node _ rfl (by rw [words]; exact zero_add _) room
  rw [evalAllVisit,if_neg domain,bit,steps]
  refine all.trans ?_
  simp only [visitLoop,below,words,root,zero_mul,zero_add]
  rfl

end

/-- Every leaf is visited once, in order and with the value of its own evaluation, within the stack
and a number of steps that is known; other arguments are refused before the first visit. -/
theorem visits_evaluate (aes : Aes) (self : RingComparison) {σ : Type}
    (visit : σ → ℕ → BitVec 64 → σ) (s : σ) :
    (self.key.words.length=self.inputBits → self.inputBits≤18 → ∀ party : Bool,∀ fuel,
      2^(self.inputBits+1)≤fuel+1 → evalAllVisit aes self party.toNat visit fuel s =
        .ok ((range (2^self.inputBits)).foldl (fun s index => visit s index
          (evaluate aes (lowMask self.outputBits) self.key party (BitVec.ofNat 64 index))) s)) ∧
    ∀ party fuel,party>1 ∨ self.inputBits>18 →
      evalAllVisit aes self party visit fuel s = .error (.refused .domain) :=
  ⟨fun words bits _ _ enough => evalAllVisit_eq words bits enough s,
    fun _ _ outside => if_pos outside⟩

end RingComparison
end Pllm.Fss.CompactDcf
