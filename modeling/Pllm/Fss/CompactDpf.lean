import Pllm.Fss.CompactDcf
import Pllm.Lib.Popcount

/-! The early-terminated Boolean point function with 128-bit leaves: issuing a key pair, and the
point and comparison queries of one key. -/
namespace Pllm.Fss.CompactDpf
open Pllm.Lib

structure Correction where
  seed : Block
  control : Bool × Bool

structure Key where
  bits : ℕ
  root : Block
  words : List Correction
  leaf : Block

/-- One child of a seed, with the control bit AES output two holds for it. -/
def child (aes : Aes) (seed : Block) (branch : Bool) : Block × Bool :=
  let block := aes seed (if branch then 1 else 0)
  let flags := aes seed 2
  (block,(flags.byte 0).getLsbD branch.toNat)

def children (aes : Aes) (seed : Block) : (Block × Bool) × (Block × Bool) :=
  let flags := aes seed 2
  ((aes seed 0,(flags.byte 0).getLsbD 0),(aes seed 1,(flags.byte 0).getLsbD 1))

structure Issuing where
  seeds : Block × Block
  controls : Bool × Bool

/-- One pass of the issuer's loop, for a point bit `keep`. -/
def issueLevel (aes : Aes) (keep : Bool) (s : Issuing) : Correction × Issuing :=
  let a := children aes s.seeds.1
  let b := children aes s.seeds.2
  let seed := (pick a !keep).1 ^^^ (pick b !keep).1
  let cw := (a.1.2 ^^ b.1.2 ^^ keep ^^ true,a.2.2 ^^ b.2.2 ^^ keep)
  (⟨seed,cw⟩,
    { seeds := ((pick a keep).1 ^^^ (seed &&& spread s.controls.1),
        (pick b keep).1 ^^^ (seed &&& spread s.controls.2))
      controls := ((pick a keep).2 ^^ (pick cw keep && s.controls.1),
        (pick b keep).2 ^^ (pick cw keep && s.controls.2)) })

/-- The issuer's loop over the point bits from `n+6` down to 7. -/
def issueLevels (aes : Aes) (point : BitVec 64) : ℕ → Issuing → List Correction × Issuing
  | 0, s => ([],s)
  | n+1, s =>
    let level := issueLevel aes (point.getLsbD (7+n)) s
    let rest := issueLevels aes point n level.2
    (level.1::rest.1,rest.2)

/-- The result is `none` where the source asserts its domain. -/
def Key.issueWith (aes : Aes) (bits : ℕ) (point : BitVec 64) (random : ℕ → Block) :
    Option (Key × Key) :=
  if ¬((1≤bits ∧ bits≤63) ∧ point.toNat<2^bits) then none
  else if bits≤7 then
    let mask := if bits=7 then BitVec.allOnes 128 else lowMask (2^bits)
    let left := random 0 &&& mask
    some (⟨bits,0,[],left⟩,⟨bits,0,[],left ^^^ BitVec.twoPow 128 point.toNat⟩)
  else
    let roots := (random 0,random 1)
    let issued := issueLevels aes point (bits-7) { seeds := roots, controls := (false,true) }
    let s := issued.2
    let leaf := s.seeds.1 ^^^ s.seeds.2 ^^^ BitVec.twoPow 128 (point &&& 127).toNat
    some (⟨bits,roots.1,issued.1,leaf⟩,⟨bits,roots.2,issued.1,leaf⟩)

def Correction.descend (aes : Aes) (cw : Correction) (seed : Block) (flag branch : Bool) :
    Block × Bool :=
  let next := child aes seed branch
  (next.1 ^^^ (cw.seed &&& spread flag),next.2 ^^ (flag && pick cw.control branch))

namespace Key

/-- The loop of `point`, from level `i` on. -/
def pointWalk (aes : Aes) (bits : ℕ) (input : BitVec 64) :
    List Correction → ℕ → Block → Bool → Block × Bool
  | [], _, seed, flag => (seed,flag)
  | cw::rest, i, seed, flag =>
    let next := cw.descend aes seed flag (input.getLsbD (bits-1-i))
    pointWalk aes bits input rest (i+1) next.1 next.2

def point (aes : Aes) (self : Key) (party : ℕ) (input : BitVec 64) : Option Bool :=
  if ¬(party≤1 ∧ input.toNat<2^self.bits) then none
  else if self.bits≤7 then some ((self.leaf >>> input.toNat).getLsbD 0)
  else
    let last := pointWalk aes self.bits input self.words 0 self.root (party==1)
    some (((last.1 ^^^ (self.leaf &&& spread last.2)) >>> (input &&& 127).toNat).getLsbD 0)

/-- The loop of `less`: a level taken to the left adds the parity of the right child. -/
def lessWalk (aes : Aes) (bits : ℕ) (input : BitVec 64) :
    List Correction → ℕ → Block → Bool → Bool → (Block × Bool) × Bool
  | [], _, seed, flag, parity => ((seed,flag),parity)
  | cw::rest, i, seed, flag, parity =>
    let branch := input.getLsbD (bits-1-i)
    let next := cw.descend aes seed flag branch
    lessWalk aes bits input rest (i+1) next.1 next.2 (parity ^^ ((flag ^^ next.2) && (true ^^ branch)))

def less (aes : Aes) (self : Key) (party : ℕ) (input : BitVec 64) : Option Bool :=
  if ¬(party≤1 ∧ input.toNat<2^self.bits) then none
  else
    let start := ((self.root,party==1),false)
    let last := if self.bits>7
      then lessWalk aes self.bits input self.words 0 self.root (party==1) false else start
    let leaf := if self.bits≤7 then self.leaf else last.1.1 ^^^ (self.leaf &&& spread last.1.2)
    let shift := (input &&& 127).toNat+1
    some (last.2 ^^ if shift=128 then false else oddOnes (leaf >>> shift))

end Key

lemma seed_xor_control (a b : Block × Bool) : (a ^^^ b).2 = (a.2 ^^ b.2) := rfl

/-- A seed with its control bit. -/
def expander (aes : Aes) : Expander (Block × Bool) where
  child s branch := child aes s.1 branch
  control := Prod.snd
  control_xor := seed_xor_control

def Correction.word (cw : Correction) (branch : Bool) : Block × Bool := (cw.seed,pick cw.control branch)

lemma expander_step (aes : Aes) (cw : Correction) (branch : Bool) (s : Block × Bool) :
    (expander aes).step cw.word branch s = cw.descend aes s.1 s.2 branch := by
  obtain ⟨seed,control⟩ := s
  cases control
  · exact (xor_zero _).trans (by simp [expander,Correction.descend])
  · simp only [Expander.step,expander,Correction.word,Correction.descend,and_spread,
      Bool.true_and,if_true]
    rfl

@[simp] lemma pick_children (aes : Aes) (seed : Block) (branch : Bool) :
    pick (children aes seed) branch = child aes seed branch := by
  cases branch <;> rfl

/-- The state of one of the two parties between two levels. -/
def Issuing.state (s : Issuing) (party : Bool) : Block × Bool :=
  (pick s.seeds party,pick s.controls party)

section
variable {aes : Aes}

variable (aes) in
lemma issueLevel_corrects (keep : Bool) (s : Issuing) :
    (expander aes).Corrects keep (issueLevel aes keep s).1.word (s.state false) (s.state true) where
  lose := by
    cases keep <;> ext1 <;> simp [issueLevel,Correction.word,expander,Issuing.state,child,children]
  keep := by
    cases keep <;> simp [issueLevel,Correction.word,expander,Issuing.state,child,children]

lemma issueLevel_state (keep : Bool) (s : Issuing) (party : Bool) : (issueLevel aes keep s).2.state
    party = (expander aes).step (issueLevel aes keep s).1.word keep (s.state party) := by
  cases party <;> simp [Issuing.state,expander_step,issueLevel,Correction.descend,Bool.and_comm]

lemma issueLevel_controls (keep : Bool) {s : Issuing} (hs : s.controls.2 = !s.controls.1) :
    (issueLevel aes keep s).2.controls.2 = !(issueLevel aes keep s).2.controls.1 := by
  have h := (issueLevel_corrects aes keep s).complementary hs
  rwa [← issueLevel_state,← issueLevel_state] at h

lemma issueLevels_controls (point : BitVec 64) (n : ℕ) {s : Issuing}
    (hs : s.controls.2 = !s.controls.1) :
    (issueLevels aes point n s).2.controls.2 = !(issueLevels aes point n s).2.controls.1 := by
  induction n generalizing s with
  | zero => exact hs
  | succ n ih => exact ih (issueLevel_controls _ hs)

@[simp] lemma length_issueLevels (point : BitVec 64) (n : ℕ) (s : Issuing) :
    (issueLevels aes point n s).1.length = n := by
  induction n generalizing s with
  | zero => rfl
  | succ n ih => simp [issueLevels,ih]

/-- Issued words serve any walk along the tree whose accumulated bits and leaves cancel. -/
lemma issueLevels_issued {d : Descent (Block × Bool) Correction Bool} (payload : Bool) {result : Bool}
    (point : BitVec 64)
    (hstep : ∀ cw branch s, d.step cw branch s = (expander aes).step cw.word branch s)
    (hlose : ∀ keep s, s.controls.2 = !s.controls.1 →
      (d.emit (issueLevel aes keep s).1 (!keep) (s.state false) ^^
        d.emit (issueLevel aes keep s).1 (!keep) (s.state true)) = (keep && payload))
    (hkeep : ∀ keep s, s.controls.2 = !s.controls.1 →
      d.emit (issueLevel aes keep s).1 keep (s.state false) =
        d.emit (issueLevel aes keep s).1 keep (s.state true))
    (n : ℕ) {s : Issuing} (hs : s.controls.2 = !s.controls.1)
    (hleaf : (d.leaf ((issueLevels aes point n s).2.state false) ^^
      d.leaf ((issueLevels aes point n s).2.state true))=result) :
    d.Issued (point.toNat >>> 7) payload result (issueLevels aes point n s).1 false (s.state false)
      (s.state true) := by
  induction n generalizing s with
  | zero => exact .leaf ((congrArg (· ^^ _) (Bool.false_xor _)).trans hleaf)
  | succ n ih =>
    have hk : (point.toNat >>> 7).testBit (issueLevels aes point n
        (issueLevel aes (point.getLsbD (7+n)) s).2).1.length = point.getLsbD (7+n) := by
      rw [length_issueLevels,Nat.testBit_shiftRight]
      rfl
    have hrest := ih (issueLevel_controls (point.getLsbD (7+n)) hs) hleaf
    refine .level _ hk ?_ ?_ ?_
    · rw [hstep,hstep]
      exact (issueLevel_corrects aes _ s).merge hs
    · refine ((congrArg (· ^^ _) (Bool.false_xor _)).trans (hlose _ s hs)).trans ?_
      cases point.getLsbD (7+n) <;> rfl
    · rw [hkeep _ s hs,add_sub_cancel_right,hstep,hstep,← issueLevel_state,← issueLevel_state]
      exact hrest

/-- The corrected leaf of a state. -/
def leafWord (leaf : Block) (s : Block × Bool) : Block := s.1 ^^^ (leaf &&& spread s.2)

/-- The walk of the point query for an offset in the leaf. -/
def pointDescent (aes : Aes) (leaf : Block) (offset : ℕ) :
    Descent (Block × Bool) Correction Bool where
  step cw branch s := cw.descend aes s.1 s.2 branch
  emit _ _ _ := false
  leaf s := (leafWord leaf s >>> offset).getLsbD 0

/-- The walk of the comparison query for an offset in the leaf. -/
def lessDescent (aes : Aes) (leaf : Block) (offset : ℕ) :
    Descent (Block × Bool) Correction Bool where
  step cw branch s := cw.descend aes s.1 s.2 branch
  emit cw branch s := (s.2 ^^ (cw.descend aes s.1 s.2 branch).2) && (true ^^ branch)
  leaf s := if offset+1=128 then false else oddOnes (leafWord leaf s >>> (offset+1))

lemma testBit_leaf {input : BitVec 64} {bits i n : ℕ} (hi : n+1+i+7=bits) :
    (input.toNat >>> 7).testBit n = input.getLsbD (bits-1-i) := by
  rw [Nat.testBit_shiftRight,show 7+n=bits-1-i by omega]
  rfl

lemma pointWalk_eval (leaf : Block) (offset bits : ℕ) (input : BitVec 64)
    (words : List Correction) (i : ℕ) (hi : words.length+i+7=bits) (seed : Block) (flag : Bool) :
    (pointDescent aes leaf offset).eval (input.toNat >>> 7) words (seed,flag) =
      (leafWord leaf (Key.pointWalk aes bits input words i seed flag) >>> offset).getLsbD 0 := by
  induction words generalizing i seed flag with
  | nil => rfl
  | cons cw rest ih =>
    simp only [List.length_cons] at hi
    rw [Descent.eval,testBit_leaf (by omega)]
    exact (Bool.false_xor _).trans (ih (i+1) (by omega) _ _)

variable (aes) in
lemma lessWalk_eval (leaf : Block) (offset bits : ℕ) (input : BitVec 64) (words : List Correction)
    (i : ℕ) (hi : words.length+i+7=bits) (seed : Block) (flag parity : Bool) :
    (parity ^^ (lessDescent aes leaf offset).eval (input.toNat >>> 7) words (seed,flag)) =
      ((Key.lessWalk aes bits input words i seed flag parity).2 ^^ (lessDescent aes leaf offset).leaf
        (Key.lessWalk aes bits input words i seed flag parity).1) := by
  induction words generalizing i seed flag parity with
  | nil => rfl
  | cons cw rest ih =>
    simp only [List.length_cons] at hi
    rw [Descent.eval,testBit_leaf (by omega),Key.lessWalk]
    exact (Bool.xor_assoc ..).symm.trans (ih (i+1) (by omega) _ _ _)

lemma leafWord_xor {s : Issuing} (hs : s.controls.2 = !s.controls.1) (unit : Block) :
    leafWord (s.seeds.1 ^^^ s.seeds.2 ^^^ unit) (s.state false) ^^^
      leafWord (s.seeds.1 ^^^ s.seeds.2 ^^^ unit) (s.state true)=unit := by
  simp only [leafWord,Issuing.state,pick_false,pick_true,hs]
  cases s.controls.1 <;>
    simp [BitVec.xor_comm,xor_left_comm]

lemma suffix_eq (leaf : Block) (shift : ℕ) :
    (if shift = 128 then false else oddOnes (leaf >>> shift)) = oddOnes (leaf >>> shift) := by
  split
  · next h =>
    rw [h,BitVec.ushiftRight_eq_zero (by decide)]
    exact oddOnes_zero.symm
  · rfl

section
variable {leaf : Block} {offset : ℕ} (keep : Bool) {s : Issuing} (hs : s.controls.2 = !s.controls.1)
include hs

lemma less_lose : ((lessDescent aes leaf offset).emit
    (issueLevel aes keep s).1 (!keep) (s.state false) ^^ (lessDescent aes leaf offset).emit
    (issueLevel aes keep s).1 (!keep) (s.state true)) = (keep && true) := by
  have hm := (issueLevel_corrects aes keep s).merge hs
  simp only [expander_step] at hm
  simp only [lessDescent,hm]
  simp only [Issuing.state,pick_false,pick_true,hs]
  cases keep <;> cases s.controls.1 <;> simp

lemma less_keep : (lessDescent aes leaf offset).emit (issueLevel aes keep s).1 keep (s.state false)
    = (lessDescent aes leaf offset).emit (issueLevel aes keep s).1 keep (s.state true) := by
  have hk := (issueLevel_corrects aes keep s).complementary hs
  rw [expander_step,expander_step] at hk
  change (Correction.descend ..).2 = !(Correction.descend ..).2 at hk
  simp only [lessDescent,hk]
  simp [Issuing.state,hs]

end

end

lemma toNat_and_127 (x : BitVec 64) : (x &&& 127).toNat = x.toNat%128 :=
  Nat.and_two_pow_sub_one_eq_mod x.toNat 7

lemma decide_eq_leaves (x y : BitVec 64) : (if x.toNat >>> 7 < y.toNat >>> 7 then false
      else if x.toNat >>> 7=y.toNat >>> 7 then decide (x.toNat%128=y.toNat%128) else false) =
      decide (x=y) := by
  have hiff : x.toNat=y.toNat ↔ x.toNat >>> 7=y.toNat >>> 7 ∧ x.toNat%128=y.toNat%128 := by
    omega
  have he : x=y ↔ x.toNat=y.toNat := BitVec.toNat_inj.symm
  grind

lemma decide_lt_leaves (x y : BitVec 64) : (if x.toNat >>> 7 < y.toNat >>> 7 then true
      else if x.toNat >>> 7=y.toNat >>> 7 then decide (x.toNat%128<y.toNat%128) else false) =
      decide (x<y) := by
  have hiff : x.toNat<y.toNat ↔ x.toNat >>> 7 < y.toNat >>> 7 ∨
      (x.toNat >>> 7 = y.toNat >>> 7 ∧ x.toNat%128<y.toNat%128) := by
    omega
  have he : x<y ↔ x.toNat<y.toNat := BitVec.lt_def
  grind

lemma shiftRight_lt {x bits : ℕ} (hx : x<2^bits) (hb : 7≤bits) : x >>> 7 < 2^(bits-7) := by
  rw [Nat.shiftRight_eq_div_pow,Nat.div_lt_iff_lt_mul (by decide),← Nat.pow_add]
  rwa [show bits-7+7=bits by omega]

namespace Key
variable {aes : Aes} {self : Key} {input : BitVec 64}

lemma domain_of_lt (hi : input.toNat<2^self.bits) (party : Bool) :
    ¬¬(party.toNat≤1 ∧ input.toNat<2^self.bits) :=
  not_not_intro ⟨Bool.toNat_le party,hi⟩

lemma point_of_le (hb : self.bits≤7) (hi : input.toNat<2^self.bits) (party : Bool) :
    self.point aes party.toNat input = some ((self.leaf >>> input.toNat).getLsbD 0) := by
  rw [point,if_neg (domain_of_lt hi party),if_pos hb]

lemma point_of_gt (hw : self.words.length+7=self.bits) (hb : 7 < self.bits)
    (hi : input.toNat<2^self.bits) (party : Bool) :
    self.point aes party.toNat input = some ((pointDescent aes self.leaf (input.toNat%128)).eval
      (input.toNat >>> 7) self.words (self.root,party)) := by
  rw [point,if_neg (domain_of_lt hi party),if_neg (by omega),Bool.toNat_beq_one,toNat_and_127,
    pointWalk_eval _ _ self.bits input self.words 0 (by omega)]
  rfl

lemma less_of_le (hb : self.bits≤7) (hi : input.toNat<2^self.bits) (party : Bool) :
    self.less aes party.toNat input = some (oddOnes (self.leaf >>> (input.toNat%128+1))) := by
  rw [less,if_neg (domain_of_lt hi party)]
  simp only [toNat_and_127,suffix_eq,if_neg (not_lt.mpr hb),if_pos hb,Bool.false_xor]

lemma less_of_gt (hw : self.words.length+7=self.bits) (hb : 7 < self.bits)
    (hi : input.toNat<2^self.bits) (party : Bool) :
    self.less aes party.toNat input = some ((lessDescent aes self.leaf (input.toNat%128)).eval
      (input.toNat >>> 7) self.words (self.root,party)) := by
  have he := lessWalk_eval aes self.leaf (input.toNat%128) self.bits input self.words 0
    (by omega) self.root party false
  rw [Bool.false_xor] at he
  rw [less,if_neg (domain_of_lt hi party),he]
  simp only [toNat_and_127,if_pos hb,if_neg (not_le.mpr hb),Bool.toNat_beq_one]
  rfl

end Key

section
variable {aes : Aes} {bits : ℕ} {point : BitVec 64} {random : ℕ → Block}

/-- What the issuer returns: one leaf alone, or correction words over two roots. -/
lemma Key.issueWith_cases {left right : Key} (h : Key.issueWith aes bits point random = some
    (left,right)) : point.toNat<2^bits ∧
    ((bits≤7 ∧ ∃ leaf, left=⟨bits,0,[],leaf⟩ ∧
        right = ⟨bits,0,[],leaf ^^^ BitVec.twoPow 128 point.toNat⟩) ∨
      (7<bits ∧ ∃ s : Issuing, s.controls.2 = !s.controls.1 ∧
        (∀ party, s.state party = (pick s.seeds party,party)) ∧
        let issued := issueLevels aes point (bits-7) s
        issued.1.length+7=bits ∧
        let leaf := issued.2.seeds.1 ^^^ issued.2.seeds.2 ^^^ BitVec.twoPow 128 (point.toNat%128)
        left = ⟨bits,s.seeds.1,issued.1,leaf⟩ ∧ right=⟨bits,s.seeds.2,issued.1,leaf⟩)) := by
  rw [Key.issueWith] at h
  split at h
  · cases h
  · next hd =>
    refine ⟨by omega,?_⟩
    split at h
    · next hb =>
      obtain ⟨rfl,rfl⟩ := Prod.mk.inj (some_inj h)
      exact .inl ⟨hb,_,rfl,rfl⟩
    · next hb =>
      rw [toNat_and_127] at h
      obtain ⟨rfl,rfl⟩ := Prod.mk.inj (some_inj h)
      refine .inr ⟨by omega,⟨(random 0,random 1),(false,true)⟩,rfl,?_,?_,rfl,rfl⟩
      · intro party
        cases party <;> simp [Issuing.state]
      · rw [length_issueLevels]
        omega

variable {input : BitVec 64} {left right : Key}

section
variable (h : Key.issueWith aes bits point random = some (left,right)) (hi : input.toNat<2^bits)
include h hi

lemma point_xor_point : ∃ a b, left.point aes 0 input = some a ∧ right.point aes 1 input = some b ∧
    (a ^^ b) = decide (input=point) := by
  obtain ⟨hp,⟨hb,leaf,rfl,rfl⟩ | ⟨hb,s,hc,hsta,hw,rfl,rfl⟩⟩ := Key.issueWith_cases h
  · refine ⟨_,_,Key.point_of_le hb hi false,Key.point_of_le hb hi true,?_⟩
    have hlt : point.toNat<128 := hp.trans_le (Nat.pow_le_pow_right (by decide) hb)
    rw [getLsbD_zero_of_xor_eq_twoPow (p := point.toNat) (by simp) hlt]
    simp only [BitVec.toNat_inj]
  · refine ⟨_,_,Key.point_of_gt hw hb hi false,Key.point_of_gt hw hb hi true,?_⟩
    have hiss := issueLevels_issued false (d := pointDescent aes _ (input.toNat%128)) point (fun
      cw branch s => (expander_step aes cw branch s).symm) (fun keep _ _ => (Bool.and_false
      keep).symm) (fun _ _ _ => rfl) (bits-7) hc
      (getLsbD_zero_of_xor_eq_twoPow (leafWord_xor (issueLevels_controls point _ hc) _)
        (Nat.mod_lt point.toNat (by decide)) _)
    rw [hsta,hsta] at hiss
    have he := hiss.eval_xor_eval (length_issueLevels ..) (shiftRight_lt hi hb.le)
      (shiftRight_lt hp hb.le)
    rw [Bool.false_xor] at he
    exact he.trans (decide_eq_leaves input point)

lemma less_xor_less : ∃ a b, left.less aes 0 input = some a ∧ right.less aes 1 input = some b ∧
    (a ^^ b) = decide (input<point) := by
  obtain ⟨hp,⟨hb,leaf,rfl,rfl⟩ | ⟨hb,s,hc,hsta,hw,rfl,rfl⟩⟩ := Key.issueWith_cases h
  · refine ⟨_,_,Key.less_of_le hb hi false,Key.less_of_le hb hi true,?_⟩
    have h128 : 2^bits≤128 := Nat.pow_le_pow_right (by decide) hb
    rw [oddOnes_of_xor_eq_twoPow (p := point.toNat) (by simp)
      (hp.trans_le h128),Nat.mod_eq_of_lt (hi.trans_le h128)]
    rfl
  · refine ⟨_,_,Key.less_of_gt hw hb hi false,Key.less_of_gt hw hb hi true,?_⟩
    have hiss := issueLevels_issued true (d := lessDescent aes _ (input.toNat%128)) point (fun cw
      branch s => (expander_step aes cw branch s).symm) (fun keep s hs => less_lose keep hs) (fun
      keep s hs => less_keep keep hs) (bits-7) hc
      ((congrArg₂ _ (suffix_eq ..) (suffix_eq ..)).trans
        (oddOnes_of_xor_eq_twoPow (leafWord_xor (issueLevels_controls point _ hc) _)
          (Nat.mod_lt point.toNat (by decide)) _))
    rw [hsta,hsta] at hiss
    have he := hiss.eval_xor_eval (length_issueLevels ..) (shiftRight_lt hi hb.le)
      (shiftRight_lt hp hb.le)
    rw [Bool.false_xor] at he
    exact he.trans (decide_lt_leaves input point)

end

end

/-- One key pair answers both queries: the shares of the two parties add up to the two tests. -/
theorem compact_dpf_shares (aes : Aes) (bits : ℕ) (point : BitVec 64) (random : ℕ → Block) (hb :
    1≤bits ∧ bits≤63) (hp : point.toNat<2^bits) : ∃ left right, Key.issueWith aes bits point random
    = some (left,right) ∧ ∀ input : BitVec 64, input.toNat<2^bits → (∃ a b, left.point aes 0 input =
    some a ∧ right.point aes 1 input = some b ∧ (a ^^ b) = decide (input=point)) ∧ ∃ a b, left.less
    aes 0 input = some a ∧ right.less aes 1 input = some b ∧ (a ^^ b) = decide (input<point) := by
  obtain ⟨keys,hk⟩ : ∃ keys, Key.issueWith aes bits point random=some keys := by
    rw [Key.issueWith,if_neg (not_not_intro ⟨hb,hp⟩)]
    split <;> exact ⟨_,rfl⟩
  exact ⟨keys.1,keys.2,hk,fun input hi => ⟨point_xor_point hk hi,less_xor_less hk hi⟩⟩

theorem compact_dpf_shares_at : ∃ left right, Key.issueWith mixingAes 9 300
    (fun i => BitVec.ofNat 128 (7*i+2)) = some (left,right) ∧ ∀ input : BitVec 64, input.toNat<2^9 →
    (∃ a b, left.point mixingAes 0 input = some a ∧ right.point mixingAes 1 input = some b ∧
    (a ^^ b) = decide (input=300)) ∧ ∃ a b, left.less mixingAes 0 input = some a ∧
    right.less mixingAes 1 input = some b ∧ (a ^^ b) = decide (input<300) :=
  compact_dpf_shares mixingAes 9 300 (fun i => BitVec.ofNat 128 (7*i+2)) (by decide) (by decide)

end Pllm.Fss.CompactDpf
