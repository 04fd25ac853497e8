import Pllm.Fss.CompactDcf

/-! The bounded prefix comparison: a threshold is a disjoint union of prefixes, one point key each. -/
namespace Pllm.Fss.PointFss
open Pllm.Lib BitVec Finset

structure Correction where
  seed : Block
  control : Bool × Bool

structure Point where
  root : Block
  words : List Correction
  finalWord : BitVec 32

structure Expansion where
  seeds : Block × Block
  controls : Bool × Bool

def expand (aes : Aes) (seed : Block) : Expansion :=
  let block := fun counter : Byte =>
    aes seed ((Block.ofBytes (ascii "PLLM.FSS.PRG.v1\x00")).setByte 15 counter)
  { seeds := (block 0,block 1)
    controls := (((block 2).byte 0).getLsbD 0,((block 2).byte 1).getLsbD 0) }

/-- The first four bytes of the fourth output. -/
def leaf (aes : Aes) (seed : Block) : BitVec 32 :=
  (aes seed (Block.ofBytes (ascii "PLLM.FSS.PRG.v1\x03"))).setWidth 32

def correct (seed word : Block) (control : Bool) : Block := seed ^^^ (word &&& spread control)

structure Issuing where
  seeds : Block × Block
  controls : Bool × Bool

/-- One pass of the issuer's loop, for a point bit `keep`. -/
def issueLevel (aes : Aes) (keep : Bool) (s : Issuing) : Correction × Issuing :=
  let lose := !keep
  let left := expand aes s.seeds.1
  let right := expand aes s.seeds.2
  let word : Correction :=
    { seed := pick left.seeds lose ^^^ pick right.seeds lose
      control := (left.controls.1 ^^ right.controls.1 ^^ !keep,
        left.controls.2 ^^ right.controls.2 ^^ keep) }
  (word,
    { seeds := (correct (pick left.seeds keep) word.seed s.controls.1,
        correct (pick right.seeds keep) word.seed s.controls.2)
      controls := (pick left.controls keep ^^ (s.controls.1 && pick word.control keep),
        pick right.controls keep ^^ (s.controls.2 && pick word.control keep)) })

def issueLevels (aes : Aes) (point : BitVec 32) : ℕ → Issuing → List Correction × Issuing
  | 0, s => ([],s)
  | n+1, s =>
    let level := issueLevel aes (point.getLsbD n) s
    let rest := issueLevels aes point n level.2
    (level.1::rest.1,rest.2)

/-- The pair of point keys over two drawn roots. -/
def Point.issue (aes : Aes) (bits : ℕ) (point payload : BitVec 32) (roots : Block × Block) :
    Point × Point :=
  let issued := issueLevels aes point bits { seeds := roots, controls := (false,true) }
  let s := issued.2
  let delta := payload-leaf aes s.seeds.1+leaf aes s.seeds.2
  let finalWord := if s.controls.1 then delta else -delta
  (⟨roots.1,issued.1,finalWord⟩,⟨roots.2,issued.1,finalWord⟩)

def Point.walk (aes : Aes) (point : BitVec 32) : List Correction → Block → Bool → Block × Bool
  | [], seed, control => (seed,control)
  | word::rest, seed, control =>
    let direction := point.getLsbD rest.length
    let children := expand aes seed
    Point.walk aes point rest (correct (pick children.seeds direction) word.seed control)
      (pick children.controls direction ^^ (control && pick word.control direction))

def Point.eval (aes : Aes) (self : Point) (party : Bool) (point : BitVec 32) : BitVec 32 :=
  let last := Point.walk aes point self.words self.root party
  let value := leaf aes last.1+(if last.2 then 1 else 0)*self.finalWord
  if party=false then value else -value

structure Comparison where
  bits : ℕ
  prefixes : List Point

namespace Comparison

def bytes (bits : ℕ) : ℕ := 20*bits+9*bits*(bits+1)

/-- The point pair of one prefix length; its last bit is the payload, its cleared sibling the
point. -/
def issuePrefix (aes : Aes) (bits : ℕ) (threshold : BitVec 32) (roots : ℕ → Block × Block)
    (length : ℕ) : Point × Point :=
  let top := threshold >>> (bits-length)
  Point.issue aes length (top &&& ~~~(1 : BitVec 32)) (top &&& 1) (roots length)

/-- The roots are drawn for each length in turn. -/
def issue (aes : Aes) (bits : ℕ) (threshold : BitVec 32) (roots : ℕ → Block × Block) :
    Except Error (Comparison × Comparison) :=
  if ¬(1≤bits ∧ bits≤32) ∨ threshold.toNat≥2^bits then .error .domain
  else
    let points := (List.range' 1 bits).map (issuePrefix aes bits threshold roots)
    .ok (⟨bits,points.map Prod.fst⟩,⟨bits,points.map Prod.snd⟩)

def eval (aes : Aes) (self : Comparison) (party : Bool) (input : BitVec 32) : BitVec 32 :=
  self.prefixes.zipIdx.foldl (fun sum entry =>
    sum+entry.1.eval aes party (input >>> (self.bits-entry.2-1))) 0

end Comparison

lemma seed_xor_control (a b : Block × Bool) : (a ^^^ b).2 = (a.2 ^^ b.2) := rfl

/-- A seed with its control bit. -/
def expander (aes : Aes) : Expander (Block × Bool) where
  child s branch := (pick (expand aes s.1).seeds branch,pick (expand aes s.1).controls branch)
  control := Prod.snd
  control_xor := seed_xor_control

def Correction.word (word : Correction) (branch : Bool) : Block × Bool :=
  (word.seed,pick word.control branch)

/-- The walk of a point key, in the output ring. -/
def descent (aes : Aes) (finalWord : BitVec 32) :
    Descent (Block × Bool) Correction (BitVec 32) where
  step word branch s := (expander aes).step word.word branch s
  emit _ _ _ := 0
  leaf s := leaf aes s.1+(if s.2 then finalWord else 0)

/-- The state of one of the two parties between two levels. -/
def Issuing.state (s : Issuing) (party : Bool) : Block × Bool :=
  (pick s.seeds party,pick s.controls party)

variable {s : Issuing}

section
variable {aes : Aes}

lemma expander_step (word : Correction) (branch : Bool) (seed : Block) (control : Bool) :
    (expander aes).step word.word branch (seed,control) =
      (correct (pick (expand aes seed).seeds branch) word.seed control,
        pick (expand aes seed).controls branch ^^ (control && pick word.control branch)) := by
  cases control
  · exact (xor_zero _).trans (by simp [expander,correct])
  · simp only [Expander.step,expander,Correction.word,correct,and_spread,Bool.true_and, if_true]
    rfl

variable (aes) in
lemma issueLevel_corrects (keep : Bool) (s : Issuing) :
    (expander aes).Corrects keep (issueLevel aes keep s).1.word (s.state false) (s.state true) where
  lose := by
    cases keep <;> ext1 <;> simp [issueLevel,Correction.word,expander,Issuing.state]
  keep := by cases keep <;> simp [issueLevel,Correction.word,expander,Issuing.state]

lemma issueLevel_state (keep : Bool) (s : Issuing) (party : Bool) : (issueLevel aes keep s).2.state
    party = (expander aes).step (issueLevel aes keep s).1.word keep (s.state party) := by
  cases party <;> simp only [Issuing.state,expander_step] <;> rfl

lemma issueLevel_controls (keep : Bool) (hs : s.controls.2 = !s.controls.1) :
    (issueLevel aes keep s).2.controls.2 = !(issueLevel aes keep s).2.controls.1 := by
  have h := (issueLevel_corrects aes keep s).complementary hs
  rwa [← issueLevel_state,← issueLevel_state] at h

lemma issueLevels_controls (point : BitVec 32) (n : ℕ) (hs : s.controls.2 = !s.controls.1) :
    (issueLevels aes point n s).2.controls.2 = !(issueLevels aes point n s).2.controls.1 := by
  induction n generalizing s with
  | zero => exact hs
  | succ n ih => exact ih (issueLevel_controls _ hs)

@[simp] lemma length_issueLevels (point : BitVec 32) (n : ℕ) (s : Issuing) :
    (issueLevels aes point n s).1.length = n := by
  induction n generalizing s with
  | zero => rfl
  | succ n ih => simp [issueLevels,ih]

lemma issueLevels_issued {finalWord payload : BitVec 32} (point : BitVec 32) (n : ℕ) (hs : s.controls.2 = !s.controls.1)
    (hleaf : (descent aes finalWord).leaf ((issueLevels aes point n s).2.state false)
      - (descent aes finalWord).leaf ((issueLevels aes point n s).2.state true) = payload) :
    (descent aes finalWord).Issued point.toNat 0 payload (issueLevels aes point n s).1 0
      (s.state false) (s.state true) := by
  induction n generalizing s with
  | zero =>
    refine .leaf ?_
    rw [zero_add]
    exact hleaf
  | succ n ih =>
    refine .level (point.getLsbD n) (by rw [length_issueLevels]; rfl)
      ((issueLevel_corrects aes _ s).merge hs) (by simp [descent]) ?_
    have hrest := ih (issueLevel_controls (point.getLsbD n) hs) hleaf
    rw [issueLevel_state,issueLevel_state] at hrest
    simpa [descent] using hrest

lemma walk_eval (finalWord point : BitVec 32) (words : List Correction) (seed : Block)
    (control : Bool) :
    (descent aes finalWord).eval point.toNat words (seed,control) =
      leaf aes (Point.walk aes point words seed control).1 +
        (if (Point.walk aes point words seed control).2 then 1 else 0)*finalWord := by
  induction words generalizing seed control with
  | nil => cases control <;> simp [Descent.eval,descent,Point.walk]
  | cons word rest ih =>
    rw [Descent.eval,Point.walk,← ih,← expander_step]
    exact zero_add _

section
variable (bits : ℕ) (point payload : BitVec 32) (roots : Block × Block)

/-- The two point keys share the payload where the input has the low bits of the point, and zero
elsewhere. -/
lemma Point.eval_add_eval_mod
    (input : BitVec 32) :
    (Point.issue aes bits point payload roots).1.eval aes false input +
      (Point.issue aes bits point payload roots).2.eval aes true input =
      if input.toNat%2^bits=point.toNat%2^bits then payload else 0 := by
  let s : Issuing := { seeds := roots, controls := (false,true) }
  let issued := issueLevels aes point bits s
  let finalWord := (Point.issue aes bits point payload roots).1.finalWord
  have hc : issued.2.controls.2 = !issued.2.controls.1 := issueLevels_controls point bits rfl
  have hleaf : (descent aes finalWord).leaf (issued.2.state false)
      - (descent aes finalWord).leaf (issued.2.state true) = payload := by
    have hf : finalWord=if issued.2.controls.1
        then payload-leaf aes issued.2.seeds.1+leaf aes issued.2.seeds.2
        else -(payload-leaf aes issued.2.seeds.1+leaf aes issued.2.seeds.2) := rfl
    simp only [descent,Issuing.state,pick_false,pick_true,hf,hc]
    cases issued.2.controls.1
    · simp
    · simp only [if_true]
      abel
  have h := (issueLevels_issued (s := s) point bits rfl hleaf).eval_sub_eval input.toNat
  rw [length_issueLevels,zero_add] at h
  simp only [Point.eval,if_false,Bool.true_eq_false,← sub_eq_add_neg,← walk_eval]
  refine h.trans ?_
  grind

lemma Point.eval_add_eval
    {input : BitVec 32} (hp : point.toNat<2^bits) (hi : input.toNat<2^bits) :
    (Point.issue aes bits point payload roots).1.eval aes false input +
      (Point.issue aes bits point payload roots).2.eval aes true input =
      if input=point then payload else 0 := by
  refine (Point.eval_add_eval_mod bits point payload roots input).trans ?_
  rw [Nat.mod_eq_of_lt hi,Nat.mod_eq_of_lt hp]
  simp only [toNat_inj]

end

lemma toNat_and_not_one (v : BitVec 32) : (v &&& ~~~(1 : BitVec 32)).toNat = 2*(v.toNat/2) := by
  have h : v &&& ~~~(1 : BitVec 32)=(v >>> 1) <<< 1 := by
    apply eq_of_getLsbD_eq
    intro i hi
    have h1 : (1 : BitVec 32).getLsbD i=decide (i=0) := by
      rw [show (1 : BitVec 32)=twoPow 32 0 from rfl]
      grind
    rw [getLsbD_and,getLsbD_not,getLsbD_shiftLeft, getLsbD_ushiftRight,h1]
    cases i <;> simp [hi]
    grind
  rw [h,toNat_shiftLeft,toNat_ushiftRight,Nat.shiftLeft_eq, Nat.shiftRight_eq_div_pow]
  omega

/-- What the prefix of the threshold from bit `j` on contributes at an input. -/
def prefixTerm (input threshold j : ℕ) : BitVec 32 :=
  if input/2^j=2*(threshold/2^(j+1)) ∧ threshold.testBit j then 1 else 0

lemma prefixTerm_eq_zero {input threshold j n : ℕ} (hj : j<n)
    (h : input/2^n≠threshold/2^n) : prefixTerm input threshold j = 0 := by
  rw [prefixTerm,if_neg]
  rintro ⟨he,-⟩
  apply h
  have hs : input/2^(j+1)=threshold/2^(j+1) := by
    rw [pow_succ,← Nat.div_div_eq_div_mul,← pow_succ]
    omega
  obtain ⟨k,rfl⟩ : ∃ k, n=(j+1)+k := ⟨n-(j+1),by omega⟩
  rw [pow_add,← Nat.div_div_eq_div_mul,← Nat.div_div_eq_div_mul,hs]

lemma sum_prefixTerm (input threshold n : ℕ) (h : input/2^n=threshold/2^n) :
    ∑ j ∈ range n, prefixTerm input threshold j =
      if input%2^n<threshold%2^n then 1 else 0 := by
  induction n with
  | zero => simp [Nat.mod_one]
  | succ n ih =>
    have hx : input/2^n=2*(input/2^(n+1))+(input.testBit n).toNat := by
      rw [Nat.toNat_testBit,pow_succ,← Nat.div_div_eq_div_mul]
      omega
    have ht : threshold/2^n=2*(threshold/2^(n+1))+(threshold.testBit n).toNat := by
      rw [Nat.toNat_testBit,pow_succ,← Nat.div_div_eq_div_mul]
      omega
    have hterm : prefixTerm input threshold n =
        if input.testBit n=false ∧ threshold.testBit n=true then 1 else 0 := by
      rw [prefixTerm,hx,h]
      cases input.testBit n <;> simp
    rw [sum_range_succ,hterm]
    by_cases hb : input.testBit n=threshold.testBit n
    · rw [ih (by rw [hx,ht,h,hb]),hb]
      simp only [(Descent.mod_two_pow_succ_of_eq hb).1]
      simp
    · have hne : input/2^n≠threshold/2^n := by
        cases hi : input.testBit n <;> cases hj : threshold.testBit n <;> simp_all
      rw [sum_eq_zero fun j hj => prefixTerm_eq_zero (mem_range.mp hj) hne]
      have hb' : input.testBit n = !threshold.testBit n := by grind
      simp only [(Descent.mod_two_pow_succ_of_ne rfl hb').1,hb']
      simp

namespace Comparison

section
variable {bits : ℕ} {threshold input : BitVec 32} {roots : ℕ → Block × Block}

lemma foldl_add {α : Type*} (l : List α) (f : α → BitVec 32) (start : BitVec 32) :
    l.foldl (fun sum x => sum+f x) start = start+(l.map f).sum := by
  induction l generalizing start with
  | nil => simp
  | cons x l ih => simp [ih,add_assoc]

lemma eval_map (bits : ℕ) (points : ℕ → Point) (party : Bool) (input : BitVec 32) :
    (⟨bits,(List.range' 1 bits).map points⟩ : Comparison).eval aes party input =
      ∑ i ∈ range bits, (points (i+1)).eval aes party (input >>> (bits-1-i)) := by
  have hl : (((List.range' 1 bits).map points).zipIdx.map fun entry =>
      entry.1.eval aes party (input >>> (bits-entry.2-1))) =
      (List.range bits).map fun i => (points (i+1)).eval aes party (input >>> (bits-1-i)) := by
    apply List.ext_getElem
    · simp
    · intro i hi hj
      simp only [List.getElem_map,List.getElem_zipIdx,List.getElem_range',List.getElem_range]
      rw [show bits-(0+i)-1=bits-1-i by omega,show 1+1*i=i+1 by omega]
  rw [eval,foldl_add,hl,zero_add]
  rfl

/-- One prefix pair contributes exactly the term of its lowest bit. -/
lemma issuePrefix_eval {i : ℕ} (hi : input.toNat<2^bits) (ht : threshold.toNat<2^bits)
    (hlt : i<bits) : (issuePrefix aes bits threshold roots (i+1)).1.eval aes false
    (input >>> (bits-1-i)) + (issuePrefix aes bits threshold roots (i+1)).2.eval aes true
    (input >>> (bits-1-i)) = prefixTerm input.toNat threshold.toNat (bits-1-i) := by
  have hj : bits-(i+1)=bits-1-i := by omega
  have hdiv : ∀ x : BitVec 32, x.toNat<2^bits → x.toNat/2^(bits-1-i)<2^(i+1) := by
    intro x hx
    rw [Nat.div_lt_iff_lt_mul (Nat.two_pow_pos _),← pow_add]
    rwa [show i+1+(bits-1-i)=bits by omega]
  have hshf : ∀ x : BitVec 32, (x >>> (bits-1-i)).toNat=x.toNat/2^(bits-1-i) := by
    intro x
    rw [toNat_ushiftRight,Nat.shiftRight_eq_div_pow]
  have hbit : threshold >>> (bits-1-i) &&& 1 =
      if threshold.toNat.testBit (bits-1-i) then 1 else 0 := by
    apply eq_of_toNat_eq
    rw [toNat_and,hshf,show (1 : BitVec 32).toNat=1 from rfl,Nat.and_one_is_mod,
      ← Nat.toNat_testBit]
    cases threshold.toNat.testBit (bits-1-i) <;> rfl
  rw [issuePrefix,hj,Point.eval_add_eval]
  · have he : input >>> (bits-1-i)=threshold >>> (bits-1-i) &&& ~~~(1 : BitVec 32) ↔
        input.toNat/2^(bits-1-i) = 2*(threshold.toNat/2^(bits-1-i+1)) := by
      rw [← toNat_inj,toNat_and_not_one,hshf,hshf,pow_succ, Nat.div_div_eq_div_mul]
    rw [prefixTerm]
    grind
  · have hd := hdiv threshold ht
    rw [toNat_and_not_one,hshf]
    omega
  · rw [hshf]
    exact hdiv input hi

lemma eval_add_eval {keys : Comparison × Comparison}
    (h : issue aes bits threshold roots = .ok keys) (hi : input.toNat<2^bits) :
    keys.1.eval aes false input+keys.2.eval aes true input = if input<threshold then 1 else 0 := by
  rw [issue,ite_error_eq_ok] at h
  obtain ⟨hd,h⟩ := h
  obtain rfl := Except.ok.inj h
  have ht : threshold.toNat<2^bits := by omega
  have hsum := sum_prefixTerm input.toNat threshold.toNat bits
    (by rw [Nat.div_eq_of_lt hi,Nat.div_eq_of_lt ht])
  rw [Nat.mod_eq_of_lt hi,Nat.mod_eq_of_lt ht,← sum_range_reflect] at hsum
  simp only [List.map_map,eval_map,← sum_add_distrib,Function.comp_apply]
  rw [sum_congr rfl fun i hlt => issuePrefix_eval hi ht (mem_range.mp hlt)]
  exact hsum

end

end Comparison

end

/-- Point keys of every width share their payload at the point; comparison keys are issued for
every threshold of their domain, and share strict inequality with it. -/
theorem point_fss_shares (aes : Aes) :
    (∀ (bits : ℕ) (point payload input : BitVec 32) (roots : Block × Block),
      bits≤32 → point.toNat<2^bits → input.toNat<2^bits →
      let keys := Point.issue aes bits point payload roots
      keys.1.eval aes false input+keys.2.eval aes true input =
        if input=point then payload else 0) ∧
    ∀ (bits : ℕ) (threshold : BitVec 32) (roots : ℕ → Block × Block),
      (1≤bits ∧ bits≤32 ∧ threshold.toNat<2^bits →
        ∃ keys,Comparison.issue aes bits threshold roots = .ok keys) ∧
      ∀ keys,Comparison.issue aes bits threshold roots = .ok keys →
        ∀ input : BitVec 32,input.toNat<2^bits →
          keys.1.eval aes false input+keys.2.eval aes true input =
            if input<threshold then 1 else 0 := by
  constructor
  · intro bits point payload input roots _ hp hi
    exact Point.eval_add_eval bits point payload roots hp hi
  · intro bits threshold roots
    constructor
    · rintro ⟨positive,small,inside⟩
      exact ⟨_,if_neg (by omega)⟩
    · intro keys issued input hi
      exact Comparison.eval_add_eval issued hi

end Pllm.Fss.PointFss
