import Pllm.Fss.CompactDpf

/-! The Boolean point function whose packed states keep the control bit in bit zero and whose last
expansion is a terminal word for each branch. -/
namespace Pllm.Fss.Gpu127
open Pllm.Lib CompactDpf
open BitVec (getLsbD_or twoPow)

inductive Error
  | domain
  | encoding
  | resource
  | allocation
  | randomness

structure Profile where
  bits : ℕ

def Profile.new (bits : ℕ) : Except Error Profile :=
  if ¬(8≤bits ∧ bits≤63) then .error .domain else .ok ⟨bits⟩

def Profile.depth (self : Profile) : ℕ := self.bits-7

def Profile.ordinary (self : Profile) : ℕ := self.depth-1

/-- One entry of the key's two correction arrays: the packed word and the right control. -/
structure Ordinary where
  word : Block
  right : Bool

/-- The entries of the fixed arrays that an ordinary level uses, in order. -/
structure GpuKey where
  profile : Profile
  party : Bool
  root : Block
  words : List Ordinary
  terminal : Block × Block

/-- The source's `mask`. -/
def mask (bit : Bool) : Block := spread bit

/-- A one-bit integer as a `u128`. -/
def bitBlock (b : Bool) : Block := if b then 1 else 0

/-- The word with bit zero cleared: `packed & !1`. -/
def clearLow (packed : Block) : Block := packed &&& ~~~(1 : Block)

def child (aes : Aes) (packed : Block) (branch : Bool) : Block :=
  aes (clearLow packed) (if branch then 2 else 0)

def children (aes : Aes) (packed : Block) : Block × Block :=
  (aes (clearLow packed) 0,aes (clearLow packed) 2)

/-- One pass of the issuer's loop over the two states, for a point bit `keep`. -/
def issueLevel (aes : Aes) (keep : Bool) (states : Block × Block) : Ordinary × (Block × Block) :=
  let a := children aes states.1
  let b := children aes states.2
  let seed := clearLow (pick a (!keep) ^^^ pick b (!keep))
  let controls := ((a.1 ^^^ b.1).getLsbD 0 ^^ keep ^^ true,(a.2 ^^^ b.2).getLsbD 0 ^^ keep)
  let correction := seed ||| bitBlock (pick controls keep)
  (⟨seed ||| bitBlock controls.1,controls.2⟩,
    (pick a keep ^^^ (correction &&& mask (states.1.getLsbD 0)),
      pick b keep ^^^ (correction &&& mask (states.2.getLsbD 0))))

/-- The issuer's loop over the point bits from `n+7` down to 8. -/
def issueLevels (aes : Aes) (point : BitVec 64) : ℕ → Block × Block → List Ordinary × (Block × Block)
  | 0, states => ([],states)
  | n+1, states =>
    let level := issueLevel aes (point.getLsbD (8+n)) states
    let rest := issueLevels aes point n level.2
    (level.1::rest.1,rest.2)

/-- The terminal word of each branch; the unit goes to the branch of the point. -/
def issueTerminal (aes : Aes) (point : BitVec 64) (states : Block × Block) : Block × Block :=
  let a := children aes states.1
  let b := children aes states.2
  let keep := point.getLsbD 7
  let unit := BitVec.twoPow 128 (point &&& 127).toNat
  (a.1 ^^^ b.1 ^^^ (unit &&& mask (false==keep)),a.2 ^^^ b.2 ^^^ (unit &&& mask (true==keep)))

/-- The root controls are forced to be complementary after the paired draw. -/
def GpuKey.issueWith (aes : Aes) (profile : Profile) (point : BitVec 64) (drawn : Block × Block) :
    Except Error (GpuKey × GpuKey) :=
  if point.toNat≥2^profile.bits then .error .domain
  else
    let roots := (clearLow drawn.1 ||| bitBlock (drawn.2.getLsbD 0 ^^ true),drawn.2)
    let issued := issueLevels aes point profile.ordinary roots
    let terminal := issueTerminal aes point issued.2
    .ok (⟨profile,false,roots.1,issued.1,terminal⟩,⟨profile,true,roots.2,issued.1,terminal⟩)

def Ordinary.correction (self : Ordinary) (branch : Bool) : Block :=
  clearLow self.word ||| (if branch then bitBlock self.right else self.word &&& 1)

/-- One corrected child, for an ordinary level and for the terminal one alike. -/
def descend (aes : Aes) (correction : Bool → Block) (state : Block) (branch : Bool) : Block :=
  child aes state branch ^^^ (correction branch &&& mask (state.getLsbD 0))

namespace GpuKey

def checkInput (self : GpuKey) (input : BitVec 64) : Except Error Unit :=
  if input.toNat≥2^self.profile.bits then .error .domain else .ok ()

def pointWalk (aes : Aes) (bits : ℕ) (input : BitVec 64) : List Ordinary → ℕ → Block → Block
  | [], _, state => state
  | word::rest, level, state =>
    pointWalk aes bits input rest (level+1)
      (descend aes word.correction state (input.getLsbD (bits-1-level)))

def point (aes : Aes) (self : GpuKey) (input : BitVec 64) : Except Error Bool := do
  self.checkInput input
  let state := pointWalk aes self.profile.bits input self.words 0 self.root
  let leaf := descend aes (pick self.terminal) state (input.getLsbD 7)
  return (leaf >>> (input &&& 127).toNat).getLsbD 0

/-- The loop of `less`: the state, the parity and the branch taken before. -/
def lessWalk (aes : Aes) (bits : ℕ) (input : BitVec 64) :
    List Ordinary → ℕ → Block → Bool → Bool → Block × Bool × Bool
  | [], _, state, parity, previous => (state,parity,previous)
  | word::rest, level, state, parity, previous =>
    let branch := input.getLsbD (bits-1-level)
    lessWalk aes bits input rest (level+1) (descend aes word.correction state branch)
      (parity ^^ (state.getLsbD 0 && (previous ^^ branch))) branch

/-- The terminal bits a comparison counts: up to the offset on the left, past it on the right. -/
def selected (leaf : Block) (branch : Bool) (offset : ℕ) : Block :=
  if branch=false then leaf &&& (if offset=127 then BitVec.allOnes 128 else lowMask (offset+1))
  else if offset=127 then 0 else leaf >>> (offset+1)

def less (aes : Aes) (self : GpuKey) (input : BitVec 64) : Except Error Bool := do
  self.checkInput input
  let last := lessWalk aes self.profile.bits input self.words 0 self.root self.party false
  let state := last.1
  let branch := input.getLsbD 7
  let parity := last.2.1 ^^ (state.getLsbD 0 && (last.2.2 ^^ branch))
  let leaf := descend aes (pick self.terminal) state branch
  return parity ^^ oddOnes (selected leaf branch (input &&& 127).toNat)

end GpuKey

/-- A packed state with its control in bit zero. -/
def expander (aes : Aes) : Expander Block where
  child := child aes
  control s := s.getLsbD 0
  control_xor _ _ := BitVec.getLsbD_xor

lemma expander_step (aes : Aes) (correction : Bool → Block) (branch : Bool) (s : Block) :
    (expander aes).step correction branch s = descend aes correction s branch := by
  simp only [expander,descend,mask,and_spread]
  rfl

@[simp] lemma pick_children (aes : Aes) (packed : Block) (branch : Bool) :
    pick (children aes packed) branch = child aes packed branch := by
  cases branch <;> rfl

@[simp] lemma getLsbD_bitBlock (b : Bool) (i : ℕ) :
    (bitBlock b).getLsbD i = (decide (i=0) && b) := by
  cases b <;> simp [bitBlock]

@[simp] lemma getLsbD_clearLow (x : Block) (i : ℕ) :
    (clearLow x).getLsbD i = (!decide (i=0) && x.getLsbD i) := by
  simp only [clearLow,BitVec.getLsbD_and,BitVec.getLsbD_not]
  by_cases hi : i<128
  · simp [hi]
    grind
  · simp [BitVec.getLsbD_of_ge x i (by omega)]

lemma correction_packed (x : Block) (left right branch : Bool) :
    Ordinary.correction ⟨clearLow x ||| bitBlock left,right⟩ branch =
      clearLow x ||| bitBlock (if branch then right else left) := by
  apply BitVec.eq_of_getLsbD_eq
  intro i hi
  cases branch <;>
    simp only [Ordinary.correction,getLsbD_or,getLsbD_bitBlock] <;>
    simp <;> grind

lemma clearLow_or_getLsbD (x : Block) : clearLow x ||| bitBlock (x.getLsbD 0)=x := by
  apply BitVec.eq_of_getLsbD_eq
  intro i hi
  simp only [getLsbD_or,getLsbD_clearLow,getLsbD_bitBlock]
  by_cases h : i=0 <;> simp [h]

/-- The state of one of the two parties. -/
abbrev state (states : Block × Block) (party : Bool) : Block := pick states party

section
variable {aes : Aes}

variable (aes) in
lemma issueLevel_corrects (keep : Bool) (states : Block × Block) :
    (expander aes).Corrects keep (issueLevel aes keep states).1.correction (state states false)
      (state states true) where
  lose := by
    have h := clearLow_or_getLsbD (child aes states.1 (!keep) ^^^ child aes states.2 (!keep))
    simp only [issueLevel,correction_packed,pick_children,expander,state,pick_false,pick_true]
    cases keep <;> simpa [children,child] using h
  keep := by
    simp only [issueLevel,correction_packed,expander,state,pick_false,pick_true,
      getLsbD_or,getLsbD_clearLow,getLsbD_bitBlock]
    cases keep <;> simp [children,child]

lemma issueLevel_state (keep : Bool) (states : Block × Block) (party : Bool) :
    state (issueLevel aes keep states).2 party =
      descend aes (issueLevel aes keep states).1.correction (state states party) keep := by
  cases party <;> cases keep <;>
    simp only [issueLevel,descend,correction_packed,pick_false,pick_true] <;> rfl

lemma issueLevel_controls (keep : Bool) {states : Block × Block}
    (hs : states.2.getLsbD 0 = !states.1.getLsbD 0) :
    (issueLevel aes keep states).2.2.getLsbD 0 = !(issueLevel aes keep states).2.1.getLsbD 0 := by
  have h := (issueLevel_corrects aes keep states).complementary hs
  rw [expander_step,expander_step,← issueLevel_state,← issueLevel_state] at h
  exact h

@[simp] lemma length_issueLevels (point : BitVec 64) (n : ℕ) (states : Block × Block) :
    (issueLevels aes point n states).1.length = n := by
  induction n generalizing states with
  | zero => rfl
  | succ n ih => simp [issueLevels,ih]

variable (aes) in
/-- The terminal words cancel the sibling blocks and leave the unit between the path blocks. -/
lemma issueTerminal_xor (point : BitVec 64) {states : Block × Block}
    (hs : states.2.getLsbD 0 = !states.1.getLsbD 0) (branch : Bool) :
    descend aes (pick (issueTerminal aes point states)) states.1 branch ^^^
      descend aes (pick (issueTerminal aes point states)) states.2 branch =
      if branch=point.getLsbD 7 then twoPow 128 (point.toNat%128) else 0 := by
  have hx := Expander.step_xor_step (e := expander aes)
    (pick (issueTerminal aes point states)) hs branch
  rw [expander_step,expander_step] at hx
  rw [hx]
  simp only [issueTerminal,toNat_and_127,expander,child,children,mask,and_spread]
  generalize point.getLsbD 7=keep
  cases branch <;> cases keep <;> simp [BitVec.xor_assoc,xor_left_comm]

/-- The walk of the point query: the state and the branch that led to it. -/
def pointDescent (aes : Aes) (offset : ℕ) : Descent (Block × Bool) (Bool → Block) Bool where
  step correction branch s := (descend aes correction s.1 branch,branch)
  emit _ _ _ := false
  leaf s := (s.1 >>> offset).getLsbD 0

/-- The walk of the comparison query. -/
def lessDescent (aes : Aes) (offset : ℕ) : Descent (Block × Bool) (Bool → Block) Bool where
  step correction branch s := (descend aes correction s.1 branch,branch)
  emit _ branch s := s.1.getLsbD 0 && (s.2 ^^ branch)
  leaf s := oddOnes (GpuKey.selected s.1 s.2 offset)

section
variable {offset : ℕ} (correction : Bool → Block) (keep previous : Bool) {x y : Block} (h : y.getLsbD 0 = !x.getLsbD 0)
include h

lemma less_lose : (!previous ^^ (lessDescent aes offset).emit correction (!keep) (x,previous) ^^
      (lessDescent aes offset).emit correction (!keep) (y,previous)) = (keep && true) := by
  simp only [lessDescent,h]
  cases previous <;> cases keep <;> cases x.getLsbD 0 <;> rfl

lemma less_keep : (!previous ^^ (lessDescent aes offset).emit correction keep (x,previous) ^^
      (lessDescent aes offset).emit correction keep (y,previous)) = !keep := by
  simp only [lessDescent,h]
  cases previous <;> cases keep <;> cases x.getLsbD 0 <;> rfl

end

/-- The correction words of every level, the terminal pair last. -/
def levels (words : List Ordinary) (terminal : Block × Block) : List (Bool → Block) :=
  words.map Ordinary.correction++[pick terminal]

lemma levels_cons (word : Ordinary) (words : List Ordinary) (terminal : Block × Block) :
    levels (word::words) terminal = word.correction::levels words terminal := rfl

@[simp] lemma length_levels (words : List Ordinary) (terminal : Block × Block) :
    (levels words terminal).length = words.length+1 := by
  simp [levels]

variable (aes) in
/-- Issued words serve any walk whose accumulated bits depend on the state only through its control,
with `acc` giving the shared sum after each branch of the path. -/
lemma levels_issued {d : Descent (Block × Bool) (Bool → Block) Bool} (payload : Bool) {result :
    Bool} (acc : Bool → Bool) (point : BitVec 64)
    (hstep : ∀ correction branch s, d.step correction branch s =
      (descend aes correction s.1 branch,branch))
    (hlose : ∀ correction keep previous (x y : Block), y.getLsbD 0 = !x.getLsbD 0 →
      (acc previous ^^ d.emit correction (!keep) (x,previous) ^^
        d.emit correction (!keep) (y,previous)) = (keep && payload))
    (hkeep : ∀ correction keep previous (x y : Block), y.getLsbD 0 = !x.getLsbD 0 →
      (acc previous ^^ d.emit correction keep (x,previous) ^^
        d.emit correction keep (y,previous)) = acc keep)
    (hleaf : ∀ x y : Block, x ^^^ y = twoPow 128 (point.toNat%128) →
      (acc (point.getLsbD 7) ^^ d.leaf (x,point.getLsbD 7) ^^ d.leaf (y,point.getLsbD 7))=result)
    (n : ℕ) {states : Block × Block} (hs : states.2.getLsbD 0 = !states.1.getLsbD 0)
    (previous : Bool) :
    let issued := issueLevels aes point n states
    d.Issued (point.toNat >>> 7) payload result (levels issued.1 (issueTerminal aes point issued.2))
      (acc previous) (states.1,previous) (states.2,previous) := by
  induction n generalizing states previous with
  | zero =>
    refine .level (point.getLsbD 7) (Nat.testBit_shiftRight ..) ?_ ?_ ?_
    · have hx := issueTerminal_xor aes point hs (!point.getLsbD 7)
      rw [if_neg (by simp)] at hx
      rw [hstep,hstep]
      exact Prod.ext (xor_eq_zero_iff.mp hx) rfl
    · refine (hlose _ (point.getLsbD 7) previous _ _ hs).trans ?_
      cases point.getLsbD 7 <;> rfl
    · have hx := issueTerminal_xor aes point hs (point.getLsbD 7)
      rw [if_pos rfl] at hx
      rw [hstep,hstep]
      refine .leaf ?_
      have hk := hkeep (pick (issueTerminal aes point states)) (point.getLsbD 7) previous _ _ hs
      exact (congrArg (fun c => c ^^ _ ^^ _) hk).trans (hleaf _ _ hx)
  | succ n ih =>
    let keep := point.getLsbD (8+n)
    have hc := @issueLevel_controls aes keep states hs
    let level := issueLevel aes keep states
    change d.Issued _ _ _ (level.1.correction::levels (issueLevels aes point n level.2).1 _) _ _ _
    refine .level keep ?_ ?_ ?_ ?_
    · rw [length_levels,length_issueLevels,Nat.testBit_shiftRight,
        show 7+(n+1)=8+n by omega]
      rfl
    · have hm := (issueLevel_corrects aes keep states).merge hs
      rw [expander_step,expander_step] at hm
      rw [hstep,hstep]
      exact Prod.ext hm rfl
    · refine (hlose _ keep previous _ _ hs).trans ?_
      cases keep <;> rfl
    · have hrest := ih hc keep
      have hk : acc previous+d.emit level.1.correction keep (states.1,previous)
          -d.emit level.1.correction keep (states.2,previous) = acc keep :=
        hkeep _ keep previous _ _ hs
      have hl : level.2.1=descend aes level.1.correction states.1 keep :=
        issueLevel_state keep states false
      have hr : level.2.2=descend aes level.1.correction states.2 keep :=
        issueLevel_state keep states true
      rw [hk,hstep,hstep,← hl,← hr]
      exact hrest

/-- Past the empty suffix and at the full prefix the source avoids a shift by the whole width. -/
lemma selected_eq (leaf : Block) (branch : Bool) (offset : ℕ) :
    GpuKey.selected leaf branch offset =
      if branch then leaf >>> (offset+1) else leaf &&& lowMask (offset+1) := by
  by_cases ho : offset=127
  · subst ho
    cases branch
    · rfl
    · simp [GpuKey.selected,BitVec.ushiftRight_eq_zero]
  · cases branch <;> simp [GpuKey.selected,ho]

/-- Two path blocks share the order of the offset and the point inside the leaf, complemented on
the left branch by the parity carried along the path. -/
lemma selected_xor {x y : Block} {p : ℕ} (h : x ^^^ y = twoPow 128 p) (hp : p<128) (branch : Bool)
    {offset : ℕ} (ho : offset<128) : (!branch ^^ oddOnes (GpuKey.selected x branch offset)
    ^^ oddOnes (GpuKey.selected y branch offset)) = decide (offset<p) := by
  rw [selected_eq,selected_eq,Bool.xor_assoc]
  cases branch
  · simp only [Bool.false_eq_true,if_false,oddOnes_and_of_xor_eq_twoPow h hp]
    rw [getLsbD_lowMask (by omega)]
    grind
  · simp only [if_true,oddOnes_of_xor_eq_twoPow h hp]
    simp

section
variable (offset bits : ℕ) (input : BitVec 64) (terminal : Block × Block) (words : List Ordinary) (level : ℕ) (hl : words.length+level+8=bits) (s : Block)
include offset bits input terminal hl s

lemma pointWalk_eval (previous : Bool) : (pointDescent aes offset).eval
    (input.toNat >>> 7) (levels words terminal) (s,previous) = (descend aes (pick terminal)
    (GpuKey.pointWalk aes bits input words level s) (input.getLsbD 7) >>> offset).getLsbD 0 := by
  induction words generalizing level s previous with
  | nil =>
    have hb : (input.toNat >>> 7).testBit 0=input.getLsbD 7 := Nat.testBit_shiftRight ..
    exact (Bool.false_xor _).trans (by rw [List.length_nil,hb]; rfl)
  | cons word rest ih =>
    simp only [List.length_cons] at hl
    have hb : rest.length+1+1+level+7=bits := by omega
    rw [levels_cons,Descent.eval,length_levels,CompactDpf.testBit_leaf hb]
    exact (Bool.false_xor _).trans (ih (level+1) (by omega) _ _)

lemma lessWalk_eval (parity previous : Bool) :
    let last := GpuKey.lessWalk aes bits input words level s parity previous
    (parity ^^ (lessDescent aes offset).eval (input.toNat >>> 7) (levels words terminal)
        (s,previous)) =
      (last.2.1 ^^ (last.1.getLsbD 0 && (last.2.2 ^^ input.getLsbD 7)) ^^
        oddOnes (GpuKey.selected (descend aes (pick terminal) last.1 (input.getLsbD 7))
          (input.getLsbD 7) offset)) := by
  induction words generalizing level s parity previous with
  | nil =>
    refine Eq.trans ?_ (Bool.xor_assoc ..).symm
    rfl
  | cons word rest ih =>
    simp only [List.length_cons] at hl
    have hb : rest.length+1+1+level+7=bits := by omega
    rw [levels_cons,Descent.eval,length_levels,CompactDpf.testBit_leaf hb]
    exact (Bool.xor_assoc ..).symm.trans (ih (level+1) (by omega) _ _ _)

end

section
variable {profile : Profile} {point input : BitVec 64} {drawn : Block × Block}
  {left right : GpuKey}

lemma GpuKey.issueWith_eq_ok (hb : 8≤profile.bits)
    (h : GpuKey.issueWith aes profile point drawn = .ok (left,right)) :
    point.toNat<2^profile.bits ∧ ∃ roots : Block × Block, roots.2.getLsbD 0 = !roots.1.getLsbD 0 ∧
      let issued := issueLevels aes point profile.ordinary roots
      issued.1.length+8 = profile.bits ∧
      let terminal := issueTerminal aes point issued.2
      left = ⟨profile,false,roots.1,issued.1,terminal⟩ ∧
        right = ⟨profile,true,roots.2,issued.1,terminal⟩ := by
  rw [GpuKey.issueWith,ite_error_eq_ok] at h
  obtain ⟨hd,h⟩ := h
  obtain ⟨rfl,rfl⟩ := Prod.mk.inj (Except.ok.inj h)
  refine ⟨by omega,(clearLow drawn.1 ||| bitBlock (drawn.2.getLsbD 0 ^^ true),drawn.2),?_,?_,
    rfl,rfl⟩
  · simp only [getLsbD_or,getLsbD_clearLow,getLsbD_bitBlock]
    simp
  · simp only [length_issueLevels,Profile.ordinary,Profile.depth]
    omega

section
variable {self : GpuKey} (hw : self.words.length+8=self.profile.bits) (hi : input.toNat<2^self.profile.bits)
include hw hi

lemma GpuKey.point_eq : self.point aes input = .ok ((pointDescent aes (input.toNat%128)).eval
    (input.toNat >>> 7) (levels self.words self.terminal) (self.root,false)) := by
  rw [GpuKey.point,GpuKey.checkInput,if_neg (not_le.mpr hi),ok_bind,toNat_and_127,
    pointWalk_eval _ self.profile.bits input _ self.words 0 (by omega)]
  rfl

lemma GpuKey.less_eq :
    self.less aes input = .ok (self.party ^^ (lessDescent aes (input.toNat%128)).eval
      (input.toNat >>> 7) (levels self.words self.terminal) (self.root,false)) := by
  rw [GpuKey.less,GpuKey.checkInput,if_neg (not_le.mpr hi),ok_bind,toNat_and_127,
    lessWalk_eval _ self.profile.bits input _ self.words 0 (by omega)]
  rfl

end

variable (hb : 8≤profile.bits)
include hb

section
variable (h : GpuKey.issueWith aes profile point drawn = .ok (left,right)) (hi : input.toNat<2^profile.bits)
include h hi

lemma point_xor_point : ∃ a b, left.point aes input = .ok a ∧ right.point aes input = .ok b ∧
    (a ^^ b) = decide (input=point) := by
  obtain ⟨hp,roots,hs,hw,rfl,rfl⟩ := GpuKey.issueWith_eq_ok hb h
  refine ⟨_,_,GpuKey.point_eq hw hi,GpuKey.point_eq hw hi,?_⟩
  have hiss := levels_issued aes false
    (d := pointDescent aes (input.toNat%128)) (fun _ => false) point (fun _ _ _ => rfl)
    (fun _ keep _ _ _ _ => (Bool.and_false keep).symm) (fun _ _ _ _ _ _ => rfl)
    (fun x y hxy => (Bool.xor_assoc ..).trans ((Bool.false_xor _).trans
      (getLsbD_zero_of_xor_eq_twoPow hxy (Nat.mod_lt point.toNat (by decide)) _)))
    profile.ordinary hs false
  have he := hiss.eval_xor_eval (n := profile.bits-7) (by rw [length_levels]; omega)
    (shiftRight_lt hi (by omega)) (shiftRight_lt hp (by omega))
  rw [Bool.false_xor] at he
  exact he.trans (decide_eq_leaves input point)

lemma less_xor_less : ∃ a b, left.less aes input = .ok a ∧ right.less aes input = .ok b ∧
    (a ^^ b) = decide (input<point) := by
  obtain ⟨hp,roots,hs,hw,rfl,rfl⟩ := GpuKey.issueWith_eq_ok hb h
  refine ⟨_,_,GpuKey.less_eq hw hi,GpuKey.less_eq hw hi,?_⟩
  have hiss := levels_issued aes true
    (d := lessDescent aes (input.toNat%128)) (fun previous => !previous) point (fun _ _ _ => rfl)
    (fun correction keep previous x y hxy => less_lose correction keep previous hxy)
    (fun correction keep previous x y hxy => less_keep correction keep previous hxy)
    (fun x y hxy => selected_xor hxy (Nat.mod_lt point.toNat (by decide)) _
      (Nat.mod_lt input.toNat (by decide)))
    profile.ordinary hs false
  have he := hiss.eval_xor_eval (n := profile.bits-7) (by rw [length_levels]; omega)
    (shiftRight_lt hi (by omega)) (shiftRight_lt hp (by omega))
  refine Eq.trans ?_ (he.trans (decide_lt_leaves input point))
  simp

end

end

end

/-- Every admitted width, point and paired draw gives keys whose two queries are shares of the two
tests. -/
theorem gpu127_shares (aes : Aes) (bits : ℕ) (point : BitVec 64) (drawn : Block × Block)
    (hb : 8≤bits ∧ bits≤63) (hp : point.toNat<2^bits) : ∃ profile left right,
    Profile.new bits = .ok profile ∧ GpuKey.issueWith aes profile point drawn = .ok
    (left,right) ∧ ∀ input : BitVec 64, input.toNat<2^bits → (∃ a b, left.point aes input = .ok a ∧
    right.point aes input = .ok b ∧ (a ^^ b) = decide (input=point)) ∧ ∃ a b, left.less aes input =
    .ok a ∧ right.less aes input = .ok b ∧ (a ^^ b) = decide (input<point) := by
  have hk : ∃ keys, GpuKey.issueWith aes ⟨bits⟩ point drawn = .ok keys :=
    ⟨_,if_neg (not_le.mpr hp)⟩
  obtain ⟨⟨left,right⟩,hk⟩ := hk
  exact ⟨⟨bits⟩,left,right,if_neg (not_not_intro hb),hk,fun input hi =>
    ⟨point_xor_point hb.1 hk hi,less_xor_less hb.1 hk hi⟩⟩

theorem gpu127_shares_at : ∃ profile left right, Profile.new 10 = .ok profile ∧
    GpuKey.issueWith mixingAes profile 383 (20,77) = .ok (left,right) ∧ ∀ input :
    BitVec 64, input.toNat<2^10 → (∃ a b, left.point mixingAes input = .ok a ∧
    right.point mixingAes input = .ok b ∧ (a ^^ b) = decide (input=383)) ∧ ∃ a b, left.less
    mixingAes input = .ok a ∧ right.less mixingAes input = .ok b ∧ (a ^^ b) = decide (input<383) :=
  gpu127_shares mixingAes 10 383 (20,77) (by decide) (by decide)

end Pllm.Fss.Gpu127
