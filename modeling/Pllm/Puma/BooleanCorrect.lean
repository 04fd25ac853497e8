import Pllm.Puma.Compound

/-! A Boolean gate shares the conjunction of its operands: the zero share and the foreign cross terms
cancel bit by bit, and every transmitted word fits the width its receiver checks. -/
namespace Pllm.Puma.Multiply
open Pllm.Lib Pllm.Lib.Exec

/-- The lanes of the three components of a sharing. -/
abbrev Lanes := Party → ℕ → Word

/-- The shared word. -/
def Lanes.xor (f : Lanes) (i : ℕ) : Word := f .p0 i ^^^ f .p1 i ^^^ f .p2 i

@[simp] lemma Lanes.getLsbD_xor (f : Lanes) (i b : ℕ) : (Lanes.xor f i).getLsbD b =
    ((f .p0 i).getLsbD b ^^ (f .p1 i).getLsbD b ^^ (f .p2 i).getLsbD b) := by
  simp [Lanes.xor]

/-- No bit at or above a width. -/
def Fits (width : ℕ) (v : Word) : Prop := ∀ b, width≤b → v.getLsbD b = false

lemma Fits.mono {width wider : ℕ} {v : Word} (h : Fits width v) (hw : width≤wider) :
    Fits wider v := fun b hb => h b (hw.trans hb)

variable {width : ℕ}

lemma Fits.xor {v w : Word} (hv : Fits width v) (hw : Fits width w) :
    Fits width (v ^^^ w) := fun b hb => by simp [hv b hb,hw b hb]

lemma Fits.and_right {v : Word} (hv : Fits width v) (w : Word) :
    Fits width (v &&& w) := fun b hb => by simp [hv b hb]

namespace Boolean

/-- The width a mask keeps. -/
def maskWidth (width : ℕ) : ℕ := if width=0 then 64 else width

lemma getLsbD_widthMask (hw : width≤64) (b : ℕ) :
    (widthMask width).getLsbD b = decide (b < maskWidth width) := by
  unfold widthMask maskWidth
  rw [BitVec.getLsbD_ushiftRight,BitVec.getLsbD_allOnes]
  by_cases h : width=0
  · subst h
    simp
  · rw [if_neg h]
    congr 1
    apply propext
    omega

lemma and_not_widthMask (hw : width≤64) {v : Word}
    (hv : Fits (maskWidth width) v) : v &&& ~~~widthMask width = 0 := by
  apply BitVec.eq_of_getLsbD_eq
  intro b hb
  rw [BitVec.getLsbD_and,BitVec.getLsbD_not,getLsbD_widthMask hw]
  by_cases h : b < maskWidth width
  · simp [h]
  · simp [hv b (Nat.le_of_not_lt h)]

lemma fits_streamWord (env : Platform) (key : Block) (start bytes i : ℕ) :
    Fits (8*bytes) (streamWord env key start bytes i) :=
  fun _ hb => getLsbD_streamWord env key start i hb

lemma cross_bits : ∀ k0 k1 k2 l0 l1 l2 r0 r1 r2 : Bool,
    ((k0 ^^ k1 ^^ (l0 && r0) ^^ (l0 && r1) ^^ (l1 && r0)) ^^ (k1 ^^ k2 ^^ (l1 && r1) ^^ (l1 && r2)
      ^^ (l2 && r1)) ^^ (k2 ^^ k0 ^^ (l2 && r2) ^^ (l2 && r0) ^^ (l0 && r2))) = ((l0 ^^ l1 ^^ l2) &&
      (r0 ^^ r1 ^^ r2)) := by
  decide

/-- The product component of a party in one lane. -/
def gateLane (plan : Plan) (key l r : Lanes) (p : Party) (i : ℕ) : Word :=
  let product := key p i ^^^ key p.next i ^^^ (l p i &&& r p i) ^^^ (l p i &&& r p.next i)
    ^^^ (l p.next i &&& r p i)
  if plan.compact then product &&& plan.outputMask else product

/-- The width of the words a gate transmits. -/
def Plan.outputWidth (plan : Plan) : ℕ :=
  if plan.compact then maskWidth plan.outputBits else 8*plan.bytes

/-- A plan as the planners make it. -/
structure Plan.Sound (plan : Plan) : Prop where
  lanes_pos : 0<plan.lanes
  lanes_le : plan.lanes≤2*maxLanes
  backing : IsBacking plan.bytes
  bits_le : plan.outputBits≤64

section
variable {plan : Plan} (h : plan.Sound)
include h

lemma Plan.Sound.outputMask :
    ∃ width≤64, plan.outputMask = widthMask width ∧ maskWidth width = plan.outputWidth := by
  unfold Plan.outputMask Plan.outputWidth
  split
  · exact ⟨_,h.bits_le,rfl,rfl⟩
  · refine ⟨8*plan.bytes,?_,rfl,?_⟩ <;> rcases h.backing with hb | hb | hb | hb <;> simp [hb,maskWidth]

lemma getLsbD_outputMask (b : ℕ) : plan.outputMask.getLsbD b = decide (b<plan.outputWidth) := by
  obtain ⟨width,hw,hm,ho⟩ := h.outputMask
  rw [hm,getLsbD_widthMask hw,ho]

lemma xor_gateLane (key l r : Lanes) (i b : ℕ) : ((Lanes.xor (gateLane plan key l r)) i).getLsbD b
      = ((!plan.compact || decide (b<plan.outputWidth))
        && ((Lanes.xor l i).getLsbD b && (Lanes.xor r i).getLsbD b)) := by
  have hc := cross_bits ((key .p0 i).getLsbD b) ((key .p1 i).getLsbD b) ((key .p2 i).getLsbD b)
    ((l .p0 i).getLsbD b) ((l .p1 i).getLsbD b) ((l .p2 i).getLsbD b)
    ((r .p0 i).getLsbD b) ((r .p1 i).getLsbD b) ((r .p2 i).getLsbD b)
  rw [Lanes.getLsbD_xor l,Lanes.getLsbD_xor r,←hc,Lanes.getLsbD_xor]
  cases hp : plan.compact with
  | false => simp [gateLane,hp,Party.next]
  | true =>
    simp only [gateLane,hp,Party.next,if_true,BitVec.getLsbD_and,getLsbD_outputMask h,
      BitVec.getLsbD_xor,Bool.not_true,Bool.false_or]
    cases decide (b<plan.outputWidth) <;> simp

lemma fits_gateLane {key l : Lanes} (r : Lanes) {i : ℕ} (hk : ∀ p,
    Fits (8*plan.bytes) (key p i)) (hl : plan.compact=false → ∀ p, Fits (8*plan.bytes) (l p i)) (p :
    Party) : Fits plan.outputWidth (gateLane plan key l r p i) := by
  cases hp : plan.compact with
  | false =>
    have hl := hl hp
    simp only [gateLane,Plan.outputWidth,hp]
    exact ((((hk p).xor (hk p.next)).xor ((hl p).and_right _)).xor ((hl p).and_right _)).xor
      ((hl p.next).and_right _)
  | true =>
    intro b hb
    simp [gateLane,hp,getLsbD_outputMask h,Nat.not_lt.mpr hb]

end

/-- The operand a party hands to a planned gate. -/
def Plan.operandShare (env : Platform) (plan : Plan) (operand : Operand) (f : Lanes) (p : Party) :
    Share :=
  ⟨(Components.ofFn plan.lanes f).view (plan.operand env operand).1 p,(plan.operand env operand).2⟩

/-- The stream words of each party's own key at the cursor of a gate. -/
def keyLanes (env : Platform) (j : Joint) (bytes : ℕ) : Lanes :=
  fun p i => streamWord env (j.keys p) j.pairBlocks bytes i

variable {env : Platform} {j : Joint} {p : Party} {limits : PrssLimits} {room : ℕ}
  {s : SourceParty} {plan : Plan}

lemma validateOperands_eq (h : j.At env p limits room s) (hst : plan.pairStart=j.pairBlocks)
    (l r : Lanes) : validateOperands env s plan (plan.operandShare env .left l p)
      (plan.operandShare env .right r p) = .ok () := by
  simp [validateOperands,Plan.operandShare,Share.party,Components.view,h.party,h.pairBlocks,hst]

lemma crossProduct_eq (l r : Lanes) (key : Lanes) : crossProduct plan (tabulate plan.lanes (key p))
    (tabulate plan.lanes (key p.next)) (plan.operandShare env .left l p)
    (plan.operandShare env .right r p) = tabulate plan.lanes (gateLane plan key l r p) := by
  apply tabulate_congr
  intro i hi
  simp only [Plan.operandShare,Share.first,Share.second,Components.view,Components.ofFn_part,
    lane_tabulate _ hi,gateLane]

variable (h : j.At env p limits room s) (hs : plan.Sound)
include h hs

/-- One gate of one party: the product under the zero share, and its frame to the predecessor. -/
lemma yields_issue (hst :
    plan.pairStart=j.pairBlocks) (hend : j.pairBlocks+blockCount plan.lanes plan.bytes < 2^64)
    (hroom : 2*blockCount plan.lanes plan.bytes ≤ room) (l r : Lanes) :
    Yields (issue env plan (plan.operandShare env .left l p) (plan.operandShare env .right r p)) s
      fun out t =>
        let product := tabulate plan.lanes (gateLane plan (keyLanes env j plan.bytes) l r p)
        out = (⟨plan,product⟩,⟨⟨plan.digest env,p,p.next.next,.booleanAnd⟩,product⟩)
          ∧ ({ j with pairBlocks := j.pairBlocks+blockCount plan.lanes plan.bytes } : Joint).At env p
            limits (room-2*blockCount plan.lanes plan.bytes) t := by
  obtain ⟨privateSeed,hsee⟩ := h.seeds
  have hn := hs.lanes_pos
  have hm := hs.lanes_le
  have hcro : crossProduct plan (stream env (j.keys p) j.pairBlocks plan.lanes plan.bytes)
      (stream env (j.keys p.next) j.pairBlocks plan.lanes plan.bytes)
      (plan.operandShare env .left l p) (plan.operandShare env .right r p)
      = tabulate plan.lanes (gateLane plan (keyLanes env j plan.bytes) l r p) :=
    crossProduct_eq l r (keyLanes env j plan.bytes)
  have hspe := h.spend (j.pairBlocks+blockCount plan.lanes plan.bytes) hroom (s.fills
    ++ [⟨.own,j.pairBlocks,blockCount plan.lanes plan.bytes⟩,
      ⟨.next,j.pairBlocks,blockCount plan.lanes plan.bytes⟩])
  intro deny k
  simp [h.party,hsee] at hspe
  simp [issue,validateOperands_eq h hst,typedBlocks_eq hn hm hs.backing,hst,
    checkedAdd_eq hend,h.work hroom,SourceParty.setCursors,ReplicatedShare.chargeTo,charge,
    zeros,copy,hsee,hm,SourceParty.wp_fill _ _ hn hm hs.backing hend,h.party,hcro,hspe]

/-- The successor's product completes the output share. -/
lemma yields_receive {f : Lanes} (hf : ∀ i, Fits plan.outputWidth (f p.next i)) :
    Yields (Gate.receive env ⟨plan,tabulate plan.lanes (f p)⟩
        ⟨⟨plan.digest env,p.next,p,.booleanAnd⟩,tabulate plan.lanes (f p.next)⟩) s fun share t =>
      share = ⟨(Components.ofFn plan.lanes f).view plan.operation p,plan.outputBits⟩ ∧ t=s := by
  have hv := Message.validate_mk env plan.operation p.next p .booleanAnd
    (tabulate plan.lanes (f p.next)) (by simp [Message.expected,Plan.lanes])
  have hmask : within (tabulate plan.lanes (f p.next)) plan.outputMask=true := by
    obtain ⟨width,hw,hm,ho⟩ := hs.outputMask
    rw [within,all_tabulate]
    intro i _
    rw [hm]
    exact beq_iff_eq.mpr (and_not_widthMask hw (ho ▸ hf i))
  intro deny k
  simp [Gate.receive,h.party,Plan.digest,hv,hmask,charge,Components.view]

end Boolean

end Pllm.Puma.Multiply
