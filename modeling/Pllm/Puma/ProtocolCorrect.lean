import Pllm.Puma.Prss
import Pllm.Lib.Truncation

/-! The truncation protocol shares the truncated input: the opening, the correction and the offset
cancel in every lane, and what is left is the floor or one more. -/
namespace Pllm.Puma
open Pllm.Lib Pllm.Lib.Exec Operation PartyRuntime Truncation Message Party Components

/-- The word the two evaluators share after the opening. -/
def truncated (shift : ℕ) (x r : Word) : Word :=
  let c := x+(1 : Word) <<< 62+r
  let msb := c >>> 63
  (((r >>> 63)+msb-msb*(r >>> 63)*2) <<< (63-shift))-((r &&& lowMask 63) >>> shift)
    +((c &&& lowMask 63) >>> shift)-((1 : Word) <<< (62-shift))

lemma openLane_add (shift : ℕ) (x r rb rc oa ob : Word) : openLane true shift
    (x+(1 : Word) <<< 62+r) (rb+(r >>> 63)) (rc+((r &&& lowMask 63) >>> shift)) oa
    +openLane false shift (x+(1 : Word) <<< 62+r) (0-rb) (0-rc) ob+oa+ob = truncated shift x r := by
  simp only [openLane,truncated,if_true,Bool.false_eq_true,if_false,BitVec.shiftLeft_eq_mul_twoPow]
  ring

lemma lowMask_shiftRight (r : Word) (shift : ℕ) :
    (r &&& lowMask 63) >>> shift = BitVec.ofNat 64 (r.toNat%2^63/2^shift) := by
  apply BitVec.eq_of_toNat_eq
  have hle : r.toNat%2^63/2^shift ≤ r.toNat%2^63 := Nat.div_le_self ..
  have hm : r.toNat%2^63/2^shift%2^64=r.toNat%2^63/2^shift := Nat.mod_eq_of_lt (by omega)
  rw [BitVec.toNat_ushiftRight,toNat_and_lowMask r (by omega),Nat.shiftRight_eq_div_pow,
    BitVec.toNat_ofNat,hm]

lemma top_xor (c r : Word) : (r >>> 63)+(c >>> 63)-(c >>> 63)*(r >>> 63)*2
      = if c.toNat/2^63=r.toNat/2^63 then 0#64 else 1#64 := by
  have hbit (x : Word) : x >>> 63=BitVec.ofNat 64 (x.toNat/2^63) := by
    apply BitVec.eq_of_toNat_eq
    rw [BitVec.toNat_ushiftRight,Nat.shiftRight_eq_div_pow,BitVec.toNat_ofNat]
    omega
  rw [hbit c,hbit r]
  have hc : c.toNat/2^63=0 ∨ c.toNat/2^63=1 := by omega
  have hr : r.toNat/2^63=0 ∨ r.toNat/2^63=1 := by omega
  rcases hc with hc | hc <;> rcases hr with hr | hr <;> rw [hc,hr] <;> decide

lemma toNat_recentred {x : Word} (hl : -2^62 ≤ x.toInt) (hu : x.toInt<2^62) :
    ((x+(1 : Word) <<< 62).toNat : ℤ)=x.toInt+2^62 := by
  have h1 : ((1 : Word) <<< 62).toNat=2^62 := by decide
  rw [BitVec.toNat_add]
  rw [BitVec.toInt_eq_toNat_cond] at *
  split at hl <;> split at hu <;> split <;> omega

lemma one_shiftLeft (n : ℕ) : (1 : Word) <<< n = BitVec.ofNat 64 (2^n) := by
  apply BitVec.eq_of_toNat_eq
  simp [Nat.shiftLeft_eq]

lemma truncated_eq {shift : ℕ} (hs : shift≤62)
    {x r : Word} (hl : -2^62 ≤ x.toInt) (hu : x.toInt<2^62) : truncated shift x r = BitVec.ofInt 64
    ((x.toInt+(r.toNat%2^63:ℕ))/2^shift-(r.toNat%2^63:ℕ)/2^shift) := by
  have hx := toNat_recentred hl hu
  generalize hk : (x+(1 : Word) <<< 62).toNat=k at hx
  have hc : (x+(1 : Word) <<< 62+r).toNat=(k+r.toNat)%(2*2^63) := by
    rw [BitVec.toNat_add,hk]
    norm_num
  have hpow : (2:ℕ)^63=2^shift*2^(63-shift) := by
    rw [mul_comm,Nat.pow_sub_mul_pow 2 (by omega)]
  have hlift := lift_opening_div hpow (x := k) (r := r.toNat) (by omega)
    (by have := r.isLt; omega)
  rw [←hc] at hlift
  have hpow' : (2:ℤ)^62=2^shift*2^(62-shift) := by
    rw [mul_comm,pow_sub_mul_pow 2 hs]
  -- the masked sum, shifted down
  have hsum : (if (x+(1 : Word) <<< 62+r).toNat/2^63=r.toNat/2^63 then 0#64 else 1#64)
        <<< (63-shift)+BitVec.ofNat 64 ((x+(1 : Word) <<< 62+r).toNat%2^63/2^shift)
      = BitVec.ofNat 64 ((k+r.toNat%2^63)/2^shift) := by
    rw [←hlift,BitVec.ofNat_add]
    by_cases h : (x+(1 : Word) <<< 62+r).toNat/2^63=r.toNat/2^63
    · rw [if_pos h,if_pos h,BitVec.zero_shiftLeft]
    · rw [if_neg h,if_neg h,←one_shiftLeft]
      rfl
  have hint : ((x.toInt+(r.toNat%2^63:ℕ))/2^shift : ℤ)
      = ((k+r.toNat%2^63)/2^shift:ℕ)-2^(62-shift) := by
    have : x.toInt+(r.toNat%2^63:ℕ)=(k+r.toNat%2^63:ℕ)+2^shift*(-2^(62-shift)) := by
      push_cast
      linarith
    rw [this,Int.add_mul_ediv_left _ _ (by positivity)]
    push_cast
    ring
  rw [hint]
  simp only [truncated,top_xor,lowMask_shiftRight,one_shiftLeft (62-shift)]
  have hcast (n : ℕ) : BitVec.ofNat 64 n=BitVec.ofInt 64 n := by simp
  have hsub (a b : ℤ) : BitVec.ofInt 64 (a-b)=BitVec.ofInt 64 a-BitVec.ofInt 64 b := by
    rw [sub_eq_add_neg,BitVec.ofInt_add,BitVec.ofInt_neg,←sub_eq_add_neg]
  have hr : ((r.toNat%2^63:ℕ) : ℤ)/2^shift=(r.toNat%2^63/2^shift:ℕ) := by
    norm_num
  have hone : ((2:ℤ)^(62-shift))=(2^(62-shift):ℕ) := by norm_num
  rw [hsub,hsub,hr,hone,←hcast,←hcast,←hcast,←hsum]
  ring

/-- Correlated randomness the source has dealt consistently: each evaluator has one mask and one
output component, the helper has both, and perhaps its split already drawn. -/
structure Correlated (n : ℕ) where
  maskA : Words
  maskB : Words
  outputA : Words
  outputB : Words
  split : Option Words
  length_outputA : outputA.length=n
  length_outputB : outputB.length=n

namespace Correlated
variable {n : ℕ}

def mask (m : Correlated n) (op : Operation) (p : Party) : Words :=
  if p=op.evaluatorA then m.maskA else m.maskB

def output (m : Correlated n) (op : Operation) (p : Party) : Words :=
  if p=op.evaluatorA then m.outputA else m.outputB

def material (m : Correlated n) (op : Operation) (p : Party) : LocalMaterial :=
  ⟨op,p,if p = op.helper then .helper m.maskA m.maskB m.split m.outputA m.outputB
    else .evaluator (m.mask op p) (m.output op p)⟩

end Correlated

/-- The split words the helper of `n` lanes ends up with. -/
def splitWords (entropy : Entropy) (n : ℕ) (split : Option Words) : Except Error Words :=
  match split with
  | some words => .ok words
  | none => entropy.fill (2*n)

/-- A runtime that accepts the operation. -/
structure Admits (op : Operation) (p : Party) (s : PartyRuntime) : Prop where
  party : s.party=p
  state : s.state = .ready
  context : op.context=s.context
  sequence : op.sequence=s.nextSequence
  bound : op.sequence < s.limits.maxOperations
  lanes : ∃ bytes, s.limits.admittedBytes op.lanes = .ok bytes

variable {op : Operation} {p : Party}

lemma Admits.lanes_le {s : PartyRuntime} (h : Admits op p s) : op.lanes ≤ maxLanes := by
  obtain ⟨bytes,hb⟩ := h.lanes
  obtain ⟨_,hl,_⟩ := Limits.admittedBytes_eq_ok hb
  exact hl.trans s.limits.maxLanes_le

namespace PartyRuntime

@[simp] lemma length_maskedInput (a : Bool) (op : Operation) (input : ReplicatedShare)
    (mask : Words) : (maskedInput a op input mask).length = op.lanes :=
  length_tabulate ..

@[simp] lemma length_openShare (a : Bool) (op : Operation) (ownOpen peerOpen correlation output :
    Words) : (openShare a op ownOpen peerOpen correlation output).length = op.lanes :=
  length_tabulate ..

variable (env : Platform) {entropy : Entropy} {op : Operation} {p : Party} {s : PartyRuntime}

lemma yields_begin_evaluator (h : Admits op p s) (first second mask output : Words) :
    Yields (beginWithRandomness env op ⟨op,p,first,second⟩
        ⟨op,p,.evaluator mask output⟩ entropy) s fun frames t =>
      let opening := maskedInput (p=op.evaluatorA) op ⟨op,p,first,second⟩ mask
      frames = (some ⟨header env op p (op.peer p) .maskedInput,opening⟩,none)
        ∧ t = { s with
          nextSequence := s.nextSequence+1
          state := .opening op opening output } := by
  obtain ⟨bytes,hb⟩ := h.lanes
  have hn : op.lanes≤2*maxLanes := by have := h.lanes_le; omega
  have hq := h.sequence ▸ h.bound
  intro deny k
  simp [beginWithRandomness,beginInner,beginEvaluator,ReplicatedShare.chargeTo,
    LocalMaterial.chargeTo,charge,zeros,copy,setState,h.state,h.party,h.context,h.sequence,
    hb,hn,hq]

lemma yields_begin_helper (h : Admits op p s) (hp : p=op.helper)
    (first second maskA maskB outputA outputB : Words) {split : Option Words} {words : Words}
    (hw : splitWords entropy op.lanes split = .ok words) :
    Yields (beginWithRandomness env op ⟨op,p,first,second⟩
        ⟨op,p,.helper maskA maskB split outputA outputB⟩ entropy) s fun frames t =>
      frames = (some ⟨header env op p op.evaluatorA .correlation,
          correlationA op maskA maskB words⟩,
        some ⟨header env op p op.evaluatorB .correlation,
          correlationB op words⟩)
        ∧ t = { s with
          nextSequence := s.nextSequence+1
          state := .complete ⟨op,p,outputB,outputA⟩ } := by
  obtain ⟨bytes,hb⟩ := h.lanes
  have hn : op.lanes ≤ maxLanes := h.lanes_le
  have hq := h.sequence ▸ h.bound
  intro deny k
  cases split with
  | some split =>
    obtain rfl := ok_inj hw
    simp [beginWithRandomness,beginInner,beginHelper,takeSplit,ReplicatedShare.chargeTo,
      LocalMaterial.chargeTo,charge,zeros,setState,h.state,h.party,h.context,h.sequence,
      hb,hn,hq,hp]
  | none =>
    rw [splitWords] at hw
    simp [beginWithRandomness,beginInner,beginHelper,takeSplit,ReplicatedShare.chargeTo,
      LocalMaterial.chargeTo,charge,zeros,setState,h.state,h.party,h.context,h.sequence,
      hb,hn,hq,hp,hw]

lemma yields_openRound {ownOpen output : Words} (hs : s.state = .opening op ownOpen output)
    (hn : op.lanes ≤ maxLanes) {peerOpen correlation : Words} (hp :
    peerOpen.length=op.lanes) (hc : correlation.length=2*op.lanes) :
    Yields (openRound env
        ⟨header env op (op.peer s.party) s.party .maskedInput,peerOpen⟩
        ⟨header env op op.helper s.party .correlation,correlation⟩) s
      fun message t =>
        let share := openShare (s.party=op.evaluatorA) op ownOpen peerOpen
          correlation output
        message = ⟨header env op s.party (op.peer s.party) .reshare,share⟩
          ∧ t = { s with state := .resharing op share output } := by
  have hn' : op.lanes≤2*maxLanes := by omega
  have h1 := validate_mk env op (op.peer s.party) s.party .maskedInput
    peerOpen (by simp [expected,hp])
  have h2 := validate_mk env op op.helper s.party .correlation
    correlation (by simp [expected,hc]; omega)
  intro deny k
  simp [openRound,openInner,takeState,setState,hs,charge,zeros,copy,hn',header] at h1 h2 ⊢
  simp [h1,h2]

lemma yields_reshare {ownReshare output : Words} (hs : s.state = .resharing op ownReshare
    output) {peerShare : Words} (hp : peerShare.length=op.lanes) :
    Yields (reshare env ⟨header env op (op.peer s.party) s.party .reshare,peerShare⟩) s
      fun _ t =>
        let total := tabulate op.lanes fun i => lane ownReshare i+lane peerShare i
        t = { s with state := .complete (if s.party = op.evaluatorA
          then ⟨op,s.party,output,total⟩ else ⟨op,s.party,total,output⟩) } := by
  have h1 := validate_mk env op (op.peer s.party) s.party .reshare
    peerShare (by simp [expected,hp])
  intro deny k
  simp [reshare,reshareInner,takeState,setState,hs,charge,header] at h1 ⊢
  simp [h1]

lemma yields_takeOutput {output : ReplicatedShare} (hs : s.state = .complete output) :
    Yields takeOutput s fun out t => out=output ∧ t = { s with state := .ready } := by
  intro deny k
  simp [takeOutput,takeState,setState,hs]

end PartyRuntime

/-- Three runtimes truncate one sharing, each round in any order; the evaluators exchange their
frames and the helper's go to the evaluator they are made for. -/
def truncate (env : Platform) (op : Operation) (input : Party → ReplicatedShare)
    (material : Party → LocalMaterial) (entropy : Entropy) (turns : ℕ → Turn Party) :
    Exec Error (Party → PartyRuntime) (Party → ReplicatedShare) := do
  let frames ← round (turns 0) fun p =>
    PartyRuntime.beginWithRandomness env op (input p) (material p) entropy
  let shares ← round (turns 1) fun p =>
    if p=op.helper then return none
    else do
      let correction := if p=op.evaluatorA then (frames op.helper).1
        else (frames op.helper).2
      let peerOpen ← .expect (frames (op.peer p)).1 .phase
      let correlation ← .expect correction .phase
      let message ← PartyRuntime.openRound env peerOpen correlation
      return some message
  let _ ← round (turns 2) fun p =>
    if p=op.helper then return ()
    else do
      let peerShare ← .expect (shares (op.peer p)) .phase
      PartyRuntime.reshare env peerShare
  round (turns 3) fun _ => PartyRuntime.takeOutput

section
variable {env : Platform} {entropy : Entropy} {op : Operation}
  {x : Components op.lanes} {m : Correlated op.lanes} {split : Words}

/-- The words each evaluator opens. -/
def openings (op : Operation) (x : Components op.lanes)
    (m : Correlated op.lanes) (p : Party) : Words :=
  PartyRuntime.maskedInput (p=op.evaluatorA) op (x.view op p) (m.mask op p)

/-- The correction each evaluator gets. -/
def corrections (op : Operation) (m : Correlated op.lanes) (split : Words)
    (p : Party) : Words :=
  if p=op.evaluatorA then PartyRuntime.correlationA op m.maskA m.maskB split
  else PartyRuntime.correlationB op split

/-- What each evaluator sends after the opening. -/
def resharings (op : Operation) (x : Components op.lanes)
    (m : Correlated op.lanes) (split : Words) (p : Party) : Words :=
  PartyRuntime.openShare (p=op.evaluatorA) op (openings op x m p)
    (openings op x m (op.peer p)) (corrections op m split p)
    (m.output op p)

end

lemma Operation.peer_eq (hp : p≠op.helper) : op.peer p ≠ op.helper ∧ op.peer (op.peer p)=p := by
  have h1 := next_ne op.pivot
  have h2 := next_next_ne op.pivot
  simp only [peer,evaluatorA,evaluatorB,helper] at hp ⊢
  obtain rfl | rfl | rfl := eq_or op.pivot p
  · simp [h1.symm]
  · simp [h1,h2.symm]
  · exact absurd rfl hp

lemma Operation.eq_evaluatorB (hp : p≠op.helper) (ha : p≠op.evaluatorA) : p=op.evaluatorB := by
  obtain h | h | h := eq_or op.pivot p
  · exact absurd h ha
  · exact h
  · exact absurd h hp

section
variable {env : Platform} {entropy : Entropy} {op : Operation}
  (x : Components op.lanes) (m : Correlated op.lanes) (split : Words)

@[simp] lemma length_openings (p : Party) : (openings op x m p).length = op.lanes :=
  length_maskedInput ..

@[simp] lemma length_corrections (p : Party) : (corrections op m split p).length = 2*op.lanes := by
  unfold corrections
  split <;> simp [correlationA,correlationB]

@[simp] lemma length_resharings (p : Party) : (resharings op x m split p).length = op.lanes :=
  length_openShare ..

/-- The components the protocol ends with, by role. -/
def truncatedComponents : Components op.lanes where
  part p := if p=op.evaluatorA then m.outputA
    else if p=op.evaluatorB then tabulate op.lanes fun i =>
      lane (resharings op x m split op.evaluatorA) i
        +lane (resharings op x m split op.evaluatorB) i
    else m.outputB
  length_part p := by
    split
    · exact m.length_outputA
    · split
      · simp
      · exact m.length_outputB

lemma view_evaluatorA : (truncatedComponents x m split).view op op.evaluatorA
      = ⟨op,op.evaluatorA,m.outputA,tabulate op.lanes fun i =>
        lane (resharings op x m split op.evaluatorA) i
          +lane (resharings op x m split (op.peer op.evaluatorA)) i⟩ := by
  have h1 := next_ne op.pivot
  simp [view,truncatedComponents,evaluatorA,evaluatorB,peer,h1]

lemma view_evaluatorB : (truncatedComponents x m split).view op op.evaluatorB =
    ⟨op,op.evaluatorB,tabulate op.lanes fun i => lane (resharings op x m split op.evaluatorB)
    i +lane (resharings op x m split (op.peer op.evaluatorB)) i, m.outputB⟩ := by
  have h1 := next_ne op.pivot
  have h2 := next_next_ne op.pivot
  simp [view,truncatedComponents,evaluatorA,evaluatorB,peer,h1,h2,add_comm]

lemma view_helper : (truncatedComponents x m split).view op op.helper
      = ⟨op,op.helper,m.outputB,m.outputA⟩ := by
  have h1 := next_ne op.pivot
  have h2 := next_next_ne op.pivot
  simp [view,truncatedComponents,evaluatorA,evaluatorB,helper,h1,h2]

section
variable {i : ℕ} (hi : i<op.lanes)
include hi

lemma lane_openings_add : lane (openings op x m op.evaluatorA) i +lane (openings
    op x m op.evaluatorB) i = x.total i+(1 : Word) <<< 62+(lane m.maskA i+lane m.maskB i) := by
  have h1 := next_ne op.pivot
  rw [x.total_eq i op.pivot]
  simp only [openings,maskedInput,evaluatorA,evaluatorB, Correlated.mask,view,lane_tabulate
    _ hi,h1,decide_true,decide_false,if_true, if_false,Bool.false_eq_true]
  ring

lemma lane_resharings_A : lane (resharings op x m split op.evaluatorA) i = openLane true op.shift
    (x.total i+(1 : Word) <<< 62+(lane m.maskA i+lane m.maskB i))
    (lane split i+((lane m.maskA i+lane m.maskB i) >>> 63)) (lane split (op.lanes+i)
    +(((lane m.maskA i+lane m.maskB i) &&& lowMask 63) >>> op.shift)) (lane m.outputA i) := by
  have hi2 : op.lanes+i<2*op.lanes := by omega
  have hi3 : i<2*op.lanes := by omega
  have hn : ¬op.lanes+i < op.lanes := by omega
  have hp : op.peer op.evaluatorA=op.evaluatorB := if_pos rfl
  rw [resharings,openShare,lane_tabulate _ hi,hp,lane_openings_add x m hi]
  simp only [corrections,correlationA,Correlated.output,lane_tabulate _ hi2,
    lane_tabulate _ hi3,hi,hn,decide_true,if_true,if_false,Nat.add_sub_cancel_left]

lemma lane_resharings_B : lane (resharings op x m split op.evaluatorB) i
      = openLane false op.shift (x.total i+(1 : Word) <<< 62+(lane m.maskA i+lane m.maskB i))
        (0-lane split i) (0-lane split (op.lanes+i)) (lane m.outputB i) := by
  have hne : op.evaluatorB≠op.evaluatorA := next_ne op.pivot
  have hi2 : op.lanes+i<2*op.lanes := by omega
  have hi3 : i<2*op.lanes := by omega
  have hp : op.peer op.evaluatorB=op.evaluatorA := if_neg hne
  rw [resharings,openShare,lane_tabulate _ hi,hp,
    add_comm (lane (openings op x m op.evaluatorB) i),lane_openings_add x m hi]
  simp only [corrections,correlationB,Correlated.output,lane_tabulate _ hi2,
    lane_tabulate _ hi3,hne,decide_false,if_false]

lemma total_truncatedComponents : (truncatedComponents x m split).total i
      = truncated op.shift (x.total i) (lane m.maskA i+lane m.maskB i) := by
  have h1 := next_ne op.pivot
  have h2 := next_next_ne op.pivot
  rw [total_eq _ i op.pivot]
  simp only [truncatedComponents,evaluatorA,evaluatorB,h1,h2,
    next_inj,if_true,if_false,lane_tabulate _ hi]
  rw [←openLane_add op.shift _ _ (lane split i) (lane split (op.lanes+i))
    (lane m.outputA i) (lane m.outputB i)]
  have hA := lane_resharings_A x m split hi
  have hB := lane_resharings_B x m split hi
  simp only [evaluatorA,evaluatorB] at hA hB
  rw [hA,hB]
  ring

end

variable {x m split}

lemma yields_truncate (hm : splitWords entropy op.lanes m.split = .ok split)
    (turns : ℕ → Turn Party) {s : Party → PartyRuntime} (h : ∀ p, Admits op p (s p)) :
    Yields (truncate env op (x.view op) (m.material op) entropy turns) s fun out t =>
    (∀ p, out p = (truncatedComponents x m split).view op p) ∧ ∀ p, (t p).state = .ready := by
  have hn : op.lanes ≤ maxLanes := (h .p0).lanes_le
  -- after `begin`
  refine (meets_round (fun p frames t => t.party=p ∧ (p=op.helper → frames
          = (some ⟨header env op p op.evaluatorA .correlation,
              correlationA op m.maskA m.maskB split⟩,
            some ⟨header env op p op.evaluatorB .correlation,
              correlationB op split⟩)
        ∧ t.state = .complete ⟨op,p,m.outputB,m.outputA⟩)
    ∧ (p≠op.helper → frames = (some ⟨header env op p (op.peer p) .maskedInput,
              openings op x m p⟩,none)
        ∧ t.state = .opening op (openings op x m p) (m.output op p)))
    fun p => ?_).bind fun frames t ht => ?_
  · have hp := (h p).party
    by_cases hh : p=op.helper
    · simp only [Correlated.material,if_pos hh]
      refine (yields_begin_helper env (h p) hh _ _ _ _ _ _ hm).mono fun f t ⟨hf,ht⟩ => ?_
      subst ht
      exact ⟨hp,fun _ => ⟨hf,rfl⟩,fun hn => absurd hh hn⟩
    · simp only [Correlated.material,if_neg hh]
      refine (yields_begin_evaluator env (h p) _ _ _ _).mono fun f t ⟨hf,ht⟩ => ?_
      subst ht
      exact ⟨hp,fun hn => absurd hn hh,fun _ => ⟨hf,rfl⟩⟩
  -- after `open`
  refine (meets_round (fun p message t => t.party=p
    ∧ (p=op.helper → t.state = .complete ⟨op,p,m.outputB,m.outputA⟩)
    ∧ (p≠op.helper → message = some ⟨header env op p (op.peer p) .reshare,
              resharings op x m split p⟩
        ∧ t.state = .resharing op (resharings op x m split p)
          (m.output op p))) fun p => ?_).bind fun shares u hu => ?_
  · obtain ⟨hp,hh,he⟩ := ht p
    by_cases hc : p=op.helper
    · rw [if_pos hc]
      exact meets_pure.mpr ⟨hp,fun _ => (hh hc).2,fun hn => absurd hc hn⟩
    · rw [if_neg hc]
      obtain ⟨hpeer,hback⟩ := peer_eq hc
      have hpf := ((ht (op.peer p)).2.2 hpeer).1
      have hhf := ((ht op.helper).2.1 rfl).1
      refine Meets.expect (congrArg Prod.fst hpf) ?_
      refine Meets.expect (b := ⟨header env op op.helper p .correlation,
        corrections op m split p⟩) ?_ ?_
      · rw [hhf]
        unfold corrections
        split
        · next ha => rw [ha]
        · next ha => rw [eq_evaluatorB hc ha]
      · have hopen := yields_openRound env (he hc).2 hn (length_openings x m (op.peer p))
          (length_corrections m split p)
        rw [hp] at hopen
        rw [hback]
        refine hopen.bind fun message u ⟨hm,hu⟩ => meets_pure.mpr ?_
        subst hm hu
        exact ⟨rfl,fun hn => absurd hn hc,fun _ => ⟨rfl,rfl⟩⟩
  -- after `reshare`
  refine (meets_round (fun p _ t => t.state = .complete ((truncatedComponents x m split).view
    op p)) fun p => ?_).bind fun _ v hv => ?_
  · obtain ⟨hp,hh,he⟩ := hu p
    by_cases hc : p=op.helper
    · rw [if_pos hc]
      refine meets_pure.mpr ?_
      rw [hh hc,hc,view_helper]
    · rw [if_neg hc]
      obtain ⟨hpeer,hback⟩ := peer_eq hc
      refine Meets.expect ((hu (op.peer p)).2.2 hpeer).1 ?_
      have hre := yields_reshare env (he hc).2 (length_resharings x m split (op.peer p))
      rw [hp] at hre
      rw [hback]
      refine hre.mono fun _ w hw => ?_
      rw [hw]
      by_cases ha : p=op.evaluatorA
      · simp only [ha,if_true,view_evaluatorA,Correlated.output]
      · obtain rfl := eq_evaluatorB hc ha
        simp only [if_neg ha,view_evaluatorB,Correlated.output]
  · refine (meets_round (fun p out t => out=(truncatedComponents x m split).view op p ∧
      t.state = .ready) fun p => ?_).mono fun out w hw => ⟨fun p => (hw p).1,fun p => (hw p).2⟩
    refine (yields_takeOutput (hv p)).mono fun out w ⟨ho,hw⟩ => ⟨ho,?_⟩
    rw [hw]

/-- What a truncation may return: the floor or one more, and the quotient where it is exact. -/
def IsTruncation (shift : ℕ) (X Y : ℤ) : Prop :=
  (Y=X/2^shift ∨ Y=X/2^shift+1) ∧ (2^shift ∣ X → Y=X/2^shift)

lemma isTruncation_truncated {shift : ℕ} (hs : shift≤62) {x : Word} (r : Word) (hl : -2^62 ≤
    x.toInt) (hu : x.toInt<2^62) : IsTruncation shift x.toInt (truncated shift x r).toInt := by
  have hpos : (0:ℤ)<2^shift := by positivity
  have hcas := ediv_sub_ediv x.toInt (r.toNat%2^63:ℕ) hpos
  have hlow : -2^62 ≤ x.toInt/2^shift := Int.le_ediv_of_mul_le hpos (by linarith)
  have hhigh : x.toInt/2^shift<2^62 := Int.ediv_lt_of_lt_mul hpos (by linarith)
  have hint : (truncated shift x r).toInt
      = (x.toInt+(r.toNat%2^63:ℕ))/2^shift-(r.toNat%2^63:ℕ)/2^shift := by
    rw [truncated_eq hs hl hu,BitVec.toInt_ofInt]
    apply Int.bmod_eq_of_le <;> omega
  rw [hint]
  exact ⟨hcas,fun hd => ediv_sub_ediv_of_dvd _ hpos hd⟩

/-- Truncation: from any sharing, any correlated randomness, any pivot and any order of the parties
in each round, the parties end with a sharing of the floor or of one more, and of the exact
quotient where there is one. -/
theorem truncate_shares (hs : op.shift≤62) (hm : splitWords entropy op.lanes m.split = .ok split)
    (turns : ℕ → Turn Party) {s : Party → PartyRuntime} (h : ∀ p, Admits op p (s p)) :
    Yields (truncate env op (x.view op) (m.material op) entropy turns) s fun out t =>
    (∀ p, (t p).state = .ready) ∧ ∃ y :
    Components op.lanes, (∀ p, out p = y.view op p) ∧ ∀ i<op.lanes, -2^62 ≤ (x.total i).toInt →
    (x.total i).toInt < 2^62 → IsTruncation op.shift (x.total i).toInt (y.total i).toInt := by
  refine (yields_truncate hm turns h).mono fun out t ⟨ho,ht⟩ => ⟨ht,_,ho,fun i hi hl hu => ?_⟩
  rw [total_truncatedComponents x m split hi]
  exact isTruncation_truncated hs _ hl hu

end

def sampleOperation : Operation := ⟨⟨1,2,3⟩,4,.p1,1,18,none,none⟩

/-- The value `-2^40-3` in one lane. -/
def sampleInput : Components 1 :=
  ⟨fun | .p0 => [5] | .p1 => [-7] | .p2 => [-2^40-1],by intro p; cases p <;> rfl⟩

def sampleMaterial : Correlated 1 := ⟨[11],[-12],[13],[14],some [15,16],rfl,rfl⟩

def sampleTurn : Turn Party := ⟨[.p2,.p0,.p1],by decide,by intro p; cases p <;> decide⟩

theorem truncate_shares_at :
    ∃ out t j, truncate Platform.sample sampleOperation (sampleInput.view sampleOperation)
    (sampleMaterial.material sampleOperation) (fun _ => .error .phase) (fun _ => sampleTurn)
    (fun _ => none) (fun p => ⟨⟨1,2,3⟩,p,.default,4,.ready⟩) 0 = (.ok out,t,j) ∧ ∃ y : Components 1,
    (∀ p, out p = y.view sampleOperation p) ∧ IsTruncation 18 (-2^40-3) (y.total 0).toInt := by
  obtain ⟨out,t,j,hrun,-,y,hy,hv⟩ := (@truncate_shares Platform.sample (fun _ => .error .phase)
    sampleOperation sampleInput sampleMaterial [15,16] (by decide) rfl (fun _ => sampleTurn)
    (fun p => ⟨⟨1,2,3⟩,p,.default,4,.ready⟩)
    fun p => ⟨rfl,rfl,rfl,rfl,show 4 < 4096 by decide,_,rfl⟩).exists_ok
  exact ⟨out,t,j,hrun,y,hy,hv 0 (by decide) (by decide) (by decide)⟩

end Pllm.Puma
