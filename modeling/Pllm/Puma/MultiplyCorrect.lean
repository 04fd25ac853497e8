import Pllm.Puma.BooleanCorrect
import Pllm.Puma.ProtocolCorrect

/-! Products: the cross terms of a party under its zero share are one component of the product, and
one rotation hands every component to its second holder. -/
namespace Pllm.Puma.Multiply
open Pllm.Lib Pllm.Lib.Exec List Party Components Limits SourceParty ReplicatedShare Boolean Conversion

/-- A party of the setup between two operations. -/
structure Rests (env : Platform) (j : Joint) (p : Party) (limits : PrssLimits) (s : PartyRuntime) :
    Prop where
  source : j.At env p limits 0 s.source
  phase : s.phase = .ready

section
variable {m n : ℕ} (x : Components m) (y : Components n)

/-- A lane of the plain product. -/
def productLane (product : Product) (i : ℕ) : Word :=
  match product with
  | .elementwise => x.total i*y.total i
  | .matrix shape => ((List.range shape.inner).map fun k =>
      x.total (i/shape.columns*shape.inner+k)*y.total (k*shape.columns+i%shape.columns)).sum

lemma sum_crossTerm (a b : Operation) (u v : ℕ) :
    ∑ p, crossTerm (x.view a p) (y.view b p) u v = x.total u*y.total v := by
  have hcro := cycle.sum_cross (AddMonoidHom.mul (R := Word))
    (fun p => lane (x.part p) u) fun p => lane (y.part p) v
  exact hcro

lemma sum_foldl_add {κ : Type} (term : Party → κ → Word) (ks : List κ) (value : Party → Word) :
    ∑ p, ks.foldl (fun v k => v+term p k) (value p)
      = ∑ p, value p+(ks.map fun k => ∑ p, term p k).sum := by
  induction ks generalizing value with
  | nil => simp
  | cons k ks ih =>
    have hnext := ih fun p => value p+term p k
    simp only [foldl_cons,map_cons,sum_cons]
    rw [hnext,Finset.sum_add_distrib,add_assoc]

lemma sum_accumulate (product : Product) (a b : Operation) {zero : Party → Word}
    (hzero : ∑ p, zero p = 0) (i : ℕ) :
    ∑ p, accumulate product (x.view a p) (y.view b p) (zero p) i = productLane x y product i := by
  cases product with
  | elementwise =>
    simp only [accumulate,productLane]
    rw [Finset.sum_add_distrib,hzero,zero_add,sum_crossTerm]
  | matrix shape =>
    simp only [accumulate,productLane]
    rw [sum_foldl_add,hzero,zero_add]
    simp only [sum_crossTerm]

/-- The component each party computes. -/
def productComponents (env : Platform) (keys : Party → Block) (plan : Plan) : Components plan.lanes :=
  .ofFn plan.lanes fun p i => accumulate plan.product (x.view (plan.operandBinding env .left) p)
    (y.view (plan.operandBinding env .right) p) (streamWord env (keys p) plan.zeroStart 8 i
      -streamWord env (keys p.next) plan.zeroStart 8 i) i

lemma total_productComponents (env : Platform) (keys : Party → Block) (plan : Plan) {i : ℕ}
    (hi : i<plan.lanes) :
    (productComponents x y env keys plan).total i = productLane x y plan.product i := by
  rw [productComponents,total_ofFn _ hi]
  apply sum_accumulate
  exact cycle.sum_sub_next fun p => streamWord env (keys p) plan.zeroStart 8 i

end

/-- The count of lanes a product plan asks for. -/
def productElements (product : Product) (bounds : List InputBounds) : ℕ :=
  match product with
  | .elementwise => bounds.length
  | .matrix shape => shape.outputElements

/-- The working set of a plan over `n` lanes that need `base` bytes themselves. -/
def workingBytes (product : Product) (n base : ℕ) : ℕ :=
  match product with
  | .elementwise => base
  | .matrix shape => max base ((2*shape.leftElements+2*shape.rightElements+3*n)*8)

/-- The plan that every party of the setup makes. -/
def plannedProduct (env : Platform) (j : Joint) (product : Product) (bounds : List InputBounds)
    (rescale : Bool) (certified : Option (Interval × BitVec 256)) : Plan :=
  let n := productElements product bounds
  let q := blockCount n 8
  let hash := PartyRuntime.productHash product bounds rescale certified
    ++ ascii "pairwise-product-zero" ++ u64Bytes j.pairBlocks
    ++ (if rescale then [] else leBytes 32 j.setup)
  ⟨⟨j.context,j.sequence,.p0,n,fractionBits,
      if rescale then some ⟨j.setup,j.publicBlocks,j.pairBlocks+q,j.pairBlocks+q+q⟩ else none,
      some (env.sha256 hash)⟩,j.pairBlocks,product,workingBytes product n (n*128),rescale⟩

/-- A product plan that has passed its checks. -/
structure Admitted (j : Joint) (limits : PrssLimits) (plan : Plan) : Prop where
  context : plan.input.context=j.context
  sequence : plan.input.sequence=j.sequence
  bound : j.sequence<limits.core.maxOperations
  lanes : ∃ bytes, limits.core.admittedBytes plan.lanes = .ok bytes
  zeroStart : plan.zeroStart=j.pairBlocks
  pairEnd : j.pairBlocks+blockCount plan.lanes 8 < 2^64

variable {plan : Plan}

lemma Admitted.lanes_pos {j : Joint} {limits : PrssLimits}
    (h : Admitted j limits plan) : 0<plan.lanes ∧ plan.lanes ≤ maxLanes := by
  obtain ⟨bytes,hb⟩ := h.lanes
  obtain ⟨hpos,hle,-⟩ := admittedBytes_eq_ok hb
  exact ⟨hpos,hle.trans limits.core.maxLanes_le⟩

/-- The frame of the successor of `p`. -/
def productFrame (env : Platform) (plan : Plan) (c : Components plan.lanes) (p : Party) : Message :=
  ⟨⟨plan.digest env,p.next,p,.multiply⟩,c.part p.next⟩

/-- What the setup has in common after a product has begun: a raw product also takes its ordinal. -/
def afterBegin (j : Joint) (plan : Plan) : Joint :=
  { j with
    pairBlocks := j.pairBlocks+blockCount plan.lanes 8
    sequence := if plan.rescale then j.sequence else j.sequence+1 }

namespace PartyRuntime
variable {env : Platform} {j : Joint} {p : Party} {limits : PrssLimits} {room : ℕ}
  {s : PartyRuntime}

section
variable (h : Rests env j p limits s) (product : Product) (bounds : List InputBounds) (rescale : Bool) (certified : Option (Interval × BitVec 256))
include h rescale certified

/-- The checks of the planner make the plan of the setup. -/
lemma planned_of_checks {q v work maskStart : ℕ} {operation : Operation} (hq : blocks
    (productElements product bounds) = .ok q) (hw : s.source.work v = .ok work) (hv : 2*q≤v) (hseq :
    j.sequence<limits.core.maxOperations) (hmask : checkedAdd j.pairBlocks q = .ok maskStart)
    (hop : Operation.new j.context j.sequence .p0 (productElements product bounds) fractionBits
      limits.core = .ok operation) :
    let hash := productHash product bounds rescale certified++ascii "pairwise-product-zero"
      ++ u64Bytes j.pairBlocks++(if rescale then [] else leBytes 32 j.setup)
    let input := { operation with
      source := if rescale then some ⟨j.setup,j.publicBlocks,maskStart,maskStart+q⟩ else none
      consumer := some (env.sha256 hash) }
    let plan : Plan := ⟨input,j.pairBlocks,product,workingBytes product (productElements product
      bounds) (productElements product bounds*128),rescale⟩
    plan = plannedProduct env j product bounds rescale certified ∧ Admitted j limits plan
      ∧ j.At env p limits (2*blockCount plan.lanes 8) s.source := by
  obtain ⟨rfl,-,-,hbyt⟩ := Operation.new_eq_ok hop
  obtain ⟨-,-,-,rfl⟩ := typedBlocks_eq_ok hq
  obtain ⟨rfl,hlt⟩ := checkedAdd_eq_ok hmask
  refine ⟨?_,⟨rfl,rfl,hseq,hbyt,rfl,hlt⟩,?_⟩
  · rfl
  · have hroom := h.source.reserve hw
    exact { hroom with
      room_le := (Nat.add_le_add_left hv _).trans hroom.room_le
      room_lt := (Nat.add_le_add_left hv _).trans_lt hroom.room_lt }

lemma ensures_planProduct : Ensures (planProduct env product bounds rescale certified) s fun plan
    t => plan = plannedProduct env j product bounds rescale certified ∧ Admitted j limits plan ∧
    t.phase = .planned plan ∧ j.At env p limits (2*blockCount plan.lanes 8) t.source := by
  intro deny k
  suffices hall : ∀ good : Plan → PartyRuntime → Prop, (∀ plan t,
      (plan = plannedProduct env j product bounds rescale certified ∧ Admitted j limits plan
        ∧ t.phase = .planned plan ∧ j.At env p limits (2*blockCount plan.lanes 8) t.source) →
      good plan t) → wp deny (planProduct env product bounds rescale certified) s k
        (fun plan t _ => good plan t) (fun _ _ _ => True) from hall _ fun _ _ hgood => hgood
  intro good hgood
  have hs := h.source
  have hfin : ∀ {bytes q v work maskStart : ℕ} {operation : Operation},
      limits.core.admittedBytes (productElements product bounds) = .ok bytes →
      blocks (productElements product bounds) = .ok q → s.source.work v = .ok work → 2*q≤v →
      j.sequence<limits.core.maxOperations → checkedAdd j.pairBlocks q = .ok maskStart →
      Operation.new j.context j.sequence .p0 (productElements product bounds) fractionBits
        limits.core = .ok operation →
      let hash := productHash product bounds rescale certified++ascii "pairwise-product-zero"
        ++ u64Bytes j.pairBlocks++(if rescale then [] else leBytes 32 j.setup)
      let plan : Plan := ⟨{ operation with
          source := if rescale then some ⟨j.setup,j.publicBlocks,maskStart,maskStart+q⟩ else none
          consumer := some (env.sha256 hash) },j.pairBlocks,product,
        workingBytes product (productElements product bounds) (bytes-fixedReserveBytes),rescale⟩
      good plan { s with phase := .planned plan } := by
    intro bytes q v work maskStart operation hb hq hw hv hseq hmask hop
    obtain ⟨heq,hadm,hroom⟩ := planned_of_checks h product bounds rescale certified hq hw hv
      hseq hmask hop
    obtain ⟨-,-,rfl,-⟩ := admittedBytes_eq_ok hb
    rw [show productElements product bounds*128+4096-fixedReserveBytes =
      productElements product bounds*128 from Nat.add_sub_cancel _ _]
    exact hgood _ _ ⟨heq,hadm,rfl,hroom⟩
  -- of every kind of product the checks that pass are those of `planned_of_checks`
  cases product <;> cases rescale <;> cases certified
  all_goals
    simp [planProduct,planProductInner,live,onSource,hs.wp_live,requireReady,h.phase,
      hs.sourceLimits,hs.context,hs.setup,hs.sequence,hs.pairBlocks,hs.publicBlocks,setPhase,
      -append_assoc,-append_nil]
    intros
    exact hfin (by assumption) (by assumption) (by assumption) (by omega) (by assumption)
      (by assumption) (by assumption)

end

/-- One party computes its component and sends it to its predecessor. -/
lemma yields_beginProduct (h : j.At env p limits room s.source)
    (hph : s.phase = .planned plan) (hplan : Admitted j limits plan)
    (hroom : 2*blockCount plan.lanes 8 ≤ room) {m n : ℕ} (x : Components m) (y : Components n) :
    Yields (beginProduct env (x.view (plan.operandBinding env .left) p)
        (y.view (plan.operandBinding env .right) p)) s fun message t =>
      message = ⟨⟨plan.digest env,p,p.next.next,.multiply⟩,
          (productComponents x y env j.keys plan).part p⟩
        ∧ t.phase = .rotating plan ((productComponents x y env j.keys plan).part p)
        ∧ (afterBegin j plan).At env p limits (room-2*blockCount plan.lanes 8) t.source := by
  obtain ⟨privateSeed,hsee⟩ := h.seeds
  obtain ⟨hpos,hle⟩ := hplan.lanes_pos
  obtain ⟨bytes,hbyt⟩ := hplan.lanes
  have hn : plan.lanes≤2*maxLanes := by omega
  have hblo : blocks plan.input.lanes = .ok (blockCount plan.lanes 8) :=
    typedBlocks_eq hpos hn (by decide)
  have hpart : tabulate plan.input.lanes (fun i => accumulate plan.product
      (x.view (plan.operandBinding env .left) p) (y.view (plan.operandBinding env .right) p)
      (lane (stream env (j.keys p) plan.zeroStart plan.input.lanes 8) i
        -lane (stream env (j.keys p.next) plan.zeroStart plan.input.lanes 8) i) i) =
      (productComponents x y env j.keys plan).part p := by
    apply tabulate_congr
    intro i hi
    simp only [stream,lane_tabulate _ hi]
  have hend : plan.zeroStart+blockCount plan.lanes 8 < 2^64 := hplan.zeroStart ▸ hplan.pairEnd
  have hexp : ∀ {deny : ℕ → Option Error} {k : ℕ} {bad : Error → SourceParty → ℕ → Prop}
      {t : SourceParty} {post : Words → SourceParty → ℕ → Prop} (slot : Slot) (key : Block),
      wp deny (expand env slot key plan.zeroStart plan.input.lanes) t k post bad ↔
        (deny k = none → post (stream env key plan.zeroStart plan.input.lanes 8)
          { t with fills := t.fills++[⟨slot,plan.zeroStart,blockCount plan.input.lanes 8⟩] } (k+1))
          ∧ ∀ e, deny k = some e → bad e t (k+1) :=
    fun slot key => wp_expand slot key hpos hn hend
  have hpty : ∀ phase, (PartyRuntime.mk s.source phase).party=p := fun _ => h.party
  have hview : ∀ {l : ℕ} (c : Components l) (operation : Operation),
      (c.view operation p).operation = operation ∧ (c.view operation p).party = p :=
    fun _ _ => ⟨rfl,rfl⟩
  have hwork : s.source.work (2*blockCount plan.lanes 8)
      = .ok (s.source.cursors.aesWork+2*blockCount plan.lanes 8) := h.work hroom
  have hn' : plan.input.lanes≤2*maxLanes := hn
  have hspe := h.spend (plan.zeroStart+blockCount plan.lanes 8) hroom (s.source.fills
    ++ [⟨.own,plan.zeroStart,blockCount plan.input.lanes 8⟩,
      ⟨.next,plan.zeroStart,blockCount plan.input.lanes 8⟩])
  intro deny k
  cases hrsc : plan.rescale with
  | false =>
    have haft := hspe.advance
    simp only [hsee] at haft
    simp [beginProduct,beginInner,live,onSource,h.wp_live,hph,hpty,hn',
      chargeTo,charge,hblo,hrsc,consumeOrdinal,hview,
      h.wp_consumeOrdinal hplan.context hplan.sequence hplan.bound hbyt,checkedAdd_eq hend,
      hwork,setCursors,hsee,hexp,copy,zeros,hpart,setPhase,Plan.digest]
    rw [afterBegin,hrsc,←hplan.zeroStart]
    exact fun _ _ _ _ _ _ _ => haft
  | true =>
    simp only [hsee] at hspe
    simp [beginProduct,beginInner,live,onSource,h.wp_live,hph,hpty,hn',
      chargeTo,charge,hblo,hrsc,hview,checkedAdd_eq hend,
      hwork,setCursors,hsee,hexp,copy,zeros,hpart,setPhase,Plan.digest]
    rw [afterBegin,hrsc,←hplan.zeroStart]
    exact fun _ _ _ _ _ _ _ => hspe

/-- What `rotate` runs on the share of a product that is rescaled. -/
def truncateProduct (env : Platform) (plan : Plan) (share : ReplicatedShare) :
    Exec Error PartyRuntime Frames := do
  let operation ← onSource (SourceParty.plan env plan.lanes fractionBits)
  beginTruncation env { operation with consumer := some (plan.digest env) } share.first share.second

section
variable {plan : Plan} (c : Components plan.lanes)

lemma validate_productFrame (p : Party) :
    (productFrame env plan c p).validate env plan.input p.next p .multiply = .ok () :=
  Message.validate_mk env plan.input p.next p .multiply _
    (by simpa [Message.expected,Plan.lanes] using c.length_part p.next)

section
variable (h : j.At env p limits room s.source) (hph : s.phase = .rotating plan (c.part p))
include h hph

lemma yields_rotate (hraw : plan.rescale=false) : Yields (rotate env (productFrame env plan c p))
    s fun _ t => t = { s with phase := .rawComplete (c.view plan.input p) } := by
  have hpty : ∀ phase, (PartyRuntime.mk s.source phase).party=p := fun _ => h.party
  have hv : Message.validate env (productFrame env plan c p) _ _ _ _=_ := validate_productFrame c p
  have hw : (productFrame env plan c p).words=c.part p.next := rfl
  intro deny k
  simp [rotate,live,onSource,h.wp_live,takePhase,setPhase,hph,hpty,hv,hw,charge,hraw, view]

lemma rotate_eq (hrsc : plan.rescale=true) {deny : ℕ → Option Error}
    {k : ℕ} (hk : deny k = none) : rotate env (productFrame env plan c p) deny s k = checked cancel
    (truncateProduct env plan (c.view plan.input p)) deny { s with phase := .retired } (k+1) := by
  have hpty : ∀ phase, (PartyRuntime.mk s.source phase).party=p := fun _ => h.party
  have hv : Message.validate env (productFrame env plan c p) _ _ _ _=_ := validate_productFrame c p
  have hw : (productFrame env plan c p).words=c.part p.next := rfl
  apply eq_of_wp
  intro post bad hwp
  simp [truncateProduct,onSource] at hwp
  simp [rotate,live,onSource,h.wp_live,takePhase,setPhase,hph,hpty,hv,hw,charge,hrsc,hk]
  exact hwp

end

end

lemma yields_takeOutput {output : ReplicatedShare} (h : j.At env p limits room s.source)
    (hph : s.phase = .rawComplete output) :
    Yields (takeOutput env) s fun out t => out=output ∧ t = { s with phase := .ready } := by
  intro deny k
  simp [takeOutput,live,onSource,h.wp_live,hph,setPhase]

end PartyRuntime

/-- A gate plan that has passed its checks. -/
structure AdmittedGate (j : Joint) (limits : PrssLimits) (plan : Boolean.Plan) : Prop where
  sound : plan.Sound
  context : plan.operation.context=j.context
  sequence : plan.operation.sequence=j.sequence
  bound : j.sequence<limits.core.maxOperations
  lanes : ∃ bytes, limits.core.admittedBytes plan.lanes = .ok bytes
  pairStart : plan.pairStart=j.pairBlocks
  pairEnd : j.pairBlocks+blockCount plan.lanes plan.bytes < 2^64

/-- What the setup has in common after a gate. -/
def afterGate (j : Joint) (plan : Boolean.Plan) : Joint :=
  { j with
    pairBlocks := j.pairBlocks+blockCount plan.lanes plan.bytes
    sequence := j.sequence+1 }

/-- The components a gate computes. -/
def gateLanes (env : Platform) (j : Joint) (plan : Boolean.Plan) (l r : Lanes) : Lanes :=
  Boolean.gateLane plan (Boolean.keyLanes env j plan.bytes) l r

/-- The gate plan that every party of the setup makes. -/
def plannedGate (env : Platform) (j : Joint) (lanes leftBits rightBits : ℕ) : Boolean.Plan :=
  let bytes := Conversion.backing (max leftBits rightBits)
  let consumer := env.sha256 (ascii Boolean.profile++ascii prssProfile++leBytes 32 j.setup
    ++ ascii "typed-pairwise-boolean-product" ++ u64Bytes j.pairBlocks
    ++ u8Bytes leftBits++u8Bytes rightBits++u8Bytes bytes)
  ⟨⟨j.context,j.sequence,.p0,lanes,1,none,some consumer⟩,leftBits,rightBits,bytes,j.pairBlocks,
    lanes*128+4096,false⟩

/-- The plan of a gate, compact or not. -/
def plannedAnd (env : Platform) (j : Joint) (compact : Bool) (lanes leftBits rightBits : ℕ) :
    Boolean.Plan :=
  if compact then (plannedGate env j lanes leftBits rightBits).toCompact env
  else plannedGate env j lanes leftBits rightBits

lemma plannedAnd_fields (env : Platform) (j : Joint) (compact : Bool)
    (lanes leftBits rightBits : ℕ) :
    let plan := plannedAnd env j compact lanes leftBits rightBits
    plan.lanes = lanes ∧ plan.compact=compact ∧ plan.leftBits=leftBits ∧ plan.rightBits=rightBits ∧
      plan.bytes = backing (max leftBits rightBits) := by
  cases compact <;> exact ⟨rfl,rfl,rfl,rfl,rfl⟩

/-- The two planners of a gate. -/
def planGate (env : Platform) (compact : Bool) (lanes leftBits rightBits : ℕ) :
    Exec Error PartyRuntime Boolean.Plan :=
  if compact then PartyRuntime.planAndCompact env lanes leftBits rightBits
  else PartyRuntime.planAnd env lanes leftBits rightBits

lemma wordBytes_eq_ok {bits bytes : ℕ} (h : wordBytes bits = .ok bytes) :
    bits≤64 ∧ bytes = backing bits := by
  unfold wordBytes at h
  unfold backing
  split_ifs at h ⊢ with h8 h16 h32 h64
  · exact ⟨by omega,(ok_inj h).symm⟩
  · exact ⟨by omega,(ok_inj h).symm⟩
  · exact ⟨by omega,(ok_inj h).symm⟩
  · exact ⟨h64,(ok_inj h).symm⟩

namespace PartyRuntime
variable {env : Platform} {j : Joint} {p : Party} {limits : PrssLimits} {room : ℕ}
  {s : PartyRuntime}

lemma ensures_planAnd (h : Rests env j p limits s) (lanes leftBits rightBits : ℕ) :
    Ensures (planAnd env lanes leftBits rightBits) s fun plan t => plan =
    plannedGate env j lanes leftBits rightBits ∧ AdmittedGate j limits plan ∧ t.phase = .boolean
    (.planned plan) ∧ j.At env p limits (2*blockCount plan.lanes plan.bytes) t.source := by
  have hs := h.source
  intro deny k
  simp [planAnd,planAndInner,live,onSource,hs.wp_live,requireReady,h.phase,hs.sourceLimits,
    hs.context,hs.setup,hs.sequence,hs.pairBlocks,setPhase,-append_assoc]
  intro _ _ _ _ bytes hbyt admitted hadm _ q hq pairEnd hpair work hwork operation hop
  obtain ⟨hbits,rfl⟩ := wordBytes_eq_ok hbyt
  obtain ⟨hpos,hle,hbac,rfl⟩ := typedBlocks_eq_ok hq
  obtain ⟨-,hlt⟩ := checkedAdd_eq_ok hpair
  obtain ⟨rfl,hseq,-,hln⟩ := Operation.new_eq_ok hop
  obtain ⟨-,-,rfl,-⟩ := admittedBytes_eq_ok hadm
  exact ⟨rfl,⟨⟨hpos,hle,hbac,hbits⟩,rfl,rfl,hseq,hln,rfl,hlt⟩,hs.reserve hwork⟩

/-- A compact plan is a plan under another binding. -/
lemma ensures_planGate (h : Rests env j p limits s) (compact : Bool) (lanes leftBits rightBits : ℕ)
    : Ensures (planGate env compact lanes leftBits rightBits) s fun plan t => plan =
    plannedAnd env j compact lanes leftBits rightBits ∧ AdmittedGate j limits plan ∧ t.phase =
    .boolean (.planned plan) ∧ j.At env p limits (2*blockCount plan.lanes plan.bytes) t.source := by
  have hplan := ensures_planAnd h lanes leftBits rightBits
  cases compact with
  | false => exact hplan
  | true =>
    refine hplan.bind fun plan t ⟨heq,hadm,_,hroom⟩ => ?_
    intro deny k
    simp [setPhase]
    refine ⟨congrArg _ heq,?_,hroom⟩
    obtain ⟨hsou,hc,hq,hb,hl,hp,he⟩ := hadm
    exact ⟨⟨hsou.lanes_pos,hsou.lanes_le,hsou.backing,hsou.bits_le⟩,hc,hq,hb,hl,hp,he⟩

variable {plan : Boolean.Plan}

variable (h : j.At env p limits room s.source)
include h

/-- One party computes its component of the conjunction and sends it to its predecessor. -/
lemma yields_beginAnd
    (hph : s.phase = .boolean (.planned plan)) (hplan : AdmittedGate j limits plan)
    (hroom : 2*blockCount plan.lanes plan.bytes ≤ room) (l r : Lanes) :
    Yields (beginAnd env (plan.operandShare env .left l p) (plan.operandShare env .right r p)) s
      fun message t => let product := tabulate plan.lanes (gateLanes env j plan l r p)
        message = ⟨⟨plan.digest env,p,p.next.next,.booleanAnd⟩,product⟩
          ∧ t.phase = .boolean (.rotating ⟨plan,product⟩)
          ∧ (afterGate j plan).At env p limits (room-2*blockCount plan.lanes plan.bytes)
            t.source := by
  obtain ⟨bytes,hbyt⟩ := hplan.lanes
  have hisu := yields_issue h.advance hplan.sound hplan.pairStart hplan.pairEnd hroom l r
  intro deny k
  simp [beginAnd,beginAndInner,live,onSource,h.wp_live,hph,setPhase,consumeOrdinal,
    validateOperands_eq h hplan.pairStart,
    h.wp_consumeOrdinal hplan.context hplan.sequence hplan.bound hbyt]
  refine (hisu deny k).mono ?_ fun _ _ _ hden => hden
  rintro out t i ⟨rfl,haft⟩
  exact ⟨rfl,rfl,haft⟩

/-- The component of the successor completes the share. -/
lemma yields_receiveAnd {f : Lanes}
    (hph : s.phase = .boolean (.rotating ⟨plan,tabulate plan.lanes (f p)⟩)) (hs : plan.Sound)
    (hf : ∀ i, Fits plan.outputWidth (f p.next i)) :
    Yields (receiveAnd env ⟨⟨plan.digest env,p.next,p,.booleanAnd⟩,tabulate plan.lanes (f p.next)⟩) s
      fun _ t => t = { s with phase := .boolean (.complete
        ⟨(Components.ofFn plan.lanes f).view plan.operation p,plan.outputBits⟩) } := by
  intro deny k
  simp [receiveAnd,live,onSource,h.wp_live,takePhase,setPhase,hph]
  refine (yields_receive h hs hf deny k).mono ?_ fun _ _ _ hden => hden
  rintro out t i ⟨rfl,rfl⟩
  exact ⟨rfl,rfl⟩

lemma yields_takeBooleanOutput {output : Share} (hph : s.phase = .boolean (.complete output)) :
    Yields (takeBooleanOutput env) s fun out t => out=output ∧ t = { s with phase := .ready } := by
  intro deny k
  simp [takeBooleanOutput,live,onSource,h.wp_live,takePhase,hph,setPhase]

end PartyRuntime

/-- The second half of a raw product: one rotation, and the parties take their shares. -/
def finishProduct (env : Platform) (messages : Party → Message) (turns : ℕ → Turn Party) :
    Exec Error (Party → PartyRuntime) (Party → ReplicatedShare) := do
  let _ ← round (turns 0) fun p => PartyRuntime.rotate env (messages p.next)
  round (turns 1) fun _ => PartyRuntime.takeOutput env

/-- The parties evaluate a planned gate. -/
def conjoin (env : Platform) (left right : Party → Boolean.Share) (turns : ℕ → Turn Party) :
    Exec Error (Party → PartyRuntime) (Party → Boolean.Share) := do
  let messages ← round (turns 0) fun p => PartyRuntime.beginAnd env (left p) (right p)
  let _ ← round (turns 1) fun p => PartyRuntime.receiveAnd env (messages p.next)
  round (turns 2) fun _ => PartyRuntime.takeBooleanOutput env

instance : Inhabited Boolean.Gate := ⟨⟨default,default⟩⟩

/-- One gate of the three sources, on its own or inside a circuit. -/
def exchangeGate (env : Platform) (plan : Boolean.Plan) (left right : Party → Boolean.Share)
    (turns : ℕ → Turn Party) : Exec Error (Party → SourceParty) (Party → Boolean.Share) := do
  let issued ← round (turns 0) fun p => Boolean.issue env plan (left p) (right p)
  round (turns 1) fun p => (issued p).1.receive env (issued p.next).2

/-- The parties hold a sharing of the conjunction of two sharings on the nominal width. -/
def SharesConjunction (plan : Boolean.Plan) (x y : Components plan.lanes)
    (out : Party → Boolean.Share) : Prop :=
  ∃ c : Components plan.lanes, (∀ p, out p = ⟨c.view plan.operation p,plan.outputBits⟩)
    ∧ ∀ i<plan.lanes, ∀ b<plan.outputBits,
      (c.xorTotal i).getLsbD b = ((x.xorTotal i).getLsbD b && (y.xorTotal i).getLsbD b)

/-- From any sharing of the operands the components the parties compute and rotate share the
product; one that is rescaled enters its truncation as that sharing. -/
def MultipliesUnder (env : Platform) (j : Joint) (limits : PrssLimits) (turns : ℕ → Turn Party)
    (plan : Plan) (s : Party → PartyRuntime) : Prop :=
  ∀ (x : Components (plan.operandBinding env .left).lanes)
    (y : Components (plan.operandBinding env .right).lanes),
    Yields (round (turns 0) fun p => PartyRuntime.beginProduct env
        (x.view (plan.operandBinding env .left) p) (y.view (plan.operandBinding env .right) p)) s
      fun messages t => ∃ c : Components plan.lanes,
        (∀ i<plan.lanes, c.total i = productLane x y plan.product i)
        ∧ (plan.rescale=false →
          Yields (finishProduct env messages fun r => turns (r+1)) t fun out u => ∀ p,
            out p = c.view plan.input p ∧ Rests env (afterBegin j plan) p limits (u p))
        ∧ (plan.rescale=true → ∀ p deny k, deny k = none →
          PartyRuntime.rotate env (messages p.next) deny (t p) k
            = checked PartyRuntime.cancel
              (PartyRuntime.truncateProduct env plan (c.view plan.input p)) deny
              { t p with phase := .retired } (k+1))

/-- From any sharing of operands whose words fit their type the parties end with a sharing of the
conjunction. -/
def ConjoinsUnder (env : Platform) (j : Joint) (limits : PrssLimits) (turns : ℕ → Turn Party)
    (plan : Boolean.Plan) (s : Party → PartyRuntime) : Prop :=
  ∀ x y : Components plan.lanes,
    (∀ p i, Fits (8*Conversion.backing plan.leftBits) (lane (x.part p) i)) →
    Yields (conjoin env (fun p => ⟨x.view (plan.operand env .left).1 p,plan.leftBits⟩)
        (fun p => ⟨y.view (plan.operand env .right).1 p,plan.rightBits⟩) turns) s
      fun out t => SharesConjunction plan x y out
        ∧ ∀ p, Rests env (afterGate j plan) p limits (t p)

/-- The same of a gate that the sources evaluate at their cursor. -/
def ExchangesUnder (env : Platform) (j : Joint) (limits : PrssLimits) (turns : ℕ → Turn Party)
    (plan : Boolean.Plan) (s : Party → SourceParty) : Prop :=
  ∀ x y : Components plan.lanes,
    (plan.compact=false → ∀ p i, Fits (8*plan.bytes) (lane (x.part p) i)) →
    Yields (exchangeGate env plan
        (fun p => ⟨x.view (plan.operand env .left).1 p,plan.leftBits⟩)
        (fun p => ⟨y.view (plan.operand env .right).1 p,plan.rightBits⟩) turns) s
      fun out t => SharesConjunction plan x y out
        ∧ ∀ p, ({ j with pairBlocks := j.pairBlocks+blockCount plan.lanes plan.bytes } : Joint).At
          env p limits 0 (t p)

section
variable {env : Platform} {j : Joint} {limits : PrssLimits} {s : Party → PartyRuntime}

lemma yields_products (h : ∀ p, j.At env p limits (2*blockCount plan.lanes 8) (s
    p).source) (hph : ∀ p, (s p).phase = .planned plan) (hplan : Admitted j limits plan) {m n :
    ℕ} (x : Components m) (y : Components n) (turn : Turn Party) :
    Yields (round turn fun p => PartyRuntime.beginProduct env
        (x.view (plan.operandBinding env .left) p) (y.view (plan.operandBinding env .right) p)) s
      fun messages t => ∀ p, messages p.next = productFrame env plan (productComponents x y env
        j.keys plan) p ∧ (t p).phase = .rotating plan ((productComponents x y env j.keys plan).part
        p) ∧ (afterBegin j plan).At env p limits 0 (t p).source := by
  refine (meets_round _ fun p => PartyRuntime.yields_beginProduct (h p) (hph p) hplan le_rfl x
    y).mono fun messages t ht p => ?_
  obtain ⟨hmsg,-,-⟩ := ht p.next
  obtain ⟨-,hrot,haft⟩ := ht p
  refine ⟨?_,hrot,by simpa using haft⟩
  rw [hmsg,productFrame,next_next_next]

lemma yields_finishProduct (hraw : plan.rescale=false) (c : Components plan.lanes)
    {messages : Party → Message} (h : ∀ p, messages p.next = productFrame env plan c p ∧
    (s p).phase = .rotating plan (c.part p) ∧ j.At env p limits 0 (s p).source)
    (turns : ℕ → Turn Party) : Yields (finishProduct env messages turns) s fun out t => ∀ p,
    out p = c.view plan.input p ∧ Rests env j p limits (t p) := by
  refine (meets_round (fun p _ t => t = { s p with phase := .rawComplete (c.view plan.input p) })
    fun p => ?_).bind fun _ t ht => ?_
  · obtain ⟨hmsg,hph,hat⟩ := h p
    rw [hmsg]
    exact PartyRuntime.yields_rotate c hat hph hraw
  · refine meets_round (fun p out u => out=c.view plan.input p ∧ Rests env j p limits u)
      fun p => ?_
    have hat : j.At env p limits 0 (t p).source := by
      rw [ht p]
      exact (h p).2.2
    refine (PartyRuntime.yields_takeOutput hat (by rw [ht p])).mono ?_
    rintro out u ⟨rfl,rfl⟩
    exact ⟨rfl,hat,rfl⟩

lemma multipliesUnder (h : ∀ p, j.At env p limits (2*blockCount plan.lanes 8) (s
    p).source) (hph : ∀ p, (s p).phase = .planned plan) (hplan : Admitted j limits plan) (turns :
    ℕ → Turn Party) : MultipliesUnder env j limits turns plan s := by
  intro x y
  refine (yields_products h hph hplan x y (turns 0)).mono fun messages t ht => ?_
  refine ⟨productComponents x y env j.keys plan,fun i hi => total_productComponents x y env _ _ hi,
    fun hraw => yields_finishProduct hraw _ ht _,fun hrsc p deny k hk => ?_⟩
  obtain ⟨hmsg,hrot,haft⟩ := ht p
  rw [hmsg]
  exact PartyRuntime.rotate_eq _ haft hrot hrsc hk

variable {plan : Boolean.Plan}

lemma yields_conjoin (h : ∀ p, j.At env p limits (2*blockCount plan.lanes plan.bytes) (s p).source)
    (hph : ∀ p, (s p).phase = .boolean (.planned plan)) (hplan : AdmittedGate j limits plan)
    (l r : Lanes) (hl : ∀ p i, Fits (8*plan.bytes) (l p i)) (turns : ℕ → Turn Party) : Yields
    (conjoin env (plan.operandShare env .left l) (plan.operandShare env .right r) turns) s fun out t
    => ∀ p, out p = ⟨(Components.ofFn plan.lanes (gateLanes env j plan l r)).view plan.operation p,
    plan.outputBits⟩ ∧ Rests env (afterGate j plan) p limits (t p) := by
  refine (meets_round _ fun p => PartyRuntime.yields_beginAnd (h p) (hph p) hplan le_rfl l
    r).bind fun messages t ht => ?_
  have hat : ∀ p, (afterGate j plan).At env p limits 0 (t p).source := fun p => by
    simpa using (ht p).2.2
  have hfits : ∀ p i, Fits plan.outputWidth (gateLanes env j plan l r p i) := fun p i =>
    fits_gateLane hplan.sound r (fun q => fits_streamWord env _ _ _ i)
      (fun _ q => hl q i) p
  refine (meets_round (fun p _ u => u = { t p with phase := .boolean (.complete
      ⟨(Components.ofFn plan.lanes (gateLanes env j plan l r)).view plan.operation p,
        plan.outputBits⟩) }) fun p => ?_).bind fun _ u hu => ?_
  · rw [(ht p.next).1,next_next_next]
    exact PartyRuntime.yields_receiveAnd (hat p) (ht p).2.1 hplan.sound (hfits p.next)
  · refine meets_round (fun p out v => out=_ ∧ Rests env (afterGate j plan) p limits v) fun p => ?_
    have hsrc : (afterGate j plan).At env p limits 0 (u p).source := by
      rw [hu p]
      exact hat p
    refine (PartyRuntime.yields_takeBooleanOutput hsrc (by rw [hu p])).mono ?_
    rintro out v ⟨rfl,rfl⟩
    exact ⟨rfl,hsrc,rfl⟩

lemma backing_mono {a b : ℕ} (h : a≤b) : backing a ≤ backing b := by
  unfold backing
  split_ifs <;> omega

/-- On the nominal width a gate shares the conjunction of its operands, compact or not. -/
lemma xorTotal_gateLanes (hs : plan.Sound) (x y : Components plan.lanes)
    {i b : ℕ} (hi : i<plan.lanes) (hb : b<plan.outputBits) :
    ((Components.ofFn plan.lanes (gateLanes env j plan (fun p i => lane (x.part p) i)
        fun p i => lane (y.part p) i)).xorTotal i).getLsbD b
      = ((x.xorTotal i).getLsbD b && (y.xorTotal i).getLsbD b) := by
  have hwd : plan.compact=true → b<plan.outputWidth := fun hc => by
    rw [Boolean.Plan.outputWidth,if_pos hc,maskWidth]
    split <;> omega
  have hlane : (Components.ofFn plan.lanes (gateLanes env j plan (fun p i => lane (x.part p) i)
      fun p i => lane (y.part p) i)).xorTotal i
      = Lanes.xor (gateLanes env j plan (fun p i => lane (x.part p) i)
        fun p i => lane (y.part p) i) i := by
    simp only [xorTotal,ofFn_part,lane_tabulate _ hi,Lanes.xor]
  rw [hlane,gateLanes,xor_gateLane hs]
  have hkeep : (!plan.compact || decide (b<plan.outputWidth))=true := by
    cases hc : plan.compact with
    | false => rfl
    | true => simpa using hwd hc
  rw [hkeep]
  rfl

lemma operandShare_lane (env : Platform) (operand : Operand) (z : Components plan.lanes) :
    plan.operandShare env operand (fun p i => lane (z.part p) i) = fun p =>
      ⟨z.view (plan.operand env operand).1 p,(plan.operand env operand).2⟩ := by
  funext p
  rw [Boolean.Plan.operandShare,ofFn_lane]

lemma conjoinsUnder (h : ∀ p, j.At env p limits (2*blockCount plan.lanes
    plan.bytes) (s p).source) (hph : ∀ p, (s p).phase = .boolean (.planned plan)) (hplan :
    AdmittedGate j limits plan) (hbyt : backing plan.leftBits ≤ plan.bytes) (turns : ℕ
    → Turn Party) : ConjoinsUnder env j limits turns plan s := by
  intro x y hx
  have hfits : ∀ p i, Fits (8*plan.bytes) (lane (x.part p) i) := fun p i =>
    (hx p i).mono (Nat.mul_le_mul_left 8 hbyt)
  have hrun := yields_conjoin h hph hplan (fun p i => lane (x.part p) i)
    (fun p i => lane (y.part p) i) hfits turns
  rw [operandShare_lane,operandShare_lane] at hrun
  exact hrun.mono fun out t ht => ⟨⟨_,fun p => (ht p).1,
    fun i hi b hb => xorTotal_gateLanes hplan.sound x y hi hb⟩,fun p => (ht p).2⟩

lemma exchangesUnder {s : Party → SourceParty} (hs : plan.Sound) (hst :
    plan.pairStart=j.pairBlocks) (hend : j.pairBlocks+blockCount plan.lanes plan.bytes < 2^64) (h :
    ∀ p, j.At env p limits (2*blockCount plan.lanes plan.bytes) (s p)) (turns : ℕ → Turn Party) :
    ExchangesUnder env j limits turns plan s := by
  intro x y hx
  have hleft := operandShare_lane env (.left) x
  have hrt := operandShare_lane env (.right) y
  simp only [Boolean.Plan.operand] at hleft hrt ⊢
  rw [←hleft,←hrt]
  refine (meets_round _ fun p => yields_issue (h p) hs hst hend le_rfl _ _).bind
    fun issued t ht => ?_
  have hat := fun p => (ht p).2
  simp only [tsub_self] at hat
  refine (meets_round (fun p out u => out=⟨(Components.ofFn plan.lanes (gateLanes env j plan
      (fun p i => lane (x.part p) i) fun p i => lane (y.part p) i)).view plan.operation p,
        plan.outputBits⟩ ∧ u = t p) fun p => ?_).mono fun out u hu => ?_
  · rw [(ht p).1,(ht p.next).1,next_next_next]
    exact yields_receive (hat p) hs fun i => fits_gateLane hs _
      (fun q => fits_streamWord env _ _ _ i) (fun hc q => hx hc q i) p.next
  · refine ⟨⟨_,fun p => (hu p).1,fun i hi b hb => xorTotal_gateLanes hs x y hi hb⟩,fun p => ?_⟩
    rw [(hu p).2]
    exact hat p

/-- Products and conjunctions: whatever shape, bounds and widths the planners admit, from any
replicated sharing of the operands, any keys and any order of the parties in a round, the three
parties make one plan and end with a replicated sharing of the product modulo `2^64`, or of the
conjunction on its nominal width. The same holds of every gate a circuit issues at its cursor. -/
theorem replicated_products (h : ∀ p, Rests env j p limits (s p)) (turns : ℕ → Turn Party) :
    (∀ (product : Product) (bounds : List InputBounds) (rescale : Bool)
        (certified : Option (Interval × BitVec 256)),
      Ensures (round (turns 0) fun _ =>
          PartyRuntime.planProduct env product bounds rescale certified) s
        fun plans t => ∃ plan, (∀ p, plans p = plan) ∧ plan.product=product
          ∧ plan.lanes = productElements product bounds ∧ plan.rescale=rescale
          ∧ MultipliesUnder env j limits (fun r => turns (r+1)) plan t)
    ∧ (∀ (compact : Bool) (lanes leftBits rightBits : ℕ),
      Ensures (round (turns 0) fun _ => planGate env compact lanes leftBits rightBits) s
        fun plans t => ∃ plan, (∀ p, plans p = plan) ∧ plan.lanes=lanes ∧ plan.compact=compact
          ∧ plan.leftBits=leftBits ∧ plan.rightBits=rightBits
          ∧ ConjoinsUnder env j limits (fun r => turns (r+1)) plan t)
    ∧ ∀ (plan : Boolean.Plan) (t : Party → SourceParty), plan.Sound → plan.pairStart=j.pairBlocks →
      j.pairBlocks+blockCount plan.lanes plan.bytes < 2^64 → (∀ p, j.At env p limits (2*blockCount
      plan.lanes plan.bytes) (t p)) → ExchangesUnder env j limits turns plan t := by
  refine ⟨fun product bounds rescale certified => ?_,fun compact lanes leftBits rightBits => ?_,
    fun plan t hs hst hend ht => exchangesUnder hs hst hend ht turns⟩
  · refine (meets_round _ fun p => PartyRuntime.ensures_planProduct (h p) product bounds rescale
      certified).mono fun plans t ht => ?_
    have hplan := (ht .p0).2.1
    rw [(ht .p0).1] at hplan
    have hat := fun p => (ht p).1 ▸ (ht p).2.2.2
    have hph := fun p => (ht p).1 ▸ (ht p).2.2.1
    exact ⟨_,fun p => (ht p).1,rfl,rfl,rfl,multipliesUnder hat hph hplan _⟩
  · refine (meets_round _ fun p => PartyRuntime.ensures_planGate (h p) compact lanes leftBits
      rightBits).mono fun plans t ht => ?_
    have hplan := (ht .p0).2.1
    rw [(ht .p0).1] at hplan
    have hat := fun p => (ht p).1 ▸ (ht p).2.2.2
    have hph := fun p => (ht p).1 ▸ (ht p).2.2.1
    obtain ⟨hln,hcom,hleft,hrt,hbyt⟩ :=
      plannedAnd_fields env j compact lanes leftBits rightBits
    refine ⟨_,fun p => (ht p).1,hln,hcom,hleft,hrt,conjoinsUnder hat hph hplan ?_ _⟩
    rw [hbyt,hleft]
    exact backing_mono (le_max_left leftBits rightBits)

end

def sampleKeys : Party → Block
  | .p0 => 21
  | .p1 => 22
  | .p2 => 23

def sampleJoint : Joint := ⟨⟨1,2,3⟩,5,6,sampleKeys,0,0,0⟩

/-- A party of the sample setup at rest. -/
def sampleParty (p : Party) : PartyRuntime :=
  ⟨⟨⟨⟨1,2,3⟩,p,.default,0,.ready⟩,⟨1,2,3⟩,p,⟨.default,64⟩,5,6,
    some ⟨9,sampleKeys p,some (sampleKeys p.next)⟩,⟨0,0,0,0⟩,none,1,[]⟩,.ready⟩

def sampleShape : MatrixShape := ⟨1,2,1,by decide,by decide,by decide⟩

def sampleBounds : InputBounds :=
  ⟨⟨-3,4,by decide,by decide,by decide⟩,⟨0,9,by decide,by decide,by decide⟩⟩

lemma rests_sampleParty (p : Party) :
    Rests Platform.sample sampleJoint p ⟨.default,64⟩ (sampleParty p) where
  source :=
    ⟨rfl,rfl,rfl,rfl,⟨9,rfl⟩,rfl,rfl,rfl,rfl,rfl,rfl,rfl,rfl,rfl,rfl,show 0+0 ≤ 64 by decide,
      show 0+0<2^64 by decide⟩
  phase := rfl

/-- A matrix product without a rescale and a compact gate, planned by parties that can. -/
theorem replicated_products_at :
    (∃ plans t k, round sampleTurn (fun _ => PartyRuntime.planProduct Platform.sample
          (.matrix sampleShape) [sampleBounds] false none) (fun _ => none) sampleParty 0
        = (.ok plans,t,k)
      ∧ ∃ plan, (∀ p, plans p = plan) ∧ plan.product = .matrix sampleShape
        ∧ plan.lanes=1 ∧ plan.rescale=false
        ∧ MultipliesUnder Platform.sample sampleJoint ⟨.default,64⟩ (fun _ => sampleTurn) plan t)
    ∧ ∃ plans t k, round sampleTurn (fun _ => planGate Platform.sample true 3 5 9) (fun _ => none)
          sampleParty 0 = (.ok plans,t,k)
      ∧ ∃ plan, (∀ p, plans p = plan) ∧ plan.lanes=3 ∧ plan.compact=true
        ∧ plan.leftBits=5 ∧ plan.rightBits=9
        ∧ ConjoinsUnder Platform.sample sampleJoint ⟨.default,64⟩ (fun _ => sampleTurn) plan t := by
  obtain ⟨hprd,hgate,-⟩ := replicated_products rests_sampleParty fun _ => sampleTurn
  constructor
  · exact Meets.of_isOk (hprd (.matrix sampleShape) [sampleBounds] false none) (by decide +kernel)
  · exact Meets.of_isOk (hgate true 3 5 9) (by decide +kernel)

end Pllm.Puma.Multiply
