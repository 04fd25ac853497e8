import Pllm.Lib.PrefixTree
import Pllm.Puma.MultiplyCorrect
import Pllm.Puma.Work

/-! The shared-prefix token lookup: every row holds the bits of a token, and level by level the
selectors of the longer prefixes come from those of the shorter ones by one product each. -/
namespace Pllm.Decoder.Trie
open Pllm.Lib Pllm.Lib.Exec Pllm.Puma Pllm.Puma.Multiply
open Multiply.PartyRuntime (checkBounds onSource planProduct planProductInner planRingProduct
  requireReady setPhase status yields_beginProduct yields_rotate yields_takeOutput)

def maxRows : ℕ := 8
def lanes : ℕ := 128
def maxDepth : ℕ := 18
def maxVocabulary : ℕ := 2^maxDepth

def divCeil (a b : ℕ) : ℕ := (a+b-1)/b

structure Level where
  parents : ℕ
  branches : ℕ
  deriving Inhabited

/-- The counts of the nodes of a level and of those with two children. -/
def level (vocabulary depth d : ℕ) : Level :=
  let parents := divCeil vocabulary (2^(depth-d))
  ⟨parents,divCeil vocabulary (2^(depth-d-1))-parents⟩

def depthOf (vocabulary : ℕ) : ℕ := bitLength (vocabulary-1)

/-- The lanes of the operations that cover `n` elements. -/
def tiles (n : ℕ) : List ℕ :=
  (List.range ((n+lanes-1)/lanes)).map fun k => min lanes (n-k*lanes)

structure Plan where
  rows : ℕ
  vocabulary : ℕ
  depth : ℕ
  levels : List Level

namespace Plan

/-- The conversions of the tokens to shared bits. -/
def workForBits (rows depth : ℕ) : Except Error WorkBudget := do
  let work ← WorkBudget.conversionBounded rows depth
  (tiles (rows*depth)).foldlM (fun work n => do
    (← work.checkedAdd .localStep).checkedAdd (← WorkBudget.fromBoolean n 1)) work

def workForGeometry (rows vocabulary : ℕ) : Except Error WorkBudget := do
  if rows=0 ∨ rows>maxRows ∨ ¬(2≤vocabulary ∧ vocabulary ≤ maxVocabulary) then
    .error .bounds
  else do
    let depth := depthOf vocabulary
    let work ← workForBits rows depth
    (List.range' 1 (depth-1)).foldlM (fun work d =>
      let parents := divCeil vocabulary (2^(depth-d))
      let branches := divCeil vocabulary (2^(depth-d-1))-parents
      (tiles (rows*branches)).foldlM (fun work n => do
        work.checkedAdd (← WorkBudget.product n false)) work) work

/-- The geometry of a plan. -/
def new (rows vocabulary : ℕ) : Except Error Plan := do
  if rows=0 ∨ rows>maxRows ∨ ¬(2≤vocabulary ∧ vocabulary ≤ maxVocabulary) then
    .error .bounds
  else do
    let depth := depthOf vocabulary
    let _ ← workForGeometry rows vocabulary
    return ⟨rows,vocabulary,depth,(List.range depth).map (level vocabulary depth)⟩

def levelAt (self : Plan) (d : ℕ) : Level := self.levels.getD d default

end Plan

/-- A two-dimensional buffer that starts out as zeros. -/
abbrev Grid (α : Type) := ℕ → ℕ → α

def Grid.set {α : Type} (grid : Grid α) (row column : ℕ) (value : α) : Grid α :=
  Function.update grid row (Function.update (grid row) column value)

/-- The two components a party holds of a value. -/
abbrev Secret := Word × Word

inductive Step
  | readyProduct
  | product (n : ℕ)
  | readyStream
  | stream
  | done
  | retired
  deriving DecidableEq

structure TrieLookup where
  plan : Plan
  runtime : Multiply.PartyRuntime
  bits : ℕ → Secret
  parents : Grid Secret
  children : Option (Grid Secret)
  output : Grid Secret
  step : Step
  level : ℕ
  offset : ℕ
  streamOffset : ℕ
  pid : ℕ

/-- The selectors of the next level before any product: the child of a last parent without a sibling
takes its selector. -/
def copyUnary {α : Type} [Zero α] (rows : ℕ) (level : Level) (parents : Grid α) : Grid α :=
  if level.parents>level.branches then
    let last := level.parents-1
    (List.range rows).foldl (fun children row =>
      children.set row (2*last) (parents row last)) fun _ _ => 0
  else fun _ _ => 0

/-- The selectors that a batch of `n` products settles. -/
def writeChildren {α : Type} [Sub α] (branches offset n : ℕ) (parents : Grid α) (output : ℕ → α)
    (children : Grid α) : Grid α :=
  (List.range n).foldl (fun children i =>
    let index := offset+i
    let row := index/branches
    let p := index%branches
    (children.set row (2*p) (parents row p-output i)).set row (2*p+1) (output i)) children

/-- The two selectors below the root: the complement of the first bit, and the bit. -/
def root (party : Party) (bit : Secret) : ℕ → Secret
  | 0 => ((if party = .p0 then 1 else 0)-bit.1,(if party.next = .p0 then 1 else 0)-bit.2)
  | 1 => bit
  | _ => 0

/-- Add the table rows of one tile of the vocabulary under their selectors. -/
def accumulateRows (table : Grid Word) (selectors : Grid Secret) (start count : ℕ)
    (output : Grid Secret) : Grid Secret := fun row column =>
  (List.range count).foldl (fun sum i =>
    (sum.1+(selectors row (start+i)).1*table (start+i) column,
      sum.2+(selectors row (start+i)).2*table (start+i) column)) (output row column)

namespace TrieLookup

def cancel (self : TrieLookup) : TrieLookup :=
  { self with
    runtime := self.runtime.cancel, bits := fun _ => 0, parents := fun _ _ => 0, children := none
    output := fun _ _ => 0, step := .retired }

def live (env : Platform) : Exec Error TrieLookup Unit := do
  let s ← .read
  .require (s.step ≠ .retired ∧ s.pid=env.processId) .retired

def onRuntime {α : Type} (x : Exec Error Multiply.PartyRuntime α) : Exec Error TrieLookup α :=
  .zoom (fun s => s.runtime) (fun t s => { s with runtime := t }) x

/-- The last slice of bits has arrived: the recursion starts below the root. -/
def plant (self : TrieLookup) : TrieLookup :=
  { self with
    parents := fun row => root self.runtime.party (self.bits (row*self.plan.depth+self.plan.depth-1))
    level := 1
    step := if 1=self.plan.depth then .readyStream else .readyProduct }

lemma least_le_zero : -2^63 ≤ (0:ℤ) := by decide

/-- The bounds of selectors and bits. -/
def bit : Interval := ⟨0,1,by decide,least_le_zero,by decide⟩

/-- The rows of the next level are allocated at its first product. -/
def openChildren : Exec Error TrieLookup Unit := do
  let s ← .read
  match s.children with
  | some _ => return ()
  | none => do
    .request
    .modify fun s => { s with
      children := some (copyUnary s.plan.rows (s.plan.levelAt s.level) s.parents) }

def startProduct (env : Platform) : Exec Error TrieLookup Message := do
  openChildren
  let s ← .read
  let branches := (s.plan.levelAt s.level).branches
  let n := min lanes (s.plan.rows*branches-s.offset)
  .request
  .request
  let left := fun i => s.parents ((s.offset+i)/branches) ((s.offset+i)%branches)
  let right := fun i => s.bits ((s.offset+i)/branches*s.plan.depth+s.plan.depth-1-s.level)
  let plan ← onRuntime (Multiply.PartyRuntime.planRingProduct env (List.replicate n ⟨bit,bit⟩))
  let party := s.runtime.party
  let a ← .ofExcept (plan.shareOperand env .left party (tabulate n fun i => (left i).1)
    (tabulate n fun i => (left i).2) .default)
  let b ← .ofExcept (plan.shareOperand env .right party (tabulate n fun i => (right i).1)
    (tabulate n fun i => (right i).2) .default)
  let message ← onRuntime (Multiply.PartyRuntime.beginProduct env a b)
  .modify fun s => { s with step := .product n }
  .request
  return message

/-- The frame for the predecessor, where the step sends one. -/
def startStep (env : Platform) : Exec Error TrieLookup (Option Message) := .checked cancel do
  live env
  match (← .read).step with
  | .readyProduct => do
    let message ← startProduct env
    return some message
  | .readyStream => do
    .modify fun s => { s with step := .stream }
    .request
    return none
  | _ => .fail .phase

def receive (env : Platform) (message : Message) : Exec Error TrieLookup Unit :=
  .checked cancel do
    live env
    .require (message.words.length≤2*lanes) .bounds
    let s ← .read
    match s.step with
    | .product _ => do
      .require (s.runtime.status = .awaitingRotate) .phase
      let _ ← onRuntime (Multiply.PartyRuntime.rotate env message)
      .request
    | _ => .fail .phase

def finishStep (env : Platform) (table : Grid Word) : Exec Error TrieLookup Unit :=
  .checked cancel do
    live env
    let s ← .read
    match s.step with
    | .product n => do
      let output ← onRuntime (Multiply.PartyRuntime.takeOutput env)
      let branches := (s.plan.levelAt s.level).branches
      let children ← .expect s.children .retired
      let children := writeChildren branches s.offset n s.parents
        (fun i => (lane output.first i,lane output.second i)) children
      if s.offset+n=s.plan.rows*branches then
        .modify fun s => { s with
          parents := children, children := none, offset := 0, level := s.level+1
          step := if s.level+1=s.plan.depth then .readyStream else .readyProduct }
      else
        .modify fun s => { s with
          children := some children, offset := s.offset+n
          step := if s.level=s.plan.depth then .readyStream else .readyProduct }
    | .stream => do
      let n := min lanes (s.plan.vocabulary-s.streamOffset)
      .request
      let output := accumulateRows table s.parents s.streamOffset n s.output
      .modify fun s => { s with
        output := output, streamOffset := s.streamOffset+n
        step := if s.streamOffset+n=s.plan.vocabulary then .done else .readyStream }
    | _ => .fail .phase

end TrieLookup

/-- One step of the three parties: each starts it, hears from its successor if a frame is due, and
finishes at the barrier. -/
def advance (env : Platform) (table : Grid Word) (turns : ℕ → Turn Party) :
    Exec Error (Party → TrieLookup) Unit := do
  let messages ← round (turns 0) fun _ => TrieLookup.startStep env
  let _ ← round (turns 1) fun p => match messages p.next with
    | some message => TrieLookup.receive env message
    | none => pure ()
  let _ ← round (turns 2) fun _ => TrieLookup.finishStep env table

/-- So many steps. -/
def advances (env : Platform) (table : Grid Word) (turns : ℕ → ℕ → Turn Party) :
    ℕ → Exec Error (Party → TrieLookup) Unit
  | 0 => pure ()
  | n+1 => do
    advance env table (turns 0)
    advances env table (fun k => turns (k+1)) n

open TrieLookup List

lemma tiles_cons {n : ℕ} (hn : 0<n) : tiles n = min lanes n::tiles (n-min lanes n) := by
  have hcnt : (n+lanes-1)/lanes=(n-min lanes n+lanes-1)/lanes+1 := by
    simp only [lanes]
    omega
  rw [tiles,hcnt,range_succ_eq_map,map_cons,map_map]
  congr 1
  apply map_congr_left
  intro k hk
  simp only [lanes,Function.comp_apply] at hk ⊢
  omega

lemma mem_tiles {n m : ℕ} (hm : m ∈ tiles n) : 0 < m ∧ m≤lanes := by
  obtain ⟨k,hk,rfl⟩ := mem_map.mp hm
  rw [mem_range] at hk
  simp only [lanes] at hk ⊢
  omega

lemma length_tiles_le (n : ℕ) : (tiles n).length ≤ n := by
  simp only [tiles,lanes,length_map,length_range]
  omega

section
variable {α : Type}

lemma Grid.set_apply (grid : Grid α) (row column r c : ℕ) (value : α) :
    grid.set row column value r c = if r=row ∧ c=column then value else grid r c := by
  unfold Grid.set
  by_cases hr : r=row
  · subst hr
    by_cases hc : c=column
    · subst hc
      simp
    · simp [hc]
  · simp [hr]

variable {branches : ℕ}

/-- A batch that starts at element `offset` settles the children of its elements. -/
lemma writeChildren_apply [Sub α] (hb : 0<branches) (offset n : ℕ)
    (parents : Grid α) (output : ℕ → α) (children : Grid α) (r c : ℕ) :
    writeChildren branches offset n parents output children r c =
      if c/2<branches ∧ offset ≤ r*branches+c/2 ∧ r*branches+c/2<offset+n then
        if c%2=1 then output (r*branches+c/2-offset)
        else parents r (c/2)-output (r*branches+c/2-offset) else children r c := by
  induction n with
  | zero =>
    rw [if_neg (by omega)]
    rfl
  | succ n ih =>
    have hstep : writeChildren branches offset (n+1) parents output children =
        ((writeChildren branches offset n parents output children).set ((offset+n)/branches)
          (2*((offset+n)%branches)) (parents ((offset+n)/branches) ((offset+n)%branches)
            -output n)).set ((offset+n)/branches) (2*((offset+n)%branches)+1) (output n) := by
      rw [writeChildren,range_succ,foldl_append]
      rfl
    have hmod := Nat.mod_lt (offset+n) hb
    have hdiv := Nat.div_add_mod' (offset+n) branches
    rw [hstep,Grid.set_apply,Grid.set_apply,ih]
    -- the element the last step wrote has this row and this parent
    have hpla : c/2<branches ∧ r*branches+c/2=offset+n ↔
        r=(offset+n)/branches ∧ c/2=(offset+n)%branches := by
      constructor
      · rintro ⟨hlt,heq⟩
        rw [←heq,Nat.add_comm,Nat.add_mul_div_right _ _ hb,Nat.add_mul_mod_self_right,
          Nat.div_eq_of_lt hlt,Nat.mod_eq_of_lt hlt]
        omega
      · rintro ⟨rfl,hc⟩
        exact ⟨by omega,by omega⟩
    by_cases hlast : c/2<branches ∧ r*branches+c/2=offset+n
    · obtain ⟨hr,hc⟩ := hpla.mp hlast
      rw [if_pos (by omega : c/2<branches ∧ offset ≤ r*branches+c/2
        ∧ r*branches+c/2<offset+(n+1)),show r*branches+c/2-offset=n by omega]
      by_cases hodd : c%2=1
      · rw [if_pos ⟨hr,by omega⟩,if_pos hodd]
      · rw [if_neg (by omega),if_pos ⟨hr,by omega⟩,if_neg hodd,hr,hc]
    · rw [if_neg (by omega),if_neg (by omega)]
      exact if_congr (by omega) rfl rfl

lemma copyUnary_apply [Zero α] (rows : ℕ) (level : Level) (parents : Grid α) (r c : ℕ) :
    copyUnary rows level parents r c =
      if r < rows ∧ level.branches<level.parents ∧ c=2*(level.parents-1) then
        parents r (level.parents-1)
      else 0 := by
  unfold copyUnary
  by_cases huna : level.parents>level.branches
  · rw [if_pos huna]
    have hloop : ∀ n, (range n).foldl (fun (children : Grid α) row =>
        children.set row (2*(level.parents-1)) (parents row (level.parents-1))) (fun _ _ => 0) r c
          = if r<n ∧ c=2*(level.parents-1) then parents r (level.parents-1) else 0 := by
      intro n
      induction n with
      | zero => simp
      | succ n ih =>
        rw [range_succ,foldl_append,foldl_cons,foldl_nil,Grid.set_apply,ih]
        by_cases hrn : r=n
        · subst hrn
          by_cases hc : c=2*(level.parents-1) <;> simp [hc]
        · rw [if_neg (by omega)]
          exact if_congr (by omega) rfl rfl
    refine (hloop rows).trans (if_congr ?_ rfl rfl)
    simp [huna]
  · rw [if_neg huna,if_neg (by omega)]

end

/-- What a party holds of shared buffers. -/
def held (f : Party → Grid Word) (p : Party) : Grid Secret := fun r c => (f p r c,f p.next r c)

/-- The values that are shared. -/
def total (f : Party → Grid Word) : Grid Word := fun r c => ∑ p, f p r c

section
variable (hb : 0<branches) (offset n : ℕ) (parents children : Party → Grid Word)
  (output : Party → ℕ → Word)
include hb offset n parents children output

lemma writeChildren_held (p : Party) : writeChildren branches offset n
    (held parents p) (fun i => (output p i,output p.next i)) (held children p) = held
    (fun q => writeChildren branches offset n (parents q) (output q) (children q)) p := by
  funext r c
  simp only [held,writeChildren_apply hb]
  split
  · split <;> rfl
  · rfl

lemma total_writeChildren : total
    (fun q => writeChildren branches offset n (parents q) (output q) (children q)) = writeChildren
    branches offset n (total parents) (fun i => ∑ q, output q i) (total children) := by
  funext r c
  simp only [total,writeChildren_apply hb]
  split
  · split
    · rfl
    · rw [Finset.sum_sub_distrib]
  · rfl

end

lemma copyUnary_held (rows : ℕ) (level : Level) (parents : Party → Grid Word) (p : Party) :
    copyUnary rows level (held parents p) = held (fun q => copyUnary rows level (parents q)) p := by
  funext r c
  simp only [held,copyUnary_apply]
  split <;> rfl

lemma total_copyUnary (rows : ℕ) (level : Level) (parents : Party → Grid Word) :
    total (fun q => copyUnary rows level (parents q)) = copyUnary rows level (total parents) := by
  funext r c
  simp only [total,copyUnary_apply]
  split
  · rfl
  · exact Finset.sum_const_zero

section
variable {env : Platform} {j : Joint} {p : Party} {limits : PrssLimits} {room n : ℕ}

/-- What the limits have to leave for a raw product of `n` lanes. -/
structure Affords (j : Joint) (limits : PrssLimits) (room n : ℕ) : Prop where
  lanes : ∃ bytes, limits.core.admittedBytes n = .ok bytes
  room : 2*blockCount n 8 ≤ room
  sequence : j.sequence<limits.core.maxOperations
  pairEnd : j.pairBlocks+blockCount n 8 < 2^64

/-- The bounds of the lanes of a product. -/
def bounds (n : ℕ) : List InputBounds := List.replicate n ⟨TrieLookup.bit,TrieLookup.bit⟩

/-- The plan of a product of `n` lanes. -/
abbrev planned (env : Platform) (j : Joint) (n : ℕ) : Multiply.Plan :=
  plannedProduct env j .elementwise (bounds n) false none

@[simp] lemma lanes_planned : (planned env j n).lanes = n := length_replicate

lemma checkBounds_bounds (n : ℕ) : checkBounds .elementwise (bounds n) false = .ok () := by
  have hone : InputBounds.rawProduct ⟨bit,bit⟩ 1 = .ok () := by decide
  induction n with
  | zero => rfl
  | succ n ih =>
    simp only [checkBounds,bounds,replicate_succ] at ih ⊢
    simpa [hone,Except.bind] using ih

lemma yields_planRingProduct {s : Multiply.PartyRuntime}
    (h : j.At env p limits room s.source) (hph : s.phase = .ready) (ha : Affords j limits room n) :
    Yields (planRingProduct env (bounds n)) s fun plan t => plan = planned env j n ∧
    Admitted j limits plan ∧ t = { s with phase := .planned (planned env j n) } := by
  obtain ⟨bytes,hbyt⟩ := ha.lanes
  obtain ⟨hpos,hle,hbyte,-⟩ := Limits.admittedBytes_eq_ok hbyt
  have hln := hle.trans limits.core.maxLanes_le
  have hlen : (bounds n).length=n := length_replicate
  have hq : blocks n = .ok (blockCount n 8) := typedBlocks_eq hpos (by omega) (by decide)
  have hop : Operation.new j.context j.sequence .p0 n fractionBits limits.core
      = .ok ⟨j.context,j.sequence,.p0,n,fractionBits,none,none⟩ := by
    have hseq := ha.sequence
    rw [Operation.new,hbyt]
    rw [if_neg (by simp only [fractionBits]; omega)]
    rfl
  intro deny k
  simp [planRingProduct,planProduct,
    planProductInner,Multiply.PartyRuntime.live,
    onSource,h.wp_live,requireReady,hph,
    h.sourceLimits,h.context,h.setup,h.sequence,h.pairBlocks,setPhase,
    hlen,hbyt,checkBounds_bounds,hq,h.work ha.room,ha.sequence,checkedAdd_eq ha.pairEnd,hop,
    -append_assoc,-append_nil]
  intro _
  have hadm : Admitted j limits (planned env j n) := by
    refine ⟨rfl,rfl,ha.sequence,?_,rfl,?_⟩
    · rw [lanes_planned]
      exact ha.lanes
    · rw [lanes_planned]
      exact ha.pairEnd
  refine (fun hplan => ⟨hplan,by rw [hplan]; exact hadm,hplan⟩) ?_
  simp [plannedProduct,productElements,hlen,workingBytes,fixedReserveBytes,hbyte]

lemma shareOperand_eq (hpos : 0<n) (hle : n≤lanes) (operand : Operand) (x : Party → ℕ → Word) :
    (planned env j n).shareOperand env operand p (tabulate n (x p)) (tabulate n (x p.next)) .default
      = .ok ((Components.ofFn n x).view ((planned env j n).operandBinding env operand) p) := by
  have hln : ((planned env j n).operandBinding env operand).lanes=n := lanes_planned
  have hadm : Limits.default.admittedBytes n = .ok (n*128+4096) := by
    simp only [lanes] at hle
    have hnot : ¬(n=0 ∨ n>Limits.default.maxLanes
        ∨ n*wordsPerLaneReserve*8+fixedReserveBytes>Limits.default.maxBytes) := by
      change ¬(n=0 ∨ n>1024 ∨ n*16*8+4096>256*2^10)
      omega
    exact (if_neg hnot).trans (congrArg Except.ok (by
      simp only [wordsPerLaneReserve,fixedReserveBytes]
      omega))
  have hcopy : ∀ q, copyWords (tabulate n (x q)) n = .ok (tabulate n (x q)) := by
    intro q
    simp only [lanes] at hle
    rw [copyWords,if_neg (by simp),if_neg (by simp only [maxLanes]; omega)]
  rw [Multiply.Plan.shareOperand,ReplicatedShare.fromLocal,hln,hadm]
  simp [hcopy,Components.view,pure,Except.pure]

/-- The setup after a raw product of `n` lanes. -/
def spent (j : Joint) (n : ℕ) : Joint :=
  { j with pairBlocks := j.pairBlocks+blockCount n 8, sequence := j.sequence+1 }

lemma afterBegin_planned : afterBegin j (planned env j n) = spent j n := by
  rw [afterBegin,lanes_planned]
  rfl

/-- The public state of the recursion at a level. -/
structure Place where
  plan : Plan
  level : ℕ
  offset : ℕ

/-- A party between two products of the recursion. -/
structure Growing (env : Platform) (j : Joint) (limits : PrssLimits) (room : ℕ) (place : Place)
    (bits : Party → ℕ → Word) (parents children : Party → Grid Word) (p : Party)
    (s : TrieLookup) : Prop where
  plan : s.plan=place.plan
  source : j.At env p limits room s.runtime.source
  phase : s.runtime.phase = .ready
  bits : s.bits = fun i => (bits p i,bits p.next i)
  parents : s.parents = held parents p
  children : s.children.getD (copyUnary place.plan.rows (place.plan.levelAt place.level) s.parents)
    = held children p
  step : s.step = .readyProduct
  level : s.level=place.level
  offset : s.offset=place.offset
  pid : s.pid=env.processId
  output : s.output = fun _ _ => 0
  streamOffset : s.streamOffset=0

namespace Place

def branches (place : Place) : ℕ := (place.plan.levelAt place.level).branches

/-- The lanes of the next product. -/
def batch (place : Place) : ℕ := min lanes (place.plan.rows*place.branches-place.offset)

/-- The components of the prefixes that the next product splits. -/
def left (place : Place) (parents : Party → Grid Word) (p : Party) (i : ℕ) : Word :=
  parents p ((place.offset+i)/place.branches) ((place.offset+i)%place.branches)

/-- The components of the bits it splits them on. -/
def right (place : Place) (bits : Party → ℕ → Word) (p : Party) (i : ℕ) : Word :=
  bits p ((place.offset+i)/place.branches*place.plan.depth+place.plan.depth-1-place.level)

/-- The components of the next product. -/
def products (place : Place) (env : Platform) (j : Joint) (bits : Party → ℕ → Word)
    (parents : Party → Grid Word) : Components (planned env j place.batch).lanes :=
  productComponents (Components.ofFn place.batch (place.left parents))
    (Components.ofFn place.batch (place.right bits)) env j.keys (planned env j place.batch)

end Place

variable {place : Place} {bits : Party → ℕ → Word} {parents children : Party → Grid Word}
  {s : TrieLookup}

section
variable (h : Growing env j limits room place bits parents children p s)
include h

lemma yields_openChildren :
    Yields openChildren s fun _ t => t = { s with children := some (held children p) } := by
  have hc := h.children
  rw [←h.plan,←h.level] at hc
  intro deny k
  cases hs : s.children with
  | some grid =>
    rw [hs,Option.getD_some] at hc
    rw [openChildren,wp_bind,wp_read]
    simp only [hs,wp_pure]
    rw [←hc,←hs]
  | none =>
    rw [hs,Option.getD_none] at hc
    rw [openChildren,wp_bind]
    simp [hs,hc]

/-- A party sends its component of the next product to its predecessor. -/
lemma yields_startStep (hpos : 0<place.batch) (ha : Affords j limits room place.batch) :
    Yields (startStep env) s fun out t =>
      out = some ⟨⟨(planned env j place.batch).digest env,p,p.next.next,.multiply⟩,
          (place.products env j bits parents).part p⟩
        ∧ ∃ runtime, t = { s with
            runtime := runtime, children := some (held children p), step := .product place.batch }
          ∧ runtime.phase = .rotating (planned env j place.batch)
            ((place.products env j bits parents).part p)
          ∧ (spent j place.batch).At env p limits (room-2*blockCount place.batch 8)
            runtime.source := by
  have hpty : s.runtime.party=p := h.source.party
  have hle : place.batch≤lanes := min_le_left _ _
  have hbat : min lanes (s.plan.rows*(s.plan.levelAt s.level).branches-s.offset)
      = place.batch := by
    rw [h.plan,h.level,h.offset]
    rfl
  have hleft : ∀ i, s.parents ((s.offset+i)/(s.plan.levelAt s.level).branches)
      ((s.offset+i)%(s.plan.levelAt s.level).branches)
        = (place.left parents p i,place.left parents p.next i) := by
    intro i
    rw [h.parents,h.plan,h.level,h.offset]
    rfl
  have hrt : ∀ i, s.bits ((s.offset+i)/(s.plan.levelAt s.level).branches*s.plan.depth
      +s.plan.depth-1-s.level) = (place.right bits p i,place.right bits p.next i) := by
    intro i
    rw [h.bits,h.plan,h.level,h.offset]
    rfl
  intro deny k
  simp only [startStep,live,startProduct,wp_checked,wp_bind,
    wp_read,wp_require,h.step,h.pid,wp_modify,wp_request,wp_pure,onRuntime,wp_zoom]
  refine ⟨fun _ => (yields_openChildren h deny k).mono ?_ fun _ _ _ he => he,by simp⟩
  rintro - t i rfl
  simp only [hbat,hleft,hrt]
  refine ⟨fun _ => ⟨fun _ => (yields_planRingProduct h.source h.phase ha deny _).mono ?_
    fun _ _ _ he => he,fun e he => ⟨_,e,he⟩⟩,fun e he => ⟨_,e,he⟩⟩
  rintro plan t i ⟨rfl,hadm,rfl⟩
  have hlef := @shareOperand_eq env j p _ hpos hle .left (place.left parents)
  have hrig := @shareOperand_eq env j p _ hpos hle .right (place.right bits)
  rw [hpty,hlef,hrig]
  have hbeg := yields_beginProduct
    (s := { s.runtime with phase := .planned (planned env j place.batch) }) h.source rfl hadm
    (by rw [lanes_planned]; exact ha.room) (Components.ofFn place.batch (place.left parents))
    (Components.ofFn place.batch (place.right bits))
  refine (hbeg deny i).mono ?_ fun _ _ _ he => he
  rintro message runtime i ⟨rfl,hph,hat⟩
  rw [afterBegin_planned,lanes_planned] at hat
  exact ⟨fun _ => ⟨rfl,runtime,by rw [h.pid],hph,hat⟩,fun e he => ⟨_,e,he⟩⟩

end

lemma yields_receive {c : Components (planned env j n).lanes} (hn : n≤lanes) {m : ℕ}
    (hstep : s.step = .product m) (hpid : s.pid=env.processId)
    (hat : (spent j n).At env p limits room s.runtime.source)
    (hph : s.runtime.phase = .rotating (planned env j n) (c.part p)) :
    Yields (receive env (productFrame env (planned env j n) c p)) s fun _ t =>
      t = { s with runtime := { s.runtime with
        phase := .rawComplete (c.view (planned env j n).input p) } } := by
  have hlen : (productFrame env (planned env j n) c p).words.length ≤ 2*lanes := by
    have hwds : (productFrame env (planned env j n) c p).words.length=n :=
      (c.length_part p.next).trans lanes_planned
    omega
  have hstat : s.runtime.status = .awaitingRotate := by
    rw [status,hph]
  intro deny k
  simp only [receive,live,wp_checked,wp_bind,wp_read,wp_require,hstep,
    hpid,wp_request,onRuntime,wp_zoom,hlen,hstat]
  simp only [ne_eq,reduceCtorEq,not_false_eq_true,and_self,true_implies,not_true_eq_false,
    false_implies,and_true]
  refine (yields_rotate c hat hph rfl deny k).mono ?_ fun _ _ _ he => he
  rintro - t i rfl
  exact ⟨fun _ => rfl,fun e he => ⟨_,e,he⟩⟩

/-- The grids that the selectors a party holds are components of, once a batch is settled. -/
def Place.settle (place : Place) (parents children : Party → Grid Word) (output : Party → Words)
    (q : Party) : Grid Word :=
  writeChildren place.branches place.offset place.batch (parents q) (lane (output q)) (children q)

/-- The state of a party after a batch. -/
def settled (place : Place) (s : TrieLookup) (grid : Grid Secret) : TrieLookup :=
  if place.offset+place.batch=place.plan.rows*place.branches then
    { s with
      parents := grid, children := none, offset := 0, level := place.level+1
      step := if place.level+1=place.plan.depth then .readyStream else .readyProduct }
  else { s with
      children := some grid, offset := place.offset+place.batch
      step := if place.level=place.plan.depth then .readyStream else .readyProduct }

variable {k : Joint} {left : ℕ} {table : Grid Word}

lemma yields_finishStep {c : Components n} {operation : Operation}
    (h : Growing env j limits room place bits parents children p s) (hb : 0<place.branches)
    {t : TrieLookup} {source : SourceParty} (ht : t = { s with
      runtime := ⟨source,.rawComplete (c.view operation p)⟩, children := some (held children p)
      step := .product place.batch })
    (hat : k.At env p limits left source) :
    Yields (finishStep env table) t fun _ u =>
      u = settled place { s with runtime := ⟨source,.ready⟩, children := some (held children p) }
        (held (place.settle parents children c.part) p) := by
  subst ht
  have hgrid : writeChildren place.branches place.offset place.batch (held parents p)
      (fun i => (lane (c.part p) i,lane (c.part p.next) i)) (held children p)
        = held (place.settle parents children c.part) p :=
    writeChildren_held hb place.offset place.batch parents children (fun q => lane (c.part q)) p
  intro deny i
  simp only [finishStep,live,wp_checked,wp_bind,wp_read,wp_require, h.pid,onRuntime,wp_zoom]
  simp only [ne_eq,reduceCtorEq,not_false_eq_true,and_self,true_implies,not_true_eq_false,
    false_implies,and_true]
  refine (yields_takeOutput hat rfl deny i).mono ?_ fun _ _ _ he => he
  rintro out u i ⟨rfl,rfl⟩
  simp only [h.plan,h.level,h.offset,h.parents,Components.view]
  change wp deny (if place.offset+place.batch=place.plan.rows*place.branches then _ else _) _ _ _ _
  rw [show writeChildren (place.plan.levelAt place.level).branches place.offset place.batch
    (held parents p) (fun i => (lane (c.part p) i,lane (c.part p.next) i)) (held children p)
      = held (place.settle parents children c.part) p from hgrid]
  rw [wp_ite,wp_modify,wp_modify,settled]
  constructor
  · intro hlast
    rw [if_pos hlast]
  · intro hlast
    rw [if_neg hlast]

/-- A party that reads the table. -/
structure Reading (env : Platform) (j : Joint) (limits : PrssLimits) (room : ℕ) (geometry : Plan)
    (selectors output : Party → Grid Word) (offset : ℕ) (p : Party) (s : TrieLookup) : Prop where
  plan : s.plan=geometry
  source : j.At env p limits room s.runtime.source
  phase : s.runtime.phase = .ready
  parents : s.parents = held selectors p
  output : s.output = held output p
  step : s.step = if offset=geometry.vocabulary then .done else .readyStream
  streamOffset : s.streamOffset=offset
  pid : s.pid=env.processId

/-- Where the recursion goes after a batch that does not end its level. -/
def Place.onward (place : Place) : Place := { place with offset := place.offset+place.batch }

/-- And after one that does. -/
def Place.below (place : Place) : Place := ⟨place.plan,place.level+1,0⟩

variable {source : SourceParty} {settledGrid : Party → Grid Word}

section
variable (h : Growing env j limits room place bits parents children p s)
  (hat : k.At env p limits left source)
include h hat

lemma growing_onward (hlev : place.level<place.plan.depth)
    (hmore : place.offset+place.batch ≠ place.plan.rows*place.branches) :
    Growing env k limits left place.onward bits parents settledGrid p
      (settled place { s with runtime := ⟨source,.ready⟩, children := some (held children p) }
        (held settledGrid p)) := by
  rw [settled,if_neg hmore,if_neg hlev.ne]
  exact { h with
    source := hat
    phase := rfl
    children := rfl
    step := rfl
    offset := rfl }

lemma growing_below (hlev : place.level+1≠place.plan.depth)
    (hlast : place.offset+place.batch = place.plan.rows*place.branches) :
    Growing env k limits left place.below bits settledGrid
      (fun q => copyUnary place.plan.rows (place.plan.levelAt (place.level+1)) (settledGrid q)) p
      (settled place { s with runtime := ⟨source,.ready⟩, children := some (held children p) }
        (held settledGrid p)) := by
  rw [settled,if_pos hlast,if_neg hlev]
  exact { h with
    source := hat
    phase := rfl
    parents := rfl
    children := copyUnary_held _ _ settledGrid p
    step := rfl
    level := rfl
    offset := rfl }

lemma reading_of_settled
    (hlev : place.level+1=place.plan.depth) (hvoc : place.plan.vocabulary≠0)
    (hlast : place.offset+place.batch = place.plan.rows*place.branches) :
    Reading env k limits left place.plan settledGrid (fun _ _ _ => 0) 0 p
      (settled place { s with runtime := ⟨source,.ready⟩, children := some (held children p) }
        (held settledGrid p)) := by
  rw [settled,if_pos hlast,if_pos hlev]
  exact {
    plan := h.plan
    source := hat
    phase := rfl
    parents := rfl
    output := h.output
    step := (if_neg (Ne.symm hvoc)).symm
    streamOffset := h.streamOffset
    pid := h.pid }

end

/-- One product of the three parties. -/
lemma yields_advance {s : Party → TrieLookup}
    (h : ∀ p, Growing env j limits room place bits parents children p (s p))
    (hb : 0<place.branches) (hpos : 0<place.batch) (ha : Affords j limits room place.batch)
    (turns : ℕ → Turn Party) :
    Yields (advance env table turns) s fun _ t => ∀ p, ∃ source,
      (spent j place.batch).At env p limits (room-2*blockCount place.batch 8) source
        ∧ t p = settled place
          { s p with runtime := ⟨source,.ready⟩, children := some (held children p) }
          (held (place.settle parents children (place.products env j bits parents).part) p) := by
  refine (meets_round _ fun p => yields_startStep (h p) hpos ha).bind fun messages t ht => ?_
  refine (meets_round (fun p _ u => ∃ source,
      (spent j place.batch).At env p limits (room-2*blockCount place.batch 8) source
        ∧ u = { s p with
          runtime := ⟨source,.rawComplete ((place.products env j bits parents).view
            (planned env j place.batch).input p)⟩
          children := some (held children p), step := .product place.batch }) fun p => ?_).bind
    fun _ u hu => ?_
  · obtain ⟨hmsg,-⟩ := ht p.next
    obtain ⟨-,runtime,hsta,hph,hat⟩ := ht p
    have hfrm : messages p.next=some (productFrame env (planned env j place.batch)
        (place.products env j bits parents) p) := by
      rw [hmsg,productFrame,Party.next_next_next]
    rw [hfrm,hsta]
    have hle : place.batch≤lanes := min_le_left _ _
    refine (yields_receive (s := { s p with
      runtime := runtime, children := some (held children p), step := .product place.batch })
      hle rfl (h p).pid hat hph).mono fun _ u hu => ⟨runtime.source,hat,hu⟩
  · refine (meets_round (fun p _ w => ∃ source,
      (spent j place.batch).At env p limits (room-2*blockCount place.batch 8) source
        ∧ w = settled place
          { s p with runtime := ⟨source,.ready⟩, children := some (held children p) }
          (held (place.settle parents children (place.products env j bits parents).part) p))
      fun p => ?_).bind fun _ w hw => meets_pure.mpr hw
    obtain ⟨source,hat,hsta⟩ := hu p
    exact (yields_finishStep (h p) hb hsta hat).mono fun _ w hw => ⟨source,hat,hw⟩

end

end Pllm.Decoder.Trie
