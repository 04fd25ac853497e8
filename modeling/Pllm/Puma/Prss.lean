import Pllm.Lib.Sharing
import Pllm.Puma.Operation

/-! Pairwise pseudorandom secret sharing: counter streams of the adjacent keys, and the truncation
owner that draws its pivots, masks and splits from them. -/
namespace Pllm.Puma
open Pllm.Lib BitVec

structure PrssLimits where
  core : Limits
  aesBlocks : ℕ

namespace PrssLimits

end PrssLimits

structure Cursors where
  publicBlocks : ℕ
  pairBlocks : ℕ
  privateBlocks : ℕ
  aesWork : ℕ

/-- The adjacent keys of a party; the successor's arrives last. -/
structure LocalSeeds where
  private_ : Block
  own : Block
  next : Option Block

/-- Which key a fill expands. -/
inductive Slot
  | publicSeed
  | privateSeed
  | own
  | next
  deriving DecidableEq

/-- A fill that was done: the counters `start` to `start+blocks-1` of one key. -/
structure Fill where
  slot : Slot
  start : ℕ
  blocks : ℕ

/-- `u64::checked_add`. -/
def checkedAdd (a b : ℕ) : Except Error ℕ := if a+b<2^64 then .ok (a+b) else .error .bounds

/-- The four backing types. -/
def IsBacking (bytes : ℕ) : Prop := bytes=1 ∨ bytes=2 ∨ bytes=4 ∨ bytes=8

instance (bytes : ℕ) : Decidable (IsBacking bytes) := inferInstanceAs (Decidable (_ ∨ _))

/-- The blocks of a fill of `words` words. -/
def blockCount (words wordBytes : ℕ) : ℕ := (words*wordBytes+15)/16

def typedBlocks (words wordBytes : ℕ) : Except Error ℕ :=
  if words=0 ∨ words>2*maxLanes then .error .bounds
  else if ¬IsBacking wordBytes then .error .bounds
  else .ok (blockCount words wordBytes)

def blocks (words : ℕ) : Except Error ℕ := typedBlocks words 8

/-- Between the little-endian and the big-endian reading of sixteen bytes. -/
def byteReverse (x : Block) : Block := ofLeBytes 128 (leBytes 16 x).reverse

/-- The counter of a fill begins at the little-endian cursor and counts big-endian. -/
def counterBlock (start offset : ℕ) : Block :=
  byteReverse (byteReverse (BitVec.ofNat 128 start)+BitVec.ofNat 128 offset)

/-- Word `i` of a fill. -/
def streamWord (env : Platform) (key : Block) (start wordBytes i : ℕ) : Word :=
  let count := 16/wordBytes
  let block := env.aes key (counterBlock start (i/count))
  ofLeBytes 64 ((List.range wordBytes).map fun j => block.byte (wordBytes*(i%count)+j))

def fillTyped (env : Platform) (key : Block) (start words wordBytes : ℕ) : Except Error Words := do
  let q ← typedBlocks words wordBytes
  let _ ← checkedAdd start q
  if (byteReverse (BitVec.ofNat 128 start)).toNat+q>2^128 then .error .bounds
  else return tabulate words (streamWord env key start wordBytes)

/-- The role relabelling; the two raw draws whose successors overflow are rejected. -/
def pivot (raw : Word) : Except Error Party :=
  if raw.toNat>2^64-3 then .error .bounds
  else .ok (if raw.toNat%3=0 then .p0 else if raw.toNat%3=1 then .p1 else .p2)

/-- One party's keys, cursors and truncation runtime. The fills are a ghost record that no step
reads and no cancellation clears. -/
structure SourceParty where
  runtime : PartyRuntime
  context : Context
  party : Party
  limits : PrssLimits
  setup : BitVec 256
  publicSeed : Block
  seeds : Option LocalSeeds
  cursors : Cursors
  pending : Option Operation
  pid : ℕ
  fills : List Fill

/-- A source owner never replaces an issued split. -/
def issuedSplits : Entropy := fun _ => .error .phase

namespace SourceParty

def status (self : SourceParty) : Status := self.runtime.status

def cancel (self : SourceParty) : SourceParty :=
  { self with seeds := none, pending := none, runtime := self.runtime.cancel }

def live (env : Platform) : Exec Error SourceParty Unit := do
  let s ← .read
  .require (s.seeds.isSome ∧ s.pid=env.processId) .retired

def work (self : SourceParty) (additional : ℕ) : Except Error ℕ := do
  let n ← checkedAdd self.cursors.aesWork additional
  if n ≤ self.limits.aesBlocks then return n else .error .bounds

def setCursors (f : Cursors → Cursors) : Exec Error SourceParty Unit :=
  .modify fun s => { s with cursors := f s.cursors }

def setPending (pending : Option Operation) : Exec Error SourceParty Unit :=
  .modify fun s => { s with pending := pending }

def onRuntime {α : Type} (x : Exec Error PartyRuntime α) : Exec Error SourceParty α :=
  .zoom runtime (fun runtime s => { s with runtime := runtime }) x

/-- Expand a key into a buffer of `words` words and record the fill. -/
def fill (env : Platform) (slot : Slot) (key : Block) (start words wordBytes : ℕ) :
    Exec Error SourceParty Words := do
  let out ← .ofExcept (fillTyped env key start words wordBytes)
  .modify fun s => { s with fills := s.fills++[⟨slot,start,blockCount words wordBytes⟩] }
  return out

def expand (env : Platform) (slot : Slot) (key : Block) (start n : ℕ) :
    Exec Error SourceParty Words := do
  let q ← .ofExcept (blocks n)
  let _ ← .ofExcept (checkedAdd start q)
  let _ ← zeros n
  fill env slot key start n 8

def planInner (env : Platform) (lanes shift : ℕ) : Exec Error SourceParty Operation := do
  live env
  let s ← .read
  .require (s.pending=none ∧ s.runtime.status = .ready) .phase
  let op ← .ofExcept
    (Operation.new s.context s.runtime.nextSequence .p0 lanes shift s.limits.core)
  let publicStart := s.cursors.publicBlocks
  let nextPublic ← .ofExcept (checkedAdd publicStart 1)
  let q ← .ofExcept (blocks lanes)
  let outputStart ← .ofExcept (checkedAdd s.cursors.pairBlocks q)
  let _ ← .ofExcept (checkedAdd outputStart q)
  let work ← .ofExcept (s.work 1)
  setCursors fun c => { c with publicBlocks := nextPublic, aesWork := work }
  let word ← fill env .publicSeed s.publicSeed publicStart 1 8
  let role ← .ofExcept (pivot (lane word 0))
  let op := { op with
    pivot := role
    source := some ⟨s.setup,publicStart,s.cursors.pairBlocks,outputStart⟩ }
  setPending (some op)
  return op

/-- Reserve one public pivot draw. -/
def plan (env : Platform) (lanes shift : ℕ) : Exec Error SourceParty Operation :=
  .checked cancel (planInner env lanes shift)

/-- The helper expands both adjacent streams and its private split, an evaluator only the key it
shares with the helper. -/
def materialData (env : Platform) (op : Operation) (source : SourceBinding) (privateStart : ℕ)
    (seeds : LocalSeeds) (next : Block) : Exec Error SourceParty MaterialData := do
  let s ← .read
  let n := op.lanes
  if s.party=op.helper then do
    let maskA ← expand env .next next source.maskStart n
    let maskB ← expand env .own seeds.own source.maskStart n
    let split ← expand env .privateSeed seeds.private_ privateStart (2*n)
    let outputA ← expand env .next next source.outputStart n
    let outputB ← expand env .own seeds.own source.outputStart n
    return .helper maskA maskB (some split) outputA outputB
  else do
    let slot := if s.party=op.evaluatorA then .own else .next
    let key := if s.party=op.evaluatorA then seeds.own else next
    let mask ← expand env slot key source.maskStart n
    let output ← expand env slot key source.outputStart n
    return .evaluator mask output

def beginInner (env : Platform) (input : ReplicatedShare) : Exec Error SourceParty Frames := do
  live env
  let s ← .read
  setPending none
  let op ← .expect s.pending .phase
  .require (input.operation=op) .binding
  .require (input.party=s.party) .role
  let _ ← .ofExcept (s.limits.core.admittedBytes op.lanes)
  let source ← .expect op.source .binding
  .require (source.maskStart=s.cursors.pairBlocks ∧ source.setup=s.setup) .binding
  let n := op.lanes
  let q ← .ofExcept (blocks n)
  let helper := s.party=op.helper
  let privateStart := s.cursors.privateBlocks
  let privateEnd ← .ofExcept (checkedAdd privateStart (if helper then n else 0))
  let pairEnd ← .ofExcept (checkedAdd source.outputStart q)
  let work ← .ofExcept (s.work (if helper then 4*q+n else 2*q))
  setCursors fun c => { c with
    pairBlocks := pairEnd
    privateBlocks := privateEnd
    aesWork := work }
  input.chargeTo
  let seeds ← .expect s.seeds .retired
  let next ← .expect seeds.next .phase
  let data ← materialData env op source privateStart seeds next
  onRuntime (PartyRuntime.beginWithRandomness env op input ⟨op,s.party,data⟩ issuedSplits)

/-- The source's `begin`. -/
def beginRound (env : Platform) (input : ReplicatedShare) : Exec Error SourceParty Frames :=
  .checked cancel (beginInner env input)

def openRound (env : Platform) (peerOpen correlation : Message) :
    Exec Error SourceParty Message :=
  .checked cancel do
    live env
    onRuntime (PartyRuntime.openRound env peerOpen correlation)

def reshare (env : Platform) (peer : Message) : Exec Error SourceParty Unit :=
  .checked cancel do
    live env
    onRuntime (PartyRuntime.reshare env peer)

def takeOutput (env : Platform) : Exec Error SourceParty ReplicatedShare :=
  .checked cancel do
    live env
    onRuntime PartyRuntime.takeOutput

end SourceParty

/-! What the counter streams deliver: fills of the admitted geometry succeed, their words fit their
type, and no two cursors or offsets share a cipher input. -/
open Pllm.Lib.Exec

lemma getLsbD_byteReverse (x : Block) {i : ℕ} (hi : i<128) :
    (byteReverse x).getLsbD i = x.getLsbD (8*(15-i/8)+i%8) := by
  have hk : i/8<16 := by omega
  have hm : i%8<8 := by omega
  rw [byteReverse,getLsbD_ofLeBytes,List.getD_eq_getElem?_getD,
    List.getElem?_reverse (by simpa using hk),length_leBytes]
  have h15 : 16-1-i/8<16 := by omega
  simp [leBytes,hi,h15,hm]

@[simp] lemma byteReverse_byteReverse (x : Block) : byteReverse (byteReverse x)=x := by
  apply eq_of_getLsbD_eq
  intro i hi
  rw [getLsbD_byteReverse _ hi,getLsbD_byteReverse _ (by omega)]
  congr 1
  omega

variable {start : ℕ}

lemma byteReverse_ofNat_mod (h : start<2^64) :
    (byteReverse (BitVec.ofNat 128 start)).toNat%2^64 = 0 := by
  apply Nat.eq_of_testBit_eq
  intro i
  rw [Nat.testBit_mod_two_pow]
  by_cases hi : i<64
  · have hbit := getLsbD_byteReverse (BitVec.ofNat 128 start) (i := i) (by omega)
    rw [getLsbD,getLsbD_ofNat] at hbit
    rw [hbit,Nat.testBit_lt_two_pow (lt_of_lt_of_le h (Nat.pow_le_pow_right (by omega) (by omega)))]
    simp
  · simp [hi]

lemma byteReverse_ofNat_add_le {q : ℕ} (h : start<2^64) (hq : q≤2^64) :
    (byteReverse (BitVec.ofNat 128 start)).toNat+q ≤ 2^128 := by
  have hm := byteReverse_ofNat_mod h
  omega

lemma counterBlock_inj {start' offset offset' : ℕ} (hs : start<2^64) (hs' : start'<2^64) (ho
    : offset<2^64) (ho' : offset'<2^64) (h : counterBlock start offset = counterBlock start'
    offset') : start=start' ∧ offset=offset' := by
  have hsum : byteReverse (BitVec.ofNat 128 start)+BitVec.ofNat 128 offset
      = byteReverse (BitVec.ofNat 128 start')+BitVec.ofNat 128 offset' := by
    have := congrArg byteReverse h
    simpa [counterBlock] using this
  have hm := byteReverse_ofNat_mod hs
  have hm' := byteReverse_ofNat_mod hs'
  have hn := congrArg BitVec.toNat hsum
  rw [toNat_add,toNat_add,toNat_ofNat,toNat_ofNat] at hn
  have hoff : offset=offset' := by omega
  have hrev : byteReverse (BitVec.ofNat 128 start)=byteReverse (BitVec.ofNat 128 start') :=
    eq_of_toNat_eq (by omega)
  have hst := congrArg (fun x => (byteReverse x).toNat) hrev
  simp only [byteReverse_byteReverse,toNat_ofNat] at hst
  exact ⟨by omega,hoff⟩

variable {bytes n : ℕ}

lemma typedBlocks_eq (hn : 0<n) (hm : n≤2*maxLanes) (hb : IsBacking bytes) :
    typedBlocks n bytes = .ok (blockCount n bytes) := by
  rw [typedBlocks,if_neg (by omega),if_neg (not_not_intro hb)]

lemma typedBlocks_eq_ok {q : ℕ} (h : typedBlocks n bytes = .ok q) :
    0<n ∧ n≤2*maxLanes ∧ IsBacking bytes ∧ q = blockCount n bytes := by
  unfold typedBlocks at h
  split at h
  · cases h
  · split at h
    · cases h
    · next h1 h2 => exact ⟨by omega,by omega,not_not.mp h2,(ok_inj h).symm⟩

lemma checkedAdd_eq {a b : ℕ} (h : a+b<2^64) : checkedAdd a b = .ok (a+b) := if_pos h

lemma checkedAdd_eq_ok {a b c : ℕ} (h : checkedAdd a b = .ok c) : c=a+b ∧ a+b<2^64 := by
  unfold checkedAdd at h
  split at h
  · next hlt => exact ⟨(ok_inj h).symm,hlt⟩
  · cases h

/-- The words of a fill. -/
def stream (env : Platform) (key : Block) (start words wordBytes : ℕ) : Words :=
  tabulate words (streamWord env key start wordBytes)

lemma fillTyped_eq (env : Platform) (key : Block) (hn : 0<n)
    (hm : n≤2*maxLanes) (hb : IsBacking bytes) (hs : start+blockCount n bytes < 2^64) :
    fillTyped env key start n bytes = .ok (stream env key start n bytes) := by
  have hle := @byteReverse_ofNat_add_le start (blockCount n bytes) (by omega) (by omega)
  simp only [fillTyped,typedBlocks_eq hn hm hb,checkedAdd_eq hs,bind,Except.bind,
    if_neg (Nat.not_lt.mpr hle)]
  rfl

lemma getLsbD_streamWord (env : Platform) (key : Block) (start i : ℕ) {j : ℕ}
    (hj : 8*bytes≤j) : (streamWord env key start bytes i).getLsbD j = false := by
  rw [streamWord,getLsbD_ofLeBytes,List.getD_eq_getElem?_getD,List.getElem?_eq_none]
  · simp
  · simp
    omega

/-- The ring of the three parties. -/
def Party.cycle : ThreeCycle Party where
  next := Party.next
  next_ne := Party.next_ne
  next_next_next := Party.next_next_next
  card := rfl

/-- Three component buffers of `n` lanes. -/
structure Components (n : ℕ) where
  part : Party → Words
  length_part : ∀ p, (part p).length = n

namespace Components
variable {n : ℕ}

/-- What one party holds. -/
def view (c : Components n) (operation : Operation) (p : Party) : ReplicatedShare :=
  ⟨operation,p,c.part p,c.part p.next⟩

/-- The value shared in a lane, modulo `2^64`. -/
def total (c : Components n) (i : ℕ) : Word := ∑ p, lane (c.part p) i

/-- The value shared in a lane, bit by bit. -/
def xorTotal (c : Components n) (i : ℕ) : Word :=
  lane (c.part .p0) i ^^^ lane (c.part .p1) i ^^^ lane (c.part .p2) i

lemma total_eq (c : Components n) (i : ℕ) (a : Party) :
    c.total i = lane (c.part a) i+lane (c.part a.next) i+lane (c.part a.next.next) i :=
  Party.cycle.sum_eq _ a

/-- The components computed lane by lane. -/
def ofFn (n : ℕ) (f : Party → ℕ → Word) : Components n :=
  ⟨fun p => tabulate n (f p),fun p => length_tabulate n (f p)⟩

@[simp] lemma ofFn_part (f : Party → ℕ → Word) (p : Party) :
    (ofFn n f).part p = tabulate n (f p) := rfl

lemma total_ofFn (f : Party → ℕ → Word) {i : ℕ} (hi : i<n) : (ofFn n f).total i = ∑ p, f p i :=
  Finset.sum_congr rfl fun p _ => lane_tabulate (f p) hi

lemma ext_part {x y : Components n} (h : x.part=y.part) : x=y := by
  cases x
  cases y
  cases h
  rfl

@[simp] lemma ofFn_lane (x : Components n) : ofFn n (fun p i => lane (x.part p) i)=x := by
  apply ext_part
  funext p
  exact tabulate_lane (x.length_part p)

end Components

/-! Three parties of one setup. Between operations they agree on the context, the cursors and the
ordinal, and each pair of neighbours holds one key. -/
open Pllm.Lib.Exec

/-- What the parties of a setup have in common. -/
structure Joint where
  context : Context
  setup : BitVec 256
  publicSeed : Block
  keys : Party → Block
  sequence : ℕ
  publicBlocks : ℕ
  pairBlocks : ℕ

/-- A live party of the setup whose truncation runtime rests, with `room` cipher blocks left. -/
structure Joint.At (env : Platform) (j : Joint) (p : Party) (limits : PrssLimits) (room : ℕ)
    (s : SourceParty) : Prop where
  party : s.party=p
  context : s.context=j.context
  setup : s.setup=j.setup
  publicSeed : s.publicSeed=j.publicSeed
  seeds : ∃ privateSeed, s.seeds = some ⟨privateSeed,j.keys p,some (j.keys p.next)⟩
  pid : s.pid=env.processId
  publicBlocks : s.cursors.publicBlocks=j.publicBlocks
  pairBlocks : s.cursors.pairBlocks=j.pairBlocks
  pending : s.pending=none
  runtimeParty : s.runtime.party=p
  runtimeContext : s.runtime.context=j.context
  runtimeLimits : s.runtime.limits=limits.core
  runtimeState : s.runtime.state = .ready
  sequence : s.runtime.nextSequence=j.sequence
  sourceLimits : s.limits=limits
  room_le : s.cursors.aesWork+room≤limits.aesBlocks
  room_lt : s.cursors.aesWork+room<2^64

namespace SourceParty
variable {env : Platform} {s : SourceParty}

lemma work_eq_ok {v : ℕ} (h : s.work v = .ok n) :
    n=s.cursors.aesWork+v ∧ s.cursors.aesWork+v<2^64 ∧ s.cursors.aesWork+v ≤ s.limits.aesBlocks := by
  unfold work at h
  cases hc : checkedAdd s.cursors.aesWork v with
  | error e =>
    rw [hc] at h
    cases h
  | ok c =>
    rw [hc] at h
    obtain ⟨rfl,hlt⟩ := checkedAdd_eq_ok hc
    change (if _ then (pure _ : Except Error ℕ) else _)=_ at h
    split at h
    · next hle => exact ⟨(ok_inj h).symm,hlt,hle⟩
    · cases h

lemma work_eq {v : ℕ} (hlt : s.cursors.aesWork+v<2^64)
    (hle : s.cursors.aesWork+v ≤ s.limits.aesBlocks) : s.work v = .ok (s.cursors.aesWork+v) := by
  simp only [work,checkedAdd_eq hlt,bind,Except.bind,if_pos hle]
  rfl

section
variable {deny : ℕ → Option Error} {k : ℕ} {bad : Error → SourceParty → ℕ → Prop}

section
variable {post : Words → SourceParty → ℕ → Prop} (slot : Slot) (key : Block)

lemma wp_fill (hn : 0<n) (hm : n≤2*maxLanes) (hb : IsBacking bytes) (hs : start+blockCount
    n bytes < 2^64) : wp deny (fill env slot key start n bytes) s k post bad ↔ post (stream
    env key start n bytes) { s with fills := s.fills++[⟨slot,start,blockCount n bytes⟩] } k := by
  simp [fill,fillTyped_eq env key hn hm hb hs]

lemma wp_expand (hn : 0<n) (hm : n≤2*maxLanes) (hs : start+blockCount n 8 < 2^64) :
    wp deny (expand env slot key start n) s k post bad ↔
      (deny k = none → post (stream env key start n 8) { s with fills := s.fills ++
        [⟨slot,start,blockCount n 8⟩] } (k+1)) ∧ ∀ e, deny k = some e → bad e s (k+1) := by
  have hb : IsBacking 8 := by decide
  simp [expand,blocks,typedBlocks_eq hn hm hb,checkedAdd_eq hs,zeros,hm,
    wp_fill slot key hn hm hb hs]

end

end

end SourceParty

namespace Joint.At
variable {env : Platform} {j : Joint} {p : Party} {limits : PrssLimits} {room : ℕ}
  {s : SourceParty}

section
variable {v k : ℕ} {deny : ℕ → Option Error} {post : Unit → SourceParty → ℕ → Prop}
  {bad : Error → SourceParty → ℕ → Prop}

section
variable (h : j.At env p limits room s)
include h

lemma work (hv : v ≤ room) : s.work v = .ok (s.cursors.aesWork+v) := by
  have h1 := h.room_le
  have h2 := h.room_lt
  apply SourceParty.work_eq
  · omega
  · rw [h.sourceLimits]
    omega

lemma wp_live : wp deny (SourceParty.live env) s k post bad ↔ post () s k := by
  obtain ⟨privateSeed,hs⟩ := h.seeds
  simp [SourceParty.live,hs,h.pid]

lemma spend (pairEnd : ℕ) (hv : v ≤ room) (fills : List Fill) :
    ({ j with pairBlocks := pairEnd } : Joint).At env p limits (room-v) { s with
        cursors := { s.cursors with pairBlocks := pairEnd, aesWork := s.cursors.aesWork+v }
        fills := fills } := by
  have h1 := h.room_le
  have h2 := h.room_lt
  exact { h with
    pairBlocks := rfl
    room_le := by simp only; omega
    room_lt := by simp only; omega }

lemma reserve (hw : s.work v = .ok n) : j.At env p limits v s := by
  obtain ⟨-,hlt,hle⟩ := SourceParty.work_eq_ok hw
  rw [h.sourceLimits] at hle
  exact { h with
    room_le := hle
    room_lt := hlt }

/-- The runtime consumes the ordinal of an operation of the setup. -/
lemma wp_consumeOrdinal {operation : Operation} (hc : operation.context=j.context)
    (hq : operation.sequence=j.sequence) (hb : j.sequence<limits.core.maxOperations)
    (hl : limits.core.admittedBytes operation.lanes = .ok bytes) :
    wp deny (SourceParty.onRuntime (PartyRuntime.consumeOrdinal operation)) s k post bad ↔ post
    () { s with runtime := { s.runtime with nextSequence := s.runtime.nextSequence+1 } } k := by
  simp [SourceParty.onRuntime,PartyRuntime.consumeOrdinal,h.runtimeState,h.runtimeContext,
    h.runtimeLimits,h.sequence,hc,hq,hb,hl]

lemma advance : ({ j with sequence := j.sequence+1 } : Joint).At env p limits room
      { s with runtime := { s.runtime with nextSequence := s.runtime.nextSequence+1 } } :=
  { h with sequence := congrArg (·+1) h.sequence }

end

end

end Joint.At

end Pllm.Puma
