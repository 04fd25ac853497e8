import Pllm.Common.Slices
import Pllm.Lib.Except
import Pllm.Lib.Exec

/-! The bounded signed-Q10 cache: batched appends of rows to one flat buffer
`[batch,kv_heads,capacity,head_dim]`, validated before anything is written. -/
namespace Pllm.Kv
open Pllm.Lib Pllm.Lib.Exec Nat
open Outcome (bind forRange mono)

abbrev Int16 := BitVec 16

inductive KvCacheError
  | invalidDimension (dimension : String)
  | capacityExceedsPositionDomain (capacity : ℕ)
  | shapeOverflow
  | lengthMismatch (tensor : String) (expected actual : ℕ)
  | validLengthRewind (batch old new : ℕ)
  | capacityExceeded (batch validLength capacity : ℕ)
  | deltaExceedsQuery (batch delta query : ℕ)
  | positionOverwrite (batch query : ℕ) (expected actual : BitVec 32)
  | positionGap (batch query : ℕ) (expected actual : BitVec 32)
  | missingActiveMask (batch query : ℕ)
  | unexpectedActiveMask (batch query : ℕ)
  | nonZeroPadding (batch head query dimension : ℕ)
  | batchOutOfRange (batch : ℕ)
  | headOutOfRange (head : ℕ)
  | visibleLimitExceeded (batch validLength maximumVisible : ℕ)
  | allocationFailed
  deriving DecidableEq

/-- A reported error, or a slice range or subtraction that panics. -/
inductive Fault
  | error (e : KvCacheError)
  | panic
  deriving DecidableEq

structure Q10KvCache where
  storage : List Int16
  validLengths : List ℕ
  batch : ℕ
  kvHeads : ℕ
  capacity : ℕ
  headDim : ℕ
  deriving DecidableEq

/-- The arguments that construction and `append` share. -/
structure Call where
  current : List Int16
  query : ℕ
  positions : List (BitVec 32)
  attentionMask : List Bool
  validLengths : List ℕ

def checkedMul (a b : ℕ) : Except KvCacheError ℕ :=
  if a*b<2^64 then .ok (a*b) else .error .shapeOverflow

def validateDimension (dimension : String) (value : ℕ) : Except KvCacheError Unit :=
  if value=0 then .error (.invalidDimension dimension) else .ok ()

def validateLength (tensor : String) (expected actual : ℕ) : Except KvCacheError Unit :=
  if expected≠actual then .error (.lengthMismatch tensor expected actual) else .ok ()

def currentIndex (batch head query dimension kvHeads queryLength headDim : ℕ) : ℕ :=
  ((batch*kvHeads+head)*queryLength+query)*headDim+dimension

def validateMask (call : Call) (batch delta queryIndex : ℕ) : Except KvCacheError Unit :=
  let active := call.attentionMask.getD (batch*call.query+queryIndex) false
  if queryIndex<delta ∧ active=false then .error (.missingActiveMask batch queryIndex)
  else if delta≤queryIndex ∧ active=true then .error (.unexpectedActiveMask batch queryIndex)
  else .ok ()

def validatePosition (call : Call) (batch old queryIndex : ℕ) : Except KvCacheError Unit :=
  if 2^32≤old+queryIndex then .error .shapeOverflow
  else
    let expected := BitVec.ofNat 32 (old+queryIndex)
    let actual := call.positions.getD (batch*call.query+queryIndex) 0
    if actual<expected then .error (.positionOverwrite batch queryIndex expected actual)
    else if actual>expected then .error (.positionGap batch queryIndex expected actual)
    else .ok ()

def validatePadding (kvHeads headDim : ℕ) (call : Call) (batch head queryIndex dimension : ℕ) :
    Except KvCacheError Unit :=
  let index := currentIndex batch head queryIndex dimension kvHeads call.query headDim
  if call.current.getD index 0 ≠ 0 then .error (.nonZeroPadding batch head queryIndex dimension)
  else .ok ()

def validateBatch (kvHeads capacity headDim : ℕ) (oldLengths : Option (List ℕ)) (call : Call)
    (batch : ℕ) : Except KvCacheError Unit := do
  let new := call.validLengths.getD batch 0
  let old := (oldLengths.map fun lengths => lengths.getD batch 0).getD 0
  if new<old then .error (.validLengthRewind batch old new)
  else if new>capacity then .error (.capacityExceeded batch new capacity)
  else if new-old>call.query then .error (.deltaExceedsQuery batch (new-old) call.query)
  else
    (List.range call.query).forM (validateMask call batch (new-old))
    (List.range (new-old)).forM (validatePosition call batch old)
    (List.range kvHeads).forM fun head =>
      (List.range' (new-old) (call.query-(new-old))).forM fun queryIndex =>
        (List.range headDim).forM (validatePadding kvHeads headDim call batch head queryIndex)

def validateApplyInputs (batchCount kvHeads capacity headDim : ℕ) (oldLengths : Option (List ℕ))
    (call : Call) : Except KvCacheError Unit := do
  let heads ← checkedMul batchCount kvHeads
  let rows ← checkedMul heads call.query
  let expectedCurrent ← checkedMul rows headDim
  let expectedPositions ← checkedMul batchCount call.query
  validateLength "current" expectedCurrent call.current.length
  validateLength "positions" expectedPositions call.positions.length
  validateLength "attention_mask" expectedPositions call.attentionMask.length
  validateLength "valid_lengths" batchCount call.validLengths.length
  match oldLengths with
  | some oldLengths => validateLength "old_valid_lengths" batchCount oldLengths.length
  | none => .ok ()
  (List.range call.validLengths.length).forM
    (validateBatch kvHeads capacity headDim oldLengths call)

namespace Q10KvCache

/-- The physical row of a slot. -/
def slotRow (self : Q10KvCache) (batch head slot : ℕ) : ℕ :=
  (batch*self.kvHeads+head)*self.capacity+slot

/-- One row of `current` into one slot; a range outside its slice panics. -/
def copyRow (current : List Int16) (source destination width : ℕ) : Exec Fault Q10KvCache Unit := do
  let self ← read
  require (destination+width ≤ self.storage.length) .panic
  require (source+width ≤ current.length) .panic
  modify fun s => { s with storage := splice s.storage destination (slice current source width) }

/-- The rows of one batch: the slots from the old length on. -/
def writeBatch (call : Call) (batch : ℕ) : Exec Fault Q10KvCache Unit := do
  let self ← read
  let old := self.validLengths.getD batch 0
  let new := call.validLengths.getD batch 0
  require (old≤new) .panic
  forEach (fun head =>
    forEach (fun queryIndex =>
      copyRow call.current (currentIndex batch head queryIndex 0 self.kvHeads call.query self.headDim)
        (self.slotRow batch head (old+queryIndex)*self.headDim) self.headDim)
      (List.range (new-old)))
    (List.range self.kvHeads)

def writeValidated (call : Call) : Exec Fault Q10KvCache Unit := do
  let self ← read
  forEach (writeBatch call) (List.range (self.validLengths.zip call.validLengths).length)
  require (self.validLengths.length = call.validLengths.length) .panic
  modify fun s => { s with validLengths := call.validLengths }

def append (call : Call) : Exec Fault Q10KvCache Unit := do
  ofExcept ((validateDimension "query" call.query).mapError .error)
  let self ← read
  ofExcept ((validateApplyInputs self.batch self.kvHeads self.capacity self.headDim
    (some self.validLengths) call).mapError .error)
  writeValidated call

/-- The checks of `initializeCache` and the zeroed cache, whose rows are still to be written.
`reserve` answers the two allocations. -/
def allocate (reserve : ℕ → Bool) (batch kvHeads capacity headDim : ℕ) (call : Call) :
    Except KvCacheError Q10KvCache := do
  validateDimension "batch" batch
  validateDimension "kv_heads" kvHeads
  validateDimension "capacity" capacity
  validateDimension "head_dim" headDim
  validateDimension "query" call.query
  if capacity>2^32-1 then .error (.capacityExceedsPositionDomain capacity)
  else
    validateApplyInputs batch kvHeads capacity headDim none call
    let heads ← checkedMul batch kvHeads
    let slots ← checkedMul heads capacity
    let elements ← checkedMul slots headDim
    if reserve elements=false then .error .allocationFailed
    else if reserve batch=false then .error .allocationFailed
    else .ok ⟨List.replicate elements 0,List.replicate batch 0,batch,kvHeads,capacity,headDim⟩

def initializeCache (reserve : ℕ → Bool) (batch kvHeads capacity headDim : ℕ) (call : Call) :
    Except Fault Q10KvCache := do
  let cache ← (allocate reserve batch kvHeads capacity headDim call).mapError .error
  match writeValidated call (fun _ => none) cache 0 with
  | (.ok (),cache,_) => .ok cache
  | (.error e,_,_) => .error e

def visiblePrefix (self : Q10KvCache) (batch head maximumVisible : ℕ) :
    Except KvCacheError (List Int16) :=
  if batch≥self.batch then .error (.batchOutOfRange batch)
  else if head≥self.kvHeads then .error (.headOutOfRange head)
  else
    let visible := self.validLengths.getD batch 0
    if visible>maximumVisible then
      .error (.visibleLimitExceeded batch visible maximumVisible)
    else .ok (slice self.storage (self.slotRow batch head 0*self.headDim) (visible*self.headDim))

/-- One call: its answer and the cache afterwards. -/
def step (s : Q10KvCache) (call : Call) : Except Fault Unit × Q10KvCache :=
  let outcome := append call (fun _ => none) s 0
  (outcome.1,outcome.2.1)

/-- The cache after a sequence of calls, whatever each of them answers. -/
def after (s : Q10KvCache) (calls : List Call) : Q10KvCache :=
  calls.foldl (fun s call => (step s call).2) s

/-- The calls of a sequence that succeed. -/
def succeeded (s : Q10KvCache) : List Call → List Call
  | [] => []
  | call::calls =>
    let rest := succeeded (step s call).2 calls
    if (step s call).1.isOk then call::rest else rest

end Q10KvCache

/-- The rows of a call that its mask marks for one batch, as one head sends them. -/
def Call.activeRows (kvHeads headDim : ℕ) (call : Call) (batch head : ℕ) : List (List Int16) :=
  ((List.range call.query).filter fun i => call.attentionMask.getD (batch*call.query+i) false).map
    fun i => row headDim call.current ((batch*kvHeads+head)*call.query+i)

open List

lemma checkedMul_eq_ok {a b c : ℕ} : checkedMul a b = .ok c ↔ a*b<2^64 ∧ c=a*b := by
  rw [checkedMul,ite_ok_eq_ok,@eq_comm _ c]

lemma validateLength_eq_ok {tensor : String} {expected actual : ℕ} :
    validateLength tensor expected actual = .ok () ↔ expected=actual := by
  simp [validateLength]

/-- The length of each batch before the call. -/
def oldLength (oldLengths : Option (List ℕ)) (batch : ℕ) : ℕ :=
  (oldLengths.map fun lengths => lengths.getD batch 0).getD 0

/-- What the validation promises for one batch. -/
structure Call.BatchValid (capacity : ℕ) (oldLengths : Option (List ℕ)) (call : Call) (batch : ℕ) :
    Prop where
  grows : oldLength oldLengths batch ≤ call.validLengths.getD batch 0
  fits : call.validLengths.getD batch 0 ≤ capacity
  delta : call.validLengths.getD batch 0-oldLength oldLengths batch ≤ call.query
  mask : ∀ i < call.query, call.attentionMask.getD (batch*call.query+i) false =
    decide (i < call.validLengths.getD batch 0-oldLength oldLengths batch)

variable {batch : ℕ} {call : Call}

lemma validateMask_eq_ok {delta i : ℕ} (h : validateMask call batch delta i =
    .ok ()) : call.attentionMask.getD (batch*call.query+i) false = decide (i<delta) := by
  obtain ⟨hmis,h⟩ := ite_error_eq_ok.mp h
  obtain ⟨hune,-⟩ := ite_error_eq_ok.mp h
  by_cases hi : i<delta
  · simpa [hi] using hmis
  · simpa [hi,not_lt.mp hi] using hune

variable {batch : ℕ} {oldLengths : Option (List ℕ)}

lemma validateBatch_eq_ok {kvHeads capacity headDim : ℕ} {call :
    Call} (h : validateBatch kvHeads capacity headDim oldLengths call batch = .ok ()) :
    call.BatchValid capacity oldLengths batch := by
  obtain ⟨hrew,h⟩ := ite_error_eq_ok.mp h
  obtain ⟨hcap,h⟩ := ite_error_eq_ok.mp h
  obtain ⟨hdlt,h⟩ := ite_error_eq_ok.mp h
  obtain ⟨_,hmask,-⟩ := bind_eq_ok.mp h
  exact ⟨not_lt.mp hrew,not_lt.mp hcap,not_lt.mp hdlt,fun i hi =>
    validateMask_eq_ok (forM_eq_ok.mp hmask i (mem_range.mpr hi))⟩

/-- What the validation promises of a whole call. -/
structure Call.Valid (batchCount kvHeads capacity headDim : ℕ) (oldLengths : Option (List ℕ))
    (call : Call) : Prop where
  current : call.current.length = batchCount*kvHeads*call.query*headDim
  validLengths : call.validLengths.length=batchCount
  batches : ∀ batch<batchCount, call.BatchValid capacity oldLengths batch

lemma validateApplyInputs_eq_ok {batchCount kvHeads capacity headDim : ℕ} (h : validateApplyInputs batchCount kvHeads capacity headDim oldLengths
    call = .ok ()) : call.Valid batchCount kvHeads capacity headDim oldLengths := by
  obtain ⟨heads,hhea,rows,hrows,expected,hexp,h⟩ := bind₃_eq_ok.mp h
  obtain ⟨-,rfl⟩ := checkedMul_eq_ok.mp hhea
  obtain ⟨-,rfl⟩ := checkedMul_eq_ok.mp hrows
  obtain ⟨-,rfl⟩ := checkedMul_eq_ok.mp hexp
  obtain ⟨_,-,_,hcur,_,-,_,-,h⟩ := bind₄_eq_ok.mp h
  obtain ⟨_,hlens,h⟩ := bind_eq_ok.mp h
  have hl := validateLength_eq_ok.mp hlens
  have hb : (range call.validLengths.length).forM
      (validateBatch kvHeads capacity headDim oldLengths call) = .ok () := by
    cases oldLengths with
    | none => exact h
    | some lengths =>
      obtain ⟨_,-,h⟩ := bind_eq_ok.mp h
      exact h
  refine ⟨(validateLength_eq_ok.mp hcur).symm,hl.symm,fun batch hlt => ?_⟩
  exact validateBatch_eq_ok (forM_eq_ok.mp hb batch (by simpa [← hl] using hlt))

namespace Q10KvCache

/-- Storage and lengths agree with the geometry. -/
structure WellFormed (s : Q10KvCache) : Prop where
  storage : s.storage.length = s.batch*s.kvHeads*s.capacity*s.headDim
  validLengths : s.validLengths.length=s.batch
  fits : ∀ batch < s.batch, s.validLengths.getD batch 0 ≤ s.capacity

lemma slotRow_lt {s : Q10KvCache} {head slot : ℕ} (hb : batch < s.batch) (hh : head < s.kvHeads)
    (hs : slot < s.capacity) : s.slotRow batch head slot < s.batch*s.kvHeads*s.capacity :=
  mul_add_lt (mul_add_lt hb hh) hs

lemma slotRow_inj {s : Q10KvCache} {head slot batch' head' slot' : ℕ} (hh : head < s.kvHeads)
    (hh' : head' < s.kvHeads) (hs : slot < s.capacity) (hs' : slot' < s.capacity) : s.slotRow
    batch head slot = s.slotRow batch' head' slot' ↔ batch=batch' ∧ head=head' ∧ slot=slot' := by
  rw [slotRow,slotRow,mul_add_inj hs hs',mul_add_inj hh hh',and_assoc]

/-- What a slot holds once the rows of a call are written. -/
def written (s : Q10KvCache) (call : Call) (batch head slot : ℕ) : List Int16 :=
  if s.validLengths.getD batch 0 ≤ slot ∧ slot < call.validLengths.getD batch 0 then
    row s.headDim call.current
      ((batch*s.kvHeads+head)*call.query+(slot-s.validLengths.getD batch 0))
  else row s.headDim s.storage (s.slotRow batch head slot)

/-- The slots for which `done` holds are written; all else is as it was in `s`. -/
structure Writing (s : Q10KvCache) (call : Call) (done : ℕ → ℕ → ℕ → Prop) (t : Q10KvCache) :
    Prop where
  frame : t = { s with storage := t.storage }
  length : t.storage.length=s.storage.length
  fresh : ∀ batch < s.batch, ∀ head < s.kvHeads, ∀ slot < s.capacity, done batch head slot →
    row s.headDim t.storage (s.slotRow batch head slot) = s.written call batch head slot
  kept : ∀ batch < s.batch, ∀ head < s.kvHeads, ∀ slot < s.capacity, ¬done batch head slot →
    row s.headDim t.storage (s.slotRow batch head slot) =
      row s.headDim s.storage (s.slotRow batch head slot)

variable {s t : Q10KvCache} {call : Call} {done : ℕ → ℕ → ℕ → Prop}

lemma Writing.start (s : Q10KvCache) (call : Call) : Writing s call (fun _ _ _ => False) s :=
  ⟨rfl,rfl,fun _ _ _ _ _ _ h => h.elim,fun _ _ _ _ _ _ _ => rfl⟩

/-- Slots that the call leaves alone count as written. -/
lemma Writing.congr {done' : ℕ → ℕ → ℕ → Prop} (h : Writing s call done t)
    (hd : ∀ batch < s.batch, ∀ head < s.kvHeads, ∀ slot < s.capacity,
      (done batch head slot → done' batch head slot) ∧ (done' batch head slot →
        done batch head slot ∨ s.written call batch head slot =
          row s.headDim s.storage (s.slotRow batch head slot))) : Writing s call done' t where
  frame := h.frame
  length := h.length
  fresh batch hb head hh slot hs hdone := by
    by_cases hold : done batch head slot
    · exact h.fresh batch hb head hh slot hs hold
    · rw [h.kept batch hb head hh slot hs hold]
      exact (((hd batch hb head hh slot hs).2 hdone).resolve_left hold).symm
  kept batch hb head hh slot hs hdone :=
    h.kept batch hb head hh slot hs fun hold => hdone ((hd batch hb head hh slot hs).1 hold)

section
variable (hs : s.WellFormed) (hc : call.Valid s.batch s.kvHeads s.capacity s.headDim (some s.validLengths))
include hs hc

/-- One row copied. -/
lemma outcome_copyRow (ht : Writing s call done t) {head i : ℕ} (hb : batch < s.batch)
    (hh : head < s.kvHeads) (hi : i < call.validLengths.getD batch 0-s.validLengths.getD batch 0) :
    Outcome (copyRow call.current (currentIndex batch head i 0 s.kvHeads call.query s.headDim)
        (s.slotRow batch head (s.validLengths.getD batch 0+i)*s.headDim) s.headDim) t
      (fun _ u => Writing s call (fun b h slot => done b h slot ∨
        (b=batch ∧ h=head ∧ slot = s.validLengths.getD batch 0+i)) u) fun _ => False := by
  have hv := hc.batches batch hb
  have hdlt : call.validLengths.getD batch 0-s.validLengths.getD batch 0 ≤ call.query := hv.delta
  have hslot : s.validLengths.getD batch 0+i < s.capacity := by
    have := hv.fits
    omega
  have hrow := slotRow_lt hb hh hslot
  have hsrc : (batch*s.kvHeads+head)*call.query+i < s.batch*s.kvHeads*call.query :=
    mul_add_lt (mul_add_lt hb hh) (hi.trans_le hdlt)
  have hrow' := Nat.mul_le_mul_right s.headDim (succ_le_of_lt hrow)
  have hsource' := Nat.mul_le_mul_right s.headDim (succ_le_of_lt hsrc)
  rw [succ_mul,← hs.storage,← ht.length] at hrow'
  rw [succ_mul,← hc.current] at hsource'
  have hrowl : (row s.headDim call.current ((batch*s.kvHeads+head)*call.query+i)).length =
      1*s.headDim := by rw [length_row hc.current hsrc,one_mul]
  intro deny k
  simp only [copyRow,wp_bind,wp_require,wp_modify]
  refine ⟨fun _ => ⟨fun _ => ?_,fun hn => hn (by simpa [currentIndex] using hsource')⟩,
    fun hn => hn hrow'⟩
  have hfit : s.slotRow batch head (s.validLengths.getD batch 0+i)*s.headDim+
      (row s.headDim call.current ((batch*s.kvHeads+head)*call.query+i)).length ≤
        t.storage.length := by rw [hrowl]; omega
  have haft : ∀ b < s.batch, ∀ h < s.kvHeads, ∀ slot < s.capacity,
      row s.headDim (splice t.storage (s.slotRow batch head (s.validLengths.getD batch 0+i)*s.headDim)
        (row s.headDim call.current ((batch*s.kvHeads+head)*call.query+i))) (s.slotRow b h slot) =
      if b=batch ∧ h=head ∧ slot=s.validLengths.getD batch 0+i then
        row s.headDim call.current ((batch*s.kvHeads+head)*call.query+i)
      else row s.headDim t.storage (s.slotRow b h slot) := by
    intro b hb' h hh' slot hs'
    have hiff : s.slotRow batch head (s.validLengths.getD batch 0+i) ≤ s.slotRow b h slot ∧
        s.slotRow b h slot < s.slotRow batch head (s.validLengths.getD batch 0+i)+1 ↔
          s.slotRow b h slot = s.slotRow batch head (s.validLengths.getD batch 0+i) := by omega
    have hrows := hiff.trans (slotRow_inj hh' hh hs' hslot)
    rw [row_splice hrowl hfit,if_congr hrows rfl rfl]
    split
    · next heq => rw [(hiff.mp (hrows.mpr heq)),tsub_self,row_zero (by simpa using hrowl)]
    · rfl
  refine ⟨?_,(length_splice hfit).trans ht.length,?_,?_⟩
  · conv_lhs => rw [ht.frame]
  · intro b hb' h hh' slot hs' hdone
    refine (haft b hb' h hh' slot hs').trans ?_
    split
    · next heq =>
      obtain ⟨rfl,rfl,rfl⟩ := heq
      rw [written,if_pos ⟨le_self_add,by omega⟩,Nat.add_sub_cancel_left]
    · next hne => exact ht.fresh b hb' h hh' slot hs' (hdone.resolve_right hne)
  · intro b hb' h hh' slot hs' hdone
    refine (haft b hb' h hh' slot hs').trans ?_
    rw [if_neg fun heq => hdone (.inr heq)]
    exact ht.kept b hb' h hh' slot hs' fun hold => hdone (.inl hold)

lemma outcome_writeBatch (hb : batch < s.batch) (ht : Writing s call (fun b _ _ => b<batch) t) :
    Outcome (writeBatch call batch) t (fun _ u => Writing s call (fun b _ _ => b<batch+1) u)
      fun _ => False := by
  have hv := hc.batches batch hb
  have hold : s.validLengths.getD batch 0 ≤ call.validLengths.getD batch 0 := hv.grows
  obtain ⟨storage,rfl⟩ : ∃ storage, t = { s with storage := storage } := ⟨_,ht.frame⟩
  refine .read (Outcome.guard hold ?_)
  refine mono (forRange (fun head t => Writing s call (fun b h _ => b<batch ∨
    (b=batch ∧ h<head)) t) ?_ ?_) ?_ fun _ h => h
  · exact ht.congr fun b _ h _ slot _ => by grind
  · intro head hh u hu
    refine mono (forRange (fun i t => Writing s call (fun b h slot => b<batch ∨
      (b=batch ∧ (h<head ∨ (h=head ∧ s.validLengths.getD batch 0 ≤ slot ∧
        slot < s.validLengths.getD batch 0+i)))) t) ?_ ?_) ?_ fun _ h => h
    · grind
    · intro i hi v hv
      refine (outcome_copyRow hs hc hv hb hh hi).mono (fun _ w hw => ?_) fun _ h => h
      grind
    · intro _ v hv
      refine hv.congr fun b hb' h hh' slot hs' => ?_
      unfold written
      grind
  · intro _ u hu
    refine hu.congr fun b hb' h hh' slot hs' => ?_
    grind

lemma outcome_writeValidated :
    Outcome (writeValidated call) s (fun _ u => u.validLengths=call.validLengths ∧
      ∃ t, Writing s call (fun _ _ _ => True) t ∧ u = { t with validLengths := call.validLengths })
      fun _ => False := by
  have hlen : (s.validLengths.zip call.validLengths).length=s.batch := by
    rw [length_zip,hs.validLengths,hc.validLengths,min_self]
  refine .read ?_
  rw [hlen]
  refine bind (forRange (fun batch t => Writing s call (fun b _ _ => b<batch) t)
    ((Writing.start s call).congr fun b _ h _ slot _ => by simp)
    fun batch hb t ht => outcome_writeBatch hs hc hb ht) fun _ t ht => ?_
  intro deny k
  simp only [wp_bind,wp_require,wp_modify]
  refine ⟨fun _ => ⟨trivial,t,ht.congr fun b hb h _ slot _ => ⟨fun _ => trivial,fun _ => .inl hb⟩,rfl⟩,
    fun hn => hn ?_⟩
  rw [hs.validLengths,hc.validLengths]

end

/-- The cache holds these rows for each batch and head, oldest first, and zero rows after them. -/
structure Holds (s : Q10KvCache) (rows : ℕ → ℕ → List (List Int16)) : Prop where
  wellFormed : s.WellFormed
  length : ∀ batch < s.batch, ∀ head < s.kvHeads,
    (rows batch head).length = s.validLengths.getD batch 0
  rows : ∀ batch < s.batch, ∀ head < s.kvHeads, ∀ slot < s.capacity,
    row s.headDim s.storage (s.slotRow batch head slot) =
      (rows batch head).getD slot (List.replicate s.headDim 0)

/-- A later state of the same cache. -/
structure Later (s t : Q10KvCache) : Prop where
  batch : t.batch=s.batch
  kvHeads : t.kvHeads=s.kvHeads
  capacity : t.capacity=s.capacity
  headDim : t.headDim=s.headDim
  validLengths : ∀ batch < s.batch, s.validLengths.getD batch 0 ≤ t.validLengths.getD batch 0

section
variable {kvHeads capacity headDim : ℕ} {rows : ℕ → ℕ → List (List Int16)} {reserve : ℕ → Bool}

lemma Later.refl (s : Q10KvCache) : Later s s := ⟨rfl,rfl,rfl,rfl,fun _ _ => le_rfl⟩

lemma Later.trans {s t u : Q10KvCache} (h : Later s t) (h' : Later t u) : Later s u :=
  ⟨h'.batch.trans h.batch,h'.kvHeads.trans h.kvHeads,h'.capacity.trans h.capacity,h'.headDim.trans
    h.headDim,fun b hb => (h.validLengths b hb).trans (h'.validLengths b (h.batch ▸ hb))⟩

lemma filter_range_lt {n d : ℕ} (h : d≤n) : ((range n).filter fun i => decide (i<d)) = range d := by
  induction n, h using le_induction with
  | base => exact filter_eq_self.mpr fun i hi => decide_eq_true (mem_range.mp hi)
  | succ n hn ih => simp [range_succ,ih,not_lt.mpr hn]

lemma activeRows_eq (h : call.BatchValid capacity oldLengths batch) (head : ℕ) :
    call.activeRows kvHeads headDim batch head =
      (range (call.validLengths.getD batch 0-oldLength oldLengths batch)).map fun i =>
        row headDim call.current ((batch*kvHeads+head)*call.query+i) := by
  rw [Call.activeRows,← filter_range_lt h.delta]
  congr 1
  exact filter_congr fun i hi => h.mask i (mem_range.mp hi)

lemma getD_map_range {α : Type} (f : ℕ → α) (n i : ℕ) (d : α) :
    ((range n).map f).getD i d = if i<n then f i else d := by
  by_cases h : i<n
  · rw [getD_eq_getElem _ _ (by simpa using h),getElem_map,getElem_range,if_pos h]
  · rw [getD_eq_default _ _ (by simpa using h),if_neg h]

lemma outcome_holds (hs : s.Holds rows)
    (hc : call.Valid s.batch s.kvHeads s.capacity s.headDim (some s.validLengths)) :
    Outcome (writeValidated call) s (fun _ t => Later s t ∧ t.Holds fun batch head =>
      rows batch head++call.activeRows s.kvHeads s.headDim batch head) fun _ => False := by
  refine (outcome_writeValidated hs.wellFormed hc).mono ?_ fun _ h => h
  rintro _ _ ⟨-,t,ht,rfl⟩
  obtain ⟨storage,rfl⟩ : ∃ storage, t = { s with storage := storage } := ⟨_,ht.frame⟩
  refine ⟨⟨rfl,rfl,rfl,rfl,fun b hb => (hc.batches b hb).grows⟩,⟨?_,?_,?_⟩,?_,?_⟩
  · exact ht.length.trans hs.wellFormed.storage
  · exact hc.validLengths
  · exact fun b hb => (hc.batches b hb).fits
  · intro b hb head hh
    have hv := hc.batches b hb
    have hgro : s.validLengths.getD b 0 ≤ call.validLengths.getD b 0 := hv.grows
    rw [activeRows_eq hv,length_append,length_map,length_range,hs.length b hb head hh]
    exact Nat.add_sub_cancel' hgro
  · intro b hb head hh slot hslot
    refine (ht.fresh b hb head hh slot hslot trivial).trans ?_
    have hlen := hs.length b hb head hh
    rw [written,activeRows_eq (hc.batches b hb)]
    simp only [oldLength,Option.map_some,Option.getD_some]
    by_cases hold : s.validLengths.getD b 0 ≤ slot
    · rw [getD_append_right _ _ _ _ (hlen.trans_le hold),hlen]
      rw [getD_map_range]
      by_cases hnew : slot < call.validLengths.getD b 0
      · rw [if_pos ⟨hold,hnew⟩,if_pos (by omega)]
      · rw [if_neg fun h => hnew h.2, if_neg (by omega), hs.rows b hb head hh slot hslot,
          getD_eq_default _ _ (hlen.trans_le hold)]
    · rw [if_neg fun h => hold h.1, hs.rows b hb head hh slot hslot, getD_append _ _ _ _ (by omega)]

lemma outcome_append {rows : ℕ → ℕ → List (List Int16)} (hs : s.Holds rows) :
    Outcome (append call) s (fun _ t => Later s t ∧ t.Holds fun batch head =>
      rows batch head++call.activeRows s.kvHeads s.headDim batch head) fun t => t=s := by
  refine .ofExcept rfl fun _ _ => .read (.ofExcept rfl fun _ hvld => ?_)
  have hc := validateApplyInputs_eq_ok (mapError_eq_ok.mp hvld)
  exact (outcome_holds hs hc).mono (fun _ _ h => h) fun _ h => h.elim

/-- The rows in use are one range of the flat buffer. -/
lemma Holds.visiblePrefix (hs : s.Holds rows) {head : ℕ} (hb : batch < s.batch)
    (hh : head < s.kvHeads) (maximumVisible : ℕ) :
    s.visiblePrefix batch head maximumVisible =
      if s.validLengths.getD batch 0 ≤ maximumVisible then .ok (rows batch head).flatten
      else .error (.visibleLimitExceeded batch (s.validLengths.getD batch 0) maximumVisible) := by
  have hlen := hs.length batch hb head hh
  have hrows : (rows batch head).flatten=slice s.storage (s.slotRow batch head 0*s.headDim)
        (s.validLengths.getD batch 0*s.headDim) := by
    rw [slice_rows,← hlen]
    congr 1
    apply ext_getElem
    · simp
    · intro i hi hi'
      have hfits := hs.wellFormed.fits batch hb
      have hrow := hs.rows batch hb head hh i (by omega)
      rw [getD_eq_getElem _ _ hi] at hrow
      rw [← hrow,getElem_map,getElem_range]
      rfl
  rw [Q10KvCache.visiblePrefix,if_neg (not_le.mpr hb),if_neg (not_le.mpr hh),hrows]
  split
  · next h => exact if_neg (not_lt.mpr h)
  · next h => exact if_pos (not_le.mp h)

lemma Holds.getElem?_eq_zero (hs : s.Holds rows) {head slot d : ℕ} (hb : batch < s.batch) (hh
    : head < s.kvHeads) (hunu : s.validLengths.getD batch 0 ≤ slot) (hslot : slot < s.capacity) (hd :
    d < s.headDim) : s.storage[s.slotRow batch head slot*s.headDim+d]? = some 0 := by
  have hrow := congrArg (·[d]?) (hs.rows batch hb head hh slot hslot)
  rw [getD_eq_default _ _ ((hs.length batch hb head hh).trans_le hunu)] at hrow
  simpa [row,getElem?_slice,hd] using hrow

lemma holds_allocate (h : allocate reserve batch kvHeads capacity headDim call = .ok s) :
    (s.batch=batch ∧ s.kvHeads=kvHeads ∧ s.capacity=capacity ∧ s.headDim=headDim) ∧ s.Holds (fun _ _
      => []) ∧ call.Valid s.batch s.kvHeads s.capacity s.headDim (some s.validLengths) := by
  obtain ⟨_,-,_,-,_,-,_,-,h⟩ := bind₄_eq_ok.mp h
  obtain ⟨_,-,h⟩ := bind_eq_ok.mp h
  obtain ⟨-,h⟩ := ite_error_eq_ok.mp h
  obtain ⟨_,hvld,heads,hhea,slots,hsls,elements,hele,h⟩ := bind₄_eq_ok.mp h
  obtain ⟨-,rfl⟩ := checkedMul_eq_ok.mp hhea
  obtain ⟨-,rfl⟩ := checkedMul_eq_ok.mp hsls
  obtain ⟨-,rfl⟩ := checkedMul_eq_ok.mp hele
  obtain ⟨-,h⟩ := ite_error_eq_ok.mp h
  obtain ⟨-,h⟩ := ite_error_eq_ok.mp h
  obtain rfl := ok_inj h
  have hzero : ∀ b<batch, (replicate batch 0).getD b 0=0 := fun b hb => by simp [hb]
  obtain ⟨hcur,hlens,hbat⟩ := validateApplyInputs_eq_ok hvld
  refine ⟨⟨rfl,rfl,rfl,rfl⟩,⟨⟨?_,?_,?_⟩,?_,?_⟩,hcur,hlens,fun b hb => ?_⟩
  · exact length_replicate
  · exact length_replicate
  · exact fun b hb => (hzero b hb).trans_le capacity.zero_le
  · exact fun b hb _ _ => (hzero b hb).symm
  · intro b hb head hh slot hslot
    exact row_replicate 0 (mul_add_lt (mul_add_lt hb hh) hslot)
  · have hold : oldLength (some (replicate batch 0)) b=oldLength none b := hzero b hb
    obtain ⟨hgro,hfits,hdlt,hmask⟩ := hbat b hb
    rw [← hold] at hgro hdlt hmask
    exact ⟨hgro,hfits,hdlt,hmask⟩

lemma holds_initializeCache (h : initializeCache reserve batch kvHeads capacity headDim call =
    .ok s) : (s.batch=batch ∧ s.kvHeads=kvHeads ∧ s.capacity=capacity ∧ s.headDim=headDim) ∧
    s.Holds fun b head => call.activeRows kvHeads headDim b head := by
  obtain ⟨cache,hcac,hwri⟩ := bind_eq_ok.mp h
  obtain ⟨⟨rfl,rfl,rfl,rfl⟩,hhol,hvld⟩ := holds_allocate (mapError_eq_ok.mp hcac)
  split at hwri
  · next hrun =>
    obtain rfl := ok_inj hwri
    obtain ⟨hlat,haft⟩ := (outcome_holds hhol hvld).ok hrun
    exact ⟨⟨hlat.batch,hlat.kvHeads,hlat.capacity,hlat.headDim⟩,haft⟩
  · cases hwri

lemma step_holds (hs : s.Holds rows) (call : Call) : Later s (step s call).2 ∧ ((step s call).1.isOk
    = true → (step s call).2.Holds fun batch head => rows batch head++call.activeRows
    s.kvHeads s.headDim batch head) ∧ ((step s call).1.isOk = false → (step s call).2 = s) := by
  have h := @outcome_append s call rows hs
  unfold step
  rcases hrun : append call (fun _ => none) s 0 with ⟨_ | _,t,k⟩
  · obtain rfl : t=s := h.error hrun
    exact ⟨.refl t,fun hok => (by cases hok),fun _ => rfl⟩
  · obtain ⟨hlat,hhol⟩ := h.ok hrun
    exact ⟨hlat,fun _ => hhol,fun hok => by cases hok⟩

lemma after_holds (hs : s.Holds rows) (calls : List Call) :
    Later s (after s calls) ∧ (after s calls).Holds fun batch head => rows batch head ++
    (succeeded s calls).flatMap fun call => call.activeRows s.kvHeads s.headDim batch head := by
  induction calls generalizing s rows with
  | nil =>
    refine ⟨.refl s,?_⟩
    simpa [after,succeeded] using hs
  | cons call calls ih =>
    obtain ⟨hlat,hok,herr⟩ := step_holds hs call
    rw [after,foldl_cons,← after,succeeded]
    cases hcase : (step s call).1.isOk with
    | true =>
      obtain ⟨hlat',hhol⟩ := ih (hok hcase)
      refine ⟨hlat.trans hlat',?_⟩
      simpa [hlat.kvHeads,hlat.headDim] using hhol
    | false =>
      have heq := herr hcase
      rw [heq]
      simpa using ih hs

/-- Over every sequence of calls, the visible prefix of a batch and head is the active rows of the
calls that succeeded, in order. The elements after it are zero, the lengths grow up to the capacity,
and a call that fails leaves the cache as it was. -/
theorem visiblePrefix_after (reserve : ℕ → Bool) (batch kvHeads capacity headDim : ℕ) (first : Call)
    (s : Q10KvCache) (h : initializeCache reserve batch kvHeads capacity headDim first = .ok s)
    (calls : List Call) :
    (∀ b<batch, ∀ head<kvHeads,
      (∀ maximumVisible, (after s calls).visiblePrefix b head maximumVisible =
        if (after s calls).validLengths.getD b 0 ≤ maximumVisible then
          .ok ((first::succeeded s calls).flatMap fun call =>
            (call.activeRows kvHeads headDim b head).flatten)
        else .error (.visibleLimitExceeded b ((after s calls).validLengths.getD b 0)
          maximumVisible))
      ∧ ∀ slot, (after s calls).validLengths.getD b 0 ≤ slot → slot < capacity → ∀ d<headDim,
        (after s calls).storage[((b*kvHeads+head)*capacity+slot)*headDim+d]? = some 0)
    ∧ (∀ b<batch, (after s calls).validLengths.getD b 0 ≤ capacity ∧ ∀ more,
        (after s calls).validLengths.getD b 0 ≤ (after s (calls++more)).validLengths.getD b 0)
    ∧ ∀ call e, (step (after s calls) call).1 = .error e →
        (step (after s calls) call).2 = after s calls := by
  obtain ⟨⟨rfl,rfl,rfl,rfl⟩,hs⟩ := holds_initializeCache h
  obtain ⟨hlat,hhol⟩ := after_holds hs calls
  refine ⟨fun b hb head hh => ⟨fun maximumVisible => ?_,fun slot hunu hslot d hd => ?_⟩,
    fun b hb => ⟨?_,fun more => ?_⟩,fun call e he => ?_⟩
  · rw [hhol.visiblePrefix (hlat.batch ▸ hb) (hlat.kvHeads ▸ hh),flatMap_cons,
      flatten_append,flatMap_def,flatten_flatten,map_map,flatMap_def]
    rfl
  · have hzero := hhol.getElem?_eq_zero (hlat.batch ▸ hb) (hlat.kvHeads ▸ hh) hunu
      (hlat.capacity ▸ hslot) (hlat.headDim ▸ hd)
    rwa [slotRow,hlat.kvHeads,hlat.capacity,hlat.headDim] at hzero
  · exact hlat.capacity ▸ hhol.wellFormed.fits b (hlat.batch ▸ hb)
  · rw [after,after,foldl_append]
    exact (after_holds hhol more).1.validLengths b (hlat.batch ▸ hb)
  · exact (step_holds hhol call).2.2 (by rw [he]; rfl)

/-- Two batches of different lengths, a call that fails for the second, and one that succeeds. -/
theorem visiblePrefix_after_at :
    let first : Call := ⟨[10,11,0,20,0,0],3,[0,1,77,0,88,99],[true,true,false,true,false,false],[2,1]⟩
    let s : Q10KvCache := ⟨[10,11,0,0,0,20,0,0,0,0],[2,1],2,1,5,1⟩
    let failing : Call := ⟨[12,21],1,[2,2],[true,true],[3,2]⟩
    let next : Call := ⟨[12,0,21,22],2,[2,90,1,2],[true,false,true,true],[3,3]⟩
    initializeCache (fun _ => true) 2 1 5 1 first = .ok s ∧ (step s failing).2 = s ∧
      ∀ b<2, (after s [failing,next]).visiblePrefix b 0 3 = .ok ([first,next].flatMap fun call =>
        (call.activeRows 1 1 b 0).flatten) := by
  intro first s failing next
  have hfst : initializeCache (fun _ => true) 2 1 5 1 first = .ok s := by decide +kernel
  refine ⟨hfst,?_,fun b hb => ?_⟩
  · exact (visiblePrefix_after (fun _ => true) 2 1 5 1 first s hfst []).2.2 failing
      (.error (.positionGap 1 0 1 2)) (by decide +kernel)
  · revert b
    decide +kernel

end

end Q10KvCache
end Pllm.Kv
