import Pllm.Retained.Cache
import Pllm.Lib.Exec

/-! The owner of the retained rows over its calls: it holds a list of rows with strictly ascending
original positions, which appends extend, compactions filter and a close drops. -/
namespace Pllm.Retained
open Pllm.Lib Pllm.Lib.Exec List

/-- A reported error, or a slice range that panics. -/
inductive Fault
  | error (message : String)
  | panic

variable {α β : Type} {keys values : List Float32} {t : RetainedKvCache}

namespace RetainedKvCache

/-- One `copy_from_slice` into a part of the owner; a range outside it panics. -/
def copyInto {α : Type} (get : RetainedKvCache → List α)
    (set : List α → RetainedKvCache → RetainedKvCache) (start : ℕ) (source : List α) :
    Exec Fault RetainedKvCache Unit := do
  let self ← read
  require (start+source.length ≤ (get self).length) .panic
  modify fun s => set (splice (get s) start source) s

/-- `append` as it writes to the owner, statement by statement. -/
def appendInPlace (pos : ℕ) (keys values : List Float32) :
    Exec Fault RetainedKvCache Unit := do
  let self ← read
  ofExcept (self.live.mapError .error)
  require (¬(pos≠self.nextPosition ∨ keys = [] ∨ keys.length≠values.length
    ∨ keys.length%self.width≠0))
    (.error "retained KV append shape or logical position differs")
  let rows := keys.length/self.width
  require (¬(rows>self.capacity-self.length ∨ rows>self.maximumPosition-self.nextPosition
    ∨ (keys++values).any fun v => !Float32.isFinite v))
    (.error "retained KV append exceeds capacity or has nonfinite values")
  copyInto RetainedKvCache.keys (fun xs s => { s with keys := xs }) (self.length*self.width) keys
  copyInto RetainedKvCache.values (fun xs s => { s with values := xs }) (self.length*self.width) values
  forEach (fun offset =>
    copyInto RetainedKvCache.positions (fun xs s => { s with positions := xs }) (self.length+offset)
      [BitVec.ofNat 32 (pos+offset)]) (List.range rows)
  modify fun s => { s with length := s.length+rows }
  modify fun s => { s with nextPosition := s.nextPosition+rows }

/-- `retain`: the three allocations of the new owner may be refused; it replaces the old one whole. -/
def retainInPlace (positions : List ℕ) (capacity : ℕ) : Exec Fault RetainedKvCache Unit := do
  let self ← read
  let next ← ofExcept ((self.retain positions capacity).mapError .error)
  request
  request
  request
  modify fun _ => next

inductive Op
  | append (pos : ℕ) (keys values : List Float32)
  | retain (positions : List ℕ) (capacity : ℕ)
  | close

/-- One call, with the answers of the allocator. -/
structure Request where
  op : Op
  reserve : ℕ → Bool

def Op.program : Op → Exec Fault RetainedKvCache Unit
  | .append pos keys values => appendInPlace pos keys values
  | .retain positions capacity => retainInPlace positions capacity
  | .close => modify RetainedKvCache.close

def Request.deny (request : Request) (i : ℕ) : Option Fault :=
  if request.reserve i then none else some (.error "retained KV allocation failed")

def step (s : RetainedKvCache) (request : Request) : Except Fault Unit × RetainedKvCache :=
  let outcome := request.op.program request.deny s 0
  (outcome.1,outcome.2.1)

/-- The owner after a sequence of calls, whatever each of them answers. -/
def after (s : RetainedKvCache) (requests : List Request) : RetainedKvCache :=
  requests.foldl (fun s request => (step s request).2) s

lemma after_append (s : RetainedKvCache) (requests more : List Request) :
    after s (requests++more) = after (after s requests) more := foldl_append

/-- The operations of a sequence that succeed. -/
def succeeded (s : RetainedKvCache) : List Request → List Op
  | [] => []
  | request::requests =>
    let rest := succeeded (step s request).2 requests
    if (step s request).1.isOk then request.op::rest else rest

/-- A retained token: its original position with its key row and value row. -/
structure Row where
  position : ℕ
  key : List Float32
  value : List Float32
  deriving DecidableEq

/-- What an operation means for the rows; a closed owner has none. -/
def Op.apply (width : ℕ) : Op → Option (List Row) → Option (List Row)
  | .append pos keys values,rows => rows.map fun rows =>
      rows++(List.range (keys.length/width)).map fun i =>
        ⟨pos+i,row width keys i,row width values i⟩
  | .retain positions _,rows => rows.map fun rows => rows.filter fun row => row.position∈positions
  | .close,_ => none

/-- The owner holds these rows, in the order of their positions. -/
structure Holds (s : RetainedKvCache) (rows : List Row) : Prop where
  live : s.closed=false
  width : 0 < s.width
  keys : s.keys.length=s.capacity*s.width
  values : s.values.length=s.capacity*s.width
  positions : s.positions.length=s.capacity
  length : s.length=rows.length
  fits : rows.length ≤ s.capacity
  ascending : rows.Pairwise fun a b => a.position<b.position
  below : ∀ row∈rows, row.position < s.nextPosition
  bounded : s.nextPosition ≤ s.maximumPosition
  domain : s.maximumPosition ≤ maxPosition
  key : ∀ i (h : i < rows.length), row s.width s.keys i = rows[i].key
  value : ∀ i (h : i < rows.length), row s.width s.values i = rows[i].value
  position : ∀ i (h : i < rows.length), s.positions[i]? = some (BitVec.ofNat 32 rows[i].position)

section
variable {positions : List ℕ} {width n capacity maximumPosition : ℕ} {s : RetainedKvCache}

lemma positionsValid_iff {limit : ℕ} (h : positionsValid positions limit = true) :
    positions.Pairwise (· < ·) ∧ ∀ p∈positions, p<limit := by
  simp only [positionsValid,Bool.and_eq_true,decide_eq_true_eq] at h
  obtain ⟨⟨⟨hne,-⟩,hcha⟩,hlast⟩ := h
  have hsrt := isChain_iff_pairwise.mp hcha
  have hne' : positions ≠ [] := by simpa using hne
  rw [getLastD_eq_getLast?,getLast?_eq_getLast_of_ne_nil hne'] at hlast
  refine ⟨hsrt,fun p hp => ?_⟩
  rw [← dropLast_append_getLast hne'] at hp hsrt
  rcases mem_append.mp hp with hp | hp
  · exact ((pairwise_append.mp hsrt).2.2 p hp _ (mem_singleton_self _)).trans hlast
  · exact mem_singleton.mp hp ▸ hlast

/-- Rows gathered into the front of a buffer. -/
lemma gatherRows_spec {source target : List Float32} {rows : List ℕ} (hs : source.length=n*width)
    (ht : target.length=capacity*width) (hrows : ∀ r∈rows, r<n) (hfit : rows.length ≤ capacity) :
    (gatherRows source width rows target).length = capacity*width ∧ ∀ i (h : i < rows.length),
    row width (gatherRows source width rows target) i = row width source rows[i] := by
  have heach : ∀ r∈rows, (row width source r).length=width := fun r hr =>
    length_row hs (hrows r hr)
  have hlen : (rows.flatMap (row width source)).length=rows.length*width := by
    rw [length_flatMap_const rows heach,mul_comm]
  have hle : 0*width+(rows.flatMap (row width source)).length ≤ target.length := by
    rw [hlen,ht,zero_mul,zero_add]
    exact Nat.mul_le_mul_right width hfit
  have hgat : gatherRows source width rows target =
      splice target (0*width) (rows.flatMap (row width source)) := by
    rw [zero_mul]
    rfl
  rw [hgat]
  refine ⟨(length_splice hle).trans ht,fun i hi => ?_⟩
  rw [row_splice hlen hle,if_pos ⟨i.zero_le,by omega⟩,tsub_zero,row_flatMap heach hi]

lemma getElem?_splice_zero {target source : List α} (h : source.length≤target.length)
    {i : ℕ} (hi : i < source.length) : (splice target 0 source)[i]? = some source[i] := by
  rw [getElem?_splice (by omega),if_pos ⟨i.zero_le,by omega⟩,tsub_zero,getElem?_eq_getElem hi]

lemma empty_eq_ok (h : empty width capacity maximumPosition = .ok s) :
    0<width ∧ s = ⟨replicate (capacity*width) 0,replicate (capacity*width) 0,
      replicate capacity 0,width,capacity,0,0,maximumPosition,false⟩ := by
  obtain ⟨bytes,hbyt,h⟩ := bind_eq_ok.mp h
  obtain ⟨hdims,-⟩ := ite_error_eq_ok.mp hbyt
  refine ⟨?_,(ok_inj h).symm⟩
  omega

/-- A new owner whose first rows are gathered from buffers of `n` rows. -/
lemma holds_gather {nextPosition : ℕ} {sources : List ℕ} (rows : List
    Row) (h : empty width capacity maximumPosition = .ok s) (hk : keys.length=n*width) (hv :
    values.length=n*width) (hsou : ∀ r∈sources, r<n) (hrows : rows.length=sources.length)
    (hposs : positions = rows.map Row.position) (hfit : sources.length ≤ capacity) (hasc :
    positions.Pairwise (· < ·)) (hblw : ∀ p∈positions, p<nextPosition) (hbou :
    nextPosition ≤ maximumPosition) (hdom : maximumPosition ≤ maxPosition)
    (hrow : ∀ i (hi : i < sources.length), rows[i].key = row width keys sources[i] ∧
      rows[i].value = row width values sources[i]) :
    Holds { s with
      keys := gatherRows keys width sources s.keys
      values := gatherRows values width sources s.values
      positions := splice s.positions 0 (positions.map (BitVec.ofNat 32))
      length := positions.length
      nextPosition := nextPosition } rows := by
  obtain ⟨hwd,rfl⟩ := empty_eq_ok h
  subst hposs
  obtain ⟨hkeys,hkey⟩ := gatherRows_spec hk length_replicate hsou hfit
  obtain ⟨hvals,hval⟩ := gatherRows_spec hv length_replicate hsou hfit
  have hlen : ((rows.map Row.position).map (BitVec.ofNat 32)).length ≤
      (replicate capacity (0 : BitVec 32)).length := by
    rw [length_map,length_map,hrows,length_replicate]
    exact hfit
  refine ⟨rfl,hwd,hkeys,hvals,?_,length_map _,hrows.trans_le hfit,?_,fun r hr => ?_,hbou,
    hdom,fun i hi => ?_,fun i hi => ?_,fun i hi => ?_⟩
  · exact (length_splice (by simpa using hlen)).trans length_replicate
  · exact pairwise_map.mp hasc
  · exact hblw _ (mem_map_of_mem hr)
  · exact (hkey i (hrows ▸ hi)).trans (hrow i (hrows ▸ hi)).1.symm
  · exact (hval i (hrows ▸ hi)).trans (hrow i (hrows ▸ hi)).2.symm
  · refine (getElem?_splice_zero hlen (by simpa using hi)).trans ?_
    rw [getElem_map,getElem_map]

end

/-- The rows that construction retains. -/
def retainedRows (keys values : List Float32) (width : ℕ) (retained : List ℕ) : List Row :=
  retained.map fun p => ⟨p,row width keys p,row width values p⟩

lemma holds_fromPrefill {width capacity maximumPosition : ℕ} {retained : List ℕ} {s :
    RetainedKvCache} (h : fromPrefill keys values width retained capacity maximumPosition = .ok s) :
    s.width=width ∧ Holds s (retainedRows keys values width retained) := by
  obtain ⟨bytes,-,h⟩ := bind_eq_ok.mp h
  obtain ⟨hshp,h⟩ := ite_error_eq_ok.mp h
  obtain ⟨hsel,h⟩ := ite_error_eq_ok.mp h
  obtain ⟨cache,hcac,h⟩ := bind_eq_ok.mp h
  obtain rfl := ok_inj h
  push Not at hshp hsel
  obtain ⟨-,hvals,hmod,-,-,hdom⟩ := hshp
  obtain ⟨-,hbou,hfit,hvld,-⟩ := hsel
  obtain ⟨hasc,hblw⟩ := positionsValid_iff (by simpa using hvld)
  have hk : keys.length=keys.length/width*width := (Nat.div_mul_cancel (Nat.dvd_of_mod_eq_zero hmod)).symm
  refine ⟨(congrArg RetainedKvCache.width (empty_eq_ok hcac).2),?_⟩
  refine holds_gather (retainedRows keys values width retained) hcac hk
    (hvals ▸ hk) hblw (by simp [retainedRows]) ?_ hfit hasc hblw hbou hdom ?_
  · rw [retainedRows,map_map]
    exact (map_id _).symm
  · exact fun i hi => by simp [retainedRows]

section
variable {s : RetainedKvCache} {rows : List Row}

lemma Holds.take_positions (hs : Holds s rows) :
    s.positions.take s.length = rows.map fun row => BitVec.ofNat 32 row.position := by
  apply ext_getElem?
  intro i
  rw [getElem?_take,getElem?_map,hs.length]
  by_cases hi : i < rows.length
  · rw [if_pos hi,hs.position i hi,getElem?_eq_getElem hi,Option.map_some]
  · rw [if_neg hi,getElem?_eq_none (not_lt.mp hi),Option.map_none]

lemma Holds.position_lt (hs : Holds s rows) {r : Row} (hr : r∈rows) : r.position<2^32 := by
  have h1 := hs.below r hr
  have h2 := hs.bounded
  have h3 := hs.domain
  simp only [maxPosition] at h3
  omega

lemma Holds.find_eq_some (hs : Holds s rows) {p i : ℕ} (hp : p<2^32) : find (s.positions.take
    s.length) (BitVec.ofNat 32 p) = some i ↔ rows[i]?.map Row.position = some p := by
  rw [hs.take_positions,find,idxOf?_eq_some_iff]
  have hinj : ∀ r∈rows, BitVec.ofNat 32 r.position=BitVec.ofNat 32 p ↔ r.position=p := by
    intro r hr
    have hlt := hs.position_lt hr
    rw [← BitVec.toNat_inj,BitVec.toNat_ofNat,BitVec.toNat_ofNat,Nat.mod_eq_of_lt hlt,
      Nat.mod_eq_of_lt hp]
  constructor
  · rintro ⟨hi,heq,-⟩
    rw [length_map] at hi
    rw [getElem_map] at heq
    rw [getElem?_eq_getElem hi,Option.map_some,(hinj _ (getElem_mem hi)).mp heq]
  · intro h
    obtain ⟨r,hr,rfl⟩ := Option.map_eq_some_iff.mp h
    obtain ⟨hi,rfl⟩ := List.getElem?_eq_some_iff.mp hr
    refine ⟨by simpa using hi,by rw [getElem_map],fun j hj heq => ?_⟩
    rw [getElem_map] at heq
    have hlt := pairwise_iff_getElem.mp hs.ascending j i (hj.trans hi) hi hj
    rw [hinj _ (getElem_mem _)] at heq
    omega

lemma forall₂_congr_mem {R S : α → β → Prop} {xs : List α} {ys : List β}
    (h : ∀ x∈xs, ∀ y, R x y ↔ S x y) : Forall₂ R xs ys ↔ Forall₂ S xs ys := by
  induction xs generalizing ys with
  | nil => rw [forall₂_nil_left_iff,forall₂_nil_left_iff]
  | cons x xs ih =>
    have hrest := fun ys => @ih ys fun y hy => h y (mem_cons_of_mem _ hy)
    simp only [forall₂_cons_left_iff,h x mem_cons_self,hrest]

lemma Holds.slots_eq_ok (hs : Holds s rows) {positions slots : List ℕ} :
    s.slots positions = .ok slots ↔ positionsValid positions s.nextPosition = true ∧
      Forall₂ (fun p i => rows[i]?.map Row.position = some p) positions slots := by
  have hlive : s.live = .ok () := by rw [RetainedKvCache.live,hs.live]; rfl
  rw [RetainedKvCache.slots,hlive,ok_bind,ite_error_eq_ok,mapM_eq_ok]
  simp only [Bool.not_eq_true,Bool.not_eq_false']
  refine and_congr_right fun hvld => ?_
  have hblw := (positionsValid_iff hvld).2
  refine forall₂_congr_mem fun p hp i => ?_
  have h1 := hblw p hp
  have h2 := hs.bounded
  have h3 := hs.domain
  simp only [maxPosition] at h3
  rw [← hs.find_eq_some (by omega)]
  cases find (s.positions.take s.length) (BitVec.ofNat 32 p) with
  | none => simp
  | some slot => simp

lemma Holds.active (hs : Holds s rows) : s.active = .ok (rows.flatMap Row.key,
    rows.flatMap Row.value,rows.map fun row => BitVec.ofNat 32 row.position) := by
  have hlive : s.live = .ok () := by rw [RetainedKvCache.live,hs.live]; rfl
  have hflat : ∀ (xs : List Float32) (part : Row → List Float32), (∀ i (h : i < rows.length), row
      s.width xs i = part rows[i]) → xs.take (s.length*s.width) = rows.flatMap part := by
    intro xs part hpart
    have hsli := slice_rows s.width 0 s.length xs
    rw [zero_mul,slice,drop_zero] at hsli
    rw [hsli,hs.length,flatMap_def]
    congr 1
    apply ext_getElem
    · simp
    · intro i hi hi'
      rw [getElem_map,getElem_map,getElem_range,zero_add]
      exact hpart i (by simpa using hi')
  rw [RetainedKvCache.active,hlive,ok_bind,hflat _ _ hs.key,hflat _ _ hs.value,hs.take_positions]
  rfl

lemma Holds.eq_of_position (hs : Holds s rows) {a b : Row} (ha : a∈rows) (hb : b∈rows)
    (h : a.position=b.position) : a=b := by
  obtain ⟨i,hi,rfl⟩ := getElem_of_mem ha
  obtain ⟨j,hj,rfl⟩ := getElem_of_mem hb
  have hpair := pairwise_iff_getElem.mp hs.ascending
  rcases lt_trichotomy i j with hlt | rfl | hlt
  · have := hpair i j hi hj hlt
    omega
  · rfl
  · have := hpair j i hj hi hlt
    omega

lemma outcome_copyInto {get : RetainedKvCache → List α} {set : List α →
    RetainedKvCache → RetainedKvCache} {start : ℕ} {source : List α} {good : β
    → RetainedKvCache → Prop} {bad : RetainedKvCache → Prop} {f : Unit → Exec Fault RetainedKvCache
    β} (h : start+source.length ≤ (get t).length) (hf : Outcome (f ()) (set (splice (get t) start
    source) t) good bad) : Outcome (copyInto get set start source >>= f) t good bad := by
  intro deny k
  simp only [copyInto,wp_bind,wp_require,wp_modify]
  exact ⟨fun _ => hf deny k,fun hn => absurd h hn⟩

lemma outcome_appendInPlace (hs : Holds s rows) (pos : ℕ) (keys values : List Float32) :
    Outcome (appendInPlace pos keys values) s
      (fun _ t => s.append pos keys values = .ok t) fun t => t=s := by
  have hlive : s.live = .ok () := by rw [RetainedKvCache.live,hs.live]; rfl
  refine .read (.ofExcept rfl fun _ _ => .require rfl fun hshp => .require rfl fun hroom => ?_)
  have happ : s.append pos keys values = .ok { s with
      keys := splice s.keys (s.length*s.width) keys
      values := splice s.values (s.length*s.width) values
      positions := splice s.positions s.length ((range (keys.length/s.width)).map fun offset =>
        BitVec.ofNat 32 (pos+offset))
      length := s.length+keys.length/s.width
      nextPosition := s.nextPosition+keys.length/s.width } := by
    rw [RetainedKvCache.append,hlive,if_neg hshp]
    exact if_neg hroom
  push Not at hshp hroom
  obtain ⟨-,-,hvals,hmod⟩ := hshp
  have hkeys : keys.length=keys.length/s.width*s.width :=
    (Nat.div_mul_cancel (Nat.dvd_of_mod_eq_zero hmod)).symm
  have hfit : s.length+keys.length/s.width ≤ s.capacity := by
    have h1 := hs.length
    have h2 := hs.fits
    omega
  have hrows := Nat.mul_le_mul_right s.width hfit
  rw [add_mul,← hkeys] at hrows
  refine outcome_copyInto (by rw [hs.keys]; exact hrows) ?_
  refine outcome_copyInto (by rw [← hvals]; exact hrows.trans_eq hs.values.symm) ?_
  refine Outcome.bind (Outcome.forRange (fun n t => t = { s with
      keys := splice s.keys (s.length*s.width) keys
      values := splice s.values (s.length*s.width) values
      positions := splice s.positions s.length ((range n).map fun offset =>
        BitVec.ofNat 32 (pos+offset)) }) ?_ ?_) ?_
  · simp [splice]
  · rintro n hn _ rfl
    have hlen : s.length+((range n).map fun offset =>
        BitVec.ofNat 32 (pos+offset)).length ≤ s.positions.length := by
      rw [length_map,length_range,hs.positions]
      omega
    have hnext := splice_splice [BitVec.ofNat 32 (pos+n)] hlen
    rw [length_map,length_range] at hnext
    intro deny k
    simp only [copyInto,wp_bind,wp_require,wp_modify]
    refine ⟨fun _ => ?_,fun hbd => absurd ?_ hbd⟩
    · rw [range_succ,map_append,map_singleton,← hnext]
    · rw [length_splice hlen,length_singleton,hs.positions]
      omega
  · rintro _ _ rfl
    exact .modify fun _ _ => happ

lemma holds_append (hs : Holds s rows) {pos : ℕ} (h : s.append pos keys values = .ok t) :
    (t.width=s.width ∧ s.nextPosition≤t.nextPosition) ∧
      Holds t (rows++(range (keys.length/s.width)).map fun i =>
        ⟨pos+i,row s.width keys i,row s.width values i⟩) := by
  obtain ⟨_,-,h⟩ := bind_eq_ok.mp h
  obtain ⟨hshp,h⟩ := ite_error_eq_ok.mp h
  obtain ⟨hroom,h⟩ := ite_error_eq_ok.mp h
  obtain rfl := ok_inj h
  push Not at hshp hroom
  obtain ⟨rfl,-,hvals,hmod⟩ := hshp
  obtain ⟨hcap,hmax,-⟩ := hroom
  obtain ⟨n,hn⟩ : ∃ n, n=keys.length/s.width := ⟨_,rfl⟩
  have hkeys : keys.length=n*s.width := by
    rw [hn]
    exact (Nat.div_mul_cancel (Nat.dvd_of_mod_eq_zero hmod)).symm
  rw [← hn] at hcap hmax ⊢
  have hleng := hs.length
  have hfits := hs.fits
  have hbou := hs.bounded
  have hrows := Nat.mul_le_mul_right s.width (show s.length+n ≤ s.capacity by omega)
  rw [add_mul] at hrows
  have hk : s.length*s.width+keys.length ≤ s.keys.length := by rw [hs.keys,hkeys]; exact hrows
  have hv : s.length*s.width+values.length ≤ s.values.length := by
    rw [hs.values,← hvals,hkeys]; exact hrows
  have hp : s.length+((range n).map fun offset =>
      BitVec.ofNat 32 (s.nextPosition+offset)).length ≤ s.positions.length := by
    rw [length_map,length_range,hs.positions]
    omega
  have hkrow := row_splice hkeys hk
  have hvrow := row_splice (hvals ▸ hkeys) hv
  refine ⟨⟨rfl,le_self_add⟩,hs.live,hs.width,?_,?_,?_,?_,?_,?_,?_,?_,hs.domain,?_,?_,?_⟩
  · exact (length_splice hk).trans hs.keys
  · exact (length_splice hv).trans hs.values
  · exact (length_splice hp).trans hs.positions
  · simp [hleng]
  · simp only [length_append,length_map,length_range]
    omega
  · refine pairwise_append.mpr ⟨hs.ascending,?_,fun a ha b hb => ?_⟩
    · refine pairwise_map.mpr (pairwise_lt_range.imp fun hlt => ?_)
      exact Nat.add_lt_add_left hlt _
    · obtain ⟨i,-,rfl⟩ := mem_map.mp hb
      exact (hs.below a ha).trans_le le_self_add
  · intro a ha
    rcases mem_append.mp ha with hold | hnew
    · exact (hs.below a hold).trans_le le_self_add
    · obtain ⟨i,hi,rfl⟩ := mem_map.mp hnew
      exact Nat.add_lt_add_left (mem_range.mp hi) _
  · simp only
    omega
  · intro i hi
    refine (hkrow i).trans ?_
    rw [length_append,length_map,length_range] at hi
    by_cases hold : i < rows.length
    · rw [if_neg (by omega),getElem_append_left hold]
      exact hs.key i hold
    · rw [if_pos (by omega),getElem_append_right (by omega),getElem_map,getElem_range,hleng]
  · intro i hi
    refine (hvrow i).trans ?_
    rw [length_append,length_map,length_range] at hi
    by_cases hold : i < rows.length
    · rw [if_neg (by omega),getElem_append_left hold]
      exact hs.value i hold
    · rw [if_pos (by omega),getElem_append_right (by omega),getElem_map,getElem_range,hleng]
  · intro i hi
    refine (getElem?_splice hp i).trans ?_
    rw [length_append,length_map,length_range] at hi
    rw [length_map,length_range]
    by_cases hold : i < rows.length
    · rw [if_neg (by omega),getElem_append_left hold]
      exact hs.position i hold
    · rw [if_pos (by omega),getElem_append_right (by omega),getElem_map,
        getElem_range,hleng,getElem?_map,getElem?_range (by omega),Option.map_some]

lemma holds_retain (hs : Holds s rows) {positions : List ℕ} {capacity : ℕ}
    (h : s.retain positions capacity = .ok t) : (t.width=s.width ∧ t.nextPosition=s.nextPosition) ∧
    Holds t (rows.filter fun row => row.position∈positions) := by
  obtain ⟨slots,hsls,h⟩ := bind_eq_ok.mp h
  obtain ⟨hcap,h⟩ := ite_error_eq_ok.mp h
  obtain ⟨next,hnext,h⟩ := bind_eq_ok.mp h
  obtain rfl := ok_inj h
  obtain ⟨hvld,hall⟩ := hs.slots_eq_ok.mp hsls
  obtain ⟨hasc,hblw⟩ := positionsValid_iff hvld
  have hfou : ∀ i (hi : i<positions.length) (hi' : i < slots.length),
      ∃ hslot : slots[i] < rows.length, rows[slots[i]].position=positions[i] := by
    intro i hi hi'
    obtain ⟨r,hr,heq⟩ := Option.map_eq_some_iff.mp (hall.get hi hi')
    obtain ⟨hslot,rfl⟩ := List.getElem?_eq_some_iff.mp hr
    exact ⟨hslot,heq⟩
  have hlen := hall.length_eq
  have hposs : positions=(rows.filter fun row => row.position∈positions).map Row.position := by
    refine hasc.sortedLT.eq_of_mem_iff (List.Pairwise.sortedLT ?_) fun p => ?_
    · exact pairwise_map.mpr (hs.ascending.filter _)
    · simp only [mem_map,mem_filter,decide_eq_true_eq]
      constructor
      · intro hp
        obtain ⟨i,hi,rfl⟩ := getElem_of_mem hp
        obtain ⟨hslot,heq⟩ := hfou i hi (hlen ▸ hi)
        exact ⟨_,⟨getElem_mem hslot,heq ▸ hp⟩,heq⟩
      · rintro ⟨r,⟨-,hr⟩,rfl⟩
        exact hr
  have hfil := congrArg List.length hposs
  rw [length_map] at hfil
  have hwd : next.width=s.width := by rw [(empty_eq_ok hnext).2]
  refine ⟨⟨hwd,rfl⟩,?_⟩
  refine holds_gather (n := s.capacity) _ hnext hs.keys hs.values (fun i hi => ?_)
    (hfil.symm.trans hlen) hposs ?_ hasc hblw hs.bounded hs.domain fun i hi => ?_
  · obtain ⟨j,hj,rfl⟩ := getElem_of_mem hi
    obtain ⟨hslot,-⟩ := hfou j (hlen.symm ▸ hj) hj
    exact hslot.trans_le hs.fits
  · omega
  · have hi' : i<positions.length := hlen.symm ▸ hi
    have hif : i < (rows.filter fun row => row.position∈positions).length := hfil ▸ hi'
    obtain ⟨hslot,heq⟩ := hfou i hi' hi
    have hsame : (rows.filter fun row => row.position∈positions)[i]=rows[slots[i]] := by
      refine hs.eq_of_position (mem_of_mem_filter (getElem_mem hif)) (getElem_mem hslot) ?_
      rw [heq]
      have hget := congrArg (·[i]?) hposs
      simp only [getElem?_map,getElem?_eq_getElem hi',getElem?_eq_getElem hif,
        Option.map_some,Option.some.injEq] at hget
      exact hget.symm
    rw [hsame]
    exact ⟨(hs.key _ hslot).symm,(hs.value _ hslot).symm⟩

lemma outcome_retainInPlace (positions : List ℕ) (capacity : ℕ) : Outcome (retainInPlace
    positions capacity) s (fun _ t => s.retain positions capacity = .ok t) fun t => t=s := by
  refine .read (.ofExcept rfl fun next hnext => ?_)
  refine .request rfl (.request rfl (.request rfl fun _ _ => ?_))
  exact mapError_eq_ok.mp hnext

end

/-- The owner agrees with the abstract state: its rows, or closed. -/
def Represents (s : RetainedKvCache) (width : ℕ) : Option (List Row) → Prop
  | some rows => Holds s rows ∧ s.width=width
  | none => s.closed=true

section
variable {s : RetainedKvCache} {width : ℕ}

lemma live_eq_error (h : s.closed=true) : s.live = .error "retained KV state is closed" := by
  rw [RetainedKvCache.live,h]
  rfl

lemma outcome_closed (h : s.closed=true) (op : Op) (hop : op ≠ .close) :
    Outcome op.program s (fun _ _ => False) fun t => t=s := by
  cases op with
  | append pos keys values =>
    refine .read (.ofExcept rfl fun _ hlive => ?_)
    rw [live_eq_error h] at hlive
    cases hlive
  | retain positions capacity =>
    refine .read (.ofExcept rfl fun _ hret => ?_)
    rw [RetainedKvCache.retain,RetainedKvCache.slots,live_eq_error h] at hret
    cases hret
  | close => exact absurd rfl hop

lemma step_closed (h : s.closed=true) (request : Request) :
    (step s request).2.closed = true ∧ ((step s request).1.isOk = false → (step s request).2 = s) := by
  by_cases hop : request.op = .close
  · simp only [step,hop]
    exact ⟨rfl,fun hok => by cases hok⟩
  · have hout := outcome_closed h request.op hop
    unfold step
    rcases hrun : request.op.program request.deny s 0 with ⟨_ | _,t,k⟩
    · obtain rfl : t=s := hout.error hrun
      exact ⟨h,fun _ => rfl⟩
    · exact (hout.ok hrun).elim

/-- One call on an open owner: it applies the operation, or fails and changes nothing. -/
lemma step_holds {rows : List Row} (hs : Holds s rows) (request : Request) :
    ((step s request).1.isOk = true →
      Represents (step s request).2 s.width (request.op.apply s.width (some rows)))
    ∧ ((step s request).2.closed = false → s.nextPosition ≤ (step s request).2.nextPosition)
    ∧ ((step s request).1.isOk = false → (step s request).2 = s) := by
  obtain ⟨op,reserve⟩ := request
  cases op with
  | append pos keys values =>
    have h := outcome_appendInPlace hs pos keys values
    simp only [step,Op.program]
    rcases hrun : appendInPlace pos keys values
      (Request.deny ⟨.append pos keys values,reserve⟩) s 0 with ⟨_ | _,t,k⟩
    · obtain rfl : t=s := h.error hrun
      exact ⟨fun hok => (by cases hok),fun _ => le_rfl,fun _ => rfl⟩
    · obtain ⟨⟨hwd,hnext⟩,hhol⟩ := holds_append hs (h.ok hrun)
      exact ⟨fun _ => ⟨hhol,hwd⟩,fun _ => hnext,fun hok => by cases hok⟩
  | retain positions capacity =>
    have h := @outcome_retainInPlace s positions capacity
    simp only [step,Op.program]
    rcases hrun : retainInPlace positions capacity
      (Request.deny ⟨.retain positions capacity,reserve⟩) s 0 with ⟨_ | _,t,k⟩
    · obtain rfl : t=s := h.error hrun
      exact ⟨fun hok => (by cases hok),fun _ => le_rfl,fun _ => rfl⟩
    · obtain ⟨⟨hwd,hnext⟩,hhol⟩ := holds_retain hs (h.ok hrun)
      exact ⟨fun _ => ⟨hhol,hwd⟩,fun _ => hnext.ge,fun hok => by cases hok⟩
  | close => exact ⟨fun _ => rfl,fun h => (by cases h),fun hok => by cases hok⟩

variable {model : Option (List Row)}

lemma step_represents (hs : Represents s width model) (request : Request) : ((step s request).1.isOk
    = true → Represents (step s request).2 width (request.op.apply width model)) ∧
    ((step s request).2.closed = false → s.nextPosition ≤ (step s request).2.nextPosition) ∧
    ((step s request).1.isOk = false → (step s request).2 = s) := by
  cases model with
  | some rows =>
    obtain ⟨hs,rfl⟩ := hs
    exact step_holds hs request
  | none =>
    obtain ⟨hclo,herr⟩ := step_closed hs request
    refine ⟨fun _ => ?_,fun hopen => ?_,herr⟩
    · have hnone : request.op.apply width none=none := by cases request.op <;> rfl
      rw [hnone]
      exact hclo
    · rw [hclo] at hopen
      cases hopen

/-- A run carries the abstract state along; only a close lets the next position fall. -/
lemma after_represents (hs : Represents s width model) (requests : List Request) : Represents (after
    s requests) width ((succeeded s requests).foldl (fun rows op => op.apply width rows) model) ∧
    ((after s requests).closed = false → s.nextPosition ≤ (after s requests).nextPosition) := by
  induction requests generalizing s model with
  | nil => exact ⟨hs,fun _ => le_rfl⟩
  | cons request requests ih =>
    obtain ⟨hok,hnext,herr⟩ := step_represents hs request
    rw [after,foldl_cons,← after,succeeded]
    have hstay : ∀ (requests : List Request) (t : RetainedKvCache), t.closed=true →
        (after t requests).closed = true := by
      intro requests
      induction requests with
      | nil => exact fun t ht => ht
      | cons r requests ih => exact fun t ht => ih _ (step_closed ht r).1
    cases hcase : (step s request).1.isOk with
    | true =>
      obtain ⟨hrep,hmono⟩ := ih (hok hcase)
      refine ⟨hrep,fun hopen => (hnext ?_).trans (hmono hopen)⟩
      by_contra hclo
      rw [hstay requests _ (by simpa using hclo)] at hopen
      cases hopen
    | false =>
      have heq := herr hcase
      rw [heq]
      simpa using ih hs

end

/-- Over every run of calls the active part is the list of rows that construction, the successful
appends and the successful compactions leave, in ascending order of position and within the capacity;
`slots` finds the one row at each position; the next position does not fall until the close; and a
call that fails changes nothing. -/
theorem active_after (keys values : List Float32) (width : ℕ) (retained : List ℕ) (capacity
    maximumPosition : ℕ) (s : RetainedKvCache) (h : fromPrefill keys values width retained capacity
    maximumPosition = .ok s) (requests : List Request) :
    (match (succeeded s requests).foldl (fun rows op => op.apply width rows)
        (some (retainedRows keys values width retained)) with
      | some rows =>
        (after s requests).active = .ok (rows.flatMap Row.key,rows.flatMap Row.value,
          rows.map fun row => BitVec.ofNat 32 row.position)
        ∧ rows.Pairwise (fun a b => a.position<b.position)
        ∧ (∀ row∈rows, row.position<2^32)
        ∧ rows.length ≤ (after s requests).capacity
        ∧ (∀ i (hi : i < rows.length), (after s requests).slots [rows[i].position] = .ok [i])
        ∧ ∀ positions slots, (after s requests).slots positions = .ok slots ↔
          positionsValid positions (after s requests).nextPosition = true ∧
            Forall₂ (fun p i => rows[i]?.map Row.position = some p) positions slots
      | none => (after s requests).active = .error "retained KV state is closed")
    ∧ (∀ more, (after s (requests++more)).closed = false →
        (after s requests).nextPosition ≤ (after s (requests++more)).nextPosition)
    ∧ ∀ request e, (step (after s requests) request).1 = .error e →
        (step (after s requests) request).2 = after s requests := by
  obtain ⟨hwd,hhol⟩ := holds_fromPrefill h
  have hrep := (@after_represents _ _ (some _) ⟨hhol,hwd⟩ requests).1
  refine ⟨?_,fun more hopen => ?_,fun request e he => ?_⟩
  · split
    · next rows hrows =>
      rw [hrows] at hrep
      have hs := hrep.1
      refine ⟨hs.active,hs.ascending,fun row hr => hs.position_lt hr,hs.fits,fun i hi => ?_,
        fun _ _ => hs.slots_eq_ok⟩
      rw [hs.slots_eq_ok]
      have hblw := hs.below _ (getElem_mem hi)
      refine ⟨by simp [positionsValid,maxRows,hblw],.cons ?_ .nil⟩
      rw [getElem?_eq_getElem hi,Option.map_some]
    · next hrows =>
      rw [hrows] at hrep
      have hclo : (after s requests).closed=true := hrep
      rw [RetainedKvCache.active,live_eq_error hclo,error_bind]
  · rw [after_append] at hopen ⊢
    exact (after_represents hrep more).2 hopen
  · exact (step_represents hrep request).2.2 (by rw [he]; rfl)

/-- Rows 0 and 2 of three are retained; position 3 is appended, a second append finds no room, and a
compaction keeps positions 2 and 3. -/
theorem active_after_at :
    let s : RetainedKvCache := ⟨[1,3,0],[4,6,0],[0,2,0],1,3,2,3,8,false⟩
    let requests : List Request := [⟨.append 3 [7] [8],fun _ => true⟩,⟨.append 4 [9] [9],fun _ => true⟩,
      ⟨.retain [2,3] 2,fun _ => true⟩]
    fromPrefill [1,2,3] [4,5,6] 1 [0,2] 3 8 = .ok s ∧
      (after s requests).active = .ok ([3,7],[6,8],[2,3]) := by
  intro s requests
  have hs : fromPrefill [1,2,3] [4,5,6] 1 [0,2] 3 8 = .ok s := by decide +kernel
  have hrows : (succeeded s requests).foldl (fun rows op => op.apply 1 rows)
      (some (retainedRows [1,2,3] [4,5,6] 1 [0,2])) = some [⟨2,[3],[6]⟩,⟨3,[7],[8]⟩] := by
    decide +kernel
  have h := (active_after [1,2,3] [4,5,6] 1 [0,2] 3 8 s hs requests).1
  rw [hrows] at h
  exact ⟨hs,h.1⟩

end RetainedKvCache
end Pllm.Retained
