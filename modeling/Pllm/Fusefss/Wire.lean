import Pllm.Fusefss.PredicatesWire
import Pllm.Lib.Probing

/-! The replay ledger of imports: a linear one, an indexed one in memory, and an indexed one in a
private file. -/
namespace Pllm.Fusefss.Wire
open Nat List
open Predicates (Budget)

abbrev Error := Predicates.Error

/-- The 33 bytes of a claim: nonce, then recipient tag. -/
structure Record where
  nonce : BitVec 256
  tag : BitVec 8
  deriving DecidableEq

def Record.empty : Record := ⟨0,0⟩

/-- The first two little endian words of the digest of a claim. -/
abbrev Digest := Record → BitVec 64 × BitVec 64

def maxAllocationBytes : ℕ := 64*1024*1024
def maxIndexedFileDiskBytes : ℕ := 4*2^30
def recordBytes : ℕ := 33

structure ImportGuardLayout where
  capacity : ℕ
  slots : ℕ
  reservationBytes : ℕ

def indexedSlots (capacity : ℕ) : Except Error ℕ :=
  if capacity=0 then .error .resource
  else if capacity*2≥2^64 then .error .resource
  else if 2^Nat.clog 2 (capacity*2)≥2^64 then .error .resource
  else .ok (2^Nat.clog 2 (capacity*2))

def indexedProbes (digest : Digest) (claim : Record) (slots : ℕ) : ℕ × ℕ :=
  let mask := slots-1
  ((digest claim).1.toNat &&& mask,((digest claim).2.toNat ||| 1) &&& mask)

namespace ImportGuardLayout

def legacy (capacity : ℕ) : Except Error ImportGuardLayout :=
  if ¬(1 ≤ capacity ∧ capacity≤4096) then .error .resource
  else .ok ⟨capacity,capacity,capacity*33⟩

/-- `guardBytes` is the size of the guard itself. -/
def forRequests (guardBytes capacity : ℕ) : Except Error ImportGuardLayout := do
  let slots ← indexedSlots capacity
  let bytes := slots*33+guardBytes
  if bytes>maxAllocationBytes then .error .resource else .ok ⟨capacity,slots,bytes⟩

def indexed (self : ImportGuardLayout) : Bool := self.slots != self.capacity

end ImportGuardLayout

structure IndexedFileResources where
  residentBytes : ℕ
  diskBytes : ℕ

def resources (guardBytes capacity : ℕ) : Except Error IndexedFileResources := do
  let slots ← indexedSlots capacity
  if slots*recordBytes>maxIndexedFileDiskBytes then .error .resource
  else .ok ⟨guardBytes,slots*recordBytes⟩

/-- What the system answers during one call, from the records of the file and a byte offset;
`none` is an error. -/
structure Io where
  metadata : List Record → Option ℕ
  read : List Record → ℕ → Option Record
  write : List Record → ℕ → Record → Option (List Record)

/-- A system on which every operation succeeds. -/
def Io.sound : Io where
  metadata records := some (records.length*recordBytes)
  read records offset := records[offset/recordBytes]?
  write records offset record :=
    if offset/recordBytes < records.length then some (records.set (offset/recordBytes) record)
    else none

structure Ledger where
  file : Option (List Record)
  diskBytes : ℕ

namespace Ledger

def new (diskBytes : ℕ) (created : Bool) : Except Error Ledger :=
  if ¬created then .error .resource
  else .ok ⟨some (List.replicate (diskBytes/recordBytes) .empty),diskBytes⟩

/-- The probes of one claim. Running out of them is damage, like any other error. -/
def probe (io : Io) (records : List Record) (diskBytes : ℕ) (claim : Record) (slots stride : ℕ)
    (exhausted : Bool) : ℕ → ℕ → Option (Except Error (List Record))
  | 0, _ => none
  | n+1, slot =>
    if slot*recordBytes≥2^64 ∨ slot*recordBytes>diskBytes-recordBytes then none
    else do
      let entry ← io.read records (slot*recordBytes)
      if entry.tag=0 then
        if entry.nonce≠0 then none
        else if exhausted then some (.error .resource)
        else do
          let records ← io.write records (slot*recordBytes) claim
          some (.ok records)
      else if entry.tag>2 then none
      else if entry=claim then some (.error .consumed)
      else probe io records diskBytes claim slots stride exhausted n ((slot+stride) &&& (slots-1))

/-- The decision of the table, or `none` on any error of the file. -/
def tryClaim (digest : Digest) (io : Io) (records : List Record) (diskBytes : ℕ) (claim : Record)
    (slots : ℕ) (exhausted : Bool) : Option (Except Error (List Record)) := do
  let length ← io.metadata records
  if length≠diskBytes then none
  else
    let (slot,stride) := indexedProbes digest claim slots
    probe io records diskBytes claim slots stride exhausted slots slot

def claim (digest : Digest) (io : Io) (self : Ledger) (role : ℕ) (nonce : BitVec 256) (slots : ℕ)
    (exhausted : Bool) : Except Error Unit × Ledger :=
  match self.file with
  | none => (.error .consumed,self)
  | some records =>
    if role>1 then (.error .domain,self)
    else
      let write : Record := ⟨nonce,BitVec.ofNat 8 (role+1)⟩
      match tryClaim digest io records self.diskBytes write slots exhausted with
      | some (.ok records) => (.ok (),{ self with file := some records })
      | some (.error e) => (.error e,self)
      | none => (.error .resource,{ self with file := none })

end Ledger

structure ImportGuard where
  claims : List Record
  file : Option Ledger
  layout : ImportGuardLayout
  used : ℕ

namespace ImportGuard

/-- `granted` answers the allocation. -/
def withLayout (layout : ImportGuardLayout) (budget : Budget) (granted : Bool) :
    Except Error ImportGuard := do
  let _ ← budget.reserve layout.reservationBytes
  if ¬granted then .error .allocation
  else .ok {
    claims := if layout.indexed then List.replicate layout.slots .empty else []
    file := none
    layout
    used := 0 }

def new (capacity : ℕ) (budget : Budget) (granted : Bool) : Except Error ImportGuard := do
  let layout ← ImportGuardLayout.legacy capacity
  withLayout layout budget granted

def newIndexed (guardBytes capacity : ℕ) (budget : Budget) (granted : Bool) :
    Except Error ImportGuard := do
  let layout ← ImportGuardLayout.forRequests guardBytes capacity
  withLayout layout budget granted

/-- `created` answers the creation of the file and of its extent. -/
def newIndexedFile (guardBytes capacity maxDiskBytes : ℕ) (budget : Budget)
    (granted created : Bool) : Except Error ImportGuard := do
  let resources ← resources guardBytes capacity
  if maxDiskBytes>maxIndexedFileDiskBytes ∨ resources.diskBytes>maxDiskBytes then
    .error .resource
  else do
    let _ ← budget.reserve resources.residentBytes
    if ¬granted then .error .allocation
    else do
      let file ← Ledger.new resources.diskBytes created
      let slots ← indexedSlots capacity
      .ok ⟨[],some file,⟨capacity,slots,resources.residentBytes⟩,0⟩

def probe (claims : List Record) (claim : Record) (mask stride : ℕ) : ℕ → ℕ → Except Error ℕ
  | 0, _ => .error .resource
  | n+1, slot =>
    let entry := claims.getD slot .empty
    if entry.tag=0 then .ok slot
    else if entry=claim then .error .consumed
    else probe claims claim mask stride n ((slot+stride) &&& mask)

def findSlot (digest : Digest) (self : ImportGuard) (claim : Record) : Except Error ℕ :=
  let mask := self.layout.slots-1
  let (slot,stride) := indexedProbes digest claim self.layout.slots
  probe self.claims claim mask stride self.layout.slots slot

/-- A claim on the table in memory, behind the check of the role. -/
def claimMemory (digest : Digest) (self : ImportGuard) (role : ℕ) (nonce : BitVec 256) :
    Except Error ImportGuard :=
  if ¬self.layout.indexed then
    let claim : Record := ⟨nonce,BitVec.ofNat 8 role⟩
    if claim∈self.claims then .error .consumed
    else if self.used=self.layout.capacity then .error .resource
    else .ok { self with claims := self.claims++[claim], used := self.used+1 }
  else do
    let claim : Record := ⟨nonce,BitVec.ofNat 8 (role+1)⟩
    let slot ← self.findSlot digest claim
    if self.used=self.layout.capacity then .error .resource
    else .ok { self with claims := self.claims.set slot claim, used := self.used+1 }

def claim (digest : Digest) (io : Io) (self : ImportGuard) (role : ℕ) (nonce : BitVec 256) :
    Except Error Unit × ImportGuard :=
  match self.file with
  | some file =>
    let (result,file) :=
      file.claim digest io role nonce self.layout.slots (self.used=self.layout.capacity)
    match result with
    | .error e => (.error e,{ self with file := some file })
    | .ok () => (.ok (),{ self with file := some file, used := self.used+1 })
  | none =>
    if role>1 then (.error .domain,self)
    else
      match self.claimMemory digest role nonce with
      | .error e => (.error e,self)
      | .ok self => (.ok (),self)

end ImportGuard

/-- One claim, with what the system answers during it. -/
structure Call where
  role : ℕ
  nonce : BitVec 256
  io : Io

def Call.pair (c : Call) : ℕ × BitVec 256 := (c.role,c.nonce)

def ImportGuard.call (digest : Digest) (self : ImportGuard) (c : Call) :
    Except Error Unit × ImportGuard :=
  self.claim digest c.io c.role c.nonce

def ImportGuard.verdicts (digest : Digest) (self : ImportGuard) : List Call → List (Except Error Unit)
  | [] => []
  | c::cs => (self.call digest c).1::(self.call digest c).2.verdicts digest cs

def ImportGuard.after (digest : Digest) (self : ImportGuard) : List Call → ImportGuard
  | [] => self
  | c::cs => (self.call digest c).2.after digest cs

/-- The pairs of the successful calls, the last one first. -/
def successes (calls : List Call) (verdicts : List (Except Error Unit)) : List (ℕ × BitVec 256) :=
  ((calls.zip verdicts).filterMap fun cv =>
    match cv.2 with
    | .ok () => some cv.1.pair
    | .error _ => none).reverse

def ImportGuard.accepted (digest : Digest) (self : ImportGuard) (calls : List Call) :
    List (ℕ × BitVec 256) :=
  successes calls (self.verdicts digest calls)

/-! Every claim of a guard, linear, indexed or in a file, is decided as on the plain list of the
pairs accepted before. -/
open Pllm.Lib Pllm.Lib.Probing

def start (digest : Digest) (slots : ℕ) (r : Record) : ℕ := (indexedProbes digest r slots).1

def next (digest : Digest) (slots : ℕ) (r : Record) (slot : ℕ) : ℕ :=
  (slot+(indexedProbes digest r slots).2) &&& (slots-1)

/-- The places a claim is looked for at, in order. -/
def place (digest : Digest) (slots : ℕ) (r : Record) (i : ℕ) : ℕ :=
  (next digest slots r)^[i] (start digest slots r)

section Geometry
variable (digest : Digest) (r : Record) (k : ℕ)

lemma start_lt : start digest (2^k) r < 2^k := by
  simp only [start,indexedProbes,and_two_pow_sub_one_eq_mod]
  exact mod_lt _ (by positivity)

lemma next_eq : next digest (2^k) r = fun slot => (slot+(indexedProbes digest r (2^k)).2)%2^k := by
  ext slot
  simp only [next,and_two_pow_sub_one_eq_mod]

lemma stride_coprime : Coprime (2^(k+1)) (indexedProbes digest r (2^(k+1))).2 := by
  apply Coprime.pow_left
  rw [coprime_two_left,odd_iff]
  simp only [indexedProbes,and_two_pow_sub_one_eq_mod]
  rw [mod_mod_of_dvd _ (dvd_pow_self 2 (succ_ne_zero k)),or_mod_two_eq_one]
  exact .inr rfl

lemma place_lt (i : ℕ) : place digest (2^k) r i < 2^k := by
  rw [place,next_eq,iterate_stride _ _ _ _ (start_lt digest r k)]
  exact mod_lt _ (by positivity)

lemma place_covers {s : ℕ} (hs : s<2^(k+1)) : ∃ i<2^(k+1), place digest (2^(k+1)) r i = s := by
  obtain ⟨i,hi,hval⟩ := stride_covers (stride_coprime digest r k) (start digest (2^(k+1)) r) hs
  refine ⟨i,hi,?_⟩
  rw [place,next_eq,iterate_stride _ _ _ _ (start_lt digest r (k+1)),hval]

end Geometry

lemma indexedSlots_eq_ok {capacity slots : ℕ} (h : indexedSlots capacity = .ok slots) :
    0 < capacity ∧ capacity*2 ≤ slots ∧ ∃ k, slots=2^(k+1) := by
  unfold indexedSlots at h
  split at h
  · cases h
  next hzero =>
    split at h
    · cases h
    · split at h
      · cases h
      · cases h
        have hlog : 0 < clog 2 (capacity*2) := clog_pos (by decide) (by omega)
        refine ⟨by omega,le_pow_clog (by decide) _,clog 2 (capacity*2)-1,?_⟩
        rw [Nat.sub_add_cancel hlog]

/-- What is stored at a place, if anything. -/
def entryAt (records : List Record) (s : ℕ) : Option Record :=
  (records[s]?).bind fun r => if r.tag=0 then none else some r

/-- The record of an accepted pair. -/
def rep (c : ℕ × BitVec 256) : Record := ⟨c.2,BitVec.ofNat 8 (c.1+1)⟩

lemma rep_tag {c : ℕ × BitVec 256} (h : c.1≤1) : (rep c).tag = 1 ∨ (rep c).tag = 2 := by
  have hrole : c.1=0 ∨ c.1=1 := by omega
  rcases hrole with hrole | hrole <;> simp [rep,hrole]

lemma rep_tag_ne_zero {c : ℕ × BitVec 256} (h : c.1≤1) : (rep c).tag ≠ 0 := by
  rcases rep_tag h with ht | ht <;> rw [ht] <;> decide

lemma record_inj {x y : BitVec 256} {m n : ℕ} (hm : m<256) (hn : n<256)
    (h : (⟨x,BitVec.ofNat 8 m⟩ : Record) = ⟨y,BitVec.ofNat 8 n⟩) : x=y ∧ m=n := by
  simp only [Record.mk.injEq] at h
  obtain ⟨hnon,htag⟩ := h
  have hval := congrArg BitVec.toNat htag
  simp only [BitVec.toNat_ofNat] at hval
  rw [mod_eq_of_lt hm,mod_eq_of_lt hn] at hval
  exact ⟨hnon,hval⟩

lemma rep_injective {c d : ℕ × BitVec 256} (hc : c.1≤1) (hd : d.1≤1) (h : rep c = rep d) : c=d := by
  obtain ⟨hnon,hrole⟩ := record_inj (by omega) (by omega) h
  exact Prod.ext (by omega) hnon

/-- The invariant of an indexed table of so many places, over the pairs accepted so far. -/
structure Table (digest : Digest) (slots : ℕ) (records : List Record)
    (pairs : List (ℕ × BitVec 256)) : Prop where
  length : records.length=slots
  power : ∃ k, slots=2^(k+1)
  roles : ∀ c∈pairs, c.1≤1
  free : ∀ r∈records, r.tag=0 → r.nonce=0
  holds : Holds (place digest slots) slots (entryAt records) (pairs.map rep)

variable {digest : Digest} {slots : ℕ} {records : List Record} {pairs : List (ℕ × BitVec 256)}

lemma entryAt_of_lt {s : ℕ} (hs : s < records.length) :
    entryAt records s = if records[s].tag=0 then none else some records[s] := by
  simp only [entryAt,getElem?_eq_getElem hs,Option.bind_some]

lemma table_empty {k : ℕ} : Table digest (2^(k+1)) (replicate (2^(k+1)) .empty) [] := by
  refine ⟨by simp,⟨k,rfl⟩,by simp,by simp [Record.empty],?_⟩
  have hnone : entryAt (replicate (2^(k+1)) .empty)=fun _ => none := by
    ext s : 1
    by_cases hs : s<2^(k+1) <;> simp [entryAt,hs,Record.empty]
  rw [hnone]
  exact holds_empty

section
variable (h : Table digest slots records pairs)
include h

lemma Table.entry {s : ℕ} (hs : s < records.length) :
    records[s].tag=0 ∨ records[s].tag≠0 ∧ ∃ c∈pairs, rep c = records[s] := by
  by_cases hz : records[s].tag=0
  · exact .inl hz
  · refine .inr ⟨hz,?_⟩
    have hat : entryAt records s=some records[s] := by rw [entryAt_of_lt hs,if_neg hz]
    have hmem := (h.holds.stored _).mpr ⟨s,h.length ▸ hs,hat⟩
    simpa using hmem

variable {c : ℕ × BitVec 256}

lemma Table.mem_iff (hc : c.1≤1) : rep c ∈ pairs.map rep ↔ c∈pairs := by
  constructor
  · intro hmem
    obtain ⟨d,hd,heq⟩ := mem_map.mp hmem
    rwa [← rep_injective (h.roles d hd) hc heq]
  · exact mem_map_of_mem

/-- A search for a new pair ends at a free place, for an accepted one at its record. -/
lemma Table.seek (hc : c.1≤1) (room : pairs.length < slots) :
    (c∈pairs ∧ seek (entryAt records) (next digest slots (rep c)) (rep c) slots
      (start digest slots (rep c)) = .stored) ∨
    (c ∉ pairs ∧ ∃ i < slots, Passed (entryAt records) (place digest slots (rep c)) (rep c) i ∧
      entryAt records (place digest slots (rep c) i)=none ∧
      seek (entryAt records) (next digest slots (rep c)) (rep c) slots
        (start digest slots (rep c)) = .vacant (place digest slots (rep c) i)) := by
  obtain ⟨k,rfl⟩ := h.power
  rw [← h.mem_iff hc]
  exact h.holds.seek (by simpa using room) (rep c) (place_lt digest (rep c) (k+1))
    fun s hs => place_covers digest (rep c) k hs

lemma Table.write (hc : c.1≤1) {i : ℕ} (hi : i < slots) (hpas : Passed (entryAt records) (place
    digest slots (rep c)) (rep c) i) (hnone : entryAt records (place digest slots (rep c) i)=none)
    : Table digest slots (records.set (place digest slots (rep c) i) (rep c)) (c::pairs) := by
  have hlt : place digest slots (rep c) i < slots := by
    obtain ⟨k,rfl⟩ := h.power
    exact place_lt digest (rep c) (k+1) i
  have hset : entryAt (records.set (place digest slots (rep c) i) (rep c)) =
      Function.update (entryAt records) (place digest slots (rep c) i) (some (rep c)) := by
    ext s : 1
    by_cases hat : s=place digest slots (rep c) i
    · subst hat
      rw [Function.update_self,entryAt,getElem?_set_self (by rw [h.length]; exact hlt)]
      exact if_neg (rep_tag_ne_zero hc)
    · rw [Function.update_of_ne hat,entryAt,getElem?_set_ne (Ne.symm hat),entryAt]
  refine ⟨by simp [h.length],h.power,?_,?_,?_⟩
  · intro d hd
    rcases mem_cons.mp hd with rfl | hd
    · exact hc
    · exact h.roles d hd
  · intro r hr hz
    rcases mem_or_eq_of_mem_set hr with hr | rfl
    · exact h.free r hr hz
    · exact absurd hz (rep_tag_ne_zero hc)
  · rw [hset]
    exact h.holds.write hi hlt hpas hnone

end

end Pllm.Fusefss.Wire
