import Pllm.Fusefss.Wire

/-! Runs of a guard, against the list of accepted pairs, and after an error of the file. -/
namespace Pllm.Fusefss.Wire
open Pllm.Lib Pllm.Lib.Probing List Ledger

variable {digest : Digest} {slots : ℕ} {records : List Record} {pairs : List (ℕ × BitVec 256)}

lemma memory_probe (records : List Record) (claim : Record) (mask stride n slot : ℕ) :
    ImportGuard.probe records claim mask stride n slot =
      match seek (entryAt records) (fun s => (s+stride) &&& mask) claim n slot with
      | .vacant s => .ok s
      | .stored => .error .consumed
      | .lost => .error .resource := by
  induction n generalizing slot with
  | zero => rfl
  | succ n ih =>
    simp only [ImportGuard.probe,seek]
    by_cases hin : slot < records.length
    · rw [entryAt_of_lt hin,getD_eq_getElem _ _ hin]
      by_cases hz : records[slot].tag=0
      · simp only [if_pos hz]
      · by_cases heq : records[slot]=claim
        · simp only [if_neg hz,if_pos heq]
        · simp only [if_neg hz,if_neg heq,ih]
    · simp [entryAt,not_lt.mp hin,Record.empty]

lemma file_probe (h : Table digest slots records pairs) (hbyt : slots*recordBytes<2^64)
    (claim : Record) (exhausted : Bool) (n : ℕ) {slot : ℕ} (hin : slot < slots) :
    probe .sound records (slots*recordBytes) claim slots
      (indexedProbes digest claim slots).2 exhausted n slot =
      match seek (entryAt records) (next digest slots claim) claim n slot with
      | .vacant s => if exhausted then some (.error .resource) else some (.ok (records.set s claim))
      | .stored => some (.error .consumed)
      | .lost => none := by
  induction n generalizing slot with
  | zero => rfl
  | succ n ih =>
    have hlt : slot < records.length := h.length ▸ hin
    have hoff : ¬(slot*recordBytes≥2^64 ∨ slot*recordBytes>slots*recordBytes-recordBytes) := by
      simp only [recordBytes] at hbyt ⊢
      omega
    have hdiv : slot*recordBytes/recordBytes=slot := Nat.mul_div_cancel _ (by decide)
    have hnext : next digest slots claim slot < slots := by
      obtain ⟨k,rfl⟩ := h.power
      rw [next_eq]
      exact Nat.mod_lt _ (by positivity)
    simp only [Ledger.probe,if_neg hoff,Io.sound,hdiv,getElem?_eq_getElem hlt,
      Option.bind_eq_bind,Option.bind_some,seek,entryAt_of_lt hlt,if_pos hlt]
    rcases h.entry hlt with hz | ⟨hz,c,hc,hrep⟩
    · have hnon := h.free _ (getElem_mem hlt) hz
      simp [hz,hnon]
    · have htag : ¬records[slot].tag>2 := by
        rw [← hrep]
        rcases rep_tag (h.roles c hc) with ht | ht <;> rw [ht] <;> decide
      by_cases heq : records[slot]=claim
      · have hz' : claim.tag≠0 := heq ▸ hz
        have htag' : ¬claim.tag>2 := heq ▸ htag
        simp only [heq,if_neg hz',if_neg htag',if_true]
      · simp only [if_neg hz,if_neg htag,if_neg heq]
        exact ih hnext

/-- The record of a pair in the linear ledger. -/
def plain (c : ℕ × BitVec 256) : Record := ⟨c.2,BitVec.ofNat 8 c.1⟩

inductive Store (digest : Digest) (pairs : List (ℕ × BitVec 256)) : ImportGuard → Prop
  | linear {claims layout used} (hkind : layout.indexed=false)
      (hcla : claims = (pairs.map plain).reverse) : Store digest pairs ⟨claims,none,layout,used⟩
  | memory {claims layout used} (hkind : layout.indexed=true)
      (table : Table digest layout.slots claims pairs) (half : layout.capacity*2≤layout.slots) :
      Store digest pairs ⟨claims,none,layout,used⟩
  | file {records layout used disk} (table : Table digest layout.slots records pairs)
      (half : layout.capacity*2≤layout.slots) (bytes : disk<2^64)
      (extent : layout.slots*recordBytes=disk) :
      Store digest pairs ⟨[],some ⟨some records,disk⟩,layout,used⟩

structure Mirrors (digest : Digest) (g : ImportGuard) (a : Predicates.ImportGuard) : Prop where
  capacity : g.layout.capacity=a.capacity
  positive : 0<a.capacity
  used : g.used=a.claims.length
  room : a.claims.length≤a.capacity
  roles : ∀ c∈a.claims, c.1≤1
  store : Store digest a.claims g

/-- One claim on the list of accepted pairs. -/
def decision (a : Predicates.ImportGuard) (c : Call) : Except Error Unit × Predicates.ImportGuard :=
  match a.claim c.role c.nonce with
  | .error e => (.error e,a)
  | .ok a => (.ok (),a)

section
variable {a : Predicates.ImportGuard} {c : Call}

lemma decision_domain (hrole : c.role>1) : decision a c = (.error .domain,a) := by
  simp [decision,Predicates.ImportGuard.claim,hrole]

lemma decision_consumed (hrole : c.role≤1) (hmem : c.pair∈a.claims) :
    decision a c = (.error .consumed,a) := by
  have hmem' : (c.role,c.nonce)∈a.claims := hmem
  simp [decision,Predicates.ImportGuard.claim,not_lt.mpr hrole,hmem']

lemma decision_resource (hrole : c.role≤1) (hmem : c.pair ∉ a.claims) (hfull :
    a.claims.length=a.capacity) : decision a c = (.error .resource,a) := by
  have hmem' : (c.role,c.nonce) ∉ a.claims := hmem
  simp [decision,Predicates.ImportGuard.claim,not_lt.mpr hrole,hmem',hfull]

lemma decision_ok (hrole : c.role≤1) (hmem : c.pair ∉ a.claims) (hfull : a.claims.length≠a.capacity)
    : decision a c = (.ok (),{ a with claims := c.pair::a.claims }) := by
  have hmem' : (c.role,c.nonce) ∉ a.claims := hmem
  simp [decision,Predicates.ImportGuard.claim,not_lt.mpr hrole,hmem',hfull,Call.pair]

lemma Mirrors.accept {g g' : ImportGuard} (h : Mirrors digest g a) (hrole : c.role≤1)
    (hfull : a.claims.length≠a.capacity) (hlay : g'.layout=g.layout)
    (hused : g'.used=g.used+1) (hsto : Store digest (c.pair::a.claims) g') :
    Mirrors digest g' { a with claims := c.pair::a.claims } where
  capacity := by rw [hlay]; exact h.capacity
  positive := h.positive
  used := by simp [hused,h.used]
  room := by
    have hroom := h.room
    simp only [length_cons]
    omega
  roles := by
    intro d hd
    rcases mem_cons.mp hd with rfl | hd
    · exact hrole
    · exact h.roles d hd
  store := hsto

lemma plain_mem {c : ℕ × BitVec 256} (hc : c.1≤1) (hrol : ∀ d∈pairs, d.1≤1) :
    plain c ∈ (pairs.map plain).reverse ↔ c∈pairs := by
  simp only [mem_reverse,mem_map]
  constructor
  · rintro ⟨d,hd,heq⟩
    have hd1 := hrol d hd
    obtain ⟨hnon,hrole⟩ := record_inj (by omega) (by omega) heq
    rwa [← Prod.ext hrole hnon]
  · intro hmem
    exact ⟨c,hmem,rfl⟩

variable {g : ImportGuard}

/-- Search on the table, by what the pair is. -/
lemma findSlot_memory {c : ℕ × BitVec 256} (hc : c.1≤1)
    (table : Table digest g.layout.slots g.claims pairs) (room : pairs.length<g.layout.slots) :
    (c∈pairs ∧ g.findSlot digest (rep c) = .error .consumed) ∨ (c ∉ pairs ∧ ∃ s, g.findSlot
    digest (rep c) = .ok s ∧ Table digest g.layout.slots (g.claims.set s (rep c)) (c::pairs)) := by
  have hpro : g.findSlot digest (rep c) =
      match seek (entryAt g.claims) (next digest g.layout.slots (rep c)) (rep c) g.layout.slots
        (start digest g.layout.slots (rep c)) with
      | .vacant s => .ok s
      | .stored => .error .consumed
      | .lost => .error .resource := memory_probe ..
  rcases table.seek hc room with ⟨hmem,hseek⟩ | ⟨hmem,i,hi,hpas,hnone,hseek⟩
  · exact .inl ⟨hmem,by rw [hpro,hseek]⟩
  · exact .inr ⟨hmem,_,by rw [hpro,hseek],table.write hc hi hpas hnone⟩

lemma tryClaim_file {c : ℕ × BitVec 256} (hc : c.1≤1) (table : Table digest slots records pairs)
    (hbyt : slots*recordBytes<2^64) (room : pairs.length < slots) (exhausted : Bool) :
    (c∈pairs ∧ tryClaim digest .sound records (slots*recordBytes) (rep c) slots exhausted =
      some (.error .consumed)) ∨
    (c ∉ pairs ∧ ∃ s, tryClaim digest .sound records (slots*recordBytes) (rep c) slots exhausted =
      (if exhausted then some (.error .resource) else some (.ok (records.set s (rep c)))) ∧
      Table digest slots (records.set s (rep c)) (c::pairs)) := by
  have hst : start digest slots (rep c) < slots := by
    obtain ⟨k,rfl⟩ := table.power
    exact start_lt digest (rep c) (k+1)
  have hpro := file_probe table hbyt (rep c) exhausted slots hst
  have htry : tryClaim digest .sound records (slots*recordBytes) (rep c) slots exhausted =
      probe .sound records (slots*recordBytes) (rep c) slots
        (indexedProbes digest (rep c) slots).2 exhausted slots (start digest slots (rep c)) := by
    simp [tryClaim,Io.sound,table.length,start]
  rw [htry,hpro]
  rcases table.seek hc room with ⟨hmem,hseek⟩ | ⟨hmem,i,hi,hpas,hnone,hseek⟩
  · exact .inl ⟨hmem,by rw [hseek]⟩
  · exact .inr ⟨hmem,_,by rw [hseek],table.write hc hi hpas hnone⟩

lemma memory_call (h : Mirrors digest g a) (hfile : g.file=none)
    (hind : g.layout.indexed=true) (table : Table digest g.layout.slots g.claims a.claims)
    (half : g.layout.capacity*2≤g.layout.slots) (hrole : c.role≤1) :
    (g.call digest c).1 = (decision a c).1 ∧ Mirrors digest (g.call digest c).2 (decision a c).2 := by
  have hcap := h.capacity
  have hpos := h.positive
  have room : a.claims.length<g.layout.slots := by
    have hroom := h.room
    omega
  have hrep : (⟨c.nonce,BitVec.ofNat 8 (c.role+1)⟩ : Record)=rep c.pair := rfl
  simp only [ImportGuard.call,ImportGuard.claim,hfile,if_neg (not_lt.mpr hrole),
    ImportGuard.claimMemory,hind,not_true_eq_false,if_false,hrep]
  rcases findSlot_memory (c := c.pair) hrole table room with ⟨hmem,hfind⟩ | ⟨hmem,s,hfind,htab⟩
  · rw [decision_consumed hrole hmem,hfind]
    exact ⟨rfl,h⟩
  · rw [hfind]
    by_cases hfull : a.claims.length=a.capacity
    · have hused : g.used=g.layout.capacity := by rw [h.used,hcap,hfull]
      rw [decision_resource hrole hmem hfull]
      simp only [ok_bind,if_pos hused]
      exact ⟨trivial,h⟩
    · have hused : g.used≠g.layout.capacity := by rwa [h.used,hcap]
      rw [decision_ok hrole hmem hfull]
      simp only [ok_bind,if_neg hused]
      exact ⟨trivial,h.accept hrole hfull rfl rfl (.memory hind htab half)⟩

lemma linear_call (h : Mirrors digest g a) (hfile : g.file=none) (hind : g.layout.indexed=false)
    (hcla : g.claims = (a.claims.map plain).reverse) (hrole : c.role≤1) : (g.call digest c).1 =
    (decision a c).1 ∧ Mirrors digest (g.call digest c).2 (decision a c).2 := by
  have hcap := h.capacity
  have hpla : (⟨c.nonce,BitVec.ofNat 8 c.role⟩ : Record)=plain c.pair := rfl
  have hiff : plain c.pair ∈ g.claims ↔ c.pair∈a.claims := by
    rw [hcla]
    exact plain_mem hrole h.roles
  simp only [ImportGuard.call,ImportGuard.claim,hfile,if_neg (not_lt.mpr hrole),
    ImportGuard.claimMemory,hind,Bool.false_eq_true,not_false_eq_true,if_true,hpla]
  by_cases hmem : c.pair∈a.claims
  · rw [decision_consumed hrole hmem,if_pos (hiff.mpr hmem)]
    exact ⟨rfl,h⟩
  · rw [if_neg (mt hiff.mp hmem)]
    by_cases hfull : a.claims.length=a.capacity
    · have hused : g.used=g.layout.capacity := by rw [h.used,hcap,hfull]
      rw [decision_resource hrole hmem hfull,if_pos hused]
      exact ⟨rfl,h⟩
    · have hused : g.used≠g.layout.capacity := by rwa [h.used,hcap]
      rw [decision_ok hrole hmem hfull,if_neg hused]
      refine ⟨rfl,h.accept hrole hfull rfl rfl (.linear hind ?_)⟩
      simp [hcla]

variable {layout : ImportGuardLayout}

lemma file_call {used : ℕ}
    (h : Mirrors digest ⟨[],some ⟨some records,layout.slots*recordBytes⟩,layout,used⟩ a)
    (table : Table digest layout.slots records a.claims) (half : layout.capacity*2≤layout.slots)
    (bytes : layout.slots*recordBytes<2^64) (hrole : c.role≤1) (hio : c.io = .sound) :
    let g : ImportGuard := ⟨[],some ⟨some records,layout.slots*recordBytes⟩,layout,used⟩
    (g.call digest c).1 = (decision a c).1 ∧ Mirrors digest (g.call digest c).2 (decision a c).2 := by
  have hcap : layout.capacity=a.capacity := h.capacity
  have hused : used=a.claims.length := h.used
  have hpos := h.positive
  have room : a.claims.length<layout.slots := by
    have hroom := h.room
    omega
  have hrep : (⟨c.nonce,BitVec.ofNat 8 (c.role+1)⟩ : Record)=rep c.pair := rfl
  simp only [ImportGuard.call,ImportGuard.claim,Ledger.claim,if_neg (not_lt.mpr hrole),hrep,hio]
  rcases tryClaim_file (c := c.pair) hrole table bytes room (used=layout.capacity) with
    ⟨hmem,htry⟩ | ⟨hmem,s,htry,htab⟩
  · rw [decision_consumed hrole hmem,htry]
    exact ⟨rfl,h⟩
  · rw [htry]
    by_cases hfull : a.claims.length=a.capacity
    · have hfull' : used=layout.capacity := by rw [hused,hcap,hfull]
      rw [decision_resource hrole hmem hfull]
      simp only [hfull',decide_true,if_true]
      rw [hfull'] at h
      exact ⟨trivial,h⟩
    · have hfull' : used≠layout.capacity := by rwa [hused,hcap]
      rw [decision_ok hrole hmem hfull]
      simp only [hfull',decide_false,Bool.false_eq_true,if_false]
      exact ⟨trivial,h.accept hrole hfull rfl rfl (.file htab half bytes rfl)⟩

lemma Mirrors.call (h : Mirrors digest g a) (hio : c.io = .sound) :
    (g.call digest c).1 = (decision a c).1 ∧ Mirrors digest (g.call digest c).2 (decision a c).2 := by
  by_cases hrole : c.role≤1
  · cases h.store with
    | linear hkind hcla => exact linear_call h rfl hkind hcla hrole
    | memory hkind table half => exact memory_call h rfl hkind table half hrole
    | file table half bytes extent =>
      subst extent
      exact file_call h table half bytes hrole hio
  · have hrole' : c.role>1 := not_le.mp hrole
    rw [decision_domain hrole']
    cases h.store with
    | linear hkind hcla | memory hkind table half =>
      simp only [ImportGuard.call,ImportGuard.claim,if_pos hrole']
      exact ⟨trivial,h⟩
    | file table half bytes extent =>
      simp only [ImportGuard.call,ImportGuard.claim,Ledger.claim,if_pos hrole']
      exact ⟨trivial,h⟩

end

inductive Created (capacity : ℕ) (guard : ImportGuard) : Prop
  | linear {budget : Predicates.Budget} {granted : Bool}
      (h : ImportGuard.new capacity budget granted = .ok guard)
  | indexed {guardBytes : ℕ} {budget : Predicates.Budget} {granted : Bool}
      (h : ImportGuard.newIndexed guardBytes capacity budget granted = .ok guard)
  | file {guardBytes maxDiskBytes : ℕ} {budget : Predicates.Budget} {granted created : Bool}
      (h : ImportGuard.newIndexedFile guardBytes capacity maxDiskBytes budget granted created =
        .ok guard)

lemma withLayout_eq_ok {budget : Predicates.Budget} {granted : Bool}
    {guard : ImportGuard} (h : ImportGuard.withLayout layout budget granted = .ok guard) :
    guard = ⟨if layout.indexed then replicate layout.slots .empty else [],none,layout,0⟩ := by
  obtain ⟨_,-,h⟩ := bind_eq_ok.mp h
  split at h
  · cases h
  · cases h
    rfl

variable {capacity : ℕ} {guard : ImportGuard}

lemma mirrors_new (hpos : 0 < capacity) (hcap : guard.layout.capacity=capacity) (hused :
    guard.used=0) (hsto : Store digest [] guard) : Mirrors digest guard ⟨capacity,[]⟩ where
  capacity := hcap
  positive := hpos
  used := hused
  room := zero_le
  roles := by simp
  store := hsto

lemma Created.mirrors (h : Created capacity guard)
    (digest : Digest) : Mirrors digest guard ⟨capacity,[]⟩ := by
  cases h with
  | linear h =>
    obtain ⟨layout,hlay,h⟩ := bind_eq_ok.mp h
    unfold ImportGuardLayout.legacy at hlay
    split at hlay
    · cases hlay
    next hrng =>
      cases hlay
      have hkind : (⟨capacity,capacity,capacity*33⟩ : ImportGuardLayout).indexed=false := by
        simp [ImportGuardLayout.indexed]
      rw [withLayout_eq_ok h]
      refine mirrors_new (by omega) rfl rfl (.linear hkind ?_)
      simp [hkind]
  | indexed h =>
    obtain ⟨layout,hlay,h⟩ := bind_eq_ok.mp h
    obtain ⟨slots,hsls,hlay⟩ := bind_eq_ok.mp hlay
    obtain ⟨hpos,hhalf,k,rfl⟩ := indexedSlots_eq_ok hsls
    dsimp only at hlay
    split at hlay
    · cases hlay
    · cases hlay
      have hkind : ∀ bytes, (⟨capacity,2^(k+1),bytes⟩ : ImportGuardLayout).indexed=true := by
        simp only [ImportGuardLayout.indexed,bne_iff_ne]
        omega
      rw [withLayout_eq_ok h]
      refine mirrors_new hpos rfl rfl (.memory (hkind _) ?_ hhalf)
      rw [if_pos (hkind _)]
      exact table_empty
  | file h =>
    obtain ⟨cost,hcost,h⟩ := bind_eq_ok.mp h
    obtain ⟨slots,hsls,hcost⟩ := bind_eq_ok.mp hcost
    obtain ⟨hpos,hhalf,k,rfl⟩ := indexedSlots_eq_ok hsls
    split at hcost
    · cases hcost
    next hdisk =>
      cases hcost
      split at h
      · cases h
      · obtain ⟨_,-,h⟩ := bind_eq_ok.mp h
        split at h
        · cases h
        · obtain ⟨ledger,hled,h⟩ := bind_eq_ok.mp h
          rw [hsls] at h
          cases h
          unfold Ledger.new at hled
          split at hled
          · cases hled
          · cases hled
            rw [Nat.mul_div_cancel _ (show 0 < recordBytes by decide)]
            refine mirrors_new hpos rfl rfl (.file table_empty hhalf ?_ rfl)
            simp only [maxIndexedFileDiskBytes] at hdisk ⊢
            omega

def decisions (a : Predicates.ImportGuard) : List Call → List (Except Error Unit)
  | [] => []
  | c::cs => (decision a c).1::decisions (decision a c).2 cs

def decided (a : Predicates.ImportGuard) : List Call → Predicates.ImportGuard
  | [] => a
  | c::cs => decided (decision a c).2 cs

variable {g : ImportGuard} {a : Predicates.ImportGuard}

lemma Mirrors.run (h : Mirrors digest g a) (calls : List Call) (hio : ∀ c∈calls, c.io = .sound) :
    g.verdicts digest calls = decisions a calls ∧
      Mirrors digest (g.after digest calls) (decided a calls) := by
  induction calls generalizing g a with
  | nil => exact ⟨rfl,h⟩
  | cons c cs ih =>
    obtain ⟨hver,hnext⟩ := h.call (hio c (by simp))
    obtain ⟨hrest,hlast⟩ := ih hnext fun d hd => hio d (by simp [hd])
    refine ⟨?_,hlast⟩
    simp only [ImportGuard.verdicts,decisions,hver,hrest]

lemma decision_claims (a : Predicates.ImportGuard) (c : Call) :
    (decision a c).2.capacity = a.capacity ∧
    (decision a c).2.claims = (match (decision a c).1 with
      | .ok () => [c.pair]
      | .error _ => [])++a.claims := by
  by_cases hrole : c.role≤1
  · by_cases hmem : c.pair∈a.claims
    · simp [decision_consumed hrole hmem]
    · by_cases hfull : a.claims.length=a.capacity
      · simp [decision_resource hrole hmem hfull]
      · simp [decision_ok hrole hmem hfull]
  · simp [decision_domain (not_le.mp hrole)]

lemma decided_claims (a : Predicates.ImportGuard) (calls : List Call) : (decided a calls).capacity
    = a.capacity ∧ (decided a calls).claims = successes calls (decisions a calls)++a.claims := by
  induction calls generalizing a with
  | nil => simp [decided,decisions,successes]
  | cons c cs ih =>
    obtain ⟨hcap,hcla⟩ := decision_claims a c
    obtain ⟨hcap',hcla'⟩ := ih (decision a c).2
    refine ⟨hcap'.trans hcap,?_⟩
    simp only [decided,decisions,successes] at hcla' ⊢
    rw [hcla',hcla]
    cases hver : (decision a c).1 with
    | error e => simp
    | ok u => simp

/-- The table of an indexed guard. -/
def ImportGuard.table (self : ImportGuard) : Option (List Record) :=
  match self.file with
  | some ledger => ledger.file
  | none => if self.layout.indexed then some self.claims else none

/-- Some probe of a claim meets a free place or the claim itself, and those before it neither. -/
def Stops (digest : Digest) (slots : ℕ) (records : List Record) (claim : Record) : Prop :=
  ∃ i < slots, Passed (entryAt records) (place digest slots claim) claim i ∧
    (entryAt records (place digest slots claim i)=none ∨
      entryAt records (place digest slots claim i) = some claim)

lemma Table.stops (h : Table digest slots records pairs) (room : pairs.length < slots)
    (claim : Record) : Stops digest slots records claim := by
  obtain ⟨k,rfl⟩ := h.power
  exact h.holds.stop (by simpa using room) claim fun s hs => place_covers digest claim k hs

lemma Mirrors.stops (h : Mirrors digest g a) {records : List Record} (htab : g.table = some records)
    (claim : Record) : Stops digest g.layout.slots records claim := by
  have hroom := h.room
  have hpos := h.positive
  have hcap := h.capacity
  cases h.store with
  | linear hkind hcla => simp [ImportGuard.table,hkind] at htab
  | memory hkind table half =>
    simp only [ImportGuard.table,hkind,if_true,Option.some.injEq] at htab
    subst htab
    exact table.stops (by dsimp only at hcap; omega) claim
  | file table half bytes extent =>
    simp only [ImportGuard.table,Option.some.injEq] at htab
    subst htab
    exact table.stops (by dsimp only at hcap; omega) claim

/-- The claim reaches the file, and an operation on it fails. -/
def ImportGuard.FileError (digest : Digest) (self : ImportGuard) (c : Call) : Prop :=
  ∃ ledger records, self.file = some ledger ∧ ledger.file = some records ∧ c.role≤1 ∧
    Ledger.tryClaim digest c.io records ledger.diskBytes (rep c.pair) self.layout.slots
      (self.used=self.layout.capacity)=none

def ImportGuard.Closed (self : ImportGuard) : Prop :=
  ∃ ledger, self.file = some ledger ∧ ledger.file=none

lemma ImportGuard.FileError.closes {c : Call} (h : g.FileError digest c) :
    (g.call digest c).1 = .error .resource ∧ (g.call digest c).2.Closed := by
  obtain ⟨ledger,records,hfile,hrecs,hrole,htry⟩ := h
  have htry' : tryClaim digest c.io records ledger.diskBytes
      ⟨c.nonce,BitVec.ofNat 8 (c.role+1)⟩ g.layout.slots (g.used=g.layout.capacity)=none := htry
  simp only [ImportGuard.call,ImportGuard.claim,hfile,Ledger.claim,hrecs,
    if_neg (not_lt.mpr hrole),htry']
  exact ⟨trivial,_,rfl,rfl⟩

lemma ImportGuard.Closed.call (h : g.Closed) (c : Call) :
    (g.call digest c).1 = .error .consumed ∧ (g.call digest c).2.Closed := by
  obtain ⟨ledger,hfile,hnone⟩ := h
  simp only [ImportGuard.call,ImportGuard.claim,hfile,Ledger.claim,hnone]
  exact ⟨trivial,ledger,rfl,hnone⟩

lemma ImportGuard.Closed.run (h : g.Closed) (calls : List Call) :
    ∀ v ∈ g.verdicts digest calls, v = .error .consumed := by
  induction calls generalizing g with
  | nil => simp [ImportGuard.verdicts]
  | cons c cs ih =>
    obtain ⟨hver,hclo⟩ : (g.call digest c).1 = .error .consumed ∧
        (g.call digest c).2.Closed := h.call c
    intro v hv
    rcases mem_cons.mp hv with rfl | hv
    · exact hver
    · exact ih hclo v hv

lemma decision_eq_ok (hroom : a.claims.length≤a.capacity) (c : Call) :
    (decision a c).1 = .ok () ↔ c.role≤1 ∧ c.pair ∉ a.claims ∧ a.claims.length<a.capacity := by
  by_cases hrole : c.role≤1
  · by_cases hmem : c.pair∈a.claims
    · simp [decision_consumed hrole hmem,hmem]
    · by_cases hfull : a.claims.length=a.capacity
      · simp [decision_resource hrole hmem hfull,hfull]
      · simp only [decision_ok hrole hmem hfull,hmem,not_false_eq_true,true_and,true_iff]
        omega
  · simp [decision_domain (not_le.mp hrole),hrole]

/-- A run of claims on a new guard. While the file answers, a claim succeeds exactly when its role
is a recipient, its pair is new and the capacity is not used up; every search stops; guards of one
capacity give the same verdicts, whatever their kind and their probes; and behind an error of the
file no claim succeeds. -/
theorem replay_ledger_exact {capacity : ℕ} {guard : ImportGuard} (created : Created capacity guard)
    (digest : Digest) :
    (∀ calls c, (∀ d∈calls, d.io = .sound) → c.io = .sound →
      (((guard.after digest calls).call digest c).1 = .ok () ↔
        c.role≤1 ∧ c.pair ∉ guard.accepted digest calls ∧
          (guard.accepted digest calls).length < capacity)) ∧
    (∀ calls records claim, (∀ d∈calls, d.io = .sound) → (guard.after digest calls).table = some
      records → Stops digest (guard.after digest calls).layout.slots records claim) ∧
    (∀ (other : ImportGuard) (digest' : Digest) (calls : List Call), Created capacity other → (∀
      d∈calls, d.io = .sound) → guard.verdicts digest calls = other.verdicts digest' calls) ∧
    (∀ calls c later, (guard.after digest calls).FileError digest c →
      ((guard.after digest calls).call digest c).1 ≠ .ok () ∧
      ∀ v ∈ ((guard.after digest calls).call digest c).2.verdicts digest later, v ≠ .ok ()) := by
  refine ⟨?_,?_,?_,?_⟩
  · intro calls c hcal hc
    obtain ⟨hverd,hmir⟩ := (created.mirrors digest).run calls hcal
    obtain ⟨hcap,hcla⟩ := decided_claims ⟨capacity,[]⟩ calls
    have hacc : guard.accepted digest calls=(decided ⟨capacity,[]⟩ calls).claims := by
      rw [hcla,ImportGuard.accepted,hverd,append_nil]
    rw [(hmir.call hc).1,decision_eq_ok hmir.room,hacc,hcap]
  · intro calls records claim hcal htab
    exact ((created.mirrors digest).run calls hcal).2.stops htab claim
  · intro other digest' calls hoth hcal
    rw [((created.mirrors digest).run calls hcal).1,((hoth.mirrors digest').run calls hcal).1]
  · intro calls c later herr
    obtain ⟨hver,hclo⟩ := herr.closes
    refine ⟨by simp [hver],fun v hv => ?_⟩
    simp [hclo.run later v hv]

/-- Two claims that an indexed guard of four slots puts in one place, the repetition of the second
and a claim beyond the capacity, answered as by a linear guard. -/
theorem replay_ledger_exact_small :
    let guard : ImportGuard := ⟨replicate 4 .empty,none,⟨2,4,232⟩,0⟩
    let linear : ImportGuard := ⟨[],none,⟨2,2,66⟩,0⟩
    let digest : Digest := fun _ => (0,0)
    let calls : List Call := [⟨0,7,.sound⟩,⟨1,8,.sound⟩,⟨1,8,.sound⟩,⟨1,9,.sound⟩]
    place digest 4 ⟨7,1⟩ 0 = place digest 4 ⟨8,2⟩ 0 ∧
    Stops digest 4 (guard.after digest calls).claims ⟨8,2⟩ ∧
    guard.verdicts digest calls = [.ok (),.ok (),.error .consumed,.error .resource] ∧
    linear.verdicts digest calls = guard.verdicts digest calls := by
  intro guard linear digest calls
  obtain ⟨-,stops,same,-⟩ := replay_ledger_exact (@Created.indexed 2 guard 100 ⟨1000,0⟩ true rfl)
    digest
  have sound : ∀ d∈calls,d.io = .sound := by
    simp [calls]
  have slots : (guard.after digest calls).layout.slots=4 := by decide +kernel
  have table : (guard.after digest calls).table=some (guard.after digest calls).claims := by
    decide +kernel
  have linearly := same linear digest calls
    (.linear (show ImportGuard.new 2 ⟨100,0⟩ true = .ok linear from rfl)) sound
  exact ⟨rfl,slots ▸ stops calls _ _ sound table,linearly.trans rfl,linearly.symm⟩

end Pllm.Fusefss.Wire
