import Pllm.Lib.Xor
import Pllm.Pages.PrivatePages

/-! The servers' traversals as scans: each meets every record once, in order, with the selection
bit of one walk down the tree, and a batch answers as its queries would one by one. -/
namespace Pllm.Pages
open Pllm.Lib List Issuing

/-- The selection bit of one record: the walk along the bits of its leaf. -/
def walk (env : Platform) (key : Key) (domain : Block) (record : ℕ) :
    List Correction → Block → Bool → ℕ → Bool
  | [], seed, control, _ => (leafWord env key domain seed control).getLsbD
      (record%key.layout.leafBits)
  | word::rest, seed, control, level =>
    let child := descend env word domain seed control level
      ((record/key.layout.leafBits).testBit rest.length)
    walk env key domain record rest child.1 child.2 (level+1)

lemma Layout.leafBits_pos (self : Layout) : 0 < self.leafBits := by
  cases self <;> decide

lemma testBit_aligned {first n k x : ℕ} (hk : first=2^(n+1)*k) (hlow : first≤x)
    (hhigh : x<first+2^(n+1)) : x.testBit n = decide (first+2^n≤x) := by
  obtain ⟨t,rfl⟩ := Nat.exists_eq_add_of_le hlow
  have hsucc : 2^(n+1)=2^n*2 := pow_succ 2 n
  have hdiv : (first+t)/2^n=2*k+t/2^n := by
    rw [hk,hsucc,mul_assoc,Nat.mul_add_div (Nat.two_pow_pos n)]
  have hlt : t/2^n<2 := Nat.div_lt_of_lt_mul (by omega)
  rw [Nat.testBit_eq_decide_div_mod_eq]
  by_cases ht : 2^n≤t
  · have hone : 1≤t/2^n := (Nat.one_le_div_iff (Nat.two_pow_pos n)).mpr ht
    simp only [decide_eq_decide]
    omega
  · have hzero : t/2^n=0 := Nat.div_eq_of_lt (by omega)
    simp only [decide_eq_decide]
    omega

section
variable {γ : Type*} {env : Platform} {key : Key} {domain : Block} {records : ℕ}
  {act : ℕ → Bool → γ → γ}

/-- The records met below a node, with their bits. -/
def span (env : Platform) (key : Key) (domain : Block) (act : ℕ → Bool → γ → γ)
    (words : List Correction) (seed : Block) (control : Bool) (level start stop : ℕ) (out : γ) : γ :=
  (List.range' start (stop-start)).foldl
    (fun out record => act record (walk env key domain record words seed control level) out) out

section
variable {words : List Correction} {seed : Block} {control : Bool} {level start stop : ℕ}

lemma span_of_le (h : stop ≤ start) (out : γ) :
    span env key domain act words seed control level start stop out = out := by
  simp [span,Nat.sub_eq_zero_of_le h]

lemma span_append {mid : ℕ} (h : start ≤ mid) (h' : mid ≤ stop) (out : γ) : span
    env key domain act words seed control level mid stop (span env key domain act words seed control
    level start mid out) = span env key domain act words seed control level start stop out := by
  have hlen : stop-start=(mid-start)+(stop-mid) := by omega
  have hmid : start+(mid-start)=mid := by omega
  simp only [span]
  rw [← foldl_append,hlen,← range'_append_1,hmid]

/-- On one half of an aligned block the walk goes into one child. -/
lemma span_child (word : Correction) {rest : List Correction} (control : Bool) (branch : Bool)
    (h : ∀ record, start ≤ record → record < stop →
      (record/key.layout.leafBits).testBit rest.length = branch) (out : γ) :
    span env key domain act (word::rest) seed control level start stop out =
      let child := descend env word domain seed control level branch
      span env key domain act rest child.1 child.2 (level+1) start stop out := by
  apply foldl_ext
  intro out record hrec
  have hmem := mem_range'_1.mp hrec
  rw [walk,h record hmem.1 (by omega)]

section
variable (words : List Correction) (seed : Block) (control : Bool)

/-- A sweep of an aligned subtree meets its records in order. -/
lemma sweep_eq_span (level first k : ℕ) (hk : first=2^words.length*k) (out : γ) :
    sweep env key domain records act words seed control level first out =
      span env key domain act words seed control level (first*key.layout.leafBits)
        (min records ((first+2^words.length)*key.layout.leafBits)) out := by
  have hleaf := key.layout.leafBits_pos
  induction words generalizing seed control level first k out with
  | nil =>
    rw [sweep]
    split_ifs with hpru
    · rw [span_of_le (by omega)]
    · have hcnt : min records ((first+2^([] : List Correction).length)*key.layout.leafBits)
          -first*key.layout.leafBits = min key.layout.leafBits (records-first*key.layout.leafBits) := by
        simp only [length_nil,add_mul]
        omega
      rw [span,hcnt,range'_eq_map_range,foldl_map]
      apply foldl_ext
      intro out bit hbit
      have hlt : bit<key.layout.leafBits := (lt_min_iff.mp (mem_range.mp hbit)).1
      rw [walk,Nat.mul_add_mod_self_right,Nat.mod_eq_of_lt hlt]
  | cons word rest ih =>
    have hlen : (word::rest).length=rest.length+1 := rfl
    have hsucc : 2^(rest.length+1)=2^rest.length+2^rest.length := by ring
    have hlow : first=2^rest.length*(2*k) := by rw [hk,hlen,pow_succ]; ring
    have hhigh : first+2^rest.length=2^rest.length*(2*k+1) := by rw [hlow]; ring
    have hmono : first*key.layout.leafBits ≤ (first+2^rest.length)*key.layout.leafBits :=
      Nat.mul_le_mul_right _ le_self_add
    have hmono' : (first+2^rest.length)*key.layout.leafBits ≤
        (first+2^rest.length+2^rest.length)*key.layout.leafBits :=
      Nat.mul_le_mul_right _ le_self_add
    rw [sweep]
    split_ifs with hpru
    · rw [span_of_le (by omega)]
    · have hbit : ∀ record, first*key.layout.leafBits ≤ record →
          record < (first+2^rest.length+2^rest.length)*key.layout.leafBits →
          (record/key.layout.leafBits).testBit rest.length =
            decide ((first+2^rest.length)*key.layout.leafBits ≤ record) := by
        intro record hge hlt
        rw [testBit_aligned (by rw [hk,hlen]) ((Nat.le_div_iff_mul_le hleaf).mpr hge)
          (by rw [hsucc,← add_assoc]; exact Nat.div_lt_of_lt_mul (by rwa [mul_comm])),
          decide_eq_decide,Nat.le_div_iff_mul_le hleaf]
      dsimp only
      rw [ih _ _ _ first (2*k) hlow,ih _ _ _ (first+2^rest.length) (2*k+1) hhigh,hlen,hsucc,
        ← add_assoc]
      rw [← span_child word control false fun record hge hlt => by
          rw [hbit record hge (by omega),decide_eq_false_iff_not]; omega]
      rw [← span_child word control true fun record hge hlt => by
          rw [hbit record (by omega) (by omega),decide_eq_true_iff]; omega]
      by_cases hr : (first+2^rest.length)*key.layout.leafBits ≤ records
      · rw [min_eq_right hr,span_append hmono (le_min hr hmono')]
      · rw [min_eq_left (by omega),min_eq_left (by omega),span_of_le (by omega)]

lemma sweep_root (out : γ) : sweep env key domain records act words seed control 0 0 out =
      span env key domain act words seed control 0 0
        (min records (2^words.length*key.layout.leafBits)) out := by
  rw [sweep_eq_span words seed control 0 0 0 rfl,zero_mul,zero_add]

end

end

end

lemma xorInto_zero (out values : List Byte) : xorInto 0 out values = out := by
  induction out generalizing values with
  | nil => cases values <;> rfl
  | cons d ds ih =>
    cases values with
    | nil => rfl
    | cons v vs =>
      rw [xorInto,ih]
      simp

lemma Table.xorRecord_zero (self : Table) (index width : ℕ) (out : List Byte) :
    self.xorRecord index width 0 out = out := by
  cases self with
  | records data => exact xorInto_zero _ _
  | vocabulary matrix scales =>
    rw [xorRecord,xorInto_zero,xorInto_zero]
    exact take_append_drop _ _

lemma foldl_eq_self {α β : Type*} {f : α → β → α} {l : List β} (h : ∀ a, ∀ b∈l, f a b = a)
    (a : α) : l.foldl f a = a := by
  induction l generalizing a with
  | nil => rfl
  | cons b l ih =>
    rw [foldl_cons,h a b mem_cons_self]
    exact ih (fun a c hc => h a c (mem_cons_of_mem _ hc)) a

/-- A key's selection bit for a record of the table. -/
def Key.selects (env : Platform) (self : Key) (domain : Block) (record : ℕ) : Bool :=
  decide (record < 2^self.words.length*self.layout.leafBits)
    && walk env self domain record self.words self.root self.party 0

namespace Server
variable {env : Platform} {self : Server}

/-- The masked sum of all records. -/
def gather (self : Server) (select : ℕ → Bool) (out : List Byte) : List Byte :=
  (List.range self.descriptor.records).foldl
    (fun out record => self.data.xorRecord record self.descriptor.width (spread (select record)) out)
    out

lemma visit_eq_gather (key : Key) (domain : Block) (out : List Byte) : self.visit env
    key domain key.words key.root key.party 0 0 out = self.gather (key.selects env domain) out := by
  have hstop : min self.descriptor.records (2^key.words.length*key.layout.leafBits) ≤
      self.descriptor.records := min_le_left _ _
  obtain ⟨n,hn⟩ := Nat.exists_eq_add_of_le hstop
  rw [visit,sweep_root,span,tsub_zero,gather,range_eq_range']
  conv_rhs => rw [hn,← range'_append_1,foldl_append]
  have hskip : ∀ out', ∀ record ∈ range' (0+min self.descriptor.records
      (2^key.words.length*key.layout.leafBits)) n, self.data.xorRecord record
        self.descriptor.width (spread (key.selects env domain record)) out' = out' := by
    intro out' record hrec
    have hmem := mem_range'_1.mp hrec
    have hout : key.selects env domain record=false := by
      rw [Key.selects,Bool.and_eq_false_iff,decide_eq_false_iff_not]
      left
      omega
    rw [hout]
    exact Table.xorRecord_zero _ _ _ _
  rw [foldl_eq_self hskip]
  apply foldl_ext
  intro out record hrec
  have hmem := mem_range'_1.mp hrec
  have hin : decide (record<2^key.words.length*key.layout.leafBits)=true := by
    rw [decide_eq_true_iff]
    omega
  rw [Key.selects,hin,Bool.true_and]

end Server

lemma seed_xor_control (a b : Block × Bool) : (a ^^^ b).2 = (a.2 ^^ b.2) := rfl

/-- A seed with its control bit, at one level. -/
def expander (env : Platform) (domain : Block) (level : ℕ) : Expander (Block × Bool) where
  child s branch := pick (stretch env s.1 domain level) branch
  control := Prod.snd
  control_xor := seed_xor_control

def Correction.word (cw : Correction) (branch : Bool) : Block × Bool :=
  (cw.seed,cw.controls.getLsbD branch.toNat)

lemma getLsbD_packControls (left right branch : Bool) :
    (packControls left right).getLsbD branch.toNat = if branch then right else left := by
  cases left <;> cases right <;> cases branch <;> rfl

variable {s : Issuing}

section
variable (env : Platform) (domain : Block)

lemma expander_step (cw : Correction) (level : ℕ) (branch : Bool) (s : Block × Bool) : (expander
    env domain level).step cw.word branch s = descend env cw domain s.1 s.2 level branch := by
  obtain ⟨seed,control⟩ := s
  cases control
  · exact xor_zero _
  · rfl

/-- The state of one of the two parties between two levels. -/
def Issuing.state (s : Issuing) (party : Bool) : Block × Bool :=
  (pick s.seeds party,pick s.controls party)

section
variable (level : ℕ) (direction : Bool)

lemma issueLevel_corrects (s : Issuing) : (expander env domain level).Corrects direction
      (issueLevel env domain level direction s).1.word (s.state false) (s.state true) where
  lose := by
    cases direction <;> ext1 <;> simp [issueLevel,Correction.word,expander,state,
      getLsbD_packControls,-Bool.toNat_false,-Bool.toNat_true]
  keep := by
    cases direction <;> simp [issueLevel,Correction.word,expander,state,
      getLsbD_packControls,-Bool.toNat_false,-Bool.toNat_true]

lemma issueLevel_state (s : Issuing) (party : Bool) :
    (issueLevel env domain level direction s).2.state party = (expander env domain level).step
    (issueLevel env domain level direction s).1.word direction (s.state party) := by
  rw [expander_step]
  cases party <;> rfl

lemma issueLevel_controls (hs : s.controls.2 = !s.controls.1) : (issueLevel env domain
    level direction s).2.controls.2 = !(issueLevel env domain level direction s).2.controls.1 := by
  have h := (issueLevel_corrects env domain level direction s).complementary hs
  rwa [← issueLevel_state,← issueLevel_state] at h

end

lemma issueLevels_controls (address n level : ℕ) (hs : s.controls.2 = !s.controls.1) :
    (issueLevels env domain address n level s).2.controls.2 =
      !(issueLevels env domain address n level s).2.controls.1 := by
  induction n generalizing level s with
  | zero => exact hs
  | succ n ih => exact ih (level+1) (issueLevel_controls env domain level _ hs)

@[simp] lemma length_issueLevels (address n level : ℕ) (s : Issuing) :
    (issueLevels env domain address n level s).1.length = n := by
  induction n generalizing level s with
  | zero => rfl
  | succ n ih => simp [issueLevels,ih]

/-- The walk of one record's offset, over the words with their levels. -/
def descent (env : Platform) (key : Key) (domain : Block) (offset : ℕ) :
    Descent (Block × Bool) (Correction × ℕ) Bool where
  step cw branch s := descend env cw.1 domain s.1 s.2 cw.2 branch
  emit _ _ _ := false
  leaf s := (leafWord env key domain s.1 s.2).getLsbD offset

lemma walk_eq_eval (key : Key) (record : ℕ) (words : List Correction) (seed : Block)
    (control : Bool) (level : ℕ) : walk env key domain record words seed control level =
    (descent env key domain (record%key.layout.leafBits)).eval
    (record/key.layout.leafBits) (words.zipIdx level) (seed,control) := by
  induction words generalizing seed control level with
  | nil => rfl
  | cons word rest ih =>
    rw [walk,zipIdx_cons,Descent.eval,length_zipIdx,ih]
    exact (Bool.false_xor _).symm

/-- Issued words serve the walk of every offset. -/
lemma issueLevels_issued (key : Key) (offset address : ℕ) {result : Bool} (n level : ℕ) (hs : s.controls.2 = !s.controls.1)
    (hleaf : ((descent env key domain offset).leaf
        ((issueLevels env domain address n level s).2.state false) ^^
      (descent env key domain offset).leaf
        ((issueLevels env domain address n level s).2.state true))=result) :
    (descent env key domain offset).Issued address false result ((issueLevels env domain address n
      level s).1.zipIdx level) false (s.state false) (s.state true) := by
  induction n generalizing level s with
  | zero => exact .leaf ((congrArg (· ^^ _) (Bool.false_xor _)).trans hleaf)
  | succ n ih =>
    have hrest := ih (level+1) (issueLevel_controls env domain level (address.testBit n) hs) hleaf
    have hmer := (issueLevel_corrects env domain level (address.testBit n) s).merge hs
    rw [expander_step,expander_step] at hmer
    refine .level (address.testBit n) (by simp) hmer ?_ ?_
    · cases address.testBit n <;> rfl
    · exact hrest

/-- Exactly one of the two final states applies the leaf correction. -/
lemma leafWord_xor (key : Key) (hs : s.controls.2 = !s.controls.1)
    {unit : Block} (hfin : key.finalWord = leaf env s.seeds.1 domain key.layout
    ^^^ leaf env s.seeds.2 domain key.layout ^^^ unit) : leafWord env key domain (s.state false).1
    (s.state false).2 ^^^ leafWord env key domain (s.state true).1 (s.state true).2 = unit := by
  simp only [leafWord,state,pick_false,pick_true,hs,hfin]
  cases s.controls.1 <;>
    simp [BitVec.xor_comm,xor_left_comm]

end

lemma lt_two_pow_bitLength (n : ℕ) : n < 2^bitLength n := by
  unfold bitLength
  split_ifs with h
  · simp [h]
  · exact Nat.lt_log2_self

lemma Descriptor.div_lt_depth (d : Descriptor) (layout : Layout) {record : ℕ}
    (h : record<d.records) : record/layout.leafBits < 2^d.depth layout := by
  have hpos := layout.leafBits_pos
  have hceil : (d.records+layout.leafBits-1)/layout.leafBits=(d.records-1)/layout.leafBits+1 := by
    rw [show d.records+layout.leafBits-1=d.records-1+layout.leafBits by omega,
      Nat.add_div_right _ hpos]
  refine lt_of_le_of_lt ?_ (lt_two_pow_bitLength _)
  rw [hceil]
  exact Nat.div_le_div_right (by omega)

/-- One key of the pair issued for a record. -/
def issuedKey (env : Platform) (descriptor : Descriptor) (index : ℕ) (layout : Layout)
    (random : Random) (party : Bool) : Key :=
  let domain := domain env descriptor random.id layout
  let issued := issueLevels env domain (index/layout.leafBits) (descriptor.depth layout) 0
    { seeds := random.roots, controls := (false,true) }
  { layout := layout
    descriptor := descriptor
    id := random.id
    party := party
    root := pick random.roots party
    words := issued.1
    finalWord := leaf env issued.2.seeds.1 domain layout ^^^ leaf env issued.2.seeds.2 domain layout
      ^^^ BitVec.twoPow 128 (index%layout.leafBits) }

lemma selects_xor (env : Platform) (descriptor : Descriptor) (layout : Layout) (random : Random)
    {index record : ℕ} (hi : index<descriptor.records) (hr : record<descriptor.records) :
    let domain := domain env descriptor random.id layout
    ((issuedKey env descriptor index layout random false).selects env domain record ^^
      (issuedKey env descriptor index layout random true).selects env domain record) =
        decide (record=index) := by
  intro domain
  have hpos := layout.leafBits_pos
  have hleaf : layout.leafBits≤128 := by cases layout <;> decide
  have hadd := descriptor.div_lt_depth layout hi
  have hrec := descriptor.div_lt_depth layout hr
  have hrea : record < 2^descriptor.depth layout*layout.leafBits :=
    (Nat.div_lt_iff_lt_mul hpos).mp hrec
  let s : Issuing := { seeds := random.roots, controls := (false,true) }
  have hs : s.controls.2 = !s.controls.1 := rfl
  have hcon := issueLevels_controls env domain (index/layout.leafBits)
    (descriptor.depth layout) 0 hs
  have hword := leafWord_xor env domain (issuedKey env descriptor index layout random false)
    hcon rfl
  have hbit := congrArg (fun word => word.getLsbD (record%layout.leafBits)) hword
  simp only [BitVec.getLsbD_xor] at hbit
  have hiss := issueLevels_issued env domain (issuedKey env descriptor index layout random false)
    (record%layout.leafBits) (index/layout.leafBits) (descriptor.depth layout) 0 hs hbit
  have heval := hiss.eval_xor_eval (n := descriptor.depth layout) (by simp) hrec hadd
  have hsel : ∀ party, (issuedKey env descriptor index layout random party).selects env domain
      record = (descent env (issuedKey env descriptor index layout random false) domain
        (record%layout.leafBits)).eval (record/layout.leafBits) ((issueLevels env domain
          (index/layout.leafBits) (descriptor.depth layout) 0 s).1.zipIdx 0) (s.state party) := by
    intro party
    have hin : decide (record < 2^(issuedKey env descriptor index layout random party).words.length
        *(issuedKey env descriptor index layout random party).layout.leafBits)=true := by
      simpa [issuedKey] using hrea
    rw [Key.selects,hin,walk_eq_eval]
    cases party <;> rfl
  have hmod : index%layout.leafBits<layout.leafBits := Nat.mod_lt _ hpos
  have hspl : record=index ↔ record/layout.leafBits=index/layout.leafBits ∧
      record%layout.leafBits=index%layout.leafBits := by
    constructor
    · rintro rfl
      exact ⟨rfl,rfl⟩
    · rintro ⟨hd,hm⟩
      rw [← Nat.div_add_mod record layout.leafBits,hd,hm,Nat.div_add_mod]
  grind

end Pllm.Pages
