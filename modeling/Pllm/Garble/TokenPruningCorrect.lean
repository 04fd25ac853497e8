import Pllm.Garble.TokenPruning

/-! The two circuits of token pruning: each row counts once, a pass carries a row that is not kept to
the end of the rows still open, and the gates are those of the projection. -/
namespace Pllm.Garble.TokenPruning
open Pllm.Lib Retained List Nat Emits Draft Bool

@[simp] lemma length_put (a : BitVec 32) : (put a).length = 32 := by
  rw [put,length_map,length_range]

lemma wordValue_put (a : BitVec 32) : wordValue (put a) = a.toNat := wordValue_pushWord a

@[simp] lemma word_put (a : BitVec 32) : word (put a) = a := by
  rw [word,wordValue_put,BitVec.ofNat_toNat,BitVec.setWidth_eq]

variable {thr width features retained feat : ℕ} {rest : List Bool} {s : Score}
  {p : Parameters} {e : Draft} {cost : Tally} {row : Row} {words : List (BitVec 32)}
  {rows : List Row}

section
variable {env : List Bool} {start : BooleanCircuitBuilder} {iss : Issuer} {d : Draft}

section
variable {ls rs : List BooleanWire} {a b : BitVec 32} (hl : d.HasWord env ls (put a)) (hr : d.HasWord env rs (put b))
include hl hr

lemma emits_add : Emits iss.hash start
    (iss.addUnsigned ls rs) d (addCost 32) fun out e => e.HasWord env out.1 (put (a+b)) := by
  have added : Emits iss.hash start (iss.addUnsigned ls rs) d (addCost (put a).length) _ :=
    emits_addUnsigned (by simp) (by simp) hl hr
  refine added.mono fun out e _ h => ?_
  obtain ⟨sum,final,eq,len,value⟩ := foldl_plainAdd (put a) (put b) (by simp) [] false
  rw [wordValue_put,wordValue_put,length_put] at value
  have same : sum=put (a+b) := by
    refine wordValue_injective (by rw [len]; simp) ?_
    have below := wordValue_lt sum
    rw [len,length_put] at below
    rw [wordValue_put,BitVec.toNat_add]
    simp only [toNat_false] at value
    omega
  have has := h.1
  rwa [eq,same] at has

lemma emits_subtract : Emits iss.hash start (iss.subtractUnsigned ls rs) d
    (subtractCost 32) fun out e => e.HasWord env out.1 (put (a-b)) := by
  have taken : Emits iss.hash start (iss.subtractUnsigned ls rs) d
      (subtractCost (put a).length) _ :=
    emits_subtractUnsigned (by simp) (by simp) (by simp) hl hr
  refine taken.mono fun out e _ h => ?_
  obtain ⟨difference,final,eq,len,value⟩ :=
    foldl_plainSubtract (put a) (put b) (by simp) [] false
  rw [wordValue_put,wordValue_put,length_put] at value
  have same : difference=put (a-b) := by
    refine wordValue_injective (by rw [len]; simp) ?_
    have below := wordValue_lt difference
    rw [len,length_put] at below
    rw [wordValue_put,BitVec.toNat_sub]
    simp only [toNat_false] at value
    omega
  have has := h.1
  rwa [eq,same] at has

end

def greaterCost (thr : ℕ) : Tally :=
  2 • one .constant+33 • one .not+(countOnes thr+1) • one .xor+
    (32+countOnes thr) • one .and

lemma sum_compareCost (bits : List Bool) : (bits.map compareCost).sum =
    bits.length • (one .not+one .and)+bits.count true • (one .xor+one .and) := by
  induction bits with
  | nil => simp
  | cons b bits ih =>
    rw [map_cons,sum_cons,ih,length_cons]
    cases b
    · rw [succ_nsmul',compareCost,if_neg (by decide)]
      abel
    · rw [count_cons_self,succ_nsmul',succ_nsmul' _ (bits.count true),compareCost,if_pos rfl]
      abel

variable {ws : List BooleanWire} {a : BitVec 32}

lemma emits_greater (fits : thr<2^32) (h : d.HasWord env ws (put a)) : Emits iss.hash start
    (greater iss ws thr) d (greaterCost thr) fun w e => e.Has env w (decide (thr<a.toNat)) := by
  have total : greaterCost thr=(one .constant+(one .constant+
      (((range 32).map thr.testBit).map compareCost).sum))+(one .xor+one .not) := by
    rw [sum_compareCost,length_map,length_range,greaterCost,countOnes]
    simp only [add_nsmul,nsmul_add]
    abel
  have compared : Emits iss.hash start (iss.compareUnsignedToConstant ws thr) d _ _ :=
    emits_compareUnsignedToConstant (by simp) (by simp) (by simpa using fits) h
  rw [length_put] at compared
  rw [total]
  refine compared.bind fun out e g₁ h₁ => ?_
  rw [foldl_plainCompare (by simp),wordValue_put,wordValue_testBit,mod_eq_of_lt fits] at h₁
  refine (emits_xor h₁.1 h₁.2).bind fun atMost e₂ g₂ h₂ => ?_
  refine (emits_not h₂).mono fun w e _ has => ?_
  have exclusive : (!(decide (a.toNat<thr) ^^ decide (a.toNat=thr))) =
      decide (thr<a.toNat) := by
    rcases lt_trichotomy a.toNat thr with lt | eq | gt
    · simp [lt,lt.ne,lt.le]
    · simp [eq]
    · simp [gt,gt.ne',gt.not_gt]
  rwa [exclusive] at has

lemma emits_putWord (reads : d.Reads env (put a++rest)) : Emits iss.hash start (iss.inputWord 32) d
    (32 • one .input) fun ws e => e.HasWord env ws (put a) ∧ e.Reads env rest := by
  have read : Emits iss.hash start (iss.inputWord (put a).length) d
      ((put a).length • one .input) _ := emits_inputWord (by simp) (by simp) reads
  rwa [length_put] at read

/-- What the two parties hold of a row before it is counted. -/
structure Score where
  shares : BitVec 32 × BitVec 32
  mask : Bool

namespace Score

def bits (s : Score) : List Bool := put s.shares.1++put s.shares.2++[s.mask]

def kept (thr : ℕ) (s : Score) : Bool := decide (thr<(s.shares.1+s.shares.2).toNat)

end Score

def HasScore (env : List Bool) (s : Score)
    (ws : List BooleanWire × List BooleanWire × BooleanWire) (d : Draft) : Prop :=
  d.HasWord env ws.1 (put s.shares.1) ∧ d.HasWord env ws.2.1 (put s.shares.2) ∧
    d.Has env ws.2.2 s.mask

lemma emits_countInput (reads : d.Reads env (s.bits++rest)) : Emits iss.hash start
    (countInput iss) d (65 • one .input) fun ws e => HasScore env s ws e ∧ e.Reads env rest := by
  have total : (65 • one .input : Tally)=32 • one .input+(32 • one .input+(one .input+0)) := by
    rw [add_zero,← succ_nsmul,← add_nsmul]
  rw [Score.bits,append_assoc] at reads
  rw [total]
  refine (emits_putWord reads).bind fun left e₁ g₁ h₁ => ?_
  refine (emits_putWord h₁.2).bind fun right e₂ g₂ h₂ => ?_
  refine (emits_input h₂.2).bind fun mask e₃ g₃ h₃ => ?_
  exact pure ⟨⟨h₁.1.later (g₂.trans g₃),h₂.1.later g₃,h₃.1⟩,h₃.2⟩

def bitsOf (width value : ℕ) : List Bool := (List.range width).map value.testBit

@[simp] lemma length_bitsOf (width value : ℕ) : (bitsOf width value).length = width := by
  rw [bitsOf,length_map,length_range]

lemma wordValue_set_replicate (pos : 0<width) (b : Bool) :
    wordValue ((replicate width false).set 0 b) = b.toNat := by
  obtain ⟨width,rfl⟩ := exists_eq_succ_of_ne_zero pos.ne'
  rw [replicate_succ,set_cons_zero,wordValue,wordValue_replicate]
  simp

/-- The count so far, and the masked flags so far. -/
def HasCount (env : List Bool) (width : ℕ) (state : List BooleanWire × List BooleanWire)
    (plain : ℕ × List Bool) (d : Draft) : Prop :=
  d.HasWord env state.1 (bitsOf width plain.1) ∧ d.HasWord env state.2 plain.2

def plainCount (thr : ℕ) (plain : ℕ × List Bool) (s : Score) : ℕ × List Bool :=
  (plain.1+(s.kept thr).toNat,plain.2++[s.kept thr ^^ s.mask])

def countRowCost (width thr : ℕ) : Tally :=
  addCost 32+(greaterCost thr+(one .xor+addCost width))

lemma emits_countRow (pos : 0<width) (fits : thr<2^32) {zero : BooleanWire} {state :
    List BooleanWire × List BooleanWire} {ws : List BooleanWire × List BooleanWire × BooleanWire}
    {plain : ℕ × List Bool} (hz : d.Has env zero false) (hs : HasCount env width state plain d)
    (hw : HasScore env s ws d) : Emits iss.hash start (countRow iss thr zero state ws) d
    (countRowCost width thr) fun out e => HasCount env width out (plainCount thr plain s) e := by
  have wide : state.1.length=width := (Forall₂.length_eq hs.1).trans (length_bitsOf _ _)
  rw [countRowCost,← add_zero (addCost width)]
  refine (emits_add hw.1 hw.2.1).bind fun score e₁ g₁ h₁ => ?_
  refine (emits_greater fits h₁).bind fun keep e₂ g₂ h₂ => ?_
  refine (emits_xor h₂ (hw.2.2.later (g₁.trans g₂))).bind fun output e₃ g₃ h₃ => ?_
  have since := (g₁.trans g₂).trans g₃
  have addend : e₃.HasWord env ((replicate width zero).set 0 keep)
      ((replicate width false).set 0 (s.kept thr)) := by
    obtain ⟨width,rfl⟩ := exists_eq_succ_of_ne_zero pos.ne'
    refine .cons (h₂.later g₃) ?_
    have zeros : e₃.HasWord env (replicate width zero)
        (replicate width false) := by
      clear pos fits hs wide
      induction width with
      | zero => exact .nil
      | succ width ih => exact .cons (hz.later since) ih
    exact zeros
  have counted : Emits iss.hash start
      (iss.addUnsigned state.1 ((replicate width zero).set 0 keep)) e₃
      (addCost (bitsOf width plain.1).length) _ :=
    emits_addUnsigned (by simpa using pos) (by simp) (hs.1.later since) addend
  rw [length_bitsOf] at counted
  rw [wide]
  refine counted.bind fun count e₄ g₄ h₄ => pure ⟨?_,?_⟩
  · obtain ⟨sum,final,eq,len,value⟩ := foldl_plainAdd (bitsOf width plain.1)
      ((replicate width false).set 0 (s.kept thr)) (by simp) [] false
    have same : sum=bitsOf width (plain.1+(s.kept thr).toNat) := by
      refine wordValue_injective (by rw [len]; simp) ?_
      rw [wordValue_set_replicate pos,length_bitsOf,bitsOf,wordValue_testBit] at value
      have below := wordValue_lt sum
      rw [len,length_bitsOf] at below
      have reduced := congrArg (· % 2^width) value
      simp only [toNat_false,add_zero,add_mul_mod_self_left,mod_add_mod] at reduced
      rw [bitsOf,wordValue_testBit,← reduced,mod_eq_of_lt below]
    have has := h₄.1
    rwa [eq,same] at has
  · exact (hs.2.later (since.trans g₄)).snoc (h₃.later g₄)

lemma foldl_plainCount (thr : ℕ) (scores : List Score) (plain : ℕ × List Bool) :
    scores.foldl (plainCount thr) plain = (plain.1+scores.countP (Score.kept thr),
      plain.2++scores.map fun s => s.kept thr ^^ s.mask) := by
  induction scores generalizing plain with
  | nil => simp
  | cons s scores ih =>
    rw [List.foldl_cons,ih,plainCount,countP_cons]
    refine Prod.ext ?_ (by simp)
    simp only [Bool.toNat,cond_eq_ite]
    omega

def countCost (p : Parameters) : Tally :=
  p.tokens • (65 • one .input)+(one .constant+
    p.tokens • countRowCost (countBits p.tokens) (p.scoreThreshold false))

lemma emits_countOutputs (tokens : 0<p.tokens) (fits : p.scoreThreshold false < 2^32) {scores :
    List Score} (same : scores.length=p.tokens) (reads : d.Reads env (scores.flatMap Score.bits)) :
    Emits iss.hash start (countOutputs iss p) d (countCost p) fun ws e => e.HasWord env ws
    ((scores.map fun s => s.kept (p.scoreThreshold false) ^^ s.mask)
    ++ bitsOf (countBits p.tokens) (scores.countP (Score.kept (p.scoreThreshold false)))) := by
  have pos : 0 < countBits p.tokens := size_pos.mpr tokens
  have spelled : d.Reads env (scores.flatMap Score.bits++[]) := by rwa [append_nil]
  have collected : Emits iss.hash start ((range p.tokens).mapM fun _ => countInput iss) d
      ((range p.tokens).length • (65 • one .input)) _ :=
    emits_collect Score.bits (fun s ws e => HasScore env s ws e)
      (fun _ _ _ _ _ h g => ⟨h.1.later g,h.2.1.later g,h.2.2.later g⟩)
      (length_range.trans same.symm) (fun s _ e rest reads => emits_countInput reads) spelled
  rw [length_range] at collected
  refine collected.bind fun inputs e₁ g₁ h₁ => ?_
  refine (emits_constant env false).bind fun zero e₂ g₂ h₂ => ?_
  have looped : Emits iss.hash start (inputs.foldlM
      (countRow iss (p.scoreThreshold false) zero) (replicate (countBits p.tokens) zero,[])) e₂
      (scores.map fun _ => countRowCost (countBits p.tokens) (p.scoreThreshold false)).sum _ :=
    Emits.foldlM (g := plainCount (p.scoreThreshold false)) (c := (0,[])) (fun _ => _)
      (V := fun ws s e => HasScore env s ws e ∧ e.Has env zero false)
      (fun _ _ _ _ _ h g => ⟨⟨h.1.1.later g,h.1.2.1.later g,h.1.2.2.later g⟩,h.2.later g⟩)
      (fun _ => True) (HasCount env (countBits p.tokens))
      (h₁.1.imp fun _ _ h => ⟨⟨h.1.later g₂,h.2.1.later g₂,h.2.2.later g₂⟩,h₂⟩) trivial
      ⟨by
        have none : bitsOf (countBits p.tokens) 0=replicate (countBits p.tokens) false := by
          rw [bitsOf,map_congr_left fun i _ => zero_testBit i, map_const',
            length_range]
        rw [none]
        generalize countBits p.tokens=width
        induction width with
        | zero => exact .nil
        | succ width ih => exact .cons h₂ ih,.nil⟩
      (fun _ _ _ _ => trivial)
      fun state plain e ws s _ _ hw hs => emits_countRow pos fits hw.2 hs hw.1
  rw [sum_constant,same] at looped
  rw [← add_zero (p.tokens • countRowCost _ _)]
  refine looped.bind fun out e₃ g₃ h₃ => pure ?_
  rw [foldl_plainCount,zero_add] at h₃
  exact rel_append h₃.2 h₃.1

lemma hasWord_flatten {wss : List (List BooleanWire)} {bss : List (List Bool)}
    (h : Forall₂ (d.HasWord env) wss bss) :
    d.HasWord env wss.flatten bss.flatten := rel_flatten h

/-- The two words of a pair. -/
def HasShares (env : List Bool) (ws : List BooleanWire × List BooleanWire)
    (pair : BitVec 32 × BitVec 32) (d : Draft) : Prop :=
  d.HasWord env ws.1 (put pair.1) ∧ d.HasWord env ws.2 (put pair.2)

variable {ws : List BooleanWire × List BooleanWire} {pair : BitVec 32 × BitVec 32}

lemma HasShares.later (h : HasShares env ws pair d) (grown : Grown d e cost) :
    HasShares env ws pair e :=
  ⟨Draft.HasWord.later h.1 grown,Draft.HasWord.later h.2 grown⟩

lemma emits_wordPair (reads : d.Reads env (put pair.1++put pair.2++rest)) : Emits iss.hash start
    (wordPair iss) d (64 • one .input) fun ws e => HasShares env ws pair e ∧ e.Reads env rest := by
  have total : (64 • one .input : Tally)=32 • one .input+(32 • one .input+0) := by
    rw [add_zero,← add_nsmul]
  rw [total]
  refine (emits_putWord reads).bind fun left e₁ g₁ h₁ => ?_
  refine (emits_putWord h₁.2).bind fun right e₂ g₂ h₂ => ?_
  exact pure ⟨⟨h₁.1.later g₂,h₂.1⟩,h₂.2⟩

def HasRow (env : List Bool)
    (ws : List (List BooleanWire × List BooleanWire) × BooleanWire × BooleanWire) (row : Row)
    (d : Draft) : Prop :=
  List.Forall₂ (fun ws pair => HasShares env ws pair d) ws.1 (row.score::row.features) ∧
    d.Has env ws.2.1 row.keep.1 ∧ d.Has env ws.2.2 row.keep.2

lemma HasRow.later {ws : List (List BooleanWire × List BooleanWire) × BooleanWire × BooleanWire} (h : HasRow env ws row d) (grown : Grown d e cost) :
    HasRow env ws row e :=
  ⟨h.1.imp fun _ _ shares => shares.later grown,h.2.1.later grown,h.2.2.later grown⟩

def inputCost (features : ℕ) : Tally := (features+1) • (64 • one .input)+2 • one .input

lemma emits_compactInput (same : row.features.length=features)
    (reads : d.Reads env (row.bits++rest)) : Emits iss.hash start (compactInput iss features)
    d (inputCost features) fun ws e => HasRow env ws row e ∧ e.Reads env rest := by
  have total : inputCost features =
      (features+1) • (64 • one .input)+(one .input+(one .input+0)) := by
    rw [add_zero,inputCost,two_nsmul]
  rw [Row.bits,append_assoc] at reads
  rw [total]
  have collected : Emits iss.hash start ((range (features+1)).mapM fun _ => wordPair iss)
      d ((range (features+1)).length • (64 • one .input)) _ :=
    emits_collect (fun pair => put pair.1++put pair.2)
      (fun pair ws e => HasShares env ws pair e) (fun _ _ _ _ _ h g => h.later g)
      (by rw [length_range,length_cons,same])
      (fun pair _ e rest reads => emits_wordPair reads) reads
  rw [length_range] at collected
  refine collected.bind fun words e₁ g₁ h₁ => ?_
  refine (emits_input h₁.2).bind fun leftKeep e₂ g₂ h₂ => ?_
  refine (emits_input h₂.2).bind fun rightKeep e₃ g₃ h₃ => ?_
  exact pure ⟨⟨h₁.1.imp fun _ _ h => HasShares.later h (g₂.trans g₃),h₂.1.later g₃,h₃.1⟩,h₃.2⟩

/-- A record of the circuit: the flag, the score and the features. -/
def Row.record (row : Row) : List Bool :=
  row.kept::(put row.clearScore++row.clearFeatures.flatMap put)

def recordBits (features : ℕ) : ℕ := 1+32*(features+1)

lemma length_puts (words : List (BitVec 32)) : (words.flatMap put).length = 32*words.length :=
  length_flatMap_const words fun a _ => length_put a

lemma Row.record_eq (row : Row) :
    row.record = [row.kept]++(put row.clearScore++row.clearFeatures.flatMap put) := rfl

lemma Row.length_record (row : Row) : row.record.length = recordBits row.features.length := by
  have features : row.clearFeatures.length=row.features.length := length_map _
  rw [Row.record_eq,length_append,length_append,length_put,length_puts,features,recordBits,
    length_singleton]
  omega

lemma emits_openWord (h : HasShares env ws pair d) : Emits iss.hash start
    (openWord iss ws) d (addCost 32) fun out e => e.HasWord env out (put (pair.1+pair.2)) := by
  rw [← add_zero (addCost 32)]
  exact (emits_add h.1 h.2).bind fun out e _ has => pure has

lemma emits_openRecord {ws : List (List BooleanWire × List BooleanWire) × BooleanWire × BooleanWire}
    (h : HasRow env ws row d) : Emits iss.hash start (openRecord iss ws) d
    (one .xor+(row.features.length+1) • addCost 32) fun out e => e.HasWord env out row.record := by
  have opened (e₁ : Draft) (grown : Grown d e₁ (one .xor)) : Emits iss.hash start
      (ws.1.mapM (openWord iss)) e₁ ((row.score::row.features).map fun _ => addCost 32).sum _ :=
    Emits.mapM (fun _ => addCost 32) (V := HasShares env) (fun _ _ _ _ _ h g => h.later g)
      (R := fun pair word e => e.HasWord env word (put (pair.1+pair.2)))
      (fun _ _ _ _ _ h g => h.later g) (h.1.imp fun _ _ shares => shares.later grown)
      fun e total pair values _ _ shares => emits_openWord shares
  simp only [sum_constant] at opened
  rw [← add_zero ((row.features.length+1) • addCost 32)]
  refine (emits_xor h.2.1 h.2.2).bind fun flag e₁ g₁ h₁ => ?_
  refine (opened e₁ g₁).bind fun words e₂ g₂ h₂ => pure (.cons (h₁.later g₂) ?_)
  have flat := hasWord_flatten (forall₂_map_right_iff.mpr h₂)
  have spelled : ((row.score::row.features).map fun pair => put (pair.1+pair.2)).flatten =
      put row.clearScore++row.clearFeatures.flatMap put := by
    rw [map_cons,Row.clearFeatures,flatMap_def,map_map]
    rfl
  rwa [spelled] at flat

def exchangeCost (bits : ℕ) : Tally := one .not+bits • (3 • one .xor+one .and)

lemma emits_exchangeBit {swap : BooleanWire} {s : Bool} {ws : BooleanWire × BooleanWire}
    {bits : Bool × Bool} (hs : d.Has env swap s) (hw : HasPair env ws bits d) :
    Emits iss.hash start (exchangeBit iss swap ws) d (3 • one .xor+one .and) fun out e =>
      HasPair env out (if s then bits.swap else bits) e := by
  have total : (3 • one .xor+one .and : Tally) =
      one .xor+(one .and+(one .xor+(one .xor+0))) := by
    funext k
    cases k <;> rfl
  rw [total]
  refine (emits_xor hw.1 hw.2).bind fun different e₁ g₁ h₁ => ?_
  refine (emits_and (hs.later g₁) h₁).bind fun movement e₂ g₂ h₂ => ?_
  refine (emits_xor (hw.1.later (g₁.trans g₂)) h₂).bind fun left e₃ g₃ h₃ => ?_
  refine (emits_xor (hw.2.later ((g₁.trans g₂).trans g₃)) (h₂.later g₃)).bind
    fun right e₄ g₄ h₄ => pure ?_
  obtain ⟨a,b⟩ := bits
  have moved : (if s then (a,b).swap else (a,b))=(a ^^ (s && (a ^^ b)),b ^^ (s && (a ^^ b))) := by
    cases s <;> cases a <;> cases b <;> rfl
  rw [moved]
  exact ⟨h₃.later g₄,h₄⟩

def HasRecords (env : List Bool) (recs : List (List BooleanWire))
    (plain : List (List Bool)) (d : Draft) : Prop :=
  List.Forall₂ (d.HasWord env) recs plain

section
variable {recs : List (List BooleanWire)} {plain : List (List Bool)}

variable (h : HasRecords env recs plain d)
include h

lemma HasRecords.later (grown : Grown d e cost) : HasRecords env recs plain e :=
  Forall₂.imp (fun _ _ has => has.later grown) h

lemma HasRecords.getD (i : ℕ) : d.HasWord env (recs.getD i []) (plain.getD i []) := by
  induction h generalizing i with
  | nil => exact .nil
  | cons head rest ih =>
    cases i with
    | zero => exact head
    | succ i => exact ih i

lemma HasRecords.set (i : ℕ) {w : List BooleanWire} {bits : List Bool}
    (hw : d.HasWord env w bits) : HasRecords env (recs.set i w) (plain.set i bits) d := by
  induction h generalizing i with
  | nil => exact .nil
  | cons head rest ih =>
    cases i with
    | zero => exact .cons hw rest
    | succ i => exact .cons head (ih i)

end

/-- A record that is not kept changes places with the next one. -/
def plainExchange (recs : List (List Bool)) (row : ℕ) : List (List Bool) :=
  if (recs.getD row []).getD 0 false then recs
  else (recs.set row (recs.getD (row+1) [])).set (row+1) (recs.getD row [])

variable {recs : List (List BooleanWire)} {plain : List (List Bool)}

lemma emits_exchangeRow {bits : ℕ} (pos : 0<bits) (uniform : Uniform bits plain)
    {row : ℕ} (inside : row+1<plain.length) (h : HasRecords env recs plain d) :
    Emits iss.hash start (exchangeRow iss recs row) d
    (exchangeCost bits) fun out e => HasRecords env out (plainExchange plain row) e := by
  have left := h.getD row
  have right := h.getD (row+1)
  have wide := uniform _ (getD_mem (lt_of_succ_lt inside))
  have wide' := uniform _ (getD_mem inside)
  have flag : d.Has env ((recs.getD row []).getD 0 ⟨0,0⟩)
      ((plain.getD row []).getD 0 false) := by
    revert left wide
    generalize recs.getD row []=ws
    generalize plain.getD row []=as
    intro left wide
    cases left with
    | nil =>
      rw [length_nil] at wide
      omega
    | cons head rest => exact head
  rw [exchangeCost,← add_zero (bits • (3 • one .xor+one .and))]
  refine (emits_not flag).bind fun swap e₁ g₁ h₁ => ?_
  have moved : Emits iss.hash start
      (((recs.getD row []).zip (recs.getD (row+1) [])).mapM (exchangeBit iss swap)) e₁
      (((plain.getD row []).zip (plain.getD (row+1) [])).map fun _ => 3 • one .xor+one .and).sum _ :=
    Emits.mapM (fun _ => 3 • one .xor+one .and)
      (V := fun ws bits e => HasPair env ws bits e ∧
        e.Has env swap (!(plain.getD row []).getD 0 false))
      (fun _ _ _ _ _ h g => ⟨h.1.later g,h.2.later g⟩)
      (R := fun bits out e => HasPair env out
        (if !(plain.getD row []).getD 0 false then bits.swap else bits) e)
      (fun _ _ _ _ _ h g => h.later g)
      (((left.later g₁).zip (right.later g₁)).imp fun _ _ pair => ⟨pair,h₁⟩)
      fun e total ws bits _ _ pair => emits_exchangeBit pair.2 pair.1
  rw [sum_constant,length_zip,wide,wide',min_self] at moved
  refine moved.bind fun out e₂ g₂ h₂ => pure ?_
  have kept := h.later (g₁.trans g₂)
  have fsts := forall₂_map_left_iff.mpr (forall₂_map_right_iff.mpr
    (h₂.imp fun _ _ pair => pair.1))
  have snds := forall₂_map_left_iff.mpr (forall₂_map_right_iff.mpr
    (h₂.imp fun _ _ pair => pair.2))
  have all := (kept.set row fsts).set (row+1) snds
  have spelled : (plain.set row (((plain.getD row []).zip (plain.getD (row+1) [])).map fun bits =>
      (if !(plain.getD row []).getD 0 false then bits.swap else bits).1)).set (row+1)
      (((plain.getD row []).zip (plain.getD (row+1) [])).map fun bits =>
        (if !(plain.getD row []).getD 0 false then bits.swap else bits).2) =
      plainExchange plain row := by
    rw [plainExchange]
    cases (plain.getD row []).getD 0 false with
    | true =>
      simp only [Bool.not_true,false_eq_true,if_false,if_true]
      rw [map_fst_zip (by omega),map_snd_zip (by omega),
        getD_eq_getElem _ _ (lt_of_succ_lt inside),set_getElem_self,
        getD_eq_getElem _ _ inside,set_getElem_self]
    | false =>
      simp only [Bool.not_false,if_true,false_eq_true,if_false,Prod.fst_swap, Prod.snd_swap]
      rw [map_fst_zip (by omega),map_snd_zip (by omega)]
  rwa [spelled] at all

end

section
variable {plain : List (List Bool)} {bits : ℕ}

lemma length_plainExchange (plain : List (List Bool)) (row : ℕ) :
    (plainExchange plain row).length = plain.length := by
  rw [plainExchange]
  split
  · rfl
  · rw [length_set,length_set]

lemma uniform_plainExchange {row : ℕ} (h : Uniform bits plain) (inside : row+1<plain.length) :
    Uniform bits (plainExchange plain row) := by
  rw [plainExchange]
  split
  · exact h
  · intro record m
    rcases mem_or_eq_of_mem_set m with m | rfl
    · rcases mem_or_eq_of_mem_set m with m | rfl
      · exact h record m
      · exact h _ (getD_mem inside)
    · exact h _ (getD_mem (lt_of_succ_lt inside))

end

section Passes
variable {α : Type} (keep : α → Bool)

/-- A pass over a row and the rows after it: what it leaves, and what it carries to the end. -/
def carry (x : α) : List α → List α × α
  | [] => ([],x)
  | y::ys => if keep x then (x::(carry y ys).1,(carry y ys).2) else (y::(carry x ys).1,(carry x ys).2)

lemma length_carry (x : α) (ys : List α) : (carry keep x ys).1.length = ys.length := by
  induction ys generalizing x with
  | nil => rfl
  | cons y ys ih =>
    rw [carry]
    split
    · exact congrArg (· + 1) (ih y)
    · exact congrArg (· + 1) (ih x)

lemma carry_dropped {x : α} (h : keep x = false) (ys : List α) : carry keep x ys = (ys,x) := by
  induction ys with
  | nil => rfl
  | cons y ys ih => rw [carry,if_neg (by rw [h]; decide),ih]

lemma filter_carry {x : α} {ys : List α} (h : ∃ z∈x::ys,keep z = false) :
    (carry keep x ys).1.filter keep = (x::ys).filter keep := by
  induction ys generalizing x with
  | nil =>
    obtain ⟨z,m,dropped⟩ := h
    rw [mem_singleton] at m
    rw [carry,filter_cons,if_neg (by rw [← m,dropped]; decide)]
  | cons y ys ih =>
    cases kept : keep x with
    | false =>
      rw [carry_dropped keep kept]
      exact (filter_cons_of_neg (by rw [kept]; decide)).symm
    | true =>
      have rest : ∃ z∈y::ys,keep z=false := by
        obtain ⟨z,m,dropped⟩ := h
        rcases mem_cons.mp m with rfl | m
        · rw [kept] at dropped
          cases dropped
        · exact ⟨z,m,dropped⟩
      rw [carry,if_pos kept,filter_cons,if_pos kept,filter_cons,if_pos kept,ih rest]

end Passes

/-- The flag of a record. -/
def flagged (record : List Bool) : Bool := record.getD 0 false

lemma foldl_plainExchange (x : List Bool) (ys done tail : List (List Bool)) :
    (range' done.length ys.length).foldl plainExchange (done++x::ys++tail) =
      done++(carry flagged x ys).1++(carry flagged x ys).2::tail := by
  induction ys generalizing x done with
  | nil => simp [carry]
  | cons y ys ih =>
    have here : (done++x::y::ys++tail).getD done.length []=x := by simp
    have next : (done++x::y::ys++tail).getD (done.length+1) []=y := by
      simp
    rw [length_cons,range'_succ,List.foldl_cons,plainExchange,here,next,carry,flagged]
    cases x.getD 0 false with
    | true =>
      have step := ih y (done++[x])
      rw [length_append] at step
      simp only [append_assoc,cons_append] at step ⊢
      exact step
    | false =>
      have step := ih x (done++[y])
      rw [length_append,length_singleton] at step
      have moved : ((done++x::y::ys++tail).set done.length y).set (done.length+1) x =
          done++[y]++x::ys++tail := by
        simp
      rw [if_neg Bool.false_ne_true,moved,step]
      simp

def plainPass (tokens : ℕ) (recs : List (List Bool)) (pass : ℕ) : List (List Bool) :=
  (List.range (tokens-pass-1)).foldl plainExchange recs

/-- After each pass the rows still open hold every kept record, in order. -/
lemma foldl_plainPass {tokens retained passes : ℕ} {recs : List (List Bool)}
    (len : recs.length=tokens) (kept : (recs.filter flagged).length = retained)
    (few : passes≤tokens-retained) : ∃ opened closed, (range passes).foldl (plainPass tokens) recs =
    opened++closed ∧ opened.length=tokens-passes ∧ opened.filter flagged = recs.filter flagged := by
  induction passes with
  | zero => exact ⟨recs,[],(append_nil _).symm,len,rfl⟩
  | succ pass ih =>
    obtain ⟨opened,closed,eq,size,same⟩ := ih (le_of_succ_le few)
    rw [range_succ,foldl_append,eq,List.foldl_cons,foldl_nil]
    cases opened with
    | nil =>
      rw [length_nil] at size
      omega
    | cons x ys =>
      rw [length_cons] at size
      have dropped : ∃ z∈x::ys,flagged z=false := by
        by_contra none
        push Not at none
        have all : (x::ys).filter flagged=x::ys :=
          filter_eq_self.mpr fun z m => by simpa using none z m
        have count := congrArg length (all.symm.trans same)
        rw [length_cons] at count
        omega
      have pass_eq := foldl_plainExchange x ys [] closed
      rw [length_nil,nil_append,nil_append,← range_eq_range'] at pass_eq
      have rounds : tokens-pass-1=ys.length := by omega
      refine ⟨(carry flagged x ys).1,(carry flagged x ys).2::closed,?_,?_,?_⟩
      · rw [plainPass,rounds,pass_eq]
      · rw [length_carry]
        omega
      · rw [filter_carry flagged dropped,same]

lemma take_foldl_plainPass {tokens retained : ℕ} {recs : List (List Bool)}
    (len : recs.length=tokens) (kept : (recs.filter flagged).length = retained) :
    ((range (tokens-retained)).foldl (plainPass tokens) recs).take retained =
      recs.filter flagged := by
  have fewer : retained≤tokens := by
    rw [← len,← kept]
    exact length_filter_le _ _
  obtain ⟨opened,closed,eq,size,same⟩ := foldl_plainPass len kept le_rfl
  have short : opened.length=retained := by omega
  have all : opened.filter flagged=opened :=
    Sublist.eq_of_length filter_sublist (by rw [same,kept,short])
  rw [eq,take_left' short,← same,all]

section
variable {env : List Bool} {start : BooleanCircuitBuilder} {iss : Issuer} {d : Draft}
  {bits tokens : ℕ}

lemma emits_compactPass (pos : 0<bits) {pass : ℕ} (uniform : Uniform bits plain)
    (len : plain.length=tokens) (h : HasRecords env recs plain d) : Emits iss.hash start
    (compactPass iss tokens recs pass) d ((tokens-pass-1) • exchangeCost bits)
    fun out e => HasRecords env out (plainPass tokens plain pass) e := by
  have looped : Emits iss.hash start (compactPass iss tokens recs pass) d
      ((range (tokens-pass-1)).map fun _ => exchangeCost bits).sum _ :=
    Emits.foldlM (g := plainExchange) (fun _ => exchangeCost bits) (V := fun x y _ => x=y)
      (fun _ _ _ _ _ h _ => h) (fun plain => Uniform bits plain ∧ plain.length=tokens)
      (HasRecords env) (forall₂_refl _) ⟨uniform,len⟩ h
      (fun plain row m hp => by
        have inside := mem_range.mp m
        exact ⟨uniform_plainExchange hp.1 (by rw [hp.2]; omega),(length_plainExchange _ _).trans hp.2⟩)
      fun recs plain e row _ m hp same has => by
        have inside := mem_range.mp m
        subst same
        exact emits_exchangeRow pos hp.1 (by rw [hp.2]; omega) has
  rwa [sum_constant,length_range] at looped

lemma plainPass_keeps (uniform : Uniform bits plain) (len : plain.length=tokens) (pass : ℕ) :
    Uniform bits (plainPass tokens plain pass) ∧ (plainPass tokens plain pass).length = tokens := by
  rw [plainPass]
  have inside : ∀ row ∈ range (tokens-pass-1),row+1<tokens := fun row m => by
    have below := mem_range.mp m
    omega
  revert inside
  generalize range (tokens-pass-1)=rows
  intro inside
  induction rows generalizing plain with
  | nil => exact ⟨uniform,len⟩
  | cons row rows ih =>
    exact ih (uniform_plainExchange uniform (len.symm ▸ inside row mem_cons_self))
      ((length_plainExchange _ _).trans len) fun row m => inside row (mem_cons_of_mem _ m)

/-- The exchanges of the first passes. -/
def exchanges (tokens passes : ℕ) : ℕ := ((List.range passes).map fun pass => tokens-pass-1).sum

lemma emits_passes (pos : 0<bits) (passes : ℕ) (uniform : Uniform bits plain)
    (len : plain.length=tokens) (h : HasRecords env recs plain d) : Emits iss.hash start
    ((range passes).foldlM (compactPass iss tokens) recs) d (exchanges tokens passes • exchangeCost
    bits) fun out e => HasRecords env out ((range passes).foldl (plainPass tokens) plain) e := by
  have looped : Emits iss.hash start
      ((range passes).foldlM (compactPass iss tokens) recs) d
      ((range passes).map fun pass => (tokens-pass-1) • exchangeCost bits).sum _ :=
    Emits.foldlM (g := plainPass tokens) (fun pass => (tokens-pass-1) • exchangeCost bits)
      (V := fun x y _ => x=y) (fun _ _ _ _ _ h _ => h)
      (fun plain => Uniform bits plain ∧ plain.length=tokens) (HasRecords env)
      (forall₂_refl _) ⟨uniform,len⟩ h (fun plain pass _ hp => plainPass_keeps hp.1 hp.2 pass)
      fun recs plain e pass _ _ hp same has => by
        subst same
        exact emits_compactPass pos hp.1 hp.2 has
  refine looped.costs ?_
  rw [exchanges,sum_smul,map_map]
  rfl

lemma two_mul_exchanges {passes : ℕ} (few : passes≤tokens) :
    2*exchanges tokens passes = passes*(2*tokens-passes-1) := by
  induction passes with
  | zero => simp [exchanges]
  | succ passes ih =>
    have before := ih (le_of_succ_le few)
    have next : exchanges tokens (passes+1)=exchanges tokens passes+(tokens-passes-1) := by
      simp [exchanges,range_succ]
    rw [next,mul_add,before]
    obtain ⟨rest,rfl⟩ := Nat.exists_eq_add_of_le few
    have left : 2*(passes+1+rest)-passes-1=passes+2*rest+1 := by omega
    have right : 2*(passes+1+rest)-(passes+1)-1=passes+2*rest := by omega
    have last : passes+1+rest-passes-1=rest := by omega
    rw [left,right,last]
    ring

lemma Draft.HasWord.slice {values : List Bool} (h : d.HasWord env ws values)
    (first len : ℕ) : d.HasWord env (slice ws first len) (slice values first len) :=
  forall₂_take _ (forall₂_drop _ h)

lemma Row.slice_feature (row : Row) (inside : feat < row.features.length) :
    slice row.record (33+feat*32) 32 = put (row.clearFeatures.getD feat 0) := by
  have within : feat < row.clearFeatures.length := by
    rwa [clearFeatures,length_map]
  have from_words : 33+feat*32-[row.kept].length-(put row.clearScore).length=feat*32 := by
    rw [length_singleton,length_put]
    omega
  rw [Row.record_eq,slice_append_right _ _ (by rw [length_singleton]; omega),
    slice_append_right _ _ (by rw [length_singleton,length_put]; omega),from_words,
    getD_eq_getElem _ _ within]
  exact row_flatMap (fun a _ => length_put a) within

lemma emits_maskedFeature {record mask : List BooleanWire} {word : BitVec 32} (inside : feat < row.features.length)
    (hr : d.HasWord env record row.record) (hm : d.HasWord env mask (put word)) :
    Emits iss.hash start (maskedFeature iss record mask feat) d (subtractCost 32)
      fun out e => e.HasWord env out (put (row.clearFeatures.getD feat 0-word)) := by
  have part := Draft.HasWord.slice hr (33+feat*32) 32
  rw [row.slice_feature inside] at part
  rw [← add_zero (subtractCost 32)]
  exact (emits_subtract part hm).bind fun out e _ has => pure has

/-- The masked words of a row. -/
def maskedWords (features : ℕ) (masks : List (BitVec 32)) (row : ℕ × Row) : List (BitVec 32) :=
  (List.range features).map fun feat =>
    row.2.clearFeatures.getD feat 0-masks.getD (row.1*features+feat) 0

variable {masks : List (List BooleanWire)}

lemma emits_maskedRecord {record : ℕ × List BooleanWire}
    {row : ℕ × Row} (width : row.2.features.length=features) (first : row.1 < retained)
    (count : words.length=retained*features) (hm : HasRecords env masks (words.map put) d)
    (index : record.1=row.1) (hr : d.HasWord env record.2 row.2.record) : Emits iss.hash start
    (maskedRecord iss features masks record) d (features • subtractCost 32)
    fun out e => e.HasWord env out ((maskedWords features words row).flatMap put) := by
  have each : Emits iss.hash start ((range features).mapM fun feat =>
      maskedFeature iss record.2 (masks.getD (record.1*features+feat) []) feat) d
      ((range features).map fun _ => subtractCost 32).sum _ :=
    Emits.mapM (fun _ => subtractCost 32) (V := fun x y e => x=y ∧
        HasRecords env masks (words.map put) e ∧ e.HasWord env record.2 row.2.record)
      (fun _ _ _ _ _ h g => ⟨h.1,h.2.1.later g,h.2.2.later g⟩)
      (R := fun feat out e => e.HasWord env out
        (put (row.2.clearFeatures.getD feat 0-words.getD (row.1*features+feat) 0)))
      (fun _ _ _ _ _ h g => h.later g)
      (forall₂_same.mpr fun _ _ => ⟨rfl,hm,hr⟩) fun e total x feat m _ h => by
        obtain ⟨rfl,masksHere,recordHere⟩ := h
        have below := mem_range.mp m
        have inside : row.1*features+x<words.length := by
          rw [count]
          calc row.1*features+x < row.1*features+features := Nat.add_lt_add_left below _
            _ = (row.1+1)*features := (succ_mul _ _).symm
            _ ≤ retained*features := Nat.mul_le_mul_right _ first
        have mask := masksHere.getD (record.1*features+x)
        have spelled : (words.map put).getD (record.1*features+x) [] =
            put (words.getD (row.1*features+x) 0) := by
          rw [index,getD_eq_getElem _ _ (by rwa [length_map]),getElem_map,
            getD_eq_getElem _ _ inside]
        rw [spelled] at mask
        exact emits_maskedFeature (width.symm ▸ below) recordHere mask
  rw [sum_constant,length_range] at each
  rw [← add_zero (features • subtractCost 32)]
  refine each.bind fun out e g h => pure ?_
  have flat := hasWord_flatten (forall₂_map_right_iff.mpr h)
  rwa [maskedWords,flatMap_map]

/-- The bits that the compaction circuit puts out for these rows. -/
def compacted (p : Parameters) (rows : List Row) (masks : List (BitVec 32)) : List Bool :=
  (((List.range rows.length).zip rows).flatMap (maskedWords p.features masks)).flatMap put ++
    rows.map fun row => decide (p.scoreThreshold true < row.clearScore.toNat)

def compactCost (p : Parameters) (retained : ℕ) : Tally :=
  p.tokens • inputCost p.features+((retained*p.features) • (32 • one .input)+
    (p.tokens • (one .xor+(p.features+1) • addCost 32)+
      (exchanges p.tokens (p.tokens-retained) • exchangeCost (recordBits p.features)+
        (retained • (p.features • subtractCost 32)+
          retained • greaterCost (p.scoreThreshold true)))))

lemma emits_maskedRecords (width : ∀ row∈rows,row.features.length=features)
    (len : rows.length=retained) (count : words.length=retained*features)
    (hm : HasRecords env masks (words.map put) d) (hr : HasRecords env recs (rows.map Row.record) d)
    : Emits iss.hash start (((range retained).zip recs).mapM (maskedRecord iss features masks)) d
    (retained • (features • subtractCost 32)) fun out e => e.HasWord env out.flatten
    ((((range retained).zip rows).flatMap (maskedWords features words)).flatMap put) := by
  have indexed : Forall₂ (fun record (row : ℕ × Row) => record.1=row.1 ∧
      HasRecords env masks (words.map put) d ∧ d.HasWord env record.2 row.2.record)
      ((range retained).zip recs) ((range retained).zip rows) := by
    have plain := forall₂_map_right_iff.mp hr
    clear hr len width
    generalize range retained=indices
    induction plain generalizing indices with
    | nil =>
      rw [zip_nil_right,zip_nil_right]
      exact .nil
    | cons here plain ih =>
      cases indices with
      | nil => exact .nil
      | cons i indices => exact .cons ⟨rfl,hm,here⟩ (ih indices)
  have each : Emits iss.hash start (((range retained).zip recs).mapM
      (maskedRecord iss features masks)) d
      (((range retained).zip rows).map fun _ => features • subtractCost 32).sum _ :=
    Emits.mapM (fun _ => features • subtractCost 32)
      (V := fun (record : ℕ × List BooleanWire) (row : ℕ × Row) e => record.1=row.1 ∧ HasRecords env masks (words.map put) e ∧
          e.HasWord env record.2 row.2.record)
      (fun _ _ _ _ _ h g => ⟨h.1,h.2.1.later g,h.2.2.later g⟩)
      (R := fun row out e => e.HasWord env out ((maskedWords features words row).flatMap put))
      (fun _ _ _ _ _ h g => h.later g) indexed fun e total record row m _ h => by
        obtain ⟨index,member⟩ := of_mem_zip m
        exact emits_maskedRecord (width _ member) (mem_range.mp index) count h.2.1 h.1 h.2.2
  rw [sum_constant,length_zip,length_range,len,min_self] at each
  refine each.mono fun out e _ h => ?_
  have flat := hasWord_flatten (forall₂_map_right_iff.mpr h)
  rwa [← flatMap_def,← flatMap_assoc] at flat

lemma emits_degrees (fits : thr<2^32) (hr : HasRecords env recs (rows.map Row.record) d) :
    Emits iss.hash start (recs.mapM fun record => greater iss (slice record 1 32) thr)
      d (rows.length • greaterCost thr) fun out e => e.HasWord env out
        (rows.map fun row => decide (thr < row.clearScore.toNat)) := by
  have each : Emits iss.hash start (recs.mapM fun record =>
      greater iss (slice record 1 32) thr) d
      (rows.map fun _ => greaterCost thr).sum _ :=
    Emits.mapM (fun _ => greaterCost thr)
      (V := fun record (row : Row) e => e.HasWord env record row.record)
      (fun _ _ _ _ _ h g => h.later g)
      (R := fun row w e => e.Has env w (decide (thr < row.clearScore.toNat)))
      (fun _ _ _ _ _ h g => h.later g) (forall₂_map_right_iff.mp hr)
      fun e total record row _ _ h => by
        have part := Draft.HasWord.slice h 1 32
        exact emits_greater fits part
  rw [sum_constant] at each
  exact each.mono fun out e _ h => forall₂_map_right_iff.mpr h

lemma emits_compactOutputs
    {masks : List (BitVec 32)} (fits : p.scoreThreshold true < 2^32)
    (tokens : rows.length=p.tokens) (width : ∀ row∈rows,row.features.length=p.features)
    (kept : (rows.filter Row.kept).length = retained) (fewer : retained<p.tokens)
    (count : masks.length=retained*p.features)
    (reads : d.Reads env (rows.flatMap Row.bits++masks.flatMap put)) :
    Emits iss.hash start (compactOutputs iss p retained) d (compactCost p retained)
      fun out e => e.HasWord env out (compacted p (rows.filter Row.kept) masks) := by
  have openedRows : Emits iss.hash start ((range p.tokens).mapM fun _ =>
      compactInput iss p.features) d ((range p.tokens).length • inputCost p.features) _ :=
    emits_collect Row.bits (fun row ws e => HasRow env ws row e)
      (fun _ _ _ _ _ h g => h.later g) (length_range.trans tokens.symm)
      (fun row m e rest reads => emits_compactInput (width row m) reads) reads
  rw [length_range] at openedRows
  refine openedRows.bind fun inputs e₁ g₁ h₁ => ?_
  have spelled : e₁.Reads env (masks.flatMap put++[]) := by
    rw [append_nil]
    exact h₁.2
  have openedMasks : Emits iss.hash start ((range (retained*p.features)).mapM fun _ =>
      iss.inputWord 32) e₁ ((range (retained*p.features)).length • (32 • one .input)) _ :=
    emits_collect put (fun mask ws e => e.HasWord env ws (put mask))
      (fun _ _ _ _ _ h g => h.later g) (length_range.trans count.symm)
      (fun mask _ e rest reads => emits_putWord reads) spelled
  rw [length_range] at openedMasks
  refine openedMasks.bind fun maskWires e₂ g₂ h₂ => ?_
  have hm : HasRecords env maskWires (masks.map put) e₂ :=
    forall₂_map_right_iff.mpr h₂.1
  have opened : Emits iss.hash start (inputs.mapM (openRecord iss)) e₂
      (rows.map fun _ => one .xor+(p.features+1) • addCost 32).sum _ :=
    Emits.mapM (fun _ => one .xor+(p.features+1) • addCost 32) (V := HasRow env)
      (fun _ _ _ _ _ h g => h.later g) (R := fun row w e => e.HasWord env w row.record)
      (fun _ _ _ _ _ h g => h.later g) (h₁.1.imp fun _ _ row => row.later g₂)
      fun e total ws row m _ h => width row m ▸ emits_openRecord h
  rw [sum_constant,tokens] at opened
  refine opened.bind fun recs e₃ g₃ h₃ => ?_
  have plain : HasRecords env recs (rows.map Row.record) e₃ :=
    forall₂_map_right_iff.mpr h₃
  have uniform : Uniform (recordBits p.features) (rows.map Row.record) := by
    intro record m
    obtain ⟨row,member,rfl⟩ := mem_map.mp m
    rw [row.length_record,width row member]
  have len : (rows.map Row.record).length=p.tokens := by rw [length_map,tokens]
  have flags : (rows.map Row.record).filter flagged=(rows.filter Row.kept).map Row.record := by
    rw [filter_map]
    rfl
  have positive : 0 < recordBits p.features := by
    rw [recordBits]
    omega
  refine (emits_passes positive (p.tokens-retained) uniform len plain).bind
    fun moved e₄ g₄ h₄ => ?_
  have front := take_foldl_plainPass len (by rw [flags,length_map,kept])
  rw [flags] at front
  have takes : HasRecords env (moved.take retained)
      ((rows.filter Row.kept).map Row.record) e₄ := front ▸ forall₂_take retained h₄
  refine (emits_maskedRecords (fun row m => width row (mem_of_mem_filter m)) kept count
    (hm.later (g₃.trans g₄)) takes).bind fun words e₅ g₅ h₅ => ?_
  rw [if_pos fewer,← add_zero (retained • greaterCost _)]
  refine ((emits_degrees fits (takes.later g₅)).costs (by rw [kept])).bind
    fun degrees e₆ g₆ h₆ => pure ?_
  have whole := rel_append (h₅.later g₆) h₆
  rw [compacted,kept]
  exact whole

end

end Pllm.Garble.TokenPruning
