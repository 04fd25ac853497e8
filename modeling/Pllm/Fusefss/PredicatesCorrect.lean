import Pllm.Fusefss.Predicates
import Pllm.Fusefss.CompileRuns

/-! The stack machines of the two parties hold exclusive-or shares of the plain stack, gate by gate. -/
namespace Pllm.Fusefss.Predicates
open Pllm.Lib List TripleShare Fss.CompactDcf Fss.Word Execution RingComparison
open Pllm.Fss.CompactDcf (RingComparison bitWord)

/-- Exclusive-or shares of a bit, each zero or one. -/
def Shared (a b : BitVec 64) (v : Bool) : Prop := ∃ s : Bool, a = bitWord s ∧ b = bitWord (s ^^ v)

lemma bitWord_xor (s t : Bool) : bitWord s ^^^ bitWord t = bitWord (s ^^ t) := by
  cases s <;> cases t <;> rfl

lemma bitWord_le (s : Bool) : bitWord s ≤ 1 := by
  cases s <;> decide

lemma exists_bitWord (x : BitVec 64) : ∃ s : Bool, x &&& 1 = bitWord s := by
  have hone : (1 : BitVec 64)=lowMask 1 := by decide
  have hand : (x &&& 1).toNat=x.toNat%2 := by
    rw [hone,toNat_and_lowMask x (by decide)]
    rfl
  rcases Nat.mod_two_eq_zero_or_one x.toNat with h | h
  · exact ⟨false,BitVec.eq_of_toNat_eq (hand.trans h)⟩
  · exact ⟨true,BitVec.eq_of_toNat_eq (hand.trans h)⟩

section
variable {a b c d : BitVec 64} {v w : Bool}

lemma Shared.xor_eq (h : Shared a b v) : a ^^^ b = bitWord v := by
  obtain ⟨s,rfl,rfl⟩ := h
  cases s <;> cases v <;> rfl

lemma Shared.le (h : Shared a b v) : a≤1 ∧ b≤1 := by
  obtain ⟨s,rfl,rfl⟩ := h
  exact ⟨bitWord_le _,bitWord_le _⟩

lemma Shared.xor (h : Shared a b v) (k : Shared c d w) : Shared (a ^^^ c) (b ^^^ d) (v != w) := by
  obtain ⟨s,rfl,rfl⟩ := h
  obtain ⟨t,rfl,rfl⟩ := k
  refine ⟨s ^^ t,bitWord_xor s t,(bitWord_xor _ _).trans ?_⟩
  cases s <;> cases t <;> cases v <;> cases w <;> rfl

lemma Shared.not (h : Shared a b v) :
    Shared (a ^^^ (if false then 0 else 1)) (b ^^^ (if true then 0 else 1)) (!v) := by
  obtain ⟨s,rfl,rfl⟩ := h
  refine ⟨!s,?_,?_⟩
  · cases s <;> rfl
  · cases s <;> cases v <;> rfl

lemma shared_zero : Shared 0 0 false := ⟨false,rfl,rfl⟩

lemma Shared.of_add {p : Prop} [Decidable p] (ha : ∃ s, a = bitWord s) (hb : ∃ s, b = bitWord s)
    (h : (a+b).toNat%2 = if p then 1 else 0) : Shared a b (decide p) := by
  obtain ⟨s,rfl⟩ := ha
  obtain ⟨t,rfl⟩ := hb
  refine ⟨s,rfl,?_⟩
  by_cases hp : p
  · rw [if_pos hp] at h
    rw [decide_eq_true hp]
    cases s <;> cases t <;> first | rfl | exact absurd h (by decide)
  · rw [if_neg hp] at h
    rw [decide_eq_false hp]
    cases s <;> cases t <;> first | rfl | exact absurd h (by decide)

end

/-- The shares of one triple of bits. -/
def TriplePair (t u : TripleShare) : Prop := ∃ x y a b c : Bool,
  t = ⟨(bitWord a,bitWord b,bitWord c),1⟩
  ∧ u = ⟨(bitWord (x ^^ a),bitWord (y ^^ b),bitWord ((x && y) ^^ c)),1⟩

lemma bitWord_sub (s t : Bool) : (bitWord s-bitWord t) &&& 1 = bitWord (s ^^ t) := by
  cases s <;> cases t <;> rfl

lemma bitWord_add (s t : Bool) : (bitWord s+bitWord t) &&& 1 = bitWord (s ^^ t) := by
  cases s <;> cases t <;> rfl

lemma bitWord_mul_sub (s t u : Bool) :
    (bitWord s*bitWord t-bitWord u) &&& 1 = bitWord ((s && t) ^^ u) := by
  cases s <;> cases t <;> cases u <;> rfl

lemma bitWord_finish (a b c d e : Bool) (party : Bool) :
    (bitWord c+bitWord d*bitWord b+bitWord e*bitWord a +bitWord d*bitWord e*(if party then 0 else
      1)) &&& 1 = bitWord (c ^^ (d && b) ^^ (e && a) ^^ (d && e && !party)) := by
  cases a <;> cases b <;> cases c <;> cases d <;> cases e <;> cases party <;> rfl

lemma issue_one (word : ℕ → BitVec 64) :
    ∃ t u, TripleShare.issue 1 word = .ok (t,u) ∧ TriplePair t u := by
  obtain ⟨x,hx⟩ := exists_bitWord (word 0)
  obtain ⟨y,hy⟩ := exists_bitWord (word 1)
  obtain ⟨a,ha⟩ := exists_bitWord (word 2)
  obtain ⟨b,hb⟩ := exists_bitWord (word 3)
  obtain ⟨c,hc⟩ := exists_bitWord (word 4)
  have hmask : ringMask 1 = .ok 1 := rfl
  refine ⟨_,_,by rw [TripleShare.issue,hmask,ok_bind]; rfl,x,y,a,b,c,?_,?_⟩
  · simp only [ha,hb,hc]
  · simp only [hx,hy,ha,hb,hc,bitWord_sub,bitWord_mul_sub]

lemma canonical_one {t : TripleShare} (hmask : t.mask=1) (s r : Bool) :
    t.canonical (bitWord s,bitWord r) = .ok () := by
  rw [canonical,hmask,if_neg]
  exact not_or.mpr ⟨BitVec.not_lt.mpr (bitWord_le s),BitVec.not_lt.mpr (bitWord_le r)⟩

lemma opening_one (a b c s r : Bool) : opening ⟨(bitWord a,bitWord b,bitWord c),1⟩
    (bitWord s) (bitWord r) = .ok (bitWord (s ^^ a),bitWord (r ^^ b)) := by
  rw [opening,canonical_one rfl,ok_bind]
  simp only [bitWord_sub,pure_eq_ok]

lemma finish_one (a b c d e d' e' party : Bool) : finish ⟨(bitWord a,bitWord b,bitWord c),1⟩ party
    (bitWord d,bitWord e) (bitWord d',bitWord e') = .ok (bitWord
    (c ^^ ((d ^^ d') && b) ^^ ((e ^^ e') && a) ^^ ((d ^^ d') && (e ^^ e') && !party))) := by
  rw [finish,canonical_one rfl,ok_bind,canonical_one rfl,ok_bind]
  simp only [bitWord_add,bitWord_finish,pure_eq_ok]

/-- A gate: both open their operands and finish with shares of the product. -/
lemma TriplePair.product {t u : TripleShare} (h : TriplePair t u)
    {x₀ x₁ y₀ y₁ : BitVec 64} {v w : Bool} (hx : Shared x₀ x₁ v) (hy : Shared y₀ y₁ w) :
    ∃ o p, t.opening x₀ y₀ = .ok o ∧ u.opening x₁ y₁ = .ok p ∧ (o.1≤1 ∧ o.2≤1) ∧ (p.1≤1 ∧ p.2≤1) ∧
    ∃ z₀ z₁, t.finish false o p = .ok z₀ ∧ u.finish true p o = .ok z₁ ∧ Shared z₀ z₁ (v && w) := by
  obtain ⟨x,y,a,b,c,rfl,rfl⟩ := h
  obtain ⟨s,rfl,rfl⟩ := hx
  obtain ⟨r,rfl,rfl⟩ := hy
  refine ⟨_,_,opening_one a b c s r,opening_one _ _ _ _ _,⟨bitWord_le _,bitWord_le _⟩,
    ⟨bitWord_le _,bitWord_le _⟩,_,_,finish_one _ _ _ _ _ _ _ false,finish_one _ _ _ _ _ _ _ true,
    _,rfl,congrArg bitWord ?_⟩
  revert x y a b c s r v w
  decide

lemma exists_bitWord_evaluateWords (aes : Fss.Aes) (party : Bool) (input finalWord : BitVec 64)
    (words : List (Correction (BitVec 64))) (seed : Block) (control : Bool) (sum : BitVec 64) : ∃ s,
    evaluateWords aes (lowMask 1) party input finalWord words seed control sum = bitWord s := by
  induction words generalizing seed control sum with
  | nil =>
    have hmask : (lowMask 1 : BitVec 64)=1 := by decide
    obtain ⟨s,hs⟩ := exists_bitWord (sum+Fss.CompactDcf.signed (add
      (convert seed (lowMask 1)) (scale finalWord (bitWord control) (lowMask 1))
      (lowMask 1)) party (lowMask 1))
    refine ⟨s,?_⟩
    rw [←hs]
    simp [evaluateWords,add,hmask]
  | cons word words ih => exact ih _ _ _

lemma exists_bitWord_eval {aes : Fss.Aes} {key : RingComparison} (hout : key.outputBits=1)
    {party : ℕ} {input v : BitVec 64} (h : key.eval aes party input = .ok v) : ∃ s, v = bitWord s := by
  obtain ⟨-,h⟩ := ite_error_eq_ok.mp h
  cases h
  rw [hout]
  exact exists_bitWord_evaluateWords ..

/-- The dealer's keys for a comparison: shares of its answer at every word. -/
structure QueryPair (env : Platform) (q : PredicateQuery) (a b : Query) : Prop where
  bits : a.bits=q.bits ∧ b.bits=q.bits
  shift : a.shift = BitVec.ofNat 64 q.shift ∧ b.shift = BitVec.ofNat 64 q.shift
  keys : ∃ limit roots, RingComparison.issueWith env.aes env.sizes q.bits 1
    (BitVec.ofNat 64 q.threshold) 1 limit roots = .ok (a.key,b.key)

/-- The constants of a comparison fit its ring, and its ring the word. -/
structure Fits (bits : ℕ) (q : PredicateQuery) : Prop where
  pos : 0<q.bits
  le : q.bits≤bits
  shift : q.shift<2^q.bits
  threshold : q.threshold<2^q.bits

variable {bits : ℕ} {q : PredicateQuery} {cs ds : List CodeWord} {s r : List (BitVec 64)}
  {stack' : List Bool}

lemma issueQuery_pair (env : Platform) (hq : Fits bits q) (hbits : bits≤50)
    (roots : Block × Block) : ∃ a b, issueQuery env q roots = .ok (a,b) ∧ QueryPair env q a b := by
  have hpos := hq.pos
  have hle := hq.le
  have hpow : 2^q.bits≤2^50 := Nat.pow_le_pow_right (by decide) (by omega)
  have hthr : (BitVec.ofNat 64 q.threshold).toNat=q.threshold := by
    rw [BitVec.toNat_ofNat,Nat.mod_eq_of_lt (by have := hq.threshold; omega)]
  have hval : validate q.bits 1 = .ok () := by
    rw [validate,if_neg]
    omega
  have hcost : RingComparison.resources env.sizes q.bits 1
      = .ok (Fss.CompactDcf.resources env.sizes q.bits (q.bits,q.bits)) := by
    rw [RingComparison.resources,hval]
    rfl
  have hkeys : ∃ keys, issueWith env.aes env.sizes q.bits 1
      (BitVec.ofNat 64 q.threshold) 1
      (Fss.CompactDcf.resources env.sizes q.bits (q.bits,q.bits)).combinedAllocationBytes roots
        = .ok keys ∧ keys.1.key.words.length=q.bits ∧ keys.2.key.words.length=q.bits := by
    rw [issueWith,hcost,ok_bind,if_neg,if_neg (lt_irrefl _), generate,if_neg (lt_irrefl _)]
    · exact ⟨_,rfl,length_issueLevels ..,length_issueLevels ..⟩
    · rw [hthr]
      exact not_or.mpr ⟨not_le.mpr hq.threshold,by decide⟩
  obtain ⟨keys,hisu,h1,h2⟩ := hkeys
  refine ⟨⟨q.bits,BitVec.ofNat 64 q.shift,keys.1⟩,⟨q.bits,BitVec.ofNat 64 q.shift,keys.2⟩,?_,
    ⟨rfl,rfl⟩,⟨rfl,rfl⟩,_,roots,hisu⟩
  rw [issueQuery,keyResources,hcost]
  simp only [Except.mapError,ok_bind,hisu]
  rw [if_neg]
  · rfl
  · rw [h1,h2]
    exact not_or.mpr ⟨lt_irrefl _,lt_irrefl _⟩

/-- Both evaluate their keys at the opened word to shares of the answer. -/
lemma QueryPair.eval {env : Platform} {a b : Query}
    (h : QueryPair env q a b) (hq : Fits bits q) (hbits : bits≤50) {y : BitVec 64} :
    ∃ u v, (a.key.eval env.aes 0 ((y+a.shift) &&& lowMask a.bits)).mapError primitiveError = .ok u
      ∧ (b.key.eval env.aes 1 ((y+b.shift) &&& lowMask b.bits)).mapError primitiveError = .ok v
      ∧ Shared u v (q.eval y.toNat) := by
  obtain ⟨limit,roots,hkeys⟩ := h.keys
  have hle := hq.le
  have hshf := hq.shift
  have hthr := hq.threshold
  have hpow : 2^q.bits≤2^50 := Nat.pow_le_pow_right (by decide) (by omega)
  have hinp : ((y+BitVec.ofNat 64 q.shift) &&& lowMask q.bits).toNat
      = (y.toNat+q.shift)%2^q.bits := by
    rw [toNat_and_lowMask _ (by omega),BitVec.toNat_add,BitVec.toNat_ofNat,Nat.mod_mod_of_dvd _
      (Nat.pow_dvd_pow 2 (by omega)),Nat.mod_eq_of_lt (show q.shift < 2^64 by omega)]
  have hlt : ((y+BitVec.ofNat 64 q.shift) &&& lowMask q.bits).toNat < 2^q.bits := by
    rw [hinp]
    exact Nat.mod_lt _ (Nat.two_pow_pos _)
  obtain ⟨u,v,hu,hv,hsum⟩ := eval_add_eval hkeys hlt
  obtain ⟨-,-,-,hpair⟩ := issueWith_eq_ok hkeys
  have ha : a.key.outputBits=1 := by rw [show a.key=_ from congrArg Prod.fst hpair]
  have hb : b.key.outputBits=1 := by rw [show b.key=_ from congrArg Prod.snd hpair]
  rw [h.bits.1,h.bits.2,h.shift.1,h.shift.2,hu,hv]
  refine ⟨u,v,rfl,rfl,?_⟩
  have hsha := Shared.of_add (exists_bitWord_eval ha hu) (exists_bitWord_eval hb hv) hsum
  have hiff : (y+BitVec.ofNat 64 q.shift) &&& lowMask q.bits < BitVec.ofNat 64 q.threshold
      ↔ (y.toNat+q.shift)%2^q.bits<q.threshold := by
    rw [BitVec.lt_def,hinp,BitVec.toNat_ofNat,Nat.mod_eq_of_lt (show q.threshold < 2^64 by omega)]
  rw [decide_eq_decide.mpr hiff] at hsha
  exact hsha

/-- Three lists of one length, related item by item. -/
inductive Pairs {α β : Type} (R : α → β → β → Prop) : List α → List β → List β → Prop
  | nil : Pairs R [] [] []
  | cons {a : α} {b c : β} {as : List α} {bs cs : List β} (h : R a b c) (hs : Pairs R as bs cs) :
      Pairs R (a::as) (b::bs) (c::cs)

/-- Shares of a list of bits. -/
abbrev SharedList (as bs : List (BitVec 64)) (vs : List Bool) : Prop :=
  Pairs (fun v a b => Shared a b v) vs as bs

section
variable {as bs : List (BitVec 64)} {vs : List Bool}

variable (hs : SharedList as bs vs)
include hs

lemma SharedList.append_one {a b : BitVec 64} {v : Bool} (h : Shared a
    b v) : SharedList (as++[a]) (bs++[b]) (vs++[v]) := by
  induction hs with
  | nil => exact .cons h .nil
  | cons h' _ ih => exact .cons h' ih

lemma SharedList.length_eq : as.length=vs.length ∧ bs.length=vs.length := by
  induction hs with
  | nil => exact ⟨rfl,rfl⟩
  | cons _ _ ih => exact ⟨congrArg (·+1) ih.1,congrArg (·+1) ih.2⟩

lemma SharedList.getD (k : ℕ) : Shared (as.getD k 0) (bs.getD k 0) (vs.getD k false) := by
  induction hs generalizing k with
  | nil => exact shared_zero
  | cons h _ ih =>
    cases k with
    | zero => exact h
    | succ k => exact ih k

end

/-- The words of the two codes for an instruction. -/
inductive WordShares (n : ℕ) : Instruction → CodeWord → CodeWord → Prop
  | bit {arg : ℕ} {a b : BitVec 64} (h : Shared a b (decide (arg≠0))) :
      WordShares n ⟨.bit,arg⟩ (0,a) (0,b)
  | query {arg : ℕ} (a : BitVec 64) (ha : a.toNat=arg) (h : arg<n) :
      WordShares n ⟨.query,arg⟩ (1,a) (1,a)
  | not : WordShares n ⟨.not,0⟩ (2,0) (2,0)
  | xor : WordShares n ⟨.xor,0⟩ (3,0) (3,0)
  | and : WordShares n ⟨.and,0⟩ (4,0) (4,0)
  | or : WordShares n ⟨.or,0⟩ (5,0) (5,0)

abbrev CodeShares (n : ℕ) : List Instruction → List CodeWord → List CodeWord → Prop :=
  Pairs (WordShares n)

def gates (program : List Instruction) : ℕ := program.countP fun ins => isGate ins.opcode

/-- Two executions at one place of one program: what is left of the current program, the later
programs, the plain stack and the plain outputs so far. -/
structure Running (shape : Shape) (answers : ℕ → Bool) (e f : Execution) (cur : List Instruction)
    (later : List (List Instruction)) (stack outputs : List Bool) : Prop where
  queries : ∀ k < shape.queries, ∃ u v, e.queries[k]? = some u ∧ f.queries[k]? = some v
    ∧ Shared u v (answers k)
  held : SharedList e.stack f.stack stack
  kept : SharedList e.outputs f.outputs outputs
  code : CodeShares shape.queries (cur++later.flatten) (e.material.code.drop e.pc)
    (f.material.code.drop f.pc)
  codeLength : e.material.code.length=shape.vmOps ∧ f.material.code.length=shape.vmOps
  pc : f.pc=e.pc ∧ e.pc+(cur++later.flatten).length=shape.vmOps
  stop : e.stop=e.pc+cur.length ∧ f.stop=e.stop
  index : f.outputIndex=e.outputIndex ∧ e.outputIndex+1+later.length = shape.booleanOutputs
  programs : later.map List.length = shape.programLengths.drop (e.outputIndex+1)
  gate : f.gate=e.gate ∧ e.gate+gates (cur++later.flatten)=shape.booleanAnds
  triples : ∀ g, e.gate≤g → g < shape.booleanAnds → ∃ t u, e.material.triples.getD g none = some t
    ∧ f.material.triples.getD g none = some u ∧ TriplePair t u

/-- Two executions that are to end with shares of these outputs, with so many steps and gates to go. -/
def Runs (shape : Shape) (answers : ℕ → Bool) (e f : Execution) (final : List Bool) (steps count : ℕ) :
    Prop := ∃ cur later stack outputs b bs, Running shape answers e f cur later stack outputs
  ∧ execute answers cur stack = some [b]
  ∧ List.Forall₂ (fun p v => execute answers p [] = some [v]) later bs
  ∧ final = outputs++b::bs ∧ (cur++later.flatten).length=steps
  ∧ gates (cur++later.flatten)=count

section
variable {shape : Shape} {answers : ℕ → Bool} {e f : Execution} {cur : List Instruction}
  {later : List (List Instruction)} {stack outputs bs : List Bool} {b : Bool}

lemma boundary_inside (h : e.pc≠e.stop) : e.boundary shape = .ok (.inr e) := by
  rw [boundary,if_pos h]

/-- At the end of the last program both hand out their outputs; otherwise an instruction follows. -/
lemma Running.boundary (h : Running shape answers e f cur later stack outputs)
    (hcur : execute answers cur stack = some [b])
    (hlat : Forall₂ (fun p v => execute answers p [] = some [v]) later bs) :
    (gates (cur++later.flatten)=0 ∧ ∃ u v, e.boundary shape = .ok (.inl u)
      ∧ f.boundary shape = .ok (.inl v) ∧ SharedList u v (outputs++b::bs))
    ∨ ∃ e' f' ins cur' later' stack' outputs' b' bs', e.boundary shape = .ok (.inr e') ∧ f.boundary
      shape = .ok (.inr f') ∧ Running shape answers e' f' (ins::cur') later' stack' outputs' ∧
      execute answers (ins::cur') stack' = some [b'] ∧ Forall₂ (fun p v => execute answers p [] =
      some [v]) later' bs' ∧ outputs'++b'::bs' = outputs++b::bs ∧ ins::cur'++later'.flatten =
      cur++later.flatten ∧ (e'.pc=e.pc ∧ e'.material=e.material) ∧ f'.pc=f.pc ∧
      f'.material=f.material := by
  cases cur with
  | cons ins cur =>
    have hstop := h.stop
    have hpc := h.pc.1
    rw [length_cons] at hstop
    exact .inr ⟨e,f,ins,cur,later,stack,outputs,b,bs,boundary_inside (by omega),
      boundary_inside (by omega),h,hcur,hlat,rfl,rfl,⟨rfl,rfl⟩,rfl,rfl⟩
  | nil =>
    have hb : stack=[b] := Option.some.inj hcur
    have hstop := h.stop
    have hpc := h.pc
    have hidx := h.index
    have hgate := h.gate
    have hsta := h.held
    rw [hb] at hsta
    obtain ⟨x,y,hx,hy,hxy⟩ : ∃ x y, e.stack=[x] ∧ f.stack=[y] ∧ Shared x y b := by
      revert hsta
      generalize e.stack=s
      generalize f.stack=r
      rintro (_ | ⟨hsha,_ | _⟩)
      exact ⟨_,_,rfl,rfl,hsha⟩
    have hkept := h.kept.append_one hxy
    simp only [nil_append] at hstop hpc hgate
    have he : ¬e.pc ≠ e.stop := not_not.mpr hstop.1.symm
    have hf : ¬f.pc ≠ f.stop := not_not.mpr (by omega)
    cases hlat with
    | nil =>
      simp only [flatten_nil,length_nil] at hpc hidx hgate
      have hnone : gates []=0 := rfl
      have hlen := h.codeLength
      refine .inl ⟨rfl,_,_,?_,?_,hkept⟩
      · rw [boundary,if_neg he,hx]
        simp only
        rw [if_pos hidx.2,if_neg (by omega)]
      · rw [boundary,if_neg hf,hy]
        simp only
        rw [if_pos (by omega),if_neg (by omega)]
    | @cons p v later bs hp hrest =>
      cases p with
      | nil => cases hp
      | cons ins p =>
        have hpgs := h.programs
        have hlt : e.outputIndex+1 < shape.programLengths.length := by
          by_contra hge
          rw [drop_of_length_le (not_lt.mp hge)] at hpgs
          cases hpgs
        rw [drop_eq_getElem_cons hlt] at hpgs
        obtain ⟨hown,hoth⟩ := List.cons.inj hpgs
        have hne : e.outputIndex+1≠shape.booleanOutputs := by
          simp only [length_cons] at hidx
          omega
        have hget : shape.programLengths.getD (e.outputIndex+1) 0=(ins::p).length := by
          rw [getD_eq_getElem _ _ hlt,hown]
        refine .inr ⟨{ e with
            stack := []
            outputs := e.outputs++[x]
            outputIndex := e.outputIndex+1
            stop := e.stop+shape.programLengths.getD (e.outputIndex+1) 0 },{ f with
            stack := []
            outputs := f.outputs++[y]
            outputIndex := f.outputIndex+1
            stop := f.stop+shape.programLengths.getD (f.outputIndex+1) 0 },
          ins,p,later,[],outputs++[b],v,bs,?_,?_,
          ⟨h.queries,.nil,hkept,h.code,h.codeLength,hpc,?_,?_,hoth,hgate,h.triples⟩,hp,hrest,
          by rw [append_assoc]; rfl,rfl,⟨rfl,rfl⟩,rfl,rfl⟩
        · rw [boundary,if_neg he,hx]
          simp only
          rw [if_neg hne]
        · rw [boundary,if_neg hf,hy]
          simp only
          rw [if_neg (by omega)]
        · simp only [hidx.1]
          omega
        · simp only [length_cons] at hidx ⊢
          omega

lemma drop_succ {α : Type} {l rest : List α} {c : α} {n : ℕ} (h : l.drop n = c::rest) :
    l.drop (n+1)=rest := by
  rw [←tail_drop,h,tail_cons]

lemma gates_cons (ins : Instruction) (rest : List Instruction) :
    gates (ins::rest) = gates rest+if isGate ins.opcode then 1 else 0 := by
  rw [gates,countP_cons,gates]

variable {ins : Instruction}

/-- Past an instruction that is no gate. -/
lemma Running.next (h : Running shape answers e f (ins::cur) later stack outputs) {c d : CodeWord}
    (hc : e.material.code.drop e.pc = c::cs) (hd : f.material.code.drop f.pc = d::ds) (hcode :
    CodeShares shape.queries (cur++later.flatten) cs ds) (hgate : isGate ins.opcode = false) (hs :
    SharedList s r stack') :
    Running shape answers { e with pc := e.pc+1, stack := s } { f with pc := f.pc+1, stack := r } cur
      later stack' outputs := by
  have hpc := h.pc
  have hstop := h.stop
  have hcnt := h.gate
  simp only [cons_append,length_cons,gates_cons,hgate] at hpc hstop hcnt
  refine ⟨h.queries,hs,h.kept,?_,h.codeLength,⟨congrArg (·+1) hpc.1,?_⟩,⟨?_,hstop.2⟩,h.index,
    h.programs,⟨hcnt.1,by simpa using hcnt.2⟩,h.triples⟩
  · simp only [drop_succ hc,drop_succ hd]
    exact hcode
  · simp only
    omega
  · simp only
    omega

/-- The execution past a gate: its triple is gone. -/
def pastGate (e : Execution) (stack : List (BitVec 64)) : Execution :=
  { e with
    pc := e.pc+1
    stack := stack
    material := { e.material with triples := e.material.triples.set e.gate none }
    gate := e.gate+1 }

lemma Running.nextGate (h : Running shape answers e f (ins::cur) later stack outputs) {c d :
    CodeWord} (hc : e.material.code.drop e.pc = c::cs) (hd : f.material.code.drop f.pc = d::ds)
    (hcode : CodeShares shape.queries (cur++later.flatten) cs ds) (hgate : isGate ins.opcode = true)
    (hs : SharedList s r stack') : Running shape answers (pastGate e s) (pastGate f r) cur later
    stack' outputs := by
  have hpc := h.pc
  have hstop := h.stop
  have hcnt := h.gate
  simp only [cons_append,length_cons,gates_cons,hgate,if_true] at hpc hstop hcnt
  refine ⟨h.queries,hs,h.kept,?_,h.codeLength,⟨congrArg (·+1) hpc.1,?_⟩,⟨?_,hstop.2⟩,h.index,
    h.programs,⟨congrArg (·+1) hcnt.1,?_⟩,fun g hg hlt => ?_⟩
  · simp only [pastGate,drop_succ hc,drop_succ hd]
    exact hcode
  · simp only [pastGate]
    omega
  · simp only [pastGate]
    omega
  · simp only [pastGate]
    omega
  · obtain ⟨t,u,ht,hu,hpair⟩ := h.triples g (by simp only [pastGate] at hg; omega) hlt
    have hne : e.gate≠g := by
      simp only [pastGate] at hg
      omega
    refine ⟨t,u,?_,?_,hpair⟩
    · simp only [pastGate,getD_eq_getElem?_getD,getElem?_set_ne hne]
      rw [←getD_eq_getElem?_getD,ht]
    · simp only [pastGate,getD_eq_getElem?_getD,getElem?_set_ne (hcnt.1 ▸ hne)]
      rw [←getD_eq_getElem?_getD,hu]

/-- What both executions do at a gate. -/
def Opens (shape : Shape) (answers : ℕ → Bool) (e f : Execution) (c d : CodeWord)
    (cur : List Instruction) (later : List (List Instruction)) (stack outputs : List Bool) : Prop :=
  ∃ p q e' f', Execution.step false e c = .ok (.inl (p,e')) ∧ Execution.step true f d = .ok (.inl (q,f'))
    ∧ (p.opening.1≤1 ∧ p.opening.2≤1) ∧ (q.opening.1≤1 ∧ q.opening.2≤1)
    ∧ ∃ z z', p.triple.finish false p.opening q.opening = .ok z
      ∧ q.triple.finish true q.opening p.opening = .ok z'
      ∧ Running shape answers { e' with stack := (z ^^^ p.orXor)::e'.stack }
        { f' with stack := (z' ^^^ q.orXor)::f'.stack } cur later stack outputs

/-- Both do a gate on the two topmost operands. -/
lemma Running.gateStep {v w : Bool} (h : Running shape answers e f (ins::cur)
    later (w::v::stack) outputs) {c d : CodeWord} (hc : e.material.code.drop
    e.pc = c::cs) (hd : f.material.code.drop f.pc = d::ds) (hcode : CodeShares shape.queries
    (cur++later.flatten) cs ds) (hgate : isGate ins.opcode = true) (or : Bool)
    (hcs : step false { e with pc := e.pc+1 } c
      = Execution.step.gateStep or { e with pc := e.pc+1 })
    (hds : step true { f with pc := f.pc+1 } d
      = Execution.step.gateStep or { f with pc := f.pc+1 }) :
    Opens shape answers { e with pc := e.pc+1 } { f with pc := f.pc+1 } c d cur later
      ((if or then v || w else v && w)::stack) outputs := by
  have hheld := h.held
  obtain ⟨y₀,x₀,s,y₁,x₁,r,he,hf,hy,hx,hs⟩ : ∃ y₀ x₀ s y₁ x₁ r, e.stack=y₀::x₀::s
      ∧ f.stack=y₁::x₁::r ∧ Shared y₀ y₁ w ∧ Shared x₀ x₁ v ∧ SharedList s r stack := by
    revert hheld
    generalize e.stack=a
    generalize f.stack=b
    rintro (_ | ⟨hy,_ | ⟨hx,hs⟩⟩)
    exact ⟨_,_,_,_,_,_,rfl,rfl,hy,hx,hs⟩
  have hcnt := h.gate
  simp only [cons_append,gates_cons,hgate,if_true] at hcnt
  obtain ⟨t,u,ht,hu,hpair⟩ := h.triples e.gate le_rfl (by omega)
  obtain ⟨o,p,ho,hp,hole,hple,z,z',hz,hz',hsha⟩ := hpair.product hx hy
  have hvalu : Shared (z ^^^ if or then x₀ ^^^ y₀ else 0) (z' ^^^ if or then x₁ ^^^ y₁ else 0)
      (if or then v || w else v && w) := by
    cases or with
    | false => simpa using hsha.xor shared_zero
    | true =>
      have hor := hsha.xor (hx.xor hy)
      rw [show ((v && w) != (v != w))=(v || w) by cases v <;> cases w <;> rfl] at hor
      exact hor
  refine ⟨⟨t,o,if or then x₀ ^^^ y₀ else 0⟩,⟨u,p,if or then x₁ ^^^ y₁ else 0⟩,pastGate e s,pastGate
    f r,?_,?_,hole,hple,z,z',hz,hz',h.nextGate hc hd hcode hgate (.cons hvalu hs)⟩
  · rw [hcs,Execution.step.gateStep]
    simp only [he,ht,ho]
    rfl
  · have hu' : f.material.triples.getD f.gate none=some u := by rw [hcnt.1,hu]
    rw [hds,Execution.step.gateStep]
    simp only [hf,hu',hp]
    rfl

/-- One instruction: both push shares of what the plain machine pushes, or both open a gate. -/
lemma Running.step (h : Running shape answers e f (ins::cur) later stack
    outputs) (hcur : execute answers (ins::cur) stack = some [b]) :
    ∃ c d cs ds stack', e.material.code.drop e.pc = c::cs ∧ f.material.code.drop f.pc = d::ds
      ∧ execute answers cur stack' = some [b]
      ∧ ((isGate ins.opcode = false ∧ ∃ s r,
          step false { e with pc := e.pc+1 } c = .ok (.inr { e with pc := e.pc+1, stack := s })
          ∧ step true { f with pc := f.pc+1 } d = .ok (.inr { f with pc := f.pc+1, stack := r })
          ∧ Running shape answers { e with pc := e.pc+1, stack := s } { f with pc := f.pc+1, stack := r }
            cur later stack' outputs)
        ∨ isGate ins.opcode = true
          ∧ Opens shape answers { e with pc := e.pc+1 } { f with pc := f.pc+1 } c d cur later stack'
            outputs) := by
  have hcod := h.code
  obtain ⟨c,d,cs,ds,hc,hd,hword,hcode⟩ : ∃ c d cs ds, e.material.code.drop e.pc=c::cs
      ∧ f.material.code.drop f.pc = d::ds ∧ WordShares shape.queries ins c d
      ∧ CodeShares shape.queries (cur++later.flatten) cs ds := by
    revert hcod
    generalize e.material.code.drop e.pc=a
    generalize f.material.code.drop f.pc=b
    rintro (_ | ⟨hword,hs⟩)
    exact ⟨_,_,_,_,rfl,rfl,hword,hs⟩
  have hheld := h.held
  cases hword with
  | @bit arg x y hxy =>
    refine ⟨_,_,cs,ds,decide (arg≠0)::stack,hc,hd,hcur,.inl ⟨rfl,x::e.stack,y::f.stack,rfl,rfl,?_⟩⟩
    exact h.next hc hd hcode rfl (.cons hxy hheld)
  | @query arg x hx hlt =>
    obtain ⟨u,v,hu,hv,huv⟩ := h.queries arg hlt
    refine ⟨_,_,cs,ds,answers arg::stack,hc,hd,hcur,.inl ⟨rfl,u::e.stack,v::f.stack,?_,?_,?_⟩⟩
    · simp only [step,hx,hu]
    · simp only [step,hx,hv]
    · exact h.next hc hd hcode rfl (.cons huv hheld)
  | not =>
    revert hheld
    cases stack with
    | nil => cases hcur
    | cons v stack =>
      generalize e.stack=s
      generalize f.stack=r
      rintro ⟨⟩
      rename_i x' y' s r hv hs
      refine ⟨_,_,cs,ds,(!v)::stack,hc,hd,hcur,.inl ⟨rfl,(x' ^^^ (if false then 0 else 1))::s,
        (y' ^^^ (if true then 0 else 1))::r,?_,?_,?_⟩⟩
      · simp only [step]
      · simp only [step]
      · exact h.next hc hd hcode rfl (.cons hv.not hs)
  | xor =>
    revert hheld
    cases stack with
    | nil => cases hcur
    | cons w stack =>
      cases stack with
      | nil => cases hcur
      | cons v stack =>
        generalize e.stack=s
        generalize f.stack=r
        rintro (_ | ⟨hw,_ | ⟨hv,hs⟩⟩)
        refine ⟨_,_,cs,ds,(v != w)::stack,hc,hd,hcur,.inl ⟨rfl,_::_,_::_,?_,?_,
          h.next hc hd hcode rfl (.cons (hv.xor hw) hs)⟩⟩
        · simp only [step]
        · simp only [step]
  | and =>
    cases stack with
    | nil => cases hcur
    | cons w stack =>
      cases stack with
      | nil => cases hcur
      | cons v stack =>
        exact ⟨_,_,cs,ds,(v && w)::stack,hc,hd,hcur,.inr ⟨rfl,h.gateStep hc hd hcode rfl false rfl rfl⟩⟩
  | or =>
    cases stack with
    | nil => cases hcur
    | cons w stack =>
      cases stack with
      | nil => cases hcur
      | cons v stack =>
        exact ⟨_,_,cs,ds,(v || w)::stack,hc,hd,hcur,.inr ⟨rfl,h.gateStep hc hd hcode rfl true rfl rfl⟩⟩

/-- Both loops from one place: they end with shares of the outputs where no gate is left, and stop at
the next gate otherwise. -/
lemma Runs.run {final : List Bool} {steps count : ℕ} (h : Runs shape answers e f final steps count) :
    (count=0 ∧ ∃ u v, run false shape (e.material.code.drop e.pc) e = .ok (.inr u)
      ∧ run true shape (f.material.code.drop f.pc) f = .ok (.inr v) ∧ SharedList u v final)
    ∨ ∃ count' steps' p q e' f', count=count'+1 ∧ run false shape (e.material.code.drop
      e.pc) e = .ok (.inl (p,e')) ∧ run true shape (f.material.code.drop f.pc) f = .ok
      (.inl (q,f')) ∧ (p.opening.1≤1 ∧ p.opening.2≤1) ∧ (q.opening.1≤1 ∧ q.opening.2≤1)
      ∧ ∃ z z', p.triple.finish false p.opening q.opening = .ok z
        ∧ q.triple.finish true q.opening p.opening = .ok z'
        ∧ Runs shape answers { e' with stack := (z ^^^ p.orXor)::e'.stack }
          { f' with stack := (z' ^^^ q.orXor)::f'.stack } final steps' count' := by
  induction steps using Nat.strong_induction_on generalizing e f count with
  | _ steps ih =>
    obtain ⟨cur,later,stack,outputs,b,bs,hrun,hcur,hlat,hfin,hste,hcnt⟩ := h
    rcases hrun.boundary hcur hlat with ⟨hnone,u,v,hu,hv,huv⟩
      | ⟨e1,f1,ins,cur1,later1,stack1,outputs1,b1,bs1,he,hf,hrun1,hcur1,hlat1,hfin1,hpgm,
        ⟨hepc,hem⟩,hfpc,hfm⟩
    · refine .inl ⟨hcnt.symm.trans hnone,u,v,?_,?_,hfin ▸ huv⟩
      · cases e.material.code.drop e.pc <;> simp only [run,hu,ok_bind,pure_eq_ok]
      · cases f.material.code.drop f.pc <;> simp only [run,hv,ok_bind,pure_eq_ok]
    · obtain ⟨c,d,cs,ds,stack2,hc,hd,hcur2,hcase⟩ := hrun1.step hcur1
      rw [←hepc,←hem,←hfpc,←hfm,hc,hd]
      rw [←hpgm,cons_append,gates_cons] at hcnt
      rw [←hpgm,cons_append,length_cons] at hste
      rw [←hfin1] at hfin
      rcases hcase with ⟨hgate,s,r,hs,hr,hrun2⟩ | ⟨hgate,p,q,e2,f2,hs,hr,hp,hq,z,z',hz,hz',hrun2⟩
      · rw [hgate] at hcnt
        have hnext := ih _ (by omega) ⟨cur1,later1,stack2,outputs1,b1,bs1,hrun2,hcur2,hlat1,hfin,rfl,
          hcnt⟩
        have hce := drop_succ hc
        have hdf := drop_succ hd
        simp only [hce,hdf] at hnext
        simp only [run,he,hf,hs,hr,ok_bind]
        exact hnext
      · rw [hgate] at hcnt
        refine .inr ⟨_,_,p,q,e2,f2,hcnt.symm,?_,?_,hp,hq,z,z',hz,hz',cur1,later1,stack2,outputs1,b1,bs1,
          hrun2,hcur2,hlat1,hfin,rfl,rfl⟩
        · simp only [run,he,hs,ok_bind,pure_eq_ok]
        · simp only [run,hf,hr,ok_bind,pure_eq_ok]

end

end Pllm.Fusefss.Predicates
