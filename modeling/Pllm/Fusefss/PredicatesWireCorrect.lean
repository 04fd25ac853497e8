import Pllm.Fusefss.PredicatesWire
import Pllm.Fusefss.PredicatesProtocol

/-! An import takes what an export of the same issuance wrote, and gives the same party. -/
namespace Pllm.Fusefss.Predicates
open Pllm.Lib List Fss.Word Fss.CompactDcf
open RingComparison (validate)
open Pllm.Fss.CompactDcf (RingComparison Key Correction bitWord)
open Pllm.Fss.SharedRescale (Context)

namespace Reader

lemma take_append {n : ℕ} {a rest : List Byte} (h : a.length=n) :
    take n (a++rest) = .ok (a,rest) := by
  rw [take,if_neg (by rw [length_append]; omega),take_left' h,drop_left' h]

lemma word_leBytes {bits : ℕ} {v : BitVec 64} (rest : List Byte) (hbits : 1≤bits ∧ bits≤50)
    (hv : v.toNat<2^bits) : word bits (leBytes 8 v++rest) = .ok (v,rest) := by
  rw [word,take_append (length_leBytes ..),ok_bind]
  simp only [ofLeBytes_leBytes v (show 64 ≤ 8*8 by decide)]
  rw [if_neg]
  omega

lemma many_flatMap {α : Type} {record : List Byte → Except Error (α × List Byte)} {write : α →
    List Byte} {as : List α} (h : ∀ a∈as, ∀ rest, record (write a++rest) = .ok (a,rest)) (rest :
    List Byte) : many record as.length (as.flatMap write++rest) = .ok (as,rest) := by
  induction as with
  | nil => rfl
  | cons a as ih =>
    rw [flatMap_cons,append_assoc,length_cons,many,h a (mem_cons_self ..)]
    simp only [ih fun a ha => h a (mem_cons_of_mem _ ha), ok_bind, pure_eq_ok]

end Reader

/-- The words of a key are reduced. -/
structure KeyFits (ob : ℕ) (key : Key (BitVec 64)) : Prop where
  finalWord : key.finalWord.toNat<2^ob
  words : ∀ c∈key.words, c.value.toNat<2^ob

section
variable {ob : ℕ} {key : Key (BitVec 64)}

lemma readCorrection_write (hbits : 1≤ob ∧ ob≤50) {c : Correction (BitVec 64)}
    (hc : c.value.toNat<2^ob) (rest : List Byte) :
    readCorrection ob (writeCorrection c++rest) = .ok (c,rest) := by
  have hany : ([bitByte c.control.1,bitByte c.control.2].any fun b => decide (b>1))=false := by
    cases c.control.1 <;> cases c.control.2 <;> rfl
  have hcont : ((bitByte c.control.1==1),(bitByte c.control.2==1))=c.control := by
    cases hcont : c.control with
    | mk a b => cases a <;> cases b <;> rfl
  rw [readCorrection,writeCorrection,append_assoc,Reader.take_append (length_leBytes ..)]
  simp only [append_assoc,Reader.word_leBytes _ hbits hc,ok_bind]
  rw [@Reader.take_append 2 [bitByte c.control.1,bitByte c.control.2] rest rfl,ok_bind]
  simp only [hany,Bool.false_eq_true,if_false,pure_eq_ok,ofLeBytes_leBytes c.seed (show 128 ≤ 8*16
    by decide),getD_cons_zero,getD_cons_succ,hcont]

lemma readKey_write (hbits : 1≤ob ∧ ob≤50) (h : KeyFits ob key) (rest :
    List Byte) : readKey key.words.length ob (writeKey key++rest) = .ok (key,rest) := by
  rw [readKey,writeKey,append_assoc,Reader.take_append (length_leBytes ..)]
  simp only [append_assoc,Reader.word_leBytes _ hbits h.finalWord,ok_bind]
  rw [Reader.many_flatMap fun c hc => readCorrection_write hbits (h.words c hc), ok_bind]
  simp only [ofLeBytes_leBytes key.root (show 128 ≤ 8*16 by decide),pure_eq_ok]

lemma length_writeKey (key : Key (BitVec 64)) :
    (writeKey key).length = 16+8+key.words.length*(18+8) := by
  have hwds : (key.words.flatMap writeCorrection).length=key.words.length*(18+8) := by
    induction key.words with
    | nil => rfl
    | cons c words ih =>
      rw [flatMap_cons,length_append,ih,writeCorrection,length_append,
        length_append,length_leBytes,length_leBytes,length_cons,length_cons]
      simp only [length_cons,length_nil]
      omega
  rw [writeKey,length_append,length_append,length_leBytes,length_leBytes]
  omega

lemma readMaterial_write {inputBits : ℕ} (hin : 1 ≤ inputBits ∧ inputBits≤50) (hout : 1≤ob ∧
    ob≤50) (h : KeyFits ob key) (hlen : key.words.length=inputBits) : readMaterial
    (writeKey key) inputBits ob = .ok ⟨key,inputBits,ob⟩ := by
  have hread := readKey_write hout h []
  rw [append_nil,hlen] at hread
  have hvld : validate inputBits ob = .ok () := by
    rw [validate,if_neg]
    omega
  have hleng : ¬(writeKey key).length ≠ 16+8+inputBits*(18+8) :=
    not_not.mpr (by rw [length_writeKey,hlen])
  have hval : validateMaterial (writeKey key) inputBits ob = .ok () := by
    rw [validateMaterial,hvld]
    simp only [ok_bind,if_neg hleng,hread]
    rfl
  rw [readMaterial,hval,hread]
  rfl

lemma toNat_scale_lt (a v : BitVec 64) {n : ℕ} (hn : n≤64) :
    (scale a v (lowMask n) : BitVec 64).toNat < 2^n := by
  have hsca : (scale a v (lowMask n) : BitVec 64)=(a*v) &&& lowMask n := by
    simp [scale]
  rw [hsca,toNat_and_lowMask _ hn]
  exact Nat.mod_lt _ (Nat.two_pow_pos _)

lemma issueLevels_fits (aes : Fss.Aes)
    (hn : ob≤64) (threshold payload : BitVec 64) (n : ℕ) (s : Issuing (BitVec 64)) : ∀ c ∈
    (issueLevels aes (lowMask ob) threshold payload n s).1, c.value.toNat<2^ob := by
  induction n generalizing s with
  | zero => exact fun _ hnil => absurd hnil not_mem_nil
  | succ n ih =>
    intro c hc
    rcases mem_cons.mp hc with rfl | hc
    · exact toNat_scale_lt _ _ hn
    · exact ih _ c hc

end

/-- A key of its query's width, and constants that fit. -/
structure QueryFits (bits : ℕ) (q : Query) : Prop where
  pos : 0<q.bits
  le : q.bits≤bits
  shift : q.shift.toNat<2^q.bits
  key : ∃ key, q.key=⟨key,q.bits,1⟩ ∧ key.words.length=q.bits ∧ KeyFits 1 key

section
variable {env : Platform} {d : Descriptor} {plan : DealerPlan} {bits : ℕ}

lemma QueryPair.fits {q : PredicateQuery} {a b : Query} (h : QueryPair env q a b) (hq : Fits bits q)
    (hbits : bits≤50) : QueryFits bits a ∧ QueryFits bits b := by
  obtain ⟨limit,roots,hkeys⟩ := h.keys
  obtain ⟨-,-,-,hpair⟩ := RingComparison.issueWith_eq_ok hkeys
  have hpos := hq.pos
  have hle := hq.le
  have hpow : 2^q.bits≤2^50 := Nat.pow_le_pow_right (by decide) (by omega)
  have hshf : (BitVec.ofNat 64 q.shift).toNat < 2^q.bits := by
    have hlt := hq.shift
    rw [BitVec.toNat_ofNat,Nat.mod_eq_of_lt (by omega)]
    exact hlt
  have hgro : ∀ root words finalWord,
      (words,finalWord) = ((growKeys env.aes (lowMask 1) q.bits
        (BitVec.ofNat 64 q.threshold) (1 : BitVec 64) roots).1.words,
        (growKeys env.aes (lowMask 1) q.bits
          (BitVec.ofNat 64 q.threshold) (1 : BitVec 64) roots).1.finalWord) →
      words.length=q.bits ∧ KeyFits 1 ⟨root,words,finalWord⟩ := by
    rintro root words finalWord ⟨⟩
    exact ⟨length_issueLevels ..,toNat_scale_lt _ _ (by decide),
      issueLevels_fits _ (by decide) _ _ _ _⟩
  refine ⟨⟨h.bits.1.symm ▸ hpos,h.bits.1.symm ▸ hle,?_,?_⟩,⟨h.bits.2.symm ▸ hpos,h.bits.2.symm ▸ hle,?_,?_⟩⟩
  · rw [h.bits.1,h.shift.1]
    exact hshf
  · rw [h.bits.1,show a.key=_ from congrArg Prod.fst hpair]
    exact ⟨_,rfl,hgro _ _ _ rfl⟩
  · rw [h.bits.2,h.shift.2]
    exact hshf
  · rw [h.bits.2,show b.key=_ from congrArg Prod.snd hpair]
    exact ⟨_,rfl,hgro _ _ _ rfl⟩

lemma keyResources_eq (hbits : 1≤bits ∧ bits≤50) :
    keyResources env bits = .ok (Fss.CompactDcf.resources env.sizes bits (bits,bits)) := by
  have hvld : validate bits 1 = .ok () := by
    rw [validate,if_neg]
    omega
  rw [keyResources,RingComparison.resources,hvld]
  rfl

lemma encodedKeyBytes_eq (n : ℕ) :
    (Fss.CompactDcf.resources env.sizes n (n,n)).encodedKeyBytes = 16+8+n*(18+8) := by
  simp only [Fss.CompactDcf.resources,env.word]

lemma readQuery_write (hbits : bits≤50) {q : Query} (h : QueryFits bits q) (rest : List Byte) :
    readQuery env bits (writeQuery q++rest) = .ok (q,rest) := by
  have hpos := h.pos
  have hle := h.le
  obtain ⟨key,hkey,hlen,hfits⟩ := h.key
  have hq : 1≤q.bits ∧ q.bits≤50 := ⟨hpos,by omega⟩
  have hwd : (BitVec.ofNat 64 q.bits).toNat=q.bits := by
    rw [BitVec.toNat_ofNat,Nat.mod_eq_of_lt (by omega)]
  have hleng : (writeKey q.key.key).length
      = (Fss.CompactDcf.resources env.sizes q.bits (q.bits,q.bits)).encodedKeyBytes := by
    rw [length_writeKey,encodedKeyBytes_eq,hkey,hlen]
  have hmat := readMaterial_write hq (show 1 ≤ 1 ∧ 1≤50 by decide) hfits hlen
  rw [readQuery,writeQuery,append_assoc,
    Reader.word_leBytes _ (show 1 ≤ 6 ∧ 6≤50 by decide) (by rw [hwd]; omega),ok_bind]
  simp only [hwd,if_neg (show ¬(q.bits=0 ∨ q.bits>bits) by omega),append_assoc]
  rw [Reader.word_leBytes _ hq h.shift]
  simp only [keyResources_eq hq,ok_bind]
  rw [Reader.take_append hleng]
  simp only [hkey,hmat,ok_bind,pure_eq_ok]
  rw [←hkey]

/-- One party's word for an instruction. -/
structure CodeFits (n : ℕ) (ins : Instruction) (c : CodeWord) : Prop where
  op : c.1 = opcodeNumber ins.opcode
  bit : ins.opcode = .bit → c.2.toNat≤1
  query : ins.opcode = .query → c.2.toNat<n
  other : ins.opcode ≠ .bit → ins.opcode ≠ .query → c.2=0

section
variable {n : ℕ} {ins : Instruction} {c : CodeWord}

lemma WordShares.fits {c' : CodeWord} (h : WordShares n ins c c') :
    CodeFits n ins c ∧ CodeFits n ins c' := by
  cases h with
  | bit h =>
    exact ⟨⟨rfl,fun _ => h.le.1,nofun,fun hne => absurd rfl hne⟩,
      ⟨rfl,fun _ => h.le.2,nofun,fun hne => absurd rfl hne⟩⟩
  | @query arg a ha hlt =>
    have hfits : CodeFits n ⟨.query,arg⟩ (1,a) :=
      ⟨rfl,nofun,fun _ => ha.trans_lt hlt,fun _ hne => absurd rfl hne⟩
    exact ⟨hfits,hfits⟩
  | not | xor | and | or => exact ⟨⟨rfl,nofun,nofun,fun _ _ => rfl⟩,⟨rfl,nofun,nofun,fun _ _ => rfl⟩⟩

variable {s : Scan} {stack stack' : List Bool}

/-- The scan follows the height of the plain stack. -/
lemma scanOpcode_eq {shape : Shape} {answers : ℕ → Bool} (h : CodeFits shape.queries ins c)
    (hstep : ins.step answers stack = some stack') (hdep : s.depth=stack.length) :
    scanOpcode shape c.1 c.2 s = .ok ⟨stack'.length,s.count,
      s.gates+if isGate ins.opcode then 1 else 0⟩ := by
  obtain ⟨depth,count,total⟩ := s
  subst hdep
  obtain ⟨opcode,argument⟩ := ins
  rw [h.op]
  cases opcode with
  | bit =>
    cases hstep
    exact if_pos (h.bit rfl)
  | query =>
    cases hstep
    exact if_pos (h.query rfl)
  | not =>
    have hzero := h.other nofun nofun
    cases stack with
    | nil => cases hstep
    | cons a stack =>
      cases hstep
      exact if_pos ⟨hzero,by simp only [length_cons]; omega⟩
  | xor | and | or =>
    have hzero := h.other nofun nofun
    cases stack with
    | nil => cases hstep
    | cons b stack =>
      cases stack with
      | nil => cases hstep
      | cons a stack =>
        cases hstep
        exact if_pos ⟨hzero,by simp only [length_cons]; omega⟩

lemma CodeFits.bounds (hn : n ≤ maxQueries) (h : CodeFits n ins c) :
    (BitVec.ofNat 64 c.1).toNat = c.1 ∧ c.1<2^3 ∧ c.2.toNat<2^32 := by
  have hmax : maxQueries=32768 := rfl
  have hop : c.1<2^3 := by
    rw [h.op]
    cases ins.opcode <;> decide
  refine ⟨by rw [BitVec.toNat_ofNat,Nat.mod_eq_of_lt (by omega)],hop,?_⟩
  by_cases hb : ins.opcode = .bit
  · have hle := h.bit hb
    omega
  · by_cases hq : ins.opcode = .query
    · have hlt := h.query hq
      omega
    · rw [h.other hb hq]
      decide

end

section
variable {shape : Shape} {answers : ℕ → Bool}

lemma scanInstruction_write (hn : shape.queries ≤ maxQueries) {ins : Instruction} {c : CodeWord}
    (h : CodeFits shape.queries ins c)
    (hstep : ins.step answers stack = some stack') (hdep : s.depth=stack.length)
    (hcnt : s.count < shape.vmOps) (rest : List Byte) :
    scanInstruction shape s (writeCode c++rest)
      = .ok (c,⟨stack'.length,s.count+1,s.gates+if isGate ins.opcode then 1 else 0⟩,rest) := by
  obtain ⟨hop,h3,h32⟩ := h.bounds hn
  rw [scanInstruction,writeCode,append_assoc,
    Reader.word_leBytes _ (show 1 ≤ 3 ∧ 3≤50 by decide) (by rw [hop]; exact h3),ok_bind]
  simp only [Reader.word_leBytes _ (show 1 ≤ 32 ∧ 32≤50 by decide) h32,ok_bind,hop,
    scanOpcode_eq h hstep hdep,if_neg hcnt.ne,pure_eq_ok]

variable {cs : List CodeWord}

lemma scanOutput_write (hn : shape.queries ≤ maxQueries)
    {cur : List Instruction} (h : Forall₂ (CodeFits shape.queries) cur cs)
    {b : Bool} (hcur : execute answers cur stack = some [b]) (hdep : s.depth=stack.length)
    (hcnt : s.count+cur.length ≤ shape.vmOps) (rest : List Byte) : scanOutput shape cur.length s
    (cs.flatMap writeCode++rest) = .ok (cs,⟨1,s.count+cur.length,s.gates+gates cur⟩,rest) := by
  induction h generalizing stack s with
  | nil =>
    obtain rfl : stack=[b] := some_inj hcur
    obtain ⟨depth,count,total⟩ := s
    subst hdep
    rfl
  | @cons ins c cur cs hc _ ih =>
    rw [length_cons] at hcnt
    obtain ⟨stack',hstep,hrest⟩ := Option.bind_eq_some_iff.mp hcur
    rw [flatMap_cons,append_assoc,length_cons,scanOutput,
      scanInstruction_write hn hc hstep hdep (by omega),ok_bind]
    have hnext := ih hrest (s := ⟨stack'.length,s.count+1,s.gates+if isGate ins.opcode then 1 else 0⟩)
      rfl (by simp only; omega)
    simp only [hnext,ok_bind,pure_eq_ok,gates_cons]
    rw [show s.count+1+cur.length=s.count+(cur.length+1) by omega,
      show s.gates+(if isGate ins.opcode then 1 else 0)+gates cur
        = s.gates+(gates cur+if isGate ins.opcode then 1 else 0) by omega]

lemma gates_append (a b : List Instruction) : gates (a++b) = gates a+gates b := countP_append ..

lemma scanOutputs_write (hn : shape.queries ≤ maxQueries) {programs : List (List Instruction)} {vs :
    List Bool} (hall : Forall₂ (fun p v => execute answers p [] = some [v]) programs vs) (h : Forall₂ (CodeFits shape.queries) programs.flatten cs) (hcnt :
    s.count+programs.flatten.length ≤ shape.vmOps) (rest : List Byte) :
    ∃ depth, scanOutputs shape (programs.map length) s (cs.flatMap writeCode++rest)
      = .ok (cs,⟨depth,s.count+programs.flatten.length,s.gates+gates programs.flatten⟩,rest) := by
  induction hall generalizing cs s with
  | nil =>
    cases h
    exact ⟨s.depth,rfl⟩
  | @cons p v programs vs hp _ ih =>
    rw [flatten_cons] at h hcnt
    have hfst := forall₂_take p.length h
    have hmore := forall₂_drop p.length h
    rw [take_left] at hfst
    rw [drop_left] at hmore
    rw [←take_append_drop p.length cs]
    generalize cs.drop p.length=more at hmore
    rw [length_append] at hcnt
    have hone := scanOutput_write hn hfst hp (s := { s with depth := 0 }) rfl (by simp only; omega)
      (more.flatMap writeCode++rest)
    obtain ⟨depth,hoth⟩ := ih hmore (s := ⟨1,s.count+p.length,s.gates+gates p⟩) (by simp only; omega)
    refine ⟨depth,?_⟩
    rw [map_cons,flatMap_append,append_assoc,scanOutputs,hone]
    simp only [hoth,ok_bind,pure_eq_ok,flatten_cons,length_append,gates_append,add_assoc]

end

lemma scanProgram_write (hplan : PlanOf d plan) {answers : ℕ → Bool} {v : ℕ → Bool}
    (hv : ∀ o<d.shape.booleanOutputs, execute answers (plan.program o) [] = some [v o])
    (h : Forall₂ (CodeFits d.shape.queries) plan.instructions cs)
    (rest : List Byte) : scanProgram d.shape (cs.flatMap writeCode++rest) = .ok (cs,rest) := by
  have hflat := parts_flatten _ _ hplan.lengths
  have hall := forall₂_parts hplan hv
  have hlens : (range d.shape.booleanOutputs).map (fun o => d.shape.programLengths.getD o 0)
      = (parts d.shape.programLengths plan.instructions).map length := by
    rw [map_length_parts _ _ hplan.lengths]
    refine ext_getElem (by simp [hplan.outputs]) fun k h1 h2 => ?_
    rw [getElem_map,getElem_range,getD_eq_getElem _ _ h2]
  have hcod : Forall₂ (CodeFits d.shape.queries)
      (parts d.shape.programLengths plan.instructions).flatten cs := by rwa [hflat]
  obtain ⟨depth,hscan⟩ := scanOutputs_write hplan.count hall hcod
    (s := ⟨0,0,0⟩) (by rw [hflat,hplan.instructions]; simp only; omega) rest
  rw [scanProgram]
  simp only [hlens,hscan,ok_bind,hflat,hplan.instructions,hplan.gates,zero_add,ne_eq,
    not_true_eq_false,or_self,if_false,pure_eq_ok]

structure TripleFits (t : TripleShare) : Prop where
  mask : t.mask=1
  words : t.words.1≤1 ∧ t.words.2.1≤1 ∧ t.words.2.2≤1

lemma TriplePair.fits {t u : TripleShare} (h : TriplePair t u) : TripleFits t ∧ TripleFits u := by
  obtain ⟨x,y,a,b,c,rfl,rfl⟩ := h
  exact ⟨⟨rfl,bitWord_le _,bitWord_le _,bitWord_le _⟩,⟨rfl,bitWord_le _,bitWord_le _,bitWord_le _⟩⟩

lemma readTriple_write {t : TripleShare} (h : TripleFits t) (rest : List Byte) :
    readTriple 1 (writeTriple t++rest) = .ok (t,rest) := by
  have hone : ∀ w : BitVec 64, w≤1 → w.toNat<2^1 := fun w hw => by
    exact Nat.lt_succ_of_le hw
  have hmask : TripleShare.ringMask 1 = .ok 1 := rfl
  obtain ⟨⟨a,b,c⟩,mask⟩ := t
  obtain rfl : mask=1 := h.mask
  have hbits : 1≤1 ∧ 1≤50 := by decide
  rw [readTriple,writeTriple,append_assoc,Reader.word_leBytes _ hbits (hone _ h.words.1)]
  simp only [append_assoc,Reader.word_leBytes _ hbits (hone _ h.words.2.1),ok_bind,
    Reader.word_leBytes _ hbits (hone _ h.words.2.2),hmask,Except.mapError,pure_eq_ok]

/-- One party's material as the dealer issues it. -/
structure MaterialFits (d : Descriptor) (plan : DealerPlan) (m : Material) : Prop where
  mask : m.mask.toNat<2^d.bits
  count : m.queries.length=d.shape.queries
  queries : ∀ q∈m.queries, QueryFits d.bits q
  code : List.Forall₂ (CodeFits d.shape.queries) plan.instructions m.code
  triples : ∃ ts : List TripleShare, m.triples = ts.map some ∧ ts.length=d.shape.booleanAnds ∧ ∀ t∈ts, TripleFits t

section
variable {n : ℕ} {α : Type} {m : Material} {budget : Budget} {granted : Bool}

lemma queryFits_of_pairs {qs : List PredicateQuery} {as bs : List Query}
    (h : Pairs (QueryPair env) qs as bs) (hfits : ∀ q∈qs, Fits bits q) (hbits : bits≤50) :
    (∀ a∈as, QueryFits bits a) ∧ ∀ b∈bs, QueryFits bits b := by
  induction h with
  | nil => exact ⟨fun _ hnil => absurd hnil not_mem_nil,fun _ hnil => absurd hnil not_mem_nil⟩
  | cons hq _ ih =>
    obtain ⟨ha,hb⟩ := hq.fits (hfits _ (mem_cons_self ..)) hbits
    obtain ⟨has,hbs⟩ := ih fun q hq => hfits q (mem_cons_of_mem _ hq)
    refine ⟨fun a hmem => ?_,fun b hmem => ?_⟩
    · rcases mem_cons.mp hmem with rfl | hmem
      · exact ha
      · exact has a hmem
    · rcases mem_cons.mp hmem with rfl | hmem
      · exact hb
      · exact hbs b hmem

lemma codeFits_of_pairs {code : List Instruction} {ds : List CodeWord} (h : CodeShares n code
    cs ds) : Forall₂ (CodeFits n) code cs ∧ Forall₂ (CodeFits n) code ds := by
  induction h with
  | nil => exact ⟨.nil,.nil⟩
  | cons hc _ ih => exact ⟨.cons hc.fits.1 ih.1,.cons hc.fits.2 ih.2⟩

lemma tripleFits_of_pairs {l : List α} {ts us : List (Option TripleShare)}
    (h : Pairs (fun _ t u => ∃ x y, t = some x ∧ u = some y ∧ TriplePair x y) l ts us) :
    (∃ xs : List TripleShare, ts = xs.map some ∧ xs.length=l.length ∧ ∀ t∈xs, TripleFits t)
      ∧ ∃ ys : List TripleShare, us = ys.map some ∧ ys.length=l.length ∧ ∀ t∈ys, TripleFits t := by
  induction h with
  | nil =>
    exact ⟨⟨[],rfl,rfl,fun _ hnil => absurd hnil not_mem_nil⟩,
      ⟨[],rfl,rfl,fun _ hnil => absurd hnil not_mem_nil⟩⟩
  | cons ht _ ih =>
    obtain ⟨x,y,rfl,rfl,hpair⟩ := ht
    obtain ⟨⟨xs,rfl,hxs,hx⟩,⟨ys,rfl,hys,hy⟩⟩ := ih
    refine ⟨⟨x::xs,rfl,congrArg (·+1) hxs,fun t hmem => ?_⟩,⟨y::ys,rfl,congrArg (·+1) hys,fun t hmem => ?_⟩⟩
    · rcases mem_cons.mp hmem with rfl | hmem
      · exact hpair.fits.1
      · exact hx t hmem
    · rcases mem_cons.mp hmem with rfl | hmem
      · exact hpair.fits.2
      · exact hy t hmem

lemma IssuedMaterial.fits {mask : BitVec 64} {n : Material} (hplan : PlanOf d plan)
    (hbits : d.bits≤50) (h : IssuedMaterial env d plan mask m n) :
    MaterialFits d plan m ∧ MaterialFits d plan n := by
  have hlow : ∀ x : BitVec 64, x ≤ lowMask d.bits → x.toNat<2^d.bits := fun x hx => by
    have hpos := Nat.two_pow_pos d.bits
    have hle : 2^d.bits≤2^64 := Nat.pow_le_pow_right (by decide) (by omega)
    rw [BitVec.le_def,lowMask,BitVec.toNat_ofNat,
      Nat.mod_eq_of_lt (show 2^d.bits-1 < 2^64 by omega)] at hx
    omega
  obtain ⟨hq1,hq2⟩ := queryFits_of_pairs h.queries hplan.fits hbits
  obtain ⟨hc1,hc2⟩ := codeFits_of_pairs h.code
  obtain ⟨⟨ts,hts,htl,htf⟩,⟨us,hus,hul,huf⟩⟩ := tripleFits_of_pairs h.triples
  have hgat : (plan.instructions.filter fun ins => isGate ins.opcode).length
      = d.shape.booleanAnds := by
    rw [←hplan.gates,gates,countP_eq_length_filter]
  have hlen := h.queries.length_eq
  rw [hplan.queries] at hlen
  exact ⟨⟨hlow _ h.bounded.1,hlen.1,hq1,hc1,ts,hts,htl.trans hgat,htf⟩,
    ⟨hlow _ h.bounded.2,hlen.2,hq2,hc2,us,hus,hul.trans hgat,huf⟩⟩

lemma writeTriples_some (ts : List TripleShare) :
    writeTriples (ts.map some) = .ok (ts.flatMap writeTriple) := by
  induction ts with
  | nil => rfl
  | cons t ts ih =>
    rw [map_cons,writeTriples,ih,ok_bind,flatMap_cons,pure_eq_ok]

lemma length_flatMap_of {write : α → List Byte} {as : List α}
    (h : ∀ a∈as, (write a).length = n) : (as.flatMap write).length = as.length*n := by
  induction as with
  | nil => rw [length_nil,zero_mul,flatMap_nil,length_nil]
  | cons a as ih =>
    rw [flatMap_cons,length_append,h a (mem_cons_self ..),
      ih fun a ha => h a (mem_cons_of_mem _ ha), length_cons, Nat.succ_mul, add_comm]

/-- What an export writes of every query. -/
lemma keys_eq (hbits : bits≤50) {qs : List Query} (h : ∀ q∈qs, QueryFits bits q) :
    ∃ keys : List ℕ, (qs.mapM fun q => do
        let cost ← keyResources env q.bits
        return 16+cost.encodedKeyBytes) = .ok keys
      ∧ keys.sum = (qs.flatMap writeQuery).length
      ∧ keys.sum≤qs.length*(16+(16+8+bits*(18+8))) := by
  induction qs with
  | nil => exact ⟨[],rfl,rfl,zero_le⟩
  | cons q qs ih =>
    have hq := h q (mem_cons_self ..)
    have hpos := hq.pos
    have hle := hq.le
    obtain ⟨key,hkey,hlen,-⟩ := hq.key
    obtain ⟨keys,hkeys,hsum,hbd⟩ := ih fun q hq => h q (mem_cons_of_mem _ hq)
    refine ⟨(16+(16+8+q.bits*(18+8)))::keys,?_,?_,?_⟩
    · rw [mapM_cons,keyResources_eq ⟨hpos,by omega⟩]
      simp only [encodedKeyBytes_eq,ok_bind] at hkeys ⊢
      rw [hkeys]
      rfl
    · rw [sum_cons,hsum,flatMap_cons,length_append,writeQuery,length_append,
        length_append,length_leBytes,length_leBytes,length_writeKey,hkey,hlen]
      omega
    · rw [sum_cons,length_cons,Nat.succ_mul]
      omega

/-- A body is read back as it was written. -/
lemma readBody_write (hplan : PlanOf d plan) (hbits : 1≤d.bits ∧ d.bits≤50) {m : Material} (h :
    MaterialFits d plan m) {answers : ℕ → Bool} {v : ℕ → Bool} (hv : ∀ o<d.shape.booleanOutputs,
    execute answers (plan.program o) [] = some [v o]) : ∃ bytes, writeMaterial m = .ok bytes ∧
    (∀ rest, readBody env d (bytes++rest) = .ok (m,rest)) ∧ bytes.length =
    8+m.code.length*16+m.triples.length*tripleBytes +(m.queries.flatMap writeQuery).length := by
  obtain ⟨ts,hts,htl,htf⟩ := h.triples
  refine ⟨leBytes 8 m.mask++(m.queries.flatMap writeQuery++(m.code.flatMap writeCode
    ++ ts.flatMap writeTriple)),?_,fun rest => ?_,?_⟩
  · rw [writeMaterial,hts,writeTriples_some,ok_bind,pure_eq_ok]
  · have hqs := @Reader.many_flatMap _ (readQuery env d.bits) writeQuery m.queries
      (fun q hq => readQuery_write hbits.2 (h.queries q hq))
      (m.code.flatMap writeCode++(ts.flatMap writeTriple++rest))
    have htri := @Reader.many_flatMap _ (readTriple 1) writeTriple ts
      (fun t ht => readTriple_write (htf t ht)) rest
    rw [h.count] at hqs
    rw [htl] at htri
    simp only [append_assoc]
    rw [readBody,Reader.word_leBytes _ hbits h.mask]
    simp only [hqs,ok_bind,scanProgram_write hplan hv h.code,htri,pure_eq_ok,←hts]
  · have hcode : (m.code.flatMap writeCode).length=m.code.length*16 :=
      length_flatMap_of fun c _ => by
        rw [writeCode,length_append,length_leBytes,length_leBytes]
    have htrip : (ts.flatMap writeTriple).length=ts.length*tripleBytes :=
      length_flatMap_of fun t _ => by
        rfl
    rw [length_append,length_append,length_append,length_leBytes,hcode,htrip,hts,length_map]
    omega

lemma length_envelope (kind role : ℕ) (binding nonce : BitVec 256) (body : ℕ) :
    (envelope kind role binding nonce body).length = 88 := by
  simp [envelope,wireMagic,ascii]

lemma openPacket_eq (kind role : ℕ) (binding nonce : BitVec 256) (bytes : List Byte) :
    let pkt := (envelope kind role binding nonce bytes.length++bytes)
      ++ leBytes 32 (env.sha256 (envelope kind role binding nonce bytes.length++bytes))
    pkt.length-envelopeBytes = bytes.length
      ∧ openPacket env pkt kind role binding nonce bytes.length = .ok bytes := by
  intro pkt
  have hhdr := length_envelope kind role binding nonce bytes.length
  have hleng : pkt.length=bytes.length+envelopeBytes := by
    simp only [pkt,length_append,length_leBytes,envelopeBytes]
    omega
  have htake : pkt.take (pkt.length-32)=envelope kind role binding nonce bytes.length++bytes :=
    take_left' (by
      rw [length_append,hleng,envelopeBytes]
      omega)
  have hdrop : pkt.drop (pkt.length-32)
      = leBytes 32 (env.sha256 (envelope kind role binding nonce bytes.length++bytes)) :=
    drop_left' (by
      rw [length_append,hleng,envelopeBytes]
      omega)
  have hmag : wireMagic.length=8 := rfl
  refine ⟨by rw [hleng]; omega,?_⟩
  rw [openPacket,if_neg,htake,drop_left' hhdr]
  rw [htake,hdrop,hleng]
  simp [pkt,envelope,drop_append,drop_of_length_le,hmag]

/-- What a successful export wrote. -/
lemma exportMaterial_eq_ok {self : Party} (hsta : self.state = some (.ready m))
    (hbits : d.bits≤50) (hfits : MaterialFits d plan m) {bytes pkt : List Byte}
    (hwri : writeMaterial m = .ok bytes) (hleng : bytes.length=8+m.code.length*16
      +m.triples.length*tripleBytes+(m.queries.flatMap writeQuery).length)
    (h : self.exportMaterial env budget granted = .ok pkt) :
    pkt = (envelope 4 self.role self.binding self.nonce bytes.length++bytes)++leBytes 32
      (env.sha256 (envelope 4 self.role self.binding self.nonce bytes.length++bytes)) := by
  obtain ⟨keys,hkeys,hsum,-⟩ := @keys_eq env _ hbits _ hfits.queries
  unfold Party.exportMaterial at h
  simp only [hsta,hkeys,ok_bind,hsum,←hleng] at h
  obtain ⟨-,h⟩ := ite_error_eq_ok.mp h
  obtain ⟨len,-,h⟩ := bind_eq_ok.mp h
  obtain ⟨-,h⟩ := ite_error_eq_ok.mp h
  rw [hwri] at h
  obtain ⟨-,h⟩ := ite_error_eq_ok.mp h
  cases h
  rfl

/-- An import takes every packet that a fresh party exported, and gives the party itself. -/
lemma importMaterial_export {cost : Resources} (hplan : PlanOf d plan) (hcost : resources env d =
    .ok cost) (hfits : MaterialFits d plan m) {answers : ℕ → Bool} {v : ℕ → Bool} (hv : ∀
    o<d.shape.booleanOutputs, execute answers (plan.program o) [] = some [v o]) {digest sourceDigest
    nonce : BitVec 256} {context : Context} (hcon : context.firstTensorIndex+1<2^64) {id : Bool}
    {pkt : List Byte}
    (hexp : (fresh d id (binding env digest sourceDigest context) nonce cost m).exportMaterial env
      budget granted = .ok pkt) {guard guard' : ImportGuard} {room : Budget}
    (hcla : guard.claim (if id then 1 else 0) nonce = .ok guard')
    (hroom : room.used+cost.partyReservationBytes ≤ room.limit) :
    Party.importMaterial env d digest sourceDigest context (if id then 1 else 0) nonce pkt guard room true
      = (.ok (fresh d id (binding env digest sourceDigest context) nonce cost m),guard') := by
  have hcost' := hcost
  obtain ⟨-,hcost'⟩ := ite_error_eq_ok.mp hcost'
  obtain ⟨key,hkey,-⟩ := bind_eq_ok.mp hcost'
  obtain ⟨hbits,rfl⟩ := keyResources_eq_ok hkey
  obtain ⟨bytes,hwri,hread,hleng⟩ := @readBody_write env d plan hplan hbits m hfits _ _ hv
  have hpkt := exportMaterial_eq_ok rfl hbits.2 hfits hwri hleng hexp
  obtain ⟨hbody,hopen⟩ := @openPacket_eq env 4 (if id then 1 else 0)
    (binding env digest sourceDigest context) nonce bytes
  have hpkt' : pkt=(envelope 4 (if id then 1 else 0) (binding env digest sourceDigest context) nonce
      bytes.length++bytes)++leBytes 32 (env.sha256 (envelope 4 (if id then 1 else 0)
        (binding env digest sourceDigest context) nonce bytes.length++bytes)) := hpkt
  rw [←hpkt'] at hbody hopen
  obtain ⟨keys,-,hsum,hbd⟩ := @keys_eq env _ hbits.2 _ hfits.queries
  obtain ⟨ts,hts,htl,-⟩ := hfits.triples
  have hcode := hfits.code.length_eq
  rw [hplan.instructions] at hcode
  have hmax : ¬bytes.length>8+d.shape.queries*(16+(16+8+d.bits*(18+8)))+d.shape.vmOps*16
      +d.shape.booleanAnds*tripleBytes := by
    rw [hts,length_map,htl,←hsum] at hleng
    rw [hfits.count] at hbd
    omega
  have hrea := hread []
  rw [append_nil] at hrea
  have hres : room.reserve cost.partyReservationBytes = .ok cost.partyReservationBytes :=
    if_neg (not_lt.mpr hroom)
  have hrole : ((if id then 1 else 0)==1)=id := by cases id <;> rfl
  unfold Party.importMaterial Party.importBody
  simp only [hcla,hcost,ok_bind,if_neg (not_le.mpr hcon),hkey,hbody,encodedKeyBytes_eq,
    if_neg hmax,hopen,hrea,Reader.finish,length_nil,ne_eq,not_true_eq_false,if_false,
    hres,pure_eq_ok,hrole]
  rfl

end

end

/-- The protocol, for every admitted descriptor and all randomness of the dealer: the two parties end
with exclusive-or shares of the expressions of the piece of the word, one frame after the other and one
more for every gate; a party whose call failed is consumed for good, whatever was called before and
after; and an import gives back the very party that was exported. -/
theorem predicates_protocol {env : Platform} {bits arity : ℕ} {bounds : List Value} {sources : List
    (List Value × List Value)} {d : Descriptor} (hd : Descriptor.fromFields bits arity bounds
    sources = .ok d) {cost : Resources} (hcost : resources env d = .ok cost) (digest sourceDigest :
    BitVec 256) {context : Context} (hcon : context.firstTensorIndex+1<2^64) {budget : Budget}
    (hroom : budget.used+cost.combinedReservationBytes ≤ budget.limit) (r : Random) :
    (∃ a b, issue env d digest sourceDigest context budget r = .ok (a,b)
      ∧ (∀ x<2^bits, ∀ x₀ x₁ : BitVec 64, x₀.toNat<2^bits → x₁.toNat<2^bits →
        (x₀.toNat+x₁.toNat)%2^bits=x →
        ∃ fa a' fb b' u v, a.start granting x₀ = (.ok fa,a') ∧ b.start granting x₁ = (.ok fb,b')
          ∧ exchange env d.shape.booleanAnds a' b' fa fb = some (u,v)
          ∧ (u.length=arity ∧ v.length=arity)
          ∧ ∃ i < sources.length, (d.boundaries.getD i 0 ≤ x ∧ x < d.boundaries.getD (i+1) 0)
            ∧ ∀ o<arity, (u.getD o 0 ≤ 1 ∧ v.getD o 0 ≤ 1)
              ∧ ∃ t, Spells ((sources.getD i ([],[])).2.getD o (.bool false)) t
                ∧ u.getD o 0 ^^^ v.getD o 0 = bitWord (t.eval bits x))
      ∧ ∀ p, (p=a ∨ p=b) → ∀ storage granted pkt,
        p.exportMaterial env storage granted = .ok pkt → ∀ guard guard' room, guard.claim p.role
          p.nonce = .ok guard' → room.used+cost.partyReservationBytes ≤ room.limit →
          Party.importMaterial env d digest sourceDigest context p.role p.nonce pkt guard room true
            = (.ok p,guard'))
    ∧ ∀ (p : Party) (before later : List Call) (c : Call) (e : Error), ((p.after env before).call
      env c).1 = .failed e → ((((p.after env before).call env c).2.after env later).state = none)
      ∧ ∀ c', c' ≠ .cancel →
        ((((p.after env before).call env c).2.after env later).call env c').1 = .failed .consumed := by
  refine ⟨?_,fun p before later c e hfail => ?_⟩
  · have h := AdmittedAs.fromFields hd
    obtain ⟨tree,htree,hspe⟩ := h.exists_trees
    obtain rfl := h.word
    obtain ⟨houts,hbits,-,-⟩ := resources_eq_ok hcost
    have hari := h.outputs
    have hsame := h.pieces.length_eq
    have hpow := Nat.two_pow_pos d.bits
    have hmask : (r.mask &&& lowMask d.bits).toNat < 2^d.bits := by
      rw [toNat_and_lowMask _ (by omega)]
      exact Nat.mod_lt _ hpow
    have hplan := @planOf_admitted _ _ _ _ (r.mask &&& lowMask d.bits).toNat _ h htree
    have hrun : ∀ x<2^d.bits, ∃ i < sources.length,
        (d.boundaries.getD i 0 ≤ x ∧ x < d.boundaries.getD (i+1) 0)
        ∧ ∀ o<d.shape.booleanOutputs, execute (fun k => (((Fusefss.planOf d tree arity
          (r.mask &&& lowMask d.bits).toNat).queries).getD k ⟨0,0,0⟩).eval
            ((x+(r.mask &&& lowMask d.bits).toNat)%2^d.bits))
          ((Fusefss.planOf d tree arity (r.mask &&& lowMask d.bits).toNat).program o) []
            = some [(tree i o).eval d.bits x] := fun x hx => by
      obtain ⟨i,hi,hlow,hhigh⟩ := @exists_interval (fun i => d.boundaries.getD i 0) x d.pieces.length
        (by rw [h.partitions.zero]; exact Nat.zero_le _) (by rw [h.partitions.last]; exact hx)
      refine ⟨i,by omega,⟨hlow,hhigh⟩,fun o ho => ?_⟩
      rw [h.execute_program htree (by omega)]
      exact evalItems_output h.partitions h.pos ⟨hx,rfl⟩ htree (by omega) hi hlow hhigh
    obtain ⟨m,n,hisu,hmat⟩ := @issue_eq env d _ digest sourceDigest context budget r cost hplan
      (h.compile_eq htree hmask) hcost hcon hroom
    refine ⟨_,_,hisu,fun x hx x₀ x₁ hx₀ hx₁ hsum => ?_,?_⟩
    · obtain ⟨i,hi,hpie,hpgs⟩ := hrun x hx
      have hle : ∀ w : BitVec 64, w.toNat<2^d.bits → w ≤ lowMask d.bits := fun w hw => by
        have hle : 2^d.bits≤2^64 := Nat.pow_le_pow_right (by decide) (by omega)
        rw [BitVec.le_def,lowMask,BitVec.toNat_ofNat,
          Nat.mod_eq_of_lt (show 2^d.bits-1 < 2^64 by omega)]
        omega
      obtain ⟨fa,a,fb,b,u,w,ha,hb,huw,hsha⟩ := exchange_issued hplan hmat hcost (hle _ hx₀)
        (hle _ hx₁) (by rw [hsum]; exact hpgs)
      have hlen := hsha.length_eq
      rw [length_map,length_range,hari] at hlen
      refine ⟨fa,a,fb,b,u,w,ha,hb,huw,hlen,i,hi,hpie,fun o ho => ?_⟩
      have hone := SharedList.getD hsha o
      have hvalu : ((range d.shape.booleanOutputs).map fun o => (tree i o).eval d.bits x).getD o
          false = (tree i o).eval d.bits x := by
        rw [getD_eq_getElem _ _ (by simpa [hari] using ho),getElem_map,getElem_range]
      rw [hvalu] at hone
      exact ⟨hone.le,tree i o,hspe i hi o ho,hone.xor_eq⟩
    · obtain ⟨i,hi,hpie,hpgs⟩ := hrun 0 hpow
      obtain ⟨hm,hn⟩ := hmat.fits hplan hbits
      rintro p (rfl | rfl) storage granted pkt hexp guard guard' room hcla hspa
      · have hleft := importMaterial_export hplan hcost hm hpgs hcon hexp hcla hspa
        exact hleft
      · have hrt := importMaterial_export hplan hcost hn hpgs hcon hexp hcla hspa
        exact hrt
  · have hnone := @Party.after_consumed env _ (Party.call_failed hfail) later
    refine ⟨hnone,fun c' hc' => ?_⟩
    exact (@Party.call_consumed env _ hnone c').2.resolve_right hc'

/-- Two pieces over three bits, the word 4 as the shares 5 and 7. -/
theorem predicates_protocol_at : ∃ (env : Platform) (d : Descriptor) (a b : Party),
    twoPieces (.array [.string "and",.array [.string "slt",.int (-1)],
          .array [.string "lt",.int 5]]) = .ok d
    ∧ issue env d 1 2 ⟨3,4,5,6⟩ ⟨2^26,0⟩ ⟨11,7,fun _ => (1,2),fun _ => 3,fun _ _ => 5,9⟩ = .ok (a,b)
    ∧ ∃ fa a' fb b' u v, a.start granting 5 = (.ok fa,a') ∧ b.start granting 7 = (.ok fb,b')
      ∧ exchange env d.shape.booleanAnds a' b' fa fb = some (u,v) ∧ u.length=1
      ∧ u.getD 0 0 ^^^ v.getD 0 0 = bitWord (Tree.eval 3 4 (.and (.signedLt (-1)) (.lt 5))) := by
  have hquo : (match twoPieces (.array [.string "and",.array [.string "slt",.int (-1)],
          .array [.string "lt",.int 5]]) with
      | .ok d => match resources ⟨Fss.mixingAes,⟨8,32,56,352,56⟩,⟨24,8,64,40⟩,fun _ => 0,rfl⟩ d with
        | .ok cost => decide (cost.combinedReservationBytes≤2^26)
        | .error _ => false
      | .error _ => false)=true := by decide +kernel
  obtain ⟨env,d,cost,hd,hcost,hle⟩ : ∃ (env : Platform) (d : Descriptor) (cost : Resources),
      twoPieces (.array [.string "and",.array [.string "slt",.int (-1)],
            .array [.string "lt",.int 5]]) = .ok d
      ∧ resources env d = .ok cost ∧ cost.combinedReservationBytes≤2^26 := by
    revert hquo
    cases hd : twoPieces (.array [.string "and",.array [.string "slt",.int (-1)],
          .array [.string "lt",.int 5]]) with
    | error e => exact nofun
    | ok d =>
      simp only
      cases hcost : resources ⟨Fss.mixingAes,⟨8,32,56,352,56⟩,⟨24,8,64,40⟩,fun _ => 0,rfl⟩ d with
      | error e => exact nofun
      | ok cost => exact fun hle => ⟨_,d,cost,rfl,hcost,of_decide_eq_true hle⟩
  obtain ⟨⟨a,b,hisu,hrun,-⟩,-⟩ := @predicates_protocol env _ _ _ _ _ hd _ hcost 1 2 ⟨3,4,5,6⟩
    (by decide) ⟨2^26,0⟩ (by simpa using hle) ⟨11,7,fun _ => (1,2),fun _ => 3,fun _ _ => 5,9⟩
  obtain ⟨fa,a',fb,b',u,v,ha,hb,huv,hlen,i,hi,⟨hlow,hhigh⟩,hall⟩ :=
    hrun 4 (by decide) 5 7 (by decide) (by decide) (by decide)
  have hpiec : d.boundaries=[0,3,8] := boundaries_eq [0,3,8] hd
  obtain ⟨-,t,hspe,ht⟩ := hall 0 (by decide)
  rw [hpiec] at hlow hhigh
  refine ⟨env,d,a,b,hd,hisu,fa,a',fb,b',u,v,ha,hb,huv,hlen.1,?_⟩
  match i with
  | 0 => exact absurd hhigh (by decide)
  | 1 => rw [ht,hspe.unique (.and (.signedLt (-1)) (.lt 5))]

end Pllm.Fusefss.Predicates
