import Pllm.Lib.Exec
import Pllm.Garble.TokenPruningCorrect

/-! The circuits of an admitted pruning: they are issued without a failure, they measure what was
projected, and they put out the count and the kept rows. -/
namespace Pllm.Garble.TokenPruning
open Pllm.Lib Retained List BooleanInstruction BooleanCircuitBuilder
open Counts (adders subtractors)

/-- The values of some wires when the circuit is evaluated plainly. -/
def plainOutputs (d : Draft) (bits : List Bool) (ws : List BooleanWire) : List Bool :=
  ws.map fun w => (plainWires bits [] d.calls).getD w.index false

/-- What the client decodes when the evaluator runs the program on the encoded bits. -/
def Opens (hash : FixedKeyHash) (circuit : Circuit) (bits decoded : List Bool) : Prop :=
  ∃ inputs decoder results,circuit.1.encode bits = .ok (inputs,decoder) ∧
    circuit.2.evaluate hash inputs = .ok results ∧ decoder.decode results = .ok decoded

structure Measures (cs : Counts) (program : BooleanCircuitProgram) : Prop where
  inputs : program.inputCount=cs.inputBits
  outputs : program.outputWires.length=cs.outputBits
  wires : program.wireCount=cs.wires
  constants : program.count .constant = cs.constants
  nots : program.count .not = cs.nots
  xors : program.count .xor = cs.xors
  ands : program.count .and = cs.ands

def Counts.tally (c : Counts) : Tally
  | .input => c.inputBits
  | .constant => c.constants
  | .not => c.nots
  | .xor => c.xors
  | .and => c.ands

lemma Counts.sum_tally (c : Counts) : ∑ k,c.tally k = c.wires := by
  have all : (Finset.univ : Finset Kind) = {.input,.constant,.not,.xor,.and} := rfl
  rw [all]
  simp [Counts.tally,Counts.wires,add_assoc]

lemma sum_metadataBytes (instructions : List BooleanInstruction) :
    (instructions.map BooleanCircuitProgram.metadataBytes).sum =
    (instructions.map kind).count .constant+ 9*(instructions.map kind).count
    .not+ 17*(instructions.map kind).count .xor+ 25*(instructions.map kind).count .and := by
  induction instructions with
  | nil => rfl
  | cons i instructions ih =>
    cases i <;> simp [kind,BooleanCircuitProgram.metadataBytes] <;> omega

lemma Measures.check {cs : Counts} {program : BooleanCircuitProgram}
    (h : Measures cs program) (pos : 0 < cs.wires) : cs.check program = .ok () := by
  rw [Counts.check,if_neg]
  have metadata : program.publicMetadataBytesEstimate=cs.metadataBytes := by
    have outputs := h.outputs
    have constants := h.constants
    have nots := h.nots
    have xors := h.xors
    have ands := h.ands
    simp only [BooleanCircuitProgram.count] at constants nots xors ands
    rw [BooleanCircuitProgram.publicMetadataBytesEstimate,sum_metadataBytes,constants,nots,xors,
      ands,outputs,Counts.metadataBytes,if_neg pos.ne']
    omega
  rintro (ne | ne | ne | ne)
  · exact ne h.wires
  · exact ne h.ands
  · exact ne (by rw [BooleanCircuitProgram.constantLabelBytes,h.constants,mul_comm])
  · exact ne metadata

/-- Counts that a circuit may have, below all limits of the builder. -/
structure Allowed (cs : Counts) : Prop where
  wires : 0 < cs.wires ∧ cs.wires ≤ maxReferenceWires
  inputs : cs.inputBits ≤ maxReferenceInputs
  outputs : 0 < cs.outputBits ∧ cs.outputBits ≤ maxReferenceOutputs
  ands : cs.ands ≤ maxReferenceAndGates

section
variable {iss : Issuer} {cid : CircuitId} {drawn : Block} {cs : Counts}
  {outputs : Drawing (List BooleanWire)}

def opening (cid : CircuitId) (drawn : Block) (limit : ℕ) : BooleanCircuitBuilder :=
  { BooleanCircuitBuilder.new cid drawn with wireLimit := limit }

lemma Allowed.opened (h : Allowed cs) :
    withWireLimit cid drawn cs.wires = .ok (opening cid drawn cs.wires) := by
  obtain ⟨pos,few⟩ := h.wires
  rw [withWireLimit,if_neg (by omega)]
  rfl

/-- Code that emits what was projected is issued, measures as projected, and decodes what its wires
carry. -/
lemma issue_emits (allowed : Allowed cs) {bits decoded : List Bool}
    (inputs : bits.length=cs.inputBits) (length : decoded.length=cs.outputBits) (emits : Emits
    iss.hash (opening cid drawn cs.wires) outputs ⟨opening cid drawn cs.wires,[]⟩ cs.tally fun ws e
    => e.HasWord bits ws decoded) : ∃ ws draft circuit,outputs ⟨opening cid drawn cs.wires,[]⟩ = .ok
    (ws,draft) ∧ issue cid drawn cs outputs = .ok circuit ∧ Measures cs circuit.2 ∧
    plainOutputs draft bits ws = decoded ∧ Opens iss.hash circuit bits decoded := by
  have opened : (opening cid drawn cs.wires).Opened :=
    ⟨cid,drawn,.inr ⟨cs.wires,allowed.opened⟩⟩
  have room : Room ⟨opening cid drawn cs.wires,[]⟩ cs.tally := by
    unfold Room
    rw [tally_nil,zero_add,Counts.sum_tally]
    exact ⟨le_rfl,allowed.ands,allowed.inputs⟩
  obtain ⟨ws,draft,run,sound,grown,has⟩ := emits (sound_start opened) room
  have total : tally draft.calls=cs.tally := by
    rw [grown.tally,tally_nil,zero_add]
  have size : draft.calls.length=cs.wires := by
    rw [← sum_tally,total,Counts.sum_tally]
  have same : ws.length=decoded.length := Forall₂.length_eq has
  have found : ws.mapM draft.builder.encoding =
      .ok (ws.map fun w => draft.builder.encodings.getD w.index ⟨0,0⟩) := by
    refine mapM_ok ws fun w m => ?_
    obtain ⟨i,inside,rfl⟩ := getElem_of_mem m
    have here : draft.Has bits ws[i] (decoded.get ⟨i,same ▸ inside⟩) :=
      Forall₂.get has inside (same ▸ inside)
    have index := here.index
    rw [encoding,if_neg (not_not.mpr here.1)]
    have within : ws[i].index<draft.builder.encodings.length := by rwa [sound.wires]
    rw [getElem?_eq_getElem within,getD_eq_getElem _ _ within]
  have gates (k : Kind) (gate : k ≠ .input) :
      (draft.builder.instructions.map kind).count k = cs.tally k := by
    rw [sound.instructions k gate,total]
  obtain ⟨client,program,finished,measures⟩ : ∃ client program,
      draft.builder.finish ws = .ok (client,program) ∧ Measures cs program := by
    have few := allowed.outputs
    rw [finish,if_neg,found]
    · refine ⟨_,_,rfl,sound.inputs.trans (congrFun total .input),?_,sound.wires.trans size,
        gates .constant (by decide),gates .not (by decide),gates .xor (by decide),
        gates .and (by decide)⟩
      rw [length_map,same,length]
    · rw [← length_eq_zero_iff]
      omega
  have plain : plainOutputs draft bits ws=decoded := by
    have each : Forall₂ (fun w b => (plainWires bits [] draft.calls).getD w.index false=b)
        ws decoded := Forall₂.imp (fun _ _ here => here.getD) has
    exact forall₂_eq_eq_eq ▸ forall₂_map_left_iff.mpr each
  refine ⟨ws,draft,(client,program),run,?_,measures,plain,?_⟩
  · rw [issue,allowed.opened]
    simp only [ok_bind,run,finished,measures.check allowed.wires.1]
    rfl
  · obtain ⟨encoded,decoder,results,sent,evaluated,opened'⟩ := decode_evaluate_encode iss.hash
      draft.calls ws bits opened sound.built finished
      (inputs.trans (sound.inputs.trans (congrFun total .input)).symm)
    exact ⟨encoded,decoder,results,sent,evaluated,opened'.trans (congrArg Except.ok plain)⟩

end

lemma validate_ok {p : Parameters} (h : p.validate = .ok ()) :
    (1≤p.tokens ∧ p.tokens≤256) ∧ (1≤p.heads ∧ p.heads≤32) ∧ (1≤p.features ∧ p.features≤8192) ∧
    p.thresholdQ16<p.reductionThresholdQ16 ∧ p.reductionThresholdQ16 ≤ scale := by
  simp only [Parameters.validate,ite_error_eq_ok] at h
  obtain ⟨dimensions,-⟩ := h
  simp only [not_or,not_not,not_lt] at dimensions
  exact ⟨dimensions.1,dimensions.2.1,dimensions.2.2.1,by omega,by omega⟩

lemma scoreThreshold_lt {p : Parameters} (h : p.validate = .ok ()) (reduction : Bool) :
    p.scoreThreshold reduction < 2^32 := by
  obtain ⟨⟨-,tokens⟩,⟨-,heads⟩,-,below,top⟩ := validate_ok h
  have threshold : (if reduction then p.reductionThresholdQ16 else p.thresholdQ16) ≤ 2^16 := by
    have bound : scale=2^16 := rfl
    split <;> omega
  calc p.scoreThreshold reduction ≤ 32*256*2^16 :=
        mul_le_mul' (mul_le_mul' heads tokens) threshold
    _ < 2^32 := by norm_num

/-- The counts of the first circuit. -/
def firstCounts (p : Parameters) : Counts :=
  let first : Counts := { Counts.zero with
    inputBits := 65*p.tokens
    outputBits := p.tokens+countBits p.tokens
    constants := 1
    xors := p.tokens }
  ((first.adders p.tokens 32).greater p.tokens (p.scoreThreshold false)).adders p.tokens
    (countBits p.tokens)

/-- The counts of the second circuit. -/
def secondCounts (p : Parameters) (keep : ℕ) : Counts :=
  let swaps := exchanges p.tokens (p.tokens-keep)
  let second := ({ Counts.zero with
    inputBits := 64*p.tokens*(p.features+1)+2*p.tokens+32*keep*p.features
    outputBits := 32*keep*p.features+keep
    xors := p.tokens } : Counts).adders (p.tokens*(p.features+1)) 32
  let second := { second with
    nots := second.nots+swaps
    xors := second.xors+3*swaps*recordBits p.features
    ands := second.ands+swaps*recordBits p.features }
  (second.subtractors (keep*p.features) 32).greater keep (p.scoreThreshold true)

variable {masks : List (BitVec 32)} {scores : List Score}

section
variable {p : Parameters} {keep features : ℕ} {rows : List Row}

lemma project_eq (h : p.validate = .ok ()) (few : keep≤p.tokens) :
    project p keep = .ok (firstCounts p,
      if keep≠0 ∧ keep≠p.tokens then secondCounts p keep else Counts.zero) := by
  obtain ⟨⟨-,tokens⟩,-⟩ := validate_ok h
  rw [project,h]
  simp only [few.not_gt,if_false]
  split
  · next inside =>
    have closed : 2*exchanges p.tokens (p.tokens-keep)=_ :=
      two_mul_exchanges (Nat.sub_le p.tokens keep)
    have fewer : keep<p.tokens := lt_of_le_of_ne few inside.2
    have swapped : swaps p.tokens keep = .ok (exchanges p.tokens (p.tokens-keep)) := by
      rw [swaps,if_neg (by omega)]
      exact congrArg Except.ok (Nat.div_eq_of_eq_mul_right two_pos closed.symm)
    rw [swapped]
    simp only [if_pos fewer]
    rfl
  · rfl

lemma tally_firstCounts (p : Parameters) : (firstCounts p).tally = countCost p := by
  funext k
  cases k <;>
    simp [firstCounts,adders,Counts.greater,Counts.zero,Counts.tally,countCost,
      countRowCost,addCost,greaterCost,one] <;> ring

lemma tally_secondCounts (p : Parameters) (keep : ℕ) :
    (secondCounts p keep).tally = compactCost p keep := by
  funext k
  cases k <;>
    simp [secondCounts,adders,subtractors,Counts.greater,Counts.zero,
      Counts.tally,compactCost,inputCost,exchangeCost,subtractCost,addCost,greaterCost,one]
    <;> ring

lemma admits_ok {bytes : ℕ} (h : admits p = .ok bytes) :
    p.validate = .ok () ∧ ∀ kept≤p.tokens,∀ first second,project p kept = .ok (first,second) →
      first.limits = .ok () ∧ second.limits = .ok () := by
  simp only [admits,bind_eq_ok] at h
  obtain ⟨estimate,estimated,rest⟩ := h
  have valid : p.validate = .ok () := by
    simp only [allocationEstimate,bind_eq_ok] at estimated
    obtain ⟨⟨⟩,valid,-⟩ := estimated
    exact valid
  refine ⟨valid,fun kept few first second projected => ?_⟩
  split at rest
  · cases rest
  · simp only [bind_eq_ok] at rest
    obtain ⟨⟨⟩,all,-⟩ := rest
    have here := forM_eq_ok.mp all kept (mem_range.mpr (Nat.lt_succ_of_le few))
    rw [projected] at here
    simp only [ok_bind,bind_eq_ok] at here
    obtain ⟨⟨⟩,one,two⟩ := here
    exact ⟨one,two⟩

lemma Allowed.of_limits {c : Counts} (h : c.limits = .ok ()) (wires : 0 < c.wires)
    (outputs : 0 < c.outputBits) (few : 2*c.ands ≤ c.wires) : Allowed c := by
  simp only [Counts.limits,ite_error_eq_ok] at h
  obtain ⟨within,-⟩ := h
  simp only [not_or,not_lt] at within
  refine ⟨⟨wires,within.2.2⟩,within.1,⟨outputs,within.2.1⟩,?_⟩
  have limit : maxReferenceWires=2*maxReferenceAndGates := rfl
  omega

lemma allowed_firstCounts (tokens : 0<p.tokens) (h : (firstCounts p).limits = .ok ()) :
    Allowed (firstCounts p) := by
  refine Allowed.of_limits h ?_ ?_ ?_
  · simp only [firstCounts,adders,Counts.zero,Counts.wires]
    omega
  · simp only [firstCounts,adders,Counts.greater]
    omega
  · simp only [firstCounts,adders,Counts.greater,Counts.zero,Counts.wires]
    nlinarith [Nat.zero_le (p.tokens*countBits p.tokens),
      Nat.zero_le (p.tokens*countOnes (p.scoreThreshold false))]

lemma allowed_secondCounts (pos : 0 < keep) (h : (secondCounts p keep).limits = .ok ()) :
    Allowed (secondCounts p keep) := by
  refine Allowed.of_limits h ?_ ?_ ?_
  · simp only [secondCounts,adders,subtractors,Counts.greater,Counts.zero, Counts.wires]
    omega
  · simp only [secondCounts,adders,subtractors,Counts.greater]
    omega
  · simp only [secondCounts,adders,subtractors,Counts.greater,Counts.zero, Counts.wires]
    nlinarith [Nat.zero_le (p.tokens*p.features),Nat.zero_le (keep*p.features),
      Nat.zero_le (keep*countOnes (p.scoreThreshold true)),
      Nat.zero_le (exchanges p.tokens (p.tokens-keep)*recordBits p.features)]

lemma length_masked (masks : List (BitVec 32)) (rows : List (ℕ × Row)) :
    (rows.flatMap (maskedWords features masks)).length = features*rows.length :=
  length_flatMap_const rows fun row _ => by rw [maskedWords,length_map,length_range]

/-- Taking the masks off again leaves the features of the rows. -/
lemma zipWith_maskedWords (masks : List (BitVec 32)) (first : ℕ) (width :
    ∀ row∈rows,row.features.length=features) (count : masks.length=(first+rows.length)*features) :
    zipWith (· + ·) (((range' first rows.length).zip rows).flatMap (maskedWords features masks))
    (masks.drop (first*features)) = rows.flatMap Row.clearFeatures := by
  induction rows generalizing first with
  | nil => simp
  | cons row rows ih =>
    have rest := ih (first+1) (fun r m => width r (mem_cons_of_mem _ m)) (by
      rw [count,length_cons]
      congr 1
      omega)
    have long : row.clearFeatures.length=features := by
      rw [Row.clearFeatures,length_map,width row mem_cons_self]
    have here : (maskedWords features masks (first,row)).length=features := by
      rw [maskedWords,length_map,length_range]
    have more : features ≤ masks.length-first*features := by
      rw [count,length_cons,← Nat.sub_mul]
      exact Nat.le_mul_of_pos_left _ (by omega)
    have split : masks.drop (first*features) =
        (masks.drop (first*features)).take features++masks.drop ((first+1)*features) := by
      rw [Nat.succ_mul,← drop_drop,take_append_drop]
    rw [length_cons,range'_succ,zip_cons_cons,flatMap_cons,split,
      zipWith_append (by rw [here,length_take,length_drop]; omega),rest,
      flatMap_cons]
    congr 1
    refine ext_getElem ?_ fun i left right => ?_
    · rw [length_zipWith,length_take,length_drop,long]
      omega
    · have inside : first*features+i < masks.length := by omega
      rw [getElem_zipWith]
      simp only [maskedWords,getElem_map,getElem_range,getElem_take, getElem_drop]
      rw [getD_eq_getElem _ _ inside,getD_eq_getElem _ _ (long.symm ▸ right)]
      exact BitVec.sub_add_cancel _ _

lemma unmask_compacted (width : ∀ row∈rows,row.features.length=p.features)
    (count : masks.length=rows.length*p.features) :
    unmask (compacted p rows masks) masks = (rows.flatMap Row.clearFeatures,
    rows.map fun row => decide (p.scoreThreshold true < row.clearScore.toNat)) := by
  have spelled : ((((range rows.length).zip rows).flatMap
      (maskedWords p.features masks)).flatMap put).length = 32*masks.length := by
    rw [length_puts,length_masked,count,length_zip,length_range,min_self, mul_comm p.features]
  have words := zipWith_maskedWords masks 0 width (by rw [count,zero_add])
  rw [zero_mul,drop_zero,← range_eq_range'] at words
  rw [unmask,compacted,take_left' spelled,drop_left' spelled,
    chunksExact_flatMap (by decide) _ fun a _ => length_put a]
  rw [← words,zip_map_left]
  simp only [zip,map_zipWith,Prod.map,id,word_put]

end

/-- The circuit evaluates to these bits, plainly and as the garbled program. -/
def Computes (iss : Issuer) (cid : CircuitId) (drawn : Block) (cs : Counts)
    (outputs : Drawing (List BooleanWire)) (circuit : Circuit) (bits decoded : List Bool) : Prop :=
  (∃ ws draft,outputs ⟨opening cid drawn cs.wires,[]⟩ = .ok (ws,draft) ∧
    plainOutputs draft bits ws = decoded) ∧ Opens iss.hash circuit bits decoded

section
variable {p : Parameters} {iss : Issuer} {cid : CircuitId} {drawn : Block}

lemma reads_opening (limit : ℕ) (bits : List Bool) :
    Draft.Reads bits ⟨opening cid drawn limit,[]⟩ bits :=
  ⟨fun _ m => absurd m not_mem_nil,rfl⟩

lemma length_scores : (scores.flatMap Score.bits).length = 65*scores.length :=
  length_flatMap_const scores fun s _ => by
    simp only [Score.bits,length_append,length_put,length_singleton]

lemma length_rows {features : ℕ} {rows : List Row} (width : ∀ row∈rows,row.features.length=features)
    : (rows.flatMap Row.bits).length = (64*(features+1)+2)*rows.length := by
  refine length_flatMap_const rows fun row m => ?_
  have pairs : ((row.score::row.features).flatMap fun pair => put pair.1++put pair.2).length =
      64*(row.score::row.features).length :=
    length_flatMap_const _ fun pair _ => by rw [length_append,length_put,length_put]
  rw [Row.bits,length_append,pairs,length_cons,width row m]
  rfl

variable (iss cid drawn) in
lemma computes_count (valid : p.validate = .ok ()) (limits : (firstCounts p).limits = .ok ()) (same
    : scores.length=p.tokens) : ∃ circuit, countCircuit iss cid drawn p = .ok circuit ∧ Measures
    (firstCounts p) circuit.2 ∧ Computes iss cid drawn (firstCounts p) (countOutputs iss p) circuit
    (scores.flatMap Score.bits) ((scores.map fun s => s.kept (p.scoreThreshold false) ^^ s.mask)
    ++ bitsOf (countBits p.tokens) (scores.countP (Score.kept (p.scoreThreshold false)))) := by
  have tokens := (validate_ok valid).1.1
  have emits : Emits iss.hash (opening cid drawn (firstCounts p).wires)
      (countOutputs iss p) ⟨opening cid drawn (firstCounts p).wires,[]⟩
      (firstCounts p).tally _ :=
    (emits_countOutputs tokens (scoreThreshold_lt valid false) same (reads_opening _ _)).costs
      (tally_firstCounts p).symm
  obtain ⟨ws,draft,circuit,run,issued,measures,plain,opens⟩ := issue_emits
    (allowed_firstCounts tokens limits) (by rw [length_scores,same]; rfl)
    (by rw [length_append,length_map,length_bitsOf,same]; rfl) emits
  refine ⟨circuit,?_,measures,⟨ws,draft,run,plain⟩,opens⟩
  rw [countCircuit,project_eq valid zero_le]
  exact issued

variable (iss cid drawn) in
lemma computes_compact (valid : p.validate = .ok ()) {keep : ℕ} (pos : 0 < keep)
    (fewer : keep<p.tokens) (limits : (secondCounts p keep).limits = .ok ()) {rows : List Row}
    (same : rows.length=p.tokens) (width : ∀ row∈rows,row.features.length=p.features)
    (kept : (rows.filter Row.kept).length = keep) (count : masks.length=keep*p.features) :
    ∃ circuit,compactCircuit iss cid drawn p keep = .ok circuit ∧ Measures (secondCounts p keep)
    circuit.2 ∧ Computes iss cid drawn (secondCounts p keep) (compactOutputs iss p keep) circuit
    (rows.flatMap Row.bits++masks.flatMap put) (compacted p (rows.filter Row.kept) masks) := by
  have emits : Emits iss.hash (opening cid drawn (secondCounts p keep).wires)
      (compactOutputs iss p keep) ⟨opening cid drawn (secondCounts p keep).wires,[]⟩
      (secondCounts p keep).tally _ :=
    (emits_compactOutputs (scoreThreshold_lt valid true) same width kept fewer count
      (reads_opening _ _)).costs (tally_secondCounts p keep).symm
  obtain ⟨ws,draft,circuit,run,issued,measures,plain,opens⟩ := issue_emits
    (allowed_secondCounts pos limits)
    (by
      rw [length_append,length_rows width,length_puts,same,count]
      simp only [secondCounts,adders,subtractors,Counts.greater]
      ring)
    (by
      rw [compacted,length_append,length_puts,length_masked,length_map,
        length_zip,length_range,min_self,kept]
      simp only [secondCounts,adders,subtractors,Counts.greater]
      ring)
    emits
  refine ⟨circuit,?_,measures,⟨ws,draft,run,plain⟩,opens⟩
  rw [compactCircuit,if_neg (by omega),project_eq valid fewer.le,if_pos ⟨pos.ne',fewer.ne⟩]
  exact issued

lemma exists_rows {keep tokens : ℕ} (few : keep≤tokens) (features : ℕ) :
    ∃ rows : List Row,rows.length=tokens ∧ (∀ row∈rows,row.features.length=features) ∧
      (rows.filter Row.kept).length = keep := by
  refine ⟨replicate keep ⟨(0,0),replicate features (0,0),true,false⟩ ++
    replicate (tokens-keep) ⟨(0,0),replicate features (0,0),false,false⟩,?_,?_,?_⟩
  · rw [length_append,length_replicate,length_replicate]
    omega
  · intro row m
    rcases mem_append.mp m with m | m <;>
      rw [eq_of_mem_replicate m,length_replicate]
  · simp [Row.kept]

end

/-- For an admitted pruning both circuits are issued and measure what was projected. The first one
returns the masked flags and how many rows are above the threshold. When that many rows are kept, the
second one returns, once the masks are taken off, the kept rows in their order with their degrees. -/
theorem pruning_circuits {p : Parameters} {bytes : ℕ} (admitted : admits p = .ok bytes)
    (iss : Issuer) (cid : CircuitId) (drawn : Block) {keep : ℕ}
    (few : keep≤p.tokens) : ∃ first second,project p keep = .ok (first,second) ∧
      (∃ circuit,countCircuit iss cid drawn p = .ok circuit ∧ Measures first circuit.2 ∧
        ∀ scores : List Score,scores.length=p.tokens → ∃ decoded,
          Computes iss cid drawn first (countOutputs iss p) circuit
            (scores.flatMap Score.bits) decoded ∧
          decoded.take p.tokens =
            (scores.map fun s => s.kept (p.scoreThreshold false) ^^ s.mask) ∧
          (word (decoded.drop p.tokens)).toNat =
            scores.countP (Score.kept (p.scoreThreshold false))) ∧
      (0 < keep → keep<p.tokens →
        ∃ circuit,compactCircuit iss cid drawn p keep = .ok circuit ∧
          Measures second circuit.2 ∧ ∀ (rows : List Row) (masks : List (BitVec 32)),
            rows.length=p.tokens → (∀ row∈rows,row.features.length=p.features) →
            (rows.filter Row.kept).length = keep → masks.length=keep*p.features →
            ∃ decoded,Computes iss cid drawn second (compactOutputs iss p keep)
                circuit (rows.flatMap Row.bits++masks.flatMap put) decoded ∧
              unmask decoded masks = ((rows.filter Row.kept).flatMap Row.clearFeatures,
                (rows.filter Row.kept).map fun row =>
                  decide (p.scoreThreshold true < row.clearScore.toNat))) := by
  obtain ⟨valid,limits⟩ := admits_ok admitted
  obtain ⟨⟨-,most⟩,-⟩ := validate_ok valid
  obtain ⟨firstLimits,secondLimits⟩ := limits keep few _ _ (project_eq valid few)
  refine ⟨_,_,project_eq valid few,?_,fun pos fewer => ?_⟩
  · have one : (replicate p.tokens (⟨(0,0),false⟩ : Score)).length=p.tokens :=
      length_replicate
    obtain ⟨circuit,issued,measures,-⟩ := computes_count iss cid drawn valid
      firstLimits one
    refine ⟨circuit,issued,measures,fun scores same => ?_⟩
    obtain ⟨circuit',issued',-,computes⟩ := computes_count iss cid drawn valid
      firstLimits same
    obtain rfl := Except.ok.inj (issued.symm.trans issued')
    have flags : (scores.map fun s => s.kept (p.scoreThreshold false) ^^ s.mask).length =
        p.tokens := by rw [length_map,same]
    refine ⟨_,computes,take_left' flags,?_⟩
    have below : scores.countP (Score.kept (p.scoreThreshold false)) < 2^countBits p.tokens :=
      lt_of_le_of_lt (countP_le_length.trans same.le) (Nat.lt_size_self _)
    rw [drop_left' flags,word,bitsOf,wordValue_testBit,Nat.mod_eq_of_lt below,
      BitVec.toNat_ofNat,Nat.mod_eq_of_lt]
    have counted : scores.countP (Score.kept (p.scoreThreshold false)) ≤ p.tokens :=
      countP_le_length.trans same.le
    omega
  · rw [if_pos ⟨pos.ne',fewer.ne⟩] at secondLimits ⊢
    obtain ⟨some,someSame,someWidth,someKept⟩ := exists_rows few p.features
    have blank : (replicate (keep*p.features) (0 : BitVec 32)).length =
        keep*p.features := length_replicate
    obtain ⟨circuit,issued,measures,-⟩ := computes_compact iss cid drawn valid pos fewer
      secondLimits someSame someWidth someKept blank
    refine ⟨circuit,issued,measures,fun rows masks same width kept count => ?_⟩
    obtain ⟨circuit',issued',-,computes⟩ := computes_compact iss cid drawn valid pos
      fewer secondLimits same width kept count
    obtain rfl := Except.ok.inj (issued.symm.trans issued')
    exact ⟨_,computes,unmask_compacted (fun row m => width row (mem_of_mem_filter m))
      (by rw [count,kept])⟩

/-- Two rows of one feature, of which the second is kept. -/
def smallParameters : Parameters := ⟨2,1,1,10,20⟩

def smallRows : List Row := [⟨(7,20),[(1,2)],(true,true)⟩,⟨(9,12),[(3,5)],(true,false)⟩]

theorem pruning_circuits_small : ∃ circuit, compactCircuit ⟨mixingHash,fun i => BitVec.ofNat 128 i⟩
    5 40 smallParameters 1 = .ok circuit ∧ ∃ decoded,Opens mixingHash circuit (smallRows.flatMap
    Row.bits++[(100 : BitVec 32)].flatMap put) decoded ∧ unmask decoded [100] = ([8],[false]) := by
  obtain ⟨bytes,admitted⟩ : ∃ bytes,admits smallParameters = .ok bytes :=
    isSome_toOption.mp (by decide +kernel)
  obtain ⟨first,second,-,-,compact⟩ := pruning_circuits admitted
    ⟨mixingHash,fun i => BitVec.ofNat 128 i⟩ 5 40 (Nat.le_succ 1)
  obtain ⟨circuit,issued,-,opens⟩ := compact Nat.one_pos Nat.one_lt_two
  obtain ⟨decoded,computes,unmasked⟩ := opens smallRows [100] rfl (by decide) rfl rfl
  refine ⟨circuit,issued,decoded,computes.2,unmasked.trans ?_⟩
  decide +kernel

end Pllm.Garble.TokenPruning
