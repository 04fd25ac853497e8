import Pllm.Garble.BooleanCorrect

/-! One-use garbled lookup: a punctured one-hot tree over the masked index, a random table of mask bits
under every place of the tree, and the table masked by it. The keyed hash is a parameter. -/
namespace Pllm.Garble.LogRow
open Pllm.Lib

def maxBits : ℕ := 9
def treeDomain : ℕ := 1 <<< 48
def treeRowDomain : ℕ := 2 <<< 48
def maskDomain : ℕ := 3 <<< 48
def maskRowDomain : ℕ := 4 <<< 48

structure LogRowClient where
  id : CircuitId
  zero : List Block
  delta : Block
  outputZero : List Block
  inputBits : ℕ

structure LogRowInputs where
  id : CircuitId
  labels : List Block

structure LogRowDecoder where
  id : CircuitId
  zero : List Block
  delta : Block

structure LogRowOutputs where
  id : CircuitId
  labels : List Block

structure MaskLevel where
  depth : ℕ
  rows : List Block

structure LogRowProgram where
  id : CircuitId
  inputBits : ℕ
  outputBits : ℕ
  treeRows : List (Block × Block)
  treeFinal : Block
  maskLevels : List MaskLevel
  maskedTable : List Byte

def validateTable (inputBits outputBits : ℕ) (table : List (BitVec 16)) : Except String Unit :=
  if ¬(1 ≤ inputBits ∧ inputBits≤12) ∨ ¬(1≤outputBits ∧ outputBits≤16)
      ∨ table.length ≠ 1 <<< inputBits
      ∨ table.any fun value => decide (value.toNat≥1 <<< outputBits) then
    .error "LogRow table shape or output width is invalid"
  else .ok ()

/-- The color bits of labels, as a number. -/
def colors (labels : List Block) : ℕ :=
  labels.zipIdx.foldl (fun value p => value ||| (permuteBit p.1).toNat <<< p.2) 0

section
variable (hash : FixedKeyHash) (id : CircuitId)

def maskBits (seed : Block) (depth count : ℕ) : List Bool :=
  ((List.range ((count+127)/128)).flatMap fun chunk =>
    let block := hash seed id (maskDomain ||| depth <<< 32 ||| chunk) 0
    (List.range 128).map fun bit => (block.byte (bit/8)).getLsbD (bit%8)).take count

def folded (hot : List Block) : List Block := foldHalves hot

/-- The seeds of the rows whose mask bit is set. -/
def maskSum (hot : List Block) (bits : List Bool) (outputBits bit : ℕ) : Block :=
  hot.zipIdx.foldl (fun sum p =>
    if bits.getD (p.2*outputBits+bit) false then sum ^^^ p.1 else sum) 0

/-- The zero labels of the masked index: all of color zero. -/
def maskedZero (zero : List Block) (alpha : ℕ) (delta : Block) : List Block :=
  zero.mapIdx fun bit label => if alpha.testBit bit then label ^^^ delta else label

def child (depth index branch : ℕ) (seed : Block) : Block :=
  hash seed id (treeDomain ||| depth <<< 32 ||| index) branch

def children (depth : ℕ) (leaves : List Block) : List Block :=
  leaves.zipIdx.flatMap fun p => [child hash id depth p.2 0 p.1,child hash id depth p.2 1 p.1]

def stepBy2 {α : Type} : List α → List α
  | a::_::l => a::stepBy2 l
  | l => l

/-- One level of the punctured tree: its seeds, and the two rows that open the sibling of the path. -/
def treeLevel (masked : List Block) (delta : Block) (top : ℕ) (s : List Block × List (Block × Block))
    (i : ℕ) : List Block × List (Block × Block) :=
  let depth := i+1
  let bit := top-depth
  let children := children hash id depth s.1
  let even := (stepBy2 children).foldl (· ^^^ ·) 0
  let odd := (stepBy2 (children.drop 1)).foldl (· ^^^ ·) 0
  let tag := treeRowDomain ||| depth
  (children,s.2++[(even ^^^ hash (masked.getD bit 0 ^^^ delta) id tag 0,
    odd ^^^ hash (masked.getD bit 0) id tag 1)])

def tree (masked : List Block) (delta : Block) (top : ℕ) : List Block × List (Block × Block) :=
  (List.range top).foldl (treeLevel hash id masked delta top)
    ([masked.getD top 0 ^^^ delta,masked.getD top 0],[])

structure Masking where
  levels : List MaskLevel
  randomTable : List (BitVec 16)
  outputZero : List Block

def maskEntry (left right : List Bool) (half outputBits index : ℕ) (entry : BitVec 16) : BitVec 16 :=
  let offset := index%(half*2)
  let (bits,row) := if offset<half then (left,offset) else (right,offset-half)
  (List.range outputBits).foldl (fun entry output =>
    if bits.getD (row*outputBits+output) false then entry ^^^ (1 : BitVec 16) <<< output else entry)
    entry

/-- The mask bits of one level of the tree. -/
def maskLevel (masked : List Block) (delta : Block) (outputBits depth : ℕ) (hot : List Block)
    (s : Masking) : Masking :=
  let half := 1 <<< (depth-1)
  let zero := masked.getD (depth-1) 0
  let left := maskBits hash id zero depth (half*outputBits)
  let right := maskBits hash id (zero ^^^ delta) depth (half*outputBits)
  let leftSum := maskSum (hot.take half) left outputBits
  let rightSum := maskSum (hot.drop half) right outputBits
  let tag := fun output : ℕ => maskRowDomain ||| depth <<< 32 ||| output
  let z := fun output => hash zero id (tag output) 0 ^^^ rightSum output
  { levels := s.levels++[⟨depth,(List.range outputBits).map fun output =>
      (hash (zero ^^^ delta) id (tag output) 1 ^^^ leftSum output) ^^^ z output⟩]
    randomTable := s.randomTable.mapIdx fun index => maskEntry left right half outputBits index
    outputZero := s.outputZero.mapIdx fun output label =>
      label ^^^ ((leftSum output ^^^ rightSum output) ^^^ z output) }

/-- All levels, from the leaves up. -/
def maskLevels (masked : List Block) (delta : Block) (outputBits : ℕ) :
    ℕ → List Block → Masking → Masking
  | 0, _, s => s
  | depth+1, hot, s => maskLevels masked delta outputBits depth
      (if depth+1>1 then folded hot else hot)
      (maskLevel hash id masked delta outputBits (depth+1) hot s)

/-- Bit `offset` of packed bytes. -/
def packedBit (bytes : List Byte) (offset : ℕ) : Bool := (bytes.getD (offset/8) 0).getLsbD (offset%8)

def setPackedBit (bytes : List Byte) (offset : ℕ) : List Byte :=
  bytes.modify (offset/8) (· ||| (1 : Byte) <<< (offset%8))

def packTable (outputBits : ℕ) (table : List (BitVec 16)) : List Byte :=
  table.zipIdx.foldl (fun bytes p => (List.range outputBits).foldl (fun bytes output =>
    if p.1.getLsbD output then setPackedBit bytes (p.2*outputBits+output) else bytes) bytes)
    (List.replicate ((table.length*outputBits+7)/8) 0)

/-- The seeds of the places whose bit is set, added to every output label. -/
def addSeeds (seeds : List Block) (bit : ℕ → ℕ → Bool) (labels : List Block) : List Block :=
  seeds.zipIdx.foldl (fun labels p => labels.mapIdx fun output label =>
    if bit p.2 output then label ^^^ p.1 else label) labels

/-- `drawn` are the two bytes of the base value. -/
def prepareWithEncodings (zero : List Block) (delta : Block) (outputBits : ℕ)
    (table : List (BitVec 16)) (drawn : BitVec 16) : Except String (LogRowClient × LogRowProgram) := do
  let inputBits := zero.length
  validateTable inputBits outputBits table
  if ¬permuteBit delta then .error "LogRow delta must have an odd selection bit"
  else
    let alpha := colors zero
    let masked := maskedZero zero alpha delta
    let (leaves,treeRows) := tree hash id masked delta (inputBits-1)
    let treeFinal := leaves.foldl (· ^^^ ·) 0 ^^^ delta
    let masking := maskLevels hash id masked delta outputBits inputBits leaves
      ⟨[],List.replicate (1 <<< inputBits) 0,List.replicate outputBits 0⟩
    let base := drawn &&& lowMask outputBits
    let randomTable := masking.randomTable.mapIdx fun index entry =>
      (entry ^^^ base) ^^^ table.getD (index ^^^ alpha) 0
    let outputZero := masking.outputZero.mapIdx fun output label =>
      if base.getLsbD output then label ^^^ delta else label
    let outputZero := addSeeds leaves (fun index output =>
      (randomTable.getD index 0).getLsbD output) outputZero
    return (⟨id,zero,delta,outputZero,inputBits⟩,
      ⟨id,inputBits,outputBits,treeRows,treeFinal,masking.levels,packTable outputBits randomTable⟩)

/-- The public entry draws the offset and the labels itself. -/
def prepareLogrow (inputBits outputBits : ℕ) (table : List (BitVec 16)) (drawnDelta : Block)
    (label : ℕ → Block) (drawn : BitVec 16) : Except String (LogRowClient × LogRowProgram) := do
  if ¬(1 ≤ inputBits ∧ inputBits ≤ maxBits) ∨ ¬(1≤outputBits ∧ outputBits ≤ maxBits) then
    .error "LogRow input/output widths must be between 1 and 9"
  else do
    validateTable inputBits outputBits table
    prepareWithEncodings hash id ((List.range inputBits).map label)
      (drawnDelta.setByte 15 (drawnDelta.byte 15 ||| 1)) outputBits table drawn

def LogRowClient.encode (self : LogRowClient) (index : ℕ) :
    Except String (LogRowInputs × LogRowDecoder) :=
  if index≥1 <<< self.inputBits then .error "LogRow input index is out of range"
  else
    let labels := self.zero.mapIdx fun bit zero =>
      if index.testBit bit then zero ^^^ self.delta else zero
    .ok (⟨self.id,labels⟩,⟨self.id,self.outputZero,self.delta⟩)

def expand (depth : ℕ) (hot : List (Option Block)) : List (Option Block) :=
  hot.zipIdx.flatMap fun p => [p.1.map (child hash id depth p.2 0),p.1.map (child hash id depth p.2 1)]

/-- One level of the tree: the children of all known seeds, and the sibling of the path. -/
def openLevel (labels : List Block) (top index : ℕ) (hot : List (Option Block))
    (p : (Block × Block) × ℕ) : List (Option Block) :=
  let bit := top-p.2-1
  let expanded := expand hash id (p.2+1) hot
  let missingOffpath := (index >>> bit) ^^^ 1
  let parity := missingOffpath%2
  let sum := ((expanded.zipIdx.filter fun q => decide (q.2%2=parity)).filterMap Prod.fst).foldl
    (· ^^^ ·) 0
  let tag := treeRowDomain ||| (p.2+1)
  expanded.set missingOffpath (some ((pick p.1 (parity==1)
    ^^^ hash (labels.getD bit 0) id tag parity) ^^^ sum))

/-- One level of the mask bits. -/
def unmaskLevel (labels : List Block) (outputBits index : ℕ) (s : List Block × List Block)
    (level : MaskLevel) : List Block × List Block :=
  let depth := level.depth
  let half := 1 <<< (depth-1)
  let bit := depth-1
  let side := index.testBit bit
  let label := labels.getD bit 0
  let bits := maskBits hash id label depth (half*outputBits)
  let output := s.2.mapIdx fun column sum =>
    let tag := maskRowDomain ||| depth <<< 32 ||| column
    let row := if side then level.rows.getD column 0 else 0
    sum ^^^ ((hash label id tag side.toNat ^^^ row)
      ^^^ maskSum (if side then s.1.drop half else s.1.take half) bits outputBits column)
  (if depth>1 then folded s.1 else s.1,output)

end

def LogRowProgram.evaluate (hash : FixedKeyHash) (self : LogRowProgram) (input : LogRowInputs) :
    Except String LogRowOutputs :=
  if input.id≠self.id ∨ input.labels.length≠self.inputBits then
    .error "LogRow input labels belong to another circuit"
  else
    let index := colors input.labels
    let top := self.inputBits-1
    let hot := [none,none].set (1-index >>> top) (some (input.labels.getD top 0))
    let hot := self.treeRows.zipIdx.foldl (openLevel hash self.id input.labels top index) hot
    let known := (hot.filterMap fun seed => seed).foldl (· ^^^ ·) 0
    match (hot.set index (some (self.treeFinal ^^^ known))).mapM fun seed => seed with
    | none => .error "LogRow one-hot tree is incomplete"
    | some hot =>
      let output := (self.maskLevels.foldl (unmaskLevel hash self.id input.labels self.outputBits index)
        (hot,List.replicate self.outputBits 0)).2
      .ok ⟨self.id,addSeeds hot (fun index output =>
        packedBit self.maskedTable (index*self.outputBits+output)) output⟩

def LogRowDecoder.decode (self : LogRowDecoder) (outputs : LogRowOutputs) :
    Except String (BitVec 16) :=
  if outputs.id≠self.id ∨ outputs.labels.length≠self.zero.length then
    .error "LogRow outputs belong to another circuit"
  else (outputs.labels.zip self.zero).zipIdx.foldlM (fun result p =>
    if p.1.1=p.1.2 then .ok result
    else if p.1.1 ≠ p.1.2 ^^^ self.delta then .error "LogRow output label is invalid"
    else .ok (result ||| (1 : BitVec 16) <<< p.2)) 0

open List

lemma permuteBit_zero : permuteBit 0 = false := by decide

lemma testBit_colors_from (labels : List Block) (k v b : ℕ) :
    ((labels.zipIdx k).foldl (fun value p => value ||| (permuteBit p.1).toNat <<< p.2) v).testBit b
      = (v.testBit b || (decide (k≤b) && permuteBit (labels.getD (b-k) 0))) := by
  induction labels generalizing k v with
  | nil => rw [zipIdx_nil,foldl_nil,getD_nil,permuteBit_zero,Bool.and_false,Bool.or_false]
  | cons label labels ih =>
    rw [zipIdx_cons,List.foldl_cons,ih,Nat.testBit_or,Nat.testBit_shiftLeft]
    rcases lt_trichotomy b k with h | rfl | h
    · have h1 : ¬k ≤ b := by omega
      have h2 : ¬k+1 ≤ b := by omega
      simp [h1,h2]
    · rw [tsub_self,getD_cons_zero,decide_eq_true le_rfl]
      cases permuteBit label <;> simp
    · have h1 : k≤b := by omega
      have h2 : k+1≤b := by omega
      have h3 : b-k=(b-(k+1))+1 := by omega
      have hbit : ((permuteBit label).toNat).testBit (b-(k+1)+1)=false := by
        cases permuteBit label
        · exact Nat.zero_testBit _
        · exact Bool.eq_false_iff.mpr (Nat.testBit_one_eq_true_iff_self_eq_zero.not.mpr (Nat.succ_ne_zero _))
      rw [h3,hbit,decide_eq_true h1,decide_eq_true h2]
      simp

lemma testBit_colors (labels : List Block) (b : ℕ) :
    (colors labels).testBit b = permuteBit (labels.getD b 0) := by
  rw [colors,testBit_colors_from]
  simp

lemma colors_lt (labels : List Block) : colors labels < 2^labels.length := by
  apply Nat.lt_pow_two_of_testBit
  intro i hi
  rw [testBit_colors,getD_eq_default _ _ hi,permuteBit_zero]

variable {b m : ℕ}

section
variable {zero : List Block} {delta : Block} {index : ℕ}

lemma getD_maskedZero (alpha : ℕ) (hb : b<zero.length) : (maskedZero zero alpha delta).getD b 0
      = if alpha.testBit b then zero.getD b 0 ^^^ delta else zero.getD b 0 := by
  rw [maskedZero,getD_eq_getElem?_getD,getElem?_mapIdx,getElem?_eq_getElem hb,
    getD_eq_getElem _ _ hb]
  rfl

lemma getD_encoded (hb : b<zero.length) :
    (zero.mapIdx fun bit zero => if index.testBit bit then zero ^^^ delta else zero).getD b 0
      = if index.testBit b then zero.getD b 0 ^^^ delta else zero.getD b 0 := by
  rw [getD_eq_getElem?_getD,getElem?_mapIdx,getElem?_eq_getElem hb,getD_eq_getElem _ _ hb]
  rfl

lemma label_masked (hb : b<zero.length) :
    (zero.mapIdx fun bit zero => if index.testBit bit then zero ^^^ delta else zero).getD b 0
      = (maskedZero zero (colors zero) delta).getD b 0
        ^^^ (if (index ^^^ colors zero).testBit b then delta else 0) := by
  rw [getD_encoded hb,getD_maskedZero _ hb,Nat.testBit_xor]
  cases index.testBit b <;> cases (colors zero).testBit b <;> simp [xor_assoc]

lemma colors_encoded (hdlt : permuteBit delta = true) (hidx : index<2^zero.length) :
    colors (zero.mapIdx fun bit zero => if index.testBit bit then zero ^^^ delta else zero)
      = index ^^^ colors zero := by
  apply Nat.eq_of_testBit_eq
  intro b
  rw [testBit_colors,Nat.testBit_xor,testBit_colors]
  by_cases hb : b<zero.length
  · rw [getD_encoded hb]
    cases index.testBit b
    · rw [if_neg Bool.false_ne_true,Bool.false_xor]
    · have hxor : permuteBit (zero.getD b 0 ^^^ delta)=(permuteBit (zero.getD b 0) ^^ permuteBit delta) :=
        permuteBit_xor _ _
      rw [if_pos rfl,hxor,hdlt,Bool.xor_true,Bool.true_xor]
  · have hbit : index.testBit b=false := Nat.testBit_lt_two_pow
      (hidx.trans_le (Nat.pow_le_pow_right (by decide) (not_lt.mp hb)))
    rw [getD_eq_default _ _ (by simpa using not_lt.mp hb),
      getD_eq_default _ _ (not_lt.mp hb),hbit,permuteBit_zero]
    rfl

end

section
variable (hash : FixedKeyHash) (id : CircuitId)

lemma length_children_from (depth k : ℕ) (leaves : List Block) : ((leaves.zipIdx k).flatMap fun p =>
      [child hash id depth p.2 0 p.1,child hash id depth p.2 1 p.1]).length = 2*leaves.length := by
  induction leaves generalizing k with
  | nil => rfl
  | cons leaf leaves ih =>
    rw [zipIdx_cons,flatMap_cons,length_append,ih,length_cons,length_cons,length_cons,length_nil]
    omega

lemma length_children (depth : ℕ) (leaves : List Block) :
    (children hash id depth leaves).length = 2*leaves.length := length_children_from hash id depth 0 leaves

lemma expand_some_from (depth k : ℕ) (leaves : List Block) : (((leaves.map some).zipIdx k).flatMap
    fun p => [p.1.map (child hash id depth p.2 0),p.1.map (child hash id depth p.2 1)]) =
    ((leaves.zipIdx k).flatMap
    fun p => [child hash id depth p.2 0 p.1,child hash id depth p.2 1 p.1]).map some := by
  induction leaves generalizing k with
  | nil => rfl
  | cons leaf leaves ih =>
    rw [map_cons,zipIdx_cons,flatMap_cons,ih,zipIdx_cons,flatMap_cons,map_append]
    rfl

/-- Both children of the unknown place are unknown. -/
lemma expand_puncture_from (depth k : ℕ) {leaves : List Block} (hm : m<leaves.length) :
    (((puncture leaves m).zipIdx k).flatMap fun p =>
      [p.1.map (child hash id depth p.2 0),p.1.map (child hash id depth p.2 1)])
      = (puncture ((leaves.zipIdx k).flatMap fun p =>
        [child hash id depth p.2 0 p.1,child hash id depth p.2 1 p.1]) (2*m)).set (2*m+1) none := by
  induction leaves generalizing k m with
  | nil => exact absurd hm (Nat.not_lt_zero m)
  | cons leaf leaves ih =>
    cases m with
    | zero =>
      simp only [puncture,map_cons,set_cons_zero,zipIdx_cons,flatMap_cons,
        expand_some_from,cons_append,nil_append,Option.map_none,mul_zero,zero_add, set_cons_succ]
    | succ m =>
      have hnext := ih (k+1) (m := m) (by simpa using hm)
      simp only [puncture] at hnext
      have hdou : 2*(m+1)=2*m+1+1 := by omega
      simp only [puncture,map_cons,set_cons_succ,zipIdx_cons,flatMap_cons,hnext,
        cons_append,nil_append,Option.map_some,hdou]

lemma expand_puncture (depth : ℕ) {leaves : List Block} (hm : m<leaves.length) : expand hash id
    depth (puncture leaves m) = (puncture (children hash id depth leaves) (2*m)).set (2*m+1) none :=
  expand_puncture_from hash id depth 0 hm

end

lemma stepBy2_sum (l : List Block) (s : Block) :
    (stepBy2 l).foldl (· ^^^ ·) s = s ^^^ xorAt (fun i => decide (i%2=0)) l := by
  induction l using stepBy2.induct generalizing s with
  | case1 a b l ih =>
    rw [stepBy2,List.foldl_cons,ih,xorAt,xorAt]
    have hshf : (fun i => decide ((i+1+1)%2=0))=fun i => decide (i%2=0) :=
      funext fun i => by simp only [decide_eq_decide]; omega
    simp [hshf,xor_assoc]
  | case2 l hl =>
    rcases l with _ | ⟨a,_ | ⟨b,l⟩⟩
    · simp [stepBy2,xorAt]
    · simp [stepBy2,xorAt]
    · exact absurd rfl (hl a b l)

lemma stepBy2_drop_sum (l : List Block) (s : Block) :
    (stepBy2 (l.drop 1)).foldl (· ^^^ ·) s = s ^^^ xorAt (fun i => decide (i%2=1)) l := by
  cases l with
  | nil => simp [stepBy2,xorAt]
  | cons a l =>
    rw [drop_one,stepBy2_sum,xorAt]
    have hshf : (fun i => decide ((i+1)%2=1))=fun i => decide (i%2=0) :=
      funext fun i => by simp only [decide_eq_decide]; omega
    simp [hshf]

lemma known_sum_from (w : ℕ → Bool) (l : List (Option Block)) (k : ℕ) (s : Block) :
    (((l.zipIdx k).filter fun q => w q.2).filterMap Prod.fst).foldl (· ^^^ ·) s
      = s ^^^ xorAt (fun i => w (k+i)) (l.map fun a => a.getD 0) := by
  induction l generalizing k s with
  | nil => simp [xorAt]
  | cons a l ih =>
    have hshf : (fun i => w (k+1+i))=fun i => w (k+(i+1)) :=
      funext fun i => congrArg w (by omega)
    rw [zipIdx_cons,map_cons,xorAt,←hshf]
    cases hw : w k with
    | false =>
      rw [filter_cons_of_neg (by simp [hw]),ih]
      simp
    | true =>
      rw [filter_cons_of_pos (by simp [hw])]
      cases a with
      | none =>
        rw [filterMap_cons_none rfl,ih]
        simp
      | some a =>
        simp only [filterMap_cons,List.foldl_cons,ih,if_true,Option.getD_some,xor_assoc]

lemma known_sum (l : List (Option Block)) (s : Block) : (l.filterMap fun a => a).foldl (· ^^^ ·) s
      = s ^^^ xorAt (fun _ => true) (l.map fun a => a.getD 0) := by
  induction l generalizing s with
  | nil => simp [xorAt]
  | cons a l ih =>
    cases a with
    | none =>
      rw [filterMap_cons_none rfl,ih,map_cons,xorAt]
      simp
    | some a =>
      simp only [filterMap_cons,List.foldl_cons,ih,map_cons,xorAt,if_true,
        Option.getD_some,xor_assoc]

lemma xor_one (q : ℕ) : q ^^^ 1 = q+1-2*(q%2) := by
  rcases Nat.mod_two_eq_zero_or_one q with h | h
  · rw [Nat.xor_one_of_even (Nat.even_iff.mpr h),h]
    rfl
  · rw [Nat.xor_one_of_odd (Nat.odd_iff.mpr h)]
    omega

section
variable (hash : FixedKeyHash) (id : CircuitId) {masked labels : List Block} {delta : Block} {x top : ℕ}

variable {leaves l : List Block} {q : ℕ}

lemma expand_path (depth : ℕ) (hq : q<2*leaves.length) : expand hash id depth
    (puncture leaves (q/2)) = (puncture (children hash id depth leaves) q).set (q ^^^ 1) none := by
  rw [expand_puncture hash id depth (by omega),xor_one]
  rcases Nat.mod_two_eq_zero_or_one q with h | h
  · have h1 : 2*(q/2)=q := by omega
    rw [h1,h]
    rfl
  · have h1 : 2*(q/2)+1=q := by omega
    have h2 : q+1-2*(q%2)=2*(q/2) := by omega
    rw [h1,h2,puncture]
    exact set_comm _ _ (by omega)

/-- With two siblings unknown, the entries of one parity add up to all of them but one. -/
lemma sum_siblings (hq : q<l.length) (ho : q ^^^ 1 < l.length) (s : Block) :
    (((((puncture l q).set (q ^^^ 1) none).zipIdx.filter fun p =>
      decide (p.2%2 = (q ^^^ 1)%2)).filterMap Prod.fst).foldl (· ^^^ ·) s)
      = s ^^^ (xorAt (fun i => decide (i%2 = (q ^^^ 1)%2)) l ^^^ l.getD (q ^^^ 1) 0) := by
  have hne : (q ^^^ 1)%2 ≠ q%2 := by
    rw [xor_one]
    omega
  have hoth : q ≠ q ^^^ 1 := fun h => hne (congrArg (·%2) h.symm)
  have hmap : ((puncture l q).set (q ^^^ 1) none).map (fun a => a.getD 0)
      = (l.set q 0).set (q ^^^ 1) 0 := by
    rw [puncture,map_set,map_set,map_map]
    simp only [Function.comp_def,Option.getD_some,Option.getD_none,map_id']
  have hget : (l.set q 0).getD (q ^^^ 1) 0=l.getD (q ^^^ 1) 0 := by
    rw [getD_eq_getElem?_getD,getElem?_set_ne hoth,getD_eq_getElem?_getD]
  rw [known_sum_from (fun i => decide (i%2=(q ^^^ 1)%2)), hmap,
    xorAt_set_zero _ (by simpa using ho), xorAt_set_zero _ hq, hget]
  simp only [zero_add,decide_eq_false hne.symm,decide_true,Bool.false_eq_true,if_false,if_true,
    xor_zero]

lemma xor_mask (a b c : Block) : ((a ^^^ b) ^^^ b) ^^^ (a ^^^ c)=c := by
  rw [xor_cancel_right,xor_cancel_left]

lemma puncture_fill {o : ℕ} (hne : q≠o) (ho : o<l.length) :
    ((puncture l q).set o none).set o (some (l.getD o 0)) = puncture l q := by
  rw [set_set,puncture,set_comm _ _ hne]
  congr 1
  apply ext_getElem?
  intro j
  by_cases hj : o=j
  · subst hj
    rw [getElem?_set_self (by simpa using ho),getElem?_map,getElem?_eq_getElem ho,
      getD_eq_getElem _ _ ho]
    rfl
  · rw [getElem?_set_ne hj]

/-- One level: the evaluator knows every seed but that of the path. -/
lemma openLevel_puncture {i : ℕ} (hi : i<top) (hx : x<2^(top+1))
    (hlen : leaves.length=2^(i+1)) (hlab : labels.getD (top-i-1) 0
      = masked.getD (top-i-1) 0 ^^^ (if x.testBit (top-i-1) then delta else 0))
    (rows : List (Block × Block)) :
    ∃ row, (treeLevel hash id masked delta top (leaves,rows) i).2 = rows++[row]
      ∧ openLevel hash id labels top x (puncture leaves (x >>> (top-i))) (row,i)
        = puncture (treeLevel hash id masked delta top (leaves,rows) i).1 (x >>> (top-(i+1)))
      ∧ (treeLevel hash id masked delta top (leaves,rows) i).1.length = 2^(i+2) := by
  have hbit : top-i-1=top-(i+1) := by omega
  obtain ⟨q,hq⟩ : ∃ q, x >>> (top-(i+1))=q := ⟨_,rfl⟩
  have hpar : x >>> (top-i)=q/2 := by
    rw [←hq,←Nat.shiftRight_succ]
    congr 1
    omega
  have htes : x.testBit (top-(i+1))=decide (q%2=1) := by
    rw [Nat.testBit_eq_decide_div_mod_eq,←Nat.shiftRight_eq_div_pow,hq]
  have hpow : 2^(i+2)=2*2^(i+1) := Nat.pow_succ'
  obtain ⟨next,hnext⟩ : ∃ next, children hash id (i+1) leaves=next := ⟨_,rfl⟩
  have hchi : next.length=2*2^(i+1) := by
    rw [←hnext,length_children,hlen]
  have hlt : q<2*2^(i+1) := by
    rw [←hq,Nat.shiftRight_eq_div_pow,Nat.div_lt_iff_lt_mul (Nat.two_pow_pos _),←hpow,←pow_add]
    exact hx.trans_le (Nat.pow_le_pow_right (by decide) (by omega))
  have hmod : (q ^^^ 1)%2=1-q%2 := by
    rw [xor_one]
    omega
  have ho : q ^^^ 1 < 2*2^(i+1) := by
    rw [xor_one]
    omega
  have hne : q ≠ q ^^^ 1 := by
    omega
  have hexp : expand hash id (i+1) (puncture leaves (q/2))=(puncture next q).set (q ^^^ 1) none := by
    rw [expand_path hash id (i+1) (hlen.symm ▸ hlt),hnext]
  have hval : ∀ tag, ((pick (xorAt (fun j => decide (j%2=0)) next
        ^^^ hash (masked.getD (top-(i+1)) 0 ^^^ delta) id tag 0,
      xorAt (fun j => decide (j%2=1)) next ^^^ hash (masked.getD (top-(i+1)) 0) id tag 1)
        ((q ^^^ 1)%2==1))
      ^^^ hash (masked.getD (top-(i+1)) 0 ^^^ (if q%2 = 1 then delta else 0)) id tag ((q ^^^ 1)%2))
      ^^^ (xorAt (fun j => decide (j%2 = (q ^^^ 1)%2)) next ^^^ next.getD (q ^^^ 1) 0)
      = next.getD (q ^^^ 1) 0 := fun tag => by
    rw [hmod]
    rcases Nat.mod_two_eq_zero_or_one q with h | h
    · rw [h,if_neg (by decide),xor_zero]
      exact xor_mask _ _ _
    · rw [h]
      exact xor_mask _ _ _
  have hsum := sum_siblings (hchi.symm ▸ hlt) (hchi.symm ▸ ho) 0
  refine ⟨_,rfl,?_,?_⟩
  · rw [hbit] at hlab
    simp only [openLevel,treeLevel,hpar,hbit,hq,hexp,hsum,hnext,stepBy2_drop_sum,hlab,
      htes,zero_xor]
    simp only [stepBy2_sum,zero_xor,decide_eq_true_eq]
    rw [hval]
    exact puncture_fill hne (hchi.symm ▸ ho)
  · simp only [treeLevel,hnext,hchi,hpow]

/-- The whole tree: every seed is known but that of the masked index. -/
lemma open_tree (hx : x<2^(top+1))
    (hlab : ∀ b≤top, labels.getD b 0 = masked.getD b 0 ^^^ (if x.testBit b then delta else 0)) :
    (tree hash id masked delta top).1.length = 2^(top+1)
      ∧ (tree hash id masked delta top).2.zipIdx.foldl (openLevel hash id labels top x)
        ([none,none].set (1-x >>> top) (some (labels.getD top 0)))
        = puncture (tree hash id masked delta top).1 x := by
  have hrun : ∀ k≤top, ∃ leaves rows, (range k).foldl (treeLevel hash id masked delta top)
      ([masked.getD top 0 ^^^ delta,masked.getD top 0],[])=(leaves,rows) ∧ rows.length=k
      ∧ leaves.length=2^(k+1) ∧ rows.zipIdx.foldl (openLevel hash id labels top x) ([none,none].set
        (1-x >>> top) (some (labels.getD top 0))) = puncture leaves (x >>> (top-k)) := by
    intro k hk
    induction k with
    | zero =>
      refine ⟨_,_,rfl,rfl,rfl,?_⟩
      obtain ⟨q,hq⟩ : ∃ q, x >>> top=q := ⟨_,rfl⟩
      have hlt : q<2 := by
        rw [←hq,Nat.shiftRight_eq_div_pow,Nat.div_lt_iff_lt_mul (Nat.two_pow_pos _),←pow_succ']
        exact hx
      have hbit : x.testBit top=decide (q=1) := by
        rw [Nat.testBit_eq_decide_div_mod_eq,←Nat.shiftRight_eq_div_pow,hq,Nat.mod_eq_of_lt hlt]
      rw [tsub_zero,hlab top le_rfl,hbit,hq]
      interval_cases q
      · rw [if_neg (by decide),xor_zero]
        rfl
      · rfl
    | succ k ih =>
      obtain ⟨leaves,rows,hfold,hcnt,hlen,hopen⟩ := ih (by omega)
      obtain ⟨row,hrow,hstep,hnext⟩ := openLevel_puncture hash id (by omega) hx
        hlen (hlab (top-k-1) (by omega)) rows
      refine ⟨_,rows++[row],?_,by simp [hcnt],hnext,?_⟩
      · rw [range_succ,foldl_append,hfold,List.foldl_cons]
        exact Prod.ext rfl hrow
      · rw [zipIdx_append,foldl_append,hopen,zero_add,hcnt]
        exact hstep
  obtain ⟨leaves,rows,hfold,-,hlen,hopen⟩ := hrun top le_rfl
  rw [tree,hfold]
  rw [tsub_self] at hopen
  exact ⟨hlen,hopen⟩

lemma open_leaf (hx : x<leaves.length) :
    ((puncture leaves x).set x (some ((leaves.foldl (· ^^^ ·) 0 ^^^ delta)
      ^^^ ((puncture leaves x).filterMap fun seed => seed).foldl (· ^^^ ·) 0))).mapM (fun seed => seed)
      = some (leaves.modify x (· ^^^ delta)) := by
  have hmap : (puncture leaves x).map (fun a => a.getD 0)=leaves.set x 0 := by
    rw [puncture,map_set,map_map]
    simp only [Function.comp_def,Option.getD_some,Option.getD_none,map_id']
  have hval : (leaves.foldl (· ^^^ ·) 0 ^^^ delta) ^^^ ((puncture leaves x).filterMap fun seed =>
      seed).foldl (· ^^^ ·) 0 = leaves.getD x 0 ^^^ delta := by
    rw [known_sum,hmap,xorAt_set_zero _ hx,foldl_xor,zero_xor,zero_xor,if_pos rfl,
      xor_assoc,xor_left_comm delta,xor_cancel_left,xor_comm delta]
  rw [hval,puncture,set_set]
  have hset : (leaves.map some).set x (some (leaves.getD x 0 ^^^ delta))
      = (leaves.modify x (· ^^^ delta)).map some := by
    apply ext_getElem?
    intro i
    rw [getElem?_map,getElem?_set,getElem?_map]
    by_cases hi : x=i
    · subst hi
      simp [hx]
    · simp [hi]
  rw [hset]
  induction leaves.modify x (· ^^^ delta) with
  | nil => rfl
  | cons a l ih =>
    rw [map_cons,mapM_cons,ih]
    rfl

end

end Pllm.Garble.LogRow
