import Pllm.Common.Slices
import Pllm.Common.Fields
import Pllm.Lib.Except

/-! Output residues of one width for each row of the matrix, packed, and the sharing that carries
a matrix product through them. -/
namespace Pllm.OffsetTransport
open List Pllm.Lib Pllm.Fields

abbrev Word := BitVec 32

/-- The bits of one row's signed sums. -/
def rowBits (row : List Byte) (maxInput : ℕ) : Except String ℕ :=
  let bound := (row.map fun x => x.toInt.natAbs).sum * maxInput
  let bits := max (Nat.size bound+1) 1
  if bits>32 then .error "row bound exceeds signed wrap32" else .ok bits

def rowResidueBits (weights : List Byte) (columns maxInput : ℕ) : Except String (List ℕ) :=
  if columns=0 ∨ weights=[] ∨ weights.length%columns≠0 ∨ weights.length>512*1024*1024
      ∨ ¬(1 ≤ maxInput ∧ maxInput≤127) then
    .error "invalid row-residue matrix or input bound"
  else (chunksExact columns weights).mapM (rowBits · maxInput)

def packedSize (widths : List ℕ) (rows : ℕ) : Except String (ℕ × ℕ) :=
  if widths=[] ∨ (∃ n∈widths, ¬(1≤n ∧ n≤32)) ∨ ¬(1≤rows ∧ rows≤4096)
      ∨ widths.length>4000000/rows then
    .error "invalid row-residue dimensions"
  else
    let bits := widths.sum*rows
    .ok (bits ⌈/⌉ 8,bits)

/-- `widths.iter().cycle()`, for all the rows. -/
def cycled (widths : List ℕ) (rows : ℕ) : List ℕ := (replicate rows widths).flatten

structure Packer where
  output : List Byte
  buffer : ℕ
  used : ℕ

def Packer.flush (p : Packer) : Packer :=
  if 8≤p.used then flush ⟨p.output++[BitVec.ofNat 8 p.buffer],p.buffer>>>8,p.used-8⟩ else p
termination_by p.used

def Packer.push (p : Packer) (field : Word × ℕ) : Packer :=
  let residue := field.1.toNat &&& (2^field.2-1)
  flush ⟨p.output,p.buffer ||| residue<<<p.used,p.used+field.2⟩

def Packer.finish (p : Packer) : List Byte :=
  if p.used≠0 then p.output++[BitVec.ofNat 8 p.buffer] else p.output

def packRowResidues (values : List Word) (widths : List ℕ) (rows : ℕ) :
    Except String (List Byte) := do
  let _ ← packedSize widths rows
  if values.length≠rows*widths.length then .error "row-residue input size differs"
  else pure ((values.zip (cycled widths rows)).foldl Packer.push ⟨[],0,0⟩).finish

def validatePacked (data : List Byte) (size bits : ℕ) : Except String Unit :=
  if data.length≠size ∨ (bits%8≠0 ∧ data.getD (size-1) 0>>>(bits%8)≠0) then
    .error "row-residue length or terminal padding differs"
  else .ok ()

structure BitReader where
  data : List Byte
  position : ℕ

/-- The tail of the last bytes is filled up with zeros. -/
def BitReader.read (r : BitReader) (width : ℕ) : ℕ × BitReader :=
  let raw := number ((r.data.drop (r.position/8)).take 8)
  ((raw>>>(r.position%8)) &&& (2^width-1),⟨r.data,r.position+width⟩)

def BitReader.readEach (r : BitReader) : List ℕ → List ℕ
  | [] => []
  | width::widths => (r.read width).1::(r.read width).2.readEach widths

/-- The sum of two residues, read as a signed number. -/
def centered (sum width : ℕ) : ℤ :=
  let modulus := 2^width
  let value := sum &&& (modulus-1)
  if value≥modulus/2 then value-modulus else value

section
variable (widths : List ℕ) (rows : ℕ)

def reconstructRows (a b : List Byte) : Except String (List ℤ) := do
  let (size,bits) ← packedSize widths rows
  validatePacked a size bits
  validatePacked b size bits
  let widths := cycled widths rows
  let sums := ((BitReader.mk a 0).readEach widths).zipWith (· + ·)
    ((BitReader.mk b 0).readEach widths)
  pure (sums.zipWith centered widths)

def packDifference (a b : List Word) : Except String (List Byte) := do
  let _ ← packedSize widths rows
  if a.length≠rows*widths.length ∨ b.length≠a.length then
    .error "prepared output operands differ from layout"
  else packRowResidues (a.zipWith (· - ·) b) widths rows

def addPacked (raw : List Word) (correction : List Byte) : Except String (List Byte) := do
  let (size,bits) ← packedSize widths rows
  validatePacked correction size bits
  if raw.length≠rows*widths.length then .error "prepared product length differs"
  else
    let read := (BitReader.mk correction 0).readEach (cycled widths rows)
    packRowResidues (raw.zipWith (fun raw value => raw+BitVec.ofNat 32 value) read) widths rows

def unpackRows (payload : List Byte) : Except String (List Word) := do
  let (size,bits) ← packedSize widths rows
  validatePacked payload size bits
  pure (((BitReader.mk payload 0).readEach (cycled widths rows)).map (BitVec.ofNat 32))

def unmaskPacked (packed : List Byte) (mask : List Word) : Except String (List ℤ) := do
  let (size,bits) ← packedSize widths rows
  validatePacked packed size bits
  if mask.length≠rows*widths.length then .error "prepared mask length differs"
  else
    let widths := cycled widths rows
    let sums := ((BitReader.mk packed 0).readEach widths).zipWith (fun value mask =>
      value+mask.toNat) mask
    pure (sums.zipWith centered widths)

end

/-! What the packer writes and the reader finds. -/

/-- The fields of words and their widths. -/
def fieldsOf (fs : List (Word × ℕ)) : List (ℕ × ℕ) := fs.map fun f => (f.2,f.1.toNat)

/-- A packer holds the number of the fields it has taken. -/
structure Packer.Holds (p : Packer) (fs : List (ℕ × ℕ)) : Prop where
  number : number p.output+2^(8*p.output.length)*p.buffer = value fs
  length : 8*p.output.length+p.used = extent fs
  buffer : p.buffer<2^p.used

lemma Packer.flush_used (p : Packer) : p.flush.used<8 := by
  fun_induction Packer.flush with
  | case1 p h ih => exact ih
  | case2 p h => omega

section
variable {p : Packer} {fs : List (ℕ × ℕ)} (h : p.Holds fs)
include h

lemma Packer.Holds.flush : p.flush.Holds fs := by
  fun_induction Packer.flush with
  | case1 p full ih =>
    apply ih
    have low : Fields.number [BitVec.ofNat 8 p.buffer]=p.buffer%2^8 := by simp [Fields.number]
    have split := Nat.mod_add_div p.buffer (2^8)
    have power : 2^(8*p.output.length+8)=2^(8*p.output.length)*2^8 := pow_add ..
    refine ⟨?_,?_,?_⟩
    · rw [number_append,length_append,length_singleton,Nat.mul_add_one,low,power,
        Nat.shiftRight_eq_div_pow,← h.number,mul_assoc,add_assoc,← mul_add,split]
    · have := h.length
      simp only [length_append,length_singleton]
      omega
    · have := h.buffer
      rw [Nat.shiftRight_eq_div_pow,Nat.div_lt_iff_lt_mul (by norm_num),← pow_add,
        Nat.sub_add_cancel full]
      exact this
  | case2 p small => exact h

/-- One more field goes above those that the packer holds. -/
lemma Packer.Holds.push (f : Word × ℕ) : (p.push f).Holds (fs++[(f.2,f.1.toNat)]) := by
  have small : f.1.toNat%2^f.2<2^f.2 := Nat.mod_lt _ (Nat.two_pow_pos _)
  refine Holds.flush ⟨?_,?_,?_⟩
  · rw [Nat.and_two_pow_sub_one_eq_mod,Nat.or_comm,← Nat.shiftLeft_add_eq_or_of_lt h.buffer,
      Nat.shiftLeft_eq,value_append,← h.number,← h.length,pow_add]
    simp only [value]
    ring
  · have := h.length
    have one : extent [(f.2,f.1.toNat)]=f.2 := by simp [extent]
    rw [extent_append,← this,one,add_assoc]
  · rw [Nat.and_two_pow_sub_one_eq_mod]
    refine Nat.or_lt_two_pow (h.buffer.trans_le (Nat.pow_le_pow_right (by norm_num)
      le_self_add)) ?_
    change _ < 2^(p.used+f.2)
    rw [add_comm]
    exact Nat.shiftLeft_lt small

lemma Packer.Holds.pushes (hu : p.used<8) (more : List (Word × ℕ)) : (more.foldl Packer.push
    p).Holds (fs++fieldsOf more) ∧ (more.foldl Packer.push p).used<8 := by
  induction more generalizing p fs with
  | nil => exact ⟨by simpa [fieldsOf] using h,hu⟩
  | cons f more ih => simpa [fieldsOf] using ih (h.push f) (flush_used _)

/-- The packed string is of the canonical length and has clear bits behind its fields. -/
lemma Packer.Holds.finish (hu : p.used<8) : validatePacked p.finish
    (extent fs ⌈/⌉ 8) (extent fs) = .ok () ∧ Fields.number p.finish = value fs := by
  have length := h.length
  have buffer := h.buffer
  rw [Packer.finish,validatePacked,Nat.ceilDiv_eq_add_pred_div]
  by_cases hz : p.used=0
  · have empty : p.buffer=0 := by simpa [hz] using buffer
    have number := h.number
    rw [empty,mul_zero,add_zero] at number
    have full : p.output.length=(extent fs+8-1)/8 := by omega
    have even : extent fs%8=0 := by omega
    rw [if_neg (not_not.mpr hz),if_neg (by simp [full,even])]
    exact ⟨rfl,number⟩
  · have small : p.buffer<2^8 := buffer.trans (Nat.pow_lt_pow_right (by norm_num) hu)
    have last : (extent fs+8-1)/8-1=p.output.length := by omega
    have low : extent fs%8=p.used := by omega
    rw [if_pos hz,if_neg]
    · have one : Fields.number [BitVec.ofNat 8 p.buffer]=p.buffer := by
        simpa [Fields.number] using small
      rw [number_append,one,h.number]
      exact ⟨rfl,rfl⟩
    · rw [not_or]
      refine ⟨by simp; omega,fun both => both.2 ?_⟩
      rw [last,low,getD_append_right _ _ _ _ le_rfl,tsub_self,getD_cons_zero]
      apply BitVec.eq_of_toNat_eq
      rw [BitVec.toNat_ushiftRight,BitVec.toNat_ofNat,Nat.mod_eq_of_lt small,
        Nat.shiftRight_eq_div_pow,Nat.div_eq_of_lt buffer]
      rfl

end

variable {w m : ℕ} {values : List Word} {x : List ℤ}

lemma read_eq (r : BitReader) (hw : w≤32) : (r.read w).1 = number r.data/2^r.position%2^w := by
  rw [BitReader.read,number_slice,Nat.and_two_pow_sub_one_eq_mod]
  apply Nat.eq_of_testBit_eq
  intro i
  simp only [Nat.testBit_mod_two_pow,Nat.testBit_shiftRight,Nat.testBit_div_two_pow]
  by_cases hi : i<w
  · have place : r.position%8+i+8*(r.position/8)=i+r.position := by omega
    have inside : r.position%8+i<8*8 := by omega
    simp [hi,place,inside]
  · simp [hi]

/-- The reader finds the fields of a number one after the other. -/
lemma readEach_eq (front fs : List (ℕ × ℕ)) {r : BitReader} (hn : number r.data = value (front++fs))
    (hp : r.position = extent front) (hw : ∀ f∈fs, f.1≤32) :
    r.readEach (fs.map Prod.fst)=fs.map fun f => f.2%2^f.1 := by
  induction fs generalizing front r with
  | nil => rfl
  | cons f fs ih =>
    rw [map_cons,BitReader.readEach,read_eq r (hw f mem_cons_self),hn,hp,value_field,map_cons,
      ih (front++[f]) (by simpa [BitReader.read] using hn) (by simp [BitReader.read,hp,extent])
        fun g hg => hw g (mem_cons_of_mem _ hg)]

lemma Packer.Holds.read {p : Packer} {fs : List (ℕ × ℕ)} (h : p.Holds fs) (hu : p.used<8)
    (hw : ∀ f∈fs, f.1≤32) :
    (BitReader.mk p.finish 0).readEach (fs.map Prod.fst)=fs.map fun f => f.2%2^f.1 :=
  readEach_eq [] fs (h.finish hu).2 rfl hw

section
variable {widths : List ℕ} {rows size bits : ℕ} (h : packedSize widths rows = .ok (size,bits))
include h

lemma packed_layout : bits = (cycled widths rows).sum ∧ size=bits ⌈/⌉ 8 ∧
    (cycled widths rows).length = rows*widths.length ∧ ∀ w∈cycled widths rows, 1≤w ∧ w≤32 := by
  rw [packedSize,ite_error_eq_ok] at h
  obtain ⟨valid,rfl,rfl⟩ : _ ∧ _ ∧ _ := by simpa using h
  push Not at valid
  refine ⟨?_,rfl,by simp [cycled],fun w hw => ?_⟩
  · simp [cycled,sum_flatten,mul_comm]
  · have : w∈widths := by
      simp only [cycled,mem_flatten,mem_replicate] at hw
      obtain ⟨_,⟨_,rfl⟩,hw⟩ := hw
      exact hw
    exact valid.2.1 w this

/-- Words that fit the layout are packed, and read back from what was packed. -/
lemma pack_read (hv : values.length=rows*widths.length) : ∃ data, packRowResidues values
    widths rows = .ok data ∧ validatePacked data size bits = .ok () ∧ (BitReader.mk data 0).readEach
    (cycled widths rows) = values.zipWith (fun v w => v.toNat%2^w) (cycled widths rows) := by
  obtain ⟨hb,hs,hl,hw⟩ := packed_layout h
  have same : values.length=(cycled widths rows).length := hv.trans hl.symm
  have start : (⟨[],0,0⟩ : Packer).Holds [] := ⟨rfl,rfl,by norm_num⟩
  obtain ⟨holds,used⟩ := start.pushes (by norm_num) (values.zip (cycled widths rows))
  have valid := (holds.finish used).1
  have firsts : (fieldsOf (values.zip (cycled widths rows))).map Prod.fst=cycled widths rows := by
    rw [fieldsOf,map_map]
    exact map_snd_zip (by omega)
  have sum : extent (fieldsOf (values.zip (cycled widths rows)))=bits := by rw [extent,firsts,hb]
  rw [nil_append] at holds valid
  rw [sum,← hs] at valid
  have narrow : ∀ f∈fieldsOf (values.zip (cycled widths rows)), f.1≤32 := fun f hf =>
    (hw f.1 (firsts ▸ mem_map_of_mem hf)).2
  have read := holds.read used narrow
  rw [firsts] at read
  refine ⟨_,?_,valid,read.trans ?_⟩
  · rw [packRowResidues,h,ok_bind,if_neg (by simp [hv])]
    rfl
  · rw [fieldsOf,map_map,zip,map_zipWith]
    rfl

/-- The decoder takes the strings of the canonical length whose padding bits are clear. -/
lemma unpack_accepts (payload : List Byte) :
    (∃ values, unpackRows widths rows payload = .ok values) ↔ payload.length=bits ⌈/⌉ 8 ∧
      ∀ k, bits≤k → k<8*payload.length → (payload.getD (k/8) 0).getLsbD (k%8)=false := by
  obtain ⟨-,hs,-⟩ := packed_layout h
  have valid : (∃ values, unpackRows widths rows payload = .ok values) ↔
      validatePacked payload size bits = .ok () := by
    simp only [unpackRows,h,ok_bind,bind_eq_ok]
    exact ⟨fun ⟨_,_,ok,_⟩ => ok,fun ok => ⟨_,_,ok,rfl⟩⟩
  rw [valid,validatePacked,ite_error_eq_ok,and_iff_left rfl,not_or,not_not,← hs]
  refine and_congr_right fun length => ?_
  rw [length]
  rw [Nat.ceilDiv_eq_add_pred_div] at hs
  push Not
  constructor
  · intro clear k low high
    have last : k/8=size-1 := by omega
    have bit : bits%8+(k%8-bits%8)=k%8 := by omega
    rw [last,← bit,← BitVec.getLsbD_ushiftRight,clear (by omega)]
    exact BitVec.getLsbD_zero
  · intro clear partly
    refine BitVec.eq_of_getLsbD_eq fun i hi => ?_
    rw [BitVec.getLsbD_ushiftRight,show (0 : Byte).getLsbD i=false from BitVec.getLsbD_zero]
    rcases lt_or_ge (bits%8+i) 8 with inside | outside
    · have bit := clear (8*(size-1)+(bits%8+i)) (by omega) (by omega)
      rw [Nat.mul_add_div (by norm_num),Nat.div_eq_of_lt inside,Nat.mul_add_mod,
        Nat.mod_eq_of_lt inside,add_zero] at bit
      exact bit
    · exact BitVec.getLsbD_of_ge _ _ outside

end

/-- A sum that is known in the ring of the row, read as a signed number. -/
lemma centered_eq {w n : ℕ} {y : ℤ} (hw : 1≤w) (sum : (n : ℤ) ≡ y [ZMOD 2^w]) :
    centered n w = Int.bmod y (2^w) := by
  have half : 2^w=2*2^(w-1) := by rw [← Nat.pow_succ',Nat.succ_eq_add_one,Nat.sub_add_cancel hw]
  have rest : y%((2^w:ℕ) : ℤ)=(n%2^w:ℕ) := by
    push_cast
    exact sum.symm
  rw [centered,Nat.and_two_pow_sub_one_eq_mod,Int.bmod_def,rest]
  split_ifs <;> omega

lemma residue_ofInt (hw : w≤32) (i : ℤ) : ((BitVec.ofInt 32 i).toNat:ℤ) ≡ i [ZMOD 2^w] := by
  rw [BitVec.toNat_ofInt,Int.toNat_of_nonneg (Int.emod_nonneg _ (by norm_num))]
  exact (Int.mod_modEq i _).of_dvd (pow_dvd_pow 2 hw)

lemma sub_residue (hw : w≤32) (a s : Word) :
    (((a-s).toNat:ℕ) : ℤ) ≡ a.toNat-s.toNat [ZMOD 2^w] := by
  have : ((a-s).toNat:ℤ)=((a.toNat:ℤ)-s.toNat)%2^32 := by bv_omega
  rw [this]
  exact (Int.mod_modEq _ _).of_dvd (pow_dvd_pow 2 hw)

/-- The mask of the correction comes off in the ring of the row. -/
lemma unmask_residue (hw : w≤32) (raw a s : Word) :
    (((raw+BitVec.ofNat 32 ((a-s).toNat%2^w)).toNat%2^w+s.toNat : ℕ) : ℤ) ≡ raw.toNat+a.toNat
      [ZMOD 2^w] := by
  have cut (x : ℤ) : x%2^32 ≡ x [ZMOD 2^w] := (Int.mod_modEq x _).of_dvd (pow_dvd_pow 2 hw)
  have total : ((raw+BitVec.ofNat 32 ((a-s).toNat%2^w)).toNat : ℤ) ≡ raw.toNat+(a.toNat-s.toNat)
      [ZMOD 2^w] := by
    rw [BitVec.toNat_add,BitVec.toNat_ofNat,Nat.add_mod_mod]
    push_cast
    exact (cut _).trans (((Int.mod_modEq _ _).trans (sub_residue hw a s)).add_left _)
  push_cast
  refine ((Int.mod_modEq _ _).trans total).add_right _ |>.trans ?_
  rw [show (raw.toNat:ℤ)+(a.toNat-s.toNat)+s.toNat=raw.toNat+a.toNat by ring]

/-- A row of the matrix times a vector. -/
def dot (row : List Byte) (x : List ℤ) : ℤ := (row.zipWith (fun a b => a.toInt*b) x).sum

/-- The matrix times each of the vectors. -/
def product (weights : List Byte) (columns : ℕ) (x : List (List ℤ)) : List ℤ :=
  x.flatMap fun x => (chunksExact columns weights).map (dot · x)

lemma dot_sub (row : List Byte) {x r : List ℤ} (same : x.length=r.length) :
    dot row (x.zipWith (· - ·) r) = dot row x-dot row r := by
  induction row generalizing x r with
  | nil => simp [dot]
  | cons a row ih =>
    cases x with
    | nil => cases r with
      | nil => simp [dot]
      | cons => simp at same
    | cons b x => cases r with
      | nil => simp at same
      | cons c r =>
        have tail := ih (Nat.succ_injective same)
        simp only [dot,zipWith_cons_cons,sum_cons] at tail ⊢
        rw [tail]
        ring

lemma abs_dot_le (row : List Byte) (hx : ∀ v∈x, |v| ≤ m) :
    |dot row x| ≤ (row.map fun a => a.toInt.natAbs).sum * (m:ℤ) := by
  induction row generalizing x with
  | nil => simp [dot]
  | cons a row ih =>
    cases x with
    | nil =>
      rw [show dot (a::row) []=0 from rfl,abs_zero]
      positivity
    | cons b x =>
      have tail := ih fun v hv => hx v (mem_cons_of_mem _ hv)
      have head : |a.toInt*b| ≤ a.toInt.natAbs * (m:ℤ) := by
        rw [abs_mul,Int.abs_eq_natAbs a.toInt]
        exact mul_le_mul_of_nonneg_left (hx b mem_cons_self) (by positivity)
      have split := abs_add_le (a.toInt*b) (dot row x)
      rw [map_cons,sum_cons,Nat.cast_add,add_mul]
      exact split.trans (add_le_add head tail)

/-- The width of a row has room for the sign of its sums. -/
lemma abs_dot_lt {row : List Byte} (hw : rowBits row m = .ok w)
    (hx : ∀ v∈x, |v| ≤ m) : |dot row x| < 2^(w-1) := by
  rw [rowBits,ite_error_eq_ok] at hw
  obtain ⟨-,rfl⟩ : _ ∧ _ := by simpa using hw
  have room := Nat.lt_size_self ((row.map fun a => a.toInt.natAbs).sum * m)
  exact (abs_dot_le row hx).trans_lt (by exact_mod_cast room)

lemma product_sub (weights : List Byte) (columns : ℕ) {x r : List (List ℤ)} (same : Forall₂
    (fun x r => x.length=r.length) x r) : product weights columns (x.zipWith (zipWith (· - ·)) r) =
    (product weights columns x).zipWith (· - ·) (product weights columns r) := by
  induction same with
  | nil => rfl
  | cons h _ ih =>
    simp only [product,zipWith_cons_cons,flatMap_cons] at ih ⊢
    rw [zipWith_append (by simp),ih,zipWith_map_left,zipWith_map_right,zipWith_self]
    simp [dot_sub _ h]

lemma product_small {weights : List Byte} {columns m : ℕ} {widths : List ℕ}
    {x : List (List ℤ)} (hw : rowResidueBits weights columns m = .ok widths) (hx : ∀ v∈x, ∀ a∈v, |a| ≤ m) :
    Forall₂ (fun y w => |y| < 2^(w-1)) (product weights columns x) (cycled widths x.length) := by
  rw [rowResidueBits,ite_error_eq_ok,mapM_eq_ok] at hw
  induction x with
  | nil => exact Forall₂.nil
  | cons v x ih =>
    rw [product,flatMap_cons,length_cons,cycled,replicate_succ,flatten_cons]
    refine rel_append ?_ (ih fun v h => hx v (mem_cons_of_mem _ h))
    rw [forall₂_map_left_iff]
    exact hw.2.imp fun _ _ h => abs_dot_lt h (hx v mem_cons_self)

/-- The masked product and the packed correction give the product back. -/
lemma unmask_product {widths : List ℕ} {rows size bits : ℕ} {y r : List ℤ} {s : List Word} (h :
    packedSize widths rows = .ok (size,bits)) (hr : r.length=rows*widths.length) (hs : s.length =
    rows*widths.length) (hy : Forall₂ (fun y w => |y| < 2^(w-1)) y (cycled widths rows)) :
    ∃ correction online, packDifference widths rows (r.map (BitVec.ofInt 32)) s = .ok correction ∧
      addPacked widths rows ((y.zipWith (· - ·) r).map (BitVec.ofInt 32)) correction = .ok online ∧
      unmaskPacked widths rows online s = .ok y := by
  obtain ⟨-,-,hl,hw⟩ := packed_layout h
  have ly := hy.length_eq
  have first : ((r.map (BitVec.ofInt 32)).zipWith (· - ·) s).length=rows*widths.length := by
    simp [hr,hs]
  obtain ⟨correction,hc,vc,rc⟩ := pack_read h first
  have second : (((y.zipWith (· - ·) r).map (BitVec.ofInt 32)).zipWith (fun raw value =>
      raw+BitVec.ofNat 32 value) ((BitReader.mk correction 0).readEach (cycled widths rows))).length =
        rows*widths.length := by
    simp [rc,hr,hs,ly,hl]
  obtain ⟨online,ho,vo,ro⟩ := pack_read h second
  refine ⟨correction,online,?_,?_,?_⟩
  · simp only [packDifference,h,ok_bind]
    rw [if_neg (by simp [hr,hs]),hc]
  · simp only [addPacked,h,ok_bind,vc]
    rw [if_neg (by simp [hr,ly,hl]),ho]
  · simp only [unmaskPacked,h,ok_bind,vo]
    rw [if_neg (by simp [hs]),ro,rc]
    refine congrArg Except.ok (ext_getElem (by simp [hr,hs,ly,hl]) fun i hi hj => ?_)
    simp only [getElem_zipWith,getElem_map]
    obtain ⟨one,top⟩ := hw _ (getElem_mem (ly ▸ hj))
    have small : |y[i]| < 2^((cycled widths rows)[i]-1) := hy.get hj (ly ▸ hj)
    have sum := (residue_ofInt top (y[i]-r[i])).add (residue_ofInt top r[i])
    rw [sub_add_cancel] at sum
    rw [centered_eq one ((unmask_residue top _ _ _).trans sum)]
    have half : 2^(cycled widths rows)[i]=2*2^((cycled widths rows)[i]-1) := by
      rw [← Nat.pow_succ',Nat.succ_eq_add_one,Nat.sub_add_cancel one]
    obtain ⟨low,high⟩ := abs_lt.mp small
    apply Int.bmod_eq_of_le_mul_two <;> rw [half] <;> push_cast <;> linarith

section
variable {widths : List ℕ} {rows size bits : ℕ} (h : packedSize widths rows = .ok (size,bits))
include h

lemma pack_length {data : List Byte}
    (hp : packRowResidues values widths rows = .ok data) : values.length=rows*widths.length := by
  rw [packRowResidues,h,ok_bind,ite_error_eq_ok] at hp
  exact not_not.mp hp.1

/-- Two packed shares give the signed residues of their sums. -/
lemma reconstruct_packed {a b : List Word} {pa pb : List Byte}
    (ha : packRowResidues a widths rows = .ok pa) (hb : packRowResidues b widths rows = .ok pb) :
    reconstructRows widths rows pa pb = .ok ((a.zipWith (fun x y => (x.toNat:ℤ)+y.toNat) b).zipWith
    (fun n w => Int.bmod n (2^w)) (cycled widths rows)) := by
  obtain ⟨-,-,hl,hw⟩ := packed_layout h
  have la := pack_length h ha
  have lb := pack_length h hb
  obtain ⟨_,ea,va,ra⟩ := pack_read h la
  obtain ⟨_,eb,vb,rb⟩ := pack_read h lb
  cases ha.symm.trans ea
  cases hb.symm.trans eb
  simp only [reconstructRows,h,ok_bind,va,vb,ra,rb]
  refine congrArg Except.ok (ext_getElem (by simp) fun i hi hj => ?_)
  simp only [getElem_zipWith]
  have one : i<(cycled widths rows).length := by
    rw [length_zipWith] at hj
    omega
  refine centered_eq (hw _ (getElem_mem one)).1 ?_
  push_cast
  exact (Int.mod_modEq _ _).add (Int.mod_modEq _ _)

/-- Masked products come back exactly, packed words and shares by residues, and only canonical
strings are decoded. -/
theorem offset_transport :
    (∀ (weights : List Byte) (columns maxInput : ℕ) (x r : List (List ℤ)) (s : List Word),
      rowResidueBits weights columns maxInput = .ok widths → x.length=rows →
      (∀ v∈x, v.length=columns ∧ ∀ a∈v, |a| ≤ maxInput) → r.length=rows →
      (∀ v∈r, v.length=columns) → s.length=rows*widths.length →
      ∃ correction online,
        packDifference widths rows ((product weights columns r).map (BitVec.ofInt 32)) s =
          .ok correction ∧
        addPacked widths rows ((product weights columns (x.zipWith (zipWith (· - ·)) r)).map
          (BitVec.ofInt 32)) correction = .ok online ∧
        unmaskPacked widths rows online s = .ok (product weights columns x)) ∧
    (∀ values : List Word, values.length=rows*widths.length → ∃ data,
      packRowResidues values widths rows = .ok data ∧ unpackRows widths rows data = .ok
        (values.zipWith (fun v w => BitVec.ofNat 32 (v.toNat%2^w)) (cycled widths rows))) ∧
    (∀ a b pa pb, packRowResidues a widths rows = .ok pa → packRowResidues b widths rows = .ok pb →
      reconstructRows widths rows pa pb = .ok
        ((a.zipWith (fun x y => (x.toNat:ℤ)+y.toNat) b).zipWith (fun n w => Int.bmod n (2^w))
          (cycled widths rows))) ∧
    ∀ payload, (∃ values, unpackRows widths rows payload = .ok values) ↔ payload.length=bits ⌈/⌉ 8 ∧
        ∀ k, bits≤k → k<8*payload.length → (payload.getD (k/8) 0).getLsbD (k%8)=false := by
  refine ⟨fun weights columns m x r s hw hx inputs hr masks hs => ?_,fun values hv => ?_,
    fun a b pa pb ha hb => reconstruct_packed h ha hb,unpack_accepts h⟩
  · have same : Forall₂ (fun x r => x.length=r.length) x r := by
      refine forall₂_iff_get.mpr ⟨hx.trans hr.symm,fun i hi hj => ?_⟩
      exact (inputs _ (getElem_mem hi)).1.trans (masks _ (getElem_mem hj)).symm
    rw [product_sub weights columns same]
    have small := product_small hw fun v hv => (inputs v hv).2
    rw [hx] at small
    rw [rowResidueBits,ite_error_eq_ok,mapM_eq_ok] at hw
    exact unmask_product h (by simp [product,length_flatMap,hr,hw.2.length_eq]) hs small
  · obtain ⟨data,hd,valid,read⟩ := pack_read h hv
    refine ⟨data,hd,?_⟩
    simp only [unpackRows,h,ok_bind,valid,read,map_zipWith]
    rfl

end

/-- Two rows of two values in eight and seven bits, through masks. -/
theorem offset_transport_at : rowResidueBits [2,1,0xff,0] 2 42 = .ok [8,7] ∧ ∃ correction online,
    packDifference [8,7] 2 ((product [2,1,0xff,0] 2 [[5,6],[1,-7]]).map (BitVec.ofInt 32))
    [1000,1001,1002,1003] = .ok correction ∧ addPacked [8,7] 2
    ((product [2,1,0xff,0] 2 [[36,-47],[-41,48]]).map (BitVec.ofInt 32)) correction = .ok online ∧
    unmaskPacked [8,7] 2 online [1000,1001,1002,1003] = .ok [41,-41,-39,40] := by
  have h : packedSize [8,7] 2 = .ok (4,30) := rfl
  have widths : rowResidueBits [2,1,0xff,0] 2 42 = .ok [8,7] := by rfl
  exact ⟨widths,(offset_transport h).1 [2,1,0xff,0] 2 42 [[41,-41],[-40,41]] [[5,6],[1,-7]]
    [1000,1001,1002,1003] widths rfl (by decide) rfl (by decide) rfl⟩

end Pllm.OffsetTransport
