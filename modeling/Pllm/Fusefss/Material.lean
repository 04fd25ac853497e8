import Pllm.Fusefss.PredicatesWireCorrect

/-! The material of a comparison key over each of its wire words: the writer, the import, and the
scan in front of it. The bytes the scan accepts are those the writer gives. -/
namespace Pllm.Fusefss.Predicates.Material
open Pllm.Lib Reader Fss.Word Fss.CompactDcf RingComparison
open List (append_assoc append_nil flatMap_cons length_append length_cons)
open Pllm.Fss (Aes)
open Pllm.Fss.CompactDcf (Key Correction RingComparison VectorComparison Sizes)

/-- A word of a key on the wire. -/
class WireWord (W : Type) where
  size : ℕ
  write : W → List Byte
  read : ℕ → List Byte → Except Error (W × List Byte)

instance : WireWord (BitVec 64) where
  size := 8
  write := leBytes 8
  read := Reader.word

instance : WireWord (BitVec 64 × BitVec 64) where
  size := 16
  write value := leBytes 8 value.1++leBytes 8 value.2
  read bits input := do
    let (first,input) ← Reader.word bits input
    let (second,input) ← Reader.word bits input
    return ((first,second),input)

/-- `reserved` is the capacity the allocator gives, or `none` where it has no room. -/
def allocate (capacity : ℕ) (reserved : Option ℕ) : Except Error Unit :=
  match reserved with
  | none => .error .allocation
  | some given => if given≠capacity then .error .resource else .ok ()

section
variable {W : Type} [WireWord W]

def writeCorrection (c : Correction W) : List Byte :=
  leBytes 16 c.seed++(WireWord.write c.value++[bitByte c.control.1,bitByte c.control.2])

def writeMaterial (key : Key W) : List Byte :=
  leBytes 16 key.root++(WireWord.write key.finalWord++key.words.flatMap writeCorrection)

variable (W) in
def scanCorrection (outputBits : ℕ) (input : List Byte) : Except Error (Unit × List Byte) := do
  let (_,input) ← Reader.take 16 input
  let ((_ : W),input) ← WireWord.read outputBits input
  let (control,input) ← Reader.take 2 input
  if control.any fun b => decide (b>1) then .error .context else return ((),input)

variable (W) in
def scan (inputBits outputBits : ℕ) (input : List Byte) : Except Error (Unit × List Byte) := do
  let (_,input) ← Reader.take 16 input
  let ((_ : W),input) ← WireWord.read outputBits input
  let (_,input) ← Reader.many (scanCorrection W outputBits) inputBits input
  return ((),input)

variable (W) in
def validateMaterial (bytes : List Byte) (inputBits outputBits : ℕ) : Except Error Unit := do
  (RingComparison.validate inputBits outputBits).mapError fun _ => Error.domain
  if bytes.length ≠ 16+WireWord.size W+inputBits*(18+WireWord.size W) then .error .context
  else do
    let (_,reader) ← scan W inputBits outputBits bytes
    Reader.finish reader

/-- The second reading; the scan has checked the control bytes. -/
def readCorrection (outputBits : ℕ) (input : List Byte) :
    Except Error (Correction W × List Byte) := do
  let (seed,input) ← Reader.take 16 input
  let (value,input) ← WireWord.read outputBits input
  let (control,input) ← Reader.take 2 input
  return (⟨ofLeBytes 128 seed,value,(control.getD 0 0==1,control.getD 1 0==1)⟩,input)

def readMaterial (bytes : List Byte) (inputBits outputBits : ℕ) (reserved : Option ℕ) :
    Except Error (Key W) := do
  validateMaterial W bytes inputBits outputBits
  allocate inputBits reserved
  let (root,reader) ← Reader.take 16 bytes
  let (finalWord,reader) ← WireWord.read outputBits reader
  let (words,_) ← Reader.many (readCorrection outputBits) inputBits reader
  return ⟨ofLeBytes 128 root,words,finalWord⟩

end

def ringRead (bytes : List Byte) (inputBits outputBits : ℕ) (reserved : Option ℕ) :
    Except Error RingComparison := do
  let key ← readMaterial bytes inputBits outputBits reserved
  return ⟨key,inputBits,outputBits⟩

def vectorRead (bytes : List Byte) (inputBits outputBits : ℕ) (reserved : Option ℕ) :
    Except Error VectorComparison := do
  let key ← readMaterial bytes inputBits outputBits reserved
  return ⟨key,inputBits,outputBits⟩

lemma take_eq_ok {n : ℕ} {input a rest : List Byte} :
    take n input = .ok (a,rest) ↔ a.length=n ∧ input = a++rest := by
  constructor
  · intro h
    rw [take,ite_error_eq_ok] at h
    obtain ⟨hlen,h⟩ := h
    obtain ⟨rfl,rfl⟩ := Prod.mk.inj (ok_inj h)
    exact ⟨by rw [List.length_take]; omega,(List.take_append_drop n input).symm⟩
  · rintro ⟨ha,rfl⟩
    exact take_append ha

lemma word_eq_ok {bits : ℕ} (hbits : 1≤bits ∧ bits≤50) {v : BitVec 64} {input rest : List Byte} :
    word bits input = .ok (v,rest) ↔ v.toNat<2^bits ∧ input = leBytes 8 v++rest := by
  constructor
  · intro h
    rw [word,bind_eq_ok] at h
    obtain ⟨⟨bytes,input'⟩,htake,h⟩ := h
    obtain ⟨hlen,rfl⟩ := take_eq_ok.mp htake
    simp only [ite_error_eq_ok] at h
    obtain ⟨hgrd,h⟩ := h
    obtain ⟨rfl,rfl⟩ := Prod.mk.inj (ok_inj h)
    exact ⟨by omega,by rw [leBytes_ofLeBytes (n := 8) hlen le_rfl]⟩
  · rintro ⟨hv,rfl⟩
    exact word_leBytes rest hbits hv

/-- What a codec of words owes: values of so many bits are what it reads back. -/
structure LawfulWire (W : Type) [WireWord W] (bits : ℕ) (Reduced : W → Prop) : Prop where
  length_write : ∀ v : W, (WireWord.write v).length = WireWord.size W
  read_eq_ok : ∀ {v : W} {input rest : List Byte},
    WireWord.read bits input = .ok (v,rest) ↔ Reduced v ∧ input = WireWord.write v++rest

lemma LawfulWire.read_write {W : Type} [WireWord W] {bits : ℕ} {Reduced : W → Prop}
    (hw : LawfulWire W bits Reduced) {v : W} (hv : Reduced v) (rest : List Byte) :
    WireWord.read bits (WireWord.write v++rest) = .ok (v,rest) := hw.read_eq_ok.mpr ⟨hv,rfl⟩

section
variable {bits : ℕ}

lemma lawful_word (hbits : 1≤bits ∧ bits≤50) :
    LawfulWire (BitVec 64) bits fun v => v.toNat<2^bits :=
  ⟨fun v => length_leBytes 8 v,word_eq_ok hbits⟩

lemma lawful_words (hbits : 1≤bits ∧ bits≤50) :
    LawfulWire (BitVec 64 × BitVec 64) bits fun v => v.1.toNat<2^bits ∧ v.2.toNat<2^bits := by
  refine ⟨fun v => ?_,@fun v input rest => ⟨fun h => ?_,?_⟩⟩
  · simp only [WireWord.write,WireWord.size,length_append,length_leBytes]
  · simp only [WireWord.read,bind_eq_ok] at h
    obtain ⟨⟨first,input'⟩,hfst,⟨second,input''⟩,hsnd,h⟩ := h
    obtain ⟨rfl,rfl⟩ := Prod.mk.inj (ok_inj h)
    obtain ⟨hf,rfl⟩ := (word_eq_ok hbits).mp hfst
    obtain ⟨hs,rfl⟩ := (word_eq_ok hbits).mp hsnd
    exact ⟨⟨hf,hs⟩,by simp only [WireWord.write,append_assoc]⟩
  · rintro ⟨⟨hf,hs⟩,rfl⟩
    simp only [WireWord.read,WireWord.write,append_assoc,word_leBytes _ hbits hf,
      word_leBytes _ hbits hs,ok_bind,pure_eq_ok]

end

lemma exists_bitBytes {control : List Byte} (hlen : control.length=2)
    (h : ¬(control.any fun b => decide (b>1))=true) :
    ∃ left right, control = [bitByte left,bitByte right] := by
  have hbit : ∀ b : Byte, ¬b>1 → b=bitByte (b==1) := by decide
  obtain ⟨left,right,rfl⟩ := List.length_eq_two.mp hlen
  simp only [List.any_cons,List.any_nil,Bool.or_false,Bool.or_eq_true,decide_eq_true_eq,
    not_or] at h
  exact ⟨left==1,right==1,by rw [← hbit left h.1,← hbit right h.2]⟩

lemma any_bitBytes (left right : Bool) :
    ([bitByte left,bitByte right].any fun b => decide (b>1))=false := by
  cases left <;> cases right <;> rfl

lemma bitByte_beq_one (b : Bool) : (bitByte b==1)=b := by
  cases b <;> rfl

section
variable {W : Type} [WireWord W] {bits : ℕ} {Reduced : W → Prop}

/-- The words of a key are reduced. -/
structure Canonical (Reduced : W → Prop) (inputBits : ℕ) (key : Key W) : Prop where
  length : key.words.length=inputBits
  finalWord : Reduced key.finalWord
  words : ∀ c∈key.words, Reduced c.value

section
variable {u : Unit} {input rest bytes : List Byte} {inputBits outputBits : ℕ} {reserved : Option ℕ}

section
variable (hw : LawfulWire W bits Reduced)
include hw

lemma scanCorrection_eq_ok : scanCorrection W bits input = .ok (u,rest) ↔
      ∃ c : Correction W, Reduced c.value ∧ input = writeCorrection c++rest := by
  constructor
  · intro h
    simp only [scanCorrection,bind_eq_ok] at h
    obtain ⟨⟨seed,i₁⟩,hseed,⟨value,i₂⟩,hval,⟨control,i₃⟩,hcon,h⟩ := h
    obtain ⟨hlen,rfl⟩ := take_eq_ok.mp hseed
    obtain ⟨hred,rfl⟩ := hw.read_eq_ok.mp hval
    obtain ⟨htwo,rfl⟩ := take_eq_ok.mp hcon
    rw [ite_error_eq_ok] at h
    obtain ⟨hany,h⟩ := h
    obtain ⟨left,right,rfl⟩ := exists_bitBytes htwo hany
    obtain ⟨-,rfl⟩ := Prod.mk.inj (ok_inj h)
    exact ⟨⟨ofLeBytes 128 seed,value,(left,right)⟩,hred,by
      simp only [writeCorrection,leBytes_ofLeBytes (n := 16) hlen le_rfl,append_assoc]⟩
  · rintro ⟨c,hc,rfl⟩
    have hcon := @take_append 2 [bitByte c.control.1,bitByte c.control.2] rest rfl
    have hval := hw.read_write hc
    simp only [scanCorrection,writeCorrection,append_assoc,
      take_append (length_leBytes ..),ok_bind,hval]
    rw [hcon]
    simp only [ok_bind,any_bitBytes,Bool.false_eq_true,if_false,pure_eq_ok]

lemma readCorrection_write {c : Correction W} (hc : Reduced c.value) (rest : List Byte) :
    readCorrection bits (writeCorrection c++rest) = .ok (c,rest) := by
  have hcon := @take_append 2 [bitByte c.control.1,bitByte c.control.2] rest rfl
  have hval := hw.read_write hc
  simp only [readCorrection,writeCorrection,append_assoc,
    take_append (length_leBytes ..),ok_bind,hval]
  rw [hcon]
  simp only [ok_bind,pure_eq_ok,ofLeBytes_leBytes c.seed (show 128 ≤ 8*16 by decide),
    List.getD_cons_zero,List.getD_cons_succ,bitByte_beq_one]

lemma many_scanCorrection {n : ℕ} {us : List Unit} (h : many (scanCorrection W bits) n input =
    .ok (us,rest)) : ∃ words : List (Correction W), words.length=n ∧
    (∀ c∈words, Reduced c.value) ∧ input = words.flatMap writeCorrection++rest := by
  induction n generalizing us input with
  | zero =>
    obtain ⟨-,rfl⟩ := Prod.mk.inj (ok_inj h)
    exact ⟨[],rfl,nofun,rfl⟩
  | succ n ih =>
    simp only [many,bind_eq_ok] at h
    obtain ⟨⟨u,i₁⟩,hone,⟨us',i₂⟩,hmore,h⟩ := h
    obtain ⟨-,rfl⟩ := Prod.mk.inj (ok_inj h)
    obtain ⟨c,hc,rfl⟩ := (scanCorrection_eq_ok hw).mp hone
    obtain ⟨words,hlen,hwds,rfl⟩ := ih hmore
    exact ⟨c::words,by rw [length_cons,hlen],List.forall_mem_cons.mpr ⟨hc,hwds⟩,by
      rw [flatMap_cons,append_assoc]⟩

lemma many_scanCorrection_write {words : List (Correction W)}
    (hwds : ∀ c∈words, Reduced c.value) (rest : List Byte) : ∃ us, many
    (scanCorrection W bits) words.length (words.flatMap writeCorrection++rest) = .ok (us,rest) := by
  induction words with
  | nil => exact ⟨[],rfl⟩
  | cons c words ih =>
    obtain ⟨hc,hwds⟩ := List.forall_mem_cons.mp hwds
    obtain ⟨us,hmore⟩ := ih hwds
    have hone : scanCorrection W bits (writeCorrection c++(words.flatMap writeCorrection++rest))
        = .ok ((),words.flatMap writeCorrection++rest) :=
      (scanCorrection_eq_ok hw).mpr ⟨c,hc,rfl⟩
    exact ⟨()::us,by simp only [flatMap_cons,append_assoc,length_cons,
      many,hone,ok_bind,hmore,pure_eq_ok]⟩

lemma scan_eq_ok : scan W inputBits bits input = .ok (u,rest) ↔
      ∃ key : Key W, Canonical Reduced inputBits key ∧ input = writeMaterial key++rest := by
  constructor
  · intro h
    simp only [scan,bind_eq_ok] at h
    obtain ⟨⟨root,i₁⟩,hroot,⟨finalWord,i₂⟩,hfin,⟨us,i₃⟩,hmany,h⟩ := h
    obtain ⟨-,rfl⟩ := Prod.mk.inj (ok_inj h)
    obtain ⟨hlen,rfl⟩ := take_eq_ok.mp hroot
    obtain ⟨hred,rfl⟩ := hw.read_eq_ok.mp hfin
    obtain ⟨words,hn,hwds,rfl⟩ := many_scanCorrection hw hmany
    exact ⟨⟨ofLeBytes 128 root,words,finalWord⟩,⟨hn,hred,hwds⟩,by
      simp only [writeMaterial,leBytes_ofLeBytes (n := 16) hlen le_rfl,append_assoc]⟩
  · rintro ⟨key,hkey,rfl⟩
    obtain ⟨us,hmany⟩ := many_scanCorrection_write hw hkey.words rest
    rw [hkey.length] at hmany
    have hval := hw.read_write hkey.finalWord
    simp only [scan,writeMaterial,append_assoc,take_append (length_leBytes ..),
      ok_bind,hval,hmany,pure_eq_ok]

lemma length_writeMaterial (key : Key W) :
    (writeMaterial key).length = 16+WireWord.size W+key.words.length*(18+WireWord.size W) := by
  have hwds : (key.words.flatMap writeCorrection).length
      = key.words.length*(18+WireWord.size W) := by
    induction key.words with
    | nil => exact (zero_mul _).symm
    | cons c words ih =>
      rw [flatMap_cons,length_append,length_cons,Nat.succ_mul]
      simp only [writeCorrection,length_append,length_leBytes,hw.length_write,
        length_cons,List.length_nil]
      omega
  rw [writeMaterial,length_append,length_append,length_leBytes,hw.length_write,hwds]
  omega

end

lemma finish_eq_ok : finish input = .ok () ↔ input = [] := by
  rw [finish,ite_error_eq_ok,not_not,List.length_eq_zero_iff]
  exact ⟨And.left,fun h => ⟨h,rfl⟩⟩

lemma mapError_validate_eq_ok : (validate inputBits outputBits).mapError (fun _ => Error.domain) =
    .ok u ↔ (1 ≤ inputBits ∧ inputBits≤50) ∧ 1≤outputBits ∧ outputBits≤50 := by
  rw [validate]
  split
  · next h =>
    refine ⟨fun refused => ?_,fun hd => absurd hd (by omega)⟩
    cases refused
  · next h =>
    exact ⟨fun _ => by omega,fun _ => rfl⟩

/-- The scan accepts the canonical material of the declared shape, and nothing else. -/
lemma validateMaterial_eq_ok {Reduced : W → Prop}
    (hw : 1≤outputBits ∧ outputBits≤50 → LawfulWire W outputBits Reduced) : validateMaterial W bytes
    inputBits outputBits = .ok () ↔ ((1 ≤ inputBits ∧ inputBits≤50) ∧ 1≤outputBits ∧ outputBits≤50)
    ∧ ∃ key : Key W, Canonical Reduced inputBits key ∧ bytes = writeMaterial key := by
  simp only [validateMaterial,bind_eq_ok,mapError_validate_eq_ok,ite_error_eq_ok,finish_eq_ok,
    not_not]
  constructor
  · rintro ⟨⟨⟩,hd,-,⟨u,rest⟩,hscan,hrest⟩
    obtain ⟨key,hkey,rfl⟩ := (scan_eq_ok (hw hd.2)).mp hscan
    obtain rfl : rest=[] := hrest
    exact ⟨hd,key,hkey,append_nil _⟩
  · rintro ⟨hd,key,hkey,rfl⟩
    refine ⟨(),hd,?_,((),[]),(scan_eq_ok (hw hd.2)).mpr ⟨key,hkey,(append_nil _).symm⟩,rfl⟩
    rw [length_writeMaterial (hw hd.2),hkey.length]

lemma allocate_eq_ok {capacity : ℕ} :
    allocate capacity reserved = .ok () ↔ reserved = some capacity := by
  cases reserved with
  | none => exact ⟨nofun,nofun⟩
  | some given =>
    simp only [allocate,ite_error_eq_ok,not_not,Option.some.injEq,and_true]

/-- An import succeeds on canonical material alone, and gives the key whose material it is. -/
lemma readMaterial_eq_ok {Reduced : W → Prop} (hw : 1≤outputBits ∧ outputBits≤50 →
    LawfulWire W outputBits Reduced) {key : Key W} : readMaterial bytes inputBits outputBits
    reserved = .ok key ↔ ((1 ≤ inputBits ∧ inputBits≤50) ∧ 1≤outputBits ∧ outputBits≤50) ∧
    reserved = some inputBits ∧ Canonical Reduced inputBits key ∧ bytes = writeMaterial key := by
  have hread : ∀ k : Key W, 1≤outputBits ∧ outputBits≤50 → Canonical Reduced inputBits k →
      validateMaterial W (writeMaterial k) inputBits outputBits = .ok () → allocate inputBits
      reserved = .ok () → readMaterial (writeMaterial k) inputBits outputBits reserved = .ok k := by
    intro k hd hk hvld hroom
    have hval := (hw hd).read_write hk.finalWord
    have hmany := many_flatMap
      (fun c hc rest => readCorrection_write (hw hd) (hk.words c hc) rest) []
    rw [append_nil,hk.length] at hmany
    rw [readMaterial,hvld,hroom]
    simp only [writeMaterial,ok_bind,take_append (length_leBytes ..),hval,hmany,
      pure_eq_ok,ofLeBytes_leBytes k.root (show 128 ≤ 8*16 by decide)]
  constructor
  · intro h
    obtain ⟨⟨⟩,hvld,⟨⟩,hroom,-⟩ := bind₂_eq_ok.mp h
    obtain ⟨hd,k,hk,rfl⟩ := (validateMaterial_eq_ok hw).mp hvld
    obtain rfl := ok_inj ((hread k hd.2 hk hvld hroom).symm.trans h)
    exact ⟨hd,allocate_eq_ok.mp hroom,hk,rfl⟩
  · rintro ⟨hd,hroom,hk,rfl⟩
    exact hread key hd.2 hk ((validateMaterial_eq_ok hw).mpr ⟨hd,key,hk,rfl⟩)
      (allocate_eq_ok.mpr hroom)

end

end

def ReducedWord (bits : ℕ) (v : BitVec 64) : Prop := v.toNat<2^bits

def ReducedWords (bits : ℕ) (v : BitVec 64 × BitVec 64) : Prop :=
  v.1.toNat<2^bits ∧ v.2.toNat<2^bits

section
variable (W : Type) [WireWord W] (Reduced : ℕ → W → Prop)

/-- A key of the declared shape, with every word below its width. -/
structure Declared (inputBits outputBits : ℕ) (key : Key W) : Prop where
  input : 1 ≤ inputBits ∧ inputBits≤50
  output : 1≤outputBits ∧ outputBits≤50
  canonical : Canonical (Reduced outputBits) inputBits key

/-- Writing, the scan and the import agree on which bytes stand for which key. -/
structure MaterialCodec : Prop where
  imports : ∀ inputBits outputBits (key : Key W), Declared W Reduced inputBits outputBits key →
    readMaterial (writeMaterial key) inputBits outputBits (some inputBits) = .ok key
  accepts : ∀ bytes inputBits outputBits, validateMaterial W bytes inputBits outputBits = .ok () ↔
    ∃ key : Key W, Declared W Reduced inputBits outputBits key ∧ bytes = writeMaterial key
  exports : ∀ bytes inputBits outputBits reserved (key : Key W),
    readMaterial bytes inputBits outputBits reserved = .ok key →
      Declared W Reduced inputBits outputBits key ∧ writeMaterial key = bytes

variable {W Reduced}

lemma materialCodec (hw : ∀ bits, 1≤bits ∧ bits≤50 → LawfulWire W bits (Reduced bits)) :
    MaterialCodec W Reduced where
  imports _ outputBits _ h :=
    (readMaterial_eq_ok (hw outputBits)).mpr ⟨⟨h.input,h.output⟩,rfl,h.canonical,rfl⟩
  accepts bytes inputBits outputBits := by
    rw [validateMaterial_eq_ok (hw outputBits)]
    constructor
    · rintro ⟨⟨hin,hout⟩,key,hkey,hbyt⟩
      exact ⟨key,⟨hin,hout,hkey⟩,hbyt⟩
    · rintro ⟨key,hkey,hbyt⟩
      exact ⟨⟨hkey.input,hkey.output⟩,key,hkey.canonical,hbyt⟩
  exports bytes inputBits outputBits reserved key h := by
    obtain ⟨⟨hin,hout⟩,-,hkey,hbyt⟩ := (readMaterial_eq_ok (hw outputBits)).mp h
    exact ⟨⟨hin,hout,hkey⟩,hbyt.symm⟩

end

section
variable {W : Type} [Fss.Word W] {Reduced : W → Prop} {mask : BitVec 64}

variable (aes : Aes) (hsca : ∀ (a : W) v, Reduced (scale a v mask))
include aes hsca

lemma issueLevels_reduced (threshold : BitVec 64) (payload : W) (n : ℕ) (s : Issuing W) :
    ∀ c ∈ (issueLevels aes mask threshold payload n s).1, Reduced c.value := by
  induction n generalizing s with
  | zero => exact fun _ hnil => absurd hnil List.not_mem_nil
  | succ n ih =>
    intro c hc
    rcases List.mem_cons.mp hc with rfl | hc
    · exact hsca _ _
    · exact ih _ c hc

lemma growKeys_canonical [WireWord W]
    (bits : ℕ) (threshold : BitVec 64) (payload : W) (roots : Block × Block) (party : Bool) :
    Canonical Reduced bits (pick (growKeys aes mask bits threshold payload roots) party) := by
  cases party <;>
    exact ⟨length_issueLevels ..,hsca _ _,issueLevels_reduced aes hsca _ _ _ _⟩

end

section
variable {bits : ℕ}

lemma reducedWord_scale (hbits : bits≤64) (a v : BitVec 64) :
    ReducedWord bits (scale a v (lowMask bits)) := toNat_scale_lt a v hbits

lemma reducedWords_scale (hbits : bits≤64) (a : BitVec 64 × BitVec 64) (v : BitVec 64) :
    ReducedWords bits (scale a v (lowMask bits)) := by
  have hlt : ∀ x : BitVec 64, (x &&& lowMask bits).toNat < 2^bits := fun x => by
    rw [toNat_and_lowMask x hbits]
    exact Nat.mod_lt _ (Nat.two_pow_pos bits)
  exact ⟨hlt (a.1*v),hlt (a.2*v)⟩

end

section
variable (aes : Aes) (sizes : Sizes)

/-- The scalar keys of the program: issued for a threshold, issued with a split of a drawn one, or
read back from material. -/
inductive RingBuilt : RingComparison → Prop
  | issued {inputBits outputBits limit threshold payload roots keys}
      (h : RingComparison.issueWith aes sizes inputBits outputBits threshold payload limit roots
        = .ok keys) (party : Bool) : RingBuilt (pick keys party)
  | split {inputBits outputBits limit drawn roots keys shares}
      (h : RingComparison.issueUniformSplit aes sizes inputBits outputBits limit drawn roots
        = .ok (keys,shares)) (party : Bool) : RingBuilt (pick keys party)
  | imported {bytes inputBits outputBits reserved self}
      (h : ringRead bytes inputBits outputBits reserved = .ok self) : RingBuilt self

/-- The keys for two payloads at once. -/
inductive VectorBuilt : VectorComparison → Prop
  | issued {inputBits outputBits limit threshold payload roots keys}
      (h : VectorComparison.issueWith aes sizes inputBits outputBits threshold payload limit roots
        = .ok keys) (party : Bool) : VectorBuilt (pick keys party)
  | imported {bytes inputBits outputBits reserved self}
      (h : vectorRead bytes inputBits outputBits reserved = .ok self) : VectorBuilt self

variable {aes sizes}

lemma ringCodec : MaterialCodec (BitVec 64) ReducedWord := materialCodec fun _ => lawful_word

lemma vectorCodec : MaterialCodec (BitVec 64 × BitVec 64) ReducedWords :=
  materialCodec fun _ => lawful_words

lemma validate_eq_ok {inputBits outputBits : ℕ} {u : Unit} (h : validate inputBits
    outputBits = .ok u) : (1 ≤ inputBits ∧ inputBits≤50) ∧ 1≤outputBits ∧ outputBits≤50 := by
  rw [validate,ite_error_eq_ok] at h
  omega

lemma RingBuilt.declared {self : RingComparison} (h : RingBuilt aes sizes self) :
    Declared (BitVec 64) ReducedWord self.inputBits self.outputBits self.key := by
  cases h with
  | issued h party =>
    simp only [issueWith,RingComparison.resources,generate,
      bind_eq_ok,ite_error_eq_ok,pure_eq_ok,ok_eq_ok] at h
    obtain ⟨-,⟨_,hvld,-⟩,-,-,-,⟨-,rfl⟩,rfl⟩ := h
    obtain ⟨hin,hout⟩ := validate_eq_ok hvld
    have hsca := @reducedWord_scale _ (hout.2.trans (by decide))
    cases party
    · exact ⟨hin,hout,growKeys_canonical aes hsca _ _ _ _ false⟩
    · exact ⟨hin,hout,growKeys_canonical aes hsca _ _ _ _ true⟩
  | split h party =>
    simp only [issueUniformSplit,generate,bind_eq_ok,
      ite_error_eq_ok,pure_eq_ok,ok_eq_ok,Prod.mk.injEq] at h
    obtain ⟨_,hvld,-,⟨-,rfl⟩,rfl,-⟩ := h
    obtain ⟨hin,hout⟩ := validate_eq_ok hvld
    have hsca := @reducedWord_scale _ (hout.2.trans (by decide))
    cases party
    · exact ⟨hin,hout,growKeys_canonical aes hsca _ _ _ _ false⟩
    · exact ⟨hin,hout,growKeys_canonical aes hsca _ _ _ _ true⟩
  | imported h =>
    obtain ⟨key,hkey,h⟩ := bind_eq_ok.mp h
    obtain rfl := ok_inj h
    exact (ringCodec.exports _ _ _ _ _ hkey).1

lemma VectorBuilt.declared {self : VectorComparison} (h : VectorBuilt aes sizes self) :
    Declared (BitVec 64 × BitVec 64) ReducedWords self.inputBits self.outputBits self.key := by
  cases h with
  | issued h party =>
    simp only [VectorComparison.issueWith,VectorComparison.resources,generate,
      bind_eq_ok,ite_error_eq_ok,pure_eq_ok,ok_eq_ok] at h
    obtain ⟨-,⟨_,hvld,-⟩,-,-,-,⟨-,rfl⟩,rfl⟩ := h
    obtain ⟨hin,hout⟩ := validate_eq_ok hvld
    have hsca := @reducedWords_scale _ (hout.2.trans (by decide))
    cases party
    · exact ⟨hin,hout,growKeys_canonical aes hsca _ _ _ _ false⟩
    · exact ⟨hin,hout,growKeys_canonical aes hsca _ _ _ _ true⟩
  | imported h =>
    obtain ⟨key,hkey,h⟩ := bind_eq_ok.mp h
    obtain rfl := ok_inj h
    exact (vectorCodec.exports _ _ _ _ _ hkey).1

end

/-- The codec is exact over both words. Every key of the program has a declared shape, so the key
its export brings back evaluates as it does. -/
theorem dcf_material_codec (aes : Aes) (sizes : Sizes) :
    MaterialCodec (BitVec 64) ReducedWord ∧ MaterialCodec (BitVec 64 × BitVec 64) ReducedWords ∧
    (∀ self, RingBuilt aes sizes self →
      Declared (BitVec 64) ReducedWord self.inputBits self.outputBits self.key ∧
      ∃ imported, ringRead (writeMaterial self.key) self.inputBits self.outputBits
          (some self.inputBits) = .ok imported ∧
        ∀ party input, imported.eval aes party input = self.eval aes party input) ∧
    ∀ self, VectorBuilt aes sizes self →
      Declared (BitVec 64 × BitVec 64) ReducedWords self.inputBits self.outputBits self.key ∧
      ∃ imported, vectorRead (writeMaterial self.key) self.inputBits self.outputBits
          (some self.inputBits) = .ok imported ∧
        ∀ party input, imported.eval aes party input = self.eval aes party input := by
  refine ⟨ringCodec,vectorCodec,fun self h => ⟨h.declared,self,?_,fun _ _ => rfl⟩,
    fun self h => ⟨h.declared,self,?_,fun _ _ => rfl⟩⟩
  · rw [ringRead,ringCodec.imports _ _ _ h.declared]
    rfl
  · rw [vectorRead,vectorCodec.imports _ _ _ h.declared]
    rfl

end Pllm.Fusefss.Predicates.Material
