import Pllm.Runtime.OffsetTransport

/-! Words in a whole number of bytes, and the masks of a linear layer in a ring of words or modulo a
number. -/
namespace Pllm.Codec
open List Pllm.Lib

abbrev Word := BitVec 32

def pack (values : List Word) (width : ℕ) : Except String (List Byte) :=
  if ¬(2≤width ∧ width≤4) then .error "wire width must be 2, 3, or 4"
  else
    let limit := 1<<<(8*width)
    if ∃ v∈values, v.toNat≥limit then .error "value exceeds wire width"
    else if values.length*width≥2^64 then .error "wire size overflow"
    else .ok (values.flatMap (leBytes width))

def unpack (bytes : List Byte) (width : ℕ) : Except String (List Word) :=
  if ¬(2≤width ∧ width≤4) ∨ bytes.length%width≠0 then
    .error "invalid wire width or truncated payload"
  else .ok ((chunksExact width bytes).map (ofLeBytes 32))

def modulus (p : ℕ) : Except String Unit :=
  if ¬(2≤p ∧ p≤1<<<32) then .error "modulus must be in [2,2^32]" else .ok ()

/-- `u32::MAX >> (32 - bits)` -/
def ringMask (bits : ℕ) : Word := BitVec.allOnes 32>>>(32-bits)

def preparedMaskInput (x r : List Byte) (bits : ℕ) : Except String (List Byte) :=
  if ¬(bits=16 ∨ bits=24 ∨ bits=32) ∨ x.length>4000000 ∨ r.length≠x.length*4 then
    .error "invalid prepared input mask shape or ring"
  else do
    let output ← (x.zip (chunksExact 4 r)).mapM fun (value,r) =>
      let r := ofLeBytes 32 r
      if r>ringMask bits then .error "prepared input mask is outside its ring"
      else .ok (leBytes 4 ((value.signExtend 32-r) &&& ringMask bits))
    return output.flatten

def preparedCenterOutput (y s : List Byte) (bits : ℕ) : Except String (List Byte) :=
  if ¬(bits=16 ∨ bits=24 ∨ bits=32) ∨ y.length%4≠0 ∨ y.length>16000000
      ∨ s.length≠y.length then
    .error "invalid prepared output mask shape or ring"
  else do
    let shift := 32-bits
    let output ← ((chunksExact 4 y).zip (chunksExact 4 s)).mapM fun (y,s) =>
      let y := ofLeBytes 32 y
      let s := ofLeBytes 32 s
      if y>ringMask bits ∨ s>ringMask bits then
        .error "prepared output residue is outside its ring"
      else .ok (leBytes 8 ((((y+s)<<<shift).sshiftRight shift).signExtend 64))
    return output.flatten

def mask (x : List Byte) (r : List Word) (p : ℕ) : Except String (List Word) := do
  modulus p
  if x.length≠r.length ∨ (∃ v∈r, v.toNat≥p) then .error "mask shape or residue mismatch"
  else return (x.zip r).map fun (a,b) => BitVec.ofInt 32 ((a.toInt+b.toNat)%p)

def unmask (y r : List Word) (p : ℕ) : Except String (List ℤ) := do
  modulus p
  if y.length≠r.length ∨ (∃ v∈y++r, v.toNat≥p) then
    .error "output mask shape or residue mismatch"
  else return (y.zip r).map fun (a,b) =>
    let value := ((a.toNat:ℤ)-b.toNat)%p
    if value.toNat≥p ⌈/⌉ 2 then value-p else value

/-- The matrix times a vector. -/
def product (matrix : List (List ℤ)) (x : List ℤ) : List ℤ :=
  matrix.map fun row => (row.zipWith (· * ·) x).sum

/-- The buffer of the residues of numbers. -/
def residues (bits : ℕ) (v : List ℤ) : List Byte :=
  v.flatMap fun a => leBytes 4 (BitVec.ofInt 32 (a%2^bits))

section
variable {bits : ℕ} (hb : bits=16 ∨ bits=24 ∨ bits=32)
include hb

lemma ringMask_eq : ringMask bits = lowMask bits := by
  rcases hb with rfl | rfl | rfl <;> rfl

lemma outside_iff (v : Word) : v>ringMask bits ↔ 2^bits ≤ v.toNat := by
  rw [gt_iff_lt,BitVec.lt_def]
  rcases hb with rfl | rfl | rfl
  · exact Iff.rfl
  · exact Iff.rfl
  · exact Iff.rfl

/-- The masked input and its mask are the input in the ring. -/
lemma masked_residue (a : Byte) (r : Word) :
    (((a.signExtend 32-r) &&& ringMask bits).toNat : ℤ)+r.toNat ≡ a.toInt [ZMOD 2^bits] := by
  have narrow : bits≤32 := by omega
  rw [ringMask_eq hb,toNat_and_lowMask _ narrow]
  push_cast
  have difference := (OffsetTransport.sub_residue narrow (BitVec.ofInt 32 a.toInt) r).trans
    ((OffsetTransport.residue_ofInt narrow a.toInt).sub_right _)
  have sum := ((Int.mod_modEq _ _).trans difference).add_right (r.toNat:ℤ)
  rwa [sub_add_cancel] at sum

/-- The two shifts give the signed residue of the low bits. -/
lemma center_toInt (t : Word) :
    ((t<<<(32-bits)).sshiftRight (32-bits)).toInt = Int.bmod t.toNat (2^bits) := by
  have ht := t.isLt
  rw [BitVec.toInt_sshiftRight,BitVec.toInt_eq_toNat_bmod,BitVec.toNat_shiftLeft,Nat.shiftLeft_eq,
    Int.shiftRight_eq_div_pow,Int.bmod_def,Int.bmod_def]
  rcases hb with rfl | rfl | rfl
  · norm_num
    split_ifs <;> omega
  · norm_num
    split_ifs <;> omega
  · norm_num

lemma residue_lt (a : ℤ) : (BitVec.ofInt 32 (a%2^bits)).toNat<2^bits ∧
    ((BitVec.ofInt 32 (a%2^bits)).toNat : ℤ) = a%2^bits := by
  have pos : (0:ℤ)<2^bits := by positivity
  have low := Int.emod_nonneg a pos.ne'
  have high := Int.emod_lt_of_pos a pos
  have top : (2:ℤ)^bits≤2^32 := pow_le_pow_right₀ (by norm_num) (by omega)
  rw [BitVec.toNat_ofInt,Int.emod_eq_of_lt low (by push_cast; omega)]
  have same := Int.toNat_of_nonneg low
  refine ⟨?_,same⟩
  zify
  omega

/-- The server's and the client's residues are added up and read as signed numbers. -/
lemma center_residues {a b : List ℤ} (same : a.length=b.length) (small : a.length≤4000000) :
    preparedCenterOutput (residues bits a) (residues bits b) bits = .ok ((a.zip b).flatMap
      fun p => leBytes 8 (BitVec.ofInt 64 (Int.bmod (p.1+p.2) (2^bits)))) := by
  have four : ∀ v : ℤ, (leBytes 4 (BitVec.ofInt 32 (v%2^bits))).length=4 := fun v => by simp
  have la := length_flatMap_const a fun v _ => four v
  have lb := length_flatMap_const b fun v _ => four v
  rw [preparedCenterOutput,if_neg (by simp only [residues]; omega),residues,residues,
    chunksExact_flatMap (by norm_num) a fun v _ => four v,
    chunksExact_flatMap (by norm_num) b fun v _ => four v,zip_map]
  refine bind_eq_ok.mpr ⟨(a.zip b).map fun p => leBytes 8 (BitVec.ofInt 64 (Int.bmod (p.1+p.2)
    (2^bits))),mapM_eq_ok.mpr ?_,by rw [flatMap_def]; rfl⟩
  rw [forall₂_map_left_iff,forall₂_map_right_iff,forall₂_same]
  intro p _
  obtain ⟨ly,ry⟩ := residue_lt hb p.1
  obtain ⟨ls,rs⟩ := residue_lt hb p.2
  have inside : ¬(BitVec.ofInt 32 (p.1%2^bits)>ringMask bits ∨
      BitVec.ofInt 32 (p.2%2^bits)>ringMask bits) := by
    rw [outside_iff hb,outside_iff hb,not_or]
    exact ⟨not_le.mpr ly,not_le.mpr ls⟩
  simp only [Prod.map_fst,Prod.map_snd,ofLeBytes_leBytes _ (show 32≤8*4 by norm_num),if_neg inside]
  have narrow : bits≤32 := by omega
  have sum : ((BitVec.ofInt 32 (p.1%2^bits)+BitVec.ofInt 32 (p.2%2^bits)).toNat : ℤ) ≡ p.1+p.2
      [ZMOD 2^bits] := by
    rw [BitVec.toNat_add]
    push_cast
    refine ((Int.mod_modEq _ _).of_dvd (pow_dvd_pow 2 narrow)).trans ?_
    rw [ry,rs]
    exact (Int.mod_modEq _ _).add (Int.mod_modEq _ _)
  rw [BitVec.signExtend,center_toInt hb,← Int.emod_bmod,← Int.emod_bmod (p.1+p.2)]
  push_cast
  rw [sum]

end

lemma bmod_of_residue {w : ℕ} {s v : ℤ} (hw : 1≤w) (h : s ≡ v [ZMOD 2^w]) (low : -2^(w-1) ≤ v)
    (high : v<2^(w-1)) : Int.bmod s (2^w) = v := by
  have half : 2^w=2*2^(w-1) := by rw [← pow_succ',Nat.sub_add_cancel hw]
  have same : s%((2^w:ℕ) : ℤ)=v%((2^w:ℕ) : ℤ) := by
    push_cast
    exact h
  rw [← Int.emod_bmod,same,Int.emod_bmod]
  apply Int.bmod_eq_of_le_mul_two
  · rw [half]
    push_cast
    linarith
  · rw [half]
    push_cast
    linarith

/-- Sharing a vector shares its product. -/
lemma dot_shared {m : ℤ} {f : Byte × Word → Word} (row : List ℤ) {l : List (Byte × Word)}
    (hf : ∀ p∈l, ((f p).toNat:ℤ)+p.2.toNat ≡ p.1.toInt [ZMOD m]) : (row.zipWith (· * ·)
    (l.map fun p => ((f p).toNat:ℤ))).sum + (row.zipWith (· * ·) (l.map fun p => (p.2.toNat:ℤ))).sum
    ≡ (row.zipWith (· * ·) (l.map fun p => p.1.toInt)).sum [ZMOD m] := by
  induction l generalizing row with
  | nil => simp
  | cons p l ih =>
    cases row with
    | nil => simp
    | cons a row =>
      have tail := ih row fun q hq => hf q (mem_cons_of_mem _ hq)
      have sum := ((hf p mem_cons_self).mul_left a).add tail
      simp only [map_cons,zipWith_cons_cons,sum_cons]
      convert sum using 1
      ring

section
variable {bits : ℕ} (hb : bits=16 ∨ bits=24 ∨ bits=32)
include hb

variable {x : List Byte} {r : List Word}

variable (small : x.length≤4000000) (same : r.length=x.length) (inside : ∀ v∈r, v.toNat<2^bits)
include small same inside

lemma maskInput_eq : preparedMaskInput x (r.flatMap (leBytes 4)) bits = .ok
    (((x.zip r).map fun p => (p.1.signExtend 32-p.2) &&& ringMask bits).flatMap (leBytes 4)) := by
  have four : ∀ v∈r, (leBytes 4 v).length=4 := fun v _ => length_leBytes 4 v
  have lr := length_flatMap_const r four
  rw [preparedMaskInput,if_neg (by omega),chunksExact_flatMap (by norm_num) r four,zip_map_right,
    flatMap_map]
  refine bind_eq_ok.mpr ⟨(x.zip r).map fun p => leBytes 4 ((p.1.signExtend 32-p.2) &&& ringMask bits),
    mapM_eq_ok.mpr ?_,by rw [flatMap_def]; rfl⟩
  rw [forall₂_map_left_iff,forall₂_map_right_iff,forall₂_same]
  intro p hp
  have low := inside p.2 (of_mem_zip hp).2
  rw [← not_le,← outside_iff hb] at low
  simp only [Prod.map_fst,Prod.map_snd,id_eq,ofLeBytes_leBytes _ (show 32≤8*4 by norm_num),if_neg low]

/-- The masked product and the product of the masks give the product back. -/
lemma prepared_pipeline {matrix : List (List ℤ)}
    (rows : matrix.length≤4000000) (range : ∀ v∈product matrix (x.map BitVec.toInt),
      -2^(bits-1) ≤ v ∧ v<2^(bits-1)) :
    ∃ masked : List Word, preparedMaskInput x (r.flatMap (leBytes 4)) bits =
        .ok (masked.flatMap (leBytes 4)) ∧ masked.length = x.length ∧
      preparedCenterOutput (residues bits (product matrix (masked.map fun v => v.toNat)))
          (residues bits (product matrix (r.map fun v => v.toNat))) bits =
        .ok ((product matrix (x.map BitVec.toInt)).flatMap fun v =>
          leBytes 8 (BitVec.ofInt 64 v)) := by
  refine ⟨_,maskInput_eq hb small same inside,by simp [same],?_⟩
  have hx : x.map BitVec.toInt=(x.zip r).map fun p => p.1.toInt := by
    conv_lhs => rw [← map_fst_zip same.ge]
    rw [map_map]
    rfl
  have hr : (r.map fun v => (v.toNat:ℤ))=(x.zip r).map fun p => (p.2.toNat:ℤ) := by
    conv_lhs => rw [← map_snd_zip same.le]
    rw [map_map]
    rfl
  rw [center_residues hb (by simp [product]) (by simpa [product] using rows)]
  rw [hx] at range ⊢
  rw [hr,map_map,product,product,zip_map',flatMap_map,product,flatMap_map]
  refine congrArg Except.ok (flatMap_congr fun row hrow => ?_)
  have sum := dot_shared row fun p (_ : p∈x.zip r) => masked_residue hb p.1 p.2
  obtain ⟨low,high⟩ := range _ (mem_map_of_mem hrow)
  exact congrArg (leBytes 8 <| BitVec.ofInt 64 ·) (bmod_of_residue (by omega) sum low high)

end

lemma modulus_ok {p : ℕ} (hp : 2≤p ∧ p≤2^32) : modulus p = .ok () := if_neg (not_not.mpr hp)

/-- A residue read as a number around zero is the number itself on the centred range. -/
lemma centered_iff {p : ℕ} (pos : 0<p) (a : ℤ) :
    (if (a%p).toNat≥p ⌈/⌉ 2 then a%p-p else a%p)=a ↔ -(p:ℤ) ≤ 2*a ∧ 2*a<p := by
  have low := Int.emod_nonneg a (show (p : ℤ)≠0 by omega)
  have high := Int.emod_lt_of_pos a (show (0:ℤ)<p by omega)
  rw [Nat.ceilDiv_eq_add_pred_div]
  constructor
  · intro h
    split_ifs at h <;> omega
  · rintro ⟨least,most⟩
    rcases lt_or_ge a 0 with negative | positive
    · have moved : a%p=a+p := by
        rw [← Int.add_emod_right,Int.emod_eq_of_lt (by omega) (by omega)]
      rw [moved] at low high ⊢
      rw [if_pos (by omega)]
      omega
    · have kept := Int.emod_eq_of_lt positive (show a<p by omega)
      rw [kept,if_neg (by omega)]

/-- What comes off a mask is the input where the input is in the centred range. -/
lemma unmask_mask {p : ℕ} (hp : 2≤p ∧ p≤2^32) (same : x.length=r.length)
    (inside : ∀ v∈r, v.toNat<p) : ∃ y z, mask x r p = .ok y ∧ unmask y r p = .ok z ∧ Forall₂
    (fun (a : Byte) v => v=a.toInt ↔ -(p:ℤ) ≤ 2*a.toInt ∧ 2*a.toInt<p) x z := by
  have pos : (0:ℤ)<p := by omega
  have residue (a : ℤ) : ((BitVec.ofInt 32 (a%p)).toNat : ℤ)=a%p := by
    have low := Int.emod_nonneg a pos.ne'
    have high := Int.emod_lt_of_pos a pos
    rw [BitVec.toNat_ofInt,Int.emod_eq_of_lt low (by push_cast; omega),Int.toNat_of_nonneg low]
  let y := (x.zip r).map fun (a,b) => BitVec.ofInt 32 ((a.toInt+b.toNat)%p)
  have zipped : y.zip r=(x.zip r).map fun (a,b) => (BitVec.ofInt 32 ((a.toInt+b.toNat)%p),b) := by
    conv_lhs => rw [← map_snd_zip same.ge]
    exact zip_map' ..
  have first : mask x r p = .ok y := by
    rw [mask,modulus_ok hp,ok_bind,if_neg]
    · rfl
    · rintro (differ | ⟨v,hv,out⟩)
      · exact differ same
      · exact not_le.mpr (inside v hv) out
  refine ⟨y,(x.zip r).map fun q => if (q.1.toInt%(p:ℤ)).toNat≥p ⌈/⌉ 2 then q.1.toInt%(p:ℤ)-p
    else q.1.toInt%(p:ℤ),first,?_,?_⟩
  · rw [unmask,modulus_ok hp,ok_bind,if_neg,zipped]
    · refine congrArg Except.ok ((map_map ..).trans (map_congr_left fun q _ => ?_))
      have off : (((BitVec.ofInt 32 ((q.1.toInt+q.2.toNat)%p)).toNat : ℤ)-q.2.toNat)%p =
          q.1.toInt%p := by
        rw [residue,Int.emod_sub_emod,add_sub_cancel_right]
      simp only [Function.comp_apply,off]
    · rintro (differ | ⟨v,hv,out⟩)
      · exact differ (by simp [y,same])
      · rcases mem_append.mp hv with hv | hv
        · obtain ⟨q,-,rfl⟩ := mem_map.mp hv
          have high := Int.emod_lt_of_pos (q.1.toInt+q.2.toNat) pos
          have here := residue (q.1.toInt+q.2.toNat)
          change (BitVec.ofInt 32 ((q.1.toInt+q.2.toNat)%p)).toNat≥p at out
          omega
        · exact not_le.mpr (inside v hv) out
  · rw [forall₂_map_right_iff]
    conv => arg 2; rw [← map_fst_zip same.le]
    rw [forall₂_map_left_iff,forall₂_same]
    exact fun q _ => centered_iff (Nat.zero_lt_of_lt hp.1) _

lemma flatten_chunksExact {n : ℕ} {bytes : List Byte} (h : bytes.length%n=0) :
    (chunksExact n bytes).flatten = bytes := by
  have whole : bytes.length/n*n=bytes.length := Nat.div_mul_cancel (Nat.dvd_of_mod_eq_zero h)
  have rows := slice_rows n 0 (bytes.length/n) bytes
  rw [whole,zero_mul,slice,drop_zero,take_length] at rows
  refine Eq.trans ?_ rows.symm
  rw [chunksExact,← flatMap_def]
  exact flatMap_congr fun i _ => by rw [Pllm.row,zero_add,mul_comm]

variable {values : List Word} {data : List Byte} {width : ℕ}

lemma pack_eq_ok : pack values width = .ok data ↔ (2≤width ∧ width≤4) ∧ (∀ v∈values,
    v.toNat<2^(8*width)) ∧ values.length*width<2^64 ∧ values.flatMap (leBytes width)=data := by
  rw [pack,ite_error_eq_ok,not_not]
  simp only [ite_error_eq_ok,not_exists,not_and,not_le,ge_iff_le,Nat.one_shiftLeft,ok_eq_ok]

lemma unpack_eq_ok : unpack data width = .ok values ↔ (2≤width ∧ width≤4) ∧ data.length%width=0 ∧
    (chunksExact width data).map (ofLeBytes 32)=values := by
  simp only [unpack,ite_error_eq_ok,not_or,not_not,ok_eq_ok,and_assoc]

/-- Packing and unpacking undo each other. -/
lemma pack_iff_unpack (room : data.length<2^64) :
    pack values width = .ok data ↔ unpack data width = .ok values := by
  rw [pack_eq_ok,unpack_eq_ok]
  constructor
  · rintro ⟨hw,small,-,rfl⟩
    have each : ∀ v∈values, (leBytes width v).length=width := fun v _ => length_leBytes width v
    refine ⟨hw,?_,?_⟩
    · rw [length_flatMap_const values each,Nat.mul_mod_right]
    · rw [chunksExact_flatMap (by omega) values each,map_map]
      exact (map_congr_left fun v hv => ofLeBytes_leBytes_of_lt (small v hv)).trans (map_id _)
  · rintro ⟨hw,whole,rfl⟩
    have each : ∀ chunk∈chunksExact width data, chunk.length=width := by
      intro chunk hc
      obtain ⟨i,hi,rfl⟩ := mem_map.mp hc
      have reach := Nat.mul_le_mul_left width (Nat.succ_le_of_lt (mem_range.mp hi))
      rw [Nat.mul_succ] at reach
      exact length_slice (reach.trans (Nat.mul_div_le _ _))
    have back : ((chunksExact width data).map (ofLeBytes 32)).flatMap (leBytes width)=data := by
      rw [flatMap_map,flatMap_def]
      refine (congrArg flatten ((map_congr_left fun chunk hc => ?_).trans (map_id _))).trans
        (flatten_chunksExact whole)
      exact leBytes_ofLeBytes (each chunk hc) (by omega)
    refine ⟨hw,fun v hv => ?_,?_,back⟩
    · obtain ⟨chunk,hc,rfl⟩ := mem_map.mp hv
      refine Nat.lt_pow_two_of_testBit _ fun i hi => ?_
      have behind : chunk.length ≤ i/8 := by
        rw [each chunk hc]
        omega
      have clear := getLsbD_ofLeBytes 32 chunk i
      rw [getD_eq_default _ _ behind] at clear
      rw [show (0 : Byte).getLsbD (i%8)=false from BitVec.getLsbD_zero,Bool.and_false] at clear
      exact clear
    · have length := congrArg List.length back
      rw [length_flatMap_const _ fun v _ => length_leBytes width v] at length
      rw [mul_comm]
      omega

/-- Masked products come back exactly, masks modulo a number come off where the input is in the
centred range, and packed words are read back. -/
theorem masked_linear :
    (∀ (bits : ℕ) (x : List Byte) (r : List Word) (matrix : List (List ℤ)),
      (bits=16 ∨ bits=24 ∨ bits=32) → x.length≤4000000 → r.length=x.length →
      (∀ v∈r, v.toNat<2^bits) → matrix.length≤4000000 →
      (∀ v∈product matrix (x.map BitVec.toInt), -2^(bits-1) ≤ v ∧ v<2^(bits-1)) →
      ∃ masked : List Word, preparedMaskInput x (r.flatMap (leBytes 4)) bits =
          .ok (masked.flatMap (leBytes 4)) ∧ masked.length = x.length ∧
        preparedCenterOutput (residues bits (product matrix (masked.map fun v => v.toNat)))
            (residues bits (product matrix (r.map fun v => v.toNat))) bits =
          .ok ((product matrix (x.map BitVec.toInt)).flatMap fun v =>
            leBytes 8 (BitVec.ofInt 64 v))) ∧
    (∀ (p : ℕ) (x : List Byte) (r : List Word), 2≤p ∧ p≤2^32 → x.length=r.length →
      (∀ v∈r, v.toNat<p) → ∃ y z, mask x r p = .ok y ∧ unmask y r p = .ok z ∧
        Forall₂ (fun (a : Byte) v => v=a.toInt ↔ -(p:ℤ) ≤ 2*a.toInt ∧ 2*a.toInt<p) x z) ∧
    ∀ (values : List Word) (width : ℕ) (data : List Byte), data.length<2^64 →
      (pack values width = .ok data ↔ unpack data width = .ok values) :=
  ⟨fun _ _ _ _ hb small same inside rows range => prepared_pipeline hb small same inside rows range,
    fun _ _ _ hp same inside => unmask_mask hp same inside,fun _ _ _ room => pack_iff_unpack room⟩

/-- A product of a negative byte, a residue taken off, and two words of two bytes. -/
theorem masked_linear_small :
    (∃ masked : List Word, preparedMaskInput [255,3] [255,255,0,0,7,0,0,0] 16 =
        .ok (masked.flatMap (leBytes 4)) ∧
      preparedCenterOutput (residues 16 (product [[1,2],[4,-1]] (masked.map fun v => v.toNat)))
          (residues 16 (product [[1,2],[4,-1]] [65535,7])) 16 =
        .ok [5,0,0,0,0,0,0,0,249,255,255,255,255,255,255,255]) ∧
    (∃ y, mask [255,3] [6,5] 7 = .ok y ∧ unmask y [6,5] 7 = .ok [-1,3]) ∧
    unpack [1,2,5,0] 2 = .ok [513,5] := by
  obtain ⟨prepared,residue,packed⟩ := masked_linear
  refine ⟨?_,?_,(packed [513,5] 2 [1,2,5,0] (by simp)).mp (by simp [pack]; rfl)⟩
  · obtain ⟨masked,ok,-,back⟩ := prepared 16 [255,3] [65535,7] [[1,2],[4,-1]] (.inl rfl)
      (by simp) rfl (by simp) (by simp) (by simp [product])
    exact ⟨masked,ok,back⟩
  · obtain ⟨y,z,masked,unmasked,same⟩ := residue 7 [255,3] [6,5] (by simp) rfl (by simp)
    rcases same with _ | ⟨first,_ | ⟨second,⟨⟩⟩⟩
    rw [first.mpr (by simp),second.mpr (by simp)] at unmasked
    exact ⟨y,masked,unmasked⟩

end Pllm.Codec
