import Mathlib

/-! Bytes, sixteen-byte blocks and the fixed-width words the Rust sources pass around. A `[u8; 16]`
is a 128-bit word whose byte `i` sits at bits `8*i` to `8*i+7`. -/
namespace Pllm
open BitVec

abbrev Byte := BitVec 8
abbrev Block := BitVec 128

namespace Block

def byte (b : Block) (i : ℕ) : Byte := b.extractLsb' (8*i) 8

def setByte (b : Block) (i : ℕ) (v : Byte) : Block :=
  (b &&& ~~~((255 : Block) <<< (8*i))) ||| (v.setWidth 128 <<< (8*i))

/-- Byte zero comes first, as in the Rust array literal. -/
def ofBytes : List Byte → Block
  | [] => 0
  | b::bs => b.setWidth 128 ||| (ofBytes bs <<< 8)

end Block

/-- The bytes of an ASCII literal. -/
def ascii (s : String) : List Byte := s.toList.map fun c => BitVec.ofNat 8 c.toNat

/-- The first `n` little-endian bytes of a word. -/
def leBytes {w : ℕ} (n : ℕ) (x : BitVec w) : List Byte :=
  (List.range n).map fun i => x.extractLsb' (8*i) 8

/-- The little-endian word of a byte string. -/
def ofLeBytes (w : ℕ) : List Byte → BitVec w
  | [] => 0
  | b::bs => b.setWidth w ||| (ofLeBytes w bs <<< 8)

/-- Entry `index` of a two-element array. -/
def pick {α : Type*} (pair : α × α) (index : Bool) : α := if index then pair.2 else pair.1

@[simp] lemma pick_false {α : Type*} (pair : α × α) : pick pair false = pair.1 := rfl
@[simp] lemma pick_true {α : Type*} (pair : α × α) : pick pair true = pair.2 := rfl

/-- The word with its low `n` bits set: `(1 << n) - 1`. -/
def lowMask {w : ℕ} (n : ℕ) : BitVec w := BitVec.ofNat w (2^n-1)

variable {w n : ℕ}

lemma getLsbD_lowMask (h : n≤w) (i : ℕ) : (lowMask n : BitVec w).getLsbD i = decide (i<n) := by
  rw [lowMask,getLsbD_ofNat]
  by_cases hi : i<n <;> simp [hi]
  omega

lemma toNat_and_lowMask (x : BitVec w) (h : n≤w) : (x &&& lowMask n).toNat = x.toNat%2^n := by
  have hle : 2^n≤2^w := Nat.pow_le_pow_right (by omega) h
  have hpos := Nat.two_pow_pos n
  rw [lowMask,toNat_and,toNat_ofNat,Nat.mod_eq_of_lt (by omega),Nat.and_two_pow_sub_one_eq_mod]

/-- Masking is invisible in the ring of the masked width. -/
lemma setWidth_and_lowMask (x : BitVec w) (h : n≤w) :
    (x &&& lowMask n).setWidth n = x.setWidth n := by
  apply eq_of_toNat_eq
  rw [toNat_setWidth,toNat_setWidth,toNat_and_lowMask x h,Nat.mod_mod]

/-- Every bit set to `b`: the source's `0.wrapping_sub(b)` for a one-bit `b`. -/
def spread {w : ℕ} (b : Bool) : BitVec w := if b then BitVec.allOnes w else 0

@[simp] lemma and_spread {w : ℕ} (x : BitVec w) (b : Bool) :
    x &&& spread b = if b then x else 0 := by
  cases b <;> simp [spread]

@[simp] lemma getLsbD_spread {w : ℕ} (b : Bool) (i : ℕ) :
    (spread b : BitVec w).getLsbD i = (decide (i<w) && b) := by
  cases b <;> simp [spread]

@[simp] lemma length_leBytes {w : ℕ} (n : ℕ) (x : BitVec w) : (leBytes n x).length = n := by
  simp [leBytes]

lemma getLsbD_ofLeBytes (w : ℕ) (bytes : List Byte) (i : ℕ) :
    (ofLeBytes w bytes).getLsbD i = (decide (i<w) && (bytes.getD (i/8) 0).getLsbD (i%8)) := by
  induction bytes generalizing i with
  | nil => simp [ofLeBytes]
  | cons b bs ih =>
    rw [ofLeBytes,getLsbD_or,getLsbD_shiftLeft,ih]
    by_cases hi : i<8
    · have hdiv : i/8=0 := by omega
      have hmod : i%8=i := by omega
      simp [hi,hdiv,hmod]
    · have hdiv : i/8=(i-8)/8+1 := by omega
      have hmod : i%8=(i-8)%8 := by omega
      have hb : b.getLsbD i=false := getLsbD_of_ge b i (by omega)
      by_cases hw : i<w <;> simp [hi,hdiv,hmod,hb,hw]
      omega

/-- The low bytes of a word that fits in them. -/
lemma ofLeBytes_leBytes_of_lt {x : BitVec w} (h : x.toNat<2^(8*n)) :
    ofLeBytes w (leBytes n x)=x := by
  apply eq_of_getLsbD_eq
  intro i hi
  have hm : i%8<8 := by omega
  have hr : 8*(i/8)+i%8=i := by omega
  rw [getLsbD_ofLeBytes]
  by_cases hd : i/8<n
  · simp [leBytes,hi,hd,hm,hr]
  · have hzero : x.getLsbD i=false :=
      Nat.testBit_lt_two_pow (h.trans_le (Nat.pow_le_pow_right (by decide) (by omega)))
    simp [leBytes,hd,hzero]

/-- Reading back the little-endian bytes of a word. -/
lemma ofLeBytes_leBytes (x : BitVec w) (hw : w≤8*n) : ofLeBytes w (leBytes n x)=x :=
  ofLeBytes_leBytes_of_lt (x.isLt.trans_le (Nat.pow_le_pow_right (by decide) hw))

lemma leBytes_ofLeBytes {bytes : List Byte} (h : bytes.length=n) (hw : 8*n≤w) :
    leBytes n (ofLeBytes w bytes)=bytes := by
  apply List.ext_getElem
  · rw [length_leBytes,h]
  · intro i hi hi'
    apply eq_of_getLsbD_eq
    intro j hj
    have hdiv : (8*i+j)/8=i := by omega
    have hmod : (8*i+j)%8=j := by omega
    have hlt : 8*i+j<w := by omega
    simp only [leBytes,List.getElem_map,List.getElem_range,getLsbD_extractLsb',getLsbD_ofLeBytes,
      hj,hdiv,hmod,hlt,decide_true,Bool.true_and,List.getD_eq_getElem _ _ hi']

end Pllm
