import Pllm.Common.Bytes

/-! Numbers made of fields, the lowest one first, and the bytes that hold them. -/
namespace Pllm.Fields
open List Nat

/-- The number of a little-endian string. -/
def number (bytes : List Byte) : ℕ := ofDigits 256 (bytes.map BitVec.toNat)

/-- The bits that fields of these widths take. -/
def extent (fs : List (ℕ × ℕ)) : ℕ := (fs.map Prod.fst).sum

/-- The number of fields given with their widths. -/
def value : List (ℕ × ℕ) → ℕ
  | [] => 0
  | f::fs => f.2%2^f.1+2^f.1*value fs

variable (a b : List (ℕ × ℕ))

@[simp] lemma extent_append : extent (a++b) = extent a+extent b := by simp [extent]

lemma value_append : value (a++b) = value a+2^extent a*value b := by
  induction a with
  | nil => simp [value,extent]
  | cons f a ih =>
    have power : 2^extent (f::a)=2^f.1*2^extent a := by simp [extent,pow_add]
    rw [cons_append,value,ih,value,power]
    ring

lemma value_lt (fs : List (ℕ × ℕ)) : value fs < 2^extent fs := by
  induction fs with
  | nil => simp [value,extent]
  | cons f fs ih =>
    have low := mod_lt f.2 (Nat.two_pow_pos f.1)
    have power : 2^extent (f::fs)=2^f.1*2^extent fs := by simp [extent,pow_add]
    rw [value,power]
    calc f.2%2^f.1+2^f.1*value fs < 2^f.1*(value fs+1) := by rw [Nat.mul_succ]; omega
      _ ≤ 2^f.1*2^extent fs := Nat.mul_le_mul_left _ ih

/-- A field is found behind the ones before it. -/
lemma value_field (f : ℕ × ℕ) : value (a++f::b)/2^extent a%2^f.1 = f.2%2^f.1 := by
  rw [value_append,Nat.add_mul_div_left _ _ (Nat.two_pow_pos _),Nat.div_eq_of_lt (value_lt a),
    zero_add,value,Nat.add_mul_mod_self_left,mod_mod]

lemma digit_lt (bytes : List Byte) : ∀ d∈bytes.map BitVec.toNat, d<256 := by
  intro d hd
  obtain ⟨b,-,rfl⟩ := mem_map.mp hd
  exact b.isLt

@[simp] lemma number_append (a b : List Byte) :
    number (a++b) = number a+2^(8*a.length)*number b := by
  rw [number,map_append,ofDigits_append,length_map,pow_mul]
  rfl

/-- The eight bytes at a place hold the bits there. -/
lemma number_slice (bytes : List Byte) (i n : ℕ) :
    number ((bytes.drop i).take n) = number bytes/2^(8*i)%2^(8*n) := by
  rw [number,map_take,map_drop,← ofDigits_mod_pow_eq_ofDigits_take n (by norm_num) _
      fun d hd => digit_lt bytes d (mem_of_mem_drop hd),
    ← ofDigits_div_pow_eq_ofDigits_drop i (by norm_num) _ (digit_lt bytes),pow_mul,pow_mul]
  rfl

end Pllm.Fields
