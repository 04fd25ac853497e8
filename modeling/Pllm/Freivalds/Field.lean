import Pllm.Lib.Except

/-! The field of the checks, and its arithmetic on machine integers: what the code checks is
refused, and what it does not check may overflow. -/
namespace Pllm.Freivalds
open List

/-- The greatest prime of 32 bits. -/
def modulus : ℕ := 4294967291

inductive Error
  | allocation
  | binding
  | consumed
  | dimension
  | fieldElement
  | integrity
  | policy
  | random
  | range

/-- A call is refused, or an operation on machine integers overflows. -/
inductive Failure
  | refused (error : Error)
  | overflow

abbrev Result := Except Failure

def refuse {α : Type} (error : Error) : Result α := .error (.refused error)

def checkedAdd (a b : ℕ) : Result ℕ := if a+b<2^64 then .ok (a+b) else refuse .dimension
def checkedMul (a b : ℕ) : Result ℕ := if a*b<2^64 then .ok (a*b) else refuse .dimension

/-- Unchecked operations on words of `width` bits. -/
def addOf (width a b : ℕ) : Result ℕ := if a+b<2^width then .ok (a+b) else .error .overflow
def mulOf (width a b : ℕ) : Result ℕ := if a*b<2^width then .ok (a*b) else .error .overflow

def signedToField (value : ℤ) : ℕ := (value % modulus).toNat
def reduce (value : ℕ) : ℕ := value % modulus

/-- One product of a dot product, which is reduced at its end only. -/
def accumulate (sum a b : ℕ) : Result ℕ := do
  let product ← mulOf 128 a b
  addOf 128 sum product

def dotSignedField (signed : List ℤ) (field : List ℕ) : Result ℕ := do
  let sum ← (signed.zip field).foldlM (fun sum p => accumulate sum (signedToField p.1) p.2) 0
  pure (reduce sum)

/-- Where the block of a check of a row begins among blocks of `width`. -/
def blockStart (row checks check width : ℕ) : Result ℕ := do
  let rows ← mulOf 64 row checks
  let block ← addOf 64 rows check
  mulOf 64 block width

end Pllm.Freivalds

/-! Dot products fit into their machine words, and are the ones of the field. -/
namespace Pllm.Lib
open List

lemma Ends.mapM {ε α β : Type} {f : α → Except ε β} (good : α → β → Prop) {bad : ε → Prop}
    {xs : List α} (h : ∀ x∈xs,Ends (f x) (good x) bad) :
    Ends (xs.mapM f) (fun ys => Forall₂ (fun x y => f x = .ok y ∧ good x y) xs ys) bad := by
  cases result : xs.mapM f with
  | error e =>
    obtain ⟨x,mem,failed⟩ := mapM_eq_error result
    exact (h x mem).error failed
  | ok ys =>
    have all := mapM_eq_ok.mp result
    clear result
    induction all with
    | nil => exact .nil
    | cons head _ ih =>
      exact .cons ⟨head,(h _ mem_cons_self).ok head⟩ (ih fun x mem => h x (mem_cons_of_mem _ mem))

section
variable {ε α : Type} {x : Except ε α} {good : α → Prop}

lemma Ends.exists_ok (h : Ends x good fun _ => False) : ∃ a,x = .ok a ∧ good a := by
  cases x with
  | ok a => exact ⟨a,rfl,h⟩
  | error e => exact h.elim

lemma Ends.of_ok {bad : ε → Prop} (h : ∃ a,x = .ok a ∧ good a) : Ends x good bad := by
  obtain ⟨a,rfl,good⟩ := h
  exact good

end

end Pllm.Lib

namespace Pllm.Freivalds
open Pllm.Lib List

/-- No operation on machine integers overflows. -/
def Sane (failure : Failure) : Prop := failure ≠ .overflow

lemma sane_refused (e : Error) : Sane (.refused e) := nofun

lemma checkedAdd_ends (a b : ℕ) : Ends (checkedAdd a b) (fun c => c=a+b ∧ c<2^64) Sane := by
  unfold checkedAdd
  split
  · rename_i h
    exact ⟨rfl,h⟩
  · exact sane_refused _

lemma checkedMul_ends (a b : ℕ) : Ends (checkedMul a b) (fun c => c=a*b ∧ c<2^64) Sane := by
  unfold checkedMul
  split
  · rename_i h
    exact ⟨rfl,h⟩
  · exact sane_refused _

section
variable {β : Type} {a b : ℕ} {f : ℕ → Result β} {good : β → Prop}

lemma bind_checkedAdd (h : a+b<2^64 → Ends (f (a+b)) good Sane) :
    Ends (checkedAdd a b >>= f) good Sane :=
  (checkedAdd_ends a b).bind fun _ ⟨eq,small⟩ => eq ▸ h (eq ▸ small)

lemma bind_checkedMul (h : a*b<2^64 → Ends (f (a*b)) good Sane) :
    Ends (checkedMul a b >>= f) good Sane :=
  (checkedMul_ends a b).bind fun _ ⟨eq,small⟩ => eq ▸ h (eq ▸ small)

end

variable {width a b n : ℕ} {field : List ℕ}

lemma addOf_ok (h : a+b<2^width) : addOf width a b = .ok (a+b) := if_pos h
lemma mulOf_ok (h : a*b<2^width) : mulOf width a b = .ok (a*b) := if_pos h

lemma modulus_pos : 0 < modulus := by decide

lemma signedToField_lt (value : ℤ) : signedToField value < modulus := by
  have := Int.emod_lt_of_pos value (b := modulus) (by decide)
  have := Int.emod_nonneg value (b := modulus) (by decide)
  unfold signedToField
  omega

lemma cast_signedToField (value : ℤ) : ((signedToField value:ℕ) : ZMod modulus)=value := by
  have nonneg := Int.emod_nonneg value (b := modulus) (by decide)
  have eq : ((signedToField value:ℕ) : ℤ)=value % modulus := Int.toNat_of_nonneg nonneg
  have := congrArg (fun x : ℤ => (x : ZMod modulus)) eq
  simpa using this

lemma cast_reduce (value : ℕ) : ((reduce value:ℕ) : ZMod modulus)=value :=
  ZMod.natCast_mod value modulus

lemma reduce_lt (value : ℕ) : reduce value < modulus := Nat.mod_lt _ modulus_pos

/-- Products of field words are summed up exactly. -/
lemma foldlM_accumulate {α : Type} (l : List α) (f g : α → ℕ) (step : ℕ → α → Result ℕ) (steps : ∀
    x∈l,∀ sum,step sum x = accumulate sum (f x) (g x)) (hf : ∀ x∈l,f x < modulus) (hg : ∀ x∈l,g x <
    modulus) (start : ℕ) (room : start+l.length*2^64≤2^128) : l.foldlM step start = .ok
    (start+(l.map fun x => f x*g x).sum) := by
  induction l generalizing start with
  | nil => simp
  | cons x l ih =>
    have product : f x*g x < 2^64 := by
      have first := hf x mem_cons_self
      have second := hg x mem_cons_self
      calc f x*g x ≤ (2^32-1)*(2^32-1) := Nat.mul_le_mul (by unfold modulus at first; omega)
            (by unfold modulus at second; omega)
        _ < 2^64 := by decide
    rw [length_cons] at room
    have added : step start x = .ok (start+f x*g x) := by
      rw [steps x mem_cons_self,accumulate,mulOf_ok (by omega),ok_bind,addOf_ok (by omega)]
    rw [foldlM_cons,added,ok_bind,ih (fun y m => steps y (mem_cons_of_mem _ m))
      (fun y m => hf y (mem_cons_of_mem _ m)) (fun y m => hg y (mem_cons_of_mem _ m)) _
      (by omega),map_cons,sum_cons,add_assoc]

/-- The dot product of a signed vector with one of the field. -/
def fieldDot (n : ℕ) (signed : ℕ → ℤ) (field : ℕ → ℕ) : ZMod modulus :=
  ∑ i ∈ Finset.range n,(signed i : ZMod modulus) * (field i : ZMod modulus)

lemma cast_sum_range (n : ℕ) (signed : ℕ → ℤ) (field : ℕ → ℕ) :
    ((((range n).map fun i => signedToField (signed i)*field i).sum : ℕ) : ZMod modulus) =
      fieldDot n signed field := by
  induction n with
  | zero => simp [fieldDot]
  | succ n ih =>
    rw [range_succ,map_append,sum_append,Nat.cast_add,ih,fieldDot,fieldDot,Finset.sum_range_succ]
    simp [cast_signedToField]

lemma zip_eq_map_range {a : List ℤ} {b : List ℕ} (ha : a.length=n) (hb : b.length=n) :
    a.zip b = (range n).map fun i => (a.getD i 0,b.getD i 0) := by
  refine ext_getElem (by simp [ha,hb]) fun i hi _ => ?_
  rw [length_zip] at hi
  have left : i<a.length := by omega
  have right : i<b.length := by omega
  simp [left,right]

lemma getD_lt (h : ∀ x∈field,x < modulus) (i : ℕ) : field.getD i 0 < modulus := by
  rw [getD_eq_getElem?_getD]
  cases eq : field[i]? with
  | none => exact modulus_pos
  | some x => exact h x (mem_of_getElem? eq)

lemma dotSignedField_ok {signed : List ℤ} (hs : signed.length=n) (hf : field.length=n)
    (small : n≤2^64) (canonical : ∀ x∈field,x < modulus) : ∃ r,dotSignedField signed field = .ok r ∧
    r < modulus ∧ (r : ZMod modulus) = fieldDot n (signed.getD · 0) (field.getD · 0) := by
  have sum := foldlM_accumulate (range n) (fun i => signedToField (signed.getD i 0))
    (fun i => field.getD i 0) _ (fun _ _ _ => rfl) (fun _ _ => signedToField_lt _)
    (fun i _ => getD_lt canonical i) 0 (by
      rw [length_range,zero_add]
      calc n*2^64≤2^64*2^64 := Nat.mul_le_mul_right _ small
        _ = 2^128 := by decide)
  have eq : dotSignedField signed field = .ok (reduce (0+((range n).map fun i =>
      signedToField (signed.getD i 0)*field.getD i 0).sum)) := by
    unfold dotSignedField
    rw [zip_eq_map_range hs hf,foldlM_map,sum]
    rfl
  refine ⟨_,eq,reduce_lt _,?_⟩
  rw [cast_reduce,zero_add,cast_sum_range]

lemma eq_of_cast (ha : a < modulus) (hb : b < modulus) (h : (a : ZMod modulus)=b) : a=b := by
  have := (ZMod.natCast_eq_natCast_iff' a b modulus).mp h
  rwa [Nat.mod_eq_of_lt ha,Nat.mod_eq_of_lt hb] at this

lemma blockStart_ok {row checks check width rows : ℕ} (hr : row < rows) (hc : check < checks+1)
    (bound : rows*checks*width<2^64) (blocks : rows*checks<2^64) :
    blockStart row checks check width = .ok ((row*checks+check)*width) := by
  have next : row*checks+checks ≤ rows*checks := by
    rw [← Nat.succ_mul]
    exact Nat.mul_le_mul_right _ hr
  have inside : (row*checks+check)*width ≤ rows*checks*width := Nat.mul_le_mul_right _ (by omega)
  unfold blockStart
  rw [mulOf_ok (by omega),ok_bind,addOf_ok (by omega),ok_bind,mulOf_ok (by omega)]

end Pllm.Freivalds
