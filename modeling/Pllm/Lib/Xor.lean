import Mathlib

/-! Exclusive-or on bits and on pairs, as lawful as on words, and the rewriting rule that sorts a
chain of terms. -/
namespace Pllm.Lib

lemma xor_left_comm {α : Type*} [XorOp α] [Zero α] [LawfulXor α] (a b c : α) :
    a ^^^ (b ^^^ c) = b ^^^ (a ^^^ c) := by
  rw [← xor_assoc,xor_comm a b,xor_assoc]

instance instXorOpBool : XorOp Bool := ⟨Bool.xor⟩

@[simp] lemma xor_eq_bool_xor (a b : Bool) : a ^^^ b = (a ^^ b) := rfl

instance instLawfulXorBool : LawfulXor Bool where
  xor_assoc := Bool.xor_assoc
  xor_comm := Bool.xor_comm
  xor_self := Bool.xor_self
  xor_zero := Bool.xor_false

section
variable {α β : Type*} [XorOp α] [XorOp β]

instance instXorOpProd : XorOp (α × β) := ⟨fun a b => (a.1 ^^^ b.1,a.2 ^^^ b.2)⟩

@[simp] lemma fst_xor (a b : α × β) : (a ^^^ b).1 = a.1 ^^^ b.1 := rfl

@[simp] lemma snd_xor (a b : α × β) : (a ^^^ b).2 = a.2 ^^^ b.2 := rfl

instance instLawfulXorProd [Zero α] [Zero β] [LawfulXor α] [LawfulXor β] : LawfulXor (α × β) where
  xor_assoc _ _ _ := Prod.ext (xor_assoc ..) (xor_assoc ..)
  xor_comm _ _ := Prod.ext (xor_comm ..) (xor_comm ..)
  xor_self _ := Prod.ext (LawfulXor.xor_self _) (LawfulXor.xor_self _)
  xor_zero _ := Prod.ext (xor_zero _) (xor_zero _)

end

/-- One walk: the next state, what is accumulated on the way, and what the last state yields. -/
structure Descent (σ κ G : Type*) where
  step : κ → Bool → σ → σ
  emit : κ → Bool → σ → G
  leaf : σ → G

namespace Descent
variable {σ κ G : Type*} [AddCommGroup G]

def eval (d : Descent σ κ G) (input : ℕ) : List κ → σ → G
  | [], s => d.leaf s
  | k::ks, s => d.emit k (input.testBit ks.length) s +
      d.eval input ks (d.step k (input.testBit ks.length) s)

/-- The correction words are right for `target`: the two states merge when the input turns off its
path, and the accumulated difference is then `payload` below the target and zero above it. -/
inductive Issued (d : Descent σ κ G) (target : ℕ) (payload result : G) :
    List κ → G → σ → σ → Prop
  | leaf {acc a b} (h : acc+d.leaf a-d.leaf b=result) : Issued d target payload result [] acc a b
  | level {k ks acc a b} (keep : Bool) (hk : target.testBit ks.length=keep)
      (merge : d.step k (!keep) a = d.step k (!keep) b)
      (lose : acc+d.emit k (!keep) a-d.emit k (!keep) b = if keep then payload else 0)
      (rest : Issued d target payload result ks (acc+d.emit k keep a-d.emit k keep b)
        (d.step k keep a) (d.step k keep b)) :
      Issued d target payload result (k::ks) acc a b

section
variable {x y n target : ℕ} {ks : List κ} {a b : σ}

lemma mod_two_pow_succ (x n : ℕ) : x%2^(n+1) = 2^n*(x.testBit n).toNat+x%2^n := by
  rw [Nat.mod_pow_succ,Nat.add_comm,Nat.toNat_testBit]

/-- Over one more bit, the comparison is decided by the top bit where it differs. -/
lemma mod_two_pow_succ_of_ne {b : Bool} (hy : y.testBit n = b) (hx : x.testBit n = !b) :
    (x%2^(n+1)<y%2^(n+1) ↔ b=true) ∧ x%2^(n+1)≠y%2^(n+1) := by
  rw [mod_two_pow_succ x,mod_two_pow_succ y,hx,hy]
  cases b <;> simp <;> omega

lemma mod_two_pow_succ_of_eq (h : x.testBit n = y.testBit n) :
    (x%2^(n+1)<y%2^(n+1) ↔ x%2^n<y%2^n) ∧ (x%2^(n+1)=y%2^(n+1) ↔ x%2^n=y%2^n) := by
  rw [mod_two_pow_succ x,mod_two_pow_succ y,h]
  omega

/-- The two walks differ by a comparison of the input with the target. -/
lemma Issued.eval_sub_eval {d : Descent σ κ G} {payload result acc : G}
    (h : d.Issued target payload result ks acc a b) (input : ℕ) :
    acc+d.eval input ks a-d.eval input ks b =
      if input%2^ks.length<target%2^ks.length then payload
      else if input%2^ks.length=target%2^ks.length then result else 0 := by
  induction h with
  | leaf h => simpa [eval,Nat.mod_one] using h
  | @level k ks acc a b keep hk merge lose rest ih =>
    by_cases hx : input.testBit ks.length=keep
    · obtain ⟨hlt,heq⟩ := mod_two_pow_succ_of_eq (hx.trans hk.symm)
      simp only [List.length_cons,hlt,heq,← ih,eval,hx]
      abel
    · have hne : input.testBit ks.length = !keep := by grind
      obtain ⟨hlt,heq⟩ := mod_two_pow_succ_of_ne hk hne
      simp only [List.length_cons,hlt,heq,if_false,← lose,eval,hne,merge]
      abel

/-- Shares of a bit: the two walks over words issued for bit outputs. -/
lemma Issued.eval_xor_eval {d : Descent σ κ Bool} {payload result acc : Bool} (h : d.Issued target
    payload result ks acc a b) {input : ℕ} (hn : ks.length=n) (hi : input<2^n) (ht : target<2^n) :
    (acc ^^ d.eval input ks a ^^ d.eval input ks b) =
      if input<target then payload else if input=target then result else false := by
  have he := h.eval_sub_eval input
  rw [hn,Nat.mod_eq_of_lt hi,Nat.mod_eq_of_lt ht] at he
  exact he

end

end Descent

/-- A generator of two child states with a one-bit control on each state. -/
structure Expander (σ : Type*) [XorOp σ] where
  child : σ → Bool → σ
  control : σ → Bool
  control_xor : ∀ a b, control (a ^^^ b) = (control a ^^ control b)

namespace Expander
variable {σ : Type*} [XorOp σ]

/-- The correction word for a pair whose path continues with `keep`. -/
structure Corrects (e : Expander σ) (keep : Bool) (word : Bool → σ) (a b : σ) : Prop where
  lose : word (!keep) = e.child a (!keep) ^^^ e.child b (!keep)
  keep : e.control (word keep) = !(e.control (e.child a keep) ^^ e.control (e.child b keep))

variable [Zero σ]

/-- A child, corrected when the control bit of its parent is set. -/
def step (e : Expander σ) (word : Bool → σ) (branch : Bool) (s : σ) : σ :=
  e.child s branch ^^^ (if e.control s then word branch else 0)

variable [LawfulXor σ] {e : Expander σ} {keep : Bool} {word : Bool → σ} {a b : σ}

/-- Exactly one of two complementary states applies a correction. -/
lemma step_xor_step (word : Bool → σ) (h : e.control b = !e.control a) (branch : Bool) : e.step word
    branch a ^^^ e.step word branch b = e.child a branch ^^^ e.child b branch ^^^ word branch := by
  have hc := xor_comm (word branch) (e.child b branch)
  unfold step
  cases ha : e.control a <;> simp [h,ha,xor_assoc,hc]

variable (hc : e.Corrects keep word a b) (h : e.control b = !e.control a)
include hc h

lemma Corrects.merge : e.step word (!keep) a = e.step word (!keep) b := by
  have hx := step_xor_step word h (!keep)
  rwa [hc.lose,LawfulXor.xor_self,xor_eq_zero_iff] at hx

/-- Along the path the two control bits stay complementary. -/
lemma Corrects.complementary :
    e.control (e.step word keep b) = !e.control (e.step word keep a) := by
  have hx := congrArg e.control (step_xor_step word h keep)
  simp only [e.control_xor,hc.keep] at hx
  revert hx
  cases e.control (e.step word keep a) <;> cases e.control (e.step word keep b) <;> simp

end Expander

open List

/-- A list in which one place is unknown. -/
def puncture {α : Type*} (l : List α) (m : ℕ) : List (Option α) := (l.map some).set m none

/-- The two halves of a list, place by place. -/
def foldHalves {α : Type*} [XorOp α] (l : List α) : List α :=
  List.zipWith (· ^^^ ·) (l.take (l.length/2)) (l.drop (l.length/2))

lemma length_foldHalves {α : Type*} [XorOp α] {l : List α} {n : ℕ} (h : l.length=2*n) :
    (foldHalves l).length = n := by
  rw [foldHalves,length_zipWith,length_take,length_drop]
  omega

section
variable {α : Type*} [XorOp α] [Zero α]

/-- The exclusive-or of the entries at the chosen places. -/
def xorAt : (ℕ → Bool) → List α → α
  | _, [] => 0
  | w, a::as => (if w 0 then a else 0) ^^^ xorAt (fun i => w (i+1)) as

variable [LawfulXor α]

variable (w : ℕ → Bool) (d : α) {l : List α} {m : ℕ}

/-- An offset at one place. -/
lemma xorAt_modify (h : m<l.length) :
    xorAt w (l.modify m (· ^^^ d)) = xorAt w l ^^^ (if w m then d else 0) := by
  induction l generalizing w m with
  | nil => exact absurd h (Nat.not_lt_zero m)
  | cons a l ih =>
    cases m with
    | zero =>
      rw [modify_zero_cons,xorAt,xorAt]
      cases w 0
      · simp
      · simp only [if_true]
        rw [xor_assoc,xor_comm d,xor_assoc]
    | succ m =>
      rw [modify_succ_cons,xorAt,xorAt,ih _ (by simpa using h),xor_assoc]

/-- A place left out. -/
lemma xorAt_set_zero (h : m<l.length) :
    xorAt w (l.set m 0) = xorAt w l ^^^ (if w m then l.getD m 0 else 0) := by
  induction l generalizing w m with
  | nil => exact absurd h (Nat.not_lt_zero m)
  | cons a l ih =>
    cases m with
    | zero =>
      rw [set_cons_zero,xorAt,xorAt,getD_cons_zero]
      cases w 0
      · simp
      · simp only [if_true,zero_xor]
        rw [xor_comm a,xor_cancel_right]
    | succ m =>
      rw [set_cons_succ,xorAt,xorAt,ih _ (by simpa using h),getD_cons_succ,xor_assoc]

/-- A loop that adds up the entries at the chosen places. -/
lemma foldl_zipIdx_xor (l : List α) (k : ℕ) (s : α) :
    (l.zipIdx k).foldl (fun s p => if w p.2 then s ^^^ p.1 else s) s
      = s ^^^ xorAt (fun i => w (k+i)) l := by
  induction l generalizing k s with
  | nil => exact (xor_zero s).symm
  | cons a l ih =>
    rw [zipIdx_cons,foldl_cons,ih,xorAt]
    have hshf : (fun i => w (k+1+i))=fun i => w (k+(i+1)) :=
      funext fun i => congrArg w (by omega)
    rw [hshf]
    cases hw : w k
    · simp
    · simp [xor_assoc]

lemma foldl_xor (l : List α) (s : α) : l.foldl (· ^^^ ·) s = s ^^^ xorAt (fun _ => true) l := by
  induction l generalizing s with
  | nil => exact (xor_zero s).symm
  | cons a l ih =>
    rw [foldl_cons,ih,xorAt,if_pos rfl,xor_assoc]

/-- The offset folds to the place modulo the half. -/
lemma foldHalves_modify {n m : ℕ} (h : l.length=2*n) (hm : m<2*n) (d : α) :
    foldHalves (l.modify m (· ^^^ d)) = (foldHalves l).modify (m%n) (· ^^^ d) := by
  have hhalf : l.length/2=n := by omega
  apply ext_getElem?
  intro i
  simp only [foldHalves,length_modify,hhalf,getElem?_zipWith,getElem?_modify,
    getElem?_take,getElem?_drop]
  by_cases hi : i<n
  · have hlow : i<l.length := by omega
    have hhigh : n+i<l.length := by omega
    simp only [if_pos hi,getElem?_eq_getElem hlow,getElem?_eq_getElem hhigh,
      Option.map_eq_map,Option.map_some]
    by_cases hmn : m<n
    · have hne : m≠n+i := by omega
      rw [Nat.mod_eq_of_lt hmn]
      by_cases hmi : m=i
      · simp only [hmi,if_true]
        rw [if_neg (by omega)]
        rw [xor_assoc,xor_comm d,←xor_assoc]
      · simp [hmi,hne]
    · have hmod : m%n=m-n := by rw [Nat.mod_eq_sub_mod (by omega),Nat.mod_eq_of_lt (by omega)]
      have hne : m≠i := by omega
      rw [hmod]
      by_cases hmi : m=n+i
      · simp only [hmi,Nat.add_sub_cancel_left,if_true]
        rw [if_neg (by omega)]
        rw [xor_assoc]
      · have hsub : m-n≠i := by omega
        simp [hmi,hne,hsub]
  · simp [hi]

end

end Pllm.Lib
