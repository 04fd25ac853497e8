import Mathlib

/-! The bitonic sorting network in its loop form: pairs at distance `2^t`, each ordered in the
direction a higher bit of its position asks for. The network is proved on Boolean inputs and carried
to lists with a numeric key by thresholds. -/
namespace Pllm.Lib.Network
open Nat List
open Bool (false_xor true_xor)

/-- Flipping bit `t` moves a position up when the bit is clear, and down otherwise. -/
lemma xor_two_pow (i t : ℕ) : i ^^^ 2^t = if i/2^t%2=0 then i+2^t else i-2^t := by
  have hpos := Nat.two_pow_pos t
  have hdiv : (i ^^^ 2^t)/2^t=i/2^t ^^^ 1 := by
    rw [xor_div_two_pow,Nat.div_self hpos]
  have hmod : (i ^^^ 2^t)%2^t=i%2^t := by
    rw [xor_mod_two_pow,mod_self,xor_zero]
  have hone : i/2^t ^^^ 1=if i/2^t%2=0 then i/2^t+1 else i/2^t-1 := by
    split_ifs with h
    · exact xor_one_of_even (even_iff.mpr h)
    · exact xor_one_of_odd (odd_iff.mpr (by omega))
  have hout := div_add_mod (i ^^^ 2^t) (2^t)
  have hin := div_add_mod i (2^t)
  rw [hdiv,hone] at hout
  split_ifs at hout ⊢ with h
  · rw [mul_add] at hout
    omega
  · have hge : 1 ≤ i/2^t := one_le_iff_ne_zero.mpr fun h0 => h (by rw [h0])
    obtain ⟨q,hq⟩ := Nat.exists_eq_add_of_le' hge
    rw [hq,Nat.add_sub_cancel] at hout
    rw [hq,mul_add] at hin
    omega

lemma and_two_pow_eq_zero (i s : ℕ) : i &&& 2^s = 0 ↔ i/2^s%2=0 := by
  rw [and_two_pow,testBit_eq_decide_div_mod_eq]
  by_cases h : i/2^s%2=1
  · simp [h]
  · simp [h]
    omega

/-- Whether stage `s` orders the pairs at this position upwards. -/
def increasing (up : Bool) (s i : ℕ) : Bool := decide (i &&& 2^s = 0)==up

/-- One pass over the pairs at distance `2^t`, on Boolean entries. -/
def pass (up : Bool) (s t : ℕ) (f : ℕ → Bool) (i : ℕ) : Bool :=
  if decide (i < i ^^^ 2^t)=increasing up s i then f i && f (i ^^^ 2^t)
  else f i || f (i ^^^ 2^t)

/-- The passes at distances `2^(t-1)` down to one. -/
def merge (up : Bool) (s : ℕ) : ℕ → (ℕ → Bool) → ℕ → Bool
  | 0, f => f
  | t+1, f => merge up s t (pass up s t f)

def network (up : Bool) : ℕ → (ℕ → Bool) → ℕ → Bool
  | 0, f => f
  | s+1, f => merge up (s+1) (s+1) (network up s f)

/-- Once an entry of the block is `up`, all later ones are. -/
def Sorted (up : Bool) (f : ℕ → Bool) (start n : ℕ) : Prop :=
  ∀ i j, i≤j → j<n → f (start+i) = up → f (start+j) = up

/-- The block is constant but for one interval. -/
def Bitonic (f : ℕ → Bool) (start n : ℕ) : Prop :=
  ∃ v l u, l ≤ u ∧ u≤n ∧ ∀ i<n, f (start+i) = (v ^^ decide (l ≤ i ∧ i < u))

def Const (v : Bool) (f : ℕ → Bool) (start n : ℕ) : Prop := ∀ i<n, f (start+i) = v

variable {f g : ℕ → Bool} {v : Bool} {i left start n : ℕ} {up : Bool}

lemma Sorted.interval (h : Sorted up f start n) :
    ∃ u≤n, ∀ i<n, f (start+i) = (up ^^ decide (i < u)) := by
  induction n with
  | zero => exact ⟨0,le_rfl,fun i hi => absurd hi (Nat.not_lt_zero i)⟩
  | succ n ih =>
    obtain ⟨u,hu,hf⟩ := ih fun i j hij hj => h i j hij (lt_succ_of_lt hj)
    by_cases hlast : f (start+n)=up
    · refine ⟨u,by omega,fun i hi => ?_⟩
      obtain hi | rfl := Nat.lt_succ_iff_lt_or_eq.mp hi
      · exact hf i hi
      · rw [hlast,decide_eq_false (by omega),Bool.xor_false]
    · refine ⟨n+1,le_rfl,fun i hi => ?_⟩
      have hne : f (start+i) ≠ up := fun heq => hlast (h i n (by omega) (by omega) heq)
      rw [decide_eq_true hi]
      revert hne
      cases f (start+i) <;> cases up <;> simp

/-- Two halves sorted in opposite directions. -/
lemma bitonic_of_sorted (hlow : Sorted up f start n)
    (hhigh : Sorted (!up) f (start+n) n) : Bitonic f start (2*n) := by
  obtain ⟨l,hl,hf⟩ := hlow.interval
  obtain ⟨u,hu,hg⟩ := hhigh.interval
  refine ⟨!up,l,n+u,by omega,by omega,fun i hi => ?_⟩
  by_cases hin : i<n
  · rw [hf i hin]
    by_cases hli : i<l
    · rw [decide_eq_true hli,decide_eq_false (by omega)]
      simp
    · rw [decide_eq_false hli,decide_eq_true (by omega)]
      simp
  · obtain ⟨j,rfl⟩ := Nat.exists_eq_add_of_le (le_of_not_gt hin)
    rw [← add_assoc,hg j (by omega)]
    congr 1
    exact decide_eq_decide.mpr (by omega)

/-- The meet and the join of an interval's two halves, one of which is constant. -/
lemma interval_half {l u : ℕ} (hlu : l ≤ u) (hu : u≤2*n) {a b : ℕ → Bool}
    (ha : ∀ i<n, a i = decide (l ≤ i ∧ i < u)) (hb : ∀ i<n, b i = decide (l≤n+i ∧ n+i < u)) :
    Bitonic (fun i => a i && b i) 0 n ∧ Bitonic (fun i => a i || b i) 0 n ∧
      (Const false (fun i => a i && b i) 0 n ∨ Const true (fun i => a i || b i) 0 n) := by
  have hmeet : ∀ i<n, (a i && b i)=decide ((l ≤ i ∧ i < u) ∧ (l≤n+i ∧ n+i < u)) :=
    fun i hi => by rw [ha i hi,hb i hi]; exact (Bool.decide_and _ _).symm
  have hjoin : ∀ i<n, (a i || b i)=decide ((l ≤ i ∧ i < u) ∨ (l≤n+i ∧ n+i < u)) :=
    fun i hi => by rw [ha i hi,hb i hi]; exact (Bool.decide_or _ _).symm
  simp only [Bitonic,Const,zero_add]
  by_cases apart : u≤n ∨ n≤l ∨ n≤u ∧ u-n≤l ∧ l≤n
  · have none (i : ℕ) (hi : i < n) : (a i && b i)=false := by
      rw [hmeet i hi]
      exact decide_eq_false (by omega)
    refine ⟨⟨false,0,0,le_rfl,zero_le n,fun i hi => by simp [none i hi]⟩,?_,.inl none⟩
    obtain hlow | hhigh | ⟨hle,hgap,hln⟩ := apart
    · refine ⟨false,l,u,hlu,hlow,fun i hi => ?_⟩
      rw [hjoin i hi,false_xor]
      exact decide_eq_decide.mpr (by omega)
    · refine ⟨false,l-n,u-n,by omega,by omega,fun i hi => ?_⟩
      rw [hjoin i hi,false_xor]
      exact decide_eq_decide.mpr (by omega)
    · refine ⟨true,u-n,l,hgap,hln,fun i hi => ?_⟩
      rw [hjoin i hi,true_xor,← decide_not]
      exact decide_eq_decide.mpr (by omega)
  · refine ⟨⟨false,l,u-n,by omega,by omega,fun i hi => ?_⟩,
      ⟨true,0,0,le_rfl,zero_le n,fun i hi => ?_⟩,.inr fun i hi => ?_⟩
    · rw [hmeet i hi,false_xor]
      exact decide_eq_decide.mpr (by omega)
    · rw [hjoin i hi,true_xor,← decide_not]
      exact decide_eq_decide.mpr (by omega)
    · rw [hjoin i hi]
      exact decide_eq_true (by omega)

lemma Bitonic.not (h : Bitonic f start n) : Bitonic (fun i => !f i) start n := by
  obtain ⟨v,l,u,hlu,hu,hf⟩ := h
  exact ⟨!v,l,u,hlu,hu,fun i hi => (congrArg (! ·) (hf i hi)).trans (Bool.not_xor ..).symm⟩

lemma Bitonic.congr {start' : ℕ} (h : Bitonic f start n)
    (hfg : ∀ i<n, g (start'+i) = f (start+i)) : Bitonic g start' n := by
  obtain ⟨v,l,u,hlu,hu,hf⟩ := h
  exact ⟨v,l,u,hlu,hu,fun i hi => by rw [hfg i hi,hf i hi]⟩

lemma Const.congr {start' : ℕ} (h : Const v f start n)
    (hfg : ∀ i<n, g (start'+i) = f (start+i)) : Const v g start' n :=
  fun i hi => (hfg i hi).trans (h i hi)

/-- The half-cleaner: of the pairwise meets and joins of a bitonic block one side is constant, and
both are bitonic. -/
lemma Bitonic.half (h : Bitonic f start (2*n)) :
    let lo := fun i => f (start+i) && f (start+n+i)
    let hi := fun i => f (start+i) || f (start+n+i)
    Bitonic lo 0 n ∧ Bitonic hi 0 n ∧ (Const false lo 0 n ∨ Const true hi 0 n) := by
  obtain ⟨v,l,u,hlu,hu,hf⟩ := h
  cases v with
  | false =>
    exact interval_half hlu hu (a := fun i => f (start+i)) (b := fun i => f (start+n+i))
      (fun i hi => by rw [hf i (by omega),false_xor])
      (fun i hi => by rw [add_assoc,hf (n+i) (by omega),false_xor])
  | true =>
    -- complementing exchanges meets and joins
    obtain ⟨hlo,hhi,hcon⟩ := interval_half hlu hu (a := fun i => !f (start+i))
      (b := fun i => !f (start+n+i))
      (fun i hi => by rw [hf i (by omega),Bool.true_xor,Bool.not_not])
      (fun i hi => by rw [add_assoc,hf (n+i) (by omega),Bool.true_xor,Bool.not_not])
    refine ⟨hhi.not.congr fun i _ => by simp,hlo.not.congr fun i _ => by simp,?_⟩
    obtain hcon | hcon := hcon
    · refine .inr fun i hi => ?_
      have hi' := hcon i hi
      revert hi'
      simp only [zero_add]
      cases f (start+i) <;> cases f (start+n+i) <;> simp
    · refine .inl fun i hi => ?_
      have hi' := hcon i hi
      revert hi'
      simp only [zero_add]
      cases f (start+i) <;> cases f (start+n+i) <;> simp

section
variable {up : Bool} {s t start : ℕ}

/-- The direction is constant on an aligned block. -/
lemma increasing_add (hts : t ≤ s) (hst : 2^t ∣ start) (hi : i<2^t) :
    increasing up s (start+i) = increasing up s start := by
  have hdiv : (start+i)/2^s=start/2^s := by
    obtain ⟨q,rfl⟩ := hst
    obtain ⟨r,rfl⟩ := Nat.exists_eq_add_of_le hts
    have hpos := Nat.two_pow_pos t
    rw [pow_add,← Nat.div_div_eq_div_mul,← Nat.div_div_eq_div_mul,mul_add_div hpos,
      div_eq_of_lt hi,add_zero,Nat.mul_div_cancel_left _ hpos]
  simp only [increasing,and_two_pow_eq_zero,hdiv]

/-- The partner of a position in the lower half of an aligned pair of blocks. -/
lemma partner_low (hst : 2^(t+1) ∣ start) (hi : i<2^t) : (start+i) ^^^ 2^t = start+2^t+i := by
  obtain ⟨q,rfl⟩ := hst
  have hpos := Nat.two_pow_pos t
  have hdiv : (2^(t+1)*q+i)/2^t=2*q := by
    rw [pow_succ,mul_assoc,mul_add_div hpos,div_eq_of_lt hi,add_zero]
  rw [xor_two_pow,if_pos (by omega)]
  omega

lemma partner_high (hst : 2^(t+1) ∣ start) (hi : i<2^t) : (start+2^t+i) ^^^ 2^t = start+i := by
  rw [← partner_low hst hi,Nat.xor_assoc,Nat.xor_self,xor_zero]

variable (up) in
lemma pass_low (hst : 2^(t+1) ∣ start) (hts : t < s) (f : ℕ → Bool) (hi : i<2^t) :
    pass up s t f (start+i) = if increasing up s start then f (start+i) && f (start+2^t+i)
      else f (start+i) || f (start+2^t+i) := by
  have hlt : i<2^(t+1) := by
    rw [pow_succ]
    omega
  have hpos := Nat.two_pow_pos t
  rw [pass,partner_low hst hi,increasing_add hts hst hlt,decide_eq_true (by omega)]
  cases increasing up s start <;> rfl

variable (up) in
lemma pass_high (hst : 2^(t+1) ∣ start) (hts : t < s) (f : ℕ → Bool) (hi : i<2^t) :
    pass up s t f (start+2^t+i) = if increasing up s start then f (start+i) || f (start+2^t+i)
      else f (start+i) && f (start+2^t+i) := by
  have hlt : 2^t+i<2^(t+1) := by
    rw [pow_succ]
    omega
  have hpos := Nat.two_pow_pos t
  rw [pass,partner_high hst hi,add_assoc,increasing_add hts hst hlt,
    decide_eq_false (by omega),Bool.or_comm,Bool.and_comm]
  cases increasing up s start <;> rfl

variable (up) in
/-- After one pass both halves of a bitonic block are bitonic, and the half that comes first in the
wanted order is constantly low or the other constantly high. -/
lemma pass_half (hst : 2^(t+1) ∣ start) (hts : t < s)
    (h : Bitonic f start (2^(t+1))) :
    let g := pass up s t f
    Bitonic g start (2^t) ∧ Bitonic g (start+2^t) (2^t) ∧
      (Const (!increasing up s start) g start (2^t) ∨
        Const (increasing up s start) g (start+2^t) (2^t)) := by
  rw [pow_succ,mul_comm] at h
  obtain ⟨hlo,hhi,hcon⟩ := h.half
  have hlow := fun i (hi : i<2^t) => pass_low up hst hts f hi
  have hhigh := fun i (hi : i<2^t) => pass_high up hst hts f hi
  cases hdir : increasing up s start with
  | true =>
    simp only [hdir,if_true] at hlow hhigh
    refine ⟨hlo.congr fun i hi => ?_,hhi.congr fun i hi => ?_,hcon.imp
      (fun hc => hc.congr fun i hi => ?_) (fun hc => hc.congr fun i hi => ?_)⟩
    · rw [hlow i hi,zero_add]
    · rw [hhigh i hi,zero_add]
    · rw [hlow i hi,zero_add]
    · rw [hhigh i hi,zero_add]
  | false =>
    simp only [hdir,Bool.false_eq_true,if_false] at hlow hhigh
    refine ⟨hhi.congr fun i hi => ?_,hlo.congr fun i hi => ?_,hcon.symm.imp
      (fun hc => hc.congr fun i hi => ?_) (fun hc => hc.congr fun i hi => ?_)⟩
    · rw [hlow i hi,zero_add]
    · rw [hhigh i hi,zero_add]
    · rw [hlow i hi,zero_add]
    · rw [hhigh i hi,zero_add]

variable (up) in
lemma pass_const (hst : 2^(t+1) ∣ start) (hts : t < s) (h : Const v f start (2^(t+1))) :
    Const v (pass up s t f) start (2^t) ∧ Const v (pass up s t f) (start+2^t) (2^t) := by
  have hpow : 2^(t+1)=2^t+2^t := by
    rw [pow_succ]
    omega
  refine ⟨fun i hi => ?_,fun i hi => ?_⟩
  · rw [pass_low up hst hts f hi,add_assoc,h i (by omega),h (2^t+i) (by omega)]
    simp
  · rw [pass_high up hst hts f hi,add_assoc,h i (by omega),h (2^t+i) (by omega)]
    simp

/-- Two sorted halves with a constant one at the right end. -/
lemma Sorted.glue (hlow : Sorted up f start n) (hhigh : Sorted up f (start+n) n)
    (hcon : Const (!up) f start n ∨ Const up f (start+n) n) : Sorted up f start (2*n) := by
  intro i j hij hj hi
  by_cases hin : i<n
  · by_cases hjn : j<n
    · exact hlow i j hij hjn hi
    · obtain ⟨k,rfl⟩ := Nat.exists_eq_add_of_le (le_of_not_gt hjn)
      obtain hcon | hcon := hcon
      · have hne := hcon i hin
        rw [hi] at hne
        cases up <;> simp at hne
      · rw [← add_assoc]
        exact hcon k (by omega)
  · obtain ⟨k,rfl⟩ := Nat.exists_eq_add_of_le (le_of_not_gt hin)
    obtain ⟨l,rfl⟩ := Nat.exists_eq_add_of_le (Nat.le_trans (le_of_not_gt hin) hij)
    rw [← add_assoc] at hi ⊢
    exact hhigh k l (by omega) (by omega) hi

/-- Merging sorts every aligned bitonic block in its direction, and leaves a constant one alone. -/
lemma merge_sorted (hts : t ≤ s) (hst : 2^t ∣ start) :
    (Bitonic f start (2^t) → Sorted (increasing up s start) (merge up s t f) start (2^t)) ∧
      ∀ v, Const v f start (2^t) → Const v (merge up s t f) start (2^t) := by
  induction t generalizing start f with
  | zero =>
    refine ⟨fun _ i j hij hj hi => ?_,fun v h => h⟩
    have heq : i=j := by omega
    exact heq ▸ hi
  | succ t ih =>
    have hlow : 2^t ∣ start := (pow_dvd_pow 2 (le_succ t)).trans hst
    have hhigh : 2^t ∣ start+2^t := (Nat.dvd_add_right hlow).mpr dvd_rfl
    have hdir : increasing up s (start+2^t)=increasing up s start :=
      increasing_add hts hst (Nat.pow_lt_pow_right (by decide) (lt_succ_self t))
    obtain ⟨hsort,hconstlow⟩ := ih (f := pass up s t f) (le_of_succ_le hts) hlow
    obtain ⟨hsor,hcons⟩ := ih (f := pass up s t f) (le_of_succ_le hts) hhigh
    rw [hdir] at hsor
    refine ⟨fun h => ?_,fun v h => ?_⟩
    · obtain ⟨hbl,hbh,hcon⟩ := pass_half up hst hts h
      rw [pow_succ,mul_comm]
      exact (hsort hbl).glue (hsor hbh)
        (hcon.imp (hconstlow _) (hcons _))
    · obtain ⟨hcl,hch⟩ := pass_const up hst hts h
      have hl := hconstlow v hcl
      have hh := hcons v hch
      intro i hi
      by_cases hin : i<2^t
      · exact hl i hin
      · obtain ⟨j,rfl⟩ := Nat.exists_eq_add_of_le (le_of_not_gt hin)
        rw [← add_assoc]
        exact hh j (by omega)

variable (up) in
/-- After stage `s` every aligned block of `2^s` entries is sorted in its direction. -/
lemma network_sorted (hst : 2^s ∣ start) (f : ℕ → Bool) :
    Sorted (increasing up s start) (network up s f) start (2^s) := by
  induction s generalizing start with
  | zero =>
    intro i j hij hj hi
    have heq : i=j := by omega
    exact heq ▸ hi
  | succ s ih =>
    have hlow : 2^s ∣ start := (pow_dvd_pow 2 (le_succ s)).trans hst
    have hhigh : 2^s ∣ start+2^s := (Nat.dvd_add_right hlow).mpr dvd_rfl
    have hflip : increasing up s (start+2^s) = !increasing up s start := by
      obtain ⟨q,rfl⟩ := hst
      have hpos := Nat.two_pow_pos s
      have hdiv : 2^(s+1)*q/2^s=2*q := by
        rw [pow_succ,mul_assoc,Nat.mul_div_cancel_left _ hpos]
      simp only [increasing,and_two_pow_eq_zero,add_div_right _ hpos,hdiv]
      rw [decide_eq_false (by omega),decide_eq_true (by omega)]
      cases up <;> rfl
    have hbit : Bitonic (network up s f) start (2^(s+1)) := by
      rw [pow_succ,mul_comm]
      exact bitonic_of_sorted (ih hlow) (hflip ▸ ih hhigh)
    exact (merge_sorted le_rfl hst).1 hbit

end

section
variable {α : Type*} (key : α → ℕ) (d : α) (up : Bool)

/-- Exchange a position with its partner when their keys are out of order. -/
def exchange (s t : ℕ) (xs : List α) (left : ℕ) : List α :=
  let right := left ^^^ 2^t
  let x := xs.getD left d
  let y := xs.getD right d
  if right≤left then xs
  else if if increasing up s left then key y < key x else key x < key y then
    (xs.set left y).set right x
  else xs

def sortPass (s t : ℕ) (xs : List α) : List α :=
  (List.range xs.length).foldl (exchange key d up s t) xs

def sortMerge (s : ℕ) : ℕ → List α → List α
  | 0, xs => xs
  | t+1, xs => sortMerge s t (sortPass key d up s t xs)

def sortNetwork : ℕ → List α → List α
  | 0, xs => xs
  | s+1, xs => sortMerge key d up (s+1) (s+1) (sortNetwork s xs)

variable {key d up} {s t : ℕ}

lemma increasing_partner (hts : t < s) (i : ℕ) :
    increasing up s (i ^^^ 2^t) = increasing up s i := by
  have hzero : 2^t/2^s=0 := div_eq_of_lt (Nat.pow_lt_pow_right (by decide) hts)
  simp only [increasing,and_two_pow_eq_zero,xor_div_two_pow,hzero,xor_zero]

lemma partner_ne (i : ℕ) : i ^^^ 2^t ≠ i := by
  have hpos := Nat.two_pow_pos t
  rw [xor_two_pow]
  split_ifs with h
  · omega
  · have hge : 2^t ≤ i := by
      by_contra hlt
      rw [div_eq_of_lt (by omega)] at h
      exact h rfl
    omega

variable {xs : List α} {k : ℕ}

lemma exchange_perm {left : ℕ} (hlen : xs.length=2^k) (ht : t<k)
    (hleft : left<2^k) : (exchange key d up s t xs left).Perm xs := by
  have hrt : left ^^^ 2^t < xs.length :=
    hlen ▸ xor_lt_two_pow hleft (Nat.pow_lt_pow_right (by decide) ht)
  have hleft : left<xs.length := hlen.symm ▸ hleft
  have hswap : ((xs.set left (xs.getD (left ^^^ 2^t) d)).set (left ^^^ 2^t)
      (xs.getD left d)).Perm xs := by
    rw [getD_eq_getElem _ _ hleft,getD_eq_getElem _ _ hrt]
    exact set_set_perm hleft hrt
  simp only [exchange]
  split_ifs
  · rfl
  all_goals first | exact hswap | rfl

variable (key up) in
lemma foldl_exchange_perm {m : ℕ} (hlen : xs.length=2^k) (ht : t<k)
    (hm : m≤2^k) : ((range m).foldl (exchange key d up s t) xs).Perm xs := by
  induction m with
  | zero => rfl
  | succ m ih =>
    have hprev := ih (le_of_succ_le hm)
    rw [range_succ,foldl_append]
    exact (exchange_perm (hprev.length_eq.trans hlen) ht hm).trans hprev

variable (key up) in
lemma sortPass_perm (hlen : xs.length=2^k) (ht : t<k) :
    (sortPass key d up s t xs).Perm xs := foldl_exchange_perm key up hlen ht hlen.le

lemma sortMerge_perm (hlen : xs.length=2^k) (ht : t≤k) : (sortMerge key d up s t xs).Perm xs := by
  induction t generalizing xs with
  | zero => rfl
  | succ t ih =>
    have hpass := sortPass_perm key up (d := d) (s := s) hlen ht
    exact (ih (hpass.length_eq.trans hlen) (le_of_succ_le ht)).trans hpass

variable (key up) in
lemma sortNetwork_perm (hlen : xs.length=2^k) (hs : s≤k) : (sortNetwork key d up s xs).Perm xs := by
  induction s with
  | zero => rfl
  | succ s ih =>
    have hprev := ih (le_of_succ_le hs)
    exact (sortMerge_perm (hprev.length_eq.trans hlen) hs).trans hprev

/-- Which entries reach a threshold. -/
def reach (key : α → ℕ) (d : α) (c : ℕ) (xs : List α) (i : ℕ) : Bool :=
  decide (c ≤ key (xs.getD i d))

variable (key up) in
/-- Of a pair out of place each position gets the key its stage asks for. -/
lemma key_exchange (hrt : left ^^^ 2^t < xs.length) (hlt : left < left ^^^ 2^t) (i : ℕ) :
    let x := key (xs.getD left d)
    let y := key (xs.getD (left ^^^ 2^t) d)
    key ((exchange key d up s t xs left).getD i d) =
      if i=left then if increasing up s left then min x y else max x y
      else if i=left ^^^ 2^t then if increasing up s left then max x y else min x y
      else key (xs.getD i d) := by
  have hleft : left<xs.length := hlt.trans hrt
  have hswap : ((xs.set left (xs.getD (left ^^^ 2^t) d)).set (left ^^^ 2^t)
      (xs.getD left d)).getD i d = if i=left then xs.getD (left ^^^ 2^t) d
        else if i=left ^^^ 2^t then xs.getD left d else xs.getD i d := by
    by_cases hi : i=left
    · subst hi
      simp [getD_eq_getElem?_getD,hleft,hlt.ne']
    · by_cases hi' : i=left ^^^ 2^t
      · rw [if_neg hi,if_pos hi',hi']
        simp [getD_eq_getElem?_getD,hrt]
      · rw [if_neg hi,if_neg hi']
        simp [getD_eq_getElem?_getD,Ne.symm hi,Ne.symm hi']
  intro x y
  simp only [exchange,if_neg hlt.not_ge]
  cases increasing up s left with
  | true =>
    simp only [if_true]
    by_cases hyx : y<x
    · rw [if_pos hyx,hswap]
      split_ifs
      · exact (min_eq_right hyx.le).symm
      · exact (max_eq_left hyx.le).symm
      · rfl
    · rw [if_neg hyx]
      split_ifs with h h'
      · rw [h]
        exact (min_eq_left (le_of_not_gt hyx)).symm
      · rw [h']
        exact (max_eq_right (le_of_not_gt hyx)).symm
      · rfl
  | false =>
    simp only [Bool.false_eq_true,if_false]
    by_cases hxy : x<y
    · rw [if_pos hxy,hswap]
      split_ifs
      · exact (max_eq_right hxy.le).symm
      · exact (min_eq_left hxy.le).symm
      · rfl
    · rw [if_neg hxy]
      split_ifs with h h'
      · rw [h]
        exact (max_eq_left (le_of_not_gt hxy)).symm
      · rw [h']
        exact (min_eq_right (le_of_not_gt hxy)).symm
      · rfl

lemma decide_le_min (c x y : ℕ) : decide (c ≤ min x y) = (decide (c≤x) && decide (c≤y)) :=
  (decide_eq_decide.mpr le_min_iff).trans (Bool.decide_and _ _)

lemma decide_le_max (c x y : ℕ) : decide (c ≤ max x y) = (decide (c≤x) || decide (c≤y)) :=
  (decide_eq_decide.mpr le_max_iff).trans (Bool.decide_or _ _)

lemma reach_exchange (hrt : left ^^^ 2^t < xs.length)
    (hlt : left < left ^^^ 2^t) (hts : t < s) (c i : ℕ) :
    reach key d c (exchange key d up s t xs left) i =
      if i=left ∨ i=left ^^^ 2^t then pass up s t (reach key d c xs) i
      else reach key d c xs i := by
  have hkey := key_exchange key up (d := d) (s := s) hrt hlt i
  rw [reach,hkey]
  by_cases hi : i=left
  · have hpair : i=left ∨ i=left ^^^ 2^t := .inl hi
    rw [if_pos hi,if_pos hpair,hi,pass,decide_eq_true hlt]
    cases increasing up s left with
    | true => exact decide_le_min c _ _
    | false => exact decide_le_max c _ _
  · by_cases hi' : i=left ^^^ 2^t
    · have hpair : i=left ∨ i=left ^^^ 2^t := .inr hi'
      rw [if_neg hi,if_pos hi',if_pos hpair,hi',pass,xor_xor_cancel_right,
        decide_eq_false hlt.not_gt,increasing_partner hts]
      cases increasing up s left with
      | true => exact (decide_le_max c _ _).trans (Bool.or_comm _ _)
      | false => exact (decide_le_min c _ _).trans (Bool.and_comm _ _)
    · rw [if_neg hi,if_neg hi',if_neg (not_or.mpr ⟨hi,hi'⟩),reach]

/-- The pairs below a position are done, the others untouched. -/
lemma reach_foldl {m : ℕ} (hlen : xs.length=2^k) (ht : t<k) (hts : t < s) (hm : m≤2^k) (c i : ℕ) :
    reach key d c ((range m).foldl (exchange key d up s t) xs) i =
      if min i (i ^^^ 2^t) < m then pass up s t (reach key d c xs) i else reach key d c xs i := by
  induction m generalizing i with
  | zero => rfl
  | succ m ih =>
    have hprev := ih (le_of_succ_le hm)
    have hmlen := (foldl_exchange_perm key up (d := d) (s := s) hlen ht
      (le_of_succ_le hm)).length_eq.trans hlen
    rw [range_succ,foldl_append,foldl_cons,foldl_nil]
    generalize (range m).foldl (exchange key d up s t) xs=ys at hprev hmlen
    have hne := partner_ne (t := t) m
    have hback := xor_xor_cancel_right m (2^t)
    by_cases hlt : m < m ^^^ 2^t
    · have hrt : m ^^^ 2^t < ys.length :=
        hmlen ▸ xor_lt_two_pow hm (Nat.pow_lt_pow_right (by decide) ht)
      have hsame : ∀ j, j=m ∨ j=m ^^^ 2^t → reach key d c ys j=reach key d c xs j := by
        rintro j (rfl | rfl)
        · rw [hprev,if_neg (by omega)]
        · rw [hprev,if_neg (by omega)]
      rw [reach_exchange hrt hlt hts]
      by_cases hi : i=m ∨ i=m ^^^ 2^t
      · have hi' : i ^^^ 2^t=m ∨ i ^^^ 2^t=m ^^^ 2^t := by
          rcases hi with rfl | rfl
          · exact .inr rfl
          · exact .inl hback
        rw [if_pos hi,if_pos (by rcases hi with rfl | rfl <;> omega),pass,pass,hsame i hi,
          hsame _ hi']
      · have hi' : i ^^^ 2^t ≠ m := fun h => hi (.inr (by rw [← h,xor_xor_cancel_right]))
        rw [if_neg hi,hprev]
        simp only [show min i (i ^^^ 2^t) < m+1 ↔ min i (i ^^^ 2^t) < m by omega]
    · have hnoop : exchange key d up s t ys m=ys := if_pos (le_of_not_gt hlt)
      have hmin : min i (i ^^^ 2^t) ≠ m := by
        rcases lt_trichotomy i m with h | h | h
        · omega
        · subst h
          omega
        · intro heq
          have hpar : i ^^^ 2^t=m := by omega
          have : i=m ^^^ 2^t := by rw [← hpar,xor_xor_cancel_right]
          omega
      rw [hnoop,hprev]
      simp only [show min i (i ^^^ 2^t) < m+1 ↔ min i (i ^^^ 2^t) < m by omega]

/-- Below the length an in-place pass is the pass of the network on the thresholds. -/
lemma reach_sortPass (hlen : xs.length=2^k) (ht : t<k) (hts : t < s) (c : ℕ) (hi : i<2^k) :
    reach key d c (sortPass key d up s t xs) i = pass up s t (reach key d c xs) i := by
  rw [sortPass,reach_foldl hlen ht hts hlen.le,if_pos (by rw [hlen]; omega)]

lemma pass_congr (ht : t<k) (h : ∀ i<2^k, f i = g i)
    (hi : i<2^k) : pass up s t f i = pass up s t g i := by
  rw [pass,pass,h i hi,h _ (xor_lt_two_pow hi (Nat.pow_lt_pow_right (by decide) ht))]

section
variable {xs : List α} {k : ℕ} (hlen : xs.length=2^k)
include hlen

lemma reach_sortMerge (ht : t≤k) (hts : t ≤ s) (c : ℕ) (hf : ∀ i<2^k, reach key d c xs i = f i) :
    ∀ i<2^k, reach key d c (sortMerge key d up s t xs) i = merge up s t f i := by
  induction t generalizing xs f with
  | zero => exact hf
  | succ t ih =>
    have hpass := sortPass_perm key up (d := d) (s := s) hlen ht
    exact ih (hpass.length_eq.trans hlen) (le_of_succ_le ht) (le_of_succ_le hts)
      fun i hi => (reach_sortPass hlen ht hts c hi).trans (pass_congr ht hf hi)

lemma reach_sortNetwork (hs : s≤k) (c : ℕ) :
    ∀ i<2^k, reach key d c (sortNetwork key d up s xs) i = network up s (reach key d c xs) i := by
  induction s with
  | zero => exact fun i _ => rfl
  | succ s ih =>
    have hprev := sortNetwork_perm key up (d := d) hlen (le_of_succ_le hs)
    exact reach_sortMerge (hprev.length_eq.trans hlen) hs le_rfl c (ih (le_of_succ_le hs))

/-- The whole network sorts by key. -/
lemma sortNetwork_sorted :
    (sortNetwork key d up k xs).Pairwise fun a b => if up then key a ≤ key b else key b ≤ key a := by
  have hperm := sortNetwork_perm key up (d := d) hlen le_rfl
  have hdir : increasing up k 0=up := by
    simp only [increasing,zero_and]
    cases up <;> rfl
  have hsrt : ∀ c i j, i≤j → j<2^k →
      reach key d c (sortNetwork key d up k xs) i = up →
        reach key d c (sortNetwork key d up k xs) j = up := by
    intro c i j hij hj hi
    have hnet := network_sorted up (dvd_zero (2^k)) (reach key d c xs)
    rw [hdir] at hnet
    rw [reach_sortNetwork hlen le_rfl c _ (by omega)] at hi
    rw [reach_sortNetwork hlen le_rfl c _ hj]
    simpa only [zero_add] using hnet i j hij hj (by simpa only [zero_add] using hi)
  rw [pairwise_iff_getElem]
  intro i j hi hj hij
  have hj' : j<2^k := hlen ▸ hperm.length_eq ▸ hj
  cases up with
  | true =>
    have hrea := hsrt (key ((sortNetwork key d true k xs)[i])) i j hij.le hj'
    simp only [reach,getD_eq_getElem _ _ hi,getD_eq_getElem _ _ hj] at hrea
    exact of_decide_eq_true (hrea (decide_eq_true le_rfl))
  | false =>
    have hrea := hsrt (key ((sortNetwork key d false k xs)[j])) i j hij.le hj'
    simp only [reach,getD_eq_getElem _ _ hi,getD_eq_getElem _ _ hj] at hrea
    by_contra hlt
    exact absurd (hrea (decide_eq_false (by simpa using hlt))) (by simp)

end

end

end Pllm.Lib.Network
