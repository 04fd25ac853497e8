import Pllm.Garble.ArithmeticCorrect

/-! The bitonic sort as the circuit builder emits it: every exchange draws one comparison and one
masked swap, and the wires it returns carry the records in the order of their keys. -/
namespace Pllm.Retained
open Pllm.Lib Garble Garble.Draft List Draws Nat

/-- The gates of a circuit builder. -/
def circuitGates (iss : Issuer) : Gates Drawing BooleanWire :=
  ⟨iss.constant,iss.xor,iss.not,iss.and⟩

variable {iss : Issuer} {start : BooleanCircuitBuilder} {env : List Bool} {d : Draft}

lemma compareUnsigned_circuit (ls rs : List BooleanWire) :
    compareUnsigned (circuitGates iss) ls rs = iss.compareUnsigned ls rs := by
  simp only [compareUnsigned,Issuer.compareUnsigned,length_eq_zero_iff]
  rfl

/-- Wires that carry the bits of all records. -/
def Carries (env : List Bool) (wires : List (List BooleanWire)) (recs : List (List Bool))
    (d : Draft) : Prop := Forall₂ (d.HasWord env) wires recs

variable {ws : List BooleanWire} {bits : List Bool}

section
variable {wires : List (List BooleanWire)} {recs : List (List Bool)}

section
variable (h : Carries env wires recs d)
include h

lemma Carries.later {e : Draft} {cost : Tally}
    (grown : Grown d e cost) : Carries env wires recs e :=
  h.imp fun _ _ word => HasWord.later word grown

lemma Carries.getD (i : ℕ) : d.HasWord env (wires.getD i []) (recs.getD i []) := by
  induction h generalizing i with
  | nil => exact .nil
  | cons word _ ih => cases i with
    | zero => exact word
    | succ i => exact ih i

lemma Carries.set (word : d.HasWord env ws bits) (i
    : ℕ) : Carries env (wires.set i ws) (recs.set i bits) d := by
  induction h generalizing i with
  | nil => exact .nil
  | cons first rest ih => cases i with
    | zero => exact .cons word rest
    | succ i => exact .cons first (ih i)

end

/-- The key of a record, read from its wires. -/
lemma key_number {key : ℕ × ℕ} (word : d.HasWord env ws bits) (hfit : key.1+key.2 ≤
    bits.length) : HasNumber env (slice ws key.1 key.2) key.2 (keyValue key bits) d :=
  ⟨slice bits key.1 key.2,forall₂_take key.2 (forall₂_drop key.1 word),length_slice hfit,rfl⟩

/-- The masked exchange draws one AND for each bit. -/
lemma draws_moved {swap : BooleanWire} {c : Bool} {ls rs : List BooleanWire} {as bs : List Bool}
    (hs : d.Has env swap c) (hl : d.HasWord env ls as)
    (hr : d.HasWord env rs bs) :
    Draws iss.hash start ((ls.zip rs).mapM fun (leftBit,rightBit) => do
        let different ← (circuitGates iss).xor leftBit rightBit
        let moveBit ← (circuitGates iss).and swap different
        let leftBit ← (circuitGates iss).xor leftBit moveBit
        let rightBit ← (circuitGates iss).xor rightBit moveBit
        return (leftBit,rightBit)) d (4*(as.zip bs).length) (1*(as.zip bs).length) fun out e =>
      Forall₂ (fun ws bits => HasPair env ws bits e) out (if c then bs.zip as else as.zip bs) := by
  refine (mapM_each (R := fun (bits : Bool × Bool) ws e => HasPair env ws (if c then bits.swap else bits) e)
    (fun _ _ _ _ _ h g => h.later g) (fun _ _ _ _ _ h g => h.later g) (hl.zip hr)
    fun e total ws bits _ grown pair => ?_).mono fun out e _ _ h => ?_
  · refine (draws_xor pair.1 pair.2).bind_free fun different e₁ _ g₁ h₁ => ?_
    refine (draws_and (hs.later (grown.trans g₁)) h₁).bind_and fun moveBit e₂ _ g₂ h₂ => ?_
    have since := g₁.trans g₂
    refine (draws_xor (pair.1.later since) h₂).bind_free fun leftBit e₃ _ g₃ h₃ => ?_
    refine Draws.bind_pure ((draws_xor (pair.2.later (since.trans g₃)) (h₂.later g₃)).mono
      fun rightBit e₄ _ g₄ h₄ => ?_)
    obtain ⟨x,y⟩ := bits
    have hl : (x ^^ (c && (x ^^ y)))=(if c then (x,y).swap else (x,y)).1 := by
      cases c <;> cases x <;> cases y <;> rfl
    have hr : (y ^^ (c && (x ^^ y)))=(if c then (x,y).swap else (x,y)).2 := by
      cases c <;> cases x <;> cases y <;> rfl
    exact ⟨hl ▸ h₃.later g₄,hr ▸ h₄⟩
  · have moved : (if c then bs.zip as else as.zip bs) =
        (as.zip bs).map fun bits => if c then bits.swap else bits := by
      cases c with
      | true => exact (zip_swap as bs).symm
      | false => exact map_id'' (fun _ => rfl) _ |>.symm
    rw [moved]
    exact forall₂_map_right_iff.mpr h

section
variable {key : ℕ × ℕ} {ascending : Bool} {rbits s t k : ℕ}

/-- One exchange is the one of the network, at the cost of a comparison and a masked swap. -/
lemma draws_exchange (huni : Uniform rbits recs) (hkey : 0<key.2) (hwide : key.2≤128)
    (hfit : key.1+key.2 ≤ rbits) {left : ℕ} (hleft : left < recs.length) (hrt : left ^^^
    2^t < recs.length) (h : Carries env wires recs d) :
    Draws iss.hash start (exchange (circuitGates iss) key ascending (2^s) (2^t) wires left) d
      (if left ^^^ 2^t ≤ left then 0 else 7*key.2+2+4*rbits)
      (if left ^^^ 2^t ≤ left then 0 else 3*key.2+rbits) fun out e =>
      Carries env out (Network.exchange (keyValue key) [] ascending s t recs left) e := by
  have hlenL := huni _ (getD_mem hleft)
  have hlenR := huni _ (getD_mem hrt)
  simp only [exchange,Network.exchange]
  by_cases hskip : left ^^^ 2^t ≤ left
  · simp only [if_pos hskip]
    exact pure h
  · simp only [if_neg hskip]
    have numbers (i : ℕ) (hi : i < recs.length) := key_number (h.getD i)
      (hfit.trans (huni _ (getD_mem hi)).ge)
    have hlr := hlenL.trans hlenR.symm
    have hdir : (decide (left &&& 2^s=0)==ascending)=Network.increasing ascending s left := rfl
    have written {swap : BooleanWire} {c : Bool} {e : Draft} {total : Tally}
        (grown : Grown d e total) (hs : e.Has env swap c) :=
      (Draws.bind_pure (f := fun moved : List (BooleanWire × BooleanWire) =>
          (wires.set left (moved.map Prod.fst)).set (left ^^^ 2^t) (moved.map Prod.snd))
        ((draws_moved hs ((h.getD left).later grown)
          ((h.getD (left ^^^ 2^t)).later grown)).mono fun moved e' _ g pairs => by
            rw [← write_moved hleft hrt hlr c]
            have both := h.later (grown.trans g)
            exact (both.set (forall₂_map_left_iff.mpr (forall₂_map_right_iff.mpr
              (pairs.imp fun _ _ pair => pair.1))) left).set (forall₂_map_left_iff.mpr
                (forall₂_map_right_iff.mpr (pairs.imp fun _ _ pair => pair.2))) _) :
        Draws iss.hash start _ e _ _ fun out e => Carries env out (if c then (recs.set left
          (recs.getD (left ^^^ 2^t) [])).set (left ^^^ 2^t) (recs.getD left []) else recs) e)
    have bits : ((recs.getD left []).zip (recs.getD (left ^^^ 2^t) [])).length=rbits := by
      rw [length_zip,hlr,Nat.min_self,hlenR]
    rw [bits,one_mul] at written
    rw [hdir]
    cases Network.increasing ascending s left with
    | true =>
      simp only [if_true,compareUnsigned_circuit]
      refine ((draws_compareUnsigned hkey hwide (numbers _ hrt) (numbers _ hleft)).bind
        fun out e _ grown pair => written grown pair.1).mono fun out e _ _ has => ?_
      simpa only [decide_eq_true_eq] using has
    | false =>
      simp only [Bool.false_eq_true,if_false,compareUnsigned_circuit]
      refine ((draws_compareUnsigned hkey hwide (numbers _ hleft) (numbers _ hrt)).bind
        fun out e _ grown pair => written grown pair.1).mono fun out e _ _ has => ?_
      simpa only [decide_eq_true_eq] using has

/-- What a pass at distance `2^t` over `n` records draws where each exchange draws `each`. -/
def passCost (each n t : ℕ) : ℕ :=
  ((range n).map fun left => if left ^^^ 2^t ≤ left then 0 else each).sum

/-- What the whole network draws. -/
def sortCost (each k s : ℕ) : ℕ :=
  ∑ r ∈ Finset.range s,∑ u ∈ Finset.range (r+1),passCost each (2^k) u

lemma sortCost_succ (each k s : ℕ) : sortCost each k (s+1) =
    sortCost each k s+∑ u ∈ Finset.range (s+1),passCost each (2^k) u := Finset.sum_range_succ ..

section
variable (huni : Uniform rbits recs) (hkey : 0<key.2) (hwide : key.2≤128)
  (hfit : key.1+key.2 ≤ rbits) (hlen : recs.length=2^k) (h : Carries env wires recs d)
include huni hkey hwide hfit hlen h

lemma draws_pass (ht : t<k) : Draws iss.hash start ((range wires.length).foldlM
    (exchange (circuitGates iss) key ascending (2^s) (2^t)) wires) d
    (passCost (7*key.2+2+4*rbits) (2^k) t) (passCost (3*key.2+rbits) (2^k) t) fun out e =>
      Carries env out (Network.sortPass (keyValue key) [] ascending s t recs) e := by
  have same : wires.length=recs.length := h.length_eq
  rw [same,Network.sortPass,← hlen]
  refine (Draws.foldlM (V := fun x y _ => x=y) _ _ (fun _ _ _ _ _ eq _ => eq)
    (fun out current e => Carries env out current e ∧ current.Perm recs)
    (forall₂_same.mpr fun _ _ => rfl) ⟨h,Perm.refl recs⟩ ?_).mono fun _ _ _ _ has => has.1
  rintro out current e left _ mem rfl ⟨carries,perm⟩
  have hcur := perm.length_eq.trans hlen
  have hleft : left<2^k := hlen ▸ mem_range.mp mem
  refine (draws_exchange (huni.perm perm) hkey hwide hfit (hcur.symm ▸ hleft)
    (hcur.symm ▸ xor_lt_two_pow hleft (Nat.pow_lt_pow_right (by decide) ht)) carries).mono
      fun _ _ _ _ has => ⟨has,(Network.exchange_perm hcur ht hleft).trans perm⟩

lemma draws_group (ht : t≤k) : Draws iss.hash start (sortGroup (circuitGates iss)
    key ascending (2^s) t wires) d (∑ u ∈ Finset.range t,passCost (7*key.2+2+4*rbits) (2^k) u)
    (∑ u ∈ Finset.range t,passCost (3*key.2+rbits) (2^k) u) fun out e => Carries env out
    (Network.sortMerge (keyValue key) [] ascending s t recs) e := by
  induction t generalizing wires recs d with
  | zero => exact pure h
  | succ t ih =>
    have perm := Network.sortPass_perm (keyValue key) ascending (d := []) (s := s) hlen ht
    rw [Finset.sum_range_succ,Finset.sum_range_succ]
    exact ((draws_pass huni hkey hwide hfit hlen h ht).bind fun out e _ _ has =>
      ih (huni.perm perm) (perm.length_eq.trans hlen) has (le_of_succ_le ht)).count
        (add_comm _ _) (add_comm _ _)

lemma draws_groups (hs : s≤k) : Draws iss.hash start (sortGroups (circuitGates iss)
    key ascending s wires) d (sortCost (7*key.2+2+4*rbits) k s) (sortCost (3*key.2+rbits) k s)
    fun out e => Carries env out (Network.sortNetwork (keyValue key) [] ascending s recs) e := by
  induction s with
  | zero => exact pure h
  | succ s ih =>
    have perm := Network.sortNetwork_perm (keyValue key) ascending (d := []) hlen (le_of_succ_le hs)
    rw [sortCost_succ,sortCost_succ]
    exact (ih (le_of_succ_le hs)).bind fun out e _ _ has =>
      draws_group (huni.perm perm) hkey hwide hfit (perm.length_eq.trans hlen) has hs

end

end

end

lemma bind_error {α β : Type} {x : Drawing α} {message : String} (h : x d = .error message)
    (f : α → Drawing β) : (x >>= f) d = .error message := by
  change x d >>= _=_
  rw [h]
  rfl

/-- Two records or more cannot be compared by a key that the comparison does not take. -/
lemma sort_refused {wires : List (List BooleanWire)} {key : ℕ × ℕ} {rbits k : ℕ}
    (ascending : Bool) (uniform : ∀ ws∈wires,ws.length=rbits) (hlen : wires.length=2^(k+1))
    (hfit : key.1+key.2 ≤ rbits) (hkey : ¬(0<key.2 ∧ key.2≤128)) :
    ∃ message,sort (circuitGates iss) wires key ascending d = .error message := by
  have two : 1<wires.length := hlen ▸ Nat.one_lt_two_pow (succ_ne_zero k)
  have width (i : ℕ) (hi : i<wires.length) : (slice (wires.getD i []) key.1 key.2).length=key.2 := by
    refine length_slice ?_
    rw [getD_eq_getElem _ _ hi,uniform _ (getElem_mem hi)]
    exact hfit
  have zero := width 0 (zero_lt_of_lt two)
  have one := width 1 two
  have refused (a b : ℕ) (h : (slice (wires.getD a []) key.1 key.2).length=key.2) :
      compareUnsigned (circuitGates iss) (slice (wires.getD a []) key.1 key.2)
        (slice (wires.getD b []) key.1 key.2) =
          throw "Boolean comparison operands must share a width up to 128" := by
    rw [compareUnsigned,if_pos]
    omega
  have first : exchange (circuitGates iss) key ascending (2^1) (2^0) wires 0 d =
      .error "Boolean comparison operands must share a width up to 128" := by
    simp only [exchange,pow_zero,Nat.zero_xor,le_zero_eq,one_ne_zero,if_false,zero_and,
      decide_true,Bool.true_beq]
    cases ascending with
    | true =>
      simp only [if_true,refused 1 0 one]
      rfl
    | false =>
      simp only [Bool.false_eq_true,if_false,refused 0 1 zero]
      rfl
  have groups (s : ℕ) : ∃ message,
      sortGroups (circuitGates iss) key ascending (s+1) wires d = .error message := by
    induction s with
    | zero =>
      obtain ⟨n,hn⟩ := exists_eq_succ_of_ne_zero (Nat.ne_zero_of_lt two)
      refine ⟨"Boolean comparison operands must share a width up to 128",?_⟩
      simp only [sortGroups,sortGroup,pure_bind,hn,range_succ_eq_map,foldlM_cons]
      exact bind_error (bind_error first _) _
    | succ s ih =>
      obtain ⟨message,ih⟩ := ih
      exact ⟨message,bind_error ih _⟩
  rw [sort,hlen,log_pow (by decide)]
  exact groups k

/-- On every power of two of uniform records the sort draws a circuit, whose size does not depend on
the records, and the wires it returns carry a permutation of them in the order of the keys. There
is no circuit only where two records have a key that is empty or wider than 128 bits. -/
theorem bitonic_sort (iss : Issuer) (start : BooleanCircuitBuilder) (env : List Bool) (key
    : ℕ × ℕ) (ascending : Bool) (rbits k : ℕ) (d : Draft) (wires : List (List BooleanWire)) :
    (∀ recs,recs.length=2^k → Uniform rbits recs → key.1+key.2 ≤ rbits →
      k=0 ∨ (0<key.2 ∧ key.2≤128) → Carries env wires recs d →
      Draws iss.hash start (sort (circuitGates iss) wires key ascending) d
        (sortCost (7*key.2+2+4*rbits) k k) (sortCost (3*key.2+rbits) k k)
        fun out e => ∃ sorted,Carries env out sorted e ∧ sorted.Perm recs ∧
          sorted.Pairwise fun a b => if ascending then keyValue key a ≤ keyValue key b
            else keyValue key b ≤ keyValue key a) ∧
    (wires.length=2^k → (∀ ws∈wires,ws.length=rbits) → key.1+key.2 ≤ rbits →
      ¬(k=0 ∨ (0<key.2 ∧ key.2≤128)) →
      ∃ message,sort (circuitGates iss) wires key ascending d = .error message) := by
  refine ⟨fun recs hlen huni hfit hkey h => ?_,fun hlen uniform hfit hkey => ?_⟩
  · have hlog : Nat.log 2 wires.length=k := by
      rw [h.length_eq,hlen,Nat.log_pow (by decide)]
    rw [sort,hlog]
    rcases hkey with rfl | hkey
    · obtain ⟨record,rfl⟩ := length_eq_one_iff.mp hlen
      exact Draws.pure ⟨_,h,Perm.refl _,pairwise_singleton ..⟩
    · exact (draws_groups huni hkey.1 hkey.2 hfit hlen h le_rfl).mono fun out e _ _ has =>
        ⟨_,has,Network.sortNetwork_perm _ _ hlen le_rfl,Network.sortNetwork_sorted hlen⟩
  · rw [not_or] at hkey
    obtain ⟨k,rfl⟩ := Nat.exists_eq_succ_of_ne_zero hkey.1
    exact sort_refused ascending uniform hlen hfit hkey.2

/-- Four records of a key and a mark, the two of key zero in front. -/
theorem bitonic_sort_four : ∃ (iss : Issuer) (d e : Draft) (wires out : List (List BooleanWire))
    (sorted : List (List Bool)),
    Carries [] wires [[true,false],[false,true],[true,true],[false,false]] d ∧
    sort (circuitGates iss) wires (0,1) true d = .ok (out,e) ∧ Carries [] out sorted e ∧
    sorted.Perm [[true,false],[false,true],[true,true],[false,false]] ∧
    sorted.map (keyValue (0,1)) = [0,0,1,1] := by
  let iss : Issuer := ⟨fun _ _ _ _ => 0,fun _ => 0⟩
  obtain ⟨d,zero,one,sound,room,hz,ho,-,fits⟩ := constants_drawn iss
  have carries : Carries [] [[one,zero],[zero,one],[one,one],[zero,zero]]
      [[true,false],[false,true],[true,true],[false,false]] d := by
    simp [Carries,HasWord,hz,ho]
  have drawn := (bitonic_sort iss (.new 0 0) [] (0,1) true 2 2 d _).1 _ rfl (by simp [Uniform])
    (by decide) (.inr (by decide)) carries
  obtain ⟨out,e,-,run,-,-,-,sorted,has,perm,order⟩ := (drawn sound room).1
    (fits _ _ (by decide +kernel) (by decide +kernel))
  refine ⟨iss,d,e,_,out,sorted,carries,run,has,perm,?_⟩
  have keys : [1,0,1,0].Perm [0,0,1,1] := by decide
  exact Perm.eq_of_pairwise (fun _ _ _ _ => le_antisymm) (pairwise_map.mpr (by simpa using order))
    (by decide) ((perm.map (keyValue (0,1))).trans keys)

end Pllm.Retained
