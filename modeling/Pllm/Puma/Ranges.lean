import Pllm.Puma.Multiply
import Pllm.Puma.ProtocolCorrect

/-! The public ranges of products and of their truncations hold what the parties reconstruct. -/
namespace Pllm.Puma.Multiply
open Pllm.Lib Pllm.Lib.Exec List Multiply.Interval

/-- The hull of the rescaled outputs of a dot product, whatever the masks are. -/
def InputBounds.dotOutput (self : InputBounds) (terms : ℕ) : Except Error Interval := do
  let product ← self.dotProduct terms
  Interval.new (product.lower/2^fractionBits) (-(-product.upper/2^fractionBits))

def Interval.Contains (self : Interval) (x : ℤ) : Prop := self.lower≤x ∧ x ≤ self.upper

/-- The exact dot product of the signed values of two lists of words. -/
def dot (us vs : Words) : ℤ := (List.zipWith (fun u v : Word => u.toInt*v.toInt) us vs).sum

section
variable {i bounds : Interval} {c l : ℤ} {α : Type} {terms shift : ℕ} {xs ys us vs : Words}

lemma new_eq_ok {a b : ℤ} (h : new a b = .ok i) : i.lower=a ∧ i.upper=b := by
  unfold new at h
  split at h
  · cases h
    exact ⟨rfl,rfl⟩
  · cases h

lemma corners_mul {a b d x y : ℤ} (hx : a≤x ∧ x≤b) (hy : c≤y ∧ y≤d) : min
    (min (a*c) (a*d)) (min (b*c) (b*d))≤x*y ∧ x*y ≤ max (max (a*c) (a*d)) (max (b*c) (b*d)) := by
  have first (z : ℤ) : min (a*z) (b*z)≤x*z ∧ x*z ≤ max (a*z) (b*z) := by
    rcases le_total 0 z with h | h
    · have low := mul_le_mul_of_nonneg_right hx.1 h
      have high := mul_le_mul_of_nonneg_right hx.2 h
      exact ⟨(min_le_left _ _).trans low,high.trans (le_max_right _ _)⟩
    · have low := mul_le_mul_of_nonpos_right hx.1 h
      have high := mul_le_mul_of_nonpos_right hx.2 h
      exact ⟨(min_le_right _ _).trans high,low.trans (le_max_left _ _)⟩
  have second : min (x*c) (x*d)≤x*y ∧ x*y ≤ max (x*c) (x*d) := by
    rcases le_total 0 x with h | h
    · have low := mul_le_mul_of_nonneg_left hy.1 h
      have high := mul_le_mul_of_nonneg_left hy.2 h
      exact ⟨(min_le_left _ _).trans low,high.trans (le_max_right _ _)⟩
    · have low := mul_le_mul_of_nonpos_left hy.1 h
      have high := mul_le_mul_of_nonpos_left hy.2 h
      exact ⟨(min_le_right _ _).trans high,low.trans (le_max_left _ _)⟩
  obtain ⟨lc,uc⟩ := first c
  obtain ⟨ld,ud⟩ := first d
  omega

lemma checkedMul_eq_ok {a b : ℤ} (h : checkedMul a b = .ok c) : c=a*b := by
  unfold checkedMul at h
  split at h <;> cases h
  rfl

lemma foldl_min_le (l : List ℤ) (a : ℤ) : l.foldl min a ≤ a ∧ ∀ p∈l,l.foldl min a ≤ p := by
  induction l generalizing a with
  | nil => exact ⟨le_refl a,nofun⟩
  | cons x l ih =>
    obtain ⟨first,rest⟩ := ih (min a x)
    refine ⟨first.trans (min_le_left a x),fun p m => ?_⟩
    rcases mem_cons.mp m with rfl | m
    · exact first.trans (min_le_right a p)
    · exact rest p m

lemma le_foldl_max (l : List ℤ) (a : ℤ) : a ≤ l.foldl max a ∧ ∀ p∈l,p ≤ l.foldl max a := by
  induction l generalizing a with
  | nil => exact ⟨le_refl a,nofun⟩
  | cons x l ih =>
    obtain ⟨first,rest⟩ := ih (max a x)
    refine ⟨(le_max_left a x).trans first,fun p m => ?_⟩
    rcases mem_cons.mp m with rfl | m
    · exact (le_max_right a p).trans first
    · exact rest p m

variable {b : InputBounds}

lemma dotProduct_eq_ok (h : b.dotProduct terms = .ok i) : 0<terms ∧
      (∀ x∈b.left.corners,∀ y∈b.right.corners,i.lower≤x*y*terms ∧ x*y*terms ≤ i.upper) ∧
      -2^62 ≤ i.lower ∧ i.upper<2^62 := by
  obtain ⟨admitted,h⟩ := ite_error_eq_ok.mp h
  obtain ⟨products,found,h⟩ := bind_eq_ok.mp h
  obtain ⟨small,h⟩ := ite_error_eq_ok.mp h
  obtain ⟨lower,upper⟩ := new_eq_ok h
  have entries := mapM_eq_ok.mp found
  simp only [inputMin,inputMaxExclusive] at small
  refine ⟨by omega,fun x mx y my => ?_,by omega,by omega⟩
  have m : (x,y)∈b.left.corners.flatMap fun x => b.right.corners.map fun y => (x,y) :=
    mem_flatMap.mpr ⟨x,mx,mem_map.mpr ⟨y,my,rfl⟩⟩
  obtain ⟨p,mp,eq⟩ := exists_of_forall₂ entries m
  obtain ⟨first,one,two⟩ := bind_eq_ok.mp eq
  rw [checkedMul_eq_ok one] at two
  rw [checkedMul_eq_ok two] at mp
  rw [lower,upper]
  exact ⟨(foldl_min_le products _).2 _ mp,(le_foldl_max products _).2 _ mp⟩

lemma sum_within {u : ℤ} (same : xs.length=ys.length) (products : ∀ x∈xs,∀ y∈ys,l≤x.toInt*y.toInt
    ∧ x.toInt*y.toInt ≤ u) : l*xs.length ≤ dot xs ys ∧ dot xs ys ≤ u*xs.length := by
  induction xs generalizing ys with
  | nil => simp [dot]
  | cons x xs ih =>
    obtain ⟨y,ys,rfl⟩ := exists_cons_of_length_eq_add_one same.symm
    obtain ⟨low,high⟩ := ih (Nat.succ.inj same) fun x mx y my =>
      products x (mem_cons_of_mem _ mx) y (mem_cons_of_mem _ my)
    obtain ⟨first,last⟩ := products x mem_cons_self y mem_cons_self
    unfold dot at low high ⊢
    rw [zipWith_cons_cons,sum_cons,length_cons]
    push_cast
    constructor <;> linarith

lemma dotProduct_contains (h : b.dotProduct xs.length = .ok i) (same :
    xs.length=ys.length) (hx : ∀ x∈xs,b.left.Contains x.toInt) (hy : ∀ y∈ys,b.right.Contains
    y.toInt) : i.Contains (dot xs ys) := by
  obtain ⟨some,corners,-⟩ := dotProduct_eq_ok h
  have least := corners b.left.lower (by simp [Interval.corners]) b.right.lower
    (by simp [Interval.corners])
  have second := corners b.left.lower (by simp [Interval.corners]) b.right.upper
    (by simp [Interval.corners])
  have third := corners b.left.upper (by simp [Interval.corners]) b.right.lower
    (by simp [Interval.corners])
  have fourth := corners b.left.upper (by simp [Interval.corners]) b.right.upper
    (by simp [Interval.corners])
  obtain ⟨low,high⟩ := sum_within same fun x mx y my => corners_mul (hx x mx) (hy y my)
  constructor
  · let P (p : ℤ) := i.lower ≤ p*xs.length
    exact le_trans (min_rec' P (min_rec' P least.1 second.1) (min_rec' P third.1 fourth.1)) low
  · let P (p : ℤ) := p*xs.length ≤ i.upper
    exact high.trans (max_rec' P (max_rec' P least.2 second.2) (max_rec' P third.2 fourth.2))

lemma neg_neg_ediv (u : ℤ) {unit : ℤ} (pos : 0 < unit) :
    -(-u/unit) = u/unit+if unit ∣ u then 0 else 1 := by
  rw [Int.neg_ediv,Int.sign_eq_one_of_pos pos]
  omega

lemma isTruncation_within {u x y : ℤ} (hx : l≤x ∧ x ≤ u) (h : IsTruncation shift x y) :
    l/2^shift≤y ∧ y ≤ -(-u/2^shift) := by
  have pos : (0:ℤ)<2^shift := by positivity
  have floor : l/2^shift≤x/2^shift := Int.ediv_le_ediv pos hx.1
  have ceiling : -u/2^shift ≤ -x/2^shift := Int.ediv_le_ediv pos (by omega)
  have up := neg_neg_ediv x pos
  obtain ⟨either,exact⟩ := h
  split at up
  · next divides =>
    omega
  · omega

lemma rescaledBounds_eq_ok (h : rescaledBounds bounds shift = .ok i) :
    shift≤62 ∧ -2^62 ≤ bounds.lower ∧
      bounds.upper<2^62 ∧ i.lower=bounds.lower/2^shift ∧ i.upper = -(-bounds.upper/2^shift) := by
  obtain ⟨small,h⟩ := ite_error_eq_ok.mp h
  obtain ⟨lower,upper⟩ := new_eq_ok h
  simp only [inputMin,inputMaxExclusive] at small
  have pos : (0:ℤ)<2^shift := by positivity
  refine ⟨by omega,by omega,by omega,lower,upper.trans ?_⟩
  rw [neg_neg_ediv _ pos]
  simp only [Int.dvd_iff_emod_eq_zero,ite_not]

lemma toInt_dot (low : -2^63 ≤ dot us vs) (high : dot us vs < 2^63) :
    ((zipWith (·*·) us vs).sum).toInt = dot us vs := by
  have wrapped : (zipWith (·*·) us vs).sum=BitVec.ofInt 64 (dot us vs) := by
    clear low high
    unfold dot
    induction us generalizing vs with
    | nil => rfl
    | cons u us ih =>
      cases vs with
      | nil => rfl
      | cons v vs =>
        rw [zipWith_cons_cons,zipWith_cons_cons,sum_cons,sum_cons,ih,
          BitVec.ofInt_add,BitVec.ofInt_mul,BitVec.ofInt_toInt,BitVec.ofInt_toInt]
  rw [wrapped,BitVec.toInt_ofInt]
  apply Int.bmod_eq_of_le <;> omega

lemma rescaledBounds_contains (h : rescaledBounds bounds shift = .ok i) {x : ℤ} (hx :
    bounds.Contains x) : (-2^62 ≤ x ∧ x<2^62) ∧ ∀ y,IsTruncation shift x y → i.Contains y := by
  obtain ⟨-,low,high,lower,upper⟩ := rescaledBounds_eq_ok h
  have outer := hx
  unfold Contains at outer
  refine ⟨by omega,fun y truncated => ?_⟩
  rw [Contains,lower,upper]
  exact isTruncation_within hx truncated

lemma dotOutput_contains (h : b.dotOutput us.length = .ok i) (same : us.length=vs.length) (hu : ∀
    u∈us,b.left.Contains u.toInt) (hv : ∀ v∈vs,b.right.Contains v.toInt) :
    (∃ whole,b.dotProduct us.length = .ok whole ∧ whole.Contains (dot us vs)) ∧ (-2^62 ≤ dot us vs ∧
      dot us vs < 2^62) ∧ ((zipWith (·*·) us vs).sum).toInt = dot us vs ∧
      ∀ y,IsTruncation fractionBits (dot us vs) y → i.Contains y := by
  obtain ⟨whole,product,h⟩ := bind_eq_ok.mp h
  obtain ⟨lower,upper⟩ := new_eq_ok h
  obtain ⟨-,-,low,high⟩ := dotProduct_eq_ok product
  have contains := dotProduct_contains product same hu hv
  have outer := contains
  unfold Contains at outer
  refine ⟨⟨whole,product,contains⟩,by omega,toInt_dot (by omega) (by omega),fun y truncated => ?_⟩
  rw [Contains,lower,upper]
  exact isTruncation_within contains truncated

lemma refused_bounds {x : Except Error α} (h : ∀ e,x = .error e → e = .bounds) :
    (∃ a,x = .ok a) ∨ x = .error .bounds := by
  cases x with
  | ok a => exact .inl ⟨a,rfl⟩
  | error e => exact .inr (congrArg _ (h e rfl))

lemma new_refused {a b : ℤ} {e : Error} (h : new a b = .error e) : e = .bounds := by
  unfold new at h
  split at h <;> cases h
  rfl

lemma dotProduct_refused {e : Error} (h : b.dotProduct terms = .error e) : e = .bounds := by
  have mul {x y : ℤ} {e : Error} (h : checkedMul x y = .error e) : e = .bounds := by
    unfold checkedMul at h
    split at h <;> cases h
    rfl
  unfold InputBounds.dotProduct at h
  split at h
  · cases h
    rfl
  · rcases bind_eq_error.mp h with products | ⟨products,-,h⟩
    · obtain ⟨⟨x,y⟩,-,failed⟩ := mapM_eq_error products
      change (checkedMul x y >>= fun p => checkedMul p terms) = .error _ at failed
      rcases bind_eq_error.mp failed with first | ⟨p,-,second⟩
      · exact mul first
      · exact mul second
    · dsimp only at h
      split at h
      · cases h
        rfl
      · exact new_refused h

end

variable (env : Platform)

/-- Accepted ranges hold every exact dot product and every truncation of it, and in no accepted
range does a truncation leave its domain. -/
theorem range_proof :
    (∀ (b : InputBounds) (i : Interval) (us vs : Words),b.dotOutput us.length = .ok i →
      us.length=vs.length → (∀ u∈us,b.left.Contains u.toInt) → (∀ v∈vs,b.right.Contains v.toInt) →
      (∃ whole,b.dotProduct us.length = .ok whole ∧ whole.Contains (dot us vs)) ∧ (-2^62 ≤ dot us vs
        ∧ dot us vs < 2^62) ∧ ((zipWith (·*·) us vs).sum).toInt = dot us vs ∧
        ∀ y,IsTruncation fractionBits (dot us vs) y → i.Contains y) ∧
    (∀ (bounds : Interval) (shift : ℕ) (i : Interval),rescaledBounds bounds shift = .ok i →
      ∀ x,bounds.Contains x → (-2^62 ≤ x ∧ x<2^62) ∧
        ∀ y,IsTruncation shift x y → i.Contains y) ∧
    (∀ (b : InputBounds) (terms : ℕ),
      (∃ i,b.dotOutput terms = .ok i) ∨ b.dotOutput terms = .error .bounds) ∧
    (∀ (bounds : Interval) (shift : ℕ),
      (∃ i,rescaledBounds bounds shift = .ok i) ∨ rescaledBounds bounds shift = .error .bounds) ∧
    ∀ (operation : Operation) (x : Components operation.lanes) (m : Correlated operation.lanes)
      (entropy : Entropy) (split : Words) (turns : ℕ → Turn Party) (s : Party → Puma.PartyRuntime),
      splitWords entropy operation.lanes m.split = .ok split → (∀ p,Admits operation p (s p)) →
      Yields (truncate env operation (x.view operation) (m.material operation) entropy turns) s
        fun out _ => ∃ y : Components operation.lanes,(∀ p,out p = y.view operation p) ∧
          ∀ lane<operation.lanes,
            (∀ bounds i : Interval,rescaledBounds bounds operation.shift = .ok i →
              bounds.Contains (x.total lane).toInt → i.Contains (y.total lane).toInt) ∧
            (operation.shift=fractionBits → ∀ (b : InputBounds) (i : Interval) (us vs : Words),
              b.dotOutput us.length = .ok i → us.length=vs.length →
              (∀ u∈us,b.left.Contains u.toInt) → (∀ v∈vs,b.right.Contains v.toInt) →
              x.total lane = (zipWith (·*·) us vs).sum → i.Contains (y.total lane).toInt) := by
  refine ⟨fun b i us vs h same hu hv => dotOutput_contains h same hu hv, fun bounds shift i h x hx
    => rescaledBounds_contains h hx,fun b terms => ?_, fun bounds shift => ?_,?_⟩
  · refine refused_bounds fun e h => ?_
    unfold InputBounds.dotOutput at h
    cases product : b.dotProduct terms with
    | error e' =>
      rw [product] at h
      cases h
      exact dotProduct_refused product
    | ok whole =>
      rw [product] at h
      exact new_refused h
  · refine refused_bounds fun e h => ?_
    unfold rescaledBounds at h
    split at h
    · cases h
      rfl
    · exact new_refused h
  · intro operation x m entropy split turns s hm admits
    refine (yields_truncate hm turns admits).mono fun out t ⟨views,_⟩ => ⟨_,views,fun lane hl => ?_⟩
    rw [total_truncatedComponents x m split hl]
    constructor
    · intro bounds i h contains
      obtain ⟨⟨low,high⟩,all⟩ := rescaledBounds_contains h contains
      exact all _ (isTruncation_truncated (rescaledBounds_eq_ok h).1 _ low high)
    · intro scaled b i us vs h same hu hv total
      obtain ⟨-,⟨low,high⟩,ring,all⟩ := dotOutput_contains h same hu hv
      rw [← ring,← total] at low high all
      rw [← scaled] at all
      exact all _ (isTruncation_truncated (by rw [scaled,fractionBits]; omega) _ low high)

/-- A rescaled range does not hold the products themselves. -/
theorem rescaled_products : ¬∀ (b : InputBounds) (i : Interval) (us vs : Words), b.dotOutput
    us.length = .ok i → us.length=vs.length → (∀ u∈us,b.left.Contains u.toInt) → (∀
    v∈vs,b.right.Contains v.toInt) → i.Contains (dot us vs) := by
  intro all
  have contains := all ⟨⟨512,512,by decide,by decide,by decide⟩,
    ⟨512,512,by decide,by decide,by decide⟩⟩ ⟨1,1,by decide,by decide,by decide⟩ [512] [512]
    (by decide) rfl (by simp [Interval.Contains]) (by simp [Interval.Contains])
  have high := contains.2
  simp [dot] at high

end Pllm.Puma.Multiply
