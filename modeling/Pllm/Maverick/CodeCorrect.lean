import Pllm.Lib.Accumulate
import Pllm.Lib.Except
import Pllm.Maverick.Code

/-! The codes as linear maps over the field, and the syndrome as the transpose of the encoder. -/
namespace Pllm.Maverick
open Pllm.Lib List Nat

/-- What a buffer stands for: a vector over the field. -/
def vec (v : Words) (i : ℕ) : ZMod field := (v.at i : ZMod field)

variable (a b : ℕ)

@[simp] lemma cast_add : ((add a b:ℕ) : ZMod field)=a+b := by
  rw [add,ZMod.natCast_mod,Nat.cast_add]

@[simp] lemma cast_mul : ((mul a b:ℕ) : ZMod field)=a*b := by
  rw [mul,ZMod.natCast_mod,Nat.cast_mul]

lemma cast_sub {b : ℕ} (h : b<field) (a : ℕ) : ((sub a b:ℕ) : ZMod field)=a-b := by
  rw [sub,ZMod.natCast_mod,Nat.cast_sub (by omega),Nat.cast_add,ZMod.natCast_self,add_zero]

lemma field_pos : 0<field := by decide

lemma add_lt : add a b < field := mod_lt _ field_pos
lemma sub_lt : sub a b < field := mod_lt _ field_pos
lemma eq_of_cast {a b : ℕ} (ha : a<field) (hb : b<field) (h : (a : ZMod field)=b) : a=b := by
  have := (ZMod.natCast_eq_natCast_iff' a b field).mp h
  rwa [mod_eq_of_lt ha,mod_eq_of_lt hb] at this

variable {n : ℕ} {x : Words}

lemma canonical_eq_ok : canonical x n = .ok () ↔ x.length=n ∧ ∀ v∈x,v<field := by
  unfold canonical
  split
  · simp_all
  split
  · rename_i some_
    simp only [reduceCtorEq,false_iff,not_and]
    intro _ all
    obtain ⟨v,m,le⟩ := any_eq_true.mp some_
    exact absurd (all v m) (not_lt.mpr (by simpa using le))
  · rename_i length none
    simp only [true_iff]
    refine ⟨not_not.mp length,fun v m => ?_⟩
    by_contra le
    exact none (any_eq_true.mpr ⟨v,m,by simpa using le⟩)

lemma at_lt (h : ∀ v∈x,v<field) (i : ℕ) : x.at i < field := by
  rw [Words.at,getD_eq_getElem?_getD]
  cases get : x[i]? with
  | none => exact field_pos
  | some v => exact h v (mem_of_getElem? get)

variable {count i start : ℕ} {v : Words}

lemma at_slice (v : Words) (start : ℕ) (h : i < count) :
    (v.slice start count).at i = v.at (start+i) := by
  simp [Words.at,Words.slice,h]

lemma slice_canonical (h : ∀ x∈v,x<field)
    (bound : start+count≤v.length) : canonical (v.slice start count) count = .ok () := by
  rw [canonical_eq_ok,Words.slice]
  refine ⟨by simp; omega,fun x m => h x ?_⟩
  exact mem_of_mem_drop (mem_of_mem_take m)

lemma ext_of_vec {y : Words} (length : x.length=y.length) (hx : ∀ v∈x,v<field)
    (hy : ∀ v∈y,v<field) (same : ∀ i<x.length,vec x i = vec y i) : x=y := by
  refine ext_getElem length fun i h h' => ?_
  have := eq_of_cast (at_lt hx i) (at_lt hy i) (same i h)
  simpa [Words.at,h,h'] using this

variable {α : Type*} (l : List α) (f : α → ℕ)

lemma cast_foldl_add (start : ℕ) : ((l.foldl (fun acc a => add acc (f a)) start : ℕ) : ZMod field) =
      start + (l.map fun a => (f a : ZMod field)).sum := by
  induction l generalizing start with
  | nil => simp
  | cons a l ih => rw [foldl_cons,ih,cast_add,map_cons,sum_cons,add_assoc]

lemma foldl_add_lt (h : start<field) : l.foldl (fun acc a => add acc (f a)) start < field := by
  induction l generalizing start with
  | nil => exact h
  | cons a l ih => exact ih (add_lt ..)

lemma dot_lt (a b : Words) : dot a b < field := foldl_add_lt _ _ field_pos

lemma sum_zip {R : Type*} [CommSemiring R] (a b : Words) (ha : a.length=n)
    (hb : b.length=n) (f : ℕ → ℕ → R) : ((a.zip b).map fun p => f p.1 p.2).sum =
      ∑ i ∈ Finset.range n,f (a.at i) (b.at i) := by
  induction a generalizing b n with
  | nil => simp [← ha]
  | cons x a ih =>
    cases b with
    | nil =>
      rw [length_cons] at ha
      rw [length_nil] at hb
      omega
    | cons y b =>
      obtain ⟨m,rfl⟩ : ∃ m,n=m+1 := ⟨a.length,by simpa using ha.symm⟩
      rw [Finset.sum_range_succ',zip_cons_cons,map_cons,sum_cons,
        ih b (by simpa using ha) (by simpa using hb),add_comm]
      simp [Words.at]

lemma cast_dot {a b : Words} (ha : a.length=n) (hb : b.length=n) :
    ((dot a b:ℕ) : ZMod field) = ∑ i ∈ Finset.range n,vec a i * vec b i := by
  rw [dot,cast_foldl_add]
  simp only [cast_mul,cast_zero,zero_add]
  exact sum_zip a b ha hb fun x y => (x : ZMod field) * y

namespace Sparse

variable {length weight : ℕ}

lemma spec (e : Sparse length weight) : (∀ p∈e.entries,p.1<length ∧ p.2<field) ∧
    (e.entries.map Prod.fst).Nodup := by
  have valid := e.valid
  unfold checkPairs at valid
  split at valid
  · cases valid
  split at valid
  · rename_i ok
    refine ⟨fun p m => ?_,ok.2⟩
    have := all_eq_true.mp ok.1 p m
    simp only [Bool.and_eq_true,decide_eq_true_eq] at this
    exact ⟨this.1.1,this.2⟩
  · cases valid

/-- The dense vector of the entries. -/
def dense (e : Sparse length weight) (i : ℕ) : ZMod field :=
  (e.entries.map fun p => if p.1=i then (p.2 : ZMod field) else 0).sum

section
variable (e : Sparse length weight)

lemma sum_entries (f : ℕ → ZMod field) : (e.entries.map fun p => (p.2 : ZMod field) * f p.1).sum =
      ∑ i ∈ Finset.range length,f i * e.dense i := by
  have bound : ∀ p∈e.entries,p.1<length := fun p m => (e.spec.1 p m).1
  unfold dense
  generalize e.entries=l at bound
  induction l with
  | nil => simp
  | cons p l ih =>
    rw [map_cons,sum_cons,ih fun q m => bound q (mem_cons_of_mem _ m)]
    simp only [map_cons,sum_cons,mul_add,Finset.sum_add_distrib]
    congr 1
    have here : p.1 ∈ Finset.range length := Finset.mem_range.mpr (bound p mem_cons_self)
    simp [here,mul_comm]

lemma cast_dot (v : Words) :
    ((e.dot v:ℕ) : ZMod field) = ∑ i ∈ Finset.range length,vec v i * e.dense i := by
  rw [← e.sum_entries (vec v)]
  rw [dot,cast_foldl_add e.entries (fun p => mul p.2 (v.at p.1))]
  simp [vec]

lemma dot_lt (v : Words) : e.dot v < field :=
  foldl_add_lt _ _ field_pos

end

end Sparse

lemma accumulate_congr {x y : ℕ → ZMod field} (h : ∀ k ≤ i,x k = y k) :
    accumulate x i = accumulate y i := by
  rw [accumulate_apply]
  refine Finset.sum_congr rfl fun k m => h k ?_
  have := Finset.mem_range.mp m
  omega

lemma vec_set (h : i<v.length) (x r : ℕ) :
    vec (v.set i x) r = if r=i then (x : ZMod field) else vec v r := by
  simp only [vec,Words.at,getD_eq_getElem?_getD,getElem?_set]
  split
  · rename_i eq
    subst eq
    simp
  · rename_i ne
    rw [if_neg (Ne.symm ne)]

lemma vec_replicate (n i : ℕ) : vec (replicate n 0) i = 0 := by
  simp [vec,Words.at,getElem?_replicate]
  split <;> simp

lemma set_canonical (h : ∀ x∈v,x<field) {i x : ℕ} (hx : x<field) : ∀ y ∈ v.set i x,y<field := by
  intro y m
  rcases mem_or_eq_of_mem_set m with m | rfl
  · exact h y m
  · exact hx

namespace Code

variable (sum : ℕ) (x : Words)

lemma length_running : (running sum x).length = x.length := by
  induction x generalizing sum with
  | nil => rfl
  | cons a x ih => simp [running,ih]

lemma running_lt : ∀ v ∈ running sum x,v<field := by
  induction x generalizing sum with
  | nil => exact nofun
  | cons a x ih =>
    intro v m
    rcases mem_cons.mp m with rfl | m
    · exact add_lt ..
    · exact ih _ v m

lemma vec_running (h : i<x.length) : vec (running sum x) i = sum + accumulate (vec x) i := by
  induction x generalizing sum i with
  | nil => cases h
  | cons a x ih =>
    cases i with
    | zero => simp [vec,Words.at,running]
    | succ i =>
      have rest := ih (add sum a) (by simpa using h)
      have shift : vec (running sum (a::x)) (i+1)=vec (running (add sum a) x) i := rfl
      rw [shift,rest,accumulate_apply,accumulate_apply,Finset.sum_range_succ' (vec (a::x)),cast_add]
      have tail (k : ℕ) : vec (a::x) (k+1)=vec x k := rfl
      have head : vec (a::x) 0=a := rfl
      simp only [tail,head]
      ring

lemma vec_map_zip {a b : Words} (ha : a.length=n) (hb : b.length=n) (f : ℕ → ℕ → ℕ)
    {k : ℕ} (h : k<n) : vec ((a.zip b).map fun p => f p.1 p.2) k = (f (a.at k) (b.at k):ℕ) := by
  have ha : k<a.length := ha ▸ h
  have hb : k<b.length := hb ▸ h
  simp [vec,Words.at,ha,hb]

variable {dim : ℕ}

/-- What the validation of a description establishes. -/
lemma spec (c : Code dim) : c.description.firstPermutation.length = dim*repeats ∧
    c.description.secondPermutation.length = dim*repeats ∧ c.description.firstScale.length =
    dim*repeats ∧ c.description.secondScale.length = dim*repeats ∧ (∀
    k<dim*repeats,c.description.firstPermutation.at k/repeats < dim) ∧ (∀
    k<dim*repeats,c.description.secondPermutation.at k < dim*repeats) ∧
    ∀ j<dim*repeats,∀ k<dim*repeats,
      c.description.secondPermutation.at j = c.description.secondPermutation.at k → j=k := by
  have valid := c.valid
  unfold CodeDescription.validate at valid
  rw [ite_error_eq_ok,ite_error_eq_ok] at valid
  obtain ⟨-,-,valid⟩ := valid
  simp only [bind_eq_ok] at valid
  obtain ⟨_,first,_,second,_,scale,scale'⟩ := valid
  have permuted {n : ℕ} {p : Words} (h : checkPermutation n p = .ok ()) :
      p.length=n ∧ (∀ k<n,p.at k < n) ∧ ∀ j<n,∀ k<n,p.at j = p.at k → j=k := by
    unfold checkPermutation at h
    split at h
    · cases h
    rename_i length
    rw [not_not] at length
    split at h
    · rename_i ok
      obtain ⟨bound,nodup⟩ := ok
      have get (k : ℕ) (hk : k<n) : p.at k=p.get ⟨k,length ▸ hk⟩ := by
        simp [Words.at,length,hk]
      refine ⟨length,fun k hk => ?_,fun j hj k hk eq => ?_⟩
      · rw [get k hk]
        simpa using all_eq_true.mp bound _ (getElem_mem (length.symm ▸ hk))
      · rw [get j hj,get k hk] at eq
        exact congrArg Fin.val (nodup_iff_injective_get.mp nodup eq)
    · cases h
  have scaled {n : ℕ} {v : Words} (h : checkScale n v = .ok ()) : v.length=n := by
    obtain ⟨_,ok,-⟩ := bind_eq_ok.mp h
    exact (canonical_eq_ok.mp ok).1
  obtain ⟨length,bound,-⟩ := permuted first
  obtain ⟨length',bound',injective⟩ := permuted second
  refine ⟨length,length',scaled scale,scaled scale',fun k hk => ?_,bound',injective⟩
  have := bound k hk
  unfold repeats at this ⊢
  omega

/-- The encoder of a code as a linear map. -/
def linear (c : Code dim) : (ℕ → ZMod field) →ₗ[ZMod field] ℕ → ZMod field :=
  repeatAccumulate (fun k => c.description.firstPermutation.at k/repeats)
    c.description.secondPermutation.at (vec c.description.firstScale) (vec c.description.secondScale)

section
variable {n length weight : ℕ} {g : Words}

lemma encode_ok (c : Code dim) {w : Words} (h : canonical w dim = .ok ()) :
    ∃ out,c.encode w = .ok out ∧ out.length=dim*repeats ∧ (∀ v∈out,v<field) ∧
      ∀ i<dim*repeats,vec out i = c.linear (vec w) i := by
  obtain ⟨l1,l2,l3,l4,-,bound,-⟩ := c.spec
  have enc : c.encode w = .ok (running 0
      ((c.description.secondPermutation.zip c.description.secondScale).map fun p =>
        mul (Words.at (running 0
          ((c.description.firstPermutation.zip c.description.firstScale).map fun p =>
            mul (w.at (p.1/repeats)) p.2)) p.1) p.2)) := by
    rw [encode,h]
    rfl
  refine ⟨_,enc,?_,running_lt _ _,fun i hi => ?_⟩
  · rw [length_running,length_map,length_zip,l2,l4,min_self]
  · have zipped : i < ((c.description.secondPermutation.zip c.description.secondScale).map fun p =>
        mul (Words.at (running 0
          ((c.description.firstPermutation.zip c.description.firstScale).map fun p =>
            mul (w.at (p.1/repeats)) p.2)) p.1) p.2).length := by
      rw [length_map,length_zip,l2,l4,min_self]
      exact hi
    rw [vec_running _ _ zipped,cast_zero,zero_add,linear,repeatAccumulate_apply]
    refine accumulate_congr fun k hk => ?_
    have hk : k<dim*repeats := by omega
    have outer := vec_map_zip l2 l4 (fun p v => mul (Words.at (running 0
      ((c.description.firstPermutation.zip c.description.firstScale).map fun p =>
        mul (w.at (p.1/repeats)) p.2)) p) v) hk
    rw [outer,cast_mul]
    congr 1
    have place := bound k hk
    have inner : c.description.secondPermutation.at k <
        ((c.description.firstPermutation.zip c.description.firstScale).map fun p =>
          mul (w.at (p.1/repeats)) p.2).length := by
      rw [length_map,length_zip,l1,l3,min_self]
      exact place
    have first := vec_running 0 _ inner
    rw [cast_zero,zero_add] at first
    refine first.trans (accumulate_congr fun l hl => ?_)
    have hl : l<dim*repeats := by omega
    rw [vec_map_zip l1 l3 (fun p v => mul (w.at (p/repeats)) v) hl,cast_mul]
    rfl

lemma places_succ (n : ℕ) : places (n+1) = n::places n := by
  rw [places,range_succ,reverse_append]
  rfl

lemma move_loop {x σ v : ℕ → ℕ} (bound : ∀ k<n,σ k < length)
    (injective : ∀ j<n,∀ k<n,σ j = σ k → j=k) (sum : ℕ) (hg : g.length=length) :
    let out := ((places n).foldl (fun (s : ℕ × Words) j =>
      (add s.1 (x j),s.2.set (σ j) (mul (add s.1 (x j)) (v j)))) (sum,g)).2
    (∀ k<n,vec out (σ k) = (sum + ∑ i ∈ Finset.Ico k n,(x i : ZMod field)) * v k) ∧
      ∀ r,(∀ k<n,σ k ≠ r) → vec out r = vec g r := by
  induction n generalizing sum g with
  | zero => exact ⟨nofun,fun _ _ => rfl⟩
  | succ n ih =>
    rw [places_succ]
    simp only [foldl_cons]
    have here : σ n < g.length := hg ▸ bound n (lt_succ_self n)
    obtain ⟨moved,kept⟩ := ih (fun k hk => bound k (by omega))
      (fun j hj k hk => injective j (by omega) k (by omega)) (add sum (x n))
      (g := g.set (σ n) (mul (add sum (x n)) (v n))) (by simpa using hg)
    refine ⟨fun k hk => ?_,fun r out => ?_⟩
    · rcases Nat.lt_succ_iff_lt_or_eq.mp hk with lt | rfl
      · rw [moved k lt,cast_add,Finset.sum_Ico_succ_top (by omega)]
        ring
      · rw [kept (σ k) fun j hj eq => absurd (injective j (by omega) k hk eq) (by omega),
          vec_set here,if_pos rfl,cast_mul,cast_add]
        simp
    · rw [kept r fun k hk => out k (by omega),vec_set here,if_neg (Ne.symm (out n (by omega)))]

lemma gather_loop {x ρ u : ℕ → ℕ} {d : ℕ} (bound : ∀ k<n,ρ k < d) (sum : ℕ)
    (hg : g.length=d) : let out := ((places n).foldl (fun (s : ℕ × Words) j =>
      (add s.1 (x j),s.2.set (ρ j) (add (s.2.at (ρ j)) (mul (add s.1 (x j)) (u j))))) (sum,g)).2
    (∀ r<d,vec out r = vec g r + ∑ k ∈ Finset.range n with ρ k = r,
        (sum + ∑ i ∈ Finset.Ico k n,(x i : ZMod field)) * u k) ∧
      out.length=d ∧ ((∀ y∈g,y<field) → ∀ y∈out,y<field) := by
  induction n generalizing sum g with
  | zero => exact ⟨fun r _ => by simp [places],hg,fun h => h⟩
  | succ n ih =>
    rw [places_succ]
    simp only [foldl_cons]
    have here : ρ n < g.length := hg ▸ bound n (lt_succ_self n)
    obtain ⟨gathered,length,below⟩ := ih (fun k hk => bound k (by omega)) (add sum (x n))
      (g := g.set (ρ n) (add (g.at (ρ n)) (mul (add sum (x n)) (u n)))) (by simpa using hg)
    refine ⟨fun r hr => ?_,length,fun h => below (set_canonical h (add_lt ..))⟩
    have rest : ∑ k ∈ Finset.range n with ρ k=r,
        ((add sum (x n):ℕ) + ∑ i ∈ Finset.Ico k n,(x i : ZMod field)) * u k =
        ∑ k ∈ Finset.range n with ρ k = r,
          (sum + ∑ i ∈ Finset.Ico k (n+1),(x i : ZMod field)) * u k := by
      refine Finset.sum_congr rfl fun k m => ?_
      have := Finset.mem_range.mp (Finset.mem_filter.mp m).1
      rw [cast_add,Finset.sum_Ico_succ_top (by omega)]
      ring
    rw [gathered r hr,rest,vec_set here,Finset.range_add_one,Finset.filter_insert]
    by_cases eq : ρ n=r
    · subst eq
      simp [vec]
      ring
    · rw [if_neg (Ne.symm eq),if_neg eq]

lemma vec_spread_loop (l : List (ℕ × ℕ)) (bound : ∀ p∈l,p.1<length)
    (nodup : (l.map Prod.fst).Nodup) (hg : g.length=length) (i : ℕ) :
    vec (l.foldl (fun (dense : Words) p => dense.set p.1 p.2) g) i =
      (l.map fun p => if p.1=i then (p.2 : ZMod field) else 0).sum +
        if i ∈ l.map Prod.fst then 0 else vec g i := by
  induction l generalizing g with
  | nil => simp
  | cons p l ih =>
    obtain ⟨new,nodup⟩ := nodup_cons.mp nodup
    rw [foldl_cons,ih (fun q m => bound q (mem_cons_of_mem _ m)) nodup (by simpa using hg),
      vec_set (hg ▸ bound p mem_cons_self),map_cons,map_cons,sum_cons]
    by_cases eq : i=p.1
    · subst eq
      simp [new,add_comm]
    · rw [if_neg eq,if_neg (Ne.symm eq),zero_add]
      simp only [mem_cons,eq,false_or]

lemma vec_spread (e : Sparse length weight) (i : ℕ) : vec e.spread i = e.dense i := by
  rw [Sparse.spread,vec_spread_loop e.entries (fun p m => (e.spec.1 p m).1) e.spec.2
    (length_replicate (n := length) (a := 0)) i,vec_replicate,ite_self,add_zero]
  rfl

lemma syndrome_ok (c : Code dim) (e : Sparse length weight) (square : length=dim*repeats) :
    ∃ s,c.syndrome e = .ok s ∧ s.length=dim ∧ (∀ v∈s,v<field) ∧ ∀ w,∑ i ∈
    Finset.range length,c.linear w i * e.dense i = ∑ r ∈ Finset.range dim,w r * vec s r := by
  subst square
  obtain ⟨-,-,-,-,rows,bound,injective⟩ := c.spec
  obtain ⟨moved,-⟩ := move_loop (x := e.spread.at) (v := c.description.secondScale.at)
    bound injective 0 (length_replicate (n := dim*repeats) (a := 0))
  obtain ⟨gathered,length,below⟩ := gather_loop
    (x := Words.at (Code.moved c.description (dim*repeats) e.spread))
    (u := c.description.firstScale.at) rows 0 (length_replicate (n := dim) (a := 0))
  refine ⟨_,if_neg (not_not.mpr rfl),length,below ?_,fun w => ?_⟩
  · intro y m
    exact eq_of_mem_replicate m ▸ field_pos
  · refine sum_repeatAccumulate_mul (g := vec (Code.moved c.description (dim*repeats)
      e.spread)) rows bound injective (fun k hk => ?_) (fun r hr => ?_) w
    · refine (moved k hk).trans ?_
      rw [cast_zero,zero_add]
      congr 1
      exact Finset.sum_congr rfl fun i _ => vec_spread e i
    · refine (gathered r hr).trans ?_
      rw [vec_replicate]
      simp only [cast_zero,zero_add]
      rfl

end

end Code

end Pllm.Maverick
