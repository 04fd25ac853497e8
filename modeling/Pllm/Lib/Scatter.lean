import Pllm.Lib.Except

/-! Loops that write to places of a buffer, and loops that add to them in bounded words. -/
namespace Pllm.Lib
open List

variable {n bound limit : ℕ}

section Writes

variable {ι α : Type*} {place : ι → ℕ} {value : ι → α}

def scatter (place : ι → ℕ) (value : ι → α) (xs : List ι) (buffer : List α) : List α :=
  xs.foldl (fun buffer x => buffer.set (place x) (value x)) buffer

@[simp] lemma length_scatter (xs : List ι) (buffer : List α) :
    (scatter place value xs buffer).length = buffer.length := by
  induction xs generalizing buffer with
  | nil => rfl
  | cons x xs ih => exact (ih _).trans length_set

lemma getD_set {xs : List α} {i k : ℕ} (a d : α) (h : i<xs.length) :
    (xs.set i a).getD k d = if i=k then a else xs.getD k d := by
  rw [getD_eq_getElem?_getD,getElem?_set]
  split
  · simp
  · rw [getD_eq_getElem?_getD]

lemma getD_replicate (n k : ℕ) (a : α) : (replicate n a).getD k a = a := by
  rw [getD_eq_getElem?_getD,getElem?_replicate]
  split <;> rfl

variable {xs : List ι}

lemma getD_scatter_other {k : ℕ} (d : α) (outside : ∀ x∈xs,place x ≠ k)
    (buffer : List α) : (scatter place value xs buffer).getD k d = buffer.getD k d := by
  induction xs generalizing buffer with
  | nil => rfl
  | cons x xs ih =>
    refine (ih (fun y m => outside y (mem_cons_of_mem _ m)) _).trans ?_
    rw [getD_eq_getElem?_getD,getElem?_set_ne (outside x mem_cons_self),getD_eq_getElem?_getD]

variable {buffer : List α} {x : ι}

lemma getD_scatter (d : α) (m : x∈xs) (injective : ∀ y∈xs,place y = place x → y=x) (inside :
    place x < buffer.length) : (scatter place value xs buffer).getD (place x) d = value x := by
  induction xs generalizing buffer with
  | nil => cases m
  | cons y xs ih =>
    by_cases later : x∈xs
    · exact ih later (fun z m => injective z (mem_cons_of_mem _ m)) (length_set.symm ▸ inside)
    · have outside : ∀ z∈xs,place z ≠ place x := by
        intro z m eq
        exact later (injective z (mem_cons_of_mem _ m) eq ▸ m)
      obtain rfl : x=y := (mem_cons.mp m).resolve_right later
      refine (getD_scatter_other d outside _).trans ?_
      rw [getD_set _ _ inside,if_pos rfl]

lemma scatter_congr {value' : ι → α} (same : ∀ x∈xs,value x = value' x)
    (buffer : List α) : scatter place value xs buffer = scatter place value' xs buffer := by
  refine foldl_ext _ _ _ fun buffer x m => ?_
  rw [same x m]

lemma drop_scatter (inside : ∀ x∈xs,place x < n) (buffer : List α) :
    (scatter place value xs buffer).drop n = buffer.drop n := by
  induction xs generalizing buffer with
  | nil => rfl
  | cons x xs ih =>
    refine (ih (fun y m => inside y (mem_cons_of_mem _ m)) _).trans ?_
    exact drop_set_of_lt (inside x mem_cons_self)

/-- A sum over a buffer of zeros that has been written to is a sum over what was written. -/
lemma sum_scatter {R : Type*} [Semiring R] [DecidableEq ι] {value : ι → ℕ}
    (injective : ∀ x∈xs,∀ y∈xs,place y = place x → y=x) (inside : ∀ x∈xs,place x < n) (f : ℕ → R) :
    ∑ i ∈ Finset.range n,((scatter place value xs (replicate n 0)).getD i 0 : R)*f i =
      ∑ x ∈ xs.toFinset,(value x : R)*f (place x) := by
  have within : xs.toFinset.image place ⊆ Finset.range n := by
    intro i m
    obtain ⟨x,written,rfl⟩ := Finset.mem_image.mp m
    exact Finset.mem_range.mpr (inside x (mem_toFinset.mp written))
  rw [← Finset.sum_subset within fun i _ outside => ?_,Finset.sum_image fun x m y m' eq => ?_]
  · refine Finset.sum_congr rfl fun x m => ?_
    have m := mem_toFinset.mp m
    rw [getD_scatter 0 m (injective x m) (by rw [length_replicate]; exact inside x m)]
  · rw [Finset.mem_coe,mem_toFinset] at m m'
    exact injective y m' x m eq
  · have other : ∀ x∈xs,place x ≠ i := fun x m eq =>
      outside (Finset.mem_image.mpr ⟨x,mem_toFinset.mpr m,eq⟩)
    rw [getD_scatter_other 0 other,getD_replicate,Nat.cast_zero,zero_mul]

/-- A loop that changes its places in turn, each of them once. -/
lemma getD_foldl_update (place : ι → ℕ) (upd : ι → α → α) (d : α) (buffer : List α)
    (nodup : xs.Nodup) (injective : ∀ x∈xs,∀ y∈xs,place x = place y → x=y) (inside : ∀ x∈xs,place x
    < buffer.length) :
    let out := xs.foldl (fun b x => b.set (place x) (upd x (b.getD (place x) d))) buffer
    out.length = buffer.length ∧
    (∀ x∈xs,out.getD (place x) d = upd x (buffer.getD (place x) d)) ∧
      ∀ k,(∀ x∈xs,place x ≠ k) → out.getD k d = buffer.getD k d := by
  induction xs generalizing buffer with
  | nil => exact ⟨rfl,nofun,fun _ _ => rfl⟩
  | cons y xs ih =>
    obtain ⟨fresh,nodup⟩ := nodup_cons.mp nodup
    have here := inside y mem_cons_self
    have inside' : ∀ x∈xs,place x < (buffer.set (place y) (upd y (buffer.getD (place y) d))).length :=
      fun x m => length_set.symm ▸ inside x (mem_cons_of_mem _ m)
    obtain ⟨length,written,kept⟩ := ih _ nodup
      (fun x m z m' => injective x (mem_cons_of_mem _ m) z (mem_cons_of_mem _ m')) inside'
    have apart : ∀ x∈xs,place y ≠ place x := fun x m eq =>
      fresh (injective y mem_cons_self x (mem_cons_of_mem _ m) eq ▸ m)
    refine ⟨length.trans length_set,fun x m => ?_,fun k outside => ?_⟩
    · rcases mem_cons.mp m with rfl | m
      · refine (kept _ fun x m => (apart x m).symm).trans ?_
        rw [getD_set _ _ here,if_pos rfl]
      · refine (written x m).trans ?_
        rw [getD_set _ _ here,if_neg (apart x m)]
    · refine (kept k fun x m => outside x (mem_cons_of_mem _ m)).trans ?_
      rw [getD_set _ _ here,if_neg (outside y mem_cons_self)]

end Writes

section Sums
variable {R : Type*} [AddCommMonoid R]

lemma sum_map_range (n : ℕ) (f : ℕ → R) : ((range n).map f).sum = ∑ k ∈ Finset.range n,f k := by
  rw [← toFinset_range,sum_toFinset f nodup_range]

/-- The parts of blocks make up a dimension. -/
lemma sum_parts (dim : ℕ) {width : ℕ} (pos : 0<width) (f : ℕ → R) :
    ∑ i ∈ Finset.range (dim ⌈/⌉ width),
      ∑ h ∈ Finset.range (min width (dim-i*width)),f (i*width+h) = ∑ x ∈ Finset.range dim,f x := by
  have first (b : ℕ) : ∑ i ∈ Finset.range b,
      ∑ h ∈ Finset.range (min width (dim-i*width)),f (i*width+h) =
        ∑ x ∈ Finset.range (min (b*width) dim),f x := by
    induction b with
    | zero => simp
    | succ b ih =>
      rw [Finset.sum_range_succ,ih]
      by_cases more : b*width≤dim
      · have next : min ((b+1)*width) dim=b*width+min width (dim-b*width) := by
          rw [Nat.succ_mul]
          omega
        rw [next,min_eq_left more,Finset.sum_range_add]
      · have done : min ((b+1)*width) dim=dim := by
          rw [Nat.succ_mul]
          omega
        have rest : min width (dim-b*width)=0 := by omega
        rw [done,rest,Finset.sum_range_zero,add_zero,min_eq_right (not_le.mp more).le]
  rw [first,min_eq_right]
  rw [mul_comm]
  exact le_smul_ceilDiv pos

end Sums

section Adds

variable {ε ι : Type} {term : ι → ℤ} {xs : List ι}

/-- A sum whose partial sums stay within a bound. -/
lemma foldlM_sum {step : ℤ → ι → Except ε ℤ} (steps : ∀ x∈xs,∀ sum,(sum+term x).natAbs < limit →
    step sum x = .ok (sum+term x)) (small : ∀ x∈xs,(term x).natAbs ≤ bound) {start : ℤ} (room :
    start.natAbs+bound*xs.length<limit) : xs.foldlM step start = .ok (start+(xs.map term).sum) := by
  induction xs generalizing start with
  | nil => simp
  | cons x xs ih =>
    rw [length_cons,Nat.mul_succ] at room
    have first := small x mem_cons_self
    have next : (start+term x).natAbs ≤ start.natAbs+bound :=
      (Int.natAbs_add_le start (term x)).trans (Nat.add_le_add_left first _)
    rw [foldlM_cons,steps x mem_cons_self start (by omega),ok_bind,
      ih (fun y m => steps y (mem_cons_of_mem _ m))
        (fun y m => small y (mem_cons_of_mem _ m)) (by omega),map_cons,sum_cons,
      add_assoc]

/-- Terms that are added up at their places, where none gets too many of them. -/
lemma foldlM_scatterAdd {step : List ℤ → ι → Except ε (List ℤ)} (counts : ι → Bool)
    {place : ι → ℕ} {buffer : List ℤ}
    (skips : ∀ x∈xs,∀ buffer,counts x = false → step buffer x = .ok buffer)
    (adds : ∀ x∈xs,∀ buffer : List ℤ,counts x = true → (buffer.getD (place x) 0+term x).natAbs <
      limit → step buffer x = .ok (buffer.set (place x) (buffer.getD (place x) 0+term x)))
    (small : ∀ x∈xs,counts x = true → (term x).natAbs ≤ bound)
    (inside : ∀ x∈xs,counts x = true → place x < buffer.length)
    (room : ∀ k,(buffer.getD k 0).natAbs+bound*xs.countP (fun x => counts x && place x==k) <
      limit) :
    ∃ out,xs.foldlM step buffer = .ok out ∧ out.length=buffer.length ∧ ∀ k, out.getD k 0 =
        buffer.getD k 0+((xs.filter fun x => counts x && place x==k).map term).sum := by
  induction xs generalizing buffer with
  | nil => exact ⟨buffer,rfl,rfl,fun k => by simp⟩
  | cons x xs ih =>
    rw [foldlM_cons]
    cases counted : counts x with
    | false =>
      rw [skips x mem_cons_self buffer counted]
      obtain ⟨out,eq,length,sums⟩ := ih (fun y m => skips y (mem_cons_of_mem _ m)) (fun y m => adds
        y (mem_cons_of_mem _ m)) (fun y m => small y (mem_cons_of_mem _ m))
        (fun y m => inside y (mem_cons_of_mem _ m)) fun k => by
          have := room k
          rwa [countP_cons_of_neg (by simp [counted])] at this
      refine ⟨out,eq,length,fun k => ?_⟩
      rw [sums k,filter_cons_of_neg (by simp [counted])]
    | true =>
      have room' := room (place x)
      rw [countP_cons_of_pos (by simp [counted]),Nat.mul_succ] at room'
      have first := small x mem_cons_self counted
      have next : (buffer.getD (place x) 0+term x).natAbs ≤
          (buffer.getD (place x) 0).natAbs+bound :=
        (Int.natAbs_add_le _ _).trans (Nat.add_le_add_left first _)
      have here := inside x mem_cons_self counted
      rw [adds x mem_cons_self buffer counted (by omega)]
      have left (k : ℕ) : ((buffer.set (place x) (buffer.getD (place x) 0+term x)).getD k 0).natAbs +
          bound*xs.countP (fun y => counts y && place y==k)<limit := by
        rw [getD_set _ _ here]
        split
        · rename_i same
          subst same
          omega
        · rename_i other
          have := room k
          rwa [countP_cons_of_neg (by simp [other])] at this
      obtain ⟨out,eq,length,sums⟩ := ih (fun y m => skips y (mem_cons_of_mem _ m)) (fun y m => adds
        y (mem_cons_of_mem _ m)) (fun y m => small y (mem_cons_of_mem _ m)) (fun y m c =>
        length_set.symm ▸ inside y (mem_cons_of_mem _ m) c) left
      refine ⟨out,eq,length.trans length_set,fun k => ?_⟩
      rw [sums k,getD_set _ _ here]
      split
      · rename_i same
        subst same
        rw [filter_cons_of_pos (by simp [counted]),map_cons,sum_cons,add_assoc]
      · rename_i other
        rw [filter_cons_of_neg (by simp [other])]

end Adds

section Sums

variable {ι κ α : Type*} [AddCommMonoid α] {place : ι → ℕ} {value : ι → α}

def scatterAdd {ι α : Type*} [Zero α] [Add α] (place : ι → ℕ) (value : ι → α) (xs : List ι)
    (buffer : List α) : List α :=
  xs.foldl (fun buffer x => buffer.set (place x) (buffer.getD (place x) 0+value x)) buffer

lemma scatterAdd_congr {ι α : Type*} [Zero α] [Add α] {place place' : ι → ℕ} {value value' : ι →
    α} {xs : List ι} (same : ∀ x∈xs,place x = place' x ∧ value x = value' x) (buffer : List α) :
    scatterAdd place value xs buffer = scatterAdd place' value' xs buffer := by
  refine foldl_ext _ _ _ fun buffer x m => ?_
  rw [(same x m).1,(same x m).2]

lemma getD_scatterAdd (k : ℕ) {xs : List ι} (inside : ∀ x∈xs,place x < buffer.length) :
    (scatterAdd place value xs buffer).getD k 0 =
      buffer.getD k 0+(xs.map fun x => if place x = k then value x else 0).sum := by
  induction xs generalizing buffer with
  | nil => rw [map_nil,sum_nil,add_zero]; rfl
  | cons x xs ih =>
    have later : ∀ y∈xs,place y < (buffer.set (place x) (buffer.getD (place x) 0+value x)).length :=
      fun y m => length_set.symm ▸ inside y (mem_cons_of_mem _ m)
    refine (ih later).trans ?_
    rw [getD_set _ _ (inside x mem_cons_self),map_cons,sum_cons,← add_assoc]
    split
    · rename_i same
      subst same
      rfl
    · rw [add_zero]

lemma sum_map_product (xs : List ι) (ys : List κ) (f : ι × κ → α) :
    ((xs ×ˢ ys).map f).sum = (xs.map fun x => (ys.map fun y => f (x,y)).sum).sum := by
  induction xs with
  | nil => rfl
  | cons x xs ih =>
    rw [product_cons,map_append,sum_append,ih,map_map,map_cons,sum_cons]
    rfl

lemma sum_map_single [DecidableEq ι] {xs : List ι} (nodup : xs.Nodup) (m : x∈xs)
    {f : ι → α} (others : ∀ y∈xs,y≠x → f y = 0) : (xs.map f).sum = f x := by
  rw [← sum_toFinset f nodup]
  refine Finset.sum_eq_single_of_mem x (mem_toFinset.mpr m) fun y my other => ?_
  exact others y (mem_toFinset.mp my) other

/-- Terms of several steps that are added up at one of two places of each: their sum is what
both places hold in the end. -/
lemma getD_scatterAdd_pair [DecidableEq ι] (first second : ι → ℕ) (side : ι → κ → Bool) (term : ι
    × κ → α) {xs : List ι} (ys : List κ) {start : List α} (nodup : xs.Nodup) (inside : ∀ x∈xs,first
    x < start.length ∧ second x < start.length) (apart : ∀ x∈xs,∀ y∈xs,first x ≠ second y)
    (injective : ∀ x∈xs,∀ y∈xs,first x = first y ∨ second x = second y → x=y) (m : x∈xs)
    (zero : start.getD (first x) 0 = 0 ∧ start.getD (second x) 0 = 0) :
    let buffer := scatterAdd (fun p : ι × κ => if side p.1 p.2 then second p.1 else first p.1) term
      (xs ×ˢ ys) start
    buffer.getD (first x) 0+buffer.getD (second x) 0 = (ys.map fun y => term (x,y)).sum := by
  intro buffer
  have places : ∀ p ∈ xs ×ˢ ys,
      (if side p.1 p.2 then second p.1 else first p.1) < start.length := by
    intro p mp
    obtain ⟨h1,h2⟩ := inside p.1 (mem_product.mp mp).1
    split <;> assumption
  have one (k : ℕ) (empty : start.getD k 0=0) (here : ∀ y∈xs,y≠x → first y ≠ k ∧ second y ≠ k) :
      buffer.getD k 0 = (ys.map fun y =>
        if (if side x y then second x else first x)=k then term (x,y) else 0).sum := by
    refine (getD_scatterAdd k places).trans ?_
    rw [empty,zero_add,sum_map_product,sum_map_single nodup m fun y my other => ?_]
    refine sum_eq_zero fun z mz => ?_
    obtain ⟨w,-,rfl⟩ := mem_map.mp mz
    obtain ⟨h1,h2⟩ := here y my other
    refine if_neg ?_
    split <;> assumption
  rw [one (first x) zero.1 fun y my other =>
      ⟨fun eq => other (injective y my x m (.inl eq)),fun eq => apart x m y my eq.symm⟩,
    one (second x) zero.2 fun y my other =>
      ⟨apart y my x m,fun eq => other (injective y my x m (.inr eq))⟩,← sum_map_add]
  congr 1
  refine map_congr_left fun y _ => ?_
  have other := apart x m x m
  cases side x y <;> simp [other,other.symm]

end Sums

end Pllm.Lib
