import Mathlib.Algebra.BigOperators.Group.List.Basic
import Mathlib.Data.List.Nodup

/-! A dictionary in the order of insertion, and sums over its items. -/
namespace Pllm.Lib
open List

structure Dict (κ ν : Type*) where
  items : List (κ × ν)
  nodup : (items.map Prod.fst).Nodup

namespace Dict

variable {κ ν : Type*} {d : Dict κ ν}

@[ext] lemma ext {d' : Dict κ ν} (h : d.items=d'.items) : d=d' := by
  cases d
  cases d'
  congr

def empty : Dict κ ν := ⟨[],List.nodup_nil⟩

def keys (d : Dict κ ν) : List κ := d.items.map Prod.fst

def size (d : Dict κ ν) : ℕ := d.items.length

/-- The keys whose item satisfies `p`, as a loop over a copy of the items meets them. -/
def keysWhere (d : Dict κ ν) (p : κ → ν → Bool) : List κ :=
  (d.items.filter fun i => p i.1 i.2).map Prod.fst

def sum {M : Type*} [AddCommMonoid M] (d : Dict κ ν) (f : κ → ν → M) : M :=
  (d.items.map fun i => f i.1 i.2).sum

variable [DecidableEq κ]

def get? (d : Dict κ ν) (k : κ) : Option ν :=
  (d.items.find? fun i => i.1=k).map Prod.snd

def erase (d : Dict κ ν) (k : κ) : Dict κ ν where
  items := d.items.filter fun i => i.1≠k
  nodup := d.nodup.sublist (List.filter_sublist.map _)

def modify (d : Dict κ ν) (k : κ) (f : ν → ν) : Dict κ ν where
  items := d.items.map fun i => if i.1=k then (i.1,f i.2) else i
  nodup := by
    rw [List.map_map]
    have : Prod.fst ∘ (fun i : κ × ν => if i.1=k then (i.1,f i.2) else i)=Prod.fst := by
      funext i
      simp only [Function.comp]
      split <;> rfl
    rw [this]
    exact d.nodup

variable {v : ν} {k : κ}

lemma get?_eq_some : d.get? k = some v ↔ (k,v)∈d.items := by
  obtain ⟨items,nodup⟩ := d
  simp only [get?]
  induction items with
  | nil => simp
  | cons i items ih =>
    obtain ⟨fresh,nodup⟩ := nodup_cons.mp nodup
    by_cases h : i.1=k
    · subst h
      have out (v : ν) : (i.1,v) ∉ items := fun m => fresh (mem_map.mpr ⟨_,m,rfl⟩)
      simp [out,Prod.ext_iff,eq_comm]
    · have : (k,v)≠i := by
        rintro rfl
        exact h rfl
      simpa [h,this] using ih nodup

lemma get?_eq_none : d.get? k = none ↔ k ∉ d.keys := by
  simp only [get?,keys,Option.map_eq_none_iff,find?_eq_none,mem_map,not_exists,not_and,
    decide_eq_true_eq]

/-- A new item goes to the end. -/
def insert (d : Dict κ ν) (k : κ) (v : ν) (new : d.get? k = none) : Dict κ ν where
  items := d.items++[(k,v)]
  nodup := by
    rw [List.map_append]
    refine List.nodup_append.mpr ⟨d.nodup,by simp,?_⟩
    rintro a ha b hb rfl
    simp only [List.map_cons,List.map_nil,List.mem_singleton] at hb
    exact get?_eq_none.mp new (hb ▸ ha)

/-- The assignment `d[k] = v`. -/
def set (d : Dict κ ν) (k : κ) (v : ν) : Dict κ ν :=
  if h : d.get? k=none then d.insert k v h else d.modify k fun _ => v

@[simp] lemma get?_empty (k : κ) : (empty : Dict κ ν).get? k = none := rfl

section
variable (d : Dict κ ν) (k x : κ)

lemma get?_erase : (d.erase k).get? x = if x=k then none else d.get? x := by
  apply Option.ext
  intro v
  rw [get?_eq_some]
  split
  · rename_i h
    simp [erase,h]
  · rename_i h
    simp [erase,h,get?_eq_some]

lemma get?_modify (f : ν → ν) :
    (d.modify k f).get? x = if x=k then (d.get? x).map f else d.get? x := by
  apply Option.ext
  intro v
  rw [get?_eq_some]
  simp only [modify,mem_map]
  split
  · rename_i h
    subst h
    simp only [Option.map_eq_some_iff,get?_eq_some]
    constructor
    · rintro ⟨⟨y,w⟩,m,eq⟩
      split at eq
      · rename_i h
        cases eq
        exact ⟨w,h ▸ m,rfl⟩
      · rename_i h
        cases eq
        exact absurd rfl h
    · rintro ⟨w,m,rfl⟩
      exact ⟨(x,w),m,by simp⟩
  · rename_i h
    rw [get?_eq_some]
    constructor
    · rintro ⟨⟨y,w⟩,m,eq⟩
      split at eq
      · rename_i same
        cases eq
        exact absurd same h
      · cases eq
        exact m
    · intro m
      exact ⟨(x,v),m,by simp [h]⟩

lemma get?_set (v : ν) : (d.set k v).get? x = if x=k then some v else d.get? x := by
  unfold set
  split
  · rename_i new
    apply Option.ext
    intro w
    rw [get?_eq_some]
    by_cases h : x=k
    · subst h
      have out : (x,w) ∉ d.items := fun m => get?_eq_none.mp new (mem_map.mpr ⟨_,m,rfl⟩)
      simp [insert,out,eq_comm]
    · simp [insert,h,get?_eq_some]
  · rename_i old
    rw [get?_modify]
    split
    · rename_i h
      subst h
      obtain ⟨w,eq⟩ := Option.ne_none_iff_exists'.mp old
      simp [eq]
    · rfl

end

lemma keysWhere_eq (d : Dict κ ν) (p : κ → ν → Bool) (k : κ) :
    k ∈ d.keysWhere p ↔ ∃ v,d.get? k = some v ∧ p k v = true := by
  simp [keysWhere,get?_eq_some]

omit [DecidableEq κ] in
lemma nodup_keysWhere (d : Dict κ ν) (p : κ → ν → Bool) : (d.keysWhere p).Nodup :=
  d.nodup.sublist (filter_sublist.map _)

section Sums

variable {M : Type*} [AddCommMonoid M] (f : κ → ν → M)

omit [DecidableEq κ] in
@[simp] lemma sum_empty : (empty : Dict κ ν).sum f = 0 := rfl

omit [DecidableEq κ] in
lemma size_eq_sum (d : Dict κ ν) : d.size=d.sum fun _ _ => 1 := by
  simp [size,sum]

section
variable {d : Dict κ ν} {k : κ}

lemma erase_of_none (h : d.get? k = none) : d.erase k = d := by
  apply ext
  refine filter_eq_self.mpr fun i m => ?_
  have : i.1∈d.keys := mem_map.mpr ⟨i,m,rfl⟩
  simpa using fun eq : i.1=k => get?_eq_none.mp h (eq ▸ this)

lemma sum_erase (h : d.get? k = some v) : f k v + (d.erase k).sum f = d.sum f := by
  rw [get?_eq_some] at h
  obtain ⟨items,nodup⟩ := d
  simp only [sum,erase] at h ⊢
  induction items with
  | nil => cases h
  | cons i items ih =>
    obtain ⟨fresh,nodup⟩ := nodup_cons.mp nodup
    by_cases eq : i.1=k
    · have same : i=(k,v) := by
        rcases mem_cons.mp h with h | h
        · exact h.symm
        · exact absurd (mem_map.mpr ⟨_,h,eq.symm⟩) fresh
      have rest : items.filter (fun i => i.1≠k)=items := by
        refine filter_eq_self.mpr fun j m => ?_
        simpa using fun e : j.1=k => fresh (mem_map.mpr ⟨j,m,e.trans eq.symm⟩)
      rw [filter_cons_of_neg (by simp [eq]),rest,same,map_cons,sum_cons]
    · have h : (k,v)∈items := by
        rcases mem_cons.mp h with h | h
        · exact absurd (congrArg Prod.fst h).symm eq
        · exact h
      rw [filter_cons_of_pos (by simp [eq]),map_cons,sum_cons,map_cons,
        sum_cons,← ih nodup h,add_left_comm]

lemma sum_insert (new : d.get? k = none) : (d.set k v).sum f = d.sum f + f k v := by
  simp [set,new,insert,sum]

lemma sum_modify_of_eq {g : ν → ν} (same : ∀ v,d.get? k = some v →
    f k (g v) = f k v) : (d.modify k g).sum f = d.sum f := by
  simp only [sum,modify,map_map]
  refine congrArg List.sum (map_congr_left fun i m => ?_)
  simp only [Function.comp]
  split
  · rename_i h
    exact h ▸ same i.2 (get?_eq_some.mpr (h ▸ m))
  · rfl

end

lemma erase_modify (d : Dict κ ν) (k : κ) (g : ν → ν) : (d.modify k g).erase k = d.erase k := by
  apply ext
  simp only [erase,modify,filter_map]
  have keep : (fun i : κ × ν => decide (i.1≠k)) ∘
      (fun i : κ × ν => if i.1=k then (i.1,g i.2) else i) = fun i => decide (i.1≠k) := by
    funext i
    simp only [Function.comp]
    split <;> rfl
  rw [keep]
  refine (map_congr_left fun i m => ?_).trans (map_id _)
  simpa using fun eq : i.1=k => absurd eq (by simpa using (mem_filter.mp m).2)

lemma sum_modify {g : ν → ν} (h : d.get? k = some v) :
    f k v + (d.modify k g).sum f = f k (g v) + d.sum f := by
  have image : (d.modify k g).get? k=some (g v) := by simp [get?_modify,h]
  rw [← sum_erase f image,← sum_erase f h,erase_modify,add_left_comm]

end Sums

end Dict
end Pllm.Lib
