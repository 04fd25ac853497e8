import Pllm.Interleaved.Layout
import Pllm.Lib.Scatter

/-! A cache that keys and values are appended to, and its reads. -/
namespace Pllm.Interleaved
open List

/-- Operations on signed words of 64 bits. -/
def signed (a : ℤ) : Result ℤ := if -2^63 ≤ a ∧ a<2^63 then .ok a else .error .wrapped

def inputRange (input : List ℤ) : Result Unit :=
  if input.any fun x => !(-maxAbsInput ≤ x && x ≤ maxAbsInput) then refuse .inputRange else .ok ()

structure RetainedCache where
  geometry : Geometry
  active : ℕ
  keys : List ℤ
  values : List ℤ

namespace RetainedCache

/-- Storage is admitted when it is all zero. -/
def new (g : Geometry) (keys values : List ℤ) : Result RetainedCache := do
  let k ← KeyLayout.storageWords g
  let v ← ValueLayout.storageWords g
  if keys.length≠k ∨ values.length≠v then refuse .bufferLength
  else if (keys++values).any (· ≠ 0) then refuse .nonZeroStorage
  else pure ⟨g,0,keys,values⟩

variable (c : RetainedCache)

def checkAppend (key value : List ℤ) : Result Unit :=
  if c.active=c.geometry.capacity then refuse .capacity
  else if key.length≠c.geometry.width ∨ value.length≠c.geometry.width then refuse .bufferLength
  else do
    inputRange key
    inputRange value

/-- One feature of one head of the next token. -/
def store (key value : List ℤ) (place : ℕ × ℕ) : Result RetainedCache := do
  let g := c.geometry
  let k ← unwrap (KeyLayout.address g c.active place.1 place.2)
  let v ← unwrap (ValueLayout.address g c.active place.1 place.2)
  pure { c with
    keys := c.keys.set (g.offset k) (key.getD (place.1*g.headDim+place.2) 0)
    values := c.values.set (g.offset v) (value.getD (place.1*g.headDim+place.2) 0) }

/-- What has been written stays when an address is none. -/
def storeAll (key value : List ℤ) : List (ℕ × ℕ) → RetainedCache → Result Unit × RetainedCache
  | [],c => (.ok (),c)
  | place::places,c => match c.store key value place with
    | .error e => (.error e,c)
    | .ok c => storeAll key value places c

/-- The heads and the features of a token. -/
def places (g : Geometry) : List (ℕ × ℕ) := List.range g.heads ×ˢ List.range g.headDim

def append (key value : List ℤ) : Result Unit × RetainedCache :=
  match c.checkAppend key value with
  | .error e => (.error e,c)
  | .ok _ => match storeAll key value (places c.geometry) c with
    | (.error e,c) => (.error e,c)
    | (.ok _,c) => (.ok (),{ c with active := c.active+1 })

/-- A query against the key of a head of a token. -/
def score (query : List ℤ) (token head : ℕ) : Result ℤ :=
  (List.range c.geometry.headDim).foldlM (fun sum f => do
    let a ← unwrap (KeyLayout.address c.geometry token head f)
    let product ← signed (query.getD (head*c.geometry.headDim+f) 0 *
      c.keys.getD (c.geometry.offset a) 0)
    signed (sum+product)) 0

def queryKey (query scores : List ℤ) : Result (List ℤ) :=
  if query.length≠c.geometry.width ∨ scores.length≠c.geometry.scoreWords then
    refuse .bufferLength
  else do
    inputRange query
    (List.range c.active ×ˢ List.range c.geometry.heads).foldlM (fun scores p => do
      let sum ← c.score query p.1 p.2
      let a ← unwrap (c.geometry.scoreAddress p.1 p.2)
      pure (scores.set (c.geometry.offset a) sum)) (List.replicate scores.length 0)

/-- A slot of the values, where `c` is its ciphertext in the group and `r` its lane. -/
structure Lane where
  group : ℕ
  c : ℕ
  f : ℕ
  h : ℕ
  r : ℕ

/-- The slots of the groups in the order of the loops. -/
def lanes (g : Geometry) (groups : ℕ) : List Lane :=
  (List.range groups ×ˢ List.range g.headDim ×ˢ List.range g.headDim ×ˢ List.range g.heads ×ˢ
    List.range g.t).map fun p => ⟨p.1,p.2.1,p.2.2.1,p.2.2.2.1,p.2.2.2.2⟩

/-- The token of a lane within its group. -/
def Lane.place (g : Geometry) (l : Lane) : ℕ := (l.f*g.t+l.r+l.c*g.t)%g.groupTokens

def Lane.token (g : Geometry) (l : Lane) : ℕ := l.group*g.groupTokens+l.place g

def attentionValue (weights output : List ℤ) : Result (List ℤ) :=
  let g := c.geometry
  if weights.length≠g.scoreWords ∨ output.length≠g.slots then refuse .bufferLength
  else do
    inputRange weights
    (lanes g (c.active ⌈/⌉ g.groupTokens)).foldlM (fun output l =>
      if l.token g < c.active then do
        let v := (l.group*g.headDim+l.c)*g.slots+g.embed (l.f*g.t+l.r) l.h
        let s := l.group*g.slots+g.embed (l.place g) l.h
        let o := g.embed (l.f*g.t) l.h
        let product ← signed (weights.getD s 0*c.values.getD v 0)
        let sum ← signed (output.getD o 0+product)
        pure (output.set o sum)
      else pure output) (List.replicate output.length 0)

end RetainedCache

open Pllm.Lib

/-- The feature of a head in a vector. -/
def entry (g : Geometry) (xs : List ℤ) (head feature : ℕ) : ℤ := xs.getD (head*g.headDim+feature) 0

/-- A vector that is admitted as an input. -/
def Input (width : ℕ) (xs : List ℤ) : Prop := xs.length=width ∧ ∀ x∈xs,x.natAbs≤2^20

lemma not_inRange (x : ℤ) :
    (!(decide (-maxAbsInput ≤ x) && decide (x ≤ maxAbsInput)))=true ↔ 2^20<x.natAbs := by
  rw [Bool.not_eq_true',Bool.and_eq_false_iff,decide_eq_false_iff_not,decide_eq_false_iff_not]
  unfold maxAbsInput
  omega

lemma inputRange_cases (xs : List ℤ) :
    (inputRange xs = refuse .inputRange) ∨ (inputRange xs = .ok () ∧ ∀ x∈xs,x.natAbs≤2^20) := by
  unfold inputRange
  split
  · exact .inl rfl
  · rename_i inside
    refine .inr ⟨rfl,fun x m => ?_⟩
    by_contra outside
    refine inside (any_eq_true.mpr ⟨x,m,?_⟩)
    rw [not_inRange]
    omega

variable {xs : List ℤ} {g : Geometry}

lemma inputRange_ok (h : ∀ x∈xs,x.natAbs≤2^20) : inputRange xs = .ok () := by
  refine if_neg fun outside => ?_
  obtain ⟨x,m,far⟩ := any_eq_true.mp outside
  rw [not_inRange] at far
  have := h x m
  omega

lemma natAbs_getD_le {bound : ℕ} (h : ∀ x∈xs,x.natAbs≤bound) (i : ℕ) :
    (xs.getD i 0).natAbs ≤ bound := by
  rw [getD_eq_getElem?_getD]
  cases eq : xs[i]? with
  | none => exact zero_le
  | some x => exact h x (mem_of_getElem? eq)

lemma signed_ok {a : ℤ} (h : a.natAbs<2^63) : signed a = .ok a := if_pos (by omega)

lemma natAbs_mul_le {a b : ℤ} (ha : a.natAbs≤2^20) (hb : b.natAbs≤2^20) : (a*b).natAbs≤2^40 := by
  rw [Int.natAbs_mul]
  calc a.natAbs*b.natAbs≤2^20*2^20 := mul_le_mul' ha hb
    _ = 2^40 := by decide

namespace RetainedCache

variable {c : RetainedCache} {history : List (List ℤ × List ℤ)}

/-- The tokens that were appended are where their addresses say. -/
structure Holds (history : List (List ℤ × List ℤ)) (c : RetainedCache) : Prop where
  active : c.active=history.length
  capacity : c.active ≤ c.geometry.capacity
  keys_length : c.keys.length = (c.geometry.capacity ⌈/⌉ c.geometry.t)*c.geometry.slots
  values_length : c.values.length =
    (c.geometry.capacity ⌈/⌉ c.geometry.groupTokens)*c.geometry.headDim*c.geometry.slots
  inputs : ∀ p∈history,Input c.geometry.width p.1 ∧ Input c.geometry.width p.2
  keys : ∀ token < c.active,∀ h < c.geometry.heads,∀ f < c.geometry.headDim,
    c.keys.getD (KeyLayout.place c.geometry token h f) 0 =
      entry c.geometry (history.getD token ([],[])).1 h f
  values : ∀ token < c.active,∀ h < c.geometry.heads,∀ f < c.geometry.headDim,
    c.values.getD (ValueLayout.place c.geometry token h f) 0 =
      entry c.geometry (history.getD token ([],[])).2 h f

lemma holds_new {keys values : List ℤ} (h : new g keys values = .ok c) :
    c.geometry=g ∧ Holds [] c := by
  obtain ⟨k,hk,v,hv,h⟩ := bind₂_eq_ok.mp h
  split at h
  · cases h
  rename_i lengths
  split at h
  · cases h
  obtain rfl := ok_inj h
  rw [not_or,not_not,not_not,KeyLayout.storageWords_eq g hk,ValueLayout.storageWords_eq g hv]
    at lengths
  exact ⟨rfl,rfl,zero_le,lengths.1,lengths.2,nofun,nofun,nofun⟩

lemma mem_places {p : ℕ × ℕ} : p ∈ places g ↔ p.1<g.heads ∧ p.2<g.headDim := by
  rw [places,mem_product,mem_range,mem_range]

lemma storeAll_ok (key value : List ℤ) (ps : List (ℕ × ℕ)) (inside : ∀ p∈ps,p.1 < c.geometry.heads ∧
    p.2 < c.geometry.headDim) (room : c.active < c.geometry.capacity) :
    storeAll key value ps c = (.ok (),{ c with
      keys := scatter (fun p => KeyLayout.place c.geometry c.active p.1 p.2)
        (fun p => entry c.geometry key p.1 p.2) ps c.keys
      values := scatter (fun p => ValueLayout.place c.geometry c.active p.1 p.2)
        (fun p => entry c.geometry value p.1 p.2) ps c.values }) := by
  induction ps generalizing c with
  | nil => rfl
  | cons p ps ih =>
    obtain ⟨hh,hf⟩ := inside p mem_cons_self
    obtain ⟨k,hk,-,kPlace⟩ := KeyLayout.address_ok c.geometry room hh hf
    obtain ⟨v,hv,-,vPlace⟩ := ValueLayout.address_ok c.geometry room hh hf
    have stored : c.store key value p = .ok { c with
        keys := c.keys.set (KeyLayout.place c.geometry c.active p.1 p.2)
          (entry c.geometry key p.1 p.2)
        values := c.values.set (ValueLayout.place c.geometry c.active p.1 p.2)
          (entry c.geometry value p.1 p.2) } := by
      unfold store
      dsimp only
      rw [hk,hv,← kPlace,← vPlace]
      rfl
    unfold storeAll
    rw [stored]
    exact ih (fun q m => inside q (mem_cons_of_mem _ m)) room

/-- The cache with a token more. -/
def appended (c : RetainedCache) (key value : List ℤ) : RetainedCache :=
  { c with
    active := c.active+1
    keys := scatter (fun p => KeyLayout.place c.geometry c.active p.1 p.2)
      (fun p => entry c.geometry key p.1 p.2) (places c.geometry) c.keys
    values := scatter (fun p => ValueLayout.place c.geometry c.active p.1 p.2)
      (fun p => entry c.geometry value p.1 p.2) (places c.geometry) c.values }

lemma append_cases (capacity : c.active ≤ c.geometry.capacity) (key value : List ℤ) : (∃ e,c.append
    key value = (refuse e,c)) ∨ (c.append key value = (.ok (),c.appended key value) ∧ c.active
    < c.geometry.capacity ∧ Input c.geometry.width key ∧ Input c.geometry.width value) := by
  unfold append checkAppend
  by_cases full : c.active=c.geometry.capacity
  · rw [if_pos full]
    exact .inl ⟨_,rfl⟩
  by_cases lengths : key.length≠c.geometry.width ∨ value.length≠c.geometry.width
  · rw [if_neg full,if_pos lengths]
    exact .inl ⟨_,rfl⟩
  rw [if_neg full,if_neg lengths]
  rcases inputRange_cases key with eq | ⟨eq,keys⟩
  · rw [eq]
    exact .inl ⟨_,rfl⟩
  rw [eq]
  rcases inputRange_cases value with eq | ⟨eq,values⟩
  · rw [eq]
    exact .inl ⟨_,rfl⟩
  have room : c.active < c.geometry.capacity := lt_of_le_of_ne capacity full
  rw [not_or,not_not,not_not] at lengths
  rw [eq]
  rw [storeAll_ok key value _ (fun p m => mem_places.mp m) room]
  exact .inr ⟨rfl,room,⟨lengths.1,keys⟩,lengths.2,values⟩

/-- A token that is written leaves the tokens before it. -/
lemma getD_append {α : Type*} {place : ℕ → ℕ → ℕ → ℕ} {tokenAt : ℕ → ℕ}
    {buffer : List α} {active : ℕ} (inter : Interleaves g place tokenAt)
    (inside : ∀ h<g.heads,∀ f<g.headDim,place active h f < buffer.length)
    (value : ℕ × ℕ → α) (d : α) {token h f : ℕ} (hh : h<g.heads) (hf : f<g.headDim) :
    (scatter (fun p => place active p.1 p.2) value (places g) buffer).getD (place token h f) d =
      if token=active then value (h,f) else buffer.getD (place token h f) d := by
  split
  · rename_i same
    subst same
    have m : (h,f) ∈ places g := mem_places.mpr ⟨hh,hf⟩
    have alone : ∀ p ∈ places g,place token p.1 p.2=place token h f → p=(h,f) := by
      intro p m eq
      obtain ⟨hh',hf'⟩ := mem_places.mp m
      obtain ⟨-,first,second⟩ := inter.injective hh' hf' hh hf eq
      exact Prod.ext first second
    have room : (fun p : ℕ × ℕ => place token p.1 p.2) (h,f)<buffer.length := inside h hh f hf
    exact getD_scatter d m alone room
  · rename_i other
    refine getD_scatter_other d (fun p m eq => ?_) buffer
    obtain ⟨hh',hf'⟩ := mem_places.mp m
    exact other (inter.injective hh' hf' hh hf eq).1.symm

lemma Holds.appended (holds : Holds history c) {key value : List ℤ} (room :
    c.active < c.geometry.capacity) (hkey : Input c.geometry.width key) (hval : Input
    c.geometry.width value) : Holds (history++[(key,value)]) (c.appended key value) := by
  have keyInside : ∀ h < c.geometry.heads,∀ f < c.geometry.headDim,
      KeyLayout.place c.geometry c.active h f < c.keys.length := fun h hh f hf =>
    holds.keys_length ▸ KeyLayout.place_lt c.geometry room hh hf
  have valueInside : ∀ h < c.geometry.heads,∀ f < c.geometry.headDim,
      ValueLayout.place c.geometry c.active h f < c.values.length := fun h hh f hf =>
    holds.values_length ▸ ValueLayout.place_lt c.geometry room hh hf
  have last : (history++[(key,value)]).getD c.active ([],[])=(key,value) := by
    rw [holds.active]
    simp
  have before (token : ℕ) (h : token < c.active) :
      (history++[(key,value)]).getD token ([],[]) = history.getD token ([],[]) := by
    rw [holds.active] at h
    rw [getD_eq_getElem?_getD,getElem?_append_left h,getD_eq_getElem?_getD]
  refine ⟨?_,room,(length_scatter _ _).trans holds.keys_length,
    (length_scatter _ _).trans holds.values_length,?_,?_,?_⟩
  · rw [length_append,← holds.active]
    rfl
  · intro p m
    rcases mem_append.mp m with m | m
    · exact holds.inputs p m
    · obtain rfl := mem_singleton.mp m
      exact ⟨hkey,hval⟩
  · intro token ht h hh f hf
    refine (getD_append (KeyLayout.interleaves c.geometry) keyInside _ 0 hh hf).trans ?_
    split
    · rename_i same
      subst same
      exact (congrArg (fun p : List ℤ × List ℤ => entry c.geometry p.1 h f) last).symm
    · have ht : token < c.active+1 := ht
      have old : token < c.active := by omega
      refine (holds.keys token old h hh f hf).trans ?_
      exact (congrArg (fun p : List ℤ × List ℤ => entry c.geometry p.1 h f) (before token old)).symm
  · intro token ht h hh f hf
    refine (getD_append (ValueLayout.interleaves c.geometry) valueInside _ 0 hh hf).trans ?_
    split
    · rename_i same
      subst same
      exact (congrArg (fun p : List ℤ × List ℤ => entry c.geometry p.2 h f) last).symm
    · have ht : token < c.active+1 := ht
      have old : token < c.active := by omega
      refine (holds.values token old h hh f hf).trans ?_
      exact (congrArg (fun p : List ℤ × List ℤ => entry c.geometry p.2 h f) (before token old)).symm

/-- A call of `append`, with the tokens that were appended. -/
def call (s : RetainedCache × List (List ℤ × List ℤ)) (p : List ℤ × List ℤ) :
    RetainedCache × List (List ℤ × List ℤ) :=
  match s.1.append p.1 p.2 with
  | (.ok _,c) => (c,s.2++[p])
  | (.error _,c) => (c,s.2)

lemma holds_calls {s : RetainedCache × List (List ℤ × List ℤ)} (holds : Holds s.2 s.1)
    (calls : List (List ℤ × List ℤ)) : (calls.foldl call s).1.geometry = s.1.geometry ∧ Holds
    (calls.foldl call s).2 (calls.foldl call s).1 := by
  induction calls generalizing s with
  | nil => exact ⟨rfl,holds⟩
  | cons p calls ih =>
    rw [foldl_cons]
    rcases append_cases holds.capacity p.1 p.2 with ⟨e,eq⟩ | ⟨eq,room,key,value⟩
    · have same : call s p=s := by
        unfold call
        rw [eq]
        rfl
      rw [same]
      exact ih holds
    · have next : call s p=(s.1.appended p.1 p.2,s.2++[p]) := by
        unfold call
        rw [eq]
      rw [next]
      exact ih (holds.appended room key value)

end RetainedCache

end Pllm.Interleaved
