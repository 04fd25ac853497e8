import Pllm.Interleaved.Cache

/-! Reads of a cache are exact, and their words do not overflow. -/
namespace Pllm.Interleaved
open Pllm.Lib Pllm.Interleaved.Geometry List

variable {g : Geometry}

lemma natAbs_entry_le {xs : List ℤ} (h : ∀ x∈xs,x.natAbs≤2^20)
    (head feature : ℕ) : (entry g xs head feature).natAbs ≤ 2^20 := natAbs_getD_le h _

lemma Geometry.headDim_le (g : Geometry) : g.headDim≤2^15 := by
  obtain ⟨heads,-,t,-⟩ := g.positive
  calc g.headDim≤g.headDim*(g.heads*g.t) := Nat.le_mul_of_pos_right _ (mul_pos heads t)
    _ = g.slots := by rw [g.slots_eq,mul_assoc]
    _ ≤ 2^15 := g.small.1

variable {h f active : ℕ} {mask : List ℕ}

namespace RetainedCache

variable {c : RetainedCache} {history : List (List ℤ × List ℤ)}

namespace Holds

variable (holds : Holds history c)
include holds

lemma input (token : ℕ) : (∀ x ∈ (history.getD token ([],[])).1,x.natAbs≤2^20) ∧
      ∀ x ∈ (history.getD token ([],[])).2,x.natAbs≤2^20 := by
  rw [getD_eq_getElem?_getD]
  cases eq : history[token]? with
  | none => exact ⟨nofun,nofun⟩
  | some p =>
    obtain ⟨key,value⟩ := holds.inputs p (mem_of_getElem? eq)
    exact ⟨key.2,value.2⟩

lemma score_ok {query : List ℤ} (bounded : ∀ x∈query,x.natAbs≤2^20) {token h : ℕ}
    (ht : token < c.active) (hh : h < c.geometry.heads) :
    c.score query token h = .ok (∑ f ∈ Finset.range c.geometry.headDim,
      entry c.geometry query h f*entry c.geometry (history.getD token ([],[])).1 h f) := by
  let term (f : ℕ) : ℤ :=
    entry c.geometry query h f*entry c.geometry (history.getD token ([],[])).1 h f
  have small (f : ℕ) : (term f).natAbs ≤ 2^40 :=
    natAbs_mul_le (natAbs_entry_le bounded h f) (natAbs_entry_le (holds.input token).1 h f)
  have room : (0:ℤ).natAbs+2^40*(range c.geometry.headDim).length < 2^63 := by
    have := c.geometry.headDim_le
    rw [length_range]
    omega
  refine (foldlM_sum (fun f m sum (fits : (sum+term f).natAbs < 2^63) => ?_) (fun f _ => small f)
    room).trans (congrArg _ (zero_add _))
  have hf := mem_range.mp m
  obtain ⟨a,eq,-,place⟩ := KeyLayout.address_ok c.geometry (lt_of_lt_of_le ht holds.capacity) hh hf
  have product : query.getD (h*c.geometry.headDim+f) 0*c.keys.getD (c.geometry.offset a) 0 =
      term f := by
    rw [place,holds.keys token ht h hh f hf]
    rfl
  have narrow : (term f).natAbs < 2^63 := lt_of_le_of_lt (small f) (by decide)
  rw [eq]
  dsimp only [unwrap]
  rw [ok_bind,product,signed_ok narrow,ok_bind,signed_ok fits]

/-- The score of a head of an active token is the dot product, and all other words are zero. -/
lemma queryKey_ok {query scores : List ℤ} (hque : Input c.geometry.width query)
    (hsco : scores.length=c.geometry.scoreWords) :
    ∃ out,c.queryKey query scores = .ok out ∧ out.length=c.geometry.scoreWords ∧
      (∀ token < c.active,∀ h < c.geometry.heads,
        out.getD (scorePlace c.geometry token h) 0 = ∑ f ∈ Finset.range c.geometry.headDim,
          entry c.geometry query h f*entry c.geometry (history.getD token ([],[])).1 h f) ∧
      ∀ k,(∀ token < c.active,∀ h < c.geometry.heads,scorePlace c.geometry token h ≠ k) →
        out.getD k 0 = 0 := by
  let place (p : ℕ × ℕ) : ℕ := scorePlace c.geometry p.1 p.2
  let value (p : ℕ × ℕ) : ℤ := ∑ f ∈ Finset.range c.geometry.headDim,
    entry c.geometry query p.2 f*entry c.geometry (history.getD p.1 ([],[])).1 p.2 f
  let ps := range c.active ×ˢ range c.geometry.heads
  have members (p : ℕ × ℕ) : p∈ps ↔ p.1 < c.active ∧ p.2 < c.geometry.heads := by
    rw [mem_product,mem_range,mem_range]
  have loop : c.queryKey query scores =
      .ok (scatter place value ps (replicate scores.length 0)) := by
    unfold queryKey
    rw [if_neg (by simp [hque.1,hsco]),inputRange_ok hque.2]
    refine (foldlM_ok (P := fun _ => True) ps _ trivial fun buffer _ p m => ⟨?_,trivial⟩).1
    obtain ⟨ht,hh⟩ := (members p).mp m
    obtain ⟨a,eq,-,at'⟩ := scoreAddress_ok c.geometry (lt_of_lt_of_le ht holds.capacity) hh
    rw [holds.score_ok hque.2 ht hh,ok_bind,eq]
    dsimp only [unwrap]
    rw [ok_bind,at']
    rfl
  refine ⟨_,loop,?_,fun token ht h hh => ?_,fun k outside => ?_⟩
  · rw [length_scatter,length_replicate,hsco]
  · have m : (token,h)∈ps := (members _).mpr ⟨ht,hh⟩
    have alone : ∀ p∈ps,place p=place (token,h) → p=(token,h) := by
      intro p m eq
      obtain ⟨first,second⟩ := scorePlace_injective c.geometry ((members p).mp m).2 hh eq
      exact Prod.ext first second
    refine getD_scatter 0 m alone ?_
    rw [length_replicate,hsco]
    exact scorePlace_lt c.geometry (lt_of_lt_of_le ht holds.capacity) hh
  · refine (getD_scatter_other 0 (fun p m => ?_) _).trans (getD_replicate _ _ _)
    obtain ⟨ht,hh⟩ := (members p).mp m
    exact outside p.1 ht p.2 hh

end Holds

section Lanes

variable {g : Geometry} {l : Lane}

def Lane.In (g : Geometry) (groups : ℕ) (l : Lane) : Prop :=
  l.group<groups ∧ l.c<g.headDim ∧ l.f<g.headDim ∧ l.h<g.heads ∧ l.r<g.t

lemma mem_lanes {groups : ℕ} : l ∈ lanes g groups ↔ l.In g groups := by
  unfold lanes Lane.In
  rw [mem_map]
  constructor
  · rintro ⟨⟨group,c,f,h,r⟩,inside,rfl⟩
    simpa only [mem_product,mem_range] using inside
  · intro inside
    refine ⟨(l.group,l.c,l.f,l.h,l.r),?_,rfl⟩
    simpa only [mem_product,mem_range] using inside

section
variable (g : Geometry)

lemma nodup_lanes (groups : ℕ) : (lanes g groups).Nodup := by
  refine List.Nodup.map ?_ (nodup_range.product (nodup_range.product
    (nodup_range.product (nodup_range.product nodup_range))))
  rintro ⟨_,_,_,_,_⟩ ⟨_,_,_,_,_⟩ eq
  simpa using eq

lemma place_lt (l : Lane) : l.place g < g.groupTokens := Nat.mod_lt _ g.group_pos

lemma token_div (l : Lane) : l.token g/g.groupTokens = l.group :=
  mul_add_div (place_lt g l)

lemma token_mod (l : Lane) : l.token g%g.groupTokens = l.place g :=
  mul_add_mod (place_lt g l)

lemma score_word (l : Lane) : l.group*g.slots+g.embed (l.place g) l.h =
    scorePlace g (l.token g) l.h := by
  unfold scorePlace
  rw [token_div,token_mod]
  rfl

end

variable {groups : ℕ} (inside : l.In g groups)
include inside

lemma place_eq : l.place g = (l.f+l.c)%g.headDim*g.t+l.r := around inside.2.2.2.2 l.f l.c

lemma value_word : (l.group*g.headDim+l.c)*g.slots+g.embed (l.f*g.t+l.r) l.h =
    ValueLayout.place g (l.token g) l.h l.f := by
  have hr := inside.2.2.2.2
  unfold ValueLayout.place
  rw [token_div,token_mod,place_eq inside,mul_add_div hr,mul_add_mod hr,
    around_forth inside.2.2.1 inside.2.1,embed_lane g l.h hr]
  rfl

end Lanes

/-- The lane of a feature of a head of a token. -/
def laneOf (g : Geometry) (token h f : ℕ) : Lane :=
  ⟨token/g.groupTokens,(token%g.groupTokens/g.t+g.headDim-f)%g.headDim,f,h,token%g.groupTokens%g.t⟩

def outputPlace (g : Geometry) (h f : ℕ) : ℕ := g.word 0 f h 0

lemma embed_output (g : Geometry) (h f : ℕ) : g.embed (f*g.t) h = outputPlace g h f := by
  have := embed_lane (f := f) g h g.positive.2.2.1
  rw [add_zero] at this
  rw [this,outputPlace,word,zero_mul,zero_add]

lemma outputPlace_injective {h f h' f' : ℕ} (hh : h<g.heads) (hf : f<g.headDim) (hh' : h'<g.heads)
    (hf' : f'<g.headDim) (eq : outputPlace g h f = outputPlace g h' f') : h=h' ∧ f=f' := by
  obtain ⟨-,first,second,-⟩ := word_decode 0 hf hh g.positive.2.2.1
  obtain ⟨-,first',second',-⟩ := word_decode 0 hf' hh' g.positive.2.2.1
  unfold outputPlace at eq
  rw [eq] at first second
  exact ⟨second.symm.trans second',first.symm.trans first'⟩

lemma outputPlace_lt (hh : h<g.heads) (hf : f<g.headDim) : outputPlace g h f < g.slots := by
  have := word_lt one_pos hf hh g.positive.2.2.1
  rwa [one_mul] at this

lemma lanes_perm (active : ℕ) (hh : h<g.heads) (hf : f<g.headDim) :
    (((lanes g (active ⌈/⌉ g.groupTokens)).filter fun l => decide (l.token g < active) &&
      outputPlace g l.h l.f==outputPlace g h f).map fun l => l.token g).Perm (range active) := by
  let chosen := (lanes g (active ⌈/⌉ g.groupTokens)).filter fun l =>
    decide (l.token g < active) && outputPlace g l.h l.f==outputPlace g h f
  have spec (l : Lane) : l∈chosen ↔
      l.In g (active ⌈/⌉ g.groupTokens) ∧ l.token g < active ∧ l.h=h ∧ l.f=f := by
    rw [mem_filter,mem_lanes,Bool.and_eq_true,decide_eq_true_eq,beq_iff_eq]
    constructor
    · rintro ⟨inside,ht,eq⟩
      exact ⟨inside,ht,outputPlace_injective inside.2.2.2.1 inside.2.2.1 hh hf eq⟩
    · rintro ⟨inside,ht,rfl,rfl⟩
      exact ⟨inside,ht,rfl⟩
  refine (perm_ext_iff_of_nodup ?_ nodup_range).mpr fun token => ?_
  · refine Nodup.map_on ?_ ((nodup_lanes g _).filter _)
    intro l m l' m' eq
    obtain ⟨inside,-,rfl,rfl⟩ := (spec l).mp m
    obtain ⟨inside',-,sameHead,sameFeature⟩ := (spec l').mp m'
    have group : l.group=l'.group := by
      rw [← token_div g l,eq,token_div]
    have places : (l.f+l.c)%g.headDim*g.t+l.r=(l'.f+l'.c)%g.headDim*g.t+l'.r := by
      rw [← place_eq inside,← place_eq inside',← token_mod g l,eq,token_mod]
    obtain ⟨-,hc,hf,-,hr⟩ := inside
    obtain ⟨-,hc',hf',-,hr'⟩ := inside'
    have lane : l.r=l'.r := by
      rw [← mul_add_mod hr (a := (l.f+l.c)%g.headDim),places,mul_add_mod hr']
    have turn : (l.f+l.c)%g.headDim=(l'.f+l'.c)%g.headDim := by
      rw [← mul_add_div hr (a := (l.f+l.c)%g.headDim),places,mul_add_div hr']
    have ct : l.c=l'.c := by
      rw [← around_forth hf hc,turn,← sameFeature,around_forth hf' hc']
    obtain ⟨_,_,_,_,_⟩ := l
    obtain ⟨_,_,_,_,_⟩ := l'
    simp only [Lane.mk.injEq]
    exact ⟨group,ct,sameFeature.symm,sameHead.symm,lane⟩
  · rw [mem_map,mem_range]
    constructor
    · rintro ⟨l,m,rfl⟩
      exact ((spec l).mp m).2.1
    · intro ht
      have inside : (laneOf g token h f).In g (active ⌈/⌉ g.groupTokens) :=
        ⟨div_lt_ceilDiv g.group_pos ht,Nat.mod_lt _ g.positive.2.1,hf,hh,g.place_mod_lt token⟩
      have same : (laneOf g token h f).token g=token := by
        unfold Lane.token
        rw [place_eq inside]
        dsimp only [laneOf]
        rw [around_back hf (g.place_div_lt token),Nat.div_add_mod',Nat.div_add_mod']
      exact ⟨_,(spec _).mpr ⟨inside,by rw [same]; exact ht,rfl,rfl⟩,same⟩

/-- An output feature of a head is the weighted sum of the values, and all other words are zero. -/
lemma Holds.attentionValue_ok (holds : Holds history c) {weights output : List ℤ}
    (hwts : weights.length=c.geometry.scoreWords) (bounded : ∀ x∈weights,x.natAbs≤2^20)
    (hout : output.length=c.geometry.slots) : ∃ out,c.attentionValue weights output = .ok out ∧
    out.length=c.geometry.slots ∧ (∀ h < c.geometry.heads,∀ f < c.geometry.headDim,
    out.getD (outputPlace c.geometry h f) 0 = ∑ token ∈ Finset.range c.active, weights.getD
    (scorePlace c.geometry token h) 0 * entry c.geometry (history.getD token ([],[])).2 h f) ∧
    ∀ k,(∀ h < c.geometry.heads,∀ f < c.geometry.headDim,outputPlace c.geometry h f ≠ k) →
    out.getD k 0 = 0 := by
  let g := c.geometry
  let groups := c.active ⌈/⌉ g.groupTokens
  let place (l : Lane) : ℕ := outputPlace g l.h l.f
  let weighted (h f token : ℕ) : ℤ :=
    weights.getD (scorePlace g token h) 0*entry g (history.getD token ([],[])).2 h f
  let counts (l : Lane) : Bool := decide (l.token g < c.active)
  have small (h f token : ℕ) : (weighted h f token).natAbs ≤ 2^40 :=
    natAbs_mul_le (natAbs_getD_le bounded _) (natAbs_entry_le (holds.input token).2 h f)
  have tokens : c.active≤2^15 := holds.capacity.trans g.small.2
  -- No place gets more terms than there are active tokens.
  have count (k : ℕ) : (lanes g groups).countP (fun l => counts l && place l==k) ≤ c.active := by
    by_cases hit : ∃ h<g.heads,∃ f<g.headDim,outputPlace g h f=k
    · obtain ⟨h,hh,f,hf,rfl⟩ := hit
      have perm := (lanes_perm c.active hh hf).length_eq
      rw [length_map,length_range,← countP_eq_length_filter] at perm
      exact perm.le
    · refine le_of_eq_of_le (countP_eq_zero.mpr fun l m both => ?_) zero_le
      obtain ⟨-,-,hf,hh,-⟩ := mem_lanes.mp m
      rw [Bool.and_eq_true,beq_iff_eq] at both
      exact hit ⟨l.h,hh,l.f,hf,both.2⟩
  have start : (replicate output.length (0:ℤ)).length=g.slots := by
    rw [length_replicate,hout]
  let step (output : List ℤ) (l : Lane) : Result (List ℤ) :=
    if l.token g < c.active then do
      let v := (l.group*g.headDim+l.c)*g.slots+g.embed (l.f*g.t+l.r) l.h
      let s := l.group*g.slots+g.embed (l.place g) l.h
      let o := g.embed (l.f*g.t) l.h
      let product ← signed (weights.getD s 0*c.values.getD v 0)
      let sum ← signed (output.getD o 0+product)
      pure (output.set o sum)
    else pure output
  have loop : ∃ out,(lanes g groups).foldlM step (replicate output.length 0) = .ok out ∧
      out.length = (replicate output.length (0:ℤ)).length ∧ ∀ k,out.getD k 0 =
        (replicate output.length (0:ℤ)).getD k 0 +
          (((lanes g groups).filter fun l => counts l && place l==k).map
            fun l => weighted l.h l.f (l.token g)).sum := by
    refine foldlM_scatterAdd counts (fun l _ output skipped => if_neg (of_decide_eq_false skipped))
      (fun l m output counted (fits : (output.getD (place l) 0 +
        weighted l.h l.f (l.token g)).natAbs < 2^63) => ?_)
      (fun l _ _ => small l.h l.f (l.token g)) (fun l m _ => ?_) fun k => ?_
    · have ht := of_decide_eq_true counted
      have inside := mem_lanes.mp m
      dsimp only [step]
      rw [if_pos ht,value_word inside,score_word,embed_output,
        holds.values _ ht l.h inside.2.2.2.1 l.f inside.2.2.1,
        signed_ok (lt_of_le_of_lt (small l.h l.f (l.token g)) (by decide)),ok_bind,signed_ok fits]
      rfl
    · have inside := mem_lanes.mp m
      rw [start]
      exact outputPlace_lt inside.2.2.2.1 inside.2.2.1
    · have := count k
      rw [Lib.getD_replicate]
      omega
  obtain ⟨out,eq,length,sums⟩ := loop
  refine ⟨out,?_,length.trans start,fun h hh f hf => ?_,fun k outside => ?_⟩
  · unfold attentionValue
    rw [if_neg (by simp [hwts,hout]),inputRange_ok bounded]
    exact eq
  · rw [sums,Lib.getD_replicate,zero_add]
    have same : ((lanes g groups).filter fun l => counts l && place l==outputPlace g h f).map
        (fun l => weighted l.h l.f (l.token g)) =
        (((lanes g groups).filter fun l => counts l && place l==outputPlace g h f).map
          fun l => l.token g).map (weighted h f) := by
      rw [map_map]
      refine map_congr_left fun l m => ?_
      obtain ⟨m,both⟩ := mem_filter.mp m
      obtain ⟨-,-,hf',hh',-⟩ := mem_lanes.mp m
      rw [Bool.and_eq_true,beq_iff_eq] at both
      obtain ⟨head,feature⟩ := outputPlace_injective hh' hf' hh hf both.2
      rw [Function.comp_apply,head,feature]
    rw [same,((lanes_perm c.active hh hf).map _).sum_eq]
    rfl
  · rw [sums,Lib.getD_replicate]
    have none : (lanes g groups).filter (fun l => counts l && place l==k)=[] := by
      refine filter_eq_nil_iff.mpr fun l m both => ?_
      obtain ⟨-,-,hf,hh,-⟩ := mem_lanes.mp m
      rw [Bool.and_eq_true,beq_iff_eq] at both
      exact outside l.h hh l.f hf both.2
    rw [none]
    rfl

end RetainedCache

variable (g : Geometry)

lemma product_ok {a b : ℕ} (h : a*b<2^64) : product a b = .ok (a*b) := if_pos h

lemma ceilDiv_le {a n : ℕ} (hn : 0<n) : a ⌈/⌉ n≤a :=
  (ceilDiv_le_iff_le_smul hn).mpr (Nat.le_mul_of_pos_left a hn)

namespace KeyLayout

lemma storageWords_ok : storageWords g = .ok ((g.capacity ⌈/⌉ g.t)*g.slots) := by
  unfold storageWords ciphertexts
  rw [if_neg (lt_irrefl _)]
  refine product_ok ?_
  calc (g.capacity ⌈/⌉ g.t)*g.slots ≤ 2^15*2^15 :=
        mul_le_mul' ((ceilDiv_le g.positive.2.2.1).trans g.small.2) g.small.1
    _ < 2^64 := by decide

lemma validityMask_ok (h : active≤g.capacity) (hm : mask.length = (g.capacity ⌈/⌉ g.t)*g.slots) :
    validityMask g active mask = .ok (maskOf mask.length (tokenAt g) active) := by
  unfold validityMask ciphertexts
  rw [if_neg (not_lt.mpr h),ok_bind,storageWords_ok,ok_bind,if_neg (not_not.mpr hm)]
  rfl

end KeyLayout

namespace ValueLayout

lemma ciphertexts_ok (h : active≤g.capacity) :
    ciphertexts g active = .ok ((active ⌈/⌉ g.groupTokens)*g.headDim) := by
  unfold ciphertexts
  rw [if_neg (not_lt.mpr h)]
  refine product_ok ?_
  calc (active ⌈/⌉ g.groupTokens)*g.headDim ≤ 2^15*2^15 :=
        mul_le_mul' ((ceilDiv_le g.group_pos).trans (h.trans g.small.2)) g.headDim_le
    _ < 2^64 := by decide

lemma storageWords_ok :
    storageWords g = .ok ((g.capacity ⌈/⌉ g.groupTokens)*g.headDim*g.slots) := by
  unfold storageWords
  rw [ciphertexts_ok g le_rfl]
  refine product_ok ?_
  calc (g.capacity ⌈/⌉ g.groupTokens)*g.headDim*g.slots ≤ 2^15*2^15*2^15 := by
        refine mul_le_mul' (mul_le_mul' ?_ g.headDim_le) g.small.1
        exact (ceilDiv_le g.group_pos).trans g.small.2
    _ < 2^64 := by decide

lemma validityMask_ok (h : active≤g.capacity)
    (hm : mask.length = (g.capacity ⌈/⌉ g.groupTokens)*g.headDim*g.slots) :
    validityMask g active mask = .ok (maskOf mask.length (tokenAt g) active) := by
  unfold validityMask
  rw [ciphertexts_ok g h,ok_bind,storageWords_ok,ok_bind,if_neg (not_not.mpr hm)]
  rfl

end ValueLayout

/-- Addresses of features of heads of tokens that do not meet, within so many words. -/
def Addresses (words : ℕ) (address : ℕ → ℕ → ℕ → Result Address) : Prop :=
  ∀ token<g.capacity,∀ h<g.heads,∀ f<g.headDim,∃ a,address token h f = .ok a ∧
    a.slot<g.slots ∧ g.offset a < words ∧
    ∀ token'<g.capacity,∀ h'<g.heads,∀ f'<g.headDim,
      address token' h' f' = .ok a → token'=token ∧ h'=h ∧ f'=f

/-- A mask that is set exactly on the addresses of the active tokens. -/
def Marks (address : ℕ → ℕ → ℕ → Result Address) (active : ℕ) (mask : List ℕ) : Prop :=
  ∀ i < mask.length,∃ bit,mask[i]? = some bit ∧ (bit=0 ∨ bit=1) ∧ (bit=1 ↔
    ∃ token<active,∃ h<g.heads,∃ f<g.headDim,∃ a,address token h f = .ok a ∧ g.offset a = i)

variable {g} {place : ℕ → ℕ → ℕ → ℕ} {tokenAt : ℕ → ℕ} {address : ℕ → ℕ → ℕ → Result Address}

section
variable (inter : Interleaves g place tokenAt)
  (found : ∀ {token head feature : ℕ},token<g.capacity → head<g.heads → feature<g.headDim →
    ∃ a,address token head feature = .ok a ∧ a.slot<g.slots ∧ g.offset a = place token head feature)
include inter found

lemma Interleaves.addresses {words : ℕ}
    (room : ∀ {token head feature : ℕ},token<g.capacity → head<g.heads → feature<g.headDim →
      place token head feature < words) : Addresses g words address := by
  intro token ht h hh f hf
  obtain ⟨a,eq,slot,offset⟩ := found ht hh hf
  refine ⟨a,eq,slot,offset ▸ room ht hh hf,fun token' ht' h' hh' f' hf' eq' => ?_⟩
  obtain ⟨a',again,-,offset'⟩ := found ht' hh' hf'
  obtain rfl : a'=a := ok_inj (again.symm.trans eq')
  exact inter.injective hh' hf' hh hf (offset'.symm.trans offset)

lemma Interleaves.marks (h : active≤g.capacity) (words : ℕ) :
    Marks g address active (maskOf words tokenAt active) := by
  intro i hi
  have hi : i<words := by simpa [maskOf] using hi
  obtain ⟨bit,get,binary,set⟩ := inter.getElem?_maskOf hi active
  refine ⟨bit,get,binary,set.trans ?_⟩
  constructor
  · rintro ⟨token,ht,head,hh,f,hf,rfl⟩
    obtain ⟨a,eq,-,offset⟩ := found (lt_of_lt_of_le ht h) hh hf
    exact ⟨token,ht,head,hh,f,hf,a,eq,offset⟩
  · rintro ⟨token,ht,head,hh,f,hf,a,eq,rfl⟩
    obtain ⟨a',again,-,offset⟩ := found (lt_of_lt_of_le ht h) hh hf
    obtain rfl : a'=a := ok_inj (again.symm.trans eq)
    exact ⟨token,ht,head,hh,f,hf,offset.symm⟩

end

namespace RetainedCache

/-- The weight at a score address. -/
def weight (g : Geometry) (weights : List ℤ) (token head : ℕ) : ℤ :=
  match g.scoreAddress token head with
  | .ok a => weights.getD (g.offset a) 0
  | .error _ => 0

lemma weight_eq {token head : ℕ} (weights : List ℤ) (ht : token<g.capacity)
    (hh : head<g.heads) : weight g weights token head = weights.getD (scorePlace g token head) 0 := by
  obtain ⟨a,found,-,offset⟩ := scoreAddress_ok g ht hh
  rw [weight,found]
  exact congrArg (weights.getD · 0) offset

/-- The reads of a cache that holds a history of appended keys and values. -/
structure Reads (c : RetainedCache) (history : List (List ℤ × List ℤ)) : Prop where
  /-- A failing append changes nothing, and an admitted one within the capacity does not fail. -/
  atomic : ∀ key value e,(c.append key value).1 = .error e →
    (∃ r,e = .refused r) ∧ (c.append key value).2 = c
  appends : ∀ key value,c.active < c.geometry.capacity → Input c.geometry.width key →
    Input c.geometry.width value → (c.append key value).1 = .ok ()
  scores : ∀ query scores,Input c.geometry.width query → scores.length=c.geometry.scoreWords →
    ∃ out,c.queryKey query scores = .ok out ∧ out.length=c.geometry.scoreWords ∧
      (∀ token < c.active,∀ h < c.geometry.heads,∃ a,c.geometry.scoreAddress token h = .ok a ∧
        out.getD (c.geometry.offset a) 0 = ∑ f ∈ Finset.range c.geometry.headDim,
          entry c.geometry query h f*entry c.geometry (history.getD token ([],[])).1 h f) ∧
      ∀ k,(∀ token < c.active,∀ h < c.geometry.heads,∀ a,
        c.geometry.scoreAddress token h = .ok a → c.geometry.offset a ≠ k) → out.getD k 0 = 0
  outputs : ∀ weights output,weights.length=c.geometry.scoreWords →
    (∀ x∈weights,x.natAbs≤2^20) → output.length=c.geometry.slots →
    ∃ out,c.attentionValue weights output = .ok out ∧ out.length=c.geometry.slots ∧
      (∀ h < c.geometry.heads,∀ f < c.geometry.headDim,∃ o,c.geometry.outputSlot h f = .ok o ∧
        out.getD o 0 = ∑ token ∈ Finset.range c.active,
        weight c.geometry weights token h * entry c.geometry (history.getD token ([],[])).2 h f) ∧
      ∀ k,(∀ h < c.geometry.heads,∀ f < c.geometry.headDim,∀ o,
        c.geometry.outputSlot h f = .ok o → o≠k) → out.getD k 0 = 0

lemma Holds.reads {c : RetainedCache} {history : List (List ℤ × List ℤ)}
    (holds : Holds history c) : Reads c history := by
  refine ⟨fun key value e failed => ?_,fun key value room hkey hval => ?_,
    fun query scores hque hsco => ?_,fun weights output hwts bounded hout => ?_⟩
  · rcases append_cases holds.capacity key value with ⟨r,eq⟩ | ⟨eq,-⟩
    · rw [eq] at failed ⊢
      exact ⟨⟨r,(Except.error.inj failed).symm⟩,rfl⟩
    · rw [eq] at failed
      cases failed
  · unfold append checkAppend
    rw [if_neg room.ne,if_neg (by simp [hkey.1,hval.1]),inputRange_ok hkey.2,ok_bind,
      inputRange_ok hval.2]
    rw [storeAll_ok key value _ (fun p m => mem_places.mp m) room]
  · obtain ⟨out,eq,length,sums,zeros⟩ := holds.queryKey_ok hque hsco
    refine ⟨out,eq,length,fun token ht h hh => ?_,fun k outside => zeros k fun token ht h hh => ?_⟩
    · obtain ⟨a,found,-,offset⟩ := scoreAddress_ok c.geometry (lt_of_lt_of_le ht holds.capacity) hh
      exact ⟨a,found,offset ▸ sums token ht h hh⟩
    · obtain ⟨a,found,-,offset⟩ := scoreAddress_ok c.geometry (lt_of_lt_of_le ht holds.capacity) hh
      exact offset ▸ outside token ht h hh a found
  · have slot {h f : ℕ} (hh : h < c.geometry.heads) (hf : f < c.geometry.headDim) :
        c.geometry.outputSlot h f = .ok (outputPlace c.geometry h f) := by
      unfold outputSlot
      rw [checkIndex_ok c.geometry c.geometry.positive.2.2.2 hh hf,embed_output]
      rfl
    obtain ⟨out,eq,length,sums,zeros⟩ := holds.attentionValue_ok hwts bounded hout
    refine ⟨out,eq,length,fun h hh f hf => ⟨_,slot hh hf,(sums h hh f hf).trans ?_⟩,
      fun k outside => zeros k fun h hh f hf => outside h hh f hf _ (slot hh hf)⟩
    refine Finset.sum_congr rfl fun token m => ?_
    rw [weight_eq weights (lt_of_lt_of_le (Finset.mem_range.mp m) holds.capacity) hh]

end RetainedCache

/-- For every geometry the addresses do not meet, and after every sequence of appends the reads are
exact and the masks mark the active tokens. -/
theorem interleaved_layout (g : Geometry) :
    (∃ words,KeyLayout.storageWords g = .ok words ∧ Addresses g words (KeyLayout.address g)) ∧
    (∃ words,ValueLayout.storageWords g = .ok words ∧ Addresses g words (ValueLayout.address g)) ∧
    (∀ token<g.capacity,∀ h<g.heads,∃ a,g.scoreAddress token h = .ok a ∧ a.slot<g.slots ∧
      g.offset a < g.scoreWords ∧ ∀ token'<g.capacity,∀ h'<g.heads,
        g.scoreAddress token' h' = .ok a → token'=token ∧ h'=h) ∧
    (∀ active≤g.capacity,∀ mask : List ℕ,
      (KeyLayout.storageWords g = .ok mask.length → ∃ out, KeyLayout.validityMask g active mask =
        .ok out ∧ out.length=mask.length ∧ Marks g (KeyLayout.address g) active out) ∧
      (ValueLayout.storageWords g = .ok mask.length → ∃ out, ValueLayout.validityMask g active mask
        = .ok out ∧ out.length=mask.length ∧ Marks g (ValueLayout.address g) active out)) ∧
    ∀ keys values c,RetainedCache.new g keys values = .ok c → ∀ calls : List (List ℤ × List ℤ),
      let s := calls.foldl RetainedCache.call (c,[])
      s.1.geometry = g ∧ s.1.active=s.2.length ∧ s.1.active≤g.capacity ∧
        RetainedCache.Reads s.1 s.2 := by
  refine ⟨⟨_,KeyLayout.storageWords_ok g,?_⟩,⟨_,ValueLayout.storageWords_ok g,?_⟩,?_,?_,?_⟩
  · exact (KeyLayout.interleaves g).addresses (KeyLayout.address_ok g) (KeyLayout.place_lt g)
  · exact (ValueLayout.interleaves g).addresses (ValueLayout.address_ok g) (ValueLayout.place_lt g)
  · intro token ht h hh
    obtain ⟨a,found,slot,offset⟩ := scoreAddress_ok g ht hh
    refine ⟨a,found,slot,offset ▸ scorePlace_lt g ht hh,fun token' ht' h' hh' found' => ?_⟩
    obtain ⟨a',again,-,offset'⟩ := scoreAddress_ok g ht' hh'
    obtain rfl : a'=a := Except.ok.inj (again.symm.trans found')
    exact scorePlace_injective g hh' hh (offset'.symm.trans offset)
  · intro active h mask
    refine ⟨fun hm => ?_,fun hm => ?_⟩
    · have hm := Except.ok.inj (hm.symm.trans (KeyLayout.storageWords_ok g))
      refine ⟨_,KeyLayout.validityMask_ok g h hm,by simp [maskOf],?_⟩
      exact (KeyLayout.interleaves g).marks (KeyLayout.address_ok g) h _
    · have hm := Except.ok.inj (hm.symm.trans (ValueLayout.storageWords_ok g))
      refine ⟨_,ValueLayout.validityMask_ok g h hm,by simp [maskOf],?_⟩
      exact (ValueLayout.interleaves g).marks (ValueLayout.address_ok g) h _
  · intro keys values c created calls
    obtain ⟨rfl,start⟩ := RetainedCache.holds_new created
    obtain ⟨geometry,holds⟩ := RetainedCache.holds_calls (s := (c,[])) start calls
    exact ⟨geometry,holds.active,geometry ▸ holds.capacity,holds.reads⟩

/-- Two heads of two features, and three tokens in two ciphertexts. -/
def twoHeads : Geometry := ⟨4,2,2,3,4,1,2,rfl,rfl,rfl,by decide,by decide⟩

/-- An append of the wrong length between two good ones, and a read of each kind. -/
theorem interleaved_layout_small : ∃ (c : RetainedCache) (keys values : List ℤ),
    RetainedCache.new twoHeads keys values = .ok c ∧
    let s := [([1,2,3,4],[5,6,7,8]),([0],[0]),([-1,9,2,1],[1,1,1,1])].foldl RetainedCache.call (c,[])
    s.2.length=2 ∧ (∃ out a,s.1.queryKey [2,3,5,7] (replicate 8 0) = .ok out ∧
      twoHeads.scoreAddress 1 1 = .ok a ∧ out.getD (twoHeads.offset a) 0 = 17) ∧
    ∃ out o,s.1.attentionValue (replicate 8 1) (replicate 4 0) = .ok out ∧
      twoHeads.outputSlot 0 1 = .ok o ∧ out.getD o 0 = 7 := by
  obtain ⟨-,-,-,-,runs⟩ := interleaved_layout twoHeads
  have made : RetainedCache.new twoHeads (replicate 12 0) (replicate 16 0) =
      .ok ⟨twoHeads,0,replicate 12 0,replicate 16 0⟩ := by rfl
  obtain ⟨geometry,active,-,reads⟩ := runs _ _ _ made [([1,2,3,4],[5,6,7,8]),([0],[0]),
    ([-1,9,2,1],[1,1,1,1])]
  refine ⟨_,_,_,made,?_⟩
  generalize hs : [([1,2,3,4],[5,6,7,8]),([0],[0]),([-1,9,2,1],[1,1,1,1])].foldl
    RetainedCache.call (⟨twoHeads,0,replicate 12 0,replicate 16 0⟩,[]) = s at *
  have history : s.2=[([1,2,3,4],[5,6,7,8]),([-1,9,2,1],[1,1,1,1])] := by
    rw [← hs]
    decide +kernel
  rw [history] at active reads
  obtain ⟨out,ok,-,scores,-⟩ := reads.scores [2,3,5,7] (replicate 8 0)
    (by rw [geometry]; exact ⟨rfl,by decide⟩) (by rw [geometry]; rfl)
  obtain ⟨out',ok',-,slots,-⟩ := reads.outputs (replicate 8 1) (replicate 4 0)
    (by rw [geometry]; rfl) (by decide) (by rw [geometry]; rfl)
  rw [geometry,active] at scores slots
  obtain ⟨a,address,score⟩ := scores 1 (by decide) 1 (by decide)
  obtain ⟨o,slot,value⟩ := slots 0 (by decide) 1 (by decide)
  refine ⟨by rw [history]; rfl,⟨out,a,ok,address,?_⟩,out',o,ok',slot,?_⟩
  · exact score.trans (by decide)
  · exact value.trans (by decide)

end Pllm.Interleaved
