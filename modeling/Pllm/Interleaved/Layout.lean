import Pllm.Common.Slices
import Pllm.Lib.Except

/-! The slots of interleaved keys, of distributed values and of scores. -/
namespace Pllm.Interleaved
open Nat

def maxSlots : ℕ := 32768
def maxCapacity : ℕ := 32768
def maxStorageWords : ℕ := 16*1024*1024
def maxReadWork : ℕ := 16*1024*1024
def maxAbsInput : ℤ := 2^20

inductive LayoutError
  | geometry
  | overflow
  | resourceLimit
  | bufferLength
  | nonZeroStorage
  | inputRange
  | capacity
  | index
  deriving DecidableEq

/-- A call is refused, a signed word overflows, or an address is unwrapped that is none. -/
inductive Failure
  | refused (error : LayoutError)
  | wrapped
  | panic
  deriving DecidableEq

abbrev Result := Except Failure

def refuse {α : Type} (error : LayoutError) : Result α := .error (.refused error)

def unwrap {α : Type} : Result α → Result α
  | .error _ => .error .panic
  | .ok a => .ok a

structure Address where
  ciphertext : ℕ
  slot : ℕ

def product (a b : ℕ) : Result ℕ := if a*b<2^64 then .ok (a*b) else refuse .overflow

/-- The machine's test counts the bits. -/
def isPowerOfTwo (n : ℕ) : Bool := 0 < n && n &&& (n-1) = 0

/-- Slots are made of the lanes of features of heads. -/
structure Geometry where
  slots : ℕ
  heads : ℕ
  headDim : ℕ
  capacity : ℕ
  width : ℕ
  t : ℕ
  groupTokens : ℕ
  width_eq : width=heads*headDim
  slots_eq : slots=headDim*heads*t
  group_eq : groupTokens=headDim*t
  positive : 0<heads ∧ 0<headDim ∧ 0<t ∧ 0 < capacity
  small : slots ≤ maxSlots ∧ capacity ≤ maxCapacity

namespace Geometry

variable (g : Geometry)

def checkIndex (token head feature : ℕ) : Result Unit :=
  if token≥g.capacity ∨ head≥g.heads ∨ feature≥g.headDim then refuse .index else .ok ()

/-- A slot of one head among the blocks of `t` slots, which the heads share in turn. -/
def embed (place head : ℕ) : ℕ := (place/g.t*g.heads+head)*g.t+place%g.t

def scoreWords : ℕ := (g.capacity ⌈/⌉ g.groupTokens)*g.slots

def scoreAddress (token head : ℕ) : Result Address := do
  g.checkIndex token head 0
  pure ⟨token/g.groupTokens,g.embed (token%g.groupTokens) head⟩

def outputSlot (head feature : ℕ) : Result ℕ := do
  g.checkIndex 0 head feature
  pure (g.embed (feature*g.t) head)

def offset (a : Address) : ℕ := a.ciphertext*g.slots+a.slot

end Geometry

/-- Whether a slot belongs to an active token. -/
def maskOf (words : ℕ) (token : ℕ → ℕ) (active : ℕ) : List ℕ :=
  (List.range words).map fun i => if token i < active then 1 else 0

namespace KeyLayout

variable (g : Geometry)

def ciphertexts (active : ℕ) : Result ℕ :=
  if active>g.capacity then refuse .capacity else .ok (active ⌈/⌉ g.t)

def storageWords : Result ℕ := do
  let count ← ciphertexts g g.capacity
  product count g.slots

def address (token head feature : ℕ) : Result Address := do
  g.checkIndex token head feature
  pure ⟨token/g.t,g.embed (feature*g.t+token%g.t) head⟩

/-- The token that a slot of the storage belongs to. -/
def tokenAt (i : ℕ) : ℕ := i/g.slots*g.t+i%g.t

def validityMask (active : ℕ) (mask : List ℕ) : Result (List ℕ) := do
  let _ ← ciphertexts g active
  let words ← storageWords g
  if mask.length≠words then refuse .bufferLength
  else pure (maskOf mask.length (tokenAt g) active)

end KeyLayout

namespace ValueLayout

variable (g : Geometry)

def ciphertexts (active : ℕ) : Result ℕ :=
  if active>g.capacity then refuse .capacity else product (active ⌈/⌉ g.groupTokens) g.headDim

def storageWords : Result ℕ := do
  let count ← ciphertexts g g.capacity
  product count g.slots

/-- The tokens of a group go around its ciphertexts, feature by feature. -/
def address (token head feature : ℕ) : Result Address := do
  g.checkIndex token head feature
  let place := token%g.groupTokens
  let c := (place/g.t+g.headDim-feature)%g.headDim
  pure ⟨token/g.groupTokens*g.headDim+c,g.embed (feature*g.t+place%g.t) head⟩

def tokenAt (i : ℕ) : ℕ :=
  let ct := i/g.slots
  let slot := i%g.slots
  let feature := slot/g.t/g.heads
  let place := feature*g.t+slot%g.t
  ct/g.headDim*g.groupTokens+(place+ct%g.headDim*g.t)%g.groupTokens

def validityMask (active : ℕ) (mask : List ℕ) : Result (List ℕ) := do
  let _ ← ciphertexts g active
  let words ← storageWords g
  if mask.length≠words then refuse .bufferLength
  else pure (maskOf mask.length (tokenAt g) active)

end ValueLayout

def Geometry.new (slots heads headDim capacity : ℕ) : Result Geometry := do
  let _ ← product heads headDim
  if h : isPowerOfTwo slots ∧ isPowerOfTwo heads ∧ isPowerOfTwo headDim ∧ heads*headDim≠0
      ∧ heads*headDim ≤ slots ∧ slots%(heads*headDim)=0 ∧ capacity≠0 then
    if h' : slots ≤ maxSlots ∧ capacity ≤ maxCapacity then do
      have positive : 0<heads ∧ 0<headDim := by
        obtain ⟨-,-,-,nonzero,-⟩ := h
        exact ⟨Nat.pos_of_ne_zero (left_ne_zero_of_mul nonzero),
          Nat.pos_of_ne_zero (right_ne_zero_of_mul nonzero)⟩
      have whole : slots=headDim*heads*(slots/(heads*headDim)) := by
        rw [Nat.mul_comm headDim,Nat.mul_div_cancel' (Nat.dvd_of_mod_eq_zero h.2.2.2.2.2.1)]
      have group : slots/heads=headDim*(slots/(heads*headDim)) := by
        refine Nat.div_eq_of_eq_mul_right positive.1 (whole.trans ?_)
        rw [Nat.mul_left_comm,Nat.mul_assoc]
      have lanes : 0 < slots/(heads*headDim) :=
        Nat.div_pos h.2.2.2.2.1 (Nat.pos_of_ne_zero h.2.2.2.1)
      let g : Geometry := ⟨slots,heads,headDim,capacity,heads*headDim,slots/(heads*headDim),
        slots/heads,rfl,whole,group,
        ⟨positive.1,positive.2,lanes,Nat.pos_of_ne_zero h.2.2.2.2.2.2⟩,h'⟩
      let k ← KeyLayout.storageWords g
      let v ← ValueLayout.storageWords g
      if ¬k+v < 2^64 then refuse .overflow
      else do
        if k+v>maxStorageWords ∨ v>maxReadWork then refuse .resourceLimit
        else do
          let work ← product capacity (heads*headDim)
          if work>maxReadWork then refuse .resourceLimit else pure g
    else refuse .resourceLimit
  else refuse .geometry

example : ((Geometry.new 8 2 2 5).map fun g => (g.width,g.t,g.groupTokens)) = .ok (4,2,4) := by
  decide +kernel

open Pllm.Lib

variable {a b n words : ℕ}

namespace Geometry

variable (g : Geometry)

/-- The word of a lane of a head's feature in a ciphertext. -/
def word (ct f h r : ℕ) : ℕ := ct*g.slots+((f*g.heads+h)*g.t+r)

variable {g} {ct f h r : ℕ}

lemma slot_lt (hf : f<g.headDim) (hh : h<g.heads) (hr : r<g.t) : (f*g.heads+h)*g.t+r<g.slots := by
  rw [g.slots_eq]
  exact mul_add_lt (mul_add_lt hf hh) hr

lemma word_lt {count : ℕ} (hct : ct < count) (hf : f<g.headDim) (hh : h<g.heads)
    (hr : r<g.t) : g.word ct f h r < count*g.slots := mul_add_lt hct (slot_lt hf hh hr)

lemma mul_add_div (h : b<n) : (a*n+b)/n=a := by
  rw [mul_comm,Nat.mul_add_div (zero_lt_of_lt h),div_eq_of_lt h,add_zero]

lemma mul_add_mod (h : b<n) : (a*n+b)%n=b := by
  rw [mul_comm,Nat.mul_add_mod,mod_eq_of_lt h]

lemma word_decode (ct : ℕ) (hf : f<g.headDim) (hh : h<g.heads) (hr : r<g.t) :
    g.word ct f h r/g.slots = ct ∧ g.word ct f h r%g.slots/g.t/g.heads = f ∧
      g.word ct f h r%g.slots/g.t%g.heads = h ∧ g.word ct f h r%g.slots%g.t = r := by
  unfold word
  rw [mul_add_div (slot_lt hf hh hr),mul_add_mod (slot_lt hf hh hr),mul_add_div hr,mul_add_mod hr,
    mul_add_div hh,mul_add_mod hh]
  exact ⟨rfl,rfl,rfl,rfl⟩

lemma word_encode (i : ℕ) :
    g.word (i/g.slots) (i%g.slots/g.t/g.heads) (i%g.slots/g.t%g.heads) (i%g.slots%g.t)=i := by
  unfold word
  rw [div_add_mod',div_add_mod',div_add_mod']

section
variable (g : Geometry)

lemma slots_pos : 0<g.slots := by
  obtain ⟨heads,headDim,t,-⟩ := g.positive
  rw [g.slots_eq]
  exact mul_pos (mul_pos headDim heads) t

lemma group_pos : 0<g.groupTokens := by
  rw [g.group_eq]
  exact mul_pos g.positive.2.1 g.positive.2.2.1

lemma head_lt (i : ℕ) : i%g.slots/g.t%g.heads<g.heads :=
  mod_lt _ g.positive.1

lemma feature_lt (i : ℕ) : i%g.slots/g.t/g.heads<g.headDim := by
  rw [Nat.div_div_eq_div_mul]
  refine Nat.div_lt_of_lt_mul ?_
  have := mod_lt i g.slots_pos
  rw [g.slots_eq] at this ⊢
  calc i%(g.headDim*g.heads*g.t) < g.headDim*g.heads*g.t := this
    _ = g.t*g.heads*g.headDim := by ring

lemma lane_lt (i : ℕ) : i%g.slots%g.t<g.t := mod_lt _ g.positive.2.2.1

lemma lane_eq (i : ℕ) : i%g.slots%g.t=i%g.t :=
  mod_mod_of_dvd i ⟨g.headDim*g.heads,by rw [g.slots_eq,mul_comm]⟩

end

lemma div_lt_ceilDiv {x capacity n : ℕ} (hn : 0<n) (h : x < capacity) : x/n < capacity ⌈/⌉ n :=
  Nat.div_lt_of_lt_mul (h.trans_le (le_smul_ceilDiv hn))

lemma place_div_lt (g : Geometry) (token : ℕ) : token%g.groupTokens/g.t<g.headDim := by
  refine Nat.div_lt_of_lt_mul ?_
  have := mod_lt token g.group_pos
  rwa [g.group_eq,mul_comm] at this ⊢

lemma place_mod_lt (g : Geometry) (token : ℕ) : token%g.groupTokens%g.t<g.t :=
  mod_lt _ g.positive.2.2.1

lemma around (hr : r<g.t) (f c : ℕ) : (f*g.t+r+c*g.t)%g.groupTokens = (f+c)%g.headDim*g.t+r := by
  have small : (f+c)%g.headDim*g.t+r<g.groupTokens := by
    rw [g.group_eq]
    exact mul_add_lt (mod_lt _ g.positive.2.1) hr
  have split : f*g.t+r+c*g.t=(f+c)/g.headDim*g.groupTokens+((f+c)%g.headDim*g.t+r) := by
    calc f*g.t+r+c*g.t=(f+c)*g.t+r := by ring
      _ = ((f+c)/g.headDim*g.headDim+(f+c)%g.headDim)*g.t+r := by rw [div_add_mod']
      _ = (f+c)/g.headDim*(g.headDim*g.t)+((f+c)%g.headDim*g.t+r) := by ring
      _ = (f+c)/g.headDim*g.groupTokens+((f+c)%g.headDim*g.t+r) := by rw [g.group_eq]
  rw [split,mul_add_mod small]

end Geometry

open Pllm.Interleaved.Geometry

lemma around_back {f d n : ℕ} (hf : f<n) (hd : d<n) : (f+(d+n-f)%n)%n=d := by
  rw [add_mod_mod,show f+(d+n-f)=d+n by omega,add_mod_right,mod_eq_of_lt hd]

lemma around_forth {f c n : ℕ} (hf : f<n) (hc : c<n) : ((f+c)%n+n-f)%n=c := by
  by_cases wrap : f+c<n
  · rw [mod_eq_of_lt wrap,show f+c+n-f=c+n by omega,add_mod_right,mod_eq_of_lt hc]
  · have rest : (f+c)%n=f+c-n := by
      rw [mod_eq_sub_mod (not_lt.mp wrap),mod_eq_of_lt (by omega)]
    rw [rest,show f+c-n+n-f=c by omega,mod_eq_of_lt hc]

/-- A bijection between the words of a storage and the features of heads of tokens. -/
structure Interleaves (g : Geometry) (place : ℕ → ℕ → ℕ → ℕ) (tokenAt : ℕ → ℕ) : Prop where
  decode : ∀ token,∀ h<g.heads,∀ f<g.headDim,tokenAt (place token h f)=token ∧
    place token h f%g.slots/g.t%g.heads = h ∧ place token h f%g.slots/g.t/g.heads = f
  encode : ∀ i,place (tokenAt i) (i%g.slots/g.t%g.heads) (i%g.slots/g.t/g.heads)=i

namespace Interleaves

variable {g : Geometry} {place : ℕ → ℕ → ℕ → ℕ} {tokenAt : ℕ → ℕ} {token : ℕ}

lemma injective (inter : Interleaves g place tokenAt) {h f token' h' f' : ℕ}
    (hh : h<g.heads) (hf : f<g.headDim) (hh' : h'<g.heads) (hf' : f'<g.headDim)
    (eq : place token h f = place token' h' f') : token=token' ∧ h=h' ∧ f=f' := by
  obtain ⟨first,second,third⟩ := inter.decode token h hh f hf
  obtain ⟨first',second',third'⟩ := inter.decode token' h' hh' f' hf'
  rw [eq] at first second third
  exact ⟨first.symm.trans first',second.symm.trans second',third.symm.trans third'⟩

lemma getElem?_maskOf (inter : Interleaves g place tokenAt) {words i : ℕ} (hi : i<words)
    (active : ℕ) : ∃ bit,(maskOf words tokenAt active)[i]? = some bit ∧ (bit=0 ∨ bit=1) ∧
      (bit=1 ↔ ∃ token<active,∃ h<g.heads,∃ f<g.headDim,place token h f = i) := by
  refine ⟨if tokenAt i < active then 1 else 0,by simp [maskOf,hi],?_,?_⟩
  · split
    · exact .inr rfl
    · exact .inl rfl
  · constructor
    · intro set
      have inside : tokenAt i < active := by
        by_contra outside
        rw [if_neg outside] at set
        cases set
      exact ⟨_,inside,_,g.head_lt i,_,g.feature_lt i,inter.encode i⟩
    · rintro ⟨token,inside,h,hh,f,hf,rfl⟩
      rw [(inter.decode token h hh f hf).1,if_pos inside]

end Interleaves

variable (g : Geometry)

variable {token head feature : ℕ}

lemma checkIndex_ok (ht : token<g.capacity) (hh : head<g.heads)
    (hf : feature<g.headDim) : g.checkIndex token head feature = .ok () := if_neg (by omega)

lemma embed_eq (place head : ℕ) : g.embed place head = (place/g.t*g.heads+head)*g.t+place%g.t := rfl

lemma embed_lane {f r : ℕ} (head : ℕ) (hr : r<g.t) :
    g.embed (f*g.t+r) head = (f*g.heads+head)*g.t+r := by
  rw [embed_eq,mul_add_div hr,mul_add_mod hr]

namespace KeyLayout

def place (token head feature : ℕ) : ℕ := g.word (token/g.t) feature head (token%g.t)

lemma address_ok (ht : token<g.capacity) (hh : head<g.heads) (hf : feature<g.headDim) : ∃ a,address
    g token head feature = .ok a ∧ a.slot<g.slots ∧ g.offset a = place g token head feature := by
  refine ⟨⟨token/g.t,g.embed (feature*g.t+token%g.t) head⟩,?_,?_⟩
  · unfold address
    rw [checkIndex_ok g ht hh hf]
    rfl
  · rw [embed_lane g head (mod_lt _ g.positive.2.2.1)]
    exact ⟨slot_lt hf hh (mod_lt _ g.positive.2.2.1),rfl⟩

lemma interleaves : Interleaves g (place g) (tokenAt g) := by
  refine ⟨fun token h hh f hf => ?_,fun i => ?_⟩
  · obtain ⟨ct,feature,head,lane⟩ := word_decode (token/g.t) hf hh (mod_lt token g.positive.2.2.1)
    refine ⟨?_,head,feature⟩
    unfold tokenAt place
    rw [ct,← lane_eq,lane,div_add_mod']
  · have lane : i%g.t<g.t := mod_lt i g.positive.2.2.1
    unfold place tokenAt
    rw [mul_add_div lane,mul_add_mod lane,← lane_eq]
    exact word_encode i

lemma place_lt (ht : token<g.capacity) (hh : head<g.heads) (hf :
    feature<g.headDim) : place g token head feature < (g.capacity ⌈/⌉ g.t)*g.slots :=
  word_lt (div_lt_ceilDiv g.positive.2.2.1 ht) hf hh (mod_lt _ g.positive.2.2.1)

lemma storageWords_eq (h : storageWords g = .ok words) : words = (g.capacity ⌈/⌉ g.t)*g.slots := by
  unfold storageWords ciphertexts product at h
  rw [if_neg (lt_irrefl _),ok_bind] at h
  split at h
  · exact (ok_inj h).symm
  · cases h

end KeyLayout

namespace ValueLayout

def place (token head feature : ℕ) : ℕ :=
  g.word (token/g.groupTokens*g.headDim+(token%g.groupTokens/g.t+g.headDim-feature)%g.headDim)
    feature head (token%g.groupTokens%g.t)

lemma address_ok (ht : token<g.capacity) (hh : head<g.heads) (hf : feature<g.headDim) : ∃ a,address
    g token head feature = .ok a ∧ a.slot<g.slots ∧ g.offset a = place g token head feature := by
  refine ⟨⟨token/g.groupTokens*g.headDim+(token%g.groupTokens/g.t+g.headDim-feature)%g.headDim,
    g.embed (feature*g.t+token%g.groupTokens%g.t) head⟩,?_,?_⟩
  · unfold address
    rw [checkIndex_ok g ht hh hf]
    rfl
  · rw [embed_lane g head (g.place_mod_lt token)]
    exact ⟨slot_lt hf hh (g.place_mod_lt token),rfl⟩

lemma interleaves : Interleaves g (place g) (tokenAt g) := by
  have positive := g.positive
  refine ⟨fun token h hh f hf => ?_,fun i => ?_⟩
  · obtain ⟨ct,feature,head,lane⟩ := word_decode
      (token/g.groupTokens*g.headDim+(token%g.groupTokens/g.t+g.headDim-f)%g.headDim)
      hf hh (g.place_mod_lt token)
    refine ⟨?_,head,feature⟩
    have turn := mod_lt (token%g.groupTokens/g.t+g.headDim-f) positive.2.1
    unfold tokenAt place
    dsimp only
    rw [ct,feature,lane,mul_add_div turn,mul_add_mod turn,around (g.place_mod_lt token),
      around_back hf (g.place_div_lt token),div_add_mod',div_add_mod']
  · have lane := g.lane_lt i
    have turn := mod_lt (i/g.slots) positive.2.1
    have inside : (i%g.slots/g.t/g.heads+i/g.slots%g.headDim)%g.headDim*g.t+i%g.slots%g.t <
        g.groupTokens := by
      rw [g.group_eq]
      exact mul_add_lt (mod_lt _ positive.2.1) lane
    unfold place tokenAt
    dsimp only
    rw [around lane,mul_add_div inside,mul_add_mod inside,mul_add_div lane,mul_add_mod lane,
      around_forth (g.feature_lt i) turn,div_add_mod']
    exact word_encode i

lemma place_lt (ht : token<g.capacity) (hh : head<g.heads) (hf : feature<g.headDim) : place g token
    head feature < (g.capacity ⌈/⌉ g.groupTokens)*g.headDim*g.slots := by
  have group := div_lt_ceilDiv g.group_pos ht
  exact word_lt (mul_add_lt group (mod_lt _ g.positive.2.1)) hf hh (g.place_mod_lt token)

lemma storageWords_eq (h : storageWords g = .ok words) :
    words = (g.capacity ⌈/⌉ g.groupTokens)*g.headDim*g.slots := by
  unfold storageWords ciphertexts product at h
  rw [if_neg (lt_irrefl _)] at h
  obtain ⟨count,eq,h⟩ := bind_eq_ok.mp h
  split at eq
  · obtain rfl := ok_inj eq
    split at h
    · exact (ok_inj h).symm
    · cases h
  · cases eq

end ValueLayout

def scorePlace (token head : ℕ) : ℕ :=
  g.word (token/g.groupTokens) (token%g.groupTokens/g.t) head (token%g.groupTokens%g.t)

lemma scoreAddress_ok {head : ℕ} (ht : token<g.capacity) (hh : head<g.heads) : ∃ a,g.scoreAddress
    token head = .ok a ∧ a.slot<g.slots ∧ g.offset a = scorePlace g token head := by
  refine ⟨⟨token/g.groupTokens,g.embed (token%g.groupTokens) head⟩,?_,?_,rfl⟩
  · unfold scoreAddress
    rw [checkIndex_ok g ht hh g.positive.2.1]
    rfl
  · exact slot_lt (g.place_div_lt token) hh (g.place_mod_lt token)

lemma scorePlace_injective {head token' head' : ℕ} (hh : head<g.heads) (hh' : head'<g.heads)
    (eq : scorePlace g token head = scorePlace g token' head') : token=token' ∧ head=head' := by
  obtain ⟨ct,feature,same,lane⟩ := word_decode (token/g.groupTokens)
    (g.place_div_lt token) hh (g.place_mod_lt token)
  obtain ⟨ct',feature',same',lane'⟩ := word_decode (token'/g.groupTokens)
    (g.place_div_lt token') hh' (g.place_mod_lt token')
  unfold scorePlace at eq
  rw [eq] at ct feature same lane
  have place : token%g.groupTokens=token'%g.groupTokens := by
    rw [← div_add_mod' (token%g.groupTokens) g.t,← div_add_mod' (token'%g.groupTokens) g.t,
      ← feature,feature',← lane,lane']
  refine ⟨?_,same.symm.trans same'⟩
  rw [← div_add_mod' token g.groupTokens,← div_add_mod' token' g.groupTokens,← ct,ct',place]

lemma scorePlace_lt {head : ℕ} (ht : token<g.capacity) (hh : head<g.heads) :
    scorePlace g token head < g.scoreWords :=
  word_lt (div_lt_ceilDiv g.group_pos ht) (g.place_div_lt token) hh (g.place_mod_lt token)

end Pllm.Interleaved
