import Pllm.Coefficient.Window

/-! Samples of one coefficient, drawn from ciphertexts over the ring and put back into it. -/
namespace Pllm.Coefficient
open Pllm.Lib CoefficientLayout List
open Option (map_some)

namespace Repacking

/-- The odd moduli of one or two limbs. -/
def admits (moduli : List ℕ) : Bool :=
  moduli ≠ [] ∧ moduli.length≤2 ∧ moduli.all fun q => (3≤q ∧ q<2^61) ∧ q%2=1

def dividePowerTwo (words : List ℕ) (degree : ℕ) (moduli : List ℕ) (divisor : ℕ) :
    Except String (List ℕ) :=
  if degree≠4096 ∨ ¬admits moduli ∨ divisor=0 ∨ ¬isPowerOfTwo divisor ∨ divisor>degree ∨
      words.length≠2*degree*moduli.length then
    .error "invalid bounded coefficient trace geometry"
  else
    let limbs := (chunksExact (degree*moduli.length) words).flatMap fun polynomial =>
      (chunksExact degree polynomial).zip moduli
    if limbs.any fun p => p.1.any (p.2 ≤ ·) then .error "noncanonical public ciphertext coefficient"
    else .ok (limbs.flatMap fun p => p.1.map (mul p.2 · (inversePowerTwo p.2 divisor)))

def extractLwe (words moduli : List ℕ) (coefficient : ℕ) : Except String (List ℕ) :=
  if coefficient≥4096 ∨ moduli=[] ∨ moduli.length>2 ∨ words.length≠8192*moduli.length then
    .error "LWE extraction coefficient exceeds degree"
  else do
    -- only the validation counts
    let _ ← dividePowerTwo words 4096 moduli 1
    return moduli.zipIdx.flatMap fun (q,m) =>
      words.getD (m*4096+coefficient) 0 :: (List.range 4096).map fun i =>
        let v := (slice words ((moduli.length+m)*4096) 4096).getD ((coefficient+4096-i)%4096) 0
        if i>coefficient ∧ v≠0 then q-v else v

def embedLwe (words moduli : List ℕ) : Except String (List ℕ) :=
  let limbs := (chunksExact 4097 words).zip moduli
  if ¬admits moduli ∨ words.length≠moduli.length*4097 ∨ limbs.any fun p => p.1.any (p.2 ≤ ·) then
    .error "noncanonical bounded extracted LWE"
  else .ok <| List.flatten <|
    (limbs.map fun p => p.1.getD 0 0 :: List.replicate 4095 0) ++
      limbs.map fun p => p.1.getD 1 0 :: (List.range 4095).map fun j =>
        neg p.2 (p.1.getD (4097-(j+1)) 0)

end Repacking

namespace Extraction

inductive Error
  | descriptor
  | length
  | nonCanonical
  deriving DecidableEq

structure Limb where
  id : ℕ
  modulus : ℕ
  deriving DecidableEq

inductive Layout
  | orderedLimbBA
  | constantBASecretOrder
  deriving DecidableEq

structure Scale where
  numerator : ℕ
  denominator : ℕ
  deriving DecidableEq

structure KeyDomain where
  label : ℕ
  dimension : ℕ
  deriving DecidableEq

structure Source where
  degree : ℕ
  rank : ℕ
  limbs : Option Limb × Option Limb
  limbCount : ℕ
  layout : Layout
  scale : Scale
  key : KeyDomain

structure Destination where
  degree : ℕ
  rank : ℕ
  limb : Limb
  layout : Layout
  scale : Scale
  key : KeyDomain

structure Case where
  source : Source
  destination : Destination
  selected : ℕ

def Source.limb (s : Source) (i : ℕ) : Option Limb := if i=0 then s.limbs.1 else s.limbs.2

def Source.checkLimb (s : Source) (i : ℕ) : Except Error Unit :=
  match s.limb i with
  | some limb =>
    if i < s.limbCount ∧ (CoefficientRing.new s.degree limb.modulus).toBool then .ok ()
    else .error .descriptor
  | none => if i < s.limbCount then .error .descriptor else .ok ()

def Case.validate (c : Case) : Except Error Unit :=
  let s := c.source
  let d := c.destination
  if ¬(1 ≤ s.limbCount ∧ s.limbCount≤2) ∨ c.selected≥s.limbCount ∨ s.rank≠1 ∨
      s.layout ≠ .orderedLimbBA ∨ d.layout ≠ .constantBASecretOrder ∨ d.rank≠1 ∨
      s.degree≠d.degree ∨ s.key.dimension≠s.degree ∨ s.key≠d.key ∨ s.scale≠d.scale ∨
      s.scale.numerator=0 ∨ s.scale.denominator=0 then .error .descriptor
  else do
    s.checkLimb 0
    s.checkLimb 1
    if s.limbCount=2 ∧ ∃ l∈s.limbs.1,∃ r∈s.limbs.2,l.id=r.id ∨ l.modulus=r.modulus then
      .error .descriptor
    else if s.limb c.selected ≠ some d.limb then .error .descriptor
    else .ok ()

/-- `output` is overwritten, so that only its length is looked at. -/
def extract (c : Case) (input output : List ℕ) : Except Error (List ℕ) := do
  c.validate
  let n := c.source.degree
  if input.length≠2*n*c.source.limbCount ∨ output.length≠n+1 then .error .length
  else if (List.range c.source.limbCount).any fun i => (c.source.limb i).any fun limb =>
      (slice input (2*n*i) (2*n)).any (limb.modulus ≤ ·) then .error .nonCanonical
  else
    let a := slice input (c.selected*(2*n)+n) n
    return input.getD (c.selected*(2*n)) 0 :: a.getD 0 0 ::
      (List.range (n-1)).map fun j => neg c.destination.limb.modulus (a.getD (n-(j+1)) 0)

end Extraction

/-- Coefficient `k` of `b+a*s`. -/
def phase (n q : ℕ) (b a s : List ℕ) (k : ℕ) : ZMod q :=
  coeff q b k+coeff q (negacyclic n q a s) k

/-- A sample with its constant in front. -/
def lwePhase (n q : ℕ) (sample s : List ℕ) : ZMod q :=
  coeff q sample 0+∑ i ∈ Finset.range n,coeff q sample (i+1)*coeff q s i

section
variable {n q k : ℕ} {a s : List ℕ}

lemma sum_wrap {R : Type*} [Ring R] (f : ℕ → R) {j : ℕ} (hj : j<n) (hk : k<n) :
    ∑ i ∈ Finset.range n,f i*wrap R n (i+j) k = if j≤k then f (k-j) else -f (k+n-j) := by
  have single (i : ℕ) (hi : i<n) (other : ∀ i'<n,i'≠i → ¬(i'+j=k ∨ i'+j=k+n)) :
      ∑ i ∈ Finset.range n,f i*wrap R n (i+j) k = f i*wrap R n (i+j) k := by
    refine Finset.sum_eq_single i (fun i' m ne => ?_) fun h => absurd (Finset.mem_range.mpr hi) h
    have := not_or.mp (other i' (Finset.mem_range.mp m) ne)
    rw [wrap,if_neg this.1,if_neg this.2,mul_zero]
  split
  · rw [single (k-j) (by omega) (by omega),wrap,if_pos (by omega),mul_one]
  · rw [single (k+n-j) (by omega) (by omega),wrap,if_neg (by omega),if_pos (by omega),mul_neg_one]

lemma lwePhase_eq {b sample : List ℕ} (pos : 0<q) (hk : k<n)
    (first : sample.getD 0 0 = b.getD k 0) (rest : ∀ j<n,coeff q sample (j+1) =
      if j≤k then coeff q a (k-j) else -coeff q a (k+n-j)) (s : List ℕ) :
    lwePhase n q sample s = phase n q b a s k := by
  rw [lwePhase,phase,coeff,first,(negacyclic_spec pos n a s).2 k hk]
  simp only [Finset.mul_sum]
  rw [Finset.sum_comm]
  refine congrArg _ (Finset.sum_congr rfl fun j m => ?_)
  rw [rest j (Finset.mem_range.mp m),← sum_wrap (coeff q a) (Finset.mem_range.mp m) hk,Finset.sum_mul]
  exact Finset.sum_congr rfl fun i _ => by ring

lemma slice_flatten {α : Type*} (hn : 0<n) {xs : List (List α)} (h : ∀ x∈xs,x.length=n)
    {m : ℕ} {x : List α} (get : xs[m]? = some x) : slice xs.flatten (n*m) n = x := by
  have eq := congrArg (·[m]?) (chunksExact_flatMap (f := id) hn xs h)
  obtain ⟨hm,rfl⟩ := List.getElem?_eq_some_iff.mp get
  simpa [chunksExact,length_flatMap_const (f := id) xs h,hn,hm,← flatMap_id] using eq

variable {moduli words : List ℕ}

namespace Repacking

lemma mem_admits (h : admits moduli) (m : q∈moduli) : (3≤q ∧ q<2^61) ∧ q%2=1 := by
  simp only [admits,decide_eq_true_eq] at h
  simpa using all_eq_true.mp h.2.2 q m

/-- A ciphertext of two canonical polynomials in each limb. -/
structure Ciphertext (words moduli : List ℕ) : Prop where
  allowed : admits moduli
  length : words.length=8192*moduli.length
  poly : ∀ m q,moduli[m]? = some q → ∀ j<2,
    Poly 4096 q (slice words ((j*moduli.length+m)*4096) 4096)

lemma Ciphertext.divide_ok (h : Ciphertext words moduli) :
    ∃ out,dividePowerTwo words 4096 moduli 1 = .ok out := by
  have full : words.length=4096*moduli.length*2 := by rw [h.length]; omega
  unfold dividePowerTwo
  rw [if_neg (by simp [h.allowed,h.length,show isPowerOfTwo 1 by decide]),if_neg]
  · exact ⟨_,rfl⟩
  intro bad
  obtain ⟨p,mem,bad⟩ := any_eq_true.mp bad
  obtain ⟨polynomial,source,hp⟩ := mem_flatMap.mp mem
  obtain ⟨j,hj,rfl⟩ := mem_map.mp source
  obtain ⟨m,hm⟩ := mem_iff_getElem?.mp hp
  obtain ⟨limb,get⟩ := getElem?_zip_eq_some.mp hm
  have hlen := (List.getElem?_eq_some_iff.mp get).1
  have two : j<2 := by
    rw [mem_range,full,Nat.mul_div_cancel_left _ (by omega)] at hj
    exact hj
  have inside : 4096*moduli.length*(j+1)≤words.length :=
    full ▸ Nat.mul_le_mul_left _ two
  rw [Nat.mul_succ] at inside
  have eq : p.1=slice words ((j*moduli.length+m)*4096) 4096 := by
    simp only [chunksExact,getElem?_map,length_slice inside,Nat.mul_div_cancel_left _
      (show 0 < 4096 by decide),getElem?_range hlen,map_some,Option.some.injEq,
      slice_slice words (show 4096*m+4096 ≤ 4096*moduli.length by omega)] at limb
    rw [← limb]
    congr 1
    ring
  obtain ⟨x,hx,large⟩ := any_eq_true.mp bad
  have := (h.poly m p.2 get j two).2 x (eq ▸ hx)
  simp at large
  omega

/-- A sample decrypts to the coefficient that it was drawn for. -/
lemma Ciphertext.extract_ok (h : Ciphertext words moduli) (hk : k<4096) : ∃ out,extractLwe words
    moduli k = .ok out ∧ out.length=moduli.length*4097 ∧ ∀ m q,moduli[m]? = some q → Poly 4097 q
    (slice out (4097*m) 4097) ∧ ∀ s,lwePhase 4096 q (slice out (4097*m) 4097) s = phase 4096 q
    (slice words (m*4096) 4096) (slice words ((moduli.length+m)*4096) 4096) s k := by
  obtain ⟨checked,valid⟩ := h.divide_ok
  have shape := h.allowed
  simp only [admits,decide_eq_true_eq] at shape
  refine ⟨_,by rw [extractLwe,if_neg (by simp [hk,shape.1,shape.2.1,h.length]),valid,ok_bind]; rfl,
    ?_,fun m q get => ?_⟩
  · rw [length_flatMap_const _ fun p _ => by
      rw [length_cons,length_map,length_range],length_zipIdx,mul_comm]
  have hb := h.poly m q get 0 (by decide)
  have ha := h.poly m q get 1 (by decide)
  rw [zero_mul,zero_add] at hb
  rw [one_mul] at ha
  have pos : 0<q :=
    Nat.zero_lt_of_lt (hb.2 _ (getElem_mem (show 0 < _ by rw [hb.1]; decide)))
  rw [flatMap_def,slice_flatten (by decide) (fun x hx => by
      obtain ⟨p,-,rfl⟩ := mem_map.mp hx
      rw [length_cons,length_map,length_range])
    (by rw [getElem?_map,getElem?_zipIdx,get,map_some,map_some,zero_add])]
  dsimp only
  have first : words.getD (m*4096+k) 0=(slice words (m*4096) 4096).getD k 0 := by
    simp only [getD_eq_getElem?_getD,getElem?_slice,if_pos hk]
  refine ⟨⟨by rw [length_cons,length_map,length_range],fun x hx => ?_⟩,
    lwePhase_eq pos hk first fun i hi => ?_⟩
  · rcases mem_cons.mp hx with rfl | hx
    · exact first ▸ hb.getD_lt pos k
    · obtain ⟨i,-,rfl⟩ := mem_map.mp hx
      split
      · omega
      · exact ha.getD_lt pos _
  · rw [coeff,getD_cons_succ,getD_map_range _ hi]
    have small := ha.getD_lt pos ((k+4096-i)%4096)
    by_cases wraps : i≤k
    · rw [if_neg (by omega),if_pos wraps,show (k+4096-i)%4096=k-i by omega]
      rfl
    · have place : (k+4096-i)%4096=k+4096-i := by omega
      rw [place] at small ⊢
      rw [if_neg wraps,coeff,← cast_neg small,neg]
      congr 1
      split_ifs <;> omega

lemma embedLwe_spec {out : List ℕ} (h : embedLwe words moduli = .ok out)
    {m : ℕ} (get : moduli[m]? = some q) (s : List ℕ) : phase 4096 q (slice out (4096*m) 4096) (slice
    out (4096*(moduli.length+m)) 4096) s 0 = lwePhase 4096 q (slice words (4097*m) 4097) s := by
  simp only [embedLwe,ite_error_eq_ok,not_or,not_not] at h
  obtain ⟨⟨allowed,full,canon⟩,⟨⟩⟩ := h
  have pos : 0<q := by
    have := (mem_admits allowed (mem_of_getElem? get)).1.1
    omega
  obtain ⟨hm,-⟩ := List.getElem?_eq_some_iff.mp get
  have limb : ((chunksExact 4097 words).zip moduli)[m]? = some (slice words (4097*m) 4097,q) := by
    refine getElem?_zip_eq_some.mpr ⟨?_,get⟩
    simp [chunksExact,full,hm]
  have small : ∀ x ∈ slice words (4097*m) 4097,x<q := by
    intro x hx
    by_contra large
    exact canon (any_eq_true.mpr ⟨_,mem_of_getElem? limb,
      any_eq_true.mpr ⟨x,hx,by simpa using large⟩⟩)
  have hx : Poly 4097 q (slice words (4097*m) 4097) := ⟨length_slice (by omega),small⟩
  obtain ⟨limbs,same⟩ : ∃ limbs,limbs=(chunksExact 4097 words).zip moduli := ⟨_,rfl⟩
  rw [← same] at limb ⊢
  have count : limbs.length=moduli.length := by
    rw [same,length_zip,chunksExact,length_map,length_range,full,
      Nat.mul_div_cancel _ (by decide),min_self]
  have widths : ∀ x ∈ (limbs.map fun p => p.1.getD 0 0 :: replicate 4095 0) ++
      limbs.map fun p => p.1.getD 1 0 :: (range 4095).map fun j =>
        neg p.2 (p.1.getD (4097-(j+1)) 0),x.length=4096 := by
    intro x hx
    rcases mem_append.mp hx with hx | hx
    · obtain ⟨p,-,rfl⟩ := mem_map.mp hx
      rw [length_cons,length_replicate]
    · obtain ⟨p,-,rfl⟩ := mem_map.mp hx
      rw [length_cons,length_map,length_range]
  rw [slice_flatten (by decide) widths (by rw [getElem?_append_left (by rwa [length_map,count]),
      getElem?_map,limb,map_some]),
    slice_flatten (by decide) widths (by rw [getElem?_append_right (by rw [length_map,count]; omega),
      length_map,count,Nat.add_sub_cancel_left,getElem?_map,limb,map_some])]
  refine (lwePhase_eq pos (by decide) getD_cons_zero.symm (fun j hj => ?_) s).symm
  rcases j with _ | j
  · rw [if_pos le_rfl]
    rfl
  · rw [if_neg (by omega),coeff,coeff,show 0+4096-(j+1)=4094-j+1 by omega,getD_cons_succ,
      getD_map_range _ (by omega),cast_neg (hx.getD_lt pos _),neg_neg,
      show 4097-(4094-j+1)=j+1+1 by omega]

lemma embed_ok (allowed : admits moduli) (full : words.length=moduli.length*4097)
    (canon : ∀ m q,moduli[m]? = some q → Poly 4097 q (slice words (4097*m) 4097)) :
    ∃ out,embedLwe words moduli = .ok out := by
  unfold embedLwe
  dsimp only
  rw [if_neg]
  · exact ⟨_,rfl⟩
  simp only [allowed,full,not_true_eq_false,ne_eq,false_or,any_eq_true]
  rintro ⟨p,mem,x,hx,large⟩
  obtain ⟨m,hm⟩ := mem_iff_getElem?.mp mem
  obtain ⟨limb,get⟩ := getElem?_zip_eq_some.mp hm
  have hlen := (List.getElem?_eq_some_iff.mp get).1
  simp only [chunksExact,getElem?_map,full,Nat.mul_div_cancel _ (show 0 < 4097 by decide),
    getElem?_range hlen,map_some,Option.some.injEq] at limb
  have := (canon m p.2 get).2 x (limb ▸ hx)
  simp at large
  omega

end Repacking

namespace Extraction
variable {c : Case}

lemma validate_ok (h : c.validate = .ok ()) : c.selected < c.source.limbCount ∧
    c.source.limb c.selected = some c.destination.limb ∧ 0 < c.source.degree := by
  simp only [Case.validate,ite_error_eq_ok,bind_eq_ok] at h
  obtain ⟨shape,_,first,_,second,-,limb,-⟩ := h
  simp only [not_or,not_not,not_le] at shape limb
  have checks : ∀ i<2,c.source.checkLimb i = .ok () := by
    rintro (_ | _ | i) hi
    · exact first
    · exact second
    · omega
  have check := checks c.selected (by omega)
  rw [Source.checkLimb,limb] at check
  dsimp only at check
  refine ⟨shape.2.1,limb,?_⟩
  split at check
  · rename_i both
    have ring := both.2
    unfold CoefficientRing.new at ring
    split at ring
    · rename_i power
      obtain ⟨k,hk⟩ := isPowerOfTwo_iff.mp power.1
      exact hk ▸ Nat.two_pow_pos k
    · cases ring
  · cases check

lemma extract_ok {input output : List ℕ} (valid : c.validate = .ok ()) (hi : input.length =
    2*c.source.degree*c.source.limbCount) (ho : output.length=c.source.degree+1)
    (canon : ∀ i < c.source.limbCount,∀ limb ∈ c.source.limb i,
      Poly (2*c.source.degree) limb.modulus (slice input (2*c.source.degree*i) (2*c.source.degree))) :
    ∃ out,extract c input output = .ok out ∧ ∀ s,
      lwePhase c.source.degree c.destination.limb.modulus out s =
        phase c.source.degree c.destination.limb.modulus
          (slice input (c.selected*(2*c.source.degree)) c.source.degree)
          (slice input (c.selected*(2*c.source.degree)+c.source.degree) c.source.degree) s 0 := by
  obtain ⟨selected,limb,pos⟩ := validate_ok valid
  have poly := canon _ selected _ limb
  obtain ⟨n,hn⟩ : ∃ n,n=c.source.degree := ⟨_,rfl⟩
  obtain ⟨q,hq⟩ : ∃ q,q=c.destination.limb.modulus := ⟨_,rfl⟩
  rw [← hn] at hi ho pos
  rw [← hn,← hq] at poly ⊢
  have pos' : 0<q :=
    Nat.zero_lt_of_lt (poly.2 _ (getElem_mem (show 0 < _ by rw [poly.1]; omega)))
  have small (i : ℕ) (h : i<n) : (slice input (c.selected*(2*n)+n) n).getD i 0 < q := by
    have := poly.getD_lt pos' (n+i)
    simp only [getD_eq_getElem?_getD,getElem?_slice,if_pos h,
      if_pos (show n+i < 2*n by omega)] at this ⊢
    rwa [mul_comm c.selected,add_assoc]
  unfold extract
  dsimp only
  rw [valid,ok_bind,← hn,← hq,if_neg (by simp [hi,ho]),if_neg]
  · refine ⟨_,rfl,lwePhase_eq pos' pos ?_ fun j hj => ?_⟩
    · simp [getD_eq_getElem?_getD,getElem?_slice,pos]
    · rcases j with _ | j
      · rw [if_pos le_rfl]
        rfl
      · rw [if_neg (by omega),coeff,coeff,getD_cons_succ,getD_cons_succ,
          getD_map_range _ (by omega),cast_neg (small _ (by omega)),zero_add]
  · rw [← hn] at canon
    intro bad
    obtain ⟨i,hi,bad⟩ := any_eq_true.mp bad
    cases eq : c.source.limb i with
    | none =>
      rw [eq] at bad
      cases bad
    | some l =>
      rw [eq] at bad
      obtain ⟨x,hx,large⟩ := any_eq_true.mp bad
      have := (canon i (mem_range.mp hi) l eq).2 x hx
      simp at large
      omega

end Extraction

end

/-- Samples drawn from a ciphertext, and rings that samples are put into, decrypt as they should. -/
theorem coefficient_extraction : (∀ words moduli k,Repacking.Ciphertext words moduli → k<4096 →
      ∃ sample ring,Repacking.extractLwe words moduli k = .ok sample ∧
        Repacking.embedLwe sample moduli = .ok ring ∧ ∀ m q,moduli[m]? = some q → ∀ s,
          lwePhase 4096 q (slice sample (4097*m) 4097) s = phase 4096 q (slice words (m*4096) 4096)
            (slice words ((moduli.length+m)*4096) 4096) s k ∧
          phase 4096 q (slice ring (4096*m) 4096) (slice ring (4096*(moduli.length+m)) 4096) s 0 =
            lwePhase 4096 q (slice sample (4097*m) 4097) s) ∧
    ∀ (c : Extraction.Case) (input output : List ℕ),c.validate = .ok () →
      input.length = 2*c.source.degree*c.source.limbCount → output.length=c.source.degree+1 →
      (∀ i < c.source.limbCount,∀ limb ∈ c.source.limb i,Poly (2*c.source.degree) limb.modulus
        (slice input (2*c.source.degree*i) (2*c.source.degree))) →
      ∃ out,Extraction.extract c input output = .ok out ∧ ∀ s,
        lwePhase c.source.degree c.destination.limb.modulus out s =
          phase c.source.degree c.destination.limb.modulus
            (slice input (c.selected*(2*c.source.degree)) c.source.degree)
            (slice input (c.selected*(2*c.source.degree)+c.source.degree) c.source.degree) s 0 := by
  refine ⟨fun words moduli k h hk => ?_,fun c input output => Extraction.extract_ok⟩
  obtain ⟨sample,extracted,length,spec⟩ := h.extract_ok hk
  obtain ⟨ring,embedded⟩ := Repacking.embed_ok h.allowed length fun m q get => (spec m q get).1
  exact ⟨sample,ring,extracted,embedded,fun m q get s =>
    ⟨(spec m q get).2 s,Repacking.embedLwe_spec embedded get s⟩⟩

/-- A sample at the last coefficient under two moduli, and the second limb of a ciphertext of
degree four. -/
theorem coefficient_extraction_small :
    (∃ sample ring,Repacking.extractLwe (replicate 16384 3) [17,97] 4095 = .ok sample ∧
      Repacking.embedLwe sample [17,97] = .ok ring ∧ ∀ s,
        phase 4096 97 (slice ring 4096 4096) (slice ring (4096*3) 4096) s 0 =
          phase 4096 97 (slice (replicate 16384 3) 4096 4096)
            (slice (replicate 16384 3) (4096*3) 4096) s 4095) ∧
    ∃ out,Extraction.extract ⟨⟨4,1,(some ⟨0,17⟩,some ⟨1,97⟩),2,.orderedLimbBA,⟨1,2⟩,⟨7,4⟩⟩,
        ⟨4,1,⟨1,97⟩,.constantBASecretOrder,⟨1,2⟩,⟨7,4⟩⟩,1⟩
        [1,2,3,4,5,6,7,8,90,20,30,40,50,60,70,80] [0,0,0,0,0] = .ok out ∧
      ∀ s,lwePhase 4 97 out s = phase 4 97 [90,20,30,40] [50,60,70,80] s 0 := by
  refine ⟨?_,coefficient_extraction.2 _ _ _ (by decide) rfl rfl fun i hi limb h => ?_⟩
  · have ciphertext : Repacking.Ciphertext (replicate 16384 3) [17,97] := by
      refine ⟨by decide,length_replicate,fun m q get j hj => ⟨?_,fun x mem => ?_⟩⟩
      · rw [slice,length_take,length_drop,length_replicate]
        have limbs : m<2 := (List.getElem?_eq_some_iff.mp get).1
        simp only [length_cons,length_nil]
        interval_cases j <;> omega
      · obtain rfl : x=3 := eq_of_mem_replicate (mem_of_mem_drop (mem_of_mem_take mem))
        have large : ∀ q∈[17,97],3<q := by decide
        exact large q (mem_of_getElem? get)
    obtain ⟨sample,ring,extracted,embedded,spec⟩ :=
      coefficient_extraction.1 _ _ 4095 ciphertext (by decide)
    exact ⟨sample,ring,extracted,embedded,fun s => (spec 1 97 rfl s).2.trans (spec 1 97 rfl s).1⟩
  · obtain rfl | rfl : i=0 ∨ i=1 := by
      have : i<2 := hi
      omega
    · obtain rfl : limb=⟨0,17⟩ := (Option.mem_some.mp h).symm
      exact ⟨rfl,by decide⟩
    · obtain rfl : limb=⟨1,97⟩ := (Option.mem_some.mp h).symm
      exact ⟨rfl,by decide⟩

end Pllm.Coefficient
