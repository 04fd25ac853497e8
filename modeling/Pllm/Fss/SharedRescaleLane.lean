import Pllm.Fss.SharedRescale

/-! What the two shares of one lane of one phase add up to, over every layout and backend. -/
namespace Pllm.Fss.SharedRescale
open Pllm.Lib List Comparison IntervalFss Lane
open Descriptor (new phaseBits)

/-- The domain `Descriptor::new` admits. -/
structure Descriptor.Valid (d : Descriptor) : Prop where
  two_le : 2≤d.bits
  le_32 : d.bits≤32
  shift_pos : 0<d.shift
  shift_lt : d.shift<d.bits

lemma Descriptor.new_eq_ok {bits shift : ℕ} {rounding : Rounding} {d : Descriptor}
    (h : new bits shift rounding = .ok d) (backend : Backend) :
    (d.withBackend backend).Valid ∧ d.withBackend backend = ⟨bits,shift,rounding,backend⟩ := by
  simp only [new,ite_error_eq_ok,ok_eq_ok] at h
  obtain ⟨hd,rfl⟩ := h
  exact ⟨⟨by simp [withBackend]; omega,by simp [withBackend]; omega,
    by simp [withBackend]; omega,by simp [withBackend]; omega⟩,rfl⟩

/-- The comparison a query asks of an opened word, under the mask `r`. -/
def lessThan (width : ℕ) (r boundary opened : BitVec 32) : BitVec 32 :=
  bit (opened.toNat%2^width < (r.toNat+boundary.toNat)%2^width)

/-- The two shares of one query, as the two parties evaluate it. -/
def querySum (env : Platform) (d : Descriptor) (specs : List (ℕ × BitVec 32))
    (lanes : Lane × Lane) (opened : BitVec 32) (i width : ℕ) : BitVec 32 :=
  lanes.1.eval env d false specs opened i width+lanes.2.eval env d true specs opened i width

variable {bits n : ℕ} {roots : ℕ → Block × Block} {layout : Layout} {z : ℤ}

lemma toNat_and_mask (x : BitVec 32) (hn : n≤32) :
    (x &&& mask n).toNat = x.toNat%2^n := toNat_and_lowMask x hn

lemma toNat_and_mask_lt (x : BitVec 32) (hn : n≤32) : (x &&& mask n).toNat < 2^n := by
  rw [toNat_and_mask x hn]
  exact Nat.mod_lt _ (Nat.two_pow_pos n)

lemma Comparison.eval_add_eval {env : Platform} {backend : Backend} {threshold : BitVec
    32} {keys : Comparison × Comparison} (h : issue env
    backend bits threshold roots = .ok keys) {input : BitVec 32} (hi : input.toNat<2^bits) :
    keys.1.eval env false input+keys.2.eval env true input = bit (input<threshold) := by
  cases backend with
  | prefixDpf =>
    simp only [issue,bind_eq_ok,pure_eq_ok,ok_eq_ok] at h
    obtain ⟨inner,hk,rfl⟩ := h
    exact PointFss.Comparison.eval_add_eval hk hi
  | compactDcf =>
    simp only [issue,bind_eq_ok,pure_eq_ok,ok_eq_ok] at h
    obtain ⟨inner,hk,rfl⟩ := h
    exact CompactDcf.Key.eval_add_eval hk hi
  | intervalDcf => cases h

lemma toNat_one_shiftLeft (hn : n<32) : ((1 : BitVec 32) <<< n).toNat = 2^n := by
  have hlt : 2^n<2^32 := Nat.pow_lt_pow_right (by decide) hn
  rw [BitVec.toNat_shiftLeft,Nat.shiftLeft_eq,show (1 : BitVec 32).toNat=1 from rfl,one_mul,
    Nat.mod_eq_of_lt hlt]

lemma toNat_boundaries (hn : n<31) :
    let unit := (1 : BitVec 32) <<< (n+1)
    unit.toNat = 2*2^n ∧ (unit/2+1).toNat=2^n+1 ∧ (unit+unit/2).toNat=3*2^n := by
  have hu := toNat_one_shiftLeft (show n+1 < 32 by omega)
  have hlt : 2^n≤2^30 := Nat.pow_le_pow_right (by decide) (by omega)
  have hh : (((1 : BitVec 32) <<< (n+1))/2).toNat=2^n := by
    rw [BitVec.toNat_udiv,hu]
    exact Nat.mul_div_cancel _ (by decide)
  refine ⟨by omega,?_,?_⟩
  · rw [BitVec.toNat_add,hh,show (1 : BitVec 32).toNat=1 from rfl,Nat.mod_eq_of_lt (by omega)]
  · rw [BitVec.toNat_add,hu,Nat.mod_eq_of_lt (by omega)]
    omega

lemma querySpecs_bounds {d : Descriptor} (hd : d.Valid) (layout : Layout) (phase : ℕ)
    {spec : ℕ × BitVec 32} (hs : spec ∈ querySpecs d layout phase) :
    1 ≤ spec.1 ∧ spec.1≤32 ∧ spec.2.toNat<2^spec.1 := by
  obtain ⟨h2,h32,hp,hlt⟩ := hd
  have hbits : 1 ≤ d.phaseBits phase ∧ d.phaseBits phase ≤ 32 := by
    unfold phaseBits
    split <;> omega
  have hhalf : ((1 : BitVec 32) <<< (d.phaseBits phase-1)).toNat < 2^d.phaseBits phase := by
    rw [toNat_one_shiftLeft (by omega)]
    exact Nat.pow_lt_pow_right (by decide) (by omega)
  have hzero : ∀ n, (0 : BitVec 32).toNat < 2^n := fun n => Nat.two_pow_pos n
  obtain ⟨n,hn⟩ : ∃ n, d.shift=n+1 := ⟨d.shift-1,by omega⟩
  obtain ⟨hu,hu2,hu3⟩ := toNat_boundaries (show n < 31 by omega)
  have hpos := Nat.two_pow_pos n
  have hrou : ∀ boundary ∈ [(1 : BitVec 32) <<< d.shift,((1 : BitVec 32) <<< d.shift)/2+1,
      ((1 : BitVec 32) <<< d.shift)+((1 : BitVec 32) <<< d.shift)/2,0], boundary.toNat<2^(d.shift+1) := by
    intro boundary hb
    rw [hn] at *
    simp only [mem_cons,not_mem_nil,or_false] at hb
    obtain rfl | rfl | rfl | rfl := hb
    · omega
    · omega
    · omega
    · simp
  have hq : ∀ spec ∈ (if phase=1
        then [(d.phaseBits phase,(1 : BitVec 32) <<< (d.phaseBits phase-1)),(d.phaseBits phase,0)]
      else if layout = .fused
        then [(d.phaseBits phase,(1 : BitVec 32) <<< (d.phaseBits phase-1)),(d.shift,0),(d.phaseBits phase,0)]
      else [(d.shift,0)]), 1 ≤ spec.1 ∧ spec.1≤32 ∧ spec.2.toNat<2^spec.1 := by
    intro spec hs
    split_ifs at hs <;> simp only [mem_cons,not_mem_nil,or_false] at hs
    · obtain rfl | rfl := hs
      · exact ⟨hbits.1,hbits.2,hhalf⟩
      · exact ⟨hbits.1,hbits.2,hzero _⟩
    · obtain rfl | rfl | rfl := hs
      · exact ⟨hbits.1,hbits.2,hhalf⟩
      · exact ⟨hp,by omega,hzero _⟩
      · exact ⟨hbits.1,hbits.2,hzero _⟩
    · subst hs
      exact ⟨hp,by omega,hzero _⟩
  simp only [querySpecs] at hs
  split at hs
  · obtain hs | hs := mem_append.mp hs
    · exact hq spec hs
    · obtain ⟨boundary,hb,rfl⟩ := mem_map.mp hs
      exact ⟨by omega,by omega,hrou boundary hb⟩
  · exact hq spec hs

/-- What the dealer's shared keys guarantee for every width already issued. -/
def SharedIssued (env : Platform) (r : BitVec 32)
    (shared : List (ℕ × (IntervalFss.Comparison × IntervalFss.Comparison))) : Prop :=
  ∀ entry∈shared, ∃ roots, IntervalFss.Comparison.issue env.aes env.sizes entry.1
    (r &&& mask entry.1) roots = .ok entry.2

lemma issueShared_issued {env : Platform} {r : BitVec 32} {specs : List ((ℕ × BitVec 32) × ℕ)}
    {shared result : List (ℕ × (IntervalFss.Comparison × IntervalFss.Comparison))} (h : issueShared
    env r roots specs shared = .ok result) (hs : SharedIssued env r shared) : SharedIssued env
    r result ∧ (∀ entry∈shared, entry∈result) ∧ ∀ spec∈specs, ∃ entry∈result, entry.1=spec.1.1 := by
  induction specs generalizing shared with
  | nil =>
    simp only [issueShared,ok_eq_ok] at h
    subst h
    exact ⟨hs,fun _ he => he,by simp⟩
  | cons spec specs ih =>
    obtain ⟨⟨width,boundary⟩,index⟩ := spec
    rw [issueShared] at h
    split at h
    · next hany =>
      obtain ⟨hi,hk,hc⟩ := ih h hs
      obtain ⟨entry,he,hw⟩ := any_eq_true.mp hany
      refine ⟨hi,hk,?_⟩
      rintro spec (_ | ⟨_,hm⟩)
      · exact ⟨entry,hk entry he,by simpa using hw⟩
      · exact hc spec hm
    · simp only [bind_eq_ok] at h
      obtain ⟨keys,hkeys,h⟩ := h
      obtain ⟨hi,hk,hc⟩ := ih h (by
        intro entry he
        obtain he | rfl := mem_append.mp he |>.imp_right mem_singleton.mp
        · exact hs entry he
        · exact ⟨_,hkeys⟩)
      refine ⟨hi,fun entry he => hk entry (mem_append_left _ he),?_⟩
      rintro spec (_ | ⟨_,hm⟩)
      · exact ⟨(width,keys),hk _ (by simp),rfl⟩
      · exact hc spec hm

/-- The dealer's correction of the `i`-th query; only shared keys need one. -/
def corrections (d : Descriptor) (layout : Layout) (phase : ℕ) (r : BitVec 32) (i : ℕ) :
    BitVec 32 :=
  if d.backend = .intervalDcf then
    ((querySpecs d layout phase).map fun spec =>
      IntervalFss.correction spec.1 (r &&& mask spec.1) spec.2).getD i 0
  else 0

lemma foldShiftCorrections_zero (d : Descriptor) (layout : Layout) (phase : ℕ) (constants :
    Constants) : foldShiftCorrections d layout phase (fun _ => 0) constants = constants := by
  unfold foldShiftCorrections
  split_ifs <;> simp

/-- What the dealer hands out for one lane under the mask `r`. -/
structure IssuedLane (env : Platform) (d : Descriptor) (layout : Layout) (phase : ℕ)
    (r : BitVec 32) (lanes : Lane × Lane) : Prop where
  mask_lt : r.toNat < 2^d.phaseBits phase
  maskShares : (lanes.1.maskShare.toNat+lanes.2.maskShare.toNat)%2^d.phaseBits phase = r.toNat
  constants : ∃ constants : Constants,
    constants = foldShiftCorrections d layout phase (corrections d layout phase r)
      (laneConstants d layout phase r) ∧
    lanes.1.constants.value+lanes.2.constants.value = constants.value ∧
    lanes.1.constants.sign+lanes.2.constants.sign = constants.sign ∧
    lanes.1.constants.rounding+lanes.2.constants.rounding = constants.rounding
  query : ∀ i (hi : i < (querySpecs d layout phase).length) (opened : BitVec 32),
    querySum env d (querySpecs d layout phase) lanes opened i (querySpecs d layout phase)[i].1
      +corrections d layout phase r i =
    lessThan (querySpecs d layout phase)[i].1 r (querySpecs d layout phase)[i].2 opened

section
variable {env : Platform} {d : Descriptor} {lanes : Lane × Lane} {i : ℕ}

lemma share_masked (r left : BitVec 32) (hb : bits≤32) (hr : r.toNat<2^bits) :
    (((share r left).1 &&& mask bits).toNat+((share r left).2 &&& mask bits).toNat)%2^bits =
      r.toNat := by
  have hs : ((share r left).1+(share r left).2)=r := add_sub_cancel left r
  rw [toNat_and_mask _ hb,toNat_and_mask _ hb,← Nat.add_mod,
    ← Nat.mod_mod_of_dvd _ (Nat.pow_dvd_pow 2 hb),← BitVec.toNat_add,hs,Nat.mod_eq_of_lt hr]

lemma querySum_independent (hb : d.backend ≠ .intervalDcf) (specs : List (ℕ × BitVec 32))
    (r : BitVec 32) {comparisons : List (Comparison × Comparison)} {roots : ℕ → ℕ → Block × Block}
    (hc : (specs.zipIdx.mapM fun entry => issue env d.backend entry.1.1
      ((r+entry.1.2) &&& mask entry.1.1) (roots entry.2)) = .ok comparisons)
    (hl : lanes.1.comparisons=comparisons.map fun keys => keys.1)
    (hr : lanes.2.comparisons=comparisons.map fun keys => keys.2) (hi : i < specs.length)
    (hw : specs[i].1≤32) (opened : BitVec 32) :
    querySum env d specs lanes opened i specs[i].1 = lessThan specs[i].1 r specs[i].2 opened := by
  have hall := mapM_eq_ok.mp hc
  have hlen : i < comparisons.length := by
    rw [← hall.length_eq]
    simpa using hi
  have hisu := hall.get (i := i) (by simpa using hi) hlen
  simp only [get_eq_getElem,getElem_zipIdx] at hisu
  have hsum := eval_add_eval hisu (toNat_and_mask_lt opened hw)
  simp only [querySum,Lane.eval,hb,if_false,hl,hr,getElem?_map,
    getElem?_eq_getElem hlen,Option.map_some]
  rw [hsum]
  simp only [lessThan,BitVec.lt_def]
  rw [toNat_and_mask _ hw,mask,toNat_add_and_lowMask _ _ hw]

lemma querySum_shared (hb : d.backend = .intervalDcf) (specs : List (ℕ × BitVec 32)) (r : BitVec 32)
    {shared : List (ℕ × (IntervalFss.Comparison × IntervalFss.Comparison))} (hs : SharedIssued
    env r shared) (hl : lanes.1.sharedComparisons=shared.map fun entry => (entry.1,entry.2.1))
    (hr : lanes.2.sharedComparisons=shared.map fun entry => (entry.1,entry.2.2))
    (hi : i < specs.length) (hw : specs[i].1≤32)
    (hp : specs[i].2.toNat<2^specs[i].1) (hc : ∃ entry∈shared, entry.1=specs[i].1)
    (opened : BitVec 32) : querySum env d specs lanes opened i specs[i].1 +correction specs[i].1
    (r &&& mask specs[i].1) specs[i].2 = lessThan specs[i].1 r specs[i].2 opened := by
  obtain ⟨entry,hf⟩ : ∃ entry, shared.find? (fun entry => entry.1==specs[i].1)=some entry := by
    obtain ⟨entry,he,hw⟩ := hc
    exact Option.isSome_iff_exists.mp (find?_isSome.mpr ⟨entry,he,by simpa using hw⟩)
  obtain ⟨roots,hisu⟩ := hs entry (mem_of_find?_eq_some hf)
  have hwd : entry.1=specs[i].1 := by simpa using find?_some hf
  rw [hwd] at hisu
  have hsum := IntervalFss.Comparison.eval_add_eval hisu (toNat_and_mask_lt opened hw) hp
  have hfl : lanes.1.sharedComparisons.find? (fun entry => entry.1==specs[i].1) =
      some (entry.1,entry.2.1) := by
    rw [hl,find?_map]
    exact congrArg (Option.map _) hf
  have hfr : lanes.2.sharedComparisons.find? (fun entry => entry.1==specs[i].1) =
      some (entry.1,entry.2.2) := by
    rw [hr,find?_map]
    exact congrArg (Option.map _) hf
  simp only [querySum,Lane.eval,hb,if_true,hfl,hfr,getD_eq_getElem?_getD,
    getElem?_eq_getElem hi,Option.getD_some]
  rw [hsum]
  simp only [bit,lessThan,toNat_and_mask _ hw,Nat.mod_add_mod]

lemma issueLane_issued (hd : d.Valid) {phase : ℕ} {random : LaneRandom} (h : issueLane
    env d layout phase random = .ok lanes) : ∃ r, IssuedLane env d layout phase r lanes := by
  have hbits : d.phaseBits phase ≤ 32 := by
    have := hd.le_32
    unfold phaseBits
    split <;> omega
  refine ⟨random.word 0 &&& mask (d.phaseBits phase),?_⟩
  have hr := toNat_and_mask (random.word 0) hbits
  simp only [issueLane] at h
  generalize random.word 0 &&& mask (d.phaseBits phase)=r at h hr ⊢
  have hlt : r.toNat < 2^d.phaseBits phase := hr ▸ Nat.mod_lt _ (Nat.two_pow_pos _)
  have hbd := fun i (hi : i < (querySpecs d layout phase).length) =>
    querySpecs_bounds hd layout phase (getElem_mem hi)
  by_cases hb : d.backend = .intervalDcf
  · simp only [hb,if_true,bind_eq_ok,pure_eq_ok,ok_eq_ok,exists_eq_left'] at h
    obtain ⟨shared,hsha,rfl⟩ := h
    obtain ⟨hiss,-,hcov⟩ := issueShared_issued hsha (by simp [SharedIssued])
    have hcorr : corrections d layout phase r=fun i =>
        ((querySpecs d layout phase).map fun spec =>
          correction spec.1 (r &&& mask spec.1) spec.2).getD i 0 := by
      funext i
      exact if_pos hb
    refine ⟨hlt,share_masked r _ hbits hlt,⟨_,by rw [hcorr],add_sub_cancel ..,add_sub_cancel ..,
      add_sub_cancel ..⟩,?_⟩
    intro i hi opened
    have hi' : corrections d layout phase r i=correction
        (querySpecs d layout phase)[i].1 (r &&& mask (querySpecs d layout phase)[i].1)
        (querySpecs d layout phase)[i].2 := by
      rw [corrections,if_pos hb,getD_eq_getElem?_getD,getElem?_map,getElem?_eq_getElem hi]
      rfl
    rw [hi']
    exact querySum_shared hb _ r hiss rfl rfl hi (hbd i hi).2.1 (hbd i hi).2.2
      (hcov ((querySpecs d layout phase)[i],i) (by
        rw [mem_iff_getElem]
        exact ⟨i,by simpa using hi,by simp⟩)) opened
  · simp only [hb,if_false,bind_eq_ok,pure_eq_ok,ok_eq_ok,exists_eq_left'] at h
    obtain ⟨comparisons,hcomp,rfl⟩ := h
    have hcorr : corrections d layout phase r=fun _ => 0 := by
      funext i
      exact if_neg hb
    refine ⟨hlt,share_masked r _ hbits hlt,⟨_,by rw [hcorr,foldShiftCorrections_zero],
      add_sub_cancel ..,add_sub_cancel ..,add_sub_cancel ..⟩,?_⟩
    intro i hi opened
    rw [hcorr,add_zero]
    exact querySum_independent hb _ r hcomp rfl rfl hi (hbd i hi).2.1 opened

end

section
variable {env : Platform} {d : Descriptor} {r : BitVec 32} {lanes : Lane × Lane}

/-- The sum of the two parties' outputs of one lane. -/
def outputSum (env : Platform) (d : Descriptor) (layout : Layout) (phase : ℕ)
    (lanes : Lane × Lane) (opened : BitVec 32) (rounding : BitVec 32 × BitVec 32) : LaneOutput :=
  let a := lanes.1.output env d layout phase false opened rounding.1
  let b := lanes.2.output env d layout phase true opened rounding.2
  ⟨a.scaled+b.scaled,a.sign+b.sign,a.increment+b.increment⟩

/-- The rounding increment in the clear, from the mask and the opened word. -/
def clearIncrement (d : Descriptor) (r opened : BitVec 32) : BitVec 32 :=
  let width := d.shift+1
  let unit := (1 : BitVec 32) <<< d.shift
  if d.rounding = .floor then 0
  else (laneConstants d .unfused 0 r).rounding
    +lessThan width r unit opened-lessThan width r (unit/2+1) opened
    -lessThan width r (unit+unit/2) opened+lessThan width r 0 opened

lemma outputSum_second (h : IssuedLane env d layout 1 r lanes)
    (opened : BitVec 32) (rounding : BitVec 32 × BitVec 32) :
    let bits := d.bits-d.shift
    let upper := lessThan bits r ((1 : BitVec 32) <<< (bits-1)) opened
    let constants := laneConstants d layout 1 r
    outputSum env d layout 1 lanes opened rounding =
      ⟨opened+constants.value+((1 : BitVec 32) <<< bits)*upper,
        constants.sign+upper-lessThan bits r 0 opened,rounding.1+rounding.2⟩ := by
  intro bits upper constants
  have hs : querySpecs d layout 1=[(bits,(1 : BitVec 32) <<< (bits-1)),(bits,0)] := by
    simp [querySpecs,phaseBits,bits]
  have hq := h.query
  rw [hs] at hq
  have h0 := hq 0 (by simp) opened
  have h1 := hq 1 (by simp) opened
  obtain ⟨k,hk,hv,hn,-⟩ := h.constants
  simp only [foldShiftCorrections,if_true] at hk
  rw [if_neg (by simp)] at hk
  have hkv := congrArg Constants.value hk
  have hkn := congrArg Constants.sign hk
  simp only [querySum,getElem_cons_zero,getElem_cons_succ] at h0 h1
  simp only [outputSum,output,hs,phaseBits,if_true,LaneOutput.mk.injEq,
    Bool.true_eq_false,if_false,and_true]
  refine ⟨?_,?_⟩
  · linear_combination hv+hkv+((1 : BitVec 32) <<< bits)*h0
  · linear_combination hn+hkn+h0-h1

/-- The queries of phase zero: those of the layout, then the four rounding ones. -/
lemma querySpecs_zero (d : Descriptor) (layout : Layout) : querySpecs d layout 0 =
      (if layout = .fused then [(d.bits,(1 : BitVec 32) <<< (d.bits-1)),(d.shift,0),(d.bits,0)]
        else [(d.shift,0)]) ++
      (if d.rounding = .tiesEven then
        [(d.shift+1,(1 : BitVec 32) <<< d.shift),(d.shift+1,((1 : BitVec 32) <<< d.shift)/2+1),
          (d.shift+1,((1 : BitVec 32) <<< d.shift)+((1 : BitVec 32) <<< d.shift)/2),(d.shift+1,0)]
        else []) := by
  cases layout <;> cases hr : d.rounding <;> simp [querySpecs,phaseBits,hr]

section
variable (d : Descriptor) (c : ℕ → BitVec 32) (k : Constants)

lemma foldShiftCorrections_fused : (foldShiftCorrections d .fused 0 c k).value =
    k.value+((1 : BitVec 32) <<< (d.bits-d.shift))*c 0-c 1 ∧
    (foldShiftCorrections d .fused 0 c k).sign = k.sign+c 0-c 2 ∧ (d.rounding = .tiesEven →
    (foldShiftCorrections d .fused 0 c k).rounding = k.rounding+c 3-c 4-c 5+c 6) := by
  cases hr : d.rounding <;> simp [foldShiftCorrections,hr]

lemma foldShiftCorrections_unfused : (foldShiftCorrections d .unfused 0 c k).value = k.value-c 0 ∧
      (d.rounding = .tiesEven → (foldShiftCorrections d .unfused 0 c k).rounding =
        k.rounding+c 1-c 2-c 3+c 4) := by
  cases hr : d.rounding <;> simp [foldShiftCorrections,hr]

end

lemma laneConstants_rounding (d : Descriptor) (layout : Layout) (r : BitVec 32) :
    (laneConstants d layout 0 r).rounding = (laneConstants d .unfused 0 r).rounding := by
  cases layout <;> cases hr : d.rounding <;> simp [laneConstants,hr,phaseBits]

lemma outputSum_increment (h : IssuedLane env d layout 0 r lanes)
    (opened : BitVec 32) (rounding : BitVec 32 × BitVec 32) :
    (outputSum env d layout 0 lanes opened rounding).increment = clearIncrement d r opened := by
  have hs := querySpecs_zero d layout
  have hq := h.query
  obtain ⟨k,hk,-,-,hr⟩ := h.constants
  have hpla := laneConstants_rounding d layout r
  cases hrd : d.rounding with
  | floor => simp [outputSum,output,clearIncrement,hrd]
  | tiesEven =>
    simp only [hrd,if_true] at hs
    cases layout with
    | fused =>
      simp only [if_true,cons_append,nil_append] at hs
      rw [hs] at hq
      have h3 := hq 3 (by simp) opened
      have h4 := hq 4 (by simp) opened
      have h5 := hq 5 (by simp) opened
      have h6 := hq 6 (by simp) opened
      simp only [querySum,getElem_cons_zero,getElem_cons_succ] at h3 h4 h5 h6
      have hkr := (foldShiftCorrections_fused d (corrections d .fused 0 r)
        (laneConstants d .fused 0 r)).2.2 hrd
      rw [← hk] at hkr
      simp only [outputSum,output,hs,hrd,reduceCtorEq,if_true,if_false,zero_ne_one, clearIncrement]
      linear_combination hr+hkr+hpla+h3-h4-h5+h6
    | unfused =>
      simp only [reduceCtorEq,if_false,cons_append,nil_append] at hs
      rw [hs] at hq
      have h1 := hq 1 (by simp) opened
      have h2 := hq 2 (by simp) opened
      have h3 := hq 3 (by simp) opened
      have h4 := hq 4 (by simp) opened
      simp only [querySum,getElem_cons_zero,getElem_cons_succ] at h1 h2 h3 h4
      have hkr := (foldShiftCorrections_unfused d (corrections d .unfused 0 r)
        (laneConstants d .unfused 0 r)).2 hrd
      rw [← hk] at hkr
      simp only [outputSum,output,hs,hrd,reduceCtorEq,if_false,zero_ne_one,clearIncrement]
      linear_combination hr+hkr+h1-h2-h3+h4

lemma outputSum_fused (h : IssuedLane env d .fused 0 r lanes) (opened : BitVec 32)
    (rounding : BitVec 32 × BitVec 32) :
    let upper := lessThan d.bits r ((1 : BitVec 32) <<< (d.bits-1)) opened
    let constants := laneConstants d .fused 0 r
    (outputSum env d .fused 0 lanes opened rounding).scaled =
        (opened >>> d.shift)+constants.value+((1 : BitVec 32) <<< (d.bits-d.shift))*upper
          -lessThan d.shift r 0 opened ∧
      (outputSum env d .fused 0 lanes opened rounding).sign =
        constants.sign+upper-lessThan d.bits r 0 opened := by
  intro upper constants
  have hs := querySpecs_zero d .fused
  rw [if_pos rfl] at hs
  have hq := h.query
  rw [hs] at hq
  have h0 := hq 0 (by simp) opened
  have h1 := hq 1 (by simp) opened
  have h2 := hq 2 (by simp) opened
  simp only [querySum,cons_append,getElem_cons_zero,getElem_cons_succ] at h0 h1 h2
  obtain ⟨k,hk,hv,hn,-⟩ := h.constants
  obtain ⟨hkv,hkn,-⟩ := foldShiftCorrections_fused d (corrections d .fused 0 r) constants
  rw [← hk] at hkv hkn
  have hz : (0 : BitVec 32) >>> d.shift=0 := BitVec.zero_ushiftRight
  simp only [outputSum,output,hs,phaseBits,if_true,Bool.true_eq_false,
    if_false,zero_ne_one,cons_append]
  refine ⟨?_,?_⟩
  · linear_combination hz+hv+hkv+((1 : BitVec 32) <<< (d.bits-d.shift))*h0-h1
  · linear_combination hn+hkn+h0-h2

lemma outputSum_unfused (h : IssuedLane env d .unfused 0 r lanes) (opened : BitVec 32)
    (rounding : BitVec 32 × BitVec 32) : (outputSum env d .unfused 0 lanes opened rounding).scaled =
    (opened >>> d.shift)+(laneConstants d .unfused 0 r).value-lessThan d.shift r 0 opened := by
  have hs := querySpecs_zero d .unfused
  rw [if_neg (by simp)] at hs
  have hq := h.query
  rw [hs] at hq
  have h0 := hq 0 (by simp) opened
  simp only [querySum,cons_append,getElem_cons_zero] at h0
  obtain ⟨k,hk,hv,-,-⟩ := h.constants
  obtain ⟨hkv,-⟩ := foldShiftCorrections_unfused d (corrections d .unfused 0 r)
    (laneConstants d .unfused 0 r)
  rw [← hk] at hkv
  have hz : (0 : BitVec 32) >>> d.shift=0 := BitVec.zero_ushiftRight
  simp only [outputSum,output,hs,reduceCtorEq,if_true,Bool.true_eq_false,
    if_false,zero_ne_one,cons_append]
  linear_combination hz+hv+hkv-h0

end

open Nat Int

/-- A ring word read as a signed integer of `bits` bits. -/
def signedValue (bits x : ℕ) : ℤ := if x<2^(bits-1) then x else x-2^bits

/-- The signed shift: the floor of the quotient, moved up when the remainder rounds up. -/
def roundedShift (rounding : Rounding) (x : ℤ) (shift : ℕ) : ℤ :=
  let quotient := x/2^shift
  let remainder := x%2^shift
  if rounding = .tiesEven ∧
      (2*remainder>2^shift ∨ (2*remainder=2^shift ∧ quotient%2≠0)) then quotient+1
  else quotient

lemma roundedShift_floor (x : ℤ) (shift : ℕ) : roundedShift .floor x shift = x/2^shift := by
  simp [roundedShift]

/-- A zero-one integer. -/
def indicator (p : Prop) [Decidable p] : ℤ := if p then 1 else 0

/-- One masked opening recovers the signed value: the dealer's carry and the shared comparison with
the half ring say which of the two wraps happened. -/
lemma masked_signed {h x r o : ℕ} (hx : x<2*h) (hr : r<2*h) (ho : o=(x+r)%(2*h)) :
    (o : ℤ)-r+2*h*(indicator (r+h≥2*h)+indicator (o<(r+h)%(2*h))-1) =
        (if x < h then (x : ℤ) else x-2*h) ∧
      indicator (r+h≥2*h)+indicator (o<(r+h)%(2*h))-indicator (o < r) = indicator (x<h) := by
  rw [add_mod_eq hx hr] at ho
  rw [add_mod_eq hr (by omega)]
  subst ho
  unfold indicator
  constructor <;> split_ifs <;> push_cast <;> omega

lemma masked_lt {n t r o p : ℕ} (ht : t<n) (hr : r<n) (hp : p<n) (ho : o=(t+r)%n) :
    indicator (t<p) = indicator (o<(r+p)%n)+indicator (r+p≥n)-indicator (o < r) := by
  rw [add_mod_eq ht hr] at ho
  rw [add_mod_eq hr hp]
  subst ho
  unfold indicator
  split_ifs <;> omega

lemma masked_floor (o r : ℕ) {u : ℕ} (hu : 0 < u) (k : ℤ) :
    (o/u:ℕ)-((r/u:ℕ) : ℤ)+k-indicator (o%u < r%u) = ((o:ℤ)-r+u*k)/u := by
  have ho : (u : ℤ)*(o/u:ℕ)+(o%u:ℕ)=o := by exact_mod_cast div_add_mod o u
  have hr : (u : ℤ)*(r/u:ℕ)+(r%u:ℕ)=r := by exact_mod_cast div_add_mod r u
  have hol := mod_lt o hu
  have hrl := mod_lt r hu
  rw [eq_comm,ediv_eq_iff_of_pos (by omega)]
  generalize o%u=b at ho hol ⊢
  generalize r%u=e at hr hrl ⊢
  unfold indicator
  split_ifs <;> constructor <;> linarith

lemma roundUp_eq {h t : ℕ} (hh : 0<h) (ht : t<4*h) (x m : ℤ) (hx : x=4*h*m+t) :
    1+indicator (t<2*h)-indicator (t<h+1)-indicator (t<3*h) =
      indicator (2*(x%(2*h))>2*h ∨ (2*(x%(2*h))=2*h ∧ x/(2*h)%2≠0)) := by
  by_cases hlow : t<2*h
  · have hmod : x%(2*h)=t := by
      rw [hx,show (4*h*m+t:ℤ)=t+2*h*(2*m) by ring,add_mul_emod_self_left]
      exact emod_eq_of_lt (by omega) (by omega)
    have hdiv : x/(2*h)=2*m := by
      rw [ediv_eq_iff_of_pos (by omega)]
      constructor <;> linarith
    unfold indicator
    split_ifs <;> omega
  · have hmod : x%(2*h)=t-2*h := by
      rw [hx,show (4*h*m+t:ℤ)=(t-2*h)+2*h*(2*m+1) by ring,add_mul_emod_self_left]
      exact emod_eq_of_lt (by omega) (by omega)
    have hdiv : x/(2*h)=2*m+1 := by
      rw [ediv_eq_iff_of_pos (by omega)]
      constructor <;> linarith
    unfold indicator
    split_ifs <;> omega

lemma bit_eq_cast (p : Prop) [Decidable p] : bit p = ((indicator p:ℤ) : BitVec 32) := by
  unfold bit indicator
  split <;> simp

lemma cast_toNat (x : BitVec 32) : (((x.toNat:ℕ) : ℤ) : BitVec 32)=x := by
  simp

lemma cast_two_pow (hn : n<32) : (((2^n:ℕ) : ℤ) : BitVec 32) = (1 : BitVec 32) <<< n := by
  have hlt : 2^n<2^32 := Nat.pow_lt_pow_right (by decide) hn
  apply BitVec.eq_of_toNat_eq
  rw [toNat_one_shiftLeft hn,cast_natCast,BitVec.natCast_eq_ofNat,BitVec.toNat_ofNat,
    mod_eq_of_lt hlt]

section
variable {d : Descriptor} {r opened : BitVec 32} {x : ℕ}

lemma lessThan_eq_cast (width : ℕ) (r boundary opened : BitVec 32) :
    lessThan width r boundary opened = ((indicator (opened.toNat%2^width <
      (r.toNat%2^width+boundary.toNat)%2^width) : ℤ) : BitVec 32) := by
  rw [lessThan,bit_eq_cast,mod_add_mod]

lemma roundedShift_sub (x : ℤ) (shift : ℕ) : roundedShift .tiesEven x shift-x/2^shift = indicator
    (2*(x%2^shift)>2^shift ∨ (2*(x%2^shift)=2^shift ∧ x/2^shift%2≠0)) := by
  simp only [roundedShift,true_and,indicator]
  split_ifs <;> ring

lemma clearIncrement_eq (hd : d.Valid) (hx : (2^(d.shift+1):ℤ) ∣ z-x)
    (ho : opened.toNat%2^(d.shift+1) = (x+r.toNat)%2^(d.shift+1)) : clearIncrement d r opened =
    ((roundedShift d.rounding z d.shift-z/2^d.shift:ℤ) : BitVec 32) := by
  cases hr : d.rounding with
  | floor => simp [clearIncrement,hr,roundedShift_floor]
  | tiesEven =>
    obtain ⟨n,hn⟩ : ∃ n, d.shift=n+1 := ⟨d.shift-1,by have := hd.shift_pos; omega⟩
    have hn31 : n<31 := by
      have := hd.shift_lt
      have := hd.le_32
      omega
    obtain ⟨hb1,hb2,hb3⟩ := toNat_boundaries hn31
    have hh := Nat.two_pow_pos n
    have hwd : 2^(n+1+1)=4*2^n := by ring
    have hunit : 2^(n+1)=2*2^n := by ring
    rw [hn] at hx ho
    have htlt : x%(4*2^n)<4*2^n := mod_lt _ (by omega)
    have hrlt : r.toNat%(4*2^n)<4*2^n := mod_lt _ (by omega)
    have hsum : opened.toNat%(4*2^n)=(x%(4*2^n)+r.toNat%(4*2^n))%(4*2^n) := by
      rw [← add_mod,← hwd,ho]
    have h1 := masked_lt (p := 2*2^n) htlt hrlt (by omega) hsum
    have h2 := masked_lt (p := 2^n+1) htlt hrlt (by omega) hsum
    have h3 := masked_lt (p := 3*2^n) htlt hrlt (by omega) hsum
    obtain ⟨m,hm⟩ : ∃ m : ℤ, z=4*(2^n:ℕ)*m+(x%(4*2^n):ℕ) := by
      obtain ⟨k,hk⟩ := hx
      have hxm : (x : ℤ)=4*2^n*(x/(4*2^n):ℕ)+(x%(4*2^n):ℕ) := by
        exact_mod_cast (div_add_mod x (4*2^n)).symm
      refine ⟨k+(x/(4*2^n):ℕ),?_⟩
      rw [pow_succ,pow_succ] at hk
      push_cast at hxm hk ⊢
      linarith
    have hrou := roundUp_eq hh htlt z m hm
    have huni : (2:ℤ)^(n+1)=2*(2^n:ℕ) := by push_cast; ring
    have hhalf : 2*2^n/2=2^n := Nat.mul_div_cancel_left _ (by decide)
    have hthr : 2*2^n+2^n=3*2^n := by ring
    have hzero : (r.toNat%(4*2^n)+(0 : BitVec 32).toNat)%(4*2^n)=r.toNat%(4*2^n) :=
      mod_mod ..
    rw [hn,roundedShift_sub,huni,← hrou,h1,h2,h3]
    simp only [clearIncrement,laneConstants,hr,hn,reduceCtorEq,if_false,and_self,if_true,
      phaseBits,zero_ne_one,lessThan_eq_cast,bit_eq_cast,hb1,hb2,hb3,
      toNat_and_mask r (show n+1+1 ≤ 32 by omega),hwd,hunit,hhalf,hthr,
      hzero,Int.cast_add,Int.cast_sub,Int.cast_one]
    ring

/-- The comparisons of the full phase ring against the half ring and against zero. -/
lemma masked_phase (hb : 1≤bits)
    (hb32 : bits≤32) (hx : x<2^bits) (hr : r.toNat<2^bits) (ho : opened.toNat=(x+r.toNat)%2^bits) :
    (opened.toNat:ℤ)-r.toNat+2^bits*(indicator (r.toNat+2^bits/2≥2^bits)
    +indicator (opened.toNat<(r.toNat+2^(bits-1))%2^bits)-1) = signedValue bits x ∧ indicator
    (r.toNat+2^bits/2≥2^bits) +indicator (opened.toNat<(r.toNat+2^(bits-1))%2^bits)-indicator
    (opened.toNat < r.toNat) = indicator (0 ≤ signedValue bits x) := by
  obtain ⟨n,rfl⟩ : ∃ n, bits=n+1 := ⟨bits-1,by omega⟩
  have hpow : 2^(n+1)=2*2^n := by ring
  have hpowz : (2:ℤ)^(n+1)=2*(2^n:ℕ) := by push_cast; ring
  have hhalf : 2*2^n/2=2^n := Nat.mul_div_cancel_left _ (by decide)
  simp only [signedValue,Nat.add_sub_cancel,hpow,hpowz,hhalf] at hx hr ho ⊢
  obtain ⟨hv,hs⟩ := masked_signed hx hr ho
  refine ⟨hv,hs.trans ?_⟩
  unfold indicator
  split_ifs <;> omega

lemma ushiftRight_eq_cast (y : BitVec 32) (n : ℕ) :
    y >>> n = (((y.toNat/2^n:ℕ) : ℤ) : BitVec 32) := by
  apply BitVec.eq_of_toNat_eq
  have hlt : y.toNat/2^n<2^32 := (Nat.div_le_self ..).trans_lt y.isLt
  rw [BitVec.toNat_ushiftRight,Nat.shiftRight_eq_div_pow,cast_natCast,
    BitVec.natCast_eq_ofNat,BitVec.toNat_ofNat,mod_eq_of_lt hlt]

lemma lessThan_zero (width : ℕ) : lessThan width r 0 opened =
      ((indicator (opened.toNat%2^width < r.toNat%2^width):ℤ) : BitVec 32) := by
  rw [lessThan_eq_cast,show (0 : BitVec 32).toNat=0 from rfl,add_zero,mod_mod]

lemma lessThan_half (hb : 1≤bits) (hb32 : bits≤32) (ho : opened.toNat<2^bits) :
    lessThan bits r ((1 : BitVec 32) <<< (bits-1)) opened =
      ((indicator (opened.toNat<(r.toNat+2^(bits-1))%2^bits) : ℤ) : BitVec 32) := by
  rw [lessThan,bit_eq_cast,toNat_one_shiftLeft (by omega),mod_eq_of_lt ho]

lemma signedValue_dvd {bits width : ℕ} (h : width≤bits) (x : ℕ) :
    (2^width:ℤ) ∣ signedValue bits x-x := by
  unfold signedValue
  split_ifs
  · simp
  · rw [sub_right_comm,sub_self,zero_sub]
    exact (pow_dvd_pow 2 h).neg_right

variable {env : Platform} {lanes : Lane × Lane}

lemma fused_lane (hd : d.Valid) (h : IssuedLane env d .fused 0 r lanes) (hx : x<2^d.bits)
    (ho : opened.toNat=(x+r.toNat)%2^d.bits) (rounding : BitVec 32 × BitVec 32) :
    let z := signedValue d.bits x
    outputSum env d .fused 0 lanes opened rounding =
      ⟨((z/2^d.shift:ℤ) : BitVec 32),((indicator (0≤z):ℤ) : BitVec 32),
        ((roundedShift d.rounding z d.shift-z/2^d.shift:ℤ) : BitVec 32)⟩ := by
  obtain ⟨h2,h32,hp,hlt⟩ := hd
  have hr : r.toNat<2^d.bits := h.mask_lt
  have holt : opened.toNat<2^d.bits := ho ▸ mod_lt _ (Nat.two_pow_pos _)
  obtain ⟨hval,hsign⟩ := masked_phase (by omega) h32 hx hr ho
  obtain ⟨hv,hn⟩ := outputSum_fused h opened rounding
  have hcon : laneConstants d .fused 0 r=⟨-(r >>> d.shift)+
      ((1 : BitVec 32) <<< (d.bits-d.shift))*(bit (r.toNat+2^d.bits/2≥2^d.bits)-1),
      bit (r.toNat+2^d.bits/2≥2^d.bits),(laneConstants d .fused 0 r).rounding⟩ := by
    cases hrd : d.rounding <;> simp [laneConstants,phaseBits,hrd]
  rw [hcon,lessThan_half (by omega) h32 holt,lessThan_zero] at hv hn
  have hmod : (2:ℤ)^d.bits=2^d.shift*2^(d.bits-d.shift) := by
    rw [← pow_add,Nat.add_sub_cancel' hlt.le]
  ext1
  · have hflo := masked_floor opened.toNat r.toNat (Nat.two_pow_pos d.shift)
      (2^(d.bits-d.shift)*(indicator (r.toNat+2^d.bits/2≥2^d.bits)
        +indicator (opened.toNat<(r.toNat+2^(d.bits-1))%2^d.bits)-1))
    push_cast at hflo
    rw [← mul_assoc,← hmod,hval] at hflo
    rw [hv,ushiftRight_eq_cast,ushiftRight_eq_cast,← cast_two_pow (by omega),bit_eq_cast,← hflo]
    push_cast
    ring
  · rw [hn,← hsign,mod_eq_of_lt holt,mod_eq_of_lt hr,bit_eq_cast]
    push_cast
    ring
  · rw [outputSum_increment h]
    refine clearIncrement_eq (x := x) ⟨h2,h32,hp,hlt⟩ (signedValue_dvd hlt x) ?_
    rw [ho,mod_mod_of_dvd _ (Nat.pow_dvd_pow 2 hlt)]

lemma unfused_lane (hd : d.Valid) (h : IssuedLane env d .unfused 0 r lanes)
    (ho : opened.toNat=(x+r.toNat)%2^d.bits) (rounding : BitVec 32 × BitVec 32) :
    let z := signedValue d.bits x
    (outputSum env d .unfused 0 lanes opened rounding).scaled =
        (((opened.toNat-r.toNat)/2^d.shift:ℤ) : BitVec 32) ∧
      (outputSum env d .unfused 0 lanes opened rounding).increment =
        ((roundedShift d.rounding z d.shift-z/2^d.shift:ℤ) : BitVec 32) := by
  refine ⟨?_,?_⟩
  · have hflo := masked_floor opened.toNat r.toNat (Nat.two_pow_pos d.shift) 0
    have hcon : (laneConstants d .unfused 0 r).value = -(r >>> d.shift) := by
      cases hrd : d.rounding <;> simp [laneConstants,hrd]
    push_cast at hflo
    rw [mul_zero,add_zero,add_zero] at hflo
    rw [outputSum_unfused h,hcon,lessThan_zero,ushiftRight_eq_cast,ushiftRight_eq_cast, ← hflo]
    push_cast
    ring
  · rw [outputSum_increment h]
    refine clearIncrement_eq (x := x) hd (signedValue_dvd hd.shift_lt x) ?_
    rw [ho,mod_mod_of_dvd _ (Nat.pow_dvd_pow 2 hd.shift_lt)]

lemma second_lane (hd : d.Valid) (h : IssuedLane env d layout 1 r lanes)
    (hx : x<2^(d.bits-d.shift)) (ho : opened.toNat=(x+r.toNat)%2^(d.bits-d.shift))
    (rounding : BitVec 32 × BitVec 32) :
    let z := signedValue (d.bits-d.shift) x
    outputSum env d layout 1 lanes opened rounding =
      ⟨((z:ℤ) : BitVec 32),((indicator (0≤z):ℤ) : BitVec 32),rounding.1+rounding.2⟩ := by
  intro z
  obtain ⟨h2,h32,hp,hlt⟩ := hd
  have hr : r.toNat<2^(d.bits-d.shift) := h.mask_lt
  have holt : opened.toNat<2^(d.bits-d.shift) := ho ▸ mod_lt _ (Nat.two_pow_pos _)
  obtain ⟨hval,hsign⟩ := masked_phase (by omega) (by omega) hx hr ho
  have hcon : laneConstants d layout 1 r=⟨-r+BitVec.ofNat 32 (2^(d.bits-d.shift))*
          (bit (r.toNat+2^(d.bits-d.shift)/2≥2^(d.bits-d.shift))-1),
        bit (r.toNat+2^(d.bits-d.shift)/2≥2^(d.bits-d.shift)),0⟩ := by
    simp [laneConstants,phaseBits]
  have hring : BitVec.ofNat 32 (2^(d.bits-d.shift)) =
      (((2^(d.bits-d.shift):ℕ) : ℤ) : BitVec 32) := by
    rw [cast_natCast,BitVec.natCast_eq_ofNat]
  have hout := outputSum_second h opened rounding
  simp only [hcon,hring] at hout
  rw [lessThan_half (by omega) (by omega) holt,lessThan_zero,bit_eq_cast,
    ← cast_two_pow (by omega)] at hout
  rw [hout]
  ext1
  · rw [show z=_ from hval.symm,Int.cast_add,Int.cast_sub,cast_toNat,cast_toNat]
    push_cast
    ring
  · rw [← hsign,mod_eq_of_lt holt,mod_eq_of_lt hr]
    push_cast
    ring
  · rfl

lemma signedValue_eq (hb : 1≤bits) (hlo : -2^(bits-1)≤z)
    (hhi : z<2^(bits-1)) (hx : x<2^bits) (hd : (2^bits:ℤ) ∣ z-x) : signedValue bits x = z := by
  obtain ⟨n,rfl⟩ : ∃ n, bits=n+1 := ⟨bits-1,by omega⟩
  obtain ⟨k,hk⟩ := hd
  have hpowz : (2:ℤ)^(n+1)=2*(2^n:ℕ) := by push_cast; ring
  have hcast : (2:ℤ)^n=(2^n:ℕ) := by push_cast; rfl
  simp only [signedValue,Nat.add_sub_cancel,hpowz,hcast] at hx hk hlo hhi ⊢
  have hk0 : -1 ≤ k := by by_contra hn; nlinarith
  have hk1 : k≤0 := by by_contra hn; nlinarith
  split_ifs
  · obtain rfl : k=0 := by
      by_contra hn
      obtain rfl : k = -1 := by omega
      omega
    omega
  · obtain rfl : k = -1 := by
      by_contra hn
      obtain rfl : k=0 := by omega
      omega
    omega

lemma signedValue_bounds (hb : 1≤bits) (hx : x<2^bits) :
    -2^(bits-1) ≤ signedValue bits x ∧ signedValue bits x < 2^(bits-1) := by
  obtain ⟨n,rfl⟩ : ∃ n, bits=n+1 := ⟨bits-1,by omega⟩
  have hpowz : (2:ℤ)^(n+1)=2*(2^n:ℕ) := by push_cast; ring
  have hcast : (2:ℤ)^n=(2^n:ℕ) := by push_cast; rfl
  simp only [signedValue,Nat.add_sub_cancel,hpowz,hcast] at hx ⊢
  split_ifs <;> omega

lemma toNat_intCast_mod (z : ℤ) (hn : n≤32) : (((z : BitVec 32).toNat%2^n : ℕ) : ℤ)=z%2^n := by
  have hz : ((z : BitVec 32).toNat : ℤ)=z%2^32 := by
    rw [show (z : BitVec 32)=BitVec.ofInt 32 z from rfl,BitVec.toNat_ofInt]
    omega
  push_cast
  rw [hz,emod_emod_of_dvd z (pow_dvd_pow 2 hn)]

lemma signedValue_narrow (hd : d.Valid) (hx : x<2^d.bits)
    (ho : opened.toNat=(x+r.toNat)%2^d.bits) :
    signedValue (d.bits-d.shift)
        ((((opened.toNat-r.toNat)/2^d.shift:ℤ) : BitVec 32).toNat%2^(d.bits-d.shift)) =
      signedValue d.bits x/2^d.shift := by
  obtain ⟨h2,h32,hp,hlt⟩ := hd
  obtain ⟨hlo,hhi⟩ := signedValue_bounds (by omega) hx
  have hunit : (0:ℤ)<2^d.shift := by positivity
  have hhalf : (2:ℤ)^(d.bits-1)=2^(d.bits-d.shift-1)*2^d.shift := by
    rw [← pow_add]
    congr 1
    omega
  have hmod : (2:ℤ)^d.bits=2^d.shift*2^(d.bits-d.shift) := by
    rw [← pow_add,Nat.add_sub_cancel' hlt.le]
  refine signedValue_eq (by omega) ?_ ?_ (mod_lt _ (Nat.two_pow_pos _)) ?_
  · rw [Int.le_ediv_iff_mul_le hunit,neg_mul,← hhalf]
    exact hlo
  · rw [Int.ediv_lt_iff_lt_mul hunit,← hhalf]
    exact hhi
  · have hcla : (2^d.bits:ℤ) ∣ signedValue d.bits x-(opened.toNat-r.toNat) := by
      have h1 := signedValue_dvd (le_refl d.bits) x
      have h2 : (2^d.bits:ℤ) ∣ ((x+r.toNat:ℕ) : ℤ)-opened.toNat := by
        rw [ho]
        exact dvd_self_sub_emod
      have h3 := dvd_add h1 h2
      push_cast at h3
      ring_nf at h3 ⊢
      exact h3
    obtain ⟨k,hk⟩ := hcla
    have hdiv : signedValue d.bits x/2^d.shift =
        (opened.toNat-r.toNat:ℤ)/2^d.shift+2^(d.bits-d.shift)*k := by
      rw [← add_mul_ediv_left _ _ hunit.ne',← mul_assoc,← hmod,← hk]
      ring_nf
    rw [hdiv,add_sub_right_comm,toNat_intCast_mod _ (by omega)]
    exact dvd_self_sub_emod.add (Dvd.intro _ rfl)

end

end Pllm.Fss.SharedRescale
