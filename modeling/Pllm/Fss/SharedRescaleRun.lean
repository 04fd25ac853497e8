import Pllm.Fss.SharedRescaleLane

/-! Whole runs of the two rescaling parties: frames read back, phases open the masked words, and
completed runs reconstruct the rounded shift. -/
namespace Pllm.Fss.SharedRescale
open Pllm.Lib List Nat LaneOutput

lemma length_wordBytes (words : List (BitVec 32)) : (wordBytes words).length = 4*words.length := by
  induction words with
  | nil => rfl
  | cons word words ih =>
    simp only [wordBytes,flatMap_cons,length_append,length_leBytes,length_cons] at ih ⊢
    omega

lemma bytesWords_wordBytes (words : List (BitVec 32)) : bytesWords (wordBytes words)=words := by
  induction words with
  | nil => rfl
  | cons word words ih =>
    have hword := ofLeBytes_leBytes (n := 4) word (by decide)
    have hbyt : leBytes 4 word=[word.extractLsb' 0 8,word.extractLsb' 8 8,
      word.extractLsb' 16 8,word.extractLsb' 24 8] := rfl
    rw [hbyt] at hword
    simp only [wordBytes,flatMap_cons,hbyt,cons_append,nil_append,bytesWords] at ih ⊢
    rw [hword,ih]

lemma Party.length_frame (self : Party) (phase : ℕ) (words : List (BitVec 32)) :
    (self.frame phase words).length = openingHeaderBytes+4*words.length := by
  simp [Party.frame,magic,ascii,length_wordBytes,openingHeaderBytes]
  omega

variable {words : List (BitVec 32)} {phase bits : ℕ}

/-- A party reads back the frame its peer sent for the same phase of the same issuance. -/
lemma Party.parse_frame {a b : Party} (hid : b.id =
    !a.id) (hbin : b.binding=a.binding) (hnonc : b.nonce=a.nonce) (hln : b.lanes=a.lanes)
    (hcnt : a.lanes<2^32) (hlen : words.length=a.lanes) (hbits : bits≤32) (hwds : ∀ word∈words,
    word.toNat<2^bits) : a.parse (b.frame phase words) phase bits = .ok words := by
  have hleng := b.length_frame phase words
  have hfrm : b.frame phase words=magic++(leBytes 32 a.binding++(leBytes 32 a.nonce ++
      ([BitVec.ofNat 8 phase,if b.id then 1 else 0] ++
        (leBytes 4 (BitVec.ofNat 32 a.lanes)++wordBytes words)))) := by
    simp only [Party.frame,hbin,hnonc,hln,append_assoc]
  have hmag : magic.length=8 := rfl
  have hpeer : (if b.id then 1 else 0 : Byte)=if a.id then 0 else 1 := by
    rw [hid]
    cases a.id <;> rfl
  have hover : (words.any fun word => decide (word>mask bits))=false := by
    rw [any_eq_false]
    intro word hw
    have hmask : (mask bits).toNat=2^bits-1 := by
      have hle : 2^bits≤2^32 := Nat.pow_le_pow_right (by decide) hbits
      rw [mask,lowMask,BitVec.toNat_ofNat,mod_eq_of_lt (by omega)]
    have hlt := hwds word hw
    simp only [BitVec.lt_def,hmask,decide_eq_true_eq]
    omega
  have hread : (ofLeBytes 32 (leBytes 4 (BitVec.ofNat 32 a.lanes))).toNat=a.lanes := by
    rw [ofLeBytes_leBytes _ (by decide),BitVec.toNat_ofNat,mod_eq_of_lt hcnt]
  have hwor : (b.frame phase words).drop openingHeaderBytes=wordBytes words := by
    simp [hfrm,drop_append,drop_of_length_le,openingHeaderBytes,hmag]
  rw [Party.parse,if_neg,hwor,bytesWords_wordBytes]
  · simp only [hover,Bool.false_eq_true,if_false]
  · rw [hleng,hlen,hfrm]
    simp [drop_append,drop_of_length_le,getElem?_append,hmag,hread]
    exact hpeer

/-- The words one party opens in a phase. -/
def masked (bits : ℕ) (words : List (BitVec 32)) (lanes : List Lane) : List (BitVec 32) :=
  List.zipWith (fun x lane => (x+lane.maskShare) &&& mask bits) words lanes

/-- The outputs of every lane of one party's phase. -/
def phaseOutputs (env : Platform) (d : Descriptor) (layout : Layout) (phase : ℕ) (id : Bool)
    (lanes : List Lane) (own peer rounding : List (BitVec 32)) : List LaneOutput :=
  lanes.zipIdx.map fun (lane,index) => lane.output env d layout phase id
    ((own.getD index 0+peer.getD index 0) &&& mask (d.phaseBits phase)) (rounding.getD index 0)

/-- A batch the dealer issued for one phase. -/
structure IssuedPhase (env : Platform) (d : Descriptor) (layout : Layout) (phase lanes : ℕ)
    (batch : List (Lane × Lane)) : Prop where
  length_eq : batch.length=lanes
  lane : ∀ i (hi : i<batch.length), ∃ r, IssuedLane env d layout phase r batch[i]

variable {i : ℕ} {own rounding peerWords : List (BitVec 32)} {peer : List Byte}
  {state : Option State}

section
variable {n bits : ℕ} {words : List (BitVec 32)} {lanes : List Lane}

lemma issuePhase_issued {env : Platform} {d : Descriptor} (hd : d.Valid) {layout : Layout}
    {lanes : ℕ} {random : ℕ → LaneRandom} {batch : List (Lane × Lane)} (h : issuePhase env d layout
    lanes phase random = .ok batch) : IssuedPhase env d layout phase lanes batch := by
  have hall := mapM_eq_ok.mp h
  have hlen : batch.length=lanes := by simpa using hall.length_eq.symm
  refine ⟨hlen,fun i hi => ?_⟩
  have hisu := hall.get (i := i) (by simpa using hlen ▸ hi) hi
  exact issueLane_issued hd hisu

lemma toNat_add_mod (x y : BitVec 32) (hn : n≤32) : (x+y).toNat%2^n=(x.toNat+y.toNat)%2^n := by
  rw [BitVec.toNat_add,mod_mod_of_dvd _ (Nat.pow_dvd_pow 2 hn)]

lemma toNat_masked_add (x y : BitVec 32) (hn : n≤32) :
    ((x &&& mask n)+(y &&& mask n)).toNat%2^n = (x+y).toNat%2^n := by
  rw [toNat_add_mod _ _ hn,toNat_add_mod _ _ hn,toNat_and_mask _ hn,toNat_and_mask _ hn,← add_mod]

lemma length_masked (h : words.length=lanes.length) :
    (masked bits words lanes).length = lanes.length := by
  simp [masked,h]

lemma masked_lt_two_pow (hb : bits≤32) (words : List (BitVec 32)) (lanes : List Lane) :
    ∀ word ∈ masked bits words lanes, word.toNat<2^bits := by
  intro word hw
  obtain ⟨i,hi,rfl⟩ := getElem_of_mem hw
  simp only [masked,getElem_zipWith]
  rw [toNat_and_mask _ hb]
  exact mod_lt _ (Nat.two_pow_pos _)

lemma getD_masked (h : words.length=lanes.length) (hi : i<lanes.length) :
    (masked bits words lanes).getD i 0 = (words.getD i 0+lanes[i].maskShare) &&& mask bits := by
  have hw : i<words.length := h ▸ hi
  simp [masked,getD_eq_getElem?_getD,getElem?_zipWith,getElem?_eq_getElem hi,
    getElem?_eq_getElem hw]

@[simp] lemma length_phaseOutputs (env : Platform) (d : Descriptor) (layout : Layout) (phase : ℕ)
    (id : Bool) (lanes : List Lane) (own peer rounding : List (BitVec 32)) :
    (phaseOutputs env d layout phase id lanes own peer rounding).length = lanes.length := by
  simp [phaseOutputs]

end

section
variable {env : Platform} {d : Descriptor} {layout : Layout} {phase lanes : ℕ}
  {batch : List (Lane × Lane)}

lemma phaseOutputs_sum (hd : d.Valid) (h : IssuedPhase env d layout phase lanes batch)
    {left right : List (BitVec 32)} (hl : left.length=lanes) (hr : right.length=lanes)
    (roundingA roundingB : List (BitVec 32)) (hi : i<lanes) :
    let bits := d.phaseBits phase
    let lanesA := batch.map fun lane => pick lane false
    let lanesB := batch.map fun lane => pick lane true
    let ownA := masked bits left lanesA
    let ownB := masked bits right lanesB
    let outputsA := phaseOutputs env d layout phase false lanesA ownA ownB roundingA
    let outputsB := phaseOutputs env d layout phase true lanesB ownB ownA roundingB
    ∃ pair r opened, IssuedLane env d layout phase r pair ∧
      opened.toNat = ((left.getD i 0+right.getD i 0).toNat%2^bits+r.toNat)%2^bits ∧
      ∃ a b, outputsA[i]? = some a ∧ outputsB[i]? = some b ∧
        (⟨a.scaled+b.scaled,a.sign+b.sign,a.increment+b.increment⟩ : LaneOutput) =
          outputSum env d layout phase pair opened (roundingA.getD i 0,roundingB.getD i 0) := by
  intro bits lanesA lanesB ownA ownB outputsA outputsB
  have hbits : bits≤32 := by
    have := hd.le_32
    simp only [bits,Descriptor.phaseBits]
    split <;> omega
  have hi' : i<batch.length := h.length_eq ▸ hi
  obtain ⟨r,hiss⟩ := h.lane i hi'
  have hownA : ownA.getD i 0=(left.getD i 0+batch[i].1.maskShare) &&& mask bits := by
    have hla : i<lanesA.length := by simpa [lanesA] using hi'
    rw [getD_masked (by simp [lanesA,hl,h.length_eq]) hla]
    simp [lanesA]
  have hownB : ownB.getD i 0=(right.getD i 0+batch[i].2.maskShare) &&& mask bits := by
    have hlb : i<lanesB.length := by simpa [lanesB] using hi'
    rw [getD_masked (by simp [lanesB,hr,h.length_eq]) hlb]
    simp [lanesB]
  refine ⟨batch[i],r,(ownA.getD i 0+ownB.getD i 0) &&& mask bits,hiss,?_,?_⟩
  · have hsum : left.getD i 0+batch[i].1.maskShare+(right.getD i 0+batch[i].2.maskShare) =
        left.getD i 0+right.getD i 0+(batch[i].1.maskShare+batch[i].2.maskShare) := by ring
    rw [toNat_and_mask _ hbits,hownA,hownB,toNat_masked_add _ _ hbits,hsum,
      toNat_add_mod _ _ hbits,add_mod,toNat_add_mod batch[i].1.maskShare _ hbits,
      hiss.maskShares,add_mod,mod_mod,mod_eq_of_lt hiss.mask_lt,
      add_mod,mod_mod,mod_eq_of_lt hiss.mask_lt]
  · refine ⟨batch[i].1.output env d layout phase false
        ((ownA.getD i 0+ownB.getD i 0) &&& mask bits) (roundingA.getD i 0),
      batch[i].2.output env d layout phase true
        ((ownA.getD i 0+ownB.getD i 0) &&& mask bits) (roundingB.getD i 0),?_,?_,rfl⟩
    · simp [outputsA,phaseOutputs,getElem?_zipIdx,lanesA,getElem?_eq_getElem hi',bits]
    · simp [outputsB,phaseOutputs,getElem?_zipIdx,lanesB,getElem?_eq_getElem hi',bits,add_comm]

end

/-- A party of one issuance in a given state. -/
def partyAt (d : Descriptor) (layout : Layout) (lanes : ℕ) (binding nonce : BitVec 256) (id : Bool)
    (state : Option State) : Party := ⟨id,d,layout,lanes,binding,nonce,state⟩

section
variable {env : Platform} {d : Descriptor} {layout : Layout} {lanes : ℕ} {binding nonce : BitVec 256}
  {id : Bool}

lemma start_partyAt (hb : d.bits≤32) (material : Material) {input : List (BitVec 32)}
    (hlen : input.length=lanes) (hi : ∀ x∈input, x.toNat<2^d.bits) :
    let own := masked d.bits input material.current
    (partyAt d layout lanes binding nonce id (some (.ready material))).start input =
      (.ok ((partyAt d layout lanes binding nonce id none).frame 0 own),
        partyAt d layout lanes binding nonce id (some (.waiting 0 material own []))) := by
  have hmask : ∀ x∈input, ¬x>mask d.bits := by
    intro x hx
    have hle : 2^d.bits≤2^32 := Nat.pow_le_pow_right (by decide) hb
    have hlt := hi x hx
    rw [gt_iff_lt,BitVec.lt_def,mask,lowMask,BitVec.toNat_ofNat]
    omega
  have hany : (input.any fun x => decide (x>mask d.bits))=false := by
    rw [any_eq_false]
    intro x hx
    simpa using hmask x hx
  refine (if_neg ?_).trans rfl
  simp [partyAt,hlen,hany]

/-- The peer's frame of the same phase is read back. -/
lemma parse_partyAt (id other : Bool) (hid : other = !id) (hcnt : lanes<2^32)
    (phase : ℕ) (hb : bits≤32) (state : Option State) {peers : List Lane} (hw : words.length=lanes)
    (hp : peers.length=lanes) : (partyAt d layout lanes binding nonce id state).parse
    ((partyAt d layout lanes binding nonce other none).frame phase (masked bits words peers))
    phase bits = .ok (masked bits words peers) := by
  have hlen : (masked bits words peers).length=lanes := by
    rw [length_masked (hw.trans hp.symm),hp]
  exact Party.parse_frame hid rfl rfl rfl hcnt hlen hb (masked_lt_two_pow hb _ _)

lemma advance_opening {current next : List Lane}
    (hs : state = some (.waiting 0 ⟨current,some next⟩ own rounding))
    (hp : (partyAt d layout lanes binding nonce id state).parse peer 0 d.bits = .ok peerWords) :
    let outputs := phaseOutputs env d layout 0 id current own peerWords rounding
    let narrow := masked (d.bits-d.shift) (outputs.map scaled) next
    (partyAt d layout lanes binding nonce id state).advance env peer =
      (.ok (.opening ((partyAt d layout lanes binding nonce id none).frame 1 narrow)),
        partyAt d layout lanes binding nonce id
          (some (.waiting 1 ⟨next,none⟩ narrow (outputs.map increment)))) := by
  subst hs
  simp only [partyAt] at hp ⊢
  simp only [Party.advance,if_true,hp,phaseOutputs,Descriptor.phaseBits,zero_ne_one,
    if_false,masked,zipWith_map_left,Party.frame]

/-- A party in its last phase completes and keeps nothing. -/
lemma advance_complete {current : List Lane}
    (hph : phase≤1) (hs : state = some (.waiting phase ⟨current,none⟩ own rounding))
    (hp : (partyAt d layout lanes binding nonce id state).parse peer phase (d.phaseBits phase) =
      .ok peerWords) :
    (partyAt d layout lanes binding nonce id state).advance env peer =
      (.ok (.complete ((phaseOutputs env d layout phase id current own peerWords rounding).map
        fun output => ⟨(output.scaled+output.increment) &&& mask d.bits,
          output.sign &&& mask d.bits⟩)),partyAt d layout lanes binding nonce id none) := by
  have hbits : (if phase=0 then d.bits else d.bits-d.shift)=d.phaseBits phase := by
    obtain rfl | rfl : phase=0 ∨ phase=1 := by omega
    · rfl
    · rfl
  subst hs
  simp only [partyAt] at hp ⊢
  simp only [Party.advance,hbits,hp,phaseOutputs]

/-- The two fresh parties of one issuance. -/
lemma issueReference_eq_ok (hd : d.Valid) {context : Context} {random : ℕ → ℕ → LaneRandom} {a b : Party}
    (h : d.issueReference env layout context lanes nonce random = .ok (a,b)) :
    ∃ binding first second, lanes ≤ maxLanes ∧ IssuedPhase env d layout 0 lanes first ∧
      (layout = .fused → second=none) ∧
      (layout = .unfused → ∃ batch, second = some batch ∧ IssuedPhase env d layout 1 lanes batch) ∧
      a = partyAt d layout lanes binding nonce false (some (.ready
        ⟨first.map fun lane => pick lane false,
          second.map fun batch => batch.map fun lane => pick lane false⟩)) ∧
      b = partyAt d layout lanes binding nonce true (some (.ready
        ⟨first.map fun lane => pick lane true,
          second.map fun batch => batch.map fun lane => pick lane true⟩)) := by
  simp only [Descriptor.issueReference,bind_eq_ok,ite_error_eq_ok] at h
  obtain ⟨resources,hres,h⟩ := h
  replace h := h.2
  have hln : lanes ≤ maxLanes := by
    simp only [Descriptor.resources,ite_error_eq_ok] at hres
    omega
  cases layout with
  | fused =>
    obtain ⟨first,hfst,rfl,rfl⟩ := h
    exact ⟨_,first,none,hln,issuePhase_issued hd hfst,fun _ => rfl,nofun,rfl,rfl⟩
  | unfused =>
    simp only [reduceCtorEq,if_false,pure_eq_ok,bind_eq_ok,ok_eq_ok,Prod.mk.injEq] at h
    obtain ⟨first,hfst,second,hsnd,rfl,rfl⟩ := h
    refine ⟨_,first,second,hln,issuePhase_issued hd hfst,nofun,fun _ => ?_,rfl,rfl⟩
    cases hbat : issuePhase env d .unfused lanes 1 (random 1) with
    | error e => simp [hbat] at hsnd
    | ok batch =>
      simp only [hbat,Except.map,Functor.map,ok_eq_ok] at hsnd
      exact ⟨batch,hsnd.symm,issuePhase_issued hd hbat⟩

end

/-- Two output shares reconstruct the rounded shift of a word and its sign bit. -/
def Reconstructs (bits shift : ℕ) (rounding : Rounding) (x : ℕ) (a b : OutputShare) : Prop :=
  (((a.rescaled+b.rescaled).toNat%2^bits:ℕ) : ℤ) =
      roundedShift rounding (signedValue bits x) shift%2^bits ∧
    (a.nonnegative+b.nonnegative).toNat%2^bits = if 0 ≤ signedValue bits x then 1 else 0

section
variable {d : Descriptor} {env : Platform} {context : Context} {lanes : ℕ} {nonce : BitVec 256}
  {random : ℕ → ℕ → LaneRandom} {a b : Party} {left right : List (BitVec 32)}

lemma reconstructs_of_sum (hd : d.Valid) {x : ℕ} {a b : LaneOutput}
    (hsca : a.scaled+b.scaled = ((signedValue d.bits x/2^d.shift:ℤ) : BitVec 32))
    (hsign : a.sign+b.sign = ((indicator (0 ≤ signedValue d.bits x):ℤ) : BitVec 32))
    (hinc : a.increment+b.increment = ((roundedShift d.rounding (signedValue d.bits x) d.shift
      -signedValue d.bits x/2^d.shift : ℤ) : BitVec 32)) :
    Reconstructs d.bits d.shift d.rounding x ⟨(a.scaled+a.increment) &&& mask d.bits,a.sign &&& mask
      d.bits⟩ ⟨(b.scaled+b.increment) &&& mask d.bits,b.sign &&& mask d.bits⟩ := by
  have h2 := hd.two_le
  have h32 := hd.le_32
  refine ⟨?_,?_⟩
  · have hsum : a.scaled+a.increment+(b.scaled+b.increment) =
        ((roundedShift d.rounding (signedValue d.bits x) d.shift:ℤ) : BitVec 32) := by
      rw [add_add_add_comm,hsca,hinc,← Int.cast_add,add_sub_cancel]
    rw [toNat_masked_add _ _ h32,hsum,toNat_intCast_mod _ h32]
  · have hone : 1<2^d.bits := Nat.one_lt_two_pow (by omega)
    rw [toNat_masked_add _ _ h32,hsign]
    unfold indicator
    split_ifs
    · simpa using mod_eq_of_lt hone
    · simp

/-- A run that completes with shares of the rescaled lanes. -/
def Completes (env : Platform) (d : Descriptor) (rounds lanes : ℕ) (a b : Party)
    (left right : List (BitVec 32)) : Prop :=
  ∃ outputsA outputsB, run env rounds a b left right = some (outputsA,outputsB) ∧
    outputsA.length=lanes ∧ outputsB.length=lanes ∧
    ∀ i<lanes, ∃ shareA shareB, outputsA[i]? = some shareA ∧ outputsB[i]? = some shareB ∧
      Reconstructs d.bits d.shift d.rounding
        ((left.getD i 0+right.getD i 0).toNat%2^d.bits) shareA shareB

section
variable (hd : d.Valid) (hl : left.length=lanes) (hr : right.length=lanes)
  (hlb : ∀ x∈left, x.toNat<2^d.bits) (hrb : ∀ x∈right, x.toNat<2^d.bits)
include hd hl hr hlb hrb

lemma run_fused (h : d.issueReference env .fused context lanes nonce random = .ok (a,b)) :
    Completes env d 1 lanes a b left right := by
  obtain ⟨binding,first,second,hmax,hfst,hf,-,rfl,rfl⟩ := issueReference_eq_ok hd h
  obtain rfl := hf rfl
  have h32 := hd.le_32
  have hcnt : lanes<2^32 := hmax.trans_lt (by decide)
  have hlen := hfst.length_eq
  have hln : ∀ id, (first.map fun lane => pick lane id).length=lanes := by simp [hlen]
  rw [Completes,run,start_partyAt h32 _ hl hlb,start_partyAt h32 _ hr hrb]
  simp only [exchange,Option.map_none]
  rw [advance_complete (zero_le 1) rfl (parse_partyAt false true rfl hcnt 0 h32 _ hr (hln true)),
      advance_complete (zero_le 1) rfl (parse_partyAt true false rfl hcnt 0 h32 _ hl (hln false))]
  refine ⟨_,_,rfl,by simp [hlen],by simp [hlen],fun i hi => ?_⟩
  obtain ⟨pair,r,opened,hiss,hope,a,b,ha,hb,hsum⟩ :=
    phaseOutputs_sum hd hfst hl hr [] [] hi
  rw [fused_lane hd hiss (mod_lt _ (Nat.two_pow_pos _)) hope] at hsum
  refine ⟨_,_,by rw [getElem?_map]; exact congrArg _ ha,
    by rw [getElem?_map]; exact congrArg _ hb,?_⟩
  simp only [LaneOutput.mk.injEq] at hsum
  exact reconstructs_of_sum hd hsum.1 hsum.2.1 hsum.2.2

lemma run_unfused (h : d.issueReference env .unfused context lanes nonce random = .ok (a,b)) :
    Completes env d 2 lanes a b left right := by
  obtain ⟨binding,first,second,hmax,hfst,-,hu,rfl,rfl⟩ := issueReference_eq_ok hd h
  obtain ⟨next,rfl,hnext⟩ := hu rfl
  have h32 := hd.le_32
  have hnar : d.bits-d.shift≤32 := by omega
  have hcnt : lanes<2^32 := hmax.trans_lt (by decide)
  have hlen := hfst.length_eq
  have hlen' := hnext.length_eq
  have hln : ∀ id, (first.map fun lane => pick lane id).length=lanes := by simp [hlen]
  have hlanes' : ∀ id, (next.map fun lane => pick lane id).length=lanes := by simp [hlen']
  have hsums := fun (i : ℕ) (hi : i<lanes) => phaseOutputs_sum hd hfst hl hr [] [] hi
  rw [Completes,run,start_partyAt h32 _ hl hlb,start_partyAt h32 _ hr hrb]
  simp only [exchange,Option.map_some]
  rw [advance_opening rfl (parse_partyAt false true rfl hcnt 0 h32 _ hr (hln true)),
    advance_opening rfl (parse_partyAt true false rfl hcnt 0 h32 _ hl (hln false))]
  simp only [show d.phaseBits 0=d.bits from rfl] at hsums
  have hwa : (phaseOutputs env d .unfused 0 false (first.map fun lane => pick lane false)
      (masked d.bits left (first.map fun lane => pick lane false))
      (masked d.bits right (first.map fun lane => pick lane true)) []).length = lanes := by
    simp [hlen]
  have hwb : (phaseOutputs env d .unfused 0 true (first.map fun lane => pick lane true)
      (masked d.bits right (first.map fun lane => pick lane true))
      (masked d.bits left (first.map fun lane => pick lane false)) []).length = lanes := by
    simp [hlen]
  generalize phaseOutputs env d .unfused 0 false _ _ _ []=outputsA at hsums hwa ⊢
  generalize phaseOutputs env d .unfused 0 true _ _ _ []=outputsB at hsums hwb ⊢
  have hla : (outputsA.map scaled).length=lanes := by simpa using hwa
  have hlb : (outputsB.map scaled).length=lanes := by simpa using hwb
  dsimp only
  rw [advance_complete le_rfl rfl (parse_partyAt false true rfl hcnt 1 hnar _ hlb (hlanes' true)),
      advance_complete le_rfl rfl (parse_partyAt true false rfl hcnt 1 hnar _ hla (hlanes' false))]
  refine ⟨_,_,rfl,by simp [hlen'],by simp [hlen'],fun i hi => ?_⟩
  obtain ⟨pair,r,opened,hiss,hope,a,b,ha,hb,hsum⟩ := hsums i hi
  obtain ⟨hsca,hinc⟩ := unfused_lane hd hiss hope (0,0)
  obtain ⟨pair',r',opened',hiss',hope',a',b',ha',hb',hsum'⟩ :=
    phaseOutputs_sum hd hnext hla hlb (outputsA.map increment)
      (outputsB.map increment) hi
  have hga : ∀ f : LaneOutput → BitVec 32, (outputsA.map f).getD i 0=f a := fun f => by
    rw [getD_eq_getElem?_getD,getElem?_map,ha]
    rfl
  have hgb : ∀ f : LaneOutput → BitVec 32, (outputsB.map f).getD i 0=f b := fun f => by
    rw [getD_eq_getElem?_getD,getElem?_map,hb]
    rfl
  rw [hga,hgb] at hope' hsum'
  rw [second_lane hd hiss' (mod_lt _ (Nat.two_pow_pos _)) hope'] at hsum'
  refine ⟨_,_,by rw [getElem?_map]; exact congrArg _ ha',
    by rw [getElem?_map]; exact congrArg _ hb',?_⟩
  have hzero : ([] : List (BitVec 32)).getD i 0=0 := rfl
  rw [hzero] at hsum
  rw [← hsum] at hsca hinc
  have hval := signedValue_narrow hd (mod_lt _ (Nat.two_pow_pos _)) hope
  rw [← hsca] at hval
  have hnon : (0 ≤ signedValue d.bits ((left.getD i 0+right.getD i 0).toNat%2^d.bits)/2^d.shift) ↔
      0 ≤ signedValue d.bits ((left.getD i 0+right.getD i 0).toNat%2^d.bits) :=
    Int.ediv_nonneg_iff_of_pos (by positivity)
  simp only [LaneOutput.mk.injEq,hval,hnon] at hsum'
  exact reconstructs_of_sum hd hsum'.1 hsum'.2.1 (hsum'.2.2.trans hinc)

end

/-- Every completed run of every configuration reconstructs the rounded shift of the shared word
and its sign bit, so all configurations agree. -/
theorem shared_rescale_run (env : Platform) {bits shift : ℕ} {rounding : Rounding}
    {descriptor : Descriptor} (hnew : Descriptor.new bits shift rounding = .ok descriptor)
    (backend : Backend) (layout : Layout) (context : Context) (lanes : ℕ) (nonce : BitVec 256)
    (random : ℕ → ℕ → LaneRandom) {a b : Party}
    (hisu : (descriptor.withBackend backend).issueReference env layout context lanes nonce random =
      .ok (a,b))
    {left right : List (BitVec 32)} (hl : left.length=lanes) (hr : right.length=lanes)
    (hlb : ∀ x∈left, x.toNat<2^bits) (hrb : ∀ x∈right, x.toNat<2^bits) :
    ∃ outputsA outputsB, run env (Descriptor.rounds layout) a b left right = some
      (outputsA,outputsB) ∧ outputsA.length=lanes ∧ outputsB.length=lanes ∧
      ∀ i<lanes, ∃ shareA shareB, outputsA[i]? = some shareA ∧ outputsB[i]? = some shareB ∧
        Reconstructs bits shift rounding ((left.getD i 0+right.getD i 0).toNat%2^bits)
          shareA shareB := by
  obtain ⟨hd,he⟩ := Descriptor.new_eq_ok hnew backend
  rw [he] at hd hisu
  cases layout with
  | fused => exact run_fused hd hl hr hlb hrb hisu
  | unfused => exact run_unfused hd hl hr hlb hrb hisu

end

/-- A small platform and the draws of one issuance on it. -/
def sample : Platform × (ℕ → ℕ → LaneRandom) :=
  (⟨mixingAes,⟨4,24,44,352,48⟩,fun bytes => BitVec.ofNat 256 bytes.length⟩,
    fun phase index => ⟨fun i => BitVec.ofNat 32 (phase+index+3*i+5),
      fun i j => (BitVec.ofNat 128 (i+7),BitVec.ofNat 128 (j+12))⟩)

/-- A tie at the value -1 of a three-bit ring, split as 3+4, moves up to the even zero. -/
theorem shared_rescale_run_tie : ∃ descriptor a b, Descriptor.new 3 1 .tiesEven = .ok descriptor ∧
    (descriptor.withBackend .compactDcf).issueReference sample.1 .unfused ⟨1,2,3,4⟩ 1 5 sample.2 =
    .ok (a,b) ∧ ∃ outputsA outputsB, run sample.1 2 a b [3] [4] = some
    (outputsA,outputsB) ∧ ∃ shareA shareB, outputsA[0]? = some shareA ∧ outputsB[0]? = some shareB ∧
    (shareA.rescaled+shareB.rescaled).toNat%2^3=0 ∧
    (shareA.nonnegative+shareB.nonnegative).toNat%2^3 = 0 := by
  have hok : ((⟨3,1,.tiesEven,.compactDcf⟩ : Descriptor).issueReference sample.1 .unfused ⟨1,2,3,4⟩ 1
      5 sample.2).toOption.isSome := by decide +kernel
  obtain ⟨⟨a,b⟩,hisu⟩ := isSome_toOption.mp hok
  have hnew : Descriptor.new 3 1 .tiesEven = .ok ⟨3,1,.tiesEven,.prefixDpf⟩ := rfl
  refine ⟨_,a,b,hnew,hisu,?_⟩
  obtain ⟨outputsA,outputsB,hrun,-,-,hout⟩ := shared_rescale_run sample.1 hnew .compactDcf .unfused
    ⟨1,2,3,4⟩ 1 5 sample.2 hisu (show [3].length = 1 from rfl) (show [4].length = 1 from rfl)
    (by simp) (by simp)
  obtain ⟨shareA,shareB,ha,hb,hval,hsign⟩ := hout 0 (by decide)
  refine ⟨outputsA,outputsB,hrun,shareA,shareB,ha,hb,?_,hsign⟩
  have htie : roundedShift .tiesEven
      (signedValue 3 ((([3] : List (BitVec 32)).getD 0 0+[4].getD 0 0).toNat%2^3)) 1%2^3 = 0 := by
    decide
  exact_mod_cast hval.trans htie

end Pllm.Fss.SharedRescale
