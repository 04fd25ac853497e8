import Pllm.Garble.LogRow

/-! Whole lookups: every level of mask bits keeps the labels of the evaluator at the offset of the
masked word, the masked table turns the masked word into the entry, and the decoder reads it. -/
namespace Pllm.Garble.LogRow
open Pllm.Lib List

/-- The offset where a bit is set. -/
def offset (delta : Block) (b : Bool) : Block := if b then delta else 0

lemma offset_xor (delta : Block) (a b : Bool) :
    offset delta (a ^^ b) = offset delta a ^^^ offset delta b := by
  cases a <;> cases b <;> simp [offset]

lemma getLsbD_one_shiftLeft {i o : ℕ} (ho : o<16) :
    ((1 : BitVec 16) <<< i).getLsbD o = decide (o=i) := by
  have hone : ∀ j, (1 : BitVec 16).getLsbD j=decide (j=0) := fun j => by
    simp
  rw [BitVec.getLsbD_shiftLeft,hone]
  rcases lt_trichotomy o i with h | rfl | h
  · simp [h,h.ne]
  · simp [ho]
  · have hne : ¬o-i=0 := by omega
    simp [hne,h.ne']

lemma getLsbD_foldl_flip (f : ℕ → Bool) (entry : BitVec 16) {o : ℕ} (ho : o<16) (n : ℕ) :
    ((range n).foldl (fun entry output =>
      if f output then entry ^^^ (1 : BitVec 16) <<< output else entry) entry).getLsbD o
      = (entry.getLsbD o ^^ (decide (o<n) && f o)) := by
  induction n with
  | zero => simp
  | succ n ih =>
    rw [range_succ,foldl_append,List.foldl_cons,foldl_nil]
    by_cases hf : f n=true
    · rw [if_pos hf,BitVec.getLsbD_xor,ih,getLsbD_one_shiftLeft ho]
      rcases lt_trichotomy o n with h | rfl | h
      · simp [h,h.ne,h.trans (Nat.lt_succ_self n)]
      · simp [hf]
      · have h1 : ¬o < n := by omega
        have h2 : ¬o < n+1 := by omega
        simp [h1,h2,h.ne']
    · rw [if_neg hf,ih]
      rcases lt_trichotomy o n with h | rfl | h
      · simp [h,h.trans (Nat.lt_succ_self n)]
      · simp [hf]
      · have h1 : ¬o < n := by omega
        have h2 : ¬o < n+1 := by omega
        simp [h1,h2]

lemma xor_low (z h l r a b : Block) : (z ^^^ a) ^^^ (h ^^^ (l ^^^ b))
    = (z ^^^ ((l ^^^ r) ^^^ (h ^^^ r))) ^^^ (a ^^^ b) := by
  have hsum : (l ^^^ r) ^^^ (h ^^^ r)=h ^^^ l := by
    rw [xor_comm h r,xor_assoc l,xor_cancel_left,xor_comm l h]
  rw [hsum]
  ac_rfl

lemma xor_high (z h k l r a b : Block) : (z ^^^ a) ^^^ ((k ^^^ ((k ^^^ l) ^^^ (h ^^^ r))) ^^^ (r ^^^ b))
    = (z ^^^ ((l ^^^ r) ^^^ (h ^^^ r))) ^^^ (a ^^^ b) := by
  have hrow : (k ^^^ ((k ^^^ l) ^^^ (h ^^^ r))) ^^^ (r ^^^ b)=h ^^^ (l ^^^ b) := by
    rw [xor_assoc k l,xor_cancel_left,←xor_assoc l,xor_assoc (l ^^^ h),xor_cancel_left,xor_comm l,
      xor_assoc]
  rw [hrow]
  exact xor_low z h l r a b

lemma maskSum_eq (hot : List Block) (bits : List Bool) (ob bit : ℕ) :
    maskSum hot bits ob bit = xorAt (fun i => bits.getD (i*ob+bit) false) hot := by
  rw [maskSum,foldl_zipIdx_xor (fun i => bits.getD (i*ob+bit) false), zero_xor]
  simp only [zero_add]

/-- Labels that carry the offset where the random entry of the masked index has a bit set. -/
structure Carries (delta : Block) (x ob : ℕ) (s : Masking) (output : List Block) : Prop where
  place : x < s.randomTable.length
  lengths : s.outputZero.length=ob ∧ output.length=ob
  label : ∀ o<ob, output.getD o 0
    = s.outputZero.getD o 0 ^^^ offset delta ((s.randomTable.getD x 0).getLsbD o)

variable {n : ℕ} {hot output : List Block} {s : Masking} {table : List (BitVec 16)}

section
variable (hash : FixedKeyHash) (id : CircuitId) {masked labels : List Block} {delta : Block}
  {x ob : ℕ}

lemma getD_mapIdx {α β : Type} {f : ℕ → α → β} {l : List α} {i : ℕ} (d : α) (e : β)
    (hi : i<l.length) : (l.mapIdx f).getD i e = f i (l.getD i d) := by
  rw [getD_eq_getElem?_getD,getElem?_mapIdx,getElem?_eq_getElem hi,getD_eq_getElem _ _ hi]
  rfl

lemma getD_map_range {α : Type} {f : ℕ → α} {n i : ℕ} (d : α) (hi : i<n) :
    ((range n).map f).getD i d = f i := by
  rw [getD_eq_getElem _ _ (by simpa using hi),getElem_map,getElem_range]

/-- One level: the sum over the evaluator's half has the offset exactly where its mask bit is set. -/
lemma unmaskLevel_carries {depth : ℕ} (hdep : 0<depth)
    (hlen : hot.length=2^depth) (hbits : ob≤16)
    (hlab : labels.getD (depth-1) 0
      = masked.getD (depth-1) 0 ^^^ (if x.testBit (depth-1) then delta else 0))
    (h : Carries delta x ob s output) :
    ∃ level : MaskLevel, (maskLevel hash id masked delta ob depth hot s).levels
        = s.levels++[level] ∧ level.depth=depth
      ∧ Carries delta x ob (maskLevel hash id masked delta ob depth hot s)
        (unmaskLevel hash id labels ob x (hot.modify (x%2^depth) (· ^^^ delta),output) level).2 := by
  obtain ⟨half,hhalf⟩ : ∃ half, 1 <<< (depth-1)=half := ⟨_,rfl⟩
  have hpow : 2^depth=2*half := by
    rw [←hhalf,Nat.one_shiftLeft,←pow_succ']
    congr 1
    omega
  have hpos : 0<half := by
    rw [←hhalf,Nat.one_shiftLeft]
    exact Nat.two_pow_pos _
  obtain ⟨zero,hzero⟩ : ∃ zero, masked.getD (depth-1) 0=zero := ⟨_,rfl⟩
  obtain ⟨left,hleft⟩ : ∃ left, maskBits hash id zero depth (half*ob)=left := ⟨_,rfl⟩
  obtain ⟨right,hrt⟩ : ∃ right, maskBits hash id (zero ^^^ delta) depth (half*ob)=right :=
    ⟨_,rfl⟩
  have hside : x.testBit (depth-1)=decide (¬x%(2*half)<half) := by
    rw [Nat.testBit_eq_decide_div_mod_eq,←Nat.one_shiftLeft,hhalf]
    have hdiv := Nat.mod_mul (x := x) (a := half) (b := 2)
    have hlt := Nat.mod_lt x hpos
    rw [mul_comm 2 half,hdiv]
    rcases Nat.mod_two_eq_zero_or_one (x/half) with hq | hq
    · simp [hq,hlt]
    · simp [hq]
  have hpla : x < s.randomTable.length := h.place
  refine ⟨_,rfl,rfl,?_,?_,fun o ho => ?_⟩
  · simpa [maskLevel] using hpla
  · simpa [maskLevel,unmaskLevel] using h.lengths
  · have hO := h.label o ho
    have hoz : o < s.outputZero.length := h.lengths.1.symm ▸ ho
    have hout : o<output.length := h.lengths.2.symm ▸ ho
    have hm : x%(2*half)<hot.length := by
      rw [hlen,hpow]
      exact Nat.mod_lt _ (by omega)
    simp only [maskLevel,unmaskLevel]
    rw [getD_mapIdx 0 0 hout,getD_mapIdx 0 0 hoz,getD_mapIdx 0 0 hpla,hO]
    simp only [maskEntry,hhalf,hzero,hleft,hrt,hpow,hlab,hside,maskSum_eq,mul_comm half 2]
    by_cases hlow : x%(2*half)<half
    · simp only [hlow,not_true_eq_false,decide_false,Bool.false_eq_true,if_false,if_true,xor_zero,
        hleft,take_modify,Bool.toNat_false]
      rw [xorAt_modify _ _ (by rw [length_take]; omega),
        getLsbD_foldl_flip (fun output => left.getD (x%(2*half)*ob+output) false) _
          (ho.trans_le hbits),
        decide_eq_true ho, Bool.true_and, offset_xor]
      exact xor_low _ _ _ _ _ _
    · simp only [hlow,not_false_eq_true,decide_true,if_true,if_false,hrt,
        drop_modify_of_ge _ _ _ _ (not_lt.mp hlow),Bool.toNat_true]
      rw [xorAt_modify _ _ (by rw [length_drop]; omega),
        getLsbD_foldl_flip (fun output => right.getD ((x%(2*half)-half)*ob+output) false) _
          (ho.trans_le hbits), decide_eq_true ho, Bool.true_and, offset_xor, getD_map_range _ ho]
      exact xor_high _ _ _ _ _ _ _

/-- All levels, from the leaves up. -/
lemma maskLevels_carries (hbits : ob≤16) (hlab : ∀ b<n, labels.getD b 0 =
    masked.getD b 0 ^^^ (if x.testBit b then delta else 0))
    (hlen : hot.length=2^n) (h : Carries delta x ob s output) :
    ∃ levels, (maskLevels hash id masked delta ob n hot s).levels = s.levels++levels
      ∧ Carries delta x ob (maskLevels hash id masked delta ob n hot s)
        (levels.foldl (unmaskLevel hash id labels ob x)
          (hot.modify (x%2^n) (· ^^^ delta),output)).2 := by
  induction n generalizing hot output s with
  | zero => exact ⟨[],(append_nil _).symm,h⟩
  | succ n ih =>
    obtain ⟨level,hlev,hdep,hcar⟩ := unmaskLevel_carries hash id
      (Nat.succ_pos n) hlen hbits (hlab n (Nat.lt_succ_self n)) h
    have hpow : 2^(n+1)=2*2^n := Nat.pow_succ'
    rcases Nat.eq_zero_or_pos n with rfl | hn
    -- the last level is not folded, and no level is left to use it
    · exact ⟨[level],hlev,hcar⟩
    · have hfold : n+1>1 := by omega
      have hhot : (unmaskLevel hash id labels ob x (hot.modify (x%2^(n+1)) (· ^^^
          delta),output) level).1 = (folded hot).modify (x%2^n) (· ^^^ delta) := by
        simp only [unmaskLevel,hdep]
        rw [if_pos hfold,folded,foldHalves_modify (hlen.trans hpow)
          (hpow ▸ Nat.mod_lt _ (Nat.two_pow_pos _)),hpow,Nat.mod_mul_left_mod]
        rfl
      obtain ⟨levels,hlvs,hrest⟩ := ih (fun b hb => hlab b (Nat.lt_succ_of_lt hb))
        (length_foldHalves (hlen.trans hpow)) hcar
      refine ⟨level::levels,?_,?_⟩
      · rw [maskLevels,if_pos hfold]
        refine hlvs.trans ?_
        rw [hlev,append_assoc]
        rfl
      · rw [maskLevels,if_pos hfold]
        rw [←folded,←hhot] at hrest
        exact hrest

end

section
variable (seeds : List Block) (bit : ℕ → ℕ → Bool)

lemma addSeeds_from (k : ℕ) (labels : List Block) :
    ((seeds.zipIdx k).foldl (fun labels p => labels.mapIdx fun output label =>
      if bit p.2 output then label ^^^ p.1 else label) labels).length=labels.length
      ∧ ∀ o<labels.length, ((seeds.zipIdx k).foldl (fun labels p => labels.mapIdx fun output label =>
        if bit p.2 output then label ^^^ p.1 else label) labels).getD o 0
        = labels.getD o 0 ^^^ xorAt (fun i => bit (k+i) o) seeds := by
  induction seeds generalizing k labels with
  | nil => exact ⟨rfl,fun o _ => (xor_zero _).symm⟩
  | cons seed seeds ih =>
    obtain ⟨hlen,hget⟩ := ih (k+1) (labels.mapIdx fun output label =>
      if bit k output then label ^^^ seed else label)
    rw [length_mapIdx] at hlen hget
    refine ⟨hlen,fun o ho => ?_⟩
    have hshf : (fun i => bit (k+1+i) o)=fun i => bit (k+(i+1)) o :=
      funext fun i => congrArg (bit · o) (by omega)
    rw [zipIdx_cons,List.foldl_cons,hget o ho,getD_mapIdx 0 0 ho,xorAt,hshf]
    cases hb : bit k o
    · simp
    · simp [xor_assoc]

lemma length_addSeeds (labels : List Block) :
    (addSeeds seeds bit labels).length = labels.length := (addSeeds_from seeds bit 0 labels).1

lemma getD_addSeeds {labels : List Block} {o : ℕ} (ho : o<labels.length) : (addSeeds seeds bit
    labels).getD o 0 = labels.getD o 0 ^^^ xorAt (fun i => bit i o) seeds := by
  have h := (addSeeds_from seeds bit 0 labels).2 o ho
  simp only [zero_add] at h
  exact h

end

section
variable {bytes : List Byte} {ob i o : ℕ}

lemma packedBit_setPackedBit {a : ℕ} (ha : a/8<bytes.length) (b : ℕ) :
    packedBit (setPackedBit bytes a) b = (packedBit bytes b || decide (b=a)) := by
  have hone : ∀ j, (1 : Byte).getLsbD j=decide (j=0) := fun j => by
    simp
  rw [packedBit,packedBit,setPackedBit,getD_eq_getElem?_getD,getElem?_modify,getD_eq_getElem?_getD]
  by_cases hbyte : a/8=b/8
  · have hb : b/8<bytes.length := hbyte ▸ ha
    rw [getElem?_eq_getElem hb,Option.map_eq_map,Option.map_some,Option.getD_some,
      Option.getD_some,if_pos hbyte,BitVec.getLsbD_or,BitVec.getLsbD_shiftLeft,hone]
    congr 1
    rcases lt_trichotomy (b%8) (a%8) with h | h | h
    · have hne : b≠a := fun e => absurd (congrArg (·%8) e) h.ne
      simp [h,hne]
    · have heq : b=a := by omega
      have hlt : a%8<8 := Nat.mod_lt _ (by decide)
      simp [heq,hlt]
    · have hne : b≠a := fun e => absurd (congrArg (·%8) e) h.ne'
      have hsub : ¬b%8-a%8=0 := by omega
      simp [hsub,hne]
  · have hne : b≠a := fun e => hbyte (congrArg (·/8) e.symm)
    simp [hbyte,hne]

lemma length_setPackedBit (bytes : List Byte) (a : ℕ) :
    (setPackedBit bytes a).length = bytes.length := length_modify ..

/-- The bits of one entry. -/
lemma packedBit_entry (bit : ℕ → Bool) (start : ℕ) (h : start+n≤8*bytes.length)
    (b : ℕ) : ((range n).foldl (fun bytes output =>
      if bit output then setPackedBit bytes (start+output) else bytes) bytes).length=bytes.length
      ∧ packedBit ((range n).foldl (fun bytes output =>
        if bit output then setPackedBit bytes (start+output) else bytes) bytes) b
        = (packedBit bytes b || (decide (start≤b ∧ b < start+n) && bit (b-start))) := by
  induction n with
  | zero =>
    have hnone : ¬(start≤b ∧ b < start+0) := by omega
    exact ⟨rfl,by rw [decide_eq_false hnone]; simp⟩
  | succ n ih =>
    obtain ⟨hlen,hget⟩ := ih (by omega)
    rw [range_succ,foldl_append,List.foldl_cons,foldl_nil]
    have hspl : decide (start≤b ∧ b < start+(n+1))
        = (decide (start≤b ∧ b < start+n) || decide (b=start+n)) := by
      rw [←Bool.decide_or,decide_eq_decide]
      omega
    by_cases hbit : bit n=true
    · rw [if_pos hbit]
      refine ⟨(length_setPackedBit _ _).trans hlen,?_⟩
      rw [packedBit_setPackedBit (by rw [hlen]; omega),hget,hspl]
      by_cases hb : b=start+n
      · simp [hb,hbit]
      · simp [hb]
    · rw [if_neg hbit]
      refine ⟨hlen,?_⟩
      rw [hget,hspl]
      by_cases hb : b=start+n
      · simp [hb,hbit]
      · simp [hb]

lemma packedBit_from (table : List (BitVec 16)) (k : ℕ)
    (h : (k+table.length)*ob≤8*bytes.length) (ho : o<ob) :
    packedBit ((table.zipIdx k).foldl (fun bytes p => (range ob).foldl
      (fun bytes output => if p.1.getLsbD output then setPackedBit bytes (p.2*ob+output)
        else bytes) bytes) bytes) (i*ob+o)
      = (packedBit bytes (i*ob+o)
        || (decide (k ≤ i) && (table.getD (i-k) 0).getLsbD o)) := by
  induction table generalizing k bytes with
  | nil => simp
  | cons entry table ih =>
    rw [length_cons] at h
    have hroom : k*ob+ob≤8*bytes.length := by
      rw [←Nat.succ_mul]
      exact (Nat.mul_le_mul_right _ (by omega)).trans h
    have hent := packedBit_entry (fun output => entry.getLsbD output) (k*ob) hroom
      (i*ob+o)
    rw [zipIdx_cons,List.foldl_cons,ih (k+1) (by
      rw [hent.1]
      exact (Nat.mul_le_mul_right _ (by omega)).trans h),hent.2]
    have hrng : (k*ob ≤ i*ob+o ∧ i*ob+o<k*ob+ob) ↔ k=i := by
      constructor
      · rintro ⟨h1,h2⟩
        have h3 : k < i+1 := Nat.lt_of_mul_lt_mul_right (a := ob) (by rw [Nat.succ_mul]; omega)
        have h4 : i<k+1 := Nat.lt_of_mul_lt_mul_right (a := ob) (by rw [Nat.succ_mul]; omega)
        omega
      · rintro rfl
        omega
    rw [decide_eq_decide.mpr hrng,Bool.or_assoc]
    congr 1
    rcases lt_trichotomy i k with hik | rfl | hik
    · have h1 : ¬k=i := by omega
      have h2 : ¬k+1 ≤ i := by omega
      have h3 : ¬k ≤ i := by omega
      simp [h1,h2,h3]
    · have h2 : ¬i+1 ≤ i := by omega
      simp [h2]
    · have h1 : ¬k=i := by omega
      have h2 : k+1 ≤ i := by omega
      have h3 : i-k=i-(k+1)+1 := by omega
      rw [h3,getD_cons_succ,decide_eq_false h1,decide_eq_true h2,decide_eq_true hik.le,
        Bool.false_and,Bool.false_or]

lemma packedBit_packTable (table : List (BitVec 16)) (ho : o<ob) :
    packedBit (packTable ob table) (i*ob+o) = (table.getD i 0).getLsbD o := by
  have hzero : ∀ b, packedBit (replicate ((table.length*ob+7)/8) 0) b=false := fun b => by
    rw [packedBit,getD_eq_getElem?_getD,getElem?_replicate]
    split <;> exact BitVec.getLsbD_zero
  rw [packTable,packedBit_from table 0 (by rw [length_replicate,zero_add]; omega) ho,hzero]
  simp

end

lemma decode_from {delta : Block} (hdlt : delta≠0) (v : BitVec 16) (pairs : List (Block × Block))
    (k : ℕ) (hk : k+pairs.length≤16) (result : BitVec 16)
    (h : ∀ i<pairs.length, (pairs.getD i 0).1
      = (pairs.getD i 0).2 ^^^ offset delta (v.getLsbD (k+i))) :
    ∃ r, (pairs.zipIdx k).foldlM (fun result p =>
      if p.1.1=p.1.2 then .ok result
      else if p.1.1 ≠ p.1.2 ^^^ delta then .error "LogRow output label is invalid"
      else .ok (result ||| (1 : BitVec 16) <<< p.2)) result=(.ok r : Except String (BitVec 16))
      ∧ ∀ o<16, r.getLsbD o
        = (result.getLsbD o || (decide (k≤o ∧ o<k+pairs.length) && v.getLsbD o)) := by
  induction pairs generalizing k result with
  | nil =>
    refine ⟨result,rfl,fun o _ => ?_⟩
    have hnone : ¬(k≤o ∧ o < k+([] : List (Block × Block)).length) := by
      rw [length_nil]
      omega
    rw [decide_eq_false hnone,Bool.false_and,Bool.or_false]
  | cons pair pairs ih =>
    have hpair : pair.1=pair.2 ^^^ offset delta (v.getLsbD k) := h 0 (Nat.succ_pos _)
    have hrest : ∀ i<pairs.length, (pairs.getD i 0).1
        = (pairs.getD i 0).2 ^^^ offset delta (v.getLsbD (k+1+i)) := fun i hi => by
      have hi' := h (i+1) (Nat.succ_lt_succ hi)
      rw [getD_cons_succ] at hi'
      rw [hi',add_assoc,add_comm 1 i]
    rw [length_cons] at hk
    have hspl : ∀ o, decide (k≤o ∧ o<k+(pair::pairs).length)
        = (decide (o=k) || decide (k+1≤o ∧ o<k+1+pairs.length)) := fun o => by
      rw [←Bool.decide_or,decide_eq_decide,length_cons]
      omega
    rw [zipIdx_cons,foldlM_cons]
    by_cases hv : v.getLsbD k=true
    · have hone : pair.1=pair.2 ^^^ delta := by rw [hpair,hv,offset,if_pos rfl]
      have hne : ¬pair.1=pair.2 := fun e => hdlt (by
        have hx : pair.2 ^^^ pair.1=delta := by rw [hone,xor_cancel_left]
        rw [←hx,e,LawfulXor.xor_self])
      obtain ⟨r,hr,hbits⟩ := ih (k+1) (by omega) (result ||| (1 : BitVec 16) <<< k) hrest
      refine ⟨r,?_,fun o ho => ?_⟩
      · rw [if_neg hne,if_neg (not_not.mpr hone)]
        exact hr
      · rw [hbits o ho,BitVec.getLsbD_or,getLsbD_one_shiftLeft ho,hspl]
        by_cases hok : o=k
        · subst hok
          simp [hv]
        · simp [hok]
    · have hzero : pair.1=pair.2 := by
        rw [hpair,(Bool.not_eq_true _).mp hv,offset,if_neg Bool.false_ne_true,xor_zero]
      obtain ⟨r,hr,hbits⟩ := ih (k+1) (by omega) result hrest
      refine ⟨r,?_,fun o ho => ?_⟩
      · rw [if_pos hzero]
        exact hr
      · rw [hbits o ho,hspl]
        by_cases hok : o=k
        · subst hok
          simp [hv]
        · simp [hok]

/-- Labels that carry the offset at the bits of a word decode to the word. -/
lemma decode_carried {decoder : LogRowDecoder}
    {outputs : LogRowOutputs} {v : BitVec 16} (hdlt : decoder.delta≠0) (hid : outputs.id=decoder.id)
    (hlen : outputs.labels.length=decoder.zero.length) (hbits : decoder.zero.length≤16)
    (hv : v.toNat<2^decoder.zero.length) (h : ∀ o<decoder.zero.length,
    outputs.labels.getD o 0 = decoder.zero.getD o 0 ^^^ offset decoder.delta (v.getLsbD o)) :
    decoder.decode outputs = .ok v := by
  have hzip : (outputs.labels.zip decoder.zero).length=decoder.zero.length := by
    rw [length_zip,hlen,min_self]
  obtain ⟨r,hr,hall⟩ := decode_from hdlt v (outputs.labels.zip decoder.zero) 0 (by omega) 0
    fun i hi => by
      rw [hzip] at hi
      have hi' : i<outputs.labels.length := hlen.symm ▸ hi
      have ho := h i hi
      rw [getD_eq_getElem _ _ hi',getD_eq_getElem _ _ hi] at ho
      rw [getD_eq_getElem _ _ (hzip.symm ▸ hi),getElem_zip,zero_add]
      exact ho
  have hrv : r=v := by
    apply BitVec.eq_of_getLsbD_eq
    intro o ho
    rw [hall o ho,hzip]
    by_cases hlt : o<decoder.zero.length
    · simp [hlt]
    · have hbit : v.getLsbD o=false := by
        rw [BitVec.getLsbD,Nat.testBit_lt_two_pow (hv.trans_le
          (Nat.pow_le_pow_right (by decide) (not_lt.mp hlt)))]
      simp [hbit]
  rw [LogRowDecoder.decode,if_neg (not_or.mpr ⟨not_not.mpr hid,not_not.mpr hlen⟩),hr,hrv]

lemma xor_cancel_offsets (z r b t l : Block) :
    (z ^^^ r) ^^^ (l ^^^ ((r ^^^ b) ^^^ t)) = ((z ^^^ b) ^^^ l) ^^^ t := by
  have hr : (z ^^^ r) ^^^ (l ^^^ ((r ^^^ b) ^^^ t))=(r ^^^ r) ^^^ (((z ^^^ b) ^^^ l) ^^^ t) := by
    ac_rfl
  rw [hr,LawfulXor.xor_self,zero_xor]

lemma validateTable_eq {inputBits ob : ℕ} (hin : 1 ≤ inputBits ∧ inputBits≤12) (hout :
    1≤ob ∧ ob≤16) (htab : table.length=2^inputBits) (hents : ∀ v∈table,
    v.toNat<2^ob) : validateTable inputBits ob table = .ok () := by
  have hany : ¬(table.any fun value => decide (value.toNat≥1 <<< ob))=true := by
    rw [Bool.not_eq_true,any_eq_false]
    intro v hv
    rw [decide_eq_true_eq,Nat.one_shiftLeft,not_le]
    exact hents v hv
  rw [validateTable,if_neg]
  rw [Nat.one_shiftLeft]
  simp only [hin,hout,htab,hany,and_self,not_true_eq_false,ne_eq,or_self,Bool.false_eq_true,
    not_false_eq_true]

lemma carries_zero {n x : ℕ} (hx : x<2^n) (delta : Block) (ob : ℕ) : Carries delta
    x ob ⟨[],replicate (1 <<< n) 0,replicate ob 0⟩ (replicate ob 0) := by
  refine ⟨by simpa [Nat.one_shiftLeft] using hx,⟨length_replicate,length_replicate⟩,fun o ho => ?_⟩
  have hent : ((replicate (1 <<< n) (0 : BitVec 16)).getD x 0).getLsbD o=false := by
    rw [getD_eq_getElem?_getD,getElem?_replicate]
    split <;> exact BitVec.getLsbD_zero
  rw [hent]
  exact (xor_zero ((replicate ob (0 : Block)).getD o 0)).symm

/-- The keyed hash is any function: for every width, table, labels, odd offset and base value, each
index decodes to its entry. -/
lemma decode_lookup (hash : FixedKeyHash) (id : CircuitId) {zero : List Block}
    {delta : Block} {ob : ℕ} (drawn : BitVec 16) (hin : 1≤zero.length ∧ zero.length≤12)
    (hout : 1≤ob ∧ ob≤16) (htab : table.length=2^zero.length) (hents : ∀ v∈table, v.toNat<2^ob)
    (hdlt : permuteBit delta = true) : ∃ client program, prepareWithEncodings hash id zero
    delta ob table drawn = .ok (client,program) ∧ ∀ index<2^zero.length, ∃ inputs decoder outputs,
    client.encode index = .ok (inputs,decoder) ∧ program.evaluate hash inputs = .ok outputs ∧
    decoder.decode outputs = .ok (table.getD index 0) := by
  obtain ⟨top,htop⟩ : ∃ top, zero.length=top+1 := ⟨zero.length-1,by omega⟩
  have hne : delta≠0 := fun e => by
    rw [e] at hdlt
    cases hdlt
  obtain ⟨masked,hmasked⟩ : ∃ masked, maskedZero zero (colors zero) delta=masked := ⟨_,rfl⟩
  obtain ⟨leaves,rows,htree⟩ : ∃ leaves rows, tree hash id masked delta top=(leaves,rows) := ⟨_,_,rfl⟩
  obtain ⟨masking,hmas⟩ : ∃ masking, maskLevels hash id masked delta ob zero.length leaves
    ⟨[],replicate (1 <<< zero.length) 0,replicate ob 0⟩=masking := ⟨_,rfl⟩
  obtain ⟨base,hbase⟩ : ∃ base, drawn &&& lowMask ob=base := ⟨_,rfl⟩
  obtain ⟨masks,hmasks⟩ : ∃ masks : List (BitVec 16), (masking.randomTable.mapIdx fun index entry =>
    (entry ^^^ base) ^^^ table.getD (index ^^^ colors zero) 0)=masks := ⟨_,rfl⟩
  obtain ⟨firsts,hfir⟩ : ∃ firsts : List Block, (masking.outputZero.mapIdx fun output label =>
    if base.getLsbD output then label ^^^ delta else label)=firsts := ⟨_,rfl⟩
  have hprp : prepareWithEncodings hash id zero delta ob table drawn
      = .ok (⟨id,zero,delta,addSeeds leaves (fun index output => (masks.getD index 0).getLsbD output)
          firsts,zero.length⟩,
        ⟨id,zero.length,ob,rows,leaves.foldl (· ^^^ ·) 0 ^^^ delta,masking.levels,
          packTable ob masks⟩) := by
    have hsub : zero.length-1=top := by omega
    unfold prepareWithEncodings
    simp only [validateTable_eq hin hout htab hents,ok_bind,hdlt,not_true_eq_false,if_false,
      hmasked,hsub,htree,hmas,hbase,hmasks,hfir]
    rfl
  refine ⟨_,_,hprp,fun index hidx => ?_⟩
  obtain ⟨x,hx⟩ : ∃ x, index ^^^ colors zero=x := ⟨_,rfl⟩
  have hlt : x<2^zero.length := hx ▸ Nat.xor_lt_two_pow hidx (colors_lt zero)
  obtain ⟨labels,hlabe⟩ : ∃ labels : List Block, (zero.mapIdx fun bit zero =>
    if index.testBit bit then zero ^^^ delta else zero)=labels := ⟨_,rfl⟩
  have hlab : ∀ b<zero.length, labels.getD b 0
      = masked.getD b 0 ^^^ (if x.testBit b then delta else 0) := fun b hb => by
    rw [←hlabe,←hmasked,←hx]
    exact label_masked hb
  obtain ⟨hlea,hopen⟩ := open_tree hash id (htop ▸ hlt) fun b hb => hlab b (by omega)
  rw [htree] at hlea hopen
  have hleaf : x<leaves.length := by
    rw [hlea,←htop]
    exact hlt
  obtain ⟨levels,hlvs,hcar⟩ := maskLevels_carries hash id hout.2 hlab
    (htop ▸ hlea) (carries_zero hlt delta ob)
  rw [hmas,nil_append] at hlvs
  rw [hmas,Nat.mod_eq_of_lt hlt,←hlvs] at hcar
  obtain ⟨out,hout'⟩ : ∃ out, (masking.levels.foldl (unmaskLevel hash id labels ob x)
    (leaves.modify x (· ^^^ delta),replicate ob 0)).2 = out := ⟨_,rfl⟩
  rw [hout'] at hcar
  obtain ⟨hpla,⟨hzer,houts⟩,hcarr⟩ := hcar
  have hfst : firsts.length=ob := by
    rw [←hfir,length_mapIdx,hzer]
  have henc : LogRowClient.encode ⟨id,zero,delta,addSeeds leaves (fun index output =>
      (masks.getD index 0).getLsbD output) firsts,zero.length⟩ index
        = .ok (⟨id,labels⟩,⟨id,addSeeds leaves (fun index output =>
          (masks.getD index 0).getLsbD output) firsts,delta⟩) := by
    rw [LogRowClient.encode,Nat.one_shiftLeft,if_neg (not_le.mpr hidx)]
    simp only [hlabe]
  have hlen : labels.length=zero.length := by rw [←hlabe,length_mapIdx]
  have hcol : colors labels=x := by
    rw [←hlabe,colors_encoded hdlt hidx,hx]
  have heva : LogRowProgram.evaluate hash ⟨id,zero.length,ob,rows,
      leaves.foldl (· ^^^ ·) 0 ^^^ delta,masking.levels,packTable ob masks⟩ ⟨id,labels⟩
        = .ok ⟨id,addSeeds (leaves.modify x (· ^^^ delta)) (fun index output =>
          packedBit (packTable ob masks) (index*ob+output)) out⟩ := by
    have hsub : zero.length-1=top := by omega
    rw [LogRowProgram.evaluate,if_neg (not_or.mpr ⟨not_not.mpr rfl,not_not.mpr hlen⟩)]
    simp only [hcol,hsub,hopen,open_leaf hleaf,hout']
  refine ⟨_,_,_,henc,heva,decode_carried hne rfl ?_ ?_ ?_ fun o ho => ?_⟩
  · rw [length_addSeeds,length_addSeeds,houts,hfst]
  · rw [length_addSeeds,hfst]
    exact hout.2
  · rw [length_addSeeds,hfst]
    have hent : index<table.length := htab.symm ▸ hidx
    rw [getD_eq_getElem _ _ hent]
    exact hents _ (getElem_mem hent)
  · rw [length_addSeeds,hfst] at ho
    have hmask : (masks.getD x 0).getLsbD o=(((masking.randomTable.getD x 0).getLsbD o
        ^^ base.getLsbD o) ^^ (table.getD index 0).getLsbD o) := by
      have hback : x ^^^ colors zero=index := by rw [←hx,Nat.xor_assoc,Nat.xor_self,Nat.xor_zero]
      rw [←hmasks,getD_mapIdx 0 0 hpla,hback,BitVec.getLsbD_xor,BitVec.getLsbD_xor]
    have hfirst' : firsts.getD o 0=masking.outputZero.getD o 0 ^^^ offset delta (base.getLsbD o) := by
      rw [←hfir,getD_mapIdx 0 0 (hzer.symm ▸ ho)]
      cases base.getLsbD o
      · exact (xor_zero _).symm
      · rfl
    rw [getD_addSeeds _ _ (houts.symm ▸ ho),getD_addSeeds _ _ (hfst.symm ▸ ho)]
    simp only [packedBit_packTable masks ho]
    rw [xorAt_modify _ _ hleaf,hcarr o ho,hfirst']
    have hoff : (if (masks.getD x 0).getLsbD o=true then delta else 0)
        = offset delta ((masks.getD x 0).getLsbD o) := rfl
    rw [hoff,hmask,offset_xor,offset_xor]
    exact xor_cancel_offsets _ _ _ _ _

/-- Lookups for every admitted width and every function in place of the keyed hash: with labels and an
odd offset handed in, and with drawn ones at the public entry, which admits fewer widths. -/
theorem logrow_decodes (hash : FixedKeyHash) (id : CircuitId) (drawn : BitVec 16) :
    (∀ (zero : List Block) (delta : Block) (ob : ℕ) (table : List (BitVec 16)),
      1≤zero.length ∧ zero.length≤12 → 1≤ob ∧ ob≤16 →
      table.length=2^zero.length → (∀ v∈table, v.toNat<2^ob) → permuteBit delta = true →
      ∃ client program, prepareWithEncodings hash id zero delta ob table drawn
          = .ok (client,program)
        ∧ ∀ index<2^zero.length, ∃ inputs decoder outputs, client.encode index = .ok (inputs,decoder)
          ∧ program.evaluate hash inputs = .ok outputs
          ∧ decoder.decode outputs = .ok (table.getD index 0))
    ∧ ∀ (inputBits ob : ℕ) (table : List (BitVec 16)) (drawnDelta : Block) (label : ℕ → Block),
      1 ≤ inputBits ∧ inputBits≤9 → 1≤ob ∧ ob≤9 → table.length=2^inputBits →
      (∀ v∈table, v.toNat<2^ob) →
      ∃ client program, prepareLogrow hash id inputBits ob table drawnDelta label drawn
          = .ok (client,program)
        ∧ ∀ index<2^inputBits, ∃ inputs decoder outputs, client.encode index = .ok (inputs,decoder)
          ∧ program.evaluate hash inputs = .ok outputs
          ∧ decoder.decode outputs = .ok (table.getD index 0) := by
  refine ⟨fun zero delta ob table hin hout htab hents hdlt =>
    decode_lookup hash id drawn hin hout htab hents hdlt,
    fun inputBits ob table drawnDelta label hin hout htab hents => ?_⟩
  have hlen : ((range inputBits).map label).length=inputBits := by
    rw [length_map,length_range]
  have hwid : ¬(¬(1 ≤ inputBits ∧ inputBits ≤ maxBits) ∨ ¬(1≤ob ∧ ob ≤ maxBits)) := by
    have hmax : maxBits=9 := rfl
    omega
  have hcnt : table.length=2^((range inputBits).map label).length := by
    rw [hlen]
    exact htab
  obtain ⟨client,program,hprp,hall⟩ := decode_lookup hash id drawn (by omega) (by omega) hcnt
    hents (permuteBit_new id drawnDelta)
  rw [hlen] at hall
  refine ⟨client,program,?_,hall⟩
  unfold prepareLogrow
  rw [if_neg hwid,validateTable_eq (by omega) (by omega) htab hents]
  exact hprp

/-- Four entries of three bits under two labels, and two entries at the public entry. -/
theorem logrow_decodes_at :
    (∃ client program, prepareWithEncodings (fun seed _ tweak half => 5*seed+BitVec.ofNat 128 (tweak+half))
        9 [3,0x1000000000000000000000000000000] 0x1000000000000000000000000000006 3 [4,1,7,2] 6
          = .ok (client,program)
      ∧ ∃ inputs decoder outputs, client.encode 2 = .ok (inputs,decoder)
        ∧ program.evaluate (fun seed _ tweak half => 5*seed+BitVec.ofNat 128 (tweak+half)) inputs
          = .ok outputs ∧ decoder.decode outputs = .ok 7)
    ∧ ∃ client program, prepareLogrow (fun seed _ tweak half => 5*seed+BitVec.ofNat 128 (tweak+half))
        9 1 2 [3,1] 8 (fun i => BitVec.ofNat 128 i) 6 = .ok (client,program)
      ∧ ∃ inputs decoder outputs, client.encode 1 = .ok (inputs,decoder)
        ∧ program.evaluate (fun seed _ tweak half => 5*seed+BitVec.ofNat 128 (tweak+half)) inputs
          = .ok outputs ∧ decoder.decode outputs = .ok 1 := by
  have hents : ∀ v ∈ ([4,1,7,2] : List (BitVec 16)), v.toNat<2^3 := by simp
  have hentries' : ∀ v ∈ ([3,1] : List (BitVec 16)), v.toNat<2^2 := by simp
  have hdlt : permuteBit 0x1000000000000000000000000000006=true := by decide
  obtain ⟨hemb,hpub⟩ :=
    logrow_decodes (fun seed _ tweak half => 5*seed+BitVec.ofNat 128 (tweak+half)) 9 6
  obtain ⟨client,program,hprp,hall⟩ := hemb [3,0x1000000000000000000000000000000]
    0x1000000000000000000000000000006 3 [4,1,7,2] (by decide) (by decide) rfl hents hdlt
  obtain ⟨client',program',hprp',hall'⟩ := hpub 1 2 [3,1] 8 (fun i => BitVec.ofNat 128 i) (by decide)
    (by decide) rfl hentries'
  obtain ⟨inputs,decoder,outputs,henc,heva,hdec⟩ := hall 2 (by decide)
  obtain ⟨inputs',decoder',outputs',henc',heva',hdec'⟩ := hall' 1 (by decide)
  exact ⟨⟨client,program,hprp,inputs,decoder,outputs,henc,heva,hdec⟩,
    client',program',hprp',inputs',decoder',outputs',henc',heva',hdec'⟩

end Pllm.Garble.LogRow
