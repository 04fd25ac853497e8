import Pllm.Entropy.PublicEntropy

/-! Frames that the decoder accepts: each decoder step is undone by one encoder step, so a coded frame
is the one the encoder's loop writes for its table and its bytes. -/
namespace Pllm.Entropy
open Pllm.Lib List Function Nat

lemma ofLeBytes_inj {w n : ℕ} (hw : 8*n≤w) {xs ys : List Byte} (hx : xs.length=n)
    (hy : ys.length=n) (h : ofLeBytes w xs = ofLeBytes w ys) : xs=ys := by
  apply ext_getElem (hx.trans hy.symm)
  intro i hi hi'
  apply BitVec.eq_of_getLsbD_eq
  intro j hj
  have hbit := congrArg (fun x : BitVec w => x.getLsbD (8*i+j)) h
  have hlt : 8*i+j<w := by omega
  have hdiv : (8*i+j)/8=i := by omega
  have hmod : (8*i+j)%8=j := by omega
  simp only [getLsbD_ofLeBytes,hlt,hdiv,hmod] at hbit
  rwa [getD_eq_getElem _ _ hi,getD_eq_getElem _ _ hi'] at hbit

/-- The frequencies a run of pairs spells. -/
def readFrequencies (pairs : List (List Byte)) : List ℕ :=
  pairs.map fun pair => (ofLeBytes 16 pair).toNat

section
variable {frequencies : List ℕ} {table : List Entry}

variable {pairs : List (List Byte)} {e : Failure} {bytes : List Byte} {states : States}

lemma buildTable_readFrequencies (pairs : List (List Byte))
    (symbol start : ℕ) (table : List Entry) : buildTable pairs symbol start table = buildTable
    ((readFrequencies pairs).map fun f => leBytes 2 (BitVec.ofNat 16 f)) symbol start table := by
  induction pairs generalizing symbol start table with
  | nil => rfl
  | cons pair pairs ih =>
    have hpair : (ofLeBytes 16 (leBytes 2 (BitVec.ofNat 16 (ofLeBytes 16 pair).toNat))).toNat =
        (ofLeBytes 16 pair).toNat := by
      rw [ofLeBytes_leBytes _ (by decide),BitVec.toNat_ofNat,mod_eq_of_lt (BitVec.isLt _)]
    rw [readFrequencies,map_cons,map_cons,← readFrequencies,buildTable,buildTable,hpair]
    simp only [ih]

variable {table : List Entry}

lemma buildTable_eq_ok {symbol start stop : ℕ} {out : List Entry} (hlen :
    table.length=total) (hst : start≤total) (h : buildTable pairs symbol start table = .ok
    (stop,out)) : stop = start+(readFrequencies pairs).sum ∧ stop≤total ∧ out.length=total := by
  induction pairs generalizing symbol start table with
  | nil =>
    obtain ⟨rfl,rfl⟩ := Prod.ext_iff.mp (ok_inj h)
    exact ⟨rfl,hst,hlen⟩
  | cons pair pairs ih =>
    obtain ⟨hfit,h⟩ := ite_error_eq_ok.mp h
    rw [not_lt] at hfit
    obtain ⟨hstop,hle,hout⟩ := ih (by simp; omega) hfit h
    refine ⟨?_,hle,hout⟩
    rw [hstop,readFrequencies,readFrequencies,map_cons,sum_cons,add_assoc]

lemma buildTable_error {symbol start : ℕ} (h : buildTable pairs symbol start table = .error e) :
    e=invalid := by
  induction pairs generalizing symbol start table with
  | nil => cases h
  | cons pair pairs ih =>
    rw [buildTable] at h
    split at h
    · exact (Except.error.inj h).symm
    · exact ih h

lemma exists_slot {slot : ℕ} (h : slot<frequencies.sum) :
    ∃ i<frequencies.length, ∃ t < frequencies.getD i 0, slot = (frequencies.take i).sum+t := by
  induction frequencies generalizing slot with
  | nil => exact absurd h (Nat.not_lt_zero slot)
  | cons f fs ih =>
    rw [sum_cons] at h
    by_cases hf : slot<f
    · exact ⟨0,zero_lt_succ _,slot,hf,(zero_add slot).symm⟩
    · obtain ⟨i,hi,t,ht,hslot⟩ := ih (show slot-f < fs.sum by omega)
      refine ⟨i+1,succ_lt_succ hi,t,ht,?_⟩
      rw [take_succ_cons,sum_cons]
      omega

/-- What refilling reads, shifting out writes back; at most two bytes for a state of 2048 or more. -/
lemma refill_inverse {f z y : ℕ} {rest : List Byte} (hz : 2^11*f≤z) (hhigh : z<low*256) (h :
    refill z bytes = .ok (y,rest)) : (low≤y ∧ y<low*256) ∧ rest.length≤bytes.length ∧ ∃ k, z*256^k≤y
    ∧ ∀ passes, shiftOut (2^19*f) (passes+1+k) y rest = shiftOut (2^19*f) (passes+1) z bytes := by
  induction bytes generalizing z with
  | nil =>
    obtain ⟨hlow,h⟩ := ite_error_eq_ok.mp h
    obtain ⟨rfl,rfl⟩ := Prod.ext_iff.mp (ok_inj h)
    exact ⟨⟨not_lt.mp hlow,hhigh⟩,le_rfl,0,by simp,fun _ => rfl⟩
  | cons byte bytes ih =>
    rw [refill] at h
    split at h
    · next hlow =>
      obtain ⟨hrng,hlen,k,hk,hshf⟩ := ih (by omega) (by omega) h
      refine ⟨hrng,hlen.trans (le_succ _),k+1,?_,fun passes => ?_⟩
      · refine le_trans ?_ hk
        rw [pow_succ',← mul_assoc]
        exact Nat.mul_le_mul_right _ (by omega)
      · have hquot : (z*2^8+byte.toNat)/2^8=z := by omega
        have hrem : BitVec.ofNat 8 (z*2^8+byte.toNat)=byte := by
          apply BitVec.eq_of_toNat_eq
          rw [BitVec.toNat_ofNat]
          omega
        have hnext := hshf (passes+1)
        rw [show passes+1+(k+1)=passes+1+1+k by omega,hnext,shiftOut,if_pos (by omega),hquot,hrem]
    · next hlow =>
      obtain ⟨rfl,rfl⟩ := Prod.ext_iff.mp (ok_inj h)
      exact ⟨⟨not_lt.mp hlow,hhigh⟩,le_rfl,0,by simp,fun _ => rfl⟩

lemma refill_error {z : ℕ} (h : refill z bytes = .error e) : e=invalid := by
  induction bytes generalizing z with
  | nil =>
    rw [refill] at h
    split at h
    · exact (Except.error.inj h).symm
    · cases h
  | cons byte bytes ih =>
    rw [refill] at h
    split at h
    · exact ih h
    · cases h

section
variable (hsum : frequencies.sum=total) (hlen : frequencies.length=256) (htab : Covers frequencies 0 0 table) (remaining index : ℕ)
include hsum hlen htab

/-- One decoder step finds the symbol of its slot, and no `u32` overflows on the way. -/
lemma decodeSymbols_succ (hrng : InRange states) (bytes : List Byte) :
    ∃ (symbol : Byte) (f start z : ℕ), frequencies.getD symbol.toNat 0 = f ∧
      (cumulative 0 frequencies).getD symbol.toNat 0 = start ∧ 1≤f ∧ start+f≤total ∧
      2^11*f≤z ∧ z<2^19*f ∧ z/f*total+z%f+start = states (lane index) ∧
      decodeSymbols table (remaining+1) index states bytes = (do
        let (state,bytes) ← refill z bytes
        let (output,states,bytes) ← decodeSymbols table remaining (index+1)
          (update states (lane index) state) bytes
        return (symbol::output,states,bytes)) := by
  obtain ⟨hlow,hhigh⟩ := hrng (lane index)
  have hval : total=4096 := rfl
  obtain ⟨i,hi,t,ht,hslot⟩ := @exists_slot frequencies (states (lane index)%total) (by
    rw [hval]; omega)
  have hent := htab i hi t ht
  rw [zero_add,zero_add,← hslot] at hent
  have hfit := take_sum_add_le hi
  have hst := getD_cumulative 0 hi
  rw [zero_add] at hst
  have hsymb : (BitVec.ofNat 8 i : Byte).toNat=i := by
    rw [BitVec.toNat_ofNat]
    omega
  have hbase : low=8388608 := rfl
  have hf : ∃ f, f=frequencies.getD i 0 := ⟨_,rfl⟩
  have hs : ∃ start, start=(frequencies.take i).sum := ⟨_,rfl⟩
  obtain ⟨f,hf⟩ := hf
  obtain ⟨start,hs⟩ := hs
  rw [← hf] at ht hfit hent
  rw [← hs] at hslot hfit hent hst
  rw [hval] at hslot
  obtain ⟨q,hq⟩ : ∃ q, q=states (lane index)/4096 := ⟨_,rfl⟩
  have hq1 : 2^11≤q := by omega
  have hq2 : q+1≤2^19 := by omega
  have hz1 := Nat.mul_le_mul_right f hq1
  have hz2 := Nat.mul_le_mul_right f hq2
  rw [succ_mul] at hz2
  have hquot : (q*f+t)/f=q := by
    rw [mul_comm,mul_add_div (by omega),div_eq_of_lt ht,add_zero]
  have hrem : (q*f+t)%f=t := by rw [mul_add_mod_of_lt ht]
  refine ⟨BitVec.ofNat 8 i,f,start,q*f+t,by rw [hsymb,hf],by rw [hsymb,hst],by omega,
    by omega,by omega,by omega,by rw [hquot,hrem,hval]; omega,?_⟩
  have hword : word ((f*(states (lane index)/2^bits)+states (lane index)%total : ℕ)) =
      .ok (q*f+t+start) := by
    have hvalue' : f*(states (lane index)/2^bits)+states (lane index)%total=q*f+t+start := by
      rw [show 2^bits=4096 from rfl,← hq,hval,mul_comm]
      omega
    rw [hvalue']
    exact word_ok (by omega)
  have hback : word (((q*f+t+start:ℕ) : ℤ)-(start:ℕ)) = .ok (q*f+t) := by
    rw [← cast_sub (Nat.le_add_left start _),Nat.add_sub_cancel]
    exact word_ok (by omega)
  rw [decodeSymbols]
  simp only [hent]
  rw [hword,ok_bind,hback,ok_bind]

/-- The encoder's loop on the decoded bytes comes back to the states and bytes the decoder began
with. The coded bytes only grow, so the raw fallback is not taken below the given length. -/
lemma decodeSymbols_inverse {states : States} (hrng : InRange states) {bytes output : List Byte}
    (h : decodeSymbols table remaining index states bytes = .ok (output,fun _ => low,[]))
    {length : ℕ} (hfit : bytes.length+codedHeader<length) : output.length=remaining ∧
      encodeSymbols frequencies length index output = .ok (some (states,bytes)) := by
  induction remaining generalizing index states bytes output with
  | zero =>
    obtain ⟨rfl,rfl,rfl⟩ : []=output ∧ states=(fun _ => low) ∧ bytes=[] := by
      simpa [decodeSymbols] using h
    exact ⟨rfl,rfl⟩
  | succ remaining ih =>
    obtain ⟨symbol,f,start,z,hf,hs,hpos,htot,hz,hz',hback,hstep⟩ :=
      decodeSymbols_succ hsum hlen htab remaining index hrng bytes
    have hval : total=4096 := rfl
    have hbase : low=8388608 := rfl
    rw [hstep] at h
    obtain ⟨⟨y,rest⟩,href,h⟩ := bind_eq_ok.mp h
    obtain ⟨⟨output',states',bytes'⟩,hrec,h⟩ := bind_eq_ok.mp h
    have hpair := ok_inj h
    obtain rfl : symbol::output'=output := congrArg Prod.fst hpair
    obtain rfl : states'=fun _ => low := congrArg (fun triple => triple.2.1) hpair
    obtain rfl : bytes'=[] := congrArg (fun triple => triple.2.2) hpair
    obtain ⟨hy,hle,k,hk,hshf⟩ := refill_inverse hz (by omega) href
    have hin : InRange (update states (lane index) y) := by
      intro l
      by_cases hl : l=lane index
      · rw [hl,update_self]
        exact hy
      · rw [update_of_ne hl]
        exact hrng l
    obtain ⟨hleng,henc⟩ := ih (index+1) hin hrec (by omega)
    have hk2 : k≤2 := by
      by_contra hgt
      have hpow : 256^3≤256^k := Nat.pow_le_pow_right (by decide) (by omega)
      have hmul := mul_le_mul (show 2^11 ≤ z by omega) hpow
      omega
    have hout : shiftOut (2^19*f) 5 y rest = .ok (z,bytes) := by
      have hpass := hshf (4-k)
      rw [show 4-k+1+k=5 by omega] at hpass
      rw [hpass]
      exact if_neg (by omega)
    have hmax : word ((low/2^bits*2^8*f:ℕ)) = .ok (2^19*f) := by
      rw [show low/2^bits*2^8=2^19 by decide]
      exact word_ok (by omega)
    have hnext : word ((z/f*total+z%f+start:ℕ)) = .ok (states (lane index)) := by
      rw [hback]
      exact word_ok ((hrng (lane index)).2.trans (by decide))
    refine ⟨congrArg (·+1) hleng,?_⟩
    rw [encodeSymbols,henc]
    simp only [ok_bind,hf,hs,hmax,update_self,hout]
    rw [if_neg (by omega),hnext,ok_bind,update_idem,update_eq_self]
    rfl

lemma decodeSymbols_error (hrng : InRange states)
    (h : decodeSymbols table remaining index states bytes = .error e) : e=invalid := by
  induction remaining generalizing index states bytes with
  | zero => cases h
  | succ remaining ih =>
    obtain ⟨symbol,f,start,z,-,-,hpos,htot,hz,hz',-,hstep⟩ :=
      decodeSymbols_succ hsum hlen htab remaining index hrng bytes
    have hval : total=4096 := rfl
    have hbase : low=8388608 := rfl
    rw [hstep] at h
    cases href : refill z bytes with
    | error e' =>
      rw [href] at h
      exact (Except.error.inj h) ▸ refill_error href
    | ok pair =>
      obtain ⟨y,rest⟩ := pair
      rw [href,ok_bind] at h
      obtain ⟨hy,-⟩ := refill_inverse hz (by omega) href
      have hin : InRange (update states (lane index) y) := by
        intro l
        by_cases hl : l=lane index
        · rw [hl,update_self]
          exact hy
        · rw [update_of_ne hl]
          exact hrng l
      cases hrec : decodeSymbols table remaining (index+1) (update states (lane index) y) rest with
      | error e' =>
        simp only [hrec] at h
        obtain rfl := Except.error.inj h
        exact ih (index+1) hin hrec
      | ok out =>
        simp only [hrec] at h
        cases h

end

end

/-- A slice that panics outside its array. -/
def checkedSlice {α : Type} (xs : List α) (start len : ℕ) : Except Failure (List α) :=
  if start+len≤xs.length then .ok (slice xs start len) else .error .overflow

def checkedGet {α : Type} (xs : List α) (i : ℕ) : Except Failure α :=
  match xs[i]? with
  | some x => .ok x
  | none => .error .overflow

/-- `buildTable` with its range checked. -/
def buildTableChecked : List (List Byte) → ℕ → ℕ → List Entry → Except Failure (ℕ × List Entry)
  | [], _, cumulative, table => .ok (cumulative,table)
  | pair::pairs, symbol, cumulative, table =>
    let frequency := (ofLeBytes 16 pair).toNat
    let stop := cumulative+frequency
    if stop>total then .error invalid
    else if stop>table.length then .error .overflow
    else buildTableChecked pairs (symbol+1) stop (table.take cumulative
      ++ List.replicate frequency ⟨frequency,cumulative,BitVec.ofNat 8 symbol⟩++table.drop stop)

/-- `decodeSymbols` with its index checked. -/
def decodeSymbolsChecked (table : List Entry) :
    ℕ → ℕ → States → List Byte → Except Failure (List Byte × States × List Byte)
  | 0, _, states, bytes => .ok ([],states,bytes)
  | remaining+1, index, states, bytes => do
    let state := states (lane index)
    let slot := state%total
    let entry ← checkedGet table slot
    let sum ← word (entry.frequency*(state/2^bits)+slot:ℕ)
    let state ← word (sum-entry.start)
    let (state,bytes) ← refill state bytes
    let (output,states,bytes) ← decodeSymbolsChecked table remaining (index+1)
      (Function.update states (lane index) state) bytes
    return (entry.symbol::output,states,bytes)

/-- `decode` with every index checked, in the order the source reads the frame. -/
def decodeChecked (frame : List Byte) (expected : ℕ) : Except Failure (List Byte) :=
  if expected=0 ∨ expected>limit ∨ frame.length<headerBytes
      ∨ frame.length>expected+headerBytes then .error invalid
  else do
    let start ← checkedSlice frame 0 8
    let size ← checkedSlice frame 8 4
    let kind ← checkedGet frame 12
    if start≠magic ∨ (ofLeBytes 32 size).toNat ≠ expected then .error invalid
    else if kind=0 then
      if frame.length≠headerBytes+expected then .error invalid else .ok (frame.drop headerBytes)
    else if kind≠1 ∨ frame.length < codedHeader ∨ frame.length≥expected+headerBytes then
      .error invalid
    else do
      let pairs ← checkedSlice frame headerBytes 512
      let words ← checkedSlice frame (headerBytes+512) 16
      let (cumulative,table) ← buildTableChecked (chunksExact 2 pairs) 0 0
        (List.replicate total ⟨0,0,0⟩)
      if cumulative≠total then .error invalid
      else
        let states := (chunksExact 4 words).map fun word => (ofLeBytes 32 word).toNat
        if states.any fun state => decide (¬(low ≤ state ∧ state<low*256)) then .error invalid
        else do
          let (output,states,bytes) ← decodeSymbolsChecked table expected 0
            (fun lane => states.getD lane 0) (frame.drop codedHeader)
          if bytes ≠ [] ∨ states ≠ (fun _ => low) then .error invalid else return output

lemma checkedSlice_eq {α : Type} {xs : List α} {start len : ℕ} (h : start+len≤xs.length) :
    checkedSlice xs start len = .ok (slice xs start len) := if_pos h

lemma checkedGet_eq {α : Type} {xs : List α} {i : ℕ} (h : i<xs.length) (d : α) :
    checkedGet xs i = .ok (xs.getD i d) := by
  rw [checkedGet,getElem?_eq_getElem h,getD_eq_getElem _ _ h]

lemma buildTableChecked_eq (pairs : List (List Byte)) (symbol start : ℕ) (hlen : table.length=total)
    : buildTableChecked pairs symbol start table = buildTable pairs symbol start table := by
  induction pairs generalizing symbol start table with
  | nil => rfl
  | cons pair pairs ih =>
    by_cases hstop : start+(ofLeBytes 16 pair).toNat>total
    · exact (if_pos hstop).trans (if_pos hstop).symm
    · refine (if_neg hstop).trans (((if_neg (by omega)).trans ?_).trans (if_neg hstop).symm)
      exact ih _ _ (by simp; omega)

lemma decodeSymbolsChecked_eq (hlen : table.length=total) (remaining index : ℕ) (states : States)
    (bytes : List Byte) : decodeSymbolsChecked table remaining index states bytes =
    decodeSymbols table remaining index states bytes := by
  induction remaining generalizing index states bytes with
  | zero => rfl
  | succ remaining ih =>
    have hslot : states (lane index)%total < table.length := by
      rw [hlen]
      exact mod_lt _ (Nat.two_pow_pos bits)
    have hrec : decodeSymbolsChecked table remaining (index+1) =
        decodeSymbols table remaining (index+1) := by
      funext states bytes
      exact ih (index+1) states bytes
    rw [decodeSymbolsChecked.eq_2,decodeSymbols.eq_2,checkedGet_eq hslot ⟨0,0,0⟩,ok_bind,hrec]

lemma decodeChecked_eq (frame : List Byte) (expected : ℕ) :
    decodeChecked frame expected = decode frame expected := by
  have hhdr : headerBytes=13 := rfl
  unfold decodeChecked decode
  by_cases hlen : expected=0 ∨ expected>limit ∨ frame.length<headerBytes
      ∨ frame.length>expected+headerBytes
  · rw [if_pos hlen,if_pos (by tauto)]
  rw [if_neg hlen]
  push Not at hlen
  obtain ⟨hpos,hlim,hsho,hlong⟩ := hlen
  rw [checkedSlice_eq (by omega),checkedSlice_eq (by omega),checkedGet_eq (by omega) 0]
  simp only [ok_bind]
  have hst : slice frame 0 8=frame.take 8 := by rw [slice,drop_zero]
  rw [hst]
  by_cases hmag : frame.take 8 ≠ magic ∨ (ofLeBytes 32 (slice frame 8 4)).toNat ≠ expected
  · rw [if_pos hmag,if_pos (by tauto)]
  have hgrd : ¬(expected=0 ∨ expected>limit ∨ frame.length<headerBytes
      ∨ frame.length>expected+headerBytes ∨ frame.take 8 ≠ magic
      ∨ (ofLeBytes 32 (slice frame 8 4)).toNat ≠ expected) := by
    rintro (h0 | h0 | h0 | h0 | h0)
    · exact hpos h0
    · exact absurd h0 (not_lt.mpr hlim)
    · exact absurd h0 (not_lt.mpr hsho)
    · exact absurd h0 (not_lt.mpr hlong)
    · exact hmag h0
  rw [if_neg hmag,if_neg hgrd]
  by_cases hkind : frame.getD 12 0=0
  · rw [if_pos hkind,if_pos hkind]
  by_cases hsize : frame.getD 12 0 ≠ 1 ∨ frame.length < codedHeader
      ∨ frame.length≥expected+headerBytes
  · rw [if_pos hsize,if_pos hsize]
  push Not at hsize
  have hcod : 541≤frame.length := hsize.2.1
  have hpai : headerBytes+512≤frame.length := (show 525 ≤ 541 by decide).trans hcod
  rw [checkedSlice_eq hpai,checkedSlice_eq hcod]
  simp only [ok_bind]
  rw [buildTableChecked_eq _ _ _ length_replicate]
  cases hbui : buildTable (chunksExact 2 (slice frame headerBytes 512)) 0 0
      (replicate total ⟨0,0,0⟩) with
  | error e => rw [error_bind,error_bind]
  | ok pair =>
    obtain ⟨-,-,htab⟩ := buildTable_eq_ok length_replicate (zero_le _) hbui
    simp only [ok_bind,decodeSymbolsChecked_eq htab]

/-- The table and the states of a frame. -/
def frameFrequencies (frame : List Byte) : List ℕ :=
  readFrequencies (chunksExact 2 (slice frame headerBytes 512))

def frameStates (frame : List Byte) : States :=
  fun lane => ((chunksExact 4 (slice frame (headerBytes+512) 16)).map fun word =>
    (ofLeBytes 32 word).toNat).getD lane 0

/-- What a coded frame has passed before its symbols are decoded. -/
structure CodedFrame (frame : List Byte) (expected : ℕ) (table : List Entry) : Prop where
  length : codedHeader≤frame.length
  magic : frame.take 8 = Entropy.magic
  size : (ofLeBytes 32 (slice frame 8 4)).toNat = expected
  kind : frame.getD 12 0 = 1
  sum : (frameFrequencies frame).sum = total
  frequencies : (frameFrequencies frame).length = 256
  covers : Covers (frameFrequencies frame) 0 0 table
  states : InRange (frameStates frame)

/-- A frame of kind one is turned down as invalid, or decoded through its table. -/
lemma decode_coded {frame : List Byte} {expected : ℕ} (hkind : frame.getD 12 0 = 1) :
    decode frame expected = .error invalid ∨ ∃ table, CodedFrame frame expected table ∧
      decode frame expected = (do
        let (output,states,bytes) ← decodeSymbols table expected 0 (frameStates frame)
          (frame.drop codedHeader)
        if bytes ≠ [] ∨ states ≠ (fun _ => low) then .error invalid else return output) := by
  have hhdr : headerBytes=13 := rfl
  have hcode : codedHeader=541 := rfl
  unfold decode
  split
  · exact .inl rfl
  next hgrd =>
  push Not at hgrd
  obtain ⟨-,-,-,-,hmag,hsize⟩ := hgrd
  rw [if_neg (by rw [hkind]; decide)]
  split
  · exact .inl rfl
  next hleng =>
  push Not at hleng
  have hsli : (slice frame headerBytes 512).length=512 := length_slice (by omega)
  have hwds : (slice frame (headerBytes+512) 16).length=16 := length_slice (by omega)
  cases hbui : buildTable (chunksExact 2 (slice frame headerBytes 512)) 0 0
      (replicate total ⟨0,0,0⟩) with
  | error e => exact .inl (by rw [error_bind,buildTable_error hbui])
  | ok pair =>
    obtain ⟨stop,table⟩ := pair
    obtain ⟨hstop,hle,-⟩ := buildTable_eq_ok length_replicate (zero_le _) hbui
    rw [zero_add] at hstop
    simp only [ok_bind]
    split
    · exact .inl rfl
    next htot =>
    rw [not_not] at htot
    split
    · exact .inl rfl
    next hsta =>
    have hsum : (frameFrequencies frame).sum=total := hstop.symm.trans htot
    obtain ⟨out,hout,-,hcov⟩ := buildTable_spec (frameFrequencies frame) 0 0
      (replicate total ⟨0,0,0⟩) length_replicate (by rw [hsum]; omega)
    rw [buildTable_readFrequencies] at hbui
    obtain rfl : out=table := congrArg Prod.snd (ok_inj (hout.symm.trans hbui))
    refine .inr ⟨out,⟨hleng.2.1,hmag,hsize,hkind,hsum,?_,hcov,fun l => ?_⟩,rfl⟩
    · simp [frameFrequencies,readFrequencies,chunksExact,hsli]
    · rw [any_eq_true] at hsta
      by_contra hout
      refine hsta ⟨frameStates frame l,?_,decide_eq_true hout⟩
      have hl : (l : ℕ) < ((chunksExact 4 (slice frame (headerBytes+512) 16)).map fun word =>
          (ofLeBytes 32 word).toNat).length := by
        simp [chunksExact,hwds]
      rw [frameStates,getD_eq_getElem _ _ hl]
      exact getElem_mem hl

lemma word_end_le (l : Fin 4) : 4*(l:ℕ)+4 ≤ 16 := by omega

/-- The two four-byte fields and the table are words, so equal words are equal bytes. -/
lemma CodedFrame.ext {frame other : List Byte} {expected : ℕ} {table' : List Entry} (h :
    CodedFrame frame expected table) (h' : CodedFrame other expected table') (htab : slice frame
    headerBytes 512 = slice other headerBytes 512) (hsta : frameStates frame = frameStates other)
    (hcode : frame.drop codedHeader = other.drop codedHeader) : frame=other := by
  have hlen := h.length
  have hlen' := h'.length
  have hhdr : headerBytes=13 := rfl
  have hcodedHeader : codedHeader=541 := rfl
  have hspl : ∀ xs : List Byte, codedHeader≤xs.length → xs.getD 12 0=1 →
      xs = xs.take 8++slice xs 8 4++[1]++slice xs headerBytes 512
        ++ slice xs (headerBytes+512) 16++xs.drop codedHeader := by
    intro xs hxs hkind
    have hone : [1]=slice xs 12 1 := by
      rw [slice,drop_eq_getElem_cons (by omega),take_succ_cons,take_zero,← hkind,
        getD_eq_getElem _ _ (by omega)]
    simp only [hone,slice,hhdr,hcodedHeader,← take_add]
    rw [take_append_drop]
  have hsize : slice frame 8 4=slice other 8 4 := by
    refine ofLeBytes_inj (w := 32) (by decide) (length_slice (by omega)) (length_slice (by omega)) ?_
    exact BitVec.eq_of_toNat_eq (h.size.trans h'.size.symm)
  have hword : ∀ xs : List Byte, codedHeader≤xs.length → ∀ l : Fin 4,
      frameStates xs l = (ofLeBytes 32 (slice (slice xs (headerBytes+512) 16) (4*l) 4)).toNat := by
    intro xs hxs l
    have hw : (slice xs (headerBytes+512) 16).length=16 := length_slice hxs
    rw [frameStates,getD_eq_getElem _ _ (by simp [chunksExact,hw])]
    simp [chunksExact]
  have hwds : slice frame (headerBytes+512) 16=slice other (headerBytes+512) 16 := by
    have hw : (slice frame (headerBytes+512) 16).length=16 := length_slice hlen
    have hw' : (slice other (headerBytes+512) 16).length=16 := length_slice hlen'
    have hpart : ∀ l : Fin 4, slice (slice frame (headerBytes+512) 16) (4*l) 4 =
        slice (slice other (headerBytes+512) 16) (4*l) 4 := by
      intro l
      refine ofLeBytes_inj (w := 32) (by decide) (length_slice ((word_end_le l).trans_eq hw.symm))
        (length_slice ((word_end_le l).trans_eq hw'.symm)) ?_
      apply BitVec.eq_of_toNat_eq
      rw [← hword frame hlen,← hword other hlen',hsta]
    have hfour : ∀ xs : List Byte, xs.length=16 →
        xs = slice xs (4*(0 : Fin 4)) 4++slice xs (4*(1 : Fin 4)) 4++slice xs (4*(2 : Fin 4)) 4
          ++ slice xs (4*(3 : Fin 4)) 4 := by
      intro xs hxs
      simp [slice,← take_add,hxs]
    rw [hfour _ hw,hfour _ hw',hpart 0,hpart 1,hpart 2,hpart 3]
  rw [hspl frame hlen h.kind,hspl other hlen' h'.kind,h.magic,h'.magic,hsize,htab,hwds, hcode]

/-- Whatever the frame, the decoder turns it down as invalid or accepts it; no index is out of range
and no `u32` overflows. The encoder's loop, run with an accepted coded frame's own table on the
decoded bytes, comes to the frame's states and coded bytes, whatever raw fallback length lies above
them; so two coded frames with one table that decode to the same bytes are the same frame. -/
theorem decode_canonical (frame : List Byte) (expected : ℕ) : decodeChecked frame expected =
    decode frame expected ∧ (∀ e, decodeChecked frame expected = .error e → e=invalid) ∧ ∀ output,
    decode frame expected = .ok output → frame.getD 12 0 = 1 → output.length=expected ∧ (∀ length,
    (frame.drop codedHeader).length+codedHeader < length → encodeSymbols (frameFrequencies frame)
    length 0 output = .ok (some (frameStates frame,frame.drop codedHeader))) ∧
    ∀ other, decode other expected = .ok output → other.getD 12 0 = 1 →
    slice frame headerBytes 512 = slice other headerBytes 512 → frame=other := by
  have hacc : ∀ {frame output}, decode frame expected = .ok output → frame.getD 12 0=1 →
      ∃ table, CodedFrame frame expected table ∧ output.length=expected ∧
        ∀ length, (frame.drop codedHeader).length+codedHeader < length →
          encodeSymbols (frameFrequencies frame) length 0 output =
            .ok (some (frameStates frame,frame.drop codedHeader)) := by
    intro frame output hdec hkind
    rcases @decode_coded _ expected hkind with herr | ⟨table,hfrm,hrun⟩
    · rw [herr] at hdec
      cases hdec
    · rw [hrun] at hdec
      obtain ⟨⟨out,states,bytes⟩,hsym,hdec⟩ := bind_eq_ok.mp hdec
      obtain ⟨hend,hout⟩ := ite_error_eq_ok.mp hdec
      obtain rfl := Except.ok.inj hout
      push Not at hend
      obtain ⟨rfl,rfl⟩ := hend
      have hinv := fun length => @decodeSymbols_inverse _ _ hfrm.sum hfrm.frequencies
        hfrm.covers expected 0 _ hfrm.states _ _ hsym length
      exact ⟨table,hfrm,(hinv _ (lt_succ_self _)).1,fun length hfit => (hinv length hfit).2⟩
  refine ⟨decodeChecked_eq frame expected,fun e he => ?_,fun output hdec hkind => ?_⟩
  · rw [decodeChecked_eq] at he
    by_cases hkind : frame.getD 12 0=1
    · rcases @decode_coded _ expected hkind with herr | ⟨table,hfrm,hrun⟩
      · rw [herr] at he
        exact (Except.error.inj he).symm
      · rw [hrun] at he
        cases hsym : decodeSymbols table expected 0 (frameStates frame) (frame.drop codedHeader) with
        | error e' =>
          rw [hsym] at he
          obtain rfl := Except.error.inj he
          exact decodeSymbols_error hfrm.sum hfrm.frequencies hfrm.covers expected 0 hfrm.states
            hsym
        | ok out =>
          rw [hsym,ok_bind] at he
          simp only at he
          split at he
          · exact (Except.error.inj he).symm
          · cases he
    · unfold decode at he
      split at he
      · exact (Except.error.inj he).symm
      · split at he
        · split at he
          · exact (Except.error.inj he).symm
          · cases he
        · rw [if_pos (.inl hkind)] at he
          exact (Except.error.inj he).symm
  · obtain ⟨table,hfrm,hleng,henc⟩ := hacc hdec hkind
    refine ⟨hleng,henc,fun other hoth hkind' htab => ?_⟩
    obtain ⟨table',hfrm',-,henc'⟩ := hacc hoth hkind'
    have hfrq : frameFrequencies frame=frameFrequencies other := by
      rw [frameFrequencies,htab,← frameFrequencies]
    obtain ⟨length,hlt⟩ := exists_gt
      (max ((frame.drop codedHeader).length+codedHeader) ((other.drop codedHeader).length+codedHeader))
    have h1 := henc length ((le_max_left _ _).trans_lt hlt)
    rw [hfrq,henc' length ((le_max_right _ _).trans_lt hlt)] at h1
    obtain ⟨hsta,hcode⟩ := Prod.ext_iff.mp (Option.some.inj (Except.ok.inj h1))
    exact hfrm.ext hfrm' htab hsta.symm hcode.symm

/-- A constant input: its one symbol has every slot, so no byte is coded. -/
theorem decode_canonical_at :
    let frame := codedFrame (replicate 600 7) (replicate 7 0++4096::replicate 248 0)
      (fun _ => low) []
    decode frame 600 = .ok (replicate 600 7) ∧
      encodeSymbols (frameFrequencies frame) 600 0 (replicate 600 7) =
        .ok (some (frameStates frame,[])) := by
  intro frame
  have hdec : decode frame 600 = .ok (replicate 600 7) := by decide +kernel
  have hkind : frame.getD 12 0=1 := by decide +kernel
  have hdrop : frame.drop codedHeader=[] := by decide +kernel
  have h := ((decode_canonical frame 600).2.2 _ hdec hkind).2.1 600
  rw [hdrop] at h
  exact ⟨hdec,h (by decide)⟩

end Pllm.Entropy
