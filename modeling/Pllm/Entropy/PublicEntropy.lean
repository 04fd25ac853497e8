import Pllm.Common.Slices
import Pllm.Lib.Except

/-! The four-lane byte rANS coder for public artifacts: frequency normalisation, the encoder with
its raw fallback, and the table-driven decoder. -/
namespace Pllm.Entropy
open Pllm.Lib List

def limit : ℕ := 4*2^20
def bits : ℕ := 12
def total : ℕ := 2^bits
def low : ℕ := 2^23
def magic : List Byte := ascii "PLLRANS1"
def headerBytes : ℕ := 13
def codedHeader : ℕ := headerBytes+512+16

/-- A refusal, a `u32` overflow, or a loop that does not end. -/
inductive Failure
  | message (text : String)
  | overflow
  | endless
  deriving DecidableEq

/-- The value of an expression computed in `u32`. -/
def word (x : ℤ) : Except Failure ℕ :=
  if 0≤x ∧ x<2^32 then .ok x.toNat else .error .overflow

def raw (data : List Byte) : List Byte :=
  magic++leBytes 4 (BitVec.ofNat 32 data.length)++[0]++data

def countBytes (data : List Byte) : List ℕ :=
  data.foldl (fun counts byte => counts.modify byte.toNat (·+1)) (List.replicate 256 0)

/-- `iter.max_by_key(key)`: the last of the greatest elements. -/
def maxByKey {α κ : Type} [LinearOrder κ] (key : α → κ) : List α → Option α
  | [] => none
  | x::xs => some (xs.foldl (fun best y => if key best ≤ key y then y else best) x)

/-- The frequencies before adjustment: rounded down, but at least one for an occurring byte. -/
def initialFrequencies (counts : List ℕ) (n : ℕ) : List ℕ :=
  counts.map fun count => if count=0 then 0 else max (count*total/n) 1

/-- The entry the adjustment loop changes next. -/
def adjustIndex (counts frequencies : List ℕ) (n : ℕ) (add : Bool) : Option ℕ :=
  let candidates := (List.range 256).filter fun i =>
    if add then decide (counts.getD i 0>0) else decide (frequencies.getD i 0>1)
  maxByKey (fun i =>
    let deficit : ℤ := counts.getD i 0*total-frequencies.getD i 0*n
    toLex (if add then deficit else -deficit,-(i:ℤ))) candidates

/-- The loop `while sum != TOTAL`, with a bound on its passes. -/
def adjust (counts : List ℕ) (n : ℕ) : ℕ → List ℕ → ℕ → Except Failure (List ℕ)
  | 0, _, _ => .error .endless
  | passes+1, frequencies, sum =>
    if sum=total then .ok frequencies
    else
      let add := decide (sum<total)
      match adjustIndex counts frequencies n add with
      | none => .error (.message "invalid public entropy frequencies")
      | some index =>
        if add then adjust counts n passes (frequencies.modify index (·+1)) (sum+1)
        else adjust counts n passes (frequencies.modify index (·-1)) (sum-1)

def normalize (data : List Byte) : Except Failure (List ℕ) :=
  let counts := countBytes data
  let frequencies := initialFrequencies counts data.length
  let sum := frequencies.sum
  adjust counts data.length (sum+total+1) frequencies sum

/-- The running sums before each entry. -/
def cumulative : ℕ → List ℕ → List ℕ
  | _, [] => []
  | offset, f::fs => offset::cumulative (offset+f) fs

abbrev States := Fin 4 → ℕ

def lane (index : ℕ) : Fin 4 := ⟨index%4,Nat.mod_lt _ (by decide)⟩

/-- The loop `while *state >= maximum`; the bytes are kept latest first. A `u32` is zero after four
passes, so a fifth means the loop does not end. -/
def shiftOut (maximum : ℕ) : ℕ → ℕ → List Byte → Except Failure (ℕ × List Byte)
  | 0, _, _ => .error .endless
  | passes+1, state, coded =>
    if state≥maximum then
      shiftOut maximum passes (state/2^8) (BitVec.ofNat 8 state::coded)
    else .ok (state,coded)

/-- The encoder's loop, last symbol first; `none` is the raw fallback. -/
def encodeSymbols (frequencies : List ℕ) (length : ℕ) :
    ℕ → List Byte → Except Failure (Option (States × List Byte))
  | _, [] => .ok (some (fun _ => low,[]))
  | index, symbol::rest => do
    match ← encodeSymbols frequencies length (index+1) rest with
    | none => return none
    | some (states,coded) =>
      let frequency := frequencies.getD symbol.toNat 0
      let maximum ← word (low/2^bits*2^8*frequency:ℕ)
      let (state,coded) ← shiftOut maximum 5 (states (lane index)) coded
      if coded.length+codedHeader≥length then return none
      else do
        let state ← word (state/frequency*total+state%frequency
          +(cumulative 0 frequencies).getD symbol.toNat 0 : ℕ)
        return some (Function.update states (lane index) state,coded)

def encode (data : List Byte) : Except Failure (List Byte) :=
  if data=[] ∨ data.length>limit then
    .error (.message "public entropy input exceeds 4 MiB")
  else if data.length ≤ codedHeader then .ok (raw data)
  else do
    let frequencies ← normalize data
    match ← encodeSymbols frequencies data.length 0 data with
    | none => return raw data
    | some (states,coded) =>
      return magic++leBytes 4 (BitVec.ofNat 32 data.length)++[1]
        ++ frequencies.flatMap (fun frequency => leBytes 2 (BitVec.ofNat 16 frequency))
        ++ (List.ofFn states).flatMap (fun state => leBytes 4 (BitVec.ofNat 32 state))++coded

structure Entry where
  frequency : ℕ
  start : ℕ
  symbol : Byte

def invalid : Failure := .message "invalid bounded public entropy frame"

/-- The loop that fills the table, from a symbol and its cumulative frequency on. -/
def buildTable : List (List Byte) → ℕ → ℕ → List Entry → Except Failure (ℕ × List Entry)
  | [], _, cumulative, table => .ok (cumulative,table)
  | pair::pairs, symbol, cumulative, table =>
    let frequency := (ofLeBytes 16 pair).toNat
    let stop := cumulative+frequency
    if stop>total then .error invalid
    else buildTable pairs (symbol+1) stop (table.take cumulative
      ++ List.replicate frequency ⟨frequency,cumulative,BitVec.ofNat 8 symbol⟩++table.drop stop)

/-- The loop `while *state < LOW` over the bytes left. -/
def refill (state : ℕ) : List Byte → Except Failure (ℕ × List Byte)
  | [] => if state<low then .error invalid else .ok (state,[])
  | byte::bytes =>
    if state<low then refill (state*2^8+byte.toNat) bytes else .ok (state,byte::bytes)

def decodeSymbols (table : List Entry) :
    ℕ → ℕ → States → List Byte → Except Failure (List Byte × States × List Byte)
  | 0, _, states, bytes => .ok ([],states,bytes)
  | remaining+1, index, states, bytes => do
    let state := states (lane index)
    let slot := state%total
    let entry := table.getD slot ⟨0,0,0⟩
    let sum ← word (entry.frequency*(state/2^bits)+slot:ℕ)
    let state ← word (sum-entry.start)
    let (state,bytes) ← refill state bytes
    let (output,states,bytes) ← decodeSymbols table remaining (index+1)
      (Function.update states (lane index) state) bytes
    return (entry.symbol::output,states,bytes)

def decode (frame : List Byte) (expected : ℕ) : Except Failure (List Byte) :=
  if expected=0 ∨ expected>limit ∨ frame.length<headerBytes
      ∨ frame.length>expected+headerBytes ∨ frame.take 8 ≠ magic
      ∨ (ofLeBytes 32 (slice frame 8 4)).toNat ≠ expected then .error invalid
  else if frame.getD 12 0=0 then
    if frame.length≠headerBytes+expected then .error invalid else .ok (frame.drop headerBytes)
  else if frame.getD 12 0 ≠ 1 ∨ frame.length < codedHeader
      ∨ frame.length≥expected+headerBytes then .error invalid
  else do
    let (cumulative,table) ← buildTable (chunksExact 2 (slice frame headerBytes 512)) 0 0
      (List.replicate total ⟨0,0,0⟩)
    if cumulative≠total then .error invalid
    else
      let states := (chunksExact 4 (slice frame (headerBytes+512) 16)).map fun word =>
        (ofLeBytes 32 word).toNat
      if states.any fun state => decide (¬(low ≤ state ∧ state<low*256)) then .error invalid
      else do
        let (output,states,bytes) ← decodeSymbols table expected 0
          (fun lane => states.getD lane 0) (frame.drop codedHeader)
        if bytes ≠ [] ∨ states ≠ (fun _ => low) then .error invalid else return output

/-! The frequency model: the adjustment loop ends with a total of 4096, no occurring byte loses its
last unit, and the decoder's table inverts the running sums. -/

lemma getD_modify (l : List ℕ) (f : ℕ → ℕ) (i j : ℕ) (hj : j<l.length) :
    (l.modify i f).getD j 0 = if i=j then f (l.getD j 0) else l.getD j 0 := by
  rw [getD_eq_getElem _ _ (by simpa using hj),getD_eq_getElem _ _ hj,getElem_modify]

lemma foldl_count (data : List Byte) (counts : List ℕ) (hlen : counts.length=256) :
    let out := data.foldl (fun counts byte => counts.modify byte.toNat (·+1)) counts
    out.length = 256 ∧ ∀ j<256,
      out.getD j 0 = counts.getD j 0+data.countP (fun byte => byte.toNat==j) := by
  induction data generalizing counts with
  | nil => exact ⟨hlen,fun j _ => by simp⟩
  | cons byte data ih =>
    obtain ⟨hl,hget⟩ := ih (counts.modify byte.toNat (·+1)) (by simpa using hlen)
    refine ⟨hl,fun j hj => (hget j hj).trans ?_⟩
    rw [getD_modify _ _ _ _ (hlen.symm ▸ hj)]
    by_cases hb : byte.toNat=j
    · simp [hb]
      omega
    · simp [hb]

lemma length_countBytes (data : List Byte) : (countBytes data).length = 256 :=
  (foldl_count data _ length_replicate).1

variable {data : List Byte}

lemma countBytes_pos {byte : Byte} (h : byte∈data) : 0 < (countBytes data).getD byte.toNat 0 := by
  have hlt : byte.toNat<256 := byte.isLt
  have hcnt : 0<data.countP fun b => b.toNat==byte.toNat :=
    countP_pos_iff.mpr ⟨byte,h,beq_self_eq_true _⟩
  rw [countBytes,(foldl_count data _ length_replicate).2 _ hlt]
  omega

lemma maxByKey_mem {α κ : Type} [LinearOrder κ] (key : α → κ) {xs : List α} (h : xs ≠ []) :
    ∃ x∈xs, maxByKey key xs = some x := by
  obtain ⟨x,xs,rfl⟩ := exists_cons_of_ne_nil h
  have hfold : ∀ (ys : List α) (best : α), ys.foldl (fun best y =>
      if key best ≤ key y then y else best) best ∈ best::ys := by
    intro ys
    induction ys with
    | nil => simp
    | cons y ys ih =>
      intro best
      rw [foldl_cons]
      have hmem := ih (if key best ≤ key y then y else best)
      split_ifs at hmem ⊢
      · exact mem_cons_of_mem _ hmem
      · obtain hbest | hmem := mem_cons.mp hmem
        · exact mem_cons.mpr (.inl hbest)
        · exact mem_cons_of_mem _ (mem_cons_of_mem _ hmem)
  exact ⟨_,hfold xs x,rfl⟩

variable {l : List ℕ} {i : ℕ}

lemma sum_modify_succ (hi : i<l.length) : (l.modify i (·+1)).sum = l.sum+1 := by
  induction l generalizing i with
  | nil => simp at hi
  | cons x l ih =>
    cases i with
    | zero =>
      simp
      omega
    | succ i =>
      rw [modify_succ_cons,sum_cons,sum_cons,ih (by simpa using hi)]
      omega

lemma sum_modify_pred (hi : i<l.length) (h : 0 < l.getD i 0) :
    (l.modify i (·-1)).sum = l.sum-1 ∧ 0<l.sum := by
  induction l generalizing i with
  | nil => simp at hi
  | cons x l ih =>
    cases i with
    | zero =>
      have hx : 0<x := h
      simp
      omega
    | succ i =>
      obtain ⟨hs,hpos⟩ := ih (by simpa using hi) (by simpa using h)
      rw [modify_succ_cons,sum_cons,sum_cons]
      omega

/-- Every occurring byte has a frequency. -/
structure Fits (counts frequencies : List ℕ) : Prop where
  length : frequencies.length=256
  pos : ∀ i<256, 0 < counts.getD i 0 → 0 < frequencies.getD i 0

section
variable {counts frequencies : List ℕ}

lemma Fits.modify_succ (h : Fits counts frequencies) (i : ℕ) :
    Fits counts (frequencies.modify i (·+1)) where
  length := by simpa using h.length
  pos j hj hc := by
    have hpos := h.pos j hj hc
    rw [getD_modify _ _ _ _ (h.length.symm ▸ hj)]
    split_ifs
    · omega
    · exact hpos

lemma Fits.modify_pred (h : Fits counts frequencies) (hi : 1 < frequencies.getD i 0) :
    Fits counts (frequencies.modify i (·-1)) where
  length := by simpa using h.length
  pos j hj hc := by
    have hpos := h.pos j hj hc
    rw [getD_modify _ _ _ _ (h.length.symm ▸ hj)]
    split_ifs with heq
    · subst heq
      omega
    · exact hpos

lemma adjustIndex_spec (hfits : Fits counts frequencies) (hcou : ∃ i<256, 0 < counts.getD i 0)
    (n : ℕ) : ∃ i<256, adjustIndex counts frequencies n (decide (frequencies.sum<total)) = some i ∧
    (¬frequencies.sum < total → 1 < frequencies.getD i 0) := by
  have hsome : ∃ i<256, (if decide (frequencies.sum<total)=true
      then decide (counts.getD i 0>0) else decide (frequencies.getD i 0>1))=true := by
    by_cases hadd : frequencies.sum<total
    · obtain ⟨i,hi,hpos⟩ := hcou
      exact ⟨i,hi,by simpa [hadd] using hpos⟩
    · by_contra hnone
      have hle : ∀ f∈frequencies, f≤1 := by
        intro f hf
        obtain ⟨i,hi,rfl⟩ := getElem_of_mem hf
        by_contra hgt
        refine hnone ⟨i,hfits.length ▸ hi,?_⟩
        rw [if_neg (by simpa using hadd),getD_eq_getElem _ _ hi]
        simpa using hgt
      have hbd := sum_le_card_nsmul frequencies 1 hle
      rw [hfits.length,smul_eq_mul] at hbd
      simp only [total,bits] at hadd
      omega
  obtain ⟨i,hi,hcan⟩ := hsome
  have hne : ((range 256).filter fun i => if decide (frequencies.sum<total)=true
      then decide (counts.getD i 0>0) else decide (frequencies.getD i 0>1)) ≠ [] :=
    ne_nil_of_mem (mem_filter.mpr ⟨mem_range.mpr hi,hcan⟩)
  obtain ⟨best,hmem,hbest⟩ := maxByKey_mem (fun i =>
    let deficit : ℤ := counts.getD i 0*total-frequencies.getD i 0*n
    toLex (if decide (frequencies.sum<total)=true then deficit else -deficit,-(i:ℤ))) hne
  obtain ⟨hrng,hkeep⟩ := mem_filter.mp hmem
  refine ⟨best,mem_range.mp hrng,hbest,fun hadd => ?_⟩
  rw [if_neg (by simpa using hadd)] at hkeep
  simpa using hkeep

lemma adjust_spec (hcou : ∃ i<256, 0 < counts.getD i 0) (n passes : ℕ) (hfits : Fits counts
    frequencies) (hpas : frequencies.sum-total+(total-frequencies.sum) < passes) : ∃ out, adjust
    counts n passes frequencies frequencies.sum = .ok out ∧ Fits counts out ∧ out.sum=total := by
  induction passes generalizing frequencies with
  | zero => omega
  | succ passes ih =>
    rw [adjust]
    by_cases hsum : frequencies.sum=total
    · exact ⟨frequencies,if_pos hsum,hfits,hsum⟩
    · obtain ⟨i,hi,hidx,hone⟩ := adjustIndex_spec hfits hcou n
      have hlen : i<frequencies.length := hfits.length.symm ▸ hi
      rw [if_neg hsum]
      simp only [hidx]
      by_cases hadd : frequencies.sum<total
      · have hnext := sum_modify_succ hlen
        rw [if_pos (by simpa using hadd),← hnext]
        exact ih (hfits.modify_succ i) (by omega)
      · obtain ⟨hnext,hpos⟩ := sum_modify_pred hlen (Nat.lt_of_succ_lt (hone hadd))
        rw [if_neg (by simpa using hadd),← hnext]
        exact ih (hfits.modify_pred (hone hadd)) (by omega)

end

/-- What a normalised model guarantees the coder. -/
structure Model (data : List Byte) (frequencies : List ℕ) : Prop where
  length : frequencies.length=256
  sum : frequencies.sum=total
  pos : ∀ byte∈data, 1 ≤ frequencies.getD byte.toNat 0

lemma normalize_spec (h : data ≠ []) :
    ∃ frequencies, normalize data = .ok frequencies ∧ Model data frequencies := by
  obtain ⟨byte,rest,rfl⟩ := exists_cons_of_ne_nil h
  have hfst := countBytes_pos (mem_cons_self (a := byte) (l := rest))
  have hfits : Fits (countBytes (byte::rest))
      (initialFrequencies (countBytes (byte::rest)) (byte::rest).length) := by
    have hlen := length_countBytes (byte::rest)
    refine ⟨by simpa [initialFrequencies] using hlen,fun i hi hc => ?_⟩
    have hi' : i < (countBytes (byte::rest)).length := hlen.symm ▸ hi
    rw [getD_eq_getElem _ _ hi'] at hc
    rw [getD_eq_getElem _ _ (by simpa [initialFrequencies] using hi')]
    simp only [initialFrequencies,getElem_map]
    rw [if_neg (by omega)]
    omega
  obtain ⟨out,hout,hfit,hsum⟩ := adjust_spec ⟨byte.toNat,byte.isLt,hfst⟩ (byte::rest).length
    ((initialFrequencies (countBytes (byte::rest)) (byte::rest).length).sum+total+1) hfits (by omega)
  exact ⟨out,hout,hfit.length,hsum,fun b hb => hfit.pos _ b.isLt (countBytes_pos hb)⟩

open Function

section
variable {frequencies : List ℕ}

lemma getD_cumulative (offset : ℕ) (hi : i<frequencies.length) :
    (cumulative offset frequencies).getD i 0 = offset+(frequencies.take i).sum := by
  induction frequencies generalizing offset i with
  | nil => simp at hi
  | cons f fs ih =>
    cases i with
    | zero => simp [cumulative]
    | succ i =>
      rw [cumulative,getD_cons_succ,ih _ (by simpa using hi),take_succ_cons,sum_cons,add_assoc]

lemma take_sum_add_le (hi : i<frequencies.length) :
    (frequencies.take i).sum+frequencies.getD i 0 ≤ frequencies.sum := by
  have hspl := congrArg sum (take_append_drop (i+1) frequencies)
  rw [sum_append,← take_concat_get' _ _ hi,sum_append] at hspl
  rw [getD_eq_getElem _ _ hi]
  simp only [sum_cons] at hspl
  omega

lemma getD_fill {α : Type} (table : List α) (e d : α) {start n : ℕ}
    (h : start+n≤table.length) (j : ℕ) :
    (table.take start++replicate n e++table.drop (start+n)).getD j d =
      if start≤j ∧ j < start+n then e else table.getD j d := by
  have hst : start≤table.length := by omega
  simp only [getD_eq_getElem?_getD,getElem?_append,length_append,
    length_take,length_replicate,Nat.min_eq_left hst]
  split_ifs with h1 h2 h3 h3 h3
  · omega
  · rw [getElem?_take_of_lt h2]
  · rw [getElem?_replicate,if_pos (by omega),Option.getD_some]
  · omega
  · omega
  · rw [getElem?_drop,show start+n+(j-(start+n))=j by omega]

/-- Slot `start+t` of every symbol names the symbol, its frequency and its start. -/
def Covers (frequencies : List ℕ) (symbol start : ℕ) (table : List Entry) : Prop :=
  ∀ i<frequencies.length, ∀ t < frequencies.getD i 0,
    table.getD (start+(frequencies.take i).sum+t) ⟨0,0,0⟩ =
      ⟨frequencies.getD i 0,start+(frequencies.take i).sum,BitVec.ofNat 8 (symbol+i)⟩

variable (frequencies) in
lemma buildTable_spec (symbol start : ℕ) (table : List Entry) (hlen : table.length=total)
    (hsum : start+frequencies.sum≤total) : ∃ out, buildTable (frequencies.map fun f => leBytes
    2 (BitVec.ofNat 16 f)) symbol start table = .ok (start+frequencies.sum,out) ∧ (∀ j < start,
    out.getD j ⟨0,0,0⟩ = table.getD j ⟨0,0,0⟩) ∧ Covers frequencies symbol start out := by
  induction frequencies generalizing symbol start table with
  | nil => exact ⟨table,rfl,fun _ _ => rfl,fun i hi => by simp at hi⟩
  | cons f fs ih =>
    rw [sum_cons] at hsum
    have htot : total=4096 := rfl
    have hf : (ofLeBytes 16 (leBytes 2 (BitVec.ofNat 16 f))).toNat=f := by
      rw [ofLeBytes_leBytes _ (by decide),BitVec.toNat_ofNat]
      exact Nat.mod_eq_of_lt (by omega)
    have hfill := getD_fill table ⟨f,start,BitVec.ofNat 8 symbol⟩ ⟨0,0,0⟩
      (hlen.symm ▸ show start+f≤total by omega)
    obtain ⟨out,hout,hblw,hcov⟩ := ih (symbol+1) (start+f)
      (table.take start++replicate f ⟨f,start,BitVec.ofNat 8 symbol⟩
        ++ table.drop (start+f)) (by simp; omega) (by omega)
    refine ⟨out,?_,fun j hj => ?_,fun i hi t ht => ?_⟩
    · rw [map_cons,buildTable,hf,if_neg (by omega),hout,sum_cons,add_assoc]
    · rw [hblw j (by omega),hfill,if_neg (by omega)]
    · cases i with
      | zero =>
        have ht : t<f := ht
        simp only [take_zero,sum_nil,add_zero,getD_cons_zero]
        rw [hblw _ (by omega),hfill,if_pos (by omega)]
      | succ i =>
        have hnext := hcov i (by simpa using hi) t (by simpa using ht)
        rw [getD_cons_succ,take_succ_cons,sum_cons,← add_assoc start f,hnext,
          add_right_comm symbol 1 i,add_assoc symbol i 1]

end

lemma refill_low {state : ℕ} (h : low ≤ state) (coded : List Byte) :
    refill state coded = .ok (state,coded) := by
  cases coded with
  | nil => exact if_neg (by omega)
  | cons byte coded => exact if_neg (by omega)

/-- The bytes shifted out bring the state back. -/
lemma shiftOut_spec {f : ℕ} (hf : 1≤f) (passes state : ℕ) (coded : List Byte)
    (hsta : 2^11*f ≤ state) (hlt : state<2^31) (hpas : state<2^19*f*256^passes) :
    ∃ out rest, shiftOut (2^19*f) (passes+1) state coded = .ok (out,rest) ∧ 2^11*f≤out ∧
      out<2^19*f ∧ refill out rest = refill state coded := by
  induction passes generalizing state coded with
  | zero =>
    rw [pow_zero,mul_one] at hpas
    exact ⟨state,coded,if_neg (by omega),hsta,hpas,rfl⟩
  | succ passes ih =>
    by_cases hmax : state≥2^19*f
    · obtain ⟨out,rest,hout,hge,hlt',href⟩ := ih (state/2^8)
        (BitVec.ofNat 8 state::coded) (by omega) (by omega) (by
          rw [pow_succ 256 passes,← mul_assoc] at hpas
          omega)
      refine ⟨out,rest,(if_pos hmax).trans hout,hge,hlt',href.trans ?_⟩
      have hbyte : (BitVec.ofNat 8 state : Byte).toNat=state%2^8 := BitVec.toNat_ofNat ..
      rw [refill,if_pos (by simp only [low]; omega)]
      congr 1
      omega
    · exact ⟨state,coded,if_neg hmax,hsta,by omega,rfl⟩

lemma word_ok {x : ℕ} (h : x<2^32) : word x = .ok x := by
  have hcast : (x : ℤ)<2^32 := by exact_mod_cast h
  rw [word,if_pos ⟨Int.natCast_nonneg x,hcast⟩,Int.toNat_natCast]

/-- The states between two steps. -/
def InRange (states : States) : Prop := ∀ lane, low ≤ states lane ∧ states lane < low*256

lemma step_inverse {f start state next : ℕ} (hf : 1≤f) (htot : start+f≤total) (hlow :
    2^11*f ≤ state) (hlt : state<2^19*f) (hnext : next=state/f*total+state%f+start) : (low≤next ∧
    next<low*256) ∧ next%total=start+state%f ∧ f*(next/2^bits)+next%total=start+state := by
  have hquot : 2^11 ≤ state/f := (Nat.le_div_iff_mul_le hf).mpr hlow
  have hquot' : state/f<2^19 := (Nat.div_lt_iff_lt_mul hf).mpr hlt
  have hrem : state%f<f := Nat.mod_lt _ hf
  have hdiv := Nat.div_add_mod state f
  have hpos : 0<total := by decide
  have hspl : next=start+state%f+state/f*total := by rw [hnext]; omega
  have hupp : next/total=state/f := by
    rw [hspl,Nat.add_mul_div_right _ _ hpos,Nat.div_eq_of_lt (by omega),zero_add]
  have hslot : next%total=start+state%f := by
    rw [hspl,Nat.add_mul_mod_self_right,Nat.mod_eq_of_lt (by omega)]
  have hval : total=4096 := rfl
  have hbase : low=8388608 := rfl
  refine ⟨⟨?_,?_⟩,hslot,?_⟩
  · rw [hspl,hval]
    omega
  · rw [hspl,hval]
    omega
  · rw [show 2^bits=total from rfl,hupp]
    omega

section
variable {frequencies : List ℕ} {table : List Entry}

/-- The encoder never fails, and what it produces decodes to the data. -/
lemma encodeSymbols_spec (hsum : frequencies.sum=total) (hlen : frequencies.length=256) (htab :
    Covers frequencies 0 0 table) (length index : ℕ) (hpos : ∀ byte∈data, 1 ≤ frequencies.getD
    byte.toNat 0) : ∃ out, encodeSymbols frequencies length index data = .ok out ∧ ∀ states coded,
    out = some (states,coded) → InRange states ∧ (data ≠ [] → coded.length+codedHeader<length) ∧
    decodeSymbols table data.length index states coded = .ok (data,fun _ => low,[]) := by
  induction data generalizing index with
  | nil =>
    refine ⟨_,rfl,?_⟩
    rintro states coded ⟨⟩
    have hlow : low<low*256 := by decide
    exact ⟨fun _ => ⟨le_rfl,hlow⟩,fun h => absurd rfl h,rfl⟩
  | cons symbol data ih =>
    obtain ⟨out,hout,hspec⟩ := ih (index+1) fun byte hb => hpos byte (mem_cons_of_mem _ hb)
    rw [encodeSymbols,hout]
    cases out with
    | none => exact ⟨none,rfl,nofun⟩
    | some pair =>
      obtain ⟨states,coded⟩ := pair
      obtain ⟨hrng,-,hdec⟩ := hspec states coded rfl
      have hsym : symbol.toNat<frequencies.length := hlen.symm ▸ symbol.isLt
      have hf := hpos symbol mem_cons_self
      have hfit := take_sum_add_le hsym
      have hst := getD_cumulative 0 hsym
      have hcov := htab symbol.toNat hsym
      rw [zero_add] at hst hcov
      generalize frequencies.getD symbol.toNat 0=f at hf hfit hcov ⊢
      generalize (frequencies.take symbol.toNat).sum=start at hfit hst hcov
      have htot : start+f≤total := hsum ▸ hfit
      have hbd : f≤2^12 := le_trans (Nat.le_add_left f start) htot
      have hmaxi : word (low/2^bits*2^8*f:ℕ) = .ok (2^19*f) := by
        rw [show low/2^bits*2^8=2^19 by decide]
        exact word_ok (by omega)
      obtain ⟨hlow,hhigh⟩ := hrng (lane index)
      have hlow' : 2^23 ≤ states (lane index) := hlow
      have hhigh' : states (lane index)<2^31 := hhigh
      have hpas : states (lane index)<2^19*f*256^4 :=
        hhigh'.trans_le ((show 2^31 ≤ 2^19*1*256^4 by norm_num).trans
          (Nat.mul_le_mul_right _ (Nat.mul_le_mul_left _ hf)))
      obtain ⟨state,coded',hshf,hge,hlt,href⟩ := shiftOut_spec hf 4 _ coded (by omega) hhigh'
        hpas
      obtain ⟨next,hnext⟩ : ∃ next, next=state/f*total+state%f+start := ⟨_,rfl⟩
      obtain ⟨hin,hslot,hback⟩ := step_inverse hf htot hge hlt hnext
      have hin32 : next<2^32 := hin.2.trans (by decide)
      simp only [ok_bind,hmaxi,hshf,hst,← hnext,word_ok hin32]
      by_cases hraw : coded'.length+codedHeader≥length
      · exact ⟨none,if_pos hraw,nofun⟩
      · refine ⟨_,if_neg hraw,?_⟩
        rintro states' coded'' ⟨⟩
        refine ⟨fun l => ?_,fun _ => by omega,?_⟩
        · by_cases hl : l=lane index
          · rw [hl,update_self]
            exact hin
          · rw [update_of_ne hl]
            exact hrng l
        · have hent := hcov (state%f) (Nat.mod_lt _ hf)
          rw [zero_add,BitVec.ofNat_toNat,BitVec.setWidth_eq] at hent
          have hsta32 : start+state<2^32 := by
            have hval : total=4096 := rfl
            omega
          have hsumw : word (start+state:ℕ) = .ok (start+state) := word_ok hsta32
          have hback32 : word ((start+state:ℕ)-(start:ℕ)) = .ok state := by
            rw [← Nat.cast_sub (Nat.le_add_right start state),Nat.add_sub_cancel_left]
            exact word_ok (by omega)
          rw [length_cons,decodeSymbols]
          simp only [update_self,hslot,hent]
          rw [← hslot,hback,hsumw,ok_bind,hback32,ok_bind,href,refill_low
            hlow,ok_bind,update_idem,update_eq_self,hdec,ok_bind,pure_eq_ok]

end

lemma length_magic : magic.length=8 := by decide

variable {data : List Byte}

lemma toNat_length (h : data.length≤limit) : (BitVec.ofNat 32 data.length).toNat = data.length := by
  have hval : limit=4194304 := by decide
  rw [BitVec.toNat_ofNat,Nat.mod_eq_of_lt (by omega)]

lemma decode_raw (hne : data ≠ []) (h : data.length≤limit) :
    decode (raw data) data.length = .ok data := by
  have hpos := length_pos_of_ne_nil hne
  have hmag := length_magic
  have hlen : (raw data).length=headerBytes+data.length := by
    simp [raw,headerBytes]
    omega
  have hleng : slice (raw data) 8 4=leBytes 4 (BitVec.ofNat 32 data.length) := by
    simp [raw,slice,hmag]
  have hkind : (raw data).getD 12 0=0 := by
    simp [raw,getElem?_append,hmag]
  have hrest : (raw data).drop headerBytes=data := by
    simp [raw,drop_append,drop_of_length_le,hmag,headerBytes]
  rw [decode,if_neg,if_pos hkind,if_neg (by omega),hrest]
  rw [hleng,ofLeBytes_leBytes _ (by decide),toNat_length h,hlen]
  rintro (h0 | h0 | h0 | h0 | h0 | h0)
  · omega
  · omega
  · omega
  · omega
  · exact h0 rfl
  · exact h0 rfl

/-- The frame of a coded run. -/
def codedFrame (data : List Byte) (frequencies : List ℕ) (states : States) (coded : List Byte) :
    List Byte :=
  magic++leBytes 4 (BitVec.ofNat 32 data.length)++[1]
    ++ frequencies.flatMap (fun frequency => leBytes 2 (BitVec.ofNat 16 frequency))
    ++ (List.ofFn states).flatMap (fun state => leBytes 4 (BitVec.ofNat 32 state))++coded

lemma decode_codedFrame {frequencies : List ℕ}
    (h : data.length≤limit) (hmod : Model data frequencies) {states : States}
    {coded : List Byte} (hrng : InRange states) (hlen : coded.length+codedHeader<data.length)
    {table : List Entry} (htab : buildTable
      (frequencies.map fun f => leBytes 2 (BitVec.ofNat 16 f)) 0 0
        (replicate total ⟨0,0,0⟩) = .ok (total,table))
    (hdec : decodeSymbols table data.length 0 states coded = .ok (data,fun _ => low,[])) :
    decode (codedFrame data frequencies states coded) data.length = .ok data := by
  have hmag := length_magic
  have hfrq := length_flatMap_const (n := 2)
    (f := fun frequency => leBytes 2 (BitVec.ofNat 16 frequency)) frequencies fun _ _ => by simp
  have hstat := length_flatMap_const (n := 4)
    (f := fun state => leBytes 4 (BitVec.ofNat 32 state)) (ofFn states) fun _ _ => by simp
  replace hfrq := hfrq.trans (show 2*frequencies.length = 512 by rw [hmod.length])
  replace hstat := hstat.trans (show 4*(ofFn states).length = 16 by rw [length_ofFn])
  have hhea : headerBytes=13 := rfl
  have hcod : codedHeader=headerBytes+512+16 := rfl
  generalize hfrm : codedFrame data frequencies states coded=frame
  have hleng : frame.length=codedHeader+coded.length := by
    rw [← hfrm]
    simp only [codedFrame,length_append,hfrq,hstat,hmag,length_leBytes, length_singleton]
    omega
  have htake : frame.take 8=magic := by
    rw [← hfrm]
    exact take_left' hmag
  have hcnt : slice frame 8 4=leBytes 4 (BitVec.ofNat 32 data.length) := by
    rw [← hfrm]
    simp [codedFrame,slice,hmag]
  have hkind : frame.getD 12 0=1 := by
    rw [← hfrm]
    simp [codedFrame,getElem?_append,hmag]
  have hdrop : frame.drop headerBytes =
      frequencies.flatMap (fun frequency => leBytes 2 (BitVec.ofNat 16 frequency)) ++
        ((ofFn states).flatMap (fun state => leBytes 4 (BitVec.ofNat 32 state))++coded) := by
    rw [← hfrm]
    simp [codedFrame,drop_append,drop_of_length_le,hmag,headerBytes]
  have hpai : slice frame headerBytes 512 =
      frequencies.flatMap (fun frequency => leBytes 2 (BitVec.ofNat 16 frequency)) := by
    rw [slice,hdrop]
    exact take_left' hfrq
  have hdrop' : frame.drop (headerBytes+512) =
      (ofFn states).flatMap (fun state => leBytes 4 (BitVec.ofNat 32 state))++coded := by
    rw [← drop_drop,hdrop]
    exact drop_left' hfrq
  have hwds : slice frame (headerBytes+512) 16 =
      (ofFn states).flatMap (fun state => leBytes 4 (BitVec.ofNat 32 state)) := by
    rw [slice,hdrop']
    exact take_left' hstat
  have hcode : frame.drop codedHeader=coded := by
    rw [hcod,← drop_drop,hdrop']
    exact drop_left' hstat
  have hread : (chunksExact 4 (slice frame (headerBytes+512) 16)).map
      (fun word => (ofLeBytes 32 word).toNat) = ofFn states := by
    rw [hwds,chunksExact_flatMap (by decide) _ fun _ _ => by simp, map_map]
    refine (map_congr_left fun state hsta => ?_).trans (map_id _)
    obtain ⟨l,rfl⟩ := mem_ofFn.mp hsta
    have hlt : states l < 2^32 := (hrng l).2.trans (by decide)
    rw [comp_apply,ofLeBytes_leBytes _ (by decide),BitVec.toNat_ofNat,Nat.mod_eq_of_lt hlt,id]
  have hhdr : ¬(data.length=0 ∨ data.length>limit ∨ frame.length<headerBytes
      ∨ frame.length>data.length+headerBytes ∨ frame.take 8 ≠ magic
      ∨ (ofLeBytes 32 (slice frame 8 4)).toNat ≠ data.length) := by
    rw [htake,hcnt,ofLeBytes_leBytes _ (by decide),toNat_length h]
    rintro (h0 | h0 | h0 | h0 | h0 | h0)
    · omega
    · omega
    · omega
    · omega
    · exact h0 rfl
    · exact h0 rfl
  have hone : ¬(frame.getD 12 0=0) := by
    rw [hkind]
    decide
  have hsize : ¬(frame.getD 12 0 ≠ 1 ∨ frame.length < codedHeader
      ∨ frame.length≥data.length+headerBytes) := by
    rw [hkind]
    simp
    omega
  have hbds : ¬((ofFn states).any fun state =>
      decide (¬(low ≤ state ∧ state<low*256)))=true := by
    rw [any_eq_true]
    rintro ⟨state,hsta,hout⟩
    obtain ⟨l,rfl⟩ := mem_ofFn.mp hsta
    exact of_decide_eq_true hout (hrng l)
  have hln : (fun lane : Fin 4 => (ofFn states).getD lane 0)=states := by
    funext l
    rw [getD_eq_getElem _ _ (by simp),List.getElem_ofFn]
  rw [decode,if_neg hhdr,if_neg hone,if_neg hsize,hpai,
    chunksExact_flatMap (by decide) _ fun _ _ => by simp, htab]
  simp only [ok_bind]
  rw [hread,if_neg hbds,hln,hcode,hdec]
  simp

/-- Encoding succeeds on every input of one byte to 4 MiB, through a frequency table of total 4096
that covers every occurring byte, and decoding gives the input back. A result shows that no `u32`
overflowed and that every loop ended: these are failures of their own. -/
theorem public_entropy_round_trip (data : List Byte) (hne : data ≠ []) (h : data.length≤limit) :
    (∃ frequencies, normalize data = .ok frequencies ∧ frequencies.length=256 ∧
      frequencies.sum=4096 ∧ ∀ byte∈data, 1 ≤ frequencies.getD byte.toNat 0) ∧
    ∃ frame, encode data = .ok frame ∧ decode frame data.length = .ok data := by
  obtain ⟨frequencies,hnor,hmod⟩ := normalize_spec hne
  refine ⟨⟨frequencies,hnor,hmod.length,hmod.sum,hmod.pos⟩,?_⟩
  rw [encode,if_neg (by rintro (hnil | hlong); exacts [hne hnil,absurd h (by omega)])]
  by_cases hsho : data.length ≤ codedHeader
  · exact ⟨_,if_pos hsho,decode_raw hne h⟩
  · obtain ⟨table,htab,-,hcov⟩ := buildTable_spec frequencies 0 0
      (replicate total ⟨0,0,0⟩) length_replicate (by rw [hmod.sum]; omega)
    rw [hmod.sum] at htab
    obtain ⟨out,hout,hspec⟩ := encodeSymbols_spec hmod.sum hmod.length hcov data.length 0
      hmod.pos
    rw [if_neg hsho,hnor,ok_bind,hout]
    cases out with
    | none => exact ⟨_,rfl,decode_raw hne h⟩
    | some pair =>
      obtain ⟨states,coded⟩ := pair
      obtain ⟨hrng,hlen,hdec⟩ := hspec states coded rfl
      exact ⟨_,rfl,decode_codedFrame h hmod hrng (hlen hne) htab hdec⟩

/-- An input that is coded in fewer bytes. -/
theorem public_entropy_round_trip_at :
    let data : List Byte := replicate 600 7++[9,8]
    ∃ frame, encode data = .ok frame ∧ frame.length=543 ∧ decode frame data.length = .ok data := by
  intro data
  obtain ⟨frame,encoded,decoded⟩ := (public_entropy_round_trip data
    (append_ne_nil_of_right_ne_nil _ (by decide)) (by decide +kernel)).2
  have length : (encode data).toOption.map List.length=some 543 := by decide +kernel
  rw [encoded] at length
  exact ⟨frame,encoded,Option.some.inj length,decoded⟩

end Pllm.Entropy
