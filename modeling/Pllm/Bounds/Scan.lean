import Pllm.Lib.Except

/-! The ordered scan of a public matrix, and the certificate that it ends with. The sums are
checked words of 128 bits, the offsets words of 64 bits. -/
namespace Pllm.Bounds

def maxRows : ℕ := 16384
def maxColumns : ℕ := 16384

inductive Error
  | shape
  | bounds
  | allocation
  | retired

def checkedAdd (a b : ℕ) : Except Error ℕ := if a+b<2^128 then .ok (a+b) else .error .bounds
def checkedMul (a b : ℕ) : Except Error ℕ := if a*b<2^128 then .ok (a*b) else .error .bounds
def squared (radius : ℕ) : Except Error ℕ := checkedMul radius radius

def shape (rows columns : ℕ) : Except Error Unit :=
  if rows=0 ∨ rows>maxRows ∨ columns=0 ∨ columns>maxColumns then .error .shape
  else if rows*columns<2^64 then .ok () else .error .bounds

/-- Bounds of a complete matrix. -/
structure MatrixCertificate where
  rows : ℕ
  columns : ℕ
  maximumRowL1 : ℕ
  maximumColumnL1 : ℕ
  frobeniusSquared : ℕ
  maximumRowSquaredEnergy : ℕ

def MatrixCertificate.fromBounds (rows columns maximumRowL1 maximumColumnL1 frobeniusSquared : ℕ) :
    Except Error MatrixCertificate := do
  shape rows columns
  pure ⟨rows,columns,maximumRowL1,maximumColumnL1,frobeniusSquared,frobeniusSquared⟩

structure RowEnergyCertificate where
  rows : ℕ
  columns : ℕ
  maximumRowSquaredEnergy : ℕ

/-- Without columns only the energies of the rows are scanned. -/
structure Pending where
  columns : List ℕ
  width : ℕ
  rows : ℕ
  offset : ℕ
  currentRow : ℕ
  maximumRow : ℕ
  frobeniusSquared : ℕ
  currentRowSquared : ℕ
  maximumRowSquared : ℕ

namespace Pending

def complete (p : Pending) : Except Error Unit :=
  if p.offset≠p.rows*p.width ∨ p.currentRow≠0 ∨ p.currentRowSquared≠0 then .error .shape
  else .ok ()

/-- The sums of a full scan. -/
def total (p : Pending) (magnitude square : ℕ) : Except Error Pending :=
  if p.columns=[] then .ok p
  else do
    let column := p.offset % p.width
    let sum ← checkedAdd (p.columns.getD column 0) magnitude
    let currentRow ← checkedAdd p.currentRow magnitude
    let frobeniusSquared ← checkedAdd p.frobeniusSquared square
    pure { p with
      columns := p.columns.set column sum
      currentRow := currentRow
      frobeniusSquared := frobeniusSquared }

/-- The next place, and at the end of a row its maxima. -/
def advance (p : Pending) : Pending :=
  if (p.offset+1) % p.width=0 then { p with
    offset := p.offset+1
    maximumRow := max p.maximumRow p.currentRow
    currentRow := 0
    maximumRowSquared := max p.maximumRowSquared p.currentRowSquared
    currentRowSquared := 0 }
  else { p with offset := p.offset+1 }

def push (last : ℕ) (p : Pending) (value : ℤ) : Except Error Pending :=
  if p.offset=last then .error .shape
  else do
    let square ← squared value.natAbs
    let currentRowSquared ← checkedAdd p.currentRowSquared square
    let p ← total { p with currentRowSquared := currentRowSquared } value.natAbs square
    pure p.advance

end Pending

/-- A scan, until an error or its end retires it. -/
structure MatrixScan where
  pending : Option Pending

namespace MatrixScan

/-- `stateBytes` is the size of the owner and of its working state. -/
def payloadBytes (stateBytes rows columns : ℕ) : Except Error ℕ := do
  shape rows columns
  if columns*16+stateBytes<2^64 then .ok (columns*16+stateBytes) else .error .bounds

def start (rows width : ℕ) (columns : List ℕ) : MatrixScan :=
  ⟨some ⟨columns,width,rows,0,0,0,0,0,0⟩⟩

/-- `granted` says whether the allocator grants the sums of the columns. -/
def new (stateBytes : ℕ) (granted : Bool) (rows columns payloadLimit : ℕ) :
    Except Error MatrixScan := do
  let bytes ← payloadBytes stateBytes rows columns
  if bytes>payloadLimit then .error .bounds
  else if !granted then .error .allocation
  else .ok (start rows columns (List.replicate columns 0))

def rowEnergyPayloadBytes (stateBytes rows columns : ℕ) : Except Error ℕ :=
  if rows=0 ∨ columns=0 then .error .shape
  else if rows*columns<2^64 then .ok stateBytes else .error .bounds

def newRowEnergy (stateBytes rows columns payloadLimit : ℕ) : Except Error MatrixScan := do
  let bytes ← rowEnergyPayloadBytes stateBytes rows columns
  if bytes>payloadLimit then .error .bounds else .ok (start rows columns [])

/-- An iterator says its length, which is checked against what it yields. -/
def appendIter (s : MatrixScan) (offset length : ℕ) (values : List ℤ) :
    Except Error Unit × MatrixScan :=
  match s.pending with
  | none => (.error .retired,⟨none⟩)
  | some p =>
    let last := offset+length
    if ¬last < 2^64 then (.error .shape,⟨none⟩)
    else if length=0 ∨ offset≠p.offset ∨ last>p.rows*p.width then (.error .shape,⟨none⟩)
    else match values.foldlM (Pending.push last) p with
      | .error e => (.error e,⟨none⟩)
      | .ok p => if p.offset≠last then (.error .shape,⟨none⟩) else (.ok (),⟨some p⟩)

/-- A call of a scan: where it starts, how many values it announces, and the values. -/
structure Call where
  offset : ℕ
  length : ℕ
  values : List ℤ

def run (s : MatrixScan) (calls : List Call) : MatrixScan :=
  calls.foldl (fun s c => (s.appendIter c.offset c.length c.values).2) s

def finish (s : MatrixScan) : Except Error MatrixCertificate :=
  match s.pending with
  | none => .error .retired
  | some p => do
    p.complete
    match p.columns.max? with
    | none => .error .shape
    | some maximumColumn => do
      let certificate ← MatrixCertificate.fromBounds p.rows p.width p.maximumRow maximumColumn
        p.frobeniusSquared
      pure { certificate with maximumRowSquaredEnergy := p.maximumRowSquared }

def finishRowEnergy (s : MatrixScan) : Except Error RowEnergyCertificate :=
  match s.pending with
  | none => .error .retired
  | some p => do
    p.complete
    pure ⟨p.rows,p.width,p.maximumRowSquared⟩

end MatrixScan

open Pllm.Lib Finset

/-- The sum of the row that is being read and the greatest sum of a complete row, after `n` places
of rows of `width`. -/
structure Tally (f : ℕ → ℕ) (width n current maximum : ℕ) : Prop where
  current : current = ∑ k ∈ Finset.Ico (n/width*width) n,f k
  maximum : maximum = (Finset.range (n/width)).sup fun r => ∑ j ∈ Finset.range width,f (r*width+j)

namespace Tally

variable {f : ℕ → ℕ} {width n current maximum : ℕ}

lemma start (f : ℕ → ℕ) (width : ℕ) : Tally f width 0 0 0 := ⟨by simp,by simp⟩

section
variable (tally : Tally f width n current maximum)
include tally

lemma grown : current+f n = ∑ k ∈ Ico (n/width*width) (n+1),f k := by
  rw [sum_Ico_succ_top (Nat.div_mul_le_self n width),tally.current]

lemma within (more : (n+1) % width ≠ 0) : Tally f width (n+1) (current+f n) maximum := by
  have same : (n+1)/width=n/width := by
    rw [Nat.succ_div,if_neg fun dvd => more (Nat.mod_eq_zero_of_dvd dvd),add_zero]
  refine ⟨?_,?_⟩
  · rw [same]
    exact tally.grown
  · rw [same]
    exact tally.maximum

lemma close (last : (n+1) % width = 0) : Tally f width (n+1) 0 (max maximum (current+f n)) := by
  have next : (n+1)/width=n/width+1 := by
    rw [Nat.succ_div,if_pos (Nat.dvd_of_mod_eq_zero last)]
  have stop : (n/width+1)*width=n+1 := by
    rw [← next]
    exact Nat.div_mul_cancel (Nat.dvd_of_mod_eq_zero last)
  refine ⟨by rw [next,stop]; simp,?_⟩
  rw [next,range_add_one,sup_insert,max_comm,← tally.maximum,tally.grown]
  congr 1
  have count : n+1-n/width*width=width := by
    rw [← stop,Nat.succ_mul]
    omega
  rw [sum_Ico_eq_sum_range,count]

end

end Tally

/-- The exact sums of the columns and of everything. -/
structure Totals (v : ℕ → ℤ) (n : ℕ) (p : Pending) : Prop where
  length : p.columns.length=p.width
  columns : ∀ c<p.width,p.columns.getD c 0 =
    ∑ k ∈ Finset.range n,if k % p.width = c then (v k).natAbs else 0
  rows : Tally (fun k => (v k).natAbs) p.width n p.currentRow p.maximumRow
  frobenius : p.frobeniusSquared = ∑ k ∈ Finset.range n,(v k).natAbs^2
  small : p.frobeniusSquared<2^128

/-- The state of a scan that has read the first `n` values of a stream. -/
structure Exact (v : ℕ → ℤ) (rows width n : ℕ) (p : Pending) : Prop where
  pos : 0<width
  width_eq : p.width=width
  rows_eq : p.rows=rows
  offset : p.offset=n
  squares : Tally (fun k => (v k).natAbs^2) width n p.currentRowSquared p.maximumRowSquared
  small : p.currentRowSquared<2^128 ∧ p.maximumRowSquared<2^128
  totals : p.columns ≠ [] → Totals v n p
  idle : p.columns = [] → p.currentRow=0

lemma checkedAdd_eq_ok {a b c : ℕ} : checkedAdd a b = .ok c ↔ a+b<2^128 ∧ a+b=c := by
  rw [checkedAdd,ite_ok_eq_ok]

lemma checkedMul_eq_ok {a b c : ℕ} : checkedMul a b = .ok c ↔ a*b<2^128 ∧ a*b=c := by
  rw [checkedMul,ite_ok_eq_ok]

lemma squared_eq_ok {a c : ℕ} : squared a = .ok c ↔ a^2<2^128 ∧ a^2=c := by
  rw [squared,checkedMul_eq_ok,sq]

namespace Exact

variable {v : ℕ → ℤ} {rows width n : ℕ} {p p' : Pending}

/-- The sums of the state after the value at `n`, before a row is closed. -/
structure Added (v : ℕ → ℤ) (n : ℕ) (p p' : Pending) : Prop where
  width : p'.width=p.width
  rows : p'.rows=p.rows
  offset : p'.offset=p.offset
  columns : p'.columns = [] ↔ p.columns = []
  maximumRow : p'.maximumRow=p.maximumRow
  squares : p'.maximumRowSquared=p.maximumRowSquared
  square : p'.currentRowSquared = p.currentRowSquared+(v n).natAbs^2
  below : p'.currentRowSquared<2^128
  idle : p.columns = [] → p'.currentRow=p.currentRow
  length : p'.columns.length=p.columns.length
  sums : p.columns ≠ [] → ∀ c<p.columns.length,p'.columns.getD c 0 =
    p.columns.getD c 0 + if p.offset % p.width = c then (v n).natAbs else 0
  current : p.columns ≠ [] → p'.currentRow = p.currentRow+(v n).natAbs
  frobenius : p.columns ≠ [] → p'.frobeniusSquared = p.frobeniusSquared+(v n).natAbs^2
  small : p.columns ≠ [] → p'.frobeniusSquared<2^128

variable {last : ℕ}

lemma added (h : p.push last (v n) = .ok p') :
    p.offset≠last ∧ ∃ q,Added v n p q ∧ p'=q.advance := by
  unfold Pending.push at h
  split at h
  · cases h
  rename_i more
  obtain ⟨square,hs,h⟩ := bind_eq_ok.mp h
  obtain ⟨-,rfl⟩ := squared_eq_ok.mp hs
  obtain ⟨row,hr,h⟩ := bind_eq_ok.mp h
  obtain ⟨below,rfl⟩ := checkedAdd_eq_ok.mp hr
  obtain ⟨q,hq,h⟩ := bind_eq_ok.mp h
  refine ⟨more,q,?_,(ok_inj h).symm⟩
  unfold Pending.total at hq
  split at hq
  · rename_i none
    obtain rfl := ok_inj hq
    exact ⟨rfl,rfl,rfl,Iff.rfl,rfl,rfl,rfl,below,fun _ => rfl,rfl,fun some => absurd none some,
      fun some => absurd none some,fun some => absurd none some,fun some => absurd none some⟩
  · rename_i some
    obtain ⟨sum,hsum,hq⟩ := bind_eq_ok.mp hq
    obtain ⟨-,rfl⟩ := checkedAdd_eq_ok.mp hsum
    obtain ⟨current,hc,hq⟩ := bind_eq_ok.mp hq
    obtain ⟨-,rfl⟩ := checkedAdd_eq_ok.mp hc
    obtain ⟨frob,hf,hq⟩ := bind_eq_ok.mp hq
    obtain ⟨small,rfl⟩ := checkedAdd_eq_ok.mp hf
    obtain rfl := ok_inj hq
    refine ⟨rfl,rfl,rfl,by simp,rfl,rfl,rfl,below,fun none => absurd none some,List.length_set ..,
      fun _ c hc => ?_,fun _ => rfl,fun _ => rfl,fun _ => small⟩
    by_cases eq : p.offset % p.width=c
    · simp [eq,hc]
    · simp [eq]

lemma push (known : Exact v rows width n p) (h : p.push last (v n) = .ok p') :
    Exact v rows width (n+1) p' ∧ p.offset≠last ∧ (p'.columns = [] ↔ p.columns = []) := by
  obtain ⟨more,q,added,rfl⟩ := added h
  obtain ⟨pos,rfl,rfl,rfl,squares,small,totals,idle⟩ := known
  have columns (some : p.columns ≠ []) (c : ℕ) (hc : c<p.width) : q.columns.getD c 0 =
      ∑ k ∈ range (p.offset+1),if k % p.width = c then (v k).natAbs else 0 := by
    have totals := totals some
    rw [added.sums some c (totals.length.symm ▸ hc),totals.columns c hc,sum_range_succ]
  have frobenius (some : p.columns ≠ []) : q.frobeniusSquared =
      ∑ k ∈ range (p.offset+1),(v k).natAbs^2 := by
    rw [added.frobenius some,(totals some).frobenius,sum_range_succ]
  refine ⟨?_,more,?_⟩
  swap
  · unfold Pending.advance
    split <;> exact added.columns
  unfold Pending.advance
  rw [added.offset,added.width]
  split
  · rename_i last
    refine ⟨pos,rfl,added.rows,rfl,?_,⟨Nat.two_pow_pos 128,?_⟩,fun some => ?_,fun _ => rfl⟩
    · rw [added.squares,added.square]
      exact squares.close last
    · exact max_lt (added.squares ▸ small.2) added.below
    · have some : p.columns ≠ [] := fun none => some (added.columns.mpr none)
      refine ⟨added.length.trans (totals some).length,columns some,?_,frobenius some,
        added.small some⟩
      rw [added.maximumRow,added.current some]
      exact (totals some).rows.close last
  · rename_i more
    refine ⟨pos,rfl,added.rows,rfl,?_,⟨added.below,added.squares ▸ small.2⟩,fun some => ?_,
      fun none => ?_⟩
    · rw [added.squares,added.square]
      exact squares.within more
    · have some : p.columns ≠ [] := fun none => some (added.columns.mpr none)
      refine ⟨added.length.trans (totals some).length,columns some,?_,frobenius some,
        added.small some⟩
      rw [added.maximumRow,added.current some]
      exact (totals some).rows.within more
    · have none : p.columns=[] := added.columns.mp none
      exact (added.idle none).trans (idle none)

end Exact

namespace Exact

variable {v : ℕ → ℤ} {rows width n : ℕ} {p p' : Pending} {values : List ℤ}

lemma foldl (known : Exact v rows width n p) (h : values.foldlM
    (Pending.push last) p = .ok p') (same : ∀ i<values.length,values.getD i 0 = v (n+i)) : Exact v
    rows width (n+values.length) p' ∧ (p'.columns = [] ↔ p.columns = []) := by
  induction values generalizing p n with
  | nil =>
    obtain rfl := ok_inj h
    exact ⟨known,Iff.rfl⟩
  | cons x values ih =>
    obtain ⟨q,pushed,h⟩ := bind_eq_ok.mp h
    have first : x=v n := same 0 (Nat.succ_pos _)
    rw [first] at pushed
    obtain ⟨next,-,kind⟩ := known.push pushed
    have rest : ∀ i<values.length,values.getD i 0=v (n+1+i) := fun i hi => by
      rw [add_assoc,add_comm 1 i]
      exact same (i+1) (Nat.succ_lt_succ hi)
    obtain ⟨done,kind'⟩ := ih next h rest
    rw [List.length_cons,add_comm values.length 1,← add_assoc]
    exact ⟨done,kind'.trans kind⟩

/-- A call that is accepted takes the values at its place, as many as it announced. -/
lemma append {s' : MatrixScan} {offset length : ℕ} (known : Exact v rows width n p)
    (h : MatrixScan.appendIter ⟨some p⟩ offset length values = (.ok (),s'))
    (same : ∀ i<values.length,values.getD i 0 = v (n+i)) :
    (offset=n ∧ length=values.length ∧ length≠0 ∧ n+length ≤ rows*width) ∧ ∃ p',s' = ⟨some p'⟩ ∧
    Exact v rows width (n+values.length) p' ∧ (p'.columns = [] ↔ p.columns = []) := by
  unfold MatrixScan.appendIter at h
  dsimp only at h
  split at h
  · cases h
  split at h
  · cases h
  rename_i ordered
  split at h
  · cases h
  rename_i q pushed
  split at h
  · cases h
  rename_i ends
  cases h
  simp only [not_or,not_not,not_lt] at ordered ends
  obtain ⟨done,kind⟩ := known.foldl pushed same
  have here : offset=n := ordered.2.1.trans known.offset
  have count : length=values.length := by
    have := done.offset.symm.trans ends
    omega
  have room : n+length ≤ rows*width := by
    rw [← here,← known.rows_eq,← known.width_eq]
    exact ordered.2.2
  exact ⟨⟨here,count,ordered.1,room⟩,q,rfl,done,kind⟩

end Exact

namespace MatrixScan

variable (s : MatrixScan) (c : Call) (calls : List Call)

@[simp] lemma run_cons :
    s.run (c::calls) = (s.appendIter c.offset c.length c.values).2.run calls := rfl

lemma run_retired : run ⟨none⟩ calls = ⟨none⟩ := by
  induction calls with
  | nil => rfl
  | cons c calls ih => exact ih

lemma appendIter_cases (offset length : ℕ) (values : List ℤ) : (∃ e,s.appendIter offset length
    values = (.error e,⟨none⟩)) ∨ ∃ p,s.appendIter offset length values = (.ok (),⟨some p⟩) := by
  unfold appendIter
  split
  · exact .inl ⟨_,rfl⟩
  dsimp only
  split
  · exact .inl ⟨_,rfl⟩
  split
  · exact .inl ⟨_,rfl⟩
  split
  · exact .inl ⟨_,rfl⟩
  split
  · exact .inl ⟨_,rfl⟩
  · exact .inr ⟨_,rfl⟩

end MatrixScan

/-- All values that the calls bring. -/
def streamed (calls : List MatrixScan.Call) : List ℤ := calls.flatMap fun c => c.values

lemma getD_append_add {x y : List ℤ} (i : ℕ) : (x++y).getD (x.length+i) 0 = y.getD i 0 := by
  simp [List.getElem?_append_right]

/-- A scan that is not retired has taken everything. -/
lemma Exact.run {v : ℕ → ℤ} {rows width n : ℕ} {p p' : Pending} {calls : List MatrixScan.Call}
    (known : Exact v rows width n p) (h : MatrixScan.run ⟨some p⟩ calls = ⟨some p'⟩)
    (same : ∀ i < (streamed calls).length,(streamed calls).getD i 0 = v (n+i)) :
    Exact v rows width (n+(streamed calls).length) p' ∧ (p'.columns = [] ↔ p.columns = []) := by
  induction calls generalizing p n with
  | nil =>
    obtain rfl := some_inj (congrArg MatrixScan.pending h)
    exact ⟨known,Iff.rfl⟩
  | cons c calls ih =>
    rw [MatrixScan.run_cons] at h
    have split : streamed (c::calls)=c.values++streamed calls := rfl
    rw [split,List.length_append] at same ⊢
    rcases MatrixScan.appendIter_cases ⟨some p⟩ c.offset c.length c.values with ⟨e,eq⟩ | ⟨q,eq⟩
    · rw [eq,MatrixScan.run_retired] at h
      cases h
    · have head : ∀ i < c.values.length,c.values.getD i 0=v (n+i) := fun i hi => by
        rw [← same i (by omega)]
        simp [List.getElem?_append_left hi]
      obtain ⟨-,q',same',done,kind⟩ := known.append eq head
      obtain rfl := some_inj (congrArg MatrixScan.pending same')
      rw [eq] at h
      have tail : ∀ i < (streamed calls).length,(streamed calls).getD i 0 =
          v (n+c.values.length+i) := fun i hi => by
        rw [add_assoc,← same (c.values.length+i) (by omega),getD_append_add]
      obtain ⟨all,kind'⟩ := ih done h tail
      rw [← add_assoc]
      exact ⟨all,kind'.trans kind⟩

lemma sum_rows (f : ℕ → ℕ) (width rows : ℕ) : ∑ k ∈ range (rows*width),f k =
    ∑ i ∈ range rows,∑ j ∈ range width,f (i*width+j) := by
  induction rows with
  | zero => simp
  | succ rows ih => rw [Nat.succ_mul,sum_range_add,ih,sum_range_succ]

/-- The entry of a matrix of `columns` columns whose values come row by row. -/
def entry (values : List ℤ) (columns i j : ℕ) : ℤ := values.getD (i*columns+j) 0

/-- The exact statistics of a matrix. -/
structure Statistics (values : List ℤ) (rows columns : ℕ) (c : MatrixCertificate) : Prop where
  rows_eq : c.rows=rows
  columns_eq : c.columns=columns
  maximumRowL1 : c.maximumRowL1 = (Finset.range rows).sup fun i =>
    ∑ j ∈ Finset.range columns,(entry values columns i j).natAbs
  maximumColumnL1 : c.maximumColumnL1 = (Finset.range columns).sup fun j =>
    ∑ i ∈ Finset.range rows,(entry values columns i j).natAbs
  frobeniusSquared : c.frobeniusSquared = ∑ i ∈ Finset.range rows,∑ j ∈ Finset.range columns,
    (entry values columns i j).natAbs^2
  maximumRowSquaredEnergy : c.maximumRowSquaredEnergy = (Finset.range rows).sup fun i =>
    ∑ j ∈ Finset.range columns,(entry values columns i j).natAbs^2

lemma Tally.complete {f : ℕ → ℕ} {width rows current maximum : ℕ} (pos : 0<width)
    (tally : Tally f width (rows*width) current maximum) : current=0 ∧
      maximum = (range rows).sup fun r => ∑ j ∈ range width,f (r*width+j) := by
  have div : rows*width/width=rows := Nat.mul_div_cancel rows pos
  refine ⟨?_,?_⟩
  · rw [tally.current,div]
    simp
  · rw [tally.maximum,div]

namespace Exact

variable {values : List ℤ} {rows width : ℕ} {p : Pending}

section
variable (known : Exact (values.getD · 0) rows width (rows*width) p)
include known

lemma complete : p.complete = .ok () := by
  have squares := (known.squares.complete known.pos).1
  have row : p.currentRow=0 := by
    by_cases none : p.columns=[]
    · exact known.idle none
    · have rows' := (known.totals none).rows
      rw [known.width_eq] at rows'
      exact (rows'.complete known.pos).1
  rw [Pending.complete]
  simp [known.offset,known.rows_eq,known.width_eq,squares,row]

lemma finish (full : p.columns ≠ []) (sized : shape rows width = .ok ()) :
    ∃ c,MatrixScan.finish ⟨some p⟩ = .ok c ∧ Statistics values rows width c := by
  have totals := known.totals full
  have length := totals.length
  have columns := totals.columns
  have lines := totals.rows
  rw [known.width_eq] at length columns lines
  cases maximum : p.columns.max? with
  | none => exact absurd (List.max?_eq_none_iff.mp maximum) full
  | some m =>
    obtain ⟨mem,above⟩ := List.max?_eq_some_iff.mp maximum
    have column (j : ℕ) (hj : j<width) : p.columns.getD j 0 =
        ∑ i ∈ range rows,(entry values width i j).natAbs := by
      rw [columns j hj,sum_rows]
      refine sum_congr rfl fun i _ => ?_
      have place (k : ℕ) (hk : k ∈ range width) : (i*width+k) % width=k := by
        rw [mul_comm,Nat.mul_add_mod,Nat.mod_eq_of_lt (mem_range.mp hk)]
      rw [sum_congr rfl fun k hk => by rw [place k hk],sum_ite_eq',if_pos (mem_range.mpr hj)]
      rfl
    have greatest : m=(range width).sup fun j =>
        ∑ i ∈ range rows,(entry values width i j).natAbs := by
      refine le_antisymm ?_ (Finset.sup_le fun j hj => ?_)
      · obtain ⟨j,hj,rfl⟩ := List.getElem_of_mem mem
        have inside : j<width := length ▸ hj
        have here : p.columns[j]=p.columns.getD j 0 := by
          simp [hj]
        rw [here,column j inside]
        exact le_sup (f := fun j => ∑ i ∈ range rows,(entry values width i j).natAbs)
          (mem_range.mpr inside)
      · have hj := mem_range.mp hj
        rw [← column j hj]
        refine above _ ?_
        have inside : j<p.columns.length := length.symm ▸ hj
        rw [List.getD_eq_getElem?_getD,List.getElem?_eq_getElem inside]
        exact List.getElem_mem inside
    refine ⟨⟨rows,width,p.maximumRow,m,p.frobeniusSquared,p.maximumRowSquared⟩,?_,rfl,rfl,
      (lines.complete known.pos).2,greatest,?_,(known.squares.complete known.pos).2⟩
    · simp only [MatrixScan.finish,known.complete,ok_bind,maximum,MatrixCertificate.fromBounds,
        known.rows_eq,known.width_eq,sized,pure_eq_ok]
    · exact totals.frobenius.trans (sum_rows _ width rows)

lemma finishRowEnergy : MatrixScan.finishRowEnergy ⟨some p⟩ = .ok
    ⟨rows,width,(range rows).sup fun i => ∑ j ∈ range width,(entry values width i j).natAbs^2⟩ := by
  simp only [MatrixScan.finishRowEnergy,known.complete,ok_bind,known.rows_eq,known.width_eq,
    (known.squares.complete known.pos).2,pure_eq_ok]
  rfl

end

end Exact

end Pllm.Bounds
