import Pllm.Rms.RmsNorm

/-! The softmax from scores with twenty fraction bits to probabilities with thirty: a row is weighed
against its largest allowed score, divided, and corrected there so that it sums to one. -/
namespace Pllm.Softmax
open Pllm.Lib Pllm.Rms List Nat

inductive SoftmaxQ30Error
  | invalidDimension (axis : String)
  | shapeOverflow
  | lengthMismatch (tensor : String) (expected actual : ℕ)
  | invalidPolicyLimit (limit : String)
  | policyLimitExceedsHardCap (limit : String) (value maximum : ℕ)
  | resourceLimitExceeded (elements maximum : ℕ)
  | rowLengthLimitExceeded (rowLength maximum : ℕ)
  | nonFiniteExponential
  | arithmeticOverflow
  | allocationFailed

def q30One : ℤ := 2^30

def maxRowLength : ℕ := 32768

def maxElements : ℕ := 16*1024*1024

structure SoftmaxQ30Policy where
  maxElements : ℕ
  maxRowLength : ℕ
  elements_mem : 0 < maxElements ∧ maxElements≤Softmax.maxElements
  rowLength_mem : 0 < maxRowLength ∧ maxRowLength≤Softmax.maxRowLength

def SoftmaxQ30Policy.new (elements rowLength : ℕ) : Except SoftmaxQ30Error SoftmaxQ30Policy :=
  if h₁ : elements=0 then .error (.invalidPolicyLimit "max_elements")
  else if h₂ : rowLength=0 then .error (.invalidPolicyLimit "max_row_length")
  else if h₃ : elements > Softmax.maxElements then
    .error (.policyLimitExceedsHardCap "max_elements" elements Softmax.maxElements)
  else if h₄ : rowLength > Softmax.maxRowLength then
    .error (.policyLimitExceedsHardCap "max_row_length" rowLength Softmax.maxRowLength)
  else .ok ⟨elements,rowLength,⟨Nat.pos_of_ne_zero h₁,not_lt.mp h₃⟩,Nat.pos_of_ne_zero h₂,not_lt.mp h₄⟩

structure Shape where
  batch : ℕ
  heads : ℕ
  query : ℕ
  key : ℕ

def Shape.axes (shape : Shape) : List (String × ℕ) :=
  [("batch",shape.batch),("heads",shape.heads),("query",shape.query),("key",shape.key)]

structure SoftmaxProbabilitiesQ30 where
  probabilities : List ℤ
  shape : Shape

def checkedMul (accumulator dimension : ℕ) : Except SoftmaxQ30Error ℕ :=
  if accumulator*dimension<2^64 then .ok (accumulator*dimension) else .error .shapeOverflow

def validate (scores allowed : ℕ) (shape : Shape) (policy : SoftmaxQ30Policy) :
    Except SoftmaxQ30Error Unit :=
  match shape.axes.find? (·.2 = 0) with
  | some axis => .error (.invalidDimension axis.1)
  | none => do
    let elements ← (shape.axes.map (·.2)).foldlM checkedMul 1
    if scores≠elements then .error (.lengthMismatch "scores" elements scores)
    else if allowed≠elements then .error (.lengthMismatch "allowed" elements allowed)
    else if elements>maxElements ∨ elements>policy.maxElements then
      .error (.resourceLimitExceeded elements (min maxElements policy.maxElements))
    else if shape.key>maxRowLength ∨ shape.key>policy.maxRowLength then
      .error (.rowLengthLimitExceeded shape.key (min maxRowLength policy.maxRowLength))
    else .ok ()

/-- A signed integer of so many bits. -/
def checked (bits : ℕ) (n : ℤ) : Except SoftmaxQ30Error ℤ :=
  if -2^(bits-1) ≤ n ∧ n<2^(bits-1) then .ok n else .error .arithmeticOverflow

/-- The place and the score of the first largest allowed entry. -/
def maximumEntry : List (BitVec 64 × Bool) → ℕ → Option (ℕ × ℤ) → Option (ℕ × ℤ)
  | [],_,maximum => maximum
  | (score,isAllowed) :: row,index,maximum => maximumEntry row (index+1) <|
    if isAllowed ∧ maximum.all (score.toInt > ·.2) then some (index,score.toInt) else maximum

/-- `exponential` takes the difference of two scores to a finite float, scaling included. -/
def weight (exponential : ℤ → Option ℚ) (delta : ℤ) : Except SoftmaxQ30Error ℕ :=
  match exponential delta with
  | none => .error .nonFiniteExponential
  | some exponential =>
    let scaled := exponential*2^30
    if exponential<0 ∨ scaled≥2^1024 then .error .nonFiniteExponential
    -- the cast to an unsigned integer saturates
    else .ok (min (roundQuotient scaled.num scaled.den).toNat (2^64-1))

def weigh (exponential : ℤ → Option ℚ) (maximumScore : ℤ) (weights : List ℕ × ℕ)
    (entry : BitVec 64 × Bool) : Except SoftmaxQ30Error (List ℕ × ℕ) :=
  if entry.2 then do
    let weight ← weight exponential (entry.1.toInt-maximumScore)
    if weights.2+weight<2^128 then .ok (weights.1++[weight],weights.2+weight)
    else .error .arithmeticOverflow
  else .ok (weights.1++[0],weights.2)

def divide (denominator : ℤ) (probabilities : List ℤ × ℤ) (weight : ℕ) :
    Except SoftmaxQ30Error (List ℤ × ℤ) :=
  if weight=0 then .ok (probabilities.1++[0],probabilities.2)
  else do
    let probability ← checked 32 (roundQuotient (weight*2^30) denominator)
    let sum ← checked 64 (probabilities.2+probability)
    return (probabilities.1++[probability],sum)

def softmaxRow (exponential : ℤ → Option ℚ) (granted : Bool) (row : List (BitVec 64 × Bool)) :
    Except SoftmaxQ30Error (List ℤ) :=
  match maximumEntry row 0 none with
  | none => .ok (List.replicate row.length 0)
  | some (maximumIndex,maximumScore) =>
    if ¬granted then .error .allocationFailed
    else do
      let (weights,weightSum) ← row.foldlM (weigh exponential maximumScore) ([],0)
      let denominator ← checked 128 weightSum
      let (probabilities,probabilitySum) ← weights.foldlM (divide denominator) ([],0)
      let corrected ← checked 64 (probabilities.getD maximumIndex 0+(q30One-probabilitySum))
      if 0 ≤ corrected ∧ corrected≤q30One then do
        let corrected ← checked 32 corrected
        return probabilities.set maximumIndex corrected
      else .error .arithmeticOverflow

def rowAt (scores : List (BitVec 64)) (allowed : List Bool) (key row : ℕ) :
    List (BitVec 64 × Bool) :=
  (slice scores (key*row) key).zip (slice allowed (key*row) key)

/-- `grants` tells which of the numbered allocations succeed: the output, then a row's weights. -/
def softmaxQ20ToQ30 (exponential : ℤ → Option ℚ) (grants : ℕ → Bool) (scores : List (BitVec 64))
    (allowed : List Bool) (shape : Shape) (policy : SoftmaxQ30Policy) :
    Except SoftmaxQ30Error SoftmaxProbabilitiesQ30 := do
  validate scores.length allowed.length shape policy
  if ¬grants 0 then .error .allocationFailed
  else do
    let rows ← (List.range (scores.length/shape.key)).mapM fun row =>
      softmaxRow exponential (grants (row+1)) (rowAt scores allowed shape.key row)
    return ⟨rows.flatten,shape⟩

lemma checked_ok {bits : ℕ} {n : ℤ} (low : 0≤n) (high : n<2^(bits-1)) : checked bits n = .ok n :=
  if_pos ⟨(neg_nonpos.mpr (by positivity)).trans low,high⟩

lemma mul_roundQuotient_mem (n : ℤ) {d : ℤ} (hd : 0<d) :
    2*n-d ≤ 2*(d*roundQuotient n d) ∧ 2*(d*roundQuotient n d) ≤ 2*n+d := by
  have split := Int.mul_ediv_add_emod n d
  have low := Int.emod_nonneg n hd.ne'
  have high := Int.emod_lt_of_pos n hd
  have up : d*(n/d+1)=d*(n/d)+d := by ring
  rw [roundQuotient]
  split_ifs <;> constructor <;> omega

lemma roundQuotient_mem {n d m : ℤ} (hd : 0<d) (low : 0≤n) (high : n ≤ m*d) :
    0 ≤ roundQuotient n d ∧ roundQuotient n d ≤ m := by
  obtain ⟨below,above⟩ := mul_roundQuotient_mem n hd
  constructor <;> by_contra h <;> nlinarith

section
variable {exponential : ℤ → Option ℚ}

/-- What is assumed of the exponential of a difference that is not positive. -/
structure IsExponential (exponential : ℤ → Option ℚ) : Prop where
  one : exponential 0 = some 1
  bounded : ∀ d≤0,∃ e,exponential d = some e ∧ 0≤e ∧ e≤1

lemma IsExponential.weight (h : IsExponential exponential) {d : ℤ} (hd : d≤0) :
    ∃ w,weight exponential d = .ok w ∧ w≤2^30 ∧ (d=0 → w=2^30) := by
  obtain ⟨e,eval,low,high⟩ := h.bounded d hd
  have den : 0<(e*2^30).den := (e*2^30).den_pos
  have range := roundQuotient_mem (n := (e*2^30).num) (d := (e*2^30).den) (m := 2^30)
    (by exact_mod_cast den) (Rat.num_nonneg.mpr (by positivity)) (by
      have value : ((e*2^30).num:ℚ)=e*2^30*(e*2^30).den := (Rat.mul_den_eq_num _).symm
      have : ((e*2^30).num:ℚ)≤2^30*(e*2^30).den := by
        rw [value]
        gcongr
        linarith
      exact_mod_cast this)
  refine ⟨min (roundQuotient (e*2^30).num (e*2^30).den).toNat (2^64-1),?_,?_,?_⟩
  · unfold Softmax.weight
    rw [eval]
    refine if_neg (not_or.mpr ⟨low.not_gt,not_le.mpr ?_⟩)
    exact (mul_le_of_le_one_left (by positivity) high).trans_lt
      (pow_lt_pow_right₀ (by norm_num) (by norm_num))
  · omega
  · rintro rfl
    obtain rfl : 1=e := Option.some.inj (h.one.symm.trans eval)
    decide +kernel

/-- An entry of a row and its weight. -/
def Weighs (maximumScore : ℤ) (entry : BitVec 64 × Bool) (weight : ℕ) : Prop :=
  weight≤2^30 ∧ (entry.2=false → weight=0) ∧
    (entry.2=true → entry.1.toInt=maximumScore → weight=2^30)

lemma weigh_row (h : IsExponential exponential)
    {s : ℤ} {row : List (BitVec 64 × Bool)} (below : ∀ e∈row,e.2=true → e.1.toInt ≤ s)
    {start : List ℕ × ℕ} (room : start.2+row.length*2^30<2^128) : ∃ ws,row.foldlM
    (weigh exponential s) start = .ok (start.1++ws,start.2+ws.sum) ∧ Forall₂ (Weighs s) row ws := by
  induction row generalizing start with
  | nil => exact ⟨[],by simp,.nil⟩
  | cons e row ih =>
    rw [length_cons] at room
    have step : ∃ w,weigh exponential s start e = .ok (start.1++[w],start.2+w) ∧ Weighs s e w := by
      unfold weigh
      split
      · obtain ⟨w,eval,high,top⟩ := h.weight (sub_nonpos.mpr (below e mem_cons_self ‹_›))
        refine ⟨w,?_,high,fun h => by simp_all,fun _ eq => top (sub_eq_zero.mpr eq)⟩
        rw [eval,ok_bind,if_pos (by omega)]
      · exact ⟨0,rfl,zero_le _,fun _ => rfl,fun h => absurd h ‹_›⟩
    obtain ⟨w,eval,hw⟩ := step
    obtain ⟨ws,run,all⟩ := ih (fun e m => below e (mem_cons_of_mem _ m))
      (show (start.1++[w],start.2+w).2+_ < _ by have := hw.1; dsimp only; omega)
    refine ⟨w :: ws,?_,.cons hw all⟩
    rw [foldlM_cons,eval,ok_bind,run]
    simp [add_assoc]

/-- The probability of a weight before the correction. -/
def share (denominator : ℤ) (weight : ℕ) : ℤ := roundQuotient (weight*2^30) denominator

variable {d : ℤ}

lemma mul_share_mem (hd : 0<d) (w : ℕ) : 2*(w*2^30)-d ≤ 2*(d*share d w) ∧
    2*(d*share d w) ≤ 2*(w*2^30)+d :=
  mul_roundQuotient_mem _ hd

lemma share_mem (hd : 0<d) {w : ℕ} (hw : (w : ℤ) ≤ d) : 0 ≤ share d w ∧ share d w ≤ 2^30 :=
  roundQuotient_mem hd (by positivity) (by rw [mul_comm]; gcongr)

lemma share_zero (hd : 0<d) : share d 0 = 0 := by
  have := roundQuotient_mem hd le_rfl (zero_mul d).ge
  simp only [share,cast_zero,zero_mul]
  omega

lemma divide_row (hd : 0<d) {ws : List ℕ} (small : ∀ w∈ws,(w : ℤ) ≤ d)
    {start : List ℤ × ℤ} (low : 0 ≤ start.2) (room : start.2+ws.length*2^30<2^63) : ws.foldlM
    (divide d) start = .ok (start.1++ws.map (share d),start.2+(ws.map (share d)).sum) := by
  induction ws generalizing start with
  | nil => simp
  | cons w ws ih =>
    obtain ⟨pos,le⟩ := share_mem hd (small w mem_cons_self)
    rw [length_cons] at room
    push_cast at room
    have step : divide d start w = .ok (start.1++[share d w],start.2+share d w) := by
      unfold divide
      split
      · subst w
        rw [share_zero hd,add_zero]
      · rw [← share,checked_ok pos (lt_of_le_of_lt le (by norm_num)),ok_bind,
          checked_ok (by omega) (by omega)]
        rfl
    rw [foldlM_cons,step,ok_bind,ih (fun w m => small w (mem_cons_of_mem _ m))
      (by dsimp only; omega) (by dsimp only; omega)]
    simp [add_assoc]

lemma sum_share_le (hd : 0<d) (ws : List ℕ) :
    2*(d*(ws.map (share d)).sum) ≤ 2^31*(ws.sum:ℕ)+ws.length*d := by
  induction ws with
  | nil => simp
  | cons w ws ih =>
    have := (mul_share_mem hd w).2
    simp only [map_cons,sum_cons,length_cons,mul_add,cast_add,cast_one, add_mul,one_mul]
    linarith

lemma maximumEntry_spec (row : List (BitVec 64 × Bool)) (index : ℕ) (start : Option (ℕ × ℤ)) :
    match maximumEntry row index start with
    | none => start=none ∧ ∀ e∈row,e.2=false
    | some (k,s) => (start=some (k,s) ∨ ∃ j x,k=index+j ∧ row[j]? = some (x,true) ∧ x.toInt=s) ∧
      (∀ m∈start,m.2 ≤ s) ∧ ∀ e∈row,e.2=true → e.1.toInt ≤ s := by
  induction row generalizing index start with
  | nil =>
    rw [maximumEntry]
    cases start <;> simp
  | cons e row ih =>
    obtain ⟨x,a⟩ := e
    specialize ih (index+1) (if a ∧ start.all (x.toInt > ·.2) then some (index,x.toInt) else start)
    rw [maximumEntry]
    split at ih
    · obtain ⟨first,rest⟩ := ih
      split_ifs at first with taken
      subst first
      exact ⟨rfl,by simp_all⟩
    · rename_i k s _
      obtain ⟨source,above,rest⟩ := ih
      refine ⟨?_,?_,?_⟩
      · rcases source with first | ⟨j,y,rfl,get,eq⟩
        · split_ifs at first with taken
          · cases first
            exact .inr ⟨0,x,rfl,by simp [taken.1],rfl⟩
          · exact .inl first
        · exact .inr ⟨j+1,y,by omega,get,eq⟩
      · intro m hm
        split_ifs at above with taken
        · obtain rfl := hm
          have := above _ rfl
          simp at taken
          omega
        · exact above m hm
      · rintro e m' allowed
        rcases mem_cons.mp m' with rfl | m'
        · obtain rfl : a=true := allowed
          split_ifs at above with taken
          · exact above _ rfl
          · cases start with
            | none => simp at taken
            | some m =>
              have := above m rfl
              simp at taken
              exact taken.trans this
        · exact rest e m' allowed

/-- What a row becomes: one in all, and nothing where the mask forbids. -/
structure RowGood (row : List (BitVec 64 × Bool)) (out : List ℤ) : Prop where
  length : out.length=row.length
  masked : ∀ i x,row[i]? = some (x,false) → out.getD i 0 = 0
  bounded : ∀ p∈out,0≤p ∧ p≤2^30
  sum : (∃ e∈row,e.2=true) → out.sum=2^30

lemma softmaxRow_ok (h : IsExponential exponential) {row : List (BitVec 64 × Bool)} (short :
    row.length ≤ maxRowLength) (granted : Bool) : softmaxRow exponential granted row = .error
    .allocationFailed ∨ ∃ out,softmaxRow exponential granted row = .ok out ∧ RowGood row out := by
  have best := maximumEntry_spec row 0 none
  unfold softmaxRow
  split at best
  · refine .inr ⟨_,rfl,length_replicate,fun i _ _ => by simp,fun p m => ?_,fun ⟨e,m,allowed⟩ => ?_⟩
    · rw [eq_of_mem_replicate m]
      norm_num
    · exact absurd allowed (by rw [best.2 e m]; decide)
  cases granted with
  | false => exact .inl rfl
  | true =>
  refine .inr ?_
  obtain ⟨first | ⟨k,x,rfl,get,rfl⟩,-,below⟩ := best
  · cases first
  rw [zero_add]
  rw [maxRowLength] at short
  obtain ⟨ws,run,all⟩ := weigh_row h below
    (show (([] : List ℕ),0).2+_ < _ by dsimp only; omega)
  have length := all.length_eq
  obtain ⟨hk,eq⟩ := List.getElem?_eq_some_iff.mp get
  have entry (i : ℕ) (hi : i < row.length) : Weighs x.toInt row[i] (ws.getD i 0) := by
    rw [getD_eq_getElem _ _ (length ▸ hi)]
    exact all.get hi (length ▸ hi)
  have top : ws.getD k 0=2^30 := (entry k hk).2.2 (by rw [eq]) (by rw [eq])
  have member : 2^30∈ws := by
    rw [← top,getD_eq_getElem _ _ (length ▸ hk)]
    exact getElem_mem _
  have most : ws.sum≤ws.length*2^30 := sum_le_card_nsmul _ _ fun w m => by
    obtain ⟨i,hi,rfl⟩ := mem_iff_getElem.mp m
    have := (entry i (length.symm ▸ hi)).1
    rwa [getD_eq_getElem _ _ hi] at this
  have small : ∀ w∈ws,w≤ws.sum := single_le_sum fun _ _ => zero_le _
  have big := small _ member
  have hd : (0:ℤ)<ws.sum := by omega
  have shares : ∀ w∈ws,0 ≤ share ws.sum w ∧ share ws.sum w ≤ 2^30 :=
    fun w m => share_mem hd (by exact_mod_cast small w m)
  have shared (i : ℕ) : (ws.map (share ws.sum)).getD i 0=share ws.sum (ws.getD i 0) := by
    rw [← share_zero hd,getD_map]
  have one : share ws.sum (2^30) ≤ (ws.map (share ws.sum)).sum :=
    single_le_sum (by simpa using fun w m => (shares w m).1) _ (mem_map_of_mem member)
  have rest : (ws.map (share ws.sum)).sum-share ws.sum (2^30) ≤ 2^30 := by
    have others := sum_share_le hd ws
    have own := (mul_share_mem hd (2^30)).1
    rw [cast_pow,cast_ofNat] at own
    have room : ((ws.length+1:ℕ):ℤ)*(ws.sum:ℕ) ≤ (2^15+1)*(2^15*2^30) := mul_le_mul (by omega)
      (by omega) hd.le (by norm_num)
    rw [cast_add,cast_one] at room
    refine le_of_mul_le_mul_left ?_ hd
    linarith
  have correct : checked 64 ((ws.map (share ws.sum)).getD k 0+
      (q30One-(0+(ws.map (share ws.sum)).sum))) = .ok (2^30-((ws.map (share ws.sum)).sum-
        share ws.sum (2^30))) := by
    rw [shared,top,zero_add,q30One,show share ws.sum (2^30)+(2^30-(map (share ws.sum) ws).sum) =
      2^30-((map (share ws.sum) ws).sum-share ws.sum (2^30)) by ring,checked_ok (by omega) (by omega)]
  refine ⟨(ws.map (share ws.sum)).set k (2^30-((ws.map (share ws.sum)).sum-share ws.sum (2^30))),?_,?_⟩
  · rw [if_neg (by decide),run,ok_bind]
    dsimp only [nil_append]
    have few : ws.sum<2^127 := by omega
    rw [zero_add,checked_ok hd.le (by exact_mod_cast few),ok_bind,
      divide_row hd (fun w m => by exact_mod_cast small w m) le_rfl (by dsimp only; omega),ok_bind]
    dsimp only [nil_append]
    rw [correct,ok_bind,if_pos ⟨by omega,by rw [q30One]; omega⟩,checked_ok (by omega) (by omega)]
    rfl
  · refine ⟨by simp [length],fun i y masked => ?_,fun p m => ?_,fun _ => ?_⟩
    · obtain ⟨hi,eq'⟩ := List.getElem?_eq_some_iff.mp masked
      have other : k≠i := by
        rintro rfl
        simp [eq'] at eq
      rw [getD_eq_getElem?_getD,getElem?_set_ne other,← getD_eq_getElem?_getD,shared,
        (entry i hi).2.1 (by rw [eq']),share_zero hd]
    · rcases mem_or_eq_of_mem_set m with m | rfl
      · obtain ⟨w,source,rfl⟩ := mem_map.mp m
        exact shares w source
      · omega
    · rw [sum_set',dif_pos (by simpa [← length] using hk)]
      have := shared k
      rw [getD_eq_getElem _ _ (by simpa [← length] using hk),top] at this
      rw [this]
      ring

/-- The second entry has the mask of the first and, where it is allowed, its score moved. -/
def Shifted (c : ℤ) (e e' : BitVec 64 × Bool) : Prop :=
  e'.2=e.2 ∧ (e.2=true → e'.1.toInt=e.1.toInt+c)

variable {c : ℤ} {row row' : List (BitVec 64 × Bool)}

lemma maximumEntry_shift (h : Forall₂ (Shifted c) row row')
    (index : ℕ) (start : Option (ℕ × ℤ)) : maximumEntry row' index
    (start.map fun m => (m.1,m.2+c)) = (maximumEntry row index start).map fun m => (m.1,m.2+c) := by
  induction h generalizing index start with
  | nil => rfl
  | @cons e e' _ _ he _ ih =>
    obtain ⟨⟨x,a⟩,⟨x',a'⟩⟩ := e,e'
    obtain ⟨rfl,moved⟩ := he
    rw [maximumEntry,maximumEntry,← ih]
    congr 1
    cases a' with
    | false => simp
    | true =>
      rw [moved rfl]
      cases start with
      | none => simp
      | some m => by_cases up : m.2<x.toInt <;> simp [up]

lemma softmaxRow_shift (h : Forall₂ (Shifted c) row row') (granted : Bool) :
    softmaxRow exponential granted row' = softmaxRow exponential granted row := by
  have best := maximumEntry_shift h 0 none
  rw [Option.map_none] at best
  have weighed (s : ℤ) (start : List ℕ × ℕ) :
      row'.foldlM (weigh exponential (s+c)) start = row.foldlM (weigh exponential s) start := by
    clear best
    induction h generalizing start with
    | nil => rfl
    | @cons e e' _ _ he _ ih =>
      have step : weigh exponential (s+c) start e'=weigh exponential s start e := by
        unfold weigh
        rw [he.1]
        split
        · rw [he.2 ‹_›,add_sub_add_right_eq_sub]
        · rfl
      rw [foldlM_cons,foldlM_cons,step]
      simp only [ih]
  unfold softmaxRow
  rw [best,h.length_eq]
  cases maximumEntry row 0 none with
  | none => rfl
  | some m =>
    dsimp only [Option.map_some]
    rw [weighed]

end

section
variable {scores : List (BitVec 64)} {allowed : List Bool} {shape : Shape} {policy : SoftmaxQ30Policy}

lemma checkedMul_eq_ok {a b c : ℕ} (h : checkedMul a b = .ok c) : c=a*b := by
  unfold checkedMul at h
  split at h <;> cases h
  rfl

lemma validate_eq_ok {n m : ℕ} (h : validate n m shape policy = .ok ()) :
    0 < shape.key ∧ shape.key ≤ maxRowLength ∧ m=n ∧ shape.key ∣ n := by
  unfold validate at h
  split at h
  · cases h
  rename_i none
  simp only [Shape.axes,map_cons,map_nil,foldlM_cons,foldlM_nil,bind_eq_ok,
    ite_error_eq_ok,not_or,not_lt] at h
  obtain ⟨elements,⟨_,-,_,-,q,-,k,last,⟨⟩⟩,scores,allowed,-,row,-⟩ := h
  have positive := find?_eq_none.mp none ("key",shape.key) (by simp [Shape.axes])
  rw [checkedMul_eq_ok last] at *
  exact ⟨pos_of_ne_zero (by simpa using positive),row.1,
    (not_not.mp allowed).trans (not_not.mp scores).symm,not_not.mp scores ▸ dvd_mul_left _ _⟩

lemma validate_ends (n m : ℕ) (shape : Shape) (policy : SoftmaxQ30Policy) :
    Ends (validate n m shape policy) (fun _ => True) (· ≠ .arithmeticOverflow) := by
  unfold validate
  split
  · exact nofun
  · refine (Ends.foldlM (I := fun _ _ => True) _ _ trivial fun _ d _ a _ => ?_).bind fun _ _ => ?_
    · rw [checkedMul]
      split
      · trivial
      · exact nofun
    · split_ifs <;> first | trivial | exact nofun

lemma rowAt_get {key r i : ℕ} (same : allowed.length=scores.length)
    (inside : key*(r+1) ≤ scores.length) (hi : i<key) : (rowAt scores allowed key r)[i]? =
      some (scores.getD (key*r+i) 0,allowed.getD (key*r+i) false) := by
  rw [mul_succ] at inside
  simp [rowAt,slice,zip_eq_zipWith,getElem?_zipWith,hi,
    getElem?_drop,getD_eq_getElem?_getD,show key*r+i < scores.length by omega,
    show key*r+i<allowed.length by omega]

variable {exponential : ℤ → Option ℚ} {grants : ℕ → Bool}

/-- A run that returns has put together what its rows return. -/
lemma softmaxQ20ToQ30_eq_ok (h : IsExponential exponential) {out : SoftmaxProbabilitiesQ30}
    (run : softmaxQ20ToQ30 exponential grants scores allowed shape policy = .ok out) :
    0 < shape.key ∧ allowed.length=scores.length ∧ shape.key ∣ scores.length ∧
      out.probabilities.length=scores.length ∧ ∀ r < scores.length/shape.key,∃ row,
        softmaxRow exponential (grants (r+1)) (rowAt scores allowed shape.key r) = .ok row ∧
        RowGood (rowAt scores allowed shape.key r) row ∧ row.length=shape.key ∧
        ∀ i < shape.key,out.probabilities.getD (shape.key*r+i) 0 = row.getD i 0 := by
  simp only [softmaxQ20ToQ30,bind_eq_ok,ite_error_eq_ok] at run
  obtain ⟨_,valid,-,rows,all,⟨⟩⟩ := run
  obtain ⟨pos,short,same,divides⟩ := validate_eq_ok valid
  obtain ⟨number,each⟩ := mapM_range_eq_ok [] all
  have length (r : ℕ) (hr : r < scores.length/shape.key) :
      (rowAt scores allowed shape.key r).length = shape.key := by
    have := (Nat.mul_le_mul_left shape.key hr).trans (mul_div_le _ _)
    rw [mul_succ] at this
    rw [rowAt,length_zip,length_slice this,length_slice (same ▸ this),min_self]
  have good (r : ℕ) (hr : r < scores.length/shape.key) :
      RowGood (rowAt scores allowed shape.key r) (rows.getD r []) := by
    obtain failed | ⟨out,run,good⟩ := softmaxRow_ok h (length r hr ▸ short) (grants (r+1))
    · cases failed.symm.trans (each r hr)
    · obtain rfl := ok_inj (run.symm.trans (each r hr))
      exact good
  have lengths : ∀ row∈rows,row.length=shape.key := by
    intro row m
    obtain ⟨r,hr,rfl⟩ := mem_iff_getElem.mp m
    have := good r (number ▸ hr)
    rw [getD_eq_getElem _ _ hr] at this
    rw [this.length,length r (number ▸ hr)]
  refine ⟨pos,same,divides,?_,fun r hr => ⟨_,each r hr,good r hr,(good r hr).length.trans
    (length r hr),fun i hi => getD_flatten_row lengths hi⟩⟩
  rw [length_flatten,map_congr_left lengths,map_const',sum_replicate,number,
    smul_eq_mul,Nat.div_mul_cancel divides]

end

end Pllm.Softmax
