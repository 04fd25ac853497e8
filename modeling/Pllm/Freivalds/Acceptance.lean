import Pllm.Freivalds.VerifierCorrect

/-! What a verifier accepts: honest outputs always, and other outputs only where every challenge
misses their difference. -/
namespace Pllm.Freivalds
open Pllm.Lib List Ends Verifier

variable {prim : Primitives} {seed binding : Bytes}

lemma ends_all {f : ℕ → Result Bool} {p : ℕ → Prop} {n : ℕ} {bad : Failure → Prop}
    (h : ∀ i<n,Ends (f i) (fun holds => holds=true ↔ p i) bad) :
    Ends ((range n).mapM f) (fun tests => tests.all id = true ↔ ∀ i<n,p i) bad := by
  refine (Ends.mapM (fun i holds => holds=true ↔ p i) fun i m =>
    h i (mem_range.mp m)).mono fun tests all => ?_
  have each : tests.all id=true ↔ ∀ i ∈ range n,p i := by
    generalize range n=l at all
    induction all with
    | nil => simp
    | cons head _ ih => simp [ih,head.2]
  rw [each]
  exact forall_congr' fun i => imp_congr_left mem_range

lemma fieldDot_eq_iff {n : ℕ} {f g : ℕ → ℤ} {challenge : ℕ → ℕ} : fieldDot n f challenge =
    fieldDot n g challenge ↔ (modulus : ℤ) ∣ ∑ o ∈ Finset.range n,(f o-g o)*challenge o := by
  have cast : ((∑ o ∈ Finset.range n,(f o-g o)*challenge o:ℤ) : ZMod modulus) =
      fieldDot n f challenge-fieldDot n g challenge := by
    rw [fieldDot,fieldDot,← Finset.sum_sub_distrib,Int.cast_sum]
    refine Finset.sum_congr rfl fun o _ => ?_
    push_cast
    ring
  rw [← ZMod.intCast_zmod_eq_zero_iff_dvd,cast,sub_eq_zero]

/-- The honest outputs of rows of inputs. -/
def honestRow (weights : List ℤ) (inF outF : ℕ) (input : List ℤ) : List ℤ :=
  (List.range outF).map fun o => honest weights inF o (input.getD · 0)

def honestRows (weights : List ℤ) (inF outF rows : ℕ) (input : List ℤ) : List ℤ :=
  (List.range rows).flatMap fun r => honestRow weights inF outF (row inF input r)

lemma length_honestRows (weights : List ℤ) (inF outF rows : ℕ) (input : List ℤ) :
    (honestRows weights inF outF rows input).length = rows*outF := by
  have width (r : ℕ) : (honestRow weights inF outF
      (row inF input r)).length = outF := by simp [honestRow]
  rw [honestRows,length_flatMap_const _ fun r _ => width r,length_range,mul_comm]

lemma row_honestRows (weights : List ℤ) (inF outF : ℕ) {rows r : ℕ} (input : List ℤ)
    (h : r < rows) : row outF (honestRows weights inF outF rows input) r =
    honestRow weights inF outF (row inF input r) := by
  unfold honestRows
  have inside : r < (range rows).length := by simpa using h
  rw [row_flatMap (fun _ _ => by simp [honestRow]) inside,getElem_range]

lemma getD_honestRow (weights : List ℤ) (inF : ℕ) {outF o : ℕ} (input : List ℤ) (h : o<outF) :
    (honestRow weights inF outF input).getD o 0 = honest weights inF o (input.getD · 0) := by
  simp [honestRow,h]

/-- An output meets the challenge of a check of a row. -/
def Meets (v : Verifier) (weights : List ℤ) (r check : ℕ) (input output : List ℤ) : Prop :=
  (modulus : ℤ) ∣ ∑ o ∈ Finset.range v.outFeatures,
    (output.getD o 0-honest weights v.inFeatures o (input.getD · 0)) *
      ((Claimed.challenge v r check).getD o 0:ℕ)

lemma meets_honest (v : Verifier) (weights : List ℤ) (r check : ℕ) (input : List ℤ) :
    Meets v weights r check input (honestRow weights v.inFeatures v.outFeatures input) := by
  refine Finset.dvd_sum fun o m => ?_
  rw [getD_honestRow _ _ _ (Finset.mem_range.mp m),sub_self,zero_mul]
  exact dvd_zero _

lemma Prepared.l1_lt {weights : List ℤ} {b : ProjectionBatch}
    (prepared : Prepared prim seed binding weights b) : b.terms.maxRowL1<2^32 := by
  obtain ⟨pos,-,small,covered⟩ := prepared.bound
  have one : 1≤b.terms.signedInputBound.toNat := by omega
  have := Nat.le_mul_of_pos_left b.terms.maxRowL1 one
  unfold modulus at small
  omega

namespace Claimed

variable {origin : ProjectionBatch} {rowStart batchRows : ℕ} {v : Verifier} {weights : List ℤ}

section
variable {r : ℕ} {input output : List ℤ}

section
variable (claimed : Claimed prim seed origin rowStart batchRows v) (prepared : Prepared prim seed binding weights origin)
include claimed prepared

lemma checkRow_ends {check : ℕ} (hr : r<batchRows) (hc : check<v.checks) (hin :
    input.length=v.inFeatures) (hout : output.length=v.outFeatures) :
    Ends (v.checkRow r input output check)
      (fun holds => holds=true ↔ Meets v weights r check input output) fun _ => False := by
  obtain ⟨holds,eq,spec⟩ := claimed.checkRow_ok prepared hr hc hin hout
  exact of_ok ⟨holds,eq,spec.trans fieldDot_eq_iff⟩

variable (hr : r<batchRows) (hin : input.length=v.inFeatures) (hout : output.length=v.outFeatures)
include hr hin hout

/-- A row within its bound is tested by all its checks. -/
lemma verifyRow_ok (bounded : ∀ x∈output,x.natAbs≤v.signedOutputBound.toNat) :
    Ends (v.verifyRow r input output) (fun holds => holds=true ↔ ∀ check<v.checks,Meets v weights r
      check input output) fun _ => False := by
  unfold verifyRow
  rw [if_neg]
  · refine (ends_all fun check hc => claimed.checkRow_ends prepared hr hc hin hout).bind
      fun tests all => ?_
    exact all
  · simpa using bounded

lemma verifyRow_ends : Ends (v.verifyRow r input output)
    (fun holds => holds=true ↔ ∀ check<v.checks,Meets v weights r check input output) Sane := by
  by_cases bounded : ∀ x∈output,x.natAbs≤v.signedOutputBound.toNat
  · exact of_ok (exists_ok (claimed.verifyRow_ok prepared hr hin hout bounded))
  · unfold verifyRow
    rw [if_pos]
    · exact sane_refused _
    · simpa using bounded

end

end

variable (claimed : Claimed prim seed origin rowStart batchRows v)
  (prepared : Prepared prim seed binding weights origin)
include claimed prepared

/-- On machine words a verification does not overflow, and what it accepts meets all challenges. -/
lemma verifyClaimed_ends {granted : Bool} {input output : List ℤ}
    (machine : ∀ x∈input,x.natAbs≤2^31) : Ends (v.verifyClaimed granted input output)
    (fun out => out=⟨batchRows,v.outFeatures,output⟩ ∧ ∀ r<batchRows,∀ check<v.checks,
    Meets v weights r check (row v.inFeatures input r) (row v.outFeatures output r)) Sane := by
  obtain rfl := claimed.rows
  refine bind_checkedMul fun _ => ?_
  refine bind_checkedMul fun _ => ?_
  split
  · exact sane_refused _
  rename_i shape
  simp only [not_or,not_not] at shape
  have reached : inputMax input*v.maxRowL1 < 2^128 := by
    have largest : inputMax input ≤ 2^31 := (inputMax_spec input 0).2.2 _ (by omega) machine
    rw [claimed.l1]
    calc inputMax input*origin.terms.maxRowL1 ≤ 2^31*2^32 :=
          mul_le_mul' largest prepared.l1_lt.le
      _ < 2^128 := by decide
  rw [mulOf_ok reached,ok_bind]
  split
  · exact sane_refused _
  split
  · exact sane_refused _
  refine (ends_all fun r hr => claimed.verifyRow_ends prepared hr (length_row shape.1 hr)
    (length_row shape.2 hr)).bind fun integrity all => ?_
  split
  · exact sane_refused _
  rename_i holds
  exact ⟨rfl,all.mp (by simpa using holds)⟩

/-- The honest outputs are accepted. -/
lemma verifyClaimed_honest {input : List ℤ} (hin : input.length=batchRows*v.inFeatures)
    (bounded : ∀ x∈input,x.natAbs≤v.signedInputBound.toNat) :
    v.verifyClaimed true input (honestRows weights v.inFeatures v.outFeatures batchRows input) =
      .ok ⟨batchRows,v.outFeatures,honestRows weights v.inFeatures v.outFeatures batchRows input⟩ := by
  obtain rfl := claimed.rows
  have length := length_honestRows weights v.inFeatures v.outFeatures v.batchRows input
  have covered : v.signedInputBound.toNat*v.maxRowL1 ≤ v.signedOutputBound.toNat := by
    rw [claimed.inputBound,claimed.l1,claimed.outputBound]
    exact prepared.bound.2.2.2
  have largest : inputMax input ≤ v.signedInputBound.toNat :=
    (inputMax_spec input 0).2.2 _ zero_le bounded
  have reached : inputMax input*v.maxRowL1 ≤ v.signedOutputBound.toNat :=
    (Nat.mul_le_mul_right _ largest).trans covered
  have small : v.signedOutputBound.toNat<2^128 := by
    have := prepared.bound.2.2.1
    rw [claimed.outputBound]
    unfold modulus at this
    omega
  have inputs : v.batchRows*v.inFeatures<2^64 := by
    rw [claimed.inFeatures]
    exact claimed.inputs
  have outputs : v.batchRows*v.outFeatures<2^64 := by
    rw [claimed.outFeatures]
    exact claimed.outputs
  have rows : Ends ((range v.batchRows).mapM fun r => v.verifyRow r (row v.inFeatures input r)
      (row v.outFeatures (honestRows weights v.inFeatures v.outFeatures v.batchRows input) r))
      (fun tests => tests.all id = true ↔ ∀ r<v.batchRows,∀ check<v.checks,
        Meets v weights r check (row v.inFeatures input r)
          (row v.outFeatures (honestRows weights v.inFeatures v.outFeatures v.batchRows input) r))
      fun _ => False := by
    refine ends_all fun r hr => claimed.verifyRow_ok prepared hr (length_row hin hr)
      (length_row length hr) fun x m => ?_
    rw [row_honestRows _ _ _ _ hr] at m
    obtain ⟨o,ho,rfl⟩ := mem_map.mp m
    refine (natAbs_honest_le ?_ fun j hj => ?_).trans covered
    · rw [claimed.inFeatures,claimed.l1]
      refine prepared.rows o ?_
      rw [← claimed.outFeatures]
      exact mem_range.mp ho
    · have inside : j < (row v.inFeatures input r).length := by
        rw [length_row hin hr]
        exact hj
      rw [getD_eq_getElem _ _ inside]
      exact bounded _ (mem_of_mem_drop (mem_of_mem_take (getElem_mem inside)))
  obtain ⟨tests,eq,all⟩ := exists_ok rows
  have pass : tests.all id=true := by
    refine all.mpr fun r hr check _ => ?_
    rw [row_honestRows _ _ _ _ hr]
    exact meets_honest ..
  unfold verifyClaimed checkedMul
  rw [if_pos inputs,ok_bind,if_pos outputs,ok_bind,if_neg (by simp [hin,length]),
    mulOf_ok (lt_of_le_of_lt reached small),ok_bind,if_neg (by omega)]
  rw [eq,ok_bind,pass]
  rfl

end Claimed

end Pllm.Freivalds
