import Pllm.Levels.Schedule
import Pllm.Common.Slices

/-! The search is exact: the ledger is a legal chain of the least cost, and the output level is
reported unreachable only when no legal chain ends there. -/
namespace Pllm.Levels
open Pllm.Lib List Except Cell

/-- One legal use of an operation: a computation followed by a transition from the level it leaves,
or a whole round trip. -/
inductive LegalEdge (op : PublicLevelOperation) :
    ℕ → ℕ → PublicLevelChoice → List PublicCost → ℕ → Prop
  | ckks {j k : ℕ} {row : PublicLevelCompute} {t : PublicLevelTransition} {a b : ℕ} :
      op.compute[j]? = some row → op.transitions[k]? = some t → op.depth ≤ row.inputLevel →
      t.fromLevel=row.inputLevel-op.depth → t.legal=true → row.cost.units = some a →
      t.cost.units = some b →
      LegalEdge op row.inputLevel t.toLevel (.ckks j k) [row.cost,t.cost] (a+b)
  | hybrid {j : ℕ} {h : PublicHybridRoundTrip} {a b c : ℕ} :
      op.hybrid[j]? = some h → op.primitive ≠ .arithmetic → h.entry.units = some a →
      h.evaluate.units = some b → h.recover.units = some c →
      LegalEdge op h.inputLevel h.outputLevel (.hybrid j) [h.entry,h.evaluate,h.recover] (a+b+c)

/-- A legal chain through the operations, with its steps and its total cost. -/
inductive LegalChain : List PublicLevelOperation → ℕ → ℕ → List PublicLevelPathStep → ℕ → Prop
  | nil (level : ℕ) : LegalChain [] level level [] 0
  | cons {op : PublicLevelOperation} {ops : List PublicLevelOperation} {input middle output c total : ℕ}
      {choice : PublicLevelChoice} {charges : List PublicCost} {steps : List PublicLevelPathStep} :
      LegalEdge op input middle choice charges c → LegalChain ops middle output steps total →
      LegalChain (op::ops) input output
        (⟨op.identity,input,middle,choice,charges,c⟩::steps) (c+total)

variable {ops : List PublicLevelOperation} {units : ℕ} {h : PublicHybridRoundTrip} {base : Option ℕ}
  {choice : PublicLevelChoice} {charges : List PublicCost} {op : PublicLevelOperation}

/-- The last operation of a chain. -/
lemma LegalChain.of_append {input output total : ℕ} {steps : List
    PublicLevelPathStep} (h : LegalChain (ops++[op]) input output steps total) :
    ∃ middle before rest choice charges c, LegalChain ops input middle before rest ∧
      LegalEdge op middle output choice charges c ∧ total=rest+c := by
  induction ops generalizing input steps total with
  | nil =>
    cases h with
    | cons hedge hrest =>
      cases hrest
      exact ⟨_,_,_,_,_,_,.nil _,hedge,by omega⟩
  | cons first ops ih =>
    cases h with
    | cons hedge hrest =>
      obtain ⟨middle,before,rest,choice,charges,c,hcha,hlast,rfl⟩ := ih hrest
      exact ⟨_,_,_,_,_,_,.cons hedge hcha,hlast,by omega⟩

lemma cost_eq_ok {c : PublicCost} (h : cost c = .ok units) : c.units = some units := by
  obtain ⟨_,-,h⟩ := bind_eq_ok.mp h
  cases huni : c.units with
  | none =>
    rw [huni] at h
    cases h
  | some u =>
    rw [huni] at h
    rw [ok.inj h]

lemma hybridCost_eq_ok (hc : hybridCost h = .ok units) : ∃ a b c, h.entry.units = some a ∧
    h.evaluate.units = some b ∧ h.recover.units = some c ∧ units=a+b+c := by
  obtain ⟨a,ha,b,hb,ab,hab,c,hr,hc⟩ := bind₄_eq_ok.mp hc
  obtain ⟨-,rfl⟩ := sumCost_eq_ok.mp hab
  obtain ⟨-,rfl⟩ := sumCost_eq_ok.mp hc
  exact ⟨a,b,c,cost_eq_ok ha,cost_eq_ok hb,cost_eq_ok hr,rfl⟩

/-- What validation promises of one operation. -/
structure OperationValid (p : PublicLevelProblem) (op : PublicLevelOperation) : Prop where
  depth : ∀ row∈op.compute, op.depth ≤ row.inputLevel
  compute : ∀ row∈op.compute, row.inputLevel≤p.maximumLevel
  legal : ∀ t∈op.transitions, t.legal=true
  transition : ∀ t∈op.transitions, t.toLevel≤p.maximumLevel
  hybridInput : ∀ h∈op.hybrid, h.inputLevel≤p.maximumLevel
  hybridOutput : ∀ h∈op.hybrid, h.outputLevel≤p.maximumLevel
  primitive : ∀ h∈op.hybrid, op.primitive ≠ .arithmetic

lemma exists_zipIdx {α : Type} {xs : List α} {x : α} (h : x∈xs) : ∃ j, (x,j)∈xs.zipIdx := by
  obtain ⟨j,hj,rfl⟩ := getElem_of_mem h
  exact ⟨j,mk_mem_zipIdx_iff_getElem?.mpr (getElem?_eq_getElem hj)⟩

variable {p : PublicLevelProblem}

lemma validateOperation_eq_ok {i : ℕ}
    (h : validateOperation p (op,i) = .ok ()) : OperationValid p op := by
  obtain ⟨_,-,h⟩ := bind_eq_ok.mp h
  obtain ⟨-,h⟩ := ite_error_eq_ok.mp h
  obtain ⟨-,h⟩ := ite_error_eq_ok.mp h
  obtain ⟨-,h⟩ := ite_error_eq_ok.mp h
  obtain ⟨-,h⟩ := ite_error_eq_ok.mp h
  obtain ⟨_,hcom,_,htra,hhyb⟩ := bind₂_eq_ok.mp h
  have hc : ∀ row∈op.compute, op.depth ≤ row.inputLevel ∧ row.inputLevel≤p.maximumLevel := by
    intro row hrow
    obtain ⟨j,hj⟩ := exists_zipIdx hrow
    obtain ⟨_,-,hv⟩ := bind_eq_ok.mp (forM_eq_ok.mp hcom _ hj)
    obtain ⟨hv,-⟩ := ite_error_eq_ok.mp hv
    push Not at hv
    exact ⟨hv.1,hv.2.1⟩
  have ht : ∀ t∈op.transitions, t.legal=true ∧ t.toLevel≤p.maximumLevel := by
    intro t ht
    obtain ⟨j,hj⟩ := exists_zipIdx ht
    obtain ⟨_,-,hv⟩ := bind_eq_ok.mp (forM_eq_ok.mp htra _ hj)
    obtain ⟨hv,-⟩ := ite_error_eq_ok.mp hv
    push Not at hv
    exact ⟨by simpa using hv.1,hv.2.2.1⟩
  have hh : ∀ row∈op.hybrid, op.primitive ≠ .arithmetic ∧ row.inputLevel≤p.maximumLevel ∧
      row.outputLevel≤p.maximumLevel := by
    intro row hrow
    obtain ⟨j,hj⟩ := exists_zipIdx hrow
    obtain ⟨_,-,hv⟩ := bind_eq_ok.mp (forM_eq_ok.mp hhyb _ hj)
    obtain ⟨_,-,hv⟩ := bind_eq_ok.mp hv
    obtain ⟨hv,-⟩ := ite_error_eq_ok.mp hv
    push Not at hv
    exact ⟨hv.1,hv.2.1,hv.2.2.1⟩
  exact ⟨fun r hr => (hc r hr).1,fun r hr => (hc r hr).2,fun t h => (ht t h).1,fun t h => (ht t h).2,
    fun r hr => (hh r hr).2.1,fun r hr => (hh r hr).2.2,fun r hr => (hh r hr).1⟩

lemma validate_eq_ok (h : validate p = .ok ()) : (p.inputLevel≤p.maximumLevel ∧
    p.outputLevel≤p.maximumLevel) ∧ ∀ op∈p.operations, OperationValid p op := by
  obtain ⟨_,-,_,-,h⟩ := bind₂_eq_ok.mp h
  obtain ⟨hbds,h⟩ := ite_error_eq_ok.mp h
  push Not at hbds
  refine ⟨hbds,fun op hop => ?_⟩
  obtain ⟨i,hi⟩ := exists_zipIdx hop
  exact validateOperation_eq_ok (forM_eq_ok.mp h _ hi)

/-- A predecessor entry names a legal edge of the operation before its layer. -/
def SoundAt (p : PublicLevelProblem) (lvls : ℕ) (cells : List Cell) (index : ℕ) : Prop :=
  ∀ input row transition, (cells.getD index .unreached).predecessor = some (input,row,transition) →
    ∃ i op output choice charges c, index=(i+1)*lvls+output ∧ output<lvls ∧ input<lvls ∧
      p.operations[i]? = some op ∧ chargesOf op row transition = some (choice,charges) ∧
      LegalEdge op input output choice charges c

/-- Every predecessor entry is sound. -/
structure Table (p : PublicLevelProblem) (lvls : ℕ) (cells : List Cell) : Prop where
  length : cells.length=(p.operations.length+1)*lvls
  sound : ∀ index, SoundAt p lvls cells index

/-- The layers up to `i` stay, and no distance grows. -/
structure Tightens (bound : ℕ) (cells cells' : List Cell) : Prop where
  kept : ∀ index<bound, cells'.getD index .unreached = cells.getD index .unreached
  le : ∀ index d, distanceAt cells index = some d → ∃ d'≤d, distanceAt cells' index = some d'

lemma Tightens.refl (bound : ℕ) (cells : List Cell) : Tightens bound cells cells :=
  ⟨fun _ _ => rfl,fun _ d h => ⟨d,le_rfl,h⟩⟩

lemma Tightens.trans {bound : ℕ} {a b c : List Cell} (h : Tightens bound a b)
    (h' : Tightens bound b c) : Tightens bound a c where
  kept index hi := (h'.kept index hi).trans (h.kept index hi)
  le index d hd := by
    obtain ⟨d',hle,hd'⟩ := h.le index d hd
    obtain ⟨d'',hle',hd''⟩ := h'.le index d' hd'
    exact ⟨d'',hle'.trans hle,hd''⟩

/-- What a relaxation has achieved at its target. -/
def Relaxed (cells : List Cell) (index : ℕ) (base : Option ℕ) (edge : ℕ) : Prop :=
  ∀ d, base = some d → ∃ d'≤d+edge, distanceAt cells index = some d'

lemma Relaxed.mono {bound index edge : ℕ} {cells cells' : List Cell} (h : Relaxed cells index base
    edge) (ht : Tightens bound cells cells') : Relaxed cells' index base edge := by
  intro d hd
  obtain ⟨d',hle,hd'⟩ := h d hd
  obtain ⟨d'',hle',hd''⟩ := ht.le index d' hd'
  exact ⟨d'',hle'.trans hle,hd''⟩

lemma getD_set {α : Type} (xs : List α) (i j : ℕ) (a d : α) :
    (xs.set i a).getD j d = if i=j ∧ j<xs.length then a else xs.getD j d := by
  simp only [getD_eq_getElem?_getD,getElem?_set]
  split_ifs with h1 h2 h3 h3 h3
  · rfl
  · omega
  · omega
  · rw [getElem?_eq_none (by omega)]
  · omega
  · rfl

variable {p : PublicLevelProblem} {lvls : ℕ}

/-- One relaxation. -/
lemma relaxAt_eq_ok {cells cells' : List Cell} {i output edge : ℕ} {input row : ℕ}
    {transition : Option ℕ} (ht : Table p lvls cells) (hop : p.operations[i]? = some op) (hout :
    output<lvls) (hin : input<lvls) (hchar : chargesOf op row transition = some (choice,charges))
    (hedge : LegalEdge op input output choice charges edge) (h : relaxAt cells ((i+1)*lvls+output)
    base edge (input,row,transition) = .ok cells') : Table p lvls cells' ∧ Tightens
    ((i+1)*lvls) cells cells' ∧ Relaxed cells' ((i+1)*lvls+output) base edge := by
  obtain ⟨cell,hcell,h⟩ := bind_eq_ok.mp h
  obtain rfl := ok.inj h
  have hi : i<p.operations.length := (List.getElem?_eq_some_iff.mp hop).1
  have hidx : (i+1)*lvls+output < cells.length := by
    rw [ht.length]
    have hle := Nat.mul_le_mul_right lvls (show i+2 ≤ p.operations.length+1 by omega)
    rw [Nat.succ_mul] at hle
    omega
  have hget : ∀ index, (cells.set ((i+1)*lvls+output) cell).getD index .unreached =
      if index=(i+1)*lvls+output then cell else cells.getD index .unreached := by
    intro index
    rw [getD_set]
    by_cases heq : index=(i+1)*lvls+output
    · rw [if_pos ⟨heq.symm,heq ▸ hidx⟩,if_pos heq]
    · rw [if_neg fun h => heq h.1.symm, if_neg heq]
  obtain ⟨old,hold⟩ : ∃ old, old=cells.getD ((i+1)*lvls+output) .unreached := ⟨_,rfl⟩
  rw [← hold] at hcell
  -- either the cell stays, or it takes the candidate, which is better
  have hcas : (cell=old ∧ ∀ d, base=some d → ∃ d'≤d+edge, old.distance=some d') ∨
      ∃ d, base = some d ∧ cell = ⟨some (d+edge),some (input,row,transition)⟩ ∧
        ∀ d', old.distance = some d' → d+edge≤d' := by
    cases base with
    | none => exact .inl ⟨(ok.inj hcell).symm,nofun⟩
    | some d =>
      obtain ⟨candidate,hc,hcell⟩ := bind_eq_ok.mp hcell
      obtain ⟨-,rfl⟩ := sumCost_eq_ok.mp hc
      split at hcell
      · next hbet =>
        refine .inr ⟨d,rfl,(ok.inj hcell).symm,fun d' hd' => ?_⟩
        rw [hd',Option.all_some,decide_eq_true_eq] at hbet
        exact hbet.le
      · next hwor =>
        refine .inl ⟨(ok.inj hcell).symm,fun _ hd => ?_⟩
        obtain rfl := some_inj hd
        cases hdist : old.distance with
        | none => simp [hdist] at hwor
        | some d' => exact ⟨d',by simpa [hdist] using hwor,rfl⟩
  refine ⟨⟨by rw [length_set,ht.length],fun index => ?_⟩,⟨fun index hlt => ?_,fun index d hd => ?_⟩,
    fun d hd => ?_⟩
  · intro input' row' transition' hpred
    rw [hget] at hpred
    split at hpred
    · next heq =>
      rcases hcas with ⟨rfl,-⟩ | ⟨d,-,rfl,-⟩
      · rw [hold] at hpred
        exact heq ▸ ht.sound _ _ _ _ hpred
      · obtain ⟨rfl,rfl,rfl⟩ : input=input' ∧ row=row' ∧ transition=transition' := by
          simpa using hpred
        exact ⟨i,op,output,choice,charges,edge,heq,hout,hin,hop,hchar,hedge⟩
    · exact ht.sound _ _ _ _ hpred
  · rw [hget,if_neg (by omega)]
  · rw [distanceAt,hget]
    split
    · next heq =>
      rw [distanceAt,heq,← hold] at hd
      rcases hcas with ⟨rfl,-⟩ | ⟨d0,-,rfl,hle⟩
      · exact ⟨d,le_rfl,hd⟩
      · exact ⟨d0+edge,hle d hd,rfl⟩
    · exact ⟨d,le_rfl,hd⟩
  · rw [distanceAt,hget,if_pos rfl]
    rcases hcas with ⟨rfl,hbase⟩ | ⟨d0,hbase,rfl,-⟩
    · exact hbase d hd
    · obtain rfl : d0=d := some_inj (hbase.symm.trans hd)
      exact ⟨d0+edge,le_rfl,rfl⟩

/-- The state of the loops over one operation: a sound table that has kept the layers before it. -/
structure Layer (p : PublicLevelProblem) (lvls i : ℕ) (start cells : List Cell) : Prop where
  table : Table p lvls cells
  tightens : Tightens ((i+1)*lvls) start cells

section
variable {op : PublicLevelOperation} {i : ℕ} {start : List Cell}

variable {row : PublicLevelCompute} {j : ℕ} {cells cells' : List Cell}

section
variable (hlvs : p.maximumLevel<lvls) (hop : p.operations[i]? = some op) (hvld : OperationValid p op)
include hlvs hop hvld

lemma relaxTransition_eq_ok (hrow : (row,j)∈op.compute.zipIdx) {t : PublicLevelTransition} {k : ℕ}
    (ht : (t,k)∈op.transitions.zipIdx) (hc : Layer p lvls i start cells) (h : relaxTransition
    lvls i j op row base cells (t,k) = .ok cells') : Layer p lvls i start cells' ∧ Tightens
    ((i+1)*lvls) cells cells' ∧ (t.fromLevel=row.inputLevel-op.depth → ∀ a b, row.cost.units =
    some a → t.cost.units = some b → Relaxed cells' ((i+1)*lvls+t.toLevel) base (a+b)) := by
  have hrow' := mk_mem_zipIdx_iff_getElem?.mp hrow
  have ht' := mk_mem_zipIdx_iff_getElem?.mp ht
  have hrowM := mem_of_getElem? hrow'
  have htMem := mem_of_getElem? ht'
  unfold relaxTransition at h
  simp only at h
  split at h
  · next heq =>
    obtain ⟨a,ha,b,hb,edge,hedge,h⟩ := bind₃_eq_ok.mp h
    obtain ⟨-,rfl⟩ := sumCost_eq_ok.mp hedge
    have hleg : LegalEdge op row.inputLevel t.toLevel (.ckks j k) [row.cost,t.cost] (a+b) :=
      .ckks hrow' ht' (hvld.depth row hrowM) heq (hvld.legal t htMem) (cost_eq_ok ha)
        (cost_eq_ok hb)
    obtain ⟨htab,htig,hrel⟩ := relaxAt_eq_ok hc.table hop
      ((hvld.transition t htMem).trans_lt hlvs) ((hvld.compute row hrowM).trans_lt hlvs)
      (by simp [chargesOf,hrow',ht']) hleg h
    refine ⟨⟨htab,hc.tightens.trans htig⟩,htig,fun _ a' b' ha' hb' => ?_⟩
    obtain rfl : a=a' := some_inj ((cost_eq_ok ha).symm.trans ha')
    obtain rfl : b=b' := some_inj ((cost_eq_ok hb).symm.trans hb')
    exact hrel
  · next hne =>
    obtain rfl := ok.inj h
    exact ⟨hc,.refl _ _,fun heq => absurd heq hne⟩

lemma relaxCompute_eq_ok (hrow : (row,j)∈op.compute.zipIdx)
    (hc : Layer p lvls i start cells) (h : relaxCompute lvls i op cells (row,j) = .ok cells') :
    Layer p lvls i start cells' ∧ Tightens ((i+1)*lvls) cells cells' ∧
    ∀ entry∈op.transitions.zipIdx, entry.1.fromLevel=row.inputLevel-op.depth →
    ∀ a b, row.cost.units = some a → entry.1.cost.units = some b → Relaxed cells'
    ((i+1)*lvls+entry.1.toLevel) (distanceAt start (i*lvls+row.inputLevel)) (a+b) := by
  have hinp := (hvld.compute row (mem_of_getElem?
    (mk_mem_zipIdx_iff_getElem?.mp hrow))).trans_lt hlvs
  have hbase : distanceAt cells (i*lvls+row.inputLevel) =
      distanceAt start (i*lvls+row.inputLevel) := by
    rw [distanceAt,hc.tightens.kept _ (by rw [Nat.succ_mul]; omega),← distanceAt]
  refine foldlM_eq_ok (P := Layer p lvls i start) (R := Tightens ((i+1)*lvls))
    (Q := fun (entry : PublicLevelTransition × ℕ) cells =>
      entry.1.fromLevel=row.inputLevel-op.depth → ∀ a b, row.cost.units = some a →
        entry.1.cost.units = some b → Relaxed cells ((i+1)*lvls+entry.1.toLevel)
          (distanceAt start (i*lvls+row.inputLevel)) (a+b)) (fun _ => .refl _ _)
    (fun _ _ _ h h' => h.trans h') (fun entry s t hR hQ hfrom a b ha hb => (hQ hfrom a b ha hb).mono hR)
    (fun entry hent s t hs hstep => ?_) hc h
  have hnext := relaxTransition_eq_ok hlvs hop hvld hrow (t := entry.1) (k := entry.2) hent hs hstep
  rwa [hbase] at hnext

lemma relaxHybrid_eq_ok (hrow : (h,j)∈op.hybrid.zipIdx)
    (hc : Layer p lvls i start cells) (hrun : relaxHybrid lvls i cells (h,j) = .ok cells') :
    Layer p lvls i start cells' ∧ Tightens ((i+1)*lvls) cells cells' ∧ ∀ a b c,
    h.entry.units = some a → h.evaluate.units = some b → h.recover.units = some c → Relaxed cells'
    ((i+1)*lvls+h.outputLevel) (distanceAt start (i*lvls+h.inputLevel)) (a+b+c) := by
  have hrow' := mk_mem_zipIdx_iff_getElem?.mp hrow
  have hmem := mem_of_getElem? hrow'
  have hinp := (hvld.hybridInput h hmem).trans_lt hlvs
  obtain ⟨edge,hedge,hrun⟩ := bind_eq_ok.mp hrun
  obtain ⟨a,b,c,ha,hb,hr,rfl⟩ := hybridCost_eq_ok hedge
  obtain ⟨htab,htig,hrel⟩ := relaxAt_eq_ok hc.table hop
    ((hvld.hybridOutput h hmem).trans_lt hlvs) hinp (by simp [chargesOf,hrow'])
    (.hybrid hrow' (hvld.primitive h hmem) ha hb hr) hrun
  refine ⟨⟨htab,hc.tightens.trans htig⟩,htig,fun a' b' c' ha' hb' hr' => ?_⟩
  obtain rfl : a=a' := some_inj (ha.symm.trans ha')
  obtain rfl : b=b' := some_inj (hb.symm.trans hb')
  obtain rfl : c=c' := some_inj (hr.symm.trans hr')
  rwa [distanceAt,hc.tightens.kept _ (by rw [Nat.succ_mul]; omega)] at hrel

lemma relaxOperation_eq_ok (hs : Table p lvls start) (h : relaxOperation lvls start (op,i) =
    .ok cells) : Table p lvls cells ∧ ∀ input output choice charges c, LegalEdge op input output
    choice charges c → Relaxed cells ((i+1)*lvls+output) (distanceAt start (i*lvls+input)) c := by
  obtain ⟨middle,hcom,hhyb⟩ := bind_eq_ok.mp h
  obtain ⟨hlay,-,hckks⟩ := foldlM_eq_ok (P := Layer p lvls i start)
    (R := Tightens ((i+1)*lvls)) (Q := fun (entry : PublicLevelCompute × ℕ) cells => ∀ other∈op.transitions.zipIdx,
      other.1.fromLevel=entry.1.inputLevel-op.depth → ∀ a b, entry.1.cost.units = some a →
        other.1.cost.units = some b → Relaxed cells ((i+1)*lvls+other.1.toLevel)
          (distanceAt start (i*lvls+entry.1.inputLevel)) (a+b)) (fun _ => .refl _ _)
    (fun _ _ _ h h' => h.trans h')
    (fun entry s t hR hQ other hoth hfrom a b ha hb => (hQ other hoth hfrom a b ha hb).mono hR)
    (fun entry hent s t hc hstep => relaxCompute_eq_ok hlvs hop hvld hent hc hstep)
    ⟨hs,.refl _ _⟩ hcom
  obtain ⟨hlay',htig,hrou⟩ := foldlM_eq_ok (P := Layer p lvls i start)
    (R := Tightens ((i+1)*lvls)) (Q := fun (entry : PublicHybridRoundTrip × ℕ) cells => ∀ a b c, entry.1.entry.units = some a →
      entry.1.evaluate.units = some b → entry.1.recover.units = some c →
        Relaxed cells ((i+1)*lvls+entry.1.outputLevel)
          (distanceAt start (i*lvls+entry.1.inputLevel)) (a+b+c)) (fun _ => .refl _ _)
    (fun _ _ _ h h' => h.trans h') (fun entry s t hR hQ a b c ha hb hc => (hQ a b c ha hb hc).mono hR)
    (fun entry hent s t hc hstep => relaxHybrid_eq_ok hlvs hop hvld hent hc hstep) hlay
    hhyb
  refine ⟨hlay'.table,fun input output choice charges c hedge => ?_⟩
  cases hedge with
  | @ckks j k row t a b hrow ht _ hfrom _ ha hb =>
    exact (hckks (row,j) (mk_mem_zipIdx_iff_getElem?.mpr hrow) (t,k)
      (mk_mem_zipIdx_iff_getElem?.mpr ht) hfrom a b ha hb).mono htig
  | @hybrid j h a b c hrow _ ha hb hc =>
    exact hrou (h,j) (mk_mem_zipIdx_iff_getElem?.mpr hrow) a b c ha hb hc

end

end

/-- Every legal chain through the first `i` operations is matched at its end by a distance that is
no larger. -/
def Reached (p : PublicLevelProblem) (lvls i : ℕ) (cells : List Cell) : Prop :=
  ∀ output steps total, LegalChain (p.operations.take i) p.inputLevel output steps total →
    ∃ d≤total, distanceAt cells (i*lvls+output) = some d

section
variable {cells : List Cell} {input output s total : ℕ} {steps : List PublicLevelPathStep}

lemma search_eq_ok (hlvs : p.maximumLevel<lvls) (hvld : ∀ op∈p.operations, OperationValid p
    op) (rest before : List PublicLevelOperation) (hspl : p.operations = before++rest) {start :
    List Cell} (hs : Table p lvls start) (hrea : Reached p lvls before.length start) (h :
    (rest.zipIdx before.length).foldlM (relaxOperation lvls) start = .ok cells) : Table p lvls
    cells ∧ Reached p lvls p.operations.length cells := by
  induction rest generalizing before start with
  | nil =>
    obtain rfl : start=cells := ok.inj h
    rw [append_nil] at hspl
    exact ⟨hs,hspl ▸ hrea⟩
  | cons op rest ih =>
    obtain ⟨middle,hstep,h⟩ := bind_eq_ok.mp h
    have hop : p.operations[before.length]? = some op := by
      rw [hspl,getElem?_append_right le_rfl,tsub_self,getElem?_cons_zero]
    have hmem : op∈p.operations := mem_of_getElem? hop
    obtain ⟨htab,hedg⟩ := relaxOperation_eq_ok hlvs hop (hvld op hmem) hs hstep
    have hnext := ih (before++[op]) (by rw [hspl,append_assoc,singleton_append]) htab
    rw [length_append,length_singleton] at hnext
    refine hnext (fun output steps total hcha => ?_) h
    have htake : p.operations.take (before.length+1)=p.operations.take before.length++[op] := by
      rw [take_add_one,hop,Option.toList_some]
    rw [htake] at hcha
    obtain ⟨mid,prior,cost,choice,charges,c,hpri,hedge,rfl⟩ := hcha.of_append
    obtain ⟨d,hle,hd⟩ := hrea _ _ _ hpri
    obtain ⟨d',hle',hd'⟩ := hedg _ _ _ _ _ hedge d hd
    exact ⟨d',hle'.trans (Nat.add_le_add_right hle c),hd'⟩

lemma subtotalOf_eq_ok {c : ℕ} (hedge : LegalEdge op input output choice charges c)
    (h : subtotalOf charges = .ok s) : s=c := by
  have hstep : ∀ {charge : PublicCost} {rest : List PublicCost} {acc u : ℕ},
      charge.units = some u → (charge::rest).foldlM (fun subtotal charge => do
        let units ← cost charge
        sumCost subtotal units) acc = .ok s →
      rest.foldlM (fun subtotal charge => do
        let units ← cost charge
        sumCost subtotal units) (acc+u) = .ok s := by
    intro charge rest acc u hu hfold
    obtain ⟨next,hnext,hfold⟩ := bind_eq_ok.mp hfold
    obtain ⟨units,huni,hsum⟩ := bind_eq_ok.mp hnext
    obtain ⟨-,rfl⟩ := sumCost_eq_ok.mp hsum
    obtain rfl : units=u := some_inj ((cost_eq_ok huni).symm.trans hu)
    exact hfold
  cases hedge with
  | ckks _ _ _ _ _ ha hb =>
    have hend := ok.inj (hstep hb (hstep ha h))
    omega
  | hybrid _ _ ha hb hc =>
    have hend := ok.inj (hstep hc (hstep hb (hstep ha h)))
    omega

/-- The predecessors spell a legal chain back to the first layer. -/
lemma backtrack_eq_ok (ht : Table p lvls cells) {i final : ℕ}
    {out : List PublicLevelPathStep} {first : ℕ} (hi : i≤p.operations.length) (hout : output<lvls)
    (hcha : LegalChain (p.operations.drop i) output final steps total) (h : backtrack p lvls cells
    i output steps = .ok (first,out)) : ∃ cost, LegalChain p.operations first final out cost := by
  induction i generalizing output steps total with
  | zero =>
    obtain ⟨rfl,rfl⟩ := Prod.ext_iff.mp (ok.inj h)
    exact ⟨total,hcha⟩
  | succ i ih =>
    unfold backtrack at h
    cases hpred : (cells.getD ((i+1)*lvls+output) .unreached).predecessor with
    | none =>
      rw [hpred] at h
      cases h
    | some triple =>
      obtain ⟨i',op,output',choice,charges,c,hidx,hout',hin,hop,hchar,hedge⟩ :=
        ht.sound _ _ _ _ hpred
      obtain ⟨hlay,rfl⟩ := (mul_add_inj hout hout').mp hidx
      obtain rfl : i=i' := Nat.succ_injective hlay
      obtain ⟨hlt,rfl⟩ := List.getElem?_eq_some_iff.mp hop
      rw [hpred] at h
      simp only [getD_eq_getElem _ _ hlt,hchar] at h
      obtain ⟨subtotal,hsub,h⟩ := bind_eq_ok.mp h
      obtain rfl := subtotalOf_eq_ok hedge hsub
      have hcons := LegalChain.cons hedge hcha
      rw [← drop_eq_getElem_cons hlt] at hcons
      exact ih hlt.le hin hcons h

lemma LegalChain.total_eq (h : LegalChain ops input output steps
    total) : total = (steps.map PublicLevelPathStep.totalCost).sum := by
  induction h with
  | nil => rfl
  | cons _ _ ih => rw [map_cons,sum_cons,← ih]

lemma conserved_eq_ok {acc : ℕ} (h : steps.foldlM (fun conserved step => sumCost conserved
    step.totalCost) acc = .ok s) : s = acc+(steps.map PublicLevelPathStep.totalCost).sum := by
  induction steps generalizing acc with
  | nil =>
    obtain rfl : acc=s := ok.inj h
    rfl
  | cons step steps ih =>
    obtain ⟨next,hnext,h⟩ := bind_eq_ok.mp h
    obtain ⟨-,rfl⟩ := sumCost_eq_ok.mp hnext
    rw [ih h,map_cons,sum_cons]
    omega

lemma table_start (hlvs : p.inputLevel<lvls) {count : ℕ} (hcnt : count=(p.operations.length+1)*lvls)
    : Table p lvls ((replicate count unreached).set p.inputLevel ⟨some 0,none⟩) ∧ Reached p lvls 0
    ((replicate count unreached).set p.inputLevel ⟨some 0,none⟩) := by
  have hlt : p.inputLevel < count := by
    have := Nat.mul_le_mul_right lvls (Nat.le_add_left 1 p.operations.length)
    omega
  have hget : ∀ index, ((replicate count unreached).set p.inputLevel ⟨some 0,none⟩).getD index
      .unreached = if index=p.inputLevel then ⟨some 0,none⟩ else .unreached := by
    intro index
    rw [getD_set,length_replicate]
    by_cases heq : index=p.inputLevel
    · rw [if_pos ⟨heq.symm,heq ▸ hlt⟩,if_pos heq]
    · rw [if_neg fun h => heq h.1.symm]
      simp only [getD_eq_getElem?_getD,getElem?_replicate]
      split <;> rfl
  refine ⟨⟨by rw [length_set,length_replicate,hcnt],fun index input row transition hpred =>
    ?_⟩,fun output steps total hcha => ?_⟩
  · rw [hget] at hpred
    split at hpred <;> cases hpred
  · cases hcha
    exact ⟨0,le_rfl,by rw [distanceAt,hget,if_pos (by omega)]⟩

end

/-- The one message that reports an unreachable output level. -/
def unreachable : String := "requested output level unreachable"

/-- A computation that reports something else. -/
def Clean {α : Type} (x : Except String α) : Prop := x ≠ .error unreachable

section
variable {α β : Type}

variable {s : String} {f : α → Except String β} {c : Prop}

lemma Clean.ok {a : α} : Clean (.ok a) := nofun

lemma Clean.error (h : s≠unreachable) : Clean (.error s : Except String α) :=
  fun he => h (error.inj he)

variable {x : Except String α}

lemma Clean.bind (hx : Clean x) (hf : ∀ a, Clean (f a)) : Clean (x >>= f) := by
  cases x with
  | ok a => exact hf a
  | error e => exact fun he => hx (congrArg Except.error (Except.error.inj he))

lemma Clean.error_bind {e : String} (h : Clean (.error e : Except String α)) :
    Clean ((.error e : Except String α) >>= f) :=
  .error fun he => h (congrArg Except.error he)

lemma Clean.guard [Decidable c] (hs : s≠unreachable) (hx : Clean x) :
    Clean (if c then .error s else x) := by
  split
  · exact .error hs
  · exact hx

lemma Clean.require [Decidable c] (hs : s≠unreachable) (hx : Clean x) :
    Clean (if c then x else .error s) := by
  split
  · exact hx
  · exact .error hs

lemma Clean.foldlM {f : β → α → Except String β} (xs : List α) (s : β) (h : ∀ s x, Clean (f s x)) :
    Clean (xs.foldlM f s) := by
  induction xs generalizing s with
  | nil => exact .ok
  | cons x xs ih => exact (h s x).bind ih

lemma Clean.forM {f : α → Except String Unit} (xs : List α) (h : ∀ x, Clean (f x)) :
    Clean (xs.forM f) := by
  induction xs with
  | nil => exact .ok
  | cons x xs ih => exact (h x).bind fun _ => ih

end

lemma clean_add (a b : ℕ) : Clean (add a b) := .require (by decide) .ok
lemma clean_mul (a b : ℕ) : Clean (mul a b) := .require (by decide) .ok
lemma clean_sumCost (a b : ℕ) : Clean (sumCost a b) := .require (by decide) .ok
lemma clean_identity (s : String) : Clean (identity s) := .guard (by decide) .ok

lemma clean_cost (c : PublicCost) : Clean (cost c) := by
  refine (clean_identity _).bind fun _ => ?_
  cases c.units with
  | none => exact .error (by decide)
  | some units => exact .ok

lemma clean_hybridCost (h : PublicHybridRoundTrip) : Clean (hybridCost h) :=
  (clean_cost _).bind fun _ => (clean_cost _).bind fun _ => (clean_sumCost _ _).bind fun _ =>
    (clean_cost _).bind fun _ => clean_sumCost _ _

lemma clean_preflightRow (tables : ℕ × ℕ) (op : PublicLevelOperation) :
    Clean (preflightRow tables op) :=
  (clean_add _ _).bind fun _ => (clean_add _ _).bind fun _ => (clean_add _ _).bind fun _ =>
    (clean_add _ _).bind fun _ => (clean_mul _ _).bind fun _ => (clean_add _ _).bind fun _ =>
      (clean_add _ _).bind fun _ => .ok

lemma clean_preflight (env : Platform) (p : PublicLevelProblem) (c : PublicLevelSolverCapacity) :
    Clean (preflight env p c) := by
  refine (clean_add _ _).bind fun _ => .guard (by decide) ?_
  refine (clean_add _ _).bind fun _ => (clean_mul _ _).bind fun _ => .guard (by decide) ?_
  refine (Clean.foldlM _ _ clean_preflightRow).bind fun _ => (clean_mul _ _).bind fun _ => ?_
  refine (clean_add _ _).bind fun _ => (clean_mul _ _).bind fun _ => (clean_mul _ _).bind fun _ => ?_
  refine (clean_add _ _).bind fun _ => (clean_mul _ _).bind fun _ => (clean_add _ _).bind fun _ => ?_
  exact .guard (by decide) .ok

lemma clean_validate (p : PublicLevelProblem) : Clean (validate p) := by
  refine (clean_identity _).bind fun _ => (clean_identity _).bind fun _ => .guard (by decide) ?_
  refine .forM _ fun entry => (clean_identity _).bind fun _ => ?_
  refine .guard (by decide) (.guard (by decide) (.guard (by decide) (.guard (by decide) ?_)))
  refine (Clean.forM _ fun entry => (clean_cost _).bind fun _ => .guard (by decide) .ok).bind fun _ => ?_
  refine (Clean.forM _ fun entry => (clean_cost _).bind fun _ => .guard (by decide) .ok).bind fun _ => ?_
  exact .forM _ fun entry => (clean_identity _).bind fun _ => (clean_hybridCost _).bind fun _ =>
    .guard (by decide) .ok

lemma clean_relaxAt (cells : List Cell) (index : ℕ) (base : Option ℕ) (edge : ℕ)
    (pred : ℕ × ℕ × Option ℕ) : Clean (relaxAt cells index base edge pred) := by
  refine Clean.bind ?_ fun _ => .ok
  cases base with
  | none => exact .ok
  | some base =>
    refine (clean_sumCost _ _).bind fun _ => ?_
    split <;> exact .ok

lemma clean_relaxOperation (lvls : ℕ) (cells : List Cell) (entry : PublicLevelOperation × ℕ) :
    Clean (relaxOperation lvls cells entry) := by
  refine (Clean.foldlM _ _ fun s row => .foldlM _ _ fun s t => ?_).bind fun _ => .foldlM _ _ fun s h =>
    (clean_hybridCost _).bind fun _ => clean_relaxAt _ _ _ _ _
  unfold relaxTransition
  simp only
  split
  · exact (clean_cost _).bind fun _ => (clean_cost _).bind fun _ => (clean_sumCost _ _).bind fun _ =>
      clean_relaxAt _ _ _ _ _
  · exact .ok

lemma clean_backtrack (p : PublicLevelProblem) (lvls : ℕ) (cells : List Cell) (i output : ℕ)
    (steps : List PublicLevelPathStep) : Clean (backtrack p lvls cells i output steps) := by
  induction i generalizing output steps with
  | zero => exact .ok
  | succ i ih =>
    unfold backtrack
    simp only
    split
    · exact .error (by decide)
    · split
      · exact .error (by decide)
      · exact (Clean.foldlM _ _ fun _ _ => (clean_cost _).bind fun _ => clean_sumCost _ _).bind
          fun _ => ih _ _

lemma mul_eq_ok {a b c : ℕ} (h : mul a b = .ok c) : c=a*b := by
  unfold mul at h
  split at h
  · exact (ok.inj h).symm
  · cases h

lemma preflight_eq_ok {env : Platform} {c : PublicLevelSolverCapacity}
    {lvls : ℕ} (h : preflight env p c = .ok lvls) : lvls=p.maximumLevel+1 := by
  obtain ⟨_,hlvs,h⟩ := bind_eq_ok.mp h
  obtain ⟨-,h⟩ := ite_error_eq_ok.mp h
  obtain ⟨_,-,_,-,h⟩ := bind₂_eq_ok.mp h
  obtain ⟨-,h⟩ := ite_error_eq_ok.mp h
  obtain ⟨_,-,_,-,_,-,_,-,h⟩ := bind₄_eq_ok.mp h
  obtain ⟨_,-,_,-,_,-,_,-,h⟩ := bind₄_eq_ok.mp h
  obtain ⟨-,h⟩ := ite_error_eq_ok.mp h
  exact (ok.inj h) ▸ add_eq_ok hlvs

/-- The solver up to the answer at the output vertex. -/
lemma solve_cases (env : Platform) (p : PublicLevelProblem) (capacity : PublicLevelSolverCapacity) :
    Clean (solvePublicEncryptedLevels env p capacity) ∧
        (∀ solution, solvePublicEncryptedLevels env p capacity ≠ .ok solution) ∨
      ∃ cells, Table p (p.maximumLevel+1) cells ∧ Reached p (p.maximumLevel+1) p.operations.length
        cells ∧ p.outputLevel<p.maximumLevel+1 ∧
        solvePublicEncryptedLevels env p capacity =
          match distanceAt cells (p.operations.length*(p.maximumLevel+1)+p.outputLevel) with
          | none => .error "requested output level unreachable"
          | some totalCost =>
            if env.reserve p.operations.length=false then .error "path allocation failed"
            else do
              let (output,steps) ← backtrack p (p.maximumLevel+1) cells p.operations.length
                p.outputLevel []
              let conserved ← steps.foldlM (fun conserved step => sumCost conserved step.totalCost) 0
              if output≠p.inputLevel ∨ conserved≠totalCost then
                .error "path cost conservation failure"
              else
                let ledger : PublicLevelCostLedger := ⟨env.problemDigest p,steps,totalCost⟩
                return ⟨ledger,env.ledgerDigest ledger⟩ := by
  unfold solvePublicEncryptedLevels
  have hpre := clean_preflight env p capacity
  cases hlvs : preflight env p capacity with
  | error e =>
    rw [hlvs] at hpre
    exact .inl ⟨hpre.error_bind,nofun⟩
  | ok lvls =>
  obtain rfl := preflight_eq_ok hlvs
  have hval := clean_validate p
  rw [ok_bind]
  cases hvld : validate p with
  | error e =>
    rw [hvld] at hval
    exact .inl ⟨hval.error_bind,nofun⟩
  | ok _ =>
  obtain ⟨⟨hin,hout⟩,hope⟩ := validate_eq_ok hvld
  have hadd := clean_add p.operations.length 1
  rw [ok_bind]
  cases hlaye : add p.operations.length 1 with
  | error e =>
    rw [hlaye] at hadd
    exact .inl ⟨hadd.error_bind,nofun⟩
  | ok layers =>
  have hmul := clean_mul layers (p.maximumLevel+1)
  rw [ok_bind]
  cases hcnt : mul layers (p.maximumLevel+1) with
  | error e =>
    rw [hcnt] at hmul
    exact .inl ⟨hmul.error_bind,nofun⟩
  | ok count =>
  rw [ok_bind]
  by_cases hres : env.reserve count=false
  · rw [if_pos hres]
    exact .inl ⟨.error (by decide),nofun⟩
  rw [if_neg hres]
  dsimp only
  have hsea := Clean.foldlM p.operations.zipIdx ((replicate count unreached).set
    p.inputLevel ⟨some 0,none⟩) (clean_relaxOperation (p.maximumLevel+1))
  cases hcel : p.operations.zipIdx.foldlM (relaxOperation (p.maximumLevel+1))
      ((replicate count unreached).set p.inputLevel ⟨some 0,none⟩) with
  | error e =>
    rw [hcel] at hsea
    exact .inl ⟨hsea.error_bind,nofun⟩
  | ok cells =>
  have hsize : count=(p.operations.length+1)*(p.maximumLevel+1) := by
    rw [mul_eq_ok hcnt,add_eq_ok hlaye]
  obtain ⟨htab,hrea⟩ := table_start (p := p) (Nat.lt_succ_of_le hin) hsize
  obtain ⟨htab,hrea⟩ := search_eq_ok (Nat.lt_succ_self _) hope p.operations [] rfl htab
    hrea hcel
  exact .inr ⟨cells,htab,hrea,Nat.lt_succ_of_le hout,rfl⟩

/-- A ledger is a legal chain from the input to the output level, its total is the least of all legal
chains, and the output level is reported unreachable only when no legal chain reaches it. -/
theorem solve_optimal (env : Platform) (p : PublicLevelProblem)
    (capacity : PublicLevelSolverCapacity) :
    (∀ solution, solvePublicEncryptedLevels env p capacity = .ok solution →
      LegalChain p.operations p.inputLevel p.outputLevel solution.ledger.steps
          solution.ledger.totalCost
        ∧ ∀ steps total, LegalChain p.operations p.inputLevel p.outputLevel steps total →
          solution.ledger.totalCost≤total)
    ∧ (solvePublicEncryptedLevels env p capacity = .error "requested output level unreachable" →
      ∀ steps total, ¬LegalChain p.operations p.inputLevel p.outputLevel steps total) := by
  rcases solve_cases env p capacity with ⟨hcle,hfail⟩ | ⟨cells,htab,hrea,hout,hsolv⟩
  · exact ⟨fun solution h => absurd h (hfail solution),fun h => absurd h hcle⟩
  have hall := fun steps total (h : LegalChain p.operations p.inputLevel p.outputLevel steps total) =>
    hrea p.outputLevel steps total (by rwa [take_length])
  rw [hsolv]
  cases hdis : distanceAt cells (p.operations.length*(p.maximumLevel+1)+p.outputLevel) with
  | none =>
    refine ⟨nofun,fun _ steps total h => ?_⟩
    obtain ⟨d,-,hd⟩ := hall steps total h
    rw [hdis] at hd
    cases hd
  | some totalCost =>
    refine ⟨fun solution h => ?_,fun h => ?_⟩
    · obtain ⟨-,h⟩ := ite_error_eq_ok.mp h
      obtain ⟨⟨output,steps⟩,hpath,conserved,hcon,h⟩ := bind₂_eq_ok.mp h
      obtain ⟨hends,h⟩ := ite_error_eq_ok.mp h
      obtain rfl := ok.inj h
      push Not at hends
      obtain ⟨rfl,rfl⟩ := hends
      have hnil : LegalChain (p.operations.drop p.operations.length) p.outputLevel p.outputLevel [] 0 := by
        rw [drop_length]
        exact .nil _
      obtain ⟨cost,hcha⟩ := backtrack_eq_ok htab le_rfl hout hnil hpath
      have hcost := hcha.total_eq
      rw [conserved_eq_ok hcon,Nat.zero_add,← hcost] at hdis ⊢
      refine ⟨hcha,fun steps total h => ?_⟩
      obtain ⟨d,hle,hd⟩ := hall steps total h
      rw [hdis] at hd
      exact (Option.some.inj hd).trans_le hle
    · refine absurd h (Clean.guard (by decide) ?_)
      refine (clean_backtrack _ _ _ _ _ _).bind fun _ => ?_
      refine (Clean.foldlM _ _ fun _ _ => clean_sumCost _ _).bind fun _ => .guard (by decide) .ok

/-- Two operations: a computation with a refresh, then a cheaper round trip than the computation. -/
theorem solve_optimal_at :
    let first : PublicLevelOperation := ⟨"mul",[],.arithmetic,1,
      [⟨1,⟨"c1",some 5⟩⟩,⟨2,⟨"c2",some 7⟩⟩],[⟨.refresh,0,2,⟨"up",some 20⟩⟩,⟨.preserve,1,1,⟨"same",some 0⟩⟩],[]⟩
    let second : PublicLevelOperation := ⟨"relu",["mul"],.relu,3,[],[],
      [⟨"trip",1,2,⟨"in",some 1⟩,⟨"eval",some 2⟩,⟨"out",some 3⟩⟩]⟩
    let p : PublicLevelProblem := ⟨"model","unit",2,2,2,[first,second]⟩
    let env : Platform := ⟨fun _ => "p",fun _ => "l",fun _ => true,48⟩
    ∃ solution, solvePublicEncryptedLevels env p ⟨9,9,99,99,999,9999999⟩ = .ok solution ∧
      solution.ledger.totalCost=13 ∧
      ∀ steps total, LegalChain p.operations 2 2 steps total → 13≤total := by
  intro first second p env
  have hsolv : ∃ solution, solvePublicEncryptedLevels env p ⟨9,9,99,99,999,9999999⟩ = .ok solution ∧
      solution.ledger.totalCost=13 := by
    refine ⟨⟨⟨"p",[⟨"mul",2,1,.ckks 1 1,[⟨"c2",some 7⟩,⟨"same",some 0⟩],7⟩,
      ⟨"relu",1,2,.hybrid 0,[⟨"in",some 1⟩,⟨"eval",some 2⟩,⟨"out",some 3⟩],6⟩],13⟩,"l"⟩,?_,rfl⟩
    decide +kernel
  obtain ⟨solution,hsol,htot⟩ := hsolv
  exact ⟨solution,hsol,htot,fun steps total h =>
    htot ▸ ((solve_optimal env p ⟨9,9,99,99,999,9999999⟩).1 solution hsol).2 steps total h⟩

end Pllm.Levels
