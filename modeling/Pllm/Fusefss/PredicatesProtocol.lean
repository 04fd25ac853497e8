import Pllm.Fusefss.PredicatesIssue

/-! The protocol from the dealer's issue to the outputs. -/
namespace Pllm.Fusefss.Predicates
open Pllm.Lib List Nat
open BitVec (setWidth_add toNat_add)
open Pllm.Fss.CompactDcf (RingComparison bitWord)
open Pllm.Fss.SharedRescale (Context)

variable {bits y : ℕ} {b v : ℕ → Bool} {x₀ x₁ : BitVec 64} {cost : Resources}

section
variable {env : Platform} {d : Descriptor} {plan : DealerPlan} {mask : BitVec 64} {m n : Material}

/-- Both parties answer every comparison with shares. -/
lemma answers_issued {qs : List PredicateQuery} {as bs : List Query} (h : Pairs
    (QueryPair env) qs as bs) (hfits : ∀ q∈qs, Fits bits q) (hbits : bits≤50) (y : BitVec 64) :
    ∃ us vs, (as.mapM fun q => (q.key.eval env.aes 0 ((y+q.shift) &&& lowMask q.bits)).mapError
        primitiveError) = .ok us
      ∧ (bs.mapM fun q => (q.key.eval env.aes 1 ((y+q.shift) &&& lowMask q.bits)).mapError
        primitiveError) = .ok vs
      ∧ Pairs (fun q u v => Shared u v (q.eval y.toNat)) qs us vs := by
  induction h with
  | nil => exact ⟨[],[],rfl,rfl,.nil⟩
  | cons hq _ ih =>
    obtain ⟨u,v,hu,hv,huv⟩ := hq.eval (hfits _ (mem_cons_self ..)) hbits (y := y)
    obtain ⟨us,vs,hus,hvs,hall⟩ := ih fun q hq => hfits q (mem_cons_of_mem _ hq)
    exact ⟨u::us,v::vs,by rw [mapM_cons,hu,ok_bind,hus,ok_bind,pure_eq_ok],
      by rw [mapM_cons,hv,ok_bind,hvs,ok_bind,pure_eq_ok],.cons huv hall⟩

/-- Every program leaves its output. -/
lemma forall₂_parts (hplan : PlanOf d plan) {answers : ℕ → Bool}
    (hb : ∀ o<d.shape.booleanOutputs, execute answers (plan.program o) [] = some [b o]) :
    Forall₂ (fun p v => execute answers p [] = some [v]) (parts d.shape.programLengths
      plan.instructions) ((range d.shape.booleanOutputs).map b) := by
  have hlen := length_parts d.shape.programLengths plan.instructions
  refine forall₂_iff_get.mpr ⟨by simp [hlen,hplan.outputs],fun o h1 h2 => ?_⟩
  have ho : o<d.shape.booleanOutputs := by simpa using h2
  have hget : (parts d.shape.programLengths plan.instructions).getD o []=plan.program o := by
    rw [getD_parts _ _ _ (by rw [hplan.outputs]; exact ho),DealerPlan.program,hplan.shape]
  rw [getD_eq_getElem _ _ h1] at hget
  simp only [get_eq_getElem,getElem_map,getElem_range,hget]
  exact hb o ho

/-- The two executions at the start of the first program. -/
lemma runs_start (hplan : PlanOf d plan)
    (hmat : IssuedMaterial env d plan mask m n) (houts : 0<d.shape.booleanOutputs)
    {us vs : List (BitVec 64)} (hqs : Pairs (fun q u v => Shared u v (q.eval y)) plan.queries us vs)
    (hb : ∀ o<d.shape.booleanOutputs, execute (fun k => (plan.queries.getD k ⟨0,0,0⟩).eval y)
    (plan.program o) [] = some [b o]) : Runs d.shape (fun k => (plan.queries.getD k ⟨0,0,0⟩).eval y)
    ⟨m,us,[],[],0,0,d.shape.programLengths.getD 0 0,0⟩ ⟨n,vs,[],[],0,0,d.shape.programLengths.getD
    0 0,0⟩ ((range d.shape.booleanOutputs).map b) d.shape.vmOps d.shape.booleanAnds := by
  have hflat := parts_flatten _ _ hplan.lengths
  have hmap := map_length_parts _ _ hplan.lengths
  have hlen := length_parts d.shape.programLengths plan.instructions
  have hall := forall₂_parts hplan hb
  rw [hplan.outputs] at hlen
  revert hflat hmap hall hlen
  generalize parts d.shape.programLengths plan.instructions=programs
  generalize (range d.shape.booleanOutputs).map b=final
  rintro hflat hmap hlen (_ | ⟨hp,hrest⟩)
  · exact absurd hlen houts.ne
  · rename_i cur v later bs
    have hlens := hplan.instructions
    have hgat := hplan.gates
    rw [flatten_cons] at hflat
    rw [map_cons] at hmap
    rw [←hflat] at hlens hgat
    refine ⟨cur,later,[],[],v,bs,⟨fun k hk => ?_,.nil,.nil,?_,?_,⟨rfl,?_⟩,⟨?_,rfl⟩,⟨rfl,?_⟩,?_,⟨rfl,?_⟩,
      fun g _ hg => ?_⟩,hp,hrest,rfl,hlens,hgat⟩
    · have hk' : k<plan.queries.length := by rwa [hplan.queries]
      obtain ⟨q,u,w,hq,hu,hw,hsha⟩ := hqs.getElem? hk'
      refine ⟨u,w,hu,hw,?_⟩
      rw [getD_eq_getElem?_getD,hq]
      exact hsha
    · rw [hflat]
      exact hmat.code
    · have hcode := hmat.code.length_eq
      rw [hplan.instructions] at hcode
      exact hcode
    · simp only [zero_add]
      exact hlens
    · rw [←hmap,getD_cons_zero,zero_add]
    · simp only [length_cons] at hlen
      simp only
      omega
    · rw [←hmap]
      rfl
    · simp only [zero_add]
      exact hgat
    · have hg' : g < (plan.instructions.filter fun ins => isGate ins.opcode).length := by
        rw [←countP_eq_length_filter]
        exact hg.trans_eq hplan.gates.symm
      obtain ⟨-,t,u,-,ht,hu,x,z,rfl,rfl,hpair⟩ := hmat.triples.getElem? hg'
      refine ⟨x,z,?_,?_,hpair⟩
      · rw [getD_eq_getElem?_getD,ht,Option.getD_some]
      · rw [getD_eq_getElem?_getD,hu,Option.getD_some]

lemma Party.start_ready {self : Party} {x : BitVec 64} (hsta : self.state = some (.ready m))
    (hx : x ≤ lowMask self.bits) (hlea : headerBytes+8 ≤ self.lease) :
    self.start granting x = (.ok (self.frameBytes [(x+m.mask) &&& lowMask self.bits]), { self with
          lease := self.lease-(headerBytes+8)
          state := some (.masked m ((x+m.mask) &&& lowMask self.bits)) }) := by
  have hspl : split self.lease (headerBytes+1*8) = .ok (self.lease-(headerBytes+8)) :=
    if_neg (not_lt.mpr hlea)
  have hx' : ¬x>lowMask self.bits := BitVec.not_lt.mpr hx
  simp only [Party.start,Party.taking,hsta,Party.opened,if_neg hx',Party.frame,granting,
    not_true_eq_false,if_false,length_cons,length_nil,zero_add,hspl,ok_bind,pure_eq_ok]
  rfl

lemma toNat_opened (hbits : bits≤64) (x₀ x₁ m₀ m₁ mask : BitVec 64) (hmask : (m₀+m₁) &&& lowMask
    bits = mask) : ((((x₀+m₀) &&& lowMask bits)+((x₁+m₁) &&& lowMask bits)) &&& lowMask bits).toNat
    = ((x₀.toNat+x₁.toNat)%2^bits+mask.toNat)%2^bits := by
  have hring : ((((x₀+m₀) &&& lowMask bits)+((x₁+m₁) &&& lowMask bits)) &&& lowMask bits).setWidth bits
      = ((x₀+x₁)+mask).setWidth bits := by
    rw [setWidth_and_lowMask _ hbits,setWidth_add _ _ hbits,setWidth_and_lowMask _ hbits,
      setWidth_and_lowMask _ hbits,setWidth_add _ _ hbits,setWidth_add _ _ hbits, setWidth_add
      _ _ hbits,setWidth_add _ _ hbits,←hmask, setWidth_and_lowMask _ hbits,setWidth_add _ _ hbits]
    ring
  have hd : 2^bits ∣ 2^64 := Nat.pow_dvd_pow 2 hbits
  have hnat := congrArg BitVec.toNat hring
  rw [BitVec.toNat_setWidth,BitVec.toNat_setWidth,toNat_and_lowMask _ hbits,mod_mod] at hnat
  have hsum : ((x₀.toNat+x₁.toNat)%2^64+mask.toNat)%2^bits
      = (x₀.toNat+x₁.toNat+mask.toNat)%2^bits := by
    rw [add_mod,mod_mod_of_dvd _ hd,←add_mod]
  rw [toNat_and_lowMask _ hbits,hnat,toNat_add,toNat_add,mod_mod_of_dvd _ hd,hsum, mod_add_mod]

/-- Both parties start, and their masked shares set the first program going. -/
lemma resumes_start (hplan : PlanOf d plan) (hmat : IssuedMaterial env d plan mask m n)
    (houts : 0<d.shape.booleanOutputs) (hbits : d.bits≤50) {a b : Party}
    (hab : Partners d.shape a b) (hword : a.bits=d.bits)
    (hy : ((((x₀+m.mask) &&& lowMask d.bits)+((x₁+n.mask) &&& lowMask d.bits))
      &&& lowMask d.bits).toNat = y)
    (hv : ∀ o<d.shape.booleanOutputs,
      execute (fun k => (plan.queries.getD k ⟨0,0,0⟩).eval y) (plan.program o) [] = some [v o])
    (ha : a.state = some (.masked m ((x₀+m.mask) &&& lowMask d.bits)))
    (hb : b.state = some (.masked n ((x₁+n.mask) &&& lowMask d.bits))) :
    Resumes env d.shape (fun k => (plan.queries.getD k ⟨0,0,0⟩).eval y) a b
      (a.frameBytes [(x₀+m.mask) &&& lowMask d.bits]) (b.frameBytes [(x₁+n.mask) &&& lowMask d.bits])
      ((range d.shape.booleanOutputs).map v) d.shape.booleanAnds := by
  have hchk : ∀ (s t : Party) (own : BitVec 64), t.id = !s.id → t.bits=s.bits →
      t.binding=s.binding → t.nonce=s.nonce → t.round=s.round → own ≤ lowMask s.bits →
      s.check (t.frameBytes [own]) 1 (lowMask s.bits) = .ok () := fun s t own h1 h2 h3 h4 h5 hown =>
    Party.check_frameBytes h1 h2 h3 h4 h5 fun w hw => (mem_singleton.mp hw) ▸ hown
  have hread : ∀ (t : Party) (own : BitVec 64), readWord (t.frameBytes [own]) 0=own := fun t own => by
    rw [Party.readWord_frameBytes t _ (by simp)]
    rfl
  have hbwo : b.bits=d.bits := hab.bits.trans hword
  obtain ⟨us,vs,hus,hvs,hall⟩ := answers_issued hmat.queries hplan.fits hbits
    ((((x₀+m.mask) &&& lowMask d.bits)+((x₁+n.mask) &&& lowMask d.bits)) &&& lowMask d.bits)
  rw [hy] at hall
  refine ⟨_,_,_,_,3,3,_,ha,hb,?_,?_,runs_start hplan hmat houts hall hv⟩
  · have hc := hchk { a with state := none } b ((x₁+n.mask) &&& lowMask d.bits)
      (by rw [hab.ids.2]; simp only [hab.ids.1]; rfl) hab.bits hab.binding hab.nonce hab.round
      (by rw [hword]; exact and_lowMask_le _ (by omega))
    simp only [Party.resumed,hc,hread]
    simp only [granting,Party.answers,hab.ids.1,hword,hab.shapes.1,hus,not_true_eq_false,or_self,
      Bool.false_eq_true,if_false,ok_bind,pure_eq_ok]
  · have hc := hchk { b with state := none } a ((x₀+m.mask) &&& lowMask d.bits)
      (by rw [hab.ids.1]; simp only [hab.ids.2]; rfl) hab.bits.symm hab.binding.symm hab.nonce.symm
      hab.round.symm (by rw [hbwo]; exact and_lowMask_le _ (by omega))
    rw [add_comm ((x₀+m.mask) &&& lowMask d.bits)] at hvs
    simp only [Party.resumed,hc,hread]
    simp only [granting,Party.answers,hab.ids.2,hbwo,hab.shapes.2,hvs,not_true_eq_false,or_self,
      if_true,if_false,ok_bind,pure_eq_ok]

lemma keyResources_eq_ok {key : Fss.CompactDcf.Resources} (h : keyResources env bits =
    .ok key) : (1≤bits ∧ bits≤50) ∧ key = Fss.CompactDcf.resources env.sizes bits (bits,bits) := by
  unfold keyResources RingComparison.resources RingComparison.validate at h
  by_cases hbits : ¬(1≤bits ∧ bits≤50) ∨ ¬(1≤1 ∧ 1≤50)
  · rw [if_pos hbits] at h
    cases h
  · rw [if_neg hbits] at h
    cases h
    exact ⟨by omega,rfl⟩

lemma resources_eq_ok (h : resources env d = .ok cost) : 0<d.shape.booleanOutputs ∧
    d.bits≤50 ∧ headerBytes+8+d.shape.booleanAnds*(headerBytes+16)+8*d.shape.booleanOutputs ≤
    cost.partyReservationBytes ∧ 2*cost.partyReservationBytes ≤ cost.combinedReservationBytes := by
  obtain ⟨houts,h⟩ := ite_error_eq_ok.mp h
  obtain ⟨key,hkey,h⟩ := bind_eq_ok.mp h
  obtain ⟨-,h⟩ := ite_error_eq_ok.mp h
  cases h
  obtain ⟨hbits,-⟩ := keyResources_eq_ok hkey
  refine ⟨pos_of_ne_zero houts,hbits.2,?_,?_⟩
  · simp only
    omega
  · simp only
    omega

/-- A fresh party of an issuance. -/
def fresh (d : Descriptor) (id : Bool) (binding nonce : BitVec 256) (cost : Resources)
    (material : Material) : Party :=
  ⟨id,d.bits,d.shape,binding,nonce,0,some (.ready material),cost.partyReservationBytes⟩

/-- The dealer issues for every plan that a quote and a budget admit. -/
lemma issue_eq {digest sourceDigest : BitVec 256} {context : Context} {budget : Budget} {r : Random}
    {cost : Resources} (hplan : PlanOf d plan) (hcom : compile d (r.mask &&& lowMask d.bits).toNat =
    .ok plan) (hcost : resources env d = .ok cost) (hcon : context.firstTensorIndex+1<2^64)
    (hroom : budget.used+cost.combinedReservationBytes ≤ budget.limit) : ∃ m n, issue env d digest
    sourceDigest context budget r = .ok (fresh d false (binding env digest sourceDigest context)
    r.nonce cost m, fresh d true (binding env digest sourceDigest context) r.nonce cost n) ∧
    IssuedMaterial env d plan (r.mask &&& lowMask d.bits) m n := by
  obtain ⟨-,hbits,-,htwo⟩ := resources_eq_ok hcost
  obtain ⟨m,n,hisu,hmat⟩ := issueMaterial_issued env hplan hbits r
  refine ⟨m,n,?_,hmat⟩
  have hres : budget.reserve cost.combinedReservationBytes = .ok cost.combinedReservationBytes :=
    if_neg (not_lt.mpr hroom)
  have hfst : split cost.combinedReservationBytes cost.partyReservationBytes
      = .ok (cost.combinedReservationBytes-cost.partyReservationBytes) := if_neg (by omega)
  have hsnd : split (cost.combinedReservationBytes-cost.partyReservationBytes)
      cost.partyReservationBytes = .ok (cost.combinedReservationBytes-cost.partyReservationBytes
        -cost.partyReservationBytes) := if_neg (by omega)
  have hsame : ¬(plan.shape≠d.shape ∨ plan.queries.length≠d.shape.queries
      ∨ plan.instructions.length≠d.shape.vmOps) := by
    simp only [hplan.shape,hplan.queries,hplan.instructions,ne_eq,not_true_eq_false,or_self,
      not_false_eq_true]
  unfold issue
  simp only [hcost,ok_bind,if_neg (not_le.mpr hcon),hres,hcom,Except.mapError,
    if_neg hsame,hisu,hfst,hsnd,pure_eq_ok]
  rfl

/-- The protocol on fresh parties of one issuance. -/
lemma exchange_issued (hplan : PlanOf d plan) (hmat : IssuedMaterial env d
    plan mask m n) (hcost : resources env d = .ok cost) {binding nonce : BitVec 256} (h₀ : x₀ ≤ lowMask d.bits) (h₁ : x₁ ≤ lowMask d.bits)
    (hv : ∀ o<d.shape.booleanOutputs, execute (fun k => (plan.queries.getD k ⟨0,0,0⟩).eval
      (((x₀.toNat+x₁.toNat)%2^d.bits+mask.toNat)%2^d.bits)) (plan.program o) [] = some [v o]) :
    ∃ fa a fb b u w, (fresh d false binding nonce cost m).start granting x₀ = (.ok fa,a) ∧ (fresh d
      true binding nonce cost n).start granting x₁ = (.ok fb,b) ∧ exchange env d.shape.booleanAnds a
      b fa fb = some (u,w) ∧ SharedList u w ((range d.shape.booleanOutputs).map v) := by
  obtain ⟨houts,hbits,hlea,-⟩ := resources_eq_ok hcost
  have hst : ∀ (id : Bool) (k : Material) (x : BitVec 64), x ≤ lowMask d.bits →
      (fresh d id binding nonce cost k).start granting x
        = (.ok ((fresh d id binding nonce cost k).frameBytes [(x+k.mask) &&& lowMask d.bits]),
          { fresh d id binding nonce cost k with
            lease := cost.partyReservationBytes-(headerBytes+8)
            state := some (.masked k ((x+k.mask) &&& lowMask d.bits)) }) := fun id k x hx =>
    @Party.start_ready k (fresh d id binding nonce cost k) x rfl hx
      ((by omega : headerBytes+8 ≤ cost.partyReservationBytes))
  have hab : Partners d.shape { fresh d false binding nonce cost m with
        lease := cost.partyReservationBytes-(headerBytes+8)
        state := some (.masked m ((x₀+m.mask) &&& lowMask d.bits)) }
      { fresh d true binding nonce cost n with
        lease := cost.partyReservationBytes-(headerBytes+8)
        state := some (.masked n ((x₁+n.mask) &&& lowMask d.bits)) } :=
    ⟨⟨rfl,rfl⟩,rfl,⟨rfl,rfl⟩,rfl,rfl,rfl⟩
  have hresu := resumes_start hplan hmat houts hbits hab rfl
    (toNat_opened (by omega) x₀ x₁ m.mask n.mask mask hmat.masks) hv rfl rfl
  obtain ⟨u,w,huw,hsha⟩ := exchange_eq hab hresu
    ((by omega : d.shape.booleanAnds*(headerBytes+16)+8*d.shape.booleanOutputs
      ≤ cost.partyReservationBytes-(headerBytes+8)))
    ((by omega : d.shape.booleanAnds*(headerBytes+16)+8*d.shape.booleanOutputs
      ≤ cost.partyReservationBytes-(headerBytes+8)))
  exact ⟨_,_,_,_,u,w,hst false m x₀ h₀,hst true n x₁ h₁,huw,hsha⟩

inductive Call
  | start (granted : ℕ → Bool) (inputShare : BitVec 64)
  | advance (granted : ℕ → Bool) (peer : List Byte)
  | cancel

inductive Reply
  | frame (bytes : List Byte)
  | output (values : List (BitVec 64))
  | cancelled
  | failed (e : Error)

namespace Party

def call (env : Platform) (self : Party) : Call → Reply × Party
  | .start granted inputShare =>
    match self.start granted inputShare with
    | (.ok bytes,self) => (.frame bytes,self)
    | (.error e,self) => (.failed e,self)
  | .advance granted peer =>
    match self.advance env granted peer with
    | (.ok (.frame bytes),self) => (.frame bytes,self)
    | (.ok (.output values),self) => (.output values,self)
    | (.error e,self) => (.failed e,self)
  | .cancel => (.cancelled,self.cancel)

/-- The party after calls. -/
def after (env : Platform) (self : Party) (calls : List Call) : Party :=
  calls.foldl (fun self c => (self.call env c).2) self

section
variable {α : Type} {self : Party} {f : Party → State → Except Error (α × Party)} {e : Error}

lemma taking_failed {self' : Party} (h : self.taking f = (.error e,self')) : self'.state=none := by
  unfold taking at h
  cases hsta : self.state with
  | none =>
    simp only [hsta] at h
    cases h
    exact hsta
  | some state =>
    simp only [hsta] at h
    cases hf : f { self with state := none } state with
    | error e =>
      simp only [hf] at h
      cases h
      rfl
    | ok r =>
      simp only [hf] at h
      cases (congrArg Prod.fst h)

lemma taking_consumed (h : self.state=none) : self.taking f = (.error .consumed,self) := by
  unfold taking
  simp only [h]

lemma call_failed {c : Call} (h : (self.call env c).1 = .failed e) :
    (self.call env c).2.state = none := by
  cases c with
  | start granted x =>
    cases hs : self.start granted x with
    | mk reply self' =>
      cases reply with
      | error e' =>
        have hcall : self.call env (.start granted x)=(.failed e',self') := by simp only [call,hs]
        rw [hcall]
        exact taking_failed hs
      | ok bytes =>
        have hcall : self.call env (.start granted x)=(.frame bytes,self') := by simp only [call,hs]
        rw [hcall] at h
        cases h
  | advance granted peer =>
    cases hs : self.advance env granted peer with
    | mk reply self' =>
      cases reply with
      | error e' =>
        have hcall : self.call env (.advance granted peer)=(.failed e',self') := by
          simp only [call,hs]
        rw [hcall]
        exact taking_failed hs
      | ok step =>
        cases step with
        | frame bytes =>
          have hcall : self.call env (.advance granted peer)=(.frame bytes,self') := by
            simp only [call,hs]
          rw [hcall] at h
          cases h
        | output values =>
          have hcall : self.call env (.advance granted peer)=(.output values,self') := by
            simp only [call,hs]
          rw [hcall] at h
          cases h
  | cancel => cases h

lemma call_consumed {self : Party} (h : self.state=none) (c : Call) :
    (self.call env c).2.state = none ∧ ((self.call env c).1 = .failed .consumed ∨ c = .cancel) := by
  cases c with
  | start granted x =>
    have hs : self.start granted x=(.error .consumed,self) := taking_consumed h
    have hcall : self.call env (.start granted x)=(.failed .consumed,self) := by simp only [call,hs]
    rw [hcall]
    exact ⟨h,.inl rfl⟩
  | advance granted peer =>
    have hs : self.advance env granted peer=(.error .consumed,self) := taking_consumed h
    have hcall : self.call env (.advance granted peer)=(.failed .consumed,self) := by
      simp only [call,hs]
    rw [hcall]
    exact ⟨h,.inl rfl⟩
  | cancel => exact ⟨rfl,.inr rfl⟩

lemma after_consumed {self : Party} (h : self.state=none) (calls : List Call) :
    (self.after env calls).state = none := by
  induction calls generalizing self with
  | nil => exact h
  | cons c calls ih => exact ih (call_consumed h c).1

end

end Party

end

end Pllm.Fusefss.Predicates
