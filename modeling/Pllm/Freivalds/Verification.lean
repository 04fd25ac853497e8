import Pllm.Freivalds.Acceptance
import Pllm.Freivalds.Process

/-! The verification of outputs over whole runs. -/
namespace Pllm.Freivalds
open Pllm.Lib List

variable {prim : Primitives}

variable {granted : Bool} {weights : List ℤ} {signedInputBound signedOutputBound : ℤ}
  {policy : Policy} {b origin : ProjectionBatch}

lemma prepareProjections_sized {outFeatures inFeatures inventoryRows : ℕ}
    {seed binding sessionId materialId : Bytes} {resources : ResourcePolicy}
    (h : prepareProjections prim granted weights outFeatures inFeatures inventoryRows seed binding
      sessionId materialId signedInputBound signedOutputBound policy resources = .ok b) :
    b.consumed.length=b.inventoryRows := by
  obtain ⟨_,-,_,-,_,-,h⟩ := bind₃_eq_ok.mp h
  split at h
  · cases h
  obtain ⟨rows,-,h⟩ := bind_eq_ok.mp h
  obtain rfl := ok_inj h
  exact length_replicate

lemma importProjections_cases (prim : Primitives) (granted : Bool)
    (encoded tag seed binding : Bytes) (session : Session) (inventoryRows : ℕ) (terms : Terms)
    (resources : ResourcePolicy) :
    let r := importProjections prim granted encoded tag seed binding session inventoryRows terms
      resources
    (r.2.policy=session.policy ∧ r.2.remainingAttempts = session.remainingAttempts) ∧
      ∀ b,r.1 = .ok b → b.consumed.length=b.inventoryRows := by
  unfold importProjections
  dsimp only
  split
  · exact ⟨⟨rfl,rfl⟩,nofun⟩
  split
  · exact ⟨⟨rfl,rfl⟩,nofun⟩
  rename_i session' registered
  unfold Session.registerMaterial at registered
  split at registered
  · cases registered
  obtain rfl := ok_inj registered
  split
  · exact ⟨⟨rfl,rfl⟩,nofun⟩
  split
  · exact ⟨⟨rfl,rfl⟩,nofun⟩
  refine ⟨⟨rfl,rfl⟩,fun b eq => ?_⟩
  obtain rfl := ok_inj eq
  exact length_replicate

lemma set_of_getElem? {α : Type*} {xs : List α} {i : ℕ} {x : α} (h : xs[i]? = some x) :
    xs.set i x = xs := by
  obtain ⟨inside,rfl⟩ := List.getElem?_eq_some_iff.mp h
  exact set_getElem_self inside

namespace Accounted

variable {p : Process}

section
variable (h : Accounted p)
include h

lemma addBatch {b : Result ProjectionBatch}
    (sized : ∀ b',b = .ok b' → b'.consumed.length=b'.inventoryRows) : Accounted (p.addBatch b) := by
  cases b with
  | error e => exact h
  | ok b => exact ⟨h.rows.append (sized b rfl),h.attempts,h.issued,h.answers⟩

lemma register (id : Bytes) (policy : Policy) : Accounted (p.register id policy) := by
  unfold Process.register Session.register
  split_ifs
  · exact ⟨h.rows,h.attempts,h.issued,h.answers⟩
  · exact ⟨h.rows,h.attempts,h.issued,h.answers⟩
  · exact ⟨h.rows,h.attempts.register rfl true,h.issued,h.answers⟩

lemma drop (session : ℕ) : Accounted (p.drop session) := by
  unfold Process.drop
  split
  · rename_i s found
    exact ⟨h.rows,h.attempts.set found rfl rfl,h.issued,h.answers⟩
  · exact h

lemma importProjections
    (session : ℕ) (granted : Bool) (encoded tag seed binding : Bytes) (inventoryRows : ℕ)
    (terms : Terms) (resources : ResourcePolicy) : Accounted (p.importProjections
    prim session granted encoded tag seed binding inventoryRows terms resources) := by
  unfold Process.importProjections
  split
  · rename_i s found
    obtain ⟨⟨policy,remaining⟩,sized⟩ := importProjections_cases prim granted encoded tag seed
      binding s inventoryRows terms resources
    let s' := (Freivalds.importProjections prim granted encoded tag seed binding s inventoryRows
      terms resources).2
    have changed : Accounted { p with sessions := p.sessions.set session (s',true) } :=
      ⟨h.rows,h.attempts.set found policy remaining,h.issued,h.answers⟩
    exact changed.addBatch sized
  · exact h

lemma claim (session batch : ℕ) (granted granted' : Bool)
    (seed binding : Bytes) (rowStart batchRows : ℕ) (resources : ResourcePolicy) : Accounted
    (p.claim prim session batch granted granted' seed binding rowStart batchRows resources) := by
  unfold Process.claim
  split
  · rename_i s b found found'
    dsimp only
    rcases claimVerifier_cases prim seed binding b granted granted' rowStart batchRows s resources
      with ⟨e,-,eq⟩ | ⟨start,length,admitted,-,room,eq,-⟩
    · rw [eq]
      have rows : p.batches.set batch b=p.batches := set_of_getElem? found'
      have sessions : p.sessions.set session (s,true)=p.sessions := set_of_getElem? found
      simp only [ne_eq,Process.grant,Process.issue,rows,sessions]
      exact h
    · rw [eq]
      have paid : s.remainingAttempts-batchRows ≠ s.remainingAttempts := by
        have := admitted.nonempty
        omega
      simp only [decide_eq_true paid]
      have given : Accounted { p with
          sessions := p.sessions.set session
            ({ s with remainingAttempts := s.remainingAttempts-batchRows },true)
          batches := p.batches.set batch { b with
            consumed := ProjectionBatch.fillPart b.consumed rowStart batchRows true
            values := ProjectionBatch.fillPart b.values start length 0 }
          grants := p.grants++[⟨session,batch,rowStart,batchRows⟩] } :=
        ⟨h.rows.claim found' admitted _,h.attempts.claim found room true,
          h.issued.trans (sublist_append_left _ _),h.answers⟩
      cases (b.claimVerifier prim granted granted' seed binding rowStart batchRows s resources).1 with
      | error e => exact given
      | ok v =>
        refine ⟨given.rows,given.attempts,?_,given.answers.issue _⟩
        show (map Prod.fst (p.verifiers++[_])).Sublist (p.grants++[_])
        rw [map_append]
        exact h.issued.append (Sublist.refl _)
  · exact h

lemma verify (i : ℕ) (granted : Bool) (input output : List ℤ) :
    Accounted (p.verify i granted input output) := by
  unfold Process.verify
  split
  · rename_i g v found
    dsimp only
    rcases v.verify_cases granted input output with ⟨-,eq⟩ | ⟨ready,consumed⟩
    · rw [eq]
      have same : p.verifiers.set i (g,v)=p.verifiers := set_of_getElem? found
      rw [same]
      exact h
    · have issued : ((p.verifiers.set i (g,(v.verify granted input output).2)).map
          Prod.fst).Sublist p.grants := by
        rw [map_set]
        have kept : (p.verifiers.map Prod.fst)[i]? = some g := by
          rw [getElem?_map,found]
          rfl
        rw [set_of_getElem? kept]
        exact h.issued
      obtain ⟨silent,answered⟩ := h.answers.consume found ready consumed
      unfold Process.answer
      split
      · exact ⟨h.rows,h.attempts,issued,silent⟩
      · exact ⟨h.rows,h.attempts,issued,answered⟩
  · exact h

lemma step (e : Event) : Accounted (p.step prim e) := by
  cases e with
  | register id policy => exact h.register id policy
  | drop session => exact h.drop session
  | prepare => exact h.addBatch fun b eq => prepareProjections_sized eq
  | importProjections => exact h.importProjections ..
  | claim => exact h.claim ..
  | verify i granted input output => exact h.verify i granted input output

end

lemma run (events : List Event) : Accounted (Process.run prim events) := by
  have start : Accounted Process.empty :=
    ⟨⟨nofun,nofun,nodup_nil⟩,⟨nofun,nofun⟩,Sublist.refl _,⟨nodup_nil,nofun⟩⟩
  unfold Process.run
  generalize Process.empty=p at start
  induction events generalizing p with
  | nil => exact start
  | cons e events ih =>
    exact ih _ (start.step e)

end Accounted

section
variable {inventoryRows : ℕ} {resources : ResourcePolicy} {encoded tag seed binding : Bytes}
  {session : Session} {terms : Terms}

lemma validateImport_ends {outFeatures inFeatures l1 : ℕ} (machine : signedInputBound<2^63) (small : l1<2^64) :
    Ends (validateImport inventoryRows outFeatures inFeatures signedInputBound signedOutputBound l1
      policy resources) (fun _ => True) Sane := by
  refine bind_checkedMul fun _ => ?_
  refine bind_checkedMul fun _ => ?_
  refine bind_checkedMul fun _ => ?_
  refine bind_checkedMul fun _ => ?_
  split
  · exact sane_refused _
  exact (validateDeclaredBound_ends machine small).mono fun _ _ => trivial

variable (machine : terms.signedInputBound<2^63) (small : terms.maxRowL1<2^64)
include machine small

lemma checkImport_ends : Ends (checkImport
    prim encoded tag seed binding session inventoryRows terms resources) (fun _ => True) Sane := by
  unfold checkImport
  split
  · exact sane_refused _
  refine bind_checkedMul fun _ => ?_
  refine bind_checkedMul fun _ => ?_
  refine bind_checkedMul fun _ => ?_
  split
  · exact sane_refused _
  refine (validateImport_ends machine small).bind fun _ _ => ?_
  refine (bindingDigest_ends binding).bind fun digest _ => ?_
  split
  · exact sane_refused _
  trivial

lemma importProjections_sane : (importProjections prim granted
    encoded tag seed binding session inventoryRows terms resources).1 ≠ .error .overflow := by
  unfold importProjections
  dsimp only
  split
  · rename_i e refused
    intro eq
    obtain rfl := Except.error.inj eq
    have ends : Ends (checkImport prim encoded tag seed binding session inventoryRows
      { terms with sessionId := session.id } resources) _ _ := checkImport_ends machine small
    exact ends.error refused rfl
  split
  · rename_i e refused
    intro eq
    obtain rfl := Except.error.inj eq
    unfold Session.registerMaterial at refused
    split at refused <;> cases refused
  split_ifs <;> nofun

end

/-- A call that claims rows of a batch. -/
structure ClaimCall where
  granted : Bool
  granted' : Bool
  rootSeed : Bytes
  binding : Bytes
  rowStart : ℕ
  batchRows : ℕ
  session : Session
  resources : ResourcePolicy

def ClaimCall.on (c : ClaimCall) (prim : Primitives) (b : ProjectionBatch) :
    Result Verifier × ProjectionBatch × Session :=
  b.claimVerifier prim c.granted c.granted' c.rootSeed c.binding c.rowStart c.batchRows c.session
    c.resources

lemma ClaimCall.on_sane (c : ClaimCall) (b : ProjectionBatch) :
    (c.on prim b).1 ≠ .error .overflow := by
  intro failed
  unfold ClaimCall.on at failed
  rcases claimVerifier_cases prim c.rootSeed c.binding b c.granted c.granted' c.rowStart c.batchRows
    c.session c.resources with ⟨e,sane,eq⟩ | ⟨start,length,-,-,-,-,ends⟩
  · rw [eq] at failed
    exact sane (Except.error.inj failed)
  · exact ends.error failed rfl

lemma Held.calls (held : Held origin b) (calls : List ClaimCall) :
    Held origin (calls.foldl (fun b c => (c.on prim b).2.1) b) := by
  induction calls generalizing b with
  | nil => exact held
  | cons c calls ih => exact ih (held.claim ..)

/-- What verifiers accept on machine words. -/
structure Verifies (prim : Primitives) (weights : List ℤ) (seed : Bytes) (b : ProjectionBatch)
    (rowStart batchRows : ℕ) (v : Verifier) : Prop where
  accepts : ∀ input : List ℤ,input.length=batchRows*b.terms.inFeatures →
    (∀ x∈input,x.natAbs≤b.terms.signedInputBound.toNat) →
    let output := honestRows weights b.terms.inFeatures b.terms.outFeatures batchRows input
    (v.verify true input output).1 = .ok ⟨batchRows,b.terms.outFeatures,output⟩
  sane : ∀ granted (input output : List ℤ),(∀ x∈input,x.natAbs≤2^31) →
    (v.verify granted input output).1 ≠ .error .overflow
  sound : ∀ granted (input output : List ℤ) out,(∀ x∈input,x.natAbs≤2^31) →
    (v.verify granted input output).1 = .ok out → out=⟨batchRows,b.terms.outFeatures,output⟩ ∧
      ∀ r<batchRows,∀ check<b.terms.policy.checks,∃ challenge,
        deriveChallenge prim seed (prim.contextDigest b.bindingDigest b.terms) (rowStart+r) check
          b.terms.outFeatures = .ok challenge ∧
        (modulus : ℤ) ∣ ∑ o ∈ Finset.range b.terms.outFeatures,
          ((row b.terms.outFeatures output r).getD o 0 -
            honest weights b.terms.inFeatures o ((row b.terms.inFeatures input r).getD · 0)) *
              (challenge.getD o 0:ℕ)

lemma Claimed.verifies {seed binding : Bytes} {rowStart batchRows : ℕ}
    {v : Verifier} (claimed : Claimed prim seed origin rowStart batchRows v) (prepared : Prepared
    prim seed binding weights origin) : Verifies prim weights seed origin rowStart batchRows v := by
  have first (granted : Bool) (input output : List ℤ) :
      (v.verify granted input output).1 = v.verifyClaimed granted input output := by
    rw [Verifier.verify,claimed.consumed]
    rfl
  refine ⟨fun input hin bounded => ?_,fun granted input output machine => ?_,
    fun granted input output out machine accepted => ?_⟩
  · rw [← claimed.inFeatures] at hin ⊢
    rw [← claimed.inputBound] at bounded
    rw [← claimed.outFeatures]
    dsimp only
    rw [first]
    exact claimed.verifyClaimed_honest prepared hin bounded
  · rw [first]
    intro failed
    exact (claimed.verifyClaimed_ends prepared machine).error failed rfl
  · rw [first] at accepted
    obtain ⟨eq,meets⟩ := (claimed.verifyClaimed_ends prepared machine).ok accepted
    rw [← claimed.outFeatures,← claimed.inFeatures,← claimed.checks]
    refine ⟨eq,fun r hr check hc => ⟨Claimed.challenge v r check,?_,meets r hr check hc⟩⟩
    have derived := claimed.challenges.each r hr check (claimed.checks ▸ hc)
    rw [← claimed.outFeatures,← claimed.checks] at derived
    exact derived

/-- Verifiers of rows of imported projections accept the honest outputs, and other outputs only
where all challenges miss the difference; no operation overflows; and in every run rows are granted
once, sessions pay for their rows, verifiers are issued for grants and answer once. -/
theorem verification (prim : Primitives) :
    (∀ granted weights outFeatures inFeatures inventoryRows seed binding sessionId materialId
      signedInputBound signedOutputBound policy resources,signedInputBound<2^63 →
      let r := prepareProjections prim granted weights outFeatures inFeatures inventoryRows seed
        binding sessionId materialId signedInputBound signedOutputBound policy resources
      r ≠ .error .overflow ∧ ∀ b,r = .ok b →
        b.For outFeatures inFeatures inventoryRows sessionId materialId signedInputBound
          signedOutputBound policy ∧
        ∀ encoded,b.encode = .ok encoded → ∀ session,session.id=sessionId →
        ∀ granted tag seed' resources,
          let r := importProjections prim granted encoded tag seed' binding session b.inventoryRows
            b.terms resources
          r.1 ≠ .error .overflow ∧ ∀ b',r.1 = .ok b' → ∀ (calls : List ClaimCall) (c : ClaimCall),
            let r := c.on prim (calls.foldl (fun b c => (c.on prim b).2.1) b')
            r.1 ≠ .error .overflow ∧ (c.rootSeed=seed → c.binding=binding → ∀ v,r.1 = .ok v →
              Verifies prim weights seed b c.rowStart c.batchRows v)) ∧
    ∀ events,let p := Process.run prim events
      (p.grants.flatMap Grant.taken).Nodup ∧
      (∀ i s live,p.sessions[i]? = some (s,live) → p.rowsOf i ≤ s.policy.maxAttempts) ∧
      (p.verifiers.map Prod.fst).Sublist p.grants ∧
      p.answers.Nodup := by
  refine ⟨fun granted weights outFeatures inFeatures inventoryRows seed binding sessionId materialId
    signedInputBound signedOutputBound policy resources machine => ?_,fun events => ?_⟩
  · intro r
    have ends : Ends r _ _ := prepareProjections_ends machine
    refine ⟨fun failed => ends.error failed rfl,fun b hb => ?_⟩
    obtain ⟨prepared,terms⟩ := ends.ok hb
    refine ⟨terms,fun encoded enc session own granted tag seed' resources => ?_⟩
    obtain ⟨-,-,-,hSession,-,hBound,-⟩ := terms
    have small : b.terms.maxRowL1<2^64 := prepared.l1_lt.trans (by decide)
    refine ⟨importProjections_sane (hBound ▸ machine) small,fun b' hb' calls c =>
      ⟨c.on_sane _,?_⟩⟩
    rintro rfl rfl v claimed
    have imported := import_prepared prepared enc (own.trans hSession.symm) (Prod.ext hb' rfl)
    have held : Held b b' := imported ▸ prepared.held
    exact ((held.calls calls).claimed claimed).verifies prepared
  · have accounted : Accounted (Process.run prim events) := .run events
    refine ⟨accounted.rows.once,fun i s live found => ?_,accounted.issued,accounted.answers.once⟩
    have := accounted.attempts.paid i s live found
    exact Nat.le.intro this

/-- Nothing is hashed, and the tag of a message is the message. -/
def clearPrimitives : Primitives :=
  ⟨id,fun digest _ => digest,fun _ _ row _ _ => [row+1,row+2],fun _ _ encoded => encoded⟩

def smallPolicy : Policy := ⟨1,20,4,by decide⟩

def preparedPair : ProjectionBatch :=
  ⟨2,⟨[1],[2],smallPolicy,10,1000,7,2,2⟩,[9],false,[7,6,11,8],[false,false]⟩

def pairBytes : Bytes := [7,0,0,0,6,0,0,0,11,0,0,0,8,0,0,0]

def smallResources : ResourcePolicy := ⟨9,9,9,9,9,9⟩

/-- Two rows of projections are prepared and imported, the second is claimed twice, and its
verifier is asked twice. -/
theorem verification_replayed :
    (∃ b v,(importProjections clearPrimitives true pairBytes pairBytes [7] [9]
        ⟨[1],smallPolicy,4,∅⟩ 2 preparedPair.terms smallResources).1 = .ok b ∧
      (b.claimVerifier clearPrimitives true true [7] [9] 1 1 ⟨[1],smallPolicy,4,∅⟩
        smallResources).1 = .ok v ∧
      (v.verify true [5,6] [-7,39]).1 = .ok ⟨1,2,[-7,39]⟩) ∧
    let p := Process.run clearPrimitives [.register [1] smallPolicy,
      .importProjections 0 true pairBytes pairBytes [7] [9] 2 preparedPair.terms smallResources,
      .claim 0 0 true true [7] [9] 1 1 smallResources,
      .claim 0 0 true true [7] [9] 1 1 smallResources,
      .verify 0 true [5,6] [-7,39],.verify 0 true [5,6] [-7,39]]
    p.grants.flatMap Grant.taken = [(0,1)] ∧ p.answers = [0] ∧ p.answers.Nodup := by
  obtain ⟨projections,runs⟩ := verification clearPrimitives
  refine ⟨?_,by rfl,by rfl,(runs _).2.2.2⟩
  obtain ⟨-,prepared⟩ := projections true [1,-2,3,4] 2 2 2 [7] [9] [1] [2] 10 1000 smallPolicy
    smallResources (by decide)
  obtain ⟨-,imports⟩ := prepared preparedPair (by rfl)
  obtain ⟨-,claims⟩ := imports pairBytes (by rfl) ⟨[1],smallPolicy,4,∅⟩ rfl true pairBytes [7]
    smallResources
  have imported : (importProjections clearPrimitives true pairBytes pairBytes [7] [9]
      ⟨[1],smallPolicy,4,∅⟩ 2 preparedPair.terms smallResources).1 =
      .ok { preparedPair with claimable := true } := by rfl
  obtain ⟨-,verifies⟩ := claims _ imported []
    ⟨true,true,[7],[9],1,1,⟨[1],smallPolicy,4,∅⟩,smallResources⟩
  have claimed := verifies rfl rfl _ rfl
  exact ⟨_,_,imported,rfl,claimed.accepts [5,6] rfl (by decide)⟩

end Pllm.Freivalds
