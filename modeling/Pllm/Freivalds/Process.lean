import Pllm.Freivalds.VerifierCorrect

/-! Runs of a process with its sessions, batches and verifiers: a row is claimed once, sessions pay
for their rows, and verifiers answer once. -/
namespace Pllm.Freivalds
open List

/-- Rows of a batch that a session has paid for. -/
structure Grant where
  session : ℕ
  batch : ℕ
  start : ℕ
  rows : ℕ

def Grant.taken (g : Grant) : List (ℕ × ℕ) := (List.range g.rows).map fun i => (g.batch,g.start+i)

/-- Sessions are kept when they are dropped, but are not live then. The grants and the answers are a
record of what has happened. -/
structure Process where
  registry : Finset Bytes
  sessions : List (Session × Bool)
  batches : List ProjectionBatch
  verifiers : List (Grant × Verifier)
  grants : List Grant
  answers : List ℕ

inductive Event
  | register (id : Bytes) (policy : Policy)
  | drop (session : ℕ)
  | prepare (granted : Bool) (weights : List ℤ) (outFeatures inFeatures inventoryRows : ℕ)
      (rootSeed binding sessionId materialId : Bytes) (signedInputBound signedOutputBound : ℤ)
      (policy : Policy) (resources : ResourcePolicy)
  | importProjections (session : ℕ) (granted : Bool) (encoded tag rootSeed binding : Bytes)
      (inventoryRows : ℕ) (terms : Terms) (resources : ResourcePolicy)
  | claim (session batch : ℕ) (granted granted' : Bool) (rootSeed binding : Bytes)
      (rowStart batchRows : ℕ) (resources : ResourcePolicy)
  | verify (verifier : ℕ) (granted : Bool) (input output : List ℤ)

namespace Process

def empty : Process := ⟨∅,[],[],[],[],[]⟩

variable (prim : Primitives)

def addBatch (p : Process) : Result ProjectionBatch → Process
  | .error _ => p
  | .ok b => { p with batches := p.batches++[b] }

def register (p : Process) (id : Bytes) (policy : Policy) : Process :=
  match Session.register p.registry id policy with
  | (.error _,registry) => { p with registry }
  | (.ok s,registry) => { p with registry, sessions := p.sessions++[(s,true)] }

/-- The id of a dropped session may be registered again. -/
def drop (p : Process) (session : ℕ) : Process :=
  match p.sessions[session]? with
  | some (s,true) =>
    { p with registry := p.registry.erase s.id, sessions := p.sessions.set session (s,false) }
  | _ => p

def importProjections (p : Process) (session : ℕ) (granted : Bool)
    (encoded tag rootSeed binding : Bytes) (inventoryRows : ℕ) (terms : Terms)
    (resources : ResourcePolicy) : Process :=
  match p.sessions[session]? with
  | some (s,true) =>
    let r := Freivalds.importProjections prim granted encoded tag rootSeed binding s inventoryRows
      terms resources
    { p with sessions := p.sessions.set session (r.2,true) }.addBatch r.1
  | _ => p

/-- Rows are granted when their session pays for them. -/
def grant (p : Process) (g : Grant) (paid : Bool) : Process :=
  if paid then { p with grants := p.grants++[g] } else p

def issue (p : Process) (g : Grant) : Result Verifier → Process
  | .error _ => p
  | .ok v => { p with verifiers := p.verifiers++[(g,v)] }

def claim (p : Process) (session batch : ℕ) (granted granted' : Bool) (rootSeed binding : Bytes)
    (rowStart batchRows : ℕ) (resources : ResourcePolicy) : Process :=
  match p.sessions[session]?,p.batches[batch]? with
  | some (s,true),some b =>
    let r := b.claimVerifier prim granted granted' rootSeed binding rowStart batchRows s resources
    let g : Grant := ⟨session,batch,rowStart,batchRows⟩
    ({ p with
      sessions := p.sessions.set session (r.2.2,true)
      batches := p.batches.set batch r.2.1 }.grant g
        (r.2.2.remainingAttempts≠s.remainingAttempts)).issue g r.1
  | _,_ => p

/-- What is not refused as consumed is an answer. -/
def answer (p : Process) (verifier : ℕ) : Result VerifiedBatch → Process
  | .error (.refused .consumed) => p
  | _ => { p with answers := p.answers++[verifier] }

def verify (p : Process) (verifier : ℕ) (granted : Bool) (input output : List ℤ) : Process :=
  match p.verifiers[verifier]? with
  | some (g,v) =>
    let r := v.verify granted input output
    { p with verifiers := p.verifiers.set verifier (g,r.2) }.answer verifier r.1
  | none => p

def step (p : Process) : Event → Process
  | .register id policy => p.register id policy
  | .drop session => p.drop session
  | .prepare granted weights outFeatures inFeatures inventoryRows rootSeed binding sessionId
      materialId signedInputBound signedOutputBound policy resources =>
    p.addBatch (prepareProjections prim granted weights outFeatures inFeatures inventoryRows
      rootSeed binding sessionId materialId signedInputBound signedOutputBound policy resources)
  | .importProjections session granted encoded tag rootSeed binding inventoryRows terms resources =>
    p.importProjections prim session granted encoded tag rootSeed binding inventoryRows terms
      resources
  | .claim session batch granted granted' rootSeed binding rowStart batchRows resources =>
    p.claim prim session batch granted granted' rootSeed binding rowStart batchRows resources
  | .verify verifier granted input output => p.verify verifier granted input output

def run (events : List Event) : Process := events.foldl (step prim) empty

/-- The rows that a session has paid for. -/
def rowsOf (p : Process) (session : ℕ) : ℕ :=
  ((p.grants.filter fun g => g.session=session).map Grant.rows).sum

end Process

open Pllm.Lib

variable {prim : Primitives}

/-- Rows that were taken are consumed in their batch, so that none is taken again. -/
structure RowsOnce (batches : List ProjectionBatch) (grants : List Grant) : Prop where
  sized : ∀ b∈batches,b.consumed.length=b.inventoryRows
  burned : ∀ g∈grants,∀ r,g.start ≤ r → r<g.start+g.rows →
    ∃ b,batches[g.batch]? = some b ∧ b.consumed.getD r false = true
  once : (grants.flatMap Grant.taken).Nodup

/-- What a session has left and the rows that it has paid for make up its attempts. -/
structure AttemptsPaid (sessions : List (Session × Bool)) (grants : List Grant) : Prop where
  known : ∀ g∈grants,g.session < sessions.length
  paid : ∀ i s live,sessions[i]? = some (s,live) →
    ((grants.filter fun g => g.session=i).map Grant.rows).sum+s.remainingAttempts =
      s.policy.maxAttempts

/-- A verifier that has answered is consumed. -/
structure AnsweredOnce (verifiers : List (Grant × Verifier)) (answers : List ℕ) : Prop where
  once : answers.Nodup
  spent : ∀ i∈answers,∃ g v,verifiers[i]? = some (g,v) ∧ v.consumed=true

structure Accounted (p : Process) : Prop where
  rows : RowsOnce p.batches p.grants
  attempts : AttemptsPaid p.sessions p.grants
  issued : (p.verifiers.map Prod.fst).Sublist p.grants
  answers : AnsweredOnce p.verifiers p.answers

section
variable {batches : List ProjectionBatch} {grants : List Grant} {b : ProjectionBatch}

lemma mem_taken {g : Grant} {batch r : ℕ} :
    (batch,r)∈g.taken ↔ g.batch=batch ∧ g.start ≤ r ∧ r<g.start+g.rows := by
  simp only [Grant.taken,mem_map,mem_range,Prod.mk.injEq]
  constructor
  · rintro ⟨i,hi,rfl,rfl⟩
    exact ⟨rfl,by omega,by omega⟩
  · rintro ⟨rfl,low,high⟩
    exact ⟨r-g.start,by omega,rfl,by omega⟩

lemma nodup_taken (g : Grant) : g.taken.Nodup := by
  refine List.Nodup.map (fun i j eq => ?_) nodup_range
  simpa using eq

lemma RowsOnce.append (h : RowsOnce batches grants)
    (sized : b.consumed.length=b.inventoryRows) : RowsOnce (batches++[b]) grants := by
  refine ⟨fun b' m => ?_,fun g m r low high => ?_,h.once⟩
  · rcases mem_append.mp m with m | m
    · exact h.sized b' m
    · obtain rfl := mem_singleton.mp m
      exact sized
  · obtain ⟨b',eq,taken⟩ := h.burned g m r low high
    exact ⟨b',getElem?_append_left (List.getElem?_eq_some_iff.mp eq).1 ▸ eq,taken⟩

/-- A claim takes rows that nobody has taken. -/
lemma RowsOnce.claim {session batch rowStart batchRows start length : ℕ} {binding : Bytes}
    (h : RowsOnce batches grants) (found : batches[batch]? = some b)
    (admitted : Admitted prim binding b rowStart batchRows start length) (values : List ℕ) :
    RowsOnce (batches.set batch { b with
        consumed := ProjectionBatch.fillPart b.consumed rowStart batchRows true
        values := values })
      (grants++[⟨session,batch,rowStart,batchRows⟩]) := by
  have sized := h.sized b (mem_of_getElem? found)
  have inside : rowStart+batchRows≤b.consumed.length := sized ▸ admitted.inside
  have known : batch<batches.length := (List.getElem?_eq_some_iff.mp found).1
  have filled (r : ℕ) := getD_fillPart true false inside r
  refine ⟨fun b' m => ?_,fun g m r low high => ?_,?_⟩
  · rcases mem_or_eq_of_mem_set m with m | rfl
    · exact h.sized b' m
    · exact (length_fillPart true inside).trans sized
  · by_cases same : g.batch=batch
    · refine ⟨_,(congrArg _ same).trans (getElem?_set_self known),(filled r).trans ?_⟩
      split
      · rfl
      rename_i outside
      rcases mem_append.mp m with m | m
      · obtain ⟨b',eq,taken⟩ := h.burned g m r low high
        obtain rfl : b=b' := some_inj (found.symm.trans (same ▸ eq))
        exact taken
      · obtain rfl := mem_singleton.mp m
        exact absurd ⟨low,high⟩ outside
    · rcases mem_append.mp m with m | m
      · obtain ⟨b',eq,taken⟩ := h.burned g m r low high
        exact ⟨b',(getElem?_set_ne (Ne.symm same)).trans eq,taken⟩
      · obtain rfl := mem_singleton.mp m
        exact absurd rfl same
  · rw [flatMap_append,flatMap_singleton]
    refine nodup_append.mpr ⟨h.once,nodup_taken _,?_⟩
    rintro ⟨i,r⟩ old _ new rfl
    obtain ⟨here,low,high⟩ := mem_taken.mp new
    have here : batch=i := here
    subst here
    obtain ⟨g,m,old⟩ := mem_flatMap.mp old
    obtain ⟨same,low',high'⟩ := mem_taken.mp old
    obtain ⟨b',eq,taken⟩ := h.burned g m r low' high'
    obtain rfl : b=b' := some_inj (found.symm.trans (same ▸ eq))
    rw [admitted.fresh r low high] at taken
    cases taken

end

section
variable {sessions : List (Session × Bool)} {grants : List Grant} {s : Session} {session : ℕ}
  {live : Bool}

section
variable (h : AttemptsPaid sessions grants)
include h

lemma AttemptsPaid.register (full : s.remainingAttempts=s.policy.maxAttempts) (live : Bool) :
    AttemptsPaid (sessions++[(s,live)]) grants := by
  refine ⟨fun g m => ?_,fun i s' live' eq => ?_⟩
  · have := h.known g m
    rw [length_append]
    omega
  · by_cases inside : i < sessions.length
    · exact h.paid i s' live' (getElem?_append_left inside ▸ eq)
    · have last := (List.getElem?_eq_some_iff.mp eq).1
      rw [length_append,length_singleton] at last
      obtain rfl : i=sessions.length := by omega
      rw [getElem?_concat_length] at eq
      obtain ⟨rfl,-⟩ := Prod.mk.inj (some_inj eq)
      have none : grants.filter (fun g => g.session=sessions.length)=[] := by
        refine filter_eq_nil_iff.mpr fun g m same => ?_
        have := h.known g m
        simp only [decide_eq_true_eq] at same
        omega
      rw [none,full]
      simp

lemma AttemptsPaid.set {s' : Session} {live' : Bool} (found : sessions[session]? = some (s,live))
    (policy : s'.policy=s.policy) (remaining : s'.remainingAttempts=s.remainingAttempts) :
    AttemptsPaid (sessions.set session (s',live')) grants := by
  refine ⟨fun g m => ?_,fun i t l eq => ?_⟩
  · rw [length_set]
    exact h.known g m
  by_cases same : session=i
  · subst same
    rw [getElem?_set_self (List.getElem?_eq_some_iff.mp found).1] at eq
    obtain ⟨rfl,-⟩ := Prod.mk.inj (some_inj eq)
    rw [policy,remaining]
    exact h.paid session s live found
  · rw [getElem?_set_ne same] at eq
    exact h.paid i t l eq

lemma AttemptsPaid.claim {batch rowStart batchRows : ℕ} (found
    : sessions[session]? = some (s,live)) (room : batchRows ≤ s.remainingAttempts) (live' : Bool) :
    AttemptsPaid (sessions.set session
        ({ s with remainingAttempts := s.remainingAttempts-batchRows },live'))
      (grants++[⟨session,batch,rowStart,batchRows⟩]) := by
  have known := (List.getElem?_eq_some_iff.mp found).1
  refine ⟨fun g m => ?_,fun i t l eq => ?_⟩
  · rw [length_set]
    rcases mem_append.mp m with m | m
    · exact h.known g m
    · obtain rfl := mem_singleton.mp m
      exact known
  · rw [filter_append,map_append,sum_append]
    by_cases same : session=i
    · subst same
      rw [getElem?_set_self known] at eq
      obtain ⟨rfl,-⟩ := Prod.mk.inj (some_inj eq)
      have before := h.paid session s live found
      simp only [decide_true,filter_cons_of_pos,filter_nil,map_cons,map_nil,
        sum_cons,sum_nil,Nat.add_zero]
      omega
    · rw [getElem?_set_ne same] at eq
      simpa [same] using h.paid i t l eq

end

end

variable {verifiers : List (Grant × Verifier)} {answers : List ℕ}

lemma AnsweredOnce.issue (h : AnsweredOnce verifiers answers) (v : Grant × Verifier) : AnsweredOnce
    (verifiers++[v]) answers := by
  refine ⟨h.once,fun i m => ?_⟩
  obtain ⟨g,v',eq,spent⟩ := h.spent i m
  exact ⟨g,v',getElem?_append_left (List.getElem?_eq_some_iff.mp eq).1 ▸ eq,spent⟩

lemma Verifier.verify_cases (v : Verifier) (granted : Bool) (input output : List ℤ) :
    (v.consumed=true ∧ v.verify granted input output = (refuse .consumed,v)) ∨
    (v.consumed=false ∧ (v.verify granted input output).2.consumed = true) := by
  unfold Verifier.verify
  cases consumed : v.consumed with
  | true => exact .inl ⟨rfl,by simp⟩
  | false => exact .inr ⟨rfl,by simp⟩

lemma AnsweredOnce.consume (h : AnsweredOnce verifiers answers)
    {i : ℕ} {g : Grant} {v v' : Verifier} (found : verifiers[i]? = some (g,v))
    (ready : v.consumed=false) (consumed : v'.consumed=true) : AnsweredOnce
    (verifiers.set i (g,v')) answers ∧ AnsweredOnce (verifiers.set i (g,v')) (answers++[i]) := by
  have known := (List.getElem?_eq_some_iff.mp found).1
  have unanswered : i ∉ answers := by
    intro m
    obtain ⟨_,_,eq,spent⟩ := h.spent i m
    obtain ⟨rfl,rfl⟩ := Prod.mk.inj (some_inj (found.symm.trans eq))
    rw [ready] at spent
    cases spent
  have set : ∀ j ∈ answers++[i],
      ∃ g' w,(verifiers.set i (g,v'))[j]? = some (g',w) ∧ w.consumed=true := by
    intro j m
    by_cases same : i=j
    · subst same
      exact ⟨g,v',getElem?_set_self known,consumed⟩
    · rw [getElem?_set_ne same]
      rcases mem_append.mp m with m | m
      · exact h.spent j m
      · exact absurd (mem_singleton.mp m).symm same
  refine ⟨⟨h.once,fun j m => set j (mem_append_left _ m)⟩,?_,set⟩
  refine nodup_append.mpr ⟨h.once,nodup_singleton i,?_⟩
  rintro a old _ new rfl
  obtain rfl := mem_singleton.mp new
  exact unanswered old

end Pllm.Freivalds
