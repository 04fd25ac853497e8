import Pllm.Fusefss.PredicatesCorrect

/-! Whole runs of the two parties: frames read back, one round for the masked word and one for every
gate, and shares of the Boolean outputs at the end. -/
namespace Pllm.Fusefss.Predicates
open Pllm.Lib List
open Pllm.Fss.CompactDcf (RingComparison bitWord)
open Pllm.Fss.SharedRescale (Context)

/-- Two parties of one issuance in the same round. -/
structure Partners (shape : Shape) (a b : Party) : Prop where
  ids : a.id=false ∧ b.id=true
  bits : b.bits=a.bits
  shapes : a.shape=shape ∧ b.shape=shape
  binding : b.binding=a.binding
  nonce : b.nonce=a.nonce
  round : b.round=a.round

lemma drop_flatMap_leBytes (words : List (BitVec 64)) (i : ℕ) (hi : i<words.length) :
    ((words.flatMap (leBytes 8)).drop (8*i)).take 8 = leBytes 8 (words.getD i 0) := by
  induction words generalizing i with
  | nil => exact absurd hi (Nat.not_lt_zero i)
  | cons word words ih =>
    rw [flatMap_cons]
    cases i with
    | zero =>
      rw [drop_zero,take_left' (length_leBytes ..),getD_cons_zero]
    | succ i =>
      exact ih i (by simpa using hi)

variable {a b : Party} {k : ℕ} {final : List Bool}

namespace Party

/-- The part of a frame before its words. -/
def header (self : Party) : List Byte :=
  magic++(leBytes 32 self.binding++(leBytes 32 self.nonce
    ++ ([BitVec.ofNat 8 self.bits,if self.id then 1 else 0,0,0]
      ++ leBytes 4 (BitVec.ofNat 32 self.round))))

variable (self : Party) (words : List (BitVec 64))

lemma frameBytes_eq : self.frameBytes words = self.header++words.flatMap (leBytes 8) := by
  simp only [frameBytes,header,append_assoc]

lemma length_header : self.header.length=headerBytes := by
  simp [header,magic,ascii,headerBytes]

lemma readWord_frameBytes {i : ℕ} (hi : i<words.length) :
    readWord (self.frameBytes words) i = words.getD i 0 := by
  have hdrop : (self.frameBytes words).drop (headerBytes+8*i)
      = (words.flatMap (leBytes 8)).drop (8*i) := by
    rw [frameBytes_eq,←self.length_header,drop_length_add_append]
  rw [readWord,hdrop,drop_flatMap_leBytes words i hi,ofLeBytes_leBytes _ (by decide)]

lemma length_frameBytes : (self.frameBytes words).length = headerBytes+8*words.length := by
  rw [frameBytes_eq,length_append,length_header]
  congr 1
  induction words with
  | nil => rfl
  | cons word words ih =>
    rw [flatMap_cons,length_append,length_leBytes,length_cons]
    omega

lemma check_frameBytes (hid : b.id = !a.id) (hbits : b.bits=a.bits) (hbin : b.binding=a.binding)
    (hnon : b.nonce=a.nonce) (hrou : b.round=a.round) {words : List (BitVec 64)} {max : BitVec 64}
    (hmax : ∀ w∈words, w ≤ max) : a.check (b.frameBytes words) words.length max = .ok () := by
  have hlen := b.length_frameBytes words
  have hmag : magic.length=8 := rfl
  have hpeer : (if b.id then 1 else 0 : Byte)=if a.id then 0 else 1 := by
    rw [hid]
    cases a.id <;> rfl
  have hover : ((range words.length).any fun i =>
      decide (readWord (b.frameBytes words) i>max)) = false := by
    rw [any_eq_false]
    intro i hi
    have hi' := mem_range.mp hi
    rw [readWord_frameBytes b words hi',getD_eq_getElem _ _ hi',decide_eq_true_eq]
    exact BitVec.not_lt.mpr (hmax _ (getElem_mem hi'))
  rw [check]
  rw [hover,hlen,frameBytes_eq,header,hbin,hnon,hrou,hbits,hpeer]
  simp [drop_append,drop_of_length_le,hmag]

end Party

/-- Every allocation is granted. -/
def granting : ℕ → Bool := fun _ => true

/-- Both parties take the frame of the other, round by round; the outputs after exactly so many
further frames each. -/
def exchange (env : Platform) : ℕ → Party → Party → List Byte → List Byte →
    Option (List (BitVec 64) × List (BitVec 64))
  | 0, a, b, fa, fb =>
    match a.advance env granting fb, b.advance env granting fa with
    | (.ok (.output u),_), (.ok (.output v),_) => some (u,v)
    | _, _ => none
  | n+1, a, b, fa, fb =>
    match a.advance env granting fb, b.advance env granting fa with
    | (.ok (.frame fa),a), (.ok (.frame fb),b) => exchange env n a b fa fb
    | _, _ => none

section
variable {env : Platform} {shape : Shape} {answers : ℕ → Bool}

variable {self : Party} {peer : List Byte} {state : State}

lemma Party.advance_frame {e e' : Execution} {p : Pending} (hsta : self.state = some state)
    (hres : { self with state := none }.resumed env granting peer state = .ok (e,k))
    (hrun : Execution.run self.id self.shape (e.material.code.drop e.pc) e = .ok (.inl (p,e')))
    (hlea : headerBytes+16 ≤ self.lease) :
    self.advance env granting peer
      = (.ok (.frame ({ self with round := self.round+1 }.frameBytes [p.opening.1,p.opening.2])),
        { self with
          round := self.round+1
          lease := self.lease-(headerBytes+16)
          state := some (.gate e' p) }) := by
  have hspl : split self.lease (headerBytes+2*8) = .ok (self.lease-(headerBytes+16)) :=
    if_neg (not_lt.mpr hlea)
  simp only [Party.advance,Party.taking,hsta,Party.advanced,hres,ok_bind,hrun,Party.frame,
    granting,not_true_eq_false,if_false,length_cons,length_nil,Nat.zero_add,
    Nat.reduceAdd,hspl,pure_eq_ok]
  rfl

lemma Party.advance_output {e : Execution} {values : List (BitVec 64)} (hsta : self.state = some state)
    (hres : { self with state := none }.resumed env granting peer state = .ok (e,k))
    (hrun : Execution.run self.id self.shape (e.material.code.drop e.pc) e = .ok (.inr values))
    (hlea : 8*self.shape.booleanOutputs ≤ self.lease) :
    self.advance env granting peer = (.ok (.output values),
      { self with
        round := self.round+1
        lease := self.lease-8*self.shape.booleanOutputs
        state := none }) := by
  have hspl : split self.lease (8*self.shape.booleanOutputs)
      = .ok (self.lease-8*self.shape.booleanOutputs) := if_neg (not_lt.mpr hlea)
  simp only [Party.advance,Party.taking,hsta,Party.advanced,hres,ok_bind,hrun,hspl, pure_eq_ok]

/-- The executions that the two frames set going. -/
def Resumes (env : Platform) (shape : Shape) (answers : ℕ → Bool) (a b : Party) (fa fb : List Byte)
    (final : List Bool) (count : ℕ) : Prop :=
  ∃ sa sb e f k l steps, a.state = some sa ∧ b.state = some sb
    ∧ { a with state := none }.resumed env granting fb sa = .ok (e,k)
    ∧ { b with state := none }.resumed env granting fa sb = .ok (f,l)
    ∧ Runs shape answers e f final steps count

/-- From a gate on: the peer's opening sets the rest going. -/
lemma resumes_gate (hab : Partners shape a b) {p q : Pending} {e f : Execution} {steps count : ℕ} {z z' : BitVec 64}
    (hp : p.opening.1≤1 ∧ p.opening.2≤1) (hq : q.opening.1≤1 ∧ q.opening.2≤1)
    (hz : p.triple.finish false p.opening q.opening = .ok z)
    (hz' : q.triple.finish true q.opening p.opening = .ok z')
    (hruns : Runs shape answers { e with stack := (z ^^^ p.orXor)::e.stack }
      { f with stack := (z' ^^^ q.orXor)::f.stack } final steps count)
    (ha : a.state = some (.gate e p)) (hb : b.state = some (.gate f q)) :
    Resumes env shape answers a b (a.frameBytes [p.opening.1,p.opening.2])
      (b.frameBytes [q.opening.1,q.opening.2]) final count := by
  have hchk : ∀ (x y : Party) (o : BitVec 64 × BitVec 64), y.id = !x.id → y.bits=x.bits →
      y.binding=x.binding → y.nonce=x.nonce → y.round=x.round → o.1≤1 ∧ o.2≤1 →
      x.check (y.frameBytes [o.1,o.2]) 2 1 = .ok () := fun x y o h1 h2 h3 h4 h5 ho =>
    Party.check_frameBytes h1 h2 h3 h4 h5 fun w hw => by
      rcases mem_cons.mp hw with rfl | hw
      · exact ho.1
      · exact (mem_singleton.mp hw) ▸ ho.2
  have hread : ∀ (y : Party) (o : BitVec 64 × BitVec 64),
      (readWord (y.frameBytes [o.1,o.2]) 0,readWord (y.frameBytes [o.1,o.2]) 1) = o := fun y o => by
    rw [Party.readWord_frameBytes y _ (by simp),Party.readWord_frameBytes y _ (by simp)]
    rfl
  refine ⟨_,_,_,_,0,0,steps,ha,hb,?_,?_,hruns⟩
  · have hc := hchk { a with state := none } b q.opening (by rw [hab.ids.2]; simp only [hab.ids.1]; rfl)
      hab.bits hab.binding hab.nonce hab.round hq
    simp only [Party.resumed,hc,hread]
    simp only [hab.ids.1,hz,Except.mapError,ok_bind,pure_eq_ok]
  · have hc := hchk { b with state := none } a p.opening
      (by rw [hab.ids.1]; simp only [hab.ids.2]; rfl) hab.bits.symm hab.binding.symm hab.nonce.symm
      hab.round.symm hp
    simp only [Party.resumed,hc,hread]
    simp only [hab.ids.2,hz',Except.mapError,ok_bind,pure_eq_ok]

/-- The exchange ends with shares of the outputs, after a frame for every gate that is left. -/
lemma exchange_eq {fa fb : List Byte} {count : ℕ} (hab : Partners shape a b) (h : Resumes env shape
    answers a b fa fb final count) (ha : count*(headerBytes+16)+8*shape.booleanOutputs ≤ a.lease)
    (hb : count*(headerBytes+16)+8*shape.booleanOutputs ≤ b.lease) :
    ∃ u v, exchange env count a b fa fb = some (u,v) ∧ SharedList u v final := by
  induction count generalizing a b fa fb with
  | zero =>
    obtain ⟨sa,sb,e,f,k,l,steps,hsa,hsb,hra,hrb,hruns⟩ := h
    rcases hruns.run with ⟨-,u,v,hu,hv,huv⟩ | ⟨c,-,p,-,-,-,hc,-⟩
    · have hua := Party.advance_output hsa hra (by rw [hab.ids.1,hab.shapes.1]; exact hu)
        (by rw [hab.shapes.1]; omega)
      have hvb := Party.advance_output hsb hrb (by rw [hab.ids.2,hab.shapes.2]; exact hv)
        (by rw [hab.shapes.2]; omega)
      exact ⟨u,v,by simp only [exchange,hua,hvb],huv⟩
    · exact absurd hc (Nat.succ_ne_zero c).symm
  | succ count ih =>
    obtain ⟨sa,sb,e,f,k,l,steps,hsa,hsb,hra,hrb,hruns⟩ := h
    rcases hruns.run with ⟨hzero,-⟩ | ⟨c,steps',p,q,e',f',hc,he,hf,hp,hq,z,z',hz,hz',hrest⟩
    · exact absurd hzero (Nat.succ_ne_zero count)
    · obtain rfl : count=c := Nat.succ.inj hc
      have hmul : (count+1)*(headerBytes+16)=count*(headerBytes+16)+(headerBytes+16) :=
        Nat.succ_mul ..
      have hea := Party.advance_frame hsa hra (by rw [hab.ids.1,hab.shapes.1]; exact he) (by omega)
      have hfb := Party.advance_frame hsb hrb (by rw [hab.ids.2,hab.shapes.2]; exact hf) (by omega)
      have hab' : Partners shape
          { a with round := a.round+1, lease := a.lease-(headerBytes+16), state := some (.gate e' p) }
          { b with round := b.round+1, lease := b.lease-(headerBytes+16), state := some (.gate f' q) } :=
        ⟨hab.ids,hab.bits,hab.shapes,hab.binding,hab.nonce,congrArg (·+1) hab.round⟩
      have hnext := ih hab' (resumes_gate hab' hp hq hz hz' hrest rfl rfl) (by simp only; omega)
        (by simp only; omega)
      simp only [exchange,hea,hfb]
      exact hnext

end

end Pllm.Fusefss.Predicates
