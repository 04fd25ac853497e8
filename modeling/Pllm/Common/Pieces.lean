import Pllm.Common.Slices
import Pllm.Lib.Except

/-! Buffers that are filled with pieces of one target, in any order and as often as the loop goes. -/
namespace Pllm
open Pllm.Lib List

/-- The places of a piece. -/
def piece (start len i : ℕ) : Prop := start ≤ i ∧ i < start+len

/-- A buffer that has the values of a target at the places already written. -/
structure Agrees {α : Type*} (target out : List α) (done : ℕ → Prop) : Prop where
  length : out.length=target.length
  get : ∀ i, done i → out[i]? = target[i]?

namespace Agrees
variable {α β : Type} {target out : List α} {done : ℕ → Prop}

section
variable {start : ℕ} {ε : Type} {step : List α → β → Except ε (List α)}

lemma init (h : out.length=target.length) : Agrees target out fun _ => False :=
  ⟨h,nofun⟩

section
variable (h : Agrees target out done)
include h

lemma eq (hall : ∀ i<target.length, done i) : out=target := by
  refine ext_getElem? fun i => ?_
  by_cases hi : i<target.length
  · exact h.get i (hall i hi)
  · rw [getElem?_eq_none (by rw [h.length]; omega),getElem?_eq_none (by omega)]

lemma mono {fewer : ℕ → Prop} (hle : ∀ i, fewer i → done i) : Agrees target out fewer :=
  ⟨h.length,fun i hi => h.get i (hle i hi)⟩

/-- One more piece of the target. -/
lemma splice {len : ℕ} {source : List α}
    (hsrc : source = slice target start len) (hlen : start+len≤target.length) :
    Agrees target (splice out start source) fun i => done i ∨ piece start len i := by
  have hleng : source.length=len := by rw [hsrc,length_slice hlen]
  have hbd : start+source.length≤out.length := by rw [hleng,h.length]; exact hlen
  refine ⟨by rw [length_splice hbd,h.length],fun i hi => ?_⟩
  rw [getElem?_splice hbd,hleng]
  by_cases hpie : start ≤ i ∧ i < start+len
  · rw [if_pos hpie,hsrc,getElem?_slice,if_pos (by omega)]
    congr 1
    omega
  · rw [if_neg hpie]
    rcases hi with hi | hi
    · exact h.get i hi
    · exact absurd hi hpie

/-- One more element of the target. -/
lemma set {value : α} (hval : target[start]? = some value) :
    Agrees target (out.set start value) fun i => done i ∨ piece start 1 i := by
  refine ⟨by rw [length_set,h.length],fun i hi => ?_⟩
  have hst : start<out.length := by
    rw [h.length]
    exact (List.getElem?_eq_some_iff.mp hval).1
  rw [getElem?_set]
  by_cases heq : start=i
  · rw [if_pos heq,if_pos hst,← heq,hval]
  · rw [if_neg heq]
    rcases hi with hi | ⟨hlow,hhigh⟩
    · exact h.get i hi
    · omega

end

/-- A loop whose every step writes what the target has at the places it covers. -/
lemma foldl {step : List α → β → List α} {covers : β → ℕ → Prop} (xs : List β)
    (h : Agrees target out done) (hstep : ∀ x∈xs, ∀ out done, Agrees target out done →
      Agrees target (step out x) fun i => done i ∨ covers x i) :
    Agrees target (xs.foldl step out) fun i => done i ∨ ∃ x∈xs, covers x i := by
  induction xs generalizing out done with
  | nil => exact h.mono fun i hi => by simpa using hi
  | cons x xs ih =>
    have hrest := ih (hstep x mem_cons_self out done h) fun y hy => hstep y (mem_cons_of_mem _ hy)
    refine hrest.mono fun i hi => ?_
    simp only [mem_cons,exists_eq_or_imp] at hi
    tauto

variable (covers : β → ℕ → Prop) (xs : List β)

/-- The same for a loop that can fail, with steps that succeed. -/
lemma foldlM (h : Agrees target out done) (hstep : ∀ x∈xs, ∀ out done, Agrees target out done →
    ∃ next, step out x = .ok next ∧ Agrees target next fun i => done i ∨ covers x i) : ∃ last,
    xs.foldlM step out = .ok last ∧ Agrees target last fun i => done i ∨ ∃ x∈xs, covers x i := by
  induction xs generalizing out done with
  | nil => exact ⟨out,rfl,h.mono fun i hi => by simpa using hi⟩
  | cons x xs ih =>
    obtain ⟨next,hnext,hagr⟩ := hstep x mem_cons_self out done h
    obtain ⟨last,hlast,hrest⟩ := ih hagr fun y hy => hstep y (mem_cons_of_mem _ hy)
    refine ⟨last,by rw [foldlM_cons,hnext,ok_bind,hlast],hrest.mono fun i hi => ?_⟩
    simp only [mem_cons,exists_eq_or_imp] at hi
    tauto

/-- A loop that covers the target ends with it. -/
lemma foldlM_eq (hleng : out.length=target.length) (hcov : ∀ i<target.length, ∃ x∈xs, covers x i)
    (hstep : ∀ x∈xs, ∀ out done, Agrees target out done → ∃ next, step out x = .ok next ∧
    Agrees target next fun i => done i ∨ covers x i) : xs.foldlM step out = .ok target := by
  obtain ⟨last,hlast,hagr⟩ := (init hleng).foldlM covers xs hstep
  rw [hlast,hagr.eq fun i hi => .inr (hcov i hi)]

end

end Agrees

end Pllm
