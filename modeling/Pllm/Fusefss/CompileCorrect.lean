import Pllm.Fusefss.Descriptor
import Pllm.Lib.Except

/-! What the emitted programs compute: every comparison of the word becomes two comparisons of the
masked word and a carry, and the stack machine runs a tree in postfix order. -/
namespace Pllm.Fusefss
open Pllm.Lib List

/-- A source expression. -/
inductive Tree
  | const (v : Bool)
  | lt (t : ℕ)
  | lowLt (k t : ℕ)
  | signedLt (t : ℤ)
  | msb (c : ℕ)
  | not (a : Tree)
  | xor (a b : Tree)
  | and (a b : Tree)
  | or (a b : Tree)

/-- The two's complement reading of a word. -/
def signed (bits x : ℕ) : ℤ := if x<2^(bits-1) then (x : ℤ) else (x : ℤ)-2^bits

namespace Tree

def eval (bits x : ℕ) : Tree → Bool
  | .const v => v
  | .lt t => decide (x<t)
  | .lowLt k t => decide (x%2^k<t)
  | .signedLt t => decide (signed bits x < t)
  | .msb c => ((x+c)%2^bits).testBit (bits-1)
  | .not a => !a.eval bits x
  | .xor a b => a.eval bits x != b.eval bits x
  | .and a b => a.eval bits x && b.eval bits x
  | .or a b => a.eval bits x || b.eval bits x

/-- The constants are in the range of the word. -/
def Admitted (bits : ℕ) : Tree → Prop
  | .const _ => True
  | .lt t => t≤2^bits
  | .lowLt k t => 0<k ∧ k≤bits ∧ t≤2^k
  | .signedLt t => -((2^bits/2:ℕ) : ℤ)≤t ∧ t ≤ ((2^bits/2:ℕ) : ℤ)
  | .msb c => c<2^bits
  | .not a => a.Admitted bits
  | .xor a b => a.Admitted bits ∧ b.Admitted bits
  | .and a b => a.Admitted bits ∧ b.Admitted bits
  | .or a b => a.Admitted bits ∧ b.Admitted bits

end Tree

/-- How a document spells an expression. -/
inductive Spells : Value → Tree → Prop
  | const {b : ℕ} (hb : b≤1) : Spells (.array [.string "const",.int b]) (.const (decide (b≠0)))
  | lt (t : ℕ) : Spells (.array [.string "lt",.int t]) (.lt t)
  | lowLt (k t : ℕ) : Spells (.array [.string "low_lt",.int k,.int t]) (.lowLt k t)
  | signedLt (t : ℤ) : Spells (.array [.string "slt",.int t]) (.signedLt t)
  | msb (c : ℕ) : Spells (.array [.string "msb",.int c]) (.msb c)
  | not {v : Value} {a : Tree} (h : Spells v a) : Spells (.array [.string "not",v]) (.not a)
  | xor {v w : Value} {a b : Tree} (h : Spells v a) (k : Spells w b) :
      Spells (.array [.string "xor",v,w]) (.xor a b)
  | and {v w : Value} {a b : Tree} (h : Spells v a) (k : Spells w b) :
      Spells (.array [.string "and",v,w]) (.and a b)
  | or {v w : Value} {a b : Tree} (h : Spells v a) (k : Spells w b) :
      Spells (.array [.string "or",v,w]) (.or a b)

/-- A value spells one tree. -/
lemma Spells.unique {v : Value} {a b : Tree} (h : Spells v a) (k : Spells v b) : a=b := by
  induction h generalizing b with
  | const | lt | lowLt | signedLt | msb =>
    generalize eq : Value.array _=w at k
    cases k <;> simp_all
  | not h ih =>
    generalize eq : Value.array _=w at k
    cases k <;> simp_all
    exact ih ‹_›
  | xor h k ihl ihr | and h k ihl ihr | or h k ihl ihr =>
    generalize eq : Value.array _=w at k
    cases k <;> simp_all
    exact ⟨ihl ‹_›,ihr ‹_›⟩

/-- The node at an index stands for a tree of at most so many levels. -/
inductive Denotes (nodes : List Expr) : ℕ → ℕ → Tree → Prop
  | const {f i : ℕ} {v : Bool} (h : nodes[i]? = some (.const v)) : Denotes nodes (f+1) i (.const v)
  | lt {f i t : ℕ} (h : nodes[i]? = some (.lt t)) : Denotes nodes (f+1) i (.lt t)
  | lowLt {f i k t : ℕ} (h : nodes[i]? = some (.lowLt k t)) : Denotes nodes (f+1) i (.lowLt k t)
  | signedLt {f i : ℕ} {t : ℤ} (h : nodes[i]? = some (.signedLt t)) :
      Denotes nodes (f+1) i (.signedLt t)
  | msb {f i c : ℕ} (h : nodes[i]? = some (.msb c)) : Denotes nodes (f+1) i (.msb c)
  | not {f i a : ℕ} {ta : Tree} (h : nodes[i]? = some (.not a)) (ha : Denotes nodes f a ta) :
      Denotes nodes (f+1) i (.not ta)
  | xor {f i a b : ℕ} {ta tb : Tree} (h : nodes[i]? = some (.xor a b)) (ha : Denotes nodes f a ta)
      (hb : Denotes nodes f b tb) : Denotes nodes (f+1) i (.xor ta tb)
  | and {f i a b : ℕ} {ta tb : Tree} (h : nodes[i]? = some (.and a b)) (ha : Denotes nodes f a ta)
      (hb : Denotes nodes f b tb) : Denotes nodes (f+1) i (.and ta tb)
  | or {f i a b : ℕ} {ta tb : Tree} (h : nodes[i]? = some (.or a b)) (ha : Denotes nodes f a ta)
      (hb : Denotes nodes f b tb) : Denotes nodes (f+1) i (.or ta tb)

section
variable {nodes nodes' : List Expr} {i : ℕ} {e : Expr} {v : Value}

lemma getElem?_append (h : nodes[i]? = some e) (more : List Expr) : (nodes++more)[i]? = some e := by
  obtain ⟨hi,-⟩ := List.getElem?_eq_some_iff.mp h
  rw [getElem?_append_left hi,h]

lemma Denotes.append {f : ℕ} {t : Tree} (h : Denotes nodes f i t) (more : List Expr) :
    Denotes (nodes++more) f i t := by
  induction h with
  | const h => exact .const (getElem?_append h more)
  | lt h => exact .lt (getElem?_append h more)
  | lowLt h => exact .lowLt (getElem?_append h more)
  | signedLt h => exact .signedLt (getElem?_append h more)
  | msb h => exact .msb (getElem?_append h more)
  | not h _ ih => exact .not (getElem?_append h more) ih
  | xor h _ _ iha ihb => exact .xor (getElem?_append h more) iha ihb
  | and h _ _ iha ihb => exact .and (getElem?_append h more) iha ihb
  | or h _ _ iha ihb => exact .or (getElem?_append h more) iha ihb

lemma pushNode_eq_ok (h : pushNode e nodes = .ok (i,nodes')) :
    nodes' = nodes++[e] ∧ (nodes++[e])[i]? = some e := by
  obtain ⟨-,h⟩ := ite_error_eq_ok.mp h
  cases h
  simp

lemma toUint_eq_ok {n : ℕ} (h : v.toUint = .ok n) : v = .int n := by
  cases v with
  | int z =>
    obtain ⟨hz,h⟩ := ite_error_eq_ok.mp h
    cases h
    rw [Int.toNat_of_nonneg (by omega)]
  | bool | string | array | object => cases h

lemma toInt_eq_ok {z : ℤ} (h : v.toInt = .ok z) : v = .int z := by
  cases v with
  | int w =>
    cases h
    rfl
  | bool | string | array | object => cases h

lemma toStr_eq_ok {s : String} (h : v.toStr = .ok s) : v = .string s := by
  cases v with
  | string w =>
    cases h
    rfl
  | int | bool | array | object => cases h

lemma toArray_eq_ok {vs : List Value} (h : v.toArray = .ok vs) : v = .array vs := by
  cases v with
  | array w =>
    cases h
    rfl
  | int | bool | string | object => cases h

lemma parseExpr_eq_ok {bits left : ℕ} (h : parseExpr bits left v nodes = .ok (i,nodes')) :
    ∃ tree more, nodes' = nodes++more ∧ Spells v tree ∧ tree.Admitted bits
      ∧ Denotes nodes' left i tree := by
  induction left generalizing v nodes nodes' i with
  | zero => cases h
  | succ left ih =>
    have hbody := (ite_error_eq_ok.mp h).2
    obtain ⟨vs,hvs,hmat⟩ := bind_eq_ok.mp hbody
    obtain rfl := toArray_eq_ok hvs
    match vs, hmat with
    | [tag,first], hmat =>
      obtain ⟨s,hs,hcase⟩ := bind_eq_ok.mp hmat
      obtain rfl := toStr_eq_ok hs
      split at hcase
      · obtain ⟨b,hb,hgrd⟩ := bind_eq_ok.mp hcase
        obtain ⟨hle,hpush⟩ := ite_error_eq_ok.mp hgrd
        obtain rfl := toUint_eq_ok hb
        obtain ⟨rfl,hnode⟩ := pushNode_eq_ok hpush
        exact ⟨_,_,rfl,.const (by omega),trivial,.const hnode⟩
      · obtain ⟨t,ht,hgrd⟩ := bind_eq_ok.mp hcase
        obtain ⟨hle,hpush⟩ := ite_error_eq_ok.mp hgrd
        obtain rfl := toUint_eq_ok ht
        obtain ⟨rfl,hnode⟩ := pushNode_eq_ok hpush
        exact ⟨_,_,rfl,.lt t,not_lt.mp hle,.lt hnode⟩
      · obtain ⟨t,ht,hgrd⟩ := bind_eq_ok.mp hcase
        obtain ⟨hle,hpush⟩ := ite_error_eq_ok.mp hgrd
        obtain rfl := toInt_eq_ok ht
        obtain ⟨rfl,hnode⟩ := pushNode_eq_ok hpush
        exact ⟨_,_,rfl,.signedLt t,⟨not_lt.mp fun hlow => hle (.inl hlow),not_lt.mp fun hhigh =>
          hle (.inr hhigh)⟩, .signedLt hnode⟩
      · obtain ⟨c,hc,hgrd⟩ := bind_eq_ok.mp hcase
        obtain ⟨hlt,hpush⟩ := ite_error_eq_ok.mp hgrd
        obtain rfl := toUint_eq_ok hc
        obtain ⟨rfl,hnode⟩ := pushNode_eq_ok hpush
        exact ⟨_,_,rfl,.msb c,not_le.mp hlt,.msb hnode⟩
      · obtain ⟨⟨a,mid⟩,ha,hpush⟩ := bind_eq_ok.mp hcase
        obtain ⟨ta,more,rfl,hspe,hadm,hden⟩ := ih ha
        obtain ⟨rfl,hnode⟩ := pushNode_eq_ok hpush
        exact ⟨_,more++[_],append_assoc ..,.not hspe,hadm,.not hnode (hden.append _)⟩
      · cases hcase
    | [tag,first,second], hmat =>
      obtain ⟨s,hs,hcase⟩ := bind_eq_ok.mp hmat
      obtain rfl := toStr_eq_ok hs
      split at hcase
      · obtain ⟨k,hk,hrest⟩ := bind_eq_ok.mp hcase
        obtain ⟨hrng,hrest⟩ := ite_error_eq_ok.mp hrest
        obtain ⟨t,ht,hgrd⟩ := bind_eq_ok.mp hrest
        obtain ⟨hle,hpush⟩ := ite_error_eq_ok.mp hgrd
        obtain rfl := toUint_eq_ok hk
        obtain rfl := toUint_eq_ok ht
        obtain ⟨rfl,hnode⟩ := pushNode_eq_ok hpush
        exact ⟨_,_,rfl,.lowLt k t,⟨by omega,by omega,not_lt.mp hle⟩,.lowLt hnode⟩
      · obtain ⟨⟨a,mid⟩,ha,hrest⟩ := bind_eq_ok.mp hcase
        obtain ⟨⟨b,last⟩,hb,hpush⟩ := bind_eq_ok.mp hrest
        obtain ⟨ta,more,rfl,hspe,hadm,hden⟩ := ih ha
        obtain ⟨tb,more',rfl,hspe',hadm',hden'⟩ := ih hb
        obtain ⟨rfl,hnode⟩ := pushNode_eq_ok hpush
        exact ⟨_,more++(more'++[Expr.xor a b]),by rw [append_assoc,append_assoc],.xor hspe
          hspe',⟨hadm,hadm'⟩,.xor hnode ((hden.append _).append _) (hden'.append _)⟩
      · obtain ⟨⟨a,mid⟩,ha,hrest⟩ := bind_eq_ok.mp hcase
        obtain ⟨⟨b,last⟩,hb,hpush⟩ := bind_eq_ok.mp hrest
        obtain ⟨ta,more,rfl,hspe,hadm,hden⟩ := ih ha
        obtain ⟨tb,more',rfl,hspe',hadm',hden'⟩ := ih hb
        obtain ⟨rfl,hnode⟩ := pushNode_eq_ok hpush
        exact ⟨_,more++(more'++[Expr.and a b]),by rw [append_assoc,append_assoc],.and hspe
          hspe',⟨hadm,hadm'⟩,.and hnode ((hden.append _).append _) (hden'.append _)⟩
      · obtain ⟨⟨a,mid⟩,ha,hrest⟩ := bind_eq_ok.mp hcase
        obtain ⟨⟨b,last⟩,hb,hpush⟩ := bind_eq_ok.mp hrest
        obtain ⟨ta,more,rfl,hspe,hadm,hden⟩ := ih ha
        obtain ⟨tb,more',rfl,hspe',hadm',hden'⟩ := ih hb
        obtain ⟨rfl,hnode⟩ := pushNode_eq_ok hpush
        exact ⟨_,more++(more'++[Expr.or a b]),by rw [append_assoc,append_assoc],.or hspe
          hspe',⟨hadm,hadm'⟩,.or hnode ((hden.append _).append _) (hden'.append _)⟩
      · cases hcase
    | [tag], hmat | tag::_::_::_::_, hmat =>
      obtain ⟨s,-,hcase⟩ := bind_eq_ok.mp hmat
      cases hcase
    | [], hmat => cases hmat

end

/-- A step of a program, with a comparison in the place of its number. -/
inductive Item
  | query (bits shift threshold : ℕ)
  | bit (v : Bool)
  | not
  | xor
  | and
  | or

namespace Item

def opcode : Item → Opcode
  | .query .. => .query
  | .bit _ => .bit
  | .not => .not
  | .xor => .xor
  | .and => .and
  | .or => .or

def argument : Item → ℕ
  | .bit v => if v then 1 else 0
  | _ => 0

def emit (self : Item) (e : Emitter) : Except Error Emitter :=
  match self with
  | .query bits shift threshold => e.query bits shift threshold
  | item => e.emit item.opcode item.argument

def queries : Item → List PredicateQuery
  | .query bits shift threshold => [⟨bits,shift,threshold⟩]
  | _ => []

/-- The instruction, where the next comparison has number `k`. -/
def instruction (k : ℕ) : Item → Instruction
  | .query .. => ⟨.query,k⟩
  | item => ⟨item.opcode,item.argument⟩

def ands : Item → ℕ
  | .and | .or => 1
  | _ => 0

def xors : Item → ℕ
  | .xor => 1
  | .or => 2
  | _ => 0

end Item

def emitAll (items : List Item) (e : Emitter) : Except Error Emitter :=
  items.foldlM (fun e item => item.emit e) e

lemma emitAll_append (a b : List Item) (e : Emitter) :
    emitAll (a++b) e = emitAll a e >>= emitAll b := foldlM_append ..

lemma emitAll_cons (item : Item) (items : List Item) (e : Emitter) :
    emitAll (item::items) e = item.emit e >>= emitAll items := foldlM_cons ..

@[simp] lemma emitAll_nil (e : Emitter) : emitAll [] e = .ok e := rfl

lemma emitAll_one (item : Item) (e : Emitter) : emitAll [item] e = item.emit e := by
  exact bind_pure _

def queriesOf (items : List Item) : List PredicateQuery := items.flatMap Item.queries

/-- The instructions of items, where the next comparison has number `k`. -/
def code : ℕ → List Item → List Instruction
  | _, [] => []
  | k, item::items => item.instruction k::code (k+item.queries.length) items

@[simp] lemma length_code (k : ℕ) (items : List Item) : (code k items).length = items.length := by
  induction items generalizing k with
  | nil => rfl
  | cons item items ih => rw [code,length_cons,length_cons,ih]

lemma code_append (k : ℕ) (a b : List Item) :
    code k (a++b) = code k a++code (k+(queriesOf a).length) b := by
  induction a generalizing k with
  | nil => rfl
  | cons item a ih =>
    simp only [cons_append,code,ih,queriesOf,flatMap_cons,length_append,add_assoc]

namespace Emitter

/-- The emitter after items. -/
def extend (e : Emitter) (items : List Item) : Emitter :=
  { e with
    queries := if e.keep.isSome then e.queries++queriesOf items else e.queries
    instructions := if e.keep.isSome then e.instructions++code e.queryCount items
      else e.instructions
    queryCount := e.queryCount+(queriesOf items).length
    ops := e.ops+items.length
    ands := e.ands+(items.map Item.ands).sum
    xors := e.xors+(items.map Item.xors).sum }

/-- The counts stay within the caps and the buffers within their capacities. -/
structure Fits (e : Emitter) (items : List Item) : Prop where
  ops : e.ops+items.length ≤ maxVmOps
  queries : e.queryCount+(queriesOf items).length ≤ maxQueries
  room : ∀ q c, e.keep = some (q,c) →
    e.queries.length+(queriesOf items).length ≤ q ∧ e.instructions.length+items.length ≤ c

section
variable {e e' : Emitter} {item : Item} {items : List Item}

lemma extend_nil (e : Emitter) : e.extend []=e := by
  cases e with
  | mk bits mask keep => cases keep <;> simp [extend,queriesOf,code]

lemma extend_append (e : Emitter) (a b : List Item) : e.extend (a++b) = (e.extend a).extend b := by
  cases e with
  | mk bits mask keep =>
    cases keep <;> simp [extend,queriesOf,code_append,add_assoc]

lemma fits_append {a b : List Item} (h : e.Fits (a++b)) : e.Fits a ∧ (e.extend a).Fits b := by
  have hops := h.ops
  have hqs := h.queries
  simp only [queriesOf,flatMap_append,length_append] at hops hqs
  refine ⟨⟨by omega,by simp only [queriesOf]; omega,fun q c hk => ?_⟩,⟨?_,?_,fun q c hk => ?_⟩⟩
  · have hroom := h.room q c hk
    simp only [queriesOf,flatMap_append,length_append] at hroom ⊢
    omega
  · simp only [extend]
    omega
  · simp only [extend,queriesOf]
    omega
  · have hroom := h.room q c hk
    have hsome : e.keep.isSome=true := by rw [show e.keep=some (q,c) from hk]; rfl
    simp only [extend,hsome,queriesOf,flatMap_append,length_append,if_true,length_code] at hroom ⊢
    omega

lemma emit_eq (e : Emitter) (item : Item) (h : e.Fits [item]) :
    item.emit e = .ok (e.extend [item]) := by
  have hops : ¬e.ops+1>maxVmOps := not_lt.mpr h.ops
  cases hk : e.keep with
  | none =>
    cases item with
    | query bits shift threshold =>
      have hq : ¬e.queryCount+1>maxQueries := not_lt.mpr h.queries
      simp [Item.emit,query,emit,hq,hops,hk,extend,queriesOf,Item.queries,Item.ands,Item.xors]
    | bit | not | xor | and | or =>
      simp [Item.emit,emit,hops,hk,extend,queriesOf,Item.queries,Item.ands,Item.xors,Item.opcode]
  | some caps =>
    obtain ⟨q,c⟩ := caps
    have hroom := h.room q c hk
    cases item with
    | query bits shift threshold =>
      have hq : ¬e.queryCount+1>maxQueries := not_lt.mpr h.queries
      simp only [queriesOf,flatMap_cons,flatMap_nil,append_nil,Item.queries,
        length_singleton] at hroom
      have h1 : e.queries.length≠q := by omega
      have h2 : e.instructions.length≠c := by omega
      simp [Item.emit,query,emit,hq,hops,hk,extend,queriesOf,Item.queries,Item.ands,
        Item.xors,h1,h2,code,Item.instruction]
    | bit | not | xor | and | or =>
      simp only [queriesOf,flatMap_cons,flatMap_nil,append_nil,Item.queries,
        length_singleton] at hroom
      have h2 : e.instructions.length≠c := by omega
      simp [Item.emit,emit,hops,hk,extend,queriesOf,Item.queries,Item.ands,Item.xors,
        Item.opcode,h2,code,Item.instruction,Item.argument]

lemma emitAll_eq (e : Emitter) (items : List Item) (h : e.Fits items) :
    emitAll items e = .ok (e.extend items) := by
  induction items generalizing e with
  | nil => rw [emitAll_nil,extend_nil]
  | cons item items ih =>
    obtain ⟨hone,hrest⟩ := fits_append (a := [item]) h
    rw [emitAll_cons,emit_eq e item hone,ok_bind,ih _ hrest,←extend_append]
    rfl

lemma fits_cons (hk : e.keep=none) (hrest : (e.extend [item]).Fits items) :
    e.Fits (item::items) := by
  have hops := hrest.ops
  have hqs := hrest.queries
  simp only [extend,queriesOf,flatMap_cons,flatMap_nil,append_nil,
    length_cons,length_nil] at hops hqs
  refine ⟨?_,?_,fun q c hs => by rw [hk] at hs; cases hs⟩
  · rw [length_cons]
    omega
  · simp only [queriesOf,flatMap_cons,length_append]
    omega

lemma fits_of_emit (hk : e.keep=none) (hfit : e.Fits []) (h : item.emit e = .ok e') :
    e.Fits [item] := by
  have hcnt := hfit.queries
  cases item with
  | query bits shift threshold =>
    obtain ⟨hq,h⟩ := ite_error_eq_ok.mp h
    simp only [hk] at h
    obtain ⟨hops,-⟩ := ite_error_eq_ok.mp h
    exact ⟨not_lt.mp hops,not_lt.mp hq,fun q c hs => by rw [hk] at hs; cases hs⟩
  | bit | not | xor | and | or =>
    obtain ⟨hops,-⟩ := ite_error_eq_ok.mp h
    exact ⟨not_lt.mp hops,hcnt,fun q c hs => by rw [hk] at hs; cases hs⟩

lemma fits_of_emitAll (hk : e.keep=none) (hfit : e.Fits []) (h : emitAll items e = .ok e') :
    e.Fits items := by
  induction items generalizing e with
  | nil => exact hfit
  | cons item items ih =>
    rw [emitAll_cons] at h
    obtain ⟨e1,h1,h⟩ := bind_eq_ok.mp h
    have hone := fits_of_emit hk hfit h1
    rw [emit_eq e item hone] at h1
    cases h1
    exact fits_cons hk (ih hk (fits_append (a := [item]) (b := []) hone).2 h)

lemma emit_same {opcode : Opcode} {argument : ℕ} (h : e.emit opcode argument = .ok e') :
    e'.bits=e.bits ∧ e'.mask=e.mask := by
  have hkeep := (ite_error_eq_ok.mp h).2
  cases hk : e.keep with
  | none =>
    simp only [hk] at hkeep
    cases hkeep
    exact ⟨rfl,rfl⟩
  | some caps =>
    simp only [hk] at hkeep
    have hpush := (ite_error_eq_ok.mp hkeep).2
    cases hpush
    exact ⟨rfl,rfl⟩

lemma query_same {bits shift threshold : ℕ} (h : e.query bits shift threshold = .ok e') :
    e'.bits=e.bits ∧ e'.mask=e.mask := by
  have hkeep := (ite_error_eq_ok.mp h).2
  cases hk : e.keep with
  | none =>
    simp only [hk] at hkeep
    have hsame := emit_same hkeep
    exact hsame
  | some caps =>
    simp only [hk] at hkeep
    have hsame := emit_same (ite_error_eq_ok.mp hkeep).2
    exact hsame

lemma emitAll_same (h : emitAll items e = .ok e') : e'.bits=e.bits ∧ e'.mask=e.mask := by
  induction items generalizing e with
  | nil =>
    cases h
    exact ⟨rfl,rfl⟩
  | cons item items ih =>
    obtain ⟨e1,h1,hrest⟩ := bind_eq_ok.mp h
    obtain ⟨hbits,hmask⟩ := ih hrest
    have hone : e1.bits=e.bits ∧ e1.mask=e.mask := by
      cases item with
      | query => exact query_same h1
      | bit | not | xor | and | or => exact emit_same h1
    exact ⟨hbits.trans hone.1,hmask.trans hone.2⟩

end

end Emitter

/-- A comparison of the word as comparisons of the masked word. -/
def itemsLt (mask bits shift threshold : ℕ) : List Item :=
  let n := 2^bits
  if threshold=0 ∨ threshold=n then [.bit (decide (threshold=n))]
  else
    let r := mask%n
    [.query bits shift ((r+threshold)%n),.query bits shift r,.xor,.bit (decide (r+threshold≥n)),
      .xor]

/-- The postfix program of a tree. -/
def Tree.items (bits mask : ℕ) : Tree → List Item
  | .const v => [.bit v]
  | .lt t => itemsLt mask bits 0 t
  | .lowLt k t => itemsLt mask k 0 t
  | .signedLt t => itemsLt mask bits (2^(bits-1)) (t+(2^(bits-1):ℕ)).toNat
  | .msb c => itemsLt mask bits c (2^(bits-1))++[.not]
  | .not a => a.items bits mask++[.not]
  | .xor a b => a.items bits mask++b.items bits mask++[.xor]
  | .and a b => a.items bits mask++b.items bits mask++[.and]
  | .or a b => a.items bits mask++b.items bits mask++[.or]

namespace Emitter

lemma lt_eq (e : Emitter) (bits shift threshold : ℕ) :
    e.lt bits shift threshold = emitAll (itemsLt e.mask bits shift threshold) e := by
  rw [lt,itemsLt]
  by_cases h : threshold=0 ∨ threshold=2^bits
  · rw [if_pos h,if_pos h,emitAll_one]
    by_cases hn : threshold=2^bits
    · rw [if_pos hn,decide_eq_true hn]
      rfl
    · rw [if_neg hn,decide_eq_false hn]
      rfl
  · rw [if_neg h,if_neg h,emitAll_cons]
    refine bind_congr fun _ => ?_
    rw [emitAll_cons]
    refine bind_congr fun _ => ?_
    rw [emitAll_cons]
    refine bind_congr fun _ => ?_
    rw [emitAll_cons]
    by_cases hcar : e.mask%2^bits+threshold≥2^bits
    · rw [if_pos hcar,decide_eq_true hcar]
      refine bind_congr fun _ => ?_
      rw [emitAll_one]
      rfl
    · rw [if_neg hcar,decide_eq_false hcar]
      refine bind_congr fun _ => ?_
      rw [emitAll_one]
      rfl

lemma bind_congr_ok {ε α β : Type} {x : Except ε α} {f g : α → Except ε β}
    (h : ∀ a, x = .ok a → f a = g a) : x >>= f=x >>= g := by
  cases x with
  | error e => rfl
  | ok a => exact h a rfl

lemma emitAll_gate {e : Emitter} {a b : List Item} {item : Item} {f : Emitter → Except Error Emitter}
    (hf : ∀ e', e'.bits=e.bits → e'.mask=e.mask → f e' = emitAll b e') :
    (emitAll a e >>= fun e => f e >>= fun e => item.emit e) = emitAll (a++b++[item]) e := by
  rw [emitAll_append,emitAll_append,bind_assoc]
  refine bind_congr_ok fun e' he' => ?_
  obtain ⟨hbits,hmask⟩ := emitAll_same he'
  rw [hf e' hbits hmask]
  exact bind_congr fun e2 => (emitAll_one item e2).symm

lemma expression_eq {nodes : List Expr} {f i : ℕ} {t : Tree} (h : Denotes nodes f i t)
    (e : Emitter) : expression nodes f i e = emitAll (t.items e.bits e.mask) e := by
  induction h generalizing e with
  | @const f i v h =>
    simp only [expression,h,Tree.items,emitAll_one]
    rfl
  | @lt f i t h =>
    simp only [expression,h]
    exact lt_eq ..
  | @lowLt f i k t h =>
    simp only [expression,h]
    exact lt_eq ..
  | @signedLt f i t h =>
    simp only [expression,h]
    exact lt_eq ..
  | @msb f i c h =>
    simp only [expression,h,Tree.items]
    rw [lt_eq,emitAll_append]
    exact bind_congr fun e' => (emitAll_one .not e').symm
  | @not f i a ta h _ ih =>
    simp only [expression,h,Tree.items]
    rw [ih,emitAll_append]
    exact bind_congr fun e' => (emitAll_one .not e').symm
  | @xor f i a b ta tb h _ _ iha ihb =>
    simp only [expression,h]
    rw [iha]
    exact @emitAll_gate e _ _ .xor (expression nodes f b) fun e' hbits hmask => by
      rw [ihb,hbits,hmask]
  | @and f i a b ta tb h _ _ iha ihb =>
    simp only [expression,h]
    rw [iha]
    exact @emitAll_gate e _ _ .and (expression nodes f b) fun e' hbits hmask => by
      rw [ihb,hbits,hmask]
  | @or f i a b ta tb h _ _ iha ihb =>
    simp only [expression,h]
    rw [iha]
    exact @emitAll_gate e _ _ .or (expression nodes f b) fun e' hbits hmask => by
      rw [ihb,hbits,hmask]

end Emitter

/-- One instruction, given the answers of the comparisons. -/
def Instruction.step (answers : ℕ → Bool) (self : Instruction) : List Bool → Option (List Bool)
  | stack => match self.opcode, stack with
    | .bit, stack => some (decide (self.argument≠0)::stack)
    | .query, stack => some (answers self.argument::stack)
    | .not, a::stack => some ((!a)::stack)
    | .xor, b::a::stack => some ((a != b)::stack)
    | .and, b::a::stack => some ((a && b)::stack)
    | .or, b::a::stack => some ((a || b)::stack)
    | _, _ => none

/-- A postfix program. -/
def execute (answers : ℕ → Bool) (program : List Instruction) (stack : List Bool) :
    Option (List Bool) := program.foldlM (fun stack i => i.step answers stack) stack

/-- A comparison of the masked word. -/
def PredicateQuery.eval (y : ℕ) (self : PredicateQuery) : Bool :=
  decide ((y+self.shift)%2^self.bits < self.threshold)

/-- An item, its comparison answered in place. -/
def Item.eval (y : ℕ) : Item → List Bool → Option (List Bool)
  | .query bits shift threshold, stack => some (PredicateQuery.eval y ⟨bits,shift,threshold⟩::stack)
  | .bit v, stack => some (v::stack)
  | .not, a::stack => some ((!a)::stack)
  | .xor, b::a::stack => some ((a != b)::stack)
  | .and, b::a::stack => some ((a && b)::stack)
  | .or, b::a::stack => some ((a || b)::stack)
  | _, _ => none

def evalItems (y : ℕ) (items : List Item) (stack : List Bool) : Option (List Bool) :=
  items.foldlM (fun stack item => item.eval y stack) stack

lemma evalItems_append (y : ℕ) (a b : List Item) (stack : List Bool) :
    evalItems y (a++b) stack = evalItems y a stack >>= evalItems y b := foldlM_append ..

lemma execute_code (y : ℕ) (answers : ℕ → Bool) (items : List Item) (k : ℕ) (stack : List Bool)
    (h : ∀ j q, (queriesOf items)[j]? = some q → answers (k+j) = q.eval y) :
    execute answers (code k items) stack = evalItems y items stack := by
  induction items generalizing k stack with
  | nil => rfl
  | cons item items ih =>
    have hstep : (item.instruction k).step answers stack=item.eval y stack := by
      cases item with
      | query bits shift threshold =>
        have hfst := h 0 ⟨bits,shift,threshold⟩ rfl
        simp only [Instruction.step,Item.eval]
        rw [←hfst]
        rfl
      | bit v => cases v <;> rfl
      | not => cases stack <;> rfl
      | xor | and | or =>
        match stack with
        | [] => rfl
        | [a] => rfl
        | b::a::stack => rfl
    rw [code,execute,evalItems,foldlM_cons,foldlM_cons,hstep]
    cases item.eval y stack with
    | none => rfl
    | some stack =>
      refine ih (k+item.queries.length) stack fun j q hq => ?_
      have hget : (queriesOf (item::items))[item.queries.length+j]? = some q := by
        rw [queriesOf,flatMap_cons,getElem?_append_right (by omega),Nat.add_sub_cancel_left]
        exact hq
      rw [add_assoc]
      exact h _ _ hget

lemma lt_moved {n r t u v : ℕ} (hr : r<n) (hpos : 0<t) (ht : t<n) (hu : u<n) (hv : v=(u+r)%n) :
    ((decide (v<(r+t)%n) != decide (v < r)) != decide (r+t≥n)) = decide (u<t) := by
  have hcase : v=u+r ∧ u+r<n ∨ v=u+r-n ∧ n ≤ u+r := by
    rcases lt_or_ge (u+r) n with h | h
    · exact .inl ⟨hv.trans (Nat.mod_eq_of_lt h),h⟩
    · refine .inr ⟨?_,h⟩
      rw [hv,Nat.mod_eq_sub_mod h,Nat.mod_eq_of_lt (by omega)]
  have hthr : (r+t)%n=if r+t≥n then r+t-n else r+t := by
    split
    · next h => rw [Nat.mod_eq_sub_mod h,Nat.mod_eq_of_lt (by omega)]
    · next h => exact Nat.mod_eq_of_lt (by omega)
  rw [hthr]
  by_cases hcar : r+t≥n
  · rw [if_pos hcar,decide_eq_true hcar]
    by_cases hlt : u<t
    · rw [decide_eq_true hlt]
      by_cases h1 : v < r+t-n
      · rw [decide_eq_true h1,decide_eq_true (show v < r by omega)]
        rfl
      · rw [decide_eq_false h1,decide_eq_false (show ¬v < r by omega)]
        rfl
    · rw [decide_eq_false hlt,decide_eq_false (show ¬v < r+t-n by omega),
        decide_eq_true (show v < r by omega)]
      rfl
  · rw [if_neg hcar,decide_eq_false hcar]
    by_cases hlt : u<t
    · rw [decide_eq_true hlt,decide_eq_true (show v < r+t by omega),
        decide_eq_false (show ¬v < r by omega)]
      rfl
    · rw [decide_eq_false hlt]
      by_cases h1 : v < r
      · rw [decide_eq_true h1,decide_eq_true (show v < r+t by omega)]
        rfl
      · rw [decide_eq_false h1,decide_eq_false (show ¬v < r+t by omega)]
        rfl

section
variable {bits x y mask : ℕ}

/-- The masked word. -/
def Masks (bits mask x y : ℕ) : Prop := x<2^bits ∧ y=(x+mask)%2^bits

lemma evalItems_lt (hy : Masks bits mask x y) {k shift t : ℕ} (hk : k≤bits) (ht : t≤2^k)
    (stack : List Bool) :
    evalItems y (itemsLt mask k shift t) stack = some (decide ((x+shift)%2^k<t)::stack) := by
  have hmod := Nat.mod_lt (x+shift) (Nat.two_pow_pos k)
  unfold itemsLt
  by_cases hend : t=0 ∨ t=2^k
  · rw [if_pos hend]
    refine congrArg (fun b => some (b::stack)) (decide_eq_decide.mpr ?_)
    omega
  · rw [if_neg hend]
    have hmov : (y+shift)%2^k=((x+shift)%2^k+mask%2^k)%2^k := by
      rw [hy.2,Nat.add_mod,Nat.mod_mod_of_dvd _ (pow_dvd_pow 2 hk),←Nat.add_mod,←Nat.add_mod]
      congr 1
      omega
    have hval := lt_moved (Nat.mod_lt mask (Nat.two_pow_pos k)) (show 0 < t by omega)
      (show t < 2^k by omega) hmod hmov
    rw [←hval]
    rfl

lemma evalItems_tree (hy : Masks bits mask x y) (hbits : 0<bits) (t : Tree) (ht : t.Admitted bits)
    (stack : List Bool) : evalItems y (t.items bits mask) stack = some (t.eval bits x::stack) := by
  have hdou : 2^bits=2*2^(bits-1) := by
    rw [←pow_succ',Nat.sub_add_cancel hbits]
  have hx := hy.1
  induction t generalizing stack with
  | const v => rfl
  | lt t =>
    rw [Tree.items,evalItems_lt hy le_rfl ht,add_zero,Nat.mod_eq_of_lt hx]
    rfl
  | lowLt k t =>
    obtain ⟨-,hk,ht⟩ := ht
    rw [Tree.items,evalItems_lt hy hk ht]
    rfl
  | signedLt t =>
    obtain ⟨hlow,hhigh⟩ := ht
    have hhalf : 2^bits/2=2^(bits-1) := by omega
    rw [hhalf] at hlow hhigh
    rw [Tree.items,evalItems_lt hy le_rfl (by omega)]
    refine congrArg (fun b => some (b::stack)) (decide_eq_decide.mpr ?_)
    rw [signed]
    have hdouble' : (2:ℤ)^bits=2*(2^(bits-1):ℕ) := by exact_mod_cast hdou
    split
    · rw [Nat.mod_eq_of_lt (by omega)]
      omega
    · rw [Nat.mod_eq_sub_mod (by omega),Nat.mod_eq_of_lt (by omega)]
      omega
  | msb c =>
    rw [Tree.items,evalItems_append,evalItems_lt hy le_rfl (by omega)]
    refine congrArg (fun b => some (b::stack)) ?_
    rw [Tree.eval,Nat.testBit_eq_decide_div_mod_eq,←decide_not]
    refine decide_eq_decide.mpr ?_
    have hdiv : (x+c)%2^bits/2^(bits-1)=if (x+c)%2^bits<2^(bits-1) then 0 else 1 := by
      split
      · next h => exact Nat.div_eq_of_lt h
      · next h =>
        rw [Nat.div_eq_iff (Nat.two_pow_pos _)]
        omega
    rw [hdiv]
    split <;> omega
  | not a iha =>
    rw [Tree.items,evalItems_append,iha ht]
    rfl
  | xor a b iha ihb | and a b iha ihb | or a b iha ihb =>
    rw [Tree.items,evalItems_append,evalItems_append,iha ht.1,Option.bind_eq_bind,
      Option.bind_some,ihb ht.2]
    rfl

end

end Pllm.Fusefss
