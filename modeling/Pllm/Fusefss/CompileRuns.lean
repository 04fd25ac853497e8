import Pllm.Fusefss.CompileCorrect

/-! Whole compilations of admitted descriptors. -/
namespace Pllm.Fusefss
open Pllm.Lib List Option Nat Rotation

/-- The boundaries read so far increase, and none is above `n`. -/
structure Increasing (n : ℕ) (boundaries : List ℕ) : Prop where
  pairwise : boundaries.Pairwise (·<·)
  le : ∀ a∈boundaries, a≤n

section
variable {n : ℕ} {boundaries : List ℕ} {bounds : List Value}

lemma Increasing.append {v : ℕ} (h : Increasing n boundaries) (hv : v≤n) (hlast :
    (boundaries.getLast?.any fun p => decide (p≥v))=false) : Increasing n (boundaries++[v]) := by
  refine ⟨pairwise_append.mpr ⟨h.pairwise,by simp,fun a ha b hb => ?_⟩,fun a ha => ?_⟩
  · obtain rfl := mem_singleton.mp hb
    obtain ⟨front,last,rfl⟩ : ∃ front last, boundaries=front++[last] :=
      ⟨_,_,(dropLast_append_getLast (ne_nil_of_mem ha)).symm⟩
    have hlt : last<b := by simpa using hlast
    rcases mem_append.mp ha with ha | ha
    · have hbef := (pairwise_append.mp h.pairwise).2.2 a ha last (by simp)
      exact hbef.trans hlt
    · obtain rfl := mem_singleton.mp ha
      exact hlt
  · rcases mem_append.mp ha with ha | ha
    · exact h.le a ha
    · obtain rfl := mem_singleton.mp ha
      exact hv

variable (h : readBoundaries n bounds = .ok boundaries)
include h

lemma readBoundaries_eq_ok : Increasing n boundaries ∧ boundaries.length=bounds.length := by
  suffices hall : ∀ start : List ℕ, Increasing n start → bounds.foldlM (fun boundaries v => do
        let v ← v.toUint
        if v>n ∨ (boundaries.getLast?.any fun p => p≥v) then .error .partition
        else .ok (boundaries++[v])) start=(.ok boundaries : Except Error _) →
      Increasing n boundaries ∧ boundaries.length=start.length+bounds.length by
    obtain ⟨h1,h2⟩ := hall [] ⟨Pairwise.nil,by simp⟩ h
    exact ⟨h1,by simpa using h2⟩
  clear h
  induction bounds with
  | nil =>
    intro start hst hrun
    cases hrun
    exact ⟨hst,rfl⟩
  | cons v bounds ih =>
    intro start hst hrun
    obtain ⟨next,hone,hrest⟩ := bind_eq_ok.mp hrun
    obtain ⟨w,-,hgrd⟩ := bind_eq_ok.mp hone
    obtain ⟨hnot,hnext⟩ := ite_error_eq_ok.mp hgrd
    cases hnext
    have hlast : (start.getLast?.any fun p => decide (p≥w))=false := by
      by_contra htrue
      exact hnot (.inr (by simpa using htrue))
    obtain ⟨h1,h2⟩ := ih (start++[w]) (hst.append (by omega) hlast) hrest
    refine ⟨h1,?_⟩
    rw [h2,length_append,length_cons,length_cons,length_nil]
    omega

lemma readBoundaries_spells : bounds=boundaries.map fun v => Value.int v := by
  suffices hall : ∀ start : List ℕ, bounds.foldlM (fun boundaries v => do
        let v ← v.toUint
        if v>n ∨ (boundaries.getLast?.any fun p => p≥v) then .error .partition
        else .ok (boundaries++[v])) start=(.ok boundaries : Except Error _) →
      ∃ new, boundaries = start++new ∧ bounds=new.map fun v => Value.int v by
    obtain ⟨new,hnew,hbds⟩ := hall [] h
    rwa [hnew]
  clear h
  induction bounds with
  | nil =>
    intro start hrun
    cases hrun
    exact ⟨[],by simp,rfl⟩
  | cons v bounds ih =>
    intro start hrun
    obtain ⟨next,hone,hrest⟩ := bind_eq_ok.mp hrun
    obtain ⟨w,hw,hgrd⟩ := bind_eq_ok.mp hone
    obtain ⟨-,hnext⟩ := ite_error_eq_ok.mp hgrd
    cases hnext
    obtain ⟨new,rfl,rfl⟩ := ih (start++[w]) hrest
    exact ⟨w::new,by rw [append_assoc]; rfl,by rw [toUint_eq_ok hw]; rfl⟩

end

/-- A root stands for an admitted tree. -/
def RootOf (bits : ℕ) (nodes : List Expr) (root : ℕ) (tree : Tree) : Prop :=
  Denotes nodes (maxExpressionDepth+1) root tree ∧ tree.Admitted bits

variable {bits : ℕ}

lemma readBooleans_eq_ok {booleans : List Value} {nodes nodes' : List Expr} {roots : List ℕ}
    (h : readBooleans bits booleans nodes = .ok (roots,nodes')) : ∃ more trees, nodes' =
    nodes++more ∧ Forall₂ Spells booleans trees ∧ Forall₂ (RootOf bits nodes') roots trees := by
  suffices hall : ∀ (start : List ℕ) (nodes : List Expr), booleans.foldlM (fun s e => do
        let p ← parseExpr bits (maxExpressionDepth+1) e s.2
        return (s.1++[p.1],p.2)) (start,nodes)
          = (.ok (roots,nodes') : Except Error (List ℕ × List Expr)) →
      ∃ more trees new, nodes' = nodes++more ∧ roots = start++new
        ∧ Forall₂ Spells booleans trees ∧ Forall₂ (RootOf bits nodes') new trees by
    obtain ⟨more,trees,new,hnod,hroo,hspe,hden⟩ := hall [] nodes h
    exact ⟨more,trees,hnod,hspe,by rwa [hroo,nil_append]⟩
  clear h
  induction booleans with
  | nil =>
    intro start nodes hrun
    cases hrun
    exact ⟨[],[],[],by simp,by simp,.nil,.nil⟩
  | cons v booleans ih =>
    intro start nodes hrun
    obtain ⟨⟨next,mid⟩,hone,hrest⟩ := bind_eq_ok.mp hrun
    obtain ⟨⟨root,mid'⟩,hpar,hpair⟩ := bind_eq_ok.mp hone
    cases hpair
    obtain ⟨tree,more,rfl,hspe,hadm,hden⟩ := parseExpr_eq_ok hpar
    obtain ⟨more',trees,new,rfl,rfl,hspel,hdens⟩ := ih (start++[root]) (nodes++more) hrest
    exact ⟨more++more',tree::trees,root::new,by rw [append_assoc],
      by rw [append_assoc]; rfl,.cons hspe hspel,.cons ⟨hden.append more',hadm⟩ hdens⟩

/-- A piece is what its source spells. -/
structure PieceOf (bits arity : ℕ) (nodes : List Expr) (source : List Value × List Value)
    (piece : Piece) : Prop where
  coefficients : source.1 = [.int piece.coefficients.1,.int piece.coefficients.2]
  arity : source.2.length=arity
  trees : ∃ trees, List.Forall₂ Spells source.2 trees
    ∧ List.Forall₂ (RootOf bits nodes) piece.roots trees

section
variable {bits arity : ℕ} {nodes nodes' : List Expr} {source : List Value × List Value}
  {piece : Piece}

lemma PieceOf.append (h : PieceOf bits arity nodes source piece) (more : List Expr) :
    PieceOf bits arity (nodes++more) source piece := by
  obtain ⟨trees,hspe,hroot⟩ := h.trees
  exact ⟨h.coefficients,h.arity,trees,hspe,hroot.imp fun _ _ hr => ⟨hr.1.append more,hr.2⟩⟩

lemma readPiece_eq_ok (h : readPiece bits arity source.1 source.2 nodes = .ok (piece,nodes')) :
    ∃ more, nodes' = nodes++more ∧ PieceOf bits arity nodes' source piece := by
  unfold readPiece at h
  split at h
  · next constant linear hc =>
    obtain ⟨c,hcon,l,hlin,h⟩ := bind₂_eq_ok.mp h
    obtain ⟨-,h⟩ := ite_error_eq_ok.mp h
    obtain ⟨hari,h⟩ := ite_error_eq_ok.mp h
    obtain ⟨⟨roots,mid⟩,hread,h⟩ := bind_eq_ok.mp h
    cases h
    obtain ⟨more,trees,hnod,hspe,hroo⟩ := readBooleans_eq_ok hread
    refine ⟨more,hnod,⟨?_,not_not.mp hari,trees,hspe,hroo⟩⟩
    rw [toUint_eq_ok hcon,toUint_eq_ok hlin] at hc
    exact hc
  · cases h

variable {sources : List (List Value × List Value)}

lemma readPieces_eq_ok {pieces : List Piece} (h : readPieces bits arity sources =
    .ok (pieces,nodes')) : Forall₂ (PieceOf bits arity nodes') sources pieces := by
  suffices hall : ∀ (start : List Piece) (nodes : List Expr),
      sources.foldlM (fun s p => do
        let q ← readPiece bits arity p.1 p.2 s.2
        return (s.1++[q.1],q.2)) (start,nodes)
          = (.ok (pieces,nodes') : Except Error (List Piece × List Expr)) →
      ∃ more new, nodes' = nodes++more ∧ pieces = start++new
        ∧ Forall₂ (PieceOf bits arity nodes') sources new by
    obtain ⟨more,new,-,hpie,hall⟩ := hall [] [] h
    rwa [hpie]
  clear h
  induction sources with
  | nil =>
    intro start nodes hrun
    cases hrun
    exact ⟨[],[],by simp,by simp,.nil⟩
  | cons source sources ih =>
    intro start nodes hrun
    obtain ⟨⟨next,mid⟩,hone,hrest⟩ := bind_eq_ok.mp hrun
    obtain ⟨⟨piece,mid'⟩,hread,hpair⟩ := bind_eq_ok.mp hone
    cases hpair
    obtain ⟨more,rfl,hpiec⟩ := readPiece_eq_ok hread
    obtain ⟨more',new,rfl,rfl,hres⟩ := ih (start++[piece]) (nodes++more) hrest
    exact ⟨more++more',piece::new,by rw [append_assoc],by rw [append_assoc]; rfl,
      .cons (hpiec.append more') hres⟩

end

/-- The program of one piece of an output. -/
def pieceItems (d : Descriptor) (tree : ℕ → ℕ → Tree) (mask o i : ℕ) : List Item :=
  itemsLt mask d.bits 0 (d.boundaries.getD (i+1) 0)
    ++ (itemsLt mask d.bits 0 (d.boundaries.getD i 0)
    ++ ([.xor]++((tree i o).items d.bits mask++([.and]++if i≠0 then [.xor] else []))))

def outputItems (d : Descriptor) (tree : ℕ → ℕ → Tree) (mask o : ℕ) : List Item :=
  (List.range d.pieces.length).flatMap (pieceItems d tree mask o)

def programItems (d : Descriptor) (tree : ℕ → ℕ → Tree) (mask : ℕ) (os : List ℕ) : List Item :=
  os.flatMap (outputItems d tree mask)

/-- The roots of the pieces stand for these trees. -/
def TreesOf (d : Descriptor) (arity : ℕ) (tree : ℕ → ℕ → Tree) : Prop :=
  ∀ i<d.pieces.length, ∀ o<arity,
    RootOf d.bits d.expressions ((d.pieces.getD i default).roots.getD o 0) (tree i o)

namespace Emitter

variable {e : Emitter}

lemma emitAll_then {a b : List Item} {f : Emitter → Except Error Emitter} (hf : ∀ e', e'.bits=e.bits
    → e'.mask=e.mask → f e' = emitAll b e') : (emitAll a e >>= f) = emitAll (a++b) e := by
  rw [emitAll_append]
  refine bind_congr_ok fun e' he' => ?_
  obtain ⟨hbits,hmask⟩ := emitAll_same he'
  exact hf e' hbits hmask

variable {d : Descriptor} {tree : ℕ → ℕ → Tree} {arity mask o i : ℕ}

lemma piece_eq (htree : TreesOf d arity tree) (hi : i<d.pieces.length) (ho : o<arity)
    (hbits : e.bits=d.bits) (hmask : e.mask=mask) :
    e.piece d o i = emitAll (pieceItems d tree mask o i) e := by
  rw [piece,lt_eq,hbits,hmask]
  refine emitAll_then fun e1 hb1 hm1 => ?_
  rw [hbits] at hb1
  rw [hmask] at hm1
  rw [lt_eq,hb1,hm1]
  refine emitAll_then fun e2 hb2 hm2 => ?_
  change (Item.emit .xor e2 >>= _)=_
  rw [←emitAll_one]
  refine emitAll_then fun e3 hb3 hm3 => ?_
  change (expression d.expressions (maxExpressionDepth+1)
    ((d.pieces.getD i default).roots.getD o 0) e3 >>= _)=_
  rw [expression_eq (htree i hi o ho).1,hb3,hb2,hb1,hm3,hm2,hm1]
  refine emitAll_then fun e4 hb4 hm4 => ?_
  change (Item.emit .and e4 >>= _)=_
  rw [←emitAll_one]
  refine emitAll_then fun e5 hb5 hm5 => ?_
  split
  · exact (emitAll_one .xor e5).symm
  · rfl

lemma pieces_eq (htree : TreesOf d arity tree) (ho : o<arity) {is : List ℕ} (his : ∀ i∈is,
    i<d.pieces.length) (hbits : e.bits=d.bits) (hmask : e.mask=mask) : is.foldlM (fun
    self i => self.piece d o i) e = emitAll (is.flatMap (pieceItems d tree mask o)) e := by
  induction is generalizing e with
  | nil => rfl
  | cons i is ih =>
    rw [foldlM_cons,piece_eq htree (his i (by simp)) ho hbits hmask]
    refine emitAll_then fun e' hb hm => ?_
    exact ih (fun k hk => his k (by simp [hk])) (hb.trans hbits) (hm.trans hmask)

lemma output_eq (htree : TreesOf d arity tree) (ho : o<arity) (hbits : e.bits=d.bits)
    (hmask : e.mask=mask) : e.output d o = emitAll (outputItems d tree mask o) e >>= fun e' => .ok
    { e' with programLengths := e'.programLengths++[e'.ops-e.ops] } := by
  rw [output,pieces_eq htree ho (fun i hi => mem_range.mp hi) hbits hmask]
  rfl

/-- The emitter after whole outputs. -/
def finish (e : Emitter) (d : Descriptor) (tree : ℕ → ℕ → Tree) (mask : ℕ) (os : List ℕ) : Emitter :=
  { e.extend (programItems d tree mask os) with
    programLengths := e.programLengths++os.map fun o => (outputItems d tree mask o).length }

section
variable (htree : TreesOf d arity tree) {os : List ℕ} (hos : ∀ o∈os, o<arity)
include htree hos

lemma outputs_eq {e :
    Emitter} (hbits : e.bits=d.bits) (hmask : e.mask=mask) (hfit : e.Fits (programItems d tree mask
    os)) : os.foldlM (fun self o => self.output d o) e = .ok (e.finish d tree mask os) := by
  induction os generalizing e with
  | nil =>
    rw [finish,programItems,flatMap_nil,extend_nil,map_nil,append_nil]
    rfl
  | cons o os ih =>
    have hspl : programItems d tree mask (o::os)
        = outputItems d tree mask o++programItems d tree mask os := flatMap_cons
    obtain ⟨hone,hrest⟩ := fits_append hfit
    have hlen : (e.extend (outputItems d tree mask o)).ops-e.ops
        = (outputItems d tree mask o).length := Nat.add_sub_cancel_left ..
    rw [foldlM_cons,output_eq htree (hos o (by simp)) hbits hmask,emitAll_eq e _ hone,ok_bind,
      ok_bind,hlen]
    have hnext := ih (e := { e.extend (outputItems d tree mask o) with
      programLengths := e.programLengths++[(outputItems d tree mask o).length] })
      (fun k hk => hos k (by simp [hk])) hbits hmask ⟨hrest.ops,hrest.queries,hrest.room⟩
    refine hnext.trans (congrArg Except.ok ?_)
    simp only [finish,hspl,extend_append,map_cons]
    simp only [extend,append_assoc,cons_append,nil_append]

lemma fits_of_outputs {e' : Emitter} (hbits : e.bits=d.bits) (hmask : e.mask=mask) (hk :
    e.keep=none) (hfit : e.Fits []) (h : os.foldlM (fun self o => self.output d o) e = .ok e') :
    e.Fits (programItems d tree mask os) := by
  induction os generalizing e with
  | nil => exact hfit
  | cons o os ih =>
    rw [foldlM_cons,output_eq htree (hos o (by simp)) hbits hmask] at h
    obtain ⟨e2,hone,hrest⟩ := bind_eq_ok.mp h
    obtain ⟨e1,hall,hsome⟩ := bind_eq_ok.mp hone
    have hfits := fits_of_emitAll hk hfit hall
    rw [emitAll_eq e _ hfits] at hall
    cases hall
    cases hsome
    have hnil := (fits_append (b := []) (by rwa [append_nil])).2
    have hmore := ih (e := { e.extend (outputItems d tree mask o) with
      programLengths := e.programLengths++[(e.extend (outputItems d tree mask o)).ops-e.ops] })
      (fun k hk => hos k (by simp [hk])) hbits hmask hk ⟨hnil.ops,hnil.queries,hnil.room⟩ hrest
    have hops := hmore.ops
    have hqs := hmore.queries
    simp only [extend] at hops hqs
    have hspl : programItems d tree mask (o::os)
        = outputItems d tree mask o++programItems d tree mask os := flatMap_cons
    rw [hspl]
    refine ⟨?_,?_,fun q c hs => by rw [hk] at hs; cases hs⟩
    · rw [length_append]
      omega
    · rw [queriesOf,flatMap_append,length_append]
      simp only [queriesOf] at hqs
      omega

end

end Emitter

/-- What of items does not depend on a mask. -/
def kinds (items : List Item) : List Opcode := items.map Item.opcode

section
variable {a b : List Item}

lemma kinds_append (a b : List Item) : kinds (a++b) = kinds a++kinds b := map_append

lemma length_eq_of_kinds (h : kinds a = kinds b) : a.length=b.length := by
  have hlen := congrArg length h
  simpa [kinds] using hlen

lemma sum_eq_of_kinds {f : Item → ℕ} {g : Opcode → ℕ} (hf : ∀ i, f i = g i.opcode)
    (h : kinds a = kinds b) : (a.map f).sum = (b.map f).sum := by
  have hmap : ∀ items : List Item, items.map f=(kinds items).map g := fun items => by
    rw [kinds,List.map_map]
    exact map_congr_left fun i _ => hf i
  rw [hmap,hmap,h]

lemma queries_eq_of_kinds (h : kinds a = kinds b) :
    (queriesOf a).length = (queriesOf b).length := by
  rw [queriesOf,queriesOf,length_flatMap,length_flatMap]
  refine sum_eq_of_kinds (g := fun o => if o = .query then 1 else 0) (fun i => ?_) h
  cases i <;> rfl

lemma kinds_itemsLt (mask mask' bits shift threshold : ℕ) :
    kinds (itemsLt mask bits shift threshold) = kinds (itemsLt mask' bits shift threshold) := by
  by_cases h : threshold=0 ∨ threshold=2^bits
  · simp only [itemsLt,if_pos h]
  · simp only [itemsLt,if_neg h]
    rfl

lemma kinds_items (bits mask mask' : ℕ) (t : Tree) :
    kinds (t.items bits mask) = kinds (t.items bits mask') := by
  induction t with
  | const v => rfl
  | lt t => exact kinds_itemsLt ..
  | lowLt k t => exact kinds_itemsLt ..
  | signedLt t => exact kinds_itemsLt ..
  | msb c =>
    rw [Tree.items,Tree.items,kinds_append,kinds_append,kinds_itemsLt mask mask']
  | not a ih => rw [Tree.items,Tree.items,kinds_append,kinds_append,ih]
  | xor a b iha ihb | and a b iha ihb | or a b iha ihb =>
    simp only [Tree.items,kinds_append,iha,ihb]

lemma kinds_programItems (d : Descriptor) (tree : ℕ → ℕ → Tree) (mask mask' : ℕ) (os : List ℕ) :
    kinds (programItems d tree mask os) = kinds (programItems d tree mask' os) := by
  have hpiec : ∀ o i, kinds (pieceItems d tree mask o i)=kinds (pieceItems d tree mask' o i) := by
    intro o i
    simp only [pieceItems,kinds_append]
    rw [kinds_itemsLt mask mask',kinds_itemsLt mask mask' d.bits 0 (d.boundaries.getD i 0),
      kinds_items d.bits mask mask']
  have hflat : ∀ (xs : List ℕ) (f g : ℕ → List Item), (∀ x, kinds (f x)=kinds (g x)) →
      kinds (xs.flatMap f) = kinds (xs.flatMap g) := by
    intro xs f g hfg
    induction xs with
    | nil => rfl
    | cons x xs ih => rw [flatMap_cons,flatMap_cons,kinds_append,kinds_append,hfg,ih]
  exact hflat os _ _ fun o => hflat _ _ _ (hpiec o)

lemma length_outputItems (d : Descriptor) (tree : ℕ → ℕ → Tree) (mask mask' o : ℕ) :
    (outputItems d tree mask o).length = (outputItems d tree mask' o).length := by
  have h := kinds_programItems d tree mask mask' [o]
  simp only [programItems,flatMap_cons,flatMap_nil,append_nil] at h
  exact length_eq_of_kinds h

end

/-- The boundaries of a descriptor cut the words into its pieces. -/
structure Partitions (d : Descriptor) : Prop where
  pieces : 0<d.pieces.length
  zero : d.boundaries.getD 0 0 = 0
  last : d.boundaries.getD d.pieces.length 0 = 2^d.bits
  lt : ∀ i j, i<j → j≤d.pieces.length → d.boundaries.getD i 0 < d.boundaries.getD j 0

lemma exists_interval {b : ℕ → ℕ} {x m : ℕ} (hlow : b 0 ≤ x) (hhigh : x < b m) :
    ∃ j < m, b j ≤ x ∧ x < b (j+1) := by
  induction m with
  | zero => omega
  | succ m ih =>
    by_cases hx : x < b m
    · obtain ⟨j,hj,h⟩ := ih hx
      exact ⟨j,by omega,h⟩
    · exact ⟨m,by omega,by omega,hhigh⟩

section
variable {d : Descriptor} {mask : ℕ}

/-- The piece of the unmasked point. -/
def PieceAt (d : Descriptor) (mask y i : ℕ) : Prop :=
  ∀ x<2^d.bits, y=(x+mask)%2^d.bits →
    i<d.pieces.length ∧ Rotation.Owns d.pieces.length (fun i => d.boundaries.getD i 0) x i

lemma Partitions.start_lt (h : Partitions d) (hi : i<d.pieces.length) :
    d.boundaries.getD i 0 < 2^d.bits := h.last ▸ h.lt i _ hi le_rfl

lemma mem_sortedStarts {e : ℕ × ℕ} : e ∈ sortedStarts d mask ↔
    ∃ i<d.pieces.length, e = ((d.boundaries.getD i 0+mask)%2^d.bits,i) := by
  rw [sortedStarts,mem_mergeSort,List.mem_map]
  constructor
  · rintro ⟨i,hi,rfl⟩
    exact ⟨i,mem_range.mp hi,rfl⟩
  · rintro ⟨i,hi,rfl⟩
    exact ⟨i,mem_range.mpr hi,rfl⟩

lemma length_sortedStarts : (sortedStarts d mask).length = d.pieces.length := by
  rw [sortedStarts,length_mergeSort,length_map,length_range]

section
variable (h : Partitions d) (hmask : mask<2^d.bits)
include h hmask

lemma Partitions.moved_inj {k : ℕ} (hi : i<d.pieces.length) (hk : k<d.pieces.length) (heq :
    (d.boundaries.getD i 0+mask)%2^d.bits = (d.boundaries.getD k 0+mask)%2^d.bits) : i=k := by
  have hi' := h.start_lt hi
  have hk' := h.start_lt hk
  have h1 := moved_cases hmask hi'
  have h2 := moved_cases hmask hk'
  rcases lt_trichotomy i k with hlt | heq | hgt
  · have hne := h.lt i k hlt hk.le
    omega
  · exact heq
  · have hne := h.lt k i hgt hi.le
    omega

lemma Partitions.pairwise_sortedStarts : (sortedStarts d mask).Pairwise fun e f => e.1<f.1 := by
  have hsrt : (sortedStarts d mask).Pairwise fun e f =>
      decide (e.1<f.1 ∨ e.1=f.1 ∧ e.2≤f.2)=true := by
    refine pairwise_mergeSort (fun a b c hab hbc => ?_) (fun a b => ?_) _
    · simp only [decide_eq_true_eq] at hab hbc ⊢
      omega
    · simp only [Bool.or_eq_true,decide_eq_true_eq]
      omega
  have hnd : (sortedStarts d mask).Nodup := by
    rw [sortedStarts,(mergeSort_perm ..).nodup_iff]
    exact nodup_range.map fun a b hab => (Prod.mk.inj hab).2
  refine (hsrt.and hnd).imp_of_mem fun {e f} he hf hef => ?_
  obtain ⟨i,hi,rfl⟩ := mem_sortedStarts.mp he
  obtain ⟨k,hk,rfl⟩ := mem_sortedStarts.mp hf
  obtain ⟨hle,hne⟩ := hef
  simp only [decide_eq_true_eq] at hle
  rcases hle with hlt | ⟨heq,-⟩
  · exact hlt
  · obtain rfl := h.moved_inj hmask hi hk heq
    exact absurd rfl hne

lemma Partitions.carries_sortedStarts :
    Carries (2^d.bits) (PieceAt d mask) (sortedStarts d mask) := by
  refine carries_of_sorted (h.pairwise_sortedStarts hmask) (fun e he => ?_)
    fun e he y hlow hhigh hlast x hx hy => ?_
  · obtain ⟨i,hi,rfl⟩ := mem_sortedStarts.mp he
    exact mod_lt _ (Nat.two_pow_pos _)
  · obtain ⟨i,hi,rfl⟩ := mem_sortedStarts.mp he
    refine ⟨hi,owns_of_last (b := fun i => d.boundaries.getD i 0) h.pieces h.zero
      (fun k hk => h.start_lt hk) hmask hx hy hi hlow fun k hk hk' => hlast _ (mem_sortedStarts.mpr ⟨k,hk,rfl⟩) hk'⟩

/-- The padded partition starts at zero, has the admitted number of intervals, and carries the
pieces. -/
lemma Partitions.padded :
    let entries := paddedEntries (2^d.bits) d.pieces.length (sortedStarts d mask)
    Carries (2^d.bits) (PieceAt d mask) entries ∧ entries.length = min (d.pieces.length+1)
      (2^d.bits) ∧ stop (2^d.bits) entries = 0 := by
  have hcar := h.carries_sortedStarts hmask
  have hroom := hcar.stop_add_length
  have hleng : (sortedStarts d mask).length=d.pieces.length := length_sortedStarts
  have hpie := h.pieces
  obtain ⟨first,rest,hspl⟩ : ∃ first rest, sortedStarts d mask=first::rest :=
    exists_cons_of_length_pos (by omega)
  have hstop : stop (2^d.bits) (sortedStarts d mask)=first.1 := by
    rw [hspl,stop_cons]
  have hhead : ((sortedStarts d mask).head?.map Prod.fst).getD 0=first.1 := by rw [hspl]; rfl
  change Carries (2^d.bits) (PieceAt d mask) (paddedEntries ..)
    ∧ (paddedEntries ..).length = _ ∧ stop _ (paddedEntries ..)=0
  rw [paddedEntries,hhead]
  by_cases hzero : first.1=0
  · rw [if_neg (not_not.mpr hzero)]
    by_cases hlt : d.pieces.length<2^d.bits
    · rw [if_pos hlt]
      refine ⟨hcar.splitFirst,?_,by rw [stop_splitFirst,hstop,hzero]⟩
      rw [hcar.length_splitFirst (by rw [hstop,hleng]; omega)]
      omega
    · rw [if_neg hlt]
      exact ⟨hcar,by omega,by rw [hstop,hzero]⟩
  · rw [if_pos hzero]
    refine ⟨⟨⟨?_,fun y _ hy x hx hyx => ?_⟩,hcar⟩,by rw [length_cons]; omega,rfl⟩
    · change 0 < stop _ _
      omega
    · -- the last moved start owns the points before the first one
      change y < stop _ _ at hy
      rw [hstop] at hy
      have hne : sortedStarts d mask ≠ [] := by rw [hspl]; simp
      obtain ⟨i,hi,hlast⟩ := mem_sortedStarts.mp (getLast_mem hne)
      have hget : ((sortedStarts d mask).getLast?.map Prod.snd).getD 0=i := by
        rw [getLast?_eq_some_getLast hne,hlast]
        rfl
      rw [hget]
      have hsrt := h.pairwise_sortedStarts hmask
      refine ⟨hi,owns_of_wrapped (b := fun i => d.boundaries.getD i 0) h.pieces h.zero
        (fun k hk => h.start_lt hk) hmask hx hyx hi (fun k hk => ?_) fun k hk => ?_⟩
      · have hmem : ((d.boundaries.getD k 0+mask)%2^d.bits,k) ∈ sortedStarts d mask :=
          mem_sortedStarts.mpr ⟨k,hk,rfl⟩
        rw [hspl] at hmem hsrt
        rcases mem_cons.mp hmem with heq | hin
        · rw [←heq] at hy
          exact hy
        · exact hy.trans ((pairwise_cons.mp hsrt).1 _ hin)
      · have hmem : ((d.boundaries.getD k 0+mask)%2^d.bits,k) ∈ sortedStarts d mask :=
          mem_sortedStarts.mpr ⟨k,hk,rfl⟩
        obtain ⟨front,hfrt⟩ : ∃ front, sortedStarts d mask
            = front++[((d.boundaries.getD i 0+mask)%2^d.bits,i)] :=
          ⟨_,hlast ▸ (dropLast_append_getLast hne).symm⟩
        rw [hfrt] at hmem hsrt
        rcases mem_append.mp hmem with hin | heq
        · have hbef := (pairwise_append.mp hsrt).2.2 _ hin _ (mem_singleton_self _)
          exact hbef.le
        · exact (congrArg Prod.fst (mem_singleton.mp heq)).le

end

lemma Partitions.eq_of_owns (h : Partitions d) {x k : ℕ} (hk : k<d.pieces.length) (hlow :
    d.boundaries.getD k 0 ≤ x) (hhigh : x < d.boundaries.getD (k+1) 0) (hi : i<d.pieces.length)
    (howns : Owns d.pieces.length (fun i => d.boundaries.getD i 0) x i) : i=k := by
  obtain ⟨hown,hlast⟩ := howns
  have hle := hlast k hk hlow
  simp only at hown hle
  rcases lt_trichotomy i k with hlt | heq | hgt
  · have hstr := h.lt i k hlt hk.le
    omega
  · exact heq
  · have hbd : d.boundaries.getD (k+1) 0 ≤ d.boundaries.getD i 0 := by
      rcases eq_or_lt_of_le (succ_le_of_lt hgt) with heq | hlt
      · rw [←heq]
      · exact (h.lt _ _ hlt hi.le).le
    omega

variable {tree : ℕ → ℕ → Tree} {arity x y o i : ℕ}

lemma evalItems_piece (h : Partitions d) (hbits : 0<d.bits) (hy : Masks d.bits mask x y)
    {k : ℕ} (hk : k<d.pieces.length) (htree : (tree k o).Admitted d.bits) (stack : List Bool) :
    evalItems y (pieceItems d tree mask o k) stack = evalItems y (if k ≠ 0 then [.xor] else [])
        (((decide (x < d.boundaries.getD (k+1) 0) != decide (x < d.boundaries.getD k 0))
          && (tree k o).eval d.bits x)::stack) := by
  have hhigh : d.boundaries.getD (k+1) 0 ≤ 2^d.bits := by
    rcases eq_or_lt_of_le (succ_le_of_lt hk) with heq | hlt
    · exact (heq ▸ h.last).le
    · exact (h.start_lt hlt).le
  rw [pieceItems,evalItems_append,evalItems_lt hy le_rfl hhigh,bind_eq_bind,
    bind_some,evalItems_append,evalItems_lt hy le_rfl (h.start_lt hk).le,
    bind_eq_bind,bind_some,add_zero,mod_eq_of_lt hy.1]
  change evalItems y ((tree k o).items d.bits mask++_) (_::stack)=_
  rw [evalItems_append,evalItems_tree hy hbits _ htree]
  rfl

lemma Partitions.inside (h : Partitions d) (hi : i<d.pieces.length) (hlow : d.boundaries.getD i 0 ≤
    x) (hhigh : x < d.boundaries.getD (i+1) 0) {k : ℕ} (hk : k<d.pieces.length) : (decide
    (x < d.boundaries.getD (k+1) 0) != decide (x < d.boundaries.getD k 0)) = decide (k=i) := by
  rcases lt_trichotomy k i with hlt | rfl | hgt
  · have hle : d.boundaries.getD (k+1) 0 ≤ d.boundaries.getD i 0 := by
      rcases eq_or_lt_of_le (succ_le_of_lt hlt) with heq | hlt
      · rw [←heq]
      · exact (h.lt _ _ hlt hi.le).le
    have hlt' := h.lt k i hlt hi.le
    rw [decide_eq_false (by omega),decide_eq_false (by omega),decide_eq_false (by omega)]
    rfl
  · rw [decide_eq_true hhigh,decide_eq_false (by omega),decide_eq_true rfl]
    rfl
  · have hle : d.boundaries.getD (i+1) 0 ≤ d.boundaries.getD k 0 := by
      rcases eq_or_lt_of_le (succ_le_of_lt hgt) with heq | hlt
      · rw [←heq]
      · exact (h.lt _ _ hlt hk.le).le
    have hlt' := h.lt k (k+1) (lt_succ_self k) hk
    rw [decide_eq_true (by omega),decide_eq_true (by omega),decide_eq_false (by omega)]
    rfl

/-- The program of an output pushes the expression of the piece of the word. -/
lemma evalItems_output (h : Partitions d) (hbits : 0<d.bits) (hy : Masks d.bits mask x y)
    (htree : TreesOf d arity tree) (ho : o<arity) (hi : i<d.pieces.length)
    (hlow : d.boundaries.getD i 0 ≤ x) (hhigh : x < d.boundaries.getD (i+1) 0) :
    evalItems y (outputItems d tree mask o) [] = some [(tree i o).eval d.bits x] := by
  have hpart : ∀ k≤d.pieces.length, evalItems y ((range k).flatMap (pieceItems d tree mask o)) []
        = some (if k = 0 then [] else [decide (i<k) && (tree i o).eval d.bits x]) := by
    intro k
    induction k with
    | zero => exact fun _ => rfl
    | succ k ih =>
      intro hk
      rw [range_succ,flatMap_append,evalItems_append,ih (by omega),bind_eq_bind,
        bind_some,flatMap_cons,flatMap_nil,append_nil,evalItems_piece h hbits hy (by omega) (htree
        k (by omega) o ho).2,h.inside hi hlow hhigh (by omega),if_neg (succ_ne_zero k)]
      cases k with
      | zero =>
        by_cases hzero : 0=i
        · subst hzero
          rfl
        · rw [decide_eq_false hzero,decide_eq_false (show ¬i < 0+1 by omega)]
          rfl
      | succ k =>
        change some [_ != _]=_
        rcases lt_trichotomy (k+1) i with hlt | heq | hgt
        · rw [decide_eq_false (show ¬i < k+1 by omega),decide_eq_false (show ¬k+1=i by omega),
            decide_eq_false (show ¬i < k+1+1 by omega)]
          rfl
        · rw [decide_eq_false (show ¬i < k+1 by omega),decide_eq_true heq,
            decide_eq_true (show i < k+1+1 by omega),heq]
          simp
        · rw [decide_eq_true (show i < k+1 by omega),decide_eq_false (show ¬k+1=i by omega),
            decide_eq_true (show i < k+1+1 by omega)]
          simp
  have hall := hpart d.pieces.length le_rfl
  rw [if_neg h.pieces.ne',decide_eq_true hi] at hall
  exact hall

/-- What admission establishes. -/
structure AdmittedAs (bits arity : ℕ) (sources : List (List Value × List Value)) (d : Descriptor) :
    Prop where
  word : d.bits=bits
  pos : 0<bits
  partitions : Partitions d
  pieces : List.Forall₂ (PieceOf bits arity d.expressions) sources d.pieces
  outputs : d.shape.booleanOutputs=arity
  shape : admission d = .ok d.shape

section
variable {bits : ℕ} {bounds : List Value} {sources : List (List Value × List Value)}

section
variable (h : Descriptor.fromFields bits arity bounds sources = .ok d)
include h

lemma boundaries_fromFields : bounds=d.boundaries.map fun v => Value.int v := by
  obtain ⟨-,h⟩ := ite_error_eq_ok.mp h
  obtain ⟨-,h⟩ := ite_error_eq_ok.mp h
  obtain ⟨-,h⟩ := ite_error_eq_ok.mp h
  obtain ⟨-,h⟩ := ite_error_eq_ok.mp h
  obtain ⟨boundaries,hread,h⟩ := bind_eq_ok.mp h
  obtain ⟨-,h⟩ := ite_error_eq_ok.mp h
  obtain ⟨⟨pieces,expressions⟩,-,shape,-,h⟩ := bind₂_eq_ok.mp h
  cases h
  exact readBoundaries_spells hread

lemma AdmittedAs.fromFields : AdmittedAs bits arity sources d := by
  obtain ⟨hbits,h⟩ := ite_error_eq_ok.mp h
  obtain ⟨-,h⟩ := ite_error_eq_ok.mp h
  obtain ⟨hcnt,h⟩ := ite_error_eq_ok.mp h
  obtain ⟨hbds,h⟩ := ite_error_eq_ok.mp h
  obtain ⟨boundaries,hread,h⟩ := bind_eq_ok.mp h
  obtain ⟨hends,h⟩ := ite_error_eq_ok.mp h
  obtain ⟨⟨pieces,expressions⟩,hpie,shape,hshp,h⟩ := bind₂_eq_ok.mp h
  cases h
  obtain ⟨hinc,hleng⟩ := readBoundaries_eq_ok hread
  have hall := readPieces_eq_ok hpie
  have hsame := hall.length_eq
  have hlen : boundaries.length=pieces.length+1 := by omega
  have houts : shape.booleanOutputs=arity := by
    obtain ⟨dry,-,hshp⟩ := bind_eq_ok.mp hshp
    obtain ⟨-,hshp⟩ := ite_error_eq_ok.mp hshp
    cases hshp
    rfl
  have hget : ∀ k (hk : k<boundaries.length), boundaries.getD k 0=boundaries[k] :=
    fun k hk => getD_eq_getElem _ _ hk
  refine ⟨rfl,by omega,⟨by simp only; omega,?_,?_,fun a b hab hb => ?_⟩,hall,houts,?_⟩
  · have hfst := not_not.mp (not_or.mp hends).1
    rw [head?_eq_getElem?] at hfst
    simp only [getD_eq_getElem?_getD,hfst,getD_some]
  · have hlast := not_not.mp (not_or.mp hends).2
    rw [getLast?_eq_getElem?,hlen,Nat.add_sub_cancel] at hlast
    simp only [getD_eq_getElem?_getD,hlast,getD_some]
  · simp only at hb ⊢
    rw [hget a (by omega),hget b (by omega)]
    exact pairwise_iff_getElem.mp hinc.pairwise a b (by omega) (by omega) hab
  · rw [←hshp]
    unfold admission Emitter.normalize
    rw [houts]
    rfl

end

section
variable (h : AdmittedAs bits arity sources d)
include h

/-- The trees of the pieces, as the sources spell them. -/
lemma AdmittedAs.exists_trees : ∃ tree : ℕ → ℕ → Tree, TreesOf d arity tree ∧ ∀ i < sources.length,
    ∀ o<arity, Spells ((sources.getD i ([],[])).2.getD o (.bool false)) (tree i o) := by
  have hsame := h.pieces.length_eq
  have hpiec : ∀ i : ℕ, ∃ trees : ℕ → Tree, i < sources.length → ∀ o<arity,
      RootOf d.bits d.expressions ((d.pieces.getD i default).roots.getD o 0) (trees o)
        ∧ Spells ((sources.getD i ([],[])).2.getD o (.bool false)) (trees o) := by
    intro i
    by_cases hi : i < sources.length
    · have hget := h.pieces.get hi (by omega)
      obtain ⟨trees,hspe,hroot⟩ := hget.trees
      have hari := hget.arity
      have hspellLength := hspe.length_eq
      have hrootLength := hroot.length_eq
      simp only [get_eq_getElem] at hspe hroot hari hspellLength hrootLength
      refine ⟨fun o => trees.getD o (.const false),fun _ o ho => ?_⟩
      have hr := hroot.get (i := o) (by omega) (by omega)
      have hs := hspe.get (i := o) (by omega) (by omega)
      beta_reduce
      rw [getD_eq_getElem _ _ (by omega : i<d.pieces.length),getD_eq_getElem _ _ hi,getD_eq_getElem
        _ _ (by omega),getD_eq_getElem _ _ (by omega),getD_eq_getElem _ _ (by omega),h.word]
      exact ⟨hr,hs⟩
    · exact ⟨fun _ => .const false,fun hlt => absurd hlt hi⟩
  choose tree htree using hpiec
  exact ⟨tree,fun i hi o ho => (htree i (by omega) o ho).1,fun i hi o ho => (htree i hi o ho).2⟩

lemma AdmittedAs.shape_eq (htree : TreesOf d arity tree) :
    let items := programItems d tree 0 (range arity)
    (Emitter.new d.bits 0 none).Fits items ∧ ∃ size, d.shape
      = ⟨d.pieces.length,min (d.pieces.length+1) (2^d.bits),arity,(queriesOf items).length,
        items.length,(items.map Item.ands).sum,(items.map Item.xors).sum,size,
        (range arity).map fun o => (outputItems d tree 0 o).length⟩ := by
  intro items
  have hshp := h.shape
  unfold admission Emitter.normalize at hshp
  rw [h.outputs] at hshp
  obtain ⟨dry,hdry,hshp⟩ := bind_eq_ok.mp hshp
  obtain ⟨-,hshp⟩ := ite_error_eq_ok.mp hshp
  have hfits : (Emitter.new d.bits 0 none).Fits items :=
    Emitter.fits_of_outputs htree (fun o ho => mem_range.mp ho) rfl rfl rfl
      ⟨zero_le _,zero_le _,fun q c hs => by cases hs⟩ hdry
  rw [Emitter.outputs_eq htree (fun o ho => mem_range.mp ho) rfl rfl hfits] at hdry
  cases hdry
  simp only [Emitter.finish,Emitter.extend,Emitter.new,zero_add,nil_append, pure_eq_ok] at hshp
  exact ⟨hfits,_,(ok_inj hshp).symm⟩

lemma AdmittedAs.normalize_eq (htree : TreesOf d arity tree) (mask : ℕ) :
    (Emitter.new d.bits mask (some d.shape)).normalize d
      = .ok ((Emitter.new d.bits mask (some d.shape)).finish d tree mask (range arity)) := by
  obtain ⟨hfits,size,hshp⟩ := h.shape_eq htree
  have hkin := kinds_programItems d tree mask 0 (range arity)
  have hleng := length_eq_of_kinds hkin
  have hqs := queries_eq_of_kinds hkin
  rw [Emitter.normalize,h.outputs]
  refine Emitter.outputs_eq htree (fun o ho => mem_range.mp ho) rfl rfl ⟨?_,?_,?_⟩
  · have hops := hfits.ops
    rw [hleng]
    exact hops
  · have hcnt := hfits.queries
    rw [hqs]
    exact hcnt
  · intro q c hs
    rw [hshp] at hs
    cases hs
    rw [hleng,hqs]
    exact ⟨(zero_add _).le,(zero_add _).le⟩

end

end

/-- The plan of a compilation. -/
def planOf (d : Descriptor) (tree : ℕ → ℕ → Tree) (arity mask : ℕ) : DealerPlan :=
  let entries := paddedEntries (2^d.bits) d.pieces.length (sortedStarts d mask)
  let items := programItems d tree mask (List.range arity)
  ⟨d.shape,entries.map Prod.fst++[2^d.bits],
    entries.map fun e => (d.pieces.getD e.2 default).coefficients,queriesOf items,code 0 items⟩

lemma AdmittedAs.compile_eq (h : AdmittedAs bits arity sources d) (htree : TreesOf d arity tree)
    (hmask : mask<2^d.bits) : compile d mask = .ok (planOf d tree arity mask) := by
  obtain ⟨-,size,hshp⟩ := h.shape_eq htree
  obtain ⟨-,hpad,-⟩ := h.partitions.padded hmask
  have hkin := kinds_programItems d tree mask 0 (range arity)
  have hleng := length_eq_of_kinds hkin
  have hqs := queries_eq_of_kinds hkin
  have hsrc : d.shape.sourceIntervals=d.pieces.length := by rw [hshp]
  have hlens : (range arity).map (fun o => (outputItems d tree mask o).length)
      = d.shape.programLengths := by
    rw [hshp]
    exact map_congr_left fun o _ => length_outputItems d tree mask 0 o
  unfold compile
  rw [if_neg (not_le.mpr hmask)]
  simp only [h.normalize_eq htree,ok_bind,hsrc,length_map,length_append,
    length_cons,length_nil,hpad]
  rw [if_neg]
  · simp only [Emitter.finish,Emitter.extend,Emitter.new,map_some,isSome_some,
      if_true,nil_append,List.map_map,pure_eq_ok]
    rfl
  · simp only [not_or,not_not]
    refine ⟨by rw [hshp],by rw [hshp],?_,?_,?_⟩
    · simp only [Emitter.finish,Emitter.extend,Emitter.new,zero_add]
      rw [hqs,hshp]
    · simp only [Emitter.finish,Emitter.extend,Emitter.new,zero_add]
      rw [hleng,hshp]
    · exact hlens

lemma length_programItems (d : Descriptor) (tree : ℕ → ℕ → Tree) (mask : ℕ) (os : List ℕ) :
    (programItems d tree mask os).length
      = (os.map fun o => (outputItems d tree mask o).length).sum := by
  rw [programItems,length_flatMap]

lemma queriesOf_append (items items' : List Item) :
    queriesOf (items++items') = queriesOf items++queriesOf items' := flatMap_append

/-- An output's program answers as its items do. -/
lemma AdmittedAs.execute_program
    (h : AdmittedAs bits arity sources d) (htree : TreesOf d arity tree) (ho : o<arity)
    (mask y : ℕ) : execute (fun k => ((planOf d tree arity mask).queries.getD k ⟨0,0,0⟩).eval y)
      ((planOf d tree arity mask).program o) [] = evalItems y (outputItems d tree mask o) [] := by
  obtain ⟨-,size,hshp⟩ := h.shape_eq htree
  have hlens : d.shape.programLengths
      = (range arity).map fun o => (outputItems d tree mask o).length := by
    rw [hshp]
    exact map_congr_left fun o _ => length_outputItems d tree 0 mask o
  have ho' : o < (range arity).length := by rwa [length_range]
  have hspl : programItems d tree mask (range arity)
      = programItems d tree mask ((range arity).take o)
        ++ (outputItems d tree mask o++programItems d tree mask ((range arity).drop (o+1))) := by
    conv_lhs => rw [←take_append_drop o (range arity),drop_eq_getElem_cons ho',getElem_range]
    rw [programItems,flatMap_append]
    rfl
  have hbef : (d.shape.programLengths.take o).sum
      = (programItems d tree mask ((range arity).take o)).length := by
    rw [hlens,←map_take,length_programItems]
  have hown : d.shape.programLengths.getD o 0=(outputItems d tree mask o).length := by
    rw [hlens,getD_eq_getElem _ _ (by simpa using ho),getElem_map,getElem_range]
  have hpgm : (planOf d tree arity mask).program o
      = code (queriesOf (programItems d tree mask ((range arity).take o))).length
        (outputItems d tree mask o) := by
    unfold DealerPlan.program planOf
    simp only
    rw [hbef,hown,hspl,code_append,drop_left' (length_code ..),code_append,
      take_left' (length_code ..),zero_add]
  rw [hpgm]
  refine execute_code y _ _ _ _ fun j q hq => ?_
  have hque : (planOf d tree arity mask).queries[
      (queriesOf (programItems d tree mask ((range arity).take o))).length+j]? = some q := by
    unfold planOf
    simp only
    rw [hspl,queriesOf_append,queriesOf_append,getElem?_append_right (Nat.le_add_right _
      _),Nat.add_sub_cancel_left,getElem?_append_left (List.getElem?_eq_some_iff.mp hq).1]
    exact hq
  rw [getD_eq_getElem?_getD,hque,getD_some]

lemma coefficients_planOf (d : Descriptor) (tree : ℕ → ℕ → Tree) (arity mask : ℕ) :
    (planOf d tree arity mask).coefficients
      = (paddedEntries (2^d.bits) d.pieces.length (sortedStarts d mask)).map fun e =>
        (d.pieces.getD e.2 default).coefficients := rfl

/-- The word behind a masked opening. -/
def unmask (bits mask y : ℕ) : ℕ := (y+2^bits-mask)%2^bits

lemma masks_unmask (hmask : mask<2^bits) (hy : y<2^bits) :
    Masks bits mask (unmask bits mask y) y := by
  refine ⟨mod_lt _ (Nat.two_pow_pos _),?_⟩
  rw [unmask,mod_add_mod,show y+2^bits-mask+mask=y+2^bits by omega,add_mod_right,mod_eq_of_lt hy]

/-- The compiler, for every admitted descriptor and every mask: it succeeds with the shape of the
mask-free pass; its boundaries cut the masked words into the padded number of intervals; and at every
masked opening the interval has the coefficients of the piece of the unmasked word, and the programs
give the expressions of that piece at the unmasked word. -/
theorem compile_refines {bits arity mask : ℕ} {bounds : List Value} {sources : List (List Value ×
    List Value)} {d : Descriptor} (hd : Descriptor.fromFields bits arity bounds sources = .ok d)
    (hmask : mask<2^bits) : bounds = d.boundaries.map (fun v => Value.int v)
    ∧ ∃ plan, compile d mask = .ok plan ∧ (admission d = .ok plan.shape ∧ plan.shape=d.shape
        ∧ plan.coefficients.length = plan.shape.paddedIntervals
        ∧ plan.queries.length=plan.shape.queries ∧ plan.instructions.length=plan.shape.vmOps)
      ∧ (plan.boundaries.Pairwise (·<·) ∧ plan.boundaries.length = plan.shape.paddedIntervals+1 ∧
        plan.boundaries.getD 0 0 = 0 ∧ plan.boundaries.getD plan.shape.paddedIntervals 0 = 2^bits)
      ∧ ∀ y<2^bits, ∃ i < sources.length, (d.boundaries.getD i 0 ≤ unmask bits mask y
          ∧ unmask bits mask y < d.boundaries.getD (i+1) 0)
        ∧ (∃ j<plan.coefficients.length, plan.boundaries.getD j 0 ≤ y
          ∧ y < plan.boundaries.getD (j+1) 0)
        ∧ (∀ j<plan.coefficients.length, plan.boundaries.getD j 0 ≤ y →
          y < plan.boundaries.getD (j+1) 0 → (sources.getD i ([],[])).1
            = [.int (plan.coefficients.getD j (0,0)).1,.int (plan.coefficients.getD j (0,0)).2])
        ∧ ∀ o<arity, ∃ t, Spells ((sources.getD i ([],[])).2.getD o (.bool false)) t
          ∧ execute (fun k => (plan.queries.getD k ⟨0,0,0⟩).eval y) (plan.program o) []
            = some [t.eval bits (unmask bits mask y)] := by
  have h := AdmittedAs.fromFields hd
  obtain ⟨tree,htree,hspel⟩ := h.exists_trees
  obtain ⟨-,size,hshp⟩ := h.shape_eq htree
  obtain rfl := h.word
  obtain ⟨hcar,hpad,hstop⟩ := h.partitions.padded hmask
  have hkin := kinds_programItems d tree mask 0 (range arity)
  have hsame := h.pieces.length_eq
  have hcoe : (planOf d tree arity mask).coefficients.length
      = d.shape.paddedIntervals := by
    rw [hshp]
    exact (length_map ..).trans hpad
  have hbou : (planOf d tree arity mask).boundaries.length=d.shape.paddedIntervals+1 := by
    rw [hshp]
    unfold planOf
    simp only [length_append,length_map,hpad,length_singleton]
  have hfst : (planOf d tree arity mask).boundaries.getD 0 0=0 := by
    unfold planOf
    generalize paddedEntries (2^d.bits) d.pieces.length (sortedStarts d mask)=entries at hstop hpad
    cases entries with
    | nil =>
      exact hstop
    | cons e rest => exact hstop
  have hlast : (planOf d tree arity mask).boundaries.getD d.shape.paddedIntervals 0=2^d.bits := by
    unfold planOf
    rw [getD_append_right _ _ _ _ (by rw [length_map,hpad,hshp]),length_map,hpad,hshp]
    simp
  refine ⟨?_,_,h.compile_eq htree hmask,⟨h.shape,rfl,hcoe,?_,?_⟩,
    ⟨hcar.pairwise,hbou,hfst,hlast⟩,fun y hy => ?_⟩
  · exact boundaries_fromFields hd
  · change (queriesOf _).length=d.shape.queries
    rw [hshp,queries_eq_of_kinds hkin]
  · change (code 0 _).length=d.shape.vmOps
    rw [hshp,length_code,length_eq_of_kinds hkin]
  · have hmas := masks_unmask hmask hy
    obtain ⟨i,hi,hlow,hhigh⟩ := @exists_interval (fun i => d.boundaries.getD i 0)
      (unmask d.bits mask y) d.pieces.length (by rw [h.partitions.zero]; exact Nat.zero_le _)
      (by rw [h.partitions.last]; exact hmas.1)
    refine ⟨i,by omega,⟨hlow,hhigh⟩,?_,fun j hj hlow' hhigh' => ?_,fun o ho => ?_⟩
    · rw [hcoe]
      exact @exists_interval (fun j => (planOf d tree arity mask).boundaries.getD j 0) y _
        (by rw [hfst]; exact Nat.zero_le _) (by rw [hlast]; exact hy)
    · have hj' : j < (paddedEntries (2^d.bits) d.pieces.length (sortedStarts d mask)).length := by
        rw [hcoe,hshp] at hj
        rw [hpad]
        exact hj
      obtain ⟨hpiec,howns⟩ := hcar.get hj' hlow' hhigh' _ hmas.1 hmas.2
      have heq := h.partitions.eq_of_owns hi hlow hhigh hpiec howns
      have hpieceOf := h.pieces.get (i := i) (by omega) hi
      have hc := hpieceOf.coefficients
      have hval : (planOf d tree arity mask).coefficients.getD j (0,0)
          = (d.pieces[i]).coefficients := by
        rw [getD_eq_getElem _ _ (by rwa [length_map]),getElem_map] at heq
        rw [coefficients_planOf,getD_eq_getElem _ _ (by rwa [length_map]),
          getElem_map,heq,getD_eq_getElem _ _ hi]
      rw [hval,getD_eq_getElem _ _ (by omega)]
      exact hc
    · refine ⟨tree i o,hspel i (by omega) o ho,?_⟩
      rw [h.execute_program htree ho]
      exact evalItems_output h.partitions h.pos hmas htree ho hi hlow hhigh

lemma boundaries_eq {bits arity : ℕ} {sources : List (List Value × List Value)} {d : Descriptor}
    (xs : List ℕ) (hd : Descriptor.fromFields bits arity (xs.map fun v => .int (v : ℤ)) sources =
      .ok d) : d.boundaries=xs := by
  have h := boundaries_fromFields hd
  simp only [bind_eq_flatMap,List.pure_def,← map_eq_flatMap] at h
  have integers := map_injective_iff.mpr (fun a b same => by simpa using same) h
  exact (map_injective_iff.mpr Nat.cast_injective integers).symm

/-- Two pieces over three bits, the second one with a given expression. -/
abbrev twoPieces (second : Value) :=
  Descriptor.fromFields 3 1 [.int 0,.int 3,.int 8]
    [([.int 2,.int 1],[.array [.string "lt",.int 2]]),([.int 0,.int 5],[second])]

/-- A mask that turns the second piece around. -/
theorem compile_refines_at : ∃ d plan, twoPieces (.array [.string "not",.array [.string "slt",.int (-1)]]) = .ok d
    ∧ compile d 6 = .ok plan ∧ plan.shape=d.shape
    ∧ plan.boundaries.length = plan.shape.paddedIntervals+1
    ∧ ∀ y<8, execute (fun k => (plan.queries.getD k ⟨0,0,0⟩).eval y) (plan.program 0) []
      = some [(if unmask 3 6 y < 3 then Tree.lt 2 else .not (.signedLt (-1))).eval 3
        (unmask 3 6 y)] := by
  obtain ⟨d,hd⟩ : ∃ d, twoPieces (.array [.string "not",.array [.string "slt",.int (-1)]]) = .ok d :=
    ⟨_,by rfl⟩
  obtain ⟨-,plan,hplan,⟨-,hshp,-⟩,⟨-,hbou,-⟩,hall⟩ :=
    @compile_refines _ _ 6 _ _ _ hd (by decide)
  have hpie : d.boundaries=[0,3,8] := boundaries_eq [0,3,8] hd
  refine ⟨d,plan,hd,hplan,hshp,hbou,fun y hy => ?_⟩
  obtain ⟨i,hi,⟨hlow,hhigh⟩,-,-,hexe⟩ := hall y hy
  obtain ⟨t,hspel,ht⟩ := hexe 0 (by decide)
  rw [hpie] at hlow hhigh
  match i with
  | 0 => rw [ht,if_pos (show unmask 3 6 y<3 from hhigh),hspel.unique (.lt 2)]
  | 1 => rw [ht,if_neg (not_lt.mpr (show 3 ≤ unmask 3 6 y from hlow)),
      hspel.unique (.not (.signedLt (-1)))]

end

end Pllm.Fusefss
