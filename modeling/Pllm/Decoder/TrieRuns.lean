import Pllm.Decoder.Trie

/-! Whole lookups: the products of all levels, then the tiles of the table. -/
namespace Pllm.Decoder.Trie
open Pllm.Lib Pllm.Lib.Exec Pllm.Puma Pllm.Puma.Multiply PrefixTree List Plan Place TrieLookup WorkBudget

/-- The plan of a geometry. -/
def planOf (rows vocab : ℕ) : Plan :=
  ⟨rows,vocab,depthOf vocab, (List.range (depthOf vocab)).map (level vocab (depthOf vocab))⟩

section
variable {rows vocab h : ℕ}

lemma levelAt_planOf (hh : h < depthOf vocab) : (planOf rows vocab).levelAt
    (depthOf vocab-1-h) = ⟨width vocab (h+1),width vocab h-width vocab (h+1)⟩ := by
  have hd : depthOf vocab-1-h < depthOf vocab := by omega
  rw [levelAt,planOf,getD_eq_getElem?_getD,getElem?_map,
    getElem?_range hd,Option.map_some,Option.getD_some,level,
    show depthOf vocab-(depthOf vocab-1-h)=h+1 by omega,Nat.add_sub_cancel]
  rfl

lemma depthOf_pos (hv : 2≤vocab) : 0 < depthOf vocab :=
  lt_bitLength.mpr (by omega)

lemma two_pow_lt (hh : h < depthOf vocab) : 2^h<vocab := by
  have hle : 2^h≤vocab-1 := lt_bitLength.mp hh
  have hpos := Nat.two_pow_pos h
  omega

lemma le_two_pow (vocab : ℕ) : vocab ≤ 2^depthOf vocab := by
  have hnot : ¬2^depthOf vocab ≤ vocab-1 := lt_bitLength.not.mp (lt_irrefl _)
  omega

lemma depthOf_le (hv : vocab ≤ maxVocabulary) : depthOf vocab ≤ maxDepth := by
  by_contra hgt
  have hle : 2^maxDepth≤vocab-1 := lt_bitLength.mp (not_le.mp hgt)
  have hpos : 0<2^maxDepth := Nat.two_pow_pos maxDepth
  simp only [maxVocabulary] at hv
  omega

lemma width_root (hv : 2≤vocab) : width vocab (depthOf vocab-1) = 2 := by
  have hpos := depthOf_pos hv
  have hlow : 2^(depthOf vocab-1) < vocab := two_pow_lt (by omega)
  have hhigh : vocab ≤ 2^(depthOf vocab-1)*2 := by
    rw [←pow_succ,Nat.sub_add_cancel hpos]
    exact le_two_pow vocab
  have hp : 0 < 2^(depthOf vocab-1) := Nat.two_pow_pos _
  rw [width_eq (by omega)]
  have hone : (vocab-1)/2^(depthOf vocab-1)=1 := by
    rw [Nat.div_eq_iff hp]
    omega
  omega

end

/-- What the values behind the selectors are, `offset` elements into the level whose children have
height `h`. -/
structure Selects (rows vocab depth : ℕ) (token : ℕ → ℕ) (bit : ℕ → Word) (h offset : ℕ)
    (parents children : Grid Word) : Prop where
  above : ∀ r < rows, ∀ c < width vocab (h+1),
    parents r c = if c = token r/2^(h+1) then 1 else 0
  settled : ∀ r < rows, ∀ c < width vocab h,
    c/2 < width vocab h-width vocab (h+1) →
    r*(width vocab h-width vocab (h+1))+c/2 < offset →
    children r c = descend (width vocab h-width vocab (h+1)) (parents r)
      (bit (r*depth+h)) c
  forced : ∀ r < rows, ∀ c < width vocab h,
    width vocab h-width vocab (h+1) ≤ c/2 → children r c = parents r (c/2)

section
variable {rows vocab depth : ℕ} {token : ℕ → ℕ} {bit : ℕ → Word} {h offset : ℕ}
  {parents children : Grid Word}

section
variable (hs : Selects rows vocab depth token bit h offset parents children)
include hs

/-- A batch of products settles its elements. -/
lemma Selects.settle
    {n : ℕ} {z : ℕ → Word} (hb : 0 < width vocab h-width vocab (h+1))
    (hz : ∀ i<n, z i
      = parents ((offset+i)/(width vocab h-width vocab (h+1)))
          ((offset+i)%(width vocab h-width vocab (h+1)))
        *bit ((offset+i)/(width vocab h-width vocab (h+1))*depth+h)) :
    Selects rows vocab depth token bit h (offset+n) parents
      (writeChildren (width vocab h-width vocab (h+1)) offset n parents z children) := by
  generalize hB : width vocab h-width vocab (h+1)=B at hb hz
  refine ⟨hs.above,fun r hr c hc hbrn hpla => ?_,fun r hr c hc hbrn => ?_⟩
  · rw [hB] at hbrn hpla ⊢
    rw [writeChildren_apply hb]
    by_cases hnew : offset ≤ r*B+c/2
    · have hval := hz (r*B+c/2-offset) (by omega)
      rw [show offset+(r*B+c/2-offset)=c/2+r*B by omega,Nat.add_mul_div_right _ _ hb,
        Nat.add_mul_mod_self_right,Nat.div_eq_of_lt hbrn,Nat.mod_eq_of_lt hbrn,
        zero_add] at hval
      rw [if_pos ⟨hbrn,hnew,hpla⟩,hval,descend,if_pos hbrn]
    · have hold := hs.settled r hr c hc (by omega) (by rw [hB]; omega)
      rw [hB] at hold
      rw [if_neg (by omega),hold]
  · rw [writeChildren_apply hb,if_neg (by omega)]
    exact hs.forced r hr c hc (by omega)

/-- A finished level has the indicators of the longer prefixes. -/
lemma Selects.indicator
    (htok : ∀ r < rows, token r < vocab)
    (hbit : ∀ r < rows, bit (r*depth+h) = if (token r).testBit h then 1 else 0)
    (hlast : offset = rows*(width vocab h-width vocab (h+1))) {r c : ℕ} (hr : r < rows)
    (hc : c < width vocab h) : children r c = if c = token r/2^h then 1 else 0 := by
  have hchd : children r c=descend (width vocab h-width vocab (h+1)) (parents r)
      (bit (r*depth+h)) c := by
    by_cases hbrn : c/2 < width vocab h-width vocab (h+1)
    · refine hs.settled r hr c hc hbrn ?_
      have hrow : (r+1)*(width vocab h-width vocab (h+1))
          ≤ rows*(width vocab h-width vocab (h+1)) := Nat.mul_le_mul_right _ hr
      rw [add_mul] at hrow
      omega
    · rw [hs.forced r hr c hc (by omega),descend,if_neg hbrn]
  rw [hchd]
  exact descend_indicator (htok r hr) h (hs.above r hr) (hbit r hr) hc

end

/-- The next level starts with the selectors of its parents and the copy of the last of them. -/
lemma selects_start (hv : 0<vocab) (hpar : ∀ r < rows, ∀ c < width vocab (h+1),
      parents r c = if c = token r/2^(h+1) then 1 else 0) :
    Selects rows vocab depth token bit h 0 parents
      (copyUnary rows ⟨width vocab (h+1),width vocab h-width vocab (h+1)⟩ parents) := by
  refine ⟨hpar,fun r hr c hc hbrn hpla => absurd hpla (by omega),
    fun r hr c hc hbrn => ?_⟩
  obtain ⟨q,hq,hwd,-⟩ := width_step hv h
  rw [copyUnary_apply,if_pos ⟨hr,by simp only; omega,by simp only; omega⟩]
  congr 1
  simp only
  omega

end

/-- The products of the levels from `d` on. -/
def productsFrom (plan : Plan) (d : ℕ) : List ℕ :=
  (List.range' d (plan.depth-d)).flatMap fun d => tiles (plan.rows*(plan.levelAt d).branches)

/-- The lanes of the products a plan takes, in order. -/
def productLanes (plan : Plan) : List ℕ := productsFrom plan 1

/-- The products that are left. -/
def remaining (place : Place) : List ℕ :=
  tiles (place.plan.rows*place.branches-place.offset)++productsFrom place.plan (place.level+1)

lemma productsFrom_self (plan : Plan) : productsFrom plan plan.depth = [] := by
  simp [productsFrom]

lemma productsFrom_cons {plan : Plan} {d : ℕ} (hd : d<plan.depth) :
    productsFrom plan d = remaining ⟨plan,d,0⟩ := by
  rw [productsFrom,show plan.depth-d=plan.depth-(d+1)+1 by omega,range'_succ,
    flatMap_cons]
  rfl

lemma remaining_onward {place : Place} (hlt : place.offset<place.plan.rows*place.branches) :
    remaining place = place.batch::remaining place.onward := by
  have hrest : place.plan.rows*place.branches-place.offset-place.batch
      = place.plan.rows*place.branches-(place.offset+place.batch) := tsub_tsub ..
  rw [remaining,tiles_cons (by omega)]
  change place.batch::(tiles (place.plan.rows*place.branches-place.offset-place.batch)++_)=_
  rw [hrest]
  rfl

/-- What the limits have to leave for a list of raw products. -/
structure AffordsAll (j : Joint) (limits : PrssLimits) (room : ℕ) (ns : List ℕ) : Prop where
  lanes : ∀ n∈ns, ∃ bytes, limits.core.admittedBytes n = .ok bytes
  room : (ns.map fun n => 2*blockCount n 8).sum ≤ room
  sequence : j.sequence+ns.length ≤ limits.core.maxOperations
  pairEnd : j.pairBlocks+(ns.map fun n => blockCount n 8).sum < 2^64

/-- The setup after a list of raw products. -/
def spentAll (j : Joint) (ns : List ℕ) : Joint :=
  { j with
    pairBlocks := j.pairBlocks+(ns.map fun n => blockCount n 8).sum
    sequence := j.sequence+ns.length }

lemma spentAll_cons (j : Joint) (n : ℕ) (ns : List ℕ) :
    spentAll (spent j n) ns = spentAll j (n::ns) := by
  simp only [spentAll,spent,map_cons,sum_cons,length_cons,add_assoc, add_comm 1]

section
variable {j : Joint} {limits : PrssLimits} {room n : ℕ} {ns : List ℕ}

lemma AffordsAll.head (h : AffordsAll j limits room (n::ns)) : Affords j limits room n := by
  have hroom := h.room
  have hseq := h.sequence
  have hpair := h.pairEnd
  simp only [map_cons,sum_cons,length_cons] at hroom hseq hpair
  exact ⟨h.lanes n (by simp),by omega,by omega,by omega⟩

lemma AffordsAll.tail (h : AffordsAll j limits room (n::ns)) :
    AffordsAll (spent j n) limits (room-2*blockCount n 8) ns := by
  have hroom := h.room
  have hseq := h.sequence
  have hpair := h.pairEnd
  simp only [map_cons,sum_cons,length_cons] at hroom hseq hpair
  refine ⟨fun m hm => h.lanes m (by simp [hm]),by omega,?_,?_⟩
  · simp only [spent]
    omega
  · simp only [spent]
    omega

end

section
variable {env : Platform} {j : Joint} {limits : PrssLimits} {room rows vocab : ℕ}
  {token : ℕ → ℕ} {bits : Party → ℕ → Word} {table : Grid Word}

/-- The bits that are shared. -/
def bitTotal (bits : Party → ℕ → Word) (i : ℕ) : Word := ∑ p, bits p i

/-- The parties share the bits of tokens of the vocabulary. -/
structure SharesTokens (rows vocab : ℕ) (token : ℕ → ℕ) (bits : Party → ℕ → Word) : Prop where
  token_lt : ∀ r < rows, token r < vocab
  bit_eq : ∀ r < rows, ∀ h < depthOf vocab,
    bitTotal bits (r*depthOf vocab+h) = if (token r).testBit h then 1 else 0

/-- The selectors of all tokens. -/
def SelectsTokens (rows vocab : ℕ) (token : ℕ → ℕ) (sels : Party → Grid Word) : Prop :=
  ∀ r < rows, ∀ c<vocab, total sels r c = if c = token r then 1 else 0

/-- The components of a product share the product of the selectors and the bits. -/
lemma sum_products {place : Place} {parents : Party → Grid Word} {i : ℕ}
    (hi : i<place.batch) : ∑ q, lane ((place.products env j bits parents).part q) i = total parents
    ((place.offset+i)/place.branches) ((place.offset+i)%place.branches) *bitTotal bits
    ((place.offset+i)/place.branches*place.plan.depth+place.plan.depth-1 -place.level) := by
  have hlane : i < (planned env j place.batch).lanes := by rwa [lanes_planned]
  have htot := total_productComponents (Components.ofFn place.batch (place.left parents))
    (Components.ofFn place.batch (place.right bits)) env j.keys (planned env j place.batch) hlane
  refine htot.trans ?_
  change (Components.ofFn place.batch (place.left parents)).total i
    *(Components.ofFn place.batch (place.right bits)).total i = _
  rw [Components.total_ofFn _ hi,Components.total_ofFn _ hi]
  rfl

/-- From any place of the recursion the remaining products lead to the selectors of the tokens. -/
lemma yields_growth (hv : 2≤vocab) (hbits : SharesTokens rows vocab token bits)
    {ns : List ℕ} {place : Place} {h : ℕ} {parents children : Party → Grid Word}
    {s : Party → TrieLookup} (hns : remaining place = ns)
    (hplan : place.plan = planOf rows vocab) (hh : h < depthOf vocab)
    (hlev : place.level = depthOf vocab-1-h)
    (hoffs : place.offset < rows*(width vocab h-width vocab (h+1)))
    (hgrow : ∀ p, Growing env j limits room place bits parents children p (s p))
    (hsele : Selects rows vocab (depthOf vocab) token (bitTotal bits) h place.offset
      (total parents) (total children))
    (ha : AffordsAll j limits room ns) (turns : ℕ → ℕ → Turn Party) :
    Yields (advances env table turns ns.length) s fun _ t => ∃ sels,
      (∀ p, Reading env (spentAll j ns) limits (room-(ns.map fun n => 2*blockCount n 8).sum)
        (planOf rows vocab) sels (fun _ _ _ => 0) 0 p (t p))
      ∧ SelectsTokens rows vocab token sels := by
  induction ns generalizing place h parents children s j room turns with
  | nil =>
    have hbra : place.branches=width vocab h-width vocab (h+1) := by
      rw [branches,hplan,hlev,levelAt_planOf hh]
    rw [remaining_onward (by rw [hplan,hbra]; exact hoffs)] at hns
    cases hns
  | cons n ns ih =>
    have hbra : place.branches=width vocab h-width vocab (h+1) := by
      rw [branches,hplan,hlev,levelAt_planOf hh]
    have hrows : place.plan.rows=rows := by rw [hplan]; rfl
    have hdep : place.plan.depth=depthOf vocab := by rw [hplan]; rfl
    have hoff : place.offset<place.plan.rows*place.branches := by
      rw [hrows,hbra]
      exact hoffs
    rw [remaining_onward hoff] at hns
    obtain ⟨rfl,hrest⟩ := List.cons.inj hns
    have hb : 0<place.branches := Nat.pos_of_mul_pos_left (Nat.zero_lt_of_lt hoff)
    have hpos : 0<place.batch := by
      simp only [batch,lanes]
      omega
    have hle : place.offset+place.batch ≤ place.plan.rows*place.branches := by
      simp only [batch]
      omega
    -- the batch settles its elements
    have hstep : Selects rows vocab (depthOf vocab) token (bitTotal bits) h
        (place.offset+place.batch) (total parents)
        (total (place.settle parents children (place.products env j bits parents).part)) := by
      have htot := total_writeChildren hb place.offset place.batch parents children
        fun q => lane ((place.products env j bits parents).part q)
      refine (congrArg (Selects rows vocab (depthOf vocab) token (bitTotal bits) h
        (place.offset+place.batch) (total parents)) htot).mpr ?_
      rw [hbra] at hb ⊢
      refine hsele.settle hb fun i hi => ?_
      have hprd := @sum_products env j bits place parents i hi
      rw [hbra,hdep,hlev] at hprd
      rw [hprd,show ∀ x, x*depthOf vocab+depthOf vocab-1-(depthOf vocab-1-h)
        = x*depthOf vocab+h by intro x; omega]
    refine (yields_advance hgrow hb hpos ha.head (turns 0)).bind fun _ t ht => ?_
    choose source hat hstate using ht
    have hsum : room-2*blockCount place.batch 8-(ns.map fun n => 2*blockCount n 8).sum
        = room-((place.batch::ns).map fun n => 2*blockCount n 8).sum := by
      rw [map_cons,sum_cons,tsub_tsub]
    rw [←spentAll_cons,←hsum]
    by_cases hlast : place.offset+place.batch=place.plan.rows*place.branches
    · have hind : ∀ r < rows, ∀ c < width vocab h, total (place.settle parents children
          (place.products env j bits parents).part) r c = if c = token r/2^h then 1 else 0 := by
        intro r hr c hc
        rw [hrows,hbra] at hlast
        exact hstep.indicator hbits.token_lt (fun r hr => hbits.bit_eq r hr h hh) hlast hr hc
      cases h with
      | zero =>
        have hend : place.level+1=place.plan.depth := by omega
        have hrest' : ns=[] := by
          rw [←hrest]
          change tiles (place.plan.rows*place.branches-(place.offset+place.batch))
            ++ productsFrom place.plan (place.level+1) = []
          rw [hlast,tsub_self,hend,productsFrom_self]
          rfl
        subst hrest'
        refine meets_pure.mpr ⟨place.settle parents children
          (place.products env j bits parents).part,fun p => ?_,fun r hr c hc => ?_⟩
        · have hvoc : place.plan.vocabulary≠0 := by
            rw [hplan]
            exact (show vocab ≠ 0 by omega)
          rw [hstate p,←hplan]
          exact reading_of_settled (hgrow p) (hat p) hend hvoc hlast
        · have hi := hind r hr c (by rwa [width_zero])
          rwa [pow_zero,Nat.div_one] at hi
      | succ h =>
        have hlev' : place.level+1=depthOf vocab-1-h := by omega
        have hmore : place.level+1≠place.plan.depth := by omega
        have hleve : place.plan.levelAt (place.level+1)
            = ⟨width vocab (h+1),width vocab h-width vocab (h+1)⟩ := by
          rw [hplan,hlev',levelAt_planOf (by omega)]
        have hblw : productsFrom place.plan (place.level+1)=remaining place.below :=
          productsFrom_cons (by omega)
        have hrest' : remaining place.below=ns := by
          rw [←hrest]
          change _=tiles (place.plan.rows*place.branches-(place.offset+place.batch))
            ++ productsFrom place.plan (place.level+1)
          rw [hlast,tsub_self,hblw]
          rfl
        have hnext := @ih (spent j place.batch) (room-2*blockCount place.batch 8) place.below h
          (place.settle parents children (place.products env j bits parents).part)
          (fun q => copyUnary place.plan.rows (place.plan.levelAt (place.level+1))
            (place.settle parents children (place.products env j bits parents).part q)) t
        refine hnext hrest' hplan (by omega) hlev' ?_ (fun p => ?_) ?_ ha.tail _
        · obtain ⟨-,-,-,hposi⟩ := width_step (show 0 < vocab by omega) h
          have hrowsPos : 0 < rows := pos_of_ne_zero fun hzero => by simp [hzero] at hoffs
          exact mul_pos hrowsPos (hposi (two_pow_lt (by omega)))
        · rw [hstate p]
          exact growing_below (hgrow p) (hat p) hmore hlast
        · rw [total_copyUnary,hrows,hleve]
          exact selects_start (by omega) hind
    · have hnext : place.onward.offset=place.offset+place.batch := rfl
      refine ih hrest hplan hh hlev ?_ (fun p => ?_) hstep ha.tail _
      · rw [←hbra,←hrows]
        omega
      · rw [hstate p]
        exact growing_onward (hgrow p) (hat p) (by omega) hlast

/-- The sum over one tile of the table. -/
lemma accumulateRows_held (table : Grid Word) (sels output : Party → Grid Word) (start count : ℕ)
    (p : Party) : accumulateRows table (held sels p) start count (held output p) = held (fun
    q r c => output q r c +∑ i ∈ Finset.range count, sels q r (start+i)*table (start+i) c) p := by
  funext r c
  simp only [accumulateRows,held]
  induction count with
  | zero => simp
  | succ count ih =>
    rw [range_succ,foldl_append,ih,foldl_cons,foldl_nil,
      Finset.sum_range_succ,Finset.sum_range_succ,add_assoc,add_assoc]

section
variable {plan : Plan} {sels output : Party → Grid Word} {s : Party → TrieLookup} {offset : ℕ}

/-- Every party reads one tile of the table. -/
lemma yields_readTile (h : ∀ p, Reading env j limits room plan sels output offset p (s p))
    (hoffs : offset≠plan.vocabulary) (turns : ℕ → Turn Party) :
    Yields (advance env table turns) s fun _ t => ∀ p, Reading env j limits room plan sels
    (fun q r c => output q r c+∑ i ∈ Finset.range (min lanes (plan.vocabulary-offset)), sels
    q r (offset+i)*table (offset+i) c) (offset+min lanes (plan.vocabulary-offset)) p (t p) := by
  have hstep : ∀ p, (s p).step = .readyStream := fun p => by rw [(h p).step,if_neg hoffs]
  refine (meets_round (fun p out t => out=none ∧ t = { s p with step := .stream }) fun p =>
    ?_).bind fun messages t ht => ?_
  · intro deny k
    have hpid := (h p).pid
    simp [startStep,live,hstep p,hpid]
  · refine (meets_round (fun p _ u => u = { s p with step := .stream }) fun p => ?_).bind
      fun _ u hu => ?_
    · rw [(ht p.next).1]
      exact meets_pure.mpr (ht p).2
    · refine (meets_round (fun p _ w => Reading env j limits room plan sels
        (fun q r c => output q r c+∑ i ∈ Finset.range (min lanes (plan.vocabulary-offset)),
          sels q r (offset+i)*table (offset+i) c)
        (offset+min lanes (plan.vocabulary-offset)) p w) fun p => ?_).bind
        fun _ w hw => meets_pure.mpr hw
      rw [hu p]
      intro deny k
      have hp := h p
      simp [finishStep,live,hp.pid,hp.plan,hp.streamOffset,hp.parents,
        hp.output,accumulateRows_held]
      intro _
      exact {
        plan := rfl
        source := hp.source
        phase := hp.phase
        parents := rfl
        output := rfl
        step := rfl
        streamOffset := rfl
        pid := rfl }

/-- The values read so far. -/
lemma yields_reads {ns : List ℕ} (hns : tiles (plan.vocabulary-offset) = ns)
    (hle : offset≤plan.vocabulary) (h : ∀ p, Reading env j limits room plan sels output offset
    p (s p)) (hout : ∀ r c, total output r c = ∑ v ∈ Finset.range offset, total sels r v*table
    v c) (turns : ℕ → ℕ → Turn Party) : Yields (advances env table turns ns.length) s fun _ t => ∃
    output, (∀ p, Reading env j limits room plan sels output plan.vocabulary p (t p)) ∧ ∀ r c,
    total output r c = ∑ v ∈ Finset.range plan.vocabulary, total sels r v*table v c := by
  induction ns generalizing output offset s turns with
  | nil =>
    have hend : offset=plan.vocabulary := by
      by_contra hne
      rw [tiles_cons (by omega)] at hns
      cases hns
    subst hend
    exact meets_pure.mpr ⟨output,h,hout⟩
  | cons n ns ih =>
    have hne : offset≠plan.vocabulary := by
      rintro rfl
      rw [tsub_self] at hns
      cases hns
    rw [tiles_cons (by omega),tsub_tsub] at hns
    obtain ⟨-,hrest⟩ := List.cons.inj hns
    refine (yields_readTile h hne (turns 0)).bind fun _ t ht => ?_
    refine ih hrest (by omega) ht (fun r c => ?_) _
    simp only [total] at hout ⊢
    rw [Finset.sum_add_distrib,hout,Finset.sum_range_add,Finset.sum_comm]
    congr 1
    exact Finset.sum_congr rfl fun i _ => (Finset.sum_mul ..).symm

end

end

section
variable {rows vocab : ℕ}

lemma forM_flatMap_eq {ε α β σ : Type} (f : σ → β → Except ε σ) (g : α → List β) (xs : List α)
    (start : σ) : xs.foldlM (fun s x => (g x).foldlM f s) start = (xs.flatMap g).foldlM f start := by
  induction xs generalizing start with
  | nil => rfl
  | cons x xs ih =>
    rw [flatMap_cons,foldlM_append]
    exact congrArg _ (funext ih)

lemma length_productLanes_le (hrows : rows ≤ maxRows) (hv : 2≤vocab) (hv' : vocab ≤ maxVocabulary) :
    (productLanes (planOf rows vocab)).length ≤ maxDepth*(maxRows*maxVocabulary) := by
  have hdep := depthOf_le hv'
  have hlen : (range' 1 (depthOf vocab-1)).length ≤ maxDepth := by
    rw [length_range']
    omega
  rw [productLanes,productsFrom,length_flatMap]
  refine (sum_le_card_nsmul _ (maxRows*maxVocabulary) fun n hn => ?_).trans ?_
  · obtain ⟨d,hd,rfl⟩ := mem_map.mp hn
    obtain ⟨hlow,hhigh⟩ := mem_range'_1.mp hd
    change _ < 1+(depthOf vocab-1) at hhigh
    refine (length_tiles_le _).trans (mul_le_mul' hrows ?_)
    have hlev := @levelAt_planOf rows vocab (depthOf vocab-1-d) (by omega)
    rw [show depthOf vocab-1-(depthOf vocab-1-d)=d by omega] at hlev
    rw [hlev]
    exact (Nat.sub_le _ _).trans ((width_le (by omega) _).trans hv')
  · rw [length_map]
    exact Nat.mul_le_mul_right _ hlen

section
variable (hpos : 0 < rows) (hrows : rows ≤ maxRows) (hv : 2≤vocab) (hv' : vocab ≤ maxVocabulary)
include hpos hrows hv hv'

lemma workForBits_ok : ∃ work, workForBits rows (depthOf vocab) = .ok work ∧ work.AtMost 4096 := by
  have hall : ∀ r ∈ range' 1 8, ∀ d ∈ range' 1 18, (match workForBits r d with
      | .ok w => decide (w.operations≤4096 ∧ w.publicBlocks≤4096 ∧ w.pairBlocks≤4096
        ∧ w.privateBlocks≤4096 ∧ w.aesBlocks≤4096)
      | .error _ => false)=true := by decide +kernel
  have hdep := depthOf_le hv'
  have hdept := depthOf_pos hv
  simp only [maxRows,maxDepth] at hrows hdep
  have h := hall rows (mem_range'_1.mpr ⟨hpos,by omega⟩) (depthOf vocab)
    (mem_range'_1.mpr ⟨hdept,by omega⟩)
  cases hw : workForBits rows (depthOf vocab) with
  | error e =>
    rw [hw] at h
    cases h
  | ok w =>
    rw [hw] at h
    obtain ⟨h1,h2,h3,h4,h5⟩ := of_decide_eq_true h
    exact ⟨w,rfl,h1,h2,h3,h4,h5⟩

lemma workForGeometry_eq {work : WorkBudget} (hwork : workForBits rows (depthOf vocab) = .ok work)
    (hmost : work.AtMost 4096) : workForGeometry rows vocab = .ok
    (WorkBudget.total work ((productLanes (planOf rows vocab)).map rawProduct)) := by
  have hln : productLanes (planOf rows vocab)=(range' 1 (depthOf vocab-1)).flatMap
      fun d => tiles (rows*(divCeil vocab (2^(depthOf vocab-d-1))
        -divCeil vocab (2^(depthOf vocab-d)))) := by
    refine flatMap_congr fun d hd => ?_
    obtain ⟨hlow,hhigh⟩ := mem_range'_1.mp hd
    change _ < 1+(depthOf vocab-1) at hhigh
    rw [levelAt,planOf,getD_eq_getElem?_getD,getElem?_map,
      getElem?_range (by omega)]
    rfl
  have hlen := length_productLanes_le hrows hv hv'
  have hloop := foldlM_checkedAdd (fun n => WorkBudget.product n false)
    rawProduct (b := 128) (productLanes (planOf rows vocab)) hmost
    (fun n hn => ?_) ?_
  · rw [workForGeometry,if_neg (by omega)]
    change workForBits rows (depthOf vocab) >>= _=_
    rw [hwork,←hloop.1,hln,←forM_flatMap_eq]
    rfl
  · obtain ⟨d,-,hn⟩ := mem_flatMap.mp hn
    obtain ⟨hpos,hle⟩ := mem_tiles hn
    simp only [lanes] at hle
    refine ⟨product_eq hpos (by simp only [maxLanes]; omega),?_⟩
    constructor <;> simp only [rawProduct,blockCount] <;> omega
  · simp only [maxDepth,maxRows,maxVocabulary] at hlen
    omega

end

end

/-- A party that holds its components of all bits and has not begun the recursion. -/
structure Converted (env : Platform) (j : Joint) (limits : PrssLimits) (room : ℕ) (geometry : Plan)
    (bits : Party → ℕ → Word) (p : Party) (s : TrieLookup) : Prop where
  plan : s.plan=geometry
  source : j.At env p limits room s.runtime.source
  phase : s.runtime.phase = .ready
  bits : s.bits = fun i => (bits p i,bits p.next i)
  children : s.children=none
  offset : s.offset=0
  output : s.output = fun _ _ => 0
  streamOffset : s.streamOffset=0
  pid : s.pid=env.processId

/-- The components of the two selectors below the root. -/
def roots (depth : ℕ) (bits : Party → ℕ → Word) (q : Party) : Grid Word := fun row c =>
  match c with
  | 0 => (if q = .p0 then 1 else 0)-bits q (row*depth+depth-1)
  | 1 => bits q (row*depth+depth-1)
  | _ => 0

section
variable {env : Platform} {j : Joint} {limits : PrssLimits} {room rows vocab : ℕ}
  {token : ℕ → ℕ} {bits : Party → ℕ → Word} {p : Party} {s : TrieLookup} {plan : Plan}

lemma root_held (depth : ℕ) (bits : Party → ℕ → Word) (p : Party) : (fun row => root p
    (bits p (row*depth+depth-1),bits p.next (row*depth+depth-1))) = held (roots depth bits) p := by
  funext row c
  match c with
  | 0 => rfl
  | 1 => rfl
  | c+2 => rfl

lemma growing_plant (h : Converted env j limits room plan bits p s) (hdep : 1≠plan.depth) :
    Growing env j limits room ⟨plan,1,0⟩ bits (roots plan.depth bits)
      (fun q => copyUnary plan.rows (plan.levelAt 1) (roots plan.depth bits q)) p s.plant := by
  have hpty : s.runtime.party=p := h.source.party
  have hpar : s.plant.parents=held (roots plan.depth bits) p := by
    rw [←root_held]
    simp only [plant,h.bits,h.plan,hpty]
  exact {
    plan := h.plan
    source := h.source
    phase := h.phase
    bits := h.bits
    parents := hpar
    children := by
      rw [show s.plant.children=none from h.children,Option.getD_none,hpar,copyUnary_held]
    step := by rw [plant,h.plan,if_neg hdep]
    level := rfl
    offset := h.offset
    pid := h.pid
    output := h.output
    streamOffset := h.streamOffset }

lemma reading_plant (h : Converted env j limits room plan bits p s) (hdep : 1=plan.depth)
    (hvoc : plan.vocabulary≠0) :
    Reading env j limits room plan (roots plan.depth bits) (fun _ _ _ => 0) 0 p s.plant := by
  have hpty : s.runtime.party=p := h.source.party
  exact {
    plan := h.plan
    source := h.source
    phase := h.phase
    parents := by
      rw [←root_held]
      simp only [plant,h.bits,h.plan,hpty]
    output := h.output
    step := by rw [plant,h.plan,if_pos hdep,if_neg hvoc.symm]
    streamOffset := h.streamOffset
    pid := h.pid }

lemma total_roots (hv : 2≤vocab) (hbits : SharesTokens rows vocab token bits) :
    ∀ r < rows, ∀ c < width vocab (depthOf vocab-1),
      total (roots (depthOf vocab) bits) r c
        = if c = token r/2^(depthOf vocab-1) then 1 else 0 := by
  intro r hr c hc
  have hpos := depthOf_pos hv
  rw [width_root hv] at hc
  have htop : token r/2^depthOf vocab=0 :=
    Nat.div_eq_of_lt ((hbits.token_lt r hr).trans_le (le_two_pow vocab))
  have hstep := prefix_step (token r) (depthOf vocab-1)
  rw [Nat.sub_add_cancel hpos,htop,Nat.zero_add] at hstep
  have hbit := hbits.bit_eq r hr (depthOf vocab-1) (by omega)
  rw [←Nat.add_sub_assoc hpos,bitTotal] at hbit
  rw [hstep]
  match c, hc with
  | 0, _ =>
    change ∑ q : Party, ((if q = .p0 then 1 else 0)-bits q (r*depthOf vocab
      +depthOf vocab-1)) = _
    rw [Finset.sum_sub_distrib,Finset.sum_ite_eq' Finset.univ Party.p0,if_pos (Finset.mem_univ _),
      hbit]
    cases (token r).testBit (depthOf vocab-1) <;> simp
  | 1, _ =>
    change ∑ q : Party, bits q (r*depthOf vocab+depthOf vocab-1)=_
    rw [hbit]
    cases (token r).testBit (depthOf vocab-1) <;> simp

/-- The products of the recursion, from the planted roots to the selectors of the tokens. -/
lemma yields_levels {s : Party → TrieLookup} {table : Grid Word} (hrows : 0 < rows)
    (hv : 2≤vocab) (hbits : SharesTokens rows vocab token bits)
    (h : ∀ p, Converted env j limits room (planOf rows vocab) bits p (s p))
    (ha : AffordsAll j limits room (productLanes (planOf rows vocab)))
    (turns : ℕ → ℕ → Turn Party) :
    Yields (advances env table turns (productLanes (planOf rows vocab)).length)
      (fun p => (s p).plant) fun _ t => ∃ sels,
        (∀ p, Reading env (spentAll j (productLanes (planOf rows vocab))) limits
          (room-((productLanes (planOf rows vocab)).map fun n => 2*blockCount n 8).sum)
          (planOf rows vocab) sels (fun _ _ _ => 0) 0 p (t p))
        ∧ SelectsTokens rows vocab token sels := by
  have hroo := total_roots hv hbits
  by_cases hdep : depthOf vocab=1
  · have hnone : productLanes (planOf rows vocab)=[] := by
      rw [productLanes,show (1:ℕ)=(planOf rows vocab).depth from hdep.symm,
        productsFrom_self]
    rw [hnone]
    refine meets_pure.mpr ⟨roots (depthOf vocab) bits,fun p => ?_,fun r hr c hc => ?_⟩
    · exact reading_plant (h p) hdep.symm (show vocab ≠ 0 by omega)
    · have hroot := hroo r hr c
      rw [hdep,width_zero,pow_zero,Nat.div_one] at hroot
      rw [hdep]
      exact hroot hc
  · have hpos := depthOf_pos hv
    have hfst : productLanes (planOf rows vocab)
        = remaining ⟨planOf rows vocab,1,0⟩ :=
      productsFrom_cons (show 1 < depthOf vocab by omega)
    obtain ⟨k,hk⟩ : ∃ k, depthOf vocab=k+2 := ⟨depthOf vocab-2,by omega⟩
    have hleve : (planOf rows vocab).levelAt 1
        = ⟨width vocab (k+1),width vocab k-width vocab (k+1)⟩ := by
      have hl := @levelAt_planOf rows vocab k (by omega)
      rwa [show depthOf vocab-1-k=1 by omega] at hl
    obtain ⟨-,-,-,hposi⟩ := width_step (show 0 < vocab by omega) k
    refine yields_growth hv hbits hfst.symm rfl (show k < depthOf vocab by omega)
      (show 1 = depthOf vocab-1-k by omega) (mul_pos hrows (hposi (two_pow_lt (by omega))))
      (fun p => growing_plant (h p) (Ne.symm hdep)) ?_ ha turns
    rw [total_copyUnary,hleve]
    rw [show depthOf vocab-1=k+1 by omega] at hroo
    exact selects_start (by omega) hroo

/-- The token lookup, for every admitted geometry: above the leaves every level branches and at most
one of its parents has a single child; the budget is that of the conversions plus one raw product for
every batch of every level; and from any sharing of the bits of tokens of the vocabulary the parties
take exactly these products, end with shares of the indicators of the tokens, and then read the rows
of the tokens off the table. -/
theorem token_lookup (hpos : 0 < rows) (hrows : rows ≤ maxRows) (hv : 2≤vocab)
    (hv' : vocab ≤ maxVocabulary) :
    Plan.new rows vocab = .ok (planOf rows vocab)
    ∧ (∀ d < depthOf vocab, ∃ level, (planOf rows vocab).levelAt d = level
      ∧ 0<level.branches ∧ level.branches≤level.parents ∧ level.parents-level.branches≤1)
    ∧ (∃ work, Plan.workForBits rows (depthOf vocab) = .ok work
      ∧ Plan.workForGeometry rows vocab = .ok
        ⟨work.operations+(productLanes (planOf rows vocab)).length,work.publicBlocks,
          work.pairBlocks
            +((productLanes (planOf rows vocab)).map fun n => blockCount n 8).sum,
          work.privateBlocks,work.aesBlocks
            +((productLanes (planOf rows vocab)).map fun n => 2*blockCount n 8).sum⟩)
    ∧ ∀ (token : ℕ → ℕ) (bits : Party → ℕ → Word), SharesTokens rows vocab token bits →
      ∀ (env : Platform) (j : Joint) (limits : PrssLimits) (room : ℕ) (s : Party → TrieLookup)
        (table : Grid Word) (turns turns' : ℕ → ℕ → Turn Party),
      (∀ p, Converted env j limits room (planOf rows vocab) bits p (s p)) →
      AffordsAll j limits room (productLanes (planOf rows vocab)) →
      Yields (advances env table turns (productLanes (planOf rows vocab)).length)
        (fun p => (s p).plant) fun _ t =>
          (∃ sels, SelectsTokens rows vocab token sels
            ∧ ∀ p, (t p).parents = held sels p ∧ (t p).runtime.phase = .ready
              ∧ (spentAll j (productLanes (planOf rows vocab))).At env p limits
                (room-((productLanes (planOf rows vocab)).map fun n => 2*blockCount n 8).sum)
                (t p).runtime.source)
          ∧ Yields (advances env table turns' (tiles vocab).length) t fun _ u =>
            ∃ output, (∀ p, (u p).step = .done ∧ (u p).output = held output p)
              ∧ ∀ r < rows, ∀ c, total output r c = table (token r) c := by
  obtain ⟨work,hwork,hmost⟩ := workForBits_ok hpos hrows hv hv'
  have hgeo := workForGeometry_eq hpos hrows hv hv' hwork hmost
  refine ⟨?_,fun d hd => ?_,⟨work,hwork,?_⟩,fun token bits hbits env j limits room s table turns
    turns' hs ha => ?_⟩
  · rw [Plan.new,if_neg (by omega),hgeo]
    rfl
  · obtain ⟨q,hq,hwd,hposi⟩ := width_step (show 0 < vocab by omega)
      (depthOf vocab-1-d)
    have hlev := @levelAt_planOf rows vocab (depthOf vocab-1-d) (by omega)
    rw [show depthOf vocab-1-(depthOf vocab-1-d)=d by omega] at hlev
    have hbrn := hposi (two_pow_lt (by omega))
    exact ⟨_,hlev,hbrn,by simp only; omega,by simp only; omega⟩
  · rw [hgeo,WorkBudget.total_rawProduct]
  · refine (yields_levels hpos hv hbits hs ha turns).mono fun _ t ht => ?_
    obtain ⟨sels,hread,hsel⟩ := ht
    refine ⟨⟨sels,hsel,fun p => ⟨(hread p).parents,(hread p).phase,(hread p).source⟩⟩,?_⟩
    have hzero : ∀ r c, total (fun _ _ _ => 0) r c
        = ∑ v ∈ Finset.range 0, total sels r v*table v c := by
      intro r c
      exact Finset.sum_const_zero
    have htil : tiles ((planOf rows vocab).vocabulary-0)=tiles vocab := rfl
    refine (yields_reads htil (Nat.zero_le _) hread hzero turns').mono fun _ u hu => ?_
    obtain ⟨output,hdone,htot⟩ := hu
    refine ⟨output,fun p => ⟨?_,(hdone p).output⟩,fun r hr c => ?_⟩
    · rw [(hdone p).step,if_pos rfl]
    · rw [htot]
      exact sum_indicator (hbits.token_lt r hr) (hsel r hr) fun v => table v c

end

/-- Components of the bits of the tokens 2 and 1, in rows of two bits. -/
def sampleBits : Party → ℕ → Word
  | .p0, i => (if i=1 ∨ i=2 then 1 else 0)-11
  | .p1, _ => 4
  | .p2, _ => 7

/-- A party of the sample setup with its components of the bits. -/
def sampleLookup (p : Party) : TrieLookup :=
  ⟨planOf 2 3,sampleParty p,fun i => (sampleBits p i,sampleBits p.next i),fun _ _ => 0,none,
    fun _ _ => 0,.readyProduct,0,0,0,1⟩

/-- Two tokens of a vocabulary of three: one product of two lanes, and one tile of the table. -/
theorem token_lookup_at : Plan.new 2 3 = .ok (planOf 2 3) ∧ ∃ a t k, advances Platform.sample
    (fun v c => BitVec.ofNat 64 (10*v+c)) (fun _ _ => sampleTurn) 1 (fun _ => none)
    (fun p => (sampleLookup p).plant) 0 = (.ok a,t,k) ∧ ∃ b u l, advances Platform.sample (fun
    v c => BitVec.ofNat 64 (10*v+c)) (fun _ _ => sampleTurn) 1 (fun _ => none) t 0 = (.ok b,u,l) ∧
    ∃ output, (∀ p, (u p).step = .done ∧ (u p).output = held output p) ∧ total output 0 5 = 25 := by
  obtain ⟨hplan,-,-,hruns⟩ := @token_lookup 2 3 (by decide) (by decide) (by decide) (by decide)
  have hsha : SharesTokens 2 3 (fun r => 2-r) sampleBits := by
    refine ⟨fun r hr => by omega,?_⟩
    decide
  have hrun := hruns (fun r => 2-r) sampleBits hsha Platform.sample sampleJoint ⟨.default,64⟩ 2
    sampleLookup (fun v c => BitVec.ofNat 64 (10*v+c)) (fun _ _ => sampleTurn)
    (fun _ _ => sampleTurn) (fun p => ?_) ?_
  · obtain ⟨a,t,k,hgrow,-,hread⟩ := Meets.exists_ok hrun
    obtain ⟨b,u,l,hdone,output,hheld,htot⟩ := Meets.exists_ok hread
    exact ⟨hplan,a,t,k,hgrow,b,u,l,hdone,output,hheld,htot 0 (by decide) 5⟩
  · have hsrc : sampleJoint.At Platform.sample p ⟨.default,64⟩ 2 (sampleParty p).source :=
      ⟨rfl,rfl,rfl,rfl,⟨9,rfl⟩,rfl,rfl,rfl,rfl,rfl,rfl,rfl,rfl,rfl,rfl,show 0+2 ≤ 64 by decide,
        show 0+2<2^64 by decide⟩
    exact ⟨rfl,hsrc,rfl,rfl,rfl,rfl,rfl,rfl,rfl⟩
  · refine ⟨fun n hn => ?_,by decide,by decide,by decide⟩
    obtain rfl := mem_singleton.mp hn
    exact ⟨4352,by decide⟩

end Pllm.Decoder.Trie
