import Pllm.Replication.SecretReplication
import Pllm.Fss.SharedRescaleRun

/-! The punctured tree against the whole one, the correlation the parties prepare from them, and
the product of a shared scalar with a shared vector. -/
namespace Pllm.Replication
open Pllm.Lib Pllm.Fss List Except
open Pllm.Fss.SharedRescale (Context bytesWords wordBytes bytesWords_wordBytes length_wordBytes)

variable {point attempt remaining value j : ℕ} {a b : Party} {draw : ℕ → BitVec 32}
  {vector : List ℕ} {scalars : ℕ × ℕ}

section tree
variable {env : Platform}

/-- The seed of leaf `i` of a subtree. -/
def leafAt (env : Platform) : ℕ → Block → ℕ → Block
  | 0, seed, _ => seed
  | depth+1, seed, i =>
    if i<2^depth then leafAt env depth (children env seed).1 i
    else leafAt env depth (children env seed).2 (i-2^depth)

variable (env) in
lemma fillLeaves_spec (depth first : ℕ) (seed : Block) (output : List (Option Block)) :
    (fillLeaves env depth first seed output).length = output.length ∧
      ∀ i, (fillLeaves env depth first seed output)[i]? =
        if first ≤ i ∧ i<first+2^depth ∧ i<output.length
          then some (some (leafAt env depth seed (i-first))) else output[i]? := by
  induction depth generalizing first seed output with
  | zero =>
    unfold fillLeaves
    split_ifs with hfst
    · refine ⟨length_set,fun i => ?_⟩
      rw [getElem?_set]
      by_cases hi : first=i
      · subst hi
        simp [hfst,leafAt]
      · simp only [hi,if_false]
        rw [if_neg (by omega)]
    · refine ⟨rfl,fun i => ?_⟩
      rw [if_neg (by omega)]
  | succ depth ih =>
    have hsucc : 2^(depth+1)=2^depth+2^depth := by ring
    obtain ⟨hl,hleft⟩ := ih first (children env seed).1 output
    obtain ⟨hr,hrt⟩ := ih (first+2^depth) (children env seed).2
      (fillLeaves env depth first (children env seed).1 output)
    refine ⟨hr.trans hl,fun i => ?_⟩
    rw [fillLeaves,hrt,hleft,hl,leafAt]
    by_cases hlow : i<first+2^depth
    · rw [if_neg (by omega)]
      by_cases hin : first ≤ i ∧ i<output.length
      · rw [if_pos (by omega),if_pos (by omega),if_pos (by omega)]
      · rw [if_neg (by omega),if_neg (by omega)]
    · by_cases hin : i<first+2^(depth+1) ∧ i<output.length
      · rw [if_pos (by omega),if_pos (by omega),if_neg (by omega),Nat.sub_sub]
      · rw [if_neg (by omega),if_neg (by omega),if_neg (by omega)]

/-- The loop over subtrees. -/
def fillAll (env : Platform) (nodes : List Node) (raw : List (Option Block)) : List (Option Block) :=
  nodes.foldl (fun raw node => fillLeaves env node.depth node.first node.seed raw) raw

variable (env) in
/-- The subtrees off the path to `point` cover every other leaf. -/
lemma fillAll_puncture (depth first : ℕ) (seed : Block) (raw : List (Option Block))
    (hlow : first≤point) (hhigh : point<first+2^depth) :
    (fillAll env (puncture env point depth first seed) raw).length = raw.length ∧
      ∀ i, (fillAll env (puncture env point depth first seed) raw)[i]? =
        if first ≤ i ∧ i<first+2^depth ∧ i≠point ∧ i < raw.length
          then some (some (leafAt env depth seed (i-first))) else raw[i]? := by
  induction depth generalizing first seed raw with
  | zero =>
    refine ⟨rfl,fun i => ?_⟩
    rw [if_neg (by omega)]
    rfl
  | succ depth ih =>
    have hsucc : 2^(depth+1)=2^depth+2^depth := by ring
    by_cases hside : point<first+2^depth
    · obtain ⟨hf,hfill⟩ := fillLeaves_spec env depth (first+2^depth) (children env seed).2 raw
      obtain ⟨hl,hrest⟩ := ih first (children env seed).1
        (fillLeaves env depth (first+2^depth) (children env seed).2 raw) hlow hside
      have hstep : fillAll env (puncture env point (depth+1) first seed) raw =
          fillAll env (puncture env point depth first (children env seed).1)
            (fillLeaves env depth (first+2^depth) (children env seed).2 raw) := by
        rw [puncture,if_pos hside]
        rfl
      rw [hstep]
      refine ⟨hl.trans hf,fun i => ?_⟩
      rw [hrest,hfill,hf,leafAt]
      by_cases hi : i<first+2^depth
      · by_cases hin : first ≤ i ∧ i≠point ∧ i < raw.length
        · rw [if_pos (by omega),if_pos (by omega),if_pos (by omega)]
        · rw [if_neg (by omega),if_neg (by omega),if_neg (by omega)]
      · rw [if_neg (by omega)]
        by_cases hin : i<first+2^(depth+1) ∧ i < raw.length
        · rw [if_pos (by omega),if_pos (by omega),if_neg (by omega),Nat.sub_sub]
        · rw [if_neg (by omega),if_neg (by omega)]
    · obtain ⟨hf,hfill⟩ := fillLeaves_spec env depth first (children env seed).1 raw
      obtain ⟨hl,hrest⟩ := ih (first+2^depth) (children env seed).2
        (fillLeaves env depth first (children env seed).1 raw) (by omega) (by omega)
      have hstep : fillAll env (puncture env point (depth+1) first seed) raw =
          fillAll env (puncture env point depth (first+2^depth) (children env seed).2)
            (fillLeaves env depth first (children env seed).1 raw) := by
        rw [puncture,if_neg hside]
        rfl
      rw [hstep]
      refine ⟨hl.trans hf,fun i => ?_⟩
      rw [hrest,hfill,hf,leafAt]
      by_cases hi : i<first+2^depth
      · rw [if_neg (by omega)]
        by_cases hin : first ≤ i ∧ i < raw.length
        · rw [if_pos (by omega),if_pos (by omega),if_pos (by omega)]
        · rw [if_neg (by omega),if_neg (by omega)]
      · by_cases hin : i<first+2^(depth+1) ∧ i≠point ∧ i < raw.length
        · rw [if_pos (by omega),if_pos (by omega),if_neg (by omega),Nat.sub_sub]
        · rw [if_neg (by omega),if_neg (by omega),if_neg (by omega)]

/-- The seed of each leaf in the domain. -/
def leafSeed (env : Platform) (p : Parameters) (root : Block) (j : ℕ) : Block :=
  leafAt env p.depth root j

variable (p : Parameters)
include p

lemma leaves_encode (nodes : List Node) :
    (Seeds.encode env p nodes).leaves env p.scalarDomain = fillNodes env p.scalarDomain nodes := by
  unfold Seeds.encode
  split_ifs <;> rfl

lemma domain_le : p.scalarDomain≤2^p.depth := Nat.le_pow_clog (by decide) _

lemma leaves_sender (root : Block) : (sender env root p).leaves env p.scalarDomain =
    (range p.scalarDomain).map fun j => some (leafSeed env p root j) := by
  rw [sender,leaves_encode]
  have hle := domain_le p
  obtain ⟨hl,hfill⟩ := fillLeaves_spec env p.depth 0 root (replicate p.scalarDomain none)
  apply ext_getElem?
  intro i
  refine (hfill i).trans ?_
  rw [length_replicate,getElem?_map,getElem?_replicate]
  by_cases hi : i<p.scalarDomain
  · rw [if_pos (by omega),getElem?_range hi]
    rfl
  · rw [if_neg (by omega),if_neg hi,getElem?_eq_none (by simpa using hi)]
    rfl

lemma leaves_receiver (root : Block) (hp : point<p.scalarDomain) :
    (receiver env root point p).leaves env p.scalarDomain = (range p.scalarDomain).map
      fun j => if j=point then none else some (leafSeed env p root j) := by
  rw [receiver,leaves_encode]
  have hle := domain_le p
  obtain ⟨hl,hfill⟩ := fillAll_puncture env p.depth 0 root (replicate p.scalarDomain none)
    (Nat.zero_le point) (by omega)
  apply ext_getElem?
  intro i
  refine (hfill i).trans ?_
  rw [length_replicate,getElem?_map,getElem?_replicate]
  by_cases hi : i<p.scalarDomain
  · rw [getElem?_range hi,Option.map_some,if_pos hi]
    by_cases hpoi : i=point
    · rw [if_neg (by omega),if_pos hpoi]
    · rw [if_pos (by omega),if_neg hpoi]
      rfl
  · rw [if_neg (by omega),if_neg hi,getElem?_eq_none (by simpa using hi)]
    rfl

end tree

section field
variable {p : ℕ}

lemma cast_add (a b : ℕ) : ((add a b p:ℕ) : ZMod p)=a+b := by
  rw [add,ZMod.natCast_mod,Nat.cast_add]

lemma cast_mul (a b : ℕ) : ((mul a b p:ℕ) : ZMod p)=a*b := by
  rw [mul,ZMod.natCast_mod,Nat.cast_mul]

lemma cast_sub {a b : ℕ} (h : b≤p) : ((sub a b p:ℕ) : ZMod p)=a-b := by
  rw [sub,ZMod.natCast_mod,Nat.cast_sub (by omega),Nat.cast_add,ZMod.natCast_self,add_zero]

lemma uniform_lt (hp : 0<p) (h : uniform draw p attempt remaining = .ok value) : value<p := by
  induction remaining generalizing attempt with
  | zero => cases h
  | succ remaining ih =>
    rw [uniform] at h
    split_ifs at h
    · obtain rfl := ok.inj h
      exact Nat.mod_lt _ hp
    · exact ih h

end field

section sums
variable (env : Platform) (space : List Byte) (index p : ℕ)

/-- The residue of a leaf key; draws that run out count as zero. -/
def leafValue (key : Block) : ℕ := (prf env key space index p).toOption.getD 0

variable {env space index p}

section
variable {n scalar sum domain x : ℕ} {sums pair : ℕ × ℕ} {e : Error}

lemma leafValue_eq {key : Block} (h : prf env key space index p = .ok value) :
    leafValue env space index p key = value := by
  rw [leafValue,h]
  rfl

lemma senderSums_eq_ok (hp : 0<p) (k : ℕ → Block) {result : ℕ × ℕ} (ha : sums.1<p) (hb : sums.2<p)
    (h : senderSums env space index p j ((range' j n).map fun i => some (k i)) sums =
      .ok result) :
    let v := fun i => (leafValue env space index p (k i) : ZMod p)
    (result.1 : ZMod p) = sums.1+((range' j n).map v).sum ∧ (result.2 : ZMod p) = sums.2-((range' j
      n).map fun i => i*v i).sum ∧ result.1<p ∧ result.2<p := by
  induction n generalizing j sums with
  | zero =>
    obtain rfl := ok.inj h
    simpa using ⟨ha,hb⟩
  | succ n ih =>
    rw [range'_succ,map_cons,senderSums,bind_eq_ok] at h
    obtain ⟨value,hval,h⟩ := h
    obtain ⟨ha,hb',hlt⟩ := ih (Nat.mod_lt _ hp) (Nat.mod_lt _ hp) h
    rw [cast_add] at ha
    rw [cast_sub (show mul j value p ≤ p from (Nat.mod_lt _ hp).le),cast_mul] at hb'
    refine ⟨?_,?_,hlt⟩
    · rw [ha,range'_succ,map_cons,sum_cons,leafValue_eq hval]
      ring
    · rw [hb',range'_succ,map_cons,sum_cons]
      dsimp only
      rw [leafValue_eq hval]
      ring

variable (k : ℕ → Block)

lemma receiverSum_eq_ok {j result : ℕ} (hn : j+n≤p)
    (h : receiverSum env space index p scalar j
      ((range' j n).map fun i => if i=scalar then none else some (k i)) sum = .ok result) :
    (result : ZMod p) = sum+((range' j n).map fun i =>
      ((scalar : ZMod p)-i)*leafValue env space index p (k i)).sum := by
  induction n generalizing j sum with
  | zero =>
    obtain rfl := ok.inj h
    simp
  | succ n ih =>
    rw [range'_succ,map_cons] at h
    rw [range'_succ,map_cons,sum_cons]
    by_cases hj : j=scalar
    · subst hj
      rw [if_pos rfl,receiverSum,if_neg (not_not_intro rfl)] at h
      rw [ih (by omega) h]
      ring
    · rw [if_neg hj,receiverSum,bind_eq_ok] at h
      obtain ⟨value,hval,h⟩ := h
      rw [ih (by omega) h,cast_add,cast_mul,cast_sub (by omega),leafValue_eq hval]
      ring

lemma sum_line (x : ZMod p) (v : ℕ → ZMod p) (l : List ℕ) :
    (l.map fun i => (x-i)*v i).sum = x*(l.map v).sum-(l.map fun i => i*v i).sum := by
  induction l with
  | nil => simp
  | cons i l ih =>
    rw [map_cons,map_cons,map_cons,sum_cons,sum_cons,sum_cons,ih]
    ring

/-- Two prepared lanes multiply: the vector masks and the scalars against the product shares. -/
lemma prepareLane_correlated (hp : 0<p) (hd : domain≤p) (k k' : ℕ → Block) {x' : ℕ}
    {pair' : ℕ × ℕ}
    (h : prepareLane env space p x ((range domain).map fun j => some (k j))
      ((range domain).map fun j => if j=x then none else some (k' j)) index = .ok pair)
    (h' : prepareLane env space p x' ((range domain).map fun j => some (k' j))
      ((range domain).map fun j => if j=x' then none else some (k j)) index = .ok pair') :
    ((pair.1+pair'.1)*(x+x'))%p = (pair.2+pair'.2)%p := by
  have hlane : ∀ {k k' : ℕ → Block} {x : ℕ} {pair : ℕ × ℕ},
      prepareLane env space p x ((range domain).map fun j => some (k j))
        ((range domain).map fun j => if j=x then none else some (k' j)) index = .ok pair →
      let v := fun i => (leafValue env space index p (k i) : ZMod p)
      let v' := fun i => (leafValue env space index p (k' i) : ZMod p)
      let l := range' 0 domain
      (pair.1 : ZMod p) = (l.map v).sum ∧ (pair.2 : ZMod p) = (l.map v).sum*x
        +(x*(l.map v').sum-(l.map fun i => i*v' i).sum)+(l.map fun i => i*v i).sum := by
    intro k k' x pair h
    simp only [prepareLane,bind_eq_ok,pure_eq_ok,ok.injEq,range_eq_range'] at h
    obtain ⟨⟨a,b⟩,hs,y,hr,rfl⟩ := h
    obtain ⟨ha,hb,-,hlt⟩ := senderSums_eq_ok hp k hp hp hs
    have hy := receiverSum_eq_ok k' (by omega) hr
    rw [sum_line] at hy
    rw [Nat.cast_zero,zero_add] at ha hy
    refine ⟨ha,?_⟩
    rw [cast_sub hlt.le,cast_add,cast_mul,ha,hb,hy]
    ring
  obtain ⟨h1,h2⟩ := hlane h
  obtain ⟨h1',h2'⟩ := hlane h'
  rw [← ZMod.natCast_eq_natCast_iff']
  push_cast
  rw [h1,h2,h1',h2']
  ring

lemma uniform_error (h : uniform draw p attempt remaining = .error e) :
    e = .randomness ∧ ∀ k<remaining, 2^32/p*p ≤ (draw (attempt+k)).toNat := by
  induction remaining generalizing attempt with
  | zero => exact ⟨(error.inj h).symm,fun _ hk => absurd hk (by omega)⟩
  | succ remaining ih =>
    rw [uniform] at h
    split_ifs at h with hlow
    obtain ⟨rfl,hrest⟩ := ih h
    refine ⟨rfl,fun k hk => ?_⟩
    cases k with
    | zero => exact not_lt.mp hlow
    | succ k => exact (hrest k (by omega)).trans_eq (by rw [add_right_comm,add_assoc])

/-- All draws of a leaf for a lane are rejected. -/
def Rejected (env : Platform) (key : Block) (space : List Byte) (index p : ℕ) : Prop :=
  ∀ attempt<128, 2^32/p*p ≤ ((env.aes key (Block.ofBytes (space
    ++ leBytes 4 (BitVec.ofNat 32 index)++leBytes 4 (BitVec.ofNat 32 attempt)))).setWidth 32).toNat

lemma prf_error {key : Block} (h : prf env key space index p = .error e) :
    e = .randomness ∧ Rejected env key space index p := by
  obtain ⟨rfl,hdra⟩ := uniform_error h
  exact ⟨rfl,fun attempt hatt => by simpa only [zero_add] using hdra attempt hatt⟩

/-- Residues of two are never rejected. -/
lemma Rejected.odd {key : Block} (h : Rejected env key space index p) : p≠2 := by
  rintro rfl
  exact absurd (h 0 (by decide)) (not_le.mpr (BitVec.isLt _))

lemma senderSums_error (h : senderSums env space index p j ((range' j n).map fun i => some (k i))
    sums = .error e) : e = .randomness ∧ ∃ i<j+n, Rejected env (k i) space index p := by
  induction n generalizing j sums with
  | zero => cases h
  | succ n ih =>
    rw [range'_succ,map_cons,senderSums] at h
    cases hval : prf env (k j) space index p with
    | error e' =>
      obtain rfl : e'=e := by simpa [hval] using h
      exact ⟨(prf_error hval).1,j,by omega,(prf_error hval).2⟩
    | ok value =>
      rw [hval] at h
      obtain ⟨he,i,hi,hrej⟩ := ih h
      exact ⟨he,i,by omega,hrej⟩

lemma receiverSum_error (h : receiverSum env space index p scalar j
      ((range' j n).map fun i => if i=scalar then none else some (k i)) sum = .error e) :
    e = .randomness ∧ ∃ i<j+n, Rejected env (k i) space index p := by
  induction n generalizing j sum with
  | zero => cases h
  | succ n ih =>
    rw [← add_assoc,add_right_comm]
    rw [range'_succ,map_cons] at h
    by_cases hj : j=scalar
    · rw [if_pos hj,receiverSum,if_neg (not_not_intro hj)] at h
      exact ih h
    · rw [if_neg hj,receiverSum] at h
      cases hval : prf env (k j) space index p with
      | error e' =>
        obtain rfl : e'=e := by simpa [hval] using h
        exact ⟨(prf_error hval).1,j,by omega,(prf_error hval).2⟩
      | ok value =>
        rw [hval] at h
        exact ih h

lemma prepareLane_error {k k' : ℕ → Block}
    (h : prepareLane env space p x ((range domain).map fun j => some (k j))
      ((range domain).map fun j => if j=x then none else some (k' j)) index = .error e) :
    e = .randomness ∧ ∃ i<domain, Rejected env (k i) space index p ∨
      Rejected env (k' i) space index p := by
  rw [prepareLane,range_eq_range'] at h
  cases hs : senderSums env space index p 0
      ((range' 0 domain).map fun j => some (k j)) (0,0) with
  | error e' =>
    obtain rfl : e'=e := by simpa [hs] using h
    obtain ⟨he,i,hi,hrej⟩ := senderSums_error k hs
    exact ⟨he,i,by omega,.inl hrej⟩
  | ok sums =>
    rw [hs] at h
    cases hr : receiverSum env space index p x 0
        ((range' 0 domain).map fun j => if j=x then none else some (k' j)) 0 with
    | error e' =>
      obtain rfl : e'=e := by simpa [hr] using h
      obtain ⟨he,i,hi,hrej⟩ := receiverSum_error k' hr
      exact ⟨he,i,by omega,.inr hrej⟩
    | ok sum => simp [hr] at h

lemma prepareLane_lt (hp : 0<p) (k : ℕ → Block) {receiverLeaves : List (Option Block)}
    (h : prepareLane env space p x ((range domain).map fun j => some (k j))
      receiverLeaves index = .ok pair) : pair.1<p := by
  simp only [prepareLane,bind_eq_ok,pure_eq_ok,ok.injEq,range_eq_range'] at h
  obtain ⟨⟨a,b⟩,hs,y,hr,rfl⟩ := h
  exact (senderSums_eq_ok hp k hp hp hs).2.2.1

end

end sums

section frames
variable {self peer : Party}

lemma length_frame (scalarOpening : ℕ) (vectorOpening : List ℕ) :
    (self.frame scalarOpening vectorOpening).length = headerBytes+4*(vectorOpening.length+1) := by
  have hmag : magic.length=8 := rfl
  simp only [Party.frame,length_append,length_leBytes,length_wordBytes,length_map,
    length_cons,length_nil,hmag,headerBytes]

/-- What `finish` computes from a frame of the same issuance, of the right length and in range. -/
lemma finish_frame {share : Share} {own : List ℕ} {ownScalar scalar : ℕ} {vector : List ℕ}
    (hsta : self.state = some (.waiting share own ownScalar)) (hid : peer.id = !self.id)
    (hp : peer.parameters=self.parameters) (hbin : peer.binding=self.binding)
    (hnon : peer.nonce=self.nonce) (hln : self.parameters.lanes<2^32)
    (hlen : vector.length=self.parameters.lanes) (hfie : self.parameters.field≤2^32)
    (hscl : scalar < self.parameters.field) : (self.finish (peer.frame scalar vector)).1 =
    (((vector.map (BitVec.ofNat 32)).zip own).zip share.vectors).mapM fun entry => self.finishLane
    share (add scalar ownScalar self.parameters.field) entry.1.1 entry.1.2 entry.2 := by
  have hmag : magic.length=8 := rfl
  have hfrm : peer.frame scalar vector=magic++(leBytes 32 self.binding ++
      (leBytes 32 self.nonce++([0,if peer.id then 1 else 0] ++
        (leBytes 4 (BitVec.ofNat 32 self.parameters.lanes) ++
          (leBytes 4 (BitVec.ofNat 32 scalar)++wordBytes (vector.map (BitVec.ofNat 32))))))) := by
    simp only [Party.frame,hp,hbin,hnon]
    rfl
  have hleng := @length_frame peer scalar vector
  have hpeer : (if peer.id then 1 else 0 : Byte)=if self.id then 0 else 1 := by
    rw [hid]
    cases self.id <;> rfl
  have hread : (ofLeBytes 32 (leBytes 4 (BitVec.ofNat 32 self.parameters.lanes))).toNat =
      self.parameters.lanes := by
    rw [ofLeBytes_leBytes _ (by decide),BitVec.toNat_ofNat,Nat.mod_eq_of_lt hln]
  have hsca : slice (peer.frame scalar vector) 78 4=leBytes 4 (BitVec.ofNat 32 scalar) := by
    rw [hfrm]
    simp [slice,drop_append,drop_of_length_le,hmag]
  have hword : (ofLeBytes 32 (leBytes 4 (BitVec.ofNat 32 scalar))).toNat=scalar := by
    rw [ofLeBytes_leBytes _ (by decide),BitVec.toNat_ofNat,Nat.mod_eq_of_lt (by omega)]
  have hvect : (peer.frame scalar vector).drop 82=wordBytes (vector.map (BitVec.ofNat 32)) := by
    rw [hfrm]
    simp [drop_append,drop_of_length_le,hmag]
  simp only [Party.finish,hsta]
  rw [if_neg,hsca,hword,if_neg (by omega),hvect,bytesWords_wordBytes]
  rw [hleng,hlen,hfrm]
  simp [slice,drop_append,drop_of_length_le,getElem?_append,hmag,hread]
  exact hpeer

end frames

/-- The correlation holds in every lane. -/
def Correlated (p lanes : ℕ) (a b : Share) : Prop :=
  a.vectors.length=lanes ∧ b.vectors.length=lanes ∧ ∀ i<lanes,
    (((a.vectors.getD i (0,0)).1+(b.vectors.getD i (0,0)).1)*(a.scalar+b.scalar))%p =
      ((a.vectors.getD i (0,0)).2+(b.vectors.getD i (0,0)).2)%p

lemma mul_openings {p : ℕ} {a a' x x' z z' s s' v v' : ℕ} (ha : a<p) (ha' : a'<p)
    (hx : x<p) (hx' : x'<p) (h : ((a+a')*(x+x'))%p=(z+z')%p) :
    let scalar := add (sub s' x' p) (sub s x p) p
    let vector := add (sub v' a' p) (sub v a p) p
    let scalar' := add (sub s x p) (sub s' x' p) p
    let vector' := add (sub v a p) (sub v' a' p) p
    (add (add z (mul vector x p) p) (add (mul scalar a p) (mul vector scalar p) p) p
        +add (add z' (mul vector' x' p) p) (add (mul scalar' a' p) 0 p) p)%p =
      ((s+s')*(v+v'))%p := by
  intro scalar vector scalar' vector'
  have hcor : ((a : ZMod p)+a')*(x+x')=z+z' := by
    have hcast := (ZMod.natCast_eq_natCast_iff' _ _ p).mpr h
    push_cast at hcast
    exact hcast
  rw [← ZMod.natCast_eq_natCast_iff']
  push_cast
  simp only [scalar,vector,scalar',vector',cast_add,cast_mul,cast_sub ha.le,cast_sub ha'.le,
    cast_sub hx.le,cast_sub hx'.le,Nat.cast_zero]
  linear_combination -hcor

/-- A party of one issuance in a given state. -/
def partyAt (p : Parameters) (binding nonce : BitVec 256) (id : Bool) (state : Option State) :
    Party := ⟨id,p,binding,nonce,state⟩

/-- The parameters the dealer accepts. -/
structure Parameters.Valid (p : Parameters) : Prop where
  field : p.field=2 ∨ p.field=17 ∨ p.field=257
  domain : 2≤p.scalarDomain ∧ p.scalarDomain≤p.field
  lanes : 1≤p.lanes ∧ p.lanes ≤ maxLanes

variable {p : Parameters}

lemma Parameters.Valid.field_pos (h : p.Valid) : 0<p.field := by
  obtain h | h | h := h.field <;> omega

lemma Parameters.Valid.field_le (h : p.Valid) : p.field≤2^32 := by
  obtain h | h | h := h.field <;> omega

/-- The key of one of the two fresh parties. -/
def freshKey (env : Platform) (p : Parameters) (roots : Block × Block) (scalars : ℕ × ℕ)
    (id : Bool) : Key :=
  ⟨pick scalars id,sender env (pick roots id) p,receiver env (pick roots !id) (pick scalars id) p⟩

lemma issueReference_eq_ok {env : Platform} {context : Context} {random : Random} (h : issueReference env p context random = .ok (a,b)) :
    p.Valid ∧ ∃ binding scalars, (∀ id, pick scalars id < p.scalarDomain) ∧ ∀ id,
      pick (a,b) id = partyAt p binding random.nonce id
        (some (.key (freshKey env p random.roots scalars id))) := by
  simp only [issueReference,Parameters.validate,bind_eq_ok,ite_error_eq_ok,pure_eq_ok,
    ok.injEq,Prod.mk.injEq] at h
  obtain ⟨-,⟨hfie,hln,-⟩,-,left,hleft,right,hrt,rfl,rfl⟩ := h
  rw [not_or,not_not,not_not] at hfie
  have hvld : p.Valid := ⟨by simpa using hfie.1,hfie.2,not_not.mp hln⟩
  have hpos : 0<p.scalarDomain := by
    omega
  refine ⟨hvld,env.sha256 (bindingBytes p context),(left,right),?_,?_⟩
  · rintro (_ | _)
    · exact uniform_lt hpos hleft
    · exact uniform_lt hpos hrt
  · rintro (_ | _) <;> rfl

section
variable {env : Platform} {p : Parameters} {binding nonce : BitVec 256} {id : Bool}

lemma prepare_cases (key : Key) :
    let party := partyAt p binding nonce id (some (.key key))
    let lane := prepareLane env (party.prfNamespace env) p.field key.scalar
      (key.sender.leaves env p.scalarDomain) (key.receiver.leaves env p.scalarDomain)
    (∃ e, (range p.lanes).mapM lane = .error e ∧ (party.prepare env).1 = .error e) ∨
      ∃ vectors, (range p.lanes).mapM lane = .ok vectors ∧ party.prepare env =
        (.ok (),partyAt p binding nonce id (some (.prepared ⟨key.scalar,vectors⟩))) := by
  intro party lane
  cases hm : (range p.lanes).mapM lane with
  | error e => exact .inl ⟨e,rfl,by simp only [lane,party,partyAt] at hm ⊢; simp [Party.prepare,hm]⟩
  | ok vectors =>
    exact .inr ⟨vectors,rfl,by simp only [lane,party,partyAt] at hm ⊢; simp [Party.prepare,hm]⟩

lemma start_eq {share : Share} {scalar : ℕ} (hdom : p.scalarDomain=p.field)
    (hscl : scalar<p.field) (hlen : vector.length=p.lanes) (hvec : ∀ v∈vector, v<p.field) :
    let own := zipWith (fun v (pair : ℕ × ℕ) => sub v pair.1 p.field) vector share.vectors
    let party := partyAt p binding nonce id (some (.prepared share))
    party.start scalar vector = (.ok (party.frame (sub scalar share.scalar p.field) own),
      partyAt p binding nonce id
        (some (.waiting share own (sub scalar share.scalar p.field)))) := by
  refine (if_neg ?_).trans rfl
  simpa [partyAt,hdom,hlen,hscl] using hvec

lemma start_eq_ok {share : Share} {scalar : ℕ} {frame : List Byte} {next : Party} (h :
    (partyAt p binding nonce id (some (.prepared share))).start scalar vector = (.ok frame,next)) :
    p.scalarDomain=p.field ∧ scalar<p.field ∧ vector.length=p.lanes ∧ ∀ v∈vector, v<p.field := by
  by_contra hbad
  have herr : (partyAt p binding nonce id (some (.prepared share))).start scalar vector =
      (.error .domain,partyAt p binding nonce id none) := by
    refine (if_pos ?_).trans rfl
    by_contra hguard
    exact hbad (by simpa [partyAt] using hguard)
  rw [h] at herr
  cases herr

/-- Two prepared shares: correlated, and their masks in the field. -/
structure Prepared (p : Parameters) (a b : Share) : Prop where
  correlated : Correlated p.field p.lanes a b
  left : a.scalar<p.field ∧ ∀ i<p.lanes, (a.vectors.getD i (0,0)).1 < p.field
  right : b.scalar<p.field ∧ ∀ i<p.lanes, (b.vectors.getD i (0,0)).1 < p.field

lemma prepare_both (hp : p.Valid) (roots : Block × Block)
    (hs : ∀ id, pick scalars id < p.scalarDomain)
    (ha : (partyAt p binding nonce false
      (some (.key (freshKey env p roots scalars false)))).prepare env = (.ok (),a))
    (hb : (partyAt p binding nonce true
      (some (.key (freshKey env p roots scalars true)))).prepare env = (.ok (),b)) :
    ∃ sa sb, a = partyAt p binding nonce false (some (.prepared sa)) ∧
      b = partyAt p binding nonce true (some (.prepared sb)) ∧ Prepared p sa sb := by
  have hpos := hp.field_pos
  have hdom := hp.domain
  obtain ⟨e,-,he⟩ | ⟨va,hva,heqa⟩ := @prepare_cases env p binding nonce false
    (freshKey env p roots scalars false)
  · rw [ha] at he
    cases he
  obtain ⟨e,-,he⟩ | ⟨vb,hvb,heqb⟩ := @prepare_cases env p binding nonce true
    (freshKey env p roots scalars true)
  · rw [hb] at he
    cases he
  obtain rfl := congrArg Prod.snd (ha.symm.trans heqa)
  obtain rfl := congrArg Prod.snd (hb.symm.trans heqb)
  refine ⟨_,_,rfl,rfl,?_⟩
  simp only [freshKey,leaves_sender,leaves_receiver p _ (hs _)] at hva hvb
  obtain ⟨hlena,hlan⟩ := mapM_range_eq_ok (0,0) hva
  obtain ⟨hlenb,hlaneb⟩ := mapM_range_eq_ok (0,0) hvb
  have hx : ∀ id, pick scalars id < p.field := fun id => (hs id).trans_le hdom.2
  refine ⟨⟨hlena,hlenb,fun i hi => ?_⟩,⟨hx false,fun i hi => ?_⟩,⟨hx true,fun i hi => ?_⟩⟩
  · exact prepareLane_correlated hpos hdom.2 _ _ (hlan i hi) (hlaneb i hi)
  · exact prepareLane_lt hpos _ (hlan i hi)
  · exact prepareLane_lt hpos _ (hlaneb i hi)

/-- Preparation fails only where the draws of a leaf of one of the two trees run out. -/
lemma prepare_result (roots : Block × Block) (hs : ∀ id, pick scalars id < p.scalarDomain) :
    let party := partyAt p binding nonce id (some (.key (freshKey env p roots scalars id)))
    (party.prepare env).1 = .ok () ∨ (party.prepare env).1 = .error .randomness ∧
      ∃ who leaf index, some leaf ∈ (freshKey env p roots scalars who).sender.leaves env
        p.scalarDomain ∧ index<p.lanes ∧
        Rejected env leaf (party.prfNamespace env) index p.field := by
  intro party
  obtain ⟨e,hm,he⟩ | ⟨vectors,-,hok⟩ := @prepare_cases env p binding nonce id
    (freshKey env p roots scalars id)
  · simp only [freshKey,leaves_sender,leaves_receiver p _ (hs _)] at hm ⊢
    obtain ⟨index,hidx,hlane⟩ := mapM_eq_error hm
    obtain ⟨rfl,j,hj,hrej⟩ := prepareLane_error hlane
    have hleaf (root : Block) : some (leafSeed env p root j) ∈
        (range p.scalarDomain).map fun j => some (leafSeed env p root j) :=
      mem_map_of_mem (mem_range.mpr hj)
    refine .inr ⟨he,?_⟩
    obtain hrej | hrej := hrej
    · exact ⟨id,_,index,hleaf _,mem_range.mp hidx,hrej⟩
    · exact ⟨!id,_,index,hleaf _,mem_range.mp hidx,hrej⟩
  · exact .inl (congrArg Prod.fst hok)

/-- A frame in range is consumed lane by lane. -/
lemma finish_side (hp : p.Valid) {share : Share} {own vector : List ℕ} {ownScalar scalar : ℕ}
    {state : Option State} (hlen : vector.length=p.lanes) (hown : own.length=p.lanes) (hsha :
    share.vectors.length=p.lanes) (hscl : scalar<p.field) (hvec : ∀ v∈vector, v<p.field) :
    ∃ outs, ((partyAt p binding nonce id (some (.waiting share own ownScalar))).finish
        ((partyAt p binding nonce (!id) state).frame scalar vector)).1 = .ok outs ∧
      outs.length=p.lanes ∧ ∀ i<p.lanes, outs.getD i 0 =
        let opened := add scalar ownScalar p.field
        let word := add (vector.getD i 0) (own.getD i 0) p.field
        let pair := share.vectors.getD i (0,0)
        add (add pair.2 (mul word share.scalar p.field) p.field) (add (mul opened pair.1 p.field)
          (if id = false then mul word opened p.field else 0) p.field) p.field := by
  have hcnt : p.lanes<2^32 := by
    have := hp.lanes.2
    exact this.trans_lt (by decide)
  let value := fun entry : (BitVec 32 × ℕ) × (ℕ × ℕ) =>
    let opened := add scalar ownScalar p.field
    let word := add entry.1.1.toNat entry.1.2 p.field
    add (add entry.2.2 (mul word share.scalar p.field) p.field) (add (mul opened entry.2.1 p.field)
      (if id = false then mul word opened p.field else 0) p.field) p.field
  have hword : ∀ v∈vector, (BitVec.ofNat 32 v).toNat=v := by
    intro v hv
    have hlt := (hvec v hv).trans_le hp.field_le
    rw [BitVec.toNat_ofNat,Nat.mod_eq_of_lt hlt]
  refine ⟨(((vector.map (BitVec.ofNat 32)).zip own).zip share.vectors).map value,?_,?_,?_⟩
  · refine (@finish_frame (partyAt p binding nonce id (some (.waiting share own ownScalar)))
      (partyAt p binding nonce (!id) state) share own ownScalar scalar vector rfl rfl rfl rfl rfl
      hcnt hlen hp.field_le hscl).trans ?_
    apply mapM_ok
    intro entry hent
    obtain ⟨v,hv,hraw⟩ := mem_map.mp (of_mem_zip (of_mem_zip hent).1).1
    have hlt : ¬entry.1.1.toNat≥p.field := by
      rw [← hraw,hword v hv]
      exact not_le.mpr (hvec v hv)
    exact if_neg hlt
  · simp [hlen,hown,hsha]
  · intro i hi
    have hget : (vector.map (BitVec.ofNat 32))[i]? = some (BitVec.ofNat 32 (vector.getD i 0)) := by
      rw [getElem?_map,getElem?_eq_getElem (hlen.symm ▸ hi),getD_eq_getElem _ _ (hlen.symm ▸ hi)]
      rfl
    have hmem : vector.getD i 0 ∈ vector := by
      rw [getD_eq_getElem _ _ (hlen.symm ▸ hi)]
      exact getElem_mem _
    have hown' : own[i]? = some (own.getD i 0) := by
      rw [getElem?_eq_getElem (hown.symm ▸ hi),getD_eq_getElem _ _ (hown.symm ▸ hi)]
    have hsha' : share.vectors[i]? = some (share.vectors.getD i (0,0)) := by
      rw [getElem?_eq_getElem (hsha.symm ▸ hi),getD_eq_getElem _ _ (hsha.symm ▸ hi)]
    have hent : (((vector.map (BitVec.ofNat 32)).zip own).zip share.vectors)[i]? =
        some ((BitVec.ofNat 32 (vector.getD i 0),own.getD i 0),share.vectors.getD i (0,0)) := by
      rw [getElem?_zip_eq_some,getElem?_zip_eq_some]
      exact ⟨⟨hget,hown'⟩,hsha'⟩
    rw [getD_eq_getElem?_getD,getElem?_map,hent,Option.map_some,Option.getD_some]
    simp only [value,hword _ hmem]

/-- The exchange of one frame each multiplies the scalar by the vector. -/
lemma finish_both (hp : p.Valid) {sa sb : Share} (h : Prepared p sa sb) {x x' : ℕ} {v v' : List ℕ}
    {fa fb : List Byte} (ha : (partyAt p binding nonce false (some (.prepared sa))).start x v = (.ok
    fa,a)) (hb : (partyAt p binding nonce true (some (.prepared sb))).start x' v' = (.ok fb,b)) :
    ∃ oa ob, (a.finish fb).1 = .ok oa ∧ (b.finish fa).1 = .ok ob ∧ oa.length=p.lanes ∧
      ob.length=p.lanes ∧ ∀ i<p.lanes, (oa.getD i 0+ob.getD i 0)%p.field =
        ((x+x')*(v.getD i 0+v'.getD i 0))%p.field := by
  obtain ⟨hdom,hx,hv,hvr⟩ := start_eq_ok ha
  obtain ⟨-,hx',hv',hvr'⟩ := start_eq_ok hb
  obtain ⟨⟨hla,hlb,hcor⟩,⟨hsa,hma⟩,hsb,hmb⟩ := h
  rw [start_eq hdom hx hv hvr] at ha
  rw [start_eq hdom hx' hv' hvr'] at hb
  obtain ⟨rfl,rfl⟩ : _=fa ∧ _=a := by simpa using ha
  obtain ⟨rfl,rfl⟩ : _=fb ∧ _=b := by simpa using hb
  have hown : ∀ {w : List ℕ} {share : Share}, w.length=p.lanes → share.vectors.length=p.lanes →
      let own := zipWith (fun v (pair : ℕ × ℕ) => sub v pair.1 p.field) w share.vectors
      own.length = p.lanes ∧ (∀ o∈own, o<p.field) ∧ ∀ i<p.lanes, own.getD i 0 =
        sub (w.getD i 0) (share.vectors.getD i (0,0)).1 p.field := by
    intro w share hw hsha own
    refine ⟨by simp [own,hw,hsha],fun o ho => ?_,fun i hi => ?_⟩
    · obtain ⟨i,hi,rfl⟩ := getElem_of_mem ho
      rw [getElem_zipWith]
      exact Nat.mod_lt _ hp.field_pos
    · rw [getD_eq_getElem _ _ (by simpa [own,hw,hsha] using hi),getElem_zipWith,
        getD_eq_getElem _ _ (hw.symm ▸ hi),getD_eq_getElem _ _ (hsha.symm ▸ hi)]
  have hlt : ∀ a b, sub a b p.field < p.field := fun a b => Nat.mod_lt _ hp.field_pos
  obtain ⟨hoa,hra,hga⟩ := hown hv hla
  obtain ⟨hob,hrb,hgb⟩ := hown hv' hlb
  obtain ⟨oa,hfa,hna,hva⟩ := @finish_side p binding nonce false hp sa _ _ _ _ _ hob hoa hla (hlt _ _) hrb
  obtain ⟨ob,hfb,hnb,hvb⟩ := @finish_side p binding nonce true hp sb _ _ _ _ _ hoa hob hlb (hlt _ _) hra
  refine ⟨oa,ob,hfa,hfb,hna,hnb,fun i hi => ?_⟩
  rw [hva i hi,hvb i hi,hga i hi,hgb i hi]
  exact mul_openings (hma i hi) (hmb i hi) hsa hsb (hcor i hi)

end

/-- What the dealer issues: both encodings expand to the other party's whole tree but for the leaf
of the own scalar, a party prepares unless all draws of some leaf are rejected, the prepared
correlation multiplies in every lane, and the parties' outputs reconstruct the scalar times the
vector. -/
theorem secret_replication (env : Platform) {p : Parameters} {context : Context} {random : Random}
    {a b : Party} (h : issueReference env p context random = .ok (a,b)) :
    (∀ id, ∃ own other, (pick (a,b) id).state = some (.key own) ∧
      (pick (a,b) !id).state = some (.key other) ∧ own.scalar<p.scalarDomain ∧
      (other.sender.leaves env p.scalarDomain).length = p.scalarDomain ∧
      (∀ j<p.scalarDomain, ∃ seed, (other.sender.leaves env p.scalarDomain)[j]? = some (some seed)) ∧
      own.receiver.leaves env p.scalarDomain =
        (other.sender.leaves env p.scalarDomain).set own.scalar none) ∧
    (∀ id, ((pick (a,b) id).prepare env).1 = .ok () ∨
      p.field≠2 ∧ ((pick (a,b) id).prepare env).1 = .error .randomness ∧
      ∃ who key leaf index, (pick (a,b) who).state = some (.key key) ∧
        some leaf ∈ key.sender.leaves env p.scalarDomain ∧ index<p.lanes ∧
        Rejected env leaf ((pick (a,b) id).prfNamespace env) index p.field) ∧
    ∀ a' b', a.prepare env = (.ok (),a') → b.prepare env = (.ok (),b') →
      (∃ sa sb, a'.state = some (.prepared sa) ∧ b'.state = some (.prepared sb) ∧
        Correlated p.field p.lanes sa sb) ∧
      (∀ party ∈ [a',b'], p.scalarDomain=p.field → ∀ x<p.field, ∀ v : List ℕ,
        v.length=p.lanes → (∀ w∈v, w<p.field) →
        ∃ frame next, party.start x v = (.ok frame,next)) ∧
      ∀ x x' v v' fa fb a'' b'', a'.start x v = (.ok fa,a'') → b'.start x' v' = (.ok fb,b'') →
        ∃ oa ob, (a''.finish fb).1 = .ok oa ∧ (b''.finish fa).1 = .ok ob ∧
          oa.length=p.lanes ∧ ob.length=p.lanes ∧ ∀ i<p.lanes,
            (oa.getD i 0+ob.getD i 0)%p.field = ((x+x')*(v.getD i 0+v'.getD i 0))%p.field := by
  obtain ⟨hp,binding,scalars,hs,hpty⟩ := issueReference_eq_ok h
  have ha : a=_ := hpty false
  have hb : b=_ := hpty true
  refine ⟨fun id => ?_,fun id => ?_,fun a' b' ha' hb' => ?_⟩
  · rw [hpty id,hpty !id]
    refine ⟨_,_,rfl,rfl,hs id,?_,?_,?_⟩
    · simp [freshKey,leaves_sender]
    · intro j hj
      refine ⟨leafSeed env p (pick random.roots !id) j,?_⟩
      rw [freshKey,leaves_sender,getElem?_map,getElem?_range hj]
      rfl
    · rw [freshKey,freshKey,leaves_sender,leaves_receiver p _ (hs id)]
      apply ext_getElem?
      intro j
      rw [getElem?_set,length_map,length_range,getElem?_map,getElem?_map]
      by_cases hj : j<p.scalarDomain
      · rw [getElem?_range hj,Option.map_some,Option.map_some]
        by_cases hpoi : pick scalars id=j
        · rw [if_pos hpoi.symm,if_pos hpoi,if_pos (hs id)]
        · rw [if_neg (Ne.symm hpoi),if_neg hpoi]
      · have hne : ¬pick scalars id=j := fun heq => hj (heq ▸ hs id)
        rw [getElem?_eq_none (by simpa using hj)]
        exact (if_neg hne).symm
  · rw [hpty id]
    obtain hok | ⟨herr,who,leaf,index,hleaf,hidx,hrej⟩ := prepare_result random.roots hs
    · exact .inl hok
    · exact .inr ⟨hrej.odd,herr,who,_,leaf,index,congrArg Party.state (hpty who),hleaf, hidx,hrej⟩
  · rw [ha] at ha'
    rw [hb] at hb'
    obtain ⟨sa,sb,rfl,rfl,hpre⟩ := prepare_both hp random.roots hs ha' hb'
    refine ⟨⟨sa,sb,rfl,rfl,hpre.correlated⟩,?_,?_⟩
    · intro party hmem hdom x hx v hlen hv
      obtain rfl | rfl : party=_ ∨ party=_ := by simpa using hmem
      · exact ⟨_,_,start_eq hdom hx hlen hv⟩
      · exact ⟨_,_,start_eq hdom hx hlen hv⟩
    · intro x x' v v' fa fb a'' b'' hst hstart'
      exact finish_both hp hpre hst hstart'

/-- Draws on which a run over the two-element field can be evaluated. -/
def sample : Platform × Random :=
  (⟨fun key block => key+block,fun bytes => BitVec.ofNat 256 bytes.length,176⟩,
    ⟨7,(3,12),fun id _ => if id then 1 else 0⟩)

/-- One lane over the two-element field, punctured: the leaves of the first party, and the product
of one and one. -/
theorem secret_replication_at : ∃ a b, issueReference sample.1 ⟨2,2,1,.punctured⟩ ⟨1,2,3,4⟩
    sample.2 = .ok (a,b) ∧ (∃ own other, a.state = some (.key own) ∧ b.state = some (.key other) ∧
    own.receiver.leaves sample.1 2 = (other.sender.leaves sample.1 2).set own.scalar none) ∧
    ∃ a₁ b₁ fa fb a₂ b₂ oa ob, a.prepare sample.1 = (.ok (),a₁) ∧
    b.prepare sample.1 = (.ok (),b₁) ∧ a₁.start 1 [0] = (.ok fa,a₂) ∧ b₁.start 0 [1] = (.ok fb,b₂) ∧
    (a₂.finish fb).1 = .ok oa ∧ (b₂.finish fa).1 = .ok ob ∧ (oa.getD 0 0+ob.getD 0 0)%2 = 1 := by
  have hok : (issueReference sample.1 ⟨2,2,1,.punctured⟩ ⟨1,2,3,4⟩ sample.2).toOption.isSome := by
    decide +kernel
  obtain ⟨⟨a,b⟩,hisu⟩ := isSome_toOption.mp hok
  obtain ⟨htre,hrdy,hrun⟩ := secret_replication sample.1 hisu
  obtain ⟨own,other,ha,hb,-,-,-,hlea⟩ := htre false
  have hpre (id : Bool) : ∃ next, (pick (a,b) id).prepare sample.1=(.ok (),next) :=
    ⟨_,Prod.ext ((hrdy id).resolve_right fun hodd => hodd.1 rfl) rfl⟩
  obtain ⟨a₁,ha₁⟩ := hpre false
  obtain ⟨b₁,hb₁⟩ := hpre true
  obtain ⟨-,hst,hfin⟩ := hrun a₁ b₁ ha₁ hb₁
  obtain ⟨fa,a₂,ha₂⟩ := hst a₁ (by simp) rfl 1 (by decide) [0] rfl (by decide)
  obtain ⟨fb,b₂,hb₂⟩ := hst b₁ (by simp) rfl 0 (by decide) [1] rfl (by decide)
  obtain ⟨oa,ob,hoa,hob,-,-,hsum⟩ := hfin _ _ _ _ _ _ _ _ ha₂ hb₂
  exact ⟨a,b,hisu,⟨own,other,ha,hb,hlea⟩,a₁,b₁,fa,fb,a₂,b₂,oa,ob,ha₁,hb₁,ha₂,hb₂,hoa,hob,
    hsum 0 (by decide)⟩

end Pllm.Replication
