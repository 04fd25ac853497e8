import Pllm.Pages.PrivatePagesCorrect

/-! The server of a matrix and its scales is the server of their interleaved records; the contexts
that a server binds. -/
namespace Pllm.Pages
open Pllm.Lib List Table Nat

/-- The rows with their scales, one after the other. -/
def interleaved (columns : ℕ) (matrix scales : List Byte) : List Byte :=
  (zipWith (fun weights scale => weights++scale) (chunksExact columns matrix)
    (chunksExact 4 scales)).flatten

lemma xorInto_append (mask : Byte) (out v w : List Byte) : xorInto mask out (v++w) =
    xorInto mask (out.take v.length) v++xorInto mask (out.drop v.length) w := by
  induction v generalizing out with
  | nil => cases out <;> rfl
  | cons y v ih =>
    cases out with
    | nil => rfl
    | cons x out => exact congrArg _ (ih out)

section
variable {matrix scales : List Byte} {rows columns index : ℕ} (hm : matrix.length=rows*columns)
  (hs : scales.length=rows*4)
include hm hs

lemma length_stored (hi : index < rows) : (slice matrix (index*columns) columns).length = columns ∧
    ((vocabulary matrix scales).record index (columns+4)).length = columns+4 := by
  have fit (n : ℕ) : index*n+n ≤ rows*n := by
    rw [← succ_mul]
    exact Nat.mul_le_mul_right n hi
  have hrow := length_slice (hm ▸ fit columns)
  exact ⟨hrow,by rw [record,Nat.add_sub_cancel,length_append,hrow,length_slice (hs ▸ fit 4)]⟩

variable (positive : 0 < columns)
include positive

lemma interleaved_eq : interleaved columns matrix scales =
    (range rows).flatMap fun i => (vocabulary matrix scales).record i (columns+4) := by
  simp only [interleaved,chunksExact,hm,hs,Nat.mul_div_cancel _ positive,record,
    Nat.mul_div_cancel _ (show 0 < 4 by decide),zipWith_map,zipWith_self,flatMap_def,
    Nat.add_sub_cancel,mul_comm]

lemma length_interleaved : (interleaved columns matrix scales).length = rows*(columns+4) := by
  rw [interleaved_eq hm hs positive,length_flatMap_const _ fun i hi =>
    (length_stored hm hs (mem_range.mp hi)).2,length_range,mul_comm]

lemma record_interleaved (hi : index < rows) : (records (interleaved columns matrix scales)).record
    index (columns+4) = (vocabulary matrix scales).record index (columns+4) := by
  have chunks := chunksExact_flatMap (succ_pos (columns+3)) (range rows) fun i hi =>
    (length_stored hm hs (mem_range.mp hi)).2
  rw [← interleaved_eq hm hs positive,chunksExact,length_interleaved hm hs positive,
    Nat.mul_div_cancel _ (succ_pos _)] at chunks
  rw [← map_inj_left.mp chunks index (mem_range.mpr hi),record,mul_comm]

/-- A buffer absorbs the same record from both tables. -/
lemma xorRecord_interleaved (hi : index < rows) (mask : Byte) (out : List Byte) :
    (records (interleaved columns matrix scales)).xorRecord index (columns+4) mask out =
      (vocabulary matrix scales).xorRecord index (columns+4) mask out := by
  have hrec := record_interleaved hm hs positive hi
  simp only [record,Nat.add_sub_cancel] at hrec
  rw [xorRecord,xorRecord,hrec,xorInto_append,Nat.add_sub_cancel, (length_stored hm hs hi).1]

end

namespace Server

/-- The same server with another table. -/
abbrev withTable (self : Server) (data : Table) : Server := { self with data := data }

variable {env : Platform} {self : Server} {data : Table}

variable (self data) in
lemma admitKey_withTable (query : List Byte) : ∃ r burned,
    self.admitKey query = (r,{ self with burned := burned }) ∧
      (self.withTable data).admitKey query =
        (r,{ self.withTable data with burned := burned }) := by
  unfold admitKey withTable
  cases Key.decode query with
  | error e => exact ⟨_,_,rfl,rfl⟩
  | ok key =>
    dsimp only
    split_ifs
    · exact ⟨_,_,rfl,rfl⟩
    · exact ⟨_,_,rfl,rfl⟩
    · exact ⟨_,_,rfl,rfl⟩

variable (same : ∀ r < self.descriptor.records,∀ mask out,
  data.xorRecord r self.descriptor.width mask out =
    self.data.xorRecord r self.descriptor.width mask out)
include same

/-- A call answers from the records it absorbs, and changes the ledger only. -/
lemma call_withTable (c : Call) : ∃ r burned,
    self.call env c = (r,{ self with burned := burned }) ∧
      (self.withTable data).call env c = (r,{ self.withTable data with burned := burned }) := by
  have answers : (self.withTable data).answer env=self.answer env := by
    refine funext fun key => congrArg (self.reply key) (foldl_ext _ _ _ fun out r hr => ?_)
    exact same r (mem_range.mp hr) _ _
  cases c with
  | evaluate query =>
    obtain ⟨r,burned,h,h'⟩ := admitKey_withTable self data query
    simp only [call,evaluate_eq,h,h',answers]
    exact ⟨_,_,rfl,rfl⟩
  | cancel query =>
    obtain ⟨r,burned,h,h'⟩ := admitKey_withTable self data query
    simp only [call,cancel,h,h']
    exact ⟨_,_,rfl,rfl⟩
  | evaluateBatch queries =>
    have keys (ids : Finset Block) : (self.withTable data).batchKeys ids queries =
        self.batchKeys ids queries := by
      induction queries generalizing ids with
      | nil => rfl
      | cons query queries ih => simp only [batchKeys,ih]
    simp only [call,evaluateBatch,keys]
    split_ifs
    · exact ⟨_,_,rfl,rfl⟩
    · cases hkeys : self.batchKeys ∅ queries with
      | error e => exact ⟨_,_,rfl,rfl⟩
      | ok result =>
        have hd := (batchKeys_eq_ok env hkeys).2.1
        refine ⟨_,_,rfl,Prod.ext (congrArg Except.ok ?_) rfl⟩
        exact (@batch_answers env (self.withTable data) _ hd).trans
          ((congrArg (map · _) answers).trans (@batch_answers env self _ hd).symm)

/-- What each of a sequence of calls returns. -/
def results (env : Platform) (self : Server) : List Call → List (Except String (List (List Byte)))
  | [] => []
  | c::calls => (self.call env c).1::results env (self.call env c).2 calls

lemma results_withTable (calls : List Call) :
    (self.withTable data).results env calls = self.results env calls := by
  induction calls generalizing self with
  | nil => rfl
  | cons c calls ih =>
    obtain ⟨r,burned,h,h'⟩ := @call_withTable env _ _ same c
    rw [results,results,h,h']
    exact congrArg _ (@ih { self with burned := burned } same)

end Server

/-- A server of a matrix is published, and replies and fails over any calls, as the server of the
records that its rows and their scales make up. -/
theorem vocabulary_refines_records (env : Platform) {matrix scales : List Byte} {rows columns : ℕ}
    {party : Byte} {server : Server} (positive : 0 < columns) (hm : matrix.length=rows*columns)
    (h : Server.fromMatrix env matrix rows columns scales party = .ok server) :
    ∃ plain, Server.new env (interleaved columns matrix scales) (columns+4) party = .ok plain ∧
    plain.descriptor=server.descriptor ∧ (∀ index < rows, plain.data.record index (columns+4) =
    slice matrix (index*columns) columns++slice scales (index*4) 4) ∧
    ∀ calls, plain.results env calls = server.results env calls := by
  simp only [Server.fromMatrix,ite_error_eq_ok,bind_eq_ok,pure_eq_ok,ok_eq_ok] at h
  obtain ⟨-,descriptor,valid,admitted,rfl⟩ := h
  rw [not_or,not_or,not_not] at admitted
  obtain ⟨hpty,hs,-⟩ := admitted
  have hlen := length_interleaved hm hs positive
  have hcnt : (interleaved columns matrix scales).length/(columns+4)=rows := by
    rw [hlen,Nat.mul_div_cancel _ (succ_pos _)]
  have hcre : ¬(columns+4=0 ∨ (interleaved columns matrix scales).length%(columns+4) ≠ 0 ∨
      party>1) := by
    rw [not_or,not_or,not_not,hlen]
    exact ⟨succ_ne_zero _,mul_mod_left ..,hpty⟩
  have hshp : descriptor.records=rows ∧ descriptor.width=columns+4 := by
    simp only [Descriptor.validate,ite_error_eq_ok,ok_eq_ok] at valid
    obtain ⟨-,rfl⟩ := valid
    exact ⟨rfl,rfl⟩
  refine ⟨⟨_,.records (interleaved columns matrix scales),party==1,∅,∅⟩,?_,rfl,?_,?_⟩
  · rw [Server.new,if_neg hcre,hcnt,valid,ok_bind,hshp.1,hshp.2]
    rfl
  · exact fun index hi => record_interleaved hm hs positive hi
  · refine @Server.results_withTable env ⟨_,.vocabulary matrix scales,_,_,_⟩ _ ?_
    dsimp only
    rw [hshp.1,hshp.2]
    exact fun r hr => xorRecord_interleaved hm hs positive hr

/-- Two rows of one column, with scales of one, and a query that is replayed. -/
theorem vocabulary_refines_records_at : ∃ server plain,
    Server.fromMatrix sample [1,2] 2 1 [0,0,0x80,0x3f,0,0,0x80,0x3f] 0 = .ok server ∧
      Server.new sample [1,0,0,0x80,0x3f,2,0,0,0x80,0x3f] 5 0 = .ok plain ∧
      plain.descriptor=server.descriptor ∧
      let query := (⟨.scalar,server.descriptor,4,false,3,[⟨1,2⟩],1⟩ : Key).encode
      (plain.results sample [.evaluate query,.cancel query]).map Except.isOk = [true,false] := by
  obtain ⟨server,h⟩ : ∃ server,
      Server.fromMatrix sample [1,2] 2 1 [0,0,0x80,0x3f,0,0,0x80,0x3f] 0 = .ok server := ⟨_,rfl⟩
  obtain ⟨plain,published,same,-,replies⟩ := vocabulary_refines_records sample Nat.one_pos rfl h
  refine ⟨server,plain,h,published,same,(congrArg (map Except.isOk) (replies _)).trans ?_⟩
  obtain rfl := Except.ok.inj h
  decide +kernel

namespace Server

/-- The contexts that a sequence of calls binds, with their servers. -/
def bindEach (env : Platform) (self : Server) : List (BitVec 256) → List (BitVec 256 × Server)
  | [] => []
  | context::contexts =>
    let first := self.bindContext env context
    (first.1.toOption.toList.map fun bound => (context,bound))++bindEach env first.2 contexts

/-- The server bound to a context. -/
def bound (env : Platform) (self : Server) (context : BitVec 256) : Server :=
  let digest := env.sha256 (ascii "pllm/private-page-context/v1\x00"
    ++ leBytes 32 self.descriptor.digest++leBytes 32 context)
  ⟨{ self.descriptor with digest := digest },self.data,self.party,∅,∅⟩

variable {env : Platform} {self : Server}

/-- Contexts are bound once, and no more of them than the ledger has room for. -/
lemma bindEach_spec (contexts : List (BitVec 256)) :
    ((self.bindEach env contexts).map Prod.fst).Nodup ∧ (self.bindEach env contexts).length ≤
    maxQueries-self.contexts.card ∧ (∀ p∈self.bindEach env contexts,p.1 ∉ self.contexts ∧
    p.2=self.bound env p.1) ∧ ∀ context∈contexts,context ∉ self.contexts →
    (self.bindEach env contexts).length+self.contexts.card < maxQueries →
    (context,self.bound env context) ∈ self.bindEach env contexts := by
  induction contexts generalizing self with
  | nil => exact ⟨.nil,Nat.zero_le _,fun p hp => absurd hp not_mem_nil,nofun⟩
  | cons context contexts ih =>
    rw [bindEach,bindContext]
    split_ifs with refused
    · obtain ⟨nodup,room,each,fresh⟩ := @ih self
      refine ⟨nodup,room,each,fun other m new few => ?_⟩
      rcases mem_cons.mp m with rfl | m
      · have : self.contexts.card < maxQueries := (Nat.le_add_left ..).trans_lt few
        exact absurd refused (not_or.mpr ⟨this.not_ge,new⟩)
      · exact fresh other m new few
    · rw [not_or,not_le] at refused
      obtain ⟨nodup,room,each,fresh⟩ := @ih { self with contexts := insert context self.contexts }
      rw [Finset.card_insert_of_notMem refused.2] at room fresh
      refine ⟨nodup_cons.mpr ⟨fun again => ?_,nodup⟩,?_,fun p hp => ?_,fun other m new few => ?_⟩
      · obtain ⟨p,hp,same⟩ := mem_map.mp again
        exact (each p hp).1 (same ▸ Finset.mem_insert_self ..)
      · refine (succ_le_succ room).trans ?_
        omega
      · obtain rfl | hp := mem_cons.mp hp
        · exact ⟨refused.2,rfl⟩
        · exact ⟨fun h => (each p hp).1 (Finset.mem_insert_of_mem h),(each p hp).2⟩
      · by_cases same : other=context
        · exact same ▸ mem_cons_self
        · refine mem_cons_of_mem _ (fresh other ((mem_cons.mp m).resolve_left same) ?_ ?_)
          · exact fun again => (Finset.mem_insert.mp again).elim same new
          · exact (Nat.add_right_comm ..).trans_lt few

end Server

/-- However the two servers of a table bind contexts, each binds a fresh context once while there is
room for it, and the two servers of one context retrieve the records of the table. -/
theorem bound_contexts (env : Platform) {a b : Server} (h : Twins a b)
    (contexts contexts' : List (BitVec 256)) : ((a.bindEach env contexts).map Prod.fst).Nodup ∧
    (a.bindEach env contexts).length+a.contexts.card ≤ max maxQueries a.contexts.card ∧
    (∀ p∈a.bindEach env contexts,p.1 ∉ a.contexts) ∧ (∀ context∈contexts,context ∉ a.contexts →
    (a.bindEach env contexts).length+a.contexts.card < maxQueries → ∃ x,(context,x) ∈ a.bindEach
    env contexts) ∧ ∀ context x y,(context,x) ∈ a.bindEach env contexts → (context,y) ∈ b.bindEach
    env contexts' → x.burned=∅ ∧ y.burned=∅ ∧ ∀ layout random,∀ index<a.descriptor.records,∃
    qa qb decoder, issueLayout env x.descriptor index layout random = .ok (qa,qb,decoder) ∧
    (∃ ra,x.Answers env qa ra) ∧ (∃ rb,y.Answers env qb rb) ∧ ∀ ra rb,x.Answers env qa ra →
    y.Answers env qb rb → decoder.decode ra rb = .ok (a.data.record index a.descriptor.width) := by
  obtain ⟨nodup,room,left,fresh⟩ := @Server.bindEach_spec env a contexts
  refine ⟨nodup,by omega,fun p hp => (left p hp).1,fun context m new few =>
    ⟨_,fresh context m new few⟩,fun context x y hx hy => ?_⟩
  obtain rfl : x=a.bound env context := (left _ hx).2
  obtain rfl : y=b.bound env context := ((Server.bindEach_spec contexts').2.2.1 _ hy).2
  have twins : Twins (a.bound env context) (b.bound env context) := by
    have valid := h.valid
    simp only [Descriptor.validate,ite_error_eq_ok] at valid
    refine ⟨?_,h.shaped,?_,h.data,h.left,h.right⟩
    · exact if_neg valid.1
    · rw [Server.bound,Server.bound,h.descriptor]
  refine ⟨rfl,rfl,fun layout random index hi => ?_⟩
  obtain ⟨qa,qb,decoder,issued,decodes,left,right⟩ := twins.retrieve env layout random hi
  exact ⟨qa,qb,decoder,issued,left (Finset.notMem_empty _) (succ_pos 4095),
    right (Finset.notMem_empty _) (succ_pos 4095),decodes⟩

/-- The servers of one context, which the other server binds after another one, retrieve the second
record. -/
theorem bound_contexts_at : ∃ a b x y qa qb decoder ra rb,Server.new sample [5,7,9] 1 0 = .ok a ∧
    Server.new sample [5,7,9] 1 1 = .ok b ∧ ((a.bindEach sample [1,2,1]).map Prod.fst).Nodup ∧
    (1,x) ∈ a.bindEach sample [1,2,1] ∧ (1,y) ∈ b.bindEach sample [3,1] ∧
    issueLayout sample x.descriptor 1 .scalar ⟨4,(2,3)⟩ = .ok (qa,qb,decoder) ∧
    x.Answers sample qa ra ∧ y.Answers sample qb rb ∧ decoder.decode ra rb = .ok [7] := by
  let d : Descriptor := ⟨sample.sha256 (ascii "pllm/public-page-table/v1\x00"
    ++ leBytes 8 (BitVec.ofNat 64 3)++leBytes 8 (BitVec.ofNat 64 1)++[5,7,9]),3,1⟩
  have ha : Server.new sample [5,7,9] 1 0 = .ok ⟨d,.records [5,7,9],false,∅,∅⟩ := rfl
  have hb : Server.new sample [5,7,9] 1 1 = .ok ⟨d,.records [5,7,9],true,∅,∅⟩ := rfl
  obtain ⟨nodup,-,-,fresh,retrieve⟩ :=
    bound_contexts sample (twins_new sample ha hb) [1,2,1] [3,1]
  obtain ⟨x,hx⟩ := fresh 1 mem_cons_self (Finset.notMem_empty _) (by decide +kernel)
  have hy := (@Server.bindEach_spec sample ⟨d,.records [5,7,9],true,∅,∅⟩ [3,1]).2.2.2 1 (by simp)
    (Finset.notMem_empty _) (by decide +kernel)
  obtain ⟨-,-,issue⟩ := retrieve 1 x _ hx hy
  obtain ⟨qa,qb,decoder,issued,⟨ra,hra⟩,⟨rb,hrb⟩,decodes⟩ := issue .scalar ⟨4,(2,3)⟩ 1
    (show 1<3 by decide)
  exact ⟨_,_,x,_,qa,qb,decoder,ra,rb,ha,hb,nodup,hx,hy,issued,hra,hrb,decodes ra rb hra hrb⟩

end Pllm.Pages
