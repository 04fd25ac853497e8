import Pllm.Pages.PrivatePagesScan

/-! The replay ledger of one page server: a batch answers as its queries would one by one, a batch
that fails changes nothing, and no query identifier is ever answered twice. -/
namespace Pllm.Pages
open Pllm.Lib List

variable {α : Type*} {records count lane : ℕ} {bits : List Bool} {keys : List Key} {e : String}
  {queries : List (List Byte)}

lemma getD_slice (xs : List α) (d : α) (start : ℕ) {len k : ℕ} (hk : k<len) :
    (slice xs start len).getD k d = xs.getD (start+k) d := by
  simp [slice,getElem?_drop,hk]

lemma zipIdx_chunksExact (n : ℕ) (xs : List α) :
    (chunksExact n xs).zipIdx = (range (xs.length/n)).map fun i => (slice xs (n*i) n,i) := by
  apply ext_getElem
  · simp [chunksExact]
  · simp [chunksExact]

lemma foldl_set_lane (hlane : lane < count) (b : ℕ → Bool) {n : ℕ}
    (hn : n ≤ records) (hlen : bits.length=records*count) :
    let out := (range n).foldl (fun out r => out.set (r*count+lane) (b r)) bits
    out.length = records*count ∧ ∀ r < records, ∀ k < count, out.getD (r*count+k) false =
        if k=lane ∧ r<n then b r else bits.getD (r*count+k) false := by
  induction n with
  | zero => exact ⟨hlen,fun r _ k _ => by simp⟩
  | succ n ih =>
    obtain ⟨hout,hget⟩ := ih (by omega)
    have hcell : n*count+lane < records*count := mul_add_lt (by omega) hlane
    rw [range_succ,foldl_append,foldl_cons,foldl_nil]
    refine ⟨by rw [length_set,hout],fun r hr k hk => ?_⟩
    have hold := hget r hr k hk
    rw [getD_eq_getElem?_getD] at hold ⊢
    rw [getElem?_set]
    by_cases hsame : n*count+lane=r*count+k
    · obtain ⟨rfl,rfl⟩ := (mul_add_inj hlane hk).mp hsame
      simp [hout,hcell]
    · have hne : ¬(k=lane ∧ r=n) := by
        rintro ⟨rfl,rfl⟩
        exact hsame rfl
      rw [if_neg hsame,hold]
      have hiff : (k=lane ∧ r<n) ↔ (k=lane ∧ r<n+1) := by omega
      simp only [hiff]

section
variable {env : Platform}

variable (env) in
lemma fillBits_lane {key : Key} (domain : Block) (hrecs :
    key.descriptor.records=records) (hlane : lane < count) (hlen :
    bits.length=records*count) (hcle : ∀ r < records, bits.getD (r*count+lane) false = false) :
    let out := fillBits env key domain lane count key.words key.root key.party 0 0 bits
    out.length = records*count ∧ ∀ r < records, ∀ k < count, out.getD (r*count+k) false =
        if k=lane then key.selects env domain r else bits.getD (r*count+k) false := by
  have hout : fillBits env key domain lane count key.words key.root key.party 0 0 bits =
      (range (min records (2^key.words.length*key.layout.leafBits))).foldl (fun out r =>
        out.set (r*count+lane) (walk env key domain r key.words key.root key.party 0)) bits := by
    rw [fillBits,sweep_root,span,hrecs,Nat.sub_zero,← range_eq_range']
  obtain ⟨hl,hget⟩ := foldl_set_lane hlane (fun r => walk env key domain r key.words key.root
    key.party 0) (min_le_left records (2^key.words.length*key.layout.leafBits)) hlen
  dsimp only
  rw [hout]
  refine ⟨hl,fun r hr k hk => (hget r hr k hk).trans ?_⟩
  by_cases hkl : k=lane
  · subst hkl
    by_cases hrea : r<2^key.words.length*key.layout.leafBits
    · simp [Key.selects,hr,hrea]
    · simp [Key.selects,hrea,hcle r hr,-getD_eq_getElem?_getD]
  · simp [hkl]

namespace Server
variable {self : Server}

/-- The key's own selection bits under this server. -/
def selects (env : Platform) (self : Server) (key : Key) : ℕ → Bool :=
  key.selects env (domain env self.descriptor key.id key.layout)

variable (env) in
lemma fill_lanes (hd : ∀ key∈keys, key.descriptor=self.descriptor) {i count : ℕ} (hcnt :
    i+keys.length ≤ count) (hlen : bits.length=self.descriptor.records*count)
    (hcle : ∀ r < self.descriptor.records, ∀ k, i≤k → k < count →
      bits.getD (r*count+k) false = false) :
    let out := (keys.zipIdx i).foldl (fun bits (key,lane) =>
      fillBits env key (domain env self.descriptor key.id key.layout) lane count key.words key.root
        key.party 0 0 bits) bits
    out.length = self.descriptor.records*count ∧ ∀ r < self.descriptor.records, ∀ k < count,
      out.getD (r*count+k) false =
        if k < i then bits.getD (r*count+k) false
        else match keys[k-i]? with
          | some key => self.selects env key r
          | none => false := by
  induction keys generalizing i bits with
  | nil =>
    refine ⟨hlen,fun r hr k hk => ?_⟩
    by_cases hki : k < i
    · simp [hki]
    · simp [hki,hcle r hr k (by omega) hk,-getD_eq_getElem?_getD]
  | cons key keys ih =>
    rw [length_cons] at hcnt
    have hkey := hd key mem_cons_self
    obtain ⟨hl,hget⟩ := fillBits_lane env
      (domain env self.descriptor key.id key.layout) (congrArg Descriptor.records hkey)
      (show i < count by omega) hlen fun r hr => hcle r hr i le_rfl (by omega)
    obtain ⟨hl',hget'⟩ := ih (fun key' hmem => hd key' (mem_cons_of_mem _ hmem))
      (show i+1+keys.length ≤ count by omega) hl fun r hr k hik hk => by
        rw [hget r hr k hk,if_neg (by omega),hcle r hr k (by omega) hk]
    rw [zipIdx_cons,foldl_cons]
    refine ⟨hl',fun r hr k hk => (hget' r hr k hk).trans ?_⟩
    rw [hget r hr k hk]
    obtain hlt | rfl | hgt := lt_trichotomy k i
    · simp [hlt,ne_of_lt hlt,Nat.lt_succ_of_lt hlt]
    · simp [selects]
    · have hidx : k-i=(k-(i+1))+1 := by omega
      have hns : ¬k < i+1 := by omega
      simp [hns,Nat.not_lt_of_gt hgt,hidx]

variable (env) in
lemma selections_getD (hd : ∀ key∈keys, key.descriptor=self.descriptor) :
    (self.selections env keys).length = self.descriptor.records*keys.length ∧
      ∀ r < self.descriptor.records, ∀ k (hk : k<keys.length),
        (self.selections env keys).getD (r*keys.length+k) false = self.selects env keys[k] r := by
  have hcle : ∀ i, (replicate (self.descriptor.records*keys.length) false).getD i false =
      false := by simp
  obtain ⟨hlen,hget⟩ := fill_lanes env hd (zero_add keys.length).le length_replicate
    fun r _ k _ _ => hcle (r*keys.length+k)
  refine ⟨hlen,fun r hr k hk => (hget r hr k hk).trans ?_⟩
  simp [hk]

/-- A pass over all lanes at once is one pass for each lane. -/
lemma foldl_zipWith_getElem? {α β γ : Type*} (g : γ → β → α → α) (sel : γ → List β) (d : β)
    {k : ℕ} (xs : List γ) (hsel : ∀ x∈xs, k < (sel x).length) (outs : List α) :
    (xs.foldl (fun outs x => zipWith (fun out bit => g x bit out) outs (sel x)) outs)[k]? =
      outs[k]?.map fun out => xs.foldl (fun out x => g x ((sel x).getD k d) out) out := by
  induction xs generalizing outs with
  | nil => simp
  | cons x xs ih =>
    have hx := hsel x mem_cons_self
    rw [foldl_cons,ih fun y hy => hsel y (mem_cons_of_mem _ hy)]
    rw [getElem?_zipWith]
    cases hout : outs[k]? with
    | none => rfl
    | some out => simp [getD_eq_getElem?_getD,getElem?_eq_getElem hx]

/-- What an individual call answers to an admitted key. -/
def answer (env : Platform) (self : Server) (key : Key) : List Byte :=
  self.reply key (self.gather (self.selects env key) (List.replicate self.descriptor.width 0))

lemma batch_answers {keys : List Key} (hd : ∀ key∈keys, key.descriptor=self.descriptor) :
    zipWith self.reply keys (self.scan keys.length (self.selections env keys) (replicate keys.length
      (replicate self.descriptor.width 0))) = keys.map (self.answer env) := by
  obtain ⟨hlen,hget⟩ := selections_getD env hd
  apply ext_getElem?
  intro k
  by_cases hk : k<keys.length
  · have hrows : (self.selections env keys).length/keys.length=self.descriptor.records := by
      rw [hlen,Nat.mul_div_cancel _ (by omega)]
    have hout : (self.scan keys.length (self.selections env keys) (replicate keys.length
        (replicate self.descriptor.width 0)))[k]? = some (self.gather
          (self.selects env keys[k]) (replicate self.descriptor.width 0)) := by
      rw [scan,zipIdx_chunksExact,hrows,foldl_map]
      rw [foldl_zipWith_getElem? (fun row bit out =>
          self.data.xorRecord row self.descriptor.width (spread bit) out)
        (fun row => slice (self.selections env keys) (keys.length*row) keys.length) false]
      · rw [getElem?_replicate,if_pos hk,Option.map_some]
        congr 1
        apply foldl_ext
        intro out row hrow
        rw [getD_slice _ _ _ hk,mul_comm,hget row (mem_range.mp hrow) k hk]
      · intro row hrow
        rw [length_slice]
        · exact hk
        · have hle : keys.length*(row+1) ≤ keys.length*self.descriptor.records :=
            Nat.mul_le_mul_left _ (mem_range.mp hrow)
          rw [hlen,mul_comm self.descriptor.records]
          rwa [Nat.mul_succ] at hle
    rw [getElem?_zipWith,hout,getElem?_map,getElem?_eq_getElem hk]
    rfl
  · rw [getElem?_zipWith,getElem?_map,getElem?_eq_none (by omega)]
    rfl

variable {query : List Byte} {key : Key}

lemma admitKey_eq_ok (h : (self.admitKey query).1 = .ok key) : Key.decode query = .ok key ∧
    key.descriptor=self.descriptor ∧ key.party=self.party ∧ self.burned.card < maxQueries ∧ key.id ∉
    self.burned ∧ (self.admitKey query).2 = { self with burned := insert key.id self.burned } := by
  unfold admitKey at h ⊢
  cases hd : Key.decode query with
  | error e => simp [hd] at h
  | ok key' =>
    simp only [hd] at h ⊢
    split_ifs at h ⊢ with hsrc hled
    obtain rfl : key'=key := by simpa using h
    rw [not_or,not_not,not_not] at hsrc
    rw [not_or,not_le] at hled
    exact ⟨rfl,hsrc.1,hsrc.2,hled.1,hled.2,rfl⟩

lemma admitKey_ok (hd : Key.decode query = .ok key) (hdesc : key.descriptor=self.descriptor) (hpty
    : key.party=self.party) (hcard : self.burned.card < maxQueries) (hid : key.id ∉ self.burned) :
    self.admitKey query = (.ok key,{ self with burned := insert key.id self.burned }) := by
  have hled : ¬(self.burned.card≥maxQueries ∨ key.id∈self.burned) := by
    rw [not_or]
    exact ⟨not_le.mpr hcard,hid⟩
  simp [admitKey,hd,hdesc,hpty,hled]

lemma admitKey_error (h : (self.admitKey query).1 = .error e) : (self.admitKey query).2 = self := by
  unfold admitKey at h ⊢
  cases hd : Key.decode query with
  | error e => rfl
  | ok key' =>
    simp only [hd] at h ⊢
    split_ifs at h ⊢ with hsrc hled
    · rfl
    · rfl

lemma evaluate_eq (query : List Byte) : self.evaluate env query =
      ((self.admitKey query).1.map (self.answer env),(self.admitKey query).2) := by
  unfold evaluate
  cases hkey : (self.admitKey query).1 with
  | error e =>
    have hser := admitKey_error hkey
    rw [show self.admitKey query=(.error e,self) from Prod.ext hkey hser]
    rfl
  | ok key =>
    have hser := (admitKey_eq_ok hkey).2.2.2.2.2
    rw [show self.admitKey query=(.ok key,{ self with burned := insert key.id self.burned }) from
      Prod.ext hkey hser]
    simp only [visit_eq_gather]
    rfl

/-- Individual calls, one after another. -/
def evaluateEach (env : Platform) (self : Server) :
    List (List Byte) → List (Except String (List Byte)) × Server
  | [] => ([],self)
  | q::queries =>
    let first := self.evaluate env q
    let rest := evaluateEach env first.2 queries
    (first.1::rest.1,rest.2)

variable (env) in
/-- The batch's decoding loop foretells what individual calls answer. -/
lemma batchKeys_eq_ok {ids ids' : Finset Block}
    (h : self.batchKeys ids queries = .ok (keys,ids')) :
    keys.length=queries.length ∧ (∀ key∈keys, key.descriptor=self.descriptor) ∧
      (keys.map Key.id).Nodup ∧ (∀ key∈keys, key.id ∉ self.burned ∧ key.id ∉ ids) ∧
      ids' = ids ∪ (keys.map Key.id).toFinset ∧
      ((self.burned ∪ ids).card+queries.length ≤ maxQueries →
        ({ self with burned := self.burned ∪ ids } : Server).evaluateEach env queries =
          ((keys.map (self.answer env)).map .ok,{ self with burned := self.burned ∪ ids' })) := by
  induction queries generalizing ids keys with
  | nil =>
    simp only [batchKeys,ok_eq_ok,Prod.mk.injEq] at h
    obtain ⟨rfl,rfl⟩ := h
    exact ⟨rfl,by simp,by simp,by simp,by simp,fun _ => rfl⟩
  | cons q queries ih =>
    simp only [batchKeys,bind_eq_ok,ite_error_eq_ok,pure_eq_ok,ok_eq_ok,
      Prod.mk.injEq,not_or,not_not] at h
    obtain ⟨key,hdec,⟨hdesc,hpty,hbur,hids⟩,⟨keys',ids''⟩,hrest,rfl,rfl⟩ := h
    obtain ⟨hlen,hdes,hnd,hfrs,huni,heach⟩ := ih hrest
    have hsub : (insert key.id ids : Finset Block)=ids ∪ {key.id} := by
      rw [Finset.union_comm]
      rfl
    refine ⟨by simp [hlen],?_,?_,?_,?_,fun hcard => ?_⟩
    · simpa [hdesc] using hdes
    · rw [map_cons,nodup_cons]
      refine ⟨fun hmem => ?_,hnd⟩
      obtain ⟨key',hkey',heq⟩ := mem_map.mp hmem
      exact (hfrs key' hkey').2 (heq ▸ Finset.mem_insert_self _ _)
    · intro key' hkey'
      obtain rfl | hkey' := mem_cons.mp hkey'
      · exact ⟨hbur,hids⟩
      · exact ⟨(hfrs key' hkey').1,fun hmem =>
          (hfrs key' hkey').2 (Finset.mem_insert_of_mem hmem)⟩
    · rw [huni]
      ext id
      simp only [map_cons,toFinset_cons,Finset.mem_union,Finset.mem_insert]
      tauto
    · have hout : key.id ∉ self.burned ∪ ids := by simp [hbur,hids]
      have hins : insert key.id (self.burned ∪ ids)=self.burned ∪ insert key.id ids := by
        rw [Finset.union_insert]
      rw [length_cons] at hcard
      have hcard' : (self.burned ∪ insert key.id ids).card+queries.length ≤ maxQueries := by
        rw [← hins,Finset.card_insert_of_notMem hout]
        omega
      have hkeye : ({ self with burned := self.burned ∪ ids } : Server).admitKey q =
          (.ok key,{ self with burned := insert key.id (self.burned ∪ ids) }) :=
        admitKey_ok hdec hdesc hpty (show (self.burned ∪ ids).card < maxQueries by omega) hout
      rw [evaluateEach,evaluate_eq,hkeye]
      dsimp only
      rw [hins,heach hcard']
      rfl

lemma evaluateBatch_eq_ok {queries replies : List (List Byte)}
    (h : (self.evaluateBatch env queries).1 = .ok replies) :
    ∃ keys : List Key, replies = keys.map (self.answer env) ∧ (keys.map Key.id).Nodup ∧
      (∀ key∈keys, key.id ∉ self.burned) ∧
      (self.evaluateBatch env queries).2 =
        { self with burned := self.burned ∪ (keys.map Key.id).toFinset } ∧
      self.evaluateEach env queries = (replies.map .ok,(self.evaluateBatch env queries).2) := by
  unfold evaluateBatch at h ⊢
  split_ifs at h ⊢ with hbd
  cases hkeys : self.batchKeys ∅ queries with
  | error e => simp [hkeys] at h
  | ok result =>
    obtain ⟨keys,ids⟩ := result
    obtain ⟨hlen,hdes,hnd,hfrs,huni,heach⟩ := batchKeys_eq_ok env hkeys
    simp only [hkeys,ok_eq_ok] at h ⊢
    have hrep : replies=keys.map (self.answer env) := by
      rw [← h]
      exact @batch_answers env { self with burned := self.burned ∪ ids } keys hdes
    rw [Finset.empty_union] at huni
    refine ⟨keys,hrep,hnd,fun key hkey => (hfrs key hkey).1,by rw [huni],?_⟩
    rw [not_or,not_lt] at hbd
    rw [Finset.union_empty] at heach
    rw [hrep,← heach hbd.2]

lemma evaluateBatch_error (h : (self.evaluateBatch env
    queries).1 = .error e) : (self.evaluateBatch env queries).2 = self := by
  unfold evaluateBatch at h ⊢
  split_ifs at h ⊢ with hbd
  · rfl
  cases hkeys : self.batchKeys ∅ queries with
  | error e => rfl
  | ok result => simp [hkeys] at h

end Server

inductive Call
  | evaluate (query : List Byte)
  | evaluateBatch (queries : List (List Byte))
  | cancel (query : List Byte)

/-- The identifier in the header of a reply. -/
def replyId (reply : List Byte) : Block := ofLeBytes 128 (slice reply 49 16)

namespace Server

/-- The replies one call gives out, and the server after it. -/
def call (env : Platform) (self : Server) : Call → Except String (List (List Byte)) × Server
  | .evaluate query =>
    ((self.evaluate env query).1.map fun reply => [reply],(self.evaluate env query).2)
  | .evaluateBatch queries => self.evaluateBatch env queries
  | .cancel query => ((self.cancel query).1.map fun _ => [],(self.cancel query).2)

/-- All the replies a sequence of calls gives out. -/
def answered (env : Platform) (self : Server) : List Call → List (List Byte)
  | [] => []
  | c::calls => ((self.call env c).1.toOption.getD [])++answered env (self.call env c).2 calls

variable {self : Server}

@[simp] lemma replyId_reply (key : Key) (out : List Byte) :
    replyId (self.reply key out)=key.id := by
  have hmag : key.layout.replyMagic.length=8 := by
    cases key.layout <;> rfl
  have hsli : slice (self.reply key out) 49 16=leBytes 16 key.id := by
    simp [slice,reply,header,drop_append,drop_of_length_le,hmag]
  rw [replyId,hsli,ofLeBytes_leBytes _ (by decide)]

variable (env) in
lemma call_burns (self : Server) (c : Call) :
    let ids := ((self.call env c).1.toOption.getD []).map replyId
    ids.Nodup ∧ (∀ id∈ids, id ∉ self.burned) ∧ self.burned ⊆ (self.call env c).2.burned ∧
      ∀ id∈ids, id ∈ (self.call env c).2.burned := by
  have hkeye : ∀ query key, (self.admitKey query).1 = .ok key →
      (self.admitKey query).2.burned = insert key.id self.burned ∧ key.id ∉ self.burned :=
    fun query key h => by
      obtain ⟨-,-,-,-,hid,hser⟩ := admitKey_eq_ok h
      exact ⟨congrArg burned hser,hid⟩
  have href : ∀ query e, (self.admitKey query).1 = .error e →
      self.burned ⊆ (self.admitKey query).2.burned := fun query e h => by
    rw [admitKey_error h]
  cases c with
  | evaluate query =>
    simp only [call,evaluate_eq]
    cases hkey : (self.admitKey query).1 with
    | error e => simpa [Except.map,Except.toOption] using href query e hkey
    | ok key =>
      obtain ⟨hbur,hid⟩ := hkeye query key hkey
      simp [Except.map,Except.toOption,hbur,hid,answer]
  | cancel query =>
    simp only [call,cancel]
    cases hkey : (self.admitKey query).1 with
    | error e => simpa [Except.map,Except.toOption] using href query e hkey
    | ok key => simp [Except.map,Except.toOption,(hkeye query key hkey).1]
  | evaluateBatch queries =>
    simp only [call]
    cases hrep : (self.evaluateBatch env queries).1 with
    | error e =>
      rw [evaluateBatch_error hrep]
      simp [Except.toOption]
    | ok replies =>
      obtain ⟨keys,rfl,hnd,hfrs,hser,-⟩ := evaluateBatch_eq_ok hrep
      have hids : (keys.map (self.answer env)).map replyId=keys.map Key.id := by
        rw [map_map]
        apply map_congr_left
        intro key _
        exact replyId_reply _ _
      rw [hser]
      simp only [Except.toOption,Option.getD_some,hids]
      refine ⟨hnd,fun id hid => ?_,Finset.subset_union_left,fun id hid => ?_⟩
      · obtain ⟨key,hkey,rfl⟩ := mem_map.mp hid
        exact hfrs key hkey
      · exact Finset.mem_union_right _ (mem_toFinset.mpr hid)

lemma answered_nodup (calls : List Call) : ((self.answered env calls).map replyId).Nodup ∧
      ∀ reply ∈ self.answered env calls, replyId reply ∉ self.burned := by
  induction calls generalizing self with
  | nil => simp [answered]
  | cons c calls ih =>
    obtain ⟨hnd,hfrs,hmono,hburn⟩ := self.call_burns env c
    obtain ⟨hrest,hlat⟩ := @ih (self.call env c).2
    rw [answered,map_append,nodup_append]
    refine ⟨⟨hnd,hrest,?_⟩,?_⟩
    · rintro id hid id' hid' rfl
      obtain ⟨reply,hrepl,rfl⟩ := mem_map.mp hid'
      exact hlat reply hrepl (hburn _ hid)
    · intro reply hrepl
      obtain hrepl | hrepl := mem_append.mp hrepl
      · exact hfrs _ (mem_map_of_mem hrepl)
      · exact fun hmem => hlat reply hrepl (hmono hmem)

end Server

/-- Over any calls no identifier is answered twice or after it was burned; a batch that fails leaves
the server as it was; a batch that succeeds answers as its queries would one after another. -/
theorem page_ledger (env : Platform) (self : Server) :
    (∀ calls, ((self.answered env calls).map replyId).Nodup ∧
      ∀ reply ∈ self.answered env calls, replyId reply ∉ self.burned) ∧
    (∀ queries e, (self.evaluateBatch env queries).1 = .error e →
      (self.evaluateBatch env queries).2 = self) ∧
    ∀ queries replies, (self.evaluateBatch env queries).1 = .ok replies →
      self.evaluateEach env queries = (replies.map .ok,(self.evaluateBatch env queries).2) := by
  refine ⟨Server.answered_nodup,fun queries e h => Server.evaluateBatch_error h,
    fun queries replies h => ?_⟩
  obtain ⟨-,-,-,-,-,heach⟩ := Server.evaluateBatch_eq_ok h
  exact heach

end

/-- A small platform on which runs can be evaluated. -/
def sample : Platform := ⟨fun key block => key+block,fun bytes => BitVec.ofNat 256 bytes.length⟩

/-- A batch of two queries to a table of one record, and a batch with a replay. -/
theorem page_ledger_at :
    let server : Server := ⟨⟨9,1,1⟩,.records [7],false,∅,∅⟩
    let query (id : Block) := (⟨.scalar,⟨9,1,1⟩,id,false,3,[],1⟩ : Key).encode
    let after := (server.evaluateBatch sample [query 4,query 5]).2
    (∃ replies, (server.evaluateBatch sample [query 4,query 5]).1 = .ok replies ∧
      (server.evaluateEach sample [query 4,query 5]).1 = replies.map .ok) ∧
    (after.evaluateBatch sample [query 6,query 5]).1.isOk = false ∧
    (after.evaluateBatch sample [query 6,query 5]).2 = after ∧
    ((server.answered sample [.evaluateBatch [query 4,query 5],.evaluate (query 5)]).map
      replyId).Nodup := by
  intro server query after
  obtain ⟨once,-,hok⟩ := page_ledger sample server
  have hsome : (server.evaluateBatch sample [query 4,query 5]).1.toOption.isSome := by
    decide +kernel
  obtain ⟨replies,hrep⟩ := isSome_toOption.mp hsome
  have refused : (after.evaluateBatch sample [query 6,query 5]).1.isOk=false := by
    decide +kernel
  refine ⟨⟨replies,hrep,congrArg Prod.fst (hok _ replies hrep)⟩,refused,?_,(once _).1⟩
  have fails := (page_ledger sample after).2.1 [query 6,query 5]
  generalize (after.evaluateBatch sample [query 6,query 5]).1=result at refused fails
  cases result with
  | ok _ => cases refused
  | error e => exact fails e rfl

end Pllm.Pages
