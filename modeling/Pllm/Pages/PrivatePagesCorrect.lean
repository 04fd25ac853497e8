import Pllm.Pages.PrivatePagesLedger

/-! Retrieval end to end: an issued query is read back by both servers, and their two replies
decode to the selected record. -/
namespace Pllm.Pages
open Pllm.Lib List Descriptor

/-- The record at `index`, as the table stores it. -/
def Table.record (self : Table) (index width : ℕ) : List Byte :=
  match self with
  | records data => slice data (index*width) width
  | vocabulary matrix scales =>
    slice matrix (index*(width-4)) (width-4)++slice scales (index*4) 4

/-- The table holds every record of its descriptor. -/
def Table.Shaped (self : Table) (d : Descriptor) : Prop :=
  match self with
  | records data => data.length=d.records*d.width
  | vocabulary matrix scales =>
    4≤d.width ∧ matrix.length=d.records*(d.width-4) ∧ scales.length=d.records*4

@[simp] lemma length_xorInto (mask : Byte) (out values : List Byte) :
    (xorInto mask out values).length = out.length := by
  induction out generalizing values with
  | nil => cases values <;> rfl
  | cons d ds ih =>
    cases values with
    | nil => rfl
    | cons v vs => simp [xorInto,ih]

variable {x y query reply : List Byte} {n index : ℕ} {d : Descriptor} {a b : Server}

lemma zipWith_xorInto (a b : Bool) (h : x.length=y.length) (values : List Byte) :
    zipWith (fun p q => p ^^^ q) (xorInto (spread a) x values) (xorInto (spread b) y values) =
      xorInto (spread (a ^^ b)) (zipWith (fun p q => p ^^^ q) x y) values := by
  induction x generalizing y values with
  | nil => cases values <;> simp [xorInto]
  | cons p x ih =>
    cases y with
    | nil => cases h
    | cons q y =>
      cases values with
      | nil => rfl
      | cons v vs =>
        have hlen : x.length=y.length := by simpa using h
        rw [xorInto,xorInto,zipWith_cons_cons,zipWith_cons_cons,ih hlen]
        congr 1
        cases a <;> cases b <;> simp [xor_left_comm,BitVec.xor_comm]

lemma xorInto_ones {values : List Byte} (h : values.length=n) :
    xorInto (spread true) (replicate n 0) values = values := by
  induction values generalizing n with
  | nil =>
    obtain rfl : 0=n := h
    rfl
  | cons v vs ih =>
    obtain _ | n := n
    · cases h
    · rw [replicate_succ,xorInto,ih (by simpa using h)]
      simp

namespace Table
variable (self : Table)

@[simp] lemma length_xorRecord (index width : ℕ) (mask : Byte) (out : List Byte) :
    (self.xorRecord index width mask out).length = out.length := by
  cases self with
  | records data => exact length_xorInto _ _ _
  | vocabulary matrix scales =>
    simp only [xorRecord,length_append,length_xorInto]
    rw [← length_append,take_append_drop]

lemma zipWith_xorRecord (index width : ℕ) (a b : Bool) (h : x.length=y.length) : zipWith (fun p q =>
    p ^^^ q) (self.xorRecord index width (spread a) x) (self.xorRecord index width (spread b) y) =
    self.xorRecord index width (spread (a ^^ b)) (zipWith (fun p q => p ^^^ q) x y) := by
  cases self with
  | records data => exact zipWith_xorInto a b h _
  | vocabulary matrix scales =>
    simp only [xorRecord]
    rw [zipWith_append (by simp [h]),zipWith_xorInto _ _ (by simp [h]),
      zipWith_xorInto _ _ (by simp [h]),take_zipWith,drop_zipWith]

lemma xorRecord_ones (h : self.Shaped d) (hi : index<d.records) : self.xorRecord index d.width
    (spread true) (replicate d.width 0) = self.record index d.width := by
  have hfit : ∀ n, index*n+n≤d.records*n := fun n => by
    have hle : (index+1)*n≤d.records*n := Nat.mul_le_mul_right n hi
    rwa [add_mul,one_mul] at hle
  cases self with
  | records data =>
    have hlen : data.length=d.records*d.width := h
    exact xorInto_ones (length_slice (hlen ▸ hfit d.width))
  | vocabulary matrix scales =>
    obtain ⟨hwd,hmat,hsca⟩ := h
    have htake : (replicate d.width (0 : Byte)).take (d.width-4)=replicate (d.width-4) 0 := by
      rw [take_replicate,min_eq_left (by omega)]
    have hdrop : (replicate d.width (0 : Byte)).drop (d.width-4)=replicate 4 0 := by
      rw [drop_replicate,show d.width-(d.width-4)=4 by omega]
    rw [xorRecord,htake,hdrop,xorInto_ones (length_slice (hmat ▸ hfit (d.width-4))),
      xorInto_ones (length_slice (hsca ▸ hfit 4)),record]

end Table

lemma foldl_range_single {α : Type*} {f : α → ℕ → α} (hi : index<n)
    (h : ∀ a, ∀ r, r≠index → f a r = a) (a : α) : (range n).foldl f a = f a index := by
  obtain ⟨k,rfl⟩ := Nat.exists_eq_add_of_lt hi
  have hbef : ∀ b, (range index).foldl f b=b :=
    foldl_eq_self fun b r hr => h b r (mem_range.mp hr).ne
  have haft : ∀ b, (range' (index+1) k).foldl f b=b :=
    foldl_eq_self fun b r hr => h b r (by have := mem_range'_1.mp hr; omega)
  rw [range_eq_range',show index+k+1=index+(1+k) by omega,← range'_append_1,←
    range'_append_1,foldl_append,foldl_append,zero_add,← range_eq_range',hbef,haft]
  rfl

/-- Two servers of one table, one for each party. -/
structure Twins (a b : Server) : Prop where
  valid : a.descriptor.validate = .ok a.descriptor
  shaped : a.data.Shaped a.descriptor
  descriptor : b.descriptor=a.descriptor
  data : b.data=a.data
  left : a.party=false
  right : b.party=true

namespace Server
variable {self : Server}

@[simp] lemma length_gather (select : ℕ → Bool) (out : List Byte) :
    (self.gather select out).length = out.length := by
  unfold gather
  induction range self.descriptor.records generalizing out with
  | nil => rfl
  | cons r rs ih => rw [foldl_cons,ih,Table.length_xorRecord]

lemma zipWith_gather (s t : ℕ → Bool) (h : x.length=y.length) :
    zipWith (fun p q => p ^^^ q) (self.gather s x) (self.gather t y) =
      self.gather (fun r => s r ^^ t r) (zipWith (fun p q => p ^^^ q) x y) := by
  unfold gather
  induction range self.descriptor.records generalizing x y with
  | nil => rfl
  | cons r rs ih =>
    rw [foldl_cons,foldl_cons,foldl_cons,
      ih (by rw [Table.length_xorRecord,Table.length_xorRecord,h]),Table.zipWith_xorRecord _ _ _ _ _ h]

lemma gather_congr {s t : ℕ → Bool} (h : ∀ r < self.descriptor.records, s r = t r)
    (out : List Byte) : self.gather s out = self.gather t out := by
  apply foldl_ext
  intro out r hr
  rw [h r (mem_range.mp hr)]

lemma gather_single (hsha : self.data.Shaped self.descriptor)
    (hi : index < self.descriptor.records) : self.gather (fun r => decide (r=index))
    (replicate self.descriptor.width 0) = self.data.record index self.descriptor.width := by
  rw [gather,foldl_range_single hi,decide_eq_true rfl,Table.xorRecord_ones _ hsha hi]
  intro out r hr
  rw [decide_eq_false hr]
  exact Table.xorRecord_zero _ _ _ _

end Server

/-- The two answers to an issued pair are accepted and decode to the record. -/
lemma decode_answers (env : Platform) (h : Twins a b) (layout : Layout)
    (random : Random) (hi : index<a.descriptor.records) :
    (Decoder.mk layout a.descriptor random.id).decode
        (a.answer env (issuedKey env a.descriptor index layout random false))
        (b.answer env (issuedKey env a.descriptor index layout random true)) =
      .ok (a.data.record index a.descriptor.width) := by
  have hhdr : ∀ party, (header layout.replyMagic a.descriptor random.id party).length =
      headerBytes := fun party => by
    cases layout <;> simp [header,headerBytes] <;> rfl
  have hleft : a.answer env (issuedKey env a.descriptor index layout random false) =
      header layout.replyMagic a.descriptor random.id false++a.gather (a.selects env (issuedKey
        env a.descriptor index layout random false)) (replicate a.descriptor.width 0) := by
    rw [Server.answer,Server.reply,h.left]
    rfl
  have hrt : b.answer env (issuedKey env a.descriptor index layout random true) =
      header layout.replyMagic a.descriptor random.id true++a.gather (a.selects env (issuedKey env
        a.descriptor index layout random true)) (replicate a.descriptor.width 0) := by
    rw [Server.answer,Server.reply,h.right,Server.gather,Server.selects,h.descriptor,h.data]
    rfl
  have hacc : ∀ party out, out.length=a.descriptor.width →
      (Decoder.mk layout a.descriptor random.id).accepts party
        (header layout.replyMagic a.descriptor random.id party++out)=true := by
    intro party out hout
    simp [Decoder.accepts,hhdr,hout]
  rw [hleft,hrt,Decoder.decode,hacc _ _ (by simp),hacc _ _ (by simp)]
  rw [← hhdr false,drop_left,hhdr false,← hhdr true,drop_left, Server.zipWith_gather _ _ rfl]
  simp only [not_true_eq_false,or_self,if_false,ok_eq_ok]
  have hzer : zipWith (fun p q : Byte => p ^^^ q) (replicate a.descriptor.width 0)
      (replicate a.descriptor.width 0) = replicate a.descriptor.width 0 := by
    rw [zipWith_replicate,min_self]
    rfl
  rw [hzer,← Server.gather_single h.shaped hi]
  exact Server.gather_congr (fun r hr => selects_xor env a.descriptor layout random hi hr) _

/-- What the wire format can carry. -/
structure Key.WellFormed (key : Key) : Prop where
  valid : key.descriptor.validate = .ok key.descriptor
  depth : key.words.length = key.descriptor.depth key.layout
  controls : ∀ word∈key.words, word.controls &&& ~~~(3 : Byte)=0
  finalWord : key.layout = .scalar → key.finalWord.toNat<2

namespace Key
variable {self : Key}

def wordBytes (word : Correction) : List Byte := leBytes 16 word.seed++[word.controls]

lemma encode_eq : self.encode = self.layout.queryMagic++([if self.party then 1 else 0] ++
    (leBytes 4 (BitVec.ofNat 32 self.descriptor.records) ++
      (leBytes 4 (BitVec.ofNat 32 self.descriptor.width)++(leBytes 32 self.descriptor.digest ++
        (leBytes 16 self.id++(leBytes 16 self.root++(self.words.flatMap wordBytes ++
          leBytes self.layout.finalBytes self.finalWord))))))) := by
  simp only [encode,header,append_assoc]
  rfl

lemma length_queryMagic (layout : Layout) : layout.queryMagic.length=8 := by
  cases layout <;> rfl

lemma length_wordBytes (word : Correction) : (wordBytes word).length = 17 := by
  simp [wordBytes]

lemma length_encode :
    self.encode.length = headerBytes+16+17*self.words.length+self.layout.finalBytes := by
  have hwds := length_flatMap_const self.words fun word _ => length_wordBytes word
  rw [encode_eq]
  simp only [length_append,length_queryMagic,length_leBytes,length_singleton,hwds,headerBytes]
  omega

lemma decodeWord_wordBytes {word : Correction} (h : word.controls &&& ~~~(3 : Byte)=0) :
    decodeWord (wordBytes word) = .ok word := by
  have hget : (wordBytes word).getD 16 0=word.controls := by
    simp [wordBytes]
  have htake : (wordBytes word).take 16=leBytes 16 word.seed := by
    simp [wordBytes]
  rw [decodeWord,hget,htake,ofLeBytes_leBytes _ (by decide),if_neg (not_not_intro h)]

lemma decodeLayout_encode : decodeLayout self.encode = .ok self.layout := by
  have htake : self.encode.take 8=self.layout.queryMagic := by
    rw [encode_eq]
    exact take_left' (length_queryMagic _)
  rw [decodeLayout,htake]
  cases self.layout <;> rfl

lemma finalBytes_pos (layout : Layout) : 0<layout.finalBytes := by
  cases layout <;> decide

lemma decode_encode (h : self.WellFormed) : decode self.encode = .ok self := by
  have hmag := length_queryMagic self.layout
  have hlen := self.length_encode
  have hpos := finalBytes_pos self.layout
  have hwds := length_flatMap_const self.words fun word _ => length_wordBytes word
  have hpty : self.encode.getD 8 0=if self.party then 1 else 0 := by
    rw [encode_eq]
    simp [hmag]
  have hrecs : slice self.encode 9 4=leBytes 4 (BitVec.ofNat 32 self.descriptor.records) := by
    rw [encode_eq]
    simp [slice,drop_append,drop_of_length_le,hmag]
  have hwd : slice self.encode 13 4=leBytes 4 (BitVec.ofNat 32 self.descriptor.width) := by
    rw [encode_eq]
    simp [slice,drop_append,drop_of_length_le,hmag]
  have hdig : slice self.encode 17 32=leBytes 32 self.descriptor.digest := by
    rw [encode_eq]
    simp [slice,drop_append,drop_of_length_le,hmag]
  have hid : slice self.encode 49 16=leBytes 16 self.id := by
    rw [encode_eq]
    simp [slice,drop_append,drop_of_length_le,hmag]
  have hroot : slice self.encode headerBytes 16=leBytes 16 self.root := by
    rw [encode_eq]
    simp [slice,drop_append,drop_of_length_le,hmag,headerBytes]
  have hrest : self.encode.drop (headerBytes+16) =
      self.words.flatMap wordBytes++leBytes self.layout.finalBytes self.finalWord := by
    rw [encode_eq]
    simp [drop_append,drop_of_length_le,hmag,headerBytes]
  have hbody : slice self.encode (headerBytes+16)
      (self.encode.length-self.layout.finalBytes-(headerBytes+16)) =
        self.words.flatMap wordBytes := by
    rw [slice,hrest]
    exact take_left' (by omega)
  have hfin : self.encode.drop (self.encode.length-self.layout.finalBytes) =
      leBytes self.layout.finalBytes self.finalWord := by
    rw [show self.encode.length-self.layout.finalBytes=headerBytes+16+17*self.words.length by
      omega,← drop_drop,hrest]
    exact drop_left' hwds
  have hword : (chunksExact 17 (self.words.flatMap wordBytes)).mapM decodeWord = .ok self.words := by
    rw [chunksExact_flatMap (by decide) _ fun word _ => length_wordBytes word, mapM_eq_ok,
      forall₂_map_left_iff, forall₂_same]
    exact fun word hw => decodeWord_wordBytes (h.controls word hw)
  have hfits : self.finalWord.toNat < 2^(8*self.layout.finalBytes) := by
    have hscl := h.finalWord
    revert hscl
    cases self.layout with
    | scalar => exact fun hlt => (hlt rfl).trans (by decide)
    | packed128 => exact fun _ => self.finalWord.isLt
  have hdes : (⟨self.descriptor.digest,(BitVec.ofNat 32 self.descriptor.records).toNat,
      (BitVec.ofNat 32 self.descriptor.width).toNat⟩ : Descriptor)=self.descriptor := by
    have hvld := h.valid
    rw [validate,ite_error_eq_ok] at hvld
    rw [BitVec.toNat_ofNat,BitVec.toNat_ofNat,Nat.mod_eq_of_lt (by omega),
      Nat.mod_eq_of_lt (by omega)]
  have hlast : ¬(self.layout = .scalar ∧ self.encode.getLastD 0>1) := by
    rintro ⟨hscl,hgt⟩
    have hbyt : leBytes self.layout.finalBytes self.finalWord =
        [self.finalWord.extractLsb' 0 8] := by
      rw [hscl]
      rfl
    have hlt := h.finalWord hscl
    rw [encode_eq,hbyt] at hgt
    simp only [← append_assoc,getLastD_concat,gt_iff_lt,BitVec.lt_def,
      BitVec.extractLsb'_toNat,Nat.shiftRight_zero,show (1 : Byte).toNat = 1 from rfl] at hgt
    omega
  have hfst : ¬(self.encode.length<headerBytes+17 ∨ self.encode.getD 8 0>1) := by
    rw [not_or,hpty]
    refine ⟨by omega,?_⟩
    cases self.party <;> decide
  have hsize : ¬(self.encode.length ≠ headerBytes+16+self.layout.finalBytes
      +17*self.descriptor.depth self.layout ∨
        self.layout = .scalar ∧ self.encode.getLastD 0>1) := by
    rw [not_or]
    exact ⟨by rw [← h.depth]; omega,hlast⟩
  have hflag : (self.encode.getD 8 0==1)=self.party := by
    rw [hpty]
    cases self.party <;> rfl
  rw [decode,if_neg hfst,decodeLayout_encode,ok_bind,hrecs,hwd,hdig,
    ofLeBytes_leBytes _ (by decide),ofLeBytes_leBytes _ (by decide),
    ofLeBytes_leBytes _ (by decide),hdes,h.valid,ok_bind]
  rw [if_neg hsize,hbody,hword,ok_bind,hid,hroot,hfin,hflag,ofLeBytes_leBytes _ (by
    decide),ofLeBytes_leBytes _ (by decide),ofLeBytes_leBytes_of_lt hfits]
  rfl

end Key

lemma packControls_canonical (left right : Bool) : packControls left right &&& ~~~(3 : Byte)=0 := by
  cases left <;> cases right <;> rfl

lemma issueLevels_canonical (env : Platform) (domain : Block) (address n level : ℕ) (s : Issuing) :
    ∀ word ∈ (issueLevels env domain address n level s).1, word.controls &&& ~~~(3 : Byte)=0 := by
  induction n generalizing level s with
  | zero => simp [issueLevels]
  | succ n ih =>
    intro word hword
    obtain rfl | hword := mem_cons.mp hword
    · exact packControls_canonical _ _
    · exact ih _ _ word hword

lemma issuedKey_wellFormed (env : Platform) (hd : d.validate = .ok d) (index : ℕ) (layout : Layout)
    (random : Random) (party : Bool) : (issuedKey env d index layout random party).WellFormed where
  valid := hd
  depth := length_issueLevels _ _ _ _ _ _
  controls := issueLevels_canonical _ _ _ _ _ _
  finalWord := by
    rintro rfl
    have hmask : ∀ x y : Block, ((x &&& 1) ^^^ (y &&& 1) ^^^ 1).toNat < 2 := by
      intro x y
      have hand : (x &&& 1) ^^^ (y &&& 1) ^^^ 1=(x ^^^ y ^^^ 1) &&& 1 := by
        ext i
        simp only [BitVec.getElem_xor,BitVec.getElem_and]
        cases (1 : Block)[i] <;> simp
      rw [hand]
      exact lt_of_le_of_lt Nat.and_le_right (by decide)
    simpa [issuedKey,leaf,Layout.leafBits,Nat.mod_one] using hmask _ _

lemma issueLayout_eq (env : Platform) (hd : d.validate = .ok d) (layout : Layout)
    (random : Random) (hi : index<d.records) :
    issueLayout env d index layout random = .ok ((issuedKey env d index layout random false).encode,
        (issuedKey env d index layout random true).encode,⟨layout,d,random.id⟩) := by
  rw [issueLayout,hd,ok_bind,if_neg (not_le.mpr hi)]
  rfl

namespace Server
variable {env : Platform} {self : Server}

lemma evaluate_eq_ok (h : (self.evaluate env query).1 = .ok reply) :
    ∃ key, Key.decode query = .ok key ∧ reply = self.answer env key := by
  rw [evaluate_eq] at h
  cases hkey : (self.admitKey query).1 with
  | error e =>
    rw [hkey] at h
    cases h
  | ok key =>
    rw [hkey] at h
    have hrep : self.answer env key=reply := by simpa [Except.map] using h
    exact ⟨key,(admitKey_eq_ok hkey).1,hrep.symm⟩

lemma evaluate_server (env : Platform) (self : Server) (query : List Byte) :
    ∃ burned, (self.evaluate env query).2 = { self with burned := burned } := by
  rw [evaluate_eq]
  cases hkey : (self.admitKey query).1 with
  | error e => exact ⟨self.burned,admitKey_error hkey⟩
  | ok key => exact ⟨_,(admitKey_eq_ok hkey).2.2.2.2.2⟩

lemma evaluateEach_getElem? (env : Platform) (self : Server) {queries : List (List Byte)}
    {k : ℕ} (h : queries[k]? = some query) : ∃ burned, (self.evaluateEach env queries).1[k]? = some
    (({ self with burned := burned } : Server).evaluate env query).1 := by
  induction queries generalizing self k with
  | nil => simp at h
  | cons q queries ih =>
    cases k with
    | zero =>
      obtain rfl : q=query := by simpa using h
      exact ⟨self.burned,rfl⟩
    | succ k =>
      obtain ⟨burned,hser⟩ := evaluate_server env self q
      obtain ⟨burned',hk⟩ := @ih (self.evaluate env q).2 k (by simpa using h)
      rw [hser] at hk
      refine ⟨burned',?_⟩
      rw [evaluateEach,hser]
      exact hk

/-- A server's reply to a query, called alone or in a batch. -/
def Answers (env : Platform) (self : Server) (query reply : List Byte) : Prop :=
  (self.evaluate env query).1 = .ok reply ∨
    ∃ (queries replies : List (List Byte)) (k : ℕ),
      (self.evaluateBatch env queries).1 = .ok replies ∧
      queries[k]? = some query ∧ replies[k]? = some reply

lemma Answers.answer_eq {key : Key} (h : self.Answers env query reply)
    (hkey : Key.decode query = .ok key) : reply = self.answer env key := by
  have halo : ∀ burned, (({ self with burned := burned } : Server).evaluate env query).1 =
      .ok reply → reply = self.answer env key := by
    intro burned heval
    obtain ⟨key',hkey',hrep⟩ := evaluate_eq_ok heval
    obtain rfl : key=key' := by simpa [hkey] using hkey'
    exact hrep
  obtain heval | ⟨queries,replies,k,hbat,hque,hrep⟩ := h
  · exact halo self.burned heval
  · obtain ⟨-,-,-,-,-,heach⟩ := evaluateBatch_eq_ok hbat
    obtain ⟨burned,hk⟩ := evaluateEach_getElem? env self hque
    rw [heach,getElem?_map,hrep,Option.map_some,Option.some.injEq] at hk
    exact halo burned hk.symm

end Server

lemma twins_new (env : Platform) {data : List Byte} {width : ℕ} (ha : Server.new
    env data width 0 = .ok a) (hb : Server.new env data width 1 = .ok b) : Twins a b := by
  simp only [Server.new,bind_eq_ok,ite_error_eq_ok,pure_eq_ok,ok_eq_ok] at ha hb
  obtain ⟨hgrd,d,hd,rfl⟩ := ha
  obtain ⟨-,d',hd',rfl⟩ := hb
  obtain rfl : d=d' := ok_inj (hd.symm.trans hd')
  have hvld := hd
  simp only [validate,ite_error_eq_ok,ok_eq_ok] at hvld
  obtain ⟨hrng,rfl⟩ := hvld
  rw [not_or,not_or,not_not] at hgrd
  refine ⟨?_,?_,rfl,rfl,rfl,rfl⟩
  · simpa only [validate,ite_error_eq_ok,and_true] using hrng
  · exact (Nat.div_mul_cancel (Nat.dvd_of_mod_eq_zero hgrd.2.1)).symm

lemma Twins.retrieve (env : Platform) {a b : Server} (h : Twins a b) (layout : Layout)
    (random : Random) {index : ℕ} (hi : index<a.descriptor.records) : ∃ qa qb decoder, issueLayout
    env a.descriptor index layout random = .ok (qa,qb,decoder) ∧ (∀ ra rb, a.Answers env qa ra →
    b.Answers env qb rb → decoder.decode ra rb = .ok (a.data.record index a.descriptor.width)) ∧
    (random.id ∉ a.burned → a.burned.card < maxQueries → ∃ ra, a.Answers env qa ra) ∧
    (random.id ∉ b.burned → b.burned.card < maxQueries → ∃ rb, b.Answers env qb rb) := by
  have hdec := fun party =>
    Key.decode_encode (issuedKey_wellFormed env h.valid index layout random party)
  have hfrs : ∀ (server : Server) (party : Bool), server.descriptor=a.descriptor → server.party=party →
      random.id ∉ server.burned → server.burned.card < maxQueries →
      ∃ reply, server.Answers env (issuedKey env a.descriptor index layout random party).encode
        reply := by
    intro server party hd hp hid hcard
    have hkeye := Server.admitKey_ok (hdec party) hd.symm hp.symm hcard hid
    refine ⟨server.answer env (issuedKey env a.descriptor index layout random party),.inl ?_⟩
    rw [Server.evaluate_eq,hkeye]
    rfl
  refine ⟨_,_,_,issueLayout_eq env h.valid layout random hi,fun ra rb ha hb => ?_,
    hfrs a false rfl h.left,hfrs b true h.descriptor h.right⟩
  rw [ha.answer_eq (hdec false),hb.answer_eq (hdec true)]
  exact decode_answers env h layout random hi

/-- Any two replies to the pair issued for a record are accepted and XOR to the record, and fresh
servers do reply. -/
theorem page_retrieval (env : Platform) {a b : Server} (h : Twins a b) (layout : Layout)
    (random : Random) {index : ℕ} (hi : index<a.descriptor.records) : ∃ qa qb decoder, issueLayout
    env a.descriptor index layout random = .ok (qa,qb,decoder) ∧ (∀ ra rb, a.Answers env qa ra →
    b.Answers env qb rb → decoder.decode ra rb = .ok (a.data.record index a.descriptor.width)) ∧
    (random.id ∉ a.burned → a.burned.card < maxQueries → ∃ ra, a.Answers env qa ra) ∧
    (random.id ∉ b.burned → b.burned.card < maxQueries → ∃ rb, b.Answers env qb rb) :=
  h.retrieve env layout random hi

/-- The second of three one-byte records. -/
theorem page_retrieval_at :
    ∃ a b qa qb decoder ra rb, Server.new sample [5,7,9] 1 0 = .ok a ∧ Server.new sample [5,7,9] 1 1
      = .ok b ∧ issuePacked sample a.descriptor 1 ⟨4,(2,3)⟩ = .ok (qa,qb,decoder) ∧ a.Answers sample
      qa ra ∧ b.Answers sample qb rb ∧ decoder.decode ra rb = .ok [7] := by
  let d : Descriptor := ⟨sample.sha256 (ascii "pllm/public-page-table/v1\x00"
    ++ leBytes 8 (BitVec.ofNat 64 3)++leBytes 8 (BitVec.ofNat 64 1)++[5,7,9]),3,1⟩
  have ha : Server.new sample [5,7,9] 1 0 = .ok ⟨d,.records [5,7,9],false,∅,∅⟩ := rfl
  have hb : Server.new sample [5,7,9] 1 1 = .ok ⟨d,.records [5,7,9],true,∅,∅⟩ := rfl
  obtain ⟨qa,qb,decoder,hisu,hdec,hleft,hrt⟩ :=
    page_retrieval sample (twins_new sample ha hb) .packed128 ⟨4,(2,3)⟩ (show 1 < 3 by decide)
  obtain ⟨ra,hra⟩ := hleft (Finset.notMem_empty _) (by decide)
  obtain ⟨rb,hrb⟩ := hrt (Finset.notMem_empty _) (by decide)
  exact ⟨_,_,qa,qb,decoder,ra,rb,ha,hb,hisu,hra,hrb,hdec ra rb hra hrb⟩

end Pllm.Pages
