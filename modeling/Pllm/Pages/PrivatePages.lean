import Pllm.Common.Slices
import Pllm.Lib.Except

/-! Retrieval of one record of a public table from two servers: issuing a query pair, each server's
streaming scan and replay ledger, and the decoder of the two replies. -/
namespace Pllm.Pages
open Pllm.Lib

def queryMagic : List Byte := ascii "PLLMPQ01"
def replyMagic : List Byte := ascii "PLLMPR01"
def packedQueryMagic : List Byte := ascii "PLLMPQ02"
def packedReplyMagic : List Byte := ascii "PLLMPR02"
def headerBytes : ℕ := 65
def maxQueries : ℕ := 4096

/-- AES-128 and SHA-256. -/
structure Platform where
  aes : Block → Block → Block
  sha256 : List Byte → BitVec 256

inductive Layout
  | scalar
  | packed128
  deriving DecidableEq

namespace Layout

def leafBits : Layout → ℕ
  | scalar => 1
  | packed128 => 128

def finalBytes (self : Layout) : ℕ := (self.leafBits+7)/8

def queryMagic : Layout → List Byte
  | scalar => Pages.queryMagic
  | packed128 => packedQueryMagic

def replyMagic : Layout → List Byte
  | scalar => Pages.replyMagic
  | packed128 => packedReplyMagic

end Layout

structure Descriptor where
  digest : BitVec 256
  records : ℕ
  width : ℕ
  deriving DecidableEq

/-- The number of bits of a word up to its highest set one. -/
def bitLength (n : ℕ) : ℕ := if n=0 then 0 else n.log2+1

namespace Descriptor

def validate (self : Descriptor) : Except String Descriptor :=
  if ¬(1 ≤ self.records ∧ self.records≤262144) ∨ ¬(1 ≤ self.width ∧ self.width≤65536)
      ∨ self.records*self.width>512*1024*1024 then
    .error "private page dimensions exceed bounded table policy"
  else .ok self

def depth (self : Descriptor) (layout : Layout) : ℕ :=
  bitLength ((self.records+layout.leafBits-1)/layout.leafBits-1)

end Descriptor

structure Correction where
  seed : Block
  controls : Byte

/-- The control bits of the two children in one byte. -/
def packControls (left right : Bool) : Byte :=
  (BitVec.ofBool left).setWidth 8 ||| (BitVec.ofBool right).setWidth 8 <<< 1

structure Key where
  layout : Layout
  descriptor : Descriptor
  id : Block
  party : Bool
  root : Block
  words : List Correction
  finalWord : Block

/-- The public input block of the query's generator. -/
def domain (env : Platform) (descriptor : Descriptor) (id : Block) (layout : Layout) : Block :=
  let label := match layout with
    | .scalar => ascii "pllm/private-page-dpf/aes128/v1\x00"
    | .packed128 => ascii "pllm/private-page-dpf/aes128/v2\x00"
  (env.sha256 (label++leBytes 32 descriptor.digest++leBytes 16 id
    ++ leBytes 8 (BitVec.ofNat 64 descriptor.records)
    ++ leBytes 8 (BitVec.ofNat 64 descriptor.width))).setWidth 128

/-- The two children of a seed with their control bits. -/
def stretch (env : Platform) (seed domain : Block) (level : ℕ) : (Block × Bool) × (Block × Bool) :=
  let block := fun i : ℕ =>
    env.aes seed (domain ^^^ Block.ofBytes [0xa1,BitVec.ofNat 8 level,BitVec.ofNat 8 i])
  ((block 0,((block 2).byte 0).getLsbD 0),(block 1,((block 2).byte 0).getLsbD 1))

def leaf (env : Platform) (seed domain : Block) (layout : Layout) : Block :=
  let result := env.aes seed (domain ^^^ Block.ofBytes [0xb2])
  if layout = .scalar then result &&& 1 else result

def header (magic : List Byte) (d : Descriptor) (id : Block) (party : Bool) : List Byte :=
  magic++[if party then 1 else 0]++leBytes 4 (BitVec.ofNat 32 d.records)
    ++ leBytes 4 (BitVec.ofNat 32 d.width)++leBytes 32 d.digest++leBytes 16 id

namespace Key

def encode (self : Key) : List Byte :=
  header self.layout.queryMagic self.descriptor self.id self.party++leBytes 16 self.root
    ++ self.words.flatMap (fun word => leBytes 16 word.seed++[word.controls])
    ++ leBytes self.layout.finalBytes self.finalWord

def decodeWord (item : List Byte) : Except String Correction :=
  if item.getD 16 0 &&& ~~~(3 : Byte)≠0 then .error "noncanonical private page control word"
  else .ok ⟨ofLeBytes 128 (item.take 16),item.getD 16 0⟩

def decodeLayout (data : List Byte) : Except String Layout :=
  if data.take 8=Pages.queryMagic then .ok .scalar
  else if data.take 8=packedQueryMagic then .ok .packed128
  else .error "malformed private page query namespace"

def decode (data : List Byte) : Except String Key :=
  if data.length<headerBytes+17 ∨ data.getD 8 0>1 then .error "malformed private page query"
  else do
    let layout ← decodeLayout data
    let descriptor ← Descriptor.validate
      ⟨ofLeBytes 256 (slice data 17 32),(ofLeBytes 32 (slice data 9 4)).toNat,
        (ofLeBytes 32 (slice data 13 4)).toNat⟩
    let final := layout.finalBytes
    if data.length ≠ headerBytes+16+final+17*descriptor.depth layout
        ∨ layout = .scalar ∧ data.getLastD 0>1 then
      .error "private page query size or bit differs"
    else do
      let words ← (chunksExact 17 (slice data (headerBytes+16)
        (data.length-final-(headerBytes+16)))).mapM decodeWord
      return {
        layout := layout
        descriptor := descriptor
        id := ofLeBytes 128 (slice data 49 16)
        party := data.getD 8 0==1
        root := ofLeBytes 128 (slice data headerBytes 16)
        words := words
        finalWord := ofLeBytes 128 (data.drop (data.length-final)) }

end Key

structure Decoder where
  layout : Layout
  descriptor : Descriptor
  id : Block

def Decoder.accepts (self : Decoder) (party : Bool) (reply : List Byte) : Bool :=
  reply.length = headerBytes+self.descriptor.width
    && reply.take headerBytes = header self.layout.replyMagic self.descriptor self.id party

def Decoder.decode (self : Decoder) (a b : List Byte) : Except String (List Byte) :=
  if ¬self.accepts false a ∨ ¬self.accepts true b then
    .error "private page response binding or size differs"
  else .ok (List.zipWith (fun x y => x ^^^ y) (a.drop headerBytes) (b.drop headerBytes))

/-- The issuer's two seeds and control bits at one level. -/
structure Issuing where
  seeds : Block × Block
  controls : Bool × Bool

/-- One pass of the issuer's loop, for an address bit `direction`. -/
def issueLevel (env : Platform) (domain : Block) (level : ℕ) (direction : Bool) (s : Issuing) :
    Correction × Issuing :=
  let a := stretch env s.seeds.1 domain level
  let b := stretch env s.seeds.2 domain level
  let word : Correction :=
    { seed := (pick a !direction).1 ^^^ (pick b !direction).1
      controls := packControls (a.1.2 ^^ b.1.2 ^^ !direction) (a.2.2 ^^ b.2.2 ^^ direction) }
  let next := fun (child : Block × Bool) (control : Bool) =>
    if control then (child.1 ^^^ word.seed,child.2 ^^ word.controls.getLsbD direction.toNat)
    else child
  let left := next (pick a direction) s.controls.1
  let right := next (pick b direction) s.controls.2
  (word,{ seeds := (left.1,right.1), controls := (left.2,right.2) })

/-- The issuer's loop: `n` levels left, from `level` on. -/
def issueLevels (env : Platform) (domain : Block) (address : ℕ) :
    ℕ → ℕ → Issuing → List Correction × Issuing
  | 0, _, s => ([],s)
  | n+1, level, s =>
    let next := issueLevel env domain level (address.testBit n) s
    let rest := issueLevels env domain address n (level+1) next.2
    (next.1::rest.1,rest.2)

/-- The issuer's draws. -/
structure Random where
  id : Block
  roots : Block × Block

def issueLayout (env : Platform) (descriptor : Descriptor) (index : ℕ) (layout : Layout)
    (random : Random) : Except String (List Byte × List Byte × Decoder) := do
  let descriptor ← descriptor.validate
  if index≥descriptor.records then .error "private page index is outside the table"
  else
    let domain := domain env descriptor random.id layout
    let depth := descriptor.depth layout
    let address := index/layout.leafBits
    let issued := issueLevels env domain address depth 0
      { seeds := random.roots, controls := (false,true) }
    let seeds := issued.2.seeds
    let bit := index%layout.leafBits
    let finalWord := leaf env seeds.1 domain layout ^^^ leaf env seeds.2 domain layout
      ^^^ BitVec.twoPow 128 bit
    let key := fun party : Bool =>
      { layout := layout
        descriptor := descriptor
        id := random.id
        party := party
        root := pick random.roots party
        words := issued.1
        finalWord := finalWord : Key }
    return ((key false).encode,(key true).encode,⟨layout,descriptor,random.id⟩)

def issuePacked (env : Platform) (descriptor : Descriptor) (index : ℕ) (random : Random) :
    Except String (List Byte × List Byte × Decoder) :=
  issueLayout env descriptor index .packed128 random

/-- `dst ^= value & mask` along two slices. -/
def xorInto (mask : Byte) : List Byte → List Byte → List Byte
  | d::ds, v::vs => (d ^^^ (v &&& mask))::xorInto mask ds vs
  | ds, _ => ds

/-- A table of records, or a matrix of signed bytes whose rows end in their scales. -/
inductive Table
  | records (data : List Byte)
  | vocabulary (matrix scales : List Byte)

def Table.xorRecord (self : Table) (index width : ℕ) (mask : Byte) (output : List Byte) :
    List Byte :=
  match self with
  | records data => xorInto mask output (slice data (index*width) width)
  | vocabulary matrix scales =>
    let columns := width-4
    xorInto mask (output.take columns) (slice matrix (index*columns) columns)
      ++ xorInto mask (output.drop columns) (slice scales (index*4) 4)

structure Server where
  descriptor : Descriptor
  data : Table
  party : Bool
  burned : Finset Block
  contexts : Finset (BitVec 256)

/-- The selection word of a leaf. -/
def leafWord (env : Platform) (key : Key) (domain seed : Block) (control : Bool) : Block :=
  leaf env seed domain key.layout ^^^ (key.finalWord &&& spread control)

/-- A child of a seed, corrected when the seed's control bit is set. -/
def descend (env : Platform) (word : Correction) (domain seed : Block) (control : Bool)
    (level : ℕ) (direction : Bool) : Block × Bool :=
  let child := pick (stretch env seed domain level) direction
  if control then (child.1 ^^^ word.seed,child.2 ^^ word.controls.getLsbD direction.toNat)
  else child

/-- The recursion shared by `visit` and `fillBits`: `act` meets every record in order with its
selection bit. The list holds the words of the levels left, `first` is the first leaf below. -/
def sweep {γ : Type*} (env : Platform) (key : Key) (domain : Block) (records : ℕ)
    (act : ℕ → Bool → γ → γ) : List Correction → Block → Bool → ℕ → ℕ → γ → γ
  | [], seed, control, _, first, out =>
    let firstRecord := first*key.layout.leafBits
    if firstRecord≥records then out
    else
      let word := leafWord env key domain seed control
      (List.range (min key.layout.leafBits (records-firstRecord))).foldl
        (fun out bit => act (firstRecord+bit) (word.getLsbD bit) out) out
  | word::rest, seed, control, level, first, out =>
    if first*key.layout.leafBits≥records then out
    else
      let left := descend env word domain seed control level false
      let right := descend env word domain seed control level true
      let out := sweep env key domain records act rest left.1 left.2 (level+1) first out
      sweep env key domain records act rest right.1 right.2 (level+1) (first+2^rest.length) out

namespace Server

def new (env : Platform) (data : List Byte) (width : ℕ) (party : Byte) : Except String Server :=
  if width=0 ∨ data.length%width≠0 ∨ party>1 then .error "invalid private page table"
  else do
    let descriptor ← Descriptor.validate ⟨0,data.length/width,width⟩
    let digest := env.sha256 (ascii "pllm/public-page-table/v1\x00"
      ++ leBytes 8 (BitVec.ofNat 64 descriptor.records)++leBytes 8 (BitVec.ofNat 64 width)++data)
    return ⟨{ descriptor with digest := digest },.records data,party==1,∅,∅⟩

/-- The little-endian bytes of a finite `f32` above zero. -/
def positiveScale (bytes : List Byte) : Bool :=
  let scale := (ofLeBytes 32 bytes).toNat
  0 < scale && scale < 0x7f800000

/-- `matrix` holds `rows` rows of `columns` signed bytes. -/
def fromMatrix (env : Platform) (matrix : List Byte) (rows columns : ℕ) (scales : List Byte)
    (party : Byte) : Except String Server :=
  if columns+4≥2^64 then .error "private vocabulary width overflow"
  else do
    let descriptor ← Descriptor.validate ⟨0,rows,columns+4⟩
    if party>1 ∨ scales.length≠rows*4
        ∨ ((chunksExact 4 scales).any fun bytes => !positiveScale bytes) then
      .error "private vocabulary party or scales differ"
    else
      let rowBytes := List.zipWith (fun weights scale => weights++scale)
        (chunksExact columns matrix) (chunksExact 4 scales)
      let digest := env.sha256 (ascii "pllm/public-page-table/v1\x00"
        ++ leBytes 8 (BitVec.ofNat 64 rows)++leBytes 8 (BitVec.ofNat 64 descriptor.width)
        ++ rowBytes.flatten)
      return ⟨{ descriptor with digest := digest },.vocabulary matrix scales,party==1,∅,∅⟩

def bindContext (env : Platform) (self : Server) (context : BitVec 256) :
    Except String Server × Server :=
  if self.contexts.card≥maxQueries ∨ context∈self.contexts then
    (.error "private page context replayed or ledger exhausted",self)
  else
    let digest := env.sha256 (ascii "pllm/private-page-context/v1\x00"
      ++ leBytes 32 self.descriptor.digest++leBytes 32 context)
    (.ok ⟨{ self.descriptor with digest := digest },self.data,self.party,∅,∅⟩,
      { self with contexts := insert context self.contexts })

def admitKey (self : Server) (data : List Byte) : Except String Key × Server :=
  match Key.decode data with
  | .error e => (.error e,self)
  | .ok key =>
    if key.descriptor≠self.descriptor ∨ key.party≠self.party then
      (.error "private page source or party differs",self)
    else if self.burned.card≥maxQueries ∨ key.id∈self.burned then
      (.error "private page query replayed or ledger exhausted",self)
    else (.ok key,{ self with burned := insert key.id self.burned })

def cancel (self : Server) (query : List Byte) : Except String Unit × Server :=
  ((self.admitKey query).1.map fun _ => (),(self.admitKey query).2)

def visit (env : Platform) (self : Server) (key : Key) (domain : Block) :
    List Correction → Block → Bool → ℕ → ℕ → List Byte → List Byte :=
  sweep env key domain self.descriptor.records fun record bit out =>
    self.data.xorRecord record self.descriptor.width (spread bit) out

/-- The reply that carries `out`. -/
def reply (self : Server) (key : Key) (out : List Byte) : List Byte :=
  header key.layout.replyMagic self.descriptor key.id self.party++out

def evaluate (env : Platform) (self : Server) (query : List Byte) :
    Except String (List Byte) × Server :=
  match self.admitKey query with
  | (.error e,self) => (.error e,self)
  | (.ok key,self) =>
    let out := self.visit env key (domain env self.descriptor key.id key.layout) key.words key.root
      key.party 0 0 (List.replicate self.descriptor.width 0)
    (.ok (self.reply key out),self)

end Server

/-- One lane of a batch's selection bits. -/
def fillBits (env : Platform) (key : Key) (domain : Block) (lane count : ℕ) :
    List Correction → Block → Bool → ℕ → ℕ → List Bool → List Bool :=
  sweep env key domain key.descriptor.records fun record bit output =>
    output.set (record*count+lane) bit

namespace Server

/-- The loop that decodes a batch; `ids` are the identifiers seen so far. -/
def batchKeys (self : Server) :
    Finset Block → List (List Byte) → Except String (List Key × Finset Block)
  | ids, [] => .ok ([],ids)
  | ids, q::queries => do
    let key ← Key.decode q
    if key.descriptor≠self.descriptor ∨ key.party≠self.party ∨ key.id∈self.burned
        ∨ key.id∈ids then .error "private page batch source, party or replay differs"
    else do
      let rest ← batchKeys self (insert key.id ids) queries
      return (key::rest.1,rest.2)

/-- Every lane's selection bits, record by record. -/
def selections (env : Platform) (self : Server) (keys : List Key) : List Bool :=
  keys.zipIdx.foldl (fun bits (key,lane) =>
    fillBits env key (domain env self.descriptor key.id key.layout) lane keys.length key.words
      key.root key.party 0 0 bits) (List.replicate (self.descriptor.records*keys.length) false)

/-- One traversal of the table for all lanes. -/
def scan (self : Server) (count : ℕ) (bits : List Bool) (outputs : List (List Byte)) :
    List (List Byte) :=
  (chunksExact count bits).zipIdx.foldl (fun outputs (selection,row) =>
    List.zipWith (fun out bit =>
      self.data.xorRecord row self.descriptor.width (spread bit) out) outputs selection) outputs

def evaluateBatch (env : Platform) (self : Server) (queries : List (List Byte)) :
    Except String (List (List Byte)) × Server :=
  if ¬(1≤queries.length ∧ queries.length≤64)
      ∨ self.burned.card+queries.length>maxQueries then
    (.error "private page batch exceeds bounded query ledger",self)
  else
    match self.batchKeys ∅ queries with
    | .error e => (.error e,self)
    | .ok (keys,ids) =>
      let self := { self with burned := self.burned ∪ ids }
      let outputs := self.scan keys.length (self.selections env keys)
        (List.replicate keys.length (List.replicate self.descriptor.width 0))
      (.ok (List.zipWith self.reply keys outputs),self)

end Server

end Pllm.Pages
