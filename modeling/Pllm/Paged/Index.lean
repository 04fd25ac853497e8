import Pllm.Common.Slices

/-! The file format of a paged matrix: a header, one entry for each page of rows, and the payloads
of the pages, each of them raw or a zlib stream. -/
namespace Pllm.Paged

def magic : List Byte := ascii "PLLMWM01"
def header : ℕ := 64
def entryBytes : ℕ := 24
def maxWeightBytes : ℕ := 2*1024*1024*1024
def maxPageBytes : ℕ := 4*1024*1024
def maxPages : ℕ := 65536

structure Page where
  offset : ℕ
  stored : ℕ
  decoded : ℕ
  compressed : Bool
  deriving DecidableEq

/-- The number of pages of `pageRows` rows. -/
def pageCount (rows pageRows : ℕ) : ℕ := (rows+pageRows-1)/pageRows

/-- The byte and page counts of an admitted shape. -/
def shape (rows cols pageRows : ℕ) : Except String (ℕ × ℕ) :=
  if 2^64 ≤ rows*cols then .error "paged matrix shape overflow"
  else if 2^64 ≤ cols*pageRows then .error "paged matrix page overflow"
  else if rows=0 ∨ cols=0 ∨ rows>1048576 ∨ cols>1048576 ∨ pageRows=0 ∨
      rows*cols>maxWeightBytes ∨ cols*pageRows>maxPageBytes ∨
      pageCount rows pageRows>maxPages then
    .error "paged matrix exceeds bounded shape or page policy"
  else .ok (rows*cols,pageCount rows pageRows)

/-- The chunks of `n` elements; the last one may be short. -/
def chunks {α : Type*} (n : ℕ) (xs : List α) : List (List α) :=
  (List.range ((xs.length+n-1)/n)).map fun i => slice xs (n*i) n

def Page.entry (page : Page) : List Byte :=
  leBytes 8 (BitVec.ofNat 64 page.offset)++leBytes 4 (BitVec.ofNat 32 page.stored) ++
    leBytes 4 (BitVec.ofNat 32 page.decoded)++[if page.compressed then 1 else 0] ++
    List.replicate 7 0

/-- The payload of a page, and whether it is the zlib stream of it. -/
def pack (zlib : List Byte → List Byte) (compress : Bool) (page : List Byte) : Bool × List Byte :=
  let packed := if compress then zlib page else []
  let compressed := compress && decide (packed.length<page.length)
  (compressed,if compressed then packed else page)

/-- The pages in the order they are written, with their payloads. -/
def writePages (zlib : List Byte → List Byte) (compress : Bool) :
    ℕ → List (List Byte) → List (Page × List Byte)
  | _, [] => []
  | offset, page::pages =>
    let (compressed,payload) := pack zlib compress page
    (⟨offset,payload.length,page.length,compressed⟩,payload)
      :: writePages zlib compress (offset+payload.length) pages

/-- The pages of a matrix, the first of them after the index. -/
def writtenPages (zlib : List Byte → List Byte) (compress : Bool) (data : List Byte)
    (rows cols pageRows : ℕ) : List (Page × List Byte) :=
  writePages zlib compress (header+pageCount rows pageRows*entryBytes) (chunks (pageRows*cols) data)

/-- The bytes of the file and its digest; `sha256` and `zlib` are the digest and the compressor. -/
def exportFile (sha256 : List Byte → BitVec 256) (zlib : List Byte → List Byte) (data : List Byte)
    (rows cols pageRows : ℕ) (compress : Bool) : Except String (List Byte × BitVec 256) := do
  let (size,count) ← shape rows cols pageRows
  if data.length≠size then .error "paged weight byte count differs from shape"
  else
    let written := writtenPages zlib compress data rows cols pageRows
    let metadata := magic++([rows,cols,pageRows,count].flatMap fun value =>
        leBytes 4 (BitVec.ofNat 32 value))++leBytes 32 (sha256 data)++List.replicate 8 0 ++
      written.flatMap fun page => page.1.entry
    let file := metadata++written.flatMap Prod.snd
    return (file,sha256 file)

structure PageIndex where
  head : List Byte
  rows : ℕ
  cols : ℕ
  pageRows : ℕ
  pages : List Page

def readExact (file : List Byte) (start len : ℕ) : Except String (List Byte) :=
  if start+len≤file.length then .ok (slice file start len)
  else .error "failed to fill whole buffer"

/-- The `u32` at byte `i`. -/
def get (head : List Byte) (i : ℕ) : ℕ := (ofLeBytes 32 (slice head i 4)).toNat

/-- The entries from number `index` on, of pages that start at `offset`. -/
def readPages (length rows cols pageRows : ℕ) :
    ℕ → ℕ → List (List Byte) → Except String (ℕ × List Page)
  | _, offset, [] => .ok (offset,[])
  | index, offset, entry::entries =>
    let stored := get entry 8
    let decoded := get entry 12
    let expected := min (rows-index*pageRows) pageRows*cols
    let flag := entry.getD 16 0
    if (ofLeBytes 64 (slice entry 0 8)).toNat ≠ offset ∨ decoded≠expected ∨ stored=0 ∨
        stored>decoded ∨ flag>1 ∨ entry.drop 17 ≠ List.replicate 7 0 ∨
        (flag=0 ∧ stored≠decoded) ∨ (flag=1 ∧ stored≥decoded) then
      .error "invalid, overlapping or noncanonical paged index"
    else if offset+stored>length then .error "paged artifact payload is truncated"
    else do
      let (last,pages) ← readPages length rows cols pageRows (index+1) (offset+stored) entries
      return (last,⟨offset,stored,decoded,flag≠0⟩::pages)

/-- The index of a file that is `length` bytes long. -/
def metadata (file : List Byte) (length : ℕ) : Except String PageIndex :=
  if length<header ∨ length>maxWeightBytes+header+maxPages*entryBytes then
    .error "paged artifact byte size exceeds policy"
  else do
    let head ← readExact file 0 header
    if head.take 8 ≠ magic ∨ slice head 56 8 ≠ List.replicate 8 0 then
      .error "invalid paged artifact header"
    else
      let rows := get head 8
      let cols := get head 12
      let pageRows := get head 16
      let declared := get head 20
      let (_,count) ← shape rows cols pageRows
      if declared≠count ∨ header+count*entryBytes>length then
        .error "paged index length differs"
      else
        let entries ← readExact file header (count*entryBytes)
        let (offset,pages) ← readPages length rows cols pageRows 0 (header+count*entryBytes)
          (chunksExact entryBytes entries)
        if offset≠length then .error "paged artifact has trailing bytes"
        else return ⟨head++entries,rows,cols,pageRows,pages⟩

def maxElements : ℕ := 4*1024*1024

/-- The greatest magnitude of the signed bytes. -/
def maxMagnitude (bytes : List Byte) : ℕ :=
  (bytes.map fun value => value.toInt.natAbs).foldl max 0

structure Matrix where
  weights : List Byte
  rows : ℕ
  cols : ℕ
  maxWeight : ℕ

namespace Matrix

def new (bytes : List Byte) (rows cols : ℕ) : Except String Matrix :=
  if rows=0 ∨ cols=0 ∨ rows*cols≠bytes.length then
    .error "weights must be a nonempty [out,in] int8 matrix"
  else .ok ⟨bytes,rows,cols,maxMagnitude bytes⟩

/-- A page with the bound that every signed byte meets. -/
def fromOwnedI8Page (bytes : List Byte) (rows cols : ℕ) : Except String Matrix :=
  if rows=0 ∨ cols=0 ∨ rows*cols≠bytes.length then
    .error "weights must be a nonempty [out,in] int8 matrix"
  else .ok ⟨bytes,rows,cols,128⟩

variable (self : Matrix)

def outputSize (inputLen batch : ℕ) : Except String ℕ :=
  if batch*self.cols≠inputLen then .error "input must have shape [batch,in]"
  else if 2^64≤batch*self.rows then .error "output size overflow"
  else .ok (batch*self.rows)

def validate (inputLen batch maxInput : ℕ) : Except String ℕ := do
  let size ← self.outputSize inputLen batch
  if self.cols*self.maxWeight*maxInput>2^63-1 then .error "dot product bound exceeds int64"
  else return size

def transposeResult {α : Type} [Inhabited α] (input : List α) (rows batch : ℕ) : List α :=
  if batch=1 then input
  else (List.range batch).flatMap fun b => (List.range rows).map fun i =>
    input.getD (i*batch+b) default

/-- One kernel call for each row of weights and each row of the input. -/
def product {α β : Type} [Inhabited β] (kernel : List Byte → List α → β) (x : List α)
    (batch : ℕ) : List β :=
  transposeResult ((List.range self.rows).flatMap fun i => (List.range batch).map fun b =>
    kernel (row self.cols self.weights i) (row self.cols x b)) self.rows batch

/-- The dot product of signed weights and integers. -/
def dot (w : List Byte) (x : List ℤ) : ℤ := (List.zipWith (fun weight v => weight.toInt*v) w x).sum

def dotClear (w x : List Byte) : BitVec 32 := BitVec.ofInt 32 (dot w (x.map BitVec.toInt))

def dotWrap32 (w : List Byte) (x : List (BitVec 32)) : BitVec 32 :=
  (List.zip w x).foldl (fun acc v => acc+v.1.signExtend 32*v.2) 0

def dotModular (p : ℕ) (w : List Byte) (x : List (BitVec 32)) : BitVec 32 :=
  BitVec.ofInt 32 (dot w (x.map fun v => (v.toNat:ℤ))%p)

def modular (x : List (BitVec 32)) (batch p : ℕ) : Except String (List (BitVec 32)) :=
  if ¬(2≤p ∧ p<2^31) then .error "modulus must satisfy 2 <= p < 2^31"
  else do
    let _ ← self.validate x.length batch (p-1)
    if ∃ v∈x, p≤v.toNat then .error "input contains a noncanonical residue"
    else return self.product (dotModular p) x batch

def wrap32 (x : List (BitVec 32)) (batch : ℕ) : Except String (List (BitVec 32)) := do
  let _ ← self.outputSize x.length batch
  return self.product dotWrap32 x batch

def clear (x : List Byte) (batch : ℕ) : Except String (List (BitVec 32)) := do
  let _ ← self.validate x.length batch 128
  if self.cols*self.maxWeight*128>2^31-1 then
    .error "clear int32 result cannot represent this matrix's worst case"
  else return self.product dotClear x batch

end Matrix

/-- What the decompressor reports: whether the stream ended, the bytes it wrote and how many bytes
it read. -/
structure Inflated where
  streamEnd : Bool
  output : List Byte
  totalIn : ℕ

/-- A decompressor with room for a number of bytes. -/
abbrev Inflate := List Byte → ℕ → Except String Inflated

def decode (inflate : Inflate) (file : List Byte) (page : Page) : Except String (List Byte) := do
  let payload ← readExact file page.offset page.stored
  if page.compressed=false then return payload
  else
    let inflated ← inflate payload (page.decoded+1)
    if inflated.streamEnd=false ∨ inflated.totalIn≠page.stored ∨
        inflated.output.length≠page.decoded then
      .error "paged zlib stream size, completion or trailing data differs"
    else return inflated.output

structure PagedMatrix where
  file : List Byte
  pages : List Page
  rows : ℕ
  cols : ℕ
  pageRows : ℕ
  artifactBytes : ℕ
  weightDigest : BitVec 256
  maxWeight : ℕ

namespace PagedMatrix

/-- A file that does not change while it is read. -/
def openFile (sha256 : List Byte → BitVec 256) (inflate : Inflate) (file : List Byte)
    (expected : BitVec 256) : Except String PagedMatrix := do
  let index ← metadata file file.length
  if sha256 file ≠ expected then .error "paged artifact digest or length differs"
  else
    let weightDigest := ofLeBytes 256 (slice index.head 24 32)
    let decoded ← index.pages.mapM (decode inflate file)
    if sha256 decoded.flatten ≠ weightDigest then .error "paged decoded weight digest differs"
    else return ⟨file,index.pages,index.rows,index.cols,index.pageRows,file.length,weightDigest,
      (decoded.map maxMagnitude).foldl max 0⟩

variable (self : PagedMatrix) (inflate : Inflate)

def check (elements batch : ℕ) : Except String Unit :=
  if batch=0 ∨ self.cols*batch≠elements ∨ elements>maxElements ∨
      self.rows*batch>maxElements then
    .error "paged input/output workspace exceeds bounded shape policy"
  else .ok ()

/-- The matrix of one page; unusually wide pages keep the bound of their own weights. -/
def pageMatrix (values : List Byte) (rows : ℕ) : Except String Matrix :=
  if self.cols*128*128≤2^31-1 then Matrix.fromOwnedI8Page values rows self.cols
  else Matrix.new values rows self.cols

/-- The rows of a partial result, copied to their places in the result. -/
def stitch {α : Type} (batch index rows : ℕ) (result portion : List α) : List α :=
  (List.range batch).foldl (fun result b =>
    splice result (b*self.rows+index*self.pageRows) (row rows portion b)) result

def execute {α : Type} [Inhabited α] (batch : ℕ)
    (operation : Matrix → Except String (List α)) : Except String (List α) :=
  self.pages.zipIdx.foldlM (fun result entry => do
    let values ← decode inflate self.file entry.1
    let rows := entry.1.decoded/self.cols
    let matrix ← self.pageMatrix values rows
    let portion ← operation matrix
    return self.stitch batch entry.2 rows result portion) (List.replicate (batch*self.rows) default)

def clear (x : List Byte) (batch : ℕ) : Except String (List (BitVec 32)) := do
  self.check x.length batch
  if self.cols*self.maxWeight*128>2^31-1 then .error "paged clear result exceeds int32 bound"
  else self.execute inflate batch fun m => m.clear x batch

def wrap32 (x : List (BitVec 32)) (batch : ℕ) : Except String (List (BitVec 32)) := do
  self.check x.length batch
  self.execute inflate batch fun m => m.wrap32 x batch

def modular (x : List (BitVec 32)) (batch modulus : ℕ) : Except String (List (BitVec 32)) := do
  self.check x.length batch
  self.execute inflate batch fun m => m.modular x batch modulus

/-- `entry(key).or_default().push(value)` on the entries of a `BTreeMap`. -/
def pushEntry {α : Type} (key : ℕ) (value : α) : List (ℕ × List α) → List (ℕ × List α)
  | [] => [(key,[value])]
  | entry::entries =>
    if key<entry.1 then (key,[value])::entry::entries
    else if key=entry.1 then (entry.1,entry.2++[value])::entries
    else entry::pushEntry key value entries

def checkGather (ids : List ℕ) (bound length : ℕ) (message : String) : Except String Unit :=
  if ids=[] ∨ ids.length>4096 ∨ ids.length*length>maxElements ∨ ∃ i∈ids, bound ≤ i then
    .error message
  else .ok ()

/-- The positions and the page-local rows that each page is read for. -/
def grouped (ids : List ℕ) : List (ℕ × List (ℕ × ℕ)) :=
  ids.zipIdx.foldl (fun groups id =>
    pushEntry (id.1/self.pageRows) (id.2,id.1%self.pageRows) groups) []

def gather (ids : List ℕ) : Except String (List Byte) := do
  checkGather ids self.rows self.cols "paged gather indices exceed bounds"
  (self.grouped ids).foldlM (fun out group => do
    let data ← decode inflate self.file (self.pages.getD group.1 ⟨0,0,0,false⟩)
    return group.2.foldl (fun out entry =>
      splice out (entry.1*self.cols) (row self.cols data entry.2)) out)
    (List.replicate (ids.length*self.cols) 0)

def gatherColumns (ids : List ℕ) : Except String (List Byte) := do
  checkGather ids self.cols self.rows "paged column gather indices exceed bounds"
  self.pages.zipIdx.foldlM (fun out page => do
    let data ← decode inflate self.file page.1
    return (chunksExact self.cols data).zipIdx.foldl (fun out row =>
      ids.zipIdx.foldl (fun out id =>
        out.set (id.2*self.rows+page.2*self.pageRows+row.2) (row.1.getD id.1 0)) out) out)
    (List.replicate (ids.length*self.rows) 0)

end PagedMatrix

end Pllm.Paged
