import Pllm.Paged.Index
import Pllm.Lib.Tiling
import Pllm.Lib.Except

/-! What the index of a paged file says: the pages that were written, in consecutive ranges of rows
and of bytes. -/
namespace Pllm.Paged
open Pllm.Lib List Prod

def Page.range (page : Page) : ℕ × ℕ := (page.offset,page.stored)

/-- The rows of page `i`: where they start and how many they are. -/
def rowRange (rows pr i : ℕ) : ℕ × ℕ := (i*pr,min (rows-i*pr) pr)

/-- Pages from number `index` on, stored without a gap from `offset` to `last`. -/
structure Laid (rows cols pr index offset last : ℕ) (pages : List Page) : Prop where
  tiles : Tiles offset last (pages.map Page.range)
  decoded : pages.map Page.decoded =
    (List.range' index pages.length).map fun i => (rowRange rows pr i).2*cols
  stored : ∀ page∈pages, page.stored≤page.decoded ∧
    (page.compressed=true ↔ page.stored<page.decoded)

section
variable {length rows cols pr index offset last : ℕ} {pages : List Page}

lemma Laid.nil : Laid rows cols pr index offset offset [] :=
  ⟨rfl,rfl,nofun⟩

lemma laid_cons {page : Page} : Laid rows cols pr index offset last (page::pages) ↔
    page.offset=offset ∧ 0<page.stored ∧ page.decoded = min (rows-index*pr) pr*cols ∧
    page.stored≤page.decoded ∧ (page.compressed=true ↔ page.stored<page.decoded) ∧
    Laid rows cols pr (index+1) (offset+page.stored) last pages := by
  constructor
  · rintro ⟨⟨hoff,hpos,htil⟩,hdcd,hsto⟩
    rw [length_cons,range'_succ,map_cons,map_cons,cons.injEq] at hdcd
    obtain ⟨hle,hflag⟩ := hsto page mem_cons_self
    exact ⟨hoff,hpos,hdcd.1,hle,hflag,htil,hdcd.2,
      fun p hp => hsto p (mem_cons_of_mem _ hp)⟩
  · rintro ⟨hoff,hpos,hdcd,hle,hflag,htil,hrest,hsto⟩
    refine ⟨⟨hoff,hpos,htil⟩,?_,?_⟩
    · rw [length_cons,range'_succ,map_cons,hrest,hdcd]
      rfl
    · exact forall_mem_cons.mpr ⟨⟨hle,hflag⟩,hsto⟩

lemma readPages_laid {entries : List (List Byte)} (hoff : offset≤length)
    (h : readPages length rows cols pr index offset entries = .ok (last,pages)) :
    pages.length=entries.length ∧ last≤length ∧ Laid rows cols pr index offset last pages := by
  induction entries generalizing index offset pages with
  | nil =>
    obtain ⟨rfl,rfl⟩ : offset=last ∧ []=pages := by simpa [readPages] using h
    exact ⟨rfl,hoff,.nil⟩
  | cons entry entries ih =>
    simp only [readPages,bind_eq_ok,ite_error_eq_ok,pure_eq_ok,ok_eq_ok,Prod.exists,
      mk.injEq,not_or,not_not,not_and,not_lt,not_le,ne_eq,ge_iff_le,gt_iff_lt] at h
    obtain ⟨⟨-,hdcd,hpos,hle,hflag,-,hraw,hzlib⟩,hlen,last,tail,hread,rfl,rfl⟩ := h
    obtain ⟨hcnt,hlast,hlaid⟩ := ih hlen hread
    refine ⟨by rw [length_cons,hcnt,length_cons],hlast,
      laid_cons.mpr ⟨rfl,pos_of_ne_zero hpos,hdcd,hle,?_,hlaid⟩⟩
    simp only [decide_eq_true_eq]
    constructor
    · intro hne
      exact hzlib (by bv_omega)
    · intro hlt hzero
      exact absurd (hraw hzero) hlt.ne

section
variable {page : Page}

@[simp] lemma length_entry (page : Page) : page.entry.length=entryBytes := by
  simp [Page.entry,entryBytes]

lemma get_append {head : List Byte} (tail : List Byte) {i value : ℕ} (hhead : head.length=i)
    (hval : value<2^32) : get (head++(leBytes 4 (BitVec.ofNat 32 value)++tail)) i = value := by
  rw [get,slice_append_right _ _ hhead.le,hhead,tsub_self,slice_append_left _ (length_leBytes 4
    _),ofLeBytes_leBytes _ (by decide),BitVec.toNat_ofNat,Nat.mod_eq_of_lt hval]

lemma offset_entry (h : page.offset<2^64) :
    (ofLeBytes 64 (slice page.entry 0 8)).toNat = page.offset := by
  simp only [Page.entry,append_assoc]
  rw [slice_append_left _ (length_leBytes 8 _),ofLeBytes_leBytes _ (by decide),
    BitVec.toNat_ofNat,Nat.mod_eq_of_lt h]

lemma stored_entry (h : page.stored<2^32) : get page.entry 8 = page.stored := by
  simp only [Page.entry,append_assoc]
  exact get_append _ (length_leBytes 8 _) h

lemma decoded_entry (h : page.decoded<2^32) : get page.entry 12 = page.decoded := by
  rw [Page.entry,append_assoc,append_assoc]
  exact get_append _ (by simp) h

lemma flag_entry : page.entry.getD 16 0 = if page.compressed then 1 else 0 := by
  rw [Page.entry,append_assoc]
  simp

lemma drop_entry : page.entry.drop 17 = replicate 7 0 := by
  rw [Page.entry,drop_left' (by simp)]

end

lemma readPages_entries (hlaid : Laid rows cols pr index offset last pages) (hlast :
    last≤length) (hlen : length<2^64) (hdcd : ∀ page∈pages, page.decoded<2^32) : readPages
    length rows cols pr index offset (pages.map Page.entry) = .ok (last,pages) := by
  induction pages generalizing index offset with
  | nil =>
    obtain rfl : offset=last := hlaid.tiles
    rfl
  | cons page pages ih =>
    obtain ⟨rfl,hpos,hrows,hle,hflag,hrest⟩ := laid_cons.mp hlaid
    have hend := hrest.tiles.le
    have h32 := hdcd page mem_cons_self
    have hcond : ¬((ofLeBytes 64 (slice page.entry 0 8)).toNat ≠ page.offset ∨ get page.entry 12 ≠
        min (rows-index*pr) pr*cols ∨ get page.entry 8 = 0 ∨ get page.entry 8>get
        page.entry 12 ∨ page.entry.getD 16 0>1 ∨ page.entry.drop 17 ≠ replicate 7 0 ∨
        (page.entry.getD 16 0 = 0 ∧ get page.entry 8 ≠ get page.entry 12) ∨ (page.entry.getD 16 0 =
        1 ∧ get page.entry 8≥get page.entry 12)) := by
      rw [offset_entry (by omega),stored_entry (by omega),decoded_entry h32,flag_entry,drop_entry]
      cases hc : page.compressed
      · have hge := mt hflag.mpr (by simp [hc])
        simp
        omega
      · have hlt := hflag.mp hc
        simp
        omega
    rw [map_cons,readPages,if_neg hcond,stored_entry (by omega),if_neg (by omega),ih hrest fun p hp
      => hdcd p (mem_cons_of_mem _ hp), ok_bind, decoded_entry h32, flag_entry]
    cases page with
    | mk offset stored decoded compressed => cases compressed <;> rfl

end

section
variable {α : Type*} {n : ℕ} {xs : List α}

@[simp] lemma length_chunks : (chunks n xs).length = (xs.length+n-1)/n := by
  rw [chunks,length_map,length_range]

lemma map_length_chunks : (chunks n xs).map List.length =
    (range ((xs.length+n-1)/n)).map fun i => min (xs.length-n*i) n := by
  rw [chunks,List.map_map]
  refine map_congr_left fun i _ => ?_
  rw [Function.comp_apply,slice,length_take,length_drop,min_comm]

end

section
variable {zlib : List Byte → List Byte} {zip : Bool}

/-- The payload of a page is no longer than the page, and shorter when it is compressed. -/
lemma pack_length (hzlib : ∀ page, 0 < (zlib page).length) (zip : Bool) {page : List Byte} (hpage :
    0<page.length) : 0 < (pack zlib zip page).2.length ∧ (pack zlib zip page).2.length ≤ page.length
    ∧ ((pack zlib zip page).1 = true ↔ (pack zlib zip page).2.length < page.length) := by
  have hpos := hzlib page
  unfold pack
  cases zip with
  | false => simp [hpage]
  | true =>
    by_cases hlt : (zlib page).length < page.length
    · simp [hlt,hpos,hlt.le]
    · simp [hlt,hpage]

variable {pr : ℕ} {parts : List (List Byte)} {rows cols : ℕ}

lemma writePages_laid (hzlib : ∀ page, 0 < (zlib page).length) {index : ℕ}
    (offset : ℕ) (hlen : parts.map List.length =
      (range' index parts.length).map fun i => (rowRange rows pr i).2*cols)
    (hpar : ∀ part∈parts, 0<part.length) :
    Laid rows cols pr index offset (offset+((writePages zlib zip offset parts).flatMap
      snd).length) ((writePages zlib zip offset parts).map fst) := by
  induction parts generalizing index offset with
  | nil => exact .nil
  | cons part parts ih =>
    rw [length_cons,range'_succ,map_cons,map_cons,List.cons.injEq] at hlen
    obtain ⟨hpos,hle,hflag⟩ := pack_length hzlib zip (hpar part mem_cons_self)
    have hrest := ih (offset+(pack zlib zip part).2.length) hlen.2
      fun p hp => hpar p (mem_cons_of_mem _ hp)
    rw [writePages,map_cons,laid_cons,flatMap_cons,length_append,← add_assoc]
    exact ⟨rfl,hpos,hlen.1,hle,hflag,hrest⟩

/-- Each page of a file holds its payload. -/
lemma writePages_stored (zlib : List Byte → List Byte) (zip : Bool) {offset : ℕ} {front : List Byte}
    (hfrt : front.length=offset) {i : ℕ} {part : List Byte} (hpart : parts[i]? = some part) :
    ∃ page payload, (writePages zlib zip offset parts)[i]? = some (page,payload) ∧
      page.decoded=part.length ∧ payload = (if page.compressed then zlib part else part) ∧
      slice (front++(writePages zlib zip offset parts).flatMap snd) page.offset
        page.stored = payload := by
  induction parts generalizing offset front i with
  | nil => cases hpart
  | cons first parts ih =>
    rw [writePages,flatMap_cons]
    cases i with
    | zero =>
      obtain rfl : first=part := by simpa using hpart
      refine ⟨_,_,rfl,rfl,?_,?_⟩
      · cases zip <;> simp
      · rw [slice_append_right _ _ hfrt.le,hfrt,tsub_self]
        exact slice_append_left _ rfl
    | succ i =>
      obtain ⟨page,payload,hget,hdcd,hpay,hsli⟩ :=
        @ih (offset+(pack zlib zip first).2.length) (front++(pack zlib zip first).2)
          (by rw [length_append,hfrt]) i hpart
      refine ⟨page,payload,hget,hdcd,hpay,?_⟩
      rw [← append_assoc]
      exact hsli

lemma length_writePages (offset : ℕ) (parts : List (List Byte)) :
    (writePages zlib zip offset parts).length = parts.length := by
  induction parts generalizing offset with
  | nil => rfl
  | cons part parts ih => rw [writePages,length_cons,ih,length_cons]

end

/-- An index that tiles the rows of its matrix and the bytes of a file of some length. -/
structure Exact (index : PageIndex) (file : List Byte) (length : ℕ) : Prop where
  head : index.head = file.take (header+index.pages.length*entryBytes)
  count : index.pages.length = pageCount index.rows index.pageRows
  bounded : length ≤ maxWeightBytes+header+maxPages*entryBytes
  /-- Each page holds the bytes of its own rows, and no more than these when it is compressed. -/
  decoded : ∀ i page, index.pages[i]? = some page → i*index.pageRows < index.rows ∧
    page.decoded = (rowRange index.rows index.pageRows i).2*index.cols ∧
    page.stored≤page.decoded ∧ (page.compressed=true ↔ page.stored<page.decoded)
  /-- No page leaves the payload. -/
  inside : ∀ page∈index.pages, index.head.length≤page.offset ∧ 0<page.stored ∧
    page.offset+page.stored≤length
  /-- No byte of the payload is left out or stored twice. -/
  bytes : ∀ position, index.head.length≤position → position<length →
    ∃! i : ℕ, ∃ page, index.pages[i]? = some page ∧
      page.offset≤position ∧ position<page.offset+page.stored
  /-- No row is left out or stored twice. -/
  rows : ∀ row, row < index.rows → ∃! i : ℕ, i < index.pages.length ∧
    (rowRange index.rows index.pageRows i).1 ≤ row ∧
    row < (rowRange index.rows index.pageRows i).1+(rowRange index.rows index.pageRows i).2

section
variable {rows cols pr size count : ℕ}

lemma shape_eq_ok : shape rows cols pr = .ok (size,count) ↔ 0 < rows ∧ 0 < cols ∧ rows≤1048576
    ∧ cols≤1048576 ∧ 0<pr ∧ rows*cols ≤ maxWeightBytes ∧ cols*pr ≤ maxPageBytes ∧
    pageCount rows pr ≤ maxPages ∧ rows*cols=size ∧ pageCount rows pr = count := by
  simp only [shape,ite_error_eq_ok,ok_eq_ok,mk.injEq,not_or,not_lt,not_le,
    Nat.pos_iff_ne_zero,ne_eq,gt_iff_lt]
  constructor
  · tauto
  · rintro ⟨h1,h2,h3,h4,h5,h6,h7,h8,h9⟩
    refine ⟨?_,?_,⟨h1,h2,h3,h4,h5,h6,h7,h8⟩,h9⟩
    · rw [maxWeightBytes] at h6
      omega
    · rw [maxPageBytes] at h7
      omega

lemma mul_lt_of_lt_pageCount (hpr : 0<pr) {i : ℕ} : i < pageCount rows pr ↔ i*pr < rows := by
  rw [pageCount,← Nat.ceilDiv_eq_add_pred_div,← not_le,ceilDiv_le_iff_le_mul hpr, not_le,mul_comm]

lemma tiles_rows (hrows : 0 < rows) (hpr : 0<pr) :
    Tiles 0 rows ((range (pageCount rows pr)).map (rowRange rows pr)) := by
  have hend : ¬pageCount rows pr*pr < rows :=
    mt (mul_lt_of_lt_pageCount hpr).mpr (lt_irrefl _)
  have hpos : 0 < pageCount rows pr :=
    (mul_lt_of_lt_pageCount hpr).mpr (by rwa [zero_mul])
  have hlast : (pageCount rows pr-1)*pr < rows :=
    (mul_lt_of_lt_pageCount hpr).mp (by omega)
  rw [Nat.sub_mul] at hlast
  have htil : Tiles (0*pr) rows ((range' 0 (pageCount rows pr)).map
      (rowRange rows pr)) :=
    tiles_blocks hpr 0 _ (by rw [zero_add]; omega) (by rw [zero_add]; omega) (by omega)
  rw [zero_mul] at htil
  rw [range_eq_range']
  exact htil

variable {pages : List Page} {file : List Byte}

/-- Pages that are laid out from the index to the end of the file tile it. -/
lemma Laid.exact {head : List Byte} {length : ℕ} (hrows : 0 < rows)
    (hpr : 0<pr) (hcnt : pages.length = pageCount rows pr) (hhead : head =
    file.take (header+pages.length*entryBytes)) (hbou : length ≤
    maxWeightBytes+header+maxPages*entryBytes) (h : Laid rows cols pr 0 head.length length
    pages) : Exact ⟨head,rows,cols,pr,pages⟩ file length where
  head := hhead
  count := hcnt
  bounded := hbou
  decoded i page hget := by
    obtain ⟨hi,rfl⟩ := List.getElem?_eq_some_iff.mp hget
    have hdcd := congrArg (·[i]?) h.decoded
    simp only [getElem?_map,hget,Option.map_some,getElem?_range' hi,zero_add,
      one_mul,Option.some.injEq] at hdcd
    rw [hcnt] at hi
    exact ⟨(mul_lt_of_lt_pageCount hpr).mp hi,hdcd,h.stored _ (getElem_mem _)⟩
  inside page hpage := h.tiles.bounds (mem_map_of_mem hpage)
  bytes position hlow hhigh := by
    obtain ⟨i,⟨range,hget,hin⟩,huniq⟩ := h.tiles.existsUnique hlow hhigh
    obtain ⟨page,hpage,rfl⟩ := Option.map_eq_some_iff.mp ((getElem?_map).symm.trans hget)
    refine ⟨i,⟨page,hpage,hin⟩,?_⟩
    rintro j ⟨q,hq,hinq⟩
    exact huniq j ⟨q.range,by rw [getElem?_map,hq]; rfl,hinq⟩
  rows row hrow := by
    obtain ⟨i,⟨range,hget,hin⟩,huniq⟩ :=
      (tiles_rows hrows hpr).existsUnique (Nat.zero_le row) hrow
    have hmem : ∀ j, j<pages.length → ((List.range (pageCount rows pr)).map
        (rowRange rows pr))[j]? = some (rowRange rows pr j) := by
      intro j hj
      rw [getElem?_map,getElem?_range (by rwa [hcnt] at hj)]
      rfl
    have hi : i<pages.length := by
      obtain ⟨hi,-⟩ := List.getElem?_eq_some_iff.mp hget
      rwa [length_map,length_range,← hcnt] at hi
    obtain rfl : rowRange rows pr i=range := some_inj ((hmem i hi).symm.trans hget)
    exact ⟨i,⟨hi,hin⟩,fun j hj => huniq j ⟨_,hmem j hj.1,hj.2⟩⟩

end

lemma readExact_eq_ok {bytes : List Byte} {start len : ℕ} :
    readExact file start len = .ok bytes ↔ start+len≤file.length ∧ slice file start len = bytes := by
  unfold readExact
  split <;> simp_all

@[simp] lemma length_chunksExact {α : Type*} (n : ℕ) (xs : List α) :
    (chunksExact n xs).length = xs.length/n := by
  rw [chunksExact,length_map,length_range]

lemma metadata_exact {length : ℕ} {index : PageIndex}
    (h : metadata file length = .ok index) : Exact index file length := by
  simp only [metadata,ite_error_eq_ok,bind_eq_ok,pure_eq_ok,ok_eq_ok,Prod.exists,
    readExact_eq_ok,not_or,not_not,not_lt,gt_iff_lt,ne_eq] at h
  obtain ⟨⟨-,hbou⟩,head,⟨-,hhead⟩,⟨-,-⟩,size,count,hshp,⟨-,hidx⟩,entries,
    ⟨hread,hents⟩,last,pages,hpag,hlast,rfl⟩ := h
  obtain ⟨hrows,-,-,-,hpr,-,-,-,-,hcnt⟩ := shape_eq_ok.mp hshp
  have hlen : entries.length=count*entryBytes := by rw [← hents,length_slice hread]
  obtain ⟨hpl,-,hlaid⟩ := readPages_laid hidx hpag
  rw [length_chunksExact,hlen,Nat.mul_div_cancel _ (by decide)] at hpl
  have hfull : head++entries=file.take (header+pages.length*entryBytes) := by
    rw [← hhead,← hents,hpl,slice,slice,drop_zero,take_add]
  have hful : (head++entries).length=header+count*entryBytes := by
    rw [hfull,length_take,hpl,min_eq_left hread]
  rw [← hful,hlast] at hlaid
  exact hlaid.exact hrows hpr (hpl.trans hcnt.symm) hfull hbou

/-- An index of the pages of a matrix in the order they were written. -/
structure Describes (zlib : List Byte → List Byte) (index : PageIndex) (file data : List Byte)
    (rows cols pr : ℕ) : Prop where
  shape : index.rows=rows ∧ index.cols=cols ∧ index.pageRows=pr
  count : index.pages.length = (chunks (pr*cols) data).length
  pages : ∀ (i : ℕ) (part : List Byte), (chunks (pr*cols) data)[i]? = some part →
    ∃ page : Page, index.pages[i]? = some page ∧ page.decoded=part.length ∧
      slice file page.offset page.stored = if page.compressed then zlib part else part

lemma Laid.last_le {offset last : ℕ} (hrows : 0 < rows) (hpr : 0<pr) (hcnt : pages.length =
    pageCount rows pr) (h : Laid rows cols pr 0 offset last pages) : last≤offset+rows*cols := by
  have hsum : (pages.map Page.decoded).sum=rows*cols := by
    have htil := (tiles_rows hrows hpr).add_sum
    rw [zero_add,List.map_map] at htil
    rw [h.decoded,hcnt,← range_eq_range',sum_map_mul_right]
    exact congrArg (·*cols) htil
  have hle : (pages.map Page.stored).sum ≤ (pages.map Page.decoded).sum :=
    sum_le_sum fun page hpage => (h.stored page hpage).1
  have hlast := h.tiles.add_sum
  rw [List.map_map] at hlast
  change offset+(pages.map Page.stored).sum=last at hlast
  omega

def headBytes (digest : BitVec 256) (rows cols pr count : ℕ) : List Byte :=
  magic++([rows,cols,pr,count].flatMap fun value => leBytes 4 (BitVec.ofNat 32 value)) ++
    leBytes 32 digest++List.replicate 8 0

section
variable (digest : BitVec 256) {rows cols pr count : ℕ}

lemma length_headBytes : (headBytes digest rows cols pr count).length = header := by
  simp [headBytes,magic,ascii,header]

lemma magic_headBytes : (headBytes digest rows cols pr count).take 8 = magic := by
  rw [headBytes,append_assoc,append_assoc,take_left' (by simp [magic,ascii])]

lemma zeros_headBytes : slice (headBytes digest rows cols pr count) 56 8 = replicate 8 0 := by
  rfl

/-- The four counts of the header. -/
lemma get_headBytes (rows cols pr count : ℕ) (hrows : rows<2^32) (hcols : cols<2^32) (hpr : pr<2^32)
    (hcnt : count<2^32) : get (headBytes digest rows cols pr count) 8 = rows ∧ get
    (headBytes digest rows cols pr count) 12 = cols ∧ get (headBytes digest rows cols pr
    count) 16 = pr ∧ get (headBytes digest rows cols pr count) 20 = count := by
  simp only [headBytes,flatMap_cons,append_assoc]
  refine ⟨get_append _ (by simp [magic,ascii]) hrows,?_,?_,?_⟩
  · exact get_append _ (by simp) hcols
  · exact get_append _ (by simp) hpr
  · exact get_append _ (by simp) hcnt

end

/-- The chunks of a matrix are its pages of rows. -/
lemma map_length_chunks_rows {data : List Byte} (hcols : 0 < cols)
    (hpr : 0<pr) (hdata : data.length=rows*cols) : (chunks (pr*cols) data).length =
    pageCount rows pr ∧ (chunks (pr*cols) data).map List.length =
    (range' 0 (pageCount rows pr)).map fun i => (rowRange rows pr i).2*cols := by
  have hcnt : (chunks (pr*cols) data).length=pageCount rows pr := by
    rw [length_chunks,hdata,pageCount,← Nat.ceilDiv_eq_add_pred_div,← Nat.ceilDiv_eq_add_pred_div]
    refine eq_of_forall_ge_iff fun c => ?_
    rw [ceilDiv_le_iff_le_mul (mul_pos hpr hcols),ceilDiv_le_iff_le_mul hpr, mul_right_comm]
    exact Nat.mul_le_mul_right_iff hcols
  refine ⟨hcnt,?_⟩
  rw [map_length_chunks,← length_chunks,hcnt,range_eq_range',hdata]
  refine map_congr_left fun i _ => ?_
  change min (rows*cols-pr*cols*i) (pr*cols)=min (rows-i*pr) pr*cols
  rw [Nat.mul_right_comm,mul_comm pr i,← Nat.sub_mul,Nat.mul_min_mul_right]

variable {digest : BitVec 256}

/-- A file that is put together from an index and payloads is read back. -/
lemma metadata_append {size count last : ℕ} {payload : List Byte} (hshp : shape rows cols pr = .ok (size,count)) (hcnt
    : pages.length=count) (hlaid : Laid rows cols pr 0 (header+count*entryBytes) last pages)
    (hlast : header+count*entryBytes+payload.length=last)
    (hfile : headBytes digest rows cols pr count++pages.flatMap Page.entry++payload =
      file) : ∃ head, metadata file file.length = .ok ⟨head,rows,cols,pr,pages⟩ := by
  set head := headBytes digest rows cols pr count with hhea
  set entries := pages.flatMap Page.entry with hentr
  obtain ⟨hrows,hcols,hrowsLe,hcol,hpr,hsize,hpage,hcou,-,hpageCount⟩ :=
    shape_eq_ok.mp hshp
  have hpageRowsLe : pr ≤ maxPageBytes := (Nat.le_mul_of_pos_left pr hcols).trans hpage
  have hhead : head.length=header := length_headBytes digest
  have hents : entries.length=count*entryBytes := by
    rw [length_flatMap_const pages fun page _ => length_entry page, hcnt, mul_comm]
  have hlen : file.length=last := by
    rw [← hfile,length_append,length_append,hhead,hents,hlast]
  have hbou := hlaid.last_le hrows hpr (hcnt.trans hpageCount.symm)
  have hdcd : ∀ page∈pages, page.decoded<2^32 := by
    intro page hmem
    have hmem' : page.decoded ∈ pages.map Page.decoded := mem_map_of_mem hmem
    rw [hlaid.decoded] at hmem'
    obtain ⟨i,-,heq⟩ := mem_map.mp hmem'
    have hle : (rowRange rows pr i).2*cols ≤ pr*cols :=
      Nat.mul_le_mul_right cols (min_le_right _ _)
    rw [mul_comm pr,heq] at hle
    exact lt_of_le_of_lt (hle.trans hpage) (by decide)
  have hreadHead : readExact file 0 header = .ok head := by
    rw [readExact_eq_ok,hlen,← hfile,append_assoc]
    exact ⟨by omega,rfl⟩
  have hrea : readExact file header (count*entryBytes) = .ok entries := by
    rw [readExact_eq_ok,hlen,← hfile,append_assoc,slice_append_right _ _ hhead.le,hhead,
      tsub_self,slice_append_left _ hents]
    exact ⟨by omega,rfl⟩
  have hpag := readPages_entries hlaid le_rfl (by
    have : maxWeightBytes+header+maxPages*entryBytes < 2^64 := by decide
    simp only [entryBytes,header] at *
    omega) hdcd
  obtain ⟨hget8,hget12,hget16,hget20⟩ := get_headBytes digest rows cols pr count (by omega)
    (by omega) (by rw [maxPageBytes] at *; omega) (by rw [maxPages] at *; omega)
  have hmag : head.take 8=magic := magic_headBytes digest
  have hzer : slice head 56 8=replicate 8 0 := zeros_headBytes digest
  have hchu : chunksExact entryBytes entries=pages.map Page.entry :=
    chunksExact_flatMap (by decide) _ fun page _ => length_entry page
  have hpol : ¬(last<header ∨ last>maxWeightBytes+header+maxPages*entryBytes) := by
    have hent := Nat.mul_le_mul_right entryBytes hcou
    rw [hpageCount] at hent
    omega
  have hfits : ¬header+count*entryBytes>last := by omega
  refine ⟨head++entries,?_⟩
  simp only [metadata,hlen,if_neg hpol,hreadHead,ok_bind,hmag,hzer,ne_eq,
    not_true_eq_false,or_self,if_false,show get head 8 = rows from hget8,
    show get head 12=cols from hget12,show get head 16=pr from hget16,
    show get head 20=count from hget20,hshp,hfits,hrea,hchu,hpag,pure_eq_ok]

/-- Every file that is written is accepted, with an index of the pages that were written. -/
lemma exportFile_metadata {sha256 : List Byte → BitVec 256} {zlib : List Byte → List Byte}
    (hzlib : ∀ page, 0 < (zlib page).length) {data : List Byte} {zip : Bool}
    (h : exportFile sha256 zlib data rows cols pr zip = .ok (file,digest)) : ∃ index,
    metadata file file.length = .ok index ∧ Describes zlib index file data rows cols pr := by
  simp only [exportFile,ite_error_eq_ok,bind_eq_ok,pure_eq_ok,ok_eq_ok,Prod.exists,
    not_not,mk.injEq,ne_eq] at h
  obtain ⟨size,count,hshp,hdata,hfile,-⟩ := h
  obtain ⟨-,hcols,-,-,hpr,-,-,-,hsize,hcnt⟩ := shape_eq_ok.mp hshp
  obtain ⟨hchu,hlens⟩ := map_length_chunks_rows hcols hpr (hdata.trans hsize.symm)
  set written := writtenPages zlib zip data rows cols pr with hwri
  set payload := written.flatMap snd with hpay
  have hfile' : headBytes (sha256 data) rows cols pr count ++
      (written.map fst).flatMap Page.entry++payload = file := by
    rw [flatMap_map]
    exact hfile
  have hpar : ∀ part ∈ chunks (pr*cols) data, 0<part.length := by
    intro part hpart
    have hmem : part.length ∈ (chunks (pr*cols) data).map List.length :=
      mem_map_of_mem hpart
    rw [hlens,← range_eq_range'] at hmem
    obtain ⟨i,hi,heq⟩ := mem_map.mp hmem
    have hrow := (mul_lt_of_lt_pageCount hpr).mp (mem_range.mp hi)
    rw [← heq]
    exact mul_pos (Nat.lt_min.mpr ⟨by omega,hpr⟩) hcols
  have hlaid : Laid rows cols pr 0 (header+count*entryBytes)
      (header+count*entryBytes+payload.length) (written.map fst) := by
    rw [← hcnt]
    exact writePages_laid hzlib _ (by rw [hlens,hchu]) hpar
  have hpl : (written.map fst).length=count := by
    rw [length_map,hwri,writtenPages,length_writePages,hchu,hcnt]
  obtain ⟨head,hread⟩ := metadata_append hshp hpl hlaid rfl hfile'
  refine ⟨_,hread,⟨rfl,rfl,rfl⟩,?_,fun i part hpart => ?_⟩
  · rw [hpl,hchu,hcnt]
  · have hfrt : (headBytes (sha256 data) rows cols pr count++(written.map fst).flatMap
        Page.entry).length = header+pageCount rows pr*entryBytes := by
      rw [length_append,length_headBytes,
        length_flatMap_const _ fun page _ => length_entry page, hpl, hcnt, mul_comm]
    obtain ⟨page,payload,hget,hdcd,rfl,hsli⟩ := writePages_stored zlib zip hfrt hpart
    refine ⟨page,?_,hdcd,?_⟩
    · rw [getElem?_map]
      exact congrArg (Option.map fst) hget
    · rw [← hfile']
      exact hsli

/-- The writer and the reader agree, and what the reader accepts tiles the file. -/
theorem index_agrees_and_tiles (sha256 : List Byte → BitVec 256) (zlib : List Byte → List Byte)
    (hzlib : ∀ page, 0 < (zlib page).length) : (∀ data rows cols pr zip file digest,
    exportFile sha256 zlib data rows cols pr zip = .ok (file,digest) →
    ∃ index, metadata file file.length = .ok index ∧ Describes zlib index file data rows cols pr) ∧
    ∀ file length index, metadata file length = .ok index → Exact index file length :=
  ⟨fun _ _ _ _ _ _ _ h => exportFile_metadata hzlib h,fun _ _ _ h => metadata_exact h⟩

def adler32 (page : List Byte) : ℕ :=
  let sums := page.foldl (fun s x => ((s.1+x.toNat)%65521,(s.2+s.1+x.toNat)%65521)) (1,0)
  sums.2*65536+sums.1

/-- The zlib stream of one stored block. -/
def storedZlib (page : List Byte) : List Byte :=
  [0x78,0x01,1]++leBytes 2 (BitVec.ofNat 16 page.length)++leBytes 2 (~~~BitVec.ofNat 16 page.length)
    ++ page++(leBytes 4 (BitVec.ofNat 32 (adler32 page))).reverse

/-- A matrix of three rows in two pages, the second one short. -/
theorem index_agrees_and_tiles_at : ∃ file digest index, exportFile
    (fun _ => 7) storedZlib [1,2,3,4,5,6] 3 2 2 true = .ok (file,digest) ∧
    metadata file file.length = .ok index ∧ Describes storedZlib index file [1,2,3,4,5,6] 3 2 2 ∧
    Exact index file file.length ∧ index.pages = [⟨112,4,4,false⟩,⟨116,2,2,false⟩] := by
  have h := index_agrees_and_tiles (fun _ => 7) storedZlib fun page => by simp [storedZlib]
  obtain ⟨index,hidx,hdes⟩ := h.1 [1,2,3,4,5,6] 3 2 2 true _ _ rfl
  refine ⟨_,_,index,rfl,hidx,hdes,h.2 _ _ _ hidx,?_⟩
  have hpag := congrArg (Except.map PageIndex.pages) hidx
  have heval : Except.map PageIndex.pages (.ok index : Except String PageIndex) =
      .ok [⟨112,4,4,false⟩,⟨116,2,2,false⟩] := hpag.symm.trans (by decide +kernel)
  simpa [Except.map] using heval

end Pllm.Paged
