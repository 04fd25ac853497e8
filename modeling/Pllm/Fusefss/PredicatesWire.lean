import Pllm.Fusefss.Predicates

/-! Material of one party as a packet: what is written, and the checks of its import. -/
namespace Pllm.Fusefss.Predicates
open Pllm.Lib
open Pllm.Fss.CompactDcf (RingComparison Key Correction)
open Pllm.Fss.SharedRescale (Context)

namespace Reader

def take (n : ℕ) (input : List Byte) : Except Error (List Byte × List Byte) :=
  if input.length<n then .error .context else .ok (input.take n,input.drop n)

def word (bits : ℕ) (input : List Byte) : Except Error (BitVec 64 × List Byte) := do
  let (bytes,input) ← take 8 input
  let value := ofLeBytes 64 bytes
  if ¬(1≤bits ∧ bits≤50) ∨ value.toNat≥2^bits then .error .context else .ok (value,input)

def finish (input : List Byte) : Except Error Unit :=
  if input.length≠0 then .error .context else .ok ()

/-- So many records behind one another. -/
def many {α : Type} (record : List Byte → Except Error (α × List Byte)) :
    ℕ → List Byte → Except Error (List α × List Byte)
  | 0, input => .ok ([],input)
  | n+1, input => do
    let (a,input) ← record input
    let (as,input) ← many record n input
    return (a::as,input)

end Reader

def wireMagic : List Byte := ascii "PLLMFW01"

def bitByte (b : Bool) : Byte := if b then 1 else 0

def writeCorrection (c : Correction (BitVec 64)) : List Byte :=
  leBytes 16 c.seed++(leBytes 8 c.value++[bitByte c.control.1,bitByte c.control.2])

def writeKey (key : Key (BitVec 64)) : List Byte :=
  leBytes 16 key.root++(leBytes 8 key.finalWord++key.words.flatMap writeCorrection)

def readCorrection (outputBits : ℕ) (input : List Byte) :
    Except Error (Correction (BitVec 64) × List Byte) := do
  let (seed,input) ← Reader.take 16 input
  let (value,input) ← Reader.word outputBits input
  let (control,input) ← Reader.take 2 input
  if control.any fun b => decide (b>1) then .error .context
  else return (⟨ofLeBytes 128 seed,value,(control.getD 0 0==1,control.getD 1 0==1)⟩,input)

def readKey (inputBits outputBits : ℕ) (input : List Byte) :
    Except Error (Key (BitVec 64) × List Byte) := do
  let (root,input) ← Reader.take 16 input
  let (finalWord,input) ← Reader.word outputBits input
  let (words,input) ← Reader.many (readCorrection outputBits) inputBits input
  return (⟨ofLeBytes 128 root,words,finalWord⟩,input)

def validateMaterial (bytes : List Byte) (inputBits outputBits : ℕ) : Except Error Unit := do
  (RingComparison.validate inputBits outputBits).mapError fun _ => Error.domain
  if bytes.length≠16+8+inputBits*(18+8) then .error .context
  else do
    let (_,rest) ← readKey inputBits outputBits bytes
    Reader.finish rest

def readMaterial (bytes : List Byte) (inputBits outputBits : ℕ) : Except Error RingComparison := do
  validateMaterial bytes inputBits outputBits
  let (key,_) ← readKey inputBits outputBits bytes
  return ⟨key,inputBits,outputBits⟩

def writeTriple (t : TripleShare) : List Byte :=
  leBytes 8 t.words.1++(leBytes 8 t.words.2.1++leBytes 8 t.words.2.2)

/-- The span check in front of valid records only decides which error an invalid one gets. -/
def readTriple (bits : ℕ) (input : List Byte) : Except Error (TripleShare × List Byte) := do
  let (a,input) ← Reader.word bits input
  let (b,input) ← Reader.word bits input
  let (c,input) ← Reader.word bits input
  let mask ← (TripleShare.ringMask bits).mapError primitiveError
  return (⟨(a,b,c),mask⟩,input)

def writeQuery (q : Query) : List Byte :=
  leBytes 8 (BitVec.ofNat 64 q.bits)++(leBytes 8 q.shift++writeKey q.key.key)

def readQuery (env : Platform) (bits : ℕ) (input : List Byte) : Except Error (Query × List Byte) := do
  let (queryBits,input) ← Reader.word 6 input
  let queryBits := queryBits.toNat
  if queryBits=0 ∨ queryBits>bits then .error .context
  else do
    let (shift,input) ← Reader.word queryBits input
    let cost ← keyResources env queryBits
    let (bytes,input) ← Reader.take cost.encodedKeyBytes input
    let key ← readMaterial bytes queryBits 1
    return (⟨queryBits,shift,key⟩,input)

structure Scan where
  depth : ℕ
  count : ℕ
  gates : ℕ

def writeCode (c : CodeWord) : List Byte := leBytes 8 (BitVec.ofNat 64 c.1)++leBytes 8 c.2

/-- What an instruction does to the height of the stack and the number of gates. -/
def scanOpcode (shape : Shape) (op : ℕ) (arg : BitVec 64) (s : Scan) : Except Error Scan :=
  match op with
  | 0 => if arg.toNat≤1 then .ok { s with depth := s.depth+1 } else .error .context
  | 1 => if arg.toNat < shape.queries then .ok { s with depth := s.depth+1 } else .error .context
  | 2 => if arg=0 ∧ s.depth≥1 then .ok s else .error .context
  | 3 => if arg=0 ∧ s.depth≥2 then .ok { s with depth := s.depth-1 } else .error .context
  | 4 | 5 =>
    if arg=0 ∧ s.depth≥2 then .ok { s with depth := s.depth-1, gates := s.gates+1 }
    else .error .context
  | _ => .error .context

def scanInstruction (shape : Shape) (s : Scan) (input : List Byte) :
    Except Error (CodeWord × Scan × List Byte) := do
  let (op,input) ← Reader.word 3 input
  let (arg,input) ← Reader.word 32 input
  let s ← scanOpcode shape op.toNat arg s
  if s.count=shape.vmOps then .error .context
  else return ((op.toNat,arg),{ s with count := s.count+1 },input)

/-- The program of one output leaves one value. -/
def scanOutput (shape : Shape) : ℕ → Scan → List Byte → Except Error (List CodeWord × Scan × List Byte)
  | 0, s, input => if s.depth≠1 then .error .context else .ok ([],s,input)
  | n+1, s, input => do
    let (c,s,input) ← scanInstruction shape s input
    let (code,s,input) ← scanOutput shape n s input
    return (c::code,s,input)

def scanOutputs (shape : Shape) : List ℕ → Scan → List Byte →
    Except Error (List CodeWord × Scan × List Byte)
  | [], s, input => .ok ([],s,input)
  | n::lengths, s, input => do
    let (code,s,input) ← scanOutput shape n { s with depth := 0 } input
    let (more,s,input) ← scanOutputs shape lengths s input
    return (code++more,s,input)

def scanProgram (shape : Shape) (input : List Byte) : Except Error (List CodeWord × List Byte) := do
  let lengths := (List.range shape.booleanOutputs).map fun o => shape.programLengths.getD o 0
  let (code,s,input) ← scanOutputs shape lengths ⟨0,0,0⟩ input
  if s.count≠shape.vmOps ∨ s.gates≠shape.booleanAnds then .error .context
  else return (code,input)

def envelope (kind role : ℕ) (binding nonce : BitVec 256) (body : ℕ) : List Byte :=
  wireMagic++([BitVec.ofNat 8 kind,BitVec.ofNat 8 role,0,0,0,0,0,0]++(leBytes 32 binding
    ++ (leBytes 32 nonce++leBytes 8 (BitVec.ofNat 64 body))))

def packet (env : Platform) (kind role : ℕ) (binding nonce : BitVec 256) (body : ℕ) (budget : Budget)
    (granted : Bool) (written : Except Error (List Byte)) : Except Error (List Byte) :=
  if body+envelopeBytes>maxAllocationBytes then .error .resource
  else do
    let len ← budget.reserve (body+envelopeBytes)
    if ¬granted then .error .allocation
    else do
      let bytes := envelope kind role binding nonce body++(← written)
      if bytes.length≠len-32 then .error .resource
      else return bytes++leBytes 32 (env.sha256 bytes)

def openPacket (env : Platform) (packet : List Byte) (kind role : ℕ) (binding nonce : BitVec 256)
    (body : ℕ) : Except Error (List Byte) :=
  if packet.length≠body+envelopeBytes ∨ packet.take 8 ≠ wireMagic
      ∨ (packet.drop 8).take 8 ≠ [BitVec.ofNat 8 kind,BitVec.ofNat 8 role,0,0,0,0,0,0]
      ∨ (packet.drop 16).take 32 ≠ leBytes 32 binding ∨ (packet.drop 48).take 32 ≠ leBytes 32 nonce
      ∨ (packet.drop 80).take 8 ≠ leBytes 8 (BitVec.ofNat 64 body)
      ∨ packet.drop (packet.length-32) ≠ leBytes 32 (env.sha256 (packet.take (packet.length-32))) then
    .error .context
  else .ok ((packet.take (packet.length-32)).drop 88)

/-- The replay ledger of one endpoint: which role and nonce it has seen. -/
structure ImportGuard where
  capacity : ℕ
  claims : List (ℕ × BitVec 256)

def ImportGuard.claim (self : ImportGuard) (role : ℕ) (nonce : BitVec 256) : Except Error ImportGuard :=
  if role>1 then .error .domain
  else if (role,nonce)∈self.claims then .error .consumed
  else if self.claims.length=self.capacity then .error .resource
  else .ok { self with claims := (role,nonce)::self.claims }

def writeTriples : List (Option TripleShare) → Except Error (List Byte)
  | [] => .ok []
  | none::_ => .error .consumed
  | some t::ts => do
    let rest ← writeTriples ts
    return writeTriple t++rest

def writeMaterial (m : Material) : Except Error (List Byte) := do
  let triples ← writeTriples m.triples
  return leBytes 8 m.mask++(m.queries.flatMap writeQuery++(m.code.flatMap writeCode++triples))

/-- The records of a body, in order. -/
def readBody (env : Platform) (d : Descriptor) (input : List Byte) :
    Except Error (Material × List Byte) := do
  let (mask,input) ← Reader.word d.bits input
  let (queries,input) ← Reader.many (readQuery env d.bits) d.shape.queries input
  let (code,input) ← scanProgram d.shape input
  let (triples,input) ← Reader.many (readTriple 1) d.shape.booleanAnds input
  return (⟨mask,queries,code,triples.map some⟩,input)

namespace Party

def role (self : Party) : ℕ := if self.id then 1 else 0

def exportMaterial (env : Platform) (self : Party) (budget : Budget) (granted : Bool) :
    Except Error (List Byte) :=
  match self.state with
  | none => .error .consumed
  | some (.ready material) => do
    let keys ← material.queries.mapM fun q => do
      let cost ← keyResources env q.bits
      return 16+cost.encodedKeyBytes
    let body := 8+material.code.length*16+material.triples.length*tripleBytes+keys.sum
    packet env 4 self.role self.binding self.nonce body budget granted (writeMaterial material)
  | some _ => .error .context

/-- The import behind the claim of role and nonce. A first pass over the body checks every record
before anything is reserved; the second one keeps them. -/
def importBody (env : Platform) (d : Descriptor) (digest sourceDigest : BitVec 256) (context : Context)
    (role : ℕ) (nonce : BitVec 256) (packet : List Byte) (budget : Budget) (granted : Bool) :
    Except Error Party := do
  let cost ← resources env d
  if context.firstTensorIndex+1≥2^64 then .error .domain
  else do
    let binding := Predicates.binding env digest sourceDigest context
    let key ← keyResources env d.bits
    let maxBody := 8+d.shape.queries*(16+key.encodedKeyBytes)+d.shape.vmOps*16
      +d.shape.booleanAnds*tripleBytes
    let bodyLen := packet.length-envelopeBytes
    if bodyLen>maxBody then .error .resource
    else do
      let input ← openPacket env packet 4 role binding nonce bodyLen
      let (_,scan) ← readBody env d input
      Reader.finish scan
      let lease ← budget.reserve cost.partyReservationBytes
      if ¬granted then .error .allocation
      else do
        let (material,input) ← readBody env d input
        Reader.finish input
        return ⟨role==1,d.bits,d.shape,binding,nonce,0,some (.ready material),lease⟩

/-- A claim is spent also where the import fails. -/
def importMaterial (env : Platform) (d : Descriptor) (digest sourceDigest : BitVec 256)
    (context : Context) (role : ℕ) (nonce : BitVec 256) (packet : List Byte) (guard : ImportGuard)
    (budget : Budget) (granted : Bool) : Except Error Party × ImportGuard :=
  match guard.claim role nonce with
  | .error e => (.error e,guard)
  | .ok guard =>
    (importBody env d digest sourceDigest context role nonce packet budget granted,guard)

end Party

end Pllm.Fusefss.Predicates
