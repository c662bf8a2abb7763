import SimpleDfs.Base.BigEndian
import SimpleDfs.Base.StdMap

/-!
# Marshalling

`marshall` and `unmarshall` of `marshall.h` and `rpc.cc`, with the operators for the built-in types,
strings, vectors and maps. Strings are their bytes.

A `Marshall` is the memory that `_buf` points to, with the capacity and the write position. These
are `int`s in the source; a capacity that would be beyond the largest `int` comes out negative,
`realloc` fails and `VERIFY` stops the program, and a position beyond it has no meaning at all. Both
are `none` here. All that an operator `<<` does is a sequence of `rawbyte` and `rawbytes`, so it is
given as the list of these writes (`Wire.put`), and `Marshall.write` executes them.

An `Unmarshall` is a block of memory with the size that it was given and the read position, which
are `int`s, and it records the reads that were made. What lies outside of the block is not known to
the program; it is read as `0` here, and the record shows the read. Lengths are unsigned 32-bit
numbers, and the sums that the source computes of them wrap.
-/

namespace SimpleDfs.Rpc

open BigEndian

/-- A string, by its bytes. -/
abbrev Bytes := List UInt8

/-- `RPC_HEADER_SZ`, without checksums: the size slot and the larger one of the two headers. -/
def rpcHeaderSz : ℕ := 24

/-- `DEFAULT_RPC_SZ`. -/
def defaultRpcSz : ℕ := 1024

/-- One more than the largest `int`. -/
def intLimit : ℕ := 2147483648

/-! ## `marshall` -/

/-- The state of a `marshall`. -/
structure Marshall where
  /-- The memory that `_buf` points to. -/
  buf : ℕ → UInt8
  /-- The capacity of the buffer. -/
  capa : ℕ
  /-- The write position. -/
  ind : ℕ

/-- A write into a `marshall`. -/
inductive Chunk where
  /-- `rawbyte`. -/
  | rawbyte (x : UInt8)
  /-- `rawbytes`. -/
  | rawbytes (p : Bytes)
  deriving DecidableEq, Repr

/-- The bytes that a write adds. -/
def Chunk.bytes : Chunk → Bytes
  | rawbyte x => [x]
  | rawbytes p => p

/-- The bytes that some writes add. -/
def bytesOf (cs : List Chunk) : Bytes := cs.flatMap Chunk.bytes

@[simp] theorem bytesOf_nil : bytesOf [] = [] := rfl

@[simp] theorem bytesOf_cons (c : Chunk) (cs : List Chunk) :
    bytesOf (c :: cs) = c.bytes ++ bytesOf cs := List.flatMap_cons ..

@[simp] theorem bytesOf_append (cs cs' : List Chunk) :
    bytesOf (cs ++ cs') = bytesOf cs ++ bytesOf cs' := List.flatMap_append

namespace Marshall

/-- The constructor, on memory that holds anything. -/
def construct (memory : ℕ → UInt8) : Marshall := ⟨memory, defaultRpcSz, rpcHeaderSz⟩

/-- The buffer is enlarged to a capacity. -/
def realloc (m : Marshall) (capa : ℕ) : Option Marshall :=
  if capa < intLimit then some { m with capa := capa } else none

/-- Some bytes are written at the write position. -/
def store (m : Marshall) (p : Bytes) : Marshall :=
  { m with
    buf := fun i => if m.ind ≤ i ∧ i < m.ind + p.length then p.getD (i - m.ind) 0 else m.buf i
    ind := m.ind + p.length }

/-- `marshall::rawbyte`. -/
def rawbyte (m : Marshall) (x : UInt8) : Option Marshall :=
  (if m.ind ≥ m.capa then m.realloc (2 * m.capa) else some m).map fun m => m.store [x]

/-- `marshall::rawbytes`, with the position after it in the range of an `int`. -/
def rawbytes (m : Marshall) (p : Bytes) : Option Marshall :=
  if m.ind + p.length < intLimit then
    (if m.ind + p.length > m.capa then
      m.realloc (if m.capa > p.length then 2 * m.capa else m.capa + p.length)
    else some m).map fun m => m.store p
  else none

/-- A write. -/
def writeChunk (m : Marshall) : Chunk → Option Marshall
  | .rawbyte x => m.rawbyte x
  | .rawbytes p => m.rawbytes p

/-- Some writes, one after the other. -/
def write (m : Marshall) : List Chunk → Option Marshall
  | [] => some m
  | c :: cs => (m.writeChunk c).bind fun m => m.write cs

/-- The bytes up to the write position, as `take_buf` hands them over. -/
def pdu (m : Marshall) : Bytes := (List.range m.ind).map m.buf

/-- `marshall::get_content`, which is `marshall::str`: the bytes after the header. -/
def str (m : Marshall) : Bytes := m.pdu.drop rpcHeaderSz

end Marshall

/-! ## `unmarshall` -/

/-- A read from the memory of an `unmarshall`, or a change of the read position. -/
inductive Access where
  /-- One byte was read at a position. -/
  | byte (i : ℤ)
  /-- A string of `n` bytes was asked for at a position. -/
  | ask (i : ℤ) (n : ℕ)
  /-- `n` bytes were read from a position on, which took the position to `j`. -/
  | bytes (i : ℤ) (n : ℕ) (j : ℤ)
  /-- The position was set by a header operation. -/
  | seek (j : ℤ)
  deriving DecidableEq, Repr

/-- The state of an `unmarshall`, with the accesses made so far, the latest one first. -/
structure Unmarshall where
  /-- The block of memory. -/
  buf : Bytes
  /-- The size that was given. -/
  sz : ℤ
  /-- The read position. -/
  ind : ℤ
  /-- Whether everything that was asked for was there. -/
  ok : Bool
  /-- The accesses so far. -/
  trace : List Access
  deriving DecidableEq, Repr

/-- The conversion of an integer to a 32-bit `int`. -/
def toInt (x : ℤ) : ℤ := (x + 2147483648) % 4294967296 - 2147483648

/-- The conversion of an integer to a 32-bit `unsigned`. -/
def toUnsigned (x : ℤ) : ℤ := x % 4294967296

namespace Unmarshall

/-- `unmarshall(char *b, int sz)`, on a block of that size. -/
def ofPdu (b : Bytes) : Unmarshall := ⟨b, b.length, 0, true, []⟩

/-- `unmarshall(const std::string &s)`, which is `take_content`: the bytes of `s` after room for a
header, which holds anything. -/
def ofContent (memory : ℕ → UInt8) (s : Bytes) : Unmarshall :=
  ⟨(List.range rpcHeaderSz).map memory ++ s, s.length + rpcHeaderSz, rpcHeaderSz, true, []⟩

/-- `unmarshall::take_in`: the contents of another one, and what was recorded of them. -/
def takeIn (another : Unmarshall) : Unmarshall :=
  ⟨another.buf, another.sz, rpcHeaderSz, another.sz ≥ rpcHeaderSz,
    .seek rpcHeaderSz :: another.trace⟩

/-- `unmarshall::okdone`. -/
def okdone (u : Unmarshall) : Bool := u.ok && u.ind == u.sz

/-- The byte at a position. -/
def peek (u : Unmarshall) (i : ℤ) : UInt8 := if 0 ≤ i then u.buf.getD i.toNat 0 else 0

/-- `unmarshall::rawbyte`. -/
def rawbyte (u : Unmarshall) : UInt32 × Unmarshall :=
  if u.ind ≥ u.sz then (0, { u with ok := false })
  else (widen (u.peek u.ind), { u with ind := u.ind + 1, trace := .byte u.ind :: u.trace })

/-- `unmarshall::rawbytes`, into a string that was empty before. -/
def rawbytes (u : Unmarshall) (n : ℕ) : Bytes × Unmarshall :=
  if toUnsigned (u.ind + n) > toUnsigned u.sz then
    ([], { u with ok := false, trace := .ask u.ind n :: u.trace })
  else
    let ind := toInt (toUnsigned (u.ind + n))
    ((List.range n).map fun (j : ℕ) => u.peek (u.ind + j),
      { u with ind := ind, trace := .bytes u.ind n ind :: .ask u.ind n :: u.trace })

/-- A header operation sets the position. -/
def seek (u : Unmarshall) (j : ℤ) : Unmarshall := { u with ind := j, trace := .seek j :: u.trace }

end Unmarshall

/-! ## The operators -/

/-- A type with `operator<<` and `operator>>`. -/
class Wire (α : Type) where
  /-- The writes of `operator<<`. -/
  put : α → List Chunk
  /-- `operator>>`, into a variable that was just declared. -/
  get : Unmarshall → α × Unmarshall

export Wire (put get)

instance : Wire Bool where
  put x := [.rawbyte (if x then 1 else 0)]
  get u :=
    let (b, u) := u.rawbyte
    (b != 0, u)

/-- `unsigned char`. -/
instance : Wire UInt8 where
  put x := [.rawbyte x]
  get u :=
    let (b, u) := u.rawbyte
    (b.toUInt8, u)

/-- `char`. -/
instance : Wire Int8 where
  put x := put x.toUInt8
  get u :=
    let (b, u) := u.rawbyte
    (b.toUInt8.toInt8, u)

/-- `unsigned short`. -/
instance : Wire UInt16 where
  put x := [.rawbyte (byte x.toUInt32 8), .rawbyte (byte x.toUInt32 0)]
  get u :=
    let (b₀, u) := u.rawbyte
    let (b₁, u) := u.rawbyte
    (halfWord b₀ b₁, u)

/-- `short`. -/
instance : Wire Int16 where
  put x := put x.toUInt16
  get u :=
    let (b₀, u) := u.rawbyte
    let (b₁, u) := u.rawbyte
    ((halfWord b₀ b₁).toInt16, u)

/-- `unsigned int`. -/
instance : Wire UInt32 where
  put x := [.rawbyte (byte x 24), .rawbyte (byte x 16), .rawbyte (byte x 8), .rawbyte (byte x 0)]
  get u :=
    let (b₀, u) := u.rawbyte
    let (b₁, u) := u.rawbyte
    let (b₂, u) := u.rawbyte
    let (b₃, u) := u.rawbyte
    (word b₀ b₁ b₂ b₃, u)

/-- `int`. -/
instance : Wire Int32 where
  put x := put x.toUInt32
  get u :=
    let (b₀, u) := u.rawbyte
    let (b₁, u) := u.rawbyte
    let (b₂, u) := u.rawbyte
    let (b₃, u) := u.rawbyte
    ((word b₀ b₁ b₂ b₃).toInt32, u)

/-- `unsigned long long`. -/
instance : Wire UInt64 where
  put x := put (x >>> 32).toUInt32 ++ put x.toUInt32
  get u :=
    let (h, u) := get u
    let (l, u) := get u
    (doubleWord h l, u)

/-- A string, by its bytes. -/
structure Str where
  /-- The bytes. -/
  data : Bytes
  deriving DecidableEq, Repr

/-- `std::string`. The bytes are read only when the length was there. -/
instance : Wire Str where
  put s := put (UInt32.ofNat s.data.length) ++ [.rawbytes s.data]
  get u :=
    let (sz, u) : UInt32 × Unmarshall := get u
    if u.ok then
      let (data, u) := u.rawbytes sz.toNat
      (⟨data⟩, u)
    else (⟨[]⟩, u)

theorem get_str (u : Unmarshall) : (get u : Str × Unmarshall) =
    match (get u : UInt32 × Unmarshall) with
    | (sz, u) => if u.ok then
        match u.rawbytes sz.toNat with
        | (data, u) => (⟨data⟩, u)
      else (⟨[]⟩, u) := rfl

section Containers

variable {α β : Type} [Wire α] [Wire β]

/-- The loop of `operator>>` for a vector. -/
def getLoop : ℕ → Unmarshall → List α × Unmarshall
  | 0, u => ([], u)
  | n + 1, u =>
    let (z, u) := get u
    let (v, u) := getLoop n u
    (z :: v, u)

/-- `std::vector`. -/
instance : Wire (List α) where
  put v := put (UInt32.ofNat v.length) ++ v.flatMap put
  get u :=
    let (n, u) : UInt32 × Unmarshall := get u
    getLoop n.toNat u

theorem get_vector (u : Unmarshall) : (get u : List α × Unmarshall) =
    match (get u : UInt32 × Unmarshall) with
    | (n, u) => getLoop n.toNat u := rfl

/-- The loop of `operator>>` for a map. -/
def getMapLoop [LinearOrder α] : ℕ → StdMap α β → Unmarshall → StdMap α β × Unmarshall
  | 0, d, u => (d, u)
  | n + 1, d, u =>
    let (a, u) := get u
    let (b, u) := get u
    getMapLoop n (d.insert a b) u

/-- `std::map`. -/
instance [LinearOrder α] : Wire (StdMap α β) where
  put d := put (UInt32.ofNat d.entries.length) ++ d.entries.flatMap fun e => put e.1 ++ put e.2
  get u :=
    let (n, u) : UInt32 × Unmarshall := get u
    getMapLoop n.toNat .empty u

theorem get_map [LinearOrder α] (u : Unmarshall) : (get u : StdMap α β × Unmarshall) =
    match (get u : UInt32 × Unmarshall) with
    | (n, u) => getMapLoop n.toNat .empty u := rfl

end Containers

/-! ## The headers -/

/-- `req_header`. -/
structure ReqHeader where
  /-- The number of the call. -/
  xid : Int32
  /-- The procedure. -/
  proc : Int32
  /-- The client. -/
  clt_nonce : UInt32
  /-- The server that the client is bound to. -/
  srv_nonce : UInt32
  /-- The calls up to this one have been answered. -/
  xid_rep : Int32
  deriving DecidableEq, Repr

/-- `reply_header`. -/
structure ReplyHeader where
  /-- The number of the call. -/
  xid : Int32
  /-- What the procedure returned. -/
  ret : Int32
  deriving DecidableEq, Repr

/-- The size of `rpc_sz_t`, which is the size slot that a connection fills in. -/
def sizeofSz : ℕ := 4

namespace Marshall

/-- The header operations write behind the size slot, and go back to where they were. -/
def packAt (m : Marshall) (cs : List Chunk) : Option Marshall :=
  (write { m with ind := sizeofSz } cs).map fun m' => { m' with ind := m.ind }

/-- `marshall::pack`, whose writes are those of `operator<<` for an `int`. -/
def pack (x : Int32) : List Chunk := put x

/-- `marshall::pack_req_header`. -/
def packReqHeader (m : Marshall) (h : ReqHeader) : Option Marshall :=
  m.packAt (pack h.xid ++ pack h.proc ++ pack h.clt_nonce.toInt32 ++ pack h.srv_nonce.toInt32 ++
    pack h.xid_rep)

/-- `marshall::pack_reply_header`. -/
def packReplyHeader (m : Marshall) (h : ReplyHeader) : Option Marshall :=
  m.packAt (pack h.xid ++ pack h.ret)

end Marshall

namespace Unmarshall

/-- `unmarshall::unpack`, which reads as `operator>>` for an `int`. -/
def unpack (u : Unmarshall) : Int32 × Unmarshall := get u

/-- `unmarshall::unpack_req_header`. -/
def unpackReqHeader (u : Unmarshall) : ReqHeader × Unmarshall :=
  let u := u.seek sizeofSz
  let (xid, u) := u.unpack
  let (proc, u) := u.unpack
  let (clt_nonce, u) := u.unpack
  let (srv_nonce, u) := u.unpack
  let (xid_rep, u) := u.unpack
  (⟨xid, proc, clt_nonce.toUInt32, srv_nonce.toUInt32, xid_rep⟩, u.seek rpcHeaderSz)

/-- `unmarshall::unpack_reply_header`. -/
def unpackReplyHeader (u : Unmarshall) : ReplyHeader × Unmarshall :=
  let u := u.seek sizeofSz
  let (xid, u) := u.unpack
  let (ret, u) := u.unpack
  (⟨xid, ret⟩, u.seek rpcHeaderSz)

end Unmarshall

end SimpleDfs.Rpc
