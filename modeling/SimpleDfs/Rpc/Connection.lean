import SimpleDfs.Base.System
import SimpleDfs.Rpc.Decoding

/-!
# A connection

One direction of a TCP connection between two `connection` objects of `connection.cc`: the threads
that call `send` and the callback `write_cb` at the sender, the bytes on the wire, and the callback
`read_cb` at the receiver. `send` is cut where it gives up the mutex: at the two waits, and where it
removes the file descriptor after a failure. Waiting threads may wake up at any time, as condition
variables allow.

How many bytes a `write` or `read` transfers and how it fails is up to the environment. The wire is
reliable: a `read` gets the next bytes that were written, any number of them up to what it asked
for, or nothing, and bytes may stay on the wire for ever. A `read_cb` that makes two reads is one
step: a write between the two could as well have come before both, since a read need not get all
there is.

The flag `dead_` of either object may also be set by `closeconn`, or by the other direction of the
connection, which is not modelled.
-/

namespace SimpleDfs.Rpc

open BigEndian

/-- A sending thread. -/
abbrev Thread := ℕ

/-- `connection::charbuf`. For a buffer that is being read, `buf` is the part that is filled. -/
structure CharBuf where
  /-- The bytes, unless the pointer is `NULL`. -/
  buf : Option Bytes
  /-- The size of the PDU. -/
  sz : ℤ
  /-- The number of bytes written or read so far. -/
  solong : ℤ
  deriving DecidableEq, Repr

/-- A buffer that is not in use. -/
def CharBuf.null : CharBuf := ⟨none, 0, 0⟩

/-- `htonl`, as the bytes in memory. -/
def htonl (sz : ℤ) : Bytes :=
  let x := UInt32.ofNat sz.toNat
  [byte x 24, byte x 16, byte x 8, byte x 0]

/-- `ntohl` of the bytes in memory, as an `int`. -/
def ntohl (s : Bytes) : ℤ :=
  toInt (word (widen (s.getD 0 0)) (widen (s.getD 1 0)) (widen (s.getD 2 0))
    (widen (s.getD 3 0))).toNat

/-! ## The sender -/

/-- Where a thread is in `send`. -/
inductive SendPc where
  /-- It has not called `send`. -/
  | idle
  /-- It waits for `send_wait_`, to send `b`. -/
  | sendWait (b : Bytes)
  /-- Its PDU was started, and it waits for `send_complete_`. -/
  | sendComplete
  /-- The write failed, and it removes the file descriptor. -/
  | removing
  /-- `send` returned. -/
  | returned (ret : Bool)
  deriving DecidableEq, Repr

/-- What a `write` does. -/
inductive WriteResult where
  /-- It writes `n` bytes. -/
  | wrote (n : ℕ)
  /-- It fails with `EAGAIN`. -/
  | again
  /-- It fails otherwise. -/
  | error
  deriving DecidableEq, Repr

/-- The sending `connection`. -/
structure Sender where
  /-- The connection is closed or broken. -/
  dead : Bool
  /-- The PDU that is being written. -/
  wpdu : CharBuf
  /-- The threads. -/
  pc : Thread → SendPc
  /-- The PDUs whose transmission was started. -/
  started : List Bytes
  /-- All bytes written so far. -/
  wire : Bytes

/-- `connection::writepdu`: whether it succeeds, the buffer after it and the bytes that it writes.
-/
def writepdu (wpdu : CharBuf) (result : WriteResult) : Option (Bool × CharBuf × Bytes) :=
  if wpdu.solong < 0 then none
  else if wpdu.solong = wpdu.sz then some (true, wpdu, [])
  else
    wpdu.buf.bind fun buf =>
      let buf := if wpdu.solong = 0 then htonl wpdu.sz ++ buf.drop sizeofSz else buf
      let wpdu := { wpdu with buf := some buf }
      match result with
      | .wrote n =>
        if (n : ℤ) ≤ wpdu.sz - wpdu.solong then
          some (true, { wpdu with solong := wpdu.solong + n },
            (buf.drop wpdu.solong.toNat).take n)
        else none
      | .again => some (true, wpdu, [])
      | .error => some (false, { wpdu with solong := -1, sz := 0 }, [])

namespace Sender

/-- A new connection. -/
def fresh : Sender := ⟨false, .null, fun _ => .idle, [], []⟩

/-- A thread is somewhere in `send`. -/
def goto (s : Sender) (t : Thread) (pc : SendPc) : Sender :=
  { s with pc := Function.update s.pc t pc }

/-- The end of `send`: the buffer is given up. -/
def finish (s : Sender) (t : Thread) : Sender :=
  { s with wpdu := .null }.goto t
    (.returned (!s.dead && s.wpdu.solong == s.wpdu.sz))

/-- The buffer is set to a PDU. -/
def start (s : Sender) (b : Bytes) : Sender :=
  { s with wpdu := ⟨some b, b.length, 0⟩, started := s.started ++ [b] }

/-- `connection::send` from the loop on `send_wait_`. -/
def trySend (s : Sender) (t : Thread) (b : Bytes) (result : WriteResult) : Option Sender :=
  if s.dead then some (s.goto t (.returned false))
  else if s.wpdu.buf.isSome then some (s.goto t (.sendWait b))
  else
    let s := s.start b
    (writepdu s.wpdu result).map fun (succ, wpdu, bytes) =>
      let s := { s with wpdu := wpdu, wire := s.wire ++ bytes }
      if !succ then { s with dead := true }.goto t .removing
      else if wpdu.solong = wpdu.sz then s.finish t
      else s.goto t .sendComplete

/-- A thread wakes up in the loop on `send_complete_`. -/
def wakeComplete (s : Sender) (t : Thread) : Sender :=
  if !s.dead && 0 ≤ s.wpdu.solong && s.wpdu.solong < s.wpdu.sz then s else s.finish t

/-- `connection::write_cb`. -/
def writeCb (s : Sender) (result : WriteResult) : Option Sender :=
  if s.dead then none
  else if s.wpdu.sz = 0 then some s
  else
    (writepdu s.wpdu result).bind fun (succ, wpdu, bytes) =>
      let s := { s with wpdu := wpdu, wire := s.wire ++ bytes }
      if !succ then some { s with dead := true }
      else if wpdu.solong < 0 then none
      else some s

end Sender

/-! ## The receiver -/

/-- What a `read` does. `errno` is looked at even when a read returns `0`, and may then be what an
earlier call left. -/
inductive ReadResult where
  /-- It gets the next `n` bytes. -/
  | got (n : ℕ)
  /-- It returns `0`, and `errno` is `EAGAIN` or not. -/
  | eof (again : Bool)
  /-- It fails, with `EAGAIN` or otherwise. -/
  | error (again : Bool)
  deriving DecidableEq, Repr

/-- The receiving `connection`. -/
structure Receiver where
  /-- The connection is closed or broken. -/
  dead : Bool
  /-- The PDU that is being read. -/
  rpdu : CharBuf
  /-- The number of bytes that were read from the wire. -/
  consumed : ℕ
  /-- The PDUs that `got_pdu` accepted. -/
  accepted : List Bytes
  deriving DecidableEq, Repr

namespace Receiver

/-- A new connection. -/
def fresh : Receiver := ⟨false, .null, 0, []⟩

/-- The next `n` bytes on the wire, if there are that many and they were asked for. -/
def take (r : Receiver) (wire : Bytes) (asked : ℤ) (n : ℕ) : Option (Bytes × Receiver) :=
  if 0 < n ∧ (n : ℤ) ≤ asked ∧ r.consumed + n ≤ wire.length then
    some ((wire.drop r.consumed).take n, { r with consumed := r.consumed + n })
  else none

/-- The argument of `malloc` for a PDU of size `sz`, as a `size_t`. -/
def allocated (sz : ℤ) : ℕ := ((sz + sizeofSz) % 2 ^ 64).toNat

/-- `malloc` gives no buffer of `2^63` bytes. A smaller one is taken to succeed, also one of `0`
bytes. -/
def mallocFails (size : ℕ) : Bool := decide (2 ^ 63 ≤ size)

/-- The first part of `connection::readpdu`: the size is read into a new buffer. Without a buffer,
the process aborts. -/
def readSize (r : Receiver) (wire : Bytes) : ReadResult → Option (Bool × Receiver)
  | .eof _ => some (false, r)
  | .error again => if again then none else some (false, r)
  | .got n => (r.take wire sizeofSz n).bind fun (sz1, r) =>
    if n ≠ sizeofSz then some (false, r)
    else
      let sz := ntohl sz1
      if sz > maxPdu then some (false, r)
      else if r.rpdu.buf.isSome then none
      else if mallocFails (allocated sz) then none
      else some (true, { r with rpdu := ⟨some sz1, sz, sizeofSz⟩ })

/-- The second part of `connection::readpdu`: more of the PDU is read. A negative length is a huge
`size_t`, and bytes read with it would overrun the buffer; such a read gets none here. -/
def readBody (r : Receiver) (wire : Bytes) : ReadResult → Option (Bool × Receiver)
  | .eof again | .error again =>
    if again then some (true, r) else some (false, { r with rpdu := .null })
  | .got n => r.rpdu.buf.bind fun buf =>
    (r.take wire (r.rpdu.sz - r.rpdu.solong) n).map fun (bytes, r) =>
      (true, { r with rpdu := ⟨some (buf ++ bytes), r.rpdu.sz, r.rpdu.solong + n⟩ })

/-- `connection::readpdu`. -/
def readpdu (r : Receiver) (wire : Bytes) (first second : ReadResult) : Option (Bool × Receiver) :=
  if r.rpdu.sz = 0 then
    (r.readSize wire first).bind fun (succ, r) =>
      if succ then r.readBody wire second else some (false, r)
  else r.readBody wire second

/-- A complete PDU is offered to `got_pdu`, and kept when it is refused. -/
def offer (r : Receiver) (accepts : Bool) : Receiver :=
  match r.rpdu.buf with
  | none => r
  | some buf =>
    if r.rpdu.sz = r.rpdu.solong ∧ accepts then
      { r with rpdu := .null, accepted := r.accepted ++ [buf] }
    else r

/-- `connection::read_cb`. -/
def readCb (r : Receiver) (wire : Bytes) (first second : ReadResult) (accepts : Bool) :
    Option Receiver :=
  if r.dead then some r
  else if r.rpdu.buf.isNone ∨ r.rpdu.solong < r.rpdu.sz then
    (r.readpdu wire first second).map fun (succ, r) =>
      (if succ then r else { r with dead := true }).offer accepts
  else some (r.offer accepts)

end Receiver

/-! ## The connection -/

/-- Both ends of one direction of a connection. -/
structure Link where
  /-- The sender. -/
  sender : Sender
  /-- The receiver. -/
  receiver : Receiver

/-- The events of a connection. -/
inductive LinkEvent where
  /-- Thread `t` calls `send` with `b`; if it gets to a write, `result` is what the write does. -/
  | send (t : Thread) (b : Bytes) (result : WriteResult)
  /-- Thread `t` wakes up in the loop on `send_wait_`. -/
  | wakeSend (t : Thread) (result : WriteResult)
  /-- Thread `t` wakes up in the loop on `send_complete_`. -/
  | wakeComplete (t : Thread)
  /-- Thread `t` has removed the file descriptor. -/
  | removed (t : Thread)
  /-- `write_cb` of the sender. -/
  | writeCb (result : WriteResult)
  /-- `dead_` of the sender is set elsewhere. -/
  | senderDies
  /-- `read_cb` of the receiver, with what the reads and `got_pdu` return. -/
  | readCb (first second : ReadResult) (accepts : Bool)
  /-- `dead_` of the receiver is set elsewhere. -/
  | receiverDies
  deriving DecidableEq, Repr

/-- The connection after an event. -/
def Link.next (s : Link) : LinkEvent → Option Link
  | .send t b result =>
    match s.sender.pc t with
    | .idle | .returned _ => (s.sender.trySend t b result).map fun w => { s with sender := w }
    | _ => none
  | .wakeSend t result =>
    match s.sender.pc t with
    | .sendWait b => (s.sender.trySend t b result).map fun w => { s with sender := w }
    | _ => none
  | .wakeComplete t =>
    match s.sender.pc t with
    | .sendComplete => some { s with sender := s.sender.wakeComplete t }
    | _ => none
  | .removed t =>
    match s.sender.pc t with
    | .removing => some { s with sender := s.sender.finish t }
    | _ => none
  | .writeCb result => (s.sender.writeCb result).map fun w => { s with sender := w }
  | .senderDies => some { s with sender := { s.sender with dead := true } }
  | .readCb first second accepts =>
    (s.receiver.readCb s.sender.wire first second accepts).map fun r => { s with receiver := r }
  | .receiverDies => some { s with receiver := { s.receiver with dead := true } }

/-- A connection from when it was made. -/
def linkSystem : System Link LinkEvent where
  init s := s = ⟨.fresh, .fresh⟩
  step := Link.next

/-- PDUs that are sent have a size between `RPC_HEADER_SZ` and `MAX_PDU`. -/
def SizedPdus : Link → LinkEvent → Prop
  | _, .send _ b _ => rpcHeaderSz ≤ b.length ∧ b.length ≤ maxPdu
  | _, _ => True

instance : ∀ s e, Decidable (SizedPdus s e)
  | _, .send _ b _ => inferInstanceAs (Decidable (rpcHeaderSz ≤ b.length ∧ b.length ≤ maxPdu))
  | _, .wakeSend _ _ => inferInstanceAs (Decidable True)
  | _, .wakeComplete _ => inferInstanceAs (Decidable True)
  | _, .removed _ => inferInstanceAs (Decidable True)
  | _, .writeCb _ => inferInstanceAs (Decidable True)
  | _, .senderDies => inferInstanceAs (Decidable True)
  | _, .readCb _ _ _ => inferInstanceAs (Decidable True)
  | _, .receiverDies => inferInstanceAs (Decidable True)

end SimpleDfs.Rpc
