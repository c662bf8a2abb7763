import SimpleDfs.Extent.Server

/-!
# The caching extent client

`extent_client` of `extent_client.cc`: the extents that a client has fetched from the server or
written, kept until they are flushed. The functions of the source hold `sync_root` from start to
end, and make calls of the extent server on the way; here they are cut at these calls, so that other
clients can act in between. `Place` names the calls.

`get`, `getattr` and `put` are one function (`Op.apply`) on the cached copy, which they fetch first
when there is none: the calls of the server are `get`, then `getattr`. `remove` gives up on an
extent that is not cached. `flush` stores a copy that was written, and drops it.
-/

namespace SimpleDfs.Extent

/-- A cached copy of an extent. -/
structure CachedExtentInfo where
  /-- The copy was written. -/
  is_dirty : Bool
  /-- The attributes. -/
  attr : Attr
  /-- The content. -/
  buf : Buf
  deriving DecidableEq, Repr

/-- The functions that fetch an extent that is not cached. -/
inductive Op where
  /-- `extent_client::get`. -/
  | get
  /-- `extent_client::getattr`. -/
  | getattr
  /-- `extent_client::put`. -/
  | put (buf : Buf)
  deriving DecidableEq, Repr

/-- What the function does to the copy. -/
def Op.apply (op : Op) (now : UInt32) (extent : CachedExtentInfo) : CachedExtentInfo :=
  match op with
  | get => { extent with attr := { extent.attr with atime := now } }
  | getattr => extent
  | put buf => { is_dirty := true, buf := buf, attr := .written now buf }

/-- Where the function that holds `sync_root` is. Threads call `get`, `getattr`, `put` and `remove`;
a worker of type `W` calls `flush`. -/
inductive Place (W : Type) where
  /-- It fetches the extent: in the call of `get`. -/
  | get (t : ℕ) (op : Op) (eid : ExtentId)
  /-- It fetches the extent: in the call of `getattr`, after `get` returned. -/
  | getattr (t : ℕ) (op : Op) (eid : ExtentId) (ret : Status) (buf : Buf)
  /-- It has fetched the extent: both calls returned. -/
  | fetched (t : ℕ) (op : Op) (eid : ExtentId) (ret : Status) (buf : Buf) (ret' : Status)
      (attr : Attr)
  /-- `remove`, in the call of `remove`. -/
  | remove (t : ℕ) (eid : ExtentId)
  /-- `flush`, in the call of `put`. -/
  | flush (w : W) (eid : ExtentId) (buf : Buf)
  /-- `flush`, after `put` returned. -/
  | flushed (w : W) (eid : ExtentId)
  deriving DecidableEq, Repr

/-- The state of `extent_client`. -/
structure ExtentClient (W : Type) where
  /-- The cached copies. -/
  extent_list : ExtentId → Option CachedExtentInfo
  /-- Where the function that holds `sync_root` is. -/
  sync_root : Option (Place W)

namespace ExtentClient

variable {W : Type}

/-- A client that has just started. -/
def start : ExtentClient W := ⟨fun _ => none, none⟩

/-- The client with a copy of an extent. -/
def install (c : ExtentClient W) (eid : ExtentId) (extent : CachedExtentInfo) : ExtentClient W :=
  { c with extent_list := Function.update c.extent_list eid (some extent) }

/-- The client without a copy of an extent. -/
def erase (c : ExtentClient W) (eid : ExtentId) : ExtentClient W :=
  { c with extent_list := Function.update c.extent_list eid none }

/-- The client with its function at another place, or with `sync_root` free. -/
def goto (c : ExtentClient W) (place : Option (Place W)) : ExtentClient W :=
  { c with sync_root := place }

/-- `get`, `getattr` or `put` up to its first call of the server. With a cached copy there is none,
and the function returns after it found that copy. -/
def access (c : ExtentClient W) (t : ℕ) (op : Op) (eid : ExtentId) (now : UInt32) :
    ExtentClient W × Option CachedExtentInfo :=
  match c.extent_list eid with
  | none => (c.goto (some (.get t op eid)), none)
  | some extent => (c.install eid (op.apply now extent), some extent)

/-- `extent_client::remove` up to its call of the server, and whether it returns without one. -/
def remove (c : ExtentClient W) (t : ℕ) (eid : ExtentId) : ExtentClient W × Bool :=
  match c.extent_list eid with
  | none => (c, true)
  | some _ => ((c.erase eid).goto (some (.remove t eid)), false)

/-- `extent_client::flush` up to its call of the server, and whether it returns without one. -/
def flush (c : ExtentClient W) (w : W) (eid : ExtentId) : ExtentClient W × Bool :=
  match c.extent_list eid with
  | none => (c, true)
  | some extent =>
    -- A copy that was not written is dropped without a call.
    if extent.is_dirty then (c.goto (some (.flush w eid extent.buf)), false)
    else (c.erase eid, true)

/-- The server executes the call that the client is in, and the client goes on to the next call or
to the end of the function. -/
def rpc (c : ExtentClient W) (server : ExtentServer) (now : UInt32) :
    Option (ExtentClient W × ExtentServer) :=
  match c.sync_root with
  | some (.get t op eid) =>
    -- The copy is fetched also when the server has no such extent.
    let got := server.get now eid
    some (c.goto (some (.getattr t op eid got.1 got.2.1)), got.2.2)
  | some (.getattr t op eid ret buf) =>
    let got := server.getattr eid
    some (c.goto (some (.fetched t op eid ret buf got.1 got.2)), server)
  | some (.remove _ eid) => some (c.goto none, (server.remove eid).2)
  | some (.flush w eid buf) => some (c.goto (some (.flushed w eid)), server.put now eid buf)
  | _ => none

end ExtentClient

end SimpleDfs.Extent
