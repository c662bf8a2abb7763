import Mathlib.Logic.Function.Basic
import Mathlib.Data.Nat.Notation

/-!
# The extent server

`extent_server` of `extent_server.cc`: the contents and the attributes of the extents. Each function
runs under `_sync_root`, so it is one step. The time of a call is an argument; a call that reads the
clock several times reads the same second.
-/

namespace SimpleDfs.Extent

/-- `extent_protocol::extentid_t`. -/
abbrev ExtentId := ℕ

/-- The content of an extent, by its characters. -/
abbrev Buf := List Char

/-- `extent_protocol::xxstatus`. -/
inductive Status where
  /-- The call succeeded. -/
  | OK
  /-- The server was not reached. -/
  | RPCERR
  /-- There is no such entry. -/
  | NOENT
  /-- There is no such extent. -/
  | IOERR
  deriving DecidableEq, Repr

/-- `extent_protocol::attr`. -/
structure Attr where
  /-- The time of the last access. -/
  atime : UInt32
  /-- The time of the last change of the content. -/
  mtime : UInt32
  /-- The time of the last change. -/
  ctime : UInt32
  /-- The length of the content. -/
  size : UInt32
  deriving DecidableEq, Repr

/-- The attributes of an extent with the given content that was written at time `now`. -/
def Attr.written (now : UInt32) (buf : Buf) : Attr := ⟨now, now, now, UInt32.ofNat buf.length⟩

/-- An extent at the server. -/
structure FileInode where
  /-- The attributes. -/
  attributes : Attr
  /-- The content. -/
  file_buf : Buf
  deriving DecidableEq, Repr

/-- The state of `extent_server`. -/
structure ExtentServer where
  /-- The extents. -/
  extent_map : ExtentId → Option FileInode

namespace ExtentServer

/-- `extent_server::put`. A new extent and an old one get the same content and attributes. -/
def put (s : ExtentServer) (now : UInt32) (id : ExtentId) (buf : Buf) : ExtentServer :=
  ⟨Function.update s.extent_map id (some ⟨.written now buf, buf⟩)⟩

/-- `ROOTDIR`, the number of the root directory. -/
def ROOTDIR : ExtentId := 1

/-- `extent_server::extent_server`: the root directory is there and empty. -/
def construct (now : UInt32) : ExtentServer := put ⟨fun _ => none⟩ now ROOTDIR []

/-- `extent_server::get`, with the status and the content. -/
def get (s : ExtentServer) (now : UInt32) (id : ExtentId) : Status × Buf × ExtentServer :=
  match s.extent_map id with
  | none => (.IOERR, [], s)
  | some file =>
    let file' := { file with attributes := { file.attributes with atime := now } }
    (.OK, file.file_buf, ⟨Function.update s.extent_map id (some file')⟩)

/-- `extent_server::getattr`, with the status and the attributes. -/
def getattr (s : ExtentServer) (id : ExtentId) : Status × Attr :=
  match s.extent_map id with
  | none => (.IOERR, ⟨0, 0, 0, 0⟩)
  | some file => (.OK, file.attributes)

/-- `extent_server::remove`, with the status. -/
def remove (s : ExtentServer) (id : ExtentId) : Status × ExtentServer :=
  match s.extent_map id with
  | none => (.IOERR, s)
  | some _ => (.OK, ⟨Function.update s.extent_map id none⟩)

/-- The content of an extent. -/
def content (s : ExtentServer) (id : ExtentId) : Option Buf := (s.extent_map id).map (·.file_buf)

/-- What `put` changes. -/
theorem content_put (s : ExtentServer) (now : UInt32) (id : ExtentId) (buf : Buf) :
    (s.put now id buf).content = Function.update s.content id (some buf) := by
  funext i
  by_cases hi : i = id
  · subst hi
    simp [content, put]
  · simp [content, put, hi]

/-- At the start there is the root directory only. -/
theorem content_construct (now : UInt32) (id : ExtentId) :
    (construct now).content id = if id = ROOTDIR then some [] else none := by
  rw [construct, content_put, Function.update_apply]
  rfl

/-- `get` changes no content. -/
theorem content_get (s : ExtentServer) (now : UInt32) (id : ExtentId) :
    (s.get now id).2.2.content = s.content := by
  unfold get
  cases hfile : s.extent_map id with
  | none => rfl
  | some file =>
    funext i
    by_cases hi : i = id
    · subst hi
      simp [content, hfile]
    · simp [content, hi]

/-- What `get` returns of an extent that exists. -/
theorem get_of_content {s : ExtentServer} {id : ExtentId} {buf : Buf} (h : s.content id = some buf)
    (now : UInt32) : (s.get now id).1 = .OK ∧ (s.get now id).2.1 = buf := by
  obtain ⟨file, hfile, rfl⟩ := Option.map_eq_some_iff.mp h
  unfold get
  rw [hfile]
  exact ⟨rfl, rfl⟩

/-- `get` returns the content, and nothing of an extent that does not exist. -/
theorem get_buf (s : ExtentServer) (now : UInt32) (id : ExtentId) :
    (s.get now id).2.1 = (s.content id).getD [] := by
  unfold get content
  cases s.extent_map id with
  | none => rfl
  | some file => rfl

/-- What `remove` changes. -/
theorem content_remove (s : ExtentServer) (id : ExtentId) :
    (s.remove id).2.content = Function.update s.content id none := by
  unfold remove
  cases hfile : s.extent_map id with
  | none =>
    have hnone : s.content id = none := by rw [content, hfile, Option.map_none]
    exact (Function.update_eq_self_iff.mpr hnone.symm).symm
  | some file =>
    funext i
    by_cases hi : i = id
    · subst hi
      simp [content]
    · simp [content, hi]

end ExtentServer

end SimpleDfs.Extent
