import SimpleDfs.Base.Padded
import SimpleDfs.Base.Program
import SimpleDfs.Yfs.Directory

/-!
# The file system client

`yfs_client` of `yfs_client.cc`: the operations on files and directories, as programs that call the
lock client, the extent client and `random`. What these calls do, and whether other clients act in
between, is left open here.

`createFile` and `createDirectory` are the same from the check for the name on (`enter`), where each
of them looks only for names of its own kind. Before that they differ: when there is no parent,
`createDirectory` releases the lock of the parent and `createFile` does not.

`setAttr` and `writeFile` may end the process with an exception of `std::string`, for a length that
no string can have or a place behind the end; then they do not return, and their result is `none`.
The operations that read a directory end it when the text cannot be parsed; then they make the call
`crash`, which has no answer.
-/

namespace SimpleDfs.Yfs

open Extent

/-- What the functions of `yfs_client` return: `yfs_client::xxstatus`, and `EEXIST` of the system,
which they return in place of `EXIST`. -/
inductive Status where
  /-- The operation succeeded. -/
  | OK
  /-- The server was not reached. -/
  | RPCERR
  /-- There is no such entry. -/
  | NOENT
  /-- There is no such extent. -/
  | IOERR
  /-- The name exists. -/
  | EXIST
  /-- The name exists, by the number of the system. -/
  | EEXIST
  deriving DecidableEq, Repr

/-- What `random` returns. -/
abbrev Random := Fin 2147483648

/-- A call that an operation makes. -/
inductive Call where
  /-- `lock_client_cache::acquire`. -/
  | acquire (lid : Inum)
  /-- `lock_client_cache::release`. -/
  | release (lid : Inum)
  /-- `extent_client::get`. -/
  | get (eid : Inum)
  /-- `extent_client::getattr`. -/
  | getattr (eid : Inum)
  /-- `extent_client::put`. -/
  | put (eid : Inum) (buf : Buf)
  /-- `extent_client::remove`. -/
  | remove (eid : Inum)
  /-- `random`. -/
  | random
  /-- The end of the process, which reads past the end of a vector. -/
  | crash
  deriving DecidableEq, Repr

/-- What the operations read of the result of a call. The status of `put` and `remove` is ignored by
all of them. -/
def Answer : Call → Type
  | .acquire _ | .release _ | .put _ _ | .remove _ => Unit
  | .get _ => Extent.Status × Buf
  | .getattr _ => Extent.Status × Attr
  | .random => Random
  | .crash => Empty

/-- The extent that a call works on. A lock is given up with a copy of its extent. -/
def Call.extent : Call → Option Inum
  | .acquire eid | .get eid | .getattr eid | .put eid _ | .remove eid => some eid
  | .release _ | .random | .crash => none

/-- A program of the file system client. -/
abbrev YfsM (α : Type) := Program Call Answer α

/-- `lc->acquire`. -/
def acquire (lid : Inum) : YfsM Unit := .call (.acquire lid) .done

/-- `lc->release`. -/
def release (lid : Inum) : YfsM Unit := .call (.release lid) .done

/-- `ec->get`. -/
def get (eid : Inum) : YfsM (Extent.Status × Buf) := .call (.get eid) .done

/-- `ec->getattr`. -/
def getattr (eid : Inum) : YfsM (Extent.Status × Attr) := .call (.getattr eid) .done

/-- `ec->put`. -/
def put (eid : Inum) (buf : Buf) : YfsM Unit := .call (.put eid buf) .done

/-- `ec->remove`. -/
def remove (eid : Inum) : YfsM Unit := .call (.remove eid) .done

/-- `random()`. -/
def random : YfsM Random := .call .random .done

/-- The entries in the text of a directory, where `parsebuf` returns. -/
def parse (buf : Buf) : YfsM (List Dirent) :=
  match parsebuf buf with
  | some contents => .done contents
  | none => .call .crash Empty.elim

/-- A text that can be parsed. -/
theorem parse_eq_done {buf : Buf} {contents : List Dirent} (h : parsebuf buf = some contents) :
    parse buf = .done contents := by
  rw [parse, h]

/-- A program that parses a text keeps to a protocol, when it does so with the entries, and the
protocol allows it to end the process on a text that cannot be parsed. -/
theorem follows_parse {α V : Type} {P : Program.Protocol Call Answer V} {post : α → V → Prop}
    {buf : Buf} {next : List Dirent → YfsM α} {v : V}
    (h : ∀ contents, parsebuf buf = some contents → (next contents).Follows P post v)
    (hcrash : parsebuf buf = none → P.allows v .crash) :
    (parse buf >>= next).Follows P post v := by
  unfold parse
  cases hparse : parsebuf buf with
  | some contents => exact h contents hparse
  | none => exact ⟨hcrash hparse, fun a => a.elim⟩

/-- `createFile` and `createDirectory`, with the lock of the parent and its content: the check for
the name among the entries of one kind, and the new entry. -/
def enter (ofKind : Inum → Bool) (number : Random → Inum) (parent : Inum) (buf : Name)
    (parent_buf : Buf) : YfsM (Status × Option Inum) := do
  let contents ← parse parent_buf
  if contents.any fun entry => entry.name == cString buf && ofKind entry.inum then
    release parent
    return (.EEXIST, none)
  else
    let parent_buf := if contents.length ≠ 0 then parent_buf ++ [elementSeperator] else parent_buf
    let r ← random
    let inum := number r
    put inum []
    put parent (parent_buf ++ createBuffElement inum buf)
    release parent
    return (.OK, some inum)

/-- The number of a new file. -/
def fileNumber (r : Random) : Inum := r.val ||| 0x80000000

/-- The number of a new directory. -/
def directoryNumber (r : Random) : Inum := r.val &&& 0x7FFFFFFF

/-- The number of a new file has 32 bits. -/
theorem fileNumber_lt (r : Random) : fileNumber r < 4294967296 :=
  Nat.or_lt_two_pow (n := 32) (lt_trans r.isLt (by decide)) (by decide)

/-- The number of a new directory has 31 bits. -/
theorem directoryNumber_lt (r : Random) : directoryNumber r < 2147483648 :=
  lt_of_le_of_lt Nat.and_le_left r.isLt

/-- `yfs_client::createFile`. -/
def createFile (parent : Inum) (buf : Name) : YfsM (Status × Option Inum) := do
  acquire parent
  let (ret, parent_buf) ← get parent
  -- Without a parent the function returns with its lock.
  if ret ≠ .OK then return (.NOENT, none)
  else enter isfile fileNumber parent buf parent_buf

/-- `yfs_client::createDirectory`. -/
def createDirectory (parent : Inum) (buf : Name) : YfsM (Status × Option Inum) := do
  acquire parent
  let (ret, parent_buf) ← get parent
  if ret ≠ .OK then
    release parent
    return (.NOENT, none)
  else enter isdir directoryNumber parent buf parent_buf

/-- The entry is a file of the given name. -/
def Dirent.isFileNamed (buf : Name) (entry : Dirent) : Bool :=
  entry.name == cString buf && isfile entry.inum

/-- `unlinkFile`, with the lock of the parent and its content. -/
def leave (parent : Inum) (buf : Name) (parent_buf : Buf) : YfsM Status := do
  let contents ← parse parent_buf
  match contents.find? (Dirent.isFileNamed buf) with
  | none =>
    release parent
    return .NOENT
  | some entry =>
    acquire entry.inum
    put parent (writeDirent (contents.eraseP (Dirent.isFileNamed buf)))
    remove entry.inum
    release entry.inum
    release parent
    return .OK

/-- `yfs_client::unlinkFile`. -/
def unlinkFile (parent : Inum) (buf : Name) : YfsM Status := do
  acquire parent
  let (ret, parent_buf) ← get parent
  if ret ≠ .OK then
    release parent
    return .NOENT
  else leave parent buf parent_buf

/-- `yfs_client::lookupResource`, with the number that it finds, which is 0 when there is none. -/
def lookupResource (parent : Inum) (buf : Name) : YfsM (Status × Inum) := do
  acquire parent
  let (ret, parent_buf) ← get parent
  if ret ≠ .OK then
    release parent
    return (.IOERR, 0)
  else
    let contents ← parse parent_buf
    let found := contents.find? fun entry => entry.name == cString buf
    release parent
    return (.OK, (found.map Dirent.inum).getD 0)

/-- `yfs_client::getDirContents`. -/
def getDirContents (inum : Inum) : YfsM (Status × Buf) := do
  acquire inum
  let (ret, buf) ← get inum
  release inum
  return (if ret = .OK then .OK else .IOERR, buf)

/-- `yfs_client::readFile`, with `off` as the unsigned number that it is compared as. -/
def readFile (inum : Inum) (size off : UInt64) : YfsM (Status × Buf) := do
  acquire inum
  let (ret, current_val) ← get inum
  release inum
  if ret ≠ .OK then return (.IOERR, [])
  else if off.toNat > current_val.length then return (.IOERR, [])
  else return (.OK, (current_val.drop off.toNat).take size.toNat)

/-- `yfs_client::getfile` and `yfs_client::getdir`, with the attributes of which `fileinfo` has all
and `dirinfo` the times. -/
def getinfo (inum : Inum) : YfsM (Status × Option Attr) := do
  acquire inum
  let (ret, a) ← getattr inum
  release inum
  return if ret ≠ .OK then (.IOERR, none) else (.OK, some a)

/-- `yfs_client::fileinfo`. -/
structure FileInfo where
  /-- The length of the content. -/
  size : ℕ
  /-- The time of the last access. -/
  atime : ℕ
  /-- The time of the last change of the content. -/
  mtime : ℕ
  /-- The time of the last change. -/
  ctime : ℕ
  deriving DecidableEq, Repr

/-- `yfs_client::dirinfo`. -/
structure DirInfo where
  /-- The time of the last access. -/
  atime : ℕ
  /-- The time of the last change of the content. -/
  mtime : ℕ
  /-- The time of the last change. -/
  ctime : ℕ
  deriving DecidableEq, Repr

/-- `yfs_client::getfile`. -/
def getfile (inum : Inum) : YfsM (Status × Option FileInfo) := do
  let (r, a) ← getinfo inum
  return (r, a.map fun a => ⟨a.size.toNat, a.atime.toNat, a.mtime.toNat, a.ctime.toNat⟩)

/-- `yfs_client::getdir`. -/
def getdir (inum : Inum) : YfsM (Status × Option DirInfo) := do
  let (r, a) ← getinfo inum
  return (r, a.map fun a => ⟨a.atime.toNat, a.mtime.toNat, a.ctime.toNat⟩)

/-- `std::string::max_size`. -/
def maxString : ℕ := 9223372036854775807

/-- `std::string::resize`, which fills up with NUL. It throws for a length that no string has. -/
def resize (buf : Buf) (n : ℕ) : Option Buf :=
  if n ≤ maxString then some (Padded.resized '\x00' n buf) else none

/-- `std::string::replace` by the first `size` characters at `buf`. It throws for a place behind the
end. -/
def replace (current_val : Buf) (off size : ℕ) (buf : List Char) : Option Buf :=
  if off ≤ current_val.length then
    some (Padded.replaced current_val off size (buf.take size))
  else none

/-- `yfs_client::setAttr`. The two branches for a larger and a smaller size do the same. -/
def setAttr (inum : Inum) (file_info : FileInfo) : YfsM (Option Status) := do
  acquire inum
  let (ret, attr) ← getattr inum
  if ret = .OK then
    if attr.size.toNat = file_info.size then
      release inum
      return some .OK
    else
      let (_, buf) ← get inum
      match resize buf file_info.size with
      | none => return none
      | some buf =>
        put inum buf
        release inum
        return some .OK
  else
    release inum
    return some .IOERR

/-- The content that `writeFile` puts. The sum of `off` and `size` is an unsigned number, and so is
`off` where it is compared and used. -/
def overwritten (current_val : Buf) (buf : List Char) (size off : UInt64) : Option Buf := do
  let val ← if (off + size).toNat > current_val.length then resize current_val (off + size).toNat
    else some current_val
  replace val off.toNat size.toNat buf

/-- `yfs_client::writeFile`, of the first `size` characters at `buf`. -/
def writeFile (inum : Inum) (buf : List Char) (size off : UInt64) : YfsM (Option Status) := do
  acquire inum
  let (ret, current_val) ← get inum
  if ret = .OK then
    match overwritten current_val buf size off with
    | none => return none
    | some current_val =>
      put inum current_val
      release inum
      return some .OK
  else
    release inum
    return some .IOERR

end SimpleDfs.Yfs
