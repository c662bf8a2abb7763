import SimpleDfs.Base.Triple
import SimpleDfs.Yfs.Client
import SimpleDfs.Yfs.Dirbuf

/-!
# The handlers of FUSE requests

`fuse.cc`: what the file system client does for each request of the kernel, as programs over the
operations of `yfs_client`. A handler answers its request with the functions `fuse_reply_…`; here it
returns the replies that it makes, in their order, or `none` when `std::string` ends the process
with an exception. It does not return when the text of a directory ends the process.

A request is to be answered once, by a reply of its own kind. Every handler that returns does that,
whatever the servers and the other clients do, except that `setattr` of a directory goes on after it
has replied. Only the requests that read a directory can end the process there, and only after they
got a text that cannot be parsed (`fits_replies`).
-/

namespace SimpleDfs.Yfs

open Extent

namespace Fuse

/-- The errors in replies. `fuse_reply_err` with `zero` is the reply of a success that has no
data. -/
inductive Errno where
  /-- No error. -/
  | zero
  /-- There is no such file or directory. -/
  | ENOENT
  /-- The name exists. -/
  | EEXIST
  /-- It is not a directory. -/
  | ENOTDIR
  /-- The function is not implemented. -/
  | ENOSYS
  deriving DecidableEq, Repr

/-- `struct stat`, with the fields that are set. -/
structure Stat where
  /-- The number. -/
  st_ino : Inum
  /-- The kind and the permissions. -/
  st_mode : ℕ
  /-- The number of links. -/
  st_nlink : ℕ
  /-- The length of a file. -/
  st_size : ℕ
  /-- The time of the last access. -/
  st_atime : ℕ
  /-- The time of the last change of the content. -/
  st_mtime : ℕ
  /-- The time of the last change. -/
  st_ctime : ℕ
  deriving DecidableEq, Repr

/-- `S_IFREG | 0666`. -/
def fileMode : ℕ := 0o100666

/-- `S_IFDIR | 0777`. -/
def dirMode : ℕ := 0o040777

/-- `getattr` of `fuse.cc`, with the `struct stat` that it leaves. -/
def getattr (inum : Inum) : YfsM (Status × Stat) := do
  let st : Stat := ⟨inum, 0, 0, 0, 0, 0, 0⟩
  if isfile inum then
    let (ret, info) ← getfile inum
    match ret, info with
    | .OK, some info =>
      return (.OK, ⟨inum, fileMode, 1, info.size, info.atime, info.mtime, info.ctime⟩)
    | ret, _ => return (ret, st)
  else
    let (ret, info) ← getdir inum
    match ret, info with
    | .OK, some info => return (.OK, ⟨inum, dirMode, 2, 0, info.atime, info.mtime, info.ctime⟩)
    | ret, _ => return (ret, st)

/-- `struct fuse_entry_param`. The timeouts are in seconds. -/
structure EntryParam where
  /-- The number. -/
  ino : Inum
  /-- The generation of the number. -/
  generation : ℕ
  /-- The attributes. -/
  attr : Stat
  /-- How long the attributes are valid. -/
  attr_timeout : ℕ
  /-- How long the name is valid. -/
  entry_timeout : ℕ
  deriving DecidableEq, Repr

/-- A reply to a request. -/
inductive Reply where
  /-- `fuse_reply_err`. -/
  | err (err : Errno)
  /-- `fuse_reply_attr`. -/
  | attr (attr : Stat) (attr_timeout : ℕ)
  /-- `fuse_reply_buf`. -/
  | buf (buf : Buf)
  /-- `fuse_reply_write`. -/
  | write (count : ℕ)
  /-- `fuse_reply_entry`. -/
  | entry (e : EntryParam)
  /-- `fuse_reply_create`. -/
  | create (e : EntryParam)
  /-- `fuse_reply_open`. -/
  | opened
  /-- `fuse_reply_statfs`, with the fields that are set. -/
  | statfs (f_namemax f_bsize : ℕ)
  deriving DecidableEq, Repr

/-- A request for which there is a handler, with what the handler reads of it. -/
inductive Request where
  /-- The attributes of a number. -/
  | getattr (ino : Inum)
  /-- Attributes are set; `to_set` says which. -/
  | setattr (ino : Inum) (st_size : UInt64) (to_set : UInt32)
  /-- A file is read. -/
  | read (ino : Inum) (size off : UInt64)
  /-- A file is written. -/
  | write (ino : Inum) (buf : List Char) (size off : UInt64)
  /-- A file is created and opened. -/
  | create (parent : Inum) (name : Name)
  /-- A file is created. -/
  | mknod (parent : Inum) (name : Name)
  /-- A name is looked up. -/
  | lookup (parent : Inum) (name : Name)
  /-- A directory is listed. -/
  | readdir (ino : Inum) (size off : UInt64)
  /-- A file is opened. -/
  | opens (ino : Inum)
  /-- A directory is made. -/
  | mkdir (parent : Inum) (name : Name)
  /-- A file is unlinked. -/
  | unlink (parent : Inum) (name : Name)
  /-- The limits of the file system. -/
  | statfs
  deriving DecidableEq, Repr

/-- What a handler does. -/
abbrev Handler := YfsM (Option (List Reply))

/-- `fuseserver_getattr`. -/
def fuseserverGetattr (ino : Inum) : Handler := do
  let (ret, st) ← getattr ino
  return some [if ret ≠ .OK then .err .ENOENT else .attr st 0]

/-- `FUSE_SET_ATTR_SIZE`. -/
def fuseSetAttrSize : UInt32 := 8

/-- `fuseserver_setattr`. It does not return after the reply for what is not a file. Of `file_info`
only the size is set. -/
def fuseserverSetattr (ino : Inum) (st_size : UInt64) (to_set : UInt32) : Handler := do
  let first := if isfile ino then [] else [.err .ENOSYS]
  if fuseSetAttrSize &&& to_set ≠ 0 then
    match ← setAttr ino ⟨st_size.toNat, 0, 0, 0⟩ with
    | none => return none
    | some .OK =>
      let (ret, st) ← getattr ino
      return some (first ++ [if ret = .OK then .attr st 0 else .err .ENOENT])
    | some _ => return some (first ++ [.err .ENOENT])
  else return some (first ++ [.err .ENOSYS])

/-- `fuseserver_read`. -/
def fuseserverRead (ino : Inum) (size off : UInt64) : Handler := do
  let (ret, buf) ← readFile ino size off
  return some [if ret = .OK then .buf buf else .err .ENOSYS]

/-- `fuseserver_write`. -/
def fuseserverWrite (ino : Inum) (buf : List Char) (size off : UInt64) : Handler := do
  match ← writeFile ino buf size off with
  | none => return none
  | some ret => return some [if ret = .OK then .write size.toNat else .err .ENOSYS]

/-- The attributes of a new or found entry, whose status the handlers do not look at. -/
def entryParam (ino : Inum) : YfsM EntryParam := do
  let (_, st) ← getattr ino
  return ⟨ino, 0, st, 0, 0⟩

/-- `fuseserver_createhelper`, which returns `NOENT` for every error. -/
def fuseserverCreatehelper (parent : Inum) (name : Name) : YfsM (Status × Option EntryParam) := do
  match ← createFile parent name with
  | (.OK, some newInum) => return (.OK, some (← entryParam newInum))
  | _ => return (.NOENT, none)

/-- The error of `fuseserver_create` and `fuseserver_mknod`. -/
def createError (ret : Status) : Errno := if ret = .EXIST then .EEXIST else .ENOENT

/-- `fuseserver_create`. -/
def fuseserverCreate (parent : Inum) (name : Name) : Handler := do
  match ← fuseserverCreatehelper parent name with
  | (.OK, some e) => return some [.create e]
  | (ret, _) => return some [.err (createError ret)]

/-- `fuseserver_mknod`. -/
def fuseserverMknod (parent : Inum) (name : Name) : Handler := do
  match ← fuseserverCreatehelper parent name with
  | (.OK, some e) => return some [.entry e]
  | (ret, _) => return some [.err (createError ret)]

/-- `fuseserver_lookup`, which does not look at the status of `lookupResource`. -/
def fuseserverLookup (parent : Inum) (name : Name) : Handler := do
  let (_, resource_inum) ← lookupResource parent name
  if resource_inum ≠ 0 then return some [.entry (← entryParam resource_inum)]
  else return some [.err .ENOENT]

/-- `fuseserver_readdir`, which does not look at the status of `getDirContents`. -/
def fuseserverReaddir [Libfuse] (ino : Inum) (size off : UInt64) : Handler := do
  if !isdir ino then return some [.err .ENOTDIR]
  else
    let (_, buf) ← getDirContents ino
    let contents ← parse buf
    return some [.buf (replyBufLimited (dirbuf contents) off.toNat size.toNat)]

/-- `fuseserver_open`. -/
def fuseserverOpen : Handler := return some [.opened]

/-- `fuseserver_mkdir`. -/
def fuseserverMkdir (parent : Inum) (name : Name) : Handler := do
  match ← createDirectory parent name with
  | (.OK, some newInum) => return some [.entry (← entryParam newInum)]
  | _ => return some [.err .EEXIST]

/-- `fuseserver_unlink`. -/
def fuseserverUnlink (parent : Inum) (name : Name) : Handler := do
  let ret ← unlinkFile parent name
  return some [.err (if ret = .OK then .zero else .ENOENT)]

/-- `fuseserver_statfs`. -/
def fuseserverStatfs : Handler := return some [.statfs 255 512]

/-- `fuseserver_oper`: the handler of a request. -/
def Request.handler [Libfuse] : Request → Handler
  | getattr ino => fuseserverGetattr ino
  | setattr ino st_size to_set => fuseserverSetattr ino st_size to_set
  | read ino size off => fuseserverRead ino size off
  | write ino buf size off => fuseserverWrite ino buf size off
  | create parent name => fuseserverCreate parent name
  | mknod parent name => fuseserverMknod parent name
  | lookup parent name => fuseserverLookup parent name
  | readdir ino size off => fuseserverReaddir ino size off
  | opens _ => fuseserverOpen
  | mkdir parent name => fuseserverMkdir parent name
  | unlink parent name => fuseserverUnlink parent name
  | statfs => fuseserverStatfs

/-! ## The replies -/

/-- An entry with the attributes of its own number, which the kernel may not keep. -/
def EntryParam.Proper (e : EntryParam) : Prop :=
  e.attr.st_ino = e.ino ∧ e.generation = 0 ∧ e.attr_timeout = 0 ∧ e.entry_timeout = 0

/-- The reply can be one to the request: it is an error, or data of the kind and length that were
asked for. A success without data is only for `unlink`. -/
def Reply.Fits : Request → Reply → Prop
  | .unlink _ _, .err _ => True
  | _, .err errno => errno ≠ .zero
  | .getattr ino, .attr st timeout | .setattr ino _ _, .attr st timeout =>
    st.st_ino = ino ∧ timeout = 0
  | .read _ size _, .buf part | .readdir _ size _, .buf part => part.length ≤ size.toNat
  | .write _ _ size _, .write count => count = size.toNat
  | .create _ _, .create e => e.Proper
  | .mknod _ _, .entry e | .lookup _ _, .entry e | .mkdir _ _, .entry e => e.Proper
  | .opens _, .opened => True
  | .statfs, .statfs _ _ => True
  | _, _ => False

/-- How many replies a request gets. -/
def Request.replies : Request → ℕ
  | setattr ino _ _ => if isfile ino then 1 else 2
  | _ => 1

/-- The request can end the process with an exception of `std::string`. -/
def Request.MayThrow : Request → Prop
  | setattr _ _ _ | write _ _ _ _ => True
  | _ => False

/-- The request reads the text of a directory. -/
def Request.Parses : Request → Prop
  | create _ _ | mknod _ _ | lookup _ _ | readdir _ _ _ | mkdir _ _ | unlink _ _ => True
  | _ => False

/-- What a handler may return for a request. -/
def Fitting (req : Request) : Option (List Reply) → Prop
  | none => req.MayThrow
  | some replies => replies.length = req.replies ∧ ∀ reply ∈ replies, reply.Fits req

/-- One reply that fits. -/
theorem fitting_singleton {req : Request} {reply : Reply} (hreq : req.replies = 1)
    (h : reply.Fits req) : Fitting req (some [reply]) :=
  ⟨hreq.symm, fun reply' hmem => by rwa [List.mem_singleton.mp hmem]⟩

/-- `getattr` leaves a `struct stat` of its number, also when it fails. -/
theorem returns_getattr (inum : Inum) :
    (getattr inum).Returns fun result => result.2.st_ino = inum := by
  unfold getattr
  dsimp only
  split_ifs
  all_goals
    rw [Program.returns_bind]
    refine Program.Returns.of_forall (fun info => ?_) _
    obtain ⟨ret, info⟩ := info
    dsimp only
    split <;> rfl

/-- An entry has the attributes of its number. -/
theorem returns_entryParam (ino : Inum) : (entryParam ino).Returns EntryParam.Proper := by
  unfold entryParam
  rw [Program.returns_bind]
  exact (returns_getattr ino).mono fun _ h => ⟨h, rfl, rfl, rfl⟩

/-- `createhelper` fails, or leaves an entry. -/
theorem returns_createhelper (parent : Inum) (name : Name) :
    (fuseserverCreatehelper parent name).Returns fun result =>
      result = (.NOENT, none) ∨ ∃ e, result = (.OK, some e) ∧ e.Proper := by
  unfold fuseserverCreatehelper
  rw [Program.returns_bind]
  refine Program.Returns.of_forall (fun created => ?_) _
  split
  · rw [Program.returns_bind]
    exact (returns_entryParam _).mono fun e he => Or.inr ⟨e, rfl, he⟩
  · exact Or.inl rfl

/-- What is read is not longer than what was asked for. -/
theorem returns_readFile (ino : Inum) (size off : UInt64) :
    (readFile ino size off).Returns fun result => result.2.length ≤ size.toNat := by
  unfold readFile
  rw [Program.returns_bind]
  refine Program.Returns.of_forall (fun _ => ?_) _
  rw [Program.returns_bind]
  refine Program.Returns.of_forall (fun got => ?_) _
  obtain ⟨ret, current_val⟩ := got
  dsimp only
  rw [Program.returns_bind]
  refine Program.Returns.of_forall (fun _ => ?_) _
  split_ifs
  · exact Nat.zero_le _
  · exact Nat.zero_le _
  · exact List.length_take_le _ _

/-- A part of a directory is not longer than what was asked for. -/
theorem length_replyBufLimited_le (buf : Buf) (off maxsize : ℕ) :
    (replyBufLimited buf off maxsize).length ≤ maxsize := by
  unfold replyBufLimited
  split_ifs
  · exact (List.length_take_le _ _).trans (Nat.min_le_right _ _)
  · exact Nat.zero_le _

/-- `setattr` replies once more than it should for what is not a file. -/
theorem returns_setattr (ino : Inum) (st_size : UInt64) (to_set : UInt32) :
    (fuseserverSetattr ino st_size to_set).Returns (Fitting (.setattr ino st_size to_set)) := by
  -- What was replied before, with the last reply.
  have hlast : ∀ reply : Reply, reply.Fits (.setattr ino st_size to_set) →
      Fitting (.setattr ino st_size to_set)
        (some ((if isfile ino then [] else [.err .ENOSYS]) ++ [reply])) := by
    intro reply hreply
    have hcount : (Request.setattr ino st_size to_set).replies = if isfile ino then 1 else 2 := rfl
    unfold Fitting
    rw [hcount]
    split_ifs
    · exact ⟨rfl, fun reply' hmem => by rwa [List.mem_singleton.mp hmem]⟩
    · refine ⟨rfl, fun reply' hmem => ?_⟩
      rcases List.mem_cons.mp hmem with rfl | hmem
      · exact nofun
      · rwa [List.mem_singleton.mp hmem]
  have herr : ∀ errno : Errno, errno ≠ .zero →
      (Reply.err errno).Fits (.setattr ino st_size to_set) := fun _ h => h
  unfold fuseserverSetattr
  dsimp only
  by_cases hsize : fuseSetAttrSize &&& to_set ≠ 0
  · rw [if_pos hsize, Program.returns_bind]
    refine Program.Returns.of_forall (fun ret => ?_) _
    split
    · trivial
    · rw [Program.returns_bind]
      refine (returns_getattr ino).mono fun result hino => hlast _ ?_
      split_ifs
      · exact ⟨hino, rfl⟩
      · exact herr _ nofun
    · exact hlast _ (herr _ nofun)
  · rw [if_neg hsize]
    exact hlast _ (herr _ nofun)

/-- What a handler returns, whatever the answers to its calls are. -/
theorem returns_handler [Libfuse] (req : Request) : req.handler.Returns (Fitting req) := by
  cases req with
  | getattr ino =>
    refine (Program.returns_bind _ _).mpr ((returns_getattr ino).mono fun result hino => ?_)
    refine fitting_singleton rfl ?_
    split_ifs
    · exact nofun
    · exact ⟨hino, rfl⟩
  | setattr ino st_size to_set => exact returns_setattr ino st_size to_set
  | read ino size off =>
    refine (Program.returns_bind _ _).mpr ((returns_readFile ino size off).mono ?_)
    intro result hle
    refine fitting_singleton rfl ?_
    split_ifs
    · exact hle
    · exact nofun
  | write ino buf size off =>
    refine (Program.returns_bind _ _).mpr (Program.Returns.of_forall (fun ret => ?_) _)
    cases ret with
    | none => trivial
    | some ret =>
      refine fitting_singleton rfl ?_
      split_ifs
      · rfl
      · exact nofun
  | create parent name =>
    refine (Program.returns_bind _ _).mpr ((returns_createhelper parent name).mono ?_)
    rintro _ (rfl | ⟨e, rfl, he⟩)
    · exact fitting_singleton rfl nofun
    · exact fitting_singleton rfl he
  | mknod parent name =>
    refine (Program.returns_bind _ _).mpr ((returns_createhelper parent name).mono ?_)
    rintro _ (rfl | ⟨e, rfl, he⟩)
    · exact fitting_singleton rfl nofun
    · exact fitting_singleton rfl he
  | lookup parent name =>
    refine (Program.returns_bind _ _).mpr (Program.Returns.of_forall (fun found => ?_) _)
    dsimp only
    split_ifs
    · refine (Program.returns_bind _ _).mpr ((returns_entryParam _).mono fun e he => ?_)
      exact fitting_singleton rfl he
    · exact fitting_singleton rfl nofun
  | readdir ino size off =>
    show Program.Returns _ (fuseserverReaddir ino size off)
    unfold fuseserverReaddir
    split_ifs
    · exact fitting_singleton rfl nofun
    · refine (Program.returns_bind _ _).mpr (Program.Returns.of_forall (fun got => ?_) _)
      refine (Program.returns_bind _ _).mpr (Program.Returns.of_forall (fun contents => ?_) _)
      exact fitting_singleton rfl (length_replyBufLimited_le _ _ _)
  | opens ino => exact fitting_singleton rfl trivial
  | mkdir parent name =>
    refine (Program.returns_bind _ _).mpr (Program.Returns.of_forall (fun created => ?_) _)
    split
    · refine (Program.returns_bind _ _).mpr ((returns_entryParam _).mono fun e he => ?_)
      exact fitting_singleton rfl he
    · exact fitting_singleton rfl nofun
  | unlink parent name =>
    refine (Program.returns_bind _ _).mpr (Program.Returns.of_forall (fun ret => ?_) _)
    exact fitting_singleton rfl trivial
  | statfs => exact fitting_singleton rfl trivial

/-! ## The end of the process -/

/-- The call has read a text that cannot be parsed. -/
def unparsable : (q : Call) → Answer q → Bool
  | .get _, a => (parsebuf (show Extent.Status × Buf from a).2).isNone
  | _, _ => false

/-- The process may end only if the request reads a directory, once a text was read that cannot be
parsed. This is what is known of a handler. -/
def crashProtocol (req : Request) : Program.Protocol Call Answer Bool where
  allows bad q := q = .crash → req.Parses ∧ bad = true
  answers _ _ _ := True
  after bad q a := bad || unparsable q a

/-- The program ends the process only if it may, whatever was read before. -/
def Spares {α : Type} (req : Request) (p : YfsM α) : Prop :=
  ∀ bad, p.Follows (crashProtocol req) (fun _ _ => True) bad

section Crash

variable {α β : Type} {req : Request}

/-- A program that returns at once. -/
theorem spares_done (a : α) : Spares req (.done a) := fun _ => trivial

/-- A call. -/
theorem spares_call {q : Call} {next : Answer q → YfsM α} (hq : q ≠ .crash)
    (h : ∀ a, Spares req (next a)) : Spares req (.call q next) :=
  fun _ => ⟨fun heq => absurd heq hq, fun a _ => h a _⟩

/-- One program after the other. -/
theorem Spares.bind {p : YfsM α} (h : Spares req p) {f : α → YfsM β} (hf : ∀ a, Spares req (f a)) :
    Spares req (p >>= f) :=
  fun bad => (Program.follows_bind _ _ _).mpr ((h bad).mono fun a bad' _ => hf a bad')

/-- A text is parsed that is known to be bad, if it is. -/
theorem follows_parse_crash (hreq : req.Parses) {buf : Buf} {next : List Dirent → YfsM α}
    (h : ∀ contents, Spares req (next contents)) {bad : Bool}
    (hbad : parsebuf buf = none → bad = true) :
    (parse buf >>= next).Follows (crashProtocol req) (fun _ _ => True) bad :=
  follows_parse (fun contents _ => h contents bad) fun hnone _ => ⟨hreq, hbad hnone⟩

/-- An operation takes the lock of an extent and reads its content. -/
theorem spares_read {d : Inum} {next : Extent.Status × Buf → YfsM α}
    (h : ∀ got bad, (parsebuf got.2 = none → bad = true) →
      (next got).Follows (crashProtocol req) (fun _ _ => True) bad) :
    Spares req (acquire d >>= fun _ => get d >>= next) := by
  refine fun bad => ⟨nofun, fun _ _ => ⟨nofun, fun got _ => h got _ fun hnone => ?_⟩⟩
  show (_ || (parsebuf got.2).isNone) = true
  rw [hnone, Option.isNone_none, Bool.or_true]

/-- The lock is given back, and the operation returns. -/
theorem spares_return (d : Inum) (a : α) : Spares req (release d >>= fun _ => .done a) :=
  spares_call nofun fun _ => spares_done a

/-- An operation writes an extent, gives the lock back, and returns. -/
theorem spares_put_return (d : Inum) (buf : Buf) (a : α) :
    Spares req (put d buf >>= fun _ => release d >>= fun _ => .done a) :=
  spares_call nofun fun _ => spares_return d a

/-- `createFile` and `createDirectory`, whatever they do when there is no parent. -/
theorem spares_create (hreq : req.Parses) (ofKind : Inum → Bool) (number : Random → Inum)
    (d : Inum) (name : Name) {absent : YfsM (Status × Option Inum)} (habsent : Spares req absent) :
    Spares req (acquire d >>= fun _ => get d >>= fun got =>
      if got.1 ≠ .OK then absent else enter ofKind number d name got.2) := by
  refine spares_read fun got bad hbad => ?_
  split_ifs
  · exact habsent bad
  · refine follows_parse_crash hreq (fun contents => ?_) hbad
    dsimp only
    split_ifs
    · exact spares_return d _
    all_goals
      exact spares_call nofun fun r => spares_call nofun fun _ => spares_put_return d _ _

/-- `unlinkFile`. -/
theorem spares_unlinkFile (hreq : req.Parses) (d : Inum) (name : Name) :
    Spares req (unlinkFile d name) := by
  refine spares_read fun got bad hbad => ?_
  dsimp only
  split_ifs
  · exact spares_return d _ bad
  · refine follows_parse_crash hreq (fun contents => ?_) hbad
    cases contents.find? (Dirent.isFileNamed name) with
    | none => exact spares_return d _
    | some entry =>
      exact spares_call nofun fun _ => spares_call nofun fun _ => spares_call nofun fun _ =>
        spares_call nofun fun _ => spares_return d _

/-- `lookupResource`. -/
theorem spares_lookupResource (hreq : req.Parses) (d : Inum) (name : Name) :
    Spares req (lookupResource d name) := by
  refine spares_read fun got bad hbad => ?_
  dsimp only
  split_ifs
  · exact spares_return d _ bad
  · exact follows_parse_crash hreq (fun contents => spares_return d _) hbad

/-- `getDirContents`. What it returns is known to be bad, if it is. -/
theorem follows_getDirContents (d : Inum) (bad : Bool) :
    (getDirContents d).Follows (crashProtocol req)
      (fun result bad' => parsebuf result.2 = none → bad' = true) bad := by
  refine ⟨nofun, fun _ _ => ⟨nofun, fun got _ => ⟨nofun, fun _ _ hnone => ?_⟩⟩⟩
  show (_ || (parsebuf got.2).isNone || false) = true
  rw [show parsebuf got.2 = none from hnone, Option.isNone_none, Bool.or_true, Bool.true_or]

/-- `getattr` of `fuse.cc`. -/
theorem spares_getattr (inum : Inum) : Spares req (getattr inum) := by
  have hinfo : Spares req (getinfo inum) :=
    spares_call nofun fun _ => spares_call nofun fun _ => spares_return inum _
  unfold getattr
  dsimp only
  split_ifs
  all_goals
    refine (hinfo.bind fun _ => spares_done _).bind fun result => ?_
    split <;> exact spares_done _

/-- The attributes of an entry. -/
theorem spares_entryParam (ino : Inum) : Spares req (entryParam ino) :=
  (spares_getattr ino).bind fun _ => spares_done _

/-- `fuseserver_createhelper`. -/
theorem spares_createhelper (hreq : req.Parses) (parent : Inum) (name : Name) :
    Spares req (fuseserverCreatehelper parent name) := by
  refine (spares_create hreq isfile fileNumber parent name (spares_done _)).bind fun created => ?_
  split
  · exact (spares_entryParam _).bind fun _ => spares_done _
  · exact spares_done _

/-- `readFile`. -/
theorem spares_readFile (inum : Inum) (size off : UInt64) :
    Spares req (readFile inum size off) := by
  refine spares_read fun got bad _ => ⟨nofun, fun _ _ => ?_⟩
  change Program.Follows _ _ (if got.1 ≠ .OK then _ else _) _
  split_ifs <;> exact spares_done _ _

/-- `setAttr`. -/
theorem spares_setAttr (inum : Inum) (info : FileInfo) : Spares req (setAttr inum info) := by
  refine spares_call nofun fun _ => spares_call nofun fun a => ?_
  change Spares req (if a.1 = .OK then _ else _)
  split_ifs
  · exact spares_return inum _
  · have hget : Spares req (get inum) := spares_call nofun spares_done
    refine hget.bind fun got => ?_
    dsimp only
    cases resize got.2 info.size with
    | none => exact spares_done _
    | some buf => exact spares_put_return inum buf _
  · exact spares_return inum _

/-- `writeFile`. -/
theorem spares_writeFile (inum : Inum) (buf : List Char) (size off : UInt64) :
    Spares req (writeFile inum buf size off) := by
  refine spares_read fun got bad _ => ?_
  dsimp only
  split_ifs
  · cases overwritten got.2 buf size off with
    | none => exact spares_done _ bad
    | some val => exact spares_put_return inum val _ bad
  · exact spares_return inum _ bad

end Crash

/-- A handler ends the process only if it may. -/
theorem spares_handler [Libfuse] (req : Request) : Spares req req.handler := by
  cases req with
  | getattr ino => exact (spares_getattr ino).bind fun _ => spares_done _
  | setattr ino st_size to_set =>
    show Spares _ (fuseserverSetattr ino st_size to_set)
    unfold fuseserverSetattr
    dsimp only
    split_ifs
    all_goals first
    | exact spares_done _
    | refine (spares_setAttr ino _).bind fun ret => ?_
      split
      · exact spares_done _
      · exact (spares_getattr ino).bind fun _ => spares_done _
      · exact spares_done _
  | read ino size off => exact (spares_readFile ino size off).bind fun _ => spares_done _
  | write ino buf size off =>
    refine (spares_writeFile ino buf size off).bind fun ret => ?_
    cases ret <;> exact spares_done _
  | create parent name =>
    have hreq : (Request.create parent name).Parses := trivial
    refine (spares_createhelper hreq parent name).bind fun result => ?_
    split <;> exact spares_done _
  | mknod parent name =>
    have hreq : (Request.mknod parent name).Parses := trivial
    refine (spares_createhelper hreq parent name).bind fun result => ?_
    split <;> exact spares_done _
  | lookup parent name =>
    have hreq : (Request.lookup parent name).Parses := trivial
    refine (spares_lookupResource hreq parent name).bind fun found => ?_
    dsimp only
    split_ifs
    · exact (spares_entryParam _).bind fun _ => spares_done _
    · exact spares_done _
  | readdir ino size off =>
    show Spares _ (fuseserverReaddir ino size off)
    unfold fuseserverReaddir
    split_ifs
    · exact spares_done _
    · have hreq : (Request.readdir ino size off).Parses := trivial
      refine fun bad => (Program.follows_bind _ _ _).mpr
        ((follows_getDirContents ino bad).mono fun result bad' hbad => ?_)
      exact follows_parse_crash hreq (fun contents => spares_done _) hbad
  | opens ino => exact spares_done _
  | mkdir parent name =>
    have hreq : (Request.mkdir parent name).Parses := trivial
    refine Spares.bind (spares_create hreq isdir directoryNumber parent name
      (spares_return parent _)) fun created => ?_
    split
    · exact (spares_entryParam _).bind fun _ => spares_done _
    · exact spares_done _
  | unlink parent name =>
    have hreq : (Request.unlink parent name).Parses := trivial
    exact (spares_unlinkFile hreq parent name).bind fun _ => spares_done _
  | statfs => exact spares_done _

/-- What was read before the process ends. -/
theorem afterAll_crashProtocol (req : Request) (bad : Bool)
    (trace : List ((q : Call) × Answer q)) :
    (crashProtocol req).afterAll bad trace = (bad || trace.any fun e => unparsable e.1 e.2) := by
  induction trace generalizing bad with
  | nil => exact (Bool.or_false bad).symm
  | cons e trace ih =>
    rw [Program.Protocol.afterAll, ih, List.any_cons, ← Bool.or_assoc]
    rfl

/-- Whatever happens between the calls of a handler, a handler that returns has made one reply,
which fits the request, or two when attributes of something that is not a file are set. Only a
request that writes or sets attributes can end the process instead with an exception. A handler that
does not return has read a text that cannot be parsed, and its request is one that reads a
directory. -/
theorem fits_replies [Libfuse] (req : Request) (trace : List ((q : Call) × Answer q)) :
    (∀ result, req.handler.Runs trace result →
      (result = none ∧ req.MayThrow) ∨ ∃ replies, result = some replies ∧
        replies.length = req.replies ∧ ∀ reply ∈ replies, reply.Fits req) ∧
    (req.handler.Calls trace .crash → req.Parses ∧
      ∃ d ret buf, ⟨.get d, (ret, buf)⟩ ∈ trace ∧ parsebuf buf = none) := by
  constructor
  · intro result h
    have hfitting := (returns_handler req).runs h
    cases result with
    | none => exact Or.inl ⟨rfl, hfitting⟩
    | some replies => exact Or.inr ⟨replies, rfl, hfitting⟩
  · intro h
    obtain ⟨hparses, hbad⟩ :=
      (spares_handler req false).calls (fun _ _ _ => trivial) h rfl
    rw [afterAll_crashProtocol, Bool.false_or, List.any_eq_true] at hbad
    obtain ⟨⟨q, a⟩, hmem, hunparsable⟩ := hbad
    refine ⟨hparses, ?_⟩
    cases q with
    | get d => exact ⟨d, a.1, a.2, hmem, Option.isNone_iff_eq_none.mp hunparsable⟩
    | _ => cases hunparsable

/-- Attributes of the root directory are set, and the request is answered twice. A name is looked up
in a directory whose last entry was cut, and the process ends. -/
theorem fits_replies_root : ∃ _ : Libfuse,
    (Request.setattr 1 0 0).handler.Runs [] (some [.err .ENOSYS, .err .ENOSYS]) ∧
    (∃ replies, some [Reply.err .ENOSYS, .err .ENOSYS] = some replies ∧ replies.length = 2 ∧
      ∀ reply ∈ replies, reply.Fits (.setattr 1 0 0)) ∧
    (Request.lookup 1 ['a']).handler.Calls [⟨.acquire 1, ()⟩,
      ⟨.get 1, (Extent.Status.OK, ['6', '@', 'a', '/', '2'])⟩] .crash ∧
    (Request.lookup 1 ['a']).Parses := by
  refine ⟨tinyLibfuse, .done _, ?_, ?_⟩
  · rcases (@fits_replies tinyLibfuse (.setattr 1 0 0) []).1 _ (.done _) with ⟨hnone, -⟩ | hreplies
    · cases hnone
    · exact hreplies
  · have hcalls : (@Request.handler tinyLibfuse (.lookup 1 ['a'])).Calls [⟨.acquire 1, ()⟩,
        ⟨.get 1, (Extent.Status.OK, ['6', '@', 'a', '/', '2'])⟩] .crash :=
      .later _ (.later _ .here)
    exact ⟨hcalls, ((@fits_replies tinyLibfuse _ _).2 hcalls).1⟩

end Fuse

end SimpleDfs.Yfs
