import SimpleDfs.Yfs.Client

/-!
# The locks of an operation

Every operation of the file system client acquires and releases its locks by hand, on each of its
paths. `locksAfter` follows the locks of the calling thread through the calls of an operation, with
whatever answers the extent client gives. An operation returns with the locks that its thread had
before, except `createFile` when the `get` of the parent fails: then it returns with the lock of the
parent (`lock_balance_iff`). An operation that ends its process does not return. No operation on a
directory acquires a lock that it has acquired before and not released.

`Taken` is what is known in the middle of an operation: the locks that it has taken, and whether it
is on the way out that forgets one. `releases_program` goes through the operations.
-/

namespace SimpleDfs.Yfs

open Extent

/-! ## The operations and their locks -/

/-- An operation of the file system client. -/
inductive FsOp where
  /-- `yfs_client::getfile`. -/
  | getfile (inum : Inum)
  /-- `yfs_client::getdir`. -/
  | getdir (inum : Inum)
  /-- `yfs_client::createFile`. -/
  | createFile (parent : Inum) (buf : Name)
  /-- `yfs_client::createDirectory`. -/
  | createDirectory (parent : Inum) (buf : Name)
  /-- `yfs_client::unlinkFile`. -/
  | unlinkFile (parent : Inum) (buf : Name)
  /-- `yfs_client::lookupResource`. -/
  | lookupResource (parent : Inum) (buf : Name)
  /-- `yfs_client::getDirContents`. -/
  | getDirContents (inum : Inum)
  /-- `yfs_client::setAttr`. -/
  | setAttr (inum : Inum) (file_info : FileInfo)
  /-- `yfs_client::writeFile`. -/
  | writeFile (inum : Inum) (buf : List Char) (size off : UInt64)
  /-- `yfs_client::readFile`. -/
  | readFile (inum : Inum) (size off : UInt64)
  deriving DecidableEq, Repr

/-- The calls that an operation makes. It returns, or an exception ends the process. -/
def FsOp.program : FsOp → YfsM (Option Unit)
  | getfile inum => do let _ ← Yfs.getfile inum; return some ()
  | getdir inum => do let _ ← Yfs.getdir inum; return some ()
  | createFile parent buf => do let _ ← Yfs.createFile parent buf; return some ()
  | createDirectory parent buf => do let _ ← Yfs.createDirectory parent buf; return some ()
  | unlinkFile parent buf => do let _ ← Yfs.unlinkFile parent buf; return some ()
  | lookupResource parent buf => do let _ ← Yfs.lookupResource parent buf; return some ()
  | getDirContents inum => do let _ ← Yfs.getDirContents inum; return some ()
  | setAttr inum file_info => do return (← Yfs.setAttr inum file_info).map fun _ => ()
  | writeFile inum buf size off => do return (← Yfs.writeFile inum buf size off).map fun _ => ()
  | readFile inum size off => do let _ ← Yfs.readFile inum size off; return some ()

/-- The file or directory that the operation is called for. -/
def FsOp.target : FsOp → Inum
  | createFile parent _ | createDirectory parent _ | unlinkFile parent _
  | lookupResource parent _ => parent
  | getfile inum | getdir inum | getDirContents inum | setAttr inum _ | writeFile inum _ _ _
  | readFile inum _ _ => inum

/-- The locks of a thread after a call that it makes with the locks `held`. -/
def Call.locks (held : List Inum) : Call → List Inum
  | acquire lid => lid :: held
  | release lid => held.erase lid
  | _ => held

/-- The locks of a thread after some calls. -/
def locksAfter (held : List Inum) (trace : List ((q : Call) × Answer q)) : List Inum :=
  trace.foldl (fun held e => e.1.locks held) held

/-- The operation is `createFile`. -/
def FsOp.isCreateFile : FsOp → Bool
  | createFile _ _ => true
  | _ => false

/-- The answer sends the operation on the way out on which it does not release its lock: a `get` of
`createFile` that fails. -/
def FsOp.loses (op : FsOp) : (q : Call) → Answer q → Bool
  | .get _, a => op.isCreateFile && (show Extent.Status × Buf from a).1 != .OK
  | _, _ => false

/-! ## In the middle of an operation -/

/-- What is known of an operation from its own calls. -/
structure Taken where
  /-- The locks that it has acquired and not released. -/
  own : List Inum
  /-- It is on the way out on which it does not release its lock. -/
  lost : Bool

/-- The rules for the locks of an operation. It acquires no lock that it has, when it is called for
a directory, and releases only a lock that it has. -/
def lockProtocol (op : FsOp) : Program.Protocol Call Answer Taken where
  allows v q := match q with
    | .acquire lid => isdir op.target = true → lid ∉ v.own
    | .release lid => lid ∈ v.own
    | _ => True
  answers _ _ _ := True
  after v q a := ⟨q.locks v.own, v.lost || op.loses q a⟩

/-- The program keeps to the rules, and returns without a lock, or with that of the operation when
it is on the way out that forgets it. Of its results only those in `R` are returned. -/
def Releases {α : Type} (op : FsOp) (R : α → Prop) (p : YfsM α) (v : Taken) : Prop :=
  p.Follows (lockProtocol op) (fun a v' => R a → v'.own = if v'.lost then [op.target] else []) v

section Rules

variable {α β : Type} {op : FsOp} {R : α → Prop} {v : Taken} {lid eid : Inum}

/-- The program returns. -/
theorem releases_pure {a : α} (h : v.own = if v.lost then [op.target] else []) :
    Releases op R (pure a) v := fun _ => h

/-- The program does not return. -/
theorem releases_throw {a : α} (h : ¬ R a) : Releases op R (pure a) v := fun ha => absurd ha h

/-- The program acquires a lock. -/
theorem releases_acquire {k : YfsM α} (hlid : isdir op.target = true → lid ∉ v.own)
    (h : Releases op R k ⟨lid :: v.own, v.lost⟩) : Releases op R (do acquire lid; k) v := by
  refine ⟨hlid, fun _ _ => ?_⟩
  show Releases op R k ⟨lid :: v.own, v.lost || false⟩
  rwa [Bool.or_false]

/-- The program releases a lock. -/
theorem releases_release {k : YfsM α} (hlid : lid ∈ v.own)
    (h : Releases op R k ⟨v.own.erase lid, v.lost⟩) : Releases op R (do release lid; k) v := by
  refine ⟨hlid, fun _ _ => ?_⟩
  show Releases op R k ⟨v.own.erase lid, v.lost || false⟩
  rwa [Bool.or_false]

/-- The program reads an extent. -/
theorem releases_get {k : Extent.Status × Buf → YfsM α}
    (h : ∀ a : Extent.Status × Buf,
      Releases op R (k a) ⟨v.own, v.lost || (op.isCreateFile && a.1 != .OK)⟩) :
    Releases op R (do let a ← get eid; k a) v := ⟨trivial, fun a _ => h a⟩

/-- The program reads the attributes of an extent. -/
theorem releases_getattr {k : Extent.Status × Attr → YfsM α} (h : ∀ a, Releases op R (k a) v) :
    Releases op R (do let a ← getattr eid; k a) v := by
  refine ⟨trivial, fun a _ => ?_⟩
  show Releases op R (k a) ⟨v.own, v.lost || false⟩
  rw [Bool.or_false]
  exact h a

/-- The program writes an extent. -/
theorem releases_put {k : YfsM α} {buf : Buf} (h : Releases op R k v) :
    Releases op R (do put eid buf; k) v := by
  refine ⟨trivial, fun _ _ => ?_⟩
  show Releases op R k ⟨v.own, v.lost || false⟩
  rwa [Bool.or_false]

/-- The program removes an extent. -/
theorem releases_remove {k : YfsM α} (h : Releases op R k v) :
    Releases op R (do remove eid; k) v := by
  refine ⟨trivial, fun _ _ => ?_⟩
  show Releases op R k ⟨v.own, v.lost || false⟩
  rwa [Bool.or_false]

/-- The program draws a number. -/
theorem releases_random {k : Random → YfsM α} (h : ∀ r, Releases op R (k r) v) :
    Releases op R (do let r ← random; k r) v := by
  refine ⟨trivial, fun r _ => ?_⟩
  show Releases op R (k r) ⟨v.own, v.lost || false⟩
  rw [Bool.or_false]
  exact h r

/-- The program parses a text. -/
theorem releases_parse {buf : Buf} {k : List Dirent → YfsM α} (h : ∀ contents, Releases op R
    (k contents) v) : Releases op R (do let contents ← parse buf; k contents) v :=
  follows_parse (fun contents _ => h contents) fun _ => trivial

/-- The result of a program is made from that of another one. -/
theorem Releases.bind_pure {p : YfsM α} (h : Releases op R p v) {R' : β → Prop} {f : α → β}
    (hf : ∀ a, R' (f a) → R a) : Releases op R' (do let a ← p; return f a) v := by
  unfold Releases
  rw [Program.follows_bind]
  exact h.mono fun a v' hpost ha => hpost (hf a ha)

/-- The program releases its only lock and returns. -/
theorem releases_return {a : α} : Releases op R (do release lid; return a) ⟨[lid], false⟩ := by
  refine releases_release List.mem_cons_self (releases_pure ?_)
  rw [List.erase_cons_head]
  rfl

/-- The program takes the lock of an extent and reads the extent. -/
theorem releases_read {k : Extent.Status × Buf → YfsM α}
    (h : ∀ a : Extent.Status × Buf,
      Releases op R (k a) ⟨[lid], op.isCreateFile && a.1 != .OK⟩) :
    Releases op R (do acquire lid; let a ← get lid; k a) ⟨[], false⟩ :=
  releases_acquire (fun _ => List.not_mem_nil) (releases_get h)

end Rules

/-! ## The operations -/

section Operations

variable {op : FsOp}

/-- A create, from where it has the lock and the content of the directory. -/
theorem releases_enter (ofKind : Inum → Bool) (number : Random → Inum) (parent : Inum) (buf : Name)
    (parent_buf : Buf) :
    Releases op (fun _ => True) (enter ofKind number parent buf parent_buf) ⟨[parent], false⟩ := by
  refine releases_parse fun contents => ?_
  dsimp only
  split_ifs
  · exact releases_return
  · exact releases_random fun r => releases_put (releases_put releases_return)
  · exact releases_random fun r => releases_put (releases_put releases_return)

/-- `unlinkFile`, from where it has the lock and the content of the directory. -/
theorem releases_leave (buf : Name) (parent_buf : Buf) :
    Releases op (fun _ => True) (leave op.target buf parent_buf) ⟨[op.target], false⟩ := by
  refine releases_parse fun contents => ?_
  cases hfind : contents.find? (Dirent.isFileNamed buf) with
  | none => exact releases_return
  | some entry =>
    -- The number of a file is not that of a directory.
    have hnamed : entry.isFileNamed buf = true := List.find?_some hfind
    have hfile : isfile entry.inum = true := (Bool.and_eq_true_iff.mp hnamed).2
    refine releases_acquire (fun hdir hmem => ?_) (releases_put (releases_remove ?_))
    · rw [List.mem_singleton] at hmem
      rw [← hmem, isdir, hfile] at hdir
      cases hdir
    · refine releases_release List.mem_cons_self ?_
      rw [List.erase_cons_head]
      exact releases_return

/-- `getfile` and `getdir`. -/
theorem releases_getinfo (inum : Inum) :
    Releases op (fun _ => True) (getinfo inum) ⟨[], false⟩ :=
  releases_acquire (fun _ => List.not_mem_nil) (releases_getattr fun _ => releases_return)

/-- `setAttr`. -/
theorem releases_setAttr (inum : Inum) (file_info : FileInfo) (hop : op.isCreateFile = false) :
    Releases op (fun a => a.isSome) (setAttr inum file_info) ⟨[], false⟩ := by
  refine releases_acquire (fun _ => List.not_mem_nil) (releases_getattr fun a => ?_)
  dsimp only
  split_ifs
  · exact releases_return
  · refine releases_get fun a => ?_
    rw [hop]
    cases resize a.2 file_info.size with
    | none => exact releases_throw Bool.false_ne_true
    | some buf => exact releases_put releases_return
  · exact releases_return

/-- `writeFile`. -/
theorem releases_writeFile (inum : Inum) (buf : List Char) (size off : UInt64)
    (hop : op.isCreateFile = false) :
    Releases op (fun a => a.isSome) (writeFile inum buf size off) ⟨[], false⟩ := by
  refine releases_read fun a => ?_
  rw [hop]
  dsimp only
  split_ifs
  · cases overwritten a.2 buf size off with
    | none => exact releases_throw Bool.false_ne_true
    | some val => exact releases_put releases_return
  · exact releases_return

end Operations

/-- Every operation keeps to the rules for its locks. -/
theorem releases_program (op : FsOp) : Releases op (fun a => a.isSome) op.program ⟨[], false⟩ := by
  cases op with
  | getfile inum =>
    exact ((releases_getinfo inum).bind_pure fun _ _ => trivial).bind_pure fun _ _ => trivial
  | getdir inum =>
    exact ((releases_getinfo inum).bind_pure fun _ _ => trivial).bind_pure fun _ _ => trivial
  | createFile parent buf =>
    refine Releases.bind_pure (releases_read fun a => ?_) fun _ _ => trivial
    dsimp only
    by_cases hret : a.1 = .OK
    · rw [if_neg (not_not.mpr hret), hret]
      exact releases_enter isfile fileNumber parent buf a.2
    · -- The lock of the parent is not released.
      rw [if_pos hret]
      refine releases_pure ?_
      have hlost : (a.1 != Extent.Status.OK) = true := bne_iff_ne.mpr hret
      rw [hlost]
      rfl
  | createDirectory parent buf =>
    refine Releases.bind_pure (releases_read fun a => ?_) fun _ _ => trivial
    dsimp only
    split_ifs
    · exact releases_return
    · exact releases_enter isdir directoryNumber parent buf a.2
  | unlinkFile parent buf =>
    refine Releases.bind_pure (releases_read fun a => ?_) fun _ _ => trivial
    dsimp only
    split_ifs
    · exact releases_return
    · exact releases_leave buf a.2
  | lookupResource parent buf =>
    refine Releases.bind_pure (releases_read fun a => ?_) fun _ _ => trivial
    dsimp only
    split_ifs
    · exact releases_return
    · exact releases_parse fun contents => releases_return
  | getDirContents inum =>
    exact Releases.bind_pure (releases_read fun a => releases_return) fun _ _ => trivial
  | setAttr inum file_info =>
    refine (releases_setAttr inum file_info rfl).bind_pure fun a ha => ?_
    rwa [Option.isSome_map] at ha
  | writeFile inum buf size off =>
    refine (releases_writeFile inum buf size off rfl).bind_pure fun a ha => ?_
    rwa [Option.isSome_map] at ha
  | readFile inum size off =>
    refine Releases.bind_pure (releases_read fun a => ?_) fun _ _ => trivial
    refine releases_release List.mem_cons_self ?_
    dsimp only
    split_ifs <;> exact releases_pure (by rw [List.erase_cons_head]; rfl)

/-! ## The locks of the thread -/

section Trace

variable (op : FsOp)

/-- What is known after some calls. -/
theorem afterAll_lockProtocol (v : Taken) (trace : List ((q : Call) × Answer q)) :
    (lockProtocol op).afterAll v trace =
      ⟨locksAfter v.own trace, v.lost || trace.any fun e => op.loses e.1 e.2⟩ := by
  induction trace generalizing v with
  | nil =>
    show v = ⟨v.own, v.lost || false⟩
    rw [Bool.or_false]
  | cons e trace ih =>
    rw [Program.Protocol.afterAll, ih, List.any_cons, ← Bool.or_assoc]
    rfl

/-- No answer is excluded. -/
theorem answered_lockProtocol (v : Taken) (trace : List ((q : Call) × Answer q)) :
    (lockProtocol op).Answered v trace := by
  induction trace generalizing v with
  | nil => trivial
  | cons e trace ih => exact ⟨trivial, ih _⟩

variable {op}

/-- The locks that the thread had before the operation stay. -/
theorem locksAfter_append {v : Taken} {trace : List ((q : Call) × Answer q)}
    (h : (lockProtocol op).Allowed v trace) (held : List Inum) :
    locksAfter (v.own ++ held) trace = locksAfter v.own trace ++ held := by
  induction trace generalizing v with
  | nil => rfl
  | cons e trace ih =>
    obtain ⟨q, a⟩ := e
    have hstep : q.locks (v.own ++ held) = q.locks v.own ++ held := by
      cases q with
      | release lid => exact List.erase_append_left held h.1
      | _ => rfl
    have hrest := ih h.2
    show locksAfter (q.locks (v.own ++ held)) trace = _
    rw [hstep]
    exact hrest

/-- An operation on a directory acquires only locks that it does not have. -/
theorem notMem_of_allowed {v : Taken} {before after : List ((q : Call) × Answer q)} {lid : Inum}
    {u : Answer (.acquire lid)}
    (h : (lockProtocol op).Allowed v (before ++ ⟨.acquire lid, u⟩ :: after))
    (hdir : isdir op.target = true) : lid ∉ locksAfter v.own before := by
  induction before generalizing v with
  | nil => exact h.1 hdir
  | cons e before ih => exact ih h.2

end Trace

/-- An operation that returns leaves its thread with the locks that the thread had before, exactly
when it is not a `createFile` whose `get` of the parent failed. An operation on a directory acquires
no lock that it has. -/
theorem lock_balance_iff (op : FsOp) {trace : List ((q : Call) × Answer q)}
    (hrun : op.program.Runs trace (some ())) (held : List Inum) :
    (locksAfter held trace = held ↔ ¬ ∃ e ∈ trace, op.loses e.1 e.2 = true) ∧
      (isdir op.target = true → ∀ before lid u after,
        trace = before ++ ⟨.acquire lid, u⟩ :: after → lid ∉ locksAfter [] before) := by
  obtain ⟨hallowed, hpost⟩ :=
    (releases_program op).runs hrun (answered_lockProtocol op ⟨[], false⟩ trace)
  have hown := hpost rfl
  rw [afterAll_lockProtocol] at hown
  dsimp only at hown
  have hlocks : locksAfter held trace = locksAfter [] trace ++ held :=
    locksAfter_append hallowed held
  constructor
  · rw [hlocks, hown, Bool.false_or, ← List.any_eq_true]
    cases trace.any fun e => op.loses e.1 e.2 with
    | true => simp
    | false => simp
  · rintro hdir before lid u after rfl
    exact notMem_of_allowed hallowed hdir

/-- `createDirectory` without a parent gives the lock back. -/
theorem lock_balance_createDirectory : (FsOp.createDirectory 1 ['a']).program.Runs
      [⟨.acquire 1, ()⟩, ⟨.get 1, (Extent.Status.IOERR, [])⟩, ⟨.release 1, ()⟩] (some ()) ∧
    locksAfter [7] [⟨.acquire 1, ()⟩, ⟨.get 1, (Extent.Status.IOERR, [])⟩, ⟨.release 1, ()⟩] =
      [7] := by
  have hrun : (FsOp.createDirectory 1 ['a']).program.Runs
      [⟨.acquire 1, ()⟩, ⟨.get 1, (Extent.Status.IOERR, [])⟩, ⟨.release 1, ()⟩] (some ()) :=
    .call _ (.call _ (.call _ (.done _)))
  exact ⟨hrun, (lock_balance_iff _ hrun [7]).1.mpr (by decide)⟩

/-- `createFile` without a parent does not. -/
theorem createFile_keeps_lock : (FsOp.createFile 1 ['a']).program.Runs
      [⟨.acquire 1, ()⟩, ⟨.get 1, (Extent.Status.IOERR, [])⟩] (some ()) ∧
    locksAfter [] [⟨.acquire 1, ()⟩, ⟨.get 1, (Extent.Status.IOERR, [])⟩] = [1] :=
  ⟨.call _ (.call _ (.done _)), rfl⟩

end SimpleDfs.Yfs
