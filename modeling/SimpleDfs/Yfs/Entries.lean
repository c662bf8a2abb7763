import SimpleDfs.Yfs.Names

/-!
# A directory as a list of entries

`createFile`, `createDirectory` and `unlinkFile` on one directory, by any clients, one after the
other, next to a list of entries: a create that succeeds appends an entry, `unlinkFile` takes away
the first file of its name, and an operation that fails does nothing (`DirOp.listAfter`). The
entries of the directory are this list after every sequence of operations, and `lookupResource`
finds the first entry of a name in it (`directory_refines_list`). The directory may be one that
clients find at the server, or one that the client that calls first has just made.

An operation that fails has only read the directory. This is told from the calls that it made
(`failed_only_reads`), and then it has not touched any other extent.
-/

namespace SimpleDfs.Yfs

open Extent

namespace DirOp

/-- The operation on the directory `d`, with the number that a create returns. -/
def call (d : Inum) : DirOp → YfsM (Status × Option Inum)
  | createFile name => Yfs.createFile d name
  | createDirectory name => Yfs.createDirectory d name
  | unlinkFile name => do return (← Yfs.unlinkFile d name, none)

/-- The list of entries after an operation, by what the operation returned: a create that succeeded
appends its entry, and `unlinkFile` takes away the first file of that name. -/
def listAfter (entries : List Dirent) : DirOp → Status × Option Inum → List Dirent
  | createFile name, (.OK, some inum) => entries ++ [⟨name, inum⟩]
  | createDirectory name, (.OK, some inum) => entries ++ [⟨name, inum⟩]
  | unlinkFile name, (.OK, _) =>
    entries.eraseP fun entry => entry.name == name && isfile entry.inum
  | _, _ => entries

/-- An operation that failed leaves the list as it is. -/
theorem listAfter_of_failed (entries : List Dirent) (op : DirOp) {result : Status × Option Inum}
    (h : result.1 ≠ .OK) : op.listAfter entries result = entries := by
  unfold listAfter
  split
  · exact absurd rfl h
  · exact absurd rfl h
  · exact absurd rfl h
  · rfl

end DirOp

/-- The operation is run on the directory `d`, with what it returns. -/
def DirCall.run (d : Inum) (w : World) (call : DirCall) :
    Option ((Status × Option Inum) × World) :=
  (call.op.call d).exec (World.call call.client call.now call.random) w

/-- Some operations are run on the directory `d`, one after the other, with what they return. -/
def runAll (d : Inum) : World → List DirCall → Option (List (Status × Option Inum) × World)
  | w, [] => some ([], w)
  | w, call :: calls => (call.run d w).bind fun first =>
    (runAll d first.2 calls).map fun rest => (first.1 :: rest.1, rest.2)

/-- The list of entries after some operations, by what they returned. -/
def listAll (entries : List Dirent) (calls : List DirCall)
    (results : List (Status × Option Inum)) : List Dirent :=
  (calls.zip results).foldl (fun entries step => step.1.op.listAfter entries step.2) entries

/-! ## Operations that fail -/

/-- The call only reads the directory `d`. -/
def Call.reads (d : Inum) : Call → Bool
  | acquire eid | get eid => eid == d
  | release _ | random => true
  | _ => false

/-- No call is excluded. What is known of a program is whether it has done more than to read the
directory `d`. -/
def readProtocol (d : Inum) : Program.Protocol Call Answer Bool where
  allows _ _ := True
  answers _ _ _ := True
  after v q _ := v || !q.reads d

/-- An operation takes the lock of a directory and reads its content. -/
theorem follows_read {α : Type} {d : Inum} {post : α → Bool → Prop}
    {next : Extent.Status × Buf → YfsM α}
    (h : ∀ a, (next a).Follows (readProtocol d) post false) :
    (acquire d >>= fun _ => get d >>= next).Follows (readProtocol d) post false := by
  refine ⟨trivial, fun _ _ => ⟨trivial, fun a _ => ?_⟩⟩
  show (next a).Follows (readProtocol d) post (false || !(d == d) || !(d == d))
  rw [beq_self_eq_true]
  exact h a

/-- A create, from where it has the lock and the content of the directory. -/
theorem follows_enter (ofKind : Inum → Bool) (number : Random → Inum) (d : Inum) (name : Name)
    (buf : Buf) : (enter ofKind number d name buf).Follows (readProtocol d)
      (fun result v => result.1 ≠ .OK → v = false) false := by
  refine follows_parse (fun contents _ => ?_) fun _ => trivial
  dsimp only
  split_ifs
  · exact ⟨trivial, fun _ _ _ => rfl⟩
  all_goals
    refine ⟨trivial, fun _ _ => ⟨trivial, fun _ _ => ⟨trivial, fun _ _ =>
      ⟨trivial, fun _ _ => ?_⟩⟩⟩⟩
    exact fun h => absurd rfl h

/-- An operation that fails has only read the directory. -/
theorem failed_only_reads (d : Inum) (op : DirOp) : (op.call d).Follows (readProtocol d)
    (fun result v => result.1 ≠ .OK → v = false) false := by
  cases op with
  | createFile name =>
    refine follows_read fun a => ?_
    dsimp only
    split_ifs
    · exact fun _ => rfl
    · exact follows_enter isfile fileNumber d name a.2
  | createDirectory name =>
    refine follows_read fun a => ?_
    dsimp only
    split_ifs
    · exact ⟨trivial, fun _ _ _ => rfl⟩
    · exact follows_enter isdir directoryNumber d name a.2
  | unlinkFile name =>
    refine (Program.follows_bind _ _ _).mpr (follows_read fun a => ?_)
    dsimp only
    split_ifs
    · exact ⟨trivial, fun _ _ _ => rfl⟩
    · refine follows_parse (fun contents _ => ?_) fun _ => trivial
      cases contents.find? (Dirent.isFileNamed name) with
      | none => exact ⟨trivial, fun _ _ _ => rfl⟩
      | some entry =>
        refine ⟨trivial, fun _ _ => ⟨trivial, fun _ _ => ⟨trivial, fun _ _ => ⟨trivial, fun _ _ =>
          ⟨trivial, fun _ _ => ?_⟩⟩⟩⟩⟩
        exact fun h => absurd rfl h

/-- An operation that fails leaves the other extents as they are. -/
theorem frame_of_failed {d : Inum} {w w' : World} {call : DirCall} {result : Status × Option Inum}
    (hrun : call.run d w = some (result, w')) (hfailed : result.1 ≠ .OK) {eid : Inum}
    (hne : eid ≠ d) : World.Frame eid w w' := by
  have hcalls : ∀ v w₁ (q : Call) a w₂, (v = false → World.Frame eid w w₁) → True →
      World.call call.client call.now call.random q w₁ = some (a, w₂) →
      True ∧ ((v || !q.reads d) = false → World.Frame eid w w₂) := by
    refine fun v w₁ q a w₂ hframe _ hcall => ⟨trivial, fun hv => ?_⟩
    obtain ⟨hv', hreads⟩ := Bool.or_eq_false_iff.mp hv
    refine (hframe hv').trans (World.frame_call hcall fun hextent => hne ?_)
    -- A call that only reads works on the directory, if it works on an extent at all.
    cases q with
    | acquire i | get i => simpa [Call.reads, ← Option.some.inj hextent] using hreads
    | release i | random => cases hextent
    | crash => exact a.elim
    | getattr i | put i buf | remove i => cases hreads
  obtain ⟨v, hpost, hframe⟩ := (failed_only_reads d call.op).exec
    (I := fun v w₁ => v = false → World.Frame eid w w₁) hcalls (fun _ => .refl w) hrun
  exact hframe (hpost hfailed)

/-! ## The operations on the list -/

section Lists

variable {w : World} {c : ℕ} {d : Inum} {entries : List Dirent}

/-- What a create does to the entries is told by what it returns. -/
theorem entered_eq_listAfter (ofKind : Inum → Bool) (inum : Inum) (name : Name)
    (entries : List Dirent) :
    (entered ofKind inum name entries).2 =
        (DirOp.createFile name).listAfter entries (entered ofKind inum name entries).1 ∧
      (entered ofKind inum name entries).2 =
        (DirOp.createDirectory name).listAfter entries (entered ofKind inum name entries).1 := by
  unfold entered
  split_ifs
  · exact ⟨rfl, rfl⟩
  · exact ⟨rfl, rfl⟩

/-- What `unlinkFile` does to the entries is told by what it returns. -/
theorem unlinked_eq_listAfter {name : Name} (hname : ValidName name) (entries : List Dirent) :
    (unlinked name entries).2 =
      (DirOp.unlinkFile name).listAfter entries ((unlinked name entries).1, none) := by
  have hnamed : Dirent.isFileNamed name = fun entry => entry.name == name && isfile entry.inum := by
    funext entry
    rw [Dirent.isFileNamed, hname.cString_eq]
  unfold unlinked
  cases entries.find? (Dirent.isFileNamed name) with
  | none => rfl
  | some entry =>
    rw [hnamed]
    rfl

/-- An operation returns, and does to the directory what it does to the list. -/
theorem Lists.run {call : DirCall} (h : Lists w call.client d entries) (hd : isdir d = true)
    (hname : ValidName call.op.name) : ∃ result w', call.run d w = some (result, w') ∧
      ∀ c', Lists w' c' d (call.op.listAfter entries result) := by
  obtain ⟨c, now, r, op⟩ := call
  cases op with
  | createFile name =>
    have hname' : ValidName name := hname
    obtain ⟨w', hexec, hlists⟩ := h.createFile hname' now r
    rw [(entered_eq_listAfter isfile (fileNumber r) name entries).1] at hlists
    exact ⟨_, w', hexec, hlists⟩
  | createDirectory name =>
    have hname' : ValidName name := hname
    obtain ⟨w', hexec, hlists⟩ := h.createDirectory hname' now r
    rw [(entered_eq_listAfter isdir (directoryNumber r) name entries).2] at hlists
    exact ⟨_, w', hexec, hlists⟩
  | unlinkFile name =>
    obtain ⟨w', hexec, hlists⟩ := h.unlinkFile hd name now r
    have hname' : ValidName name := hname
    rw [unlinked_eq_listAfter hname'] at hlists
    refine ⟨_, w', ?_, hlists⟩
    show (Yfs.unlinkFile d name >>= fun result => pure (result, none)).exec
      (World.call c now r) w = _
    rw [Program.exec_bind, hexec]
    rfl

/-- Some operations return, and do to the directory what they do to the list. After the first one
every client can use the directory. -/
theorem Lists.runAll {calls : List DirCall}
    (hfirst : ∀ call ∈ calls.head?, Lists w call.client d entries) (hd : isdir d = true)
    (hnames : ∀ call ∈ calls, ValidName call.op.name) :
    ∃ results w', runAll d w calls = some (results, w') ∧ results.length = calls.length ∧
      ∀ c, (calls = [] → Lists w c d entries) → Lists w' c d (listAll entries calls results) := by
  induction calls generalizing w entries with
  | nil => exact ⟨[], w, rfl, rfl, fun c hc => hc rfl⟩
  | cons call calls ih =>
    obtain ⟨result, w₁, hrun, hlists⟩ := (hfirst call rfl).run hd (hnames call List.mem_cons_self)
    obtain ⟨results, w₂, hrest, hlength, hlists'⟩ := ih (fun call' _ => hlists call'.client)
      fun call' hcall' => hnames call' (List.mem_cons_of_mem _ hcall')
    refine ⟨result :: results, w₂, ?_, congrArg (· + 1) hlength, fun c _ =>
      hlists' c fun _ => hlists c⟩
    rw [Yfs.runAll, hrun, Option.bind_some, hrest, Option.map_some]

/-- `lookupResource` finds the first entry of the name. -/
theorem Lists.lookup (h : Lists w c d entries) {name : Name} (hname : ValidName name)
    (now : UInt32) (r : Random) :
    ∃ w', (lookupResource d name).exec (World.call c now r) w =
      some ((.OK, ((entries.find? fun entry => entry.name == name).map Dirent.inum).getD 0),
        w') := by
  obtain ⟨w₁, hexec, -, -, -⟩ := World.locked_exec c now r h.keeps h.free fun got =>
    if got.1 ≠ .OK then release d >>= fun _ => pure (Status.IOERR, 0)
    else parse got.2 >>= fun contents => release d >>= fun _ => pure (Status.OK,
      ((contents.find? fun entry => entry.name == cString name).map Dirent.inum).getD 0)
  obtain ⟨w₂, hrelease, -⟩ := World.call_release (w := w₁) c now r d
  refine ⟨w₂, hexec.trans ?_⟩
  rw [if_neg (not_not.mpr rfl), parse_eq_done (parsebuf_writeDirent h.valid), hname.cString_eq]
  exact Program.exec_call hrelease

end Lists

/-- What client `c` finds in a directory `d` that lists the given entries. -/
structure IsList (d : Inum) (c : ℕ) (w : World) (entries : List Dirent) : Prop where
  /-- The entries are read from its text. -/
  parsed : w.entries c d = entries
  /-- An operation that fails changes neither the directory nor any other extent. -/
  failed : ∀ call : DirCall, call.client = c → ValidName call.op.name → ∀ result w',
    call.run d w = some (result, w') → result.1 ≠ .OK →
      w'.contentFor c d = w.contentFor c d ∧
      ∀ eid ≠ d, ∀ c', w'.contentFor c' eid = w.contentFor c' eid
  /-- `lookupResource` returns the number of the first entry of the name, and `0` when there is
  none. -/
  lookup : ∀ now r name, ValidName name →
    ((lookupResource d name).exec (World.call c now r) w).map Prod.fst =
      some (.OK, ((entries.find? fun entry => entry.name == name).map Dirent.inum).getD 0)

/-- A client that finds the entries finds a list. -/
theorem Lists.isList {w : World} {c : ℕ} {d : Inum} {entries : List Dirent}
    (h : Lists w c d entries) (hd : isdir d = true) : IsList d c w entries := by
  refine ⟨h.entries_eq, ?_, fun now r name hname => ?_⟩
  · rintro call rfl hname result w' hcall hfailed
    refine ⟨?_, fun eid heid c' => (frame_of_failed hcall hfailed heid).contentFor_eq c'⟩
    -- The list is the same, so the text is.
    obtain ⟨result', w₁, hcall', hlists⟩ := h.run hd hname
    obtain ⟨rfl, rfl⟩ := Prod.mk.inj (Option.some.inj (hcall'.symm.trans hcall))
    rw [DirOp.listAfter_of_failed _ _ hfailed] at hlists
    rw [(hlists call.client).keeps.contentFor_eq, h.keeps.contentFor_eq]
  · obtain ⟨w', hexec⟩ := h.lookup hname now r
    rw [hexec]
    rfl

/-- From a directory on that is empty for the client that uses it first, be it at the server or in
the copy with which this client has just made it, after every sequence of operations, the directory
is the list of entries that the results of the operations give. It is so for every client, once
there was an operation. -/
theorem directory_refines_list {d : Inum} (hd : isdir d = true) {w : World} {c : ℕ}
    (hkeeps : w.Keeps c d []) (hheld : w.held = []) {calls : List DirCall}
    (hfirst : ∀ call ∈ calls.head?, call.client = c)
    (hnames : ∀ call ∈ calls, ValidName call.op.name) :
    ∃ results w', runAll d w calls = some (results, w') ∧ results.length = calls.length ∧
      ∀ c', (calls = [] → c' = c) → IsList d c' w' (listAll [] calls results) := by
  have hstart : Lists w c d [] := .nil hkeeps hheld
  obtain ⟨results, w', hrun, hlength, hlists⟩ := Lists.runAll (w := w) (d := d)
    (fun call hcall => by rw [hfirst call hcall]; exact hstart) hd hnames
  refine ⟨results, w', hrun, hlength, fun c' hc' => (hlists c' fun hnil => ?_).isList hd⟩
  rw [hc' hnil]
  exact hstart

/-- Two clients create a file, a directory and the file again, and unlink the file. -/
theorem directory_refines_list_two_clients : isdir 1 = true ∧
    (World.start rootOnly).Keeps 0 1 [] ∧ (∀ call ∈ unclashing, ValidName call.op.name) ∧
    ∃ results w, runAll 1 (.start rootOnly) unclashing = some (results, w) ∧
      results.length = unclashing.length ∧
      ∀ c, (unclashing = [] → c = 0) → IsList 1 c w (listAll [] unclashing results) := by
  have hd : isdir 1 = true := by decide
  have hnames : ∀ call ∈ unclashing, ValidName call.op.name := by decide
  exact ⟨hd, keeps_rootOnly 0, hnames,
    directory_refines_list hd (keeps_rootOnly 0) rfl (by decide) hnames⟩

end SimpleDfs.Yfs
