import Mathlib.Data.List.Nodup
import Mathlib.Data.Nat.Bitwise
import SimpleDfs.Yfs.World

/-!
# The names in a directory

`createFile`, `createDirectory` and `unlinkFile` on one directory, by any clients, one after the
other. On the entries of the directory they are `entered` and `unlinked` (`createFile_exec`,
`createDirectory_exec`, `unlinkFile_exec`): the text is read back as the entries that were written.

The names in the directory are meant to stay different from each other, and a name that is there
cannot be created again. A create compares the name only with the entries of its own kind, so this
holds exactly as long as no file is created with the name of a directory, and no directory with the
name of a file (`uniqueNames_iff`).
-/

namespace SimpleDfs.Yfs

open Extent

/-! ## The numbers of new files and directories -/

/-- The kind of a number is its bit 31. -/
theorem isfile_eq_testBit (inum : Inum) : isfile inum = inum.testBit 31 := by
  unfold isfile
  rw [show (0x80000000 : ℕ) = 2 ^ 31 from rfl, Nat.and_two_pow]
  cases inum.testBit 31 <;> rfl

/-- The number of a new file is that of a file. -/
theorem isfile_fileNumber (r : Random) : isfile (fileNumber r) = true := by
  unfold fileNumber
  rw [isfile_eq_testBit, Nat.testBit_or]
  exact Bool.or_eq_true_iff.mpr (Or.inr (by decide))

/-- The number of a new directory is that of a directory. -/
theorem isdir_directoryNumber (r : Random) : isdir (directoryNumber r) = true := by
  have hbit : (directoryNumber r).testBit 31 = false := by
    unfold directoryNumber
    rw [Nat.testBit_and]
    exact Bool.and_eq_false_iff.mpr (Or.inr (by decide))
  unfold isdir
  rw [isfile_eq_testBit, hbit]
  rfl

/-! ## The operations on the entries -/

/-- What a create does to the entries: it is refused when there is an entry of its kind with that
name, and adds an entry at the end otherwise. -/
def entered (ofKind : Inum → Bool) (inum : Inum) (name : Name) (entries : List Dirent) :
    (Status × Option Inum) × List Dirent :=
  if entries.any fun entry => entry.name == name && ofKind entry.inum then
    ((.EEXIST, none), entries)
  else ((.OK, some inum), entries ++ [⟨name, inum⟩])

/-- What `unlinkFile` does to the entries: it takes away the first file of that name. -/
def unlinked (name : Name) (entries : List Dirent) : Status × List Dirent :=
  match entries.find? (Dirent.isFileNamed name) with
  | none => (.NOENT, entries)
  | some _ => (.OK, entries.eraseP (Dirent.isFileNamed name))

section Exec

variable {w : World} {d : Inum} {entries : List Dirent} {name : Name} (c : ℕ) (now : UInt32)
  (r : Random)

/-- A create, from where it has the lock and the content of the directory. -/
theorem enter_exec (hstores : w.Stores d (writeDirent entries)) (howner : w.owner d = some c)
    (hvalid : ∀ entry ∈ entries, entry.Valid) (hname : ValidName name) (ofKind : Inum → Bool)
    (number : Random → Inum) :
    ∃ w', (enter ofKind number d name (writeDirent entries)).exec (World.call c now r) w =
        some ((entered ofKind (number r) name entries).1, w') ∧
      w'.held = w.held.erase d ∧
      w'.Stores d (writeDirent (entered ofKind (number r) name entries).2) := by
  unfold enter entered
  rw [parse_eq_done (parsebuf_writeDirent hvalid), hname.cString_eq, Program.done_bind]
  by_cases hany : (entries.any fun entry => entry.name == name && ofKind entry.inum) = true
  · rw [if_pos hany, if_pos hany]
    obtain ⟨w', hcall, hheld, -, hkeep⟩ := World.call_release (w := w) c now r d
    exact ⟨w', Program.exec_call hcall, hheld, hkeep d _ hstores⟩
  · rw [if_neg hany, if_neg hany]
    -- The number is drawn, the new extent is put, and then the text of the directory.
    obtain ⟨w₁, hput, hheld₁, howner₁, hother₁, hself₁⟩ :=
      World.call_put (w := w) c now r (number r) []
    obtain ⟨b, hb⟩ : ∃ b, w₁.Stores d b := by
      by_cases hd : d = number r
      · rw [← hd] at hself₁
        exact ⟨[], hself₁ _ howner hstores⟩
      · exact ⟨_, hother₁ d _ hd hstores⟩
    have howner₁' : w₁.owner d = some c := by rw [howner₁, howner]
    obtain ⟨w₂, hput', hheld₂, -, -, hself₂⟩ := World.call_put (w := w₁) c now r d
      ((if entries.length ≠ 0 then writeDirent entries ++ [elementSeperator]
        else writeDirent entries) ++ createBuffElement (number r) name)
    obtain ⟨w₃, hrelease, hheld₃, -, hkeep₃⟩ := World.call_release (w := w₂) c now r d
    refine ⟨w₃, ?_, by rw [hheld₃, hheld₂, hheld₁], hkeep₃ d _ ?_⟩
    · exact (Program.exec_call rfl).trans ((Program.exec_call hput).trans
        ((Program.exec_call hput').trans (Program.exec_call hrelease)))
    · rw [writeDirent_concat]
      exact hself₂ b howner₁' hb

/-- A create in a directory that exists, whatever it does when there is none. -/
theorem create_exec (hkeeps : w.Keeps c d (writeDirent entries)) (hheld : d ∉ w.held)
    (hvalid : ∀ entry ∈ entries, entry.Valid) (hname : ValidName name) (ofKind : Inum → Bool)
    (number : Random → Inum) (absent : YfsM (Status × Option Inum)) :
    ∃ w', (acquire d >>= fun _ => get d >>= fun got => if got.1 ≠ .OK then absent
        else enter ofKind number d name got.2).exec (World.call c now r) w =
        some ((entered ofKind (number r) name entries).1, w') ∧
      w'.held = w.held ∧ w'.Stores d (writeDirent (entered ofKind (number r) name entries).2) := by
  obtain ⟨w₁, hexec₁, hheld₁, howner₁, hstores₁⟩ :=
    World.locked_exec c now r hkeeps hheld _
  obtain ⟨w₂, hexec₂, hheld₂, hstores₂⟩ :=
    enter_exec c now r hstores₁ howner₁ hvalid hname ofKind number
  refine ⟨w₂, hexec₁.trans hexec₂, ?_, hstores₂⟩
  rw [hheld₂, hheld₁, List.erase_cons_head]

/-- `unlinkFile`, from where it has the lock and the content of the directory. -/
theorem leave_exec (hstores : w.Stores d (writeDirent entries)) (howner : w.owner d = some c)
    (hd : isdir d = true) (hheld : w.held = [d]) (hvalid : ∀ entry ∈ entries, entry.Valid) :
    ∃ w', (leave d name (writeDirent entries)).exec (World.call c now r) w =
        some ((unlinked name entries).1, w') ∧
      w'.held = [] ∧ w'.Stores d (writeDirent (unlinked name entries).2) := by
  unfold leave unlinked
  rw [parse_eq_done (parsebuf_writeDirent hvalid), Program.done_bind]
  cases hfind : entries.find? (Dirent.isFileNamed name) with
  | none =>
    obtain ⟨w', hcall, hheld', -, hkeep⟩ := World.call_release (w := w) c now r d
    refine ⟨w', Program.exec_call hcall, ?_, hkeep d _ hstores⟩
    rw [hheld', hheld, List.erase_cons_head]
  | some entry =>
    -- The number of a file is not that of the directory, so its lock is free.
    have hnamed : entry.isFileNamed name = true := List.find?_some hfind
    have hfile : isfile entry.inum = true := (Bool.and_eq_true_iff.mp hnamed).2
    have hne : entry.inum ≠ d := by
      rintro rfl
      rw [isdir, hfile] at hd
      cases hd
    have hfree : entry.inum ∉ w.held := by
      rw [hheld, List.mem_singleton]
      exact hne
    obtain ⟨w₁, hacquire, hheld₁, howner₁, hkeep₁⟩ := World.call_acquire c now r hfree
    have howner' : w₁.owner d = some c := by
      rw [howner₁, Function.update_of_ne (Ne.symm hne), howner]
    obtain ⟨w₂, hput, hheld₂, -, -, hself₂⟩ := World.call_put (w := w₁) c now r d
      (writeDirent (entries.eraseP (Dirent.isFileNamed name)))
    have hstores₂ := hself₂ _ howner' (hkeep₁ d _ hstores)
    obtain ⟨w₃, hremove, hheld₃, -, hkeep₃⟩ := World.call_remove (w := w₂) c now r entry.inum
    have hstores₃ := hkeep₃ d _ (Ne.symm hne) hstores₂
    obtain ⟨w₄, hrelease, hheld₄, -, hkeep₄⟩ := World.call_release (w := w₃) c now r entry.inum
    obtain ⟨w₅, hrelease', hheld₅, -, hkeep₅⟩ := World.call_release (w := w₄) c now r d
    refine ⟨w₅, ?_, ?_, hkeep₅ d _ (hkeep₄ d _ hstores₃)⟩
    · exact (Program.exec_call hacquire).trans ((Program.exec_call hput).trans
        ((Program.exec_call hremove).trans ((Program.exec_call hrelease).trans
          (Program.exec_call hrelease'))))
    · rw [hheld₅, hheld₄, hheld₃, hheld₂, hheld₁, hheld, List.erase_cons_head,
        List.erase_cons_head]

/-- `unlinkFile` in a directory that exists, when no lock is held. -/
theorem unlinkFile_exec (hkeeps : w.Keeps c d (writeDirent entries)) (hd : isdir d = true)
    (hheld : w.held = []) (hvalid : ∀ entry ∈ entries, entry.Valid) :
    ∃ w', (unlinkFile d name).exec (World.call c now r) w = some ((unlinked name entries).1, w') ∧
      w'.held = [] ∧ w'.Stores d (writeDirent (unlinked name entries).2) := by
  have hfree : d ∉ w.held := by
    rw [hheld]
    exact List.not_mem_nil
  obtain ⟨w₁, hexec₁, hheld₁, howner₁, hstores₁⟩ :=
    World.locked_exec c now r hkeeps hfree _
  rw [hheld] at hheld₁
  obtain ⟨w₂, hexec₂, hheld₂, hstores₂⟩ :=
    leave_exec c now r hstores₁ howner₁ hd hheld₁ hvalid
  exact ⟨w₂, hexec₁.trans hexec₂, hheld₂, hstores₂⟩

end Exec

/-! ## Sequences of operations -/

/-- An operation that changes a directory. -/
inductive DirOp where
  /-- `createFile`. -/
  | createFile (name : Name)
  /-- `createDirectory`. -/
  | createDirectory (name : Name)
  /-- `unlinkFile`. -/
  | unlinkFile (name : Name)
  deriving DecidableEq, Repr

namespace DirOp

/-- The name that the operation is called with. -/
def name : DirOp → Name
  | createFile name | createDirectory name | unlinkFile name => name

/-- The operation is a create. -/
def Creates : DirOp → Prop
  | createFile _ | createDirectory _ => True
  | unlinkFile _ => False

instance : DecidablePred Creates
  | createFile _ | createDirectory _ => inferInstanceAs (Decidable True)
  | unlinkFile _ => inferInstanceAs (Decidable False)

/-- The operation on the directory `d`, as the program that is run. -/
def program (d : Inum) : DirOp → YfsM Status
  | createFile name => do return (← Yfs.createFile d name).1
  | createDirectory name => do return (← Yfs.createDirectory d name).1
  | unlinkFile name => Yfs.unlinkFile d name

/-- The operation on the entries, when `random` returns `r`. -/
def onEntries (r : Random) (entries : List Dirent) : DirOp → Status × List Dirent
  | createFile name =>
    ((entered isfile (fileNumber r) name entries).1.1,
      (entered isfile (fileNumber r) name entries).2)
  | createDirectory name =>
    ((entered isdir (directoryNumber r) name entries).1.1,
      (entered isdir (directoryNumber r) name entries).2)
  | unlinkFile name => unlinked name entries

/-- The name is not that of an entry of the other kind. -/
def NoClash (entries : List Dirent) : DirOp → Prop
  | createFile name => ∀ entry ∈ entries, entry.name = name → isfile entry.inum = true
  | createDirectory name => ∀ entry ∈ entries, entry.name = name → isdir entry.inum = true
  | unlinkFile _ => True

instance (entries : List Dirent) : DecidablePred (NoClash entries)
  | createFile name => inferInstanceAs
      (Decidable (∀ entry ∈ entries, entry.name = name → isfile entry.inum = true))
  | createDirectory name => inferInstanceAs
      (Decidable (∀ entry ∈ entries, entry.name = name → isdir entry.inum = true))
  | unlinkFile _ => inferInstanceAs (Decidable True)

end DirOp

/-- An operation that a client calls. -/
structure DirCall where
  /-- The client. -/
  client : ℕ
  /-- The time. -/
  now : UInt32
  /-- What `random` returns. -/
  random : Random
  /-- The operation. -/
  op : DirOp
  deriving DecidableEq, Repr

namespace DirCall

/-- The operation is run on the directory `d`. -/
def exec (d : Inum) (w : World) (call : DirCall) : Option (Status × World) :=
  (call.op.program d).exec (World.call call.client call.now call.random) w

end DirCall

/-- The entries of a directory, as client `c` reads them when nobody has the lock. -/
def World.entries (w : World) (c : ℕ) (d : Inum) : List Dirent :=
  listed ((w.contentFor c d).getD [])

/-- The names in a directory. -/
def World.names (w : World) (c : ℕ) (d : Inum) : List Name := (w.entries c d).map Dirent.name

/-- Before and after each of the operations no two entries have the same name, every operation
returns, and a create of a name that is there is refused and changes nothing. The directory is read
by the client of the last operation, before the first one by `c`. -/
def UniqueNames (d : Inum) : ℕ → World → List DirCall → Prop
  | c, w, [] => (w.names c d).Nodup
  | c, w, call :: calls => (w.names c d).Nodup ∧ ∃ result ∈ call.exec d w,
    (call.op.Creates ∧ call.op.name ∈ w.names c d →
      result.1 ≠ .OK ∧ result.2.contentFor call.client d = w.contentFor c d) ∧
    UniqueNames d call.client result.2 calls

instance decidableUniqueNames (d : Inum) :
    (c : ℕ) → (w : World) → (calls : List DirCall) → Decidable (UniqueNames d c w calls)
  | c, w, [] => inferInstanceAs (Decidable (w.names c d).Nodup)
  | c, w, call :: calls =>
    have : ∀ w', Decidable (UniqueNames d call.client w' calls) :=
      fun w' => decidableUniqueNames d call.client w' calls
    inferInstanceAs (Decidable ((w.names c d).Nodup ∧ ∃ result ∈ call.exec d w,
      (call.op.Creates ∧ call.op.name ∈ w.names c d →
        result.1 ≠ .OK ∧ result.2.contentFor call.client d = w.contentFor c d) ∧
      UniqueNames d call.client result.2 calls))

/-- No create is called with the name of an entry of the other kind. -/
def NoneClashes (d : Inum) : ℕ → World → List DirCall → Prop
  | _, _, [] => True
  | c, w, call :: calls => call.op.NoClash (w.entries c d) ∧
    ∀ result ∈ call.exec d w, NoneClashes d call.client result.2 calls

instance decidableNoneClashes (d : Inum) :
    (c : ℕ) → (w : World) → (calls : List DirCall) → Decidable (NoneClashes d c w calls)
  | _, _, [] => inferInstanceAs (Decidable True)
  | c, w, call :: calls =>
    have : ∀ w', Decidable (NoneClashes d call.client w' calls) :=
      fun w' => decidableNoneClashes d call.client w' calls
    inferInstanceAs (Decidable (call.op.NoClash (w.entries c d) ∧
      ∀ result ∈ call.exec d w, NoneClashes d call.client result.2 calls))

/-! ## The names stay unique -/

/-- The directory lists, for client `c`, entries that can be read back, and no lock is held. -/
structure Lists (w : World) (c : ℕ) (d : Inum) (entries : List Dirent) : Prop where
  /-- The content is the text of the entries. -/
  keeps : w.Keeps c d (writeDirent entries)
  /-- The entries can be read back. -/
  valid : ∀ entry ∈ entries, entry.Valid
  /-- No lock is held. -/
  held : w.held = []

variable {w : World} {d : Inum} {c : ℕ}

/-- The entries are read back. -/
theorem Lists.entries_eq {entries : List Dirent} (h : Lists w c d entries) :
    w.entries c d = entries := by
  rw [World.entries, h.keeps.contentFor_eq, Option.getD_some, listed, parsebuf_writeDirent h.valid,
    Option.getD_some]

/-- The entries after a create can be read back. -/
theorem valid_entered {entries : List Dirent} (h : ∀ entry ∈ entries, entry.Valid) {name : Name}
    (hname : ValidName name) {inum : Inum} (hinum : inum < 18446744073709551616)
    (ofKind : Inum → Bool) :
    ∀ entry ∈ (entered ofKind inum name entries).2, entry.Valid := by
  unfold entered
  split_ifs
  · exact h
  · intro entry hentry
    rw [List.mem_append, List.mem_singleton] at hentry
    rcases hentry with hold | rfl
    · exact h entry hold
    · exact ⟨hname, hinum⟩

/-- The entries after `unlinkFile` can be read back. -/
theorem valid_unlinked {entries : List Dirent} (h : ∀ entry ∈ entries, entry.Valid) (name : Name) :
    ∀ entry ∈ (unlinked name entries).2, entry.Valid := by
  unfold unlinked
  intro entry hentry
  split at hentry
  · exact h entry hentry
  · exact h entry (List.mem_of_mem_eraseP hentry)

section Lists

variable {w : World} {c : ℕ} {d : Inum} {entries : List Dirent} {name : Name}

/-- The lock of the directory is free. -/
theorem Lists.free (h : Lists w c d entries) : d ∉ w.held := by
  rw [h.held]
  exact List.not_mem_nil

/-- `createFile` returns, and does to the entries what it does to the directory, which every client
can use then. -/
theorem Lists.createFile (h : Lists w c d entries) (hname : ValidName name) (now : UInt32)
    (r : Random) : ∃ w', (createFile d name).exec (World.call c now r) w =
        some ((entered isfile (fileNumber r) name entries).1, w') ∧
      ∀ c', Lists w' c' d (entered isfile (fileNumber r) name entries).2 := by
  have hlt : fileNumber r < 18446744073709551616 := lt_trans (fileNumber_lt r) (by decide)
  obtain ⟨w', hexec, hheld, hstores⟩ := create_exec c now r h.keeps h.free h.valid hname isfile
    fileNumber (pure (.NOENT, none))
  exact ⟨w', hexec, fun c' =>
    ⟨hstores.keeps c', valid_entered h.valid hname hlt isfile, hheld.trans h.held⟩⟩

/-- `createDirectory` does so as well. -/
theorem Lists.createDirectory (h : Lists w c d entries) (hname : ValidName name)
    (now : UInt32) (r : Random) : ∃ w', (createDirectory d name).exec (World.call c now r) w =
        some ((entered isdir (directoryNumber r) name entries).1, w') ∧
      ∀ c', Lists w' c' d (entered isdir (directoryNumber r) name entries).2 := by
  have hlt : directoryNumber r < 18446744073709551616 :=
    lt_trans (directoryNumber_lt r) (by decide)
  obtain ⟨w', hexec, hheld, hstores⟩ := create_exec c now r h.keeps h.free h.valid hname isdir
    directoryNumber (release d >>= fun _ => pure (.NOENT, none))
  exact ⟨w', hexec, fun c' =>
    ⟨hstores.keeps c', valid_entered h.valid hname hlt isdir, hheld.trans h.held⟩⟩

/-- `unlinkFile` does so as well. -/
theorem Lists.unlinkFile (h : Lists w c d entries) (hd : isdir d = true) (name : Name)
    (now : UInt32) (r : Random) : ∃ w', (unlinkFile d name).exec (World.call c now r) w =
        some ((unlinked name entries).1, w') ∧ ∀ c', Lists w' c' d (unlinked name entries).2 := by
  obtain ⟨w', hexec, hheld, hstores⟩ := unlinkFile_exec c now r h.keeps hd h.held h.valid
  exact ⟨w', hexec, fun c' => ⟨hstores.keeps c', valid_unlinked h.valid name, hheld⟩⟩

/-- An operation returns, and does to the entries what it does to the directory. -/
theorem Lists.exec {call : DirCall} (h : Lists w call.client d entries) (hd : isdir d = true)
    (hname : ValidName call.op.name) :
    ∃ w', call.exec d w = some ((call.op.onEntries call.random entries).1, w') ∧
      ∀ c', Lists w' c' d (call.op.onEntries call.random entries).2 := by
  obtain ⟨c, now, r, op⟩ := call
  cases op with
  | createFile name =>
    have hname' : ValidName name := hname
    obtain ⟨w', hexec, hlists⟩ := h.createFile hname' now r
    refine ⟨w', ?_, hlists⟩
    show (Yfs.createFile d name >>= fun result => pure result.1).exec (World.call c now r) w = _
    rw [Program.exec_bind, hexec]
    rfl
  | createDirectory name =>
    have hname' : ValidName name := hname
    obtain ⟨w', hexec, hlists⟩ := h.createDirectory hname' now r
    refine ⟨w', ?_, hlists⟩
    show (Yfs.createDirectory d name >>= fun result => pure result.1).exec
      (World.call c now r) w = _
    rw [Program.exec_bind, hexec]
    rfl
  | unlinkFile name => exact h.unlinkFile hd name now r

end Lists

section Entries

variable {entries : List Dirent} {name : Name} {ofKind : Inum → Bool}

/-- A create whose name only entries of its own kind have is refused when there is such an entry,
and otherwise the name is new. -/
theorem entered_of_kind (hnodup : (entries.map Dirent.name).Nodup)
    (hkind : ∀ entry ∈ entries, entry.name = name → ofKind entry.inum = true) (inum : Inum) :
    (name ∈ entries.map Dirent.name → (entered ofKind inum name entries).1.1 ≠ .OK ∧
        (entered ofKind inum name entries).2 = entries) ∧
      ((entered ofKind inum name entries).2.map Dirent.name).Nodup := by
  unfold entered
  split_ifs with hany
  · exact ⟨fun _ => ⟨Status.noConfusion, rfl⟩, hnodup⟩
  · have hnew : name ∉ entries.map Dirent.name := by
      intro hmem
      obtain ⟨entry, hentry, heq⟩ := List.mem_map.mp hmem
      refine hany (List.any_eq_true.mpr ⟨entry, hentry, ?_⟩)
      rw [heq, beq_self_eq_true, hkind entry hentry heq]
      rfl
    refine ⟨fun hmem => absurd hmem hnew, ?_⟩
    rw [List.map_append, List.map_singleton, ← List.concat_eq_append]
    exact hnodup.concat hnew

/-- A create is not refused when the name is that of an entry of the other kind. -/
theorem entered_of_clash (hnodup : (entries.map Dirent.name).Nodup) {entry : Dirent}
    (hentry : entry ∈ entries) (hname : entry.name = name) (hkind : ofKind entry.inum = false)
    (inum : Inum) : (entered ofKind inum name entries).1.1 = .OK := by
  unfold entered
  rw [if_neg]
  intro hany
  obtain ⟨entry', hentry', hsame⟩ := List.any_eq_true.mp hany
  obtain ⟨hname', hkind'⟩ := Bool.and_eq_true_iff.mp hsame
  -- There is only one entry with the name.
  have heq : entry' = entry :=
    List.inj_on_of_nodup_map hnodup hentry' hentry ((beq_iff_eq.mp hname').trans hname.symm)
  rw [heq, hkind] at hkind'
  cases hkind'

/-- An operation that does not clash refuses a name that is there, and keeps the names unique. -/
theorem onEntries_of_noClash (hnodup : (entries.map Dirent.name).Nodup) {op : DirOp}
    (hclash : op.NoClash entries) (r : Random) :
    (op.Creates ∧ op.name ∈ entries.map Dirent.name →
        (op.onEntries r entries).1 ≠ .OK ∧ (op.onEntries r entries).2 = entries) ∧
      ((op.onEntries r entries).2.map Dirent.name).Nodup := by
  cases op with
  | createFile name =>
    obtain ⟨hrefused, hunique⟩ := entered_of_kind hnodup hclash (fileNumber r)
    exact ⟨fun h => hrefused h.2, hunique⟩
  | createDirectory name =>
    obtain ⟨hrefused, hunique⟩ := entered_of_kind hnodup hclash (directoryNumber r)
    exact ⟨fun h => hrefused h.2, hunique⟩
  | unlinkFile name =>
    refine ⟨fun h => h.1.elim, ?_⟩
    simp only [DirOp.onEntries, unlinked]
    split
    · exact hnodup
    · exact hnodup.sublist ((List.eraseP_sublist).map Dirent.name)

/-- An operation that clashes creates a name that is there, and is not refused. -/
theorem onEntries_of_clash (hnodup : (entries.map Dirent.name).Nodup) {op : DirOp}
    (hclash : ¬ op.NoClash entries) (r : Random) :
    (op.Creates ∧ op.name ∈ entries.map Dirent.name) ∧ (op.onEntries r entries).1 = .OK := by
  cases op with
  | createFile name =>
    obtain ⟨entry, hclash⟩ := not_forall.mp hclash
    simp only [Classical.not_imp, Bool.not_eq_true] at hclash
    obtain ⟨hentry, hname, hkind⟩ := hclash
    exact ⟨⟨trivial, List.mem_map.mpr ⟨entry, hentry, hname⟩⟩,
      entered_of_clash hnodup hentry hname hkind _⟩
  | createDirectory name =>
    obtain ⟨entry, hclash⟩ := not_forall.mp hclash
    simp only [Classical.not_imp, Bool.not_eq_true] at hclash
    obtain ⟨hentry, hname, hkind⟩ := hclash
    exact ⟨⟨trivial, List.mem_map.mpr ⟨entry, hentry, hname⟩⟩,
      entered_of_clash hnodup hentry hname hkind _⟩
  | unlinkFile name => exact absurd trivial hclash

end Entries

/-- The names stay unique exactly when no operation clashes, from any directory in which they are
unique. -/
theorem Lists.unique_iff_noneClashes {entries : List Dirent} (h : Lists w c d entries)
    (hd : isdir d = true) (hnodup : (entries.map Dirent.name).Nodup) {calls : List DirCall}
    (hfirst : ∀ call ∈ calls.head?, Lists w call.client d entries)
    (hnames : ∀ call ∈ calls, ValidName call.op.name) :
    UniqueNames d c w calls ↔ NoneClashes d c w calls := by
  induction calls generalizing w c entries with
  | nil =>
    refine iff_of_true ?_ trivial
    show ((w.entries c d).map Dirent.name).Nodup
    rw [h.entries_eq]
    exact hnodup
  | cons call calls ih =>
    obtain ⟨w', hexec, hlists⟩ := (hfirst call rfl).exec hd (hnames call List.mem_cons_self)
    have hrest : ∀ call' ∈ calls, ValidName call'.op.name :=
      fun call' hcall' => hnames call' (List.mem_cons_of_mem _ hcall')
    have hnames' : w.names c d = entries.map Dirent.name := by rw [World.names, h.entries_eq]
    have hunique : UniqueNames d c w (call :: calls) ↔
        (call.op.Creates ∧ call.op.name ∈ entries.map Dirent.name →
          (call.op.onEntries call.random entries).1 ≠ .OK ∧
            w'.contentFor call.client d = w.contentFor c d) ∧
        UniqueNames d call.client w' calls := by
      rw [UniqueNames, hnames', hexec]
      simp only [Option.mem_def, Option.some.injEq, exists_eq_left', hnodup, true_and]
    have hclashes : NoneClashes d c w (call :: calls) ↔
        call.op.NoClash entries ∧ NoneClashes d call.client w' calls := by
      rw [NoneClashes, h.entries_eq, hexec]
      simp only [Option.mem_def, Option.some.injEq, forall_eq']
    rw [hunique, hclashes]
    by_cases hclash : call.op.NoClash entries
    · obtain ⟨hrefused, hnodup'⟩ := onEntries_of_noClash hnodup hclash call.random
      rw [← ih (hlists call.client) hnodup' (fun call' _ => hlists call'.client) hrest]
      refine and_congr_left fun _ => iff_of_true (fun hthere => ?_) hclash
      obtain ⟨hret, hsame⟩ := hrefused hthere
      rw [hsame] at hlists
      exact ⟨hret, (hlists call.client).keeps.contentFor_eq.trans h.keeps.contentFor_eq.symm⟩
    · -- The create of a name that is there succeeds.
      obtain ⟨hthere, hret⟩ := onEntries_of_clash hnodup hclash call.random
      exact iff_of_false (fun hall => (hall.1 hthere).1 hret) fun hall => hclash hall.1

/-- Client `c` finds an empty directory. -/
theorem Lists.nil (hkeeps : w.Keeps c d []) (hheld : w.held = []) :
    Lists w c d [] := ⟨hkeeps, fun _ hentry => absurd hentry List.not_mem_nil, hheld⟩

/-- From a directory on that is empty for the client that uses it first, be it at the server or in
the copy with which this client has just made it, the names stay unique, and names that are there
are refused, exactly when no file is created with the name of a directory and no directory with the
name of a file. -/
theorem uniqueNames_iff {d : Inum} (hd : isdir d = true) {w : World} {c : ℕ}
    (hkeeps : w.Keeps c d []) (hheld : w.held = []) {calls : List DirCall}
    (hfirst : ∀ call ∈ calls.head?, call.client = c)
    (hnames : ∀ call ∈ calls, ValidName call.op.name) :
    UniqueNames d c w calls ↔ NoneClashes d c w calls := by
  refine (Lists.nil hkeeps hheld).unique_iff_noneClashes hd List.nodup_nil (fun call hcall => ?_)
    hnames
  rw [hfirst call hcall]
  exact .nil hkeeps hheld

/-- A server with an empty root directory. -/
def rootOnly : ExtentServer := ExtentServer.put ⟨fun _ => none⟩ 0 1 []

/-- Every client finds the empty root directory. -/
theorem keeps_rootOnly (c : ℕ) : (World.start rootOnly).Keeps c 1 [] :=
  (World.Stores.of_server (fun _ => rfl) (by decide)).keeps c

/-- Two clients create a file and a directory, a name that is there, and a directory with the name
of a file that was unlinked. -/
def unclashing : List DirCall :=
  [⟨0, 1, 5, .createFile ['a']⟩, ⟨1, 2, 6, .createDirectory ['b']⟩, ⟨0, 3, 7, .createFile ['a']⟩,
   ⟨1, 4, 8, .unlinkFile ['a']⟩, ⟨0, 5, 9, .createDirectory ['a']⟩]

/-- The names stay unique. -/
theorem unclashing_unique : isdir 1 = true ∧ (World.start rootOnly).Keeps 0 1 [] ∧
    (∀ call ∈ unclashing, ValidName call.op.name) ∧
    NoneClashes 1 0 (.start rootOnly) unclashing ∧
    UniqueNames 1 0 (.start rootOnly) unclashing := by
  have hd : isdir 1 = true := by decide
  have hnames : ∀ call ∈ unclashing, ValidName call.op.name := by decide
  have hclash : NoneClashes 1 0 (.start rootOnly) unclashing := by decide +kernel
  exact ⟨hd, keeps_rootOnly 0, hnames, hclash,
    (uniqueNames_iff hd (keeps_rootOnly 0) rfl (by decide) hnames).mpr hclash⟩

/-- One client creates a file, and another one a directory of the same name. -/
def clashing : List DirCall :=
  [⟨0, 1, 5, .createFile ['a']⟩, ⟨1, 2, 6, .createDirectory ['a']⟩]

/-- Both creates succeed, and the directory has two entries of that name. -/
theorem clashing_not_unique : isdir 1 = true ∧ rootOnly.content 1 = some [] ∧
    (∀ call ∈ clashing, ValidName call.op.name) ∧
    ((DirCall.exec 1 (.start rootOnly) ⟨0, 1, 5, .createFile ['a']⟩).bind fun (ret, w) =>
      (DirCall.exec 1 w ⟨1, 2, 6, .createDirectory ['a']⟩).map fun (ret', w') =>
        (ret, ret', w'.names 1 1)) = some (.OK, .OK, [['a'], ['a']]) ∧
    ¬ UniqueNames 1 0 (.start rootOnly) clashing := by
  decide +kernel

end SimpleDfs.Yfs
