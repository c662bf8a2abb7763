import SimpleDfs.Yfs.Files
import SimpleDfs.Yfs.Fuse

/-!
# What the file system is for

A volume has a node for each number in use: a file, which is an array of bytes, or a directory,
which is a list of entries. `answer` says what a request is to do to it, and what the reply is. The
times of the attributes are left open here, and are zero.

The nodes of a volume are a tree (`Tree`): all of them can be reached from the root directory, no
number is listed twice, and every entry leads to a node of its kind. Requests keep it a tree
(`Tree.answer`) when they are acceptable: they name nodes that exist, and a new node gets a number
that is not in use.
-/

namespace SimpleDfs.Yfs

open Extent Fuse

/-- What a number stands for. -/
inductive Node where
  /-- A file, with its content. -/
  | file (a : Bytes)
  /-- A directory. -/
  | dir (entries : List Dirent)

namespace Node

/-- The content of the extent. -/
def text : Node → Buf
  | file a => a.toList
  | dir entries => writeDirent entries

/-- The entries of a directory. A file has none. -/
def entries : Node → List Dirent
  | file _ => []
  | dir entries => entries

/-- The bytes of a file. A directory has none. -/
def bytes : Node → Bytes
  | file a => a
  | dir _ => .ofList []

/-- The node is a file. -/
def isFile : Node → Bool
  | file _ => true
  | dir _ => false

/-- The node can have the number: the number says whether it is a file, and a file is short enough
for its size attribute. -/
def Fits (d : Inum) : Node → Prop
  | file a => isfile d = true ∧ a.length < 4294967296
  | dir _ => isdir d = true

/-- The kind of a node is that of its number. -/
theorem Fits.isFile_eq {d : Inum} {node : Node} (h : node.Fits d) : node.isFile = isfile d := by
  cases node with
  | file a => exact h.1.symm
  | dir entries =>
    have hd : (!isfile d) = true := h
    show false = isfile d
    cases hfile : isfile d with
    | false => rfl
    | true =>
      rw [hfile] at hd
      cases hd

end Node

/-- The node of each number that is in use. -/
abbrev Volume := Inum → Option Node

namespace Volume

/-- Only the root directory, which is empty. -/
def root : Volume := fun d => if d = 1 then some (.dir []) else none

/-- The contents of the extents. -/
def contents (V : Volume) : Inum → Option Buf := fun d => (V d).map Node.text

/-- The entries of a directory. -/
def entries (V : Volume) (d : Inum) : List Dirent := ((V d).map Node.entries).getD []

/-- The bytes of a file. -/
def bytes (V : Volume) (d : Inum) : Bytes := ((V d).map Node.bytes).getD (.ofList [])

/-- The number is that of a file. -/
def IsFile (V : Volume) (d : Inum) : Prop := (V d).map Node.isFile = some true

/-- The number is that of a directory. -/
def IsDir (V : Volume) (d : Inum) : Prop := (V d).map Node.isFile = some false

instance (V : Volume) : DecidablePred V.IsFile := fun d =>
  inferInstanceAs (Decidable ((V d).map Node.isFile = some true))

instance (V : Volume) : DecidablePred V.IsDir := fun d =>
  inferInstanceAs (Decidable ((V d).map Node.isFile = some false))

/-! ## Requests -/

/-- A file gets other bytes. -/
def setFile (V : Volume) (d : Inum) (a : Bytes) : Volume := Function.update V d (some (.file a))

/-- A new node gets a number and a name, unless the directory has an entry of its kind with that
name. -/
def create (V : Volume) (ofKind : Inum → Bool) (inum : Inum) (node : Node) (parent : Inum)
    (name : Name) : Option Volume :=
  if (V.entries parent).any fun entry => entry.name == name && ofKind entry.inum then none
  else some (Function.update (Function.update V inum (some node)) parent
    (some (.dir (V.entries parent ++ [⟨name, inum⟩]))))

/-- The first file of that name is taken away, with its entry. -/
def unlink (V : Volume) (parent : Inum) (name : Name) : Option Volume :=
  ((V.entries parent).find? (Dirent.isFileNamed name)).map fun entry =>
    Function.update (Function.update V parent
      (some (.dir ((V.entries parent).eraseP (Dirent.isFileNamed name))))) entry.inum none

/-- The number of the first entry with that name. -/
def lookup (V : Volume) (parent : Inum) (name : Name) : Option Inum :=
  ((V.entries parent).find? fun entry => entry.name == name).map Dirent.inum

/-- The attributes of a number, without the times. -/
def stat (V : Volume) (ino : Inum) : Stat :=
  match V ino with
  | some (.file a) => ⟨ino, fileMode, 1, a.length, 0, 0, 0⟩
  | some (.dir _) => ⟨ino, dirMode, 2, 0, 0, 0, 0⟩
  | none => ⟨ino, 0, 0, 0, 0, 0, 0⟩

/-- The entry of a number in a reply. -/
def entryParam (V : Volume) (ino : Inum) : EntryParam := ⟨ino, 0, V.stat ino, 0, 0⟩

/-- A request that changes the volume, or is refused with an error. -/
def changed (V : Volume) (result : Option Volume) (reply : Volume → Reply) (refused : Errno) :
    List Reply × Volume :=
  match result with
  | some V' => ([reply V'], V')
  | none => ([.err refused], V)

/-- What a request does when `random` returns `r`: the replies, and the volume then. -/
def answer [Libfuse] (V : Volume) (r : Random) : Request → List Reply × Volume
  | .getattr ino => ([.attr (V.stat ino) 0], V)
  | .setattr ino st_size to_set =>
    if fuseSetAttrSize &&& to_set ≠ 0 then
      let V := V.setFile ino ((V.bytes ino).setLength st_size.toNat)
      ([.attr (V.stat ino) 0], V)
    else ([.err .ENOSYS], V)
  | .read ino size off =>
    ([if off.toNat ≤ (V.bytes ino).length then
        .buf (window (V.bytes ino).toList off.toNat size.toNat)
      else .err .ENOSYS], V)
  | .write ino buf size off =>
    ([.write size.toNat], V.setFile ino ((V.bytes ino).write off.toNat (buf.take size.toNat)))
  | .create parent name =>
    V.changed (V.create isfile (fileNumber r) (.file (.ofList [])) parent name)
      (fun V' => .create (V'.entryParam (fileNumber r))) .ENOENT
  | .mknod parent name =>
    V.changed (V.create isfile (fileNumber r) (.file (.ofList [])) parent name)
      (fun V' => .entry (V'.entryParam (fileNumber r))) .ENOENT
  | .lookup parent name =>
    match V.lookup parent name with
    | some ino => ([.entry (V.entryParam ino)], V)
    | none => ([.err .ENOENT], V)
  | .readdir ino size off =>
    ([if isdir ino then .buf (replyBufLimited (dirbuf (V.entries ino)) off.toNat size.toNat)
      else .err .ENOTDIR], V)
  | .opens _ => ([.opened], V)
  | .mkdir parent name =>
    V.changed (V.create isdir (directoryNumber r) (.dir []) parent name)
      (fun V' => .entry (V'.entryParam (directoryNumber r))) .EEXIST
  | .unlink parent name => V.changed (V.unlink parent name) (fun _ => .err .zero) .ENOENT
  | .statfs => ([.statfs 255 512], V)

/-- The request names nodes that exist and are of the right kind, with a name that can be read back,
and makes no file of 4 GiB. Attributes are set of files only, since the handler replies twice to any
other request for that. A number that is drawn for a new node is not in use and not 0. -/
def Acceptable (V : Volume) (r : Random) : Request → Prop
  | .getattr ino => (V ino).isSome = true
  | .setattr ino st_size to_set => isfile ino = true ∧
    (fuseSetAttrSize &&& to_set ≠ 0 → V.IsFile ino ∧ st_size.toNat < 4294967296)
  | .read ino _ _ => V.IsFile ino
  | .write ino buf size off =>
    V.IsFile ino ∧ size.toNat ≤ buf.length ∧ off.toNat + size.toNat < 4294967296
  | .create parent name | .mknod parent name =>
    V.IsDir parent ∧ ValidName name ∧ (V (fileNumber r)).isNone = true
  | .lookup parent name | .unlink parent name => V.IsDir parent ∧ FuseName name
  | .readdir ino _ _ => isdir ino = true → V.IsDir ino
  | .mkdir parent name =>
    V.IsDir parent ∧ ValidName name ∧ (V (directoryNumber r)).isNone = true ∧ directoryNumber r ≠ 0
  | .opens _ | .statfs => True

instance (V : Volume) (r : Random) : DecidablePred (V.Acceptable r)
  | .getattr ino => inferInstanceAs (Decidable ((V ino).isSome = true))
  | .setattr ino st_size to_set => inferInstanceAs (Decidable (isfile ino = true ∧
      (fuseSetAttrSize &&& to_set ≠ 0 → V.IsFile ino ∧ st_size.toNat < 4294967296)))
  | .read ino _ _ => inferInstanceAs (Decidable (V.IsFile ino))
  | .write ino buf size off => inferInstanceAs (Decidable
      (V.IsFile ino ∧ size.toNat ≤ buf.length ∧ off.toNat + size.toNat < 4294967296))
  | .create parent name | .mknod parent name => inferInstanceAs (Decidable
      (V.IsDir parent ∧ ValidName name ∧ (V (fileNumber r)).isNone = true))
  | .lookup parent name | .unlink parent name =>
    inferInstanceAs (Decidable (V.IsDir parent ∧ FuseName name))
  | .readdir ino _ _ => inferInstanceAs (Decidable (isdir ino = true → V.IsDir ino))
  | .mkdir parent name => inferInstanceAs (Decidable (V.IsDir parent ∧ ValidName name ∧
      (V (directoryNumber r)).isNone = true ∧ directoryNumber r ≠ 0))
  | .opens _ | .statfs => inferInstanceAs (Decidable True)

/-! ## Trees -/

/-- The number can be reached from the root directory. -/
inductive Path (V : Volume) : Inum → Prop
  /-- The root directory. -/
  | root : Path V 1
  /-- An entry of a directory. -/
  | entry {d : Inum} {entry : Dirent} (h : Path V d) (hentry : entry ∈ V.entries d) :
    Path V entry.inum

/-- The nodes are a tree, with the root directory at the top. -/
structure Tree (V : Volume) : Prop where
  /-- There is a root directory. -/
  root : V.IsDir 1
  /-- There is no node 0. -/
  zero : V 0 = none
  /-- Each number says what its node is. -/
  fits : ∀ d node, V d = some node → node.Fits d
  /-- The entries can be read back. -/
  valid : ∀ d, ∀ entry ∈ V.entries d, entry.Valid
  /-- An entry leads to a node. -/
  live : ∀ d, ∀ entry ∈ V.entries d, V entry.inum ≠ none
  /-- No number is listed twice in a directory. -/
  nodup : ∀ d, ((V.entries d).map Dirent.inum).Nodup
  /-- No number is listed in two directories. -/
  once : ∀ d d', ∀ entry ∈ V.entries d, ∀ entry' ∈ V.entries d', entry.inum = entry'.inum → d = d'
  /-- Each node can be reached. -/
  path : ∀ d node, V d = some node → V.Path d

/-! ### Updates -/

variable {V : Volume} {d : Inum}

/-- The contents after one node has changed. -/
theorem contents_update (V : Volume) (d : Inum) (node : Option Node) :
    contents (Function.update V d node) = Function.update V.contents d (node.map Node.text) := by
  funext e
  unfold contents
  rw [Function.update_apply, Function.update_apply]
  split_ifs <;> rfl

/-- The entries after one node has changed. -/
theorem entries_update (V : Volume) (d : Inum) (node : Option Node) :
    entries (Function.update V d node) =
      Function.update V.entries d ((node.map Node.entries).getD []) := by
  funext e
  unfold entries
  rw [Function.update_apply, Function.update_apply]
  split_ifs <;> rfl

/-- A number that is in use. -/
theorem contents_eq {node : Node} (h : V d = some node) : V.contents d = some node.text := by
  rw [contents, h]
  rfl

/-- A number that is not in use. -/
theorem contents_eq_none (h : V d = none) : V.contents d = none := by
  rw [contents, h]
  rfl

/-- A number that is not in use has no entries. -/
theorem entries_eq_nil (h : V d = none) : V.entries d = [] := by
  rw [entries, h]
  rfl

/-- The node of a file. -/
theorem IsFile.eq (h : V.IsFile d) : V d = some (.file (V.bytes d)) := by
  obtain ⟨node, hnode, hfile⟩ := Option.map_eq_some_iff.mp h
  rw [bytes, hnode]
  cases node with
  | file a => rfl
  | dir entries => cases hfile

/-- The node of a directory. -/
theorem IsDir.eq (h : V.IsDir d) : V d = some (.dir (V.entries d)) := by
  obtain ⟨node, hnode, hdir⟩ := Option.map_eq_some_iff.mp h
  rw [entries, hnode]
  cases node with
  | file a => cases hdir
  | dir entries => rfl

/-- The attributes of a file. -/
theorem stat_file {a : Bytes} (h : V d = some (.file a)) :
    V.stat d = ⟨d, fileMode, 1, a.length, 0, 0, 0⟩ := by
  rw [stat, h]

/-- The attributes of a directory. -/
theorem stat_dir {entries : List Dirent} (h : V d = some (.dir entries)) :
    V.stat d = ⟨d, dirMode, 2, 0, 0, 0, 0⟩ := by
  rw [stat, h]

/-- A directory is a number in use. -/
theorem IsDir.ne_none (h : V.IsDir d) : V d ≠ none := by
  rw [h.eq]
  exact nofun

/-- A directory is not a number that is free. -/
theorem IsDir.ne_of_none (h : V.IsDir d) {e : Inum} (he : V e = none) : e ≠ d := by
  rintro rfl
  exact h.ne_none he

/-- A directory stays one when its node stays or becomes that of another directory. -/
theorem IsDir.of_cases (h : V.IsDir d) {V' : Volume} (hne : V' d ≠ none)
    (hcases : ∀ node, V' d = some node → node.isFile = false ∨ V d = some node) : V'.IsDir d := by
  obtain ⟨node, hnode⟩ := Option.ne_none_iff_exists'.mp hne
  rcases hcases node hnode with hdir | hold
  · rw [IsDir, hnode, Option.map_some, hdir]
  · rwa [IsDir, hnode, ← hold]

/-- A path stays one when no entry is lost. -/
theorem Path.mono (h : V.Path d) {V' : Volume} (hentries : ∀ e, V.entries e ⊆ V'.entries e) :
    V'.Path d := by
  induction h with
  | root => exact .root
  | entry _ hentry ih => exact .entry ih (hentries _ hentry)

/-- What has entries is a directory. -/
theorem isDir_of_mem {entry : Dirent} (h : entry ∈ V.entries d) : V.IsDir d := by
  unfold entries at h
  unfold IsDir
  cases hnode : V d with
  | none =>
    rw [hnode] at h
    cases h
  | some node =>
    rw [hnode] at h
    cases node with
    | file a => cases h
    | dir entries => rfl

namespace Tree

/-- A number that is listed and says that it is a file. -/
theorem isFile_of_mem (h : V.Tree) {entry : Dirent} (hentry : entry ∈ V.entries d)
    (hfile : isfile entry.inum = true) : V.IsFile entry.inum := by
  obtain ⟨node, hnode⟩ := Option.ne_none_iff_exists'.mp (h.live d entry hentry)
  unfold IsFile
  rw [hnode, Option.map_some, (h.fits _ node hnode).isFile_eq, hfile]

/-- A file gets other bytes. -/
theorem setFile (h : V.Tree) (hfile : V.IsFile d) {a : Bytes} (ha : a.length < 4294967296) :
    (V.setFile d a).Tree := by
  have hnode := hfile.eq
  have hentries : (V.setFile d a).entries = V.entries := by
    unfold Volume.setFile
    rw [entries_update]
    refine Function.update_eq_self_iff.mpr ?_
    unfold entries
    rw [hnode]
    rfl
  have hne : ∀ e, V.setFile d a e = none ↔ V e = none := by
    intro e
    unfold Volume.setFile
    rw [Function.update_apply]
    split_ifs with he
    · rw [he, hnode]
      exact ⟨nofun, nofun⟩
    · rfl
  refine ⟨?_, (hne 0).mpr h.zero, fun e node he => ?_, ?_, ?_, ?_, ?_, fun e node he => ?_⟩
  · have hroot : 1 ≠ d := by
      rintro rfl
      have hdir := h.root
      rw [IsDir, hnode] at hdir
      cases hdir
    unfold IsDir Volume.setFile
    rw [Function.update_of_ne hroot]
    exact h.root
  · unfold Volume.setFile at he
    rw [Function.update_apply] at he
    split_ifs at he with hed
    · obtain rfl := Option.some.inj he
      rw [hed]
      exact ⟨(h.fits d _ hnode).1, ha⟩
    · exact h.fits e node he
  · rw [hentries]
    exact h.valid
  · rw [hentries]
    exact fun e entry hentry hnone => h.live e entry hentry ((hne _).mp hnone)
  · rw [hentries]
    exact h.nodup
  · rw [hentries]
    exact h.once
  · obtain ⟨node', hnode'⟩ := Option.ne_none_iff_exists'.mp
      (fun hnone => by rw [(hne e).mpr hnone] at he; cases he)
    exact (h.path e node' hnode').mono fun _ => hentries ▸ List.Subset.refl _

end Tree

/-! ### New nodes -/

section Create

variable {inum parent : Inum} {node : Node} {name : Name}

/-- A new node with an entry. -/
def added (V : Volume) (inum : Inum) (node : Node) (parent : Inum) (name : Name) : Volume :=
  Function.update (Function.update V inum (some node)) parent
    (some (.dir (V.entries parent ++ [⟨name, inum⟩])))

/-- The entries with a new node that has none itself. -/
theorem entries_added (hfresh : V inum = none) (hnode : node.entries = []) :
    (V.added inum node parent name).entries =
      Function.update V.entries parent (V.entries parent ++ [⟨name, inum⟩]) := by
  have hsame : Function.update V.entries inum [] = V.entries :=
    Function.update_eq_self_iff.mpr (entries_eq_nil hfresh).symm
  unfold added
  rw [entries_update, entries_update, Option.map_some, Option.getD_some, hnode, hsame]
  rfl

/-- There is one more entry. -/
theorem mem_entries_added (hfresh : V inum = none) (hnode : node.entries = []) {entry : Dirent} :
    entry ∈ (V.added inum node parent name).entries d ↔
      entry ∈ V.entries d ∨ d = parent ∧ entry = ⟨name, inum⟩ := by
  rw [entries_added hfresh hnode, Function.update_apply]
  split_ifs with hd
  · subst hd
    rw [List.mem_append, List.mem_singleton]
    exact or_congr_right ⟨fun h => ⟨rfl, h⟩, fun h => h.2⟩
  · exact ⟨Or.inl, fun h => h.resolve_right fun h => hd h.1⟩

/-- The node of a number. -/
theorem added_cases {e : Inum} {node' : Node} (h : V.added inum node parent name e = some node') :
    (e = parent ∧ node' = .dir (V.entries parent ++ [⟨name, inum⟩])) ∨ (e = inum ∧ node' = node) ∨
      V e = some node' := by
  unfold added at h
  rw [Function.update_apply] at h
  split_ifs at h with hparent
  · exact Or.inl ⟨hparent, (Option.some.inj h).symm⟩
  · rw [Function.update_apply] at h
    split_ifs at h with hinum
    · exact Or.inr (Or.inl ⟨hinum, (Option.some.inj h).symm⟩)
    · exact Or.inr (Or.inr h)

/-- What was there is there, and so is the new node. -/
theorem added_ne_none {e : Inum} (h : V e ≠ none ∨ e = inum) :
    V.added inum node parent name e ≠ none := by
  unfold added
  rw [Function.update_apply]
  split_ifs with hparent
  · exact nofun
  · rw [Function.update_apply]
    split_ifs with hinum
    · exact nofun
    · exact h.resolve_right hinum

/-- A new node with a number that was free. -/
theorem Tree.added (h : V.Tree) (hparent : V.IsDir parent) (hname : ValidName name)
    (hfresh : V inum = none) (hzero : inum ≠ 0) (hlt : inum < 18446744073709551616)
    (hfits : node.Fits inum) (hnode : node.entries = []) :
    (V.added inum node parent name).Tree := by
  have hmem : ∀ (e : Inum) (entry : Dirent), entry ∈ (V.added inum node parent name).entries e ↔
      entry ∈ V.entries e ∨ e = parent ∧ entry = ⟨name, inum⟩ :=
    fun e entry => mem_entries_added hfresh hnode
  -- The new number is in no directory yet.
  have hunlisted : ∀ e, ∀ entry ∈ V.entries e, entry.inum ≠ inum := by
    intro e entry hentry heq
    exact h.live e entry hentry (by rw [heq]; exact hfresh)
  have hpath : ∀ e, V.Path e → (V.added inum node parent name).Path e :=
    fun e he => he.mono fun e' entry hentry => (hmem e' entry).mpr (Or.inl hentry)
  refine ⟨?_, ?_, fun e node' he => ?_, ?_, ?_, ?_, ?_, fun e node' he => ?_⟩
  · refine h.root.of_cases (added_ne_none (Or.inl h.root.ne_none)) fun node' hnode' => ?_
    rcases added_cases hnode' with ⟨-, rfl⟩ | ⟨hroot, -⟩ | hold
    · exact Or.inl rfl
    · exact absurd hroot.symm (h.root.ne_of_none hfresh)
    · exact Or.inr hold
  · cases hv : V.added inum node parent name 0 with
    | none => rfl
    | some node' =>
      rcases added_cases hv with ⟨hp, -⟩ | ⟨hi, -⟩ | hold
      · rw [← hp, IsDir, h.zero] at hparent
        cases hparent
      · exact absurd hi.symm hzero
      · rw [h.zero] at hold
        cases hold
  · rcases added_cases he with ⟨rfl, rfl⟩ | ⟨rfl, rfl⟩ | hold
    · show isdir e = true
      exact h.fits e _ hparent.eq
    · exact hfits
    · exact h.fits e node' hold
  · intro e entry hentry
    rcases (hmem e entry).mp hentry with hold | ⟨-, rfl⟩
    · exact h.valid e entry hold
    · exact ⟨hname, hlt⟩
  · intro e entry hentry
    rcases (hmem e entry).mp hentry with hold | ⟨-, rfl⟩
    · exact added_ne_none (Or.inl (h.live e entry hold))
    · exact added_ne_none (Or.inr rfl)
  · intro e
    rw [entries_added hfresh hnode, Function.update_apply]
    split_ifs
    · rw [List.map_append, List.nodup_append]
      refine ⟨h.nodup parent, List.nodup_singleton _, fun i hi j hj heq => ?_⟩
      obtain ⟨entry, hentry, rfl⟩ := List.mem_map.mp hi
      exact hunlisted parent entry hentry (heq.trans (List.mem_singleton.mp hj))
    · exact h.nodup e
  · intro e e' entry hentry entry' hentry' heq
    rcases (hmem e entry).mp hentry with hold | ⟨rfl, rfl⟩ <;>
      rcases (hmem e' entry').mp hentry' with hold' | ⟨rfl, rfl⟩
    · exact h.once e e' entry hold entry' hold' heq
    · exact absurd heq (hunlisted e entry hold)
    · exact absurd heq.symm (hunlisted e' entry' hold')
    · rfl
  · rcases added_cases he with ⟨rfl, -⟩ | ⟨rfl, -⟩ | hold
    · exact hpath e (h.path e _ hparent.eq)
    · have hnew : (⟨name, e⟩ : Dirent) ∈ (V.added e node parent name).entries parent :=
        (hmem _ _).mpr (Or.inr ⟨rfl, rfl⟩)
      exact Path.entry (hpath parent (h.path parent _ hparent.eq)) hnew
    · exact hpath e (h.path e node' hold)

end Create

/-! ### Nodes that are taken away -/

section Unlink

variable {parent : Inum} {name : Name} {entry : Dirent}

/-- The first element that is found is the only one with its value, and the others stay. -/
theorem mem_eraseP_iff {entries : List Dirent} {p : Dirent → Bool}
    (hnodup : (entries.map Dirent.inum).Nodup) (hfind : entries.find? p = some entry)
    {other : Dirent} :
    other ∈ entries.eraseP p ↔ other ∈ entries ∧ other.inum ≠ entry.inum := by
  obtain ⟨hp, before, after, rfl, hbefore⟩ := List.find?_eq_some_iff_append.mp hfind
  have herase : (before ++ entry :: after).eraseP p = before ++ after := by
    rw [List.eraseP_append_right _ fun e he => by simpa using hbefore e he,
      List.eraseP_cons_of_pos hp]
  have hmiddle := List.nodup_middle.mp (by rwa [List.map_append, List.map_cons] at hnodup)
  rw [← List.map_append, List.nodup_cons] at hmiddle
  rw [herase]
  constructor
  · intro hother
    refine ⟨?_, fun heq => hmiddle.1 (heq ▸ List.mem_map_of_mem hother)⟩
    rcases List.mem_append.mp hother with h | h
    · exact List.mem_append_left _ h
    · exact List.mem_append_right _ (List.mem_cons_of_mem _ h)
  · rintro ⟨hother, hne⟩
    rcases List.mem_append.mp hother with h | h
    · exact List.mem_append_left _ h
    · rcases List.mem_cons.mp h with rfl | h
      · exact absurd rfl hne
      · exact List.mem_append_right _ h

/-- A file is taken away, with its entry. -/
def removed (V : Volume) (parent : Inum) (name : Name) (entry : Dirent) : Volume :=
  Function.update (Function.update V parent
    (some (.dir ((V.entries parent).eraseP (Dirent.isFileNamed name))))) entry.inum none

/-- What `unlink` finds is a file, and no directory is that file. -/
theorem Tree.found (h : V.Tree)
    (hfind : (V.entries parent).find? (Dirent.isFileNamed name) = some entry) :
    entry ∈ V.entries parent ∧ V.IsFile entry.inum ∧ ∀ e, V.IsDir e → e ≠ entry.inum := by
  have hentry : entry ∈ V.entries parent := List.mem_of_find?_eq_some hfind
  have hnamed : entry.isFileNamed name = true := List.find?_some hfind
  have hfile : V.IsFile entry.inum := h.isFile_of_mem hentry (Bool.and_eq_true_iff.mp hnamed).2
  refine ⟨hentry, hfile, ?_⟩
  rintro e he rfl
  rw [IsDir, hfile] at he
  cases he

/-- The entries without that of the file. -/
theorem Tree.entries_removed (h : V.Tree)
    (hfind : (V.entries parent).find? (Dirent.isFileNamed name) = some entry) :
    (V.removed parent name entry).entries = Function.update V.entries parent
      ((V.entries parent).eraseP (Dirent.isFileNamed name)) := by
  obtain ⟨hentry, hfile, hdir⟩ := h.found hfind
  unfold Volume.removed
  rw [entries_update, entries_update]
  refine Function.update_eq_self_iff.mpr ?_
  rw [Function.update_of_ne (hdir parent (isDir_of_mem hentry)).symm, entries, hfile.eq]
  rfl

/-- The file is listed nowhere any more, and everything else is. -/
theorem Tree.mem_entries_removed (h : V.Tree)
    (hfind : (V.entries parent).find? (Dirent.isFileNamed name) = some entry) {other : Dirent} :
    other ∈ (V.removed parent name entry).entries d ↔
      other ∈ V.entries d ∧ other.inum ≠ entry.inum := by
  rw [h.entries_removed hfind, Function.update_apply]
  split_ifs with hd
  · subst hd
    exact mem_eraseP_iff (h.nodup d) hfind
  · refine ⟨fun hother => ⟨hother, fun heq => hd ?_⟩, fun hother => hother.1⟩
    exact h.once d parent other hother entry (h.found hfind).1 heq

/-- The node of a number. -/
theorem removed_cases {e : Inum} {node : Node} (h : V.removed parent name entry e = some node) :
    e ≠ entry.inum ∧
      ((e = parent ∧ node = .dir ((V.entries parent).eraseP (Dirent.isFileNamed name))) ∨
        V e = some node) := by
  unfold removed at h
  rw [Function.update_apply] at h
  split_ifs at h with hne
  rw [Function.update_apply] at h
  split_ifs at h with hparent
  · exact ⟨hne, Or.inl ⟨hparent, (Option.some.inj h).symm⟩⟩
  · exact ⟨hne, Or.inr h⟩

/-- What was there is there, but for the file. -/
theorem removed_ne_none {e : Inum} (h : V e ≠ none) (hne : e ≠ entry.inum) :
    V.removed parent name entry e ≠ none := by
  unfold removed
  rw [Function.update_of_ne hne, Function.update_apply]
  split_ifs
  · exact nofun
  · exact h

/-- A file is unlinked. -/
theorem Tree.removed (h : V.Tree)
    (hfind : (V.entries parent).find? (Dirent.isFileNamed name) = some entry) :
    (V.removed parent name entry).Tree := by
  obtain ⟨hentry, -, hdir⟩ := h.found hfind
  have hparent : V.IsDir parent := isDir_of_mem hentry
  have hmem : ∀ (e : Inum) (other : Dirent), other ∈ (V.removed parent name entry).entries e ↔
      other ∈ V.entries e ∧ other.inum ≠ entry.inum :=
    fun e other => h.mem_entries_removed hfind
  -- No path goes through a file.
  have hpath : ∀ e, V.Path e → e ≠ entry.inum → (V.removed parent name entry).Path e := by
    intro e he
    induction he with
    | root => exact fun _ => .root
    | @entry e other _ hother ih =>
      intro hne
      exact .entry (ih (hdir e (isDir_of_mem hother))) ((hmem e other).mpr ⟨hother, hne⟩)
  refine ⟨?_, ?_, fun e node he => ?_, ?_, ?_, ?_, ?_, fun e node he => ?_⟩
  · have hone : V.removed parent name entry 1 ≠ none :=
      removed_ne_none h.root.ne_none (hdir 1 h.root)
    refine h.root.of_cases hone fun node hnode => ?_
    rcases (removed_cases hnode).2 with ⟨-, rfl⟩ | hold
    · exact Or.inl rfl
    · exact Or.inr hold
  · cases hv : V.removed parent name entry 0 with
    | none => rfl
    | some node =>
      rcases (removed_cases hv).2 with ⟨hp, -⟩ | hold
      · rw [← hp, IsDir, h.zero] at hparent
        cases hparent
      · rw [h.zero] at hold
        cases hold
  · rcases (removed_cases he).2 with ⟨rfl, rfl⟩ | hold
    · show isdir e = true
      exact h.fits e _ hparent.eq
    · exact h.fits e node hold
  · exact fun e other hother => h.valid e other ((hmem e other).mp hother).1
  · intro e other hother
    obtain ⟨hold, hne⟩ := (hmem e other).mp hother
    exact removed_ne_none (h.live e other hold) hne
  · intro e
    rw [h.entries_removed hfind, Function.update_apply]
    split_ifs
    · exact (h.nodup parent).sublist (List.eraseP_sublist.map _)
    · exact h.nodup e
  · intro e e' other hother other' hother' heq
    exact h.once e e' other ((hmem e other).mp hother).1 other' ((hmem e' other').mp hother').1 heq
  · obtain ⟨hne, ⟨rfl, -⟩ | hold⟩ := removed_cases he
    · exact hpath e (h.path e _ hparent.eq) hne
    · exact hpath e (h.path e node hold) hne

end Unlink

/-! ### Requests keep the tree -/

/-- The root directory alone is a tree. -/
theorem tree_root : root.Tree := by
  have hentries : ∀ d, root.entries d = [] := by
    intro d
    unfold entries root
    split_ifs <;> rfl
  have hnode : ∀ d node, root d = some node → d = 1 ∧ node = .dir [] := by
    intro d node hd
    unfold root at hd
    split_ifs at hd with h1
    exact ⟨h1, (Option.some.inj hd).symm⟩
  refine ⟨rfl, rfl, fun d node hd => ?_, ?_, ?_, ?_, ?_, fun d node hd => ?_⟩
  · obtain ⟨rfl, rfl⟩ := hnode d node hd
    show isdir 1 = true
    decide
  · intro d entry hentry
    rw [hentries] at hentry
    cases hentry
  · intro d entry hentry
    rw [hentries] at hentry
    cases hentry
  · intro d
    rw [hentries]
    exact List.nodup_nil
  · intro d d' entry hentry
    rw [hentries] at hentry
    cases hentry
  · obtain ⟨rfl, -⟩ := hnode d node hd
    exact .root

/-- A create that is acceptable. -/
theorem Tree.create (h : V.Tree) {parent inum : Inum} {name : Name} {node : Node}
    {ofKind : Inum → Bool} (hparent : V.IsDir parent) (hname : ValidName name)
    (hfresh : V inum = none) (hzero : inum ≠ 0) (hlt : inum < 18446744073709551616)
    (hfits : node.Fits inum) (hnode : node.entries = []) :
    ∀ V' ∈ V.create ofKind inum node parent name, V'.Tree := by
  intro V' hV'
  unfold Volume.create at hV'
  split_ifs at hV'
  · cases hV'
  · obtain rfl := Option.some.inj hV'
    exact h.added hparent hname hfresh hzero hlt hfits hnode

/-- The new node. -/
theorem create_node {parent inum : Inum} {name : Name} {node : Node} {ofKind : Inum → Bool}
    {V' : Volume} (h : V.create ofKind inum node parent name = some V') (hne : inum ≠ parent) :
    V' inum = some node := by
  unfold Volume.create at h
  split_ifs at h
  rw [← Option.some.inj h, Function.update_of_ne hne, Function.update_self]

/-- A change that keeps the tree when it is made. -/
theorem Tree.changed (h : V.Tree) {result : Option Volume} (hresult : ∀ V' ∈ result, V'.Tree)
    (reply : Volume → Reply) (refused : Errno) : (V.changed result reply refused).2.Tree := by
  cases result with
  | none => exact h
  | some V' => exact hresult V' rfl

/-- An acceptable request keeps the tree. -/
theorem Tree.answer [Libfuse] (h : V.Tree) {r : Random} {req : Request}
    (hreq : V.Acceptable r req) : (V.answer r req).2.Tree := by
  have hcreate : ∀ parent name,
      V.IsDir parent ∧ ValidName name ∧ (V (fileNumber r)).isNone = true →
      ∀ V' ∈ V.create isfile (fileNumber r) (.file (.ofList [])) parent name, V'.Tree := by
    intro parent name hok
    have hzero : fileNumber r ≠ 0 := by
      intro hzero
      have hfile := isfile_fileNumber r
      rw [hzero] at hfile
      cases hfile
    exact h.create hok.1 hok.2.1 (Option.isNone_iff_eq_none.mp hok.2.2) hzero
      ((fileNumber_lt r).trans (by decide)) ⟨isfile_fileNumber r, by decide⟩ rfl
  cases req with
  | setattr ino st_size to_set =>
    rw [Volume.answer]
    split_ifs with hsize
    · exact h.setFile (hreq.2 hsize).1 (hreq.2 hsize).2
    · exact h
  | write ino buf size off =>
    refine h.setFile hreq.1 (max_lt (h.fits ino _ hreq.1.eq).2 ?_)
    rw [List.length_take_of_le hreq.2.1]
    exact hreq.2.2
  | create parent name => exact h.changed (hcreate parent name hreq) _ _
  | mknod parent name => exact h.changed (hcreate parent name hreq) _ _
  | mkdir parent name =>
    obtain ⟨hparent, hname, hfresh, hzero⟩ := hreq
    have hfits : (Node.dir []).Fits (directoryNumber r) := isdir_directoryNumber r
    exact h.changed (h.create hparent hname (Option.isNone_iff_eq_none.mp hfresh) hzero
      ((directoryNumber_lt r).trans (by decide)) hfits rfl) _ _
  | unlink parent name =>
    refine h.changed (fun V' hV' => ?_) _ _
    obtain ⟨entry, hfind, rfl⟩ := Option.map_eq_some_iff.mp hV'
    exact h.removed hfind
  | lookup parent name =>
    rw [Volume.answer]
    cases V.lookup parent name <;> exact h
  | getattr ino => exact h
  | read ino size off => exact h
  | readdir ino size off => exact h
  | opens ino => exact h
  | statfs => exact h

end Volume

end SimpleDfs.Yfs
