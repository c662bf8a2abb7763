import SimpleDfs.Yfs.System

/-!
# How the operations use locks and extents

What one thread has to know of another one in the middle of an operation. `View` is what an
operation knows from its own calls: the locks that it holds, the content of the directory that it
read under its lock, the number that it drew, the extent that it made, the entry that it took away.
The rules of `protocol` say what an operation may do with this: it accesses only the extent that it
was called for, under its lock; it makes an extent, without a lock, only for the number that it
drew; it writes back the directory that it read, with the entry of the extent that it made or
without an entry whose lock it holds; and it removes only an extent whose entry it took away. It
never ends its process. All operations keep to these rules (`keeps_program`).
-/

namespace SimpleDfs.Yfs

open Extent

/-- The numbers of the entries of a directory. -/
def inums (buf : Buf) : List Inum := (listed buf).map Dirent.inum

/-- The text of a directory, as the operations write it. -/
def IsText (buf : Buf) : Prop := ∃ entries, (∀ entry ∈ entries, entry.Valid) ∧
  buf = writeDirent entries

/-- The number whose entry is in the old text and not in the new one. -/
def unlisted (old buf : Buf) : Option Inum := (inums old).find? fun i => decide (i ∉ inums buf)

/-- What an operation knows from its own calls. -/
structure View where
  /-- The file or directory that the operation was called for. -/
  target : Inum
  /-- The number that the operation makes from what `random` returns. -/
  number : Random → Inum
  /-- The locks that it holds. -/
  locks : List Inum
  /-- The content of the target, which it read or wrote under the lock. -/
  read : Option Buf
  /-- The number that it drew. -/
  drawn : Option Inum
  /-- The extent that it made, which has no entry yet. -/
  stored : Option Inum
  /-- The number whose entry it took away, and whose lock it holds. -/
  dropped : Option Inum

/-- What an operation knows when it is called. -/
def View.start (op : Operation) : View := ⟨op.target, op.number, [], none, none, none, none⟩

/-- What an operation knows when it has read its target under the lock. -/
def View.reading (op : Operation) (buf : Buf) : View :=
  ⟨op.target, op.number, [op.target], some buf, none, none, none⟩

/-- The operation may write the text `buf` to its target, where it read the text `old`. -/
structure View.Rewrites (v : View) (old buf : Buf) : Prop where
  /-- It wrote a text. -/
  text : IsText buf
  /-- The directory is not an entry of itself. -/
  self : v.target ∉ inums buf
  /-- A new entry is for the extent that it made. -/
  entries : ∀ i ∈ inums buf, i ∈ inums old ∨ v.stored = some i
  /-- No number is there twice. -/
  nodup : (inums old).Nodup → (∀ i, v.stored = some i → i ∉ inums old) → (inums buf).Nodup
  /-- It holds the lock of the entry that it takes away. -/
  left : ∀ i ∈ inums old, i ∉ inums buf → i ∈ v.locks ∧ unlisted old buf = some i

/-- The calls that an operation may make. -/
def View.Allows (v : View) : Call → Prop
  | .acquire _ => True
  | .release lid => lid ∈ v.locks
  | .get eid => eid = v.target ∧ eid ∈ v.locks ∧ v.dropped = none
  | .getattr eid => eid = v.target ∧ eid ∈ v.locks
  | .put eid buf =>
    if eid = v.target then
      eid ∈ v.locks ∧ v.dropped = none ∧ ∃ old, v.read = some old ∧ v.Rewrites old buf
    else buf = [] ∧ v.drawn = some eid
  | .remove eid => v.dropped = some eid
  | .random => v.target ∈ v.locks
  | .crash => False

/-- The answers that an operation gets. -/
def View.Answers (v : View) : (q : Call) → Answer q → Prop
  | .get _, a => IsText a.2 ∧ v.target ∉ inums a.2 ∧ (inums a.2).Nodup
  | .random, r => v.number r ≠ v.target
  | .acquire _, _ | .release _, _ | .getattr _, _ | .put _ _, _ | .remove _, _ | .crash, _ => True

/-- What an operation knows after a call. -/
def View.after (v : View) : (q : Call) → Answer q → View
  | .acquire lid, _ => { v with locks := lid :: v.locks }
  | .release lid, _ =>
    { v with
      locks := v.locks.filter (· ≠ lid)
      read := if lid = v.target then none else v.read
      dropped := if v.dropped = some lid then none else v.dropped }
  | .get _, a => { v with read := some a.2 }
  | .getattr _, _ => v
  | .remove _, _ => { v with read := none }
  | .put eid buf, _ =>
    if eid = v.target then
      { v with read := some buf, stored := none, dropped := unlisted (v.read.getD []) buf }
    else { v with drawn := none, stored := some eid }
  | .random, r => { v with drawn := some (v.number r) }
  | .crash, _ => v

/-- The rules for the operations. -/
def protocol : Program.Protocol Call Answer View where
  allows := View.Allows
  answers := View.Answers
  after := View.after

/-! ## Texts -/

/-- The text of valid entries is read back. -/
theorem inums_writeDirent {entries : List Dirent} (h : ∀ entry ∈ entries, entry.Valid) :
    inums (writeDirent entries) = entries.map Dirent.inum := by
  rw [inums, listed, parsebuf_writeDirent h, Option.getD_some]

variable {buf : Buf} {entry : Dirent} {v : View} {p : Dirent → Bool}

/-- A text can be parsed. What is read from it is valid, and gives the text when it is written. -/
theorem IsText.listed (h : IsText buf) : parsebuf buf = some (listed buf) ∧
    (∀ entry ∈ listed buf, entry.Valid) ∧ writeDirent (listed buf) = buf := by
  obtain ⟨entries, hvalid, rfl⟩ := h
  rw [Yfs.listed, parsebuf_writeDirent hvalid, Option.getD_some]
  exact ⟨rfl, hvalid, rfl⟩

/-- The empty text. -/
theorem isText_nil : IsText [] := ⟨[], nofun, rfl⟩

/-- An entry is added to a text. -/
theorem IsText.concat (h : IsText buf) (hentry : entry.Valid) :
    IsText ((if (Yfs.listed buf).length ≠ 0 then buf ++ [elementSeperator] else buf) ++
        createBuffElement entry.inum entry.name) ∧
      inums ((if (Yfs.listed buf).length ≠ 0 then buf ++ [elementSeperator] else buf) ++
        createBuffElement entry.inum entry.name) = inums buf ++ [entry.inum] := by
  obtain ⟨-, hvalid, hbuf⟩ := h.listed
  have hwritten := writeDirent_concat (Yfs.listed buf) entry
  rw [hbuf] at hwritten
  have hall : ∀ e ∈ Yfs.listed buf ++ [entry], e.Valid := by
    intro e he
    rcases List.mem_append.mp he with hold | hnew
    · exact hvalid e hold
    · rw [List.mem_singleton.mp hnew]
      exact hentry
  rw [← hwritten]
  refine ⟨⟨_, hall, rfl⟩, ?_⟩
  rw [inums_writeDirent hall, List.map_append, List.map_singleton]
  rfl

/-- An entry is taken away from a text. -/
theorem IsText.eraseP (h : IsText buf) (p : Dirent → Bool) :
    IsText (writeDirent ((Yfs.listed buf).eraseP p)) ∧
      inums (writeDirent ((Yfs.listed buf).eraseP p)) =
        ((Yfs.listed buf).eraseP p).map Dirent.inum := by
  have hvalid : ∀ entry ∈ (Yfs.listed buf).eraseP p, entry.Valid :=
    fun entry hentry => h.listed.2.1 entry (List.mem_of_mem_eraseP hentry)
  exact ⟨⟨_, hvalid, rfl⟩, inums_writeDirent hvalid⟩

/-! ## The operations -/

/-- The new entry is written to the directory. -/
theorem View.rewrites_concat (hbuf : IsText buf) (hself : v.target ∉ inums buf) {inum : Inum}
    {name : Name} (hentry : (⟨name, inum⟩ : Dirent).Valid) (hstored : v.stored = some inum)
    (hne : inum ≠ v.target) :
    v.Rewrites buf ((if (listed buf).length ≠ 0 then buf ++ [elementSeperator] else buf) ++
      createBuffElement inum name) := by
  obtain ⟨htext, hinums⟩ := hbuf.concat hentry
  refine ⟨htext, ?_, fun i hi => ?_, fun hnodup hnew => ?_, fun i hi hleft => ?_⟩
  all_goals rw [hinums] at *
  · simp [hself, Ne.symm hne]
  · rcases List.mem_append.mp hi with hold | hnew
    · exact Or.inl hold
    · rw [List.mem_singleton.mp hnew]
      exact Or.inr hstored
  · refine List.nodup_append.mpr ⟨hnodup, List.nodup_singleton _, fun i hi j hj heq => ?_⟩
    rw [heq, List.mem_singleton.mp hj] at hi
    exact hnew inum hstored hi
  · exact absurd (List.mem_append_left _ hi) hleft

/-- No entry is taken away when one is added. -/
theorem unlisted_concat (hbuf : IsText buf) {inum : Inum} {name : Name}
    (hentry : (⟨name, inum⟩ : Dirent).Valid) :
    unlisted buf ((if (listed buf).length ≠ 0 then buf ++ [elementSeperator] else buf) ++
      createBuffElement inum name) = none := by
  obtain ⟨-, hinums⟩ := hbuf.concat hentry
  refine List.find?_eq_none.mpr fun i hi hnot => ?_
  rw [hinums] at hnot
  exact of_decide_eq_true hnot (List.mem_append_left _ hi)

/-- What is left when the entry that is found is erased. -/
theorem eraseP_of_find? {entries : List Dirent} (h : entries.find? p = some entry) :
    ∃ before after, entries = before ++ entry :: after ∧
      entries.eraseP p = before ++ after := by
  obtain ⟨hp, before, after, hsplit, hbefore⟩ := List.find?_eq_some_iff_append.mp h
  refine ⟨before, after, hsplit, ?_⟩
  rw [hsplit, List.eraseP_append_right, List.eraseP_cons_of_pos hp]
  intro e he
  simpa using hbefore e he

/-- The entry that is found is taken away from the directory. -/
theorem View.rewrites_eraseP (hbuf : IsText buf) (hself : v.target ∉ inums buf)
    (hentry : (listed buf).find? p = some entry) (hlock : entry.inum ∈ v.locks) :
    v.Rewrites buf (writeDirent ((listed buf).eraseP p)) := by
  obtain ⟨htext, hinums⟩ := hbuf.eraseP p
  have hsublist : (((listed buf).eraseP p).map Dirent.inum).Sublist (inums buf) :=
    List.eraseP_sublist.map Dirent.inum
  -- Every other entry stays.
  have hleft : ∀ i ∈ inums buf, i ∉ inums (writeDirent ((listed buf).eraseP p)) →
      i = entry.inum := by
    intro i hi hnot
    obtain ⟨before, after, hsplit, herase⟩ := eraseP_of_find? hentry
    rw [hinums, herase, List.map_append, List.mem_append, not_or] at hnot
    rw [inums, hsplit, List.map_append, List.map_cons, List.mem_append, List.mem_cons] at hi
    rcases hi with hi | hi | hi
    · exact absurd hi hnot.1
    · exact hi
    · exact absurd hi hnot.2
  refine ⟨htext, ?_, fun i hi => ?_, fun hnodup _ => ?_, fun i hi hnot => ?_⟩
  · rw [hinums]
    exact fun hmem => hself (hsublist.subset hmem)
  · rw [hinums] at hi
    exact Or.inl (hsublist.subset hi)
  · rw [hinums]
    exact hsublist.nodup hnodup
  · refine ⟨by rw [hleft i hi hnot]; exact hlock, ?_⟩
    have hsome : (unlisted buf (writeDirent ((listed buf).eraseP p))).isSome = true :=
      List.find?_isSome.mpr ⟨i, hi, decide_eq_true hnot⟩
    obtain ⟨j, hj⟩ := Option.isSome_iff_exists.mp hsome
    have hjnot : j ∉ inums (writeDirent ((listed buf).eraseP p)) := by
      simpa using List.find?_some hj
    rw [hj, hleft j (List.mem_of_find?_eq_some hj) hjnot, hleft i hi hnot]

/-- The number of the entry that is found is not listed any more. -/
theorem notMem_inums_eraseP (hbuf : IsText buf) (hnodup : (inums buf).Nodup)
    (hentry : (listed buf).find? p = some entry) :
    entry.inum ∈ inums buf ∧ entry.inum ∉ inums (writeDirent ((listed buf).eraseP p)) := by
  obtain ⟨-, hinums⟩ := hbuf.eraseP p
  obtain ⟨before, after, hsplit, herase⟩ := eraseP_of_find? hentry
  rw [hinums, herase]
  rw [inums, hsplit] at hnodup ⊢
  simp only [List.map_append, List.map_cons] at hnodup ⊢
  have hnotMem := (List.nodup_middle.mp hnodup).notMem
  exact ⟨List.mem_append_right _ List.mem_cons_self, hnotMem⟩

/-- The names of new files and directories can be read back. -/
def Operation.ValidName : Operation → Prop
  | createFile _ buf | createDirectory _ buf => Yfs.ValidName buf
  | _ => True

/-- A program keeps to the rules, and has given up the lock of every entry that it took away. -/
def Keeps {α : Type} (p : YfsM α) (v : View) : Prop :=
  p.Follows protocol (fun _ v' => v'.dropped = none) v

section Rules

variable {α : Type} {v : View} {lid eid : Inum} {k : YfsM α}

/-- The program returns. -/
theorem keeps_pure {a : α} (h : v.dropped = none) : Keeps (pure a) v := h

/-- The program acquires a lock. -/
theorem keeps_acquire (h : Keeps k { v with locks := lid :: v.locks }) :
    Keeps (do acquire lid; k) v := ⟨trivial, fun _ _ => h⟩

/-- The program releases a lock that it holds. -/
theorem keeps_release (hlid : lid ∈ v.locks) (h : Keeps k (v.after (.release lid) ())) :
    Keeps (do release lid; k) v := ⟨hlid, fun _ _ => h⟩

/-- The program reads its target under the lock. -/
theorem keeps_get {k : Extent.Status × Buf → YfsM α} (heid : eid = v.target) (hlock : eid ∈ v.locks)
    (hdropped : v.dropped = none)
    (h : ∀ a : Extent.Status × Buf, IsText a.2 → v.target ∉ inums a.2 → (inums a.2).Nodup →
      Keeps (k a) { v with read := some a.2 }) : Keeps (do let a ← get eid; k a) v :=
  ⟨⟨heid, hlock, hdropped⟩, fun a ha => h a ha.1 ha.2.1 ha.2.2⟩

/-- The program reads the attributes of its target under the lock. -/
theorem keeps_getattr {k : Extent.Status × Attr → YfsM α} (heid : eid = v.target)
    (hlock : eid ∈ v.locks) (h : ∀ a, Keeps (k a) v) : Keeps (do let a ← getattr eid; k a) v :=
  ⟨⟨heid, hlock⟩, fun a _ => h a⟩

/-- The program parses a text. -/
theorem keeps_parse {buf : Buf} {k : List Dirent → YfsM α} (hbuf : IsText buf)
    (h : Keeps (k (listed buf)) v) : Keeps (do let contents ← parse buf; k contents) v := by
  rw [parse_eq_done hbuf.listed.1]
  exact h

/-- The program draws a number. -/
theorem keeps_random {k : Random → YfsM α} (hlock : v.target ∈ v.locks)
    (h : ∀ r, v.number r ≠ v.target → Keeps (k r) { v with drawn := some (v.number r) }) :
    Keeps (do let r ← random; k r) v := ⟨hlock, h⟩

/-- The program makes the extent of the number that it drew. -/
theorem keeps_create (hne : eid ≠ v.target) (hdrawn : v.drawn = some eid)
    (h : Keeps k { v with drawn := none, stored := some eid }) : Keeps (do put eid []; k) v := by
  refine ⟨?_, fun _ _ => ?_⟩
  · change if eid = v.target then _ else _
    rw [if_neg hne]
    exact ⟨rfl, hdrawn⟩
  · change Keeps k (if eid = v.target then _ else _)
    rw [if_neg hne]
    exact h

/-- The program writes the directory that it read. -/
theorem keeps_put {buf old : Buf} (hlock : v.target ∈ v.locks) (hdropped : v.dropped = none)
    (hread : v.read = some old) (hrewrites : v.Rewrites old buf)
    (h : Keeps k { v with read := some buf, stored := none, dropped := unlisted old buf }) :
    Keeps (do put v.target buf; k) v := by
  refine ⟨?_, fun _ _ => ?_⟩
  · change if v.target = v.target then _ else _
    rw [if_pos rfl]
    exact ⟨hlock, hdropped, old, hread, hrewrites⟩
  · change Keeps k (if v.target = v.target then _ else _)
    rw [if_pos rfl, hread]
    exact h

/-- The program removes the extent whose entry it took away. -/
theorem keeps_remove (hdropped : v.dropped = some eid) (h : Keeps k { v with read := none }) :
    Keeps (do remove eid; k) v := ⟨hdropped, fun _ _ => h⟩

end Rules

/-- `createFile` and `createDirectory`, from where the directory was read. -/
theorem keeps_enter {buf : Name} {parent_buf : Buf} (hname : ValidName buf)
    (hnumber : ∀ r, v.number r < 18446744073709551616) (hlocks : v.locks = [v.target])
    (hread : v.read = some parent_buf) (htext : IsText parent_buf)
    (hself : v.target ∉ inums parent_buf) (hdropped : v.dropped = none) (ofKind : Inum → Bool) :
    Keeps (enter ofKind v.number v.target buf parent_buf) v := by
  have hlock : v.target ∈ v.locks := by simp [hlocks]
  unfold enter
  refine keeps_parse htext ?_
  dsimp only
  by_cases hclash : (listed parent_buf).any fun entry =>
      entry.name == cString buf && ofKind entry.inum
  · rw [if_pos hclash]
    apply keeps_release hlock
    apply keeps_pure
    simp [View.after, hdropped]
  · rw [if_neg hclash]
    refine keeps_random hlock fun r hne => ?_
    have hentry : (⟨buf, v.number r⟩ : Dirent).Valid := ⟨hname, hnumber r⟩
    have hrewrites := View.rewrites_concat
      (v := { v with drawn := none, stored := some (v.number r) })
      htext hself hentry rfl hne
    refine keeps_create hne rfl ?_
    refine keeps_put hlock hdropped hread hrewrites ?_
    refine keeps_release hlock ?_
    refine keeps_pure ?_
    simp only [View.after, unlisted_concat htext hentry, reduceCtorEq, if_false]

/-- `unlinkFile`, from where the directory was read. -/
theorem keeps_leave {buf : Name} {parent_buf : Buf} (hlocks : v.locks = [v.target])
    (hread : v.read = some parent_buf) (htext : IsText parent_buf)
    (hself : v.target ∉ inums parent_buf) (hnodup : (inums parent_buf).Nodup)
    (hdropped : v.dropped = none) : Keeps (leave v.target buf parent_buf) v := by
  have hlock : v.target ∈ v.locks := by simp [hlocks]
  unfold leave
  refine keeps_parse htext ?_
  cases hfind : (listed parent_buf).find? (Dirent.isFileNamed buf) with
  | none =>
    refine keeps_release hlock ?_
    refine keeps_pure ?_
    simp [View.after, hdropped]
  | some entry =>
    obtain ⟨hlisted, hnot⟩ := notMem_inums_eraseP htext hnodup hfind
    have hrewrites := View.rewrites_eraseP (v := { v with locks := entry.inum :: v.locks })
      htext hself hfind List.mem_cons_self
    have hunlisted := (hrewrites.left _ hlisted hnot).2
    refine keeps_acquire ?_
    refine keeps_put (List.mem_cons_of_mem _ hlock) hdropped hread hrewrites ?_
    refine keeps_remove hunlisted ?_
    refine keeps_release List.mem_cons_self ?_
    have hne : v.target ≠ entry.inum := fun heq => hself (heq ▸ hlisted)
    refine keeps_release (List.mem_filter.mpr ⟨List.mem_cons_of_mem _ hlock, by simpa using hne⟩) ?_
    refine keeps_pure ?_
    simp [View.after, hunlisted]

/-- An operation that acquires the lock of its target and reads it. -/
theorem keeps_read {α : Type} {op : Operation} {k : Extent.Status × Buf → YfsM α}
    (h : ∀ ret buf, IsText buf → op.target ∉ inums buf → (inums buf).Nodup →
      Keeps (k (ret, buf)) (.reading op buf)) :
    Keeps (do acquire op.target; let a ← get op.target; k a) (.start op) :=
  keeps_acquire (keeps_get rfl List.mem_cons_self rfl fun a => h a.1 a.2)

/-- The operation releases the lock of its target, and returns. -/
theorem keeps_return {α : Type} {op : Operation} {a : α} :
    Keeps (do release op.target; pure a) (.reading op buf) :=
  keeps_release List.mem_cons_self (keeps_pure rfl)

/-- The operation only reads the attributes of its target. -/
theorem keeps_getinfo (op : Operation) : Keeps (getinfo op.target) (.start op) := by
  refine keeps_acquire ?_
  refine keeps_getattr rfl List.mem_cons_self fun a => ?_
  exact keeps_release List.mem_cons_self (keeps_pure rfl)

/-- A program whose result is not used. -/
theorem Keeps.bind_pure {α β : Type} {p : YfsM α} (h : Keeps p v) (f : α → β) :
    Keeps (do let a ← p; pure (f a)) v := (Program.follows_bind p _ v).mpr h

/-- The numbers of new files and directories have 64 bits. -/
theorem Operation.number_lt (op : Operation) (r : Random) : op.number r < 18446744073709551616 := by
  have hfile : fileNumber r < 18446744073709551616 := lt_trans (fileNumber_lt r) (by decide)
  have hdirectory : directoryNumber r < 18446744073709551616 :=
    lt_trans (directoryNumber_lt r) (by decide)
  cases op with
  | createFile parent buf => exact hfile
  | _ => exact hdirectory

/-- All operations keep to the rules. -/
theorem keeps_program (op : Operation) (hname : op.ValidName) : Keeps op.program (.start op) := by
  have hnumber := op.number_lt
  cases op with
  | createFile parent buf =>
    refine Keeps.bind_pure (keeps_read fun ret parent_buf htext hself _ => ?_) _
    by_cases hret : ret ≠ .OK
    · dsimp only
      rw [if_pos hret]
      exact keeps_pure rfl
    · dsimp only
      rw [if_neg hret]
      exact keeps_enter (v := .reading (.createFile parent buf) parent_buf) hname hnumber rfl rfl
        htext hself rfl isfile
  | createDirectory parent buf =>
    refine Keeps.bind_pure (keeps_read fun ret parent_buf htext hself _ => ?_) _
    by_cases hret : ret ≠ .OK
    · dsimp only
      rw [if_pos hret]
      exact keeps_return
    · dsimp only
      rw [if_neg hret]
      exact keeps_enter (v := .reading (.createDirectory parent buf) parent_buf) hname hnumber rfl
        rfl htext hself rfl isdir
  | unlinkFile parent buf =>
    refine Keeps.bind_pure (keeps_read fun ret parent_buf htext hself hnodup => ?_) _
    by_cases hret : ret ≠ .OK
    · dsimp only
      rw [if_pos hret]
      exact keeps_return
    · dsimp only
      rw [if_neg hret]
      exact keeps_leave (v := .reading (.unlinkFile parent buf) parent_buf) rfl rfl htext hself
        hnodup rfl
  | lookupResource parent buf =>
    refine Keeps.bind_pure (keeps_read fun ret parent_buf htext _ _ => ?_) _
    by_cases hret : ret ≠ .OK
    · dsimp only
      rw [if_pos hret]
      exact keeps_return
    · dsimp only
      rw [if_neg hret]
      exact keeps_parse htext keeps_return
  | getDirContents inum =>
    exact Keeps.bind_pure (keeps_read fun ret buf _ _ _ => keeps_return) _
  | readFile inum size off =>
    refine Keeps.bind_pure (keeps_read fun ret buf _ _ _ => ?_) _
    refine keeps_release List.mem_cons_self ?_
    split_ifs <;> exact keeps_pure rfl
  | getfile inum => exact ((keeps_getinfo (.getfile inum)).bind_pure _).bind_pure _
  | getdir inum => exact ((keeps_getinfo (.getdir inum)).bind_pure _).bind_pure _

end SimpleDfs.Yfs
