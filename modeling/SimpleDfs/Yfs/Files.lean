import SimpleDfs.Yfs.Creation

/-!
# The content of a file

A file is an array of bytes that is filled up with zeros (`Padded`). `writeFile` writes into the
array and `setAttr` sets its length, and `getfile` returns the length: what clients do one after the
other with a file, and what they get, is what happens to the array (`file_refines_bytes`). The size
that `setAttr` compares and `getfile` returns is not that of the content but an attribute that is
kept with it, so that the sizes of all copies have to be right as well (`World.Measured`).

The file may be one that clients find at the server, or one that a client has created
(`keeps_created`). The latter can be used by that client only, until it has had the lock once.

A read that starts behind the end of a file fails. So a file that is read in parts is returned
without an error exactly when no part starts behind the end (`reads_iff`).
-/

namespace SimpleDfs.Yfs

open Extent

namespace World

/-- What can happen from the start of the clients on, with a server that has been used before. -/
inductive Reached : World → Prop
  /-- The clients have just started. -/
  | start {server : ExtentServer} (h : server.Reached) : Reached (.start server)
  /-- A client makes a call. -/
  | call {w w' : World} (h : Reached w) {c : ℕ} {now : UInt32} {r : Random} {q : Call}
    {a : Answer q} (hcall : World.call c now r q w = some (a, w')) : Reached w'

/-- The sizes are right. -/
theorem Reached.measured {w : World} (h : w.Reached) : w.Measured := by
  induction h with
  | start hserver => exact fun c => ⟨nofun, hserver.size_eq⟩
  | call _ hcall ih => exact ih.call hcall

/-- What an operation does can happen. -/
theorem Reached.exec {w w' : World} (h : w.Reached) {c : ℕ} {now : UInt32} {r : Random} {α : Type}
    {p : YfsM α} {a : α} (hexec : p.exec (World.call c now r) w = some (a, w')) : w'.Reached :=
  Program.exec_preserves (fun _ _ _ _ hw hcall => hw.call hcall) hexec h

/-! ## Files that were created -/

variable {w w' : World} {c : ℕ}

/-- A client puts an extent that nobody has used. -/
theorem keeps_put {eid : Inum} (howner : w.owner eid = none)
    (hcopies : ∀ c', (w.clients c').extent_list eid = none) (c : ℕ) (now : UInt32) (buf : Buf) :
    (w.setSession c ((w.session c).access now (.put buf) eid).1).Keeps c eid buf := by
  obtain ⟨hclient, -, -⟩ := access_found (w.session c) now (.put buf) eid
  have hself : ((w.session c).access now (.put buf) eid).1.client.extent_list eid =
      some ((Op.put buf).apply now (found (w.session c) now eid).2.2) := by
    rw [hclient]
    exact Function.update_self _ _ _
  have hcopy : ∀ c' extent, (Function.update w.clients c
      ((w.session c).access now (.put buf) eid).1.client c').extent_list eid = some extent →
      c' = c ∧ extent = (Op.put buf).apply now (found (w.session c) now eid).2.2 := by
    intro c' extent hc
    by_cases hc' : c' = c
    · rw [hc', Function.update_self, hself] at hc
      exact ⟨hc', (Option.some.inj hc).symm⟩
    · rw [Function.update_of_ne hc', hcopies c'] at hc
      cases hc
  refine ⟨fun c' extent hc => Or.inr ⟨howner, (hcopy c' extent hc).1⟩, fun c' extent hc => ?_, ?_⟩
  · rw [(hcopy c' extent hc).2]
    rfl
  · -- The new copy was written.
    intro hclean
    have hnew : (Function.update w.clients c
        ((w.session c).access now (.put buf) eid).1.client c).extent_list eid =
          some ((Op.put buf).apply now (found (w.session c) now eid).2.2) := by
      rw [Function.update_self]
      exact hself
    cases hclean c _ hnew

end World

/-- The calls of a create when `random` returns `r`: it puts an empty extent with the number `inum`
once, and else works on other extents. It knows whether it has put the extent. -/
def newProtocol (r : Random) (inum : Inum) : Program.Protocol Call Answer Bool where
  allows known q := q.extent ≠ some inum ∨ known = false ∧ q = .put inum []
  answers _ q a := Draws r q a
  after known q _ := known || decide (q = .put inum [])

/-- `createFile` puts the new extent once. -/
theorem createFile_puts (r : Random) {d : Inum} (hd : d ≠ fileNumber r) (name : Name) :
    (createFile d name).Follows (newProtocol r (fileNumber r))
      (fun result known => result.1 = .OK → known = true) false := by
  have hparent : some d ≠ some (fileNumber r) := fun h => hd (Option.some.inj h)
  have hnone : none ≠ some (fileNumber r) := nofun
  refine ⟨Or.inl hparent, fun _ _ => ⟨Or.inl hparent, fun a _ => ?_⟩⟩
  change Program.Follows _ _ (if a.1 ≠ .OK then pure (.NOENT, none) else
    enter isfile fileNumber d name a.2) _
  split_ifs
  · exact nofun
  · refine follows_parse (fun contents _ => ?_) fun _ => Or.inl hnone
    dsimp only
    split_ifs
    · exact ⟨Or.inl hnone, nofun⟩
    all_goals
      refine ⟨Or.inl hnone, fun r' hr' => ?_⟩
      obtain rfl : r' = r := hr'
      exact ⟨Or.inr ⟨by simp [newProtocol], rfl⟩, fun _ _ => ⟨Or.inl hparent, fun _ _ =>
        ⟨Or.inl hnone, fun _ _ _ => by simp [newProtocol]⟩⟩⟩

/-- A file that was created with a number that nobody had used is empty, for the client that has
created it. -/
theorem keeps_created {w w' : World} {c : ℕ} {now : UInt32} {r : Random} {d : Inum} {name : Name}
    {inum : Option Inum}
    (hexec : (createFile d name).exec (World.call c now r) w = some ((.OK, inum), w'))
    (hd : d ≠ fileNumber r) (howner : w.owner (fileNumber r) = none)
    (hcopies : ∀ c', (w.clients c').extent_list (fileNumber r) = none) :
    w'.Keeps c (fileNumber r) [] := by
  have hcalls : ∀ (known : Bool) w₁ (q : Call) a w₂,
      (if known then w₁.Keeps c (fileNumber r) [] else w₁.owner (fileNumber r) = none ∧
        ∀ c', (w₁.clients c').extent_list (fileNumber r) = none) →
      (newProtocol r (fileNumber r)).allows known q → World.call c now r q w₁ = some (a, w₂) →
      Draws r q a ∧ if (newProtocol r (fileNumber r)).after known q a then
        w₂.Keeps c (fileNumber r) [] else w₂.owner (fileNumber r) = none ∧
        ∀ c', (w₂.clients c').extent_list (fileNumber r) = none := by
    intro known w₁ q a w₂ hw₁ hallowed hcall
    refine ⟨World.draws_call hcall, ?_⟩
    -- A call for another extent changes nothing here, and the put makes the extent.
    rcases hallowed with hother | ⟨rfl, rfl⟩
    · have hframe := World.frame_call hcall hother
      have hq : q ≠ .put (fileNumber r) [] := by
        rintro rfl
        exact hother rfl
      have hknown : (newProtocol r (fileNumber r)).after known q a = known := by
        simp [newProtocol, hq]
      rw [hknown]
      cases known with
      | true => exact World.Keeps.frame hw₁ hframe
      | false => exact ⟨hframe.owner.trans hw₁.1, fun c' => (hframe.copy c').trans (hw₁.2 c')⟩
    · obtain ⟨-, rfl⟩ := Prod.mk.inj (Option.some.inj hcall)
      have hknown : (newProtocol r (fileNumber r)).after false (.put (fileNumber r) []) a = true :=
        by simp [newProtocol]
      rw [if_pos hknown]
      exact World.keeps_put hw₁.1 hw₁.2 c now []
  obtain ⟨known, hpost, hw'⟩ := (createFile_puts r hd name).exec
    (I := fun known w₁ => if known then w₁.Keeps c (fileNumber r) [] else
      w₁.owner (fileNumber r) = none ∧
        ∀ c', (w₁.clients c').extent_list (fileNumber r) = none) hcalls ⟨howner, hcopies⟩ hexec
  rwa [hpost rfl] at hw'

/-! ## The operations -/

section Operations

variable {w : World} {c : ℕ} {d : Inum} {b : Buf} (now : UInt32) (r : Random)

/-- `writeFile`, when `std::string` does not throw. -/
theorem World.Keeps.writeFile (h : w.Keeps c d b) (hd : d ∉ w.held) {buf : List Char}
    {size off : UInt64} {b' : Buf} (hb' : overwritten b buf size off = some b') :
    ∃ w', (writeFile d buf size off).exec (World.call c now r) w = some (some .OK, w') ∧
      w'.held = w.held ∧ w'.Stores d b' := by
  obtain ⟨w₁, hexec₁, hheld₁, howner₁, hstores₁⟩ := World.locked_exec c now r h hd _
  obtain ⟨w₂, hexec₂, hheld₂, hstores₂⟩ :=
    World.put_release_exec c now r hstores₁ howner₁ b' (some Status.OK)
  refine ⟨w₂, hexec₁.trans ?_, ?_, hstores₂⟩
  · dsimp only
    rw [if_pos rfl, hb']
    exact hexec₂
  · rw [hheld₂, hheld₁, List.erase_cons_head]

/-- `setAttr`. -/
theorem World.Keeps.setAttr (h : w.Keeps c d b) (hd : d ∉ w.held) (hmeasured : w.Measured)
    (hb : b.length < 4294967296) {file_info : FileInfo} (hsize : file_info.size < 4294967296) :
    ∃ w', (setAttr d file_info).exec (World.call c now r) w = some (some .OK, w') ∧
      w'.held = w.held ∧ w'.Stores d (Padded.resized '\x00' file_info.size b) := by
  obtain ⟨attr, w₁, hexec₁, hattr, hheld₁, howner₁, hstores₁⟩ :=
    World.locked_getattr_exec now r h hd hmeasured _
  have hlength : attr.size.toNat = b.length := by rw [hattr, ExtentServer.toNat_size hb]
  rw [show (Yfs.setAttr d file_info).exec (World.call c now r) w = _ from hexec₁]
  dsimp only
  rw [if_pos rfl]
  -- The attribute is compared, so it has to be the length of the content.
  by_cases hsame : attr.size.toNat = file_info.size
  · obtain ⟨w₂, hrelease, hheld₂, -, hkeep₂⟩ := World.call_release (w := w₁) c now r d
    have hresized : Padded.resized '\x00' file_info.size b = b := by
      rw [Padded.resized, List.take_of_length_le (by omega), show file_info.size - b.length = 0 by
        omega, List.replicate_zero, List.append_nil]
    rw [if_pos hsame, hresized]
    refine ⟨w₂, Program.exec_call hrelease, ?_, hkeep₂ d b hstores₁⟩
    rw [hheld₂, hheld₁, List.erase_cons_head]
  · obtain ⟨w₂, hget, hheld₂, howner₂, hstores₂⟩ := World.call_get c now r hstores₁ howner₁
    obtain ⟨w₃, hexec₃, hheld₃, hstores₃⟩ := World.put_release_exec c now r hstores₂
      (howner₂ ▸ howner₁) (Padded.resized '\x00' file_info.size b) (some Status.OK)
    have hresize : resize b file_info.size = some (Padded.resized '\x00' file_info.size b) :=
      if_pos (by unfold maxString; omega)
    rw [if_neg hsame]
    refine ⟨w₃, (Program.exec_call hget).trans ?_, ?_, hstores₃⟩
    · dsimp only [Program.bind]
      rw [hresize]
      exact hexec₃
    · rw [hheld₃, hheld₂, hheld₁, List.erase_cons_head]

/-- `getfile`. -/
theorem World.Keeps.getfile (h : w.Keeps c d b) (hd : d ∉ w.held) (hmeasured : w.Measured)
    (hb : b.length < 4294967296) :
    ∃ info w', (getfile d).exec (World.call c now r) w = some ((.OK, some info), w') ∧
      info.size = b.length ∧ w'.held = w.held ∧ w'.Stores d b := by
  obtain ⟨attr, w₁, hexec₁, hattr, hheld₁, -, hstores₁⟩ :=
    World.locked_getattr_exec now r h hd hmeasured _
  obtain ⟨w₂, hrelease, hheld₂, -, hkeep₂⟩ := World.call_release (w := w₁) c now r d
  refine ⟨⟨attr.size.toNat, attr.atime.toNat, attr.mtime.toNat, attr.ctime.toNat⟩, w₂,
    hexec₁.trans (Program.exec_call hrelease), ?_, ?_, hkeep₂ d b hstores₁⟩
  · show attr.size.toNat = b.length
    rw [hattr, ExtentServer.toNat_size hb]
  · rw [hheld₂, hheld₁, List.erase_cons_head]

/-- The bytes from `off` on, at most `size` of them. -/
def window (b : Buf) (off size : ℕ) : Buf := b.extract off (min (off + size) b.length)

/-- The bytes are those that `substr` takes. -/
theorem window_eq (b : Buf) (off size : ℕ) : window b off size = (b.drop off).take size := by
  rw [window, List.extract_eq_take_drop, List.take_eq_take_iff, List.length_drop]
  omega

/-- What `readFile` returns: an error when the first byte is behind the end. -/
def readResult (b : Buf) (off size : ℕ) : Status × Buf :=
  if off ≤ b.length then (.OK, window b off size) else (.IOERR, [])

/-- The read succeeds. -/
theorem readResult_ok_iff {b : Buf} {off size : ℕ} :
    (readResult b off size).1 = .OK ↔ off ≤ b.length := by
  unfold readResult
  split_ifs with hoff <;> simp [hoff]

/-- The bytes that are read are right also when the read fails, since there are none then. -/
theorem readResult_snd (b : Buf) (off size : ℕ) :
    (readResult b off size).2 = window b off size := by
  unfold readResult
  split_ifs with hoff
  · rfl
  · rw [window_eq, List.drop_eq_nil_of_le (by omega), List.take_nil]

/-- `readFile`. -/
theorem World.Keeps.readFile (h : w.Keeps c d b) (hd : d ∉ w.held) (size off : UInt64) :
    ∃ w', (readFile d size off).exec (World.call c now r) w =
        some (readResult b off.toNat size.toNat, w') ∧
      w'.held = w.held ∧ w'.Stores d b := by
  obtain ⟨w₁, hexec₁, hheld₁, -, hstores₁⟩ := World.locked_exec c now r h hd _
  obtain ⟨w₂, hrelease, hheld₂, -, hkeep₂⟩ := World.call_release (w := w₁) c now r d
  refine ⟨w₂, hexec₁.trans ((Program.exec_call hrelease).trans ?_), ?_, hkeep₂ d b hstores₁⟩
  · show (if off.toNat > b.length then pure (.IOERR, []) else
      pure (.OK, (b.drop off.toNat).take size.toNat) : YfsM (Status × Buf)).exec _ w₂ = _
    unfold readResult
    by_cases hoff : off.toNat ≤ b.length
    · rw [if_neg (by omega), if_pos hoff, window_eq]
      rfl
    · rw [if_pos (by omega), if_neg hoff]
      rfl
  · rw [hheld₂, hheld₁, List.erase_cons_head]

end Operations

/-! ## A file as an array of bytes -/

/-- The bytes of a file. -/
abbrev Bytes := Padded Char '\x00'

/-- An operation on a file. -/
inductive FileOp where
  /-- `yfs_client::writeFile`. -/
  | writeFile (buf : List Char) (size off : UInt64)
  /-- `yfs_client::setAttr`. -/
  | setAttr (file_info : FileInfo)
  /-- `yfs_client::getfile`. -/
  | getfile
  deriving DecidableEq, Repr

/-- What an operation on a file returns. -/
inductive FileResult where
  /-- The status. -/
  | status (ret : Status)
  /-- The status and the size. -/
  | size (ret : Status) (size : Option ℕ)
  deriving DecidableEq, Repr

namespace FileOp

/-- The operation, on the file `d`. The result is `none` when an exception ends the process. -/
def program (d : Inum) : FileOp → YfsM (Option FileResult)
  | writeFile buf size off => do
    let ret ← Yfs.writeFile d buf size off
    return ret.map .status
  | setAttr file_info => do
    let ret ← Yfs.setAttr d file_info
    return ret.map .status
  | getfile => do
    let (ret, info) ← Yfs.getfile d
    return some (.size ret (info.map FileInfo.size))

/-- The operation on the bytes. -/
def onBytes : FileOp → Bytes → FileResult × Bytes
  | writeFile buf size off, a => (.status .OK, a.write off.toNat (buf.take size.toNat))
  | setAttr file_info, a => (.status .OK, a.setLength file_info.size)
  | getfile, a => (.size .OK (some a.length), a)

/-- The buffer has the bytes that are written, and the operation does not make a file of 4 GiB. -/
def Short : FileOp → Prop
  | writeFile buf size off => size.toNat ≤ buf.length ∧ off.toNat + size.toNat < 4294967296
  | setAttr file_info => file_info.size < 4294967296
  | getfile => True

instance : DecidablePred Short
  | writeFile buf size off =>
    inferInstanceAs (Decidable (size.toNat ≤ buf.length ∧ off.toNat + size.toNat < 4294967296))
  | setAttr file_info => inferInstanceAs (Decidable (file_info.size < 4294967296))
  | getfile => inferInstanceAs (Decidable True)

/-- A short file stays short. -/
theorem length_onBytes_lt {op : FileOp} (hop : op.Short) {a : Bytes}
    (ha : a.length < 4294967296) : (op.onBytes a).2.length < 4294967296 := by
  cases op with
  | writeFile buf size off =>
    have hlength : (buf.take size.toNat).length = size.toNat := List.length_take_of_le hop.1
    show max a.length (off.toNat + (buf.take size.toNat).length) < 4294967296
    rw [hlength]
    exact max_lt ha hop.2
  | setAttr file_info => exact hop
  | getfile => exact ha

end FileOp

/-- The content that `writeFile` puts is that of the array that is written to. -/
theorem overwritten_eq (b : Buf) {buf : List Char} {size off : UInt64}
    (hbuf : size.toNat ≤ buf.length) (hshort : off.toNat + size.toNat < 4294967296) :
    ∃ b', overwritten b buf size off = some b' ∧
      (Padded.ofList b' : Bytes) = (Padded.ofList b).write off.toNat (buf.take size.toNat) := by
  have hsum : (off + size).toNat = off.toNat + size.toNat := by
    rw [UInt64.toNat_add]
    exact Nat.mod_eq_of_lt (by omega)
  have hlength : (buf.take size.toNat).length = size.toNat := List.length_take_of_le hbuf
  -- Into a content that is long enough the bytes are written in place.
  have hreplace : ∀ val : Buf, off.toNat + size.toNat ≤ val.length →
      ∃ b', replace val off.toNat size.toNat buf = some b' ∧
        (Padded.ofList b' : Bytes) = (Padded.ofList val).write off.toNat (buf.take size.toNat) := by
    intro val hval
    refine ⟨_, if_pos (by omega), ?_⟩
    rw [← Padded.ofList_replaced (by omega), hlength]
  unfold overwritten
  rw [hsum]
  by_cases hlong : off.toNat + size.toNat > b.length
  · have hresize : resize b (off.toNat + size.toNat) =
        some (Padded.resized '\x00' (off.toNat + size.toNat) b) :=
      if_pos (by unfold maxString; omega)
    obtain ⟨b', hb', hbytes⟩ := hreplace (Padded.resized '\x00' (off.toNat + size.toNat) b)
      (Padded.length_resized _ _).ge
    refine ⟨b', ?_, ?_⟩
    · rw [if_pos hlong, hresize]
      exact hb'
    · rw [hbytes, Padded.ofList_resized]
      nth_rewrite 1 [← hlength]
      exact Padded.write_setLength _ (by rw [hlength]; exact hlong.le)
  · rw [if_neg hlong]
    exact hreplace b (by omega)

/-- An operation on a file that a client calls. -/
structure FileCall where
  /-- The client. -/
  client : ℕ
  /-- The time. -/
  now : UInt32
  /-- What `random` would return. -/
  random : Random
  /-- The operation. -/
  op : FileOp
  deriving DecidableEq, Repr

/-- Some operations are run on the file `d`, one after the other, with what they return. -/
def runFile (d : Inum) : World → List FileCall → Option (List FileResult × World)
  | w, [] => some ([], w)
  | w, call :: calls =>
    ((call.op.program d).exec (World.call call.client call.now call.random) w).bind fun first =>
      first.1.bind fun result =>
        (runFile d first.2 calls).map fun rest => (result :: rest.1, rest.2)

/-- Some operations on the bytes, one after the other. -/
def Bytes.run : Bytes → List FileOp → List FileResult × Bytes
  | a, [] => ([], a)
  | a, op :: ops =>
    let first := op.onBytes a
    let rest := run first.2 ops
    (first.1 :: rest.1, rest.2)

section Refinement

variable {w : World} {d : Inum} {b : Buf}

/-- One operation does to the file what it does to the bytes, and then every client can use the
file. -/
theorem World.Keeps.run {call : FileCall} (h : w.Keeps call.client d b) (hd : d ∉ w.held)
    (hw : w.Reached) (hb : b.length < 4294967296) (hshort : call.op.Short) :
    ∃ w' b', (call.op.program d).exec (World.call call.client call.now call.random) w =
        some (some (call.op.onBytes (.ofList b)).1, w') ∧
      w'.held = w.held ∧ w'.Stores d b' ∧ .ofList b' = (call.op.onBytes (.ofList b)).2 := by
  obtain ⟨c, now, r, op⟩ := call
  cases op with
  | writeFile buf size off =>
    obtain ⟨b', hb', hbytes⟩ := overwritten_eq b hshort.1 hshort.2
    obtain ⟨w', hexec, hheld, hstores⟩ := h.writeFile now r hd hb'
    refine ⟨w', b', ?_, hheld, hstores, hbytes⟩
    rw [FileOp.program, Program.exec_bind, hexec]
    rfl
  | setAttr file_info =>
    obtain ⟨w', hexec, hheld, hstores⟩ := h.setAttr now r hd hw.measured hb hshort
    refine ⟨w', _, ?_, hheld, hstores, Padded.ofList_resized _ _⟩
    rw [FileOp.program, Program.exec_bind, hexec]
    rfl
  | getfile =>
    obtain ⟨info, w', hexec, hsize, hheld, hstores⟩ := h.getfile now r hd hw.measured hb
    refine ⟨w', b, ?_, hheld, hstores, rfl⟩
    rw [FileOp.program, Program.exec_bind, hexec]
    show some (some (FileResult.size .OK (some info.size)), w') = _
    rw [hsize]
    rfl

/-- Some operations, the first of them by a client that can use the file. Unless there are none,
every client can use it then. -/
theorem World.runFile_eq (hd : d ∉ w.held) (hw : w.Reached) (hb : b.length < 4294967296)
    {calls : List FileCall} (hfirst : ∀ call ∈ calls.head?, w.Keeps call.client d b)
    (hshort : ∀ call ∈ calls, call.op.Short) :
    ∃ results w' b', runFile d w calls = some (results, w') ∧
      (w' = w ∧ b' = b ∨ w'.Stores d b') ∧
      (results, .ofList b') = Bytes.run (.ofList b) (calls.map FileCall.op) := by
  induction calls generalizing w b with
  | nil => exact ⟨[], w, b, rfl, Or.inl ⟨rfl, rfl⟩, rfl⟩
  | cons call calls ih =>
    have hop : call.op.Short := hshort call List.mem_cons_self
    obtain ⟨w₁, b₁, hexec, hheld, hstores, hbytes⟩ := (hfirst call rfl).run hd hw hb hop
    have hb₁ : b₁.length < 4294967296 := by
      have hlength : (Padded.ofList b₁ : Bytes).length < 4294967296 := by
        rw [hbytes]
        exact FileOp.length_onBytes_lt hop hb
      exact hlength
    obtain ⟨results, w', b', hrun, hend, hbytes'⟩ := ih (hheld ▸ hd) (hw.exec hexec) hb₁
      (fun call' _ => hstores.keeps call'.client)
      fun call' hcall' => hshort call' (List.mem_cons_of_mem _ hcall')
    refine ⟨(call.op.onBytes (.ofList b)).1 :: results, w', b', ?_, Or.inr ?_, ?_⟩
    · rw [runFile, hexec, Option.bind_some, Option.bind_some, hrun]
      rfl
    · -- After the first operation it does not matter who calls the others.
      rcases hend with ⟨rfl, rfl⟩ | hstores'
      · exact hstores
      · exact hstores'
    · rw [List.map_cons, Bytes.run, ← hbytes, ← hbytes']

/-- The calls of clients that use a file, as long as it is shorter than 4 GiB, return what they
would return for an array of bytes, and leave the file with the content of that array. -/
theorem file_refines_bytes (hw : w.Reached) {c : ℕ} (hkeeps : w.Keeps c d b) (hd : d ∉ w.held)
    (hb : b.length < 4294967296) {calls : List FileCall}
    (hfirst : ∀ call ∈ calls.head?, call.client = c) (hshort : ∀ call ∈ calls, call.op.Short) :
    ∃ results w' b', runFile d w calls = some (results, w') ∧ w'.Keeps c d b' ∧
      (results, .ofList b') = Bytes.run (.ofList b) (calls.map FileCall.op) := by
  have hclient : ∀ call ∈ calls.head?, w.Keeps call.client d b := by
    intro call hcall
    rw [hfirst call hcall]
    exact hkeeps
  obtain ⟨results, w', b', hrun, hend, hbytes⟩ := World.runFile_eq hd hw hb hclient hshort
  refine ⟨results, w', b', hrun, ?_, hbytes⟩
  rcases hend with ⟨rfl, rfl⟩ | hstores
  · exact hkeeps
  · exact hstores.keeps c

end Refinement

/-- A file that client `1` has created, and what it and client `2` do with it. -/
def patches : List FileCall :=
  [⟨1, 2, ⟨11, by decide⟩, .writeFile ['a', 'b'] 2 3⟩,
    ⟨2, 3, ⟨11, by decide⟩, .setAttr ⟨4, 0, 0, 0⟩⟩,
    ⟨2, 4, ⟨11, by decide⟩, .writeFile ['\x00', 'c', 'd'] 2 1⟩, ⟨1, 5, ⟨11, by decide⟩, .getfile⟩]

/-- The file is created, written behind its end, cut, written inside and measured. -/
theorem file_refines_bytes_created : ∃ w : World, w.Reached ∧ w.Keeps 1 2147483653 [] ∧
    2147483653 ∉ w.held ∧ ∃ results w' b', runFile 2147483653 w patches = some (results, w') ∧
      w'.Keeps 1 2147483653 b' ∧
      (results, .ofList b') = Bytes.run (.ofList []) (patches.map FileCall.op) := by
  have hmap : ((createFile 1 ['f']).exec (World.call 1 1 ⟨5, by decide⟩)
      (.start (.construct 0))).map (fun result => (result.1, result.2.held)) =
        some ((.OK, some 2147483653), []) := by decide +kernel
  obtain ⟨⟨result, w⟩, hexec, hresult⟩ := Option.map_eq_some_iff.mp hmap
  obtain ⟨rfl, hheld⟩ := Prod.mk.inj hresult
  have hw : w.Reached := (World.Reached.start (.construct 0)).exec hexec
  have hkeeps : w.Keeps 1 2147483653 [] :=
    keeps_created hexec (by decide) rfl fun _ => rfl
  have hd : 2147483653 ∉ w.held := by
    rw [show w.held = [] from hheld]
    exact List.not_mem_nil
  exact ⟨w, hw, hkeeps, hd, file_refines_bytes hw hkeeps hd (by decide) (by decide) (by decide)⟩

/-! ## Reading in parts -/

/-- A client reads a part of the file. -/
structure Reader where
  /-- The client. -/
  client : ℕ
  /-- The time. -/
  now : UInt32
  /-- What `random` would return. -/
  random : Random
  /-- The length of the part. -/
  size : UInt64
  deriving DecidableEq, Repr

/-- The parts, one behind the other, each with its start and length. -/
def windows : ℕ → List Reader → List (ℕ × ℕ)
  | _, [] => []
  | start, reader :: readers =>
    (start, reader.size.toNat) :: windows (start + reader.size.toNat) readers

/-- The parts are read, from `start` on. -/
def readAll (d : Inum) : World → ℕ → List Reader → Option (List (Status × Buf) × World)
  | w, _, [] => some ([], w)
  | w, start, reader :: readers =>
    ((readFile d reader.size (.ofNat start)).exec
        (World.call reader.client reader.now reader.random) w).bind fun first =>
      (readAll d first.2 (start + reader.size.toNat) readers).map fun rest =>
        (first.1 :: rest.1, rest.2)

/-- The length of all parts. -/
def total (readers : List Reader) : ℕ := (readers.map fun reader => reader.size.toNat).sum

/-- The length of the first part and the others. -/
theorem total_cons (reader : Reader) (readers : List Reader) :
    total (reader :: readers) = reader.size.toNat + total readers := by
  rw [total, List.map_cons, List.sum_cons, total]

section Reads

variable {w : World} {d : Inum} {b : Buf}

/-- Each part is what a read of it alone returns. -/
theorem World.readAll_eq (hd : d ∉ w.held) (start : ℕ) {readers : List Reader}
    (hfirst : ∀ reader ∈ readers.head?, w.Keeps reader.client d b)
    (htotal : start + total readers < 18446744073709551616) :
    ∃ w', readAll d w start readers =
      some ((windows start readers).map fun part => readResult b part.1 part.2, w') := by
  induction readers generalizing w start with
  | nil => exact ⟨w, rfl⟩
  | cons reader readers ih =>
    have hstart : (UInt64.ofNat start).toNat = start := UInt64.toNat_ofNat_of_lt (by
      unfold UInt64.size
      omega)
    obtain ⟨w₁, hexec, hheld, hstores⟩ :=
      (hfirst reader rfl).readFile reader.now reader.random hd reader.size (.ofNat start)
    have hrest : start + reader.size.toNat + total readers < 18446744073709551616 := by
      rw [total_cons] at htotal
      omega
    obtain ⟨w', hrun⟩ := ih (hheld ▸ hd) _ (fun reader' _ => hstores.keeps reader'.client) hrest
    refine ⟨w', ?_⟩
    rw [readAll, hexec, Option.bind_some, hrun, hstart]
    rfl

/-- The parts put together are the content from the start of the first part on. -/
theorem flatten_windows (b : Buf) (start : ℕ) (readers : List Reader)
    (htotal : b.length ≤ start + total readers) :
    ((windows start readers).map fun part => (readResult b part.1 part.2).2).flatten =
      b.drop start := by
  induction readers generalizing start with
  | nil => exact (List.drop_eq_nil_of_le htotal).symm
  | cons reader readers ih =>
    have hrest : b.length ≤ start + reader.size.toNat + total readers := by
      rw [total_cons] at htotal
      omega
    calc ((windows start (reader :: readers)).map fun part =>
          (readResult b part.1 part.2).2).flatten
        = (readResult b start reader.size.toNat).2 ++ b.drop (start + reader.size.toNat) := by
          rw [windows, List.map_cons, List.flatten_cons, ih _ hrest]
      _ = (b.drop start).take reader.size.toNat ++ (b.drop start).drop reader.size.toNat := by
          rw [readResult_snd, window_eq, List.drop_drop]
      _ = b.drop start := List.take_append_drop _ _

/-- A read returns the bytes that there are exactly when it does not start behind the end. So the
parts of a file are read without an error, and are the file when they are put together, exactly when
no part starts behind the end. -/
theorem reads_iff {c : ℕ} (hkeeps : w.Keeps c d b) (hd : d ∉ w.held) :
    (∀ now r (size off : UInt64), ∃ result w',
      (readFile d size off).exec (World.call c now r) w = some (result, w') ∧
        (result = (.OK, window b off.toNat size.toNat) ↔ off.toNat ≤ b.length) ∧
        (b.length < off.toNat → result = (.IOERR, []))) ∧
    ∀ readers : List Reader, (∀ reader ∈ readers.head?, reader.client = c) →
      total readers < 18446744073709551616 → b.length ≤ total readers →
      ∃ results w', readAll d w 0 readers = some (results, w') ∧
        ((∀ result ∈ results, result.1 = .OK) ∧ (results.map Prod.snd).flatten = b ↔
          ∀ part ∈ windows 0 readers, part.1 ≤ b.length) := by
  constructor
  · intro now r size off
    obtain ⟨w', hexec, -, -⟩ := hkeeps.readFile now r hd size off
    refine ⟨_, w', hexec, ⟨fun h => ?_, fun h => if_pos h⟩, fun h => if_neg (by omega)⟩
    have hok : (readResult b off.toNat size.toNat).1 = .OK := by rw [h]
    exact readResult_ok_iff.mp hok
  · intro readers hfirst htotal hlength
    have hclient : ∀ reader ∈ readers.head?, w.Keeps reader.client d b := by
      intro reader hreader
      rw [hfirst reader hreader]
      exact hkeeps
    obtain ⟨w', hrun⟩ := World.readAll_eq hd 0 hclient (by omega)
    have hflatten := flatten_windows b 0 readers (by omega)
    refine ⟨_, w', hrun, ⟨fun h part hpart => ?_, fun h => ⟨fun result hresult => ?_, ?_⟩⟩⟩
    · exact readResult_ok_iff.mp (h.1 _ (List.mem_map_of_mem hpart))
    · obtain ⟨part, hpart, rfl⟩ := List.mem_map.mp hresult
      exact readResult_ok_iff.mpr (h part hpart)
    · rw [List.map_map]
      exact hflatten

end Reads

/-- A file of one byte is read in two parts, the second of which starts at its end. -/
def halves : List Reader := [⟨0, 1, ⟨11, by decide⟩, 1⟩, ⟨1, 2, ⟨11, by decide⟩, 3⟩]

/-- Both parts are read, and together they are the file. -/
theorem reads_iff_halves : (World.start oneFile).Keeps 0 2147483653 ['x'] ∧
    ∃ results w', readAll 2147483653 (.start oneFile) 0 halves = some (results, w') ∧
      (∀ result ∈ results, result.1 = .OK) ∧ (results.map Prod.snd).flatten = ['x'] := by
  have hkeeps : (World.start oneFile).Keeps 0 2147483653 ['x'] :=
    (World.Stores.of_server (fun _ => rfl) (by decide)).keeps 0
  refine ⟨hkeeps, ?_⟩
  obtain ⟨results, w', hrun, hparts⟩ :=
    (reads_iff hkeeps List.not_mem_nil).2 halves (by decide) (by decide) (by decide)
  exact ⟨results, w', hrun, hparts.mpr (by decide)⟩

/-- After a write of two bytes, a read that starts at the fourth one fails. -/
theorem read_behind_end_fails :
    (runFile 2147483653 (.start oneFile)
        [⟨0, 1, ⟨11, by decide⟩, .writeFile ['a', 'b'] 2 0⟩]).bind (fun run =>
      ((readFile 2147483653 1 3).exec (World.call 0 2 ⟨11, by decide⟩) run.2).map fun read =>
        (run.1, run.2.contentFor 0 2147483653, read.1)) =
      some ([.status .OK], some ['a', 'b'], (.IOERR, [])) ∧
    window ['a', 'b'] 3 1 = [] := by
  decide +kernel

end SimpleDfs.Yfs
