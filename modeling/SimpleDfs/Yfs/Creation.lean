import SimpleDfs.Yfs.Entries

/-!
# What a create touches

`createFile` and `createDirectory` draw the number of the new extent at random and put an empty
extent there, without a look at what there is. They work on two extents only, the parent and the one
of the number that was drawn (`frame_of_created`). So they touch nothing else exactly when the
number is fresh: it is not `0`, has no extent, and is listed in no directory
(`creation_touches_nothing_else_iff`). A draw that hits a file empties that file
(`creation_empties_file`).
-/

namespace SimpleDfs.Yfs

open Extent

namespace World

/-- What client `c` reads of an extent: the copy that it has, or what the server has. -/
def reads (w : World) (c : ℕ) (eid : Inum) : Option Buf := (w.session c).logical eid

/-- The extent exists: the server has it, or a client has written it. -/
def Exists (w : World) (eid : Inum) : Prop := (w.server.content eid).isSome ∨
  ∃ c extent, (w.clients c).extent_list eid = some extent ∧ extent.is_dirty = true

/-- A directory that exists has an entry with the number, as one of the clients reads it. -/
def Listed (w : World) (inum : Inum) : Prop := ∃ d c buf, isdir d = true ∧ w.Exists d ∧
  w.reads c d = some buf ∧ inum ∈ (listed buf).map Dirent.inum

/-- The number can be given to a new extent. -/
structure Fresh (w : World) (inum : Inum) : Prop where
  /-- It does not mean that nothing was found. -/
  ne_zero : inum ≠ 0
  /-- It has no extent. -/
  new : ¬ w.Exists inum
  /-- It is listed in no directory. -/
  unlisted : ¬ w.Listed inum

/-- Nothing has happened to the extent, so the clients read the same. -/
theorem Frame.reads_eq {w w' : World} {eid : Inum} (h : Frame eid w w') (c : ℕ) :
    w'.reads c eid = w.reads c eid := by
  unfold reads Session.logical
  rw [show (w'.session c).client.extent_list eid = (w.session c).client.extent_list eid from
    h.copy c]
  cases (w.session c).client.extent_list eid with
  | some extent => rfl
  | none => exact h.server

end World

/-- The number that a create makes from what `random` returns. -/
def DirOp.number : DirOp → Random → Inum
  | createFile _ => fileNumber
  | _ => directoryNumber

/-- What `random` returns is `r`. -/
def Draws (r : Random) : (q : Call) → Answer q → Prop
  | .random, a => (show Random from a) = r
  | _, _ => True

/-- In a world where `random` returns `r` it is so. -/
theorem World.draws_call {c : ℕ} {now : UInt32} {r : Random} {q : Call} {a : Answer q}
    {w w' : World} (hcall : World.call c now r q w = some (a, w')) : Draws r q a := by
  cases q with
  | random => exact (Prod.mk.inj (Option.some.inj hcall)).1.symm
  | _ => trivial

/-- The calls that a create makes when `random` returns `r`: they work on the directory `d` and on
the extent of the number `inum`. -/
def createProtocol (r : Random) (d inum : Inum) : Program.Protocol Call Answer Unit where
  allows _ q := ∀ eid, q.extent = some eid → eid = d ∨ eid = inum
  answers _ q a := Draws r q a
  after _ _ _ := ()

/-- The program works on the two extents only, and returns `inum` when it succeeds. -/
def CreatesOnly (r : Random) (d inum : Inum) (p : YfsM (Status × Option Inum)) : Prop :=
  p.Follows (createProtocol r d inum) (fun result _ => result.1 = .OK → result.2 = some inum) ()

/-- A create, from where it has the lock and the content of the directory. -/
theorem creates_enter (ofKind : Inum → Bool) (number : Random → Inum) (r : Random) (d : Inum)
    (name : Name) (buf : Buf) : CreatesOnly r d (number r) (enter ofKind number d name buf) := by
  have hself : ∀ eid, some d = some eid → eid = d ∨ eid = number r :=
    fun eid h => Or.inl (Option.some.inj h).symm
  have hnew : ∀ eid, some (number r) = some eid → eid = d ∨ eid = number r :=
    fun eid h => Or.inr (Option.some.inj h).symm
  have hnone : ∀ eid, none = some eid → eid = d ∨ eid = number r := nofun
  refine follows_parse (fun contents _ => ?_) fun _ => hnone
  dsimp only
  split_ifs
  · exact ⟨hnone, nofun⟩
  all_goals
    refine ⟨hnone, fun r' hr' => ?_⟩
    obtain rfl : r' = r := hr'
    exact ⟨hnew, fun _ _ => ⟨hself, fun _ _ => ⟨hnone, fun _ _ _ => rfl⟩⟩⟩

/-- A create takes the lock of the parent and reads it before. -/
theorem creates_read {r : Random} {d inum : Inum}
    {next : Extent.Status × Buf → YfsM (Status × Option Inum)}
    (h : ∀ a, CreatesOnly r d inum (next a)) :
    CreatesOnly r d inum (acquire d >>= fun _ => get d >>= next) := by
  have hself : ∀ eid, some d = some eid → eid = d ∨ eid = inum :=
    fun eid h => Or.inl (Option.some.inj h).symm
  exact ⟨hself, fun _ _ => ⟨hself, fun a _ => h a⟩⟩

/-- A create works on the parent and the new extent only, and returns the number of the latter. -/
theorem creates_call {op : DirOp} (hop : op.Creates) (r : Random) (d : Inum) :
    CreatesOnly r d (op.number r) (op.call d) := by
  cases op with
  | createFile name =>
    refine creates_read fun a => ?_
    dsimp only
    split_ifs
    · exact nofun
    · exact creates_enter isfile fileNumber r d name a.2
  | createDirectory name =>
    refine creates_read fun a => ?_
    dsimp only
    split_ifs
    · exact ⟨nofun, nofun⟩
    · exact creates_enter isdir directoryNumber r d name a.2
  | unlinkFile name => exact hop.elim

/-- A create that succeeds returns the number that was drawn, and leaves all extents but the parent
and the new one as they are. -/
theorem frame_of_created {op : DirOp} (hop : op.Creates) {c : ℕ} {now : UInt32} {r : Random}
    {d : Inum} {w w' : World} {inum : Option Inum}
    (hexec : (op.call d).exec (World.call c now r) w = some ((.OK, inum), w')) :
    inum = some (op.number r) ∧
      ∀ eid, eid ≠ d → eid ≠ op.number r → World.Frame eid w w' := by
  have hcalls : ∀ (_ : Unit) w₁ (q : Call) a w₂,
      (∀ eid, eid ≠ d → eid ≠ op.number r → World.Frame eid w w₁) →
      (∀ eid, q.extent = some eid → eid = d ∨ eid = op.number r) →
      World.call c now r q w₁ = some (a, w₂) →
      Draws r q a ∧ ∀ eid, eid ≠ d → eid ≠ op.number r → World.Frame eid w w₂ := by
    intro _ w₁ q a w₂ hframe hallowed hcall
    refine ⟨World.draws_call hcall, fun eid hd hnew => ?_⟩
    refine (hframe eid hd hnew).trans (World.frame_call hcall fun hextent => ?_)
    rcases hallowed eid hextent with rfl | rfl
    · exact hd rfl
    · exact hnew rfl
  obtain ⟨-, hpost, hframe⟩ := (creates_call hop r d).exec
    (I := fun _ w₁ => ∀ eid, eid ≠ d → eid ≠ op.number r → World.Frame eid w w₁) hcalls
    (fun _ _ _ => .refl w) hexec
  exact ⟨hpost rfl, hframe⟩

/-- A create of the extent `inum` in the directory `parent`, from the world `w` to `w'`, has touched
nothing else. -/
structure TouchesNothingElse (w w' : World) (parent inum : Inum) : Prop where
  /-- The number does not mean that nothing was found. -/
  ne_zero : inum ≠ 0
  /-- It had no extent. -/
  new : ¬ w.Exists inum
  /-- It was listed in no directory. -/
  unlisted : ¬ w.Listed inum
  /-- The content of every extent that existed, but that of the parent, is the same. -/
  kept : ∀ eid, eid ≠ parent → w.Exists eid → ∀ c, w'.reads c eid = w.reads c eid

/-- A create that succeeds returns the number that was drawn, and touches nothing else exactly when
this number is fresh. -/
theorem creation_touches_nothing_else_iff {op : DirOp} (hop : op.Creates) {c : ℕ} {now : UInt32}
    {r : Random} {parent : Inum} {w w' : World} {inum : Option Inum}
    (hexec : (op.call parent).exec (World.call c now r) w = some ((.OK, inum), w')) :
    inum = some (op.number r) ∧
      (TouchesNothingElse w w' parent (op.number r) ↔ w.Fresh (op.number r)) := by
  obtain ⟨hinum, hframe⟩ := frame_of_created hop hexec
  refine ⟨hinum, fun h => ⟨h.ne_zero, h.new, h.unlisted⟩, fun h => ?_⟩
  refine ⟨h.ne_zero, h.new, h.unlisted, fun eid heid hexists => (hframe eid heid ?_).reads_eq⟩
  rintro rfl
  exact h.new hexists

/-- In an empty root directory every number but that of the root is fresh. -/
theorem fresh_rootOnly {inum : Inum} (hzero : inum ≠ 0) (hroot : inum ≠ 1) :
    (World.start rootOnly).Fresh inum := by
  have hcontent : ∀ eid, rootOnly.content eid = if eid = 1 then some [] else none :=
    ExtentServer.content_construct 0
  have hexists : ∀ eid, (World.start rootOnly).Exists eid → eid = 1 := by
    rintro eid (hserver | ⟨c, extent, hcopy, -⟩)
    · by_contra hne
      rw [show (World.start rootOnly).server = rootOnly from rfl, hcontent, if_neg hne] at hserver
      cases hserver
    · cases hcopy
  refine ⟨hzero, fun h => hroot (hexists inum h), ?_⟩
  rintro ⟨d, c, buf, -, hd, hreads, hmem⟩
  have hbuf : rootOnly.content d = some buf := hreads
  rw [hexists d hd, hcontent, if_pos rfl] at hbuf
  rw [← Option.some.inj hbuf] at hmem
  cases hmem

/-- A file is created with a fresh number. -/
theorem creation_touches_nothing_else_first_file : ∃ w',
    ((DirOp.createFile ['a']).call 1).exec (World.call 0 1 ⟨5, by decide⟩) (.start rootOnly) =
      some ((.OK, some 2147483653), w') ∧
    TouchesNothingElse (.start rootOnly) w' 1 2147483653 := by
  have hmap : (((DirOp.createFile ['a']).call 1).exec (World.call 0 1 ⟨5, by decide⟩)
      (.start rootOnly)).map Prod.fst = some (.OK, some 2147483653) := by decide +kernel
  obtain ⟨⟨result, w'⟩, hexec, rfl⟩ := Option.map_eq_some_iff.mp hmap
  have hop : (DirOp.createFile ['a']).Creates := trivial
  have hfresh : (World.start rootOnly).Fresh ((DirOp.createFile ['a']).number ⟨5, by decide⟩) :=
    fresh_rootOnly (by decide) (by decide)
  exact ⟨w', hexec, (creation_touches_nothing_else_iff hop hexec).2.mpr hfresh⟩

/-- A server with one file, in the root directory. -/
def oneFile : ExtentServer :=
  (ExtentServer.put ⟨fun _ => none⟩ 0 1 (createBuffElement 2147483653 ['a'])).put 0 2147483653 ['x']

/-- A draw that hits the file empties it, and the draw `0` makes a directory that cannot be found.
-/
theorem creation_empties_file :
    (((DirOp.createFile ['b']).call 1).exec (World.call 0 1 ⟨5, by decide⟩) (.start oneFile)).map
        (fun result => (result.1, (World.start oneFile).reads 0 2147483653,
          result.2.reads 0 2147483653)) =
      some ((.OK, some 2147483653), some ['x'], some []) ∧
    (((DirOp.createDirectory ['b']).call 1).exec (World.call 0 1 ⟨0, by decide⟩)
        (.start oneFile)).map Prod.fst = some (.OK, some 0) := by
  decide +kernel

end SimpleDfs.Yfs
