import SimpleDfs.Yfs.Dangling
import SimpleDfs.Yfs.World

/-!
# The hand-over of a lock in one step

In `World` a client gets a lock, and the client that had it flushes the extent, in one step. In the
system of the clients and the servers this is a run: the request, `revoke`, the `put` of the worker,
`release` and `retry` are events of their own, and whatever the other threads and clients do comes
between them. A world shows an extent of a state if it has the copies, the content at the server and
the lock where the state has them (`Shows`); there is such a world for every state (`exists_shows`).

However a thread came to hold the lock, its client then has what it has after the one step, if the
content is the same (`acquire_matches`): nobody else has a copy, and what the client reads is the
content, from its copy or from the server.
-/

namespace SimpleDfs.Yfs

open Lock Extent

variable {s s' : YfsState} {d : Inum} {w w' : World} {c t : ℕ} {b : Buf}

/-- A world shows an extent as it is in a state of the system. -/
structure Shows (s : YfsState) (d : Inum) (w : World) : Prop where
  /-- The copies. -/
  copy : ∀ c, (w.clients c).extent_list d = (s.clients c).extent_list d
  /-- The content at the server. -/
  server : w.server.content d = s.server.content d
  /-- The client that has the lock, or that it is on its way to or from. -/
  owner : ∀ c, w.owner d = some c ↔ Custody s.lock c d

/-- Every state is shown by some world. -/
theorem exists_shows (h : YfsInv s) (d : Inum) : ∃ w, Shows s d w := by
  classical
  refine ⟨⟨s.server, fun c => { ExtentClient.start with extent_list := (s.clients c).extent_list },
    fun l => if hc : ∃ c, Custody s.lock c l then some hc.choose else none, []⟩,
    fun _ => rfl, rfl, fun c => ?_⟩
  dsimp only
  split_ifs with hc
  · rw [Option.some.injEq]
    exact ⟨fun heq => heq ▸ hc.choose_spec, h.lock.custody_unique hc.choose_spec⟩
  · exact iff_of_false (fun hnone => by cases hnone) fun hcustody => hc ⟨c, hcustody⟩

namespace Shows

/-- A copy has the content. -/
theorem copy_eq (hw : Shows s d w) (h : YfsInv s) (hb : content s.log d = some b)
    {extent : CachedExtentInfo} (hc : (w.clients c).extent_list d = some extent) :
    Keeper s.lock s.log c d ∧ extent.buf = b := by
  rw [hw.copy] at hc
  exact ⟨h.copies.cached c d extent hc, (h.copies.copies c d extent hc _ (congrArg some hb)).1⟩

/-- The server has the content, unless a copy was written. -/
theorem server_eq (hw : Shows s d w) (h : YfsInv s) (hb : content s.log d = some b)
    (hclean : ∀ c extent, (w.clients c).extent_list d = some extent → extent.is_dirty = false) :
    w.server.content d = some b := by
  rw [hw.server]
  rcases h.copies.stored d _ (congrArg some hb) with
    hstored | ⟨c, extent, hc, hdirty⟩ | ⟨c, t, hremove⟩
  · exact hstored
  · cases (hclean c extent ((hw.copy c).trans hc)).symm.trans hdirty
  · -- An extent that is being removed has no content.
    cases (h.copies.place c _ hremove).2.2 _ (congrArg some hb)

/-- The extent has its content for every client that may ask for the lock. -/
theorem keeps (hw : Shows s d w) (h : YfsInv s) (hb : content s.log d = some b)
    (hask : NoteOk s.log (.asked c t d)) : w.Keeps c d b := by
  refine ⟨fun c' extent hc => ?_, fun _ _ hc => (hw.copy_eq h hb hc).2, hw.server_eq h hb⟩
  rcases (hw.copy_eq h hb hc).1 with hcustody | hmaker
  · exact Or.inl ((hw.owner c').mpr hcustody)
  · cases howner : w.owner d with
    | none =>
      -- Only the client that made the extent may be the first to ask for its lock.
      rcases hask with hnone | hsome
      · cases hnone.symm.trans hmaker
      · exact Or.inr ⟨rfl, Option.some.inj (hmaker.symm.trans hsome)⟩
    | some c'' =>
      rw [h.creator_of_custody ((hw.owner c'').mp howner) hmaker]
      exact Or.inl rfl

/-- The client of a thread that holds the lock has the extent. -/
theorem stores (hw : Shows s d w) (h : YfsInv s) (hb : content s.log d = some b)
    (hholds : Holds s.lock c t d) : w.owner d = some c ∧ w.Stores d b := by
  have howner : w.owner d = some c := (hw.owner c).mpr (Or.inl (h.lock.owned_of_holds hholds))
  refine ⟨howner, fun c' extent hc => ?_, fun _ _ hc => (hw.copy_eq h hb hc).2, hw.server_eq h hb⟩
  rw [h.unique c' c d (hw.copy_eq h hb hc).1 (h.keeper_of_holds hholds)]
  exact howner

end Shows

/-- `acquire` in one step gives a client what the clients and the servers give it. The extent is as
the state `s` has it when the client may ask for its lock, and as `s'` has it when a thread of the
client holds the lock. -/
theorem acquire_matches (hs : yfsSystem.Reachable Careful s) (hw : Shows s d w)
    (hb : content s.log d = some b) (hask : NoteOk s.log (.asked c t d)) (hd : d ∉ w.held)
    (hs' : yfsSystem.Reachable Careful s') (hw' : Shows s' d w')
    (hb' : content s'.log d = content s.log d) (hholds : Holds s'.lock c t d) (now : UInt32)
    (r : Random) :
    ∃ w₁, World.call c now r (.acquire d) w = some ((), w₁) ∧
      (w₁.owner d = some c ∧ w₁.Stores d b) ∧ w'.owner d = some c ∧ w'.Stores d b := by
  obtain ⟨w₁, hcall, -, howner, hstores⟩ :=
    World.call_acquire_keeps c now r (hw.keeps (yfsInv_of_reachable hs) hb hask) hd
  exact ⟨w₁, hcall, ⟨howner, hstores⟩,
    hw'.stores (yfsInv_of_reachable hs') (hb'.trans hb) hholds⟩

end SimpleDfs.Yfs
