import SimpleDfs.Base.Triple
import SimpleDfs.Yfs.Files

/-!
# Rules for the calls of an operation

What an operation of the file system client has to know of all extents at once, when no other
operation runs: `Holding c held σ new` says that it has the locks `held`, that the extents have the
contents `σ`, and that nobody has a copy of any other extent. A new extent is first put without its
lock; `new` is the number of such an extent, which only the client itself has until it takes the
lock.

Each call has a rule, as a triple (`acquire_holding` and so on). The rules say what happens to all
extents, so that no other statement is needed about what an operation leaves as it is.
-/

namespace SimpleDfs.Yfs

open Extent Program

namespace World

/-- Only client `c` has copies of the extent, of content `b`. -/
structure Private (w : World) (c : ℕ) (d : Inum) (b : Buf) : Prop where
  /-- A copy is at `c`. -/
  only : ∀ c' extent, (w.clients c').extent_list d = some extent → c' = c
  /-- A copy has the content. -/
  copy : ∀ c' extent, (w.clients c').extent_list d = some extent → extent.buf = b
  /-- The server has the content, unless the copy was written. -/
  server : (∀ c' extent, (w.clients c').extent_list d = some extent → extent.is_dirty = false) →
    w.server.content d = some b

/-- Nobody has a copy of the extent. -/
def Absent (w : World) (d : Inum) : Prop := ∀ c, (w.clients c).extent_list d = none

variable {w w' : World} {c : ℕ} {d : Inum} {b : Buf}

theorem Private.frame (h : w.Private c d b) (hframe : Frame d w w') : w'.Private c d b := by
  refine ⟨fun c' extent hc => ?_, fun c' extent hc => ?_, fun hclean => ?_⟩
  · rw [hframe.copy] at hc
    exact h.only c' extent hc
  · rw [hframe.copy] at hc
    exact h.copy c' extent hc
  · refine hframe.server.trans (h.server fun c' extent hc => hclean c' extent ?_)
    rw [hframe.copy]
    exact hc

theorem Absent.frame (h : w.Absent d) (hframe : Frame d w w') : w'.Absent d :=
  fun c => (hframe.copy c).trans (h c)

/-- A client without a copy gives up the lock, and nothing happens. -/
theorem handOver_of_none {c₀ : ℕ} (howner : w.owner d = some c₀)
    (hnone : (w.clients c₀).extent_list d = none) (now : UInt32) : w.handOver c now d = w := by
  unfold handOver
  rw [howner]
  dsimp only
  split_ifs
  · rfl
  · have hflush : (w.session c₀).flush now d = w.session c₀ := by
      unfold Session.flush
      rw [show (w.session c₀).client.extent_list d = none from hnone]
    rw [hflush]
    unfold setSession session
    rw [Function.update_eq_self]

/-- When the others have no copy, nothing happens as the client takes the lock. -/
theorem Private.handOver_eq (h : w.Private c d b) (now : UInt32) : w.handOver c now d = w := by
  cases howner : w.owner d with
  | none => rw [handOver, howner]
  | some c₀ =>
    by_cases hc : c₀ = c
    · rw [handOver, howner]
      exact if_pos hc
    · refine handOver_of_none howner ?_ now
      cases hcopy : (w.clients c₀).extent_list d with
      | none => rfl
      | some extent => exact absurd (h.only c₀ extent hcopy) hc

/-- A client puts an extent of which nobody has a copy. -/
theorem private_put (h : w.Absent d) (now : UInt32) (buf : Buf) :
    (w.setSession c ((w.session c).access now (.put buf) d).1).Private c d buf := by
  obtain ⟨hclient, -, -⟩ := access_found (w.session c) now (.put buf) d
  have hself : ((w.session c).access now (.put buf) d).1.client.extent_list d =
      some ((Op.put buf).apply now (found (w.session c) now d).2.2) := by
    rw [hclient]
    exact Function.update_self _ _ _
  have hcopies : ∀ c' extent, (Function.update w.clients c
      ((w.session c).access now (.put buf) d).1.client c').extent_list d = some extent →
      c' = c ∧ extent = (Op.put buf).apply now (found (w.session c) now d).2.2 := by
    intro c' extent hc
    by_cases hc' : c' = c
    · rw [hc', Function.update_self, hself] at hc
      exact ⟨hc', (Option.some.inj hc).symm⟩
    · rw [Function.update_of_ne hc', h c'] at hc
      cases hc
  refine ⟨fun c' extent hc => (hcopies c' extent hc).1, fun c' extent hc => ?_, fun hclean => ?_⟩
  · rw [(hcopies c' extent hc).2]
    rfl
  · -- the new copy was written
    have hnew : (Function.update w.clients c
        ((w.session c).access now (.put buf) d).1.client c).extent_list d =
          some ((Op.put buf).apply now (found (w.session c) now d).2.2) := by
      rw [Function.update_self]
      exact hself
    cases hclean c _ hnew

/-- The client that has the lock removes the extent. -/
theorem absent_remove (h : w.Stores d b) (howner : w.owner d = some c) :
    (w.setSession c ((w.session c).remove d)).Absent d := by
  intro c'
  show (Function.update w.clients c ((w.session c).remove d).client c').extent_list d = none
  by_cases hc : c' = c
  · subst hc
    rw [Function.update_self]
    unfold Session.remove
    cases hcopy : (w.session c').client.extent_list d with
    | none => exact hcopy
    | some extent => exact Function.update_self ..
  · rw [Function.update_of_ne hc]
    cases hcopy : (w.clients c').extent_list d with
    | none => rfl
    | some extent => exact absurd (h.eq_of_copy howner hcopy) hc

end World

/-- The contents of the extents. -/
abbrev Contents := Inum → Option Buf

/-- Client `c` has the locks `held`, the extents have the contents `σ`, and `new` was put without
its lock. -/
structure Holding (c : ℕ) (held : List Inum) (σ : Contents) (new : Option Inum) (w : World) :
    Prop where
  /-- What has happened before can happen. -/
  reached : w.Reached
  /-- The locks that were acquired and not released. -/
  locks : w.held = held
  /-- They are at the client. -/
  owner : ∀ lid ∈ held, w.owner lid = some c
  /-- The extents but the new one. -/
  stores : ∀ d b, σ d = some b → new ≠ some d → w.Stores d b
  /-- The new one. -/
  fresh : ∀ d, new = some d → ∃ b, σ d = some b ∧ w.Private c d b
  /-- There are no other copies. -/
  absent : ∀ d, σ d = none → w.Absent d

namespace Holding

variable {c : ℕ} {held : List Inum} {σ : Contents} {new : Option Inum} {w w' : World}
  {now : UInt32} {r : Random} {d : Inum} {b : Buf}

/-- A call for one extent: what it does to that extent is all that has to be shown. -/
theorem call (h : Holding c held σ new w) {q : Call} {a : Answer q}
    (hcall : World.call c now r q w = some (a, w')) (hq : q.extent = some d)
    {held' : List Inum} {σ' : Contents} {new' : Option Inum} (hheld : w'.held = held')
    (howner : ∀ lid ∈ held', w'.owner lid = some c)
    (hσ : ∀ e, e ≠ d → σ' e = σ e) (hnew : ∀ e, e ≠ d → (new' = some e ↔ new = some e))
    (hstores : ∀ b, σ' d = some b → new' ≠ some d → w'.Stores d b)
    (hfresh : new' = some d → ∃ b, σ' d = some b ∧ w'.Private c d b)
    (habsent : σ' d = none → w'.Absent d) : Holding c held' σ' new' w' := by
  have hframe : ∀ e, e ≠ d → World.Frame e w w' := by
    intro e he
    refine World.frame_call hcall fun heq => he ?_
    rw [hq] at heq
    exact (Option.some.inj heq).symm
  refine ⟨h.reached.call hcall, hheld, howner, fun e b he hne => ?_, fun e he => ?_,
    fun e he => ?_⟩
  · by_cases hed : e = d
    · subst hed
      exact hstores b he hne
    · rw [hσ e hed] at he
      exact (h.stores e b he fun heq => hne ((hnew e hed).mpr heq)).frame (hframe e hed)
  · by_cases hed : e = d
    · subst hed
      exact hfresh he
    · obtain ⟨b, hb, hprivate⟩ := h.fresh e ((hnew e hed).mp he)
      exact ⟨b, (hσ e hed).trans hb, hprivate.frame (hframe e hed)⟩
  · by_cases hed : e = d
    · subst hed
      exact habsent he
    · rw [hσ e hed] at he
      exact (h.absent e he).frame (hframe e hed)

/-- When no lock is held, it does not matter who acts next. -/
theorem change_client (h : Holding c [] σ none w) (c' : ℕ) : Holding c' [] σ none w :=
  ⟨h.reached, h.locks, nofun, h.stores, nofun,
    h.absent⟩

end Holding

section Rules

variable {c : ℕ} {held : List Inum} {σ : Contents} {new : Option Inum} {now : UInt32} {r : Random}
  {d : Inum} {b : Buf}

/-- `acquire`, of a lock that the client does not hold. A new extent is like any other one then. -/
theorem acquire_holding (hd : d ∉ held) : Triple (World.call c now r) (Holding c held σ new)
    (acquire d) fun _ => Holding c (d :: held) σ (if new = some d then none else new) := by
  refine Triple.call (R := fun _ => _) (fun w h => ?_) fun _ => Triple.done fun _ hs => hs
  have hfree : d ∉ w.held := h.locks ▸ hd
  obtain ⟨howner, hheld⟩ := w.handOver_locks c now d
  have hcall : World.call c now r (.acquire d) w = some ((), { w.handOver c now d with
      owner := Function.update (w.handOver c now d).owner d (some c)
      held := d :: (w.handOver c now d).held }) := if_neg hfree
  refine ⟨(), _, hcall, h.call hcall rfl ?_ ?_ (fun _ _ => rfl) ?_ ?_ ?_ ?_⟩
  · rw [hheld, h.locks]
  · intro lid hlid
    dsimp only
    rw [howner, Function.update_apply]
    split_ifs with heq
    · rfl
    · exact h.owner lid ((List.mem_cons.mp hlid).resolve_left heq)
  · intro e he
    split_ifs with hnew
    · rw [hnew]
      exact ⟨nofun, fun h => absurd (Option.some.inj h).symm he⟩
    · exact Iff.rfl
  · intro b hb _
    by_cases hnew : new = some d
    · obtain ⟨b', hb', hprivate⟩ := h.fresh d hnew
      obtain rfl : b' = b := Option.some.inj (hb'.symm.trans hb)
      rw [hprivate.handOver_eq now]
      refine ⟨fun c' extent hc => ?_, hprivate.copy, hprivate.server⟩
      rw [hprivate.only c' extent hc]
      exact Function.update_self ..
    · obtain ⟨w', hcall', -, -, hkeep⟩ := World.call_acquire (w := w) c now r hfree
      obtain ⟨-, rfl⟩ := Prod.mk.inj (Option.some.inj (hcall.symm.trans hcall'))
      exact hkeep d b (h.stores d b hb hnew)
  · intro hnew
    split_ifs at hnew with hd'
    exact absurd hnew hd'
  · intro hnone
    have habsent := h.absent d hnone
    have hsame : w.handOver c now d = w := by
      cases hc : w.owner d with
      | none => rw [World.handOver, hc]
      | some c₀ => exact World.handOver_of_none hc (habsent c₀) now
    rw [hsame]
    exact habsent

/-- `release`. -/
theorem release_holding : Triple (World.call c now r) (Holding c held σ new) (release d)
    fun _ => Holding c (held.erase d) σ new := by
  refine Triple.call (R := fun _ => _) (fun w h => ?_) fun _ => Triple.done fun _ hs => hs
  have hcall : World.call c now r (.release d) w =
    some ((), { w with held := w.held.erase d }) := rfl
  refine ⟨(), _, hcall, h.reached.call hcall, ?_, ?_, ?_, ?_, ?_⟩
  · exact congrArg (List.erase · d) h.locks
  · exact fun lid hlid => h.owner lid (List.mem_of_mem_erase hlid)
  · intro e b he hne
    have hs := h.stores e b he hne
    exact { hs with }
  · intro e he
    obtain ⟨b, hb, hp⟩ := h.fresh e he
    exact ⟨b, hb, hp.only, hp.copy, hp.server⟩
  · exact h.absent

/-- `get`, of an extent whose lock the client has. -/
theorem get_holding (hd : d ∈ held) (hb : σ d = some b) (hnew : new ≠ some d) :
    Triple (World.call c now r) (Holding c held σ new) (get d)
      fun a w => a = (.OK, b) ∧ Holding c held σ new w := by
  refine Triple.call (R := fun a w => a = ((.OK, b) : Extent.Status × Buf) ∧
    Holding c held σ new w) (fun w h => ?_) fun _ => Triple.done fun _ hs => hs
  have hstores := h.stores d b hb hnew
  obtain ⟨w', hcall, hheld, howner, hstores'⟩ := World.call_get c now r hstores (h.owner d hd)
  refine ⟨_, w', hcall, rfl, h.call hcall rfl ?_ ?_ (fun _ _ => rfl) (fun _ _ => Iff.rfl) ?_ ?_ ?_⟩
  · rw [hheld, h.locks]
  · intro lid hlid
    rw [howner]
    exact h.owner lid hlid
  · intro b' hb' _
    rwa [← Option.some.inj (hb.symm.trans hb')]
  · exact fun heq => absurd heq hnew
  · intro hnone
    rw [hb] at hnone
    cases hnone

/-- `getattr`, of an extent whose lock the client has. -/
theorem getattr_holding (hd : d ∈ held) (hb : σ d = some b) (hnew : new ≠ some d) :
    Triple (World.call c now r) (Holding c held σ new) (getattr d)
      fun a w => (a.1 = .OK ∧ a.2.size = UInt32.ofNat b.length) ∧ Holding c held σ new w := by
  refine Triple.call (R := fun (a : Extent.Status × Attr) w =>
    (a.1 = .OK ∧ a.2.size = UInt32.ofNat b.length) ∧ Holding c held σ new w) (fun w h => ?_)
    fun _ => Triple.done fun _ hs => hs
  have hstores := h.stores d b hb hnew
  obtain ⟨attr, w', hcall, hsize, hheld, howner, hstores'⟩ :=
    World.call_getattr c now r hstores (h.owner d hd) (h.reached.measured c)
  refine ⟨_, w', hcall, ⟨rfl, hsize⟩,
    h.call hcall rfl ?_ ?_ (fun _ _ => rfl) (fun _ _ => Iff.rfl) ?_ ?_ ?_⟩
  · rw [hheld, h.locks]
  · intro lid hlid
    rw [howner]
    exact h.owner lid hlid
  · intro b' hb' _
    rwa [← Option.some.inj (hb.symm.trans hb')]
  · exact fun heq => absurd heq hnew
  · intro hnone
    rw [hb] at hnone
    cases hnone

/-- `put`, of an extent whose lock the client has. -/
theorem put_holding (hd : d ∈ held) (hb : σ d = some b) (hnew : new ≠ some d) (b' : Buf) :
    Triple (World.call c now r) (Holding c held σ new) (put d b')
      fun _ => Holding c held (Function.update σ d (some b')) new := by
  refine Triple.call (R := fun _ => _) (fun w h => ?_) fun _ => Triple.done fun _ hs => hs
  obtain ⟨w', hcall, hheld, howner, -, hself⟩ := World.call_put (w := w) c now r d b'
  refine ⟨_, w', hcall, h.call hcall rfl ?_ ?_ (fun e he => Function.update_of_ne he ..)
    (fun _ _ => Iff.rfl) ?_ ?_ ?_⟩
  · rw [hheld, h.locks]
  · intro lid hlid
    rw [howner]
    exact h.owner lid hlid
  · intro b'' hb'' _
    rw [Function.update_self] at hb''
    rw [← Option.some.inj hb'']
    exact hself b (h.owner d hd) (h.stores d b hb hnew)
  · exact fun heq => absurd heq hnew
  · intro hnone
    rw [Function.update_self] at hnone
    cases hnone

/-- `put`, of an extent that nobody has. -/
theorem put_new_holding (hd : σ d = none) (b' : Buf) :
    Triple (World.call c now r) (Holding c held σ none) (put d b')
      fun _ => Holding c held (Function.update σ d (some b')) (some d) := by
  refine Triple.call (R := fun _ => _) (fun w h => ?_) fun _ => Triple.done fun _ hs => hs
  have hcall : World.call c now r (.put d b') w =
    some ((), w.setSession c ((w.session c).access now (.put b') d).1) := rfl
  refine ⟨_, _, hcall, h.call hcall rfl h.locks h.owner (fun e he => Function.update_of_ne he ..)
    (fun e he => ?_) ?_ ?_ ?_⟩
  · exact ⟨fun heq => absurd (Option.some.inj heq).symm he, nofun⟩
  · exact fun _ _ hne => absurd rfl hne
  · exact fun _ => ⟨b', Function.update_self .., World.private_put (h.absent d hd) now b'⟩
  · intro hnone
    rw [Function.update_self] at hnone
    cases hnone

/-- `remove`, of an extent whose lock the client has. -/
theorem remove_holding (hd : d ∈ held) (hb : σ d = some b) (hnew : new ≠ some d) :
    Triple (World.call c now r) (Holding c held σ new) (remove d)
      fun _ => Holding c held (Function.update σ d none) new := by
  refine Triple.call (R := fun _ => _) (fun w h => ?_) fun _ => Triple.done fun _ hs => hs
  have hcall : World.call c now r (.remove d) w =
    some ((), w.setSession c ((w.session c).remove d)) := rfl
  refine ⟨_, _, hcall, h.call hcall rfl h.locks h.owner (fun e he => Function.update_of_ne he ..)
    (fun _ _ => Iff.rfl) ?_ ?_ ?_⟩
  · intro b' hb'
    rw [Function.update_self] at hb'
    cases hb'
  · exact fun heq => absurd heq hnew
  · exact fun _ => World.absent_remove (h.stores d b hb hnew) (h.owner d hd)

/-- `random`. -/
theorem random_holding : Triple (World.call c now r) (Holding c held σ new) random
    fun a w => a = r ∧ Holding c held σ new w := by
  intro w h
  exact ⟨r, w, rfl, rfl, h⟩

end Rules

/-! ## The operations -/

section Operations

variable {c : ℕ} {σ : Contents} {new : Option Inum} {now : UInt32} {r : Random} {d : Inum} {b : Buf}
  {entries : List Dirent} {α : Type}

/-- The last lock is released, and the operation returns. -/
theorem release_return (a : α) : Triple (World.call c now r) (Holding c [d] σ new)
    (release d >>= fun _ => pure a) fun result w => result = a ∧ Holding c [] σ new w := by
  refine Triple.bind (release_holding (d := d)) fun _ => Triple.done fun w h => ⟨rfl, ?_⟩
  rwa [List.erase_cons_head] at h

/-- The extent is not new any more when its lock is taken. -/
theorem acquire_first (hnew : new = none ∨ new = some d) :
    Triple (World.call c now r) (Holding c [] σ new) (acquire d)
      fun _ => Holding c [d] σ none := by
  have hnone : (if new = some d then none else new) = none := by
    rcases hnew with rfl | rfl
    · rfl
    · exact if_pos rfl
  have hrule : Triple (World.call c now r) (Holding c [] σ new) (acquire d)
      fun _ => Holding c [d] σ (if new = some d then none else new) :=
    acquire_holding List.not_mem_nil
  rwa [hnone] at hrule

/-- An operation takes the lock of an extent and reads it. -/
theorem locked_get (hb : σ d = some b) {f : Extent.Status × Buf → YfsM α} {Q : α → World → Prop}
    (h : Triple (World.call c now r) (Holding c [d] σ none) (f (.OK, b)) Q) :
    Triple (World.call c now r) (Holding c [] σ none) (acquire d >>= fun _ => get d >>= f) Q := by
  refine Triple.bind (acquire_first (Or.inl rfl)) fun _ => ?_
  refine Triple.bind (get_holding List.mem_cons_self hb nofun) fun a => ?_
  exact Triple.of_pure fun ha => ha ▸ h

/-- An operation takes the lock of an extent and reads its attributes. -/
theorem locked_getattr (hb : σ d = some b) (hnew : new = none ∨ new = some d)
    {f : Extent.Status × Attr → YfsM α} {Q : α → World → Prop}
    (h : ∀ attr : Attr, attr.size = UInt32.ofNat b.length →
      Triple (World.call c now r) (Holding c [d] σ none) (f (.OK, attr)) Q) :
    Triple (World.call c now r) (Holding c [] σ new)
      (acquire d >>= fun _ => getattr d >>= f) Q := by
  refine Triple.bind (acquire_first hnew) fun _ => ?_
  refine Triple.bind (getattr_holding List.mem_cons_self hb nofun) fun a => ?_
  refine Triple.of_pure fun ha => ?_
  obtain ⟨ret, attr⟩ := a
  obtain ⟨rfl, hsize⟩ := ha
  exact h attr hsize

/-- An operation writes the extent of its last lock and returns. -/
theorem put_return (hb : σ d = some b) (b' : Buf) (a : α) :
    Triple (World.call c now r) (Holding c [d] σ none)
      (put d b' >>= fun _ => release d >>= fun _ => pure a)
      fun result w => result = a ∧ Holding c [] (Function.update σ d (some b')) none w :=
  Triple.bind (put_holding List.mem_cons_self hb (fun h => by cases h) b') fun _ =>
    release_return a

/-- `getfile` and `getdir`, of an extent that may be new. -/
theorem getinfo_holding (hb : σ d = some b) (hnew : new = none ∨ new = some d) :
    Triple (World.call c now r) (Holding c [] σ new) (getinfo d) fun result w =>
      (∃ attr : Attr, result = (.OK, some attr) ∧ attr.size = UInt32.ofNat b.length) ∧
        Holding c [] σ none w := by
  unfold getinfo
  refine locked_getattr hb hnew fun attr hsize => ?_
  exact (release_return _).mono (fun _ h => h) fun result w h => ⟨⟨attr, h.1, hsize⟩, h.2⟩

/-- `getfile`. -/
theorem getfile_holding (hb : σ d = some b) (hnew : new = none ∨ new = some d) :
    Triple (World.call c now r) (Holding c [] σ new) (getfile d) fun result w =>
      (∃ info : FileInfo, result = (.OK, some info) ∧
        info.size = (UInt32.ofNat b.length).toNat) ∧ Holding c [] σ none w := by
  refine Triple.bind (getinfo_holding hb hnew) fun result => Triple.of_pure ?_
  rintro ⟨attr, rfl, hsize⟩
  exact Triple.done fun w h => ⟨⟨_, rfl, congrArg UInt32.toNat hsize⟩, h⟩

/-- `getdir`. -/
theorem getdir_holding (hb : σ d = some b) (hnew : new = none ∨ new = some d) :
    Triple (World.call c now r) (Holding c [] σ new) (getdir d) fun result w =>
      (∃ info : DirInfo, result = (.OK, some info)) ∧ Holding c [] σ none w := by
  refine Triple.bind (getinfo_holding hb hnew) fun result => Triple.of_pure ?_
  rintro ⟨attr, rfl, -⟩
  exact Triple.done fun w h => ⟨⟨_, rfl⟩, h⟩

/-- `readFile`. -/
theorem readFile_holding (hb : σ d = some b) (size off : UInt64) :
    Triple (World.call c now r) (Holding c [] σ none) (readFile d size off) fun result w =>
      result = readResult b off.toNat size.toNat ∧ Holding c [] σ none w := by
  unfold readFile
  refine locked_get hb ?_
  dsimp only
  refine Triple.bind (release_holding (d := d)) fun _ => ?_
  rw [List.erase_cons_head, if_neg (fun h => h rfl), readResult]
  by_cases hoff : off.toNat ≤ b.length
  · rw [if_neg (Nat.not_lt.mpr hoff), if_pos hoff, window_eq]
    exact Triple.done fun w h => ⟨rfl, h⟩
  · rw [if_pos (Nat.lt_of_not_le hoff), if_neg hoff]
    exact Triple.done fun w h => ⟨rfl, h⟩

/-- `getDirContents`. -/
theorem getDirContents_holding (hb : σ d = some b) :
    Triple (World.call c now r) (Holding c [] σ none) (getDirContents d) fun result w =>
      result = (.OK, b) ∧ Holding c [] σ none w := by
  unfold getDirContents
  exact locked_get hb (release_return _)

/-- `lookupResource`. -/
theorem lookupResource_holding (hb : σ d = some b) (hparse : parsebuf b = some entries)
    (name : Name) :
    Triple (World.call c now r) (Holding c [] σ none) (lookupResource d name) fun result w =>
      result = (.OK, ((entries.find? fun entry => entry.name == cString name).map
        Dirent.inum).getD 0) ∧ Holding c [] σ none w := by
  unfold lookupResource
  refine locked_get hb ?_
  dsimp only
  rw [if_neg (fun h => h rfl), parse_eq_done hparse]
  exact release_return _

/-- `writeFile`, when `std::string` does not throw. -/
theorem writeFile_holding (hb : σ d = some b) {buf : List Char} {size off : UInt64} {b' : Buf}
    (hb' : overwritten b buf size off = some b') :
    Triple (World.call c now r) (Holding c [] σ none) (writeFile d buf size off) fun result w =>
      result = some .OK ∧ Holding c [] (Function.update σ d (some b')) none w := by
  unfold writeFile
  refine locked_get hb ?_
  dsimp only
  rw [if_pos rfl, hb']
  exact put_return hb b' (some Status.OK)

/-- `setAttr`. -/
theorem setAttr_holding (hb : σ d = some b) (hlength : b.length < 4294967296) {info : FileInfo}
    (hsize : info.size < 4294967296) :
    Triple (World.call c now r) (Holding c [] σ none) (setAttr d info) fun result w =>
      result = some .OK ∧
        Holding c [] (Function.update σ d (some (Padded.resized '\x00' info.size b))) none w := by
  unfold setAttr
  refine locked_getattr hb (Or.inl rfl) fun attr hattr => ?_
  have hlen : attr.size.toNat = b.length := by rw [hattr, ExtentServer.toNat_size hlength]
  dsimp only
  rw [if_pos rfl]
  by_cases hsame : attr.size.toNat = info.size
  · -- Nothing is written, and the content has the length already.
    rw [if_pos hsame, Padded.resized_eq_self (by omega), ← hb, Function.update_eq_self]
    exact release_return (some Status.OK)
  · have hresize : resize b info.size = some (Padded.resized '\x00' info.size b) :=
      if_pos (by unfold maxString; omega)
    rw [if_neg hsame]
    refine Triple.bind (get_holding List.mem_cons_self hb nofun) fun a => ?_
    refine Triple.of_pure fun ha => ?_
    subst ha
    dsimp only
    rw [hresize]
    exact put_return hb _ (some Status.OK)

/-- A create that is refused. -/
theorem enter_refused {ofKind : Inum → Bool} {number : Random → Inum} {name : Name}
    (hparse : parsebuf b = some entries)
    (hany : (entries.any fun entry => entry.name == cString name && ofKind entry.inum) = true) :
    Triple (World.call c now r) (Holding c [d] σ none) (enter ofKind number d name b)
      fun result w => result = (.EEXIST, none) ∧ Holding c [] σ none w := by
  unfold enter
  rw [parse_eq_done hparse, Program.done_bind, if_pos hany]
  exact release_return _

/-- A create that draws a number which nobody has. -/
theorem enter_new {ofKind : Inum → Bool} {number : Random → Inum} {name : Name} (hb : σ d = some b)
    (hparse : parsebuf b = some entries)
    (hany : (entries.any fun entry => entry.name == cString name && ofKind entry.inum) ≠ true)
    (hfresh : σ (number r) = none) :
    Triple (World.call c now r) (Holding c [d] σ none) (enter ofKind number d name b)
      fun result w => result = (.OK, some (number r)) ∧
        Holding c [] (Function.update (Function.update σ (number r) (some [])) d
          (some ((if entries.length ≠ 0 then b ++ [elementSeperator] else b) ++
            createBuffElement (number r) name))) (some (number r)) w := by
  have hne : d ≠ number r := by
    rintro rfl
    rw [hb] at hfresh
    cases hfresh
  unfold enter
  rw [parse_eq_done hparse, Program.done_bind, if_neg hany]
  refine Triple.bind random_holding fun a => Triple.of_pure fun ha => ?_
  subst ha
  refine Triple.bind (put_new_holding hfresh []) fun _ => ?_
  have hb' : Function.update σ (number a) (some []) d = some b := by
    rw [Function.update_of_ne hne]
    exact hb
  refine Triple.bind (put_holding List.mem_cons_self hb'
    (fun h => hne (Option.some.inj h).symm) _) fun _ => ?_
  exact release_return _

/-- `unlinkFile` of a name that no file has. -/
theorem unlinkFile_missing (hb : σ d = some b) (hparse : parsebuf b = some entries) {name : Name}
    (hfind : entries.find? (Dirent.isFileNamed name) = none) :
    Triple (World.call c now r) (Holding c [] σ none) (unlinkFile d name)
      fun result w => result = .NOENT ∧ Holding c [] σ none w := by
  unfold unlinkFile
  refine locked_get hb ?_
  dsimp only
  rw [if_neg (fun h => h rfl)]
  unfold leave
  rw [parse_eq_done hparse, Program.done_bind, hfind]
  exact release_return _

/-- `unlinkFile` of a file that exists. -/
theorem unlinkFile_found (hb : σ d = some b) (hparse : parsebuf b = some entries) {name : Name}
    {entry : Dirent} {content : Buf}
    (hfind : entries.find? (Dirent.isFileNamed name) = some entry) (hne : entry.inum ≠ d)
    (hentry : σ entry.inum = some content) :
    Triple (World.call c now r) (Holding c [] σ none) (unlinkFile d name)
      fun result w => result = .OK ∧ Holding c []
        (Function.update (Function.update σ d
          (some (writeDirent (entries.eraseP (Dirent.isFileNamed name))))) entry.inum none)
        none w := by
  unfold unlinkFile
  refine locked_get hb ?_
  dsimp only
  rw [if_neg (fun h => h rfl)]
  unfold leave
  rw [parse_eq_done hparse, Program.done_bind, hfind]
  have hfree : entry.inum ∉ [d] := fun h => hne (List.mem_singleton.mp h)
  refine Triple.bind (acquire_holding hfree) fun _ => ?_
  rw [if_neg (fun h => by cases h)]
  refine Triple.bind (put_holding (List.mem_cons_of_mem _ List.mem_cons_self) hb
    (fun h => by cases h) _) fun _ => ?_
  have hentry' : Function.update σ d
      (some (writeDirent (entries.eraseP (Dirent.isFileNamed name)))) entry.inum =
        some content := by
    rw [Function.update_of_ne hne]
    exact hentry
  refine Triple.bind (remove_holding List.mem_cons_self hentry' nofun) fun _ => ?_
  refine Triple.bind (release_holding (d := entry.inum)) fun _ => ?_
  rw [List.erase_cons_head]
  exact release_return _

end Operations

end SimpleDfs.Yfs
