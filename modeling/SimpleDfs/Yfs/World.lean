import SimpleDfs.Extent.WriteBack
import SimpleDfs.Yfs.Client

/-!
# Operations one after the other

Any number of file system clients, each with its cached extents, one extent server and the locks,
when an operation starts after the one before it has returned. A client keeps a lock until another
client wants it; then the client that has it flushes the extent and gives it up (`handOver`), which
`Handover.lean` compares with the run of messages that it stands for. An operation that acquires a
lock which an earlier one did not release does not return.

What the clients read of an extent under its lock is one content, whichever of them has the copy
(`Stores`); `acquire`, `get` and `remove` of other extents keep it, and `put` replaces it.
-/

namespace SimpleDfs.Yfs

open Extent

/-- What `get`, `getattr` and `put` of a client find: the statuses of the calls that fetch the
extent, and the copy. -/
def found (s : Session) (now : UInt32) (eid : Inum) :
    Extent.Status × Extent.Status × CachedExtentInfo :=
  match s.client.extent_list eid with
  | none =>
    let got := s.server.get now eid
    let attr := got.2.2.getattr eid
    (got.1, attr.1, ⟨false, attr.2, got.2.1⟩)
  | some extent => (.OK, .OK, extent)

/-- The functions of the client work on the copy that they find, and read their result from it. -/
theorem access_found (s : Session) (now : UInt32) (op : Op) (eid : Inum) :
    (s.access now op eid).1.client =
        s.client.install eid (op.apply now (found s now eid).2.2) ∧
      (s.access now op eid).2 =
        op.outcome (found s now eid).1 (found s now eid).2.1 (found s now eid).2.2 ∧
      (s.access now op eid).1.server.content = s.server.content := by
  unfold Session.access found
  cases s.client.extent_list eid with
  | none => exact ⟨rfl, rfl, s.server.content_get now eid⟩
  | some extent => exact ⟨rfl, rfl, rfl⟩

/-- The size of the copy that a function finds. -/
theorem found_size {s : Session} (h : s.Measured) (now : UInt32) (eid : Inum) :
    (found s now eid).2.2.attr.size = UInt32.ofNat (found s now eid).2.2.buf.length := by
  unfold found
  cases hcopy : s.client.extent_list eid with
  | none => exact h.fetched now eid
  | some extent => exact h.copy eid extent hcopy

/-- The clients, the extent server and the locks, between two calls. -/
structure World where
  /-- The extent server. -/
  server : ExtentServer
  /-- The extent client of each client. -/
  clients : ℕ → ExtentClient Unit
  /-- The client that has each lock. -/
  owner : Inum → Option ℕ
  /-- The locks that were acquired and not released. -/
  held : List Inum

namespace World

/-- The clients have just started, with some extents at the server. -/
def start (server : ExtentServer) : World := ⟨server, fun _ => .start, fun _ => none, []⟩

/-- A client and the server. -/
def session (w : World) (c : ℕ) : Session := ⟨w.clients c, w.server⟩

/-- The client and the server have gone on. -/
def setSession (w : World) (c : ℕ) (s : Session) : World :=
  { w with clients := Function.update w.clients c s.client, server := s.server }

/-- A client that has the lock gives it up when another one wants it, in `dorelease`. -/
def handOver (w : World) (c : ℕ) (now : UInt32) (lid : Inum) : World :=
  match w.owner lid with
  | none => w
  | some c' => if c' = c then w else w.setSession c' ((w.session c').flush now lid)

/-- A call by client `c`. The clock shows `now`, and `random` returns `r`. -/
def call (c : ℕ) (now : UInt32) (r : Random) : (q : Call) → World → Option (Answer q × World)
  | .acquire lid, w =>
    if lid ∈ w.held then none
    else
      let w := w.handOver c now lid
      some ((), { w with owner := Function.update w.owner lid (some c), held := lid :: w.held })
  | .release lid, w => some ((), { w with held := w.held.erase lid })
  | .get eid, w =>
    let got := found (w.session c) now eid
    some ((got.1, got.2.2.buf), w.setSession c ((w.session c).access now .get eid).1)
  | .getattr eid, w =>
    let got := found (w.session c) now eid
    some ((got.2.1, got.2.2.attr), w.setSession c ((w.session c).access now .getattr eid).1)
  | .put eid buf, w => some ((), w.setSession c ((w.session c).access now (.put buf) eid).1)
  | .remove eid, w => some ((), w.setSession c ((w.session c).remove eid))
  | .random, w => some (r, w)
  | .crash, _ => none

/-- The content of an extent, as the client that has the lock reads it, and as `c` does when nobody
has it. -/
def contentFor (w : World) (c : ℕ) (eid : Inum) : Option Buf :=
  match (w.clients ((w.owner eid).getD c)).extent_list eid with
  | some extent => some extent.buf
  | none => w.server.content eid

/-! ## What a call leaves as it is -/

/-- A client that gives up a lock flushes the extent; otherwise nothing happens. -/
theorem handOver_cases (w : World) (c : ℕ) (now : UInt32) (lid : Inum) :
    w.handOver c now lid = w ∨ ∃ c₀, w.handOver c now lid =
      w.setSession c₀ ((w.session c₀).call now (.flush lid)).1 := by
  unfold handOver
  cases w.owner lid with
  | none => exact Or.inl rfl
  | some c₀ =>
    dsimp only
    split_ifs
    · exact Or.inl rfl
    · exact Or.inr ⟨c₀, rfl⟩

variable {c : ℕ} {w : World} {d : Inum} {b : Buf}

/-- What a call does to the copies and the server: a client calls its extent client for the extent
of the call, or nothing happens. Only the lock of this extent may go elsewhere. -/
theorem call_cases {w w' : World} {now : UInt32} {r : Random} {q : Call} {a : Answer q}
    (hcall : call c now r q w = some (a, w')) : ∃ w₁,
      (w₁ = w ∨ ∃ c' clientCall, q.extent = some clientCall.eid ∧
        w₁ = w.setSession c' ((w.session c').call now clientCall).1) ∧
      w'.clients = w₁.clients ∧ w'.server = w₁.server ∧
      ∀ eid, q.extent ≠ some eid → w'.owner eid = w.owner eid := by
  cases q with
  | acquire lid =>
    change (if lid ∈ w.held then none else some _) = some _ at hcall
    split_ifs at hcall
    obtain ⟨-, rfl⟩ := Prod.mk.inj (Option.some.inj hcall)
    -- The client that had the lock flushes the extent before it changes hands.
    refine ⟨w.handOver c now lid, ?_, rfl, rfl, fun eid heid => ?_⟩
    · obtain hsame | ⟨c₀, hsession⟩ := w.handOver_cases c now lid
      · exact Or.inl hsame
      · exact Or.inr ⟨c₀, .flush lid, rfl, hsession⟩
    · have hne : eid ≠ lid := by
        rintro rfl
        exact heid rfl
      refine (Function.update_of_ne hne _ _).trans ?_
      obtain hsame | ⟨c₀, hsession⟩ := w.handOver_cases c now lid
      · rw [hsame]
      · rw [hsession]
        rfl
  | release lid =>
    obtain ⟨-, rfl⟩ := Prod.mk.inj (Option.some.inj hcall)
    exact ⟨w, Or.inl rfl, rfl, rfl, fun _ _ => rfl⟩
  | get i =>
    obtain ⟨-, rfl⟩ := Prod.mk.inj (Option.some.inj hcall)
    exact ⟨_, Or.inr ⟨c, .access .get i, rfl, rfl⟩, rfl, rfl, fun _ _ => rfl⟩
  | getattr i =>
    obtain ⟨-, rfl⟩ := Prod.mk.inj (Option.some.inj hcall)
    exact ⟨_, Or.inr ⟨c, .access .getattr i, rfl, rfl⟩, rfl, rfl, fun _ _ => rfl⟩
  | put i buf =>
    obtain ⟨-, rfl⟩ := Prod.mk.inj (Option.some.inj hcall)
    exact ⟨_, Or.inr ⟨c, .access (.put buf) i, rfl, rfl⟩, rfl, rfl, fun _ _ => rfl⟩
  | remove i =>
    obtain ⟨-, rfl⟩ := Prod.mk.inj (Option.some.inj hcall)
    exact ⟨_, Or.inr ⟨c, .remove i, rfl, rfl⟩, rfl, rfl, fun _ _ => rfl⟩
  | random =>
    obtain ⟨-, rfl⟩ := Prod.mk.inj (Option.some.inj hcall)
    exact ⟨w, Or.inl rfl, rfl, rfl, fun _ _ => rfl⟩
  | crash => exact a.elim

/-- Nothing has happened to an extent: its lock is where it was, and so are the copies, and the
server has the same content. -/
structure Frame (eid : Inum) (w w' : World) : Prop where
  /-- The lock. -/
  owner : w'.owner eid = w.owner eid
  /-- The copies. -/
  copy : ∀ c, (w'.clients c).extent_list eid = (w.clients c).extent_list eid
  /-- The content at the server. -/
  server : w'.server.content eid = w.server.content eid

section Frame

variable {w w' w'' : World} {eid : Inum}

/-- Nothing has happened. -/
theorem Frame.refl (w : World) : Frame eid w w := ⟨rfl, fun _ => rfl, rfl⟩

/-- Nothing has happened twice. -/
theorem Frame.trans (h : Frame eid w w') (h' : Frame eid w' w'') : Frame eid w w'' :=
  ⟨h'.owner.trans h.owner, fun c => (h'.copy c).trans (h.copy c), h'.server.trans h.server⟩

/-- A client calls a function of its extent client for another extent. -/
theorem frame_session (w : World) (c : ℕ) (now : UInt32) (call : ClientCall) (h : eid ≠ call.eid) :
    Frame eid w (w.setSession c ((w.session c).call now call).1) := by
  obtain ⟨hcopy, hserver⟩ := (w.session c).call_of_ne now call h
  refine ⟨rfl, fun c' => ?_, hserver⟩
  show (Function.update w.clients c _ c').extent_list eid = _
  by_cases hc : c' = c
  · rw [hc, Function.update_self, hcopy]
    rfl
  · rw [Function.update_of_ne hc]

/-- A client gives up another lock. -/
theorem frame_handOver (w : World) (c : ℕ) (now : UInt32) {lid : Inum} (h : eid ≠ lid) :
    Frame eid w (w.handOver c now lid) := by
  obtain hsame | ⟨c₀, hsession⟩ := w.handOver_cases c now lid
  · rw [hsame]
    exact .refl w
  · rw [hsession]
    exact w.frame_session c₀ now (.flush lid) h

/-- A call leaves the other extents as they are. -/
theorem frame_call {c : ℕ} {now : UInt32} {r : Random} {q : Call} {a : Answer q}
    (hcall : call c now r q w = some (a, w')) (h : q.extent ≠ some eid) : Frame eid w w' := by
  obtain ⟨w₁, hmoves, hclients, hserver, howner⟩ := call_cases hcall
  have hframe : Frame eid w w₁ := by
    rcases hmoves with rfl | ⟨c', clientCall, hextent, rfl⟩
    · exact .refl _
    · refine w.frame_session c' now clientCall ?_
      rintro rfl
      exact h hextent
  refine ⟨howner eid h, fun c => ?_, ?_⟩
  · rw [hclients]
    exact hframe.copy c
  · rw [hserver]
    exact hframe.server

/-- The content is the same for every client. -/
theorem Frame.contentFor_eq (h : Frame eid w w') (c : ℕ) :
    w'.contentFor c eid = w.contentFor c eid := by
  unfold contentFor
  rw [h.owner, h.server, h.copy]

end Frame

/-! ## What the clients read -/

/-- A client that has the lock of the extent reads `b`. Only the client that has the lock may have a
copy, and a copy that was not written is what the server has. -/
structure Stores (w : World) (d : Inum) (b : Buf) : Prop where
  /-- A copy is at the client that has the lock. -/
  owner : ∀ c extent, (w.clients c).extent_list d = some extent → w.owner d = some c
  /-- A copy has the content. -/
  copy : ∀ c extent, (w.clients c).extent_list d = some extent → extent.buf = b
  /-- The server has the content, unless a copy was written. -/
  server : (∀ c extent, (w.clients c).extent_list d = some extent → extent.is_dirty = false) →
    w.server.content d = some b

namespace Stores

variable {w : World} {c : ℕ} {d : Inum} {b : Buf}

/-- Nobody has a copy. -/
theorem of_server (hnone : ∀ c, (w.clients c).extent_list d = none)
    (hcontent : w.server.content d = some b) : w.Stores d b where
  owner c extent hcopy := by cases (hnone c).symm.trans hcopy
  copy c extent hcopy := by cases (hnone c).symm.trans hcopy
  server _ := hcontent

/-- Nothing has happened to the extent. -/
theorem frame (h : w.Stores d b) {w' : World} (hframe : Frame d w w') : w'.Stores d b := by
  refine ⟨fun c extent hc => ?_, fun c extent hc => ?_, fun hclean => ?_⟩
  · rw [hframe.copy] at hc
    exact hframe.owner.trans (h.owner c extent hc)
  · rw [hframe.copy] at hc
    exact h.copy c extent hc
  · refine hframe.server.trans (h.server fun c extent hc => hclean c extent ?_)
    rw [hframe.copy]
    exact hc

/-- No client other than the one that has the lock has a copy. -/
theorem eq_of_copy (h : w.Stores d b) (howner : w.owner d = some c) {c' : ℕ}
    {extent : CachedExtentInfo} (hcopy : (w.clients c').extent_list d = some extent) : c' = c :=
  Option.some.inj ((h.owner c' extent hcopy).symm.trans howner)

/-- The client that has the lock has a new copy, of what the extent is now. -/
theorem install (h : w.Stores d b) (howner : w.owner d = some c) {s : Session}
    {extent : CachedExtentInfo} (hcopy : s.client.extent_list d = some extent)
    (hserver : extent.is_dirty = false → s.server.content d = some extent.buf) :
    (w.setSession c s).Stores d extent.buf := by
  have hcopies : ∀ c' extent', ((w.setSession c s).clients c').extent_list d = some extent' →
      c' = c ∧ extent' = extent := by
    intro c' extent' hc'
    by_cases hc : c' = c
    · have hself : (w.setSession c s).clients c' = s.client := by
        rw [hc]
        exact Function.update_self _ _ _
      rw [hself, hcopy] at hc'
      exact ⟨hc, (Option.some.inj hc').symm⟩
    · have hother : (w.setSession c s).clients c' = w.clients c' := Function.update_of_ne hc _ _
      rw [hother] at hc'
      exact absurd (h.eq_of_copy howner hc') hc
  refine ⟨fun c' extent' hc' => ?_, fun c' extent' hc' => ?_, fun hclean => ?_⟩
  · rw [(hcopies c' extent' hc').1]
    exact howner
  · rw [(hcopies c' extent' hc').2]
  · refine hserver (hclean c extent ?_)
    have hself : (w.setSession c s).clients c = s.client := Function.update_self _ _ _
    rw [hself]
    exact hcopy

/-- What a function of the client that has the lock finds. -/
theorem found_eq (h : w.Stores d b) (howner : w.owner d = some c) (now : UInt32) :
    (found (w.session c) now d).1 = .OK ∧ (found (w.session c) now d).2.1 = .OK ∧
      (found (w.session c) now d).2.2.buf = b ∧
      ((found (w.session c) now d).2.2.is_dirty = false → w.server.content d = some b) := by
  unfold found
  cases hcopy : (w.session c).client.extent_list d with
  | some extent =>
    refine ⟨rfl, rfl, h.copy c extent hcopy, fun hclean => h.server fun c' extent' hc' => ?_⟩
    -- There is no other copy.
    obtain rfl := h.eq_of_copy howner hc'
    rw [← Option.some.inj (hcopy.symm.trans hc')]
    exact hclean
  | none =>
    have hcontent : w.server.content d = some b := by
      refine h.server fun c' extent' hc' => ?_
      obtain rfl := h.eq_of_copy howner hc'
      cases hcopy.symm.trans hc'
    have hget := ExtentServer.get_of_content hcontent now
    refine ⟨hget.1, ?_, hget.2, fun _ => hcontent⟩
    have hsome : (w.server.view d).isSome := by
      rw [ExtentServer.content_eq_view] at hcontent
      rw [← Option.isSome_map, hcontent]
      rfl
    show ((w.server.get now d).2.2.getattr d).1 = .OK
    rw [(ExtentServer.getattr_eq _ d).1, ExtentServer.status, ExtentServer.view_get, if_pos hsome]

/-- The client that has the lock gives it up: the copy is dropped, and the server has the
content. -/
theorem flush (h : w.Stores d b) (howner : w.owner d = some c) (now : UInt32) :
    (∀ c', ((w.setSession c ((w.session c).flush now d)).clients c').extent_list d = none) ∧
      (w.setSession c ((w.session c).flush now d)).server.content d = some b := by
  have hothers : ∀ c', c' ≠ c → (w.clients c').extent_list d = none := by
    intro c' hc
    cases hc' : (w.clients c').extent_list d with
    | none => rfl
    | some extent => exact absurd (h.eq_of_copy howner hc') hc
  have hflushed : ((w.session c).flush now d).client.extent_list d = none ∧
      ((w.session c).flush now d).server.content d = some b := by
    unfold Session.flush
    cases hcopy : (w.session c).client.extent_list d with
    | none =>
      refine ⟨hcopy, h.server fun c' extent hc' => ?_⟩
      obtain rfl := h.eq_of_copy howner hc'
      cases hcopy.symm.trans hc'
    | some extent =>
      refine ⟨Function.update_self _ _ _, ?_⟩
      have hbuf : extent.buf = b := h.copy c extent hcopy
      dsimp only
      cases hdirty : extent.is_dirty with
      | true =>
        rw [if_pos rfl, ExtentServer.content_put, Function.update_self, hbuf]
      | false =>
        rw [if_neg Bool.false_ne_true]
        refine h.server fun c' extent' hc' => ?_
        obtain rfl := h.eq_of_copy howner hc'
        rw [← Option.some.inj (hcopy.symm.trans hc')]
        exact hdirty
  refine ⟨fun c' => ?_, hflushed.2⟩
  show (Function.update w.clients c _ c').extent_list d = none
  by_cases hc : c' = c
  · rw [hc, Function.update_self]
    exact hflushed.1
  · rw [Function.update_of_ne hc]
    exact hothers c' hc

end Stores

/-- The extent has the content `b` for client `c`. The copies are at the client that has the lock
or, while nobody has it, at `c`. -/
structure Keeps (w : World) (c : ℕ) (d : Inum) (b : Buf) : Prop where
  /-- A copy is at the client that has the lock, or at `c`. -/
  owner : ∀ c' extent, (w.clients c').extent_list d = some extent →
    w.owner d = some c' ∨ w.owner d = none ∧ c' = c
  /-- A copy has the content. -/
  copy : ∀ c' extent, (w.clients c').extent_list d = some extent → extent.buf = b
  /-- The server has the content, unless a copy was written. -/
  server : (∀ c' extent, (w.clients c').extent_list d = some extent → extent.is_dirty = false) →
    w.server.content d = some b

/-- Every client can use an extent of which only the client that has the lock has a copy. -/
theorem Stores.keeps (h : w.Stores d b) (c : ℕ) : w.Keeps c d b :=
  ⟨fun c' extent hcopy => Or.inl (h.owner c' extent hcopy), h.copy, h.server⟩

/-- Nothing has happened to the extent. -/
theorem Keeps.frame {w w' : World} (h : w.Keeps c d b) (hframe : Frame d w w') :
    w'.Keeps c d b := by
  refine ⟨fun c' extent hc => ?_, fun c' extent hc => ?_, fun hclean => ?_⟩
  · rw [hframe.copy] at hc
    rw [hframe.owner]
    exact h.owner c' extent hc
  · rw [hframe.copy] at hc
    exact h.copy c' extent hc
  · refine hframe.server.trans (h.server fun c' extent hc => hclean c' extent ?_)
    rw [hframe.copy]
    exact hc

/-- The content is what the client reads. -/
theorem Keeps.contentFor_eq (h : w.Keeps c d b) :
    w.contentFor c d = some b := by
  unfold contentFor
  cases hcopy : (w.clients ((w.owner d).getD c)).extent_list d with
  | some extent => exact congrArg some (h.copy _ extent hcopy)
  | none =>
    -- There is no other place for a copy.
    refine h.server fun c' extent hc' => ?_
    obtain howner | ⟨hnone, rfl⟩ := h.owner c' extent hc'
    · rw [howner, Option.getD_some, hc'] at hcopy
      cases hcopy
    · rw [hnone, Option.getD_none, hc'] at hcopy
      cases hcopy

/-! ## The calls -/

section Calls

variable (w : World) (c : ℕ) (now : UInt32) (r : Random) {d : Inum} {b : Buf}

/-- Neither the clients that have the locks nor the locks that are held change when a client gives
up its copy. -/
theorem handOver_locks (lid : Inum) :
    (w.handOver c now lid).owner = w.owner ∧ (w.handOver c now lid).held = w.held := by
  obtain hsame | ⟨c₀, hsession⟩ := w.handOver_cases c now lid
  · rw [hsame]
    exact ⟨rfl, rfl⟩
  · rw [hsession]
    exact ⟨rfl, rfl⟩

/-- Afterwards only the client that asked for the lock may have a copy. -/
theorem stores_handOver_self (h : w.Stores d b) :
    (∀ c', ((w.handOver c now d).clients c').extent_list d = none) ∧
        (w.handOver c now d).server.content d = some b ∨
      w.handOver c now d = w ∧ w.owner d = some c := by
  unfold handOver
  cases howner : w.owner d with
  | none =>
    -- Nobody has the lock, so nobody has a copy.
    have hnone : ∀ c', (w.clients c').extent_list d = none := by
      intro c'
      cases hc' : (w.clients c').extent_list d with
      | none => rfl
      | some extent => cases howner.symm.trans (h.owner c' extent hc')
    exact Or.inl ⟨hnone, h.server fun c' extent hc' => by cases (hnone c').symm.trans hc'⟩
  | some c₀ =>
    dsimp only
    split_ifs with hc
    · exact Or.inr ⟨rfl, congrArg some hc⟩
    · exact Or.inl (h.flush howner now)

variable {w}

/-- `acquire` of a lock that is free. -/
theorem call_acquire {lid : Inum} (hlid : lid ∉ w.held) :
    ∃ w', call c now r (.acquire lid) w = some ((), w') ∧ w'.held = lid :: w.held ∧
      w'.owner = Function.update w.owner lid (some c) ∧ ∀ d b, w.Stores d b → w'.Stores d b := by
  obtain ⟨howner, hheld⟩ := w.handOver_locks c now lid
  refine ⟨_, if_neg hlid, congrArg (lid :: ·) hheld,
    congrArg (Function.update · lid (some c)) howner, fun d b h => ?_⟩
  by_cases hd : d = lid
  · subst hd
    rcases w.stores_handOver_self c now h with ⟨hnone, hcontent⟩ | ⟨hsame, hc⟩
    · exact .of_server hnone hcontent
    · rw [hsame]
      refine ⟨fun c' extent hc' => ?_, h.copy, h.server⟩
      rw [h.eq_of_copy hc hc']
      exact Function.update_self _ _ _
  · have hkept := h.frame (w.frame_handOver c now hd)
    refine ⟨fun c' extent hc' => ?_, hkept.copy, hkept.server⟩
    exact (Function.update_of_ne hd _ _).trans (hkept.owner c' extent hc')

/-- Once the client has taken the lock, nobody else has a copy. -/
theorem call_acquire_keeps (h : w.Keeps c d b) (hd : d ∉ w.held) :
    ∃ w', call c now r (.acquire d) w = some ((), w') ∧ w'.held = d :: w.held ∧
      w'.owner d = some c ∧ w'.Stores d b := by
  cases howner : w.owner d with
  | none =>
    -- Nobody gives the lock up, so a copy that `c` has made without it stays.
    have hsame : w.handOver c now d = w := by rw [handOver, howner]
    refine ⟨_, if_neg hd, ?_, Function.update_self _ _ _, ?_⟩
    · rw [hsame]
    · rw [hsame]
      refine ⟨fun c' extent hc => ?_, h.copy, h.server⟩
      obtain hc' | ⟨-, rfl⟩ := h.owner c' extent hc
      · cases howner.symm.trans hc'
      · exact Function.update_self _ _ _
  | some c₀ =>
    have hstores : w.Stores d b := by
      refine ⟨fun c' extent hc => ?_, h.copy, h.server⟩
      obtain hc' | ⟨hnone, -⟩ := h.owner c' extent hc
      · exact hc'
      · cases howner.symm.trans hnone
    obtain ⟨w', hcall, hheld, howner', hkeep⟩ := call_acquire c now r hd
    refine ⟨w', hcall, hheld, ?_, hkeep d b hstores⟩
    rw [howner', Function.update_self]

/-- `release`. -/
theorem call_release (lid : Inum) :
    ∃ w', call c now r (.release lid) w = some ((), w') ∧ w'.held = w.held.erase lid ∧
      w'.owner = w.owner ∧ ∀ d b, w.Stores d b → w'.Stores d b :=
  ⟨_, rfl, rfl, rfl, fun _ _ h => { h with }⟩

/-- A function of the client that has the lock works on the copy. -/
theorem stores_access (h : w.Stores d b) (howner : w.owner d = some c) (op : Op)
    {extent : CachedExtentInfo} (hextent : op.apply now (found (w.session c) now d).2.2 = extent)
    (hclean : extent.is_dirty = false → w.server.content d = some extent.buf) :
    (w.setSession c ((w.session c).access now op d).1).Stores d extent.buf := by
  obtain ⟨hclient, -, hserver⟩ := access_found (w.session c) now op d
  refine h.install howner ?_ fun hdirty => (congrFun hserver d).trans (hclean hdirty)
  rw [hclient, hextent]
  exact Function.update_self _ _ _

/-- `get` by the client that has the lock. -/
theorem call_get (h : w.Stores d b) (howner : w.owner d = some c) :
    ∃ w', call c now r (.get d) w = some ((.OK, b), w') ∧ w'.held = w.held ∧
      w'.owner = w.owner ∧ w'.Stores d b := by
  obtain ⟨hret, -, hbuf, hclean⟩ := h.found_eq howner now
  refine ⟨_, congrArg some (Prod.ext (Prod.ext hret hbuf) rfl), rfl, rfl, ?_⟩
  have hstores := stores_access c now h howner .get rfl fun hdirty => by
    rw [hclean hdirty]
    exact congrArg some hbuf.symm
  rwa [show (Op.get.apply now (found (w.session c) now d).2.2).buf = b from hbuf] at hstores

/-- `getattr` by the client that has the lock. -/
theorem call_getattr (h : w.Stores d b) (howner : w.owner d = some c)
    (hmeasured : (w.session c).Measured) :
    ∃ attr w', call c now r (.getattr d) w = some ((.OK, attr), w') ∧
      attr.size = UInt32.ofNat b.length ∧ w'.held = w.held ∧ w'.owner = w.owner ∧
      w'.Stores d b := by
  obtain ⟨-, hret, hbuf, hclean⟩ := h.found_eq howner now
  refine ⟨_, _, congrArg some (Prod.ext (Prod.ext hret rfl) rfl), ?_, rfl, rfl, ?_⟩
  · rw [← hbuf]
    exact found_size hmeasured now d
  · have hstores := stores_access c now h howner .getattr rfl fun hdirty => by
      rw [hclean hdirty]
      exact congrArg some hbuf.symm
    rwa [show (Op.getattr.apply now (found (w.session c) now d).2.2).buf = b from hbuf] at hstores

/-- `put`, of an extent whose lock the client has or of any other. -/
theorem call_put (eid : Inum) (buf : Buf) :
    ∃ w', call c now r (.put eid buf) w = some ((), w') ∧ w'.held = w.held ∧
      w'.owner = w.owner ∧ (∀ d b, d ≠ eid → w.Stores d b → w'.Stores d b) ∧
      ∀ b, w.owner eid = some c → w.Stores eid b → w'.Stores eid buf := by
  refine ⟨_, rfl, rfl, rfl, fun d b hd h => ?_, fun b howner h => ?_⟩
  · exact h.frame (w.frame_session c now (.access (.put buf) eid) hd)
  · exact stores_access c now h howner (.put buf) rfl nofun

/-- `remove`. -/
theorem call_remove (eid : Inum) :
    ∃ w', call c now r (.remove eid) w = some ((), w') ∧ w'.held = w.held ∧
      w'.owner = w.owner ∧ ∀ d b, d ≠ eid → w.Stores d b → w'.Stores d b := by
  exact ⟨_, rfl, rfl, rfl, fun d b hd h => h.frame (w.frame_session c now (.remove eid) hd)⟩

/-- An operation takes the lock of an extent and reads its content. -/
theorem locked_exec {α : Type} (h : w.Keeps c d b) (hd : d ∉ w.held)
    (next : Extent.Status × Buf → YfsM α) :
    ∃ w', (acquire d >>= fun _ => get d >>= next).exec (World.call c now r) w =
        (next (.OK, b)).exec (World.call c now r) w' ∧
      w'.held = d :: w.held ∧ w'.owner d = some c ∧ w'.Stores d b := by
  obtain ⟨w₁, hacquire, hheld₁, howner₁, hstores₁⟩ := call_acquire_keeps c now r h hd
  obtain ⟨w₂, hget, hheld₂, howner₂, hstores₂⟩ := call_get c now r hstores₁ howner₁
  refine ⟨w₂, (Program.exec_call hacquire).trans (Program.exec_call hget), ?_, ?_, hstores₂⟩
  · rw [hheld₂, hheld₁]
  · rw [howner₂, howner₁]

/-- An operation that has the lock puts a new content and gives the lock back. -/
theorem put_release_exec {α : Type} (h : w.Stores d b) (howner : w.owner d = some c) (b' : Buf)
    (a : α) :
    ∃ w', (put d b' >>= fun _ => release d >>= fun _ => pure a).exec (World.call c now r) w =
        some (a, w') ∧ w'.held = w.held.erase d ∧ w'.Stores d b' := by
  obtain ⟨w₁, hput, hheld₁, -, -, hstores₁⟩ := call_put (w := w) c now r d b'
  obtain ⟨w₂, hrelease, hheld₂, -, hkeep₂⟩ := call_release (w := w₁) c now r d
  refine ⟨w₂, (Program.exec_call hput).trans (Program.exec_call hrelease), ?_, ?_⟩
  · rw [hheld₂, hheld₁]
  · exact hkeep₂ d b' (hstores₁ b howner h)

end Calls

/-! ## Sizes -/

/-- The sizes of all copies and at the server are right. -/
def Measured (w : World) : Prop := ∀ c, (w.session c).Measured

/-- A client and the server have gone on. -/
theorem Measured.setSession (h : w.Measured) {s : Session} (hs : s.Measured) :
    (w.setSession c s).Measured := by
  intro c'
  refine ⟨fun eid extent hextent => ?_, hs.server⟩
  change (Function.update w.clients c s.client c').extent_list eid = some extent at hextent
  by_cases hc : c' = c
  · rw [hc, Function.update_self] at hextent
    exact hs.copy eid extent hextent
  · rw [Function.update_of_ne hc] at hextent
    exact (h c').copy eid extent hextent

/-- A call keeps the sizes right. -/
theorem Measured.call {w w' : World} (h : w.Measured) {now : UInt32} {r : Random} {q : Call}
    {a : Answer q} (hcall : World.call c now r q w = some (a, w')) : w'.Measured := by
  obtain ⟨w₁, hmoves, hclients, hserver, -⟩ := call_cases hcall
  have hw₁ : w₁.Measured := by
    rcases hmoves with rfl | ⟨c', clientCall, -, rfl⟩
    · exact h
    · exact h.setSession ((h c').call now clientCall)
  intro c'
  unfold session
  rw [hclients, hserver]
  exact hw₁ c'

/-- An operation takes the lock of an extent and reads its attributes. -/
theorem locked_getattr_exec {α : Type} (now : UInt32) (r : Random) (h : w.Keeps c d b)
    (hd : d ∉ w.held) (hmeasured : w.Measured) (next : Extent.Status × Attr → YfsM α) :
    ∃ attr w', (acquire d >>= fun _ => getattr d >>= next).exec (World.call c now r) w =
        (next (.OK, attr)).exec (World.call c now r) w' ∧ attr.size = UInt32.ofNat b.length ∧
      w'.held = d :: w.held ∧ w'.owner d = some c ∧ w'.Stores d b := by
  obtain ⟨w₁, hacquire, hheld₁, howner₁, hstores₁⟩ := call_acquire_keeps c now r h hd
  obtain ⟨attr, w₂, hgetattr, hattr, hheld₂, howner₂, hstores₂⟩ :=
    call_getattr c now r hstores₁ howner₁ (hmeasured.call hacquire c)
  refine ⟨attr, w₂, (Program.exec_call hacquire).trans (Program.exec_call hgetattr), hattr, ?_, ?_,
    hstores₂⟩
  · rw [hheld₂, hheld₁]
  · rw [howner₂, howner₁]

end World

end SimpleDfs.Yfs
