import Mathlib.Tactic.SplitIfs
import SimpleDfs.Extent.Client

/-!
# One client and the server

The calls that one client makes, each of them from start to end, for extents that no other client
touches. `Session.call` is the client's function with its calls of the server executed at once; it
is what the functions of `Client.lean` come to when nothing happens in between (`access_cached`,
`access_fetched`). `ExtentServer.direct` executes the same call at a server without a cache.

The cache is meant to be invisible: the results of `get` and `getattr`, and the contents after every
copy is flushed, are those of the direct execution. This holds as long as every call is `Plain`
(`transparent_iff`): no `get` or `getattr` finds a copy that was fetched of an extent that does not
exist, and no `remove` is for an extent that exists and is not cached.
-/

namespace SimpleDfs.Extent

/-! ## The calls -/

/-- A call of the extent client. -/
inductive ClientCall where
  /-- `get`, `getattr` or `put`. -/
  | access (op : Op) (eid : ExtentId)
  /-- `remove`. -/
  | remove (eid : ExtentId)
  /-- `flush`. -/
  | flush (eid : ExtentId)
  deriving DecidableEq, Repr

/-- The extent that a call is for. -/
def ClientCall.eid : ClientCall → ExtentId
  | access _ eid | remove eid | flush eid => eid

/-- What a caller reads from a call. -/
inductive Outcome where
  /-- The status and the content that `get` returns. -/
  | get (ret : Status) (buf : Buf)
  /-- The status and the size that `getattr` returns. -/
  | getattr (ret : Status) (size : UInt32)
  /-- The other functions return no data. -/
  | done
  deriving DecidableEq, Repr

/-- What the caller of a function reads when it found the copy `extent`; the calls that fetched it
returned `ret` and `ret'`. -/
def Op.outcome (op : Op) (ret ret' : Status) (extent : CachedExtentInfo) : Outcome :=
  match op with
  | get => .get ret extent.buf
  | getattr => .getattr ret' extent.attr.size
  | put _ => .done

/-- A client and the server. -/
structure Session where
  /-- The client. -/
  client : ExtentClient Unit
  /-- The server. -/
  server : ExtentServer

namespace Session

/-- A client that has just started. -/
def start (server : ExtentServer) : Session := ⟨.start, server⟩

/-- `get`, `getattr` or `put`, from start to end. -/
def access (s : Session) (now : UInt32) (op : Op) (eid : ExtentId) : Session × Outcome :=
  match s.client.extent_list eid with
  | none =>
    let got := s.server.get now eid
    let attr := got.2.2.getattr eid
    let extent : CachedExtentInfo := ⟨false, attr.2, got.2.1⟩
    (⟨s.client.install eid (op.apply now extent), got.2.2⟩, op.outcome got.1 attr.1 extent)
  | some extent =>
    (⟨s.client.install eid (op.apply now extent), s.server⟩, op.outcome .OK .OK extent)

/-- `remove`, from start to end. -/
def remove (s : Session) (eid : ExtentId) : Session :=
  match s.client.extent_list eid with
  | none => s
  | some _ => ⟨s.client.erase eid, (s.server.remove eid).2⟩

/-- `flush`, from start to end. -/
def flush (s : Session) (now : UInt32) (eid : ExtentId) : Session :=
  match s.client.extent_list eid with
  | none => s
  | some extent =>
    ⟨s.client.erase eid, if extent.is_dirty then s.server.put now eid extent.buf else s.server⟩

/-- A call, with what its caller reads. -/
def call (s : Session) (now : UInt32) : ClientCall → Session × Outcome
  | .access op eid => s.access now op eid
  | .remove eid => (s.remove eid, .done)
  | .flush eid => (s.flush now eid, .done)

/-- Some calls, each with the time it is made at, and what their callers read. -/
def run (s : Session) : List (UInt32 × ClientCall) → Session × List Outcome
  | [] => (s, [])
  | (now, call) :: calls =>
    let (s, outcome) := s.call now call
    let (s, outcomes) := s.run calls
    (s, outcome :: outcomes)

/-- The extents in a list are flushed. -/
def flushAll (s : Session) (now : UInt32) (eids : List ExtentId) : Session :=
  eids.foldl (fun s eid => s.flush now eid) s

end Session

/-- A call that is executed at the server, without a client in between. -/
def ExtentServer.direct (server : ExtentServer) (now : UInt32) :
    ClientCall → ExtentServer × Outcome
  | .access .get eid => ((server.get now eid).2.2,
      .get (server.get now eid).1 (server.get now eid).2.1)
  | .access .getattr eid => (server, .getattr (server.getattr eid).1 (server.getattr eid).2.size)
  | .access (.put buf) eid => (server.put now eid buf, .done)
  | .remove eid => ((server.remove eid).2, .done)
  | .flush _ => (server, .done)

/-- Some calls that are executed at the server. -/
def ExtentServer.runDirect (server : ExtentServer) :
    List (UInt32 × ClientCall) → ExtentServer × List Outcome
  | [] => (server, [])
  | (now, call) :: calls =>
    let (server, outcome) := server.direct now call
    let (server, outcomes) := server.runDirect calls
    (server, outcome :: outcomes)

/-! ## The calls and the functions of the client -/

variable {s : Session} {d : ExtentServer}

/-- With a cached copy the function makes no call of the server. -/
theorem access_cached {eid : ExtentId} {extent : CachedExtentInfo}
    (h : s.client.extent_list eid = some extent) (t : ℕ) (op : Op) (now : UInt32) :
    s.client.access t op eid now = ((s.access now op eid).1.client, some extent) ∧
      (s.access now op eid).1.server = s.server := by
  simp only [ExtentClient.access, Session.access, h, and_self]

/-- Without a copy the function makes the two calls, and then does what it does to the copy that
they fetched. -/
theorem access_fetched {eid : ExtentId} (h : s.client.extent_list eid = none) (t : ℕ) (op : Op)
    (now : UInt32) : ∃ c₁ c₂ c₃ ret buf ret' attr,
      s.client.access t op eid now = (c₁, none) ∧
      c₁.rpc s.server now = some (c₂, (s.access now op eid).1.server) ∧
      c₂.rpc (s.access now op eid).1.server now = some (c₃, (s.access now op eid).1.server) ∧
      c₃.sync_root = some (.fetched t op eid ret buf ret' attr) ∧
      (s.access now op eid).1.client.extent_list =
        (c₃.install eid (op.apply now ⟨false, attr, buf⟩)).extent_list ∧
      (s.access now op eid).2 = op.outcome ret ret' ⟨false, attr, buf⟩ := by
  simp only [ExtentClient.access, Session.access, h]
  exact ⟨_, _, _, _, _, _, _, rfl, rfl, rfl, rfl, rfl, rfl⟩

/-- A call leaves the other extents as they are, at the client and at the server. -/
theorem Session.call_of_ne (s : Session) (now : UInt32) (call : ClientCall) {eid : ExtentId}
    (h : eid ≠ call.eid) : (s.call now call).1.client.extent_list eid = s.client.extent_list eid ∧
      (s.call now call).1.server.content eid = s.server.content eid := by
  cases call with
  | access op i =>
    simp only [Session.call, Session.access]
    cases s.client.extent_list i with
    | none => exact ⟨Function.update_of_ne h _ _, congrFun (s.server.content_get now i) eid⟩
    | some extent => exact ⟨Function.update_of_ne h _ _, rfl⟩
  | remove i =>
    simp only [Session.call, Session.remove]
    cases s.client.extent_list i with
    | none => exact ⟨rfl, rfl⟩
    | some extent =>
      refine ⟨Function.update_of_ne h _ _, ?_⟩
      rw [ExtentServer.content_remove]
      exact Function.update_of_ne h _ _
  | flush i =>
    simp only [Session.call, Session.flush]
    cases s.client.extent_list i with
    | none => exact ⟨rfl, rfl⟩
    | some extent =>
      refine ⟨Function.update_of_ne h _ _, ?_⟩
      dsimp only
      split_ifs
      · rw [ExtentServer.content_put]
        exact Function.update_of_ne h _ _
      · rfl

/-! ## What a caller can tell of the server -/

namespace ExtentServer

/-- The content and the size of an extent. -/
def view (s : ExtentServer) (eid : ExtentId) : Option (Buf × UInt32) :=
  (s.extent_map eid).map fun file => (file.file_buf, file.attributes.size)

/-- The content is the first part of what a caller can tell. -/
theorem content_eq_view (s : ExtentServer) (eid : ExtentId) :
    s.content eid = (s.view eid).map Prod.fst := by
  unfold content view
  rw [Option.map_map]
  rfl

/-- What `put` changes. -/
theorem view_put (s : ExtentServer) (now : UInt32) (id : ExtentId) (buf : Buf) :
    (s.put now id buf).view =
      Function.update s.view id (some (buf, UInt32.ofNat buf.length)) := by
  funext i
  by_cases hi : i = id
  · subst hi
    simp [view, put, Attr.written]
  · simp [view, put, hi]

/-- `get` changes nothing that a caller can tell. -/
theorem view_get (s : ExtentServer) (now : UInt32) (id : ExtentId) :
    (s.get now id).2.2.view = s.view := by
  unfold get
  cases hfile : s.extent_map id with
  | none => rfl
  | some file =>
    funext i
    by_cases hi : i = id
    · subst hi
      simp [view, hfile]
    · simp [view, hi]

/-- What `remove` changes. -/
theorem view_remove (s : ExtentServer) (id : ExtentId) :
    (s.remove id).2.view = Function.update s.view id none := by
  unfold remove
  cases hfile : s.extent_map id with
  | none =>
    have hnone : s.view id = none := by rw [view, hfile, Option.map_none]
    exact (Function.update_eq_self_iff.mpr hnone.symm).symm
  | some file =>
    funext i
    by_cases hi : i = id
    · subst hi
      simp [view]
    · simp [view, hi]

/-- The status of a call that reads an extent. -/
def status (s : ExtentServer) (eid : ExtentId) : Status :=
  if (s.view eid).isSome then .OK else .IOERR

/-- What `get` returns. -/
theorem get_eq (s : ExtentServer) (now : UInt32) (id : ExtentId) :
    (s.get now id).1 = s.status id ∧ (s.get now id).2.1 = ((s.view id).getD ([], 0)).1 := by
  unfold get status view
  cases s.extent_map id with
  | none => exact ⟨rfl, rfl⟩
  | some file => exact ⟨rfl, rfl⟩

/-- What `getattr` returns. -/
theorem getattr_eq (s : ExtentServer) (id : ExtentId) :
    (s.getattr id).1 = s.status id ∧ (s.getattr id).2.size = ((s.view id).getD ([], 0)).2 := by
  unfold getattr status view
  cases s.extent_map id with
  | none => exact ⟨rfl, rfl⟩
  | some file => exact ⟨rfl, rfl⟩

end ExtentServer

/-! ## The simulation -/

/-- The copy of an extent next to what is stored at the server, and what the extent actually is. A
copy that was written is what the extent is. Another copy is what is stored, with the empty content
for an extent that does not exist. -/
def Tracks (copy : Option CachedExtentInfo) (stored actual : Option (Buf × UInt32)) : Prop :=
  match copy with
  | none => stored = actual
  | some extent =>
    if extent.is_dirty then
      actual = some (extent.buf, extent.attr.size) ∧
        extent.attr.size = UInt32.ofNat extent.buf.length
    else stored = actual ∧ (extent.buf, extent.attr.size) = actual.getD ([], 0)

/-- The session stands for the server `d` of a direct execution. -/
def Sim (s : Session) (d : ExtentServer) : Prop :=
  ∀ eid, Tracks (s.client.extent_list eid) (s.server.view eid) (d.view eid)

/-- A client that has just started. -/
theorem sim_start (server : ExtentServer) : Sim (.start server) server := fun _ => rfl

/-- A call in whose case the cache is as good as the server: no `get` or `getattr` finds a copy that
was fetched of an extent that does not exist, and no `remove` is for an extent that exists and is
not cached. -/
def Plain (s : Session) : ClientCall → Prop
  | .access (.put _) _ | .flush _ => True
  | .access .get eid | .access .getattr eid => ∀ extent ∈ s.client.extent_list eid,
      extent.is_dirty = true ∨ (s.server.content eid).isSome
  | .remove eid => (s.client.extent_list eid).isSome ∨ s.server.content eid = none

instance (s : Session) : ∀ call, Decidable (Plain s call)
  | .access (.put _) _ | .flush _ => inferInstanceAs (Decidable True)
  | .access .get eid | .access .getattr eid => inferInstanceAs
      (Decidable (∀ extent ∈ s.client.extent_list eid,
        extent.is_dirty = true ∨ (s.server.content eid).isSome))
  | .remove eid => inferInstanceAs
      (Decidable ((s.client.extent_list eid).isSome ∨ s.server.content eid = none))

section Step

variable {s : Session} {d : ExtentServer} {stored actual : Option (Buf × UInt32)}
  {extent : CachedExtentInfo}

/-- One extent changes at the client, at its server and at the other server. -/
theorem Sim.update (h : Sim s d) (eid : ExtentId) {s' : Session} {d' : ExtentServer}
    {copy : Option CachedExtentInfo}
    (hcopy : s'.client.extent_list = Function.update s.client.extent_list eid copy)
    (hstored : s'.server.view = Function.update s.server.view eid stored)
    (hactual : d'.view = Function.update d.view eid actual) (ht : Tracks copy stored actual) :
    Sim s' d' := by
  intro i
  rw [hcopy, hstored, hactual]
  by_cases hi : i = eid
  · rw [hi]
    simpa only [Function.update_self] using ht
  · simpa only [Function.update_of_ne hi] using h i

/-- A copy that the client has, or fetches now, next to what the extent is. -/
theorem Sim.copy (h : Sim s d) (now : UInt32) (op : Op) (eid : ExtentId) :
    ∃ extent ret, (s.access now op eid).2 = op.outcome ret ret extent ∧
      (s.access now op eid).1.client = s.client.install eid (op.apply now extent) ∧
      (s.access now op eid).1.server.view = s.server.view ∧
      Tracks (some extent) (s.server.view eid) (d.view eid) ∧
      (s.client.extent_list eid = some extent ∧ ret = .OK ∨
        s.client.extent_list eid = none ∧ ret = d.status eid) := by
  have heid := h eid
  unfold Session.access
  cases hc : s.client.extent_list eid with
  | some extent =>
    rw [hc] at heid
    exact ⟨extent, .OK, rfl, rfl, rfl, heid, Or.inl ⟨rfl, rfl⟩⟩
  | none =>
    rw [hc] at heid
    -- The copy is fetched, and both calls return the status of the extent.
    have hview : s.server.view eid = d.view eid := heid
    have hstatus : s.server.status eid = d.status eid := by
      unfold ExtentServer.status
      rw [hview]
    obtain ⟨hget, hbuf⟩ := s.server.get_eq now eid
    obtain ⟨hattr, hsize⟩ := (s.server.get now eid).2.2.getattr_eq eid
    have hstatus' : ((s.server.get now eid).2.2).status eid = s.server.status eid := by
      unfold ExtentServer.status
      rw [s.server.view_get]
    rw [s.server.view_get] at hsize
    refine ⟨⟨false, ((s.server.get now eid).2.2.getattr eid).2, (s.server.get now eid).2.1⟩,
      d.status eid, ?_, rfl, s.server.view_get now eid, ?_, Or.inr ⟨rfl, rfl⟩⟩
    · dsimp only
      rw [hget, hattr, hstatus', hstatus]
    · refine ⟨hview, ?_⟩
      rw [hbuf, hsize, hview]

/-- What a copy that was read tells: with the status of the extent it is what the server returns. -/
theorem Tracks.read (h : Tracks (some extent) stored actual) :
    (extent.buf, extent.attr.size) = actual.getD ([], 0) := by
  unfold Tracks at h
  dsimp only at h
  split_ifs at h
  · rw [h.1, Option.getD_some]
  · exact h.2

/-- A new time of access changes nothing. -/
theorem Tracks.accessed (h : Tracks (some extent) stored actual) (now : UInt32) :
    Tracks (some (Op.get.apply now extent)) stored actual := h

/-- The status that `get` and `getattr` return in a plain call. -/
theorem Sim.status_eq (h : Sim s d) {eid : ExtentId} (hc : s.client.extent_list eid = some extent) :
    d.status eid = .OK ↔ extent.is_dirty = true ∨ (s.server.content eid).isSome := by
  have heid := h eid
  rw [hc] at heid
  unfold Tracks at heid
  dsimp only at heid
  unfold ExtentServer.status
  rw [ExtentServer.content_eq_view, Option.isSome_map]
  split_ifs at heid with hd
  · simp [heid.1, hd]
  · rw [heid.1]
    simp [hd, Option.isSome_iff_ne_none]

/-- A call of `get`, `getattr` or `put` keeps the simulation. -/
theorem Sim.access (h : Sim s d) (now : UInt32) (op : Op) (eid : ExtentId) :
    Sim (s.access now op eid).1 (d.direct now (.access op eid)).1 := by
  obtain ⟨extent, ret, -, hclient, hview, htracks, -⟩ := h.copy now op eid
  have hcopy : (s.access now op eid).1.client.extent_list =
      Function.update s.client.extent_list eid (some (op.apply now extent)) := by
    rw [hclient]
    rfl
  have hstored : (s.access now op eid).1.server.view =
      Function.update s.server.view eid (s.server.view eid) := by
    rw [hview, Function.update_eq_self]
  cases op with
  | get =>
    refine h.update eid hcopy hstored ?_ (htracks.accessed now)
    rw [Function.update_eq_self]
    exact d.view_get now eid
  | getattr =>
    refine h.update eid hcopy hstored ?_ htracks
    rw [Function.update_eq_self]
    rfl
  | put buf => exact h.update eid hcopy hstored (d.view_put now eid buf) ⟨rfl, rfl⟩

/-- A plain call of `get`, `getattr` or `put` returns what the direct execution returns, and another
one returns something else. -/
theorem Sim.access_outcome (h : Sim s d) (now : UInt32) (op : Op) (eid : ExtentId) :
    (s.access now op eid).2 = (d.direct now (.access op eid)).2 ↔ Plain s (.access op eid) := by
  obtain ⟨extent, ret, hout, -, -, htracks, hret⟩ := h.copy now op eid
  have hread := htracks.read
  -- The data are those of the extent, so that the status decides.
  have hstatus : ret = d.status eid ↔ ∀ extent ∈ s.client.extent_list eid,
      extent.is_dirty = true ∨ (s.server.content eid).isSome := by
    rcases hret with ⟨hc, rfl⟩ | ⟨hc, rfl⟩
    · simp only [hc, Option.mem_some_iff, forall_eq', ← h.status_eq hc]
      exact eq_comm
    · simp [hc]
  rw [hout]
  cases op with
  | get =>
    obtain ⟨hget, hbuf⟩ := d.get_eq now eid
    show Outcome.get ret extent.buf = .get _ _ ↔ _
    rw [hget, hbuf, ← hread]
    simpa [Plain] using hstatus
  | getattr =>
    obtain ⟨hget, hsize⟩ := d.getattr_eq eid
    show Outcome.getattr ret extent.attr.size = .getattr _ _ ↔ _
    rw [hget, hsize, ← hread]
    simpa [Plain] using hstatus
  | put buf => exact ⟨fun _ => trivial, fun _ => rfl⟩

/-- A plain `remove` keeps the simulation. -/
theorem Sim.remove (h : Sim s d) {eid : ExtentId} (hplain : Plain s (.remove eid)) :
    Sim (s.remove eid) (d.remove eid).2 := by
  have heid := h eid
  unfold Session.remove
  cases hc : s.client.extent_list eid with
  | some extent => exact h.update eid rfl (s.server.view_remove eid) (d.view_remove eid) rfl
  | none =>
    -- The extent does not exist, and stays so.
    rw [hc] at heid
    have hnone : s.server.content eid = none := by
      rcases hplain with hsome | hnone
      · rw [hc] at hsome
        cases hsome
      · exact hnone
    rw [ExtentServer.content_eq_view, Option.map_eq_none_iff] at hnone
    have hview : s.server.view eid = d.view eid := heid
    refine h.update eid (Function.update_eq_self _ _).symm
      (Function.update_eq_self _ _).symm (d.view_remove eid) ?_
    rw [hc, hnone]
    rfl

/-- A `flush` keeps the simulation, and the extent is not cached after it. -/
theorem Sim.flush (h : Sim s d) (now : UInt32) (eid : ExtentId) :
    Sim (s.flush now eid) d ∧
      (s.flush now eid).client.extent_list = Function.update s.client.extent_list eid none := by
  have heid := h eid
  unfold Session.flush
  cases hc : s.client.extent_list eid with
  | none =>
    refine ⟨h, ?_⟩
    rw [← hc, Function.update_eq_self]
    rw [hc]
  | some extent =>
    refine ⟨?_, rfl⟩
    rw [hc] at heid
    unfold Tracks at heid
    dsimp only at heid ⊢
    split_ifs at heid ⊢ with hd
    · refine h.update eid rfl (s.server.view_put now eid _)
        (Function.update_eq_self _ _).symm ?_
      rw [heid.1, heid.2]
      rfl
    · exact h.update eid rfl (Function.update_eq_self _ _).symm
        (Function.update_eq_self _ _).symm heid.1

/-- After every copy is flushed, the server has the contents of the direct execution. -/
theorem Sim.flushAll (h : Sim s d) (now : UInt32) {eids : List ExtentId}
    (heids : ∀ eid, (s.client.extent_list eid).isSome → eid ∈ eids) :
    (s.flushAll now eids).server.content = d.content := by
  induction eids generalizing s with
  | nil =>
    funext eid
    have hnone : s.client.extent_list eid = none := by
      by_contra hne
      exact List.not_mem_nil (heids eid (Option.isSome_iff_ne_none.mpr hne))
    have heid := h eid
    rw [hnone] at heid
    have hview : s.server.view eid = d.view eid := heid
    show s.server.content eid = d.content eid
    rw [ExtentServer.content_eq_view, ExtentServer.content_eq_view, hview]
  | cons eid eids ih =>
    obtain ⟨hsim, hlist⟩ := h.flush now eid
    refine ih hsim fun i hi => ?_
    rw [hlist] at hi
    by_cases hieq : i = eid
    · rw [hieq, Function.update_self] at hi
      cases hi
    · rw [Function.update_of_ne hieq] at hi
      exact (List.mem_cons.mp (heids i hi)).resolve_left hieq

/-- A plain call keeps the simulation. -/
theorem Sim.call (h : Sim s d) {now : UInt32} {call : ClientCall} (hplain : Plain s call) :
    (s.call now call).2 = (d.direct now call).2 ∧
      Sim (s.call now call).1 (d.direct now call).1 := by
  cases call with
  | access op eid => exact ⟨(h.access_outcome now op eid).mpr hplain, h.access now op eid⟩
  | remove eid => exact ⟨rfl, h.remove hplain⟩
  | flush eid => exact ⟨rfl, (h.flush now eid).1⟩

end Step

/-! ## Transparency -/

/-- A client in the session `s` that makes the calls, next to a direct execution from `d`: callers
read the same, and after every cached copy is flushed the server has the same contents. -/
structure Agree (s : Session) (d : ExtentServer) (calls : List (UInt32 × ClientCall)) : Prop where
  /-- Callers read the same. -/
  outcomes : (s.run calls).2 = (d.runDirect calls).2
  /-- The contents are the same after every cached copy is flushed. -/
  contents : ∀ now eids, (∀ eid, ((s.run calls).1.client.extent_list eid).isSome → eid ∈ eids) →
    ((s.run calls).1.flushAll now eids).server.content = (d.runDirect calls).1.content

/-- The cache is invisible in some calls of a client that has just started, at a server with any
extents. -/
def Transparent (server : ExtentServer) (calls : List (UInt32 × ClientCall)) : Prop :=
  Agree (.start server) server calls

/-- Every call is plain when it is made. -/
def AllPlain : Session → List (UInt32 × ClientCall) → Prop
  | _, [] => True
  | s, (now, call) :: calls => Plain s call ∧ AllPlain (s.call now call).1 calls

instance : ∀ s calls, Decidable (AllPlain s calls)
  | _, [] => inferInstanceAs (Decidable True)
  | s, (now, call) :: calls =>
    haveI : Decidable (AllPlain (s.call now call).1 calls) := instDecidableAllPlain _ calls
    inferInstanceAs (Decidable (Plain s call ∧ AllPlain (s.call now call).1 calls))

/-- No call. -/
theorem Sim.agree_nil (h : Sim s d) : Agree s d [] :=
  ⟨rfl, fun now _ heids => h.flushAll now heids⟩

/-- One more call in front. -/
theorem agree_cons {now : UInt32} {call : ClientCall} {calls : List (UInt32 × ClientCall)} :
    Agree s d ((now, call) :: calls) ↔
      (s.call now call).2 = (d.direct now call).2 ∧
        Agree (s.call now call).1 (d.direct now call).1 calls := by
  constructor
  · intro h
    obtain ⟨hhead, htail⟩ := List.cons.inj h.outcomes
    exact ⟨hhead, htail, h.contents⟩
  · rintro ⟨hhead, h⟩
    refine ⟨?_, h.contents⟩
    have hlist : (s.call now call).2 :: ((s.call now call).1.run calls).2 =
        (d.direct now call).2 :: ((d.direct now call).1.runDirect calls).2 := by
      rw [hhead, h.outcomes]
    exact hlist

/-- The extents that are cached in a session are finitely many. -/
def Session.Bounded (s : Session) : Prop :=
  ∃ eids : List ExtentId, ∀ eid, (s.client.extent_list eid).isSome → eid ∈ eids

/-- A copy more or less. -/
theorem Session.Bounded.update {s s' : Session} (h : s.Bounded) {eid : ExtentId}
    {copy : Option CachedExtentInfo}
    (hs : s'.client.extent_list = Function.update s.client.extent_list eid copy) : s'.Bounded := by
  obtain ⟨eids, heids⟩ := h
  refine ⟨eid :: eids, fun i hi => ?_⟩
  by_cases hieq : i = eid
  · exact hieq ▸ List.mem_cons_self
  · rw [hs, Function.update_of_ne hieq] at hi
    exact List.mem_cons_of_mem _ (heids i hi)

/-- A call leaves finitely many extents cached. -/
theorem Session.Bounded.call (h : s.Bounded) (now : UInt32) (call : ClientCall) :
    (s.call now call).1.Bounded := by
  cases call with
  | access op eid =>
    simp only [Session.call, Session.access]
    split
    · exact h.update rfl
    · exact h.update rfl
  | remove eid =>
    simp only [Session.call, Session.remove]
    split
    · exact h
    · exact h.update rfl
  | flush eid =>
    simp only [Session.call, Session.flush]
    split
    · exact h
    · exact h.update rfl

/-- A call after which the session and the direct execution agree was plain. -/
theorem Sim.plain_of_agree (h : Sim s d) (hb : s.Bounded) {now : UInt32} {call : ClientCall}
    (hagree : Agree s d [(now, call)]) : Plain s call := by
  obtain ⟨hout, hnil⟩ := agree_cons.mp hagree
  cases call with
  | access op eid => exact (h.access_outcome now op eid).mp hout
  | flush eid => trivial
  | remove eid =>
    by_contra hno
    unfold Plain at hno
    rw [not_or, Option.not_isSome_iff_eq_none] at hno
    obtain ⟨hc, hne⟩ := hno
    -- The client did nothing, and after a flush the extent is still there.
    have hsame : s.remove eid = s := by
      unfold Session.remove
      rw [hc]
    obtain ⟨eids, heids⟩ := hb
    have hcontent := hnil.contents 0 eids
    simp only [Session.call, hsame] at hcontent
    have hkept : d.content = (d.remove eid).2.content :=
      (h.flushAll 0 heids).symm.trans (hcontent heids)
    have hgone : d.content eid = none := by
      rw [hkept, ExtentServer.content_remove, Function.update_self]
    have heid := h eid
    rw [hc] at heid
    have hview : s.server.view eid = d.view eid := heid
    rw [ExtentServer.content_eq_view, ← hview, ← ExtentServer.content_eq_view] at hgone
    exact hne hgone

/-- From a session that stands for the server `d`, the first calls agree for every number of them
exactly when all calls are plain. -/
theorem agree_iff (h : Sim s d) (hb : s.Bounded) (calls : List (UInt32 × ClientCall)) :
    (∀ before, before <+: calls → Agree s d before) ↔ AllPlain s calls := by
  induction calls generalizing s d with
  | nil =>
    refine ⟨fun _ => trivial, fun _ before hbefore => ?_⟩
    rw [List.prefix_nil.mp hbefore]
    exact h.agree_nil
  | cons head calls ih =>
    obtain ⟨now, call⟩ := head
    constructor
    · intro hall
      have hone : Agree s d [(now, call)] := hall _ (List.prefix_append [(now, call)] calls)
      have hplain := h.plain_of_agree hb hone
      refine ⟨hplain, (ih (h.call hplain).2 (hb.call now call)).mp fun before hbefore => ?_⟩
      exact (agree_cons.mp (hall _ ((List.prefix_cons_inj (now, call)).mpr hbefore))).2
    · rintro ⟨hplain, hrest⟩ before hbefore
      have hstep : (s.call now call).2 = (d.direct now call).2 ∧
          Sim (s.call now call).1 (d.direct now call).1 := h.call hplain
      obtain ⟨hout, hsim⟩ := hstep
      cases before with
      | nil => exact h.agree_nil
      | cons head' before =>
        obtain ⟨rfl, htail⟩ := List.cons_prefix_cons.mp hbefore
        exact agree_cons.mpr ⟨hout, (ih hsim (hb.call now call)).mpr hrest before htail⟩

/-- The cache of a client is invisible, in some calls and in all that come before one of them,
exactly when every call is plain. -/
theorem transparent_iff (server : ExtentServer) (calls : List (UInt32 × ClientCall)) :
    (∀ before, before <+: calls → Transparent server before) ↔ AllPlain (.start server) calls :=
  agree_iff (sim_start server) ⟨[], nofun⟩ calls

/-- The second `get` of an extent that does not exist finds the copy that the first one left. -/
theorem second_get_succeeds :
    ¬ Transparent ⟨fun _ => none⟩ [(0, .access .get 5), (0, .access .get 5)] := by
  intro h
  exact absurd h.outcomes (by decide)

end SimpleDfs.Extent
