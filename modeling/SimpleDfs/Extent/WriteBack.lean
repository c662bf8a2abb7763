import Mathlib.Data.List.Induction
import SimpleDfs.Extent.Transparency

/-!
# What is written back

The calls of one client at a server that nobody else changes, whether they are plain or not. The
logical content of an extent is that of the copy, or of the server when there is no copy. For an
extent that exists only `put` and `remove` change it: a copy that was written is not lost, and one
that was not is what the server has (`write_back_invariant`).

The invariant is the simulation of `Transparency.lean`. The server that the session stands for has
the logical contents; a `remove` of an extent that is not cached, which has no effect, is left out
there as well (`Sim.exists_call`).

Only the content is written back. The server stamps the extent with the time of the `flush`, so that
the times that the client reported before are lost, unless the `flush` is made in the same second
as the `put` (`attributes_handed_over_iff`).
-/

namespace SimpleDfs.Extent

/-! ## Servers -/

namespace ExtentServer

/-- A server at which anybody has stored, read and removed extents. -/
inductive Reached : ExtentServer → Prop
  /-- The server has just started. -/
  | construct (now : UInt32) : Reached (construct now)
  /-- An extent is put. -/
  | put {s : ExtentServer} (h : Reached s) (now : UInt32) (id : ExtentId) (buf : Buf) :
    Reached (s.put now id buf)
  /-- An extent is read; `getattr` changes nothing. -/
  | get {s : ExtentServer} (h : Reached s) (now : UInt32) (id : ExtentId) :
    Reached (s.get now id).2.2
  /-- An extent is removed. -/
  | remove {s : ExtentServer} (h : Reached s) (id : ExtentId) : Reached (s.remove id).2

/-- The size of every extent is the length of its content. -/
def Sized (s : ExtentServer) : Prop := ∀ id, ∀ v ∈ s.view id, v.2.toNat = v.1.length

/-- One extent changes, and what holds of all extents still does. -/
theorem forall_view_update {P : Buf × UInt32 → Prop} {s s' : ExtentServer} {id : ExtentId}
    {new : Option (Buf × UInt32)} (hs : s'.view = Function.update s.view id new)
    (h : ∀ i, ∀ v ∈ s.view i, P v) (hnew : ∀ v ∈ new, P v) : ∀ i, ∀ v ∈ s'.view i, P v := by
  intro i
  rw [hs]
  by_cases hi : i = id
  · rw [hi, Function.update_self]
    exact hnew
  · rw [Function.update_of_ne hi]
    exact h i

/-- A content of less than 4 GiB has its length for its size. -/
theorem toNat_size {buf : Buf} (h : buf.length < 4294967296) :
    (UInt32.ofNat buf.length).toNat = buf.length := UInt32.toNat_ofNat_of_lt h

variable {s : ExtentServer}

/-- A `put` of a short content. -/
theorem Sized.put (h : s.Sized) (now : UInt32) (id : ExtentId) {buf : Buf}
    (hbuf : buf.length < 4294967296) : (s.put now id buf).Sized := by
  refine forall_view_update (s.view_put now id buf) h fun v hv => ?_
  obtain rfl := Option.some.inj hv
  exact toNat_size hbuf

/-- A `remove`. -/
theorem Sized.remove (h : s.Sized) (id : ExtentId) : (s.remove id).2.Sized :=
  forall_view_update (s.view_remove id) h nofun

/-- The size that was stored with a content is its length, as a 32-bit number. -/
theorem Reached.size_eq (h : s.Reached) :
    ∀ id, ∀ v ∈ s.view id, v.2 = UInt32.ofNat v.1.length := by
  induction h with
  | construct now =>
    refine forall_view_update (view_put _ now ROOTDIR []) nofun fun v hv => ?_
    rw [← Option.some.inj hv]
  | put h now id buf ih =>
    refine forall_view_update (view_put _ now id buf) ih fun v hv => ?_
    rw [← Option.some.inj hv]
  | get h now id ih =>
    rw [view_get]
    exact ih
  | remove h id ih => exact forall_view_update (view_remove _ id) ih nofun

/-- The sizes at a server whose contents are short. -/
theorem Reached.sized (h : s.Reached)
    (hshort : ∀ id buf, s.content id = some buf → buf.length < 4294967296) : s.Sized := by
  intro id v hv
  have hcontent : s.content id = some v.1 := by
    rw [content_eq_view, hv]
    rfl
  rw [h.size_eq id v hv]
  exact toNat_size (hshort id v.1 hcontent)

end ExtentServer

/-! ## Sessions -/

namespace Session

/-- The session after some calls. -/
def after (s : Session) (calls : List (UInt32 × ClientCall)) : Session := (s.run calls).1

/-- One call, and then the others. -/
theorem after_cons (s : Session) (now : UInt32) (call : ClientCall)
    (calls : List (UInt32 × ClientCall)) :
    s.after ((now, call) :: calls) = (s.call now call).1.after calls := rfl

/-- Some calls, and then some others. -/
theorem after_append (s : Session) (calls calls' : List (UInt32 × ClientCall)) :
    s.after (calls ++ calls') = (s.after calls).after calls' := by
  induction calls generalizing s with
  | nil => rfl
  | cons head calls ih => exact ih (s.call head.1 head.2).1

/-- The size of every copy and of every extent at the server is the length of its content, as a
32-bit number. -/
structure Measured (s : Session) : Prop where
  /-- The copies. -/
  copy : ∀ eid extent, s.client.extent_list eid = some extent →
    extent.attr.size = UInt32.ofNat extent.buf.length
  /-- The server. -/
  server : ∀ eid, ∀ v ∈ s.server.view eid, v.2 = UInt32.ofNat v.1.length

namespace Measured

variable {s : Session}

/-- The copy that is fetched of an extent. -/
theorem fetched (h : s.Measured) (now : UInt32) (eid : ExtentId) :
    ((s.server.get now eid).2.2.getattr eid).2.size =
      UInt32.ofNat (s.server.get now eid).2.1.length := by
  obtain ⟨-, hsize⟩ := (s.server.get now eid).2.2.getattr_eq eid
  rw [hsize, (s.server.get_eq now eid).2, ExtentServer.view_get]
  cases hview : s.server.view eid with
  | none => rfl
  | some v => exact h.server eid v hview

/-- One copy changes. -/
theorem copy_update {s' : Session} (h : s.Measured) {eid : ExtentId}
    {copy : Option CachedExtentInfo}
    (hlist : s'.client.extent_list = Function.update s.client.extent_list eid copy)
    (hcopy : ∀ extent ∈ copy, extent.attr.size = UInt32.ofNat extent.buf.length) :
    ∀ i extent, s'.client.extent_list i = some extent →
      extent.attr.size = UInt32.ofNat extent.buf.length := by
  intro i extent hextent
  rw [hlist] at hextent
  by_cases hi : i = eid
  · rw [hi, Function.update_self] at hextent
    exact hcopy extent hextent
  · rw [Function.update_of_ne hi] at hextent
    exact h.copy i extent hextent

/-- The functions of the client keep the size of a copy right. -/
theorem apply_size (op : Op) (now : UInt32) {extent : CachedExtentInfo}
    (h : extent.attr.size = UInt32.ofNat extent.buf.length) :
    (op.apply now extent).attr.size = UInt32.ofNat (op.apply now extent).buf.length := by
  cases op with
  | get => exact h
  | getattr => exact h
  | put buf => rfl

/-- A call keeps the sizes right. -/
theorem call (h : s.Measured) (now : UInt32) (call : ClientCall) :
    (s.call now call).1.Measured := by
  have hnone : ∀ extent ∈ (none : Option CachedExtentInfo),
      extent.attr.size = UInt32.ofNat extent.buf.length := nofun
  cases call with
  | access op eid =>
    show (s.access now op eid).1.Measured
    unfold Session.access
    cases hcopy : s.client.extent_list eid with
    | none =>
      refine ⟨h.copy_update rfl fun extent hextent => ?_, ?_⟩
      · rw [← Option.some.inj hextent]
        exact apply_size op now (h.fetched now eid)
      · dsimp only
        rw [ExtentServer.view_get]
        exact h.server
    | some extent =>
      refine ⟨h.copy_update rfl fun extent' hextent => ?_, h.server⟩
      rw [← Option.some.inj hextent]
      exact apply_size op now (h.copy eid extent hcopy)
  | remove eid =>
    show (s.remove eid).Measured
    unfold Session.remove
    cases s.client.extent_list eid with
    | none => exact h
    | some extent =>
      refine ⟨h.copy_update rfl hnone, ?_⟩
      exact ExtentServer.forall_view_update (s.server.view_remove eid) h.server nofun
  | flush eid =>
    show (s.flush now eid).Measured
    unfold Session.flush
    cases s.client.extent_list eid with
    | none => exact h
    | some extent =>
      refine ⟨h.copy_update rfl hnone, ?_⟩
      dsimp only
      split_ifs
      · refine ExtentServer.forall_view_update (s.server.view_put now eid extent.buf) h.server
          fun v hv => ?_
        rw [← Option.some.inj hv]
      · exact h.server

end Measured

/-- The logical content of an extent: that of the copy, or of the server when there is none. -/
def logical (s : Session) (eid : ExtentId) : Option Buf :=
  match s.client.extent_list eid with
  | some extent => some extent.buf
  | none => s.server.content eid

end Session

section Sim

variable {s : Session} {d : ExtentServer} {eid : ExtentId}

/-- A copy has the size of its content. -/
theorem Sim.size (h : Sim s d) (hd : d.Sized) {extent : CachedExtentInfo}
    (hcopy : s.client.extent_list eid = some extent) :
    extent.attr.size.toNat = extent.buf.length := by
  have htracks := h eid
  rw [hcopy] at htracks
  have hread : (extent.buf, extent.attr.size) = (d.view eid).getD ([], 0) := htracks.read
  cases hview : d.view eid with
  | none =>
    rw [hview, Option.getD_none, Prod.mk.injEq] at hread
    rw [hread.1, hread.2]
    rfl
  | some v =>
    rw [hview, Option.getD_some] at hread
    rw [← hread] at hview
    exact hd eid _ hview

/-- An extent that the server has is one of the logical contents. -/
theorem Sim.isSome_view (h : Sim s d) (hserver : (s.server.content eid).isSome) :
    (d.view eid).isSome := by
  have htracks := h eid
  rw [ExtentServer.content_eq_view, Option.isSome_map] at hserver
  unfold Tracks at htracks
  cases hcopy : s.client.extent_list eid with
  | none =>
    rw [hcopy] at htracks
    rwa [← show s.server.view eid = d.view eid from htracks]
  | some extent =>
    rw [hcopy] at htracks
    dsimp only at htracks
    split_ifs at htracks
    · rw [htracks.1]
      rfl
    · rwa [← htracks.1]

/-- The logical content of an extent that exists. -/
theorem Sim.logical_eq (h : Sim s d) (hsome : (d.view eid).isSome) :
    s.logical eid = d.content eid := by
  obtain ⟨v, hv⟩ := Option.isSome_iff_exists.mp hsome
  have htracks := h eid
  unfold Session.logical
  rw [d.content_eq_view, hv, Option.map_some]
  cases hcopy : s.client.extent_list eid with
  | none =>
    rw [hcopy] at htracks
    have hview : s.server.view eid = d.view eid := htracks
    rw [ExtentServer.content_eq_view, hview, hv, Option.map_some]
  | some extent =>
    rw [hcopy] at htracks
    have hread : (extent.buf, extent.attr.size) = (d.view eid).getD ([], 0) := htracks.read
    rw [hv, Option.getD_some] at hread
    rw [← hread]

/-- A copy that was not written is what the server has. -/
theorem Sim.clean (h : Sim s d) (hsome : (d.view eid).isSome) {extent : CachedExtentInfo}
    (hcopy : s.client.extent_list eid = some extent) (hclean : extent.is_dirty = false) :
    s.server.content eid = some extent.buf := by
  obtain ⟨v, hv⟩ := Option.isSome_iff_exists.mp hsome
  have htracks := h eid
  rw [hcopy] at htracks
  unfold Tracks at htracks
  dsimp only at htracks
  rw [hclean, if_neg Bool.false_ne_true, hv, Option.getD_some] at htracks
  rw [ExtentServer.content_eq_view, htracks.1, ← htracks.2]
  rfl

/-- What a call of a client does to the logical contents, which are those of `d` before it and those
of `d'` after it. -/
structure Changes (call : ClientCall) (d d' : ExtentServer) : Prop where
  /-- An extent changes by a `put` and a `remove` only. -/
  frame : ∀ eid, (∀ buf, call ≠ .access (.put buf) eid) → call ≠ .remove eid →
    d'.view eid = d.view eid
  /-- After a `put` the extent exists. -/
  new : ∀ buf eid, call = .access (.put buf) eid → (d'.view eid).isSome
  /-- The sizes stay right, when what is put is short. -/
  sized : (∀ buf eid, call = .access (.put buf) eid → buf.length < 4294967296) → d.Sized → d'.Sized

/-- A call after which the logical contents are the same. -/
theorem Changes.of_view_eq {call : ClientCall} {d' : ExtentServer} (hview : d'.view = d.view)
    (hput : ∀ buf eid, call ≠ .access (.put buf) eid) : Changes call d d' where
  frame eid _ _ := by rw [hview]
  new buf eid heq := absurd heq (hput buf eid)
  sized _ hd := by
    unfold ExtentServer.Sized
    rw [hview]
    exact hd

/-- A call keeps the simulation. The logical contents change as at a server, but that a `remove` of
an extent that is not cached has no effect. -/
theorem Sim.exists_call (h : Sim s d) (now : UInt32) (call : ClientCall) :
    ∃ d', Sim (s.call now call).1 d' ∧ Changes call d d' := by
  cases call with
  | access op eid =>
    have hsim := h.access now op eid
    cases op with
    | get => exact ⟨_, hsim, .of_view_eq (d.view_get now eid) fun _ _ heq => by cases heq⟩
    | getattr => exact ⟨d, hsim, .of_view_eq rfl fun _ _ heq => by cases heq⟩
    | put buf =>
      have hview : (d.put now eid buf).view =
          Function.update d.view eid (some (buf, UInt32.ofNat buf.length)) := d.view_put now eid buf
      refine ⟨d.put now eid buf, hsim, fun i hi _ => ?_, fun buf' eid' heq => ?_, fun hput hd => ?_⟩
      · have hne : i ≠ eid := by
          rintro rfl
          exact hi buf rfl
        rw [hview, Function.update_of_ne hne]
      · cases heq
        rw [hview, Function.update_self]
        rfl
      · exact hd.put now eid (hput buf eid rfl)
  | remove eid =>
    cases hcopy : s.client.extent_list eid with
    | none =>
      -- Nothing happens.
      have hsame : (s.call now (.remove eid)).1 = s := by
        show s.remove eid = s
        rw [Session.remove, hcopy]
      rw [hsame]
      exact ⟨d, h, .of_view_eq rfl fun _ _ heq => by cases heq⟩
    | some extent =>
      have hplain : Plain s (.remove eid) := Or.inl (by rw [hcopy]; rfl)
      refine ⟨_, h.remove hplain, fun i _ hi => ?_, fun _ _ heq => ?_, fun _ hd => hd.remove eid⟩
      · have hne : i ≠ eid := by
          rintro rfl
          exact hi rfl
        rw [d.view_remove, Function.update_of_ne hne]
      · cases heq
  | flush eid => exact ⟨d, (h.flush now eid).1, .of_view_eq rfl fun _ _ heq => by cases heq⟩

end Sim

/-! ## The invariant -/

/-- The extent was put since it was last removed. -/
def PutSinceRemove (eid : ExtentId) (calls : List (UInt32 × ClientCall)) : Prop :=
  ∃ before now buf after, calls = before ++ (now, .access (.put buf) eid) :: after ∧
    ∀ call ∈ after, call.2 ≠ .remove eid

variable {eid : ExtentId} {calls : List (UInt32 × ClientCall)} {now : UInt32} {s : Session}
  {buf : Buf}

/-- One more call: it is the `put`, or the extent was put before and the call does not remove it. -/
theorem PutSinceRemove.concat {call : ClientCall}
    (h : PutSinceRemove eid (calls ++ [(now, call)])) :
    (∃ buf, call = .access (.put buf) eid) ∨ call ≠ .remove eid ∧ PutSinceRemove eid calls := by
  obtain ⟨before, now', buf, after, heq, hafter⟩ := h
  rcases List.eq_nil_or_concat after with rfl | ⟨after, last, rfl⟩
  · have hlast := (List.append_inj' heq rfl).2
    exact Or.inl ⟨buf, (Prod.mk.inj (List.cons.inj hlast).1).2⟩
  · have hsplit : calls ++ [(now, call)] =
        (before ++ (now', .access (.put buf) eid) :: after) ++ [last] := by
      rw [heq, List.concat_eq_append, List.append_assoc, List.cons_append]
    obtain ⟨hcalls, hlast⟩ := List.append_inj' hsplit rfl
    have hlast' : (now, call) = last := (List.cons.inj hlast).1
    refine Or.inr ⟨?_, before, now', buf, after, hcalls, fun c hc => hafter c ?_⟩
    · have hmem : last ∈ after.concat last := by simp
      have hne := hafter last hmem
      rwa [← hlast'] at hne
    · simp [hc]

/-- The extent exists after some calls: the server has it, or it was put since it was last
removed. -/
def Existing (server : ExtentServer) (calls : List (UInt32 × ClientCall)) (eid : ExtentId) : Prop :=
  (((Session.start server).after calls).server.content eid).isSome ∨ PutSinceRemove eid calls

/-- What holds after some calls of a client that started at the given server, and of any call that
it makes next. -/
structure WriteBack (server : ExtentServer) (calls : List (UInt32 × ClientCall)) : Prop where
  /-- The copy of an extent that exists has the size of its content. -/
  size : ∀ eid extent, ((Session.start server).after calls).client.extent_list eid = some extent →
    Existing server calls eid → extent.attr.size.toNat = extent.buf.length
  /-- A copy that was not written is what the server has. -/
  clean : ∀ eid extent, ((Session.start server).after calls).client.extent_list eid = some extent →
    Existing server calls eid → extent.is_dirty = false →
      ((Session.start server).after calls).server.content eid = some extent.buf
  /-- The logical content of an extent that exists is changed by a `put` and a `remove` of that
  extent only. -/
  logical : ∀ now call eid, Existing server calls eid → (∀ buf, call ≠ .access (.put buf) eid) →
    call ≠ .remove eid → ((Session.start server).after (calls ++ [(now, call)])).logical eid =
      ((Session.start server).after calls).logical eid
  /-- The content at the server is changed by a `flush` and a `remove` of that extent only. -/
  server : ∀ now call eid, call ≠ .flush eid → call ≠ .remove eid →
    ((Session.start server).after (calls ++ [(now, call)])).server.content eid =
      ((Session.start server).after calls).server.content eid

/-- After some calls there is a server with the logical contents, and it has every extent that
exists. -/
theorem exists_sim {server : ExtentServer} (hserver : server.Sized) (hputs : ∀ now buf eid,
      (now, ClientCall.access (.put buf) eid) ∈ calls → buf.length < 4294967296) :
    ∃ d, Sim ((Session.start server).after calls) d ∧ d.Sized ∧
      ∀ eid, Existing server calls eid → (d.view eid).isSome := by
  suffices ∃ d, Sim ((Session.start server).after calls) d ∧ d.Sized ∧
      ∀ eid, PutSinceRemove eid calls → (d.view eid).isSome by
    obtain ⟨d, hsim, hd, hput⟩ := this
    refine ⟨d, hsim, hd, fun eid hexists => ?_⟩
    rcases hexists with hserver | hsince
    · exact hsim.isSome_view hserver
    · exact hput eid hsince
  induction calls using List.reverseRecOn with
  | nil =>
    refine ⟨server, sim_start server, hserver, fun eid hput => ?_⟩
    obtain ⟨before, now, buf, after, heq, -⟩ := hput
    simp at heq
  | append_singleton calls last ih =>
    obtain ⟨now, call⟩ := last
    obtain ⟨d, hsim, hd, hexists⟩ := ih fun now' buf eid hmem =>
      hputs now' buf eid (List.mem_append_left _ hmem)
    obtain ⟨d', hsim', hchanges⟩ := hsim.exists_call now call
    rw [Session.after_append]
    refine ⟨d', hsim', hchanges.sized (fun buf eid hcall => ?_) hd, fun eid hsince => ?_⟩
    · refine hputs now buf eid (List.mem_append_right _ ?_)
      rw [hcall]
      exact List.mem_cons_self
    · by_cases hthis : ∃ buf, call = .access (.put buf) eid
      · obtain ⟨buf, hcall⟩ := hthis
        exact hchanges.new buf eid hcall
      · obtain ⟨hremove, hbefore⟩ := hsince.concat.resolve_left hthis
        rw [hchanges.frame eid (fun buf hcall => hthis ⟨buf, hcall⟩) hremove]
        exact hexists eid hbefore

/-- A call that neither flushes nor removes an extent leaves its content at the server as it is. -/
theorem Session.server_call (s : Session) (now : UInt32) {call : ClientCall}
    (hflush : call ≠ .flush eid) (hremove : call ≠ .remove eid) :
    (s.call now call).1.server.content eid = s.server.content eid := by
  by_cases hne : eid = call.eid
  · -- A function that works on the copy does not store it.
    cases call with
    | access op i =>
      show (s.access now op i).1.server.content eid = _
      unfold Session.access
      cases s.client.extent_list i with
      | none => exact congrFun (s.server.content_get now i) eid
      | some extent => rfl
    | remove i => exact absurd (congrArg ClientCall.remove hne.symm) hremove
    | flush i => exact absurd (congrArg ClientCall.flush hne.symm) hflush
  · exact (s.call_of_ne now call hne).2

/-- One client at a server that nobody else changes, with contents of less than 4 GiB: at every
point the copies are up to date, logical contents are changed by `put` and `remove` only, and the
contents at the server by `flush` and `remove`. -/
theorem write_back_invariant {server : ExtentServer} (hreached : server.Reached)
    (hshort : ∀ eid buf, server.content eid = some buf → buf.length < 4294967296)
    {calls : List (UInt32 × ClientCall)} (hputs : ∀ now buf eid,
      (now, ClientCall.access (.put buf) eid) ∈ calls → buf.length < 4294967296) :
    WriteBack server calls := by
  obtain ⟨d, hsim, hd, hexists⟩ := exists_sim (hreached.sized hshort) hputs
  constructor
  case size => exact fun eid extent hcopy _ => hsim.size hd hcopy
  case clean => exact fun eid extent hcopy he => hsim.clean (hexists eid he) hcopy
  case logical =>
    intro now call eid he hput hremove
    obtain ⟨d', hsim', hchanges⟩ := hsim.exists_call now call
    have hview : d'.view eid = d.view eid := hchanges.frame eid hput hremove
    have hsome : (d'.view eid).isSome := by
      rw [hview]
      exact hexists eid he
    rw [Session.after_append]
    calc _ = d'.content eid := hsim'.logical_eq hsome
      _ = d.content eid := by rw [d'.content_eq_view, d.content_eq_view, hview]
      _ = _ := (hsim.logical_eq (hexists eid he)).symm
  case server =>
    intro now call eid hflush hremove
    rw [Session.after_append]
    exact Session.server_call _ now hflush hremove

/-- A file is written, handed back, read again and overwritten. -/
theorem write_back_invariant_rewritten : (ExtentServer.construct 0).Reached ∧
    WriteBack (.construct 0) [(1, .access (.put ['a']) 5), (2, .flush 5), (3, .access .get 5),
      (4, .access (.put ['b', 'c']) 5)] := by
  have hreached : (ExtentServer.construct 0).Reached := .construct 0
  refine ⟨hreached, write_back_invariant hreached (fun eid buf hbuf => ?_)
    fun now buf eid hmem => ?_⟩
  · rw [ExtentServer.content_construct] at hbuf
    split_ifs at hbuf
    rw [← Option.some.inj hbuf]
    decide
  · simp at hmem
    rcases hmem with ⟨-, rfl, -⟩ | ⟨-, rfl, -⟩ <;> decide

/-! ## The attributes -/

/-- What `extent_client::getattr` returns. -/
def Session.getattr (s : Session) (now : UInt32) (eid : ExtentId) : Status × Attr :=
  match s.client.extent_list eid with
  | none => (s.server.get now eid).2.2.getattr eid
  | some extent => (.OK, extent.attr)

/-- The attributes that tell when an extent was written and how long it is. -/
def Attr.stamp (a : Attr) : UInt32 × UInt32 × UInt32 := (a.mtime, a.ctime, a.size)

/-- The attributes of this kind that the server has. -/
def ExtentServer.stamp (s : ExtentServer) (eid : ExtentId) : Option (UInt32 × UInt32 × UInt32) :=
  (s.extent_map eid).map fun file => file.attributes.stamp

/-- The call leaves the copy of an extent where it is, and does not write it. -/
def ClientCall.Leaves (eid : ExtentId) (call : ClientCall) : Prop :=
  (∀ buf, call ≠ .access (.put buf) eid) ∧ call ≠ .remove eid ∧ call ≠ .flush eid

/-- The copy that `put` made, until it is flushed. -/
def Session.Wrote (s : Session) (eid : ExtentId) (now : UInt32) (buf : Buf) : Prop :=
  ∃ extent, s.client.extent_list eid = some extent ∧ extent.is_dirty = true ∧ extent.buf = buf ∧
    extent.attr.stamp = (Attr.written now buf).stamp

/-- `put` makes such a copy. -/
theorem Session.wrote_put (s : Session) (now : UInt32) (eid : ExtentId) (buf : Buf) :
    (s.call now (.access (.put buf) eid)).1.Wrote eid now buf := by
  have hcopy : (s.access now (.put buf) eid).1.client.extent_list eid =
      some ⟨true, .written now buf, buf⟩ := by
    unfold Session.access
    cases s.client.extent_list eid with
    | none => exact Function.update_self _ _ _
    | some extent => exact Function.update_self _ _ _
  exact ⟨_, hcopy, rfl, rfl, rfl⟩

/-- A call that leaves the copy where it is. -/
theorem Session.Wrote.call (h : s.Wrote eid now buf) {call : ClientCall} (hcall : call.Leaves eid)
    (now' : UInt32) :
    (s.call now' call).1.Wrote eid now buf := by
  obtain ⟨extent, hcopy, hdirty, hbuf, hstamp⟩ := h
  by_cases hne : eid = call.eid
  · cases call with
    | access op i =>
      obtain rfl : eid = i := hne
      have hlist : (s.access now' op eid).1.client.extent_list eid =
          some (op.apply now' extent) := by
        unfold Session.access
        rw [hcopy]
        exact Function.update_self _ _ _
      cases op with
      | get => exact ⟨_, hlist, hdirty, hbuf, hstamp⟩
      | getattr => exact ⟨_, hlist, hdirty, hbuf, hstamp⟩
      | put buf' => exact absurd rfl (hcall.1 buf')
    | remove i => exact absurd (congrArg ClientCall.remove hne.symm) hcall.2.1
    | flush i => exact absurd (congrArg ClientCall.flush hne.symm) hcall.2.2
  · exact ⟨extent, (s.call_of_ne now' call hne).1.trans hcopy, hdirty, hbuf, hstamp⟩

/-- Calls that leave the copy where it is. -/
theorem Session.Wrote.after (h : s.Wrote eid now buf) (hcalls : ∀ call ∈ calls, call.2.Leaves eid) :
    (s.after calls).Wrote eid now buf := by
  induction calls generalizing s with
  | nil => exact h
  | cons head calls ih =>
    have hhead := h.call (hcalls head List.mem_cons_self) head.1
    exact ih hhead fun call hcall => hcalls call (List.mem_cons_of_mem _ hcall)

/-- What the client reports while it has the copy. -/
theorem Session.Wrote.getattr (h : s.Wrote eid now buf) (now' : UInt32) :
    (s.getattr now' eid).1 = .OK ∧
      (s.getattr now' eid).2.stamp = (Attr.written now buf).stamp := by
  obtain ⟨extent, hcopy, -, -, hstamp⟩ := h
  unfold Session.getattr
  rw [hcopy]
  exact ⟨rfl, hstamp⟩

/-- The server stamps the extent anew when the copy is flushed. -/
theorem Session.Wrote.flush (h : s.Wrote eid now buf) (now' : UInt32) :
    (s.flush now' eid).server.stamp eid = some (Attr.written now' buf).stamp := by
  obtain ⟨extent, hcopy, hdirty, rfl, -⟩ := h
  unfold Session.flush ExtentServer.stamp ExtentServer.put
  rw [hcopy]
  simp [hdirty]

namespace ExtentServer

/-- `get` stamps no extent. -/
theorem stamp_get (s : ExtentServer) (now : UInt32) (id eid : ExtentId) :
    (s.get now id).2.2.stamp eid = s.stamp eid := by
  unfold get
  cases hfile : s.extent_map id with
  | none => rfl
  | some file =>
    by_cases hi : eid = id
    · subst hi
      simp [stamp, hfile, Attr.stamp]
    · simp [stamp, hi]

/-- A call that neither writes nor removes an extent at the server does not stamp it. -/
theorem stamp_direct (s : ExtentServer) (now : UInt32) {call : ClientCall} {eid : ExtentId}
    (hput : ∀ buf, call ≠ .access (.put buf) eid) (hremove : call ≠ .remove eid) :
    (s.direct now call).1.stamp eid = s.stamp eid := by
  cases call with
  | access op i =>
    cases op with
    | get => exact s.stamp_get now i eid
    | getattr => rfl
    | put buf =>
      have hne : eid ≠ i := by
        rintro rfl
        exact hput buf rfl
      show (s.put now i buf).stamp eid = _
      simp [stamp, put, hne]
  | remove i =>
    have hne : eid ≠ i := by
      rintro rfl
      exact hremove rfl
    show (s.remove i).2.stamp eid = _
    unfold remove
    cases s.extent_map i with
    | none => rfl
    | some file => simp [stamp, hne]
  | flush i => rfl

/-- Calls that neither write nor remove an extent at the server do not stamp it. -/
theorem stamp_runDirect (s : ExtentServer) {calls : List (UInt32 × ClientCall)} {eid : ExtentId}
    (hput : ∀ call ∈ calls, ∀ buf, call.2 ≠ .access (.put buf) eid)
    (hremove : ∀ call ∈ calls, call.2 ≠ .remove eid) :
    (s.runDirect calls).1.stamp eid = s.stamp eid := by
  induction calls generalizing s with
  | nil => rfl
  | cons head calls ih =>
    have hhead : (s.direct head.1 head.2).1.stamp eid = s.stamp eid :=
      s.stamp_direct head.1 (hput head List.mem_cons_self) (hremove head List.mem_cons_self)
    have hrest := ih (s.direct head.1 head.2).1
      (fun call hcall => hput call (List.mem_cons_of_mem _ hcall))
      (fun call hcall => hremove call (List.mem_cons_of_mem _ hcall))
    exact hrest.trans hhead

/-- What `getattr` returns of an extent that was stamped. -/
theorem getattr_of_stamp {s : ExtentServer} {eid : ExtentId} {x : UInt32 × UInt32 × UInt32}
    (h : s.stamp eid = some x) : (s.getattr eid).1 = .OK ∧ (s.getattr eid).2.stamp = x := by
  obtain ⟨file, hfile, hx⟩ := Option.map_eq_some_iff.mp h
  unfold getattr
  rw [hfile]
  exact ⟨rfl, hx⟩

end ExtentServer

/-- The extent is put at time `t₁`, after some calls and before some others. -/
def written (server : ExtentServer) (calls : List (UInt32 × ClientCall)) (t₁ : UInt32)
    (eid : ExtentId) (buf : Buf) (between : List (UInt32 × ClientCall)) : Session :=
  (Session.start server).after (calls ++ (t₁, .access (.put buf) eid) :: between)

/-- What `getattr` of a client returns at time `t₃`, after the extent was flushed by another session
at time `t₂` and the server has executed some other calls. -/
def refetched (s : Session) (t₂ : UInt32) (eid : ExtentId) (others : List (UInt32 × ClientCall))
    (client : ExtentClient Unit) (t₃ : UInt32) : Status × Attr :=
  Session.getattr ⟨client, ((s.flush t₂ eid).server.runDirect others).1⟩ t₃ eid

/-- A client writes an extent at time `t₁` and hands it over at time `t₂`. The size is the same for
every client that fetches the extent then, and the times are the same exactly when `t₂` is `t₁`. -/
theorem attributes_handed_over_iff (server : ExtentServer) (calls : List (UInt32 × ClientCall))
    (t₁ : UInt32) (eid : ExtentId) (buf : Buf) (between : List (UInt32 × ClientCall))
    (hbetween : ∀ call ∈ between, call.2.Leaves eid) (t t₂ : UInt32)
    (others : List (UInt32 × ClientCall))
    (hput : ∀ call ∈ others, ∀ buf, call.2 ≠ .access (.put buf) eid)
    (hremove : ∀ call ∈ others, call.2 ≠ .remove eid) (client : ExtentClient Unit)
    (hclient : client.extent_list eid = none) (t₃ : UInt32) :
    ((written server calls t₁ eid buf between).getattr t eid).1 = .OK ∧
      (refetched (written server calls t₁ eid buf between) t₂ eid others client t₃).1 = .OK ∧
      (refetched (written server calls t₁ eid buf between) t₂ eid others client t₃).2.size =
        ((written server calls t₁ eid buf between).getattr t eid).2.size ∧
      ((refetched (written server calls t₁ eid buf between) t₂ eid others client t₃).2.stamp =
        ((written server calls t₁ eid buf between).getattr t eid).2.stamp ↔ t₂ = t₁) := by
  have hwrote : (written server calls t₁ eid buf between).Wrote eid t₁ buf := by
    unfold written
    rw [Session.after_append, Session.after_cons]
    exact (Session.wrote_put _ t₁ eid buf).after hbetween
  generalize written server calls t₁ eid buf between = s at hwrote
  obtain ⟨hret, hreported⟩ := hwrote.getattr t
  -- The server has the stamp of the flush, and fetching the extent does not change it.
  have hstamp : (((s.flush t₂ eid).server.runDirect others).1.get t₃ eid).2.2.stamp eid =
      some (Attr.written t₂ buf).stamp := by
    rw [ExtentServer.stamp_get, ExtentServer.stamp_runDirect _ hput hremove, hwrote.flush]
  have hfetched : refetched s t₂ eid others client t₃ =
      (((s.flush t₂ eid).server.runDirect others).1.get t₃ eid).2.2.getattr eid := by
    unfold refetched Session.getattr
    rw [hclient]
  rw [hfetched]
  obtain ⟨hret', hread⟩ := ExtentServer.getattr_of_stamp hstamp
  refine ⟨hret, hret', ?_, ?_⟩
  · have hsize : ∀ {a b : Attr}, a.stamp = b.stamp → a.size = b.size := by
      intro a b heq
      exact (Prod.mk.inj (Prod.mk.inj heq).2).2
    calc _ = (Attr.written t₂ buf).size := hsize hread
      _ = (Attr.written t₁ buf).size := rfl
      _ = _ := (hsize hreported).symm
  · rw [hread, hreported]
    simp [Attr.stamp, Attr.written]

/-- The client writes a file and hands it over in the same second. -/
theorem attributes_handed_over_at_once :
    (refetched (written (.construct 0) [] 7 5 ['a'] [(7, .access .get 5)]) 7 5
      [(8, .access .get 5)] .start 9).2.stamp =
        ((written (.construct 0) [] 7 5 ['a'] [(7, .access .get 5)]).getattr 7 5).2.stamp := by
  have hiff := attributes_handed_over_iff (.construct 0) [] 7 5 ['a'] [(7, .access .get 5)]
    (by simp [ClientCall.Leaves]) 7 7 [(8, .access .get 5)] (by simp) (by simp) .start rfl 9
  exact hiff.2.2.2.mpr rfl

/-- A second later the times that the writing client reported are gone. -/
theorem attributes_handed_over_late :
    ((written (.construct 0) [] 7 5 ['a'] []).getattr 7 5).2 = ⟨7, 7, 7, 1⟩ ∧
      (refetched (written (.construct 0) [] 7 5 ['a'] []) 8 5 [] .start 9).2 = ⟨9, 8, 8, 1⟩ := by
  decide

end SimpleDfs.Extent
