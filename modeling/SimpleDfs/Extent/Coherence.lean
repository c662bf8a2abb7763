import SimpleDfs.Extent.Copies

/-!
# Coherence of the extent caches

In every run of the extent clients behind their locks, a `get` that follows a `put` of the extent
returns what the last of them wrote, whichever client made it (`cache_coherent`).

A client has a copy of an extent only while the lock is in its custody (`CacheInv.cached`), so that
it is the keeper of the extent in the sense of `CopyInv`. A copy of an extent that was put has the
content of the last `put` (`CacheInv.copies`), and either it was written or the server has the same
content (`CacheInv.stored`). An event of the locks changes neither the copies nor the server
(`CacheInv.lockNext`), and what the functions of a client do is known from `CopyInv`.
-/

namespace SimpleDfs.Extent

open Lock

/-- Every `get` returned the content of the most recent `put` before it. -/
def Coherent (history : List Access) : Prop :=
  ∀ later c t eid ret buf earlier, history = later ++ .get c t eid ret buf :: earlier →
    ∀ v, lastPut eid earlier = some v → ret = .OK ∧ buf = v

variable {history : List Access} {eid : ExtentId}

/-- A `get` joins a coherent history when it returns the content of the last `put`. -/
theorem Coherent.get (h : Coherent history) {c t : ℕ} {ret : Status} {buf : Buf}
    (hget : ∀ v, lastPut eid history = some v → ret = .OK ∧ buf = v) :
    Coherent (.get c t eid ret buf :: history) := by
  intro later c' t' eid' ret' buf' earlier heq v hv
  cases later with
  | nil =>
    cases heq
    exact hget v hv
  | cons a later =>
    rw [List.cons_append, List.cons.injEq] at heq
    exact h later c' t' eid' ret' buf' earlier heq.2 v hv

/-- Any other access joins a coherent history. -/
theorem Coherent.cons (h : Coherent history) {a : Access}
    (ha : ∀ c t eid ret buf, a ≠ .get c t eid ret buf) : Coherent (a :: history) := by
  intro later c t eid ret buf earlier heq v hv
  cases later with
  | nil =>
    rw [List.nil_append, List.cons.injEq] at heq
    exact absurd heq.1 (ha c t eid ret buf)
  | cons a' later =>
    rw [List.cons_append, List.cons.injEq] at heq
    exact h later c t eid ret buf earlier heq.2 v hv

/-- The content of the most recent `put` after a function, from the one before it. -/
def Op.wrote (op : Op) (last : Option Buf) : Option Buf :=
  match op with
  | put buf => some buf
  | get | getattr => last

/-- The most recent `put` of an extent after a function returned. -/
theorem lastPut_log_self (op : Op) (c t : ℕ) (eid : ExtentId) (ret ret' : Status)
    (extent : CachedExtentInfo) (history : List Access) :
    lastPut eid (op.log c t eid ret ret' extent :: history) = op.wrote (lastPut eid history) := by
  cases op with
  | put buf => exact if_pos rfl
  | get | getattr => rfl

/-- The most recent `put` of any other extent. -/
theorem lastPut_log_of_ne (op : Op) (c t : ℕ) {eid i : ExtentId} (hi : i ≠ eid)
    (ret ret' : Status) (extent : CachedExtentInfo) (history : List Access) :
    lastPut i (op.log c t eid ret ret' extent :: history) = lastPut i history := by
  cases op with
  | put buf => exact if_neg (Ne.symm hi)
  | get | getattr => rfl

/-- A function that found the content of the last `put` keeps the history coherent. -/
theorem Coherent.log (h : Coherent history) (op : Op) {c t : ℕ} {ret ret' : Status}
    {extent : CachedExtentInfo}
    (hget : ∀ v, lastPut eid history = some v → ret = .OK ∧ extent.buf = v) :
    Coherent (op.log c t eid ret ret' extent :: history) := by
  cases op with
  | get => exact h.get hget
  | getattr | put buf => exact h.cons fun _ _ _ _ _ => Access.noConfusion

/-! ## The invariant -/

/-- What a function of the extent client of `c` can rely on at each place: the thread holds the lock
and the extent is not cached, or the worker gives the lock back and the extent is cached. -/
def PlaceInv (lock : LockState) (c : ℕ) (copy : ExtentId → Option CachedExtentInfo)
    (content last : ExtentId → Option Buf) : Place Worker → Prop
  | .get t _ eid => Holds lock c t eid ∧ copy eid = none
  | .getattr t _ eid ret buf | .fetched t _ eid ret buf _ _ =>
    Holds lock c t eid ∧ copy eid = none ∧ ∀ v, last eid = some v → ret = .OK ∧ buf = v
  | .remove t eid => Holds lock c t eid ∧ copy eid = none ∧ last eid = none
  | .flush w eid buf =>
    w.GivesBack (lock.clients c) eid ∧ ∃ extent, copy eid = some extent ∧ extent.buf = buf
  | .flushed w eid =>
    w.GivesBack (lock.clients c) eid ∧
      ∃ extent, copy eid = some extent ∧ content eid = some extent.buf

/-- The invariant of the caches. -/
structure CacheInv (s : CacheState) : Prop where
  /-- The locks are sound. -/
  lock : LockInv s.lock
  /-- A client has a copy of an extent only while the lock is in its custody. -/
  cached : ∀ c eid extent, (s.clients c).extent_list eid = some extent → Custody s.lock c eid
  /-- What the functions of the extent clients can rely on. -/
  place : ∀ c p, (s.clients c).sync_root = some p →
    PlaceInv s.lock c (s.clients c).extent_list s.server.content
      (fun eid => lastPut eid s.history) p
  /-- A copy of an extent has the content of the last `put`, if there is one. -/
  copies : ∀ eid v, lastPut eid s.history = some v → ∀ c extent,
    (s.clients c).extent_list eid = some extent → extent.buf = v
  /-- The server has the content of the last `put`, unless a copy was written. -/
  stored : ∀ eid v, lastPut eid s.history = some v → s.server.content eid = some v ∨
    ∃ c extent, (s.clients c).extent_list eid = some extent ∧ extent.is_dirty = true
  /-- So far every `get` returned the content of the last `put`. -/
  coherent : Coherent s.history

/-- The copy of a client and the server have the content of the last `put`, if there is one. -/
def UpToDate (copy : Option CachedExtentInfo) (content last : Option Buf) : Prop :=
  ∀ v, last = some v → (∀ extent, copy = some extent → extent.buf = v) ∧
    (content = some v ∨ ∃ extent, copy = some extent ∧ extent.is_dirty = true)

/-- The thread in the function holds the lock, or the worker gives it back. -/
def Place.Bound (lock : LockState) (c : ℕ) : Place Worker → Prop
  | get t _ eid | getattr t _ eid _ _ | fetched t _ eid _ _ _ _ | remove t eid => Holds lock c t eid
  | flush w eid _ | flushed w eid => w.GivesBack (lock.clients c) eid

/-- What is known of the content of an extent: that of its last `put`. -/
def known (history : List Access) (eid : ExtentId) : Option (Option Buf) :=
  (lastPut eid history).map some

/-- The content of the last `put` is known. -/
theorem known_eq {v : Buf} (hv : lastPut eid history = some v) :
    known history eid = some (some v) := by
  rw [known, hv, Option.map_some]

/-- What is known after a function returned. -/
theorem known_log (op : Op) (c t : ℕ) (eid : ExtentId) (ret ret' : Status)
    (extent : CachedExtentInfo) (history : List Access) :
    known (op.log c t eid ret ret' extent :: history) =
      Function.update (known history) eid (op.writes (known history eid)) := by
  funext i
  by_cases hi : i = eid
  · subst hi
    rw [Function.update_self, known, lastPut_log_self]
    cases op <;> rfl
  · rw [Function.update_of_ne hi, known, lastPut_log_of_ne op c t hi, known]

/-- What is known after an extent was removed. -/
theorem known_remove (c t : ℕ) (eid : ExtentId) (history : List Access) :
    known (.remove c t eid :: history) = Function.update (known history) eid none := by
  funext i
  by_cases hi : i = eid
  · subst hi
    rw [Function.update_self, known, lastPut, if_pos rfl, Option.map_none]
  · rw [Function.update_of_ne hi, known, lastPut, if_neg (Ne.symm hi), known]

namespace CacheInv

variable {s s' : CacheState} {c t : ℕ} {eid : ExtentId} {now : UInt32} {w : Worker}

/-- A thread in a function holds the lock, and a worker in `flush` gives it back. -/
theorem bound (h : CacheInv s) {p : Place Worker} (hp : (s.clients c).sync_root = some p) :
    p.Bound s.lock c := by
  have hplace := h.place c p hp
  cases p with
  | get t op eid | getattr t op eid ret buf => exact hplace.1
  | fetched t op eid ret buf ret' attr => exact hplace.1
  | remove t eid => exact hplace.1
  | flush w eid buf | flushed w eid => exact hplace.1

/-- A client is in a function only for an extent whose lock is in its custody. -/
theorem custody_of_place (h : CacheInv s) {p : Place Worker}
    (hp : (s.clients c).sync_root = some p) : Custody s.lock c p.eid := by
  have hbound := h.bound hp
  cases p with
  | get t op eid | getattr t op eid ret buf => exact Or.inl (h.lock.owned_of_holds hbound)
  | fetched t op eid ret buf ret' attr => exact Or.inl (h.lock.owned_of_holds hbound)
  | remove t eid => exact Or.inl (h.lock.owned_of_holds hbound)
  | flush w eid buf | flushed w eid => exact h.lock.custody_of_givesBack hbound

/-- Only one client has a lock in its custody. -/
theorem unique (h : CacheInv s) (c c' : ℕ) (eid : ExtentId) (hc : Custody s.lock c eid)
    (hc' : Custody s.lock c' eid) : c = c' := h.lock.custody_unique hc hc'

/-- What the copies and the server have, with the client that has the lock as the keeper. -/
theorem copyInv (h : CacheInv s) :
    CopyInv (Custody s.lock) s.clients s.server (known s.history) where
  cached := h.cached
  place c p hp := by
    refine ⟨h.custody_of_place hp, ?_⟩
    have hplace := h.place c p hp
    cases p with
    | get t op eid => exact hplace.2
    | getattr t op eid ret buf | fetched t op eid ret buf ret' attr =>
      refine ⟨hplace.2.1, fun l hl => ?_⟩
      obtain ⟨v, hv, rfl⟩ := Option.map_eq_some_iff.mp hl
      obtain ⟨hret, hbuf⟩ := hplace.2.2 v hv
      exact ⟨hbuf, fun _ => hret⟩
    | remove t eid =>
      refine ⟨hplace.2.1, fun l hl => ?_⟩
      obtain ⟨v, hv, rfl⟩ := Option.map_eq_some_iff.mp hl
      cases Eq.trans (Eq.symm hplace.2.2) hv
    | flush w eid buf =>
      obtain ⟨-, extent, hcopy, rfl⟩ := hplace
      refine ⟨extent, hcopy, rfl, fun l hl => ?_⟩
      obtain ⟨v, hv, rfl⟩ := Option.map_eq_some_iff.mp hl
      rw [h.copies eid v hv c extent hcopy]
    | flushed w eid =>
      obtain ⟨-, extent, hcopy, hcontent⟩ := hplace
      refine ⟨extent, hcopy, hcontent, fun l hl => ?_⟩
      obtain ⟨v, hv, rfl⟩ := Option.map_eq_some_iff.mp hl
      rw [h.copies eid v hv c extent hcopy]
  copies c eid extent hcopy l hl := by
    obtain ⟨v, hv, rfl⟩ := Option.map_eq_some_iff.mp hl
    have hbuf := h.copies eid v hv c extent hcopy
    exact ⟨hbuf, fun _ => congrArg some hbuf.symm⟩
  stored eid l hl := by
    obtain ⟨v, hv, rfl⟩ := Option.map_eq_some_iff.mp hl
    exact (h.stored eid v hv).imp_right Or.inl

/-- The invariant from what the copies and the server have. -/
theorem of_copyInv (hlock : LockInv s.lock)
    (hcopies : CopyInv (Custody s.lock) s.clients s.server (known s.history))
    (hbound : ∀ c p, (s.clients c).sync_root = some p → p.Bound s.lock c)
    (hcoherent : Coherent s.history) : CacheInv s where
  lock := hlock
  cached := hcopies.cached
  place c p hp := by
    have hp' := hbound c p hp
    have hplace := (hcopies.place c p hp).2
    cases p with
    | get t op eid => exact ⟨hp', hplace⟩
    | getattr t op eid ret buf | fetched t op eid ret buf ret' attr =>
      refine ⟨hp', hplace.1, fun v hv => ?_⟩
      obtain ⟨hbuf, hret⟩ := hplace.2 (some v) (known_eq hv)
      exact ⟨hret (Option.some_ne_none v), hbuf⟩
    | remove t eid =>
      refine ⟨hp', hplace.1, ?_⟩
      cases hv : lastPut eid s.history with
      | none => exact hv
      | some v => cases hplace.2 (some v) (known_eq hv)
    | flush w eid buf =>
      obtain ⟨extent, hcopy, hbuf, -⟩ := hplace
      exact ⟨hp', extent, hcopy, hbuf⟩
    | flushed w eid =>
      obtain ⟨extent, hcopy, hcontent, -⟩ := hplace
      exact ⟨hp', extent, hcopy, hcontent⟩
  copies eid v hv c extent hcopy := (hcopies.copies c eid extent hcopy (some v) (known_eq hv)).1
  stored eid v hv := by
    rcases hcopies.stored eid (some v) (known_eq hv) with hstored | hdirty | ⟨c, t, ht⟩
    · exact Or.inl hstored
    · exact Or.inr hdirty
    · -- An extent that is being removed counts as removed.
      cases (hcopies.place c _ ht).2.2 (some v) (known_eq hv)
  coherent := hcoherent

/-- The copy of the client that has the lock in its custody is up to date. -/
theorem upToDate (h : CacheInv s) (hcustody : Custody s.lock c eid) :
    UpToDate ((s.clients c).extent_list eid) (s.server.content eid) (lastPut eid s.history) := by
  intro v hv
  refine ⟨h.copies eid v hv c, (h.stored eid v hv).imp_right ?_⟩
  rintro ⟨c', extent, hcopy, hdirty⟩
  obtain rfl := h.lock.custody_unique (h.cached c' eid extent hcopy) hcustody
  exact ⟨extent, hcopy, hdirty⟩

/-- A client has acted on an extent. What is left to check is the place that it goes to. -/
theorem acted (h : CacheInv s) {client : ExtentClient Worker} {server : ExtentServer}
    {history : List Access}
    (hcopies : CopyInv (Custody s.lock) (Function.update s.clients c client) server (known history))
    (hbound : ∀ p, client.sync_root = some p → p.Bound s.lock c) (hcoherent : Coherent history) :
    CacheInv ⟨s.lock, server, Function.update s.clients c client, history⟩ := by
  refine of_copyInv h.lock hcopies (fun c' p hp => ?_) hcoherent
  dsimp only at hp
  by_cases hc : c' = c
  · subst hc
    rw [Function.update_self] at hp
    exact hbound p hp
  · rw [Function.update_of_ne hc] at hp
    exact h.bound hp

/-- An event of the locks. A thread in a function does not release a lock, and `dorelease` returns
only when the function has returned and the extent is not cached. -/
theorem lockNext (h : CacheInv s) {e : LockEvent} {lock : LockState}
    (hstep : s.lock.next e = some lock)
    (hrelease : ∀ c p t lid, (s.clients c).sync_root = some p → p.thread? = some t →
      e ≠ .release c t lid)
    (hreturns : ∀ c (w : Worker), e = w.returns c → (s.clients c).sync_root = none ∧
      ∀ eid, w.GivesBack (s.lock.clients c) eid → (s.clients c).extent_list eid = none) :
    CacheInv { s with lock := lock } where
  lock := h.lock.next hstep
  cached c eid extent hcopy := by
    refine h.lock.custody_next hstep (h.cached c eid extent hcopy) fun w he hw => ?_
    have hnone := (hreturns c w he).2 eid hw
    rw [show (s.clients c).extent_list eid = some extent from hcopy] at hnone
    cases hnone
  place c p hp := by
    have hold := h.place c p hp
    have hholds : ∀ {t eid}, p.thread? = some t → Holds s.lock c t eid → Holds lock c t eid :=
      fun ht hholds => holds_next hstep hholds (hrelease c p _ _ hp ht)
    have hgives : ∀ {w : Worker} {eid}, w.GivesBack (s.lock.clients c) eid →
        w.GivesBack (lock.clients c) eid := by
      intro w eid hw
      refine Worker.givesBack_next hstep hw fun he => ?_
      have hnone := (hreturns c w he).1
      rw [show (s.clients c).sync_root = some p from hp] at hnone
      cases hnone
    cases p with
    | get t op eid => exact ⟨hholds rfl hold.1, hold.2⟩
    | getattr t op eid ret buf => exact ⟨hholds rfl hold.1, hold.2⟩
    | fetched t op eid ret buf ret' attr => exact ⟨hholds rfl hold.1, hold.2⟩
    | remove t eid => exact ⟨hholds rfl hold.1, hold.2⟩
    | flush w eid buf => exact ⟨hgives hold.1, hold.2⟩
    | flushed w eid => exact ⟨hgives hold.1, hold.2⟩
  copies := h.copies
  stored := h.stored
  coherent := h.coherent

/-! ## Events -/

/-- `dorelease` returns to a worker whose extent is not cached. -/
theorem returns (h : CacheInv s) (hw : w.GivesBack (s.lock.clients c) eid)
    (hroot : (s.clients c).sync_root = none) (hcopy : (s.clients c).extent_list eid = none)
    (hstep : s.returns c w = some s') : CacheInv s' := by
  obtain ⟨lock, hlock, rfl⟩ := Option.map_eq_some_iff.mp hstep
  refine h.lockNext hlock (fun c' p t lid _ _ he => ?_) fun c' w' he => ?_
  · cases w <;> cases he
  · -- The worker is the one whose extent is not cached.
    obtain ⟨rfl, rfl⟩ := Worker.returns_inj he
    refine ⟨hroot, fun i hi => ?_⟩
    rw [hi.unique hw]
    exact hcopy

/-- A thread calls `get`, `getattr` or `put`. -/
theorem access (h : CacheInv s) {op : Op} (hstep : s.next (.access c t op eid now) = some s') :
    CacheInv s' := by
  simp only [CacheState.next] at hstep
  split_ifs at hstep with hmay
  obtain ⟨hholds, -, hroot⟩ := hmay
  have hcustody : Custody s.lock c eid := Or.inl (h.lock.owned_of_holds hholds)
  unfold ExtentClient.access at hstep
  cases hcopy : (s.clients c).extent_list eid with
  | none =>
    simp only [hcopy, Option.some.injEq] at hstep
    subst hstep
    refine h.acted (h.copyInv.missing h.unique hcustody hroot hcopy op) (fun p hp => ?_) h.coherent
    cases hp
    exact hholds
  | some extent =>
    simp only [hcopy, Option.some.injEq] at hstep
    subst hstep
    have hcopies := h.copyInv.found h.unique hroot hcopy op now
    rw [← known_log op c t eid .OK .OK extent] at hcopies
    have hupdated := h.upToDate hcustody
    refine h.acted hcopies (fun p hp => by cases hroot.symm.trans hp) ?_
    exact h.coherent.log op fun v hv => ⟨rfl, (hupdated v hv).1 extent hcopy⟩

/-- A thread calls `remove`. -/
theorem remove (h : CacheInv s) (hstep : s.next (.remove c t eid) = some s') : CacheInv s' := by
  simp only [CacheState.next] at hstep
  obtain ⟨hmay, hstep⟩ := Option.ite_none_right_eq_some.mp hstep
  unfold ExtentClient.remove at hstep
  cases hcopy : (s.clients c).extent_list eid with
  | none =>
    simp only [hcopy, if_true] at hstep
    cases hstep
    rw [s.setClient_self]
    exact h
  | some extent =>
    simp only [hcopy, Bool.false_eq_true, if_false] at hstep
    cases hstep
    have hcopies := h.copyInv.removing (t := t) h.unique hmay.2.2 hcopy
      (fun l (hl : none = some l) => by cases hl)
    rw [← known_remove c t] at hcopies
    refine h.acted hcopies (fun p hp => ?_) (h.coherent.cons fun _ _ _ _ _ => Access.noConfusion)
    cases hp
    exact hmay.1

/-- The extent server executes the call that a client is in. -/
theorem rpc (h : CacheInv s) (hstep : s.next (.rpc c now) = some s') :
    CacheInv s' := by
  obtain ⟨⟨client, server⟩, hrpc, rfl⟩ := Option.map_eq_some_iff.mp hstep
  refine h.acted (h.copyInv.rpc h.unique hrpc) (fun p hp => ?_) h.coherent
  -- The function goes on to its next call, for the same thread or worker and the same extent.
  unfold ExtentClient.rpc at hrpc
  split at hrpc
  next t op eid hroot =>
    have hbound := h.bound hroot
    cases hrpc
    cases hp
    exact hbound
  next t op eid ret buf hroot =>
    have hbound := h.bound hroot
    cases hrpc
    cases hp
    exact hbound
  next t eid hroot =>
    cases hrpc
    cases hp
  next w eid buf hroot =>
    have hbound := h.bound hroot
    cases hrpc
    cases hp
    exact hbound
  next => cases hrpc

/-- The copy is dropped, and `dorelease` returns. -/
theorem dropped (h : CacheInv s) (hw : w.GivesBack (s.lock.clients c) eid)
    {client : ExtentClient Worker}
    (hcopies : CopyInv (Custody s.lock) (Function.update s.clients c client) s.server
      (known s.history)) (hnone : client.extent_list eid = none) (hroot : client.sync_root = none)
    (hstep : (s.setClient c client).returns c w = some s') : CacheInv s' := by
  have herased : CacheInv (s.setClient c client) :=
    h.acted hcopies (fun p hp => by cases hroot.symm.trans hp) h.coherent
  have hself : (s.setClient c client).clients c = client := Function.update_self _ _ _
  exact herased.returns hw (by rw [hself]; exact hroot) (by rw [hself]; exact hnone) hstep

/-- A worker in `dorelease` calls `flush`. -/
theorem flush (h : CacheInv s) (hstep : s.next (.flush c w eid) = some s') :
    CacheInv s' := by
  simp only [CacheState.next] at hstep
  obtain ⟨hcond, hstep⟩ := Option.ite_none_right_eq_some.mp hstep
  obtain ⟨hw, hroot⟩ := hcond
  unfold ExtentClient.flush at hstep
  cases hcopy : (s.clients c).extent_list eid with
  | none =>
    simp only [hcopy, if_true] at hstep
    rw [s.setClient_self] at hstep
    exact h.returns hw hroot hcopy hstep
  | some extent =>
    simp only [hcopy] at hstep
    cases hdirty : extent.is_dirty with
    | true =>
      simp only [hdirty, if_true, Bool.false_eq_true, if_false] at hstep
      cases hstep
      refine h.acted (h.copyInv.flushing h.unique hroot hcopy hdirty) (fun p hp => ?_) h.coherent
      cases hp
      exact hw
    | false =>
      simp only [hdirty, Bool.false_eq_true, if_false, if_true] at hstep
      exact h.dropped hw (h.copyInv.clean h.unique hroot hcopy hdirty) (Function.update_self _ _ _)
        hroot hstep

/-- The function that a client is in returns. -/
theorem finish (h : CacheInv s) (hstep : s.next (.finish c now) = some s') :
    CacheInv s' := by
  simp only [CacheState.next] at hstep
  split at hstep
  next t op eid ret buf ret' attr hroot =>
    cases hstep
    have hcopies := h.copyInv.fetched h.unique hroot now
    rw [← known_log op c t eid ret ret' ⟨false, attr, buf⟩] at hcopies
    refine h.acted hcopies nofun ?_
    exact h.coherent.log op (h.place c _ hroot).2.2
  next w eid hroot =>
    exact h.dropped (h.bound hroot) (h.copyInv.flushed h.unique hroot) (Function.update_self _ _ _)
      rfl hstep
  next => cases hstep

/-- The invariant holds at the start. -/
protected theorem start (server : ExtentServer) : CacheInv (.start server) where
  lock := .start
  cached := nofun
  place := nofun
  copies := nofun
  stored := nofun
  coherent later _ _ _ _ _ earlier heq := by cases later <;> cases heq

/-- Every event keeps the invariant. -/
theorem next (h : CacheInv s) {e : CacheEvent} (hstep : s.next e = some s') : CacheInv s' := by
  cases e with
  | lock e =>
    simp only [CacheState.next] at hstep
    split_ifs at hstep with hallows
    obtain ⟨lock, hlock, rfl⟩ := Option.map_eq_some_iff.mp hstep
    refine h.lockNext hlock (fun c p t lid hp ht he => ?_) fun c w he => ?_
    · -- A thread in a function does not release a lock.
      subst he
      refine hallows ?_
      rw [CacheState.Busy, hp, Option.bind_some]
      exact ht
    · -- `dorelease` returns only with `flush`.
      subst he
      cases w <;> exact hallows.elim
  | access c t op eid now => exact h.access hstep
  | remove c t eid => exact h.remove hstep
  | flush c w eid => exact h.flush hstep
  | rpc c now => exact h.rpc hstep
  | finish c now => exact h.finish hstep

end CacheInv

/-- The invariant holds in every reachable state. -/
theorem cacheInv_of_reachable {s : CacheState} (h : cacheSystem.Reachable System.anything s) :
    CacheInv s := by
  refine h.invariant (I := CacheInv) ?_ fun _ _ _ hinv _ hstep => hinv.next hstep
  rintro s ⟨server, rfl⟩
  exact .start server

/-- Every `get` of an extent that was put, by whatever client, returned the content of the most
recent `put` before it. -/
theorem cache_coherent {s : CacheState} (h : cacheSystem.Reachable System.anything s)
    {later earlier : List Access} {c t : ℕ} {eid : ExtentId} {ret : Status} {buf v : Buf}
    (hget : s.history = later ++ .get c t eid ret buf :: earlier)
    (hput : lastPut eid earlier = some v) : ret = .OK ∧ buf = v :=
  (cacheInv_of_reachable h).coherent later c t eid ret buf earlier hget v hput

/-- Client 1 writes extent 7 and keeps the lock. Client 2 asks for the lock; client 1 is told to
give it back and flushes the extent, while one of its threads asks for the lock again. Client 2
reads the extent and writes it, and client 1 gets the lock back and reads it. -/
def writtenTwice : List CacheEvent :=
  [.lock (.acquire 1 0 7), .lock (.run 1 0), .lock (.run 1 0),
   .lock (.serverAcquire 7 (clientId 1) 0), .lock (.reply 1 0 .OK), .lock (.run 1 0),
   .access 1 0 (.put ['x']) 7 100, .rpc 1 100, .rpc 1 100, .finish 1 100,
   .lock (.acquire 2 0 7), .lock (.run 2 0), .lock (.run 2 0),
   .lock (.serverAcquire 7 (clientId 2) 0), .lock (.reply 2 0 .RETRY), .lock (.run 2 0),
   .lock .enforcer, .lock .revoker,
   .lock (.release 1 0 7), .lock (.revoke 1 7), .flush 1 .handler 7, .rpc 1 101, .finish 1 101,
   .lock (.acquire 1 1 7), .lock (.run 1 1), .lock (.run 1 1),
   .lock (.serverAcquire 7 (clientId 1) 1), .lock (.serverRelease 7 (clientId 1)),
   .lock (.retry 2 7), .lock (.run 2 0),
   .access 2 0 .get 7 102, .rpc 2 102, .rpc 2 102, .finish 2 102, .access 2 0 (.put ['y']) 7 103,
   .lock (.reply 1 1 .RETRY), .lock (.run 1 1), .lock .enforcer, .lock .revoker,
   .lock (.revoke 2 7), .lock (.release 2 0 7), .flush 2 (.thread 0) 7, .rpc 2 104, .finish 2 104,
   .lock (.serverRelease 7 (clientId 2)), .lock (.retry 1 7), .lock (.run 1 1),
   .access 1 1 .get 7 105, .rpc 1 105, .rpc 1 105, .finish 1 105]

/-- Client 1 reads what client 2 wrote last. -/
theorem cache_coherent_written_twice :
    ∃ s earlier ret buf, cacheSystem.exec (.start ⟨fun _ => none⟩) writtenTwice = some s ∧
      s.history = .get 1 1 7 ret buf :: earlier ∧ ret = .OK ∧ buf = ['y'] := by
  have hrun : (cacheSystem.exec (.start ⟨fun _ => none⟩) writtenTwice).map
      (fun s => (s.history.head?, lastPut 7 s.history.tail)) =
      some (some (.get 1 1 7 .OK ['y']), some ['y']) := by
    decide
  obtain ⟨s, hexec, hdata⟩ := Option.map_eq_some_iff.mp hrun
  obtain ⟨hhead, hlast⟩ := Prod.mk.inj hdata
  obtain ⟨earlier, hhistory⟩ := List.head?_eq_some_iff.mp hhead
  rw [hhistory, List.tail_cons] at hlast
  have hinit : cacheSystem.init (.start ⟨fun _ => none⟩) := ⟨_, rfl⟩
  have hreachable := System.Reachable.of_exec hexec hinit
  have hcoherent := cache_coherent hreachable
    (show s.history = [] ++ .get 1 1 7 .OK ['y'] :: earlier from hhistory) hlast
  exact ⟨s, earlier, .OK, ['y'], hexec, hhistory, hcoherent.1, hcoherent.2⟩

end SimpleDfs.Extent
