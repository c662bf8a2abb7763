import SimpleDfs.Lock.MutualExclusion

/-!
# What stays while a lock is held or given back

A client has a lock in its custody from the moment a grant arrives until the lock is sent back:
while it owns the lock, and while `dorelease` is called for it. Only one client has a lock in its
custody (`LockInv.custody_unique`), and only the return of `dorelease` ends it
(`LockInv.custody_next`). A thread holds a lock until it releases it (`holds_next`), and a thread or
a handler in `dorelease` stays there until that call returns (`Worker.givesBack_next`).

These are the facts that a user of the locks can build on, such as a cache that is flushed in
`dorelease`.
-/

namespace SimpleDfs.Lock

/-! ## Steps of a client -/

/-- Threads keep the locks that they hold, and those in `dorelease` stay there. -/
structure Client.Frame (c c' : Client) : Prop where
  /-- A thread that holds a lock still holds it. -/
  held : ∀ t lid, lid ∈ c.held t → lid ∈ c'.held t
  /-- A thread in `dorelease` is still there. -/
  pc : ∀ t lid, c.pc t = .dorelease lid → c'.pc t = .dorelease lid
  /-- A revoke handler in `dorelease` is still there. -/
  handler : ∀ lid, c.handler = some lid → c'.handler = some lid

namespace Client.Frame

variable {c c' c'' : Client} {t : ℕ} {lid : LockId}

/-- Two steps one after the other. -/
theorem trans (h : Frame c c') (h' : Frame c' c'') : Frame c c'' :=
  ⟨fun t l hl => h'.held t l (h.held t l hl), fun t l hl => h'.pc t l (h.pc t l hl),
    fun l hl => h'.handler l (h.handler l hl)⟩

/-- A change of a record. -/
theorem setLock (lid : LockId) (lock : LockInfo) : Frame c (c.setLock lid lock) :=
  ⟨fun _ _ => id, fun _ _ => id, fun _ => id⟩

/-- A move of a thread that is not in `dorelease`. -/
theorem goto (pc : Pc) (hold : ∀ l, c.pc t ≠ .dorelease l) : Frame c (c.goto t pc) := by
  refine ⟨fun _ _ => id, fun t' l hl => ?_, fun _ => id⟩
  rw [pc_goto]
  split_ifs with ht
  · subst ht
    exact absurd hl (hold l)
  · exact hl

/-- A signal. -/
theorem signalAll : Frame c (c.signalAll lid) := by
  refine ⟨fun _ _ => id, fun t' l hl => ?_, fun _ => id⟩
  show (c.pc t').signal lid = .dorelease l
  rw [hl]
  rfl

/-- A return from `acquire`. -/
theorem acquired (hold : ∀ l, c.pc t ≠ .dorelease l) : Frame c (c.acquired t lid) := by
  have hgoto := goto (c := c) .idle hold
  refine ⟨fun t' l hl => ?_, hgoto.pc, hgoto.handler⟩
  show l ∈ Function.update c.held t (lid :: c.held t) t'
  by_cases ht : t' = t
  · subst ht
    rw [Function.update_self]
    exact List.mem_cons_of_mem _ hl
  · rw [Function.update_of_ne ht]
    exact hl

/-- A thread that goes on with an owned lock. -/
theorem awaitFree (lock : LockInfo) (hold : ∀ l, c.pc t ≠ .dorelease l) :
    Frame c (c.awaitFree t lid lock) := by
  unfold Client.awaitFree
  split_ifs
  · exact (setLock lid (lock.take t)).trans (acquired hold)
  · exact goto _ hold

/-- A waiting thread that goes on. -/
theorem awaitOwned (lock : LockInfo) (hold : ∀ l, c.pc t ≠ .dorelease l) :
    Frame c (c.awaitOwned t lid lock) := by
  unfold Client.awaitOwned
  split_ifs
  · exact goto _ hold
  · exact awaitFree lock hold

/-- A call of `acquire`. -/
theorem acquire (hstep : c.acquire t lid = some c') : Frame c c' := by
  unfold Client.acquire at hstep
  split_ifs at hstep with hcond
  have hold : ∀ l, c.pc t ≠ .dorelease l := fun l => by rw [hcond.1]; exact Pc.noConfusion
  split at hstep
  · cases hstep
    exact (setLock lid .new).trans (goto _ hold)
  · cases hstep
    exact goto _ hold

/-- A step of a thread in `acquire`. -/
theorem run {id : String} {out : List Msg} (hstep : c.run id t = some (c', out)) : Frame c c' := by
  unfold Client.run at hstep
  split_ifs at hstep
  split at hstep
  next lid hpc =>
    have hold : ∀ l, c.pc t ≠ .dorelease l := fun l => by rw [hpc]; exact Pc.noConfusion
    obtain ⟨lock, -, hstep⟩ := Option.bind_eq_some_iff.mp hstep
    dsimp only at hstep
    split_ifs at hstep
    · cases hstep
      exact (setLock lid lock.await).trans (goto _ hold)
    · cases hstep
      exact (setLock lid lock.await).trans (awaitOwned lock.await hold)
  next lid hpc =>
    have hold : ∀ l, c.pc t ≠ .dorelease l := fun l => by rw [hpc]; exact Pc.noConfusion
    obtain ⟨lock, -, hstep⟩ := Option.bind_eq_some_iff.mp hstep
    dsimp only at hstep
    split_ifs at hstep
    · cases hstep
      -- The number of the next call is no part of the frame.
      have hframe := (setLock lid { lock with acquiring := true }).trans
        (goto (.awaitReply lid c.xid) hold)
      exact { hframe with }
    · cases hstep
      exact goto _ hold
  next lid hpc =>
    obtain ⟨lock, -, hstep⟩ := Option.bind_eq_some_iff.mp hstep
    cases hstep
    exact awaitOwned lock fun l => by rw [hpc]; exact Pc.noConfusion
  next lid hpc =>
    obtain ⟨lock, -, hstep⟩ := Option.bind_eq_some_iff.mp hstep
    cases hstep
    exact awaitOwned lock fun l => by rw [hpc]; exact Pc.noConfusion
  next lid hpc =>
    obtain ⟨lock, -, hstep⟩ := Option.bind_eq_some_iff.mp hstep
    cases hstep
    exact awaitFree lock fun l => by rw [hpc]; exact Pc.noConfusion
  next => cases hstep

/-- The call of `acquire_lock` returns. -/
theorem acquireReturns {ok : Bool} (hstep : c.acquireReturns t ok = some c') : Frame c c' := by
  unfold Client.acquireReturns at hstep
  split at hstep
  next lid xid hpc =>
    have hold : ∀ l, c.pc t ≠ .dorelease l := fun l => by rw [hpc]; exact Pc.noConfusion
    have hsignal : ∀ l, (c.pc t).signal lid ≠ .dorelease l :=
      fun l => by rw [hpc]; exact Pc.noConfusion
    obtain ⟨-, hstep⟩ := Option.ite_none_right_eq_some.mp hstep
    obtain ⟨lock, -, hstep⟩ := Option.bind_eq_some_iff.mp hstep
    split_ifs at hstep
    · cases hstep
      exact signalAll.trans (goto _ hsignal)
    · cases hstep
      exact ((setLock lid { lock with acquiring := false, owned := true }).trans signalAll).trans
        (goto _ hsignal)
    · cases hstep
      exact (setLock lid { lock with acquiring := true, owned := false }).trans (goto _ hold)
  next => cases hstep

/-- A thread wakes up. -/
theorem wakes (hstep : c.wakes t = some c') : Frame c c' := by
  unfold Client.wakes at hstep
  split at hstep
  next lid b hpc =>
    cases hstep
    exact goto _ fun l => by rw [hpc]; exact Pc.noConfusion
  next lid b hpc =>
    cases hstep
    exact goto _ fun l => by rw [hpc]; exact Pc.noConfusion
  next => cases hstep

/-- A thread releases a lock, and keeps the other locks that it holds. -/
theorem release (hstep : c.release t lid = some c') : Frame (c.leaves t lid) c' := by
  unfold Client.release at hstep
  obtain ⟨hcond, hstep⟩ := Option.ite_none_right_eq_some.mp hstep
  have hold : ∀ l, c.pc t ≠ .dorelease l := fun l => by rw [hcond.2.1]; exact Pc.noConfusion
  obtain ⟨lock, -, hstep⟩ := Option.bind_eq_some_iff.mp hstep
  dsimp only at hstep
  split_ifs at hstep
  · cases hstep
    exact (setLock lid lock.giveBack).trans (goto _ hold)
  · cases hstep
    exact (setLock lid { lock with holder := LockInfo.FREE }).trans signalAll
  · cases hstep
    exact setLock lid { lock with holder := LockInfo.FREE }

/-- The call of the server returns in `release`. -/
theorem releaseReturns (hstep : c.releaseReturns t = some c') : Frame c c' := by
  unfold Client.releaseReturns at hstep
  split at hstep
  next lid hpc =>
    cases hstep
    exact goto _ fun l => by rw [hpc]; exact Pc.noConfusion
  next => cases hstep

/-- A `revoke` arrives. -/
theorem revokeHandler (hstep : c.revokeHandler lid = some c') : Frame c c' := by
  unfold Client.revokeHandler at hstep
  split_ifs at hstep with hhandler
  split at hstep
  · cases hstep
    exact setLock lid _
  · split_ifs at hstep
    · cases hstep
      -- No handler was in `dorelease` before.
      refine ⟨fun _ _ => id, fun _ _ => id, fun l hl => ?_⟩
      rw [hhandler] at hl
      cases hl
    · cases hstep
      exact setLock lid _

/-- A `retry` arrives. -/
theorem retryHandler (hstep : c.retryHandler lid = some c') : Frame c c' := by
  unfold Client.retryHandler at hstep
  obtain ⟨-, hstep⟩ := Option.ite_none_right_eq_some.mp hstep
  obtain ⟨lock, -, hstep⟩ := Option.bind_eq_some_iff.mp hstep
  cases hstep
  exact (setLock lid _).trans signalAll

end Client.Frame

/-! ## Events -/

/-- The step that an event makes client `c` take. -/
inductive ClientStep (s : LockState) (c : ℕ) : LockEvent → Client → Prop where
  /-- A thread calls `acquire`. -/
  | acquire {t lid cl} : (s.clients c).acquire t lid = some cl →
      ClientStep s c (.acquire c t lid) cl
  /-- A thread goes on in `acquire`. -/
  | run {t cl out} : (s.clients c).run (clientId c) t = some (cl, out) →
      ClientStep s c (.run c t) cl
  /-- A reply arrives. -/
  | reply {t status ok cl} : (s.clients c).acquireReturns t ok = some cl →
      ClientStep s c (.reply c t status) cl
  /-- A call fails. -/
  | callFails {t cl} : (s.clients c).acquireReturns t false = some cl →
      ClientStep s c (.callFails c t) cl
  /-- A thread wakes up. -/
  | wakes {t cl} : (s.clients c).wakes t = some cl → ClientStep s c (.wakes c t) cl
  /-- A thread calls `release`. -/
  | release {t lid cl} : (s.clients c).release t lid = some cl →
      ClientStep s c (.release c t lid) cl
  /-- `dorelease` returns to a thread. -/
  | released {t cl m} : (s.clients c).released (clientId c) t = some (cl, m) →
      ClientStep s c (.released c t) cl
  /-- A thread returns from `release`. -/
  | releaseReturns {t cl} : (s.clients c).releaseReturns t = some cl →
      ClientStep s c (.releaseReturns c t) cl
  /-- A `revoke` arrives. -/
  | revoke {lid cl} : Msg.revoke lid (clientId c) ∈ s.msgs →
      (s.clients c).revokeHandler lid = some cl → ClientStep s c (.revoke c lid) cl
  /-- `dorelease` returns to a revoke handler. -/
  | revokeReleased {cl m} : (s.clients c).revokeReleased (clientId c) = some (cl, m) →
      ClientStep s c (.revokeReleased c) cl
  /-- A `retry` arrives. -/
  | retry {lid cl} : (s.clients c).retryHandler lid = some cl → ClientStep s c (.retry c lid) cl

variable {s s' : LockState} {e : LockEvent} {c t : ℕ} {lid : LockId}

/-- What an event does to the clients: nothing, or one of them takes a step. -/
theorem clients_next (hstep : s.next e = some s') :
    s'.clients = s.clients ∨
      ∃ c cl, ClientStep s c e cl ∧ s'.clients = Function.update s.clients c cl := by
  cases e with
  | acquire c t lid =>
    obtain ⟨cl, hcl, rfl⟩ := Option.map_eq_some_iff.mp hstep
    exact Or.inr ⟨c, cl, .acquire hcl, rfl⟩
  | run c t =>
    obtain ⟨⟨cl, out⟩, hcl, rfl⟩ := Option.map_eq_some_iff.mp hstep
    exact Or.inr ⟨c, cl, .run hcl, rfl⟩
  | reply c t status =>
    simp only [LockState.next] at hstep
    split at hstep
    · split_ifs at hstep
      obtain ⟨cl, hcl, rfl⟩ := Option.map_eq_some_iff.mp hstep
      exact Or.inr ⟨c, cl, .reply hcl, rfl⟩
    · cases hstep
  | callFails c t =>
    obtain ⟨cl, hcl, rfl⟩ := Option.map_eq_some_iff.mp hstep
    exact Or.inr ⟨c, cl, .callFails hcl, rfl⟩
  | wakes c t =>
    obtain ⟨cl, hcl, rfl⟩ := Option.map_eq_some_iff.mp hstep
    exact Or.inr ⟨c, cl, .wakes hcl, rfl⟩
  | release c t lid =>
    obtain ⟨cl, hcl, rfl⟩ := Option.map_eq_some_iff.mp hstep
    exact Or.inr ⟨c, cl, .release hcl, rfl⟩
  | released c t =>
    obtain ⟨⟨cl, m⟩, hcl, rfl⟩ := Option.map_eq_some_iff.mp hstep
    exact Or.inr ⟨c, cl, .released hcl, rfl⟩
  | releaseReturns c t =>
    obtain ⟨cl, hcl, rfl⟩ := Option.map_eq_some_iff.mp hstep
    exact Or.inr ⟨c, cl, .releaseReturns hcl, rfl⟩
  | revoke c lid =>
    simp only [LockState.next] at hstep
    split_ifs at hstep with hm
    obtain ⟨cl, hcl, rfl⟩ := Option.map_eq_some_iff.mp hstep
    exact Or.inr ⟨c, cl, .revoke hm hcl, rfl⟩
  | revokeReleased c =>
    obtain ⟨⟨cl, m⟩, hcl, rfl⟩ := Option.map_eq_some_iff.mp hstep
    exact Or.inr ⟨c, cl, .revokeReleased hcl, rfl⟩
  | retry c lid =>
    simp only [LockState.next] at hstep
    split_ifs at hstep
    obtain ⟨cl, hcl, rfl⟩ := Option.map_eq_some_iff.mp hstep
    exact Or.inr ⟨c, cl, .retry hcl, rfl⟩
  | serverAcquire lid id xid =>
    obtain ⟨-, ⟨⟩⟩ := Option.ite_none_right_eq_some.mp hstep
    exact Or.inl rfl
  | serverRelease lid id =>
    simp only [LockState.next] at hstep
    split_ifs at hstep
    obtain ⟨⟨server, holder⟩, -, hs'⟩ := Option.map_eq_some_iff.mp hstep
    subst hs'
    cases holder <;> exact Or.inl rfl
  | enforcer =>
    cases hstep
    exact Or.inl rfl
  | revoker =>
    obtain ⟨⟨request, server⟩, -, rfl⟩ := Option.map_eq_some_iff.mp hstep
    exact Or.inl rfl
  | lose m =>
    obtain ⟨-, ⟨⟩⟩ := Option.ite_none_right_eq_some.mp hstep
    exact Or.inl rfl

/-- What a step of a client does not take away. -/
theorem ClientStep.frame {cl : Client} (h : ClientStep s c e cl) :
    (s.clients c).Frame cl ∨
      (∃ t lid, e = .release c t lid ∧ ((s.clients c).leaves t lid).Frame cl) ∨
      (∃ t lid, e = .released c t ∧ cl = (s.clients c).goto t (.releasing lid)) ∨
      (e = .revokeReleased c ∧ cl = { s.clients c with handler := none }) := by
  cases h with
  | acquire hcl => exact Or.inl (.acquire hcl)
  | run hcl => exact Or.inl (.run hcl)
  | reply hcl => exact Or.inl (.acquireReturns hcl)
  | callFails hcl => exact Or.inl (.acquireReturns hcl)
  | wakes hcl => exact Or.inl (.wakes hcl)
  | @release t lid cl hcl => exact Or.inr (Or.inl ⟨t, lid, rfl, .release hcl⟩)
  | @released t cl m hcl =>
    unfold Client.released at hcl
    split at hcl
    next lid hpc =>
      cases hcl
      exact Or.inr (Or.inr (Or.inl ⟨t, lid, rfl, rfl⟩))
    next => cases hcl
  | releaseReturns hcl => exact Or.inl (.releaseReturns hcl)
  | revoke _ hcl => exact Or.inl (.revokeHandler hcl)
  | revokeReleased hcl =>
    obtain ⟨lid, -, hcl⟩ := Option.map_eq_some_iff.mp hcl
    cases hcl
    exact Or.inr (Or.inr (Or.inr ⟨rfl, rfl⟩))
  | retry hcl => exact Or.inl (.retryHandler hcl)

/-- A thread holds a lock until it releases it. -/
theorem holds_next (hstep : s.next e = some s') (hholds : Holds s c t lid)
    (hne : e ≠ .release c t lid) : Holds s' c t lid := by
  unfold Holds at hholds ⊢
  rcases clients_next hstep with hsame | ⟨c', cl, hcl, hclients⟩
  · rw [hsame]
    exact hholds
  · rw [hclients]
    by_cases hc : c = c'
    · subst hc
      rw [Function.update_self]
      rcases hcl.frame with hframe | ⟨t', lid', rfl, hframe⟩ | ⟨t', lid', -, rfl⟩ | ⟨-, rfl⟩
      · exact hframe.held t lid hholds
      · -- The release of another lock, or by another thread.
        refine hframe.held t lid ?_
        show lid ∈ Function.update (s.clients c).held t' _ t
        by_cases ht : t = t'
        · subst ht
          rw [Function.update_self, List.mem_filter]
          refine ⟨hholds, decide_eq_true ?_⟩
          rintro rfl
          exact hne rfl
        · rw [Function.update_of_ne ht]
          exact hholds
      · exact hholds
      · exact hholds
    · rw [Function.update_of_ne hc]
      exact hholds

/-- A thread or a revoke handler that calls `dorelease`. -/
inductive Worker where
  /-- A thread in `release`. -/
  | thread (t : ℕ)
  /-- The revoke handler that holds `sync_root`. -/
  | handler
  deriving DecidableEq, Repr

namespace Worker

/-- The worker is in `dorelease` for the lock. -/
def GivesBack (w : Worker) (client : Client) (lid : LockId) : Prop :=
  match w with
  | thread t => client.pc t = .dorelease lid
  | handler => client.handler = some lid

instance (w : Worker) (client : Client) (lid : LockId) : Decidable (w.GivesBack client lid) :=
  match w with
  | thread t => inferInstanceAs (Decidable (client.pc t = .dorelease lid))
  | handler => inferInstanceAs (Decidable (client.handler = some lid))

/-- The event that `dorelease` returns to the worker of client `c`. -/
def returns (w : Worker) (c : ℕ) : LockEvent :=
  match w with
  | thread t => .released c t
  | handler => .revokeReleased c

/-- The event tells which worker it is. -/
theorem returns_inj {w w' : Worker} {c' : ℕ} (h : w.returns c = w'.returns c') :
    c' = c ∧ w' = w := by
  cases w <;> cases w' <;> cases h <;> exact ⟨rfl, rfl⟩

/-- A worker is in `dorelease` for one lock only. -/
theorem GivesBack.unique {w : Worker} {cl : Client} {l : LockId} (h : w.GivesBack cl l)
    (h' : w.GivesBack cl lid) : l = lid := by
  cases w with
  | thread t => exact Pc.dorelease.inj (Eq.trans (Eq.symm h) h')
  | handler => exact Option.some.inj (Eq.trans (Eq.symm h) h')

/-- A worker that is in `dorelease` stays there within a frame. -/
theorem GivesBack.frame {w : Worker} {cl cl' : Client} (hw : w.GivesBack cl lid)
    (h : cl.Frame cl') : w.GivesBack cl' lid :=
  match w with
  | thread t => h.pc t lid hw
  | handler => h.handler lid hw

/-- A worker is in `dorelease` until that call returns. -/
theorem givesBack_next {w : Worker} (hstep : s.next e = some s')
    (hw : w.GivesBack (s.clients c) lid) (hne : e ≠ w.returns c) :
    w.GivesBack (s'.clients c) lid := by
  rcases clients_next hstep with hsame | ⟨c', cl, hcl, hclients⟩
  · rw [hsame]
    exact hw
  · rw [hclients]
    by_cases hc : c = c'
    · subst hc
      rw [Function.update_self]
      rcases hcl.frame with hframe | ⟨t, lid', -, hframe⟩ | ⟨t, lid', rfl, rfl⟩ | ⟨rfl, rfl⟩
      · exact hw.frame hframe
      · have hleaves : w.GivesBack ((s.clients c).leaves t lid') lid := by
          cases w <;> exact hw
        exact hleaves.frame hframe
      · -- `dorelease` returns to another worker.
        cases w with
        | thread t' =>
          have ht : t' ≠ t := by
            rintro rfl
            exact hne rfl
          show ((s.clients c).goto t (.releasing lid')).pc t' = .dorelease lid
          rw [Client.pc_goto, if_neg ht]
          exact hw
        | handler => exact hw
      · cases w with
        | thread t' => exact hw
        | handler => exact absurd rfl hne
    · rw [Function.update_of_ne hc]
      exact hw

end Worker

/-! ## Custody -/

/-- The client owns the lock, or has not sent it back yet. -/
def Custody (s : LockState) (c : ℕ) (lid : LockId) : Prop :=
  ((s.clients c).flags lid).owned = true ∨ 0 < ((s.clients c).flags lid).flushes

/-- The step of client `c` to `cl` changes its flags at one lock at most, and keeps the custody of
that lock unless `dorelease` returns for it. -/
def ChangesOne (s : LockState) (c : ℕ) (e : LockEvent) (cl : Client) : Prop :=
  ∃ lid fl, cl.flags = Function.update (s.clients c).flags lid fl ∧
    (Custody s c lid → (fl.owned = true ∨ 0 < fl.flushes) ∨
      ∃ w : Worker, e = w.returns c ∧ w.GivesBack (s.clients c) lid)

/-- A step that keeps the flags. -/
theorem ChangesOne.of_eq {cl : Client} (hflags : cl.flags = (s.clients c).flags) :
    ChangesOne s c e cl :=
  ⟨0, _, hflags.trans (Function.update_eq_self 0 _).symm, Or.inl⟩

namespace LockInv

/-- Only one client has a lock in its custody. -/
theorem custody_unique (h : LockInv s) {c c' : ℕ} (hc : Custody s c lid) (hc' : Custody s c' lid) :
    c = c' :=
  clientId_inj.mp ((h.holder_eq hc).symm.trans (h.holder_eq hc'))

/-- A worker that gives a lock back has it in its custody. -/
theorem custody_of_givesBack (h : LockInv s) {w : Worker} (hw : w.GivesBack (s.clients c) lid) :
    Custody s c lid := by
  refine Or.inr ?_
  cases w with
  | thread t => exact Nat.add_pos_left (countAt_pos ((h.clients c).finite_flushes lid) hw) _
  | handler =>
    refine Nat.add_pos_right _ ?_
    rw [if_pos (show (s.clients c).handler = some lid from hw)]
    exact Nat.one_pos

/-- The call of `acquire_lock` returns, to a client that owns the lock already or does not yet. -/
theorem changesOne_of_returns (h : LockInv s) {cl : Client} {t : ℕ} {ok : Bool}
    (hcl : (s.clients c).acquireReturns t ok = some cl) : ChangesOne s c e cl := by
  obtain ⟨-, lid, xid, -, ⟨hflags, -⟩ | ⟨howned, hflags⟩⟩ :=
    Client.acquireReturns_spec (h.clients c) hcl
  · exact .of_eq hflags
  · refine ⟨lid, _, hflags, fun hcustody => Or.inl (Or.inr ?_)⟩
    rcases hcustody with htrue | hflushes
    · rw [howned] at htrue
      cases htrue
    · exact hflushes

/-- Every step of a client changes its flags at one lock at most, and keeps the custody of it unless
`dorelease` returns. -/
theorem changesOne_of_step (h : LockInv s) {cl : Client} (hcl : ClientStep s c e cl) :
    ChangesOne s c e cl := by
  cases hcl with
  | acquire hcl => exact .of_eq (Client.acquire_spec (h.clients c) hcl).2
  | run hcl =>
    rcases (Client.run_spec (h.clients c) hcl).2 with ⟨-, hflags⟩ | ⟨lid, -, -, -, hflags⟩
    · exact .of_eq hflags
    · exact ⟨lid, _, hflags, Or.inl⟩
  | reply hcl => exact h.changesOne_of_returns hcl
  | callFails hcl => exact h.changesOne_of_returns hcl
  | wakes hcl => exact .of_eq (Client.wakes_spec (h.clients c) hcl).2
  | @release t lid cl hcl =>
    rcases (Client.release_spec (h.clients c) hcl).2.2 with hflags | ⟨-, hflags⟩
    · exact .of_eq hflags
    · exact ⟨lid, _, hflags, fun _ => Or.inl (Or.inr (Nat.succ_pos _))⟩
  | @released t cl m hcl =>
    obtain ⟨-, lid, hpc, -, -, hflags⟩ := Client.released_spec (h.clients c) hcl
    exact ⟨lid, _, hflags, fun _ => Or.inr ⟨.thread t, rfl, hpc⟩⟩
  | releaseReturns hcl => exact .of_eq (Client.releaseReturns_spec (h.clients c) hcl).2
  | @revoke lid cl hm hcl =>
    rcases (Client.revokeHandler_spec (h.clients c) hcl).2 with hidle | ⟨-, hflags⟩ | hflags
    · -- A `revoke` comes only to a client that has the lock or is acquiring it.
      exact absurd hidle ((h.sound c lid).not_idle_of_revoke (inFlight_pos hm))
    · exact ⟨lid, _, hflags, fun _ => Or.inl (Or.inr (Nat.succ_pos _))⟩
    · exact ⟨lid, _, hflags, Or.inl⟩
  | revokeReleased hcl =>
    obtain ⟨-, lid, hhandler, -, -, hflags⟩ := Client.revokeReleased_spec (h.clients c) hcl
    exact ⟨lid, _, hflags, fun _ => Or.inr ⟨.handler, rfl, hhandler⟩⟩
  | @retry lid cl hcl =>
    exact ⟨lid, _, (Client.retryHandler_spec (h.clients c) hcl).2, fun _ => Or.inl (Or.inl rfl)⟩

/-- A lock stays in custody until `dorelease` returns for it. -/
theorem custody_next (h : LockInv s) (hstep : s.next e = some s') (hc : Custody s c lid)
    (hne : ∀ w : Worker, e = w.returns c → ¬ w.GivesBack (s.clients c) lid) : Custody s' c lid := by
  unfold Custody
  rcases clients_next hstep with hsame | ⟨c', cl, hcl, hclients⟩
  · rw [hsame]
    exact hc
  · rw [hclients]
    by_cases heq : c = c'
    · subst heq
      obtain ⟨lid', fl, hflags, hkeep⟩ := h.changesOne_of_step hcl
      rw [Function.update_self, hflags]
      by_cases hl : lid = lid'
      · subst hl
        rw [Function.update_self]
        rcases hkeep hc with hkept | ⟨w, hreturns, hw⟩
        · exact hkept
        · exact absurd hw (hne w hreturns)
      · rw [Function.update_of_ne hl]
        exact hc
    · rw [Function.update_of_ne heq]
      exact hc

end LockInv

end SimpleDfs.Lock
