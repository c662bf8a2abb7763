import SimpleDfs.Lock.Threads

/-!
# The waiting threads of a lock client

No thread of a client waits without a reason, whatever the server sends. `Wakeful` says what the
reasons are: a thread that waits until the client owns the lock waits at a client that has asked for
it; a thread that was not signaled waits at a client that does not own the lock, or whose lock a
thread holds; and a lock that the server wants back is given back later, because a thread holds it
or is going to. Every step keeps this, because the waiting threads are signaled whenever a lock is
granted or left, and because a client gives a lock back only when no thread waits for it.

`asks` counts the threads that are in a call of `acquire`; only the start and the end of such a call
change it.
-/

namespace SimpleDfs.Lock

namespace Pc

/-- The thread is in a call of `acquire` for the lock. -/
def Asks (lid : LockId) : Pc → Prop
  | awaitReply l _ => l = lid
  | _ => False

instance (lid : LockId) : DecidablePred (Asks lid)
  | awaitReply l _ => inferInstanceAs (Decidable (l = lid))
  | idle | entered _ | acquireLock _ | back _ | waitOwned _ _ | waitFree _ _ | dorelease _
  | releasing _ => inferInstanceAs (Decidable False)

/-- The thread relies on the client to own the lock, or to have asked for it. -/
def Relies (lid : LockId) : Pc → Prop
  | awaitReply l _ | back l | waitOwned l _ => l = lid
  | _ => False

/-- A thread that relies on the client waits for the lock. -/
theorem Relies.waits {lid : LockId} {pc : Pc} (h : pc.Relies lid) : pc.Waits lid := by
  cases pc with
  | awaitReply l x | back l | waitOwned l b => exact h
  | _ => cases h

/-- A signal does not change who is in a call. -/
theorem asks_signal (lid l : LockId) (pc : Pc) : (pc.signal lid).Asks l ↔ pc.Asks l := by
  cases pc with
  | waitOwned m b | waitFree m b =>
    simp only [signal]
    split_ifs <;> rfl
  | _ => rfl

/-- A signal does not change who relies on the client. -/
theorem relies_signal (lid l : LockId) (pc : Pc) : (pc.signal lid).Relies l ↔ pc.Relies l := by
  cases pc with
  | waitOwned m b | waitFree m b =>
    simp only [signal]
    split_ifs <;> rfl
  | _ => rfl

/-- After a signal a thread that was not signaled waits for another lock, as before. -/
theorem of_signal {lid l : LockId} {pc : Pc}
    (h : pc.signal lid = .waitOwned l false ∨ pc.signal lid = .waitFree l false) :
    l ≠ lid ∧ pc.signal lid = pc := by
  cases pc with
  | waitOwned m b =>
    simp only [signal] at h ⊢
    split_ifs at h ⊢ with hm
    · simp at h
    · rcases h with h | h
      · cases h
        exact ⟨hm, rfl⟩
      · cases h
  | waitFree m b =>
    simp only [signal] at h ⊢
    split_ifs at h ⊢ with hm
    · simp at h
    · rcases h with h | h
      · cases h
      · cases h
        exact ⟨hm, rfl⟩
  | _ => rcases h with h | h <;> cases h

end Pc

/-- The threads of a client do not wait without a reason. -/
structure Wakeful (c : Client) : Prop where
  /-- The client owns the lock that a thread relies on, or has asked for it. -/
  relies : ∀ t lid, (c.pc t).Relies lid →
    (c.info lid).owned = true ∨ (c.info lid).acquiring = true
  /-- A thread that was not signaled waits for a lock that the client does not own. -/
  waitOwned : ∀ t lid, c.pc t = .waitOwned lid false → (c.info lid).owned = false
  /-- A thread that was not signaled waits for a lock that a thread of the client holds. -/
  waitFree : ∀ t lid, c.pc t = .waitFree lid false → (c.info lid).holder ≠ LockInfo.FREE
  /-- A lock that the server wants back is held, or a thread waits for it. -/
  revoked : ∀ lid, (c.info lid).revoked = true →
    (c.info lid).holder ≠ LockInfo.FREE ∨ 0 < (c.info lid).awaiting_lock
  /-- A thread waits for a lock that is being acquired. -/
  acquiring : ∀ lid, (c.info lid).acquiring = true → 0 < (c.info lid).awaiting_lock

/-- The number of threads in a call of `acquire` for a lock. -/
noncomputable def Client.asks (c : Client) (lid : LockId) : ℕ := countAt (Pc.Asks lid) c.pc

variable {c c' : Client} {t : ℕ} {lid : LockId}

/-- A thread that waits for a lock is counted. -/
theorem ClientInv.awaiting_pos (h : ClientInv c) (hpc : (c.pc t).Waits lid) :
    0 < (c.info lid).awaiting_lock := by
  rw [h.awaiting lid]
  exact countAt_pos (h.finite_waits lid) hpc

namespace Wakeful

/-! ## The parts of a step -/

/-- A client that has just started. -/
protected theorem start : Wakeful Client.start where
  relies _ _ h := h.elim
  waitOwned := nofun
  waitFree := nofun
  revoked := nofun
  acquiring := nofun

/-- Only the places and the records matter. -/
theorem congr (h : Wakeful c) (hpc : c'.pc = c.pc) (hlist : c'.lock_list = c.lock_list) :
    Wakeful c' := by
  have hinfo : c'.info = c.info := by
    funext l
    rw [Client.info, hlist, Client.info]
  constructor
  · rw [hpc, hinfo]
    exact h.relies
  · rw [hpc, hinfo]
    exact h.waitOwned
  · rw [hpc, hinfo]
    exact h.waitFree
  · rw [hinfo]
    exact h.revoked
  · rw [hinfo]
    exact h.acquiring

/-- A thread moves. -/
theorem goto (h : Wakeful c) {pc : Pc}
    (hrelies : ∀ l, pc.Relies l → (c.info l).owned = true ∨ (c.info l).acquiring = true)
    (howned : ∀ l, pc = .waitOwned l false → (c.info l).owned = false)
    (hfree : ∀ l, pc = .waitFree l false → (c.info l).holder ≠ LockInfo.FREE) :
    Wakeful (c.goto t pc) where
  relies t' l hpc := by
    rw [Client.pc_goto] at hpc
    split_ifs at hpc
    · exact hrelies l hpc
    · exact h.relies t' l hpc
  waitOwned t' l hpc := by
    rw [Client.pc_goto] at hpc
    split_ifs at hpc
    · exact howned l hpc
    · exact h.waitOwned t' l hpc
  waitFree t' l hpc := by
    rw [Client.pc_goto] at hpc
    split_ifs at hpc
    · exact hfree l hpc
    · exact h.waitFree t' l hpc
  revoked := h.revoked
  acquiring := h.acquiring

/-- A thread moves to a place where it neither relies on the client nor waits for a signal. -/
theorem goto_free (h : Wakeful c) {pc : Pc} (hrelies : ∀ l, ¬ pc.Relies l)
    (hfree : ∀ l, pc ≠ .waitFree l false) : Wakeful (c.goto t pc) := by
  refine h.goto (fun l hl => absurd hl (hrelies l)) (fun l hl => ?_) fun l hl => absurd hl (hfree l)
  rw [hl] at hrelies
  exact absurd rfl (hrelies l)

/-- The record of one lock changes. -/
theorem setLock (h : Wakeful c) (lid : LockId) (lock : LockInfo)
    (hrelies : ∀ t, (c.pc t).Relies lid → lock.owned = true ∨ lock.acquiring = true)
    (howned : ∀ t, c.pc t = .waitOwned lid false → lock.owned = false)
    (hfree : ∀ t, c.pc t = .waitFree lid false → lock.holder ≠ LockInfo.FREE)
    (hrevoked : lock.revoked = true → lock.holder ≠ LockInfo.FREE ∨ 0 < lock.awaiting_lock)
    (hacquiring : lock.acquiring = true → 0 < lock.awaiting_lock) :
    Wakeful (c.setLock lid lock) where
  relies t l hpc := by
    rw [Client.info_setLock]
    split_ifs with hl
    · subst hl
      exact hrelies t hpc
    · exact h.relies t l hpc
  waitOwned t l hpc := by
    rw [Client.info_setLock]
    split_ifs with hl
    · subst hl
      exact howned t hpc
    · exact h.waitOwned t l hpc
  waitFree t l hpc := by
    rw [Client.info_setLock]
    split_ifs with hl
    · subst hl
      exact hfree t hpc
    · exact h.waitFree t l hpc
  revoked l := by
    rw [Client.info_setLock]
    split_ifs
    · exact hrevoked
    · exact h.revoked l
  acquiring l := by
    rw [Client.info_setLock]
    split_ifs
    · exact hacquiring
    · exact h.acquiring l

/-- The condition variable of a lock is signaled. -/
theorem signalAll (h : Wakeful c) (lid : LockId) : Wakeful (c.signalAll lid) where
  relies t l hpc := h.relies t l ((Pc.relies_signal lid l (c.pc t)).mp hpc)
  waitOwned t l hpc := h.waitOwned t l ((Pc.of_signal (Or.inl hpc)).2.symm.trans hpc)
  waitFree t l hpc := h.waitFree t l ((Pc.of_signal (Or.inr hpc)).2.symm.trans hpc)
  revoked := h.revoked
  acquiring := h.acquiring

/-- The lock is granted, and the threads that wait for it are signaled. -/
theorem grant (h : Wakeful c) (lid : LockId) :
    Wakeful ((c.setLock lid { c.info lid with acquiring := false, owned := true }).signalAll
      lid) := by
  refine (h.signalAll lid).setLock lid { c.info lid with acquiring := false, owned := true }
    (fun _ _ => Or.inl rfl) (fun t hpc => absurd rfl (Pc.of_signal (Or.inl hpc)).1)
    (fun t hpc => absurd rfl (Pc.of_signal (Or.inr hpc)).1) (h.revoked lid) fun hfalse => ?_
  cases hfalse

/-- A thread goes on with a lock that the client owns. -/
theorem awaitFree (h : Wakeful c) (howned : (c.info lid).owned = true)
    (hacquiring : (c.info lid).acquiring = false) :
    Wakeful (c.awaitFree t lid (c.info lid)) := by
  unfold Client.awaitFree
  split_ifs with hholder
  · have hset : Wakeful (c.setLock lid ((c.info lid).take t)) := by
      refine h.setLock lid _ (fun _ _ => Or.inl howned) (fun t' hpc => ?_)
        (fun _ _ => Nat.succ_ne_zero t) (fun _ => Or.inl (Nat.succ_ne_zero t)) fun htrue => ?_
      · rw [h.waitOwned t' lid hpc] at howned
        cases howned
      · cases hacquiring.symm.trans htrue
    have hgoto : Wakeful ((c.setLock lid ((c.info lid).take t)).goto t .idle) :=
      hset.goto_free (fun _ hl => hl.elim) fun _ => Pc.noConfusion
    exact hgoto.congr rfl rfl
  · refine h.goto (fun l hl => hl.elim) nofun fun l hl => ?_
    cases hl
    exact hholder

/-- A thread goes on with a lock that the client owns or has asked for. -/
theorem awaitOwned (h : Wakeful c)
    (hreason : (c.info lid).owned = true ∨ (c.info lid).acquiring = true)
    (hphases : (c.info lid).owned = true → (c.info lid).acquiring = false) :
    Wakeful (c.awaitOwned t lid (c.info lid)) := by
  unfold Client.awaitOwned
  split_ifs with howned
  · refine h.goto (fun l hl => ?_) (fun l hl => ?_) nofun
    · obtain rfl : lid = l := hl
      exact hreason
    · cases hl
      exact howned
  · rw [Bool.not_eq_false] at howned
    exact h.awaitFree howned (hphases howned)

end Wakeful

namespace Client

/-! ## The calls -/

/-- The calls after a thread moved. -/
theorem asks_goto (h : {t | c.pc t ≠ .idle}.Finite) (pc : Pc) (l : LockId) :
    (c.goto t pc).asks l + (if (c.pc t).Asks l then 1 else 0) =
      c.asks l + if pc.Asks l then 1 else 0 := by
  have hfinite : {t | (c.pc t).Asks l}.Finite := by
    refine h.subset fun t ht hidle => ?_
    rw [Set.mem_ofPred_eq, hidle] at ht
    exact ht
  exact countAt_update hfinite t pc

/-- A thread that moves outside of its calls. -/
theorem asks_goto_of_not (h : {t | c.pc t ≠ .idle}.Finite) (pc : Pc)
    (hold : ∀ l, ¬ (c.pc t).Asks l) (hnew : ∀ l, ¬ pc.Asks l) : (c.goto t pc).asks = c.asks := by
  funext l
  have hcount := asks_goto (t := t) h pc l
  rw [if_neg (hold l), if_neg (hnew l)] at hcount
  exact hcount

/-- A thread starts a call. -/
theorem asks_goto_awaitReply (h : {t | c.pc t ≠ .idle}.Finite) (hold : ∀ l, ¬ (c.pc t).Asks l)
    (xid : ℕ) :
    (c.goto t (.awaitReply lid xid)).asks = Function.update c.asks lid (c.asks lid + 1) := by
  funext l
  have hcount := asks_goto (t := t) h (.awaitReply lid xid) l
  rw [if_neg (hold l)] at hcount
  by_cases hl : l = lid
  · subst hl
    rw [if_pos (show (Pc.awaitReply l xid).Asks l from rfl)] at hcount
    rw [Function.update_self]
    exact hcount
  · rw [if_neg (show ¬ (Pc.awaitReply lid xid).Asks l from Ne.symm hl)] at hcount
    rw [Function.update_of_ne hl]
    exact hcount

/-- The call of a thread returns. -/
theorem asks_goto_back (h : {t | c.pc t ≠ .idle}.Finite) {xid : ℕ}
    (hpc : c.pc t = .awaitReply lid xid) :
    0 < c.asks lid ∧
      (c.goto t (.back lid)).asks = Function.update c.asks lid (c.asks lid - 1) := by
  -- The thread is counted before the move, and not after it.
  have hself := asks_goto (t := t) h (.back lid) lid
  rw [hpc, if_pos (show (Pc.awaitReply lid xid).Asks lid from rfl),
    if_neg (show ¬ (Pc.back lid).Asks lid from id)] at hself
  refine ⟨by omega, ?_⟩
  funext l
  by_cases hl : l = lid
  · subst hl
    rw [Function.update_self]
    omega
  · have hcount := asks_goto (t := t) h (.back lid) l
    rw [hpc, if_neg (show ¬ (Pc.awaitReply lid xid).Asks l from Ne.symm hl),
      if_neg (show ¬ (Pc.back lid).Asks l from id)] at hcount
    rw [Function.update_of_ne hl]
    exact hcount

/-- A signal starts and ends no call. -/
theorem asks_signalAll : (c.signalAll lid).asks = c.asks := by
  funext l
  exact countAt_congr fun t => Pc.asks_signal lid l (c.pc t)

/-- A thread that is in no call goes on with a lock. -/
theorem asks_awaitFree (h : {t | c.pc t ≠ .idle}.Finite) (lock : LockInfo)
    (hold : ∀ l, ¬ (c.pc t).Asks l) : (c.awaitFree t lid lock).asks = c.asks := by
  unfold awaitFree
  split_ifs
  · exact asks_goto_of_not (t := t) h .idle hold fun _ hl => hl
  · exact asks_goto_of_not h _ hold fun _ hl => hl

/-- A thread that is in no call goes on with a lock that the client owns or has asked for. -/
theorem asks_awaitOwned (h : {t | c.pc t ≠ .idle}.Finite) (lock : LockInfo)
    (hold : ∀ l, ¬ (c.pc t).Asks l) : (c.awaitOwned t lid lock).asks = c.asks := by
  unfold awaitOwned
  split_ifs
  · exact asks_goto_of_not h _ hold fun _ hl => hl
  · exact asks_awaitFree h lock hold

/-! ## The steps of a client -/

/-- A call of `acquire`. -/
theorem acquire_keeps (h : ClientInv c) (hw : Wakeful c) (hstep : c.acquire t lid = some c') :
    Wakeful c' ∧ c'.asks = c.asks := by
  unfold acquire at hstep
  split_ifs at hstep with hcond
  have hcalls : (c.goto t (.entered lid)).asks = c.asks :=
    asks_goto_of_not h.finite _ (fun l => by rw [hcond.1]; exact id) fun _ hl => hl
  have hmove : Wakeful (c.goto t (.entered lid)) :=
    hw.goto_free (fun _ hl => hl) fun _ => Pc.noConfusion
  cases hlock : c.lock_list lid with
  | none =>
    rw [hlock] at hstep
    cases hstep
    -- A lock without a record is as if it had a new one.
    have hnew : (c.goto t (.entered lid)).info lid = .new := by
      rw [info_goto, info, hlock, Option.getD_none]
    refine ⟨hmove.setLock lid .new (fun t' hpc => ?_) (fun _ _ => rfl) (fun t' hpc => ?_)
      (fun hfalse => by cases hfalse) (fun hfalse => by cases hfalse), hcalls⟩
    · have hrelies := hmove.relies t' lid hpc
      rw [hnew] at hrelies
      exact hrelies
    · have hholder := hmove.waitFree t' lid hpc
      rw [hnew] at hholder
      exact hholder
  | some lock =>
    rw [hlock] at hstep
    cases hstep
    exact ⟨hmove, hcalls⟩

/-- A thread that relies on the client goes on. -/
theorem relies_keeps (h : ClientInv c) (hw : Wakeful c)
    (hphases : (c.info lid).owned = true → (c.info lid).acquiring = false)
    (hpc : (c.pc t).Relies lid) (hnot : ∀ l, ¬ (c.pc t).Asks l) {out : List Msg}
    (hstep : (do let lock ← c.lock_list lid; some (c.awaitOwned t lid lock, ([] : List Msg))) =
      some (c', out)) : Wakeful c' ∧ out = [] ∧ c'.asks = c.asks := by
  replace hstep := of_lock_list hstep
  cases hstep
  exact ⟨hw.awaitOwned (hw.relies t lid hpc) hphases, rfl, asks_awaitOwned h.finite _ hnot⟩

/-- A step of a thread in `acquire` starts a call when it asks the server, and no other step does. A
client that owns the lock is not acquiring it. -/
theorem run_keeps (h : ClientInv c) (hw : Wakeful c)
    (hphases : ∀ l, (c.info l).owned = true → (c.info l).acquiring = false) {id : String}
    {out : List Msg} (hstep : c.run id t = some (c', out)) :
    Wakeful c' ∧ (out = [] ∧ c'.asks = c.asks ∨
      ∃ lid, out = [.acquire lid id c.xid] ∧
        c'.asks = Function.update c.asks lid (c.asks lid + 1)) := by
  unfold run at hstep
  split_ifs at hstep with hhandler
  split at hstep
  next lid hpc =>
    -- The thread counts itself among those that wait.
    replace hstep := of_lock_list hstep
    have hnot : ∀ l, ¬ (c.pc t).Asks l := fun l hl => by rw [hpc] at hl; exact hl
    have hset : Wakeful (c.setLock lid (c.info lid).await) :=
      hw.setLock lid _ (fun t' ht' => hw.relies t' lid ht') (fun t' ht' => hw.waitOwned t' lid ht')
        (fun t' ht' => hw.waitFree t' lid ht') (fun _ => Or.inr (Nat.succ_pos _))
        fun _ => Nat.succ_pos _
    have hinfo : (c.setLock lid (c.info lid).await).info lid = (c.info lid).await := by
      rw [info_setLock, if_pos rfl]
    dsimp only at hstep
    split_ifs at hstep with hflag
    · cases hstep
      exact ⟨hset.goto_free (fun _ hl => hl) fun _ => Pc.noConfusion,
        Or.inl ⟨rfl, asks_goto_of_not (t := t) h.finite (.acquireLock lid) hnot
          fun _ hl => hl⟩⟩
    · cases hstep
      have hreason : (c.info lid).owned = true ∨ (c.info lid).acquiring = true := by
        by_contra hnone
        simp only [not_or, Bool.not_eq_true] at hnone
        exact hflag hnone
      have hawait : ((c.setLock lid (c.info lid).await).info lid).owned = true ∨
          ((c.setLock lid (c.info lid).await).info lid).acquiring = true := by
        rw [hinfo]
        exact hreason
      have hnext := hset.awaitOwned (t := t) hawait (by rw [hinfo]; exact hphases lid)
      rw [hinfo] at hnext
      exact ⟨hnext, Or.inl ⟨rfl,
        asks_awaitOwned (c := c.setLock lid (c.info lid).await) h.finite _ hnot⟩⟩
  next lid hpc =>
    replace hstep := of_lock_list hstep
    have hnot : ∀ l, ¬ (c.pc t).Asks l := fun l hl => by rw [hpc] at hl; exact hl
    dsimp only at hstep
    split_ifs at hstep with hflag
    · -- The thread calls the server.
      cases hstep
      have hpos := h.awaiting_pos (show (c.pc t).Waits lid by rw [hpc]; rfl)
      have hset : Wakeful (c.setLock lid { c.info lid with acquiring := true }) :=
        hw.setLock lid _ (fun _ _ => Or.inr rfl) (fun _ _ => hflag.2)
          (fun t' ht' => hw.waitFree t' lid ht') (hw.revoked lid) fun _ => hpos
      have hgoto : Wakeful ((c.setLock lid { c.info lid with acquiring := true }).goto t
          (.awaitReply lid c.xid)) := by
        refine hset.goto (fun l hl => ?_) nofun nofun
        obtain rfl : lid = l := hl
        rw [info_setLock, if_pos rfl]
        exact Or.inr rfl
      exact ⟨hgoto.congr rfl rfl, Or.inr ⟨lid, rfl, asks_goto_awaitReply h.finite hnot c.xid⟩⟩
    · cases hstep
      refine ⟨hw.goto (fun l hl => ?_) nofun nofun,
        Or.inl ⟨rfl, asks_goto_of_not h.finite _ hnot fun _ hl => hl⟩⟩
      obtain rfl : lid = l := hl
      by_contra hnone
      simp only [not_or, Bool.not_eq_true] at hnone
      exact hflag ⟨hnone.2, hnone.1⟩
  next lid hpc =>
    have hnext := relies_keeps h hw (hphases lid) (by rw [hpc]; rfl)
      (fun l hl => by rw [hpc] at hl; exact hl) hstep
    exact ⟨hnext.1, Or.inl hnext.2⟩
  next lid hpc =>
    have hnext := relies_keeps h hw (hphases lid) (by rw [hpc]; rfl)
      (fun l hl => by rw [hpc] at hl; exact hl) hstep
    exact ⟨hnext.1, Or.inl hnext.2⟩
  next lid hpc =>
    -- A thread that waited for another one to leave: the client still owns the lock.
    replace hstep := of_lock_list hstep
    cases hstep
    have howned := h.waitFree t lid true hpc
    exact ⟨hw.awaitFree howned (hphases lid howned),
      Or.inl ⟨rfl, asks_awaitFree h.finite _ fun l hl => by rw [hpc] at hl; exact hl⟩⟩
  next => cases hstep

/-- The call of `acquire_lock` returns, and ends. -/
theorem acquireReturns_keeps (h : ClientInv c) (hw : Wakeful c) {ok : Bool}
    (hstep : c.acquireReturns t ok = some c') :
    Wakeful c' ∧ ∃ lid xid, c.pc t = .awaitReply lid xid ∧ 0 < c.asks lid ∧
      c'.asks = Function.update c.asks lid (c.asks lid - 1) ∧
      ((c.info lid).owned = false → (c.info lid).acquiring = true) := by
  unfold acquireReturns at hstep
  split at hstep
  next lid xid hpc =>
    obtain ⟨-, hstep⟩ := Option.ite_none_right_eq_some.mp hstep
    replace hstep := of_lock_list hstep
    have hreason := hw.relies t lid (by rw [hpc]; rfl)
    -- Whatever is done to the record, the thread goes back to `acquire`, and relies on the client.
    have hback : ∀ d : Client, Wakeful d →
        ((d.info lid).owned = true ∨ (d.info lid).acquiring = true) →
        Wakeful (d.goto t (.back lid)) := by
      intro d hd hdreason
      refine hd.goto (fun l hl => ?_) nofun nofun
      obtain rfl : lid = l := hl
      exact hdreason
    obtain ⟨hpos, hasks⟩ := asks_goto_back h.finite hpc
    have hsignal : (c.signalAll lid).pc t = .awaitReply lid xid := by
      show (c.pc t).signal lid = _
      rw [hpc]
      rfl
    have hsignalAsks : ((c.signalAll lid).goto t (.back lid)).asks =
        Function.update c.asks lid (c.asks lid - 1) := by
      have hfinite := (h.signalAll lid).finite
      rw [(asks_goto_back hfinite hsignal).2, asks_signalAll]
    have hphase : (c.info lid).owned = false → (c.info lid).acquiring = true := by
      intro hfalse
      rw [hfalse] at hreason
      exact hreason.resolve_left Bool.false_ne_true
    split_ifs at hstep with howned hok
    · cases hstep
      exact ⟨hback _ (hw.signalAll lid) hreason, lid, xid, hpc, hpos, hsignalAsks, hphase⟩
    · cases hstep
      refine ⟨hback _ (hw.grant lid) (Or.inl ?_), lid, xid, hpc, hpos, hsignalAsks, hphase⟩
      rw [info_signalAll, info_setLock, if_pos rfl]
    · cases hstep
      have hacquiring := hphase (Bool.eq_false_of_not_eq_true howned)
      have hset : Wakeful (c.setLock lid { c.info lid with acquiring := true, owned := false }) :=
        hw.setLock lid _ (fun _ _ => Or.inr rfl) (fun _ _ => rfl)
          (fun t' ht' => hw.waitFree t' lid ht') (hw.revoked lid)
          fun _ => hw.acquiring lid hacquiring
      refine ⟨hback _ hset (Or.inr ?_), lid, xid, hpc, hpos, hasks, hphase⟩
      rw [info_setLock, if_pos rfl]
  next => cases hstep

/-- A thread wakes up without a signal. -/
theorem wakes_keeps (h : ClientInv c) (hw : Wakeful c) (hstep : c.wakes t = some c') :
    Wakeful c' ∧ c'.asks = c.asks := by
  unfold wakes at hstep
  split at hstep
  next lid b hpc =>
    cases hstep
    refine ⟨hw.goto (fun l hl => ?_) nofun nofun,
      asks_goto_of_not h.finite _ (fun l hl => by rw [hpc] at hl; exact hl) fun _ hl => hl⟩
    exact hw.relies t l (by rw [hpc]; exact hl)
  next lid b hpc =>
    cases hstep
    exact ⟨hw.goto_free (fun _ hl => hl) nofun,
      asks_goto_of_not h.finite _ (fun l hl => by rw [hpc] at hl; exact hl) fun _ hl => hl⟩
  next => cases hstep

/-- A thread releases a lock. -/
theorem release_keeps (h : ClientInv c) (hw : Wakeful c) (hstep : c.release t lid = some c') :
    Wakeful c' ∧ c'.asks = c.asks := by
  unfold release at hstep
  obtain ⟨hcond, hstep⟩ := Option.ite_none_right_eq_some.mp hstep
  obtain ⟨hheld, hidle, -⟩ := hcond
  replace hstep := of_lock_list hstep
  have hnot : ∀ l, ¬ (c.pc t).Asks l := fun l hl => by rw [hidle] at hl; exact hl
  have hleaves : Wakeful (c.leaves t lid) := hw.congr rfl rfl
  -- While no thread waits, no thread has to be signaled.
  have hnobody : (c.info lid).awaiting_lock = 0 → ∀ t', ¬ (c.pc t').Waits lid := by
    intro hzero t' hwaits
    have hpos := h.awaiting_pos hwaits
    omega
  dsimp only at hstep
  split_ifs at hstep with hgive hwaiting
  · cases hstep
    have hset : Wakeful ((c.leaves t lid).setLock lid (c.info lid).giveBack) := by
      refine hleaves.setLock lid _ (fun t' ht' => absurd ht'.waits (hnobody hgive.1 t'))
        (fun _ _ => rfl) (fun t' ht' => ?_) nofun nofun
      refine absurd ?_ (hnobody hgive.1 t')
      rw [show c.pc t' = .waitFree lid false from ht']
      rfl
    exact ⟨hset.goto_free (fun _ hl => hl) fun _ => Pc.noConfusion,
      asks_goto_of_not (t := t) h.finite (.dorelease lid) hnot fun _ hl => hl⟩
  · cases hstep
    refine ⟨(hleaves.signalAll lid).setLock lid _ (fun t' ht' => ?_) (fun t' ht' => ?_)
      (fun t' ht' => ?_) (fun _ => Or.inr (Nat.pos_of_ne_zero hwaiting)) (hw.acquiring lid),
      asks_signalAll⟩
    · exact hw.relies t' lid ((Pc.relies_signal lid lid (c.pc t')).mp ht')
    · exact absurd rfl (Pc.of_signal (Or.inl ht')).1
    · exact absurd rfl (Pc.of_signal (Or.inr ht')).1
  · cases hstep
    rw [ne_eq, not_not] at hwaiting
    refine ⟨hleaves.setLock lid _ (fun t' ht' => hw.relies t' lid ht')
      (fun t' ht' => hw.waitOwned t' lid ht') (fun t' ht' => ?_) (fun hrevoked => ?_)
      (hw.acquiring lid), rfl⟩
    · refine absurd ?_ (hnobody hwaiting t')
      rw [show c.pc t' = .waitFree lid false from ht']
      rfl
    · exact absurd ⟨hwaiting, hrevoked⟩ hgive

/-- `dorelease` returns in `release`. -/
theorem released_keeps (h : ClientInv c) (hw : Wakeful c) {id : String} {m : Msg}
    (hstep : c.released id t = some (c', m)) : Wakeful c' ∧ c'.asks = c.asks := by
  unfold released at hstep
  split at hstep
  next lid hpc =>
    cases hstep
    exact ⟨hw.goto_free (fun _ hl => hl) fun _ => Pc.noConfusion,
      asks_goto_of_not h.finite _ (fun l hl => by rw [hpc] at hl; exact hl) fun _ hl => hl⟩
  next => cases hstep

/-- The call of the server returns in `release`. -/
theorem releaseReturns_keeps (h : ClientInv c) (hw : Wakeful c)
    (hstep : c.releaseReturns t = some c') : Wakeful c' ∧ c'.asks = c.asks := by
  unfold releaseReturns at hstep
  split at hstep
  next lid hpc =>
    cases hstep
    exact ⟨hw.goto_free (fun _ hl => hl) fun _ => Pc.noConfusion,
      asks_goto_of_not h.finite _ (fun l hl => by rw [hpc] at hl; exact hl) fun _ hl => hl⟩
  next => cases hstep

/-- A `revoke` arrives for a lock that the client owns or is acquiring. -/
theorem revokeHandler_keeps (h : ClientInv c) (hw : Wakeful c)
    (hknown : ¬ ((c.info lid).owned = false ∧ (c.info lid).acquiring = false))
    (hstep : c.revokeHandler lid = some c') : Wakeful c' ∧ c'.asks = c.asks := by
  unfold revokeHandler at hstep
  split_ifs at hstep with hhandler
  cases hlock : c.lock_list lid with
  | none =>
    refine absurd ?_ hknown
    rw [info, hlock, Option.getD_none]
    exact ⟨rfl, rfl⟩
  | some lock =>
    rw [hlock] at hstep
    obtain rfl := info_eq hlock
    dsimp only at hstep
    split_ifs at hstep with hgive
    · cases hstep
      -- No thread has the lock or waits for it.
      have hnobody : ∀ t', ¬ (c.pc t').Waits lid := by
        intro t' hwaits
        have hpos := h.awaiting_pos hwaits
        omega
      have hset : Wakeful (c.setLock lid { c.info lid with owned := false, revoked := false }) := by
        refine hw.setLock lid _ (fun t' ht' => absurd ht'.waits (hnobody t')) (fun _ _ => rfl)
          (fun t' ht' => ?_) (fun hfalse => by cases hfalse) (hw.acquiring lid)
        refine absurd ?_ (hnobody t')
        rw [ht']
        rfl
      exact ⟨hset.congr rfl rfl, rfl⟩
    · cases hstep
      refine ⟨hw.setLock lid _ (fun t' ht' => hw.relies t' lid ht')
        (fun t' ht' => hw.waitOwned t' lid ht') (fun t' ht' => hw.waitFree t' lid ht')
        (fun _ => ?_) (hw.acquiring lid), rfl⟩
      -- A thread waits for a lock that is being acquired.
      by_contra hnone
      simp only [not_or, not_not, Nat.not_lt, Nat.le_zero] at hnone
      refine hgive ⟨hnone.1, hnone.2, ?_⟩
      by_contra htrue
      have hpos := hw.acquiring lid (Bool.eq_true_of_not_eq_false htrue)
      omega

/-- `dorelease` returns in the revoke handler. -/
theorem revokeReleased_keeps (hw : Wakeful c) {id : String} {m : Msg}
    (hstep : c.revokeReleased id = some (c', m)) : Wakeful c' ∧ c'.asks = c.asks := by
  obtain ⟨lid, -, hstep⟩ := Option.map_eq_some_iff.mp hstep
  cases hstep
  exact ⟨hw.congr rfl rfl, rfl⟩

/-- A `retry` arrives. -/
theorem retryHandler_keeps (hw : Wakeful c) (hstep : c.retryHandler lid = some c') :
    Wakeful c' ∧ c'.asks = c.asks := by
  unfold retryHandler at hstep
  obtain ⟨-, hstep⟩ := Option.ite_none_right_eq_some.mp hstep
  replace hstep := of_lock_list hstep
  cases hstep
  exact ⟨hw.grant lid, asks_signalAll⟩

end Client

end SimpleDfs.Lock
