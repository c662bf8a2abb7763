import SimpleDfs.Lock.Client

/-!
# The threads of a lock client and its records

What holds at one client, whatever the server sends. `ClientInv` says how the record of a lock and
the threads belong together: `awaiting_lock` counts the waiting threads, `holder` is the thread that
has returned from `acquire`, and the client owns a lock that a thread holds, or waits for another
thread to leave. Every step keeps it, because a lock is given back only when no thread has it or
waits for it.

For the rest of the system a client is seen through `flags`: the three flags of each lock, and the
number of calls of `dorelease` for it. For each step there is one lemma on what it does to them.
-/

namespace SimpleDfs.Lock

namespace Client

/-! ## Reading a changed client -/

variable (c : Client) (t : ℕ) (lid : LockId)

/-- What the client knows after a change of one record. -/
theorem info_setLock (lock : LockInfo) (l : LockId) :
    (c.setLock lid lock).info l = if l = lid then lock else c.info l := by
  unfold info setLock
  by_cases h : l = lid
  · subst h
    simp
  · simp [h]

/-- A thread that moves leaves the records as they are. -/
@[simp] theorem info_goto (pc : Pc) (l : LockId) : (c.goto t pc).info l = c.info l := rfl

/-- Where the threads are after one of them moved. -/
theorem pc_goto (pc : Pc) (t' : ℕ) : (c.goto t pc).pc t' = if t' = t then pc else c.pc t' :=
  Function.update_apply c.pc t pc t'

/-- Where the threads are after one of them returned from `acquire`. -/
theorem pc_acquired (t' : ℕ) : (c.acquired t lid).pc t' = if t' = t then .idle else c.pc t' :=
  Function.update_apply c.pc t .idle t'

/-- A signal leaves the records as they are. -/
@[simp] theorem info_signalAll (l : LockId) : (c.signalAll lid).info l = c.info l := rfl

/-- A record that exists is what the client knows. -/
theorem info_eq {c : Client} {lid : LockId} {lock : LockInfo} (h : c.lock_list lid = some lock) :
    c.info lid = lock := by
  rw [info, h, Option.getD_some]

/-- A step that reads a record reads what the client knows. -/
theorem of_lock_list {c : Client} {lid : LockId} {α : Type} {f : LockInfo → Option α} {a : α}
    (h : (c.lock_list lid).bind f = some a) : f (c.info lid) = some a := by
  obtain ⟨lock, hlock, h⟩ := Option.bind_eq_some_iff.mp h
  rwa [info_eq hlock]

/-- Of two changes of a record the last one counts. -/
@[simp] theorem setLock_setLock (lock lock' : LockInfo) :
    (c.setLock lid lock).setLock lid lock' = c.setLock lid lock' := by
  unfold setLock
  simp

/-- Where a thread comes from does not matter for how it goes on. -/
@[simp] theorem awaitOwned_goto (pc : Pc) (lock : LockInfo) :
    (c.goto t pc).awaitOwned t lid lock = c.awaitOwned t lid lock := by
  unfold awaitOwned awaitFree acquired setLock
  split_ifs <;> simp [goto]

end Client

/-- A signal does not change who waits. -/
@[simp] theorem Pc.waits_signal (lid l : LockId) (pc : Pc) :
    Waits l (pc.signal lid) ↔ Waits l pc := by
  cases pc with
  | waitOwned m b | waitFree m b =>
    simp only [signal]
    split_ifs <;> rfl
  | _ => rfl

/-- A signal does not change who is in `dorelease`. -/
theorem Pc.flushes_signal (lid l : LockId) (pc : Pc) :
    (pc.signal lid).Flushes l ↔ pc.Flushes l := by
  cases pc with
  | waitOwned m b | waitFree m b =>
    simp only [signal]
    split_ifs <;> simp [Flushes]
  | _ => rfl

/-- A signal does not start or end a thread. -/
@[simp] theorem Pc.signal_eq_idle (lid : LockId) (pc : Pc) :
    pc.signal lid = .idle ↔ pc = .idle := by
  cases pc with
  | waitOwned m b | waitFree m b =>
    simp only [signal]
    split_ifs <;> simp
  | _ => rfl

/-- A signal does not move a thread to the wait for another one. -/
theorem Pc.waitFree_of_signal {lid l : LockId} {b : Bool} {pc : Pc}
    (h : pc.signal lid = .waitFree l b) : ∃ b', pc = .waitFree l b' := by
  cases pc with
  | waitFree m b' =>
    simp only [signal] at h
    split_ifs at h
    all_goals
      cases h
      exact ⟨_, rfl⟩
  | waitOwned m b' =>
    simp only [signal] at h
    split_ifs at h
  | _ => cases h

/-- A thread that waits for a lock waits for no other one. -/
theorem Pc.Waits.eq {l l' : LockId} {pc : Pc} (h : pc.Waits l) (h' : pc.Waits l') : l = l' := by
  cases pc with
  | acquireLock m | back m => exact Eq.trans (Eq.symm h) h'
  | awaitReply m x => exact Eq.trans (Eq.symm h) h'
  | waitOwned m b | waitFree m b => exact Eq.trans (Eq.symm h) h'
  | _ => cases h

/-- A thread that waits for a lock is not in `dorelease`. -/
theorem Pc.Waits.not_flushes {lid : LockId} {pc : Pc} (h : pc.Waits lid) (l : LockId) :
    ¬ pc.Flushes l := by
  rintro rfl
  exact h

/-- A thread in `dorelease` gives one lock back. -/
theorem Pc.not_flushes_of_ne {lid l : LockId} (h : l ≠ lid) : ¬ (dorelease lid).Flushes l :=
  fun heq => h (Pc.dorelease.inj heq).symm

/-- How the records and the threads of a client belong together. -/
structure ClientInv (c : Client) : Prop where
  /-- Finitely many threads use the client. -/
  finite : {t | c.pc t ≠ .idle}.Finite
  /-- `awaiting_lock` counts the threads that wait for the lock. -/
  awaiting : ∀ lid, (c.info lid).awaiting_lock = countAt (Pc.Waits lid) c.pc
  /-- A thread that waits for another one to release the lock waits at a client that owns it. -/
  waitFree : ∀ t lid b, c.pc t = .waitFree lid b → (c.info lid).owned = true
  /-- The holder of a lock is the thread that returned from `acquire`. -/
  held : ∀ t lid, lid ∈ c.held t ↔ (c.info lid).holder = LockInfo.self t
  /-- A client owns the locks that its threads hold. -/
  owned : ∀ lid, (c.info lid).holder ≠ LockInfo.FREE → (c.info lid).owned = true

namespace ClientInv

variable {c : Client} {t : ℕ} {lid : LockId}

/-- Finitely many threads wait for a lock. -/
theorem finite_waits (h : ClientInv c) (l : LockId) : {t | (c.pc t).Waits l}.Finite := by
  refine h.finite.subset fun t ht hidle => ?_
  rw [Set.mem_ofPred_eq, hidle] at ht
  exact ht

/-- Finitely many threads are in `dorelease`. -/
theorem finite_flushes (h : ClientInv c) (l : LockId) : {t | (c.pc t).Flushes l}.Finite := by
  refine h.finite.subset fun t ht hidle => ?_
  rw [Set.mem_ofPred_eq, hidle] at ht
  cases ht

/-- A client that has just started. -/
protected theorem start : ClientInv Client.start where
  finite := by simp [Client.start]
  awaiting l := (countAt_eq_zero fun _ => id).symm
  waitFree := nofun
  held t l := by
    constructor
    · intro h
      cases h
    · intro h
      cases h
  owned l h := absurd rfl h

/-- A thread moves to a place where it waits for the same lock, or for none as before. -/
theorem goto (h : ClientInv c) {pc : Pc} (hwaits : ∀ l, pc.Waits l ↔ (c.pc t).Waits l)
    (hfree : ∀ l b, pc = .waitFree l b → (c.info l).owned = true) : ClientInv (c.goto t pc) where
  finite := finite_update (p := fun pc => pc ≠ Pc.idle) h.finite t pc
  awaiting l := by
    -- The thread is counted before the move if and only if it is counted after it.
    have hcount := countAt_update (h.finite_waits l) t pc
    have hif : (if (c.pc t).Waits l then 1 else 0) = if pc.Waits l then 1 else 0 := by
      simp only [hwaits l]
    rw [Client.info_goto, h.awaiting l]
    show _ = countAt (Pc.Waits l) (Function.update c.pc t pc)
    omega
  waitFree t' l b hpc := by
    rw [Client.pc_goto] at hpc
    split_ifs at hpc with ht
    · exact hfree l b hpc
    · exact h.waitFree t' l b hpc
  held := h.held
  owned := h.owned

/-- The condition variable of a lock is signaled. -/
theorem signalAll (h : ClientInv c) (lid : LockId) : ClientInv (c.signalAll lid) where
  finite := by simpa [Client.signalAll] using h.finite
  awaiting l := by
    rw [Client.info_signalAll, h.awaiting l]
    exact (countAt_congr fun t => Pc.waits_signal lid l (c.pc t)).symm
  waitFree t l b hpc := by
    obtain ⟨b', hpc'⟩ := Pc.waitFree_of_signal hpc
    exact h.waitFree t l b' hpc'
  held := h.held
  owned := h.owned

/-- The flags of a lock change, and the client still owns it if a thread needs that. -/
theorem setFlags (h : ClientInv c) (lid : LockId) (lock : LockInfo)
    (hawaiting : lock.awaiting_lock = (c.info lid).awaiting_lock)
    (hholder : lock.holder = (c.info lid).holder)
    (howned : lock.owned = true ∨ (c.info lid).owned = false ∨
      (lock.holder = LockInfo.FREE ∧ lock.awaiting_lock = 0)) :
    ClientInv (c.setLock lid lock) where
  finite := h.finite
  awaiting l := by
    rw [Client.info_setLock]
    split_ifs with hl
    · rw [hl, hawaiting]
      exact h.awaiting lid
    · exact h.awaiting l
  waitFree t l b hpc := by
    have hold : (c.info l).owned = true := h.waitFree t l b hpc
    rw [Client.info_setLock]
    split_ifs with hl
    · subst hl
      rcases howned with howned | howned | ⟨-, hzero⟩
      · exact howned
      · rw [hold] at howned
        cases howned
      · -- A waiting thread would be counted.
        have hpos : 0 < countAt (Pc.Waits l) c.pc :=
          countAt_pos (h.finite_waits l) (i := t) (by rw [show c.pc t = _ from hpc]; rfl)
        rw [← h.awaiting l, ← hawaiting, hzero] at hpos
        cases hpos
    · exact hold
  held t l := by
    rw [Client.info_setLock]
    split_ifs with hl
    · rw [hl, hholder]
      exact h.held t lid
    · exact h.held t l
  owned l hl := by
    rw [Client.info_setLock] at hl ⊢
    split_ifs at hl ⊢ with hlid
    · rcases howned with howned | howned | ⟨hfree, -⟩
      · exact howned
      · -- A lock that is not owned has no holder.
        rw [hholder] at hl
        rw [h.owned lid hl] at howned
        cases howned
      · exact absurd hfree hl
    · exact h.owned l hl

/-- A thread starts to wait for a lock. -/
theorem enter (h : ClientInv c) (hpc : c.pc t = .entered lid) :
    ClientInv ((c.setLock lid (c.info lid).await).goto t (.acquireLock lid)) where
  finite := finite_update (p := fun pc => pc ≠ Pc.idle) h.finite t _
  awaiting l := by
    have hcount := countAt_update (h.finite_waits l) t (.acquireLock lid)
    rw [hpc, if_neg (show ¬ (Pc.entered lid).Waits l from id)] at hcount
    rw [Client.info_goto, Client.info_setLock]
    show _ = countAt (Pc.Waits l) (Function.update c.pc t (.acquireLock lid))
    have hold := h.awaiting l
    by_cases hl : l = lid
    · subst hl
      -- One thread more waits, and `awaiting_lock` was increased by one.
      rw [if_pos (show (Pc.acquireLock l).Waits l from rfl)] at hcount
      rw [if_pos rfl]
      show (c.info l).awaiting_lock + 1 = _
      omega
    · rw [if_neg (show ¬ (Pc.acquireLock lid).Waits l from fun heq => hl heq.symm)] at hcount
      rw [if_neg hl]
      omega
  waitFree t' l b hpc' := by
    rw [Client.pc_goto] at hpc'
    split_ifs at hpc' with ht
    rw [Client.info_goto, Client.info_setLock]
    split_ifs with hl
    · rw [← hl]
      exact h.waitFree t' l b hpc'
    · exact h.waitFree t' l b hpc'
  held t' l := by
    rw [Client.info_goto, Client.info_setLock]
    split_ifs with hl
    · rw [hl]
      exact h.held t' lid
    · exact h.held t' l
  owned l hl := by
    rw [Client.info_goto, Client.info_setLock] at hl ⊢
    split_ifs at hl ⊢ with hlid
    · exact h.owned lid hl
    · exact h.owned l hl

/-- A waiting thread takes a lock that its client owns and no thread holds. -/
theorem take (h : ClientInv c) (hpc : (c.pc t).Waits lid)
    (howned : (c.info lid).owned = true) (hfree : (c.info lid).holder = LockInfo.FREE) :
    ClientInv ((c.setLock lid ((c.info lid).take t)).acquired t lid) where
  finite := finite_update (p := fun pc => pc ≠ Pc.idle) h.finite t _
  awaiting l := by
    have hcount := countAt_update (h.finite_waits l) t .idle
    rw [if_neg (show ¬ Pc.idle.Waits l from id)] at hcount
    have hold := h.awaiting l
    show ((c.setLock lid ((c.info lid).take t)).info l).awaiting_lock =
      countAt (Pc.Waits l) (Function.update c.pc t .idle)
    rw [Client.info_setLock]
    by_cases hl : l = lid
    · subst hl
      -- The thread was counted, so that the subtraction does not stop at `0`.
      rw [if_pos hpc] at hcount
      rw [if_pos rfl]
      show (c.info l).awaiting_lock - 1 = _
      omega
    · rw [if_neg fun hw => hl (hw.eq hpc)] at hcount
      rw [if_neg hl]
      omega
  waitFree t' l b hpc' := by
    rw [Client.pc_acquired] at hpc'
    split_ifs at hpc' with ht'
    show ((c.setLock lid ((c.info lid).take t)).info l).owned = true
    rw [Client.info_setLock]
    split_ifs with hl
    · exact howned
    · exact h.waitFree t' l b hpc'
  held t' l := by
    show l ∈ Function.update c.held t (lid :: c.held t) t' ↔
      ((c.setLock lid ((c.info lid).take t)).info l).holder = LockInfo.self t'
    -- Before, no thread had the lock.
    have hnone : ∀ u, lid ∉ c.held u := by
      intro u hu
      have hself := (h.held u lid).mp hu
      rw [hfree] at hself
      cases hself
    rw [Client.info_setLock]
    by_cases ht' : t' = t
    · subst ht'
      rw [Function.update_self, List.mem_cons]
      by_cases hl : l = lid
      · subst hl
        simp [LockInfo.take]
      · rw [if_neg hl, ← h.held t' l]
        simp [hl]
    · rw [Function.update_of_ne ht']
      by_cases hl : l = lid
      · subst hl
        simp [LockInfo.take, LockInfo.self, hnone t', Ne.symm ht']
      · rw [if_neg hl]
        exact h.held t' l
  owned l hl := by
    show ((c.setLock lid ((c.info lid).take t)).info l).owned = true
    have hl' : ((c.setLock lid ((c.info lid).take t)).info l).holder ≠ LockInfo.FREE := hl
    rw [Client.info_setLock] at hl' ⊢
    split_ifs at hl' ⊢ with hlid
    · exact howned
    · exact h.owned l hl'

/-- The thread that holds a lock lets it go. -/
theorem drop (h : ClientInv c) (hheld : lid ∈ c.held t) :
    ClientInv ((c.leaves t lid).setLock lid { c.info lid with holder := LockInfo.FREE }) where
  finite := h.finite
  awaiting l := by
    rw [Client.info_setLock]
    split_ifs with hl
    · rw [hl]
      exact h.awaiting lid
    · exact h.awaiting l
  waitFree t' l b hpc := by
    rw [Client.info_setLock]
    split_ifs with hl
    · rw [← hl]
      exact h.waitFree t' l b hpc
    · exact h.waitFree t' l b hpc
  held t' l := by
    show l ∈ Function.update c.held t ((c.held t).filter (· ≠ lid)) t' ↔ _
    have hholder : (c.info lid).holder = LockInfo.self t := (h.held t lid).mp hheld
    rw [Client.info_setLock]
    by_cases hl : l = lid
    · -- The thread was the holder, and no other thread has the lock.
      subst hl
      rw [if_pos rfl]
      constructor
      · intro hmem
        by_cases ht' : t' = t
        · subst ht'
          simp at hmem
        · rw [Function.update_of_ne ht', h.held t' l, hholder] at hmem
          exact absurd (Nat.succ.inj hmem).symm ht'
      · intro hfree
        cases hfree
    · rw [if_neg hl]
      show _ ↔ (c.info l).holder = LockInfo.self t'
      rw [← h.held t' l]
      by_cases ht' : t' = t
      · subst ht'
        simp [hl]
      · rw [Function.update_of_ne ht']
  owned l hl := by
    rw [Client.info_setLock] at hl ⊢
    split_ifs at hl ⊢ with hlid
    · exact absurd rfl hl
    · exact h.owned l hl

/-- A thread of a client that owns the lock takes it or waits. -/
theorem awaitFree (h : ClientInv c) (hpc : (c.pc t).Waits lid)
    (howned : (c.info lid).owned = true) :
    ClientInv (c.awaitFree t lid (c.info lid)) := by
  unfold Client.awaitFree
  split_ifs with hfree
  · exact h.take hpc howned hfree
  · refine h.goto (fun l => ⟨?_, hpc.eq⟩) ?_
    · rintro rfl
      exact hpc
    · intro l b heq
      cases heq
      exact howned

/-- A waiting thread goes on. -/
theorem awaitOwned (h : ClientInv c) (hpc : (c.pc t).Waits lid) :
    ClientInv (c.awaitOwned t lid (c.info lid)) := by
  unfold Client.awaitOwned
  split_ifs with howned
  · refine h.goto (fun l => ⟨?_, hpc.eq⟩) ?_
    · rintro rfl
      exact hpc
    · intro l b heq
      cases heq
  · exact h.awaitFree hpc (Bool.not_eq_false _ ▸ howned)

end ClientInv

/-! ## The client as the system sees it -/

/-- The flags of a lock at a client, and the calls of `dorelease` for it. -/
@[ext] structure Flags where
  /-- The lock is being acquired. -/
  acquiring : Bool
  /-- The client owns the lock. -/
  owned : Bool
  /-- The server wants the lock back. -/
  revoked : Bool
  /-- The number of threads and handlers that are giving the lock back and have not called the
  server yet. -/
  flushes : ℕ

namespace Client

/-- The flags of each lock. -/
noncomputable def flags (c : Client) (lid : LockId) : Flags where
  acquiring := (c.info lid).acquiring
  owned := (c.info lid).owned
  revoked := (c.info lid).revoked
  flushes := countAt (Pc.Flushes lid) c.pc + if c.handler = some lid then 1 else 0

variable {c : Client} {t : ℕ} {lid : LockId} {c' : Client} {id : String}

/-- The flags after a change of one record. -/
theorem flags_setLock (lock : LockInfo) :
    (c.setLock lid lock).flags = Function.update c.flags lid
      ⟨lock.acquiring, lock.owned, lock.revoked, (c.flags lid).flushes⟩ := by
  funext l
  unfold flags
  rw [info_setLock, Function.update_apply]
  by_cases hl : l = lid
  · subst hl
    rw [if_pos rfl, if_pos rfl]
    rfl
  · rw [if_neg hl, if_neg hl]
    rfl

/-- A change of one record that keeps the flags. -/
theorem flags_setLock_self (lid : LockId) (lock : LockInfo)
    (hacquiring : lock.acquiring = (c.info lid).acquiring)
    (howned : lock.owned = (c.info lid).owned) (hrevoked : lock.revoked = (c.info lid).revoked) :
    (c.setLock lid lock).flags = c.flags := by
  rw [flags_setLock, hacquiring, howned, hrevoked]
  exact Function.update_eq_self lid c.flags

/-- A signal keeps the flags. -/
@[simp] theorem flags_signalAll : (c.signalAll lid).flags = c.flags := by
  funext l
  have hcount : countAt (Pc.Flushes l) (c.signalAll lid).pc = countAt (Pc.Flushes l) c.pc :=
    countAt_congr fun t => Pc.flushes_signal lid l (c.pc t)
  unfold flags
  rw [hcount]
  rfl

/-- The calls of `dorelease` after a thread moved. -/
theorem flushes_goto (h : ClientInv c) (pc : Pc) (l : LockId) :
    ((c.goto t pc).flags l).flushes + (if (c.pc t).Flushes l then 1 else 0) =
      (c.flags l).flushes + if pc.Flushes l then 1 else 0 := by
  have hcount : countAt (Pc.Flushes l) (c.goto t pc).pc + (if (c.pc t).Flushes l then 1 else 0) =
      countAt (Pc.Flushes l) c.pc + if pc.Flushes l then 1 else 0 :=
    countAt_update (h.finite_flushes l) t pc
  -- The handler is counted on both sides.
  have hhandler : (c.goto t pc).handler = c.handler := rfl
  simp only [flags, hhandler]
  omega

/-- A thread that moves outside of `dorelease` keeps the flags. -/
theorem flags_goto (h : ClientInv c) {pc : Pc} (hold : ∀ l, ¬ (c.pc t).Flushes l)
    (hnew : ∀ l, ¬ pc.Flushes l) : (c.goto t pc).flags = c.flags := by
  funext l
  have hcount := flushes_goto (t := t) h pc l
  rw [if_neg (hold l), if_neg (hnew l)] at hcount
  exact Flags.ext rfl rfl rfl hcount

/-- A thread that enters `dorelease`. -/
theorem flags_goto_dorelease (h : ClientInv c) (hold : ∀ l, ¬ (c.pc t).Flushes l) :
    (c.goto t (.dorelease lid)).flags = Function.update c.flags lid
      { c.flags lid with flushes := (c.flags lid).flushes + 1 } := by
  funext l
  have hcount := flushes_goto (t := t) h (.dorelease lid) l
  rw [if_neg (hold l)] at hcount
  rw [Function.update_apply]
  split_ifs with hl
  · subst hl
    rw [if_pos (show (Pc.dorelease l).Flushes l from rfl)] at hcount
    exact Flags.ext rfl rfl rfl hcount
  · rw [if_neg (Pc.not_flushes_of_ne hl)] at hcount
    exact Flags.ext rfl rfl rfl hcount

/-- A thread that leaves `dorelease`. -/
theorem flags_goto_releasing (h : ClientInv c) (hpc : c.pc t = .dorelease lid) :
    0 < (c.flags lid).flushes ∧
    (c.goto t (.releasing lid)).flags = Function.update c.flags lid
      { c.flags lid with flushes := (c.flags lid).flushes - 1 } := by
  have hpos : 0 < countAt (Pc.Flushes lid) c.pc := countAt_pos (h.finite_flushes lid) hpc
  refine ⟨Nat.add_pos_left hpos _, ?_⟩
  funext l
  have hcount := flushes_goto (t := t) h (.releasing lid) l
  rw [hpc, if_neg (show ¬ (Pc.releasing lid).Flushes l from Pc.noConfusion)] at hcount
  rw [Function.update_apply]
  split_ifs with hl
  · subst hl
    rw [if_pos (show (Pc.dorelease l).Flushes l from rfl)] at hcount
    exact Flags.ext rfl rfl rfl (Nat.eq_sub_of_add_eq hcount)
  · rw [if_neg (Pc.not_flushes_of_ne hl)] at hcount
    exact Flags.ext rfl rfl rfl hcount

/-- A revoke handler that calls `dorelease`. -/
theorem flags_handler_some (h : c.handler = none) :
    ({ c with handler := some lid } : Client).flags = Function.update c.flags lid
      { c.flags lid with flushes := (c.flags lid).flushes + 1 } := by
  funext l
  rw [Function.update_apply]
  split_ifs with hl
  · subst hl
    refine Flags.ext rfl rfl rfl ?_
    simp only [flags, h]
    simp
  · refine Flags.ext rfl rfl rfl ?_
    simp only [flags, h]
    simp [Ne.symm hl]

/-- A revoke handler that returns from `dorelease`. -/
theorem flags_handler_none (h : c.handler = some lid) :
    0 < (c.flags lid).flushes ∧
    ({ c with handler := none } : Client).flags = Function.update c.flags lid
      { c.flags lid with flushes := (c.flags lid).flushes - 1 } := by
  -- Taking the handler back is undone by `flags_handler_some`.
  have hback : c.flags = Function.update ({ c with handler := none } : Client).flags lid
      { ({ c with handler := none } : Client).flags lid with
        flushes := (({ c with handler := none } : Client).flags lid).flushes + 1 } := by
    rw [← flags_handler_some rfl, ← h]
  rw [hback, Function.update_self, Function.update_idem]
  exact ⟨Nat.succ_pos _, (Function.update_eq_self lid _).symm⟩

/-! ## What the steps of a client do -/

/-- A thread that goes on with an owned lock keeps the flags. -/
theorem flags_awaitFree (h : ClientInv c) (lid : LockId) (hold : ∀ l, ¬ (c.pc t).Flushes l) :
    (c.awaitFree t lid (c.info lid)).flags = c.flags := by
  unfold awaitFree
  split_ifs
  · have hgoto : (c.goto t .idle).flags = c.flags := flags_goto h hold fun _ => Pc.noConfusion
    rw [← hgoto]
    exact flags_setLock_self (c := c.goto t .idle) lid ((c.info lid).take t) rfl rfl rfl
  · exact flags_goto h hold fun _ => Pc.noConfusion

/-- A waiting thread that goes on keeps the flags. -/
theorem flags_awaitOwned (h : ClientInv c) (lid : LockId) (hold : ∀ l, ¬ (c.pc t).Flushes l) :
    (c.awaitOwned t lid (c.info lid)).flags = c.flags := by
  unfold awaitOwned
  split_ifs
  · exact flags_goto h hold fun _ => Pc.noConfusion
  · exact flags_awaitFree h lid hold

/-- A call of `acquire`. -/
theorem acquire_spec (h : ClientInv c) (hstep : c.acquire t lid = some c') :
    ClientInv c' ∧ c'.flags = c.flags := by
  unfold acquire at hstep
  split_ifs at hstep with hcond
  have hidle : c.pc t = .idle := hcond.1
  have hold : ∀ l, ¬ (c.pc t).Flushes l := fun l => by rw [hidle]; exact Pc.noConfusion
  have hmove : ClientInv (c.goto t (.entered lid)) :=
    h.goto (fun l => by rw [hidle]; rfl) fun _ _ => Pc.noConfusion
  have hflags : (c.goto t (.entered lid)).flags = c.flags :=
    flags_goto h hold fun _ => Pc.noConfusion
  cases hlock : c.lock_list lid with
  | none =>
    rw [hlock] at hstep
    cases hstep
    -- A lock without a record is as if it had a new one.
    have hnew : (c.goto t (.entered lid)).info lid = .new := by
      rw [info_goto, info, hlock, Option.getD_none]
    refine ⟨?_, ?_⟩
    · exact hmove.setFlags lid .new (by rw [hnew]) (by rw [hnew]) (Or.inr (Or.inr ⟨rfl, rfl⟩))
    · rw [← hflags]
      exact flags_setLock_self (c := c.goto t (.entered lid)) lid .new (by rw [hnew])
        (by rw [hnew]) (by rw [hnew])
  | some lock =>
    rw [hlock] at hstep
    cases hstep
    exact ⟨hmove, hflags⟩

/-- A step of a thread in `acquire` keeps the flags, or it asks the server for a lock that is
neither owned nor being acquired. -/
theorem run_spec (h : ClientInv c) {out : List Msg} (hstep : c.run id t = some (c', out)) :
    ClientInv c' ∧ ((out = [] ∧ c'.flags = c.flags) ∨
      ∃ lid, out = [.acquire lid id c.xid] ∧ (c.flags lid).acquiring = false ∧
        (c.flags lid).owned = false ∧
        c'.flags = Function.update c.flags lid { c.flags lid with acquiring := true }) := by
  -- A thread that waits for the client to own the lock.
  have hwait : ∀ lid, (c.pc t).Waits lid →
      (do let lock ← c.lock_list lid; some (c.awaitOwned t lid lock, ([] : List Msg))) =
        some (c', out) →
      ClientInv c' ∧ (out = [] ∧ c'.flags = c.flags) := by
    intro lid hpc hstep
    replace hstep := of_lock_list hstep
    cases hstep
    exact ⟨h.awaitOwned hpc, rfl, flags_awaitOwned h lid hpc.not_flushes⟩
  unfold run at hstep
  split_ifs at hstep with hhandler
  split at hstep
  next lid hpc =>
    -- The thread counts itself among those that wait.
    replace hstep := of_lock_list hstep
    have hold : ∀ l, ¬ (c.pc t).Flushes l := fun l => by rw [hpc]; exact Pc.noConfusion
    have hinv := h.enter hpc
    have hflags :
        ((c.setLock lid (c.info lid).await).goto t (.acquireLock lid)).flags = c.flags := by
      rw [← flags_goto h hold (fun l => (Pc.noConfusion : ¬ (Pc.acquireLock lid).Flushes l))]
      exact flags_setLock_self (c := c.goto t (.acquireLock lid)) lid (c.info lid).await rfl rfl rfl
    dsimp only at hstep
    split_ifs at hstep with hflag
    · cases hstep
      exact ⟨hinv, Or.inl ⟨rfl, hflags⟩⟩
    · cases hstep
      -- The thread goes on as if it were in `acquire_lock` and came back.
      have hwaits :
          (((c.setLock lid (c.info lid).await).goto t (.acquireLock lid)).pc t).Waits lid := by
        rw [pc_goto, if_pos rfl]
        rfl
      have hnext := hinv.awaitOwned hwaits
      have hnextFlags := flags_awaitOwned hinv lid hwaits.not_flushes
      rw [info_goto, info_setLock, if_pos rfl, awaitOwned_goto] at hnext hnextFlags
      exact ⟨hnext, Or.inl ⟨rfl, hnextFlags.trans hflags⟩⟩
  next lid hpc =>
    replace hstep := of_lock_list hstep
    have hwaits : (c.pc t).Waits lid := by rw [hpc]; rfl
    split_ifs at hstep with hflag
    · -- The thread calls the server: it is the only one that acquires the lock.
      cases hstep
      have hmove : ClientInv (c.goto t (.awaitReply lid c.xid)) :=
        h.goto (fun l => by rw [hpc]; rfl) fun _ _ => Pc.noConfusion
      have hset := hmove.setFlags lid { c.info lid with acquiring := true } rfl rfl
        (Or.inr (Or.inl hflag.2))
      refine ⟨{ hset with }, Or.inr ⟨lid, rfl, hflag.1, hflag.2, ?_⟩⟩
      rw [← flags_goto h hwaits.not_flushes
        (fun l => (Pc.noConfusion : ¬ (Pc.awaitReply lid c.xid).Flushes l))]
      exact flags_setLock (c := c.goto t (.awaitReply lid c.xid))
        { c.info lid with acquiring := true }
    · cases hstep
      exact ⟨h.goto (fun l => by rw [hpc]; rfl) fun _ _ => Pc.noConfusion,
        Or.inl ⟨rfl, flags_goto h hwaits.not_flushes fun _ => Pc.noConfusion⟩⟩
  next lid hpc =>
    have hnext := hwait lid (by rw [hpc]; rfl) hstep
    exact ⟨hnext.1, Or.inl hnext.2⟩
  next lid hpc =>
    have hnext := hwait lid (by rw [hpc]; rfl) hstep
    exact ⟨hnext.1, Or.inl hnext.2⟩
  next lid hpc =>
    -- A thread that waited for another one to leave: the client still owns the lock.
    replace hstep := of_lock_list hstep
    cases hstep
    have hwaits : (c.pc t).Waits lid := by rw [hpc]; rfl
    exact ⟨h.awaitFree hwaits (h.waitFree t lid true hpc),
      Or.inl ⟨rfl, flags_awaitFree h lid hwaits.not_flushes⟩⟩
  next => cases hstep

/-- The call of `acquire_lock` returns. A client that owns the lock already ignores the answer. -/
theorem acquireReturns_spec (h : ClientInv c) {ok : Bool}
    (hstep : c.acquireReturns t ok = some c') :
    ClientInv c' ∧ ∃ lid xid, c.pc t = .awaitReply lid xid ∧
      ((c'.flags = c.flags ∧ (c.flags lid).owned = true) ∨
        (c.flags lid).owned = false ∧ c'.flags = Function.update c.flags lid
          { c.flags lid with acquiring := !ok, owned := ok }) := by
  unfold acquireReturns at hstep
  split at hstep
  next lid xid hpc =>
    -- Whatever was done to the record, the thread goes back to `acquire`.
    have hback : ∀ d : Client, ClientInv d → d.pc t = .awaitReply lid xid →
        ClientInv (d.goto t (.back lid)) ∧ (d.goto t (.back lid)).flags = d.flags := by
      intro d hd hdpc
      have hwaits : (d.pc t).Waits lid := by rw [hdpc]; rfl
      exact ⟨hd.goto (fun l => by rw [hdpc]; rfl) fun _ _ => Pc.noConfusion,
        flags_goto hd hwaits.not_flushes fun _ => Pc.noConfusion⟩
    have hsignal : (c.pc t).signal lid = .awaitReply lid xid := by rw [hpc]; rfl
    obtain ⟨-, hstep⟩ := Option.ite_none_right_eq_some.mp hstep
    replace hstep := of_lock_list hstep
    by_cases howned : (c.info lid).owned = true
    · -- A `retry` has come first.
      rw [if_pos howned] at hstep
      cases hstep
      have hnext := hback _ (h.signalAll lid) hsignal
      exact ⟨hnext.1, lid, xid, hpc, Or.inl ⟨hnext.2.trans flags_signalAll, howned⟩⟩
    · have hfalse : (c.info lid).owned = false := Bool.eq_false_of_not_eq_true howned
      rw [if_neg howned] at hstep
      cases ok with
      | true =>
        cases hstep
        have hset := h.setFlags lid { c.info lid with acquiring := false, owned := true } rfl rfl
          (Or.inl rfl)
        have hnext := hback _ (hset.signalAll lid) hsignal
        refine ⟨hnext.1, lid, xid, hpc, Or.inr ⟨hfalse, ?_⟩⟩
        rw [hnext.2, flags_signalAll, flags_setLock]
        rfl
      | false =>
        cases hstep
        have hset := h.setFlags lid { c.info lid with acquiring := true, owned := false } rfl rfl
          (Or.inr (Or.inl hfalse))
        have hnext := hback _ hset hpc
        refine ⟨hnext.1, lid, xid, hpc, Or.inr ⟨hfalse, ?_⟩⟩
        rw [hnext.2, flags_setLock]
        rfl
  next => cases hstep

/-- A thread wakes up without a signal. -/
theorem wakes_spec (h : ClientInv c) (hstep : c.wakes t = some c') :
    ClientInv c' ∧ c'.flags = c.flags := by
  unfold wakes at hstep
  split at hstep
  next lid b hpc =>
    cases hstep
    have hwaits : (c.pc t).Waits lid := by rw [hpc]; rfl
    exact ⟨h.goto (fun l => by rw [hpc]; rfl) fun _ _ => Pc.noConfusion,
      flags_goto h hwaits.not_flushes fun _ => Pc.noConfusion⟩
  next lid b hpc =>
    cases hstep
    have hwaits : (c.pc t).Waits lid := by rw [hpc]; rfl
    refine ⟨h.goto (fun l => by rw [hpc]; rfl) ?_, flags_goto h hwaits.not_flushes
      fun _ => Pc.noConfusion⟩
    intro l b' heq
    cases heq
    exact h.waitFree t lid b hpc
  next => cases hstep

/-- A thread releases a lock: the client keeps it, or starts to give it back. -/
theorem release_spec (h : ClientInv c) (hstep : c.release t lid = some c') :
    ClientInv c' ∧ (c.flags lid).owned = true ∧
      (c'.flags = c.flags ∨ (c.flags lid).revoked = true ∧
        c'.flags = Function.update c.flags lid
          ⟨false, false, false, (c.flags lid).flushes + 1⟩) := by
  unfold release at hstep
  obtain ⟨hcond, hstep⟩ := Option.ite_none_right_eq_some.mp hstep
  obtain ⟨hheld, hidle, -⟩ := hcond
  replace hstep := of_lock_list hstep
  have hown : (c.info lid).owned = true := by
    refine h.owned lid ?_
    rw [(h.held t lid).mp hheld]
    exact Nat.succ_ne_zero t
  have hdrop := h.drop hheld
  dsimp only at hstep
  split_ifs at hstep with hgive hwaiting
  · -- No thread waits for the lock.
    cases hstep
    have hset := hdrop.setFlags lid (c.info lid).giveBack (by rw [info_setLock, if_pos rfl]; rfl)
      (by rw [info_setLock, if_pos rfl]; rfl) (Or.inr (Or.inr ⟨rfl, hgive.1⟩))
    rw [setLock_setLock] at hset
    refine ⟨hset.goto (fun l => ?_) fun _ _ => Pc.noConfusion, hown, Or.inr ⟨hgive.2, ?_⟩⟩
    · show _ ↔ (c.pc t).Waits l
      rw [hidle]
      rfl
    · have hold : ∀ l, ¬ (c.pc t).Flushes l := fun l => by rw [hidle]; exact Pc.noConfusion
      rw [flags_goto_dorelease hset hold, flags_setLock, Function.update_self,
        Function.update_idem]
      rfl
  · -- The threads that wait for the lock are woken, and the client keeps it.
    cases hstep
    refine ⟨hdrop.signalAll lid, hown, Or.inl ?_⟩
    rw [flags_signalAll]
    exact flags_setLock_self (c := c.leaves t lid) lid _ rfl rfl rfl
  · cases hstep
    exact ⟨hdrop, hown, Or.inl (flags_setLock_self (c := c.leaves t lid) lid _ rfl rfl rfl)⟩

/-- `dorelease` returns in `release`. -/
theorem released_spec (h : ClientInv c) {m : Msg} (hstep : c.released id t = some (c', m)) :
    ClientInv c' ∧ ∃ lid, c.pc t = .dorelease lid ∧ m = .release lid id ∧
      0 < (c.flags lid).flushes ∧ c'.flags = Function.update c.flags lid
        { c.flags lid with flushes := (c.flags lid).flushes - 1 } := by
  unfold released at hstep
  split at hstep
  next lid hpc =>
    cases hstep
    exact ⟨h.goto (fun l => by rw [hpc]; rfl) fun _ _ => Pc.noConfusion, lid, hpc, rfl,
      flags_goto_releasing h hpc⟩
  next => cases hstep

/-- The call of the server returns in `release`. -/
theorem releaseReturns_spec (h : ClientInv c) (hstep : c.releaseReturns t = some c') :
    ClientInv c' ∧ c'.flags = c.flags := by
  unfold releaseReturns at hstep
  split at hstep
  next lid hpc =>
    cases hstep
    exact ⟨h.goto (fun l => by rw [hpc]; rfl) fun _ _ => Pc.noConfusion,
      flags_goto h (fun l => by rw [hpc]; exact Pc.noConfusion) fun _ => Pc.noConfusion⟩
  next => cases hstep

/-- A `revoke` arrives: the client takes a lock that it knows nothing of for its own, starts to give
the lock back, or remembers that the server wants it. -/
theorem revokeHandler_spec (h : ClientInv c) (hstep : c.revokeHandler lid = some c') :
    ClientInv c' ∧
      (((c.flags lid).owned = false ∧ (c.flags lid).acquiring = false) ∨
        ((c.flags lid).acquiring = false ∧ c'.flags = Function.update c.flags lid
          ⟨false, false, false, (c.flags lid).flushes + 1⟩) ∨
        c'.flags = Function.update c.flags lid { c.flags lid with revoked := true }) := by
  unfold revokeHandler at hstep
  split_ifs at hstep with hhandler
  cases hlock : c.lock_list lid with
  | none =>
    rw [hlock] at hstep
    cases hstep
    have hnew : c.info lid = .new := by rw [info, hlock, Option.getD_none]
    refine ⟨h.setFlags lid _ (by rw [hnew]) (by rw [hnew]) (Or.inl rfl), Or.inl ⟨?_, ?_⟩⟩
    · show (c.info lid).owned = false
      rw [hnew]
      rfl
    · show (c.info lid).acquiring = false
      rw [hnew]
      rfl
  | some lock =>
    rw [hlock] at hstep
    obtain rfl := info_eq hlock
    dsimp only at hstep
    split_ifs at hstep with hgive
    · -- No thread has the lock or waits for it.
      cases hstep
      have hset := h.setFlags lid { c.info lid with owned := false, revoked := false } rfl rfl
        (Or.inr (Or.inr ⟨hgive.1, hgive.2.1⟩))
      refine ⟨{ hset with }, Or.inr (Or.inl ⟨hgive.2.2, ?_⟩)⟩
      rw [flags_handler_some (show (c.setLock lid _).handler = none from hhandler), flags_setLock,
        Function.update_self, Function.update_idem, ← hgive.2.2]
    · -- The handler leaves the lock to the thread that releases it next.
      cases hstep
      refine ⟨h.setFlags lid _ rfl rfl ?_, Or.inr (Or.inr (flags_setLock _))⟩
      cases howned : (c.info lid).owned with
      | true => exact Or.inl rfl
      | false => exact Or.inr (Or.inl rfl)

/-- `dorelease` returns in the revoke handler. -/
theorem revokeReleased_spec (h : ClientInv c) {m : Msg}
    (hstep : c.revokeReleased id = some (c', m)) :
    ClientInv c' ∧ ∃ lid, c.handler = some lid ∧ m = .release lid id ∧
      0 < (c.flags lid).flushes ∧ c'.flags = Function.update c.flags lid
        { c.flags lid with flushes := (c.flags lid).flushes - 1 } := by
  obtain ⟨lid, hhandler, hstep⟩ := Option.map_eq_some_iff.mp hstep
  cases hstep
  exact ⟨{ h with }, lid, hhandler, rfl, flags_handler_none hhandler⟩

/-- A `retry` arrives: the client owns the lock. -/
theorem retryHandler_spec (h : ClientInv c) (hstep : c.retryHandler lid = some c') :
    ClientInv c' ∧ c'.flags = Function.update c.flags lid
      { c.flags lid with acquiring := false, owned := true } := by
  unfold retryHandler at hstep
  obtain ⟨-, hstep⟩ := Option.ite_none_right_eq_some.mp hstep
  replace hstep := of_lock_list hstep
  cases hstep
  have hset := h.setFlags lid { c.info lid with acquiring := false, owned := true } rfl rfl
    (Or.inl rfl)
  refine ⟨hset.signalAll lid, ?_⟩
  rw [flags_signalAll, flags_setLock]
  rfl

end Client

end SimpleDfs.Lock
