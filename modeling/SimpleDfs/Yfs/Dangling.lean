import SimpleDfs.Extent.Copies
import SimpleDfs.Yfs.Views

/-!
# No dangling entries

`createFile` and `createDirectory` make the extent of a new number without its lock. The client that
made it has it in its cache only, and until a thread of this client has had the lock, nothing makes
the client flush it: another client that finds the entry and acquires the lock does not find the
extent (`dangling_entry`). This is all that can go wrong, apart from names that are not read back
and numbers that are drawn twice: when no other client asks for the lock of a new number before a
thread has had it (`Careful`), no entry dangles (`no_dangling_entry`).

The client that made an extent keeps it like a client that has its lock in custody (`Keeper`), so
that the copies are known from `CopyInv`. A thread in a function of the extent client is where the
client is (`Placed`), and what the threads know is true (`Informed`). Every event keeps this
(`YfsInv.next`).
-/

namespace SimpleDfs.Yfs

open Lock Extent

/-- The client has the lock in its custody, or it made the extent and nobody has had the lock. -/
def Keeper (lock : LockState) (log : List Note) (c : ℕ) (e : Inum) : Prop :=
  Custody lock c e ∨ creator log e = some c

/-- The content of each extent, which is known. -/
def contents (log : List Note) (e : Inum) : Option (Option Buf) := some (content log e)

/-- The contents after a function of the extent client returned. -/
theorem contents_log (o : Op) (c t : ℕ) (eid : Inum) (ret ret' : Extent.Status)
    (extent : CachedExtentInfo) (log : List Note) :
    contents (.access (o.log c t eid ret ret' extent) :: log) =
      Function.update (contents log) eid (o.writes (contents log eid)) := by
  funext i
  cases o with
  | get | getattr => exact (congrFun (Function.update_eq_self eid (contents log)) i).symm
  | put buf =>
    by_cases hi : i = eid
    · subst hi
      rw [Function.update_self]
      exact congrArg some content_put_self
    · rw [Function.update_of_ne hi]
      exact congrArg some (content_put_of_ne hi)

/-- The contents after an extent was removed. -/
theorem contents_remove (c t : ℕ) (eid : Inum) (log : List Note) :
    contents (.access (.remove c t eid) :: log) =
      Function.update (contents log) eid (some none) := by
  funext i
  by_cases hi : i = eid
  · subst hi
    rw [Function.update_self]
    exact congrArg some content_remove_self
  · rw [Function.update_of_ne hi]
    exact congrArg some (content_remove_of_ne hi)

/-- An access changes the content of its extent only. -/
theorem content_access_of_ne {a : Access} {log : List Note} {i : Inum} (hi : i ≠ accessed a) :
    content (.access a :: log) i = content log i := by
  cases a with
  | get | getattr => rfl
  | put => exact content_put_of_ne hi
  | remove => exact content_remove_of_ne hi

/-! ## The functions of the extent client -/

/-- The thread is not in a function of the extent client. -/
def Thread.Away : Thread → Prop
  | idle | ready _ _ _ | waiting _ (.acquire _) _ | waiting _ (.release _) _ => True
  | waiting _ _ _ => False

/-- Where the extent client of client `c` is, there is a thread of the client: it is in the function
that the client executes, and when the extent is not the one that its operation was called for, the
thread makes it. Or a worker is in `dorelease`. -/
def Placed (lock : LockState) (log : List Note) (threads : ℕ → Thread) (c : ℕ) :
    Place Worker → Prop
  | .get t o eid | .getattr t o eid _ _ | .fetched t o eid _ _ _ _ =>
    ∃ op next, threads t = .waiting op (callOf eid o) next ∧
      (eid ≠ op.target → content log eid = none ∧ stage log eid = .pending c t)
  | .remove t eid => ∃ op next, threads t = .waiting op (.remove eid) next
  | .flush w eid _ | .flushed w eid => w.GivesBack (lock.clients c) eid

namespace Placed

variable {lock lock' : LockState} {log log' : List Note} {threads threads' : ℕ → Thread} {c t : ℕ}
  {p : Place Worker}

/-- The thread is in a function of the extent client. -/
theorem not_away (h : Placed lock log threads c p) (ht : p.thread? = some t) :
    ¬ (threads t).Away := by
  cases p with
  | get t' o eid | getattr t' o eid ret buf | fetched t' o eid ret buf ret' attr =>
    obtain rfl := Option.some.inj ht
    obtain ⟨op, next, hthread, -⟩ := h
    rw [hthread]
    cases o <;> exact id
  | remove t' eid =>
    obtain rfl := Option.some.inj ht
    obtain ⟨op, next, hthread⟩ := h
    rw [hthread]
    exact id
  | flush w eid buf | flushed w eid => cases ht

/-- The extent client stays where it is when nothing changes for its thread or worker and for its
extent. -/
theorem keep (h : Placed lock log threads c p)
    (hgives : ∀ w : Worker, w.GivesBack (lock.clients c) p.eid →
      w.GivesBack (lock'.clients c) p.eid)
    (hthreads : ∀ t, p.thread? = some t → threads' t = threads t)
    (hcontent : content log' p.eid = content log p.eid)
    (hstage : ∀ t, stage log p.eid = .pending c t → stage log' p.eid = .pending c t) :
    Placed lock' log' threads' c p := by
  cases p with
  | get t' o eid | getattr t' o eid ret buf | fetched t' o eid ret buf ret' attr =>
    obtain ⟨op, next, hthread, hcreated⟩ := h
    refine ⟨op, next, (hthreads t' rfl).trans hthread, fun hne => ?_⟩
    obtain ⟨hnone, hpending⟩ := hcreated hne
    exact ⟨hcontent.trans hnone, hstage t' hpending⟩
  | remove t' eid =>
    obtain ⟨op, next, hthread⟩ := h
    exact ⟨op, next, (hthreads t' rfl).trans hthread⟩
  | flush w eid buf | flushed w eid => exact hgives w h

end Placed

/-! ## The invariant -/

/-- The invariant of the clients and the servers. -/
structure YfsInv (s : YfsState) : Prop where
  /-- The locks are sound. -/
  lock : LockInv s.lock
  /-- All notes are right. -/
  log : LogOk s.log
  /-- A client knows only of the locks that its threads asked for. -/
  untouched : ∀ c e, (∀ t, .asked c t e ∉ s.log) → (s.lock.clients c).Untouched e
  /-- The copies of the extents and the server. -/
  copies : CopyInv (Keeper s.lock s.log) s.clients s.server (contents s.log)
  /-- The extent clients are where their threads and workers are. -/
  place : ∀ c p, (s.clients c).sync_root = some p → Placed s.lock s.log (s.threads c) c p
  /-- What the threads know is true. -/
  threads : ∀ c t, Informed s.lock s.log c t (s.threads c t)

namespace YfsInv

variable {s s' : YfsState} {c t : ℕ} {eid lid : Inum} {op : Operation}
  {client : ExtentClient Worker} {now : UInt32} {lock : LockState} {w : Worker} {o : Op}

/-- A thread of the client asked for a lock that is in its custody. -/
theorem asked_of_custody (h : YfsInv s) (hc : Custody s.lock c lid) :
    ∃ t, .asked c t lid ∈ s.log := by
  by_contra hnot
  exact (h.untouched c lid (not_exists.mp hnot)).not_custody hc

/-- The client that made an extent has its lock, when somebody has it. -/
theorem creator_of_custody (h : YfsInv s) (hc : Custody s.lock c lid) {c' : ℕ}
    (hc' : creator s.log lid = some c') : c = c' := by
  obtain ⟨t, ht⟩ := h.asked_of_custody hc
  exact h.log.inv.askers c' lid hc' c t ht

/-- An extent has one keeper. -/
theorem unique (h : YfsInv s) (c c' : ℕ) (e : Inum) (hc : Keeper s.lock s.log c e)
    (hc' : Keeper s.lock s.log c' e) : c = c' := by
  rcases hc with hc | hc <;> rcases hc' with hc' | hc'
  · exact h.lock.custody_unique hc hc'
  · exact h.creator_of_custody hc hc'
  · exact (h.creator_of_custody hc' hc).symm
  · exact Option.some.inj (hc.symm.trans hc')

/-- A client keeps the extents whose locks its threads hold. -/
theorem keeper_of_holds (h : YfsInv s) (hholds : Holds s.lock c t eid) :
    Keeper s.lock s.log c eid := Or.inl (Or.inl (h.lock.owned_of_holds hholds))

/-! ## Parts of an event -/

/-- A thread writes a note that changes no content. -/
theorem note (h : YfsInv s) {n : Note} (hok : NoteOk s.log n)
    (hcontent : ∀ e, content (n :: s.log) e = content s.log e)
    (hstage : ∀ c t i, stage s.log i = .pending c t → stage (n :: s.log) i = .pending c t)
    (hkeeper : ∀ c e, Keeper s.lock s.log c e → Keeper s.lock (n :: s.log) c e)
    (hthreads : ∀ c t v, View.Valid s.lock s.log c t v → v.Valid s.lock (n :: s.log) c t) :
    YfsInv (s.note n) where
  lock := h.lock
  log := ⟨hok, h.log⟩
  untouched c e hnot := h.untouched c e fun t ht => hnot t (List.mem_cons_of_mem n ht)
  copies := by
    have hsame : contents (n :: s.log) = contents s.log :=
      funext fun e => congrArg some (hcontent e)
    show CopyInv _ _ _ (contents (n :: s.log))
    rw [hsame]
    exact h.copies.of_keeps (fun c e _ _ => hkeeper c e) fun c p _ => hkeeper c p.eid
  place c p hp := (h.place c p hp).keep (fun _ => id) (fun _ _ => rfl) (hcontent p.eid)
    fun t => hstage c t p.eid
  threads c t := by
    obtain ⟨v, hvalid, hconforms⟩ := h.threads c t
    exact ⟨v, hthreads c t v hvalid, hconforms⟩

/-- A thread that is not in a function of the extent client goes on. -/
theorem setThread (h : YfsInv s) {thread : Thread}
    (hfree : ∀ p, (s.clients c).sync_root = some p → p.thread? ≠ some t)
    (hthread : Informed s.lock s.log c t thread) : YfsInv (s.setThread c t thread) where
  lock := h.lock
  log := h.log
  untouched := h.untouched
  copies := h.copies
  place c' p hp := by
    refine (h.place c' p hp).keep (fun _ => id) (fun t' ht' => ?_) rfl fun _ => id
    refine s.threads_setThread_of_ne ?_ thread
    rintro ⟨rfl, rfl⟩
    exact hfree p hp ht'
  threads c' t' := by
    by_cases hct : c' = c ∧ t' = t
    · obtain ⟨rfl, rfl⟩ := hct
      rw [s.threads_setThread_self]
      exact hthread
    · rw [s.threads_setThread_of_ne hct]
      exact h.threads c' t'

/-- The place of a thread that is not in a function of the extent client. -/
theorem free_of_away (h : YfsInv s) (haway : (s.threads c t).Away) (p : Place Worker)
    (hp : (s.clients c).sync_root = some p) : p.thread? ≠ some t :=
  fun ht => (h.place c p hp).not_away ht haway

/-- What a thread knows stays true when it does not release a lock. -/
theorem informed_next (h : YfsInv s) {e : LockEvent} (hstep : s.lock.next e = some lock)
    (hne : ∀ lid, e ≠ .release c t lid) :
    Informed lock s.log c t (s.threads c t) := by
  obtain ⟨v, hvalid, hconforms⟩ := h.threads c t
  exact ⟨v, hvalid.lockNext fun l hl => holds_next hstep hl (hne l), hconforms⟩

/-- An event of the locks. A thread that acquires a lock has noted it, and `dorelease` returns only
when the function has returned and the extent is not cached. -/
theorem setLock (h : YfsInv s) {e : LockEvent} (hstep : s.lock.next e = some lock)
    (hasked : ∀ c t lid, e = .acquire c t lid → .asked c t lid ∈ s.log)
    (hreturns : ∀ c (w : Worker), e = w.returns c → (s.clients c).sync_root = none ∧
      ∀ eid, w.GivesBack (s.lock.clients c) eid → (s.clients c).extent_list eid = none)
    (hthreads : ∀ c t, Informed lock s.log c t (s.threads c t)) : YfsInv (s.setLock lock) where
  lock := h.lock.next hstep
  log := h.log
  untouched c e' hnot := by
    refine h.lock.untouched_next hstep (h.untouched c e' hnot) fun t he => ?_
    exact hnot t (hasked c t e' he)
  copies := by
    refine h.copies.of_keeps (fun c eid extent hcopy hkeeper => ?_) fun c p hp hkeeper => ?_
    · refine hkeeper.imp_left fun hcustody => ?_
      refine h.lock.custody_next hstep hcustody fun w he hw => ?_
      cases hcopy.symm.trans ((hreturns c w he).2 eid hw)
    · refine hkeeper.imp_left fun hcustody => ?_
      refine h.lock.custody_next hstep hcustody fun w he _ => ?_
      cases hp.symm.trans (hreturns c w he).1
  place c p hp := by
    refine (h.place c p hp).keep (fun w hw => ?_) (fun _ _ => rfl) rfl fun _ => id
    refine Worker.givesBack_next hstep hw fun he => ?_
    have hroot : (s.clients c).sync_root = some p := hp
    cases hroot.symm.trans (hreturns c w he).1
  threads := hthreads

/-- An extent client acts, and the server with it. -/
theorem act (h : YfsInv s) {server : ExtentServer}
    (hcopies : CopyInv (Keeper s.lock s.log) (Function.update s.clients c client) server
      (contents s.log))
    (hplace : ∀ p, client.sync_root = some p → Placed s.lock s.log (s.threads c) c p) :
    YfsInv { s.setClient c client with server := server } where
  lock := h.lock
  log := h.log
  untouched := h.untouched
  copies := hcopies
  place c' p hp := by
    replace hp : (Function.update s.clients c client c').sync_root = some p := hp
    by_cases hc : c' = c
    · subst hc
      rw [Function.update_self] at hp
      exact hplace p hp
    · rw [Function.update_of_ne hc] at hp
      exact h.place c' p hp
  threads := h.threads

/-- A function of the extent client takes effect: the thread writes a note and goes on. -/
theorem effect (h : YfsInv s) {a : Access} {thread : Thread}
    (hkeeper : Keeper s.lock s.log c (accessed a))
    (hacts : ∀ c' t', (Note.access a).ActsFor c' t' → c' = c ∧ t' = t)
    (hok : NoteOk s.log (.access a)) (hbacked : Backed s.lock s.log (.access a))
    (hcopies : CopyInv (Keeper s.lock s.log) (Function.update s.clients c client) s.server
      (contents (.access a :: s.log))) (hthread : Informed s.lock (.access a :: s.log) c t thread)
    (hplace : ∀ p, client.sync_root = some p →
      Placed s.lock (.access a :: s.log) (Function.update (s.threads c) t thread) c p) :
    YfsInv (((s.setClient c client).setThread c t thread).note (.access a)) where
  lock := h.lock
  log := ⟨hok, h.log⟩
  untouched c e hnot := h.untouched c e fun t ht => hnot t (List.mem_cons_of_mem _ ht)
  copies := hcopies
  place c' p hp := by
    replace hp : (Function.update s.clients c client c').sync_root = some p := hp
    show Placed _ _ (Function.update s.threads c _ c') c' p
    by_cases hc : c' = c
    · subst hc
      rw [Function.update_self] at hp ⊢
      exact hplace p hp
    · -- Any other client is in a function for an extent of its own.
      rw [Function.update_of_ne hc] at hp ⊢
      have hne : p.eid ≠ accessed a := by
        intro heq
        have hkeeper' := (h.copies.place c' p hp).1
        rw [heq] at hkeeper'
        exact hc (h.unique c' c _ hkeeper' hkeeper)
      refine (h.place c' p hp).keep (fun _ => id) (fun _ _ => rfl) (content_access_of_ne hne) ?_
      exact fun t' => stage_pending_cons h.log.inv hok fun hacts' => hc (hacts c' t' hacts').1
  threads c' t' := by
    by_cases hct : c' = c ∧ t' = t
    · obtain ⟨rfl, rfl⟩ := hct
      show Informed _ _ c' t' (((s.setClient c' client).setThread c' t' thread).threads c' t')
      rw [YfsState.threads_setThread_self]
      exact hthread
    · show Informed _ _ c' t' (((s.setClient c client).setThread c t thread).threads c' t')
      rw [YfsState.threads_setThread_of_ne _ hct]
      obtain ⟨v, hvalid, hconforms⟩ := h.threads c' t'
      refine ⟨v, hvalid.other h.lock h.log.inv hok hbacked fun hacts' => ?_, hconforms⟩
      exact hct (hacts c' t' hacts')

/-! ## The calls of the locks -/

/-- A thread before a call is not in a function of the extent client. -/
theorem free_of_ready (h : YfsInv s) {q : Call} {next : Answer q → YfsM Unit}
    (hthread : s.threads c t = .ready op q next) (p : Place Worker)
    (hp : (s.clients c).sync_root = some p) : p.thread? ≠ some t := by
  refine h.free_of_away ?_ p hp
  rw [hthread]
  trivial

/-- What a thread knows before a call. -/
theorem informed_of_ready (h : YfsInv s) {q : Call} {next : Answer q → YfsM Unit}
    (hthread : s.threads c t = .ready op q next) :
    ∃ v : View, v.Valid s.lock s.log c t ∧ v.Of op ∧ Keeps (.call q next) v := by
  have hinformed := h.threads c t
  rw [hthread] at hinformed
  exact hinformed

/-- A thread calls `acquire`. -/
theorem acquire (h : YfsInv s) {next : Answer (.acquire lid) → YfsM Unit}
    (hthread : s.threads c t = .ready op (.acquire lid) next) (hok : NoteOk s.log (.asked c t lid))
    (hstep : s.lock.next (.acquire c t lid) = some lock) :
    YfsInv (((s.setLock lock).setThread c t (.waiting op (.acquire lid) next)).note
      (.asked c t lid)) := by
  have hnoted : YfsInv (s.note (.asked c t lid)) :=
    h.note hok (fun _ => rfl) (fun _ _ _ => id) (fun _ _ => id) fun _ _ _ hvalid =>
      hvalid.other h.lock h.log.inv hok trivial id
  have hwaits : YfsInv
      ((s.note (.asked c t lid)).setThread c t (.waiting op (.acquire lid) next)) :=
    hnoted.setThread (hnoted.free_of_ready hthread) (hnoted.informed_of_ready hthread)
  refine hwaits.setLock hstep (fun c' t' lid' he => ?_) (fun c' w he => ?_) fun c' t' => ?_
  · cases he
    exact List.mem_cons_self
  · cases w <;> cases he
  · exact hwaits.informed_next hstep fun _ => LockEvent.noConfusion

/-- A thread calls `release`. -/
theorem release (h : YfsInv s) {next : Answer (.release lid) → YfsM Unit}
    (hthread : s.threads c t = .ready op (.release lid) next)
    (hstep : s.lock.next (.release c t lid) = some lock) :
    YfsInv (((s.setLock lock).setThread c t (.waiting op (.release lid) next)).note
      (.released c t lid)) := by
  obtain ⟨v, hvalid, hof, hkeeps⟩ := h.informed_of_ready hthread
  have hconforms : (Thread.waiting op (.release lid) next).Conforms (v.after (.release lid) ()) :=
    ⟨hof.after _ _, hkeeps.2 () trivial⟩
  -- The thread notes it first, then it knows that it has not the lock, then the lock is free.
  have hnoted : YfsInv (s.note (.released c t lid)) :=
    h.note trivial (fun _ => rfl) (fun _ _ _ => id) (fun _ _ => id) fun _ _ _ hvalid' =>
      ⟨hvalid'.locks, hvalid'.read, hvalid'.stored, hvalid'.dropped,
        fun i hi => hvalid'.sure i hi.2⟩
  have hwaits : YfsInv
      ((s.note (.released c t lid)).setThread c t (.waiting op (.release lid) next)) :=
    hnoted.setThread (hnoted.free_of_ready hthread)
      ⟨_, hvalid.released fun _ _ => id, hconforms⟩
  refine hwaits.setLock hstep (fun c' t' lid' he => ?_) (fun c' w he => ?_) fun c' t' => ?_
  · cases he
  · cases w <;> cases he
  · by_cases hct : c' = c ∧ t' = t
    · obtain ⟨rfl, rfl⟩ := hct
      rw [YfsState.threads_setThread_self]
      refine ⟨_, hvalid.released fun l hl hholds => holds_next hstep hholds ?_, hconforms⟩
      rintro ⟨⟩
      exact hl rfl
    · refine hwaits.informed_next hstep ?_
      rintro lid' ⟨⟩
      exact hct ⟨rfl, rfl⟩

/-- A thread returns from `acquire`. -/
theorem acquired (h : YfsInv s) {next : Answer (.acquire lid) → YfsM Unit}
    (hthread : s.threads c t = .waiting op (.acquire lid) next)
    (hholds : Holds s.lock c t lid) :
    YfsInv ((s.setThread c t (.goOn op (next ()))).note (.acquired c t lid)) := by
  -- The client that made the extent has the lock now.
  have hkeeper : ∀ c' e, Keeper s.lock s.log c' e →
      Keeper s.lock (.acquired c t lid :: s.log) c' e := by
    rintro c' e (hcustody | hcreator)
    · exact Or.inl hcustody
    · by_cases he : lid = e
      · subst he
        have hcustody : Custody s.lock c lid := Or.inl (h.lock.owned_of_holds hholds)
        obtain rfl := h.creator_of_custody hcustody hcreator
        exact Or.inl hcustody
      · exact Or.inr ((if_neg he).trans hcreator)
  have hnoted : YfsInv (s.note (.acquired c t lid)) := by
    refine h.note trivial (fun _ => rfl) (fun _ _ _ => id) hkeeper fun c' t' v hvalid => ?_
    by_cases hct : c' = c ∧ t' = t
    · obtain ⟨rfl, rfl⟩ := hct
      exact hvalid.acquired hholds
    · exact hvalid.other h.lock h.log.inv trivial trivial fun hacts =>
        hct ⟨hacts.1.symm, hacts.2.symm⟩
  have haway : ((s.note (.acquired c t lid)).threads c t).Away := by
    show (s.threads c t).Away
    rw [hthread]
    trivial
  obtain ⟨v, hvalid, hconforms⟩ := hnoted.threads c t
  rw [show (s.note (.acquired c t lid)).threads c t = _ from hthread] at hconforms
  obtain ⟨hof, hkeeps⟩ := hconforms
  exact hnoted.setThread (hnoted.free_of_away haway)
    ⟨_, hvalid.locked hholds, Thread.conforms_returns hof hkeeps trivial⟩

/-- A thread returns from `release`. -/
theorem released (h : YfsInv s) {next : Answer (.release lid) → YfsM Unit}
    (hthread : s.threads c t = .waiting op (.release lid) next) :
    YfsInv (s.setThread c t (.goOn op (next ()))) := by
  have haway : (s.threads c t).Away := by
    rw [hthread]
    trivial
  obtain ⟨v, hvalid, hconforms⟩ := h.threads c t
  rw [hthread] at hconforms
  exact h.setThread (h.free_of_away haway)
    ⟨v, hvalid, Thread.conforms_goOn hconforms.1 hconforms.2⟩

/-! ## The calls of the extent client -/

/-- A thread notes that it makes the extent of a number that nobody has used. -/
theorem created (h : YfsInv s) (hunused : Unused s.log eid) :
    YfsInv (s.note (.created c t eid)) := by
  refine h.note hunused (fun _ => rfl) (fun c' t' i hi => ?_) (fun c' e hkeeper => ?_) ?_
  · exact stage_pending_cons h.log.inv hunused id hi
  · refine hkeeper.imp_right fun hcreator => (if_neg ?_).trans hcreator
    rintro rfl
    cases (creator_of_unused hunused.2).symm.trans hcreator
  · exact fun _ _ _ hvalid => hvalid.other h.lock h.log.inv hunused trivial id

/-- A function of the extent client returns to the thread. It found the content of the extent. -/
theorem returned (h : YfsInv s) {next : Answer (callOf eid o) → YfsM Unit} {v : View}
    {ret ret' : Extent.Status} {extent : CachedExtentInfo} (hvalid : v.Valid s.lock s.log c t)
    (hof : v.Of op) (hkeeps : Keeps (.call (callOf eid o) next) v)
    (hkeeper : Keeper s.lock s.log c eid)
    (hcreated : eid ≠ op.target → content s.log eid = none ∧ stage s.log eid = .pending c t)
    (hbuf : extent.buf = (content s.log eid).getD []) (hret : content s.log eid ≠ none → ret = .OK)
    (hroot : client.sync_root = none)
    (hcopies : CopyInv (Keeper s.lock s.log) (Function.update s.clients c client) s.server
      (Function.update (contents s.log) eid (o.writes (contents s.log eid)))) :
    YfsInv (((s.setClient c client).setThread c t
      (.goOn op (next (answer ret ret' extent eid o)))).note
        (.access (o.log c t eid ret ret' extent))) := by
  rw [← hof.1] at hcreated
  have hreturns : Returns s.lock s.log c t v (.access (o.log c t eid ret ret' extent)) _ _ :=
    hvalid.accessed h.log.inv hkeeps.1 hbuf hret hcreated
  have haccessed : accessed (o.log c t eid ret ret' extent) = eid := by cases o <;> rfl
  rw [← contents_log o c t eid ret ret' extent] at hcopies
  refine h.effect (by rw [haccessed]; exact hkeeper) (fun c' t' hacts => ?_) hreturns.ok
    hreturns.backed hcopies ?_ fun p hp => by cases hroot.symm.trans hp
  · cases o with
    | get | getattr => exact hacts.elim
    | put buf => exact ⟨hacts.1.symm, hacts.2.symm⟩
  · exact ⟨_, hreturns.after, Thread.conforms_returns hof hkeeps hreturns.answers⟩

/-- A thread calls a function of the extent client for an extent that its client keeps. -/
theorem access (h : YfsInv s) {next : Answer (callOf eid o) → YfsM Unit}
    (hthread : s.threads c t = .ready op (callOf eid o) next) (hkeeper : Keeper s.lock s.log c eid)
    (hcreated : eid ≠ op.target → content s.log eid = none ∧ stage s.log eid = .pending c t)
    (hstep : s.access c t now o eid op next = some s') : YfsInv s' := by
  obtain ⟨v, hvalid, hof, hkeeps⟩ := h.informed_of_ready hthread
  unfold YfsState.access at hstep
  obtain ⟨hroot, hstep⟩ := Option.ite_none_right_eq_some.mp hstep
  unfold ExtentClient.access at hstep
  cases hcopy : (s.clients c).extent_list eid with
  | none =>
    simp only [hcopy, Option.some.injEq] at hstep
    subst hstep
    have hwaits : YfsInv (s.setThread c t (.waiting op (callOf eid o) next)) :=
      h.setThread (h.free_of_ready hthread)
        ⟨v, hvalid, Thread.conforms_waiting.mpr ⟨hof, hkeeps⟩⟩
    refine hwaits.act (h.copies.missing h.unique hkeeper hroot hcopy o) fun p hp => ?_
    cases hp
    exact ⟨op, next, s.threads_setThread_self c t _, hcreated⟩
  | some extent =>
    simp only [hcopy, Option.some.injEq] at hstep
    subst hstep
    have hcopies := h.copies.found h.unique hroot hcopy o now
    obtain ⟨hbuf, -⟩ := h.copies.copies c eid extent hcopy (content s.log eid) rfl
    exact h.returned hvalid hof hkeeps hkeeper hcreated hbuf (fun _ => rfl) hroot hcopies

/-- A thread calls `get` or `getattr`, or writes its target. -/
theorem accessTarget (h : YfsInv s) {next : Answer (callOf eid o) → YfsM Unit}
    (hthread : s.threads c t = .ready op (callOf eid o) next)
    (htarget : ∀ buf, o = .put buf → eid = op.target)
    (hstep : s.access c t now o eid op next = some s') : YfsInv s' := by
  obtain ⟨v, hvalid, hof, hkeeps⟩ := h.informed_of_ready hthread
  have hallows : v.Allows (callOf eid o) := hkeeps.1
  obtain ⟨heid, hmem⟩ : eid = v.target ∧ eid ∈ v.locks := by
    cases o with
    | get => exact ⟨hallows.1, hallows.2.1⟩
    | getattr => exact hallows
    | put buf =>
      have heid : eid = v.target := (htarget buf rfl).trans hof.1.symm
      have hput : if eid = v.target then _ else _ := hallows
      rw [if_pos heid] at hput
      exact ⟨heid, hput.1⟩
  refine h.access hthread (h.keeper_of_holds (hvalid.locks eid hmem)) (fun hne => ?_) hstep
  exact absurd (heid.trans hof.1) hne

/-- A thread makes an extent. -/
theorem create (h : YfsInv s) {buf : Buf} {next : Answer (.put eid buf) → YfsM Unit}
    (hthread : s.threads c t = .ready op (.put eid buf) next) (hunused : Unused s.log eid)
    (hstep : (s.note (.created c t eid)).access c t now (.put buf) eid op next =
      some s') : YfsInv s' := by
  have hcreator : creator (.created c t eid :: s.log) eid = some c := if_pos rfl
  exact (h.created hunused).access (o := .put buf) hthread (Or.inr hcreator)
    (fun _ => ⟨hunused.1, stage_created_self⟩) hstep

/-- A thread calls `remove`. -/
theorem remove (h : YfsInv s) {next : Answer (.remove eid) → YfsM Unit}
    (hthread : s.threads c t = .ready op (.remove eid) next)
    (hstep : s.issue c t now op (.remove eid) next = some s') : YfsInv s' := by
  obtain ⟨v, hvalid, hof, hkeeps⟩ := h.informed_of_ready hthread
  obtain ⟨hok, hbacked, hafter⟩ := hvalid.removed hkeeps.1
  have hconforms : Keeps (next ()) (v.after (.remove eid) ()) := hkeeps.2 () trivial
  simp only [YfsState.issue] at hstep
  obtain ⟨hroot, hstep⟩ := Option.ite_none_right_eq_some.mp hstep
  unfold ExtentClient.remove at hstep
  cases hcopy : (s.clients c).extent_list eid with
  | none =>
    simp only [hcopy, if_true, Option.some.injEq] at hstep
    subst hstep
    -- Without a cached copy nothing happens.
    have hsame : s.setClient c (s.clients c) = s := by
      unfold YfsState.setClient
      rw [Function.update_eq_self]
    rw [hsame]
    have hknows : (v.after (.remove eid) ()).Valid s.lock s.log c t :=
      { hvalid with read := nofun }
    exact h.setThread (h.free_of_ready hthread)
      ⟨_, hknows, Thread.conforms_goOn (hof.after _ _) hconforms⟩
  | some extent =>
    simp only [hcopy, Bool.false_eq_true, if_false, Option.some.injEq] at hstep
    subst hstep
    have hcopies := h.copies.removing (t := t) h.unique hroot hcopy
      fun l (hl : some none = some l) => (Option.some.inj hl).symm
    rw [← contents_remove c t] at hcopies
    refine h.effect (h.keeper_of_holds hbacked) (fun c' t' hacts => ?_) hok hbacked hcopies
      ⟨_, hafter, hof.after _ _, hconforms⟩ fun p hp => ?_
    · exact ⟨hacts.1.symm, hacts.2.symm⟩
    · cases hp
      exact ⟨op, next, Function.update_self _ _ _⟩

/-- The extent server executes the call that a client is in. -/
theorem rpc (h : YfsInv s) (hstep : s.next (.rpc c now) = some s') : YfsInv s' := by
  obtain ⟨⟨client, server⟩, hrpc, hs'⟩ := Option.map_eq_some_iff.mp hstep
  have hcopies := h.copies.rpc h.unique hrpc
  dsimp only at hs'
  unfold ExtentClient.rpc at hrpc
  split at hrpc
  next t o eid hroot =>
    simp only [hroot] at hs'
    subst hs'
    have hplace := h.place c _ hroot
    refine h.act hcopies fun p hp => ?_
    cases hrpc
    cases hp
    exact hplace
  next t o eid ret buf hroot =>
    simp only [hroot] at hs'
    subst hs'
    have hplace := h.place c _ hroot
    refine h.act hcopies fun p hp => ?_
    cases hrpc
    cases hp
    exact hplace
  next t eid hroot =>
    simp only [hroot] at hs'
    subst hs'
    cases hrpc
    -- The function returns, and the thread goes on.
    have hacted := h.act hcopies nofun
    obtain ⟨op, next, hthread⟩ := h.place c _ hroot
    obtain ⟨v, hvalid, hconforms⟩ := h.threads c t
    rw [hthread] at hconforms
    rw [YfsState.answered_eq (s := { s.setClient c _ with server := _ }) hthread ()]
    refine hacted.setThread (fun p hp => ?_)
      ⟨v, hvalid, Thread.conforms_goOn hconforms.1 hconforms.2⟩
    have hfree : (Function.update s.clients c ((s.clients c).goto none) c).sync_root = some p := hp
    rw [Function.update_self] at hfree
    cases hfree
  next w eid buf hroot =>
    simp only [hroot] at hs'
    subst hs'
    have hplace := h.place c _ hroot
    refine h.act hcopies fun p hp => ?_
    cases hrpc
    cases hp
    exact hplace
  next => cases hrpc

/-- `dorelease` returns to a worker whose extent is not cached. -/
theorem returns (h : YfsInv s) (hw : w.GivesBack (s.lock.clients c) eid)
    (hroot : (s.clients c).sync_root = none) (hcopy : (s.clients c).extent_list eid = none)
    (hstep : s.returns c w = some s') : YfsInv s' := by
  obtain ⟨lock, hlock, rfl⟩ := Option.map_eq_some_iff.mp hstep
  refine h.setLock hlock (fun c' t' lid he => ?_) (fun c' w' he => ?_) fun c' t' => ?_
  · cases w <;> cases he
  · obtain ⟨rfl, rfl⟩ := Worker.returns_inj he
    refine ⟨hroot, fun i hi => ?_⟩
    rw [hi.unique hw]
    exact hcopy
  · refine h.informed_next hlock fun lid he => ?_
    cases w <;> cases he

/-- The copy is dropped, and `dorelease` returns. -/
theorem dropped (h : YfsInv s) (hw : w.GivesBack (s.lock.clients c) eid)
    (hcopies : CopyInv (Keeper s.lock s.log) (Function.update s.clients c client) s.server
      (contents s.log)) (hnone : client.extent_list eid = none) (hroot : client.sync_root = none)
    (hstep : (s.setClient c client).returns c w = some s') : YfsInv s' := by
  have herased : YfsInv (s.setClient c client) :=
    h.act hcopies fun p hp => by cases hroot.symm.trans hp
  have hself : (s.setClient c client).clients c = client := Function.update_self _ _ _
  exact herased.returns hw (by rw [hself]; exact hroot) (by rw [hself]; exact hnone) hstep

/-- A worker in `dorelease` calls `flush`. -/
theorem flush (h : YfsInv s) (hstep : s.next (.flush c w eid) = some s') :
    YfsInv s' := by
  simp only [YfsState.next] at hstep
  obtain ⟨hcond, hstep⟩ := Option.ite_none_right_eq_some.mp hstep
  obtain ⟨hw, hroot⟩ := hcond
  unfold ExtentClient.flush at hstep
  cases hcopy : (s.clients c).extent_list eid with
  | none =>
    simp only [hcopy, if_true] at hstep
    refine h.dropped hw ?_ hcopy hroot hstep
    rw [Function.update_eq_self]
    exact h.copies
  | some extent =>
    simp only [hcopy] at hstep
    cases hdirty : extent.is_dirty with
    | true =>
      simp only [hdirty, if_true, Bool.false_eq_true, if_false, Option.some.injEq] at hstep
      subst hstep
      refine h.act (h.copies.flushing h.unique hroot hcopy hdirty) fun p hp => ?_
      cases hp
      exact hw
    | false =>
      simp only [hdirty, Bool.false_eq_true, if_false, if_true] at hstep
      exact h.dropped hw (h.copies.clean h.unique hroot hcopy hdirty) (Function.update_self _ _ _)
        hroot hstep

/-- The function that a client is in returns. -/
theorem finish (h : YfsInv s) (hstep : s.next (.finish c now) = some s') :
    YfsInv s' := by
  simp only [YfsState.next] at hstep
  split at hstep
  next t o eid ret buf ret' attr hroot =>
    cases hstep
    obtain ⟨op, next, hthread, hcreated⟩ := h.place c _ hroot
    obtain ⟨v, hvalid, hconforms⟩ := h.threads c t
    rw [hthread] at hconforms
    obtain ⟨hof, hkeeps⟩ := Thread.conforms_waiting.mp hconforms
    obtain ⟨hkeeper, -, hknown⟩ := h.copies.place c _ hroot
    obtain ⟨hbuf, hret⟩ := hknown (content s.log eid) rfl
    rw [YfsState.answered_eq (s := s.setClient c _) hthread]
    exact h.returned hvalid hof hkeeps hkeeper hcreated hbuf hret rfl
      (h.copies.fetched h.unique hroot now)
  next w eid hroot =>
    exact h.dropped (h.place c _ hroot) (h.copies.flushed h.unique hroot)
      (Function.update_self _ _ _) rfl hstep
  next => cases hstep

/-! ## Events -/

/-- A thread calls an operation. -/
theorem call (h : YfsInv s) (hname : op.ValidName) (hthread : s.threads c t = .idle) :
    YfsInv (s.setThread c t (.goOn op op.program)) := by
  have haway : (s.threads c t).Away := by
    rw [hthread]
    trivial
  obtain ⟨v, hvalid, hdropped⟩ := h.threads c t
  rw [hthread] at hdropped
  exact h.setThread (h.free_of_away haway)
    ⟨_, hvalid.start hdropped op, Thread.conforms_goOn ⟨rfl, rfl⟩ (keeps_program op hname)⟩

/-- A thread draws a number that nobody has used. -/
theorem random (h : YfsInv s) {r : Random} {next : Answer .random → YfsM Unit}
    (hthread : s.threads c t = .ready op .random next) (hunused : Unused s.log (op.number r)) :
    YfsInv (s.setThread c t (.goOn op (next r))) := by
  obtain ⟨v, hvalid, hof, hkeeps⟩ := h.informed_of_ready hthread
  have htarget : v.target ∈ v.locks := hkeeps.1
  -- Somebody asked for the lock of the target.
  have hcustody : Custody s.lock c v.target :=
    Or.inl (h.lock.owned_of_holds (hvalid.locks _ htarget))
  obtain ⟨t', ht'⟩ := h.asked_of_custody hcustody
  have hne : v.number r ≠ v.target := by
    rw [hof.2]
    exact fun heq => hunused.2 _ ht' heq.symm
  exact h.setThread (h.free_of_ready hthread)
    ⟨_, hvalid.drawn _, Thread.conforms_returns hof hkeeps hne⟩

end YfsInv

/-- A thread of client `c` asks for the lock of a new number only when the client made its extent,
until a thread has had the lock; and it makes only extents that nobody has used. -/
def MayIssue (log : List Note) (c : ℕ) : Thread → Prop
  | .ready _ (.acquire lid) _ => creator log lid = none ∨ creator log lid = some c
  | .ready op (.put eid _) _ => eid = op.target ∨ Unused log eid
  | _ => True

/-- A thread draws only numbers that nobody has used. -/
def MayDraw (log : List Note) (r : Random) : Thread → Prop
  | .ready op .random _ => Unused log (op.number r)
  | _ => True

/-- Operations are called with names that can be read back, draw new numbers, and leave the lock of
a new number to the client that made it, until a thread has had it. -/
def Careful (s : YfsState) : YfsEvent → Prop
  | .call _ _ op => op.ValidName
  | .issue c t _ => MayIssue s.log c (s.threads c t)
  | .random c t r => MayDraw s.log r (s.threads c t)
  | _ => True

namespace YfsInv

variable {s s' : YfsState} {c t : ℕ}

/-- A thread makes the next call of its operation. -/
theorem issue (h : YfsInv s) {now : UInt32} (hcareful : Careful s (.issue c t now))
    (hstep : s.next (.issue c t now) = some s') : YfsInv s' := by
  simp only [YfsState.next] at hstep
  replace hcareful : MayIssue s.log c (s.threads c t) := hcareful
  cases hthread : s.threads c t with
  | idle | waiting op q next =>
    rw [hthread] at hstep
    cases hstep
  | ready op q next =>
    rw [hthread] at hstep hcareful
    cases q with
    | acquire lid =>
      obtain ⟨lock, hlock, rfl⟩ := Option.map_eq_some_iff.mp hstep
      exact h.acquire hthread hcareful hlock
    | release lid =>
      obtain ⟨lock, hlock, rfl⟩ := Option.map_eq_some_iff.mp hstep
      exact h.release hthread hlock
    | get eid => exact h.accessTarget (o := .get) hthread nofun hstep
    | getattr eid => exact h.accessTarget (o := .getattr) hthread nofun hstep
    | put eid buf =>
      simp only [YfsState.issue] at hstep
      by_cases heid : eid = op.target
      · rw [if_pos heid] at hstep
        exact h.accessTarget (o := .put buf) hthread (fun _ _ => heid) hstep
      · rw [if_neg heid] at hstep
        exact h.create hthread (hcareful.resolve_left heid) hstep
    | remove eid => exact h.remove hthread hstep
    | random | crash => cases hstep

/-- The call that a thread is in returns. -/
theorem resume (h : YfsInv s) (hstep : s.next (.resume c t) = some s') : YfsInv s' := by
  simp only [YfsState.next] at hstep
  split at hstep
  next op lid next hthread =>
    split_ifs at hstep with hcond
    cases hstep
    exact h.acquired hthread hcond.1
  next op lid next hthread =>
    split_ifs at hstep
    cases hstep
    exact h.released hthread
  next => cases hstep

/-- The invariant holds at the start. -/
protected theorem start (now : UInt32) : YfsInv (.start now) where
  lock := .start
  log := trivial
  untouched _ e _ := Client.untouched_start e
  copies := by
    refine .start _ fun eid l hl => ?_
    obtain rfl := Option.some.inj hl
    exact ExtentServer.content_construct now eid
  place := nofun
  threads _ _ := ⟨.start (.getdir 0), ⟨nofun, nofun, nofun, nofun, nofun⟩, rfl⟩

/-- Every event keeps the invariant. -/
theorem next (h : YfsInv s) {e : YfsEvent} (hcareful : Careful s e) (hstep : s.next e = some s') :
    YfsInv s' := by
  cases e with
  | call c t op =>
    simp only [YfsState.next] at hstep
    split at hstep
    next hthread =>
      cases hstep
      exact h.call hcareful hthread
    next => cases hstep
  | issue c t now => exact h.issue hcareful hstep
  | random c t r =>
    simp only [YfsState.next] at hstep
    replace hcareful : MayDraw s.log r (s.threads c t) := hcareful
    split at hstep
    next op next hthread =>
      cases hstep
      rw [hthread] at hcareful
      exact h.random hthread hcareful
    next => cases hstep
  | resume c t => exact h.resume hstep
  | lock e =>
    simp only [YfsState.next] at hstep
    split_ifs at hstep with hspontaneous
    obtain ⟨lock, hlock, rfl⟩ := Option.map_eq_some_iff.mp hstep
    refine h.setLock hlock ?_ (fun c w he => ?_) fun c t => h.informed_next hlock ?_
    · rintro c t lid rfl
      exact hspontaneous.elim
    · subst he
      cases w <;> exact hspontaneous.elim
    · rintro lid rfl
      exact hspontaneous
  | flush c w eid => exact h.flush hstep
  | rpc c now => exact h.rpc hstep
  | finish c now => exact h.finish hstep

end YfsInv

/-- The invariant holds in every state that careful operations reach. -/
theorem yfsInv_of_reachable {s : YfsState} (h : yfsSystem.Reachable Careful s) : YfsInv s := by
  refine h.invariant (I := YfsInv) ?_ fun _ _ _ hinv hcareful hstep => hinv.next hcareful hstep
  rintro s ⟨now, rfl⟩
  exact .start now

/-- No entry dangles: whoever acquires the lock of an entry that was found, before the entry is
taken away, can read the extent. -/
theorem no_dangling_entry {s : YfsState} (h : yfsSystem.Reachable Careful s) : NoDangling s.log :=
  (yfsInv_of_reachable h).log.noDangling

/-! ## Runs -/

instance : DecidablePred Operation.ValidName
  | .createFile _ buf | .createDirectory _ buf => inferInstanceAs (Decidable (ValidName buf))
  | .unlinkFile _ _ | .lookupResource _ _ | .getDirContents _ | .readFile _ _ _ | .getfile _
  | .getdir _ => inferInstanceAs (Decidable True)

instance (log : List Note) (c : ℕ) : DecidablePred (MayIssue log c)
  | .ready _ (.acquire _) _ | .ready _ (.put _ _) _ => inferInstanceAs (Decidable (_ ∨ _))
  | .ready _ (.release _) _ | .ready _ (.get _) _ | .ready _ (.getattr _) _
  | .ready _ (.remove _) _ | .ready _ .random _ | .ready _ .crash _ | .idle | .waiting _ _ _ =>
    inferInstanceAs (Decidable True)

instance (log : List Note) (r : Random) : DecidablePred (MayDraw log r)
  | .ready op .random _ => inferInstanceAs (Decidable (Unused log (op.number r)))
  | .ready _ (.acquire _) _ | .ready _ (.put _ _) _ | .ready _ (.release _) _ | .ready _ (.get _) _
  | .ready _ (.getattr _) _ | .ready _ (.remove _) _ | .ready _ .crash _ | .idle
  | .waiting _ _ _ => inferInstanceAs (Decidable True)

instance (s : YfsState) : DecidablePred (Careful s)
  | .call _ _ op => inferInstanceAs (Decidable op.ValidName)
  | .issue c t _ => inferInstanceAs (Decidable (MayIssue s.log c (s.threads c t)))
  | .random c t r => inferInstanceAs (Decidable (MayDraw s.log r (s.threads c t)))
  | .resume _ _ | .lock _ | .flush _ _ _ | .rpc _ _ | .finish _ _ =>
    inferInstanceAs (Decidable True)

/-- Thread 0 of client `c` acquires a lock that is free. -/
def acquiresFree (c : ℕ) (lid : Inum) (xid : ℕ) : List YfsEvent :=
  [.issue c 0 0, .lock (.run c 0), .lock (.run c 0), .lock (.serverAcquire lid (clientId c) xid),
   .lock (.reply c 0 .OK), .lock (.run c 0), .resume c 0]

/-- Thread 0 of client 2 acquires a lock that client 1 has to give back, after the extent was
flushed. -/
def acquiresFlushed (lid : Inum) (xid : ℕ) : List YfsEvent :=
  [.issue 2 0 0, .lock (.run 2 0), .lock (.run 2 0), .lock (.serverAcquire lid (clientId 2) xid),
   .lock (.reply 2 0 .RETRY), .lock (.run 2 0), .lock .enforcer, .lock .revoker,
   .lock (.revoke 1 lid), .flush 1 .handler lid, .rpc 1 0, .finish 1 0,
   .lock (.serverRelease lid (clientId 1)), .lock (.retry 2 lid), .lock (.run 2 0), .resume 2 0]

/-- Client 1 creates file `a` in the root directory, with number `2147483653`. -/
def createsFile : List YfsEvent :=
  List.flatten
    [[.call 1 0 (.createFile 1 ['a'])], acquiresFree 1 1 0,
     [.issue 1 0 0, .rpc 1 0, .rpc 1 0, .finish 1 0, .random 1 0 ⟨5, by decide⟩],
     [.issue 1 0 0, .rpc 1 0, .rpc 1 0, .finish 1 0, .issue 1 0 0, .issue 1 0 0, .resume 1 0]]

/-- Client 2 finds file `a` in the root directory, and reads it after it acquired its lock. -/
def readsFile (acquires : List YfsEvent) : List YfsEvent :=
  List.flatten
    [[.call 2 0 (.lookupResource 1 ['a'])], acquiresFlushed 1 0,
     [.issue 2 0 0, .rpc 2 0, .rpc 2 0, .finish 2 0, .issue 2 0 0, .resume 2 0],
     [.call 2 0 (.readFile 2147483653 10 0)], acquires,
     [.issue 2 0 0, .rpc 2 0, .rpc 2 0, .finish 2 0]]

/-- The last notes of such a run, when `get` returned `ret`. -/
def lastNotes (ret : Extent.Status) : List Note :=
  [.access (.get 2 0 2147483653 ret []), .acquired 2 0 2147483653, .asked 2 0 2147483653,
   .released 2 0 1, .access (.get 2 0 1 .OK (createBuffElement 2147483653 ['a']))]

/-- Client 2 found the entry and acquired its lock before the entry was taken away. -/
theorem eq_OK_of_lastNotes {log : List Note} {ret : Extent.Status} (h : NoDangling log)
    (hlog : log.take 5 = lastNotes ret) : ret = .OK := by
  have hsplit : log = [] ++ .access (.get 2 0 2147483653 ret []) ::
      ([] ++ .acquired 2 0 2147483653 :: ([.asked 2 0 2147483653, .released 2 0 1] ++
        .access (.get 2 0 1 .OK (createBuffElement 2147483653 ['a'])) :: log.drop 5)) := by
    conv_lhs => rw [← List.take_append_drop 5 log, hlog]
    rfl
  refine h _ _ _ _ 2 0 2 0 1 2147483653 ret _ _ _ hsplit (by decide +kernel) ?_ List.not_mem_nil
  intro c t ret buf hmem
  simp at hmem

/-- Client 2 acquires the lock of the new file as soon as it has found the entry. -/
def readsAtOnce : List YfsEvent := createsFile ++ readsFile (acquiresFree 2 2147483653 1)

/-- Client 2 finds the entry of the new file, acquires its lock, and `get` fails: the extent is in
the cache of client 1 only. -/
theorem dangling_entry :
    ∃ s, yfsSystem.exec (.start 0) readsAtOnce = some s ∧
      yfsSystem.Reachable System.anything s ∧ ¬ NoDangling s.log := by
  have hrun : (yfsSystem.exec (.start 0) readsAtOnce).map (fun s => s.log.take 5) =
      some (lastNotes .IOERR) := by
    decide +kernel
  obtain ⟨s, hexec, hlog⟩ := Option.map_eq_some_iff.mp hrun
  have hinit : yfsSystem.init (.start 0) := ⟨0, rfl⟩
  refine ⟨s, hexec, .of_exec hexec hinit, ?_⟩
  intro hnot
  cases eq_OK_of_lastNotes hnot hlog

/-- Client 1 asks for the attributes of the new file before client 2 finds it, so that its lock has
been had. -/
def readsSettled : List YfsEvent :=
  List.flatten
    [createsFile, [.call 1 0 (.getfile 2147483653)], acquiresFree 1 2147483653 1,
     [.issue 1 0 0, .issue 1 0 0, .resume 1 0], readsFile (acquiresFlushed 2147483653 1)]

/-- Then client 2 can read it. -/
theorem no_dangling_entry_settled :
    ∃ s ret, yfsSystem.execGuarded Careful (.start 0) readsSettled = some s ∧
      s.log.take 5 = lastNotes ret ∧ NoDangling s.log ∧ ret = .OK := by
  have hrun : (yfsSystem.execGuarded Careful (.start 0) readsSettled).map
      (fun s => s.log.take 5) = some (lastNotes .OK) := by
    decide +kernel
  obtain ⟨s, hexec, hlog⟩ := Option.map_eq_some_iff.mp hrun
  have hinit : yfsSystem.init (.start 0) := ⟨0, rfl⟩
  have hreachable := System.Reachable.of_execGuarded hexec hinit
  have hnot := no_dangling_entry hreachable
  exact ⟨s, .OK, hexec, hlog, hnot, eq_OK_of_lastNotes hnot hlog⟩

end SimpleDfs.Yfs
