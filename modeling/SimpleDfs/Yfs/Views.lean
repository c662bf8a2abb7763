import SimpleDfs.Lock.Untouched
import SimpleDfs.Yfs.Log

/-!
# What the threads know

What a thread knows from its own calls (`View`) is true of the locks and of the log
(`View.Valid`). It stays true whatever the other threads do (`View.Valid.other`), since they change
only what they have the locks of (`Backed`) or what nobody else knows of. And it is true after each
call of the thread itself, which writes a note that is right (`View.Valid.accessed` for the
functions of the extent client).
-/

namespace SimpleDfs.Yfs

open Lock Extent

/-- With the note, thread `t` of client `c` got or gave up a lock, or changed an extent. -/
def Note.ActsFor (c t : ℕ) : Note → Prop
  | acquired c' t' _ | released c' t' _ | access (.put c' t' _ _ _) | access (.remove c' t' _) =>
    c' = c ∧ t' = t
  | asked _ _ _ | created _ _ _ | access (.get _ _ _ _ _) | access (.getattr _ _ _ _ _) => False

/-- The thread that wrote the note has the locks of what it changes: of the extent, unless it had
no content that anybody could read, and of the entries that it takes away. -/
def Backed (lock : LockState) (log : List Note) : Note → Prop
  | .access (.put c t e _ buf) => ((content log e).getD [] = buf ∨ Holds lock c t e) ∧
    ∀ i ∈ listing log e, i ∉ inums buf → Holds lock c t i
  | .access (.remove c t e) => Holds lock c t e
  | _ => True

/-- What the thread knows is true. -/
structure View.Valid (lock : LockState) (log : List Note) (c t : ℕ) (v : View) : Prop where
  /-- It holds the locks. -/
  locks : ∀ l ∈ v.locks, Holds lock c t l
  /-- The target has the content that the thread read or wrote. -/
  read : ∀ buf, v.read = some buf → v.target ∈ v.locks ∧ (content log v.target).getD [] = buf
  /-- The extent that it made is there, and has no entry. -/
  stored : ∀ i, v.stored = some i → stage log i = .pending c t ∧ content log i ≠ none
  /-- The entry that it took away is gone. -/
  dropped : ∀ i, v.dropped = some i → stage log i = .gone ∧ i ∈ v.locks
  /-- An extent that was listed when the thread acquired its lock is still listed, unless the thread
  itself took the entry away. -/
  sure : ∀ i, Sure log c t i →
    Holds lock c t i ∧ ((∃ d, stage log i = .listed d) ∨ v.dropped = some i)

/-- The view is that of a thread in the operation. -/
def View.Of (v : View) (op : Operation) : Prop := v.target = op.target ∧ v.number = op.number

/-- The operation of a view does not change. -/
theorem View.Of.after {v : View} {op : Operation} (h : v.Of op) (q : Call) (a : Answer q) :
    (v.after q a).Of op := by
  cases q with
  | put eid buf =>
    by_cases heid : eid = v.target
    · simp only [View.after, if_pos heid]
      exact h
    · simp only [View.after, if_neg heid]
      exact h
  | _ => exact h

/-! ## The other threads -/

section Other

variable {lock lock' : LockState} {log log' : List Note} {n : Note} {c t : ℕ} {v : View}
  {d e i : Inum}

/-- What the thread knows stays true when its locks, the content of its target, and the extents and
entries that it can rely on stay. -/
theorem View.Valid.keep (h : v.Valid lock log c t)
    (hholds : ∀ l, Holds lock c t l → Holds lock' c t l)
    (hread : Holds lock c t v.target →
      (content log' v.target).getD [] = (content log v.target).getD [])
    (hpending : ∀ i, stage log i = .pending c t → content log i ≠ none →
      stage log' i = .pending c t ∧ content log' i ≠ none)
    (hgone : ∀ i, stage log i = .gone → stage log' i = .gone)
    (hlisted : ∀ d i, Holds lock c t i → stage log i = .listed d → ∃ d', stage log' i = .listed d')
    (hsure : ∀ i, Sure log' c t i → Sure log c t i) : v.Valid lock' log' c t where
  locks l hl := hholds l (h.locks l hl)
  read buf hbuf := by
    obtain ⟨htarget, hcontent⟩ := h.read buf hbuf
    exact ⟨htarget, (hread (h.locks _ htarget)).trans hcontent⟩
  stored i hi := hpending i (h.stored i hi).1 (h.stored i hi).2
  dropped i hi := ⟨hgone i (h.dropped i hi).1, (h.dropped i hi).2⟩
  sure i hi := by
    obtain ⟨hlock, hstage⟩ := h.sure i (hsure i hi)
    refine ⟨hholds i hlock, hstage.imp_left ?_⟩
    rintro ⟨d, hd⟩
    exact hlisted d i hlock hd

/-- What the thread knows stays true when it keeps its locks. -/
theorem View.Valid.lockNext (h : v.Valid lock log c t)
    (hholds : ∀ l, Holds lock c t l → Holds lock' c t l) : v.Valid lock' log c t :=
  h.keep hholds (fun _ => rfl) (fun _ hstage hcontent => ⟨hstage, hcontent⟩) (fun _ => id)
    (fun d _ _ hstage => ⟨d, hstage⟩) fun _ => id

/-- A thread acquires and releases only its own locks. -/
theorem sure_of_cons (hacts : ¬ n.ActsFor c t) (h : Sure (n :: log) c t i) : Sure log c t i := by
  cases n with
  | asked c' t' lid | created c' t' eid | access a => exact h
  | acquired c' t' lid =>
    rcases h with ⟨rfl, rfl, -⟩ | h
    · exact absurd ⟨rfl, rfl⟩ hacts
    · exact h
  | released c' t' lid => exact h.2

/-- The content of an extent stays while another thread has its lock. -/
theorem content_cons_of_holds (hlock : LockInv lock) (hbacked : Backed lock log n)
    (hacts : ¬ n.ActsFor c t) (hholds : Holds lock c t e) :
    (content (n :: log) e).getD [] = (content log e).getD [] := by
  rcases n with _ | _ | _ | _ | (_ | _ | ⟨c', t', e', ret, buf⟩ | ⟨c', t', e'⟩)
  case access.put =>
    by_cases he : e = e'
    · subst he
      rw [content_put_self, Option.getD_some]
      rcases hbacked.1 with hsame | hholds'
      · exact hsame.symm
      · obtain ⟨rfl, rfl⟩ := hlock.holds_unique hholds' hholds
        exact absurd ⟨rfl, rfl⟩ hacts
    · rw [content_put_of_ne he]
  case access.remove =>
    by_cases he : e = e'
    · subst he
      obtain ⟨rfl, rfl⟩ := hlock.holds_unique hbacked hholds
      exact absurd ⟨rfl, rfl⟩ hacts
    · rw [content_remove_of_ne he]
  all_goals rfl

/-- The extent that a thread makes has no entry until the thread enters it. -/
theorem stage_pending_cons (hinv : LogInv log) (hok : NoteOk log n) (hacts : ¬ n.ActsFor c t)
    (hpending : stage log i = .pending c t) : stage (n :: log) i = .pending c t := by
  have hmoves := hinv.moves hok i
  rw [hpending] at hmoves
  generalize stage (n :: log) i = new at hmoves
  cases hmoves with
  | stays => rfl
  | enters => exact absurd ⟨rfl, rfl⟩ hacts

/-- What is gone does not come back. -/
theorem stage_gone_cons (hinv : LogInv log) (hok : NoteOk log n) (hgone : stage log i = .gone) :
    stage (n :: log) i = .gone := by
  have hmoves := hinv.moves hok i
  rw [hgone] at hmoves
  generalize stage (n :: log) i = new at hmoves
  cases hmoves with
  | stays => rfl

/-- Only an extent that is gone is removed. -/
theorem content_cons_ne_none (hok : NoteOk log n) (hstage : stage log i ≠ .gone)
    (hcontent : content log i ≠ none) : content (n :: log) i ≠ none := by
  rcases n with _ | _ | _ | _ | (_ | _ | ⟨c', t', e, ret, buf⟩ | ⟨c', t', e⟩)
  case access.put =>
    by_cases hi : i = e
    · subst hi
      rw [content_put_self]
      exact Option.some_ne_none buf
    · rw [content_put_of_ne hi]
      exact hcontent
  case access.remove =>
    have hne : i ≠ e := by
      rintro rfl
      exact hstage hok
    rw [content_remove_of_ne hne]
    exact hcontent
  all_goals exact hcontent

/-- The extent that a thread made is there until the thread enters it. -/
theorem pending_cons (hinv : LogInv log) (hok : NoteOk log n) (hacts : ¬ n.ActsFor c t)
    (hpending : stage log i = .pending c t) (hcontent : content log i ≠ none) :
    stage (n :: log) i = .pending c t ∧ content (n :: log) i ≠ none := by
  refine ⟨stage_pending_cons hinv hok hacts hpending, content_cons_ne_none hok ?_ hcontent⟩
  rw [hpending]
  exact Stage.noConfusion

/-- An entry is taken away only by a thread that has its lock. -/
theorem stage_listed_cons (hlock : LockInv lock) (hinv : LogInv log) (hok : NoteOk log n)
    (hbacked : Backed lock log n) (hacts : ¬ n.ActsFor c t) (hholds : Holds lock c t i)
    (hlisted : stage log i = .listed d) : ∃ d', stage (n :: log) i = .listed d' := by
  have hmoves := hinv.moves hok i
  rw [hlisted] at hmoves
  generalize stage (n :: log) i = new at hmoves
  cases hmoves with
  | stays => exact ⟨d, rfl⟩
  | leaves hnot hmem =>
    obtain ⟨rfl, rfl⟩ := hlock.holds_unique (hbacked.2 i hmem hnot) hholds
    exact absurd ⟨rfl, rfl⟩ hacts

/-- What the thread knows stays true whatever the other threads do. -/
theorem View.Valid.other (h : v.Valid lock log c t) (hlock : LockInv lock) (hinv : LogInv log)
    (hok : NoteOk log n) (hbacked : Backed lock log n) (hacts : ¬ n.ActsFor c t) :
    v.Valid lock (n :: log) c t :=
  h.keep (fun _ => id) (content_cons_of_holds hlock hbacked hacts)
    (fun _ => pending_cons hinv hok hacts) (fun _ => stage_gone_cons hinv hok)
    (fun _ _ => stage_listed_cons hlock hinv hok hbacked hacts) fun _ => sure_of_cons hacts

end Other

/-! ## The thread itself -/

section Own

variable {lock : LockState} {log : List Note} {c t : ℕ} {v : View} {lid eid : Inum}

/-- A thread that has just been called knows nothing yet. -/
theorem View.Valid.start (h : v.Valid lock log c t) (hdropped : v.dropped = none)
    (op : Operation) : (View.start op).Valid lock log c t where
  locks := nofun
  read := nofun
  stored := nofun
  dropped := nofun
  sure i hi := by
    obtain ⟨hholds, hlisted | hgone⟩ := h.sure i hi
    · exact ⟨hholds, Or.inl hlisted⟩
    · cases hdropped.symm.trans hgone

/-- A thread draws a number. -/
theorem View.Valid.drawn (h : v.Valid lock log c t) (i : Option Inum) :
    View.Valid lock log c t { v with drawn := i } :=
  { h with }

/-- A thread returns from `acquire`. -/
theorem View.Valid.acquired (h : v.Valid lock log c t) (hholds : Holds lock c t lid) :
    v.Valid lock (.acquired c t lid :: log) c t where
  locks := h.locks
  read := h.read
  stored := h.stored
  dropped := h.dropped
  sure i hi := by
    rcases hi with ⟨-, -, rfl, d, hd⟩ | hi
    · exact ⟨hholds, Or.inl ⟨d, hd⟩⟩
    · exact h.sure i hi

/-- A thread has one more lock. -/
theorem View.Valid.locked (h : v.Valid lock log c t) (hholds : Holds lock c t lid) :
    View.Valid lock log c t { v with locks := lid :: v.locks } where
  locks l hl := by
    rcases List.mem_cons.mp hl with rfl | hl
    · exact hholds
    · exact h.locks l hl
  read buf hbuf := ⟨List.mem_cons_of_mem _ (h.read buf hbuf).1, (h.read buf hbuf).2⟩
  stored := h.stored
  dropped i hi := ⟨(h.dropped i hi).1, List.mem_cons_of_mem _ (h.dropped i hi).2⟩
  sure := h.sure

/-- A thread releases a lock, and keeps its other locks. -/
theorem View.Valid.released (h : v.Valid lock log c t) {lock' : LockState}
    (hholds : ∀ l, l ≠ lid → Holds lock c t l → Holds lock' c t l) :
    (v.after (.release lid) ()).Valid lock' (.released c t lid :: log) c t where
  locks l hl := by
    obtain ⟨hmem, hne⟩ := List.mem_filter.mp hl
    exact hholds l (of_decide_eq_true hne) (h.locks l hmem)
  read buf hbuf := by
    obtain ⟨hne, hread⟩ : lid ≠ v.target ∧ v.read = some buf := by
      by_cases htarget : lid = v.target
      · cases (if_pos htarget).symm.trans hbuf
      · exact ⟨htarget, (if_neg htarget).symm.trans hbuf⟩
    obtain ⟨htarget, hcontent⟩ := h.read buf hread
    exact ⟨List.mem_filter.mpr ⟨htarget, decide_eq_true hne.symm⟩, hcontent⟩
  stored := h.stored
  dropped i hi := by
    obtain ⟨hne, hdropped⟩ : v.dropped ≠ some lid ∧ v.dropped = some i := by
      by_cases hlid : v.dropped = some lid
      · cases (if_pos hlid).symm.trans hi
      · exact ⟨hlid, (if_neg hlid).symm.trans hi⟩
    obtain ⟨hstage, hmem⟩ := h.dropped i hdropped
    refine ⟨hstage, List.mem_filter.mpr ⟨hmem, decide_eq_true ?_⟩⟩
    rintro rfl
    exact hne hdropped
  sure i hi := by
    obtain ⟨hnot, hsure⟩ := hi
    have hne : i ≠ lid := by
      rintro rfl
      exact hnot ⟨rfl, rfl, rfl⟩
    obtain ⟨hlock, hstage⟩ := h.sure i hsure
    refine ⟨hholds i hne hlock, hstage.imp_right fun hdropped => ?_⟩
    have hother : v.dropped ≠ some lid := by
      rw [hdropped]
      exact fun heq => hne (Option.some.inj heq)
    exact (if_neg hother).trans hdropped

/-- A thread removes the extent whose entry it took away. -/
theorem View.Valid.removed (h : v.Valid lock log c t) (hdropped : v.dropped = some eid) :
    NoteOk log (.access (.remove c t eid)) ∧ Backed lock log (.access (.remove c t eid)) ∧
      (v.after (.remove eid) ()).Valid lock (.access (.remove c t eid) :: log) c t := by
  obtain ⟨hgone, hmem⟩ := h.dropped eid hdropped
  have hok : NoteOk log (.access (.remove c t eid)) := hgone
  refine ⟨hok, h.locks eid hmem, h.locks, fun buf hbuf => ?_, fun i hi => ?_, h.dropped, h.sure⟩
  · cases hbuf
  · obtain ⟨hpending, hcontent⟩ := h.stored i hi
    refine ⟨hpending, content_cons_ne_none hok ?_ hcontent⟩
    rw [hpending]
    exact Stage.noConfusion

/-! ## The functions of the extent client -/

/-- The call `q` of a thread that knows `v` returns `a`, and the thread writes the note `n`: the
note is right, the answer is one that the thread can expect, and what it knows then is true. -/
structure Returns (lock : LockState) (log : List Note) (c t : ℕ) (v : View) (n : Note) (q : Call)
    (a : Answer q) : Prop where
  /-- The note is right. -/
  ok : NoteOk log n
  /-- The thread has the locks. -/
  backed : Backed lock log n
  /-- The thread can expect the answer. -/
  answers : v.Answers q a
  /-- What the thread knows then is true. -/
  after : (v.after q a).Valid lock (n :: log) c t

variable {ret ret' : Extent.Status} {extent : CachedExtentInfo} {buf : Buf}

/-- A thread reads its target. -/
theorem View.Valid.got (h : v.Valid lock log c t) (hinv : LogInv log)
    (hallows : v.Allows (.get eid)) (hbuf : extent.buf = (content log eid).getD [])
    (hret : content log eid ≠ none → ret = .OK) :
    Returns lock log c t v (.access (.get c t eid ret extent.buf)) (.get eid)
      (ret, extent.buf) := by
  obtain ⟨rfl, hmem, hdropped⟩ := hallows
  have hread : ∀ i, Sure log c t i → content log i ≠ none := by
    intro i hi
    obtain ⟨-, ⟨d, hd⟩ | hgone⟩ := h.sure i hi
    · exact hinv.kept d i hd
    · cases hdropped.symm.trans hgone
  refine ⟨⟨hbuf, fun hsure => hret (hread _ hsure)⟩, trivial, ?_, h.locks, ?_, h.stored, h.dropped,
    h.sure⟩
  · simp only [View.Answers, hbuf]
    exact ⟨hinv.text _, hinv.self _, hinv.nodup _⟩
  · intro buf' hbuf'
    rw [← Option.some.inj hbuf']
    exact ⟨hmem, hbuf.symm⟩

/-- A thread reads the attributes of its target. -/
theorem View.Valid.gotattr (h : v.Valid lock log c t) (attr : Attr) :
    Returns lock log c t v (.access (.getattr c t eid ret attr)) (.getattr eid) (ret, attr) :=
  ⟨trivial, trivial, trivial, h.locks, h.read, h.stored, h.dropped, h.sure⟩

/-- A thread makes the extent of the number that it drew. -/
theorem View.Valid.made (h : v.Valid lock log c t) (hne : eid ≠ v.target)
    (hcontent : content log eid = none) (hstage : stage log eid = .pending c t) :
    Returns lock log c t v (.access (.put c t eid ret [])) (.put eid []) () := by
  have hlisting : listing log eid = [] := listing_of_none hcontent
  have hok : NoteOk log (.access (.put c t eid ret [])) :=
    ⟨isText_nil, List.not_mem_nil, List.nodup_nil, fun i hi => absurd hi List.not_mem_nil⟩
  have hbacked : Backed lock log (.access (.put c t eid ret [])) := by
    rw [Backed, hcontent, hlisting]
    exact ⟨Or.inl rfl, fun i hi => absurd hi List.not_mem_nil⟩
  -- Nothing changes but the content of the new extent.
  have hsame : ∀ i, stage (.access (.put c t eid ret []) :: log) i = stage log i := by
    intro i
    refine stage_put_of_notMem List.not_mem_nil ?_
    rw [hlisting]
    exact List.not_mem_nil
  have hkept : v.Valid lock (.access (.put c t eid ret []) :: log) c t := by
    refine h.keep (fun _ => id) (fun _ => ?_) (fun i hi hi' => ?_) (fun i hi => ?_)
      (fun d i _ hi => ⟨d, ?_⟩) fun _ => id
    · rw [content_put_of_ne hne.symm]
    · refine ⟨(hsame i).trans hi, content_cons_ne_none hok ?_ hi'⟩
      rw [hi]
      exact Stage.noConfusion
    · exact (hsame i).trans hi
    · exact (hsame i).trans hi
  refine ⟨hok, hbacked, trivial, ?_⟩
  simp only [View.after, if_neg hne]
  refine ⟨hkept.locks, hkept.read, fun i hi => ?_, hkept.dropped, hkept.sure⟩
  obtain rfl := Option.some.inj hi
  rw [hsame, content_put_self]
  exact ⟨hstage, Option.some_ne_none _⟩

/-- A thread writes the directory that it read. -/
theorem View.Valid.wrote (h : v.Valid lock log c t) (hinv : LogInv log) {old : Buf}
    (hmem : v.target ∈ v.locks) (hdropped : v.dropped = none) (hread : v.read = some old)
    (hrewrites : v.Rewrites old buf) :
    Returns lock log c t v (.access (.put c t v.target ret buf)) (.put v.target buf) () := by
  have hlisting : listing log v.target = inums old := by rw [listing, (h.read old hread).2]
  -- The extent that the thread made was not listed yet.
  have hnew : ∀ i, v.stored = some i → i ∉ inums old := by
    intro i hi hold
    rw [← hlisting] at hold
    cases (h.stored i hi).1.symm.trans (hinv.listed _ i hold)
  have hok : NoteOk log (.access (.put c t v.target ret buf)) := by
    refine ⟨hrewrites.text, hrewrites.self, hrewrites.nodup ?_ hnew, fun i hi => ?_⟩
    · rw [← hlisting]
      exact hinv.nodup v.target
    · rw [hlisting]
      exact (hrewrites.entries i hi).imp_right (h.stored i)
  have hleft : ∀ i ∈ listing log v.target, i ∉ inums buf →
      i ∈ v.locks ∧ unlisted old buf = some i := by
    rw [hlisting]
    exact hrewrites.left
  refine ⟨hok, ⟨Or.inr (h.locks _ hmem), fun i hi hnot => h.locks i (hleft i hi hnot).1⟩, trivial,
    ?_⟩
  simp only [View.after, if_true, hread, Option.getD_some]
  refine ⟨h.locks, fun buf' hbuf' => ?_, fun i hi => ?_, fun i hi => ?_, fun i hi => ?_⟩
  · rw [← Option.some.inj hbuf']
    refine ⟨hmem, ?_⟩
    dsimp only
    rw [content_put_self, Option.getD_some]
  · cases hi
  · have hold : i ∈ listing log v.target := by
      rw [hlisting]
      exact List.mem_of_find?_eq_some hi
    have hnot : i ∉ inums buf := by simpa using List.find?_some hi
    exact ⟨stage_put_of_left hnot hold, (hleft i hold hnot).1⟩
  · -- An entry that the thread could rely on is still there, or the thread took it away just now.
    obtain ⟨hholds, ⟨d, hd⟩ | hgone⟩ := h.sure i hi
    · refine ⟨hholds, ?_⟩
      have hmoves := hinv.moves hok i
      rw [hd] at hmoves
      generalize stage (.access (.put c t v.target ret buf) :: log) i = new at hmoves
      cases hmoves with
      | stays => exact Or.inl ⟨d, rfl⟩
      | leaves hnot hold => exact Or.inr (hleft i hold hnot).2
    · cases hdropped.symm.trans hgone

/-- A function of the extent client returns. It found the content of the extent, and `get` returns
`OK` when there is one. -/
theorem View.Valid.accessed (h : v.Valid lock log c t) (hinv : LogInv log) {o : Op}
    (hallows : v.Allows (callOf eid o)) (hbuf : extent.buf = (content log eid).getD [])
    (hret : content log eid ≠ none → ret = .OK)
    (hcreated : eid ≠ v.target → content log eid = none ∧ stage log eid = .pending c t) :
    Returns lock log c t v (.access (o.log c t eid ret ret' extent)) (callOf eid o)
      (answer ret ret' extent eid o) := by
  cases o with
  | get => exact h.got hinv hallows hbuf hret
  | getattr => exact h.gotattr extent.attr
  | put buf =>
    have hput : if eid = v.target then _ else _ := hallows
    by_cases heid : eid = v.target
    · subst heid
      rw [if_pos rfl] at hput
      obtain ⟨hmem, hdropped, old, hread, hrewrites⟩ := hput
      exact h.wrote hinv hmem hdropped hread hrewrites
    · rw [if_neg heid] at hput
      obtain ⟨rfl, -⟩ := hput
      obtain ⟨hcontent, hstage⟩ := hcreated heid
      exact h.made heid hcontent hstage

end Own

/-! ## What a thread does next -/

namespace Thread

/-- The thread keeps to the rules with what it knows. `release` and `remove` take effect when they
are called, the other calls when they return. -/
def Conforms (v : View) : Thread → Prop
  | idle => v.dropped = none
  | ready op q next => v.Of op ∧ Keeps (.call q next) v
  | waiting op (.release _) next | waiting op (.remove _) next => v.Of op ∧ Keeps (next ()) v
  | waiting op q next => v.Of op ∧ Keeps (.call q next) v

variable {v : View} {op : Operation} {q : Call} {next : Answer q → YfsM Unit}

/-- A thread that goes on keeps to the rules. -/
theorem conforms_goOn {p : YfsM Unit} (hof : v.Of op) (h : Keeps p v) : (goOn op p).Conforms v := by
  cases p with
  | done a => exact h
  | call q next => exact ⟨hof, h⟩

/-- The call of a thread returns, and the thread goes on. -/
theorem conforms_returns (hof : v.Of op) (h : Keeps (.call q next) v) {a : Answer q}
    (ha : v.Answers q a) : (goOn op (next a)).Conforms (v.after q a) :=
  conforms_goOn (hof.after q a) (h.2 a ha)

/-- A thread in a function of the extent client that takes effect when it returns. -/
theorem conforms_waiting {o : Op} {eid : Inum} {next : Answer (callOf eid o) → YfsM Unit} :
    (waiting op (callOf eid o) next).Conforms v ↔
      v.Of op ∧ Keeps (.call (callOf eid o) next) v := by
  cases o <;> rfl

end Thread

/-- What the thread knows is true, and it keeps to the rules. -/
def Informed (lock : LockState) (log : List Note) (c t : ℕ) (thread : Thread) : Prop :=
  ∃ v : View, v.Valid lock log c t ∧ thread.Conforms v

end SimpleDfs.Yfs
