import SimpleDfs.Yfs.Protocol

/-!
# What the threads did to the entries

The log of a run, read as the story of the directories and their entries. A number is first unused;
a thread draws it and makes its extent, which has no entry yet; then it is listed in a directory,
until it is gone (`Stage`).

`NoDangling` says that an entry that was found in a directory is not dangling: whoever acquires its
lock before it is unlinked can read the extent. It follows from what holds of each note when it is
written (`LogOk.noDangling`): a `get` returns the content, a directory is written with the entries
that it had and those that the thread has made, an extent is removed when its entry is gone, and a
thread that acquired the lock of a listed extent can read it.
-/

namespace SimpleDfs.Yfs

open Extent

/-- The extent that the access is about. -/
def accessed : Access → Inum
  | .get _ _ eid _ _ | .getattr _ _ eid _ _ | .put _ _ eid _ _ | .remove _ _ eid => eid

/-- The lock or the extent that the note is about. -/
def Note.number : Note → Inum
  | asked _ _ lid | acquired _ _ lid | released _ _ lid => lid
  | created _ _ eid => eid
  | access a => accessed a

/-- The content of an extent after a note, from the content before it. -/
def Note.writes (eid : Inum) (old : Option Buf) : Note → Option Buf
  | access (.put _ _ e _ buf) => if e = eid then some buf else old
  | access (.remove _ _ e) => if e = eid then none else old
  | _ => old

/-- The content of an extent. At the start there is the root directory, which is empty. -/
def content : List Note → Inum → Option Buf
  | [], eid => if eid = ExtentServer.ROOTDIR then some [] else none
  | n :: earlier, eid => n.writes eid (content earlier eid)

/-- The numbers of the entries of a directory. -/
def listing (log : List Note) (d : Inum) : List Inum := inums ((content log d).getD [])

/-- What became of a number. -/
inductive Stage where
  /-- Nobody has made an extent of this number. -/
  | unused
  /-- Thread `t` of client `c` makes the extent, or has made it without an entry. -/
  | pending (c t : ℕ)
  /-- There is an entry of it in directory `d`. -/
  | listed (d : Inum)
  /-- Its entry was taken away. -/
  | gone
  deriving DecidableEq, Repr

/-- What became of a number after a note, from what it was before. -/
def Note.moves (log : List Note) (i : Inum) (old : Stage) : Note → Stage
  | created c t e => if e = i then .pending c t else old
  | access (.put _ _ d _ buf) =>
    if i ∈ inums buf then .listed d else if i ∈ listing log d then .gone else old
  | _ => old

/-- What became of a number. -/
def stage : List Note → Inum → Stage
  | [], _ => .unused
  | n :: earlier, i => n.moves earlier i (stage earlier i)

/-- The client that made the extent after a note, from the one before. -/
def Note.creates (e : Inum) (old : Option ℕ) : Note → Option ℕ
  | created c _ eid => if eid = e then some c else old
  | acquired _ _ lid => if lid = e then none else old
  | _ => old

/-- The client that made the extent, as long as nobody has had its lock. -/
def creator : List Note → Inum → Option ℕ
  | [], _ => none
  | n :: earlier, e => n.creates e (creator earlier e)

/-- The number does not exist, and nobody has used it. -/
def Unused (log : List Note) (e : Inum) : Prop :=
  content log e = none ∧ ∀ n ∈ log, n.number ≠ e

instance (log : List Note) (e : Inum) : Decidable (Unused log e) :=
  inferInstanceAs (Decidable (_ ∧ _))

/-- An entry that was found is not dangling: when a thread found number `i` in directory `d`, and
another one acquired the lock of `i` before the entry was taken away, then this one could read the
extent as long as it had the lock. -/
def NoDangling (log : List Note) : Prop :=
  ∀ (later held between earlier : List Note) (c t c' t' : ℕ) (d i : Inum)
    (ret ret' : Extent.Status) (buf buf' : Buf),
    log = later ++ .access (.get c t i ret buf) :: (held ++ .acquired c t i ::
      (between ++ .access (.get c' t' d ret' buf') :: earlier)) →
    i ∈ inums buf' →
    (∀ c'' t'' ret'' buf'', Note.access (.put c'' t'' d ret'' buf'') ∈ between →
      i ∈ inums buf'') →
    Note.released c t i ∉ held → ret = .OK

/-! ## What holds of each note -/

/-- The thread acquired the lock when the extent was listed, and has not released it since. -/
def Sure : List Note → ℕ → ℕ → Inum → Prop
  | [], _, _, _ => False
  | .acquired c' t' lid :: earlier, c, t, i =>
    (c' = c ∧ t' = t ∧ lid = i ∧ ∃ d, stage earlier i = .listed d) ∨ Sure earlier c t i
  | .released c' t' lid :: earlier, c, t, i => ¬ (c' = c ∧ t' = t ∧ lid = i) ∧ Sure earlier c t i
  | .asked _ _ _ :: earlier, c, t, i | .created _ _ _ :: earlier, c, t, i
  | .access _ :: earlier, c, t, i => Sure earlier c t i

/-- What holds of a note when it is written. -/
def NoteOk (log : List Note) : Note → Prop
  | .asked c _ lid => creator log lid = none ∨ creator log lid = some c
  | .created _ _ eid => Unused log eid
  | .access (.get c t eid ret buf) =>
    buf = (content log eid).getD [] ∧ (Sure log c t eid → ret = .OK)
  | .access (.put c t d _ buf) => IsText buf ∧ d ∉ inums buf ∧ (inums buf).Nodup ∧
    ∀ i ∈ inums buf, i ∈ listing log d ∨ stage log i = .pending c t ∧ content log i ≠ none
  | .access (.remove _ _ eid) => stage log eid = .gone
  | .acquired _ _ _ | .released _ _ _ | .access (.getattr _ _ _ _ _) => True

/-- What holds of all notes. -/
def LogOk : List Note → Prop
  | [] => True
  | n :: earlier => NoteOk earlier n ∧ LogOk earlier

/-- The directories and the entries. -/
structure LogInv (log : List Note) : Prop where
  /-- The content of an extent is the text of a directory. -/
  text : ∀ d, IsText ((content log d).getD [])
  /-- A directory is not an entry of itself. -/
  self : ∀ d, d ∉ listing log d
  /-- No number is in a directory twice. -/
  nodup : ∀ d, (listing log d).Nodup
  /-- A number is in one directory only. -/
  listed : ∀ d i, i ∈ listing log d → stage log i = .listed d
  /-- A listed extent exists. -/
  kept : ∀ d i, stage log i = .listed d → content log i ≠ none
  /-- A thread made the extent of a number that is in use. -/
  made : ∀ i, stage log i ≠ .unused → ∃ c t, .created c t i ∈ log
  /-- Only the client that made an extent asks for its lock at first. -/
  askers : ∀ c i, creator log i = some c → ∀ c' t, .asked c' t i ∈ log → c' = c

/-! ## Single notes -/

/-- The notes that change neither a content nor an entry. -/
def Note.Quiet : Note → Prop
  | asked _ _ _ | acquired _ _ _ | released _ _ _ | access (.get _ _ _ _ _)
  | access (.getattr _ _ _ _ _) => True
  | created _ _ _ | access (.put _ _ _ _ _) | access (.remove _ _ _) => False

section Single

variable {log : List Note} {n : Note} {c t : ℕ} {d e i : Inum} {ret : Extent.Status} {buf : Buf}

/-- A quiet note changes no content. -/
theorem content_quiet (hn : n.Quiet) (e : Inum) : content (n :: log) e = content log e := by
  rcases n with _ | _ | _ | _ | (_ | _ | _ | _) <;> first | rfl | exact hn.elim

/-- A quiet note moves no number. -/
theorem stage_quiet (hn : n.Quiet) (i : Inum) : stage (n :: log) i = stage log i := by
  rcases n with _ | _ | _ | _ | (_ | _ | _ | _) <;> first | rfl | exact hn.elim

/-- The content that was written. -/
theorem content_put_self : content (.access (.put c t e ret buf) :: log) e = some buf := if_pos rfl

/-- The content of any other extent. -/
theorem content_put_of_ne (h : i ≠ e) :
    content (.access (.put c t e ret buf) :: log) i = content log i := if_neg (Ne.symm h)

/-- A removed extent has no content. -/
theorem content_remove_self : content (.access (.remove c t e) :: log) e = none := if_pos rfl

/-- The content of any other extent. -/
theorem content_remove_of_ne (h : i ≠ e) :
    content (.access (.remove c t e) :: log) i = content log i := if_neg (Ne.symm h)

/-- A new extent is pending. -/
theorem stage_created_self : stage (.created c t e :: log) e = .pending c t := if_pos rfl

/-- A new extent moves no other number. -/
theorem stage_created_of_ne (h : i ≠ e) : stage (.created c t e :: log) i = stage log i :=
  if_neg (Ne.symm h)

/-- The numbers that a directory lists. -/
theorem stage_put_of_mem (h : i ∈ inums buf) :
    stage (.access (.put c t d ret buf) :: log) i = .listed d := if_pos h

/-- The numbers that a directory lists no more. -/
theorem stage_put_of_left (h : i ∉ inums buf) (hold : i ∈ listing log d) :
    stage (.access (.put c t d ret buf) :: log) i = .gone := (if_neg h).trans (if_pos hold)

/-- The numbers that a directory did not list and does not list. -/
theorem stage_put_of_notMem (h : i ∉ inums buf) (hold : i ∉ listing log d) :
    stage (.access (.put c t d ret buf) :: log) i = stage log i := (if_neg h).trans (if_neg hold)

/-- The entries of the directory that was written. -/
theorem listing_put_self : listing (.access (.put c t d ret buf) :: log) d = inums buf := by
  rw [listing, content_put_self, Option.getD_some]

/-- The entries of any other directory. -/
theorem listing_put_of_ne (h : e ≠ d) :
    listing (.access (.put c t d ret buf) :: log) e = listing log e := by
  rw [listing, content_put_of_ne h, listing]

/-- An extent without content has no entries. -/
theorem listing_of_none (h : content log d = none) : listing log d = [] := by
  rw [listing, h]
  rfl

/-- An extent that nobody has used has no creator. -/
theorem creator_of_unused (h : ∀ n ∈ log, n.number ≠ e) : creator log e = none := by
  induction log with
  | nil => rfl
  | cons n log ih =>
    have hn := h n List.mem_cons_self
    have hrest := ih fun m hm => h m (List.mem_cons_of_mem n hm)
    rw [creator, hrest]
    cases n with
    | created c t eid => exact if_neg hn
    | acquired c t lid => exact if_neg hn
    | asked c t lid | released c t lid | access a => rfl

end Single

/-! ## What a note does to a number -/

/-- What a note does to number `i`. -/
inductive Moves (log : List Note) (i : Inum) : Note → Stage → Stage → Prop where
  /-- Nothing. -/
  | stays {n : Note} {old : Stage} : Moves log i n old old
  /-- A thread starts to make its extent. -/
  | made {c t : ℕ} : Moves log i (.created c t i) .unused (.pending c t)
  /-- The thread that made the extent enters it in a directory. -/
  | enters {c t : ℕ} {d : Inum} {ret : Extent.Status} {buf : Buf} : i ∈ inums buf →
      content log i ≠ none → Moves log i (.access (.put c t d ret buf)) (.pending c t) (.listed d)
  /-- A thread takes its entry away. -/
  | leaves {c t : ℕ} {d : Inum} {ret : Extent.Status} {buf : Buf} : i ∉ inums buf →
      i ∈ listing log d → Moves log i (.access (.put c t d ret buf)) (.listed d) .gone

namespace LogInv

variable {log : List Note} {n : Note} {c t : ℕ} {d e i : Inum} {ret : Extent.Status} {buf : Buf}

/-- A number that nobody has used has no extent and no entry. -/
theorem stage_of_unused (h : LogInv log) (hunused : Unused log e) : stage log e = .unused := by
  by_contra hne
  obtain ⟨c, t, hmem⟩ := h.made e hne
  exact hunused.2 _ hmem rfl

/-- What a note does to a number. -/
theorem moves (h : LogInv log) (hok : NoteOk log n) (i : Inum) :
    Moves log i n (stage log i) (stage (n :: log) i) := by
  have hquiet : n.Quiet → Moves log i n (stage log i) (stage (n :: log) i) := by
    intro hn
    rw [stage_quiet hn]
    exact .stays
  rcases n with _ | _ | _ | ⟨c, t, e⟩ | (_ | _ | ⟨c, t, d, ret, buf⟩ | ⟨c, t, e⟩)
  case created =>
    by_cases hi : i = e
    · subst hi
      rw [stage_created_self, h.stage_of_unused hok]
      exact .made
    · rw [stage_created_of_ne hi]
      exact .stays
  case access.put =>
    by_cases hmem : i ∈ inums buf
    · rw [stage_put_of_mem hmem]
      rcases hok.2.2.2 i hmem with hold | ⟨hpending, hcontent⟩
      · rw [h.listed d i hold]
        exact .stays
      · rw [hpending]
        exact .enters hmem hcontent
    · by_cases hold : i ∈ listing log d
      · rw [stage_put_of_left hmem hold, h.listed d i hold]
        exact .leaves hmem hold
      · rw [stage_put_of_notMem hmem hold]
        exact .stays
  case access.remove => exact .stays
  all_goals exact hquiet trivial

/-! ## Every note keeps the invariant -/

/-- The extent of a number that is in use was made. -/
theorem made_cons (h : LogInv log) (hok : NoteOk log n) (i : Inum)
    (hused : stage (n :: log) i ≠ .unused) : ∃ c t, .created c t i ∈ n :: log := by
  by_cases hold : stage log i = .unused
  · have hmoves := h.moves hok i
    rw [hold] at hmoves
    generalize stage (n :: log) i = new at hmoves hused
    cases hmoves with
    | stays => exact absurd rfl hused
    | made => exact ⟨_, _, List.mem_cons_self⟩
  · obtain ⟨c, t, hmem⟩ := h.made i hold
    exact ⟨c, t, List.mem_cons_of_mem n hmem⟩

/-- Only the client that made an extent asks for its lock at first. -/
theorem askers_cons (h : LogInv log) (hok : NoteOk log n) (c : ℕ) (i : Inum)
    (hcreator : creator (n :: log) i = some c) (c' t : ℕ) (hmem : .asked c' t i ∈ n :: log) :
    c' = c := by
  cases n with
  | asked c₀ t₀ lid =>
    rcases List.mem_cons.mp hmem with heq | hmem
    · cases heq
      -- The note itself: the lock was free for all, or is for the client that made the extent.
      have hlog : creator log i = some c := hcreator
      rcases hok with hnone | hsome
      · cases hnone.symm.trans hlog
      · exact Option.some.inj (hsome.symm.trans hlog)
    · exact h.askers c i hcreator c' t hmem
  | acquired c₀ t₀ lid =>
    have hmem := List.mem_of_ne_of_mem Note.noConfusion hmem
    by_cases hlid : lid = i
    · cases (if_pos hlid).symm.trans hcreator
    · exact h.askers c i ((if_neg hlid).symm.trans hcreator) c' t hmem
  | created c₀ t₀ e =>
    have hmem := List.mem_of_ne_of_mem Note.noConfusion hmem
    by_cases he : e = i
    · subst he
      exact absurd rfl (hok.2 _ hmem)
    · exact h.askers c i ((if_neg he).symm.trans hcreator) c' t hmem
  | released c₀ t₀ lid | access a =>
    exact h.askers c i hcreator c' t (List.mem_of_ne_of_mem Note.noConfusion hmem)

/-- A note that changes no content and takes no entry away. -/
theorem same (h : LogInv log) (hok : NoteOk log n)
    (hcontent : ∀ e, content (n :: log) e = content log e)
    (hstage : ∀ d i, stage (n :: log) i = .listed d ↔ stage log i = .listed d) :
    LogInv (n :: log) where
  text d := by
    rw [hcontent]
    exact h.text d
  self d := by
    rw [listing, hcontent]
    exact h.self d
  nodup d := by
    rw [listing, hcontent]
    exact h.nodup d
  listed d i hi := by
    rw [listing, hcontent] at hi
    exact (hstage d i).mpr (h.listed d i hi)
  kept d i hi := by
    rw [hcontent]
    exact h.kept d i ((hstage d i).mp hi)
  made := h.made_cons hok
  askers := h.askers_cons hok

/-- A thread starts to make an extent. -/
theorem created (h : LogInv log) (hok : NoteOk log (.created c t e)) :
    LogInv (.created c t e :: log) := by
  refine h.same hok (fun _ => rfl) fun d i => ?_
  by_cases hi : i = e
  · subst hi
    rw [stage_created_self, h.stage_of_unused hok]
    simp
  · rw [stage_created_of_ne hi]

/-- A directory is written. -/
theorem put (h : LogInv log) (hok : NoteOk log (.access (.put c t d ret buf))) :
    LogInv (.access (.put c t d ret buf) :: log) where
  text d' := by
    by_cases hd : d' = d
    · subst hd
      rw [content_put_self]
      exact hok.1
    · rw [content_put_of_ne hd]
      exact h.text d'
  self d' := by
    by_cases hd : d' = d
    · subst hd
      rw [listing_put_self]
      exact hok.2.1
    · rw [listing_put_of_ne hd]
      exact h.self d'
  nodup d' := by
    by_cases hd : d' = d
    · subst hd
      rw [listing_put_self]
      exact hok.2.2.1
    · rw [listing_put_of_ne hd]
      exact h.nodup d'
  listed d' i hi := by
    by_cases hd : d' = d
    · subst hd
      rw [listing_put_self] at hi
      exact stage_put_of_mem hi
    · -- The entries of another directory are not concerned.
      rw [listing_put_of_ne hd] at hi
      have hmoves := h.moves hok i
      rw [h.listed d' i hi] at hmoves
      generalize stage (.access (.put c t d ret buf) :: log) i = new at hmoves
      cases hmoves with
      | stays => rfl
      | leaves => exact absurd rfl hd
  kept d' i hi := by
    have hold : content log i ≠ none := by
      have hmoves := h.moves hok i
      rw [hi] at hmoves
      generalize hstage : stage log i = old at hmoves
      cases hmoves with
      | stays => exact h.kept d' i hstage
      | enters hmem hcontent => exact hcontent
    by_cases hid : i = d
    · subst hid
      rw [content_put_self]
      exact Option.some_ne_none buf
    · rw [content_put_of_ne hid]
      exact hold
  made := h.made_cons hok
  askers := h.askers_cons hok

/-- An extent is removed. -/
theorem remove (h : LogInv log) (hok : NoteOk log (.access (.remove c t e))) :
    LogInv (.access (.remove c t e) :: log) := by
  have hgone : listing (.access (.remove c t e) :: log) e = [] :=
    listing_of_none content_remove_self
  have hrest : ∀ d, d ≠ e → listing (.access (.remove c t e) :: log) d = listing log d := by
    intro d hd
    rw [listing, content_remove_of_ne hd, listing]
  refine ⟨fun d => ?_, fun d => ?_, fun d => ?_, fun d i hi => ?_, fun d i hi => ?_,
    h.made_cons hok, h.askers_cons hok⟩
  · by_cases hd : d = e
    · subst hd
      rw [content_remove_self]
      exact isText_nil
    · rw [content_remove_of_ne hd]
      exact h.text d
  · by_cases hd : d = e
    · rw [hd, hgone]
      exact List.not_mem_nil
    · rw [hrest d hd]
      exact h.self d
  · by_cases hd : d = e
    · rw [hd, hgone]
      exact List.nodup_nil
    · rw [hrest d hd]
      exact h.nodup d
  · by_cases hd : d = e
    · rw [hd, hgone] at hi
      cases hi
    · rw [hrest d hd] at hi
      exact h.listed d i hi
  · -- A listed extent is not the one that is removed, which is gone.
    have hlisted : stage log i = .listed d := hi
    have hne : i ≠ e := by
      rintro rfl
      cases hlisted.symm.trans hok
    rw [content_remove_of_ne hne]
    exact h.kept d i hlisted

/-- There are no entries at the start. -/
protected theorem nil : LogInv [] := by
  have hempty : ∀ d, (content [] d).getD [] = [] := by
    intro d
    unfold content
    split_ifs <;> rfl
  have hlisting : ∀ d, listing [] d = [] := by
    intro d
    rw [listing, hempty]
    rfl
  refine ⟨fun d => ?_, fun d => ?_, fun d => ?_, fun d i hi => ?_, nofun, fun i hi => ?_, nofun⟩
  · rw [hempty]
    exact isText_nil
  · rw [hlisting]
    exact List.not_mem_nil
  · rw [hlisting]
    exact List.nodup_nil
  · rw [hlisting] at hi
    cases hi
  · exact absurd rfl hi

/-- Every note keeps the invariant. -/
theorem cons (h : LogInv log) (hok : NoteOk log n) : LogInv (n :: log) := by
  have hquiet : n.Quiet → LogInv (n :: log) := by
    intro hn
    refine h.same hok (content_quiet hn) fun d i => ?_
    rw [stage_quiet hn]
  rcases n with _ | _ | _ | _ | (_ | _ | _ | _)
  case created => exact h.created hok
  case access.put => exact h.put hok
  case access.remove => exact h.remove hok
  all_goals exact hquiet trivial

end LogInv

/-- The invariant holds of every log. -/
theorem LogOk.inv {log : List Note} (h : LogOk log) : LogInv log := by
  induction log with
  | nil => exact .nil
  | cons n log ih => exact (ih h.2).cons h.1

/-! ## No entry dangles -/

section Found

variable {log base : List Note} {c t : ℕ} {d i : Inum}

/-- What holds of all notes holds of the earlier ones. -/
theorem LogOk.of_append {later : List Note} (h : LogOk (later ++ log)) : LogOk log := by
  induction later with
  | nil => exact h
  | cons n later ih => exact ih h.2

/-- An entry stays listed until its directory is written without it. -/
theorem stage_listed_append {between : List Note} (hok : LogOk (between ++ base))
    (hlisted : stage base i = .listed d)
    (hputs : ∀ c t ret buf, .access (.put c t d ret buf) ∈ between → i ∈ inums buf) :
    stage (between ++ base) i = .listed d := by
  induction between with
  | nil => exact hlisted
  | cons n between ih =>
    obtain ⟨hnote, hrest⟩ : NoteOk (between ++ base) n ∧ LogOk (between ++ base) := hok
    have hbefore := ih hrest fun c t ret buf hmem => hputs c t ret buf (List.mem_cons_of_mem n hmem)
    have hmoves := hrest.inv.moves hnote i
    rw [hbefore] at hmoves
    rw [List.cons_append]
    generalize stage (n :: (between ++ base)) i = new at hmoves
    cases hmoves with
    | stays => rfl
    | leaves hnot => exact absurd (hputs _ _ _ _ List.mem_cons_self) hnot

/-- A thread that acquired the lock of a listed extent has it until it releases it. -/
theorem sure_append {held : List Note} (hsure : Sure base c t i)
    (hheld : .released c t i ∉ held) : Sure (held ++ base) c t i := by
  induction held with
  | nil => exact hsure
  | cons n held ih =>
    have hbefore := ih fun hmem => hheld (List.mem_cons_of_mem n hmem)
    cases n with
    | asked c' t' lid | created c' t' lid | access a => exact hbefore
    | acquired c' t' lid => exact Or.inr hbefore
    | released c' t' lid =>
      refine ⟨?_, hbefore⟩
      rintro ⟨rfl, rfl, rfl⟩
      exact hheld List.mem_cons_self

end Found

/-- No entry dangles. -/
theorem LogOk.noDangling {log : List Note} (h : LogOk log) : NoDangling log := by
  rintro later held between earlier c t c' t' d i ret ret' buf buf' rfl hi hputs hheld
  have hget := h.of_append
  have hacquired : LogOk (.acquired c t i :: _) := hget.2.of_append
  have hfound : LogOk (.access (.get c' t' d ret' buf') :: earlier) := hacquired.2.of_append
  -- The entry was listed when it was found, and still when the lock was acquired.
  have hlisting : i ∈ listing earlier d := by
    rw [hfound.1.1] at hi
    exact hi
  have hlisted := stage_listed_append hacquired.2 (hfound.2.inv.listed d i hlisting) hputs
  have hsure : Sure (.acquired c t i :: _) c t i := Or.inl ⟨rfl, rfl, rfl, d, hlisted⟩
  exact hget.1.2 (sure_append hsure hheld)

end SimpleDfs.Yfs
