import SimpleDfs.Base.System
import SimpleDfs.Paxos.Acceptor

/-!
# Replaying the log

The log is a sequence of records, of which `Record.chars` is the text. `logread` on the text of some
records replays them one by one (`logread_eq_replay`), whatever state it starts from, when their
names have no whitespace, their values no newline, and their instance numbers 32 bits.

`Agrees` is the relation between an acceptor and what a replay of its log gives: everything that the
acceptor acts on, but the name in a proposal number whose counter is `0`. The handlers keep it
(`Durable.handle`), so that the log of an acceptor always replays to its state (`log_replays`).
-/

namespace SimpleDfs.Paxos

open IStream

/-- A name that is one word. -/
def IsWord (m : String) : Prop := m ≠ "" ∧ NoSpace m

instance (m : String) : Decidable (IsWord m) := inferInstanceAs (Decidable (_ ∧ _))

/-- A record of the log. -/
inductive Record where
  /-- An instance was decided. -/
  | done (inst : ℕ) (v : String)
  /-- A proposal number was promised. -/
  | propseen (n : PropT)
  /-- A proposal was accepted. -/
  | accepted (n : PropT) (v : String)
  deriving DecidableEq, Repr

namespace Record

/-- The text of a record. -/
def chars : Record → List Char
  | done inst v => "done".toList ++ ' ' :: ((toString inst).toList ++ ' ' :: (v.toList ++ ['\n']))
  | propseen n => "propseen".toList ++ ' ' ::
      ((toString n.n.toNat).toList ++ ' ' :: (n.m.toList ++ ['\n']))
  | accepted n v => "accepted".toList ++ ' ' ::
      ((toString n.n.toNat).toList ++ ' ' :: (n.m.toList ++ ' ' :: (v.toList ++ ['\n'])))

/-- The text of a `done` record, followed by another text. -/
theorem chars_done_append (inst : ℕ) (v : String) (rest : List Char) :
    (done inst v).chars ++ rest =
      "done".toList ++ ' ' :: ((toString inst).toList ++ ' ' :: (v.toList ++ '\n' :: rest)) := by
  show ("done".toList ++ ' ' :: ((toString inst).toList ++ ' ' :: (v.toList ++ ['\n']))) ++ rest = _
  simp only [List.append_assoc, List.cons_append, List.nil_append]

/-- The text of a `propseen` record, followed by another text. -/
theorem chars_propseen_append (n : PropT) (rest : List Char) :
    (propseen n).chars ++ rest = "propseen".toList ++
      ' ' :: ((toString n.n.toNat).toList ++ ' ' :: (n.m.toList ++ '\n' :: rest)) := by
  show ("propseen".toList ++ ' ' ::
    ((toString n.n.toNat).toList ++ ' ' :: (n.m.toList ++ ['\n']))) ++ rest = _
  simp only [List.append_assoc, List.cons_append, List.nil_append]

/-- The text of an `accepted` record, followed by another text. -/
theorem chars_accepted_append (n : PropT) (v : String) (rest : List Char) :
    (accepted n v).chars ++ rest = "accepted".toList ++ ' ' :: ((toString n.n.toNat).toList ++
      ' ' :: (n.m.toList ++ ' ' :: (v.toList ++ '\n' :: rest))) := by
  show ("accepted".toList ++ ' ' :: ((toString n.n.toNat).toList ++ ' ' ::
    (n.m.toList ++ ' ' :: (v.toList ++ ['\n'])))) ++ rest = _
  simp only [List.append_assoc, List.cons_append, List.nil_append]

/-- A record is not empty. -/
theorem chars_ne_nil (r : Record) : r.chars ≠ [] := by
  intro h
  have hnil : r.chars ++ [] = [] := by rw [h, List.append_nil]
  cases r with
  | done inst v => rw [chars_done_append] at hnil; simp at hnil
  | propseen n => rw [chars_propseen_append] at hnil; simp at hnil
  | accepted n v => rw [chars_accepted_append] at hnil; simp at hnil

/-- The records that can be read back: names are words, values are lines, and instance numbers are
unsigned. -/
def WellFormed : Record → Prop
  | done inst v => inst < 2 ^ 32 ∧ OneLine v
  | propseen n => IsWord n.m
  | accepted n v => IsWord n.m ∧ OneLine v

instance : ∀ r, Decidable (WellFormed r)
  | done inst v => inferInstanceAs (Decidable (inst < 2 ^ 32 ∧ OneLine v))
  | propseen n => inferInstanceAs (Decidable (IsWord n.m))
  | accepted n v => inferInstanceAs (Decidable (IsWord n.m ∧ OneLine v))

/-- The effect of a record that is read back. -/
def replay (a : Acceptor) : Record → Acceptor
  | done inst v => { a with
      values := Function.update a.values inst v
      instance_h := inst
      v_a := ""
      n_h := { a.n_h with n := 0 }
      n_a := { a.n_a with n := 0 } }
  | propseen n => { a with n_h := n }
  | accepted n v => { a with n_a := n, v_a := v }

end Record

/-- The text of a log. -/
def logChars (rs : List Record) : List Char := rs.flatMap Record.chars

/-- The effect of a log. -/
def replayAll (rs : List Record) (a : Acceptor) : Acceptor := rs.foldl Record.replay a

/-- A replay does not write to the log. -/
theorem replayAll_log (rs : List Record) (a : Acceptor) : (replayAll rs a).log = a.log := by
  induction rs generalizing a with
  | nil => rfl
  | cons r rs ih =>
    rw [replayAll, List.foldl_cons]
    refine (ih (r.replay a)).trans ?_
    cases r <;> rfl

/-! ## The parser reads the records back -/

/-- A blank separates words. -/
theorem blank_isSpace : ∀ c ∈ [' '], isSpace c = true := by simp [isSpace]

/-- One record is read back, up to the newline that may be left for the next one to skip. -/
theorem logreadRecord_chars {r : Record} (hr : r.WellFormed) {ws : List Char}
    (hws : ∀ c ∈ ws, isSpace c = true) (rest : List Char) (i : UInt32) (a : Acceptor) :
    ∃ type src ws' i', readToken ⟨ws ++ r.chars ++ rest, true⟩ "" = (type, src) ∧
      src.good = true ∧ (∀ c ∈ ws', isSpace c = true) ∧
      Acceptor.logreadRecord type src i a = some (r.replay a, i', ⟨ws' ++ rest, true⟩) := by
  cases r with
  | done inst v =>
    obtain ⟨hi, hv⟩ := hr
    -- The number fits, so that nothing is lost when it is read as unsigned.
    have hinst : inst = (UInt32.ofNat inst).toNat := by
      rw [UInt32.toNat_ofNat', Nat.mod_eq_of_lt hi]
    have htext : ws ++ (Record.done inst v).chars ++ rest = ws ++ "done".toList ++
        ' ' :: ((toString inst).toList ++ ' ' :: (v.toList ++ '\n' :: rest)) := by
      rw [List.append_assoc, Record.chars_done_append, List.append_assoc]
    refine ⟨"done", _, [], UInt32.ofNat inst,
      htext ▸ readToken_append hws (by decide) (by decide) (by decide) _ _, rfl, by simp, ?_⟩
    have hnum := readUnsigned_append blank_isSpace (UInt32.ofNat inst) (c := ' ') (by decide)
      (v.toList ++ '\n' :: rest) i
    rw [← hinst, List.append_assoc, List.singleton_append] at hnum
    simp only [Acceptor.logreadRecord, if_true, hnum, IStream.get, getline_append hv, ← hinst]
    simp [Record.replay]
  | propseen n =>
    have htext : ws ++ (Record.propseen n).chars ++ rest = ws ++ "propseen".toList ++
        ' ' :: ((toString n.n.toNat).toList ++ ' ' :: (n.m.toList ++ '\n' :: rest)) := by
      rw [List.append_assoc, Record.chars_propseen_append, List.append_assoc]
    -- The name ends at the newline, which stays for the next record to skip.
    refine ⟨"propseen", _, ['\n'], i,
      htext ▸ readToken_append hws (by decide) (by decide) (by decide) _ _, rfl,
      by simp [isSpace], ?_⟩
    have hnum := readUnsigned_append blank_isSpace n.n (c := ' ') (by decide)
      (n.m.toList ++ '\n' :: rest) a.n_h.n
    rw [List.append_assoc, List.singleton_append] at hnum
    have hname := readToken_append blank_isSpace hr.1 hr.2 (c := '\n') (by decide) rest a.n_h.m
    rw [List.append_assoc, List.singleton_append] at hname
    have htype : ¬ "propseen" = "done" := by decide
    simp only [Acceptor.logreadRecord, if_neg htype, if_true, hnum, hname]
    simp [Record.replay]
  | accepted n v =>
    obtain ⟨hm, hv⟩ := hr
    have htext : ws ++ (Record.accepted n v).chars ++ rest = ws ++ "accepted".toList ++
        ' ' :: ((toString n.n.toNat).toList ++ ' ' ::
          (n.m.toList ++ ' ' :: (v.toList ++ '\n' :: rest))) := by
      rw [List.append_assoc, Record.chars_accepted_append, List.append_assoc]
    refine ⟨"accepted", _, [], i,
      htext ▸ readToken_append hws (by decide) (by decide) (by decide) _ _, rfl, by simp, ?_⟩
    have hnum := readUnsigned_append blank_isSpace n.n (c := ' ') (by decide)
      (n.m.toList ++ ' ' :: (v.toList ++ '\n' :: rest)) a.n_a.n
    rw [List.append_assoc, List.singleton_append] at hnum
    have hname := readToken_append blank_isSpace hm.1 hm.2 (c := ' ') (by decide)
      (v.toList ++ '\n' :: rest) a.n_a.m
    rw [List.append_assoc, List.singleton_append] at hname
    have htype : ¬ "accepted" = "done" := by decide
    have htype' : ¬ "accepted" = "propseen" := by decide
    simp only [Acceptor.logreadRecord, if_neg htype, if_neg htype', if_true, hnum, hname,
      IStream.get, getline_append hv]
    simp [Record.replay]

/-- The loop of `logread` replays the records of a well-formed log. -/
theorem logreadLoop_chars {rs : List Record} (hrs : ∀ r ∈ rs, r.WellFormed) {ws : List Char}
    (hws : ∀ c ∈ ws, isSpace c = true) {fuel : ℕ} (hfuel : rs.length < fuel) (i : UInt32)
    (a : Acceptor) :
    Acceptor.logreadLoop fuel ⟨ws ++ logChars rs, true⟩ i a = some (replayAll rs a) := by
  -- The induction is over the records, with the whitespace that the last one left.
  induction rs generalizing ws fuel i a with
  | nil =>
    obtain ⟨k, rfl⟩ := Nat.exists_eq_succ_of_ne_zero (by omega : fuel ≠ 0)
    have hskip : ws.dropWhile isSpace = [] := List.dropWhile_eq_nil_iff.mpr hws
    simp [Acceptor.logreadLoop, readToken, logChars, replayAll, hskip]
  | cons r rs ih =>
    obtain ⟨k, rfl⟩ := Nat.exists_eq_succ_of_ne_zero (by omega : fuel ≠ 0)
    obtain ⟨hr, hrs'⟩ := List.forall_mem_cons.mp hrs
    obtain ⟨type, src, ws', i', htok, hgood, hws', hrec⟩ :=
      logreadRecord_chars hr hws (logChars rs) i a
    have htext : ws ++ logChars (r :: rs) = ws ++ r.chars ++ logChars rs := by
      simp [logChars]
    rw [htext, Acceptor.logreadLoop, htok]
    simp only [hgood, if_true, hrec, Option.bind_some]
    rw [List.length_cons] at hfuel
    exact ih hrs' hws' (by omega) i' (r.replay a)

/-- A text has at least one character for each record. -/
theorem length_le_length_logChars (rs : List Record) : rs.length ≤ (logChars rs).length := by
  induction rs with
  | nil => exact le_rfl
  | cons r rs ih =>
    have hpos : 0 < r.chars.length := List.length_pos_of_ne_nil r.chars_ne_nil
    simp only [logChars, List.flatMap_cons, List.length_append, List.length_cons] at ih ⊢
    omega

/-- `logread` replays the records of a well-formed log, on top of any state. -/
theorem logread_eq_replay {rs : List Record} (hrs : ∀ r ∈ rs, r.WellFormed) {a : Acceptor}
    (hlog : a.log.toList = logChars rs) : a.logread = some (replayAll rs a) := by
  have hlen : rs.length < a.log.length + 1 := by
    have := length_le_length_logChars rs
    rw [← hlog, String.length_toList] at this
    omega
  have hloop := logreadLoop_chars hrs (List.forall_mem_nil (isSpace · = true)) hlen 0 a
  rwa [List.nil_append, ← hlog] at hloop

/-! ## The handlers append what they did -/

/-- What a replay gives back of an acceptor: all of it, but the name in a number whose counter is
`0`. -/
structure Agrees (a b : Acceptor) : Prop where
  /-- The name is the same. -/
  me : b.me = a.me
  /-- The highest instance decided is the same. -/
  instance_h : b.instance_h = a.instance_h
  /-- The values are the same. -/
  values : b.values = a.values
  /-- The value accepted is the same. -/
  v_a : b.v_a = a.v_a
  /-- The counter promised is the same. -/
  n_h : b.n_h.n = a.n_h.n
  /-- The counter accepted is the same. -/
  n_a : b.n_a.n = a.n_a.n
  /-- The name promised is the same, when there is a promise. -/
  n_h_m : a.n_h.n ≠ 0 → b.n_h.m = a.n_h.m
  /-- The name accepted is the same, when something was accepted. -/
  n_a_m : a.n_a.n ≠ 0 → b.n_a.m = a.n_a.m

/-- The log of `a` is well formed, and replays to `a` from the state that the constructor starts
from. -/
def Logged (a : Acceptor) : Prop :=
  ∃ rs, (∀ r ∈ rs, r.WellFormed) ∧ a.log.toList = logChars rs ∧
    ∀ text, Agrees a (replayAll rs (Acceptor.fresh a.me text))

/-- A step that appends one record, whose replay has the effect of the step, keeps `Logged`. -/
theorem Logged.append {a a' : Acceptor} (ha : Logged a) {r : Record} (hr : r.WellFormed)
    (hlog : a'.log.toList = a.log.toList ++ r.chars) (hme : a'.me = a.me)
    (heffect : ∀ b, Agrees a b → Agrees a' (r.replay b)) : Logged a' := by
  obtain ⟨rs, hrs, htext, hrep⟩ := ha
  refine ⟨rs ++ [r], ?_, ?_, fun text => ?_⟩
  · exact List.forall_mem_append.mpr ⟨hrs, List.forall_mem_singleton.mpr hr⟩
  · rw [hlog, htext, logChars, logChars, List.flatMap_append, List.flatMap_singleton]
  · rw [hme, replayAll, List.foldl_append]
    exact heffect _ (hrep text)

/-- `loginstance` appends a `done` record. -/
theorem log_loginstance (a : Acceptor) (inst : ℕ) (v : String) :
    (a.loginstance inst v).log.toList = a.log.toList ++ (Record.done inst v).chars := by
  rw [← List.append_nil (Record.chars _), Record.chars_done_append]
  simp [Acceptor.loginstance, String.toList_append]

/-- `logprop` appends a `propseen` record. -/
theorem log_logprop (a : Acceptor) (n : PropT) :
    (a.logprop n).log.toList = a.log.toList ++ (Record.propseen n).chars := by
  rw [← List.append_nil (Record.chars _), Record.chars_propseen_append]
  simp [Acceptor.logprop, String.toList_append]

/-- `logaccept` appends an `accepted` record. -/
theorem log_logaccept (a : Acceptor) (n : PropT) (v : String) :
    (a.logaccept n v).log.toList = a.log.toList ++ (Record.accepted n v).chars := by
  rw [← List.append_nil (Record.chars _), Record.chars_accepted_append]
  simp [Acceptor.logaccept, String.toList_append]

/-- `preparereq` keeps `Logged`. -/
theorem Logged.preparereq {a : Acceptor} (ha : Logged a) {arg : PrepareArg}
    (hm : IsWord arg.n.m) : Logged (a.preparereq arg).1 := by
  unfold Acceptor.preparereq
  split_ifs with hold hgt
  · exact ha
  · refine ha.append (r := .propseen arg.n) hm (log_logprop _ _) rfl fun b hb => ?_
    exact { hb with n_h := rfl, n_h_m := fun _ => rfl }
  · exact ha

/-- `acceptreq` keeps `Logged`. -/
theorem Logged.acceptreq {a : Acceptor} (ha : Logged a) {arg : AcceptArg} (hm : IsWord arg.n.m)
    (hv : OneLine arg.v) : Logged (a.acceptreq arg).1 := by
  unfold Acceptor.acceptreq
  split_ifs with hge
  · refine ha.append (r := .accepted arg.n arg.v) ⟨hm, hv⟩ (log_logaccept _ _ _) rfl fun b hb => ?_
    exact { hb with v_a := rfl, n_a := rfl, n_a_m := fun _ => rfl }
  · exact ha

/-- `commit_wo` keeps `Logged`. -/
theorem Logged.commitWo {a : Acceptor} (ha : Logged a) {inst : ℕ} {value : String}
    (hi : inst < 2 ^ 32) (hv : OneLine value) : Logged (a.commitWo inst value) := by
  unfold Acceptor.commitWo
  split_ifs with hnew
  · refine ha.append (r := .done inst value) ⟨hi, hv⟩ (log_loginstance _ _ _) rfl fun b hb => ?_
    -- The replay leaves the names of the two numbers alone, where `commit_wo` resets them to `me`.
    refine ⟨hb.me, rfl, ?_, rfl, rfl, rfl, fun h => absurd rfl h, fun h => absurd rfl h⟩
    show Function.update b.values inst value = Function.update a.values inst value
    rw [hb.values]
  · exact ha

/-- `decidereq` keeps `Logged`. -/
theorem Logged.decidereq {a a' : Acceptor} (ha : Logged a) {arg : DecideArg}
    (hi : arg.inst < 2 ^ 32) (hv : OneLine arg.v) (h : a.decidereq arg = some a') : Logged a' := by
  unfold Acceptor.decidereq at h
  split_ifs at h with hnext hval hold
  · rw [← Option.some.inj h, hval]
    exact ha.commitWo hi hv
  · rw [← Option.some.inj h]
    exact ha

/-! ## Every acceptor -/

/-- Two replays of one acceptor agree. -/
theorem Agrees.of_common {a b c : Acceptor} (hb : Agrees a b) (hc : Agrees a c) : Agrees b c where
  me := hc.me.trans hb.me.symm
  instance_h := hc.instance_h.trans hb.instance_h.symm
  values := hc.values.trans hb.values.symm
  v_a := hc.v_a.trans hb.v_a.symm
  n_h := hc.n_h.trans hb.n_h.symm
  n_a := hc.n_a.trans hb.n_a.symm
  n_h_m h := (hc.n_h_m (hb.n_h ▸ h)).trans (hb.n_h_m (hb.n_h ▸ h)).symm
  n_a_m h := (hc.n_a_m (hb.n_a ▸ h)).trans (hb.n_a_m (hb.n_a ▸ h)).symm

/-- `logread` on the log of an acceptor, from the state that the constructor starts from, gives the
acceptor back. -/
theorem Logged.logread {a : Acceptor} (ha : Logged a) :
    ∃ b, (Acceptor.fresh a.me a.log).logread = some b ∧ Agrees a b ∧ Logged b := by
  obtain ⟨rs, hrs, htext, hrep⟩ := ha
  refine ⟨_, logread_eq_replay hrs htext, hrep a.log, rs, hrs, ?_, fun text => ?_⟩
  · rw [replayAll_log]
    exact htext
  · rw [(hrep a.log).me]
    exact (hrep a.log).of_common (hrep text)

/-- An acceptor that was never started, and has no log file. -/
theorem logged_fresh (me : String) : Logged (Acceptor.fresh me "") :=
  ⟨[], by simp, rfl, fun _ => ⟨rfl, rfl, rfl, rfl, rfl, rfl, fun _ => rfl, fun _ => rfl⟩⟩

/-- What an acceptor handles: the three requests, the commit that the local proposer asks for, and a
restart of its process. -/
inductive Op where
  /-- `preparereq`. -/
  | prepare (arg : PrepareArg)
  /-- `acceptreq`. -/
  | accept (arg : AcceptArg)
  /-- `decidereq`. -/
  | decide (arg : DecideArg)
  /-- `commit`. -/
  | commit (inst : ℕ) (value : String)
  /-- The process is started again on the log file that it left. -/
  | restart

/-- Names in requests are words, values are lines and instance numbers are unsigned. -/
def Op.WellFormed : Op → Prop
  | prepare arg => IsWord arg.n.m
  | accept arg => IsWord arg.n.m ∧ OneLine arg.v
  | decide arg => arg.inst < 2 ^ 32 ∧ OneLine arg.v
  | commit inst value => inst < 2 ^ 32 ∧ OneLine value
  | restart => True

instance : ∀ op, Decidable (Op.WellFormed op)
  | .prepare arg => inferInstanceAs (Decidable (IsWord arg.n.m))
  | .accept arg => inferInstanceAs (Decidable (IsWord arg.n.m ∧ OneLine arg.v))
  | .decide arg => inferInstanceAs (Decidable (arg.inst < 2 ^ 32 ∧ OneLine arg.v))
  | .commit inst value => inferInstanceAs (Decidable (inst < 2 ^ 32 ∧ OneLine value))
  | .restart => inferInstanceAs (Decidable True)

/-- The acceptor after an operation. It has none when a `VERIFY` fails. -/
def Acceptor.handle (first : Bool) (value : String) (a : Acceptor) : Op → Option Acceptor
  | .prepare arg => some (a.preparereq arg).1
  | .accept arg => some (a.acceptreq arg).1
  | .decide arg => a.decidereq arg
  | .commit inst v => some (a.commit inst v)
  | .restart => construct first a.me value a.log

/-- The acceptor of a node, from its first start on. -/
def acceptorSystem (first : Bool) (me value : String) : System Acceptor Op where
  init a := Acceptor.construct first me value "" = some a
  step := Acceptor.handle first value

/-- The runs of an acceptor whose requests are well formed. -/
def WellFormedOps (_ : Acceptor) (op : Op) : Prop := op.WellFormed

instance (a : Acceptor) (op : Op) : Decidable (WellFormedOps a op) :=
  inferInstanceAs (Decidable op.WellFormed)

/-- The invariant of an acceptor's runs. -/
structure Durable (first : Bool) (me : String) (a : Acceptor) : Prop where
  /-- The name does not change. -/
  me : a.me = me
  /-- The log replays to the state. -/
  logged : Logged a
  /-- The first node has the first view. -/
  first : first = true → 1 ≤ a.instance_h

/-- The constructor establishes the invariant on an empty log. -/
theorem Durable.of_init {first : Bool} {me value : String} (hv : OneLine value) {a : Acceptor}
    (h : Acceptor.construct first me value "" = some a) : Durable first me a := by
  obtain ⟨b, hb, hagree, hlogged⟩ := (logged_fresh me).logread
  have hread : (Acceptor.fresh me "").logread = some b := hb
  simp only [Acceptor.construct, hread, Option.map_some, Option.some.injEq] at h
  subst h
  have hzero : b.instance_h = 0 := hagree.instance_h
  cases first with
  | false =>
    rw [if_neg (by simp)]
    exact ⟨hagree.me, hlogged, by simp⟩
  | true =>
    -- The first node logs the first view; nothing was promised or accepted before it.
    rw [if_pos ⟨hzero, rfl⟩]
    refine ⟨hagree.me, ?_, fun _ => le_rfl⟩
    refine hlogged.append (r := .done 1 value) ⟨by decide, hv⟩ (log_loginstance _ _ _) rfl ?_
    intro c hc
    have hn_h : b.n_h.n = 0 := hagree.n_h
    have hn_a : b.n_a.n = 0 := hagree.n_a
    refine ⟨hc.me, rfl, ?_, hagree.v_a.symm, hn_h.symm, hn_a.symm, ?_, ?_⟩
    · show Function.update c.values 1 value = Function.update b.values 1 value
      rw [hc.values]
    · exact fun h => absurd hn_h h
    · exact fun h => absurd hn_a h

/-- Every operation keeps the invariant. -/
theorem Durable.handle {first : Bool} {me value : String} {a a' : Acceptor} {op : Op}
    (ha : Durable first me a) (hop : op.WellFormed) (h : a.handle first value op = some a') :
    Durable first me a' := by
  cases op with
  | prepare arg =>
    obtain rfl := Option.some.inj h
    obtain ⟨hme, hinst, -⟩ := frame_preparereq a arg
    exact ⟨hme.trans ha.me, ha.logged.preparereq hop, hinst ▸ ha.first⟩
  | accept arg =>
    obtain rfl := Option.some.inj h
    obtain ⟨hme, hinst, -⟩ := frame_acceptreq a arg
    exact ⟨hme.trans ha.me, ha.logged.acceptreq hop.1 hop.2, hinst ▸ ha.first⟩
  | decide arg =>
    have hlogged := ha.logged.decidereq hop.1 hop.2 h
    simp only [Acceptor.handle, Acceptor.decidereq] at h
    split_ifs at h
    · obtain rfl := Option.some.inj h
      exact ⟨(me_commitWo a _ _).trans ha.me, hlogged,
        fun hf => (ha.first hf).trans (instance_h_le_commitWo a _ _)⟩
    · obtain rfl := Option.some.inj h
      exact ⟨ha.me, hlogged, ha.first⟩
  | commit inst v =>
    obtain rfl := Option.some.inj h
    exact ⟨(me_commitWo a _ _).trans ha.me, ha.logged.commitWo hop.1 hop.2,
      fun hf => (ha.first hf).trans (instance_h_le_commitWo a _ _)⟩
  | restart =>
    obtain ⟨b, hb, hagree, hlogged⟩ := ha.logged.logread
    simp only [Acceptor.handle, Acceptor.construct, hb, Option.map_some, Option.some.injEq] at h
    -- A first node already has the first view in its log, so the constructor does not add it.
    have hno : ¬ (b.instance_h = 0 ∧ first = true) := by
      rintro ⟨hzero, hf⟩
      have := ha.first hf
      rw [← hagree.instance_h] at this
      omega
    rw [if_neg hno] at h
    subst h
    exact ⟨hagree.me.trans ha.me, hlogged, hagree.instance_h ▸ ha.first⟩

/-- Whatever an acceptor handled, and however often it was restarted, its log replays to its state
from the state that the constructor starts from. -/
theorem log_replays {first : Bool} {me value : String} (hv : OneLine value) {a : Acceptor}
    (h : (acceptorSystem first me value).Reachable WellFormedOps a) :
    ∃ b, (Acceptor.fresh me a.log).logread = some b ∧ Agrees a b := by
  have hinv : Durable first me a :=
    h.invariant (I := Durable first me) (fun _ hinit => Durable.of_init hv hinit)
      fun _ _ _ ha hop hstep => ha.handle hop hstep
  obtain ⟨b, hb, hagree, -⟩ := hinv.logged.logread
  exact ⟨b, hinv.me ▸ hb, hagree⟩

/-- A first node that promised and accepted a proposal for the second view, and was restarted. -/
theorem restarted_log_replays : ∃ a,
    (acceptorSystem true "1" "1 ").Reachable WellFormedOps a ∧ a.v_a = "1 2 " ∧
      ∃ b, (Acceptor.fresh "1" a.log).logread = some b ∧ Agrees a b := by
  have hrun : ((Acceptor.construct true "1" "1 " "").bind fun a =>
      (acceptorSystem true "1" "1 ").execGuarded WellFormedOps a
        [.prepare ⟨2, ⟨1, "1"⟩⟩, .accept ⟨2, ⟨1, "1"⟩, "1 2 "⟩, .restart]).map (·.v_a) =
      some "1 2 " := by decide
  obtain ⟨a, hbind, hv⟩ := Option.map_eq_some_iff.mp hrun
  obtain ⟨a₀, hinit, hexec⟩ := Option.bind_eq_some_iff.mp hbind
  have hreach := System.Reachable.of_execGuarded hexec hinit
  exact ⟨a, hreach, hv, log_replays (by decide) hreach⟩

end SimpleDfs.Paxos
