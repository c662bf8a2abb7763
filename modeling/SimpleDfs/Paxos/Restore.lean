import Mathlib.Data.List.Induction
import SimpleDfs.Paxos.Replay

/-!
# Rejoining with another node's log

A node that joins overwrites its log with the `dump` of another node and replays it on top of its
own state (`acceptor::restore`, called by `rsm::join` through `config::restore`). `digest` is what
the replay of a log leaves of it: the last instance decided and, after that, the last promise and
the last proposal accepted. The state after a replay is given by the digest and the `done` records
(`replayed_digest`, `replayAll_values`).

`never_forgets_iff` says exactly when the state before is not forgotten. It is not enough that the
two logs are those of nodes that ran the protocol: a node that is ahead, or that promised or
accepted something in the open instance that the other one did not, forgets it.
-/

namespace SimpleDfs.Paxos

open IStream

/-! ## The logs of the nodes -/

/-- The instance of a `done` record. -/
def Record.doneInst : Record → Option ℕ
  | done inst _ => some inst
  | _ => none

/-- The shape of the logs that nodes write: well-formed records that decide one instance after the
other. -/
structure IsLog (rs : List Record) : Prop where
  /-- The records can be read back. -/
  wellFormed : ∀ r ∈ rs, r.WellFormed
  /-- The instances decided ascend. -/
  ascending : (rs.filterMap Record.doneInst).Pairwise (· < ·)
  /-- The first instance is `1`. -/
  positive : ∀ inst ∈ rs.filterMap Record.doneInst, 1 ≤ inst

variable {rs : List Record} {a a' : Acceptor} {inst : ℕ} {first : Bool} {v : String}

/-- A `done` record is one of the instances decided. -/
theorem mem_doneInst (h : Record.done inst v ∈ rs) :
    inst ∈ rs.filterMap Record.doneInst :=
  List.mem_filterMap.mpr ⟨_, h, rfl⟩

/-- A replay ends with an `instance_h` that no instance decided in the log exceeds. -/
theorem doneInst_le_instance_h (hasc : (rs.filterMap Record.doneInst).Pairwise (· < ·))
    (a : Acceptor) :
    ∀ inst ∈ rs.filterMap Record.doneInst, inst ≤ (replayAll rs a).instance_h := by
  induction rs using List.reverseRecOn with
  | nil => simp
  | append_singleton rs r ih =>
    rw [List.filterMap_append, List.pairwise_append] at hasc
    obtain ⟨hrs, -, hlast⟩ := hasc
    rw [replayAll, List.foldl_append, List.filterMap_append]
    cases r with
    | done k v =>
      intro inst hinst
      show inst ≤ k
      rcases List.mem_append.mp hinst with h | h
      · exact le_of_lt (hlast inst h k (by simp [Record.doneInst]))
      · simp only [Record.doneInst, List.filterMap_cons, List.filterMap_nil,
          List.mem_singleton] at h
        exact le_of_eq h
    | propseen n =>
      rw [show [Record.propseen n].filterMap Record.doneInst = [] from rfl, List.append_nil]
      exact ih hrs
    | accepted n v =>
      rw [show [Record.accepted n v].filterMap Record.doneInst = [] from rfl, List.append_nil]
      exact ih hrs

/-- The log of `a` is a log, of instances up to `instance_h`. -/
def HasLog (a : Acceptor) : Prop :=
  ∃ rs, IsLog rs ∧ a.log.toList = logChars rs ∧
    ∀ inst ∈ rs.filterMap Record.doneInst, inst ≤ a.instance_h

/-- A state that a log was replayed into, and that keeps this log. -/
theorem HasLog.of_replay (hrs : IsLog rs) {a : Acceptor} (htext : a.log.toList = logChars rs) :
    HasLog (replayAll rs a) :=
  ⟨rs, hrs, by rw [replayAll_log, htext], doneInst_le_instance_h hrs.ascending a⟩

/-- A step that appends a record of no instance keeps `HasLog`. -/
theorem HasLog.append (ha : HasLog a) {r : Record} (hr : r.WellFormed) (hnone : r.doneInst = none)
    (hlog : a'.log.toList = a.log.toList ++ r.chars) (hinst : a'.instance_h = a.instance_h) :
    HasLog a' := by
  obtain ⟨rs, hrs, htext, hle⟩ := ha
  have hdone : (rs ++ [r]).filterMap Record.doneInst = rs.filterMap Record.doneInst := by
    rw [List.filterMap_append]
    simp [hnone]
  refine ⟨rs ++ [r], ⟨?_, hdone ▸ hrs.ascending, hdone ▸ hrs.positive⟩, ?_, ?_⟩
  · exact List.forall_mem_append.mpr ⟨hrs.wellFormed, List.forall_mem_singleton.mpr hr⟩
  · rw [hlog, htext, logChars, logChars, List.flatMap_append, List.flatMap_singleton]
  · rw [hdone, hinst]
    exact hle

/-- A step that decides a later instance keeps `HasLog`. -/
theorem HasLog.done (ha : HasLog a) (hwf : (Record.done inst v).WellFormed)
    (hnew : a.instance_h < inst) (hlog : a'.log.toList = a.log.toList ++ (Record.done inst v).chars)
    (hinst : a'.instance_h = inst) : HasLog a' := by
  obtain ⟨rs, hrs, htext, hle⟩ := ha
  have hdone : (rs ++ [Record.done inst v]).filterMap Record.doneInst =
      rs.filterMap Record.doneInst ++ [inst] := by
    rw [List.filterMap_append]
    rfl
  refine ⟨rs ++ [.done inst v], ⟨?_, ?_, ?_⟩, ?_, ?_⟩
  · exact List.forall_mem_append.mpr ⟨hrs.wellFormed, List.forall_mem_singleton.mpr hwf⟩
  · -- The new instance is above all that were logged, since it is above `instance_h`.
    rw [hdone, List.pairwise_append]
    refine ⟨hrs.ascending, List.pairwise_singleton _ _, fun i hi j hj => ?_⟩
    have := hle i hi
    have := List.mem_singleton.mp hj
    omega
  · intro i hi
    rw [hdone, List.mem_append] at hi
    rcases hi with h | h
    · exact hrs.positive i h
    · have := List.mem_singleton.mp h
      omega
  · rw [hlog, htext, logChars, logChars, List.flatMap_append, List.flatMap_singleton]
  · intro i hi
    rw [hdone, List.mem_append] at hi
    rcases hi with h | h
    · have := hle i h
      omega
    · have := List.mem_singleton.mp h
      omega

/-- `commit_wo` keeps `HasLog`. -/
theorem HasLog.commitWo {a : Acceptor} (ha : HasLog a) {value : String} (hi : inst < 2 ^ 32)
    (hv : OneLine value) : HasLog (a.commitWo inst value) := by
  unfold Acceptor.commitWo
  split_ifs with hnew
  · exact ha.done ⟨hi, hv⟩ hnew (log_loginstance _ _ _) rfl
  · exact ha

/-- The constructor on a log that a node left. -/
theorem HasLog.construct (ha : HasLog a) {me value : String} (hv : OneLine value)
    (h : Acceptor.construct first me value a.log = some a') : HasLog a' := by
  obtain ⟨rs, hrs, htext, -⟩ := ha
  have hread : (Acceptor.fresh me a.log).logread = some (replayAll rs (.fresh me a.log)) :=
    logread_eq_replay hrs.wellFormed htext
  have hlog : HasLog (replayAll rs (.fresh me a.log)) := HasLog.of_replay hrs htext
  simp only [Acceptor.construct, hread, Option.map_some, Option.some.injEq] at h
  split_ifs at h with hfirst
  · rw [← h]
    exact hlog.done ⟨by decide, hv⟩ (by omega) (log_loginstance _ _ _) rfl
  · rwa [← h]

/-- What a node handles keeps `HasLog`. -/
theorem HasLog.handle (ha : HasLog a) {value : String} (hv : OneLine value) {op : Op}
    (hop : op.WellFormed) (h : a.handle first value op = some a') : HasLog a' := by
  cases op with
  | prepare arg =>
    obtain rfl := Option.some.inj h
    unfold Acceptor.preparereq
    split_ifs
    · exact ha
    · exact ha.append (r := .propseen arg.n) hop rfl (log_logprop _ _) rfl
    · exact ha
  | accept arg =>
    obtain rfl := Option.some.inj h
    unfold Acceptor.acceptreq
    split_ifs
    · exact ha.append (r := .accepted arg.n arg.v) hop rfl (log_logaccept _ _ _) rfl
    · exact ha
  | decide arg =>
    simp only [Acceptor.handle, Acceptor.decidereq] at h
    split_ifs at h with hnext hval hold
    · rw [← Option.some.inj h, hval]
      exact ha.commitWo hop.1 hop.2
    · rwa [← Option.some.inj h]
  | commit inst v =>
    obtain rfl := Option.some.inj h
    exact ha.commitWo hop.1 hop.2
  | restart => exact ha.construct hv h

/-! ## A dump is the log -/

/-- A decimal number is on one line. -/
theorem oneLine_toString (n : ℕ) : OneLine (toString n) := by
  intro h
  rw [Nat.toString_eq_repr, Nat.toList_repr] at h
  have hdigit := Nat.isDigit_of_mem_toDigits (by decide) (by decide) h
  revert hdigit
  decide

/-- Texts of one line make a line together. -/
theorem oneLine_append {s t : String} (hs : OneLine s) (ht : OneLine t) : OneLine (s ++ t) := by
  intro h
  rw [String.toList_append, List.mem_append] at h
  exact h.elim hs ht

/-- A word is on one line. -/
theorem IsWord.oneLine {m : String} (h : IsWord m) : OneLine m := by
  intro hm
  have := h.2 _ hm
  revert this
  decide

/-- A record is one line of the log. -/
theorem Record.exists_line {r : Record} (hr : r.WellFormed) :
    ∃ line : String, OneLine line ∧ r.chars = line.toList ++ ['\n'] := by
  cases r with
  | done inst v =>
    refine ⟨"done" ++ " " ++ toString inst ++ " " ++ v, ?_, ?_⟩
    · exact oneLine_append (oneLine_append (oneLine_append (by decide) (oneLine_toString inst))
        (by decide)) hr.2
    · rw [← List.append_nil (Record.chars _), Record.chars_done_append]
      simp [String.toList_append]
  | propseen n =>
    refine ⟨"propseen" ++ " " ++ toString n.n.toNat ++ " " ++ n.m, ?_, ?_⟩
    · exact oneLine_append (oneLine_append (oneLine_append (by decide) (oneLine_toString _))
        (by decide)) (IsWord.oneLine hr)
    · rw [← List.append_nil (Record.chars _), Record.chars_propseen_append]
      simp [String.toList_append]
  | accepted n v =>
    refine ⟨"accepted" ++ " " ++ toString n.n.toNat ++ " " ++ n.m ++ " " ++ v, ?_, ?_⟩
    · exact oneLine_append (oneLine_append (oneLine_append (oneLine_append (oneLine_append
        (by decide) (oneLine_toString _)) (by decide)) (IsWord.oneLine hr.1)) (by decide)) hr.2
    · rw [← List.append_nil (Record.chars _), Record.chars_accepted_append]
      simp [String.toList_append]

/-- The loop of `dump` collects the lines of a well-formed log. -/
theorem dumpLoop_chars (hrs : ∀ r ∈ rs, r.WellFormed) {fuel : ℕ} (hfuel : rs.length < fuel)
    (res : String) :
    (Acceptor.dumpLoop fuel ⟨logChars rs, true⟩ res).toList = res.toList ++ logChars rs := by
  induction rs generalizing fuel res with
  | nil =>
    -- The loop ends when `getline` fails at the end of the text.
    obtain ⟨k, rfl⟩ := Nat.exists_eq_succ_of_ne_zero (by omega : fuel ≠ 0)
    simp [Acceptor.dumpLoop, getline, logChars]
  | cons r rs ih =>
    obtain ⟨k, rfl⟩ := Nat.exists_eq_succ_of_ne_zero (by omega : fuel ≠ 0)
    obtain ⟨hr, hrs'⟩ := List.forall_mem_cons.mp hrs
    obtain ⟨line, hline, hchars⟩ := Record.exists_line hr
    have htext : logChars (r :: rs) = line.toList ++ '\n' :: logChars rs := by
      rw [logChars, List.flatMap_cons, hchars, List.append_assoc, List.singleton_append, logChars]
    rw [List.length_cons] at hfuel
    rw [htext, Acceptor.dumpLoop, getline_append hline]
    simp only [if_true]
    rw [ih hrs' (by omega)]
    simp [String.toList_append]

/-- `dump` gives the log of a node. -/
theorem HasLog.dump_eq {a : Acceptor} (ha : HasLog a) : a.dump = a.log := by
  obtain ⟨rs, hrs, htext, -⟩ := ha
  have hlen : rs.length < a.log.length + 1 := by
    have := length_le_length_logChars rs
    rw [← htext, String.length_toList] at this
    omega
  have hloop := dumpLoop_chars hrs.wellFormed hlen ""
  rw [← htext] at hloop
  exact String.toList_inj.mp hloop

/-! ## The acceptors of a cluster whose nodes rejoin -/

/-- The acceptors that nodes reach: from the first start, through what a node handles, and through
a rejoin with the log of another one. -/
inductive Reached : Acceptor → Prop
  /-- A node starts without a log. -/
  | start {first : Bool} {me value : String} {a : Acceptor} (hv : OneLine value)
      (h : Acceptor.construct first me value "" = some a) : Reached a
  /-- A node handles a request, or is restarted. -/
  | handle {first : Bool} {value : String} {a a' : Acceptor} {op : Op} (ha : Reached a)
      (hv : OneLine value) (hop : op.WellFormed) (h : a.handle first value op = some a') :
      Reached a'
  /-- A node joins, and takes the log of another one. -/
  | rejoin {a b a' : Acceptor} (ha : Reached a) (hb : Reached b)
      (h : a.restore b.dump = some a') : Reached a'

/-- Every node has a log. -/
theorem Reached.hasLog {a : Acceptor} (ha : Reached a) : HasLog a := by
  induction ha with
  | start hv h =>
    have hempty : HasLog (.fresh "" "") := ⟨[], ⟨by simp, by simp, by simp⟩, rfl, by simp⟩
    exact hempty.construct hv h
  | handle _ hv hop h ih => exact ih.handle hv hop h
  | @rejoin a b a' _ _ h _ ihb =>
    rw [ihb.dump_eq] at h
    obtain ⟨rs, hrs, htext, -⟩ := ihb
    have hread : a.restore b.log = some (replayAll rs { a with log := b.log }) :=
      logread_eq_replay hrs.wellFormed htext
    obtain rfl := Option.some.inj (hread.symm.trans h)
    exact HasLog.of_replay hrs htext

/-- A node that handles one thing after the other. -/
theorem Reached.steps {me value : String} (ha : Reached a) (hv : OneLine value)
    (h : (acceptorSystem first me value).Steps WellFormedOps a a') :
    Reached a' :=
  h.preserves (I := Reached) (fun _ _ _ hs hop hstep => hs.handle hv hop hstep) ha

/-! ## What a replay leaves -/

/-- What is left of a log that is replayed: the last instance decided, and the last promise and the
last proposal accepted after that. -/
structure Digest where
  /-- The last instance decided. -/
  last : Option ℕ
  /-- The last promise since. -/
  promise : Option PropT
  /-- The last proposal accepted since. -/
  accept : Option (PropT × String)

/-- One more record. -/
def Digest.add (d : Digest) : Record → Digest
  | .done inst _ => ⟨some inst, none, none⟩
  | .propseen n => { d with promise := some n }
  | .accepted n v => { d with accept := some (n, v) }

/-- The digest of a log. -/
def digest (rs : List Record) : Digest := rs.foldl Digest.add ⟨none, none, none⟩

/-- The state `b` after the replay of a log with digest `d` on `a`. -/
structure Replayed (a b : Acceptor) (d : Digest) : Prop where
  /-- The instance is the last one decided. -/
  instance_h : b.instance_h = d.last.getD a.instance_h
  /-- The promise is the last one. -/
  promise : ∀ n, d.promise = some n → b.n_h = n
  /-- Without one, it is the old promise, or none when an instance was decided. -/
  no_promise : d.promise = none → if d.last = none then b.n_h = a.n_h else b.n_h.n = 0
  /-- The proposal accepted is the last one. -/
  accept : ∀ n v, d.accept = some (n, v) → b.n_a = n ∧ b.v_a = v
  /-- Without one, it is the old one, or none when an instance was decided. -/
  no_accept : d.accept = none →
    if d.last = none then b.n_a = a.n_a ∧ b.v_a = a.v_a else b.n_a.n = 0 ∧ b.v_a = ""

/-- The digest says what a replay leaves. -/
theorem replayed_digest (rs : List Record) (a : Acceptor) :
    Replayed a (replayAll rs a) (digest rs) := by
  -- The induction adds a record at the end, as the replay and the digest do.
  induction rs using List.reverseRecOn with
  | nil =>
    refine ⟨rfl, fun n h => ?_, fun _ => rfl, fun n v h => ?_, fun _ => ⟨rfl, rfl⟩⟩ <;> cases h
  | append_singleton rs r ih =>
    rw [replayAll, List.foldl_append, digest, List.foldl_append]
    cases r with
    | done inst v =>
      refine ⟨rfl, fun n h => ?_, fun _ => rfl, fun n v h => ?_, fun _ => ⟨rfl, rfl⟩⟩ <;> cases h
    | propseen n =>
      refine ⟨ih.instance_h, fun m h => ?_, fun h => ?_, ih.accept, ih.no_accept⟩
      · exact Option.some.inj h
      · cases h
    | accepted n v =>
      refine ⟨ih.instance_h, ih.promise, ih.no_promise, fun m w h => ?_, fun h => ?_⟩
      · have := Option.some.inj h
        exact ⟨congrArg Prod.fst this, congrArg Prod.snd this⟩
      · cases h

/-- A value that the log does not decide is kept. -/
theorem replayAll_values_of_notMem (h : inst ∉ rs.filterMap Record.doneInst) (a : Acceptor) :
    (replayAll rs a).values inst = a.values inst := by
  induction rs using List.reverseRecOn with
  | nil => rfl
  | append_singleton rs r ih =>
    rw [List.filterMap_append, List.mem_append, not_or] at h
    rw [replayAll, List.foldl_append]
    refine Eq.trans ?_ (ih h.1)
    cases r with
    | done k v =>
      have hk : inst ≠ k := by
        simpa [Record.doneInst] using h.2
      show Function.update (replayAll rs a).values k v inst = _
      rw [Function.update_of_ne hk]
    | propseen n => rfl
    | accepted n v => rfl

/-- A value that the log decides is the one of its record. -/
theorem replayAll_values_of_mem (hasc : (rs.filterMap Record.doneInst).Pairwise (· < ·))
    (h : Record.done inst v ∈ rs) (a : Acceptor) : (replayAll rs a).values inst = v := by
  induction rs using List.reverseRecOn with
  | nil => cases h
  | append_singleton rs r ih =>
    rw [List.filterMap_append, List.pairwise_append] at hasc
    obtain ⟨hrs, -, hlast⟩ := hasc
    rw [replayAll, List.foldl_append]
    rcases List.mem_append.mp h with hmem | hmem
    · refine Eq.trans ?_ (ih hrs hmem)
      cases r with
      | done k w =>
        -- A later record is for a later instance, and does not overwrite the value.
        have hk : inst < k := hlast inst (mem_doneInst hmem) k (by simp [Record.doneInst])
        show Function.update (replayAll rs a).values k w inst = _
        rw [Function.update_of_ne hk.ne]
      | propseen n => rfl
      | accepted n w => rfl
    · obtain rfl := List.mem_singleton.mp hmem
      show Function.update (replayAll rs a).values inst v inst = v
      rw [Function.update_self]

/-! ## When nothing is forgotten -/

/-- The acceptor `b` has not forgotten anything of `a`. An empty entry of `values` is no value, and
a number whose counter is `0` is no promise and no proposal. -/
structure NeverForgets (a b : Acceptor) : Prop where
  /-- `instance_h` does not decrease. -/
  instance_h : a.instance_h ≤ b.instance_h
  /-- A committed value is neither dropped nor changed. -/
  values : ∀ inst, a.values inst ≠ "" → b.values inst = a.values inst
  /-- A promise for the open instance is not lowered. -/
  n_h : b.instance_h = a.instance_h → a.n_h.n ≠ 0 → a.n_h ≤ b.n_h
  /-- A proposal accepted for the open instance is not replaced by a lower or an empty one. -/
  n_a : b.instance_h = a.instance_h → a.n_a.n ≠ 0 → a.n_a ≤ b.n_a ∧ (b.v_a = "" → a.v_a = "")

/-- The log `rs` covers the state `a`: it does not contradict a committed value, it ends at the
instance of `a` or later and, where it ends there, it has a promise and an accepted proposal that
are not below those of `a`. A log without a decided instance only must not lower them. -/
structure Covers (a : Acceptor) (rs : List Record) : Prop where
  /-- The log decides no other value for a committed instance. -/
  values : ∀ inst v, Record.done inst v ∈ rs → a.values inst ≠ "" → v = a.values inst
  /-- The log ends at the instance of `a` or later. -/
  last : ∀ inst, (digest rs).last = some inst → a.instance_h ≤ inst
  /-- The log's last promise for the open instance of `a` is not below the one of `a`. -/
  promise : (digest rs).last.getD a.instance_h = a.instance_h → a.n_h.n ≠ 0 →
    match (digest rs).promise with
    | some n => a.n_h ≤ n
    | none => (digest rs).last = none
  /-- The log's last accepted proposal for the open instance of `a` is not below the one of `a`,
  and not an empty one. -/
  accept : (digest rs).last.getD a.instance_h = a.instance_h → a.n_a.n ≠ 0 →
    match (digest rs).accept with
    | some (n, v) => a.n_a ≤ n ∧ (v = "" → a.v_a = "")
    | none => (digest rs).last = none

/-- After a replay, the promise of `a` is kept exactly when the digest has one that is not below. -/
theorem Replayed.promise_iff {a b : Acceptor} {d : Digest} (h : Replayed a b d)
    (hn : a.n_h.n ≠ 0) :
    a.n_h ≤ b.n_h ↔ match d.promise with
      | some n => a.n_h ≤ n
      | none => d.last = none := by
  cases hp : d.promise with
  | some n => rw [h.promise n hp]
  | none =>
    have hno := h.no_promise hp
    by_cases hl : d.last = none
    · rw [if_pos hl] at hno
      simp [hno, hl]
    · -- The last `done` record has set the counter to `0`, which is below the promise.
      rw [if_neg hl] at hno
      exact iff_of_false (fun hle => hn (PropT.n_eq_zero_of_le hle hno)) hl

/-- After a replay, the proposal that `a` accepted is kept exactly when the digest has one that is
neither below nor empty. -/
theorem Replayed.accept_iff {a b : Acceptor} {d : Digest} (h : Replayed a b d)
    (hn : a.n_a.n ≠ 0) :
    (a.n_a ≤ b.n_a ∧ (b.v_a = "" → a.v_a = "")) ↔ match d.accept with
      | some (n, v) => a.n_a ≤ n ∧ (v = "" → a.v_a = "")
      | none => d.last = none := by
  cases hp : d.accept with
  | some p =>
    obtain ⟨n, v⟩ := p
    obtain ⟨hn_a, hv_a⟩ := h.accept n v hp
    rw [hn_a, hv_a]
  | none =>
    have hno := h.no_accept hp
    by_cases hl : d.last = none
    · rw [if_pos hl] at hno
      simp [hno.1, hno.2, hl]
    · rw [if_neg hl] at hno
      exact iff_of_false (fun hle => hn (PropT.n_eq_zero_of_le hle.1 hno.1)) hl

/-- A replay on `a` forgets nothing exactly when the log covers `a`. -/
theorem neverForgets_replayAll_iff (hrs : IsLog rs) (a : Acceptor) :
    NeverForgets a (replayAll rs a) ↔ Covers a rs := by
  have hd := replayed_digest rs a
  constructor
  · intro h
    refine ⟨fun inst v hmem hne => ?_, fun inst hlast => ?_, fun hopen hn => ?_, fun hopen hn => ?_⟩
    · rw [← replayAll_values_of_mem hrs.ascending hmem a]
      exact h.values inst hne
    · have := h.instance_h
      rwa [hd.instance_h, hlast] at this
    · exact (hd.promise_iff hn).mp (h.n_h (hd.instance_h.trans hopen) hn)
    · exact (hd.accept_iff hn).mp (h.n_a (hd.instance_h.trans hopen) hn)
  · intro h
    refine ⟨?_, fun inst hne => ?_, fun hopen hn => ?_, fun hopen hn => ?_⟩
    · rw [hd.instance_h]
      cases hlast : (digest rs).last with
      | none => exact le_rfl
      | some inst => exact h.last inst hlast
    · -- A value is the one that the log decides, or it is not touched.
      by_cases hmem : inst ∈ rs.filterMap Record.doneInst
      · obtain ⟨r, hr, hinst⟩ := List.mem_filterMap.mp hmem
        cases r with
        | done k v =>
          obtain rfl := Option.some.inj hinst
          rw [replayAll_values_of_mem hrs.ascending hr a]
          exact h.values k v hr hne
        | propseen n => cases hinst
        | accepted n v => cases hinst
      · exact replayAll_values_of_notMem hmem a
    · exact (hd.promise_iff hn).mpr (h.promise (hd.instance_h.symm.trans hopen) hn)
    · exact (hd.accept_iff hn).mpr (h.accept (hd.instance_h.symm.trans hopen) hn)

/-- The log of a node `b` can be restored at any acceptor `a`, and `a` forgets nothing by it exactly
when the log covers its state. -/
theorem never_forgets_iff {b : Acceptor} (hb : Reached b) :
    (∃ rs, IsLog rs ∧ b.dump.toList = logChars rs) ∧
      ∀ rs, IsLog rs → b.dump.toList = logChars rs → ∀ a : Acceptor,
        ∃ a', a.restore b.dump = some a' ∧ (NeverForgets a a' ↔ Covers a rs) := by
  refine ⟨?_, fun rs hrs htext a => ?_⟩
  · rw [hb.hasLog.dump_eq]
    obtain ⟨rs, hrs, htext, -⟩ := hb.hasLog
    exact ⟨rs, hrs, htext⟩
  · -- `restore` replays on the state with the new log, which no field of the comparison reads.
    refine ⟨_, logread_eq_replay (a := { a with log := b.dump }) hrs.wellFormed htext, ?_⟩
    have hiff := neverForgets_replayAll_iff hrs { a with log := b.dump }
    exact ⟨fun h => by
        obtain ⟨h₁, h₂, h₃, h₄⟩ := hiff.mp ⟨h.1, h.2, h.3, h.4⟩
        exact ⟨h₁, h₂, h₃, h₄⟩,
      fun h => by
        obtain ⟨h₁, h₂, h₃, h₄⟩ := hiff.mpr ⟨h.1, h.2, h.3, h.4⟩
        exact ⟨h₁, h₂, h₃, h₄⟩⟩

/-- A log that is ahead: node `2` has the second view and a promise for the third one, and rejoins
with the log of node `1`, which has the third view. -/
theorem restore_of_later_log : ∃ a b a', Reached a ∧ Reached b ∧ a.instance_h = 2 ∧
    a.n_h = ⟨1, "1"⟩ ∧ b.dump = "done 1 1 \ndone 2 1 2 \ndone 3 1 2 3 \n" ∧
    a.restore b.dump = some a' ∧ NeverForgets a a' := by
  have hrun : ((Acceptor.construct true "1" "1 " "").bind fun b₁ =>
      ((acceptorSystem true "1" "1 ").execGuarded WellFormedOps b₁ [.commit 2 "1 2 "]).bind
        fun b₂ => ((acceptorSystem true "1" "1 ").execGuarded WellFormedOps b₂
          [.commit 3 "1 2 3 "]).bind
        fun b₃ => (Acceptor.construct false "2" "" "").bind
        fun a₀ => (a₀.restore b₂.dump).bind
        fun a₂ => ((acceptorSystem false "2" "").execGuarded WellFormedOps a₂
          [.prepare ⟨3, ⟨1, "1"⟩⟩]).map
        fun a => (a.instance_h, a.n_h, a.values 1, a.values 2, a.values 3, b₃.dump)) =
      some (2, ⟨1, "1"⟩, "1 ", "1 2 ", "", "done 1 1 \ndone 2 1 2 \ndone 3 1 2 3 \n") := by
    decide
  obtain ⟨b₁, hb₁, hrun⟩ := Option.bind_eq_some_iff.mp hrun
  obtain ⟨b₂, hb₂, hrun⟩ := Option.bind_eq_some_iff.mp hrun
  obtain ⟨b₃, hb₃, hrun⟩ := Option.bind_eq_some_iff.mp hrun
  obtain ⟨a₀, ha₀, hrun⟩ := Option.bind_eq_some_iff.mp hrun
  obtain ⟨a₂, ha₂, hrun⟩ := Option.bind_eq_some_iff.mp hrun
  obtain ⟨a, ha, hdata⟩ := Option.map_eq_some_iff.mp hrun
  simp only [Prod.mk.injEq] at hdata
  obtain ⟨hinst, hn_h, hval₁, hval₂, hval₃, hdump⟩ := hdata
  have hR₂ : Reached b₂ :=
    (Reached.start (by decide) hb₁).steps (by decide) (System.steps_of_execGuarded hb₂)
  have hR₃ : Reached b₃ := hR₂.steps (by decide) (System.steps_of_execGuarded hb₃)
  have hRa : Reached a := ((Reached.start (by decide) ha₀).rejoin hR₂ ha₂).steps (by decide)
    (System.steps_of_execGuarded ha)
  have hlog : IsLog [.done 1 "1 ", .done 2 "1 2 ", .done 3 "1 2 3 "] :=
    ⟨by decide, by decide, by decide⟩
  -- The log ends beyond the instance of node `2`, so that its promise does not matter any more.
  have hcovers : Covers a [.done 1 "1 ", .done 2 "1 2 ", .done 3 "1 2 3 "] := by
    refine ⟨fun inst v hmem hne => ?_, fun inst hlast => ?_, fun hopen => ?_, fun hopen => ?_⟩
    · simp only [List.mem_cons, Record.done.injEq, List.not_mem_nil, or_false] at hmem
      rcases hmem with ⟨rfl, rfl⟩ | ⟨rfl, rfl⟩ | ⟨rfl, rfl⟩
      · exact hval₁.symm
      · exact hval₂.symm
      · exact absurd hval₃ hne
    · obtain rfl : 3 = inst := Option.some.inj hlast
      omega
    · exact absurd (show 3 = a.instance_h from hopen) (by omega)
    · exact absurd (show 3 = a.instance_h from hopen) (by omega)
  obtain ⟨a', hrestore, hiff⟩ :=
    (never_forgets_iff hR₃).2 _ hlog (by rw [hdump]; decide) a
  exact ⟨a, b₃, a', hRa, hR₃, hinst, hn_h, hdump, hrestore, hiff.mpr hcovers⟩

/-- Nodes `1`, `2` and `3` have the third view. Node `2` accepts a proposal of node `3` for the
fourth one, of which node `1` has not heard. It is restarted, still a member, and rejoins with the
log of node `1`: the proposal and the promise are forgotten. -/
theorem restore_forgets_accepted : ∃ a b a', Reached a ∧ Reached b ∧
    a.log = "done 1 1 \ndone 2 1 2 \ndone 3 1 2 3 \npropseen 1 3\naccepted 1 3 1 2 3 4 \n" ∧
    b.dump = "done 1 1 \ndone 2 1 2 \ndone 3 1 2 3 \n" ∧ a.restore b.dump = some a' ∧
    a.v_a = "1 2 3 4 " ∧ a'.v_a = "" ∧ ¬ NeverForgets a a' := by
  have hrun : ((Acceptor.construct true "1" "1 " "").bind fun b₁ =>
      ((acceptorSystem true "1" "1 ").execGuarded WellFormedOps b₁
          [.commit 2 "1 2 ", .commit 3 "1 2 3 "]).bind
        fun b => (Acceptor.construct false "2" "" "").bind
        fun a₀ => (a₀.restore b.dump).bind
        fun a₃ => ((acceptorSystem false "2" "").execGuarded WellFormedOps a₃
          [.prepare ⟨4, ⟨1, "3"⟩⟩, .accept ⟨4, ⟨1, "3"⟩, "1 2 3 4 "⟩, .restart]).bind
        fun a => (a.restore b.dump).map
        fun a' => ([a.log, b.dump, a.v_a, a'.v_a], [a.instance_h, a'.instance_h],
          [a.n_a.n, a'.n_a.n])) =
      some (["done 1 1 \ndone 2 1 2 \ndone 3 1 2 3 \npropseen 1 3\naccepted 1 3 1 2 3 4 \n",
        "done 1 1 \ndone 2 1 2 \ndone 3 1 2 3 \n", "1 2 3 4 ", ""], [3, 3], [1, 0]) := by
    decide
  obtain ⟨b₁, hb₁, hrun⟩ := Option.bind_eq_some_iff.mp hrun
  obtain ⟨b, hb, hrun⟩ := Option.bind_eq_some_iff.mp hrun
  obtain ⟨a₀, ha₀, hrun⟩ := Option.bind_eq_some_iff.mp hrun
  obtain ⟨a₃, ha₃, hrun⟩ := Option.bind_eq_some_iff.mp hrun
  obtain ⟨a, ha, hrun⟩ := Option.bind_eq_some_iff.mp hrun
  obtain ⟨a', ha', hdata⟩ := Option.map_eq_some_iff.mp hrun
  simp only [Prod.mk.injEq, List.cons.injEq, and_true] at hdata
  obtain ⟨⟨hlog, hdump, hv_a, hv_a'⟩, ⟨hinst, hinst'⟩, hn_a, hn_a'⟩ := hdata
  have hRb : Reached b :=
    (Reached.start (by decide) hb₁).steps (by decide) (System.steps_of_execGuarded hb)
  have hRa : Reached a := ((Reached.start (by decide) ha₀).rejoin hRb ha₃).steps (by decide)
    (System.steps_of_execGuarded ha)
  -- Both states are at the third instance, and the proposal accepted since has the counter `0`.
  refine ⟨a, b, a', hRa, hRb, hlog, hdump, ha', hv_a, hv_a', fun hkeeps => ?_⟩
  have hle := (hkeeps.n_a (hinst'.trans hinst.symm) (by rw [hn_a]; decide)).1
  have hzero := PropT.n_eq_zero_of_le hle hn_a'
  rw [hn_a] at hzero
  exact absurd hzero (by decide)

end SimpleDfs.Paxos
