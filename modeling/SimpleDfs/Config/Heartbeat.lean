import SimpleDfs.Config.NoGap

/-!
# Heartbeats

`config::heartbeater` asks the nodes of its view, one after the other, whether they are at the view
that it is at, and removes a node that is not. `config::heartbeat` answers for a node. When its
proposer is running it expects that the views differ by one at most, and aborts when they do not.

A heartbeat carries the view that its sender is at when it is sent. Nothing ties it to the view of
the node that it reaches: the sender may have missed views, and the receiver may pass on while the
heartbeat is under way (`delayed_heartbeat_aborts`). `InTouch` are the runs in which neither
happens, and a heartbeat that is out of touch aborts its receiver whenever a proposer is started
before it arrives (`heartbeats_in_touch`).
-/

namespace SimpleDfs

open Paxos Config

/-! ## The handler and the heartbeater -/

/-- The answers of `config::heartbeat`. -/
inductive HeartbeatStatus where
  /-- `paxos_protocol::OK`. -/
  | OK
  /-- `paxos_protocol::ERR`. -/
  | ERR
  deriving DecidableEq, Repr

/-- `proposer::isrunning`. -/
def Paxos.Proposer.isrunning (pro : Proposer) : Bool := pro.phase ≠ .stable

/-- `config::heartbeat`, with the view that it returns. It aborts when the `VERIFY` fails. -/
def Config.heartbeat (c : Config) (isrunning : Bool) (vid : ℕ) : Option (HeartbeatStatus × ℕ) :=
  if vid = c.myvid then some (.OK, c.myvid)
  else if isrunning then
    if vid = c.myvid + 1 ∨ vid + 1 = c.myvid then some (.OK, c.myvid) else none
  else some (.ERR, c.myvid)

/-- A heartbeat. -/
structure Beat where
  /-- The sender. -/
  src : String
  /-- The number of the call at its sender. -/
  xid : ℕ
  /-- The receiver. -/
  dst : String
  /-- The view that the sender is at. -/
  vid : ℕ
  deriving DecidableEq, Repr

/-- The answer to a heartbeat. -/
structure BeatReply where
  /-- The heartbeat. -/
  beat : Beat
  /-- The answer. -/
  status : HeartbeatStatus
  deriving DecidableEq, Repr

/-- A turn of the loop of `config::heartbeater`, with the call that it waits for. -/
structure Round where
  /-- The view at the start of the turn. -/
  vid : ℕ
  /-- The node that is asked. -/
  m : String
  /-- The nodes that are asked next. -/
  todo : List String
  /-- The number of the call. -/
  xid : ℕ
  deriving DecidableEq, Repr

/-- A cluster with its heartbeats. -/
structure HeartbeatCluster where
  /-- The nodes and their config modules. -/
  views : ConfigCluster
  /-- The turns of the heartbeaters that do not sleep. -/
  round : String → Option Round
  /-- The number of the next heartbeat of each node. -/
  xid : String → ℕ
  /-- The heartbeats under way. -/
  beats : List Beat
  /-- The answers so far. -/
  answers : List BeatReply
  /-- The logs that `rsm::joinreq` has returned so far. -/
  dumps : List String

/-- What happens in the cluster. -/
inductive HeartbeatEvent where
  /-- A step of the nodes. -/
  | views (e : ViewEvent)
  /-- The heartbeater of node `p` wakes up. -/
  | wake (p : String)
  /-- The `k`-th heartbeat under way reaches its node. -/
  | deliver (k : ℕ)
  /-- The `k`-th answer reaches the heartbeater that waits for it. -/
  | answer (k : ℕ)
  /-- The call of the heartbeater of node `p` fails, since the node called was started anew: the
  handle is deleted, and the heartbeater goes on. -/
  | renew (p : String)
  /-- The call of the heartbeater of node `p` fails otherwise. -/
  | fail (p : String)
  /-- `rsm::joinreq` returns the log of node `p`. -/
  | dump (p : String)
  /-- Node `p` joins: `config::restore` with the `k`-th log. -/
  | restore (p : String) (k : ℕ)
  deriving DecidableEq, Repr

namespace HeartbeatCluster

/-- The config module of a node. -/
def cfg (s : HeartbeatCluster) (p : String) : Config := s.views.cfg p

/-- The node `p`. -/
def node (s : HeartbeatCluster) (p : String) : Node := s.views.paxos.node p

/-- `config::doheartbeat` at node `p` up to its call, in a turn that started at the view `vid`. -/
def doheartbeat (s : HeartbeatCluster) (p : String) (vid : ℕ) (m : String) (todo : List String) :
    HeartbeatCluster :=
  { s with
    beats := s.beats ++ [⟨p, s.xid p, m, (s.cfg p).myvid⟩]
    round := Function.update s.round p (some ⟨vid, m, todo, s.xid p⟩)
    xid := Function.update s.xid p (s.xid p + 1) }

/-- The heartbeater of node `p` sleeps. -/
def sleep (s : HeartbeatCluster) (p : String) : HeartbeatCluster :=
  { s with round := Function.update s.round p none }

/-- The rest of a turn after an answer `OK`: the next node is asked. -/
def goOn (s : HeartbeatCluster) (p : String) (vid : ℕ) : List String → HeartbeatCluster
  | [] => s.sleep p
  | m :: todo => s.doheartbeat p vid m todo

/-- The rest of a turn after any other answer: the node is removed, unless the view has changed. -/
def giveUp (s : HeartbeatCluster) (p : String) (r : Round) : HeartbeatCluster :=
  if r.vid = (s.cfg p).myvid then
    { s.sleep p with views := s.views.ask p ((s.cfg p).removeWo r.m) }
  else s.sleep p

/-- The node `p` in another state. -/
def setNode (s : HeartbeatCluster) (p : String) (n : Node) : HeartbeatCluster :=
  { s with views := { s.views with paxos := s.views.paxos.set p n } }

/-- The process of node `p` is aborted. -/
def abort (s : HeartbeatCluster) (p : String) : HeartbeatCluster :=
  s.setNode p { s.node p with down := true }

/-- The answer of a node to a heartbeat, if it gives one. -/
def reply (s : HeartbeatCluster) (b : Beat) : Option (HeartbeatStatus × ℕ) :=
  (s.cfg b.dst).heartbeat (s.node b.dst).pro.isrunning b.vid

/-- The `k`-th heartbeat, which is `b`, reaches its node. -/
def deliver (s : HeartbeatCluster) (k : ℕ) (b : Beat) : HeartbeatCluster :=
  match s.reply b with
  | some (status, _) =>
    { s with beats := s.beats.eraseIdx k, answers := s.answers ++ [⟨b, status⟩] }
  | none => { s with beats := s.beats.eraseIdx k }.abort b.dst

/-- `config::restore` with the log `text`. -/
def restore (s : HeartbeatCluster) (p text : String) : HeartbeatCluster :=
  match (s.node p).acc.restore text with
  | some acc => { s.setNode p { s.node p with acc := acc } with
      views := { (s.setNode p { s.node p with acc := acc }).views with
        cfg := Function.update s.views.cfg p ((s.cfg p).reconstruct acc) } }
  | none => s.abort p

/-- The cluster after an event, when it is possible. The heartbeaters remove nodes themselves. -/
def next (s : HeartbeatCluster) : HeartbeatEvent → Option HeartbeatCluster
  | .views (.remove _ _) => none
  | .views e => (s.views.next e).map fun v => { s with views := v }
  | .wake p =>
    if (s.node p).down ∨ s.round p ≠ none then none
    else some (s.goOn p (s.cfg p).myvid ((s.cfg p).heartbeatVictims (s.node p).acc))
  | .deliver k => s.beats[k]?.bind fun b =>
    if (s.node b.dst).down then none else some (s.deliver k b)
  | .answer k => s.answers[k]?.bind fun a => (s.round a.beat.src).bind fun r =>
    if (s.node a.beat.src).down ∨ r.xid ≠ a.beat.xid then none
    else if a.status = .OK then some (s.goOn a.beat.src r.vid r.todo)
    else some (s.giveUp a.beat.src r)
  | .renew p => (s.round p).bind fun r =>
    if (s.node p).down then none else some (s.goOn p r.vid r.todo)
  | .fail p => (s.round p).bind fun r =>
    if (s.node p).down then none else some (s.giveUp p r)
  | .dump p => if (s.node p).down then none
    else some { s with dumps := s.dumps ++ [(s.node p).acc.dump] }
  | .restore p k => s.dumps[k]?.bind fun text =>
    if (s.node p).down then none else some (s.restore p text)

end HeartbeatCluster

/-- The cluster of nodes that start on their logs, with nothing under way. -/
def heartbeatSystem (first : String) : System HeartbeatCluster HeartbeatEvent where
  init s := (historyCluster first).init s.views ∧ (∀ p, s.round p = none) ∧ s.beats = [] ∧
    s.answers = [] ∧ s.dumps = []
  step := HeartbeatCluster.next

/-! ## In touch -/

/-- Two view numbers differ by one at most. -/
def WithinOne (a b : ℕ) : Prop := a ≤ b + 1 ∧ b ≤ a + 1

instance (a b : ℕ) : Decidable (WithinOne a b) := inferInstanceAs (Decidable (_ ∧ _))

/-- `config::heartbeat` does not abort exactly when no proposer is running, or the views differ by
one at most. -/
theorem heartbeat_isSome_iff (c : Config) (isrunning : Bool) (vid : ℕ) :
    (c.heartbeat isrunning vid).isSome = true ↔ isrunning = false ∨ WithinOne vid c.myvid := by
  unfold Config.heartbeat WithinOne
  split_ifs with hsame hrunning hnear
  · simp only [Option.isSome_some, true_iff]
    omega
  · simp only [Option.isSome_some, true_iff]
    omega
  · simp only [Option.isSome_none, Bool.false_eq_true, false_iff, not_or, hrunning]
    exact ⟨Bool.noConfusion, by omega⟩
  · simp only [Option.isSome_some, true_iff]
    exact Or.inl (Bool.eq_false_of_not_eq_true hrunning)

namespace HeartbeatCluster

/-- The node that sends a heartbeat in an event, and the node that it is for. -/
def target (s : HeartbeatCluster) : HeartbeatEvent → Option (String × String)
  | .wake p => ((s.cfg p).heartbeatVictims (s.node p).acc).head?.map fun m => (p, m)
  | .answer k => s.answers[k]?.bind fun a => (s.round a.beat.src).bind fun r =>
    if a.status = .OK then r.todo.head?.map fun m => (a.beat.src, m) else none
  | .renew p => (s.round p).bind fun r => r.todo.head?.map fun m => (p, m)
  | _ => none

/-- The view that the config module of node `p` goes to in an event. -/
def goesTo (s : HeartbeatCluster) (p : String) : HeartbeatEvent → Option ℕ
  | .views (.upcall q k) => if q = p then (s.node p).upcalls[k]?.map (·.inst) else none
  | .restore q k => if q = p then s.dumps[k]?.bind fun text =>
      ((s.node p).acc.restore text).map fun acc => ((s.cfg p).reconstruct acc).myvid
    else none
  | _ => none

/-- An event that sends a heartbeat changes no view. -/
theorem goesTo_eq_none {s : HeartbeatCluster} {e : HeartbeatEvent} {t : String × String}
    (h : s.target e = some t) (p : String) : s.goesTo p e = none := by
  cases e with
  | wake q | answer k | renew q => rfl
  | views e | deliver k | fail q | dump q | restore q k => cases h

end HeartbeatCluster

/-- The runs in which a heartbeat is sent only to a node whose view differs by one at most, and no
config module goes to a view that differs by more from that of a heartbeat under way to it. -/
def InTouch (s : HeartbeatCluster) (e : HeartbeatEvent) : Prop :=
  (∀ t ∈ s.target e, WithinOne (s.cfg t.1).myvid (s.cfg t.2).myvid) ∧
    ∀ b ∈ s.beats, ∀ vid ∈ s.goesTo b.dst e, WithinOne b.vid vid

instance (s : HeartbeatCluster) (e : HeartbeatEvent) : Decidable (InTouch s e) :=
  inferInstanceAs (Decidable (_ ∧ _))

/-- The runs in which the config module of node `p` stays at its view. -/
def StaysAt (p : String) (s : HeartbeatCluster) (e : HeartbeatEvent) : Prop := s.goesTo p e = none

/-! ## What a step does to views and heartbeats -/

section Steps

variable {s s' : HeartbeatCluster} {e : HeartbeatEvent}

/-- What an event does to the views of the config modules and to the heartbeats. -/
structure Does (s : HeartbeatCluster) (e : HeartbeatEvent) (s' : HeartbeatCluster) : Prop where
  /-- A config module stays at its view, or goes to the view that the event says. -/
  myvid : ∀ p, (s'.cfg p).myvid = (s.cfg p).myvid ∨ s.goesTo p e = some (s'.cfg p).myvid
  /-- A heartbeat under way was under way before, or is sent in the event. -/
  beats : ∀ b ∈ s'.beats,
    b ∈ s.beats ∨ s.target e = some (b.src, b.dst) ∧ b.vid = (s.cfg b.src).myvid

/-- An event that changes no view and sends nothing. -/
theorem Does.nothing (hcfg : s'.views.cfg = s.views.cfg) (hbeats : ∀ b ∈ s'.beats, b ∈ s.beats) :
    Does s e s' where
  myvid p := Or.inl (congrArg (fun cfg : String → Config => (cfg p).myvid) hcfg)
  beats b hb := Or.inl (hbeats b hb)

/-- A turn goes on: a heartbeat is sent to the next node. -/
theorem Does.goOn {p : String} {vid : ℕ} {todo : List String}
    (htarget : s.target e = todo.head?.map fun m => (p, m)) : Does s e (s.goOn p vid todo) := by
  cases todo with
  | nil => exact .nothing rfl fun _ => id
  | cons m todo =>
    refine ⟨fun _ => Or.inl rfl, fun b hb => ?_⟩
    rcases List.mem_append.mp hb with hold | hnew
    · exact Or.inl hold
    · obtain rfl := List.mem_singleton.mp hnew
      exact Or.inr ⟨htarget, rfl⟩

/-- A turn is given up. -/
theorem Does.giveUp (p : String) (r : Round) : Does s e (s.giveUp p r) := by
  unfold HeartbeatCluster.giveUp
  split_ifs
  · exact .nothing rfl fun _ => id
  · exact .nothing rfl fun _ => id

/-- A heartbeat is delivered. -/
theorem Does.deliver (k : ℕ) (b : Beat) : Does s e (s.deliver k b) := by
  unfold HeartbeatCluster.deliver
  split
  · exact .nothing rfl fun _ => List.mem_of_mem_eraseIdx
  · exact .nothing rfl fun _ => List.mem_of_mem_eraseIdx

/-- A node joins with a log. -/
theorem Does.restore {q text : String} {k : ℕ} (htext : s.dumps[k]? = some text) :
    Does s (.restore q k) (s.restore q text) := by
  unfold HeartbeatCluster.restore
  split
  next acc hacc =>
    refine ⟨fun p => ?_, fun b hb => Or.inl hb⟩
    by_cases hq : q = p
    · subst hq
      right
      show (if q = q then s.dumps[k]?.bind _ else none) =
        some (Function.update s.views.cfg q _ q).myvid
      rw [if_pos rfl, htext, Option.bind_some, hacc, Function.update_self]
      rfl
    · left
      show (Function.update s.views.cfg q _ p).myvid = _
      rw [Function.update_of_ne (Ne.symm hq)]
      rfl
  next => exact .nothing rfl fun _ => id

/-- A step of the nodes that is no upcall changes no view. -/
theorem cfg_next {v v' : ConfigCluster} {e : ViewEvent} (he : ∀ p k, e ≠ .upcall p k)
    (hs : v.next e = some v') : v'.cfg = v.cfg := by
  cases e with
  | paxos pe =>
    cases pe with
    | run p args => cases hs
    | upcall p k => cases hs
    | send p | skip p | handle k | reply k =>
      obtain ⟨c, -, rfl⟩ := Option.map_eq_some_iff.mp hs
      rfl
  | add p m vid =>
    simp only [ConfigCluster.next] at hs
    split_ifs at hs
    obtain rfl := Option.some.inj hs
    cases (v.cfg p).add m vid <;> rfl
  | remove p m =>
    simp only [ConfigCluster.next] at hs
    split_ifs at hs
    obtain rfl := Option.some.inj hs
    rfl
  | run p k =>
    obtain ⟨args, -, hs⟩ := Option.bind_eq_some_iff.mp hs
    obtain ⟨c, -, rfl⟩ := Option.map_eq_some_iff.mp hs
    rfl
  | upcall p k => exact absurd rfl (he p k)

/-- A node takes a view. -/
theorem Does.upcall {q : String} {k : ℕ} {v : ConfigCluster}
    (hv : s.views.next (.upcall q k) = some v) :
    Does s (.views (.upcall q k)) { s with views := v } := by
  obtain ⟨u, hu, hv⟩ := Option.bind_eq_some_iff.mp hv
  obtain ⟨c, -, rfl⟩ := Option.map_eq_some_iff.mp hv
  refine ⟨fun p => ?_, fun b hb => Or.inl hb⟩
  by_cases hq : q = p
  · subst hq
    right
    show (if q = q then (s.views.paxos.node q).upcalls[k]?.map (·.inst) else none) =
      some (Function.update s.views.cfg q _ q).myvid
    rw [if_pos rfl, hu, Function.update_self]
    rfl
  · left
    show (Function.update s.views.cfg q _ p).myvid = _
    rw [Function.update_of_ne (Ne.symm hq)]
    rfl

/-- What an event does. -/
theorem does_next (hs : s.next e = some s') : Does s e s' := by
  cases e with
  | views e =>
    cases e with
    | remove q m => cases hs
    | upcall q k =>
      obtain ⟨v, hv, rfl⟩ := Option.map_eq_some_iff.mp hs
      exact .upcall hv
    | paxos pe | add q m vid | run q k =>
      obtain ⟨v, hv, rfl⟩ := Option.map_eq_some_iff.mp hs
      exact .nothing (cfg_next (by simp) hv) fun _ => id
  | wake q =>
    simp only [HeartbeatCluster.next] at hs
    split_ifs at hs
    cases hs
    exact .goOn rfl
  | deliver k =>
    obtain ⟨b, -, hs⟩ := Option.bind_eq_some_iff.mp hs
    split_ifs at hs
    cases hs
    exact .deliver k b
  | answer k =>
    obtain ⟨a, ha, hs⟩ := Option.bind_eq_some_iff.mp hs
    obtain ⟨r, hr, hs⟩ := Option.bind_eq_some_iff.mp hs
    split_ifs at hs with hno hok
    · cases hs
      refine .goOn ?_
      rw [HeartbeatCluster.target, ha, Option.bind_some, hr, Option.bind_some, if_pos hok]
    · cases hs
      exact .giveUp _ r
  | renew q =>
    obtain ⟨r, hr, hs⟩ := Option.bind_eq_some_iff.mp hs
    split_ifs at hs
    cases hs
    refine .goOn ?_
    rw [HeartbeatCluster.target, hr, Option.bind_some]
  | fail q =>
    obtain ⟨r, -, hs⟩ := Option.bind_eq_some_iff.mp hs
    split_ifs at hs
    cases hs
    exact .giveUp q r
  | dump q =>
    simp only [HeartbeatCluster.next] at hs
    split_ifs at hs
    cases hs
    exact .nothing rfl fun _ => id
  | restore q k =>
    obtain ⟨text, htext, hs⟩ := Option.bind_eq_some_iff.mp hs
    split_ifs at hs
    cases hs
    exact .restore htext

end Steps

/-! ## The assertion -/

/-- What holds in every state of a run in touch. -/
def BeatsInTouch (s : HeartbeatCluster) : Prop :=
  ∀ b ∈ s.beats, WithinOne b.vid (s.cfg b.dst).myvid

/-- Every event of a run in touch keeps it. -/
theorem beatsInTouch_next {s s' : HeartbeatCluster} {e : HeartbeatEvent} (h : BeatsInTouch s)
    (hG : InTouch s e) (hs : s.next e = some s') : BeatsInTouch s' := by
  intro b hb
  have hdoes := does_next hs
  rcases hdoes.beats b hb with hold | ⟨hnew, hvid⟩
  · rcases hdoes.myvid b.dst with hsame | hgoes
    · rw [hsame]
      exact h b hold
    · exact hG.2 b hold _ hgoes
  · -- The heartbeat is sent now, and no view changes.
    have hsame : (s'.cfg b.dst).myvid = (s.cfg b.dst).myvid := by
      refine (hdoes.myvid b.dst).resolve_right fun hgoes => ?_
      rw [HeartbeatCluster.goesTo_eq_none hnew] at hgoes
      cases hgoes
    rw [hvid, hsame]
    exact hG.1 _ hnew

/-- A view stays as it is in a run in which its config module stays. -/
theorem myvid_of_staysAt {first p : String} {s s' : HeartbeatCluster}
    (h : (heartbeatSystem first).Steps (StaysAt p) s s') : (s'.cfg p).myvid = (s.cfg p).myvid := by
  refine h.relation (I := fun _ => True) (R := fun a b => (b.cfg p).myvid = (a.cfg p).myvid)
    (fun _ => rfl) (fun a b c (hab : (b.cfg p).myvid = _) (hbc : (c.cfg p).myvid = _) =>
      hbc.trans hab) (fun _ _ _ _ _ _ => trivial) ?_ trivial
  intro a e b _ hG hs
  refine ((does_next hs).myvid p).resolve_right fun hgoes => ?_
  rw [hG] at hgoes
  cases hgoes

/-- There is a name that is not in a view. -/
theorem exists_new_name (l : List String) : ∃ m, m ∉ l := by
  -- A name that is longer than all of them.
  refine ⟨String.ofList (List.replicate (l.toFinset.sup String.length + 1) 'a'), fun hmem => ?_⟩
  have hle := Finset.le_sup (f := String.length) (List.mem_toFinset.mpr hmem)
  rw [String.length_ofList, List.length_replicate] at hle
  omega

/-- A run that is called for some nodes, when none is on, is running. -/
theorem isrunning_run {n : Node} (hstable : n.pro.phase = .stable) {args : RunArgs}
    (hnodes : args.cur_nodes ≠ []) : (n.run args).pro.isrunning = true := by
  obtain ⟨d, todo, hcons⟩ := List.exists_cons_of_ne_nil hnodes
  have hphase : (n.run args).pro.phase = .preparing args (d :: todo) [] ⟨0, ""⟩ "" := by
    simp only [Node.run, Proposer.run, if_pos hstable, hcons, Phase.settle]
  simp [Proposer.isrunning, hphase]

/-- `config::add` at a node that is up, and the run of the proposer that it calls. -/
theorem steps_add (first : String) {p m : String} {s : HeartbeatCluster}
    (hup : (s.node p).down = false)
    (hnew : Config.ismember (s.node p).acc m (s.cfg p).myvid = false) {args : RunArgs}
    (hadd : (s.cfg p).add m (s.cfg p).myvid = some args) :
    (heartbeatSystem first).Steps (StaysAt p) s (s.setNode p ((s.node p).run args)) := by
  have hask : s.next (.views (.add p m (s.cfg p).myvid)) =
      some { s with views := s.views.ask p args } := by
    show ((if Config.ismember (s.node p).acc m (s.cfg p).myvid = false then
      some (((s.cfg p).add m (s.cfg p).myvid).elim s.views (s.views.ask p)) else none).map _) = _
    rw [if_pos hnew, hadd]
    rfl
  -- The call of the proposer is the last one that is pending, and the only one that is made.
  have hasked : (s.views.ask p args).asked p = s.views.asked p ++ [args] := Function.update_self ..
  have hrest : Function.update (s.views.ask p args).asked p
      ((s.views.asked p ++ [args]).eraseIdx (s.views.asked p).length) = s.views.asked := by
    rw [List.eraseIdx_append_of_length_le le_rfl, Nat.sub_self]
    show Function.update (Function.update s.views.asked p _) p (s.views.asked p ++ []) = _
    rw [List.append_nil, Function.update_idem, Function.update_eq_self]
  have hrun : ({ s with views := s.views.ask p args } : HeartbeatCluster).next
      (.views (.run p (s.views.asked p).length)) = some (s.setNode p ((s.node p).run args)) := by
    show ((((s.views.ask p args).asked p)[(s.views.asked p).length]?.bind fun args =>
      (if (s.node p).down then none else some (s.views.paxos.set p ((s.node p).run args))).map
        _).map _) = _
    rw [hasked, List.getElem?_concat_length, Option.bind_some, hup]
    simp only [Bool.false_eq_true, if_false, Option.map_some, hrest]
    rfl
  have hfirst : (heartbeatSystem first).Step (StaysAt p) s { s with views := s.views.ask p args } :=
    ⟨.views (.add p m (s.cfg p).myvid), rfl, hask⟩
  have hsecond : (heartbeatSystem first).Step (StaysAt p) { s with views := s.views.ask p args }
      (s.setNode p ((s.node p).run args)) :=
    ⟨.views (.run p (s.views.asked p).length), rfl, hrun⟩
  exact (Relation.ReflTransGen.single hfirst).tail hsecond

/-- A heartbeat passes at every time at which it may arrive, as long as its receiver stays at its
view, exactly when the views differ by one at most: otherwise another node can join before. -/
theorem passes_iff {first : String} {s : HeartbeatCluster} {b : Beat} (hb : b ∈ s.beats)
    (hup : (s.node b.dst).down = false) (hmems : (s.cfg b.dst).mems ≠ []) :
    (∀ s', (heartbeatSystem first).Steps (StaysAt b.dst) s s' → b ∈ s'.beats →
      (s'.reply b).isSome = true) ↔ WithinOne b.vid (s.cfg b.dst).myvid := by
  constructor
  · intro h
    by_cases hstable : (s.node b.dst).pro.phase = .stable
    · obtain ⟨m, hnew⟩ := exists_new_name
        (Config.getViewWo (s.node b.dst).acc (s.cfg b.dst).myvid)
      have hmember : Config.ismember (s.node b.dst).acc m (s.cfg b.dst).myvid = false :=
        Bool.eq_false_of_not_eq_true fun h => hnew (isamember_iff.mp h)
      have hsteps := steps_add first hup hmember (if_neg (not_not.mpr rfl))
      have hpass := (heartbeat_isSome_iff _ _ _).mp (h _ hsteps hb)
      refine hpass.resolve_left fun hno => ?_
      rw [HeartbeatCluster.node, HeartbeatCluster.setNode, Cluster.set_node_self,
        isrunning_run hstable hmems] at hno
      cases hno
    · have hpass := (heartbeat_isSome_iff _ _ _).mp (h s Relation.ReflTransGen.refl hb)
      refine hpass.resolve_left fun hno => hstable ?_
      simpa [Proposer.isrunning] using hno
  · intro hnear s' hsteps _
    refine (heartbeat_isSome_iff _ _ _).mpr (Or.inr ?_)
    rw [myvid_of_staysAt hsteps]
    exact hnear

/-- In a run in touch, no heartbeat that is under way fails the assertion. It cannot be weakened: a
heartbeat to a node that is up and has a view passes at every time at which it may arrive, as long
as that node stays at its view, exactly when the views differ by one at most. -/
theorem heartbeats_in_touch (first : String) (s : HeartbeatCluster) :
    ((heartbeatSystem first).Reachable InTouch s → ∀ b ∈ s.beats, (s.reply b).isSome = true) ∧
    ((heartbeatSystem first).Reachable System.anything s → ∀ b ∈ s.beats,
      (s.node b.dst).down = false → (s.cfg b.dst).mems ≠ [] →
        ((∀ s', (heartbeatSystem first).Steps (StaysAt b.dst) s s' → b ∈ s'.beats →
          (s'.reply b).isSome = true) ↔ WithinOne b.vid (s.cfg b.dst).myvid)) := by
  refine ⟨fun h b hb => ?_, fun _ b hb hup hmems => passes_iff hb hup hmems⟩
  have hinv : BeatsInTouch s := by
    refine h.invariant (I := BeatsInTouch) (fun s hinit b hb => ?_)
      fun _ _ _ hI hG hs => beatsInTouch_next hI hG hs
    rw [hinit.2.2.1] at hb
    cases hb
  exact (heartbeat_isSome_iff _ _ _).mpr (Or.inr (hinv b hb))

/-- The nodes of a cluster that start without log files, and their heartbeaters. -/
def startBeats : HeartbeatCluster := ⟨startCluster, fun _ => none, fun _ => 0, [], [], []⟩

/-- It is a start of the cluster. -/
theorem init_startBeats : (heartbeatSystem "1").init startBeats :=
  ⟨init_startCluster, fun _ => rfl, rfl, rfl, rfl⟩

/-- The proposer of node `1` makes a call, which is the `k`-th one, and takes its result. -/
def exchange (k : ℕ) : List HeartbeatEvent :=
  [.views (.paxos (.send "1")), .views (.paxos (.handle k)), .views (.paxos (.reply k))]

/-- Node `2` joins node `1`, and sends it a heartbeat. -/
def secondJoins : List HeartbeatEvent :=
  [HeartbeatEvent.views (.add "1" "2" 1), .views (.run "1" 0)] ++
    exchange 0 ++ exchange 1 ++ exchange 2 ++
    [HeartbeatEvent.views (.upcall "1" 0), .dump "1", .restore "2" 0, .wake "2"]

/-- Nodes `3` and `4` are added while the heartbeat is under way. -/
def twoMoreJoin : List HeartbeatEvent :=
  [HeartbeatEvent.views (.add "1" "3" 2), .views (.run "1" 0)] ++
    exchange 3 ++ exchange 4 ++ exchange 5 ++ exchange 6 ++ exchange 7 ++ exchange 8 ++
  [HeartbeatEvent.views (.upcall "1" 0), .views (.upcall "2" 0), .views (.add "1" "4" 3),
    .views (.run "1" 0)] ++
    exchange 9 ++ exchange 10 ++ [HeartbeatEvent.views (.paxos (.skip "1"))] ++
    exchange 11 ++ exchange 12 ++
  [HeartbeatEvent.views (.paxos (.send "1")), .views (.paxos (.handle 13)),
    .views (.upcall "1" 0)]

/-- Node `2` has joined, and its heartbeat is under way to node `1`, which is at the same view. -/
theorem heartbeats_in_touch_second_view : ∃ s b,
    (heartbeatSystem "1").Reachable InTouch s ∧ b ∈ s.beats ∧ b.vid = 2 ∧
      (s.reply b).isSome = true ∧
      ((∀ s', (heartbeatSystem "1").Steps (StaysAt b.dst) s s' → b ∈ s'.beats →
        (s'.reply b).isSome = true) ↔ WithinOne b.vid (s.cfg b.dst).myvid) := by
  have hrun : ((heartbeatSystem "1").execGuarded InTouch startBeats secondJoins).map
      (fun s => (s.beats, (s.node "1").down, (s.cfg "1").mems)) =
      some ([⟨"2", 0, "1", 2⟩], false, ["1", "2"]) := by
    decide +kernel
  obtain ⟨s, hexec, hval⟩ := Option.map_eq_some_iff.mp hrun
  simp only [Prod.mk.injEq] at hval
  obtain ⟨hbeats, hup, hmems⟩ := hval
  have hb : (⟨"2", 0, "1", 2⟩ : Beat) ∈ s.beats := hbeats ▸ List.mem_singleton.mpr rfl
  have htouch := System.Reachable.of_execGuarded hexec init_startBeats
  have hany := System.Reachable.of_exec (System.exec_of_execGuarded hexec) init_startBeats
  exact ⟨s, _, htouch, hb, rfl, (heartbeats_in_touch _ _).1 htouch _ hb,
    (heartbeats_in_touch _ _).2 hany _ hb hup (by rw [hmems]; simp)⟩

/-- The heartbeat that node `2` sent in the second view arrives when node `1` is in the fourth view,
and its proposer has not returned yet: node `1` is aborted. -/
theorem delayed_heartbeat_aborts : ∃ s s',
    (heartbeatSystem "1").Reachable System.anything s ∧ s.beats = [⟨"2", 0, "1", 2⟩] ∧
      (s.cfg "1").myvid = 4 ∧ (s.node "1").pro.isrunning = true ∧ (s.node "1").down = false ∧
      s.next (.deliver 0) = some s' ∧ (s'.node "1").down = true := by
  have hrun : ((heartbeatSystem "1").exec startBeats (secondJoins ++ twoMoreJoin)).bind
      (fun s => (s.next (.deliver 0)).map fun s' =>
        (s.beats, (s.cfg "1").myvid, (s.node "1").pro.isrunning, (s.node "1").down,
          (s'.node "1").down)) = some ([⟨"2", 0, "1", 2⟩], 4, true, false, true) := by
    decide +kernel
  obtain ⟨s, hexec, hlast⟩ := Option.bind_eq_some_iff.mp hrun
  obtain ⟨s', hs', hval⟩ := Option.map_eq_some_iff.mp hlast
  simp only [Prod.mk.injEq] at hval
  obtain ⟨hbeats, hmyvid, hrunning, hup, hdown⟩ := hval
  exact ⟨s, s', .of_exec hexec init_startBeats, hbeats, hmyvid, hrunning, hup, hs', hdown⟩

end SimpleDfs
