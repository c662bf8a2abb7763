import SimpleDfs.Config.Views
import SimpleDfs.Paxos.Restore

/-!
# The upcalls of one node

`commit_wo` gives up its mutex before it calls `config::paxos_commit`, so that several upcalls may
be pending at a node, and run in any order. A node whose upcalls each run for a later view than the
one that `config` is at follows its acceptor (`config_follows`). The code does not check this, and
an upcall that is overtaken takes `config` back (`upcalls_overtake`).
-/

namespace SimpleDfs

open Paxos

/-- A node with its config module. -/
structure ConfigNode where
  /-- The acceptor, the proposer and the upcalls. -/
  node : Node
  /-- The config module. -/
  cfg : Config

/-- What happens at a node. -/
inductive NodeEvent where
  /-- A request of another node, or its own, is handled. -/
  | handle (req : Req)
  /-- The proposer commits an old instance. -/
  | commit (inst : ℕ) (value : String)
  /-- The `k`-th pending upcall runs. -/
  | upcall (k : ℕ)
  deriving DecidableEq, Repr

/-- The `k`-th pending upcall runs. -/
def ConfigNode.upcall (n : ConfigNode) (k : ℕ) (u : Upcall) : ConfigNode :=
  ⟨n.node.upcalled k u, n.cfg.paxosCommit u.inst u.value⟩

/-- The node after an event, when it is possible. -/
def ConfigNode.next (n : ConfigNode) : NodeEvent → Option ConfigNode
  | .handle req => if n.node.down then none else some { n with node := (n.node.handle req).1 }
  | .commit inst value =>
    if n.node.down then none else some { n with node := n.node.commit inst value }
  | .upcall k => n.node.upcalls[k]?.bind fun u =>
    if n.node.down then none else some (n.upcall k u)

/-- A node with the name `me`, started on the log that an earlier start of it left. -/
def nodeSystem (first me : String) : System ConfigNode NodeEvent where
  init n := ∃ rs log acc, IsLog rs ∧ log.toList = logChars rs ∧
    Acceptor.construct (me == first) me me log = some acc ∧
    n = ⟨Node.start acc, Config.construct me acc⟩
  step := ConfigNode.next

/-- The runs in which no upcall is for a view that `config` has, or has passed. -/
def UpcallsInOrder (n : ConfigNode) : NodeEvent → Prop
  | .upcall k => ∀ u ∈ n.node.upcalls[k]?, n.cfg.myvid < u.inst
  | _ => True

instance (n : ConfigNode) : ∀ e, Decidable (UpcallsInOrder n e)
  | .upcall k => inferInstanceAs (Decidable (∀ u ∈ n.node.upcalls[k]?, n.cfg.myvid < u.inst))
  | .handle _ | .commit _ _ => inferInstanceAs (Decidable True)

/-- What relates the config module to the acceptor. -/
structure Follows (acc : Acceptor) (upcalls : List Upcall) (cfg : Config) : Prop where
  /-- An upcall is about a committed value. -/
  pending : ∀ u ∈ upcalls, u.inst ≤ acc.instance_h ∧ u.value = acc.values u.inst
  /-- The view is one of the acceptor's. -/
  myvid_le : cfg.myvid ≤ acc.instance_h
  /-- The members are those of the view. -/
  mems : cfg.mems = Config.members (acc.values cfg.myvid)

/-- The last view is known, or its upcall is pending. -/
def LastPending (acc : Acceptor) (upcalls : List Upcall) (cfg : Config) : Prop :=
  cfg.myvid = acc.instance_h ∨ ∃ u ∈ upcalls, u.inst = acc.instance_h

/-! ## The steps -/

/-- How the committed values of a node and its pending upcalls change when no upcall runs: not at
all, or by a commit. -/
inductive Moves (n n' : Node) : Prop
  /-- Nothing is committed. -/
  | same (instance_h : n'.acc.instance_h = n.acc.instance_h) (values : n'.acc.values = n.acc.values)
      (upcalls : n'.upcalls = n.upcalls)
  /-- An instance is committed, if it is a new one. -/
  | commit (inst : ℕ) (v : String) (proposer : Bool) (acc : n'.acc = n.acc.commitWo inst v)
      (upcalls : n'.upcalls = if n.acc.commitUpcalls inst then n.upcalls ++ [⟨inst, v, proposer⟩]
        else n.upcalls)

/-- A handler commits nothing, or the value accepted last. -/
theorem moves_handle (n : Node) (req : Req) : Moves n (n.handle req).1 := by
  cases req with
  | prepare arg =>
    obtain ⟨-, hinst, hvals⟩ := frame_preparereq n.acc arg
    exact Moves.same hinst hvals rfl
  | accept arg =>
    obtain ⟨-, hinst, hvals⟩ := frame_acceptreq n.acc arg
    exact Moves.same hinst hvals rfl
  | decide arg =>
    show Moves n (n.decidereq arg)
    -- The process is aborted, or the instance is an old one, or the next one is committed.
    have hcases : n.decidereq arg = { n with down := true } ∨ n.decidereq arg = n ∨
        n.decidereq arg = { n with
          acc := n.acc.commitWo arg.inst n.acc.v_a
          upcalls := if n.acc.commitUpcalls arg.inst then
            n.upcalls ++ [⟨arg.inst, n.acc.v_a, false⟩] else n.upcalls } := by
      unfold Node.decidereq Acceptor.decidereq
      by_cases hnext : arg.inst = n.acc.instance_h + 1
      · rw [if_pos hnext]
        by_cases hval : n.acc.v_a = arg.v
        · rw [if_pos hval]
          exact Or.inr (Or.inr rfl)
        · rw [if_neg hval]
          exact Or.inl rfl
      · rw [if_neg hnext]
        by_cases hold : arg.inst ≤ n.acc.instance_h
        · have hno : n.acc.commitUpcalls arg.inst = false := by
            simpa [Acceptor.commitUpcalls] using hold
          rw [if_pos hold, hno]
          exact Or.inr (Or.inl rfl)
        · rw [if_neg hold]
          exact Or.inl rfl
    rcases hcases with hn | hn | hn <;> rw [hn]
    · exact Moves.same rfl rfl rfl
    · exact Moves.same rfl rfl rfl
    · exact Moves.commit arg.inst n.acc.v_a false rfl rfl

section Steps

variable {acc : Acceptor} {upcalls : List Upcall} {cfg : Config} {n n' : Node}

/-- A commit keeps the values that are there. -/
theorem values_commitWo (acc : Acceptor) (inst : ℕ) (v : String) {i : ℕ} (hi : i ≤ acc.instance_h) :
    (acc.commitWo inst v).values i = acc.values i := by
  unfold Acceptor.commitWo
  split_ifs with hnew
  · show Function.update acc.values inst v i = acc.values i
    rw [Function.update_of_ne (by omega)]
  · rfl

/-- A commit of a new instance sets its value. -/
theorem values_commitWo_self {acc : Acceptor} {inst : ℕ} (hnew : acc.instance_h < inst)
    (v : String) :
    (acc.commitWo inst v).instance_h = inst ∧ (acc.commitWo inst v).values inst = v := by
  unfold Acceptor.commitWo
  rw [if_pos hnew]
  refine ⟨rfl, ?_⟩
  show Function.update acc.values inst v inst = v
  rw [Function.update_self]

/-- The relation is kept when no upcall runs. -/
theorem Follows.moves (h : Follows n.acc n.upcalls cfg) (hm : Moves n n') :
    Follows n'.acc n'.upcalls cfg := by
  cases hm with
  | same hinst hvals hup =>
    refine ⟨fun u hu => ?_, hinst ▸ h.myvid_le, hvals ▸ h.mems⟩
    rw [hinst, hvals]
    exact h.pending u (hup ▸ hu)
  | commit inst v proposer hacc hup =>
    -- The views that are there keep their values, and the new one has its own upcall.
    have hle := instance_h_le_commitWo n.acc inst v
    rw [hacc]
    refine ⟨fun u hu => ?_, h.myvid_le.trans hle, ?_⟩
    · have hold : ∀ u ∈ n.upcalls, u.inst ≤ (n.acc.commitWo inst v).instance_h ∧
          u.value = (n.acc.commitWo inst v).values u.inst := by
        intro u hu
        obtain ⟨hi, hval⟩ := h.pending u hu
        exact ⟨hi.trans hle, hval.trans (values_commitWo _ _ _ hi).symm⟩
      rw [hup] at hu
      split_ifs at hu with hnew
      · rcases List.mem_append.mp hu with hu | hu
        · exact hold u hu
        · obtain rfl := List.mem_singleton.mp hu
          obtain ⟨hi, hval⟩ := values_commitWo_self (of_decide_eq_true hnew) v
          exact ⟨hi.ge, hval.symm⟩
      · exact hold u hu
    · rw [values_commitWo _ _ _ h.myvid_le]
      exact h.mems

/-- The last view stays pending when no upcall runs, or a later one is. -/
theorem LastPending.moves (h : LastPending n.acc n.upcalls cfg) (hm : Moves n n') :
    LastPending n'.acc n'.upcalls cfg := by
  cases hm with
  | same hinst hvals hup =>
    unfold LastPending
    rw [hinst, hup]
    exact h
  | commit inst v proposer hacc hup =>
    rw [hacc, hup]
    by_cases hnew : n.acc.instance_h < inst
    · -- The view is the last one now, and its upcall is pending.
      have hyes : n.acc.commitUpcalls inst = true := decide_eq_true hnew
      rw [if_pos hyes]
      exact Or.inr ⟨_, List.mem_append_right _ (List.mem_singleton.mpr rfl),
        (values_commitWo_self hnew v).1.symm⟩
    · have hno : n.acc.commitUpcalls inst = false := decide_eq_false hnew
      rw [hno, Acceptor.commitWo, if_neg hnew]
      exact h

/-- An upcall that runs leaves the config module at its view. -/
theorem Follows.upcall (h : Follows acc upcalls cfg) {k : ℕ} {u : Upcall}
    (hu : upcalls[k]? = some u) :
    Follows acc (upcalls.eraseIdx k) (cfg.paxosCommit u.inst u.value) := by
  obtain ⟨hle, hval⟩ := h.pending u (List.mem_of_getElem? hu)
  exact ⟨fun u' hu' => h.pending u' (List.mem_of_mem_eraseIdx hu'), hle,
    congrArg Config.members hval⟩

/-- An upcall for a later view is the last one, or the last one stays pending. -/
theorem LastPending.upcall (h : LastPending acc upcalls cfg) (hF : Follows acc upcalls cfg) {k : ℕ}
    {u : Upcall} (hu : upcalls[k]? = some u) (hlt : cfg.myvid < u.inst) :
    LastPending acc (upcalls.eraseIdx k) (cfg.paxosCommit u.inst u.value) := by
  have hle := (hF.pending u (List.mem_of_getElem? hu)).1
  by_cases hlast : u.inst = acc.instance_h
  · exact Or.inl hlast
  · rcases h with hat | ⟨u', hu', hinst⟩
    · -- `config` would be at the last view already, and the upcall is for a later one.
      omega
    · -- The upcall that is pending for the last view is another one.
      refine Or.inr ⟨u', ?_, hinst⟩
      obtain ⟨j, hj⟩ := List.getElem?_of_mem hu'
      refine List.mem_eraseIdx_iff_getElem?.mpr ⟨j, ?_, hj⟩
      rintro rfl
      rw [hu] at hj
      exact hlast (Option.some.inj hj ▸ hinst)

/-- What an upcall that runs leaves of its node. -/
theorem upcalled_eq (n : Node) (k : ℕ) (u : Upcall) : (n.upcalled k u).acc = n.acc ∧
    (n.upcalled k u).upcalls = n.upcalls.eraseIdx k := by
  unfold Node.upcalled
  dsimp only
  split_ifs <;> exact ⟨rfl, rfl⟩

end Steps

/-- What holds in every state of a run. -/
def NodeInv (n : ConfigNode) : Prop :=
  Follows n.node.acc n.node.upcalls n.cfg ∧ LastPending n.node.acc n.node.upcalls n.cfg

/-- Every event with upcalls in order keeps the invariant. -/
theorem nodeInv_next {n n' : ConfigNode} {e : NodeEvent} (h : NodeInv n) (hG : UpcallsInOrder n e)
    (hs : n.next e = some n') : NodeInv n' := by
  obtain ⟨hF, hL⟩ := h
  cases e with
  | handle req =>
    simp only [ConfigNode.next] at hs
    split_ifs at hs
    rw [← Option.some.inj hs]
    exact ⟨hF.moves (moves_handle n.node req), hL.moves (moves_handle n.node req)⟩
  | commit inst v =>
    simp only [ConfigNode.next] at hs
    split_ifs at hs
    rw [← Option.some.inj hs]
    have hm : Moves n.node (n.node.commit inst v) := Moves.commit inst v true rfl rfl
    exact ⟨hF.moves hm, hL.moves hm⟩
  | upcall k =>
    obtain ⟨u, hu, hs⟩ := Option.bind_eq_some_iff.mp hs
    split_ifs at hs
    rw [← Option.some.inj hs]
    obtain ⟨hacc, hup⟩ := upcalled_eq n.node k u
    show Follows _ _ _ ∧ LastPending _ _ _
    simp only [ConfigNode.upcall, hacc, hup]
    exact ⟨hF.upcall hu, hL.upcall hF hu (hG u hu)⟩

/-- A node that starts on its log is at the last view of it. -/
theorem nodeInv_init {first me : String} {n : ConfigNode} (h : (nodeSystem first me).init n) :
    NodeInv n := by
  obtain ⟨rs, log, acc, hrs, htext, hcons, rfl⟩ := h
  -- No log decides the instance `0`, so that a node without views has no members.
  have hzero : acc.instance_h = 0 → acc.values 0 = "" := by
    intro hinst
    have hread : (Acceptor.fresh me log).logread = some (replayAll rs (.fresh me log)) :=
      logread_eq_replay hrs.wellFormed htext
    simp only [Acceptor.construct, hread, Option.map_some, Option.some.injEq] at hcons
    split_ifs at hcons
    · rw [← hcons] at hinst
      cases hinst
    · rw [← hcons]
      refine replayAll_values_of_notMem (fun hmem => ?_) _
      exact absurd (hrs.positive 0 hmem) (by decide)
  unfold Config.construct Config.reconstruct
  split_ifs with hpos
  · exact ⟨⟨by simp [Node.start], le_rfl, rfl⟩, Or.inl rfl⟩
  · have hinst : acc.instance_h = 0 := by omega
    refine ⟨⟨by simp [Node.start], Nat.zero_le _, ?_⟩, Or.inl hinst.symm⟩
    show [] = Config.members (acc.values 0)
    rw [hzero hinst]
    decide

/-- In a run in which every upcall is for a later view than the one that `config` is at, `config`
never goes back and, when no upcall is pending, it is at the last view of the acceptor. -/
theorem config_follows {first me : String} {n n' : ConfigNode}
    (h : (nodeSystem first me).Reachable UpcallsInOrder n)
    (hs : (nodeSystem first me).Steps UpcallsInOrder n n') :
    n.cfg.myvid ≤ n'.cfg.myvid ∧ (n'.node.upcalls = [] →
      n'.cfg.myvid = n'.node.acc.instance_h ∧
        n'.cfg.mems = Config.members (n'.node.acc.values n'.node.acc.instance_h)) := by
  have hkeep : ∀ a e b, NodeInv a → UpcallsInOrder a e → a.next e = some b → NodeInv b :=
    fun _ _ _ hI hG hstep => nodeInv_next hI hG hstep
  have hinv : NodeInv n := h.invariant (I := NodeInv) (fun _ hinit => nodeInv_init hinit) hkeep
  refine ⟨?_, fun hnone => ?_⟩
  · -- Only an upcall changes the view, and the condition says that it is a later one.
    refine hs.relation (I := NodeInv) (R := fun a b => a.cfg.myvid ≤ b.cfg.myvid)
      (fun _ => le_rfl) (fun _ _ _ => le_trans) hkeep (fun a e b _ hG hstep => ?_) hinv
    cases e with
    | handle req =>
      simp only [nodeSystem, ConfigNode.next] at hstep
      split_ifs at hstep
      rw [← Option.some.inj hstep]
    | commit inst v =>
      simp only [nodeSystem, ConfigNode.next] at hstep
      split_ifs at hstep
      rw [← Option.some.inj hstep]
    | upcall k =>
      obtain ⟨u, hu, hstep⟩ := Option.bind_eq_some_iff.mp hstep
      split_ifs at hstep
      rw [← Option.some.inj hstep]
      exact (hG u hu).le
  · obtain ⟨hF, hL⟩ := hs.preserves (I := NodeInv) hkeep hinv
    have hat : n'.cfg.myvid = n'.node.acc.instance_h := by
      rcases hL with hat | ⟨u, hu, -⟩
      · exact hat
      · rw [hnone] at hu
        cases hu
    exact ⟨hat, hat ▸ hF.mems⟩

/-- Two views are decided at node `1`, and their upcalls are pending. -/
def twoViews : List NodeEvent :=
  [.handle (.prepare ⟨2, ⟨1, "1"⟩⟩), .handle (.accept ⟨2, ⟨1, "1"⟩, "1 2 "⟩),
    .handle (.decide ⟨2, "1 2 "⟩), .handle (.prepare ⟨3, ⟨1, "2"⟩⟩),
    .handle (.accept ⟨3, ⟨1, "2"⟩, "1 2 3 "⟩), .handle (.decide ⟨3, "1 2 3 "⟩)]

/-- Node `1` starts as the first node. -/
theorem exists_init_first : ∃ acc, Acceptor.construct ("1" == "1") "1" "1" "" = some acc ∧
    (nodeSystem "1" "1").init ⟨Node.start acc, Config.construct "1" acc⟩ := by
  obtain ⟨acc, hacc⟩ := Option.isSome_iff_exists.mp
    (by decide : (Acceptor.construct ("1" == "1") "1" "1" "").isSome = true)
  exact ⟨acc, hacc, [], "", acc, ⟨by simp, by simp, by simp⟩, rfl, hacc, rfl⟩

/-- The upcalls of the two views run in their order, and `config` is at the last view. -/
theorem config_follows_two_views : ∃ n n',
    (nodeSystem "1" "1").Reachable UpcallsInOrder n ∧
      (nodeSystem "1" "1").Steps UpcallsInOrder n n' ∧
      n.cfg.myvid = 1 ∧ n'.node.upcalls = [] ∧ n'.node.acc.instance_h = 3 ∧
      n.cfg.myvid ≤ n'.cfg.myvid ∧ n'.cfg.myvid = n'.node.acc.instance_h := by
  obtain ⟨acc, hacc, hinit⟩ := exists_init_first
  have hrun : ((Acceptor.construct ("1" == "1") "1" "1" "").bind fun acc =>
      ((nodeSystem "1" "1").execGuarded UpcallsInOrder ⟨Node.start acc, Config.construct "1" acc⟩
        (twoViews ++ [.upcall 0, .upcall 0])).map fun n =>
        ((Config.construct "1" acc).myvid, n.node.upcalls, n.node.acc.instance_h)) =
      some (1, [], 3) := by decide
  rw [hacc, Option.bind_some] at hrun
  obtain ⟨n', hexec, hdata⟩ := Option.map_eq_some_iff.mp hrun
  simp only [Prod.mk.injEq] at hdata
  obtain ⟨hone, hnone, hthree⟩ := hdata
  have hreach := System.Reachable.of_init (G := UpcallsInOrder) hinit
  have hsteps := System.steps_of_execGuarded hexec
  obtain ⟨hle, hlast⟩ := config_follows hreach hsteps
  exact ⟨_, n', hreach, hsteps, hone, hnone, hthree, hle, (hlast hnone).1⟩

/-- The upcall of the third view runs before the one of the second: `config` goes back to the second
view, and stays there when no upcall is pending any more. -/
theorem upcalls_overtake : ∃ n n',
    (nodeSystem "1" "1").Reachable System.anything n ∧ n.next (.upcall 0) = some n' ∧
      n.cfg.myvid = 3 ∧ n'.cfg.myvid = 2 ∧ n'.node.upcalls = [] ∧ n'.node.acc.instance_h = 3 ∧
      n'.cfg.mems = ["1", "2"] ∧
      Config.members (n'.node.acc.values n'.node.acc.instance_h) = ["1", "2", "3"] := by
  obtain ⟨acc, hacc, hinit⟩ := exists_init_first
  have hrun : ((Acceptor.construct ("1" == "1") "1" "1" "").bind fun acc =>
      ((nodeSystem "1" "1").exec ⟨Node.start acc, Config.construct "1" acc⟩
        (twoViews ++ [.upcall 1])).bind fun n => (n.next (.upcall 0)).map fun n' =>
        ([n.cfg.myvid, n'.cfg.myvid, n'.node.acc.instance_h], n'.node.upcalls,
          [n'.cfg.mems, Config.members (n'.node.acc.values n'.node.acc.instance_h)])) =
      some ([3, 2, 3], [], [["1", "2"], ["1", "2", "3"]]) := by decide
  rw [hacc, Option.bind_some] at hrun
  obtain ⟨n, hexec, hrun⟩ := Option.bind_eq_some_iff.mp hrun
  obtain ⟨n', hlast, hdata⟩ := Option.map_eq_some_iff.mp hrun
  simp only [Prod.mk.injEq, List.cons.injEq, and_true] at hdata
  obtain ⟨⟨hthree, htwo, hinst⟩, hnone, hmems, hmembers⟩ := hdata
  exact ⟨n, n', .of_exec hexec hinit, hlast, hthree, htwo, hnone, hinst, hmems, hmembers⟩

end SimpleDfs
