import SimpleDfs.Config.Upcall
import SimpleDfs.Paxos.Agreement

/-!
# The chain of views

The config modules of a cluster propose the next view through `add` and `removeWo`, to the members
of the view that they know of, and learn of the views that are decided through the upcalls. When
every request arrives timely and the names of the nodes are words, each view has one node more or
one node less than the view before (`view_chain`). The nodes of an instance are the members of the
view before it, which is known only once that view is decided: the setting of a run is built along
with it (`ChainInv`). Since `acceptreq` takes a late accept for the open instance, a view can be
decided twice (`late_accept_repeats_view`).
-/

namespace SimpleDfs

open Paxos Config

/-! ## Views that follow each other -/

variable {C : Chain} {args : RunArgs} {c : Config} {m : String} {k : ℕ}

/-- The view that `add` proposes follows the current one. -/
theorem nextView_add (hmems : ∀ x ∈ c.mems, IsWord x) (hnodup : c.mems.Nodup) (hm : IsWord m)
    (hnew : m ∉ c.mems) {vid : ℕ} (h : c.add m vid = some args) :
    args.inst = c.myvid + 1 ∧ args.cur_nodes = c.mems ∧
      NextView c.mems (members args.newv) := by
  unfold Config.add at h
  obtain ⟨-, ⟨⟩⟩ := Option.ite_none_left_eq_some.mp h
  refine ⟨rfl, rfl, ?_⟩
  show NextView c.mems (members (value (c.mems ++ [m])))
  rw [members_value (List.forall_mem_append.mpr ⟨hmems, List.forall_mem_singleton.mpr hm⟩)]
  refine ⟨by simp, ?_, Or.inl ⟨m, hnew, rfl⟩⟩
  rw [List.nodup_append]
  refine ⟨hnodup, List.nodup_singleton m, fun a ha b hb => ?_⟩
  rw [List.mem_singleton.mp hb]
  rintro rfl
  exact hnew ha

/-- The view that `remove_wo` proposes follows the current one, when another member is removed. -/
theorem nextView_removeWo (hmems : ∀ x ∈ c.mems, IsWord x) (hnodup : c.mems.Nodup) (hm : m ∈ c.mems)
    (hme : c.me ∈ c.mems) (hne : m ≠ c.me) :
    NextView c.mems (members (c.removeWo m).newv) := by
  have hfilter : (c.mems.filter fun x => x ≠ m) = c.mems.erase m := by
    rw [hnodup.erase_eq_filter]
    refine List.filter_congr fun x _ => ?_
    by_cases hx : x = m <;> simp [hx]
  show NextView c.mems (members (value (c.mems.filter fun x => x ≠ m)))
  rw [members_value fun x hx => hmems x (List.mem_of_mem_filter hx)]
  refine ⟨?_, hnodup.filter _, Or.inr ⟨m, hm, hfilter⟩⟩
  exact List.ne_nil_of_mem (List.mem_filter.mpr ⟨hme, by simpa using hne.symm⟩)

/-- `heartbeater` only finds other members dead. -/
theorem mem_of_heartbeatVictims {acc : Acceptor} (h : m ∈ c.heartbeatVictims acc) :
    c.me ∈ getViewWo acc c.myvid ∧
      m ∈ getViewWo acc c.myvid ∧ m ≠ c.me := by
  -- The smallest name is the node's own, or one of the view.
  have hsmall : ∀ (l : List String) (x : String),
      l.foldl (fun m x => if m > x then x else m) x = x ∨
        l.foldl (fun m x => if m > x then x else m) x ∈ l := by
    intro l
    induction l with
    | nil => exact fun _ => Or.inl rfl
    | cons y l ih =>
      intro x
      rw [List.foldl_cons]
      rcases ih (if x > y then y else x) with heq | hmem
      · rw [heq]
        split_ifs
        · exact Or.inr List.mem_cons_self
        · exact Or.inl rfl
      · exact Or.inr (List.mem_cons_of_mem _ hmem)
  unfold Config.heartbeatVictims at h
  dsimp only at h
  split_ifs at h with hme hself
  · obtain ⟨hmem, hne⟩ := List.mem_filter.mp h
    exact ⟨isamember_iff.mp hme, hmem, by simpa using hne⟩
  · obtain rfl := List.mem_singleton.mp h
    refine ⟨isamember_iff.mp hme, ?_, hself⟩
    exact (hsmall _ _).resolve_left hself
  · cases h

/-! ## The cluster with its config modules -/

/-- A cluster with the config modules of its nodes. -/
structure ConfigCluster where
  /-- The Paxos nodes and their messages. -/
  paxos : Cluster
  /-- The config modules by the names of their nodes. -/
  cfg : String → Config
  /-- The calls of `proposer::run` that a config module is about to make: it gives up its mutex
  before. -/
  asked : String → List RunArgs

/-- What happens in the cluster. -/
inductive ViewEvent where
  /-- A step of a proposer, or of the network. -/
  | paxos (e : Event)
  /-- `config::add` at node `p`, called by `rsm::joinreq` for a node that is not in the view. -/
  | add (p m : String) (vid : ℕ)
  /-- `config::remove_wo` at node `p`, called by `config::heartbeater`. -/
  | remove (p m : String)
  /-- The `k`-th pending call of `proposer::run` at node `p`. -/
  | run (p : String) (k : ℕ)
  /-- The `k`-th pending upcall of node `p` runs. -/
  | upcall (p : String) (k : ℕ)
  deriving DecidableEq, Repr

namespace ConfigCluster

/-- The config module of node `p` is about to call the proposer. -/
def ask (s : ConfigCluster) (p : String) (args : RunArgs) : ConfigCluster :=
  { s with asked := Function.update s.asked p (s.asked p ++ [args]) }

/-- The cluster after an event, when it is possible. The runs and the upcalls are events of their
own, and not those of the Paxos nodes. -/
def next (s : ConfigCluster) : ViewEvent → Option ConfigCluster
  | .paxos (.run _ _) | .paxos (.upcall _ _) => none
  | .paxos e => (s.paxos.next e).map fun c => { s with paxos := c }
  | .add p m vid =>
    if Config.ismember (s.paxos.node p).acc m vid = false then
      some (((s.cfg p).add m vid).elim s (s.ask p))
    else none
  | .remove p m =>
    if m ∈ (s.cfg p).heartbeatVictims (s.paxos.node p).acc then
      some (s.ask p ((s.cfg p).removeWo m))
    else none
  | .run p k => (s.asked p)[k]?.bind fun args =>
    (s.paxos.next (.run p args)).map fun c =>
      { s with paxos := c, asked := Function.update s.asked p ((s.asked p).eraseIdx k) }
  | .upcall p k => (s.paxos.node p).upcalls[k]?.bind fun u =>
    (s.paxos.next (.upcall p k)).map fun c =>
      { s with paxos := c, cfg := Function.update s.cfg p ((s.cfg p).paxosCommit u.inst u.value) }

end ConfigCluster

/-- The views decided before a run, and how many of them each node knows. -/
structure Chain where
  /-- The number of the last view of each node. -/
  base : String → ℕ
  /-- The views. -/
  hist : ℕ → String
  /-- There is no view before the first one. -/
  hist_zero : hist 0 = ""
  /-- The first view has no duplicates. -/
  first : ∀ d, 1 ≤ base d → (members (hist 1)).Nodup
  /-- The views follow each other. -/
  next : ∀ k d, 1 ≤ k → k + 1 ≤ base d → NextView (members (hist k)) (members (hist (k + 1)))
  /-- A view is known in every majority of the view before it. -/
  known : ∀ k d, k + 1 ≤ base d → ∀ T, majority (members (hist k)) T = true →
    ∃ d' ∈ T, k + 1 ≤ base d'

/-- The cluster of nodes that know the views of a chain, with nothing under way. -/
def viewSystem (C : Chain) : System ConfigCluster ViewEvent where
  init s := s.paxos.calls = [] ∧ s.paxos.replies = [] ∧ ∀ p, s.asked p = [] ∧
    ∃ acc : Acceptor, s.paxos.node p = Node.start acc ∧ s.cfg p = Config.construct p acc ∧
      acc.me = p ∧ acc.instance_h = C.base p ∧ (∀ i ≤ C.base p, acc.values i = C.hist i) ∧
      acc.n_h = ⟨0, p⟩ ∧ acc.n_a = ⟨0, p⟩ ∧ acc.v_a = ""
  step := ConfigCluster.next

/-- The runs in which every request arrives timely, no proposal counter overflows, and the name of a
node that joins is one word: `members` reads a name with a blank in it as two. -/
def ViewsInStep (s : ConfigCluster) : ViewEvent → Prop
  | .paxos e => ArriveTimely s.paxos e
  | .run p _ => (s.paxos.node p).pro.my_n.n + 1 ≠ 0
  | .add _ m _ => IsWord m
  | _ => True

instance (s : ConfigCluster) : ∀ e, Decidable (ViewsInStep s e)
  | .paxos e => inferInstanceAs (Decidable (ArriveTimely s.paxos e))
  | .run p _ => inferInstanceAs (Decidable ((s.paxos.node p).pro.my_n.n + 1 ≠ 0))
  | .add _ m _ => inferInstanceAs (Decidable (IsWord m))
  | .remove _ _ | .upcall _ _ => inferInstanceAs (Decidable True)

/-! ## The setting of a run -/

/-- Node lists that are the members of the views decided before the run. -/
def Chain.Matches (C : Chain) (nodes : ℕ → List String) : Prop :=
  ∀ k d, k ≤ C.base d → nodes (k + 1) = members (C.hist k)

/-- The setting in which the nodes of each instance are given, and each view that is proposed
follows them. -/
def Chain.setting (C : Chain) (nodes : ℕ → List String) (h : C.Matches nodes) : Setting where
  nodes := nodes
  proposal i v := NextView (nodes i) (members v)
  base := C.base
  hist := C.hist
  proposal_ne i v hv := by
    rintro rfl
    exact hv.ne (by decide)
  known i d hi T hT := by
    cases i with
    | zero =>
      cases T with
      | nil => rw [not_majority_nil] at hT; cases hT
      | cons d' T => exact ⟨d', List.mem_cons_self, Nat.zero_le _⟩
    | succ k =>
      rw [h k d (by omega)] at hT
      exact C.known k d hi T hT

/-- The acceptor `acc'` has all values of `acc`. -/
structure Extends (acc acc' : Acceptor) : Prop where
  /-- No instance is lost. -/
  instance_h : acc.instance_h ≤ acc'.instance_h
  /-- No value is changed. -/
  values : ∀ i ≤ acc.instance_h, acc'.values i = acc.values i

/-- Nothing is lost when no upcall runs. -/
theorem Moves.extends {n n' : Node} (h : Moves n n') : Extends n.acc n'.acc := by
  cases h with
  | same hinst hvals _ => exact ⟨hinst.ge, fun i _ => by rw [hvals]⟩
  | commit inst v _ hacc _ =>
    rw [hacc]
    exact ⟨instance_h_le_commitWo _ _ _, fun i hi => values_commitWo _ _ _ hi⟩

/-- A proposer that takes a reply commits nothing, or an old instance. -/
theorem moves_receive (n : Node) (res : Res) : Moves n (n.receive res) := by
  unfold Node.receive
  split
  · split_ifs
    · exact Moves.commit _ _ true rfl rfl
    · exact Moves.commit _ _ true rfl rfl
    all_goals exact Moves.same rfl rfl rfl
  all_goals exact Moves.same rfl rfl rfl

/-- Every event but an upcall moves the nodes. -/
theorem moves_next {s s' : Cluster} {e : Event} (he : ∀ p k, e ≠ .upcall p k)
    (hs : s.next e = some s') (q : String) : Moves (s.node q) (s'.node q) := by
  -- The other nodes stay as they are.
  have hset : ∀ {p n}, Moves (s.node p) n → ∀ q, Moves (s.node q) ((s.set p n).node q) :=
    fun hp => Cluster.forall_set (Q := fun q n => Moves (s.node q) n) hp
      fun _ _ => Moves.same rfl rfl rfl
  cases e with
  | run p args =>
    obtain ⟨-, ⟨⟩⟩ := Option.ite_none_left_eq_some.mp hs
    refine hset ?_ q
    exact Moves.same rfl rfl rfl
  | send p =>
    simp only [Cluster.next] at hs
    split_ifs at hs
    obtain ⟨⟨d, req⟩, -, rfl⟩ := Option.map_eq_some_iff.mp hs
    refine hset ?_ q
    exact Moves.same rfl rfl rfl
  | skip p =>
    obtain ⟨-, ⟨⟩⟩ := Option.ite_none_left_eq_some.mp hs
    refine hset ?_ q
    exact Moves.same rfl rfl rfl
  | handle k =>
    obtain ⟨c, -, hs⟩ := Option.bind_eq_some_iff.mp hs
    obtain ⟨-, ⟨⟩⟩ := Option.ite_none_left_eq_some.mp hs
    exact hset (moves_handle _ _) q
  | reply k =>
    obtain ⟨r, -, hs⟩ := Option.bind_eq_some_iff.mp hs
    obtain ⟨-, ⟨⟩⟩ := Option.ite_none_left_eq_some.mp hs
    exact hset (moves_receive _ _) q
  | upcall p k => exact absurd rfl (he p k)

/-- An upcall leaves the acceptors alone, and is no longer pending. -/
theorem upcall_next {s s' : Cluster} {p : String} (hs : s.next (.upcall p k) = some s') :
    (∀ q, (s'.node q).acc = (s.node q).acc) ∧
      (∀ q, q ≠ p → (s'.node q).upcalls = (s.node q).upcalls) ∧
      (s'.node p).upcalls = (s.node p).upcalls.eraseIdx k := by
  obtain ⟨u, -, hs⟩ := Option.bind_eq_some_iff.mp hs
  obtain ⟨-, ⟨⟩⟩ := Option.ite_none_left_eq_some.mp hs
  obtain ⟨hacc, hup⟩ := upcalled_eq (s.node p) k u
  refine ⟨Cluster.forall_set (Q := fun q n => n.acc = (s.node q).acc) hacc fun _ _ => rfl, ?_, ?_⟩
  · intro q hq
    rw [s.set_node_of_ne hq]
  · rw [s.set_node_self]
    exact hup

/-- No event loses a value. -/
theorem extends_next {s s' : Cluster} {e : Event} (hs : s.next e = some s') (q : String) :
    Extends (s.node q).acc (s'.node q).acc := by
  by_cases he : ∃ p k, e = .upcall p k
  · obtain ⟨p, k, rfl⟩ := he
    rw [(upcall_next hs).1 q]
    exact ⟨le_rfl, fun _ _ => rfl⟩
  · push Not at he
    exact (moves_next he hs q).extends

section Setting

variable {C : Chain} {nodes nodes' : ℕ → List String} {h : C.Matches nodes} {h' : C.Matches nodes'}

/-- A run starts in an instance whose predecessor its node has, so that only the node lists of these
instances matter. -/
theorem inStep_of_eq {s : Cluster} {e : Event} (hG : InStep (C.setting nodes h) s e)
    (hzero : nodes' 0 = nodes 0)
    (hsame : ∀ k q, k ≤ (s.node q).acc.instance_h → nodes' (k + 1) = nodes (k + 1)) :
    InStep (C.setting nodes' h') s e := by
  refine ⟨?_, hG.2⟩
  cases e with
  | run p args =>
    obtain ⟨hnodes, hprop, hinst, hwrap⟩ := hG.1
    have heq : nodes' args.inst = nodes args.inst := by
      cases hi : args.inst with
      | zero => exact hzero
      | succ k => exact hsame k p (by omega)
    refine ⟨?_, ?_, hinst, hwrap⟩
    · show args.cur_nodes = nodes' args.inst
      rw [heq]
      exact hnodes
    · show NextView (nodes' args.inst) (members args.newv)
      rw [heq]
      exact hprop
  | send p | skip p | handle k | reply k | upcall p k => trivial

/-- A run stays one when node lists change of which no instance was started. -/
theorem steps_of_eq {s₀ s : Cluster}
    (hs : (paxosSystem (C.setting nodes h)).Steps (InStep (C.setting nodes h)) s₀ s)
    (hzero : nodes' 0 = nodes 0)
    (hsame : ∀ k q, k ≤ (s.node q).acc.instance_h → nodes' (k + 1) = nodes (k + 1)) :
    (paxosSystem (C.setting nodes' h')).Steps (InStep (C.setting nodes' h')) s₀ s := by
  induction hs with
  | refl => exact Relation.ReflTransGen.refl
  | tail _ hlast ih =>
    obtain ⟨e, hG, he⟩ := hlast
    -- The node lists that mattered before the last event matter after it.
    have hsame' : ∀ k q, k ≤ _ → nodes' (k + 1) = nodes (k + 1) := fun k q hk =>
      hsame k q (hk.trans (extends_next he q).instance_h)
    exact (ih hsame').tail ⟨e, inStep_of_eq hG hzero hsame', he⟩

/-- The nodes of an instance are the members of the view before it. -/
def FollowViews (nodes : ℕ → List String) (s : Cluster) : Prop :=
  ∀ p k, k ≤ (s.node p).acc.instance_h → nodes (k + 1) = members ((s.node p).acc.values k)

/-- The node lists can be continued along an event: a view that is decided gives the nodes of the
instance after it. -/
theorem exists_followViews {s s' : Cluster} {e : Event}
    (hreach : (paxosSystem (C.setting nodes h)).Reachable (InStep (C.setting nodes h)) s)
    (hviews : FollowViews nodes s) (hG : InStep (C.setting nodes h) s e)
    (hs : s.next e = some s') :
    ∃ nodes' h', (paxosSystem (C.setting nodes' h')).Reachable (InStep (C.setting nodes' h')) s' ∧
      FollowViews nodes' s' := by
  classical
  have hinv' : Inv (C.setting nodes h) s' := inv_next (inv_of_reachable hreach) hG hs
  have hbase : ∀ d, C.base d ≤ (s.node d).acc.instance_h := fun d =>
    ((inv_of_reachable hreach).acceptor d).base
  -- The view `k` is new when no node had it.
  let nodes' : ℕ → List String := fun i =>
    if hnew : (∃ q, i - 1 ≤ (s'.node q).acc.instance_h) ∧
        ∀ q, (s.node q).acc.instance_h < i - 1 then
      members ((s'.node hnew.1.choose).acc.values (i - 1))
    else nodes i
  have hold : ∀ k q, k ≤ (s.node q).acc.instance_h → nodes' (k + 1) = nodes (k + 1) := by
    intro k q hk
    refine dif_neg fun hnew => ?_
    have := hnew.2 q
    omega
  have hzero : nodes' 0 = nodes 0 := by
    refine dif_neg fun hnew => ?_
    have := hnew.2 ""
    omega
  have hmatch : C.Matches nodes' := fun k d hk =>
    (hold k d (hk.trans (hbase d))).trans (h k d hk)
  refine ⟨nodes', hmatch, ?_, fun p k hk => ?_⟩
  · obtain ⟨s₀, hinit, hsteps⟩ := hreach
    exact ⟨s₀, hinit, (steps_of_eq hsteps hzero hold).tail ⟨e, inStep_of_eq hG hzero hold, hs⟩⟩
  · by_cases hknown : ∃ q, k ≤ (s.node q).acc.instance_h
    · -- A view that a node had before the event, by agreement after it.
      obtain ⟨q, hq⟩ := hknown
      have hq' := hq.trans (extends_next hs q).instance_h
      calc nodes' (k + 1) = nodes (k + 1) := hold k q hq
        _ = members ((s.node q).acc.values k) := hviews q k hq
        _ = members ((s'.node q).acc.values k) := by rw [(extends_next hs q).values k hq]
        _ = members ((s'.node p).acc.values k) := by rw [hinv'.values_eq hq' hk]
    · -- A new view: the node lists are read off one node that has it, and all others agree.
      push Not at hknown
      have hnew : (∃ q, k + 1 - 1 ≤ (s'.node q).acc.instance_h) ∧
          ∀ q, (s.node q).acc.instance_h < k + 1 - 1 := ⟨⟨p, hk⟩, hknown⟩
      have hq : k ≤ (s'.node hnew.1.choose).acc.instance_h := hnew.1.choose_spec
      calc nodes' (k + 1) = members ((s'.node hnew.1.choose).acc.values k) := dif_pos hnew
        _ = members ((s'.node p).acc.values k) := by rw [hinv'.values_eq hq hk]

end Setting

/-! ## The chain -/

/-- The arguments of a call of the proposer are about a view that the node has, and a view that
follows it. -/
def AskedInv (acc : Acceptor) (args : RunArgs) : Prop :=
  ∃ k ≤ acc.instance_h, args.inst = k + 1 ∧ args.cur_nodes = members (acc.values k) ∧
    NextView (members (acc.values k)) (members args.newv)

/-- What a config module asked for stays in order when its acceptor moves on. -/
theorem AskedInv.extends {acc acc' : Acceptor} (h : AskedInv acc args) (he : Extends acc acc') :
    AskedInv acc' args := by
  obtain ⟨k, hk, hinst, hnodes, hnext⟩ := h
  refine ⟨k, hk.trans he.instance_h, hinst, ?_, ?_⟩
  · rw [he.values k hk]
    exact hnodes
  · rw [he.values k hk]
    exact hnext

/-- What holds of the config module of node `p`. -/
structure ConfigInv (p : String) (n : Node) (cfg : Config) (asked : List RunArgs) : Prop where
  /-- It has the node's name. -/
  me : cfg.me = p
  /-- It is at a view of the acceptor. -/
  follows : Follows n.acc n.upcalls cfg
  /-- What it asked for is in order. -/
  asked : ∀ args ∈ asked, AskedInv n.acc args

/-- What holds in every state of a run. -/
structure ChainInv (C : Chain) (s : ConfigCluster) : Prop where
  /-- The Paxos nodes run in the setting that the views give. -/
  paxos : ∃ nodes h, (paxosSystem (C.setting nodes h)).Reachable (InStep (C.setting nodes h))
    s.paxos ∧ FollowViews nodes s.paxos
  /-- The config modules. -/
  config : ∀ p, ConfigInv p (s.paxos.node p) (s.cfg p) (s.asked p)

/-- The views that nodes have follow each other. -/
theorem ChainInv.nextView {s : ConfigCluster} (h : ChainInv C s) (hk : 1 ≤ k) {d : String}
    (hd : k + 1 ≤ (s.paxos.node d).acc.instance_h) :
    NextView (members ((s.paxos.node d).acc.values k))
      (members ((s.paxos.node d).acc.values (k + 1))) := by
  obtain ⟨nodes, hmatch, hreach, hviews⟩ := h.paxos
  have hinv := inv_of_reachable hreach
  rw [← hviews d k (by omega)]
  -- The view was decided in the run, and so was proposed, or it was there before.
  rcases (hinv.acceptor d).values (k + 1) hd with ⟨b, hchosen⟩ | ⟨⟨d', hd'⟩, hhist⟩
  · exact hinv.proposal_of_chosenAt hchosen
  · have hd'' : k + 1 ≤ C.base d' := hd'
    rw [hhist, hmatch k d' (by omega)]
    exact C.next k d' hk hd''

/-- The views that nodes have are without duplicates. -/
theorem ChainInv.nodup {s : ConfigCluster} (h : ChainInv C s) {d : String}
    (hd : k ≤ (s.paxos.node d).acc.instance_h) :
    (members ((s.paxos.node d).acc.values k)).Nodup := by
  obtain ⟨nodes, hmatch, hreach, hviews⟩ := h.paxos
  have hinv := inv_of_reachable hreach
  rcases (hinv.acceptor d).values k hd with ⟨b, hchosen⟩ | ⟨⟨d', hd'⟩, hhist⟩
  · exact (hinv.proposal_of_chosenAt hchosen).nodup
  · rw [hhist]
    match k, hd' with
    | 0, _ =>
      show (members (C.hist 0)).Nodup
      rw [C.hist_zero]
      decide
    | 1, hd' => exact C.first d' hd'
    | k + 2, hd' => exact (C.next (k + 1) d' (by omega) hd').nodup

/-- A config module asks for a view that follows the one it is at. -/
theorem ChainInv.ask {s : ConfigCluster} (h : ChainInv C s) {p : String}
    (hinst : args.inst = (s.cfg p).myvid + 1) (hnodes : args.cur_nodes = (s.cfg p).mems)
    (hnext : NextView (s.cfg p).mems (members args.newv)) : ChainInv C (s.ask p args) := by
  refine ⟨h.paxos, fun q => ?_⟩
  have hq := h.config q
  refine ⟨hq.me, hq.follows, ?_⟩
  show ∀ a ∈ Function.update s.asked p (s.asked p ++ [args]) q, _
  by_cases hqp : q = p
  · subst hqp
    rw [Function.update_self]
    have hmems := hq.follows.mems
    refine List.forall_mem_append.mpr ⟨hq.asked, List.forall_mem_singleton.mpr ?_⟩
    exact ⟨_, hq.follows.myvid_le, hinst, hnodes.trans hmems, hmems ▸ hnext⟩
  · rw [Function.update_of_ne hqp]
    exact hq.asked

/-- Every event of a run in step keeps the invariant. -/
theorem chainInv_next {s s' : ConfigCluster} {e : ViewEvent} (h : ChainInv C s)
    (hG : ViewsInStep s e) (hs : s.next e = some s') : ChainInv C s' := by
  obtain ⟨nodes, hmatch, hreach, hviews⟩ := h.paxos
  -- The members that a config module has come from a view, and are distinct words.
  have hwords : ∀ p, ∀ x ∈ (s.cfg p).mems, IsWord x := by
    intro p x hx
    rw [(h.config p).follows.mems] at hx
    exact isWord_of_mem_members hx
  have hnodup : ∀ p, (s.cfg p).mems.Nodup := by
    intro p
    rw [(h.config p).follows.mems]
    exact h.nodup (h.config p).follows.myvid_le
  -- An event of the Paxos nodes that is no upcall leaves the config modules alone.
  have hmoves : ∀ {pe : Event} {c : Cluster} {asked : String → List RunArgs},
      s.paxos.next pe = some c → (∀ p k, pe ≠ .upcall p k) →
      InStep (C.setting nodes hmatch) s.paxos pe → (∀ q, asked q ⊆ s.asked q) →
      ChainInv C { s with paxos := c, asked := asked } := by
    intro pe c asked hnext hpe hin hsub
    refine ⟨exists_followViews hreach hviews hin hnext, fun q => ?_⟩
    have hq := h.config q
    have hm := moves_next hpe hnext q
    exact ⟨hq.me, hq.follows.moves hm,
      fun args hargs => (hq.asked args (hsub q hargs)).extends hm.extends⟩
  cases e with
  | paxos pe =>
    cases pe with
    | run p args => cases hs
    | upcall p k => cases hs
    | send p | skip p | handle k | reply k =>
      obtain ⟨c, hnext, rfl⟩ := Option.map_eq_some_iff.mp hs
      exact hmoves hnext (by simp) ⟨trivial, hG⟩ fun _ => List.Subset.refl _
  | add p m vid =>
    obtain ⟨hadd, ⟨⟩⟩ := Option.ite_none_right_eq_some.mp hs
    cases hargs : (s.cfg p).add m vid with
    | none => exact h
    | some args =>
      -- `joinreq` looked `m` up in the view `vid`, which is the one that `add` goes by.
      have hvid : vid = (s.cfg p).myvid := by
        by_contra hne
        simp [Config.add, hne] at hargs
      have hnew : m ∉ (s.cfg p).mems := by
        have hno := hadd
        rw [hvid] at hno
        rw [(h.config p).follows.mems]
        intro hmem
        rw [Config.ismember, Config.getViewWo, isamember_iff.mpr hmem] at hno
        cases hno
      obtain ⟨hinst, hnodes, hnext⟩ := nextView_add (hwords p) (hnodup p) hG hnew hargs
      exact h.ask hinst hnodes hnext
  | remove p m =>
    obtain ⟨hvictim, ⟨⟩⟩ := Option.ite_none_right_eq_some.mp hs
    -- The heartbeater looks at the view that the config module is at.
    obtain ⟨hme, hm, hne⟩ := mem_of_heartbeatVictims hvictim
    have hmems : (s.cfg p).mems = Config.getViewWo (s.paxos.node p).acc (s.cfg p).myvid :=
      (h.config p).follows.mems
    rw [← hmems] at hme hm
    exact h.ask rfl rfl (nextView_removeWo (hwords p) (hnodup p) hm hme hne)
  | run p k =>
    obtain ⟨args, hargs, hs⟩ := Option.bind_eq_some_iff.mp hs
    obtain ⟨c, hnext, rfl⟩ := Option.map_eq_some_iff.mp hs
    -- The run may start late: it is about a view that the node has, not about its last one.
    obtain ⟨j, hj, hinst, hcur, hview⟩ := (h.config p).asked args (List.mem_of_getElem? hargs)
    have heq : nodes args.inst = members ((s.paxos.node p).acc.values j) := by
      rw [hinst]
      exact hviews p j hj
    refine hmoves hnext (by simp) ⟨⟨?_, ?_, by omega, hG⟩, trivial⟩ fun q => ?_
    · exact hcur.trans heq.symm
    · show NextView (nodes args.inst) _
      rw [heq]
      exact hview
    · by_cases hqp : q = p
      · rw [hqp, Function.update_self]
        exact List.eraseIdx_subset
      · rw [Function.update_of_ne hqp]
        exact List.Subset.refl _
  | upcall p k =>
    obtain ⟨u, hu, hs⟩ := Option.bind_eq_some_iff.mp hs
    obtain ⟨c, hnext, rfl⟩ := Option.map_eq_some_iff.mp hs
    obtain ⟨hacc, hother, hself⟩ := upcall_next hnext
    refine ⟨exists_followViews (e := .upcall p k) hreach hviews ⟨trivial, trivial⟩ hnext,
      fun q => ?_⟩
    have hq := h.config q
    show ConfigInv q (c.node q) (Function.update s.cfg p _ q) (s.asked q)
    by_cases hqp : q = p
    · subst hqp
      rw [Function.update_self]
      refine ⟨hq.me, ?_, ?_⟩
      · rw [hacc, hself]
        exact hq.follows.upcall hu
      · rw [hacc]
        exact hq.asked
    · rw [Function.update_of_ne hqp]
      refine ⟨hq.me, ?_, ?_⟩
      · rw [hacc, hother q hqp]
        exact hq.follows
      · rw [hacc]
        exact hq.asked

/-- The invariant holds initially. -/
theorem chainInv_init {s : ConfigCluster} (hs : (viewSystem C).init s) :
    ChainInv C s := by
  obtain ⟨hcalls, hreplies, hnodes⟩ := hs
  have hmatch : C.Matches fun i => members (C.hist (i - 1)) := fun k _ _ => rfl
  refine ⟨⟨_, hmatch, System.Reachable.of_init ⟨hcalls, hreplies, fun p => ?_⟩, fun p k hk => ?_⟩,
    fun p => ?_⟩
  · obtain ⟨-, acc, hnode, -, hrest⟩ := hnodes p
    exact ⟨acc, hnode, hrest⟩
  · obtain ⟨-, acc, hnode, -, -, hinst, hvals, -⟩ := hnodes p
    rw [hnode] at hk ⊢
    show members (C.hist k) = members (acc.values k)
    rw [hvals k (hinst ▸ hk)]
  · obtain ⟨hasked, acc, hnode, hcfg, -, hinst, hvals, -⟩ := hnodes p
    rw [hnode, hcfg, hasked]
    unfold Config.construct Config.reconstruct
    split_ifs with hpos
    · exact ⟨rfl, ⟨by simp [Node.start], le_rfl, rfl⟩, by simp⟩
    · refine ⟨rfl, ⟨by simp [Node.start], Nat.zero_le _, ?_⟩, by simp⟩
      show [] = members (acc.values 0)
      rw [hvals 0 (Nat.zero_le _), C.hist_zero]
      decide

/-- In a run in which every request arrives timely and the nodes that join are called by words, the
views that a node has follow each other. -/
theorem view_chain {C : Chain} {s : ConfigCluster}
    (h : (viewSystem C).Reachable ViewsInStep s) {k : ℕ} (hk : 1 ≤ k) {d : String}
    (hd : k + 1 ≤ (s.paxos.node d).acc.instance_h) :
    NextView (members ((s.paxos.node d).acc.values k))
      (members ((s.paxos.node d).acc.values (k + 1))) := by
  have hinv : ChainInv C s := h.invariant (I := ChainInv C) (fun _ hinit => chainInv_init hinit)
    fun _ _ _ hI hG hs => chainInv_next hI hG hs
  exact hinv.nextView hk hd

/-- Nodes `1` and `2` know the view that has both of them. -/
def pairChain : Chain where
  base d := if d = "1" ∨ d = "2" then 2 else 0
  hist k := if k = 1 then "1" else if k = 2 then "1 2 " else ""
  hist_zero := rfl
  first _ _ := by decide
  next k d hk hd := by
    have hle : (if d = "1" ∨ d = "2" then 2 else 0) ≤ 2 := by split_ifs <;> omega
    obtain rfl : k = 1 := by omega
    exact ⟨by decide, by decide, Or.inl ⟨"2", by decide, by decide⟩⟩
  known k d hd T hT := by
    have hle : (if d = "1" ∨ d = "2" then 2 else 0) ≤ 2 := by split_ifs <;> omega
    match k with
    | 0 =>
      rw [show members (if 0 = 1 then "1" else if 0 = 2 then "1 2 " else "") = [] by decide] at hT
      simp [majority] at hT
    | 1 =>
      rw [show members (if 1 = 1 then "1" else if 1 = 2 then "1 2 " else "") = ["1"] by decide]
        at hT
      have hmem : "1" ∈ T := by
        by_contra hno
        simp [majority, isamember_iff, hno] at hT
      exact ⟨"1", hmem, by decide⟩
    | k + 2 => omega

/-- The two nodes before anything happens. -/
def pairStart : ConfigCluster where
  paxos := ⟨fun p => Node.start { Acceptor.fresh p "" with
    instance_h := pairChain.base p
    values := pairChain.hist }, [], []⟩
  cfg p := Config.construct p { Acceptor.fresh p "" with
    instance_h := pairChain.base p
    values := pairChain.hist }
  asked _ := []

/-- It is a start of their chain. -/
theorem init_pairStart : (viewSystem pairChain).init pairStart :=
  ⟨rfl, rfl, fun _ => ⟨rfl, _, rfl, rfl, rfl, rfl, fun _ _ => rfl, rfl, rfl, rfl⟩⟩

/-- Node `1` adds node `3`, and decides the third view at node `1`. -/
def addThird : List ViewEvent :=
  [.add "1" "3" 2, .run "1" 0] ++
    [.send "1", .handle 0, .reply 0, .send "1", .handle 1, .reply 1,
      .send "1", .handle 2, .reply 2, .send "1", .handle 3, .reply 3,
      .send "1", .handle 4, .reply 4].map ViewEvent.paxos

/-- The third view follows the second one. -/
theorem view_chain_add : ∃ s, (viewSystem pairChain).Reachable ViewsInStep s ∧
    members ((s.paxos.node "1").acc.values 3) = ["1", "2", "3"] ∧
      NextView (members ((s.paxos.node "1").acc.values 2))
        (members ((s.paxos.node "1").acc.values 3)) := by
  have hrun : ((viewSystem pairChain).execGuarded ViewsInStep pairStart addThird).map (fun s =>
      ((s.paxos.node "1").acc.instance_h, members ((s.paxos.node "1").acc.values 3))) =
      some (3, ["1", "2", "3"]) := by decide
  obtain ⟨s, hexec, hdata⟩ := Option.map_eq_some_iff.mp hrun
  obtain ⟨hinst, hview⟩ := Prod.mk.inj hdata
  have hreach := System.Reachable.of_execGuarded hexec init_pairStart
  exact ⟨s, hreach, hview, view_chain hreach (by decide) hinst.ge⟩

/-- Node `1` adds node `3`. Its first accept to itself is delayed, and it tries again; the third
view is decided with the second number. Then the delayed accept arrives, and is accepted in the
fourth instance. Node `1` adds node `4`, and the promise of node `1` makes it propose the third view
once more. -/
def lateAcceptView : List ViewEvent :=
  [.add "1" "3" 2, .run "1" 0] ++
    [.send "1", .handle 0, .reply 0, .send "1", .handle 1, .reply 1,
      .send "1", .skip "1", .send "1", .handle 3, .reply 2].map ViewEvent.paxos ++
  [.add "1" "3" 2, .run "1" 0] ++
    [.send "1", .handle 4, .reply 3, .send "1", .handle 5, .reply 4,
      .send "1", .handle 6, .reply 5, .send "1", .handle 7, .reply 6,
      .send "1", .handle 8].map ViewEvent.paxos ++
  [.upcall "1" 0, .paxos (.reply 7), .paxos (.send "1"), .paxos (.handle 9), .upcall "2" 0,
    .paxos (.reply 8), .paxos (.handle 2), .add "1" "4" 3, .run "1" 0] ++
    [.send "1", .handle 10, .reply 10, .send "1", .handle 11, .reply 11, .skip "1",
      .send "1", .handle 12, .reply 12, .send "1", .handle 13, .reply 13,
      .send "1", .handle 14].map ViewEvent.paxos

/-- The fourth view is the third one. -/
theorem late_accept_repeats_view : ∃ s,
    (viewSystem pairChain).exec pairStart lateAcceptView = some s ∧
      (viewSystem pairChain).Reachable System.anything s ∧
      4 ≤ (s.paxos.node "1").acc.instance_h ∧
      members ((s.paxos.node "1").acc.values 3) = ["1", "2", "3"] ∧
      members ((s.paxos.node "1").acc.values 4) = ["1", "2", "3"] ∧
      ¬ NextView (members ((s.paxos.node "1").acc.values 3))
        (members ((s.paxos.node "1").acc.values 4)) := by
  have hrun : ((viewSystem pairChain).exec pairStart lateAcceptView).map (fun s =>
      ((s.paxos.node "1").acc.instance_h, members ((s.paxos.node "1").acc.values 3),
        members ((s.paxos.node "1").acc.values 4))) =
      some (4, ["1", "2", "3"], ["1", "2", "3"]) := by decide
  obtain ⟨s, hexec, hdata⟩ := Option.map_eq_some_iff.mp hrun
  simp only [Prod.mk.injEq] at hdata
  obtain ⟨hinst, hthree, hfour⟩ := hdata
  refine ⟨s, hexec, .of_exec hexec init_pairStart, hinst.ge, hthree, hfour, fun hnext => ?_⟩
  rw [hthree, hfour] at hnext
  rcases hnext.one with ⟨m, -, heq⟩ | ⟨m, hm, heq⟩
  · simpa using congrArg List.length heq
  · have := congrArg List.length heq
    rw [List.length_erase_of_mem hm] at this
    simp at this

end SimpleDfs
