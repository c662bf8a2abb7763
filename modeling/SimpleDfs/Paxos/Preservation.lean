import SimpleDfs.Paxos.Invariant

/-!
# Every event keeps the invariant

First what the handlers do to an acceptor, then what a change of one node, a call and a reply do to
a cluster, and from these that every event of a run under `InStep` keeps `Inv` (`inv_next`). So
`Inv` holds in every state that such a run reaches (`inv_of_reachable`).
-/

namespace SimpleDfs.Paxos

variable {P : Setting} {s : Cluster} {p : String} {c : Call} {n : Node}

/-! ## The acceptor -/

section Acceptor

variable {rs : List Reply} {d : String} {a : Acceptor}

/-- A commit of the next instance with the value decided. -/
theorem AcceptorInv.commitWo (h : AcceptorInv P rs d a) {inst : ℕ} {value : String}
    (hinst : inst ≤ a.instance_h + 1) (hdec : Decided P rs inst value) :
    AcceptorInv P rs d (a.commitWo inst value) := by
  unfold Acceptor.commitWo
  split_ifs with hnew
  swap
  · exact h
  have heq : inst = a.instance_h + 1 := by omega
  -- The commit opens the instance after `inst`, in which the node has not promised anything.
  refine ⟨?_, fun i b res hp => ?_, fun i b v ha => ?_, fun _ => rfl, fun hne => absurd rfl hne,
    h.report_le, h.promise_unique, fun i hi => ?_⟩
  · exact h.base.trans (le_of_lt hnew)
  · obtain ⟨hbase, hle, -⟩ := h.promised i b res hp
    exact ⟨hbase, by dsimp only; omega, fun hopen => by dsimp only at hopen; omega⟩
  · obtain ⟨hle, -⟩ := h.accepted i b v ha
    exact ⟨by dsimp only; omega, fun hopen => by dsimp only at hopen; omega⟩
  · show Decided P rs i (Function.update a.values inst value i)
    by_cases hi' : i = inst
    · rw [hi', Function.update_self]
      exact hdec
    · rw [Function.update_of_ne hi']
      have hlt : i ≤ inst := hi
      exact h.values i (by omega)

/-- A prepare for the next instance, or one that is refused. -/
theorem AcceptorInv.preparereq (h : AcceptorInv P rs d a) {c : Call} {arg : PrepareArg}
    (hreq : c.req = .prepare arg)
    (htime : arg.inst ≤ a.instance_h + 1 ∨ arg.n ≤ a.n_h) :
    AcceptorInv P (rs ++ [⟨c, .prepare (a.preparereq arg).2⟩]) d (a.preparereq arg).1 := by
  unfold Acceptor.preparereq
  split_ifs with hold hgt
  · exact h.append_reply (fun res hres => by cases hres; rfl) nofun
  swap
  · exact h.append_reply (fun res hres => by cases hres; rfl) nofun
  -- The number is promised, and nothing else changes.
  have hlt : a.n_h < arg.n := PropT.gt_iff.mp hgt
  have hinst : arg.inst = a.instance_h + 1 := by
    rcases htime with hle | hle
    · omega
    · exact absurd hlt (not_lt.mpr hle)
  have hprom : ∀ i b res, Promised (rs ++ [⟨c, .prepare ⟨false, true, a.n_a, a.v_a⟩⟩]) d i b res →
      Promised rs d i b res ∨ i = arg.inst ∧ b = arg.n ∧ res = ⟨false, true, a.n_a, a.v_a⟩ := by
    intro i b res hp
    rcases promised_append hp with hp' | ⟨-, hreq', hres⟩
    · exact Or.inl hp'
    · obtain rfl : arg = ⟨i, b⟩ := Req.prepare.inj (hreq.symm.trans hreq')
      exact Or.inr ⟨rfl, rfl, (Res.prepare.inj hres).symm⟩
  have hacc : ∀ i b v, Accepted (rs ++ [⟨c, .prepare ⟨false, true, a.n_a, a.v_a⟩⟩]) d i b v →
      Accepted rs d i b v := by
    intro i b v ha
    rcases accepted_append ha with ha | ⟨-, -, hres⟩
    · exact ha
    · cases hres
  have hsub := List.subset_append_left rs [⟨c, .prepare ⟨false, true, a.n_a, a.v_a⟩⟩]
  -- A number that was promised before is not above `n_h`, so it is not promised again.
  have hnew : ∀ res, ¬ Promised rs d arg.inst arg.n res := fun res hp =>
    absurd ((h.promised _ _ _ hp).2.2 hinst) (not_le.mpr hlt)
  refine ⟨h.base, fun i b res hp => ?_, fun i b v ha => h.accepted i b v (hacc i b v ha),
    h.nothing, fun hne => ?_, fun i b res c w hp ha hcb => ?_, fun i b res res' hp hp' => ?_,
    fun i hi => (h.values i hi).mono hsub⟩
  · rcases hprom i b res hp with hp | ⟨rfl, rfl, -⟩
    · obtain ⟨hbase, hle, hopen⟩ := h.promised i b res hp
      exact ⟨hbase, hle, fun hi => (hopen hi).trans hlt.le⟩
    · have := h.base
      exact ⟨by omega, le_of_eq hinst, fun _ => le_rfl⟩
  · obtain ⟨hcur, hle⟩ := h.current hne
    exact ⟨hcur.mono hsub, hle.trans hlt.le⟩
  · rcases hprom i b res hp with hp | ⟨rfl, rfl, rfl⟩
    · exact h.report_le i b res c w hp (hacc i c w ha) hcb
    · -- The promise reports `n_a`, and whatever the node accepted in this instance is below it.
      exact (h.accepted _ c w (hacc _ c w ha)).2 hinst
  · rcases hprom i b res hp with hp | ⟨rfl, rfl, rfl⟩
    · rcases hprom i b res' hp' with hp' | ⟨rfl, rfl, -⟩
      · exact h.promise_unique i b res res' hp hp'
      · exact absurd hp (hnew res)
    · rcases hprom _ _ res' hp' with hp' | ⟨-, -, rfl⟩
      · exact absurd hp' (hnew res')
      · rfl

/-- An accept for the next instance, or one that is refused. Its number was promised. -/
theorem AcceptorInv.acceptreq (h : AcceptorInv P rs d a) {c : Call} (hdst : c.dst = d)
    {arg : AcceptArg} (hreq : c.req = .accept arg) (hpos : arg.n.n ≠ 0)
    (hold : ∀ i b v, Accepted rs d i b v → b.n ≠ 0)
    (hprom : ∃ res, Promised rs d arg.inst arg.n res)
    (htime : arg.inst = a.instance_h + 1 ∨ arg.n < a.n_h) :
    AcceptorInv P (rs ++ [⟨c, .accept (a.acceptreq arg).2⟩]) d (a.acceptreq arg).1 := by
  unfold Acceptor.acceptreq
  split_ifs with hge
  swap
  · exact h.append_reply nofun nofun
  have hle : a.n_h ≤ arg.n := PropT.ge_iff.mp hge
  have hinst : arg.inst = a.instance_h + 1 := by
    rcases htime with heq | hlt
    · exact heq
    · exact absurd hlt (not_lt.mpr hle)
  -- The number was promised in this instance, so it is the highest one promised.
  obtain ⟨res₀, hres₀⟩ := hprom
  have heq : arg.n = a.n_h := le_antisymm ((h.promised _ _ _ hres₀).2.2 hinst) hle
  have hprom' : ∀ i b res, Promised (rs ++ [⟨c, .accept true⟩]) d i b res →
      Promised rs d i b res := by
    intro i b res hp
    rcases promised_append hp with hp | ⟨-, -, hres⟩
    · exact hp
    · cases hres
  have hacc : ∀ i b v, Accepted (rs ++ [⟨c, .accept true⟩]) d i b v →
      Accepted rs d i b v ∨ arg = ⟨i, b, v⟩ := by
    intro i b v ha
    rcases accepted_append ha with ha | ⟨-, hreq', -⟩
    · exact Or.inl ha
    · exact Or.inr (Req.accept.inj (hreq.symm.trans hreq'))
  have hnew : Accepted (rs ++ [⟨c, .accept true⟩]) d arg.inst arg.n arg.v :=
    ⟨c, hdst, hreq, List.mem_append_right _ (List.mem_singleton.mpr rfl)⟩
  have hsub := List.subset_append_left rs [⟨c, .accept true⟩]
  refine ⟨h.base, fun i b res hp => h.promised i b res (hprom' i b res hp),
    fun i b v ha => ?_, fun hzero => absurd hzero hpos, fun _ => ⟨hinst ▸ hnew, heq.le⟩,
    fun i b res c w hp ha hcb => ?_, fun i b res res' hp hp' => ?_,
    fun i hi => (h.values i hi).mono hsub⟩
  · rcases hacc i b v ha with ha | rfl
    · -- What was accepted before is not above `n_a`, which is not above the promise.
      obtain ⟨hi, hopen⟩ := h.accepted i b v ha
      refine ⟨hi, fun hi' => ?_⟩
      by_cases hzero : a.n_a.n = 0
      · exact absurd (PropT.n_eq_zero_of_le (hopen hi') hzero) (hold i b v ha)
      · exact (hopen hi').trans ((h.current hzero).2.trans heq.ge)
    · exact ⟨le_of_eq hinst, fun _ => le_rfl⟩
  · rcases hacc i c w ha with ha | rfl
    · exact h.report_le i b res c w (hprom' i b res hp) ha hcb
    · -- A promise of this instance is not above `n_h`, so there is none above the number.
      have hb := (h.promised i b res (hprom' i b res hp)).2.2 hinst
      rw [← heq] at hb
      exact absurd hcb (not_lt.mpr hb)
  · exact h.promise_unique i b res res' (hprom' i b res hp) (hprom' i b res' hp')

end Acceptor

/-! ## One node, one call, one reply -/

/-- The node that was set. -/
@[simp] theorem Cluster.set_node_self (s : Cluster) (p : String) (n : Node) :
    (s.set p n).node p = n := Function.update_self ..

/-- The other nodes. -/
theorem Cluster.set_node_of_ne (s : Cluster) {p q : String} (h : q ≠ p) (n : Node) :
    (s.set p n).node q = s.node q := Function.update_of_ne h ..

/-- A statement about all nodes is one about the node that was set and the others as they were. -/
theorem Cluster.forall_set {Q : String → Node → Prop} (hp : Q p n)
    (hq : ∀ q, q ≠ p → Q q (s.node q)) : ∀ q, Q q ((s.set p n).node q) := by
  intro q
  by_cases hqp : q = p
  · rw [hqp, s.set_node_self]
    exact hp
  · rw [s.set_node_of_ne hqp]
    exact hq q hqp

/-- One node changes: its acceptor and its proposer stay in order, and its number does not go
down. -/
theorem Inv.set (h : Inv P s) (hacc : AcceptorInv P s.replies p n.acc) (hname : n.pro.my_n.m = p)
    (hnum : (s.node p).pro.my_n.n.toNat ≤ n.pro.my_n.n.toNat)
    (hphase : PhaseInv P s.calls s.replies n.pro.my_n n.acc.instance_h n.pro.phase)
    (hwait : ∀ c, n.pro.waiting = some c → c.src = p ∧ n.pro.request = some (c.dst, c.req)) :
    Inv P (s.set p n) where
  acceptor := Cluster.forall_set (Q := fun q m => AcceptorInv P s.replies q m.acc) hacc
    fun q _ => h.acceptor q
  name := Cluster.forall_set (Q := fun q m => m.pro.my_n.m = q) hname fun q _ => h.name q
  call c hc := (h.call c hc).mono (List.Subset.refl _)
    (Cluster.forall_set (Q := fun q m => (s.node q).pro.my_n.n.toNat ≤ m.pro.my_n.n.toNat) hnum
      fun _ _ => le_rfl)
  unique := h.unique
  reply_call := h.reply_call
  reply := h.reply
  phase := Cluster.forall_set (Q := fun _ m => PhaseInv P s.calls s.replies m.pro.my_n
    m.acc.instance_h m.pro.phase) hphase fun q _ => h.phase q
  waiting := Cluster.forall_set (Q := fun q m => ∀ c, m.pro.waiting = some c →
    c.src = q ∧ m.pro.request = some (c.dst, c.req)) hwait fun q _ => h.waiting q

/-- One node changes the phase of its proposer. -/
theorem Inv.goto (h : Inv P s) {phase : Phase}
    (hphase : PhaseInv P s.calls s.replies (s.node p).pro.my_n (s.node p).acc.instance_h phase) :
    Inv P (s.set p ((s.node p).goto phase)) :=
  h.set (h.acceptor p) (h.name p) le_rfl hphase nofun

/-- A proposer makes the call of its current turn. -/
theorem Inv.send (h : Inv P s) (hsrc : c.src = p)
    (hreq : (s.node p).pro.request = some (c.dst, c.req)) : Inv P (s.send p c) := by
  have hphase := h.phase p
  have hname := h.name p
  -- What the turn says about the call.
  have hcall : CallInv P s.replies (fun q => (s.node q).pro.my_n) c ∧
      (∀ arg, c.req = .accept arg → arg.n = (s.node p).pro.my_n ∧
        ∃ args v todo accepts, (s.node p).pro.phase = .accepting args v todo accepts ∧
          arg = ⟨args.inst, (s.node p).pro.my_n, v⟩) := by
    unfold Proposer.request at hreq
    unfold CallInv
    split at hreq
    · next args d todo accepts highest_seen v heq =>
      obtain ⟨rfl, hr⟩ := Prod.mk.inj (Option.some.inj hreq)
      rw [heq] at hphase
      rw [← hr, hsrc]
      exact ⟨⟨hname, hphase.1, le_rfl⟩, nofun⟩
    · next args v d todo accepts heq =>
      obtain ⟨hd, hr⟩ := Prod.mk.inj (Option.some.inj hreq)
      rw [heq] at hphase
      obtain ⟨hpos, hphase⟩ := hphase
      rw [← hr, hsrc, ← hd]
      refine ⟨⟨⟨hname, hpos, le_rfl⟩, hphase.proposal, hphase.backed,
        hphase.promised d List.mem_cons_self⟩, fun arg harg => ?_⟩
      obtain rfl := Req.accept.inj harg
      exact ⟨rfl, args, v, d :: todo, accepts, heq, rfl⟩
    · next args v d todo heq =>
      obtain ⟨hd, hr⟩ := Prod.mk.inj (Option.some.inj hreq)
      rw [heq] at hphase
      rw [← hr, ← hd]
      exact ⟨⟨_, hphase.chosen, hphase.accepted d List.mem_cons_self⟩, nofun⟩
    · cases hreq
  obtain ⟨hinv, hown⟩ := hcall
  -- Another proposer's numbers carry another name.
  have hphases : ∀ q, PhaseInv P (s.calls ++ [c]) s.replies (s.node q).pro.my_n
      (s.node q).acc.instance_h (s.node q).pro.phase := by
    intro q
    refine (h.phase q).called fun arg harg hn => ?_
    obtain ⟨hmine, hacc⟩ := hown arg harg
    have hqp : q = p := by rw [← h.name q, ← hn, hmine, hname]
    rw [hqp]
    exact hacc
  have hsub : s.calls ⊆ s.calls ++ [c] := List.subset_append_left _ _
  -- The node that waits now, and then the list of calls.
  have hset : Inv P (s.set p { s.node p with
      pro := { (s.node p).pro with xid := (s.node p).pro.xid + 1, waiting := some c } }) := by
    refine h.set (h.acceptor p) hname le_rfl (h.phase p) fun c' hc' => ?_
    obtain rfl := Option.some.inj hc'
    exact ⟨hsrc, hreq⟩
  have hsame : ∀ q, ((s.send p c).node q).pro.my_n = (s.node q).pro.my_n ∧
      ((s.send p c).node q).acc = (s.node q).acc ∧
      ((s.send p c).node q).pro.phase = (s.node q).pro.phase := by
    intro q
    by_cases hqp : q = p
    · rw [hqp]
      refine ⟨?_, ?_, ?_⟩ <;> simp [Cluster.send, Cluster.set]
    · have hq : (s.send p c).node q = s.node q := s.set_node_of_ne hqp _
      rw [hq]
      exact ⟨rfl, rfl, rfl⟩
  refine ⟨hset.acceptor, hset.name, ?_, ?_, fun r hr => hsub (h.reply_call r hr),
    fun r hr => (h.reply r hr).mono hsub (List.Subset.refl _), fun q => ?_, hset.waiting⟩
  · refine List.forall_mem_append.mpr ⟨hset.call, List.forall_mem_singleton.mpr ?_⟩
    exact hinv.mono (List.Subset.refl _) fun q => by rw [(hsame q).1]
  · -- The call repeats what was proposed with this number, if anything was.
    have hnew : ∀ c' ∈ s.calls, ∀ arg arg', c.req = .accept arg → c'.req = .accept arg' →
        arg.n = arg'.n → arg = arg' := by
      intro c' hc' arg arg' hr hr' hn
      obtain ⟨hmine, args, v, todo, accepts, heq, rfl⟩ := hown arg hr
      rw [heq] at hphase
      exact (hphase.2.only c' hc' arg' hr' hn.symm).symm
    intro c₁ hc₁ c₂ hc₂ arg₁ arg₂ hr₁ hr₂ hn
    rcases List.mem_append.mp hc₁ with hc₁ | hc₁ <;> rcases List.mem_append.mp hc₂ with hc₂ | hc₂
    · exact h.unique c₁ hc₁ c₂ hc₂ arg₁ arg₂ hr₁ hr₂ hn
    · rw [List.mem_singleton.mp hc₂] at hr₂
      exact (hnew c₁ hc₁ arg₂ arg₁ hr₂ hr₁ hn.symm).symm
    · rw [List.mem_singleton.mp hc₁] at hr₁
      exact hnew c₂ hc₂ arg₁ arg₂ hr₁ hr₂ hn
    · rw [List.mem_singleton.mp hc₁] at hr₁
      rw [List.mem_singleton.mp hc₂, hr₁] at hr₂
      exact Req.accept.inj hr₂
  · rw [(hsame q).1, (hsame q).2.1, (hsame q).2.2]
    exact hphases q

/-- A node replies to a call: its acceptor stays in order, and its proposer does not change. -/
theorem Inv.replied (h : Inv P s) {r : Reply} (hc : r.call ∈ s.calls)
    (hpro : n.pro = (s.node r.call.dst).pro)
    (hacc : AcceptorInv P (s.replies ++ [r]) r.call.dst n.acc)
    (hle : (s.node r.call.dst).acc.instance_h ≤ n.acc.instance_h)
    (hrep : ReplyInv P s.calls (s.replies ++ [r]) r) :
    Inv P { s.set r.call.dst n with replies := s.replies ++ [r] } := by
  have hsub : s.replies ⊆ s.replies ++ [r] := List.subset_append_left _ _
  -- A reply of one node is no promise and no acceptance of another one.
  have hother : ∀ q, q ≠ r.call.dst → AcceptorInv P (s.replies ++ [r]) q (s.node q).acc := by
    intro q hq
    refine (h.acceptor q).mono hsub (fun i b res hp => ?_) fun i b v ha => ?_
    · rcases promised_append hp with hp | ⟨hdst, -⟩
      · exact hp
      · exact absurd hdst.symm hq
    · rcases accepted_append ha with ha | ⟨hdst, -⟩
      · exact ha
      · exact absurd hdst.symm hq
  exact
    { acceptor := Cluster.forall_set (Q := fun q m => AcceptorInv P (s.replies ++ [r]) q m.acc)
        hacc hother
      name := Cluster.forall_set (Q := fun q m => m.pro.my_n.m = q) (hpro ▸ h.name r.call.dst)
        fun q _ => h.name q
      call := fun c hc => (h.call c hc).mono hsub
        (Cluster.forall_set (Q := fun q m => (s.node q).pro.my_n.n.toNat ≤ m.pro.my_n.n.toNat)
          (by rw [hpro]) fun _ _ => le_rfl)
      unique := h.unique
      reply_call := List.forall_mem_append.mpr ⟨h.reply_call, List.forall_mem_singleton.mpr hc⟩
      reply := List.forall_mem_append.mpr
        ⟨fun r' hr' => (h.reply r' hr').mono (List.Subset.refl _) hsub,
          List.forall_mem_singleton.mpr hrep⟩
      phase := Cluster.forall_set (Q := fun _ m => PhaseInv P s.calls (s.replies ++ [r]) m.pro.my_n
          m.acc.instance_h m.pro.phase)
        (by rw [hpro]; exact (h.phase r.call.dst).mono hsub hle)
        fun q _ => (h.phase q).mono hsub le_rfl
      waiting := Cluster.forall_set (Q := fun q m => ∀ c, m.pro.waiting = some c →
          c.src = q ∧ m.pro.request = some (c.dst, c.req))
        (by rw [hpro]; exact h.waiting r.call.dst) fun q _ => h.waiting q }

/-! ## The events -/

/-- A run starts. -/
theorem Inv.run (h : Inv P s) {args : RunArgs}
    (hargs : args.cur_nodes = P.nodes args.inst ∧ P.proposal args.inst args.newv ∧
      args.inst ≤ (s.node p).acc.instance_h + 1 ∧ (s.node p).pro.my_n.n + 1 ≠ 0) :
    Inv P (s.set p ((s.node p).run args)) := by
  obtain ⟨hnodes, hnewv, hinst, hwrap⟩ := hargs
  have hlt := Proposer.lt_setn hwrap (s.node p).acc.n_h
  have hrun : (s.node p).run args = { s.node p with
      pro := (s.node p).pro.run (s.node p).acc.n_h args } := rfl
  rw [hrun]
  unfold Proposer.run
  split_ifs with hstable
  · refine h.set (h.acceptor p) (h.name p) hlt.le (PhaseInv.settle ?_) nofun
    refine ⟨?_, hnodes, hnewv, hinst, fun c hc arg hreq hn => ?_, by simp, Or.inl ⟨rfl, rfl⟩⟩
    · intro hzero
      rw [hzero] at hlt
      exact absurd hlt (Nat.not_lt_zero _)
    · -- The number is new: all numbers used so far with this name are at most the last one.
      have hcall := h.call c hc
      simp only [CallInv, hreq] at hcall
      obtain ⟨hm, -, hle⟩ := hcall.1
      have hsrc : c.src = p := by
        rw [← hm, hn]
        exact h.name p
      rw [hsrc, hn] at hle
      exact absurd hlt (not_lt.mpr hle)
  · exact h.set (h.acceptor p) (h.name p) le_rfl (h.phase p) (h.waiting p)

/-- The loop of `prepare` takes a promise: the value is the one of the highest report so far. -/
theorem PreparingInv.promise {cs : List Call} {rs : List Reply} {my_n : PropT} {k : ℕ}
    {args : RunArgs} {accepts : List String} {highest_seen : PropT} {v : String}
    (h : PreparingInv P cs rs my_n k args accepts highest_seen v) {d : String} {res : PrepareRes}
    (hres : Promised rs d args.inst my_n res) (hzero : res.n_a.n = 0 → res.v_a = "")
    (hprop : res.n_a.n ≠ 0 → P.proposal args.inst res.v_a) :
    PreparingInv P cs rs my_n k args (accepts ++ [d])
      (if res.n_a.gt highest_seen then res.n_a else highest_seen)
      (if res.n_a.gt highest_seen then res.v_a else v) := by
  have hmem : ∀ d' ∈ accepts, d' ∈ accepts ++ [d] := fun _ hd' => List.mem_append_left _ hd'
  have hself : d ∈ accepts ++ [d] := List.mem_append_right _ (List.mem_singleton.mpr rfl)
  split_ifs with hgt
  · -- The report is the highest one so far.
    have hlt : highest_seen < res.n_a := PropT.gt_iff.mp hgt
    refine ⟨h.nodes, h.newv, h.inst, h.unused, List.forall_mem_append.mpr ⟨fun d' hd' => ?_,
      List.forall_mem_singleton.mpr ⟨res, hres, le_rfl⟩⟩, ?_⟩
    · obtain ⟨res', hres', hle⟩ := h.promised d' hd'
      exact ⟨res', hres', hle.trans hlt.le⟩
    · by_cases hn : res.n_a.n = 0
      · exact Or.inl ⟨hn, hzero hn⟩
      · exact Or.inr ⟨hn, hprop hn, d, hself, res, hres, rfl, rfl⟩
  · have hle : res.n_a ≤ highest_seen := not_lt.mp fun hlt => hgt (PropT.gt_iff.mpr hlt)
    refine ⟨h.nodes, h.newv, h.inst, h.unused, List.forall_mem_append.mpr ⟨h.promised,
      List.forall_mem_singleton.mpr ⟨res, hres, hle⟩⟩, ?_⟩
    exact h.highest.imp id fun ⟨hne, hpr, d', hd', hrest⟩ => ⟨hne, hpr, d', hmem d' hd', hrest⟩

/-- A proposer takes the reply that it waits for. -/
theorem Inv.receive (h : Inv P s) {r : Reply} (hr : r ∈ s.replies)
    (hwait : (s.node r.call.src).pro.waiting = some r.call) :
    Inv P (s.set r.call.src ((s.node r.call.src).receive r.res)) := by
  obtain ⟨-, hreq⟩ := h.waiting _ _ hwait
  have hphase := h.phase r.call.src
  have hreply := h.reply r hr
  generalize r.call.src = p at *
  unfold Node.receive
  split
  · next args d todo accepts highest_seen v res hph hres =>
    simp only [Proposer.request, hph, Option.some.injEq, Prod.mk.injEq] at hreq
    obtain ⟨hd, hreq⟩ := hreq
    rw [hph] at hphase
    obtain ⟨hpos, hphase⟩ := hphase
    simp only [ReplyInv, ← hreq, hres] at hreply
    by_cases hold : res.oldinstance = true
    · -- The instance is an old one, and its value is committed.
      rw [if_pos hold]
      refine h.set ((h.acceptor p).commitWo hphase.inst (hreply.1 hold)) (h.name p) le_rfl ?_
        fun c hc => by cases hc
      show PhaseInv P _ _ _ _ (if (s.node p).acc.commitUpcalls args.inst then _ else _)
      split_ifs <;> trivial
    rw [if_neg hold]
    by_cases hacc : res.accept = true
    · rw [if_pos hacc]
      have hprom : Promised s.replies d args.inst (s.node p).pro.my_n res :=
        ⟨hacc, r.call, hd.symm, hreq.symm, by rw [← hres]; exact hr⟩
      have hnext := hphase.promise hprom (hreply.2 hacc).1 fun hne =>
        (h.proposed ((hreply.2 hacc).2 hne).1).2.1
      split_ifs at hnext ⊢
      · exact h.goto (PhaseInv.settle ⟨hpos, hnext⟩)
      · exact h.goto (PhaseInv.settle ⟨hpos, hnext⟩)
    · rw [if_neg hacc]
      exact h.goto (PhaseInv.settle ⟨hpos, hphase⟩)
  · -- A node that accepted is counted.
    next args v d todo accepts ok hph hres =>
    simp only [Proposer.request, hph, Option.some.injEq, Prod.mk.injEq] at hreq
    obtain ⟨hd, hreq⟩ := hreq
    rw [hph] at hphase
    obtain ⟨hpos, hphase⟩ := hphase
    refine h.goto (PhaseInv.settle ⟨hpos, hphase.nodes, hphase.proposal, hphase.backed,
      fun d' hd' => hphase.promised d' (List.mem_cons_of_mem _ hd'), hphase.only, ?_⟩)
    cases ok with
    | false => exact hphase.accepted
    | true =>
      refine List.forall_mem_append.mpr ⟨hphase.accepted, List.forall_mem_singleton.mpr ?_⟩
      exact ⟨r.call, hd.symm, hreq.symm, by rw [← hres]; exact hr⟩
  · next args v d todo hph hres =>
    rw [hph] at hphase
    exact h.goto (PhaseInv.settle ⟨hphase.chosen,
      fun d' hd' => hphase.accepted d' (List.mem_cons_of_mem _ hd')⟩)
  · exact h.set (h.acceptor p) (h.name p) le_rfl (h.phase p) (h.waiting p)

/-- The reply to a prepare tells the value decided, or the proposal accepted in the instance. -/
theorem Inv.prepare_reply (h : Inv P s) {arg : PrepareArg} (hreq : c.req = .prepare arg)
    {rs : List Reply} (hsub : s.replies ⊆ rs)
    (htime : arg.inst ≤ (s.node c.dst).acc.instance_h + 1 ∨ arg.n ≤ (s.node c.dst).acc.n_h) :
    ReplyInv P s.calls rs ⟨c, .prepare ((s.node c.dst).acc.preparereq arg).2⟩ := by
  have hA := h.acceptor c.dst
  simp only [ReplyInv, hreq]
  unfold Acceptor.preparereq
  split_ifs with hold hgt
  · exact ⟨fun _ => (hA.values arg.inst hold).mono hsub, fun hacc => by cases hacc⟩
  · -- The report is the proposal that the node accepted in its open instance, which is this one.
    refine ⟨False.elim, fun _ => ⟨hA.nothing, fun hne => ?_⟩⟩
    have hlt : (s.node c.dst).acc.n_h < arg.n := PropT.gt_iff.mp hgt
    have hinst : arg.inst = (s.node c.dst).acc.instance_h + 1 := by
      rcases htime with hle | hle
      · omega
      · exact absurd hlt (not_lt.mpr hle)
    obtain ⟨hcur, hle⟩ := hA.current hne
    obtain ⟨c', hc', -, hreq'⟩ := h.exists_call hcur
    exact ⟨⟨c', hc', hinst ▸ hreq'⟩, lt_of_le_of_lt hle hlt⟩
  · exact ⟨False.elim, False.elim⟩

/-- A decide request is handled, and commits what was decided. -/
theorem Inv.decidereq (h : Inv P s) (hc : c ∈ s.calls) {arg : DecideArg}
    (hreq : c.req = .decide arg) : ∃ a', (s.node c.dst).acc.decidereq arg = some a' ∧
      AcceptorInv P s.replies c.dst a' ∧ (s.node c.dst).acc.instance_h ≤ a'.instance_h := by
  unfold Acceptor.decidereq
  rcases h.decide_call hc hreq with hold | ⟨hnext, hval⟩
  · rw [if_neg (by omega), if_pos hold]
    exact ⟨_, rfl, h.acceptor c.dst, le_rfl⟩
  · rw [if_pos hnext, if_pos hval]
    have hcall := h.call c hc
    simp only [CallInv, hreq] at hcall
    obtain ⟨b, hchosen, -⟩ := hcall
    exact ⟨_, rfl, (h.acceptor c.dst).commitWo (le_of_eq hnext) (Or.inl ⟨b, hval ▸ hchosen⟩),
      instance_h_le_commitWo _ _ _⟩

/-- A request reaches its node timely. -/
theorem Inv.handle (h : Inv P s) (hc : c ∈ s.calls) (htime : Timely (s.node c.dst).acc c.req) :
    Inv P (s.handle c) := by
  have hA := h.acceptor c.dst
  have hcall := h.call c hc
  unfold Cluster.handle
  cases hreq : c.req with
  | prepare arg =>
    rw [hreq] at htime
    refine h.replied (r := ⟨c, _⟩) hc rfl (hA.preparereq hreq htime)
      (frame_preparereq _ arg).2.1.ge ?_
    have hsub : s.replies ⊆ s.replies ++ [⟨c, .prepare ((s.node c.dst).acc.preparereq arg).2⟩] :=
      List.subset_append_left _ _
    generalize s.replies ++ [⟨c, .prepare ((s.node c.dst).acc.preparereq arg).2⟩] = rs at hsub ⊢
    exact h.prepare_reply hreq hsub htime
  | accept arg =>
    rw [hreq] at htime
    simp only [CallInv, hreq] at hcall
    refine h.replied (r := ⟨c, _⟩) hc rfl (hA.acceptreq rfl hreq hcall.1.pos
      (fun i b v ha => h.accepted_pos ha) hcall.2.2.2 htime) (frame_acceptreq _ arg).2.1.ge ?_
    simp only [ReplyInv, hreq]
  | decide arg =>
    obtain ⟨a', hdec, hA', hle⟩ := h.decidereq hc hreq
    have hnode : (s.node c.dst).decidereq arg = { s.node c.dst with
        acc := a'
        upcalls := ((s.node c.dst).decidereq arg).upcalls } := by
      simp only [Node.decidereq, hdec]
    have hreply : (if ((s.node c.dst).acc.decidereq arg).isSome then some Res.decide else none) =
        some .decide := by rw [hdec]; rfl
    simp only [Node.handle, hreply, Option.map_some, Option.toList_some]
    rw [hnode]
    exact h.replied (r := ⟨c, .decide⟩) hc rfl
      (hA'.append_reply (fun _ hres => by cases hres) fun hres => by cases hres) hle
      (by simp only [ReplyInv, hreq])

/-- Every event of a run in step keeps the invariant. -/
theorem inv_next {e : Event} {s' : Cluster} (h : Inv P s) (hG : InStep P s e)
    (hs : s.next e = some s') : Inv P s' := by
  obtain ⟨hruns, htime⟩ := hG
  cases e with
  | run p args =>
    simp only [Cluster.next] at hs
    split_ifs at hs
    rw [← Option.some.inj hs]
    exact h.run hruns
  | send p =>
    simp only [Cluster.next] at hs
    split_ifs at hs
    obtain ⟨⟨d, req⟩, hreq, rfl⟩ := Option.map_eq_some_iff.mp hs
    exact h.send rfl hreq
  | skip p =>
    simp only [Cluster.next] at hs
    split_ifs at hs
    rw [← Option.some.inj hs]
    exact h.goto (h.phase p).skip
  | handle k =>
    obtain ⟨c, hc, hs⟩ := Option.bind_eq_some_iff.mp hs
    split_ifs at hs
    rw [← Option.some.inj hs]
    exact h.handle (List.mem_of_getElem? hc) (htime c hc)
  | reply k =>
    obtain ⟨r, hr, hs⟩ := Option.bind_eq_some_iff.mp hs
    split_ifs at hs with hno
    rw [← Option.some.inj hs]
    rw [not_or, not_not] at hno
    exact h.receive (List.mem_of_getElem? hr) hno.2
  | upcall p k =>
    obtain ⟨u, hu, hs⟩ := Option.bind_eq_some_iff.mp hs
    split_ifs at hs
    rw [← Option.some.inj hs]
    unfold Node.upcalled
    dsimp only
    split_ifs
    · exact h.set (h.acceptor p) (h.name p) le_rfl trivial nofun
    · exact h.set (h.acceptor p) (h.name p) le_rfl (h.phase p) (h.waiting p)

/-- The invariant holds initially. -/
theorem inv_init (hs : (paxosSystem P).init s) : Inv P s := by
  obtain ⟨hcalls, hreplies, hnodes⟩ := hs
  have hprom : ∀ {d i b res}, ¬ Promised s.replies d i b res := by
    rintro d i b res ⟨-, c, -, -, hmem⟩
    rw [hreplies] at hmem
    cases hmem
  have hacc : ∀ {d i b v}, ¬ Accepted s.replies d i b v := by
    rintro d i b v ⟨c, -, -, hmem⟩
    rw [hreplies] at hmem
    cases hmem
  refine ⟨fun d => ?_, fun p => ?_, ?_, ?_, ?_, ?_, fun p => ?_, fun p c hc => ?_⟩
  · obtain ⟨acc, hnode, hme, hinst, hvals, hn_h, hn_a, hv_a⟩ := hnodes d
    rw [hnode]
    refine ⟨hinst.ge, fun _ _ _ hp => absurd hp hprom, fun _ _ _ ha => absurd ha hacc,
      fun _ => hv_a, fun hne => absurd ?_ hne, fun _ _ _ _ _ hp => absurd hp hprom,
      fun _ _ _ _ hp => absurd hp hprom, fun i hi => Or.inr ⟨⟨d, hinst ▸ hi⟩, hvals i (hinst ▸ hi)⟩⟩
    show acc.n_a.n = 0
    rw [hn_a]
  · obtain ⟨acc, hnode, hme, -⟩ := hnodes p
    rw [hnode]
    exact hme
  · rw [hcalls]
    simp
  · rw [hcalls]
    simp
  · rw [hreplies]
    simp
  · rw [hreplies]
    simp
  · obtain ⟨acc, hnode, -⟩ := hnodes p
    rw [hnode]
    trivial
  · obtain ⟨acc, hnode, -⟩ := hnodes p
    rw [hnode] at hc
    cases hc

/-- The invariant holds in every state that a run in step reaches. -/
theorem inv_of_reachable (h : (paxosSystem P).Reachable (InStep P) s) : Inv P s :=
  h.invariant (I := Inv P) (fun _ hinit => inv_init hinit) fun _ _ _ hI hG hs => inv_next hI hG hs

end SimpleDfs.Paxos
