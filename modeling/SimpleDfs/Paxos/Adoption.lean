import SimpleDfs.Paxos.Agreement
import SimpleDfs.Paxos.Crash

/-!
# A chosen value is adopted

In every run for one open instance whose names and values the log can hold, a value that a majority
accepted is the value of every later proposal, and a number has one value (`value_adopted`), however
often proposers and acceptors crash. First what the handlers and a restart do to an acceptor, then
that every event keeps `OpenInv` (`openInv_next`).

A value with a newline in it breaks the record that holds it in two. Two acceptors that come back
from such a log report a proposal that nobody made (`newline_forges_report`).
-/

namespace SimpleDfs.Paxos

open IStream

variable {k : ℕ} {nodes : List String} {s : Cluster} {p : String} {n : Node} {c : Call}

/-! ## The acceptor -/

section Voter

variable {rs : List Reply} {d : String} {a : Acceptor}

/-- One more reply adds a promise to a call only if it is one. -/
theorem promisedTo_append {r : Reply} {i : ℕ} {b : PropT} {c : Call} {res : PrepareRes}
    (h : PromisedTo (rs ++ [r]) i b c res) :
    PromisedTo rs i b c res ∨
      (r.call = c ∧ r.call.req = .prepare ⟨i, b⟩ ∧ r.res = .prepare res) := by
  obtain ⟨hacc, hreq, hmem⟩ := h
  rcases List.mem_append.mp hmem with hmem | hmem
  · exact Or.inl ⟨hacc, hreq, hmem⟩
  · obtain rfl := List.mem_singleton.mp hmem
    exact Or.inr ⟨rfl, hreq, rfl⟩

/-- A promise to a call stays. -/
theorem PromisedTo.mono {rs' : List Reply} (hrs : rs ⊆ rs') {i : ℕ} {b : PropT} {c : Call}
    {res : PrepareRes} (h : PromisedTo rs i b c res) : PromisedTo rs' i b c res :=
  ⟨h.1, h.2.1, hrs h.2.2⟩

/-- Replies that are no promise and no acceptance of node `d` do not concern its acceptor. -/
theorem VoterInv.mono {rs' : List Reply} (h : VoterInv k nodes rs d a) (hrs : rs ⊆ rs')
    (hp : ∀ i b c res, c.dst = d → PromisedTo rs' i b c res → PromisedTo rs i b c res)
    (ha : ∀ i b v, Accepted rs' d i b v → Accepted rs d i b v) : VoterInv k nodes rs' d a where
  me := h.me
  inst := h.inst
  logged := h.logged
  acceptor := by
    refine h.acceptor.mono hrs (fun i b res hprom => ?_) ha
    obtain ⟨c, rfl, hto⟩ := hprom.exists_call
    exact (hp i b c res rfl hto).promised
  once b c c' res res' hc hc' hto hto' :=
    h.once b c c' res res' hc hc' (hp _ _ _ _ hc hto) (hp _ _ _ _ hc' hto')

/-- A prepare for the open instance. -/
theorem VoterInv.preparereq (h : VoterInv k nodes rs d a) {c : Call} {arg : PrepareArg}
    (hreq : c.req = .prepare arg) (hinst : arg.inst = k + 1) (hm : IsWord arg.n.m) :
    VoterInv k nodes (rs ++ [⟨c, .prepare (a.preparereq arg).2⟩]) d (a.preparereq arg).1 := by
  obtain ⟨hme, hinst_h, hvalues⟩ := frame_preparereq a arg
  have hacc := h.acceptor.preparereq hreq (Or.inl (by rw [h.inst]; exact hinst.le))
  rw [← hvalues] at hacc
  refine ⟨hme.trans h.me, hinst_h.trans h.inst, h.logged.preparereq hm, hacc,
    fun b c₁ c₂ res₁ res₂ hc₁ hc₂ hto₁ hto₂ => ?_⟩
  -- A promise that is made now is for a number above all those promised before.
  have hnew : ∀ c' res, c'.dst = d → PromisedTo rs (k + 1) b c' res → c.req = .prepare ⟨k + 1, b⟩ →
      ∀ res', Res.prepare (a.preparereq arg).2 = .prepare res' → res'.accept = true → False := by
    intro c' res hdst hto hreq' res' hres haccept
    obtain rfl : arg = ⟨k + 1, b⟩ := Req.prepare.inj (hreq.symm.trans hreq')
    obtain rfl := Res.prepare.inj hres
    have hle := (h.acceptor.promised _ _ _ (hdst ▸ hto.promised)).2.2 (by rw [h.inst])
    unfold Acceptor.preparereq at haccept
    split_ifs at haccept with hold hgt
    exact absurd (PropT.gt_iff.mp hgt) (not_lt.mpr hle)
  rcases promisedTo_append hto₁ with hold₁ | ⟨rfl, hreq₁, hres₁⟩
  · rcases promisedTo_append hto₂ with hold₂ | ⟨rfl, hreq₂, hres₂⟩
    · exact h.once b c₁ c₂ res₁ res₂ hc₁ hc₂ hold₁ hold₂
    · exact (hnew c₁ res₁ hc₁ hold₁ hreq₂ res₂ hres₂ hto₂.1).elim
  · rcases promisedTo_append hto₂ with hold₂ | ⟨rfl, -, -⟩
    · exact (hnew c₂ res₂ hc₂ hold₂ hreq₁ res₁ hres₁ hto₁.1).elim
    · rfl

/-- An accept for the open instance, whose number was promised. -/
theorem VoterInv.acceptreq (h : VoterInv k nodes rs d a) {c : Call} (hdst : c.dst = d)
    {arg : AcceptArg} (hreq : c.req = .accept arg) (hinst : arg.inst = k + 1) (hpos : arg.n.n ≠ 0)
    (hm : IsWord arg.n.m) (hv : OneLine arg.v)
    (hold : ∀ i b v, Accepted rs d i b v → b.n ≠ 0)
    (hprom : ∃ res, Promised rs d arg.inst arg.n res) :
    VoterInv k nodes (rs ++ [⟨c, .accept (a.acceptreq arg).2⟩]) d (a.acceptreq arg).1 := by
  obtain ⟨hme, hinst_h, hvalues⟩ := frame_acceptreq a arg
  have hacc := h.acceptor.acceptreq hdst hreq hpos hold hprom (Or.inl (by rw [h.inst]; exact hinst))
  rw [← hvalues] at hacc
  refine ⟨hme.trans h.me, hinst_h.trans h.inst, h.logged.acceptreq hm hv, hacc,
    fun b c₁ c₂ res₁ res₂ hc₁ hc₂ hto₁ hto₂ => ?_⟩
  have hsame : ∀ c' res, PromisedTo (rs ++ [⟨c, .accept (a.acceptreq arg).2⟩]) (k + 1) b c' res →
      PromisedTo rs (k + 1) b c' res := by
    intro c' res hto
    rcases promisedTo_append hto with hto | ⟨-, -, hres⟩
    · exact hto
    · cases hres
  exact h.once b c₁ c₂ res₁ res₂ hc₁ hc₂ (hsame _ _ hto₁) (hsame _ _ hto₂)

/-- What a replay gives back is in order as well: the names that it loses are those of numbers whose
counter is `0`, and no such number was promised or accepted. -/
theorem VoterInv.agrees (h : VoterInv k nodes rs d a)
    (hprom : ∀ i b res, Promised rs d i b res → b.n ≠ 0)
    (hold : ∀ i b v, Accepted rs d i b v → b.n ≠ 0) {b : Acceptor} (hagree : Agrees a b)
    (hlogged : Logged b) : VoterInv k nodes rs d b := by
  have hn_h : a.n_h.n ≠ 0 → b.n_h = a.n_h := fun hne =>
    PropT.ext hagree.n_h (hagree.n_h_m hne)
  have hn_a : a.n_a.n ≠ 0 → b.n_a = a.n_a := fun hne =>
    PropT.ext hagree.n_a (hagree.n_a_m hne)
  have hA := h.acceptor
  refine ⟨hagree.me.trans h.me, hagree.instance_h.trans h.inst, hlogged, ?_, h.once⟩
  rw [hagree.values]
  refine ⟨hagree.instance_h ▸ hA.base, fun i n res hp => ?_, fun i n v ha => ?_, fun hzero => ?_,
    fun hne => ?_, hA.report_le, hA.promise_unique, fun i hi => ?_⟩
  · obtain ⟨hbase, hle, hopen⟩ := hA.promised i n res hp
    refine ⟨hbase, hagree.instance_h ▸ hle, fun hi => ?_⟩
    have hle' := hopen (hagree.instance_h ▸ hi)
    rw [hn_h fun hzero => hprom i n res hp (PropT.n_eq_zero_of_le hle' hzero)]
    exact hle'
  · obtain ⟨hle, hopen⟩ := hA.accepted i n v ha
    refine ⟨hagree.instance_h ▸ hle, fun hi => ?_⟩
    have hle' := hopen (hagree.instance_h ▸ hi)
    rw [hn_a fun hzero => hold i n v ha (PropT.n_eq_zero_of_le hle' hzero)]
    exact hle'
  · rw [hagree.v_a]
    exact hA.nothing (hagree.n_a ▸ hzero)
  · have hne' : a.n_a.n ≠ 0 := hagree.n_a ▸ hne
    obtain ⟨hcur, hle⟩ := hA.current hne'
    have hne_h : a.n_h.n ≠ 0 := fun hzero => hne' (PropT.n_eq_zero_of_le hle hzero)
    rw [hagree.instance_h, hagree.v_a, hn_a hne', hn_h hne_h]
    exact ⟨hcur, hle⟩
  · rw [hagree.values]
    exact hA.values i (hagree.instance_h ▸ hi)

end Voter

/-! ## The phases -/

section Phase

variable {cs : List Call} {rs : List Reply} {p : String} {my_n : PropT} {xid : ℕ} {rs' : List Reply}
  {phase : Phase}

/-- Promises to earlier calls stay. -/
theorem Earlier.mono (hrs : rs ⊆ rs') {i : ℕ} {b : PropT} {xid' : ℕ} (hle : xid ≤ xid')
    (h : Earlier nodes rs i b p xid) : Earlier nodes rs' i b p xid' := by
  obtain ⟨T, hT, hprom⟩ := h
  refine ⟨T, hT, fun d hd => ?_⟩
  obtain ⟨c, res, hdst, hsrc, hlt, hto⟩ := hprom d hd
  exact ⟨c, res, hdst, hsrc, hlt.trans_le hle, hto.mono hrs⟩

/-- A call stays in order. -/
theorem OpenCall.mono (hrs : rs ⊆ rs') {c : Call} (h : OpenCall k nodes rs c) :
    OpenCall k nodes rs' c := by
  unfold OpenCall at h ⊢
  cases hreq : c.req with
  | prepare arg =>
    simp only [hreq] at h ⊢
    exact h
  | accept arg =>
    simp only [hreq] at h ⊢
    obtain ⟨hnum, hprop, hback, hearly, res, hres⟩ := h
    exact ⟨hnum, hprop, hback.mono hrs, hearly.mono hrs le_rfl, res, hres.mono hrs⟩
  | decide arg => trivial

/-- A proposer stays in order when there are more replies, and when it made more calls. -/
theorem OpenPhase.mono (hrs : rs ⊆ rs') {xid' : ℕ} (hle : xid ≤ xid')
    (h : OpenPhase k nodes cs rs p my_n xid phase) :
    OpenPhase k nodes cs rs' p my_n xid' phase := by
  cases phase with
  | stable => trivial
  | preparing args todo accepts highest_seen v =>
    refine { h with promised := fun d hd => ?_, highest := ?_ }
    · obtain ⟨hnode, c, hc, res, hdst, hsrc, hto, hhigh, hafter⟩ := h.promised d hd
      exact ⟨hnode, c, hc, res, hdst, hsrc, hto.mono hrs, hhigh, hafter⟩
    · refine h.highest.imp id fun ⟨hne, hprop, d, hd, res, hres, heq⟩ => ?_
      exact ⟨hne, hprop, d, hd, res, hres.mono hrs, heq⟩
  | accepting args v todo accepts =>
    refine { h with
      backed := h.backed.mono hrs, earlier := h.earlier.mono hrs hle, todo := fun d hd => ?_ }
    obtain ⟨hnode, res, hres⟩ := h.todo d hd
    exact ⟨hnode, res, hres.mono hrs⟩
  | deciding args v todo => exact h
  | committing => trivial

/-- The code between the loops keeps a proposer in order: a majority of promises backs the proposal,
and nothing was proposed with the number. -/
theorem OpenInv.settle (h : OpenInv k nodes s) (hm : my_n.m = p)
    (hxid : ∀ c ∈ s.calls, c.src = p → c.xid < xid)
    (hphase : OpenPhase k nodes s.calls s.replies p my_n xid phase) :
    OpenPhase k nodes s.calls s.replies p my_n xid phase.settle := by
  unfold Phase.settle
  split
  · next args accepts highest_seen v =>
    split
    swap
    · trivial
    next hmaj =>
    rw [hphase.cur_nodes] at hmaj
    have hnone := h.not_proposed hm hmaj fun d hd => by
      obtain ⟨hnode, c, hc, res, hdst, -, hto, -, hafter⟩ := hphase.promised d hd
      exact ⟨hnode, c, hc, res, hdst, hto, hafter⟩
    have hearly : Earlier nodes s.replies (k + 1) my_n p xid :=
      ⟨accepts, hmaj, fun d hd => by
        obtain ⟨-, c, hc, res, hdst, hsrc, hto, -⟩ := hphase.promised d hd
        exact ⟨c, res, hdst, hsrc, hxid c hc hsrc, hto⟩⟩
    have htodo : ∀ d ∈ accepts, d ∈ nodes ∧ ∃ res, Promised s.replies d (k + 1) my_n res := by
      intro d hd
      obtain ⟨hnode, c, -, res, rfl, -, hto, -⟩ := hphase.promised d hd
      exact ⟨hnode, res, hto.promised⟩
    have honly : ∀ v w, Proposed s.calls (k + 1) my_n w → w = v := fun _ w hw =>
      absurd hw (hnone w)
    split_ifs with hv
    · -- Nobody reported anything.
      have hv' : v = "" := String.length_eq_zero_iff.mp hv
      have hzero : highest_seen.n = 0 := by
        rcases hphase.highest with hno | ⟨-, hprop, -⟩
        · exact hno.1
        · exact absurd hv' hprop.1
      refine ⟨hphase.word, hphase.pos, hphase.inst, hphase.newv, ⟨accepts, hmaj, fun d hd => ?_⟩,
        hearly, htodo, by simp, honly _⟩
      obtain ⟨-, c, -, res, rfl, -, hto, hle, -⟩ := hphase.promised d hd
      exact ⟨res, hto.promised, fun hne => absurd (PropT.n_eq_zero_of_le hle hzero) hne⟩
    · -- The value is the one of the highest report.
      rcases hphase.highest with hno | ⟨hne, hprop, d', hd', res', hres', hhigh, hv'⟩
      · exact absurd (String.length_eq_zero_iff.mpr hno.2) hv
      refine ⟨hphase.word, hphase.pos, hphase.inst, hprop, ⟨accepts, hmaj, fun d hd => ?_⟩,
        hearly, htodo, by simp, honly _⟩
      obtain ⟨-, c, -, res, rfl, -, hto, hle, -⟩ := hphase.promised d hd
      exact ⟨res, hto.promised, fun _ => ⟨d', hd', res', hres', hhigh ▸ hle, hv'⟩⟩
  · next args v accepts =>
    split_ifs with hmaj
    · exact hphase.accepts
    · trivial
  · trivial
  · exact hphase

/-- A proposer that goes on to the next node stays in order. -/
theorem OpenInv.skip (h : OpenInv k nodes s) (hm : my_n.m = p)
    (hxid : ∀ c ∈ s.calls, c.src = p → c.xid < xid)
    (hphase : OpenPhase k nodes s.calls s.replies p my_n xid phase) :
    OpenPhase k nodes s.calls s.replies p my_n xid phase.skip := by
  unfold Phase.skip
  split
  · next args d todo accepts highest_seen v =>
    have hnext : OpenPhase k nodes s.calls s.replies p my_n xid
        (.preparing args todo accepts highest_seen v) :=
      { hphase with todo := fun d hd => hphase.todo d (List.mem_cons_of_mem _ hd) }
    exact h.settle hm hxid hnext
  · next args v d todo accepts =>
    have hnext : OpenPhase k nodes s.calls s.replies p my_n xid (.accepting args v todo accepts) :=
      { hphase with todo := fun d hd => hphase.todo d (List.mem_cons_of_mem _ hd) }
    exact h.settle hm hxid hnext
  · next args v d todo =>
    have hnext : OpenPhase k nodes s.calls s.replies p my_n xid (.deciding args v todo) :=
      fun d hd => hphase d (List.mem_cons_of_mem _ hd)
    exact h.settle hm hxid hnext
  · exact hphase

end Phase

/-! ## One node, one call, one reply -/

/-- One node changes: its acceptor, if it votes, and its proposer stay in order, and the numbers of
its calls do not go down. -/
theorem OpenInv.set (h : OpenInv k nodes s)
    (hvoter : p ∈ nodes → VoterInv k nodes s.replies p n.acc) (hname : n.pro.my_n.m = p)
    (hxid : (s.node p).pro.xid ≤ n.pro.xid)
    (hphase : OpenPhase k nodes s.calls s.replies p n.pro.my_n n.pro.xid n.pro.phase)
    (hwait : ∀ c, n.pro.waiting = some c →
      c.src = p ∧ n.pro.request = some (c.dst, c.req) ∧ LastCall s.calls c) :
    OpenInv k nodes (s.set p n) where
  voter := Cluster.forall_set (Q := fun q m => q ∈ nodes → VoterInv k nodes s.replies q m.acc)
    hvoter fun q _ => h.voter q
  name := Cluster.forall_set (Q := fun q m => m.pro.my_n.m = q) hname fun q _ => h.name q
  call := h.call
  dst := h.dst
  xid c hc := (h.xid c hc).trans_le
    (Cluster.forall_set (Q := fun q m => (s.node q).pro.xid ≤ m.pro.xid) hxid (fun _ _ => le_rfl)
      c.src)
  unique := h.unique
  reply_call := h.reply_call
  report := h.report
  phase := Cluster.forall_set (Q := fun q m => OpenPhase k nodes s.calls s.replies q m.pro.my_n
    m.pro.xid m.pro.phase) hphase fun q _ => h.phase q
  waiting := Cluster.forall_set (Q := fun q m => ∀ c, m.pro.waiting = some c →
    c.src = q ∧ m.pro.request = some (c.dst, c.req) ∧ LastCall s.calls c) hwait
    fun q _ => h.waiting q

/-- All calls of a proposer are below its next one. -/
theorem OpenInv.xid_lt (h : OpenInv k nodes s) (p : String) :
    ∀ c ∈ s.calls, c.src = p → c.xid < (s.node p).pro.xid := by
  rintro c hc rfl
  exact h.xid c hc

/-- One node changes the phase of its proposer. -/
theorem OpenInv.goto (h : OpenInv k nodes s) {phase : Phase}
    (hphase : OpenPhase k nodes s.calls s.replies p (s.node p).pro.my_n (s.node p).pro.xid phase) :
    OpenInv k nodes (s.set p ((s.node p).goto phase)) :=
  h.set (h.voter p) (h.name p) le_rfl hphase nofun

/-- One node goes on in the phase that the code between the loops leads to. -/
theorem OpenInv.goto_settle (h : OpenInv k nodes s) {phase : Phase}
    (hphase : OpenPhase k nodes s.calls s.replies p (s.node p).pro.my_n (s.node p).pro.xid phase) :
    OpenInv k nodes (s.set p ((s.node p).goto phase.settle)) :=
  h.goto (h.settle (h.name p) (h.xid_lt p) hphase)

/-- A proposer makes the call of its current turn. -/
theorem OpenInv.send (h : OpenInv k nodes s) (hsrc : c.src = p) (hx : c.xid = (s.node p).pro.xid)
    (hreq : (s.node p).pro.request = some (c.dst, c.req)) : OpenInv k nodes (s.send p c) := by
  have hphase := h.phase p
  have hname := h.name p
  -- What the turn says about the call.
  have hcall : OpenCall k nodes s.replies c ∧ c.dst ∈ nodes ∧
      (∀ arg, c.req = .accept arg → arg.n = (s.node p).pro.my_n ∧
        ∃ args v todo accepts, (s.node p).pro.phase = .accepting args v todo accepts ∧
          arg.v = v) := by
    unfold Proposer.request at hreq
    unfold OpenCall
    split at hreq
    · next args d todo accepts highest_seen v heq =>
      obtain ⟨hd, hr⟩ := Prod.mk.inj (Option.some.inj hreq)
      rw [heq] at hphase
      rw [← hr, ← hd]
      exact ⟨⟨hphase.inst, hname.trans hsrc.symm, hphase.pos, hname.symm ▸ hphase.word⟩,
        hphase.todo d List.mem_cons_self, nofun⟩
    · next args v d todo accepts heq =>
      obtain ⟨hd, hr⟩ := Prod.mk.inj (Option.some.inj hreq)
      rw [heq] at hphase
      obtain ⟨hnode, hprom⟩ := hphase.todo d List.mem_cons_self
      rw [← hr, ← hd]
      refine ⟨⟨⟨hphase.inst, hname.trans hsrc.symm, hphase.pos, hname.symm ▸ hphase.word⟩,
        hphase.proposal, hphase.backed, ?_, hprom⟩, hnode, fun arg harg => ?_⟩
      · rw [hsrc, hx]
        exact hphase.earlier
      · obtain rfl := Req.accept.inj harg
        exact ⟨rfl, args, v, d :: todo, accepts, heq, rfl⟩
    · next args v d todo heq =>
      obtain ⟨hd, hr⟩ := Prod.mk.inj (Option.some.inj hreq)
      rw [heq] at hphase
      rw [← hr, ← hd]
      exact ⟨trivial, hphase d List.mem_cons_self, nofun⟩
    · cases hreq
  obtain ⟨hinv, hdst, hown⟩ := hcall
  have hsub : s.calls ⊆ s.calls ++ [c] := List.subset_append_left _ _
  have hlast : LastCall (s.calls ++ [c]) c := by
    refine ⟨List.mem_append_right _ (List.mem_singleton.mpr rfl), ?_⟩
    refine List.forall_mem_append.mpr ⟨fun c' hc' hsrc' => ?_,
      List.forall_mem_singleton.mpr fun _ => Or.inl rfl⟩
    rw [hx]
    exact Or.inr (h.xid_lt p c' hc' (hsrc'.trans hsrc))
  have hprop : ∀ b w, Proposed (s.calls ++ [c]) (k + 1) b w →
      Proposed s.calls (k + 1) b w ∨ c.req = .accept ⟨k + 1, b, w⟩ := by
    rintro b w ⟨c', hc', hreq'⟩
    rcases List.mem_append.mp hc' with hc' | hc'
    · exact Or.inl ⟨c', hc', hreq'⟩
    · rw [List.mem_singleton.mp hc'] at hreq'
      exact Or.inr hreq'
  -- A proposal with the number of a proposer is its own one, and it is in the loop of `accept`.
  have hphases : ∀ q, OpenPhase k nodes (s.calls ++ [c]) s.replies q (s.node q).pro.my_n
      (s.node q).pro.xid (s.node q).pro.phase := by
    intro q
    have hq := h.phase q
    cases hph : (s.node q).pro.phase with
    | stable => trivial
    | committing => trivial
    | deciding args v todo =>
      rw [hph] at hq
      exact hq
    | preparing args todo accepts highest_seen v =>
      rw [hph] at hq
      refine { hq with promised := fun d hd => ?_ }
      obtain ⟨hnode, c₁, hc₁, res, hd₁, hsrc₁, hto, hle, hafter⟩ := hq.promised d hd
      refine ⟨hnode, c₁, hsub hc₁, res, hd₁, hsrc₁, hto, hle, ?_⟩
      refine List.forall_mem_append.mpr ⟨hafter, List.forall_mem_singleton.mpr ?_⟩
      intro arg hsrc' harg
      obtain ⟨-, _, _, _, _, hacc, -⟩ := hown arg harg
      rw [← hsrc, hsrc', hph] at hacc
      cases hacc
    | accepting args v todo accepts =>
      rw [hph] at hq
      refine { hq with only := fun w hw => ?_ }
      rcases hprop _ w hw with hw | harg
      · exact hq.only w hw
      · obtain ⟨hmine, args', v', todo', accepts', hacc, hv⟩ := hown _ harg
        have hqp : q = p := by
          rw [← h.name q, ← hname]
          exact congrArg PropT.m hmine
        rw [← hqp, hph] at hacc
        cases hacc
        exact hv
  -- Only the node that waits now has changed.
  have hxid : ∀ q, (s.node q).pro.xid ≤ ((s.send p c).node q).pro.xid :=
    Cluster.forall_set (Q := fun q m => (s.node q).pro.xid ≤ m.pro.xid) (Nat.le_succ _)
      fun _ _ => le_rfl
  refine ⟨Cluster.forall_set (Q := fun q m => q ∈ nodes → VoterInv k nodes s.replies q m.acc)
      (h.voter p) (fun q _ => h.voter q),
    Cluster.forall_set (Q := fun q m => m.pro.my_n.m = q) hname (fun q _ => h.name q),
    ?_, ?_, ?_, ?_, fun r hr => hsub (h.reply_call r hr), fun b c' res hto => ?_,
    Cluster.forall_set (Q := fun q m => OpenPhase k nodes (s.calls ++ [c]) s.replies q m.pro.my_n
        m.pro.xid m.pro.phase)
      ((hphases p).mono (List.Subset.refl _) (Nat.le_succ _)) (fun q _ => hphases q),
    Cluster.forall_set (Q := fun q m => ∀ c', m.pro.waiting = some c' → c'.src = q ∧
        m.pro.request = some (c'.dst, c'.req) ∧ LastCall (s.calls ++ [c]) c')
      (fun c' hc' => ?_) (fun q hqp c' hc' => ?_)⟩
  · exact List.forall_mem_append.mpr ⟨h.call, List.forall_mem_singleton.mpr hinv⟩
  · exact List.forall_mem_append.mpr ⟨h.dst, List.forall_mem_singleton.mpr hdst⟩
  · refine List.forall_mem_append.mpr ⟨fun c' hc' => (h.xid c' hc').trans_le (hxid c'.src),
      List.forall_mem_singleton.mpr ?_⟩
    have hself : ((s.send p c).node p).pro.xid = (s.node p).pro.xid + 1 :=
      congrArg (·.pro.xid) (s.set_node_self p _)
    rw [hsrc, hself, hx]
    exact Nat.lt_succ_self _
  · -- The call repeats what was proposed with this number, if anything was.
    have hnew : ∀ b w, c.req = .accept ⟨k + 1, b, w⟩ → ∀ w', Proposed s.calls (k + 1) b w' →
        w' = w := by
      intro b w harg w' hw'
      obtain ⟨hmine, args, v, todo, accepts, heq, hv⟩ := hown _ harg
      rw [heq] at hphase
      have hb : b = (s.node p).pro.my_n := hmine
      exact (hphase.only w' (hb ▸ hw')).trans hv.symm
    intro b v w hv hw
    rcases hprop b v hv with hv | hv <;> rcases hprop b w hw with hw | hw
    · exact h.unique b v w hv hw
    · exact hnew b w hw v hv
    · exact (hnew b v hv w hw).symm
    · have harg := Req.accept.inj (hv.symm.trans hw)
      exact (AcceptArg.mk.inj harg).2.2
  · refine ⟨(h.report b c' res hto).1, fun hne => ?_⟩
    obtain ⟨hp, hlt⟩ := (h.report b c' res hto).2 hne
    exact ⟨hp.mono hsub, hlt⟩
  · obtain rfl := Option.some.inj hc'
    exact ⟨hsrc, hreq, hlast⟩
  · obtain ⟨hsrc', hreq', hmem, hmax⟩ := h.waiting q c' hc'
    refine ⟨hsrc', hreq', hsub hmem, List.forall_mem_append.mpr ⟨hmax, ?_⟩⟩
    refine List.forall_mem_singleton.mpr fun hsame => absurd ?_ hqp
    rw [← hsrc', ← hsame, hsrc]

/-- A node replies to a call: its acceptor stays in order, its proposer does not change, and a
promise reports what was proposed. -/
theorem OpenInv.replied (h : OpenInv k nodes s) {r : Reply} (hc : r.call ∈ s.calls)
    (hpro : n.pro = (s.node r.call.dst).pro)
    (hvoter : VoterInv k nodes (s.replies ++ [r]) r.call.dst n.acc)
    (hrep : ∀ b res, r.call.req = .prepare ⟨k + 1, b⟩ → r.res = .prepare res → res.accept = true →
      (res.n_a.n = 0 → res.v_a = "") ∧
        (res.n_a.n ≠ 0 → Proposed s.calls (k + 1) res.n_a res.v_a ∧ res.n_a < b)) :
    OpenInv k nodes { s.set r.call.dst n with replies := s.replies ++ [r] } := by
  have hsub : s.replies ⊆ s.replies ++ [r] := List.subset_append_left _ _
  -- A reply of one node is no promise and no acceptance of another one.
  have hother : ∀ q, q ≠ r.call.dst → q ∈ nodes →
      VoterInv k nodes (s.replies ++ [r]) q (s.node q).acc := by
    intro q hq hmem
    refine (h.voter q hmem).mono hsub (fun i b c res hdst hto => ?_) fun i b v ha => ?_
    · rcases promisedTo_append hto with hto | ⟨rfl, -⟩
      · exact hto
      · exact absurd hdst.symm hq
    · rcases accepted_append ha with ha | ⟨hdst, -⟩
      · exact ha
      · exact absurd hdst.symm hq
  exact
    { voter := Cluster.forall_set
        (Q := fun q m => q ∈ nodes → VoterInv k nodes (s.replies ++ [r]) q m.acc)
        (fun _ => hvoter) hother
      name := Cluster.forall_set (Q := fun q m => m.pro.my_n.m = q) (hpro ▸ h.name r.call.dst)
        fun q _ => h.name q
      call := fun c hc => (h.call c hc).mono hsub
      dst := h.dst
      xid := fun c hc => (h.xid c hc).trans_le
        (Cluster.forall_set (Q := fun q m => (s.node q).pro.xid ≤ m.pro.xid) (by rw [hpro])
          (fun _ _ => le_rfl) c.src)
      unique := h.unique
      reply_call := List.forall_mem_append.mpr ⟨h.reply_call, List.forall_mem_singleton.mpr hc⟩
      report := by
        intro b c res hto
        rcases promisedTo_append hto with hold | ⟨rfl, hreq, hres⟩
        · exact h.report b c res hold
        · exact hrep b res hreq hres hto.1
      phase := Cluster.forall_set (Q := fun q m => OpenPhase k nodes s.calls (s.replies ++ [r]) q
          m.pro.my_n m.pro.xid m.pro.phase)
        (by rw [hpro]; exact (h.phase r.call.dst).mono hsub le_rfl)
        fun q _ => (h.phase q).mono hsub le_rfl
      waiting := Cluster.forall_set (Q := fun q m => ∀ c, m.pro.waiting = some c →
          c.src = q ∧ m.pro.request = some (c.dst, c.req) ∧ LastCall s.calls c)
        (by rw [hpro]; exact h.waiting r.call.dst) fun q _ => h.waiting q }

/-! ## The events -/

/-- The counter of a new proposal is not `0` when one of the two counters does not wrap. -/
theorem Proposer.setn_ne_zero {pro : Proposer} {n_h : PropT}
    (h : n_h.n + 1 ≠ 0 ∨ pro.my_n.n + 1 ≠ 0) : (pro.setn n_h).n ≠ 0 := by
  unfold Proposer.setn
  dsimp only
  -- The larger one of the two sums is taken.
  rw [Ne, ← UInt32.toNat_inj, Ne, ← UInt32.toNat_inj, UInt32.toNat_zero] at h
  rw [Ne, ← UInt32.toNat_inj, UInt32.toNat_zero]
  split_ifs with hgt
  · have := UInt32.lt_iff_toNat_lt.mp hgt
    omega
  · rw [gt_iff_lt, UInt32.lt_iff_toNat_lt] at hgt
    omega

/-- A run starts. -/
theorem OpenInv.run (h : OpenInv k nodes s) {args : RunArgs}
    (hargs : args.inst = k + 1 ∧ args.cur_nodes = nodes ∧ args.newv ≠ "")
    (hrec : IsWord p ∧ OneLine args.newv ∧
      ((s.node p).acc.n_h.n + 1 ≠ 0 ∨ (s.node p).pro.my_n.n + 1 ≠ 0)) :
    OpenInv k nodes (s.set p ((s.node p).run args)) := by
  obtain ⟨hinst, hnodes, hne⟩ := hargs
  obtain ⟨hword, hline, hwrap⟩ := hrec
  have hrun : (s.node p).run args = { s.node p with
      pro := (s.node p).pro.run (s.node p).acc.n_h args } := rfl
  rw [hrun]
  unfold Proposer.run
  split_ifs with hstable
  · refine h.set (h.voter p) (h.name p) le_rfl ?_ nofun
    have hm : ((s.node p).pro.setn (s.node p).acc.n_h).m = p := h.name p
    have hnew : OpenPhase k nodes s.calls s.replies p ((s.node p).pro.setn (s.node p).acc.n_h)
        (s.node p).pro.xid (.preparing args args.cur_nodes [] ⟨0, ""⟩ "") :=
      ⟨hword, Proposer.setn_ne_zero hwrap, hinst, hnodes, ⟨hne, hline⟩, fun d hd => hnodes ▸ hd,
        by simp, Or.inl ⟨rfl, rfl⟩⟩
    exact h.settle hm (h.xid_lt p) hnew
  · exact h.set (h.voter p) (h.name p) le_rfl (h.phase p) (h.waiting p)

/-- The loop of `prepare` takes a promise: the value is the one of the highest report so far. -/
theorem OpenPreparing.promise {cs : List Call} {rs : List Reply} {my_n : PropT} {args : RunArgs}
    {d : String} {todo accepts : List String} {highest_seen : PropT} {v : String}
    (h : OpenPreparing k nodes cs rs p my_n args (d :: todo) accepts highest_seen v)
    (hdst : c.dst = d) (hsrc : c.src = p) (hlast : LastCall cs c) {res : PrepareRes}
    (hto : PromisedTo rs (k + 1) my_n c res) (hzero : res.n_a.n = 0 → res.v_a = "")
    (hprop : res.n_a.n ≠ 0 → Proposable res.v_a) :
    OpenPreparing k nodes cs rs p my_n args todo (accepts ++ [d])
      (if res.n_a.gt highest_seen then res.n_a else highest_seen)
      (if res.n_a.gt highest_seen then res.v_a else v) := by
  have hself : d ∈ accepts ++ [d] := List.mem_append_right _ (List.mem_singleton.mpr rfl)
  have hnode : d ∈ nodes := h.todo d List.mem_cons_self
  have htodo : ∀ d ∈ todo, d ∈ nodes := fun d hd => h.todo d (List.mem_cons_of_mem _ hd)
  -- The call is the last one, and the proposals are other calls.
  have hafter : ∀ c' ∈ cs, ∀ arg, c'.src = p → c'.req = .accept arg → c'.xid < c.xid := by
    intro c' hc' arg hsrc' hreq'
    rcases hlast.2 c' hc' (hsrc'.trans hsrc.symm) with rfl | hlt
    · rw [hto.2.1] at hreq'
      cases hreq'
    · exact hlt
  split_ifs with hgt
  · -- The report is the highest one so far.
    have hlt : highest_seen < res.n_a := PropT.gt_iff.mp hgt
    refine ⟨h.word, h.pos, h.inst, h.cur_nodes, h.newv, htodo, List.forall_mem_append.mpr
      ⟨fun d' hd' => ?_, List.forall_mem_singleton.mpr
        ⟨hnode, c, hlast.1, res, hdst, hsrc, hto, le_rfl, hafter⟩⟩, ?_⟩
    · obtain ⟨hnode', c', hc', res', hdst', hsrc', hto', hle, hafter'⟩ := h.promised d' hd'
      exact ⟨hnode', c', hc', res', hdst', hsrc', hto', hle.trans hlt.le, hafter'⟩
    · by_cases hn : res.n_a.n = 0
      · exact Or.inl ⟨hn, hzero hn⟩
      · exact Or.inr ⟨hn, hprop hn, d, hself, res, hdst ▸ hto.promised, rfl, rfl⟩
  · have hle : res.n_a ≤ highest_seen := not_lt.mp fun hlt => hgt (PropT.gt_iff.mpr hlt)
    refine ⟨h.word, h.pos, h.inst, h.cur_nodes, h.newv, htodo, List.forall_mem_append.mpr
      ⟨h.promised, List.forall_mem_singleton.mpr
        ⟨hnode, c, hlast.1, res, hdst, hsrc, hto, hle, hafter⟩⟩, ?_⟩
    exact h.highest.imp id fun ⟨hne, hpr, d', hd', hrest⟩ =>
      ⟨hne, hpr, d', List.mem_append_left _ hd', hrest⟩

/-- A commit of instance `k + 1` at a node that has it open. -/
theorem instance_h_commitWo {a : Acceptor} (ha : a.instance_h = k) (v : String) :
    (a.commitWo (k + 1) v).instance_h = k + 1 := by
  unfold Acceptor.commitWo
  rw [if_pos (by omega)]

/-- A proposer takes the reply that it waits for, and nothing is committed by it. -/
theorem OpenInv.receive (h : OpenInv k nodes s) {r : Reply} (hr : r ∈ s.replies)
    (hwait : (s.node r.call.src).pro.waiting = some r.call)
    (hopen : Uncommitted k nodes (s.set r.call.src ((s.node r.call.src).receive r.res))) :
    OpenInv k nodes (s.set r.call.src ((s.node r.call.src).receive r.res)) := by
  obtain ⟨hsrc, hreq, hlast⟩ := h.waiting _ _ hwait
  have hphase := h.phase r.call.src
  generalize hp : r.call.src = p at *
  unfold Node.receive at hopen ⊢
  split at hopen
  · next args d todo accepts highest_seen v res hph hres =>
    simp only [Proposer.request, hph, Option.some.injEq, Prod.mk.injEq] at hreq
    obtain ⟨hd, hreq⟩ := hreq
    rw [hph] at hphase
    by_cases hold : res.oldinstance = true
    · -- The instance is an old one. A voter would commit it.
      rw [if_pos hold] at hopen ⊢
      have hnot : p ∉ nodes := by
        intro hmem
        have hle := hopen p hmem
        rw [s.set_node_self, hphase.inst] at hle
        have hinst : ((s.node p).acc.commitWo (k + 1) res.v_a).instance_h = k + 1 :=
          instance_h_commitWo (h.voter p hmem).inst _
        have hle' : ((s.node p).acc.commitWo (k + 1) res.v_a).instance_h ≤ k := hle
        omega
      refine h.set (fun hmem => absurd hmem hnot) (h.name p) le_rfl ?_ fun c hc => by cases hc
      show OpenPhase k nodes _ _ _ _ _ (if (s.node p).acc.commitUpcalls args.inst then _ else _)
      split_ifs <;> trivial
    rw [if_neg hold]
    by_cases hacc : res.accept = true
    · rw [if_pos hacc]
      have hto : PromisedTo s.replies (k + 1) (s.node p).pro.my_n r.call res :=
        ⟨hacc, by rw [← hreq, hphase.inst], by rw [← hres]; exact hr⟩
      obtain ⟨hzero, hrep⟩ := h.report _ _ _ hto
      have hnext := hphase.promise hd.symm hp hlast hto hzero fun hne =>
        (h.proposed (hrep hne).1).2.2.1
      split_ifs at hnext ⊢
      · exact h.goto_settle hnext
      · exact h.goto_settle hnext
    · rw [if_neg hacc]
      refine h.goto_settle ?_
      exact { hphase with todo := fun d' hd' => hphase.todo d' (List.mem_cons_of_mem _ hd') }
  · next args v d todo accepts ok hph hres =>
    rw [hph] at hphase
    refine h.goto_settle { hphase with
      todo := fun d' hd' => hphase.todo d' (List.mem_cons_of_mem _ hd'), accepts := ?_ }
    have hd := (hphase.todo d List.mem_cons_self).1
    split_ifs
    · exact List.forall_mem_append.mpr ⟨hphase.accepts, List.forall_mem_singleton.mpr hd⟩
    · exact hphase.accepts
  · next args v d todo hph hres =>
    rw [hph] at hphase
    refine h.goto_settle (fun d' hd' => ?_)
    exact hphase d' (List.mem_cons_of_mem _ hd')
  · exact h.set (h.voter p) (h.name p) le_rfl (h.phase p) (h.waiting p)

/-- The report of a promise is the proposal that the acceptor has accepted. -/
theorem OpenInv.prepare_report (h : OpenInv k nodes s) {d : String} (hd : d ∈ nodes)
    {arg : PrepareArg} (hacc : ((s.node d).acc.preparereq arg).2.accept = true) :
    (((s.node d).acc.preparereq arg).2.n_a.n = 0 → ((s.node d).acc.preparereq arg).2.v_a = "") ∧
      (((s.node d).acc.preparereq arg).2.n_a.n ≠ 0 →
        Proposed s.calls (k + 1) ((s.node d).acc.preparereq arg).2.n_a
          ((s.node d).acc.preparereq arg).2.v_a ∧
        ((s.node d).acc.preparereq arg).2.n_a < arg.n) := by
  have hV := h.voter d hd
  unfold Acceptor.preparereq at hacc ⊢
  split_ifs at hacc ⊢ with hold hgt
  refine ⟨hV.acceptor.nothing, fun hne => ?_⟩
  obtain ⟨hcur, hle⟩ := hV.acceptor.current hne
  rw [hV.inst] at hcur
  obtain ⟨c, hc, -, hreq⟩ := h.exists_call hcur
  exact ⟨⟨c, hc, hreq⟩, lt_of_le_of_lt hle (PropT.gt_iff.mp hgt)⟩

/-- A decide request that commits nothing at a voter leaves its acceptor as it is. -/
theorem acc_decidereq (hn : n.acc.instance_h = k) {arg : DecideArg}
    (hopen : (n.decidereq arg).acc.instance_h ≤ k) :
    (n.decidereq arg).acc = n.acc ∧ (n.decidereq arg).pro = n.pro := by
  unfold Node.decidereq Acceptor.decidereq at hopen ⊢
  by_cases hnext : arg.inst = n.acc.instance_h + 1
  · by_cases hval : n.acc.v_a = arg.v
    · simp only [if_pos hnext, if_pos hval] at hopen
      rw [hnext, hn, instance_h_commitWo hn] at hopen
      omega
    · simp only [if_pos hnext, if_neg hval, and_self]
  · by_cases hold : arg.inst ≤ n.acc.instance_h
    · simp only [if_neg hnext, if_pos hold, and_self]
    · simp only [if_neg hnext, if_neg hold, and_self]

/-- A request reaches its node, and nothing is committed by it. -/
theorem OpenInv.handle (h : OpenInv k nodes s) (hc : c ∈ s.calls)
    (hopen : Uncommitted k nodes (s.handle c)) : OpenInv k nodes (s.handle c) := by
  have hdst := h.dst c hc
  have hV := h.voter c.dst hdst
  have hcall := h.call c hc
  unfold Cluster.handle at hopen ⊢
  cases hreq : c.req with
  | prepare arg =>
    simp only [OpenCall, hreq] at hcall
    refine h.replied (r := ⟨c, _⟩) hc rfl (hV.preparereq hreq hcall.inst hcall.word) ?_
    intro b res hreq' hres hacc
    obtain rfl : arg = ⟨k + 1, b⟩ := Req.prepare.inj (hreq.symm.trans hreq')
    obtain rfl := Res.prepare.inj hres
    exact h.prepare_report hdst hacc
  | accept arg =>
    simp only [OpenCall, hreq] at hcall
    obtain ⟨hnum, hprop, -, -, hprom⟩ := hcall
    rw [← hnum.inst] at hprom
    refine h.replied (r := ⟨c, _⟩) hc rfl (hV.acceptreq rfl hreq hnum.inst hnum.pos hnum.word
      hprop.2 (fun i b v ha => (h.accepted ha).2) hprom) ?_
    intro b res _ hres
    cases hres
  | decide arg =>
    rw [hreq] at hopen
    have hle := hopen c.dst hdst
    simp only [Node.handle] at hle ⊢
    have hself : ((s.set c.dst ((s.node c.dst).decidereq arg)).node c.dst) =
        (s.node c.dst).decidereq arg := s.set_node_self _ _
    rw [show ({ s.set c.dst ((s.node c.dst).decidereq arg) with replies := _ } : Cluster).node
      c.dst = (s.node c.dst).decidereq arg from hself] at hle
    obtain ⟨hacc, hpro⟩ := acc_decidereq hV.inst hle
    split_ifs with hsome
    · refine h.replied (r := ⟨c, .decide⟩) hc hpro ?_ fun b res _ hres => by cases hres
      rw [hacc]
      refine hV.mono (List.subset_append_left _ _) (fun i b c' res _ hto => ?_) fun i b v ha => ?_
      · rcases promisedTo_append hto with hto | ⟨-, -, hres⟩
        · exact hto
        · cases hres
      · rcases accepted_append ha with ha | ⟨-, -, hres⟩
        · exact ha
        · cases hres
    · -- The node went down, without a reply.
      simp only [Option.map_none, Option.toList_none, List.append_nil]
      refine h.set (fun _ => by rw [hacc]; exact hV) ?_ ?_ ?_ ?_
      · rw [hpro]
        exact h.name c.dst
      · rw [hpro]
      · rw [hpro]
        exact h.phase c.dst
      · rw [hpro]
        exact h.waiting c.dst

/-- A node crashes and starts again, and does not commit the instance by it. -/
theorem OpenInv.restart (h : OpenInv k nodes s) {first : Bool} {value : String} {s' : Cluster}
    (hs : s.restart p first value = some s') (hopen : Uncommitted k nodes s') :
    OpenInv k nodes s' := by
  obtain ⟨acc, hacc, rfl⟩ := Option.map_eq_some_iff.mp hs
  refine h.set (fun hmem => ?_) rfl le_rfl trivial nofun
  have hV := h.voter p hmem
  obtain ⟨b, hread, hagree, hlogged⟩ := hV.logged.logread
  rw [hV.me] at hread
  simp only [Acceptor.construct, hread, Option.map_some, Option.some.injEq] at hacc
  split_ifs at hacc with hfirst
  · -- The first node takes the first view as committed.
    have hle := hopen p hmem
    rw [s.set_node_self, ← hacc] at hle
    have hle' : 1 ≤ k := hle
    have hzero := hagree.instance_h.symm.trans hfirst.1
    rw [hV.inst] at hzero
    omega
  · show VoterInv k nodes s.replies p acc
    rw [← hacc]
    exact hV.agrees (fun i n res hp => (h.promised hp).2.2) (fun i n v ha => (h.accepted ha).2)
      hagree hlogged

/-- Every event of a run that can be recorded keeps the invariant, up to the first commit. -/
theorem openInv_next (h : OpenInv k nodes s) {e : CrashEvent} (hG : RecordableRuns k nodes s e)
    {s' : Cluster} (hs : s.nextOrRestart e = some s') (hopen : Uncommitted k nodes s') :
    OpenInv k nodes s' := by
  obtain ⟨⟨hinst, -⟩, hrec⟩ := hG
  cases e with
  | restart p first value => exact h.restart hs hopen
  | step e =>
    simp only [Cluster.nextOrRestart] at hs
    cases e with
    | run p args =>
      obtain ⟨-, ⟨⟩⟩ := Option.ite_none_left_eq_some.mp hs
      exact h.run hinst hrec
    | send p =>
      simp only [Cluster.next] at hs
      split_ifs at hs
      obtain ⟨⟨d, req⟩, hreq, rfl⟩ := Option.map_eq_some_iff.mp hs
      exact h.send rfl rfl hreq
    | skip p =>
      obtain ⟨-, ⟨⟩⟩ := Option.ite_none_left_eq_some.mp hs
      exact h.goto (h.skip (h.name p) (h.xid_lt p) (h.phase p))
    | handle j =>
      obtain ⟨c, hc, hs⟩ := Option.bind_eq_some_iff.mp hs
      obtain ⟨-, ⟨⟩⟩ := Option.ite_none_left_eq_some.mp hs
      exact h.handle (List.mem_of_getElem? hc) hopen
    | reply j =>
      obtain ⟨r, hr, hs⟩ := Option.bind_eq_some_iff.mp hs
      obtain ⟨hno, ⟨⟩⟩ := Option.ite_none_left_eq_some.mp hs
      rw [not_or, not_not] at hno
      exact h.receive (List.mem_of_getElem? hr) hno.2 hopen
    | upcall p j =>
      obtain ⟨u, hu, hs⟩ := Option.bind_eq_some_iff.mp hs
      obtain ⟨-, ⟨⟩⟩ := Option.ite_none_left_eq_some.mp hs
      unfold Node.upcalled
      dsimp only
      split_ifs
      · exact h.set (h.voter p) (h.name p) le_rfl trivial fun c hc => by cases hc
      · exact h.set (h.voter p) (h.name p) le_rfl (h.phase p) (h.waiting p)

/-- The invariant holds initially. -/
theorem openInv_init (hs : (openSystem k nodes).init s) : OpenInv k nodes s := by
  obtain ⟨hcalls, hreplies, hpro, hvoters⟩ := hs
  have hto : ∀ {i b c res}, ¬ PromisedTo s.replies i b c res := by
    rintro i b c res ⟨-, -, hmem⟩
    rw [hreplies] at hmem
    cases hmem
  have hprom : ∀ {d i b res}, ¬ Promised s.replies d i b res := by
    intro d i b res hp
    obtain ⟨c, -, hp⟩ := hp.exists_call
    exact hto hp
  have hacc : ∀ {d i b v}, ¬ Accepted s.replies d i b v := by
    rintro d i b v ⟨c, -, -, hmem⟩
    rw [hreplies] at hmem
    cases hmem
  refine ⟨fun d hd => ?_, fun p => (hpro p).1, ?_, ?_, ?_, ?_, ?_, fun b c res h => absurd h hto,
    fun p => ?_, fun p c hc => ?_⟩
  · obtain ⟨hme, hinst, -, hn_a, hv_a, hlogged⟩ := hvoters d hd
    refine ⟨hme, hinst, hlogged, ?_, fun _ _ _ _ _ _ _ hp => absurd hp hto⟩
    exact ⟨hinst.ge, fun _ _ _ hp => absurd hp hprom, fun _ _ _ ha => absurd ha hacc,
      fun _ => hv_a, fun hne => absurd hn_a hne, fun _ _ _ _ _ hp => absurd hp hprom,
      fun _ _ _ _ hp => absurd hp hprom, fun i hi => Or.inr ⟨⟨d, hinst ▸ hi⟩, rfl⟩⟩
  · rw [hcalls]
    simp
  · rw [hcalls]
    simp
  · rw [hcalls]
    simp
  · rw [hcalls]
    rintro b v w ⟨c, hc, -⟩
    cases hc
  · rw [hreplies]
    simp
  · rw [(hpro p).2.1]
    trivial
  · rw [(hpro p).2.2] at hc
    cases hc

/-! ## Adoption -/

/-- A value that a majority accepted is the value of every proposal with a higher number, and a
number is proposed with one value. -/
structure Adopted (k : ℕ) (nodes : List String) (s : Cluster) : Prop where
  /-- The value chosen is adopted. -/
  adopted : ∀ n v, ChosenAt (fun _ => nodes) s.replies (k + 1) n v →
    ∀ n' v', Proposed s.calls (k + 1) n' v' → n < n' → v' = v
  /-- A number has one value. -/
  unique : ∀ n v w, Proposed s.calls (k + 1) n v → Proposed s.calls (k + 1) n w → v = w

/-- Up to the first commit of an instance, in every run that can be recorded, a value that a
majority accepted is adopted by every later proposal. -/
theorem value_adopted (h : (openSystem k nodes).Reachable (RecordableRuns k nodes) s)
    (hopen : Uncommitted k nodes s) : Adopted k nodes s := by
  have hinv : Uncommitted k nodes s → OpenInv k nodes s :=
    h.invariant (I := fun s => Uncommitted k nodes s → OpenInv k nodes s)
      (fun _ hinit _ => openInv_init hinit)
      fun _ _ _ hI hG hs hopen => openInv_next (hI hG.1.2) hG hs hopen
  have hlaws := (hinv hopen).votingLaws
  exact ⟨fun n v hchosen n' v' hprop hlt =>
    hlaws.lawful.proposed_eq_of_chosen (chosen_of_chosenAt _ hchosen) hprop hlt.le, hlaws.unique⟩

/-- A cluster of nodes that start for the first time has the first instance open. -/
theorem open_fresh (nodes : List String) : (openSystem 0 nodes).init Cluster.fresh :=
  ⟨rfl, rfl, fun _ => ⟨rfl, rfl, rfl⟩, fun d _ => ⟨rfl, rfl, rfl, rfl, rfl, logged_fresh d⟩⟩

/-- Node `1` gets the value `v` accepted by nodes `1` and `2`. Both crash and come back, and node
`3`, which has the value `z`, gets the promises of both and sends its first proposal. -/
def crashedVoters (v : String) : List CrashEvent :=
  [.step (.run "1" ⟨1, ["1", "2", "3"], v⟩),
    .step (.send "1"), .step (.handle 0), .step (.reply 0),
    .step (.send "1"), .step (.handle 1), .step (.reply 1), .step (.skip "1"),
    .step (.send "1"), .step (.handle 2), .step (.reply 2),
    .step (.send "1"), .step (.handle 3), .step (.reply 3),
    .restart "1" false "", .restart "2" false "",
    .step (.run "3" ⟨1, ["1", "2", "3"], "z"⟩),
    .step (.send "3"), .step (.handle 4), .step (.reply 4),
    .step (.send "3"), .step (.handle 5), .step (.reply 5), .step (.skip "3"), .step (.send "3")]

/-- After the crash of both voters node `3` proposes the value that they had accepted. -/
theorem value_adopted_after_crash : ∃ s,
    (openSystem 0 ["1", "2", "3"]).Reachable (RecordableRuns 0 ["1", "2", "3"]) s ∧
      Proposed s.calls 1 ⟨1, "3"⟩ "x" ∧ Adopted 0 ["1", "2", "3"] s := by
  have hrun : ((openSystem 0 ["1", "2", "3"]).execGuarded (RecordableRuns 0 ["1", "2", "3"])
      Cluster.fresh (crashedVoters "x")).map (fun s =>
        (s.calls[6]?, decide (Uncommitted 0 ["1", "2", "3"] s))) =
      some (some ⟨"3", 2, "1", .accept ⟨1, ⟨1, "3"⟩, "x"⟩⟩, true) := by decide
  obtain ⟨s, hexec, hdata⟩ := Option.map_eq_some_iff.mp hrun
  rw [Prod.mk.injEq, decide_eq_true_eq] at hdata
  obtain ⟨hcall, hopen⟩ := hdata
  have hreach := System.Reachable.of_execGuarded hexec (open_fresh _)
  exact ⟨s, hreach, ⟨_, List.mem_of_getElem? hcall, rfl⟩, value_adopted hreach hopen⟩

/-- The value that nodes `1` and `2` accepted holds a line that reads as another record. After a
crash they report this record, and node `3` proposes another value than the one chosen. -/
theorem newline_forges_report : ∃ s,
    (openSystem 0 ["1", "2", "3"]).Reachable (OpenRuns 0 ["1", "2", "3"]) s ∧
      Uncommitted 0 ["1", "2", "3"] s ∧
      ChosenAt (fun _ => ["1", "2", "3"]) s.replies 1 ⟨1, "1"⟩ "x\naccepted 2 q y" ∧
      Proposed s.calls 1 ⟨1, "3"⟩ "y" ∧ ¬ Adopted 0 ["1", "2", "3"] s := by
  have hrun : ((openSystem 0 ["1", "2", "3"]).execGuarded (OpenRuns 0 ["1", "2", "3"])
      Cluster.fresh (crashedVoters "x\naccepted 2 q y")).map (fun s =>
        (s.replies[2]?, s.replies[3]?, s.calls[6]?, decide (Uncommitted 0 ["1", "2", "3"] s))) =
      some (some ⟨⟨"1", 2, "1", .accept ⟨1, ⟨1, "1"⟩, "x\naccepted 2 q y"⟩⟩, .accept true⟩,
        some ⟨⟨"1", 3, "2", .accept ⟨1, ⟨1, "1"⟩, "x\naccepted 2 q y"⟩⟩, .accept true⟩,
        some ⟨"3", 2, "1", .accept ⟨1, ⟨1, "3"⟩, "y"⟩⟩, true) := by decide
  obtain ⟨s, hexec, hdata⟩ := Option.map_eq_some_iff.mp hrun
  simp only [Prod.mk.injEq, decide_eq_true_eq] at hdata
  obtain ⟨hacc₁, hacc₂, hcall, hopen⟩ := hdata
  have hreach := System.Reachable.of_execGuarded hexec (open_fresh _)
  have hchosen : ChosenAt (fun _ => ["1", "2", "3"]) s.replies 1 ⟨1, "1"⟩ "x\naccepted 2 q y" := by
    refine ⟨["1", "2"], by decide, ?_⟩
    refine List.forall_mem_cons.mpr ⟨⟨_, rfl, rfl, List.mem_of_getElem? hacc₁⟩, ?_⟩
    exact List.forall_mem_singleton.mpr ⟨_, rfl, rfl, List.mem_of_getElem? hacc₂⟩
  have hprop : Proposed s.calls 1 ⟨1, "3"⟩ "y" := ⟨_, List.mem_of_getElem? hcall, rfl⟩
  refine ⟨s, hreach, hopen, hchosen, hprop, fun h => ?_⟩
  exact absurd (h.adopted _ _ hchosen _ _ hprop (by decide)) (by decide)

end SimpleDfs.Paxos
