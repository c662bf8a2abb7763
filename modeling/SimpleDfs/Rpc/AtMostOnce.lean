import Mathlib.Data.List.Count
import SimpleDfs.Base.System
import SimpleDfs.Rpc.ReplyWindow

/-!
# At-most-once execution

A server and the clients that call it, as far as `rpcs::dispatch` decides whether a handler runs. A
client issues its requests with increasing xids, and with an `xid_rep` below which all of its calls
have finished, as `rpcc::call1` does; any number of copies of a request may then arrive in any
order, and each handler that was started records its reply at any later time.

Not every run executes a request at most once: `duplicate_first_request` is a run with two handlers
for the same xid. `handler_runs_at_most_once` shows that two situations are to blame, those that
`Recognisable` excludes. A copy of the request that opened the window is not recognised until its
reply is recorded, because the window remembers that request as xid `0`. A request below the front
of the window is not recognised as old when another entry is below the front, because `min_xid` is
then the request's own xid.

The invariant is that every xid already started is the opening one, or is in the window, or is
below its front, and that the front never decreases.
-/

namespace SimpleDfs.Rpc

/-- A request header, as far as the at-most-once logic reads it. -/
structure Request where
  /-- The xid of the call. -/
  xid : ℕ
  /-- The xid below which all of the client's calls had finished. -/
  xid_rep : ℕ
  deriving DecidableEq, Repr

/-- The server's windows, with the requests issued and the handlers started so far. -/
structure State where
  /-- `reply_window_`, by client nonce. -/
  reply_window_ : ℕ → Option (List ReplyT)
  /-- The requests that each client has issued, the latest first. -/
  issued : ℕ → List Request
  /-- The xids of the calls that each client has finished, with a reply or without. -/
  finished : ℕ → List ℕ
  /-- The client and xid of each handler that is running. -/
  running : List (ℕ × ℕ)
  /-- The client and xid of each handler ever started, the latest first. -/
  started : List (ℕ × ℕ)
  /-- For each client, the xid of the request that found its window empty. -/
  opener : ℕ → Option ℕ

/-- What can happen next. -/
inductive Event where
  /-- A client issues a call. -/
  | call (clt_nonce xid xid_rep : ℕ)
  /-- A client's call returns. -/
  | finish (clt_nonce xid : ℕ)
  /-- A copy of a request arrives at `rpcs::dispatch`. -/
  | dispatch (clt_nonce : ℕ) (req : Request)
  /-- A handler returns and `rpcs::dispatch` records its reply. -/
  | reply (clt_nonce xid : ℕ) (b : List UInt8) (sz : ℤ)
  deriving DecidableEq, Repr

/-- The window of a client, empty when `dispatch` has not created it yet. -/
def State.window (s : State) (clt_nonce : ℕ) : List ReplyT := (s.reply_window_ clt_nonce).getD []

/-- `rpcs::dispatch` up to the start of the handler. The client nonce `0` asks for no at-most-once
logic. -/
def State.dispatch (s : State) (clt_nonce : ℕ) (req : Request) : State :=
  if clt_nonce = 0 then
    { s with running := (0, req.xid) :: s.running, started := (0, req.xid) :: s.started }
  else
    let w := s.window clt_nonce
    let (state, w', _) := checkduplicateAndUpdate w req.xid req.xid_rep
    let s' : State := { s with
      reply_window_ := Function.update s.reply_window_ clt_nonce (some w')
      opener := if w = [] then Function.update s.opener clt_nonce (some req.xid) else s.opener }
    if state = .NEW then
      { s' with
        running := (clt_nonce, req.xid) :: s.running
        started := (clt_nonce, req.xid) :: s.started }
    else s'

/-- The promise of a client about a request: its xid is new and the largest so far, and every call
below `xid_rep`, of which the new one is none, has finished. -/
def State.Promised (s : State) (clt_nonce xid xid_rep : ℕ) : Prop :=
  (∀ r ∈ s.issued clt_nonce, r.xid < xid) ∧ xid_rep ≤ xid ∧
    ∀ r ∈ s.issued clt_nonce, r.xid < xid_rep → r.xid ∈ s.finished clt_nonce

instance (s : State) (clt_nonce xid xid_rep : ℕ) : Decidable (s.Promised clt_nonce xid xid_rep) :=
  inferInstanceAs (Decidable (_ ∧ _ ∧ _))

/-- The state after an event. A request arrives only after it was issued, and a reply is recorded
only by a running handler. -/
def State.next (s : State) : Event → Option State
  | .call clt_nonce xid xid_rep =>
    if s.Promised clt_nonce xid xid_rep then
      some { s with
        issued := Function.update s.issued clt_nonce (⟨xid, xid_rep⟩ :: s.issued clt_nonce) }
    else none
  | .finish clt_nonce xid =>
    some { s with finished := Function.update s.finished clt_nonce (xid :: s.finished clt_nonce) }
  | .dispatch clt_nonce req =>
    if req ∈ s.issued clt_nonce then some (s.dispatch clt_nonce req) else none
  | .reply clt_nonce xid b sz =>
    if (clt_nonce, xid) ∈ s.running then
      let s' := { s with running := s.running.erase (clt_nonce, xid) }
      if clt_nonce = 0 then some s'
      else some { s' with
        reply_window_ := Function.update s.reply_window_ clt_nonce
          (some (addReply (s.window clt_nonce) xid b sz)) }
    else none

/-- A server that has not seen any request. -/
def State.initial : State :=
  ⟨fun _ => none, fun _ => [], fun _ => [], [], [], fun _ => none⟩

/-- The system of one server and its clients. -/
def rpcSystem : System State Event := ⟨(· = State.initial), State.next⟩

/-- The xid is recorded in the window. -/
def Recorded (w : List ReplyT) (xid : ℕ) : Prop := ∃ r ∈ w, r.xid = xid

instance (w : List ReplyT) (xid : ℕ) : Decidable (Recorded w xid) :=
  inferInstanceAs (Decidable (∃ r ∈ w, r.xid = xid))

/-- A request that the window `w`, opened by the request `opener`, can classify. A further copy of
the opening request comes only when its reply is recorded, or below the front. A request below the
front comes only when it is recorded, or when the front is the smallest entry. -/
def Classifies (w : List ReplyT) (opener : Option ℕ) (xid : ℕ) : Prop :=
  ∀ front ∈ w.head?, (opener = some xid → Recorded w xid ∨ xid < front.xid) ∧
    (xid < front.xid → Recorded w xid ∨ ∀ r ∈ w, front.xid ≤ r.xid)

instance (w : List ReplyT) (opener : Option ℕ) (xid : ℕ) : Decidable (Classifies w opener xid) :=
  inferInstanceAs (Decidable (∀ front ∈ w.head?, _))

/-- The condition on a step: an arriving request is one that its client's window can classify. -/
def Recognisable (s : State) : Event → Prop
  | .dispatch clt_nonce req =>
    Classifies (s.window clt_nonce) (s.opener clt_nonce) req.xid
  | _ => True

instance (s : State) : ∀ e, Decidable (Recognisable s e)
  | .dispatch clt_nonce req =>
    inferInstanceAs (Decidable (Classifies (s.window clt_nonce) (s.opener clt_nonce) req.xid))
  | .call .. => isTrue trivial
  | .finish .. => isTrue trivial
  | .reply .. => isTrue trivial

/-! ## One request against one window -/

variable {req : Request} {s : State} {xid xid_rep : ℕ} {clt : ℕ} {rest : List ReplyT}
  {w : List ReplyT} {front : ReplyT}

/-- A request that is recorded, and that the client sent with an `xid_rep` up to its xid, is not
answered `NEW`. -/
theorem check_ne_new_of_recorded (h : Recorded w xid) (hrep : xid_rep ≤ xid) :
    (checkduplicateAndUpdate w xid xid_rep).1 ≠ .NEW := by
  obtain ⟨r, hr, hx⟩ := h
  cases w with
  | nil => simp at hr
  | cons front rest =>
    simp only [checkduplicateAndUpdate]
    split
    · simp
    · -- The cleanup keeps the entry, so that the scan meets it.
      intro hnew
      have hmem : r ∈ cleanup xid_rep (front :: rest) := mem_cleanup.mpr ⟨hr, by omega⟩
      exact (scan_eq_new_iff _ _).mp hnew r hmem hx

/-- A request below the front is answered `FORGOTTEN` when the front is the smallest entry. -/
theorem check_ne_new_of_lt_front (hlt : xid < front.xid)
    (hmin : ∀ r ∈ front :: rest, front.xid ≤ r.xid) :
    (checkduplicateAndUpdate (front :: rest) xid xid_rep).1 ≠ .NEW := by
  simp only [checkduplicateAndUpdate, minXid_of_front_le hmin, if_pos hlt]
  simp

/-- What the window keeps of an earlier request: it is recorded, or it is below the front. -/
def Kept (w : List ReplyT) (xid : ℕ) : Prop :=
  Recorded w xid ∨ ∃ front rest, w = front :: rest ∧ xid < front.xid

/-- Recording a reply keeps what the window keeps. -/
theorem Kept.addReply {xid : ℕ} (h : Kept w xid) (y : ℕ) (b : List UInt8) (sz : ℤ) :
    Kept (Rpc.addReply w y b sz) xid := by
  rcases h with ⟨r, hr, hx⟩ | ⟨front, rest, rfl, hlt⟩
  · exact Or.inl ⟨r, List.mem_append_left _ hr, hx⟩
  · exact Or.inr ⟨front, _, rfl, hlt⟩

/-- The cleanup keeps what the window keeps, when an entry `last` from `xid_rep` on follows it: a
recorded xid that it drops is below every entry that is left. -/
theorem Kept.cleanup (h : Kept w xid) (last : List ReplyT) (hlast : ∀ r ∈ last, xid_rep ≤ r.xid)
    (hne : Rpc.cleanup xid_rep w ++ last ≠ [])
    (hfront : ∀ front rest, w = front :: rest → Rpc.cleanup xid_rep w = [] → front.xid < xid_rep) :
    Kept (Rpc.cleanup xid_rep w ++ last) xid := by
  -- The front of what is left.
  obtain ⟨r₁, rs₁, hw₁⟩ := List.exists_cons_of_ne_nil hne
  have hr₁ : xid_rep ≤ r₁.xid := by
    have hmem : r₁ ∈ Rpc.cleanup xid_rep w ++ last := hw₁ ▸ List.mem_cons_self
    rcases List.mem_append.mp hmem with hm | hm
    · exact (mem_cleanup.mp hm).2
    · exact hlast r₁ hm
  rcases h with ⟨r, hr, hx⟩ | ⟨front, rest, rfl, hlt⟩
  · by_cases hdrop : r.xid < xid_rep
    · exact Or.inr ⟨r₁, rs₁, hw₁, by omega⟩
    · exact Or.inl ⟨r, List.mem_append_left _ (mem_cleanup.mpr ⟨hr, by omega⟩), hx⟩
  · refine Or.inr ⟨r₁, rs₁, hw₁, ?_⟩
    cases hc : Rpc.cleanup xid_rep (front :: rest) with
    | nil =>
      have := hfront front rest rfl hc
      omega
    | cons r rs =>
      have hle := le_front_of_cleanup hc
      rw [hc, List.cons_append, List.cons.injEq] at hw₁
      rw [← hw₁.1]
      omega

/-- A request keeps what the window keeps, and a request answered `NEW` against a window with
entries is kept. The window stays non-empty. -/
theorem check_keeps (front : ReplyT) (rest : List ReplyT) (hrep : xid_rep ≤ xid) :
    let res := checkduplicateAndUpdate (front :: rest) xid xid_rep
    res.2.1 ≠ [] ∧ (∀ y, Kept (front :: rest) y → Kept res.2.1 y) ∧
      (res.1 = .NEW → Kept res.2.1 xid) := by
  simp only [checkduplicateAndUpdate]
  split_ifs with hforg hnew
  · simp
  · -- A new request is appended.
    refine ⟨by simp, fun y hy => ?_, fun _ => Or.inl ⟨ReplyT.inProgress xid, by simp, rfl⟩⟩
    refine hy.cleanup _ (by simpa [ReplyT.inProgress] using hrep) (by simp) ?_
    rintro f r hfr hnil
    obtain ⟨rfl, rfl⟩ := List.cons.inj hfr
    by_contra hge
    have : front ∈ cleanup xid_rep (front :: rest) :=
      mem_cleanup.mpr ⟨List.mem_cons_self, by omega⟩
    rw [hnil] at this
    simp at this
  · -- The entry that the scan met is still there.
    have hmet : ∃ r ∈ cleanup xid_rep (front :: rest), r.xid = xid := by
      by_contra hno
      push Not at hno
      exact hnew ((scan_eq_new_iff _ _).mpr hno)
    obtain ⟨r, hr, -⟩ := hmet
    have hne : cleanup xid_rep (front :: rest) ≠ [] := List.ne_nil_of_mem hr
    refine ⟨hne, fun y hy => ?_, fun h => absurd h hnew⟩
    simpa using hy.cleanup [] (by simp) (by simpa using hne) fun f r _ hnil => absurd hnil hne

/-! ## Runs -/

/-- What holds of every client along a run: requests were issued with an `xid_rep` up to their xid,
a handler was started only by a request of the window, and each started xid but the opening one is
kept. -/
structure Inv (s : State) : Prop where
  /-- A client promises nothing about the call it is making. -/
  rep_le : ∀ clt, ∀ r ∈ s.issued clt, r.xid_rep ≤ r.xid
  /-- While the window is empty, no handler has been started. -/
  fresh : ∀ clt, clt ≠ 0 → s.window clt = [] → ∀ xid, (clt, xid) ∉ s.started
  /-- A started xid is the opening one or is kept by the window. -/
  kept : ∀ clt, clt ≠ 0 → ∀ xid, (clt, xid) ∈ s.started →
    s.opener clt = some xid ∨ Kept (s.window clt) xid
  /-- No client's xid was started twice. -/
  once : ∀ clt, clt ≠ 0 → ∀ xid, s.started.count (clt, xid) ≤ 1

/-- Nothing has been started in the initial state. -/
theorem inv_initial : Inv State.initial := by
  constructor <;> simp [State.initial]

/-- The window after a request of another client is the one before it. -/
theorem dispatch_window_of_ne {clt clt' : ℕ} (h : clt' ≠ clt) :
    (s.dispatch clt req).window clt' = s.window clt' := by
  unfold State.dispatch State.window
  split_ifs
  · rfl
  · dsimp only
    split_ifs <;> simp [h]

/-- The window after a request of a client is the one that `checkduplicate_and_update` leaves. -/
theorem dispatch_window (h : clt ≠ 0) :
    (s.dispatch clt req).window clt =
      (checkduplicateAndUpdate (s.window clt) req.xid req.xid_rep).2.1 := by
  unfold State.dispatch
  rw [if_neg h]
  dsimp only
  split_ifs <;> simp [State.window]

/-- The opening request of a client changes only when its window is empty. -/
theorem dispatch_opener {clt clt' : ℕ} :
    (s.dispatch clt req).opener clt' =
      if clt ≠ 0 ∧ clt' = clt ∧ s.window clt = [] then some req.xid else s.opener clt' := by
  unfold State.dispatch
  by_cases h0 : clt = 0
  · simp [h0]
  · by_cases hw : s.window clt = []
    · by_cases hc : clt' = clt
      · subst hc
        simp only [h0, hw, if_false, if_true]
        split_ifs <;> simp_all
      · simp only [h0, hw, if_false, if_true, hc]
        split_ifs <;> simp_all
    · simp only [h0, hw, if_false]
      split_ifs <;> simp_all

/-- A request arriving issues nothing. -/
theorem dispatch_issued :
    (s.dispatch clt req).issued = s.issued := by
  unfold State.dispatch
  dsimp only
  split_ifs <;> rfl

/-- A request starts a handler exactly when it is answered `NEW`. -/
theorem dispatch_started (h : clt ≠ 0) :
    (s.dispatch clt req).started =
      if (checkduplicateAndUpdate (s.window clt) req.xid req.xid_rep).1 = .NEW then
        (clt, req.xid) :: s.started else s.started := by
  unfold State.dispatch
  rw [if_neg h]
  dsimp only
  split_ifs <;> rfl

/-- A request that the window can classify is not answered `NEW` when its xid opened the window or
is kept by it. -/
theorem check_ne_new_of_kept {opener : Option ℕ} (hrep : xid_rep ≤ xid)
    (hcl : Classifies (front :: rest) opener xid)
    (hk : opener = some xid ∨ Kept (front :: rest) xid) :
    (checkduplicateAndUpdate (front :: rest) xid xid_rep).1 ≠ .NEW := by
  obtain ⟨hopen, hbelow⟩ := hcl front (by simp)
  -- The opening request is kept by the condition, any other one by the window.
  have hcases : Recorded (front :: rest) xid ∨ xid < front.xid := by
    rcases hk with ho | hrec | ⟨f, r, hfr, hlt⟩
    · exact hopen ho
    · exact Or.inl hrec
    · obtain ⟨rfl, rfl⟩ := List.cons.inj hfr
      exact Or.inr hlt
  rcases hcases with hrec | hlt
  · exact check_ne_new_of_recorded hrec hrep
  · rcases hbelow hlt with hrec | hmin
    · exact check_ne_new_of_recorded hrec hrep
    · exact check_ne_new_of_lt_front hlt hmin

/-- A request starts no handler for another client. -/
theorem dispatch_count_of_ne {clt c : ℕ} (h : c ≠ clt) (xid : ℕ) :
    (s.dispatch clt req).started.count (c, xid) = s.started.count (c, xid) := by
  have hne : (clt, req.xid) ≠ (c, xid) := fun heq => h (congrArg Prod.fst heq).symm
  by_cases h0 : clt = 0
  · unfold State.dispatch
    rw [if_pos h0]
    rw [h0] at hne
    exact List.count_cons_of_ne hne
  · rw [dispatch_started h0]
    split_ifs
    · exact List.count_cons_of_ne hne
    · rfl

/-- A request keeps the invariant when it keeps it for its own client, if that has a nonce. -/
theorem Inv.dispatch (hs : Inv s) (hself : clt ≠ 0 → (s.dispatch clt req).window clt ≠ [] ∧
      (∀ xid, (clt, xid) ∈ (s.dispatch clt req).started →
        (s.dispatch clt req).opener clt = some xid ∨
          Kept ((s.dispatch clt req).window clt) xid) ∧
      ∀ xid, (s.dispatch clt req).started.count (clt, xid) ≤ 1) : Inv (s.dispatch clt req) := by
  -- The handlers of another client are those before.
  have hother : ∀ c xid, c ≠ clt → (c, xid) ∈ (s.dispatch clt req).started →
      (c, xid) ∈ s.started := by
    intro c xid h hmem
    rw [← List.count_pos_iff, dispatch_count_of_ne h] at hmem
    exact List.count_pos_iff.mp hmem
  refine ⟨by rw [dispatch_issued]; exact hs.rep_le, fun c hc hw => ?_, fun c hc xid hx => ?_,
    fun c hc xid => ?_⟩
  · by_cases h : c = clt
    · subst h
      exact absurd hw (hself hc).1
    · rw [dispatch_window_of_ne h] at hw
      exact fun xid hx => hs.fresh c hc hw xid (hother c xid h hx)
  · by_cases h : c = clt
    · subst h
      exact (hself hc).2.1 xid hx
    · rw [dispatch_opener, if_neg fun hcond => h hcond.2.1, dispatch_window_of_ne h]
      exact hs.kept c hc xid (hother c xid h hx)
  · by_cases h : c = clt
    · subst h
      exact (hself hc).2.2 xid
    · rw [dispatch_count_of_ne h]
      exact hs.once c hc xid

/-- The first request of a client is answered `NEW` and opens the window. -/
theorem inv_dispatch_first (hs : Inv s) (hc : clt ≠ 0) (hw : s.window clt = []) :
    Inv (s.dispatch clt req) := by
  have hst : (s.dispatch clt req).started = (clt, req.xid) :: s.started := by
    rw [dispatch_started hc, hw]
    rfl
  have hwin : (s.dispatch clt req).window clt = [ReplyT.inProgress 0] := by
    rw [dispatch_window hc, hw]
    rfl
  refine hs.dispatch fun _ => ⟨by rw [hwin]; exact List.cons_ne_nil _ _, fun xid hx => ?_,
    fun xid => ?_⟩
  · -- The window has forgotten the xid of the request, which is the opening one.
    rw [hst] at hx
    rcases List.mem_cons.mp hx with heq | hold
    · rw [dispatch_opener, if_pos ⟨hc, rfl, hw⟩, (Prod.mk.inj heq).2]
      exact Or.inl rfl
    · exact absurd hold (hs.fresh clt hc hw xid)
  · rw [hst, List.count_cons, List.count_eq_zero_of_not_mem (hs.fresh clt hc hw xid)]
    split_ifs <;> omega

/-- A later request of a client, when the window can classify it. -/
theorem inv_dispatch_later (hs : Inv s) (hc : clt ≠ 0) (hreq : req ∈ s.issued clt)
    (hw : s.window clt = front :: rest) (hcl : Classifies (s.window clt) (s.opener clt) req.xid) :
    Inv (s.dispatch clt req) := by
  have hrep := hs.rep_le clt req hreq
  obtain ⟨hne, hkeep, hnew⟩ := check_keeps front rest hrep
  rw [← hw] at hne hkeep hnew
  have hst : (s.dispatch clt req).started = _ := dispatch_started hc
  have hop : (s.dispatch clt req).opener clt = s.opener clt := by
    rw [dispatch_opener, if_neg (by simp [hw])]
  -- An xid answered `NEW` had no handler: the window would have recognised it.
  have honce : (checkduplicateAndUpdate (s.window clt) req.xid req.xid_rep).1 = .NEW →
      (clt, req.xid) ∉ s.started := by
    intro h hmem
    have hk := hs.kept clt hc req.xid hmem
    rw [hw] at hk hcl h
    exact check_ne_new_of_kept hrep hcl hk h
  refine hs.dispatch fun _ => ⟨by rw [dispatch_window hc]; exact hne, fun xid hx => ?_,
    fun xid => ?_⟩
  · rw [hop, dispatch_window hc]
    rw [hst] at hx
    split_ifs at hx with hn
    · rcases List.mem_cons.mp hx with heq | hold
      · rw [(Prod.mk.inj heq).2]
        exact Or.inr (hnew hn)
      · exact (hs.kept clt hc xid hold).imp_right (hkeep xid)
    · exact (hs.kept clt hc xid hx).imp_right (hkeep xid)
  · rw [hst]
    split_ifs with hn
    · rw [List.count_cons]
      split_ifs with heq
      · simp only [beq_iff_eq, Prod.mk.injEq, true_and] at heq
        rw [← heq, List.count_eq_zero_of_not_mem (honce hn)]
      · exact hs.once clt hc xid
    · exact hs.once clt hc xid

/-- A recorded reply changes one window, by one more entry at its end. -/
theorem inv_reply {s s' : State} {clt xid : ℕ} {b : List UInt8} {sz : ℤ} (hs : Inv s)
    (h : s.next (.reply clt xid b sz) = some s') : Inv s' := by
  simp only [State.next] at h
  split_ifs at h with hrun hc
  · cases h
    exact { hs with }
  · cases h
    refine ⟨hs.rep_le, ?_, ?_, hs.once⟩
    · intro c hc0 hcw
      by_cases hcc : c = clt
      · subst hcc
        simp [State.window, addReply] at hcw
      · exact hs.fresh c hc0 (by simpa [State.window, hcc] using hcw)
    · intro c hc0 x hx
      refine (hs.kept c hc0 x hx).imp_right fun hk => ?_
      by_cases hcc : c = clt
      · subst hcc
        simpa [State.window] using hk.addReply xid b sz
      · simpa [State.window, hcc] using hk

/-- Every step that meets the condition keeps the invariant. -/
theorem inv_next {s s' : State} {e : Event} (hs : Inv s) (hG : Recognisable s e)
    (h : s.next e = some s') : Inv s' := by
  cases e with
  | call clt xid xid_rep =>
    obtain ⟨hp, ⟨⟩⟩ := Option.ite_none_right_eq_some.mp h
    refine { hs with rep_le := ?_ }
    intro c r hr
    dsimp only at hr
    by_cases hc : c = clt
    · subst hc
      rw [Function.update_self, List.mem_cons] at hr
      rcases hr with rfl | hr
      · exact hp.2.1
      · exact hs.rep_le c r hr
    · rw [Function.update_of_ne hc] at hr
      exact hs.rep_le c r hr
  | finish clt xid =>
    simp only [State.next, Option.some.injEq] at h
    cases h
    exact { hs with }
  | dispatch clt req =>
    obtain ⟨hreq, ⟨⟩⟩ := Option.ite_none_right_eq_some.mp h
    by_cases hc : clt = 0
    · -- A request without at-most-once logic concerns no client with a nonce.
      exact hs.dispatch fun h => absurd hc h
    · cases hw : s.window clt with
      | nil => exact inv_dispatch_first hs hc hw
      | cons front rest => exact inv_dispatch_later hs hc hreq hw hG
  | reply clt xid b sz => exact inv_reply hs h

/-- A handler runs at most once for each call of a client with a nonce, in every run whose requests
the windows can classify. -/
theorem handler_runs_at_most_once {s : State} (h : rpcSystem.Reachable Recognisable s)
    {clt_nonce : ℕ} (hc : clt_nonce ≠ 0) (xid : ℕ) : s.started.count (clt_nonce, xid) ≤ 1 := by
  have hinv : Inv s := by
    refine System.Reachable.invariant ?_ ?_ h
    · rintro s rfl
      exact inv_initial
    · intro s e s' hs hG he
      exact inv_next hs hG he
  exact hinv.once clt_nonce hc xid

/-- A run of one client in which every request can be classified: its first call is answered, its
second call arrives twice, and a copy of the first arrives again after it was forgotten. -/
def classifiedRun : List Event :=
  [.call 7 1 0, .dispatch 7 ⟨1, 0⟩, .reply 7 1 [1] 1, .finish 7 1, .call 7 2 1, .dispatch 7 ⟨2, 1⟩,
    .dispatch 7 ⟨2, 1⟩, .reply 7 2 [2] 1, .finish 7 2, .call 7 3 2, .dispatch 7 ⟨3, 2⟩,
    .dispatch 7 ⟨1, 0⟩]

/-- The three calls of `classifiedRun` each start one handler. -/
theorem classifiedRun_once : ∃ s, rpcSystem.Reachable Recognisable s ∧
    s.started = [(7, 3), (7, 2), (7, 1)] ∧ s.started.count (7, 1) ≤ 1 := by
  obtain ⟨s, hs⟩ : ∃ s, rpcSystem.execGuarded Recognisable State.initial classifiedRun = some s :=
    Option.isSome_iff_exists.mp (by decide)
  have hr : rpcSystem.Reachable Recognisable s := ⟨_, rfl, System.steps_of_execGuarded hs⟩
  have hst : (rpcSystem.execGuarded Recognisable State.initial classifiedRun).map State.started =
      some [(7, 3), (7, 2), (7, 1)] := by decide
  rw [hs, Option.map_some, Option.some.injEq] at hst
  exact ⟨s, hr, hst, handler_runs_at_most_once hr (by decide) 1⟩

/-- A client's first request arrives twice before its handler returns. -/
def duplicateFirstRequest : List Event :=
  [.call 7 1 0, .dispatch 7 ⟨1, 0⟩, .dispatch 7 ⟨1, 0⟩]

/-- Both copies of the first request start a handler: the window remembers that request as xid
`0`. -/
theorem duplicate_first_request : ∃ s, rpcSystem.exec State.initial duplicateFirstRequest = some s ∧
    rpcSystem.Reachable System.anything s ∧ ¬ s.started.count (7, 1) ≤ 1 := by
  obtain ⟨s, hs⟩ : ∃ s, rpcSystem.exec State.initial duplicateFirstRequest = some s :=
    Option.isSome_iff_exists.mp (by decide)
  have hst : (rpcSystem.exec State.initial duplicateFirstRequest).map State.started =
      some [(7, 1), (7, 1)] := by decide
  rw [hs, Option.map_some, Option.some.injEq] at hst
  exact ⟨s, hs, ⟨_, rfl, System.steps_of_exec hs⟩, by rw [hst]; decide⟩

end SimpleDfs.Rpc
