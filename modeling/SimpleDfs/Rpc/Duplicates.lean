import Mathlib.Data.List.Induction
import Mathlib.Logic.Function.Basic
import SimpleDfs.Rpc.ReplyWindow

/-!
# Answers to duplicate requests

Histories of `checkduplicate_and_update` and `add_reply` for any number of clients, in any order, as
the threads of an RPC server call them. Both run under `reply_window_m_`, so a history is a list of
calls, and `Windows.run` gives the windows after it.

A reply that was recorded is the answer to every later copy of its request, until the client says
that it has it (`recorded_reply_is_the_answer`). The invariant is on the first recorded reply for an
xid, `replyOf`: the search for the smallest xid never refuses a request that the window has, the
cleanup leaves it alone, and later replies stand behind it.

A request that the window does not have is refused when it is below all entries and the first of
them is the smallest. The cleanup can make this so for a request that the client still waits for
(`live_request_refused`). It does not when some number up to that of the request has reached the
server, and is not discarded by then (`live_requests_admitted`): for this it is enough that the last
request which the client has declared finished had come or was answered.
-/

namespace SimpleDfs.Rpc

/-- A call of one of the two functions. -/
inductive WindowCall where
  /-- `checkduplicate_and_update`, for a request that has arrived. -/
  | request (clt_nonce xid xid_rep : ℕ)
  /-- `add_reply`, for a handler that has returned. -/
  | reply (clt_nonce xid : ℕ) (b : List UInt8) (sz : ℤ)
  deriving DecidableEq, Repr

/-- `reply_window_`, with the empty window for each client from the start. -/
abbrev Windows := ℕ → List ReplyT

/-- The answer to a request, with the buffer and the size that come with `DONE`. -/
def Windows.answer (s : Windows) (clt_nonce xid xid_rep : ℕ) :
    RpcState × Option (Option (List UInt8) × ℤ) :=
  let got := checkduplicateAndUpdate (s clt_nonce) xid xid_rep
  (got.1, got.2.2)

/-- The windows after a call. -/
def Windows.call (s : Windows) : WindowCall → Windows
  | .request clt_nonce xid xid_rep =>
    Function.update s clt_nonce (checkduplicateAndUpdate (s clt_nonce) xid xid_rep).2.1
  | .reply clt_nonce xid b sz =>
    Function.update s clt_nonce (addReply (s clt_nonce) xid b sz)

/-- The windows after a history of calls. -/
def Windows.run (calls : List WindowCall) : Windows := calls.foldl Windows.call fun _ => []

/-- The call is a request of the client that says that it has the reply to `xid`. -/
def WindowCall.Discards (clt_nonce xid : ℕ) : WindowCall → Prop
  | .request c _ xid_rep => c = clt_nonce ∧ xid < xid_rep
  | .reply .. => False

/-- The call is a request of the client with an `xid_rep` from `xid` on. -/
def WindowCall.Declares (clt_nonce xid : ℕ) : WindowCall → Prop
  | .request c _ xid_rep => c = clt_nonce ∧ xid ≤ xid_rep
  | .reply .. => False

instance (clt_nonce xid : ℕ) : ∀ call, Decidable (WindowCall.Discards clt_nonce xid call)
  | .request c _ xid_rep => inferInstanceAs (Decidable (c = clt_nonce ∧ xid < xid_rep))
  | .reply .. => isFalse id

instance (clt_nonce xid : ℕ) : ∀ call, Decidable (WindowCall.Declares clt_nonce xid call)
  | .request c _ xid_rep => inferInstanceAs (Decidable (c = clt_nonce ∧ xid ≤ xid_rep))
  | .reply .. => isFalse id

/-- The first reply that the window has for `xid`. -/
def replyOf (xid : ℕ) (w : List ReplyT) : Option ReplyT :=
  w.find? fun r => r.xid = xid ∧ r.cb_present

/-! ## The scan and the recorded replies -/

section Scan

variable {xid xid_rep : ℕ} {w : List ReplyT} {r : ReplyT}

/-- What `replyOf` finds is a reply for `xid` of the window. -/
theorem replyOf_spec (h : replyOf xid w = some r) : r ∈ w ∧ r.xid = xid ∧ r.cb_present = true := by
  have hfound := List.find?_some h
  simp only [decide_eq_true_eq] at hfound
  exact ⟨List.mem_of_find?_eq_some h, hfound⟩

/-- The scan ends at the first recorded reply. -/
theorem scan_of_replyOf (h : replyOf xid w = some r) (state : RpcState) :
    scan xid state w = (.DONE, some (r.buf, r.sz)) := by
  induction w generalizing state with
  | nil => cases h
  | cons r' rs ih =>
    rw [replyOf, List.find?_cons] at h
    by_cases hx : r'.xid = xid
    · by_cases hcb : r'.cb_present = true
      · simp only [hx, hcb, and_self, decide_true, Option.some.injEq] at h
        subst h
        rw [scan, if_pos hx, if_pos hcb]
      · simp only [hx, hcb, Bool.false_eq_true, and_false, decide_false] at h
        rw [scan, if_pos hx, if_neg hcb]
        exact ih h _
    · simp only [hx, false_and, decide_false] at h
      rw [scan, if_neg hx]
      exact ih h _

/-- Without a recorded reply, the scan does not answer `DONE`. -/
theorem replyOf_isSome_of_scan {state : RpcState} (hstate : state ≠ .DONE)
    (h : (scan xid state w).1 = .DONE) : ∃ r, replyOf xid w = some r := by
  induction w generalizing state with
  | nil => exact absurd h hstate
  | cons r' rs ih =>
    rw [replyOf, List.find?_cons]
    rw [scan] at h
    split_ifs at h with hx hcb
    · exact ⟨r', by simp only [hx, hcb, and_self, decide_true]⟩
    · simp only [hx, hcb, Bool.false_eq_true, and_false, decide_false]
      exact ih (by simp) h
    · simp only [hx, false_and, decide_false]
      exact ih hstate h

/-- The scan does not refuse a request. -/
theorem scan_ne_forgotten {state : RpcState} (hstate : state ≠ .FORGOTTEN) :
    (scan xid state w).1 ≠ .FORGOTTEN := by
  induction w generalizing state with
  | nil => exact hstate
  | cons r' rs ih =>
    rw [scan]
    split_ifs
    · simp
    · exact ih (by simp)
    · exact ih hstate

/-- The cleanup leaves the replies from `xid_rep` on. -/
theorem replyOf_cleanup (h : xid_rep ≤ xid) : replyOf xid (cleanup xid_rep w) = replyOf xid w := by
  rw [replyOf, cleanup, List.find?_filter]
  congr 1
  funext r
  by_cases hx : r.xid = xid
  · simp [hx, not_lt.mpr h]
  · simp [hx]

/-- A request in progress is not a reply. -/
theorem replyOf_concat_inProgress (xid xid' : ℕ) (w : List ReplyT) :
    replyOf xid (w ++ [ReplyT.inProgress xid']) = replyOf xid w := by
  simp [replyOf, List.find?_append, ReplyT.inProgress]

end Scan

/-! ## Requests that are refused -/

/-- Once the loop has assigned `xid`, it does not change `min_xid` any more. -/
theorem minXid_self (xid : ℕ) (w : List ReplyT) : minXid xid xid w = xid := by
  induction w with
  | nil => rfl
  | cons r rs ih =>
    rw [minXid, List.foldl_cons, ite_self]
    exact ih

variable {calls : List WindowCall} {w : List ReplyT} {r : ReplyT}

/-- Where some entry is below the front, the loop leaves `min_xid` at the xid of the request. -/
theorem minXid_of_lt {xid front : ℕ} (h : ∃ r ∈ w, r.xid < front) :
    minXid xid front w = xid := by
  induction w with
  | nil => simp at h
  | cons r rs ih =>
    rw [minXid, List.foldl_cons]
    split_ifs with hr
    · exact minXid_self xid rs
    · obtain ⟨r', hmem, hlt⟩ := h
      rcases List.mem_cons.mp hmem with rfl | hmem
      · exact absurd hlt hr
      · exact ih ⟨r', hmem, hlt⟩

/-- A request that the window `w` does not refuse: it is not below the front, or some entry is. -/
def Admits (w : List ReplyT) (xid : ℕ) : Prop :=
  ∀ front ∈ w.head?, front.xid ≤ xid ∨ ∃ r ∈ w, r.xid < front.xid

instance (w : List ReplyT) (xid : ℕ) : Decidable (Admits w xid) :=
  inferInstanceAs (Decidable (∀ front ∈ w.head?, _))

/-- When a request is refused. -/
theorem forgotten_iff (w : List ReplyT) (xid xid_rep : ℕ) :
    (checkduplicateAndUpdate w xid xid_rep).1 = .FORGOTTEN ↔ ¬ Admits w xid := by
  cases w with
  | nil => simp [checkduplicateAndUpdate, Admits]
  | cons front rest =>
    have hadmits : Admits (front :: rest) xid ↔
        front.xid ≤ xid ∨ ∃ r ∈ front :: rest, r.xid < front.xid := by
      simp [Admits]
    have hmin : xid < minXid xid front.xid (front :: rest) ↔ ¬ Admits (front :: rest) xid := by
      rw [hadmits]
      by_cases hbelow : ∃ r ∈ front :: rest, r.xid < front.xid
      · rw [minXid_of_lt hbelow]
        exact iff_of_false (lt_irrefl xid) (not_not.mpr (Or.inr hbelow))
      · rw [minXid_of_front_le fun r hr => not_lt.mp fun hlt => hbelow ⟨r, hr, hlt⟩]
        simp only [hbelow, or_false, not_le]
    rw [← hmin, checkduplicateAndUpdate]
    split_ifs with hlt
    · exact iff_of_true rfl hlt
    · exact iff_of_false (scan_ne_forgotten (by simp)) hlt

/-- With a number up to `xid` in the window, the request is not refused. -/
theorem admits_of_le {xid : ℕ} (h : r ∈ w) (hle : r.xid ≤ xid) :
    Admits w xid := by
  intro front _
  rcases Nat.lt_or_ge xid front.xid with hlt | hge
  · exact Or.inr ⟨r, h, lt_of_le_of_lt hle hlt⟩
  · exact Or.inl hge

/-! ## One call -/

section Call

variable {s : Windows} {c x xid_rep : ℕ} {r : ReplyT}

/-- A copy of a request whose reply is recorded is answered with the first recorded reply. -/
theorem answer_of_replyOf (h : replyOf x (s c) = some r) (hrep : xid_rep ≤ x) :
    s.answer c x xid_rep = (.DONE, some (r.buf, r.sz)) := by
  obtain ⟨hmem, rfl, -⟩ := replyOf_spec h
  have hnot : (checkduplicateAndUpdate (s c) r.xid xid_rep).1 ≠ .FORGOTTEN :=
    fun hforgotten => (forgotten_iff _ _ _).mp hforgotten (admits_of_le hmem le_rfl)
  rw [← replyOf_cleanup hrep] at h
  have hscan := scan_of_replyOf h .NEW
  unfold Windows.answer
  cases hw : s c with
  | nil =>
    rw [hw] at hmem
    cases hmem
  | cons front rest =>
    rw [hw] at hnot hscan
    rw [checkduplicateAndUpdate] at hnot ⊢
    split_ifs at hnot ⊢ with hlt
    · exact absurd rfl hnot
    · simp only [hscan]

/-- A request that does not say that the client has the reply to `x` leaves it in the window. -/
theorem replyOf_checkduplicateAndUpdate (w : List ReplyT) (xid : ℕ) (hrep : xid_rep ≤ x) :
    replyOf x (checkduplicateAndUpdate w xid xid_rep).2.1 = replyOf x w := by
  cases w with
  | nil => exact replyOf_concat_inProgress x 0 []
  | cons front rest =>
    rw [checkduplicateAndUpdate]
    split_ifs with hlt
    · rfl
    · dsimp only
      split_ifs
      · rw [replyOf_concat_inProgress, replyOf_cleanup hrep]
      · rw [replyOf_cleanup hrep]

/-- A request adds no reply to the window. -/
theorem mem_of_mem_checkduplicateAndUpdate {w : List ReplyT} {xid : ℕ}
    (h : r ∈ (checkduplicateAndUpdate w xid xid_rep).2.1) (hcb : r.cb_present = true) : r ∈ w := by
  have hnew : ∀ xid', r ≠ ReplyT.inProgress xid' := by
    rintro xid' rfl
    cases hcb
  cases w with
  | nil => exact absurd (List.mem_singleton.mp h) (hnew _)
  | cons front rest =>
    rw [checkduplicateAndUpdate] at h
    split_ifs at h with hlt
    · exact h
    · dsimp only at h
      split_ifs at h
      · rcases List.mem_append.mp h with hold | hlast
        · exact (mem_cleanup.mp hold).1
        · exact absurd (List.mem_singleton.mp hlast) (hnew _)
      · exact (mem_cleanup.mp h).1

/-- What a call does to the window of a client: nothing when it is for another one. -/
theorem call_cases (s : Windows) (call : WindowCall) (c : ℕ) : s.call call c = s c ∨
    (∃ xid xid_rep, call = .request c xid xid_rep ∧
      s.call call c = (checkduplicateAndUpdate (s c) xid xid_rep).2.1) ∨
    ∃ xid b sz, call = .reply c xid b sz ∧ s.call call c = addReply (s c) xid b sz := by
  cases call with
  | request c' xid xid_rep =>
    by_cases hc : c = c'
    · subst hc
      exact Or.inr (Or.inl ⟨xid, xid_rep, rfl, Function.update_self _ _ _⟩)
    · exact Or.inl (Function.update_of_ne hc _ _)
  | reply c' xid b sz =>
    by_cases hc : c = c'
    · subst hc
      exact Or.inr (Or.inr ⟨xid, b, sz, rfl, Function.update_self _ _ _⟩)
    · exact Or.inl (Function.update_of_ne hc _ _)

/-- A recorded reply stays the first one for its xid, until the client says that it has it. -/
theorem replyOf_call {call : WindowCall} (hcall : ¬ call.Discards c x)
    (h : replyOf x (s c) = some r) : replyOf x (s.call call c) = some r := by
  rcases call_cases s call c with hsame | ⟨xid, xid_rep, rfl, hw⟩ | ⟨xid, b, sz, rfl, hw⟩
  · rw [hsame, h]
  · have hrep : xid_rep ≤ x := not_lt.mp fun hlt => hcall ⟨rfl, hlt⟩
    rw [hw, replyOf_checkduplicateAndUpdate _ _ hrep, h]
  · -- Later replies stand behind it.
    rw [hw, addReply, replyOf, List.find?_append]
    rw [replyOf] at h
    rw [h, Option.some_or]

/-- A reply of the window is from `add_reply`, or was there before. -/
theorem mem_call {call : WindowCall} (h : r ∈ s.call call c) (hcb : r.cb_present = true) :
    r ∈ s c ∨ ∃ b, r.buf = some b ∧ call = .reply c r.xid b r.sz := by
  rcases call_cases s call c with hsame | ⟨xid, xid_rep, -, hw⟩ | ⟨xid, b, sz, rfl, hw⟩
  · rw [hsame] at h
    exact Or.inl h
  · rw [hw] at h
    exact Or.inl (mem_of_mem_checkduplicateAndUpdate h hcb)
  · rw [hw, addReply] at h
    rcases List.mem_append.mp h with hold | hnew
    · exact Or.inl hold
    · obtain rfl := List.mem_singleton.mp hnew
      exact Or.inr ⟨b, rfl, rfl⟩

/-- `DONE` comes with a reply that the window has for the request. -/
theorem exists_mem_of_answer_done (h : (s.answer c x xid_rep).1 = .DONE) :
    ∃ r ∈ s c, r.xid = x ∧ r.cb_present = true ∧
      (s.answer c x xid_rep).2 = some (r.buf, r.sz) := by
  unfold Windows.answer at h ⊢
  cases hw : s c with
  | nil => simp [hw, checkduplicateAndUpdate] at h
  | cons front rest =>
    rw [hw, checkduplicateAndUpdate] at h
    rw [checkduplicateAndUpdate]
    -- A refused request is not answered `DONE`.
    split_ifs at h ⊢ with hlt
    obtain ⟨r, hr⟩ := replyOf_isSome_of_scan (by simp) h
    obtain ⟨hmem, hxid, hcb⟩ := replyOf_spec hr
    refine ⟨r, (mem_cleanup.mp hmem).1, hxid, hcb, ?_⟩
    simp only [scan_of_replyOf hr .NEW]

end Call

/-! ## Whole histories -/

/-- A recorded reply stays the first one for its xid over a history in which the client does not say
that it has it. -/
theorem replyOf_foldl {s : Windows} {c x : ℕ} (hcalls : ∀ call ∈ calls, ¬ call.Discards c x)
    (h : replyOf x (s c) = some r) :
    replyOf x (calls.foldl Windows.call s c) = some r := by
  induction calls generalizing s with
  | nil => exact h
  | cons call calls ih =>
    rw [List.forall_mem_cons] at hcalls
    exact ih hcalls.2 (replyOf_call hcalls.1 h)

/-- A reply of the window was recorded for the same client and the same xid. -/
theorem recorded_of_mem_run {c : ℕ} (h : r ∈ Windows.run calls c) (hcb : r.cb_present = true) :
    ∃ b, r.buf = some b ∧ WindowCall.reply c r.xid b r.sz ∈ calls := by
  induction calls using List.reverseRecOn with
  | nil => cases h
  | append_singleton calls call ih =>
    rw [Windows.run, List.foldl_append] at h
    rcases mem_call h hcb with hold | ⟨b, hbuf, rfl⟩
    · obtain ⟨b, hbuf, hmem⟩ := ih hold
      exact ⟨b, hbuf, List.mem_append_left _ hmem⟩
    · exact ⟨b, hbuf, List.mem_append_right _ (List.mem_singleton.mpr rfl)⟩

/-- After the first `add_reply` for a client and an xid, every copy of the request is answered
`DONE` with that reply, as long as no request of the client has come whose `xid_rep` is above the
xid; and `DONE` comes only with a reply that was recorded for the client and the xid. -/
theorem recorded_reply_is_the_answer (calls : List WindowCall) (c x xid_rep : ℕ) :
    (∀ before b sz after, calls = before ++ .reply c x b sz :: after →
      (∀ b' sz', .reply c x b' sz' ∉ before) →
      (∀ call ∈ after ++ [.request c x xid_rep], ¬ call.Discards c x) →
      (Windows.run calls).answer c x xid_rep = (.DONE, some (some b, sz))) ∧
    (((Windows.run calls).answer c x xid_rep).1 = .DONE →
      ∃ b sz, ((Windows.run calls).answer c x xid_rep).2 = some (some b, sz) ∧
        .reply c x b sz ∈ calls) := by
  constructor
  · rintro before b sz after rfl hfirst hkept
    rw [List.forall_mem_append, List.forall_mem_singleton] at hkept
    have hrep : xid_rep ≤ x := not_lt.mp fun hlt => hkept.2 ⟨rfl, hlt⟩
    have hnone : replyOf x (Windows.run before c) = none := by
      by_contra hsome
      obtain ⟨r, hr⟩ := Option.ne_none_iff_exists'.mp hsome
      obtain ⟨hmem, rfl, hcb⟩ := replyOf_spec hr
      obtain ⟨b', -, hbefore⟩ := recorded_of_mem_run hmem hcb
      exact hfirst b' r.sz hbefore
    have hrecorded : replyOf x ((Windows.run before).call (.reply c x b sz) c) =
        some ⟨x, true, some b, sz⟩ := by
      rw [Windows.call, Function.update_self, addReply, replyOf, List.find?_append, ← replyOf,
        hnone, Option.none_or]
      simp
    have hrun := replyOf_foldl hkept.1 hrecorded
    rw [Windows.run, List.foldl_append, List.foldl_cons]
    exact answer_of_replyOf hrun hrep
  · intro hdone
    obtain ⟨r, hmem, rfl, hcb, hout⟩ := exists_mem_of_answer_done hdone
    obtain ⟨b, hbuf, hreply⟩ := recorded_of_mem_run hmem hcb
    exact ⟨b, r.sz, by rw [hout, hbuf], hreply⟩

/-- The second copy of request 2 comes when its reply is recorded, and after a later request. -/
theorem recorded_reply_is_the_answer_second_copy :
    (Windows.run [.request 1 1 0, .request 1 2 0, .reply 1 2 [7] 1, .request 1 3 2]).answer 1 2 1 =
      (.DONE, some (some [7], 1)) :=
  (recorded_reply_is_the_answer _ 1 2 1).1 [.request 1 1 0, .request 1 2 0] [7] 1 [.request 1 3 2]
    rfl (by simp) (by decide)

/-! ## Requests that the client waits for -/

/-- The client of a call. -/
def WindowCall.client : WindowCall → ℕ
  | .request c _ _ | .reply c _ _ _ => c

/-- The client has not declared the request finished, neither before it arrives nor with it. -/
def Live (before : List WindowCall) (c xid xid_rep : ℕ) : Prop :=
  ∀ call ∈ before ++ [.request c xid xid_rep], ¬ call.Declares c xid

instance (before : List WindowCall) (c xid xid_rep : ℕ) : Decidable (Live before c xid xid_rep) :=
  inferInstanceAs (Decidable (∀ call ∈ _, _))

/-- The call puts number `y` of the client on record: the reply to it is recorded, or its request
arrives while the client waits for it. The first request of a client stands for number 0. -/
def WindowCall.Records (before : List WindowCall) (c y : ℕ) : WindowCall → Prop
  | .request c' xid xid_rep => c' = c ∧
    if ∀ call ∈ before, call.client ≠ c then y = 0 else xid = y ∧ Live before c xid xid_rep
  | .reply c' xid _ _ => c' = c ∧ xid = y

/-- Number `y` of the client was put on record, and no request has come since then that discards
it. -/
def OnRecord (calls : List WindowCall) (c y : ℕ) : Prop :=
  ∃ before call after, calls = before ++ call :: after ∧ call.Records before c y ∧
    ∀ later ∈ after, ¬ later.Discards c y

/-- The histories in which nothing that matters of a client is lost: each request that it waits for
is its first one, or comes when some number up to its own is on record. -/
def Traced (calls : List WindowCall) (c : ℕ) : Prop :=
  ∀ before xid xid_rep after, calls = before ++ .request c xid xid_rep :: after →
    Live before c xid xid_rep →
    (∀ call ∈ before, call.client ≠ c) ∨ ∃ y ≤ xid, OnRecord before c y

/-- What was there before a call is on record after it, unless the call discards it. -/
theorem onRecord_concat {call : WindowCall} {c y : ℕ} (h : OnRecord (calls ++ [call]) c y) :
    call.Records calls c y ∨ OnRecord calls c y ∧ ¬ call.Discards c y := by
  obtain ⟨before, call', after, heq, hrecords, hkept⟩ := h
  rcases List.eq_nil_or_concat after with rfl | ⟨after, last, rfl⟩
  · obtain ⟨rfl, hlast⟩ := List.append_inj' heq rfl
    cases hlast
    exact Or.inl hrecords
  · rw [List.concat_eq_append, ← List.cons_append, ← List.append_assoc] at heq
    obtain ⟨rfl, hlast⟩ := List.append_inj' heq rfl
    cases hlast
    rw [List.concat_eq_append, List.forall_mem_append, List.forall_mem_singleton] at hkept
    exact Or.inr ⟨⟨before, call', after, rfl, hrecords, hkept.1⟩, hkept.2⟩

/-- An entry that is not below `xid_rep` stays in the window. -/
theorem mem_checkduplicateAndUpdate (xid : ℕ) {xid_rep : ℕ} (h : r ∈ w) (hrep : xid_rep ≤ r.xid) :
    r ∈ (checkduplicateAndUpdate w xid xid_rep).2.1 := by
  cases w with
  | nil => cases h
  | cons front rest =>
    have hkept : r ∈ cleanup xid_rep (front :: rest) := mem_cleanup.mpr ⟨h, hrep⟩
    rw [checkduplicateAndUpdate]
    split_ifs
    · exact h
    · dsimp only
      split_ifs
      · exact List.mem_append_left _ hkept
      · exact hkept

/-- A request that is not refused is in the window then, unless it is the first one. -/
theorem exists_mem_of_admits {xid : ℕ} (xid_rep : ℕ) (hne : w ≠ []) (h : Admits w xid) :
    ∃ r ∈ (checkduplicateAndUpdate w xid xid_rep).2.1, r.xid = xid := by
  have hnot : (checkduplicateAndUpdate w xid xid_rep).1 ≠ .FORGOTTEN :=
    fun hforgotten => (forgotten_iff w xid xid_rep).mp hforgotten h
  cases w with
  | nil => exact absurd rfl hne
  | cons front rest =>
    rw [checkduplicateAndUpdate] at hnot ⊢
    split_ifs at hnot ⊢
    · exact absurd rfl hnot
    · dsimp only
      split_ifs with hnew
      · exact ⟨.inProgress xid, List.mem_append_right _ (List.mem_singleton.mpr rfl), rfl⟩
      · have hscan := (scan_eq_new_iff xid (cleanup xid_rep (front :: rest))).not.mp hnew
        simpa only [not_forall, not_not, exists_prop] using hscan

/-- The window of a client is empty until its first call. -/
theorem run_eq_nil_iff (calls : List WindowCall) (c : ℕ) :
    Windows.run calls c = [] ↔ ∀ call ∈ calls, call.client ≠ c := by
  induction calls using List.reverseRecOn with
  | nil => exact iff_of_true rfl (by simp)
  | append_singleton calls call ih =>
    rw [List.forall_mem_append, List.forall_mem_singleton, ← ih, Windows.run, List.foldl_append]
    show Windows.call (Windows.run calls) call c = [] ↔ _
    cases call with
    | request c' xid xid_rep =>
      by_cases hc : c = c'
      · subst hc
        refine iff_of_false ?_ fun h => h.2 rfl
        rw [Windows.call, Function.update_self]
        cases hw : Windows.run calls c with
        | nil => exact List.cons_ne_nil _ _
        | cons front rest =>
          by_cases hadmits : Admits (front :: rest) xid
          · obtain ⟨r, hr, -⟩ := exists_mem_of_admits xid_rep (List.cons_ne_nil _ _) hadmits
            exact List.ne_nil_of_mem hr
          · have hrefused := (forgotten_iff (front :: rest) xid xid_rep).mpr hadmits
            rw [checkduplicateAndUpdate] at hrefused ⊢
            split_ifs at hrefused ⊢
            · simp
            · exact absurd hrefused (scan_ne_forgotten (by simp))
      · rw [Windows.call, Function.update_of_ne hc]
        exact ⟨fun h => ⟨h, fun heq => hc heq.symm⟩, And.left⟩
    | reply c' xid b sz =>
      by_cases hc : c = c'
      · subst hc
        refine iff_of_false ?_ fun h => h.2 rfl
        rw [Windows.call, Function.update_self, addReply]
        simp
      · rw [Windows.call, Function.update_of_ne hc]
        exact ⟨fun h => ⟨h, fun heq => hc heq.symm⟩, And.left⟩

/-- What is on record is in the window. -/
theorem mem_run_of_onRecord {c y : ℕ} (h : Traced calls c) (hy : OnRecord calls c y) :
    ∃ r ∈ Windows.run calls c, r.xid = y := by
  induction calls using List.reverseRecOn generalizing y with
  | nil =>
    obtain ⟨before, call, after, heq, -⟩ := hy
    simp at heq
  | append_singleton calls call ih =>
    have hbefore : Traced calls c := by
      intro before xid xid_rep after heq
      refine h before xid xid_rep (after ++ [call]) ?_
      rw [heq, List.append_assoc, List.cons_append]
    rw [Windows.run, List.foldl_append]
    show ∃ r ∈ (Windows.run calls).call call c, r.xid = y
    rcases onRecord_concat hy with hrecords | ⟨hold, hkept⟩
    · cases call with
      | reply c' xid b sz =>
        obtain ⟨rfl, rfl⟩ := hrecords
        rw [Windows.call, Function.update_self, addReply]
        exact ⟨_, List.mem_append_right _ (List.mem_singleton.mpr rfl), rfl⟩
      | request c' xid xid_rep =>
        obtain ⟨rfl, hrecords⟩ := hrecords
        rw [Windows.call, Function.update_self]
        split_ifs at hrecords with hfirst
        · rw [(run_eq_nil_iff calls c').mpr hfirst, hrecords]
          exact ⟨.inProgress 0, List.mem_singleton.mpr rfl, rfl⟩
        · -- The request comes when a number up to its own is in the window.
          obtain ⟨rfl, hlive⟩ := hrecords
          obtain ⟨z, hz, hrecord⟩ := (h calls xid xid_rep [] rfl hlive).resolve_left hfirst
          obtain ⟨r, hr, rfl⟩ := ih hbefore hrecord
          exact exists_mem_of_admits xid_rep (List.ne_nil_of_mem hr) (admits_of_le hr hz)
    · obtain ⟨r, hr, rfl⟩ := ih hbefore hold
      refine ⟨r, ?_, rfl⟩
      rcases call_cases (Windows.run calls) call c with hsame | ⟨xid, xid_rep, rfl, hw⟩ |
        ⟨xid, b, sz, -, hw⟩
      · rwa [hsame]
      · rw [hw]
        exact mem_checkduplicateAndUpdate xid hr (not_lt.mp fun hlt => hkept ⟨rfl, hlt⟩)
      · rw [hw]
        exact List.mem_append_left _ hr

/-- In a history in which each request that the client waits for comes when some number up to its
own is on record, none of them is refused, in whatever order they come and whatever else is
lost. -/
theorem live_requests_admitted {calls : List WindowCall} {c : ℕ} (h : Traced calls c)
    {before after : List WindowCall} {xid xid_rep : ℕ}
    (hcalls : calls = before ++ .request c xid xid_rep :: after)
    (hlive : Live before c xid xid_rep) :
    ((Windows.run before).answer c xid xid_rep).1 ≠ .FORGOTTEN := by
  rw [Windows.answer, Ne, forgotten_iff, not_not]
  rcases h before xid xid_rep after hcalls hlive with hfirst | ⟨y, hy, hrecord⟩
  · rw [(run_eq_nil_iff before c).mpr hfirst]
    exact nofun
  · have hbefore : Traced before c := by
      intro before' xid' xid_rep' after' heq
      refine h before' xid' xid_rep' (after' ++ .request c xid xid_rep :: after) ?_
      rw [hcalls, heq, List.append_assoc, List.cons_append]
    obtain ⟨r, hr, rfl⟩ := mem_run_of_onRecord hbefore hrecord
    exact admits_of_le hr hy

/-- Request 3 was lost, and the client has given up on it; request 5 comes before request 4. Request
2, the last one that the client declared finished, was answered. -/
theorem live_requests_admitted_swapped :
    ((Windows.run [.request 1 1 0, .request 1 2 0, .reply 1 2 [7] 1, .request 1 5 2]).answer
      1 4 2).1 ≠ .FORGOTTEN := by
  have htraced : Traced [.request 1 1 0, .request 1 2 0, .reply 1 2 [7] 1, .request 1 5 2,
      .request 1 4 2] 1 := by
    intro before xid xid_rep after heq _
    rcases before with _ | ⟨_, _ | ⟨_, _ | ⟨_, _ | ⟨_, _ | ⟨_, before⟩⟩⟩⟩⟩ <;> simp at heq
    · exact Or.inl (by simp)
    · obtain ⟨rfl, ⟨rfl, rfl⟩, rfl⟩ := heq
      exact Or.inr ⟨0, by decide, [], _, [], rfl, ⟨rfl, by simp⟩, by simp⟩
    · obtain ⟨rfl, rfl, rfl, ⟨rfl, rfl⟩, rfl⟩ := heq
      exact Or.inr ⟨2, by decide, [.request 1 1 0, .request 1 2 0], _, [], rfl, ⟨rfl, rfl⟩,
        by simp⟩
    · obtain ⟨rfl, rfl, rfl, rfl, ⟨rfl, rfl⟩, rfl⟩ := heq
      exact Or.inr ⟨2, by decide, [.request 1 1 0, .request 1 2 0], _, [.request 1 5 2], rfl,
        ⟨rfl, rfl⟩, by decide⟩
  exact @live_requests_admitted _ 1 htraced
    [.request 1 1 0, .request 1 2 0, .reply 1 2 [7] 1, .request 1 5 2] [] 4 2 rfl (by decide)

/-- Request 3 was lost, and the client has given up on it. It issues requests 4 and 5, which arrive
in the other order. Request 5 empties the window of all entries below `xid_rep`, which is `3`, and
request 4 is refused. -/
theorem live_request_refused :
    let calls : List WindowCall := [.request 1 1 0, .reply 1 1 [7] 1, .request 1 2 1,
      .reply 1 2 [7] 1, .request 1 5 3]
    ((Windows.run calls).answer 1 4 3).1 = .FORGOTTEN ∧
      ¬ ∃ call ∈ calls ++ [.request 1 4 3], call.Declares 1 4 := by
  decide

end SimpleDfs.Rpc
