import SimpleDfs.Paxos.Acceptor

/-!
# What one acceptor promises and accepts

The requests of one open instance at one acceptor, in whatever order they come and with whatever
numbers. `n_h` never goes down (`n_h_le_votes`), and a request is granted only from `n_h` on
(`n_h_le_number`). But `acceptreq` leaves `n_h` as it is, so that nothing protects a proposal that
was accepted above `n_h`: the two numbers and the promise behind them are in order exactly when
every accept request comes with a number that is not above `n_h` (`monotone_iff`).
-/

namespace SimpleDfs.Paxos

/-- A request of an open instance. -/
inductive VoteReq where
  /-- `preparereq`. -/
  | prepare (arg : PrepareArg)
  /-- `acceptreq`. -/
  | accept (arg : AcceptArg)
  deriving DecidableEq, Repr

/-- The number of a request. -/
def VoteReq.number : VoteReq → PropT
  | prepare arg => arg.n
  | accept arg => arg.n

namespace Acceptor

/-- The handler of a request, and whether it granted the request: promised the number, or accepted
the proposal. -/
def vote (a : Acceptor) : VoteReq → Acceptor × Bool
  | .prepare arg => ((a.preparereq arg).1, (a.preparereq arg).2.accept)
  | .accept arg => a.acceptreq arg

/-- The acceptor after some requests. -/
def votes (a : Acceptor) (reqs : List VoteReq) : Acceptor := reqs.foldl (fun a r => (a.vote r).1) a

/-- The requests of two lists, one after the other. -/
theorem votes_append (a : Acceptor) (reqs reqs' : List VoteReq) :
    a.votes (reqs ++ reqs') = (a.votes reqs).votes reqs' := List.foldl_append ..

/-- One request, and the ones after it. -/
@[simp] theorem votes_cons (a : Acceptor) (r : VoteReq) (reqs : List VoteReq) :
    a.votes (r :: reqs) = (a.vote r).1.votes reqs := rfl

/-- No request. -/
@[simp] theorem votes_nil (a : Acceptor) : a.votes [] = a := rfl

/-- What a prepare request does: it is granted above `n_h`, and then raises `n_h`. -/
theorem vote_prepare (a : Acceptor) (arg : PrepareArg) :
    (a.vote (.prepare arg)).1.n_a = a.n_a ∧
      ((a.vote (.prepare arg)).2 = true ∧ a.n_h < arg.n ∧ (a.vote (.prepare arg)).1.n_h = arg.n ∨
        (a.vote (.prepare arg)).2 = false ∧ (a.vote (.prepare arg)).1.n_h = a.n_h) := by
  simp only [vote, preparereq]
  split_ifs with hold hgt
  · exact ⟨rfl, Or.inr ⟨rfl, rfl⟩⟩
  · exact ⟨rfl, Or.inl ⟨rfl, PropT.gt_iff.mp hgt, rfl⟩⟩
  · exact ⟨rfl, Or.inr ⟨rfl, rfl⟩⟩

/-- What an accept request does: it is granted from `n_h` on, and leaves `n_h` as it is. -/
theorem vote_accept (a : Acceptor) (arg : AcceptArg) :
    (a.vote (.accept arg)).1.n_h = a.n_h ∧
      ((a.vote (.accept arg)).2 = true ∧ a.n_h ≤ arg.n ∧ (a.vote (.accept arg)).1.n_a = arg.n ∨
        (a.vote (.accept arg)).2 = false ∧ arg.n < a.n_h ∧
          (a.vote (.accept arg)).1.n_a = a.n_a) := by
  simp only [vote, acceptreq]
  split_ifs with hge
  · exact ⟨rfl, Or.inl ⟨rfl, PropT.ge_iff.mp hge, rfl⟩⟩
  · exact ⟨rfl, Or.inr ⟨rfl, not_le.mp fun hle => hge (PropT.ge_iff.mpr hle), rfl⟩⟩

/-- A request does not lower `n_h`. -/
theorem n_h_le_vote (a : Acceptor) (r : VoteReq) : a.n_h ≤ (a.vote r).1.n_h := by
  cases r with
  | prepare arg =>
    rcases (a.vote_prepare arg).2 with ⟨-, hlt, heq⟩ | ⟨-, heq⟩
    · rw [heq]
      exact hlt.le
    · exact heq.ge
  | accept arg => exact (a.vote_accept arg).1.ge

/-- No sequence of requests lowers `n_h`. -/
theorem n_h_le_votes (a : Acceptor) (reqs : List VoteReq) : a.n_h ≤ (a.votes reqs).n_h := by
  induction reqs generalizing a with
  | nil => exact le_rfl
  | cons r reqs ih => exact (a.n_h_le_vote r).trans (ih _)

/-- A request below `n_h` is not granted. -/
theorem n_h_le_number {a : Acceptor} {r : VoteReq} (h : (a.vote r).2 = true) :
    a.n_h ≤ r.number := by
  cases r with
  | prepare arg =>
    rcases (a.vote_prepare arg).2 with ⟨-, hlt, -⟩ | ⟨hno, -⟩
    · exact hlt.le
    · rw [hno] at h
      cases h
  | accept arg =>
    rcases (a.vote_accept arg).2 with ⟨-, hle, -⟩ | ⟨hno, -⟩
    · exact hle
    · rw [hno] at h
      cases h

end Acceptor

/-! ## Monotonicity -/

/-- The requests `reqs`, handled one after the other from `a` on, never lower `n_h` or `n_a`, never
leave `n_a` above `n_h` once a proposal was accepted, and none of them is granted below a number
that was accepted before. -/
structure Monotone (a : Acceptor) (reqs : List VoteReq) : Prop where
  /-- `n_h` does not go down. -/
  n_h : ∀ before r after, reqs = before ++ r :: after →
    (a.votes before).n_h ≤ (a.votes (before ++ [r])).n_h
  /-- `n_a` does not go down. -/
  n_a : ∀ before r after, reqs = before ++ r :: after →
    (a.votes before).n_a ≤ (a.votes (before ++ [r])).n_a
  /-- After an accept, `n_a` is at most `n_h`. -/
  ordered : ∀ before arg between after, reqs = before ++ .accept arg :: (between ++ after) →
    ((a.votes before).vote (.accept arg)).2 = true →
    (a.votes (before ++ .accept arg :: between)).n_a ≤
      (a.votes (before ++ .accept arg :: between)).n_h
  /-- After an accept, no lower number is promised or accepted. -/
  kept : ∀ before arg between r after, reqs = before ++ .accept arg :: (between ++ r :: after) →
    ((a.votes before).vote (.accept arg)).2 = true →
    ((a.votes (before ++ .accept arg :: between)).vote r).2 = true → arg.n ≤ r.number

/-- The number of an accept request is not above the highest number promised. -/
def UpToPromise (a : Acceptor) : VoteReq → Prop
  | .prepare _ => True
  | .accept arg => arg.n ≤ a.n_h

instance (a : Acceptor) : ∀ r, Decidable (UpToPromise a r)
  | .prepare _ => inferInstanceAs (Decidable True)
  | .accept arg => inferInstanceAs (Decidable (arg.n ≤ a.n_h))

/-- Every accept request comes with a number that is not above the highest one promised then. -/
def AllUpToPromise : Acceptor → List VoteReq → Prop
  | _, [] => True
  | a, r :: reqs => UpToPromise a r ∧ AllUpToPromise (a.vote r).1 reqs

instance : ∀ a reqs, Decidable (AllUpToPromise a reqs)
  | _, [] => inferInstanceAs (Decidable True)
  | a, r :: reqs =>
    haveI : Decidable (AllUpToPromise (a.vote r).1 reqs) := instDecidableAllUpToPromise _ reqs
    inferInstanceAs (Decidable (UpToPromise a r ∧ AllUpToPromise (a.vote r).1 reqs))

/-- The condition, request by request. -/
theorem allUpToPromise_iff {a : Acceptor} {reqs : List VoteReq} : AllUpToPromise a reqs ↔
    ∀ before r after, reqs = before ++ r :: after → UpToPromise (a.votes before) r := by
  induction reqs generalizing a with
  | nil => simp [AllUpToPromise]
  | cons r reqs ih =>
    constructor
    · rintro ⟨hr, hreqs⟩ before r' after heq
      cases before with
      | nil =>
        rw [List.nil_append, List.cons.injEq] at heq
        rw [← heq.1]
        exact hr
      | cons q before =>
        rw [List.cons_append, List.cons.injEq] at heq
        obtain ⟨rfl, heq⟩ := heq
        exact ih.mp hreqs before r' after heq
    · intro h
      refine ⟨h [] r reqs rfl, ih.mpr fun before r' after heq => ?_⟩
      exact h (r :: before) r' after (by rw [heq, List.cons_append])

/-- A request up to the promise keeps `n_a` at most `n_h`, and does not lower `n_a`. -/
theorem vote_ordered {a : Acceptor} (h : a.n_a ≤ a.n_h) {r : VoteReq} (hr : UpToPromise a r) :
    (a.vote r).1.n_a ≤ (a.vote r).1.n_h ∧ a.n_a ≤ (a.vote r).1.n_a := by
  cases r with
  | prepare arg =>
    have hn_a := (a.vote_prepare arg).1
    rw [hn_a]
    exact ⟨h.trans (a.n_h_le_vote _), le_rfl⟩
  | accept arg =>
    obtain ⟨hn_h, hcase⟩ := a.vote_accept arg
    rw [hn_h]
    rcases hcase with ⟨-, hle, heq⟩ | ⟨-, -, heq⟩
    · rw [heq]
      exact ⟨hr, h.trans hle⟩
    · rw [heq]
      exact ⟨h, le_rfl⟩

/-- Requests up to the promise keep `n_a` at most `n_h`. -/
theorem votes_ordered {a : Acceptor} (h : a.n_a ≤ a.n_h) {reqs : List VoteReq}
    (hreqs : AllUpToPromise a reqs) : (a.votes reqs).n_a ≤ (a.votes reqs).n_h := by
  induction reqs generalizing a with
  | nil => exact h
  | cons r reqs ih => exact ih (vote_ordered h hreqs.1).1 hreqs.2

/-- The condition holds of the first requests when it holds of all. -/
theorem AllUpToPromise.left {a : Acceptor} {reqs reqs' : List VoteReq}
    (h : AllUpToPromise a (reqs ++ reqs')) : AllUpToPromise a reqs := by
  rw [allUpToPromise_iff] at h ⊢
  intro before r after heq
  exact h before r (after ++ reqs') (by rw [heq, List.append_assoc, List.cons_append])

/-- From a state in which `n_a` is at most `n_h`, as it is when an instance is opened, the acceptor
is monotone exactly when every accept request comes with a number that is not above `n_h`. -/
theorem monotone_iff {a : Acceptor} (h : a.n_a ≤ a.n_h) (reqs : List VoteReq) :
    Monotone a reqs ↔ AllUpToPromise a reqs := by
  constructor
  · intro hmono
    rw [allUpToPromise_iff]
    intro before r after heq
    cases r with
    | prepare arg => trivial
    | accept arg =>
      -- Above `n_h` the request is granted, and `n_a` is then above `n_h`.
      obtain ⟨hn_h, ⟨hgrant, -, hn_a⟩ | ⟨-, hlt, -⟩⟩ := (a.votes before).vote_accept arg
      · have hle := hmono.ordered before arg [] after heq hgrant
        rw [a.votes_append, Acceptor.votes_cons, Acceptor.votes_nil, hn_a, hn_h] at hle
        exact hle
      · exact hlt.le
  · intro hreqs
    refine ⟨fun before r after heq => ?_, fun before r after heq => ?_,
      fun before arg between after heq _ => ?_,
      fun before arg between r after heq hacc hgrant => ?_⟩
    · rw [a.votes_append]
      exact (a.votes before).n_h_le_votes _
    · rw [heq] at hreqs
      have hbefore := votes_ordered h hreqs.left
      rw [a.votes_append]
      exact (vote_ordered hbefore (allUpToPromise_iff.mp hreqs before r after rfl)).2
    · rw [heq, ← List.cons_append, ← List.append_assoc] at hreqs
      exact votes_ordered h hreqs.left
    · -- The number accepted was the highest one promised, and `n_h` only goes up from there.
      have hle : arg.n ≤ (a.votes before).n_h := allUpToPromise_iff.mp hreqs before _ _ heq
      calc arg.n ≤ (a.votes before).n_h := hle
        _ ≤ (a.votes (before ++ .accept arg :: between)).n_h := by
          rw [a.votes_append]
          exact (a.votes before).n_h_le_votes _
        _ ≤ r.number := Acceptor.n_h_le_number hgrant

/-- An acceptor that promises a number, accepts it and promises a higher one. -/
theorem monotone_promised_first :
    (Acceptor.fresh "1" "").n_a ≤ (Acceptor.fresh "1" "").n_h ∧
      Monotone (Acceptor.fresh "1" "") [.prepare ⟨1, ⟨1, "1"⟩⟩, .accept ⟨1, ⟨1, "1"⟩, "x"⟩,
        .prepare ⟨1, ⟨2, "2"⟩⟩] :=
  ⟨le_rfl, (monotone_iff le_rfl _).mpr (by decide)⟩

/-- An acceptor that accepts a number which it never promised then promises a lower one. -/
theorem accept_above_promise_forgotten :
    ¬ Monotone (Acceptor.fresh "1" "")
      [.accept ⟨1, ⟨5, "2"⟩, "x"⟩, .prepare ⟨1, ⟨3, "3"⟩⟩] := by
  intro h
  have hle := h.kept [] ⟨1, ⟨5, "2"⟩, "x"⟩ [] (.prepare ⟨1, ⟨3, "3"⟩⟩) [] rfl (by decide)
    (by decide)
  exact absurd hle (by decide)

end SimpleDfs.Paxos
