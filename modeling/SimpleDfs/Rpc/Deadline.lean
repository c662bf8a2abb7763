import Mathlib.Algebra.Ring.Int.Defs
import Mathlib.Algebra.Ring.Nat
import Mathlib.Tactic.SplitIfs
import SimpleDfs.Base.System

/-!
# The deadlines of a call

`rpcc::call1` waits for the reply until a deadline that it computes with `add_timespec`, from the
time of day and a number of milliseconds. A `timespec` is valid when its nanoseconds are less than a
second; `pthread_cond_timedwait` fails at once for one that is not.

The loop of `add_timespec` carries a second while there are *more* nanoseconds than a second has. So
the result is exact, but a sum of exactly one second is not carried and the result is not valid
(`deadlines_iff`). Of the deadlines of a call only the last one can be such a sum, since the
others are some whole seconds after the time of day. That the timeout, which is doubled for each of
them, does not overflow before the call ends follows from the time that has passed then.
-/

namespace SimpleDfs.Rpc

/-- `struct timespec`. The seconds have 64 bits. -/
structure Timespec where
  /-- The seconds since 1970. -/
  tv_sec : ℤ
  /-- The nanoseconds. -/
  tv_nsec : ℤ
  /-- The seconds are a `time_t`. -/
  range : -9223372036854775808 ≤ tv_sec ∧ tv_sec < 9223372036854775808
  deriving DecidableEq, Repr

namespace Timespec

/-- The nanoseconds are less than a second. -/
def Valid (t : Timespec) : Prop := 0 ≤ t.tv_nsec ∧ t.tv_nsec < 1000000000

instance (t : Timespec) : Decidable t.Valid :=
  inferInstanceAs (Decidable (0 ≤ t.tv_nsec ∧ t.tv_nsec < 1000000000))

/-- The instant, in nanoseconds. -/
def instant (t : Timespec) : ℤ := t.tv_sec * 1000000000 + t.tv_nsec

/-- The time, when the seconds do not overflow. -/
def make (sec nsec : ℤ) : Option Timespec :=
  if h : -9223372036854775808 ≤ sec ∧ sec < 9223372036854775808 then some ⟨sec, nsec, h⟩ else none

/-- `finaldeadline.tv_sec = 0`. -/
def clear (t : Timespec) : Timespec := ⟨0, t.tv_nsec, by decide⟩

/-- The seconds of a valid time are those of the instant. -/
theorem Valid.tv_sec_eq {t : Timespec} (h : t.Valid) : t.tv_sec = t.instant / 1000000000 := by
  obtain ⟨hnonneg, hlt⟩ := h
  unfold instant
  omega

end Timespec

/-- `cmp_timespec`. -/
def cmpTimespec (a b : Timespec) : ℤ :=
  if a.tv_sec > b.tv_sec then 1
  else if a.tv_sec < b.tv_sec then -1
  else if a.tv_nsec > b.tv_nsec then 1
  else if a.tv_nsec < b.tv_nsec then -1
  else 0

/-- The loop of `add_timespec`. The result is `none` when the seconds overflow. -/
def carry (t : Timespec) : Option Timespec :=
  if 1000000000 < t.tv_nsec then
    if h : t.tv_sec + 1 < 9223372036854775808 then
      carry ⟨t.tv_sec + 1, t.tv_nsec - 1000000000, by have := t.range; omega⟩
    else none
  else some t
termination_by t.tv_nsec.toNat

/-- `add_timespec`. The result is `none` when the seconds overflow or `VERIFY` fails. -/
def addTimespec (a : Timespec) (b : ℤ) : Option Timespec :=
  (Timespec.make (a.tv_sec + b.tdiv 1000) (a.tv_nsec + b.tmod 1000 * 1000000)).bind fun result =>
    if 0 ≤ result.tv_nsec then carry result else none

/-! ## The sum -/

/-- The loop does not change the instant, and ends with at most a second of nanoseconds. -/
theorem carry_spec {t r : Timespec} (hcarry : carry t = some r) (ht : 0 ≤ t.tv_nsec) :
    r.instant = t.instant ∧ 0 ≤ r.tv_nsec ∧ r.tv_nsec ≤ 1000000000 ∧
      (r.tv_nsec = 1000000000 → t.tv_nsec % 1000000000 = 0 ∧ 0 < t.tv_nsec) := by
  -- By the loop: a second is carried, or the nanoseconds are at most those of a second.
  fun_induction carry t with
  | case1 t hlong hsec ih =>
    obtain ⟨hinstant, hnonneg, hle, hfull⟩ := ih hcarry (by dsimp only; omega)
    refine ⟨?_, hnonneg, hle, fun hr => ?_⟩
    · rw [hinstant]
      unfold Timespec.instant
      dsimp only
      omega
    · have hrest := hfull hr
      dsimp only at hrest
      omega
  | case2 t hlong hsec => cases hcarry
  | case3 t hshort =>
    obtain rfl := Option.some.inj hcarry
    exact ⟨rfl, ht, by omega, by omega⟩

/-- The loop ends with a result when the seconds of the instant do not overflow. -/
theorem exists_carry {t : Timespec} (hfits : t.instant / 1000000000 < 9223372036854775808) :
    ∃ r, carry t = some r := by
  fun_induction carry t with
  | case1 t hlong hsec ih =>
    refine ih ?_
    unfold Timespec.instant at hfits ⊢
    dsimp only
    omega
  | case2 t hlong hsec =>
    -- The second that would be carried is one of the instant.
    unfold Timespec.instant at hfits
    omega
  | case3 t hshort => exact ⟨t, rfl⟩

section Sum

variable {a r : Timespec} {b : ℤ}

/-- `add_timespec`, with the quotient and the rest of a timeout that is not negative. -/
theorem addTimespec_eq (ha : a.Valid) (hb : 0 ≤ b) : addTimespec a b =
    (Timespec.make (a.tv_sec + b / 1000) (a.tv_nsec + b % 1000 * 1000000)).bind carry := by
  obtain ⟨hnonneg, -⟩ := ha
  unfold addTimespec
  rw [Int.tdiv_eq_ediv_of_nonneg hb, Int.tmod_eq_emod_of_nonneg hb]
  unfold Timespec.make
  split_ifs
  · rw [Option.bind_some, Option.bind_some, if_pos (by dsimp only; omega)]
  · rfl

/-- What `add_timespec` returns is the exact sum, and valid unless the nanoseconds make up exactly
one second. -/
theorem addTimespec_spec (ha : a.Valid) (hb : 0 ≤ b) (hr : addTimespec a b = some r) :
    r.instant = a.instant + b * 1000000 ∧
      (r.Valid ↔ a.tv_nsec + b % 1000 * 1000000 ≠ 1000000000) := by
  rw [addTimespec_eq ha hb, Timespec.make] at hr
  split_ifs at hr with hrange
  · rw [Option.bind_some] at hr
    obtain ⟨hnonneg, hlt⟩ := ha
    obtain ⟨hinstant, hr0, hrle, hfull⟩ := carry_spec hr (by dsimp only; omega)
    dsimp only at hfull
    refine ⟨?_, fun hvalid hsum => ?_, fun hsum => ⟨hr0, ?_⟩⟩
    · rw [hinstant]
      unfold Timespec.instant
      dsimp only
      omega
    · -- The loop is not entered.
      rw [carry, if_neg (by dsimp only; omega)] at hr
      obtain rfl := Option.some.inj hr
      exact absurd hvalid.2 (by dsimp only; omega)
    · by_contra hone
      have hmultiple := hfull (by omega)
      omega
  · cases hr

/-- `add_timespec` returns when the seconds of the sum do not overflow. -/
theorem exists_addTimespec (ha : a.Valid) (hb : 0 ≤ b)
    (hfits : (a.instant + b * 1000000) / 1000000000 < 9223372036854775808) :
    ∃ r, addTimespec a b = some r := by
  have hrange := a.range
  obtain ⟨hnonneg, hlt⟩ := ha
  unfold Timespec.instant at hfits
  rw [addTimespec_eq ⟨hnonneg, hlt⟩ hb, Timespec.make, dif_pos (by omega), Option.bind_some]
  refine exists_carry ?_
  unfold Timespec.instant
  dsimp only
  omega

end Sum

/-- The order that `cmp_timespec` computes for valid times is that of the instants. -/
theorem cmpTimespec_eq {a b : Timespec} (ha : a.Valid) (hb : b.Valid) :
    cmpTimespec a b = (a.instant - b.instant).sign := by
  obtain ⟨ha0, ha1⟩ := ha
  obtain ⟨hb0, hb1⟩ := hb
  have hless : a.instant < b.instant → (a.instant - b.instant).sign = -1 :=
    fun h => Int.sign_eq_neg_one_of_neg (by omega)
  have hmore : b.instant < a.instant → (a.instant - b.instant).sign = 1 :=
    fun h => Int.sign_eq_one_of_pos (by omega)
  unfold Timespec.instant at hless hmore
  unfold cmpTimespec
  split_ifs
  · exact (hmore (by omega)).symm
  · exact (hless (by omega)).symm
  · exact (hmore (by omega)).symm
  · exact (hless (by omega)).symm
  · have hsame : a.instant - b.instant = 0 := by
      unfold Timespec.instant
      omega
    rw [hsame]
    rfl

/-! ## The waits of a call -/

/-- `call1` in its loop. -/
structure Call1 where
  /-- The last reading of the clock. -/
  now : Timespec
  /-- The deadline of the last wait, when there was one. -/
  nextdeadline : Option Timespec
  /-- The end of the call, with no seconds when that wait was the last one. -/
  finaldeadline : Timespec
  /-- The next timeout, in milliseconds. -/
  curr_to : ℤ
  deriving DecidableEq, Repr

namespace Call1

/-- `rpcc::to_min`. -/
def to_min : ℤ := 1000

/-- `x << 1` for an `int`. -/
def shiftLeft (x : ℤ) : ℤ := (2 * x).bmod 4294967296

/-- `call1` before the loop, with the timeout `to`. -/
def start (now : Timespec) (timeout : ℤ) : Option Call1 :=
  (addTimespec now timeout).map fun finaldeadline => ⟨now, none, finaldeadline, to_min⟩

/-- One round of the loop that ends with a timeout, with what the clock shows. -/
def wait (s : Call1) (now : Timespec) : Option Call1 :=
  if s.finaldeadline.tv_sec = 0 then none
  else (addTimespec now s.curr_to).map fun nextdeadline =>
    -- The last round: the loop ends when it comes to the check again.
    if cmpTimespec nextdeadline s.finaldeadline > 0 then
      ⟨now, some s.finaldeadline, s.finaldeadline.clear, shiftLeft s.curr_to⟩
    else ⟨now, some nextdeadline, s.finaldeadline, shiftLeft s.curr_to⟩

/-- A call that is made at the time `now`. -/
def system (now : Timespec) (timeout : ℤ) : System Call1 Timespec where
  init s := start now timeout = some s
  step := wait

/-- The clock is valid and is not set back. After a wait it shows the deadline or a later time. -/
def Clock (s : Call1) (now : Timespec) : Prop :=
  now.Valid ∧ s.now.instant ≤ now.instant ∧ ∀ d ∈ s.nextdeadline, d.instant ≤ now.instant

/-- The call was made at the time `begun` and ends at `final`. All deadlines are valid. Before the
last wait the timeout has been doubled some times, and as long as all timeouts before it together
has passed. -/
structure Inv (begun final : Timespec) (s : Call1) : Prop where
  /-- The last deadline. -/
  valid : ∀ d ∈ s.nextdeadline, d.Valid
  /-- The timeout. -/
  timeout : s.finaldeadline.tv_sec ≠ 0 → s.finaldeadline = final ∧
    ∃ k ≤ 21, s.curr_to = (1000 * 2 ^ k : ℕ)
  /-- The time that has passed. -/
  passed : s.finaldeadline.tv_sec ≠ 0 → ∀ now, Clock s now →
    begun.instant + (s.curr_to - 1000) * 1000000 ≤ now.instant

/-- A round keeps the invariant. -/
theorem Inv.wait {begun final : Timespec} {timeout : ℤ} (htimeout : timeout < 2147483648)
    (hfinal : final.Valid) (hend : final.instant = begun.instant + timeout * 1000000)
    {s s' : Call1} (h : Inv begun final s) {now : Timespec} (hclock : Clock s now)
    (hwait : s.wait now = some s') : Inv begun final s' := by
  unfold Call1.wait at hwait
  split_ifs at hwait with hopen
  obtain ⟨rfl, k, hk, hcurr⟩ := h.timeout hopen
  obtain ⟨next, hnext, hs'⟩ := Option.map_eq_some_iff.mp hwait
  have hpow : 1 ≤ 2 ^ k := Nat.one_le_two_pow
  -- A whole number of seconds is added to a valid time.
  obtain ⟨hexact, hvalid⟩ := addTimespec_spec hclock.1 (by omega) hnext
  have hnextValid : next.Valid := hvalid.mpr (by have := hclock.1.2; omega)
  rw [cmpTimespec_eq hnextValid hfinal] at hs'
  split_ifs at hs' with hlast
  · rw [← hs']
    refine ⟨fun d hd => ?_, fun hopen' => absurd rfl hopen', fun hopen' => absurd rfl hopen'⟩
    rw [← Option.some.inj hd]
    exact hfinal
  · have hbefore : next.instant ≤ s.finaldeadline.instant := by
      by_contra hafter
      exact hlast (by rw [Int.sign_eq_one_of_pos (by omega)]; decide)
    have hpassed := h.passed hopen now hclock
    -- The timeouts so far and this one fit into the timeout of the call, which is an `int`.
    have hsmall : k ≤ 20 := by
      by_contra hlarge
      obtain rfl : k = 21 := by omega
      omega
    have hbound : 2 ^ k ≤ 2 ^ 20 := Nat.pow_le_pow_right (by decide) hsmall
    have hshift : shiftLeft s.curr_to = 2 * s.curr_to := by
      unfold shiftLeft
      exact Int.bmod_eq_of_le (by omega) (by omega)
    rw [← hs']
    refine ⟨fun d hd => ?_, fun _ => ⟨rfl, k + 1, by omega, ?_⟩, fun _ now' hclock' => ?_⟩
    · rw [← Option.some.inj hd]
      exact hnextValid
    · show shiftLeft s.curr_to = _
      rw [hshift, hcurr, Nat.pow_succ]
      omega
    · have hnow' := hclock'.2.2 next rfl
      show begun.instant + (shiftLeft s.curr_to - 1000) * 1000000 ≤ now'.instant
      rw [hshift]
      omega

/-- All deadlines of a call are valid, when its last one is. -/
theorem valid_of_reachable {begun : Timespec} {timeout : ℤ} (hbegun : begun.Valid)
    (hnonneg : 0 ≤ timeout) (htimeout : timeout < 2147483648)
    (hsum : begun.tv_nsec + timeout % 1000 * 1000000 ≠ 1000000000) {s : Call1}
    (h : (system begun timeout).Reachable Clock s) : ∀ d ∈ s.nextdeadline, d.Valid := by
  obtain ⟨s₀, hstart, hsteps⟩ := h
  obtain ⟨final, hfinal, rfl⟩ := Option.map_eq_some_iff.mp hstart
  obtain ⟨hexact, hvalid⟩ := addTimespec_spec hbegun hnonneg hfinal
  have hinit : Inv begun final ⟨begun, none, final, to_min⟩ := by
    refine ⟨(fun d hd => by cases hd), fun _ => ⟨rfl, 0, by decide, rfl⟩, fun _ now hclock => ?_⟩
    have hnow : begun.instant ≤ now.instant := hclock.2.1
    show begun.instant + (1000 - 1000) * 1000000 ≤ now.instant
    omega
  have hinv : Inv begun final s := hsteps.preserves
    (fun _ _ _ hs hclock hwait => hs.wait htimeout (hvalid.mpr hsum) hexact hclock hwait) hinit
  exact hinv.valid

end Call1

/-- For a timeout that is not negative `add_timespec` gives a valid time that is the exact sum if
and only if the nanoseconds do not make up exactly one second, and the seconds do not overflow. Then
all deadlines of a call that is made at that time with that timeout are valid. Valid times are
compared as the instants are. -/
theorem deadlines_iff {a : Timespec} (ha : a.Valid) {b : ℤ} (hb : 0 ≤ b) (hint : b < 2147483648) :
    ((∃ r, addTimespec a b = some r ∧ r.Valid ∧ r.instant = a.instant + b * 1000000) ↔
      a.tv_nsec + b % 1000 * 1000000 ≠ 1000000000 ∧
        (a.instant + b * 1000000) / 1000000000 < 9223372036854775808) ∧
    (a.tv_nsec + b % 1000 * 1000000 ≠ 1000000000 →
      ∀ s, (Call1.system a b).Reachable Call1.Clock s → ∀ d ∈ s.nextdeadline, d.Valid) ∧
    ∀ r r' : Timespec, r.Valid → r'.Valid →
      cmpTimespec r r' = (r.instant - r'.instant).sign := by
  refine ⟨⟨?_, ?_⟩, fun hsum s hs => Call1.valid_of_reachable ha hb hint hsum hs,
    fun r r' hr hr' => cmpTimespec_eq hr hr'⟩
  · rintro ⟨r, hr, hvalid, hexact⟩
    refine ⟨(addTimespec_spec ha hb hr).2.mp hvalid, ?_⟩
    rw [← hexact, ← hvalid.tv_sec_eq]
    exact r.range.2
  · rintro ⟨hsum, hfits⟩
    obtain ⟨r, hr⟩ := exists_addTimespec ha hb hfits
    obtain ⟨hexact, hvalid⟩ := addTimespec_spec ha hb hr
    exact ⟨r, hr, hvalid.mpr hsum, hexact⟩

/-- A millisecond before the next second. -/
def almost : Timespec := ⟨5, 999000000, by decide⟩

/-- Two milliseconds later is a valid time. -/
theorem deadlines_iff_almost : almost.Valid ∧
    ∃ r, addTimespec almost 2 = some r ∧ r.Valid ∧ r.instant = almost.instant + 2 * 1000000 := by
  have hvalid : almost.Valid := by decide
  exact ⟨hvalid, (deadlines_iff hvalid (b := 2) (by decide) (by decide)).1.mpr
    ⟨by decide, by decide⟩⟩

/-- One millisecond later is not, and it is found to be before the second that it is. A call with
that timeout waits for it. -/
theorem deadline_not_carried : ∃ r : Timespec, addTimespec almost 1 = some r ∧
    r.tv_sec = 5 ∧ r.tv_nsec = 1000000000 ∧ ¬ r.Valid ∧
    cmpTimespec r ⟨6, 0, by decide⟩ = -1 ∧ r.instant = Timespec.instant ⟨6, 0, by decide⟩ ∧
    ∃ s, (Call1.system almost 1).Reachable Call1.Clock s ∧ s.nextdeadline = some r := by
  have hadd : addTimespec almost 1 = some ⟨5, 1000000000, by decide⟩ := by
    rw [addTimespec_eq (by decide) (by decide)]
    exact (Option.bind_some ..).trans (by rw [carry]; rfl)
  have hnext : addTimespec almost 1000 = some ⟨6, 999000000, by decide⟩ := by
    rw [addTimespec_eq (by decide) (by decide)]
    exact (Option.bind_some ..).trans (by rw [carry]; rfl)
  refine ⟨⟨5, 1000000000, by decide⟩, hadd, rfl, rfl, by decide, by decide, by decide, ?_⟩
  have hstart : Call1.start almost 1 =
      some ⟨almost, none, ⟨5, 1000000000, by decide⟩, Call1.to_min⟩ := by
    rw [Call1.start, hadd]
    rfl
  have hwait : Call1.wait ⟨almost, none, ⟨5, 1000000000, by decide⟩, Call1.to_min⟩ almost =
      some ⟨almost, some ⟨5, 1000000000, by decide⟩, ⟨0, 1000000000, by decide⟩, 2000⟩ := by
    rw [Call1.wait, if_neg (by decide)]
    show (addTimespec almost 1000).map _ = _
    rw [hnext]
    rfl
  have hclock : Call1.Clock ⟨almost, none, ⟨5, 1000000000, by decide⟩, Call1.to_min⟩ almost :=
    ⟨by decide, Int.le_refl _, fun d hd => by cases hd⟩
  exact ⟨_, (System.Reachable.of_init hstart).steps (.single ⟨almost, hclock, hwait⟩), rfl⟩

end SimpleDfs.Rpc
