import SimpleDfs.Rpc.Connection

/-!
# The bounds of the receive buffer

`connection::readpdu` reads the size of a PDU from the network, allocates a buffer for it, and then
reads the PDU into that buffer over any number of calls. The size is whatever the peer has sent.
`readpdu` refuses one above `MAX_PDU`, but not one below the four bytes of the size itself: such a
PDU is shorter than what was already read of it, and the length of the next read is negative; for
most negative sizes there is no buffer, and the process aborts (`small_size_overruns`).

`receive_buffer_bounds_iff` says that a size from `4` on is handled, and no smaller one; and that as
long as no smaller one comes, the buffer stays within its bounds, however the bytes arrive.
-/

namespace SimpleDfs.Rpc

/-- The length that `readpdu` passes to `read`. -/
def CharBuf.readLength (b : CharBuf) : ℤ := b.sz - b.solong

/-- A PDU that is being assembled is within its bounds, and so is the next read. -/
structure CharBuf.InBounds (b : CharBuf) : Prop where
  /-- The size was read. -/
  sizeof_le : sizeofSz ≤ b.solong
  /-- Not more was read than the PDU has. -/
  solong_le : b.solong ≤ b.sz
  /-- The length of the next read is not negative. -/
  readLength_nonneg : 0 ≤ b.readLength
  /-- The next read stays in the buffer. -/
  fits : b.solong + b.readLength ≤ Receiver.allocated b.sz

namespace Receiver

/-- The next size on the wire. -/
def sizeField (r : Receiver) (wire : Bytes) : ℤ :=
  ntohl ((wire.drop r.consumed).take sizeofSz)

/-- `readpdu` returns after the size was read, and has started a PDU only within its bounds. -/
def HandlesSize (r : Receiver) (wire : Bytes) : Prop :=
  ∃ succ r', r.readSize wire (.got sizeofSz) = some (succ, r') ∧ (succ = true → r'.rpdu.InBounds)

/-- The size that `readpdu` reads next, if any, counts at least its own bytes. -/
def SizeFromFour (r : Receiver) (wire : Bytes) : Prop :=
  r.rpdu.sz = 0 → r.consumed + sizeofSz ≤ wire.length → (sizeofSz : ℤ) ≤ r.sizeField wire

/-- The receiver when `readpdu` makes its second read, if it does. -/
def assembling (r : Receiver) (wire : Bytes) (first : ReadResult) : Option Receiver :=
  if r.rpdu.sz = 0 then
    (r.readSize wire first).bind fun got => if got.1 then some got.2 else none
  else some r

end Receiver

/-! ## A peer that sends any bytes -/

/-- A receiver and what its peer has sent. -/
structure Inbound where
  /-- All bytes that were sent. -/
  wire : Bytes
  /-- The receiver. -/
  receiver : Receiver

/-- The events of a receiver. -/
inductive InboundEvent where
  /-- Bytes arrive. -/
  | arrive (bytes : Bytes)
  /-- `read_cb`, with what the reads and `got_pdu` return. -/
  | readCb (first second : ReadResult) (accepts : Bool)
  deriving DecidableEq, Repr

/-- The state after an event. -/
def Inbound.next (s : Inbound) : InboundEvent → Option Inbound
  | .arrive bytes => some { s with wire := s.wire ++ bytes }
  | .readCb first second accepts =>
    (s.receiver.readCb s.wire first second accepts).map fun r => { s with receiver := r }

/-- A new connection, and a peer that sends any bytes. -/
def inboundSystem : System Inbound InboundEvent where
  init s := s = ⟨[], .fresh⟩
  step := Inbound.next

/-- Every size that is read counts at least its own bytes. -/
def SizesFromFour (s : Inbound) : InboundEvent → Prop
  | .arrive _ => True
  | .readCb .. => s.receiver.SizeFromFour s.wire

instance (s : Inbound) : ∀ e, Decidable (SizesFromFour s e)
  | .arrive _ => isTrue trivial
  | .readCb .. => inferInstanceAs (Decidable (_ → _ → _))

/-! ## The size -/

section Size

variable {r r' : Receiver} {wire : Bytes}

/-- A buffer for a size that counts its own bytes is as large as it says. -/
theorem allocated_eq {sz : ℤ} (h : (sizeofSz : ℤ) ≤ sz) (hmax : sz ≤ maxPdu) :
    (Receiver.allocated sz : ℤ) = sz + sizeofSz := by
  simp only [Receiver.allocated, sizeofSz, maxPdu] at h hmax ⊢
  omega

/-- The bounds of a new PDU. -/
theorem inBounds_new_iff {sz : ℤ} (hmax : sz ≤ maxPdu) (buf : Option Bytes) :
    (⟨buf, sz, sizeofSz⟩ : CharBuf).InBounds ↔ (sizeofSz : ℤ) ≤ sz := by
  constructor
  · exact fun h => h.solong_le
  · intro h
    refine ⟨le_rfl, h, sub_nonneg.mpr h, ?_⟩
    rw [allocated_eq h hmax, CharBuf.readLength]
    simp only [sizeofSz]
    omega

/-- What `readpdu` does with a size that has come as a whole. -/
theorem readSize_got (hbuf : r.rpdu.buf = none) (hwire : r.consumed + sizeofSz ≤ wire.length) :
    r.readSize wire (.got sizeofSz) =
      if r.sizeField wire > maxPdu then some (false, { r with consumed := r.consumed + sizeofSz })
      else if Receiver.mallocFails (Receiver.allocated (r.sizeField wire)) then none
      else some (true, { r with
        consumed := r.consumed + sizeofSz
        rpdu := ⟨some ((wire.drop r.consumed).take sizeofSz), r.sizeField wire, sizeofSz⟩ }) := by
  have htake : r.take wire sizeofSz sizeofSz = some ((wire.drop r.consumed).take sizeofSz,
      { r with consumed := r.consumed + sizeofSz }) := by
    rw [Receiver.take, if_pos ⟨by decide, le_rfl, hwire⟩]
  have hnone : ¬ r.rpdu.buf.isSome = true := by rw [hbuf]; simp
  unfold Receiver.readSize
  dsimp only
  rw [htake, Option.bind_some, if_neg (not_not.mpr rfl), if_neg hnone, Receiver.sizeField]

/-- A size is handled exactly when it counts its own bytes. -/
theorem handlesSize_iff (hbuf : r.rpdu.buf = none) (hwire : r.consumed + sizeofSz ≤ wire.length) :
    r.HandlesSize wire ↔ (sizeofSz : ℤ) ≤ r.sizeField wire := by
  rw [Receiver.HandlesSize, readSize_got hbuf hwire]
  split_ifs with hbig halloc
  · refine iff_of_true ⟨false, _, rfl, Bool.noConfusion⟩ ?_
    simp only [maxPdu, sizeofSz] at hbig ⊢
    omega
  · refine iff_of_false (by simp) fun h => ?_
    have heq := allocated_eq h (not_lt.mp hbig)
    have hlarge := of_decide_eq_true halloc
    simp only [maxPdu, sizeofSz] at hbig heq
    omega
  · constructor
    · rintro ⟨succ, r', heq, hbounds⟩
      obtain ⟨rfl, rfl⟩ := Prod.mk.inj (Option.some.inj heq)
      exact (inBounds_new_iff (not_lt.mp hbig) _).mp (hbounds rfl)
    · exact fun h => ⟨true, _, rfl, fun _ => (inBounds_new_iff (not_lt.mp hbig) _).mpr h⟩

end Size

/-! ## The whole PDU -/

/-- No PDU is being assembled, or one within its bounds. -/
def Receiver.Bounded (r : Receiver) : Prop :=
  r.rpdu = .null ∨ r.rpdu.buf.isSome = true ∧ r.rpdu.InBounds

section Bounded

variable {r r' : Receiver} {wire : Bytes} {succ accepts : Bool} {first second : ReadResult}

/-- The size of a PDU that is being assembled is not `0`. -/
theorem CharBuf.InBounds.sz_ne_zero {b : CharBuf} (h : b.InBounds) : b.sz ≠ 0 := by
  have hle := h.sizeof_le.trans h.solong_le
  simp only [sizeofSz] at hle
  omega

/-- A PDU is started within its bounds, or not at all. -/
theorem bounded_readSize (hnull : r.rpdu = .null) (hfour : r.SizeFromFour wire)
    (hstep : r.readSize wire first = some (succ, r')) :
    (succ = true → r'.rpdu.buf.isSome = true ∧ r'.rpdu.InBounds) ∧
      (succ = false → r'.rpdu = .null) := by
  have hbuf : r.rpdu.buf = none := by rw [hnull]; rfl
  have hzero : r.rpdu.sz = 0 := by rw [hnull]; rfl
  cases first with
  | eof again =>
    obtain ⟨rfl, rfl⟩ := Prod.mk.inj (Option.some.inj hstep)
    exact ⟨Bool.noConfusion, fun _ => hnull⟩
  | error again =>
    cases again with
    | false =>
      obtain ⟨rfl, rfl⟩ := Prod.mk.inj (Option.some.inj hstep)
      exact ⟨Bool.noConfusion, fun _ => hnull⟩
    | true => cases hstep
  | got n =>
    by_cases hn : n = sizeofSz
    · -- The whole size has come.
      subst hn
      have hwire : r.consumed + sizeofSz ≤ wire.length := by
        by_contra hshort
        simp [Receiver.readSize, Receiver.take, hshort] at hstep
      rw [readSize_got hbuf hwire] at hstep
      split_ifs at hstep with hbig
      · obtain ⟨rfl, rfl⟩ := Prod.mk.inj (Option.some.inj hstep)
        exact ⟨Bool.noConfusion, fun _ => hnull⟩
      · obtain ⟨rfl, rfl⟩ := Prod.mk.inj (Option.some.inj hstep)
        refine ⟨fun _ => ⟨rfl, ?_⟩, Bool.noConfusion⟩
        exact (inBounds_new_iff (not_lt.mp hbig) _).mpr (hfour hzero hwire)
    · -- A part of the size is an error.
      obtain ⟨⟨sz1, r₁⟩, htake, hstep⟩ := Option.bind_eq_some_iff.mp hstep
      unfold Receiver.take at htake
      split_ifs at htake
      obtain ⟨rfl, rfl⟩ := Prod.mk.inj (Option.some.inj htake)
      dsimp only at hstep
      rw [if_pos hn] at hstep
      obtain ⟨rfl, rfl⟩ := Prod.mk.inj (Option.some.inj hstep)
      exact ⟨Bool.noConfusion, fun _ => hnull⟩

/-- A read gets no more than was asked for. -/
theorem bounded_readBody (hsome : r.rpdu.buf.isSome = true) (h : r.rpdu.InBounds)
    (hstep : r.readBody wire second = some (succ, r')) : r'.Bounded := by
  cases second with
  | eof again | error again =>
    cases again with
    | false =>
      obtain ⟨-, rfl⟩ := Prod.mk.inj (Option.some.inj hstep)
      exact Or.inl rfl
    | true =>
      obtain ⟨-, rfl⟩ := Prod.mk.inj (Option.some.inj hstep)
      exact Or.inr ⟨hsome, h⟩
  | got n =>
    obtain ⟨buf, -, hstep⟩ := Option.bind_eq_some_iff.mp hstep
    obtain ⟨⟨bytes, r₁⟩, htake, heq⟩ := Option.map_eq_some_iff.mp hstep
    unfold Receiver.take at htake
    split_ifs at htake with hasked
    obtain ⟨rfl, rfl⟩ := Prod.mk.inj (Option.some.inj htake)
    obtain ⟨-, rfl⟩ := Prod.mk.inj heq
    obtain ⟨hsizeof, hle, -, hfits⟩ := h
    have hn := hasked.2.1
    refine Or.inr ⟨rfl, ?_, ?_, ?_, ?_⟩
    all_goals
      simp only [CharBuf.readLength] at hfits ⊢
      omega

/-- `readpdu` makes its second read within the bounds. -/
theorem inBounds_assembling (h : r.Bounded) (hfour : r.SizeFromFour wire)
    (hstep : r.assembling wire first = some r') : r'.rpdu.buf.isSome = true ∧ r'.rpdu.InBounds := by
  unfold Receiver.assembling at hstep
  rcases h with hnull | ⟨hsome, hbounds⟩
  · rw [if_pos (by rw [hnull]; rfl)] at hstep
    obtain ⟨⟨succ, r₁⟩, hsize, hstep⟩ := Option.bind_eq_some_iff.mp hstep
    dsimp only at hstep
    split_ifs at hstep with hsucc
    obtain rfl := Option.some.inj hstep
    exact (bounded_readSize hnull hfour hsize).1 hsucc
  · rw [if_neg hbounds.sz_ne_zero] at hstep
    obtain rfl := Option.some.inj hstep
    exact ⟨hsome, hbounds⟩

/-- `readpdu` keeps the bounds. -/
theorem bounded_readpdu (h : r.Bounded) (hfour : r.SizeFromFour wire)
    (hstep : r.readpdu wire first second = some (succ, r')) : r'.Bounded := by
  unfold Receiver.readpdu at hstep
  rcases h with hnull | ⟨hsome, hbounds⟩
  · rw [if_pos (by rw [hnull]; rfl)] at hstep
    obtain ⟨⟨succ₁, r₁⟩, hsize, hstep⟩ := Option.bind_eq_some_iff.mp hstep
    obtain ⟨hyes, hno⟩ := bounded_readSize hnull hfour hsize
    dsimp only at hstep
    split_ifs at hstep with hsucc
    · obtain ⟨hsome, hbounds⟩ := hyes hsucc
      exact bounded_readBody hsome hbounds hstep
    · obtain ⟨-, rfl⟩ := Prod.mk.inj (Option.some.inj hstep)
      exact Or.inl (hno (Bool.eq_false_iff.mpr hsucc))
  · rw [if_neg hbounds.sz_ne_zero] at hstep
    exact bounded_readBody hsome hbounds hstep

/-- A complete PDU is handed over as a whole. -/
theorem bounded_offer (h : r.Bounded) (accepts : Bool) : (r.offer accepts).Bounded := by
  unfold Receiver.offer
  split
  · exact h
  · split_ifs
    · exact Or.inl rfl
    · exact h

/-- `read_cb` keeps the bounds. -/
theorem bounded_readCb (h : r.Bounded) (hfour : r.SizeFromFour wire)
    (hstep : r.readCb wire first second accepts = some r') : r'.Bounded := by
  unfold Receiver.readCb at hstep
  split_ifs at hstep
  · obtain rfl := Option.some.inj hstep
    exact h
  · obtain ⟨⟨succ, r₁⟩, hread, rfl⟩ := Option.map_eq_some_iff.mp hstep
    have hbounded := bounded_readpdu h hfour hread
    refine bounded_offer ?_ accepts
    split_ifs
    · exact hbounded
    · exact hbounded
  · obtain rfl := Option.some.inj hstep
    exact bounded_offer h accepts

end Bounded

/-- The bounds hold in every state that a receiver reaches. -/
theorem bounded_of_reachable {s : Inbound} (h : inboundSystem.Reachable SizesFromFour s) :
    s.receiver.Bounded := by
  refine h.invariant (I := fun s => s.receiver.Bounded) (fun s hinit => ?_)
    fun s e s' hI hG hstep => ?_
  · obtain rfl : s = ⟨[], .fresh⟩ := hinit
    exact Or.inl rfl
  · cases e with
    | arrive bytes =>
      obtain rfl := Option.some.inj hstep
      exact hI
    | readCb first second accepts =>
      obtain ⟨r, hr, rfl⟩ := Option.map_eq_some_iff.mp hstep
      exact bounded_readCb hI hG hr

/-- A size is handled exactly when it counts at least its own four bytes. As long as every size
does, the PDU that is being assembled is within its bounds, and so is every read into it. -/
theorem receive_buffer_bounds_iff (r : Receiver) (wire : Bytes) (s : Inbound) :
    (r.rpdu.buf = none → r.consumed + sizeofSz ≤ wire.length →
      (r.HandlesSize wire ↔ (sizeofSz : ℤ) ≤ r.sizeField wire)) ∧
    (inboundSystem.Reachable SizesFromFour s →
      (∀ buf, s.receiver.rpdu.buf = some buf → s.receiver.rpdu.InBounds) ∧
      ∀ first second accepts r', SizesFromFour s (.readCb first second accepts) →
        s.receiver.assembling s.wire first = some r' → r'.rpdu.InBounds) := by
  refine ⟨handlesSize_iff, fun hreachable => ?_⟩
  have hbounded := bounded_of_reachable hreachable
  refine ⟨fun buf hbuf => ?_, fun first second accepts r' hfour hstep => ?_⟩
  · rcases hbounded with hnull | hbounds
    · rw [hnull] at hbuf
      cases hbuf
    · exact hbounds.2
  · exact (inBounds_assembling hbounded hfour hstep).2

/-- A PDU of 30 bytes arrives in three parts. -/
theorem receive_buffer_bounds_thirty_bytes : ∃ s, inboundSystem.Reachable SizesFromFour s ∧
    s.receiver.rpdu.solong = 9 ∧ s.receiver.rpdu.InBounds := by
  have hrun : (inboundSystem.execGuarded SizesFromFour ⟨[], .fresh⟩
      [.arrive [0, 0, 0, 30, 1, 2], .readCb (.got 4) (.got 2) true, .arrive [3, 4, 5],
       .readCb (.got 4) (.got 3) true]).map (fun s => (s.receiver.rpdu.solong,
         s.receiver.rpdu.buf)) = some (9, some [0, 0, 0, 30, 1, 2, 3, 4, 5]) := by
    decide
  obtain ⟨s, hexec, hval⟩ := Option.map_eq_some_iff.mp hrun
  simp only [Prod.mk.injEq] at hval
  have hreachable := System.Reachable.of_execGuarded hexec rfl
  exact ⟨s, hreachable, hval.1, ((receive_buffer_bounds_iff .fresh [] s).2 hreachable).1 _ hval.2⟩

/-- The size `0` starts a PDU of which more was read than it has, and the next read has the length
`-4`. The size `-5` aborts the process. -/
theorem small_size_overruns :
    (∃ r, Receiver.fresh.readSize [0, 0, 0, 0] (.got 4) = some (true, r) ∧
      r.rpdu.solong = 4 ∧ r.rpdu.sz = 0 ∧ r.rpdu.readLength = -4 ∧ ¬ r.rpdu.InBounds) ∧
    Receiver.fresh.sizeField [255, 255, 255, 251] = -5 ∧
      Receiver.fresh.readSize [255, 255, 255, 251] (.got 4) = none := by
  refine ⟨⟨⟨false, ⟨some [0, 0, 0, 0], 0, 4⟩, 4, []⟩, by decide, rfl, rfl, rfl, fun h => ?_⟩,
    by decide, by decide⟩
  exact absurd h.readLength_nonneg (by decide)

end SimpleDfs.Rpc
