import SimpleDfs.Rpc.Connection

/-!
# Framing

The PDUs that a receiver accepts are the first ones of those whose transmission was started, byte by
byte, with the size slot filled in (`accepted_of_started`): whatever the reads and writes transfer,
however often PDUs are refused, and whether or not the connection breaks.

The bytes on the wire are always the frames of the PDUs started, the last one perhaps in part
(`SenderInv`). What the receiver has read is the PDUs that it accepted and the part of the next one
in its buffer (`ReceiverInv`). A frame tells its own size in its first bytes, so when the buffer is
full it holds the next frame (`eq_next_frame`).
-/

namespace SimpleDfs.Rpc

open BigEndian

/-- What is written for a PDU. -/
def framed (b : Bytes) : Bytes := htonl b.length ++ b.drop sizeofSz

/-- The size of a PDU is in range. -/
def Sized (b : Bytes) : Prop := rpcHeaderSz ≤ b.length ∧ b.length ≤ maxPdu

/-- The frames of some PDUs. -/
def frames (started : List Bytes) : List Bytes := started.map framed

/-! ## Frames -/

@[simp] theorem length_htonl (sz : ℤ) : (htonl sz).length = 4 := rfl

/-- A frame has the size of its PDU. -/
theorem length_framed {b : Bytes} (h : Sized b) : (framed b).length = b.length := by
  have hle : 24 ≤ b.length := h.1
  unfold framed
  rw [List.length_append, length_htonl, List.length_drop]
  show 4 + (b.length - 4) = b.length
  omega

/-- A frame is written for itself. -/
theorem framed_framed {b : Bytes} (h : Sized b) : framed (framed b) = framed b := by
  have hlen := length_framed h
  have hhead : (htonl b.length).length = sizeofSz := rfl
  have hdrop : (framed b).drop (htonl b.length).length = b.drop sizeofSz := List.drop_left
  rw [hhead] at hdrop
  unfold framed at hlen hdrop ⊢
  rw [hlen, hdrop]

/-- A size in range is read as it was written. -/
theorem ntohl_htonl {n : ℕ} (h : n ≤ maxPdu) (rest : Bytes) :
    ntohl (htonl n ++ rest) = n := by
  unfold maxPdu at h
  have hword : ntohl (htonl n ++ rest) = toInt (UInt32.ofNat n).toNat := by
    show toInt (word (widen (byte (UInt32.ofNat n) 24)) (widen (byte (UInt32.ofNat n) 16))
      (widen (byte (UInt32.ofNat n) 8)) (widen (byte (UInt32.ofNat n) 0))).toNat = _
    rw [word_byte]
  have hnat : (UInt32.ofNat n).toNat = n := by
    refine UInt32.toNat_ofNat_of_lt' ?_
    show n < 4294967296
    omega
  rw [hword, hnat]
  unfold toInt
  omega

/-- The size depends on the first four bytes only. -/
theorem ntohl_append {s : Bytes} (h : 4 ≤ s.length) (rest : Bytes) :
    ntohl (s ++ rest) = ntohl s := by
  have hget : ∀ i, i < 4 → (s ++ rest).getD i 0 = s.getD i 0 := by
    intro i hi
    exact List.getD_append _ _ _ _ (by omega)
  unfold ntohl
  rw [hget 0 (by decide), hget 1 (by decide), hget 2 (by decide), hget 3 (by decide)]

section Frames

variable {accepted F : List Bytes} {c : Bytes}

/-- Bytes beyond the frames that were accepted belong to a further frame. -/
theorem exists_next_frame (hacc : accepted <+: F) (hc : c ≠ [])
    (hbytes : accepted.flatten ++ c <+: F.flatten) :
    ∃ g G, F = accepted ++ g :: G ∧ c <+: g ++ G.flatten := by
  obtain ⟨rest, rfl⟩ := hacc
  rw [List.flatten_append, List.prefix_append_right_inj] at hbytes
  cases rest with
  | nil => exact absurd (List.prefix_nil.mp hbytes) hc
  | cons g G => exact ⟨g, G, rfl, hbytes⟩

end Frames

section NextFrame

variable {started accepted : List Bytes} {c : Bytes}

/-- The bytes read of the next frame tell its size. -/
theorem ntohl_next (hsized : ∀ b ∈ started, Sized b) (hacc : accepted <+: frames started)
    (hc : 4 ≤ c.length) (hbytes : accepted.flatten ++ c <+: (frames started).flatten) :
    ∃ g G, frames started = accepted ++ g :: G ∧ c <+: g ++ G.flatten ∧ ntohl c = g.length ∧
      rpcHeaderSz ≤ g.length ∧ g.length ≤ maxPdu := by
  have hne : c ≠ [] := by
    rintro rfl
    exact absurd hc (by decide)
  obtain ⟨g, G, hF, hpre⟩ := exists_next_frame hacc hne hbytes
  have hmem : g ∈ frames started := hF ▸ List.mem_append_right _ List.mem_cons_self
  obtain ⟨b, hb, rfl⟩ := List.mem_map.mp hmem
  have hlen := length_framed (hsized b hb)
  obtain ⟨hlow, hhigh⟩ := hsized b hb
  refine ⟨framed b, G, hF, hpre, ?_, hlen ▸ hlow, hlen ▸ hhigh⟩
  obtain ⟨rest, hrest⟩ := hpre
  calc ntohl c = ntohl (c ++ rest) := (ntohl_append hc rest).symm
    _ = ntohl (htonl b.length ++ (b.drop sizeofSz ++ G.flatten)) := by
        rw [hrest, framed, List.append_assoc]
    _ = b.length := ntohl_htonl hhigh _
    _ = (framed b).length := by rw [hlen]

/-- When as many bytes were read as the first ones tell, they are the next frame. -/
theorem eq_next_frame (hsized : ∀ b ∈ started, Sized b) (hacc : accepted <+: frames started)
    (hc : 4 ≤ c.length) (hbytes : accepted.flatten ++ c <+: (frames started).flatten)
    (hfull : ntohl c = c.length) : accepted ++ [c] <+: frames started := by
  obtain ⟨g, G, hF, hpre, hsz, -, -⟩ := ntohl_next hsized hacc hc hbytes
  have hlen : c.length = g.length := by omega
  have hcg : c = g := by
    obtain ⟨rest, hrest⟩ := hpre
    exact (List.append_inj hrest hlen).1
  exact ⟨G, by rw [hF, hcg, List.append_assoc, List.singleton_append]⟩

end NextFrame

/-! ## The sender -/

/-- A thread whose PDU is in the buffer. -/
def SendPc.Owns : SendPc → Prop
  | .sendComplete | .removing => True
  | _ => False

/-- What the buffer of a sender holds: the PDU started last, of which `solong` bytes were written.
-/
structure Writing (s : Sender) (c : Bytes) (before : List Bytes) (b : Bytes) : Prop where
  /-- The PDU was started last. -/
  started : s.started = before ++ [b]
  /-- The buffer is the PDU, perhaps with its size slot filled in. -/
  content : framed c = framed b
  /-- The size. -/
  length : c.length = b.length
  /-- After a failed write the connection is dead. -/
  failed : s.wpdu.solong < 0 → s.dead = true
  /-- The size that is to be written. -/
  sz : 0 ≤ s.wpdu.solong → s.wpdu.sz = b.length
  /-- No more is written. -/
  le : 0 ≤ s.wpdu.solong → s.wpdu.solong ≤ b.length
  /-- The size slot is filled in with the first byte. -/
  filled : 0 < s.wpdu.solong → c = framed b
  /-- What was written. -/
  wire : 0 ≤ s.wpdu.solong →
    s.wire = (frames before).flatten ++ (framed b).take s.wpdu.solong.toNat

/-- The invariant of a sender. -/
structure SenderInv (s : Sender) : Prop where
  /-- The PDUs started are in range. -/
  sized : ∀ b ∈ s.started, Sized b
  /-- The PDUs to be sent are. -/
  waiting : ∀ t b, s.pc t = .sendWait b → Sized b
  /-- The bytes written are the first ones of the frames. -/
  wire_le : s.wire <+: (frames s.started).flatten
  /-- A buffer without a PDU is not in use. -/
  free : s.wpdu.buf = none → s.wpdu = .null
  /-- When no PDU is being written, all frames were written. -/
  complete : s.wpdu.buf = none → s.dead = false → s.wire = (frames s.started).flatten
  /-- The PDU that is being written is the last one. -/
  writing : ∀ c, s.wpdu.buf = some c → ∃ before b, Writing s c before b
  /-- A thread whose PDU is being written owns the buffer. -/
  owned : ∀ t, (s.pc t).Owns → s.wpdu.buf.isSome
  /-- The buffer has one owner. -/
  unique : ∀ t t', (s.pc t).Owns → (s.pc t').Owns → t = t'
  /-- The file descriptor is removed when the connection is dead. -/
  removing : ∀ t, s.pc t = .removing → s.dead = true

/-- The frames with a further PDU. -/
theorem flatten_frames_append (before : List Bytes) (b : Bytes) :
    (frames (before ++ [b])).flatten = (frames before).flatten ++ framed b := by
  unfold frames
  rw [List.map_append, List.flatten_append, List.map_singleton, List.flatten_singleton]

section Sender

variable {s : Sender} {t : Thread} {b c : Bytes} {before : List Bytes}

/-- A part of the last frame was written. -/
theorem Writing.wire_le (h : Writing s c before b) (hpos : 0 ≤ s.wpdu.solong) :
    s.wire <+: (frames s.started).flatten := by
  rw [h.wire hpos, h.started, flatten_frames_append, List.prefix_append_right_inj]
  exact List.take_prefix _ _

/-- When as much was written as there is, the frame is complete. -/
theorem Writing.complete (h : Writing s c before b) (hsized : Sized b) (hpos : 0 ≤ s.wpdu.solong)
    (hall : s.wpdu.solong = s.wpdu.sz) : s.wire = (frames s.started).flatten := by
  have hlen : s.wpdu.solong.toNat = (framed b).length := by
    have hsz := h.sz hpos
    rw [length_framed hsized]
    omega
  rw [h.wire hpos, h.started, flatten_frames_append, hlen, List.take_length]

/-- What is written depends on the buffer, the PDUs started and the wire. -/
theorem Writing.frame (h : Writing s c before b) {s' : Sender} (hwpdu : s'.wpdu = s.wpdu)
    (hstarted : s'.started = s.started) (hwire : s'.wire = s.wire)
    (hdead : s.dead = true → s'.dead = true) : Writing s' c before b where
  started := hstarted.trans h.started
  content := h.content
  length := h.length
  failed := fun hneg => hdead (h.failed (hwpdu ▸ hneg))
  sz := hwpdu ▸ h.sz
  le := hwpdu ▸ h.le
  filled := hwpdu ▸ h.filled
  wire := by
    rw [hwpdu, hwire]
    exact h.wire

/-- A thread that goes somewhere is there, and the others are where they were. -/
theorem goto_cases (s : Sender) (t : Thread) (pc : SendPc) (t' : Thread) :
    t' = t ∧ (s.goto t pc).pc t' = pc ∨ t' ≠ t ∧ (s.goto t pc).pc t' = s.pc t' := by
  by_cases heq : t' = t
  · subst heq
    exact Or.inl ⟨rfl, Function.update_self ..⟩
  · exact Or.inr ⟨heq, Function.update_of_ne heq ..⟩

/-- What `writepdu` does with the PDU in the buffer. -/
theorem Writing.writepdu (h : Writing s c before b) (hbuf : s.wpdu.buf = some c) (hsized : Sized b)
    {result : WriteResult} {succ : Bool} {wpdu : CharBuf} {bytes : Bytes}
    (hres : writepdu s.wpdu result = some (succ, wpdu, bytes)) :
    ∃ c', wpdu.buf = some c' ∧
      Writing { s with wpdu := wpdu, wire := s.wire ++ bytes, dead := s.dead || !succ } c'
        before b ∧
      (succ = true → 0 ≤ wpdu.solong) ∧ (succ = false → bytes = []) := by
  have hpos : 0 ≤ s.wpdu.solong := by
    by_contra hneg
    rw [Rpc.writepdu, if_pos (not_le.mp hneg)] at hres
    cases hres
  rw [Rpc.writepdu, if_neg (not_lt.mpr hpos)] at hres
  by_cases hall : s.wpdu.solong = s.wpdu.sz
  · -- There is nothing left to write.
    rw [if_pos hall] at hres
    obtain ⟨rfl, rfl, rfl⟩ := hres
    refine ⟨c, hbuf, ?_, fun _ => hpos, fun h => absurd h (by decide)⟩
    rw [List.append_nil, Bool.not_true, Bool.or_false]
    exact h
  · have hsz := h.sz hpos
    -- The size slot is filled in at the start, and stays so.
    have hfill : (if s.wpdu.solong = 0 then htonl s.wpdu.sz ++ c.drop sizeofSz else c) =
        framed b := by
      split_ifs with hzero
      · rw [hsz, ← h.length]
        exact h.content
      · exact h.filled (by omega)
    rw [if_neg hall, hbuf, Option.bind_some, hfill] at hres
    dsimp only at hres
    have hframed : framed (framed b) = framed b := framed_framed hsized
    have hlen : (framed b).length = b.length := length_framed hsized
    cases result with
    | wrote n =>
      dsimp only at hres
      split_ifs at hres with hn
      obtain ⟨rfl, rfl, rfl⟩ := hres
      have hnext : (s.wpdu.solong + n).toNat = s.wpdu.solong.toNat + n := by omega
      refine ⟨framed b, rfl, ⟨h.started, hframed, hlen, ?_, ?_, ?_, ?_, ?_⟩, ?_, ?_⟩
      · intro hlt
        exact absurd hlt (by simp only; omega)
      · exact fun _ => hsz
      · intro _
        simp only
        omega
      · exact fun _ => rfl
      · intro _
        simp only
        rw [h.wire hpos, List.append_assoc, hnext, List.take_add]
      · intro _
        simp only
        omega
      · exact fun h => absurd h (by decide)
    | again =>
      obtain ⟨rfl, rfl, rfl⟩ := hres
      refine ⟨framed b, rfl, ⟨h.started, hframed, hlen, ?_, h.sz, h.le, fun _ => rfl, ?_⟩, ?_, ?_⟩
      · exact fun hlt => absurd hlt (not_lt.mpr hpos)
      · intro hpos
        simp only [List.append_nil]
        exact h.wire hpos
      · exact fun _ => hpos
      · exact fun h => absurd h (by decide)
    | error =>
      obtain ⟨rfl, rfl, rfl⟩ := hres
      have hminus : ¬ (0 : ℤ) ≤ -1 := by decide
      refine ⟨framed b, rfl, ⟨h.started, hframed, hlen, ?_, ?_, ?_, ?_, ?_⟩, ?_, ?_⟩
      · exact fun _ => Bool.or_true _
      · exact fun hpos => absurd hpos hminus
      · exact fun hpos => absurd hpos hminus
      · exact fun _ => rfl
      · exact fun hpos => absurd hpos hminus
      · exact fun h => absurd h (by decide)
      · exact fun _ => rfl

namespace SenderInv

/-- A new connection. -/
theorem fresh : SenderInv .fresh where
  sized := fun _ hb => absurd hb List.not_mem_nil
  waiting := fun _ _ hpc => SendPc.noConfusion hpc
  wire_le := List.prefix_rfl
  free := fun _ => rfl
  complete := fun _ _ => rfl
  writing := fun _ hc => nomatch hc
  owned := fun _ howns => howns.elim
  unique := fun _ _ howns => howns.elim
  removing := fun _ hpc => SendPc.noConfusion hpc

/-- A thread goes somewhere. If it owns the buffer there, no other thread does. -/
theorem goto (h : SenderInv s) {pc : SendPc} (hwait : ∀ b, pc = .sendWait b → Sized b)
    (howns : pc.Owns → s.wpdu.buf.isSome ∧ ∀ t', ¬ (s.pc t').Owns)
    (hdead : pc = .removing → s.dead = true) : SenderInv (s.goto t pc) where
  sized := h.sized
  waiting := fun t' b hb => by
    obtain ⟨-, hpc⟩ | ⟨-, hpc⟩ := goto_cases s t pc t'
    · exact hwait b (hpc.symm.trans hb)
    · exact h.waiting t' b (hpc.symm.trans hb)
  wire_le := h.wire_le
  free := h.free
  complete := h.complete
  writing := fun c hc => by
    obtain ⟨before, b, hw⟩ := h.writing c hc
    exact ⟨before, b, hw.frame rfl rfl rfl id⟩
  owned := fun t' ht' => by
    obtain ⟨-, hpc⟩ | ⟨-, hpc⟩ := goto_cases s t pc t'
    · exact (howns (hpc ▸ ht')).1
    · exact h.owned t' (hpc ▸ ht')
  unique := fun t₁ t₂ h₁ h₂ => by
    obtain ⟨heq₁, hpc₁⟩ | ⟨-, hpc₁⟩ := goto_cases s t pc t₁
    · obtain ⟨heq₂, -⟩ | ⟨-, hpc₂⟩ := goto_cases s t pc t₂
      · exact heq₁.trans heq₂.symm
      · exact absurd (hpc₂ ▸ h₂) ((howns (hpc₁ ▸ h₁)).2 t₂)
    · obtain ⟨-, hpc₂⟩ | ⟨-, hpc₂⟩ := goto_cases s t pc t₂
      · exact absurd (hpc₁ ▸ h₁) ((howns (hpc₂ ▸ h₂)).2 t₁)
      · exact h.unique t₁ t₂ (hpc₁ ▸ h₁) (hpc₂ ▸ h₂)
  removing := fun t' ht' => by
    obtain ⟨-, hpc⟩ | ⟨-, hpc⟩ := goto_cases s t pc t'
    · exact hdead (hpc.symm.trans ht')
    · exact h.removing t' (hpc.symm.trans ht')

/-- A thread goes to a place where it does not own the buffer. -/
theorem leave (h : SenderInv s) {pc : SendPc} (hwait : ∀ b, pc = .sendWait b → Sized b)
    (hnot : ¬ pc.Owns) : SenderInv (s.goto t pc) :=
  h.goto hwait (fun howns => absurd howns hnot) fun hpc => absurd (hpc ▸ trivial) hnot

/-- The connection dies. -/
theorem die (h : SenderInv s) : SenderInv { s with dead := true } where
  sized := h.sized
  waiting := h.waiting
  wire_le := h.wire_le
  free := h.free
  complete := fun _ hdead => Bool.noConfusion hdead
  writing := fun c hc => by
    obtain ⟨before, b, hw⟩ := h.writing c hc
    exact ⟨before, b, hw.frame rfl rfl rfl fun _ => rfl⟩
  owned := h.owned
  unique := h.unique
  removing := fun _ _ => rfl

/-- The owner gives up the buffer. If the connection is not dead, its frame was written. -/
theorem finish (h : SenderInv s) (hothers : ∀ t', t' ≠ t → ¬ (s.pc t').Owns)
    (hdone : s.dead = false → 0 ≤ s.wpdu.solong → s.wpdu.solong = s.wpdu.sz) :
    SenderInv (s.finish t) := by
  have hleft : SenderInv (s.goto t (.returned (!s.dead && s.wpdu.solong == s.wpdu.sz))) :=
    h.leave (fun b hb => SendPc.noConfusion hb) fun howns => howns
  have hnone : ∀ t', ¬ ((s.finish t).pc t').Owns := by
    intro t' ht'
    obtain ⟨-, hpc⟩ | ⟨hne, hpc⟩ :=
      goto_cases s t (.returned (!s.dead && s.wpdu.solong == s.wpdu.sz)) t'
    · exact (hpc ▸ ht' : SendPc.Owns (.returned _))
    · exact hothers t' hne (hpc ▸ ht')
  refine ⟨h.sized, hleft.waiting, h.wire_le, fun _ => rfl, fun _ hdead => ?_,
    (fun _ hc => nomatch hc), fun t' ht' => absurd ht' (hnone t'),
    fun t' _ ht' => absurd ht' (hnone t'), hleft.removing⟩
  -- Nothing was in the buffer, or a PDU that was written to its end.
  show s.wire = (frames s.started).flatten
  cases hbuf : s.wpdu.buf with
  | none => exact h.complete hbuf hdead
  | some c =>
    obtain ⟨before, b, hw⟩ := h.writing c hbuf
    have hpos : 0 ≤ s.wpdu.solong := by
      by_contra hneg
      exact Bool.noConfusion ((hw.failed (not_le.mp hneg)).symm.trans hdead)
    have hmem : b ∈ s.started := by
      rw [hw.started]
      exact List.mem_append_right _ List.mem_cons_self
    exact hw.complete (h.sized b hmem) hpos (hdone hdead hpos)

/-- A PDU is put into the buffer. -/
theorem start (h : SenderInv s) (hdead : s.dead = false) (hbuf : s.wpdu.buf = none)
    (hb : Sized b) : SenderInv (s.start b) where
  sized := fun b' hb' => by
    rcases List.mem_append.mp hb' with hold | hnew
    · exact h.sized b' hold
    · rw [List.mem_singleton.mp hnew]
      exact hb
  waiting := h.waiting
  wire_le := by
    show s.wire <+: (frames (s.started ++ [b])).flatten
    rw [flatten_frames_append, h.complete hbuf hdead]
    exact List.prefix_append _ _
  free := fun hnone => nomatch hnone
  complete := fun hnone => nomatch hnone
  writing := fun c hc => by
    obtain rfl := Option.some.inj hc
    refine ⟨s.started, b, rfl, rfl, rfl, ?_, fun _ => rfl, ?_, ?_, fun _ => ?_⟩
    · exact fun hneg => absurd hneg (lt_irrefl 0)
    · exact fun _ => Int.natCast_nonneg _
    · exact fun hpos => absurd hpos (lt_irrefl 0)
    · show s.wire = (frames s.started).flatten ++ (framed b).take 0
      rw [h.complete hbuf hdead, List.take_zero, List.append_nil]
  owned := fun _ _ => rfl
  unique := h.unique
  removing := h.removing

/-- Bytes of the PDU in the buffer are written. -/
theorem written (h : SenderInv s) (hbuf : s.wpdu.buf = some c) {result : WriteResult}
    {succ : Bool} {wpdu : CharBuf} {bytes : Bytes}
    (hres : Rpc.writepdu s.wpdu result = some (succ, wpdu, bytes)) :
    SenderInv { s with wpdu := wpdu, wire := s.wire ++ bytes, dead := s.dead || !succ } ∧
      wpdu.buf.isSome := by
  obtain ⟨before, b, hw⟩ := h.writing c hbuf
  have hmem : b ∈ s.started := by
    rw [hw.started]
    exact List.mem_append_right _ List.mem_cons_self
  obtain ⟨c', hc', hw', hsucc, hfail⟩ := hw.writepdu hbuf (h.sized b hmem) hres
  have hsome : wpdu.buf.isSome := by
    rw [hc']
    rfl
  have hnot : ¬ wpdu.buf = none := by
    rw [hc']
    exact Option.some_ne_none c'
  refine ⟨⟨h.sized, h.waiting, ?_, fun hnone => absurd hnone hnot, fun hnone => absurd hnone hnot,
    fun c'' hc'' => ?_, fun _ _ => hsome, h.unique, fun t ht => ?_⟩, hsome⟩
  · cases succ with
    | true => exact hw'.wire_le (hsucc rfl)
    | false =>
      show s.wire ++ bytes <+: _
      rw [hfail rfl, List.append_nil]
      exact h.wire_le
  · obtain rfl := Option.some.inj (hc'.symm.trans hc'')
    exact ⟨before, b, hw'⟩
  · show (s.dead || !succ) = true
    rw [h.removing t ht]
    rfl

/-- `send` from the loop on `send_wait_`. -/
theorem trySend (h : SenderInv s) (hb : Sized b) {result : WriteResult} {s' : Sender}
    (hs' : s.trySend t b result = some s') : SenderInv s' := by
  unfold Sender.trySend at hs'
  by_cases hdead : s.dead = true
  · rw [if_pos hdead] at hs'
    obtain rfl := Option.some.inj hs'
    exact h.leave (fun b hb => SendPc.noConfusion hb) fun howns => howns
  by_cases hbusy : s.wpdu.buf.isSome = true
  · rw [if_neg hdead, if_pos hbusy] at hs'
    obtain rfl := Option.some.inj hs'
    refine h.leave (fun b' hb' => ?_) fun howns => howns
    obtain rfl := SendPc.sendWait.inj hb'
    exact hb
  rw [if_neg hdead, if_neg hbusy] at hs'
  obtain ⟨⟨succ, wpdu, bytes⟩, hres, hs'⟩ := Option.map_eq_some_iff.mp hs'
  have halive : s.dead = false := Bool.not_eq_true _ ▸ hdead
  have hfree : s.wpdu.buf = none := Option.not_isSome_iff_eq_none.mp hbusy
  -- No thread owns the buffer before.
  have hnone : ∀ t', ¬ (s.pc t').Owns := fun t' ht' => hbusy (h.owned t' ht')
  obtain ⟨hinv, hsome⟩ := (h.start halive hfree hb).written (c := b) rfl hres
  dsimp only at hs'
  cases succ with
  | false =>
    rw [if_pos (by rfl)] at hs'
    rw [← hs']
    have hdies : ((s.start b).dead || !false) = true := Bool.or_true _
    rw [hdies] at hinv
    exact hinv.goto (fun b hb => SendPc.noConfusion hb) (fun _ => ⟨hsome, hnone⟩) fun _ => rfl
  | true =>
    have hstays : ((s.start b).dead || !true) = (s.start b).dead := Bool.or_false _
    rw [hstays] at hinv
    rw [if_neg (by decide)] at hs'
    split_ifs at hs' with hall
    · rw [← hs']
      exact hinv.finish (fun t' _ => hnone t') fun _ _ => hall
    · rw [← hs']
      exact hinv.goto (fun b hb => SendPc.noConfusion hb) (fun _ => ⟨hsome, hnone⟩)
        fun hpc => SendPc.noConfusion hpc

/-- A thread wakes up in the loop on `send_complete_`. -/
theorem wakeComplete (h : SenderInv s) (hpc : s.pc t = .sendComplete) :
    SenderInv (s.wakeComplete t) := by
  have howns : (s.pc t).Owns := by
    rw [hpc]
    exact trivial
  unfold Sender.wakeComplete
  split_ifs with hloop
  · exact h
  · refine h.finish (fun t' hne ht' => hne (h.unique t' t ht' howns)) fun hdead hpos => ?_
    -- The loop ended although the connection is alive: everything was written.
    have hnotlt : ¬ s.wpdu.solong < s.wpdu.sz := by
      intro hlt
      refine hloop ?_
      rw [hdead]
      simp only [Bool.not_false, Bool.true_and, Bool.and_eq_true, decide_eq_true_eq]
      exact ⟨hpos, hlt⟩
    obtain ⟨c, hc⟩ := Option.isSome_iff_exists.mp (h.owned t howns)
    obtain ⟨before, b, hw⟩ := h.writing c hc
    have hle := hw.le hpos
    have hsz := hw.sz hpos
    omega

/-- A thread has removed the file descriptor. -/
theorem removed (h : SenderInv s) (hpc : s.pc t = .removing) : SenderInv (s.finish t) := by
  have howns : (s.pc t).Owns := by
    rw [hpc]
    exact trivial
  refine h.finish (fun t' hne ht' => hne (h.unique t' t ht' howns)) fun hdead _ => ?_
  exact Bool.noConfusion ((h.removing t hpc).symm.trans hdead)

/-- `write_cb`. -/
theorem writeCb (h : SenderInv s) {result : WriteResult} {s' : Sender}
    (hs' : s.writeCb result = some s') : SenderInv s' := by
  unfold Sender.writeCb at hs'
  split_ifs at hs' with hdead hzero
  · obtain rfl := Option.some.inj hs'
    exact h
  · obtain ⟨⟨succ, wpdu, bytes⟩, hres, hs'⟩ := Option.bind_eq_some_iff.mp hs'
    cases hbuf : s.wpdu.buf with
    | none =>
      rw [h.free hbuf] at hzero
      exact absurd rfl hzero
    | some c =>
      obtain ⟨hinv, -⟩ := h.written hbuf hres
      dsimp only at hs'
      cases succ with
      | false =>
        rw [if_pos (by rfl)] at hs'
        obtain rfl := Option.some.inj hs'
        have hdies : (s.dead || !false) = true := Bool.or_true _
        rw [hdies] at hinv
        exact hinv
      | true =>
        rw [if_neg (by decide)] at hs'
        split_ifs at hs' with hneg
        obtain rfl := Option.some.inj hs'
        have hstays : (s.dead || !true) = s.dead := Bool.or_false _
        rw [hstays] at hinv
        exact hinv

end SenderInv

end Sender

/-! ## The receiver -/

/-- The invariant of a receiver, with the bytes on the wire and the PDUs started. -/
structure ReceiverInv (r : Receiver) (wire : Bytes) (started : List Bytes) : Prop where
  /-- Bytes that were read were written. -/
  consumed_le : r.consumed ≤ wire.length
  /-- The PDUs accepted are the first frames. -/
  accepted : r.accepted <+: frames started
  /-- A buffer without a PDU is not in use. -/
  free : r.dead = false → r.rpdu.buf = none → r.rpdu = .null
  /-- The bytes read are the PDUs accepted and what is in the buffer. -/
  read : r.dead = false → wire.take r.consumed = r.accepted.flatten ++ r.rpdu.buf.getD []
  /-- The number of bytes in the buffer. -/
  solong : r.dead = false → ∀ c, r.rpdu.buf = some c → r.rpdu.solong = c.length
  /-- The size was read. -/
  sz : r.dead = false → ∀ c, r.rpdu.buf = some c → 4 ≤ c.length ∧ r.rpdu.sz = ntohl c
  /-- There are no more bytes than the size. -/
  le : r.dead = false → ∀ c, r.rpdu.buf = some c → (c.length : ℤ) ≤ ntohl c

/-- What a failed `readpdu` leaves: nothing to offer. -/
structure Failed (r : Receiver) (wire : Bytes) (started : List Bytes) : Prop where
  /-- No PDU is in the buffer. -/
  buf : r.rpdu.buf = none
  /-- The PDUs accepted are the first frames. -/
  accepted : r.accepted <+: frames started
  /-- Bytes that were read were written. -/
  consumed_le : r.consumed ≤ wire.length

section Receiver

variable {r r' : Receiver} {wire wire' bytes c : Bytes} {started started' : List Bytes}
  {asked : ℤ} {n : ℕ} {result first second : ReadResult} {succ accepts : Bool}

/-- What a read takes from the wire. -/
theorem take_spec (h : r.take wire asked n = some (bytes, r')) :
    0 < n ∧ n ≤ asked ∧ r.consumed + n ≤ wire.length ∧ bytes.length = n ∧
      r' = { r with consumed := r.consumed + n } ∧
      wire.take (r.consumed + n) = wire.take r.consumed ++ bytes := by
  unfold Receiver.take at h
  split_ifs at h with hn
  obtain ⟨rfl, rfl⟩ := Prod.mk.inj (Option.some.inj h)
  refine ⟨hn.1, hn.2.1, hn.2.2, ?_, rfl, List.take_add⟩
  rw [List.length_take, List.length_drop]
  omega

namespace ReceiverInv

/-- A new connection. -/
theorem fresh : ReceiverInv .fresh [] [] where
  consumed_le := Nat.le_refl 0
  accepted := List.prefix_rfl
  free := fun _ _ => rfl
  read := fun _ => rfl
  solong := fun _ _ hc => nomatch hc
  sz := fun _ _ hc => nomatch hc
  le := fun _ _ hc => nomatch hc

/-- More bytes are written, and more PDUs started. -/
theorem extend (h : ReceiverInv r wire started) (hwire : wire <+: wire')
    (hstarted : started <+: started') : ReceiverInv r wire' started' where
  consumed_le := h.consumed_le.trans hwire.length_le
  accepted := h.accepted.trans (hstarted.map framed)
  free := h.free
  read := fun halive => by
    obtain ⟨rest, rfl⟩ := hwire
    rw [List.take_append_of_le_length h.consumed_le]
    exact h.read halive
  solong := h.solong
  sz := h.sz
  le := h.le

/-- A dead connection reads nothing more. -/
theorem of_dead (hdead : r.dead = true) (hconsumed : r.consumed ≤ wire.length)
    (haccepted : r.accepted <+: frames started) : ReceiverInv r wire started := by
  have hnot : ¬ r.dead = false := by
    rw [hdead]
    decide
  exact ⟨hconsumed, haccepted, fun halive => absurd halive hnot, fun halive => absurd halive hnot,
    fun halive => absurd halive hnot, fun halive => absurd halive hnot,
    fun halive => absurd halive hnot⟩

/-- What is in the buffer continues the frames that were accepted. -/
theorem bytes_le (h : ReceiverInv r wire started) (hwire : wire <+: (frames started).flatten)
    (halive : r.dead = false) (hc : r.rpdu.buf = some c) :
    r.accepted.flatten ++ c <+: (frames started).flatten := by
  have hread := h.read halive
  rw [hc, Option.getD_some] at hread
  rw [← hread]
  exact (List.take_prefix _ _).trans hwire

/-- The size of the next frame is read into a new buffer. -/
theorem readSize (h : ReceiverInv r wire started) (hwire : wire <+: (frames started).flatten)
    (hsized : ∀ b ∈ started, Sized b) (halive : r.dead = false) (hbuf : r.rpdu.buf = none)
    (hres : r.readSize wire result = some (succ, r')) :
    (succ = true → ReceiverInv r' wire started ∧ r'.dead = false ∧ r'.rpdu.buf.isSome) ∧
      (succ = false → Failed r' wire started) := by
  have hsame : Failed r wire started := ⟨hbuf, h.accepted, h.consumed_le⟩
  cases result with
  | eof again =>
    obtain ⟨rfl, rfl⟩ := Prod.mk.inj (Option.some.inj hres)
    exact ⟨fun hsucc => Bool.noConfusion hsucc, fun _ => hsame⟩
  | error again =>
    unfold Receiver.readSize at hres
    dsimp only at hres
    split_ifs at hres
    obtain ⟨rfl, rfl⟩ := Prod.mk.inj (Option.some.inj hres)
    exact ⟨fun hsucc => Bool.noConfusion hsucc, fun _ => hsame⟩
  | got n =>
    obtain ⟨⟨sz1, r₁⟩, htake, hres⟩ := Option.bind_eq_some_iff.mp hres
    obtain ⟨-, -, hle, hlen, rfl, hread⟩ := take_spec htake
    have hfailed : Failed { r with consumed := r.consumed + n } wire started :=
      ⟨hbuf, h.accepted, hle⟩
    dsimp only at hres
    split_ifs at hres with hn hbig hsome
    · obtain ⟨rfl, rfl⟩ := Prod.mk.inj (Option.some.inj hres)
      exact ⟨fun hsucc => Bool.noConfusion hsucc, fun _ => hfailed⟩
    · obtain ⟨rfl, rfl⟩ := Prod.mk.inj (Option.some.inj hres)
      exact ⟨fun hsucc => Bool.noConfusion hsucc, fun _ => hfailed⟩
    · obtain ⟨rfl, rfl⟩ := Prod.mk.inj (Option.some.inj hres)
      refine ⟨fun _ => ?_, fun hfalse => Bool.noConfusion hfalse⟩
      have hfour : sz1.length = 4 := hlen.trans (not_not.mp hn)
      have hnew : wire.take (r.consumed + n) = r.accepted.flatten ++ sz1 := by
        have hold := h.read halive
        rw [hbuf, Option.getD_none, List.append_nil] at hold
        rw [hread, hold]
      have hbytes : r.accepted.flatten ++ sz1 <+: (frames started).flatten := by
        rw [← hnew]
        exact (List.take_prefix _ _).trans hwire
      obtain ⟨g, G, -, -, hg, hlow, -⟩ := ntohl_next hsized h.accepted hfour.ge hbytes
      have hlow' : 24 ≤ g.length := hlow
      refine ⟨⟨hle, h.accepted, fun _ hnone => (nomatch hnone), fun _ => hnew, ?_, ?_, ?_⟩,
        halive, rfl⟩
      · intro _ c hc
        obtain rfl := Option.some.inj hc
        show (4 : ℤ) = sz1.length
        omega
      · intro _ c hc
        obtain rfl := Option.some.inj hc
        exact ⟨hfour.ge, rfl⟩
      · intro _ c hc
        obtain rfl := Option.some.inj hc
        omega

/-- More of the next frame is read. -/
theorem readBody (h : ReceiverInv r wire started) (halive : r.dead = false)
    (hbuf : r.rpdu.buf.isSome) (hres : r.readBody wire result = some (succ, r')) :
    (succ = true → ReceiverInv r' wire started ∧ r'.dead = false) ∧
      (succ = false → Failed r' wire started) := by
  have hstop : ∀ again : Bool, (if again then some (true, r)
      else some (false, { r with rpdu := CharBuf.null })) = some (succ, r') →
      (succ = true → ReceiverInv r' wire started ∧ r'.dead = false) ∧
        (succ = false → Failed r' wire started) := by
    intro again hres
    cases again with
    | true =>
      obtain ⟨rfl, rfl⟩ := Prod.mk.inj (Option.some.inj hres)
      exact ⟨fun _ => ⟨h, halive⟩, fun hfalse => Bool.noConfusion hfalse⟩
    | false =>
      obtain ⟨rfl, rfl⟩ := Prod.mk.inj (Option.some.inj hres)
      exact ⟨fun hsucc => Bool.noConfusion hsucc, fun _ => ⟨rfl, h.accepted, h.consumed_le⟩⟩
  cases result with
  | eof again => exact hstop again hres
  | error again => exact hstop again hres
  | got n =>
    obtain ⟨c, hc⟩ := Option.isSome_iff_exists.mp hbuf
    unfold Receiver.readBody at hres
    rw [hc] at hres
    obtain ⟨⟨bytes, r₁⟩, htake, hres⟩ := Option.map_eq_some_iff.mp hres
    obtain ⟨-, hasked, hle, hlen, rfl, hread⟩ := take_spec htake
    obtain ⟨rfl, rfl⟩ := Prod.mk.inj hres
    refine ⟨fun _ => ⟨⟨hle, h.accepted, fun _ hnone => (nomatch hnone), fun _ => ?_, ?_, ?_, ?_⟩,
      halive⟩, fun hfalse => Bool.noConfusion hfalse⟩
    · have hold := h.read halive
      rw [hc, Option.getD_some] at hold
      show wire.take (r.consumed + n) = r.accepted.flatten ++ (c ++ bytes)
      rw [hread, hold, List.append_assoc]
    · intro _ c' hc'
      obtain rfl := Option.some.inj hc'
      have hsolong := h.solong halive c hc
      rw [List.length_append]
      show r.rpdu.solong + n = _
      omega
    · intro _ c' hc'
      obtain rfl := Option.some.inj hc'
      obtain ⟨hfour, hsz⟩ := h.sz halive c hc
      refine ⟨?_, ?_⟩
      · rw [List.length_append]
        omega
      · rw [ntohl_append hfour]
        exact hsz
    · intro _ c' hc'
      obtain rfl := Option.some.inj hc'
      obtain ⟨hfour, hsz⟩ := h.sz halive c hc
      have hsolong := h.solong halive c hc
      rw [ntohl_append hfour, List.length_append]
      omega

/-- `readpdu`. -/
theorem readpdu (h : ReceiverInv r wire started) (hwire : wire <+: (frames started).flatten)
    (hsized : ∀ b ∈ started, Sized b) (halive : r.dead = false)
    (hres : r.readpdu wire first second = some (succ, r')) :
    (succ = true → ReceiverInv r' wire started ∧ r'.dead = false) ∧
      (succ = false → Failed r' wire started) := by
  unfold Receiver.readpdu at hres
  cases hbuf : r.rpdu.buf with
  | none =>
    have hzero : r.rpdu.sz = 0 := by
      rw [h.free halive hbuf]
      rfl
    rw [if_pos hzero] at hres
    obtain ⟨⟨succ₁, r₁⟩, hfirst, hres⟩ := Option.bind_eq_some_iff.mp hres
    obtain ⟨hyes, hno⟩ := h.readSize hwire hsized halive hbuf hfirst
    cases succ₁ with
    | false =>
      obtain ⟨rfl, rfl⟩ := Prod.mk.inj (Option.some.inj hres)
      exact ⟨fun hsucc => Bool.noConfusion hsucc, fun _ => hno rfl⟩
    | true =>
      obtain ⟨hinv, halive₁, hsome⟩ := hyes rfl
      exact hinv.readBody halive₁ hsome hres
  | some c =>
    obtain ⟨hfour, hsz⟩ := h.sz halive c hbuf
    have hle := h.le halive c hbuf
    rw [if_neg (by omega)] at hres
    refine h.readBody halive ?_ hres
    rw [hbuf]
    rfl

/-- A complete PDU is offered: it is the next frame. -/
theorem offer (h : ReceiverInv r wire started) (hwire : wire <+: (frames started).flatten)
    (hsized : ∀ b ∈ started, Sized b) (halive : r.dead = false) :
    ReceiverInv (r.offer accepts) wire started := by
  unfold Receiver.offer
  cases hbuf : r.rpdu.buf with
  | none => exact h
  | some c =>
    dsimp only
    split_ifs with hfull
    · obtain ⟨hfour, hsz⟩ := h.sz halive c hbuf
      have hsolong := h.solong halive c hbuf
      have hnext : r.accepted ++ [c] <+: frames started :=
        eq_next_frame hsized h.accepted hfour (h.bytes_le hwire halive hbuf) (by omega)
      refine ⟨h.consumed_le, hnext, fun _ _ => rfl, fun _ => ?_, fun _ _ hc => (nomatch hc),
        fun _ _ hc => (nomatch hc), fun _ _ hc => (nomatch hc)⟩
      have hread := h.read halive
      rw [hbuf, Option.getD_some] at hread
      show wire.take r.consumed = (r.accepted ++ [c]).flatten ++ []
      rw [hread, List.flatten_append, List.flatten_singleton, List.append_nil]
    · exact h

/-- `read_cb`. -/
theorem readCb (h : ReceiverInv r wire started) (hwire : wire <+: (frames started).flatten)
    (hsized : ∀ b ∈ started, Sized b) (hres : r.readCb wire first second accepts = some r') :
    ReceiverInv r' wire started := by
  unfold Receiver.readCb at hres
  by_cases hdead : r.dead = true
  · rw [if_pos hdead] at hres
    obtain rfl := Option.some.inj hres
    exact h
  have halive : r.dead = false := Bool.not_eq_true _ ▸ hdead
  rw [if_neg hdead] at hres
  split_ifs at hres with hread
  · obtain ⟨⟨succ, r₁⟩, hpdu, hres⟩ := Option.map_eq_some_iff.mp hres
    obtain ⟨hyes, hno⟩ := h.readpdu hwire hsized halive hpdu
    cases succ with
    | true =>
      obtain ⟨hinv, halive₁⟩ := hyes rfl
      rw [← hres]
      exact hinv.offer hwire hsized halive₁
    | false =>
      have hfailed := hno rfl
      -- Nothing is left to offer.
      have hoffer : Receiver.offer { r₁ with dead := true } accepts = { r₁ with dead := true } := by
        unfold Receiver.offer
        rw [hfailed.buf]
      rw [← hres]
      dsimp only
      rw [if_neg (by decide), hoffer]
      exact of_dead rfl hfailed.consumed_le hfailed.accepted
  · obtain rfl := Option.some.inj hres
    exact h.offer hwire hsized halive

end ReceiverInv

end Receiver

/-! ## The connection -/

/-- The invariant of a connection. -/
structure LinkInv (s : Link) : Prop where
  /-- The sender. -/
  sender : SenderInv s.sender
  /-- The receiver. -/
  receiver : ReceiverInv s.receiver s.sender.wire s.sender.started

/-- What a step of the sender may change of what the receiver sees. -/
structure Extends (s s' : Sender) : Prop where
  /-- Bytes are only added to the wire. -/
  wire : s.wire <+: s'.wire
  /-- PDUs are started after those that were. -/
  started : s.started <+: s'.started

section Link

variable {s s' : Link} {w w' : Sender} {t : Thread} {b : Bytes} {result : WriteResult}

/-- `send` adds to the wire and to the PDUs started. -/
theorem extends_trySend (h : w.trySend t b result = some w') : Extends w w' := by
  unfold Sender.trySend at h
  split_ifs at h
  · obtain rfl := Option.some.inj h
    exact ⟨List.prefix_rfl, List.prefix_rfl⟩
  · obtain rfl := Option.some.inj h
    exact ⟨List.prefix_rfl, List.prefix_rfl⟩
  · obtain ⟨⟨succ, wpdu, bytes⟩, -, h⟩ := Option.map_eq_some_iff.mp h
    dsimp only at h
    split_ifs at h <;> subst h <;> exact ⟨List.prefix_append _ _, List.prefix_append _ _⟩

/-- `write_cb` adds to the wire. -/
theorem extends_writeCb (h : w.writeCb result = some w') : Extends w w' := by
  unfold Sender.writeCb at h
  split_ifs at h
  · obtain rfl := Option.some.inj h
    exact ⟨List.prefix_rfl, List.prefix_rfl⟩
  · obtain ⟨⟨succ, wpdu, bytes⟩, -, h⟩ := Option.bind_eq_some_iff.mp h
    dsimp only at h
    split_ifs at h <;> obtain rfl := Option.some.inj h <;>
      exact ⟨List.prefix_append _ _, List.prefix_rfl⟩

/-- A step of the sender. -/
theorem LinkInv.send (h : LinkInv s) (hinv : SenderInv w) (hext : Extends s.sender w) :
    LinkInv { s with sender := w } :=
  ⟨hinv, h.receiver.extend hext.wire hext.started⟩

/-- Every event keeps the invariant. -/
theorem linkInv_next {e : LinkEvent} (h : LinkInv s) (hG : SizedPdus s e)
    (hs' : s.next e = some s') : LinkInv s' := by
  cases e with
  | send t b result =>
    have htry : (s.sender.trySend t b result).map (fun w => { s with sender := w }) = some s' := by
      unfold Link.next at hs'
      dsimp only at hs'
      split at hs' <;> first | exact hs' | exact nomatch hs'
    obtain ⟨w, hw, rfl⟩ := Option.map_eq_some_iff.mp htry
    exact h.send (h.sender.trySend hG hw) (extends_trySend hw)
  | wakeSend t result =>
    unfold Link.next at hs'
    dsimp only at hs'
    split at hs'
    next b hpc =>
      obtain ⟨w, hw, rfl⟩ := Option.map_eq_some_iff.mp hs'
      exact h.send (h.sender.trySend (h.sender.waiting t b hpc) hw) (extends_trySend hw)
    next => exact nomatch hs'
  | wakeComplete t =>
    unfold Link.next at hs'
    dsimp only at hs'
    split at hs'
    next hpc =>
      obtain rfl := Option.some.inj hs'
      refine h.send (h.sender.wakeComplete hpc) ?_
      unfold Sender.wakeComplete
      split_ifs <;> exact ⟨List.prefix_rfl, List.prefix_rfl⟩
    next => exact nomatch hs'
  | removed t =>
    unfold Link.next at hs'
    dsimp only at hs'
    split at hs'
    next hpc =>
      obtain rfl := Option.some.inj hs'
      exact h.send (h.sender.removed hpc) ⟨List.prefix_rfl, List.prefix_rfl⟩
    next => exact nomatch hs'
  | writeCb result =>
    obtain ⟨w, hw, rfl⟩ := Option.map_eq_some_iff.mp hs'
    exact h.send (h.sender.writeCb hw) (extends_writeCb hw)
  | senderDies =>
    obtain rfl := Option.some.inj hs'
    exact h.send h.sender.die ⟨List.prefix_rfl, List.prefix_rfl⟩
  | readCb first second accepts =>
    obtain ⟨r, hr, rfl⟩ := Option.map_eq_some_iff.mp hs'
    exact ⟨h.sender, h.receiver.readCb h.sender.wire_le h.sender.sized hr⟩
  | receiverDies =>
    obtain rfl := Option.some.inj hs'
    exact ⟨h.sender, .of_dead rfl h.receiver.consumed_le h.receiver.accepted⟩

/-- The invariant holds in every state that a connection reaches. -/
theorem linkInv_of_reachable (h : linkSystem.Reachable SizedPdus s) : LinkInv s := by
  refine h.invariant ?_ fun _ _ _ hinv hG hstep => linkInv_next hinv hG hstep
  intro s₀ hs₀
  have hfresh : s₀ = ⟨.fresh, .fresh⟩ := hs₀
  subst hfresh
  exact ⟨SenderInv.fresh, ReceiverInv.fresh⟩

/-- The PDUs that were accepted are the first ones of those whose transmission was started, with the
size slot filled in. -/
theorem accepted_of_started (h : linkSystem.Reachable SizedPdus s) :
    s.receiver.accepted <+: s.sender.started.map framed :=
  (linkInv_of_reachable h).receiver.accepted

end Link

/-- Two threads send a PDU each. The first PDU is written in two parts and read in two parts, and it
is refused once; the second thread has to wait. -/
def twoSenders : List LinkEvent :=
  [.send 1 (List.replicate 24 7) (.wrote 10), .send 2 (List.replicate 25 8) .again,
   .readCb (.got 4) (.got 5) true, .writeCb .again, .writeCb (.wrote 14), .wakeComplete 1,
   .wakeSend 2 (.wrote 25), .readCb (.got 4) (.error true) true, .readCb (.got 4) (.got 15) false,
   .readCb (.got 4) (.got 4) true, .readCb (.got 4) (.got 21) true]

/-- Both PDUs arrive, in the order in which they were started. -/
theorem two_senders_framed : ∃ s,
    linkSystem.execGuarded SizedPdus ⟨.fresh, .fresh⟩ twoSenders = some s ∧
      s.receiver.accepted.length = 2 ∧ s.receiver.accepted <+: s.sender.started.map framed := by
  have hrun : (linkSystem.execGuarded SizedPdus ⟨.fresh, .fresh⟩ twoSenders).map
      (fun s => s.receiver.accepted.length) = some 2 := by decide
  obtain ⟨s, hexec, hlen⟩ := Option.map_eq_some_iff.mp hrun
  have hreachable := System.Reachable.of_execGuarded hexec rfl
  exact ⟨s, hexec, hlen, accepted_of_started hreachable⟩

end SimpleDfs.Rpc
