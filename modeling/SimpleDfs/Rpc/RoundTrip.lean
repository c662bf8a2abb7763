import SimpleDfs.Rpc.Reading

/-!
# Marshalling and unmarshalling

Values that were marshalled behind a header are unmarshalled as they were, and nothing is left. On
the reading side this is the law of the types. On the writing side it is the capacity of the buffer
that matters: `marshall::rawbyte` and `rawbytes` double the capacity or add to it in `int`s, so that
a message that is below the largest size that an `int` can hold may still need a capacity beyond it.
`Fits` says which writes need none, and `roundTrips_iff` that exactly these come back. One string of
`2147483619` bytes does not (`long_string_fails`), although the message has `2147483647` bytes.
-/

namespace SimpleDfs.Rpc

/-! ## Writing -/

/-- The number of bytes of a write. -/
def Chunk.size (c : Chunk) : ℕ := c.bytes.length

/-- The sizes of the writes for a sequence of values. -/
def sizes (vs : List Val) : List ℕ := (putAll vs).map Chunk.size

/-- The capacity to which the buffer is enlarged for a write of `n` bytes. -/
def enlarged (capa n : ℕ) : ℕ := if capa > n then 2 * capa else capa + n

/-- Writes of these sizes never enlarge the buffer to more than an `int` can hold, if the capacity
is `capa` and the position `ind` before them. -/
def Fits (capa ind : ℕ) : List ℕ → Prop
  | [] => True
  | n :: ns =>
    if ind + n ≤ capa then Fits capa (ind + n) ns
    else enlarged capa n < intLimit ∧ Fits (enlarged capa n) (ind + n) ns

/-- Whether writes fit is decided by their sizes. -/
instance decidableFits : (capa ind : ℕ) → (ns : List ℕ) → Decidable (Fits capa ind ns)
  | _, _, [] => inferInstanceAs (Decidable True)
  | capa, ind, n :: ns =>
    let _ := decidableFits capa (ind + n) ns
    let _ := decidableFits (enlarged capa n) (ind + n) ns
    inferInstanceAs (Decidable (if ind + n ≤ capa then _ else _ ∧ _))

/-- The sizes of writes add up to the number of bytes. -/
theorem sum_sizes (cs : List Chunk) : (cs.map Chunk.size).sum = (bytesOf cs).length := by
  unfold bytesOf
  rw [List.length_flatMap]
  rfl

/-- An enlarged buffer has room for the write. -/
theorem le_enlarged {capa ind n : ℕ} (h : ind ≤ capa) : ind + n ≤ enlarged capa n := by
  unfold enlarged
  split_ifs <;> omega

/-- Writes that need no more than the capacity fit. -/
theorem fits_of_room {capa ind : ℕ} {ns : List ℕ} (h : ind + ns.sum ≤ capa) :
    Fits capa ind ns := by
  induction ns generalizing ind with
  | nil => exact trivial
  | cons n ns ih =>
    rw [List.sum_cons] at h
    unfold Fits
    rw [if_pos (by omega)]
    exact ih (by omega)

namespace Marshall

/-- A buffer with the write position in it. -/
structure Sized (m : Marshall) : Prop where
  /-- There are at least two bytes. -/
  two : 1 < m.capa
  /-- The position is in the buffer. -/
  le : m.ind ≤ m.capa
  /-- The capacity is an `int`. -/
  small : m.capa < intLimit

/-- A new buffer. -/
theorem sized_construct (memory : ℕ → UInt8) : (construct memory).Sized where
  two := show 1 < defaultRpcSz by decide
  le := show rpcHeaderSz ≤ defaultRpcSz by decide
  small := show defaultRpcSz < intLimit by decide

variable {m : Marshall} {cs : List Chunk}

/-- A write into the capacity that there is. -/
theorem Sized.store (h : m.Sized) {p : Bytes} (hroom : m.ind + p.length ≤ m.capa) :
    (m.store p).Sized := ⟨h.two, hroom, h.small⟩

/-- A write into an enlarged buffer. -/
theorem Sized.enlarge (h : m.Sized) {p : Bytes} (hlt : enlarged m.capa p.length < intLimit) :
    (Marshall.store { m with capa := enlarged m.capa p.length } p).Sized := by
  have htwo : 1 < enlarged m.capa p.length := by
    have := h.two
    unfold enlarged
    split_ifs <;> omega
  exact ⟨htwo, le_enlarged h.le, hlt⟩

/-- A write into the capacity that there is, or into an enlarged one. -/
theorem writeChunk_eq (h : m.Sized) (c : Chunk) : m.writeChunk c =
    if m.ind + c.size ≤ m.capa then some (m.store c.bytes)
    else if enlarged m.capa c.size < intLimit then
      some (store { m with capa := enlarged m.capa c.size } c.bytes)
    else none := by
  obtain ⟨htwo, hle, hsmall⟩ := h
  cases c with
  | rawbyte x =>
    have hsize : Chunk.size (.rawbyte x) = 1 := rfl
    have hdouble : enlarged m.capa 1 = 2 * m.capa := if_pos htwo
    rw [hsize, hdouble]
    show (if m.ind ≥ m.capa then m.realloc (2 * m.capa) else some m).map _ = _
    unfold realloc
    split_ifs <;> first | rfl | omega
  | rawbytes p =>
    have hsize : Chunk.size (.rawbytes p) = p.length := rfl
    have hroom : m.ind + p.length ≤ enlarged m.capa p.length := le_enlarged hle
    have henlarged : (if m.capa > p.length then 2 * m.capa else m.capa + p.length) =
        enlarged m.capa p.length := rfl
    rw [hsize]
    show rawbytes m p = _
    unfold rawbytes realloc
    rw [henlarged]
    split_ifs <;> first | rfl | omega

/-- Bytes written one after the other. -/
theorem store_store (m : Marshall) (p q : Bytes) : (m.store p).store q = m.store (p ++ q) := by
  unfold store
  simp only [List.length_append, Nat.add_assoc, Marshall.mk.injEq, and_self, and_true]
  funext i
  by_cases hq : m.ind + p.length ≤ i ∧ i < m.ind + (p.length + q.length)
  · rw [if_pos hq, if_pos (by omega), List.getD_append_right _ _ _ _ (by omega)]
    congr 1
    omega
  · rw [if_neg hq]
    by_cases hp : m.ind ≤ i ∧ i < m.ind + p.length
    · rw [if_pos hp, if_pos (by omega), List.getD_append _ _ _ _ (by omega)]
    · rw [if_neg hp, if_neg (by omega)]

/-- Writes that fit put their bytes at the write position. -/
theorem write_of_fits (hm : m.Sized) (h : Fits m.capa m.ind (cs.map Chunk.size)) : ∃ capa,
      m.write cs = some { m.store (bytesOf cs) with capa := capa } ∧
        Sized { m.store (bytesOf cs) with capa := capa } := by
  induction cs generalizing m with
  | nil =>
    refine ⟨m.capa, ?_, hm.two, hm.le, hm.small⟩
    have hbuf : (m.store (bytesOf [])).buf = m.buf := funext fun i => if_neg (by simp)
    show some m = some ⟨(m.store (bytesOf [])).buf, m.capa, m.ind⟩
    rw [hbuf]
  | cons c cs ih =>
    rw [List.map_cons] at h
    unfold Fits at h
    unfold write
    rw [writeChunk_eq hm, bytesOf_cons]
    split_ifs at h with hroom
    · obtain ⟨capa, hwrite, hsized⟩ := ih (hm.store hroom) h
      rw [store_store] at hwrite hsized
      rw [if_pos hroom]
      exact ⟨capa, hwrite, hsized⟩
    · obtain ⟨hlt, h⟩ := h
      obtain ⟨capa, hwrite, hsized⟩ := ih (hm.enlarge hlt) h
      rw [store_store] at hwrite hsized
      rw [if_neg hroom, if_pos hlt]
      exact ⟨capa, hwrite, hsized⟩

/-- Writes that do not fit stop the program. -/
theorem write_of_not_fits (hm : m.Sized) (h : ¬ Fits m.capa m.ind (cs.map Chunk.size)) :
    m.write cs = none := by
  induction cs generalizing m with
  | nil => exact absurd trivial h
  | cons c cs ih =>
    rw [List.map_cons] at h
    unfold Fits at h
    unfold write
    rw [writeChunk_eq hm]
    split_ifs at h with hroom
    · rw [if_pos hroom]
      exact ih (hm.store hroom) h
    · rw [if_neg hroom]
      split_ifs with hlt
      · exact ih (hm.enlarge hlt) fun hfits => h ⟨hlt, hfits⟩
      · rfl

/-- The length of a message is the write position. -/
@[simp] theorem length_pdu (m : Marshall) : m.pdu.length = m.ind := by
  unfold pdu
  rw [List.length_map, List.length_range]

/-- The bytes of a message. -/
theorem getElem_pdu {i : ℕ} (h : i < m.pdu.length) : m.pdu[i] = m.buf i := by
  unfold pdu at h ⊢
  rw [List.getElem_map, List.getElem_range]

/-- The bytes behind the header. -/
theorem getElem_str {i : ℕ} (h : i < m.str.length) :
    m.str[i] = m.buf (rpcHeaderSz + i) := by
  unfold str at h ⊢
  rw [List.getElem_drop, getElem_pdu]

/-- The bytes behind the header of a message are those that were written. -/
theorem str_store (memory : ℕ → UInt8) (p : Bytes) : ((construct memory).store p).str = p := by
  refine List.ext_getElem ?_ fun i hi hi' => ?_
  · unfold str
    rw [List.length_drop, length_pdu]
    show rpcHeaderSz + p.length - rpcHeaderSz = p.length
    omega
  · rw [getElem_str]
    show (if rpcHeaderSz ≤ rpcHeaderSz + i ∧ rpcHeaderSz + i < rpcHeaderSz + p.length then
      p.getD (rpcHeaderSz + i - rpcHeaderSz) 0 else _) = _
    rw [if_pos (by omega), Nat.add_sub_cancel_left, List.getD_eq_getElem _ _ hi']

/-- A header is written behind the size slot, and the rest of the message stays. -/
theorem packAt_spec (hm : m.Sized) (hind : rpcHeaderSz ≤ m.ind)
    (hlen : sizeofSz + (bytesOf cs).length ≤ rpcHeaderSz) : ∃ m', m.packAt cs = some m' ∧
      m'.ind = m.ind ∧ m'.str = m.str ∧ bytesOf cs <+: m'.pdu.drop sizeofSz := by
  have hle := hm.le
  have hsum := sum_sizes cs
  have hsized : Sized { m with ind := sizeofSz } := ⟨hm.two, by simp only; omega, hm.small⟩
  have hfits : Fits m.capa sizeofSz (cs.map Chunk.size) := fits_of_room (by omega)
  obtain ⟨capa, hwrite, -⟩ := write_of_fits hsized hfits
  refine ⟨⟨(store { m with ind := sizeofSz } (bytesOf cs)).buf, capa, m.ind⟩, ?_, rfl, ?_, ?_⟩
  · unfold packAt
    rw [hwrite]
    rfl
  · refine List.ext_getElem ?_ fun i hi hi' => ?_
    · unfold str
      rw [List.length_drop, List.length_drop, length_pdu, length_pdu]
    · rw [getElem_str, getElem_str]
      refine if_neg ?_
      show ¬ (sizeofSz ≤ rpcHeaderSz + i ∧ rpcHeaderSz + i < sizeofSz + (bytesOf cs).length)
      omega
  · rw [List.prefix_iff_eq_take]
    refine List.ext_getElem ?_ fun i hi hi' => ?_
    · rw [List.length_take, List.length_drop, length_pdu]
      show _ = min _ (m.ind - sizeofSz)
      omega
    · rw [List.getElem_take, List.getElem_drop, getElem_pdu]
      show _ = if sizeofSz ≤ sizeofSz + i ∧ sizeofSz + i < sizeofSz + (bytesOf cs).length then
        (bytesOf cs).getD (sizeofSz + i - sizeofSz) 0 else _
      rw [if_pos (by omega), Nat.add_sub_cancel_left, List.getD_eq_getElem _ _ hi]

end Marshall

/-! ## Messages -/

/-- The writes of a header operation. -/
def Header.chunks : Header → List Chunk
  | req h => Marshall.pack h.xid ++ Marshall.pack h.proc ++ Marshall.pack h.clt_nonce.toInt32 ++
      Marshall.pack h.srv_nonce.toInt32 ++ Marshall.pack h.xid_rep
  | reply h => Marshall.pack h.xid ++ Marshall.pack h.ret

theorem packHeader_eq (m : Marshall) (h : Header) : m.packHeader h = m.packAt h.chunks := by
  cases h <;> rfl

/-- A header has its place. -/
theorem Header.length_le (h : Header) :
    sizeofSz + (bytesOf h.chunks).length ≤ rpcHeaderSz := by
  cases h with
  | req h => exact Nat.le_refl 24
  | reply h => exact show 12 ≤ 24 by decide

namespace At

variable {u : Unmarshall} {b : Bytes} {k : ℕ}

/-- The header of a request is unpacked as it was packed. -/
theorem unpackReqHeader (h : At u b k) {hdr : ReqHeader} (hlen : rpcHeaderSz ≤ b.length)
    (hd : bytesOf (Header.req hdr).chunks <+: b.drop sizeofSz) :
    ∃ u', u.unpackReqHeader = (hdr, u') ∧ At u' b rpcHeaderSz := by
  have hdata : bytesOf (Header.req hdr).chunks = data hdr.xid ++ (data hdr.proc ++
      (data hdr.clt_nonce.toInt32 ++ (data hdr.srv_nonce.toInt32 ++ data hdr.xid_rep))) := by
    simp only [Header.chunks, bytesOf_append, List.append_assoc]
    rfl
  rw [hdata] at hd
  have hat : At (u.seek sizeofSz) b sizeofSz := h.seek ((by decide : 4 ≤ 24).trans hlen)
  obtain ⟨u₁, h₁, hat, hd⟩ := hat.get (decodes _) hd
  obtain ⟨u₂, h₂, hat, hd⟩ := hat.get (decodes _) hd
  obtain ⟨u₃, h₃, hat, hd⟩ := hat.get (decodes _) hd
  obtain ⟨u₄, h₄, hat, hd⟩ := hat.get (decodes _) hd
  obtain ⟨u₅, h₅, hat⟩ := decodes _ hat hd
  refine ⟨u₅.seek rpcHeaderSz, ?_, hat.seek hlen⟩
  simp only [Unmarshall.unpackReqHeader, Unmarshall.unpack, h₁, h₂, h₃, h₄, h₅,
    UInt32.toUInt32_toInt32]

/-- The header of a reply is unpacked as it was packed. -/
theorem unpackReplyHeader (h : At u b k) {hdr : ReplyHeader} (hlen : rpcHeaderSz ≤ b.length)
    (hd : bytesOf (Header.reply hdr).chunks <+: b.drop sizeofSz) :
    ∃ u', u.unpackReplyHeader = (hdr, u') ∧ At u' b rpcHeaderSz := by
  have hdata : bytesOf (Header.reply hdr).chunks = data hdr.xid ++ data hdr.ret :=
    bytesOf_append _ _
  rw [hdata] at hd
  have hat : At (u.seek sizeofSz) b sizeofSz := h.seek ((by decide : 4 ≤ 24).trans hlen)
  obtain ⟨u₁, h₁, hat, hd⟩ := hat.get (decodes _) hd
  obtain ⟨u₂, h₂, hat⟩ := decodes _ hat hd
  refine ⟨u₂.seek rpcHeaderSz, ?_, hat.seek hlen⟩
  simp only [Unmarshall.unpackReplyHeader, Unmarshall.unpack, h₁, h₂]

/-- A header is unpacked as it was packed. -/
theorem unpackHeader (h : At u b k) {hdr : Header} (hlen : rpcHeaderSz ≤ b.length)
    (hd : bytesOf hdr.chunks <+: b.drop sizeofSz) :
    ∃ u', u.unpackHeader hdr.kind = (hdr, u') ∧ At u' b rpcHeaderSz := by
  cases hdr with
  | req hdr =>
    obtain ⟨u', hu', hat⟩ := h.unpackReqHeader hlen hd
    refine ⟨u', ?_, hat⟩
    simp only [Header.kind, Unmarshall.unpackHeader, hu']
  | reply hdr =>
    obtain ⟨u', hu', hat⟩ := h.unpackReplyHeader hlen hd
    refine ⟨u', ?_, hat⟩
    simp only [Header.kind, Unmarshall.unpackHeader, hu']

/-- The values of a sequence are read one after the other. -/
theorem getAll (vs : List Val) (h : At u b k) (hd : bytesOf (putAll vs) <+: b.drop k) :
    ∃ u', getAll (vs.map Sigma.fst) u = (vs, u') ∧
      At u' b (k + (bytesOf (putAll vs)).length) := by
  induction vs generalizing u k with
  | nil => exact ⟨u, rfl, h⟩
  | cons v vs ih =>
    have hdata : bytesOf (putAll (v :: vs)) = data v.2 ++ bytesOf (putAll vs) := by
      unfold putAll
      rw [List.flatMap_cons, bytesOf_append]
      rfl
    rw [hdata] at hd ⊢
    obtain ⟨u₁, hv, hat, hd⟩ := h.get (decodes v.2) hd
    obtain ⟨u₂, hvs, hat⟩ := ih hat hd
    rw [List.length_append, ← Nat.add_assoc]
    refine ⟨u₂, ?_, hat⟩
    rw [List.map_cons, Rpc.getAll, hv]
    dsimp only
    rw [hvs]

end At

/-- The message for some values behind a header: the values are marshalled and then the header is
packed. The buffer is in memory that holds anything. -/
def marshalled (memory : ℕ → UInt8) (h : Header) (vs : List Val) : Option Bytes :=
  (((Marshall.construct memory).write (putAll vs)).bind fun m => m.packHeader h).map Marshall.pdu

/-- What is unpacked and unmarshalled from a message, and `okdone` after that. -/
def unmarshalled (k : HeaderKind) (ts : List Ty) (b : Bytes) : Header × List Val × Bool :=
  let (h, u) := (Unmarshall.ofPdu b).unpackHeader k
  let (vs, u) := getAll ts u
  (h, vs, u.okdone)

/-- The size of the message. -/
def totalSize (vs : List Val) : ℕ := rpcHeaderSz + (bytesOf (putAll vs)).length

/-- A message is unmarshalled as it was marshalled, and nothing is left. -/
def RoundTrips (h : Header) (vs : List Val) : Prop :=
  ∀ memory, (marshalled memory h vs).map (unmarshalled h.kind (vs.map Sigma.fst)) =
    some (h, vs, true)

/-- A message with the header and the values in their places. -/
structure Message (b : Bytes) (h : Header) (vs : List Val) : Prop where
  /-- The size. -/
  length : b.length = totalSize vs
  /-- The size is an `int`. -/
  small : b.length < intLimit
  /-- The header stands behind the size slot. -/
  header : bytesOf h.chunks <+: b.drop sizeofSz
  /-- The values stand behind the header. -/
  values : b.drop rpcHeaderSz = bytesOf (putAll vs)

namespace Message

variable {b : Bytes} {h : Header} {vs : List Val}

/-- There is room for the header. -/
theorem header_le (hb : Message b h vs) : rpcHeaderSz ≤ b.length := by
  rw [hb.length]
  exact Nat.le_add_right _ _

/-- An `unmarshall` of the message. -/
theorem at_zero (hb : Message b h vs) : At (.ofPdu b) b 0 :=
  ⟨rfl, rfl, rfl, rfl, Nat.zero_le _, hb.small⟩

end Message

variable {vs : List Val}

/-- Writes that fit give a message. -/
theorem marshalled_of_fits (memory : ℕ → UInt8) (h : Header)
    (hfits : Fits defaultRpcSz rpcHeaderSz (sizes vs)) :
    ∃ b, marshalled memory h vs = some b ∧ Message b h vs := by
  obtain ⟨capa, hwrite, hsized⟩ := Marshall.write_of_fits (Marshall.sized_construct memory) hfits
  obtain ⟨m, hpack, hind, hstr, hpre⟩ :=
    Marshall.packAt_spec hsized (Nat.le_add_right _ _) h.length_le
  have hlen : m.pdu.length = totalSize vs := (Marshall.length_pdu m).trans hind
  refine ⟨m.pdu, ?_, hlen, hlen ▸ hsized.le.trans_lt hsized.small, hpre, ?_⟩
  · unfold marshalled
    rw [hwrite, Option.bind_some, packHeader_eq, hpack]
    rfl
  · exact hstr.trans (Marshall.str_store memory _)

/-- Writes that do not fit give none. -/
theorem marshalled_of_not_fits (memory : ℕ → UInt8) (h : Header)
    (hfits : ¬ Fits defaultRpcSz rpcHeaderSz (sizes vs)) : marshalled memory h vs = none := by
  have hnone : (Marshall.construct memory).write (putAll vs) = none :=
    Marshall.write_of_not_fits (Marshall.sized_construct memory) hfits
  unfold marshalled
  rw [hnone]
  rfl

/-- A message whose writes fit comes back. -/
theorem roundTrips_of_fits (h : Header) (hfits : Fits defaultRpcSz rpcHeaderSz (sizes vs)) :
    RoundTrips h vs := by
  intro memory
  obtain ⟨b, hb, hmsg⟩ := marshalled_of_fits memory h hfits
  obtain ⟨u₁, hh, hat⟩ := hmsg.at_zero.unpackHeader hmsg.header_le hmsg.header
  obtain ⟨u₂, hvs, hat⟩ := hat.getAll vs (hmsg.values ▸ List.prefix_rfl)
  have hend : At u₂ b b.length := hmsg.length ▸ hat
  rw [hb, Option.map_some, unmarshalled, hh]
  dsimp only
  rw [hvs]
  dsimp only
  rw [hend.okdone]

/-- There is no message if the writes do not fit. -/
theorem fits_of_roundTrips {h : Header} (htrips : RoundTrips h vs) :
    Fits defaultRpcSz rpcHeaderSz (sizes vs) := by
  by_contra hfits
  have hmap := htrips fun _ => 0
  rw [marshalled_of_not_fits _ h hfits] at hmap
  cases hmap

/-- A message comes back exactly if its writes fit into a buffer whose capacity is an `int`. -/
theorem roundTrips_iff (h : Header) (vs : List Val) :
    RoundTrips h vs ↔ Fits defaultRpcSz rpcHeaderSz (sizes vs) :=
  ⟨fits_of_roundTrips, roundTrips_of_fits h⟩

/-- The sizes of the writes for a string. -/
theorem sizes_string (s : Str) : sizes [⟨.key .string, s⟩] = [1, 1, 1, 1, s.data.length] := rfl

/-- The size of a message with a string. -/
theorem totalSize_string (s : Str) : totalSize [⟨.key .string, s⟩] = 28 + s.data.length := by
  have hbytes : bytesOf (putAll [⟨.key .string, s⟩]) =
      data (UInt32.ofNat s.data.length) ++ s.data := by
    show bytesOf ((put (UInt32.ofNat s.data.length) ++ [Chunk.rawbytes s.data]) ++ []) = _
    rw [List.append_nil, bytesOf_append, bytesOf_cons, bytesOf_nil, List.append_nil]
    rfl
  unfold totalSize
  rw [hbytes, List.length_append]
  show 24 + (4 + s.data.length) = _
  omega

/-- A string of `2147483619` bytes. -/
def longString : Str := ⟨List.replicate 2147483619 0⟩

theorem length_longString : longString.data.length = 2147483619 := List.length_replicate

/-- The message is short enough for an `int`, but the capacity for it is not: the string is longer
than the buffer, so that its length is added to the `1024` bytes that there are. -/
theorem long_string_fails : totalSize [⟨.key .string, longString⟩] < intLimit ∧
    ¬ RoundTrips (.req ⟨1, 2, 3, 4, 0⟩) [⟨.key .string, longString⟩] := by
  constructor
  · rw [totalSize_string, length_longString]
    decide
  · refine mt fits_of_roundTrips ?_
    rw [sizes_string, length_longString]
    decide

end SimpleDfs.Rpc
