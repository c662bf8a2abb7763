import SimpleDfs.Rpc.Reading

/-!
# Decoding what the network sent

The extractions from a message that can hold anything. `unmarshall::rawbytes` compares `_ind + n`
with the size, as unsigned numbers of 32 bits; the length `n` comes from the message, and the sum
wraps if it is large enough. Then the check passes, bytes far behind the end of the block are read,
and the position goes back. Four bytes with the value `0xff`, taken as a string, do that
(`huge_length_read`). As long as the sum does not wrap, all reads are in the block and the position
only goes forward, except where a header operation sets it (`safe_iff`).
-/

namespace SimpleDfs.Rpc

/-- `MAX_PDU`. -/
def maxPdu : ℕ := 10485760

/-- An extraction from an `unmarshall`. -/
inductive Extraction where
  /-- `operator>>` into a variable of some type. -/
  | value (t : Ty)
  /-- `unpack_req_header` or `unpack_reply_header`. -/
  | header (k : HeaderKind)
  /-- The contents are handed to another `unmarshall`, by `take_in`. -/
  | takeIn
  deriving DecidableEq, Repr

/-- The `unmarshall` after an extraction. -/
def Unmarshall.extract (u : Unmarshall) : Extraction → Unmarshall
  | .value t => (get u : t.interp × Unmarshall).2
  | .header k => (u.unpackHeader k).2
  | .takeIn => u.takeIn

/-- The `unmarshall` after a sequence of extractions. -/
def Unmarshall.extractAll (u : Unmarshall) (ops : List Extraction) : Unmarshall :=
  ops.foldl Unmarshall.extract u

/-- What a single access has to observe in a block of size `sz`: bytes are read in the block, a
string of `n` bytes is read only if there are `n` bytes left, the position does not go back or
become negative, and header operations set it to a header offset. -/
def Access.Within (sz : ℤ) : Access → Prop
  | .byte i => 0 ≤ i ∧ i < sz
  | .ask _ _ => True
  | .bytes i n j => (∀ m, i ≤ m → m < i + n → 0 ≤ m ∧ m < sz) ∧ n ≤ sz - i ∧ i ≤ j ∧ 0 ≤ j
  | .seek j => j = sizeofSz ∨ j = rpcHeaderSz

/-- All accesses observe it, and the position is not negative. -/
def Safe (u : Unmarshall) : Prop := 0 ≤ u.ind ∧ ∀ a ∈ u.trace, a.Within u.sz

/-- A string of `n` bytes at position `i` ends where an unsigned number can tell. -/
def Access.NoWrap : Access → Prop
  | .ask i n => i + n < 4294967296
  | _ => True

instance : DecidablePred Access.NoWrap
  | .byte _ => inferInstanceAs (Decidable True)
  | .ask i n => inferInstanceAs (Decidable (i + n < 4294967296))
  | .bytes _ _ _ => inferInstanceAs (Decidable True)
  | .seek _ => inferInstanceAs (Decidable True)

/-- No length that was found in the message makes the end of its string wrap. -/
def NoneWraps (u : Unmarshall) : Prop := ∀ a ∈ u.trace, a.NoWrap

/-! ## What every extraction keeps -/

/-- The extraction of a value keeps a property. -/
def Keeps (P : Unmarshall → Prop) (α : Type) [Wire α] : Prop :=
  ∀ u, P u → P (get u : α × Unmarshall).2

section Keeps

variable {P : Unmarshall → Prop}

section Parts

variable {α β ε : Type} [Wire α] [Wire β] [Wire ε]

/-- A pair. -/
theorem keeps_pair (hα : Keeps P α) (hβ : Keeps P β) : Keeps P (α × β) :=
  fun u h => hβ _ (hα u h)

/-- A value that is read as another one and then converted. -/
theorem Converts.keeps {f : ε → α} (h : Converts f) (hα : Keeps P α) : Keeps P ε := by
  intro u hu
  obtain ⟨g, -, hget⟩ := h.get_eq
  rw [hget]
  exact hα u hu

/-- The elements of a vector. -/
theorem keeps_getLoop (hα : Keeps P α) (n : ℕ) {u : Unmarshall} (h : P u) :
    P (getLoop n u : List α × Unmarshall).2 := by
  induction n generalizing u with
  | zero => exact h
  | succ n ih => exact ih (hα u h)

/-- A vector. -/
theorem keeps_vector (hn : Keeps P UInt32) (hα : Keeps P α) : Keeps P (List α) := by
  intro u h
  rw [get_vector]
  exact keeps_getLoop hα _ (hn u h)

/-- The entries of a map. -/
theorem keeps_getMapLoop [LinearOrder α] (hα : Keeps P α) (hβ : Keeps P β) (n : ℕ)
    (d : StdMap α β) {u : Unmarshall} (h : P u) : P (getMapLoop n d u).2 := by
  induction n generalizing u d with
  | zero => exact h
  | succ n ih => exact ih _ (hβ _ (hα u h))

/-- A map. -/
theorem keeps_map [LinearOrder α] (hn : Keeps P UInt32) (hα : Keeps P α) (hβ : Keeps P β) :
    Keeps P (StdMap α β) := by
  intro u h
  rw [get_map]
  exact keeps_getMapLoop hα hβ _ _ (hn u h)

end Parts

/-- What a field of a header and the changes of the position keep, both headers keep. -/
theorem keeps_header (hint : Keeps P Int32) (hstart : ∀ u, P u → P (u.seek sizeofSz))
    (hend : ∀ u, P u → P (u.seek rpcHeaderSz)) (k : HeaderKind) {u : Unmarshall} (h : P u) :
    P (u.unpackHeader k).2 := by
  have hunpack : ∀ {u u' : Unmarshall} {x : Int32}, P u → u.unpack = (x, u') → P u' := by
    intro u u' x hu hx
    have hget := hint u hu
    unfold Unmarshall.unpack at hx
    rwa [hx] at hget
  rcases h₁ : (u.seek sizeofSz).unpack with ⟨x₁, u₁⟩
  rcases h₂ : u₁.unpack with ⟨x₂, u₂⟩
  have hreply : P u₂ := hunpack (hunpack (hstart u h) h₁) h₂
  cases k with
  | req =>
    rcases h₃ : u₂.unpack with ⟨x₃, u₃⟩
    rcases h₄ : u₃.unpack with ⟨x₄, u₄⟩
    rcases h₅ : u₄.unpack with ⟨x₅, u₅⟩
    have hreq : P u₅ := hunpack (hunpack (hunpack hreply h₃) h₄) h₅
    simp only [Unmarshall.unpackHeader, Unmarshall.unpackReqHeader, h₁, h₂, h₃, h₄, h₅]
    exact hend u₅ hreq
  | reply =>
    simp only [Unmarshall.unpackHeader, Unmarshall.unpackReplyHeader, h₁, h₂]
    exact hend u₂ hreply

variable (hbyte : ∀ u, P u → P u.rawbyte.2) (hstr : Keeps P Str)

include hbyte

/-- An `unsigned int`. -/
theorem keeps_uint : Keeps P UInt32 := fun _ h => hbyte _ (hbyte _ (hbyte _ (hbyte _ h)))

include hstr

/-- What a byte and a string keep, every type keeps. -/
theorem keeps_ty (t : Ty) : Keeps P t.interp :=
  Closed.ty (C := fun α _ => Keeps P α)
    { bool := fun u h => hbyte u h
      uchar := fun u h => hbyte u h
      ushort := fun _ h => hbyte _ (hbyte _ h)
      uint := keeps_uint hbyte
      string := hstr
      vector := keeps_vector (keeps_uint hbyte)
      map := keeps_map (keeps_uint hbyte)
      pair := keeps_pair
      convert := Converts.keeps } t

end Keeps

/-! ## The invariant -/

/-- The accesses so far are safe exactly if no length made the end of its string wrap; and as long
as none did, the position is not negative. -/
structure Guarded (u : Unmarshall) : Prop where
  /-- The size is not negative. -/
  sz_nonneg : 0 ≤ u.sz
  /-- The size is that of a message. -/
  sz_le : u.sz ≤ maxPdu
  /-- Without a wrap all accesses are as they should be. -/
  within : NoneWraps u → Safe u
  /-- After a wrap some access is not. -/
  noneWraps : (∀ a ∈ u.trace, a.Within u.sz) → NoneWraps u

/-- More accesses, the latest ones first. -/
theorem Guarded.extend {u u' : Unmarshall} (h : Guarded u) (new : List Access)
    (hsz : u'.sz = u.sz) (htrace : u'.trace = new ++ u.trace)
    (hsafe : 0 ≤ u.ind → (∀ a ∈ new, a.NoWrap) → 0 ≤ u'.ind ∧ ∀ a ∈ new, a.Within u.sz)
    (hwraps : 0 ≤ u.ind → (∀ a ∈ new, a.Within u.sz) → ∀ a ∈ new, a.NoWrap) : Guarded u' where
  sz_nonneg := hsz ▸ h.sz_nonneg
  sz_le := hsz ▸ h.sz_le
  within hnone := by
    unfold NoneWraps at hnone
    rw [htrace] at hnone
    obtain ⟨hpos, hold⟩ := h.within fun a ha => hnone a (List.mem_append_right _ ha)
    obtain ⟨hpos', hnew⟩ := hsafe hpos fun a ha => hnone a (List.mem_append_left _ ha)
    refine ⟨hpos', ?_⟩
    rw [htrace, hsz]
    intro a ha
    exact (List.mem_append.mp ha).elim (hnew a) (hold a)
  noneWraps hall := by
    rw [htrace, hsz] at hall
    have hnone := h.noneWraps fun a ha => hall a (List.mem_append_right _ ha)
    have hpos := (h.within hnone).1
    unfold NoneWraps
    rw [htrace]
    intro a ha
    exact (List.mem_append.mp ha).elim
      (hwraps hpos (fun a ha => hall a (List.mem_append_left _ ha)) a) (hnone a)

/-- A byte is read only in the block. -/
theorem guarded_rawbyte {u : Unmarshall} (h : Guarded u) : Guarded u.rawbyte.2 := by
  unfold Unmarshall.rawbyte
  split_ifs with hend
  · exact h.extend [] rfl rfl (fun hpos _ => ⟨hpos, by simp⟩) (fun _ _ => by simp)
  · refine h.extend [.byte u.ind] rfl rfl (fun hpos _ => ⟨?_, ?_⟩) (fun _ _ => ?_)
    · show 0 ≤ u.ind + 1
      omega
    · rw [List.forall_mem_singleton]
      exact ⟨hpos, by omega⟩
    · rw [List.forall_mem_singleton]
      exact trivial

/-- A header operation sets the position to a header offset. -/
theorem guarded_seek {u u' : Unmarshall} {j : ℕ} (h : Guarded u)
    (hj : j = sizeofSz ∨ j = rpcHeaderSz) (hsz : u'.sz = u.sz) (hind : u'.ind = j)
    (htrace : u'.trace = .seek j :: u.trace) : Guarded u' := by
  refine h.extend [.seek j] hsz htrace (fun _ _ => ⟨?_, ?_⟩) (fun _ _ => ?_)
  · rw [hind]
    exact Int.natCast_nonneg j
  · rw [List.forall_mem_singleton]
    exact hj.imp (congrArg _) (congrArg _)
  · rw [List.forall_mem_singleton]
    exact trivial

/-- The bytes of a string are read in the block, unless the sum wrapped. If it did, it is below the
position, and the check passes. -/
theorem guarded_rawbytes {u : Unmarshall} (h : Guarded u) (hend : u.ind ≤ u.sz) {n : ℕ}
    (hn : n < 4294967296) : Guarded (u.rawbytes n).2 := by
  have hle := h.sz_le
  have hsz := h.sz_nonneg
  unfold maxPdu at hle
  unfold Unmarshall.rawbytes toUnsigned toInt
  split_ifs with hcheck
  · refine h.extend [.ask u.ind n] rfl rfl (fun hpos _ => ⟨hpos, ?_⟩) (fun hpos _ => ?_)
    · rw [List.forall_mem_singleton]
      exact trivial
    · rw [List.forall_mem_singleton]
      show u.ind + n < 4294967296
      omega
  · refine h.extend [.bytes u.ind n _, .ask u.ind n] rfl rfl (fun hpos hnone => ?_)
      (fun hpos hall => ?_)
    · have hask : u.ind + n < 4294967296 := hnone (.ask u.ind n) (by simp)
      dsimp only
      rw [List.forall_mem_cons, List.forall_mem_singleton]
      exact ⟨by omega, ⟨fun m hm hm' => by omega, by omega, by omega, by omega⟩, trivial⟩
    · have hbytes := (hall _ List.mem_cons_self).2.1
      rw [List.forall_mem_cons, List.forall_mem_singleton]
      refine ⟨trivial, ?_⟩
      show u.ind + n < 4294967296
      omega

/-- When a byte was there, the position is not behind the end. -/
theorem ind_le_of_ok {u : Unmarshall} (h : u.rawbyte.2.ok = true) :
    u.rawbyte.2.ind ≤ u.rawbyte.2.sz := by
  unfold Unmarshall.rawbyte at h ⊢
  split_ifs at h ⊢ with hend
  exact Int.lt_iff_add_one_le.mp (not_le.mp hend)

/-- The extraction of a string. -/
theorem guarded_string : Keeps Guarded Str := by
  intro u h
  have hguarded : Guarded (get u : UInt32 × Unmarshall).2 :=
    keeps_uint (fun _ => guarded_rawbyte) u h
  have hind : (get u : UInt32 × Unmarshall).2.ok = true →
      (get u : UInt32 × Unmarshall).2.ind ≤ (get u : UInt32 × Unmarshall).2.sz := ind_le_of_ok
  rw [get_str]
  rcases hget : (get u : UInt32 × Unmarshall) with ⟨n, u'⟩
  rw [hget] at hguarded hind
  dsimp only at hguarded hind ⊢
  split_ifs with hok
  · exact guarded_rawbytes hguarded (hind hok) n.toNat_lt
  · exact hguarded

/-- The extraction of a value of any type. -/
theorem guarded_value (t : Ty) : Keeps Guarded t.interp :=
  keeps_ty (fun _ => guarded_rawbyte) guarded_string t

/-- Every extraction keeps the invariant. -/
theorem guarded_extract {u : Unmarshall} (h : Guarded u) (op : Extraction) :
    Guarded (u.extract op) := by
  cases op with
  | value t => exact guarded_value t u h
  | header k =>
    exact keeps_header (guarded_value (.key .int))
      (fun _ h => guarded_seek h (Or.inl rfl) rfl rfl rfl)
      (fun _ h => guarded_seek h (Or.inr rfl) rfl rfl rfl) k h
  | takeIn => exact guarded_seek h (Or.inr rfl) rfl rfl rfl

/-- Every sequence of extractions keeps the invariant. -/
theorem guarded_extractAll {u : Unmarshall} (h : Guarded u) (ops : List Extraction) :
    Guarded (u.extractAll ops) := by
  induction ops generalizing u with
  | nil => exact h
  | cons op ops ih => exact ih (guarded_extract h op)

/-- A message that was received. -/
theorem guarded_ofPdu {b : Bytes} (h : b.length ≤ maxPdu) : Guarded (.ofPdu b) where
  sz_nonneg := Int.natCast_nonneg _
  sz_le := Int.ofNat_le.mpr h
  within _ := ⟨le_refl _, by simp [Unmarshall.ofPdu]⟩
  noneWraps _ := by simp [NoneWraps, Unmarshall.ofPdu]

/-- On any message, any sequence of extractions is safe exactly if no length that it finds makes the
end of its string wrap. -/
theorem safe_iff {b : Bytes} (h : b.length ≤ maxPdu) (ops : List Extraction) :
    Safe ((Unmarshall.ofPdu b).extractAll ops) ↔
      NoneWraps ((Unmarshall.ofPdu b).extractAll ops) := by
  have hguarded := guarded_extractAll (guarded_ofPdu h) ops
  exact ⟨fun hsafe => hguarded.noneWraps hsafe.2, hguarded.within⟩

/-- A message with a string of two bytes, of which a header is unpacked after it was read. -/
theorem short_string_safe : Safe ((Unmarshall.ofPdu [0, 0, 0, 2, 104, 105]).extractAll
    [.value (.key .string), .header .reply, .value (.key .uint)]) :=
  (safe_iff (by decide) _).mpr (by unfold NoneWraps; decide)

/-- Four bytes are taken as the length of a string: the string is read from far behind the end of
the block, and the position goes back from `4` to `3`. -/
theorem huge_length_read :
    Access.bytes 4 4294967295 3 ∈
        ((Unmarshall.ofPdu [255, 255, 255, 255]).extractAll [.value (.key .string)]).trace ∧
      ¬ Safe ((Unmarshall.ofPdu [255, 255, 255, 255]).extractAll [.value (.key .string)]) := by
  have hmem : Access.bytes 4 4294967295 3 ∈
      ((Unmarshall.ofPdu [255, 255, 255, 255]).extractAll [.value (.key .string)]).trace := by
    decide
  refine ⟨hmem, fun hsafe => ?_⟩
  have hwithin := (hsafe.2 _ hmem).2.2.1
  omega

end SimpleDfs.Rpc
