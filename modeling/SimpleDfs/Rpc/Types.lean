import SimpleDfs.Rpc.Marshall

/-!
# The types that are marshalled

The structs of the protocols with their operators, each pair of operators as its header file has it,
and the types that can be put into a message: the built-in ones, strings, vectors and maps nested to
any depth, and the structs. The keys of a map are of an ordered type; the structs have no
`operator<` and are no keys.
-/

namespace SimpleDfs.Rpc

/-! ## The structs -/

/-- `prop_t`. -/
structure PropT where
  /-- The number. -/
  n : UInt32
  /-- The name of the proposer. -/
  m : Str

instance : Wire PropT where
  put a := put a.n ++ put a.m
  get u :=
    let (n, u) := get u
    let (m, u) := get u
    (⟨n, m⟩, u)

/-- `paxos_protocol::preparearg`. -/
structure PrepareArg where
  /-- The instance. -/
  inst : UInt32
  /-- The proposal. -/
  n : PropT

instance : Wire PrepareArg where
  put a := put a.inst ++ put a.n
  get u :=
    let (inst, u) := get u
    let (n, u) := get u
    (⟨inst, n⟩, u)

/-- `paxos_protocol::prepareres`. -/
structure PrepareRes where
  /-- The instance has been decided. -/
  oldinstance : Bool
  /-- The promise is given. -/
  accept : Bool
  /-- The highest proposal accepted. -/
  n_a : PropT
  /-- Its value. -/
  v_a : Str

instance : Wire PrepareRes where
  put r := put r.oldinstance ++ put r.accept ++ put r.n_a ++ put r.v_a
  get u :=
    let (oldinstance, u) := get u
    let (accept, u) := get u
    let (n_a, u) := get u
    let (v_a, u) := get u
    (⟨oldinstance, accept, n_a, v_a⟩, u)

/-- `paxos_protocol::acceptarg`. -/
structure AcceptArg where
  /-- The instance. -/
  inst : UInt32
  /-- The proposal. -/
  n : PropT
  /-- The value. -/
  v : Str

instance : Wire AcceptArg where
  put a := put a.inst ++ put a.n ++ put a.v
  get u :=
    let (inst, u) := get u
    let (n, u) := get u
    let (v, u) := get u
    (⟨inst, n, v⟩, u)

/-- `paxos_protocol::decidearg`. -/
structure DecideArg where
  /-- The instance. -/
  inst : UInt32
  /-- The value. -/
  v : Str

instance : Wire DecideArg where
  put a := put a.inst ++ put a.v
  get u :=
    let (inst, u) := get u
    let (v, u) := get u
    (⟨inst, v⟩, u)

/-- `extent_protocol::attr`. -/
structure Attr where
  /-- The time of the last access. -/
  atime : UInt32
  /-- The time of the last change of the contents. -/
  mtime : UInt32
  /-- The time of the last change of the attributes. -/
  ctime : UInt32
  /-- The size. -/
  size : UInt32

instance : Wire Attr where
  put a := put a.atime ++ put a.mtime ++ put a.ctime ++ put a.size
  get u :=
    let (atime, u) := get u
    let (mtime, u) := get u
    let (ctime, u) := get u
    let (size, u) := get u
    (⟨atime, mtime, ctime, size⟩, u)

/-- `viewstamp`. -/
structure Viewstamp where
  /-- The view. -/
  vid : UInt32
  /-- The number of the request in the view. -/
  seqno : UInt32

instance : Wire Viewstamp where
  put v := put v.vid ++ put v.seqno
  get u :=
    let (vid, u) := get u
    let (seqno, u) := get u
    (⟨vid, seqno⟩, u)

/-- `rsm_protocol::transferres`. -/
structure TransferRes where
  /-- The state. -/
  state : Str
  /-- The last request executed. -/
  last : Viewstamp

instance : Wire TransferRes where
  put r := put r.state ++ put r.last
  get u :=
    let (state, u) := get u
    let (last, u) := get u
    (⟨state, last⟩, u)

/-- `rsm_protocol::joinres`. -/
structure JoinRes where
  /-- The log. -/
  log : Str

instance : Wire JoinRes where
  put r := put r.log
  get u :=
    let (log, u) := get u
    (⟨log⟩, u)

/-! ## The types -/

/-- The types with `operator<`. -/
inductive Key where
  | bool
  | char
  | uchar
  | short
  | ushort
  | int
  | uint
  | ull
  | string
  | vector (k : Key)
  | map (k v : Key)
  deriving DecidableEq, Repr

/-- The type with its order. Vectors and maps are ordered lexicographically. -/
def Key.ordered : Key → (α : Type) × LinearOrder α
  | bool => ⟨Bool, inferInstance⟩
  | char => ⟨Int8, .lift' Int8.toInt fun _ _ => Int8.toInt_inj.mp⟩
  | uchar => ⟨UInt8, .lift' UInt8.toNat fun _ _ => UInt8.toNat_inj.mp⟩
  | short => ⟨Int16, .lift' Int16.toInt fun _ _ => Int16.toInt_inj.mp⟩
  | ushort => ⟨UInt16, .lift' UInt16.toNat fun _ _ => UInt16.toNat_inj.mp⟩
  | int => ⟨Int32, .lift' Int32.toInt fun _ _ => Int32.toInt_inj.mp⟩
  | uint => ⟨UInt32, .lift' UInt32.toNat fun _ _ => UInt32.toNat_inj.mp⟩
  | ull => ⟨UInt64, .lift' UInt64.toNat fun _ _ => UInt64.toNat_inj.mp⟩
  | string => ⟨Str, .lift' (fun s => s.data.map UInt8.toNat) fun s s' h => by
      have hdata := List.map_injective_iff.mpr (fun _ _ => UInt8.toNat_inj.mp) h
      cases s
      cases s'
      exact congrArg Str.mk hdata⟩
  | vector k =>
    let _ := k.ordered.2
    ⟨List k.ordered.1, inferInstance⟩
  | map k v =>
    let _ := k.ordered.2
    let _ := v.ordered.2
    ⟨StdMap k.ordered.1 v.ordered.1, inferInstance⟩

/-- The values of a key type. -/
abbrev Key.interp (k : Key) : Type := k.ordered.1

instance (k : Key) : LinearOrder k.interp := k.ordered.2

/-- The operators of a key type. -/
instance Key.wire : (k : Key) → Wire k.interp
  | bool => inferInstanceAs (Wire Bool)
  | char => inferInstanceAs (Wire Int8)
  | uchar => inferInstanceAs (Wire UInt8)
  | short => inferInstanceAs (Wire Int16)
  | ushort => inferInstanceAs (Wire UInt16)
  | int => inferInstanceAs (Wire Int32)
  | uint => inferInstanceAs (Wire UInt32)
  | ull => inferInstanceAs (Wire UInt64)
  | string => inferInstanceAs (Wire Str)
  | vector k =>
    let _ := k.wire
    inferInstanceAs (Wire (List k.interp))
  | map k v =>
    let _ := k.wire
    let _ := v.wire
    inferInstanceAs (Wire (StdMap k.interp v.interp))

/-- The types with operators. -/
inductive Ty where
  | key (k : Key)
  | vector (t : Ty)
  | map (k : Key) (t : Ty)
  | propT
  | prepareArg
  | prepareRes
  | acceptArg
  | decideArg
  | attr
  | viewstamp
  | transferRes
  | joinRes
  deriving DecidableEq, Repr

/-- The values of a type. -/
def Ty.interp : Ty → Type
  | key k => k.interp
  | vector t => List t.interp
  | map k t => StdMap k.interp t.interp
  | propT => PropT
  | prepareArg => PrepareArg
  | prepareRes => PrepareRes
  | acceptArg => AcceptArg
  | decideArg => DecideArg
  | attr => Attr
  | viewstamp => Viewstamp
  | transferRes => TransferRes
  | joinRes => JoinRes

/-- The operators of a type. -/
instance Ty.wire : (t : Ty) → Wire t.interp
  | key k => k.wire
  | vector t =>
    let _ := t.wire
    inferInstanceAs (Wire (List t.interp))
  | map k t =>
    let _ := t.wire
    inferInstanceAs (Wire (StdMap k.interp t.interp))
  | propT => inferInstanceAs (Wire PropT)
  | prepareArg => inferInstanceAs (Wire PrepareArg)
  | prepareRes => inferInstanceAs (Wire PrepareRes)
  | acceptArg => inferInstanceAs (Wire AcceptArg)
  | decideArg => inferInstanceAs (Wire DecideArg)
  | attr => inferInstanceAs (Wire Attr)
  | viewstamp => inferInstanceAs (Wire Viewstamp)
  | transferRes => inferInstanceAs (Wire TransferRes)
  | joinRes => inferInstanceAs (Wire JoinRes)

/-- A value with its type. -/
abbrev Val := (t : Ty) × t.interp

/-- The writes for a sequence of values. -/
def putAll (vs : List Val) : List Chunk := vs.flatMap fun v => put v.2

/-- The values of a sequence of types, one after the other. -/
def getAll : List Ty → Unmarshall → List Val × Unmarshall
  | [], u => ([], u)
  | t :: ts, u =>
    let (x, u) := get u
    let (vs, u) := getAll ts u
    (⟨t, x⟩ :: vs, u)

/-! ## Either header -/

/-- A header. -/
inductive Header where
  /-- The header of a request. -/
  | req (h : ReqHeader)
  /-- The header of a reply. -/
  | reply (h : ReplyHeader)
  deriving DecidableEq, Repr

/-- The two headers. -/
inductive HeaderKind where
  | req
  | reply
  deriving DecidableEq, Repr

/-- Which header it is. -/
def Header.kind : Header → HeaderKind
  | req _ => .req
  | reply _ => .reply

/-- `pack_req_header` or `pack_reply_header`. -/
def Marshall.packHeader (m : Marshall) : Header → Option Marshall
  | .req h => m.packReqHeader h
  | .reply h => m.packReplyHeader h

/-- `unpack_req_header` or `unpack_reply_header`. -/
def Unmarshall.unpackHeader (u : Unmarshall) : HeaderKind → Header × Unmarshall
  | .req =>
    let (h, u) := u.unpackReqHeader
    (.req h, u)
  | .reply =>
    let (h, u) := u.unpackReplyHeader
    (.reply h, u)

end SimpleDfs.Rpc
