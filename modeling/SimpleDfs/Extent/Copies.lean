import SimpleDfs.Extent.System

/-!
# The copies of an extent

What the extent clients and the extent server know of an extent, as long as each extent has at most
one client that works on it, its keeper. Who the keeper is, is left open here: it is the client that
has the lock, but it can also be a client that has just made the extent and that nobody else knows
of.

`latest` is the content that each extent has, which is that of its last `put`, and none for an
extent that does not exist. The copy of the keeper has this content, and either it was written or
the server has the same (`CopyInv`). A client that acts on an extent that it keeps changes nothing
for the others (`CopyInv.act`), and every step of the functions of the extent client is of this
kind.
-/

namespace SimpleDfs.Extent

open Lock

/-- What is known of the content after a function, from what was known before it. -/
def Op.writes (op : Op) (latest : Option (Option Buf)) : Option (Option Buf) :=
  match op with
  | put buf => some (some buf)
  | get | getattr => latest

/-- The extent that the function is about. -/
def Place.eid : Place Worker → ExtentId
  | get _ _ eid | getattr _ _ eid _ _ | fetched _ _ eid _ _ _ _ | remove _ eid | flush _ eid _
  | flushed _ eid => eid

/-- What a function can rely on at each place, from the copies of its client, the contents at the
server and what is known of the contents. -/
def PlaceOk (copy : ExtentId → Option CachedExtentInfo) (stored : ExtentId → Option Buf)
    (latest : ExtentId → Option (Option Buf)) : Place Worker → Prop
  | .get _ _ eid => copy eid = none
  | .getattr _ _ eid ret buf | .fetched _ _ eid ret buf _ _ =>
    copy eid = none ∧ ∀ l, latest eid = some l → buf = l.getD [] ∧ (l ≠ none → ret = .OK)
  | .remove _ eid => copy eid = none ∧ ∀ l, latest eid = some l → l = none
  | .flush _ eid buf =>
    ∃ extent, copy eid = some extent ∧ extent.buf = buf ∧ ∀ l, latest eid = some l → l = some buf
  | .flushed _ eid =>
    ∃ extent, copy eid = some extent ∧ stored eid = some extent.buf ∧
      ∀ l, latest eid = some l → l = some extent.buf

/-- The client is in the call that removes the extent at the server. -/
def ExtentClient.Removing (client : ExtentClient Worker) (eid : ExtentId) : Prop :=
  ∃ t, client.sync_root = some (.remove t eid)

/-- A copy has the content of the extent. An extent that was written exists. -/
def CachedExtentInfo.Of (extent : CachedExtentInfo) (latest : Option (Option Buf)) : Prop :=
  ∀ l, latest = some l → extent.buf = l.getD [] ∧ (extent.is_dirty = true → l = some extent.buf)

/-- The invariant of the copies, where `keeps c eid` says that client `c` keeps the extent. -/
structure CopyInv (keeps : ℕ → ExtentId → Prop) (clients : ℕ → ExtentClient Worker)
    (server : ExtentServer) (latest : ExtentId → Option (Option Buf)) : Prop where
  /-- Only the keeper has a copy. -/
  cached : ∀ c eid extent, (clients c).extent_list eid = some extent → keeps c eid
  /-- Only the keeper is in a function for the extent. -/
  place : ∀ c p, (clients c).sync_root = some p →
    keeps c p.eid ∧ PlaceOk (clients c).extent_list server.content latest p
  /-- A copy has the content of the extent. -/
  copies : ∀ c eid extent, (clients c).extent_list eid = some extent → extent.Of (latest eid)
  /-- The server has the content, unless a copy was written or the extent is being removed. -/
  stored : ∀ eid l, latest eid = some l → server.content eid = l ∨
    (∃ c extent, (clients c).extent_list eid = some extent ∧ extent.is_dirty = true) ∨
    ∃ c, (clients c).Removing eid

namespace CopyInv

variable {keeps : ℕ → ExtentId → Prop} {clients : ℕ → ExtentClient Worker} {server : ExtentServer}
  {latest : ExtentId → Option (Option Buf)} {c t : ℕ} {eid : ExtentId}
  {client : ExtentClient Worker}

/-- The clients have just started. -/
protected theorem start (keeps : ℕ → ExtentId → Prop)
    (hstored : ∀ eid l, latest eid = some l → server.content eid = l) :
    CopyInv keeps (fun _ => .start) server latest where
  cached := nofun
  place := nofun
  copies := nofun
  stored eid l hl := Or.inl (hstored eid l hl)

/-- There may be other keepers of extents that nobody has a copy of or works on. -/
theorem of_keeps (h : CopyInv keeps clients server latest) {keeps' : ℕ → ExtentId → Prop}
    (hcached : ∀ c eid extent, (clients c).extent_list eid = some extent → keeps c eid →
      keeps' c eid)
    (hplace : ∀ c p, (clients c).sync_root = some p → keeps c p.eid → keeps' c p.eid) :
    CopyInv keeps' clients server latest where
  cached c eid extent hcopy := hcached c eid extent hcopy (h.cached c eid extent hcopy)
  place c p hp := ⟨hplace c p hp (h.place c p hp).1, (h.place c p hp).2⟩
  copies := h.copies
  stored := h.stored

/-- A place stays valid when nothing changes for the extent that it is about. -/
theorem placeOk_congr {copy : ExtentId → Option CachedExtentInfo}
    {stored stored' : ExtentId → Option Buf} {latest latest' : ExtentId → Option (Option Buf)}
    {p : Place Worker} (h : PlaceOk copy stored latest p) (hstored : stored' p.eid = stored p.eid)
    (hlatest : latest' p.eid = latest p.eid) : PlaceOk copy stored' latest' p := by
  cases p with
  | get t op eid => exact h
  | getattr t op eid ret buf | fetched t op eid ret buf ret' attr | remove t eid =>
    exact ⟨h.1, fun l hl => h.2 l (hlatest.symm.trans hl)⟩
  | flush w eid buf =>
    obtain ⟨extent, hcopy, hbuf, hwritten⟩ := h
    exact ⟨extent, hcopy, hbuf, fun l hl => hwritten l (hlatest.symm.trans hl)⟩
  | flushed w eid =>
    obtain ⟨extent, hcopy, hbuf, hwritten⟩ := h
    exact ⟨extent, hcopy, hstored.trans hbuf, fun l hl => hwritten l (hlatest.symm.trans hl)⟩

section Act

variable (hunique : ∀ c c' eid, keeps c eid → keeps c' eid → c = c') {extent : CachedExtentInfo}

include hunique

/-- No other client has a copy of an extent that client `c` keeps. -/
theorem eq_of_copy (h : CopyInv keeps clients server latest) (hkeeps : keeps c eid) {c' : ℕ}
    (hcopy : (clients c').extent_list eid = some extent) : c' = c :=
  hunique c' c eid (h.cached c' eid extent hcopy) hkeeps

/-- No other client removes an extent that client `c` keeps. -/
theorem eq_of_removing (h : CopyInv keeps clients server latest) (hkeeps : keeps c eid) {c' : ℕ}
    (hremoving : (clients c').Removing eid) : c' = c := by
  obtain ⟨t, ht⟩ := hremoving
  exact hunique c' c eid (h.place c' _ ht).1 hkeeps

/-- The server has the content of an extent whose keeper has no copy that was written, and does not
remove it. -/
theorem stored_of_clean (h : CopyInv keeps clients server latest) (hkeeps : keeps c eid)
    (hclean : ∀ extent, (clients c).extent_list eid = some extent → extent.is_dirty = false)
    (hremoving : ¬ (clients c).Removing eid) {l : Option Buf} (hl : latest eid = some l) :
    server.content eid = l := by
  rcases h.stored eid l hl with hstored | ⟨c', extent, hcopy, hdirty⟩ | ⟨c', hc'⟩
  · exact hstored
  · obtain rfl := h.eq_of_copy hunique hkeeps hcopy
    rw [hclean extent hcopy] at hdirty
    cases hdirty
  · obtain rfl := h.eq_of_removing hunique hkeeps hc'
    exact absurd hc' hremoving

/-- The server has the content of an extent that its keeper fetches. -/
theorem stored_of_missing (h : CopyInv keeps clients server latest) (hkeeps : keeps c eid)
    (hnone : (clients c).extent_list eid = none)
    (hroot : ∀ t, (clients c).sync_root ≠ some (.remove t eid)) {l : Option Buf}
    (hl : latest eid = some l) : server.content eid = l := by
  refine h.stored_of_clean hunique hkeeps (fun extent hextent => ?_) (fun ⟨t, ht⟩ => hroot t ht) hl
  cases hnone.symm.trans hextent

/-- A client acts on an extent that it keeps: no other client is concerned. What is left to check is
the place that the client goes to and the state of this extent. -/
theorem act (h : CopyInv keeps clients server latest) (hkeeps : keeps c eid)
    {server' : ExtentServer} {latest' : ExtentId → Option (Option Buf)}
    (hbefore : ∀ p, (clients c).sync_root = some p → p.eid = eid)
    (hcopies : ∀ i, i ≠ eid → client.extent_list i = (clients c).extent_list i)
    (hserver : ∀ i, i ≠ eid → server'.content i = server.content i)
    (hlatest : ∀ i, i ≠ eid → latest' i = latest i)
    (hplace : ∀ p, client.sync_root = some p →
      p.eid = eid ∧ PlaceOk client.extent_list server'.content latest' p)
    (hcopy : ∀ extent, client.extent_list eid = some extent → extent.Of (latest' eid))
    (hstored : ∀ l, latest' eid = some l → server'.content eid = l ∨
      (∃ extent, client.extent_list eid = some extent ∧ extent.is_dirty = true) ∨
      client.Removing eid) :
    CopyInv keeps (Function.update clients c client) server' latest' := by
  have hself : Function.update clients c client c = client := Function.update_self c client clients
  have hother : ∀ c', c' ≠ c → Function.update clients c client c' = clients c' :=
    fun c' hc => Function.update_of_ne hc client clients
  -- The copies of the extent, and those of the other extents.
  have hown : ∀ c' extent, (Function.update clients c client c').extent_list eid = some extent →
      c' = c ∧ client.extent_list eid = some extent := by
    intro c' extent hc'
    by_cases hc : c' = c
    · rw [hc, hself] at hc'
      exact ⟨hc, hc'⟩
    · rw [hother c' hc] at hc'
      exact absurd (h.eq_of_copy hunique hkeeps hc') hc
  have hrest : ∀ c' i, i ≠ eid →
      (Function.update clients c client c').extent_list i = (clients c').extent_list i := by
    intro c' i hi
    by_cases hc : c' = c
    · rw [hc, hself]
      exact hcopies i hi
    · rw [hother c' hc]
  refine ⟨fun c' i extent hc' => ?_, fun c' p hp => ?_, fun c' i extent hc' => ?_, fun i l hl => ?_⟩
  · by_cases hi : i = eid
    · subst hi
      rw [(hown c' extent hc').1]
      exact hkeeps
    · rw [hrest c' i hi] at hc'
      exact h.cached c' i extent hc'
  · by_cases hc : c' = c
    · subst hc
      rw [hself] at hp ⊢
      obtain ⟨heid, hok⟩ := hplace p hp
      rw [heid]
      exact ⟨hkeeps, hok⟩
    · -- Any other client is in a function for an extent of its own.
      rw [hother c' hc] at hp ⊢
      obtain ⟨hkeeps', hok⟩ := h.place c' p hp
      have hne : p.eid ≠ eid := by
        intro heq
        rw [heq] at hkeeps'
        exact hc (hunique c' c eid hkeeps' hkeeps)
      exact ⟨hkeeps', placeOk_congr hok (hserver p.eid hne) (hlatest p.eid hne)⟩
  · by_cases hi : i = eid
    · subst hi
      exact hcopy extent (hown c' extent hc').2
    · rw [hrest c' i hi] at hc'
      rw [hlatest i hi]
      exact h.copies c' i extent hc'
  · by_cases hi : i = eid
    · subst hi
      refine (hstored l hl).imp_right (Or.imp (fun hdirty => ?_) fun hremoving => ?_)
      · obtain ⟨extent, hextent, hdirty⟩ := hdirty
        exact ⟨c, extent, by rw [hself]; exact hextent, hdirty⟩
      · exact ⟨c, by rw [hself]; exact hremoving⟩
    · rw [hserver i hi]
      simp only [hrest _ i hi]
      refine (h.stored i l ((hlatest i hi).symm.trans hl)).imp_right (Or.imp_right ?_)
      rintro ⟨c', hc'⟩
      have hc : c' ≠ c := by
        rintro rfl
        obtain ⟨t, ht⟩ := hc'
        exact hi (hbefore _ ht)
      exact ⟨c', by rw [hother c' hc]; exact hc'⟩

/-! ## The steps of the functions -/

/-- A function finds no copy, and starts to fetch the extent. -/
theorem missing (h : CopyInv keeps clients server latest) (hkeeps : keeps c eid)
    (hroot : (clients c).sync_root = none) (hnone : (clients c).extent_list eid = none) (op : Op) :
    CopyInv keeps (Function.update clients c ((clients c).goto (some (.get t op eid)))) server
      latest := by
  have hidle : ∀ p, (clients c).sync_root ≠ some p := fun p hp => by cases hroot.symm.trans hp
  refine h.act hunique hkeeps (fun p hp => absurd hp (hidle p)) (fun _ _ => rfl) (fun _ _ => rfl)
    (fun _ _ => rfl) (fun p hp => ?_) (h.copies c eid) fun l hl => Or.inl ?_
  · cases hp
    exact ⟨rfl, hnone⟩
  · exact h.stored_of_missing hunique hkeeps hnone (fun t => hidle _) hl

/-- A function works on a copy that has the content of the extent, and returns. -/
theorem apply (h : CopyInv keeps clients server latest) (hkeeps : keeps c eid)
    (hbefore : ∀ p, (clients c).sync_root = some p → p.eid = eid) (hextent : extent.Of (latest eid))
    (hstored : extent.is_dirty = false → ∀ l, latest eid = some l → server.content eid = l)
    (op : Op) (now : UInt32) :
    CopyInv keeps
      (Function.update clients c (((clients c).install eid (op.apply now extent)).goto none)) server
      (Function.update latest eid (op.writes (latest eid))) := by
  have hself : (((clients c).install eid (op.apply now extent)).goto none).extent_list eid =
      some (op.apply now extent) := Function.update_self _ _ _
  have hof : (op.apply now extent).Of (op.writes (latest eid)) := by
    cases op with
    | get | getattr => exact hextent
    | put buf =>
      intro l hl
      obtain rfl := Option.some.inj hl
      exact ⟨rfl, fun _ => rfl⟩
  refine h.act hunique hkeeps hbefore (fun i hi => Function.update_of_ne hi _ _) (fun _ _ => rfl)
    (fun i hi => Function.update_of_ne hi _ _) nofun
    (fun extent' hextent' => ?_) fun l hl => ?_
  · rw [Function.update_self, ← Option.some.inj (hself.symm.trans hextent')]
    exact hof
  · rw [Function.update_self] at hl
    cases hdirty : (op.apply now extent).is_dirty with
    | true => exact Or.inr (Or.inl ⟨_, hself, hdirty⟩)
    | false =>
      -- The copy was not written, neither now nor before.
      cases op with
      | get | getattr => exact Or.inl (hstored hdirty l hl)
      | put buf => cases hdirty

/-- A function has fetched the extent, works on the copy and returns. -/
theorem fetched (h : CopyInv keeps clients server latest) {op : Op} {ret ret' : Status} {buf : Buf}
    {attr : Attr} (hroot : (clients c).sync_root = some (.fetched t op eid ret buf ret' attr))
    (now : UInt32) :
    CopyInv keeps
      (Function.update clients c
        (((clients c).install eid (op.apply now ⟨false, attr, buf⟩)).goto none)) server
      (Function.update latest eid (op.writes (latest eid))) := by
  obtain ⟨hkeeps, hnone, hknown⟩ := h.place c _ hroot
  refine h.apply hunique hkeeps (fun p hp => ?_)
    (fun l hl => ⟨(hknown l hl).1, fun hdirty => by cases hdirty⟩) (fun _ l hl => ?_) op now
  · cases hroot.symm.trans hp
    rfl
  · exact h.stored_of_missing hunique hkeeps hnone (fun t ht => by cases hroot.symm.trans ht) hl

/-- A function finds a copy, works on it and returns. -/
theorem found (h : CopyInv keeps clients server latest) (hroot : (clients c).sync_root = none)
    (hcopy : (clients c).extent_list eid = some extent) (op : Op) (now : UInt32) :
    CopyInv keeps (Function.update clients c ((clients c).install eid (op.apply now extent))) server
      (Function.update latest eid (op.writes (latest eid))) := by
  have hkeeps := h.cached c eid extent hcopy
  have hidle : ∀ p, (clients c).sync_root ≠ some p := fun p hp => by cases hroot.symm.trans hp
  have hsame : ((clients c).install eid (op.apply now extent)).goto none =
      (clients c).install eid (op.apply now extent) := by
    unfold ExtentClient.goto ExtentClient.install
    rw [← hroot]
  rw [← hsame]
  refine h.apply hunique hkeeps (fun p hp => absurd hp (hidle p)) (h.copies c eid extent hcopy)
    (fun hclean l hl => ?_) op now
  refine h.stored_of_clean hunique hkeeps (fun extent' hextent' => ?_)
    (fun ⟨t, ht⟩ => hidle _ ht) hl
  rw [← Option.some.inj (hcopy.symm.trans hextent')]
  exact hclean

/-- `remove` drops the copy, and calls the server. -/
theorem removing (h : CopyInv keeps clients server latest) (hroot : (clients c).sync_root = none)
    (hcopy : (clients c).extent_list eid = some extent) {gone : Option (Option Buf)}
    (hgone : ∀ l, gone = some l → l = none) :
    CopyInv keeps (Function.update clients c (((clients c).erase eid).goto (some (.remove t eid))))
      server (Function.update latest eid gone) := by
  have hnone : (((clients c).erase eid).goto (some (.remove t eid))).extent_list eid = none :=
    Function.update_self _ _ _
  refine h.act hunique (h.cached c eid extent hcopy) (fun p hp => by cases hroot.symm.trans hp)
    (fun i hi => Function.update_of_ne hi _ _) (fun _ _ => rfl)
    (fun i hi => Function.update_of_ne hi _ _) (fun p hp => ?_) (fun extent' hextent' => ?_)
    fun _ _ => Or.inr (Or.inr ⟨t, rfl⟩)
  · cases hp
    refine ⟨rfl, hnone, ?_⟩
    rw [Function.update_self]
    exact hgone
  · cases hnone.symm.trans hextent'

/-- The server executes the call that a client is in. -/
theorem rpc (h : CopyInv keeps clients server latest) {now : UInt32} {server' : ExtentServer}
    (hrpc : (clients c).rpc server now = some (client, server')) :
    CopyInv keeps (Function.update clients c client) server' latest := by
  unfold ExtentClient.rpc at hrpc
  split at hrpc
  next t op eid hroot =>
    -- No copy was written, so the server has the content.
    obtain ⟨rfl, rfl⟩ := Prod.mk.inj (Option.some.inj hrpc)
    obtain ⟨hkeeps, hnone⟩ := h.place c _ hroot
    have hstored : ∀ l, latest eid = some l → server.content eid = l := fun l =>
      h.stored_of_missing hunique hkeeps hnone fun t ht => by cases hroot.symm.trans ht
    have hcontent := ExtentServer.content_get server now eid
    refine h.act hunique hkeeps (fun p hp => ?_) (fun _ _ => rfl) (fun i _ => congrFun hcontent i)
      (fun _ _ => rfl) (fun p hp => ?_) (h.copies c eid) fun l hl => Or.inl ?_
    · cases hroot.symm.trans hp
      rfl
    · cases hp
      refine ⟨rfl, hnone, fun l hl => ⟨?_, fun hsome => ?_⟩⟩
      · rw [← hstored l hl]
        exact ExtentServer.get_buf server now eid
      · obtain ⟨v, hv⟩ := Option.ne_none_iff_exists'.mp hsome
        exact (ExtentServer.get_of_content ((hstored l hl).trans hv) now).1
    · rw [hcontent]
      exact hstored l hl
  next t op eid ret buf hroot =>
    obtain ⟨rfl, rfl⟩ := Prod.mk.inj (Option.some.inj hrpc)
    obtain ⟨hkeeps, hnone, hknown⟩ := h.place c _ hroot
    refine h.act hunique hkeeps (fun p hp => ?_) (fun _ _ => rfl) (fun _ _ => rfl) (fun _ _ => rfl)
      (fun p hp => ?_) (h.copies c eid) fun l hl => Or.inl ?_
    · cases hroot.symm.trans hp
      rfl
    · cases hp
      exact ⟨rfl, hnone, hknown⟩
    · exact h.stored_of_missing hunique hkeeps hnone (fun t ht => by cases hroot.symm.trans ht) hl
  next t eid hroot =>
    -- The extent counts as removed since the copy was dropped.
    obtain ⟨rfl, rfl⟩ := Prod.mk.inj (Option.some.inj hrpc)
    obtain ⟨hplace, -, hgone⟩ := h.place c _ hroot
    have hkeeps : keeps c eid := hplace
    refine h.act hunique hkeeps (fun p hp => ?_) (fun _ _ => rfl) (fun i hi => ?_) (fun _ _ => rfl)
      nofun (h.copies c eid) fun l hl => Or.inl ?_
    · cases hroot.symm.trans hp
      rfl
    · rw [ExtentServer.content_remove, Function.update_of_ne hi]
    · rw [ExtentServer.content_remove, Function.update_self]
      exact (hgone l hl).symm
  next w eid buf hroot =>
    -- The server gets the content of the copy.
    obtain ⟨rfl, rfl⟩ := Prod.mk.inj (Option.some.inj hrpc)
    obtain ⟨hplace, extent, hcopy, rfl, hwritten⟩ := h.place c _ hroot
    have hkeeps : keeps c eid := hplace
    refine h.act hunique hkeeps (fun p hp => ?_) (fun _ _ => rfl) (fun i hi => ?_) (fun _ _ => rfl)
      (fun p hp => ?_) (h.copies c eid) fun l hl => Or.inl ?_
    · cases hroot.symm.trans hp
      rfl
    · rw [ExtentServer.content_put, Function.update_of_ne hi]
    · cases hp
      refine ⟨rfl, extent, hcopy, ?_, hwritten⟩
      rw [ExtentServer.content_put, Function.update_self]
    · rw [ExtentServer.content_put, Function.update_self]
      exact (hwritten l hl).symm
  next => cases hrpc

/-- `flush` starts to store a copy that was written. -/
theorem flushing (h : CopyInv keeps clients server latest) {w : Worker}
    (hroot : (clients c).sync_root = none) (hcopy : (clients c).extent_list eid = some extent)
    (hdirty : extent.is_dirty = true) :
    CopyInv keeps (Function.update clients c ((clients c).goto (some (.flush w eid extent.buf))))
      server latest := by
  refine h.act hunique (h.cached c eid extent hcopy) (fun p hp => by cases hroot.symm.trans hp)
    (fun _ _ => rfl) (fun _ _ => rfl) (fun _ _ => rfl) (fun p hp => ?_) (h.copies c eid)
    fun _ _ => Or.inr (Or.inl ⟨extent, hcopy, hdirty⟩)
  cases hp
  exact ⟨rfl, extent, hcopy, rfl, fun l hl => (h.copies c eid extent hcopy l hl).2 hdirty⟩

/-- `flush` drops the copy when the server has its content. -/
theorem dropped (h : CopyInv keeps clients server latest) (hkeeps : keeps c eid)
    (hbefore : ∀ p, (clients c).sync_root = some p → p.eid = eid)
    (hstored : ∀ l, latest eid = some l → server.content eid = l) :
    CopyInv keeps (Function.update clients c (((clients c).erase eid).goto none)) server
      latest := by
  have hnone : (((clients c).erase eid).goto none).extent_list eid = none :=
    Function.update_self _ _ _
  refine h.act hunique hkeeps hbefore (fun i hi => Function.update_of_ne hi _ _) (fun _ _ => rfl)
    (fun _ _ => rfl) nofun (fun extent hextent => ?_)
    fun l hl => Or.inl (hstored l hl)
  cases hnone.symm.trans hextent

/-- `flush` has stored the copy, and drops it. -/
theorem flushed (h : CopyInv keeps clients server latest) {w : Worker}
    (hroot : (clients c).sync_root = some (.flushed w eid)) :
    CopyInv keeps (Function.update clients c (((clients c).erase eid).goto none)) server
      latest := by
  obtain ⟨hkeeps, extent, -, hcontent, hwritten⟩ := h.place c _ hroot
  refine h.dropped hunique hkeeps (fun p hp => ?_) fun l hl => hcontent.trans (hwritten l hl).symm
  cases hroot.symm.trans hp
  rfl

/-- `flush` drops a copy that was not written. -/
theorem clean (h : CopyInv keeps clients server latest) (hroot : (clients c).sync_root = none)
    (hcopy : (clients c).extent_list eid = some extent) (hclean : extent.is_dirty = false) :
    CopyInv keeps (Function.update clients c ((clients c).erase eid)) server latest := by
  have hkeeps := h.cached c eid extent hcopy
  have hidle : ∀ p, (clients c).sync_root ≠ some p := fun p hp => by cases hroot.symm.trans hp
  have hsame : ((clients c).erase eid).goto none = (clients c).erase eid := by
    unfold ExtentClient.goto ExtentClient.erase
    rw [← hroot]
  rw [← hsame]
  refine h.dropped hunique hkeeps (fun p hp => absurd hp (hidle p)) fun l hl => ?_
  refine h.stored_of_clean hunique hkeeps (fun extent' hextent' => ?_)
    (fun ⟨t, ht⟩ => hidle _ ht) hl
  rw [← Option.some.inj (hcopy.symm.trans hextent')]
  exact hclean

end Act

end CopyInv

end SimpleDfs.Extent
