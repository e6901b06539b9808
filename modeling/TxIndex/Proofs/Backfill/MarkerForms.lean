import TxIndex.Proofs.Access.Relations
import TxIndex.Proofs.Backfill.Acceptance
import TxIndex.Proofs.Backfill.Calls

/-!
# The forms of a marker

A marker is stored with a tag or without, and either form is read as that marker and as no other
one; everything else is refused (`Marker.decode_eq_ok_iff`, `Marker.decode_eq_error_iff`).

What reads the marker through `readMarker` alone cannot tell the forms apart. Two stores that differ
in nothing but the form of the marker (`Store.Respelled`) stay so under all calls that are made, and
answer them alike; so a backfill does on the one what it does on the other (`respects_run`). Nothing
but a scan of the bookkeeping would see the difference, and there is none.
-/

namespace TxIndex

/-! ## What is read as a marker -/

namespace Marker

/-- A body has 8 bytes or 32, and everything of these lengths is one. -/
theorem ofBody?_eq_none_iff {bytes : Bytes} :
    ofBody? bytes = none ↔ bytes.length ≠ 8 ∧ bytes.length ≠ 32 := by
  unfold ofBody?
  split
  · next hlen => simp [hlen]
  · next hlen =>
    split
    · next hlen' => simp [hlen']
    · next hlen' => simp [hlen, hlen']

/-- Why bytes are refused as a marker. -/
inductive Refused : Bytes → Defect → Prop where
  | length {bytes : Bytes} (h : bytes.length ∉ [8, 9, 32, 33]) :
      Refused bytes (.markerLength bytes)
  /-- What follows the tag would be a marker with another tag. -/
  | tag {tag : UInt8} {m : Marker} (h : m.tag ≠ tag) :
      Refused (tag :: m.body) (.markerTag tag m.body.length)

/-- **What is refused, and why.** Either the length is that of no form of a marker, or what follows
the first byte is a body and the first byte is not its tag. There is no third case: the length of a
body decides which tag it should have. -/
theorem decode_eq_error_iff {bytes : Bytes} {defect : Defect} :
    decode bytes = .error defect ↔ Refused bytes defect := by
  refine ⟨fun h => ?_, fun h => ?_⟩
  · unfold decode at h
    cases hbytes : ofBody? bytes with
    | some m =>
      rw [hbytes] at h
      cases h
    | none =>
      rw [hbytes] at h
      obtain ⟨hheight, hcursor⟩ := ofBody?_eq_none_iff.1 hbytes
      match bytes with
      | [] =>
        cases h
        exact .length (by simp)
      | tag :: body =>
        cases hbody : ofBody? body with
        | none =>
          simp only [hbody] at h
          cases h
          -- Neither the bytes nor what follows the first of them are as long as a body.
          obtain ⟨hheight', hcursor'⟩ := ofBody?_eq_none_iff.1 hbody
          rw [List.length_cons] at hheight hcursor
          refine .length ?_
          simp only [List.length_cons, List.mem_cons, List.not_mem_nil, or_false]
          omega
        | some m =>
          simp only [hbody] at h
          split at h
          · cases h
          · next htag =>
            cases h
            rw [ofBody?_eq_some_iff.1 hbody]
            exact .tag htag
  · cases h with
    -- No body is found, neither in the bytes nor behind the first of them.
    | length h =>
      simp only [List.mem_cons, List.not_mem_nil, or_false] at h
      unfold decode
      rw [ofBody?_eq_none_iff.2 (by omega)]
      match bytes with
      | [] => rfl
      | tag :: body =>
        rw [List.length_cons] at h
        simp only [ofBody?_eq_none_iff.2 (show body.length ≠ 8 ∧ body.length ≠ 32 by omega)]
    | @tag tag m h =>
      -- With a tag in front a body is too long to be one.
      have hlen := m.length_body_eq
      have htagged : ofBody? (tag :: m.body) = none := by
        refine ofBody?_eq_none_iff.2 ?_
        rw [List.length_cons]
        omega
      have hbody : ofBody? m.body = some m := ofBody?_eq_some_iff.2 rfl
      unfold decode
      rw [htagged]
      simp only [hbody, if_neg h]

/-- A marker that is read from its tagged form is written as it was. The length tells the tagged
form from the other one. -/
theorem encode_of_decode {bytes : Bytes} {m : Marker} (h : decode bytes = .ok m)
    (hlen : bytes.length = 9 ∨ bytes.length = 33) : m.encode = bytes := by
  rcases decode_eq_ok_iff.1 h with rfl | rfl
  · have hbody := m.length_body_eq
    omega
  · rfl

end Marker

/-! ## The same marker in another form -/

/-- What is found under the key of the marker, read. -/
def Marker.found : Option Bytes → Except Defect (Option Marker)
  | none => .ok none
  | some bytes => (Marker.decode bytes).map some

/-- The same bytes or none, or two forms of one marker. -/
inductive Marker.Respelled : Option Bytes → Option Bytes → Prop where
  | same (stored? : Option Bytes) : Respelled stored? stored?
  | forms {bytes bytes' : Bytes} {m : Marker} (h : Marker.decode bytes = .ok m)
      (h' : Marker.decode bytes' = .ok m) : Respelled (some bytes) (some bytes')

namespace Marker.Respelled

variable {stored? stored'? : Option Bytes}

theorem found_eq (h : Marker.Respelled stored? stored'?) :
    Marker.found stored? = Marker.found stored'? := by
  cases h with
  | same => rfl
  | forms h h' => rw [Marker.found, Marker.found, h, h']

theorem eq_none_iff (h : Marker.Respelled stored? stored'?) :
    stored? = none ↔ stored'? = none := by
  cases h with
  | same => exact Iff.rfl
  | forms => simp

/-- A marker that is staged hides a committed one, in whichever forms they are. -/
theorem or {base? base'? : Option Bytes} (h : Marker.Respelled stored? stored'?)
    (hbase : Marker.Respelled base? base'?) :
    Marker.Respelled (stored?.or base?) (stored'?.or base'?) := by
  cases h with
  | same =>
    cases stored? with
    | none => exact hbase
    | some bytes => exact .same _
  | forms h h' => exact .forms h h'

end Marker.Respelled

/-- The tables hold the same, but for the form of the marker. Writing to both, or laying the one
pair over another, keeps them so. -/
structure Table.Respelled (t t' : Table) : Prop where
  get?_of_ne : ∀ key, key ≠ Key.marker → t.get? key = t'.get? key
  marker : Marker.Respelled (t.get? Key.marker) (t'.get? Key.marker)

namespace Table.Respelled

variable {t t' : Table}

theorem refl (t : Table) : t.Respelled t :=
  ⟨fun _ _ => rfl, .same _⟩

/-- The marker of a table in another form. -/
theorem of_decode {bytes bytes' : Bytes} {m : Marker} (hget : t.get? Key.marker = some bytes)
    (h : Marker.decode bytes = .ok m) (h' : Marker.decode bytes' = .ok m) :
    t.Respelled (t.insert Key.marker bytes') where
  get?_of_ne key hne := by rw [Table.get?_insert, if_neg hne.symm]
  marker := by
    rw [hget, Table.get?_insert_self]
    exact .forms h h'

/-- To write the same bytes under a key makes two respelled tables no more different, and under that
of the marker it makes them alike. -/
theorem insert (h : t.Respelled t') (key value : Bytes) :
    (t.insert key value).Respelled (t'.insert key value) where
  get?_of_ne other hne := by rw [Table.get?_insert, Table.get?_insert, h.get?_of_ne other hne]
  marker := by
    rw [Table.get?_insert, Table.get?_insert]
    split
    · exact .same _
    · exact h.marker

theorem overlay {top top' : Table} (h : t.Respelled t') (htop : top.Respelled top') :
    (t.overlay top).Respelled (t'.overlay top') where
  get?_of_ne key hne := by
    rw [Table.get?_overlay, Table.get?_overlay, h.get?_of_ne key hne, htop.get?_of_ne key hne]
  marker := by
    rw [Table.get?_overlay, Table.get?_overlay]
    exact htop.marker.or h.marker

theorem get?_eq_none_iff (h : t.Respelled t') (key : Bytes) :
    t.get? key = none ↔ t'.get? key = none := by
  by_cases hkey : key = Key.marker
  · rw [hkey]
    exact h.marker.eq_none_iff
  · rw [h.get?_of_ne key hkey]

/-- Respelled tables have the same keys, and so as many of them. A loop that is bounded by the size
of the store is bounded alike on both. -/
theorem size_eq (h : t.Respelled t') : t.size = t'.size :=
  Nat.le_antisymm (Table.size_le_size fun key => mt (h.get?_eq_none_iff key).2)
    (Table.size_le_size fun key => mt (h.get?_eq_none_iff key).1)

/-- Once the marker is the same, the tables are. This is what writing a marker over it comes to. -/
theorem eq_of_marker (h : t.Respelled t') (hmarker : t.get? Key.marker = t'.get? Key.marker) :
    t = t' := by
  refine Table.ext_get? fun key => ?_
  by_cases hkey : key = Key.marker
  · rw [hkey]
    exact hmarker
  · exact h.get?_of_ne key hkey

/-- The entries whose keys begin with the tag of an index are the same: the marker is in another
space. -/
theorem listing_eq (h : t.Respelled t') {space : Space} (hspace : space ≠ .metadata)
    (start : Bytes) : t.listing start space.tag = t'.listing start space.tag := by
  have hmarker : space.tag.isPrefixOf Key.marker = false := by
    rw [← Bool.not_eq_true, List.isPrefixOf_iff_prefix, Key.marker, Space.tag_prefix_key_iff]
    exact hspace
  have hfilter : t.filter (Table.inRange start space.tag) =
      t'.filter (Table.inRange start space.tag) := by
    -- The tables differ at the marker alone, and the marker is in neither index.
    refine Table.ext_get? fun key => ?_
    rw [Table.get?_filter, Table.get?_filter]
    split
    · next hin =>
      refine h.get?_of_ne key fun hkey => ?_
      rw [hkey, Table.inRange, hmarker, Bool.and_false] at hin
      cases hin
    · rfl
  exact congrArg Table.entries hfilter

end Table.Respelled

/-- A backfill is due on the one as on the other. -/
theorem Table.Respelled.dueFrom_eq {t t' : Table} (h : t.Respelled t') :
    Backfill.dueFrom t = Backfill.dueFrom t' := by
  have hmarker := h.marker
  unfold Backfill.dueFrom
  generalize t.get? Key.marker = stored? at hmarker ⊢
  generalize t'.get? Key.marker = stored'? at hmarker ⊢
  cases hmarker with
  | same => rfl
  | forms h h' => simp only [h, h']

/-- The stores hold the same, staged and committed, but for the form of the marker. What is put,
committed, aborted or opened anew on both leaves them so, and all that is read from them is the same
but the bytes of the marker. -/
structure Store.Respelled (s s' : Store) : Prop where
  committed : s.committed.Respelled s'.committed
  staged : s.staged.Respelled s'.staged
  commits : s.commits = s'.commits

namespace Store.Respelled

variable {s s' : Store}

/-- The committed marker in another form. -/
theorem of_decode {bytes bytes' : Bytes} {m : Marker}
    (hget : s.committed.get? Key.marker = some bytes) (h : Marker.decode bytes = .ok m)
    (h' : Marker.decode bytes' = .ok m) :
    s.Respelled { s with committed := s.committed.insert Key.marker bytes' } :=
  ⟨.of_decode hget h h', .refl _, rfl⟩

theorem view (h : s.Respelled s') : s.view.Respelled s'.view :=
  h.committed.overlay h.staged

theorem put (h : s.Respelled s') (key value : Bytes) : (s.put key value).Respelled (s'.put key value) :=
  ⟨h.committed, h.staged.insert key value, h.commits⟩

theorem commit (h : s.Respelled s') : s.commit.Respelled s'.commit :=
  ⟨h.view, .refl _, congrArg (· + 1) h.commits⟩

theorem abort (h : s.Respelled s') : s.abort.Respelled s'.abort :=
  ⟨h.committed, .refl _, h.commits⟩

theorem reopen (h : s.Respelled s') : s.reopen.Respelled s'.reopen :=
  ⟨h.committed, .refl _, rfl⟩

theorem get?_of_ne (h : s.Respelled s') {key : Bytes} (hne : key ≠ Key.marker) :
    s.get? key = s'.get? key := by
  rw [← Store.get?_view, ← Store.get?_view]
  exact h.view.get?_of_ne key hne

theorem found_eq (h : s.Respelled s') :
    Marker.found (s.get? Key.marker) = Marker.found (s'.get? Key.marker) := by
  rw [← Store.get?_view, ← Store.get?_view]
  exact h.view.marker.found_eq

/-- A scan of an index gives the same page. One of the bookkeeping would not. -/
theorem scan_eq (h : s.Respelled s') {space : Space} (hspace : space ≠ .metadata) (start : Bytes)
    (limit : Nat) : s.scan start space.tag limit = s'.scan start space.tag limit := by
  rw [Store.scan_eq_take_listing, Store.scan_eq_take_listing, h.view.listing_eq hspace]

end Store.Respelled

/-! ## The calls -/

namespace Access

open Respects

/-- Reading the marker is one call, and what it answers depends on what is found under the key once
it is read. -/
theorem readMarker_eq : readMarker =
    (callStore .get fun s => (Marker.found (s.get? Key.marker), s)) >>= ofStored := by
  funext faults b
  unfold readMarker get
  rw [bind_apply, bind_apply]
  unfold callStore
  cases faults.store .get (b.calls.store .get) with
  | some cause => rfl
  | none =>
    cases hget : b.store.get? Key.marker with
    | none =>
      simp only [hget]
      rfl
    | some bytes =>
      simp only [hget]
      show (some <$> ofStored (Marker.decode bytes)) faults _ =
        ofStored ((Marker.decode bytes).map some) faults _
      cases Marker.decode bytes <;> rfl

/-- Reading the marker answers alike on respelled stores, since two forms of one marker are read as
that marker. -/
theorem respects_readMarker : Respects Store.Respelled readMarker := by
  rw [readMarker_eq]
  have hclosed : Closed fun _ => Respects Store.Respelled := closed
  exact hclosed.bind (.callStore (fun _ _ h => h.found_eq) fun _ _ h => h) fun _ =>
    hclosed.ofStored _

theorem respects_get {key : Bytes} (hne : key ≠ Key.marker) :
    Respects Store.Respelled (get key) :=
  .callStore (fun _ _ h => h.get?_of_ne hne) fun _ _ h => h

theorem respects_scan {space : Space} (hspace : space ≠ .metadata) (start : Bytes) (limit : Nat) :
    Respects Store.Respelled (scan start space.tag limit) :=
  .callStore (fun _ _ h => h.scan_eq hspace start limit) fun _ _ h => h

theorem respects_put (key value : Bytes) : Respects Store.Respelled (put key value) :=
  .callStore (fun _ _ _ => rfl) fun _ _ h => h.put key value

theorem respects_commit : Respects Store.Respelled commit :=
  .callStore (fun _ _ _ => rfl) fun _ _ h => h.commit

theorem respects_abort : Respects Store.Respelled abort :=
  fun _ _ _ hb => .ok ⟨hb.store.abort, hb.calls⟩

theorem respects_readBatch (codec : Codec) (h : Height) :
    Respects Store.Respelled (readBatch codec h) :=
  closed.readBatch codec (respects_get (Key.height_ne_marker h))

end Access

/-! ## The backfill -/

namespace Backfill

open Access (Respects EndsAlike)

/-- A merge reads no marker, and what it writes does not depend on one. -/
theorem ofCalls_respects (codec : Codec) (version : UInt16) :
    OfCalls (fun _ => Respects Store.Respelled) codec version where
  toClosed := Respects.closed
  getBatch h := Access.respects_get (Key.height_ne_marker h)
  putBatch _ := Access.respects_put _ _
  putMarker _ := Access.respects_put _ _
  commit := Access.respects_commit

/-- **A backfill cannot tell the forms of a marker apart.** It ends alike on respelled stores, with
the same faults, and leaves them respelled. -/
theorem respects_run (codec : Codec) (config : Config) (lastAccepted : Height) :
    Respects Store.Respelled (run codec config lastAccepted) :=
  (ofCalls_respects codec config.codecVersion).run Respects.isLocal
    (fun start limit => Access.respects_scan (by decide) start limit) Access.respects_readMarker
    lastAccepted

end Backfill

end TxIndex
