import TxIndex.Proofs.Backfill.Opening
import TxIndex.Proofs.Backfill.Verdicts

/-!
# Which stores can be opened

Without faults, opening looks at the marker first. If it cannot be read, that is the error; if it
tells that the index by height is complete, nothing else is looked at; otherwise the first entry to
come that has a flaw decides (`openStore_iff_no_flaw`). The checkpoints that are made on the way do
not change what is found (`mergeList_eq_mergeAll`).
-/

namespace TxIndex

/-! ## Markers -/

/-- A marker is read from its body, with or without the tag, and from nothing else. -/
theorem Marker.decode_eq_ok_iff {bytes : Bytes} {m : Marker} :
    Marker.decode bytes = .ok m ↔ bytes = m.body ∨ bytes = m.encode := by
  refine ⟨fun h => ?_, fun h => ?_⟩
  · unfold decode at h
    cases hbody : ofBody? bytes with
    | some other =>
      rw [hbody] at h
      cases h
      exact .inl (ofBody?_eq_some_iff.1 hbody)
    | none =>
      rw [hbody] at h
      -- No body, so the first byte has to be a tag, and that of the body behind it.
      match bytes with
      | [] => cases h
      | tag :: rest =>
        cases hrest : ofBody? rest with
        | none =>
          simp only [hrest] at h
          cases h
        | some other =>
          simp only [hrest] at h
          split at h
          · next htag =>
            cases h
            exact .inr (by rw [encode, htag, ofBody?_eq_some_iff.1 hrest])
          · cases h
  · rcases h with rfl | rfl
    · unfold decode
      rw [ofBody?_eq_some_iff.2 rfl]
    · exact decode_encode m

/-- The bytes are no marker, neither with a tag nor without. -/
def Marker.Malformed (bytes : Bytes) : Prop :=
  ∀ m : Marker, bytes ≠ m.body ∧ bytes ≠ m.encode

/-- Malformed bytes are refused, for whatever is read as a marker is one of the two forms of it. -/
theorem Marker.Malformed.decode {bytes : Bytes} (h : Marker.Malformed bytes) :
    ∃ defect, Marker.decode bytes = .error defect := by
  cases hdecode : Marker.decode bytes with
  | error defect => exact ⟨defect, rfl⟩
  | ok m =>
    rcases Marker.decode_eq_ok_iff.1 hdecode with hbody | hencode
    · exact absurd hbody (h m).1
    · exact absurd hencode (h m).2

/-- Whatever is wrong with the bytes, the error speaks of the progress marker. -/
theorem Marker.subject_of_decode_eq_error {bytes : Bytes} {defect : Defect}
    (h : Marker.decode bytes = .error defect) : defect.subject = "progress marker" := by
  unfold decode at h
  split at h
  · cases h
  · split at h
    · cases h
      rfl
    · split at h
      · cases h
        rfl
      · split at h
        · cases h
        · cases h
          rfl

namespace Backfill

variable {codec : Codec} {config : Config} {p : Progress} {s : Store} {start : Bytes}

/-! ## Merging in a store -/

/-- Whether a merge succeeds does not depend on the marker, since a merge does not read it. -/
theorem mergeAll_markedAt {version : UInt16} {t : Table} {cursor : TxId} {entries : List Entry} :
    (mergeAll codec version (markedAt t cursor) entries).map (fun _ => ()) =
      (mergeAll codec version t entries).map fun _ => () := by
  unfold markedAt
  rw [mergeAll_insert_marker]
  cases mergeAll codec version t entries <;> rfl

/-- A list of entries is merged, or fails to be, as if there were no checkpoints: these put a marker
over what has been merged so far, and the next entry does not look at it. -/
theorem mergeList_eq_mergeAll (entries : List Entry) :
    (mergeList codec config entries p s).1.map (fun _ => ()) =
      (mergeAll codec config.codecVersion s.view entries).map fun _ => () := by
  induction entries generalizing p s with
  | nil => rfl
  | cons e entries ih =>
    rw [mergeList_cons, mergeAll_cons]
    cases hitem : readItem codec e with
    | error cause =>
      rw [mergeOne_of_read_error hitem, mergeInto, hitem]
      rfl
    | ok item =>
      cases hext : extension codec config.codecVersion s.view item.record.height item.tx with
      | error cause =>
        have hinto : mergeInto codec config.codecVersion s.view e = .error cause := by
          rw [mergeInto, hitem]
          show (extension codec config.codecVersion s.view item.record.height item.tx >>= _) = _
          rw [hext]
          rfl
        rw [mergeOne_of_extension_error hitem hext, hinto]
        rfl
      | ok batch? =>
        -- The entry can be merged. With a checkpoint the view is that of the table with a marker.
        have hone := mergeOne_of_extension (p := p) hitem hext
        obtain ⟨cursor, u, -, hinto, hview⟩ := mergeInto_of_mergeOne hone
        rw [hone, hinto]
        show (mergeList codec config entries _ (settle config item batch? p s)).1.map _ =
          (mergeAll codec config.codecVersion u entries).map _
        rw [ih]
        rcases hview with ⟨hview, -⟩ | ⟨hview, -⟩
        · rw [hview]
        · rw [hview, mergeAll_markedAt]

end Backfill

/-! ## Opening -/

namespace Repository

open Backfill

variable {codec : Codec} {config : Config} {lastAccepted : Height} {s : Store} {start : Bytes}

/-- A marker that cannot be read is the error, and nothing but the one call has been made. In
particular no record is looked at, so an unreadable marker hides all other flaws. -/
theorem openStore_of_malformed {bytes : Bytes} {defect : Defect} (calls : Calls)
    (hget : s.get? Key.marker = some bytes) (hdecode : Marker.decode bytes = .error defect) :
    openStore codec config lastAccepted Faults.none ⟨s, calls⟩ =
      .error (.corruption defect) ⟨s, calls.addStore .get⟩ := by
  have hread : Access.readMarker Faults.none ⟨s, calls⟩ =
      .error (.corruption defect) ⟨s, calls.addStore .get⟩ := by
    unfold Access.readMarker Access.get
    rw [Access.bind_apply, Access.callStore_of_clear rfl]
    simp only [hget, hdecode]
    rfl
  unfold openStore
  rw [Access.bind_apply, Backfill.run_eq, Access.bind_apply, hread]

/-- Where records are to be merged, opening ends as their merge does. The merge is on the table that
the handle reads; the cap, the pages and the accepted height are not in it. -/
theorem exists_runs_openStore_of_mergeAll (codec : Codec) (config : Config) (lastAccepted : Height)
    (hdue : dueFrom s.view = some start) :
    ∃ outcome s', Access.Runs (openStore codec config lastAccepted) s outcome s' ∧
      outcome.map (fun _ => ()) =
        (mergeAll codec config.codecVersion s.view (toCome start s.view)).map fun _ => () := by
  obtain ⟨marker?, hread, hstart⟩ := runs_readMarker_of_dueFrom hdue
  have hpages := runs_mergePages codec config start { report := { state := .ofMarker marker? } } s
  rw [← mergeList_eq_mergeAll (p := { report := { state := .ofMarker marker? } })]
  rcases hmerge : mergeList codec config (toCome start s.view)
    { report := { state := .ofMarker marker? } } s with ⟨outcome, s₁⟩
  cases outcome with
  -- Behind a merge that succeeds there are just two calls, and without faults both succeed.
  | ok p₁ => exact ⟨_, _, runs_openStore (runs_run_of_mergeList lastAccepted hread hstart hmerge), rfl⟩
  | error cause =>
    rw [hmerge] at hpages
    have hrun : Access.Runs (Backfill.run codec config lastAccepted) s (.error cause) s₁ := by
      rw [run_eq]
      refine .bind hread ?_
      rw [proceed_of_start? hstart]
      exact .bind_error hpages
    exact ⟨.error cause, s₁, .bind_error hrun, rfl⟩

/-- In a store of a possible size it ends as the checks of the entries do, one by one and each on
the table as it was at first. -/
theorem exists_runs_openStore_of_verdicts (codec : Codec) (config : Config) (lastAccepted : Height)
    (hdue : dueFrom s.view = some start) (hroom : weight s.view < capacity 8) :
    ∃ outcome s', Access.Runs (openStore codec config lastAccepted) s outcome s' ∧
      outcome.map (fun _ => ()) =
        (toCome start s.view).forM (verdict codec config.codecVersion s.view) := by
  rw [← mergeAll_toCome_eq_verdicts codec config.codecVersion start hroom]
  exact exists_runs_openStore_of_mergeAll codec config lastAccepted hdue

/-- **Opening accepts the stores without a flaw and reports the first one.** Without faults, on any
data under any keys: a marker that cannot be read is the error, and the store is left as it is; a
complete marker is all that is read; otherwise opening succeeds just if no entry from the start on
has a flaw, and fails with the flaw of the first one that has. The store has fewer than `2 ^ 64`
bytes in all, as any store that fits into an address space. -/
theorem openStore_iff_no_flaw (codec : Codec) (config : Config) (lastAccepted : Height) (s : Store)
    (calls : Calls) :
    (∀ bytes, s.get? Key.marker = some bytes → Marker.Malformed bytes →
      ∃ defect, defect.subject = "progress marker" ∧
        openStore codec config lastAccepted Faults.none ⟨s, calls⟩ =
          .error (.corruption defect) ⟨s, calls.addStore .get⟩) ∧
    (∀ height, CompleteThrough s.view height →
      openStore codec config lastAccepted Faults.none ⟨s, calls⟩ =
        .ok { codec, config, lastBackfill := { state := .done height } }
          ⟨s, calls.addStore .get⟩) ∧
    ∀ start, dueFrom s.view = some start → weight s.view < capacity 8 →
      ((∃ r b, openStore codec config lastAccepted Faults.none ⟨s, calls⟩ = .ok r b) ↔
        ∀ e ∈ toCome start s.view, ∀ cause, ¬ Flaw codec config.codecVersion s.view e cause) ∧
      ∀ cause, (∃ b, openStore codec config lastAccepted Faults.none ⟨s, calls⟩ = .error cause b) ↔
        ∃ upto e rest, toCome start s.view = upto ++ e :: rest ∧
          (∀ d ∈ upto, ∀ other, ¬ Flaw codec config.codecVersion s.view d other) ∧
          Flaw codec config.codecVersion s.view e cause := by
  refine ⟨fun bytes hget hmalformed => ?_, fun height hcomplete => openStore_of_complete hcomplete rfl,
    fun start hdue hroom => ?_⟩
  · obtain ⟨defect, hdecode⟩ := hmalformed.decode
    exact ⟨defect, Marker.subject_of_decode_eq_error hdecode, openStore_of_malformed calls hget hdecode⟩
  · obtain ⟨outcome, s', hruns, hverdicts⟩ :=
      exists_runs_openStore_of_verdicts codec config lastAccepted hdue hroom
    have htag : ∀ e ∈ toCome start s.view, Space.txById.tag <+: e.key := fun e he =>
      (Table.mem_listing_iff.1 he).2.2
    rw [← verdicts_eq_ok_iff htag, ← hverdicts]
    simp only [← verdicts_eq_error_iff htag, ← hverdicts]
    -- The run has one outcome, so it decides both statements.
    obtain ⟨b, hopen, -⟩ := hruns.eq_ending calls
    rw [hopen]
    cases outcome with
    | ok r =>
      refine ⟨⟨fun _ => rfl, fun _ => ⟨r, b, rfl⟩⟩, fun cause => ⟨fun h => ?_, fun h => (nomatch h)⟩⟩
      obtain ⟨b', h⟩ := h
      cases h
    | error flaw =>
      refine ⟨⟨fun h => ?_, fun h => (nomatch h)⟩, fun cause => ⟨fun h => ?_, fun h => ?_⟩⟩
      · obtain ⟨r, b', h⟩ := h
        cases h
      · obtain ⟨b', h⟩ := h
        cases h
        rfl
      · cases h
        exact ⟨b, rfl⟩

/-- A record is truncated behind one that can be merged. The header of a record has twelve bytes, so
the one byte that is left is refused for its length, and nothing that comes later matters. -/
theorem openStore_iff_no_flaw_truncated :
    ∃ b, openStore {} Sample.smallSteps 9 Faults.none
        ⟨Sample.store.put (Key.tx (Sample.id 2)) [7], {}⟩ =
      .error (.corruption (.recordTooShort 1)) b := by
  let s := Sample.store.put (Key.tx (Sample.id 2)) [7]
  have hdue : dueFrom s.view = some (Space.txById.key []) := by decide +kernel
  have hentries : toCome (Space.txById.key []) s.view =
      [⟨Key.tx (Sample.id 1), Sample.record 5 (Sample.tx 1)⟩, ⟨Key.tx (Sample.id 2), [7]⟩] := by
    decide +kernel
  -- One byte is no header, whatever the batch is.
  have hflaw : Flaw {} 0 s.view ⟨Key.tx (Sample.id 2), [7]⟩ (.corruption (.recordTooShort 1)) :=
    .short rfl (by decide)
  refine (((openStore_iff_no_flaw {} Sample.smallSteps 9 s {}).2.2 _ hdue (by decide +kernel)).2 _).2
    ⟨[_], _, [], hentries, fun d hd => ?_, hflaw⟩
  rw [List.mem_singleton] at hd
  subst hd
  exact (verdict_eq_ok_iff (List.prefix_append _ _)).1 (by decide +kernel)

end Repository

end TxIndex
