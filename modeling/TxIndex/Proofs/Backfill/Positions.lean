import TxIndex.Proofs.Access.Commits
import TxIndex.Proofs.Backfill.Accounts
import TxIndex.Proofs.Backfill.Calls

/-!
# Where a backfill stands

The marker tells how far a backfill has come: no cursor yet, a cursor, or complete. One attempt
moves it from commit to commit through the entries to come. How many commits there are up to an
entry is told by the sizes of the payloads (`cuts`); so two attempts on the same data with the same
settings are comparable by how often they have committed (`Left.notBehind`).

An attempt goes on with the entry at its cursor, so its first commit may leave the cursor where it
is. With the second one there is an entry before the last checkpoint
(`Anchored.exists_checkpointed`), and the cursor has moved.
-/

namespace TxIndex

open Access (Lands)

namespace Backfill

variable {codec : Codec} {config : Config} {p p' : Progress} {s s' : Store} {start : Bytes}
  {lastAccepted : Height} {faults : Faults} {calls : Calls} {b : Backend} {cause : Error}

/-! ## Cursors -/

/-- The cursor that the marker of a table tells, if it tells one. -/
def cursorOf (t : Table) : Option TxId :=
  match t.get? Key.marker with
  | none => none
  | some bytes =>
    match Marker.decode bytes with
    | .ok (.inProgress cursor) => some cursor
    | .ok (.complete _) | .error _ => none

/-- Where `t` has a cursor, `t'` has one that is not before it in the order of the keys, or it is
complete. -/
def NotBehind (t t' : Table) : Prop :=
  ∀ cursor, cursorOf t = some cursor →
    (∃ height, CompleteThrough t' height) ∨
      ∃ cursor', cursorOf t' = some cursor' ∧ ¬ Key.tx cursor' < Key.tx cursor

/-- `t'` has a cursor, and it is behind that of `t`, if `t` has one. -/
def Further (t t' : Table) : Prop :=
  Option.lt (fun cursor cursor' => Key.tx cursor < Key.tx cursor') (cursorOf t) (cursorOf t')

theorem cursorOf_markedAt (t : Table) (cursor : TxId) :
    cursorOf (markedAt t cursor) = some cursor := by
  unfold cursorOf markedAt
  rw [Table.get?_insert_self]
  simp only [Marker.decode_encode]

/-- Where there is a cursor, the backfill is due, and it goes on with the key at the cursor. -/
theorem dueFrom_of_cursorOf {t : Table} {cursor : TxId} (h : cursorOf t = some cursor) :
    dueFrom t = some (Key.tx cursor) := by
  unfold cursorOf at h
  unfold dueFrom
  -- Both functions look at the marker and at nothing else.
  generalize t.get? Key.marker = stored? at h ⊢
  cases stored? with
  | none => cases h
  | some bytes =>
    dsimp only at h ⊢
    generalize Marker.decode bytes = read at h ⊢
    cases read with
    | error defect => cases h
    | ok m =>
      cases m with
      | complete height => cases h
      | inProgress found =>
        cases h
        rfl

theorem NotBehind.refl (t : Table) : NotBehind t t :=
  fun cursor h => .inr ⟨cursor, h, Bytes.lt_irrefl _⟩

/-! ## How often a merge commits -/

/-- How many checkpoints a merge of the entries makes, where payloads of `pending` bytes have been
merged since the last one. -/
def cuts (cap pending : Nat) (entries : List Entry) : Nat :=
  (plan cap pending entries).count .committed

/-- The first entry is a cut if it takes the sum over the cap; the others are cut with the count
that it leaves. -/
theorem cuts_cons (cap pending : Nat) (e : Entry) (entries : List Entry) :
    cuts cap pending (e :: entries) =
      (if cap < pending + payloadSize e then 1 else 0) +
        cuts cap (pendingAfter cap pending e) entries := by
  show (notesOf cap pending e ++ plan cap _ entries).count Milestone.committed = _
  rw [List.count_append, count_notesOf]
  rfl

/-- There is at most one checkpoint for an entry. So with two checkpoints there are two entries, and
the cursor is not at the first of them any more. -/
theorem cuts_le_length (cap pending : Nat) (entries : List Entry) :
    cuts cap pending entries ≤ entries.length := by
  induction entries generalizing pending with
  | nil => exact Nat.zero_le 0
  | cons e entries ih =>
    have hrest := ih (pendingAfter cap pending e)
    rw [cuts_cons, List.length_cons]
    split <;> omega

theorem cuts_le_append (cap pending : Nat) (first second : List Entry) :
    cuts cap pending first ≤ cuts cap pending (first ++ second) := by
  induction first generalizing pending with
  | nil => exact Nat.zero_le _
  | cons e first ih =>
    rw [List.cons_append, cuts_cons, cuts_cons]
    exact Nat.add_le_add_left (ih _) _

/-- An entry more is a checkpoint more if one is due with it. -/
theorem cuts_concat {done : List Entry} (h : mergeList codec config done p s = (.ok p', s'))
    (e : Entry) :
    cuts config.commitSizeCap p.pendingBytes (done ++ [e]) =
      cuts config.commitSizeCap p.pendingBytes done +
        if config.commitSizeCap < p'.pendingBytes + payloadSize e then 1 else 0 := by
  unfold cuts
  rw [plan_append h, List.count_append]
  show _ + (notesOf _ _ e ++ []).count Milestone.committed = _
  rw [List.append_nil, count_notesOf]

/-! ## What a merge has committed -/

/-- The entries `done` have been merged from the store `s` on, and this is what `s'` has committed:
nothing, or everything up to the last checkpoint. -/
inductive Anchored (codec : Codec) (config : Config) (s : Store) (done : List Entry) (s' : Store) :
    Prop where
  | nowhere (hnone : cuts config.commitSizeCap 0 done = 0) (hsame : s'.committed = s.committed)
  /-- The last checkpoint is that of `e`. -/
  | checkpoint {upto behind : List Entry} {e : Entry} {cursor : TxId} {u : Table}
      (hdone : done = upto ++ e :: behind) (hkey : e.key = Key.tx cursor)
      (hmerged : mergeAll codec config.codecVersion s.view (upto ++ [e]) = .ok u)
      (hcommitted : s'.committed = markedAt u cursor)
      (hdue : cuts config.commitSizeCap 0 (upto ++ [e]) = cuts config.commitSizeCap 0 upto + 1)
      (hlast : cuts config.commitSizeCap 0 done = cuts config.commitSizeCap 0 (upto ++ [e]))

theorem exists_of_mergeList_concat {done : List Entry} {e : Entry}
    (h : mergeList codec config (done ++ [e]) p s = (.ok p', s')) :
    ∃ p₁ s₁, mergeList codec config done p s = (.ok p₁, s₁) ∧
      mergeOne codec config e p₁ s₁ = (.ok p', s') := by
  rw [mergeList_append] at h
  rcases hdone : mergeList codec config done p s with ⟨outcome, s₁⟩
  rw [hdone] at h
  cases outcome with
  | error cause => cases h
  | ok p₁ =>
    obtain ⟨p₂, s₂, hone, hnothing⟩ := mergeList_cons_eq_ok_iff.1 h
    cases hnothing
    exact ⟨p₁, s₁, rfl, hone⟩

/-- The checkpoint of an entry commits the view with the marker at that entry. -/
theorem exists_markedAt_of_mergeOne {e : Entry} (h : mergeOne codec config e p s = (.ok p', s'))
    (hdue : config.commitSizeCap < p.pendingBytes + payloadSize e) :
    ∃ cursor, e.key = Key.tx cursor ∧ s'.committed = markedAt s'.view cursor := by
  obtain ⟨item, batch?, hitem, -, -, rfl⟩ := exists_of_mergeOne h
  obtain ⟨hkey, hrecord, -⟩ := readItem_eq_ok_iff.1 hitem
  rw [payloadSize_eq hrecord] at hdue
  refine ⟨item.cursor, Key.txId_eq_ok_iff.1 hkey, ?_⟩
  unfold settle isDue
  rw [decide_eq_true hdue, if_pos rfl]
  show (Store.put _ _ _).view = markedAt (Store.put _ _ _).view _
  rw [Store.view_put]
  exact (markedAt_markedAt _ item.cursor item.cursor).symm

/-- What a merge has committed is told by its last checkpoint. The induction is from the end of the
list: the last entry makes a checkpoint, or the last checkpoint is the one that was the last before
it. -/
theorem anchored_mergeList {done : List Entry} (hp : p.pendingBytes = 0)
    (h : mergeList codec config done p s = (.ok p', s')) : Anchored codec config s done s' := by
  -- Entry after entry: the last one is a checkpoint, or the last checkpoint is the one before.
  induction done using List.reverseRecOn generalizing p' s' with
  | nil =>
    cases h
    exact .nowhere rfl rfl
  | append_singleton done e ih =>
    obtain ⟨p₁, s₁, hdone, hone⟩ := exists_of_mergeList_concat h
    have hcuts := cuts_concat hdone e
    rw [hp] at hcuts
    rcases committed_of_mergeOne hone with ⟨hdue, -, -⟩ | ⟨hdue, -, hsame⟩
    · rw [if_pos hdue] at hcuts
      obtain ⟨cursor, hkey, hcommitted⟩ := exists_markedAt_of_mergeOne hone hdue
      obtain ⟨u, hmerged, hview⟩ := (reached_mergeList h).view
      exact .checkpoint rfl hkey hmerged (hcommitted.trans (hview _)) hcuts rfl
    · rw [if_neg hdue, Nat.add_zero] at hcuts
      cases ih hdone with
      | nowhere hnone hbefore => exact .nowhere (hcuts.trans hnone) (hsame.trans hbefore)
      | @checkpoint upto behind last cursor u hdone' hkey hmerged hcommitted hdue' hlast =>
        have hmore : done ++ [e] = upto ++ last :: (behind ++ [e]) := by
          rw [hdone', List.append_assoc, List.cons_append]
        exact .checkpoint hmore hkey hmerged (hsame.trans hcommitted) hdue' (hcuts.trans hlast)

/-- Behind two commits the last checkpoint has an entry before it: with the first entry alone there
would be one checkpoint at most. -/
theorem Anchored.exists_checkpointed {done rest : List Entry} (h : Anchored codec config s done s')
    (hstart : dueFrom s.view = some start) (hsplit : toCome start s.view = done ++ rest)
    (htwo : 2 ≤ cuts config.commitSizeCap 0 done) :
    ∃ upto e rest cursor u, upto ≠ [] ∧
      Checkpointed codec config.codecVersion s.view start upto e rest cursor u s'.committed := by
  cases h with
  | nowhere hnone _ => omega
  | @checkpoint upto behind e cursor u hdone hkey hmerged hcommitted hdue hlast =>
    refine ⟨upto, e, behind ++ rest, cursor, u, ?_, hstart, ?_, hkey, hmerged, hcommitted⟩
    · rintro rfl
      -- With no entry before it, the last checkpoint would be the only one.
      have hone := cuts_le_length config.commitSizeCap 0 ([] ++ [e])
      rw [← hlast, List.nil_append, List.length_singleton] at hone
      omega
    · rw [hsplit, hdone, List.append_assoc, List.cons_append]

/-! ## What an attempt has left -/

/-- What an attempt on `s` from `start` on has left, wherever it has ended. -/
inductive Left (codec : Codec) (config : Config) (s : Store) (start : Bytes) (s' : Store) :
    Prop where
  | stopped {done rest : List Entry} (hsplit : toCome start s.view = done ++ rest)
      (hcommits : s'.commits = s.commits + cuts config.commitSizeCap 0 done)
      (hanchored : Anchored codec config s done s')
  | finished {height : Height}
      (hcommits : s'.commits = s.commits + cuts config.commitSizeCap 0 (toCome start s.view) + 1)
      (hcomplete : CompleteThrough s'.committed height)

/-- An attempt that fails has merged a beginning of the entries to come, and made the checkpoints
that are due for these entries; they are counted by `Booked` and placed by `Anchored`. -/
theorem exists_stopped_of_run_error (hdue : dueFrom s.view = some start)
    (h : run codec config lastAccepted faults ⟨s, calls⟩ = .error cause b) :
    ∃ done rest, toCome start s.view = done ++ rest ∧
      b.store.commits = s.commits + cuts config.commitSizeCap 0 done ∧
      Anchored codec config s done b.store := by
  obtain ⟨x, hjournaled, rfl⟩ :=
    (Journal.erases_run codec config lastAccepted).exists_of_error (x := ⟨⟨s, calls⟩, []⟩) h
  have hconcludes := concludes_run codec config lastAccepted faults calls hdue
  rw [hjournaled] at hconcludes
  obtain ⟨state, done, rest, more, hsplit, hdone, hcommitted, hcommits, -, -⟩ := hconcludes
  refine ⟨done, rest, hsplit, hcommits.trans (booked_mergeList hdone).commits, ?_⟩
  -- The failure has committed nothing more than the merge up to it had.
  cases anchored_mergeList rfl hdone with
  | nowhere hnone hsame => exact .nowhere hnone (hcommitted.trans hsame)
  | checkpoint hdone hkey hmerged hsaved hdue hlast =>
    exact .checkpoint hdone hkey hmerged (hcommitted.trans hsaved) hdue hlast

/-- Whatever an attempt has met, one of the two cases of `Left` describes the store behind it: it
has stopped somewhere with what its last checkpoint has committed, or it is finished. -/
theorem left_run (codec : Codec) (config : Config) (lastAccepted : Height) (faults : Faults)
    (calls : Calls) (hdue : dueFrom s.view = some start) :
    Left codec config s start
      (Access.after (run codec config lastAccepted) faults ⟨s, calls⟩).store := by
  unfold Access.after
  cases hrun : run codec config lastAccepted faults ⟨s, calls⟩ with
  | error cause b =>
    obtain ⟨done, rest, hsplit, hcommits, hanchored⟩ := exists_stopped_of_run_error hdue hrun
    exact .stopped hsplit hcommits hanchored
  | ok report b =>
    -- The run has made the commits of the merge, and one more for the complete marker.
    obtain ⟨x, state, p₁, s₁, -, -, hmerge, -, hstore, -⟩ := exists_journaled_of_run hdue hrun
    rw [hstore]
    have hcomplete : CompleteThrough
        (s₁.put Key.marker (Marker.complete lastAccepted).encode).view lastAccepted := by
      rw [Store.view_put]
      exact completeThrough_insert ..
    refine .finished ?_ hcomplete
    show s₁.commits + 1 = _
    rw [(booked_mergeList hmerge).commits]
    rfl

/-! ## Two attempts on the same data -/

theorem not_lt_of_mem_toCome {t : Table} {e : Entry} (h : e ∈ toCome start t) : ¬ e.key < start :=
  (Table.mem_listing_iff.1 h).2.1

/-- Of two entries to come, the one with the smaller key is among those before the other: the
entries are in ascending order of their keys, so a list has one place for each of them. -/
theorem prefix_of_key_lt {t : Table} {upto upto' rest rest' : List Entry} {e e' : Entry}
    (h : toCome start t = upto ++ e :: rest) (h' : toCome start t = upto' ++ e' :: rest')
    (hlt : e'.key < e.key) : upto' ++ [e'] <+: upto := by
  have hasc := Table.ascending_listing start Space.txById.tag t
  change (toCome start t).Pairwise _ at hasc
  have hfirst : upto' ++ [e'] <+: toCome start t := ⟨rest', by rw [h']; simp⟩
  have hsecond : upto <+: toCome start t := ⟨e :: rest, h.symm⟩
  rcases List.prefix_or_prefix_of_prefix hfirst hsecond with hprefix | hprefix
  · exact hprefix
  -- Otherwise `e'` would be `e` itself or behind it.
  · rcases List.prefix_concat_iff.1 hprefix with heq | hprefix
    · rw [heq]
    · exfalso
      obtain ⟨between, rfl⟩ := hprefix
      have htail : e :: rest = between ++ e' :: rest' := by
        rw [h, List.append_assoc] at h'
        exact List.append_cancel_left h'
      rw [h] at hasc
      have hrest := (List.pairwise_append.1 hasc).2.1
      cases between with
      | nil =>
        cases htail
        exact Bytes.lt_irrefl _ hlt
      | cons d between =>
        cases htail
        have hbehind : e.key < e'.key := (List.pairwise_cons.1 hrest).1 e' (by simp)
        exact Bytes.lt_asymm hlt hbehind

/-- **Of two attempts on the same data, the one that has committed more often stands no further
back.** Both have gone through the same entries, so their last checkpoints are at two of these. Were
the second one's before the first one's, it would have fewer cuts behind it and hence fewer
commits. -/
theorem Left.notBehind {s₁ s₂ : Store} (h₁ : Left codec config s start s₁)
    (h₂ : Left codec config s start s₂) (hstart : dueFrom s.view = some start)
    (hstaged : s.view = s.committed) (hle : s₁.commits ≤ s₂.commits) :
    NotBehind s₁.committed s₂.committed := by
  intro cursor hcursor
  cases h₂ with
  | finished _ hcomplete => exact .inl ⟨_, hcomplete⟩
  | @stopped done₂ rest₂ hsplit₂ hcommits₂ hanchored₂ =>
    refine .inr ?_
    cases h₁ with
    | finished hcommits₁ _ =>
      -- The first attempt has made all the checkpoints and one commit more.
      have hfewer := cuts_le_append config.commitSizeCap 0 done₂ rest₂
      rw [← hsplit₂] at hfewer
      omega
    | @stopped done₁ rest₁ hsplit₁ hcommits₁ hanchored₁ =>
      cases hanchored₁ with
      | nowhere hnone₁ hsame₁ =>
        rw [hsame₁] at hcursor
        cases hanchored₂ with
        | nowhere _ hsame₂ => exact ⟨cursor, hsame₂ ▸ hcursor, Bytes.lt_irrefl _⟩
        | @checkpoint upto behind e cursor' u hdone hkey _ hcommitted _ _ =>
          have hmem : e ∈ toCome start s.view := by
            rw [hsplit₂, hdone]
            simp
          have hcursor₂ : cursorOf s₂.committed = some cursor' := by
            rw [hcommitted, cursorOf_markedAt]
          rw [hstaged, dueFrom_of_cursorOf hcursor] at hstart
          cases hstart
          exact ⟨cursor', hcursor₂, hkey ▸ not_lt_of_mem_toCome hmem⟩
      | @checkpoint upto₁ behind₁ e₁ cursor₁ u₁ hdone₁ hkey₁ _ hcommitted₁ hdue₁ hlast₁ =>
        rw [hcommitted₁, cursorOf_markedAt] at hcursor
        cases hcursor
        cases hanchored₂ with
        | nowhere hnone₂ _ => omega
        | @checkpoint upto₂ behind₂ e₂ cursor₂ u₂ hdone₂ hkey₂ _ hcommitted₂ hdue₂ hlast₂ =>
          refine ⟨cursor₂, by rw [hcommitted₂, cursorOf_markedAt], fun hlt => ?_⟩
          -- The checkpoint of the second attempt would be one of those before the first one's.
          rw [← hkey₁, ← hkey₂] at hlt
          rw [hdone₁, List.append_assoc] at hsplit₁
          rw [hdone₂, List.append_assoc] at hsplit₂
          obtain ⟨between, hupto⟩ := prefix_of_key_lt hsplit₁ hsplit₂ hlt
          have hfewer := cuts_le_append config.commitSizeCap 0 (upto₂ ++ [e₂]) between
          rw [hupto] at hfewer
          omega

/-! ## Attempts that fail late

If nothing but commits can fail, and not the first `n`, then an attempt that would succeed without
faults makes `n` commits or succeeds. -/

/-- Each call of a merge but the commits succeeds if nothing but late commits can fail, and a commit
among the first `n` does as well. -/
theorem ofCalls_lands (n : Nat) (codec : Codec) (version : UInt16) :
    OfCalls (fun _ => Lands n) codec version where
  toClosed := Lands.closed
  getBatch _ := .get _
  putBatch _ := .put _ _
  putMarker _ := .put _ _
  commit := .commit

/-- The whole backfill makes `n` commits or ends as it would without faults, since each of its calls
does its part. -/
theorem lands_run (n : Nat) (codec : Codec) (config : Config) (lastAccepted : Height) :
    Lands n (run codec config lastAccepted) :=
  (ofCalls_lands n codec config.codecVersion).run Lands.isLocal (fun _ _ => .scan _ _ _)
    (Lands.closed.readMarker (.get _)) lastAccepted

end Backfill

end TxIndex
