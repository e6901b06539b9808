import TxIndex.Cursor
import TxIndex.Proofs.Access.Runs
import TxIndex.Proofs.Space
import TxIndex.Proofs.Store.Scan

/-!
# What a cursor gives

A cursor fetches pages and gives out their entries. What it has yet to give on a table is
`Cursor.pending`: its buffer, and unless it has seen the last page the listing from where the next
page starts. A call of `next` takes from the buffer (`next_of_stocked`), or it scans for a page and
takes from that (`next_of_clear`, `next_of_fault`). Without faults it takes the first of what is
pending (`runs_next`), so a cursor at the start of a space gives the space from there on, each key
once and in order (`runs_drain`, `Space.mem_suffixes_iff`).
-/

namespace TxIndex

/-- The keys of a space from a suffix on, without the tag, with their values. -/
def Space.suffixes (space : Space) (start : Bytes) (t : Table) : List Entry :=
  (t.listing (space.key start) space.tag).map fun e =>
    { e with key := e.key.drop space.tag.length }

namespace Space

variable {space : Space} {start : Bytes} {t : Table}

theorem drop_key (space : Space) (suffix : Bytes) :
    (space.key suffix).drop space.tag.length = suffix :=
  List.drop_left

/-- **What a space holds from a start on.** A suffix is listed with a value just if its key has the
value and it is not before the start: the keys of a space stand in the order of their suffixes. -/
theorem mem_suffixes_iff {e : Entry} :
    e ∈ space.suffixes start t ↔
      t.get? (space.key e.key) = some e.value ∧ ¬ e.key < start := by
  unfold suffixes
  refine ⟨fun h => ?_, fun h => ?_⟩
  · -- A listed key has the tag in front, so it is the key of what is left without it.
    obtain ⟨d, hd, rfl⟩ := List.mem_map.1 h
    obtain ⟨hmem, hge, suffix, hkey⟩ := Table.mem_listing_iff.1 hd
    have hsuffix : d.key.drop space.tag.length = suffix := by
      rw [← hkey]
      exact List.drop_left
    have hd : space.key suffix = d.key := hkey
    show t.get? (space.key (d.key.drop space.tag.length)) = some d.value ∧
      ¬ d.key.drop space.tag.length < start
    rw [hsuffix, hd]
    refine ⟨Table.mem_entries_iff.1 hmem, fun hlt => hge ?_⟩
    rw [← hd]
    exact key_lt_key_iff.2 hlt
  · -- Its key with the tag is listed, and the tag is taken off again.
    refine List.mem_map.2 ⟨⟨space.key e.key, e.value⟩, ?_, ?_⟩
    · refine Table.mem_listing_iff.2 ⟨Table.mem_entries_iff.2 h.1, fun hlt => h.2 ?_, ?_⟩
      · exact key_lt_key_iff.1 hlt
      · exact List.prefix_append ..
    · show Entry.mk ((space.key e.key).drop space.tag.length) e.value = e
      rw [drop_key]

/-- The suffixes are listed in order, each of them once. Taking the tag off does not change the
order, since it is in front of all of them. -/
theorem ascending_suffixes (space : Space) (start : Bytes) (t : Table) :
    (space.suffixes start t).Pairwise Entry.Before := by
  unfold suffixes
  rw [List.pairwise_map]
  refine (Table.ascending_listing (space.key start) space.tag t).imp_of_mem ?_
  intro d e hd he hlt
  -- Both keys begin with the tag, so the order is that of what follows it.
  obtain ⟨-, -, a, ha⟩ := Table.mem_listing_iff.1 hd
  obtain ⟨-, -, b, hb⟩ := Table.mem_listing_iff.1 he
  show d.key.drop space.tag.length < e.key.drop space.tag.length
  unfold Entry.Before at hlt
  rw [← ha, ← hb] at hlt ⊢
  rw [List.drop_left, List.drop_left]
  exact key_lt_key_iff.1 hlt

end Space

namespace Cursor

/-! ## What is still to come -/

/-- What the cursor has yet to give: what is in its buffer, and unless it has seen the last page,
what stands in the space from where the next page starts. -/
def pending (c : Cursor) (t : Table) : List Entry :=
  c.buffer ++ if c.finished then [] else (t.listing c.nextStart c.space.tag).map c.untagged

/-- For a cursor at the start of a space that is all there is from the start on. -/
theorem pending_start (space : Space) (suffix : Bytes) (pageSize : Nat) (t : Table) :
    (start space suffix pageSize).pending t = space.suffixes suffix t :=
  rfl

/-- What a cursor answers that has these entries yet to give. -/
def answer : List Entry → Yield
  | [] => .exhausted
  | e :: _ => .entry e

/-- The next answer comes from the buffer, or there is none. -/
def Stocked (c : Cursor) : Prop :=
  c.buffer = [] → c.finished = true

/-- A cursor that needs no page takes the first pending entry. If there is none, it has seen the
last page and is exhausted. -/
theorem pop_of_stocked {c : Cursor} (t : Table) (h : c.Stocked) :
    c.pop.1 = answer (c.pending t) ∧ c.pop.2.pending t = (c.pending t).tail := by
  unfold pop
  cases hbuffer : c.buffer with
  | nil =>
    -- A stocked cursor with an empty buffer has nothing to fetch.
    have hnone : c.pending t = [] := by
      unfold pending
      rw [hbuffer, h hbuffer]
      rfl
    simp [hnone, answer]
  | cons e rest =>
    unfold pending
    rw [hbuffer]
    exact ⟨rfl, rfl⟩

/-- The page that the cursor would fetch next. -/
def page (c : Cursor) (t : Table) : List Entry :=
  (t.listing c.nextStart c.space.tag).take c.pageSize

/-- A page that is fetched is taken from what is to come and put into the buffer, so what is pending
stays the same. -/
theorem pending_fetched {c : Cursor} {t : Table} (hbuffer : c.buffer = [])
    (hmore : c.finished = false) : (c.fetched (c.page t)).pending t = c.pending t := by
  have hpending : c.pending t = (t.listing c.nextStart c.space.tag).map c.untagged := by
    unfold pending
    rw [hbuffer, hmore]
    rfl
  rw [hpending]
  show (c.page t).map c.untagged ++ (if decide ((c.page t).length < c.pageSize) = true then []
    else (t.listing _ c.space.tag).map c.untagged) = _
  -- A short page is the whole rest; behind a full one the next page starts at its last entry.
  by_cases hshort : (c.page t).length < c.pageSize
  · have hwhole : c.page t = t.listing c.nextStart c.space.tag := Table.take_listing_of_short hshort
    rw [if_pos (decide_eq_true hshort), List.append_nil, hwhole]
  · rw [decide_eq_false hshort, if_neg Bool.false_ne_true]
    cases hlast : (c.page t).getLast? with
    | none =>
      have hempty : c.page t = [] := List.getLast?_eq_none_iff.1 hlast
      rw [hempty] at hshort
      exact absurd c.pageSize_pos hshort
    | some e =>
      have hnext : (c.fetched (c.page t)).nextStart = Key.successor e.key := by
        simp only [fetched, hlast]
      rw [hnext, Table.listing_successor_of_last hlast, ← List.map_append]
      exact congrArg (List.map c.untagged) (List.take_append_drop _ _)

/-- With a page just fetched the cursor can answer: the page has an entry, or it is short and the
last one. -/
theorem stocked_fetched (c : Cursor) (t : Table) : (c.fetched (c.page t)).Stocked := by
  intro hbuffer
  have hempty : c.page t = [] := List.map_eq_nil_iff.1 hbuffer
  show decide ((c.page t).length < c.pageSize) = true
  rw [hempty]
  exact decide_eq_true c.pageSize_pos

/-! ## One call -/

section Next

variable {c : Cursor} {s : Store} {faults : Faults} {calls : Calls}

/-- A cursor that needs a page has an empty buffer and has not seen the last page. -/
theorem empty_of_not_stocked (h : ¬ c.Stocked) : c.buffer = [] ∧ c.finished = false := by
  obtain ⟨hbuffer, hmore⟩ := Classical.not_imp.1 h
  exact ⟨hbuffer, Bool.not_eq_true _ ▸ hmore⟩

/-- A cursor that can answer does so without a call. -/
theorem next_of_stocked (h : c.Stocked) (b : Backend) : c.next faults b = .ok c.pop b := by
  have hneeds : (c.buffer.isEmpty && !c.finished) = false := by
    cases hbuffer : c.buffer with
    | nil => simp [h hbuffer]
    | cons e rest => rfl
  unfold next
  rw [hneeds]
  rfl

/-- A cursor that cannot answer makes a scan. If the scan succeeds, it answers from the page
(`next_of_clear`); if it fails, the failure is the answer, and there will be no other page
(`next_of_fault`). -/
theorem next_of_empty (hbuffer : c.buffer = []) (hmore : c.finished = false) (b : Backend) :
    c.next faults b = (do
      match ← Access.attempt (Access.scan c.nextStart c.space.tag c.pageSize) with
      | .ok page => return (c.fetched page).pop
      | .error cause => return (.failure cause, { c with finished := true }) :
        Access (Yield × Cursor)) faults b := by
  unfold next
  rw [hbuffer, hmore]
  rfl

theorem next_of_clear (hbuffer : c.buffer = []) (hmore : c.finished = false)
    (hclear : faults.store .scan (calls.store .scan) = none) :
    c.next faults ⟨s, calls⟩ = .ok (c.fetched (c.page s.view)).pop ⟨s, calls.addStore .scan⟩ := by
  have hscan : Access.scan c.nextStart c.space.tag c.pageSize faults ⟨s, calls⟩ =
      .ok (c.page s.view) ⟨s, calls.addStore .scan⟩ := by
    unfold Access.scan
    rw [Access.callStore_of_clear hclear, Store.scan_eq_take_listing]
    rfl
  rw [next_of_empty hbuffer hmore, Access.bind_apply, Access.attempt, hscan]
  rfl

theorem next_of_fault {cause : StoreError} (hbuffer : c.buffer = []) (hmore : c.finished = false)
    (hfault : faults.store .scan (calls.store .scan) = some cause) :
    c.next faults ⟨s, calls⟩ =
      .ok (.failure (.store cause), { c with finished := true }) ⟨s, calls.addStore .scan⟩ := by
  have hscan : Access.scan c.nextStart c.space.tag c.pageSize faults ⟨s, calls⟩ =
      .error (.store cause) ⟨s, calls.addStore .scan⟩ :=
    Access.callStore_of_fault hfault
  rw [next_of_empty hbuffer hmore, Access.bind_apply, Access.attempt, hscan]
  rfl

end Next

/-! ## Runs without faults -/

/-- **One call, without faults.** The first pending entry is the answer and is no longer pending,
whether a page has to be fetched for it or not. -/
theorem runs_next (c : Cursor) (s : Store) :
    ∃ c', Access.Runs c.next s (.ok (answer (c.pending s.view), c')) s ∧
      c'.pending s.view = (c.pending s.view).tail := by
  by_cases hstocked : c.Stocked
  · obtain ⟨hanswer, hrest⟩ := pop_of_stocked s.view hstocked
    refine ⟨c.pop.2, fun calls => ⟨calls, ?_⟩, hrest⟩
    rw [← hanswer]
    exact next_of_stocked hstocked _
  · -- Fetching leaves what is pending, and what has been fetched is popped from the buffer.
    obtain ⟨hbuffer, hmore⟩ := empty_of_not_stocked hstocked
    obtain ⟨hanswer, hrest⟩ := pop_of_stocked s.view (stocked_fetched c s.view)
    rw [pending_fetched hbuffer hmore] at hanswer hrest
    refine ⟨(c.fetched (c.page s.view)).pop.2, fun calls => ⟨calls.addStore .scan, ?_⟩, hrest⟩
    rw [← hanswer]
    exact next_of_clear hbuffer hmore rfl

/-- The answers to any number of calls are the entries that were pending at first, by induction on
the number. -/
theorem runs_take (n : Nat) (c : Cursor) (s : Store) :
    ∃ c', Access.Runs (c.take n) s (.ok ((c.pending s.view).take n,
        if n ≤ (c.pending s.view).length then .limit else .exhausted, c')) s ∧
      c'.pending s.view = (c.pending s.view).drop n := by
  induction n generalizing c with
  | zero => exact ⟨c, .pure _ s, rfl⟩
  | succ n ih =>
    obtain ⟨c₁, hnext, hrest⟩ := runs_next c s
    unfold take
    cases hpending : c.pending s.view with
    | nil =>
      rw [hpending] at hnext hrest
      exact ⟨c₁, .bind hnext (.pure _ s), hrest⟩
    | cons e entries =>
      rw [hpending] at hnext hrest
      -- Behind the first answer the rest is pending, and the induction takes it from there.
      obtain ⟨c', htake, hdrop⟩ := ih c₁
      rw [hrest, List.tail_cons] at htake hdrop
      refine ⟨c', ?_, hdrop⟩
      simp only [List.take_succ_cons, List.length_cons, Nat.succ_le_succ_iff]
      exact .bind hnext (.bind htake (.pure _ s))

/-- What is pending is in the buffer or in the store. -/
theorem length_pending_le (c : Cursor) (t : Table) :
    (c.pending t).length ≤ c.buffer.length + t.size := by
  have hlisting := Table.length_listing_le c.nextStart c.space.tag t
  unfold pending
  rw [List.length_append]
  split
  · simp
  · rw [List.length_map]
    omega

/-- All pending entries are given, and then the cursor is exhausted. How often it is asked is told
by a bound on what is pending, so the loop of `drain` does not end before the entries do. -/
theorem runs_drain (c : Cursor) (s : Store) :
    ∃ c', Access.Runs c.drain s (.ok (c.pending s.view, .exhausted, c')) s := by
  -- The cursor is asked once more than there are entries, and that time it is exhausted.
  have hlen := length_pending_le c s.view
  obtain ⟨c', htake, -⟩ := runs_take (c.buffer.length + s.view.size + 1) c s
  rw [List.take_of_length_le (by omega), if_neg (by omega)] at htake
  exact ⟨c', htake⟩

end Cursor

end TxIndex
