import TxIndex.Store.Basic
import TxIndex.Table.Lemmas

/-!
# Laws of the versioned store

The view of a store answers all its reads (`get?_view`, `mem_view_of_mem_scan`), and it changes by
staging alone: a put inserts into it (`view_put`) and a commit leaves it (`view_commit`).
-/

namespace TxIndex.Store

/-- Look-ups of a handle are look-ups of its view, so what is said of tables can be said of
stores. -/
@[simp] theorem get?_view (s : Store) (key : Bytes) : s.view.get? key = s.get? key :=
  Table.get?_overlay ..

/-- A put shows in the view at once, and inserting there is all it does. -/
@[simp] theorem view_put (s : Store) (key value : Bytes) :
    (s.put key value).view = s.view.insert key value :=
  Table.overlay_insert ..

/-- A commit is not seen by the handle that makes it: what was read before is read after. -/
@[simp] theorem view_commit (s : Store) : s.commit.view = s.view := rfl

@[simp] theorem view_abort (s : Store) : s.abort.view = s.committed := rfl

/-- A new handle reads what is committed; what others have staged it does not see. -/
@[simp] theorem view_reopen (s : Store) : s.reopen.view = s.committed := rfl

/-- Where nothing is staged the view is what is committed. -/
theorem view_of_staged_empty {s : Store} (h : s.staged = .empty) : s.view = s.committed := by
  unfold view
  rw [h, Table.overlay_empty]

/-- A scan returns entries of the view that lie in the range. -/
theorem mem_view_of_mem_scan {s : Store} {start pre : Bytes} {limit : Nat} {e : Entry}
    (h : e ∈ s.scan start pre limit) :
    (∃ value, ⟨e.key, value⟩ ∈ s.view.entries) ∧ ¬ e.key < start ∧ pre <+: e.key := by
  -- The scan may start later than asked for, never earlier.
  have hstart : ∀ key : Bytes, ¬ key < (if start < pre then pre else start) → ¬ key < start := by
    intro key hnot
    split at hnot
    · next hlt => exact fun hkey => hnot (Bytes.lt_trans hkey hlt)
    · exact hnot
  have hmem : (⟨e.key, e.value⟩ : Entry) ∈ _ := List.mem_of_mem_take h
  rw [Table.mem_entries_iff, Table.get?_overlay] at hmem
  simp only [Table.mem_entries_iff, get?_view]
  -- The entry comes from the staged writes, or else from the committed data.
  rcases Option.or_eq_some_iff.1 hmem with htop | ⟨_, hbase⟩
  · obtain ⟨hentry, hge, hpre⟩ := Table.mem_of_mem_range (Table.mem_entries_iff.2 htop)
    exact ⟨⟨e.value, by simp [get?, Table.mem_entries_iff.1 hentry]⟩, hstart _ hge, hpre⟩
  · obtain ⟨hentry, hge, hpre⟩ := Table.mem_of_mem_range (Table.mem_entries_iff.2 hbase)
    refine ⟨?_, hstart _ hge, hpre⟩
    cases hstaged : s.staged.get? e.key with
    | none => exact ⟨e.value, by simp [get?, hstaged, Table.mem_entries_iff.1 hentry]⟩
    | some value => exact ⟨value, by simp [get?, hstaged]⟩

end TxIndex.Store
