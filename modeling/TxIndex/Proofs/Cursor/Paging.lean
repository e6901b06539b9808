import Mathlib.Data.List.TakeDrop
import TxIndex.Proofs.Cursor.Listing

/-!
# Pages, scans and failures of a cursor

A cursor is asked again and again (`Cursor.ask`). What it answers does not depend on the size of its
pages, but how many scans it makes does, and so does how many entries it has given out when a scan
fails.

What lies ahead of a cursor is told by its buffer, by how many of the scans that it still has to
make succeed, and by the failure of the next one, if it fails (`Outlook`). `gives_of_outlook` says
that the answers are the entries of the buffer and of the good pages, the failure, and nothing from
then on. A cursor that has been fetched a page stands as it did before with one good scan less, so
the induction needs to look at one call that is answered from the buffer and at no page as a whole.

`pages_of_start` is the outcome for a cursor at the start of a space.
-/

namespace TxIndex.Cursor

variable {c : Cursor} {s : Store} {t : Table} {faults : Faults} {calls : Calls} {m good : Nat}
  {failure : Option StoreError}

/-! ## Asking again and again -/

/-- The answers to `m` calls of `next`, one after the other. -/
def ask : Nat → Cursor → Access (List Yield × Cursor)
  | 0, c => return ([], c)
  | m + 1, c => do
    let (answer, c) ← c.next
    let (answers, c) ← ask m c
    return (answer :: answers, c)

/-- Asked `m` times, the cursor gives these answers. It makes so many scans for it, and leaves the
store as it is. -/
def Gives (c : Cursor) (faults : Faults) (s : Store) (calls : Calls) (m : Nat)
    (answers : List Yield) (scans : Nat) : Prop :=
  ∃ c' calls', c.ask m faults ⟨s, calls⟩ = .ok (answers, c') ⟨s, calls'⟩ ∧
    calls'.store .scan = calls.store .scan + scans

/-- The first answer decides from where the others come. -/
theorem Gives.succ {c₁ : Cursor} {calls₁ : Calls} {answer : Yield} {answers : List Yield}
    {first scans : Nat} (hnext : c.next faults ⟨s, calls⟩ = .ok (answer, c₁) ⟨s, calls₁⟩)
    (hfirst : calls₁.store .scan = calls.store .scan + first)
    (h : c₁.Gives faults s calls₁ m answers scans) :
    c.Gives faults s calls (m + 1) (answer :: answers) (first + scans) := by
  obtain ⟨c', calls', hask, hscans⟩ := h
  refine ⟨c', calls', ?_, by omega⟩
  rw [ask, Access.bind_apply, hnext]
  show (c₁.ask m >>= fun p => pure (answer :: p.1, p.2)) faults ⟨s, calls₁⟩ = _
  rw [Access.bind_apply, hask]
  rfl

/-! ## What lies ahead -/

/-- The scans to come when `made` have been made and `left` are wanted: so many of them succeed, and
then the next one fails, or no further one is wanted. -/
inductive Outlook (faults : Faults) (made left : Nat) : Nat → Option StoreError → Prop where
  | clear (hgood : ∀ i < left, faults.store .scan (made + i) = none) :
      Outlook faults made left left none
  | fails {good : Nat} {cause : StoreError} (hlt : good < left)
      (hgood : ∀ i < good, faults.store .scan (made + i) = none)
      (hfault : faults.store .scan (made + good) = some cause) :
      Outlook faults made left good (some cause)

/-- How many scans are made, the failing one included. -/
def begun (good : Nat) (failure : Option StoreError) : Nat :=
  good + failure.toList.length

namespace Outlook

variable {made left : Nat}

theorem begun_le (h : Outlook faults made left good failure) : begun good failure ≤ left := by
  cases h with
  | clear => exact Nat.le_refl _
  | fails hlt => exact hlt

theorem eq_clear (h : Outlook faults made 0 good failure) : good = 0 ∧ failure = none := by
  cases h with
  | clear => exact ⟨rfl, rfl⟩
  | fails hlt => exact absurd hlt (Nat.not_lt_zero _)

/-- The first of the scans fails, or it succeeds and the others are still to come. -/
theorem first (h : Outlook faults made (left + 1) good failure) :
    (∃ cause, good = 0 ∧ failure = some cause ∧ faults.store .scan made = some cause) ∨
      ∃ rest, good = rest + 1 ∧ faults.store .scan made = none ∧
        Outlook faults (made + 1) left rest failure := by
  cases h with
  | clear hgood =>
    refine .inr ⟨left, rfl, hgood 0 (Nat.succ_pos left), .clear fun i hi => ?_⟩
    rw [Nat.add_right_comm]
    exact hgood (i + 1) (Nat.succ_lt_succ hi)
  | fails hlt hgood hfault =>
    -- No scan is good before the one that fails, or the first one is.
    cases good with
    | zero => exact .inl ⟨_, rfl, rfl, hfault⟩
    | succ rest =>
      refine .inr ⟨rest, rfl, hgood 0 (Nat.succ_pos rest), ?_⟩
      refine .fails (Nat.lt_of_succ_lt_succ hlt) (fun i hi => ?_) ?_
      · rw [Nat.add_right_comm]
        exact hgood (i + 1) (Nat.succ_lt_succ hi)
      · rw [Nat.add_right_comm]
        exact hfault

/-- A scan that succeeds comes before those that are still to come, whatever these meet. -/
theorem succ (hfirst : faults.store .scan made = none)
    (h : Outlook faults (made + 1) left good failure) :
    Outlook faults made (left + 1) (good + 1) failure := by
  -- Seen from before the first scan, each of the others comes one call later.
  have hshift {n : Nat} (hgood : ∀ i < n, faults.store .scan (made + 1 + i) = none) :
      ∀ i < n + 1, faults.store .scan (made + i) = none := by
    intro i hi
    cases i with
    | zero => exact hfirst
    | succ i =>
      rw [← Nat.add_assoc, Nat.add_right_comm]
      exact hgood i (Nat.lt_of_succ_lt_succ hi)
  cases h with
  | clear hgood => exact .clear (hshift hgood)
  | fails hlt hgood hfault =>
    refine .fails (Nat.succ_lt_succ hlt) (hshift hgood) ?_
    rw [← Nat.add_assoc, Nat.add_right_comm]
    exact hfault

/-- Whatever fails, there is an outlook: the faults are told by the numbers of the calls, so the
first that is due can be looked for. -/
theorem exists_of_faults (faults : Faults) (made left : Nat) :
    ∃ good failure, Outlook faults made left good failure := by
  induction left generalizing made with
  | zero => exact ⟨0, none, .clear fun i hi => absurd hi (Nat.not_lt_zero i)⟩
  | succ left ih =>
    cases hfirst : faults.store .scan made with
    | some cause =>
      refine ⟨0, some cause, .fails (Nat.succ_pos left) (fun i hi => ?_) hfirst⟩
      exact absurd hi (Nat.not_lt_zero i)
    | none =>
      obtain ⟨good, failure, h⟩ := ih (made + 1)
      exact ⟨good + 1, failure, h.succ hfirst⟩

end Outlook

/-- How many scans the cursor makes until it is exhausted, if none of them fails. -/
def scansLeft (c : Cursor) (t : Table) : Nat :=
  if c.finished then 0 else (t.listing c.nextStart c.space.tag).length / c.pageSize + 1

/-- The answers to come: the entries of the buffer and of the good pages, and the failure. -/
def answers (c : Cursor) (t : Table) (good : Nat) (failure : Option StoreError) : List Yield :=
  ((c.pending t).take (c.buffer.length + good * c.pageSize)).map .entry ++
    (failure.map fun cause => Yield.failure (.store cause)).toList

/-- How many scans `m` calls of `next` make, out of so many in all: one for each page that is
begun. -/
def scansFor (c : Cursor) (all m : Nat) : Nat :=
  min ((m - c.buffer.length + c.pageSize - 1) / c.pageSize) all

/-! ### An answer from the buffer -/

theorem scansLeft_pop (c : Cursor) (t : Table) : c.pop.2.scansLeft t = c.scansLeft t := by
  unfold pop
  cases c.buffer <;> rfl

theorem pageSize_pop (c : Cursor) : c.pop.2.pageSize = c.pageSize := by
  unfold pop
  cases c.buffer <;> rfl

theorem buffer_pop (c : Cursor) : c.pop.2.buffer = c.buffer.tail := by
  unfold pop
  cases hbuffer : c.buffer <;> simp [hbuffer]

/-- What is answered from the buffer is the first of the answers to come. -/
theorem answers_pop {made : Nat} (hstocked : c.Stocked)
    (h : Outlook faults made (c.scansLeft t) good failure) :
    (c.answers t good failure).headD .exhausted = c.pop.1 ∧
      (c.answers t good failure).tail = c.pop.2.answers t good failure := by
  unfold answers pending pop
  cases hbuffer : c.buffer with
  | nil =>
    -- Nothing is pending and no scan is left, so no fault can be met.
    have hfinished : c.finished = true := hstocked hbuffer
    have hnone : c.scansLeft t = 0 := by simp [scansLeft, hfinished]
    rw [hnone] at h
    obtain ⟨rfl, rfl⟩ := h.eq_clear
    simp [hfinished, hbuffer]
  | cons e rest =>
    rw [List.length_cons, Nat.add_right_comm, List.cons_append, List.take_succ_cons]
    exact ⟨rfl, rfl⟩

/-- An answer from the buffer is paid for by no scan. A cursor that is stocked and has nothing in
its buffer has no scan left either. -/
theorem scansFor_pop (hstocked : c.Stocked) {all : Nat} (hall : all ≤ c.scansLeft t) (m : Nat) :
    c.scansFor all (m + 1) = c.pop.2.scansFor all m := by
  unfold scansFor
  rw [pageSize_pop, buffer_pop]
  cases hbuffer : c.buffer with
  | nil =>
    have hnone : c.scansLeft t = 0 := by simp [scansLeft, hstocked hbuffer]
    have hzero : all = 0 := by omega
    rw [hzero, Nat.min_zero, Nat.min_zero]
  | cons e rest => rw [List.length_cons, Nat.add_sub_add_right, List.tail_cons]

/-! ### A page -/

theorem length_buffer_fetched (c : Cursor) (t : Table) :
    (c.fetched (c.page t)).buffer.length =
      min c.pageSize (t.listing c.nextStart c.space.tag).length := by
  show ((c.page t).map c.untagged).length = _
  rw [List.length_map, page, List.length_take]

/-- The cursor knows that a page was the last one by its being short. -/
theorem finished_fetched (c : Cursor) (t : Table) :
    (c.fetched (c.page t)).finished =
      decide ((t.listing c.nextStart c.space.tag).length < c.pageSize) := by
  have hlen : (c.page t).length = min c.pageSize (t.listing c.nextStart c.space.tag).length :=
    List.length_take
  show decide ((c.page t).length < c.pageSize) = _
  rw [hlen]
  exact decide_eq_decide.2 (by omega)

variable (hbuffer : c.buffer = []) (hmore : c.finished = false)

include hbuffer hmore

theorem length_pending_of_empty :
    (c.pending t).length = (t.listing c.nextStart c.space.tag).length := by
  simp [pending, hbuffer, hmore]

/-- A page fetched is a scan made: one less is left. If the page is full, the entries behind it are
fewer by a page, and otherwise there are none. -/
theorem scansLeft_fetched : c.scansLeft t = (c.fetched (c.page t)).scansLeft t + 1 := by
  -- What is fetched and what is left to be fetched make up what was left.
  have hlen := congrArg List.length (pending_fetched (t := t) hbuffer hmore)
  rw [length_pending_of_empty hbuffer hmore, pending, List.length_append, length_buffer_fetched,
    finished_fetched] at hlen
  unfold scansLeft
  rw [hmore, finished_fetched]
  by_cases hshort : (t.listing c.nextStart c.space.tag).length < c.pageSize
  · simp [hshort, Nat.div_eq_of_lt hshort]
  · have hfull : c.pageSize ≤ (t.listing c.nextStart c.space.tag).length := Nat.le_of_not_lt hshort
    have hsame : (c.fetched (c.page t)).space.tag = c.space.tag := rfl
    simp only [hshort, decide_false, Bool.false_eq_true, if_false, List.length_map, hsame] at hlen ⊢
    have hrest : (t.listing (c.fetched (c.page t)).nextStart c.space.tag).length =
        (t.listing c.nextStart c.space.tag).length - c.pageSize := by
      omega
    show _ = (t.listing (c.fetched (c.page t)).nextStart c.space.tag).length / c.pageSize + 1 + 1
    rw [hrest, ← Nat.div_eq_sub_div c.pageSize_pos hfull]

/-- A page fetched in advance gives the same answers with one good scan less to come: what was to be
scanned is in the buffer now. -/
theorem answers_fetched (good : Nat) (failure : Option StoreError) :
    (c.fetched (c.page t)).answers t good failure = c.answers t (good + 1) failure := by
  unfold answers
  have hlen := length_pending_of_empty (t := t) hbuffer hmore
  rw [pending_fetched hbuffer hmore, length_buffer_fetched, hbuffer]
  show ((c.pending t).take (_ + good * c.pageSize)).map Yield.entry ++ _ = _
  rw [List.length_nil, Nat.zero_add, Nat.add_mul, Nat.one_mul, Nat.add_comm]
  by_cases hshort : (t.listing c.nextStart c.space.tag).length < c.pageSize
  · -- A short page is the last one, so all that is pending is given out.
    rw [List.take_of_length_le (by omega), List.take_of_length_le (by omega)]
  · rw [Nat.min_eq_left (Nat.le_of_not_lt hshort)]

omit hmore in
/-- With an empty buffer the next call begins a page. -/
theorem scansFor_succ (all m : Nat) :
    c.scansFor (all + 1) (m + 1) = 1 + min (m / c.pageSize) all := by
  have hsum : m + 1 - 0 + c.pageSize - 1 = m + c.pageSize := by omega
  rw [scansFor, hbuffer, List.length_nil, hsum, Nat.add_div_right _ c.pageSize_pos,
    Nat.succ_min_succ, Nat.add_comm]

omit hmore in
/-- Behind the scan that begins a page the answers cost one scan less. A page that is short leaves
no scan, so there the count is bounded by the scans that are left. -/
theorem scansFor_fetched {all : Nat} (hall : all ≤ (c.fetched (c.page t)).scansLeft t) (m : Nat) :
    c.scansFor (all + 1) (m + 1) = 1 + (c.fetched (c.page t)).scansFor all (m + 1) := by
  rw [scansFor_succ hbuffer, scansFor, length_buffer_fetched]
  show _ = 1 + min ((m + 1 - min c.pageSize _ + c.pageSize - 1) / c.pageSize) all
  by_cases hshort : (t.listing c.nextStart c.space.tag).length < c.pageSize
  · -- Behind a short page there is nothing to scan for.
    have hnone : all = 0 := by
      rw [scansLeft, finished_fetched, decide_eq_true hshort] at hall
      exact Nat.le_zero.1 hall
    rw [hnone, Nat.min_zero, Nat.min_zero]
  · have hrest : (m + 1 - c.pageSize + c.pageSize - 1) / c.pageSize = m / c.pageSize := by
      by_cases hm : m < c.pageSize
      · rw [Nat.div_eq_of_lt (by omega), Nat.div_eq_of_lt hm]
      · have hsame : m + 1 - c.pageSize + c.pageSize - 1 = m := by omega
        rw [hsame]
    rw [Nat.min_eq_left (Nat.le_of_not_lt hshort), hrest]

omit hbuffer hmore

/-! ## Any number of calls -/

/-- The step that is answered from the buffer, where the cursor behind it answers as it should. No
scan is made for it. -/
theorem Gives.succ_of_stocked (hstocked : c.Stocked)
    (h : Outlook faults (calls.store .scan) (c.scansLeft s.view) good failure)
    (hrest : c.pop.2.Gives faults s calls m
      ((c.pop.2.answers s.view good failure).takeD m .exhausted)
      (c.pop.2.scansFor (begun good failure) m)) :
    c.Gives faults s calls (m + 1) ((c.answers s.view good failure).takeD (m + 1) .exhausted)
      (c.scansFor (begun good failure) (m + 1)) := by
  obtain ⟨hhead, htail⟩ := answers_pop hstocked h
  rw [List.takeD, hhead, htail, scansFor_pop hstocked h.begun_le,
    ← Nat.zero_add (c.pop.2.scansFor _ m)]
  exact .succ (next_of_stocked hstocked _) rfl hrest

/-- A page fetched in advance would have given the same answers. So a call that has to scan is a
call that has not, on the cursor with the page. -/
theorem Gives.of_fetched {answers : List Yield} {scans : Nat} (hbuffer : c.buffer = [])
    (hmore : c.finished = false) (hclear : faults.store .scan (calls.store .scan) = none)
    (h : (c.fetched (c.page s.view)).Gives faults s (calls.addStore .scan) (m + 1) answers scans) :
    c.Gives faults s calls (m + 1) answers (1 + scans) := by
  obtain ⟨c', calls', hask, hscans⟩ := h
  refine ⟨c', calls', ?_, hscans.trans (Nat.add_assoc _ 1 scans)⟩
  rw [ask, Access.bind_apply, next_of_stocked (stocked_fetched c s.view)] at hask
  rw [ask, Access.bind_apply, next_of_clear hbuffer hmore hclear]
  exact hask

/-- An exhausted cursor stays exhausted, and scans nothing. -/
theorem gives_of_exhausted (hbuffer : c.buffer = []) (hdone : c.finished = true) (m : Nat) :
    c.Gives faults s calls m (([] : List Yield).takeD m .exhausted) 0 := by
  induction m with
  | zero => exact ⟨c, calls, rfl, rfl⟩
  | succ m ih =>
    have hnext : c.next faults ⟨s, calls⟩ = .ok (.exhausted, c) ⟨s, calls⟩ := by
      rw [next_of_stocked fun _ => hdone, pop, hbuffer]
    exact .succ hnext rfl ih

/-- A failure is told, and then the cursor is exhausted: behind a scan that has failed there is no
other one. -/
theorem gives_of_fault {cause : StoreError} (hbuffer : c.buffer = []) (hmore : c.finished = false)
    (hfault : faults.store .scan (calls.store .scan) = some cause) (m : Nat) :
    c.Gives faults s calls (m + 1) ((c.answers s.view 0 (some cause)).takeD (m + 1) .exhausted)
      (c.scansFor (begun 0 (some cause)) (m + 1)) := by
  have hscans : c.scansFor (begun 0 (some cause)) (m + 1) = 1 + 0 := by
    rw [show begun 0 (some cause) = 0 + 1 from rfl, scansFor_succ hbuffer, Nat.min_zero]
  have hanswers : c.answers s.view 0 (some cause) = [.failure (.store cause)] := by
    simp [answers, hbuffer]
  have hempty : ({ c with finished := true } : Cursor).buffer = [] := hbuffer
  rw [hscans, hanswers]
  exact .succ (next_of_fault hbuffer hmore hfault) rfl (gives_of_exhausted hempty rfl m)

/-- **What lies ahead is answered.** The answers are the entries of the buffer and of the good
pages, then the failure if there is one, and then nothing for ever. -/
theorem gives_of_outlook (m : Nat)
    (h : Outlook faults (calls.store .scan) (c.scansLeft s.view) good failure) :
    c.Gives faults s calls m ((c.answers s.view good failure).takeD m .exhausted)
      (c.scansFor (begun good failure) m) := by
  induction m generalizing c calls good failure with
  | zero =>
    have hpos := c.pageSize_pos
    have hnone : c.scansFor (begun good failure) 0 = 0 := by
      rw [scansFor, Nat.zero_sub, Nat.zero_add, Nat.div_eq_of_lt (by omega), Nat.zero_min]
    exact ⟨c, calls, rfl, by rw [hnone]; rfl⟩
  | succ m ih =>
    -- A cursor that is stocked answers from its buffer, and the others follow by induction.
    have hstep : ∀ {c : Cursor} {calls : Calls} {good : Nat}, c.Stocked →
        Outlook faults (calls.store .scan) (c.scansLeft s.view) good failure →
        c.Gives faults s calls (m + 1) ((c.answers s.view good failure).takeD (m + 1) .exhausted)
          (c.scansFor (begun good failure) (m + 1)) := by
      intro c calls good hstocked h
      exact .succ_of_stocked hstocked h (ih (by rwa [scansLeft_pop]))
    by_cases hstocked : c.Stocked
    · exact hstep hstocked h
    · -- A page is needed. If its scan succeeds, the cursor with the page is stocked.
      obtain ⟨hbuffer, hmore⟩ := empty_of_not_stocked hstocked
      rw [scansLeft_fetched hbuffer hmore] at h
      rcases h.first with ⟨cause, rfl, rfl, hfault⟩ | ⟨rest, rfl, hclear, hrest⟩
      · exact gives_of_fault hbuffer hmore hfault m
      · rw [← answers_fetched hbuffer hmore]
        have hbegun : begun (rest + 1) failure = begun rest failure + 1 := Nat.add_right_comm ..
        rw [hbegun, scansFor_fetched hbuffer hrest.begun_le]
        exact .of_fetched hbuffer hmore hclear (hstep (stocked_fetched c s.view) hrest)

/-! ## From the start of a space -/

/-- Of two counts of pages, rounded up: the smaller one is that of fewer entries. -/
theorem min_ceil {p : Nat} (hp : 0 < p) (m x : Nat) :
    min ((m + p - 1) / p) (x / p + 1) = if m ≤ x then (m + p - 1) / p else x / p + 1 := by
  have hnext : (x + p) / p = x / p + 1 := Nat.add_div_right x hp
  split
  · next hle =>
    have hdiv : (m + p - 1) / p ≤ (x + p) / p := Nat.div_le_div_right (by omega)
    exact Nat.min_eq_left (hnext ▸ hdiv)
  · next hlt =>
    have hdiv : (x + p) / p ≤ (m + p - 1) / p := Nat.div_le_div_right (by omega)
    exact Nat.min_eq_right (hnext ▸ hdiv)

/-- The cursor goes through the entries in pages of `p`. -/
structure Pages (c : Cursor) (s : Store) (p : Nat) (entries : List Entry) : Prop where
  /-- Where no scan fails that is made, all entries are given. -/
  whole : ∀ faults calls,
    (∀ i ≤ entries.length / p, faults.store .scan (calls.store .scan + i) = none) →
      ∀ m, c.Gives faults s calls m ((entries.map Yield.entry).takeD m .exhausted)
        (if m ≤ entries.length then (m + p - 1) / p else entries.length / p + 1)
  /-- Where a scan fails behind `j` good ones, their pages are given, and then the failure. -/
  cut : ∀ faults calls j cause, j ≤ entries.length / p →
    (∀ i < j, faults.store .scan (calls.store .scan + i) = none) →
    faults.store .scan (calls.store .scan + j) = some cause →
      ∀ m, c.Gives faults s calls m
        (((entries.take (j * p)).map Yield.entry ++ [Yield.failure (.store cause)]).takeD m
          .exhausted)
        (if m ≤ j * p then (m + p - 1) / p else j + 1)
  /-- Whatever has happened, no key of the page to be fetched is shorter than the tag. -/
  tagged : ∀ faults calls m answers c' b, c.ask m faults ⟨s, calls⟩ = .ok (answers, c') b →
    ∀ e ∈ b.store.scan c'.nextStart c'.space.tag c'.pageSize, c'.space.tag.length ≤ e.key.length

/-- A cursor at the start of a space, of whose scans so many succeed. Its buffer is empty, so the
answers are the entries of the good pages and no others. -/
theorem gives_of_start {space : Space} {suffix : Bytes} {pageSize : Nat}
    (h : Outlook faults (calls.store .scan)
      ((space.suffixes suffix s.view).length / max 1 pageSize + 1) good failure) (m : Nat) :
    (start space suffix pageSize).Gives faults s calls m
      ((((space.suffixes suffix s.view).take (good * max 1 pageSize)).map Yield.entry ++
        (failure.map fun cause => Yield.failure (.store cause)).toList).takeD m .exhausted)
      (min ((m + max 1 pageSize - 1) / max 1 pageSize) (begun good failure)) := by
  have hleft : (start space suffix pageSize).scansLeft s.view =
      (space.suffixes suffix s.view).length / max 1 pageSize + 1 := by
    rw [Space.suffixes, List.length_map]
    rfl
  -- All that is pending is still in the store.
  have hgives := gives_of_outlook m (hleft ▸ h)
  unfold answers at hgives
  rw [pending_start] at hgives
  have hbuffer : (start space suffix pageSize).buffer.length = 0 := rfl
  rw [hbuffer, Nat.zero_add] at hgives
  exact hgives

/-- What a cursor gives of a space, in pages of any size. Both parts are cases of one outlook: no
scan fails, or the one behind `j` good ones does. -/
theorem pages_of_suffixes (space : Space) (suffix : Bytes) (pageSize : Nat) (s : Store) :
    (start space suffix pageSize).Pages s (max 1 pageSize) (space.suffixes suffix s.view) := by
  have hp : 0 < max 1 pageSize := Nat.le_max_left 1 pageSize
  refine ⟨fun faults calls hclear m => ?_, fun faults calls j cause hj hgood hfault m => ?_,
    fun faults calls m answers c' b _ e he => ?_⟩
  · -- All scans succeed, and the pages have room for all entries.
    have hlook : Outlook faults (calls.store .scan)
        ((space.suffixes suffix s.view).length / max 1 pageSize + 1) _ none :=
      .clear fun i hi => hclear i (Nat.le_of_lt_succ hi)
    have hgives := gives_of_start hlook m
    have hwhole : (space.suffixes suffix s.view).length ≤
        ((space.suffixes suffix s.view).length / max 1 pageSize + 1) * max 1 pageSize :=
      Nat.le_of_lt (Nat.lt_mul_of_div_lt (Nat.lt_succ_self _) hp)
    rw [List.take_of_length_le hwhole] at hgives
    rw [← min_ceil hp]
    simpa [begun] using hgives
  · have hlook : Outlook faults (calls.store .scan)
        ((space.suffixes suffix s.view).length / max 1 pageSize + 1) j (some cause) :=
      .fails (Nat.lt_succ_of_le hj) hgood hfault
    have hgives := gives_of_start hlook m
    -- The pages before the scan that fails are full, so they hold `j * p` entries.
    have hmin := min_ceil hp m (j * max 1 pageSize)
    rw [Nat.mul_div_cancel j hp] at hmin
    rw [← hmin]
    exact hgives
  · -- What a scan returns begins with the tag it was asked for.
    obtain ⟨-, -, hpre⟩ := Store.mem_view_of_mem_scan he
    exact hpre.length_le

/-- **Pages lose nothing and give nothing twice.** What the keys of a space hold from a start on is
one list of entries. A cursor gives it from its beginning, whatever the size of its pages. It makes
no scan before it has to, and a scan that fails is told once and is the last one. -/
theorem pages_of_start (space : Space) (suffix : Bytes) (s : Store) :
    ∃ entries : List Entry, entries.Pairwise Entry.Before ∧
      (∀ e, e ∈ entries ↔
        s.get? (space.key e.key) = some e.value ∧ ¬ space.key e.key < space.key suffix) ∧
        ∀ pageSize, (start space suffix pageSize).Pages s (max 1 pageSize) entries := by
  refine ⟨space.suffixes suffix s.view, Space.ascending_suffixes space suffix s.view, fun e => ?_,
    fun pageSize => pages_of_suffixes space suffix pageSize s⟩
  rw [Space.mem_suffixes_iff, Store.get?_view, Space.key_lt_key_iff]

end TxIndex.Cursor
