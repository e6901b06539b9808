import TxIndex.Proofs.Access.Calls
import TxIndex.Proofs.Repository.Staged

/-!
# What a write does

A write encodes everything before it stages anything. Without faults it stages all of its entries or
none (`runs_write_ok`, `runs_write_error`), and which of the two is told by the lengths, the bound
and the version alone (`Accepts`).

With faults it ends in one of three ways. It succeeds, and then it has met no fault (`write_eq_ok`);
it is refused, with nothing staged; or the store interrupts it at one of the puts, and then the
entries before that put are staged (`write_eq_error`). What other modules need to know of a write
that may fail is read off these two: `store_of_write_error` where the store does not fail,
`store_after_write` for the beginning of the entries that every write leaves.
-/

namespace TxIndex

namespace Store

/-- The entries put one after the other. -/
def putAll (s : Store) (entries : List Entry) : Store :=
  entries.foldl (fun s e => s.put e.key e.value) s

@[simp] theorem committed_putAll (s : Store) (entries : List Entry) :
    (s.putAll entries).committed = s.committed := by
  induction entries generalizing s with
  | nil => rfl
  | cons e entries ih => exact ih (s.put e.key e.value)

@[simp] theorem view_putAll (s : Store) (entries : List Entry) :
    (s.putAll entries).view = s.view.insertAll entries := by
  induction entries generalizing s with
  | nil => rfl
  | cons e entries ih =>
    show ((s.put e.key e.value).putAll entries).view = _
    rw [ih, view_put]
    rfl

/-- Puts add to what is staged, and to nothing else. -/
theorem putAll_eq (s : Store) (entries : List Entry) :
    s.putAll entries = { s with staged := s.staged.insertAll entries } := by
  induction entries generalizing s with
  | nil => rfl
  | cons e entries ih => exact ih (s.put e.key e.value)

end Store

namespace Repository

variable {r : Repository} {height : Height} {txs : List Transaction} {s : Store} {faults : Faults}
  {b b' : Backend} {cause : Error}

/-! ## The outcome -/

/-- The entry of a record, or why there is none. -/
def entry? (r : Repository) (height : Height) (tx : Transaction) : Except Error Entry := do
  let payload ← (r.codec.marshal r.config.codecVersion tx).mapError .codec
  let value ← (Record.encode { height, payload }).mapError .corruption
  return ⟨Key.tx tx.id, value⟩

/-- The entries of a write, or why it is refused. This is what the write computes before its first
put. -/
def entries? (r : Repository) (height : Height) (txs : List Transaction) :
    Except Error (List Entry) := do
  r.checkBound height txs.length
  let records ← txs.mapM (r.entry? height)
  let batch ← (r.codec.marshal r.config.codecVersion txs).mapError .codec
  return records ++ [⟨Key.height height, batch⟩, markerEntry height]

/-- A record is encoded if the version is known and the length of the payload can be told, and then
it is the entry of `recordEntry`. -/
theorem entry?_eq_ok_iff {tx : Transaction} {e : Entry} :
    r.entry? height tx = .ok e ↔
      (r.config.codecVersion ∈ r.codec.supported ∧ (r.payload tx).length < capacity 4) ∧
        e = r.recordEntry height tx := by
  unfold entry?
  simp only [Except.bind_eq_ok_iff, Except.mapError_eq_ok_iff, Codec.marshal_tx_iff]
  refine ⟨fun h => ?_, fun h => ?_⟩
  · obtain ⟨payload, ⟨hversion, rfl⟩, value, hvalue, h⟩ := h
    obtain ⟨hlen, rfl⟩ := Record.encode_eq_ok_iff.1 hvalue
    cases h
    exact ⟨⟨hversion, hlen⟩, rfl⟩
  · obtain ⟨⟨hversion, hlen⟩, rfl⟩ := h
    exact ⟨r.payload tx, ⟨hversion, rfl⟩, _, if_pos hlen, rfl⟩

/-- The bound is kept if there is none, or the list is no longer than it. -/
theorem checkBound_eq_ok_iff {count : Nat} :
    r.checkBound height count = .ok () ↔
      ∀ max, r.config.maxTxsPerHeight = some max → count ≤ max := by
  unfold checkBound
  cases hmax : r.config.maxTxsPerHeight with
  | none => exact ⟨fun _ max heq => (nomatch heq), fun _ => rfl⟩
  | some max =>
    show (if max < count then Except.error (Error.batchTooLarge height count max)
      else Except.ok ()) = .ok () ↔ _
    by_cases hlt : max < count
    · rw [if_pos hlt]
      refine ⟨fun h => (nomatch h), fun h => ?_⟩
      have hle := h max rfl
      omega
    · rw [if_neg hlt]
      refine ⟨fun _ max' heq => ?_, fun _ => rfl⟩
      cases heq
      omega

/-- A write is either accepted whole or refused: what can be encoded is told by the settings and the
lengths, and then the entries are those of `stagedEntries`. -/
theorem entries?_eq_ok_iff {entries : List Entry} :
    r.entries? height txs = .ok entries ↔
      r.Accepts txs ∧ entries = r.stagedEntries height txs := by
  have hrecords (records : List Entry) :
      txs.mapM (r.entry? height) = .ok records ↔
        (∀ tx ∈ txs, r.config.codecVersion ∈ r.codec.supported ∧
          (r.payload tx).length < capacity 4) ∧ records = txs.map (r.recordEntry height) :=
    Except.mapM_eq_ok_iff fun tx e => entry?_eq_ok_iff
  unfold entries?
  simp only [Except.bind_eq_ok_iff, Except.mapError_eq_ok_iff, hrecords, Codec.marshal_batch_iff]
  refine ⟨fun h => ?_, fun h => ?_⟩
  · obtain ⟨_, hbound, records, ⟨hall, rfl⟩, batch, ⟨hversion, hlen, rfl⟩, h⟩ := h
    cases h
    exact ⟨⟨checkBound_eq_ok_iff.1 hbound, hversion, fun tx htx => (hall tx htx).2, hlen⟩, rfl⟩
  · obtain ⟨haccepts, rfl⟩ := h
    have hall := fun tx htx => And.intro haccepts.version (haccepts.payloads tx htx)
    exact ⟨(), checkBound_eq_ok_iff.2 haccepts.bound, _, ⟨hall, rfl⟩, _,
      ⟨haccepts.version, haccepts.length, rfl⟩, rfl⟩

/-! ## Runs -/

/-- Puts the entries one after the other. -/
def putEach (entries : List Entry) : Access Unit :=
  entries.forM fun e => Access.put e.key e.value

theorem putEach_cons (e : Entry) (entries : List Entry) :
    putEach (e :: entries) = (Access.put e.key e.value >>= fun _ => putEach entries) := rfl

/-- A write is a check, an encoding of all entries, and then their puts. -/
theorem write_eq (r : Repository) (height : Height) (txs : List Transaction) :
    r.write height txs = (do
      MonadExcept.ofExcept (r.checkBound height txs.length)
      let entries ← r.writeEntries height txs
      putEach entries) := rfl

theorem runs_putEach (entries : List Entry) (s : Store) :
    Access.Runs (putEach entries) s (.ok ()) (s.putAll entries) := by
  induction entries generalizing s with
  | nil => exact .pure () s
  | cons e entries ih =>
    rw [putEach_cons]
    exact .bind (.put e.key e.value s) (ih (s.put e.key e.value))

/-- Without faults, the entry of a record comes to what `entry?` says, and the store is not
called. -/
theorem runs_txEntry (r : Repository) (height : Height) (tx : Transaction) (s : Store) :
    Access.Runs (r.txEntry height tx) s (r.entry? height tx) s :=
  .bind_outcome (.callCodec .marshalTx _ _ s) fun _ => .bind_outcome (.ofStored _ s) fun _ => .pure _ s

/-- Without faults, the entries of a write come to what `entries?` says, once the bound has been
checked. -/
theorem runs_writeEntries (r : Repository) (height : Height) (txs : List Transaction) (s : Store)
    (hbound : r.checkBound height txs.length = .ok ()) :
    Access.Runs (r.writeEntries height txs) s (r.entries? height txs) s := by
  unfold entries?
  rw [hbound]
  refine .bind_outcome (.mapM txs fun tx => runs_txEntry r height tx s) fun records => ?_
  exact .bind_outcome (.callCodec .marshalBatch _ _ s) fun batch => .pure _ s

/-- **A write that is acceptable stages all of its entries**, in the order of `stagedEntries`. -/
theorem runs_write_ok (height : Height) (s : Store) (h : r.Accepts txs) :
    Access.Runs (r.write height txs) s (.ok ()) (s.putAll (r.stagedEntries height txs)) := by
  have hbound : r.checkBound height txs.length = .ok () := checkBound_eq_ok_iff.2 h.bound
  have hentries := runs_writeEntries r height txs s hbound
  rw [entries?_eq_ok_iff.2 ⟨h, rfl⟩] at hentries
  exact .bind (.ofExcept hbound s) (.bind hentries (runs_putEach _ s))

/-- **A write that is not acceptable is refused**, and has staged nothing by then. -/
theorem runs_write_error (height : Height) (s : Store) (h : ¬ r.Accepts txs) :
    ∃ e, Access.Runs (r.write height txs) s (.error e) s := by
  rw [write_eq]
  rcases hbound : r.checkBound height txs.length with e | _
  · exact ⟨e, .bind_error (.ofExcept rfl s)⟩
  · have hentries := runs_writeEntries r height txs s hbound
    cases houtcome : r.entries? height txs with
    | ok entries => exact absurd (entries?_eq_ok_iff.1 houtcome).1 h
    | error e =>
      rw [houtcome] at hentries
      exact ⟨e, .bind (.ofExcept rfl s) (.bind_error hentries)⟩

/-! ## Along its text

What a write does before its puts makes no call of the store, so every property that is proved along
the text of a program holds of it. -/

section Closed

variable {P : ∀ α : Type, Access α → Prop}

/-- What is computed before the puts calls the codec and nothing else. -/
theorem closed_writeEntries (h : Access.Closed P) (r : Repository) (height : Height)
    (txs : List Transaction) : P (List Entry) (r.writeEntries height txs) := by
  have hcodec : ∀ e cause, Error.codec e ≠ .store cause := fun _ _ heq => nomatch heq
  have hentry (tx : Transaction) : P Entry (r.txEntry height tx) :=
    h.bind (h.callCodec _ _ hcodec) fun _ => h.bind (h.ofStored _) fun _ => h.pure _
  exact h.bind (h.mapM hentry txs) fun _ => h.bind (h.callCodec _ _ hcodec) fun _ => h.pure _

/-- The bound is the write's own: it is never refused in the name of the store. -/
theorem checkBound_ne_store (r : Repository) (height : Height) (count : Nat) (cause : StoreError) :
    r.checkBound height count ≠ .error (.store cause) := by
  intro h
  unfold checkBound at h
  split at h
  · split at h <;> cases h
  · cases h

/-- A write makes no call of the store but puts, and these come last. -/
theorem closed_write (h : Access.Closed P) (hput : ∀ key value, P Unit (Access.put key value))
    (r : Repository) (height : Height) (txs : List Transaction) :
    P Unit (r.write height txs) := by
  rw [write_eq]
  refine h.bind (h.ofExcept (checkBound_ne_store r height txs.length)) fun _ => ?_
  refine h.bind (closed_writeEntries h r height txs) fun entries => ?_
  unfold putEach
  exact h.forM (fun e => hput e.key e.value) entries

end Closed

/-! ## With any faults -/

/-- A write that succeeds has met no fault: it was acceptable, and all of it is staged. -/
theorem write_eq_ok (h : r.write height txs faults b = .ok () b') :
    r.Accepts txs ∧ b'.store = b.store.putAll (r.stagedEntries height txs) := by
  have hfree : Access.Unfaulted (r.write height txs) :=
    closed_write Access.Unfaulted.closed Access.Unfaulted.put r height txs
  by_cases haccepts : r.Accepts txs
  · obtain ⟨-, hstore⟩ := (runs_write_ok height b.store haccepts).of_ok hfree rfl h
    exact ⟨haccepts, hstore⟩
  · obtain ⟨e, hruns⟩ := runs_write_error height b.store haccepts
    obtain ⟨hok, -⟩ := hruns.of_ok hfree rfl h
    cases hok

/-- Of the puts to come, the first `k` succeed and the next one fails; all are puts of entries. -/
structure FailsAt (faults : Faults) (calls : Calls) (entries : List Entry) (k : Nat)
    (cause : StoreError) : Prop where
  lt : k < entries.length
  clear : ∀ j < k, faults.store .put (calls.store .put + j) = none
  fault : faults.store .put (calls.store .put + k) = some cause

theorem failsAt_cons {calls : Calls} {e : Entry} {entries : List Entry} {k : Nat}
    {cause : StoreError} (hfirst : faults.store .put (calls.store .put) = none)
    (h : FailsAt faults (calls.addStore .put) entries k cause) :
    FailsAt faults calls (e :: entries) (k + 1) cause := by
  have hshift (j : Nat) : calls.store .put + (j + 1) = (calls.addStore .put).store .put + j := by
    rw [Calls.store_addStore_self]
    omega
  refine ⟨Nat.succ_lt_succ h.lt, fun j hj => ?_, ?_⟩
  · cases j with
    | zero => exact hfirst
    | succ j =>
      rw [hshift]
      exact h.clear j (by omega)
  · rw [hshift]
    exact h.fault

/-- Where putting the entries fails, it has failed at one of them, and those before it are put. By
induction on the entries, from the first one on. -/
theorem putEach_eq_error {entries : List Entry} (h : putEach entries faults b = .error cause b') :
    ∃ k e, cause = .store e ∧ FailsAt faults b.calls entries k e ∧
      b'.store = b.store.putAll (entries.take k) := by
  induction entries generalizing b with
  | nil => cases h
  | cons entry entries ih =>
    rw [putEach_cons, Access.bind_apply] at h
    unfold Access.put at h
    cases hfault : faults.store .put (b.calls.store .put) with
    | some e =>
      rw [Access.callStore_of_fault hfault] at h
      cases h
      -- The first put has failed, and none before it could be made.
      exact ⟨0, e, rfl, ⟨Nat.succ_pos _, fun j hj => absurd hj (Nat.not_lt_zero j), hfault⟩, rfl⟩
    | none =>
      rw [Access.callStore_of_clear hfault] at h
      -- The entry is put, and a later one has failed. Seen from here its put is one call later.
      obtain ⟨k, e, hcause, hcut, hstore⟩ := ih h
      exact ⟨k + 1, e, hcause, failsAt_cons hfault hcut, hstore⟩

/-- **A write that fails has been refused, or it has been interrupted at one of the puts.** Its own
refusals come first and leave the store alone; what the store refuses is a put of an entry, and by
then everything has been encoded, so the write was acceptable. -/
theorem write_eq_error (h : r.write height txs faults b = .error cause b') :
    (∀ e, cause ≠ .store e) ∧ b'.store = b.store ∨
      r.Accepts txs ∧ ∃ k e, cause = .store e ∧
        FailsAt faults b.calls (r.stagedEntries height txs) k e ∧
        b'.store = b.store.putAll ((r.stagedEntries height txs).take k) := by
  rw [write_eq] at h
  cases hbound : r.checkBound height txs.length with
  | error refusal =>
    rw [hbound] at h
    cases h
    -- Too many transactions: nothing has been called yet.
    exact .inl ⟨fun e heq => checkBound_ne_store r height txs.length e (heq ▸ hbound), rfl⟩
  | ok =>
    rw [hbound] at h
    change (r.writeEntries height txs >>= putEach) faults b = _ at h
    -- Encoding makes no call of the store, so until the first put the store is as it was.
    have hoffline : Access.Offline (r.writeEntries height txs) :=
      closed_writeEntries Access.Offline.closed r height txs
    have hfree : Access.Unfaulted (r.writeEntries height txs) :=
      closed_writeEntries Access.Unfaulted.closed r height txs
    rcases Access.bind_eq_error_iff.1 h with hentries | ⟨entries, b₁, hentries, hput⟩
    · obtain ⟨hstore, -, hcause⟩ := hoffline.of_error hentries
      exact .inl ⟨hcause, hstore⟩
    · -- The entries that are put are those of the write, and no put has been made for them.
      obtain ⟨hsame, hcalls⟩ := hoffline.of_ok hentries
      obtain ⟨hok, -⟩ := (runs_writeEntries r height txs b.store hbound).of_ok hfree rfl hentries
      obtain ⟨haccepts, rfl⟩ := entries?_eq_ok_iff.1 hok
      obtain ⟨k, e, hcause, hcut, hstore⟩ := putEach_eq_error hput
      rw [hsame] at hstore
      refine .inr ⟨haccepts, k, e, hcause, ⟨hcut.lt, ?_, ?_⟩, hstore⟩
      · rw [← hcalls]
        exact hcut.clear
      · rw [← hcalls]
        exact hcut.fault

/-- Where the store does not fail, a write that fails has staged nothing. -/
theorem store_of_write_error (hstore : ∀ n, faults.store .put n = none)
    (h : r.write height txs faults b = .error cause b') : b'.store = b.store := by
  rcases write_eq_error h with ⟨-, hsame⟩ | ⟨-, k, e, -, hcut, -⟩
  · exact hsame
  · have hfault := hcut.fault
    rw [hstore] at hfault
    cases hfault

/-- However a write ends, it has left the store as it was, or it was acceptable and has staged a
beginning of its entries. -/
theorem store_after_write (r : Repository) (height : Height) (txs : List Transaction)
    (faults : Faults) (b : Backend) :
    (Access.after (r.write height txs) faults b).store = b.store ∨
      r.Accepts txs ∧ ∃ k, (Access.after (r.write height txs) faults b).store =
        b.store.putAll ((r.stagedEntries height txs).take k) := by
  unfold Access.after
  cases hrun : r.write height txs faults b with
  | ok done b' =>
    obtain ⟨haccepts, hstore⟩ := write_eq_ok hrun
    refine .inr ⟨haccepts, (r.stagedEntries height txs).length, ?_⟩
    rw [List.take_length]
    exact hstore
  | error cause b' =>
    rcases write_eq_error hrun with ⟨-, hsame⟩ | ⟨haccepts, k, -, -, -, hstore⟩
    · exact .inl hsame
    · exact .inr ⟨haccepts, k, hstore⟩

end Repository

end TxIndex
