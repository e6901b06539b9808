import TxIndex.Access.Basic
import TxIndex.Access.Closed
import TxIndex.Access.Lemmas
import TxIndex.Backfill.Closed
import TxIndex.Backfill.Merge
import TxIndex.Backfill.Remaining
import TxIndex.Backfill.Report
import TxIndex.Backfill.Run
import TxIndex.Bytes.Basic
import TxIndex.Bytes.Endian
import TxIndex.Bytes.Hex
import TxIndex.Bytes.Order
import TxIndex.Codec.Basic
import TxIndex.Codec.Error
import TxIndex.Codec.Lemmas
import TxIndex.Codec.Wire
import TxIndex.Config
import TxIndex.Cursor
import TxIndex.Defect
import TxIndex.Digest.Sha256
import TxIndex.Error
import TxIndex.Height
import TxIndex.Marker
import TxIndex.Proofs.Access.Calls
import TxIndex.Proofs.Access.Commits
import TxIndex.Proofs.Access.Invariants
import TxIndex.Proofs.Access.Journal
import TxIndex.Proofs.Access.Relations
import TxIndex.Proofs.Access.Runs
import TxIndex.Proofs.Backfill.Acceptance
import TxIndex.Proofs.Backfill.Accounts
import TxIndex.Proofs.Backfill.Calls
import TxIndex.Proofs.Backfill.Checkpoints
import TxIndex.Proofs.Backfill.Convergence
import TxIndex.Proofs.Backfill.Crash
import TxIndex.Proofs.Backfill.Durable
import TxIndex.Proofs.Backfill.Entries
import TxIndex.Proofs.Backfill.Journal
import TxIndex.Proofs.Backfill.Listed
import TxIndex.Proofs.Backfill.MarkerForms
import TxIndex.Proofs.Backfill.Newcomers
import TxIndex.Proofs.Backfill.Opening
import TxIndex.Proofs.Backfill.Pages
import TxIndex.Proofs.Backfill.Positions
import TxIndex.Proofs.Backfill.Resumption
import TxIndex.Proofs.Backfill.Specification
import TxIndex.Proofs.Backfill.Tables
import TxIndex.Proofs.Backfill.Verdicts
import TxIndex.Proofs.Backfill.Visits
import TxIndex.Proofs.Bytes.BigEndian
import TxIndex.Proofs.Codec.Cuts
import TxIndex.Proofs.Codec.Exact
import TxIndex.Proofs.Codec.RoundTrip
import TxIndex.Proofs.Cursor.Listing
import TxIndex.Proofs.Cursor.Paging
import TxIndex.Proofs.Outcome
import TxIndex.Proofs.Record
import TxIndex.Proofs.Repository.Answers
import TxIndex.Proofs.Repository.Completion
import TxIndex.Proofs.Repository.FailedWrite
import TxIndex.Proofs.Repository.History
import TxIndex.Proofs.Repository.Indexes
import TxIndex.Proofs.Repository.KeyOrder
import TxIndex.Proofs.Repository.Lookups
import TxIndex.Proofs.Repository.MarkerForms
import TxIndex.Proofs.Repository.Rebuild
import TxIndex.Proofs.Repository.Refinement
import TxIndex.Proofs.Repository.Rerun
import TxIndex.Proofs.Repository.Staged
import TxIndex.Proofs.Repository.Truncation
import TxIndex.Proofs.Repository.WholeHeights
import TxIndex.Proofs.Repository.Write
import TxIndex.Proofs.Space
import TxIndex.Proofs.Store.Histories
import TxIndex.Proofs.Store.Scan
import TxIndex.Proofs.Table.Parts
import TxIndex.Record
import TxIndex.Repository
import TxIndex.Space
import TxIndex.Store.Basic
import TxIndex.Store.Error
import TxIndex.Store.Family
import TxIndex.Store.Lemmas
import TxIndex.Table.Basic
import TxIndex.Table.Lemmas
import TxIndex.Transaction
