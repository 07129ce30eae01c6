import QdsBuffer.Library.Bytes
import QdsBuffer.Library.Binary64
import QdsBuffer.Library.Regex
import QdsBuffer.Library.RegexMatch
import QdsBuffer.Library.Numerals
import QdsBuffer.Library.Gregorian
import QdsBuffer.Library.KeyedTable
import QdsBuffer.Library.Runs
import QdsBuffer.Library.BoundedLog
import QdsBuffer.Library.LockOrder
import QdsBuffer.Library.LockSets
import QdsBuffer.Library.Linearization
import QdsBuffer.Library.Journal
import QdsBuffer.Library.Obligations
import QdsBuffer.Library.Completion
import QdsBuffer.Library.LockSections
import QdsBuffer.Library.Budget
import QdsBuffer.Library.Tenure
import QdsBuffer.Types
import QdsBuffer.Parsing.Iso8601
import QdsBuffer.Parsing.Calendar
import QdsBuffer.Parsing.Timestamps
import QdsBuffer.Parsing.TimesOfDay
import QdsBuffer.Parsing.JsonParser
import QdsBuffer.Parsing.DataValidator
import QdsBuffer.Parsing.Accepted
import QdsBuffer.Parsing.Pieces
import QdsBuffer.Parsing.Objects
import QdsBuffer.Parsing.Documents
import QdsBuffer.Parsing.Integers
import QdsBuffer.Parsing.Keys
import QdsBuffer.Parsing.Slots
import QdsBuffer.Parsing.Structure
import QdsBuffer.Parsing.Duplicates
import QdsBuffer.Parsing.Reordered
import QdsBuffer.Parsing.ToJson
import QdsBuffer.Parsing.Printing
import QdsBuffer.Parsing.Language
import QdsBuffer.RingBuffer.Basic
import QdsBuffer.RingBuffer.Push
import QdsBuffer.RingBuffer.Invariant
import QdsBuffer.RingBuffer.Refusal
import QdsBuffer.RingBuffer.Effect
import QdsBuffer.RingBuffer.Locked
import QdsBuffer.RingBuffer.Notified
import QdsBuffer.RingBuffer.Eviction
import QdsBuffer.RingBuffer.Search
import QdsBuffer.RingBuffer.Replacement
import QdsBuffer.RingBuffer.LastId
import QdsBuffer.RingBuffer.Times
import QdsBuffer.RingBuffer.Chronology
import QdsBuffer.DataSource.Basic
import QdsBuffer.DataSource.Effect
import QdsBuffer.DataSource.References
import QdsBuffer.DataSource.SingleRef
import QdsBuffer.DataSource.Invariant
import QdsBuffer.DataSource.Correspondence
import QdsBuffer.DataSource.Rollback
import QdsBuffer.DataSource.Overflow
import QdsBuffer.DataSource.Logs
import QdsBuffer.DataSource.Accepted
import QdsBuffer.DataSource.Assigned
import QdsBuffer.DataSource.Exclusive
import QdsBuffer.DataSource.Unused
import QdsBuffer.DataSource.Cleared
import QdsBuffer.DataSource.Loaded
import QdsBuffer.DataSource.NoTrace
import QdsBuffer.DataSource.Resolved
import QdsBuffer.DataSource.Update
import QdsBuffer.Concurrent.Basic
import QdsBuffer.Concurrent.Resolvable
import QdsBuffer.Concurrent.Locks
import QdsBuffer.Concurrent.Acts
import QdsBuffer.Concurrent.Stability
import QdsBuffer.Concurrent.Completion
import QdsBuffer.Concurrent.Journals
import QdsBuffer.Concurrent.Linearizable
import QdsBuffer.Concurrent.Reports
import QdsBuffer.Concurrent.Chronology
import QdsBuffer.Concurrent.Conservation
import QdsBuffer.Concurrent.Entries
import QdsBuffer.Concurrent.Retention
import QdsBuffer.Concurrent.Ownership
import QdsBuffer.Concurrent.Origins
import QdsBuffer.Concurrent.Sections
import QdsBuffer.Concurrent.Retrieval
import QdsBuffer.Concurrent.Naming
import QdsBuffer.Concurrent.Tenancy
import QdsBuffer.Concurrent.StoredReferences
import QdsBuffer.Library.Atomicity
import QdsBuffer.Concurrent.Atomic
