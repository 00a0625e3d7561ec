import LeaseLock.Clock
import LeaseLock.Defaults
import LeaseLock.Dialog
import LeaseLock.Duration.Human
import LeaseLock.Duration.Iso
import LeaseLock.Duration.Notation
import LeaseLock.Duration.Written
import LeaseLock.Error
import LeaseLock.GuardedClock
import LeaseLock.Holder
import LeaseLock.Lock.Context
import LeaseLock.Lock.Execution
import LeaseLock.Lock.Handle
import LeaseLock.Lock.Lease
import LeaseLock.Lock.Shown
import LeaseLock.Outcome
import LeaseLock.Proofs.Coherence
import LeaseLock.Proofs.Dates
import LeaseLock.Proofs.Digits
import LeaseLock.Proofs.Exclusion
import LeaseLock.Proofs.ExecutionTurns
import LeaseLock.Proofs.Executions
import LeaseLock.Proofs.Fleet
import LeaseLock.Proofs.LeaseTerms
import LeaseLock.Proofs.Linearization
import LeaseLock.Proofs.Pool
import LeaseLock.Proofs.StampCodec
import LeaseLock.Proofs.Stamps
import LeaseLock.Proofs.StoreCalls
import LeaseLock.Proofs.TableRefinement
import LeaseLock.Proofs.TableRows
import LeaseLock.Redis.Command
import LeaseLock.Redis.Key
import LeaseLock.Redis.Lease
import LeaseLock.Redis.Url
import LeaseLock.Registry
import LeaseLock.Routine
import LeaseLock.Scenario.Backend
import LeaseLock.Scenario.Event
import LeaseLock.Scenario.Play
import LeaseLock.Scenario.Rehearsal
import LeaseLock.Scenario.Setup
import LeaseLock.Scenario.Step
import LeaseLock.Scenario.World
import LeaseLock.Settings.Basic
import LeaseLock.Settings.Choice
import LeaseLock.Settings.Connection
import LeaseLock.Settings.Document
import LeaseLock.Settings.Environment
import LeaseLock.Settings.Source
import LeaseLock.Sql.Command
import LeaseLock.Sql.Database
import LeaseLock.Sql.Dialect
import LeaseLock.Sql.Disk
import LeaseLock.Sql.Identifier
import LeaseLock.Sql.Layout
import LeaseLock.Sql.Param
import LeaseLock.Sql.Product
import LeaseLock.Sql.Schema
import LeaseLock.Sql.ServerTime
import LeaseLock.Sql.Statement
import LeaseLock.Sql.Table
import LeaseLock.Sql.Url
import LeaseLock.Store.Call
import LeaseLock.Store.Memory
import LeaseLock.Store.Record
import LeaseLock.Terms
import LeaseLock.Text.Blank
import LeaseLock.Text.Numeral
import LeaseLock.Text.Percent
import LeaseLock.Text.Quoted
import LeaseLock.Text.Separated
import LeaseLock.Text.Visible
import LeaseLock.Time.Calendar
import LeaseLock.Time.Instant
import LeaseLock.Time.Span
import LeaseLock.Time.Stamp
import LeaseLock.Time.StampReader
import LeaseLock.Yaml.Cursor
import LeaseLock.Yaml.Meaning
import LeaseLock.Yaml.Node
import LeaseLock.Yaml.Scalar
import LeaseLock.Yaml.Token
import LeaseLock.Proofs.CallOrder
import LeaseLock.Proofs.Deadlines
import LeaseLock.Proofs.Plans
import LeaseLock.Proofs.Tickets
import LeaseLock.Proofs.Entries
import LeaseLock.Proofs.Sharing
import LeaseLock.Proofs.Ledger
import LeaseLock.Proofs.Crew
import LeaseLock.Proofs.LedgerCrews
import LeaseLock.Proofs.Attempts
import LeaseLock.Proofs.Custody
import LeaseLock.Proofs.Supersession
import LeaseLock.Proofs.KeptLocks
import LeaseLock.Proofs.ServerTimes
import LeaseLock.Proofs.TableLeases
import LeaseLock.Proofs.Dialects
import LeaseLock.Proofs.Interference
import LeaseLock.Proofs.WrittenDurations
import LeaseLock.Proofs.Families
import LeaseLock.Proofs.Safety
import LeaseLock.Proofs.Nesting
import LeaseLock.Proofs.DurationGrammar
import LeaseLock.Proofs.InternationalNotation
import LeaseLock.Proofs.WordedAmounts
import LeaseLock.Proofs.Overruns
import LeaseLock.Proofs.Synonyms
import LeaseLock.Proofs.Records
import LeaseLock.Proofs.Rendering
import LeaseLock.Proofs.SchemaNames
import LeaseLock.Proofs.ServerCommands
import LeaseLock.Proofs.Trails
import LeaseLock.Proofs.TrailKeeping
import LeaseLock.Proofs.Targets
import LeaseLock.Proofs.LateExtensions
import LeaseLock.Proofs.Manners
import LeaseLock.Proofs.Chronicles
import LeaseLock.Proofs.Reentry
import LeaseLock.Proofs.KeyServers
import LeaseLock.Proofs.KeptKeys
import LeaseLock.Proofs.KeysAndValues
import LeaseLock.Proofs.Overlays
import LeaseLock.Proofs.ClockReadings
