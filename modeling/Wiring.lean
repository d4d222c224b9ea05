import Wiring.Calendar.Date
import Wiring.Calendar.DateTime
import Wiring.Calendar.Reading
import Wiring.Config.Environment
import Wiring.Config.Error
import Wiring.Config.Layer
import Wiring.Config.Lookup
import Wiring.Config.Placeholder
import Wiring.Config.Shape
import Wiring.Config.Source
import Wiring.Config.Variables
import Wiring.Container.Basic
import Wiring.Container.Context
import Wiring.Discovery
import Wiring.Error
import Wiring.Number.Binary
import Wiring.Number.FloatText
import Wiring.Number.Literal
import Wiring.Number.Numeral
import Wiring.Number.Shortest
import Wiring.Proofs.Config.Expansion
import Wiring.Proofs.Config.Resolution
import Wiring.Proofs.Config.Soundness
import Wiring.Proofs.Number.Exact
import Wiring.Proofs.Record.Descriptors
import Wiring.Proofs.Record.Fits
import Wiring.Proofs.Record.Slots
import Wiring.Proofs.Value.Storing
import Wiring.Record.Access
import Wiring.Record.Copy
import Wiring.Record.Descriptor
import Wiring.Record.Introspector
import Wiring.Record.Lineage
import Wiring.Registry.Action
import Wiring.Registry.Basic
import Wiring.Registry.Crew
import Wiring.Registry.Duration
import Wiring.Registry.Operations
import Wiring.Registry.Settings
import Wiring.Registry.Wait
import Wiring.Text.Ascii
import Wiring.Text.Blank
import Wiring.Text.EscapedTable
import Wiring.Text.Flips
import Wiring.Text.Lower
import Wiring.Text.LowerTable
import Wiring.Text.Quoted
import Wiring.Text.Segments
import Wiring.Text.Utf8
import Wiring.Toml.Basic
import Wiring.Toml.Document
import Wiring.Toml.Lexeme
import Wiring.Toml.Reader
import Wiring.Toml.Stamp
import Wiring.TypeName
import Wiring.Uuid
import Wiring.Value.Basic
import Wiring.Value.Coercion
import Wiring.Value.FieldType
import Wiring.Value.Toml
import Wiring.Proofs.Record.Copying
import Wiring.Proofs.Registry.Calls
import Wiring.Proofs.Registry.Histories
import Wiring.Proofs.Registry.Singletons
import Wiring.Proofs.Container.Entries
import Wiring.Proofs.Container.Naming
import Wiring.Proofs.Record.Lens
import Wiring.Proofs.Registry.Misled
import Wiring.Proofs.Config.Aliases
import Wiring.Proofs.Config.PathOrder
import Wiring.Proofs.Config.Overrides
import Wiring.Proofs.Record.Caching
import Wiring.Proofs.Number.Numerals
import Wiring.Proofs.Text.Encoding
import Wiring.Proofs.Value.Uuids
import Wiring.Proofs.Calendar.Digits
import Wiring.Proofs.Calendar.Written
import Wiring.Proofs.Value.Texts
import Wiring.Proofs.Config.Layers
import Wiring.Proofs.Config.Tables
import Wiring.Proofs.Container.Registering
import Wiring.Proofs.Registry.Answers
import Wiring.Proofs.Registry.Overflow
import Wiring.Proofs.Registry.Waits
import Wiring.Proofs.Registry.Consulting
import Wiring.Proofs.Registry.Courses
import Wiring.Proofs.Registry.Refusals
import Wiring.Proofs.Toml.Documents
import Wiring.Proofs.Config.Stack
import Wiring.Proofs.Config.Nesting
import Wiring.Proofs.Container.Displacement
import Wiring.Proofs.Discovery.Passes
import Wiring.Proofs.Number.Values
import Wiring.Proofs.Number.Nearest
import Wiring.Proofs.Value.Numbers
import Wiring.Proofs.Toml.Assignments
import Wiring.Proofs.Config.Merging
import Wiring.Proofs.Value.Outcomes
import Wiring.Proofs.Record.BulkWrites
import Wiring.Proofs.Record.Merging
import Wiring.Proofs.Record.Flattening
import Wiring.Proofs.Record.Overlays
import Wiring.Proofs.Record.Cloning
import Wiring.Proofs.Record.Keying
import Wiring.Proofs.Config.Enumeration
import Wiring.Proofs.Config.Composition
import Wiring.Proofs.Config.Interference
import Wiring.Proofs.Registry.Windows
import Wiring.Proofs.Calendar.Marks
import Wiring.Proofs.Calendar.Timeline
import Wiring.Proofs.Calendar.Offsets
import Wiring.Proofs.Value.Integers
import Wiring.Proofs.Value.DateTimes
import Wiring.Proofs.Record.Shadowing
import Wiring.Proofs.Record.Marking
import Wiring.Proofs.Discovery.Scopes
import Wiring.Proofs.Text.Words
import Wiring.Proofs.Number.Literals
import Wiring.Proofs.Config.Classes
import Wiring.Proofs.Config.Names
import Wiring.Proofs.Text.Cuts
import Wiring.Proofs.Discovery.Homes
