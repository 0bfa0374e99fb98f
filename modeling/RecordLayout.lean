import RecordLayout.Codec
import RecordLayout.Column.Basic
import RecordLayout.Column.Format
import RecordLayout.Column.Parse
import RecordLayout.Error
import RecordLayout.Layout.Basic
import RecordLayout.Layout.Catalog
import RecordLayout.Layout.Check
import RecordLayout.Layout.Configure
import RecordLayout.Layout.Declare
import RecordLayout.Layout.Definition
import RecordLayout.Layout.Format
import RecordLayout.Layout.Parse
import RecordLayout.Layout.Propagate
import RecordLayout.Layout.Repeated
import RecordLayout.Layout.Resolve
import RecordLayout.Layout.Schema
import RecordLayout.Layout.Width
import RecordLayout.Listing
import RecordLayout.NameMap
import RecordLayout.Number.Binary64
import RecordLayout.Number.Integer
import RecordLayout.Number.Numeral
import RecordLayout.Number.Power
import RecordLayout.Number.Reader
import RecordLayout.Number.Shortest
import RecordLayout.Options.Rule
import RecordLayout.Options.Spec
import RecordLayout.Options.Standard
import RecordLayout.Options.Table
import RecordLayout.Proofs.Column.Slot
import RecordLayout.Proofs.Layout.Agreement
import RecordLayout.Proofs.Layout.CachedWidth
import RecordLayout.Proofs.Layout.Calm
import RecordLayout.Proofs.Layout.Change
import RecordLayout.Proofs.Layout.Closure
import RecordLayout.Proofs.Layout.Composed
import RecordLayout.Proofs.Layout.Cold
import RecordLayout.Proofs.Layout.Coverage
import RecordLayout.Proofs.Layout.Declared
import RecordLayout.Proofs.Layout.Enlarge
import RecordLayout.Proofs.Layout.Exact
import RecordLayout.Proofs.Layout.Follow
import RecordLayout.Proofs.Layout.Gather
import RecordLayout.Proofs.Layout.Grow
import RecordLayout.Proofs.Layout.Growth
import RecordLayout.Proofs.Layout.Keys
import RecordLayout.Proofs.Layout.Listed
import RecordLayout.Proofs.Layout.Lookup
import RecordLayout.Proofs.Layout.Measure
import RecordLayout.Proofs.Layout.Names
import RecordLayout.Proofs.Layout.Namespace
import RecordLayout.Proofs.Layout.Orderly
import RecordLayout.Proofs.Layout.Outcome
import RecordLayout.Proofs.Layout.Outline
import RecordLayout.Proofs.Layout.Precedence
import RecordLayout.Proofs.Layout.Problems
import RecordLayout.Proofs.Layout.Queues
import RecordLayout.Proofs.Layout.Reached
import RecordLayout.Proofs.Layout.ReadOnly
import RecordLayout.Proofs.Layout.Refilled
import RecordLayout.Proofs.Layout.Refusal
import RecordLayout.Proofs.Layout.RoundTrip
import RecordLayout.Proofs.Layout.Search
import RecordLayout.Proofs.Layout.Session
import RecordLayout.Proofs.Layout.Sight
import RecordLayout.Proofs.Layout.Spread
import RecordLayout.Proofs.Layout.Steady
import RecordLayout.Proofs.Layout.Tidy
import RecordLayout.Proofs.Layout.Transcript
import RecordLayout.Proofs.Layout.Travel
import RecordLayout.Proofs.Layout.Validated
import RecordLayout.Proofs.Layout.Visits
import RecordLayout.Proofs.Layout.Walk
import RecordLayout.Proofs.Layout.Warm
import RecordLayout.Proofs.Number.Ascii
import RecordLayout.Proofs.Options.Making
import RecordLayout.Proofs.Options.Merging
import RecordLayout.Proofs.Options.Sound
import RecordLayout.Proofs.Options.Validity
import RecordLayout.Proofs.Success
import RecordLayout.Proofs.Text.Counting
import RecordLayout.Proofs.Text.Filling
import RecordLayout.Proofs.Text.Naming
import RecordLayout.Proofs.Text.WellFormed
import RecordLayout.Reference
import RecordLayout.Status
import RecordLayout.Text.Basic
import RecordLayout.Text.Character
import RecordLayout.Text.Identifier
import RecordLayout.Text.Padding
import RecordLayout.Value.Basic
import RecordLayout.Value.Equality
import RecordLayout.Value.Printer
import RecordLayout.Version
import RecordLayout.Proofs.Layout.Builders
import RecordLayout.Proofs.Layout.Clash
import RecordLayout.Proofs.Layout.Meaning
import RecordLayout.Proofs.Layout.Stable
import RecordLayout.Proofs.Layout.Calls
import RecordLayout.Proofs.Layout.Abreast
import RecordLayout.Proofs.Layout.Bare
import RecordLayout.Proofs.Layout.Indifferent
import RecordLayout.Proofs.Layout.Inheriting
import RecordLayout.Proofs.Layout.Fit
import RecordLayout.Proofs.Layout.Scopes
import RecordLayout.Proofs.Layout.Lines
import RecordLayout.Proofs.Text.Seams
import RecordLayout.Proofs.Text.Sides
import RecordLayout.Proofs.Column.Fills
import RecordLayout.Proofs.Column.Filled
import RecordLayout.Proofs.Text.Blank
import RecordLayout.Proofs.Number.Grammar
import RecordLayout.Proofs.Column.Integers
import RecordLayout.Proofs.Column.Returning
import RecordLayout.Proofs.Layout.Sliding
import RecordLayout.Proofs.Options.Adopting
import RecordLayout.Proofs.Options.Halting
import RecordLayout.Proofs.Options.Runs
import RecordLayout.Proofs.Column.Readable
import RecordLayout.Proofs.Layout.Wrapping
import RecordLayout.Proofs.Layout.Shape
import RecordLayout.Proofs.Value.Sameness
import RecordLayout.Proofs.Layout.Matching
import RecordLayout.Proofs.Layout.Touching
import RecordLayout.Proofs.Text.Tiling
import RecordLayout.Proofs.Text.Torn
import RecordLayout.Proofs.Layout.Legible
import RecordLayout.Proofs.Layout.Recognised
