import Filing.Access.AccessList
import Filing.Access.Permission
import Filing.Access.Principal
import Filing.Ascent.Cycle
import Filing.Ascent.Search
import Filing.Breadcrumb
import Filing.Cabinet.Basic
import Filing.Cabinet.Deletion
import Filing.Cabinet.Integrity
import Filing.Cabinet.Linking
import Filing.Document.Access
import Filing.Document.Cabinet
import Filing.Document.Item
import Filing.Document.Settings
import Filing.Edge
import Filing.Failure
import Filing.Graph.DepthFirst
import Filing.Graph.Pruning
import Filing.Inheritance.Flow
import Filing.Inheritance.Order
import Filing.Inspect.Arguments
import Filing.Inspect.Report
import Filing.Item.Basic
import Filing.Item.Id
import Filing.Item.Kind
import Filing.Json.Magnitude
import Filing.Json.Quoted
import Filing.Json.Reader
import Filing.Json.Record
import Filing.Json.Value
import Filing.Json.Writer
import Filing.Main
import Filing.Path
import Filing.Placement
import Filing.Policy
import Filing.Session
import Filing.Settings
import Filing.Sorted.Ascending
import Filing.Sorted.Map
import Filing.Sorted.Set
import Filing.Text.BinaryFraction
import Filing.Text.Blank
import Filing.Text.CharRange
import Filing.Text.Decimal
import Filing.Text.DefaultIgnorable
import Filing.Text.GraphemeExtend
import Filing.Text.Hex
import Filing.Text.Magnitude
import Filing.Text.Printable
import Filing.Text.Quote
import Filing.Time.Date
import Filing.Time.Timestamp
import Filing.Toml.Reader
import Filing.Toml.Value
import Filing.Proofs.Cabinet.Coherence
import Filing.Proofs.Graph.DepthFirst
import Filing.Proofs.Cabinet.Outline
import Filing.Proofs.Cabinet.Sound
import Filing.Proofs.Cabinet.Linking
import Filing.Proofs.Cabinet.Upkeep
import Filing.Proofs.Ascent.Cycle
import Filing.Proofs.Change
import Filing.Proofs.Inheritance.Flow
import Filing.Proofs.Placement
import Filing.Proofs.Run
import Filing.Proofs.Inheritance.Order
import Filing.Proofs.Inheritance.Completeness
import Filing.Proofs.Document.Acceptance
import Filing.Proofs.Document.Numbering
import Filing.Proofs.Ascent.Search
import Filing.Proofs.Document.Keys
import Filing.Proofs.Cabinet.Replacement
import Filing.Proofs.Ascent.Sight
import Filing.Proofs.Generation
import Filing.Proofs.Breadcrumb
import Filing.Proofs.Json.Written
import Filing.Proofs.Json.Record
import Filing.Proofs.Document.Parts
import Filing.Proofs.Document.RoundTrip
import Filing.Proofs.Inheritance.Outcome
import Filing.Proofs.Cabinet.Alike
import Filing.Proofs.Inheritance.Conversion
import Filing.Proofs.Inheritance.Alike
import Filing.Proofs.Deferral
import Filing.Proofs.Document.Verdict
import Filing.Proofs.Document.Destruction
import Filing.Proofs.Publication
import Filing.Proofs.Ascent.Shortest
import Filing.Proofs.Viewer
import Filing.Proofs.Membership
import Filing.Proofs.Disposal
import Filing.Proofs.Inheritance.Sharing
import Filing.Proofs.Inheritance.Closure
import Filing.Proofs.Inheritance.Elevation
import Filing.Proofs.Suitability
import Filing.Proofs.Path
import Filing.Proofs.Through
import Filing.Proofs.Joining
import Filing.Proofs.Inheritance.Descent
import Filing.Proofs.Inheritance.Withdrawal
import Filing.Proofs.Ascent.Resolution
import Filing.Proofs.Ascent.Answers
import Filing.Proofs.Admission
import Filing.Proofs.Relocation
import Filing.Proofs.Ascent.Blame
import Filing.Proofs.Ascent.Agreement
import Filing.Proofs.Ascent.Precedence
import Filing.Proofs.Inheritance.Commutation
import Filing.Proofs.Inheritance.Reversal
import Filing.Proofs.Text.Bytes
import Filing.Proofs.Sorted.Set
import Filing.Proofs.Access.AccessList
import Filing.Proofs.Marks
import Filing.Proofs.Visibility
import Filing.Proofs.Listing
import Filing.Proofs.Access.Principal
import Filing.Proofs.Inheritance.Disarray
import Filing.Proofs.Graph.Adjacency
