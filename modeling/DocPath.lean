import DocPath.Decimal.Binary64
import DocPath.Decimal.Digits
import DocPath.Decimal.Notation
import DocPath.Decimal.Shortest
import DocPath.Input
import DocPath.Json.Basic
import DocPath.Json.Equality
import DocPath.Json.Field
import DocPath.Json.NumberText
import DocPath.Json.Parser
import DocPath.Json.Pointer
import DocPath.Json.Printer
import DocPath.Json.TextFormat
import DocPath.Leaves
import DocPath.Location
import DocPath.Path.Basic
import DocPath.Path.Fault
import DocPath.Path.Filter
import DocPath.Path.Parser
import DocPath.Places
import DocPath.Sort
import DocPath.Sort.ListOrder
import DocPath.Text.Blank
import DocPath.Text.Reader
import DocPath.Text.Split
import DocPath.Values
import DocPath.Write
import DocPath.Proofs.General
import DocPath.Proofs.Places.Branches
import DocPath.Proofs.Write.Assignment
import DocPath.Proofs.Write.Revision
import DocPath.Proofs.Write.Atomicity
import DocPath.Proofs.Path.Brackets
import DocPath.Proofs.Path.Grammar
import DocPath.Proofs.Path.Parsing
import DocPath.Proofs.Path.Rendering
import DocPath.Proofs.Path.Concatenation
import DocPath.Proofs.Path.BracketFaults
import DocPath.Proofs.Places.Narrowing
import DocPath.Proofs.Sort.Order
import DocPath.Proofs.Sort.Composition
import DocPath.Proofs.Path.Location
import DocPath.Proofs.Places.Reached
import DocPath.Proofs.Json.Children
import DocPath.Proofs.Leaves.Locations
import DocPath.Proofs.Leaves.Reading
import DocPath.Proofs.Write.Single
import DocPath.Proofs.Places.Apart
import DocPath.Proofs.Write.Independent
import DocPath.Proofs.FanOut
import DocPath.Proofs.Leaves.Rebuilding
import DocPath.Proofs.Sort.Result
import DocPath.Proofs.Sort.Canonical
import DocPath.Proofs.Write.Concrete
import DocPath.Proofs.Places.Existing
import DocPath.Proofs.Write.Repeat
import DocPath.Proofs.Places.Planned
import DocPath.Proofs.Write.Survival
import DocPath.Proofs.Write.Commuting
import DocPath.Proofs.Sort.Keys
import DocPath.Proofs.Sort.Paths
import DocPath.Proofs.Leaves.Shapes
import DocPath.Proofs.Places.Composition
import DocPath.Proofs.Places.Pointer
import DocPath.Proofs.Leaves.Unescaped
import DocPath.Proofs.Session
import DocPath.Proofs.Places.Order
import DocPath.Proofs.Write.Refusal
import DocPath.Proofs.Places.Checked
import DocPath.Proofs.Write.Growth
import DocPath.Proofs.Write.Appends
import DocPath.Proofs.Sort.Leaves
import DocPath.Proofs.Sort.Lists
import DocPath.Proofs.Places.Fields
