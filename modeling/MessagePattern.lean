import MessagePattern.Ascending
import MessagePattern.Compiled.Basic
import MessagePattern.Compiled.Compile
import MessagePattern.Compiled.Error
import MessagePattern.Cursor
import MessagePattern.Decimal.Shortest
import MessagePattern.Format.Error
import MessagePattern.Format.Evaluate
import MessagePattern.Format.OfPattern
import MessagePattern.Format.Run
import MessagePattern.Format.Typed
import MessagePattern.Integer
import MessagePattern.Json
import MessagePattern.Lexis.CharClass
import MessagePattern.Lexis.Keyword
import MessagePattern.Limits
import MessagePattern.Locale.Basic
import MessagePattern.Locale.Script
import MessagePattern.Locale.Tag
import MessagePattern.Message.Argument
import MessagePattern.Message.Basic
import MessagePattern.Message.Printer
import MessagePattern.Message.Stored
import MessagePattern.Pattern.Error
import MessagePattern.Pattern.Parse
import MessagePattern.Pattern.State
import MessagePattern.Pattern.Step
import MessagePattern.Plural.Category
import MessagePattern.Plural.Cldr
import MessagePattern.Plural.Resolver
import MessagePattern.Plural.Rule
import MessagePattern.Plural.Tables
import MessagePattern.Position
import MessagePattern.Standard
import MessagePattern.Suggestion
import MessagePattern.Value.Basic
import MessagePattern.Value.Json
import MessagePattern.Proofs.Agreement
import MessagePattern.Proofs.Canonical
import MessagePattern.Proofs.Compilation
import MessagePattern.Proofs.Completeness
import MessagePattern.Proofs.Entries
import MessagePattern.Proofs.Evaluation
import MessagePattern.Proofs.Grammar
import MessagePattern.Proofs.Log
import MessagePattern.Proofs.Occurrence
import MessagePattern.Proofs.Reading
import MessagePattern.Proofs.Refinement
import MessagePattern.Proofs.RoundTrip
import MessagePattern.Proofs.Soundness
import MessagePattern.Proofs.Token
import MessagePattern.Proofs.Validity
import MessagePattern.Proofs.Visits
import MessagePattern.Proofs.Marker
import MessagePattern.Proofs.Justification
import MessagePattern.Proofs.Dependence
import MessagePattern.Proofs.Positions
import MessagePattern.Proofs.Transition
import MessagePattern.Proofs.Extension
import MessagePattern.Proofs.Blame
import MessagePattern.Proofs.Opening
import MessagePattern.Proofs.Nesting
import MessagePattern.Proofs.Limit
import MessagePattern.Proofs.Truncation
import MessagePattern.Proofs.Concatenation
import MessagePattern.Proofs.History
import MessagePattern.Proofs.Storage
import MessagePattern.Proofs.Edits
import MessagePattern.Proofs.Ranking
import MessagePattern.Proofs.Scan
import MessagePattern.Proofs.Correction
import MessagePattern.Proofs.Selection
import MessagePattern.Proofs.Lookahead
import MessagePattern.Proofs.Descent
import MessagePattern.Proofs.Progress
import MessagePattern.Proofs.Following
import MessagePattern.Proofs.Simulation
import MessagePattern.Proofs.Literal
import MessagePattern.Proofs.Termination
