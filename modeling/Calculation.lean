import Calculation.Text.Range
import Calculation.Text.Slice
import Calculation.Text.Blank
import Calculation.Text.Lines
import Calculation.Token.Kind
import Calculation.Token.Rules
import Calculation.Token.Lexer
import Calculation.Json.Value
import Calculation.Json.Reader
import Calculation.Diagnostic.Code
import Calculation.Diagnostic.Basic
import Calculation.Diagnostic.Place
import Calculation.Diagnostic.Cause
import Calculation.Diagnostic.Canonical
import Calculation.Signature.Basic
import Calculation.Signature.Table
import Calculation.Signature.Reader
import Calculation.Signature.Builtin
import Calculation.Symbol.Basic
import Calculation.Symbol.Tree
import Calculation.Recovery
import Calculation.Statement.Cursor
import Calculation.Statement.Leaf
import Calculation.Statement.Grouping
import Calculation.Statement.Call
import Calculation.Statement.Skipping
import Calculation.Statement.Block
import Calculation.Statement.Expression
import Calculation.Statement.Item
import Calculation.Outline.Segment
import Calculation.Outline.Basic
import Calculation.Validation
import Calculation.Edit.LineChange
import Calculation.Edit.Splice
import Calculation.Keyed
import Calculation.Workspace.Settings
import Calculation.Workspace.Cache
import Calculation.Workspace.RequestQueue
import Calculation.Workspace.Published
import Calculation.Workspace.Basic
import Calculation.Proofs.Reading.Onward
import Calculation.Proofs.Reading.Progress
import Calculation.Proofs.Document.Items
import Calculation.Proofs.Document.Lines
import Calculation.Proofs.Diagnostic.Distinct
import Calculation.Proofs.Document.Order
import Calculation.Proofs.Seam.Construct
import Calculation.Proofs.Seam.Nesting
import Calculation.Proofs.Document.BlankLine
import Calculation.Proofs.Document.Restart
import Calculation.Proofs.Document.Ahead
import Calculation.Proofs.Document.Tiling
import Calculation.Proofs.Document.Index
import Calculation.Proofs.Reading.Derivation
import Calculation.Proofs.Reading.Derived
import Calculation.Proofs.Reading.DerivedBlock
import Calculation.Proofs.Document.Derivation
import Calculation.Proofs.Reading.Marks
import Calculation.Proofs.Document.Conservation
import Calculation.Proofs.Reading.Exactness
import Calculation.Proofs.Document.Completeness
import Calculation.Proofs.Grammar.Soundness
import Calculation.Proofs.Grammar.SoundnessBlock
import Calculation.Proofs.Grammar.Acceptance
import Calculation.Proofs.Grammar.AcceptanceBlock
import Calculation.Proofs.Document.Accepted
import Calculation.Proofs.Token.Sizes
import Calculation.Proofs.Token.Splitting
import Calculation.Proofs.Token.Spelling
import Calculation.Proofs.Token.Munch
import Calculation.Proofs.Tree.Finished
import Calculation.Proofs.Reading.Leads
import Calculation.Proofs.Reading.Endings
import Calculation.Proofs.Document.Events
import Calculation.Proofs.Document.Accounting
import Calculation.Proofs.Document.Findings
import Calculation.Proofs.Document.Agreement
import Calculation.Proofs.Tree.Around
import Calculation.Proofs.Reading.Scopes
import Calculation.Proofs.Document.Nested
import Calculation.Proofs.Workspace.Cache
import Calculation.Proofs.Workspace.Coherence
import Calculation.Proofs.Workspace.Lineage
import Calculation.Proofs.Workspace.Requests
import Calculation.Proofs.Layout.Texts
import Calculation.Proofs.Edit.ChangedLines
import Calculation.Proofs.Reading.Charges
import Calculation.Proofs.Reading.ChargesBlock
import Calculation.Proofs.Reading.Ledgers
import Calculation.Proofs.Document.Charged
import Calculation.Proofs.Document.Defects
import Calculation.Proofs.Tree.Paths
import Calculation.Proofs.Document.Carried
import Calculation.Proofs.Document.Depth
import Calculation.Proofs.Document.Diagnostics
import Calculation.Proofs.Document.FieldNames
import Calculation.Proofs.Tree.Enclosing
import Calculation.Proofs.Document.Comments
import Calculation.Proofs.Document.Arguments
import Calculation.Proofs.Workspace.Eviction
import Calculation.Proofs.Tree.Levels
import Calculation.Proofs.Reading.Levels
import Calculation.Proofs.Rewording.Basic
import Calculation.Proofs.Document.Levels
import Calculation.Proofs.Diagnostic.Gist
import Calculation.Proofs.Rewording.Texts
import Calculation.Proofs.Rewording.Findings
import Calculation.Proofs.Token.LetterCase
import Calculation.Proofs.Document.LetterCase
import Calculation.Proofs.Signature.Tables
import Calculation.Proofs.Text.Positions
import Calculation.Proofs.Tree.Touching
import Calculation.Proofs.Workspace.Batches
import Calculation.Proofs.Edit.Relocation
import Calculation.Proofs.Machine.Returns
import Calculation.Proofs.Document.Edges
import Calculation.Proofs.Edit.Front
import Calculation.Proofs.Edit.Sessions
