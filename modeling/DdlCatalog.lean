import DdlCatalog.Catalog.Script
import DdlCatalog.Projection.DocumentSchema
import DdlCatalog.Projection.JsonSchema
import DdlCatalog.Json.Pointer
import DdlCatalog.Json.Schema
import DdlCatalog.Sql.Scan
import DdlCatalog.Sql.Bytes
import DdlCatalog.Sql.Reader
import DdlCatalog.Proofs.Edit
import DdlCatalog.Proofs.Table.Columns
import DdlCatalog.Proofs.Table.InPlace
import DdlCatalog.Proofs.Table.Invariant
import DdlCatalog.Proofs.Table.ColumnEdits
import DdlCatalog.Proofs.Table.Cascade
import DdlCatalog.Proofs.Table.Positions
import DdlCatalog.Proofs.Table.Renaming
import DdlCatalog.Proofs.Table.Calls
import DdlCatalog.Proofs.Table.SelfReferences
import DdlCatalog.Proofs.Table.Definition
import DdlCatalog.Proofs.Catalog.Register
import DdlCatalog.Proofs.Catalog.Statements
import DdlCatalog.Proofs.Catalog.Run
import DdlCatalog.Proofs.Catalog.Atomicity
import DdlCatalog.Proofs.Policies
import DdlCatalog.Proofs.Table.Policies
import DdlCatalog.Proofs.Catalog.Policies
import DdlCatalog.Proofs.Catalog.Compact
import DdlCatalog.Proofs.Catalog.PrimaryKey
import DdlCatalog.Proofs.Encoding.Statement
import DdlCatalog.Proofs.Catalog.StatementTexts
import DdlCatalog.Proofs.Catalog.Batches
import DdlCatalog.Proofs.Catalog.Clauses
import DdlCatalog.Proofs.Firsts
import DdlCatalog.Proofs.Table.Declared
import DdlCatalog.Proofs.Table.Built
import DdlCatalog.Proofs.Table.Interleaving
import DdlCatalog.Proofs.Table.Stepwise
import DdlCatalog.Proofs.Table.Displaced
import DdlCatalog.Proofs.Table.Validation
import DdlCatalog.Proofs.Catalog.AlterForms
import DdlCatalog.Proofs.Catalog.IndexUndo
import DdlCatalog.Proofs.Parsed.Yields
import DdlCatalog.Proofs.Parsed.WellFormed
import DdlCatalog.Proofs.Catalog.EmptyKeys
import DdlCatalog.Proofs.Table.Scope
import DdlCatalog.Proofs.Catalog.Frame
import DdlCatalog.Proofs.Composition.Steady
import DdlCatalog.Proofs.Composition.Grammar
import DdlCatalog.Proofs.Composition.Options
import DdlCatalog.Proofs.Composition.Statement
import DdlCatalog.Proofs.Composition.Moved
import DdlCatalog.Proofs.Composition.Lexing
import DdlCatalog.Proofs.Composition.Script
import DdlCatalog.Proofs.Composition.Feed
import DdlCatalog.Proofs.Text.SetPattern
import DdlCatalog.Proofs.Json.Pointer
import DdlCatalog.Proofs.Projection.References
import DdlCatalog.Proofs.Projection.Nullability
import DdlCatalog.Proofs.Projection.Members
import DdlCatalog.Proofs.Projection.Roles
import DdlCatalog.Proofs.Reading.Places
import DdlCatalog.Proofs.Reading.Gaps
import DdlCatalog.Proofs.Reading.Numerals
import DdlCatalog.Proofs.Reading.Quoted
import DdlCatalog.Proofs.Reading.Lexing
import DdlCatalog.Proofs.Reading.Script
import DdlCatalog.Proofs.Reading.Blanks
import DdlCatalog.Proofs.Reading.Calls
import DdlCatalog.Proofs.Reading.Spacing
import DdlCatalog.Proofs.Reading.Quoting
import DdlCatalog.Proofs.Reading.Runs
import DdlCatalog.Proofs.Reading.Words
import DdlCatalog.Proofs.Reading.Integers
import DdlCatalog.Proofs.Reading.Cut
import DdlCatalog.Proofs.Reading.Excerpt
import DdlCatalog.Proofs.Parsed.Expression
import DdlCatalog.Proofs.Parsed.Lookahead
import DdlCatalog.Proofs.Parsed.Separators
