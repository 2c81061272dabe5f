import QueryCompiler.Plan.Codec
import QueryCompiler.Proofs.Expr.NormalForm
import QueryCompiler.Proofs.Expr.Termination
import QueryCompiler.Proofs.Log.JsonRoundTrip
import QueryCompiler.Proofs.Plan.Composition
import QueryCompiler.Proofs.Plan.Filters
import QueryCompiler.Proofs.Plan.Requests
import QueryCompiler.Proofs.Plan.ValidLogs
import QueryCompiler.Proofs.Rows.Preservation
import QueryCompiler.Proofs.Schema.TextRoundTrip
import QueryCompiler.Proofs.Sql.BareTests
import QueryCompiler.Proofs.Sql.Configurations
import QueryCompiler.Proofs.Sql.Deletions
import QueryCompiler.Proofs.Sql.DerivedColumns
import QueryCompiler.Proofs.Sql.InheritedOrders
import QueryCompiler.Proofs.Sql.InsertedColumns
import QueryCompiler.Proofs.Sql.JoinScope
import QueryCompiler.Proofs.Sql.ParameterOrder
import QueryCompiler.Proofs.Sql.Patterns
import QueryCompiler.Proofs.Sql.PayloadNames
import QueryCompiler.Proofs.Sql.ReadingBack
import QueryCompiler.Proofs.Sql.ResultMaps
import QueryCompiler.Proofs.Sql.SourceScope
