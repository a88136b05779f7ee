import Worksheet.Text
import Worksheet.Name
import Worksheet.Token
import Worksheet.Token.Scan
import Worksheet.Arithmetic
import Worksheet.Evaluation
import Worksheet.Formula
import Worksheet.Number.Binary64
import Worksheet.Number.Decimal
import Worksheet.Number.Nearest
import Worksheet.Number.Text
import Worksheet.Content
import Worksheet.Graph
import Worksheet.Graph.Walk
import Worksheet.Sheet
import Worksheet.Toml.Reader
import Worksheet.Toml.Text
import Worksheet.Toml.Item
import Worksheet.Toml.Number
import Worksheet.Toml.Moment
import Worksheet.Toml.Value
import Worksheet.Toml.Document
import Worksheet.Settings
import Worksheet.Value
import Worksheet.Document
import Worksheet.Proofs.Number.Nearest
import Worksheet.Proofs.Number.Exact
import Worksheet.Proofs.Number.Text
import Worksheet.Proofs.Token.Spacing
import Worksheet.Proofs.Token.Lexical
import Worksheet.Proofs.Expression.Tree
import Worksheet.Proofs.Expression.Grammar
import Worksheet.Proofs.Expression.Derivation
import Worksheet.Proofs.Expression.Machine
import Worksheet.Proofs.Expression.Balance
import Worksheet.Proofs.Expression.Form
import Worksheet.Proofs.Formula.Case
import Worksheet.Proofs.Formula.Text
import Worksheet.Proofs.Formula.Parse
import Worksheet.Proofs.Formula.Origin
import Worksheet.Proofs.Formula.Letters
import Worksheet.Proofs.Formula.Evaluation
import Worksheet.Proofs.Formula.References
import Worksheet.Proofs.Input
import Worksheet.Proofs.Graph.Order
import Worksheet.Proofs.Graph.Pairs
import Worksheet.Proofs.Graph.Refinement
import Worksheet.Proofs.Graph.Walk
import Worksheet.Proofs.Graph.Recalculation
import Worksheet.Proofs.Graph.Turns
import Worksheet.Proofs.Sheet.Edit
import Worksheet.Proofs.Sheet.Run
import Worksheet.Proofs.Sheet.Values
import Worksheet.Proofs.Sheet.Circular
import Worksheet.Proofs.Sheet.Contents
import Worksheet.Proofs.Sheet.Letters
import Worksheet.Proofs.Document.Run
import Worksheet.Proofs.Document.Rejected
import Worksheet.Proofs.Document.Contents
import Worksheet.Proofs.Document.Letters
import Worksheet.Proofs.Document.Reentry
import Worksheet.Proofs.Document.Rebuild
import Worksheet.Proofs.Document.Errors
import Worksheet.Proofs.Number.Dyadic
import Worksheet.Proofs.Number.Rounding
import Worksheet.Proofs.Number.Numeral
import Worksheet.Proofs.Number.Shortest
import Worksheet.Proofs.Number.Display
import Worksheet.Proofs.Document.Numbers
import Worksheet.Proofs.Toml.Reader
import Worksheet.Proofs.Toml.Row
import Worksheet.Proofs.Toml.Section
import Worksheet.Proofs.Settings
