import RandomText.Console.Command
import RandomText.Draw.Mixer
import RandomText.Draw.Replay
import RandomText.Json.Reader
import RandomText.Main
import RandomText.Stored.Edit
import RandomText.Stored.Generate
import RandomText.Stored.Load
import RandomText.Stored.Lower
import RandomText.Yaml.Value
import RandomText.Proofs.Expr.Lexing
import RandomText.Proofs.Numeral
import RandomText.Proofs.Expr.Reading
import RandomText.Proofs.Pattern.Descent
import RandomText.Proofs.Pattern.WellFormed
import RandomText.Proofs.Pattern.Spelling
import RandomText.Proofs.Drawing
import RandomText.Proofs.Expr.Writing
import RandomText.Proofs.Expr.Evaluation
import RandomText.Proofs.Lowering
import RandomText.Proofs.Nesting
import RandomText.Proofs.Answering
import RandomText.Proofs.Language
import RandomText.Proofs.Stored.OfNode
import RandomText.Proofs.Stored.Loading
import RandomText.Proofs.Json.Strings
import RandomText.Proofs.Json.RoundTrip
import RandomText.Proofs.Stored.Storing
import RandomText.Proofs.Generation
import RandomText.Proofs.Pattern.Scanning
import RandomText.Proofs.Pattern.Stack
import RandomText.Proofs.Pattern.Concatenation
import RandomText.Proofs.Yaml.Cursor
import RandomText.Proofs.Yaml.Plain
import RandomText.Proofs.Yaml.Quoted
import RandomText.Proofs.Pattern.Places
import RandomText.Proofs.Stored.StoringYaml
import RandomText.Proofs.Pattern.Extension
import RandomText.Proofs.Pattern.Stripping
import RandomText.Proofs.Expr.Viability
import RandomText.Proofs.Quotation
import RandomText.Proofs.Expr.Execution
import RandomText.Proofs.Expr.Blame
import RandomText.Proofs.Expr.Outcomes
import RandomText.Proofs.Expr.Choosing
import RandomText.Proofs.Pattern.Preorder
import RandomText.Proofs.Stored.Normal
import RandomText.Proofs.Pattern.Coordinates
import RandomText.Proofs.Extent
import RandomText.Proofs.Pattern.Repetition
import RandomText.Proofs.Pattern.Enclosing
