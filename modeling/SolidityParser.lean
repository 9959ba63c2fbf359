import SolidityParser.Main
import SolidityParser.FileTree
import SolidityParser.Tree.Visit
import SolidityParser.Lexer.ByteCursor
import SolidityParser.Token.Cursor
import SolidityParser.Proofs.Tolerance
import SolidityParser.Proofs.Containment
import SolidityParser.Proofs.Imports.Agreement
import SolidityParser.Proofs.Lexer.Comments
import SolidityParser.Proofs.Layout
import SolidityParser.Proofs.OperatorTrees
import SolidityParser.Proofs.Spans
import SolidityParser.Proofs.Accounts.Parser
import SolidityParser.Proofs.Accounts.Rule
import SolidityParser.Proofs.Accounts.Report
import SolidityParser.Proofs.Complete.Block
import SolidityParser.Proofs.Complete.Statement
import SolidityParser.Proofs.Lexer.Delimiter
import SolidityParser.Proofs.Lexer.Dispatch
import SolidityParser.Proofs.Lexer.Language
import SolidityParser.Proofs.Lexer.LineEnding
import SolidityParser.Proofs.Lexer.Lossless
import SolidityParser.Proofs.Lexer.Munch
import SolidityParser.Proofs.Complete.Member
import SolidityParser.Proofs.Complete.Unit
import SolidityParser.Proofs.Repairs
import SolidityParser.Proofs.Production.Carry
import SolidityParser.Proofs.Production.Nested
import SolidityParser.Proofs.Production.Thin
import SolidityParser.Proofs.Recovery
import SolidityParser.Proofs.Render
import SolidityParser.Proofs.Production.Decided
import SolidityParser.Proofs.Production.Thinned
import SolidityParser.Proofs.Production.Units
import SolidityParser.Proofs.Remainder
import SolidityParser.Proofs.Concatenation
import SolidityParser.Proofs.Slices
import SolidityParser.Proofs.Literal.Number
import SolidityParser.Proofs.Literal.Quoted
import SolidityParser.Proofs.Literal.VersionScan
import SolidityParser.Proofs.Strings
import SolidityParser.Proofs.Versions
import SolidityParser.Proofs.Alternatives
import SolidityParser.Proofs.Imports.Split
import SolidityParser.Proofs.Imports.Fault
import SolidityParser.Proofs.Expected
import SolidityParser.Proofs.Offsets
import SolidityParser.Proofs.Rows
import SolidityParser.Proofs.ControlFlow
import SolidityParser.Proofs.TypeTrees
import SolidityParser.Proofs.Attributes.Order
import SolidityParser.Proofs.Decoration
import SolidityParser.Proofs.Visits
import SolidityParser.Proofs.Outcomes
import SolidityParser.Proofs.Files
import SolidityParser.Bytes
