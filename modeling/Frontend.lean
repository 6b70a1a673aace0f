import Frontend.Main
import Frontend.Source.Cursor
import Frontend.Proofs.Parser.Reads
import Frontend.Proofs.Parser.Repetition
import Frontend.Proofs.Grammar.Derivation
import Frontend.Proofs.Grammar.Recognition.Program
import Frontend.Proofs.Grammar.Sequence
import Frontend.Proofs.Grammar.Spelling
import Frontend.Proofs.Grammar.Rendering
import Frontend.Proofs.Comment.Blanking
import Frontend.Proofs.Token.Scan
import Frontend.Proofs.Token.Source
import Frontend.Proofs.Parser.Alike
import Frontend.Proofs.Grammar.Alike
import Frontend.Proofs.Grammar.Limit
import Frontend.Proofs.Parser.Stops
import Frontend.Proofs.Grammar.Completion
import Frontend.Proofs.Grammar.FirstError
import Frontend.Proofs.Token.Lossless
import Frontend.Proofs.Node.Subtrees
import Frontend.Proofs.Node.Grouping
import Frontend.Proofs.Grammar.Operands
import Frontend.Proofs.Text.Places
import Frontend.Proofs.Text.Utf8
import Frontend.Proofs.Token.Brackets
import Frontend.Proofs.Grammar.Brackets
import Frontend.Proofs.Parser.Causes
import Frontend.Proofs.Grammar.Causes
import Frontend.Proofs.Source.Line
import Frontend.Proofs.Comment.Layout
import Frontend.Proofs.Token.Ends
import Frontend.Proofs.Diagnostic
import Frontend.Proofs.Parser.Local
import Frontend.Proofs.Grammar.Local
import Frontend.Proofs.Grammar.Shape
import Frontend.Proofs.Grammar.Lookahead
import Frontend.Proofs.Grammar.History
import Frontend.Proofs.Grammar.Height
import Frontend.Proofs.Grammar.Recursion
import Frontend.Proofs.Grammar.Calls
import Frontend.Proofs.Grammar.Progress
import Frontend.Proofs.Grammar.ErrorPlace
import Frontend.Proofs.Token.Separation
import Frontend.Proofs.Token.Readback
import Frontend.Proofs.Comment.Bytes
import Frontend.Proofs.Grammar.Climbing
import Frontend.Proofs.Comment.Twice
import Frontend.Proofs.Comment.Insertion
import Frontend.Proofs.Token.Lexeme
import Frontend.Proofs.Token.Munch
import Frontend.Proofs.Token.Digits
import Frontend.Proofs.Token.Fault
import Frontend.Proofs.Token.Quotation
import Frontend.Proofs.Grammar.Parentheses
import Frontend.Proofs.Source.Lookup
import Frontend.Proofs.Caret
import Frontend.Proofs.Token.Pattern
import Frontend.Proofs.Token.Scanner
import Frontend.Proofs.Token.Rounds
