import AsmPrep.Text.Byte
import AsmPrep.Text.Basic
import AsmPrep.Text.Lexeme
import AsmPrep.Text.Buffer
import AsmPrep.Text.Scan
import AsmPrep.Text.Cursor
import AsmPrep.Names
import AsmPrep.Location
import AsmPrep.Diagnostic
import AsmPrep.Text.Literal
import AsmPrep.Macro.Table
import AsmPrep.Macro.Expansion
import AsmPrep.Statement.Split
import AsmPrep.Statement.Assignment
import AsmPrep.Directive
import AsmPrep.Source.Line
import AsmPrep.Source.Feed
import AsmPrep.Source.Reader
import AsmPrep.Files.Writer
import AsmPrep.Run.Desk
import AsmPrep.Listing
import AsmPrep.Preprocessor
import AsmPrep.Text.Utf8
import AsmPrep.Files.Tree
import AsmPrep.Files.Search
import AsmPrep.Files.System
import AsmPrep.Source.Stack
import AsmPrep.Run.Command
import AsmPrep.Run.Settings
import AsmPrep.Run.Nesting
import AsmPrep.Run.Pass
import AsmPrep.Run.Complete
import AsmPrep.CommandLine.Options
import AsmPrep.CommandLine.Validation
import AsmPrep.CommandLine.Program
import AsmPrep.Main
import AsmPrep.Proofs.Text.Lexeme
import AsmPrep.Proofs.Text.Delimiter
import AsmPrep.Proofs.Text.Number
import AsmPrep.Proofs.Text.Line
import AsmPrep.Proofs.Text.LineEnd
import AsmPrep.Proofs.Text.Quotation
import AsmPrep.Proofs.Text.Token
import AsmPrep.Proofs.Text.PlainText
import AsmPrep.Proofs.Text.Ascii
import AsmPrep.Proofs.Names
import AsmPrep.Proofs.Macro.Table
import AsmPrep.Proofs.Macro.Scopes
import AsmPrep.Proofs.Macro.Target
import AsmPrep.Proofs.Macro.Reading
import AsmPrep.Proofs.Macro.Balance
import AsmPrep.Proofs.Macro.Nesting
import AsmPrep.Proofs.Macro.Budget
import AsmPrep.Proofs.Macro.Item
import AsmPrep.Proofs.Macro.Token
import AsmPrep.Proofs.Macro.Literal
import AsmPrep.Proofs.Macro.PlainText
import AsmPrep.Proofs.Macro.Arguments
import AsmPrep.Proofs.Macro.Substitution
import AsmPrep.Proofs.Macro.ArgumentList
import AsmPrep.Proofs.Macro.Angled
import AsmPrep.Proofs.Macro.Call
import AsmPrep.Proofs.Macro.CallForm
import AsmPrep.Proofs.Macro.Paste
import AsmPrep.Proofs.Macro.Number
import AsmPrep.Proofs.Macro.Reports
import AsmPrep.Proofs.Macro.ArgumentCount
import AsmPrep.Proofs.Macro.Unfolding
import AsmPrep.Proofs.Macro.Capture
import AsmPrep.Proofs.Macro.Hygiene
import AsmPrep.Proofs.Macro.LineEnd
import AsmPrep.Proofs.Macro.Mark
import AsmPrep.Proofs.Macro.Spelling
import AsmPrep.Proofs.Macro.Classifier
import AsmPrep.Proofs.Statement.Assignment
import AsmPrep.Proofs.Statement.LineEnd
import AsmPrep.Proofs.Statement.Verbatim
import AsmPrep.Proofs.Statement.Splitting
import AsmPrep.Proofs.Statement.Cutting
import AsmPrep.Proofs.Preprocessor.Reachable
import AsmPrep.Proofs.Preprocessor.Termination
import AsmPrep.Proofs.Preprocessor.Statements
import AsmPrep.Proofs.Preprocessor.Lines
import AsmPrep.Proofs.Preprocessor.Redefinition
import AsmPrep.Proofs.Preprocessor.Lockstep
import AsmPrep.Proofs.Preprocessor.InPlace
import AsmPrep.Proofs.Preprocessor.Notices
import AsmPrep.Proofs.Preprocessor.Interruption
import AsmPrep.Proofs.Preprocessor.Listing
import AsmPrep.Proofs.Preprocessor.NumberSpelling
import AsmPrep.Proofs.Preprocessor.Reset
import AsmPrep.Proofs.Preprocessor.Continuation
import AsmPrep.Proofs.Preprocessor.Undivided
import AsmPrep.Proofs.Preprocessor.Assignments
import AsmPrep.Proofs.Preprocessor.MultiLine
import AsmPrep.Proofs.Files.Tree
import AsmPrep.Proofs.Files.Writer
import AsmPrep.Proofs.Source.Reader
import AsmPrep.Proofs.Source.Stack
import AsmPrep.Proofs.Source.Operations
import AsmPrep.Proofs.Source.Numbering
import AsmPrep.Proofs.Run.Follow
import AsmPrep.Proofs.Run.Include
import AsmPrep.Proofs.Run.Outlets
import AsmPrep.Proofs.Run.Complete
import AsmPrep.Proofs.Run.Beside
import AsmPrep.Proofs.Run.Independence
import AsmPrep.Proofs.Run.Reading
import AsmPrep.Proofs.Run.IncludeLine
import AsmPrep.Proofs.Run.Inlining
import AsmPrep.Proofs.Run.Course
import AsmPrep.Proofs.Run.Whereabouts
import AsmPrep.Proofs.CommandLine.Defines
