import EcmaTree.Command.Job
import EcmaTree.Command.Line
import EcmaTree.Command.LogFilter
import EcmaTree.Decimal.Numeral
import EcmaTree.Decimal.Shortest
import EcmaTree.Decimal.Text
import EcmaTree.Fault
import EcmaTree.Grammar
import EcmaTree.Grammar.Binding
import EcmaTree.Grammar.Expression
import EcmaTree.Grammar.Function
import EcmaTree.Grammar.Goal
import EcmaTree.Grammar.State
import EcmaTree.Grammar.Statement
import EcmaTree.Json
import EcmaTree.Main
import EcmaTree.Options
import EcmaTree.Options.Text
import EcmaTree.Print
import EcmaTree.Print.Ambiguity
import EcmaTree.Print.Layout
import EcmaTree.Print.Precedence
import EcmaTree.Print.Writer
import EcmaTree.Proofs.Grammar.Abreast
import EcmaTree.Proofs.Grammar.Agreement
import EcmaTree.Proofs.Grammar.Agreement.Basic
import EcmaTree.Proofs.Grammar.Agreement.Binding
import EcmaTree.Proofs.Grammar.Agreement.Expression
import EcmaTree.Proofs.Grammar.Agreement.Invariant
import EcmaTree.Proofs.Grammar.Agreement.Progress
import EcmaTree.Proofs.Grammar.Agreement.Statement
import EcmaTree.Proofs.Grammar.Asking
import EcmaTree.Proofs.Grammar.Asking.Basic
import EcmaTree.Proofs.Grammar.Asking.Expression
import EcmaTree.Proofs.Grammar.Asking.Statement
import EcmaTree.Proofs.Grammar.Assignable
import EcmaTree.Proofs.Grammar.Assignable.Basic
import EcmaTree.Proofs.Grammar.Assignable.Expressed
import EcmaTree.Proofs.Grammar.Assignable.Suspended
import EcmaTree.Proofs.Grammar.Balance
import EcmaTree.Proofs.Grammar.Balance.Basic
import EcmaTree.Proofs.Grammar.Balance.Expression
import EcmaTree.Proofs.Grammar.Balance.Primary
import EcmaTree.Proofs.Grammar.Balance.Statement
import EcmaTree.Proofs.Grammar.BareDefault
import EcmaTree.Proofs.Grammar.BareDefault.Expression
import EcmaTree.Proofs.Grammar.BareDefault.Opens
import EcmaTree.Proofs.Grammar.BareDefault.Primary
import EcmaTree.Proofs.Grammar.BareDefault.Statement
import EcmaTree.Proofs.Grammar.Clear
import EcmaTree.Proofs.Grammar.Climbing
import EcmaTree.Proofs.Grammar.Dangling
import EcmaTree.Proofs.Grammar.Distinct
import EcmaTree.Proofs.Grammar.Exact
import EcmaTree.Proofs.Grammar.Form
import EcmaTree.Proofs.Grammar.Frame
import EcmaTree.Proofs.Grammar.Induction
import EcmaTree.Proofs.Grammar.Jumps
import EcmaTree.Proofs.Grammar.Labels
import EcmaTree.Proofs.Grammar.Legality
import EcmaTree.Proofs.Grammar.Legality.Basic
import EcmaTree.Proofs.Grammar.Legality.Expression
import EcmaTree.Proofs.Grammar.Legality.Primary
import EcmaTree.Proofs.Grammar.Legality.Statement
import EcmaTree.Proofs.Grammar.Liberty
import EcmaTree.Proofs.Grammar.Liberty.Basic
import EcmaTree.Proofs.Grammar.Liberty.Binding
import EcmaTree.Proofs.Grammar.Liberty.Retarget
import EcmaTree.Proofs.Grammar.Loosening
import EcmaTree.Proofs.Grammar.Loosening.Basic
import EcmaTree.Proofs.Grammar.Loosening.Pending
import EcmaTree.Proofs.Grammar.Loosening.Targets
import EcmaTree.Proofs.Grammar.NearestIf
import EcmaTree.Proofs.Grammar.Nesting
import EcmaTree.Proofs.Grammar.Nesting.Basic
import EcmaTree.Proofs.Grammar.Nesting.Expression
import EcmaTree.Proofs.Grammar.Nesting.Primary
import EcmaTree.Proofs.Grammar.Nesting.Statement
import EcmaTree.Proofs.Grammar.Operand
import EcmaTree.Proofs.Grammar.Outcome
import EcmaTree.Proofs.Grammar.Patterns
import EcmaTree.Proofs.Grammar.Phrase.Basic
import EcmaTree.Proofs.Grammar.Phrase.Operator
import EcmaTree.Proofs.Grammar.Phrase.Primary
import EcmaTree.Proofs.Grammar.Phrase.Statement
import EcmaTree.Proofs.Grammar.Reading.Binding
import EcmaTree.Proofs.Grammar.Reading.Expression
import EcmaTree.Proofs.Grammar.Reading.Function
import EcmaTree.Proofs.Grammar.Reading.Literal
import EcmaTree.Proofs.Grammar.Reading.Primary
import EcmaTree.Proofs.Grammar.Reading.Statement
import EcmaTree.Proofs.Grammar.Scope
import EcmaTree.Proofs.Grammar.Slash
import EcmaTree.Proofs.Grammar.Strict
import EcmaTree.Proofs.Grammar.Targets
import EcmaTree.Proofs.Grammar.Termination
import EcmaTree.Proofs.Grammar.Trail
import EcmaTree.Proofs.Grammar.Words
import EcmaTree.Proofs.Grammar.Wrapper
import EcmaTree.Proofs.Print.Converted
import EcmaTree.Proofs.Print.Forms
import EcmaTree.Proofs.Print.Indentation
import EcmaTree.Proofs.Print.Lays
import EcmaTree.Proofs.Print.LoopHead
import EcmaTree.Proofs.Print.Phrase
import EcmaTree.Proofs.Print.Roundtrip
import EcmaTree.Proofs.Print.Segments
import EcmaTree.Proofs.Print.StatementStart
import EcmaTree.Proofs.Report.Excerpt
import EcmaTree.Proofs.Session.Bottom
import EcmaTree.Proofs.Source.Correspondence
import EcmaTree.Proofs.Source.Exact
import EcmaTree.Proofs.Source.Lines
import EcmaTree.Proofs.Source.Plain
import EcmaTree.Proofs.Source.Slice
import EcmaTree.Proofs.Target.Alike
import EcmaTree.Proofs.Target.BareDefault
import EcmaTree.Proofs.Target.Converts
import EcmaTree.Proofs.Target.FunctionKey
import EcmaTree.Proofs.Target.Kept
import EcmaTree.Proofs.Target.Loosened
import EcmaTree.Proofs.Target.Names
import EcmaTree.Proofs.Target.Offence
import EcmaTree.Proofs.Target.Shape
import EcmaTree.Proofs.Token.Abreast
import EcmaTree.Proofs.Token.Balance
import EcmaTree.Proofs.Token.Calls
import EcmaTree.Proofs.Token.Chunk
import EcmaTree.Proofs.Token.Clear
import EcmaTree.Proofs.Token.Cooked
import EcmaTree.Proofs.Token.Count
import EcmaTree.Proofs.Token.Division
import EcmaTree.Proofs.Token.Exact
import EcmaTree.Proofs.Token.Gap
import EcmaTree.Proofs.Token.OpenTemplate
import EcmaTree.Proofs.Token.Operators
import EcmaTree.Proofs.Token.Progress
import EcmaTree.Proofs.Token.Seen
import EcmaTree.Proofs.Token.Separate
import EcmaTree.Proofs.Token.Spelling
import EcmaTree.Proofs.Token.Spells
import EcmaTree.Proofs.Token.Tiling
import EcmaTree.Proofs.Token.Trail
import EcmaTree.Proofs.Token.Trivia
import EcmaTree.Proofs.Token.Written
import EcmaTree.Proofs.Tree.Alike
import EcmaTree.Proofs.Tree.BareDefault
import EcmaTree.Proofs.Tree.Enclosure
import EcmaTree.Proofs.Tree.Form
import EcmaTree.Proofs.Tree.Nesting
import EcmaTree.Proofs.Tree.Occurrence
import EcmaTree.Proofs.Tree.Site
import EcmaTree.Proofs.Tree.Spans
import EcmaTree.Report
import EcmaTree.Report.Diagnostic
import EcmaTree.Report.Paint
import EcmaTree.Session
import EcmaTree.Session.Step
import EcmaTree.Source.Character
import EcmaTree.Source.Comment
import EcmaTree.Source.Cursor
import EcmaTree.Source.LineMap
import EcmaTree.Source.Place
import EcmaTree.Source.Slice
import EcmaTree.Source.Unicode.Alphabetic
import EcmaTree.Source.Unicode.Numeric
import EcmaTree.Target.Check
import EcmaTree.Target.Conversion
import EcmaTree.Token.Context
import EcmaTree.Token.Kind
import EcmaTree.Token.Lexeme
import EcmaTree.Token.Number
import EcmaTree.Token.Punctuator
import EcmaTree.Token.Quoted
import EcmaTree.Token.Read
import EcmaTree.Token.Regexp
import EcmaTree.Token.Stream
import EcmaTree.Token.Template
import EcmaTree.Tree.Encode
import EcmaTree.Tree.Node
import EcmaTree.Tree.Operator
