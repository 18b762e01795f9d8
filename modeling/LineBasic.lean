import LineBasic.Command
import LineBasic.Dice
import LineBasic.DimArray
import LineBasic.Expression.Evaluate
import LineBasic.Expression.Frame
import LineBasic.Expression.Literal
import LineBasic.Expression.Place
import LineBasic.Expression.Reference
import LineBasic.Fault
import LineBasic.Function
import LineBasic.Function.Arguments
import LineBasic.Function.Substring
import LineBasic.Host
import LineBasic.Lexer
import LineBasic.Lexicon
import LineBasic.Listing
import LineBasic.Listing.File
import LineBasic.Listing.Renumber
import LineBasic.Machine
import LineBasic.Main
import LineBasic.Module
import LineBasic.Number.Binary
import LineBasic.Number.Decimal
import LineBasic.Number.Numeral
import LineBasic.Operator
import LineBasic.Pieces
import LineBasic.Proofs.Act
import LineBasic.Proofs.Act.Course
import LineBasic.Proofs.Act.Places
import LineBasic.Proofs.Act.Shift
import LineBasic.Proofs.Act.Statement
import LineBasic.Proofs.Act.Turn
import LineBasic.Proofs.Assignment
import LineBasic.Proofs.Blind
import LineBasic.Proofs.Calm
import LineBasic.Proofs.Calm.Command
import LineBasic.Proofs.Calm.Expression
import LineBasic.Proofs.Calm.Statement
import LineBasic.Proofs.Change
import LineBasic.Proofs.Data
import LineBasic.Proofs.Data.Stream
import LineBasic.Proofs.DimArray
import LineBasic.Proofs.Effect
import LineBasic.Proofs.Evaluation
import LineBasic.Proofs.Expression.Acceptance
import LineBasic.Proofs.Expression.CallDepth
import LineBasic.Proofs.Expression.Formula
import LineBasic.Proofs.Expression.FunctionNames
import LineBasic.Proofs.Expression.Grammar
import LineBasic.Proofs.Expression.HandedOn
import LineBasic.Proofs.Expression.Parameters
import LineBasic.Proofs.Expression.Pass
import LineBasic.Proofs.Expression.Pending
import LineBasic.Proofs.Expression.Prefixes
import LineBasic.Proofs.Expression.Reading
import LineBasic.Proofs.Expression.Recursion
import LineBasic.Proofs.Expression.Reference
import LineBasic.Proofs.Expression.Stacks
import LineBasic.Proofs.Expression.Underflow
import LineBasic.Proofs.Input
import LineBasic.Proofs.Input.Rounds
import LineBasic.Proofs.Lexer.Front
import LineBasic.Proofs.Lexer.Marked
import LineBasic.Proofs.Lexer.Numerals
import LineBasic.Proofs.Lexer.Packed
import LineBasic.Proofs.Lexer.Positions
import LineBasic.Proofs.Lexer.Progress
import LineBasic.Proofs.Lexer.QuotedText
import LineBasic.Proofs.Lexer.Reserved
import LineBasic.Proofs.Lexer.Spelling
import LineBasic.Proofs.Lexer.Symbol
import LineBasic.Proofs.Lexer.UpperCase
import LineBasic.Proofs.Lexer.Written
import LineBasic.Proofs.Listing.Frame
import LineBasic.Proofs.Listing.Lexemes
import LineBasic.Proofs.Listing.Names
import LineBasic.Proofs.Listing.Places
import LineBasic.Proofs.Listing.References
import LineBasic.Proofs.Listing.Renumbering
import LineBasic.Proofs.Listing.Rewriting
import LineBasic.Proofs.Listing.Rewritten
import LineBasic.Proofs.Listing.Saved
import LineBasic.Proofs.Listing.Seeking
import LineBasic.Proofs.Listing.Statements
import LineBasic.Proofs.Listing.WordRun
import LineBasic.Proofs.Loop
import LineBasic.Proofs.Machine
import LineBasic.Proofs.Number.Grammar
import LineBasic.Proofs.Number.Integer
import LineBasic.Proofs.Number.LineNumber
import LineBasic.Proofs.Number.Nearest
import LineBasic.Proofs.Number.ReadBack
import LineBasic.Proofs.Number.Tail
import LineBasic.Proofs.Ordinary
import LineBasic.Proofs.Run
import LineBasic.Proofs.Scopes
import LineBasic.Proofs.Session.Anchored
import LineBasic.Proofs.Session.Checked
import LineBasic.Proofs.Session.Clock
import LineBasic.Proofs.Session.Cursor
import LineBasic.Proofs.Session.DataStream
import LineBasic.Proofs.Session.EmptyStatement
import LineBasic.Proofs.Session.Faults
import LineBasic.Proofs.Session.HiddenText
import LineBasic.Proofs.Session.Iteration
import LineBasic.Proofs.Session.Kinds
import LineBasic.Proofs.Session.Move
import LineBasic.Proofs.Session.Nesting
import LineBasic.Proofs.Session.OpenFiles
import LineBasic.Proofs.Session.OutOfScope
import LineBasic.Proofs.Session.Reachable
import LineBasic.Proofs.Session.Returning
import LineBasic.Proofs.Session.Saved
import LineBasic.Proofs.Session.Scopes
import LineBasic.Proofs.Session.StackLimits
import LineBasic.Proofs.Session.Step
import LineBasic.Proofs.Session.Subroutine
import LineBasic.Proofs.Session.Suspended
import LineBasic.Proofs.Session.TypedText
import LineBasic.Proofs.Session.Underway
import LineBasic.Proofs.Spares
import LineBasic.Proofs.Table
import LineBasic.Proofs.Text.Case
import LineBasic.Proofs.Text.Lines
import LineBasic.Proofs.Text.Runs
import LineBasic.Proofs.Text.Substring
import LineBasic.Proofs.Text.Wildcard
import LineBasic.Proofs.Unbounded
import LineBasic.Proofs.Untyped
import LineBasic.Proofs.Using.Format
import LineBasic.Proofs.Using.Grouping
import LineBasic.Proofs.Using.Numbers
import LineBasic.Proofs.Using.Turns
import LineBasic.Proofs.Variables
import LineBasic.Proofs.WellScoped
import LineBasic.Proofs.World
import LineBasic.Proofs.World.Command
import LineBasic.Proofs.World.FailedCommand
import LineBasic.Proofs.World.FileText
import LineBasic.Proofs.World.Permit
import LineBasic.Proofs.World.Statement
import LineBasic.Registry
import LineBasic.Scopes
import LineBasic.Session
import LineBasic.Stack
import LineBasic.Statement
import LineBasic.Statement.Assign
import LineBasic.Statement.Data
import LineBasic.Statement.Input
import LineBasic.Statement.Jump
import LineBasic.Statement.Lines
import LineBasic.Statement.Loop
import LineBasic.Statement.Print
import LineBasic.Table
import LineBasic.Text.Blank
import LineBasic.Text.Case
import LineBasic.Text.CaseData
import LineBasic.Text.Layout
import LineBasic.Text.Wildcard
import LineBasic.Token
import LineBasic.Using.Field
import LineBasic.Using.Render
import LineBasic.Value
import LineBasic.Variables
import LineBasic.Word
