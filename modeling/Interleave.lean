import Interleave.CommandLine.Arguments
import Interleave.CommandLine.File
import Interleave.CommandLine.Run
import Interleave.Direct
import Interleave.Expr.Basic
import Interleave.Expr.Layout
import Interleave.Expr.Printer
import Interleave.Expr.Reader
import Interleave.Expr.Request
import Interleave.Fault
import Interleave.Journal
import Interleave.Machine
import Interleave.Main
import Interleave.Numeral
import Interleave.Primitive
import Interleave.Proofs.Accounting
import Interleave.Proofs.Agreement
import Interleave.Proofs.ArgumentLists
import Interleave.Proofs.Attempts
import Interleave.Proofs.Budget
import Interleave.Proofs.Code
import Interleave.Proofs.Company
import Interleave.Proofs.Completion
import Interleave.Proofs.Composition
import Interleave.Proofs.Confinement
import Interleave.Proofs.Continuation
import Interleave.Proofs.Cursor
import Interleave.Proofs.Defects
import Interleave.Proofs.Direct
import Interleave.Proofs.ExitStatus
import Interleave.Proofs.Faults
import Interleave.Proofs.Grammar
import Interleave.Proofs.Growth
import Interleave.Proofs.History
import Interleave.Proofs.Intact
import Interleave.Proofs.Interleaving
import Interleave.Proofs.Isolation
import Interleave.Proofs.Joining
import Interleave.Proofs.Layout
import Interleave.Proofs.Lexing
import Interleave.Proofs.Lifecycle
import Interleave.Proofs.Machine
import Interleave.Proofs.Noninterference
import Interleave.Proofs.Onlookers
import Interleave.Proofs.Operations
import Interleave.Proofs.Order
import Interleave.Proofs.Outcomes
import Interleave.Proofs.PrivateFrames
import Interleave.Proofs.RenamedStep
import Interleave.Proofs.Renaming
import Interleave.Proofs.Rest
import Interleave.Proofs.Resumption
import Interleave.Proofs.RoundRobin
import Interleave.Proofs.RoundTrip
import Interleave.Proofs.Scanning
import Interleave.Proofs.Session
import Interleave.Proofs.Spelling
import Interleave.Proofs.Step
import Interleave.Proofs.StepCount
import Interleave.Proofs.Stops
import Interleave.Proofs.TailCalls
import Interleave.Proofs.Trace
import Interleave.Proofs.Writable
import Interleave.Session.Basic
import Interleave.Session.Program
import Interleave.Session.Run
import Interleave.Settings
import Interleave.SpecialForm
import Interleave.Step
import Interleave.Text.Blank
import Interleave.Text.CodeRange
import Interleave.Text.Digit
import Interleave.Text.Printable
import Interleave.Text.Quoted
import Interleave.Token.Basic
import Interleave.Token.Feed
import Interleave.Token.Lexer
import Interleave.Value
import Interleave.World
