import MiniJava.Main
import MiniJava.Proofs.Command.Agreement
import MiniJava.Proofs.Expression.Grammar
import MiniJava.Proofs.Extents.Reparsing
import MiniJava.Proofs.Extents.WholeExpression
import MiniJava.Proofs.FirstError.Locality
import MiniJava.Proofs.Layout.Independence
import MiniJava.Proofs.Layout.Respacing
import MiniJava.Proofs.Lexing.Joining
import MiniJava.Proofs.Lexing.Munch
import MiniJava.Proofs.Lexing.Runs
import MiniJava.Proofs.Lines.Positions
import MiniJava.Proofs.Lines.Texts
import MiniJava.Proofs.Order.Declaration
import MiniJava.Proofs.Order.Reports
import MiniJava.Proofs.Order.Tour
import MiniJava.Proofs.Printing.Margins
import MiniJava.Proofs.Printing.Minimal
import MiniJava.Proofs.Printing.RoundTrip
import MiniJava.Proofs.Program.EntryPoints
import MiniJava.Proofs.Program.NearestElse
import MiniJava.Proofs.Progress.Termination
import MiniJava.Proofs.Recovery.BrokenMember
import MiniJava.Proofs.Recovery.BrokenResult
import MiniJava.Proofs.Recovery.Insertion
import MiniJava.Proofs.Recovery.MainClass
import MiniJava.Proofs.Recovery.Semicolon
import MiniJava.Proofs.Report.Coherence
import MiniJava.Proofs.Report.Collecting
import MiniJava.Proofs.Report.Colors
import MiniJava.Proofs.Report.Places
import MiniJava.Proofs.Tree.Erasing
import MiniJava.Proofs.Tree.Renaming
import MiniJava.Report.Emitter
