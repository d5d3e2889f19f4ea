import GapRegex.Dialect
import GapRegex.ParseError
import GapRegex.CharSet.Basic
import GapRegex.CharSet.Lemmas
import GapRegex.CharSet.Class
import GapRegex.Repetition
import GapRegex.Cursor.Basic
import GapRegex.Cursor.Scan
import GapRegex.Cursor.Lemmas
import GapRegex.NormalForm
import GapRegex.Pattern.Basic
import GapRegex.Pattern.Printer
import GapRegex.Parser.Basic
import GapRegex.Parser.Lemmas
import GapRegex.Journal
import GapRegex.Span
import GapRegex.Proofs.Scanning
import GapRegex.Proofs.Productions
import GapRegex.Proofs.Reads
import GapRegex.Proofs.WellFormed
import GapRegex.Proofs.Grammar
import GapRegex.Proofs.ClassText
import GapRegex.Proofs.Tokens
import GapRegex.Proofs.Pieces
import GapRegex.Proofs.PrintedText
import GapRegex.Proofs.RoundTrip
import GapRegex.Proofs.Faults
import GapRegex.Proofs.Fails
import GapRegex.Proofs.Reports
import GapRegex.Proofs.CursorRuns
import GapRegex.Proofs.NormalText
import GapRegex.Proofs.Composition
import GapRegex.Proofs.InStep
import GapRegex.Proofs.Sentinel
import GapRegex.Proofs.ClassMembers
import GapRegex.Proofs.Histories
import GapRegex.Proofs.Stability
import GapRegex.Proofs.Finality
import GapRegex.Proofs.Progress
import GapRegex.Proofs.Meaning
import GapRegex.Proofs.Bounds
import GapRegex.Proofs.LiteralText
import GapRegex.Proofs.TreeSize
