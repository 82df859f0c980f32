import ByteLexer.Command.Level
import ByteLexer.Command.Output
import ByteLexer.Command.Request
import ByteLexer.Command.Run
import ByteLexer.Files.Host
import ByteLexer.Files.Path
import ByteLexer.Files.Source
import ByteLexer.Files.System
import ByteLexer.Files.Tree
import ByteLexer.Files.TreeSystem
import ByteLexer.Main
import ByteLexer.Proofs.Boundary
import ByteLexer.Proofs.Decoding
import ByteLexer.Proofs.Events
import ByteLexer.Proofs.Lexeme
import ByteLexer.Proofs.LongestMatch
import ByteLexer.Proofs.NormalForm
import ByteLexer.Proofs.Partition
import ByteLexer.Proofs.Reach
import ByteLexer.Proofs.RoundTrip
import ByteLexer.Proofs.Run
import ByteLexer.Scan.ByteClass
import ByteLexer.Scan.Call
import ByteLexer.Scan.Cursor
import ByteLexer.Scan.Event
import ByteLexer.Scan.Lead
import ByteLexer.Scan.Notice
import ByteLexer.Scan.Scanner
import ByteLexer.Stream.Call
import ByteLexer.Stream.Content
import ByteLexer.Stream.Network
import ByteLexer.Stream.Session
import ByteLexer.Text.CodePoints
import ByteLexer.Text.ControlSequence
import ByteLexer.Text.Hex
import ByteLexer.Text.Printable
import ByteLexer.Text.Quoted
import ByteLexer.Text.Utf8
import ByteLexer.Token.Basic
import ByteLexer.Token.Grammar
import ByteLexer.Token.Kind
import ByteLexer.Proofs.EncodedText
import ByteLexer.Proofs.Ending
import ByteLexer.Proofs.Stability
import ByteLexer.Proofs.Gaps
import ByteLexer.Proofs.Resumption
import ByteLexer.Proofs.Taking
import ByteLexer.Proofs.PlainList
import ByteLexer.Proofs.Segments
import ByteLexer.Stream.Trace
import ByteLexer.Proofs.Tracing
import ByteLexer.Proofs.Sharing
import ByteLexer.Proofs.Lookahead
import ByteLexer.Scan.Registers
import ByteLexer.Scan.Comments
import ByteLexer.Proofs.Registers
import ByteLexer.Proofs.Scannable
import ByteLexer.Proofs.Journal
import ByteLexer.Proofs.Comments
import ByteLexer.Command.Outcome
import ByteLexer.Token.Line
import ByteLexer.Scan.LineEnds
import ByteLexer.Proofs.Printing
import ByteLexer.Proofs.Outcome
import ByteLexer.Proofs.Delivery
import ByteLexer.Proofs.PrintedForm
import ByteLexer.Proofs.LineEnds
import ByteLexer.Proofs.CallCount
import ByteLexer.Text.Span
import ByteLexer.Proofs.Readers
import ByteLexer.Proofs.Subparts
import ByteLexer.Text.Subpart
import ByteLexer.Command.Arguments
import ByteLexer.Command.CommandLine
import ByteLexer.Command.Execute
import ByteLexer.Proofs.HostLine
