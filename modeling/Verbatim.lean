import Verbatim.Main
import Verbatim.Check.Basic
import Verbatim.Lexeme.Reader
import Verbatim.Proofs.Lexeme.Canonical
import Verbatim.Proofs.Lexeme.Spans
import Verbatim.Proofs.Nesting.Limit
import Verbatim.Proofs.Precedence.Chains
import Verbatim.Proofs.Recovery.Junk
import Verbatim.Proofs.Block.Append
import Verbatim.Proofs.Lexeme.Append
import Verbatim.Proofs.Lines.Rows
import Verbatim.Proofs.Lines.Physical
import Verbatim.Proofs.Reading.Sites
import Verbatim.Proofs.Recovery.Attribution
import Verbatim.Proofs.Outline.Nodes
import Verbatim.Proofs.Outline.Preorder
import Verbatim.Proofs.Outline.LineCount
import Verbatim.Proofs.Json.Lossless
import Verbatim.Proofs.Block.Extents
import Verbatim.Proofs.Block.PostOrder
import Verbatim.Proofs.Failure.Causes
import Verbatim.Proofs.Failure.Final
import Verbatim.Proofs.Lexeme.Terminated
import Verbatim.Proofs.Lines.Positions
import Verbatim.Proofs.Reading.Exchange
import Verbatim.Proofs.Block.Shape
import Verbatim.Proofs.Precedence.Tables
import Verbatim.Proofs.Listing.Lines
import Verbatim.Proofs.Block.Referenced
import Verbatim.Proofs.Lexeme.Queue
import Verbatim.Proofs.Lexeme.Steps
import Verbatim.Proofs.Parser.Frame
