import LoxLexer.FileTree
import LoxLexer.Main
import LoxLexer.Proofs.Cut
import LoxLexer.Proofs.Run
import LoxLexer.Proofs.LongestMatch
import LoxLexer.Proofs.Tiling
import LoxLexer.Proofs.Lines
import LoxLexer.Proofs.Concat
import LoxLexer.Proofs.BlankOut
import LoxLexer.Proofs.Printing
import LoxLexer.Proofs.Taking
import LoxLexer.Proofs.LineByLine
import LoxLexer.Proofs.Events
import LoxLexer.Proofs.Conversation
import LoxLexer.Proofs.Steps
import LoxLexer.Proofs.Truncation
import LoxLexer.Proofs.Parts
import LoxLexer.Proofs.Handover
import LoxLexer.Proofs.History
import LoxLexer.Proofs.Transcript
import LoxLexer.Proofs.Account
import LoxLexer.Proofs.Lookahead
import LoxLexer.Proofs.Respelling
import LoxLexer.Proofs.Invariance
import LoxLexer.Proofs.Decoding
import LoxLexer.Proofs.Interruption
import LoxLexer.Proofs.ExitStatus
import LoxLexer.Proofs.Collecting
import LoxLexer.Proofs.Nesting
import LoxLexer.Proofs.Reprinting
import LoxLexer.Proofs.Offsets
import LoxLexer.Proofs.Bounds
