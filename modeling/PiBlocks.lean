import PiBlocks.CommandLine.Disk
import PiBlocks.Identifier
import PiBlocks.Main
import PiBlocks.Proofs.CommandLine.Flags
import PiBlocks.Proofs.Debounce
import PiBlocks.Proofs.Identifier
import PiBlocks.Proofs.Program.Marker
import PiBlocks.Proofs.Text.Offset
import PiBlocks.Proofs.Review.Arguments
import PiBlocks.Proofs.Review.Enclosing
import PiBlocks.Proofs.Review.Interleaving
import PiBlocks.Proofs.Review.Selections
import PiBlocks.Proofs.Review.Siblings
import PiBlocks.Proofs.Scope.Hiding
import PiBlocks.Proofs.Walk.Balance
import PiBlocks.Proofs.Walk.Bound
import PiBlocks.Proofs.Walk.Desugaring
import PiBlocks.Proofs.Walk.Forks
import PiBlocks.Proofs.Walk.Gate
import PiBlocks.Proofs.Walk.Operations
import PiBlocks.Proofs.Walk.Sequences
import PiBlocks.Proofs.Walk.Words
import PiBlocks.Proofs.Walk.Written
import PiBlocks.Proofs.Workspace.Arena
import PiBlocks.Proofs.Workspace.Document
import PiBlocks.Proofs.Workspace.Places
import PiBlocks.Session
