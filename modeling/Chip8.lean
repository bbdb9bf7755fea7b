import Chip8.Board.Lemmas
import Chip8.Machine.Monitor
import Chip8.Machine.Survey
import Chip8.Main
import Chip8.Memory.Command
import Chip8.Memory.Difference
import Chip8.Proofs.StackLayout
import Chip8.Proofs.AddressBounds
import Chip8.Proofs.TraceRecord
import Chip8.Proofs.SilentTracing
import Chip8.Proofs.CrashReport
import Chip8.Proofs.RunLimits
import Chip8.Proofs.StackHistory
import Chip8.Proofs.CircularStack
import Chip8.Proofs.ProgramArea
import Chip8.Proofs.LastStored
import Chip8.Proofs.SessionOutcome
import Chip8.Proofs.BlockReads
import Chip8.Proofs.Listing
import Chip8.Proofs.BlockTransfer
import Chip8.Proofs.WellFormed
import Chip8.Proofs.Assignments
import Chip8.Proofs.WordParts
import Chip8.Proofs.DecimalStore
import Chip8.Proofs.Clauses
import Chip8.Proofs.Selections
import Chip8.Proofs.Stretches
import Chip8.Proofs.Runs
import Chip8.Proofs.Survey
