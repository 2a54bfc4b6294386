import TickTree.Main
import TickTree.Npc.Cue
import TickTree.Scenario.Play
import TickTree.Scenario.Trial
import TickTree.Proofs.Simulation
import TickTree.Proofs.Lifecycle
import TickTree.Proofs.Nesting
import TickTree.Proofs.Freshness
import TickTree.Proofs.Once
import TickTree.Proofs.Seconds
import TickTree.Proofs.Rounding
import TickTree.Proofs.Memory
import TickTree.Proofs.Telling
import TickTree.Proofs.Phases
import TickTree.Proofs.Timeouts
import TickTree.Proofs.Cooldowns
import TickTree.Proofs.Restarts
import TickTree.Proofs.Groves
import TickTree.Proofs.Sharing
import TickTree.Proofs.Twins
import TickTree.Proofs.Sessions
import TickTree.Proofs.Unwinding
import TickTree.Proofs.Holding
import TickTree.Proofs.Succession
import TickTree.Proofs.Boards
import TickTree.Proofs.Observers
import TickTree.Proofs.Formulas
import TickTree.Proofs.Firmness
import TickTree.Proofs.Flattening
import TickTree.Proofs.Upholding
import TickTree.Proofs.Character
import TickTree.Proofs.Standing
import TickTree.Proofs.Flight
import TickTree.Proofs.Amounts
import TickTree.Proofs.Sums
import TickTree.Proofs.Wellbeing
import TickTree.Proofs.Climbing
import TickTree.Proofs.Elapsing
import TickTree.Proofs.Shuffling
import TickTree.Proofs.Habits
import TickTree.Proofs.Completions
import TickTree.Proofs.Handling
import TickTree.Proofs.Beats
import TickTree.Proofs.Selection
import TickTree.Proofs.Reordering
import TickTree.Proofs.Reshuffling
import TickTree.Proofs.Postorder
import TickTree.Proofs.Chronicles
import TickTree.Proofs.Polling
import TickTree.Proofs.Repetition
import TickTree.Proofs.Inversion
import TickTree.Proofs.Laps
import TickTree.Proofs.Spells
import TickTree.Proofs.Cadence
import TickTree.Proofs.Awaiting
import TickTree.Proofs.Targets
import TickTree.Proofs.Drawing
import TickTree.Proofs.Additions
import TickTree.Proofs.Environment
