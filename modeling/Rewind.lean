import Rewind.Decimal.General
import Rewind.Token.Stream
import Rewind.Cursor
import Rewind.Failure.Complaint
import Rewind.Dict
import Rewind.Arena
import Rewind.Tape
import Rewind.Scope
import Rewind.World
import Rewind.Ledger
import Rewind.Arithmetic
import Rewind.Scheduler
import Rewind.Files
import Rewind.Machine
import Rewind.Eval.Access
import Rewind.Eval.Call
import Rewind.Eval.Expression
import Rewind.Eval.Native
import Rewind.Session
import Rewind.Decimal.Shortest
import Rewind.Settings
import Rewind.CommandLine
import Rewind.CommandLine.Execute
import Rewind.CommandLine.Reach
import Rewind.Main
import Rewind.Settings.Layer
import Rewind.Proofs.Replay
import Rewind.Proofs.Calls
import Rewind.Proofs.Expressions
import Rewind.Proofs.Fate
import Rewind.Proofs.Reentry
import Rewind.Proofs.Cancellation
import Rewind.Proofs.Rounds
import Rewind.Proofs.Defects
import Rewind.Proofs.Walk
import Rewind.Proofs.Extent
import Rewind.Proofs.Outline
import Rewind.Proofs.Precedence
import Rewind.Proofs.Layout
import Rewind.Proofs.Revisiting
import Rewind.Proofs.Printing
import Rewind.Proofs.Whereabouts
import Rewind.Proofs.Recording
import Rewind.Proofs.Footprint
import Rewind.Proofs.Storage
import Rewind.Proofs.Skimming
import Rewind.Proofs.Ranges
import Rewind.Proofs.Yielding
import Rewind.Proofs.Timers
import Rewind.Proofs.Binding
import Rewind.Proofs.Equality
import Rewind.Proofs.Digits
import Rewind.Proofs.Attempts
import Rewind.Proofs.Enclosure
import Rewind.Proofs.Placeless
import Rewind.Proofs.Tracking
import Rewind.Proofs.Interpolation
import Rewind.Proofs.Methods
import Rewind.Proofs.Discipline
import Rewind.Proofs.Shadowing
import Rewind.Proofs.Slicing
import Rewind.Proofs.Restoring
import Rewind.Proofs.Separation
import Rewind.Proofs.Gathering
import Rewind.Proofs.Handles
import Rewind.Proofs.Playback
import Rewind.Proofs.Loading
import Rewind.Proofs.Trees
import Rewind.Proofs.Meaning
import Rewind.Proofs.Settling
import Rewind.Proofs.Rows
import Rewind.Proofs.Stores
import Rewind.Proofs.Landing
import Rewind.Proofs.Terms
import Rewind.Proofs.Carrying
import Rewind.Proofs.Blocks
import Rewind.Proofs.Looping
import Rewind.Proofs.Rescuing
import Rewind.Proofs.Simulation
import Rewind.Proofs.Calling
import Rewind.Proofs.Programs
