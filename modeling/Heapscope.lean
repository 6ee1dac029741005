import Heapscope.Call
import Heapscope.Color
import Heapscope.Command.Basic
import Heapscope.Command.Grammar
import Heapscope.Command.Help
import Heapscope.Command.Perform
import Heapscope.Command.Session
import Heapscope.Command.World
import Heapscope.Guest.Allocators
import Heapscope.Guest.Basic
import Heapscope.Guest.Binding
import Heapscope.Guest.Code
import Heapscope.Guest.Memory
import Heapscope.Guest.Options
import Heapscope.Guest.Script
import Heapscope.Guest.Text
import Heapscope.Host.Basic
import Heapscope.Host.FirstFit
import Heapscope.Invalid
import Heapscope.Json.Reading
import Heapscope.Json.Token
import Heapscope.Json.Tree
import Heapscope.Main
import Heapscope.Memory.Occupancy
import Heapscope.Micros
import Heapscope.Note
import Heapscope.Number.Binary64
import Heapscope.Number.Hex
import Heapscope.Number.Literal
import Heapscope.Number.Numeral
import Heapscope.Number.Shortest
import Heapscope.OrderedMap
import Heapscope.Proofs.Bounds
import Heapscope.Proofs.Except
import Heapscope.Proofs.Guest.Asking
import Heapscope.Proofs.Guest.Boundary
import Heapscope.Proofs.Guest.Delivery
import Heapscope.Proofs.Guest.Emissions
import Heapscope.Proofs.Guest.FirstFit
import Heapscope.Proofs.Guest.Memory
import Heapscope.Proofs.Guest.Uses
import Heapscope.Proofs.Host.FirstFit
import Heapscope.Proofs.Host.Indifference
import Heapscope.Proofs.Host.Transcript
import Heapscope.Proofs.Host.Views
import Heapscope.Proofs.Json.Documents
import Heapscope.Proofs.Json.Lexing
import Heapscope.Proofs.Keys
import Heapscope.Proofs.Memory.Checked
import Heapscope.Proofs.Memory.Extents
import Heapscope.Proofs.Memory.Requests
import Heapscope.Proofs.Memory.Runs
import Heapscope.Proofs.Memory.Spans
import Heapscope.Proofs.Memory.Windows
import Heapscope.Proofs.Memory.Words
import Heapscope.Proofs.Micros
import Heapscope.Proofs.Note
import Heapscope.Proofs.Number.Binary64
import Heapscope.Proofs.Number.Digits
import Heapscope.Proofs.Number.Monotone
import Heapscope.Proofs.Number.Order
import Heapscope.Proofs.Number.Rounding
import Heapscope.Proofs.Number.Shortest
import Heapscope.Proofs.OrderedMap
import Heapscope.Proofs.Replay.Accepted
import Heapscope.Proofs.Replay.Encoding
import Heapscope.Proofs.Replay.Ending
import Heapscope.Proofs.Replay.Faults
import Heapscope.Proofs.Replay.Marks
import Heapscope.Proofs.Replay.Moves
import Heapscope.Proofs.Replay.Opacity
import Heapscope.Proofs.Replay.Opening
import Heapscope.Proofs.Replay.Painting
import Heapscope.Proofs.Replay.Playing
import Heapscope.Proofs.Replay.Progress
import Heapscope.Proofs.Replay.Seeking
import Heapscope.Proofs.Replay.Shown
import Heapscope.Proofs.Replay.Stages
import Heapscope.Proofs.Replay.Stepping
import Heapscope.Proofs.Run.Aftermath
import Heapscope.Proofs.Run.Agreement
import Heapscope.Proofs.Run.FirstFit
import Heapscope.Proofs.Run.Lockstep
import Heapscope.Proofs.Run.Messages
import Heapscope.Proofs.Run.Ownership
import Heapscope.Proofs.Run.Prefixes
import Heapscope.Proofs.Run.Refusals
import Heapscope.Proofs.Run.Repeating
import Heapscope.Proofs.Run.Retiming
import Heapscope.Proofs.Run.Silence
import Heapscope.Proofs.Run.Soundness
import Heapscope.Proofs.Run.Steps
import Heapscope.Proofs.Run.TimingPass
import Heapscope.Proofs.Run.Verdict
import Heapscope.Proofs.Run.Workloads
import Heapscope.Proofs.Run.Woven
import Heapscope.Proofs.Trace.Blocks
import Heapscope.Proofs.Trace.Codec
import Heapscope.Proofs.Trace.Divergence
import Heapscope.Proofs.Trace.Encoding
import Heapscope.Proofs.Trace.Ledger
import Heapscope.Proofs.Trace.Sorting
import Heapscope.Proofs.Wire.Calls
import Heapscope.Proofs.Wire.Options
import Heapscope.Proofs.Wire.Records
import Heapscope.Proofs.Wire.Scalars
import Heapscope.Proofs.Wire.Times
import Heapscope.Proofs.Wire.Workloads
import Heapscope.Proofs.Workload.Calls
import Heapscope.Proofs.Workload.Compile
import Heapscope.Proofs.Workload.Faults
import Heapscope.Proofs.Workload.Numerals
import Heapscope.Proofs.Workload.Walk
import Heapscope.Proofs.Workload.Weaving
import Heapscope.Replay.Canvas
import Heapscope.Replay.Frame
import Heapscope.Replay.Picture
import Heapscope.Replay.Segment
import Heapscope.Replay.Timeline
import Heapscope.Run.Execution
import Heapscope.Run.Palette
import Heapscope.Run.Refusal
import Heapscope.Run.Timing
import Heapscope.Text.Blank
import Heapscope.Trace.Basic
import Heapscope.Trace.Digest
import Heapscope.Trace.Divergence
import Heapscope.Wire.Call
import Heapscope.Wire.Note
import Heapscope.Wire.Options
import Heapscope.Wire.Run
import Heapscope.Wire.Scalar
import Heapscope.Wire.Workload
import Heapscope.Workload.Attribute
import Heapscope.Workload.Error
import Heapscope.Workload.Item
import Heapscope.Workload.Node
import Heapscope.Workload.Schedule
