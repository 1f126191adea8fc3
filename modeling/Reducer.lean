import Reducer.Binding
import Reducer.Changes
import Reducer.Json.Parser
import Reducer.Json.Printer
import Reducer.Node.Printer
import Reducer.Recorder
import Reducer.Registry.Register
import Reducer.Script.Body
import Reducer.Script.Payload
import Reducer.Store
import Reducer.Proofs.Build
import Reducer.Proofs.Walk.Levels
import Reducer.Proofs.Walk.Slots
import Reducer.Proofs.Walk.Frames
import Reducer.Proofs.Reduction
import Reducer.Proofs.Sharing
import Reducer.Proofs.Report
import Reducer.Proofs.Walk.Labels
import Reducer.Proofs.Registration
import Reducer.Proofs.Alike
import Reducer.Proofs.Callback
import Reducer.Proofs.Sweep.Basic
import Reducer.Proofs.Sweep.Tour
import Reducer.Proofs.Sweep.Slots
import Reducer.Proofs.Sweep.Walk
import Reducer.Proofs.View
import Reducer.Proofs.Sweep.Reduction
import Reducer.Proofs.Patch
import Reducer.Proofs.Replay
import Reducer.Proofs.Groups
import Reducer.Proofs.Instances
import Reducer.Proofs.Qualified
import Reducer.Proofs.Coherence
import Reducer.Proofs.Order
import Reducer.Proofs.Batch
import Reducer.Proofs.Unreported
import Reducer.Proofs.Admission
import Reducer.Proofs.Piecemeal
import Reducer.Proofs.Compaction
import Reducer.Proofs.Refusal
import Reducer.Proofs.Idle
import Reducer.Proofs.Conversion
import Reducer.Proofs.Lawful
import Reducer.Proofs.Invocation
import Reducer.Proofs.ChangeText
import Reducer.Proofs.Emptiness
import Reducer.Proofs.Rearranged
import Reducer.Proofs.Bounds
import Reducer.Proofs.Names
import Reducer.Proofs.Override
