import BlockVM.Isa.Assembly
import BlockVM.Block.Compiler
import BlockVM.Machine.Group
import BlockVM.Machine.Trace
import BlockVM.Memory.Symbol
import BlockVM.Bytes.Cbor
import BlockVM.Command.Dispatch
import BlockVM.Metrics
import BlockVM.Proofs.Isa.RoundTrip
import BlockVM.Proofs.X86.Assembled
import BlockVM.Proofs.Image.Seal
import BlockVM.Proofs.Machine.CachedBlocks
import BlockVM.Proofs.Machine.Ledger
import BlockVM.Proofs.Machine.Modes
import BlockVM.Proofs.Machine.Simulation
import BlockVM.Proofs.Memory.Resolution
import BlockVM.Proofs.Journal.Listing
import BlockVM.Proofs.Machine.HeapSafety
import BlockVM.Proofs.Machine.Schedules
import BlockVM.Proofs.Machine.Accounts
import BlockVM.Proofs.Machine.Frame
import BlockVM.Proofs.Machine.FloatBlocks
import BlockVM.Proofs.Block.Globals
import BlockVM.Proofs.Block.Calls
import BlockVM.Proofs.Isa.Labels
import BlockVM.Proofs.Isa.Bounds
import BlockVM.Proofs.Block.Buffer
import BlockVM.Proofs.Machine.PushPop
import BlockVM.Proofs.Machine.Cancellation
import BlockVM.Proofs.Memory.Bounds
import BlockVM.Proofs.Device.Ports
import BlockVM.Proofs.Image.Truncation
import BlockVM.Proofs.Command.Info
import BlockVM.Proofs.Machine.Arithmetic
import BlockVM.Proofs.Failure.Chains
