import CipherMachine.Main
import CipherMachine.Scheme.Recorded
import CipherMachine.Proofs.Digits
import CipherMachine.Proofs.Homomorphism
import CipherMachine.Proofs.Gates.Reduction
import CipherMachine.Proofs.Gates.Word
import CipherMachine.Proofs.Gates.Selection
import CipherMachine.Proofs.Gates.Pattern
import CipherMachine.Proofs.Gates.Arithmetic
import CipherMachine.Proofs.Memory
import CipherMachine.Proofs.Bytes
import CipherMachine.Proofs.Cycle.Decode
import CipherMachine.Proofs.Cycle.Execute
import CipherMachine.Proofs.Cycle.Writeback
import CipherMachine.Proofs.Machine.Simulation
import CipherMachine.Proofs.Machine.Loading
import CipherMachine.Proofs.Machine.Decryption
import CipherMachine.Proofs.PlainBit
import CipherMachine.Proofs.Integer
import CipherMachine.Proofs.Circuit
import CipherMachine.Proofs.IntegerCorrectness
import CipherMachine.Proofs.Lockstep.Compositional
import CipherMachine.Proofs.Lockstep.Basic
import CipherMachine.Proofs.Lockstep.Gates
import CipherMachine.Proofs.Lockstep.Memory
import CipherMachine.Proofs.Lockstep.Cycle
import CipherMachine.Proofs.Lockstep.Scheme
import CipherMachine.Proofs.Lockstep.Machine
import CipherMachine.Proofs.Lockstep.Loading
import CipherMachine.Proofs.Obliviousness
import CipherMachine.Proofs.Budget
import CipherMachine.Proofs.Machine.Runs
import CipherMachine.Proofs.Machine.Shape
import CipherMachine.Proofs.Image.Grammar
import CipherMachine.Proofs.Image.Reading
import CipherMachine.Proofs.CommandLine.Execution
import CipherMachine.Proofs.CommandLine.Agreement
import CipherMachine.Proofs.Cost.Basic
import CipherMachine.Proofs.Cost.Gates
import CipherMachine.Proofs.Cost.Words
import CipherMachine.Proofs.Cost.Memory
import CipherMachine.Proofs.Cost.Cycle
import CipherMachine.Proofs.Cost.Machine
import CipherMachine.Proofs.Interpreter.Confinement
import CipherMachine.Proofs.Interpreter.IgnoredBits
import CipherMachine.Proofs.VisitOrder.Matched
import CipherMachine.Proofs.VisitOrder.Access
import CipherMachine.Proofs.VisitOrder.Schemes
import CipherMachine.Proofs.Memory.ArrayAccess
import CipherMachine.Proofs.Integer.Shadow
import CipherMachine.Proofs.Machine.Cancellation
import CipherMachine.Proofs.Integer.Keys
import CipherMachine.Proofs.Random.Uniform
import CipherMachine.Proofs.Gates.Leads
import CipherMachine.Proofs.Tasks
import CipherMachine.Proofs.Counters
import CipherMachine.Proofs.Schedule.Minimality
import CipherMachine.Proofs.Cost.Refreshes
import CipherMachine.Proofs.Refreshes
import CipherMachine.Proofs.Groupings
import CipherMachine.Proofs.Balance
import CipherMachine.Proofs.PlainBit.Matching
import CipherMachine.Proofs.PlainBit.Multiplexer
import CipherMachine.Proofs.PlainBit.Addition
import CipherMachine.Proofs.Rotation
import CipherMachine.Proofs.Machine.Acceptance
import CipherMachine.Proofs.Cycle.Leads
import CipherMachine.Proofs.Cycle.Metering
import CipherMachine.Proofs.Machine.RegisterReports
import CipherMachine.Proofs.Machine.Tracing
import CipherMachine.Proofs.Interpreter.BranchChains
import CipherMachine.Proofs.Text.Lines
import CipherMachine.Proofs.Image.Layout
import CipherMachine.Proofs.Text.Numerals
import CipherMachine.Proofs.Image.Writing
import CipherMachine.Proofs.Gates.RoundTrips
import CipherMachine.Proofs.Image.Numbers
import CipherMachine.Proofs.Listing
import CipherMachine.Proofs.Disassembly
import CipherMachine.Proofs.CommandLine.Listings
