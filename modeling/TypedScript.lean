import TypedScript.Compile
import TypedScript.Proofs.Bindings
import TypedScript.Proofs.Faults
import TypedScript.Proofs.Typing.Elaborated
import TypedScript.Proofs.Syntax
import TypedScript.Proofs.Typing.Inversion
import TypedScript.Proofs.Typing.Elaboration
import TypedScript.Proofs.Typing.Decision
import TypedScript.Proofs.Typing.Erasure
import TypedScript.Proofs.Typing.Annotation
import TypedScript.Proofs.Lowering.Totality
import TypedScript.Proofs.Lowering.Inversion
import TypedScript.Proofs.Code.Validation
import TypedScript.Proofs.Code.Tokens
import TypedScript.Proofs.Code.Reading
import TypedScript.Proofs.Lowering.Emitted
import TypedScript.Proofs.Lowering.Validity
import TypedScript.Proofs.Lowering.Positions
import TypedScript.Proofs.Lowering.Constructor
import TypedScript.Proofs.Machine.Effects
import TypedScript.Proofs.Machine.Room
import TypedScript.Proofs.Machine.LineLimit
import TypedScript.Proofs.Lowering.Namespaces
import TypedScript.Proofs.Machine.Safety
import TypedScript.Proofs.Machine.Structured
import TypedScript.Proofs.Machine.Adequacy
import TypedScript.Proofs.Machine.Calling
import TypedScript.Proofs.Machine.Handover
import TypedScript.Proofs.Machine.Regular
import TypedScript.Proofs.Evaluation.Actions
import TypedScript.Proofs.Evaluation.Calls
import TypedScript.Proofs.Evaluation.Correctness
import TypedScript.Proofs.Memory
import TypedScript.Proofs.Machine.Trace
import TypedScript.Proofs.Heap.Allocation
import TypedScript.Proofs.Heap.Discipline
import TypedScript.Proofs.Heap.Emission
import TypedScript.Proofs.Heap.Ledger
import TypedScript.Proofs.Heap.History
import TypedScript.Proofs.Resolution.Occurrences
import TypedScript.Proofs.Resolution.Accesses
import TypedScript.Proofs.Resolution.Agreement
import TypedScript.Proofs.Heap.Dereference
import TypedScript.Proofs.Heap.Initialization
import TypedScript.Proofs.Heap.Exhaustion
import TypedScript.Proofs.Heap.Delivery
import TypedScript.Proofs.Heap.Identity
import TypedScript.Proofs.Span
import TypedScript.Proofs.Tree.Position
import TypedScript.Proofs.Tree.Brackets
import TypedScript.Proofs.Tree.Assembly
import TypedScript.Proofs.Walk.Trivia
import TypedScript.Proofs.Walk.Growth
import TypedScript.Proofs.Walk.Fate
import TypedScript.Proofs.Walk.Overlooked
import TypedScript.Proofs.Walk.Assignment
import TypedScript.Proofs.Walk.Partition
import TypedScript.Proofs.Reordering.Program
import TypedScript.Proofs.Reordering.Hoisting
