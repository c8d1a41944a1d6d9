import ScriptMachine.Main
import ScriptMachine.Proofs.Check.Crashes
import ScriptMachine.Proofs.Check.RegisterWrites
import ScriptMachine.Proofs.Guarded.Course
import ScriptMachine.Proofs.Listing
import ScriptMachine.Proofs.Lowering.Circuits
import ScriptMachine.Proofs.Lowering.FunctionTable
import ScriptMachine.Proofs.Machine.BlockRuns
import ScriptMachine.Proofs.Machine.Depth
import ScriptMachine.Proofs.Machine.Places
import ScriptMachine.Proofs.Meaning.Programs
import ScriptMachine.Proofs.Operators.Coercion
import ScriptMachine.Proofs.Operators.Comparison
import ScriptMachine.Proofs.Operators.Integers
import ScriptMachine.Proofs.Tree.Commands
import ScriptMachine.Proofs.Tree.FieldOrder
import ScriptMachine.Wire
