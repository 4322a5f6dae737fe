import CheckedAsm.Analysis.Session
import CheckedAsm.Machine.Bench
import CheckedAsm.Main
import CheckedAsm.Proofs.Analysis.Choices
import CheckedAsm.Proofs.Analysis.Counters
import CheckedAsm.Proofs.Analysis.Jumps
import CheckedAsm.Proofs.Analysis.Laps
import CheckedAsm.Proofs.Calls.Pruning
import CheckedAsm.Proofs.Calls.Reachability
import CheckedAsm.Proofs.Codegen.Arithmetic
import CheckedAsm.Proofs.Codegen.Copies
import CheckedAsm.Proofs.Codegen.Counting
import CheckedAsm.Proofs.Codegen.Fallthrough
import CheckedAsm.Proofs.Codegen.Interrupts
import CheckedAsm.Proofs.Codegen.Readback
import CheckedAsm.Proofs.Codegen.Relocation
import CheckedAsm.Proofs.Codegen.Saves
import CheckedAsm.Proofs.Codegen.StackDiscipline
import CheckedAsm.Proofs.Grammar.Inclusion
import CheckedAsm.Proofs.Grammar.Listing
import CheckedAsm.Proofs.Grammar.Literals
import CheckedAsm.Proofs.Grammar.Resolution
import CheckedAsm.Proofs.Grammar.Termination
import CheckedAsm.Proofs.Grammar.Writing
import CheckedAsm.Proofs.Lexemes.Ending
import CheckedAsm.Proofs.Lexemes.Lines
import CheckedAsm.Proofs.Machine.Disassembly
import CheckedAsm.Proofs.Roster.Fewest
import CheckedAsm.Proofs.Values.VectorContents
import CheckedAsm.Sample.Workload
