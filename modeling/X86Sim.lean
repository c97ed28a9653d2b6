import X86Sim.Arith.SignedDivision
import X86Sim.Code.Coherence
import X86Sim.Code.PageIndex
import X86Sim.Decode.BlockRun
import X86Sim.Decode.Conditions
import X86Sim.Decode.Counts
import X86Sim.Decode.Imul
import X86Sim.Decode.BitTests
import X86Sim.Decode.Lea
import X86Sim.Decode.Rotates
import X86Sim.Decode.Transfers
import X86Sim.Exceptions.Mapping
import X86Sim.Linux.FdCalls
import X86Sim.Linux.MemIsolation
import X86Sim.Mem.PageRanges
import X86Sim.Proof.Bookkeeping
import X86Sim.Seq.ExactlyOnce
import X86Sim.Seq.Perform
import X86Sim.Seq.Unaligned
import X86Sim.Seq.WholeRuns
import X86Sim.Uops.Shifts
import X86Sim.X87.SaveState
import X86Sim.Decode.StackOps
import X86Sim.Decode.PackedRight
import X86Sim.X87.StackMachine
import X86Sim.Ooo.ReturnStack
import X86Sim.Mem.UserCopies
import X86Sim.Mem.Copies
import X86Sim.Linux.BrkRuns
import X86Sim.Linux.Transfers
import X86Sim.Linux.Directory
import X86Sim.Linux.Remap
import X86Sim.Ooo.IssueArrays
import X86Sim.Mem.LoadFillRuns
import X86Sim.Ooo.Queues
import X86Sim.Ooo.FullyAssociativeTags
import X86Sim.Linux.InitialStack
import X86Sim.Linux.LoadElf
import X86Sim.Proof.LsqOrder
import X86Sim.Proof.FetchOrder
import X86Sim.Proof.Renaming
import X86Sim.Proof.QueueCalls
import X86Sim.Proof.ArchCommits
import X86Sim.Proof.FreeRegs
