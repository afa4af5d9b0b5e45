import ParallelRsp.Debug.Agreement
import ParallelRsp.Jit.Balance
import ParallelRsp.Jit.BranchPairs
import ParallelRsp.Jit.Halting
import ParallelRsp.Jit.Collisions
import ParallelRsp.Jit.Commit
import ParallelRsp.Jit.Exits
import ParallelRsp.Jit.LocalBranches
import ParallelRsp.Jit.ScalarAccess
import ParallelRsp.Jit.ZeroRegister
import ParallelRsp.Rsp.CodeWrites
import ParallelRsp.Rsp.DmaRows
import ParallelRsp.Rsp.ElementMoves
import ParallelRsp.Rsp.PackedPairs
import ParallelRsp.Rsp.StoreBounds
import ParallelRsp.Rsp.StridedPairs
import ParallelRsp.Rsp.Transposition
import ParallelRsp.System.CompiledOnce
import ParallelRsp.System.Polling
import ParallelRsp.Vu.Builds
import ParallelRsp.Vu.Clamp
import ParallelRsp.Vu.Divide
import ParallelRsp.Vu.DotProduct
import ParallelRsp.Vu.DoubleWord
import ParallelRsp.Vu.Independence
import ParallelRsp.Vu.Multiply
import ParallelRsp.Vu.ReciprocalBounds
