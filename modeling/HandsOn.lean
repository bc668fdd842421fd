import HandsOn.Mutex.WaitlistType
import HandsOn.Life.MpiioCheckpoint
import HandsOn.Life.PnetcdfCheckpoint
import HandsOn.Life.RowBlockLife
import HandsOn.Life.StdoutDisplayRight
import HandsOn.Mutex.Fairness
import HandsOn.Sparse.CsrioRead
import HandsOn.Mpi.Gather
import HandsOn.Sparse.PrevNz
import HandsOn.Sparse.CsrioStdout
import HandsOn.Minifloat.Magnitude
import HandsOn.Minifloat.Widen
import HandsOn.Minifloat.Narrow
import HandsOn.Minifloat.Agreement
import HandsOn.Daos.Interoperate
import HandsOn.Mpi.Collective
import HandsOn.Spawn.FileCopy
import HandsOn.Spawn.FileCopyLockstep
import HandsOn.Life.Restart
import HandsOn.Life.Sweep
import HandsOn.Life.SweepAgree
import HandsOn.Mpi.ActiveTarget
import HandsOn.Mpi.ActiveTargetSync
import HandsOn.Mpi.ActiveTargetProgress
import HandsOn.Pneo.Network
import HandsOn.Pneo.Pscw
import HandsOn.Pneo.Fence
import HandsOn.Pneo.FenceAgree
import HandsOn.Life.RowDisplay
import HandsOn.Mpi.Fifo
import HandsOn.Life.RowDisplayRight
import HandsOn.Life.MpiioOffset
import HandsOn.Life.FileName
import HandsOn.Life.ParseArgs
import HandsOn.Sparse.ReadHeader
import HandsOn.Mpi.Rounds
import HandsOn.Sparse.ReadTogether
import HandsOn.Mpi.Span
import HandsOn.Sparse.FileRegions
import HandsOn.Sparse.BackEnds
import HandsOn.Mpi.Scatter
import HandsOn.Life.MpiioRestart
import HandsOn.Life.MpiioTruncated
import HandsOn.Life.InitialGrid
import HandsOn.Numeric.Nearest
import HandsOn.Pneo.Slots
import HandsOn.Spawn.Transfers
import HandsOn.Minifloat.NearestCode
import HandsOn.Minifloat.Fp8Law
import HandsOn.Minifloat.Saturation
import HandsOn.Semantics.InPlace
import HandsOn.Bfloat16.Cast
import HandsOn.Minifloat.TableBits
import HandsOn.Hdf5.Converters
import HandsOn.Hdf5.InPlaceOrder
import HandsOn.Hdf5.Stride
import HandsOn.Bfloat16.Bits
import HandsOn.Bfloat16.Nearest
import HandsOn.Bfloat16.Double
import HandsOn.Bfloat16.DoubleRounding
import HandsOn.Daos.Truncated
import HandsOn.Semantics.CheckedInt
import HandsOn.Life.RowPartition
import HandsOn.Life.MeshPartition
import HandsOn.Semantics.While
import HandsOn.Mutex.UnlockSearch
import HandsOn.Mpi.CallOrder
import HandsOn.Daos.FailingRanks
import HandsOn.Mpi.View
import HandsOn.Arrays.MiddleColumn
import HandsOn.Semantics.Fortran
import HandsOn.Life.FortranLife
import HandsOn.Life.FortranGenerations
import HandsOn.Life.FortranExact
import HandsOn.Ior.Stonewall
import HandsOn.Ior.WriteCheck
import HandsOn.Mdtest.Restores
import HandsOn.Ior.FileView
import HandsOn.Life.FortranParallel
import HandsOn.Mutex.Starvation
import HandsOn.Ior.ReportJson
