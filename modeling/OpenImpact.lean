import OpenImpact.Foundation.AffineForm
import OpenImpact.Foundation.BackSlice
import OpenImpact.Foundation.BinaryHeap
import OpenImpact.Foundation.Blocking
import OpenImpact.Foundation.Dfs
import OpenImpact.Foundation.DfsTree
import OpenImpact.Foundation.DomFrontier
import OpenImpact.Foundation.DomOrder
import OpenImpact.Foundation.Dominator
import OpenImpact.Foundation.DoublyLinked
import OpenImpact.Foundation.GenKill
import OpenImpact.Foundation.Keyed
import OpenImpact.Foundation.Laminar
import OpenImpact.Foundation.LongestPath
import OpenImpact.Foundation.Minterm
import OpenImpact.Foundation.NaturalLoop
import OpenImpact.Foundation.PostDominator
import OpenImpact.Foundation.Reach
import OpenImpact.Foundation.Reservation
import OpenImpact.Foundation.Semidominator
import OpenImpact.Foundation.ShiftDiv
import OpenImpact.Foundation.SimplePath
import OpenImpact.Foundation.StraightLine
import OpenImpact.Foundation.Sweep
import OpenImpact.Foundation.TokenReader
import OpenImpact.Lblock.HbPath
import OpenImpact.Lblock.HbPathRuns
import OpenImpact.Lblock.HbSort
import OpenImpact.Lblock.ImmPostDomin
import OpenImpact.Lblock.TraceRegion
import OpenImpact.Lblock.TraceRegionCorrect
import OpenImpact.Lblock.TraceRegionForm
import OpenImpact.Lcode.BdfDom
import OpenImpact.Lcode.CbLabel
import OpenImpact.Lcode.Compare
import OpenImpact.Lcode.Dom
import OpenImpact.Lcode.DomCorrect
import OpenImpact.Lcode.DomForest
import OpenImpact.Lcode.DomFront
import OpenImpact.Lcode.DomSetup
import OpenImpact.Lcode.DomTree
import OpenImpact.Lcode.HashTbl
import OpenImpact.Lcode.InitialVal
import OpenImpact.Lcode.IntRange
import OpenImpact.Lcode.IntRangeInsert
import OpenImpact.Lcode.IntRangeMinterm
import OpenImpact.Lcode.IntRangeQuery
import OpenImpact.Lcode.Loop
import OpenImpact.Lcode.LoopBodies
import OpenImpact.Lcode.LoopNest
import OpenImpact.Lcode.ModuloRmap
import OpenImpact.Lcode.Oper
import OpenImpact.Lcode.OperandSymbol
import OpenImpact.Lcode.OperandSymbolCorrect
import OpenImpact.Lcode.Rmap
import OpenImpact.Lcode.RmapDRule
import OpenImpact.Lcode.RmapExtent
import OpenImpact.Lcode.RmapGrow
import OpenImpact.Lcode.RmapHeld
import OpenImpact.Lcode.RmapSched
import OpenImpact.Lcode.RmapWalk
import OpenImpact.Lcode.RmapWindow
import OpenImpact.Lcode.World
import OpenImpact.Libflow.Dataflow
import OpenImpact.Libflow.DataflowDom
import OpenImpact.Libflow.DataflowReach
import OpenImpact.Library.Bdd
import OpenImpact.Library.BddCorrect
import OpenImpact.Library.BlockSparseArray
import OpenImpact.Library.BlockSparseArrayAdd
import OpenImpact.Library.BlockSparseArrayBlocks
import OpenImpact.Library.BlockSparseArrayCompact
import OpenImpact.Library.BlockSparseArrayCompactList
import OpenImpact.Library.BlockSparseArrayIter
import OpenImpact.Library.BlockSparseArrayMerge
import OpenImpact.Library.BlockSparseArrayPrepare
import OpenImpact.Library.BlockSparseArrayRuns
import OpenImpact.Library.BlockSparseArraySearch
import OpenImpact.Library.CExpr
import OpenImpact.Library.Graph
import OpenImpact.Library.GraphAnalyses
import OpenImpact.Library.GraphBackedge
import OpenImpact.Library.GraphBfs
import OpenImpact.Library.GraphBuild
import OpenImpact.Library.GraphCache
import OpenImpact.Library.GraphCallOrder
import OpenImpact.Library.GraphControl
import OpenImpact.Library.GraphControlDep
import OpenImpact.Library.GraphDelete
import OpenImpact.Library.GraphDfs
import OpenImpact.Library.GraphDom
import OpenImpact.Library.GraphDomCorrect
import OpenImpact.Library.GraphImmDom
import OpenImpact.Library.GraphNodeIds
import OpenImpact.Library.GraphOps
import OpenImpact.Library.GraphPaths
import OpenImpact.Library.GraphPostDom
import OpenImpact.Library.Halt
import OpenImpact.Library.Heap
import OpenImpact.Library.HeapRuns
import OpenImpact.Library.HeapSort
import OpenImpact.Library.HeapTree
import OpenImpact.Library.IList
import OpenImpact.Library.IListOps
import OpenImpact.Library.IListRuns
import OpenImpact.Library.IListSeq
import OpenImpact.Library.IListSim
import OpenImpact.Library.LibSet
import OpenImpact.Library.LibSetDecide
import OpenImpact.Library.LibSetEnum
import OpenImpact.Library.LibSetFamily
import OpenImpact.Library.LibSetLaws
import OpenImpact.Library.LibSetOps
import OpenImpact.Library.Md
import OpenImpact.Library.MdBuilt
import OpenImpact.Library.MdContents
import OpenImpact.Library.MdRead
import OpenImpact.Library.MdReadContents
import OpenImpact.Library.MdRoundTrip
import OpenImpact.Library.MdSymbol
import OpenImpact.Library.MdSymbolCorrect
import OpenImpact.Library.MdSymbolSize
import OpenImpact.Library.MdWrite
import OpenImpact.Library.MdWriteContents
import OpenImpact.Library.Sets
import OpenImpact.Library.SignedSet
import OpenImpact.Library.SymbolTable
import OpenImpact.Library.SymbolTableCorrect
import OpenImpact.Library.Yields
import OpenImpact.Lmarkpipe.Mii
import OpenImpact.Lmarkpipe.MiiCorrect
import OpenImpact.Lmarkpipe.RecMii
import OpenImpact.Lmarkpipe.ResMii
import OpenImpact.Lopti.CommonSub
import OpenImpact.Lopti.ConstProp
import OpenImpact.Lopti.ConstPropCorrect
import OpenImpact.Lopti.ConstRule
import OpenImpact.Lopti.CopyProp
import OpenImpact.Lopti.Evaluate
import OpenImpact.Lopti.Folding
import OpenImpact.Lopti.LocalDriver
import OpenImpact.Lopti.StrengthReduction
import OpenImpact.Lopti.StrengthReductionCorrect
import OpenImpact.Sched.KernelQueue
import OpenImpact.Sched.SmReturns
import OpenImpact.Sched.SmSched
import OpenImpact.Softpipe.BranchPath
import OpenImpact.Softpipe.Lifetimes
import OpenImpact.Softpipe.LiveRange
import OpenImpact.Softpipe.Mve
import OpenImpact.Softpipe.MveReads
import OpenImpact.Softpipe.PipeSched
import OpenImpact.Softpipe.PipeSchedReturns
import OpenImpact.Softpipe.PipeSchedRmap
import OpenImpact.Softpipe.PipeSchedRuns
import OpenImpact.Softpipe.PipeSchedSm
import OpenImpact.Softpipe.RotReg
import OpenImpact.Softpipe.RotRegAlloc
import OpenImpact.Softpipe.RotRegCorrect
import OpenImpact.Softpipe.RotRegReads
import OpenImpact.Softpipe.SchedList
import OpenImpact.Softpipe.Slack
import OpenImpact.Softpipe.SmSchedule
import OpenImpact.Softpipe.StageMoves
import OpenImpact.Tools.Wcet
import OpenImpact.Tools.WcetBound
import OpenImpact.Tools.WcetEqs
import OpenImpact.Tools.WcetSafe
import OpenImpact.Tools.WcetWriteBack
