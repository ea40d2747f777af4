import Xls.IntervalSet.KnownBits
import Xls.Ir.LeafTypeTreeIndex
import Xls.Ir.DaddaMultiplier
import Xls.DataStructures.GraphQuotient
import Xls.Ir.NumberParser
import Xls.Passes.RangeTotality
import Xls.Passes.TokenDependencySoundness
import Xls.Passes.FeedbackArcsSoundness
import Xls.Codegen.RdvFifo
import Xls.Scheduling.ScheduleBounds
import Xls.Scheduling.SdcDelays
import Xls.Scheduling.SdcScheduler
import Xls.Interpreter.SerialProcRuntime
import Xls.Passes.PredicateDominatorSoundness
import Xls.Passes.BddQueryEngine
import Xls.Ir.NameUniquerSoundness
import Xls.IntervalSet.Minimize
import Xls.DataStructures.GraphReading
import Xls.DataStructures.MinCutSoundness
import Xls.Passes.DivisionByConstant
import Xls.Passes.TableSwitchSoundness
import Xls.Passes.NarrowOperandsSoundness
import Xls.DataStructures.PathCut
import Xls.DataStructures.StronglyConnectedComponents
import Xls.DataStructures.GraphColoring
import Xls.Passes.ComparisonSoundness
import Xls.Passes.NarrowLiteralArray
import Xls.Passes.PostDominatorAnalysis
import Xls.Passes.ReceiveDefaultValueSimplification
import Xls.Passes.UselessIORemovalSoundness
import Xls.Passes.TokenSimplificationSoundness
import Xls.Passes.DeadFunctionElimination
import Xls.Passes.BooleanSimplificationSoundness
import Xls.DataStructures.UnionFindRuns
import Xls.IntervalSet.Algebra
import Xls.Passes.CanonicalizationRuns
