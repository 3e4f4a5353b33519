import Clou.ReachingRefs
import Clou.SsbControlSound
import Clou.ChainConstraints
import Clou.XsaccessOrder
import Clou.TransientPruning
import Clou.ReturnValues
import Clou.Monitor
import Clou.AssertEdge
import Clou.JobRefinement
import Clou.ExecWindow
import Clou.ReadsFrom
import Clou.EdgeQueries
import Clou.BinrelRuns
import Clou.NaturalSetRuns
import Clou.Received
import Clou.Placement
import Clou.LatestDefinition
import Clou.AttackerTaintPaths
import Clou.TaintFixpoint
import Clou.TransientAA
import Clou.CallStack
import Clou.TracebackDepth
import Clou.Names
import Clou.SolverCopies
import Clou.DetectorMain
import Clou.Pipeline
