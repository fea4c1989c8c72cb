import Dynamatic.ArithReduceStrength.AdderTree
import Dynamatic.ArrayPartition.Correct
import Dynamatic.ArrayPartition.Extraction
import Dynamatic.Bitwidth.Comparisons
import Dynamatic.Bitwidth.Division
import Dynamatic.Bitwidth.Forwarding
import Dynamatic.Bitwidth.Narrowing
import Dynamatic.Bitwidth.Shifts
import Dynamatic.Blif.WavyLines
import Dynamatic.BooleanLogic.Diagram
import Dynamatic.BooleanLogic.Minterms
import Dynamatic.BooleanLogic.ParserLanguage
import Dynamatic.CfgAnnotation.Restoring
import Dynamatic.ControlDependence.Forward
import Dynamatic.DeciderPaths.Correct
import Dynamatic.FlattenMemRef.RowMajor
import Dynamatic.GammaMerging.Correct
import Dynamatic.Handshake.ControlMerge
import Dynamatic.Handshake.First
import Dynamatic.Handshake.PriorityMerge
import Dynamatic.Handshake.Queue
import Dynamatic.Handshake.RaceRounds
import Dynamatic.Handshake.StandIn
import Dynamatic.LinearAlgebra.Gaussian
import Dynamatic.Lsq.Completion
import Dynamatic.Lsq.Delivery
import Dynamatic.Lsq.Grant
import Dynamatic.Lsq.Masking
import Dynamatic.LsqSizing.Correct
import Dynamatic.Materialize.Correct
import Dynamatic.MaximalSSA.Region
import Dynamatic.MemoryController.Completion
import Dynamatic.MemoryController.LoadKillDrop
import Dynamatic.MemoryDependence.Intersections
import Dynamatic.MemoryDependence.TokenDependence
import Dynamatic.MemoryInterfaces.Marking
import Dynamatic.Numeric.Soundness
import Dynamatic.ParallelRegions.Grouping
import Dynamatic.PhiNetwork.Correct
import Dynamatic.PipelinedUnits.Answers
import Dynamatic.Sharing.Components
import Dynamatic.Sharing.Credits
import Dynamatic.Sharing.Priority
import Dynamatic.Speculation.PlacedCommits
import Dynamatic.Speculation.Recovery
import Dynamatic.Speculation.SaveCommit
import Dynamatic.Speculation.SourceDerivation
import Dynamatic.Steering.ConditionPatterns
import Dynamatic.StraightToQueue.BlockNumbering
import Dynamatic.StraightToQueue.Minimization
import Dynamatic.SubjectGraph.Wiring
import Dynamatic.Suppression.Balance
import Dynamatic.Suppression.Exactness
import Dynamatic.TreeHeight.Termination
