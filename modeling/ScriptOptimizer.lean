import ScriptOptimizer.Main
import ScriptOptimizer.Proofs.CaptureAvoidance
import ScriptOptimizer.Proofs.CarriedBindings
import ScriptOptimizer.Proofs.ComputationKeys
import ScriptOptimizer.Proofs.DocumentStore
import ScriptOptimizer.Proofs.DominatedReuse
import ScriptOptimizer.Proofs.FlowGraphEdges
import ScriptOptimizer.Proofs.FoldedWrites
import ScriptOptimizer.Proofs.HeaderBreaks
import ScriptOptimizer.Proofs.LiveStatements
import ScriptOptimizer.Proofs.LoopTests
import ScriptOptimizer.Proofs.MemberUpdates
import ScriptOptimizer.Proofs.NamePlaces
import ScriptOptimizer.Proofs.PrintedOperands
import ScriptOptimizer.Proofs.RelativeTokens
import ScriptOptimizer.Proofs.StringLiterals
import ScriptOptimizer.Proofs.TokenIndex
