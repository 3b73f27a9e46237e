import SignalPatch.Main
import SignalPatch.Proofs.Storage
import SignalPatch.Proofs.Scopes
import SignalPatch.Proofs.ArgumentMatching
import SignalPatch.Proofs.Rewriting
import SignalPatch.Proofs.TreeWalk
import SignalPatch.Proofs.ResolvedPatch
import SignalPatch.Proofs.NormalForm
import SignalPatch.Proofs.NumberOrder
import SignalPatch.Proofs.LoweringRuns
import SignalPatch.Proofs.LoweringSafety
import SignalPatch.Proofs.Visits
import SignalPatch.Proofs.Codec
import SignalPatch.Proofs.SingleAssignment
import SignalPatch.Proofs.Dataflow
import SignalPatch.Proofs.Denotation
import SignalPatch.Proofs.GraphMeaning
import SignalPatch.Proofs.TreeMeaning
import SignalPatch.Proofs.MeaningPreservation
import SignalPatch.Proofs.Emission
import SignalPatch.Proofs.SideTables
import SignalPatch.Proofs.StateIdentity
import SignalPatch.Proofs.Readers
import SignalPatch.Proofs.Simulation
import SignalPatch.Proofs.LikePatches
import SignalPatch.Proofs.JoinedText
import SignalPatch.Proofs.Linking
import SignalPatch.Proofs.Recovery
import SignalPatch.Proofs.Derivation
import SignalPatch.Proofs.ExactGrammar
import SignalPatch.Proofs.Reading
import SignalPatch.Proofs.Spacing
import SignalPatch.Proofs.FreeNewlines
import SignalPatch.Proofs.Coordinates
import SignalPatch.Proofs.BoundaryScan
import SignalPatch.Proofs.MessagePlaces
import SignalPatch.Proofs.TextOrigin
import SignalPatch.Proofs.Attribution
import SignalPatch.Proofs.CallPlaces
import SignalPatch.Proofs.TwinNodes
import SignalPatch.Proofs.IssuedPaths
import SignalPatch.Proofs.UserCoordinates
import SignalPatch.Proofs.LockStep
import SignalPatch.Proofs.StableIdentity
import SignalPatch.Proofs.AppendedStatements
import SignalPatch.Proofs.RenamedTokens
import SignalPatch.Proofs.RenamedVariable
import SignalPatch.Proofs.LoweringAdequacy
import SignalPatch.Proofs.RequiredSamples
import SignalPatch.Proofs.ArgumentFit
import SignalPatch.Proofs.FreshLiterals
import SignalPatch.Proofs.StaticCheck
import SignalPatch.Proofs.Idempotence
import SignalPatch.Proofs.ProgramCheck
import SignalPatch.Proofs.Variation
import SignalPatch.Proofs.VariedCheck
import SignalPatch.Proofs.PairedNodes
import SignalPatch.Proofs.PairedPatches
import SignalPatch.Proofs.PairedLowering
import SignalPatch.Proofs.SourceVariation
import SignalPatch.Proofs.ScopedNames
import SignalPatch.Proofs.SignalGraph
import SignalPatch.Proofs.CallGraph
import SignalPatch.Proofs.BufferAccounting
import SignalPatch.Proofs.Descent
import SignalPatch.Proofs.Termination
import SignalPatch.Proofs.Recursion
import SignalPatch.Proofs.ExactBinding
import SignalPatch.Proofs.StepReports
import SignalPatch.Proofs.Redefinition
import SignalPatch.Proofs.OpenHoles
import SignalPatch.Proofs.HoleScoping
import SignalPatch.Proofs.ControlCalls
import SignalPatch.Proofs.DeclarationOrder
import SignalPatch.Proofs.LexedSpans
import SignalPatch.Proofs.Respacing
import SignalPatch.Proofs.PatternLeaves
import SignalPatch.Proofs.CycleTiling
import SignalPatch.Proofs.PatternReading
import SignalPatch.Proofs.PatternText
import SignalPatch.Proofs.RepeatCounts
import SignalPatch.Proofs.HostRanges
import SignalPatch.Proofs.ParserProgress
import SignalPatch.Proofs.NestedSpans
import SignalPatch.Proofs.ParsedForest
