import ShaderIR.Main
import ShaderIR.Proofs.RegisterTable
import ShaderIR.Proofs.Action
import ShaderIR.Proofs.Execution
import ShaderIR.Proofs.Emission
import ShaderIR.Proofs.Form
import ShaderIR.Proofs.Confinement
import ShaderIR.Proofs.Replacement
import ShaderIR.Proofs.Pass
import ShaderIR.Proofs.Addressing
import ShaderIR.Proofs.LoweringStep
import ShaderIR.Proofs.SplittingStep
import ShaderIR.Proofs.SSAForm
import ShaderIR.Proofs.Places
import ShaderIR.Proofs.CopyMeaning
import ShaderIR.Proofs.RowMajor
import ShaderIR.Proofs.AddressMeaning
import ShaderIR.Proofs.LoweringTrace
import ShaderIR.Proofs.LoweringMeaning
import ShaderIR.Proofs.LoweringEffect
import ShaderIR.Proofs.Idempotence
import ShaderIR.Proofs.Assembly
import ShaderIR.Proofs.Loading
import ShaderIR.Proofs.LoadedFunction
import ShaderIR.Proofs.LoadedShader
import ShaderIR.Proofs.Unlowered
import ShaderIR.Proofs.PassFaults
import ShaderIR.Proofs.PipelineFaults
import ShaderIR.Proofs.ReportedProgress
import ShaderIR.Proofs.RegisterSizes
import ShaderIR.Proofs.Worklist
import ShaderIR.Proofs.Reachability
import ShaderIR.Proofs.FlowGraph
import ShaderIR.Proofs.Linearization
import ShaderIR.Proofs.Liveness
import ShaderIR.Proofs.StoredAnalyses
import ShaderIR.Proofs.AnalysesAcrossPasses
import ShaderIR.Proofs.FailedSplitting
import ShaderIR.Proofs.AnalysesUnderConstruction
import ShaderIR.Proofs.Dominance
import ShaderIR.Proofs.AcyclicArena
import ShaderIR.Proofs.UseReplacement
import ShaderIR.Proofs.BlockOrder
import ShaderIR.Proofs.TypeText
import ShaderIR.Proofs.LeafCopies
import ShaderIR.Proofs.PathText
import ShaderIR.Proofs.ChartMarks
import ShaderIR.Proofs.FileRuns
import ShaderIR.Proofs.PathChains
import ShaderIR.Proofs.TypeEquality
import ShaderIR.Proofs.PlaceIdentity
import ShaderIR.Proofs.SlotOperands
import ShaderIR.Proofs.ArenaCalls
import ShaderIR.Proofs.Routes
import ShaderIR.Proofs.WatchedFiles
