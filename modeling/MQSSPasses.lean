import MQSSPasses.General.OperationTree
import MQSSPasses.General.QubitOperators
import MQSSPasses.General.Branches
import MQSSPasses.General.StraightLineProgram
import MQSSPasses.Passes.BaseMQSSPass
import MQSSPasses.Passes.LookBack
import MQSSPasses.Passes.Cancellation
import MQSSPasses.Passes.Commutation
import MQSSPasses.Passes.Decompositions
import MQSSPasses.Passes.NormalizeArgAngle
import MQSSPasses.Passes.Polarity
import MQSSPasses.Passes.Confinement
import MQSSPasses.Passes.QuakeQMap
import MQSSPasses.Passes.QuakeQMapRebuild
import MQSSPasses.Passes.ControlCommutation
import MQSSPasses.Passes.Fusion
import MQSSPasses.Passes.RunTimeAngles
import MQSSPasses.Passes.NullRotations
import MQSSPasses.Passes.LeftoverPairs
import MQSSPasses.Passes.MovePermutation
import MQSSPasses.DAG.Parsing
import MQSSPasses.LinAlg.EmittedTypes
import MQSSPasses.LinAlg.FinalState
import MQSSPasses.Lowerings.QubitNames
import MQSSPasses.QASM.Conversion
import MQSSPasses.QASM.Modifiers
import MQSSPasses.LinAlg.GateSymbols
import MQSSPasses.Lowerings.QuakeToTikz
import MQSSPasses.Lowerings.TikzColumns
import MQSSPasses.Passes.LoadedGates
import MQSSPasses.Passes.MappedCircuits
import MQSSPasses.Quake.ClassicalBits
import MQSSPasses.Quake.Neighbours
import MQSSPasses.QASM.CapturedArguments
import MQSSPasses.Passes.ErasedHandles
import MQSSPasses.General.TreeReadings
import MQSSPasses.Passes.Pipelines
import MQSSPasses.Passes.PipelineMeaning
import MQSSPasses.QASM.InsertedGates
import MQSSPasses.QASM.Programs
import MQSSPasses.QASM.StaticTable
import MQSSPasses.Passes.TrailingOperations
import MQSSPasses.Passes.CompiledPrograms
import MQSSPasses.General.MeasuredOutcomes
import MQSSPasses.Passes.MappingPass
import MQSSPasses.General.IndependentExchanges
import MQSSPasses.General.WireExchanges
import MQSSPasses.DAG.Isomorphism
import MQSSPasses.General.SettlingMoves
import MQSSPasses.Passes.RepeatedPasses
import MQSSPasses.General.IndependentUpdates
import MQSSPasses.Passes.ModulePipelines
import MQSSPasses.General.TextReplacement
import MQSSPasses.General.DelimitedText
import MQSSPasses.Lowerings.TikzTexts
import MQSSPasses.Lowerings.TikzReading
