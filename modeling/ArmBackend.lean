import ArmBackend.Inspection
import ArmBackend.Main
import ArmBackend.Proofs.Coloring.Success
import ArmBackend.Proofs.Emission.Allocated
import ArmBackend.Proofs.Emission.Constant
import ArmBackend.Proofs.Emission.Edge
import ArmBackend.Proofs.Emission.Resolution
import ArmBackend.Proofs.FlowGraph.Splitting
import ArmBackend.Proofs.IndexSet
import ArmBackend.Proofs.Interference
import ArmBackend.Proofs.Source.RoundTrip
import ArmBackend.Proofs.Spill.NextUse
import ArmBackend.Proofs.Ssa.RepairCorrect
import ArmBackend.Proofs.Ssa.Strict
