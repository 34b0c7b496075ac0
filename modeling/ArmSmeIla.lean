import ArmSmeIla.Foundation.Accumulation
import ArmSmeIla.Foundation.Lines
import ArmSmeIla.Foundation.Loops
import ArmSmeIla.Foundation.Packing
import ArmSmeIla.Foundation.Recording
import ArmSmeIla.Foundation.Runs
import ArmSmeIla.Foundation.Terms
import ArmSmeIla.Foundation.Machines
import ArmSmeIla.Foundation.Simulation
import ArmSmeIla.Foundation.Stores
import ArmSmeIla.Model.State
import ArmSmeIla.Model.Vectors
import ArmSmeIla.Model.Registers
import ArmSmeIla.Model.Expressions
import ArmSmeIla.Model.Tiles
import ArmSmeIla.Model.Combine
import ArmSmeIla.Model.Dram
import ArmSmeIla.Model.Instructions
import ArmSmeIla.Model.Check
import ArmSmeIla.Model.Driver
import ArmSmeIla.Model.Substitute
import ArmSmeIla.Model.Tracker
import ArmSmeIla.Model.FpSubstitute
import ArmSmeIla.Views.TileBytes
import ArmSmeIla.Views.TileMatrix
import ArmSmeIla.Views.CombineMatrix
import ArmSmeIla.Views.TypedSlices
import ArmSmeIla.Views.DramBlock
import ArmSmeIla.Views.Footprints
import ArmSmeIla.Views.Predication
import ArmSmeIla.Views.TileUpdates
import ArmSmeIla.Architecture.ZaArray
import ArmSmeIla.Architecture.Machine
import ArmSmeIla.Architecture.Refinement
import ArmSmeIla.Architecture.Locations
import ArmSmeIla.Architecture.Bytewise
import ArmSmeIla.Architecture.Endianness
import ArmSmeIla.Properties.Slices
import ArmSmeIla.Properties.Zero
import ArmSmeIla.Properties.WriteBack
import ArmSmeIla.Properties.LoadStore
import ArmSmeIla.Properties.SpillFill
import ArmSmeIla.Properties.Modes
import ArmSmeIla.Properties.Accumulation
import ArmSmeIla.Properties.NonInterference
import ArmSmeIla.Properties.LoadPaths
import ArmSmeIla.Properties.Tracking
import ArmSmeIla.Properties.Substitution
import ArmSmeIla.Properties.Faults
import ArmSmeIla.Properties.Addresses
import ArmSmeIla.Properties.TileArithmetic
import ArmSmeIla.Properties.TypedTransfers
import ArmSmeIla.Properties.Moves
import ArmSmeIla.Properties.SliceAddresses
import ArmSmeIla.Properties.Indices
import ArmSmeIla.Properties.AddressBounds
import ArmSmeIla.Properties.LaneOperations
import ArmSmeIla.Properties.ConcreteReaders
import ArmSmeIla.Properties.VectorLength
import ArmSmeIla.Properties.VectorRebuild
import ArmSmeIla.Properties.Scheduling
import ArmSmeIla.Properties.MatrixProduct
import ArmSmeIla.Properties.BlockTransfers
import ArmSmeIla.Properties.Replay
import ArmSmeIla.Properties.IeeeSubstitution
import ArmSmeIla.Properties.Verdicts
import ArmSmeIla.Properties.Coverage
import ArmSmeIla.Properties.DataMovement
import ArmSmeIla.Properties.Endianness
import ArmSmeIla.Properties.Registers
import ArmSmeIla.Properties.FloatChains
