import LatticeWalk.Amplitude
import LatticeWalk.Artifact
import LatticeWalk.Attempt
import LatticeWalk.Backend
import LatticeWalk.Backend.Local
import LatticeWalk.Boundary
import LatticeWalk.Boundary.Block
import LatticeWalk.Boundary.Edges
import LatticeWalk.Boundary.Kind
import LatticeWalk.Boundary.Spec
import LatticeWalk.Circuit
import LatticeWalk.Coin.Family
import LatticeWalk.Coin.Params
import LatticeWalk.Config
import LatticeWalk.Data
import LatticeWalk.Data.Json
import LatticeWalk.Data.Number
import LatticeWalk.Decimal.Binary64
import LatticeWalk.Decimal.Literal
import LatticeWalk.Decimal.Notation
import LatticeWalk.Decimal.Scaled
import LatticeWalk.Decimal.Shortest
import LatticeWalk.Displacement
import LatticeWalk.Displacement.Decoder
import LatticeWalk.Displacement.Statistics
import LatticeWalk.Experiment
import LatticeWalk.Failure
import LatticeWalk.Folder
import LatticeWalk.Gate
import LatticeWalk.Histogram
import LatticeWalk.Job.Id
import LatticeWalk.Job.Queue
import LatticeWalk.Operation
import LatticeWalk.Operator
import LatticeWalk.Operator.Coins
import LatticeWalk.OrderedMap
import LatticeWalk.Pattern
import LatticeWalk.Proofs.Abreast
import LatticeWalk.Proofs.AbsorbingWalls
import LatticeWalk.Proofs.Allocation
import LatticeWalk.Proofs.Binding
import LatticeWalk.Proofs.Bits
import LatticeWalk.Proofs.Block
import LatticeWalk.Proofs.BoundaryGroups
import LatticeWalk.Proofs.BoundaryOrder
import LatticeWalk.Proofs.Branches
import LatticeWalk.Proofs.Cache
import LatticeWalk.Proofs.Calls
import LatticeWalk.Proofs.Cascade
import LatticeWalk.Proofs.CleanControls
import LatticeWalk.Proofs.Columns
import LatticeWalk.Proofs.Compile
import LatticeWalk.Proofs.Configured
import LatticeWalk.Proofs.Conservation
import LatticeWalk.Proofs.Control
import LatticeWalk.Proofs.Counter
import LatticeWalk.Proofs.Counterpart
import LatticeWalk.Proofs.Crossing
import LatticeWalk.Proofs.Diffusion
import LatticeWalk.Proofs.Draining
import LatticeWalk.Proofs.Evolution
import LatticeWalk.Proofs.Exact
import LatticeWalk.Proofs.Experiments
import LatticeWalk.Proofs.Fallible
import LatticeWalk.Proofs.Files
import LatticeWalk.Proofs.Flip
import LatticeWalk.Proofs.Footprint
import LatticeWalk.Proofs.Fourier
import LatticeWalk.Proofs.GateAction
import LatticeWalk.Proofs.GroupOrder
import LatticeWalk.Proofs.HardWalls
import LatticeWalk.Proofs.Inverse
import LatticeWalk.Proofs.JobLog
import LatticeWalk.Proofs.JobOrder
import LatticeWalk.Proofs.JobOutcomes
import LatticeWalk.Proofs.JobPositions
import LatticeWalk.Proofs.JobSteps
import LatticeWalk.Proofs.JobStore
import LatticeWalk.Proofs.KeptResults
import LatticeWalk.Proofs.Keys
import LatticeWalk.Proofs.LatchedWalls
import LatticeWalk.Proofs.Latches
import LatticeWalk.Proofs.Layout
import LatticeWalk.Proofs.LibraryPrograms
import LatticeWalk.Proofs.Lookup
import LatticeWalk.Proofs.Marginals
import LatticeWalk.Proofs.Merging
import LatticeWalk.Proofs.MovePatterns
import LatticeWalk.Proofs.Moves
import LatticeWalk.Proofs.NestedControl
import LatticeWalk.Proofs.Norm
import LatticeWalk.Proofs.OneWay
import LatticeWalk.Proofs.OpenPaths
import LatticeWalk.Proofs.Operator
import LatticeWalk.Proofs.Parameters
import LatticeWalk.Proofs.Pass
import LatticeWalk.Proofs.PatternSteps
import LatticeWalk.Proofs.Permeability
import LatticeWalk.Proofs.Pieces
import LatticeWalk.Proofs.Placement
import LatticeWalk.Proofs.Points
import LatticeWalk.Proofs.Preparation
import LatticeWalk.Proofs.Program
import LatticeWalk.Proofs.Quantiles
import LatticeWalk.Proofs.Readings
import LatticeWalk.Proofs.Reflection
import LatticeWalk.Proofs.Renaming
import LatticeWalk.Proofs.Reordering
import LatticeWalk.Proofs.Replay
import LatticeWalk.Proofs.Resets
import LatticeWalk.Proofs.Restarts
import LatticeWalk.Proofs.Ripples
import LatticeWalk.Proofs.Rounds
import LatticeWalk.Proofs.Runs
import LatticeWalk.Proofs.Sampling
import LatticeWalk.Proofs.ShiftPhase
import LatticeWalk.Proofs.Shots
import LatticeWalk.Proofs.Slice
import LatticeWalk.Proofs.Start
import LatticeWalk.Proofs.Step
import LatticeWalk.Proofs.Strides
import LatticeWalk.Proofs.Support
import LatticeWalk.Proofs.TranslatedWalks
import LatticeWalk.Proofs.Translation
import LatticeWalk.Proofs.Transmission
import LatticeWalk.Proofs.Undo
import LatticeWalk.Proofs.Valve
import LatticeWalk.Proofs.VeiledWalks
import LatticeWalk.Proofs.Veils
import LatticeWalk.Proofs.Wave
import LatticeWalk.Proofs.Weaving
import LatticeWalk.Proofs.WellFormed
import LatticeWalk.Proofs.WholeSteps
import LatticeWalk.Proofs.WovenSimulations
import LatticeWalk.Register
import LatticeWalk.Scalar
import LatticeWalk.Scalar.Double
import LatticeWalk.Shift
import LatticeWalk.Simulation
import LatticeWalk.StateVector
import LatticeWalk.Text.Blank
import LatticeWalk.Text.Cut
import LatticeWalk.Text.LetterCase
import LatticeWalk.Text.Numeral
import LatticeWalk.Text.Quoted
import LatticeWalk.Text.Visible
import LatticeWalk.Walk
import LatticeWalk.Walk.Phase
import LatticeWalk.Walk.Plan
import LatticeWalk.Walk.Results
import LatticeWalk.Walk.Spec
import LatticeWalk.Word
