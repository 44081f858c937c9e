import LatticeWalk.Boundary.Kind
import LatticeWalk.Job.Id
import LatticeWalk.Text.Quoted
import LatticeWalk.Walk.Phase

/-! # Failures

Everything that can go wrong, by cause. A configuration fault lies in what the caller asked for, a
simulation fault in a state or a measured outcome; the other failures concern jobs and files.

* `ConfigurationFault`, `SimulationFault`: the causes, each with the offending values.
* `Failure`: what a function of this library reports.
* `Failure.detail`: what is wrong; `Failure.message`: the same with the class of the failure. -/

namespace LatticeWalk

/-- What is wrong with a request. -/
inductive ConfigurationFault where
  | notBinary (pattern : String) (bad : Char)
  | wrongLength (what pattern : String) (width : Nat)
  | patternTooLarge (pattern : String)
  | registerTwice (name : String)
  | boundWires (operator : String) (wires given : Nat)
  | angleCount (angle : String) (given wires : Nat)
  | transmissionOutside (transmission : String)
  | emptyBoundary (dimension : Nat)
  | noCycleBits
  | noLatchWires
  | noControlRegister (pattern : String) (dimension : Nat)
  | noAncillaRegister
  | noCoinRegister
  | boundaryForm (text : String)
  | boundaryDimension (field text : String)
  | boundaryType (field text : String)
  | boundaryCount (field text : String)
  | boundaryClass (kind : BoundaryKind) (field text : String)
  | boundaryWithoutControl (text : String)
  | unknownGeometry (text : String)
  | edgeOfPoint
  | paddingTooLarge (padding centre : Nat)
  | emptyNumber
  | notNumber (factor text : String)
  | divisionByZero (text : String)
  | notSingle (key : String)
  | notPair (segment : String)
  | emptyKey (segment : String)
  | keyTwice (key : String)
  | missingKey (owner key : String)
  | unknownKey (owner key : String) (allowed : List String)
  | noExtent
  | unusableCoin (name : String)
  | notShiftCoin (name : String)
  | wireOutside (operation : String) (wire width : Nat)
  | coinWithoutWires
  | coinTooNarrow (width directions : Nat)
  | shiftOverflow
  | noDimensions
  | flatDimension (dimension : Nat)
  | initialCount (given dimensions : Nat)
  | boundaryTarget (pattern : String) (dimension dimensions : Nat)
  | noCycleLength
  | decoherenceTarget (wire width : Nat)
  | phaseOrder (next current : Phase)
  | dimensionRange (dimension dimensions : Nat)
  | noBoundaryControl (index : Nat)
  | noShots
  | shortKey (key : String) (bits : Nat)
  | uncoveredDimension (key : String) (dimension : Nat)
  | noStepSize
  | notJobId (line log : String)
  /-- A device gave its own account. -/
  | reported (message : String)
  deriving Repr, DecidableEq

/-- What is wrong with a state or an outcome. -/
inductive SimulationFault where
  | tooManyWires (wires : Nat)
  | notPowerOfTwo (length : Nat)
  | noWires
  | unknownWire (wire wires : Nat)
  | controlIsTarget (wire : Nat)
  | emptyBranch (wire : Nat)
  | aboveLimit (wires limit : Nat) (gigabytes : String)
  | notNormalised (norm tolerance : String)
  | totalChanged (before after : Nat)
  | totalNotShots (total shots : Nat)
  | coordinateOutside (dimension coordinate width : Nat)
  | densitySum (total : String)
  /-- A device gave its own account. -/
  | reported (message : String)
  deriving Repr, DecidableEq

/-- Why a function of this library gave no result. -/
inductive Failure where
  | configuration (fault : ConfigurationFault)
  | simulation (fault : SimulationFault)
  /-- The job has not finished; so many jobs are ahead of it. -/
  | notReady (job : JobId) (position : Nat)
  /-- The job was executed and failed. -/
  | executionFailed (job : JobId) (message : String)
  | unknownJob (job : JobId)
  /-- A log could not be opened, read or written. -/
  | file
  /-- A table could not be written. -/
  | table
  deriving Repr, DecidableEq

/-- A wire in messages. -/
def wireName (wire : Nat) : String := "q" ++ toString wire

/-- What is wrong, in words. -/
def ConfigurationFault.message : ConfigurationFault → String
  | .notBinary pattern bad => s!"bitstring '{pattern}' contains non-binary character '{bad}'"
  | .wrongLength what pattern width =>
    let length := pattern.length
    s!"{what} '{pattern}' has length {length} but {width} bits are required"
  | .patternTooLarge pattern =>
    s!"bitstring '{pattern}' is not a u64: number too large to fit in target type"
  | .registerTwice name => s!"register name '{name}' allocated twice"
  | .boundWires operator wires given =>
    s!"operator '{operator}' acts on {wires} wires but {given} were bound"
  | .angleCount angle given wires =>
    s!"{angle} has {given} angles but the register has {wires} qubits"
  | .transmissionOutside p => s!"transmission probability {p} is outside [0, 1]"
  | .emptyBoundary dimension => s!"boundary on dimension {dimension} has an empty bitstring"
  | .noCycleBits => "one-way boundary needs at least one cycle bit"
  | .noLatchWires => "absorbing boundary needs at least one control qubit"
  | .noControlRegister pattern dimension =>
    s!"boundary '{pattern}' on dimension {dimension} has a control operator but no control register"
  | .noAncillaRegister => "one-way boundary needs a two-wire ancilla register"
  | .noCoinRegister => "one-way boundary needs a coin register"
  | .boundaryForm text => s!"boundary '{text}' should look like type-dimension-bitstring-class-n"
  | .boundaryDimension field text => s!"boundary dimension '{field}' in '{text}' is not an index"
  | .boundaryType field text => s!"unrecognised boundary type '{field}' in '{text}'"
  | .boundaryCount field text => s!"control qubit count '{field}' in '{text}' is not a number"
  | .boundaryClass kind field text =>
    let name := kind.name
    s!"{name} boundaries have a fixed control operator, got class '{field}' in '{text}'"
  | .boundaryWithoutControl text => s!"boundary '{text}' needs at least one control qubit"
  | .unknownGeometry text =>
    s!"geometry '{text}' should be one of 'RightEdge', 'LeftEdge', 'Edges'"
  | .edgeOfPoint => "cannot place edges on a zero-width dimension"
  | .paddingTooLarge padding centre =>
    s!"padding {padding} must not exceed the centre of the volume ({centre})"
  | .emptyNumber => "empty numeric value"
  | .notNumber factor text => s!"'{factor}' in '{text}' is not a number"
  | .divisionByZero text => s!"division by zero in '{text}'"
  | .notSingle key => s!"parameter '{key}' must be a single number"
  | .notPair segment => s!"coin parameter '{segment}' is not of the form key=value"
  | .emptyKey segment => s!"coin parameter '{segment}' has an empty key"
  | .keyTwice key => s!"coin parameter '{key}' given twice"
  | .missingKey owner key => s!"{owner} requires parameter '{key}'"
  | .unknownKey owner key allowed =>
    let list := Text.quoteList allowed
    s!"{owner} does not take parameter '{key}' (expected one of {list})"
  | .noExtent => "an experiment needs at least one dimension and one qubit"
  | .unusableCoin name => s!"'{name}' cannot be used as the shift coin"
  | .notShiftCoin name => s!"'{name}' is not a shift coin"
  | .wireOutside operation wire width =>
    s!"operation '{operation}' touches wire {wire} outside a {width}-wire circuit"
  | .coinWithoutWires => "the shift coin needs at least one qubit"
  | .coinTooNarrow width directions =>
    s!"a {width}-qubit coin cannot encode {directions} move directions"
  | .shiftOverflow => "attempt to shift right with overflow"
  | .noDimensions => "a walk needs at least one dimension"
  | .flatDimension dimension => s!"dimension {dimension} has a zero-width register"
  | .initialCount given dimensions =>
    s!"{given} initial states given for {dimensions} dimensions"
  | .boundaryTarget pattern dimension dimensions =>
    s!"boundary '{pattern}' targets dimension {dimension} but the walk has {dimensions}"
  | .noCycleLength => "decoherence cycle length must be positive"
  | .decoherenceTarget wire width =>
    s!"decoherence target {wire} outside the {width}-qubit coin"
  | .phaseOrder next current =>
    let later := next.name
    let earlier := current.name
    s!"step phase {later} cannot follow {earlier}"
  | .dimensionRange dimension dimensions =>
    s!"dimension {dimension} out of range for a {dimensions}-dimensional walk"
  | .noBoundaryControl index => s!"no boundary control {index}"
  | .noShots => "cannot normalise a histogram over zero shots"
  | .shortKey key bits => s!"histogram key '{key}' is shorter than the {bits} state bits"
  | .uncoveredDimension key dimension => s!"key '{key}' does not cover dimension {dimension}"
  | .noStepSize => "experiment stepsize must be positive"
  | .notJobId line log => s!"'{line}' in {log} is not a job id"
  | .reported message => message

/-- What is wrong, in words. -/
def SimulationFault.message : SimulationFault → String
  | .tooManyWires wires =>
    s!"{wires} wires is too many, the state vector dimension overflows usize"
  | .notPowerOfTwo length => s!"state vector length {length} is not a power of two"
  | .noWires => "Cannot initialize simulation engine with zero wires"
  | .unknownWire wire wires =>
    let name := wireName wire
    s!"wire {name} not found in a {wires}-wire simulation"
  | .controlIsTarget wire =>
    let name := wireName wire
    s!"wire {name} is both control and target"
  | .emptyBranch wire =>
    let name := wireName wire
    s!"reset of {name} collapsed onto a zero-norm branch"
  | .aboveLimit wires limit gigabytes =>
    s!"{wires} wires exceed the local limit of {limit} (a state vector would need {gigabytes} GB)"
  | .notNormalised norm tolerance =>
    s!"State vector normalization failed. Sum(|c_i|^2) = {norm} (Deviation > {tolerance})"
  | .totalChanged before after =>
    s!"merging changed the total count from {before} to {after}"
  | .totalNotShots total shots => s!"histogram holds {total} counts for {shots} shots"
  | .coordinateOutside dimension coordinate width =>
    s!"dimension {dimension} coordinate {coordinate} exceeds its {width}-bit register"
  | .densitySum total => s!"probability density sums to {total}"
  | .reported message => message

namespace Failure

/-- The failure with the class of its cause in front. Files leave their account to the system. -/
def message : Failure → String
  | configuration fault => "Configuration Error: " ++ fault.message
  | simulation fault => "Simulation Process Error: " ++ fault.message
  | notReady job position =>
    let name := job.spell
    s!"Execution Not Ready: {name} is not done (queue position {position})"
  | executionFailed job message =>
    let name := job.spell
    s!"Execution Failure ({name}): {message}"
  | unknownJob job => "Unknown job: " ++ job.spell
  | file => "I/O Error"
  | table => "CSV Error"

/-- The account alone where there is one, else the whole message. -/
def detail : Failure → String
  | configuration fault => fault.message
  | simulation fault => fault.message
  | executionFailed _ message => message
  | failure => failure.message

end Failure

/-- Reports a fault in the request. -/
def refuse {α : Type} (fault : ConfigurationFault) : Except Failure α :=
  .error (.configuration fault)

/-- Reports a fault in a state or an outcome. -/
def mistrust {α : Type} (fault : SimulationFault) : Except Failure α :=
  .error (.simulation fault)

end LatticeWalk
