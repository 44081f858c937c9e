import LatticeWalk.Backend
import LatticeWalk.Simulation

/-! # The local backend

A device that simulates circuits on a full state vector, up to a limit of wires. The numbers that it
draws are its state.

* `Local.sampled`: a circuit without resets is carried through once, and its final distribution
  sampled for every shot.
* `Local.perShot`: with resets every shot is a run of its own.
* `Local.execute`: the one or the other.
* `Draws.ofSeed`: a stream of numbers that a seed determines. -/

namespace LatticeWalk

/-- One of the words that a seed determines: a counter in steps of an odd constant, its bits mixed
by shifts and multiplications. -/
def mixedWord (seed : UInt64) (n : Nat) : UInt64 :=
  let z := seed + (UInt64.ofNat n + 1) * 0x9E3779B97F4A7C15
  let z := (z ^^^ (z >>> 30)) * 0xBF58476D1CE4E5B9
  let z := (z ^^^ (z >>> 27)) * 0x94D049BB133111EB
  z ^^^ (z >>> 31)

/-- The stream of a seed: the top 53 bits of each word as a fraction. -/
def Draws.ofSeed {R : Type} [Scalar R] (seed : Nat) : Draws R where
  stream n := (((mixedWord (UInt64.ofNat seed) n >>> 11).toNat : Nat) : R) / Scalar.twoPow 53
  used := 0

namespace Local

variable {R : Type} [Scalar R]

/-- The largest number of wires if the caller sets none. -/
def defaultLimit : Nat := 24

/-- How far the total probability may be from one before sampling. -/
def normTolerance : R := 1e-6

/-- Carries a circuit through from all wires at zero. -/
def evolve (c : Circuit R) : Attempt (Draws R) (StateVector R) :=
  .of fun draws => match Simulation.start c.width draws with
    | .error e => (.error e, draws)
    | .ok s =>
      let (result, s) := (Simulation.run c.operations).outcome s
      (result.map fun _ => s.vector, s.draws)

/-- Draws an outcome of given probabilities. -/
def drawIndex (probabilities : List R) : Attempt (Draws R) Nat :=
  .of fun draws =>
    let (draw, rest) := draws.next
    (.ok (sampleIndex probabilities draw), rest)

/-- Adds `n` runs of a circuit to a histogram. -/
def addRuns (c : Circuit R) : Nat → Histogram → Attempt (Draws R) Histogram
  | 0, h => pure h
  | n + 1, h => do
    let vector ← evolve c
    let outcome ← drawIndex vector.probabilities
    addRuns c n (h.record (c.layout.key outcome) 1)

/-- Adds `n` samples of given probabilities to a histogram. -/
def addSamples (layout : Layout) (probabilities : List R) :
    Nat → Histogram → Attempt (Draws R) Histogram
  | 0, h => pure h
  | n + 1, h => do
    let outcome ← drawIndex probabilities
    addSamples layout probabilities n (h.record (layout.key outcome) 1)

/-- A run for every shot. -/
def perShot (c : Circuit R) (shots : Nat) : Attempt (Draws R) Histogram :=
  addRuns c shots (.empty shots)

/-- One run, and a sample of its final state for every shot. -/
def sampled (c : Circuit R) (shots : Nat) : Attempt (Draws R) Histogram :=
  if shots = 0 then pure (.empty 0)
  else do
    let vector ← evolve c
    Attempt.check (vector.checkNorm (some normTolerance))
    addSamples c.layout vector.probabilities shots (.empty shots)

/-- Executes a circuit within the limit of wires. -/
def execute (limit : Nat) (c : Circuit R) (shots : Nat) : Attempt (Draws R) Histogram :=
  if limit < c.width then
    Attempt.check (mistrust (.aboveLimit c.width limit
      (Numeral.spellTo 3 (c.layout.gigabytes : R))))
  else if c.hasResets then perShot c shots
  else sampled c shots

end Local

/-- The device that simulates circuits of at most `limit` wires. -/
def Backend.simulator (R : Type) [Scalar R] (limit : Nat) : Backend R (Draws R) where
  execute := Local.execute limit

end LatticeWalk
