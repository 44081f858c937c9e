import LatticeWalk.Proofs.Operator

/-! # Slices of a state vector

With the first `k` wires held fixed, a state vector of `n + k` wires is one of `n` wires. An
operator under control acts on the slices in which its pattern stands on the first wires, on each
of them as the operator itself, and leaves the others alone (`Operator.control_acts_on_slices`). -/

namespace LatticeWalk

variable {R : Type} [Scalar R]

namespace StateVector

/-- The wave that repeats the amplitudes of a state vector on all further wires. -/
def wave (v : StateVector R) : Wave R := fun b => v.amplitude (index v.wires b)

theorem shows_wave {v : StateVector R} (h : v.amplitudes.size = 2 ^ v.wires) : v.Shows v.wave :=
  ⟨h, fun i hi => by rw [wave, index_testBit, Nat.mod_eq_of_lt hi]⟩

/-- The amplitudes of the basis states whose first `k` wires carry the bits of `i`. -/
def slice (v : StateVector R) (k i : ℕ) : StateVector R :=
  ⟨v.wires - k, Array.ofFn fun j : Fin (2 ^ (v.wires - k)) => v.amplitude (2 ^ k * j + i % 2 ^ k)⟩

theorem shows_slice {v : StateVector R} {n k : ℕ} (h : v.wires = n + k) (i : ℕ) :
    (v.slice k i).Shows fun c => v.wave (Function.extend (· + k) c i.testBit) := by
  refine ⟨by simp [slice], fun j hj => ?_⟩
  have hn : v.wires - k = n := by omega
  have hj' : j < 2 ^ (v.wires - k) := hj
  rw [wave, h, index_extend (hn ▸ hj')]
  simp [slice, StateVector.amplitude, Array.getD, hj']

end StateVector

namespace Operator

omit [Scalar R] in
theorem gates_of_control {op op' : Operator R} {k : ℕ} {pattern : Option String} {inverted : Bool}
    {label : Option String} (h : op.control k pattern inverted label = .ok op') :
    op'.gates = ((op.body inverted).map (Gate.mapWires (· + k))).map
      (Gate.under (controlsFor (Pattern.wireBits (asked k pattern)))) := by
  obtain ⟨hpat, rfl⟩ := control_eq_ok.mp h
  have hlen : (Pattern.wireBits (asked k pattern)).length = k := Pattern.length_wireBits_of hpat
  rw [List.map_map]
  refine List.map_congr_left fun g _ => ?_
  show extendGate (Pattern.wireBits (asked k pattern)) g = _
  simp only [Function.comp_apply]
  rw [extendGate, hlen]
  rfl

omit [Scalar R] in
theorem wire_ne_target_of_moved {bits : List Bool} {k : ℕ} (hlen : bits.length = k)
    {gs : List (Gate R)} :
    ∀ g ∈ gs.map (Gate.mapWires (· + k)), ∀ c ∈ controlsFor bits, c.wire ≠ g.target := by
  intro g hg c hc
  obtain ⟨g', -, rfl⟩ := List.mem_map.mp hg
  have hc' : c.wire < k := hlen ▸ wire_lt_of_controlsFor hc
  show c.wire ≠ g'.target + k
  omega

/-- **Control applies the body where the first wires spell the pattern, and nothing elsewhere.** The
gates of an operator under control succeed on every state vector of the right width. An amplitude
whose first `k` wires do not spell the pattern stays, and the others are those of the body, run on
the slice that they belong to. -/
theorem control_acts_on_slices {op : Operator R} (hop : Derived op) {k : ℕ}
    {pattern : Option String} (hp : ∀ s ∈ pattern, IsPattern s k) (inverted : Bool)
    (label : Option String)
    {v : StateVector R} (hw : v.wires = op.wires + k) (hsize : v.amplitudes.size = 2 ^ v.wires)
    (draws : Draws R) :
    ∃ op' v', op.control k pattern inverted label = .ok op' ∧ op'.wires = v.wires ∧
      (Simulation.applyGates op'.gates).outcome ⟨v, draws⟩ = (.ok (), ⟨v', draws⟩) ∧
      v'.wires = v.wires ∧ v'.amplitudes.size = 2 ^ v.wires ∧
      ∀ i < 2 ^ v.wires,
        if Pattern.ofValue i k = asked k pattern then
          ∃ u, (Simulation.applyGates (op.body inverted)).outcome ⟨v.slice k i, draws⟩ =
              (.ok (), ⟨u, draws⟩) ∧ v'.amplitude i = u.amplitude (i / 2 ^ k)
        else v'.amplitude i = v.amplitude i := by
  have hpat := isPattern_asked hp
  obtain ⟨op', hop'⟩ : ∃ op', op.control k pattern inverted label = .ok op' :=
    ⟨_, control_eq_ok.mpr ⟨hpat, rfl⟩⟩
  have hwires : op'.wires = v.wires := by
    rw [(control_eq_ok.mp hop').2, hw]
    rfl
  obtain ⟨v', hrun, hw', hs'⟩ := (StateVector.shows_wave hsize).applyGates
    (hwires ▸ (Derived.control hop hop').fits.1) draws
  refine ⟨op', v', hop', hwires, hrun, hw', by rw [hs'.size, hw'], fun i hi => ?_⟩
  have hlen : (Pattern.wireBits (asked k pattern)).length = k := Pattern.length_wireBits_of hpat
  have hmet : Met (controlsFor (Pattern.wireBits (asked k pattern))) i.testBit ↔
      Pattern.ofValue i k = asked k pattern := by
    rw [met_controlsFor, hlen, Pattern.ofValue_eq_iff hpat]
  have happ : v'.amplitude i = if Met (controlsFor (Pattern.wireBits (asked k pattern))) i.testBit
      then Gate.actAll ((op.body inverted).map (Gate.mapWires (· + k))) v.wave i.testBit
      else v.wave i.testBit := by
    rw [hs'.amplitude i (by rwa [hw']), gates_of_control hop',
      Gate.actAll_under (wire_ne_target_of_moved hlen)]
  split_ifs with h
  · rw [if_pos (hmet.mpr h)] at happ
    have hn : (v.slice k i).wires = op.wires := by
      show v.wires - k = op.wires
      omega
    have hbody : AllFit (v.slice k i).wires (op.body inverted) := hn ▸ hop.allFit_body inverted
    obtain ⟨u, hu, hwu, hsu⟩ := (StateVector.shows_slice hw i).applyGates hbody draws
    refine ⟨u, hu, ?_⟩
    have hsplit : Function.extend (· + k) (i / 2 ^ k).testBit i.testBit = i.testBit :=
      extend_testBit_div i k
    have hdiv : i / 2 ^ k < 2 ^ u.wires := by
      rw [hwu, hn]
      refine Nat.div_lt_of_lt_mul ?_
      rwa [← pow_add, Nat.add_comm k, ← hw]
    rw [happ, hsu.amplitude _ hdiv, ← Gate.actAll_mapWires (add_left_injective k), hsplit]
  · rw [happ, if_neg (mt hmet.mp h)]
    exact ((StateVector.shows_wave hsize).amplitude i hi).symm

/-- A rotation of one wire, taken back where the wire in front of it is zero. -/
theorem control_acts_on_slices_hadamard : ∃ op' v',
    (hadamard 1 : Operator ℝ).control 1 (some "0") true none = .ok op' ∧ op'.wires = 2 ∧
      (Simulation.applyGates op'.gates).outcome ⟨.basis 2 2, ⟨fun _ => 0, 0⟩⟩ =
        (.ok (), ⟨v', ⟨fun _ => 0, 0⟩⟩) ∧
      v'.wires = 2 ∧ v'.amplitudes.size = 2 ^ 2 ∧
      ∀ i < 2 ^ 2,
        if Pattern.ofValue i 1 = "0" then
          ∃ u, (Simulation.applyGates ((hadamard 1 : Operator ℝ).body true)).outcome
              ⟨(StateVector.basis 2 2).slice 1 i, ⟨fun _ => 0, 0⟩⟩ =
                (.ok (), ⟨u, ⟨fun _ => 0, 0⟩⟩) ∧ v'.amplitude i = u.amplitude (i / 2 ^ 1)
        else v'.amplitude i = (StateVector.basis 2 2).amplitude i := by
  have hp : ∀ s ∈ some "0", IsPattern s 1 := by
    rintro _ ⟨⟩
    exact ⟨by simp [Pattern.isBit], rfl⟩
  have hsize : (StateVector.basis 2 2 : StateVector ℝ).amplitudes.size = 2 ^ 2 := by
    simp [StateVector.basis]
  exact control_acts_on_slices (Derived.hadamard 1) hp true none (v := .basis 2 2) rfl hsize
    ⟨fun _ => 0, 0⟩

end Operator

end LatticeWalk
