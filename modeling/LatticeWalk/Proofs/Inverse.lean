import LatticeWalk.Proofs.Slice
import LatticeWalk.Proofs.Undo

/-! # Inverse operators

An operator keeps the gates that undo it beside its own, and inversion and control rewrite both
lists. The two never drift apart, so an operator and its inverse cancel on every state
(`Operator.inverse_restores`).

* `Operator.undo_undo`: undoing twice gives the same gates, in exact arithmetic.
* `Operator.Derived.inverseGates_eq`: the second list stays what undoes the first.
* `Operator.Derived.regular`: the gates of a derived operator are gates of the library, each with
  its target apart from its controls. -/

namespace LatticeWalk

/-! ### Adjoints -/

namespace Transform

theorem adjoint_adjoint (t : Transform ℝ) : t.adjoint.adjoint = t := by
  cases t with
  | flip => rfl
  | hadamard => rfl
  | phase angle => simp [adjoint]
  | unitary m =>
    simp only [adjoint, GateMatrix.adjoint]
    congr 2 <;> ext <;> simp

theorem adjoint_rotation (theta zeta xi : ℝ) :
    (unitary (Operator.su2Matrix theta zeta xi)).adjoint =
      unitary (Operator.su2Matrix theta zeta (-xi)) := by
  simp only [adjoint, GateMatrix.adjoint, Operator.su2Matrix]
  congr 2 <;> ext <;> simp

theorem Standard.adjoint {t : Transform ℝ} (h : t.Standard) : t.adjoint.Standard := by
  cases h with
  | flip => exact .flip
  | hadamard => exact .hadamard
  | phase angle => exact .phase (-angle)
  | rotation theta zeta xi =>
    rw [adjoint_rotation]
    exact .rotation theta zeta (-xi)

end Transform

theorem Gate.adjoint_adjoint (g : Gate ℝ) : g.adjoint.adjoint = g := by
  simp only [adjoint, Transform.adjoint_adjoint]

namespace Operator

theorem undo_undo (gs : List (Gate ℝ)) : undo (undo gs) = gs := by
  simp [undo, Function.comp_def, Gate.adjoint_adjoint]

theorem undo_extendGate {R : Type} [Scalar R] (bits : List Bool) (gs : List (Gate R)) :
    undo (gs.map (extendGate bits)) = (undo gs).map (extendGate bits) := by
  simp only [undo, ← List.map_reverse, List.map_map]
  rfl

theorem standard_undo {gs : List (Gate ℝ)} (h : AllStandard gs) : AllStandard (undo gs) := by
  intro g hg
  simp only [undo, List.mem_map, List.mem_reverse] at hg
  obtain ⟨g', hg', rfl⟩ := hg
  exact (h g' hg').adjoint

theorem standard_extendGate {R : Type} [Scalar R] {bits : List Bool} {gs : List (Gate R)}
    (h : AllStandard gs) : AllStandard (gs.map (extendGate bits)) := by
  intro g hg
  obtain ⟨g', hg', rfl⟩ := List.mem_map.mp hg
  exact h g' hg'

/-! ### The two lists of an operator -/

/-- The second list undoes the first, and the first is made of standard transforms. -/
structure Paired (op : Operator ℝ) : Prop where
  inverse : op.inverseGates = undo op.gates
  standard : AllStandard op.gates

theorem paired_ofGates {name : String} {family : Family ℝ} {n : ℕ} {gs : List (Gate ℝ)}
    (h : AllStandard gs) : (ofGates name family n gs).Paired := ⟨rfl, h⟩

namespace Paired

variable {op : Operator ℝ} (h : op.Paired)
include h

/-- What is put under control, and what undoes it. -/
theorem body_not (inverted : Bool) : op.body (!inverted) = undo (op.body inverted) := by
  cases inverted with
  | false => exact h.inverse
  | true =>
    show op.gates = undo op.inverseGates
    rw [h.inverse, undo_undo]

theorem standard_body (inverted : Bool) : AllStandard (op.body inverted) := by
  cases inverted with
  | false => exact h.standard
  | true =>
    show AllStandard op.inverseGates
    rw [h.inverse]
    exact standard_undo h.standard

theorem inverted : op.inverse.Paired := ⟨h.body_not true, h.standard_body true⟩

theorem underPattern (k : ℕ) (s : String) (inverted : Bool) (label : Option String) :
    (op.underPattern k s inverted label).Paired := by
  refine ⟨?_, standard_extendGate (h.standard_body inverted)⟩
  show (op.body !inverted).map _ = undo ((op.body inverted).map _)
  rw [undo_extendGate, h.body_not]

end Paired

/-- **Inversion and control keep the two lists of an operator together.** -/
theorem Derived.paired {op : Operator ℝ} (h : Derived op) : op.Paired := by
  induction h with
  | identity n => exact paired_ofGates nofun
  | hadamard n => exact paired_ofGates (standard_everyWire .hadamard n)
  | flip n => exact paired_ofGates (standard_everyWire .flip n)
  | absorbing n => exact paired_ofGates nofun
  | crossingFlag =>
    refine paired_ofGates fun g hg => ?_
    obtain rfl := List.mem_singleton.mp hg
    exact .flip
  | diffusion n =>
    exact paired_ofGates (((standard_spread n).append (standard_signFlip n)).append
      (standard_spread n).reverse)
  | phaseKickback n angle => exact paired_ofGates (standard_kickbackGates n angle)
  | kickback n variant => exact paired_ofGates (standard_kickbackGates n _)
  | fourier n => exact paired_ofGates (standard_fourier n)
  | cyclicIncrement n =>
    refine paired_ofGates fun g hg => ?_
    obtain ⟨_, -, rfl⟩ := List.mem_map.mp hg
    exact .flip
  | directionReversal n =>
    refine paired_ofGates fun g hg => ?_
    split_ifs at hg
    · cases hg
    · obtain rfl := List.mem_singleton.mp hg
      exact .flip
  | su2 h => exact ⟨(plain_su2 h).inverse, standard_su2 h⟩
  | permeability h => exact ⟨(plain_permeability h).inverse, standard_permeability h⟩
  | inverse _ ih => exact ih.inverted
  | control _ h' ih =>
    obtain ⟨-, rfl⟩ := control_eq_ok.mp h'
    exact ih.underPattern _ _ _ _

theorem Derived.inverseGates_eq {op : Operator ℝ} (h : Derived op) :
    op.inverseGates = undo op.gates := h.paired.inverse

theorem Derived.regular {op : Operator ℝ} (h : Derived op) : ∀ g ∈ op.gates, g.Regular :=
  fun g hg => ⟨h.paired.standard g hg, (h.fits.1 g hg).apart⟩

/-! ### Restored states -/

theorem Derived.restores {op : Operator ℝ} (h : Derived op) {v : StateVector ℝ}
    (hw : op.wires ≤ v.wires) (hsize : v.amplitudes.size = 2 ^ v.wires) (draws : Draws ℝ) :
    ∃ u, (Simulation.applyGates op.gates).outcome ⟨v, draws⟩ = (.ok (), ⟨u, draws⟩) ∧
      (Simulation.applyGates op.inverseGates).outcome ⟨u, draws⟩ = (.ok (), ⟨v, draws⟩) := by
  have hv := StateVector.shows_wave hsize
  obtain ⟨u, hrun, hwu, hu⟩ := hv.applyGates (fun g hg => (h.fits.1 g hg).mono hw) draws
  obtain ⟨v', hback, hwv, hv'⟩ := hu.applyGates
    (fun g (hg : g ∈ op.inverseGates) => hwu ▸ (h.fits.2 g hg).mono hw) draws
  rw [h.inverseGates_eq, Gate.actAll_undo h.regular] at hv'
  obtain rfl : v' = v := hv'.eq hv (hwv.trans hwu)
  exact ⟨u, hrun, hback⟩

/-- **Every operator is undone by its inverse.** However an operator of the library was inverted and
put under control, the gates kept beside its own are the adjoints of these in reverse order, and
running the one list after the other, in either order, restores every state. -/
theorem inverse_restores {op : Operator ℝ} (hop : Derived op) :
    op.inverseGates = op.gates.reverse.map Gate.adjoint ∧
      ∀ v : StateVector ℝ, op.wires ≤ v.wires → v.amplitudes.size = 2 ^ v.wires →
        ∀ draws : Draws ℝ,
          (∃ u, (Simulation.applyGates op.gates).outcome ⟨v, draws⟩ = (.ok (), ⟨u, draws⟩) ∧
            (Simulation.applyGates op.inverseGates).outcome ⟨u, draws⟩ = (.ok (), ⟨v, draws⟩)) ∧
          ∃ u, (Simulation.applyGates op.inverseGates).outcome ⟨v, draws⟩ = (.ok (), ⟨u, draws⟩) ∧
            (Simulation.applyGates op.gates).outcome ⟨u, draws⟩ = (.ok (), ⟨v, draws⟩) :=
  ⟨hop.inverseGates_eq, fun _ hw hsize draws =>
    ⟨hop.restores hw hsize draws, hop.inverse.restores hw hsize draws⟩⟩

/-- The Fourier transform of two wires, inverted where the wire in front of them is zero. -/
theorem inverse_restores_controlled_fourier : ∃ op : Operator ℝ,
    (fourier 2).control 1 (some "0") true none = .ok op ∧
      op.inverse.inverseGates = op.inverse.gates.reverse.map Gate.adjoint ∧
      ∃ u, (Simulation.applyGates op.inverse.gates).outcome ⟨.basis 3 4, ⟨fun _ => 0, 0⟩⟩ =
          (.ok (), ⟨u, ⟨fun _ => 0, 0⟩⟩) ∧
        (Simulation.applyGates op.inverse.inverseGates).outcome ⟨u, ⟨fun _ => 0, 0⟩⟩ =
          (.ok (), ⟨.basis 3 4, ⟨fun _ => 0, 0⟩⟩) := by
  obtain ⟨op, hop⟩ : ∃ op, (fourier 2 : Operator ℝ).control 1 (some "0") true none = .ok op :=
    ⟨_, rfl⟩
  have hwires : op.wires = 3 := by
    rw [(control_eq_ok.mp hop).2]
    rfl
  have hsize : (StateVector.basis 3 4 : StateVector ℝ).amplitudes.size = 2 ^ 3 := by
    simp [StateVector.basis]
  obtain ⟨hlists, hstates⟩ := inverse_restores (.inverse (.control (.fourier 2) hop))
  exact ⟨op, hop, hlists, (hstates (.basis 3 4) hwires.le hsize ⟨fun _ => 0, 0⟩).1⟩

end Operator

end LatticeWalk
