import LatticeWalk.Proofs.Operator
import LatticeWalk.Coin.Family
import LatticeWalk.Walk.Plan

/-! # Gates undone

In exact arithmetic the adjoint gates in reverse order undo a list of gates.

* `Transform.Standard`: the transforms of the library's operators; `Transform.Standard.undone` says
  that their adjoints undo them.
* `Gate.actAll_undo`: the gates that undo a list.
* `Operator.Directs`: the coins that can direct a walk; they consist of such gates. -/

namespace LatticeWalk

open Function (update)

/-! ### Transforms -/

namespace Transform

/-- The transforms that the operators of the library are made of. -/
inductive Standard {R : Type} [Scalar R] : Transform R → Prop
  | flip : Standard flip
  | hadamard : Standard hadamard
  | phase (angle : R) : Standard (phase angle)
  | rotation (theta zeta xi : R) : Standard (unitary (Operator.su2Matrix theta zeta xi))

/-- The product of the adjoint matrix and the matrix is the unit matrix. -/
structure Undone (t : Transform ℝ) : Prop where
  a00 : t.adjoint.matrix.a00 * t.matrix.a00 + t.adjoint.matrix.a01 * t.matrix.a10 = 1
  a01 : t.adjoint.matrix.a00 * t.matrix.a01 + t.adjoint.matrix.a01 * t.matrix.a11 = 0
  a10 : t.adjoint.matrix.a10 * t.matrix.a00 + t.adjoint.matrix.a11 * t.matrix.a10 = 0
  a11 : t.adjoint.matrix.a10 * t.matrix.a01 + t.adjoint.matrix.a11 * t.matrix.a11 = 1

theorem halfRoot_mul_self : (Scalar.halfRoot : ℝ) * Scalar.halfRoot = 2⁻¹ := by
  show Real.sqrt 0.5 * Real.sqrt 0.5 = 2⁻¹
  rw [Real.mul_self_sqrt (by norm_num)]
  norm_num

/-- **The transforms of the library are undone by their adjoints.** -/
theorem Standard.undone {t : Transform ℝ} (h : t.Standard) : t.Undone := by
  cases h with
  | flip => constructor <;> simp [adjoint, matrix]
  | hadamard =>
    have hh := halfRoot_mul_self
    constructor <;> ext <;> simp [adjoint, matrix] <;> linarith
  | phase angle =>
    have hu := Amplitude.unit_mul_unit_neg angle
    constructor
    · simp [adjoint, matrix]
    · simp [adjoint, matrix]
    · simp [adjoint, matrix]
    · simpa [adjoint, matrix, mul_comm] using hu
  | rotation theta zeta xi =>
    have hu := Amplitude.unit_mul_unit_neg xi
    have hz := Amplitude.unit_mul_unit_neg zeta
    have hcs := Amplitude.ofReal_cos_sq_add_sin_sq theta
    constructor <;>
      simp only [adjoint, matrix, GateMatrix.adjoint, Operator.su2Matrix, Amplitude.scale_eq,
        Amplitude.conj_mul, Amplitude.conj_ofReal, Amplitude.conj_neg, Amplitude.conj_unit, neg_neg]
    · linear_combination Amplitude.ofReal (Real.cos theta) ^ 2 * hu +
        Amplitude.ofReal (Real.sin theta) ^ 2 * hz + hcs
    · ring
    · ring
    · linear_combination Amplitude.ofReal (Real.cos theta) ^ 2 * hu +
        Amplitude.ofReal (Real.sin theta) ^ 2 * hz + hcs

end Transform

theorem Operator.su2Matrix_zero : su2Matrix (0 : ℝ) 0 0 = ⟨1, 0, 0, -1⟩ := by
  have hcos : Scalar.cos 0 = (1 : ℝ) := Real.cos_zero
  have hsin : Scalar.sin 0 = (0 : ℝ) := Real.sin_zero
  rw [su2Matrix, hcos, hsin]
  congr 1 <;> ext <;> simp

/-! ### Gates -/

namespace Gate

/-- A gate of the library with its target apart from its controls. -/
structure Regular {R : Type} [Scalar R] (g : Gate R) : Prop where
  standard : g.transform.Standard
  apart : ∀ c ∈ g.controls, c.wire ≠ g.target

theorem act_adjoint {g : Gate ℝ} (h : g.Regular) (ψ : Wave ℝ) : g.adjoint.act (g.act ψ) = ψ := by
  obtain ⟨h00, h01, h10, h11⟩ := h.standard.undone
  funext b
  by_cases hm : Met g.controls b
  · have hm' : ∀ v, Met g.controls (update b g.target v) := fun v =>
      (met_update h.apart b v).mpr hm
    unfold act
    simp only [adjoint, hm, hm', if_true, Function.update_self, Function.update_idem,
      Bool.false_eq_true, if_false]
    split_ifs with ht
    · have hb : update b g.target true = b := by rw [← ht, Function.update_eq_self]
      rw [hb]
      linear_combination ψ (update b g.target false) * h10 + ψ b * h11
    · have hb : update b g.target false = b := by
        rw [← Bool.eq_false_of_not_eq_true ht, Function.update_eq_self]
      rw [hb]
      linear_combination ψ b * h00 + ψ (update b g.target true) * h01
  · rw [act_of_not_met (show ¬ Met g.adjoint.controls b from hm), act_of_not_met hm]

/-- **The adjoint gates in reverse order undo a list of gates.** -/
theorem actAll_undo : ∀ {gs : List (Gate ℝ)}, (∀ g ∈ gs, g.Regular) → ∀ ψ : Wave ℝ,
    actAll (Operator.undo gs) (actAll gs ψ) = ψ
  | [], _, _ => rfl
  | g :: gs, h, ψ => by
    have hsplit : Operator.undo (g :: gs) = Operator.undo gs ++ [g.adjoint] := by
      simp [Operator.undo]
    rw [hsplit, actAll_append, actAll_cons g gs, actAll_undo fun g' hg' => h g' (by simp [hg'])]
    exact act_adjoint (h g (by simp)) ψ

/-- Gates that are their own adjoints are undone by the opposite order. -/
theorem undo_of_adjoint_eq {R : Type} [Scalar R] {gs : List (Gate R)}
    (h : ∀ g ∈ gs, g.adjoint = g) : Operator.undo gs = gs.reverse :=
  (List.map_congr_left fun g hg => h g (List.mem_reverse.mp hg)).trans (List.map_id _)

theorem undo_mapWires {R : Type} [Scalar R] (f : ℕ → ℕ) (gs : List (Gate R)) :
    Operator.undo (gs.map (mapWires f)) = (Operator.undo gs).map (mapWires f) := by
  simp only [Operator.undo, ← List.map_reverse, List.map_map]
  rfl

end Gate

/-! ### The coins of walks -/

section coins
variable {R : Type} [Scalar R]

/-- All transforms of a list of gates are standard. -/
def AllStandard (gs : List (Gate R)) : Prop := ∀ g ∈ gs, g.transform.Standard

theorem AllStandard.append {gs hs : List (Gate R)} (hg : AllStandard gs) (hh : AllStandard hs) :
    AllStandard (gs ++ hs) := fun g h => (List.mem_append.mp h).elim (hg g) (hh g)

theorem AllStandard.reverse {gs : List (Gate R)} (h : AllStandard gs) : AllStandard gs.reverse :=
  fun g hg => h g (List.mem_reverse.mp hg)

namespace Operator

theorem standard_everyWire {t : Transform R} (h : t.Standard) (n : ℕ) :
    AllStandard (everyWire t n) := by
  intro g hg
  obtain ⟨_, -, rfl⟩ := List.mem_map.mp hg
  exact h

theorem standard_spread (n : ℕ) : AllStandard (spread n : List (Gate R)) :=
  (standard_everyWire .hadamard n).append (standard_everyWire .flip n)

theorem standard_signFlip (n : ℕ) : AllStandard (signFlip n : List (Gate R)) := by
  unfold signFlip
  split_ifs
  · simp [AllStandard]
  · intro g hg
    simp only [List.mem_cons, List.not_mem_nil, or_false] at hg
    rcases hg with rfl | rfl | rfl
    · exact .hadamard
    · exact .flip
    · exact .hadamard

theorem standard_phaseFlip (n : ℕ) (angle : R) : AllStandard (phaseFlip n angle) := by
  unfold phaseFlip
  split_ifs
  · simp [AllStandard]
  · intro g hg
    obtain rfl := List.mem_singleton.mp hg
    exact .phase angle

theorem standard_kickbackGates (n : ℕ) (angle : R) : AllStandard (kickbackGates n angle) :=
  ((standard_spread n).append (standard_phaseFlip n angle)).append (standard_spread n).reverse

theorem standard_fourier (n : ℕ) : AllStandard (fourier n : Operator R).gates := by
  refine AllStandard.append (fun g hg => ?_) fun g hg => ?_
  · obtain ⟨top, -, hg⟩ := List.mem_flatMap.mp hg
    simp only [fourierRung, List.mem_cons, List.mem_map] at hg
    rcases hg with rfl | ⟨w, -, rfl⟩
    · exact .hadamard
    · exact .phase _
  · obtain ⟨w, -, hg⟩ := List.mem_flatMap.mp hg
    simp only [swapGates, List.mem_cons, List.not_mem_nil, or_false] at hg
    rcases hg with rfl | rfl | rfl <;> exact .flip

theorem standard_su2Gates : ∀ (w : ℕ) (thetas zetas xis : List R),
    AllStandard (su2Gates w thetas zetas xis)
  | w, theta :: thetas, zeta :: zetas, xi :: xis => by
    intro g hg
    rcases List.mem_cons.mp hg with rfl | hg
    · exact .rotation _ _ _
    · exact standard_su2Gates (w + 1) thetas zetas xis g hg
  | _, [], _, _ => by simp [AllStandard, su2Gates]
  | _, _ :: _, [], _ => by simp [AllStandard, su2Gates]
  | _, _ :: _, _ :: _, [] => by simp [AllStandard, su2Gates]

theorem standard_su2 {n : ℕ} {theta zeta xi : Angles R} {op : Operator R}
    (h : su2 n theta zeta xi = .ok op) : AllStandard op.gates := by
  obtain ⟨thetas, -, h⟩ := Except.bind_eq_ok.mp h
  obtain ⟨zetas, -, h⟩ := Except.bind_eq_ok.mp h
  obtain ⟨xis, -, h⟩ := Except.bind_eq_ok.mp h
  cases h
  exact standard_su2Gates 0 thetas zetas xis

theorem standard_permeability {n : ℕ} {transmission : R} {op : Operator R}
    (h : permeability n transmission = .ok op) : AllStandard op.gates := by
  unfold permeability at h
  split_ifs at h
  · cases h
    exact standard_su2Gates 0 _ _ _
  · cases h

end Operator

/-- A coin that was built for a walk. -/
structure IsCoin (n : ℕ) (op : Operator R) : Prop where
  plain : Operator.Plain n op
  standard : AllStandard op.gates

/-- **The coins that can direct a walk.** -/
inductive Operator.Directs (n : ℕ) : Operator R → Prop
  | hadamard : Directs n (hadamard n)
  | flip : Directs n (flip n)
  | diffusion : Directs n (diffusion n)
  | fourier : Directs n (fourier n)
  | phaseKickback (angle : R) : Directs n (phaseKickback n angle)
  | kickback (variant : Kickback) : Directs n (kickback n variant)
  | su2 {theta zeta xi : Angles R} {op : Operator R} (h : su2 n theta zeta xi = .ok op) :
      Directs n op
  | permeability {transmission : R} {op : Operator R} (h : permeability n transmission = .ok op) :
      Directs n op

namespace Operator.Directs

variable {n : ℕ} {op : Operator R} (h : Directs n op)
include h

theorem isCoin : IsCoin n op := by
  cases h with
  | hadamard => exact ⟨plain_ofGates (allFit_everyWire _ n), standard_everyWire .hadamard n⟩
  | flip => exact ⟨plain_ofGates (allFit_everyWire _ n), standard_everyWire .flip n⟩
  | diffusion =>
    exact ⟨plain_diffusion n,
      ((standard_spread n).append (standard_signFlip n)).append (standard_spread n).reverse⟩
  | fourier => exact ⟨plain_fourier n, standard_fourier n⟩
  | phaseKickback angle =>
    exact ⟨plain_ofGates (allFit_kickbackGates n angle), standard_kickbackGates n angle⟩
  | kickback variant =>
    exact ⟨plain_ofGates (allFit_kickbackGates n _), standard_kickbackGates n _⟩
  | su2 h => exact ⟨plain_su2 h, standard_su2 h⟩
  | permeability h => exact ⟨plain_permeability h, standard_permeability h⟩

theorem derived : op.Derived := by
  cases h with
  | hadamard => exact .hadamard n
  | flip => exact .flip n
  | diffusion => exact .diffusion n
  | fourier => exact .fourier n
  | phaseKickback angle => exact .phaseKickback n angle
  | kickback variant => exact .kickback n variant
  | su2 h => exact .su2 h
  | permeability h => exact .permeability h

end Operator.Directs

theorem CoinFamily.directs_of_buildSu2 {n : ℕ} {params : CoinParams R} {op : Operator R}
    (h : buildSu2 n params = .ok op) : op.Directs n := by
  unfold buildSu2 at h
  split at h
  · obtain ⟨_, -, h⟩ := Except.bind_eq_ok.mp h
    obtain ⟨_, -, h⟩ := Except.bind_eq_ok.mp h
    exact .permeability h
  · obtain ⟨_, -, h⟩ := Except.bind_eq_ok.mp h
    obtain ⟨_, -, h⟩ := Except.bind_eq_ok.mp h
    obtain ⟨_, -, h⟩ := Except.bind_eq_ok.mp h
    exact .su2 h

theorem CoinFamily.directs_of_build {family : CoinFamily} {n : ℕ} {params : CoinParams R}
    {op : Operator R} (hshift : family.isShiftCoin = true)
    (h : family.build n params = .ok (some op)) : op.Directs n := by
  obtain ⟨_, -, h⟩ := Except.bind_eq_ok.mp h
  cases family with
  | hadamard =>
    cases h
    exact .hadamard
  | flip =>
    cases h
    exact .flip
  | grover =>
    cases h
    exact .diffusion
  | fourier =>
    cases h
    exact .fourier
  | phaseKickback =>
    obtain ⟨_, -, h⟩ := Except.bind_eq_ok.mp h
    obtain ⟨angle, -, h⟩ := Except.bind_eq_ok.mp h
    cases h
    exact .phaseKickback angle
  | kickback variant =>
    cases h
    exact .kickback variant
  | su2 =>
    cases hsu2 : buildSu2 n params with
    | error e =>
      rw [hsu2] at h
      cases h
    | ok op' =>
      rw [hsu2] at h
      cases h
      exact directs_of_buildSu2 hsu2
  | cyclicController => cases hshift
  | noControl => cases hshift

theorem WalkSpec.directs_of_buildCoin {spec : WalkSpec R} {op : Operator R}
    (h : spec.buildCoin = .ok op) : op.Directs spec.coinWidth := by
  unfold buildCoin at h
  cases hshift : spec.coin.isShiftCoin with
  | false =>
    rw [hshift] at h
    cases h
  | true =>
    rw [hshift] at h
    obtain ⟨_ | op', hbuild, h⟩ := Except.bind_eq_ok.mp h
    · cases h
    · cases h
      exact CoinFamily.directs_of_build hshift hbuild

theorem WalkSpec.buildCoin_eq_ok {spec : WalkSpec R} {op : Operator R}
    (h : spec.buildCoin = .ok op) : IsCoin spec.coinWidth op := (directs_of_buildCoin h).isCoin

end coins

end LatticeWalk
