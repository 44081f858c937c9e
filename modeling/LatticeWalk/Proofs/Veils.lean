import LatticeWalk.Proofs.Counterpart
import LatticeWalk.Proofs.Weaving

/-! # Veils

The permeability coin at the ends of its range, on a register at zero. Without transmission it sets
all wires, so that the block of the control acts like that of a wall. With full transmission it
leaves them at zero, and the block finds no amplitude to act on.

* `Operator.gates_permeability`: one rotation of every wire by the same angle.
* `Operation.Weaves.veil_shut`, `Operation.Weaves.veil_open`: what the coin makes of the register.
* `Operation.Weaves.block_open`: the block when all is let through.
* `BoundaryControl.follow_blockOps_shut`: the block when nothing is, and that of a wall. -/

namespace LatticeWalk

open Operation (gatesOf Follows Weaves)
open Operator (gatesOn controlsOn)

/-! ### The coin of a veil -/

namespace Operator

section everyWire
variable {R : Type} [Scalar R]

theorem su2Gates_replicate (theta zeta xi : R) : ∀ n start : ℕ,
    su2Gates start (List.replicate n theta) (List.replicate n zeta) (List.replicate n xi) =
      (List.range' start n).map (Gate.plain (.unitary (su2Matrix theta zeta xi)))
  | 0, _ => rfl
  | n + 1, start => by
    rw [List.replicate_succ, List.replicate_succ, List.replicate_succ, su2Gates,
      su2Gates_replicate theta zeta xi n, List.range'_succ, List.map_cons]

/-- **The permeability coin turns every wire** by the same angle. -/
theorem gates_permeability {n : ℕ} {transmission : R} {op : Operator R}
    (h : permeability n transmission = .ok op) : op.family = .customUnitary ∧
      op.gates = everyWire
        (.unitary (su2Matrix (Scalar.arccos (Scalar.sqrt transmission)) 0 0)) n := by
  unfold permeability at h
  split_ifs at h
  · cases h
    refine ⟨rfl, ?_⟩
    rw [everyWire, List.range_eq_range']
    exact su2Gates_replicate _ 0 0 n 0
  · cases h

omit [Scalar R] in
theorem gatesOn_everyWire (t : Transform R) (r : Register) :
    gatesOn r.wires (everyWire t r.width) = r.wires.map (Gate.plain t) := by
  simp only [gatesOn, everyWire, Register.wires, List.map_map]
  refine List.map_congr_left fun i hi => ?_
  have hlt : i < r.width := List.mem_range.mp hi
  simp [Gate.mapWires, Gate.plain, hlt]

end everyWire

theorem matrix_shut :
    (Transform.unitary (su2Matrix (Scalar.arccos (Scalar.sqrt (0 : ℝ))) 0 0)).matrix =
      Transform.flip.matrix := by
  have hangle : Scalar.arccos (Scalar.sqrt (0 : ℝ)) = Real.pi / 2 :=
    (congrArg Real.arccos Real.sqrt_zero).trans Real.arccos_zero
  have hcos : Scalar.cos (Real.pi / 2) = (0 : ℝ) := Real.cos_pi_div_two
  have hsin : Scalar.sin (Real.pi / 2) = (1 : ℝ) := Real.sin_pi_div_two
  rw [hangle, Transform.matrix, Transform.matrix, su2Matrix, hcos, hsin]
  congr 1 <;> ext <;> simp

/-- With full transmission a wire keeps its value, up to a sign. -/
theorem matrix_open :
    (Transform.unitary (su2Matrix (Scalar.arccos (Scalar.sqrt (1 : ℝ))) 0 0)).matrix =
      ⟨1, 0, 0, -1⟩ := by
  have hangle : Scalar.arccos (Scalar.sqrt (1 : ℝ)) = 0 :=
    (congrArg Real.arccos Real.sqrt_one).trans Real.arccos_one
  rw [hangle, Transform.matrix, su2Matrix_zero]

end Operator

namespace Gate

theorem act_plain_congr {t t' : Transform ℝ} (h : t.matrix = t'.matrix) (q : ℕ) (ψ : Wave ℝ) :
    (plain t q).act ψ = (plain t' q).act ψ := by
  unfold act plain
  rw [h]

theorem actAll_plain_congr {t t' : Transform ℝ} (h : t.matrix = t'.matrix) :
    ∀ (qs : List ℕ) (ψ : Wave ℝ),
      actAll (qs.map (plain t)) ψ = actAll (qs.map (plain t')) ψ
  | [], _ => rfl
  | q :: qs, ψ => by
    rw [List.map_cons, List.map_cons, actAll_cons, actAll_cons, act_plain_congr h,
      actAll_plain_congr h qs]

/-- A sign on the amplitudes of ones leaves a wave that has none. -/
theorem actAll_sign {t : Transform ℝ} (h : t.matrix = ⟨1, 0, 0, -1⟩) : ∀ {qs : List ℕ}
    {ψ : Wave ℝ}, (∀ q ∈ qs, ∀ b : ℕ → Bool, b q = true → ψ b = 0) →
    actAll (qs.map (plain t)) ψ = ψ
  | [], _, _ => rfl
  | q :: qs, ψ, hψ => by
    have hfirst : (plain t q).act ψ = ψ := by
      funext b
      simp only [act, plain, h, met_nil, if_true]
      split_ifs with hb
      · rw [hψ q (by simp) b hb]
        ring
      · ring
    rw [List.map_cons, actAll_cons, hfirst, actAll_sign h fun q' hq' => hψ q' (by simp [hq'])]

/-- Gates under controls that are met only where there is no amplitude leave the wave. -/
theorem actAll_under_of_zero {cs : List Control} {gs : List (Gate ℝ)}
    (h : ∀ g ∈ gs, ∀ c ∈ cs, c.wire ≠ g.target) {ψ : Wave ℝ} (hψ : ∀ b, Met cs b → ψ b = 0) :
    actAll (gs.map (under cs)) ψ = ψ := by
  funext b
  rw [actAll_under h]
  split_ifs with hb
  · have hzero := actAll_congr (P := Met cs) (fun g hg => blind_met (h g hg))
      (φ := (0 : Wave ℝ)) hψ b hb
    rw [hzero, actAll_zero, hψ b hb]
    rfl
  · rfl

end Gate

namespace Register

variable {r : Register}

theorem asks_eq_controlsOn {v : Bool} {s : String}
    (h : Pattern.wireBits s = List.replicate r.width v) :
    r.asks v = controlsOn r.wires (Pattern.wireBits s) := by
  rw [h]
  refine List.ext_getElem (by simp [asks, controlsOn]) fun i _ _ => ?_
  simp [asks, controlsOn]

theorem asks_true : r.asks true = controlsOn r.wires (Pattern.wireBits (Pattern.ones r.width)) :=
  asks_eq_controlsOn (Pattern.wireBits_ones _)

theorem not_met_asks (hpos : 0 < r.width) {b : ℕ → Bool} (h : Met (r.asks true) b) :
    ¬ Met (r.asks false) b := by
  have hmem : r.wire 0 ∈ r.wires := Register.wire_mem hpos
  intro h'
  have hone := met_asks.mp h _ hmem
  rw [met_asks.mp h' _ hmem] at hone
  cases hone

theorem actAll_flips_asks (ψ : Wave ℝ) :
    Gate.actAll (r.wires.map (Gate.plain .flip)) (ψ.latched r.wireAround (r.asks false)) =
      ψ.latched r.wireAround (r.asks true) := by
  have hflips : ∀ g ∈ (r.wires.map (Gate.plain .flip) : List (Gate ℝ)), g.IsFlip := by
    intro g hg
    obtain ⟨q, -, rfl⟩ := List.mem_map.mp hg
    exact Gate.isFlip_plain q
  have hreverse : (r.wires.map (Gate.plain .flip) : List (Gate ℝ)).reverse =
      r.wires.reverse.map (Gate.plain .flip) := List.map_reverse.symm
  funext b
  rw [Gate.actAll_flips_reverse hflips (Wave.flipExact_real _), hreverse,
    Gate.sendAll_plain (List.nodup_reverse.mpr (nodup_wires r))]
  simp only [List.mem_reverse]
  have hmet : Met (r.asks false) (fun q => if q ∈ r.wires then !b q else b q) ↔
      Met (r.asks true) b := by
    rw [met_asks, met_asks]
    refine forall₂_congr fun q hq => ?_
    rw [if_pos hq, Bool.not_eq_false']
  have hcomp : (fun q => if q ∈ r.wires then !b q else b q) ∘ r.wireAround = b ∘ r.wireAround :=
    funext fun q => if_neg (wireAround_notMem q)
  rw [Wave.latched, Wave.latched, hcomp]
  exact if_congr hmet rfl rfl

end Register

namespace Operation.Weaves

variable {r : Register} {op : Operator ℝ}

/-- **Without transmission the coin sets the register.** -/
theorem veil_shut (h : Operator.permeability r.width 0 = .ok op) :
    Weaves r false true [] [op.bound r.wires] := by
  refine .gates (by simp [Operator.bound, Operation.isReset]) fun ψ => ?_
  have hgates : gatesOf [op.bound r.wires] = gatesOn r.wires op.gates := List.append_nil _
  rw [hgates, (Operator.gates_permeability h).2, Operator.gatesOn_everyWire,
    Gate.actAll_plain_congr Operator.matrix_shut, Register.actAll_flips_asks]

/-- **With full transmission the coin leaves the register at zero.** -/
theorem veil_open (h : Operator.permeability r.width 1 = .ok op) :
    Weaves r false false [] [op.bound r.wires] := by
  refine .gates (by simp [Operator.bound, Operation.isReset]) fun ψ => ?_
  have hgates : gatesOf [op.bound r.wires] = gatesOn r.wires op.gates := List.append_nil _
  rw [hgates, (Operator.gates_permeability h).2, Operator.gatesOn_everyWire]
  refine Gate.actAll_sign Operator.matrix_open fun q hq b hb => if_neg fun hmet => ?_
  rw [Register.met_asks.mp hmet q hq] at hb
  cases hb

end Operation.Weaves

/-! ### The blocks of a veil -/

section blocks
variable {c : BoundaryControl ℝ} {op : Operator ℝ} {plane : Boundary} {coin : Operator ℝ}
  {w : Wiring} {r : Register} (hpermeable : c.permeability = .permeable op)
  (hcontrol : w.control = some r) (hstate : c.state = Pattern.ones r.width)
include hpermeable hcontrol

theorem BoundaryControl.blockOps_of_permeable : c.blockOps plane coin w =
    c.reflectionOps plane coin w r.wires (plane.label.or c.label) := by
  simp only [blockOps, hpermeable, Wiring.controlWires, hcontrol]
  rfl

include hstate

/-- **With full transmission a block does nothing.** It would act where the register is set. -/
theorem Operation.Weaves.block_open {n : ℕ} (hap : w.Apart n) (hpos : 0 < r.width)
    (hplane : IsPattern plane.pattern w.position.width)
    (hcoin : ∀ g ∈ BoundaryControl.turnBack coin w.coin, g.target ∈ w.coin.wires) :
    Weaves r false false [] (c.blockOps plane coin w) := by
  refine .gates BoundaryControl.isReset_blockOps fun ψ => ?_
  have hpattern : IsPattern c.state r.wires.length := by
    rw [hstate, Register.length_wires]
    exact Pattern.isPattern_ones _
  have hwires : w.controlWires = r.wires := by rw [Wiring.controlWires, hcontrol]; rfl
  rw [BoundaryControl.blockOps_of_permeable hpermeable hcontrol,
    BoundaryControl.gatesOf_reflectionOps hplane hpattern, hstate, ← Register.asks_true]
  refine Gate.actAll_under_of_zero (fun g hg d hd => ?_) fun b hb => ?_
  · intro heq
    have ht := hcoin g hg
    rw [← heq] at ht
    rcases List.mem_append.mp hd with hd | hd
    · obtain ⟨q, hq, rfl⟩ := List.mem_map.mp hd
      exact hap.control_coin (hwires.symm ▸ hq) ht
    · exact hap.position_coin (Operator.wire_mem_of_controlsOn hd) ht
  · exact if_neg (Register.not_met_asks hpos (met_append.mp hb).1)

/-- **Without transmission a block follows that of a wall**: it asks for the register, which is
set. -/
theorem BoundaryControl.follow_blockOps_shut {wall : BoundaryControl ℝ} {w₀ : Wiring} {m : ℕ}
    (hfixed : ∀ q < m, r.wireAround q = q) (hhard : wall.permeability = .hard)
    (hbare : w₀.control = none) (hposition : w.position = w₀.position) (hcoin : w.coin = w₀.coin)
    (hplane : IsPattern plane.pattern w₀.position.width) (hempty : IsPattern wall.state 0)
    (hwithin : ∀ op ∈ wall.reflectionOps plane coin w₀ [] (plane.label.or wall.label),
      op.Within m) :
    (wall.blockOps plane coin w₀).Forall₂ (Follows r.wireAround (r.asks true))
      (c.blockOps plane coin w) := by
  have hwall : wall.blockOps plane coin w₀ =
      wall.reflectionOps plane coin w₀ [] (plane.label.or wall.label) := by
    simp only [blockOps, hhard, Wiring.controlWires, hbare]
    rfl
  rw [hwall, blockOps_of_permeable hpermeable hcontrol]
  refine follow_reflectionOps_latched hfixed (Pattern.isPattern_ones _) ?_ hposition hcoin hplane
    hempty hstate hwithin
  rw [Register.asks_true]
  exact List.Subset.refl _

end blocks

end LatticeWalk
