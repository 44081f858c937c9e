import LatticeWalk.Proofs.ShiftPhase
import LatticeWalk.Proofs.Step
import LatticeWalk.Proofs.Support

/-! # The passes of a step

What coin, reversal and shift of a walk do, as far as statements about whole runs need it.

* `Plan.Sound.undo_coin`: the coin taken back, in exact arithmetic.
* `Plan.turned`: the most significant wire of the coin flipped; `Plan.Sound.read_turned` says which
  value the coin has then.
* `Plan.Sound.read_hop`, `Plan.Sound.read_coin_hop`: what position and coin registers carry after
  the shift.
* `Plan.OnPlane`, `Plan.askPlane`: the walker on a plane, and the controls that ask for it.
* `Plan.Sound.within_steps`: the operations of steps are within the layout. -/

namespace LatticeWalk

open Function (update)
open Operation (gatesOf)
open Operator (gatesOn controlsOn)

namespace Plan

variable {R : Type} [Scalar R] (plan : Plan R)

/-- The gates of the coin on its register. -/
def coinGates : List (Gate R) := gatesOn plan.coinRegister.wires plan.coin.gates

/-- The gates that take the coin back. -/
def undoGates : List (Gate R) := gatesOn plan.coinRegister.wires plan.coin.inverseGates

/-- The most significant wire of the coin. -/
def topWire : ℕ := plan.coinRegister.wire (plan.coinRegister.width - 1)

/-- The number of coin values in which the most significant wire is zero. -/
def half : ℕ := 2 ^ (plan.coinRegister.width - 1)

/-- The bits with the most significant wire of the coin flipped. -/
def turned (b : ℕ → Bool) : ℕ → Bool := update b plan.topWire (!b plan.topWire)

/-- The bits after the shift. -/
def hopped (b : ℕ → Bool) : ℕ → Bool :=
  Shift.hop plan.coinRegister plan.half plan.positionOf plan.positions.length b

/-- The walker stands on the plane. -/
def OnPlane (p : Boundary) (b : ℕ → Bool) : Prop :=
  (plan.positionOf p.dimension).read b = Pattern.value p.pattern

/-- The controls that ask whether the walker stands on the plane. -/
def askPlane (p : Boundary) : List Control :=
  controlsOn (plan.positionOf p.dimension).wires (Pattern.wireBits p.pattern)

omit [Scalar R] in
theorem map_planes : plan.planes.map Prod.snd =
    (plan.controls.map Installed.control).flatMap BoundaryControl.boundaries := by
  calc plan.planes.map Prod.snd
      = plan.controls.zipIdx.flatMap fun c => c.1.control.boundaries := by
        simp [planes, Walk.planes, Walk.ofPlan, List.map_flatMap, Function.comp_def]
    _ = (plan.controls.zipIdx.map Prod.fst).flatMap fun c => c.control.boundaries :=
        by rw [List.flatMap_map]
    _ = (plan.controls.map Installed.control).flatMap BoundaryControl.boundaries := by
        rw [List.zipIdx_map_fst, List.flatMap_map]

namespace Sound

variable {plan} {spec : WalkSpec R} (h : plan.Sound spec)
include h

/-! ### The coin -/

theorem regular_coinGates {g : Gate R} (hg : g ∈ plan.coinGates) : g.Regular := by
  have hfit : g.Fits plan.coinRegister.stop :=
    Operator.fits_gatesOn (Register.nodup_wires _) (fun q hq => (Register.mem_wires.mp hq).2)
      (Register.length_wires _) h.isCoin.plain.fits g hg
  obtain ⟨g', hg', rfl⟩ := List.mem_map.mp hg
  exact ⟨h.isCoin.standard g' hg', hfit.apart⟩

theorem target_coinGates {g : Gate R} (hg : g ∈ plan.coinGates) :
    g.target ∈ plan.coinRegister.wires :=
  Operator.target_mem_of_gatesOn (Register.length_wires _) h.isCoin.plain.fits hg

theorem undoGates_eq : plan.undoGates = Operator.undo plan.coinGates := by
  rw [undoGates, h.isCoin.plain.inverse, coinGates, gatesOn, gatesOn, Gate.undo_mapWires]

theorem target_undoGates {g : Gate R} (hg : g ∈ plan.undoGates) :
    g.target ∈ plan.coinRegister.wires := by
  have hfit : Operator.AllFit plan.coinRegister.width plan.coin.inverseGates := by
    rw [← h.isCoin.plain.wires]
    exact h.fits_coin_inverse
  exact Operator.target_mem_of_gatesOn (Register.length_wires _) hfit hg

theorem topWire_mem : plan.topWire ∈ plan.coinRegister.wires :=
  Register.wire_mem (by have := h.coin_pos; omega)

theorem turnBack_eq : BoundaryControl.turnBack plan.coin plan.coinRegister =
    plan.undoGates ++ [.plain .flip plan.topWire] := by
  rw [BoundaryControl.turnBack, Operator.gatesOn_directionReversal h.coin_pos]
  rfl

theorem target_turnBack {g : Gate R}
    (hg : g ∈ BoundaryControl.turnBack plan.coin plan.coinRegister) :
    g.target ∈ plan.coinRegister.wires :=
  BoundaryControl.target_of_turnBack h.isCoin.plain.wires h.fits_coin_inverse hg

theorem agreeOff_turned (b : ℕ → Bool) : AgreeOff plan.coinRegister.wires b (plan.turned b) :=
  fun _ hq => Function.update_of_ne (ne_of_mem_of_not_mem h.topWire_mem hq).symm _ _

theorem length_le_half : plan.positions.length ≤ plan.half := by
  obtain ⟨k, hk, hn, -⟩ := h.coin_eq
  rwa [half, hk, Nat.add_sub_cancel]

/-- The value of the coin by its most significant wire. -/
theorem read_coin (b : ℕ → Bool) : ∃ low < plan.half,
    plan.coinRegister.read b = plan.half * (b plan.topWire).toNat + low ∧
      plan.coinRegister.read (plan.turned b) = plan.half * (!b plan.topWire).toNat + low := by
  obtain ⟨k, hk, -⟩ := h.coin_eq
  have htop : plan.topWire = plan.coinRegister.start + k := by
    rw [topWire, hk, Nat.add_sub_cancel]
    rfl
  have hlow : index k (fun q => plan.turned b (plan.coinRegister.start + q)) =
      index k (fun q => b (plan.coinRegister.start + q)) := by
    refine index_congr fun q hq => Function.update_of_ne ?_ _ _
    omega
  refine ⟨index k fun q => b (plan.coinRegister.start + q), ?_, ?_, ?_⟩
  · rw [half, hk, Nat.add_sub_cancel]
    exact index_lt _ _
  · rw [Register.read, half, hk, Nat.add_sub_cancel, index_succ, htop]
  · rw [Register.read, half, hk, Nat.add_sub_cancel, index_succ, hlow, turned, htop,
      Function.update_self]

/-- **Turning round exchanges opposite moves.** -/
theorem read_turned {d : ℕ} (hd : d < plan.half) (b : ℕ → Bool) :
    (plan.coinRegister.read (plan.turned b) = d ↔ plan.coinRegister.read b = plan.half + d) ∧
      (plan.coinRegister.read (plan.turned b) = plan.half + d ↔ plan.coinRegister.read b = d) := by
  obtain ⟨low, hlow, hb, ht⟩ := h.read_coin b
  rw [hb, ht]
  cases b plan.topWire
  · simp only [Bool.toNat_false, Bool.not_false, Bool.toNat_true]
    omega
  · simp only [Bool.toNat_true, Bool.not_true, Bool.toNat_false]
    omega

/-! ### The shift -/

theorem read_coin_hop (b : ℕ → Bool) :
    plan.coinRegister.read (plan.hopped b) = plan.coinRegister.read b := by
  unfold hopped Shift.hop
  split_ifs with h1 h2
  · exact Shift.read_coin_move (fun d hd => h.coin_disjoint hd) h1 b
  · exact Shift.read_coin_move (fun d hd => h.coin_disjoint hd) h2.2 b
  · rfl

/-- **The shift moves a dimension by one** on its two values of the coin, and on no others. -/
theorem read_hop {d : ℕ} (hd : d < plan.positions.length) (b : ℕ → Bool) :
    (plan.positionOf d).read (plan.hopped b) =
      if plan.coinRegister.read b = d then
        ((plan.positionOf d).read b + 1) % 2 ^ (plan.positionOf d).width
      else if plan.coinRegister.read b = plan.half + d then
        ((plan.positionOf d).read b + 2 ^ (plan.positionOf d).width - 1) %
          2 ^ (plan.positionOf d).width
      else (plan.positionOf d).read b := by
  have hhalf := h.length_le_half
  have hother : ∀ direction e, e < plan.positions.length → e ≠ d →
      (plan.positionOf d).read (Shift.move direction (plan.positionOf e) b) =
        (plan.positionOf d).read b := fun direction e he hne =>
    Register.read_congr fun q hq => Shift.move_of_notMem
      (fun hq' => h.positions_disjoint he hd hne hq' hq) b
  unfold hopped Shift.hop
  split_ifs with h1 h2 h3 h4 h5 h6 h7 h8
  · rw [h2]
    exact Register.read_put _ _ _
  · omega
  · exact hother _ _ h1 h2
  · omega
  · rw [h6, Nat.add_sub_cancel_left]
    exact Register.read_put _ _ _
  · exact hother _ _ h4.2 (by omega)
  · omega
  · omega
  · rfl

/-! ### The planes -/

theorem mem_boundaries {p : ℕ × Boundary} (hp : p ∈ plan.planes) :
    p.2 ∈ spec.controls.flatMap BoundaryControl.boundaries := by
  rw [← h.controls, ← plan.map_planes]
  exact List.mem_map_of_mem hp

theorem met_askPlane {p : ℕ × Boundary} (hp : p ∈ plan.planes) {b : ℕ → Bool} :
    Met (plan.askPlane p.2) b ↔ plan.OnPlane p.2 b := by
  obtain ⟨c, hc, hplane⟩ := mem_planes hp
  exact Operator.met_controlsOn (h.plane_ok (List.mem_of_getElem? hc) hplane).2

/-! ### The operations of steps -/

theorem ready : (Walk.ofPlan plan).Ready spec := ⟨h, rfl⟩

theorem of_controls {P : BoundaryControl R → Prop} (hP : ∀ c ∈ spec.controls, P c) :
    ∀ c ∈ plan.controls, P c.control := fun c hc => hP _ (by
  rw [← h.controls]
  exact List.mem_map_of_mem hc)

omit h in
theorem isReset_coinOps {op : Operation R} (hop : op ∈ plan.coinOps) : op.isReset = false := by
  rw [coinOps, List.cons_append, List.mem_cons, List.mem_append, List.mem_singleton] at hop
  rcases hop with rfl | hop | rfl
  · rfl
  · obtain ⟨c, -, hop⟩ := List.mem_flatMap.mp hop
    obtain ⟨o, r, -, -, rfl⟩ := Installed.mem_coinOps hop
    rfl
  · rfl

omit h in
theorem isReset_boundaryOps {op : Operation R} (hop : op ∈ plan.boundaryOps) :
    op.isReset = false := by
  rcases List.mem_append.mp hop with hop | hop
  · obtain ⟨p, hp, hop⟩ := List.mem_flatMap.mp hop
    obtain ⟨c, hc, -⟩ := mem_planes hp
    simp only [planeOps, hc] at hop
    exact BoundaryControl.isReset_blockOps op hop
  · rw [List.mem_singleton.mp hop]
    rfl

theorem within_resetOps {step : ℕ} {op : Operation R} (hop : op ∈ plan.resetOps step) :
    op.Within plan.layout.width := by
  refine ⟨Walk.resetOps_lt h.ready step op hop, fun g hg => ?_⟩
  rw [h.gates_resetOps hop] at hg
  cases hg

theorem within_coinOps_of_controls
    (hcontrols : ∀ c ∈ plan.controls, ∀ op ∈ c.coinOps, op.Within plan.layout.width)
    {op : Operation R} (hop : op ∈ plan.coinOps) : op.Within plan.layout.width := by
  rw [coinOps, List.cons_append, List.mem_cons, List.mem_append, List.mem_singleton] at hop
  rcases hop with rfl | hop | rfl
  · exact (Operator.wellFormed_bound h.isCoin.plain.fits h.stop_coin).toWithin
  · obtain ⟨c, hc, hop⟩ := List.mem_flatMap.mp hop
    exact hcontrols c hc op hop
  · exact Operation.within_barrier _

theorem controlCoin_of_derived {c : Installed R} (hc : c ∈ plan.controls)
    (hderived : ∀ op, c.control.permeability = .permeable op → op.Derived) {op : Operation R}
    (hop : op ∈ c.coinOps) : ∃ (o : Operator R) (r : Register), op = o.bound r.wires ∧
      Operator.AllFit r.width o.gates ∧ r.stop ≤ plan.layout.width := by
  obtain ⟨o, r, hpermeable, hr, rfl⟩ := Installed.mem_coinOps hop
  have hwidth : r.width = o.wires := by
    rw [((h.wired c hc).width_register hr).1, BoundaryControl.controlWidth, hpermeable]
    rfl
  refine ⟨o, r, rfl, ?_, h.stop_control hc (by simp [Installed.registers, hr])⟩
  rw [hwidth]
  exact (hderived o hpermeable).fits.1

theorem within_coinOps_of_derived
    (hderived : ∀ c ∈ plan.controls, ∀ op, c.control.permeability = .permeable op → op.Derived)
    {op : Operation R} (hop : op ∈ plan.coinOps) : op.Within plan.layout.width := by
  refine h.within_coinOps_of_controls (fun c hc op hop => ?_) hop
  obtain ⟨o, r, rfl, hfit, hstop⟩ := h.controlCoin_of_derived hc (hderived c hc) hop
  exact (Operator.wellFormed_bound hfit hstop).toWithin

section within
variable (hcoin : ∀ op ∈ plan.coinOps, op.Within plan.layout.width) (hg : plan.Guarded)
include hcoin hg

theorem within_step {step : ℕ} {op : Operation R} (hop : op ∈ plan.stepOps step) :
    op.Within plan.layout.width := by
  simp only [stepOps, List.mem_append] at hop
  rcases hop with ((hop | hop) | hop) | hop
  · exact hcoin op hop
  · exact h.seated.within_boundaryOps hg hop
  · exact h.ready.within_moveOps op hop
  · exact h.within_resetOps hop

/-- **Steps stay within the layout.** -/
theorem within_steps {op : Operation R} :
    ∀ (n : ℕ) {steps : ℕ}, op ∈ plan.stepsFrom steps n → op.Within plan.layout.width
  | 0, _, hop => by cases hop
  | n + 1, _, hop => (List.mem_append.mp hop).elim (h.within_step hcoin hg) (within_steps n)

end within

variable (hcoin : ∀ c ∈ plan.controls, c.coinOps = [])
include hcoin

omit h in
theorem gatesOf_coinOps : gatesOf plan.coinOps = plan.coinGates := by
  rw [coinOps, List.flatMap_eq_nil_iff.mpr hcoin]
  exact List.append_nil _

theorem within_coinOps {op : Operation R} (hop : op ∈ plan.coinOps) :
    op.Within plan.layout.width :=
  h.within_coinOps_of_controls (fun c hc op hop => by rw [hcoin c hc] at hop; cases hop) hop

theorem within_stepOps (hg : ∀ c ∈ plan.controls, c.control.Sound) {step : ℕ} {op : Operation R}
    (hop : op ∈ plan.stepOps step) : op.Within plan.layout.width :=
  h.within_step (fun _ => h.within_coinOps hcoin) (.of_sound hg) hop

theorem within_stepsFrom (hg : ∀ c ∈ plan.controls, c.control.Sound) {op : Operation R} (n : ℕ)
    {steps : ℕ} (hop : op ∈ plan.stepsFrom steps n) : op.Within plan.layout.width :=
  h.within_steps (fun _ => h.within_coinOps hcoin) (.of_sound hg) n hop

end Sound

namespace Sound

variable {plan : Plan ℝ} {spec : WalkSpec ℝ} (h : plan.Sound spec)
include h

theorem actAll_moveOps {ψ : Wave ℝ}
    {P Q : (ℕ → Bool) → Prop} (hψ : ψ.Supported P) (hPQ : ∀ b, P b → Q (plan.hopped b)) :
    (Gate.actAll (gatesOf plan.moveOps) ψ).Supported Q :=
  Gate.supported_flips (fun g hg => h.isFlip_moveOps hg) hψ fun b hb => by
    rw [h.sendAll_moveOps]
    exact hPQ b hb

/-- **The coin taken back** leaves what was there before the coin. -/
theorem undo_coin (ψ : Wave ℝ) :
    Gate.actAll plan.undoGates (Gate.actAll plan.coinGates ψ) = ψ := by
  rw [h.undoGates_eq]
  exact Gate.actAll_undo (fun g hg => h.regular_coinGates hg) ψ

end Sound

end Plan

end LatticeWalk
