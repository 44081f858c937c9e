import LatticeWalk.Proofs.Pass
import LatticeWalk.Proofs.Renaming

/-! # Walks with latched walls

A walk some of whose hard walls have a latch in another walk. The registers behind a latch have
other wires there, and the blocks of a latched wall ask for the state of its latch as well.
Otherwise the second walk does in every step what the first does.

* `Register.Renamed`, `Wiring.Renamed`: registers on renamed wires.
* `Installed.Counterpart`: a control, and the same control or the wall with a latch.
* `Plan.Front`, `Plan.Counterpart`: the two plans, but for their controls and with these.
* `Plan.boundaryOps_eq`: the blocks of a step, control by control.
* `Plan.Counterpart.follow_stepsFrom`: the operations of steps follow one another. -/

namespace LatticeWalk

open Operator (gatesOn controlsOn)
open Operation (Follows)

variable {R : Type} {f : ℕ → ℕ} {cs : List Control}

/-! ### Registers -/

/-- The register on renamed wires. -/
structure Register.Renamed (f : ℕ → ℕ) (r r' : Register) : Prop where
  width : r'.width = r.width
  wire : ∀ i < r.width, r'.wire i = f (r.wire i)

namespace Register

theorem Renamed.wires {r r' : Register} (h : Renamed f r r') : r'.wires = r.wires.map f := by
  rw [Register.wires, Register.wires, List.map_map, h.width]
  exact List.map_congr_left fun i hi => h.wire i (List.mem_range.mp hi)

theorem renamed_self {r : Register} (hf : ∀ q < r.stop, f q = q) : Renamed f r r := by
  refine ⟨rfl, fun i hi => (hf _ ?_).symm⟩
  rw [Register.wire, stop]
  omega

theorem Renamed.or_none {o o' : Option Register} (h : Option.Rel (Renamed f) o o') :
    (o = none ∧ o' = none) ∨ ∃ r r', o = some r ∧ o' = some r' ∧ r.Renamed f r' := by
  cases h with
  | some h => exact .inr ⟨_, _, rfl, rfl, h⟩
  | none => exact .inl ⟨rfl, rfl⟩

theorem Renamed.getD_wires {o o' : Option Register} (h : Option.Rel (Renamed f) o o') :
    (o'.map Register.wires).getD [] = ((o.map Register.wires).getD []).map f := by
  obtain ⟨rfl, rfl⟩ | ⟨r, r', rfl, rfl, hrenamed⟩ := Renamed.or_none h
  · rfl
  · exact hrenamed.wires

end Register

/-- The registers of a block on renamed wires. -/
structure Wiring.Renamed (f : ℕ → ℕ) (w w' : Wiring) : Prop where
  position : w.position.Renamed f w'.position
  coin : w.coin.Renamed f w'.coin
  control : Option.Rel (Register.Renamed f) w.control w'.control
  ancilla : Option.Rel (Register.Renamed f) w.ancilla w'.ancilla

theorem Wiring.Renamed.controlWires {w w' : Wiring} (h : w.Renamed f w') :
    w'.controlWires = w.controlWires.map f := Register.Renamed.getD_wires h.control

/-! ### Operations on renamed wires -/

theorem Operation.follows_barrier : (Operation.barrier : Operation R).Follows f cs .barrier :=
  follows_of_map rfl rfl

section blocks
variable (hf : f 0 = 0)
include hf

theorem Operator.gatesOn_map (ws : List ℕ) (gs : List (Gate R)) :
    gatesOn (ws.map f) gs = (gatesOn ws gs).map (Gate.mapWires f) := by
  have hwire : ∀ q, (ws.map f).getD q 0 = f (ws.getD q 0) := by
    intro q
    calc (ws.map f).getD q 0 = (ws.map f).getD q (f 0) := by rw [hf]
      _ = f (ws.getD q 0) := List.getD_map ..
  simp only [gatesOn, List.map_map]
  refine List.map_congr_left fun g _ => ?_
  simp only [Gate.mapWires, Function.comp_apply, hwire, List.map_map, Gate.mk.injEq, true_and]
  exact List.map_congr_left fun c _ => rfl

theorem Operator.follows_bound (op : Operator R) (ws : List ℕ) :
    (op.bound ws).Follows f cs (op.bound (ws.map f)) :=
  Operation.follows_of_map (gatesOn_map hf ws op.gates) rfl

namespace BoundaryControl

theorem follows_conditionalOp (op : Operator R) (bits : ℕ) (pattern : String) (inverted : Bool)
    (label : Option String) (ws : List ℕ) :
    (conditionalOp op bits pattern inverted label ws).Follows f cs
      (conditionalOp op bits pattern inverted label (ws.map f)) :=
  Operation.follows_of_map (Operator.gatesOn_map hf ws _) rfl

variable [Scalar R] {w w' : Wiring} (hw : w.Renamed f w') (c : BoundaryControl R) (plane : Boundary)
  (coin : Operator R) (label : Option String)
include hw

theorem follow_reflectionOps :
    (c.reflectionOps plane coin w w.controlWires label).Forall₂ (Follows f cs)
      (c.reflectionOps plane coin w' w'.controlWires label) := by
  have hwires : w'.controlWires ++ w'.position.wires ++ w'.coin.wires =
      (w.controlWires ++ w.position.wires ++ w.coin.wires).map f := by
    rw [List.map_append, List.map_append, hw.controlWires, hw.position.wires, hw.coin.wires]
  have hlen : w'.controlWires.length = w.controlWires.length := by
    rw [hw.controlWires, List.length_map]
  simp only [reflectionOps, hwires, hlen, hw.position.width, hw.coin.width]
  exact .cons (follows_conditionalOp hf ..) (.cons (follows_conditionalOp hf ..)
    (.cons Operation.follows_barrier .nil))

theorem follow_valveOps (counter : Operator R) (blocked permitted direction : ℕ) :
    (c.valveOps counter plane coin w w.controlWires label blocked permitted direction).Forall₂
      (Follows f cs) (c.valveOps counter plane coin w' w'.controlWires label (f blocked)
        (f permitted) (f direction)) := by
  have honCoin : w'.position.wires ++ w'.coin.wires =
      (w.position.wires ++ w.coin.wires).map f := by
    rw [List.map_append, hw.position.wires, hw.coin.wires]
  have hflag : ∀ flag, f direction :: w'.position.wires ++ [f flag] =
      (direction :: w.position.wires ++ [flag]).map f := by
    simp [hw.position.wires]
  have hcount : w'.position.wires ++ w'.controlWires =
      (w.position.wires ++ w.controlWires).map f := by
    rw [List.map_append, hw.position.wires, hw.controlWires]
  have hpass : w'.controlWires ++ [f permitted] ++ (w.position.wires ++ w.coin.wires).map f =
      (w.controlWires ++ [permitted] ++ (w.position.wires ++ w.coin.wires)).map f := by
    simp [hw.controlWires]
  have hlen : w'.controlWires.length = w.controlWires.length := by
    rw [hw.controlWires, List.length_map]
  simp only [valveOps, hpass, hflag, hcount, honCoin, hlen, hw.position.width, hw.coin.width]
  exact .cons (follows_conditionalOp hf ..) (.cons (follows_conditionalOp hf ..)
    (.cons (follows_conditionalOp hf ..) (.cons (follows_conditionalOp hf ..)
      (.cons (follows_conditionalOp hf ..) (.cons (follows_conditionalOp hf ..)
        (.cons Operation.follows_barrier .nil))))))

/-- **A block on renamed wires** follows the block. -/
theorem follow_blockOps (hcoin : 0 < w.coin.width)
    (hancilla : ∀ a, w.ancilla = some a → a.width = 2) :
    (c.blockOps plane coin w).Forall₂ (Follows f cs) (c.blockOps plane coin w') := by
  have hreflection :
      (c.reflectionOps plane coin w w.controlWires (plane.label.or c.label)).Forall₂ (Follows f cs)
        (c.reflectionOps plane coin w' w'.controlWires (plane.label.or c.label)) :=
    follow_reflectionOps hf hw c plane coin _
  unfold blockOps
  cases c.permeability with
  | oneWay bits =>
    obtain ⟨ha, ha'⟩ | ⟨a, a', ha, ha', hrel⟩ := Register.Renamed.or_none hw.ancilla
    · simp only [ha, ha']
      exact hreflection
    · have hwidth := hancilla a ha
      have htop : w'.coin.wire (w'.coin.width - 1) = f (w.coin.wire (w.coin.width - 1)) := by
        rw [hw.coin.width]
        exact hw.coin.wire _ (by omega)
      simp only [ha, ha', hrel.wire 0 (by omega), hrel.wire 1 (by omega), htop]
      exact follow_valveOps hf hw c plane coin _ _ _ _ _
  | _ => exact hreflection

end BoundaryControl

end blocks

/-! ### Operations under a latch -/

section latch
variable {m : ℕ} (hfixed : ∀ q < m, f q = q)
include hfixed

theorem Gate.follows_under {g : Gate R} {ds es : List Control} (hg : (g.under es).Fits m)
    (hds : ds ⊆ cs) : (g.under es).Follows f cs (g.under (ds ++ es)) := by
  refine ⟨ds, hds, ?_⟩
  rw [hg.mapWires_eq hfixed]
  simp [Gate.under]

namespace BoundaryControl

variable {r : Register} {state : String} (hstate : IsPattern state r.width)
  (hasked : controlsOn r.wires (Pattern.wireBits state) ⊆ cs)
include hstate hasked

/-- An operator under the control of a position, and then of a latch in front as well. -/
theorem follows_conditionalOp_latched {op : Operator R} {p : Register} {pattern : String}
    (hp : IsPattern pattern p.width) {inverted : Bool} {label label' : Option String}
    {back : List ℕ}
    (hop : (conditionalOp op p.width pattern inverted label (p.wires ++ back)).Within m) :
    (conditionalOp op p.width pattern inverted label (p.wires ++ back)).Follows f cs
      (conditionalOp op (p.width + r.width) (pattern ++ state) inverted label'
        (r.wires ++ p.wires ++ back)) := by
  have hlen : (r.wires ++ p.wires).length = p.width + r.width := by
    simp [Nat.add_comm]
  have hgates : (conditionalOp op p.width pattern inverted label (p.wires ++ back)).gates =
      (Operator.gatesOn back (op.body inverted)).map
        (Gate.under (controlsOn p.wires (Pattern.wireBits pattern))) :=
    gates_conditionalOp hp (Register.length_wires p) inverted label
  have hfits := hop.gates
  have hcontrols : controlsOn (r.wires ++ p.wires) (Pattern.wireBits (pattern ++ state)) =
      controlsOn r.wires (Pattern.wireBits state) ++
        controlsOn p.wires (Pattern.wireBits pattern) := by
    rw [Pattern.wireBits_append, Operator.controlsOn_append
      ((Register.length_wires r).trans (Pattern.length_wireBits_of hstate).symm)]
  refine ⟨?_, rfl⟩
  rw [hgates] at hfits ⊢
  rw [gates_conditionalOp (Pattern.isPattern_append hp hstate) hlen, hcontrols,
    List.forall₂_map_left_iff, List.forall₂_map_right_iff, List.forall₂_same]
  intro g hg
  exact Gate.follows_under hfixed (hfits _ (List.mem_map_of_mem hg)) hasked

variable [Scalar R] {w w' : Wiring} {c c' : BoundaryControl R} {plane : Boundary}
  {coin : Operator R} {label label' : Option String}

/-- **The block of a hard wall, and that of the wall with a latch.** -/
theorem follow_reflectionOps_latched (hposition : w'.position = w.position)
    (hcoin : w'.coin = w.coin) (hplane : IsPattern plane.pattern w.position.width)
    (hempty : IsPattern c.state 0) (hlatch : c'.state = state)
    (hwithin : ∀ op ∈ c.reflectionOps plane coin w [] label, op.Within m) :
    (c.reflectionOps plane coin w [] label).Forall₂ (Follows f cs)
      (c'.reflectionOps plane coin w' r.wires label') := by
  have hstate0 : plane.pattern ++ c.state = plane.pattern := by
    rw [String.length_eq_zero_iff.mp hempty.length, String.append_empty]
  simp only [reflectionOps, hposition, hcoin, hlatch, hstate0, List.nil_append, List.length_nil,
    Nat.add_zero, Register.length_wires, List.forall_mem_cons] at hwithin ⊢
  exact .cons (follows_conditionalOp_latched hfixed hstate hasked hplane hwithin.1)
    (.cons (follows_conditionalOp_latched hfixed hstate hasked hplane hwithin.2.1)
      (.cons Operation.follows_barrier .nil))

end BoundaryControl

end latch

/-! ### Controls -/

/-- **What has become of a control**: it is the same on renamed wires, or it is a hard wall that has
a latch now, whose state the controls ask for. -/
inductive Installed.Counterpart (f : ℕ → ℕ) (cs : List Control) (c c' : Installed R) : Prop
  | kept (control : c'.control = c.control)
      (register : Option.Rel (Register.Renamed f) c.register c'.register)
      (ancilla : Option.Rel (Register.Renamed f) c.ancilla c'.ancilla)
  | shut (n : ℕ) (r : Register) (hard : c.control.permeability = .hard)
      (absorbing : c'.control.permeability = .absorbing n)
      (boundaries : c'.control.boundaries = c.control.boundaries)
      (bare : c.register = none ∧ c.ancilla = none)
      (latch : c'.register = some r ∧ c'.ancilla = none)
      (state : IsPattern c'.control.state r.width)
      (asked : controlsOn r.wires (Pattern.wireBits c'.control.state) ⊆ cs)

namespace Installed.Counterpart

variable [Scalar R] {c c' : Installed R} (h : c.Counterpart f cs c')
include h

omit [Scalar R] in
theorem boundaries_eq : c'.control.boundaries = c.control.boundaries := by
  cases h with
  | kept control => rw [control]
  | shut _ _ _ _ boundaries => exact boundaries

theorem follow_coinOps (hf : f 0 = 0) : c.coinOps.Forall₂ (Follows f cs) c'.coinOps := by
  cases h with
  | kept control register _ =>
    unfold coinOps
    rw [control]
    obtain ⟨hr, hr'⟩ | ⟨r, r', hr, hr', hrel⟩ := Register.Renamed.or_none register
    · rw [hr, hr']
      cases c.control.coinOperator? <;> exact .nil
    · rw [hr, hr']
      cases c.control.coinOperator? with
      | none => exact .nil
      | some op =>
        simp only [hrel.wires]
        exact .cons (Operator.follows_bound hf op _) .nil
  | shut n r hard absorbing =>
    have hnone : c.coinOps = [] := coinOps_eq_nil fun op hop => by
      rw [hard] at hop
      cases hop
    have hnone' : c'.coinOps = [] := coinOps_eq_nil fun op hop => by
      rw [absorbing] at hop
      cases hop
    rw [hnone, hnone']
    exact .nil

omit [Scalar R] in
/-- **A latch is never reset**, and all other registers are as before. -/
theorem follow_resetScript :
    (c.control.resetScript c.register c.ancilla).Forall₂ (Follows f cs)
      (c'.control.resetScript c'.register c'.ancilla) := by
  cases h with
  | kept control register ancilla =>
    have htargets : c'.control.resetTargets c'.register c'.ancilla =
        (c.control.resetTargets c.register c.ancilla).map f := by
      rw [control, BoundaryControl.resetTargets, BoundaryControl.resetTargets, List.map_append,
        Register.Renamed.getD_wires register, Register.Renamed.getD_wires ancilla]
      split_ifs <;> rfl
    rw [BoundaryControl.resetScript, BoundaryControl.resetScript, htargets, control]
    simp only [List.isEmpty_map]
    split_ifs
    · exact .nil
    · rw [List.forall₂_iff_get]
      refine ⟨by simp, fun i hi hi' => ?_⟩
      simp only [List.get_eq_getElem, List.getElem_replicate]
      exact Operation.follows_of_map rfl rfl
  | shut n r hard absorbing _ bare latch =>
    simp [BoundaryControl.resetScript, BoundaryControl.resetTargets,
      BoundaryControl.resetsRegister, hard, absorbing, bare.2, latch.2]

end Installed.Counterpart

/-! ### Plans -/

/-- **The two plans, but for their controls**: all is the same, on wires that keep their names. -/
structure Plan.Front (f : ℕ → ℕ) (plan plan' : Plan R) : Prop where
  positions : plan'.positions = plan.positions
  coinRegister : plan'.coinRegister = plan.coinRegister
  coin : plan'.coin = plan.coin
  initial : plan'.initial = plan.initial
  decoherence : plan'.decoherence = plan.decoherence
  fixed : ∀ q < plan.coinRegister.stop, f q = q

/-- **The two plans**: their controls are counterparts, and all else is the same, on wires that keep
their names. -/
structure Plan.Counterpart (f : ℕ → ℕ) (cs : List Control) (plan plan' : Plan R) : Prop where
  positions : plan'.positions = plan.positions
  coinRegister : plan'.coinRegister = plan.coinRegister
  coin : plan'.coin = plan.coin
  initial : plan'.initial = plan.initial
  decoherence : plan'.decoherence = plan.decoherence
  controls : plan.controls.Forall₂ (Installed.Counterpart f cs) plan'.controls
  fixed : ∀ q < plan.coinRegister.stop, f q = q

theorem Plan.Counterpart.front {plan plan' : Plan R} (h : plan.Counterpart f cs plan') :
    plan.Front f plan' :=
  ⟨h.positions, h.coinRegister, h.coin, h.initial, h.decoherence, h.fixed⟩

theorem List.Forall₂.exists_getElem? {α β : Type} {rel : α → β → Prop} {as : List α} {bs : List β}
    (h : as.Forall₂ rel bs) {i : ℕ} {a : α} (ha : as[i]? = some a) :
    ∃ b, bs[i]? = some b ∧ rel a b := by
  obtain ⟨hi, rfl⟩ := List.getElem?_eq_some_iff.mp ha
  obtain ⟨hlen, hget⟩ := List.forall₂_iff_get.mp h
  exact ⟨bs.get ⟨i, hlen ▸ hi⟩, List.getElem?_eq_getElem _, hget i hi (hlen ▸ hi)⟩

theorem Plan.Sound.within_bare_reflection [Scalar R] {plan : Plan R} {spec : WalkSpec R}
    (h : plan.Sound spec) {c : Installed R} (hc : c ∈ plan.controls) {plane : Boundary}
    (hplane : plane ∈ c.control.boundaries) (hbare : c.register = none ∧ c.ancilla = none)
    (hstate : IsPattern c.control.state 0) (label : Option String) :
    ∀ op ∈ c.control.reflectionOps plane plan.coin (plan.wiring c plane) [] label,
      op.Within plan.coinRegister.stop := by
  obtain ⟨hd, hpattern⟩ := h.plane_ok hc hplane
  have hnone : (plan.wiring c plane).controlWires = [] := by
    simp [Wiring.controlWires, wiring, hbare.1]
  have hapart : (plan.wiring c plane).Apart plan.coinRegister.stop := by
    refine ⟨(h.wiring_apart hc hd).disjoint, fun r hr => ?_⟩
    simp only [wiring, hbare.1, hbare.2, Option.toList_none, List.append_nil, List.mem_cons,
      List.not_mem_nil, or_false] at hr
    rcases hr with rfl | rfl
    · exact (h.position_coin hd).trans (Nat.le_add_right _ _)
    · exact le_rfl
  rw [← hnone]
  have hbuilt : c.control.reflection plane plan.coin (plan.wiring c plane)
      (plan.wiring c plane).controlWires label = .ok _ :=
    BoundaryControl.reflection_eq_ok hpattern (by rwa [hnone]) h.isCoin.plain.wires label
  exact fun op hop =>
    (BoundaryControl.wellFormed_reflection hapart h.fits_coin_inverse hbuilt op hop).toWithin

namespace Plan.Front

variable {plan plan' : Plan R} (h : plan.Front f plan')
include h

theorem positionOf_eq : plan'.positionOf = plan.positionOf := by
  funext d
  rw [Plan.positionOf, Plan.positionOf, h.positions, h.coinRegister]

theorem renamed_coin : plan.coinRegister.Renamed f plan'.coinRegister := by
  rw [h.coinRegister]
  exact Register.renamed_self h.fixed

/-- What stays on the wires of position and coin is the same. -/
theorem follows_within {op : Operation R} (hop : op.Within plan.coinRegister.stop) :
    op.Follows f cs op := Operation.follows_self hop h.fixed

variable [Scalar R] {spec : WalkSpec R} (hplan : plan.Sound spec)
include hplan

theorem fixed_zero : f 0 = 0 := by
  have hcoin := hplan.coin_pos
  exact h.fixed 0 (by rw [Register.stop]; omega)

theorem renamed_position {d : ℕ} (hd : d < plan.positions.length) :
    (plan.positionOf d).Renamed f (plan'.positionOf d) := by
  rw [h.positionOf_eq]
  refine Register.renamed_self fun q hq => h.fixed q ?_
  have hcoin := hplan.position_coin hd
  rw [Register.stop]
  omega

theorem follows_coin : (plan.coin.bound plan.coinRegister.wires).Follows f cs
    (plan'.coin.bound plan'.coinRegister.wires) := by
  rw [h.coin, h.renamed_coin.wires]
  exact Operator.follows_bound (h.fixed_zero hplan) _ _

/-- **The blocks of a control and of its counterpart.** -/
theorem follow_blockOps {c c' : Installed R} (hc : c ∈ plan.controls)
    (hcounter : c.Counterpart f cs c') {plane : Boundary}
    (hplane : plane ∈ c.control.boundaries) (hsound : c.control.Sound) :
    (c.control.blockOps plane plan.coin (plan.wiring c plane)).Forall₂ (Follows f cs)
      (c'.control.blockOps plane plan'.coin (plan'.wiring c' plane)) := by
  obtain ⟨hd, hpattern⟩ := hplan.plane_ok hc hplane
  have hposition := h.renamed_position hplan hd
  rw [h.coin]
  cases hcounter with
  | kept control register ancilla =>
    rw [control]
    refine BoundaryControl.follow_blockOps (h.fixed_zero hplan)
      ⟨hposition, h.renamed_coin, register, ancilla⟩ _ _ _ hplan.coin_pos fun a ha => ?_
    exact (hplan.wired c hc).width_ancilla ha
  | shut n r hard absorbing boundaries bare latch state asked =>
    have hempty : IsPattern c.control.state 0 := by
      have hstate := hsound.state
      rwa [BoundaryControl.controlWidth, hard] at hstate
    have hwithin : ∀ op ∈ c.control.reflectionOps plane plan.coin (plan.wiring c plane) []
        (plane.label.or c.control.label), op.Within plan.coinRegister.stop :=
      hplan.within_bare_reflection hc hplane bare hempty _
    have hwires : (plan.wiring c plane).controlWires = [] := by
      rw [Wiring.controlWires, wiring, bare.1]
      rfl
    have hwires' : (plan'.wiring c' plane).controlWires = r.wires := by
      rw [Wiring.controlWires, wiring, latch.1]
      rfl
    rw [BoundaryControl.blockOps_eq_reflectionOps (by simp [hard]),
      BoundaryControl.blockOps_eq_reflectionOps (by simp [absorbing]), hwires, hwires']
    exact BoundaryControl.follow_reflectionOps_latched h.fixed state asked
      (congrFun h.positionOf_eq plane.dimension) h.coinRegister hpattern hempty rfl hwithin

theorem follow_blocksOf {c c' : Installed R} (hc : c ∈ plan.controls)
    (hcounter : c.Counterpart f cs c')
    (hsound : c.control.boundaries ≠ [] → c.control.Sound) :
    (plan.blocksOf c).Forall₂ (Follows f cs) (plan'.blocksOf c') := by
  have hsame : c.control.boundaries.Forall₂ (fun p p' => p ∈ c.control.boundaries ∧ p' = p)
      c'.control.boundaries := by
    rw [hcounter.boundaries_eq, List.forall₂_same]
    exact fun p hp => ⟨hp, rfl⟩
  refine List.rel_flatMap hsame ?_
  rintro p _ ⟨hp, rfl⟩
  exact h.follow_blockOps hplan hc hcounter hp (hsound (List.ne_nil_of_mem hp))

theorem follow_moveOps : plan.moveOps.Forall₂ (Follows f cs) plan'.moveOps := by
  have hsame : plan'.moveOps = plan.moveOps := by
    rw [moveOps, moveOps, h.positions, h.coinRegister, h.positionOf_eq]
  rw [hsame, List.forall₂_same]
  intro op hop
  obtain ⟨d, hd, v, direction, hop⟩ := Walk.mem_moveOps hop
  have hstop : (plan.positionOf d).stop ≤ plan.coinRegister.stop :=
    (hplan.position_coin hd).trans (Nat.le_add_right _ _)
  have hsimple := Shift.simple_of_wrapped hop
  refine h.follows_within (Operation.wellFormed_of_fits hsimple fun g hg => ?_).toWithin
  exact Shift.fits_wrapped (hplan.coin_disjoint hd) le_rfl hstop (Pattern.isPattern_ofValue _ _)
    (List.mem_flatMap.mpr ⟨op, hop, hg⟩)

theorem follow_decoherence (step : ℕ) :
    ((Walk.ofPlan plan).decoherenceAfter step).Forall₂ (Follows f cs)
      ((Walk.ofPlan plan').decoherenceAfter step) := by
  have hdecoherence : (Walk.ofPlan plan').decoherenceAfter step =
      (Walk.ofPlan plan).decoherenceAfter step := by
    simp only [Walk.decoherenceAfter, Walk.ofPlan, h.decoherence, h.coinRegister]
  rw [hdecoherence, List.forall₂_same]
  intro op hop
  obtain ⟨cycle, hcycle, rfl⟩ := hplan.eq_reset_of_decoherence hop
  refine Operation.follows_of_map rfl ?_
  refine ((List.map_congr_left fun q hq => h.fixed q ?_).trans (List.map_id _)).symm
  obtain ⟨t, ht, rfl⟩ := List.mem_map.mp hq
  have hlt := hplan.target_lt hcycle ht
  rw [Register.wire, Register.stop, hplan.coinRegister]
  omega

end Plan.Front

namespace Plan.Counterpart

variable {plan plan' : Plan R} (h : plan.Counterpart f cs plan')
include h

variable [Scalar R] {spec : WalkSpec R} (hplan : plan.Sound spec)
include hplan

theorem follow_coinOps : plan.coinOps.Forall₂ (Follows f cs) plan'.coinOps :=
  List.rel_append (.cons (h.front.follows_coin hplan) (List.rel_flatMap h.controls fun _ _ hc =>
    hc.follow_coinOps (h.front.fixed_zero hplan))) (.cons Operation.follows_barrier .nil)

theorem follow_boundaryOps (hg : plan.Guarded) :
    plan.boundaryOps.Forall₂ (Follows f cs) plan'.boundaryOps := by
  rw [boundaryOps_eq, boundaryOps_eq]
  have hcontrols := (List.forall₂_and_left _ _).mpr
    ⟨fun c (hc : c ∈ plan.controls) => hc, h.controls⟩
  refine List.rel_append (List.rel_flatMap hcontrols ?_) (.cons Operation.follows_barrier .nil)
  rintro c c' ⟨hc, hcounter⟩
  exact h.front.follow_blocksOf hplan hc hcounter (hg c hc)

theorem follow_resetOps (step : ℕ) :
    (plan.resetOps step).Forall₂ (Follows f cs) (plan'.resetOps step) :=
  List.rel_append (List.rel_flatMap h.controls fun _ _ hc => hc.follow_resetScript)
    (h.front.follow_decoherence hplan step)

/-! ### Steps -/

variable (hg : plan.Guarded)
include hg

theorem follow_stepOps (step : ℕ) :
    (plan.stepOps step).Forall₂ (Follows f cs) (plan'.stepOps step) :=
  List.rel_append (List.rel_append (List.rel_append (h.follow_coinOps hplan)
    (h.follow_boundaryOps hplan hg)) (h.front.follow_moveOps hplan)) (h.follow_resetOps hplan step)

/-- **The operations of steps follow one another.** -/
theorem follow_stepsFrom : ∀ n steps : ℕ,
    (plan.stepsFrom steps n).Forall₂ (Follows f cs) (plan'.stepsFrom steps n)
  | 0, _ => .nil
  | n + 1, steps =>
    List.rel_append (h.follow_stepOps hplan hg (steps + 1)) (follow_stepsFrom n (steps + 1))

end Plan.Counterpart

end LatticeWalk
