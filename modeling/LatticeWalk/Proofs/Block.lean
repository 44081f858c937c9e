import LatticeWalk.Proofs.Cascade
import LatticeWalk.Proofs.Operator
import LatticeWalk.Proofs.Program
import LatticeWalk.Boundary.Block

/-! # Boundary blocks

The operations of a block, written out, and the gates that they consist of.

* `BoundaryControl.conditionalOp`: an operator under control on the wires of a program; its gates
  are those of the operator under the controls of the pattern (`gates_conditionalOp`).
* `BoundaryControl.blockOps`: the operations of a block; `block_eq_ok` says when they are what
  `BoundaryControl.block` gives, and `sound_of_block` that a control is sound then.
* `gatesOf_reflectionOps`, `gatesOf_valveOps`: the gates of the two sorts of blocks;
  `target_blockOps` says what they act on.
* `BoundaryControl.wellFormed_block`: the operations of a block that is built, which may be that of
  any plane, are in order. -/

namespace LatticeWalk

open Operation (gatesOf)
open Operator (gatesOn controlsOn)

variable {R : Type}

/-! ### The gates of the small operators -/

namespace Operator

variable [Scalar R]

theorem gatesOn_directionReversal {r : Register} (h : 0 < r.width) :
    gatesOn r.wires (directionReversal r.width : Operator R).gates =
      [.plain .flip (r.wire (r.width - 1))] := by
  have hwire : r.wires.getD (r.width - 1) 0 = r.wire (r.width - 1) := by
    rw [List.getD_eq_getElem _ _ (by rw [Register.length_wires]; omega)]
    simp [Register.wires]
  simp only [directionReversal, ofGates, if_neg h.ne', gatesOn, List.map_cons, List.map_nil,
    Gate.mapWires, Gate.plain, hwire]

theorem gatesOn_cyclicIncrement (r : Register) :
    gatesOn r.wires (cyclicIncrement r.width : Operator R).gates = r.borrowGates := by
  have hwire : ∀ i < r.width, r.wires.getD i 0 = r.wire i := by
    intro i hi
    rw [List.getD_eq_getElem _ _ (by rwa [Register.length_wires])]
    simp [Register.wires]
  simp only [cyclicIncrement, ofGates, gatesOn, List.map_map, Register.borrowGates]
  refine List.map_congr_left fun i hi => ?_
  rw [List.mem_range] at hi
  simp only [Function.comp_apply, Gate.controlled, Gate.mapWires, Register.borrowGate, hwire i hi,
    List.map_map]
  congr 1
  refine List.map_congr_left fun j hj => ?_
  rw [List.mem_range] at hj
  rw [Function.comp_apply, hwire j (hj.trans hi)]
  rfl

theorem gatesOn_crossingFlag (w : ℕ) :
    gatesOn [w] (crossingFlag : Operator R).gates = [.plain .flip w] := rfl

omit [Scalar R] in
theorem wellFormed_apply {n : ℕ} {name : String} {label : Option String} {wires : List ℕ}
    {gs : List (Gate R)} (hnd : wires.Nodup) (hlt : ∀ q ∈ wires, q < n)
    (hfit : AllFit wires.length gs) :
    (Operation.apply name label wires (gatesOn wires gs)).WellFormed n where
  wires := hlt
  gates := fits_gatesOn hnd hlt rfl hfit
  distinct _ := hnd
  listed g hg q hq := by
    obtain ⟨g', hg', rfl⟩ := List.mem_map.mp hg
    rw [Gate.wires_mapWires] at hq
    obtain ⟨i, hi, rfl⟩ := List.mem_map.mp hq
    have hlen : i < wires.length := (Gate.fits_iff.mp (hfit g' hg')).1 i hi
    rw [List.getD_eq_getElem _ _ hlen]
    exact List.getElem_mem hlen

end Operator

namespace BoundaryControl

/-! ### Operators under control -/

/-- The operation that `conditional` gives for a pattern and wires of the right widths. -/
def conditionalOp (op : Operator R) (bits : ℕ) (pattern : String) (inverted : Bool)
    (label : Option String) (wires : List ℕ) : Operation R :=
  let controlled := op.underPattern bits pattern inverted label
  .apply controlled.name controlled.label wires (gatesOn wires controlled.gates)

theorem conditional_eq_ok {op : Operator R} {bits : ℕ} {pattern : String}
    (hp : IsPattern pattern bits) {wires : List ℕ} (hw : wires.length = op.wires + bits)
    (inverted : Bool) (label : Option String) :
    conditional op bits pattern inverted label wires =
      .ok (conditionalOp op bits pattern inverted label wires) := by
  have hcontrol : op.control bits (some pattern) inverted label =
      .ok (op.underPattern bits pattern inverted label) := Operator.control_eq_ok.mpr ⟨hp, rfl⟩
  unfold conditional
  rw [hcontrol]
  exact if_pos hw

theorem gates_conditionalOp {op : Operator R} {bits : ℕ} {pattern : String}
    (hp : IsPattern pattern bits) {front back : List ℕ} (hf : front.length = bits)
    (inverted : Bool) (label : Option String) :
    (conditionalOp op bits pattern inverted label (front ++ back)).gates =
      (gatesOn back (op.body inverted)).map
        (Gate.under (controlsOn front (Pattern.wireBits pattern))) :=
  Operator.gatesOn_extend (by rw [hf, Pattern.length_wireBits_of hp]) _

/-- What is given is that operation, and pattern and wires are of the right widths. -/
theorem eq_conditionalOp_of_conditional {op : Operator R} {bits : ℕ} {pattern : String}
    {inverted : Bool} {label : Option String} {wires : List ℕ} {operation : Operation R}
    (h : conditional op bits pattern inverted label wires = .ok operation) :
    IsPattern pattern bits ∧ wires.length = op.wires + bits ∧
      operation = conditionalOp op bits pattern inverted label wires := by
  obtain ⟨controlled, hcontrol, h⟩ := Except.bind_eq_ok.mp h
  obtain ⟨hp, rfl⟩ := Operator.control_eq_ok.mp hcontrol
  obtain ⟨hlen, rfl⟩ := Operator.eq_of_bind h
  exact ⟨hp, hlen, rfl⟩

theorem wellFormed_conditional {n : ℕ} {op : Operator R} {bits : ℕ} {pattern : String}
    {inverted : Bool} {label : Option String} {wires : List ℕ}
    (hwires : wires.Nodup ∧ ∀ q ∈ wires, q < n)
    (hfit : Operator.AllFit op.wires (op.body inverted)) {operation : Operation R}
    (h : conditional op bits pattern inverted label wires = .ok operation) :
    operation.WellFormed n := by
  obtain ⟨hp, hlen, rfl⟩ := eq_conditionalOp_of_conditional h
  refine Operator.wellFormed_apply hwires.1 hwires.2 fun g hg => ?_
  obtain ⟨g', hg', rfl⟩ := List.mem_map.mp hg
  rw [hlen, ← Pattern.length_wireBits_of hp]
  exact Operator.fits_extendGate (hfit g' hg')

variable [Scalar R]

/-! ### The block of a reflection -/

/-- The operations of a reflection. -/
def reflectionOps (c : BoundaryControl R) (plane : Boundary) (coin : Operator R) (w : Wiring)
    (control : List ℕ) (label : Option String) : List (Operation R) :=
  let bits := w.position.width + control.length
  let pattern := plane.pattern ++ c.state
  let wires := control ++ w.position.wires ++ w.coin.wires
  [conditionalOp coin bits pattern true label wires,
    conditionalOp (.directionReversal w.coin.width) bits pattern false label wires, .barrier]

theorem isReset_reflectionOps {c : BoundaryControl R} {plane : Boundary} {coin : Operator R}
    {w : Wiring} {control : List ℕ} {label : Option String} :
    ∀ op ∈ c.reflectionOps plane coin w control label, op.isReset = false := by
  intro op hop
  simp only [reflectionOps, List.mem_cons, List.not_mem_nil, or_false] at hop
  rcases hop with rfl | rfl | rfl <;> rfl

/-- The coin taken back, and its most significant wire flipped. -/
def turnBack (coin : Operator R) (r : Register) : List (Gate R) :=
  gatesOn r.wires coin.inverseGates ++ gatesOn r.wires (Operator.directionReversal r.width).gates

theorem target_of_turnBack {coin : Operator R} {r : Register} (hcoin : coin.wires = r.width)
    (hfit : Operator.AllFit coin.wires coin.inverseGates) {g : Gate R} (hg : g ∈ turnBack coin r) :
    g.target ∈ r.wires := by
  rcases List.mem_append.mp hg with hg | hg
  · exact Operator.target_mem_of_gatesOn (by rw [Register.length_wires, hcoin]) hfit hg
  · exact Operator.target_mem_of_gatesOn (Register.length_wires _)
      (Operator.Derived.directionReversal _).fits.1 hg

section
variable {c : BoundaryControl R} {plane : Boundary} {coin : Operator R} {w : Wiring}
  {control : List ℕ}

/-- A reflection that is built consists of these operations, and plane and state together are a
pattern for position and control wires. -/
theorem eq_reflectionOps_of_reflection {label : Option String} {ops : List (Operation R)}
    (h : c.reflection plane coin w control label = .ok ops) :
    IsPattern (plane.pattern ++ c.state) (w.position.width + control.length) ∧
      ops = c.reflectionOps plane coin w control label := by
  obtain ⟨_, hback, h⟩ := Except.bind_eq_ok.mp h
  obtain ⟨_, hturn, h⟩ := Except.bind_eq_ok.mp h
  obtain ⟨hp, -, rfl⟩ := eq_conditionalOp_of_conditional hback
  obtain ⟨-, -, rfl⟩ := eq_conditionalOp_of_conditional hturn
  exact ⟨hp, (Except.ok.inj h).symm⟩

theorem gatesOf_reflectionOps_of_isPattern
    (hp : IsPattern (plane.pattern ++ c.state) (w.position.width + control.length))
    (label : Option String) : gatesOf (c.reflectionOps plane coin w control label) =
      (turnBack coin w.coin).map (Gate.under (controlsOn (control ++ w.position.wires)
        (Pattern.wireBits (plane.pattern ++ c.state)))) := by
  have hf : (control ++ w.position.wires).length = w.position.width + control.length := by
    simp [Nat.add_comm]
  simp only [reflectionOps, Operation.gatesOf_cons, Operation.gatesOf_nil,
    gates_conditionalOp hp hf, turnBack, List.map_append]
  simp [Operation.gates, Operator.body]

variable (hplane : IsPattern plane.pattern w.position.width)
  (hstate : IsPattern c.state control.length)
include hplane hstate

theorem reflection_eq_ok (hcoin : coin.wires = w.coin.width) (label : Option String) :
    c.reflection plane coin w control label = .ok (c.reflectionOps plane coin w control label) := by
  have hp := Pattern.isPattern_append hplane hstate
  unfold reflection
  dsimp only
  rw [conditional_eq_ok hp (by simp [hcoin]; omega),
    conditional_eq_ok hp (by simp [Operator.directionReversal, Operator.ofGates]; omega)]
  rfl

/-- **The gates of a reflection**: the coin taken back and turned round, where control register and
position carry their patterns. -/
theorem gatesOf_reflectionOps (label : Option String) :
    gatesOf (c.reflectionOps plane coin w control label) =
      (turnBack coin w.coin).map (Gate.under (controlsOn control (Pattern.wireBits c.state) ++
        controlsOn w.position.wires (Pattern.wireBits plane.pattern))) := by
  rw [gatesOf_reflectionOps_of_isPattern (Pattern.isPattern_append hplane hstate),
    Pattern.wireBits_append, Operator.controlsOn_append (Pattern.length_wireBits_of hstate).symm]

end

/-! ### The block of a valve -/

/-- The operations of a valve, with its two crossing wires and the wire of the direction. -/
def valveOps (c : BoundaryControl R) (counter : Operator R) (plane : Boundary) (coin : Operator R)
    (w : Wiring) (control : List ℕ) (label : Option String) (blocked permitted direction : ℕ) :
    List (Operation R) :=
  let position := w.position.wires
  let n := w.position.width
  let onCoin := position ++ w.coin.wires
  let reversal : Operator R := .directionReversal w.coin.width
  [conditionalOp coin n plane.pattern true label onCoin,
    conditionalOp .crossingFlag (n + 1) (plane.pattern ++ "1") false label
      (direction :: position ++ [blocked]),
    conditionalOp .crossingFlag (n + 1) (plane.pattern ++ "0") false label
      (direction :: position ++ [permitted]),
    conditionalOp counter n plane.pattern false label (position ++ control),
    conditionalOp reversal n plane.pattern false label onCoin,
    conditionalOp reversal (n + control.length + 1) (plane.pattern ++ "1" ++ c.state) false label
      (control ++ [permitted] ++ onCoin), .barrier]

theorem isPattern_one : IsPattern "1" 1 := ⟨by simp [Pattern.isBit], rfl⟩

theorem isPattern_zero : IsPattern "0" 1 := ⟨by simp [Pattern.isBit], rfl⟩

/-- The pattern of a walker that may pass: on the plane, with the second crossing wire set, and with
the control register in the state that lets it through. -/
theorem isPattern_pass {plane state : String} {n m : ℕ} (hplane : IsPattern plane n)
    (hstate : IsPattern state m) : IsPattern (plane ++ "1" ++ state) (n + m + 1) := by
  have h := Pattern.isPattern_append (Pattern.isPattern_append hplane isPattern_one) hstate
  rwa [Nat.add_right_comm] at h

section
variable {c : BoundaryControl R} {counter coin : Operator R} {plane : Boundary} {w : Wiring}
  {control : List ℕ} {blocked permitted direction : ℕ}
  (hplane : IsPattern plane.pattern w.position.width)
  (hstate : IsPattern c.state control.length)
include hplane hstate

theorem valve_eq_ok (hcoin : coin.wires = w.coin.width) (hcounter : counter.wires = control.length)
    (hcrossing : crossingWires w = .ok (blocked, permitted))
    (hdirection : directionWire w = .ok direction) (label : Option String) :
    c.valve counter plane coin w control label =
      .ok (c.valveOps counter plane coin w control label blocked permitted direction) := by
  have h1 := Pattern.isPattern_append hplane isPattern_one
  have h0 := Pattern.isPattern_append hplane isPattern_zero
  have hs := isPattern_pass hplane hstate
  have hreversal : (Operator.directionReversal w.coin.width : Operator R).wires = w.coin.width :=
    rfl
  have hflag : (Operator.crossingFlag : Operator R).wires = 1 := rfl
  unfold valve
  refine Except.bind_eq_ok.mpr ⟨(blocked, permitted), hcrossing, ?_⟩
  refine Except.bind_eq_ok.mpr ⟨direction, hdirection, ?_⟩
  refine Except.bind_eq_ok.mpr ⟨_, conditional_eq_ok hplane (by simp [hcoin]; omega) _ _, ?_⟩
  refine Except.bind_eq_ok.mpr ⟨_, conditional_eq_ok h1 (by simp [hflag]; omega) _ _, ?_⟩
  refine Except.bind_eq_ok.mpr ⟨_, conditional_eq_ok h0 (by simp [hflag]; omega) _ _, ?_⟩
  refine Except.bind_eq_ok.mpr ⟨_, conditional_eq_ok hplane (by simp [hcounter]; omega) _ _, ?_⟩
  refine Except.bind_eq_ok.mpr ⟨_, conditional_eq_ok hplane (by simp [hreversal]; omega) _ _, ?_⟩
  refine Except.bind_eq_ok.mpr ⟨_, conditional_eq_ok hs (by simp [hreversal]; omega) _ _, ?_⟩
  rfl

/-- **The gates of a valve**: on the plane the coin is taken back, the way of arrival is recorded in
one of the crossing wires and counted, the walker is turned round, and round once more where the
second crossing wire and the control register say so. -/
theorem gatesOf_valveOps (label : Option String) :
    gatesOf (c.valveOps counter plane coin w control label blocked permitted direction) =
      let onPlane := controlsOn w.position.wires (Pattern.wireBits plane.pattern)
      let reversal :=
        gatesOn w.coin.wires (Operator.directionReversal w.coin.width : Operator R).gates
      (gatesOn w.coin.wires coin.inverseGates).map (Gate.under onPlane) ++
        [(Gate.plain .flip blocked).under (⟨direction, true⟩ :: onPlane)] ++
        [(Gate.plain .flip permitted).under (⟨direction, false⟩ :: onPlane)] ++
        (gatesOn control counter.gates).map (Gate.under onPlane) ++
        reversal.map (Gate.under onPlane) ++
        reversal.map (Gate.under (controlsOn control (Pattern.wireBits c.state) ++
          ⟨permitted, true⟩ :: onPlane)) := by
  have h1 := Pattern.isPattern_append hplane isPattern_one
  have h0 := Pattern.isPattern_append hplane isPattern_zero
  have hs := isPattern_pass hplane hstate
  have hposition : w.position.wires.length = w.position.width := Register.length_wires _
  have hdirected : (direction :: w.position.wires).length = w.position.width + 1 := by simp
  have hfront : (control ++ [permitted] ++ w.position.wires).length =
      w.position.width + control.length + 1 := by
    simp
    omega
  -- the controls of the patterns, wire by wire
  have hone : controlsOn (direction :: w.position.wires) (Pattern.wireBits (plane.pattern ++ "1")) =
      ⟨direction, true⟩ :: controlsOn w.position.wires (Pattern.wireBits plane.pattern) := by
    rw [Pattern.wireBits_append]
    rfl
  have hzero :
      controlsOn (direction :: w.position.wires) (Pattern.wireBits (plane.pattern ++ "0")) =
        ⟨direction, false⟩ :: controlsOn w.position.wires (Pattern.wireBits plane.pattern) := by
    rw [Pattern.wireBits_append]
    rfl
  have hpass : controlsOn (control ++ [permitted] ++ w.position.wires)
      (Pattern.wireBits (plane.pattern ++ "1" ++ c.state)) =
      controlsOn control (Pattern.wireBits c.state) ++
        ⟨permitted, true⟩ :: controlsOn w.position.wires (Pattern.wireBits plane.pattern) := by
    rw [Pattern.wireBits_append, Pattern.wireBits_append, List.append_assoc,
      Operator.controlsOn_append (Pattern.length_wireBits_of hstate).symm]
    rfl
  simp only [valveOps, Operation.gatesOf_cons, Operation.gatesOf_nil,
    gates_conditionalOp hplane hposition, gates_conditionalOp h1 hdirected,
    gates_conditionalOp h0 hdirected]
  rw [← List.append_assoc (control ++ [permitted]), gates_conditionalOp hs hfront, hone, hzero,
    hpass]
  simp [Operation.gates, Operator.body, Operator.gatesOn_crossingFlag]

end

end BoundaryControl

/-! ### The block of a control -/

namespace BoundaryControl

/-- A control whose state can stand on its register, and that has a register unless it is hard. The
constructors of controls make no others. -/
structure Sound (c : BoundaryControl R) : Prop where
  state : IsPattern c.state c.controlWidth
  width : c.permeability ≠ .hard → 0 < c.controlWidth

theorem sound_hard : (hard : BoundaryControl R).Sound :=
  ⟨Pattern.isPattern_ones _, fun h => absurd rfl h⟩

theorem sound_permeable {op : Operator R} (h : 0 < op.wires) : (permeable op).Sound :=
  ⟨Pattern.isPattern_ones _, fun _ => h⟩

theorem sound_oneWay {bits : ℕ} {c : BoundaryControl R} (h : oneWay bits = .ok c) : c.Sound := by
  unfold oneWay at h
  split_ifs at h with hb
  · cases h
  · cases h
    exact ⟨Pattern.isPattern_ones _, fun _ => Nat.pos_of_ne_zero hb⟩

theorem sound_absorbing {wires : ℕ} {c : BoundaryControl R} (h : absorbing wires = .ok c) :
    c.Sound := by
  unfold absorbing at h
  split_ifs at h with hb
  · cases h
  · cases h
    exact ⟨Pattern.isPattern_ones _, fun _ => Nat.pos_of_ne_zero hb⟩

theorem Sound.withState {c c' : BoundaryControl R} (hc : c.Sound) {state : String}
    (h : c.withState state = .ok c') : c'.Sound := by
  obtain ⟨_, hcheck, h⟩ := Except.bind_eq_ok.mp h
  cases h
  exact ⟨Pattern.checkWidth_eq_ok.mp hcheck, hc.width⟩

theorem Sound.addBoundaries {c : BoundaryControl R} (hc : c.Sound) (planes : List Boundary) :
    (c.addBoundaries planes).Sound := ⟨hc.state, hc.width⟩

end BoundaryControl

namespace Wiring

/-- The wires of the control register, if there is one. -/
def controlWires (w : Wiring) : List ℕ := (w.control.map Register.wires).getD []

theorem controlWires_of_some {w : Wiring} {r : Register} (h : w.control = some r) :
    w.controlWires = r.wires := by
  rw [controlWires, h]
  rfl

/-- The registers of the control are those that it asks for. -/
structure Suits (w : Wiring) (c : BoundaryControl R) : Prop where
  control : w.control.map Register.width =
    if c.controlWidth = 0 then none else some c.controlWidth
  ancilla : w.ancilla.map Register.width =
    if c.ancillaWidth = 0 then none else some c.ancillaWidth

/-- The registers are apart from each other and end before wire `n`. -/
structure Apart (w : Wiring) (n : ℕ) : Prop where
  disjoint : (w.position :: w.coin :: (w.control.toList ++ w.ancilla.toList)).Pairwise
    fun r s => r.wires.Disjoint s.wires
  stop : ∀ r ∈ w.position :: w.coin :: (w.control.toList ++ w.ancilla.toList), r.stop ≤ n

theorem Suits.length_controlWires {w : Wiring} {c : BoundaryControl R} (h : w.Suits c) :
    w.controlWires.length = c.controlWidth := by
  have hc := h.control
  unfold controlWires
  split_ifs at hc with h0
  · rw [Option.map_eq_none_iff.mp hc, h0]
    rfl
  · obtain ⟨r, hr, hw⟩ := Option.map_eq_some_iff.mp hc
    rw [hr, ← hw]
    exact Register.length_wires r

theorem Suits.ancilla_of_oneWay {w : Wiring} {c : BoundaryControl R} (h : w.Suits c) {bits : ℕ}
    (hp : c.permeability = .oneWay bits) : ∃ a, w.ancilla = some a ∧ a.width = 2 := by
  have hancilla := h.ancilla
  rw [BoundaryControl.ancillaWidth, hp] at hancilla
  exact Option.map_eq_some_iff.mp hancilla

namespace Apart

variable {w : Wiring} {n : ℕ} (h : w.Apart n)
include h

theorem position_coin : w.position.wires.Disjoint w.coin.wires :=
  (List.pairwise_cons.mp h.disjoint).1 _ (by simp)

theorem position_ancilla {a : Register} (ha : w.ancilla = some a) :
    w.position.wires.Disjoint a.wires :=
  (List.pairwise_cons.mp h.disjoint).1 _ (by simp [ha])

theorem coin_ancilla {a : Register} (ha : w.ancilla = some a) : w.coin.wires.Disjoint a.wires :=
  (List.pairwise_cons.mp (List.pairwise_cons.mp h.disjoint).2).1 _ (by simp [ha])

theorem position_lt {q : ℕ} (hq : q ∈ w.position.wires) : q < n :=
  (Register.mem_wires.mp hq).2.trans_le (h.stop _ (by simp))

theorem coin_lt {q : ℕ} (hq : q ∈ w.coin.wires) : q < n :=
  (Register.mem_wires.mp hq).2.trans_le (h.stop _ (by simp))

theorem ancilla_lt {a : Register} (ha : w.ancilla = some a) {q : ℕ} (hq : q ∈ a.wires) : q < n :=
  (Register.mem_wires.mp hq).2.trans_le (h.stop _ (by simp [ha]))

omit h in
theorem mem_controlWires {q : ℕ} :
    q ∈ w.controlWires ↔ ∃ r, w.control = some r ∧ q ∈ r.wires := by
  unfold controlWires
  cases w.control <;> simp

omit h in
theorem nodup_controlWires (w : Wiring) : w.controlWires.Nodup := by
  unfold controlWires
  cases w.control with
  | none => exact List.nodup_nil
  | some r => exact r.nodup_wires

theorem control_lt {q : ℕ} (hq : q ∈ w.controlWires) : q < n := by
  obtain ⟨r, hr, hq⟩ := mem_controlWires.mp hq
  exact (Register.mem_wires.mp hq).2.trans_le (h.stop _ (by simp [hr]))

theorem control_position : w.controlWires.Disjoint w.position.wires := by
  intro q hq hp
  obtain ⟨r, hr, hq⟩ := mem_controlWires.mp hq
  exact (List.pairwise_cons.mp h.disjoint).1 r (by simp [hr]) hp hq

theorem control_coin : w.controlWires.Disjoint w.coin.wires := by
  intro q hq hp
  obtain ⟨r, hr, hq⟩ := mem_controlWires.mp hq
  exact (List.pairwise_cons.mp (List.pairwise_cons.mp h.disjoint).2).1 r (by simp [hr]) hp hq

theorem control_ancilla {a : Register} (ha : w.ancilla = some a) :
    w.controlWires.Disjoint a.wires := by
  intro q hq hp
  obtain ⟨r, hr, hq⟩ := mem_controlWires.mp hq
  have hlast := (List.pairwise_cons.mp (List.pairwise_cons.mp h.disjoint).2).2
  rw [hr, ha] at hlast
  exact (List.pairwise_cons.mp hlast).1 a (by simp) hq hp

theorem nodup_onCoin : (w.position.wires ++ w.coin.wires).Nodup :=
  (Register.nodup_wires _).append (Register.nodup_wires _) h.position_coin

theorem onCoin_lt {q : ℕ} (hq : q ∈ w.position.wires ++ w.coin.wires) : q < n :=
  (List.mem_append.mp hq).elim h.position_lt h.coin_lt

theorem apart_reflection : (w.controlWires ++ w.position.wires ++ w.coin.wires).Nodup ∧
    ∀ q ∈ w.controlWires ++ w.position.wires ++ w.coin.wires, q < n := by
  rw [List.append_assoc]
  refine ⟨(nodup_controlWires w).append h.nodup_onCoin fun q hq hq' => ?_, fun q hq => ?_⟩
  · exact (List.mem_append.mp hq').elim (h.control_position hq) (h.control_coin hq)
  · exact (List.mem_append.mp hq).elim h.control_lt h.onCoin_lt

theorem apart_flag {a : Register} (ha : w.ancilla = some a) {top flag : ℕ}
    (htop : top ∈ w.coin.wires) (hflag : flag ∈ a.wires) :
    (top :: w.position.wires ++ [flag]).Nodup ∧
      ∀ q ∈ top :: w.position.wires ++ [flag], q < n := by
  constructor
  · rw [List.cons_append, List.nodup_cons, List.mem_append, List.mem_singleton]
    refine ⟨?_, (Register.nodup_wires _).append (List.nodup_singleton _) fun q hq hq' => ?_⟩
    · rintro (hq | rfl)
      · exact h.position_coin hq htop
      · exact h.coin_ancilla ha htop hflag
    · obtain rfl := List.mem_singleton.mp hq'
      exact h.position_ancilla ha hq hflag
  · intro q hq
    simp only [List.cons_append, List.mem_cons, List.mem_append, List.not_mem_nil, or_false] at hq
    rcases hq with rfl | hq | rfl
    · exact h.coin_lt htop
    · exact h.position_lt hq
    · exact h.ancilla_lt ha hflag

theorem apart_count : (w.position.wires ++ w.controlWires).Nodup ∧
    ∀ q ∈ w.position.wires ++ w.controlWires, q < n :=
  ⟨(Register.nodup_wires _).append (nodup_controlWires w) h.control_position.symm,
    fun _ hq => (List.mem_append.mp hq).elim h.position_lt h.control_lt⟩

theorem apart_pass {a : Register} (ha : w.ancilla = some a) {flag : ℕ} (hflag : flag ∈ a.wires) :
    (w.controlWires ++ [flag] ++ (w.position.wires ++ w.coin.wires)).Nodup ∧
      ∀ q ∈ w.controlWires ++ [flag] ++ (w.position.wires ++ w.coin.wires), q < n := by
  have hfront : (w.controlWires ++ [flag]).Nodup := by
    refine (nodup_controlWires w).append (List.nodup_singleton _) fun q hq hq' => ?_
    obtain rfl := List.mem_singleton.mp hq'
    exact h.control_ancilla ha hq hflag
  refine ⟨hfront.append h.nodup_onCoin fun q hq hq' => ?_, fun q hq => ?_⟩
  · rw [List.mem_append] at hq hq'
    rcases hq with hq | hq
    · exact hq'.elim (h.control_position hq) (h.control_coin hq)
    · obtain rfl := List.mem_singleton.mp hq
      exact hq'.elim (fun hq => h.position_ancilla ha hq hflag) fun hq => h.coin_ancilla ha hq hflag
  · rw [List.mem_append, List.mem_append, List.mem_singleton] at hq
    rcases hq with (hq | rfl) | hq
    · exact h.control_lt hq
    · exact h.ancilla_lt ha hflag
    · exact h.onCoin_lt hq

end Apart

end Wiring

namespace BoundaryControl

variable [Scalar R]

/-- The operations of a block. -/
def blockOps (c : BoundaryControl R) (plane : Boundary) (coin : Operator R) (w : Wiring) :
    List (Operation R) :=
  let label := plane.label.or c.label
  match c.permeability, w.ancilla with
  | .oneWay bits, some a =>
    c.valveOps (.cyclicIncrement bits) plane coin w w.controlWires label (a.wire 0) (a.wire 1)
      (w.coin.wire (w.coin.width - 1))
  | _, _ => c.reflectionOps plane coin w w.controlWires label

/-- Only valves have another block than that of a reflection. -/
theorem blockOps_eq_reflectionOps {c : BoundaryControl R}
    (h : ∀ bits, c.permeability ≠ .oneWay bits) (plane : Boundary) (coin : Operator R)
    (w : Wiring) : c.blockOps plane coin w =
      c.reflectionOps plane coin w w.controlWires (plane.label.or c.label) := by
  unfold blockOps
  cases hp : c.permeability with
  | oneWay bits => exact absurd hp (h bits)
  | _ => rfl

theorem controlWires_eq_ok {c : BoundaryControl R} {w : Wiring} (hc : c.Sound) (hw : w.Suits c)
    (plane : Boundary) : c.controlWires plane w = .ok w.controlWires := by
  have hcontrol := hw.control
  unfold controlWires Wiring.controlWires operator?
  cases hp : c.permeability with
  | hard =>
    have h0 : c.controlWidth = 0 := by rw [controlWidth, hp]; rfl
    rw [if_pos h0, Option.map_eq_none_iff] at hcontrol
    rw [hcontrol]
    rfl
  | _ =>
    have hpos := hc.width (by rw [hp]; nofun)
    rw [if_neg hpos.ne', Option.map_eq_some_iff] at hcontrol
    obtain ⟨r, hr, -⟩ := hcontrol
    rw [hr]
    rfl

/-- **A block does not fail** for a sound control on registers that suit it. -/
theorem block_eq_ok {c : BoundaryControl R} {plane : Boundary} {coin : Operator R} {w : Wiring}
    (hc : c.Sound) (hw : w.Suits c) (hplane : IsPattern plane.pattern w.position.width)
    (hcoin : coin.wires = w.coin.width) (hpos : 0 < w.coin.width) :
    c.block plane coin w = .ok (c.blockOps plane coin w) := by
  have hstate : IsPattern c.state w.controlWires.length := hw.length_controlWires ▸ hc.state
  refine Except.bind_eq_ok.mpr ⟨_, controlWires_eq_ok hc hw plane, ?_⟩
  unfold blockOps
  cases hp : c.permeability with
  | oneWay bits =>
    obtain ⟨a, ha, haw⟩ := hw.ancilla_of_oneWay hp
    have hbits : bits = w.controlWires.length := by
      rw [hw.length_controlWires, controlWidth, hp]
      rfl
    have hcrossing : crossingWires w = .ok (a.wire 0, a.wire 1) := by
      unfold crossingWires
      rw [ha]
      exact if_pos haw
    have hdirection : directionWire w = .ok (w.coin.wire (w.coin.width - 1)) := by
      unfold directionWire Register.top?
      rw [if_neg hpos.ne']
    simp only [ha]
    exact valve_eq_ok hplane hstate hcoin hbits hcrossing hdirection _
  | _ => exact reflection_eq_ok hplane hstate hcoin _

omit [Scalar R] in
theorem crossingWires_eq_ok {w : Wiring} {blocked permitted : ℕ}
    (h : crossingWires w = .ok (blocked, permitted)) :
    ∃ a, w.ancilla = some a ∧ blocked ∈ a.wires ∧ permitted ∈ a.wires := by
  unfold crossingWires at h
  cases ha : w.ancilla with
  | none =>
    rw [ha] at h
    cases h
  | some a =>
    rw [ha] at h
    dsimp only at h
    split_ifs at h with hwidth
    · cases h
      have hwire : ∀ i < 2, a.wire i ∈ a.wires := fun i hi =>
        Register.wire_mem (hwidth ▸ hi)
      exact ⟨a, rfl, hwire 0 (by decide), hwire 1 (by decide)⟩
    · cases h

omit [Scalar R] in
theorem directionWire_eq_ok {w : Wiring} {direction : ℕ} (h : directionWire w = .ok direction) :
    direction ∈ w.coin.wires := by
  unfold directionWire Register.top? at h
  split_ifs at h with hwidth
  · cases h
  · cases h
    exact Register.wire_mem (by omega)

theorem eq_of_controlWires {c : BoundaryControl R} {w : Wiring} (hw : w.Suits c) {plane : Boundary}
    {control : List ℕ} (h : c.controlWires plane w = .ok control) : control = w.controlWires := by
  unfold controlWires operator? at h
  unfold Wiring.controlWires
  cases hp : c.permeability with
  | hard =>
    have hcontrol := hw.control
    rw [controlWidth, hp] at hcontrol
    rw [hp] at h
    cases h
    rw [Option.map_eq_none_iff.mp hcontrol]
    rfl
  | _ =>
    rw [hp] at h
    cases hr : w.control with
    | none =>
      rw [hr] at h
      cases h
    | some r =>
      rw [hr] at h
      cases h
      rfl

theorem pos_of_controlWires {c : BoundaryControl R} {w : Wiring} (hw : w.Suits c)
    {plane : Boundary} {control : List ℕ} (h : c.controlWires plane w = .ok control)
    (hsoft : c.permeability ≠ .hard) : 0 < c.controlWidth := by
  by_contra hzero
  have hregister := hw.control
  rw [if_pos (by omega), Option.map_eq_none_iff] at hregister
  unfold controlWires operator? at h
  rw [hregister] at h
  cases hp : c.permeability with
  | hard => exact hsoft hp
  | _ =>
    rw [hp] at h
    cases h

/-- **A block is built for sound controls only**, on a plane of the width of its dimension. -/
theorem sound_of_block {c : BoundaryControl R} {plane : Boundary} {coin : Operator R} {w : Wiring}
    {ops : List (Operation R)} (hw : w.Suits c)
    (hplane : IsPattern plane.pattern w.position.width) (h : c.block plane coin w = .ok ops) :
    c.Sound := by
  obtain ⟨control, hcontrol, h⟩ := Except.bind_eq_ok.mp h
  refine ⟨?_, pos_of_controlWires hw hcontrol⟩
  rw [← hw.length_controlWires, ← eq_of_controlWires hw hcontrol]
  split at h
  · -- the last operation of a valve lets walkers pass in that state
    obtain ⟨_, -, h⟩ := Except.bind_eq_ok.mp h
    obtain ⟨_, -, h⟩ := Except.bind_eq_ok.mp h
    obtain ⟨_, -, h⟩ := Except.bind_eq_ok.mp h
    obtain ⟨_, -, h⟩ := Except.bind_eq_ok.mp h
    obtain ⟨_, -, h⟩ := Except.bind_eq_ok.mp h
    obtain ⟨_, -, h⟩ := Except.bind_eq_ok.mp h
    obtain ⟨_, -, h⟩ := Except.bind_eq_ok.mp h
    obtain ⟨_, hpass, -⟩ := Except.bind_eq_ok.mp h
    have hp := (eq_conditionalOp_of_conditional hpass).1
    rw [Nat.add_right_comm] at hp
    exact Pattern.isPattern_of_append (Pattern.isPattern_append hplane isPattern_one) hp
  · exact Pattern.isPattern_of_append hplane (eq_reflectionOps_of_reflection h).1

section wellFormed
variable {c : BoundaryControl R} {plane : Boundary} {coin : Operator R} {w : Wiring} {n : ℕ}
  (hap : w.Apart n) (hcoin : Operator.AllFit coin.wires coin.inverseGates)
  {label : Option String} {ops : List (Operation R)}
include hap hcoin

theorem wellFormed_reflection
    (h : c.reflection plane coin w w.controlWires label = .ok ops) :
    ∀ op ∈ ops, op.WellFormed n := by
  have hreversal := (Operator.Derived.directionReversal (R := R) w.coin.width).allFit_body false
  obtain ⟨back, hback, h⟩ := Except.bind_eq_ok.mp h
  obtain ⟨turn, hturn, h⟩ := Except.bind_eq_ok.mp h
  cases h
  simp only [List.forall_mem_cons, List.not_mem_nil, false_imp_iff, implies_true, and_true]
  exact ⟨wellFormed_conditional hap.apart_reflection hcoin hback,
    wellFormed_conditional hap.apart_reflection hreversal hturn, Operation.wellFormed_barrier n⟩

theorem wellFormed_valve {counter : Operator R}
    (hcounter : Operator.AllFit counter.wires counter.gates)
    (h : c.valve counter plane coin w w.controlWires label = .ok ops) :
    ∀ op ∈ ops, op.WellFormed n := by
  have hreversal := (Operator.Derived.directionReversal (R := R) w.coin.width).allFit_body false
  have hflag := (Operator.Derived.crossingFlag (R := R)).allFit_body false
  have honCoin : (w.position.wires ++ w.coin.wires).Nodup ∧
      ∀ q ∈ w.position.wires ++ w.coin.wires, q < n :=
    ⟨hap.nodup_onCoin, fun _ hq => hap.onCoin_lt hq⟩
  obtain ⟨⟨blocked, permitted⟩, hcrossing, h⟩ := Except.bind_eq_ok.mp h
  obtain ⟨direction, hdirection, h⟩ := Except.bind_eq_ok.mp h
  obtain ⟨a, ha, hblocked, hpermitted⟩ := crossingWires_eq_ok hcrossing
  have htop := directionWire_eq_ok hdirection
  obtain ⟨back, hback, h⟩ := Except.bind_eq_ok.mp h
  obtain ⟨cameDown, hcameDown, h⟩ := Except.bind_eq_ok.mp h
  obtain ⟨cameUp, hcameUp, h⟩ := Except.bind_eq_ok.mp h
  obtain ⟨count, hcount, h⟩ := Except.bind_eq_ok.mp h
  obtain ⟨turn, hturn, h⟩ := Except.bind_eq_ok.mp h
  obtain ⟨pass, hpass, h⟩ := Except.bind_eq_ok.mp h
  cases h
  simp only [List.forall_mem_cons, List.not_mem_nil, false_imp_iff, implies_true, and_true]
  exact ⟨wellFormed_conditional honCoin hcoin hback,
    wellFormed_conditional (hap.apart_flag ha htop hblocked) hflag hcameDown,
    wellFormed_conditional (hap.apart_flag ha htop hpermitted) hflag hcameUp,
    wellFormed_conditional hap.apart_count hcounter hcount,
    wellFormed_conditional honCoin hreversal hturn,
    wellFormed_conditional (hap.apart_pass ha hpermitted) hreversal hpass,
    Operation.wellFormed_barrier n⟩

/-- **A block is in order** if it is built at all, on registers that are apart. -/
theorem wellFormed_block (hw : w.Suits c) (h : c.block plane coin w = .ok ops) :
    ∀ op ∈ ops, op.WellFormed n := by
  obtain ⟨control, hcontrol, h⟩ := Except.bind_eq_ok.mp h
  obtain rfl := eq_of_controlWires hw hcontrol
  split at h
  next bits hp =>
    exact wellFormed_valve hap hcoin (Operator.Derived.cyclicIncrement bits).fits.1 h
  next => exact wellFormed_reflection hap hcoin h

end wellFormed

/-- **The operations of a block** stay on the wires of their registers. -/
theorem within_blockOps {c : BoundaryControl R} {plane : Boundary} {coin : Operator R} {w : Wiring}
    {n : ℕ} (hc : c.Sound) (hw : w.Suits c) (hap : w.Apart n)
    (hplane : IsPattern plane.pattern w.position.width) (hcoin : coin.wires = w.coin.width)
    (hfit : Operator.AllFit coin.wires coin.inverseGates) (hpos : 0 < w.coin.width) :
    ∀ op ∈ c.blockOps plane coin w, op.Within n := fun op hop =>
  (wellFormed_block hap hfit hw (block_eq_ok hc hw hplane hcoin hpos) op hop).toWithin

theorem isReset_blockOps {c : BoundaryControl R} {plane : Boundary} {coin : Operator R}
    {w : Wiring} : ∀ op ∈ c.blockOps plane coin w, op.isReset = false := by
  intro op hop
  unfold blockOps at hop
  split at hop
  · simp only [valveOps, List.mem_cons, List.not_mem_nil, or_false] at hop
    rcases hop with rfl | rfl | rfl | rfl | rfl | rfl | rfl <;> rfl
  · exact isReset_reflectionOps op hop

/-! ### What the gates of a block act on -/

/-- The gates of a valve on any of its planes: the coin taken back, the way of arrival recorded and
counted, the direction reversed, and once more for those that are let pass. -/
def valveCore (c : BoundaryControl R) (counter coin : Operator R) (r : Register) (control : List ℕ)
    (blocked permitted direction : ℕ) : List (Gate R) :=
  let reversal := gatesOn r.wires (Operator.directionReversal r.width).gates
  gatesOn r.wires coin.inverseGates ++
    [(Gate.plain .flip blocked).under [⟨direction, true⟩]] ++
    [(Gate.plain .flip permitted).under [⟨direction, false⟩]] ++
    gatesOn control counter.gates ++ reversal ++
    reversal.map (Gate.under (controlsOn control (Pattern.wireBits c.state) ++ [⟨permitted, true⟩]))

/-- The gates that the blocks of a control share, whatever their plane: each block puts them under
controls. -/
def core (c : BoundaryControl R) (coin : Operator R) (r : Register) (control : List ℕ)
    (ancilla : Option Register) : List (Gate R) :=
  match c.permeability, ancilla with
  | .oneWay bits, some a =>
    c.valveCore (.cyclicIncrement bits) coin r control (a.wire 0) (a.wire 1) (r.wire (r.width - 1))
  | _, _ => turnBack coin r

section targets
variable {c : BoundaryControl R} {plane : Boundary} {coin : Operator R} {w : Wiring}
  (hw : w.Suits c)
include hw

/-- The gates that the blocks of a control share have their targets in the coin register and, for a
valve, in the registers of the control. -/
theorem target_core (hcoin : ∀ g ∈ turnBack coin w.coin, g.target ∈ w.coin.wires) {g : Gate R}
    (hg : g ∈ c.core coin w.coin w.controlWires w.ancilla) : g.target ∈ w.coin.wires ∨
      (∃ bits, c.permeability = .oneWay bits) ∧
        ∃ r ∈ w.control.toList ++ w.ancilla.toList, g.target ∈ r.wires := by
  unfold core at hg
  split at hg
  next bits a hp ha =>
    obtain ⟨a', ha', hwidth⟩ := hw.ancilla_of_oneWay hp
    obtain rfl := Option.some.inj (ha.symm.trans ha')
    have hancilla : ∀ i < 2, ∃ r ∈ w.control.toList ++ w.ancilla.toList, a.wire i ∈ r.wires :=
      fun i hi => ⟨a, by simp [ha], Register.wire_mem (hwidth ▸ hi)⟩
    have hbits : w.controlWires.length = bits := by
      rw [hw.length_controlWires, controlWidth, hp]
      rfl
    simp only [valveCore, List.mem_append, List.mem_map, List.mem_singleton] at hg
    rcases hg with ((((hg | rfl) | rfl) | hg) | hg) | ⟨g', hg', rfl⟩
    · exact .inl (hcoin g (List.mem_append_left _ hg))
    · exact .inr ⟨⟨bits, hp⟩, hancilla 0 (by decide)⟩
    · exact .inr ⟨⟨bits, hp⟩, hancilla 1 (by decide)⟩
    · have ht : g.target ∈ w.controlWires :=
        Operator.target_mem_of_gatesOn hbits (Operator.plain_cyclicIncrement bits).fits hg
      obtain ⟨r, hr, hmem⟩ := Wiring.Apart.mem_controlWires.mp ht
      exact .inr ⟨⟨bits, hp⟩, r, by simp [hr], hmem⟩
    · exact .inl (hcoin g (List.mem_append_right _ hg))
    · exact .inl (hcoin g' (List.mem_append_right _ hg') : g'.target ∈ _)
  next => exact .inl (hcoin g hg)

variable (hplane : IsPattern plane.pattern w.position.width)
  (hstate : IsPattern c.state c.controlWidth)
include hplane hstate

theorem targets_blockOps : (gatesOf (c.blockOps plane coin w)).map Gate.target =
    (c.core coin w.coin w.controlWires w.ancilla).map Gate.target := by
  have hunder : ∀ cs : List Control, Gate.target ∘ Gate.under (R := R) cs = Gate.target :=
    fun _ => rfl
  have hflag : ∀ (cs : List Control) (q : ℕ), ((Gate.plain (R := R) .flip q).under cs).target = q :=
    fun _ _ => rfl
  rw [← hw.length_controlWires] at hstate
  unfold blockOps core
  dsimp only
  split
  · rw [gatesOf_valveOps hplane hstate]
    simp [valveCore, hunder, hflag]
  · rw [gatesOf_reflectionOps hplane hstate, List.map_map, hunder]

/-- The gates of a block have their targets in the coin register and, unless the control is a latch
or has no register, in the registers of the control. -/
theorem target_blockOps (hcoin : ∀ g ∈ turnBack coin w.coin, g.target ∈ w.coin.wires) {g : Gate R}
    (hg : g ∈ gatesOf (c.blockOps plane coin w)) : g.target ∈ w.coin.wires ∨
      c.resetsRegister = true ∧ ∃ r ∈ w.control.toList ++ w.ancilla.toList, g.target ∈ r.wires := by
  have hmem : g.target ∈ (c.core coin w.coin w.controlWires w.ancilla).map Gate.target := by
    rw [← targets_blockOps hw hplane hstate]
    exact List.mem_map_of_mem hg
  obtain ⟨g', hg', htarget⟩ := List.mem_map.mp hmem
  rw [← htarget]
  refine (target_core hw hcoin hg').imp_right fun ⟨⟨bits, hp⟩, hr⟩ => ⟨?_, hr⟩
  rw [resetsRegister, hp]

end targets

end BoundaryControl

end LatticeWalk
