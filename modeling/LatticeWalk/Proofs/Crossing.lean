import LatticeWalk.Proofs.Reflection
import LatticeWalk.Proofs.Valve

/-! # Crossings

What the block of a one-way control makes of a walker that comes to its plane behind a coin, with
counter and crossing wires at zero.

* `BoundaryControl.IsValve`: a one-way control with its registers, closed at its default state.
* `Wiring.Arriving`, `Wiring.Crossed`: bits before the block and behind it. The flips of a valve
  lead from the ones to the others (`Wiring.Apart.crossed_of_arriving`), and the bits behind the
  block are determined by what they are elsewhere (`Wiring.Crossed.unique`).
* `BoundaryControl.valve_crosses`: the block as the simulation executes it. -/

namespace LatticeWalk

open Function (update)
open Operation (gatesOf)
open Operator (gatesOn controlsOn)
open Simulation (Leads)

/-! ### The bits of registers -/

namespace Register

variable {r : Register} {b : ℕ → Bool}

theorem read_clear_top (h : 0 < r.width) (b : ℕ → Bool) :
    r.read (update b (r.wire (r.width - 1)) false) = r.read b % 2 ^ (r.width - 1) := by
  have htop : r.width - 1 < r.width := by omega
  refine Nat.eq_of_testBit_eq fun q => ?_
  rw [Nat.testBit_mod_two_pow, testBit_read_update htop]
  split_ifs with hq
  · rw [decide_eq_false (by omega), Bool.false_and]
  · by_cases hlt : q < r.width - 1
    · rw [decide_eq_true hlt, Bool.true_and]
    · rw [decide_eq_false hlt, Bool.false_and, read, testBit_index, decide_eq_false (by omega),
        Bool.false_and]

theorem eq_false_of_read_eq_zero (h : r.read b = 0) {q : ℕ} (hq : q ∈ r.wires) : b q = false := by
  have hzero : r.read b = r.read fun _ => false := by
    rw [h, read_eq_zero fun _ _ => rfl]
  exact read_eq_iff.mp hzero q hq

end Register

/-! ### Before and behind a valve -/

namespace Wiring

/-- Bits that come to a valve: the coin has the value `x`, and counter and crossing wires are at
zero. -/
structure Arriving (w : Wiring) (counter ancilla : Register) (x : ℕ) (b : ℕ → Bool) : Prop where
  coin : w.coin.read b = x
  counter : counter.read b = 0
  ancilla : ancilla.read b = 0

/-- **Bits behind a valve** to which the coin `x` came: its most significant bit is cleared, the
counter is full, and of the crossing wires exactly one is set, the one for walkers to be turned back
if that bit was one, and the one for walkers let pass otherwise. -/
structure Crossed (w : Wiring) (counter ancilla : Register) (x : ℕ) (b : ℕ → Bool) : Prop where
  coin : w.coin.read b = x % 2 ^ (w.coin.width - 1)
  counter : counter.read b = 2 ^ counter.width - 1
  blocked : b (ancilla.wire 0) = x.testBit (w.coin.width - 1)
  permitted : b (ancilla.wire 1) = !x.testBit (w.coin.width - 1)

/-- The wires that a valve acts on. -/
def valveWires (w : Wiring) (counter ancilla : Register) : List ℕ :=
  w.coin.wires ++ (counter.wires ++ ancilla.wires)

variable {w : Wiring} {n : ℕ} {counter ancilla : Register} {x : ℕ} {b c : ℕ → Bool}

/-- The bits behind a valve are determined by what they are on other wires. -/
theorem Crossed.unique (hwidth : ancilla.width = 2) (hb : w.Crossed counter ancilla x b)
    (hc : w.Crossed counter ancilla x c)
    (hout : ∀ q ∉ w.valveWires counter ancilla, b q = c q) : b = c := by
  have hcoin := Register.read_eq_iff.mp (hb.coin.trans hc.coin.symm)
  have hcounter := Register.read_eq_iff.mp (hb.counter.trans hc.counter.symm)
  funext q
  by_cases hq : q ∈ w.valveWires counter ancilla
  · rcases List.mem_append.mp hq with hq | hq
    · exact hcoin q hq
    · rcases List.mem_append.mp hq with hq | hq
      · exact hcounter q hq
      · -- one of the two crossing wires
        obtain ⟨k, hk, rfl⟩ := List.mem_map.mp hq
        rw [List.mem_range, hwidth] at hk
        obtain rfl | rfl : k = 0 ∨ k = 1 := by omega
        · rw [hb.blocked, hc.blocked]
        · rw [hb.permitted, hc.permitted]
  · exact hout q hq

section
variable (hap : w.Apart n) (hcounter : w.control = some counter)
  (hancilla : w.ancilla = some ancilla)
include hap hcounter hancilla

theorem Apart.arriving_of_index (hb : w.Arriving counter ancilla x (index n b).testBit) :
    w.Arriving counter ancilla x b := by
  have hread : ∀ r : Register, r.stop ≤ n → r.read (index n b).testBit = r.read b := by
    intro r hr
    rw [Register.read_testBit, Register.valueIn_index hr]
  exact ⟨(hread _ (hap.stop _ (by simp))).symm.trans hb.coin,
    (hread _ (hap.stop _ (by simp [hcounter]))).symm.trans hb.counter,
    (hread _ (hap.stop _ (by simp [hancilla]))).symm.trans hb.ancilla⟩

theorem Apart.disjoint_valveWires : (w.valveWires counter ancilla).Disjoint w.position.wires := by
  have hcontrol := hap.control_position
  rw [controlWires_of_some hcounter] at hcontrol
  intro q hq hq'
  rcases List.mem_append.mp hq with hq | hq
  · exact hap.position_coin hq' hq
  · exact (List.mem_append.mp hq).elim (fun hq => hcontrol hq hq')
      fun hq => hap.position_ancilla hancilla hq' hq

variable (hwidth : ancilla.width = 2) (hpos : 0 < w.coin.width)
include hwidth hpos

/-- **The flips of a valve lead across it**, and change its own wires only. -/
theorem Apart.crossed_of_arriving {R : Type} {onPlane : List Control}
    (hon : ∀ e ∈ onPlane, e.wire ∈ w.position.wires) (hm : Met onPlane b)
    (hb : w.Arriving counter ancilla x b) :
    let gs : List (Gate R) := Gate.valveFlips onPlane (w.coin.wire (w.coin.width - 1))
      (ancilla.wire 0) (ancilla.wire 1) counter
    w.Crossed counter ancilla x (Gate.sendAll gs b) ∧
      ∀ q ∉ w.valveWires counter ancilla, Gate.sendAll gs b q = b q := by
  intro gs
  have htop : w.coin.wire (w.coin.width - 1) ∈ w.coin.wires := Register.wire_mem (by omega)
  have hflag : ∀ k < 2, ancilla.wire k ∈ ancilla.wires := fun k hk =>
    Register.wire_mem (hwidth ▸ hk)
  obtain ⟨hnd, hout⟩ := hap.nodup_valve hcounter hancilla hwidth htop
  have hout' := fun e he => hout e.wire (hon e he)
  have hzero : ∀ k < 2, b (ancilla.wire k) = false := fun k hk =>
    Register.eq_false_of_read_eq_zero hb.ancilla (hflag k hk)
  have hsend : Gate.sendAll gs b = _ := Gate.sendAll_valveFlips_eq hnd hout' hm (hzero 0 (by omega))
    (hzero 1 (by omega)) fun q hq => Register.eq_false_of_read_eq_zero hb.counter hq
  have hx : b (w.coin.wire (w.coin.width - 1)) = x.testBit (w.coin.width - 1) := by
    rw [← hb.coin, Register.testBit_read (by omega)]
  have hcoin : ∀ k < 2, ancilla.wire k ∉ w.coin.wires := fun k hk hq =>
    hap.coin_ancilla hancilla hq (hflag k hk)
  have hcontrol : counter.wires.Disjoint w.coin.wires := by
    have hdisjoint := hap.control_coin
    rwa [controlWires_of_some hcounter] at hdisjoint
  simp only [List.nodup_cons, List.mem_cons, not_or] at hnd
  obtain ⟨⟨htb, htp, htc⟩, ⟨hbp, hbc⟩, hpc, -⟩ := hnd
  rw [hsend]
  refine ⟨⟨?_, ?_, ?_, ?_⟩, fun q hq => ?_⟩
  · -- before its top wire is cleared, the coin is as it was
    rw [Register.read_clear_top hpos, ← hb.coin]
    congr 1
    refine Register.read_congr fun q hq => ?_
    rw [Register.put_of_notMem fun hq' => hcontrol hq' hq,
      Function.update_of_ne (ne_of_mem_of_not_mem hq (hcoin 1 (by omega))),
      Function.update_of_ne (ne_of_mem_of_not_mem hq (hcoin 0 (by omega)))]
  · have hpow := Nat.two_pow_pos counter.width
    rw [Register.read_update htc, Register.read_put, Nat.mod_eq_of_lt (by omega)]
  · rw [Function.update_of_ne (Ne.symm htb), Register.put_of_notMem hbc,
      Function.update_of_ne hbp, Function.update_self, hx]
  · rw [Function.update_of_ne (Ne.symm htp), Register.put_of_notMem hpc, Function.update_self, hx]
  · simp only [valveWires, List.mem_append, not_or] at hq
    obtain ⟨hqcoin, hqcounter, hqancilla⟩ := hq
    rw [Function.update_of_ne (ne_of_mem_of_not_mem htop hqcoin).symm,
      Register.put_of_notMem hqcounter,
      Function.update_of_ne (ne_of_mem_of_not_mem (hflag 1 (by omega)) hqancilla).symm,
      Function.update_of_ne (ne_of_mem_of_not_mem (hflag 0 (by omega)) hqancilla).symm]

end

end Wiring

/-! ### The block of a valve -/

namespace BoundaryControl

/-- **A one-way control with its registers**, which lets walkers pass when its counter is full. -/
structure IsValve {R : Type} (c : BoundaryControl R) (w : Wiring) (counter ancilla : Register) :
    Prop where
  oneWay : c.permeability = .oneWay counter.width
  state : c.state = Pattern.ones counter.width
  counts : w.control = some counter
  records : w.ancilla = some ancilla
  crossing : ancilla.width = 2
  directed : 0 < w.coin.width

/-- What the gates of a valve ask for. -/
def askPlane (plane : Boundary) (w : Wiring) : List Control :=
  controlsOn w.position.wires (Pattern.wireBits plane.pattern)

/-- The flips of a valve on its registers. -/
def crossFlips {R : Type} (plane : Boundary) (w : Wiring) (counter ancilla : Register) :
    List (Gate R) :=
  Gate.valveFlips (askPlane plane w) (w.coin.wire (w.coin.width - 1)) (ancilla.wire 0)
    (ancilla.wire 1) counter

theorem Mounted.met_askPlane {R : Type} [Scalar R] {c : BoundaryControl R} {plane : Boundary}
    {coin : Operator R} {w : Wiring} {n : ℕ} (h : c.Mounted plane coin w n) {b : ℕ → Bool} :
    Met (askPlane plane w) b ↔ w.position.read b = Pattern.value plane.pattern :=
  Operator.met_controlsOn h.pattern

namespace IsValve

section
variable {R : Type} [Scalar R] {c : BoundaryControl R} {plane : Boundary} {coin : Operator R}
  {w : Wiring} {n : ℕ} {counter ancilla : Register} (hv : c.IsValve w counter ancilla)
  (h : c.Mounted plane coin w n)
include hv h

/-- **The block of a valve** is built. Its operations are in order, none is a reset, and its gates
take the coin back on the plane and then flip. -/
theorem exists_ops : ∃ ops, c.block plane coin w = .ok ops ∧ (∀ op ∈ ops, op.Within n) ∧
    (∀ op ∈ ops, op.isReset = false) ∧
    gatesOf ops = (gatesOn w.coin.wires coin.inverseGates).map (Gate.under (askPlane plane w)) ++
      crossFlips plane w counter ancilla := by
  have hstate : IsPattern c.state counter.wires.length := by
    rw [hv.state, Register.length_wires]
    exact Pattern.isPattern_ones _
  have hcrossing : crossingWires w = .ok (ancilla.wire 0, ancilla.wire 1) := by
    unfold crossingWires
    rw [hv.records]
    exact if_pos hv.crossing
  have hdirection : directionWire w = .ok (w.coin.wire (w.coin.width - 1)) := by
    unfold directionWire Register.top?
    rw [if_neg hv.directed.ne']
  have hcounter : (Operator.cyclicIncrement counter.width : Operator R).wires =
      counter.wires.length := (Register.length_wires counter).symm
  have hvalve := valve_eq_ok (R := R) h.pattern hstate h.width hcounter hcrossing hdirection
    (plane.label.or c.label)
  have hblock : c.block plane coin w =
      c.valve (.cyclicIncrement counter.width) plane coin w counter.wires
        (plane.label.or c.label) := by
    unfold block
    rw [h.controlWires_eq_ok, hv.oneWay, Wiring.controlWires_of_some hv.counts]
    rfl
  refine ⟨_, hblock.trans hvalve, fun op hop => ?_, fun op hop => ?_, ?_⟩
  · rw [← Wiring.controlWires_of_some hv.counts] at hvalve hop
    exact (wellFormed_valve h.apart h.derived.fits.2
      (Operator.Derived.cyclicIncrement counter.width).fits.1 hvalve op hop).toWithin
  · simp only [valveOps, List.mem_cons, List.not_mem_nil, or_false] at hop
    rcases hop with rfl | rfl | rfl | rfl | rfl | rfl | rfl <;> rfl
  · exact gatesOf_valveOps_of_ones h.pattern hv.state hv.directed _ _ _

omit [Scalar R] h in
theorem top_mem : w.coin.wire (w.coin.width - 1) ∈ w.coin.wires :=
  Register.wire_mem (Nat.sub_lt hv.directed one_pos)

theorem nodup_crossFlips :
    (w.coin.wire (w.coin.width - 1) :: ancilla.wire 0 :: ancilla.wire 1 :: counter.wires).Nodup ∧
      ∀ e ∈ askPlane plane w, e.wire ∉
        w.coin.wire (w.coin.width - 1) :: ancilla.wire 0 :: ancilla.wire 1 :: counter.wires := by
  obtain ⟨hnd, hout⟩ :=
    h.apart.nodup_valve hv.counts hv.records hv.crossing hv.top_mem
  exact ⟨hnd, fun e he => hout e.wire (Operator.wire_mem_of_controlsOn he)⟩

theorem isFlip_crossFlips {g : Gate R} (hg : g ∈ crossFlips plane w counter ancilla) : g.IsFlip :=
  (Gate.mem_valveFlips (hv.nodup_crossFlips h).1 (hv.nodup_crossFlips h).2 hg).1

theorem crossed_of_arriving {x : ℕ} {b : ℕ → Bool}
    (hb : w.position.read b = Pattern.value plane.pattern) (hx : w.Arriving counter ancilla x b) :
    w.Crossed counter ancilla x
        (Gate.sendAll (crossFlips plane w counter ancilla : List (Gate R)) b) ∧
      ∀ q ∉ w.valveWires counter ancilla,
        Gate.sendAll (crossFlips plane w counter ancilla : List (Gate R)) b q = b q :=
  h.apart.crossed_of_arriving hv.counts hv.records hv.crossing hv.directed
    (fun _ he => Operator.wire_mem_of_controlsOn he) (h.met_askPlane.mpr hb) hx

theorem read_position_crossFlips {gs : List (Gate R)}
    (hgs : ∀ g ∈ gs, g ∈ crossFlips plane w counter ancilla) (b : ℕ → Bool) :
    w.position.read (Gate.sendAll gs b) = w.position.read b := by
  obtain ⟨hnd, hout⟩ := hv.nodup_crossFlips h
  have hposition := (h.apart.nodup_valve hv.counts hv.records hv.crossing hv.top_mem).2
  refine Register.read_congr fun q hq => Gate.sendAll_of_ne (fun g hg => ?_) b
  exact ne_of_mem_of_not_mem (Gate.mem_valveFlips hnd hout (hgs g hg)).2.1 (hposition q hq)

end

section
variable {c : BoundaryControl ℝ} {plane : Boundary} {coin : Operator ℝ} {w : Wiring} {n : ℕ}
  {counter ancilla : Register} (hv : c.IsValve w counter ancilla) (h : c.Mounted plane coin w n)
  {x : ℕ} {ψ : Wave ℝ} {b : ℕ → Bool}
include hv h

/-- A block that consists of the inverse coin on the plane and the flips, behind a coin. -/
theorem actAll_behind_coin (ψ : Wave ℝ) {b : ℕ → Bool} :
    Gate.actAll ((gatesOn w.coin.wires coin.inverseGates).map (Gate.under (askPlane plane w)) ++
        crossFlips plane w counter ancilla)
      (Gate.actAll (gatesOn w.coin.wires coin.gates) ψ) b =
      if w.position.read b = Pattern.value plane.pattern then
        Gate.actAll (crossFlips plane w counter ancilla) ψ b
      else Gate.actAll (gatesOn w.coin.wires coin.gates) ψ b := by
  obtain ⟨hnd, hout⟩ := hv.nodup_crossFlips h
  have hback : ∀ g ∈ gatesOn w.coin.wires coin.inverseGates, ∀ e ∈ askPlane plane w,
      e.wire ≠ g.target := by
    intro g hg e he heq
    have htarget := h.target_turnBack (List.mem_append_left _ hg)
    exact h.apart.position_coin (Operator.wire_mem_of_controlsOn he) (heq ▸ htarget)
  have hundo : ∀ φ : Wave ℝ, Gate.actAll (gatesOn w.coin.wires coin.inverseGates)
      (Gate.actAll (gatesOn w.coin.wires coin.gates) φ) = φ := by
    have hnone : ∀ g ∈ ([] : List (Gate ℝ)), ∀ q ∈ g.wires, q ∉ w.coin.wires := nofun
    exact h.derived.undone_behind h.width hnone
  split_ifs with hb
  · exact Gate.actAll_valve_of_met hnd hout hback hundo (h.met_askPlane.mpr hb) ψ
  · exact Gate.actAll_valve_of_not_met hnd hout _ (mt h.met_askPlane.mp hb) _

/-- **Whatever is on the plane behind the flips has crossed the valve**, if what came there did so
with the coin `x`. -/
theorem crossed_of_ne_zero (hψ : ψ.Supported (w.Arriving counter ancilla x))
    (hb : w.position.read b = Pattern.value plane.pattern)
    (hne : Gate.actAll (crossFlips plane w counter ancilla) ψ b ≠ 0) :
    w.Crossed counter ancilla x b := by
  have hflip : ∀ g ∈ (crossFlips plane w counter ancilla : List (Gate ℝ)), g.IsFlip := fun g hg =>
    hv.isFlip_crossFlips h hg
  rw [Gate.actAll_flips_reverse hflip ψ.flipExact_real] at hne
  have hback := Gate.sendAll_reverse (fun g hg => hflip g (List.mem_reverse.mp hg)) b
  rw [List.reverse_reverse] at hback
  have hposition := hv.read_position_crossFlips h (fun g hg => List.mem_reverse.mp hg) b
  rw [← hback]
  exact (hv.crossed_of_arriving h (hposition.trans hb) (hψ _ hne)).1

/-- **Every amplitude crosses the valve** unchanged. -/
theorem actAll_crossFlips_of_crossed (hb : w.position.read b = Pattern.value plane.pattern)
    (hx : w.Arriving counter ancilla x b) {b' : ℕ → Bool} (hx' : w.Crossed counter ancilla x b')
    (hout : AgreeOff (w.valveWires counter ancilla) b b') :
    Gate.actAll (crossFlips plane w counter ancilla) ψ b' = ψ b := by
  obtain ⟨hcrossed, hkeep⟩ := hv.crossed_of_arriving h hb hx
  have hsame : b' = Gate.sendAll (crossFlips plane w counter ancilla : List (Gate ℝ)) b :=
    hx'.unique hv.crossing hcrossed fun q hq => (hout q hq).trans (hkeep q hq).symm
  rw [hsame]
  exact Gate.actAll_flips (fun g hg => hv.isFlip_crossFlips h hg) ψ.flipExact_real b

end

end IsValve

/-- **A one-way block is a valve.** To its plane comes a walker with the coin `x` behind the coin
operator, with counter and crossing wires at zero, in any superposition with the rest of the
program. Off the plane the block leaves every amplitude. On the plane every amplitude moves to where
the most significant bit of the coin is cleared, the counter is full, and of the crossing wires the
first is set if that bit was one and the second if it was zero; nothing else is left on the
plane. -/
theorem valve_crosses {c : BoundaryControl ℝ} {plane : Boundary} {coin : Operator ℝ} {w : Wiring}
    {n : ℕ} {counter ancilla : Register} (hv : c.IsValve w counter ancilla)
    (h : c.Mounted plane coin w n) {x : ℕ} {v : StateVector ℝ} (hwires : v.wires = n)
    (hsize : v.amplitudes.size = 2 ^ n)
    (hx : ∀ i < 2 ^ n, v.amplitude i ≠ 0 → w.Arriving counter ancilla x i.testBit) :
    ∃ ops toss u v', c.block plane coin w = .ok ops ∧ coin.bind w.coin.wires = .ok toss ∧
      Leads [toss] v u ∧ Leads ops u v' ∧
      (∀ j < 2 ^ n, w.position.valueIn j ≠ Pattern.value plane.pattern →
        v'.amplitude j = u.amplitude j) ∧
      (∀ j < 2 ^ n, w.position.valueIn j = Pattern.value plane.pattern → v'.amplitude j ≠ 0 →
        w.Crossed counter ancilla x j.testBit) ∧
      ∀ i < 2 ^ n, ∀ j < 2 ^ n, w.position.valueIn i = Pattern.value plane.pattern →
        w.Arriving counter ancilla x i.testBit → w.Crossed counter ancilla x j.testBit →
        AgreeOff (w.valveWires counter ancilla) i.testBit j.testBit →
        v'.amplitude j = v.amplitude i := by
  subst hwires
  obtain ⟨ops, hblock, hwithin, hreset, hgates⟩ := hv.exists_ops h
  have hlen : w.coin.wires.length = coin.wires := by rw [Register.length_wires, h.width]
  have hshows : v.Shows v.wave := StateVector.shows_wave hsize
  have hψ : v.wave.Supported (w.Arriving counter ancilla x) := fun b hb =>
    h.apart.arriving_of_index hv.counts hv.records (hx _ (index_lt _ b) hb)
  have hcoin : ∀ op ∈ [coin.bound w.coin.wires], op.Within v.wires ∧ op.isReset = false := by
    intro op hop
    rw [List.mem_singleton.mp hop]
    exact ⟨h.within_bound.1, rfl⟩
  obtain ⟨u, htoss, hu, hshowsu⟩ := Simulation.leads_of_shows hshows hcoin
  rw [Operation.gatesOf_cons, Operation.gatesOf_nil, List.append_nil] at hshowsu
  obtain ⟨v', hrun, hv', hshows'⟩ := Simulation.leads_of_shows hshowsu
    fun op hop => ⟨hu ▸ hwithin op hop, hreset op hop⟩
  rw [hgates] at hshows'
  have hvalue : ∀ j < 2 ^ v.wires, v'.amplitude j =
      if w.position.valueIn j = Pattern.value plane.pattern then
        Gate.actAll (crossFlips plane w counter ancilla) v.wave j.testBit
      else u.amplitude j := by
    intro j hj
    rw [← Register.read_testBit, hshowsu.amplitude j (hu.symm ▸ hj)]
    exact (hshows'.amplitude j (hv'.trans hu ▸ hj)).trans (hv.actAll_behind_coin h v.wave)
  refine ⟨ops, _, u, v', hblock, Operator.bind_eq_ok hlen, htoss, hrun, fun j hj hoff => ?_,
    fun j hj hplane hne => ?_, fun i hi j hj hplane hx hx' hagree => ?_⟩
  · rw [hvalue j hj, if_neg hoff]
  · rw [hvalue j hj, if_pos hplane] at hne
    exact hv.crossed_of_ne_zero h hψ (by rwa [Register.read_testBit]) hne
  · have hplane' : w.position.valueIn j = Pattern.value plane.pattern := by
      rw [← hplane, ← Register.read_testBit, ← Register.read_testBit]
      exact hagree.read (h.apart.disjoint_valveWires hv.counts hv.records)
    rw [hvalue j hj, if_pos hplane', hshows.amplitude i hi]
    exact hv.actAll_crossFlips_of_crossed h (by rwa [Register.read_testBit]) hx hx' hagree

/-- A walker on the upper of two sites with the coin that leads down, and a counter of two wires:
the coin is turned, the counter is full, and the first crossing wire is set. -/
theorem valve_crosses_down :
    let w : Wiring := ⟨⟨"dimension0", .dimension 0, 0, 1⟩, ⟨"coin", .coin, 1, 1⟩,
      some ⟨"boundary0 control", .control 0, 2, 2⟩, some ⟨"boundary0 ancilla", .ancilla 0, 4, 2⟩⟩
    ∃ ops toss u v', (ofPermeability (.oneWay 2) : BoundaryControl ℝ).block ⟨"1", 0, none⟩
        (.hadamard 1) w = .ok ops ∧
      (Operator.hadamard 1).bind [1] = .ok toss ∧ Leads [toss] (.basis 6 3) u ∧ Leads ops u v' ∧
      v'.amplitude 29 = 1 := by
  intro w
  have hlaid : [w.position, w.coin, ⟨"boundary0 control", .control 0, 2, 2⟩,
      ⟨"boundary0 ancilla", .ancilla 0, 4, 2⟩].Pairwise fun r s => r.stop ≤ s.start := by decide
  have hmounted : (ofPermeability (.oneWay 2) : BoundaryControl ℝ).Mounted ⟨"1", 0, none⟩
      (.hadamard 1) w 6 :=
    ⟨Pattern.isPattern_ones 2, isPattern_one, .hadamard 1, rfl, rfl,
      ⟨hlaid.imp Register.disjoint_of_stop_le, by decide⟩⟩
  have hvalve : (ofPermeability (.oneWay 2) : BoundaryControl ℝ).IsValve w
      ⟨"boundary0 control", .control 0, 2, 2⟩ ⟨"boundary0 ancilla", .ancilla 0, 4, 2⟩ :=
    ⟨rfl, rfl, rfl, rfl, rfl, one_pos⟩
  have harriving : w.Arriving ⟨"boundary0 control", .control 0, 2, 2⟩
      ⟨"boundary0 ancilla", .ancilla 0, 4, 2⟩ 1 (3 : ℕ).testBit := by
    constructor <;> rw [Register.read_testBit] <;> decide
  have hcrossed : w.Crossed ⟨"boundary0 control", .control 0, 2, 2⟩
      ⟨"boundary0 ancilla", .ancilla 0, 4, 2⟩ 1 (29 : ℕ).testBit :=
    ⟨by rw [Register.read_testBit]; decide, by rw [Register.read_testBit]; decide, by decide,
      by decide⟩
  have hstart : ∀ i < 2 ^ 6, (StateVector.basis 6 3 : StateVector ℝ).amplitude i ≠ 0 →
      w.Arriving ⟨"boundary0 control", .control 0, 2, 2⟩
        ⟨"boundary0 ancilla", .ancilla 0, 4, 2⟩ 1 i.testBit := by
    intro i hi hne
    rw [(StateVector.shows_basis (by decide)).amplitude i hi] at hne
    exact Wave.supported_basis harriving _ hne
  obtain ⟨ops, toss, u, v', hblock, htoss, hleads, hleads', -, -, hmoved⟩ :=
    valve_crosses hvalve hmounted (v := .basis 6 3) rfl (by simp [StateVector.basis]) hstart
  refine ⟨ops, toss, u, v', hblock, htoss, hleads, hleads', ?_⟩
  refine (hmoved 3 (by decide) 29 (by decide) (by decide) harriving hcrossed fun q hq => ?_).trans
    rfl
  by_cases hlow : q < 6
  · interval_cases q
    · rfl
    all_goals exact absurd (by decide) hq
  · have hpow : 2 ^ 6 ≤ 2 ^ q := Nat.pow_le_pow_right two_pos (by omega)
    rw [Nat.testBit_lt_two_pow (lt_of_lt_of_le (by decide) hpow),
      Nat.testBit_lt_two_pow (lt_of_lt_of_le (by decide) hpow)]

end BoundaryControl

end LatticeWalk
