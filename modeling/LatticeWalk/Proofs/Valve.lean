import LatticeWalk.Proofs.Preparation

/-! # Valves

What the block of a one-way control does on its plane.

* `Gate.valveFlips`: its gates but for those that take the coin back. What they leave if counter and
  crossing wires are at zero is `Gate.sendAll_valveFlips_eq`, and in particular a coin that shows no
  move down (`Gate.sendAll_valveFlips`).
* `BoundaryControl.gatesOf_valveOps_of_ones`: the gates of a valve that is closed at its default
  state.
* `WalkSpec.Valved`, `Plan.Valve`: a walk with a valve, and the registers of the valve.
* `Plan.Sound.gatesOf_planeOps_valve`: the gates of a block. Off the plane they do nothing
  (`Plan.Sound.actAll_planeOps_of_not_onPlane`). -/

namespace LatticeWalk

open Function (update)
open Operation (gatesOf)
open Operator (controlsOn)

variable {R : Type}

/-! ### The flips of a valve -/

namespace Gate

/-- The direction that the coin shows is recorded in one of the crossing wires. -/
def recordFlips (onPlane : List Control) (top blocked permitted : ℕ) : List (Gate R) :=
  [(plain .flip blocked).under (⟨top, true⟩ :: onPlane),
    (plain .flip permitted).under (⟨top, false⟩ :: onPlane)]

/-- The coin is turned round, and once more for walkers that are let pass. -/
def turnFlips (onPlane : List Control) (top permitted : ℕ) (counter : Register) : List (Gate R) :=
  [(plain .flip top).under onPlane,
    (plain .flip top).under (controlsOn counter.wires
      (Pattern.wireBits (Pattern.ones counter.width)) ++ ⟨permitted, true⟩ :: onPlane)]

/-- The gates of a valve but for those that take the coin back. -/
def valveFlips (onPlane : List Control) (top blocked permitted : ℕ) (counter : Register) :
    List (Gate R) :=
  recordFlips onPlane top blocked permitted ++ counter.borrowGates.map (under onPlane) ++
    turnFlips onPlane top permitted counter

/-- A crossing wire at zero records whether the coin shows a direction. -/
theorem send_flag {onPlane : List Control} {top flag : ℕ} {v : Bool} {b : ℕ → Bool}
    (hm : Met onPlane b) (hflag : b flag = false) :
    ((plain .flip flag).under (⟨top, v⟩ :: onPlane) : Gate R).send b =
      update b flag (b top == v) := by
  rw [send_under, send_plain]
  by_cases hv : b top = v
  · rw [if_pos (met_cons.mpr ⟨hv, hm⟩), hflag, hv, beq_self_eq_true, Bool.not_false]
  · rw [if_neg fun h => hv (met_cons.mp h).1, beq_eq_false_iff_ne.mpr hv, ← hflag,
      Function.update_eq_self]

section
variable {onPlane : List Control} {top blocked permitted : ℕ} {counter : Register}
  (hnd : (top :: blocked :: permitted :: counter.wires).Nodup)
  (hout : ∀ c ∈ onPlane, c.wire ∉ top :: blocked :: permitted :: counter.wires)
include hnd hout

theorem mem_valveFlips {g : Gate R} (hg : g ∈ valveFlips onPlane top blocked permitted counter) :
    g.IsFlip ∧ g.target ∈ top :: blocked :: permitted :: counter.wires ∧
      ∀ c ∈ onPlane, c ∈ g.controls := by
  have hplain : ∀ {t : ℕ} {cs : List Control},
      t ∈ top :: blocked :: permitted :: counter.wires → (∀ c ∈ cs, c.wire ≠ t) →
      (∀ c ∈ onPlane, c ∈ cs) → ((plain .flip t).under cs : Gate R).IsFlip ∧
        ((plain .flip t).under cs : Gate R).target ∈ top :: blocked :: permitted :: counter.wires ∧
        ∀ c ∈ onPlane, c ∈ ((plain .flip t).under cs : Gate R).controls := fun ht hne hsub =>
    ⟨(isFlip_plain _).under hne, ht, fun c hc => List.mem_append_left _ (hsub c hc)⟩
  have hne : ∀ {t : ℕ}, t ∈ top :: blocked :: permitted :: counter.wires →
      ∀ c ∈ onPlane, c.wire ≠ t := fun ht c hc => (ne_of_mem_of_not_mem ht (hout c hc)).symm
  simp only [List.nodup_cons, List.mem_cons, not_or] at hnd
  obtain ⟨⟨htb, htp, htc⟩, -⟩ := hnd
  simp only [valveFlips, recordFlips, turnFlips, List.mem_append, List.mem_cons, List.mem_map,
    List.not_mem_nil, or_false] at hg
  rcases hg with ((rfl | rfl) | ⟨g, hg, rfl⟩) | rfl | rfl
  · exact hplain (by simp) (List.forall_mem_cons.mpr ⟨htb, hne (by simp)⟩)
      fun c hc => by simp [hc]
  · exact hplain (by simp) (List.forall_mem_cons.mpr ⟨htp, hne (by simp)⟩)
      fun c hc => by simp [hc]
  · have ht : g.target ∈ counter.wires := Register.target_mem_of_borrowGates hg
    have ht' : g.target ∈ top :: blocked :: permitted :: counter.wires := by simp [ht]
    exact ⟨(Register.isFlip_borrowGates hg).under (hne ht'), ht',
      fun c hc => List.mem_append_left _ hc⟩
  · exact hplain (by simp) (hne (by simp)) fun c hc => hc
  · refine hplain (by simp) (fun c hc => ?_) fun c hc => by simp [hc]
    rcases List.mem_append.mp hc with hc | hc
    · exact ne_of_mem_of_not_mem (Operator.wire_mem_of_controlsOn hc) htc
    · rcases List.mem_cons.mp hc with rfl | hc
      · exact Ne.symm htp
      · exact hne (by simp) c hc

/-- **The record**: the walker came down, or it came up. -/
theorem sendAll_recordFlips {b : ℕ → Bool} (hm : Met onPlane b) (hb : b blocked = false)
    (hp : b permitted = false) :
    sendAll (recordFlips onPlane top blocked permitted : List (Gate R)) b =
      update (update b blocked (b top)) permitted (!b top) := by
  simp only [List.nodup_cons, List.mem_cons, not_or] at hnd hout
  obtain ⟨⟨htb, -⟩, ⟨hbp, -⟩, -⟩ := hnd
  have hm1 : Met onPlane (update b blocked (b top)) :=
    (met_update (fun c hc => (hout c hc).2.1) _ _).mpr hm
  have hp1 : update b blocked (b top) permitted = false := by
    rw [Function.update_of_ne (Ne.symm hbp), hp]
  rw [recordFlips, sendAll_cons, send_flag hm hb, beq_true, sendAll_cons, send_flag hm1 hp1,
    sendAll_nil, Function.update_of_ne htb, beq_false]

/-- **The turns**: if the counter is full, and the crossing wire has recorded who is let pass, the
coin shows no move down. -/
theorem sendAll_turnFlips {b : ℕ → Bool} (hm : Met onPlane b) (hp : b permitted = !b top)
    (hc : counter.read b = 2 ^ counter.width - 1) :
    sendAll (turnFlips onPlane top permitted counter : List (Gate R)) b = update b top false := by
  simp only [List.nodup_cons, List.mem_cons, not_or] at hnd hout
  obtain ⟨⟨-, htp, htc⟩, -⟩ := hnd
  rw [turnFlips, sendAll_cons, send_under, if_pos hm, send_plain, sendAll_cons, sendAll_nil,
    send_under, send_plain]
  set b' := update b top (!b top) with hb'
  have htop : b' top = !b top := Function.update_self _ _ _
  have hpass : Met (controlsOn counter.wires (Pattern.wireBits (Pattern.ones counter.width)) ++
      ⟨permitted, true⟩ :: onPlane) b' ↔ b top = false := by
    have hm' : Met onPlane b' := (met_update (fun c hc => (hout c hc).1) _ _).mpr hm
    have hp' : b' permitted = !b top := by rw [hb', Function.update_of_ne (Ne.symm htp), hp]
    have hc' : counter.read b' = 2 ^ counter.width - 1 := by
      rw [hb', Register.read_update htc, hc]
    rw [met_append, met_cons, Operator.met_controlsOn (Pattern.isPattern_ones _),
      Pattern.value_ones, hp']
    simp [hc', hm']
  cases ht : b top with
  | false => rw [if_pos (hpass.mpr ht), htop, ht, hb', Function.update_idem]; rfl
  | true => rw [if_neg (by rw [hpass, ht]; simp), hb', ht]; rfl

/-- **What a valve leaves**, if counter and crossing wires were at zero: the way of arrival in the
crossing wires, a full counter, and a coin that shows no move down. -/
theorem sendAll_valveFlips_eq {b : ℕ → Bool} (hm : Met onPlane b) (hb : b blocked = false)
    (hp : b permitted = false) (hc : ∀ q ∈ counter.wires, b q = false) :
    sendAll (valveFlips onPlane top blocked permitted counter : List (Gate R)) b =
      update (counter.put (update (update b blocked (b top)) permitted (!b top))
        (2 ^ counter.width - 1)) top false := by
  have hrecord := sendAll_recordFlips (R := R) hnd hout hm hb hp
  have hturn := @sendAll_turnFlips R _ _ _ _ _ hnd hout
  simp only [List.nodup_cons, List.mem_cons, not_or] at hnd hout
  obtain ⟨⟨htb, htp, htc⟩, ⟨hbp, hbc⟩, hpc, -⟩ := hnd
  rw [valveFlips, sendAll_append, sendAll_append, hrecord]
  set b' := update (update b blocked (b top)) permitted (!b top) with hb'
  have hm' : Met onPlane b' :=
    (met_update (fun c hc => (hout c hc).2.2.1) _ _).mpr
      ((met_update (fun c hc => (hout c hc).2.1) _ _).mpr hm)
  have hzero : counter.read b' = 0 := by
    refine Register.read_eq_zero fun q hq => ?_
    rw [hb', Function.update_of_ne (ne_of_mem_of_not_mem hq hpc),
      Function.update_of_ne (ne_of_mem_of_not_mem hq hbc), hc q hq]
  -- the counter goes from zero to its last value
  have hcount : ∀ g ∈ (counter.borrowGates : List (Gate R)), ∀ c ∈ onPlane, c.wire ≠ g.target :=
    fun g hg c hc =>
      (ne_of_mem_of_not_mem (Register.target_mem_of_borrowGates hg) (hout c hc).2.2.2).symm
  rw [sendAll_under hcount, if_pos hm', Register.sendAll_borrow, hzero, Nat.zero_add]
  have hkeep : ∀ q ∉ counter.wires, counter.put b' (2 ^ counter.width - 1) q = b' q :=
    fun q hq => Register.put_of_notMem hq _ _
  refine hturn (fun c hc => (hkeep _ (hout c hc).2.2.2).trans (hm' c hc)) ?_ ?_
  · rw [hkeep permitted hpc, hkeep top htc, hb', Function.update_self, Function.update_of_ne htp,
      Function.update_of_ne htb]
  · have hpos := Nat.two_pow_pos counter.width
    rw [Register.read_put, Nat.mod_eq_of_lt (by omega)]

/-- **After a valve the coin shows no move down**, whatever it showed before. -/
theorem sendAll_valveFlips {b : ℕ → Bool} (hm : Met onPlane b) (hb : b blocked = false)
    (hp : b permitted = false) (hc : ∀ q ∈ counter.wires, b q = false) :
    sendAll (valveFlips onPlane top blocked permitted counter : List (Gate R)) b top = false := by
  rw [sendAll_valveFlips_eq hnd hout hm hb hp hc, Function.update_self]

theorem actAll_valve_of_not_met [Scalar R] (back : List (Gate R)) {b : ℕ → Bool}
    (hb : ¬ Met onPlane b) (ψ : Wave R) :
    actAll (back.map (under onPlane) ++ valveFlips onPlane top blocked permitted counter) ψ b =
      ψ b := by
  refine actAll_of_not_met hb (fun g hg e he => ?_) ψ
  rcases List.mem_append.mp hg with hg | hg
  · obtain ⟨g', -, rfl⟩ := List.mem_map.mp hg
    exact List.mem_append_left _ he
  · exact (mem_valveFlips hnd hout hg).2.2 e he

/-- On the plane, behind a coin that it takes back, a valve flips what was there before the coin. -/
theorem actAll_valve_of_met {back toss : List (Gate ℝ)}
    (hback : ∀ g ∈ back, ∀ c ∈ onPlane, c.wire ≠ g.target)
    (hundo : ∀ ψ, actAll back (actAll toss ψ) = ψ) {b : ℕ → Bool} (hb : Met onPlane b)
    (ψ : Wave ℝ) :
    actAll (back.map (under onPlane) ++ valveFlips onPlane top blocked permitted counter)
      (actAll toss ψ) b = actAll (valveFlips onPlane top blocked permitted counter) ψ b := by
  rw [actAll_append]
  refine actAll_congr (P := Met onPlane) (fun g hg => blind_met fun c hc => ?_)
    (fun e he => ?_) b hb
  · exact (ne_of_mem_of_not_mem (mem_valveFlips hnd hout hg).2.1 (hout c hc)).symm
  · rw [actAll_under hback, if_pos he, hundo]

end

end Gate

/-! ### The block of a valve -/

theorem Wiring.Apart.nodup_valve {w : Wiring} {n : ℕ} (hap : w.Apart n)
    {counter ancilla : Register} (hcounter : w.control = some counter)
    (hancilla : w.ancilla = some ancilla) (hwidth : ancilla.width = 2) {top : ℕ}
    (htop : top ∈ w.coin.wires) :
    (top :: ancilla.wire 0 :: ancilla.wire 1 :: counter.wires).Nodup ∧
      ∀ q ∈ w.position.wires, q ∉ top :: ancilla.wire 0 :: ancilla.wire 1 :: counter.wires := by
  have hwires := Wiring.controlWires_of_some hcounter
  have hcontrolCoin := hap.control_coin
  have hcontrolPosition := hap.control_position
  have hcontrolAncilla := hap.control_ancilla hancilla
  rw [hwires] at hcontrolCoin hcontrolPosition hcontrolAncilla
  have hmem : ∀ q < 2, ancilla.wire q ∈ ancilla.wires := fun q hq =>
    Register.wire_mem (hwidth ▸ hq)
  have hcoin : ∀ q < 2, ancilla.wire q ∉ w.coin.wires := fun q hq hq' =>
    hap.coin_ancilla hancilla hq' (hmem q hq)
  have hcontrol : ∀ q < 2, ancilla.wire q ∉ counter.wires := fun q hq hq' =>
    hcontrolAncilla hq' (hmem q hq)
  have hposition : ∀ q < 2, ancilla.wire q ∉ w.position.wires := fun q hq hq' =>
    hap.position_ancilla hancilla hq' (hmem q hq)
  simp only [List.nodup_cons, List.mem_cons, not_or]
  refine ⟨⟨⟨?_, ?_, fun hq => hcontrolCoin hq htop⟩, ⟨by simp [Register.wire], ?_⟩, ?_,
    counter.nodup_wires⟩, fun q hq => ⟨?_, ?_, ?_, fun hq' => hcontrolPosition hq' hq⟩⟩
  · exact ne_of_mem_of_not_mem htop (hcoin 0 (by omega))
  · exact ne_of_mem_of_not_mem htop (hcoin 1 (by omega))
  · exact hcontrol 0 (by omega)
  · exact hcontrol 1 (by omega)
  · exact ne_of_mem_of_not_mem hq fun hq' => hap.position_coin hq' htop
  · exact ne_of_mem_of_not_mem hq (hposition 0 (by omega))
  · exact ne_of_mem_of_not_mem hq (hposition 1 (by omega))

/-- **The gates of a valve** that lets walkers pass when its counter is full: on the plane the coin
is taken back, then the flips follow. -/
theorem BoundaryControl.gatesOf_valveOps_of_ones [Scalar R] {c : BoundaryControl R}
    {plane : Boundary} {coin : Operator R} {w : Wiring} {counter : Register}
    (hplane : IsPattern plane.pattern w.position.width)
    (hstate : c.state = Pattern.ones counter.width) (hpos : 0 < w.coin.width)
    (label : Option String) (blocked permitted : ℕ) :
    gatesOf (c.valveOps (.cyclicIncrement counter.width) plane coin w counter.wires label blocked
        permitted (w.coin.wire (w.coin.width - 1))) =
      (Operator.gatesOn w.coin.wires coin.inverseGates).map
          (Gate.under (controlsOn w.position.wires (Pattern.wireBits plane.pattern))) ++
        Gate.valveFlips (controlsOn w.position.wires (Pattern.wireBits plane.pattern))
          (w.coin.wire (w.coin.width - 1)) blocked permitted counter := by
  have hcontrol : IsPattern c.state counter.wires.length := by
    rw [hstate, Register.length_wires]
    exact Pattern.isPattern_ones _
  rw [gatesOf_valveOps hplane hcontrol, Operator.gatesOn_cyclicIncrement,
    Operator.gatesOn_directionReversal hpos, hstate]
  simp [Gate.valveFlips, Gate.recordFlips, Gate.turnFlips]

/-! ### A walk with a valve -/

/-- **A walk with a valve.** Its only control is a counter of `bits` wires that lets walkers pass
upwards, closed at its default state, and reset after each step; the planes stand at different
values of one dimension, which has at least four. -/
structure WalkSpec.Valved (spec : WalkSpec R) (c : BoundaryControl R) (bits d : ℕ) : Prop where
  only : spec.controls = [c]
  oneWay : c.permeability = .oneWay bits
  counts : 0 < bits
  state : c.state = Pattern.ones bits
  resets : 0 < c.resets
  dimension : ∀ p ∈ c.boundaries, p.dimension = d
  apart : (c.boundaries.map fun p => Pattern.value p.pattern).Nodup
  wide : ∃ w, spec.widths[d]? = some w ∧ 2 ≤ w

theorem WalkSpec.Valved.sound {spec : WalkSpec R} {c : BoundaryControl R} {bits d : ℕ}
    (hv : spec.Valved c bits d) : ∀ c' ∈ spec.controls, c'.Sound := by
  intro c' hc'
  rw [hv.only, List.mem_singleton] at hc'
  rw [hc']
  have hwidth : c.controlWidth = bits := by
    rw [BoundaryControl.controlWidth, hv.oneWay]
    rfl
  exact ⟨by rw [hwidth, hv.state]; exact Pattern.isPattern_ones _, fun _ => hwidth ▸ hv.counts⟩

theorem Installed.mem_registers {c : BoundaryControl R} {counter ancilla r : Register} :
    r ∈ (⟨c, some counter, some ancilla⟩ : Installed R).registers ↔ r = counter ∨ r = ancilla := by
  simp [registers]

namespace Plan

/-- The registers of a valve: its counter, and the two crossing wires. -/
structure Valve (plan : Plan R) (c : BoundaryControl R) (bits : ℕ) (counter ancilla : Register) :
    Prop where
  controls : plan.controls = [⟨c, some counter, some ancilla⟩]
  counter : counter.width = bits
  crossing : ancilla.width = 2

theorem Valve.mem {plan : Plan R} {c : BoundaryControl R} {bits : ℕ} {counter ancilla : Register}
    (hc : plan.Valve c bits counter ancilla) :
    (⟨c, some counter, some ancilla⟩ : Installed R) ∈ plan.controls := by
  simp [hc.controls]

theorem Valve.eq_of_mem {plan : Plan R} {c : BoundaryControl R} {bits : ℕ}
    {counter ancilla : Register} (hc : plan.Valve c bits counter ancilla) {i : Installed R}
    (hi : i ∈ plan.controls) : i = ⟨c, some counter, some ancilla⟩ := by
  rwa [hc.controls, List.mem_singleton] at hi

theorem Valve.planes_eq {plan : Plan R} {c : BoundaryControl R} {bits : ℕ}
    {counter ancilla : Register} (hc : plan.Valve c bits counter ancilla) :
    plan.planes = c.boundaries.map fun p => (0, p) := by
  simp [planes, Walk.planes, Walk.ofPlan, hc.controls]

namespace Sound

variable [Scalar R] {plan : Plan R} {spec : WalkSpec R} (h : plan.Sound spec)
  {c : BoundaryControl R} {bits d : ℕ} (hv : spec.Valved c bits d)
include h hv

theorem exists_valve : ∃ counter ancilla, plan.Valve c bits counter ancilla := by
  have hcontrols := h.controls
  rw [hv.only] at hcontrols
  obtain ⟨i, hi, rfl⟩ := List.map_eq_singleton_iff.mp hcontrols
  have hwired := h.wired i (by simp [hi])
  have hwidth : i.control.controlWidth = bits := by
    rw [BoundaryControl.controlWidth, hv.oneWay]
    rfl
  have hcounter := hwired.exists_register (hwidth ▸ hv.counts)
  have hancilla := hwired.ancilla
  rw [BoundaryControl.ancillaWidth, hv.oneWay, Permeability.ancillaWidth, if_neg (by simp),
    Option.map_eq_some_iff] at hancilla
  obtain ⟨counter, hr, hbits⟩ := hcounter
  obtain ⟨ancilla, ha, hcrossing⟩ := hancilla
  exact ⟨counter, ancilla, by rw [hi, ← hr, ← ha], hbits.trans hwidth, hcrossing⟩

variable {counter ancilla : Register} (hc : plan.Valve c bits counter ancilla)
include hc

omit hv in
theorem nodup_valve {p : Boundary} (hp : p ∈ c.boundaries) :
    (plan.topWire :: ancilla.wire 0 :: ancilla.wire 1 :: counter.wires).Nodup ∧
      ∀ e ∈ plan.askPlane p,
        e.wire ∉ plan.topWire :: ancilla.wire 0 :: ancilla.wire 1 :: counter.wires := by
  have hap := h.wiring_apart hc.mem (h.plane_ok hc.mem hp).1
  obtain ⟨hnd, hout⟩ := hap.nodup_valve rfl rfl hc.crossing h.topWire_mem
  exact ⟨hnd, fun e he => hout e.wire (Operator.wire_mem_of_controlsOn he)⟩

/-- **The block of a plane**: on the plane the coin is taken back, then the flips of a valve follow.
-/
theorem gatesOf_planeOps_valve {p : Boundary} (hp : p ∈ c.boundaries) :
    gatesOf (plan.planeOps (0, p)) = plan.undoGates.map (Gate.under (plan.askPlane p)) ++
      Gate.valveFlips (plan.askPlane p) plan.topWire (ancilla.wire 0) (ancilla.wire 1) counter := by
  have hops : plan.planeOps (0, p) = c.valveOps (.cyclicIncrement counter.width) p plan.coin
      (plan.wiring ⟨c, some counter, some ancilla⟩ p) counter.wires (p.label.or c.label)
      (ancilla.wire 0) (ancilla.wire 1) plan.topWire := by
    simp only [planeOps, hc.controls, List.getElem?_cons_zero, BoundaryControl.blockOps, hv.oneWay,
      wiring, hc.counter]
    rfl
  have hstate : c.state = Pattern.ones counter.width := by rw [hv.state, hc.counter]
  rw [hops]
  exact BoundaryControl.gatesOf_valveOps_of_ones (h.plane_ok hc.mem hp).2 hstate h.coin_pos _ _ _

omit hv in
theorem met_askPlane_valve {p : Boundary} (hp : p ∈ c.boundaries) {b : ℕ → Bool} :
    Met (plan.askPlane p) b ↔ plan.OnPlane p b :=
  Operator.met_controlsOn (h.plane_ok hc.mem hp).2

omit hv in
theorem disjoint_position {p : Boundary} (hp : p ∈ c.boundaries) :
    (plan.coinRegister.wires ++ (counter.wires ++ ancilla.wires)).Disjoint
      (plan.positionOf p.dimension).wires := by
  have hap := h.wiring_apart hc.mem (h.plane_ok hc.mem hp).1
  intro t ht hq
  rcases List.mem_append.mp ht with ht | ht
  · exact hap.position_coin hq ht
  · rcases List.mem_append.mp ht with ht | ht
    · exact hap.control_position ht hq
    · exact hap.position_ancilla rfl hq ht

omit hv in
theorem blind_onPlane {p : Boundary} (hp : p ∈ c.boundaries) {t : ℕ}
    (ht : t ∈ plan.coinRegister.wires ++ (counter.wires ++ ancilla.wires)) :
    Blind (plan.OnPlane p) t := blind_read (h.disjoint_position hc hp ht) _

theorem target_planeOps {p : Boundary} (hp : p ∈ c.boundaries) {g : Gate R}
    (hg : g ∈ gatesOf (plan.planeOps (0, p))) :
    g.target ∈ plan.coinRegister.wires ++ (counter.wires ++ ancilla.wires) := by
  have hstate : IsPattern c.state c.controlWidth := (hv.sound c (by simp [hv.only])).state
  simp only [planeOps, hc.controls, List.getElem?_cons_zero] at hg
  rcases BoundaryControl.target_blockOps (h.suits hc.mem p) (h.plane_ok hc.mem hp).2 hstate
    (fun g hg => h.target_turnBack hg) hg with hcoin | ⟨-, r, hr, ht⟩
  · exact List.mem_append_left _ hcoin
  · have hr' : r = counter ∨ r = ancilla := Installed.mem_registers (c := c).mp hr
    rcases hr' with rfl | rfl
    · exact List.mem_append_right _ (List.mem_append_left _ ht)
    · exact List.mem_append_right _ (List.mem_append_right _ ht)

theorem actAll_planeOps_of_not_onPlane {p : Boundary} (hp : p ∈ c.boundaries) {b : ℕ → Bool}
    (hb : ¬ plan.OnPlane p b) (ψ : Wave R) :
    Gate.actAll (gatesOf (plan.planeOps (0, p))) ψ b = ψ b := by
  obtain ⟨hnd, hout⟩ := h.nodup_valve hc hp
  rw [← h.met_askPlane_valve hc hp] at hb
  rw [h.gatesOf_planeOps_valve hv hc hp]
  exact Gate.actAll_valve_of_not_met hnd hout _ hb ψ

end Sound

end Plan

end LatticeWalk
