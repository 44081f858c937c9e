import LatticeWalk.Proofs.Footprint
import LatticeWalk.Proofs.Runs
import LatticeWalk.Proofs.Start

/-! # Strides

A step moves the walker by one site along one axis, or not at all (`Walk.moves_one_site`). Coins,
blocks and resets leave the positions, and the shift is one hop.

* `Stride`: one coordinate goes one up or one down; the sum of all changes its parity
  (`Stride.sum_mod_two`).
* `Plan.place`: the coordinates of the walker. It begins in `WalkSpec.start`
  (`Plan.Sound.place_prepared`).
* `WalkSpec.Next`: the places where a step may lead; `Plan.Sound.next_hop` proves this of a hop, and
  `Plan.Sound.next_of_step` of a whole step. -/

namespace LatticeWalk

/-! ### Coordinates -/

/-- One coordinate goes one up or one down, cyclically. -/
def Stride (widths x y : List ℕ) : Prop :=
  ∃ d w v, widths[d]? = some w ∧ x[d]? = some v ∧
    (y = x.set d ((v + 1) % 2 ^ w) ∨ y = x.set d ((v + 2 ^ w - 1) % 2 ^ w))

theorem sum_set_add {x : List ℕ} {d v : ℕ} (hv : x[d]? = some v) (z : ℕ) :
    (x.set d z).sum + v = x.sum + z := by
  induction x generalizing d with
  | nil => cases hv
  | cons a x ih =>
    cases d with
    | zero =>
      obtain rfl := Option.some.inj hv
      simp only [List.set_cons_zero, List.sum_cons]
      omega
    | succ d =>
      have hrest := ih hv
      simp only [List.set_cons_succ, List.sum_cons]
      omega

/-- **A stride changes the parity** of the sum of the coordinates. -/
theorem Stride.sum_mod_two {widths x y : List ℕ} (h : Stride widths x y)
    (hw : ∀ w ∈ widths, w ≠ 0) : y.sum % 2 = (x.sum + 1) % 2 := by
  obtain ⟨d, w, v, hwidth, hv, hy⟩ := h
  -- the number of sites along the axis is even
  obtain ⟨m, hm⟩ : 2 ∣ 2 ^ w := dvd_pow_self 2 (hw w (List.mem_of_getElem? hwidth))
  have hpos : 0 < 2 ^ w := Nat.two_pow_pos w
  have hmod : ∀ z, z % 2 ^ w % 2 = z % 2 := fun z => Nat.mod_mod_of_dvd z ⟨m, hm⟩
  rcases hy with rfl | rfl
  · have hsum := sum_set_add hv ((v + 1) % 2 ^ w)
    have hz := hmod (v + 1)
    omega
  · have hsum := sum_set_add hv ((v + 2 ^ w - 1) % 2 ^ w)
    have hz := hmod (v + 2 ^ w - 1)
    omega

namespace WalkSpec

variable {R : Type}

/-- The place in which the walker starts. -/
def start (spec : WalkSpec R) : List ℕ := (List.range spec.widths.length).map spec.startOf

/-- **Where a step may lead**: a stride away, or nowhere, if the coin has values that move nothing.
It has none if it has two values for each dimension and no more. -/
def Next (spec : WalkSpec R) (x y : List ℕ) : Prop :=
  Stride spec.widths x y ∨ 2 ^ spec.coinWidth ≠ 2 * spec.widths.length ∧ y = x

theorem Next.stride {spec : WalkSpec R} {x y : List ℕ} (h : spec.Next x y)
    (hcoin : 2 ^ spec.coinWidth = 2 * spec.widths.length) : Stride spec.widths x y :=
  h.resolve_right fun hstay => hstay.1 hcoin

end WalkSpec

namespace Plan

variable {R : Type}

/-- The coordinates of the walker. -/
def place (plan : Plan R) (b : ℕ → Bool) : List ℕ := plan.positions.map (·.read b)

theorem place_eq (plan : Plan R) (b : ℕ → Bool) : plan.place b =
    (List.range plan.positions.length).map fun d => (plan.positionOf d).read b := by
  refine List.ext_getElem (by simp [place]) fun d hd _ => ?_
  rw [place, List.length_map] at hd
  simp only [place, positionOf, List.getElem_map, List.getElem_range]
  rw [List.getD_eq_getElem _ _ hd]

theorem getElem?_place {plan : Plan R} {d : ℕ} (hd : d < plan.positions.length) (b : ℕ → Bool) :
    (plan.place b)[d]? = some ((plan.positionOf d).read b) := by
  rw [place, List.getElem?_map, getElem?_positions hd]
  rfl

theorem place_congr {plan : Plan R} {b c : ℕ → Bool} (hbc : ∀ d < plan.positions.length,
    (plan.positionOf d).read c = (plan.positionOf d).read b) : plan.place c = plan.place b := by
  rw [place_eq, place_eq]
  exact List.map_congr_left fun d hd => hbc d (List.mem_range.mp hd)

theorem place_eq_set {plan : Plan R} {b c : ℕ → Bool} {d z : ℕ}
    (hbc : ∀ e < plan.positions.length, (plan.positionOf e).read c =
      if e = d then z else (plan.positionOf e).read b) : plan.place c = (plan.place b).set d z := by
  rw [place_eq, place_eq]
  refine List.ext_getElem (by simp) fun e he _ => ?_
  rw [List.length_map, List.length_range] at he
  rw [List.getElem_map, List.getElem_range, hbc e he, List.getElem_set, List.getElem_map,
    List.getElem_range]
  exact if_congr eq_comm rfl rfl

namespace Sound

variable [Scalar R] {plan : Plan R} {spec : WalkSpec R} (h : plan.Sound spec)
include h

/-! ### A hop -/

theorem two_mul_half : 2 ^ plan.coinRegister.width = 2 * plan.half := by
  obtain ⟨k, hk, -⟩ := h.coin_eq
  rw [half, hk, Nat.add_sub_cancel, pow_succ, Nat.mul_comm]

/-- **A hop leads to a next place.** -/
theorem next_hop (b : ℕ → Bool) : spec.Next (plan.place b) (plan.place (plan.hopped b)) := by
  have hhalf := h.length_le_half
  have hcoin := plan.coinRegister.read_lt b
  rw [h.two_mul_half] at hcoin
  by_cases hright : plan.coinRegister.read b < plan.positions.length
  · refine .inl ⟨_, _, _, h.width_positionOf hright, getElem?_place hright b, .inl ?_⟩
    refine place_eq_set fun e he => ?_
    rw [h.read_hop he]
    by_cases hed : e = plan.coinRegister.read b
    · rw [← hed, if_pos rfl, if_pos rfl]
    · rw [if_neg (Ne.symm hed), if_neg (by omega), if_neg hed]
  by_cases hleft : plan.half ≤ plan.coinRegister.read b ∧
      plan.coinRegister.read b - plan.half < plan.positions.length
  · refine .inl ⟨_, _, _, h.width_positionOf hleft.2, getElem?_place hleft.2 b, .inr ?_⟩
    refine place_eq_set fun e he => ?_
    rw [h.read_hop he, if_neg (by omega)]
    by_cases hed : e = plan.coinRegister.read b - plan.half
    · rw [← hed, if_pos (by omega), if_pos rfl]
    · rw [if_neg (by omega), if_neg hed]
  · refine .inr ⟨fun hfull => ?_, place_congr fun e he => ?_⟩
    · rw [← h.coinRegister, h.two_mul_half, ← h.length_positions] at hfull
      omega
    · rw [h.read_hop he, if_neg (by omega), if_neg (by omega)]

/-- Loose wires are no part of the place. -/
theorem place_of_agreeOff {b c : ℕ → Bool} (hbc : AgreeOff plan.looseWires b c) :
    plan.place c = plan.place b :=
  place_congr fun _ hd => hbc.read (h.loose_disjoint_position hd)

/-! ### The start -/

variable (hstates : ∀ c ∈ plan.controls, IsPattern c.control.state c.control.controlWidth)
include hstates

theorem read_position_prepared {d : ℕ} (hd : d < plan.positions.length) :
    (plan.positionOf d).read plan.prepared = spec.startOf d := by
  unfold WalkSpec.startOf
  cases hinitial : spec.initial with
  | none =>
    refine Register.read_eq_zero fun q hq => h.prepared_eq_false hstates fun p hp hmem => ?_
    rcases List.mem_append.mp hp with hp | hp
    · obtain ⟨c, hc, hr⟩ := h.register_of_latches hp
      exact Register.disjoint_of_stop_le (h.position_control hd hc hr) hq hmem
    · rw [h.initial, hinitial] at hp
      simp at hp
  | some states =>
    have hlen : d < states.length := by
      rw [(h.shape.initial states hinitial).1, ← h.length_positions]
      exact hd
    obtain ⟨r, hr, hmark⟩ := h.mem_marks hinitial (List.getElem?_eq_getElem hlen)
    rw [Plan.getElem?_positions hd, Option.some.injEq] at hr
    have hvalue := h.read_marks hstates hmark
    rw [← List.getD_eq_getElem _ "" hlen] at hvalue
    rwa [hr]

theorem place_prepared : plan.place plan.prepared = spec.start := by
  rw [place_eq, WalkSpec.start, ← h.length_positions]
  exact List.map_congr_left fun d hd => h.read_position_prepared hstates (List.mem_range.mp hd)

end Sound

/-! ### A step -/

namespace Sound

variable {plan : Plan ℝ} {spec : WalkSpec ℝ} (h : plan.Sound spec)
  (hstates : ∀ c ∈ plan.controls, IsPattern c.control.state c.control.controlWidth)
  (hderived : ∀ c ∈ plan.controls, ∀ op, c.control.permeability = .permeable op → op.Derived)
include h hstates hderived

/-- **A step leads to a next place**, from a basis state of the same wires. -/
theorem next_of_step {step : ℕ} {outcomes : ℕ → Bool} {ψ : Wave ℝ} {b : ℕ → Bool}
    (hb : Operation.evolve (plan.stepOps step) outcomes ψ b ≠ 0) : ∃ c, ψ c ≠ 0 ∧
      spec.Next (plan.place c) (plan.place b) ∧ ∀ q, plan.layout.width ≤ q → c q = b q := by
  obtain ⟨-, e, c, hbe, hec, hc⟩ := h.exists_of_evolve_step hstates hderived hb
  refine ⟨c, hc, ?_, fun q hq => ?_⟩
  · rw [← h.place_of_agreeOff hbe, h.place_of_agreeOff hec]
    exact h.next_hop e
  · have hloose : q ∉ plan.looseWires := fun hmem => (h.lt_of_mem_looseWires hmem).not_ge hq
    have hpositions : ∀ d < plan.positions.length, q ∉ (plan.positionOf d).wires :=
      fun d hd hmem => ((Register.mem_wires.mp hmem).2.trans_le (h.stop_positionOf hd)).not_ge hq
    rw [hec q hloose, ← hbe q hloose, hopped_of_notMem hpositions]

/-- A step changes the parity of the sum of the coordinates if the coin always moves the walker. -/
theorem parity_step (hcoin : 2 ^ spec.coinWidth = 2 * spec.widths.length) (k : ℕ)
    (outcomes : ℕ → Bool) (ψ : Wave ℝ)
    (hψ : ψ.Supported fun b => (plan.place b).sum % 2 = (spec.start.sum + k) % 2) :
    (Operation.evolve (plan.stepOps (k + 1)) outcomes ψ).Supported fun b =>
      (plan.place b).sum % 2 = (spec.start.sum + (k + 1)) % 2 := by
  intro b hb
  obtain ⟨c, hc, hnext, -⟩ := h.next_of_step hstates hderived hb
  have hbefore := hψ c hc
  have hstride := (hnext.stride hcoin).sum_mod_two h.shape.widths
  omega

end Sound

end Plan

namespace Walk

/-- **A step moves the walker by one site along one axis at most.** However many steps were added to
a walk with controls of any kind, one more leads every place that carries amplitude, under any
outcomes of the resets, from a place that carried amplitude before. If the coin has two values for
each dimension and no more, it leads a stride away, and the sum of the coordinates has the parity of
the first one plus the number of steps. The basis states of every simulation that succeeds are led
in the same way. -/
theorem moves_one_site {spec : WalkSpec ℝ} {w₀ w : Walk ℝ} (hbuild : build spec = .ok w₀)
    (hstates : ∀ c ∈ spec.controls, IsPattern c.state c.controlWidth)
    (hderived : ∀ c ∈ spec.controls, ∀ op, c.permeability = .permeable op → op.Derived) {n : ℕ}
    (hrun : (addSteps n).outcome w₀ = (.ok (), w)) :
    (2 ^ spec.coinWidth = 2 * spec.widths.length → ∀ outcomes,
      (w.wave outcomes).Supported fun b =>
        (w₀.plan.place b).sum % 2 = (spec.start.sum + n) % 2) ∧
    ∀ w', step.outcome w = (.ok (), w') →
      (∀ outcomes, (w'.wave outcomes).Supported fun b => ∃ c, w.wave outcomes c ≠ 0 ∧
        spec.Next (w₀.plan.place c) (w₀.plan.place b)) ∧
      ∀ draws s', (Simulation.run w'.program.operations).outcome
          ⟨.basis w'.program.width 0, draws⟩ = (.ok (), s') →
        ∃ s, (Simulation.run w.program.operations).outcome ⟨.basis w.program.width 0, draws⟩ =
            (.ok (), s) ∧
          ∀ i < 2 ^ w.program.width, s'.vector.amplitude i ≠ 0 →
            ∃ j < 2 ^ w.program.width, s.vector.amplitude j ≠ 0 ∧
              spec.Next (w₀.plan.place j.testBit) (w₀.plan.place i.testBit) := by
  have h := (build_eq_ok hbuild).1.plan
  have hstates₀ := h.of_controls hstates
  have hderived₀ := h.of_controls hderived
  obtain ⟨hplan, hwidth, hops⟩ := operations_of_addSteps hbuild hstates hrun
  refine ⟨fun hcoin outcomes => ?_, fun w' hstep => ⟨fun outcomes b hb => ?_, fun draws s' hs' => ?_⟩⟩
  · exact supported_of_addSteps hbuild hstates hrun
      (P := fun k b => (w₀.plan.place b).sum % 2 = (spec.start.sum + k) % 2)
      (by rw [h.place_prepared hstates₀, Nat.add_zero]) (h.parity_step hstates₀ hderived₀ hcoin)
      outcomes
  · obtain ⟨-, rfl⟩ := appends_of_step hbuild hstates hrun hstep
    rw [wave, push, Operation.evolve_append, hplan] at hb
    obtain ⟨c, hc, hnext, -⟩ := h.next_of_step hstates₀ hderived₀ hb
    exact ⟨c, hc, hnext⟩
  · obtain ⟨s, hs, hwires, hwires', ψ, outcomes, a, a', ha, ha', hshows, hshows'⟩ :=
      shows_of_step hbuild hstates hrun hderived hstep hs'
    refine ⟨s, hs, fun i hi hne => ?_⟩
    rw [hplan] at hshows'
    obtain ⟨c, hc, hnext, hhigh⟩ := h.next_of_step hstates₀ hderived₀
      ((hshows'.amplitude_ne_zero ha' (hwires' ▸ hi)).mp hne)
    have htop : ∀ q, w.program.width ≤ q → c q = false := by
      intro q hq
      rw [hhigh q (hwidth ▸ hq)]
      exact Nat.testBit_lt_two_pow (hi.trans_le (Nat.pow_le_pow_right (by norm_num) hq))
    have hindex : (index w.program.width c).testBit = c := testBit_index_of_high htop
    refine ⟨index w.program.width c, index_lt _ _, ?_, by rwa [hindex]⟩
    rwa [hshows.amplitude_ne_zero ha (hwires ▸ index_lt _ _), hindex]

/-- The coin of two wires moves a walker on two axes with every value. -/
theorem moves_one_site_everyKind : ∃ w₀ : Walk ℝ, build everyKind = .ok w₀ ∧
    2 ^ everyKind.coinWidth = 2 * everyKind.widths.length ∧
    ∀ n, ∃ w w', (addSteps n).outcome w₀ = (.ok (), w) ∧ step.outcome w = (.ok (), w') ∧
      ∀ outcomes, ((w.wave outcomes).Supported fun b =>
          (w₀.plan.place b).sum % 2 = (everyKind.start.sum + n) % 2) ∧
        (w'.wave outcomes).Supported fun b => ∃ c, w.wave outcomes c ≠ 0 ∧
          Stride [2, 1] (w₀.plan.place c) (w₀.plan.place b) := by
  obtain ⟨w₀, hbuild⟩ : ∃ w₀ : Walk ℝ, build everyKind = .ok w₀ := ⟨_, rfl⟩
  have hcoin : 2 ^ everyKind.coinWidth = 2 * everyKind.widths.length := rfl
  refine ⟨w₀, hbuild, hcoin, fun n => ?_⟩
  obtain ⟨w, hrun, hready, hidle, -⟩ := addSteps_of_build hbuild sound_everyKind n
  have hstep := outcome_step hready (hready.plan.of_controls sound_everyKind) hidle
  obtain ⟨hparity, hmoves⟩ := moves_one_site hbuild states_everyKind derived_everyKind hrun
  refine ⟨w, _, hrun, hstep, fun outcomes => ⟨hparity hcoin outcomes, ?_⟩⟩
  exact ((hmoves _ hstep).1 outcomes).mono fun b ⟨c, hc, hnext⟩ => ⟨c, hc, hnext.stride hcoin⟩

end Walk

end LatticeWalk
