import LatticeWalk.Proofs.Pass

/-! # Preparation

The program of a walk without latches begins with flips that put the walker in its place
(`Plan.Sound.read_prepared`). Steps are added behind it, with latches or without
(`Walk.addSteps_eq_ok_iff`, `Walk.operations_of_addSteps`). -/

namespace LatticeWalk

open Function (update)
open Operation (gatesOf)

/-! ### Flips of registers at zero -/

theorem Pattern.wire_mem {p : Register × String} (hp : IsPattern p.2 p.1.width) {q : ℕ}
    (hq : q ∈ Pattern.wires true p.2) : p.1.wire q ∈ p.1.wires := by
  have hlt := (Pattern.mem_wires.mp hq).1
  rw [hp.length] at hlt
  exact Register.wire_mem hlt

/-- The gates that write a pattern into a register at zero. -/
def Plan.flipGates {R : Type} (p : Register × String) : List (Gate R) :=
  (Pattern.wires true p.2).map fun q => .plain .flip (p.1.wire q)

variable {R : Type}

theorem Plan.gatesOf_flips (r : Register) (s : String) :
    gatesOf (Plan.flips r s : List (Operation R)) = Plan.flipGates (r, s) :=
  Operation.gatesOf_map_gate _ _

theorem Plan.target_mem_of_flipGates {p : Register × String} (hp : IsPattern p.2 p.1.width)
    {g : Gate R} (hg : g ∈ Plan.flipGates p) : g.target ∈ p.1.wires := by
  obtain ⟨q, hq, rfl⟩ := List.mem_map.mp hg
  exact Pattern.wire_mem hp hq

theorem Plan.isFlip_flipGates {p : Register × String} {g : Gate R} (hg : g ∈ Plan.flipGates p) :
    g.IsFlip := by
  obtain ⟨q, -, rfl⟩ := List.mem_map.mp hg
  exact Gate.isFlip_plain _

theorem Plan.read_sendAll_flipGates {p : Register × String} (hp : IsPattern p.2 p.1.width)
    {b : ℕ → Bool} (hb : ∀ q ∈ p.1.wires, b q = false) :
    p.1.read (Gate.sendAll (Plan.flipGates p : List (Gate R)) b) = Pattern.value p.2 := by
  have hsplit : (Plan.flipGates p : List (Gate R)) =
      ((Pattern.wires true p.2).map p.1.wire).map (.plain .flip) := by
    rw [List.map_map]
    rfl
  have hnd : ((Pattern.wires true p.2).map p.1.wire).Nodup :=
    (Pattern.nodup_wires true p.2).map fun _ _ e => Nat.add_left_cancel e
  have hmem : ∀ q, p.1.wire q ∈ (Pattern.wires true p.2).map p.1.wire ↔
      q ∈ Pattern.wires true p.2 := by
    intro q
    refine ⟨fun h => ?_, List.mem_map_of_mem⟩
    obtain ⟨u, hu, e⟩ := List.mem_map.mp h
    exact Nat.add_left_cancel e ▸ hu
  rw [hsplit, Gate.sendAll_plain hnd, Pattern.read_eq_value hp]
  intro q hq
  have hzero : b (p.1.wire q) = false := hb _ (Register.wire_mem hq)
  simp only [hmem, Pattern.mem_wires, hp.length, hzero, hq, true_and]
  cases (Pattern.wireBits p.2).getD q false <;> rfl

/-- Registers at zero, apart from each other, carry their patterns after the flips of all. -/
theorem Plan.read_sendAll_flips : ∀ {ps : List (Register × String)} {b : ℕ → Bool},
    (∀ p ∈ ps, IsPattern p.2 p.1.width) →
    ps.Pairwise (fun p p' => p.1.wires.Disjoint p'.1.wires) →
    (∀ p ∈ ps, ∀ q ∈ p.1.wires, b q = false) →
    ∀ p ∈ ps, p.1.read (Gate.sendAll (ps.flatMap Plan.flipGates : List (Gate R)) b) =
      Pattern.value p.2
  | [], _, _, _, _ => nofun
  | p :: ps, b, hpat, hdisj, hb => by
    obtain ⟨hp, hrest⟩ := List.pairwise_cons.mp hdisj
    set c := Gate.sendAll (Plan.flipGates p : List (Gate R)) b with hc
    -- the flips of one register leave the others at zero
    have hother : ∀ p' ∈ ps, ∀ q ∈ p'.1.wires, c q = false := by
      intro p' hp' q hq
      rw [hc, Gate.sendAll_of_ne fun g hg => ?_, hb p' (by simp [hp']) q hq]
      rintro rfl
      exact hp p' hp' (Plan.target_mem_of_flipGates (hpat p (by simp)) hg) hq
    intro p' hp'
    rw [List.flatMap_cons, Gate.sendAll_append]
    rcases List.mem_cons.mp hp' with rfl | hp'
    · rw [← Plan.read_sendAll_flipGates (R := R) (hpat p' (by simp)) (hb p' (by simp))]
      refine Register.read_congr fun q hq => Gate.sendAll_of_ne (fun g hg => ?_) _
      obtain ⟨p, hp', hg⟩ := List.mem_flatMap.mp hg
      rintro rfl
      exact hp p hp' hq (Plan.target_mem_of_flipGates (hpat p (by simp [hp'])) hg)
    · exact Plan.read_sendAll_flips (fun p hp => hpat p (by simp [hp])) hrest hother p' hp'

/-! ### The prepared walker -/

theorem BoundaryControl.preparation_eq_nil {c : BoundaryControl R}
    (h : ∀ wires, c.permeability ≠ .absorbing wires) (control : Option Register) :
    c.preparation control = [] := by
  unfold preparation
  split
  · exact absurd (by assumption) (h _)
  · rfl

/-- Where the walker starts along a dimension. -/
def WalkSpec.startOf (spec : WalkSpec R) (d : ℕ) : ℕ :=
  match spec.initial with
  | none => 0
  | some states => Pattern.value (states.getD d "")

namespace Plan

/-- The bits that the program of a walk begins with. -/
def prepared (plan : Plan R) : ℕ → Bool := Gate.sendAll (gatesOf plan.preparation) fun _ => false

section
variable {plan : Plan R} (hlatch : ∀ c ∈ plan.controls, c.control.preparation c.register = [])
include hlatch

theorem preparation_eq : plan.preparation =
    (plan.positions.zip (plan.initial.getD [])).flatMap fun p => Plan.flips p.1 p.2 := by
  rw [preparation, List.flatMap_eq_nil_iff.mpr hlatch, List.nil_append]

theorem gatesOf_preparation : gatesOf plan.preparation =
    (plan.positions.zip (plan.initial.getD [])).flatMap Plan.flipGates := by
  rw [preparation_eq hlatch, Operation.gatesOf_flatMap]
  simp only [Plan.gatesOf_flips]

theorem isFlip_preparation {g : Gate R} (hg : g ∈ gatesOf plan.preparation) : g.IsFlip := by
  rw [gatesOf_preparation hlatch] at hg
  obtain ⟨p, -, hg⟩ := List.mem_flatMap.mp hg
  exact Plan.isFlip_flipGates hg

theorem isReset_preparation {op : Operation R} (hop : op ∈ plan.preparation) :
    op.isReset = false := by
  rw [preparation_eq hlatch] at hop
  obtain ⟨p, -, hop⟩ := List.mem_flatMap.mp hop
  obtain ⟨q, -, rfl⟩ := List.mem_map.mp hop
  rfl

end

namespace Sound

variable [Scalar R] {plan : Plan R} {spec : WalkSpec R} (h : plan.Sound spec)
  (hlatch : ∀ c ∈ plan.controls, c.control.preparation c.register = [])
include h

theorem isPattern_initial {p : Register × String}
    (hp : p ∈ plan.positions.zip (plan.initial.getD [])) : IsPattern p.2 p.1.width := by
  obtain ⟨i, hi⟩ := List.mem_iff_getElem?.mp hp
  obtain ⟨hr, hs⟩ := List.getElem?_zip_eq_some.mp hi
  have hw : spec.widths[i]? = some p.1.width := by
    rw [← h.positions, List.getElem?_map, hr]
    rfl
  rw [h.initial] at hs
  cases hinit : spec.initial with
  | none =>
    rw [hinit] at hs
    simp at hs
  | some states =>
    rw [hinit] at hs
    exact (h.shape.initial states hinit).2 (p.2, p.1.width)
      (List.mem_iff_getElem?.mpr ⟨i, List.getElem?_zip_eq_some.mpr ⟨hs, hw⟩⟩)

theorem pairwise_initial : (plan.positions.zip (plan.initial.getD [])).Pairwise
    fun p p' => p.1.wires.Disjoint p'.1.wires := by
  have hp : plan.positions.Pairwise fun r s => r.wires.Disjoint s.wires :=
    (List.pairwise_append.mp h.apart).1.imp Register.disjoint_of_stop_le
  refine List.pairwise_iff_getElem.mpr fun i j hi hj hij => ?_
  rw [List.getElem_zip, List.getElem_zip]
  exact List.pairwise_iff_getElem.mp hp i j _ _ hij

include hlatch

theorem within_preparation {op : Operation R} (hop : op ∈ plan.preparation) :
    op.Within plan.layout.width := by
  rw [preparation_eq hlatch] at hop
  obtain ⟨p, hp, hop⟩ := List.mem_flatMap.mp hop
  obtain ⟨d, hd, hpos⟩ := List.getElem_of_mem (List.of_mem_zip hp).1
  obtain ⟨q, hq, rfl⟩ := List.mem_map.mp hop
  refine Operation.within_gate (Operator.fits_plain ?_ _)
  have hmem := Pattern.wire_mem (h.isPattern_initial hp) hq
  have hstop := h.stop_positionOf hd
  rw [Plan.positionOf, List.getD_eq_getElem _ _ hd, hpos] at hstop
  exact (Register.mem_wires.mp hmem).2.trans_le hstop

/-- **The walker begins in its place.** -/
theorem read_prepared {d : ℕ} (hd : d < plan.positions.length) :
    (plan.positionOf d).read plan.prepared = spec.startOf d := by
  unfold prepared WalkSpec.startOf
  rw [gatesOf_preparation hlatch]
  cases hinit : spec.initial with
  | none =>
    rw [h.initial, hinit]
    simp only [Option.getD_none, List.zip_nil_right, List.flatMap_nil, Gate.sendAll_nil]
    exact Register.read_eq_zero fun _ _ => rfl
  | some states =>
    rw [h.initial, hinit, Option.getD_some]
    have hds : d < states.length := by
      rw [(h.shape.initial states hinit).1, ← h.length_positions]
      exact hd
    have hmem : (plan.positionOf d, states.getD d "") ∈ plan.positions.zip states := by
      refine List.mem_iff_getElem?.mpr ⟨d, List.getElem?_zip_eq_some.mpr ⟨?_, ?_⟩⟩
      · exact Plan.getElem?_positions hd
      · rw [List.getD_eq_getElem _ _ hds, List.getElem?_eq_getElem hds]
    have hzip : plan.positions.zip states = plan.positions.zip (plan.initial.getD []) := by
      rw [h.initial, hinit, Option.getD_some]
    exact Plan.read_sendAll_flips (fun p hp => h.isPattern_initial (hzip ▸ hp))
      (hzip ▸ h.pairwise_initial) (fun _ _ _ _ => rfl) _ hmem

theorem within_program (hcoin : ∀ c ∈ plan.controls, c.coinOps = [])
    (hsound : ∀ c ∈ plan.controls, c.control.Sound) (n : ℕ) {op : Operation R}
    (hop : op ∈ plan.preparation ++ plan.stepsFrom 0 n) : op.Within plan.layout.width :=
  (List.mem_append.mp hop).elim (h.within_preparation hlatch) (h.within_stepsFrom hcoin hsound n)

end Sound

end Plan

namespace Walk

variable [Scalar R] {spec : WalkSpec R} {w₀ w : Walk R}

/-- **Steps of a walk that was built**, if its controls with planes are sound. -/
theorem addSteps_of_guarded (hbuild : build spec = .ok w₀) (hg : w₀.plan.Guarded) (n : ℕ) :
    ∃ w, (addSteps n).outcome w₀ = (.ok (), w) ∧ w.plan = w₀.plan ∧ w.Ready spec ∧
      w.phase = .idle ∧ w.program.operations = w.plan.preparation ++ w.plan.stepsFrom 0 n := by
  have hready := (build_eq_ok hbuild).1
  obtain ⟨hidle, hsteps, hops⟩ := fresh_of_build hbuild
  obtain ⟨w, hrun, hplan, hprogram, hphase, -⟩ := outcome_addSteps (n := n) hready hg hidle
  refine ⟨w, hrun, hplan, ⟨hplan ▸ hready.plan, ?_⟩, hphase, ?_⟩
  · rw [hprogram, hplan, ← hready.layout]
    rfl
  · rw [hprogram, hplan, hsteps, ← hops]
    rfl

theorem addSteps_of_build (hbuild : build spec = .ok w₀) (hsound : ∀ c ∈ spec.controls, c.Sound)
    (n : ℕ) : ∃ w, (addSteps n).outcome w₀ = (.ok (), w) ∧ w.Ready spec ∧ w.phase = .idle ∧
      w.program.operations = w.plan.preparation ++ w.plan.stepsFrom 0 n := by
  have hplan := (build_eq_ok hbuild).1.plan
  obtain ⟨w, hrun, -, hrest⟩ :=
    addSteps_of_guarded hbuild (.of_sound (hplan.of_controls hsound)) n
  exact ⟨w, hrun, hrest⟩

/-- **Steps are added** to a walk if and only if its controls with planes are sound. -/
theorem addSteps_eq_ok_iff (hbuild : build spec = .ok w₀)
    (hstates : ∀ c ∈ spec.controls, IsPattern c.state c.controlWidth) (n : ℕ) :
    (∃ w, (addSteps n).outcome w₀ = (.ok (), w)) ↔ n = 0 ∨ w₀.plan.Guarded := by
  have hready := (build_eq_ok hbuild).1
  cases n with
  | zero => exact ⟨fun _ => .inl rfl, fun _ => ⟨w₀, rfl⟩⟩
  | succ n =>
    refine ⟨fun ⟨w, hrun⟩ => .inr ?_, fun hg => ?_⟩
    · obtain ⟨_, w1, hstep, -⟩ := Attempt.outcome_bind_eq_ok hrun
      exact guarded_of_step hready (hready.plan.of_controls hstates) (fresh_of_build hbuild).1 hstep
    · obtain ⟨w, hrun, -⟩ := addSteps_of_guarded hbuild (hg.resolve_left n.succ_ne_zero) (n + 1)
      exact ⟨w, hrun⟩

/-- **The program of a walk whose steps were added.** -/
theorem operations_of_addSteps (hbuild : build spec = .ok w₀)
    (hstates : ∀ c ∈ spec.controls, IsPattern c.state c.controlWidth) {n : ℕ}
    (hrun : (addSteps n).outcome w₀ = (.ok (), w)) :
    w.plan = w₀.plan ∧ w.program.width = w₀.plan.layout.width ∧
      w.program.operations = w₀.plan.preparation ++ w₀.plan.stepsFrom 0 n := by
  rcases (addSteps_eq_ok_iff hbuild hstates n).mp ⟨w, hrun⟩ with rfl | hg
  · obtain rfl : w = w₀ := (congrArg Prod.snd hrun).symm
    refine ⟨rfl, (build_eq_ok hbuild).1.width, ?_⟩
    rw [(fresh_of_build hbuild).2.2]
    exact (List.append_nil _).symm
  · obtain ⟨w', hrun', hplan, hready', -, hops⟩ := addSteps_of_guarded hbuild hg n
    obtain rfl : w = w' := congrArg Prod.snd (hrun.symm.trans hrun')
    rw [← hplan]
    exact ⟨rfl, hready'.width, hops⟩

theorem within_of_addSteps (hbuild : build spec = .ok w₀)
    (hstates : ∀ c ∈ spec.controls, IsPattern c.state c.controlWidth)
    (hderived : ∀ c ∈ spec.controls, ∀ op, c.permeability = .permeable op → op.Derived) {n : ℕ}
    (hrun : (addSteps n).outcome w₀ = (.ok (), w)) :
    ∀ op ∈ w₀.plan.stepsFrom 0 n, op.Within w₀.plan.layout.width := by
  intro op hop
  have h := (build_eq_ok hbuild).1.plan
  rcases (addSteps_eq_ok_iff hbuild hstates n).mp ⟨w, hrun⟩ with rfl | hg
  · cases hop
  · exact h.within_steps (fun _ => h.within_coinOps_of_derived (h.of_controls hderived)) hg n hop

end Walk

end LatticeWalk
