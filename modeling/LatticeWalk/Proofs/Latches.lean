import LatticeWalk.Proofs.Preparation

/-! # Latches

The program of any walk begins with flips that write patterns into registers at zero: the state of
each latch, and the starting position along each dimension.

* `Plan.latches`: the registers of absorbing controls, with the patterns that keep these closed.
* `Plan.marks`: all registers that are written, with their patterns; `Plan.preparation_eq_flips`.
* `Plan.Sound.read_marks`, `Plan.Sound.prepared_eq_false`: the bits that the program begins with. -/

namespace LatticeWalk

open Operation (gatesOf)

variable {R : Type}

/-! ### What is written -/

namespace Installed

/-- The latch of a control, with the pattern that keeps the wall closed. -/
def latch? (c : Installed R) : Option (Register × String) :=
  match c.control.permeability, c.register with
  | .absorbing _, some r => some (r, c.control.state)
  | _, _ => none

theorem latch?_eq_some {c : Installed R} {p : Register × String} : c.latch? = some p ↔
    (∃ n, c.control.permeability = .absorbing n) ∧ c.register = some p.1 ∧
      c.control.state = p.2 := by
  unfold latch?
  cases c.control.permeability <;> cases c.register <;> simp [Prod.ext_iff]

theorem preparation_eq (c : Installed R) : c.control.preparation c.register =
    c.latch?.toList.flatMap fun p => Plan.flips p.1 p.2 := by
  unfold BoundaryControl.preparation latch?
  cases c.control.permeability <;> cases c.register <;> simp [Plan.flips]

end Installed

namespace Plan

/-- The latches of a plan, with their patterns. -/
def latches (plan : Plan R) : List (Register × String) := plan.controls.filterMap Installed.latch?

/-- The registers that a program writes when it begins, with their patterns. -/
def marks (plan : Plan R) : List (Register × String) :=
  plan.latches ++ plan.positions.zip (plan.initial.getD [])

theorem preparation_eq_flips (plan : Plan R) :
    plan.preparation = plan.marks.flatMap fun p => flips p.1 p.2 := by
  rw [preparation, marks, List.flatMap_append, latches, List.filterMap_eq_flatMap_toList,
    List.flatMap_assoc]
  simp only [Installed.preparation_eq]

theorem gatesOf_preparation_eq (plan : Plan R) :
    gatesOf plan.preparation = plan.marks.flatMap flipGates := by
  rw [preparation_eq_flips, Operation.gatesOf_flatMap]
  simp only [Plan.gatesOf_flips]

theorem isFlip_of_preparation {plan : Plan R} {g : Gate R} (hg : g ∈ gatesOf plan.preparation) :
    g.IsFlip := by
  rw [gatesOf_preparation_eq] at hg
  obtain ⟨p, -, hg⟩ := List.mem_flatMap.mp hg
  exact Plan.isFlip_flipGates hg

theorem isReset_of_preparation {plan : Plan R} {op : Operation R} (hop : op ∈ plan.preparation) :
    op.isReset = false := by
  rw [preparation_eq_flips] at hop
  obtain ⟨p, -, hop⟩ := List.mem_flatMap.mp hop
  obtain ⟨q, -, rfl⟩ := List.mem_map.mp hop
  rfl

/-- The gates that a program begins with lead from all wires at zero to its bits. -/
theorem actAll_preparation [Scalar R] [BitExact R] (plan : Plan R) :
    Gate.actAll (gatesOf plan.preparation) (Wave.basis fun _ => false) =
      (Wave.basis plan.prepared : Wave R) :=
  Gate.actAll_basis (fun _ hg => isFlip_of_preparation hg) _

namespace Sound

variable [Scalar R] {plan : Plan R} {spec : WalkSpec R} (h : plan.Sound spec)
include h

theorem mem_latches {p : Register × String} (hp : p ∈ plan.latches) :
    ∃ c ∈ plan.controls, c.register = some p.1 ∧ c.control.state = p.2 ∧
      p.1.width = c.control.controlWidth := by
  obtain ⟨c, hc, hlatch⟩ := List.mem_filterMap.mp hp
  obtain ⟨-, hr, hs⟩ := Installed.latch?_eq_some.mp hlatch
  exact ⟨c, hc, hr, hs, ((h.wired c hc).width_register hr).1⟩

theorem register_of_latches {p : Register × String} (hp : p ∈ plan.latches) :
    ∃ c ∈ plan.controls, p.1 ∈ c.registers := by
  obtain ⟨c, hc, hr, -⟩ := h.mem_latches hp
  exact ⟨c, hc, by simp [Installed.registers, hr]⟩

theorem register_of_marks {p : Register × String} (hp : p ∈ plan.marks) :
    p.1 ∈ plan.layout.registers := by
  rw [h.registers, List.mem_append, List.mem_cons, List.mem_flatMap]
  rcases List.mem_append.mp hp with hp | hp
  · exact .inr (.inr (h.register_of_latches hp))
  · exact .inl (List.of_mem_zip hp).1

theorem pairwise_marks : plan.marks.Pairwise fun p p' => p.1.wires.Disjoint p'.1.wires := by
  refine List.pairwise_append.mpr ⟨?_, h.pairwise_initial, fun p hp p' hp' => ?_⟩
  · have hcontrols := (List.pairwise_cons.mp (List.pairwise_append.mp h.apart).2.1).2
    refine List.pairwise_filterMap.mpr ((List.pairwise_flatMap.mp hcontrols).2.imp ?_)
    intro c c' hapart p hp p' hp'
    have hr := (Installed.latch?_eq_some.mp hp).2.1
    have hr' := (Installed.latch?_eq_some.mp hp').2.1
    exact Register.disjoint_of_stop_le
      (hapart p.1 (by simp [Installed.registers, hr]) p'.1 (by simp [Installed.registers, hr']))
  · obtain ⟨c, hc, hr⟩ := h.register_of_latches hp
    obtain ⟨d, hd, hpos⟩ := List.getElem_of_mem (List.of_mem_zip hp').1
    have hstop := h.position_control hd hc hr
    rw [Plan.positionOf, List.getD_eq_getElem _ _ hd, hpos] at hstop
    exact (Register.disjoint_of_stop_le hstop).symm

variable (hstates : ∀ c ∈ plan.controls, IsPattern c.control.state c.control.controlWidth)
include hstates

theorem isPattern_marks {p : Register × String} (hp : p ∈ plan.marks) :
    IsPattern p.2 p.1.width := by
  rcases List.mem_append.mp hp with hp | hp
  · obtain ⟨c, hc, -, hs, hwidth⟩ := h.mem_latches hp
    rw [← hs, hwidth]
    exact hstates c hc
  · exact h.isPattern_initial hp

theorem within_marks {op : Operation R} (hop : op ∈ plan.preparation) :
    op.Within plan.layout.width := by
  rw [preparation_eq_flips] at hop
  obtain ⟨p, hp, hop⟩ := List.mem_flatMap.mp hop
  obtain ⟨q, hq, rfl⟩ := List.mem_map.mp hop
  refine Operation.within_gate (Operator.fits_plain ?_ _)
  have hmem := Pattern.wire_mem (h.isPattern_marks hstates hp) hq
  exact (Register.mem_wires.mp hmem).2.trans_le (plan.layout.stop_le (h.register_of_marks hp))

/-- **The program begins with every pattern in its register**, -/
theorem read_marks {p : Register × String} (hp : p ∈ plan.marks) :
    p.1.read plan.prepared = Pattern.value p.2 := by
  rw [prepared, gatesOf_preparation_eq]
  exact Plan.read_sendAll_flips (fun p hp => h.isPattern_marks hstates hp) h.pairwise_marks
    (fun _ _ _ _ => rfl) p hp

/-- **and with all other wires at zero.** -/
theorem prepared_eq_false {q : ℕ} (hq : ∀ p ∈ plan.marks, q ∉ p.1.wires) :
    plan.prepared q = false := by
  refine Gate.sendAll_of_ne (fun g hg => ?_) _
  rw [gatesOf_preparation_eq] at hg
  obtain ⟨p, hp, hg⟩ := List.mem_flatMap.mp hg
  rintro rfl
  exact hq p hp (Plan.target_mem_of_flipGates (h.isPattern_marks hstates hp) hg)

end Sound

end Plan

end LatticeWalk
