import LatticeWalk.Proofs.Norm
import LatticeWalk.Proofs.Runs

/-! # Programs of the library

All that a walk puts into its program are operations of the library, if the operators of its
permeable controls are. So a simulation of the program, however far it comes, keeps the norm.

* `BoundaryControl.ofLibrary_block`: the operations of a block.
* `Plan.Emits.ofLibrary`: what calls add to a program.
* `Walk.norm_of_addSteps`: the norm behind the program of a walk. -/

namespace LatticeWalk

open Operation (OfLibrary)

/-! ### Blocks -/

namespace BoundaryControl

theorem ofLibrary_conditional {op : Operator ℝ} (hop : op.Derived) {bits : ℕ} {pattern : String}
    {inverted : Bool} {label : Option String} {wires : List ℕ} {operation : Operation ℝ}
    (h : conditional op bits pattern inverted label wires = .ok operation) :
    operation.OfLibrary := by
  obtain ⟨controlled, hcontrol, hbind⟩ := Except.bind_eq_ok.mp h
  exact .operator (.control hop hcontrol) hbind

variable {c : BoundaryControl ℝ} {plane : Boundary} {coin : Operator ℝ} (hcoin : coin.Derived)
  {w : Wiring} {ops : List (Operation ℝ)}
include hcoin

theorem ofLibrary_reflection {control : List ℕ} {label : Option String}
    (h : c.reflection plane coin w control label = .ok ops) : ∀ op ∈ ops, op.OfLibrary := by
  obtain ⟨back, hback, h⟩ := Except.bind_eq_ok.mp h
  obtain ⟨turn, hturn, h⟩ := Except.bind_eq_ok.mp h
  cases h
  simp only [List.forall_mem_cons, List.not_mem_nil, false_imp_iff, implies_true, and_true]
  exact ⟨ofLibrary_conditional hcoin hback, ofLibrary_conditional (.directionReversal _) hturn,
    .barrier⟩

theorem ofLibrary_valve {counter : Operator ℝ} (hcounter : counter.Derived) {control : List ℕ}
    {label : Option String} (h : c.valve counter plane coin w control label = .ok ops) :
    ∀ op ∈ ops, op.OfLibrary := by
  obtain ⟨⟨blocked, permitted⟩, -, h⟩ := Except.bind_eq_ok.mp h
  obtain ⟨direction, -, h⟩ := Except.bind_eq_ok.mp h
  obtain ⟨back, hback, h⟩ := Except.bind_eq_ok.mp h
  obtain ⟨cameDown, hcameDown, h⟩ := Except.bind_eq_ok.mp h
  obtain ⟨cameUp, hcameUp, h⟩ := Except.bind_eq_ok.mp h
  obtain ⟨count, hcount, h⟩ := Except.bind_eq_ok.mp h
  obtain ⟨turn, hturn, h⟩ := Except.bind_eq_ok.mp h
  obtain ⟨pass, hpass, h⟩ := Except.bind_eq_ok.mp h
  cases h
  simp only [List.forall_mem_cons, List.not_mem_nil, false_imp_iff, implies_true, and_true]
  exact ⟨ofLibrary_conditional hcoin hback, ofLibrary_conditional .crossingFlag hcameDown,
    ofLibrary_conditional .crossingFlag hcameUp, ofLibrary_conditional hcounter hcount,
    ofLibrary_conditional (.directionReversal _) hturn,
    ofLibrary_conditional (.directionReversal _) hpass, .barrier⟩

/-- **A block consists of operations of the library**, if the coin is. -/
theorem ofLibrary_block (h : c.block plane coin w = .ok ops) : ∀ op ∈ ops, op.OfLibrary := by
  obtain ⟨control, -, h⟩ := Except.bind_eq_ok.mp h
  split at h
  next bits _ => exact ofLibrary_valve hcoin (.cyclicIncrement bits) h
  next => exact ofLibrary_reflection hcoin h

end BoundaryControl

/-! ### Programs -/

/-- **What calls add is of the library**, if the operators of permeable controls are. -/
theorem Plan.Emits.ofLibrary {plan : Plan ℝ} {spec : WalkSpec ℝ} (hplan : plan.Sound spec)
    (hderived : ∀ c ∈ plan.controls, ∀ op, c.control.permeability = .permeable op → op.Derived)
    {op : Operation ℝ} (h : plan.Emits op) : op.OfLibrary := by
  have hcoin := (WalkSpec.directs_of_buildCoin hplan.coin).derived
  cases h with
  | barrier => exact .barrier
  | prepared hop =>
    rw [preparation_eq_flips] at hop
    obtain ⟨p, -, hop⟩ := List.mem_flatMap.mp hop
    obtain ⟨q, -, rfl⟩ := List.mem_map.mp hop
    exact .gate .flip
  | coin =>
    exact .operator hcoin (Operator.bind_eq_ok
      ((Register.length_wires _).trans hplan.isCoin.plain.wires.symm))
  | controlCoin hc hop =>
    obtain ⟨o, r, ho, hr, rfl⟩ := Installed.mem_coinOps hop
    have hwidth := ((hplan.wired _ hc).width_register hr).1
    rw [BoundaryControl.controlWidth, ho] at hwidth
    exact .operator (hderived _ hc o ho) (Operator.bind_eq_ok
      ((Register.length_wires r).trans hwidth))
  | block hc hd hblock hop => exact BoundaryControl.ofLibrary_block hcoin hblock op hop
  | shift hd hop =>
    rcases List.mem_append.mp hop with hop | hop
    · obtain ⟨i, -, rfl⟩ := List.mem_map.mp hop
      exact .gate .flip
    · rw [List.mem_singleton.mp hop]
      exact .barrier
  | selection hop =>
    obtain ⟨q, -, rfl⟩ := List.mem_map.mp hop
    exact .gate .flip
  | reset step hop =>
    obtain ⟨targets, rfl, -⟩ := hplan.eq_reset_of_resetOps hop
    exact .reset targets

namespace Walk

variable {spec : WalkSpec ℝ} {w₀ w : Walk ℝ} (hbuild : build spec = .ok w₀)
  (hderived : ∀ c ∈ spec.controls, ∀ op, c.permeability = .permeable op → op.Derived) {n : ℕ}
  (hrun : (addSteps n).outcome w₀ = (.ok (), w))
include hbuild hderived hrun

theorem ofLibrary_of_addSteps : ∀ op ∈ w.program.operations, op.OfLibrary := by
  have hplan := (build_eq_ok hbuild).1.plan
  have hextended := extended_addSteps n w₀
  rw [Attempt.Leads, hrun] at hextended
  have hcompiled := (compiled_of_build hbuild).extended hextended
  exact fun op hop => (hcompiled.emitted op hop).1.ofLibrary hplan (hplan.of_controls hderived)

/-- **A simulation of the program of a walk** ends in a state of norm one. -/
theorem norm_of_addSteps {draws : Draws ℝ} {s : Simulation ℝ}
    (hs : (Simulation.run w.program.operations).outcome ⟨.basis w.program.width 0, draws⟩ =
      (.ok (), s)) : s.vector.norm = 1 := by
  have hstart : (StateVector.basis w.program.width 0 : StateVector ℝ).Normal w.program.width
      w.program.width := ⟨rfl, by simp [StateVector.basis],
    StateVector.norm_basis (Nat.two_pow_pos _)⟩
  have hnormal := Simulation.normal_run (s := ⟨.basis w.program.width 0, draws⟩)
    (ofLibrary_of_addSteps hbuild hderived hrun) (fun _ _ _ _ => id) hstart
  rw [Attempt.Leads, hs] at hnormal
  exact hnormal.norm

end Walk

end LatticeWalk
