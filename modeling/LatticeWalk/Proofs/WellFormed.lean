import LatticeWalk.Proofs.Calls
import LatticeWalk.Proofs.Latches
import LatticeWalk.Proofs.Runs
import LatticeWalk.Backend.Local

/-! # Well-formed programs

A program refuses an operation with a wire outside its layout, but it does not look at the gates that
an operation consists of. Yet all operations that a walk adds are in order, so that a simulation
finds every wire of every gate, and no gate among its own controls.

* `Plan.Emits.wellFormed`: what calls add to a program is well formed.
* `Attempt.FailsAs`: the failures that an attempt may end in.
* `Simulation.failsAs_run`: those of a simulation of well-formed operations;
  `Local.failsAs_execute`: those of the device that simulates.
* `Walk.wellFormed_of_run`: the programs of walks, whatever these were asked. -/

namespace LatticeWalk

variable {R : Type} [Scalar R]

/-! ### What calls add -/

/-- **What calls add is in order**, if the operators of permeable controls are those of the
library. -/
theorem Plan.Emits.wellFormed {plan : Plan R} {spec : WalkSpec R} (hplan : plan.Sound spec)
    (hderived : ∀ c ∈ plan.controls, ∀ op, c.control.permeability = .permeable op → op.Derived)
    {op : Operation R} (h : plan.Emits op) (hwires : ∀ q ∈ op.wires, q < plan.layout.width) :
    op.WellFormed plan.layout.width := by
  cases h with
  | barrier => exact Operation.wellFormed_barrier _
  | prepared hop =>
    rw [preparation_eq_flips] at hop
    obtain ⟨p, -, hop⟩ := List.mem_flatMap.mp hop
    obtain ⟨q, -, rfl⟩ := List.mem_map.mp hop
    exact Operation.wellFormed_plain (hwires _ (List.mem_singleton_self _)) _
  | coin => exact Operator.wellFormed_bound hplan.isCoin.plain.fits hplan.stop_coin
  | controlCoin hc hop =>
    obtain ⟨o, r, rfl, hfit, hstop⟩ := hplan.controlCoin_of_derived hc (hderived _ hc) hop
    exact Operator.wellFormed_bound hfit hstop
  | block hc hd hblock hop =>
    exact BoundaryControl.wellFormed_block (hplan.wiring_apart hc hd) hplan.fits_coin_inverse
      (hplan.suits hc _) hblock op hop
  | shift hd hop =>
    -- a shift is a move on the value of all ones, without the flips that select it
    exact hplan.wellFormed_wrapped hd (Pattern.isPattern_ones _) op
      (List.mem_append_left _ (List.mem_append_left _ (List.mem_append_right _ hop)))
  | selection hop =>
    obtain ⟨q, -, rfl⟩ := List.mem_map.mp hop
    exact Operation.wellFormed_plain (hwires _ (List.mem_singleton_self _)) _
  | reset step hop =>
    obtain ⟨targets, rfl, -⟩ := hplan.eq_reset_of_resetOps hop
    exact Operation.wellFormed_reset hwires

/-! ### How attempts fail -/

namespace Attempt

variable {σ α β : Type}

/-- From states of some sort the attempt ends in such states, and it fails only in some ways. -/
def FailsAs (inv : σ → Prop) (fails : Failure → Prop) (x : Attempt σ α) : Prop :=
  ∀ s, inv s → inv (x.outcome s).2 ∧ ∀ e, (x.outcome s).1 = .error e → fails e

variable {inv : σ → Prop} {fails : Failure → Prop}

theorem failsAs_pure (a : α) : (pure a : Attempt σ α).FailsAs inv fails := fun _ hs => ⟨hs, nofun⟩

theorem failsAs_check {result : Except Failure α} (h : ∀ e, result = .error e → fails e) :
    (check result : Attempt σ α).FailsAs inv fails := fun _ hs => ⟨hs, h⟩

theorem FailsAs.bind {x : Attempt σ α} {f : α → Attempt σ β} (hx : x.FailsAs inv fails)
    (hf : ∀ a, (f a).FailsAs inv fails) : (x >>= f).FailsAs inv fails := by
  intro s hs
  obtain ⟨hinv, hfails⟩ := hx s hs
  rcases h : x.outcome s with ⟨e | a, s'⟩
  all_goals rw [h] at hinv hfails
  · rw [outcome_bind_of_error h]
    exact ⟨hinv, fun e' he' => hfails e' (by rw [Except.error.inj he'])⟩
  · rw [outcome_bind_of_ok h]
    exact hf a s' hinv

end Attempt

namespace Simulation

variable {n : ℕ}

/-- The simulation has `n` wires. -/
def Has (n : ℕ) (s : Simulation R) : Prop := s.vector.wires = n

/-- A measured wire has no amplitude for what was measured. -/
def Emptied (e : Failure) : Prop := ∃ wire, e = .simulation (.emptyBranch wire)

theorem failsAs_applyGate {g : Gate R} (h : g.Fits n) : (applyGate g).FailsAs (Has n) Emptied := by
  intro s hs
  obtain ⟨c, hc, -⟩ := StateVector.condition_of_fits (hs.symm ▸ h : g.Fits s.vector.wires)
  have hgate : s.vector.applyGate g =
      .ok (s.vector.transform g.transform.matrix g.target c) := by
    rw [StateVector.applyGate, hc]
    rfl
  rw [applyGate, Attempt.outcome_of, hgate]
  exact ⟨hs, fun e he => by cases he⟩

theorem failsAs_applyGates : ∀ {gs : List (Gate R)}, (∀ g ∈ gs, g.Fits n) →
    (applyGates gs).FailsAs (Has n) Emptied
  | [], _ => Attempt.failsAs_pure ()
  | g :: gs, h => (failsAs_applyGate (h g (by simp))).bind fun _ =>
      failsAs_applyGates fun g' hg' => h g' (by simp [hg'])

theorem failsAs_resetWire {q : ℕ} (h : q < n) :
    (resetWire q : Attempt (Simulation R) Unit).FailsAs (Has n) Emptied := by
  intro s hs
  obtain ⟨one, kept, draws, -, hrun⟩ :=
    outcome_resetWire (hs.symm ▸ h : q < s.vector.wires)
  rw [hrun]
  split_ifs
  · exact ⟨hs, fun e he => ⟨q, (Except.error.inj he).symm⟩⟩
  · exact ⟨hs, fun e he => by cases he⟩

theorem failsAs_resetWires : ∀ {qs : List ℕ}, (∀ q ∈ qs, q < n) →
    (resetWires qs : Attempt (Simulation R) Unit).FailsAs (Has n) Emptied
  | [], _ => Attempt.failsAs_pure ()
  | q :: qs, h => (failsAs_resetWire (h q (by simp))).bind fun _ =>
      failsAs_resetWires fun q' hq' => h q' (by simp [hq'])

theorem failsAs_apply {op : Operation R} (h : op.Within n) :
    (apply op).FailsAs (Has n) Emptied := by
  cases op with
  | gate g => exact failsAs_applyGate (h.gates g (List.mem_singleton_self g))
  | apply name label wires gates => exact failsAs_applyGates h.gates
  | reset targets => exact failsAs_resetWires h.wires
  | barrier => exact Attempt.failsAs_pure ()

/-- **A simulation of operations in order** fails only where a measured wire has no amplitude. -/
theorem failsAs_run : ∀ {ops : List (Operation R)}, (∀ op ∈ ops, op.Within n) →
    (run ops).FailsAs (Has n) Emptied
  | [], _ => Attempt.failsAs_pure ()
  | op :: ops, h => (failsAs_apply (h op (by simp))).bind fun _ =>
      failsAs_run fun op' hop' => h op' (by simp [hop'])

theorem start_cases (n : ℕ) (draws : Draws R) :
    start n draws = mistrust .noWires ∨ start n draws = mistrust (.tooManyWires n) ∨
      ∃ s, start n draws = .ok s ∧ s.Has n := by
  unfold start StateVector.zeros
  split_ifs
  · exact .inl rfl
  · cases Word.bit? n with
    | none => exact .inr (.inl rfl)
    | some dim => exact .inr (.inr ⟨_, rfl, rfl⟩)

end Simulation

/-- A gate names a wire that does not exist, or has its target among its controls. -/
def Failure.Miswired (e : Failure) : Prop :=
  (∃ wire wires, e = .simulation (.unknownWire wire wires)) ∨
    ∃ wire, e = .simulation (.controlIsTarget wire)

namespace Local

variable {c : Circuit R} (h : ∀ op ∈ c.operations, op.Within c.width)
include h

theorem failsAs_evolve : (evolve c).FailsAs (fun _ => True) fun e => ¬ e.Miswired := by
  intro draws _
  refine ⟨trivial, fun e he => ?_⟩
  rw [evolve, Attempt.outcome_of] at he
  rcases Simulation.start_cases c.width draws with hstart | hstart | ⟨s, hstart, hs⟩
  all_goals rw [hstart] at he
  · cases he
    simp [Failure.Miswired]
  · cases he
    simp [Failure.Miswired]
  · obtain ⟨-, hfails⟩ := Simulation.failsAs_run h s hs
    dsimp only at he
    cases hrun : ((Simulation.run c.operations).outcome s).1 with
    | ok _ =>
      rw [hrun] at he
      cases he
    | error e' =>
      rw [hrun] at he
      cases he
      obtain ⟨wire, rfl⟩ := hfails _ hrun
      simp [Failure.Miswired]

omit h in
theorem failsAs_drawIndex (probabilities : List R) {fails : Failure → Prop} :
    (drawIndex probabilities).FailsAs (fun _ => True) fails := fun _ _ => ⟨trivial, nofun⟩

theorem failsAs_addRuns : ∀ (n : ℕ) (counts : Histogram),
    (addRuns c n counts).FailsAs (fun _ => True) fun e => ¬ e.Miswired
  | 0, counts => Attempt.failsAs_pure counts
  | n + 1, _ => (failsAs_evolve h).bind fun vector =>
      (failsAs_drawIndex vector.probabilities).bind fun _ => failsAs_addRuns n _

omit h in
theorem failsAs_addSamples (layout : Layout) (probabilities : List R) {fails : Failure → Prop} :
    ∀ (n : ℕ) (counts : Histogram),
      (addSamples layout probabilities n counts).FailsAs (fun _ => True) fails
  | 0, counts => Attempt.failsAs_pure counts
  | n + 1, _ => (failsAs_drawIndex probabilities).bind fun _ =>
      failsAs_addSamples layout probabilities n _

/-- **The device that simulates** a circuit of operations in order finds the wires of all gates. -/
theorem failsAs_execute (limit shots : ℕ) :
    (execute limit c shots).FailsAs (fun _ => True) fun e => ¬ e.Miswired := by
  unfold execute perShot sampled
  split_ifs
  · refine Attempt.failsAs_check fun e he => ?_
    cases he
    simp [Failure.Miswired]
  · exact failsAs_addRuns h shots _
  · exact Attempt.failsAs_pure _
  · refine (failsAs_evolve h).bind fun vector => .bind (Attempt.failsAs_check fun e he => ?_)
      fun _ => failsAs_addSamples _ _ _ _
    unfold StateVector.checkNorm at he
    dsimp only at he
    split_ifs at he
    cases he
    simp [Failure.Miswired]

end Local

namespace Walk

variable {spec : WalkSpec R} {w₀ w : Walk R} {σ : Type}

/-- **The programs of walks are in order**, whatever the walks were asked, with or without success.
So a simulation of such a program fails only where a measured wire has no amplitude, and the device
that simulates finds the wires of all its gates and no gate with its target among its controls. -/
theorem wellFormed_of_run (hbuild : build spec = .ok w₀)
    (hderived : ∀ c ∈ spec.controls, ∀ op, c.permeability = .permeable op → op.Derived)
    (backend : Backend R σ) (b : σ) (calls : List Call)
    (hw : (run backend (w₀, b) calls).1 = w) :
    w.program.layout = w₀.plan.layout ∧
    (∀ op ∈ w.program.operations, op.WellFormed w₀.plan.layout.width) ∧
    (∀ s s' e, s.vector.wires = w.program.width →
      (Simulation.run w.program.operations).outcome s = (.error e, s') →
      ∃ wire, e = .simulation (.emptyBranch wire)) ∧
    ∀ limit shots draws draws' e,
      ((Backend.simulator R limit).execute w.program shots).outcome draws = (.error e, draws') →
      ¬ e.Miswired := by
  have hplan := (build_eq_ok hbuild).1.plan
  have h : w.Compiled w₀.plan := hw ▸ compiled_run hbuild backend b calls
  have hops : ∀ op ∈ w.program.operations, op.WellFormed w₀.plan.layout.width := by
    intro op hop
    obtain ⟨hemits, hwires⟩ := h.emitted op hop
    exact hemits.wellFormed hplan (hplan.of_controls hderived) hwires
  have hwithin : ∀ op ∈ w.program.operations, op.Within w.program.width := by
    intro op hop
    rw [Circuit.width, h.layout]
    exact (hops op hop).toWithin
  refine ⟨h.layout, hops, fun s s' e hs hrun => ?_, fun limit shots draws draws' e hexec => ?_⟩
  · have hfails := (Simulation.failsAs_run hwithin s hs).2
    rw [hrun] at hfails
    exact hfails e rfl
  · exact (Local.failsAs_execute hwithin limit shots draws trivial).2 e (congrArg Prod.fst hexec)

/-- A step that is broken off: another is refused meanwhile, a block for want of its control, and a
move for its pattern. -/
def brokenOff : List Call :=
  [.addCoins, .step, .applyBoundary 9 ⟨"11", 0, none⟩, .wrapShift .left "1" 0, .applyBoundaries]

/-- What was added is in order all the same. -/
theorem wellFormed_of_run_everyKind : ∃ w₀ w : Walk ℝ, build everyKind = .ok w₀ ∧
    (run (Backend.replay ℝ) (w₀, []) brokenOff).1 = w ∧
    (∀ op ∈ w.program.operations, op.WellFormed w₀.plan.layout.width) ∧
    ∀ limit shots draws draws' e,
      ((Backend.simulator ℝ limit).execute w.program shots).outcome draws = (.error e, draws') →
      ¬ e.Miswired := by
  obtain ⟨w₀, hbuild⟩ : ∃ w₀ : Walk ℝ, build everyKind = .ok w₀ := ⟨_, rfl⟩
  obtain ⟨-, hops, -, hexec⟩ :=
    wellFormed_of_run hbuild derived_everyKind (Backend.replay ℝ) [] brokenOff rfl
  exact ⟨w₀, _, hbuild, rfl, hops, hexec⟩

end Walk

end LatticeWalk
