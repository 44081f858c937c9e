import LatticeWalk.Proofs.Norm

/-! # Shots of a program without resets

A program without resets draws no number on its way, so all its runs are the same run, and the
device that carries it through once measures what it would measure with a run for every shot.

* `Simulation.Undrawn`: an attempt that neither reads the draws nor takes any;
  `Simulation.undrawn_run` says that operations other than resets are such attempts.
* `Local.evolve_of_no_resets`: so the program ends alike whatever is drawn.
* `Local.addRuns_eq_addSamples`: runs of such a program are samples of its end.
* `Local.exists_execute`: such a program of the library is executed.
* `Local.perShot_of_execute`: the two ways to execute it agree. -/

namespace LatticeWalk

variable {R : Type} [Scalar R]

namespace Simulation

/-- The attempt neither reads the draws nor takes any: result and vector at its end are the same
whatever is drawn. -/
def Undrawn (x : Attempt (Simulation R) Unit) : Prop :=
  ∀ v, ∃ result v', ∀ draws, x.outcome ⟨v, draws⟩ = (result, ⟨v', draws⟩)

omit [Scalar R] in
theorem undrawn_pure : Undrawn (pure () : Attempt (Simulation R) Unit) := fun v =>
  ⟨.ok (), v, fun _ => rfl⟩

omit [Scalar R] in
theorem Undrawn.bind {x y : Attempt (Simulation R) Unit} (hx : Undrawn x) (hy : Undrawn y) :
    Undrawn (x >>= fun _ => y) := by
  intro v
  obtain ⟨result, v', hfirst⟩ := hx v
  cases result with
  | error e => exact ⟨.error e, v', fun draws => Attempt.outcome_bind_of_error (hfirst draws)⟩
  | ok u =>
    obtain ⟨result, v'', hsecond⟩ := hy v'
    exact ⟨result, v'', fun draws =>
      (Attempt.outcome_bind_of_ok (hfirst draws)).trans (hsecond draws)⟩

theorem undrawn_applyGate (g : Gate R) : Undrawn (applyGate g) := by
  intro v
  cases hgate : v.applyGate g with
  | error e => exact ⟨.error e, v, fun draws => by simp only [applyGate, Attempt.outcome_of, hgate]⟩
  | ok v' => exact ⟨.ok (), v', fun draws => by simp only [applyGate, Attempt.outcome_of, hgate]⟩

theorem undrawn_applyGates : ∀ gs : List (Gate R), Undrawn (applyGates gs)
  | [] => undrawn_pure
  | g :: gs => (undrawn_applyGate g).bind (undrawn_applyGates gs)

/-- **All operations but resets** leave the draws alone. -/
theorem undrawn_apply {op : Operation R} (hop : op.isReset = false) : Undrawn (apply op) := by
  cases op with
  | gate g => exact undrawn_applyGate g
  | apply name label wires gates => exact undrawn_applyGates gates
  | reset targets => cases hop
  | barrier => exact undrawn_pure

theorem undrawn_run : ∀ {ops : List (Operation R)}, (∀ op ∈ ops, op.isReset = false) →
    Undrawn (run ops)
  | [], _ => undrawn_pure
  | op :: ops, h => (undrawn_apply (h op (by simp))).bind
      (undrawn_run fun op' hop' => h op' (by simp [hop']))

theorem exists_start (n : ℕ) : (∃ e, ∀ draws : Draws R, start n draws = .error e) ∨
    ∃ v : StateVector R, ∀ draws, start n draws = .ok ⟨v, draws⟩ := by
  unfold start
  split_ifs
  · exact .inl ⟨_, fun _ => rfl⟩
  · cases hzeros : (StateVector.zeros n : Except Failure (StateVector R)) with
    | error e => exact .inl ⟨e, fun _ => rfl⟩
    | ok v => exact .inr ⟨v, fun _ => rfl⟩

end Simulation

namespace Circuit

omit [Scalar R] in
theorem isReset_of_hasResets {c : Circuit R} (h : c.hasResets = false) :
    ∀ op ∈ c.operations, op.isReset = false := by
  rw [hasResets, List.any_eq_false] at h
  exact fun op hop => by simpa using h op hop

end Circuit

namespace Local

variable {c : Circuit R}

/-- **A program without resets ends alike** whatever is drawn, and leaves the draws alone. -/
theorem evolve_of_no_resets (h : c.hasResets = false) :
    ∃ result, ∀ draws, (evolve c).outcome draws = (result, draws) := by
  rcases Simulation.exists_start c.width (R := R) with ⟨e, hstart⟩ | ⟨v, hstart⟩
  · exact ⟨.error e, fun draws => by simp only [evolve, Attempt.outcome_of, hstart]⟩
  · obtain ⟨result, v', hrun⟩ := Simulation.undrawn_run (Circuit.isReset_of_hasResets h) v
    exact ⟨result.map fun _ => v', fun draws => by
      simp only [evolve, Attempt.outcome_of, hstart, hrun]⟩

/-- **Runs that end alike are samples of their end.** -/
theorem addRuns_eq_addSamples {v : StateVector R}
    (hevolve : ∀ draws, (evolve c).outcome draws = (.ok v, draws)) :
    ∀ (n : ℕ) (h : Histogram) (draws : Draws R), (addRuns c n h).outcome draws =
      (addSamples c.layout v.probabilities n h).outcome draws
  | 0, _, _ => rfl
  | n + 1, h, draws => by
    have hdraw := outcome_drawIndex draws v.probabilities
    rw [addRuns, addSamples, Attempt.outcome_bind_of_ok (hevolve draws),
      Attempt.outcome_bind_of_ok hdraw, Attempt.outcome_bind_of_ok hdraw]
    exact addRuns_eq_addSamples hevolve n _ _

/-- What samples of a program without resets are taken from. -/
theorem sampled_eq_ok {shots : ℕ} (hshots : shots ≠ 0) {draws draws' : Draws R} {h : Histogram}
    (hrun : (sampled c shots).outcome draws = (.ok h, draws')) :
    ∃ v draws₁, (evolve c).outcome draws = (.ok v, draws₁) ∧
      (addSamples c.layout v.probabilities shots (.empty shots)).outcome draws₁ =
        (.ok h, draws') := by
  rw [sampled, if_neg hshots] at hrun
  obtain ⟨v, draws₁, hevolve, hrun⟩ := Attempt.outcome_bind_eq_ok hrun
  obtain ⟨_, draws₂, hnorm, hrun⟩ := Attempt.outcome_bind_eq_ok hrun
  obtain rfl : draws₁ = draws₂ := congrArg Prod.snd hnorm
  exact ⟨v, draws₁, hevolve, hrun⟩

/-- **A program of the library without resets is executed**, on few enough wires. Every shot takes
one number from the stream. -/
theorem exists_execute {c : Circuit ℝ} (hresets : c.hasResets = false) (hpos : 0 < c.width)
    (hwidth : c.width < 64) (hwithin : ∀ op ∈ c.operations, op.Within c.width)
    (hlibrary : ∀ op ∈ c.operations, op.OfLibrary) {limit : ℕ} (hlimit : c.width ≤ limit)
    (shots : ℕ) (draws : Draws ℝ) : ∃ h, (execute limit c shots).outcome draws =
      (.ok h, ⟨draws.stream, draws.used + shots⟩) := by
  by_cases hshots : shots = 0
  · subst hshots
    rw [execute, if_neg (Nat.not_lt.mpr hlimit), hresets, if_neg Bool.false_ne_true]
    exact ⟨.empty 0, rfl⟩
  · have hstart := Simulation.start_eq_ok hpos hwidth draws
    obtain ⟨v, hrun, -, -⟩ := Simulation.run_gates (StateVector.shows_start c.width) hwithin
      (Circuit.isReset_of_hasResets hresets) draws
    have hevolve : (evolve c).outcome draws = (.ok v, draws) := by
      simp only [evolve, Attempt.outcome_of, hstart, hrun]
      rfl
    have hplaced : c.Placed := Circuit.placed_of_lt (hwidth.trans (by norm_num))
    have hnormal := Simulation.normal_run hlibrary hplaced (Simulation.normal_start hstart)
    rw [Attempt.Leads, hrun] at hnormal
    exact ⟨_, (execute_eq_addSamples hlimit hresets hshots hevolve hnormal.norm).trans
      (outcome_addSamples c.layout v.probabilities shots (.empty shots) draws)⟩

/-- **A run for every shot would measure the same.** If the device returns a histogram of a program
without resets, which it carries through once, then runs of the program for all the shots from the
same place of the stream return this histogram and end at the same place, one number for each shot
behind. -/
theorem perShot_of_execute {c : Circuit R} (hresets : c.hasResets = false) {limit shots : ℕ}
    {draws draws' : Draws R} {h : Histogram}
    (hexecute : (execute limit c shots).outcome draws = (.ok h, draws')) :
    (perShot c shots).outcome draws = (.ok h, draws') ∧
      draws' = ⟨draws.stream, draws.used + shots⟩ := by
  have hsampled : (sampled c shots).outcome draws = (.ok h, draws') := by
    unfold execute at hexecute
    rw [hresets, if_neg Bool.false_ne_true] at hexecute
    split_ifs at hexecute
    · cases hexecute
    · exact hexecute
  by_cases hshots : shots = 0
  · subst hshots
    cases hsampled
    exact ⟨rfl, rfl⟩
  · obtain ⟨v, draws₁, hevolve, hsamples⟩ := sampled_eq_ok hshots hsampled
    obtain ⟨result, halike⟩ := evolve_of_no_resets hresets
    rw [halike] at hevolve
    obtain ⟨rfl, rfl⟩ := Prod.mk.inj hevolve
    have htaken := outcome_addSamples c.layout v.probabilities shots (.empty shots) draws
    refine ⟨(addRuns_eq_addSamples halike shots (.empty shots) draws).trans hsamples, ?_⟩
    exact congrArg Prod.snd (hsamples.symm.trans htaken)

/-- The even superposition of a wire. -/
noncomputable def evenWire : Circuit ℝ where
  layout := .after [("coin", .coin, 1)]
  operations := [.gate (.plain .hadamard 0), .barrier]

/-- Three shots of it. -/
theorem perShot_of_execute_evenWire : ∃ h,
    (execute 24 evenWire 3).outcome (.ofSeed 7) = (.ok h, ⟨(Draws.ofSeed 7).stream, 3⟩) ∧
    (perShot evenWire 3).outcome (.ofSeed 7) = (.ok h, ⟨(Draws.ofSeed 7).stream, 3⟩) := by
  have hwithin : ∀ op ∈ evenWire.operations, op.Within evenWire.width := by
    simp only [evenWire, List.forall_mem_cons]
    exact ⟨(Operation.wellFormed_plain one_pos _).toWithin, Operation.within_barrier _, nofun⟩
  have hlibrary : ∀ op ∈ evenWire.operations, op.OfLibrary := by
    simp only [evenWire, List.forall_mem_cons]
    exact ⟨.gate .hadamard, .barrier, nofun⟩
  obtain ⟨h, hexecute⟩ := exists_execute (c := evenWire) rfl one_pos
    (show 1 < 64 by norm_num) hwithin hlibrary (show 1 ≤ 24 by norm_num) 3 (.ofSeed 7)
  exact ⟨h, hexecute, (perShot_of_execute rfl hexecute).1⟩

end Local

end LatticeWalk
