import LatticeWalk.Proofs.Conservation
import LatticeWalk.Proofs.Pass

/-! # Results that a walk keeps

A walk keeps the results of its last measurement. A whole step and a program begun anew drop them,
but a single phase of a step, a single block and a single shift add to the program and leave them.

* `Walk.Call.whole`: the calls that do not add parts of a step.
* `Walk.Unspoilt`: the walk is as it was, or has no results; `Walk.unspoilt_of_whole` says that a
  whole call does nothing else to it unless it measures.
* `Walk.results_of_run`: the results were measured by one of the calls, and what the program has
  gained since is what single phases, blocks and shifts have added.
* `Walk.run_phases`: a step asked phase by phase keeps the results. -/

namespace LatticeWalk

namespace Walk

/-- The calls that add to a program at most whole steps. -/
def Call.whole : Call → Bool
  | .step | .addSteps _ | .resetCircuit | .execute _ | .getResults _ | .runExperiment _ _
  | .statistics _ _ | .covariance _ _ => true
  | .addCoins | .applyBoundary _ _ | .applyBoundaries | .addShift _ _ | .wrapShift _ _ _
  | .addShifts | .resetBoundaries => false

section
variable {R : Type} [Scalar R]

/-- The walk is as it was, or has no results. -/
def Unspoilt (w w' : Walk R) : Prop := w' = w ∨ w'.results = none

omit [Scalar R] in
theorem Unspoilt.trans {w w' w'' : Walk R} (h : w.Unspoilt w') (h' : w'.Unspoilt w'') :
    w.Unspoilt w'' := by
  rcases h' with rfl | hnone
  · exact h
  · exact .inr hnone

theorem Extended.results_eq_none {plan : Plan R} {w : Walk R} (h : (ofPlan plan).Extended w) :
    w.results = none := by
  by_contra hsome
  obtain ⟨t, ht⟩ := Option.ne_none_iff_exists'.mp hsome
  exact absurd (h.results t ht) nofun

section whole
variable {w : Walk R} {spec : WalkSpec R}

/-- A step drops the results, unless it is refused in the middle of another. -/
theorem unspoilt_step (h : w.Ready spec) (hg : w.plan.Guarded) : step.Leads Unspoilt w := by
  unfold Attempt.Leads
  by_cases hphase : w.phase = .idle
  · rw [outcome_guarded_step h hg hphase]
    exact .inr rfl
  · rw [outcome_step_of_phase hphase]
    exact .inl rfl

theorem unspoilt_addSteps : ∀ (n : ℕ) {w : Walk R}, w.Ready spec → w.plan.Guarded →
    (addSteps n).Leads Unspoilt w
  | 0, w, _, _ => .inl rfl
  | n + 1, w, h, hg => by
    refine .bind .trans (unspoilt_step h hg) fun _ w' hstep _ => ?_
    have he : w.Extended w' := by
      have hleads := extended_step w
      rwa [Attempt.Leads, hstep] at hleads
    exact unspoilt_addSteps n (h.extended he) (he.plan.symm ▸ hg)

variable {σ : Type} {backend : Backend R σ} {s : Walk R × σ}

theorem unspoilt_of_not_asks (h : s.1.Ready spec) (hg : s.1.plan.Guarded) {call : Call}
    (hcall : call.whole = true) (hasks : call.asks s.1 = none) :
    s.1.Unspoilt (perform backend s call).1 := by
  cases call with
  | step => exact unspoilt_step h hg
  | addSteps n => exact unspoilt_addSteps n h hg
  | resetCircuit => exact .inr (extended_resetCircuit s.1).results_eq_none
  | execute shots =>
    rw [perform, outcome_execute]
    exact .inl rfl
  | getResults shots => cases hasks
  | runExperiment steps shots =>
    have hbegun := (extended_restart steps s.1).results_eq_none
    rw [perform, outcome_runExperiment]
    rcases hrun : (restart steps).outcome s.1 with ⟨e | _, w⟩
    all_goals
      rw [hrun] at hbegun
      simp only [Call.asks, hrun] at hasks
    · exact .inr hbegun
    · cases hasks
  | statistics shots force | covariance shots force =>
    simp only [Call.asks] at hasks
    split_ifs at hasks with hkept
    simp only [perform_statistics, perform_covariance, if_pos hkept]
    exact .inl rfl
  | _ => cases hcall

/-- **A whole call** leaves the walk, drops its results or measures new ones. -/
theorem unspoilt_of_whole (h : s.1.Ready spec) (hg : s.1.plan.Guarded) {call : Call}
    (hcall : call.whole = true) :
    s.1.Unspoilt (perform backend s call).1 ∨ ∃ t, Measures backend s call t := by
  rcases hasks : call.asks s.1 with _ | ⟨w, shots⟩
  · exact .inl (unspoilt_of_not_asks h hg hcall hasks)
  have hperform : perform backend s call = _ := perform_of_asks hasks
  rcases getResults_cases backend shots (w, s.2) with hsame | ⟨h, t, b, hexec, hread, heq⟩
  · rw [hperform, hsame]
    exact .inl ((asks_cases hasks).imp id Extended.results_eq_none)
  · exact .inr ⟨t, w, shots, h, b, hasks, hexec, hread, hperform.trans heq⟩

end whole

variable {σ : Type}

/-- **A step asked phase by phase** adds the operations of its phases and keeps the results. -/
theorem run_phases {w : Walk R} {spec : WalkSpec R} (h : w.Ready spec) (hg : w.plan.Guarded)
    (hphase : w.phase = .idle) (backend : Backend R σ) (b : σ) :
    run backend (w, b) [.addCoins, .applyBoundaries, .addShifts, .resetBoundaries] =
      (w.push (w.plan.coinOps ++ w.plan.boundaryOps ++ w.plan.moveOps ++ w.resetScript), b) := by
  have hcoins := outcome_addCoins h hphase
  set w1 : Walk R := { w.push w.plan.coinOps with phase := .coined } with hw1
  have h1 : w1.Ready spec := ⟨h.plan, h.layout⟩
  have hbounds := outcome_applyBoundaries h1 hg rfl
  set w2 : Walk R := { w1.push w1.plan.boundaryOps with phase := .bounded } with hw2
  have h2 : w2.Ready spec := ⟨h.plan, h.layout⟩
  have hshifts := outcome_addShifts h2 rfl
  set w3 : Walk R := { w2.push w2.plan.moveOps with phase := .shifted } with hw3
  have h3 : w3.Ready spec := ⟨h.plan, h.layout⟩
  have hresets := outcome_resetBoundaries h3 rfl
  simp only [run, List.foldl_cons, List.foldl_nil, perform, Attempt.outcome_first, hcoins, hbounds,
    hshifts, hresets]
  simp only [hw1, hw2, hw3, push, List.append_assoc, hphase]
  rfl

end

/-! ### Two sites and four shots -/

/-- Four shots that all ended at zero. -/
def atZero : Histogram := .ofCounts [("00", 4)]

/-- The device that has this to answer, once. -/
def onceAtZero : List (Except Failure Histogram) := [.ok atZero]

theorem read_atZero {w₀ w : Walk ℝ} (hbuild : build { widths := [1] } = .ok w₀)
    (hplan : w.plan = w₀.plan) : ∃ t, w.read atZero 4 = .ok t := by
  have hwires : (build { widths := [1] }).map (fun w : Walk ℝ => w.plan.layout.width) = .ok 2 := rfl
  rw [hbuild] at hwires
  have hwidth : w₀.plan.layout.width = 2 := Except.ok.inj hwires
  have hkeys : atZero.keys = ["00"] := by decide
  have hcomplete : atZero.Complete w.plan.layout.width 4 := by
    rw [hplan, hwidth]
    refine ⟨by decide, by decide, by decide, ?_⟩
    simp only [hkeys, List.forall_mem_singleton]
    exact ⟨by simp [Pattern.isBit], by decide⟩
  obtain ⟨t, ht⟩ := accepts_of_complete hbuild (by decide) hplan (by norm_num) hcomplete
  exact ⟨t, ht.read_eq⟩

theorem perform_getResults_atZero {w : Walk ℝ} {t : Displacement ℝ}
    (hread : w.read atZero 4 = .ok t) : perform (Backend.replay ℝ) (w, onceAtZero) (.getResults 4) =
      ({ w with results := some t }, []) := by
  have hexecute : (execute (Backend.replay ℝ) 4).outcome (w, onceAtZero) = (.ok atZero, (w, [])) :=
    outcome_execute _ _ _
  rw [perform, getResults, Attempt.outcome_bind_of_ok hexecute,
    Attempt.outcome_bind_of_ok (Attempt.outcome_get _), hread]
  rfl

/-! ### Where results come from -/

/-- **Where results come from.** Whatever a walk was asked, the results that it keeps are those of
the last call that measured: the device executed the program of that time, and what it answered was
decoded and checked. Since then the program was not begun anew, so that it begins with what was
executed. It is what was executed if all calls since were whole, provided that the controls with
planes are sound. -/
theorem results_of_run {R σ : Type} [Scalar R] {spec : WalkSpec R} {w₀ : Walk R}
    (hbuild : build spec = .ok w₀) (backend : Backend R σ) (b : σ) (calls : List Call)
    {t : Displacement R}
    (ht : (run backend (w₀, b) calls).1.results = some t) :
    ∃ before call after, calls = before ++ call :: after ∧
      Measures backend (run backend (w₀, b) before) call t ∧
      (∀ mid c rest, after = mid ++ c :: rest → ∀ t',
        ¬ Measures backend (run backend (w₀, b) (before ++ call :: mid)) c t') ∧
      (run backend (w₀, b) (before ++ [call])).1.program.Grown w₀.plan.Emits
        (run backend (w₀, b) calls).1.program ∧
      ((∀ c ∈ spec.controls, c.boundaries ≠ [] → c.Sound) → (∀ c ∈ after, c.whole = true) →
        (run backend (w₀, b) calls).1.program =
          (run backend (w₀, b) (before ++ [call])).1.program) := by
  induction calls using List.reverseRecOn with
  | nil =>
    have hnone : w₀.results = none := by
      rw [(build_eq_ok hbuild).2]
      rfl
    exact absurd (ht.symm.trans hnone) nofun
  | append_singleton calls call ih =>
    have hlast : run backend (w₀, b) (calls ++ [call]) = _ := run_concat (w₀, b) calls call
    set s := run backend (w₀, b) calls with hs
    by_cases hmeasures : Measures backend s call t
    · exact ⟨calls, call, [], rfl, hmeasures, by simp, .refl _, fun _ _ => rfl⟩
    rw [hlast] at ht ⊢
    -- the call has kept older results, which the induction is about
    have hnot : ∀ t', ¬ Measures backend s call t' := by
      intro t' hm
      rw [hm.results_eq, Option.some.injEq] at ht
      exact hmeasures (ht ▸ hm)
    have hkept : s.1.Extended (perform backend s call).1 := by
      rcases perform_cases backend s call with (he | he) | ⟨t', hm⟩
      · exact he
      · exact absurd (ht.symm.trans he.results_eq_none) nofun
      · exact absurd hm (hnot t')
    obtain ⟨before, first, after, rfl, hfirst, hlater, hgrown, hexact⟩ := ih (hkept.results t ht)
    have hplan : s.1.plan = w₀.plan := (compiled_run hbuild backend b _).plan_eq
    refine ⟨before, first, after ++ [call], by simp, hfirst, fun mid c rest hafter => ?_,
      hgrown.trans (hplan ▸ hkept.program), fun hsound hwhole => ?_⟩
    · rcases List.eq_nil_or_concat rest with rfl | ⟨rest, c', rfl⟩
      · obtain ⟨rfl, hc⟩ := List.append_inj' hafter rfl
        rwa [← (List.cons.inj hc).1]
      · have hfront : after ++ [call] = (mid ++ c :: rest) ++ [c'] := by simpa using hafter
        exact hlater mid c rest (List.append_inj' hfront rfl).1
    · have hguarded : s.1.plan.Guarded :=
        hplan ▸ (build_eq_ok hbuild).1.plan.of_controls hsound
      have hbefore := hexact hsound fun c hc => hwhole c (by simp [hc])
      have hready : s.1.Ready spec := ready_run hbuild backend b _
      have hcall := hwhole call (by simp)
      rcases unspoilt_of_whole hready hguarded hcall with (hsame | hnone) | ⟨t', hm⟩
      · rw [hsame, hbefore]
      · exact absurd (ht.symm.trans hnone) nofun
      · exact absurd hm (hnot t')

/-- Two steps are measured. The device has nothing more to answer, and the results are read again. -/
def measuredOnce : List Call := [.addSteps 2, .getResults 4, .execute 4, .statistics 9 false]

theorem results_of_run_measuredOnce : ∃ w₀ : Walk ℝ, build { widths := [1] } = .ok w₀ ∧ ∃ t,
    (run (Backend.replay ℝ) (w₀, onceAtZero) measuredOnce).1.results = some t ∧
    ∃ before call after, measuredOnce = before ++ call :: after ∧
      Measures (Backend.replay ℝ) (run (Backend.replay ℝ) (w₀, onceAtZero) before) call t ∧
      (run (Backend.replay ℝ) (w₀, onceAtZero) measuredOnce).1.program =
        (run (Backend.replay ℝ) (w₀, onceAtZero) (before ++ [call])).1.program := by
  obtain ⟨w₀, hbuild⟩ : ∃ w₀ : Walk ℝ, build { widths := [1] } = .ok w₀ := ⟨_, rfl⟩
  have h := (build_eq_ok hbuild).1
  have hsound : ∀ c ∈ ({ widths := [1] } : WalkSpec ℝ).controls, c.boundaries ≠ [] → c.Sound := by
    simp
  obtain ⟨w, hsteps, hplan, -⟩ :=
    outcome_addSteps (n := 2) h (h.plan.of_controls hsound) (fresh_of_build hbuild).1
  obtain ⟨t, hread⟩ := read_atZero hbuild hplan
  have hadd : perform (Backend.replay ℝ) (w₀, onceAtZero) (.addSteps 2) = (w, onceAtZero) := by
    rw [perform, Attempt.outcome_first, hsteps]
  have hrun : run (Backend.replay ℝ) (w₀, onceAtZero) measuredOnce =
      ({ w with results := some t }, []) := by
    simp only [run, measuredOnce, List.foldl_cons, List.foldl_nil, hadd,
      perform_getResults_atZero hread, perform_statistics]
    rw [perform, outcome_execute]
    rfl
  have hresults := congrArg (fun s => s.1.results) hrun
  obtain ⟨before, call, after, hcalls, hmeasures, -, -, hexact⟩ :=
    results_of_run hbuild (Backend.replay ℝ) onceAtZero measuredOnce hresults
  refine ⟨w₀, hbuild, t, hresults, before, call, after, hcalls, hmeasures,
    hexact hsound fun c hc => ?_⟩
  have hall : ∀ c ∈ measuredOnce, c.whole = true := by decide
  exact hall c (by simp [hcalls, hc])

/-- **Results outlive the program that they were measured of**: the phases of a step, asked one by
one, have the walk keep what was measured before them. -/
theorem results_outlive_phases : ∃ w₀ : Walk ℝ, build { widths := [1] } = .ok w₀ ∧
    ∃ calls t, (run (Backend.replay ℝ) (w₀, onceAtZero) calls).1.results = some t ∧
      ∀ before call after, calls = before ++ call :: after →
        Measures (Backend.replay ℝ) (run (Backend.replay ℝ) (w₀, onceAtZero) before) call t →
        (run (Backend.replay ℝ) (w₀, onceAtZero) calls).1.program.operations ≠
          (run (Backend.replay ℝ) (w₀, onceAtZero) (before ++ [call])).1.program.operations := by
  obtain ⟨w₀, hbuild⟩ : ∃ w₀ : Walk ℝ, build { widths := [1] } = .ok w₀ := ⟨_, rfl⟩
  have h := (build_eq_ok hbuild).1
  obtain ⟨t, hread⟩ := read_atZero hbuild rfl
  set w : Walk ℝ := { w₀ with results := some t } with hw
  have hmeasure : run (Backend.replay ℝ) (w₀, onceAtZero) [.getResults 4] = (w, []) :=
    perform_getResults_atZero hread
  have hready : w.Ready { widths := [1] } := ⟨h.plan, h.layout⟩
  have hguarded : w.plan.Guarded :=
    h.plan.of_controls (P := fun c => c.boundaries ≠ [] → c.Sound) (by simp)
  set phases : List Call := [.addCoins, .applyBoundaries, .addShifts, .resetBoundaries] with hphases
  have hrun : run (Backend.replay ℝ) (w₀, onceAtZero) (.getResults 4 :: phases) = _ :=
    (run_append _ [.getResults 4] phases).trans (hmeasure ▸
      run_phases hready hguarded (fresh_of_build hbuild).1 (Backend.replay ℝ) [])
  refine ⟨w₀, hbuild, .getResults 4 :: phases, t, by rw [hrun]; rfl,
    fun before call after hcalls hmeasures => ?_⟩
  cases before with
  | nil =>
    obtain ⟨rfl, -⟩ := List.cons.inj hcalls
    rw [hrun, List.nil_append, hmeasure]
    simp [push, Plan.coinOps]
  | cons first before =>
    -- the phases have nothing executed
    obtain ⟨-, hcalls⟩ := List.cons.inj hcalls
    have hcall : call ∈ phases := by simp [hcalls]
    obtain ⟨w', shots, -, -, hasks, -⟩ := hmeasures
    simp only [hphases, List.mem_cons, List.not_mem_nil, or_false] at hcall
    rcases hcall with rfl | rfl | rfl | rfl <;> cases hasks

end Walk

end LatticeWalk
