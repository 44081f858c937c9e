import LatticeWalk.Proofs.Marginals
import LatticeWalk.Proofs.KeptResults

/-! # What a walk keeps

A device may answer anything: keys that are too short, too long or no bits, counts that do not add
up, or a failure. What a walk keeps nevertheless is a histogram of its positions, and what cannot be
one is refused before anything was changed.

* `Displacement.Sound`: aligned columns, points of their own within the registers, shares that pass
  the check of their sum.
* `Walk.sound_of_read`: what is read off an answer is sound, registers of any width.
* `Attempt.Spares`: an attempt that fails leaves the first part of the state.
* `Walk.keptSound_perform`: no call makes a walk keep anything else; `Walk.keptSound_run` goes
  through all calls.
* `Walk.results_sound`: both facts about a walk that was asked anything. -/

namespace LatticeWalk

variable {R : Type} [Scalar R]

/-! ### Sound displacements -/

namespace Displacement

/-- **A displacement of positions.** There is a column for each dimension, and all of them are
aligned with the density. No point stands in two rows, no coordinate exceeds its register, and the
density is empty or passes the check of its sum. -/
structure Sound (t : Displacement R) (widths : List ℕ) : Prop where
  columns : t.columns.length = widths.length
  aligned : ∀ column ∈ t.columns, column.length = t.density.length
  points : ∀ row, t.point? row = t.columns.mapM fun column => column[row]?
  distinct : ∀ row < t.density.length, ∀ row' < t.density.length,
    t.point? row = t.point? row' → row = row'
  bounded : ∀ (d width : ℕ) (column : List ℕ), widths[d]? = some width →
    t.columns[d]? = some column → ∀ x ∈ column, x < 2 ^ width
  total : t.density = [] ∨ ¬ Walk.resultTolerance < Scalar.abs (t.total - 1)

theorem total_of_check {t : Displacement R} {widths : List ℕ} {tolerance : R}
    (h : t.check widths (some tolerance) = .ok ()) :
    t.density = [] ∨ ¬ tolerance < Scalar.abs (t.total - 1) := by
  obtain ⟨_, -, h⟩ := Except.bind_eq_ok.mp h
  simp only [Option.getD_some] at h
  by_cases hfar : tolerance < Scalar.abs (t.total - 1)
  · refine .inl ?_
    cases hrows : t.rows with
    | nil => rw [density, hrows, List.map_nil]
    | cons row rows =>
      simp only [hrows, List.isEmpty_cons, hfar, decide_true] at h
      cases h
  · exact .inr hfar

theorem IsMarginal.sound {t : Displacement R} {h : Histogram} {widths : List ℕ} {shots : ℕ}
    (ht : t.IsMarginal h widths shots)
    (hcheck : t.check widths (some Walk.resultTolerance) = .ok ()) : t.Sound widths where
  columns := ht.columns
  aligned column hcolumn := (ht.aligned.2 column hcolumn).trans ht.aligned.1.symm
  points := ht.points
  distinct := ht.aligned.1 ▸ ht.distinct
  bounded := ht.bounded
  total := total_of_check hcheck

end Displacement

/-! ### Attempts that fail -/

namespace Attempt

variable {σ τ α β : Type}

/-- If the attempt fails, the first part of the state is as before. -/
def Spares (x : Attempt (σ × τ) α) (s : σ × τ) : Prop :=
  ∀ e, (x.outcome s).1 = .error e → (x.outcome s).2.1 = s.1

theorem Spares.bind_pure {x : Attempt (σ × τ) α} {s : σ × τ} (hx : x.Spares s) (f : α → β) :
    (x >>= fun a => pure (f a)).Spares s := by
  intro e he
  rw [outcome_bind_pure_snd]
  rcases h : x.outcome s with ⟨e' | a, s'⟩
  · have hspared := hx e' (by rw [h])
    rwa [h] at hspared
  · rw [outcome_bind_of_ok h] at he
    cases he

end Attempt

namespace Walk

/-! ### One answer -/

section answer
variable {spec : WalkSpec R} {w₀ w : Walk R} (hbuild : build spec = .ok w₀)
  (hplan : w.plan = w₀.plan)
include hbuild hplan

theorem cuts_of_plan : w.decoder.Cuts spec.widths := by
  have hdecoder : w.decoder = w₀.decoder := by rw [decoder, decoder, hplan]
  exact hdecoder ▸ cuts_of_build hbuild

/-- **What is read off an answer is sound.** -/
theorem sound_of_read {h : Histogram} {shots : ℕ} {t : Displacement R}
    (hread : w.read h shots = .ok t) : t.Sound spec.widths := by
  have hd := cuts_of_plan hbuild hplan
  have hwidths : w.plan.widths = spec.widths := hplan ▸ (build_eq_ok hbuild).1.plan.widths
  obtain ⟨t', hdecode, hread⟩ := Except.bind_eq_ok.mp hread
  obtain ⟨_, hcheck, hread⟩ := Except.bind_eq_ok.mp hread
  obtain rfl := Except.ok.inj hread
  obtain ⟨-, hreads, -, rfl⟩ := hd.of_decode hdecode
  exact (hd.isMarginal hreads shots).sound (hwidths ▸ hcheck)

end answer

/-! ### One call -/

/-- What the walk keeps is sound. -/
def KeptSound (widths : List ℕ) (w : Walk R) : Prop :=
  ∀ t, w.results = some t → t.Sound widths

variable {σ : Type}

/-- **A call keeps what the walk keeps sound**, whatever the device answers. -/
theorem keptSound_perform {spec : WalkSpec R} {w₀ : Walk R} (hbuild : build spec = .ok w₀)
    (backend : Backend R σ) {s : Walk R × σ} (hplan : s.1.plan = w₀.plan)
    (hs : s.1.KeptSound spec.widths) (call : Call) :
    (perform backend s call).1.KeptSound spec.widths := by
  rcases perform_cases backend s call with (he | he) | ⟨t, hm⟩
  · -- the program was extended
    exact fun t ht => hs t (he.results t ht)
  · -- it was begun anew
    intro t ht
    rw [he.results_eq_none] at ht
    cases ht
  · intro t' ht'
    rw [hm.results_eq, Option.some.injEq] at ht'
    subst ht'
    obtain ⟨w, shots, h, b, hasks, -, hread, -⟩ := hm
    have hw : w.plan = w₀.plan := by
      rcases asks_cases hasks with rfl | he
      · exact hplan
      · exact he.plan.trans hplan
    exact sound_of_read hbuild hw hread

/-- **What a walk keeps is sound**, whatever it was asked and whatever the device answered. -/
theorem keptSound_run {spec : WalkSpec R} {w₀ : Walk R} (hbuild : build spec = .ok w₀)
    (backend : Backend R σ) (b : σ) (calls : List Call) :
    (run backend (w₀, b) calls).1.KeptSound spec.widths := by
  induction calls using List.reverseRecOn with
  | nil =>
    intro t ht
    have hnone : w₀.results = none := by
      rw [(build_eq_ok hbuild).2]
      rfl
    exact absurd (hnone.symm.trans ht) (Option.some_ne_none t).symm
  | append_singleton calls call ih =>
    rw [run_concat]
    exact keptSound_perform hbuild backend (compiled_run hbuild backend b calls).plan_eq ih call

/-! ### Calls that fail -/

theorem spares_getResults (backend : Backend R σ) (shots : ℕ) (s : Walk R × σ) :
    (getResults backend shots).Spares s := by
  intro e he
  rw [outcome_getResults] at he ⊢
  rcases hexec : (backend.execute s.1.program shots).outcome s.2 with ⟨e' | h, b⟩
  · rfl
  · rcases hread : s.1.read h shots with e' | t
    · simp only [hread]
    · simp only [hexec, hread] at he
      cases he

theorem spares_current (backend : Backend R σ) (shots : ℕ) (force : Bool) (s : Walk R × σ) :
    (current backend shots force).Spares s := by
  intro e he
  have hget := Attempt.outcome_get s
  unfold current at he ⊢
  rw [Attempt.outcome_bind_of_ok hget] at he ⊢
  rcases hresults : s.1.results with _ | t
  · simp only [hresults] at he ⊢
    exact spares_getResults backend shots s e he
  · cases force with
    | false => rfl
    | true =>
      simp only [hresults] at he ⊢
      exact spares_getResults backend shots s e he

theorem spares_statistics (backend : Backend R σ) (shots : ℕ) (force : Bool) (s : Walk R × σ) :
    (statistics backend shots force).Spares s :=
  (spares_current backend shots force s).bind_pure _

theorem spares_covariance (backend : Backend R σ) (shots : ℕ) (force : Bool) (s : Walk R × σ) :
    (covariance backend shots force).Spares s :=
  (spares_statistics backend shots force s).bind_pure _

/-! ### Any device -/

/-- **No bad histogram enters the results of a walk.** Whatever the walk was asked before and
whatever its device answers, what it keeps is a sound displacement. A measurement and the moments
that need one, if they fail, leave the walk as it was. -/
theorem results_sound {spec : WalkSpec R} {w₀ : Walk R} (hbuild : build spec = .ok w₀)
    (backend : Backend R σ) (b : σ) (calls : List Call) (s : Walk R × σ)
    (hs : run backend (w₀, b) calls = s) :
    (∀ t, s.1.results = some t → t.Sound spec.widths) ∧
    ∀ (shots : ℕ) (force : Bool), (getResults backend shots).Spares s ∧
      (statistics backend shots force).Spares s ∧ (covariance backend shots force).Spares s := by
  refine ⟨hs ▸ keptSound_run hbuild backend b calls, fun shots force => ⟨?_, ?_, ?_⟩⟩
  · exact spares_getResults backend shots s
  · exact spares_statistics backend shots force s
  · exact spares_covariance backend shots force s

/-- Four shots under a key without bits. -/
def keyless : Histogram := .ofCounts [("", 4)]

/-- Keys that do not cover the position are refused, and what was measured before is kept. -/
theorem results_sound_keyless : ∃ w₀ : Walk ℝ, build { widths := [1] } = .ok w₀ ∧
    ∃ s t e, run (Backend.replay ℝ) (w₀, [.ok atZero, .ok keyless]) [.getResults 4] = s ∧
      s.1.results = some t ∧ t.Sound [1] ∧
      ((getResults (Backend.replay ℝ) 4).outcome s).1 = .error e ∧
      ((getResults (Backend.replay ℝ) 4).outcome s).2.1 = s.1 := by
  obtain ⟨w₀, hbuild⟩ : ∃ w₀ : Walk ℝ, build { widths := [1] } = .ok w₀ := ⟨_, rfl⟩
  obtain ⟨t, hread⟩ := read_atZero hbuild rfl
  set s : Walk ℝ × List (Except Failure Histogram) :=
    ({ w₀ with results := some t }, [.ok keyless]) with hs
  have hmeasured : (getResults (Backend.replay ℝ) 4).outcome (w₀, [.ok atZero, .ok keyless]) =
      (.ok t, s) := by
    refine (outcome_getResults _ _ _).trans ?_
    simp only [Backend.replay, Attempt.outcome_of, hread, hs]
  have hrun : run (Backend.replay ℝ) (w₀, [.ok atZero, .ok keyless]) [.getResults 4] = s :=
    congrArg Prod.snd hmeasured
  obtain ⟨hkept, hspared⟩ := results_sound hbuild (Backend.replay ℝ) _ [.getResults 4] s hrun
  rcases hrefused : s.1.read keyless 4 with e | t'
  · have hfail : ((getResults (Backend.replay ℝ) 4).outcome s).1 = .error e := by
      rw [outcome_getResults]
      simp only [Backend.replay, Attempt.outcome_of, hs]
      rw [hs] at hrefused
      simp only [hrefused]
    exact ⟨w₀, hbuild, s, t, e, hrun, rfl, hkept t rfl, hfail, (hspared 4 true).1 e hfail⟩
  · have hd := cuts_of_plan hbuild (show s.1.plan = w₀.plan from rfl)
    obtain ⟨_, hdecode, -⟩ := Except.bind_eq_ok.mp hrefused
    obtain ⟨-, hreads, -⟩ := hd.of_decode hdecode
    have hcovered := (hd.reads_iff.mp (hreads "" (by decide))).2
    exact absurd hcovered (by decide)

end Walk

end LatticeWalk
