import LatticeWalk.Proofs.Files
import LatticeWalk.Proofs.JobOrder
import LatticeWalk.Proofs.KeptResults
import LatticeWalk.Proofs.Restarts

/-! # What experiments record

An experiment begins the program of a walk anew, adds one step, and then takes turns in measuring
and adding steps. The number of steps in the program and the number that an iteration is filed under
advance apart, so it has to be shown that they agree in every turn, and that nothing which was
measured or written before comes into what is measured or written later.

* `Attempt.Through`: an attempt does to a part what another does to the whole;
  `Experiment.through_run` says that notes of a device change nothing of an experiment.
* `Experiment.record_eq_ok`: what one iteration does.
* `Walk.Stands`: the walk stands where so many steps lead, whatever it keeps as results.
* `Experiment.Measured`, `Experiment.Recorded`: what is true of one iteration that was recorded, and
  of several; `Experiment.Recorded.cons` puts one in front of others.
* `Experiment.recorded_of_iterate`: the iterations from one on.
* `Experiment.records_measured`: every experiment that succeeds. -/

namespace LatticeWalk

variable {R σ α β : Type}

/-! ### Attempts that succeed -/

namespace Attempt

theorem bind_eq_ok_iff {x : Attempt σ α} {f : α → Attempt σ β} {s s' : σ} {b : β} :
    (x >>= f).outcome s = (.ok b, s') ↔
      ∃ a s₁, x.outcome s = (.ok a, s₁) ∧ (f a).outcome s₁ = (.ok b, s') :=
  ⟨outcome_bind_eq_ok, fun ⟨_, _, hx, hf⟩ => (outcome_bind_of_ok hx).trans hf⟩

theorem within_eq_ok {τ : Type} {part : τ → σ} {put : σ → τ → τ} {x : Attempt σ α} {t t' : τ}
    {a : α} : (within part put x).outcome t = (.ok a, t') ↔
      ∃ s, x.outcome (part t) = (.ok a, s) ∧ t' = put s t := by
  have hwithin : (within part put x).outcome t =
      ((x.outcome (part t)).1, put (x.outcome (part t)).2 t) := rfl
  rw [hwithin, Prod.mk.injEq]
  constructor
  · rintro ⟨hok, rfl⟩
    exact ⟨_, Prod.ext hok rfl, rfl⟩
  · rintro ⟨s, hx, rfl⟩
    rw [hx]
    exact ⟨rfl, rfl⟩

end Attempt

/-! ### Notes change nothing -/

/-- An attempt does to the part that `part` shows what another does to the whole. -/
def Attempt.Through {τ : Type} (part : τ → σ) (x : Attempt σ α) (y : Attempt τ α) : Prop :=
  ∀ t, x.outcome (part t) = ((y.outcome t).1, part (y.outcome t).2)

namespace Attempt.Through

variable {τ : Type} {part : τ → σ}

theorem of_pure (a : α) : Through part (pure a) (pure a) := fun _ => rfl

theorem bind {x : Attempt σ α} {y : Attempt τ α} {f : α → Attempt σ β} {g : α → Attempt τ β}
    (h : Through part x y) (hf : ∀ a, Through part (f a) (g a)) :
    Through part (x >>= f) (y >>= g) := by
  intro t
  rcases hy : y.outcome t with ⟨e | a, t'⟩
  all_goals
    have hx := h t
    rw [hy] at hx
  · rw [outcome_bind_of_error hx, outcome_bind_of_error hy]
  · rw [outcome_bind_of_ok hx, outcome_bind_of_ok hy]
    exact hf a t'

theorem get_bind {f : σ → Attempt σ α} {g : τ → Attempt τ α}
    (h : ∀ t, Through part (f (part t)) (g t)) : Through part (get >>= f) (get >>= g) := by
  intro t
  rw [outcome_bind_of_ok (outcome_get _), outcome_bind_of_ok (outcome_get _)]
  exact h t t

end Attempt.Through

namespace Bench

/-- The bench with the device without its notes. -/
def bare (b : Bench R (σ × List (Execution R))) : Bench R σ := ⟨b.walk, b.device.1, b.folder⟩

theorem through_onWalk (x : Attempt (Walk R) α) : Attempt.Through
    (bare : Bench R (σ × List (Execution R)) → Bench R σ) (onWalk x) (onWalk x) := fun _ => rfl

theorem through_onFolder (x : Attempt Folder α) : Attempt.Through
    (bare : Bench R (σ × List (Execution R)) → Bench R σ) (onFolder x) (onFolder x) := fun _ => rfl

end Bench

variable [Scalar R]

namespace Walk

theorem outcome_current_forced (backend : Backend R σ) (shots : ℕ) (s : Walk R × σ) :
    (current backend shots true).outcome s = (getResults backend shots).outcome s := by
  unfold current
  rw [Attempt.outcome_bind_of_ok (Attempt.outcome_get s)]
  cases s.1.results <;> rfl

theorem through_getResults (backend : Backend R σ) (shots : ℕ) :
    Attempt.Through (fun s : Walk R × σ × List (Execution R) => (s.1, s.2.1))
      (getResults backend shots) (getResults backend.noting shots) := by
  intro s
  rw [outcome_getResults, outcome_getResults, Backend.noting, Attempt.outcome_of]
  dsimp only
  rcases (backend.execute s.1.program shots).outcome s.2.1 with ⟨e | h, d⟩
  · rfl
  · dsimp only
    cases s.1.read h shots <;> rfl

theorem through_statistics (backend : Backend R σ) (shots : ℕ) :
    Attempt.Through (fun s : Walk R × σ × List (Execution R) => (s.1, s.2.1))
      (statistics backend shots true) (statistics backend.noting shots true) := by
  refine .bind (fun s => ?_) fun _ => .of_pure _
  rw [outcome_current_forced, outcome_current_forced]
  exact through_getResults backend shots s

end Walk

namespace Experiment

theorem through_statistics (backend : Backend R σ) (shots : ℕ) :
    Attempt.Through Bench.bare (Bench.onDevice (Walk.statistics backend shots true))
      (Bench.onDevice (Walk.statistics backend.noting shots true)) := by
  intro b
  have hdevice := Walk.through_statistics backend shots (b.walk, b.device)
  simp only [Bench.onDevice, Attempt.within, Attempt.outcome_of, Bench.bare, hdevice]

theorem through_record (e : Experiment) (backend : Backend R σ) (steps : ℕ) :
    Attempt.Through Bench.bare (e.record backend steps) (e.record backend.noting steps) := by
  refine .bind (through_statistics backend e.shots) fun statistics => .get_bind fun b => ?_
  dsimp only
  rcases b with ⟨w, device, folder⟩
  rcases hresults : w.results with _ | t
  all_goals simp only [Bench.bare, hresults]
  · exact .bind (Bench.through_onFolder _) fun _ => .of_pure _
  · exact .bind (Bench.through_onFolder _) fun _ =>
      .bind (Bench.through_onFolder _) fun _ => .of_pure _

theorem through_iterate (e : Experiment) (backend : Backend R σ) : ∀ count steps : ℕ,
    Attempt.Through Bench.bare (e.iterate backend count steps)
      (e.iterate backend.noting count steps)
  | 0, _ => .of_pure _
  | count + 1, steps => .bind (through_record e backend steps) fun _ =>
      .bind (Bench.through_onWalk _) fun _ =>
        .bind (through_iterate e backend count _) fun _ => .of_pure _

/-- **Notes change nothing** of an experiment. -/
theorem through_run (e : Experiment) (backend : Backend R σ) :
    Attempt.Through Bench.bare (e.run backend) (e.run backend.noting) :=
  .bind (Bench.through_onWalk _) fun _ => .bind (Bench.through_onWalk _) fun _ =>
    through_iterate e backend _ _

/-! ### One iteration -/

theorem onDevice_statistics_eq_ok {backend : Backend R σ} {shots : ℕ} {b b' : Bench R σ}
    {m : Statistics R} :
    (Bench.onDevice (Walk.statistics backend shots true)).outcome b = (.ok m, b') ↔
      ∃ h t d, (backend.execute b.walk.program shots).outcome b.device = (.ok h, d) ∧
        b.walk.read h shots = .ok t ∧ m = t.statistics ∧
        b' = ⟨{ b.walk with results := some t }, d, b.folder⟩ := by
  rw [Bench.onDevice, Attempt.within_eq_ok]
  simp only [Walk.statistics, Attempt.bind_eq_ok_iff, Walk.outcome_current_forced,
    Walk.outcome_getResults, Attempt.outcome_pure]
  constructor
  · rintro ⟨s, ⟨t, s', hs, hm⟩, rfl⟩
    cases hm
    rcases hexec : (backend.execute b.walk.program shots).outcome b.device with ⟨e | h, d⟩
    · rw [hexec] at hs
      cases hs
    rcases hread : b.walk.read h shots with e | t
    all_goals
      rw [hexec] at hs
      simp only [hread] at hs
      cases hs
    exact ⟨h, _, d, rfl, hread, rfl, rfl⟩
  · rintro ⟨h, t, d, hexec, hread, rfl, rfl⟩
    refine ⟨({ b.walk with results := some t }, d), ⟨t, _, ?_, rfl⟩, rfl⟩
    rw [hexec]
    simp only [hread]

/-- **What an iteration does**: one execution of the program of the walk as it stands, which is read
as `t`; the table and the covariance are written, and the walk keeps `t`. -/
theorem record_eq_ok {e : Experiment} {backend : Backend R σ} {steps : ℕ} {w : Walk R} {d : σ}
    {folder : Folder} {b : Bench R σ} {r : IterationRecord R} :
    (e.record backend steps).outcome ⟨w, d, folder⟩ = (.ok r, b) ↔
      ∃ h t d' f f', (backend.execute w.program e.shots).outcome d = (.ok h, d') ∧
        w.read h e.shots = .ok t ∧
        (writeDisplacement (fileName w steps) t).outcome folder = (.ok (), f) ∧
        (logCovariance covarianceLog steps t.statistics.covariance).outcome f = (.ok (), f') ∧
        r = ⟨steps, fileName w steps, t.statistics⟩ ∧
        b = ⟨{ w with results := some t }, d', f'⟩ := by
  unfold record
  simp only [Attempt.bind_eq_ok_iff, onDevice_statistics_eq_ok, Attempt.outcome_get]
  constructor
  · rintro ⟨_, _, ⟨h, t, d', hexec, hread, rfl, rfl⟩, b', _, hget, hrest⟩
    cases hget
    obtain ⟨_, b₁, hfirst, hrest⟩ := Attempt.outcome_bind_eq_ok hrest
    obtain ⟨_, b₂, hsecond, hrest⟩ := Attempt.outcome_bind_eq_ok hrest
    obtain ⟨f, hwrite, rfl⟩ := Attempt.within_eq_ok.mp hfirst
    obtain ⟨f', hlog, rfl⟩ := Attempt.within_eq_ok.mp hsecond
    cases hrest
    exact ⟨h, t, d', f, f', hexec, hread, hwrite, hlog, rfl, rfl⟩
  · rintro ⟨h, t, d', f, f', hexec, hread, hwrite, hlog, rfl, rfl⟩
    refine ⟨_, _, ⟨h, t, d', hexec, hread, rfl, rfl⟩, _, _, rfl, ?_⟩
    refine (Attempt.outcome_bind_of_ok (Attempt.within_eq_ok.mpr ⟨f, hwrite, rfl⟩)).trans ?_
    exact Attempt.outcome_bind_of_ok (Attempt.within_eq_ok.mpr ⟨f', hlog, rfl⟩)

end Experiment

namespace Walk

/-! ### Steps in between -/

/-- **The walk stands where so many steps lead** from the walk that was built, whatever it keeps as
results. -/
structure Stands (w₀ : Walk R) (steps : ℕ) (w : Walk R) : Prop where
  plan : w.plan = w₀.plan
  phase : w.phase = .idle
  steps_eq : w.steps = steps
  program : w.program = ⟨w₀.plan.layout, w₀.plan.preparation ++ w₀.plan.stepsFrom 0 steps⟩

variable {spec : WalkSpec R} {w₀ w w' : Walk R} {n : ℕ}

theorem stands_of_addSteps (hbuild : build spec = .ok w₀)
    (hrun : (addSteps n).outcome w₀ = (.ok (), w)) : w₀.Stands n w := by
  obtain ⟨hphase, hsteps, hprogram⟩ := program_of_addSteps hbuild hrun
  have hplan := (extended_addSteps n w₀).plan
  rw [hrun] at hplan
  exact ⟨hplan, hphase, hsteps, hprogram⟩

namespace Stands

variable (h : w₀.Stands n w)
include h

theorem keep (t : Displacement R) : w₀.Stands n { w with results := some t } :=
  ⟨h.plan, h.phase, h.steps_eq, h.program⟩

theorem addSteps (hbuild : build spec = .ok w₀) (hg : w₀.plan.Guarded) (m : ℕ) :
    ∃ w', (Walk.addSteps m).outcome w = (.ok (), w') ∧ w₀.Stands (n + m) w' := by
  have hready : w.Ready spec := ⟨h.plan ▸ (build_eq_ok hbuild).1.plan, by rw [h.program, h.plan]⟩
  obtain ⟨w', hrun, hplan, hprogram, hphase, hsteps⟩ :=
    outcome_addSteps (n := m) hready (h.plan ▸ hg) h.phase
  refine ⟨w', hrun, hplan.trans h.plan, hphase, by rw [hsteps, h.steps_eq], ?_⟩
  rw [hprogram, push, h.program, h.plan, h.steps_eq, List.append_assoc,
    ← Plan.stepsFrom_append w₀.plan 0 n m, Nat.zero_add]

/-- What is executed and read there is what a walk executes and reads to which as many steps were
added. -/
theorem exists_addSteps (hbuild : build spec = .ok w₀) (hg : w₀.plan.Guarded) :
    ∃ v, (Walk.addSteps n).outcome w₀ = (.ok (), v) ∧ v.program = w.program ∧
      ∀ hist shots, v.read hist shots = w.read hist shots := by
  obtain ⟨v, hrun, -⟩ := addSteps_of_guarded hbuild hg n
  have hv := stands_of_addSteps hbuild hrun
  refine ⟨v, hrun, hv.program.trans h.program.symm, fun hist shots => ?_⟩
  unfold read decoder
  rw [hv.plan, h.plan]

end Stands

end Walk

namespace Experiment

/-! ### All iterations -/

/-- **What was recorded of an iteration was measured after its steps**: an execution of the program
that so many steps give gave an answer, which was read as a displacement, and the statistics and the
table are those of the displacement. -/
structure Measured (e : Experiment) (w₀ : Walk R) (folder : Folder) (r : IterationRecord R)
    (x : Execution R) : Prop where
  file : r.file = fileName w₀ r.steps
  shots : x.shots = e.shots
  answer : ∃ w h t, (Walk.addSteps r.steps).outcome w₀ = (.ok (), w) ∧ x.circuit = w.program ∧
    x.answer = .ok h ∧ w.read h e.shots = .ok t ∧ r.statistics = t.statistics ∧
    folder.text? r.file = some t.csv

/-- **Some iterations were recorded**, each with an execution of its own; their tables are written,
and of the other files in the base no more than the log was. -/
structure Recorded (e : Experiment) (w₀ : Walk R) (b b' : Bench R (σ × List (Execution R)))
    (records : List (IterationRecord R)) (executions : List (Execution R)) : Prop where
  noted : b'.device.2 = b.device.2 ++ executions
  measured : List.Forall₂ (e.Measured w₀ b'.folder) records executions
  others : ∀ name, Folder.IsName name → name ≠ covarianceLog → (∀ r ∈ records, r.file ≠ name) →
    b'.folder.text? name = b.folder.text? name

namespace Recorded

variable {e : Experiment} {w₀ w : Walk R} {b b' b'' : Bench R (σ × List (Execution R))}
  {r : IterationRecord R} {x : Execution R} {records : List (IterationRecord R)}
  {executions : List (Execution R)}

theorem nil (b : Bench R (σ × List (Execution R))) : Recorded e w₀ b b [] [] :=
  ⟨(List.append_nil _).symm, .nil, fun _ _ _ _ => rfl⟩

theorem file_eq (h : Recorded e w₀ b b' records executions) :
    ∀ r ∈ records, r.file = fileName w₀ r.steps :=
  ((List.forall₂_and_left _ _).mp (h.measured.imp fun _ _ hx => ⟨hx.file, hx⟩)).1

/-- One iteration more, in front of others that have other tables. -/
theorem cons (h : Recorded e w₀ b b' [r] [x])
    (h' : Recorded e w₀ { b' with walk := w } b'' records executions)
    (hname : Folder.IsName r.file) (hlog : r.file ≠ covarianceLog)
    (hfiles : ∀ r' ∈ records, r'.file ≠ r.file) :
    Recorded e w₀ b b'' (r :: records) (x :: executions) := by
  obtain ⟨hfirst, -⟩ := List.forall₂_cons.mp h.measured
  refine ⟨?_, .cons ⟨hfirst.file, hfirst.shots, ?_⟩ h'.measured, fun name hn hne hothers => ?_⟩
  · rw [h'.noted, h.noted, List.append_assoc, List.singleton_append]
  · -- the other iterations leave the table
    obtain ⟨v, hist, t, hrun, hcircuit, hanswer, hread, hstatistics, htable⟩ := hfirst.answer
    exact ⟨v, hist, t, hrun, hcircuit, hanswer, hread, hstatistics,
      (h'.others r.file hname hlog hfiles).trans htable⟩
  · obtain ⟨hother, hothers⟩ := List.forall_mem_cons.mp hothers
    exact (h'.others name hn hne hothers).trans (h.others name hn hne (by simpa using hother))

end Recorded

omit [Scalar R] in
theorem fileName_congr {w w' : Walk R} (h : w.plan = w'.plan) (steps : ℕ) :
    fileName w steps = fileName w' steps := by
  rw [fileName, fileName, h]

section iterations
variable {e : Experiment} {backend : Backend R σ} {spec : WalkSpec R} {w₀ : Walk R}
  {b b' : Bench R (σ × List (Execution R))} (hbuild : Walk.build spec = .ok w₀)
  (hg : w₀.plan.Guarded) (hcoin : '/' ∉ w₀.plan.coin.name.toList)
include hbuild hg hcoin

/-- **One iteration** records the walk where it stands. -/
theorem recorded_of_record {steps : ℕ} {r : IterationRecord R} (hw : w₀.Stands steps b.walk)
    (hrun : (e.record backend.noting steps).outcome b = (.ok r, b')) :
    r.steps = steps ∧ w₀.Stands steps b'.walk ∧ ∃ x, Recorded e w₀ b b' [r] [x] := by
  obtain ⟨w, ⟨d, notes⟩, folder⟩ := b
  obtain ⟨h, t, d', f, f', hexec, hread, hwrite, hlog, rfl, rfl⟩ := record_eq_ok.mp hrun
  have hfile : fileName w steps = fileName w₀ steps := fileName_congr hw.plan steps
  have htable := text?_of_writeDisplacement (hfile ▸ isName_fileName hcoin steps) hwrite
  have hrest := (text?_of_appendLog isName_covarianceLog hlog).2
  refine ⟨rfl, hw.keep t, ⟨w.program, e.shots, .ok h⟩, ?_, .cons ⟨hfile, rfl, ?_⟩ .nil,
    fun name hname hne hother => ?_⟩
  · have hnoted : d'.2 = notes ++ [⟨w.program, e.shots, _⟩] :=
      congrArg (fun s => s.2.2) hexec.symm
    rw [hnoted]
    exact congrArg (fun answer => notes ++ [⟨w.program, e.shots, answer⟩]) (congrArg Prod.fst hexec)
  · obtain ⟨v, hrun, hprogram, hsame⟩ := hw.exists_addSteps hbuild hg
    refine ⟨v, h, t, hrun, hprogram.symm, rfl, (hsame h e.shots).trans hread, rfl, ?_⟩
    rw [← htable.1]
    exact hrest _ (hfile ▸ isName_fileName hcoin steps) (fileName_ne_covarianceLog w steps)
  · have hne' : name ≠ fileName w steps := fun heq => hother _ List.mem_cons_self heq.symm
    exact (hrest name hname hne).trans (htable.2 name hname hne')

/-- **All iterations** record the walk after their own numbers of steps. The induction is on their
number. -/
theorem recorded_of_iterate (hstep : e.stepSize ≠ 0) : ∀ {count steps : ℕ}
    {b b' : Bench R (σ × List (Execution R))} {records : List (IterationRecord R)},
    w₀.Stands steps b.walk → (e.iterate backend.noting count steps).outcome b = (.ok records, b') →
    records.map IterationRecord.steps = List.range' steps count e.stepSize ∧
      ∃ executions, Recorded e w₀ b b' records executions
  | 0, _, b, _, _, _, hrun => by
    cases hrun
    exact ⟨rfl, [], .nil b⟩
  | count + 1, steps, b, b', records, hw, hrun => by
    obtain ⟨r, b₁, hrecord, hrun⟩ := Attempt.outcome_bind_eq_ok hrun
    obtain ⟨_, b₂, hsteps, hrun⟩ := Attempt.outcome_bind_eq_ok hrun
    obtain ⟨rest, b₃, hiterate, hrun⟩ := Attempt.outcome_bind_eq_ok hrun
    cases hrun
    obtain ⟨hr, hw₁, x, hfirst⟩ := recorded_of_record hbuild hg hcoin hw hrecord
    obtain ⟨w₂, hadded, rfl⟩ := Attempt.within_eq_ok.mp hsteps
    obtain ⟨w₂', hadded', hw₂⟩ := hw₁.addSteps hbuild hg e.stepSize
    obtain rfl : w₂ = w₂' := congrArg Prod.snd (hadded.symm.trans hadded')
    obtain ⟨hlater, executions, hrest⟩ := recorded_of_iterate hstep hw₂ hiterate
    have hfile : r.file = fileName w₀ steps := hr ▸ hfirst.file_eq r List.mem_cons_self
    refine ⟨?_, x :: executions, hfirst.cons hrest ?_ ?_ fun r' hr' => ?_⟩
    · rw [List.map_cons, hr, hlater, List.range'_succ]
    · exact hfile ▸ isName_fileName hcoin steps
    · exact hfile ▸ fileName_ne_covarianceLog w₀ steps
    · -- the later iterations have more steps
      have hmem : r'.steps ∈ List.range' (steps + e.stepSize) count e.stepSize :=
        hlater ▸ List.mem_map_of_mem hr'
      obtain ⟨i, -, hi⟩ := List.mem_range'.mp hmem
      rw [hrest.file_eq r' hr', hfile]
      exact (fileName_injective w₀).ne (by omega)

end iterations

/-! ### Experiments -/

/-- **The numbers of steps** after which an experiment measures. -/
theorem range'_iterations {e : Experiment} (hstep : e.stepSize ≠ 0) :
    List.range' 1 e.iterations e.stepSize =
      (List.range' 1 e.maxSteps).filter fun n => e.stepSize ∣ n - 1 := by
  have hpos : 0 < e.stepSize := Nat.pos_of_ne_zero hstep
  refine List.Pairwise.eq_of_mem_iff (List.pairwise_lt_range' _ hpos)
    ((List.pairwise_lt_range' _).filter _) fun n => ?_
  rw [List.mem_range', List.mem_filter, List.mem_range'_1, decide_eq_true_iff]
  have hcount : ∀ i, i < e.iterations ↔ e.stepSize * i + 1 ≤ e.maxSteps := by
    intro i
    rw [iterations, Nat.lt_iff_add_one_le, Nat.le_div_iff_mul_le hpos, Nat.add_mul, Nat.mul_comm i]
    omega
  constructor
  · rintro ⟨i, hi, rfl⟩
    have hle := (hcount i).mp hi
    exact ⟨by omega, by simp⟩
  · rintro ⟨hbounds, i, hi⟩
    exact ⟨i, (hcount i).mpr (by omega), by omega⟩

/-- **Every iteration is measured after the steps that it is filed under.** Whatever state a walk is
in, an experiment begins with the walk that was built. If it succeeds, its records are those after
one step, one step more than the step size, and so on up to the largest number of steps, and their
tables have different names. The device has executed one program for each record, the one of the
walk that was built after as many steps as the record says; the statistics are those of what was
measured then, and so is the table that stands under its name at the end. The notes of the device
change nothing of this. -/
theorem records_measured [PlainNumerals R] {spec : WalkSpec R} {w₀ w : Walk R}
    (hbuild : Walk.build spec = .ok w₀) (hplan : w.plan = w₀.plan) {e : Experiment}
    (hstep : 1 ≤ e.stepSize) (backend : Backend R σ) (d : σ) (folder : Folder)
    {records : List (IterationRecord R)} {b : Bench R σ}
    (hrun : (e.run backend).outcome ⟨w, d, folder⟩ = (.ok records, b)) :
    Walk.resetCircuit.outcome w = (.ok (), w₀) ∧
    records.map IterationRecord.steps =
      (List.range' 1 e.maxSteps).filter (fun n => e.stepSize ∣ n - 1) ∧
    (records.map IterationRecord.file).Nodup ∧
    ∃ executions, (e.run backend.noting).outcome ⟨w, (d, []), folder⟩ =
        (.ok records, ⟨b.walk, (b.device, executions), b.folder⟩) ∧
      List.Forall₂ (e.Measured w₀ b.folder) records executions := by
  have hreset := Walk.resetCircuit_of_plan hbuild hplan
  have hready := (Walk.build_eq_ok hbuild).1
  have hcoin : '/' ∉ w₀.plan.coin.name.toList :=
    (WalkSpec.directs_of_buildCoin hready.plan.coin).slash_notMem_name
  have hne : e.stepSize ≠ 0 := by omega
  have hthrough := through_run e backend ⟨w, (d, []), folder⟩
  rcases hnoting : (e.run backend.noting).outcome ⟨w, (d, []), folder⟩ with ⟨result, b'⟩
  rw [hnoting] at hthrough
  obtain ⟨rfl, rfl⟩ := Prod.mk.inj (hthrough.symm.trans hrun)
  obtain ⟨_, b₁, hfirst, hrest⟩ := Attempt.outcome_bind_eq_ok hnoting
  obtain ⟨w₁, hbegun, rfl⟩ := Attempt.within_eq_ok.mp hfirst
  obtain rfl : w₁ = w₀ := congrArg Prod.snd (hbegun.symm.trans hreset)
  obtain ⟨_, b₂, hsecond, hrest⟩ := Attempt.outcome_bind_eq_ok hrest
  obtain ⟨w₂, hstepped, rfl⟩ := Attempt.within_eq_ok.mp hsecond
  have hone : (Walk.addSteps 1).outcome w₁ = (.ok (), w₂) := Attempt.outcome_bind_of_ok hstepped
  have hg : w₁.plan.Guarded :=
    hready.plan.of_controls (Walk.sound_of_addSteps hbuild one_ne_zero hone)
  obtain ⟨hsteps, executions, hrecorded⟩ := recorded_of_iterate hbuild hg hcoin hne
    (Walk.stands_of_addSteps hbuild hone) hrest
  refine ⟨hreset, hsteps.trans (range'_iterations hne), ?_, executions, ?_, hrecorded.measured⟩
  · have hfiles : records.map IterationRecord.file =
        (records.map IterationRecord.steps).map (fileName w₁) := by
      rw [List.map_map]
      exact List.map_congr_left hrecorded.file_eq
    rw [hfiles, hsteps]
    exact (List.nodup_range' _ (Nat.pos_of_ne_zero hne)).map (fileName_injective w₁)
  · have hnotes : b'.device.2 = executions := hrecorded.noted
    rw [← hnotes]
    rfl

/-- Four shots after one step and after three. -/
def twice : Experiment := ⟨3, 2, 4⟩

theorem fileName_twoSites {w₀ w : Walk ℝ} (hbuild : Walk.build { widths := [1] } = .ok w₀)
    (hplan : w.plan = w₀.plan) (steps : ℕ) :
    fileName w steps = iterationFileName 1 1 steps "Hadamard Coin" := by
  have hparts : (Walk.build { widths := [1] }).map (fun w : Walk ℝ =>
      (w.plan.widths, w.plan.coin.name)) = .ok ([1], "Hadamard Coin") := rfl
  rw [hbuild] at hparts
  obtain ⟨hwidths, hcoin⟩ := Prod.mk.inj (Except.ok.inj hparts)
  rw [fileName, hplan, hwidths, hcoin]
  rfl

/-- An iteration is recorded if the device answers for two sites and the base has no folders. -/
theorem exists_record_twice {w₀ w : Walk ℝ} (hbuild : Walk.build { widths := [1] } = .ok w₀)
    (hplan : w.plan = w₀.plan) {steps : ℕ} (hsteps : steps = 1 ∨ steps = 3)
    (answers : List (Except Failure Histogram)) {folder : Folder} (hfolder : folder.folders = []) :
    ∃ r t folder', (twice.record (Backend.replay ℝ) steps).outcome
        ⟨w, .ok Walk.atZero :: answers, folder⟩ =
      (.ok r, ⟨{ w with results := some t }, answers, folder'⟩) ∧ folder'.folders = [] := by
  have hname : Folder.IsName (fileName w steps) ∧ Folder.isLegal (fileName w steps) = true ∧
      (fileName w steps).utf8ByteSize ≤ Folder.nameLimit := by
    rw [fileName_twoSites hbuild hplan]
    rcases hsteps with rfl | rfl <;>
      exact ⟨⟨by decide, by decide, by decide, by decide⟩, by decide, by decide⟩
  obtain ⟨t, hread⟩ := Walk.read_atZero hbuild hplan
  obtain ⟨f, htable, hf⟩ := hname.1.exists_update? hname.2.1 hname.2.2 hfolder fun _ => t.csv
  obtain ⟨f', hlog, hf'⟩ := isName_covarianceLog.exists_update? (by decide) (by decide) hf
    fun before => before.getD "" ++ covarianceEntry steps t.statistics.covariance
  refine ⟨_, t, f', record_eq_ok.mpr ⟨Walk.atZero, t, answers, f, f', rfl, hread, ?_, ?_, rfl, rfl⟩,
    hf'⟩
  · rw [writeDisplacement, Attempt.outcome_of, htable]
  · rw [logCovariance, appendLog, Attempt.outcome_of, isName_covarianceLog.withParents_eq]
    dsimp only
    rw [hlog]

/-- Two iterations of a walk that was in the middle of its eighth step before. -/
theorem records_measured_twice : ∃ (w₀ : Walk ℝ) (records : List (IterationRecord ℝ))
    (b : Bench ℝ (List (Except Failure Histogram))) (executions : List (Execution ℝ)),
    Walk.build { widths := [1] } = .ok w₀ ∧
    (twice.run (Backend.replay ℝ)).outcome
      ⟨{ w₀ with phase := .coined, steps := 7 }, [.ok Walk.atZero, .ok Walk.atZero], .empty⟩ =
        (.ok records, b) ∧
    records.map IterationRecord.steps = [1, 3] ∧
    List.Forall₂ (twice.Measured w₀ b.folder) records executions := by
  obtain ⟨w₀, hbuild⟩ : ∃ w₀ : Walk ℝ, Walk.build { widths := [1] } = .ok w₀ := ⟨_, rfl⟩
  have hsound : ∀ c ∈ w₀.plan.controls, c.control.Sound :=
    (Walk.build_eq_ok hbuild).1.plan.of_controls fun c hc => absurd hc List.not_mem_nil
  have hg : w₀.plan.Guarded := .of_sound hsound
  -- one step, a record, two steps, a record, and two steps that nothing follows
  have hbegun : w₀.Stands 0 w₀ := Walk.stands_of_addSteps (n := 0) hbuild rfl
  obtain ⟨w₁, hone, hw₁⟩ := hbegun.addSteps hbuild hg 1
  obtain ⟨_, _, hstep, hdone⟩ := Attempt.outcome_bind_eq_ok hone
  cases hdone
  obtain ⟨r, t, f, hfirst, hf⟩ := exists_record_twice hbuild hw₁.plan (.inl rfl)
    [.ok Walk.atZero] (Eq.refl Folder.empty.folders)
  obtain ⟨w₂, htwo, hw₂⟩ := (hw₁.keep t).addSteps hbuild hg 2
  obtain ⟨r', t', f', hsecond, -⟩ := exists_record_twice hbuild hw₂.plan (.inr rfl) [] hf
  obtain ⟨w₃, hlast, -⟩ := (hw₂.keep t').addSteps hbuild hg 2
  have hrest : (twice.iterate (Backend.replay ℝ) 1 3).outcome ⟨w₂, [.ok Walk.atZero], f⟩ =
      (.ok [r'], ⟨w₃, [], f'⟩) := by
    refine Attempt.bind_eq_ok_iff.mpr ⟨_, _, hsecond, ?_⟩
    exact Attempt.bind_eq_ok_iff.mpr ⟨_, _, Attempt.within_eq_ok.mpr ⟨w₃, hlast, rfl⟩, rfl⟩
  have hrun : (twice.run (Backend.replay ℝ)).outcome
      ⟨{ w₀ with phase := .coined, steps := 7 }, [.ok Walk.atZero, .ok Walk.atZero], .empty⟩ =
        (.ok [r, r'], ⟨w₃, [], f'⟩) := by
    have hreset : Walk.resetCircuit.outcome { w₀ with phase := .coined, steps := 7 } =
        (.ok (), w₀) := Walk.resetCircuit_of_plan hbuild rfl
    refine Attempt.bind_eq_ok_iff.mpr ⟨_, _, Attempt.within_eq_ok.mpr ⟨w₀, hreset, rfl⟩, ?_⟩
    refine Attempt.bind_eq_ok_iff.mpr ⟨_, _, Attempt.within_eq_ok.mpr ⟨w₁, hstep, rfl⟩, ?_⟩
    refine Attempt.bind_eq_ok_iff.mpr ⟨_, _, hfirst, ?_⟩
    refine Attempt.bind_eq_ok_iff.mpr ⟨_, _, Attempt.within_eq_ok.mpr ⟨w₂, htwo, rfl⟩, ?_⟩
    exact Attempt.bind_eq_ok_iff.mpr ⟨_, _, hrest, rfl⟩
  obtain ⟨-, hsteps, -, executions, -, hmeasured⟩ :=
    records_measured hbuild rfl (by decide) (Backend.replay ℝ) _ _ hrun
  exact ⟨w₀, _, _, executions, hbuild, hrun, hsteps.trans (by decide), hmeasured⟩

end Experiment

end LatticeWalk
