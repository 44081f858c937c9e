import LatticeWalk.Proofs.Step
import LatticeWalk.Walk.Results

/-! # Calls on a walk

A walk may be asked anything in any order, and what fails on its way leaves behind what it has added
by then. So a walk is followed through calls by what holds at every end of a call.

* `Attempt.Leads`: all ends of an attempt are related to its start; `Attempt.Leads.bind`.
* `Walk.Call`, `Walk.perform`, `Walk.run`: what a walk may be asked, and the walk and its device
  after one call and after several.
* `Plan.Emits`: the operations that calls add to a program.
* `Walk.Extended`: some of these were added; every phase of a step extends the walk.
* `Walk.Measures`: a call had the device execute a program and keeps what came out.
* `Walk.perform_cases`: a call extends the program or begins it anew, or it measures results.
* `Walk.Compiled`: the program consists of what its plan emits; `Walk.compiled_run`. -/

namespace LatticeWalk

/-! ### All ends of an attempt -/

namespace Attempt

variable {σ α β : Type}

/-- However the attempt ends, its last state is related to the first. -/
def Leads (rel : σ → σ → Prop) (x : Attempt σ α) (s : σ) : Prop := rel s (x.outcome s).2

variable {rel : σ → σ → Prop} {s : σ}

theorem Leads.bind (htrans : ∀ {a b c}, rel a b → rel b c → rel a c) {x : Attempt σ α}
    {f : α → Attempt σ β} (hx : x.Leads rel s)
    (hf : ∀ a s', x.outcome s = (.ok a, s') → rel s s' → (f a).Leads rel s') :
    (x >>= f).Leads rel s := by
  unfold Leads at hx ⊢
  rcases h : x.outcome s with ⟨e | a, s'⟩
  · rw [outcome_bind_of_error h]
    rwa [h] at hx
  · rw [outcome_bind_of_ok h]
    rw [h] at hx
    exact htrans hx (hf a s' h hx)

theorem outcome_first {τ : Type} (x : Attempt σ α) (s : σ × τ) :
    x.first.outcome s = ((x.outcome s.1).1, ((x.outcome s.1).2, s.2)) := rfl

theorem outcome_bind_pure_snd (x : Attempt σ α) (f : α → β) (s : σ) :
    ((x >>= fun a => pure (f a)).outcome s).2 = (x.outcome s).2 := by
  rcases h : x.outcome s with ⟨e | a, s'⟩
  · rw [outcome_bind_of_error h]
  · rw [outcome_bind_of_ok h, outcome_pure]

theorem Leads.get_bind {f : σ → Attempt σ α} (h : (f s).Leads rel s) :
    (get >>= f).Leads rel s := by
  unfold Leads
  rwa [outcome_bind_of_ok (outcome_get s)]

theorem Leads.check_bind {result : Except Failure α} {f : α → Attempt σ β} (hs : rel s s)
    (h : ∀ a, result = .ok a → (f a).Leads rel s) : (check result >>= f).Leads rel s := by
  unfold Leads
  cases result with
  | error e => rwa [outcome_bind_of_error (outcome_check _ s)]
  | ok a =>
    rw [outcome_bind_of_ok (outcome_check _ s)]
    exact h a rfl

end Attempt

variable {R : Type} [Scalar R]

/-! ### What circuits grow by -/

namespace Circuit

/-- Operations of some sort were added, with their wires in the layout. -/
structure Grown (P : Operation R → Prop) (c c' : Circuit R) : Prop where
  layout : c'.layout = c.layout
  operations : ∃ ops, c'.operations = c.operations ++ ops ∧
    ∀ op ∈ ops, P op ∧ ∀ q ∈ op.wires, q < c.width

variable {P : Operation R → Prop}

omit [Scalar R] in
theorem Grown.refl (c : Circuit R) : Grown P c c := ⟨rfl, [], by simp, by simp⟩

omit [Scalar R] in
theorem Grown.width {c c' : Circuit R} (h : Grown P c c') : c'.width = c.width := by
  rw [Circuit.width, h.layout, Circuit.width]

omit [Scalar R] in
theorem Grown.trans {c c' c'' : Circuit R} (h : Grown P c c') (h' : Grown P c' c'') :
    Grown P c c'' := by
  obtain ⟨ops, heq, hops⟩ := h.operations
  obtain ⟨ops', heq', hops'⟩ := h'.operations
  refine ⟨h'.layout.trans h.layout, ops ++ ops', by rw [heq', heq, List.append_assoc],
    fun op hop => ?_⟩
  rcases List.mem_append.mp hop with hop | hop
  · exact hops op hop
  · exact h.width ▸ hops' op hop

theorem grown_add {op : Operation R} (hop : P op) (c : Circuit R) :
    (add op).Leads (Grown P) c := by
  unfold Attempt.Leads
  rw [outcome_add, check]
  cases hfind : op.wires.find? fun w => c.width ≤ w with
  | some wire => exact .refl c
  | none =>
    refine ⟨rfl, [op], rfl, fun op' hop' => ?_⟩
    rw [List.mem_singleton.mp hop']
    exact ⟨hop, fun q hq => by simpa using List.find?_eq_none.mp hfind q hq⟩

theorem grown_addAll : ∀ {ops : List (Operation R)}, (∀ op ∈ ops, P op) → ∀ c : Circuit R,
    (addAll ops).Leads (Grown P) c
  | [], _, c => .refl c
  | op :: ops, h, c => .bind .trans (grown_add (h op (by simp)) c) fun _ c' _ _ =>
      grown_addAll (fun op' hop' => h op' (by simp [hop'])) c'

theorem grown_append {op : Operator R} {wires : List ℕ} (h : P (op.bound wires)) (c : Circuit R) :
    (append op wires).Leads (Grown P) c := by
  refine .check_bind (.refl c) fun operation hbind => ?_
  rw [(Operator.eq_of_bind hbind).2]
  exact grown_add h c

omit [Scalar R] in
theorem grown_addBarrier (h : P .barrier) (c : Circuit R) : addBarrier.Leads (Grown P) c :=
  ⟨rfl, [.barrier], rfl, by simpa [Operation.wires] using h⟩

end Circuit

/-! ### What walks grow by -/

/-- **The operations that calls add to the program of a plan.** -/
inductive Plan.Emits (plan : Plan R) : Operation R → Prop
  | barrier : plan.Emits .barrier
  | prepared {op} (h : op ∈ plan.preparation) : plan.Emits op
  | coin : plan.Emits (plan.coin.bound plan.coinRegister.wires)
  | controlCoin {c op} (hc : c ∈ plan.controls) (h : op ∈ c.coinOps) : plan.Emits op
  /-- An operation of the block of a plane, which need not be one of the plan. -/
  | block {c plane ops op} (hc : c ∈ plan.controls)
      (hd : plane.dimension < plan.positions.length)
      (hblock : c.control.block plane plan.coin (plan.wiring c plane) = .ok ops) (h : op ∈ ops) :
      plan.Emits op
  | shift {direction d op} (hd : d < plan.positions.length)
      (h : op ∈ Shift.ripple direction plan.coinRegister (plan.positionOf d)) : plan.Emits op
  /-- A flip that selects a value of the coin for a shift. -/
  | selection {pattern op} (h : op ∈ Shift.selection plan.coinRegister pattern) : plan.Emits op
  | reset (step : ℕ) {op} (h : op ∈ plan.resetOps step) : plan.Emits op

namespace Walk

/-- The walk has more operations of its plan in its program. What it keeps as results it had
before. -/
structure Extended (w w' : Walk R) : Prop where
  plan : w'.plan = w.plan
  program : w.program.Grown w.plan.Emits w'.program
  results : ∀ t, w'.results = some t → w.results = some t

namespace Extended

theorem refl (w : Walk R) : w.Extended w := ⟨rfl, .refl _, fun _ => id⟩

theorem trans {w w' w'' : Walk R} (h : w.Extended w') (h' : w'.Extended w'') : w.Extended w'' where
  plan := h'.plan.trans h.plan
  program := h.program.trans (h.plan ▸ h'.program)
  results t ht := h.results t (h'.results t ht)

end Extended

theorem Ready.extended {w w' : Walk R} {spec : WalkSpec R} (h : w.Ready spec)
    (he : w.Extended w') : w'.Ready spec :=
  ⟨he.plan.symm ▸ h.plan, by rw [he.program.layout, h.layout, he.plan]⟩

theorem extended_onProgram {α : Type} {x : Attempt (Circuit R) α} {w : Walk R}
    (h : x.Leads (Circuit.Grown w.plan.Emits) w.program) : (onProgram x).Leads Extended w :=
  ⟨rfl, h, fun _ => id⟩

theorem extended_prepare (w : Walk R) : prepare.Leads Extended w :=
  .get_bind (extended_onProgram (Circuit.grown_addAll (fun _ hop => .prepared hop) _))

theorem extended_advance (current next : Phase) (w : Walk R) :
    (advance current next).Leads Extended w := by
  unfold Attempt.Leads advance
  rw [Attempt.outcome_of]
  split_ifs
  · exact ⟨rfl, .refl _, fun _ => id⟩
  · exact .refl w

/-! ### The phases of a step -/

theorem extended_addControlCoin {c : Installed R} {w : Walk R} (hc : c ∈ w.plan.controls) :
    (addControlCoin c).Leads Extended w := by
  unfold addControlCoin
  split
  next op register hop hregister =>
    refine extended_onProgram (Circuit.grown_append (.controlCoin hc ?_) _)
    simp [Installed.coinOps, hop, hregister]
  next => exact .refl w

theorem extended_addControlCoins : ∀ {cs : List (Installed R)} {w : Walk R},
    (∀ c ∈ cs, c ∈ w.plan.controls) → (addControlCoins cs).Leads Extended w
  | [], w, _ => .refl w
  | c :: cs, w, h => .bind .trans (extended_addControlCoin (h c (by simp))) fun _ w' _ he =>
      extended_addControlCoins fun c' hc' => he.plan ▸ h c' (by simp [hc'])

theorem extended_addBarrier (w : Walk R) : (onProgram Circuit.addBarrier).Leads Extended w :=
  extended_onProgram (Circuit.grown_addBarrier .barrier _)

theorem extended_addCoins (w : Walk R) : addCoins.Leads Extended w := by
  refine .bind .trans (extended_advance _ _ w) fun _ w1 _ _ => .get_bind ?_
  refine .bind .trans (extended_onProgram (Circuit.grown_append .coin _)) fun _ w2 _ he => ?_
  refine .bind .trans (extended_addControlCoins fun c hc => he.plan ▸ hc) fun _ w3 _ _ => ?_
  exact extended_addBarrier w3

theorem extended_applyBoundary (i : ℕ) (plane : Boundary) (w : Walk R) :
    (applyBoundary i plane).Leads Extended w := by
  refine .get_bind (.check_bind (.refl w) fun ops hops => ?_)
  obtain ⟨c, hc, hd, hblock⟩ := blockOf_eq_ok hops
  exact extended_onProgram (Circuit.grown_addAll
    (fun op hop => .block (List.mem_of_getElem? hc) hd hblock hop) _)

theorem extended_applyPlanes : ∀ (ps : List (ℕ × Boundary)) (w : Walk R),
    (applyPlanes ps).Leads Extended w
  | [], w => .refl w
  | p :: ps, w => .bind .trans (extended_applyBoundary p.1 p.2 w) fun _ w' _ _ =>
      extended_applyPlanes ps w'

theorem extended_applyBoundaries (w : Walk R) : applyBoundaries.Leads Extended w := by
  refine .bind .trans (extended_advance _ _ w) fun _ w1 _ _ => .get_bind ?_
  refine .bind .trans (extended_applyPlanes _ w1) fun _ w2 _ _ => ?_
  exact extended_addBarrier w2

theorem extended_addShift (direction : Direction) (d : ℕ) (w : Walk R) :
    (addShift direction d).Leads Extended w := by
  refine .get_bind (.check_bind (.refl w) fun r hr => ?_)
  obtain ⟨hd, rfl⟩ := position_of_eq_ok hr
  exact extended_onProgram (Circuit.grown_addAll (fun op hop => .shift hd hop) _)

theorem extended_wrapShift (direction : Direction) (pattern : String) (d : ℕ) (w : Walk R) :
    (wrapShift direction pattern d).Leads Extended w := by
  refine .get_bind (.check_bind (.refl w) fun r hr => .check_bind (.refl w) fun ops hops => ?_)
  obtain ⟨hd, rfl⟩ := position_of_eq_ok hr
  obtain ⟨_, -, hops⟩ := Except.bind_eq_ok.mp hops
  obtain rfl := Except.ok.inj hops
  refine extended_onProgram (Circuit.grown_addAll (fun op hop => ?_) _)
  simp only [List.mem_append, List.mem_singleton] at hop
  rcases hop with ((hop | hop) | hop) | rfl
  · exact .selection hop
  · exact .shift hd hop
  · exact .selection hop
  · exact .barrier

theorem extended_addMoves : ∀ (ms : List MovePattern) (w : Walk R), (addMoves ms).Leads Extended w
  | [], w => .refl w
  | _ :: ms, w => .bind .trans (extended_wrapShift _ _ _ w) fun _ w1 _ _ =>
      .bind .trans (extended_wrapShift _ _ _ w1) fun _ w2 _ _ => extended_addMoves ms w2

theorem extended_addShifts (w : Walk R) : addShifts.Leads Extended w :=
  .bind .trans (extended_advance _ _ w) fun _ w1 _ _ => .get_bind (extended_addMoves _ w1)

theorem extended_resetBoundaries (w : Walk R) : resetBoundaries.Leads Extended w := by
  refine .bind .trans (extended_advance _ _ w) fun _ w1 _ _ => .get_bind ?_
  have hscript : ∀ op ∈ w1.resetScript, w1.plan.Emits op := fun op hop =>
    .reset 0 (List.mem_append_left _ hop)
  refine .bind .trans (extended_onProgram (Circuit.grown_addAll hscript _)) fun _ w2 _ _ => ?_
  exact ⟨rfl, .refl _, fun _ => id⟩

/-- **A step extends the walk**, also one that fails. -/
theorem extended_step (w : Walk R) : step.Leads Extended w := by
  refine .bind .trans (extended_addCoins w) fun _ w1 _ _ => ?_
  refine .bind .trans (extended_applyBoundaries w1) fun _ w2 _ _ => ?_
  refine .bind .trans (extended_addShifts w2) fun _ w3 _ _ => ?_
  refine .bind .trans (extended_resetBoundaries w3) fun _ w4 _ _ => ?_
  refine .bind .trans ⟨rfl, .refl _, fun _ => id⟩ fun _ w5 _ _ => .get_bind ?_
  have hcycle : ∀ op ∈ w5.decoherenceAfter w5.steps, w5.plan.Emits op := fun op hop =>
    .reset _ (List.mem_append_right _ hop)
  refine .bind .trans (extended_onProgram (Circuit.grown_addAll hcycle _)) fun _ w6 _ _ => ?_
  exact ⟨rfl, .refl _, nofun⟩

theorem outcome_step_of_phase {w : Walk R} (hphase : w.phase ≠ .idle) :
    step.outcome w = (refuse (.phaseOrder .coined w.phase), w) := by
  have hadvance : (advance .idle .coined).outcome w =
      (refuse (.phaseOrder .coined w.phase), w) := by
    rw [advance, Attempt.outcome_of, if_neg hphase]
  unfold step addCoins
  exact Attempt.outcome_bind_of_error (Attempt.outcome_bind_of_error hadvance)

theorem extended_addSteps : ∀ (n : ℕ) (w : Walk R), (addSteps n).Leads Extended w
  | 0, w => .refl w
  | n + 1, w => .bind .trans (extended_step w) fun _ w' _ _ => extended_addSteps n w'

theorem extended_resetCircuit (w : Walk R) :
    (ofPlan w.plan).Extended (resetCircuit.outcome w).2 := by
  unfold resetCircuit
  rw [Attempt.outcome_bind_of_ok (Attempt.outcome_modify _ w)]
  exact extended_prepare (ofPlan w.plan)

/-! ### Calls -/

/-- What a walk may be asked. -/
inductive Call where
  | step
  | addSteps (n : ℕ)
  | addCoins
  | applyBoundary (index : ℕ) (plane : Boundary)
  | applyBoundaries
  | addShift (direction : Direction) (dimension : ℕ)
  | wrapShift (direction : Direction) (pattern : String) (dimension : ℕ)
  | addShifts
  | resetBoundaries
  | resetCircuit
  | execute (shots : ℕ)
  | getResults (shots : ℕ)
  | runExperiment (steps shots : ℕ)
  | statistics (shots : ℕ) (force : Bool)
  | covariance (shots : ℕ) (force : Bool)
  deriving Repr, DecidableEq

variable {σ : Type}

/-- The walk and the device after a call, whether it succeeds or not. -/
def perform (backend : Backend R σ) (s : Walk R × σ) : Call → Walk R × σ
  | .step => (step.first.outcome s).2
  | .addSteps n => ((addSteps n).first.outcome s).2
  | .addCoins => (addCoins.first.outcome s).2
  | .applyBoundary index plane => ((applyBoundary index plane).first.outcome s).2
  | .applyBoundaries => (applyBoundaries.first.outcome s).2
  | .addShift direction dimension => ((addShift direction dimension).first.outcome s).2
  | .wrapShift direction pattern dimension =>
    ((wrapShift direction pattern dimension).first.outcome s).2
  | .addShifts => (addShifts.first.outcome s).2
  | .resetBoundaries => (resetBoundaries.first.outcome s).2
  | .resetCircuit => (resetCircuit.first.outcome s).2
  | .execute shots => ((execute backend shots).outcome s).2
  | .getResults shots => ((getResults backend shots).outcome s).2
  | .runExperiment steps shots => ((runExperiment backend steps shots).outcome s).2
  | .statistics shots force => ((statistics backend shots force).outcome s).2
  | .covariance shots force => ((covariance backend shots force).outcome s).2

/-- The walk and the device after some calls, one after the other. -/
def run (backend : Backend R σ) (s : Walk R × σ) (calls : List Call) : Walk R × σ :=
  calls.foldl (perform backend) s

variable {backend : Backend R σ}

theorem run_append (s : Walk R × σ) (calls later : List Call) :
    run backend s (calls ++ later) = run backend (run backend s calls) later :=
  List.foldl_append

theorem run_concat (s : Walk R × σ) (calls : List Call) (call : Call) :
    run backend s (calls ++ [call]) = perform backend (run backend s calls) call :=
  run_append s calls [call]

/-! ### What a call does -/

/-- Begins the program anew and adds steps. -/
def restart (steps : ℕ) : Attempt (Walk R) Unit := do
  resetCircuit
  addSteps steps

theorem extended_restart (steps : ℕ) (w : Walk R) :
    (ofPlan w.plan).Extended ((restart steps).outcome w).2 := by
  have hbegun := extended_resetCircuit w
  unfold restart
  rcases hreset : resetCircuit.outcome w with ⟨e | _, w'⟩
  all_goals rw [hreset] at hbegun
  · rwa [Attempt.outcome_bind_of_error hreset]
  · rw [Attempt.outcome_bind_of_ok hreset]
    exact hbegun.trans (extended_addSteps steps w')

/-- The walk whose program a call has executed for results, with the number of shots. There is none
if the call needs no results, finds some or fails before. -/
def Call.asks (w : Walk R) : Call → Option (Walk R × ℕ)
  | .getResults shots => some (w, shots)
  | .runExperiment steps shots =>
    match (restart steps).outcome w with
    | (.ok _, w') => some (w', shots)
    | (.error _, _) => none
  | .statistics shots force | .covariance shots force =>
    if w.results.isSome ∧ force = false then none else some (w, shots)
  | .step | .addSteps _ | .addCoins | .applyBoundary _ _ | .applyBoundaries | .addShift _ _
  | .wrapShift _ _ _ | .addShifts | .resetBoundaries | .resetCircuit | .execute _ => none

/-- **A call measures results**: the device executed the program that the call asks for, and what
came out was read as `t`, which the walk now keeps. -/
def Measures (backend : Backend R σ) (s : Walk R × σ) (call : Call) (t : Displacement R) : Prop :=
  ∃ w shots h b, call.asks s.1 = some (w, shots) ∧
    (backend.execute w.program shots).outcome s.2 = (.ok h, b) ∧ w.read h shots = .ok t ∧
    perform backend s call = ({ w with results := some t }, b)

theorem Measures.results_eq {s : Walk R × σ} {call : Call} {t : Displacement R}
    (h : Measures backend s call t) : (perform backend s call).1.results = some t := by
  obtain ⟨w, shots, h, b, -, -, -, heq⟩ := h
  rw [heq]

/-- The program was extended, or begun anew and extended. -/
def Continued (w w' : Walk R) : Prop := w.Extended w' ∨ (ofPlan w.plan).Extended w'

theorem Continued.refl (w : Walk R) : w.Continued w := .inl (.refl w)

omit [Scalar R] in
theorem outcome_execute (backend : Backend R σ) (shots : ℕ) (s : Walk R × σ) :
    (execute backend shots).outcome s = (((backend.execute s.1.program shots).outcome s.2).1,
      (s.1, ((backend.execute s.1.program shots).outcome s.2).2)) := by
  unfold execute
  rw [Attempt.outcome_bind_of_ok (Attempt.outcome_get s)]
  rfl

/-- What a measurement does: the program is executed, what comes out is read, and kept. -/
theorem outcome_getResults (backend : Backend R σ) (shots : ℕ) (s : Walk R × σ) :
    (getResults backend shots).outcome s = match (backend.execute s.1.program shots).outcome s.2 with
      | (.error e, b) => (.error e, (s.1, b))
      | (.ok h, b) => match s.1.read h shots with
        | .error e => (.error e, (s.1, b))
        | .ok t => (.ok t, ({ s.1 with results := some t }, b)) := by
  have hexecute := outcome_execute backend shots s
  unfold getResults
  rcases hexec : (backend.execute s.1.program shots).outcome s.2 with ⟨e | h, b⟩
  all_goals rw [hexec] at hexecute
  · rw [Attempt.outcome_bind_of_error hexecute]
  rw [Attempt.outcome_bind_of_ok hexecute, Attempt.outcome_bind_of_ok (Attempt.outcome_get _)]
  rcases hread : s.1.read h shots with e | t
  all_goals simp only [hread]
  · rw [Attempt.outcome_bind_of_error (Attempt.outcome_check _ _)]
  · rw [Attempt.outcome_bind_of_ok (Attempt.outcome_check _ _),
      Attempt.outcome_bind_of_ok (Attempt.outcome_modify _ _), Attempt.outcome_pure]

theorem getResults_cases (backend : Backend R σ) (shots : ℕ) (s : Walk R × σ) :
    ((getResults backend shots).outcome s).2.1 = s.1 ∨
      ∃ h t b, (backend.execute s.1.program shots).outcome s.2 = (.ok h, b) ∧
        s.1.read h shots = .ok t ∧
        ((getResults backend shots).outcome s).2 = ({ s.1 with results := some t }, b) := by
  rw [outcome_getResults]
  rcases (backend.execute s.1.program shots).outcome s.2 with ⟨e | h, b⟩
  · exact .inl rfl
  rcases hread : s.1.read h shots with e | t
  · exact .inl (by simp only [hread])
  · exact .inr ⟨h, t, b, rfl, hread, by simp only [hread]⟩

theorem outcome_current_snd (backend : Backend R σ) (shots : ℕ) (force : Bool) (s : Walk R × σ) :
    ((current backend shots force).outcome s).2 =
      if s.1.results.isSome ∧ force = false then s
      else ((getResults backend shots).outcome s).2 := by
  unfold current
  rw [Attempt.outcome_bind_of_ok (Attempt.outcome_get s)]
  cases hresults : s.1.results <;> cases force <;> rfl

theorem perform_statistics (s : Walk R × σ) (shots : ℕ) (force : Bool) :
    perform backend s (.statistics shots force) = if s.1.results.isSome ∧ force = false then s
      else ((getResults backend shots).outcome s).2 :=
  (Attempt.outcome_bind_pure_snd _ _ s).trans (outcome_current_snd backend shots force s)

theorem perform_covariance (s : Walk R × σ) (shots : ℕ) (force : Bool) :
    perform backend s (.covariance shots force) = if s.1.results.isSome ∧ force = false then s
      else ((getResults backend shots).outcome s).2 :=
  (Attempt.outcome_bind_pure_snd _ _ s).trans (perform_statistics s shots force)

theorem outcome_runExperiment (backend : Backend R σ) (steps shots : ℕ) (s : Walk R × σ) :
    (runExperiment backend steps shots).outcome s = match (restart steps).outcome s.1 with
      | (.ok _, w) => (getResults backend shots).outcome (w, s.2)
      | (.error e, w) => (.error e, (w, s.2)) := by
  unfold runExperiment restart
  rcases hreset : resetCircuit.outcome s.1 with ⟨e | _, w⟩
  all_goals
    have hfirst := Attempt.outcome_first resetCircuit s
    rw [hreset] at hfirst
  · rw [Attempt.outcome_bind_of_error hfirst, Attempt.outcome_bind_of_error hreset]
  rw [Attempt.outcome_bind_of_ok hfirst, Attempt.outcome_bind_of_ok hreset]
  rcases hsteps : (addSteps steps).outcome w with ⟨e | _, w'⟩
  all_goals
    have hsecond := Attempt.outcome_first (addSteps steps) (w, s.2)
    rw [hsteps] at hsecond
  · rw [Attempt.outcome_bind_of_error hsecond]
  · rw [Attempt.outcome_bind_of_ok hsecond]

/-- What is executed for results is the program as it is, or one begun anew. -/
theorem asks_cases {call : Call} {w w' : Walk R} {shots : ℕ}
    (h : call.asks w = some (w', shots)) : w' = w ∨ (ofPlan w.plan).Extended w' := by
  cases call with
  | getResults shots =>
    cases h
    exact .inl rfl
  | runExperiment steps shots =>
    have hbegun := extended_restart steps w
    rcases hrun : (restart steps).outcome w with ⟨e | _, w1⟩
    all_goals
      rw [hrun] at hbegun
      simp only [Call.asks, hrun] at h
      cases h
    exact .inr hbegun
  | statistics shots force | covariance shots force =>
    simp only [Call.asks] at h
    split_ifs at h
    cases h
    exact .inl rfl
  | _ => cases h

theorem perform_of_asks {s : Walk R × σ} {call : Call} {w : Walk R} {shots : ℕ}
    (h : call.asks s.1 = some (w, shots)) :
    perform backend s call = ((getResults backend shots).outcome (w, s.2)).2 := by
  cases call with
  | getResults shots =>
    cases h
    rfl
  | runExperiment steps shots =>
    rw [perform, outcome_runExperiment]
    rcases hrun : (restart steps).outcome s.1 with ⟨e | _, w1⟩
    all_goals
      simp only [Call.asks, hrun] at h
      cases h
    rfl
  | statistics shots force | covariance shots force =>
    simp only [Call.asks] at h
    split_ifs at h with hkept
    cases h
    simp only [perform_statistics, perform_covariance, if_neg hkept]
  | _ => cases h

/-- A call that asks for no execution extends the program or begins it anew. -/
theorem continued_of_not_asks {s : Walk R × σ} {call : Call} (h : call.asks s.1 = none) :
    s.1.Continued (perform backend s call).1 := by
  cases call with
  | step => exact .inl (extended_step s.1)
  | addSteps n => exact .inl (extended_addSteps n s.1)
  | addCoins => exact .inl (extended_addCoins s.1)
  | applyBoundary index plane => exact .inl (extended_applyBoundary index plane s.1)
  | applyBoundaries => exact .inl (extended_applyBoundaries s.1)
  | addShift direction d => exact .inl (extended_addShift direction d s.1)
  | wrapShift direction pattern d => exact .inl (extended_wrapShift direction pattern d s.1)
  | addShifts => exact .inl (extended_addShifts s.1)
  | resetBoundaries => exact .inl (extended_resetBoundaries s.1)
  | resetCircuit => exact .inr (extended_resetCircuit s.1)
  | execute shots =>
    rw [perform, outcome_execute]
    exact .refl s.1
  | getResults shots => cases h
  | runExperiment steps shots =>
    have hbegun := extended_restart steps s.1
    rw [perform, outcome_runExperiment]
    rcases hrun : (restart steps).outcome s.1 with ⟨e | _, w⟩
    all_goals
      rw [hrun] at hbegun
      simp only [Call.asks, hrun] at h
    · exact .inr hbegun
    · cases h
  | statistics shots force | covariance shots force =>
    simp only [Call.asks] at h
    split_ifs at h with hkept
    simp only [perform_statistics, perform_covariance, if_pos hkept]
    exact .refl s.1

/-- **The course of a call**, whether it succeeds or not: the program is extended or begun anew, or
results are measured. -/
theorem perform_cases (backend : Backend R σ) (s : Walk R × σ) (call : Call) :
    s.1.Continued (perform backend s call).1 ∨ ∃ t, Measures backend s call t := by
  rcases hasks : call.asks s.1 with _ | ⟨w, shots⟩
  · exact .inl (continued_of_not_asks hasks)
  have hperform : perform backend s call = _ := perform_of_asks hasks
  rcases getResults_cases backend shots (w, s.2) with hsame | ⟨h, t, b, hexec, hread, heq⟩
  · rw [hperform, hsame]
    rcases asks_cases hasks with rfl | hbegun
    · exact .inl (.refl _)
    · exact .inl (.inr hbegun)
  · exact .inr ⟨t, w, shots, h, b, hasks, hexec, hread, hperform.trans heq⟩

/-! ### What all calls keep -/

/-- A walk of a plan whose program consists of what the plan emits, on the wires of its layout. -/
structure Compiled (plan : Plan R) (w : Walk R) : Prop where
  plan_eq : w.plan = plan
  layout : w.program.layout = plan.layout
  emitted : ∀ op ∈ w.program.operations, plan.Emits op ∧ ∀ q ∈ op.wires, q < plan.layout.width

namespace Compiled

variable {plan : Plan R} {w w' : Walk R}

theorem ofPlan (plan : Plan R) : (Walk.ofPlan plan).Compiled plan := ⟨rfl, rfl, nofun⟩

theorem extended (h : w.Compiled plan) (he : w.Extended w') : w'.Compiled plan := by
  refine ⟨he.plan.trans h.plan_eq, he.program.layout.trans h.layout, fun op hop => ?_⟩
  obtain ⟨ops, hops, hadded⟩ := he.program.operations
  rw [hops, List.mem_append] at hop
  rcases hop with hop | hop
  · exact h.emitted op hop
  · have hwidth : w.program.width = plan.layout.width := by rw [Circuit.width, h.layout]
    exact hwidth ▸ h.plan_eq ▸ hadded op hop

theorem continued (h : w.Compiled plan) (he : w.Continued w') : w'.Compiled plan := by
  rcases he with he | he
  · exact h.extended he
  · rw [h.plan_eq] at he
    exact (ofPlan plan).extended he

theorem perform {s : Walk R × σ} (h : s.1.Compiled plan) (call : Call) :
    (Walk.perform backend s call).1.Compiled plan := by
  rcases perform_cases backend s call with he | ⟨t, w, shots, -, b, hasks, -, -, heq⟩
  · exact h.continued he
  · have hw : w.Compiled plan := by
      rcases asks_cases hasks with rfl | hbegun
      · exact h
      · exact h.continued (.inr hbegun)
    rw [heq]
    exact ⟨hw.plan_eq, hw.layout, hw.emitted⟩

theorem run (h : w.Compiled plan) (b : σ) (calls : List Call) :
    (Walk.run backend (w, b) calls).1.Compiled plan := by
  induction calls using List.reverseRecOn with
  | nil => exact h
  | append_singleton calls call ih =>
    rw [run_concat]
    exact ih.perform call

theorem ready (h : w.Compiled plan) {spec : WalkSpec R} (hplan : plan.Sound spec) :
    w.Ready spec := ⟨h.plan_eq.symm ▸ hplan, by rw [h.layout, h.plan_eq]⟩

end Compiled

theorem compiled_of_build {spec : WalkSpec R} {w : Walk R} (h : build spec = .ok w) :
    w.Compiled w.plan := by
  obtain ⟨plan, -, h⟩ := Except.bind_eq_ok.mp h
  have hprepared := (Compiled.ofPlan plan).extended (extended_prepare (ofPlan plan))
  rcases hprep : prepare.outcome (ofPlan plan) with ⟨e | _, w'⟩
  · rw [hprep] at h
    cases h
  · rw [hprep] at h hprepared
    obtain rfl := Except.ok.inj h
    exact hprepared.plan_eq ▸ hprepared

/-- **The walks that calls lead to** have the plan they were built with, and programs that consist
of what it emits. -/
theorem compiled_run {spec : WalkSpec R} {w : Walk R} (h : build spec = .ok w)
    (backend : Backend R σ) (b : σ) (calls : List Call) :
    (run backend (w, b) calls).1.Compiled w.plan := (compiled_of_build h).run b calls

theorem ready_run {spec : WalkSpec R} {w : Walk R} (h : build spec = .ok w)
    (backend : Backend R σ) (b : σ) (calls : List Call) :
    (run backend (w, b) calls).1.Ready spec :=
  (compiled_run h backend b calls).ready (build_eq_ok h).1.plan

end Walk

end LatticeWalk
