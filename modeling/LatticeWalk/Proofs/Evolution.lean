import LatticeWalk.Proofs.Program
import LatticeWalk.Proofs.Support

/-! # Evolution under resets

Operations with resets act on waves by one linear map for every choice of outcomes.

* `Wave.collapse`: a wire found as an outcome says, and set to zero; the wave is not normalised.
* `Operation.evolve`: operations in order; each reset of a wire takes the next outcome of a stream.
* `Simulation.run_shows`, `Simulation.run_evolves`: a simulation that succeeds arrives, up to a factor,
  where the operations lead under some outcomes. -/

namespace LatticeWalk

open Function (update)

variable {R : Type} [Scalar R]

namespace Wave

/-- The wave after a wire was measured and set to zero. -/
def collapse (wire : ℕ) (one : Bool) (ψ : Wave R) : Wave R := fun b =>
  if b wire then 0 else ψ (update b wire one)

/-- Wires measured and set to zero in order, with the outcomes of a stream. -/
def collapseAll : List ℕ → (ℕ → Bool) → Wave R → Wave R
  | [], _, ψ => ψ
  | q :: qs, outcomes, ψ =>
    collapseAll qs (fun k => outcomes (k + 1)) (ψ.collapse q (outcomes 0))

theorem collapseAll_append : ∀ (qs us : List ℕ) (outcomes : ℕ → Bool) (ψ : Wave R),
    collapseAll (qs ++ us) outcomes ψ =
      collapseAll us (fun k => outcomes (k + qs.length)) (collapseAll qs outcomes ψ)
  | [], _, _, _ => rfl
  | q :: qs, us, outcomes, ψ => by
    rw [List.cons_append, collapseAll, collapseAll_append qs us, collapseAll]
    simp only [List.length_cons, Nat.add_assoc]

/-- Only the first outcomes count. -/
theorem collapseAll_congr : ∀ {qs : List ℕ} {outcomes outcomes' : ℕ → Bool},
    (∀ k < qs.length, outcomes k = outcomes' k) →
    ∀ ψ : Wave R, collapseAll qs outcomes ψ = collapseAll qs outcomes' ψ
  | [], _, _, _, _ => rfl
  | q :: qs, outcomes, outcomes', h, ψ => by
    rw [collapseAll, collapseAll, h 0 (by simp)]
    exact collapseAll_congr (fun k hk => h (k + 1) (by simpa using hk)) _

end Wave

namespace Operation

/-- The wires that an operation resets. -/
def targets : Operation R → List ℕ
  | .reset targets => targets
  | _ => []

/-- The wires that operations reset, in order. -/
def targetsOf (ops : List (Operation R)) : List ℕ := ops.flatMap targets

omit [Scalar R] in
@[simp] theorem targetsOf_nil : targetsOf ([] : List (Operation R)) = [] := rfl

omit [Scalar R] in
@[simp] theorem targetsOf_cons (op : Operation R) (ops : List (Operation R)) :
    targetsOf (op :: ops) = op.targets ++ targetsOf ops := rfl

/-- **What operations make of a wave** when the resets have the given outcomes. -/
def evolve : List (Operation R) → (ℕ → Bool) → Wave R → Wave R
  | [], _, ψ => ψ
  | op :: ops, outcomes, ψ =>
    evolve ops (fun k => outcomes (k + op.targets.length))
      (Wave.collapseAll op.targets outcomes (Gate.actAll op.gates ψ))

omit [Scalar R] in
theorem targets_eq_nil {op : Operation R} (h : op.isReset = false) : op.targets = [] := by
  cases op with
  | reset targets => cases h
  | _ => rfl

omit [Scalar R] in
theorem targetsOf_eq_nil {ops : List (Operation R)} (h : ∀ op ∈ ops, op.isReset = false) :
    targetsOf ops = [] :=
  List.flatMap_eq_nil_iff.mpr fun op hop => targets_eq_nil (h op hop)

theorem evolve_append : ∀ (ops ops' : List (Operation R)) (outcomes : ℕ → Bool) (ψ : Wave R),
    evolve (ops ++ ops') outcomes ψ =
      evolve ops' (fun k => outcomes (k + (targetsOf ops).length)) (evolve ops outcomes ψ)
  | [], _, _, _ => rfl
  | op :: ops, ops', outcomes, ψ => by
    rw [List.cons_append, evolve, evolve_append ops ops', evolve]
    simp only [targetsOf_cons, List.length_append, Nat.add_comm op.targets.length, ← Nat.add_assoc]

theorem evolve_of_gates : ∀ {ops : List (Operation R)}, (∀ op ∈ ops, op.isReset = false) →
    ∀ (outcomes : ℕ → Bool) (ψ : Wave R), evolve ops outcomes ψ = Gate.actAll (gatesOf ops) ψ
  | [], _, _, _ => rfl
  | op :: ops, h, outcomes, ψ => by
    rw [evolve, targets_eq_nil (h op (by simp)), gatesOf_cons, Gate.actAll_append]
    exact evolve_of_gates (fun op' hop' => h op' (by simp [hop'])) _ _

theorem evolve_of_resets : ∀ {ops : List (Operation R)}, (∀ op ∈ ops, op.gates = []) →
    ∀ (outcomes : ℕ → Bool) (ψ : Wave R),
    evolve ops outcomes ψ = Wave.collapseAll (targetsOf ops) outcomes ψ
  | [], _, _, _ => rfl
  | op :: ops, h, outcomes, ψ => by
    rw [evolve, h op (by simp), evolve_of_resets fun op' hop' => h op' (by simp [hop']),
      targetsOf_cons, Wave.collapseAll_append]
    rfl

end Operation

/-! ### Support -/

/-- **What resets leave**: the wires are at zero, and the rest is as it was. -/
theorem Wave.exists_of_collapseAll_ne_zero : ∀ {qs : List ℕ} {outcomes : ℕ → Bool} {ψ : Wave ℝ}
    {b : ℕ → Bool}, collapseAll qs outcomes ψ b ≠ 0 →
    (∀ q ∈ qs, b q = false) ∧ ∃ c, AgreeOff qs b c ∧ ψ c ≠ 0
  | [], _, _, b, hb => ⟨by simp, b, fun _ _ => rfl, hb⟩
  | q :: qs, outcomes, ψ, b, hb => by
    rw [collapseAll] at hb
    obtain ⟨hzero, c, hbc, hc⟩ := exists_of_collapseAll_ne_zero hb
    unfold collapse at hc
    split_ifs at hc with hq
    · exact absurd rfl hc
    · refine ⟨fun u hu => ?_, update c q (outcomes 0), fun u hu => ?_, hc⟩
      · rcases List.mem_cons.mp hu with rfl | hu
        · by_cases hmem : u ∈ qs
          · exact hzero u hmem
          · rw [← hbc u hmem]
            simpa using hq
        · exact hzero u hu
      · rw [List.mem_cons, not_or] at hu
        rw [Function.update_of_ne hu.1, hbc u hu.2]

/-! ### Linearity -/

theorem Gate.act_linear (g : Gate ℝ) (x y : Amplitude ℝ) (ψ φ : Wave ℝ) :
    g.act (x • ψ + y • φ) = x • g.act ψ + y • g.act φ := by
  funext b
  simp only [act, Pi.add_apply, Pi.smul_apply, smul_eq_mul]
  split_ifs
  · ring
  · ring
  · rfl

theorem Gate.actAll_linear (x y : Amplitude ℝ) : ∀ (gs : List (Gate ℝ)) (ψ φ : Wave ℝ),
    actAll gs (x • ψ + y • φ) = x • actAll gs ψ + y • actAll gs φ
  | [], _, _ => rfl
  | g :: gs, ψ, φ => by
    rw [actAll_cons, act_linear, actAll_linear x y gs]
    rfl

theorem Wave.collapse_linear (q : ℕ) (one : Bool) (x y : Amplitude ℝ) (ψ φ : Wave ℝ) :
    (x • ψ + y • φ).collapse q one = x • ψ.collapse q one + y • φ.collapse q one := by
  funext b
  simp only [collapse, Pi.add_apply, Pi.smul_apply, smul_eq_mul]
  split_ifs
  · ring
  · rfl

theorem Wave.collapseAll_linear (x y : Amplitude ℝ) : ∀ (qs : List ℕ) (outcomes : ℕ → Bool)
    (ψ φ : Wave ℝ), collapseAll qs outcomes (x • ψ + y • φ) =
      x • collapseAll qs outcomes ψ + y • collapseAll qs outcomes φ
  | [], _, _, _ => rfl
  | q :: qs, outcomes, ψ, φ => by
    rw [collapseAll, collapse_linear, collapseAll_linear x y qs]
    rfl

/-- **Operations act linearly** under the same outcomes, so what becomes of a wave is the sum of
what becomes of its parts. -/
theorem Operation.evolve_linear (x y : Amplitude ℝ) : ∀ (ops : List (Operation ℝ))
    (outcomes : ℕ → Bool) (ψ φ : Wave ℝ), evolve ops outcomes (x • ψ + y • φ) =
      x • evolve ops outcomes ψ + y • evolve ops outcomes φ
  | [], _, _, _ => rfl
  | op :: ops, outcomes, ψ, φ => by
    rw [evolve, Gate.actAll_linear, Wave.collapseAll_linear, evolve_linear x y ops]
    rfl

theorem Gate.actAll_smul (x : Amplitude ℝ) (gs : List (Gate ℝ)) (ψ : Wave ℝ) :
    actAll gs (x • ψ) = x • actAll gs ψ := by
  have h := actAll_linear x 0 gs ψ ψ
  rwa [zero_smul, add_zero, zero_smul, add_zero] at h

theorem Wave.collapse_smul (q : ℕ) (one : Bool) (x : Amplitude ℝ) (ψ : Wave ℝ) :
    (x • ψ).collapse q one = x • ψ.collapse q one := by
  have h := collapse_linear q one x 0 ψ ψ
  rwa [zero_smul, add_zero, zero_smul, add_zero] at h

theorem Amplitude.ofReal_smul_smul (s t : ℝ) (ψ : Wave ℝ) :
    ofReal s • ofReal t • ψ = ofReal (s * t) • ψ := by
  have hmul : ofReal s * ofReal t = ofReal (s * t) := by ext <;> simp [ofReal]
  rw [smul_smul, hmul]

/-! ### Simulations -/

theorem Amplitude.ofReal_mul_ne_zero {s : ℝ} (hs : s ≠ 0) {a : Amplitude ℝ} :
    ofReal s * a ≠ 0 ↔ a ≠ 0 := by
  refine not_congr ⟨fun h => ?_, fun h => by rw [h, mul_zero]⟩
  have hre := congrArg re h
  have him := congrArg im h
  ext
  · simpa [ofReal, hs] using hre
  · simpa [ofReal, hs] using him

/-- A state vector has amplitude where the wave has that it shows up to a factor. -/
theorem StateVector.Shows.amplitude_ne_zero {v : StateVector ℝ} {ψ : Wave ℝ} {a : ℝ}
    (hv : v.Shows (Amplitude.ofReal a • ψ)) (ha : a ≠ 0) {i : ℕ} (hi : i < 2 ^ v.wires) :
    v.amplitude i ≠ 0 ↔ ψ i.testBit ≠ 0 := by
  rw [hv.amplitude i hi]
  exact Amplitude.ofReal_mul_ne_zero ha

theorem StateVector.Shows.collapse {v : StateVector ℝ} {ψ : Wave ℝ} (hv : v.Shows ψ) {q : ℕ}
    (hq : q < v.wires) (one : Bool) (kept : ℝ) :
    (v.collapse q one kept).Shows
      (Amplitude.ofReal (Scalar.sqrt kept)⁻¹ • ψ.collapse q one) := by
  have hinv : (1 : ℝ) / Scalar.sqrt kept = (Scalar.sqrt kept)⁻¹ := one_div _
  refine ⟨by simp [StateVector.collapse, hv.size], fun i hi => ?_⟩
  have hi' : i < 2 ^ v.wires := hi
  have hbit : Nat.pow 2 q < 2 ^ v.wires := Nat.pow_lt_pow_right (by norm_num) hq
  rw [StateVector.collapse, amplitude_mapIdx (by rw [hv.size]; exact hi')]
  simp only [Pi.smul_apply, smul_eq_mul, Wave.collapse]
  by_cases ht : i.testBit q = true
  · rw [if_pos ht, if_pos ht, mul_zero]
  · rw [if_neg ht, if_neg ht, hinv, Amplitude.scale_eq]
    cases one with
    | false =>
      rw [Bool.not_eq_true] at ht
      rw [← ht, Function.update_eq_self, ht, if_neg Bool.false_ne_true, hv.amplitude i hi']
    | true =>
      rw [if_pos rfl, hv.amplitude _ (Nat.or_lt_two_pow hi' hbit), Nat.pow_eq, testBit_or_two_pow]

namespace Simulation

/-- **The measurement of a wire that exists** finds one of its values, and fails if this has next to
no probability. -/
theorem outcome_resetWire {s : Simulation R} {q : ℕ} (hq : q < s.vector.wires) :
    ∃ (one : Bool) (kept : R) (draws : Draws R),
      kept = (if one then s.vector.oneProbability q else 1 - s.vector.oneProbability q) ∧
      (resetWire q).outcome s =
        if kept ≤ negligible then (mistrust (.emptyBranch q), { s with draws := draws })
        else (.ok (), ⟨s.vector.collapse q one kept, draws⟩) := by
  have hcheck : s.vector.checkWire q = .ok () := if_pos hq
  simp only [resetWire, Attempt.outcome_of, hcheck]
  -- what was measured, and the draws that are left
  generalize (if negligible < s.vector.oneProbability q then
    (decide (s.draws.next.1 < s.vector.oneProbability q), s.draws.next.2)
    else (false, s.draws)) = measured
  exact ⟨measured.1, _, measured.2, rfl, rfl⟩

theorem outcome_resetWire_of_le {s : Simulation R} {q : ℕ} (hq : s.vector.wires ≤ q) :
    (resetWire q).outcome s = (mistrust (.unknownWire q s.vector.wires), s) := by
  have hcheck : s.vector.checkWire q = mistrust (.unknownWire q s.vector.wires) :=
    if_neg (Nat.not_lt.mpr hq)
  simp only [resetWire, Attempt.outcome_of, hcheck]
  rfl

theorem negligible_pos : (0 : ℝ) < negligible := by
  unfold negligible
  norm_num

theorem negligible_add_self_lt_one : (negligible : ℝ) + negligible < 1 := by
  unfold negligible
  norm_num

theorem negligible_lt_one : (negligible : ℝ) < 1 := by
  linarith [negligible_pos, negligible_add_self_lt_one]

/-- **A measurement in exact arithmetic.** If one has next to no probability, zero is found and no
number is drawn. Otherwise one is found if the number drawn lies below its probability, and zero if
not, which fails if it is zero that has next to no probability. -/
theorem outcome_resetWire_real {s : Simulation ℝ} {q : ℕ} (hq : q < s.vector.wires) :
    (resetWire q).outcome s =
      let p := s.vector.oneProbability q
      if p ≤ negligible then (.ok (), ⟨s.vector.collapse q false (1 - p), s.draws⟩)
      else if s.draws.next.1 < p then (.ok (), ⟨s.vector.collapse q true p, s.draws.next.2⟩)
      else if 1 - p ≤ negligible then
        (mistrust (.emptyBranch q), { s with draws := s.draws.next.2 })
      else (.ok (), ⟨s.vector.collapse q false (1 - p), s.draws.next.2⟩) := by
  have hcheck : s.vector.checkWire q = .ok () := if_pos hq
  simp only [resetWire, Attempt.outcome_of, hcheck]
  by_cases hp : s.vector.oneProbability q ≤ negligible
  · -- what is kept is then more than a half
    have hkept : ¬ 1 - s.vector.oneProbability q ≤ negligible := by
      linarith [negligible_add_self_lt_one]
    simp only [if_pos hp, if_neg (not_lt.mpr hp), Bool.false_eq_true, if_false, if_neg hkept]
  · by_cases hdraw : s.draws.next.1 < s.vector.oneProbability q
    · simp only [if_neg hp, if_pos (not_le.mp hp), hdraw, decide_true, if_true]
    · simp only [if_neg hp, if_pos (not_le.mp hp), hdraw, decide_false, Bool.false_eq_true,
        if_false]

theorem resetWire_eq_ok {s s' : Simulation ℝ} {q : ℕ} {u : Unit}
    (h : (resetWire q).outcome s = (.ok u, s')) :
    q < s.vector.wires ∧ ∃ one kept, 0 < kept ∧ s'.vector = s.vector.collapse q one kept := by
  by_cases hq : q < s.vector.wires
  · obtain ⟨one, kept, draws, -, hrun⟩ := outcome_resetWire hq
    rw [hrun] at h
    split_ifs at h with hkept
    · cases h
    · cases h
      exact ⟨hq, one, kept, negligible_pos.trans (not_le.mp hkept), rfl⟩
  · rw [outcome_resetWire_of_le (not_lt.mp hq)] at h
    cases h

/-- The first `n` outcomes of a stream, and then those of another. -/
def thenOutcomes (n : ℕ) (first rest : ℕ → Bool) : ℕ → Bool := fun k =>
  if k < n then first k else rest (k - n)

theorem thenOutcomes_of_lt {n k : ℕ} (h : k < n) (first rest : ℕ → Bool) :
    thenOutcomes n first rest k = first k := if_pos h

theorem thenOutcomes_add (n : ℕ) (first rest : ℕ → Bool) :
    (fun k => thenOutcomes n first rest (k + n)) = rest := by
  funext k
  simp [thenOutcomes]

/-- **Resets collapse the wave** under some outcomes, up to a factor. -/
theorem resetWires_collapse : ∀ {qs : List ℕ} {s s' : Simulation ℝ} {ψ : Wave ℝ} {a : ℝ},
    s.vector.Shows (Amplitude.ofReal a • ψ) → a ≠ 0 →
    (resetWires qs).outcome s = (.ok (), s') → ∃ outcomes a', a' ≠ 0 ∧
      s'.vector.wires = s.vector.wires ∧
      s'.vector.Shows (Amplitude.ofReal a' • Wave.collapseAll qs outcomes ψ)
  | [], _, _, _, a, hv, ha, h => by
    cases h
    exact ⟨fun _ => false, a, ha, rfl, hv⟩
  | q :: qs, s, s', ψ, a, hv, ha, h => by
    rw [resetWires, Attempt.outcome_bind] at h
    rcases hfirst : (resetWire q).outcome s with ⟨_ | u, s1⟩
    · rw [hfirst] at h
      cases h
    · rw [hfirst] at h
      obtain ⟨hq, one, kept, hkept, hs1⟩ := resetWire_eq_ok hfirst
      have hfactor : (Scalar.sqrt kept)⁻¹ * a ≠ 0 :=
        mul_ne_zero (inv_ne_zero (Real.sqrt_ne_zero'.mpr hkept)) ha
      have hshows := hv.collapse hq one kept
      rw [← hs1, Wave.collapse_smul, Amplitude.ofReal_smul_smul] at hshows
      obtain ⟨outcomes, a', ha', hwires, hshows⟩ := resetWires_collapse hshows hfactor h
      refine ⟨thenOutcomes 1 (fun _ => one) outcomes, a', ha', ?_, ?_⟩
      · rw [hwires, hs1]
        rfl
      · rwa [Wave.collapseAll, thenOutcomes_add, thenOutcomes_of_lt one_pos]

theorem apply_evolves {op : Operation ℝ} {s s' : Simulation ℝ} {ψ : Wave ℝ} {a : ℝ} {u : Unit}
    (hv : s.vector.Shows (Amplitude.ofReal a • ψ)) (ha : a ≠ 0) (hw : op.Within s.vector.wires)
    (h : (apply op).outcome s = (.ok u, s')) : ∃ outcomes a', a' ≠ 0 ∧
      s'.vector.wires = s.vector.wires ∧ s'.vector.Shows
        (Amplitude.ofReal a' • Wave.collapseAll op.targets outcomes (Gate.actAll op.gates ψ)) := by
  cases hop : op.isReset with
  | true =>
    cases op with
    | reset targets => exact resetWires_collapse hv ha h
    | _ => cases hop
  | false =>
    have hone : ∀ op' ∈ [op], op'.Within s.vector.wires := by simpa using hw
    obtain ⟨v, hrun, hwires, hshows⟩ := run_gates hv hone (by simpa using hop) s.draws
    rw [run, Attempt.outcome_bind, h] at hrun
    cases hrun
    refine ⟨fun _ => false, a, ha, hwires, ?_⟩
    rw [Operation.targets_eq_nil hop]
    rwa [Gate.actAll_smul, Operation.gatesOf_cons, Operation.gatesOf_nil, List.append_nil] at hshows

/-- **A simulation that succeeds** arrives where the operations lead under some outcomes, on the
same wires. -/
theorem run_shows : ∀ {ops : List (Operation ℝ)} {s s' : Simulation ℝ} {ψ : Wave ℝ} {a : ℝ},
    s.vector.Shows (Amplitude.ofReal a • ψ) → a ≠ 0 → (∀ op ∈ ops, op.Within s.vector.wires) →
    (run ops).outcome s = (.ok (), s') → ∃ outcomes a', a' ≠ 0 ∧
      s'.vector.wires = s.vector.wires ∧
      s'.vector.Shows (Amplitude.ofReal a' • Operation.evolve ops outcomes ψ)
  | [], _, _, _, a, hv, ha, _, h => by
    cases h
    exact ⟨fun _ => false, a, ha, rfl, hv⟩
  | op :: ops, s, s', ψ, a, hv, ha, hw, h => by
    rw [run, Attempt.outcome_bind] at h
    rcases hfirst : (apply op).outcome s with ⟨_ | u, s1⟩
    · rw [hfirst] at h
      cases h
    · rw [hfirst] at h
      obtain ⟨first, a1, ha1, hwires, hshows⟩ := apply_evolves hv ha (hw op (by simp)) hfirst
      obtain ⟨rest, a', ha', hwires', hshows⟩ := run_shows hshows ha1
        (fun op' (hop' : op' ∈ ops) => hwires ▸ hw op' (by simp [hop'])) h
      refine ⟨thenOutcomes op.targets.length first rest, a', ha', hwires'.trans hwires, ?_⟩
      rwa [Operation.evolve, thenOutcomes_add,
        Wave.collapseAll_congr fun k hk => thenOutcomes_of_lt hk first rest]

theorem run_evolves {ops : List (Operation ℝ)} {s s' : Simulation ℝ} {ψ : Wave ℝ} {a : ℝ}
    (hv : s.vector.Shows (Amplitude.ofReal a • ψ)) (ha : a ≠ 0)
    (hw : ∀ op ∈ ops, op.Within s.vector.wires) (h : (run ops).outcome s = (.ok (), s')) :
    ∃ outcomes a', a' ≠ 0 ∧
      s'.vector.Shows (Amplitude.ofReal a' • Operation.evolve ops outcomes ψ) := by
  obtain ⟨outcomes, a', ha', -, hshows⟩ := run_shows hv ha hw h
  exact ⟨outcomes, a', ha', hshows⟩

end Simulation

end LatticeWalk
