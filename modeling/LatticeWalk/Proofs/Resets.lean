import LatticeWalk.Proofs.Norm

/-! # When a reset fails

A reset draws a number only if one is a possible value of its wire, so that one is never found
against all odds. Zero can be: nothing asks whether zero is a possible value before the number is
drawn, and if it is not, but is found, the reset fails.

* `Simulation.Strands`: zero has next to no probability and is found.
* `Simulation.resetWire_of_normalised`: a reset of a state of norm one fails in this case only, and
  else leaves a state of norm one in which the wire is zero.
* `Simulation.reset_of_normalised_fails`: a state and a number with which it fails. -/

namespace LatticeWalk

namespace Simulation

/-! ### Which resets fail -/

/-- **Zero is found against all odds**: it has next to no probability, and the number drawn does not
lie below the probability of one. -/
def Strands (s : Simulation ℝ) (q : ℕ) : Prop :=
  1 - s.vector.oneProbability q ≤ negligible ∧ s.vector.oneProbability q ≤ s.draws.next.1

variable {s : Simulation ℝ} {q : ℕ}

theorem outcome_resetWire_of_strands (hq : q < s.vector.wires) (h : s.Strands q) :
    (resetWire q).outcome s =
      (mistrust (.emptyBranch q), { s with draws := s.draws.next.2 }) := by
  have hone : ¬ s.vector.oneProbability q ≤ negligible := by
    linarith [h.1, negligible_add_self_lt_one]
  simp only [outcome_resetWire_real hq, if_neg hone, if_neg (not_lt.mpr h.2), if_pos h.1]

/-- A reset that does not strand keeps one of the values of the wire. A number is drawn if one is a
possible value. -/
theorem outcome_resetWire_of_not_strands (hq : q < s.vector.wires) (h : ¬ s.Strands q) :
    ∃ one kept, (resetWire q).outcome s = (.ok (), ⟨s.vector.collapse q one kept,
      if negligible < s.vector.oneProbability q then s.draws.next.2 else s.draws⟩) := by
  rw [Strands, not_and_or, not_le, not_le] at h
  simp only [outcome_resetWire_real hq]
  by_cases hone : s.vector.oneProbability q ≤ negligible
  · rw [if_pos hone, if_neg (not_lt.mpr hone)]
    exact ⟨_, _, rfl⟩
  · rw [if_neg hone, if_pos (not_le.mp hone)]
    by_cases hdraw : s.draws.next.1 < s.vector.oneProbability q
    · rw [if_pos hdraw]
      exact ⟨_, _, rfl⟩
    · rw [if_neg hdraw, if_neg (not_le.mpr (h.resolve_right hdraw))]
      exact ⟨_, _, rfl⟩

/-- **Resets of a normalised state.** On any wire of a state of norm one, and with any number from
zero up to one,

* the reset fails if zero has next to no probability and the number does not lie below that of one,
  which needs a number next to one; the state is as it was, and the number is taken;
* otherwise the reset succeeds, and leaves a state of norm one on the same wires in which no basis
  state has an amplitude where the wire is one. -/
theorem resetWire_of_normalised (hsize : s.vector.amplitudes.size = 2 ^ s.vector.wires)
    (hnorm : s.vector.norm = 1) (hq : q < s.vector.wires) (hdraw : s.draws.next.1 ∈ Set.Ico 0 1) :
    (s.Strands q → (resetWire q).outcome s =
        (mistrust (.emptyBranch q), { s with draws := s.draws.next.2 }) ∧
      s.vector.oneProbability q < 1 ∧ 1 - negligible ≤ s.draws.next.1) ∧
    (¬ s.Strands q → ∃ s', (resetWire q).outcome s = (.ok (), s') ∧ s'.vector.norm = 1 ∧
      s'.vector.wires = s.vector.wires ∧ s'.vector.Cleared q ∧ s'.draws =
        if negligible < s.vector.oneProbability q then s.draws.next.2 else s.draws) := by
  constructor
  · intro h
    have hbelow : s.vector.oneProbability q < 1 := h.2.trans_lt hdraw.2
    exact ⟨outcome_resetWire_of_strands hq h, hbelow, by linarith [h.1, h.2]⟩
  · intro h
    obtain ⟨one, kept, hrun⟩ := outcome_resetWire_of_not_strands hq h
    have hlands : s.vector.Normal s.vector.wires s.vector.wires := ⟨rfl, hsize, hnorm⟩
    have hend := normal_resetWire (q := q) id hlands
    rw [Attempt.Leads, hrun] at hend
    exact ⟨_, hrun, hend.norm, rfl, s.vector.cleared_collapse q one kept, rfl⟩

/-- A wire that comes the closer to one the larger `t` is, and a stream of one number. -/
noncomputable def tilted (t : ℕ) (draw : ℝ) : Simulation ℝ where
  vector := ⟨1, #[⟨((2 * t : ℕ) : ℝ) / ((t ^ 2 + 1 : ℕ) : ℝ), 0⟩,
    ⟨((t ^ 2 - 1 : ℕ) : ℝ) / ((t ^ 2 + 1 : ℕ) : ℝ), 0⟩]⟩
  draws := ⟨fun _ => draw, 0⟩

theorem oneProbability_tilted (t : ℕ) (draw : ℝ) : (tilted t draw).vector.oneProbability 0 =
    (((t ^ 2 - 1 : ℕ) : ℝ) / ((t ^ 2 + 1 : ℕ) : ℝ)) ^ 2 := by
  have hsize : (tilted t draw).vector.amplitudes.size = 2 := rfl
  rw [StateVector.oneProbability_eq, Finset.sum_filter, hsize, Finset.sum_range_succ,
    Finset.sum_range_one]
  simp [tilted, StateVector.amplitude, Amplitude.weight, sq]

theorem norm_tilted {t : ℕ} (ht : 0 < t) (draw : ℝ) : (tilted t draw).vector.norm = 1 := by
  have hsize : (tilted t draw).vector.amplitudes.size = 2 := rfl
  have hzero : (tilted t draw).vector.amplitude 0 =
      ⟨((2 * t : ℕ) : ℝ) / ((t ^ 2 + 1 : ℕ) : ℝ), 0⟩ := rfl
  have hone : (tilted t draw).vector.amplitude 1 =
      ⟨((t ^ 2 - 1 : ℕ) : ℝ) / ((t ^ 2 + 1 : ℕ) : ℝ), 0⟩ := rfl
  have hcast : ((t ^ 2 - 1 : ℕ) : ℝ) = (t : ℝ) ^ 2 - 1 := by
    rw [Nat.cast_sub (Nat.one_le_pow _ _ ht), Nat.cast_pow, Nat.cast_one]
  rw [StateVector.norm_eq, hsize, Finset.sum_range_succ, Finset.sum_range_one, hzero, hone]
  simp only [Amplitude.weight, hcast, Nat.cast_mul, Nat.cast_add, Nat.cast_pow, Nat.cast_one,
    Nat.cast_ofNat]
  field_simp
  ring

/-- One has a probability of nine twenty-fifths. A half does not lie below it, so zero is found, and
the reset succeeds. -/
theorem resetWire_of_normalised_tilted : ∃ s', (resetWire 0).outcome (tilted 2 (1 / 2)) =
    (.ok (), s') ∧ s'.vector.norm = 1 ∧ s'.vector.Cleared 0 := by
  have hstrands : ¬ (tilted 2 (1 / 2)).Strands 0 := by
    rintro ⟨hzero, -⟩
    rw [oneProbability_tilted] at hzero
    unfold negligible at hzero
    norm_num at hzero
  have hdraw : (tilted 2 (1 / 2)).draws.next.1 ∈ Set.Ico 0 1 := by
    show (1 / 2 : ℝ) ∈ Set.Ico 0 1
    norm_num
  obtain ⟨s', hrun, hnorm, -, hclear, -⟩ :=
    (resetWire_of_normalised rfl (norm_tilted two_pos _) one_pos hdraw).2 hstrands
  exact ⟨s', hrun, hnorm, hclear⟩

/-- **A reset of a state of norm one that fails.** Zero has a probability of about four over
`10 ^ 14` and is found, with a number that is closer to one than the probability of one. -/
theorem reset_of_normalised_fails : ∃ s : Simulation ℝ,
    s.vector.amplitudes.size = 2 ^ s.vector.wires ∧ s.vector.norm = 1 ∧ 0 < s.vector.wires ∧
    s.draws.next.1 ∈ Set.Ico 0 1 ∧
    (resetWire 0).outcome s =
      (mistrust (.emptyBranch 0), { s with draws := s.draws.next.2 }) := by
  set draw : ℝ := 1 - 1 / 10 ^ 14
  have hdraw : (tilted (10 ^ 7) draw).draws.next.1 = 1 - 1 / 10 ^ 14 := rfl
  have hstrands : (tilted (10 ^ 7) draw).Strands 0 := by
    rw [Strands, oneProbability_tilted, hdraw]
    unfold negligible
    norm_num
  refine ⟨tilted (10 ^ 7) draw, rfl, norm_tilted (by norm_num) _, one_pos, ?_,
    outcome_resetWire_of_strands one_pos hstrands⟩
  rw [hdraw]
  norm_num

end Simulation

end LatticeWalk
