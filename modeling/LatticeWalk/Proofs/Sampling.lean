import LatticeWalk.Proofs.Compile
import LatticeWalk.Proofs.Keys
import LatticeWalk.Proofs.Merging
import LatticeWalk.Backend.Local

/-! # Sampling

What a simulation measures is possible: an index is drawn only if its weight is positive. From a
basis state nothing but its own index is drawn, so a program that ends in one is measured alike in
every shot.

* `sampleIndex_pos`: an index that is drawn has a positive weight.
* `StateVector.sampleIndex_basis`: what is drawn from a basis state.
* `Local.outcome_addSamples`: samples are observations, each by a number of its own.
* `Local.execute_eq_addSamples`: how a program without resets is measured.
* `Local.outcome_execute_basis`: the histogram of a program without resets that ends in one. -/

namespace LatticeWalk

/-! ### Drawing an index -/

/-- The index that a point falls on has a positive weight, unless all weights ahead are zero and the
last positive one is taken. -/
theorem pickIndex_spec (point : ℝ) : ∀ (ws : List ℝ) (index : ℕ) (sum : ℝ) (last : ℕ),
    (∃ k w, ws[k]? = some w ∧ 0 < w ∧ pickIndex point ws index sum last = index + k) ∨
      (∀ w ∈ ws, w ≤ 0) ∧ pickIndex point ws index sum last = last
  | [], _, _, _ => .inr ⟨nofun, rfl⟩
  | w :: ws, index, sum, last => by
    rw [pickIndex]
    split_ifs with hw hpoint
    · rcases pickIndex_spec point ws (index + 1) sum last with ⟨k, v, hk, hv, h⟩ | ⟨hall, h⟩
      · exact .inl ⟨k + 1, v, by simpa using hk, hv, by rw [h]; omega⟩
      · exact .inr ⟨List.forall_mem_cons.mpr ⟨hw, hall⟩, h⟩
    · exact .inl ⟨0, w, rfl, not_le.mp hw, rfl⟩
    · rcases pickIndex_spec point ws (index + 1) (sum + w) index with ⟨k, v, hk, hv, h⟩ | ⟨-, h⟩
      · exact .inl ⟨k + 1, v, by simpa using hk, hv, by rw [h]; omega⟩
      · exact .inl ⟨0, w, rfl, not_le.mp hw, h⟩

/-- **An index that is drawn has a positive weight**, if any index has. -/
theorem sampleIndex_pos {weights : List ℝ} (h : ∃ w ∈ weights, 0 < w) (draw : ℝ) :
    ∃ w, weights[sampleIndex weights draw]? = some w ∧ 0 < w := by
  rcases pickIndex_spec (draw * Scalar.sum weights) weights 0 0 0 with ⟨k, w, hk, hw, e⟩ | ⟨hall, -⟩
  · refine ⟨w, ?_, hw⟩
    rwa [sampleIndex, e, Nat.zero_add]
  · obtain ⟨w, hw, hpos⟩ := h
    exact absurd hpos (not_lt.mpr (hall w hw))

/-! ### Basis states -/

namespace StateVector

theorem probabilities_basis (n i : ℕ) :
    (basis n i : StateVector ℝ).probabilities = (List.replicate (2 ^ n) 0).set i 1 := by
  have hzero : (0 : Amplitude ℝ).weight = 0 := by simp [Amplitude.weight]
  have hone : (1 : Amplitude ℝ).weight = 1 := by simp [Amplitude.weight]
  simp only [probabilities, basis, Array.toList_setIfInBounds, Array.toList_replicate,
    List.map_set, List.map_replicate, hzero, hone]

theorem sampleIndex_basis {n i : ℕ} (hi : i < 2 ^ n) (draw : ℝ) :
    sampleIndex (basis n i : StateVector ℝ).probabilities draw = i := by
  rw [probabilities_basis]
  have hmem : (1 : ℝ) ∈ (List.replicate (2 ^ n) (0 : ℝ)).set i 1 :=
    List.mem_set (by simpa using hi) _
  have hpos : ∃ w ∈ (List.replicate (2 ^ n) (0 : ℝ)).set i 1, 0 < w := ⟨1, hmem, one_pos⟩
  obtain ⟨w, hw, hwpos⟩ := sampleIndex_pos hpos draw
  by_contra hne
  rw [List.getElem?_set_ne (Ne.symm hne), List.getElem?_replicate] at hw
  split_ifs at hw
  obtain rfl := Option.some.inj hw
  exact lt_irrefl _ hwpos

theorem norm_basis {n i : ℕ} (hi : i < 2 ^ n) : (basis n i : StateVector ℝ).norm = 1 := by
  rw [norm, probabilities_basis, Scalar.sum_eq, List.sum_set]
  simp [hi]

theorem checkNorm_eq_ok {v : StateVector ℝ} (h : v.norm = 1) {tolerance : Option ℝ}
    (ht : ∀ t ∈ tolerance, 0 ≤ t) : v.checkNorm tolerance = .ok () := by
  have hallowed : 0 ≤ tolerance.getD defaultTolerance := by
    cases tolerance with
    | none =>
      show (0 : ℝ) ≤ 1e-9
      norm_num
    | some t => exact ht t rfl
  have hdistance : Scalar.abs (v.norm - 1) = 0 := by
    rw [h, sub_self]
    simp [Scalar.abs]
  rw [checkNorm, hdistance]
  exact if_neg (not_lt.mpr hallowed)

end StateVector

/-! ### Observations -/

/-- One observation of each of some basis states. -/
def Layout.observed (l : Layout) (outcomes : List ℕ) : List (String × ℕ) :=
  outcomes.map fun i => (l.key i, 1)

section draws
variable {R : Type} [Scalar R] (draws : Draws R) (probabilities : List R)

/-- The indices that the next numbers of a stream fall on. -/
def Draws.indices (n : ℕ) : List ℕ :=
  (List.range' draws.used n).map fun j => sampleIndex probabilities (draws.stream j)

theorem Draws.length_indices (n : ℕ) : (draws.indices probabilities n).length = n := by
  rw [indices, List.length_map, List.length_range']

theorem Local.outcome_drawIndex : (drawIndex probabilities).outcome draws =
    (.ok (sampleIndex probabilities (draws.stream draws.used)),
      ⟨draws.stream, draws.used + 1⟩) := rfl

end draws

namespace Histogram

theorem toList_record_single {h : Histogram} {key : String} {count : ℕ}
    (hlist : h.toList = [(key, count)]) (n : ℕ) : (h.record key n).toList = [(key, count + n)] := by
  have hentries : h.counts.entries = [(key, count)] := hlist
  simp [toList, record, OrderedMap.alter, hentries, OrderedMap.alterEntries]

theorem toList_recordAll_replicate {key : String} : ∀ (n : ℕ) {h : Histogram} {count : ℕ},
    h.toList = [(key, count)] →
    (h.recordAll (List.replicate n (key, 1))).toList = [(key, count + n)]
  | 0, _, _, hlist => hlist
  | n + 1, _, count, hlist => by
    have hrest := toList_recordAll_replicate n (toList_record_single hlist 1)
    rwa [Nat.add_assoc, Nat.add_comm 1 n] at hrest

end Histogram

namespace Local

/-- **Samples are observations**: each takes one number from the stream, and none fails. -/
theorem outcome_addSamples {R : Type} [Scalar R] (layout : Layout) (probabilities : List R) :
    ∀ (n : ℕ) (h : Histogram) (draws : Draws R),
    (addSamples layout probabilities n h).outcome draws =
      (.ok (h.recordAll (layout.observed (draws.indices probabilities n))),
        ⟨draws.stream, draws.used + n⟩)
  | 0, _, _ => rfl
  | n + 1, h, draws => by
    rw [addSamples, Attempt.outcome_bind_of_ok (outcome_drawIndex draws probabilities),
      outcome_addSamples layout probabilities n, Nat.add_assoc, Nat.add_comm 1 n]
    rfl

/-- A program without resets that ends in a state of norm one is sampled there. -/
theorem execute_eq_addSamples {c : Circuit ℝ} {limit shots : ℕ} {draws draws' : Draws ℝ}
    {v : StateVector ℝ} (hlimit : c.width ≤ limit) (hreset : c.hasResets = false)
    (hshots : shots ≠ 0) (hevolve : (evolve c).outcome draws = (.ok v, draws'))
    (hnorm : v.norm = 1) : (execute limit c shots).outcome draws =
      (addSamples c.layout v.probabilities shots (.empty shots)).outcome draws' := by
  have htolerance : ∀ t ∈ some (normTolerance : ℝ), 0 ≤ t := by
    intro t ht
    rw [← Option.some.inj ht]
    unfold normTolerance
    norm_num
  have hcheck : (Attempt.check (v.checkNorm (some normTolerance))).outcome draws' =
      (.ok (), draws') := by
    rw [Attempt.outcome_check, StateVector.checkNorm_eq_ok hnorm htolerance]
  rw [execute, if_neg (Nat.not_lt.mpr hlimit), hreset, if_neg Bool.false_ne_true, sampled,
    if_neg hshots, Attempt.outcome_bind_of_ok hevolve, Attempt.outcome_bind_of_ok hcheck]

/-- **A program that ends in a basis state** and resets nothing is measured alike in all shots. -/
theorem outcome_execute_basis {c : Circuit ℝ} {limit shots i : ℕ} {draws : Draws ℝ}
    (hlimit : c.width ≤ limit) (hreset : c.hasResets = false) (hshots : 0 < shots)
    (hevolve : (evolve c).outcome draws = (.ok (.basis c.width i), draws))
    (hi : i < 2 ^ c.width) : ∃ h : Histogram,
      (execute limit c shots).outcome draws = (.ok h, ⟨draws.stream, draws.used + shots⟩) ∧
      h.toList = [(c.layout.key i, shots)] ∧ h.shots = shots := by
  set alike := List.replicate shots (c.layout.key i, 1) with halike
  have hindices : c.layout.observed (draws.indices (StateVector.basis c.width i).probabilities
      shots) = alike := by
    simp [Layout.observed, Draws.indices, StateVector.sampleIndex_basis hi, halike]
  have hrun : (execute limit c shots).outcome draws =
      (.ok ((Histogram.empty shots).recordAll alike), ⟨draws.stream, draws.used + shots⟩) := by
    rw [execute_eq_addSamples hlimit hreset hshots.ne' hevolve (StateVector.norm_basis hi),
      outcome_addSamples, hindices]
  refine ⟨_, hrun, ?_, Histogram.shots_recordAll _ _⟩
  obtain ⟨n, rfl⟩ := Nat.exists_eq_succ_of_ne_zero hshots.ne'
  have hlist := Histogram.toList_recordAll_replicate n
    (Histogram.toList_record_empty (n + 1) (c.layout.key i) 1)
  rwa [Nat.add_comm 1 n] at hlist

end Local

end LatticeWalk
