import LatticeWalk.Proofs.Sampling

/-! # Quantiles

Weights laid end to end divide the way from zero to their sum into stretches, one for each index and
as long as its weight. A number that is drawn points to a place on this way, and the index whose
stretch holds the place is taken.

* `weightAhead`: where the stretch of an index begins.
* `pickIndex_eq`: the search along the weights stops at the stretch that holds the target.
* `sampleIndex_eq_iff`: the draws that select an index.
* `Local.drawIndex_inverts_distribution`: what follows for a draw, for draws in their order, and for
  the share of draws that an index gets. -/

namespace LatticeWalk

/-! ### Stretches -/

/-- The weights ahead of an index, taken together. The stretch of the index begins here, and that of
the next one where it ends. -/
noncomputable def weightAhead (weights : List ℝ) (i : ℕ) : ℝ := (weights.take i).sum

theorem weightAhead_zero (weights : List ℝ) : weightAhead weights 0 = 0 := by simp [weightAhead]

theorem weightAhead_cons (w : ℝ) (weights : List ℝ) (i : ℕ) :
    weightAhead (w :: weights) (i + 1) = w + weightAhead weights i := by simp [weightAhead]

theorem weightAhead_of_le {weights : List ℝ} {i : ℕ} (h : weights.length ≤ i) :
    weightAhead weights i = weights.sum := by rw [weightAhead, List.take_of_length_le h]

theorem weightAhead_succ {weights : List ℝ} {i : ℕ} {w : ℝ} (h : weights[i]? = some w) :
    weightAhead weights (i + 1) = weightAhead weights i + w := by
  rw [weightAhead, List.take_add_one, h, List.sum_append, weightAhead]
  simp

theorem exists_weight {weights : List ℝ} {x : ℝ} {i : ℕ} (hle : weightAhead weights i ≤ x)
    (hlt : x < weightAhead weights (i + 1)) : ∃ w, weights[i]? = some w ∧ 0 < w := by
  rcases h : weights[i]? with _ | w
  · have hi := List.getElem?_eq_none_iff.mp h
    rw [weightAhead_of_le hi] at hle
    rw [weightAhead_of_le (hi.trans (Nat.le_succ i))] at hlt
    exact absurd (hlt.trans_le hle) (lt_irrefl _)
  · rw [weightAhead_succ h] at hlt
    exact ⟨w, rfl, by linarith⟩

/-- Stretches leave no gap: the first that ends behind a place holds it. -/
theorem exists_stretch {weights : List ℝ} {x : ℝ} (hx : 0 ≤ x) (hsum : x < weights.sum) :
    ∃ i, weightAhead weights i ≤ x ∧ x < weightAhead weights (i + 1) := by
  have hex : ∃ j, x < weightAhead weights (j + 1) :=
    ⟨weights.length, by rwa [weightAhead_of_le (Nat.le_succ _)]⟩
  classical
  refine ⟨Nat.find hex, ?_, Nat.find_spec hex⟩
  rcases h : Nat.find hex with _ | k
  · rwa [weightAhead_zero]
  · exact not_lt.mp (Nat.find_min hex (h ▸ k.lt_succ_self))

section weights
variable {weights : List ℝ} (hweights : ∀ w ∈ weights, 0 ≤ w)
include hweights

theorem weightAhead_mono : Monotone (weightAhead weights) := by
  refine monotone_nat_of_le_succ fun i => ?_
  rcases h : weights[i]? with _ | w
  · have hi := List.getElem?_eq_none_iff.mp h
    rw [weightAhead_of_le hi, weightAhead_of_le (hi.trans (Nat.le_succ i))]
  · have hw := hweights w (List.mem_of_getElem? h)
    rw [weightAhead_succ h]
    linarith

theorem weightAhead_nonneg (i : ℕ) : 0 ≤ weightAhead weights i :=
  (weightAhead_zero weights).ge.trans (weightAhead_mono hweights i.zero_le)

theorem weightAhead_le_sum (i : ℕ) : weightAhead weights i ≤ weights.sum := by
  have hend := weightAhead_mono hweights (le_max_left i weights.length)
  rwa [weightAhead_of_le (le_max_right i weights.length)] at hend

theorem le_of_stretch {x y : ℝ} {i j : ℕ} (hi : weightAhead weights i ≤ x) (hxy : x ≤ y)
    (hj : y < weightAhead weights (j + 1)) : i ≤ j := by
  by_contra hlt
  have hmono := weightAhead_mono hweights (Nat.succ_le_of_lt (not_le.mp hlt))
  exact absurd (hj.trans_le hmono) (not_lt.mpr (hi.trans hxy))

end weights

/-! ### Drawing an index -/

/-- **The search stops at the stretch that holds the target.** Indices without weight are passed
over: their stretches hold nothing. -/
theorem pickIndex_eq {point : ℝ} : ∀ {ws : List ℝ} {k : ℕ} (index : ℕ) {sum : ℝ} (last : ℕ),
    (∀ w ∈ ws, 0 ≤ w) → sum + weightAhead ws k ≤ point → point < sum + weightAhead ws (k + 1) →
    pickIndex point ws index sum last = index + k
  | [], k, _, sum, _, _, hle, hlt => by
    simp only [weightAhead, List.take_nil, List.sum_nil] at hle hlt
    exact absurd (hlt.trans_le hle) (lt_irrefl _)
  | w :: ws, 0, index, sum, last, hws, hle, hlt => by
    rw [weightAhead_zero, add_zero] at hle
    rw [weightAhead_cons, weightAhead_zero, add_zero] at hlt
    have hw : ¬ w ≤ 0 := not_le.mpr (by linarith)
    rw [pickIndex, if_neg hw, if_pos hlt, Nat.add_zero]
  | w :: ws, k + 1, index, sum, last, hws, hle, hlt => by
    rw [weightAhead_cons, ← add_assoc] at hle hlt
    rw [List.forall_mem_cons] at hws
    have hahead := weightAhead_nonneg hws.2 k
    have hbehind : ¬ point < sum + w := not_lt.mpr (by linarith)
    have hindex : index + (k + 1) = index + 1 + k := by omega
    rw [pickIndex, if_neg hbehind, hindex]
    split_ifs with hzero
    · obtain rfl : w = 0 := le_antisymm hzero hws.1
      rw [add_zero] at hle hlt
      exact pickIndex_eq (index + 1) last hws.2 hle hlt
    · exact pickIndex_eq (index + 1) index hws.2 hle hlt

section weights
variable {weights : List ℝ} (hweights : ∀ w ∈ weights, 0 ≤ w) (hpos : 0 < weights.sum)
include hweights hpos

/-- **The draws that select an index** are those that point into its stretch. -/
theorem sampleIndex_eq_iff {d : ℝ} (hd : d ∈ Set.Ico 0 1) {i : ℕ} : sampleIndex weights d = i ↔
    weightAhead weights i ≤ d * weights.sum ∧ d * weights.sum < weightAhead weights (i + 1) := by
  have hselect : ∀ {j}, weightAhead weights j ≤ d * weights.sum →
      d * weights.sum < weightAhead weights (j + 1) → sampleIndex weights d = j := by
    intro j hle hlt
    rw [← zero_add (weightAhead weights j)] at hle
    rw [← zero_add (weightAhead weights (j + 1))] at hlt
    rw [sampleIndex, Scalar.sum_eq, pickIndex_eq 0 0 hweights hle hlt, Nat.zero_add]
  refine ⟨?_, fun h => hselect h.1 h.2⟩
  rintro rfl
  obtain ⟨j, hle, hlt⟩ := exists_stretch (mul_nonneg hd.1 hpos.le)
    ((mul_lt_iff_lt_one_left hpos).mpr hd.2)
  rw [hselect hle hlt]
  exact ⟨hle, hlt⟩

/-- As shares of the sum, the stretch of an index is the interval of the draws that select it. -/
theorem draws_eq_Ico (i : ℕ) : {d ∈ Set.Ico (0 : ℝ) 1 | sampleIndex weights d = i} =
    Set.Ico (weightAhead weights i / weights.sum) (weightAhead weights (i + 1) / weights.sum) := by
  have hfirst : 0 ≤ weightAhead weights i / weights.sum :=
    div_nonneg (weightAhead_nonneg hweights i) hpos.le
  have hlast : weightAhead weights (i + 1) / weights.sum ≤ 1 :=
    (div_le_one hpos).mpr (weightAhead_le_sum hweights (i + 1))
  ext d
  rw [Set.mem_Ico, div_le_iff₀ hpos, lt_div_iff₀ hpos]
  constructor
  · rintro ⟨hd, hi⟩
    exact (sampleIndex_eq_iff hweights hpos hd).mp hi
  · rintro ⟨hle, hlt⟩
    have hd : d ∈ Set.Ico (0 : ℝ) 1 :=
      ⟨hfirst.trans ((div_le_iff₀ hpos).mpr hle), ((lt_div_iff₀ hpos).mpr hlt).trans_le hlast⟩
    exact ⟨hd, (sampleIndex_eq_iff hweights hpos hd).mpr ⟨hle, hlt⟩⟩

/-- **Drawing an index inverts the distribution of the weights.** It takes one number, and gives the
least index up to which the weights exceed this share of their sum. There is such an index, and its
weight is positive. Larger numbers give no lower index, and the numbers that give an index make up
an interval, as long as the share of its weight in the sum. -/
theorem Local.drawIndex_inverts_distribution :
    (∀ draws : Draws ℝ, draws.stream draws.used ∈ Set.Ico 0 1 → ∃ i w,
      (drawIndex weights).outcome draws = (.ok i, { draws with used := draws.used + 1 }) ∧
      IsLeast {j | draws.stream draws.used * weights.sum < weightAhead weights (j + 1)} i ∧
      weights[i]? = some w ∧ 0 < w) ∧
    MonotoneOn (sampleIndex weights) (Set.Ico 0 1) ∧
    ∀ i w, weights[i]? = some w →
      {d ∈ Set.Ico (0 : ℝ) 1 | sampleIndex weights d = i} =
        Set.Ico (weightAhead weights i / weights.sum) (weightAhead weights (i + 1) / weights.sum) ∧
      weightAhead weights (i + 1) / weights.sum - weightAhead weights i / weights.sum =
        w / weights.sum := by
  have hstretch : ∀ {d : ℝ}, d ∈ Set.Ico 0 1 →
      weightAhead weights (sampleIndex weights d) ≤ d * weights.sum ∧
        d * weights.sum < weightAhead weights (sampleIndex weights d + 1) := fun hd =>
    (sampleIndex_eq_iff hweights hpos hd).mp rfl
  refine ⟨fun draws hdraw => ?_, fun d hd d' hd' hle => ?_, fun i w hw => ?_⟩
  · obtain ⟨hle, hlt⟩ := hstretch hdraw
    obtain ⟨w, hw, hwpos⟩ := exists_weight hle hlt
    exact ⟨_, w, outcome_drawIndex draws weights,
      ⟨hlt, fun j hj => le_of_stretch hweights hle le_rfl hj⟩, hw, hwpos⟩
  · have hshares := mul_le_mul_of_nonneg_right hle hpos.le
    exact le_of_stretch hweights (hstretch hd).1 hshares (hstretch hd').2
  · refine ⟨draws_eq_Ico hweights hpos i, ?_⟩
    rw [weightAhead_succ hw, ← sub_div, add_sub_cancel_left]

end weights

/-- Weights with nothing in front, between and behind. A quarter points to the end of the stretch of
index one, so that it selects index three, as do all larger numbers. -/
theorem Local.drawIndex_inverts_distribution_gaps :
    ((drawIndex [0, 1, 0, 3, 0]).outcome (⟨fun _ => 1 / 4, 0⟩ : Draws ℝ)).1 = .ok 3 ∧
      {d ∈ Set.Ico (0 : ℝ) 1 | sampleIndex [0, 1, 0, 3, 0] d = 3} = Set.Ico (1 / 4) 1 := by
  have hweights : ∀ w ∈ ([0, 1, 0, 3, 0] : List ℝ), 0 ≤ w := by simp
  have hpos : (0 : ℝ) < ([0, 1, 0, 3, 0] : List ℝ).sum := by norm_num
  obtain ⟨hdraws, -, hinterval⟩ := drawIndex_inverts_distribution hweights hpos
  obtain ⟨i, -, hrun, hleast, -, -⟩ := hdraws ⟨fun _ => 1 / 4, 0⟩ (by norm_num)
  obtain ⟨hset, -⟩ := hinterval 3 3 rfl
  have hthree : IsLeast {j | (1 / 4 : ℝ) * ([0, 1, 0, 3, 0] : List ℝ).sum <
      weightAhead [0, 1, 0, 3, 0] (j + 1)} 3 := by
    refine ⟨by norm_num [weightAhead], fun j hj => ?_⟩
    by_contra hlt
    interval_cases j <;> norm_num [weightAhead] at hj
  refine ⟨?_, hset.trans ?_⟩
  · rw [hrun, hleast.unique hthree]
  · norm_num [weightAhead]

end LatticeWalk
