import LatticeWalk.Proofs.PatternSteps

/-! # Readings of a pattern

A pattern is read in several ways: wire by wire, as a numeral, as what is written for a number, and
by the steps that lead from one pattern to the next. All of them go by the same order of the bits.

* `Pattern.weight`: the number of a pattern, as the sum of the weights of the wires that are set;
  `Pattern.weight_eq_value` says that the numeral has this value.
* `Pattern.ofValue_weight`: a pattern is what is written for its number.
* `Pattern.stepUp_eq`, `Pattern.stepDown_eq`: the steps of any pattern, by its number.
* `Pattern.Spells`: a pattern all of whose readings give one number.
* `Pattern.readings_agree`: every pattern is one of these, and so are the patterns that are written
  and those that steps lead to. -/

namespace LatticeWalk

theorem index_eq_sum (n : ℕ) (b : ℕ → Bool) :
    index n b = ∑ q ∈ Finset.range n with b q = true, 2 ^ q := by
  induction n with
  | zero => rfl
  | succ n ih =>
    rw [index_succ, ih, Finset.range_add_one, Finset.filter_insert]
    cases hb : b n
    · simp
    · simp

namespace Pattern

/-- The wires that a pattern sets. -/
def setWires (s : String) : Finset ℕ :=
  (Finset.range (wireBits s).length).filter fun q => (wireBits s)[q]? = some true

/-- **The number of a pattern**: wire `q` carries weight `2 ^ q`. -/
def weight (s : String) : ℕ := ∑ q ∈ setWires s, 2 ^ q

/-- The digits of a pattern, read from the first to the last, have the value of its wires. -/
theorem weight_eq_value (s : String) : weight s = value s := by
  have hset : ∀ q, (wireBits s)[q]? = some true ↔ (wireBits s).getD q false = true := by
    intro q
    rw [List.getD_eq_getElem?_getD]
    cases (wireBits s)[q]? <;> simp
  rw [← index_wireBits, index_eq_sum, weight, setWires, length_wireBits]
  simp only [hset]

variable {s : String} {w : ℕ}

theorem ofValue_congr {u v : ℕ} (h : u % 2 ^ w = v % 2 ^ w) : ofValue u w = ofValue v w := by
  rw [ofValue_eq_iff (isPattern_ofValue v w), wireBits_ofValue]
  refine List.map_congr_left fun q hq => ?_
  have hbit : ∀ x, x.testBit q = (x % 2 ^ w).testBit q := by
    intro x
    rw [Nat.testBit_mod_two_pow, decide_eq_true (List.mem_range.mp hq), Bool.true_and]
  rw [hbit u, h, ← hbit v]

/-- **A pattern is what is written for its number.** -/
theorem ofValue_weight (h : IsPattern s w) : ofValue (weight s) w = s := by
  rw [ofValue_eq_iff h, weight_eq_value, ← index_wireBits, h.length]
  refine List.ext_getElem (by rw [List.length_map, List.length_range, length_wireBits_of h]) ?_
  intro q hq hq'
  rw [List.length_map, List.length_range] at hq
  rw [List.getElem_map, List.getElem_range, testBit_index, decide_eq_true hq, Bool.true_and,
    List.getD_eq_getElem _ _ hq']

theorem stepUp_eq (h : IsPattern s w) : stepUp s = ofValue (weight s + 1) w := by
  rw [← stepUp_ofValue, ofValue_weight h]

/-- Counted cyclically, the number before is the number that all values but one lie ahead. -/
theorem stepDown_eq (h : IsPattern s w) : stepDown s = ofValue (weight s + (2 ^ w - 1)) w := by
  have hpos : 0 < 2 ^ w := Nat.two_pow_pos w
  have hround : weight s + (2 ^ w - 1) + 1 = weight s + 2 ^ w := by omega
  have hself : ofValue (weight s + (2 ^ w - 1) + 1) w = s := by
    rw [hround, ofValue_congr (Nat.add_mod_right _ _), ofValue_weight h]
  rw [← stepDown_ofValue, hself]

theorem stepDown_stepUp (h : IsPattern s w) : stepDown (stepUp s) = s := by
  rw [stepUp_eq h, stepDown_ofValue, ofValue_weight h]

theorem stepUp_stepDown (h : IsPattern s w) : stepUp (stepDown s) = s := by
  have hpos : 0 < 2 ^ w := Nat.two_pow_pos w
  have hround : weight s + (2 ^ w - 1) + 1 = weight s + 2 ^ w := by omega
  rw [stepDown_eq h, stepUp_ofValue, hround, ofValue_congr (Nat.add_mod_right _ _),
    ofValue_weight h]

/-- A pattern is read as its number exactly when this fits a word. -/
theorem toValue_eq_ok_iff (h : IsPattern s w) {v : ℕ} :
    toValue s = .ok v ↔ v = weight s ∧ weight s < 2 ^ 64 := by
  rw [weight_eq_value, toValue, check_eq_ok.mpr h.bits]
  show (if value s < 2 ^ 64 then .ok (value s) else refuse (.patternTooLarge s)) = .ok v ↔ _
  by_cases hlimit : value s < 2 ^ 64
  · rw [if_pos hlimit, Except.ok.injEq]
    exact ⟨fun heq => ⟨heq.symm, hlimit⟩, fun hv => hv.1.symm⟩
  · rw [if_neg hlimit]
    constructor
    · intro heq
      cases heq
    · intro hv
      exact absurd hv.2 hlimit

/-- **A pattern all of whose readings give `v`**: its wires weigh `v`, it is read as `v`, and it is
what is written for `v`. -/
structure Spells (s : String) (w v : ℕ) : Prop where
  pattern : IsPattern s w
  weight : weight s = v
  read : toValue s = .ok v
  written : ofValue v w = s

theorem spells (h : IsPattern s w) (hw : w ≤ 64) : Spells s w (weight s) where
  pattern := h
  weight := rfl
  read := by rw [toValue_eq_ok h hw, weight_eq_value]
  written := ofValue_weight h

theorem spells_ofValue (v : ℕ) (hw : w ≤ 64) : Spells (ofValue v w) w (v % 2 ^ w) := by
  have h := spells (isPattern_ofValue v w) hw
  rwa [weight_eq_value, value_ofValue] at h

/-- **All readings of a pattern agree.** Up to the width of a word a pattern spells the sum of the
weights of its set wires, what is written for a number spells it up to a multiple of the number of
all values, and a step up or down leads to the pattern of as many bits that spells one more or one
less, cyclically; the one step undoes the other. A longer pattern is read exactly when its number
fits a word, and as this number. -/
theorem readings_agree (h : IsPattern s w) :
    (w ≤ 64 → Spells s w (weight s) ∧ (∀ v, Spells (ofValue v w) w (v % 2 ^ w)) ∧
      Spells (stepUp s) w ((weight s + 1) % 2 ^ w) ∧
      Spells (stepDown s) w ((weight s + (2 ^ w - 1)) % 2 ^ w) ∧
      stepDown (stepUp s) = s ∧ stepUp (stepDown s) = s) ∧
    (64 < w → ((∃ v, toValue s = .ok v) ↔ weight s < 2 ^ 64) ∧
      ∀ v, toValue s = .ok v → v = weight s) := by
  refine ⟨fun hw => ⟨spells h hw, fun v => spells_ofValue v hw, ?_, ?_, stepDown_stepUp h,
    stepUp_stepDown h⟩, fun _ => ⟨?_, fun v hv => ((toValue_eq_ok_iff h).mp hv).1⟩⟩
  · rw [stepUp_eq h]
    exact spells_ofValue _ hw
  · rw [stepDown_eq h]
    exact spells_ofValue _ hw
  · constructor
    · rintro ⟨v, hv⟩
      exact ((toValue_eq_ok_iff h).mp hv).2
    · intro hlimit
      exact ⟨_, (toValue_eq_ok_iff h).mpr ⟨rfl, hlimit⟩⟩

/-- The pattern of 64 zeros, with all ones before it; and one bit too long for a word, the greatest
number of a word can be read and the one behind it cannot. -/
theorem readings_agree_atLimit : (IsPattern (zeros 64) 64 ∧ Spells (stepDown (zeros 64)) 64
      ((weight (zeros 64) + (2 ^ 64 - 1)) % 2 ^ 64)) ∧
    (IsPattern (ofValue (2 ^ 64) 65) 65 ∧ ((∃ v, toValue (ofValue (2 ^ 64) 65) = .ok v) ↔
      weight (ofValue (2 ^ 64) 65) < 2 ^ 64)) := by
  have hzeros : IsPattern (zeros 64) 64 := zeros_eq 64 ▸ isPattern_ofValue 0 64
  have hlong : IsPattern (ofValue (2 ^ 64) 65) 65 := isPattern_ofValue _ _
  exact ⟨⟨hzeros, ((readings_agree hzeros).1 le_rfl).2.2.2.1⟩,
    hlong, ((readings_agree hlong).2 (by decide)).1⟩

end Pattern

end LatticeWalk
