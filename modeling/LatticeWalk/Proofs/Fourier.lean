import LatticeWalk.Proofs.Flip
import LatticeWalk.Proofs.Undo

/-! # The Fourier transform

Which wave the gates of the Fourier coin make of any wave, in exact arithmetic.

* `Gate.actAll_fourierRung`: a rung adds up two amplitudes, each turned by the wires up to the top
  one.
* `Gate.actAll_rungs`: all rungs together are the transform with its result in the opposite order
  of wires. The induction is on the number of wires: the first rung treats the top one, and the
  other rungs leave it as it is.
* `Gate.actAll_swaps`: the swaps mirror the wires.
* `Gate.actAll_fourier`: the whole operator, on any wave.
* `Operator.fourier_transforms`: the operator on a basis state, as the simulation executes it. -/

namespace LatticeWalk

open Function (update)

/-! ### Points of the unit circle -/

namespace Amplitude

theorem unit_zero : unit (0 : ℝ) = 1 := by
  ext <;> simp

theorem unit_add (φ χ : ℝ) : unit (φ + χ) = unit φ * unit χ := by
  ext
  · simp [Real.cos_add]
  · simp [Real.sin_add]
    ring

theorem unit_pi : unit Real.pi = -1 := by
  ext <;> simp

theorem unit_add_turns (φ : ℝ) (k : ℕ) : unit (φ + k * (2 * Real.pi)) = unit φ := by
  ext
  · exact Real.cos_add_nat_mul_two_pi φ k
  · exact Real.sin_add_nat_mul_two_pi φ k

theorem ofReal_pow (s : ℝ) (n : ℕ) : ofReal s ^ n = ofReal (s ^ n) := by
  induction n with
  | zero => rw [pow_zero, pow_zero]; rfl
  | succ n ih =>
    rw [pow_succ, ih, pow_succ]
    ext <;> simp [ofReal]

end Amplitude

namespace Scalar

theorem twoPow_eq (n : ℕ) : (twoPow n : ℝ) = 2 ^ n := by
  induction n using Nat.strong_induction_on with
  | _ n ih =>
    rw [twoPow]
    split_ifs with hzero heven
    · rw [hzero, pow_zero]
    · have hn : n = n / 2 + n / 2 := by omega
      simp only [ih (n / 2) (by omega)]
      rw [← pow_add, ← hn]
    · have hn : n = n / 2 + n / 2 + 1 := by omega
      simp only [ih (n / 2) (by omega)]
      conv_rhs => rw [hn, pow_succ', pow_add]
      norm_num

theorem halfRoot_pow (n : ℕ) : (halfRoot : ℝ) ^ n = 2 ^ (-(n : ℝ) / 2) := by
  have hroot : (halfRoot : ℝ) = 2 ^ (-(1 : ℝ) / 2) := by
    show Real.sqrt 0.5 = _
    rw [neg_div, Real.rpow_neg zero_le_two, ← Real.sqrt_eq_rpow, ← Real.sqrt_inv]
    norm_num
  rw [hroot, ← Real.rpow_natCast, ← Real.rpow_mul zero_le_two]
  congr 1
  ring

end Scalar

/-! ### Bits in the first wires -/

/-- The bits with the number `x` in the first `n` wires. -/
def withLow (n x : ℕ) (b : ℕ → Bool) : ℕ → Bool := fun q => if q < n then x.testBit q else b q

/-- The bits with the first `n` wires in the opposite order. -/
def mirror (n : ℕ) (b : ℕ → Bool) : ℕ → Bool := fun q => if q < n then b (n - 1 - q) else b q

section bits
variable {n x : ℕ} (b : ℕ → Bool)

theorem withLow_of_lt {q : ℕ} (h : q < n) : withLow n x b q = x.testBit q := if_pos h

theorem withLow_of_le {q : ℕ} (h : n ≤ q) : withLow n x b q = b q := if_neg (by omega)

theorem index_withLow (hx : x < 2 ^ n) : index n (withLow n x b) = x := by
  rw [index_congr fun q hq => withLow_of_lt b hq, index_testBit, Nat.mod_eq_of_lt hx]

theorem update_withLow_false (hx : x < 2 ^ n) :
    update (withLow n x b) n false = withLow (n + 1) x b := by
  funext q
  rcases Nat.lt_trichotomy q n with h | rfl | h
  · simp [withLow, h, h.ne, Nat.lt_succ_of_lt h]
  · simp [withLow, Nat.testBit_lt_two_pow hx]
  · rw [Function.update_of_ne h.ne', withLow_of_le b h.le, withLow_of_le b h]

theorem update_withLow_true (hx : x < 2 ^ n) :
    update (withLow n x b) n true = withLow (n + 1) (2 ^ n + x) b := by
  funext q
  rcases Nat.lt_trichotomy q n with h | rfl | h
  · simp [withLow, h, h.ne, Nat.lt_succ_of_lt h, Nat.testBit_two_pow_add_gt h]
  · simp [withLow, Nat.testBit_two_pow_add_eq, Nat.testBit_lt_two_pow hx]
  · rw [Function.update_of_ne h.ne', withLow_of_le b h.le, withLow_of_le b h]

theorem withLow_mirror : withLow n x (mirror n b) = withLow n x b := by
  funext q
  by_cases h : q < n
  · simp [withLow, h]
  · simp [withLow, mirror, h]

theorem mirror_mirror (n : ℕ) : mirror n (mirror n b) = b := by
  funext q
  by_cases h : q < n
  · have hback : n - 1 - (n - 1 - q) = q := by omega
    simp [mirror, h, show n - 1 - q < n by omega, hback]
  · simp [mirror, h]

theorem withLow_testBit_eq {y z : ℕ} (hy : y < 2 ^ n) (hz : z < 2 ^ n) :
    withLow n z y.testBit = x.testBit ↔ z = x := by
  have hwith : withLow n z y.testBit = z.testBit := by
    funext q
    by_cases h : q < n
    · exact if_pos h
    · have hpow : 2 ^ n ≤ 2 ^ q := Nat.pow_le_pow_right two_pos (by omega)
      rw [withLow_of_le _ (by omega), Nat.testBit_lt_two_pow (hy.trans_le hpow),
        Nat.testBit_lt_two_pow (hz.trans_le hpow)]
  rw [hwith]
  exact ⟨fun h => Nat.eq_of_testBit_eq fun q => congrFun h q, fun h => h ▸ rfl⟩

end bits

/-! ### The rungs -/

/-- What a rung turns the amplitude by, if its top wire `j` carries `v` and the wires up to it
carried the number `x`. -/
noncomputable def twist (j x : ℕ) (v : Bool) : Amplitude ℝ :=
  if v then .unit (Real.pi * x / (2 ^ j : ℕ)) else 1

theorem twist_false (j x : ℕ) : twist j x false = 1 := rfl

/-- Higher wires make full turns. -/
theorem twist_two_pow_add {j n : ℕ} (h : j < n) (x : ℕ) (v : Bool) :
    twist j (2 ^ n + x) v = twist j x v := by
  obtain ⟨d, rfl⟩ : ∃ d, n = j + d + 1 := ⟨n - j - 1, by omega⟩
  have hangle : Real.pi * ((2 ^ (j + d + 1) + x : ℕ) : ℝ) / (2 ^ j : ℕ) =
      Real.pi * x / (2 ^ j : ℕ) + (2 ^ d : ℕ) * (2 * Real.pi) := by
    push_cast
    field_simp
    ring
  unfold twist
  rw [hangle, Amplitude.unit_add_turns]

theorem twist_two_pow_add_self (j x : ℕ) (v : Bool) :
    twist j (2 ^ j + x) v = (if v then -1 else 1) * twist j x v := by
  have hangle : Real.pi * ((2 ^ j + x : ℕ) : ℝ) / (2 ^ j : ℕ) =
      Real.pi + Real.pi * x / (2 ^ j : ℕ) := by
    push_cast
    field_simp
  cases v with
  | false => simp [twist]
  | true => simp only [twist, if_true, hangle, Amplitude.unit_add, Amplitude.unit_pi]

namespace Gate

theorem act_hadamard (t : ℕ) (ψ : Wave ℝ) (b : ℕ → Bool) :
    (plain .hadamard t : Gate ℝ).act ψ b = .ofReal Scalar.halfRoot *
      (ψ (update b t false) + (if b t then -1 else 1) * ψ (update b t true)) := by
  have hb : update b t (b t) = b := Function.update_eq_self t b
  rw [act, if_pos (show Met (plain .hadamard t : Gate ℝ).controls b from met_nil b)]
  show (if b t = true then
      Amplitude.ofReal Scalar.halfRoot * ψ (update b t false) +
        -Amplitude.ofReal Scalar.halfRoot * ψ b
    else
      Amplitude.ofReal Scalar.halfRoot * ψ b +
        Amplitude.ofReal Scalar.halfRoot * ψ (update b t true)) = _
  cases h : b t with
  | false =>
    rw [h] at hb
    simp only [Bool.false_eq_true, if_false, hb]
    ring
  | true =>
    rw [h] at hb
    simp only [if_true, hb]
    ring

theorem act_controlled_phase (angle : ℝ) (ws : List ℕ) (t : ℕ) (ψ : Wave ℝ) (b : ℕ → Bool) :
    (controlled (.phase angle) ws t).act ψ b =
      (if (∀ w ∈ ws, b w = true) ∧ b t = true then .unit angle else 1) * ψ b := by
  unfold act
  have hmet : Met (controlled (.phase angle) ws t : Gate ℝ).controls b ↔ ∀ w ∈ ws, b w = true := by
    simp [controlled, Met]
  rw [if_congr hmet rfl rfl]
  show (if ∀ w ∈ ws, b w = true then
      if b t = true then 0 * ψ (update b t false) + Amplitude.unit angle * ψ b
      else 1 * ψ b + 0 * ψ (update b t true)
    else ψ b) = _
  by_cases hw : ∀ w ∈ ws, b w = true
  · by_cases ht : b t = true
    · rw [if_pos hw, if_pos ht, if_pos ⟨hw, ht⟩]
      ring
    · rw [if_pos hw, if_neg ht, if_neg fun h => ht h.2]
      ring
  · rw [if_neg hw, if_neg fun h => hw h.1, one_mul]

/-- The phases of a rung under the first `m` wires turn by the number in these. -/
theorem actAll_phases {top : ℕ} (ψ : Wave ℝ) (b : ℕ → Bool) : ∀ {m : ℕ}, m ≤ top →
    actAll ((List.range m).map fun wire =>
      controlled (.phase (Scalar.pi / Scalar.twoPow (top - wire))) [wire] top) ψ b =
      twist top (index m b) (b top) * ψ b
  | 0, _ => by
    have hindex : index 0 b = 0 := by simpa using index_lt 0 b
    rw [hindex]
    cases b top <;> simp [twist, Amplitude.unit_zero]
  | m + 1, h => by
    rw [List.range_succ, List.map_append, actAll_append, List.map_singleton, actAll_cons,
      actAll_nil, act_controlled_phase, actAll_phases ψ b (by omega), ← mul_assoc]
    congr 1
    cases htop : b top with
    | false => simp [twist]
    | true =>
      obtain ⟨d, rfl⟩ : ∃ d, top = m + d := ⟨top - m, by omega⟩
      have hpi : (Scalar.pi : ℝ) = Real.pi := rfl
      cases hm : b m with
      | false => simp [twist, index_succ, hm]
      | true =>
        have hangle : Real.pi * (index (m + 1) b : ℝ) / 2 ^ (m + d) =
            Scalar.pi / Scalar.twoPow (m + d - m) + Real.pi * index m b / 2 ^ (m + d) := by
          rw [index_succ, hm, Scalar.twoPow_eq, hpi, Nat.add_sub_cancel_left, pow_add]
          push_cast
          simp only [Bool.toNat_true]
          field_simp
          ring
        simp [twist, hm, hangle, Amplitude.unit_add]

/-- **A rung** adds up the amplitudes with its top wire at zero and at one. -/
theorem actAll_fourierRung (top : ℕ) (ψ : Wave ℝ) (b : ℕ → Bool) :
    actAll (Operator.fourierRung top) ψ b = .ofReal Scalar.halfRoot *
      (twist top (index top b) (b top) * ψ (update b top false) +
        twist top (2 ^ top + index top b) (b top) * ψ (update b top true)) := by
  rw [Operator.fourierRung, actAll_cons, actAll_phases _ b le_rfl, act_hadamard,
    twist_two_pow_add_self]
  ring

/-- **The rungs are the transform**, with the result in the opposite order of wires. -/
theorem actAll_rungs (b : ℕ → Bool) : ∀ (n : ℕ) (ψ : Wave ℝ),
    actAll ((List.range n).reverse.flatMap Operator.fourierRung) ψ b =
      .ofReal Scalar.halfRoot ^ n * ∑ x ∈ Finset.range (2 ^ n),
        (∏ j ∈ Finset.range n, twist j x (b j)) * ψ (withLow n x b)
  | 0, ψ => by
    have hlow : withLow 0 0 b = b := funext fun q => withLow_of_le b (Nat.zero_le q)
    simp [hlow]
  | n + 1, ψ => by
    have hrange : (List.range (n + 1)).reverse = n :: (List.range n).reverse := by
      rw [List.range_succ, List.reverse_append, List.reverse_singleton, List.singleton_append]
    -- The top wire still carries its own value when the lower wires are treated.
    have hrung : ∀ x ∈ Finset.range (2 ^ n),
        actAll (Operator.fourierRung n) ψ (withLow n x b) = .ofReal Scalar.halfRoot *
          (twist n x (b n) * ψ (withLow (n + 1) x b) +
            twist n (2 ^ n + x) (b n) * ψ (withLow (n + 1) (2 ^ n + x) b)) := by
      intro x hx
      rw [Finset.mem_range] at hx
      rw [actAll_fourierRung, index_withLow b hx, withLow_of_le b le_rfl,
        update_withLow_false b hx, update_withLow_true b hx]
    have hhigh : ∀ x, ∏ j ∈ Finset.range n, twist j (2 ^ n + x) (b j) =
        ∏ j ∈ Finset.range n, twist j x (b j) := fun x =>
      Finset.prod_congr rfl fun j hj => twist_two_pow_add (Finset.mem_range.mp hj) x (b j)
    rw [hrange, List.flatMap_cons, actAll_append, actAll_rungs b n, pow_succ (2 : ℕ), mul_two,
      Finset.sum_range_add, pow_succ (Amplitude.ofReal _), mul_assoc (_ ^ n),
      ← Finset.sum_add_distrib, Finset.mul_sum _ _ (Amplitude.ofReal _)]
    refine congrArg _ (Finset.sum_congr rfl fun x hx => ?_)
    rw [hrung x hx, Finset.prod_range_succ, Finset.prod_range_succ, hhigh]
    ring

/-! ### The swaps -/

theorem isFlip_swapGates {i j : ℕ} (h : i ≠ j) :
    ∀ g ∈ (Operator.swapGates i j : List (Gate ℝ)), g.IsFlip := by
  intro g hg
  simp only [Operator.swapGates, List.mem_cons, List.not_mem_nil, or_false] at hg
  rcases hg with rfl | rfl | rfl
  · exact ⟨rfl, by simpa [controlled] using h⟩
  · exact ⟨rfl, by simpa [controlled] using h.symm⟩
  · exact ⟨rfl, by simpa [controlled] using h⟩

theorem sendAll_swapGates {i j : ℕ} (h : i ≠ j) (b : ℕ → Bool) :
    sendAll (Operator.swapGates i j : List (Gate ℝ)) b = b ∘ Equiv.swap i j := by
  have hsend : ∀ (k l : ℕ) (c : ℕ → Bool),
      (controlled .flip [k] l : Gate ℝ).send c = update c l (c k ^^ c l) := by
    intro k l c
    cases hk : c k with
    | false => simp [send, controlled, hk]
    | true => simp [send, controlled, hk]
  simp only [Operator.swapGates, sendAll_cons, sendAll_nil, hsend]
  funext q
  by_cases hi : q = i
  · subst hi
    cases hq : b q <;> cases hj : b j <;> simp [h, hq, hj]
  · by_cases hj : q = j
    · subst hj
      simp [h, h.symm]
    · simp [hi, hj, Equiv.swap_apply_of_ne_of_ne hi hj]

/-- The wires that the first `m` swaps have exchanged. -/
theorem sendAll_swaps {n : ℕ} (b : ℕ → Bool) : ∀ {m : ℕ}, m ≤ n / 2 → ∀ q < n,
    sendAll ((List.range m).flatMap fun wire =>
      (Operator.swapGates wire (n - wire - 1) : List (Gate ℝ))) b q =
      if q < m ∨ n - 1 - q < m then b (n - 1 - q) else b q
  | 0, _, _, _ => by simp
  | m + 1, h, q, hq => by
    have hne : m ≠ n - m - 1 := by omega
    rw [List.range_succ, List.flatMap_append, List.flatMap_singleton, sendAll_append,
      sendAll_swapGates hne, Function.comp_apply]
    by_cases hlow : q = m
    · subst hlow
      rw [Equiv.swap_apply_left, sendAll_swaps b (by omega) _ (by omega),
        if_neg (by omega), if_pos (by omega)]
      congr 1
      omega
    · by_cases hhigh : q = n - m - 1
      · subst hhigh
        rw [Equiv.swap_apply_right, sendAll_swaps b (by omega) _ (by omega),
          if_neg (by omega), if_pos (by omega)]
        congr 1
        omega
      · rw [Equiv.swap_apply_of_ne_of_ne hlow hhigh, sendAll_swaps b (by omega) q hq]
        exact if_congr (by omega) rfl rfl

/-- **The swaps mirror the wires.** -/
theorem actAll_swaps (n : ℕ) (ψ : Wave ℝ) (b : ℕ → Bool) :
    actAll ((List.range (n / 2)).flatMap fun wire => Operator.swapGates wire (n - wire - 1)) ψ b =
      ψ (mirror n b) := by
  set gs : List (Gate ℝ) :=
    (List.range (n / 2)).flatMap fun wire => Operator.swapGates wire (n - wire - 1) with hgs
  have hflip : ∀ g ∈ gs, g.IsFlip := by
    intro g hg
    obtain ⟨wire, hwire, hg⟩ := List.mem_flatMap.mp hg
    rw [List.mem_range] at hwire
    exact isFlip_swapGates (by omega) g hg
  have htarget : ∀ g ∈ gs, g.target < n := by
    intro g hg
    obtain ⟨wire, hwire, hg⟩ := List.mem_flatMap.mp hg
    rw [List.mem_range] at hwire
    exact (Operator.allFit_swapGates (by omega) (by omega) (by omega) g hg).target
  have hsend : sendAll gs (mirror n b) = b := by
    conv_rhs => rw [← mirror_mirror b n]
    funext q
    by_cases hq : q < n
    · rw [hgs, sendAll_swaps _ le_rfl q hq]
      show _ = if q < n then mirror n b (n - 1 - q) else mirror n b q
      rw [if_pos hq]
      split_ifs with hswapped
      · rfl
      · -- The wire in the middle stays where it is.
        congr 1
        omega
    · rw [sendAll_of_ne fun g hg => by have := htarget g hg; omega]
      exact (if_neg hq).symm
  calc actAll gs ψ b = actAll gs ψ (sendAll gs (mirror n b)) := by rw [hsend]
    _ = ψ (mirror n b) := actAll_flips hflip (Wave.flipExact_real ψ) _

/-! ### The whole operator -/

/-- The turns of all rungs add up to the product of the two numbers. -/
theorem prod_twist_mirror (n x : ℕ) (b : ℕ → Bool) :
    ∏ j ∈ Finset.range n, twist j x (mirror n b j) =
      .unit (2 * Real.pi * x * index n b / 2 ^ n) := by
  have hpart : ∀ m ≤ n, ∏ q ∈ Finset.range m, twist (n - 1 - q) x (b q) =
      .unit (2 * Real.pi * x * index m b / 2 ^ n) := by
    intro m hm
    induction m with
    | zero =>
      have hindex : index 0 b = 0 := by simpa using index_lt 0 b
      simp [hindex, Amplitude.unit_zero]
    | succ m ih =>
      rw [Finset.prod_range_succ, ih (by omega), index_succ]
      cases hb : b m with
      | false => simp [twist_false]
      | true =>
        obtain ⟨d, rfl⟩ : ∃ d, n = m + d + 1 := ⟨n - m - 1, by omega⟩
        have hangle : 2 * Real.pi * x * ((2 ^ m * Bool.toNat true + index m b : ℕ) : ℝ) /
            2 ^ (m + d + 1) = 2 * Real.pi * x * index m b / 2 ^ (m + d + 1) +
              Real.pi * x / (2 ^ (m + d + 1 - 1 - m) : ℕ) := by
          rw [show m + d + 1 - 1 - m = d by omega]
          push_cast
          simp only [Bool.toNat_true]
          field_simp
          ring
        rw [hangle, Amplitude.unit_add]
        rfl
  rw [← hpart n le_rfl, ← Finset.prod_range_reflect]
  refine Finset.prod_congr rfl fun q hq => ?_
  rw [Finset.mem_range] at hq
  have hback : n - 1 - (n - 1 - q) = q := by omega
  have hmirror : mirror n b (n - 1 - q) = b q := by
    rw [mirror, if_pos (by omega), hback]
  rw [hmirror]

/-- **The operator is the Fourier transform of the first wires**, whatever wave it meets. -/
theorem actAll_fourier (n : ℕ) (ψ : Wave ℝ) (b : ℕ → Bool) :
    actAll (Operator.fourier n).gates ψ b =
      .ofReal (2 ^ (-(n : ℝ) / 2)) * ∑ x ∈ Finset.range (2 ^ n),
        .unit (2 * Real.pi * x * index n b / 2 ^ n) * ψ (withLow n x b) := by
  show actAll (_ ++ _) ψ b = _
  rw [actAll_append, actAll_swaps, actAll_rungs, Amplitude.ofReal_pow, Scalar.halfRoot_pow]
  refine congrArg _ (Finset.sum_congr rfl fun x _ => ?_)
  rw [prod_twist_mirror, withLow_mirror]

end Gate

namespace Operator

/-- **The Fourier coin is the discrete Fourier transform**: on the basis state `x` its gates yield
`2 ^ (-n / 2)` times the sum of the basis states `y`, each turned by `x * y / 2 ^ n` of the
circle. -/
theorem fourier_transforms (n : ℕ) {x : ℕ} (hx : x < 2 ^ n) (draws : Draws ℝ) :
    ∃ v, (Simulation.applyGates (fourier n).gates).outcome ⟨.basis n x, draws⟩ =
        (.ok (), ⟨v, draws⟩) ∧
      v.wires = n ∧ v.amplitudes.size = 2 ^ n ∧
      ∀ y < 2 ^ n, v.amplitude y =
        .ofReal (2 ^ (-(n : ℝ) / 2)) * .unit (2 * Real.pi * x * y / 2 ^ n) := by
  obtain ⟨v, hrun, hwires, hshows⟩ :=
    (StateVector.shows_basis (R := ℝ) hx).applyGates (plain_fourier n).fits draws
  obtain rfl : v.wires = n := hwires
  refine ⟨v, hrun, rfl, hshows.size, fun y hy => ?_⟩
  rw [hshows.amplitude y hy, Gate.actAll_fourier, index_testBit, Nat.mod_eq_of_lt hy,
    Finset.sum_eq_single x]
  · rw [Wave.basis, if_pos ((withLow_testBit_eq hy hx).mpr rfl), mul_one]
  · intro z hz hne
    rw [Finset.mem_range] at hz
    rw [Wave.basis, if_neg (mt (withLow_testBit_eq hy hz).mp hne), mul_zero]
  · exact fun h => absurd (Finset.mem_range.mpr hx) h

/-- On two wires the transform turns the basis state one of the state three by `3 / 4`. -/
theorem fourier_transforms_twoWires : 3 < 2 ^ 2 ∧ ∃ v,
    (Simulation.applyGates (fourier 2).gates).outcome ⟨.basis 2 3, ⟨fun _ => 0, 0⟩⟩ =
      (.ok (), ⟨v, ⟨fun _ => 0, 0⟩⟩) ∧
    v.amplitude 1 = (⟨0, -(1 / 2)⟩ : Amplitude ℝ) := by
  refine ⟨by decide, ?_⟩
  obtain ⟨v, hrun, -, -, hv⟩ := fourier_transforms 2 (x := 3) (by decide) ⟨fun _ => 0, 0⟩
  refine ⟨v, hrun, ?_⟩
  have hangle : 2 * Real.pi * (3 : ℕ) * (1 : ℕ) / 2 ^ 2 = Real.pi / 2 + Real.pi := by
    push_cast
    ring
  have hfactor : (2 : ℝ) ^ (-((2 : ℕ) : ℝ) / 2) = 1 / 2 := by
    rw [show -((2 : ℕ) : ℝ) / 2 = -1 by norm_num, Real.rpow_neg_one]
    norm_num
  rw [hv 1 (by decide), hangle, hfactor, Amplitude.unit_add, Amplitude.unit_pi]
  ext <;> simp [Amplitude.ofReal]

end Operator

end LatticeWalk
