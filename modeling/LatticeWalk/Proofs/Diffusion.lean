import LatticeWalk.Proofs.Evolution
import LatticeWalk.Proofs.Fourier
import LatticeWalk.Proofs.Slice

/-! # Kickback and diffusion

The coins that turn one superposition, that of all states with equal amplitudes, and leave what is
orthogonal to it, in exact arithmetic.

* `Gate.Marks`: gates that turn the amplitude of all ones only. The phase of the kickback coins is
  of that sort (`Gate.marks_phaseFlip`), and so are the three gates of the diffusion
  (`Gate.marks_signFlip`).
* `Gate.actAll_spread_ones`: the all ones collect the sum of all amplitudes, and
  `Gate.actAll_spread_reverse` gives what stands there back to all states.
* `Gate.actAll_diffuser`: gates that mark, between the two, add a multiple of the mean to all
  amplitudes.
* `Operator.kickback_updates`: the coins as the simulation executes them. -/

namespace LatticeWalk

open Function (update)
open Operator (everyWire spread belowLast signFlip phaseFlip)

/-- The mean of all amplitudes. -/
noncomputable def StateVector.mean (v : StateVector ℝ) : Amplitude ℝ :=
  .ofReal ((2 ^ v.wires : ℕ) : ℝ)⁻¹ * ∑ y ∈ Finset.range (2 ^ v.wires), v.amplitude y

theorem Amplitude.ofReal_halfRoot_sq : ofReal Scalar.halfRoot * ofReal Scalar.halfRoot * 2 = 1 := by
  have h := Transform.halfRoot_mul_self
  have htwo : (2 : Amplitude ℝ) = 1 + 1 := by norm_num
  rw [htwo]
  ext
  · simp only [ofReal, re_mul, im_mul, re_add, im_add, re_one, im_one]
    linear_combination 2 * h
  · simp [ofReal]

namespace Gate

/-- The bits with the first `n` wires all one. -/
def ones (n : ℕ) (b : ℕ → Bool) : ℕ → Bool := fun q => if q < n then true else b q

/-- The bits with the first `n` wires flipped. -/
def inverted (n : ℕ) (b : ℕ → Bool) : ℕ → Bool := fun q => if q < n then !b q else b q

theorem inverted_ones (n : ℕ) (b : ℕ → Bool) : inverted n (ones n b) = withLow n 0 b := by
  funext q
  by_cases h : q < n <;> simp [inverted, ones, withLow, h]

theorem inverted_zeros (n : ℕ) (b : ℕ → Bool) : inverted n (withLow n 0 b) = ones n b := by
  funext q
  by_cases h : q < n <;> simp [inverted, ones, withLow, h]

/-! ### Gates that mark all ones -/

/-- The gates turn the amplitudes with the first `n` wires all one by `z`, and do nothing else. -/
def Marks (n : ℕ) (z : Amplitude ℝ) (gs : List (Gate ℝ)) : Prop :=
  ∀ (ψ : Wave ℝ) (b : ℕ → Bool), actAll gs ψ b = (if ∀ q < n, b q = true then z else 1) * ψ b

theorem belowLast_ones {n : ℕ} (hn : 0 < n) {b : ℕ → Bool} :
    ((∀ w ∈ belowLast n, b w = true) ∧ b (n - 1) = true) ↔ ∀ q < n, b q = true := by
  simp only [belowLast, List.mem_range]
  constructor
  · rintro ⟨hbelow, hlast⟩ q hq
    rcases Nat.lt_or_ge q (n - 1) with h | h
    · exact hbelow q h
    · rwa [show q = n - 1 by omega]
  · exact fun h => ⟨fun w hw => h w (by omega), h (n - 1) (by omega)⟩

theorem marks_phaseFlip {n : ℕ} (hn : 0 < n) (angle : ℝ) :
    Marks n (.unit angle) (phaseFlip n angle) := by
  intro ψ b
  rw [phaseFlip, if_neg hn.ne', actAll_cons, actAll_nil, act_controlled_phase,
    if_congr (belowLast_ones hn) rfl rfl]

/-- **A flip between two Hadamard rotations is a sign** on the ones, under the same controls. -/
theorem actAll_sandwich {ws : List ℕ} {t : ℕ} (ht : t ∉ ws) (ψ : Wave ℝ) (b : ℕ → Bool) :
    actAll [.plain .hadamard t, .controlled .flip ws t, .plain .hadamard t] ψ b =
      (if (∀ w ∈ ws, b w = true) ∧ b t = true then -1 else 1) * ψ b := by
  set h := Amplitude.ofReal Scalar.halfRoot with hh
  have hsq : h * h * 2 = 1 := Amplitude.ofReal_halfRoot_sq
  have hapart : ∀ c ∈ (controlled .flip ws t : Gate ℝ).controls, c.wire ≠ t := by
    intro c hc
    obtain ⟨w, hw, rfl⟩ := List.mem_map.mp hc
    exact ne_of_mem_of_not_mem hw ht
  have hflip : (controlled .flip ws t : Gate ℝ).IsFlip := ⟨rfl, hapart⟩
  have hmet : ∀ v, Met (controlled .flip ws t : Gate ℝ).controls (update b t v) ↔
      ∀ w ∈ ws, b w = true := by
    intro v
    rw [met_update hapart]
    simp [controlled, Met]
  -- what the flip makes of the two assignments that differ in the target
  have hsend : ∀ v, (controlled .flip ws t : Gate ℝ).send (update b t v) =
      update b t (if ∀ w ∈ ws, b w = true then !v else v) := by
    intro v
    rw [send, if_congr (hmet v) rfl rfl]
    show (if ∀ w ∈ ws, b w = true then update (update b t v) t (!update b t v t)
      else update b t v) = _
    split_ifs
    · rw [Function.update_self, Function.update_idem]
    · rfl
  have hself : update b t (b t) = b := Function.update_eq_self t b
  simp only [actAll_cons, actAll_nil, act_hadamard, act_flip hflip (Wave.flipExact_real _), hsend,
    Function.update_self, Function.update_idem, ← hh]
  by_cases hw : ∀ w ∈ ws, b w = true
  · simp only [if_pos hw, Bool.not_false, Bool.not_true, if_true, Bool.false_eq_true, if_false]
    cases hb : b t with
    | false =>
      rw [hb] at hself
      rw [if_neg (by simp), if_neg (by simp), hself]
      linear_combination ψ b * hsq
    | true =>
      rw [hb] at hself
      rw [if_pos rfl, if_pos ⟨hw, rfl⟩, hself]
      linear_combination -(ψ b) * hsq
  · simp only [if_neg hw, Bool.false_eq_true, if_false, if_true]
    have hnot : ¬((∀ w ∈ ws, b w = true) ∧ b t = true) := fun hall => hw hall.1
    rw [if_neg hnot]
    cases hb : b t with
    | false =>
      rw [hb] at hself
      rw [if_neg (by simp), hself]
      linear_combination ψ b * hsq
    | true =>
      rw [hb] at hself
      rw [if_pos rfl, hself]
      linear_combination ψ b * hsq

theorem marks_signFlip {n : ℕ} (hn : 0 < n) : Marks n (-1) (signFlip n) := by
  intro ψ b
  have hlast : n - 1 ∉ belowLast n := by simp [belowLast]
  rw [signFlip, if_neg hn.ne', actAll_sandwich hlast, if_congr (belowLast_ones hn) rfl rfl]

/-! ### Spreading and collecting -/

theorem everyWire_succ (transform : Transform ℝ) (n : ℕ) :
    everyWire transform (n + 1) = everyWire transform n ++ [.plain transform n] := by
  rw [everyWire, List.range_succ, List.map_append]
  rfl

theorem actAll_flipWires {n : ℕ} {ws : List ℕ} (h : ws.Perm (List.range n)) (ψ : Wave ℝ)
    (b : ℕ → Bool) : actAll (ws.map (plain .flip)) ψ b = ψ (inverted n b) := by
  have hflip : ∀ g ∈ (ws.map (plain .flip) : List (Gate ℝ)), g.IsFlip := by
    intro g hg
    obtain ⟨q, -, rfl⟩ := List.mem_map.mp hg
    exact isFlip_plain q
  have hnd : ws.reverse.Nodup := List.nodup_reverse.mpr (h.nodup_iff.mpr List.nodup_range)
  have hmem : ∀ q, q ∈ ws.reverse ↔ q < n := by
    intro q
    rw [List.mem_reverse, h.mem_iff, List.mem_range]
  rw [actAll_flips_reverse hflip ψ.flipExact_real, ← List.map_reverse, sendAll_plain hnd]
  simp only [hmem]
  rfl

theorem withLow_update {n x : ℕ} (b : ℕ → Bool) (v : Bool) :
    withLow n x (update b n v) = update (withLow n x b) n v := by
  funext q
  rcases Nat.lt_trichotomy q n with h | rfl | h
  · rw [withLow_of_lt _ h, Function.update_of_ne h.ne, withLow_of_lt _ h]
  · rw [withLow_of_le _ le_rfl, Function.update_self, Function.update_self]
  · rw [withLow_of_le _ h.le, Function.update_of_ne h.ne', Function.update_of_ne h.ne',
      withLow_of_le _ h.le]

/-- **The Hadamard rotations collect all amplitudes** in the state with the first wires at zero. The
induction is on the number of wires, with the last rotation on the top one. -/
theorem actAll_hadamards_zero (ψ : Wave ℝ) : ∀ (n : ℕ) (b : ℕ → Bool),
    actAll (everyWire .hadamard n) ψ (withLow n 0 b) =
      .ofReal Scalar.halfRoot ^ n * ∑ x ∈ Finset.range (2 ^ n), ψ (withLow n x b)
  | 0, b => by
    have hlow : withLow 0 0 b = b := funext fun q => withLow_of_le b (Nat.zero_le q)
    simp [everyWire, hlow]
  | n + 1, b => by
    have htop : withLow (n + 1) 0 b n = false := by
      rw [withLow_of_lt b (Nat.lt_succ_self n), Nat.zero_testBit]
    have hupdate : ∀ v, update (withLow (n + 1) 0 b) n v = withLow n 0 (update b n v) := by
      intro v
      rw [withLow_update, ← update_withLow_false b (Nat.two_pow_pos n), Function.update_idem]
    have hlow : ∀ x ∈ Finset.range (2 ^ n),
        ψ (withLow n x (update b n false)) = ψ (withLow (n + 1) x b) := by
      intro x hx
      rw [withLow_update, update_withLow_false b (Finset.mem_range.mp hx)]
    have hhigh : ∀ x ∈ Finset.range (2 ^ n),
        ψ (withLow n x (update b n true)) = ψ (withLow (n + 1) (2 ^ n + x) b) := by
      intro x hx
      rw [withLow_update, update_withLow_true b (Finset.mem_range.mp hx)]
    rw [everyWire_succ, actAll_append, actAll_cons, actAll_nil, act_hadamard, htop,
      if_neg Bool.false_ne_true, hupdate, hupdate, actAll_hadamards_zero ψ n,
      actAll_hadamards_zero ψ n, Finset.sum_congr rfl hlow, Finset.sum_congr rfl hhigh,
      pow_succ (2 : ℕ), mul_two, Finset.sum_range_add, pow_succ]
    ring

/-- **The Hadamard rotations spread** what stands in the state with the first wires at zero. The
induction is on the number of wires, with the first rotation on the top one. -/
theorem actAll_hadamards_reverse : ∀ (n : ℕ) {φ : Wave ℝ},
    φ.Supported (fun c => ∀ q < n, c q = false) → ∀ b : ℕ → Bool,
    actAll (everyWire .hadamard n).reverse φ b = .ofReal Scalar.halfRoot ^ n * φ (withLow n 0 b)
  | 0, φ, _, b => by
    have hlow : withLow 0 0 b = b := funext fun q => withLow_of_le b (Nat.zero_le q)
    simp [everyWire, hlow]
  | n + 1, φ, hφ, b => by
    have hone : ∀ c : ℕ → Bool, φ (update c n true) = 0 := by
      intro c
      by_contra hne
      have htop := hφ _ hne n (Nat.lt_succ_self n)
      rw [Function.update_self] at htop
      exact Bool.true_eq_false_eq_False htop
    have hact : ∀ c, (plain .hadamard n : Gate ℝ).act φ c =
        .ofReal Scalar.halfRoot * φ (update c n false) := by
      intro c
      rw [act_hadamard, hone, mul_zero, add_zero]
    have hsupported : Wave.Supported ((plain .hadamard n : Gate ℝ).act φ)
        fun c => ∀ q < n, c q = false := by
      intro c hc q hq
      rw [hact] at hc
      have hbit := hφ _ (right_ne_zero_of_mul hc) q (Nat.lt_succ_of_lt hq)
      rwa [Function.update_of_ne hq.ne] at hbit
    rw [everyWire_succ, List.reverse_append, List.reverse_singleton, List.singleton_append,
      actAll_cons, actAll_hadamards_reverse n hsupported, hact,
      update_withLow_false b (Nat.two_pow_pos n), pow_succ, mul_assoc]

theorem actAll_spread_ones (n : ℕ) (ψ : Wave ℝ) (b : ℕ → Bool) :
    actAll (spread n) ψ (ones n b) =
      .ofReal Scalar.halfRoot ^ n * ∑ x ∈ Finset.range (2 ^ n), ψ (withLow n x b) := by
  have hflip : ∀ φ c, actAll (everyWire .flip n) φ c = φ (inverted n c) :=
    actAll_flipWires (List.Perm.refl _)
  rw [spread, actAll_append, hflip, inverted_ones, actAll_hadamards_zero]

theorem actAll_spread_reverse {n : ℕ} {φ : Wave ℝ}
    (hφ : φ.Supported fun c => ∀ q < n, c q = true) (b : ℕ → Bool) :
    actAll (spread n).reverse φ b = .ofReal Scalar.halfRoot ^ n * φ (ones n b) := by
  have hflip : ∀ c, actAll (everyWire .flip n).reverse φ c = φ (inverted n c) := by
    intro c
    rw [everyWire, ← List.map_reverse]
    exact actAll_flipWires (List.reverse_perm _) φ c
  rw [spread, List.reverse_append, actAll_append, actAll_hadamards_reverse, hflip, inverted_zeros]
  intro c hc q hq
  rw [hflip] at hc
  simpa [inverted, hq] using hφ _ hc q hq

/-- The gates of the spread are undone by the opposite order. -/
theorem actAll_spread_undone (n : ℕ) (ψ : Wave ℝ) :
    actAll (spread n).reverse (actAll (spread n) ψ) = ψ := by
  have hself : ∀ g ∈ (spread n : List (Gate ℝ)), g.adjoint = g := by
    intro g hg
    rw [spread, List.mem_append] at hg
    rcases hg with hg | hg <;>
    · obtain ⟨q, -, rfl⟩ := List.mem_map.mp hg
      rfl
  have hregular : ∀ g ∈ (spread n : List (Gate ℝ)), g.Regular := fun g hg =>
    ⟨Operator.standard_spread n g hg, (Operator.allFit_spread n g hg).apart⟩
  rw [← undo_of_adjoint_eq hself]
  exact actAll_undo hregular ψ

/-- **Between spreading and collecting, a mark adds a multiple of the mean** to all amplitudes. -/
theorem actAll_diffuser {n : ℕ} {z : Amplitude ℝ} {gs : List (Gate ℝ)} (hgs : Marks n z gs)
    (ψ : Wave ℝ) (b : ℕ → Bool) :
    actAll (spread n ++ gs ++ (spread n).reverse) ψ b =
      ψ b + (z - 1) *
        (.ofReal ((2 ^ n : ℕ) : ℝ)⁻¹ * ∑ x ∈ Finset.range (2 ^ n), ψ (withLow n x b)) := by
  set φ := actAll (spread n) ψ with hφ
  -- the part of the wave that is marked
  set marked : Wave ℝ := fun c => if ∀ q < n, c q = true then φ c else 0 with hmarked
  have hsplit : actAll gs φ = (1 : Amplitude ℝ) • φ + (z - 1) • marked := by
    funext c
    rw [hgs φ c]
    simp only [hmarked, Pi.add_apply, Pi.smul_apply, smul_eq_mul]
    split_ifs <;> ring
  have hsupported : marked.Supported fun c => ∀ q < n, c q = true := by
    intro c hc
    by_contra hnot
    exact hc (if_neg hnot)
  have hones : marked (ones n b) = φ (ones n b) := if_pos fun q hq => if_pos hq
  have hhalf : Amplitude.ofReal Scalar.halfRoot ^ n * Amplitude.ofReal Scalar.halfRoot ^ n =
      .ofReal ((2 ^ n : ℕ) : ℝ)⁻¹ := by
    rw [Amplitude.ofReal_pow, Nat.cast_pow, Nat.cast_two, ← inv_pow,
      ← Transform.halfRoot_mul_self, mul_pow]
    ext <;> simp [Amplitude.ofReal]
  rw [actAll_append, actAll_append, ← hφ, hsplit, actAll_linear, one_smul, hφ,
    actAll_spread_undone, Pi.add_apply, Pi.smul_apply, smul_eq_mul,
    actAll_spread_reverse hsupported, hones, hφ, actAll_spread_ones, ← hhalf]
  ring

end Gate

namespace Operator

/-- Gates between spreading and collecting, as the simulation applies them. -/
theorem applyGates_diffuser {n : ℕ} {z : Amplitude ℝ} {gs : List (Gate ℝ)}
    (hfit : AllFit n gs) (hgs : Gate.Marks n z gs) {v : StateVector ℝ} (hw : v.wires = n)
    (hsize : v.amplitudes.size = 2 ^ n) (draws : Draws ℝ) :
    ∃ u, (Simulation.applyGates (spread n ++ gs ++ (spread n).reverse)).outcome ⟨v, draws⟩ =
        (.ok (), ⟨u, draws⟩) ∧ u.wires = n ∧ u.amplitudes.size = 2 ^ n ∧
      ∀ x < 2 ^ n, u.amplitude x = v.amplitude x + (z - 1) * v.mean := by
  subst hw
  have hall : AllFit v.wires (spread v.wires ++ gs ++ (spread v.wires).reverse) :=
    ((allFit_spread _).append hfit).append (allFit_spread _).reverse
  have hv : v.Shows v.wave := StateVector.shows_wave hsize
  obtain ⟨u, hrun, hwires, hshows⟩ := hv.applyGates hall draws
  refine ⟨u, hrun, hwires, hwires ▸ hshows.size, fun x hx => ?_⟩
  have hsum : ∑ y ∈ Finset.range (2 ^ v.wires), v.wave (withLow v.wires y x.testBit) =
      ∑ y ∈ Finset.range (2 ^ v.wires), v.amplitude y := by
    refine Finset.sum_congr rfl fun y hy => ?_
    rw [StateVector.wave, index_withLow _ (Finset.mem_range.mp hy)]
  rw [hshows.amplitude x (hwires.symm ▸ hx), Gate.actAll_diffuser hgs, hsum,
    ← hv.amplitude x hx]
  rfl

/-- **Kickback and diffusion add a multiple of the mean.** On every state of at least one wire the
kickback coin adds to each amplitude the mean of all amplitudes, times its phase less one; the
diffusion subtracts the mean twice, and so does the kickback coin with half a turn as its phase. -/
theorem kickback_updates {n : ℕ} (hn : 0 < n) (angle : ℝ) {v : StateVector ℝ} (hw : v.wires = n)
    (hsize : v.amplitudes.size = 2 ^ n) (draws : Draws ℝ) :
    (∃ u, (Simulation.applyGates (phaseKickback n angle).gates).outcome ⟨v, draws⟩ =
        (.ok (), ⟨u, draws⟩) ∧ u.wires = n ∧ u.amplitudes.size = 2 ^ n ∧
      ∀ x < 2 ^ n, u.amplitude x = v.amplitude x + (.unit angle - 1) * v.mean) ∧
    ∃ w, (Simulation.applyGates (diffusion n).gates).outcome ⟨v, draws⟩ =
        (.ok (), ⟨w, draws⟩) ∧
      (Simulation.applyGates (phaseKickback n Scalar.pi).gates).outcome ⟨v, draws⟩ =
        (.ok (), ⟨w, draws⟩) ∧ w.wires = n ∧ w.amplitudes.size = 2 ^ n ∧
      ∀ x < 2 ^ n, w.amplitude x = v.amplitude x - 2 * v.mean := by
  have hkick : ∀ φ : ℝ, _ := fun φ =>
    applyGates_diffuser (allFit_phaseFlip n φ) (Gate.marks_phaseFlip hn φ) hw hsize draws
  obtain ⟨w, hrun, hwires, hsize', hvalue⟩ :=
    applyGates_diffuser (allFit_signFlip n) (Gate.marks_signFlip hn) hw hsize draws
  obtain ⟨w', hrun', hwires', hsize'', hvalue'⟩ := hkick Scalar.pi
  have hpi : Amplitude.unit (Scalar.pi : ℝ) = -1 := Amplitude.unit_pi
  -- the two coins give the same amplitudes, and so the same state
  have hsame : w' = w := by
    have hshows : w'.Shows w.wave := by
      refine ⟨by rw [hsize'', hwires'], fun i hi => ?_⟩
      rw [hwires'] at hi
      rw [hvalue' i hi, hpi, ← hvalue i hi]
      exact (StateVector.shows_wave (hwires.symm ▸ hsize')).amplitude i (hwires.symm ▸ hi)
    exact hshows.eq (StateVector.shows_wave (hwires.symm ▸ hsize')) (hwires'.trans hwires.symm)
  refine ⟨hkick angle, w, hrun, hsame ▸ hrun', hwires, hsize', fun x hx => ?_⟩
  rw [hvalue x hx]
  ring

/-- The basis state one of two wires: the mean is a quarter, and diffusion takes half from each
amplitude. -/
theorem kickback_updates_twoWires : 0 < 2 ∧
    (∃ u, (Simulation.applyGates (phaseKickback 2 (Real.pi / 2)).gates).outcome
        ⟨.basis 2 1, ⟨fun _ => 0, 0⟩⟩ = (.ok (), ⟨u, ⟨fun _ => 0, 0⟩⟩) ∧
      u.amplitude 0 = (⟨-(1 / 4), 1 / 4⟩ : Amplitude ℝ)) ∧
    ∃ w, (Simulation.applyGates (diffusion 2).gates).outcome ⟨.basis 2 1, ⟨fun _ => 0, 0⟩⟩ =
        (.ok (), ⟨w, ⟨fun _ => 0, 0⟩⟩) ∧
      w.amplitude 0 = (⟨-(1 / 2), 0⟩ : Amplitude ℝ) ∧
      w.amplitude 1 = (⟨1 / 2, 0⟩ : Amplitude ℝ) := by
  have hsize : (StateVector.basis 2 1 : StateVector ℝ).amplitudes.size = 2 ^ 2 := by
    simp [StateVector.basis]
  obtain ⟨⟨u, hkick, -, -, hu⟩, w, hrun, -, -, -, hw⟩ := kickback_updates (n := 2) (by decide)
    (Real.pi / 2) (v := .basis 2 1) rfl hsize ⟨fun _ => 0, 0⟩
  have hmean : (StateVector.basis 2 1 : StateVector ℝ).mean = ⟨1 / 4, 0⟩ := by
    rw [StateVector.mean]
    show Amplitude.ofReal ((2 ^ 2 : ℕ) : ℝ)⁻¹ * ∑ y ∈ Finset.range 4, _ = _
    rw [Finset.sum_range_succ, Finset.sum_range_succ, Finset.sum_range_succ, Finset.sum_range_one]
    show Amplitude.ofReal ((2 ^ 2 : ℕ) : ℝ)⁻¹ * (0 + 1 + 0 + 0) = _
    ext <;> simp [Amplitude.ofReal]
  have htwo : (2 : Amplitude ℝ) = ⟨2, 0⟩ := by
    have hsum : (2 : Amplitude ℝ) = 1 + 1 := by norm_num
    rw [hsum]
    ext <;> simp
    norm_num
  refine ⟨by decide, ⟨u, hkick, ?_⟩, w, hrun, ?_, ?_⟩
  · rw [hu 0 (by decide), hmean, sub_eq_add_neg]
    show 0 + _ = _
    ext <;> simp
  · rw [hw 0 (by decide), hmean, htwo, sub_eq_add_neg]
    show 0 + _ = _
    ext <;> simp
    norm_num
  · rw [hw 1 (by decide), hmean, htwo, sub_eq_add_neg]
    show 1 + _ = _
    ext <;> simp
    norm_num

end Operator

end LatticeWalk
