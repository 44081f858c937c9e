import LatticeWalk.Proofs.Exact
import LatticeWalk.Simulation

/-! # Waves

A wave gives an amplitude to every assignment of values to wires, without a bound on the number of
wires. Gates act on waves by one equation (`Gate.act`), and a state vector *shows* a wave if it has
the amplitudes of the wave on the wires that it has. The simulation follows the action on waves:

* `StateVector.Shows.applyGate`, `StateVector.Shows.applyGates`: a gate that fits the wires
  succeeds, and the result shows the wave on which it has acted.
* `StateVector.basis`, `Wave.basis`: the state vector and the wave of a single assignment. -/

namespace LatticeWalk

open Function (update)

/-- One amplitude for every assignment of values to wires. -/
abbrev Wave (R : Type) := (ℕ → Bool) → Amplitude R

/-! ### Controls -/

/-- All controls find the values that they ask for. -/
def Met (cs : List Control) (b : ℕ → Bool) : Prop := ∀ c ∈ cs, b c.wire = c.value

instance (cs : List Control) (b : ℕ → Bool) : Decidable (Met cs b) := by
  unfold Met; infer_instance

@[simp] theorem met_nil (b : ℕ → Bool) : Met [] b := by simp [Met]

@[simp] theorem met_cons {c : Control} {cs : List Control} {b : ℕ → Bool} :
    Met (c :: cs) b ↔ b c.wire = c.value ∧ Met cs b := by simp [Met]

@[simp] theorem met_append {cs ds : List Control} {b : ℕ → Bool} :
    Met (cs ++ ds) b ↔ Met cs b ∧ Met ds b := by simp [Met, or_imp, forall_and]

theorem met_update {cs : List Control} {t : ℕ} (h : ∀ c ∈ cs, c.wire ≠ t) (b : ℕ → Bool)
    (v : Bool) : Met cs (update b t v) ↔ Met cs b := by
  unfold Met
  refine forall₂_congr fun c hc => ?_
  rw [Function.update_of_ne (h c hc)]

/-! ### The action of gates -/

namespace Gate

variable {R : Type}

/-- **What a gate does to a wave**: where the controls are met, the row of its matrix that the
target selects is applied to the two amplitudes that differ in the target. -/
def act [Scalar R] (g : Gate R) (ψ : Wave R) : Wave R := fun b =>
  if Met g.controls b then
    if b g.target then
      g.transform.matrix.a10 * ψ (update b g.target false) + g.transform.matrix.a11 * ψ b
    else g.transform.matrix.a00 * ψ b + g.transform.matrix.a01 * ψ (update b g.target true)
  else ψ b

/-- Gates in order. -/
def actAll [Scalar R] (gs : List (Gate R)) (ψ : Wave R) : Wave R := gs.foldl (fun ψ g => g.act ψ) ψ

@[simp] theorem actAll_nil [Scalar R] (ψ : Wave R) : actAll [] ψ = ψ := rfl

@[simp] theorem actAll_cons [Scalar R] (g : Gate R) (gs : List (Gate R)) (ψ : Wave R) :
    actAll (g :: gs) ψ = actAll gs (g.act ψ) := rfl

@[simp] theorem actAll_append [Scalar R] (gs hs : List (Gate R)) (ψ : Wave R) :
    actAll (gs ++ hs) ψ = actAll hs (actAll gs ψ) := List.foldl_append

theorem act_of_not_met [Scalar R] {g : Gate R} {b : ℕ → Bool} (h : ¬ Met g.controls b)
    (ψ : Wave R) : g.act ψ b = ψ b := if_neg h

/-- The gate has its wires among the first `n`, and no wire of it is named twice. -/
structure Fits (n : ℕ) (g : Gate R) : Prop where
  target : g.target < n
  controls : ∀ c ∈ g.controls, c.wire < n
  apart : ∀ c ∈ g.controls, c.wire ≠ g.target
  nodup : (g.controls.map Control.wire).Nodup

theorem Fits.mono {n m : ℕ} {g : Gate R} (h : g.Fits n) (hnm : n ≤ m) : g.Fits m :=
  ⟨h.target.trans_le hnm, fun c hc => (h.controls c hc).trans_le hnm, h.apart, h.nodup⟩

theorem fits_iff {n : ℕ} {g : Gate R} : g.Fits n ↔ (∀ w ∈ g.wires, w < n) ∧ g.wires.Nodup := by
  rw [wires, List.nodup_append]
  simp only [List.mem_append, List.mem_map, List.mem_singleton, or_imp, forall_and,
    forall_exists_index, and_imp, forall_apply_eq_imp_iff₂, forall_eq]
  constructor
  · rintro ⟨h1, h2, h3, h4⟩
    exact ⟨⟨h2, h1⟩, h4, List.nodup_singleton _, h3⟩
  · rintro ⟨⟨h2, h1⟩, h4, -, h3⟩
    exact ⟨h1, h2, h3, h4⟩

end Gate

/-! ### Conditions as controls -/

namespace Condition

theorem holds_iff (c : Condition) (i : ℕ) :
    c.holds i = true ↔ ∀ q, (i.testBit q && c.mask.testBit q) = c.value.testBit q := by
  rw [holds, beq_iff_eq]
  constructor
  · intro h q
    rw [← h, Nat.testBit_and]
  · intro h
    exact Nat.eq_of_testBit_eq fun q => by rw [Nat.testBit_and, h q]

/-- The wires that the condition asks to carry one are among those that it reads. -/
def Narrow (c : Condition) : Prop := ∀ q, c.value.testBit q = true → c.mask.testBit q = true

/-- The condition with one more control. -/
def ask (c : Condition) (d : Control) : Condition :=
  ⟨c.mask ||| 2 ^ d.wire, if d.value then c.value ||| 2 ^ d.wire else c.value⟩

theorem testBit_mask_ask (c : Condition) (d : Control) (q : ℕ) :
    (c.ask d).mask.testBit q = (c.mask.testBit q || decide (d.wire = q)) := by
  simp [ask, Nat.testBit_or, Nat.testBit_two_pow]

theorem testBit_value_ask (c : Condition) (d : Control) (q : ℕ) :
    (c.ask d).value.testBit q = (c.value.testBit q || (d.value && decide (d.wire = q))) := by
  rw [ask]
  cases d.value <;> simp [Nat.testBit_or, Nat.testBit_two_pow]

theorem Narrow.ask {c : Condition} (hc : c.Narrow) (d : Control) : (c.ask d).Narrow := by
  intro q hq
  rw [testBit_value_ask] at hq
  rw [testBit_mask_ask]
  rcases Bool.or_eq_true_iff.mp hq with h | h
  · simp [hc q h]
  · simp [(Bool.and_eq_true_iff.mp h).2]

/-- A control on a wire that the condition does not read yet is one requirement more. -/
theorem Narrow.holds_ask {c : Condition} (hc : c.Narrow) {d : Control}
    (hfresh : c.mask.testBit d.wire = false) (i : ℕ) :
    (c.ask d).holds i = true ↔ c.holds i = true ∧ i.testBit d.wire = d.value := by
  have hv : c.value.testBit d.wire = false := by
    by_contra h
    simp [hc d.wire (by simpa using h)] at hfresh
  rw [holds_iff, holds_iff]
  constructor
  · intro h
    refine ⟨fun q => ?_, ?_⟩
    · have hq := h q
      rw [testBit_value_ask, testBit_mask_ask] at hq
      by_cases hdq : d.wire = q
      · subst hdq; simp [hfresh, hv]
      · simpa [hdq] using hq
    · have hq := h d.wire
      rw [testBit_value_ask, testBit_mask_ask] at hq
      simpa [hfresh, hv] using hq
  · rintro ⟨h, hd⟩ q
    rw [testBit_value_ask, testBit_mask_ask]
    by_cases hdq : d.wire = q
    · subst hdq; simp [hfresh, hv, hd]
    · simpa [hdq] using h q

end Condition

namespace StateVector

variable {R : Type}

theorem addControl_eq_ok {v : StateVector R} {t : ℕ} {d : Control} (hlt : d.wire < v.wires)
    (hne : d.wire ≠ t) (c : Condition) : v.addControl t c d = .ok (c.ask d) := by
  simp only [addControl, checkWire, if_pos hlt, if_neg hne]
  rfl

/-- Controls on fresh wires are added one after the other, and the condition that results asks for
the values of all of them. -/
theorem foldlM_addControl (v : StateVector R) (t : ℕ) : ∀ (cs : List Control) (c : Condition),
    (∀ d ∈ cs, d.wire < v.wires ∧ d.wire ≠ t ∧ c.mask.testBit d.wire = false) →
    (cs.map Control.wire).Nodup → c.Narrow →
    ∃ c', cs.foldlM (v.addControl t) c = .ok c' ∧
      ∀ i, c'.holds i = true ↔ c.holds i = true ∧ Met cs i.testBit
  | [], c, _, _, _ => ⟨c, rfl, by simp⟩
  | d :: cs, c, hd, hnd, hc => by
    obtain ⟨hlt, hne, hfresh⟩ := hd d (by simp)
    simp only [List.map_cons, List.nodup_cons, List.mem_map, not_exists, not_and] at hnd
    have hrest : ∀ e ∈ cs,
        e.wire < v.wires ∧ e.wire ≠ t ∧ (c.ask d).mask.testBit e.wire = false := by
      intro e he
      obtain ⟨h1, h2, h3⟩ := hd e (by simp [he])
      refine ⟨h1, h2, ?_⟩
      rw [Condition.testBit_mask_ask, h3]
      simpa using fun h => hnd.1 e he h.symm
    obtain ⟨c', hfold, hholds⟩ := foldlM_addControl v t cs (c.ask d) hrest hnd.2 (hc.ask d)
    refine ⟨c', ?_, fun i => ?_⟩
    · rw [List.foldlM_cons, addControl_eq_ok hlt hne]
      exact hfold
    · rw [hholds, hc.holds_ask hfresh, met_cons, and_assoc]

/-- The condition of a gate that fits asks for exactly what its controls ask for. -/
theorem condition_of_fits [Scalar R] {v : StateVector R} {g : Gate R} (h : g.Fits v.wires) :
    ∃ c, v.condition g = .ok c ∧ ∀ i, c.holds i = true ↔ Met g.controls i.testBit := by
  obtain ⟨c, hc, hholds⟩ := v.foldlM_addControl g.target g.controls ⟨0, 0⟩
    (fun d hd => ⟨h.controls d hd, h.apart d hd, by simp⟩) h.nodup (by simp [Condition.Narrow])
  refine ⟨c, ?_, fun i => by rw [hholds]; simp [Condition.holds]⟩
  simp only [condition, checkWire, if_pos h.target]
  exact hc

end StateVector

/-! ### State vectors that show a wave -/

theorem testBit_xor_two_pow {i t : ℕ} (h : i.testBit t = true) :
    (i ^^^ 2 ^ t).testBit = update i.testBit t false := by
  funext q
  rw [Nat.testBit_xor, Nat.testBit_two_pow, Function.update_apply]
  by_cases hq : t = q
  · subst hq; simp [h]
  · simp [hq, Ne.symm hq]

theorem testBit_or_two_pow (i t : ℕ) : (i ||| 2 ^ t).testBit = update i.testBit t true := by
  funext q
  rw [Nat.testBit_or, Nat.testBit_two_pow, Function.update_apply]
  by_cases hq : t = q
  · subst hq; simp
  · simp [hq, Ne.symm hq]

namespace StateVector

variable {R : Type}

/-- **The state vector shows a wave**: it has an amplitude for each assignment to its wires, and it
is that of the wave. -/
structure Shows [Scalar R] (v : StateVector R) (ψ : Wave R) : Prop where
  size : v.amplitudes.size = 2 ^ v.wires
  amplitude : ∀ i < 2 ^ v.wires, v.amplitude i = ψ i.testBit

variable [Scalar R]

theorem amplitude_mapIdx {v : StateVector R} {f : ℕ → Amplitude R → Amplitude R} {i : ℕ}
    (hi : i < v.amplitudes.size) :
    ({ v with amplitudes := v.amplitudes.mapIdx f } : StateVector R).amplitude i =
      f i (v.amplitude i) := by
  simp [StateVector.amplitude, Array.getD, hi]

/-- **A gate that fits succeeds**, and the new state shows the wave on which it has acted. -/
theorem Shows.applyGate {v : StateVector R} {ψ : Wave R} (hv : v.Shows ψ) {g : Gate R}
    (hg : g.Fits v.wires) :
    ∃ v', v.applyGate g = .ok v' ∧ v'.wires = v.wires ∧ v'.Shows (g.act ψ) := by
  obtain ⟨c, hc, hholds⟩ := condition_of_fits hg
  refine ⟨v.transform g.transform.matrix g.target c, ?_, rfl, ⟨?_, fun i hi => ?_⟩⟩
  · simp only [StateVector.applyGate, hc]; rfl
  · simp [transform, hv.size]
  · have hi' : i < 2 ^ v.wires := hi
    have hb : Nat.pow 2 g.target < 2 ^ v.wires := Nat.pow_lt_pow_right (by norm_num) hg.target
    rw [transform, amplitude_mapIdx (by rw [hv.size]; exact hi'), Gate.act]
    by_cases hm : Met g.controls i.testBit
    · rw [if_pos ((hholds i).mpr hm), if_pos hm]
      by_cases ht : i.testBit g.target = true
      · rw [if_pos ht, if_pos ht, hv.amplitude i hi',
          hv.amplitude _ (Nat.xor_lt_two_pow hi' hb), Nat.pow_eq, testBit_xor_two_pow ht]
      · rw [if_neg ht, if_neg ht, hv.amplitude i hi',
          hv.amplitude _ (Nat.or_lt_two_pow hi' hb), Nat.pow_eq, testBit_or_two_pow]
    · rw [if_neg (fun h => hm ((hholds i).mp h)), if_neg hm, hv.amplitude i hi']

/-- **Gates that fit succeed one after the other.** No number is drawn. -/
theorem Shows.applyGates {ψ : Wave R} : ∀ {gs : List (Gate R)} {v : StateVector R}, v.Shows ψ →
    (∀ g ∈ gs, g.Fits v.wires) → ∀ draws : Draws R,
    ∃ v', (Simulation.applyGates gs).outcome ⟨v, draws⟩ = (.ok (), ⟨v', draws⟩) ∧
      v'.wires = v.wires ∧ v'.Shows (Gate.actAll gs ψ)
  | [], v, hv, _, draws => ⟨v, rfl, rfl, hv⟩
  | g :: gs, v, hv, hgs, draws => by
    obtain ⟨v1, h1, hw1, hs1⟩ := hv.applyGate (hgs g (by simp))
    obtain ⟨v2, h2, hw2, hs2⟩ := Shows.applyGates hs1
      (fun h (hh : h ∈ gs) => hw1 ▸ hgs h (by simp [hh])) draws
    refine ⟨v2, ?_, hw2.trans hw1, hs2⟩
    rw [Simulation.applyGates, Attempt.outcome_bind]
    simp only [Simulation.applyGate, Attempt.outcome_of, h1]
    exact h2

theorem Shows.eq {v w : StateVector R} {ψ : Wave R} (hv : v.Shows ψ) (hw : w.Shows ψ)
    (h : v.wires = w.wires) : v = w := by
  obtain ⟨n, as⟩ := v
  obtain ⟨m, bs⟩ := w
  obtain rfl : n = m := h
  simp only [StateVector.mk.injEq, true_and]
  refine Array.ext (hv.size.trans hw.size.symm) fun i hi hi' => ?_
  have hlt : i < 2 ^ n := by rw [← hv.size]; exact hi
  have e := (hv.amplitude i hlt).trans (hw.amplitude i hlt).symm
  simpa [StateVector.amplitude, Array.getD, hi, hi'] using e

/-- The state of `n` wires that carry the bits of `i`. -/
def basis (n i : ℕ) : StateVector R := ⟨n, (Array.replicate (2 ^ n) 0).setIfInBounds i 1⟩

theorem zeros_eq_basis {n : ℕ} (h : n < 64) : zeros n = .ok (basis n 0 : StateVector R) := by
  simp only [zeros, Word.bit?_eq_some h]
  rfl

end StateVector

/-- The wave of a single assignment. -/
noncomputable def Wave.basis {R : Type} [Scalar R] (b : ℕ → Bool) : Wave R :=
  open Classical in fun b' => if b' = b then 1 else 0

theorem StateVector.shows_basis {R : Type} [Scalar R] {n i : ℕ} (hi : i < 2 ^ n) :
    (basis n i : StateVector R).Shows (Wave.basis i.testBit) := by
  refine ⟨by simp [basis], fun j hj => ?_⟩
  have hj' : j < 2 ^ n := hj
  have hinj : j.testBit = i.testBit ↔ j = i :=
    ⟨fun h => Nat.eq_of_testBit_eq fun q => congrFun h q, fun h => h ▸ rfl⟩
  simp only [Wave.basis, hinj, basis, StateVector.amplitude, Array.getD, Array.size_setIfInBounds,
    Array.size_replicate, hj', dif_pos, Array.getInternal_eq_getElem]
  by_cases h : j = i
  · subst h; simp
  · rw [if_neg h, Array.getElem_setIfInBounds_ne (by simpa using hj') (Ne.symm h),
      Array.getElem_replicate]

theorem StateVector.shows_start {R : Type} [Scalar R] (n : ℕ) :
    (basis n 0 : StateVector R).Shows (Wave.basis fun _ => false) := by
  have hzero : (0 : ℕ).testBit = fun _ => false := funext Nat.zero_testBit
  rw [← hzero]
  exact shows_basis (Nat.two_pow_pos n)

end LatticeWalk
