import LatticeWalk.Proofs.Norm

/-! # The action of a gate on a state vector

Which gates are applied, and what the new amplitudes are, for lists of controls of any kind, those
that name a wire more than once among them.

* `Gate.Addresses`: the wires of a gate exist and its target is none of its controls. These gates
  are applied, and no other ones (`StateVector.applyGate_eq_ok_iff`).
* `Gate.asks`: the value that the controls ask of a wire, which is one if any of them asks for one.
  `Admits` says that all wires carry these values, and `conditionOf` tests it (`holds_conditionOf`).
* `Consistent`: no wire is asked for both values. Just then the controls admit what meets all of
  them (`consistent_iff`).
* `StateVector.sweep`: the pairs of amplitudes visited in order and overwritten in place.
  `StateVector.transform_eq_sweep` says that this is the transform by a matrix, in which all new
  amplitudes come from old ones: `StateVector.Swept` is the invariant.

Main statement: `StateVector.applyGate_transforms`. -/

namespace LatticeWalk

open Function (update)

variable {R : Type}

/-! ### Controls that name a wire more than once -/

/-- The value that controls ask of a wire: one if any of them asks for one. -/
def Gate.asks (cs : List Control) (q : ℕ) : Bool := cs.any fun c => c.wire == q && c.value

/-- All wires of the controls carry what is asked of them. -/
def Admits (cs : List Control) (b : ℕ → Bool) : Prop := ∀ c ∈ cs, b c.wire = Gate.asks cs c.wire

instance (cs : List Control) (b : ℕ → Bool) : Decidable (Admits cs b) := by
  unfold Admits; infer_instance

/-- No wire is asked for both values. -/
def Consistent (cs : List Control) : Prop :=
  ∀ c ∈ cs, ∀ d ∈ cs, c.wire = d.wire → c.value = d.value

theorem consistent_of_met {cs : List Control} {b : ℕ → Bool} (h : Met cs b) : Consistent cs :=
  fun c hc d hd e => by rw [← h c hc, ← h d hd, e]

namespace Gate

theorem asks_eq_true {cs : List Control} {q : ℕ} :
    asks cs q = true ↔ ∃ c ∈ cs, c.wire = q ∧ c.value = true := by
  simp [asks]

theorem admits_asks (cs : List Control) : Admits cs (asks cs) := fun _ _ => rfl

theorem asks_of_consistent {cs : List Control} (h : Consistent cs) {c : Control} (hc : c ∈ cs) :
    asks cs c.wire = c.value := by
  rw [Bool.eq_iff_iff, asks_eq_true]
  constructor
  · rintro ⟨d, hd, hwire, hvalue⟩
    rw [← h d hd c hc hwire, hvalue]
  · exact fun hvalue => ⟨c, hc, rfl, hvalue⟩

end Gate

/-- **Controls are consistent** if and only if they admit exactly what meets all of them. -/
theorem consistent_iff {cs : List Control} :
    Consistent cs ↔ ∀ b, Admits cs b ↔ Met cs b := by
  constructor
  · intro h b
    exact forall₂_congr fun c hc => by rw [Gate.asks_of_consistent h hc]
  · intro h
    exact consistent_of_met ((h _).mp (Gate.admits_asks cs))

/-! ### The condition of a gate -/

/-- The condition that controls are gathered into. -/
def conditionOf (cs : List Control) : Condition := cs.foldl Condition.ask ⟨0, 0⟩

theorem testBit_mask_foldl (cs : List Control) (c : Condition) (q : ℕ) :
    (cs.foldl Condition.ask c).mask.testBit q =
      (c.mask.testBit q || decide (∃ d ∈ cs, d.wire = q)) := by
  induction cs generalizing c with
  | nil => simp
  | cons d cs ih =>
    rw [List.foldl_cons, ih, Condition.testBit_mask_ask]
    simp [Bool.or_assoc]

theorem testBit_value_foldl (cs : List Control) (c : Condition) (q : ℕ) :
    (cs.foldl Condition.ask c).value.testBit q = (c.value.testBit q || Gate.asks cs q) := by
  induction cs generalizing c with
  | nil => simp [Gate.asks]
  | cons d cs ih =>
    rw [List.foldl_cons, ih, Condition.testBit_value_ask]
    simp [Gate.asks, Bool.or_assoc, Bool.and_comm, Bool.beq_eq_decide_eq]

theorem testBit_mask_conditionOf (cs : List Control) (q : ℕ) :
    (conditionOf cs).mask.testBit q = decide (∃ c ∈ cs, c.wire = q) := by
  rw [conditionOf, testBit_mask_foldl, Nat.zero_testBit, Bool.false_or]

theorem testBit_value_conditionOf (cs : List Control) (q : ℕ) :
    (conditionOf cs).value.testBit q = Gate.asks cs q := by
  rw [conditionOf, testBit_value_foldl, Nat.zero_testBit, Bool.false_or]

/-- **The condition holds of the basis states that the controls admit.** -/
theorem holds_conditionOf (cs : List Control) (i : ℕ) :
    (conditionOf cs).holds i = true ↔ Admits cs i.testBit := by
  simp only [Condition.holds_iff, testBit_mask_conditionOf, testBit_value_conditionOf]
  constructor
  · intro h c hc
    have hread : ∃ d ∈ cs, d.wire = c.wire := ⟨c, hc, rfl⟩
    simpa [hread] using h c.wire
  · intro h q
    by_cases hread : ∃ c ∈ cs, c.wire = q
    · obtain ⟨c, hc, rfl⟩ := hread
      have hself : ∃ d ∈ cs, d.wire = c.wire := ⟨c, hc, rfl⟩
      simpa [hself] using h c hc
    · -- a wire that no control names is not asked for a one
      have hasks : Gate.asks cs q = false := by
        rw [Bool.eq_false_iff]
        intro hone
        obtain ⟨c, hc, hwire, -⟩ := Gate.asks_eq_true.mp hone
        exact hread ⟨c, hc, hwire⟩
      simp [hread, hasks]

/-- The gate has its wires among the first `n`, and its target is none of its controls. A control
may be named more than once. -/
structure Gate.Addresses (g : Gate R) (n : ℕ) : Prop where
  target : g.target < n
  controls : ∀ c ∈ g.controls, c.wire < n ∧ c.wire ≠ g.target

namespace StateVector

theorem addControl_eq_ok_iff {v : StateVector R} {t : ℕ} {c c' : Condition} {d : Control} :
    v.addControl t c d = .ok c' ↔ (d.wire < v.wires ∧ d.wire ≠ t) ∧ c' = c.ask d := by
  constructor
  · intro h
    obtain ⟨hne, rfl⟩ := addControl_cases h
    obtain ⟨_, hwire, -⟩ := Except.bind_eq_ok.mp h
    exact ⟨⟨lt_of_checkWire hwire, hne⟩, rfl⟩
  · rintro ⟨⟨hlt, hne⟩, rfl⟩
    exact addControl_eq_ok hlt hne c

theorem foldlM_addControl_eq_ok {v : StateVector R} {t : ℕ} {cs : List Control}
    {c c' : Condition} : cs.foldlM (v.addControl t) c = .ok c' ↔
      (∀ d ∈ cs, d.wire < v.wires ∧ d.wire ≠ t) ∧ c' = cs.foldl Condition.ask c := by
  induction cs generalizing c with
  | nil => exact ⟨fun h => ⟨by simp, (Except.ok.inj h).symm⟩, fun ⟨_, h⟩ => h ▸ rfl⟩
  | cons d cs ih =>
    rw [List.foldlM_cons, Except.bind_eq_ok]
    simp only [addControl_eq_ok_iff, ih, List.forall_mem_cons, List.foldl_cons]
    constructor
    · rintro ⟨_, ⟨hd, rfl⟩, hcs, rfl⟩
      exact ⟨⟨hd, hcs⟩, rfl⟩
    · rintro ⟨⟨hd, hcs⟩, rfl⟩
      exact ⟨_, ⟨hd, rfl⟩, hcs, rfl⟩

variable [Scalar R]

/-- **Which gates are applied**, and what they leave. -/
theorem applyGate_eq_ok_iff {v v' : StateVector R} {g : Gate R} : v.applyGate g = .ok v' ↔
    g.Addresses v.wires ∧
      v' = v.transform g.transform.matrix g.target (conditionOf g.controls) := by
  rw [applyGate, Except.bind_eq_ok]
  constructor
  · rintro ⟨c, hc, h⟩
    obtain ⟨_, htarget, hfold⟩ := Except.bind_eq_ok.mp hc
    obtain ⟨hcontrols, rfl⟩ := foldlM_addControl_eq_ok.mp hfold
    exact ⟨⟨lt_of_checkWire htarget, hcontrols⟩, (Except.ok.inj h).symm⟩
  · rintro ⟨⟨htarget, hcontrols⟩, rfl⟩
    refine ⟨conditionOf g.controls, Except.bind_eq_ok.mpr ⟨(), if_pos htarget, ?_⟩, rfl⟩
    exact foldlM_addControl_eq_ok.mpr ⟨hcontrols, rfl⟩

/-! ### Pairs in place -/

/-- A visit to basis state `i`: if its target is zero and the condition holds, the pair of
amplitudes that differ in the target is overwritten by what the matrix makes of it. -/
def visit (m : GateMatrix R) (target : ℕ) (c : Condition) (as : Array (Amplitude R)) (i : ℕ) :
    Array (Amplitude R) :=
  if i.testBit target || !c.holds i then as
  else
    let j := i ||| 2 ^ target
    let zero := as.getD i 0
    let one := as.getD j 0
    (as.setIfInBounds i (m.a00 * zero + m.a01 * one)).setIfInBounds j (m.a10 * zero + m.a11 * one)

/-- All basis states visited in order. -/
def sweep (v : StateVector R) (m : GateMatrix R) (target : ℕ) (c : Condition) : StateVector R :=
  { v with amplitudes := (List.range v.amplitudes.size).foldl (visit m target c) v.amplitudes }

section sweep
variable (m : GateMatrix R) (t : ℕ) (c : Condition) (v : StateVector R)

/-- The member of a pair at which it is visited: the target set to zero. -/
def visitedAt (q : ℕ) : ℕ := if q.testBit t then q ^^^ 2 ^ t else q

/-- After the visits to all basis states below `k`, the pairs visited have their new amplitudes and
all others their old ones. -/
structure Swept (k : ℕ) (as : Array (Amplitude R)) : Prop where
  size : as.size = v.amplitudes.size
  amplitude : ∀ q < v.amplitudes.size, as.getD q 0 =
    if visitedAt t q < k then (v.transform m t c).amplitude q else v.amplitude q

variable {m t c v}

omit [Scalar R] in
theorem visitedAt_of_not {q : ℕ} (h : q.testBit t = false) : visitedAt t q = q := by
  simp [visitedAt, h]

omit [Scalar R] in
theorem testBit_visitedAt (q : ℕ) : (visitedAt t q).testBit t = false := by
  unfold visitedAt
  split_ifs with h
  · simp [Nat.testBit_xor, h]
  · simpa using h

omit [Scalar R] in
/-- Only the two members of a pair are visited at the same basis state. -/
theorem visitedAt_eq_iff {k q : ℕ} (h : k.testBit t = false) :
    visitedAt t q = k ↔ q = k ∨ q = k ||| 2 ^ t := by
  rw [or_two_pow_of_not h]
  constructor
  · unfold visitedAt
    split_ifs with hq
    · rintro rfl
      exact .inr (Nat.xor_xor_cancel_right q _).symm
    · exact .inl
  · rintro (rfl | rfl)
    · exact visitedAt_of_not h
    · have hset : (k ^^^ 2 ^ t).testBit t = true := by simp [Nat.testBit_xor, h]
      rw [visitedAt, if_pos hset, Nat.xor_xor_cancel_right]

/-- A condition that does not read the target holds of both members of a pair or of none. -/
theorem holds_of_visitedAt (hc : c.mask.testBit t = false) (q : ℕ) :
    c.holds (visitedAt t q) = c.holds q := by
  unfold visitedAt
  split_ifs
  · exact Condition.holds_xor hc q
  · rfl

theorem amplitude_transform {q : ℕ} (hq : q < v.amplitudes.size) :
    (v.transform m t c).amplitude q = if c.holds q then
      if q.testBit t then m.a10 * v.amplitude (q ^^^ 2 ^ t) + m.a11 * v.amplitude q
      else m.a00 * v.amplitude q + m.a01 * v.amplitude (q ||| 2 ^ t)
    else v.amplitude q := by
  rw [transform, amplitude_mapIdx hq]
  simp only [Nat.pow_eq]

theorem getD_set_set {as : Array (Amplitude R)} {i j : ℕ} {a b : Amplitude R} (hi : i < as.size)
    (hj : j < as.size) (q : ℕ) :
    ((as.setIfInBounds i a).setIfInBounds j b).getD q 0 =
      if q = j then b else if q = i then a else as.getD q 0 := by
  rw [Array.getD_eq_getD_getElem?, Array.getElem?_setIfInBounds, Array.getElem?_setIfInBounds,
    Array.size_setIfInBounds, if_pos hi, if_pos hj]
  by_cases hqj : q = j
  · rw [if_pos hqj.symm, if_pos hqj]
    rfl
  · rw [if_neg (Ne.symm hqj), if_neg hqj]
    by_cases hqi : q = i
    · rw [if_pos hqi.symm, if_pos hqi]
      rfl
    · rw [if_neg (Ne.symm hqi), if_neg hqi, Array.getD_eq_getD_getElem?]

variable (hsize : v.amplitudes.size = 2 ^ v.wires) (hlt : t < v.wires)
  (hc : c.mask.testBit t = false)
include hsize hlt hc

/-- **One visit** gives the pair of its basis state the new amplitudes. The pair has the old ones
until then, since nothing else overwrites it. -/
theorem Swept.visit {k : ℕ} {as : Array (Amplitude R)} (h : Swept m t c v k as)
    (hk : k < v.amplitudes.size) : Swept m t c v (k + 1) (visit m t c as k) := by
  unfold StateVector.visit
  by_cases hskip : (k.testBit t || !c.holds k) = true
  · -- no pair is visited here, or one that keeps its amplitudes
    rw [if_pos hskip]
    refine ⟨h.size, fun q hq => ?_⟩
    rw [h.amplitude q hq]
    by_cases hat : visitedAt t q = k
    · have hbit : k.testBit t = false := hat ▸ testBit_visitedAt q
      have hfalse : c.holds q = false := by
        rw [← holds_of_visitedAt hc, hat]
        simpa [hbit] using hskip
      rw [if_neg (by omega), if_pos (by omega), amplitude_transform hq, hfalse]
      rfl
    · have hsame : visitedAt t q < k + 1 ↔ visitedAt t q < k := by omega
      simp only [hsame]
  · rw [if_neg hskip]
    simp only [Bool.or_eq_true, Bool.not_eq_true', not_or, Bool.not_eq_true,
      Bool.not_eq_false] at hskip
    obtain ⟨hbit, hholds⟩ := hskip
    have hpartner : k ||| 2 ^ t < v.amplitudes.size := by
      rw [hsize] at hk ⊢
      exact Nat.or_lt_two_pow hk (Nat.pow_lt_pow_right one_lt_two hlt)
    have hset : (k ||| 2 ^ t).testBit t = true := by simp
    have hne : k ≠ k ||| 2 ^ t := fun e => by
      rw [← e, hbit] at hset
      cases hset
    have hcleared : (k ||| 2 ^ t) ^^^ 2 ^ t = k := by
      rw [or_two_pow_of_not hbit, Nat.xor_xor_cancel_right]
    have hzero : as.getD k 0 = v.amplitude k := by
      rw [h.amplitude k hk, if_neg (by rw [visitedAt_of_not hbit]; omega)]
    have hone : as.getD (k ||| 2 ^ t) 0 = v.amplitude (k ||| 2 ^ t) := by
      rw [h.amplitude _ hpartner, if_neg]
      rw [(visitedAt_eq_iff hbit).mpr (.inr rfl)]
      omega
    refine ⟨by simp [h.size], fun q hq => ?_⟩
    dsimp only
    rw [getD_set_set (h.size ▸ hk) (h.size ▸ hpartner), hzero, hone]
    by_cases hat : visitedAt t q = k
    · rw [if_pos (show visitedAt t q < k + 1 by omega), amplitude_transform hq,
        ← holds_of_visitedAt hc q, hat, hholds, if_pos rfl]
      rcases (visitedAt_eq_iff hbit).mp hat with rfl | rfl
      · rw [if_neg hne, if_pos rfl, hbit, if_neg Bool.false_ne_true]
      · rw [if_pos rfl, hset, if_pos rfl, hcleared]
    · rw [visitedAt_eq_iff hbit, not_or] at hat
      rw [if_neg hat.2, if_neg hat.1, h.amplitude q hq]
      have hother : visitedAt t q ≠ k := fun e =>
        ((visitedAt_eq_iff hbit).mp e).elim hat.1 hat.2
      have hsame : visitedAt t q < k + 1 ↔ visitedAt t q < k := by omega
      simp only [hsame]

theorem swept_foldl {k : ℕ} (hk : k ≤ v.amplitudes.size) :
    Swept m t c v k ((List.range k).foldl (StateVector.visit m t c) v.amplitudes) := by
  induction k with
  | zero => exact ⟨rfl, fun q _ => by rw [if_neg (Nat.not_lt_zero _)]; rfl⟩
  | succ k ih =>
    rw [List.range_succ, List.foldl_append, List.foldl_cons, List.foldl_nil]
    exact (ih (by omega)).visit hsize hlt hc (by omega)

/-- **The pairs visited one after the other, in place**, come to the matrix applied to the old
amplitudes of all pairs at once. -/
theorem transform_eq_sweep : v.transform m t c = v.sweep m t c := by
  have hswept := swept_foldl (m := m) hsize hlt hc le_rfl
  have hkept : (v.transform m t c).amplitudes.size = v.amplitudes.size := by simp [transform]
  have hamplitudes : (v.transform m t c).amplitudes = (v.sweep m t c).amplitudes := by
    refine Array.ext (hkept.trans hswept.size.symm) fun q hq hq' => ?_
    have hlt' : q < v.amplitudes.size := hkept ▸ hq
    have hat : visitedAt t q < v.amplitudes.size := by
      rw [hsize] at hlt' ⊢
      unfold visitedAt
      split_ifs
      · exact xor_two_pow_lt hlt hlt'
      · exact hlt'
    have hfinal := hswept.amplitude q hlt'
    rw [if_pos hat, amplitude, Array.getD, Array.getD, dif_pos hq] at hfinal
    exact hfinal.symm.trans (dif_pos hq')
  exact congrArg (fun as => (⟨v.wires, as⟩ : StateVector R)) hamplitudes

end sweep

/-! ### The action of a gate -/

theorem outcome_of_refused {v : StateVector R} {g : Gate R} {e : Failure}
    (h : v.applyGate g = .error e) (draws : Draws R) :
    (Simulation.applyGate g).outcome ⟨v, draws⟩ = (.error e, ⟨v, draws⟩) := by
  rw [Simulation.applyGate, Attempt.outcome_of, h]

/-- **What a gate does to a state vector**, whatever its list of controls. It is applied if and only
if its wires exist and its target is none of its controls. Then its pairs of amplitudes are
overwritten in place, which comes to this: where the controls admit a basis state, the row of the
matrix that the target selects is applied to the two old amplitudes that differ in the target, and
all other amplitudes stay. If no wire is asked for both values, and only then, the controls admit
just the basis states that meet each of them. A gate that is refused changes nothing. -/
theorem applyGate_transforms {v : StateVector R} (hsize : v.amplitudes.size = 2 ^ v.wires)
    (g : Gate R) :
    ((∃ v', v.applyGate g = .ok v') ↔ g.Addresses v.wires) ∧
    (∀ v', v.applyGate g = .ok v' →
      v'.wires = v.wires ∧ v'.amplitudes.size = 2 ^ v.wires ∧
      v' = v.sweep g.transform.matrix g.target (conditionOf g.controls) ∧
      ∀ i < 2 ^ v.wires, v'.amplitude i = if Admits g.controls i.testBit then
          if i.testBit g.target then
            g.transform.matrix.a10 * v.amplitude (i ^^^ 2 ^ g.target) +
              g.transform.matrix.a11 * v.amplitude i
          else
            g.transform.matrix.a00 * v.amplitude i +
              g.transform.matrix.a01 * v.amplitude (i ||| 2 ^ g.target)
        else v.amplitude i) ∧
    (Consistent g.controls ↔ ∀ b, Admits g.controls b ↔ Met g.controls b) ∧
    ∀ e draws, v.applyGate g = .error e →
      (Simulation.applyGate g).outcome ⟨v, draws⟩ = (.error e, ⟨v, draws⟩) := by
  refine ⟨?_, fun v' h => ?_, consistent_iff, fun e draws h => outcome_of_refused h draws⟩
  · constructor
    · exact fun ⟨_, h⟩ => (applyGate_eq_ok_iff.mp h).1
    · exact fun h => ⟨_, applyGate_eq_ok_iff.mpr ⟨h, rfl⟩⟩
  · obtain ⟨haddresses, rfl⟩ := applyGate_eq_ok_iff.mp h
    have hfree : (conditionOf g.controls).mask.testBit g.target = false := by
      rw [testBit_mask_conditionOf, decide_eq_false_iff_not]
      rintro ⟨c, hc, e⟩
      exact (haddresses.controls c hc).2 e
    refine ⟨rfl, by simp [transform, hsize],
      transform_eq_sweep hsize haddresses.target hfree, fun i hi => ?_⟩
    rw [amplitude_transform (hsize ▸ hi)]
    simp only [holds_conditionOf]

/-- A control that is given twice is as good as given once: the flip acts on the basis state in
which wire 0 is one and wire 2 is zero. -/
theorem applyGate_transforms_repeated : ∃ v' : StateVector ℝ,
    (basis 3 1 : StateVector ℝ).amplitudes.size = 2 ^ 3 ∧
    (basis 3 1 : StateVector ℝ).applyGate ⟨.flip, 1, [⟨0, true⟩, ⟨2, false⟩, ⟨0, true⟩]⟩ = .ok v' ∧
    Consistent [⟨0, true⟩, ⟨2, false⟩, ⟨0, true⟩] ∧ v'.amplitude 3 = 1 ∧ v'.amplitude 1 = 0 := by
  have hsize : (basis 3 1 : StateVector ℝ).amplitudes.size = 2 ^ 3 :=
    (shows_basis (R := ℝ) (show 1 < 2 ^ 3 by norm_num)).size
  obtain ⟨hiff, haction, -, -⟩ :=
    applyGate_transforms hsize ⟨.flip, 1, [⟨0, true⟩, ⟨2, false⟩, ⟨0, true⟩]⟩
  obtain ⟨v', hv'⟩ := hiff.mpr ⟨by decide, by decide⟩
  obtain ⟨-, -, -, hamplitude⟩ := haction v' hv'
  refine ⟨v', hsize, hv', by simp [Consistent], ?_, ?_⟩
  · rw [hamplitude 3 (by decide), if_pos (by decide), if_pos (by decide)]
    simp [Transform.matrix, basis, amplitude]
  · rw [hamplitude 1 (by decide), if_pos (by decide), if_neg (by decide)]
    simp [Transform.matrix, basis, amplitude]

/-- **Controls that no assignment meets can still act**: a flip that asks wire 0 for one and for
zero moves the amplitude of a basis state in which wire 0 is one. -/
theorem contradicting_controls_act : ∃ v' : StateVector ℝ,
    (basis 2 1 : StateVector ℝ).applyGate ⟨.flip, 1, [⟨0, true⟩, ⟨0, false⟩]⟩ = .ok v' ∧
    (∀ b, ¬ Met [⟨0, true⟩, ⟨0, false⟩] b) ∧
    v'.amplitude 1 ≠ (basis 2 1 : StateVector ℝ).amplitude 1 := by
  refine ⟨_, applyGate_eq_ok_iff.mpr ⟨⟨by decide, by decide⟩, rfl⟩, fun b h => ?_, ?_⟩
  · simp at h
  · have hlt : 1 < (basis 2 1 : StateVector ℝ).amplitudes.size := by simp [basis]
    have hholds : (conditionOf [⟨0, true⟩, ⟨0, false⟩]).holds 1 = true := by decide
    have hne : (0 : Amplitude ℝ) ≠ 1 := fun e => zero_ne_one (congrArg Amplitude.re e)
    rw [amplitude_transform hlt, hholds, if_pos rfl, if_neg (by decide)]
    simpa [Transform.matrix, basis, amplitude] using hne

end StateVector

end LatticeWalk
