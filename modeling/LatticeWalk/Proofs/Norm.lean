import LatticeWalk.Proofs.Abreast
import LatticeWalk.Proofs.Calls
import LatticeWalk.Proofs.Inverse
import LatticeWalk.Proofs.Sampling

/-! # The norm of a state

In exact arithmetic the probabilities of a simulated state add up to one from the start to the end
of a program, whatever is measured on the way.

* `Transform.Standard.isometric`: the matrices of the library keep the weights of two amplitudes
  together.
* `StateVector.norm_transform`: so a gate keeps the norm, under any controls apart from its target.
* `StateVector.norm_collapse`: a measured wire leaves the share of the norm that it is scaled by.
* `Operation.OfLibrary`: gates of the library, its operators bound to wires, resets and barriers.
* `Simulation.normal_run`: a run of these, also one that fails, ends in a state of norm one.
* `Simulation.run_keeps_norm`: what this means for the check of the norm, and for wires that are
  reset. -/

namespace LatticeWalk

/-! ### Weights -/

namespace Amplitude

theorem ofReal_weight (a : Amplitude ℝ) : ofReal a.weight = a.conj * a := by
  ext
  · simp [ofReal, weight]
  · simp [ofReal]
    ring

theorem ofReal_add (r s : ℝ) : ofReal (r + s) = ofReal r + ofReal s := by
  ext <;> simp [ofReal]

theorem conj_add (a b : Amplitude ℝ) : (a + b).conj = a.conj + b.conj := by
  ext
  · simp
  · simp
    ring

theorem weight_scale (a : Amplitude ℝ) (s : ℝ) : (a.scale s).weight = a.weight * (s * s) := by
  simp only [weight, re_scale, im_scale]
  ring

theorem weight_zero : (0 : Amplitude ℝ).weight = 0 := by simp [weight]

end Amplitude

/-- The matrix keeps the weights of two amplitudes together. -/
def GateMatrix.Isometric (m : GateMatrix ℝ) : Prop :=
  ∀ x y : Amplitude ℝ,
    (m.a00 * x + m.a01 * y).weight + (m.a10 * x + m.a11 * y).weight = x.weight + y.weight

namespace Transform

theorem matrix_adjoint (t : Transform ℝ) : t.adjoint.matrix = t.matrix.adjoint := by
  cases t with
  | flip => simp only [adjoint, matrix, GateMatrix.adjoint]; congr 1 <;> ext <;> simp
  | hadamard => simp only [adjoint, matrix, GateMatrix.adjoint]; congr 1 <;> ext <;> simp
  | phase angle => simp only [adjoint, matrix, GateMatrix.adjoint]; congr 1 <;> ext <;> simp
  | unitary m => rfl

/-- **What an adjoint undoes keeps weights.** -/
theorem Undone.isometric {t : Transform ℝ} (h : t.Undone) : t.matrix.Isometric := by
  intro x y
  obtain ⟨h00, h01, h10, h11⟩ := h
  simp only [matrix_adjoint, GateMatrix.adjoint] at h00 h01 h10 h11
  generalize t.matrix = m at *
  have hsum : Amplitude.ofReal ((m.a00 * x + m.a01 * y).weight + (m.a10 * x + m.a11 * y).weight) =
      Amplitude.ofReal (x.weight + y.weight) := by
    simp only [Amplitude.ofReal_add, Amplitude.ofReal_weight, Amplitude.conj_add,
      Amplitude.conj_mul]
    linear_combination (x.conj * x) * h00 + (x.conj * y) * h01 + (y.conj * x) * h10 +
      (y.conj * y) * h11
  exact congrArg Amplitude.re hsum

theorem Standard.isometric {t : Transform ℝ} (h : t.Standard) : t.matrix.Isometric :=
  h.undone.isometric

end Transform

/-! ### Sums over basis states -/

section sums
variable {k t : ℕ} (ht : t < k)
include ht

theorem xor_two_pow_lt {i : ℕ} (hi : i < 2 ^ k) : i ^^^ 2 ^ t < 2 ^ k :=
  Nat.xor_lt_two_pow hi (Nat.pow_lt_pow_right one_lt_two ht)

theorem sum_xor (f : ℕ → ℝ) :
    ∑ i ∈ Finset.range (2 ^ k), f (i ^^^ 2 ^ t) = ∑ i ∈ Finset.range (2 ^ k), f i := by
  have hmem : ∀ i ∈ Finset.range (2 ^ k), i ^^^ 2 ^ t ∈ Finset.range (2 ^ k) := fun i hi =>
    Finset.mem_range.mpr (xor_two_pow_lt ht (Finset.mem_range.mp hi))
  exact Finset.sum_nbij' (· ^^^ 2 ^ t) (· ^^^ 2 ^ t) hmem hmem
    (fun i _ => Nat.xor_xor_cancel_right i _) (fun i _ => Nat.xor_xor_cancel_right i _) fun _ _ => rfl

/-- Sums agree that agree on all pairs of basis states which differ in one bit. -/
theorem sum_congr_of_pairs {f g : ℕ → ℝ}
    (h : ∀ i < 2 ^ k, i.testBit t = false →
      f i + f (i ^^^ 2 ^ t) = g i + g (i ^^^ 2 ^ t)) :
    ∑ i ∈ Finset.range (2 ^ k), f i = ∑ i ∈ Finset.range (2 ^ k), g i := by
  have hpairs : ∀ i < 2 ^ k, f i + f (i ^^^ 2 ^ t) = g i + g (i ^^^ 2 ^ t) := by
    intro i hi
    cases hbit : i.testBit t with
    | false => exact h i hi hbit
    | true =>
      have hpair := h (i ^^^ 2 ^ t) (xor_two_pow_lt ht hi) (by simp [Nat.testBit_xor, hbit])
      rw [Nat.xor_xor_cancel_right] at hpair
      linarith
  have hdouble : ∑ i ∈ Finset.range (2 ^ k), (f i + f (i ^^^ 2 ^ t)) =
      ∑ i ∈ Finset.range (2 ^ k), (g i + g (i ^^^ 2 ^ t)) :=
    Finset.sum_congr rfl fun i hi => hpairs i (Finset.mem_range.mp hi)
  rw [Finset.sum_add_distrib, Finset.sum_add_distrib, sum_xor ht, sum_xor ht] at hdouble
  linarith

end sums

theorem or_two_pow_of_not {i t : ℕ} (h : i.testBit t = false) : i ||| 2 ^ t = i ^^^ 2 ^ t := by
  refine Nat.eq_of_testBit_eq fun q => ?_
  rw [Nat.testBit_or, Nat.testBit_xor, Nat.testBit_two_pow]
  by_cases hq : t = q
  · subst hq
    simp [h]
  · simp [hq]

/-! ### Gates -/

namespace Condition

theorem holds_xor {c : Condition} {t : ℕ} (h : c.mask.testBit t = false) (i : ℕ) :
    c.holds (i ^^^ 2 ^ t) = c.holds i := by
  rw [Bool.eq_iff_iff, holds_iff, holds_iff]
  refine forall_congr' fun q => ?_
  by_cases hq : t = q
  · subst hq
    simp [h]
  · simp [Nat.testBit_xor, hq]

end Condition

namespace StateVector

theorem lt_of_checkWire {R : Type} {v : StateVector R} {q : ℕ} {u : Unit}
    (h : v.checkWire q = .ok u) : q < v.wires := by
  unfold checkWire at h
  split_ifs at h with hlt
  · exact hlt
  · cases h

theorem addControl_cases {R : Type} {v : StateVector R} {t : ℕ} {c c' : Condition} {d : Control}
    (h : v.addControl t c d = .ok c') : d.wire ≠ t ∧ c' = c.ask d := by
  obtain ⟨_, hwire, hrest⟩ := Except.bind_eq_ok.mp h
  by_cases hne : d.wire = t
  · rw [if_pos hne] at hrest
    cases hrest
  · rw [addControl_eq_ok (lt_of_checkWire hwire) hne] at h
    exact ⟨hne, (Except.ok.inj h).symm⟩

theorem mask_of_foldlM {R : Type} {v : StateVector R} {t : ℕ} : ∀ {ds : List Control}
    {c c' : Condition}, ds.foldlM (v.addControl t) c = .ok c' → c.mask.testBit t = false →
    c'.mask.testBit t = false
  | [], _, _, h, hc => by
    cases h
    exact hc
  | d :: ds, c, c', h, hc => by
    rw [List.foldlM_cons] at h
    obtain ⟨c1, hfirst, h⟩ := Except.bind_eq_ok.mp h
    obtain ⟨hne, rfl⟩ := addControl_cases hfirst
    refine mask_of_foldlM h ?_
    rw [Condition.testBit_mask_ask, hc]
    simpa using hne

/-- A gate is applied to a wire that exists and that its controls do not read. -/
theorem applyGate_eq_ok {R : Type} [Scalar R] {v v' : StateVector R} {g : Gate R}
    (h : v.applyGate g = .ok v') : g.target < v.wires ∧ ∃ c : Condition,
      c.mask.testBit g.target = false ∧ v' = v.transform g.transform.matrix g.target c := by
  obtain ⟨c, hc, h⟩ := Except.bind_eq_ok.mp h
  obtain ⟨_, htarget, hfold⟩ := Except.bind_eq_ok.mp hc
  exact ⟨lt_of_checkWire htarget, c, mask_of_foldlM hfold (Nat.zero_testBit _),
    (Except.ok.inj h).symm⟩

variable {v : StateVector ℝ} {k t : ℕ} (hsize : v.amplitudes.size = 2 ^ k) (ht : t < k)
include hsize ht

/-- **A gate keeps the norm.** The basis states come in pairs that differ in the target, and the
matrix is applied to both or to none of a pair. -/
theorem norm_transform {m : GateMatrix ℝ} (hm : m.Isometric) {c : Condition}
    (hc : c.mask.testBit t = false) : (v.transform m t c).norm = v.norm := by
  have hsize' : (v.transform m t c).amplitudes.size = 2 ^ k := by simp [transform, hsize]
  rw [norm_eq, norm_eq, hsize, hsize']
  refine sum_congr_of_pairs ht fun i hi hbit => ?_
  have hj := xor_two_pow_lt ht hi
  have hjbit : (i ^^^ 2 ^ t).testBit t = true := by simp [Nat.testBit_xor, hbit]
  have hlow : (v.transform m t c).amplitude i =
      if c.holds i then m.a00 * v.amplitude i + m.a01 * v.amplitude (i ^^^ 2 ^ t)
      else v.amplitude i := by
    rw [transform, amplitude_mapIdx (hsize.symm ▸ hi), hbit, if_neg Bool.false_ne_true, Nat.pow_eq,
      or_two_pow_of_not hbit]
  have hhigh : (v.transform m t c).amplitude (i ^^^ 2 ^ t) =
      if c.holds i then m.a10 * v.amplitude i + m.a11 * v.amplitude (i ^^^ 2 ^ t)
      else v.amplitude (i ^^^ 2 ^ t) := by
    rw [transform, amplitude_mapIdx (hsize.symm ▸ hj), Condition.holds_xor hc, if_pos hjbit,
      Nat.pow_eq, Nat.xor_xor_cancel_right]
  rw [hlow, hhigh]
  split_ifs
  · exact hm _ _
  · rfl

/-- **A measured wire leaves its share of the norm.** -/
theorem norm_collapse {one : Bool} {kept : ℝ} (hpos : 0 < kept) :
    (v.collapse t one kept).norm =
      (if one then v.oneProbability t else v.norm - v.oneProbability t) / kept := by
  have hsize' : (v.collapse t one kept).amplitudes.size = 2 ^ k := by simp [collapse, hsize]
  have hscale : 1 / Scalar.sqrt kept * (1 / Scalar.sqrt kept) = 1 / kept := by
    show 1 / Real.sqrt kept * (1 / Real.sqrt kept) = 1 / kept
    rw [div_mul_div_comm, Real.mul_self_sqrt hpos.le, one_mul]
  -- what is left of the wire at one, moved to where it is zero
  have hone : ∑ i ∈ Finset.range (2 ^ k),
      (if i.testBit t then 0 else (v.amplitude (i ||| 2 ^ t)).weight) = v.oneProbability t := by
    rw [oneProbability_eq, hsize, Finset.sum_filter,
      ← sum_xor ht fun i => if i.testBit t then (v.amplitude i).weight else 0]
    refine Finset.sum_congr rfl fun i _ => ?_
    cases hbit : i.testBit t with
    | false => simp [Nat.testBit_xor, hbit, or_two_pow_of_not hbit]
    | true => simp [Nat.testBit_xor, hbit]
  have hzero : ∑ i ∈ Finset.range (2 ^ k),
      (if i.testBit t then 0 else (v.amplitude i).weight) = v.norm - v.oneProbability t := by
    rw [norm_eq, oneProbability_eq, hsize, Finset.sum_filter, ← Finset.sum_sub_distrib]
    refine Finset.sum_congr rfl fun i _ => ?_
    cases i.testBit t <;> simp
  have hshare : ∀ i ∈ Finset.range (2 ^ k), ((v.collapse t one kept).amplitude i).weight =
      (if i.testBit t then 0
        else (if one then v.amplitude (i ||| 2 ^ t) else v.amplitude i).weight) * (1 / kept) := by
    intro i hi
    rw [collapse, amplitude_mapIdx (hsize.symm ▸ Finset.mem_range.mp hi), Nat.pow_eq]
    split_ifs
    · rw [Amplitude.weight_zero, zero_mul]
    · rw [Amplitude.weight_scale, hscale]
    · rw [Amplitude.weight_scale, hscale]
  rw [norm_eq, hsize', Finset.sum_congr rfl hshare, ← Finset.sum_mul, mul_one_div]
  cases one with
  | false => exact congrArg (· / kept) hzero
  | true => exact congrArg (· / kept) hone

end StateVector

/-! ### Operations of the library -/

namespace Operation

/-- The wires that an operation changes: the targets of its gates and the wires that it resets. -/
def acted {R : Type} (op : Operation R) : List ℕ := op.gates.map Gate.target ++ op.targets

/-- **The operations that programs are made of**: flips, Hadamards, phases and rotations of a wire
under any controls, operators of the library, inverted and controlled in any way, on wires of the
program, resets and barriers. -/
inductive OfLibrary : Operation ℝ → Prop
  | gate {g} (h : g.transform.Standard) : OfLibrary (.gate g)
  | operator {op wires operation} (h : Operator.Derived op)
      (hbind : op.bind wires = .ok operation) : OfLibrary operation
  | reset (targets) : OfLibrary (.reset targets)
  | barrier : OfLibrary .barrier

theorem OfLibrary.standard {op : Operation ℝ} (h : op.OfLibrary) :
    ∀ g ∈ op.gates, g.transform.Standard := by
  cases h with
  | gate hg =>
    intro g' hg'
    rwa [List.mem_singleton.mp hg']
  | operator hop hbind =>
    rw [(Operator.eq_of_bind hbind).2]
    intro g hg
    obtain ⟨g', hg', rfl⟩ := List.mem_map.mp hg
    exact hop.paired.standard g' hg'
  | reset targets => exact nofun
  | barrier => exact nofun

end Operation

/-- The state vector has an amplitude for each value of the wires that the program changes. Its size
is taken from the number of wires modulo `2 ^ 32`, so that only programs on more wires than that can
fall outside (`Circuit.placed_of_lt`). -/
def Circuit.Placed {R : Type} (c : Circuit R) : Prop :=
  ∀ op ∈ c.operations, ∀ q ∈ op.acted, q < c.width → q < c.width % 2 ^ 32

theorem Circuit.placed_of_lt {R : Type} {c : Circuit R} (h : c.width < 2 ^ 32) : c.Placed := by
  intro op _ q _ hq
  rwa [Nat.mod_eq_of_lt h]

/-! ### Runs -/

/-- A state of norm one on `n` wires, with an amplitude for each value of the first `k`. -/
structure StateVector.Normal (n k : ℕ) (v : StateVector ℝ) : Prop where
  wires : v.wires = n
  size : v.amplitudes.size = 2 ^ k
  norm : v.norm = 1

theorem StateVector.norm_congr {v w : StateVector ℝ} (h : v.amplitudes = w.amplitudes) :
    v.norm = w.norm := by
  unfold norm probabilities
  rw [h]

namespace Simulation

/-- The attempt ends in a state of norm one. -/
def Lands (n k : ℕ) (_ s : Simulation ℝ) : Prop := s.vector.Normal n k

variable {n k : ℕ} {s : Simulation ℝ}

theorem normal_start {draws : Draws ℝ} (h : start n draws = .ok s) :
    s.vector.Normal n (n % 2 ^ 32) := by
  unfold start StateVector.zeros Word.bit? at h
  dsimp only at h
  split_ifs at h
  · cases h
  · cases h
    have hbasis := StateVector.norm_basis (n := n % 2 ^ 32) (Nat.two_pow_pos _)
    exact ⟨rfl, by simp, (StateVector.norm_congr rfl).trans hbasis⟩
  · cases h

theorem normal_applyGate {g : Gate ℝ} (hg : g.transform.Standard)
    (hk : g.target < n → g.target < k) (hs : s.vector.Normal n k) :
    (applyGate g).Leads (Lands n k) s := by
  unfold Attempt.Leads applyGate
  rw [Attempt.outcome_of]
  rcases hgate : s.vector.applyGate g with e | v
  · exact hs
  · obtain ⟨hlt, c, hc, rfl⟩ := StateVector.applyGate_eq_ok hgate
    have ht := hk (hs.wires ▸ hlt)
    refine ⟨hs.wires, by simp [StateVector.transform, hs.size], ?_⟩
    rw [StateVector.norm_transform hs.size ht hg.isometric hc, hs.norm]

theorem normal_applyGates : ∀ {gs : List (Gate ℝ)} {s : Simulation ℝ},
    (∀ g ∈ gs, g.transform.Standard) → (∀ g ∈ gs, g.target < n → g.target < k) →
    s.vector.Normal n k → (applyGates gs).Leads (Lands n k) s
  | [], _, _, _, hs => hs
  | g :: gs, _, hg, hk, hs =>
    .bind (fun _ h => h) (normal_applyGate (hg g (by simp)) (hk g (by simp)) hs) fun _ _ _ hs' =>
      normal_applyGates (fun g' hg' => hg g' (by simp [hg'])) (fun g' hg' => hk g' (by simp [hg']))
        hs'

/-- **A measurement leaves a state of norm one**: what is kept is scaled by its own share. -/
theorem normal_resetWire {q : ℕ} (hk : q < n → q < k) (hs : s.vector.Normal n k) :
    (resetWire q).Leads (Lands n k) s := by
  unfold Attempt.Leads
  by_cases hq : q < s.vector.wires
  · obtain ⟨one, kept, draws, hkept, hrun⟩ := outcome_resetWire hq
    rw [hrun]
    split_ifs with hempty
    · exact hs
    · have hpos := negligible_pos.trans (not_le.mp hempty)
      refine ⟨hs.wires, by simp [StateVector.collapse, hs.size], ?_⟩
      rw [StateVector.norm_collapse hs.size (hk (hs.wires ▸ hq)) hpos, hs.norm, ← hkept,
        div_self hpos.ne']
  · rw [outcome_resetWire_of_le (not_lt.mp hq)]
    exact hs

theorem normal_resetWires : ∀ {qs : List ℕ} {s : Simulation ℝ}, (∀ q ∈ qs, q < n → q < k) →
    s.vector.Normal n k → (resetWires qs).Leads (Lands n k) s
  | [], _, _, hs => hs
  | q :: qs, _, hk, hs =>
    .bind (fun _ h => h) (normal_resetWire (hk q (by simp)) hs) fun _ _ _ hs' =>
      normal_resetWires (fun q' hq' => hk q' (by simp [hq'])) hs'

theorem normal_apply {op : Operation ℝ} (hop : op.OfLibrary)
    (hk : ∀ q ∈ op.acted, q < n → q < k) (hs : s.vector.Normal n k) :
    (apply op).Leads (Lands n k) s := by
  rw [apply_eq]
  refine .bind (fun _ h => h) (normal_applyGates hop.standard (fun g hg => ?_) hs) fun _ _ _ hs' =>
    normal_resetWires (fun q hq => hk q (List.mem_append_right _ hq)) hs'
  exact hk g.target (List.mem_append_left _ (List.mem_map_of_mem hg))

/-- **A run ends in a state of norm one**, whether it succeeds or not. -/
theorem normal_run : ∀ {ops : List (Operation ℝ)} {s : Simulation ℝ}, (∀ op ∈ ops, op.OfLibrary) →
    (∀ op ∈ ops, ∀ q ∈ op.acted, q < n → q < k) → s.vector.Normal n k →
    (run ops).Leads (Lands n k) s
  | [], _, _, _, hs => hs
  | op :: ops, _, hops, hk, hs =>
    .bind (fun _ h => h) (normal_apply (hops op (by simp)) (hk op (by simp)) hs) fun _ _ _ hs' =>
      normal_run (fun op' hop' => hops op' (by simp [hop'])) (fun op' hop' => hk op' (by simp [hop']))
        hs'

end Simulation

/-! ### Wires that are reset -/

namespace StateVector

/-- No basis state in which the wire is one has an amplitude. -/
def Cleared (v : StateVector ℝ) (q : ℕ) : Prop := ∀ i, i.testBit q = true → v.amplitude i = 0

theorem amplitude_of_le {v : StateVector ℝ} {i : ℕ} (h : v.amplitudes.size ≤ i) :
    v.amplitude i = 0 := by
  simp [amplitude, Array.getD, Nat.not_lt.mpr h]

theorem amplitude_collapse (v : StateVector ℝ) (q : ℕ) (one : Bool) (kept : ℝ) (i : ℕ) :
    (v.collapse q one kept).amplitude i = 0 ∨ i.testBit q = false ∧
      (v.collapse q one kept).amplitude i =
        (if one then v.amplitude (i ||| 2 ^ q) else v.amplitude i).scale
          (1 / Scalar.sqrt kept) := by
  by_cases hi : i < v.amplitudes.size
  · rw [collapse, amplitude_mapIdx hi, Nat.pow_eq]
    cases i.testBit q with
    | true => exact .inl rfl
    | false => exact .inr ⟨rfl, rfl⟩
  · exact .inl (amplitude_of_le (by simpa [collapse] using hi))

theorem cleared_collapse (v : StateVector ℝ) (q : ℕ) (one : Bool) (kept : ℝ) :
    (v.collapse q one kept).Cleared q := by
  intro i hi
  rcases v.amplitude_collapse q one kept i with h | ⟨hbit, -⟩
  · exact h
  · rw [hi] at hbit
    cases hbit

theorem Cleared.collapse {v : StateVector ℝ} {p : ℕ} (h : v.Cleared p) (q : ℕ) (one : Bool)
    (kept : ℝ) : (v.collapse q one kept).Cleared p := by
  intro i hi
  rcases v.amplitude_collapse q one kept i with hzero | ⟨-, heq⟩
  · exact hzero
  · have hset : (i ||| 2 ^ q).testBit p = true := by simp [Nat.testBit_or, hi]
    rw [heq, h i hi, h _ hset, ite_self]
    ext <;> simp

end StateVector

namespace Simulation

theorem cleared_resetWires : ∀ {qs : List ℕ} {s s' : Simulation ℝ},
    (resetWires qs).outcome s = (.ok (), s') →
    ∀ q, q ∈ qs ∨ s.vector.Cleared q → s'.vector.Cleared q
  | [], _, _, h, _, hq => by
    cases h
    exact hq.resolve_left List.not_mem_nil
  | p :: qs, s, s', h, q, hq => by
    obtain ⟨_, s1, hfirst, hrest⟩ := Attempt.outcome_bind_eq_ok h
    obtain ⟨-, one, kept, -, hs1⟩ := resetWire_eq_ok hfirst
    refine cleared_resetWires hrest q ?_
    rw [hs1]
    rcases hq with hq | hq
    · rcases List.mem_cons.mp hq with rfl | hq
      · exact .inr (s.vector.cleared_collapse q one kept)
      · exact .inl hq
    · exact .inr (hq.collapse p one kept)

/-- **Evolution keeps the norm.** Whatever numbers are drawn, the state of a program of the library
has norm one behind every part of the program, also behind one that fails. So the check of the norm
accepts what comes out of a program, and with resets no less than without. Behind a reset no
amplitude is left in which one of its wires is set. -/
theorem run_keeps_norm {c : Circuit ℝ} (hops : ∀ op ∈ c.operations, op.OfLibrary)
    (hplaced : c.Placed) {draws : Draws ℝ} {s : Simulation ℝ}
    (hstart : start c.width draws = .ok s) :
    (∀ front rest, c.operations = front ++ rest →
      ((run front).outcome s).2.vector.norm = 1) ∧
    (∀ v draws', (Local.evolve c).outcome draws = (.ok v, draws') →
      ∀ tolerance : Option ℝ, (∀ t ∈ tolerance, 0 ≤ t) → v.checkNorm tolerance = .ok ()) ∧
    ∀ front targets rest s', c.operations = front ++ .reset targets :: rest →
      (run (front ++ [.reset targets])).outcome s = (.ok (), s') →
      ∀ q ∈ targets, ∀ i, i.testBit q = true → s'.vector.amplitude i = 0 := by
  have hnormal := normal_start hstart
  have hfront : ∀ front rest, c.operations = front ++ rest →
      ((run front).outcome s).2.vector.norm = 1 := by
    intro front rest h
    have hmem : ∀ op ∈ front, op ∈ c.operations := fun op hop => h ▸ List.mem_append_left _ hop
    exact (normal_run (fun op hop => hops op (hmem op hop)) (fun op hop => hplaced op (hmem op hop))
      hnormal).norm
  refine ⟨hfront, fun v draws' hevolve tolerance ht => ?_, fun front targets rest s' _ hrun => ?_⟩
  · refine StateVector.checkNorm_eq_ok ?_ ht
    have hwhole := hfront c.operations [] (List.append_nil _).symm
    simp only [Local.evolve, Attempt.outcome_of, hstart] at hevolve
    rcases hrun : (run c.operations).outcome s with ⟨e | _, s'⟩
    all_goals rw [hrun] at hevolve hwhole
    · cases hevolve
    · cases hevolve
      exact hwhole
  · rw [run_append] at hrun
    obtain ⟨_, s1, -, hreset⟩ := Attempt.outcome_bind_eq_ok hrun
    obtain ⟨_, s2, hreset, hnil⟩ := Attempt.outcome_bind_eq_ok hreset
    cases hnil
    exact fun q hq => cleared_resetWires hreset q (.inl hq)

/-- A phase whose control is named twice, the Fourier transform of a wire taken back where the other
is zero, and both wires reset. -/
noncomputable def twoWires : Circuit ℝ where
  layout := .after [("coin", .coin, 2)]
  operations := [.gate (.plain .hadamard 0), .gate ⟨.phase 1, 1, [⟨0, true⟩, ⟨0, false⟩]⟩,
    ((Operator.fourier 1).underPattern 1 "0" true none).bound [1, 0], .reset [0, 1]]

/-- The norm behind these operations, with the draws of a seed. -/
theorem run_keeps_norm_twoWires : ∃ s, start 2 (.ofSeed 7 : Draws ℝ) = .ok s ∧
    ((run twoWires.operations).outcome s).2.vector.norm = 1 := by
  have hcontrol : (Operator.fourier 1 : Operator ℝ).control 1 (some "0") true none =
      .ok ((Operator.fourier 1).underPattern 1 "0" true none) :=
    Operator.control_eq_ok.mpr ⟨BoundaryControl.isPattern_zero, rfl⟩
  have hops : ∀ op ∈ twoWires.operations, op.OfLibrary := by
    simp only [twoWires, List.forall_mem_cons]
    exact ⟨.gate .hadamard, .gate (.phase 1),
      .operator (.control (.fourier 1) hcontrol) (Operator.bind_eq_ok rfl), .reset _, nofun⟩
  have hstart := start_eq_ok (n := 2) two_pos (by norm_num) (.ofSeed 7 : Draws ℝ)
  obtain ⟨hnorm, -, -⟩ := run_keeps_norm (c := twoWires) hops
    (Circuit.placed_of_lt (show 2 < 2 ^ 32 by norm_num)) hstart
  exact ⟨_, hstart, hnorm twoWires.operations [] (List.append_nil _).symm⟩

end Simulation

end LatticeWalk
