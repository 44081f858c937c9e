import LatticeWalk.Proofs.Renaming

/-! # Simulations side by side

Two programs of which one is the other set into more wires are simulated with the same draws. Every
reset finds the same outcome in both, so that they end alike.

* `Attempt.Alike`: both succeed in states that are related, or both fail.
* `Simulation.Abreast`: the second state shows the wave of the first, set in.
* `Simulation.alike_run`: operations that follow others. -/

namespace LatticeWalk

namespace Attempt

variable {σ τ : Type} {rel : σ → τ → Prop}

/-- From related states both attempts succeed in related states, or both fail. -/
def Alike (rel : σ → τ → Prop) (x : Attempt σ Unit) (y : Attempt τ Unit) : Prop :=
  ∀ s t, rel s t →
    (∃ s' t', x.outcome s = (.ok (), s') ∧ y.outcome t = (.ok (), t') ∧ rel s' t') ∨
      ∃ e e' s' t', x.outcome s = (.error e, s') ∧ y.outcome t = (.error e', t')

theorem alike_pure : Alike rel (pure ()) (pure ()) := fun s t h => .inl ⟨s, t, rfl, rfl, h⟩

theorem Alike.bind {x x' : Attempt σ Unit} {y y' : Attempt τ Unit} (h : Alike rel x y)
    (h' : Alike rel x' y') : Alike rel (x >>= fun _ => x') (y >>= fun _ => y') := by
  intro s t hst
  rw [outcome_bind, outcome_bind]
  rcases h s t hst with ⟨s1, t1, hx, hy, hst1⟩ | ⟨e, e', s1, t1, hx, hy⟩
  · rw [hx, hy]
    exact h' s1 t1 hst1
  · rw [hx, hy]
    exact .inr ⟨e, e', s1, t1, rfl, rfl⟩

end Attempt

open Attempt (Alike)

/-! ### Measuring a wire -/

namespace StateVector

theorem zipIdx_amplitudes (v : StateVector ℝ) : v.amplitudes.toList.zipIdx =
    (List.range v.amplitudes.size).map fun i => (v.amplitude i, i) := by
  refine List.ext_getElem (by simp) fun i hi hi' => ?_
  have hlt : i < v.amplitudes.size := by simpa using hi
  simp [StateVector.amplitude, Array.getD, hlt]

theorem oneProbability_eq (v : StateVector ℝ) (q : ℕ) : v.oneProbability q =
    ∑ i ∈ Finset.range v.amplitudes.size with i.testBit q, (v.amplitude i).weight := by
  calc v.oneProbability q
      = (((List.range v.amplitudes.size).filter (·.testBit q)).map
          fun i => (v.amplitude i).weight).sum := by
        rw [StateVector.oneProbability, Scalar.sum_eq, zipIdx_amplitudes, List.filter_map,
          List.map_map]
        rfl
    _ = ∑ i ∈ Finset.range v.amplitudes.size with i.testBit q, (v.amplitude i).weight := by
        rw [← List.sum_toFinset _ (List.nodup_range.filter _), List.toFinset_filter,
          List.toFinset_range]

theorem norm_eq (v : StateVector ℝ) :
    v.norm = ∑ i ∈ Finset.range v.amplitudes.size, (v.amplitude i).weight := by
  have hlist : v.probabilities =
      (List.range v.amplitudes.size).map fun i => (v.amplitude i).weight := by
    calc v.probabilities
        = v.amplitudes.toList.zipIdx.map fun a => a.1.weight := by
          rw [probabilities, ← List.zipIdx_map_fst 0 v.amplitudes.toList, List.map_map]
          simp
      _ = (List.range v.amplitudes.size).map fun i => (v.amplitude i).weight := by
          rw [zipIdx_amplitudes, List.map_map]
          rfl
  rw [norm, hlist, Scalar.sum_eq, ← List.sum_toFinset _ List.nodup_range, List.toFinset_range]

theorem Shows.oneProbability {v : StateVector ℝ} {ψ : Wave ℝ} (hv : v.Shows ψ) (q : ℕ) :
    v.oneProbability q =
      ∑ i ∈ Finset.range (2 ^ v.wires) with i.testBit q, (ψ i.testBit).weight := by
  rw [oneProbability_eq, hv.size]
  refine Finset.sum_congr rfl fun i hi => ?_
  rw [hv.amplitude i (Finset.mem_range.mp (Finset.mem_filter.mp hi).1)]

end StateVector

namespace Simulation

/-- **Two simulations abreast**: the draws that are left are the same, and the second state shows
what the first does, set into more wires. -/
structure Abreast (f : ℕ → ℕ) (cs : List Control) (n n' : ℕ) (s s' : Simulation ℝ) : Prop where
  wires : s.vector.wires = n
  wires' : s'.vector.wires = n'
  draws : s'.draws = s.draws
  shows : ∃ ψ : Wave ℝ, s.vector.Shows ψ ∧ s'.vector.Shows (ψ.latched f cs)

variable {f : ℕ → ℕ} {cs : List Control} {n n' : ℕ} (hr : Renaming f cs n n')
include hr

theorem Abreast.oneProbability {s s' : Simulation ℝ} (h : Abreast f cs n n' s s') (q : ℕ) :
    s'.vector.oneProbability (f q) = s.vector.oneProbability q := by
  obtain ⟨ψ, hψ, hψ'⟩ := h.shows
  rw [hψ'.oneProbability, h.wires', hr.sum_weight, hψ.oneProbability, h.wires]

theorem Abreast.amplitude {s s' : Simulation ℝ} (h : Abreast f cs n n' s s') {i : ℕ}
    (hi : i < 2 ^ n') : s'.vector.amplitude i =
      if Met cs i.testBit then s.vector.amplitude (index n (i.testBit ∘ f)) else 0 := by
  obtain ⟨ψ, hψ, hψ'⟩ := h.shows
  rw [hψ'.amplitude i (h.wires'.symm ▸ hi), hψ.amplitude _ (h.wires.symm ▸ index_lt _ _),
    hr.testBit_lower hi]
  rfl

/-! ### Gates -/

theorem alike_applyGate {g g' : Gate ℝ} (h : g.Follows f cs g') (hg : g.Fits n)
    (hg' : g'.Fits n') : Alike (Abreast f cs n n') (applyGate g) (applyGate g') := by
  intro s s' hs
  obtain ⟨ψ, hψ, hψ'⟩ := hs.shows
  obtain ⟨v, hv, hwires, hshows⟩ := hψ.applyGate (hs.wires.symm ▸ hg)
  obtain ⟨v', hv', hwires', hshows'⟩ := hψ'.applyGate (hs.wires'.symm ▸ hg')
  rw [h.act_latched hr] at hshows'
  refine .inl ⟨⟨v, s.draws⟩, ⟨v', s'.draws⟩, ?_, ?_, ⟨hwires.trans hs.wires,
    hwires'.trans hs.wires', hs.draws, _, hshows, hshows'⟩⟩
  · simp only [applyGate, Attempt.outcome_of, hv]
  · simp only [applyGate, Attempt.outcome_of, hv']

theorem alike_applyGates {gs gs' : List (Gate ℝ)} (h : gs.Forall₂ (Gate.Follows f cs) gs')
    (hgs : ∀ g ∈ gs, g.Fits n) (hgs' : ∀ g ∈ gs', g.Fits n') :
    Alike (Abreast f cs n n') (applyGates gs) (applyGates gs') := by
  induction h with
  | nil => exact Attempt.alike_pure
  | cons hg _ ih =>
    rw [List.forall_mem_cons] at hgs hgs'
    exact (alike_applyGate hr hg hgs.1 hgs'.1).bind (ih hgs.2 hgs'.2)

/-! ### Resets -/

/-- **A reset finds the same outcome in both.** -/
theorem alike_resetWire {q : ℕ} (hq : q < n) :
    Alike (Abreast f cs n n') (resetWire q) (resetWire (f q)) := by
  intro s s' hs
  have hwire : s.vector.checkWire q = .ok () := if_pos (hs.wires.symm ▸ hq)
  have hwire' : s'.vector.checkWire (f q) = .ok () := if_pos (hs.wires'.symm ▸ (hr.lt_iff q).mpr hq)
  simp only [resetWire, Attempt.outcome_of, hwire, hwire', hs.oneProbability hr, hs.draws]
  -- what was measured, and the draws that are left
  generalize (if negligible < s.vector.oneProbability q then
    (decide (s.draws.next.1 < s.vector.oneProbability q), s.draws.next.2)
    else (false, s.draws)) = measured
  set kept := if measured.1 then s.vector.oneProbability q else 1 - s.vector.oneProbability q
  by_cases hkept : kept ≤ negligible
  · rw [if_pos hkept, if_pos hkept]
    exact .inr ⟨_, _, _, _, rfl, rfl⟩
  · rw [if_neg hkept, if_neg hkept]
    obtain ⟨ψ, hψ, hψ'⟩ := hs.shows
    have hshows := hψ.collapse (hs.wires.symm ▸ hq) measured.1 kept
    have hshows' := hψ'.collapse (hs.wires'.symm ▸ (hr.lt_iff q).mpr hq) measured.1 kept
    rw [Wave.collapse_latched hr, Wave.smul_latched] at hshows'
    exact .inl ⟨_, _, rfl, rfl, ⟨hs.wires, hs.wires', rfl, _, hshows, hshows'⟩⟩

theorem alike_resetWires : ∀ {qs : List ℕ}, (∀ q ∈ qs, q < n) →
    Alike (Abreast f cs n n') (resetWires qs) (resetWires (qs.map f))
  | [], _ => Attempt.alike_pure
  | q :: qs, hqs => by
    rw [List.forall_mem_cons] at hqs
    exact (alike_resetWire hr hqs.1).bind (alike_resetWires hqs.2)

/-! ### Operations -/

omit hr in
theorem apply_eq (op : Operation ℝ) :
    apply op = (applyGates op.gates >>= fun _ => resetWires op.targets) := by
  cases op <;> simp [apply, Operation.gates, Operation.targets, applyGates, resetWires]

/-- **Simulations of operations that follow others stay abreast**, or fail both. -/
theorem alike_run {ops ops' : List (Operation ℝ)} (h : ops.Forall₂ (Operation.Follows f cs) ops')
    (hops : ∀ op ∈ ops, op.Within n) (hops' : ∀ op ∈ ops', op.Within n') :
    Alike (Abreast f cs n n') (run ops) (run ops') := by
  induction h with
  | nil => exact Attempt.alike_pure
  | @cons op op' _ _ hop _ ih =>
    rw [List.forall_mem_cons] at hops hops'
    have htargets : ∀ q ∈ op.targets, q < n := fun q hq =>
      hops.1.wires q (op.targets_subset_wires hq)
    have hfirst : Alike (Abreast f cs n n') (apply op) (apply op') := by
      rw [apply_eq, apply_eq, hop.targets]
      exact (alike_applyGates hr hop.gates hops.1.gates hops'.1.gates).bind
        (alike_resetWires hr htargets)
    exact hfirst.bind (ih hops.2 hops'.2)

end Simulation

end LatticeWalk
