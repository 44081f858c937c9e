import LatticeWalk.Proofs.Branches
import LatticeWalk.Proofs.Weaving

/-! # Simulations of programs woven together

A program and one that it is woven into reach the same states, but for the register. In exact
arithmetic the register is found with the value that it carries, with certainty. The second program
may read numbers to find it, so that the two read different streams.

* `Simulation.reaches_resetWire_of_certain`: a wire whose value is certain.
* `Simulation.Beside`: a state and the same with the register set in.
* `Simulation.Matched`: what one attempt can reach, the other can.
* `Operation.Weaves.matched`: programs woven together. -/

namespace LatticeWalk

open Operation (gatesOf Weaves)

namespace StateVector.Shows

variable {v : StateVector ℝ} {f : ℕ → ℕ} {ψ : Wave ℝ} {as bs : List Control} {q : ℕ} {one : Bool}

theorem oneProbability_of_ask (h : v.Shows (ψ.latched f (as ++ ⟨q, one⟩ :: bs)))
    (hnorm : v.norm = 1) : v.oneProbability q = if one then 1 else 0 := by
  have hasked : ∀ i < 2 ^ v.wires, i.testBit q ≠ one → (v.amplitude i).weight = 0 := by
    intro i hi hne
    rw [h.amplitude i hi, Wave.latched, if_neg fun hmet => hne (hmet ⟨q, one⟩ (by simp)),
      Amplitude.weight_zero]
  rw [StateVector.oneProbability_eq]
  cases one with
  | false =>
    refine Finset.sum_eq_zero fun i hi => ?_
    obtain ⟨hlt, hbit⟩ := Finset.mem_filter.mp hi
    rw [Finset.mem_range, h.size] at hlt
    exact hasked i hlt (by simp [hbit])
  | true =>
    rw [if_pos rfl, ← hnorm, StateVector.norm_eq, Finset.sum_filter]
    refine Finset.sum_congr rfl fun i hi => ?_
    rw [Finset.mem_range, h.size] at hi
    split_ifs with hbit
    · rfl
    · exact (hasked i hi hbit).symm

end StateVector.Shows

namespace Simulation

/-! ### Values that are certain -/

/-- **A wire whose value is certain** is found with it. -/
theorem reaches_resetWire_of_certain {v w : StateVector ℝ} {q : ℕ} {one : Bool} (hq : q < v.wires)
    (hp : v.oneProbability q = if one then 1 else 0) :
    Reaches (resetWire q) v w ↔ w = v.collapse q one 1 := by
  have hcases := fun draws : Draws ℝ => outcome_resetWire_real (s := ⟨v, draws⟩) hq
  simp only [hp] at hcases
  cases one with
  | false =>
    simp only [Bool.false_eq_true, if_false, if_pos negligible_pos.le, sub_zero] at hcases
    constructor
    · rintro ⟨draws, draws', hrun⟩
      rw [hcases draws] at hrun
      cases hrun
      rfl
    · rintro rfl
      exact ⟨⟨0, 0⟩, _, hcases _⟩
  | true =>
    simp only [if_true, if_neg (not_le.mpr negligible_lt_one), sub_self,
      if_pos negligible_pos.le] at hcases
    constructor
    · rintro ⟨draws, draws', hrun⟩
      rw [hcases draws] at hrun
      split_ifs at hrun <;> cases hrun
      rfl
    · rintro rfl
      have hdraw : ((⟨0, 0⟩ : Draws ℝ).next.1 : ℝ) < 1 := one_pos
      exact ⟨⟨0, 0⟩, _, (hcases _).trans (if_pos hdraw)⟩

theorem Reaches.normal {x : Attempt (Simulation ℝ) Unit} {v w : StateVector ℝ} {n : ℕ}
    (h : Reaches x v w)
    (hx : ∀ s : Simulation ℝ, s.vector.Normal n n → x.Leads (Lands n n) s)
    (hv : v.Normal n n) : w.Normal n n := by
  obtain ⟨draws, draws', hrun⟩ := h
  have hlands := hx ⟨v, draws⟩ hv
  rwa [Attempt.Leads, hrun] at hlands

/-- **Wires that controls ask for are reset** in one way only, and are zero then. -/
theorem reaches_resetWires_of_asks {f : ℕ → ℕ} {ψ : Wave ℝ} {one : Bool} {n : ℕ} :
    ∀ {qs : List ℕ} {as : List Control} {v : StateVector ℝ}, Unasked f qs as → (∀ q ∈ qs, q < n) →
      v.Normal n n → v.Shows (ψ.latched f (as ++ qs.map fun q => ⟨q, one⟩)) →
      (∃ w, Reaches (resetWires qs) v w) ∧ ∀ w, Reaches (resetWires qs) v w →
        w.Shows (ψ.latched f (as ++ qs.map fun q => ⟨q, false⟩))
  | [], as, v, _, _, _, hshows => by
    refine ⟨⟨v, ⟨⟨0, 0⟩, _, rfl⟩⟩, fun w hw => ?_⟩
    rw [reaches_run_nil.mp hw]
    exact hshows
  | q :: qs, as, v, hqs, hlt, hnormal, hshows => by
    rw [List.forall_mem_cons] at hlt
    have hwire : q < v.wires := hnormal.wires.symm ▸ hlt.1
    have hfirst : ∀ w, Reaches (resetWire q) v w ↔ w = v.collapse q one 1 := fun _ =>
      reaches_resetWire_of_certain hwire (hshows.oneProbability_of_ask hnormal.norm)
    -- the wire is zero, and nothing is scaled
    have hnext : (v.collapse q one 1).Shows
        (ψ.latched f ((as ++ [⟨q, false⟩]) ++ qs.map fun q => ⟨q, one⟩)) := by
      have hcollapse := hshows.collapse hwire one 1
      have hscale : Amplitude.ofReal (Scalar.sqrt (1 : ℝ))⁻¹ = 1 := by
        have hsqrt : Scalar.sqrt (1 : ℝ) = 1 := Real.sqrt_one
        rw [hsqrt, inv_one]
        rfl
      rwa [hqs.collapse_latched, if_pos rfl, hscale, one_smul] at hcollapse
    have hnormal' : (v.collapse q one 1).Normal n n :=
      ((hfirst _).mpr rfl).normal (fun s hs => normal_resetWire id hs) hnormal
    obtain ⟨⟨w, hw⟩, hrest⟩ := reaches_resetWires_of_asks hqs.rest hlt.2 hnormal' hnext
    have hreads := reads_resetWires qs
    refine ⟨⟨w, (reaches_bind (reads_resetWire q) hreads).mpr ⟨_, (hfirst _).mpr rfl, hw⟩⟩, ?_⟩
    intro w hw
    obtain ⟨w₁, hw₁, hw⟩ := (reaches_bind (reads_resetWire q) hreads).mp hw
    rw [(hfirst w₁).mp hw₁] at hw
    rw [List.map_cons, List.append_cons]
    exact hrest w hw

/-! ### Side by side -/

/-- **A state and the same with a register set in**, which has the value on all its wires. -/
structure Beside (r : Register) (one : Bool) (n : ℕ) (v v' : StateVector ℝ) : Prop where
  wires : v.wires = n
  normal : v'.Normal (n + r.width) (n + r.width)
  shows : ∃ ψ : Wave ℝ, v.Shows ψ ∧ v'.Shows (ψ.latched r.wireAround (r.asks one))

/-- From states side by side both attempts can reach states side by side: whatever one of them
reaches, the other can reach as well. -/
def Matched (r : Register) (one one' : Bool) (n : ℕ) (x x' : Attempt (Simulation ℝ) Unit) : Prop :=
  ∀ v v', Beside r one n v v' →
    (∀ w, Reaches x v w → ∃ w', Reaches x' v' w' ∧ Beside r one' n w w') ∧
    ∀ w', Reaches x' v' w' → ∃ w, Reaches x v w ∧ Beside r one' n w w'

variable {r : Register} {one one' : Bool} {n : ℕ}

theorem Beside.abreast {v v' : StateVector ℝ} (h : Beside r one n v v') (draws : Draws ℝ) :
    Abreast r.wireAround (r.asks one) n (n + r.width) ⟨v, draws⟩ ⟨v', draws⟩ :=
  ⟨h.wires, h.normal.wires, rfl, h.shows⟩

theorem Beside.amplitude {v v' : StateVector ℝ} (h : Beside r one n v v') (hn : r.start ≤ n) {i : ℕ}
    (hi : i < 2 ^ (n + r.width)) : v'.amplitude i =
      if Met (r.asks one) i.testBit then v.amplitude (index n (i.testBit ∘ r.wireAround)) else 0 :=
  (h.abreast ⟨0, 0⟩).amplitude (Register.renaming_wireAround hn one) hi

/-- What the second attempt reaches has norm one, if its program is of the library. -/
theorem Beside.normal_of_reaches {v v' w' : StateVector ℝ} (h : Beside r one n v v')
    {ops' : List (Operation ℝ)} (hlib : ∀ op ∈ ops', op.OfLibrary)
    (hw' : Reaches (run ops') v' w') : w'.Normal (n + r.width) (n + r.width) :=
  hw'.normal (fun _ hs => normal_run hlib (fun _ _ _ _ => id) hs) h.normal

variable (hn : r.start ≤ n) {ops ops' : List (Operation ℝ)}

theorem Matched.append {one'' : Bool} {ops₂ ops₂' : List (Operation ℝ)}
    (h : Matched r one one' n (run ops) (run ops'))
    (h₂ : Matched r one' one'' n (run ops₂) (run ops₂')) :
    Matched r one one'' n (run (ops ++ ops₂)) (run (ops' ++ ops₂')) := by
  intro v v' hbeside
  obtain ⟨hthere, hback⟩ := h v v' hbeside
  simp only [reaches_run_append]
  constructor
  · rintro w ⟨u, hu, hw⟩
    obtain ⟨u', hu', hbeside'⟩ := hthere u hu
    obtain ⟨w', hw', hlast⟩ := (h₂ u u' hbeside').1 w hw
    exact ⟨w', ⟨u', hu', hw'⟩, hlast⟩
  · rintro w' ⟨u', hu', hw'⟩
    obtain ⟨u, hu, hbeside'⟩ := hback u' hu'
    obtain ⟨w, hw, hlast⟩ := (h₂ u u' hbeside').2 w' hw'
    exact ⟨w, ⟨u, hu, hw⟩, hlast⟩

variable (hwithin' : ∀ op ∈ ops', op.Within (n + r.width)) (hlib : ∀ op ∈ ops', op.OfLibrary)
include hwithin' hlib

theorem matched_of_gates (hreset : ∀ op ∈ ops', op.isReset = false)
    (h : ∀ ψ : Wave ℝ, Gate.actAll (gatesOf ops') (ψ.latched r.wireAround (r.asks one)) =
      ψ.latched r.wireAround (r.asks one')) : Matched r one one' n (run []) (run ops') := by
  intro v v' hbeside
  obtain ⟨ψ, hψ, hψ'⟩ := hbeside.shows
  have hgates := run_gates hψ' (fun op hop => hbeside.normal.wires.symm ▸ hwithin' op hop) hreset
  have hreached : ∀ w', Reaches (run ops') v' w' → Beside r one' n v w' := by
    rintro w' ⟨draws, draws', hrun⟩
    obtain ⟨u', hrun', -, hshows⟩ := hgates draws
    rw [hrun] at hrun'
    cases hrun'
    refine ⟨hbeside.wires, hbeside.normal_of_reaches hlib ⟨draws, _, hrun⟩, ψ, hψ, ?_⟩
    rwa [← h]
  constructor
  · intro w hw
    obtain rfl := reaches_run_nil.mp hw
    obtain ⟨u', hrun, -⟩ := hgates ⟨0, 0⟩
    have hu' : Reaches (run ops') v' u' := ⟨_, _, hrun⟩
    exact ⟨u', hu', hreached u' hu'⟩
  · exact fun w' hw' => ⟨v, reaches_run_nil.mpr rfl, hreached w' hw'⟩

omit hwithin' hlib in
theorem matched_reset (hr : ∀ q ∈ r.wires, q < n + r.width) :
    Matched r one false n (run []) (run [.reset r.wires]) := by
  intro v v' hbeside
  obtain ⟨ψ, hψ, hψ'⟩ := hbeside.shows
  obtain ⟨⟨u', hu'⟩, hzero⟩ := reaches_resetWires_of_asks r.unasked_wires hr hbeside.normal hψ'
  have hreached : ∀ w', Reaches (resetWires r.wires) v' w' → Beside r false n v w' := fun w' hw' =>
    ⟨hbeside.wires, hw'.normal (fun _ hs => normal_resetWires (fun _ _ => id) hs) hbeside.normal,
      ψ, hψ, hzero w' hw'⟩
  have hone : ∀ w', Reaches (run [.reset r.wires]) v' w' ↔ Reaches (resetWires r.wires) v' w' :=
    fun _ => reaches_run_singleton
  simp only [hone, reaches_run_nil]
  exact ⟨fun w hw => ⟨u', hu', hw ▸ hreached u' hu'⟩, fun w' hw' => ⟨v, rfl, hreached w' hw'⟩⟩

include hn

theorem matched_of_follows (hwithin : ∀ op ∈ ops, op.Within n)
    (h : ops.Forall₂ (Operation.Follows r.wireAround (r.asks one)) ops') :
    Matched r one one n (run ops) (run ops') := by
  intro v v' hbeside
  -- with the same draws both succeed or both fail
  have halike := fun draws => alike_run (Register.renaming_wireAround hn one) h hwithin hwithin'
    ⟨v, draws⟩ ⟨v', draws⟩ (hbeside.abreast draws)
  constructor
  · rintro w ⟨draws, draws', hrun⟩
    rcases halike draws with ⟨s, s', hs, hs', habreast⟩ | ⟨_, _, _, _, hs, -⟩
    · rw [hrun] at hs
      cases hs
      have hw' : Reaches (run ops') v' s'.vector := ⟨draws, s'.draws, hs'⟩
      exact ⟨s'.vector, hw', habreast.wires, hbeside.normal_of_reaches hlib hw', habreast.shows⟩
    · rw [hrun] at hs
      cases hs
  · rintro w' ⟨draws, draws', hrun⟩
    have hnormal := hbeside.normal_of_reaches hlib ⟨draws, draws', hrun⟩
    rcases halike draws with ⟨s, s', hs, hs', habreast⟩ | ⟨_, _, _, _, -, hs'⟩
    · rw [hrun] at hs'
      cases hs'
      exact ⟨s.vector, ⟨draws, s.draws, hs⟩, habreast.wires, hnormal, habreast.shows⟩
    · rw [hrun] at hs'
      cases hs'

end Simulation

namespace Operation.Weaves

open Simulation

/-- **Programs woven together** reach the same states, but for the register. -/
theorem matched {r : Register} {n : ℕ} (hn : r.start ≤ n) {one one' : Bool}
    {ops ops' : List (Operation ℝ)} (h : Weaves r one one' ops ops') :
    (∀ op ∈ ops, op.Within n) → (∀ op ∈ ops', op.Within (n + r.width)) →
      (∀ op ∈ ops', op.OfLibrary) → Matched r one one' n (run ops) (run ops') := by
  induction h with
  | follow h => exact fun hops hops' hlib => matched_of_follows hn hops' hlib hops h
  | gates hreset h => exact fun _ hops' hlib => matched_of_gates hops' hlib hreset h
  | reset =>
    refine fun _ _ _ => matched_reset fun q hq => ?_
    have hlt := (Register.mem_wires.mp hq).2
    rw [Register.stop] at hlt
    omega
  | append _ _ ih₁ ih₂ =>
    intro hops hops' hlib
    rw [List.forall_mem_append] at hops hops' hlib
    exact (ih₁ hops.1 hops'.1 hlib.1).append (ih₂ hops.2 hops'.2 hlib.2)

end Operation.Weaves

end LatticeWalk
