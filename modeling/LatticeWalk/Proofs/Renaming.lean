import LatticeWalk.Proofs.Evolution

/-! # Renamed wires

A program set into more wires: each of its gates acts on renamed wires, perhaps under controls on
wires that no gate targets and no reset touches. Where these carry what the controls ask for, the
wave is that of the program, and elsewhere it is zero.

* `Wave.latched`: a wave set into more wires.
* `Renaming`: wires renamed among others, all of which are read by controls.
* `Gate.Follows`, `Operation.Follows`: a gate and an operation set into more wires.
* `Operation.evolve_latched`: what such operations make of such a wave.
* `Renaming.sum_weight`: a wire and its new name are measured as one with the same probability. -/

namespace LatticeWalk

open Function (update)

section definitions
variable {R : Type}

/-- The wave on renamed wires, where the others carry what the controls ask for. -/
def Wave.latched [Scalar R] (f : ℕ → ℕ) (cs : List Control) (ψ : Wave R) : Wave R := fun b =>
  if Met cs b then ψ (b ∘ f) else 0

/-- The first `n` wires renamed among the first `n'`. Controls, which can be met, read all others of
these. -/
structure Renaming (f : ℕ → ℕ) (cs : List Control) (n n' : ℕ) : Prop where
  injective : f.Injective
  lt_iff : ∀ q, f q < n' ↔ q < n
  apart : ∀ c ∈ cs, ∀ q, c.wire ≠ f q
  wire_lt : ∀ c ∈ cs, c.wire < n'
  covers : ∀ u, (∃ q, f q = u) ∨ ∃ c ∈ cs, c.wire = u
  met : ∃ b, Met cs b

/-- The gate on renamed wires, under some of the controls. -/
def Gate.Follows (f : ℕ → ℕ) (cs : List Control) (g g' : Gate R) : Prop :=
  ∃ ds ⊆ cs, g' = (g.mapWires f).under ds

/-- The operation with its gates and its resets on renamed wires. -/
structure Operation.Follows (f : ℕ → ℕ) (cs : List Control) (op op' : Operation R) : Prop where
  gates : op.gates.Forall₂ (Gate.Follows f cs) op'.gates
  targets : op'.targets = op.targets.map f

end definitions

/-! ### Operations that follow -/

section follows
variable {R : Type} {f : ℕ → ℕ} {cs : List Control}

theorem Gate.follows_mapWires (g : Gate R) : g.Follows f cs (g.mapWires f) :=
  ⟨[], List.nil_subset cs, rfl⟩

theorem Gate.Fits.mapWires_eq {g : Gate R} {m : ℕ} (h : g.Fits m) (hf : ∀ q < m, f q = q) :
    g.mapWires f = g := by
  have hcontrols : g.controls.map (fun c => (⟨f c.wire, c.value⟩ : Control)) = g.controls := by
    refine (List.map_congr_left fun c hc => ?_).trans (List.map_id _)
    rw [hf c.wire (h.controls c hc)]
    rfl
  simp only [Gate.mapWires, hf g.target h.target, hcontrols]

namespace Operation

theorem follows_of_map {op op' : Operation R} (hgates : op'.gates = op.gates.map (Gate.mapWires f))
    (htargets : op'.targets = op.targets.map f) : op.Follows f cs op' := by
  refine ⟨?_, htargets⟩
  rw [hgates, List.forall₂_map_right_iff]
  exact List.forall₂_same.mpr fun g _ => g.follows_mapWires

theorem targets_subset_wires (op : Operation R) : op.targets ⊆ op.wires := by
  cases op with
  | reset targets => exact List.Subset.refl _
  | _ => exact List.nil_subset _

theorem follows_self {op : Operation R} {m : ℕ} (h : op.Within m) (hf : ∀ q < m, f q = q) :
    op.Follows f cs op := by
  refine follows_of_map ?_ ?_
  · exact ((List.map_congr_left fun g hg => (h.gates g hg).mapWires_eq hf).trans
      (List.map_id _)).symm
  · exact ((List.map_congr_left fun q hq => hf q (h.wires q (op.targets_subset_wires hq))).trans
      (List.map_id _)).symm

end Operation

end follows

/-! ### Evolution -/

section evolution
variable {f : ℕ → ℕ} {cs : List Control} {n n' : ℕ} (hr : Renaming f cs n n')
include hr

namespace Renaming

theorem met_update (b : ℕ → Bool) (q : ℕ) (v : Bool) : Met cs (update b (f q) v) ↔ Met cs b :=
  LatticeWalk.met_update (fun c hc => hr.apart c hc q) b v

theorem update_comp (b : ℕ → Bool) (q : ℕ) (v : Bool) :
    update b (f q) v ∘ f = update (b ∘ f) q v :=
  Function.update_comp_eq_of_injective b hr.injective q v

end Renaming

/-- **A gate that follows another** does to the wave that is set in what the other does to its own.
Where the controls are not met there is nothing to act on. -/
theorem Gate.Follows.act_latched {g g' : Gate ℝ} (h : g.Follows f cs g') (ψ : Wave ℝ) :
    g'.act (ψ.latched f cs) = (g.act ψ).latched f cs := by
  obtain ⟨ds, hds, rfl⟩ := h
  funext b
  have hcontrols : Met (g.mapWires f).controls b ↔ Met g.controls (b ∘ f) := by
    simp [Met, mapWires]
  have hmet : ∀ v, Met cs (update b (f g.target) v) ↔ Met cs b := hr.met_update b g.target
  rw [act_under]
  by_cases hb : Met cs b
  · have hds' : Met ds b := fun c hc => hb c (hds hc)
    have htarget : ∀ v, (ψ.latched f cs) (update b (f g.target) v) =
        ψ (update (b ∘ f) g.target v) := fun v => by
      rw [Wave.latched, if_pos ((hmet v).mpr hb), hr.update_comp]
    have hhere : ∀ φ : Wave ℝ, φ.latched f cs b = φ (b ∘ f) := fun φ => if_pos hb
    rw [if_pos hds', hhere, act, act, hhere]
    exact if_congr hcontrols (by rw [← htarget, ← htarget]; rfl) rfl
  · have hzero : (g.mapWires f).act (ψ.latched f cs) b = 0 := by
      simp [act, Wave.latched, mapWires, hmet, hb]
    simp [hzero, Wave.latched, hb]

theorem Gate.actAll_latched {gs gs' : List (Gate ℝ)} (h : gs.Forall₂ (Gate.Follows f cs) gs')
    (ψ : Wave ℝ) : actAll gs' (ψ.latched f cs) = (actAll gs ψ).latched f cs := by
  induction h generalizing ψ with
  | nil => rfl
  | cons hg _ ih => rw [actAll_cons, hg.act_latched hr, ih, actAll_cons]

theorem Wave.collapse_latched (q : ℕ) (one : Bool) (ψ : Wave ℝ) :
    (ψ.latched f cs).collapse (f q) one = (ψ.collapse q one).latched f cs := by
  funext b
  simp only [collapse, latched, hr.met_update, hr.update_comp, Function.comp_apply]
  split_ifs <;> rfl

theorem Wave.collapseAll_latched : ∀ (qs : List ℕ) (outcomes : ℕ → Bool) (ψ : Wave ℝ),
    collapseAll (qs.map f) outcomes (ψ.latched f cs) =
      (collapseAll qs outcomes ψ).latched f cs
  | [], _, _ => rfl
  | q :: qs, outcomes, ψ => by
    rw [List.map_cons, collapseAll, Wave.collapse_latched hr, collapseAll_latched qs]
    rfl

/-- **Operations that follow others** lead, under the same outcomes, from the wave that is set in to
what the others make of their own. -/
theorem Operation.evolve_latched {ops ops' : List (Operation ℝ)}
    (h : ops.Forall₂ (Operation.Follows f cs) ops') (outcomes : ℕ → Bool) (ψ : Wave ℝ) :
    evolve ops' outcomes (ψ.latched f cs) = (evolve ops outcomes ψ).latched f cs := by
  induction h generalizing outcomes ψ with
  | nil => rfl
  | cons hop _ ih =>
    rw [evolve, Gate.actAll_latched hr hop.gates, hop.targets, Wave.collapseAll_latched hr, ih,
      List.length_map, evolve]

end evolution

theorem Wave.smul_latched (f : ℕ → ℕ) (cs : List Control) (x : Amplitude ℝ) (ψ : Wave ℝ) :
    x • ψ.latched f cs = (x • ψ).latched f cs := by
  funext b
  simp only [Pi.smul_apply, latched]
  split_ifs
  · rfl
  · exact smul_zero x

/-! ### Basis states -/

namespace Renaming

variable {f : ℕ → ℕ} {cs : List Control} {n n' : ℕ} (hr : Renaming f cs n n')
include hr

theorem testBit_lower {i : ℕ} (hi : i < 2 ^ n') :
    (index n (i.testBit ∘ f)).testBit = i.testBit ∘ f := by
  refine testBit_index_of_high fun q hq => Nat.testBit_lt_two_pow (hi.trans_le ?_)
  have hout : n' ≤ f q := not_lt.mp fun h => absurd ((hr.lt_iff q).mp h) (by omega)
  exact Nat.pow_le_pow_right (by norm_num) hout

/-- Basis states that agree on the renamed wires are equal if both meet the controls. -/
theorem eq_of_comp_eq {b c : ℕ → Bool} (hb : Met cs b) (hc : Met cs c) (h : b ∘ f = c ∘ f) :
    b = c := by
  funext u
  rcases hr.covers u with ⟨q, rfl⟩ | ⟨d, hd, rfl⟩
  · exact congrFun h q
  · rw [hb d hd, hc d hd]

theorem latched_basis {b b' : ℕ → Bool} (hmet : Met cs b') (hcomp : b' ∘ f = b) :
    (Wave.basis b : Wave ℝ).latched f cs = Wave.basis b' := by
  funext c
  unfold Wave.latched Wave.basis
  by_cases hc : c = b'
  · rw [hc, if_pos hmet, if_pos hcomp, if_pos rfl]
  · rw [if_neg hc, ite_eq_right_iff]
    intro hcmet
    exact if_neg fun h => hc (hr.eq_of_comp_eq hcmet hmet (h.trans hcomp.symm))

/-- Every basis state is what is left of one that meets the controls. -/
theorem exists_raise {i : ℕ} (hi : i < 2 ^ n) :
    ∃ j < 2 ^ n', Met cs j.testBit ∧ j.testBit ∘ f = i.testBit := by
  obtain ⟨b, hb⟩ := hr.met
  refine ⟨index n' (f.extend i.testBit b), index_lt _ _, fun c hc => ?_, ?_⟩
  · have hout : ¬ ∃ q, f q = c.wire := fun ⟨q, hq⟩ => hr.apart c hc q hq.symm
    rw [testBit_index, Function.extend_apply' _ _ _ hout, hb c hc]
    simp [hr.wire_lt c hc]
  · funext q
    rw [Function.comp_apply, testBit_index, hr.injective.extend_apply]
    by_cases hq : q < n
    · simp [(hr.lt_iff q).mpr hq]
    · have hbit : i.testBit q = false :=
        Nat.testBit_lt_two_pow (hi.trans_le (Nat.pow_le_pow_right (by norm_num) (by omega)))
      rw [hbit, Bool.and_false]

/-- **The weights of a wave that is set in** are those of the wave, basis state by basis state. -/
theorem sum_weight (ψ : Wave ℝ) (q : ℕ) :
    ∑ j ∈ Finset.range (2 ^ n') with j.testBit (f q), (ψ.latched f cs j.testBit).weight =
      ∑ i ∈ Finset.range (2 ^ n) with i.testBit q, (ψ i.testBit).weight := by
  have hmet : ∀ j ∈ (Finset.range (2 ^ n')).filter fun j => j.testBit (f q),
      (ψ.latched f cs j.testBit).weight ≠ 0 → Met cs j.testBit := by
    intro j _ hne
    by_contra hj
    exact hne (by simp [Wave.latched, hj, Amplitude.weight])
  rw [← Finset.sum_filter_of_ne hmet]
  refine Finset.sum_bij (fun j _ => index n (j.testBit ∘ f)) ?_ ?_ ?_ ?_
  · intro j hj
    simp only [Finset.mem_filter, Finset.mem_range] at hj ⊢
    refine ⟨index_lt _ _, ?_⟩
    rw [hr.testBit_lower hj.1.1]
    exact hj.1.2
  · intro j hj k hk h
    simp only [Finset.mem_filter, Finset.mem_range] at hj hk
    have hcomp := congrArg Nat.testBit h
    rw [hr.testBit_lower hj.1.1, hr.testBit_lower hk.1.1] at hcomp
    exact Nat.eq_of_testBit_eq fun u => congrFun (hr.eq_of_comp_eq hj.2 hk.2 hcomp) u
  · intro i hi
    simp only [Finset.mem_filter, Finset.mem_range] at hi
    obtain ⟨j, hj, hjmet, hcomp⟩ := hr.exists_raise hi.1
    have hbit : j.testBit (f q) = i.testBit q := congrFun hcomp q
    refine ⟨j, ?_, ?_⟩
    · simp only [Finset.mem_filter, Finset.mem_range]
      exact ⟨⟨hj, hbit.trans hi.2⟩, hjmet⟩
    · rw [hcomp, index_testBit, Nat.mod_eq_of_lt hi.1]
  · intro j hj
    simp only [Finset.mem_filter, Finset.mem_range] at hj
    rw [hr.testBit_lower hj.1.1, Wave.latched, if_pos hj.2]

end Renaming

end LatticeWalk
