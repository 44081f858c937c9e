import LatticeWalk.Proofs.Allocation
import LatticeWalk.Proofs.Crossing
import LatticeWalk.Proofs.Norm
import LatticeWalk.Proofs.Points
import LatticeWalk.Proofs.Veils

/-! # The transmission of permeable walls

The permeability coin turns every wire of a register by the same angle. On a register at zero it
leaves each wire at zero with the probability of transmission, independently of all others, so that
the wall, which is closed when all are one, reflects with the probability that none is.

* `StateVector.chance`: the probability of measuring a basis state of a kind; `Wave.chance` is the
  same for waves.
* `Gate.chance_act`: a gate leaves the chance of what does not depend on its target.
* `Operator.chance_permeability`: what the coin makes of a register at zero.
* `Operator.Transmits`: the chances behind the coin, measured at once or met by a wall.
* `Operator.permeability_transmits`: for which probabilities there is a coin, and that it transmits
  with them. -/

namespace LatticeWalk

open Function (update)
open Operation (gatesOf)
open Operator (gatesOn controlsOn)
open Simulation (Leads)

namespace Amplitude

theorem weight_mul (a b : Amplitude ℝ) : (a * b).weight = a.weight * b.weight := by
  simp only [weight, re_mul, im_mul]
  ring

end Amplitude

/-! ### Chances -/

/-- The probability that a measurement of all wires finds a basis state of a kind. -/
noncomputable def StateVector.chance (v : StateVector ℝ) (P : ℕ → Prop) : ℝ :=
  open Classical in ∑ i ∈ Finset.range v.amplitudes.size with P i, (v.amplitude i).weight

namespace Wave

/-- What an assignment adds to the chance of a property. -/
noncomputable def share (P : (ℕ → Bool) → Prop) (ψ : Wave ℝ) (b : ℕ → Bool) : ℝ :=
  open Classical in if P b then (ψ b).weight else 0

theorem share_of {P : (ℕ → Bool) → Prop} {b : ℕ → Bool} (h : P b) (ψ : Wave ℝ) :
    share P ψ b = (ψ b).weight := if_pos h

theorem share_of_not {P : (ℕ → Bool) → Prop} {b : ℕ → Bool} (h : ¬ P b) (ψ : Wave ℝ) :
    share P ψ b = 0 := if_neg h

/-- The probability that the first `n` wires are found with a property. -/
noncomputable def chance (n : ℕ) (P : (ℕ → Bool) → Prop) (ψ : Wave ℝ) : ℝ :=
  ∑ i ∈ Finset.range (2 ^ n), share P ψ i.testBit

/-- Chances agree that agree on all pairs of assignments which differ in one wire. -/
theorem chance_congr_of_pairs {n q : ℕ} (hq : q < n) {P Q : (ℕ → Bool) → Prop} {ψ φ : Wave ℝ}
    {s : ℝ} (h : ∀ b : ℕ → Bool, b q = false →
      share P φ b + share P φ (update b q true) =
        s * share Q ψ b + s * share Q ψ (update b q true)) :
    chance n P φ = s * chance n Q ψ := by
  rw [chance, chance, Finset.mul_sum]
  refine sum_congr_of_pairs hq fun i _ hbit => ?_
  rw [← or_two_pow_of_not hbit, testBit_or_two_pow]
  exact h i.testBit hbit

end Wave

open Classical in
theorem StateVector.Shows.chance {v : StateVector ℝ} {ψ : Wave ℝ} (h : v.Shows ψ) {P : ℕ → Prop}
    {Q : (ℕ → Bool) → Prop} (hPQ : ∀ i < 2 ^ v.wires, P i ↔ Q i.testBit) :
    v.chance P = ψ.chance v.wires Q := by
  rw [StateVector.chance, Wave.chance, h.size, Finset.sum_filter]
  refine Finset.sum_congr rfl fun i hi => ?_
  have hlt := Finset.mem_range.mp hi
  rw [h.amplitude i hlt, Wave.share]
  exact if_congr (hPQ i hlt) rfl rfl

open Classical in
theorem StateVector.amplitude_basis {n i j : ℕ} (hi : i < 2 ^ n) (hj : j < 2 ^ n) :
    (basis n i : StateVector ℝ).amplitude j = if j = i then 1 else 0 := by
  have hinj : j.testBit = i.testBit ↔ j = i :=
    ⟨fun e => Nat.eq_of_testBit_eq fun q => congrFun e q, fun e => e ▸ rfl⟩
  rw [(shows_basis hi).amplitude j hj, Wave.basis, if_congr hinj rfl rfl]

open Classical in
theorem StateVector.chance_basis {n i : ℕ} (hi : i < 2 ^ n) {P : ℕ → Prop} (h : P i) :
    (basis n i : StateVector ℝ).chance P = 1 := by
  have hsize : (basis n i : StateVector ℝ).amplitudes.size = 2 ^ n := by simp [basis]
  rw [chance, hsize, Finset.sum_filter, Finset.sum_eq_single i, if_pos h, amplitude_basis hi hi,
    if_pos rfl]
  · simp [Amplitude.weight]
  · intro j hj hne
    rw [amplitude_basis hi (Finset.mem_range.mp hj), if_neg hne, Amplitude.weight_zero, ite_self]
  · exact fun hnot => absurd (Finset.mem_range.mpr hi) hnot

/-! ### Gates -/

namespace Gate

/-- **A gate leaves the chance of what does not depend on its target**: the two amplitudes that its
matrix mixes count together or not at all. -/
theorem chance_act {n : ℕ} {g : Gate ℝ} (hfits : g.Fits n) (hg : g.transform.Standard)
    {P : (ℕ → Bool) → Prop} (hP : Blind P g.target) (ψ : Wave ℝ) :
    (g.act ψ).chance n P = ψ.chance n P := by
  rw [← one_mul (ψ.chance n P)]
  refine Wave.chance_congr_of_pairs hfits.target fun b hb => ?_
  rw [one_mul, one_mul]
  by_cases hPb : P b
  · have hPb' : P (update b g.target true) := (hP b true).mpr hPb
    rw [Wave.share_of hPb, Wave.share_of hPb', Wave.share_of hPb, Wave.share_of hPb']
    have hmet : Met g.controls (update b g.target true) ↔ Met g.controls b :=
      met_update hfits.apart b true
    have hback : update b g.target false = b := by rw [← hb, Function.update_eq_self]
    simp only [act, hmet, hb, Function.update_self, Function.update_idem, hback, if_true,
      Bool.false_eq_true, if_false]
    split_ifs
    · exact hg.isometric _ _
    · rfl
  · have hPb' : ¬ P (update b g.target true) := (hP b true).not.mpr hPb
    rw [Wave.share_of_not hPb, Wave.share_of_not hPb', Wave.share_of_not hPb,
      Wave.share_of_not hPb']

theorem chance_actAll {n : ℕ} {P : (ℕ → Bool) → Prop} : ∀ {gs : List (Gate ℝ)},
    (∀ g ∈ gs, g.Fits n ∧ g.transform.Standard ∧ Blind P g.target) → ∀ ψ : Wave ℝ,
    (actAll gs ψ).chance n P = ψ.chance n P
  | [], _, _ => rfl
  | g :: gs, h, ψ => by
    obtain ⟨hfits, hg, hP⟩ := h g (by simp)
    rw [actAll_cons, chance_actAll (fun g' hg' => h g' (by simp [hg'])), chance_act hfits hg hP]

end Gate

/-! ### The coin -/

/-- The chance that a wire behind the coin has a value. -/
def wireChance (p : ℝ) (one : Bool) : ℝ := if one then 1 - p else p

/-- **The chance of a pattern** behind the coin: one factor for each of its characters. -/
def patternChance (p : ℝ) (s : String) : ℝ :=
  p ^ s.toList.count '0' * (1 - p) ^ s.toList.count '1'

theorem prod_wireChance (p : ℝ) {s : String} {n : ℕ} (hs : IsPattern s n) :
    ((Pattern.wireBits s).map (wireChance p)).prod = patternChance p s := by
  have hbits := hs.bits
  rw [Pattern.wireBits, List.map_reverse, List.map_reverse, List.prod_reverse, List.map_map,
    patternChance]
  generalize s.toList = cs at hbits
  induction cs with
  | nil => simp
  | cons c cs ih =>
    rw [List.map_cons, List.prod_cons, ih fun c' hc' => hbits c' (by simp [hc'])]
    have hc := hbits c (by simp)
    simp only [Pattern.isBit, Bool.or_eq_true, beq_iff_eq] at hc
    rcases hc with rfl | rfl
    · simp [wireChance, pow_succ]
      ring
    · simp [wireChance, pow_succ]
      ring

theorem patternChance_ones (p : ℝ) (n : ℕ) : patternChance p (Pattern.ones n) = (1 - p) ^ n := by
  simp [patternChance, Pattern.ones, Text.replicate, List.count_replicate]

namespace Operator

section
variable {R : Type} [Scalar R] {n : ℕ} {p : R}

theorem permeability_refused (h : ¬ (0 ≤ p ∧ p ≤ 1)) :
    permeability n p = refuse (.transmissionOutside (Numeral.spell p)) := if_neg h

theorem range_of_permeability {op : Operator R} (h : permeability n p = .ok op) :
    0 ≤ p ∧ p ≤ 1 := by
  by_contra hp
  rw [permeability_refused hp] at h
  cases h

/-- **There is a coin for every probability** and for nothing else. -/
theorem exists_permeability_iff :
    (∃ op : Operator R, permeability n p = .ok op) ↔ 0 ≤ p ∧ p ≤ 1 :=
  ⟨fun ⟨_, h⟩ => range_of_permeability h, fun h => ⟨_, if_pos h⟩⟩

end

/-- The rotation of one wire. -/
noncomputable def toss (p : ℝ) : Transform ℝ :=
  .unitary (su2Matrix (Scalar.arccos (Scalar.sqrt p)) 0 0)

/-- **The angle has the cosine that it should**: the first column has the probabilities of
transmission and of reflection for its weights. -/
theorem weight_toss {p : ℝ} (hp : 0 ≤ p ∧ p ≤ 1) :
    (toss p).matrix.a00.weight = wireChance p false ∧
      (toss p).matrix.a10.weight = wireChance p true := by
  have hcos : Scalar.cos (Scalar.arccos (Scalar.sqrt p)) = Real.sqrt p :=
    Real.cos_arccos (neg_one_lt_zero.le.trans (Real.sqrt_nonneg p)) (Real.sqrt_le_one.mpr hp.2)
  have hsin : Scalar.sin (Scalar.arccos (Scalar.sqrt p)) = Real.sqrt (1 - p) := by
    refine (Real.sin_arccos (Real.sqrt p)).trans ?_
    rw [Real.sq_sqrt hp.1]
  have hunit : ∀ s : ℝ, ((Amplitude.unit (0 : ℝ)).scale s).weight = s * s := by
    intro s
    simp [Amplitude.weight]
  constructor
  · show ((Amplitude.unit (0 : ℝ)).scale _).weight = p
    rw [hunit, hcos, Real.mul_self_sqrt hp.1]
  · show ((Amplitude.unit (-0 : ℝ)).scale _).weight = 1 - p
    rw [neg_zero, hunit, hsin, Real.mul_self_sqrt (by linarith [hp.2])]

section
variable {p : ℝ} (hp : 0 ≤ p ∧ p ≤ 1)
include hp

theorem chance_toss {n q : ℕ} (hq : q < n) {P : (ℕ → Bool) → Prop} (hP : Blind P q) {ψ : Wave ℝ}
    (hψ : ψ.Supported fun b => b q = false) (one : Bool) :
    ((Gate.plain (toss p) q).act ψ).chance n (fun b => P b ∧ b q = one) =
      wireChance p one * ψ.chance n P := by
  obtain ⟨hzero, hone⟩ := weight_toss hp
  refine Wave.chance_congr_of_pairs hq fun b hb => ?_
  have hset : update b q true q = true := Function.update_self q true b
  have hback : update b q false = b := by rw [← hb, Function.update_eq_self]
  have hnone : ψ (update b q true) = 0 := by
    by_contra hne
    rw [hψ _ hne] at hset
    cases hset
  -- both amplitudes behind the gate come from the one in front of it where the wire is zero
  have hlow : (Gate.plain (toss p) q).act ψ b = (toss p).matrix.a00 * ψ b := by
    simp [Gate.act, Gate.plain, hb, hnone]
  have hhigh : (Gate.plain (toss p) q).act ψ (update b q true) =
      (toss p).matrix.a10 * ψ b := by
    simp [Gate.act, Gate.plain, hnone, hback]
  by_cases hPb : P b
  · have hPb' : P (update b q true) := (hP b true).mpr hPb
    rw [Wave.share_of hPb, Wave.share_of hPb', hnone, Amplitude.weight_zero]
    cases one with
    | false =>
      rw [Wave.share_of ⟨hPb, hb⟩, Wave.share_of_not fun h => by simp at h, hlow,
        Amplitude.weight_mul, hzero]
      ring
    | true =>
      rw [Wave.share_of_not fun h => by simp [hb] at h, Wave.share_of ⟨hPb', hset⟩, hhigh,
        Amplitude.weight_mul, hone]
      ring
  · have hPb' : ¬ P (update b q true) := (hP b true).not.mpr hPb
    rw [Wave.share_of_not hPb, Wave.share_of_not hPb', Wave.share_of_not fun h => hPb h.1,
      Wave.share_of_not fun h => hPb' h.1]
    ring

/-- **The wires are independent.** The first is turned, then the others, which does not change what
was found on the first. -/
theorem chance_tosses {n : ℕ} : ∀ {qs : List ℕ} {bits : List Bool}, qs.Nodup →
    (∀ q ∈ qs, q < n) → qs.length = bits.length → ∀ {P : (ℕ → Bool) → Prop},
    (∀ q ∈ qs, Blind P q) → ∀ {ψ : Wave ℝ}, (∀ q ∈ qs, ψ.Supported fun b => b q = false) →
    (Gate.actAll (qs.map (Gate.plain (toss p))) ψ).chance n
        (fun b => P b ∧ Met (controlsOn qs bits) b) =
      (bits.map (wireChance p)).prod * ψ.chance n P
  | [], [], _, _, _, P, _, ψ, _ => by simp [controlsOn]
  | q :: qs, one :: bits, hnodup, hlt, hlen, P, hP, ψ, hψ => by
    obtain ⟨hq, hqs⟩ := List.nodup_cons.mp hnodup
    have hne : ∀ q' ∈ qs, q ≠ q' := fun q' hq' h => hq (h ▸ hq')
    have hfirst := chance_toss hp (hlt q (by simp)) (hP q (by simp)) (hψ q (by simp)) one
    have hzero : ∀ q' ∈ qs,
        Wave.Supported ((Gate.plain (toss p) q).act ψ) fun b => b q' = false := by
      intro q' hq'
      have hblind : ∀ g ∈ [Gate.plain (toss p) q], Blind (fun b => b q' = false) g.target :=
        List.forall_mem_singleton.mpr (blind_wire (hne q' hq').symm false)
      exact Gate.supported_actAll hblind (hψ q' (by simp [hq']))
    have hrest := chance_tosses hqs (fun q' hq' => hlt q' (by simp [hq']))
      (by simpa using hlen)
      (fun q' hq' => (hP q' (by simp [hq'])).and (blind_wire (hne q' hq') one)) hzero
    have hsplit : (fun b => P b ∧ Met (controlsOn (q :: qs) (one :: bits)) b) =
        fun b => (P b ∧ b q = one) ∧ Met (controlsOn qs bits) b := by
      funext b
      rw [controlsOn, List.zip_cons_cons, List.map_cons, met_cons, ← and_assoc]
      rfl
    rw [List.map_cons, Gate.actAll_cons, hsplit, hrest, hfirst, List.map_cons, List.prod_cons]
    ring

end

theorem gates_bound_permeability {p : ℝ} {r : Register} {op : Operator ℝ}
    (hop : permeability r.width p = .ok op) :
    (op.bound r.wires).gates = r.wires.map (Gate.plain (toss p)) := by
  show gatesOn r.wires op.gates = _
  rw [(gates_permeability hop).2, gatesOn_everyWire]
  rfl

/-- **The coin on a register at zero**: each pattern is found with the product of the chances of its
characters, whatever else is asked of other wires. -/
theorem chance_permeability {p : ℝ} {r : Register} {n : ℕ} (hr : r.stop ≤ n) {op : Operator ℝ}
    (hop : permeability r.width p = .ok op) {P : (ℕ → Bool) → Prop} (hP : ∀ q ∈ r.wires, Blind P q)
    {ψ : Wave ℝ} (hψ : ∀ q ∈ r.wires, ψ.Supported fun b => b q = false) {s : String}
    (hs : IsPattern s r.width) :
    (Gate.actAll (op.bound r.wires).gates ψ).chance n
        (fun b => P b ∧ r.read b = Pattern.value s) =
      patternChance p s * ψ.chance n P := by
  have hasked : (fun b => P b ∧ r.read b = Pattern.value s) =
      fun b => P b ∧ Met (controlsOn r.wires (Pattern.wireBits s)) b := by
    funext b
    rw [met_controlsOn hs]
  have hlen : r.wires.length = (Pattern.wireBits s).length := by
    rw [Register.length_wires, Pattern.length_wireBits_of hs]
  have hlt : ∀ q ∈ r.wires, q < n := fun q hq => (Register.mem_wires.mp hq).2.trans_le hr
  rw [gates_bound_permeability hop, hasked,
    chance_tosses (range_of_permeability hop) (Register.nodup_wires r) hlt hlen hP hψ,
    prod_wireChance p hs]

section among

variable {p : ℝ} {r : Register} {n : ℕ} (hr : r.stop ≤ n) {op : Operator ℝ}
  (hop : permeability r.width p = .ok op)
include hr hop

theorem coin_aside : (op.bound r.wires).Within n ∧
    ∀ g ∈ (op.bound r.wires).gates, g.transform.Standard ∧ g.target ∈ r.wires := by
  refine ⟨(wellFormed_bound (plain_permeability hop).fits hr).toWithin, fun g hg => ?_⟩
  rw [gates_bound_permeability hop] at hg
  obtain ⟨q, hq, rfl⟩ := List.mem_map.mp hg
  exact ⟨.rotation _ _ _, hq⟩

-- the other gates have their targets off the register and off all that is asked of other wires
variable {P : (ℕ → Bool) → Prop} (hP : ∀ q ∈ r.wires, Blind P q) {gs hs : List (Gate ℝ)}
  (hothers : ∀ g ∈ gs ++ hs, g.Fits n ∧ g.transform.Standard ∧ Blind P g.target ∧
    g.target ∉ r.wires)
include hP hothers

/-- Among other gates, the coin leaves the chance of what is asked of other wires. -/
theorem chance_among (ψ : Wave ℝ) :
    (Gate.actAll (gs ++ ((op.bound r.wires).gates ++ hs)) ψ).chance n P = ψ.chance n P := by
  obtain ⟨hwithin, hcoin⟩ := coin_aside hr hop
  refine Gate.chance_actAll (fun g hg => ?_) ψ
  have hsplit : g ∈ (op.bound r.wires).gates ∨ g ∈ gs ++ hs := by
    simp only [List.mem_append] at hg ⊢
    tauto
  rcases hsplit with hg | hg
  · obtain ⟨hstandard, htarget⟩ := hcoin g hg
    exact ⟨hwithin.gates g hg, hstandard, hP _ htarget⟩
  · obtain ⟨hfits, hstandard, hblind, -⟩ := hothers g hg
    exact ⟨hfits, hstandard, hblind⟩

theorem chance_permeability_among {ψ : Wave ℝ}
    (hψ : ∀ q ∈ r.wires, ψ.Supported fun b => b q = false) {s : String}
    (hpattern : IsPattern s r.width) :
    (Gate.actAll (gs ++ ((op.bound r.wires).gates ++ hs)) ψ).chance n
        (fun b => P b ∧ r.read b = Pattern.value s) =
      patternChance p s * ψ.chance n P := by
  have hbefore : (Gate.actAll gs ψ).chance n P = ψ.chance n P := by
    refine Gate.chance_actAll (fun g hg => ?_) ψ
    obtain ⟨hfits, hg, hblind, -⟩ := hothers g (List.mem_append_left _ hg)
    exact ⟨hfits, hg, hblind⟩
  have hzero : ∀ q ∈ r.wires, Wave.Supported (Gate.actAll gs ψ) fun b => b q = false := by
    refine fun q hq => Gate.supported_actAll (fun g hg => blind_wire ?_ false) (hψ q hq)
    exact ne_of_mem_of_not_mem hq (hothers g (List.mem_append_left _ hg)).2.2.2
  rw [Gate.actAll_append, Gate.actAll_append, Gate.chance_actAll,
    chance_permeability hr hop hP hzero hpattern, hbefore]
  intro g hg
  obtain ⟨hfits, hg, hblind, htarget⟩ := hothers g (List.mem_append_right _ hg)
  exact ⟨hfits, hg, hblind.and (blind_read htarget _)⟩

end among

end Operator

/-! ### Measured -/

theorem Layout.key_after_single (name : String) (role : Role) (n i : ℕ) :
    (Layout.after [(name, role, n)]).key i = Pattern.ofValue i n := by
  have hregisters : (Layout.after [(name, role, n)]).registers = [⟨name, role, 0, n⟩] := rfl
  rw [Layout.key, hregisters, List.flatMap_singleton, Nat.shiftRight_zero, Pattern.ofValue]

namespace Operator

/-- **The coin measured**: on wires at zero, each pattern with its chance. -/
theorem chance_key {n : ℕ} {p : ℝ} {op : Operator ℝ} (hop : permeability n p = .ok op)
    (name : String) (role : Role) : ∃ v, Leads [op.bound (List.range n)] (.basis n 0) v ∧
      ∀ s, IsPattern s n →
        v.chance (fun i => (Layout.after [(name, role, n)]).key i = s) = patternChance p s := by
  set r : Register := ⟨name, role, 0, n⟩ with hr
  have hwires : r.wires = List.range n := by
    rw [Register.wires_eq, List.range_eq_range']
  have hstop : r.stop ≤ n := (Nat.zero_add n).le
  have hwithin : (op.bound r.wires).Within n :=
    (wellFormed_bound (plain_permeability hop).fits hstop).toWithin
  have hshows := StateVector.shows_start (R := ℝ) n
  obtain ⟨v, hleads, hv, hshows'⟩ := Simulation.leads_of_shows hshows
    (List.forall_mem_singleton.mpr ⟨hwithin, rfl⟩)
  have hgates : gatesOf [op.bound r.wires] = (op.bound r.wires).gates := List.append_nil _
  have hzero : ∀ q ∈ r.wires,
      Wave.Supported (Wave.basis fun _ => false) fun b => b q = false := fun q _ =>
    Wave.supported_basis (b := fun _ => false) rfl
  refine ⟨v, hwires ▸ hleads, fun s hs => ?_⟩
  have hkey : ∀ i < 2 ^ v.wires, (Layout.after [(name, role, n)]).key i = s ↔
      True ∧ r.read i.testBit = Pattern.value s := by
    intro i _
    rw [Layout.key_after_single, ← Pattern.value_inj (Pattern.isPattern_ofValue i n) hs,
      Pattern.value_ofValue, Register.read_testBit, true_and]
    rfl
  have hone : (Wave.basis fun _ => false : Wave ℝ).chance n (fun _ => True) = 1 := by
    rw [← StateVector.chance_basis (Nat.two_pow_pos n) (P := fun _ => True) trivial,
      hshows.chance (Q := fun _ => True) fun _ _ => Iff.rfl]
    rfl
  have hchance := chance_permeability hstop (p := p) (r := r) hop (P := fun _ => True)
    (fun _ _ _ _ => Iff.rfl) hzero hs
  rw [hshows'.chance (Q := fun b => True ∧ r.read b = Pattern.value s) hkey, hv]
  rw [hone, mul_one] at hchance
  rw [hgates]
  exact hchance

end Operator

/-! ### Walls -/

/-- An operation made of gates of the library that have their targets on none of these registers. -/
structure Operation.Aside (n : ℕ) (rs : List Register) (op : Operation ℝ) : Prop where
  within : op.Within n
  gates_only : op.isReset = false
  standard : ∀ g ∈ op.gates, g.transform.Standard
  targets : ∀ g ∈ op.gates, ∀ r ∈ rs, g.target ∉ r.wires

theorem Operation.gates_of_aside {n : ℕ} {rs : List Register} {before behind : List (Operation ℝ)}
    (h : ∀ o ∈ before ++ behind, o.Aside n rs) : ∀ g ∈ gatesOf before ++ gatesOf behind,
      g.Fits n ∧ g.transform.Standard ∧ ∀ r ∈ rs, g.target ∉ r.wires := by
  intro g hg
  rw [← Operation.gatesOf_append] at hg
  obtain ⟨o, ho, hg⟩ := List.mem_flatMap.mp hg
  have haside := h o ho
  exact ⟨haside.within.gates g hg, haside.standard g hg, haside.targets g hg⟩

theorem Operator.leads_among {p : ℝ} {r : Register} {n : ℕ} (hr : r.stop ≤ n) {op : Operator ℝ}
    (hop : permeability r.width p = .ok op) {rs : List Register}
    {before behind : List (Operation ℝ)} (hothers : ∀ o ∈ before ++ behind, o.Aside n rs)
    {v : StateVector ℝ} {ψ : Wave ℝ} (hv : v.wires = n) (hshows : v.Shows ψ) :
    ∃ u, Leads (before ++ op.bound r.wires :: behind) v u ∧ u.wires = n ∧ u.Shows
      (Gate.actAll (gatesOf before ++ ((op.bound r.wires).gates ++ gatesOf behind)) ψ) := by
  subst hv
  have hops : ∀ o ∈ before ++ op.bound r.wires :: behind,
      o.Within v.wires ∧ o.isReset = false := by
    intro o ho
    have hsplit : o = op.bound r.wires ∨ o ∈ before ++ behind := by
      simp only [List.mem_append, List.mem_cons] at ho ⊢
      tauto
    rcases hsplit with rfl | ho
    · exact ⟨(coin_aside hr hop).1, rfl⟩
    · have haside := hothers o ho
      exact ⟨haside.within, haside.gates_only⟩
  obtain ⟨u, hleads, hu, hshows'⟩ := Simulation.leads_of_shows hshows hops
  rw [Operation.gatesOf_append, Operation.gatesOf_cons] at hshows'
  exact ⟨u, hleads, hu, hshows'⟩

namespace BoundaryControl

/-- The walker is on the plane. -/
def OnPlane (plane : Boundary) (w : Wiring) (i : ℕ) : Prop :=
  w.position.valueIn i = Pattern.value plane.pattern

/-- **The wall is closed with the chance that no wire is at zero**, wherever the walker is, and
whatever else was done to other registers on the way. -/
theorem Mounted.chance_closed {c : BoundaryControl ℝ} {plane : Boundary} {coin op : Operator ℝ}
    {w : Wiring} {r : Register} {n : ℕ} {p : ℝ} (h : c.Mounted plane coin w n)
    (hcontrol : w.control = some r) (hop : Operator.permeability r.width p = .ok op)
    (hstate : c.state = (permeable op).state) {before behind : List (Operation ℝ)}
    (hothers : ∀ o ∈ before ++ behind, o.Aside n [w.position, r]) {v : StateVector ℝ}
    (hv : v.wires = n) (hsize : v.amplitudes.size = 2 ^ n)
    (hzero : ∀ i < 2 ^ n, v.amplitude i ≠ 0 → r.valueIn i = 0) :
    ∃ u, Leads (before ++ op.bound r.wires :: behind) v u ∧ u.wires = n ∧
      u.amplitudes.size = 2 ^ n ∧
      u.chance (OnPlane plane w) = v.chance (OnPlane plane w) ∧
      u.chance (c.Closed plane w) = (1 - p) ^ r.width * v.chance (OnPlane plane w) := by
  subst hv
  have hstop : r.stop ≤ v.wires := h.apart.stop r (by simp [hcontrol])
  have hwires : w.controlWires = r.wires := Wiring.controlWires_of_some hcontrol
  -- what is asked of the wires, for the walker and for the wall
  set onPlane : (ℕ → Bool) → Prop := fun b => w.position.read b = Pattern.value plane.pattern
  set closed : (ℕ → Bool) → Prop := fun b => onPlane b ∧ r.read b = Pattern.value c.state
  have hplane : ∀ i, OnPlane plane w i ↔ onPlane i.testBit := fun i => by
    rw [OnPlane, ← Register.read_testBit]
  have hclosed : ∀ i, c.Closed plane w i ↔ closed i.testBit := fun i => by
    rw [Closed, hcontrol, ← Register.read_testBit]
    simp only [Option.mem_some_iff, forall_eq', ← Register.read_testBit]
    rfl
  have hblind : ∀ q ∈ r.wires, Blind onPlane q := fun q hq =>
    blind_read (h.apart.control_position (hwires.symm ▸ hq)) _
  have haside : ∀ g ∈ gatesOf before ++ gatesOf behind, g.Fits v.wires ∧
      g.transform.Standard ∧ Blind onPlane g.target ∧ g.target ∉ r.wires := by
    intro g hg
    obtain ⟨hfits, hstandard, htargets⟩ := Operation.gates_of_aside hothers g hg
    exact ⟨hfits, hstandard, blind_read (htargets _ (by simp)) _, htargets _ (by simp)⟩
  have hshows : v.Shows v.wave := StateVector.shows_wave hsize
  have hsupported : ∀ q ∈ r.wires, Wave.Supported v.wave fun b => b q = false := by
    intro q hq b hb
    have hvalue := hzero _ (index_lt v.wires b) hb
    rw [Register.valueIn_index hstop] at hvalue
    exact Register.eq_false_of_read_eq_zero hvalue hq
  have hwidth : (permeable op).state = Pattern.ones r.width :=
    congrArg Pattern.ones (Operator.plain_permeability hop).wires
  have hpattern : IsPattern c.state r.width := by
    rw [hstate, hwidth]
    exact Pattern.isPattern_ones _
  obtain ⟨u, hleads, hu, hshows'⟩ := Operator.leads_among hstop hop hothers rfl hshows
  refine ⟨u, hleads, hu, hu ▸ hshows'.size, ?_, ?_⟩
  · rw [hshows'.chance fun i _ => hplane i, hshows.chance fun i _ => hplane i, hu,
      Operator.chance_among hstop hop hblind haside]
  · rw [hshows'.chance fun i _ => hclosed i, hshows.chance fun i _ => hplane i, hu,
      Operator.chance_permeability_among hstop hop hblind haside hsupported hpattern, hstate,
      hwidth, patternChance_ones]

end BoundaryControl

/-! ### Both -/

open BoundaryControl (OnPlane flipTop)

/-- **The coin transmits** with probability `p` on each of `n` wires. Measured at once, from wires
at zero, it shows each pattern with the product of the chances of its zeros and of its ones. Tossed
on the control register of a wall that is closed in the state that a control has unless it is given
another, it closes the wall on a walker at the plane with the chance that no wire is at zero, and
the block turns the walker round where the wall is closed and nowhere else. -/
structure Operator.Transmits (op : Operator ℝ) (n : ℕ) (p : ℝ) : Prop where
  measured : ∀ name role, ∃ toss v, op.bind (List.range n) = .ok toss ∧
    Leads [toss] (.basis n 0) v ∧ ∀ s, IsPattern s n →
      v.chance (fun i => (Layout.after [(name, role, n)]).key i = s) =
        p ^ s.toList.count '0' * (1 - p) ^ s.toList.count '1'
  reflected : ∀ {c : BoundaryControl ℝ} {plane : Boundary} {coin : Operator ℝ} {w : Wiring}
    {r : Register} {m : ℕ}, c.Mounted plane coin w m → c.permeability = .permeable op →
    c.state = (BoundaryControl.permeable op).state → w.control = some r →
    ∃ toss back ops, op.bind r.wires = .ok toss ∧ coin.inverse.bind w.coin.wires = .ok back ∧
      c.block plane coin w = .ok ops ∧
      ∀ before behind, (∀ o ∈ before ++ behind, o.Aside m [w.position, r]) →
      ∀ v : StateVector ℝ, v.wires = m → v.amplitudes.size = 2 ^ m →
      (∀ i < 2 ^ m, v.amplitude i ≠ 0 → r.valueIn i = 0) →
      ∃ u u' turned, Leads (before ++ toss :: behind) v u ∧
        u.chance (OnPlane plane w) = v.chance (OnPlane plane w) ∧
        u.chance (c.Closed plane w) = (1 - p) ^ n * v.chance (OnPlane plane w) ∧
        Leads ops u u' ∧ Leads (back :: flipTop w.coin) u turned ∧
        ∀ i < 2 ^ m, (¬ c.Closed plane w i → u'.amplitude i = u.amplitude i) ∧
          (c.Closed plane w i → u'.amplitude i = turned.amplitude i)

theorem Operator.transmits {n : ℕ} {p : ℝ} {op : Operator ℝ} (hop : permeability n p = .ok op) :
    op.Transmits n p where
  measured name role := by
    obtain ⟨v, hleads, hchance⟩ := chance_key hop name role
    have hlen : (List.range n).length = op.wires := by
      rw [List.length_range, (plain_permeability hop).wires]
    exact ⟨_, v, bind_eq_ok hlen, hleads, hchance⟩
  reflected := by
    intro c plane coin w r m h hpermeable hstate hcontrol
    have hwidth : r.width = n := by
      rw [h.width_control hcontrol, BoundaryControl.controlWidth, hpermeable]
      exact (plain_permeability hop).wires
    subst hwidth
    have hkind : ∀ bits, c.permeability ≠ .oneWay bits := fun bits => by
      rw [hpermeable]
      simp
    have htoss : r.wires.length = op.wires := by
      rw [Register.length_wires, (plain_permeability hop).wires]
    have hback : w.coin.wires.length = coin.inverse.wires := by
      rw [Register.length_wires]
      exact h.width.symm
    refine ⟨_, _, _, bind_eq_ok htoss, bind_eq_ok hback, h.block_eq_ok hkind, ?_⟩
    intro before behind hothers v hv hsize hzero
    obtain ⟨u, hleads, hu, husize, hplane, hclosed⟩ :=
      h.chance_closed hcontrol hop hstate hothers hv hsize hzero
    obtain ⟨u', turned, hblock, hturn, hvalue⟩ := h.acts_where_closed _ hu husize
    exact ⟨u, u', turned, hleads, hplane, hclosed, hblock, hturn, hvalue⟩

/-- **The permeability coin has the advertised chances.** There is a coin on any number of wires for
the probabilities from zero to one, and anything else is refused; in exact arithmetic the coin
transmits with its probability. -/
theorem Operator.permeability_transmits (n : ℕ) :
    (∀ {R : Type} [Scalar R] (p : R),
      ((∃ op : Operator R, permeability n p = .ok op) ↔ 0 ≤ p ∧ p ≤ 1) ∧
      (¬ (0 ≤ p ∧ p ≤ 1) →
        permeability n p = refuse (.transmissionOutside (Numeral.spell p)))) ∧
    ∀ (p : ℝ) (op : Operator ℝ), permeability n p = .ok op → op.Transmits n p :=
  ⟨fun _ => ⟨exists_permeability_iff, permeability_refused⟩, fun _ _ hop => transmits hop⟩

/-- Two wires that are each left at zero one time in four: one of them is, the lower one, three
times in sixteen, and neither of them, so that the wall is closed, nine times. -/
theorem Operator.permeability_transmits_quarter : ∃ op : Operator ℝ,
    permeability 2 (1 / 4) = .ok op ∧
    (∃ toss v, op.bind [0, 1] = .ok toss ∧ Leads [toss] (.basis 2 0) v ∧
      v.chance (fun i => (Layout.after [("control", .control 0, 2)]).key i = "10") = 3 / 16) ∧
    ∃ toss u, op.bind [2, 3] = .ok toss ∧ Leads [toss] (.basis 4 1) u ∧
      u.chance ((BoundaryControl.permeable op).Closed ⟨"1", 0, none⟩
        ⟨⟨"dimension0", .dimension 0, 0, 1⟩, ⟨"coin", .coin, 1, 1⟩,
          some ⟨"boundary0 control", .control 0, 2, 2⟩, none⟩) = 9 / 16 := by
  obtain ⟨hcoins, htransmits⟩ := permeability_transmits 2
  obtain ⟨op, hop⟩ := (hcoins (1 / 4 : ℝ)).1.mpr (by norm_num)
  obtain ⟨hmeasured, hreflected⟩ := htransmits (1 / 4) op hop
  refine ⟨op, hop, ?_, ?_⟩
  · obtain ⟨toss, v, htoss, hleads, hchance⟩ := hmeasured "control" (.control 0)
    have hpattern : IsPattern "10" 2 := ⟨by simp [Pattern.isBit], rfl⟩
    have hzeros : "10".toList.count '0' = 1 := by decide
    have hones : "10".toList.count '1' = 1 := by decide
    refine ⟨toss, v, htoss, hleads, ?_⟩
    rw [hchance "10" hpattern, hzeros, hones]
    norm_num
  · set w : Wiring := ⟨⟨"dimension0", .dimension 0, 0, 1⟩, ⟨"coin", .coin, 1, 1⟩,
      some ⟨"boundary0 control", .control 0, 2, 2⟩, none⟩ with hw
    have hwires : op.wires = 2 := (plain_permeability hop).wires
    have hlaid : [w.position, w.coin, ⟨"boundary0 control", .control 0, 2, 2⟩].Pairwise
        fun r s => r.stop ≤ s.start := by decide
    have hmounted : (BoundaryControl.permeable op).Mounted ⟨"1", 0, none⟩ (.hadamard 1) w 4 :=
      ⟨Pattern.isPattern_ones _, BoundaryControl.isPattern_one, .hadamard 1, rfl,
        congrArg some hwires.symm, ⟨hlaid.imp Register.disjoint_of_stop_le, by decide⟩⟩
    have hzero : ∀ i < 2 ^ 4, (.basis 4 1 : StateVector ℝ).amplitude i ≠ 0 →
        (⟨"boundary0 control", .control 0, 2, 2⟩ : Register).valueIn i = 0 := by
      intro i hi hne
      rw [StateVector.amplitude_basis (by decide) hi] at hne
      split_ifs at hne with h
      · rw [h]
        decide
      · exact absurd rfl hne
    obtain ⟨toss, back, ops, htoss, -, -, hrun⟩ := hreflected hmounted rfl rfl rfl
    obtain ⟨u, -, -, hleads, -, hclosed, -⟩ := hrun [] [] (by simp) (.basis 4 1) rfl
      (by simp [StateVector.basis]) hzero
    refine ⟨toss, u, htoss, hleads, ?_⟩
    rw [hclosed, StateVector.chance_basis (by decide)]
    · norm_num
    · rfl

end LatticeWalk
