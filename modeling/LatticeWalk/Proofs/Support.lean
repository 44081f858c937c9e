import LatticeWalk.Proofs.Flip

/-! # Support

Where a wave is not zero, in exact arithmetic.

* `Wave.Supported`: all amplitudes that are not zero belong to bits with a property.
* `Gate.supported_actAll`: gates keep what their targets have no part in.
* `Gate.exists_of_actAll_ne_zero`: gates carry amplitudes only between bits that differ in their
  targets.
* `Gate.actAll_blocks`: the same gates under the controls of several planes act as often as there
  are planes whose controls are met. -/

namespace LatticeWalk

open Function (update)

/-- All amplitudes that are not zero belong to bits with the property. -/
def Wave.Supported (ψ : Wave ℝ) (P : (ℕ → Bool) → Prop) : Prop := ∀ b, ψ b ≠ 0 → P b

theorem Wave.Supported.mono {ψ : Wave ℝ} {P Q : (ℕ → Bool) → Prop} (h : ψ.Supported P)
    (hPQ : ∀ b, P b → Q b) : ψ.Supported Q := fun b hb => hPQ b (h b hb)

theorem Wave.supported_basis {P : (ℕ → Bool) → Prop} {b : ℕ → Bool} (h : P b) :
    (Wave.basis b : Wave ℝ).Supported P := by
  intro c hc
  unfold Wave.basis at hc
  split_ifs at hc with he
  · exact he ▸ h
  · exact absurd rfl hc

/-- The bits agree on all wires but the given ones. -/
def AgreeOff (ws : List ℕ) (b c : ℕ → Bool) : Prop := ∀ q ∉ ws, c q = b q

theorem AgreeOff.read {ws : List ℕ} {b c : ℕ → Bool} (h : AgreeOff ws b c) {r : Register}
    (hr : ws.Disjoint r.wires) : r.read c = r.read b :=
  Register.read_congr fun q hq => h q fun hw => hr hw hq

theorem blind_agreeOff {ws : List ℕ} {t : ℕ} (ht : t ∈ ws) (b : ℕ → Bool) :
    Blind (AgreeOff ws b) t := by
  intro c v
  refine forall₂_congr fun q hq => ?_
  rw [Function.update_of_ne (ne_of_mem_of_not_mem ht hq).symm]

namespace Gate

/-! ### Zero amplitudes -/

theorem act_zero (g : Gate ℝ) : g.act (0 : Wave ℝ) = 0 := by
  funext b
  unfold act
  simp

theorem actAll_zero : ∀ gs : List (Gate ℝ), actAll gs (0 : Wave ℝ) = 0
  | [] => rfl
  | g :: gs => by rw [actAll_cons, act_zero, actAll_zero gs]

/-- **Amplitudes spread over targets only**: one that is not zero comes from bits that differ from
its own in the targets of the gates. -/
theorem exists_of_actAll_ne_zero {gs : List (Gate ℝ)} {ws : List ℕ} (h : ∀ g ∈ gs, g.target ∈ ws)
    {ψ : Wave ℝ} {b : ℕ → Bool} (hb : actAll gs ψ b ≠ 0) : ∃ c, AgreeOff ws b c ∧ ψ c ≠ 0 := by
  by_contra hnone
  push Not at hnone
  apply hb
  rw [actAll_congr (fun g hg => blind_agreeOff (h g hg) b) (φ := 0) hnone b fun _ _ => rfl,
    actAll_zero]
  rfl

/-- What the targets of gates have no part in holds behind them wherever there is an amplitude. -/
theorem supported_actAll {P : (ℕ → Bool) → Prop} {gs : List (Gate ℝ)}
    (hP : ∀ g ∈ gs, Blind P g.target) {ψ : Wave ℝ} (h : ψ.Supported P) :
    (actAll gs ψ).Supported P := by
  intro b hb
  by_contra hPb
  apply hb
  rw [actAll_congr (fun g hg => (hP g hg).not) (φ := 0)
    (fun c hc => not_not.mp fun hne => hc (h c hne)) b hPb, actAll_zero]
  rfl

theorem act_plain_flip (t : ℕ) (ψ : Wave ℝ) (b : ℕ → Bool) :
    (plain .flip t).act ψ b = ψ (update b t (!b t)) := by
  rw [act_flip (isFlip_plain t) ψ.flipExact_real, send_plain]

theorem supported_flips {gs : List (Gate ℝ)} (h : ∀ g ∈ gs, g.IsFlip) {ψ : Wave ℝ}
    {P Q : (ℕ → Bool) → Prop} (hψ : ψ.Supported P) (hPQ : ∀ b, P b → Q (sendAll gs b)) :
    (actAll gs ψ).Supported Q := by
  intro b hb
  rw [actAll_flips_reverse h ψ.flipExact_real] at hb
  have hQ := hPQ _ (hψ _ hb)
  have e := sendAll_reverse (fun g hg => h g (List.mem_reverse.mp hg)) b
  rw [List.reverse_reverse] at e
  rwa [e] at hQ

/-! ### The same gates under several controls -/

section blocks
variable {R : Type} [Scalar R]

theorem actAll_iterate_congr {P : (ℕ → Bool) → Prop} {gs : List (Gate R)}
    (hP : ∀ g ∈ gs, Blind P g.target) (n : ℕ) {ψ φ : Wave R} (h : ∀ b, P b → ψ b = φ b) :
    ∀ b, P b → (actAll gs)^[n] ψ b = (actAll gs)^[n] φ b := by
  induction n generalizing ψ φ with
  | zero => exact h
  | succ n ih => exact ih (actAll_congr hP h)

/-- **Blocks that share their gates** act as often as there are controls that are met. -/
theorem actAll_blocks {α : Type} (cs : α → List Control) {gs : List (Gate R)} : ∀ {ps : List α},
    (∀ p ∈ ps, ∀ g ∈ gs, ∀ c ∈ cs p, c.wire ≠ g.target) → ∀ (ψ : Wave R) (b : ℕ → Bool),
    actAll (ps.flatMap fun p => gs.map (under (cs p))) ψ b =
      (actAll gs)^[ps.countP fun p => Met (cs p) b] ψ b
  | [], _, _, _ => rfl
  | p :: ps, h, ψ, b => by
    have hp := h p (by simp)
    rw [List.flatMap_cons, actAll_append, actAll_blocks cs fun p' hp' => h p' (by simp [hp'])]
    by_cases hm : Met (cs p) b
    · rw [List.countP_cons_of_pos (by simpa using hm), Function.iterate_succ_apply]
      refine actAll_iterate_congr (P := Met (cs p)) (fun g hg => blind_met (hp g hg)) _ ?_ b hm
      intro c hc
      rw [actAll_under hp, if_pos hc]
    · rw [List.countP_cons_of_neg (by simpa using hm)]
      refine actAll_iterate_congr (P := fun c => ¬ Met (cs p) c)
        (fun g hg => (blind_met (hp g hg)).not) _ ?_ b hm
      intro c hc
      rw [actAll_under hp, if_neg hc]

end blocks

end Gate

end LatticeWalk
