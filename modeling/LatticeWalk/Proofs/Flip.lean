import LatticeWalk.Proofs.Control

/-! # Flips

A gate that flips its target moves amplitudes without changing them. `Gate.send` says where the
amplitude of given bits goes to, and a list of flips acts on a wave by what it does to bits:

* `Gate.actAll_flips`: the amplitude of `b` is found at `Gate.sendAll gs b`.
* `Gate.actAll_basis`: a single assignment stays a single assignment.
* `Gate.sendAll_under`, `Gate.sendAll_plain`: flips under further controls, and without controls.

Products with zero and one have to be exact for that: `Wave.FlipExact` holds of all waves over the
reals, and of zeros and ones over any scalars that are `BitExact`. -/

namespace LatticeWalk

open Function (update)

/-- Flips leave the amplitudes of the wave as they are. -/
def Wave.FlipExact {R : Type} [Scalar R] (ψ : Wave R) : Prop :=
  ∀ b c, 0 * ψ b + 1 * ψ c = ψ c ∧ 1 * ψ b + 0 * ψ c = ψ b

theorem Wave.flipExact_real (ψ : Wave ℝ) : ψ.FlipExact := fun b c => ⟨by ring, by ring⟩

theorem Wave.flipExact_basis {R : Type} [Scalar R] [BitExact R] (b : ℕ → Bool) :
    (Wave.basis b : Wave R).FlipExact := by
  have hmem : ∀ c, (Wave.basis b : Wave R) c ∈ [(0 : Amplitude R), 1] := by
    intro c
    unfold Wave.basis
    split_ifs <;> simp
  exact fun c d => ⟨BitExact.pick_right _ (hmem c) _ (hmem d),
    BitExact.pick_left _ (hmem c) _ (hmem d)⟩

namespace Gate

variable {R : Type}

/-- A flip under controls on other wires. -/
structure IsFlip (g : Gate R) : Prop where
  flip : g.transform = .flip
  apart : ∀ c ∈ g.controls, c.wire ≠ g.target

/-! ### Where bits are sent -/

/-- What a flip makes of bits. -/
def send (g : Gate R) (b : ℕ → Bool) : ℕ → Bool :=
  if Met g.controls b then update b g.target (!b g.target) else b

/-- What flips make of bits one after the other. -/
def sendAll (gs : List (Gate R)) (b : ℕ → Bool) : ℕ → Bool := gs.foldl (fun b g => g.send b) b

@[simp] theorem sendAll_nil (b : ℕ → Bool) : sendAll ([] : List (Gate R)) b = b := rfl

@[simp] theorem sendAll_cons (g : Gate R) (gs : List (Gate R)) (b : ℕ → Bool) :
    sendAll (g :: gs) b = sendAll gs (g.send b) := rfl

@[simp] theorem sendAll_append (gs hs : List (Gate R)) (b : ℕ → Bool) :
    sendAll (gs ++ hs) b = sendAll hs (sendAll gs b) := List.foldl_append

theorem send_of_ne {g : Gate R} {q : ℕ} (h : g.target ≠ q) (b : ℕ → Bool) : g.send b q = b q := by
  unfold send
  split_ifs
  · exact Function.update_of_ne h.symm _ _
  · rfl

theorem sendAll_of_ne {q : ℕ} : ∀ {gs : List (Gate R)}, (∀ g ∈ gs, g.target ≠ q) →
    ∀ b, sendAll gs b q = b q
  | [], _, _ => rfl
  | g :: gs, h, b => by
    rw [sendAll_cons, sendAll_of_ne fun g' hg' => h g' (by simp [hg']), send_of_ne (h g (by simp))]

theorem send_send {g : Gate R} (h : g.IsFlip) (b : ℕ → Bool) : g.send (g.send b) = b := by
  by_cases hm : Met g.controls b
  · have hs : g.send b = update b g.target (!b g.target) := if_pos hm
    rw [hs, send, if_pos ((met_update h.apart _ _).mpr hm)]
    simp
  · rw [send, show g.send b = b from if_neg hm, if_neg hm]

theorem sendAll_reverse : ∀ {gs : List (Gate R)}, (∀ g ∈ gs, g.IsFlip) →
    ∀ b, sendAll gs.reverse (sendAll gs b) = b
  | [], _, _ => rfl
  | g :: gs, h, b => by
    rw [List.reverse_cons, sendAll_append, sendAll_cons g gs,
      sendAll_reverse fun g' hg' => h g' (by simp [hg'])]
    exact send_send (h g (by simp)) b

/-! ### The action on waves -/

section act
variable [Scalar R]

theorem act_flip {g : Gate R} (h : g.IsFlip) {ψ : Wave R} (hψ : ψ.FlipExact) (b : ℕ → Bool) :
    g.act ψ b = ψ (g.send b) := by
  unfold act send
  rw [h.flip]
  split_ifs with hm ht
  · rw [ht]
    exact (hψ _ _).2
  · rw [Bool.not_eq_true] at ht
    rw [ht]
    exact (hψ _ _).1
  · rfl

theorem flipExact_act {g : Gate R} (h : g.IsFlip) {ψ : Wave R} (hψ : ψ.FlipExact) :
    (g.act ψ).FlipExact := by
  intro b c
  rw [act_flip h hψ, act_flip h hψ]
  exact hψ _ _

/-- **Flips move amplitudes**: that of `b` is afterwards found where `b` is sent to. -/
theorem actAll_flips : ∀ {gs : List (Gate R)}, (∀ g ∈ gs, g.IsFlip) → ∀ {ψ : Wave R}, ψ.FlipExact →
    ∀ b, actAll gs ψ (sendAll gs b) = ψ b
  | [], _, _, _, _ => rfl
  | g :: gs, h, ψ, hψ, b => by
    have hg : g.IsFlip := h g (by simp)
    rw [actAll_cons, sendAll_cons,
      actAll_flips (fun g' hg' => h g' (by simp [hg'])) (flipExact_act hg hψ), act_flip hg hψ,
      send_send hg]

/-- The amplitude of `b` comes from where the flips in the opposite order send it. -/
theorem actAll_flips_reverse {gs : List (Gate R)} (h : ∀ g ∈ gs, g.IsFlip) {ψ : Wave R}
    (hψ : ψ.FlipExact) (b : ℕ → Bool) : actAll gs ψ b = ψ (sendAll gs.reverse b) := by
  have hr : ∀ g ∈ gs.reverse, g.IsFlip := fun g hg => h g (List.mem_reverse.mp hg)
  have e := sendAll_reverse hr b
  rw [List.reverse_reverse] at e
  calc actAll gs ψ b = actAll gs ψ (sendAll gs (sendAll gs.reverse b)) := by rw [e]
    _ = ψ (sendAll gs.reverse b) := actAll_flips h hψ _

/-- **Flips permute basis states.** -/
theorem actAll_basis [BitExact R] {gs : List (Gate R)} (h : ∀ g ∈ gs, g.IsFlip) (b : ℕ → Bool) :
    actAll gs (Wave.basis b) = Wave.basis (sendAll gs b) := by
  funext c
  rw [actAll_flips_reverse h (Wave.flipExact_basis b)]
  have hiff : sendAll gs.reverse c = b ↔ c = sendAll gs b := by
    constructor
    · rintro rfl
      have e := sendAll_reverse (fun g hg => h g (List.mem_reverse.mp hg)) c
      rw [List.reverse_reverse] at e
      exact e.symm
    · rintro rfl
      exact sendAll_reverse h b
  unfold Wave.basis
  by_cases hc : c = sendAll gs b
  · rw [if_pos (hiff.mpr hc), if_pos hc]
  · rw [if_neg (mt hiff.mp hc), if_neg hc]

end act

/-! ### Flips under controls -/

theorem IsFlip.under {cs : List Control} {g : Gate R} (h : g.IsFlip)
    (hcs : ∀ c ∈ cs, c.wire ≠ g.target) : (g.under cs).IsFlip :=
  ⟨h.flip, fun c hc => (List.mem_append.mp hc).elim (hcs c) (h.apart c)⟩

theorem send_under (cs : List Control) (g : Gate R) (b : ℕ → Bool) :
    (g.under cs).send b = if Met cs b then g.send b else b := by
  have hu : Met (g.under cs).controls b ↔ Met cs b ∧ Met g.controls b := met_append
  unfold send
  by_cases h : Met cs b
  · rw [if_pos h]
    exact if_congr (by rw [hu]; exact and_iff_right h) rfl rfl
  · rw [if_neg h, if_neg fun hm => h (hu.mp hm).1]

/-- Flips under further controls send bits only if these controls are met. -/
theorem sendAll_under {cs : List Control} : ∀ {gs : List (Gate R)},
    (∀ g ∈ gs, ∀ c ∈ cs, c.wire ≠ g.target) → ∀ b,
    sendAll (gs.map (under cs)) b = if Met cs b then sendAll gs b else b
  | [], _, b => by simp
  | g :: gs, h, b => by
    rw [List.map_cons, sendAll_cons, sendAll_under fun g' hg' => h g' (by simp [hg']), sendAll_cons,
      send_under]
    by_cases hb : Met cs b
    · have hkeep : Met cs (g.send b) ↔ Met cs b := by
        unfold send
        split_ifs
        · exact met_update (h g (by simp)) _ _
        · rfl
      rw [if_pos hb, if_pos (hkeep.mpr hb), if_pos hb]
    · rw [if_neg hb, if_neg hb, if_neg hb]

theorem send_plain (w : ℕ) (b : ℕ → Bool) : (plain .flip w : Gate R).send b = update b w (!b w) :=
  if_pos (met_nil b)

theorem sendAll_plain : ∀ {ws : List ℕ}, ws.Nodup → ∀ b : ℕ → Bool,
    sendAll (ws.map (plain .flip) : List (Gate R)) b = fun q => if q ∈ ws then !b q else b q
  | [], _, b => by simp
  | w :: ws, h, b => by
    obtain ⟨hw, hws⟩ := List.nodup_cons.mp h
    rw [List.map_cons, sendAll_cons, sendAll_plain hws, send_plain]
    funext q
    by_cases hq : q = w
    · subst hq
      simp [hw]
    · simp [hq]

theorem isFlip_plain (w : ℕ) : (plain .flip w : Gate R).IsFlip := ⟨rfl, by simp [plain]⟩

end Gate

end LatticeWalk
