import LatticeWalk.Proofs.Pass

/-! # Translations

The bits of a walker that is moved along, and the waves that are moved with it.

* `Register.advance`: a register moved on by any number of sites; advances commute.
* `Shift.move_eq_advance`, `Shift.hop_advance`: moves are advances, so that the shift commutes with
  them.
* `Plan.translate`: all position registers advanced.
* `Wave.Carries`: one wave has at the image of bits the amplitude that another has at the bits.
  Gates keep this if the images differ from bits on other wires than theirs (`Gate.carries_act`),
  and flips if they commute with taking images (`Gate.carries_flips`). -/

namespace LatticeWalk

open Function (update)
open Operation (gatesOf)

/-! ### Registers moved on -/

namespace Register

/-- The register moved on by `t` sites, cyclically. -/
def advance (r : Register) (t : ℕ) (b : ℕ → Bool) : ℕ → Bool := r.put b (r.read b + t)

variable {r s : Register} {b c : ℕ → Bool} {t u : ℕ}

theorem advance_of_notMem {q : ℕ} (h : q ∉ r.wires) (t : ℕ) (b : ℕ → Bool) :
    r.advance t b q = b q := put_of_notMem h b _

theorem read_advance (r : Register) (t : ℕ) (b : ℕ → Bool) :
    r.read (r.advance t b) = (r.read b + t) % 2 ^ r.width := read_put r b _

theorem read_advance_of_disjoint (h : r.wires.Disjoint s.wires) (t : ℕ) (b : ℕ → Bool) :
    s.read (r.advance t b) = s.read b :=
  read_congr fun _ hq => advance_of_notMem (fun hq' => h hq' hq) t b

theorem advance_apply (h : ∀ q ∈ r.wires, b q = c q) {q : ℕ} (hq : q ∈ r.wires) :
    r.advance t b q = r.advance t c q := by
  simp only [advance, put, read_congr h, if_pos (mem_wires.mp hq)]

theorem advance_advance (r : Register) (t u : ℕ) (b : ℕ → Bool) :
    r.advance t (r.advance u b) = r.advance (u + t) b := by
  refine eq_of_read_eq (r := r) (fun q hq => ?_) ?_
  · rw [advance_of_notMem hq, advance_of_notMem hq, advance_of_notMem hq]
  · rw [read_advance, read_advance, read_advance, Nat.mod_add_mod, Nat.add_assoc]

theorem advance_comm (r : Register) (t u : ℕ) (b : ℕ → Bool) :
    r.advance t (r.advance u b) = r.advance u (r.advance t b) := by
  rw [advance_advance, advance_advance, Nat.add_comm]

theorem advance_comm_of_disjoint (h : r.wires.Disjoint s.wires) (t u : ℕ) (b : ℕ → Bool) :
    r.advance t (s.advance u b) = s.advance u (r.advance t b) := by
  funext q
  by_cases hr : q ∈ r.wires
  · rw [advance_of_notMem (h hr)]
    exact advance_apply (fun q' hq' => advance_of_notMem (h hq') u b) hr
  · rw [advance_of_notMem hr]
    by_cases hs : q ∈ s.wires
    · exact (advance_apply (fun q' hq' => advance_of_notMem (fun hr' => h hr' hq') t b) hs).symm
    · rw [advance_of_notMem hs, advance_of_notMem hs, advance_of_notMem hr]

theorem advance_injective (r : Register) (t : ℕ) : (r.advance t).Injective := by
  intro b c h
  refine eq_of_read_eq (r := r) (fun q hq => ?_) ?_
  · have hbit := congrFun h q
    rwa [advance_of_notMem hq, advance_of_notMem hq] at hbit
  · have hread := congrArg r.read h
    rw [read_advance, read_advance] at hread
    have hmod : r.read b ≡ r.read c [MOD 2 ^ r.width] := Nat.ModEq.add_right_cancel' t hread
    exact hmod.eq_of_lt_of_lt (read_lt r b) (read_lt r c)

theorem advance_update {q : ℕ} (h : q ∉ r.wires) (v : Bool) :
    r.advance t (update b q v) = update (r.advance t b) q v := by
  have hsame : ∀ p ∈ r.wires, update b q v p = b p := fun p hp =>
    Function.update_of_ne (ne_of_mem_of_not_mem hp h) v b
  funext p
  by_cases hp : p ∈ r.wires
  · rw [Function.update_of_ne (ne_of_mem_of_not_mem hp h), advance_apply hsame hp]
  · rw [advance_of_notMem hp, Function.update_apply, Function.update_apply, advance_of_notMem hp]

end Register

/-! ### The shift -/

namespace Shift

/-- **A move is an advance**, to the left by one less than once around. -/
theorem move_eq_advance (direction : Direction) (r : Register) : ∃ t, ∀ b : ℕ → Bool,
    move direction r b = r.advance t b := by
  cases direction with
  | left =>
    refine ⟨2 ^ r.width - 1, fun b => ?_⟩
    have hpos : 1 ≤ 2 ^ r.width := Nat.one_le_two_pow
    rw [move, Register.advance, Nat.add_sub_assoc hpos]
  | right => exact ⟨1, fun _ => rfl⟩

theorem move_advance {r s : Register} (h : r = s ∨ r.wires.Disjoint s.wires) (direction : Direction)
    (t : ℕ) (b : ℕ → Bool) :
    move direction r (s.advance t b) = s.advance t (move direction r b) := by
  obtain ⟨u, hu⟩ := move_eq_advance direction r
  rw [hu, hu]
  rcases h with rfl | h
  · exact r.advance_comm u t b
  · exact Register.advance_comm_of_disjoint h u t b

/-- **The shift commutes with advances** of a register apart from the coin. -/
theorem hop_advance {coin s : Register} {half m : ℕ} {r : ℕ → Register}
    (hcoin : coin.wires.Disjoint s.wires) (hr : ∀ d < m, r d = s ∨ (r d).wires.Disjoint s.wires)
    (t : ℕ) (b : ℕ → Bool) :
    hop coin half r m (s.advance t b) = s.advance t (hop coin half r m b) := by
  have hread : coin.read (s.advance t b) = coin.read b :=
    Register.read_advance_of_disjoint hcoin.symm t b
  unfold hop
  rw [hread]
  split_ifs with hright hleft
  · exact move_advance (hr _ hright) .right t b
  · exact move_advance (hr _ hleft.2) .left t b
  · rfl

end Shift

/-! ### Waves that are carried along -/

/-- One wave has at the image of bits what another has at the bits. -/
def Wave.Carries {R : Type} (T : (ℕ → Bool) → ℕ → Bool) (ψ φ : Wave R) : Prop :=
  ∀ b, φ (T b) = ψ b

namespace Wave.Carries

variable {R : Type} {T S : (ℕ → Bool) → ℕ → Bool} {ψ φ χ : Wave R}

theorem trans (h : Carries T ψ φ) (h' : Carries S φ χ) : Carries (fun b => S (T b)) ψ χ :=
  fun b => (h' (T b)).trans (h b)

theorem basis [Scalar R] (hT : T.Injective) (b : ℕ → Bool) :
    Carries T (Wave.basis b : Wave R) (Wave.basis (T b)) := by
  intro c
  unfold Wave.basis
  by_cases h : c = b
  · rw [if_pos h, if_pos (congrArg T h)]
  · rw [if_neg h, if_neg fun he => h (hT he)]

end Wave.Carries

namespace Gate

variable {T : (ℕ → Bool) → ℕ → Bool} {ψ φ : Wave ℝ}

/-- The wires of the gate are their own images. -/
structure Spared (T : (ℕ → Bool) → ℕ → Bool) (g : Gate ℝ) : Prop where
  wires : ∀ q ∈ g.wires, ∀ b, T b q = b q
  target : ∀ b v, T (update b g.target v) = update (T b) g.target v

theorem carries_act {g : Gate ℝ} (hg : g.Spared T) (h : Wave.Carries T ψ φ) :
    Wave.Carries T (g.act ψ) (g.act φ) := by
  intro b
  have htarget : T b g.target = b g.target := hg.wires _ (by simp [wires]) b
  have hmet : Met g.controls (T b) ↔ Met g.controls b :=
    forall₂_congr fun c hc => by
      rw [hg.wires _ (List.mem_append_left _ (List.mem_map_of_mem hc)) b]
  unfold act
  rw [if_congr hmet rfl rfl, htarget, ← hg.target b false, ← hg.target b true, h, h, h]

theorem carries_actAll : ∀ {gs : List (Gate ℝ)}, (∀ g ∈ gs, g.Spared T) → ∀ {ψ φ : Wave ℝ},
    Wave.Carries T ψ φ → Wave.Carries T (actAll gs ψ) (actAll gs φ)
  | [], _, _, _, h => h
  | g :: gs, hgs, ψ, φ, h => by
    rw [actAll_cons, actAll_cons]
    exact carries_actAll (fun g' hg' => hgs g' (by simp [hg'])) (carries_act (hgs g (by simp)) h)

/-- **Flips that commute with taking images** carry amplitudes along. -/
theorem carries_flips {gs : List (Gate ℝ)} (hflip : ∀ g ∈ gs, g.IsFlip)
    (hcomm : ∀ b, sendAll gs (T b) = T (sendAll gs b)) (h : Wave.Carries T ψ φ) :
    Wave.Carries T (actAll gs ψ) (actAll gs φ) := by
  intro c
  have hback : sendAll gs (sendAll gs.reverse c) = c := by
    have e := sendAll_reverse (fun g hg => hflip g (List.mem_reverse.mp hg)) c
    rwa [List.reverse_reverse] at e
  rw [← hback, ← hcomm, actAll_flips hflip φ.flipExact_real, actAll_flips hflip ψ.flipExact_real, h]

end Gate

/-! ### The walker moved along -/

namespace Plan

variable {R : Type}

/-- The walker moved along the first `m` dimensions, by `t d` sites along dimension `d`. -/
def translate (plan : Plan R) (t : ℕ → ℕ) : (m : ℕ) → (ℕ → Bool) → ℕ → Bool
  | 0, b => b
  | m + 1, b => (plan.positionOf m).advance (t m) (plan.translate t m b)

variable {plan : Plan R} {t : ℕ → ℕ} {b : ℕ → Bool}

theorem translate_of_notMem {q : ℕ} : ∀ {m : ℕ}, (∀ d < m, q ∉ (plan.positionOf d).wires) →
    plan.translate t m b q = b q
  | 0, _ => rfl
  | m + 1, h => by
    rw [translate, Register.advance_of_notMem (h m (Nat.lt_succ_self m)),
      translate_of_notMem fun d hd => h d (Nat.lt_succ_of_lt hd)]

variable [Scalar R] {spec : WalkSpec R} (h : plan.Sound spec)
include h

namespace Sound

theorem positionOf_eq_or_disjoint {d e : ℕ} (hd : d < plan.positions.length)
    (he : e < plan.positions.length) : plan.positionOf d = plan.positionOf e ∨
      (plan.positionOf d).wires.Disjoint (plan.positionOf e).wires := by
  by_cases hde : d = e
  · exact .inl (hde ▸ rfl)
  · exact .inr (h.positions_disjoint hd he hde)

/-- **Every dimension is moved along by its own number of sites.** -/
theorem read_translate {m : ℕ} (hm : m ≤ plan.positions.length) {d : ℕ} (hd : d < m) :
    (plan.positionOf d).read (plan.translate t m b) =
      ((plan.positionOf d).read b + t d) % 2 ^ (plan.positionOf d).width := by
  induction m with
  | zero => exact absurd hd (Nat.not_lt_zero d)
  | succ m ih =>
    rw [translate]
    rcases Nat.lt_succ_iff_lt_or_eq.mp hd with hlt | rfl
    · have hdisj := h.positions_disjoint (show m < plan.positions.length by omega)
        (show d < plan.positions.length by omega) hlt.ne'
      rw [Register.read_advance_of_disjoint hdisj, ih (by omega) hlt]
    · have hfresh : (plan.positionOf d).read (plan.translate t d b) = (plan.positionOf d).read b :=
        Register.read_congr fun q hq => translate_of_notMem fun e he hq' =>
          h.positions_disjoint (by omega) (by omega) he.ne hq' hq
      rw [Register.read_advance, hfresh]

end Sound

end Plan

end LatticeWalk
