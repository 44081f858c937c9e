import LatticeWalk.Proofs.Operator

/-! # Operators in order and on the wires of a program

In front of the wires on which a derived operator works are those of its added controls. Its gates
fit its wires and have their targets behind the controls (`Operator.InOrder`): inversion exchanges
the two lists, and control moves every gate as far back as it adds wires in front.

So an operator can be bound to as many wires as it has, and all of its local wires are looked up
among them and found (`Gate.LookedUp`). Main statement: `Operator.derived_in_order`. -/

namespace LatticeWalk

variable {R : Type}

/-- **A gate on the wires of a program**: each local wire of `g` is looked up among `wires`, and is
found there. -/
structure Gate.LookedUp (wires : List ℕ) (g bound : Gate R) : Prop where
  transform : bound.transform = g.transform
  target : wires[g.target]? = some bound.target
  controls : List.Forall₂ (fun c d => wires[c.wire]? = some d.wire ∧ d.value = c.value)
    g.controls bound.controls

theorem Gate.Fits.lookedUp {n : ℕ} {g : Gate R} (h : g.Fits n) {wires : List ℕ}
    (hlen : wires.length = n) : g.LookedUp wires (g.mapWires fun w => wires.getD w 0) := by
  have hfound : ∀ w < n, wires[w]? = some (wires.getD w 0) := by
    intro w hw
    have hlt : w < wires.length := hlen ▸ hw
    rw [List.getD_eq_getElem _ _ hlt, List.getElem?_eq_getElem hlt]
  refine ⟨rfl, hfound _ h.target, ?_⟩
  rw [Gate.mapWires, List.forall₂_map_right_iff, List.forall₂_same]
  exact fun c hc => ⟨hfound _ (h.controls c hc), rfl⟩

namespace Operator

/-- **An operator in order**: its gates, and those that undo them, have their wires among those of
the operator and name none twice, and none of them has an added control for its target. -/
structure InOrder (op : Operator R) : Prop where
  controlWires_le : op.controlWires ≤ op.wires
  fits : ∀ g ∈ op.gates ++ op.inverseGates, g.Fits op.wires
  target : ∀ g ∈ op.gates ++ op.inverseGates, op.controlWires ≤ g.target

theorem InOrder.inverse {op : Operator R} (h : op.InOrder) : op.inverse.InOrder := by
  have hswap : ∀ g ∈ op.inverse.gates ++ op.inverse.inverseGates,
      g ∈ op.gates ++ op.inverseGates := by
    intro g hg
    rw [inverse_gates, inverse_inverseGates, List.mem_append] at hg
    exact List.mem_append.mpr hg.symm
  exact ⟨h.controlWires_le, fun g hg => h.fits g (hswap g hg), fun g hg => h.target g (hswap g hg)⟩

/-- The gates under a pattern are those of the operator, moved behind the new wires. -/
theorem exists_of_mem_underPattern {op : Operator R} {k : ℕ} {s : String} {inverted : Bool}
    {label : Option String} {g : Gate R} (hg : g ∈ (op.underPattern k s inverted label).gates ++
      (op.underPattern k s inverted label).inverseGates) :
    ∃ g' ∈ op.gates ++ op.inverseGates, g = extendGate (Pattern.wireBits s) g' := by
  have hbody : ∀ i, ∀ g' ∈ op.body i, g' ∈ op.gates ++ op.inverseGates := by
    intro i g' hg'
    cases i
    · exact List.mem_append_left _ hg'
    · exact List.mem_append_right _ hg'
  rcases List.mem_append.mp hg with hg | hg
  all_goals
    obtain ⟨g', hg', rfl⟩ := List.mem_map.mp hg
    exact ⟨g', hbody _ g' hg', rfl⟩

theorem InOrder.underPattern {op : Operator R} (h : op.InOrder) {k : ℕ} {s : String}
    (hs : IsPattern s k) (inverted : Bool) (label : Option String) :
    (op.underPattern k s inverted label).InOrder := by
  have hlen : (Pattern.wireBits s).length = k := Pattern.length_wireBits_of hs
  refine ⟨Nat.add_le_add_right h.controlWires_le k, fun g hg => ?_, fun g hg => ?_⟩
  · obtain ⟨g', hg', rfl⟩ := exists_of_mem_underPattern hg
    have hfits : (extendGate (Pattern.wireBits s) g').Fits
        (op.wires + (Pattern.wireBits s).length) := fits_extendGate (h.fits g' hg')
    rwa [hlen] at hfits
  · obtain ⟨g', hg', rfl⟩ := exists_of_mem_underPattern hg
    have htarget := h.target g' hg'
    show op.controlWires + k ≤ g'.target + (Pattern.wireBits s).length
    omega

section library
variable [Scalar R]

theorem Plain.inOrder {n : ℕ} {op : Operator R} (h : Plain n op) (hfront : op.controlWires = 0) :
    op.InOrder := by
  have hfits : AllFit op.wires (op.gates ++ op.inverseGates) := by
    rw [h.wires, h.inverse]
    exact h.fits.append h.fits.undo
  exact ⟨by omega, hfits, fun g _ => by omega⟩

theorem controlWires_of_su2 {n : ℕ} {theta zeta xi : Angles R} {op : Operator R}
    (h : su2 n theta zeta xi = .ok op) : op.controlWires = 0 := by
  obtain ⟨_, -, h⟩ := Except.bind_eq_ok.mp h
  obtain ⟨_, -, h⟩ := Except.bind_eq_ok.mp h
  obtain ⟨_, -, h⟩ := Except.bind_eq_ok.mp h
  cases h
  rfl

theorem controlWires_of_permeability {n : ℕ} {transmission : R} {op : Operator R}
    (h : permeability n transmission = .ok op) : op.controlWires = 0 := by
  unfold permeability at h
  split_ifs at h
  · cases h
    rfl
  · cases h

/-- **Derived operators are in order**, by how they were built. -/
theorem Derived.inOrder {op : Operator R} (h : Derived op) : op.InOrder := by
  induction h with
  | identity n => exact (plain_ofGates (allFit_nil n)).inOrder rfl
  | hadamard n => exact (plain_ofGates (allFit_everyWire _ n)).inOrder rfl
  | flip n => exact (plain_ofGates (allFit_everyWire _ n)).inOrder rfl
  | absorbing n => exact (plain_ofGates (allFit_nil n)).inOrder rfl
  | crossingFlag => exact plain_crossingFlag.inOrder rfl
  | diffusion n => exact (plain_diffusion n).inOrder rfl
  | phaseKickback n angle => exact (plain_ofGates (allFit_kickbackGates n angle)).inOrder rfl
  | kickback n variant => exact (plain_ofGates (allFit_kickbackGates n _)).inOrder rfl
  | fourier n => exact (plain_fourier n).inOrder rfl
  | cyclicIncrement n => exact (plain_cyclicIncrement n).inOrder rfl
  | directionReversal n => exact (plain_directionReversal n).inOrder rfl
  | su2 h => exact (plain_su2 h).inOrder (controlWires_of_su2 h)
  | permeability h => exact (plain_permeability h).inOrder (controlWires_of_permeability h)
  | inverse _ ih => exact ih.inverse
  | control _ h' ih =>
    obtain ⟨hpattern, rfl⟩ := control_eq_ok.mp h'
    exact ih.underPattern hpattern _ _

end library

/-! ### On the wires of a program -/

namespace InOrder

variable {op : Operator R} {wires : List ℕ} (h : op.InOrder) (hlen : wires.length = op.wires)
include h hlen

theorem lookedUp : List.Forall₂ (Gate.LookedUp wires) op.gates (gatesOn wires op.gates) := by
  rw [gatesOn, List.forall₂_map_right_iff, List.forall₂_same]
  exact fun g hg => (h.fits g (List.mem_append_left _ hg)).lookedUp hlen

theorem apart_of_nodup (hnd : wires.Nodup) {g : Gate R} (hg : g ∈ gatesOn wires op.gates) :
    g.wires.Nodup ∧ g.target ∉ wires.take op.controlWires := by
  have hfits : AllFit op.wires op.gates := fun g' hg' => h.fits g' (List.mem_append_left _ hg')
  refine ⟨?_, fun hmem => ?_⟩
  · have hlt : ∀ w ∈ wires, w < wires.sum + 1 := fun w hw =>
      Nat.lt_succ_of_le (List.le_sum_of_mem hw)
    exact (Gate.fits_iff.mp (fits_gatesOn hnd hlt hlen hfits g hg)).2
  · -- a wire of the controls stands in front of the place where the target was looked up
    obtain ⟨g', hg', rfl⟩ := List.mem_map.mp hg
    have htarget := h.target g' (List.mem_append_left _ hg')
    obtain ⟨i, hi, hfound⟩ := List.getElem_of_mem hmem
    have hfront : i < op.controlWires := by
      rw [List.length_take] at hi
      omega
    rw [List.getElem_take, Gate.mapWires, List.getD_eq_getElem _ _ (hlen ▸ (hfits g' hg').target)]
      at hfound
    have hplace : i = g'.target := hnd.getElem_inj_iff.mp hfound
    omega

end InOrder

variable [Scalar R]

/-- **Operators of the library stay in order** under inversion and control. Bound to as many wires
as it has, an operator finds all of its wires among them; if these are different, its gates name
wires of these only, none of them twice, and no gate has its target on a wire of the controls. -/
theorem derived_in_order {op : Operator R} (h : Derived op) :
    op.InOrder ∧ ∀ wires : List ℕ, wires.length = op.wires →
      ∃ bound, op.bind wires = .ok (.apply op.name op.label wires bound) ∧
        List.Forall₂ (Gate.LookedUp wires) op.gates bound ∧
        (wires.Nodup → ∀ g ∈ bound, (∀ q ∈ g.wires, q ∈ wires) ∧ g.wires.Nodup ∧
          g.target ∉ wires.take op.controlWires) := by
  have horder := h.inOrder
  refine ⟨horder, fun wires hlen => ⟨gatesOn wires op.gates, if_pos hlen, horder.lookedUp hlen, ?_⟩⟩
  intro hnd g hg
  have hfits : AllFit op.wires op.gates := fun g' hg' => horder.fits g' (List.mem_append_left _ hg')
  exact ⟨wires_mem_of_gatesOn hlen hfits hg, horder.apart_of_nodup hlen hnd hg⟩

/-- The Fourier transform of three wires, undone under two controls, on wires in no order. -/
theorem derived_in_order_fourier : ∃ op : Operator ℝ,
    (fourier 3).control 2 (some "01") true none = .ok op ∧ Derived op.inverse ∧
      ∃ bound, op.inverse.bind [8, 3, 5, 0, 6] =
          .ok (.apply op.inverse.name op.inverse.label [8, 3, 5, 0, 6] bound) ∧
        ∀ g ∈ bound, (∀ q ∈ g.wires, q ∈ [8, 3, 5, 0, 6]) ∧ g.wires.Nodup ∧ g.target ∉ [8, 3] := by
  obtain ⟨op, hop⟩ : ∃ op : Operator ℝ, (fourier 3).control 2 (some "01") true none = .ok op :=
    ⟨_, rfl⟩
  have hderived : Derived op.inverse := .inverse (.control (.fourier 3) hop)
  obtain ⟨-, hbind⟩ := derived_in_order hderived
  obtain ⟨hpattern, rfl⟩ := control_eq_ok.mp hop
  obtain ⟨bound, heq, -, hbound⟩ := hbind [8, 3, 5, 0, 6] rfl
  exact ⟨_, hop, hderived, bound, heq, hbound (by decide)⟩

end Operator

end LatticeWalk
