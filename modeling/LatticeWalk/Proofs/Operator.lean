import LatticeWalk.Proofs.Control
import LatticeWalk.Proofs.Fallible
import LatticeWalk.Operator.Coins

/-! # Operators that the library can build

`Operator.Derived` holds of the operators that the constructors of the library give, and of what
inversion and control make of them. In all of these the gates fit the wires of the operator
(`Operator.Derived.fits`): every gate has its wires among those of the operator, and names none of
them twice. -/

namespace LatticeWalk

variable {R : Type} [Scalar R]

namespace Operator

/-- **The operators of the library**, and what inversion and control make of them. -/
inductive Derived : Operator R → Prop
  | identity (n : ℕ) : Derived (identity n)
  | hadamard (n : ℕ) : Derived (hadamard n)
  | flip (n : ℕ) : Derived (flip n)
  | absorbing (n : ℕ) : Derived (absorbing n)
  | crossingFlag : Derived crossingFlag
  | diffusion (n : ℕ) : Derived (diffusion n)
  | phaseKickback (n : ℕ) (angle : R) : Derived (phaseKickback n angle)
  | kickback (n : ℕ) (variant : Kickback) : Derived (kickback n variant)
  | fourier (n : ℕ) : Derived (fourier n)
  | cyclicIncrement (n : ℕ) : Derived (cyclicIncrement n)
  | directionReversal (n : ℕ) : Derived (directionReversal n)
  | su2 {n : ℕ} {theta zeta xi : Angles R} {op : Operator R} (h : su2 n theta zeta xi = .ok op) :
      Derived op
  | permeability {n : ℕ} {transmission : R} {op : Operator R}
      (h : permeability n transmission = .ok op) : Derived op
  | inverse {op : Operator R} (h : Derived op) : Derived op.inverse
  | control {op op' : Operator R} {k : ℕ} {pattern : Option String} {inverted : Bool}
      {label : Option String} (h : Derived op)
      (h' : op.control k pattern inverted label = .ok op') : Derived op'

/-! ### Control -/

/-- The gates that an operator puts under control. -/
def body (op : Operator R) (inverted : Bool) : List (Gate R) :=
  if inverted then op.inverseGates else op.gates

/-- The pattern that control asks for. -/
def asked (k : ℕ) (pattern : Option String) : String := pattern.getD (Pattern.ones k)

theorem isPattern_asked {k : ℕ} {pattern : Option String} (h : ∀ s ∈ pattern, IsPattern s k) :
    IsPattern (asked k pattern) k := by
  cases pattern with
  | none => exact Pattern.isPattern_ones k
  | some s => exact h s rfl

/-- The operator, or its inverse, under the control of a pattern on `k` wires in front. -/
def underPattern (op : Operator R) (k : ℕ) (s : String) (inverted : Bool) (label : Option String) :
    Operator R where
  name := s!"C{k}[{s}]-" ++ (if inverted then op.inverse else op).name
  label := label.or op.label
  family := op.family
  wires := op.wires + k
  controlWires := op.controlWires + k
  gates := (op.body inverted).map (extendGate (Pattern.wireBits s))
  inverseGates := (op.body !inverted).map (extendGate (Pattern.wireBits s))

omit [Scalar R] in
/-- Control succeeds for patterns of the right width. -/
theorem control_eq_ok {op op' : Operator R} {k : ℕ} {pattern : Option String} {inverted : Bool}
    {label : Option String} : op.control k pattern inverted label = .ok op' ↔
      IsPattern (asked k pattern) k ∧ op' = op.underPattern k (asked k pattern) inverted label := by
  unfold control
  rw [Except.bind_eq_ok, ← @Pattern.checkWidth_eq_ok _ "ctrl_state"]
  constructor
  · rintro ⟨_, h, h'⟩
    refine ⟨h, ?_⟩
    cases h'
    cases inverted <;> rfl
  · rintro ⟨h, rfl⟩
    refine ⟨(), h, ?_⟩
    cases inverted <;> rfl

omit [Scalar R] in
theorem eq_of_bind {op : Operator R} {wires : List ℕ} {operation : Operation R}
    (h : op.bind wires = .ok operation) : wires.length = op.wires ∧
      operation = .apply op.name op.label wires (gatesOn wires op.gates) := by
  unfold bind at h
  split_ifs at h with hlen
  · exact ⟨hlen, (Except.ok.inj h).symm⟩
  · simp [refuse] at h

/-! ### Gates that fit -/

/-- All gates of a list fit `n` wires. -/
def AllFit (n : ℕ) (gs : List (Gate R)) : Prop := ∀ g ∈ gs, g.Fits n

omit [Scalar R] in
theorem AllFit.append {n : ℕ} {gs hs : List (Gate R)} (hg : AllFit n gs) (hh : AllFit n hs) :
    AllFit n (gs ++ hs) := fun g h => (List.mem_append.mp h).elim (hg g) (hh g)

omit [Scalar R] in
theorem AllFit.reverse {n : ℕ} {gs : List (Gate R)} (h : AllFit n gs) : AllFit n gs.reverse :=
  fun g hg => h g (List.mem_reverse.mp hg)

omit [Scalar R] in
theorem allFit_nil (n : ℕ) : AllFit n ([] : List (Gate R)) := by simp [AllFit]

omit [Scalar R] in
theorem fits_plain {n t : ℕ} (h : t < n) (transform : Transform R) :
    (Gate.plain transform t).Fits n := ⟨h, by simp [Gate.plain], by simp [Gate.plain],
  by simp [Gate.plain]⟩

omit [Scalar R] in
theorem fits_controlled {n t : ℕ} (h : t < n) {ws : List ℕ} (hws : ∀ w ∈ ws, w < n)
    (hne : ∀ w ∈ ws, w ≠ t) (hnd : ws.Nodup) (transform : Transform R) :
    (Gate.controlled transform ws t).Fits n := by
  refine ⟨h, ?_, ?_, ?_⟩
  · simpa [Gate.controlled] using hws
  · simpa [Gate.controlled] using hne
  · simpa [Gate.controlled, Function.comp_def] using hnd

omit [Scalar R] in
theorem fits_below {n t : ℕ} (h : t < n) (transform : Transform R) :
    (Gate.controlled transform (List.range t) t).Fits n :=
  fits_controlled h (fun w hw => by rw [List.mem_range] at hw; omega)
    (fun w hw => by rw [List.mem_range] at hw; omega) List.nodup_range transform

theorem Gate.Fits.adjoint {n : ℕ} {g : Gate R} (h : g.Fits n) : g.adjoint.Fits n :=
  ⟨h.target, h.controls, h.apart, h.nodup⟩

theorem AllFit.undo {n : ℕ} {gs : List (Gate R)} (h : AllFit n gs) : AllFit n (undo gs) := by
  intro g hg
  simp only [Operator.undo, List.mem_map, List.mem_reverse] at hg
  obtain ⟨g', hg', rfl⟩ := hg
  exact Gate.Fits.adjoint (h g' hg')

omit [Scalar R] in
theorem allFit_everyWire (transform : Transform R) (n : ℕ) : AllFit n (everyWire transform n) := by
  intro g hg
  simp only [everyWire, List.mem_map, List.mem_range] at hg
  obtain ⟨t, ht, rfl⟩ := hg
  exact fits_plain ht transform

omit [Scalar R] in
theorem allFit_spread (n : ℕ) : AllFit n (spread n : List (Gate R)) :=
  (allFit_everyWire _ n).append (allFit_everyWire _ n)

omit [Scalar R] in
theorem allFit_signFlip (n : ℕ) : AllFit n (signFlip n : List (Gate R)) := by
  unfold signFlip
  split_ifs with h
  · exact allFit_nil n
  · have hn : n - 1 < n := by omega
    intro g hg
    simp only [List.mem_cons, List.not_mem_nil, or_false] at hg
    rcases hg with rfl | rfl | rfl
    · exact fits_plain hn _
    · exact fits_below hn _
    · exact fits_plain hn _

omit [Scalar R] in
theorem allFit_phaseFlip (n : ℕ) (angle : R) : AllFit n (phaseFlip n angle) := by
  unfold phaseFlip
  split_ifs with h
  · exact allFit_nil n
  · intro g hg
    obtain rfl := List.mem_singleton.mp hg
    exact fits_below (by omega) _

omit [Scalar R] in
theorem allFit_kickbackGates (n : ℕ) (angle : R) : AllFit n (kickbackGates n angle) :=
  ((allFit_spread n).append (allFit_phaseFlip n angle)).append (allFit_spread n).reverse

omit [Scalar R] in
theorem allFit_swapGates {n a b : ℕ} (ha : a < n) (hb : b < n) (hab : a ≠ b) :
    AllFit n (swapGates a b : List (Gate R)) := by
  intro g hg
  simp only [swapGates, List.mem_cons, List.not_mem_nil, or_false] at hg
  rcases hg with rfl | rfl | rfl
  · exact fits_controlled hb (by simpa using ha) (by simpa using hab) (List.nodup_singleton _) _
  · exact fits_controlled ha (by simpa using hb) (by simpa using hab.symm)
      (List.nodup_singleton _) _
  · exact fits_controlled hb (by simpa using ha) (by simpa using hab) (List.nodup_singleton _) _

theorem allFit_fourierRung {n top : ℕ} (h : top < n) :
    AllFit n (fourierRung top : List (Gate R)) := by
  intro g hg
  simp only [fourierRung, List.mem_cons, List.mem_map, List.mem_range] at hg
  rcases hg with rfl | ⟨w, hw, rfl⟩
  · exact fits_plain h _
  · exact fits_controlled h (by simpa using hw.trans h) (by simpa using hw.ne)
      (List.nodup_singleton _) _

theorem allFit_su2Gates (n : ℕ) : ∀ (w : ℕ) (thetas zetas xis : List R),
    w + thetas.length ≤ n → AllFit n (su2Gates w thetas zetas xis)
  | w, theta :: thetas, zeta :: zetas, xi :: xis, h => by
    intro g hg
    simp only [List.length_cons] at h
    rcases List.mem_cons.mp hg with rfl | hg
    · exact fits_plain (by omega) _
    · exact allFit_su2Gates n (w + 1) thetas zetas xis (by omega) g hg
  | _, [], _, _, _ => allFit_nil n
  | _, _ :: _, [], _, _ => allFit_nil n
  | _, _ :: _, _ :: _, [], _ => allFit_nil n

omit [Scalar R] in
theorem length_of_resolve {n : ℕ} {name : String} {angles : Angles R} {as : List R}
    (h : angles.resolve n name = .ok as) : as.length = n := by
  cases angles with
  | uniform a => cases h; simp
  | perWire as' =>
    simp only [Angles.resolve] at h
    split_ifs at h with hl
    · cases h; exact hl
    · cases h

/-- An operator of given gates has the wires and the gates that it is built from. -/
structure Plain (n : ℕ) (op : Operator R) : Prop where
  wires : op.wires = n
  inverse : op.inverseGates = undo op.gates
  fits : AllFit n op.gates

theorem plain_ofGates {n : ℕ} {name : String} {family : Family R} {gs : List (Gate R)}
    (h : AllFit n gs) : Plain n (ofGates name family n gs) := ⟨rfl, rfl, h⟩

theorem plain_su2 {n : ℕ} {theta zeta xi : Angles R} {op : Operator R}
    (h : su2 n theta zeta xi = .ok op) : Plain n op := by
  obtain ⟨thetas, h1, h⟩ := Except.bind_eq_ok.mp h
  obtain ⟨zetas, -, h⟩ := Except.bind_eq_ok.mp h
  obtain ⟨xis, -, h⟩ := Except.bind_eq_ok.mp h
  cases h
  exact plain_ofGates (allFit_su2Gates n 0 _ _ _ (by rw [length_of_resolve h1, Nat.zero_add]))

theorem plain_permeability {n : ℕ} {transmission : R} {op : Operator R}
    (h : permeability n transmission = .ok op) : Plain n op := by
  unfold permeability at h
  split_ifs at h
  · cases h
    exact plain_ofGates (allFit_su2Gates n 0 _ _ _ (by simp))
  · cases h

theorem plain_fourier (n : ℕ) : Plain n (fourier n : Operator R) := by
  refine plain_ofGates (AllFit.append ?_ ?_)
  · intro g hg
    obtain ⟨top, htop, hg⟩ := List.mem_flatMap.mp hg
    exact allFit_fourierRung (by simpa using htop) g hg
  · intro g hg
    obtain ⟨w, hw, hg⟩ := List.mem_flatMap.mp hg
    rw [List.mem_range] at hw
    exact allFit_swapGates (by omega) (by omega) (by omega) g hg

theorem plain_cyclicIncrement (n : ℕ) : Plain n (cyclicIncrement n : Operator R) := by
  refine plain_ofGates fun g hg => ?_
  obtain ⟨w, hw, rfl⟩ := List.mem_map.mp hg
  exact fits_below (by simpa using hw) _

theorem plain_directionReversal (n : ℕ) : Plain n (directionReversal n : Operator R) := by
  refine plain_ofGates ?_
  split_ifs with h
  · exact allFit_nil n
  · intro g hg
    obtain rfl := List.mem_singleton.mp hg
    exact fits_plain (by omega) _

theorem plain_crossingFlag : Plain 1 (crossingFlag : Operator R) := by
  refine plain_ofGates fun g hg => ?_
  obtain rfl := List.mem_singleton.mp hg
  exact fits_plain one_pos _

theorem plain_diffusion (n : ℕ) : Plain n (diffusion n : Operator R) :=
  plain_ofGates (((allFit_spread n).append (allFit_signFlip n)).append (allFit_spread n).reverse)

omit [Scalar R] in
/-- A gate behind `k` further wires, under controls on these. -/
theorem fits_extendGate {n : ℕ} {bits : List Bool} {g : Gate R} (h : g.Fits n) :
    (extendGate bits g).Fits (n + bits.length) := by
  have hmoved : (g.mapWires (· + bits.length)).Fits (n + bits.length) :=
    h.mapWires (fun w hw => by omega) (fun w _ u _ e => by omega)
  have hwires : (controlsFor bits).map Control.wire = List.range bits.length := by
    simp only [controlsFor, List.map_map, Function.comp_def]
    rw [List.zipIdx_eq_zip_range', List.range_eq_range']
    exact List.map_snd_zip (by simp)
  refine hmoved.under (fun c hc => (wire_lt_of_controlsFor hc).trans_le (by omega))
    (hwires ▸ List.nodup_range) fun c hc hmem => ?_
  rw [Gate.wires_mapWires, List.mem_map] at hmem
  obtain ⟨w, -, hw⟩ := hmem
  have := wire_lt_of_controlsFor hc
  omega

/-- **The gates of a derived operator fit its wires**, and so do those that undo them. -/
theorem Derived.fits {op : Operator R} (h : Derived op) :
    AllFit op.wires op.gates ∧ AllFit op.wires op.inverseGates := by
  have plain : ∀ {n : ℕ} {op : Operator R}, Plain n op →
      AllFit op.wires op.gates ∧ AllFit op.wires op.inverseGates := by
    intro n op hp
    rw [hp.wires, hp.inverse]
    exact ⟨hp.fits, hp.fits.undo⟩
  induction h with
  | identity n => exact plain (plain_ofGates (allFit_nil n))
  | hadamard n => exact plain (plain_ofGates (allFit_everyWire _ n))
  | flip n => exact plain (plain_ofGates (allFit_everyWire _ n))
  | absorbing n => exact plain (plain_ofGates (allFit_nil n))
  | crossingFlag => exact plain plain_crossingFlag
  | diffusion n => exact plain (plain_diffusion n)
  | phaseKickback n angle => exact plain (plain_ofGates (allFit_kickbackGates n angle))
  | kickback n variant => exact plain (plain_ofGates (allFit_kickbackGates n _))
  | fourier n => exact plain (plain_fourier n)
  | cyclicIncrement n => exact plain (plain_cyclicIncrement n)
  | directionReversal n => exact plain (plain_directionReversal n)
  | su2 h => exact plain (plain_su2 h)
  | permeability h => exact plain (plain_permeability h)
  | inverse _ ih => exact ⟨ih.2, ih.1⟩
  | @control op op' k pattern inverted label _ h' ih =>
    obtain ⟨hp, rfl⟩ := control_eq_ok.mp h'
    set bits := Pattern.wireBits (asked k pattern) with hbits
    have hlen : bits.length = k := Pattern.length_wireBits_of hp
    have hext : ∀ gs : List (Gate R), AllFit op.wires gs →
        AllFit (op.wires + k) (gs.map (extendGate bits)) := by
      intro gs hgs g hg
      obtain ⟨g', hg', rfl⟩ := List.mem_map.mp hg
      rw [← hlen]
      exact fits_extendGate (hgs g' hg')
    refine ⟨hext _ ?_, hext _ ?_⟩
    · cases inverted
      · exact ih.1
      · exact ih.2
    · cases inverted
      · exact ih.2
      · exact ih.1

theorem Derived.allFit_body {op : Operator R} (h : Derived op) (inverted : Bool) :
    AllFit op.wires (op.body inverted) := by
  cases inverted
  · exact h.fits.1
  · exact h.fits.2

omit [Scalar R] in
theorem fits_gatesOn {n m : ℕ} {ws : List ℕ} (hnd : ws.Nodup) (hlt : ∀ w ∈ ws, w < n)
    (hlen : ws.length = m) {gs : List (Gate R)} (h : AllFit m gs) : AllFit n (gatesOn ws gs) := by
  intro g hg
  obtain ⟨g', hg', rfl⟩ := List.mem_map.mp hg
  refine (h g' hg').mapWires (fun w hw => ?_) fun w hw u hu e => ?_
  · rw [List.getD_eq_getElem _ _ (hlen ▸ hw)]
    exact hlt _ (List.getElem_mem _)
  · rw [List.getD_eq_getElem _ _ (hlen ▸ hw), List.getD_eq_getElem _ _ (hlen ▸ hu)] at e
    exact (hnd.getElem_inj_iff).mp e

omit [Scalar R] in
theorem wires_mem_of_gatesOn {m : ℕ} {ws : List ℕ} (hlen : ws.length = m) {gs : List (Gate R)}
    (h : AllFit m gs) {g : Gate R} (hg : g ∈ gatesOn ws gs) : ∀ q ∈ g.wires, q ∈ ws := by
  obtain ⟨g', hg', rfl⟩ := List.mem_map.mp hg
  intro q hq
  rw [Gate.wires_mapWires] at hq
  obtain ⟨w, hw, rfl⟩ := List.mem_map.mp hq
  have hlt : w < ws.length := hlen ▸ (Gate.fits_iff.mp (h g' hg')).1 w hw
  rw [List.getD_eq_getElem _ _ hlt]
  exact List.getElem_mem _

omit [Scalar R] in
theorem target_mem_of_gatesOn {m : ℕ} {ws : List ℕ} (hlen : ws.length = m) {gs : List (Gate R)}
    (h : AllFit m gs) {g : Gate R} (hg : g ∈ gatesOn ws gs) : g.target ∈ ws :=
  wires_mem_of_gatesOn hlen h hg _ (List.mem_append_right _ (List.mem_singleton_self _))

end Operator

end LatticeWalk
