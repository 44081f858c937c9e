import LatticeWalk.Proofs.Inverse
import LatticeWalk.Proofs.Step
import LatticeWalk.Proofs.Support

/-! # Reflections

What the block of a hard, permeable or absorbing control does to any state.

* `BoundaryControl.Mounted`: a block with its plane, its coin and its registers.
* `BoundaryControl.Closed`: the basis states in which the block acts. On these its gates are the
  inverse coin and a flip, on all others nothing (`BoundaryControl.actAll_reflectionOps`).
* `Gate.actAll_comm`: gates on different wires commute, so that what else happens in the coin phase
  does not come between the coin and its inverse (`Operator.Derived.undone_behind`).
* `BoundaryControl.reflection_turns`: the block as the simulation executes it, on any state and
  behind a coin phase. -/

namespace LatticeWalk

open Function (update)
open Operation (gatesOf)
open Operator (gatesOn controlsOn)
open Simulation (Leads)

/-! ### A wire of a register flipped -/

namespace Register

theorem read_flip {r : Register} {k : ℕ} (hk : k < r.width) (b : ℕ → Bool) :
    r.read (update b (r.wire k) (!b (r.wire k))) = r.read b ^^^ 2 ^ k := by
  refine Nat.eq_of_testBit_eq fun q => ?_
  rw [Nat.testBit_xor, Nat.testBit_two_pow, testBit_read_update hk]
  by_cases hq : q = k
  · rw [if_pos hq, hq, testBit_read hk, decide_eq_true rfl, Bool.xor_true]
  · rw [if_neg hq, decide_eq_false (Ne.symm hq), Bool.xor_false]

theorem eq_flip {r : Register} {k : ℕ} (hk : k < r.width) {b c : ℕ → Bool}
    (hout : ∀ q ∉ r.wires, c q = b q) (h : r.read c = r.read b ^^^ 2 ^ k) :
    c = update b (r.wire k) (!b (r.wire k)) := by
  refine eq_of_read_eq (r := r) (fun q hq => ?_) (by rw [h, read_flip hk])
  rw [hout q hq, Function.update_of_ne (ne_of_mem_of_not_mem (wire_mem hk) hq).symm]

end Register

/-! ### Gates on different wires -/

namespace Gate

/-- **Gates with their targets on no wire of each other commute.** -/
theorem act_comm {g h : Gate ℝ} (hg : g.target ∉ h.wires) (hh : h.target ∉ g.wires) (ψ : Wave ℝ) :
    g.act (h.act ψ) = h.act (g.act ψ) := by
  simp only [wires, List.mem_append, List.mem_map, List.mem_singleton, not_or, not_exists,
    not_and] at hg hh
  obtain ⟨hgc, hgt⟩ := hg
  obtain ⟨hhc, hht⟩ := hh
  funext b
  have hmetg : ∀ v, Met g.controls (update b h.target v) ↔ Met g.controls b := fun v =>
    met_update (fun c hc => hhc c hc) b v
  have hmeth : ∀ v, Met h.controls (update b g.target v) ↔ Met h.controls b := fun v =>
    met_update (fun c hc => hgc c hc) b v
  have hbitg : ∀ v, update b h.target v g.target = b g.target := fun v =>
    Function.update_of_ne hgt v b
  have hbith : ∀ v, update b g.target v h.target = b h.target := fun v =>
    Function.update_of_ne hht v b
  have hswap : ∀ u v, update (update b g.target u) h.target v =
      update (update b h.target v) g.target u := fun u v => Function.update_comm hgt u v b
  unfold act
  simp only [hmetg, hmeth, hbitg, hbith, hswap]
  split_ifs <;> ring

/-- **Lists of gates on different wires commute.** -/
theorem actAll_comm : ∀ {gs hs : List (Gate ℝ)},
    (∀ g ∈ gs, ∀ h ∈ hs, g.target ∉ h.wires ∧ h.target ∉ g.wires) → ∀ ψ : Wave ℝ,
    actAll gs (actAll hs ψ) = actAll hs (actAll gs ψ)
  | [], _, _, _ => rfl
  | g :: gs, hs, hgs, ψ => by
    have hone : ∀ (ks : List (Gate ℝ)), (∀ k ∈ ks, g.target ∉ k.wires ∧ k.target ∉ g.wires) →
        ∀ φ : Wave ℝ, g.act (actAll ks φ) = actAll ks (g.act φ) := by
      intro ks hks φ
      induction ks generalizing φ with
      | nil => rfl
      | cons k ks ih =>
        obtain ⟨hg, hk⟩ := hks k (by simp)
        rw [actAll_cons, ih (fun k' hk' => hks k' (by simp [hk'])), act_comm hg hk, actAll_cons]
    rw [actAll_cons, hone hs (hgs g (by simp)), actAll_cons]
    exact actAll_comm (fun g' hg' => hgs g' (by simp [hg'])) _

end Gate

/-- The inverse undoes an operator on a register, also if gates on other wires come between them. -/
theorem Operator.Derived.undone_behind {op : Operator ℝ} (hop : op.Derived) {r : Register}
    (hwires : op.wires = r.width) {gs : List (Gate ℝ)} (hgs : ∀ g ∈ gs, ∀ q ∈ g.wires, q ∉ r.wires)
    (ψ : Wave ℝ) :
    Gate.actAll (gatesOn r.wires op.inverseGates)
      (Gate.actAll gs (Gate.actAll (gatesOn r.wires op.gates) ψ)) = Gate.actAll gs ψ := by
  have hlen : r.wires.length = op.wires := by rw [Register.length_wires, hwires]
  have hregular : ∀ g ∈ gatesOn r.wires op.gates, g.Regular := by
    intro g hg
    refine ⟨?_, (fits_gatesOn (n := r.stop) r.nodup_wires
      (fun q hq => (Register.mem_wires.mp hq).2) hlen hop.fits.1 g hg).apart⟩
    obtain ⟨g', hg', rfl⟩ := List.mem_map.mp hg
    exact (hop.regular g' hg').standard
  have hundo : gatesOn r.wires op.inverseGates = undo (gatesOn r.wires op.gates) := by
    rw [hop.inverseGates_eq]
    exact (Gate.undo_mapWires _ _).symm
  have hcomm : ∀ g ∈ gs, ∀ h ∈ gatesOn r.wires op.gates, g.target ∉ h.wires ∧ h.target ∉ g.wires :=
    fun g hg h hh => ⟨fun hq => hgs g hg _ (List.mem_append_right _ (List.mem_singleton_self _))
      (wires_mem_of_gatesOn hlen hop.fits.1 hh _ hq),
      fun hq => hgs g hg _ hq (target_mem_of_gatesOn hlen hop.fits.1 hh)⟩
  rw [Gate.actAll_comm hcomm, hundo, Gate.actAll_undo hregular]

/-! ### Blocks in place -/

variable {R : Type}

theorem Operator.gatesOn_directionReversal_top [Scalar R] (r : Register) :
    gatesOn r.wires (directionReversal r.width : Operator R).gates =
      r.top?.toList.map (Gate.plain .flip) := by
  by_cases h : r.width = 0
  · simp [directionReversal, ofGates, gatesOn, Register.top?, h]
  · rw [gatesOn_directionReversal (Nat.pos_of_ne_zero h), Register.top?, if_neg h]
    rfl

namespace BoundaryControl

section
variable [Scalar R]

/-- **A block in place**: state and plane are patterns for their registers, the coin is an operator
of the library for the coin register, there is a control register if the control has an operator,
and the registers are apart from each other. -/
structure Mounted (c : BoundaryControl R) (plane : Boundary) (coin : Operator R) (w : Wiring)
    (n : ℕ) : Prop where
  state : IsPattern c.state c.controlWidth
  pattern : IsPattern plane.pattern w.position.width
  derived : coin.Derived
  width : coin.wires = w.coin.width
  control : w.control.map Register.width = c.operator?.map Operator.wires
  apart : w.Apart n

/-- **The wall is closed** in a basis state: the walker is on the plane, and the control register
carries the state of the control. -/
def Closed (c : BoundaryControl R) (plane : Boundary) (w : Wiring) (i : ℕ) : Prop :=
  w.position.valueIn i = Pattern.value plane.pattern ∧
    ∀ r ∈ w.control, r.valueIn i = Pattern.value c.state

/-- What the operations of a reflection ask for. -/
def askClosed (c : BoundaryControl R) (plane : Boundary) (w : Wiring) : List Control :=
  controlsOn w.controlWires (Pattern.wireBits c.state) ++
    controlsOn w.position.wires (Pattern.wireBits plane.pattern)

end

namespace Mounted

variable [Scalar R] {c : BoundaryControl R} {plane : Boundary} {coin : Operator R} {w : Wiring}
  {n : ℕ} (h : c.Mounted plane coin w n)
include h

theorem length_controlWires : w.controlWires.length = c.controlWidth := by
  have hwidth : (c.operator?.map Operator.wires).getD 0 = c.controlWidth := by
    unfold operator? Permeability.operator? controlWidth Permeability.controlWidth
    cases c.permeability <;> rfl
  rw [← hwidth, ← h.control, Wiring.controlWires]
  cases w.control with
  | none => rfl
  | some r => exact Register.length_wires r

theorem width_control {r : Register} (hr : w.control = some r) : r.width = c.controlWidth := by
  rw [← h.length_controlWires, Wiring.controlWires_of_some hr, Register.length_wires]

theorem controlWires_eq_ok : c.controlWires plane w = .ok w.controlWires := by
  have hcontrol := h.control
  unfold controlWires Wiring.controlWires
  cases hop : c.operator? with
  | none =>
    rw [hop, Option.map_none, Option.map_eq_none_iff] at hcontrol
    rw [hcontrol]
    rfl
  | some op =>
    rw [hop, Option.map_some, Option.map_eq_some_iff] at hcontrol
    obtain ⟨r, hr, -⟩ := hcontrol
    rw [hr]
    rfl

theorem isPattern_state : IsPattern c.state w.controlWires.length :=
  h.length_controlWires ▸ h.state

/-- The controls of the block are met in the basis states in which the wall is closed. -/
theorem met_askClosed {i : ℕ} : Met (c.askClosed plane w) i.testBit ↔ c.Closed plane w i := by
  have hposition : Met (controlsOn w.position.wires (Pattern.wireBits plane.pattern)) i.testBit ↔
      w.position.valueIn i = Pattern.value plane.pattern := by
    rw [Operator.met_controlsOn h.pattern, Register.read_testBit]
  have hcontrol : Met (controlsOn w.controlWires (Pattern.wireBits c.state)) i.testBit ↔
      ∀ r ∈ w.control, r.valueIn i = Pattern.value c.state := by
    unfold Wiring.controlWires
    cases hr : w.control with
    | none => simp [controlsOn]
    | some r =>
      have hstate : IsPattern c.state r.width := h.width_control hr ▸ h.state
      rw [Option.map_some, Option.getD_some, Operator.met_controlsOn hstate, Register.read_testBit]
      simp
  rw [askClosed, met_append, hposition, hcontrol]
  exact and_comm

theorem target_turnBack {g : Gate R} (hg : g ∈ turnBack coin w.coin) : g.target ∈ w.coin.wires :=
  target_of_turnBack h.width h.derived.fits.2 hg

theorem apart_askClosed : ∀ g ∈ turnBack coin w.coin, ∀ e ∈ c.askClosed plane w,
    e.wire ≠ g.target := by
  intro g hg e he
  have htarget := h.target_turnBack hg
  rcases List.mem_append.mp he with he | he
  · exact fun heq => h.apart.control_coin (Operator.wire_mem_of_controlsOn he) (heq ▸ htarget)
  · exact fun heq => h.apart.position_coin (Operator.wire_mem_of_controlsOn he) (heq ▸ htarget)

variable (hkind : ∀ bits, c.permeability ≠ .oneWay bits)
include hkind

theorem block_eq_ok : c.block plane coin w =
    .ok (c.reflectionOps plane coin w w.controlWires (plane.label.or c.label)) := by
  refine Except.bind_eq_ok.mpr ⟨_, h.controlWires_eq_ok, ?_⟩
  cases hp : c.permeability with
  | oneWay bits => exact absurd hp (hkind bits)
  | _ => exact reflection_eq_ok h.pattern h.isPattern_state h.width _

omit hkind in
theorem within_reflectionOps (label : Option String) :
    ∀ op ∈ c.reflectionOps plane coin w w.controlWires label, op.Within n := fun op hop =>
  (wellFormed_reflection h.apart h.derived.fits.2
    (reflection_eq_ok h.pattern h.isPattern_state h.width label) op hop).toWithin

omit hkind in
/-- **On any wave**, the block takes the coin back and turns it round where the wall is closed. -/
theorem actAll_reflectionOps (label : Option String) (ψ : Wave R) (b : ℕ → Bool) :
    Gate.actAll (gatesOf (c.reflectionOps plane coin w w.controlWires label)) ψ b =
      if Met (c.askClosed plane w) b then Gate.actAll (turnBack coin w.coin) ψ b else ψ b := by
  rw [gatesOf_reflectionOps h.pattern h.isPattern_state]
  exact Gate.actAll_under h.apart_askClosed ψ b

end Mounted

/-! ### Blocks executed -/

/-- The flip of the most significant wire of a register, if it has one. -/
def flipTop (r : Register) : List (Operation R) := r.top?.toList.map fun q => .gate (.plain .flip q)

theorem within_flipTop {w : Wiring} {n : ℕ} (hw : w.Apart n) :
    ∀ op ∈ (flipTop w.coin : List (Operation R)), op.Within n ∧ op.isReset = false := by
  intro op hop
  obtain ⟨q, hq, rfl⟩ := List.mem_map.mp hop
  unfold Register.top? at hq
  split_ifs at hq with hwidth
  · cases hq
  · rw [Option.mem_toList] at hq
    obtain rfl := Option.some.inj hq
    exact ⟨Operation.within_gate (Operator.fits_plain
      (hw.coin_lt (Register.wire_mem (by omega))) _), rfl⟩

theorem gatesOf_back_flipTop [Scalar R] (coin : Operator R) (r : Register) :
    gatesOf (coin.inverse.bound r.wires :: flipTop r) = turnBack coin r := by
  rw [Operation.gatesOf_cons, flipTop, Operation.gatesOf_map_gate, turnBack,
    Operator.gatesOn_directionReversal_top]
  rfl

namespace Mounted

variable {plane : Boundary} {w : Wiring} {n : ℕ}

section
variable [Scalar R] {c : BoundaryControl R} {coin : Operator R} (h : c.Mounted plane coin w n)
include h

theorem within_bound : (coin.bound w.coin.wires).Within n ∧
    (coin.inverse.bound w.coin.wires).Within n := by
  have hstop : w.coin.stop ≤ n := h.apart.stop _ (by simp)
  have hfits := h.derived.fits
  rw [h.width] at hfits
  have hback : (coin.inverse.bound w.coin.wires).WellFormed n :=
    Operator.wellFormed_bound hfits.2 hstop
  exact ⟨(Operator.wellFormed_bound hfits.1 hstop).toWithin, hback.toWithin⟩

/-- **A block acts where the wall is closed**: it leaves all other amplitudes of a state, and those
where the wall is closed are as if the coin was taken back and turned round everywhere. -/
theorem acts_where_closed (label : Option String) {v : StateVector R} (hv : v.wires = n)
    (hsize : v.amplitudes.size = 2 ^ n) : ∃ v' u,
    Leads (c.reflectionOps plane coin w w.controlWires label) v v' ∧
    Leads (coin.inverse.bound w.coin.wires :: flipTop w.coin) v u ∧
    ∀ i < 2 ^ n, (¬ c.Closed plane w i → v'.amplitude i = v.amplitude i) ∧
      (c.Closed plane w i → v'.amplitude i = u.amplitude i) := by
  subst hv
  have hshows : v.Shows v.wave := StateVector.shows_wave hsize
  obtain ⟨v', hblock, hwires, hshows'⟩ := Simulation.leads_of_shows hshows
    fun op hop => ⟨h.within_reflectionOps label op hop, isReset_reflectionOps op hop⟩
  have hback : ∀ op ∈ coin.inverse.bound w.coin.wires :: (flipTop w.coin : List (Operation R)),
      op.Within v.wires ∧ op.isReset = false :=
    List.forall_mem_cons.mpr ⟨⟨h.within_bound.2, rfl⟩, within_flipTop h.apart⟩
  obtain ⟨u, hturn, hwires', hshows''⟩ := Simulation.leads_of_shows hshows hback
  rw [gatesOf_back_flipTop] at hshows''
  refine ⟨v', u, hblock, hturn, fun i hi => ?_⟩
  have hvalue := hshows'.amplitude i (hwires.symm ▸ hi)
  rw [h.actAll_reflectionOps] at hvalue
  constructor
  · intro hopen
    rw [hvalue, if_neg fun hm => hopen (h.met_askClosed.mp hm), ← hshows.amplitude i hi]
  · intro hclosed
    rw [hvalue, if_pos (h.met_askClosed.mpr hclosed), ← hshows''.amplitude i (hwires'.symm ▸ hi)]

end

section
variable {c : BoundaryControl ℝ} {coin : Operator ℝ} (h : c.Mounted plane coin w n)
  (hpos : 0 < w.coin.width)
include h hpos

/-- **Behind the coin**, and behind anything else that was done to other wires in between, the block
only turns round what was there before. -/
theorem actAll_behind_coin (label : Option String) {gs : List (Gate ℝ)}
    (hgs : ∀ g ∈ gs, ∀ q ∈ g.wires, q ∉ w.coin.wires) (ψ : Wave ℝ) {b : ℕ → Bool}
    (hb : Met (c.askClosed plane w) b) :
    Gate.actAll (gatesOf (c.reflectionOps plane coin w w.controlWires label))
      (Gate.actAll gs (Gate.actAll (gatesOn w.coin.wires coin.gates) ψ)) b =
      Gate.actAll gs ψ (update b (w.coin.wire (w.coin.width - 1))
        (!b (w.coin.wire (w.coin.width - 1)))) := by
  rw [h.actAll_reflectionOps, if_pos hb, turnBack, Gate.actAll_append,
    h.derived.undone_behind h.width hgs, Operator.gatesOn_directionReversal hpos,
    Gate.actAll_cons, Gate.actAll_nil, Gate.act_plain_flip]

variable (label : Option String) {others : List (Operation ℝ)}
  (hothers : ∀ op ∈ others, op.Within n ∧ op.isReset = false ∧
    ∀ g ∈ op.gates, ∀ q ∈ g.wires, q ∉ w.coin.wires)
include hothers

theorem leads_behind_coin {v : StateVector ℝ} (hv : v.wires = n)
    (hsize : v.amplitudes.size = 2 ^ n) : ∃ t v',
    Leads others v t ∧ t.wires = n ∧ t.Shows (Gate.actAll (gatesOf others) v.wave) ∧
    Leads (coin.bound w.coin.wires :: others ++
      c.reflectionOps plane coin w w.controlWires label) v v' ∧
    ∀ j < 2 ^ n, c.Closed plane w j → v'.amplitude j =
      Gate.actAll (gatesOf others) v.wave (update j.testBit (w.coin.wire (w.coin.width - 1))
        (!j.testBit (w.coin.wire (w.coin.width - 1)))) := by
  subst hv
  have hshows : v.Shows v.wave := StateVector.shows_wave hsize
  have hgs : ∀ g ∈ gatesOf others, ∀ q ∈ g.wires, q ∉ w.coin.wires := by
    intro g hg
    obtain ⟨op, hop, hg⟩ := List.mem_flatMap.mp hg
    exact (hothers op hop).2.2 g hg
  have hall : ∀ op ∈ coin.bound w.coin.wires :: others ++
      c.reflectionOps plane coin w w.controlWires label,
      op.Within v.wires ∧ op.isReset = false := by
    intro op hop
    rcases List.mem_append.mp hop with hop | hop
    · rcases List.mem_cons.mp hop with rfl | hop
      · exact ⟨h.within_bound.1, rfl⟩
      · exact ⟨(hothers op hop).1, (hothers op hop).2.1⟩
    · exact ⟨h.within_reflectionOps label op hop, isReset_reflectionOps op hop⟩
  obtain ⟨t, hleads, hwires, ht⟩ := Simulation.leads_of_shows hshows
    fun op hop => ⟨(hothers op hop).1, (hothers op hop).2.1⟩
  obtain ⟨v', hleads', hwires', hv'⟩ := Simulation.leads_of_shows hshows hall
  refine ⟨t, v', hleads, hwires, ht, hleads', fun j hj hclosed => ?_⟩
  rw [hv'.amplitude j (hwires'.symm ▸ hj), Operation.gatesOf_append, Operation.gatesOf_cons,
    Gate.actAll_append, Gate.actAll_append]
  exact h.actAll_behind_coin hpos label hgs _ (h.met_askClosed.mpr hclosed)

/-- **Right behind the coin phase**, a coin ends in the opposite value where the wall is closed. -/
theorem turned_behind_coin {v : StateVector ℝ} (hv : v.wires = n)
    (hsize : v.amplitudes.size = 2 ^ n) : ∃ t v', Leads others v t ∧
    Leads (coin.bound w.coin.wires :: others ++
      c.reflectionOps plane coin w w.controlWires label) v v' ∧
    (∀ i < 2 ^ n, ∀ j < 2 ^ n, c.Closed plane w j → AgreeOff w.coin.wires i.testBit j.testBit →
      w.coin.valueIn j = w.coin.valueIn i ^^^ 2 ^ (w.coin.width - 1) →
      v'.amplitude j = t.amplitude i) ∧
    ∀ x, (∀ i < 2 ^ n, v.amplitude i ≠ 0 → w.coin.valueIn i = x) →
      ∀ j < 2 ^ n, c.Closed plane w j → v'.amplitude j ≠ 0 →
        w.coin.valueIn j = x ^^^ 2 ^ (w.coin.width - 1) := by
  have htop : w.coin.width - 1 < w.coin.width := by omega
  obtain ⟨t, v', hleads, hwires, ht, hleads', hvalue⟩ :=
    h.leads_behind_coin hpos label hothers hv hsize
  refine ⟨t, v', hleads, hleads', fun i hi j hj hclosed hij hcoin => ?_,
    fun x hx j hj hclosed hne => ?_⟩
  · rw [hvalue j hj hclosed, ht.amplitude i (hwires.symm ▸ hi)]
    congr 1
    refine (Register.eq_flip htop (fun q hq => (hij q hq).symm) ?_).symm
    rw [Register.read_testBit, Register.read_testBit, hcoin, Nat.xor_xor_cancel_right]
  · -- an amplitude that is not zero comes from one with the same coin
    rw [hvalue j hj hclosed] at hne
    have htargets : ∀ g ∈ gatesOf others, g.target ∈ (gatesOf others).map Gate.target :=
      fun g hg => List.mem_map_of_mem hg
    obtain ⟨b, hagree, hb⟩ := Gate.exists_of_actAll_ne_zero htargets hne
    have hdisjoint : ((gatesOf others).map Gate.target).Disjoint w.coin.wires := by
      intro q hq hq'
      obtain ⟨g, hg, rfl⟩ := List.mem_map.mp hq
      obtain ⟨op, hop, hg⟩ := List.mem_flatMap.mp hg
      exact (hothers op hop).2.2 g hg _ (List.mem_append_right _ (List.mem_singleton_self _)) hq'
    have hcoin : w.coin.valueIn (index n b) = x := by
      refine hx _ (index_lt n b) ?_
      rwa [StateVector.wave, hv] at hb
    rw [Register.valueIn_index (h.apart.stop _ (by simp)), hagree.read hdisjoint,
      Register.read_flip htop, Register.read_testBit] at hcoin
    rw [← hcoin, Nat.xor_xor_cancel_right]

end

end Mounted

/-- **A reflection fires where its wall is closed.** On every state the block of a control that is
not a valve leaves the amplitudes where the walker is off the plane or the control register is not
in its state; the others are as if the inverse coin and then a flip of its most significant wire
were executed. So in exact arithmetic, right behind a coin phase, the coin of a walker at a closed
wall has the value that it had before the phase, with the most significant bit flipped. -/
theorem reflection_turns {plane : Boundary} {w : Wiring} {n : ℕ} :
    (∀ {R : Type} [Scalar R] {c : BoundaryControl R} {coin : Operator R},
      c.Mounted plane coin w n → (∀ bits, c.permeability ≠ .oneWay bits) →
      ∃ ops back, c.block plane coin w = .ok ops ∧
        coin.inverse.bind w.coin.wires = .ok back ∧
        ∀ v : StateVector R, v.wires = n → v.amplitudes.size = 2 ^ n → ∃ v' u,
          Leads ops v v' ∧ Leads (back :: flipTop w.coin) v u ∧
          ∀ i < 2 ^ n, (¬ c.Closed plane w i → v'.amplitude i = v.amplitude i) ∧
            (c.Closed plane w i → v'.amplitude i = u.amplitude i)) ∧
    ∀ {c : BoundaryControl ℝ} {coin : Operator ℝ},
      c.Mounted plane coin w n → (∀ bits, c.permeability ≠ .oneWay bits) → 0 < w.coin.width →
      ∃ ops toss, c.block plane coin w = .ok ops ∧ coin.bind w.coin.wires = .ok toss ∧
        ∀ others, (∀ op ∈ others, op.Within n ∧ op.isReset = false ∧
          ∀ g ∈ op.gates, ∀ q ∈ g.wires, q ∉ w.coin.wires) →
        ∀ v : StateVector ℝ, v.wires = n → v.amplitudes.size = 2 ^ n → ∃ t v',
          Leads others v t ∧ Leads (toss :: others ++ ops) v v' ∧
          (∀ i < 2 ^ n, ∀ j < 2 ^ n, c.Closed plane w j →
            AgreeOff w.coin.wires i.testBit j.testBit →
            w.coin.valueIn j = w.coin.valueIn i ^^^ 2 ^ (w.coin.width - 1) →
            v'.amplitude j = t.amplitude i) ∧
          ∀ x, (∀ i < 2 ^ n, v.amplitude i ≠ 0 → w.coin.valueIn i = x) →
            ∀ j < 2 ^ n, c.Closed plane w j → v'.amplitude j ≠ 0 →
              w.coin.valueIn j = x ^^^ 2 ^ (w.coin.width - 1) := by
  constructor
  · intro R _ c coin h hkind
    have hlen : w.coin.wires.length = coin.inverse.wires := by
      rw [Register.length_wires]
      exact h.width.symm
    exact ⟨_, _, h.block_eq_ok hkind, Operator.bind_eq_ok hlen,
      fun v hv hsize => h.acts_where_closed _ hv hsize⟩
  · intro c coin h hkind hpos
    have hlen : w.coin.wires.length = coin.wires := by rw [Register.length_wires, h.width]
    exact ⟨_, _, h.block_eq_ok hkind, Operator.bind_eq_ok hlen,
      fun others hothers v hv hsize => h.turned_behind_coin hpos _ hothers hv hsize⟩

/-- A permeable wall at the upper of two sites. In doubles the basis state one, with the control
register open, stays; exactly, what a coin phase leaves at the closed wall has its coin turned. -/
theorem reflection_turns_permeable :
    let w : Wiring := ⟨⟨"dimension0", .dimension 0, 0, 1⟩, ⟨"coin", .coin, 1, 1⟩,
      some ⟨"boundary0 control", .control 0, 2, 1⟩, none⟩
    (∃ ops v', (permeable (.hadamard 1) : BoundaryControl Float).block ⟨"1", 0, none⟩
        (.hadamard 1) w = .ok ops ∧
      Leads ops (.basis 3 1) v' ∧ v'.amplitude 1 = 1) ∧
    ∃ ops toss, (permeable (.hadamard 1) : BoundaryControl ℝ).block ⟨"1", 0, none⟩
        (.hadamard 1) w = .ok ops ∧
      (Operator.hadamard 1).bind [1] = .ok toss ∧
      ∃ t v', Leads [(Operator.hadamard 1).bound [2]] (.basis 3 1) t ∧
        Leads (toss :: [(Operator.hadamard 1).bound [2]] ++ ops) (.basis 3 1) v' ∧
        v'.amplitude 7 = t.amplitude 5 ∧ v'.amplitude 5 = 0 := by
  intro w
  have hmounted : ∀ {R : Type} [Scalar R], (permeable (.hadamard 1) : BoundaryControl R).Mounted
      ⟨"1", 0, none⟩ (.hadamard 1) w 3 := by
    intro R _
    have hlaid : [w.position, w.coin, ⟨"boundary0 control", .control 0, 2, 1⟩].Pairwise
        fun r s => r.stop ≤ s.start := by decide
    exact ⟨Pattern.isPattern_ones 1, isPattern_one, .hadamard 1, rfl, rfl,
      ⟨hlaid.imp Register.disjoint_of_stop_le, by decide⟩⟩
  have hkind : ∀ {R : Type} [Scalar R] (bits : ℕ),
      (permeable (.hadamard 1) : BoundaryControl R).permeability ≠ .oneWay bits := nofun
  have hvalue : Pattern.value (Pattern.ones 1) = 1 := Pattern.value_ones 1
  constructor
  · obtain ⟨ops, _, hblock, -, hrun⟩ := reflection_turns.1 (hmounted (R := Float)) hkind
    obtain ⟨v', _, hleads, -, hamplitude⟩ := hrun (.basis 3 1) rfl (by simp [StateVector.basis])
    have hopen : ¬ (permeable (.hadamard 1) : BoundaryControl Float).Closed ⟨"1", 0, none⟩ w 1 :=
      fun hclosed => absurd ((hclosed.2 _ rfl).trans hvalue) (by decide)
    exact ⟨ops, v', hblock, hleads, (hamplitude 1 (by decide)).1 hopen⟩
  · obtain ⟨ops, toss, hblock, htoss, hrun⟩ := reflection_turns.2 (hmounted (R := ℝ)) hkind one_pos
    have hclosed : ∀ j ∈ [5, 7],
        (permeable (.hadamard 1) : BoundaryControl ℝ).Closed ⟨"1", 0, none⟩ w j := by
      intro j hj
      simp only [List.mem_cons, List.not_mem_nil, or_false] at hj
      rcases hj with rfl | rfl
      · exact ⟨by decide, by rintro r ⟨⟩; exact hvalue.symm⟩
      · exact ⟨by decide, by rintro r ⟨⟩; exact hvalue.symm⟩
    have hother : ∀ op ∈ [(Operator.hadamard 1 : Operator ℝ).bound [2]],
        op.Within 3 ∧ op.isReset = false ∧ ∀ g ∈ op.gates, ∀ q ∈ g.wires, q ∉ w.coin.wires := by
      intro op hop
      obtain rfl := List.mem_singleton.mp hop
      have hfits := (Operator.Derived.hadamard (R := ℝ) 1).fits.1
      refine ⟨(Operator.wellFormed_bound (r := ⟨"boundary0 control", .control 0, 2, 1⟩) hfits
        (by decide)).toWithin, rfl, fun g hg q hq => ?_⟩
      have htwo : q ∈ [2] := Operator.wires_mem_of_gatesOn (by rfl) hfits hg q hq
      obtain rfl := List.mem_singleton.mp htwo
      decide
    obtain ⟨t, v', ht, hv', htransport, hcoin⟩ :=
      hrun _ hother (.basis 3 1) rfl (by simp [StateVector.basis])
    refine ⟨ops, toss, hblock, htoss, t, v', ht, hv', ?_, ?_⟩
    · refine htransport 5 (by decide) 7 (by decide) (hclosed 7 (by simp)) (fun q hq => ?_)
        (by decide)
      have hne : 1 ≠ q := fun e => hq (by simp [← e, w, Register.stop])
      show (5 ^^^ 2 ^ 1).testBit q = _
      rw [Nat.testBit_xor, Nat.testBit_two_pow, decide_eq_false hne, Bool.xor_false]
    · by_contra hne
      refine absurd (hcoin 0 (fun i hi hi' => ?_) 5 (by decide) (hclosed 5 (by simp)) hne)
        (by decide)
      rw [(StateVector.shows_basis (by decide)).amplitude i hi] at hi'
      have hone : i.testBit = (1 : ℕ).testBit :=
        Wave.supported_basis (P := (· = (1 : ℕ).testBit)) rfl _ hi'
      rw [← Register.read_testBit, hone, Register.read_testBit]
      decide

end BoundaryControl

end LatticeWalk
