import LatticeWalk.Proofs.Step
import LatticeWalk.Proofs.Support

/-! # Reflections in another order

A block applies the same gates on every plane of its control, under controls that these gates do not
change, and all reflections share one list of gates: the coin taken back and turned round. What
blocks that share their gates come to depends only on the number of controls that are met
(`Gate.actAll_blocks`), and not on their order.

* `BoundaryControl.ask`: the controls of a block. `BoundaryControl.actAll_blockOps` says that the
  block consists of the gates of `BoundaryControl.core` under these.
* `Installed.Rearranged`: the planes of any control in another order, and neighbours exchanged that
  both reflect. One-way controls keep their place, since what they count and record depends on the
  coin that they find.
* `Installed.Rearranged.actAll_blocksOf`: the blocks of rearranged controls act alike.
* `Plan.Seated.rearranged`, `Plan.Seated.guarded_iff`: they can be built if they could be before. -/

namespace LatticeWalk

open Operation (gatesOf)
open Operator (gatesOn controlsOn)

variable {R : Type} [Scalar R]

/-! ### Gates in another order -/

namespace Gate

/-- **Blocks that share their gates** can be put in any order. -/
theorem actAll_blocks_perm {α : Type} (cs : α → List Control) {gs : List (Gate R)} {ps qs : List α}
    (hperm : ps.Perm qs) (h : ∀ p ∈ ps, ∀ g ∈ gs, ∀ c ∈ cs p, c.wire ≠ g.target) (ψ : Wave R) :
    actAll (ps.flatMap fun p => gs.map (under (cs p))) ψ =
      actAll (qs.flatMap fun p => gs.map (under (cs p))) ψ := by
  funext b
  rw [actAll_blocks cs h, actAll_blocks cs fun p hp => h p (hperm.mem_iff.mpr hp),
    hperm.countP_eq]

theorem actAll_flatMap_congr {α : Type} {f f' : α → List (Gate R)} : ∀ {as : List α},
    (∀ a ∈ as, ∀ ψ, actAll (f a) ψ = actAll (f' a) ψ) → ∀ ψ : Wave R,
    actAll (as.flatMap f) ψ = actAll (as.flatMap f') ψ
  | [], _, _ => rfl
  | a :: as, h, ψ => by
    rw [List.flatMap_cons, List.flatMap_cons, actAll_append, actAll_append, h a (by simp),
      actAll_flatMap_congr fun a' ha' => h a' (by simp [ha'])]

/-! ### Controls in another order -/

omit [Scalar R] in
theorem under_under (cs ds : List Control) (g : Gate R) :
    (g.under ds).under cs = g.under (cs ++ ds) := by
  simp [under]

theorem act_under_comm (cs ds : List Control) (g : Gate R) (ψ : Wave R) :
    (g.under (cs ++ ds)).act ψ = (g.under (ds ++ cs)).act ψ := by
  funext b
  simp only [act_under, met_append, and_comm]

theorem actAll_under_comm (cs ds : List Control) : ∀ (gs : List (Gate R)) (ψ : Wave R),
    actAll (gs.map (under (cs ++ ds))) ψ = actAll (gs.map (under (ds ++ cs))) ψ
  | [], _ => rfl
  | g :: gs, ψ => by
    rw [List.map_cons, List.map_cons, actAll_cons, actAll_cons, act_under_comm,
      actAll_under_comm cs ds gs]

end Gate

/-! ### The controls of a block -/

namespace BoundaryControl

/-- A hard, permeable or absorbing control: its blocks reflect, and there is no valve. -/
def Reflects (c : BoundaryControl R) : Prop := ∀ bits, c.permeability ≠ .oneWay bits

/-- The controls that a block puts its gates under: those of the plane, and for a reflection also
those of the state. -/
def ask (c : BoundaryControl R) (plane : Boundary) (w : Wiring) : List Control :=
  match c.permeability, w.ancilla with
  | .oneWay _, some _ => controlsOn w.position.wires (Pattern.wireBits plane.pattern)
  | _, _ => controlsOn (w.controlWires ++ w.position.wires)
      (Pattern.wireBits (plane.pattern ++ c.state))

theorem Reflects.core_eq {c : BoundaryControl R} (h : c.Reflects) (coin : Operator R) (r : Register)
    (control : List ℕ) (ancilla : Option Register) :
    c.core coin r control ancilla = turnBack coin r := by
  unfold core
  cases hp : c.permeability with
  | oneWay bits => exact absurd hp (h bits)
  | _ => rfl

omit [Scalar R] in
theorem Reflects.ask_eq {c : BoundaryControl R} (h : c.Reflects) (plane : Boundary) (w : Wiring) :
    c.ask plane w = controlsOn (w.controlWires ++ w.position.wires)
      (Pattern.wireBits (plane.pattern ++ c.state)) := by
  unfold ask
  cases hp : c.permeability with
  | oneWay bits => exact absurd hp (h bits)
  | _ => rfl

section block
variable {c : BoundaryControl R} {plane : Boundary} {coin : Operator R} {w : Wiring}

theorem actAll_valveOps (hplane : IsPattern plane.pattern w.position.width) {control : List ℕ}
    (hstate : IsPattern c.state control.length) (counter : Operator R) (label : Option String)
    (blocked permitted direction : ℕ) (ψ : Wave R) :
    Gate.actAll (gatesOf
        (c.valveOps counter plane coin w control label blocked permitted direction)) ψ =
      Gate.actAll ((c.valveCore counter coin w.coin control blocked permitted direction).map
        (Gate.under (controlsOn w.position.wires (Pattern.wireBits plane.pattern)))) ψ := by
  set onPlane := controlsOn w.position.wires (Pattern.wireBits plane.pattern) with hon
  have hflag : ∀ (q : ℕ) (d : Control) (φ : Wave R),
      ((Gate.plain .flip q).under (d :: onPlane)).act φ =
        (((Gate.plain .flip q).under [d]).under onPlane).act φ := fun q d φ => by
    rw [Gate.under_under]
    exact Gate.act_under_comm [d] onPlane _ φ
  have hpass : ∀ (cs : List Control) (d : Control) (gs : List (Gate R)) (φ : Wave R),
      Gate.actAll (gs.map (Gate.under (cs ++ d :: onPlane))) φ =
        Gate.actAll ((gs.map (Gate.under (cs ++ [d]))).map (Gate.under onPlane)) φ := by
    intro cs d gs φ
    simp only [List.map_map, Function.comp_def, Gate.under_under]
    rw [← Gate.actAll_under_comm (cs ++ [d]) onPlane]
    simp
  rw [gatesOf_valveOps hplane hstate]
  simp only [valveCore, List.map_append, List.map_cons, List.map_nil, Gate.actAll_append,
    Gate.actAll_cons, Gate.actAll_nil, ← hon, hflag, hpass]

/-- **A block applies the gates of its control** under the controls of its plane. -/
theorem actAll_blockOps (hplane : IsPattern plane.pattern w.position.width)
    (hstate : IsPattern c.state w.controlWires.length) (ψ : Wave R) :
    Gate.actAll (gatesOf (c.blockOps plane coin w)) ψ =
      Gate.actAll ((c.core coin w.coin w.controlWires w.ancilla).map
        (Gate.under (c.ask plane w))) ψ := by
  have hreflection :
      gatesOf (c.reflectionOps plane coin w w.controlWires (plane.label.or c.label)) =
        (turnBack coin w.coin).map (Gate.under (controlsOn (w.controlWires ++ w.position.wires)
          (Pattern.wireBits (plane.pattern ++ c.state)))) :=
    gatesOf_reflectionOps_of_isPattern (Pattern.isPattern_append hplane hstate) _
  cases hp : c.permeability with
  | oneWay bits =>
    cases ha : w.ancilla with
    | some a =>
      simp only [blockOps, core, ask, hp, ha]
      exact actAll_valveOps hplane hstate _ _ _ _ _ ψ
    | none => simp only [blockOps, core, ask, hp, ha, hreflection]
  | _ => simp only [blockOps, core, ask, hp, hreflection]

/-- **The gates of a block change none of its controls.** -/
theorem apart_ask {n : ℕ} (hw : w.Suits c) (hap : w.Apart n)
    (hcoin : ∀ g ∈ turnBack coin w.coin, g.target ∈ w.coin.wires) {g : Gate R}
    (hg : g ∈ c.core coin w.coin w.controlWires w.ancilla) :
    ∀ d ∈ c.ask plane w, d.wire ≠ g.target := by
  have hposition : ∀ q ∈ w.position.wires, q ≠ g.target := by
    rintro q hq rfl
    rcases target_core hw hcoin hg with hcoin | ⟨-, r, hr, hmem⟩
    · exact hap.position_coin hq hcoin
    · have hr' : r ∈ w.coin :: (w.control.toList ++ w.ancilla.toList) := List.mem_cons_of_mem _ hr
      exact (List.pairwise_cons.mp hap.disjoint).1 r hr' hq hmem
  intro d hd
  unfold ask at hd
  split at hd
  next => exact hposition _ (Operator.wire_mem_of_controlsOn hd)
  next hreflects =>
    rcases List.mem_append.mp (Operator.wire_mem_of_controlsOn hd) with hq | hq
    · intro e
      rcases target_core hw hcoin hg with hcoin | ⟨⟨bits, hp⟩, -⟩
      · exact hap.control_coin hq (e ▸ hcoin)
      · -- a valve has an ancilla, and does not ask for its state
        obtain ⟨a, ha, -⟩ := hw.ancilla_of_oneWay hp
        exact hreflects bits a hp ha
    · exact hposition _ hq

theorem gatesOf_of_block (hc : c.Reflects) (hw : w.Suits c) {ops : List (Operation R)}
    (h : c.block plane coin w = .ok ops) :
    gatesOf ops = (turnBack coin w.coin).map (Gate.under (c.ask plane w)) ∧
      ∀ op ∈ ops, op.isReset = false := by
  obtain ⟨control, hcontrol, h⟩ := Except.bind_eq_ok.mp h
  obtain rfl := eq_of_controlWires hw hcontrol
  rw [hc.ask_eq]
  cases hp : c.permeability with
  | oneWay bits => exact absurd hp (hc bits)
  | _ =>
    rw [hp] at h
    obtain ⟨hpattern, rfl⟩ := eq_reflectionOps_of_reflection h
    exact ⟨gatesOf_reflectionOps_of_isPattern hpattern _, isReset_reflectionOps⟩

end block

end BoundaryControl

/-! ### The blocks of a plan -/

/-- The control with its planes in another list. -/
def Installed.withPlanes (c : Installed R) (ps : List Boundary) : Installed R :=
  { c with control := { c.control with boundaries := ps } }

/-- **Controls rearranged**: the planes of each are in any order, and neighbours may be exchanged if
both reflect, so that a one-way control stays between those before it and those after it. -/
inductive Installed.Rearranged : List (Installed R) → List (Installed R) → Prop
  | nil : Rearranged [] []
  | planes {c : Installed R} {ps : List Boundary} {cs cs' : List (Installed R)}
      (hperm : c.control.boundaries.Perm ps) (h : Rearranged cs cs') :
      Rearranged (c :: cs) (c.withPlanes ps :: cs')
  | swap {c d : Installed R} (cs : List (Installed R)) (hc : c.control.Reflects)
      (hd : d.control.Reflects) : Rearranged (c :: d :: cs) (d :: c :: cs)
  | trans {cs cs' cs'' : List (Installed R)} (h : Rearranged cs cs') (h' : Rearranged cs' cs'') :
      Rearranged cs cs''

namespace Plan

/-- The gates that the blocks of a control share. -/
def core (plan : Plan R) (c : Installed R) : List (Gate R) :=
  c.control.core plan.coin plan.coinRegister ((c.register.map Register.wires).getD []) c.ancilla

/-- The controls that the block of a plane puts them under. -/
def ask (plan : Plan R) (c : Installed R) (plane : Boundary) : List Control :=
  c.control.ask plane (plan.wiring c plane)

/-- The coin taken back and turned round for each of several controls with a plane. -/
def reflections (plan : Plan R) (xs : List (Installed R × Boundary)) : List (Gate R) :=
  xs.flatMap fun x => (BoundaryControl.turnBack plan.coin plan.coinRegister).map
    (Gate.under (plan.ask x.1 x.2))

/-- **The blocks of the control can be built**: it is seated, and sound if it has planes at all. -/
structure Builds (plan : Plan R) (c : Installed R) : Prop where
  seats : plan.Seats c
  sound : c.control.boundaries ≠ [] → c.control.Sound

variable {plan : Plan R} {c d : Installed R} {cs cs' : List (Installed R)} {ps : List Boundary}

omit [Scalar R] in
theorem Seats.withPlanes (h : plan.Seats c) (hperm : c.control.boundaries.Perm ps) :
    plan.Seats (c.withPlanes ps) where
  suits plane := ⟨(h.suits plane).control, (h.suits plane).ancilla⟩
  planes plane hp := h.planes plane (hperm.mem_iff.mpr hp)
  apart := h.apart

omit [Scalar R] in
theorem Seats.withControls (h : plan.Seats c) (cs : List (Installed R)) :
    { plan with controls := cs }.Seats c := ⟨h.suits, h.planes, h.apart⟩

theorem Seated.withControls (h : plan.Seated) (hcs : ∀ c ∈ cs, plan.Seats c) :
    { plan with controls := cs }.Seated :=
  ⟨h.coin, h.coin_pos, fun c hc => (hcs c hc).withControls cs⟩

omit [Scalar R] in
theorem Builds.withPlanes (h : plan.Builds c) (hperm : c.control.boundaries.Perm ps) :
    plan.Builds (c.withPlanes ps) where
  seats := h.seats.withPlanes hperm
  sound hne := by
    have hsound := h.sound fun hnil => hne (List.perm_nil.mp (hnil ▸ hperm.symm))
    exact ⟨hsound.state, hsound.width⟩

section coin
variable (hcoin : IsCoin plan.coinRegister.width plan.coin)
include hcoin

theorem Seats.apart_ask (h : plan.Seats c) {plane : Boundary}
    (hd : plane.dimension < plan.positions.length) {g : Gate R} (hg : g ∈ plan.core c) :
    ∀ a ∈ plan.ask c plane, a.wire ≠ g.target :=
  BoundaryControl.apart_ask (h.suits plane) (h.apart plane hd)
    (fun _ => BoundaryControl.target_of_turnBack hcoin.plain.wires hcoin.fits_inverse) hg

omit hcoin in
/-- The blocks of a control apply its gates under the controls of its planes. -/
theorem Builds.actAll_blocksOf (h : plan.Builds c) (ψ : Wave R) :
    Gate.actAll (gatesOf (plan.blocksOf c)) ψ = Gate.actAll (c.control.boundaries.flatMap
      fun plane => (plan.core c).map (Gate.under (plan.ask c plane))) ψ := by
  have hgates : gatesOf (plan.blocksOf c) = c.control.boundaries.flatMap fun plane =>
      gatesOf (c.control.blockOps plane plan.coin (plan.wiring c plane)) := List.flatMap_assoc
  rw [hgates]
  refine Gate.actAll_flatMap_congr (fun plane hp φ => ?_) ψ
  have hstate := (h.sound (List.ne_nil_of_mem hp)).state
  rw [← (h.seats.suits plane).length_controlWires] at hstate
  exact BoundaryControl.actAll_blockOps (h.seats.planes plane hp).2 hstate φ

omit hcoin in
theorem Builds.actAll_blocksOf_of_reflects (h : plan.Builds c) (hreflects : c.control.Reflects)
    (ψ : Wave R) : Gate.actAll (gatesOf (plan.blocksOf c)) ψ =
      Gate.actAll (plan.reflections (c.control.boundaries.map (Prod.mk c))) ψ := by
  rw [h.actAll_blocksOf, core, hreflects.core_eq, reflections, List.flatMap_map]

/-- **Reflections in any order** act alike, whatever their controls. -/
theorem actAll_reflections_perm {xs ys : List (Installed R × Boundary)} (hperm : xs.Perm ys)
    (h : ∀ x ∈ xs, x.1.control.Reflects ∧ plan.Seats x.1 ∧ x.2.dimension < plan.positions.length)
    (ψ : Wave R) :
    Gate.actAll (plan.reflections xs) ψ = Gate.actAll (plan.reflections ys) ψ := by
  refine Gate.actAll_blocks_perm (fun x => plan.ask x.1 x.2) hperm (fun x hx g hg => ?_) ψ
  obtain ⟨hreflects, hseats, hd⟩ := h x hx
  refine hseats.apart_ask hcoin hd ?_
  rwa [core, hreflects.core_eq]

/-- The blocks of two controls that reflect can be exchanged. -/
theorem Builds.actAll_blocksOf_comm (hc : plan.Builds c) (hd : plan.Builds d)
    (hreflects : c.control.Reflects) (hreflects' : d.control.Reflects) (ψ : Wave R) :
    Gate.actAll (gatesOf (plan.blocksOf c ++ plan.blocksOf d)) ψ =
      Gate.actAll (gatesOf (plan.blocksOf d ++ plan.blocksOf c)) ψ := by
  have hseated : ∀ {c : Installed R}, plan.Builds c → c.control.Reflects →
      ∀ x ∈ c.control.boundaries.map (Prod.mk c), x.1.control.Reflects ∧ plan.Seats x.1 ∧
        x.2.dimension < plan.positions.length := by
    intro c hc hreflects x hx
    obtain ⟨plane, hp, rfl⟩ := List.mem_map.mp hx
    exact ⟨hreflects, hc.seats, (hc.seats.planes plane hp).1⟩
  have hperm := actAll_reflections_perm hcoin List.perm_append_comm (fun x hx =>
    (List.mem_append.mp hx).elim (hseated hc hreflects x) (hseated hd hreflects' x)) ψ
  simp only [reflections, List.flatMap_append, Gate.actAll_append] at hperm
  simp only [Operation.gatesOf_append, Gate.actAll_append,
    hc.actAll_blocksOf_of_reflects hreflects, hd.actAll_blocksOf_of_reflects hreflects']
  exact hperm

end coin

end Plan

namespace Installed.Rearranged

variable {plan : Plan R} {cs cs' : List (Installed R)}

omit [Scalar R] in
theorem refl : ∀ cs : List (Installed R), Rearranged cs cs
  | [] => .nil
  | c :: cs => .planes (c := c) (.refl _) (refl cs)

omit [Scalar R] in
theorem symm (h : Rearranged cs cs') : Rearranged cs' cs := by
  induction h with
  | nil => exact .nil
  | @planes c ps _ _ hperm _ ih => exact .planes (c := c.withPlanes ps) hperm.symm ih
  | swap cs hc hd => exact .swap cs hd hc
  | trans _ _ ih ih' => exact ih'.trans ih

omit [Scalar R] in
/-- What does not depend on the order of planes is true of the controls rearranged. -/
theorem forall_mem {P : Installed R → Prop}
    (hP : ∀ {c ps}, c.control.boundaries.Perm ps → P c → P (c.withPlanes ps))
    (h : Rearranged cs cs') (hcs : ∀ c ∈ cs, P c) : ∀ c ∈ cs', P c := by
  induction h with
  | nil => exact hcs
  | planes hperm _ ih =>
    rw [List.forall_mem_cons] at hcs ⊢
    exact ⟨hP hperm hcs.1, ih hcs.2⟩
  | swap cs hc hd =>
    simp only [List.forall_mem_cons] at hcs ⊢
    exact ⟨hcs.2.1, hcs.1, hcs.2.2⟩
  | trans _ _ ih ih' => exact ih' (ih hcs)

/-- **The blocks of rearranged controls act alike** on every wave. -/
theorem actAll_blocksOf (h : Rearranged cs cs')
    (hcoin : IsCoin plan.coinRegister.width plan.coin) (hcs : ∀ c ∈ cs, plan.Builds c)
    (ψ : Wave R) : Gate.actAll (gatesOf (cs.flatMap plan.blocksOf)) ψ =
      Gate.actAll (gatesOf (cs'.flatMap plan.blocksOf)) ψ := by
  induction h generalizing ψ with
  | nil => rfl
  | planes hperm _ ih =>
    obtain ⟨hc, hcs⟩ := List.forall_mem_cons.mp hcs
    -- a block does not know the other planes of its control
    have hplanes := Gate.actAll_blocks_perm (plan.ask _) hperm (fun plane hp g hg =>
      hc.seats.apart_ask hcoin (hc.seats.planes plane hp).1 hg) ψ
    rw [List.flatMap_cons, List.flatMap_cons, Operation.gatesOf_append, Operation.gatesOf_append,
      Gate.actAll_append, Gate.actAll_append, hc.actAll_blocksOf, hplanes, ih hcs,
      (hc.withPlanes hperm).actAll_blocksOf]
    rfl
  | swap cs hreflects hreflects' =>
    simp only [List.forall_mem_cons] at hcs
    obtain ⟨hc, hd, -⟩ := hcs
    simp only [List.flatMap_cons, ← List.append_assoc]
    rw [Operation.gatesOf_append, Operation.gatesOf_append _ (cs.flatMap _), Gate.actAll_append,
      Gate.actAll_append, hc.actAll_blocksOf_comm hcoin hd hreflects hreflects']
  | trans h _ ih ih' => rw [ih hcs, ih' (h.forall_mem (fun hperm hc => hc.withPlanes hperm) hcs)]

end Installed.Rearranged

section rearranged
variable {plan : Plan R} (hs : plan.Seated) {cs : List (Installed R)}
  (h : Installed.Rearranged plan.controls cs)
include hs h

theorem Plan.Seated.rearranged : { plan with controls := cs }.Seated :=
  hs.withControls (h.forall_mem (fun hperm hc => hc.withPlanes hperm) hs.controls)

theorem Plan.Seated.guarded_iff : plan.Guarded ↔ { plan with controls := cs }.Guarded := by
  have hkeep : ∀ {c : Installed R} {ps : List Boundary}, c.control.boundaries.Perm ps →
    plan.Builds c → plan.Builds (c.withPlanes ps) := fun hperm hc => hc.withPlanes hperm
  constructor
  · intro hg c hc
    exact (h.forall_mem hkeep (fun c hc => ⟨hs.controls c hc, hg c hc⟩) c hc).sound
  · intro hg c hc
    have hseats := h.forall_mem (P := plan.Seats) (fun hperm hc => hc.withPlanes hperm) hs.controls
    exact (h.symm.forall_mem hkeep (fun c hc => ⟨hseats c hc, hg c hc⟩) c hc).sound

end rearranged

end LatticeWalk
