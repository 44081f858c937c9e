import LatticeWalk.Proofs.AbsorbingWalls
import LatticeWalk.Proofs.CleanControls
import LatticeWalk.Proofs.Veils

/-! # Walks with a veil

Two walks that differ in one control: the second has a control with a register of its own, a veil,
where the first has a wall or nothing. The other controls have the same registers, those behind the
veil on wires further up.

* `Register.wireOff_singleton`: the wires that are left, in order.
* `Plan.Veiled`: the two plans; `WalkSpec.veiled` proves it of the plans that are made.
* `Plan.Veiled.weaves_stepsFrom`: the steps of the first walk are woven into those of the second.
* `Plan.Veiled.latched_prepared`: both programs begin with the same bits, the register at zero. -/

namespace LatticeWalk

open Operation (Follows Weaves)

/-! ### One register dropped -/

namespace Register

variable {r : Register} {s : String}

theorem offLatches_singleton {q : ℕ} : OffLatches [(r, s)] q ↔ q ∉ r.wires := by
  simp only [OffLatches, List.forall_mem_singleton]

theorem count_of_le_start {q : ℕ} (h : q ≤ r.start) : Nat.count (OffLatches [(r, s)]) q = q := by
  refine Nat.count_of_forall fun k hk => offLatches_singleton.mpr fun hmem => ?_
  have hstart := (mem_wires.mp hmem).1
  omega

theorem count_of_stop_le {q : ℕ} (h : r.start ≤ q) :
    Nat.count (OffLatches [(r, s)]) (q + r.width) = q := by
  obtain ⟨k, rfl⟩ := Nat.exists_eq_add_of_le h
  have hstop : r.start + k + r.width = r.stop + k := by
    rw [stop]
    omega
  have hoff : Nat.count (fun i => OffLatches [(r, s)] (r.stop + i)) k = k := by
    refine Nat.count_of_forall fun i _ => offLatches_singleton.mpr fun hmem => ?_
    have hlt := (mem_wires.mp hmem).2
    omega
  have hon : ∀ q ∈ r.wires, ¬ OffLatches [(r, s)] q := fun q hq hoff =>
    offLatches_singleton.mp hoff hq
  rw [hstop, Nat.count_add, hoff, count_of_latch hon, count_of_le_start le_rfl]

/-- **The wires that are left** when the register is the only one dropped. -/
theorem wireOff_singleton : wireOff [(r, s)] = r.wireAround := by
  funext q
  have hcount : Nat.count (OffLatches [(r, s)]) (r.wireAround q) = q := by
    unfold wireAround
    split_ifs with hlt
    · exact count_of_le_start hlt.le
    · exact count_of_stop_le (not_lt.mp hlt)
  calc wireOff [(r, s)] q
      = Nat.nth (OffLatches [(r, s)]) (Nat.count (OffLatches [(r, s)]) (r.wireAround q)) := by
        rw [hcount]
        rfl
    _ = r.wireAround q := Nat.nth_count (offLatches_singleton.mpr (wireAround_notMem q))

/-- The register asked for a value, as if it were a latch. -/
theorem exists_askLatches (r : Register) (v : Bool) : ∃ s, askLatches [(r, s)] = r.asks v := by
  have hsingle : ∀ s, askLatches [(r, s)] =
      Operator.controlsOn r.wires (Pattern.wireBits s) := fun s => List.append_nil _
  cases v with
  | true => exact ⟨Pattern.ones r.width, (hsingle _).trans asks_true.symm⟩
  | false =>
    exact ⟨Pattern.zeros r.width,
      (hsingle _).trans (asks_eq_controlsOn (Pattern.wireBits_zeros _)).symm⟩

end Register

/-! ### The two plans -/

/-- **The two plans**: the controls in front and behind are counterparts, and between them there is
a control with the register in the second plan, and a control without registers or none in the
first. -/
structure Plan.Veiled {R : Type} (r : Register) (wall : Option (Installed R)) (veil : Installed R)
    (as bs as' bs' : List (Installed R)) (plan plan' : Plan R) : Prop where
  front : plan.Front r.wireAround plan'
  controls : plan.controls = as ++ wall.toList ++ bs
  controls' : plan'.controls = as' ++ veil :: bs'
  before : ∀ v, as.Forall₂ (Installed.Counterpart r.wireAround (r.asks v)) as'
  behind : ∀ v, bs.Forall₂ (Installed.Counterpart r.wireAround (r.asks v)) bs'
  register : veil.register = some r
  ancilla : veil.ancilla = none
  start : r.start ≤ plan.layout.width
  width : plan'.layout.width = plan.layout.width + r.width

namespace Plan.Veiled

variable {R : Type} {r : Register} {wall : Option (Installed R)} {veil : Installed R}
  {as bs as' bs' : List (Installed R)} {plan plan' : Plan R}
  (h : plan.Veiled r wall veil as bs as' bs' plan')
include h

theorem around (v : Bool) : (as ++ bs).Forall₂ (Installed.Counterpart r.wireAround (r.asks v))
    (as' ++ bs') := List.rel_append (h.before v) (h.behind v)

theorem mem_controls {c : Installed R} : c ∈ plan.controls ↔ c ∈ wall ∨ c ∈ as ++ bs := by
  rw [h.controls, List.append_assoc, List.mem_append, List.mem_append, or_left_comm,
    ← List.mem_append, Option.mem_toList]
  rfl

theorem mem_controls' {c : Installed R} : c ∈ plan'.controls ↔ c = veil ∨ c ∈ as' ++ bs' := by
  rw [h.controls', List.mem_append, List.mem_cons, or_left_comm, ← List.mem_append]

end Plan.Veiled

namespace Installed

variable {R : Type} {r : Register}

/-- **Packed controls before the register or behind it** are counterparts, whatever the register
is asked for, and so are the registers behind them. -/
theorem counterparts_off {cs cs' : List (Installed R)}
    (hsame : cs.map control = cs'.map control) (hw : ∀ c ∈ cs, c.Wired) (hw' : ∀ c ∈ cs', c.Wired)
    {s s' : ℕ} (hp : Register.PackedFrom s (cs.flatMap registers))
    (hp' : Register.PackedFrom s' (cs'.flatMap registers))
    (hoff : ∀ r' ∈ cs'.flatMap registers, r'.wires.Disjoint r.wires)
    (hcount : ∀ t, Nat.count (OffLatches [(r, t)]) s' = s) :
    (∀ v, cs.Forall₂ (Counterpart r.wireAround (r.asks v)) cs') ∧
      ∀ t, Nat.count (OffLatches [(r, t)]) (s' + ((cs'.flatMap registers).map Register.width).sum) =
        s + ((cs.flatMap registers).map Register.width).sum := by
  have hkin : ∀ t, cs.Forall₂ (Kin [(r, t)]) cs' := by
    intro t
    have heq : (cs'.map control).Forall₂ (· = ·) (cs.map control) := by
      rw [List.forall₂_eq_eq_eq]
      exact hsame.symm
    rw [List.forall₂_map_left_iff, List.forall₂_map_right_iff] at heq
    have hmem := (List.forall₂_and_left _ _).mpr ⟨fun c (hc : c ∈ cs') => hc, heq⟩
    refine List.Forall₂.flip (hmem.imp fun c' c ⟨hc', hcontrol⟩ => ?_)
    refine .kept hcontrol fun r' hr' q hq => Register.offLatches_singleton.mpr fun hqr => ?_
    exact hoff r' (List.mem_flatMap.mpr ⟨c', hc', hr'⟩) hq hqr
  have hpacked := fun t => counterparts_of_kin (hkin t) hw hw' hp hp' (hcount t)
  refine ⟨fun v => ?_, fun t => (hpacked t).2⟩
  obtain ⟨t, ht⟩ := r.exists_askLatches v
  have hcounter := (hpacked t).1
  rwa [Register.wireOff_singleton, ht] at hcounter

/-- **Packed controls around a register**, and the same without the register. -/
theorem counterparts_around {as bs as' bs' : List (Installed R)}
    (has : as.map control = as'.map control) (hbs : bs.map control = bs'.map control)
    (hw : ∀ c ∈ as ++ bs, c.Wired) (hw' : ∀ c ∈ as' ++ bs', c.Wired) {s : ℕ}
    (hp : Register.PackedFrom s (as.flatMap registers ++ bs.flatMap registers))
    (hp' : Register.PackedFrom s (as'.flatMap registers ++ r :: bs'.flatMap registers)) :
    (∀ v, as.Forall₂ (Counterpart r.wireAround (r.asks v)) as') ∧
      (∀ v, bs.Forall₂ (Counterpart r.wireAround (r.asks v)) bs') ∧
      s ≤ r.start ∧ r.start ≤ s +
        ((as.flatMap registers ++ bs.flatMap registers).map Register.width).sum ∧
      ((as'.flatMap registers ++ r :: bs'.flatMap registers).map Register.width).sum =
        ((as.flatMap registers ++ bs.flatMap registers).map Register.width).sum + r.width := by
  rw [List.forall_mem_append] at hw hw'
  obtain ⟨hpas, hpbs⟩ := Register.packedFrom_append.mp hp
  obtain ⟨hpas', hstart, hpbs'⟩ := Register.packedFrom_append.mp hp'
  have hoff : ∀ r' ∈ as'.flatMap registers, r'.wires.Disjoint r.wires := fun r' hr' =>
    Register.disjoint_of_stop_le (by rw [hstart]; exact (hpas'.bounds hr').2)
  have hoff' : ∀ r' ∈ bs'.flatMap registers, r'.wires.Disjoint r.wires := fun r' hr' =>
    (Register.disjoint_of_stop_le (hpbs'.bounds hr').1).symm
  have hle : s ≤ r.start := hstart ▸ Nat.le_add_right _ _
  -- in front of the register nothing is left out, and behind it the register is
  obtain ⟨hbefore, hcount⟩ := counterparts_off has hw.1 hw'.1 hpas hpas' hoff
    fun t => Register.count_of_le_start hle
  have hsum := hcount ""
  rw [← hstart, Register.count_of_le_start le_rfl] at hsum
  obtain ⟨hbehind, hcount'⟩ := counterparts_off hbs hw.2 hw'.2 hpbs hpbs' hoff' fun t => by
    rw [Register.stop, Register.count_of_stop_le le_rfl, hsum]
  have hsum' := hcount' ""
  rw [Register.stop, Nat.add_right_comm, Register.count_of_stop_le (Nat.le_add_right _ _)] at hsum'
  refine ⟨hbefore, hbehind, hle, ?_, ?_⟩
  · rw [hsum, List.map_append, List.sum_append]
    omega
  · simp only [List.map_append, List.sum_append, List.map_cons, List.sum_cons]
    omega

end Installed

/-- The specification with other controls. -/
def WalkSpec.withControls {R : Type} (spec : WalkSpec R) (controls : List (BoundaryControl R)) :
    WalkSpec R := { spec with controls := controls }

namespace WalkSpec

variable {R : Type} [Scalar R] {spec : WalkSpec R} {before behind : List (BoundaryControl R)}
  {c : BoundaryControl R} {op : Operator R} {hard? : Option (BoundaryControl R)}
  {plan plan' : Plan R}

/-- **The plans of a walk with a veil and of the same walk with a wall in its place, or without
it.** -/
theorem veiled (hcontrols : spec.controls = before ++ c :: behind)
    (hpermeable : c.permeability = .permeable op) (hpos : 0 < op.wires)
    (hhard : ∀ h ∈ hard?, h.permeability = .hard) (hplan' : spec.plan = .ok plan')
    (hplan : (spec.withControls (before ++ hard?.toList ++ behind)).plan = .ok plan) :
    ∃ r wall veil as bs as' bs', plan.Veiled r wall veil as bs as' bs' plan' ∧
      wall.map Installed.control = hard? ∧ veil.control = c ∧ as'.length = before.length ∧
      r.width = op.wires := by
  have h := plan_sound hplan
  have h' := plan_sound hplan'
  -- the controls of both plans, part by part
  have hmap : plan.controls.map Installed.control = before ++ hard?.toList ++ behind := h.controls
  have hmap' : plan'.controls.map Installed.control = before ++ c :: behind :=
    h'.controls.trans hcontrols
  obtain ⟨asw, bs, hsplit, hasw, hbs⟩ := List.map_eq_append_iff.mp hmap
  obtain ⟨as, ws, rfl, has, hws⟩ := List.map_eq_append_iff.mp hasw
  obtain ⟨as', rest, hsplit', has', hrest⟩ := List.map_eq_append_iff.mp hmap'
  obtain ⟨veil, bs', rfl, hveil, hbs'⟩ := List.map_eq_cons_iff.mp hrest
  obtain ⟨wall, rfl, hwall⟩ : ∃ wall : Option (Installed R), ws = wall.toList ∧
      wall.map Installed.control = hard? := by
    cases hard? with
    | none => exact ⟨none, List.map_eq_nil_iff.mp hws, rfl⟩
    | some wall =>
      obtain ⟨i, rest, rfl, hi, hnil⟩ := List.map_eq_cons_iff.mp hws
      exact ⟨some i, by rw [List.map_eq_nil_iff.mp hnil]; rfl, congrArg some hi⟩
  -- the registers of the wall and of the veil
  have hbare : wall.toList.flatMap Installed.registers = [] := by
    refine List.flatMap_eq_nil_iff.mpr fun i hi => ?_
    have hi' : wall = some i := Option.mem_toList.mp hi
    have hmem : i ∈ plan.controls := by simp [hsplit, hi']
    have hnone := (h.wired i hmem).eq_none_of_hard (hhard _ (by rw [← hwall, hi']; rfl))
    simp [Installed.registers, hnone]
  have hwired := h'.wired veil (by simp [hsplit'])
  have hwidth : veil.control.controlWidth = op.wires := by
    rw [hveil, BoundaryControl.controlWidth, hpermeable]
    rfl
  have hnone : veil.control.ancillaWidth = 0 := by
    rw [hveil, BoundaryControl.ancillaWidth, hpermeable]
    rfl
  obtain ⟨r, hr, hrw⟩ := hwired.exists_register (hwidth ▸ hpos)
  have ha : veil.ancilla = none := Option.map_eq_none_iff.mp (hwired.ancilla.trans (if_pos hnone))
  have hregisters : veil.registers = [r] := by simp [Installed.registers, hr, ha]
  -- where they stand
  obtain ⟨hpositions, hcoin⟩ := same_front hplan hplan' rfl rfl
  obtain ⟨hpacked, htotal⟩ := h.packed_controls
  obtain ⟨hpacked', htotal'⟩ := h'.packed_controls
  have hflat : plan.controls.flatMap Installed.registers =
      as.flatMap Installed.registers ++ bs.flatMap Installed.registers := by
    simp [hsplit, hbare]
  have hflat' : plan'.controls.flatMap Installed.registers =
      as'.flatMap Installed.registers ++ r :: bs'.flatMap Installed.registers := by
    simp [hsplit', hregisters]
  rw [hflat] at hpacked htotal
  rw [hflat', hcoin] at hpacked' htotal'
  obtain ⟨hbefore, hbehind, hle, hlt, hsum⟩ := Installed.counterparts_around
    (has.trans has'.symm) (hbs.trans hbs'.symm) (fun i hi => h.wired i (by
      rw [hsplit]
      simp only [List.mem_append] at hi ⊢
      tauto)) (fun i hi => h'.wired i (by
      rw [hsplit']
      simp only [List.mem_append, List.mem_cons] at hi ⊢
      tauto)) hpacked hpacked'
  refine ⟨r, wall, veil, as, bs, as', bs', ?_, hwall, hveil, ?_, hrw.trans hwidth⟩
  · refine ⟨⟨hpositions, hcoin, ?_, ?_, ?_, fun q hq => Register.wireAround_of_lt (by omega)⟩,
      hsplit, hsplit', hbefore, hbehind, hr, ha, by omega, by omega⟩
    · exact Except.ok.inj (h'.coin.symm.trans h.coin)
    · rw [h'.initial, h.initial]
      rfl
    · rw [h'.decoherence, h.decoherence]
      rfl
  · rw [← has', List.length_map]

end WalkSpec

/-! ### Steps -/

/-- What resets a control after a step. -/
def Installed.resetOps {R : Type} (c : Installed R) : List (Operation R) :=
  c.control.resetScript c.register c.ancilla

/-- **What the veil does in a step**, beside the wall: its coin gives the register a value, its
blocks leave the register, and its resets set it to zero again. -/
structure Plan.Shades (r : Register) (v : Bool) (wall : Option (Installed ℝ)) (veil : Installed ℝ)
    (plan plan' : Plan ℝ) : Prop where
  coins : Weaves r false v (wall.toList.flatMap Installed.coinOps) veil.coinOps
  blocks : Weaves r v v (wall.toList.flatMap plan.blocksOf) (plan'.blocksOf veil)
  resets : Weaves r v false (wall.toList.flatMap Installed.resetOps) veil.resetOps

namespace Plan.Veiled

variable {r : Register} {wall : Option (Installed ℝ)} {veil : Installed ℝ}
  {as bs as' bs' : List (Installed ℝ)} {plan plan' : Plan ℝ} {spec : WalkSpec ℝ}
  (h : plan.Veiled r wall veil as bs as' bs' plan')
include h

/-- **A phase, control by control**: the controls around the veil do what they do in the first
walk. -/
theorem weaves_controls {phase phase' : Installed ℝ → List (Operation ℝ)} {u v : Bool}
    (hkept : ∀ w, ∀ c ∈ plan.controls, ∀ c', c.Counterpart r.wireAround (r.asks w) c' →
      (phase c).Forall₂ (Follows r.wireAround (r.asks w)) (phase' c'))
    (hveil : Weaves r u v (wall.toList.flatMap phase) (phase' veil)) :
    Weaves r u v (plan.controls.flatMap phase) (plan'.controls.flatMap phase') := by
  have hpart : ∀ (w : Bool) {cs cs' : List (Installed ℝ)}, cs ⊆ as ++ bs →
      cs.Forall₂ (Installed.Counterpart r.wireAround (r.asks w)) cs' →
      Weaves r w w (cs.flatMap phase) (cs'.flatMap phase') := by
    intro w cs cs' hcs hcounter
    have hmem := (List.forall₂_and_left _ _).mpr
      ⟨fun c (hc : c ∈ cs) => h.mem_controls.mpr (.inr (hcs hc)), hcounter⟩
    exact .follow (List.rel_flatMap hmem fun c c' hc => hkept w c hc.1 c' hc.2)
  have hboth := (hpart u (List.subset_append_left _ _) (h.before u)).append
    (hveil.append (hpart v (List.subset_append_right _ _) (h.behind v)))
  rw [h.controls, h.controls']
  simpa only [List.flatMap_append, List.flatMap_cons, List.append_assoc] using hboth

variable (hplan : plan.Sound spec) {v : Bool} (hveil : plan.Shades r v wall veil plan')
include hplan hveil

/-- **A step of the first walk is woven into one of the second.** -/
theorem weaves_stepOps (hg : plan.Guarded) (step : ℕ) :
    Weaves r false false (plan.stepOps step) (plan'.stepOps step) := by
  have hbarrier : Weaves r v v [.barrier] [.barrier] :=
    .follow (.cons Operation.follows_barrier .nil)
  have hcoins : Weaves r false v plan.coinOps plan'.coinOps :=
    (Weaves.append (.follow (.cons (h.front.follows_coin hplan) .nil))
      (h.weaves_controls (fun _ _ _ _ hc => hc.follow_coinOps (h.front.fixed_zero hplan))
        hveil.coins)).append hbarrier
  have hblocks : Weaves r v v plan.boundaryOps plan'.boundaryOps := by
    rw [boundaryOps_eq, boundaryOps_eq]
    exact (h.weaves_controls (fun _ c hc _ hcounter =>
      h.front.follow_blocksOf hplan hc hcounter (hg c hc)) hveil.blocks).append hbarrier
  have hresets : Weaves r v false (plan.resetOps step) (plan'.resetOps step) :=
    (h.weaves_controls (fun _ _ _ _ hc => hc.follow_resetScript) hveil.resets).append
      (.follow (h.front.follow_decoherence hplan step))
  exact ((hcoins.append hblocks).append (.follow (h.front.follow_moveOps hplan))).append hresets

/-- **Steps of the first walk are woven into those of the second.** -/
theorem weaves_stepsFrom (hg : plan.Guarded) : ∀ n steps : ℕ,
    Weaves r false false (plan.stepsFrom steps n) (plan'.stepsFrom steps n)
  | 0, _ => .follow .nil
  | n + 1, steps =>
    (h.weaves_stepOps hplan hveil hg (steps + 1)).append (weaves_stepsFrom hg n (steps + 1))

end Plan.Veiled

/-! ### The bits that the programs begin with -/

namespace Plan.Veiled

variable {R : Type} [Scalar R] {r : Register} {wall : Option (Installed R)} {veil : Installed R}
  {as bs as' bs' : List (Installed R)} {plan plan' : Plan R} {spec spec' : WalkSpec R}
  (h : plan.Veiled r wall veil as bs as' bs' plan')
  (hstates : ∀ c ∈ plan.controls, IsPattern c.control.state c.control.controlWidth)
  (hstates' : ∀ c ∈ plan'.controls, IsPattern c.control.state c.control.controlWidth)
  (hplan' : plan'.Sound spec')
include h

include hstates hstates' hplan'

/-- **Steps are added to both walks or to neither**, if wall and veil are sound. -/
theorem guarded_iff (hwall : ∀ i ∈ wall, i.control.Sound) (hveil : veil.control.Sound) :
    plan.Guarded ↔ plan'.Guarded := by
  have hiff := Installed.Counterpart.guarded_iff (h.around false)
    (fun c hc => hstates c (h.mem_controls.mpr (.inr hc)))
    (fun c hc => hstates' c (h.mem_controls'.mpr (.inr hc)))
    fun c hc => hplan'.wired c (h.mem_controls'.mpr (.inr hc))
  constructor
  · intro hg c hc hne
    rcases h.mem_controls'.mp hc with rfl | hc
    · exact hveil
    · exact hiff.mp (fun c hc => hg c (h.mem_controls.mpr (.inr hc))) c hc hne
  · intro hg c hc hne
    rcases h.mem_controls.mp hc with hc | hc
    · exact hwall c hc
    · exact hiff.mpr (fun c hc => hg c (h.mem_controls'.mpr (.inr hc))) c hc hne

end Plan.Veiled

/-! ### The veil at the ends of its range -/

namespace Installed

variable {c : Installed ℝ} {op : Operator ℝ} {r : Register}
  (hpermeable : c.control.permeability = .permeable op) (hr : c.register = some r)
include hpermeable hr

theorem coinOps_of_permeability {n : ℕ} {p : ℝ} (hop : Operator.permeability n p = .ok op) :
    c.coinOps = [op.bound r.wires] := by
  have hfamily := (Operator.gates_permeability hop).1
  have hcoin : c.control.coinOperator? = some op := by
    simp [BoundaryControl.coinOperator?, BoundaryControl.operator?, Permeability.operator?,
      hpermeable, Operator.isCyclic, Operator.isIdentity, hfamily]
  simp only [coinOps, hcoin, hr]

theorem resetOps_of_permeable (ha : c.ancilla = none) (hpos : 0 < r.width) :
    c.resetOps = List.replicate c.control.resets (.reset r.wires) := by
  have htargets : c.control.resetTargets c.register c.ancilla = r.wires := by
    simp [BoundaryControl.resetTargets, BoundaryControl.resetsRegister, hpermeable, hr, ha]
  have hne : r.wires.isEmpty = false := by
    simp [Register.wires, hpos.ne']
  simp only [resetOps, BoundaryControl.resetScript, htargets, hne, Bool.false_eq_true, if_false]

end Installed

namespace Plan.Veiled

variable {r : Register} {wall : Option (Installed ℝ)} {veil : Installed ℝ}
  {as bs as' bs' : List (Installed ℝ)} {plan plan' : Plan ℝ} {spec spec' : WalkSpec ℝ}
  (h : plan.Veiled r wall veil as bs as' bs' plan') (hplan : plan.Sound spec)
  (hplan' : plan'.Sound spec') {op : Operator ℝ} (hpos : 0 < r.width)
  (hpermeable : veil.control.permeability = .permeable op)
  (hstate : veil.control.state = Pattern.ones r.width) (hresets : 0 < veil.control.resets)
include h hplan' hpos hpermeable hresets

omit hplan' in
theorem weaves_resetOps (v : Bool) : Weaves r v false [] veil.resetOps := by
  obtain ⟨n, hn⟩ := Nat.exists_eq_succ_of_ne_zero hresets.ne'
  rw [Installed.resetOps_of_permeable hpermeable h.register h.ancilla hpos, hn]
  exact .resets n v

include hstate

/-- **With full transmission the veil does nothing.** -/
theorem shades_open (hop : Operator.permeability r.width 1 = .ok op) (hnone : wall = none) :
    plan.Shades r false wall veil plan' := by
  subst hnone
  have hmem : veil ∈ plan'.controls := by simp [h.controls']
  refine ⟨?_, ?_, h.weaves_resetOps hpos hpermeable hresets false⟩
  · rw [Installed.coinOps_of_permeability hpermeable h.register hop]
    exact .veil_open hop
  · refine .flatMap_nil fun plane hplane => ?_
    obtain ⟨hd, hpattern⟩ := hplan'.plane_ok hmem hplane
    exact .block_open hpermeable h.register hstate (hplan'.wiring_apart hmem hd) hpos hpattern
      fun g hg => hplan'.target_turnBack hg

omit hplan' in
include hplan in
/-- **Without transmission the veil does what a wall with its planes does.** -/
theorem shades_shut (hop : Operator.permeability r.width 0 = .ok op) {i : Installed ℝ}
    (hsome : wall = some i) (hhard : i.control.permeability = .hard)
    (hempty : IsPattern i.control.state 0)
    (hboundaries : i.control.boundaries = veil.control.boundaries) :
    plan.Shades r true wall veil plan' := by
  subst hsome
  have hmem : i ∈ plan.controls := by simp [h.controls]
  have hbare := (hplan.wired i hmem).eq_none_of_hard hhard
  have hcoins : i.coinOps = [] := Installed.coinOps_eq_nil fun op hop => by
    rw [hhard] at hop
    cases hop
  have hresetOps : i.resetOps = [] := by
    simp [Installed.resetOps, BoundaryControl.resetScript, BoundaryControl.resetTargets,
      BoundaryControl.resetsRegister, hhard, hbare.2]
  have hwall : ∀ f : Installed ℝ → List (Operation ℝ), (some i).toList.flatMap f = f i :=
    fun f => List.append_nil _
  refine ⟨?_, ?_, ?_⟩
  · rw [hwall, hcoins, Installed.coinOps_of_permeability hpermeable h.register hop]
    exact .veil_shut hop
  · rw [hwall]
    have hsame : i.control.boundaries.Forall₂ (fun p p' => p ∈ i.control.boundaries ∧ p' = p)
        veil.control.boundaries := by
      rw [← hboundaries, List.forall₂_same]
      exact fun p hp => ⟨hp, rfl⟩
    refine .follow (List.rel_flatMap hsame ?_)
    rintro plane _ ⟨hplane, rfl⟩
    rw [h.front.coin]
    exact BoundaryControl.follow_blockOps_shut hpermeable h.register hstate h.front.fixed hhard
      hbare.1 (congrFun h.front.positionOf_eq _) h.front.coinRegister
      (hplan.plane_ok hmem hplane).2 hempty
      (hplan.within_bare_reflection hmem hplane hbare hempty _)
  · rw [hwall, hresetOps]
    exact h.weaves_resetOps hpos hpermeable hresets true

end Plan.Veiled

/-! ### Both programs -/

namespace Plan.Veiled

variable {r : Register} {wall : Option (Installed ℝ)} {veil : Installed ℝ}
  {as bs as' bs' : List (Installed ℝ)} {plan plan' : Plan ℝ} {spec spec' : WalkSpec ℝ}
  (h : plan.Veiled r wall veil as bs as' bs' plan')
  (hplan : plan.Sound spec) (hplan' : plan'.Sound spec')
  (hstates : ∀ c ∈ plan.controls, IsPattern c.control.state c.control.controlWidth)
  (hstates' : ∀ c ∈ plan'.controls, IsPattern c.control.state c.control.controlWidth)
  (hwall : ∀ i ∈ wall, i.control.permeability = .hard) {op : Operator ℝ}
  (hpermeable : veil.control.permeability = .permeable op) (hresets : 0 < veil.control.resets)
include h hplan hplan' hstates hstates' hwall hpermeable hresets

/-- **Both programs begin with the same bits**, and the register at zero. -/
theorem latched_prepared : (Wave.basis plan.prepared : Wave ℝ).latched r.wireAround (r.asks false) =
    Wave.basis plan'.prepared := by
  have hr := Register.renaming_wireAround h.start false
  have hnone : wall.toList.filterMap Installed.latch? = [] := by
    refine List.filterMap_eq_nil_iff.mpr fun i hi => Option.eq_none_iff_forall_ne_some.mpr ?_
    intro p hp
    obtain ⟨⟨n, hn⟩, -⟩ := Installed.latch?_eq_some.mp hp
    rw [hwall i (Option.mem_toList.mp hi)] at hn
    cases hn
  have hnone' : veil.latch? = none := by
    refine Option.eq_none_iff_forall_ne_some.mpr fun p hp => ?_
    obtain ⟨⟨n, hn⟩, -⟩ := Installed.latch?_eq_some.mp hp
    rw [hpermeable] at hn
    cases hn
  have hlatches : plan.latches = (as ++ bs).filterMap Installed.latch? := by
    simp [latches, h.controls, hnone]
  have hlatches' : plan'.latches = (as' ++ bs').filterMap Installed.latch? := by
    simp [latches, h.controls', hnone']
  have hzero : ∀ q ∈ r.wires, plan'.prepared q = false := fun q hq =>
    (hplan'.settled_prepared hstates').cleared veil (h.mem_controls'.mpr (.inl rfl)) hresets q (by
      simpa [BoundaryControl.resetTargets, BoundaryControl.resetsRegister, hpermeable, h.register,
        h.ancilla] using hq)
  exact hr.latched_basis (Register.met_asks.mpr hzero) (h.front.prepared_comp (h.around false)
    hplan hplan' hstates hstates' hlatches hlatches' hr)

end Plan.Veiled

end LatticeWalk
