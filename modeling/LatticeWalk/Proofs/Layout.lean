import LatticeWalk.Proofs.Bits
import LatticeWalk.Proofs.Operator
import LatticeWalk.Walk.Plan

/-! # Layouts and plans

What is known of a walk whose specification was accepted.

* `WalkSpec.Shaped`: the shape of a specification that is not refused.
* `Allocated.next_eq`: the counter of the allocator is the sum of the widths, so that of a layout is
  (`Layout.width_eq`).
* `Register.PackedFrom`: each register starts where the one before it stops; the registers of every
  layout are packed (`Layout.packed`).
* `Layout.after`: the layout after any requests for registers.
* `Installed.Wired`: a control has the registers that it asks for.
* `Plan.MadeOf`: the checks and allocations that a plan consists of (`WalkSpec.plan_eq_ok`).
* `Plan.Sound`: everything that a plan says about its specification; `WalkSpec.plan_sound` proves it
  of the plans that are made.
* `Shift.movePatterns_eq_ok`: the coin is wide enough for the moves, and these are its values. -/

namespace LatticeWalk

variable {R : Type}

/-! ### Well-shaped specifications -/

namespace WalkSpec

/-- The shape of a specification that is not refused. -/
structure Shaped (spec : WalkSpec R) : Prop where
  nonempty : spec.widths ≠ []
  widths : ∀ w ∈ spec.widths, w ≠ 0
  initial : ∀ states, spec.initial = some states → states.length = spec.widths.length ∧
    ∀ p ∈ states.zip spec.widths, IsPattern p.1 p.2
  planes : ∀ plane ∈ spec.controls.flatMap BoundaryControl.boundaries,
    ∃ w, spec.widths[plane.dimension]? = some w ∧ IsPattern plane.pattern w

theorem checkBoundary_eq_ok {spec : WalkSpec R} {plane : Boundary} :
    spec.checkBoundary plane = .ok () ↔
      ∃ w, spec.widths[plane.dimension]? = some w ∧ IsPattern plane.pattern w := by
  unfold checkBoundary
  cases spec.widths[plane.dimension]? with
  | none => exact ⟨nofun, nofun⟩
  | some w => simpa using Pattern.checkWidth_eq_ok

theorem checkInitial_eq_ok {spec : WalkSpec R} : spec.checkInitial = .ok () ↔
    ∀ states, spec.initial = some states → states.length = spec.widths.length ∧
      ∀ p ∈ states.zip spec.widths, IsPattern p.1 p.2 := by
  unfold checkInitial
  cases spec.initial with
  | none => simp
  | some states =>
    simp only [Option.some.injEq, forall_eq']
    split_ifs with hlen
    · exact ⟨fun h => (by cases h), fun h => absurd h.1 hlen⟩
    · rw [Except.forM_eq_ok]
      have hpattern : ∀ p : String × ℕ, Pattern.checkWidth p.1 p.2 "initial state" = .ok () ↔
          IsPattern p.1 p.2 := fun _ => Pattern.checkWidth_eq_ok
      simp only [hpattern]
      exact ⟨fun h => ⟨not_not.mp hlen, h⟩, And.right⟩

/-- **What is well shaped is not refused**, and nothing else. -/
theorem checkShape_eq_ok {spec : WalkSpec R} : spec.checkShape = .ok () ↔ spec.Shaped := by
  have hplanes : (spec.controls.flatMap BoundaryControl.boundaries).forM spec.checkBoundary =
      .ok () ↔ ∀ plane ∈ spec.controls.flatMap BoundaryControl.boundaries,
        ∃ w, spec.widths[plane.dimension]? = some w ∧ IsPattern plane.pattern w := by
    rw [Except.forM_eq_ok]
    exact forall₂_congr fun _ _ => checkBoundary_eq_ok
  unfold checkShape
  split_ifs with hempty
  · exact ⟨nofun, fun h => absurd (List.isEmpty_iff.mp hempty) h.nonempty⟩
  · cases hzero : spec.widths.findIdx? (· == 0) with
    | some d =>
      have hany : spec.widths.any (· == 0) = true := by rw [← List.findIdx?_isSome, hzero]; rfl
      obtain ⟨w, hw, hflat⟩ := List.any_eq_true.mp hany
      exact ⟨nofun, fun h => absurd (beq_iff_eq.mp hflat) (h.widths w hw)⟩
    | none =>
      have hwidths : ∀ w ∈ spec.widths, w ≠ 0 := fun w hw => by
        simpa using List.findIdx?_eq_none_iff.mp hzero w hw
      constructor
      · intro h
        obtain ⟨_, hinit, h⟩ := Except.bind_eq_ok.mp h
        exact ⟨by simpa using hempty, hwidths, checkInitial_eq_ok.mp hinit, hplanes.mp h⟩
      · intro h
        exact Except.bind_eq_ok.mpr ⟨(), checkInitial_eq_ok.mpr h.initial, hplanes.mpr h.planes⟩

end WalkSpec

/-! ### Packed registers -/

namespace Register

/-- The first register starts at `s`, and every other one where the one before it stops. -/
def PackedFrom : ℕ → List Register → Prop
  | _, [] => True
  | s, r :: rs => r.start = s ∧ PackedFrom r.stop rs

theorem packedFrom_append {s : ℕ} {rs ts : List Register} :
    PackedFrom s (rs ++ ts) ↔ PackedFrom s rs ∧ PackedFrom (s + (rs.map width).sum) ts := by
  induction rs generalizing s with
  | nil => simp [PackedFrom]
  | cons r rs ih =>
    simp only [List.cons_append, PackedFrom, ih, List.map_cons, List.sum_cons, and_assoc]
    refine and_congr_right fun hr => ?_
    rw [stop, hr, Nat.add_assoc]

theorem PackedFrom.exists_mem {s : ℕ} {rs : List Register} (h : PackedFrom s rs) {q : ℕ}
    (hs : s ≤ q) (hq : q < s + (rs.map width).sum) : ∃ r ∈ rs, q ∈ r.wires := by
  induction rs generalizing s with
  | nil => simp at hq; omega
  | cons r rs ih =>
    obtain ⟨hr, hrs⟩ := h
    by_cases hstop : q < r.stop
    · exact ⟨r, List.mem_cons_self, mem_wires.mpr ⟨by omega, hstop⟩⟩
    · rw [List.map_cons, List.sum_cons] at hq
      obtain ⟨r', hr', hq'⟩ := ih hrs (by omega) (by rw [stop]; omega)
      exact ⟨r', List.mem_cons_of_mem _ hr', hq'⟩

theorem PackedFrom.bounds {s : ℕ} {rs : List Register} (h : PackedFrom s rs) {r : Register}
    (hr : r ∈ rs) : s ≤ r.start ∧ r.stop ≤ s + (rs.map width).sum := by
  induction rs generalizing s with
  | nil => cases hr
  | cons r' rs ih =>
    obtain ⟨hr', hrs⟩ := h
    rw [List.map_cons, List.sum_cons]
    rcases List.mem_cons.mp hr with rfl | hr
    · rw [stop]; omega
    · have := ih hrs hr
      rw [stop] at this
      omega

theorem PackedFrom.apart {s : ℕ} {rs : List Register} (h : PackedFrom s rs) :
    rs.Pairwise fun r t => r.stop ≤ t.start := by
  induction rs generalizing s with
  | nil => exact .nil
  | cons r rs ih =>
    obtain ⟨-, hrs⟩ := h
    exact List.pairwise_cons.mpr ⟨fun t ht => (hrs.bounds ht).1, ih hrs⟩

end Register

/-! ### Allocated registers -/

/-- **The counter is the sum of the widths** that were handed out. -/
theorem Allocated.next_eq {rs : List Register} {next : ℕ} (h : Allocated rs next) :
    next = (rs.map Register.width).sum := by
  induction h with
  | empty => rfl
  | more _ _ role width ih =>
    rw [List.map_append, List.sum_append, ← ih, List.map_singleton, List.sum_singleton]

/-- **Allocated registers are packed** from wire 0 on: the counter stands where the last one
stops. -/
theorem Allocated.packed {rs : List Register} {next : ℕ} (h : Allocated rs next) :
    Register.PackedFrom 0 rs := by
  induction h with
  | empty => trivial
  | more h _ role width ih =>
    refine Register.packedFrom_append.mpr ⟨ih, ?_, trivial⟩
    rw [Nat.zero_add, ← h.next_eq]

namespace Layout

theorem width_eq (l : Layout) : l.width = (l.registers.map Register.width).sum :=
  l.allocated.next_eq

theorem length_key (l : Layout) (basis : ℕ) : (l.key basis).length = l.width := by
  rw [width_eq]
  simp only [key, String.length_ofList, List.length_flatMap, Pattern.length_bitsOf]

theorem packed (l : Layout) : Register.PackedFrom 0 l.registers := l.allocated.packed

theorem apart (l : Layout) : l.registers.Pairwise fun r s => r.stop ≤ s.start := l.packed.apart

theorem stop_le (l : Layout) {r : Register} (hr : r ∈ l.registers) : r.stop ≤ l.width := by
  have hbounds := (l.packed.bounds hr).2
  rwa [Nat.zero_add, ← l.width_eq] at hbounds

end Layout

/-- The allocator after some requests. One that is refused changes nothing. -/
def Allocator.after (requests : List (String × Role × ℕ)) : Allocator :=
  requests.foldl (fun a q => match a.allocate q.1 q.2.1 q.2.2 with
    | .ok (_, a') => a'
    | .error _ => a) .empty

/-- The finished layout after some requests. -/
def Layout.after (requests : List (String × Role × ℕ)) : Layout :=
  (Allocator.after requests).finish

/-! ### The registers of a plan -/

namespace Installed

/-- The registers of a control. -/
def registers (c : Installed R) : List Register := c.register.toList ++ c.ancilla.toList

/-- A control has the registers that it asks for. -/
structure Wired (c : Installed R) : Prop where
  register : c.register.map Register.width =
    if c.control.controlWidth = 0 then none else some c.control.controlWidth
  ancilla : c.ancilla.map Register.width =
    if c.control.ancillaWidth = 0 then none else some c.control.ancillaWidth

namespace Wired

variable {c : Installed R} (h : c.Wired)
include h

theorem width_register {r : Register} (hr : c.register = some r) :
    r.width = c.control.controlWidth ∧ 0 < c.control.controlWidth := by
  have hwidth := h.register
  rw [hr] at hwidth
  split_ifs at hwidth with hzero
  · cases hwidth
  · exact ⟨Option.some.inj hwidth, Nat.pos_of_ne_zero hzero⟩

theorem exists_register (hpos : 0 < c.control.controlWidth) :
    ∃ r, c.register = some r ∧ r.width = c.control.controlWidth :=
  Option.map_eq_some_iff.mp (h.register.trans (if_neg hpos.ne'))

theorem exists_ancilla (hpos : 0 < c.control.ancillaWidth) :
    ∃ a, c.ancilla = some a ∧ a.width = c.control.ancillaWidth :=
  Option.map_eq_some_iff.mp (h.ancilla.trans (if_neg hpos.ne'))

theorem width_ancilla {a : Register} (ha : c.ancilla = some a) : a.width = 2 := by
  have hwidth := h.ancilla
  rw [ha, Option.map_some] at hwidth
  unfold BoundaryControl.ancillaWidth at hwidth
  cases hp : c.control.permeability with
  | oneWay bits =>
    rw [hp] at hwidth
    exact Option.some.inj hwidth
  | _ =>
    rw [hp] at hwidth
    cases hwidth

theorem eq_none_of_hard (hhard : c.control.permeability = .hard) :
    c.register = none ∧ c.ancilla = none := by
  have hregister := h.register
  have hancilla := h.ancilla
  rw [BoundaryControl.controlWidth, hhard] at hregister
  rw [BoundaryControl.ancillaWidth, hhard] at hancilla
  exact ⟨Option.map_eq_none_iff.mp hregister, Option.map_eq_none_iff.mp hancilla⟩

/-- An absorbing wall has its latch and nothing else. -/
theorem eq_some_of_absorbing {n : ℕ} (habsorbing : c.control.permeability = .absorbing n)
    (hn : 0 < n) : (∃ r, c.register = some r ∧ r.width = n) ∧ c.ancilla = none := by
  have hwidth : c.control.controlWidth = n := by
    rw [BoundaryControl.controlWidth, habsorbing]
    rfl
  have hancilla := h.ancilla
  rw [BoundaryControl.ancillaWidth, habsorbing] at hancilla
  exact ⟨hwidth ▸ h.exists_register (hwidth ▸ hn), Option.map_eq_none_iff.mp hancilla⟩

end Wired

end Installed

namespace Plan

theorem allocatePositions_eq_ok : ∀ {widths : List ℕ} {a a' : Allocator} {d : ℕ}
    {rs : List Register}, allocatePositions a d widths = .ok (rs, a') →
    a'.registers = a.registers ++ rs ∧ rs.map Register.width = widths
  | [], a, a', d, rs, h => by
    cases h
    exact ⟨by simp, rfl⟩
  | width :: widths, a, a', d, rs, h => by
    obtain ⟨⟨r, a1⟩, h1, h⟩ := Except.bind_eq_ok.mp h
    obtain ⟨⟨rs', a2⟩, h2, h⟩ := Except.bind_eq_ok.mp h
    cases h
    obtain ⟨hr, ha1, -⟩ := Allocator.allocate_eq_ok h1
    obtain ⟨hregs, hws⟩ := allocatePositions_eq_ok h2
    refine ⟨?_, ?_⟩
    · rw [hregs, ha1, List.append_assoc, List.singleton_append]
    · rw [List.map_cons, hws, hr]

theorem allocateSome_eq_ok {a a' : Allocator} {name : String} {role : Role} {width : ℕ}
    {r : Option Register} (h : allocateSome a name role width = .ok (r, a')) :
    a'.registers = a.registers ++ r.toList ∧
      r.map Register.width = if width = 0 then none else some width := by
  unfold allocateSome at h
  split_ifs at h with hw
  · cases h
    exact ⟨by simp, by rw [if_pos hw]; rfl⟩
  · obtain ⟨⟨r', a1⟩, h1, h⟩ := Except.bind_eq_ok.mp h
    cases h
    obtain ⟨hr, ha1, -⟩ := Allocator.allocate_eq_ok h1
    refine ⟨ha1, ?_⟩
    rw [if_neg hw, hr]
    rfl

theorem install_eq_ok : ∀ {controls : List (BoundaryControl R)} {a a' : Allocator} {i : ℕ}
    {cs : List (Installed R)}, install a i controls = .ok (cs, a') →
    a'.registers = a.registers ++ cs.flatMap Installed.registers ∧
      cs.map Installed.control = controls ∧ ∀ c ∈ cs, c.Wired
  | [], a, a', i, cs, h => by
    cases h
    exact ⟨by simp, rfl, by simp⟩
  | control :: controls, a, a', i, cs, h => by
    obtain ⟨⟨r, a1⟩, h1, h⟩ := Except.bind_eq_ok.mp h
    obtain ⟨⟨ancilla, a2⟩, h2, h⟩ := Except.bind_eq_ok.mp h
    obtain ⟨⟨rest, a3⟩, h3, h⟩ := Except.bind_eq_ok.mp h
    cases h
    obtain ⟨ha1, hr⟩ := allocateSome_eq_ok h1
    obtain ⟨ha2, hancilla⟩ := allocateSome_eq_ok h2
    obtain ⟨ha3, hc, hw⟩ := install_eq_ok h3
    refine ⟨?_, by rw [List.map_cons, hc], fun c hc => ?_⟩
    · simp only [ha3, ha2, ha1, List.flatMap_cons, Installed.registers, List.append_assoc]
    · rcases List.mem_cons.mp hc with rfl | hc
      · exact ⟨hr, hancilla⟩
      · exact hw c hc

/-! ### Plans -/

/-- What a plan says about its specification. -/
structure Sound [Scalar R] (plan : Plan R) (spec : WalkSpec R) : Prop where
  shape : spec.Shaped
  moves : Shift.movePatterns spec.widths.length spec.coinWidth = .ok plan.moves
  coin : spec.buildCoin = .ok plan.coin
  cycle : spec.checkDecoherence = .ok ()
  widths : plan.widths = spec.widths
  initial : plan.initial = spec.initial
  decoherence : plan.decoherence = spec.decoherence
  positions : plan.positions.map Register.width = spec.widths
  coinRegister : plan.coinRegister.width = spec.coinWidth
  controls : plan.controls.map Installed.control = spec.controls
  wired : ∀ c ∈ plan.controls, c.Wired
  registers : plan.layout.registers =
    plan.positions ++ plan.coinRegister :: plan.controls.flatMap Installed.registers

end Plan

/-- How a plan is made: the specification is checked, and registers are allocated for positions,
coin and controls in this order. -/
structure Plan.MadeOf [Scalar R] (plan : Plan R) (spec : WalkSpec R) (a1 a2 a3 : Allocator) :
    Prop where
  shape : spec.checkShape = .ok ()
  moves : Shift.movePatterns spec.widths.length spec.coinWidth = .ok plan.moves
  coin : spec.buildCoin = .ok plan.coin
  cycle : spec.checkDecoherence = .ok ()
  positions : allocatePositions .empty 0 spec.widths = .ok (plan.positions, a1)
  coinRegister : a1.allocate "coin" .coin spec.coinWidth = .ok (plan.coinRegister, a2)
  controls : install a2 0 spec.controls = .ok (plan.controls, a3)
  layout : plan.layout = a3.finish
  widths : plan.widths = spec.widths
  initial : plan.initial = spec.initial
  decoherence : plan.decoherence = spec.decoherence

namespace WalkSpec

variable [Scalar R] {spec : WalkSpec R} {plan : Plan R}

theorem plan_eq_ok : spec.plan = .ok plan ↔ ∃ a1 a2 a3, plan.MadeOf spec a1 a2 a3 := by
  constructor
  · intro h
    obtain ⟨_, hshape, h⟩ := Except.bind_eq_ok.mp h
    obtain ⟨moves, hmoves, h⟩ := Except.bind_eq_ok.mp h
    obtain ⟨coin, hcoin, h⟩ := Except.bind_eq_ok.mp h
    obtain ⟨_, hcycle, h⟩ := Except.bind_eq_ok.mp h
    obtain ⟨⟨positions, a1⟩, h1, h⟩ := Except.bind_eq_ok.mp h
    obtain ⟨⟨coinRegister, a2⟩, h2, h⟩ := Except.bind_eq_ok.mp h
    obtain ⟨⟨controls, a3⟩, h3, h⟩ := Except.bind_eq_ok.mp h
    cases h
    exact ⟨a1, a2, a3, hshape, hmoves, hcoin, hcycle, h1, h2, h3, rfl, rfl, rfl, rfl⟩
  · rintro ⟨a1, a2, a3, h⟩
    rw [WalkSpec.plan, h.shape, h.moves, h.coin, h.cycle]
    refine Except.bind_eq_ok.mpr ⟨_, rfl, Except.bind_eq_ok.mpr ⟨_, rfl,
      Except.bind_eq_ok.mpr ⟨_, rfl, Except.bind_eq_ok.mpr ⟨_, rfl, Except.bind_eq_ok.mpr
        ⟨_, h.positions, Except.bind_eq_ok.mpr ⟨_, h.coinRegister, Except.bind_eq_ok.mpr
          ⟨_, h.controls, ?_⟩⟩⟩⟩⟩⟩⟩
    dsimp only
    rw [← h.widths, ← h.initial, ← h.decoherence, ← h.layout]
    rfl

/-- Walks with the same dimensions and coins of the same width are laid out alike, as far as
positions and coin go. -/
theorem same_front {spec' : WalkSpec R} {plan' : Plan R} (hplan : spec.plan = .ok plan)
    (hplan' : spec'.plan = .ok plan') (hwidths : spec'.widths = spec.widths)
    (hcoin : spec'.coinWidth = spec.coinWidth) :
    plan'.positions = plan.positions ∧ plan'.coinRegister = plan.coinRegister := by
  obtain ⟨a1, a2, a3, h⟩ := plan_eq_ok.mp hplan
  obtain ⟨a1', a2', a3', h'⟩ := plan_eq_ok.mp hplan'
  have hpositions := h'.positions
  have hregister := h'.coinRegister
  rw [hwidths, h.positions] at hpositions
  obtain ⟨h1, rfl⟩ := Prod.mk.inj (Except.ok.inj hpositions)
  rw [hcoin, h.coinRegister] at hregister
  obtain ⟨h2, -⟩ := Prod.mk.inj (Except.ok.inj hregister)
  exact ⟨h1.symm, h2.symm⟩

/-- **An accepted specification has a sound plan.** -/
theorem plan_sound (h : spec.plan = .ok plan) : plan.Sound spec := by
  obtain ⟨a1, a2, a3, hmade⟩ := plan_eq_ok.mp h
  obtain ⟨ha1, hp⟩ := Plan.allocatePositions_eq_ok hmade.positions
  obtain ⟨hr, ha2, -⟩ := Allocator.allocate_eq_ok hmade.coinRegister
  obtain ⟨ha3, hc, hw⟩ := Plan.install_eq_ok hmade.controls
  exact
    { shape := checkShape_eq_ok.mp hmade.shape, moves := hmade.moves, coin := hmade.coin
      cycle := hmade.cycle, widths := hmade.widths, initial := hmade.initial
      decoherence := hmade.decoherence, positions := hp, coinRegister := by rw [hr], controls := hc
      wired := hw, registers := by simp [hmade.layout, ha3, ha2, ha1, Allocator.empty] }

end WalkSpec

/-! ### The values of the coin -/

/-- The coin of an accepted walk has a most significant wire, and a value for every move. -/
theorem Shift.movePatterns_eq_ok {n width : ℕ} {moves : List MovePattern} (hn : 0 < n)
    (h : movePatterns n width = .ok moves) :
    ∃ k, width = k + 1 ∧ n ≤ 2 ^ k ∧ moves = (List.range n).map fun d =>
      ⟨d, Pattern.ofValue (2 ^ k + d) width, Pattern.ofValue d width⟩ := by
  cases width with
  | zero => cases h
  | succ k =>
    have hhalf : halfValues? (k + 1) = Word.bit? k := rfl
    unfold movePatterns at h
    rw [hhalf] at h
    cases hbit : Word.bit? k with
    | none => rw [hbit] at h; cases h
    | some half =>
      rw [hbit] at h
      simp only at h
      split_ifs at h with h1 h2
      · cases h
      · cases h
      · cases h
        have hk : k < 64 := by omega
        rw [Word.bit?_eq_some hk, Option.some.injEq, Nat.pow_eq] at hbit
        exact ⟨k, rfl, by omega, by rw [hbit]⟩

namespace Plan.Sound

variable [Scalar R] {plan : Plan R} {spec : WalkSpec R} (h : plan.Sound spec)
include h

/-- The coin register has one wire more than there are bits in the number of a dimension. -/
theorem coin_eq : ∃ k, plan.coinRegister.width = k + 1 ∧ plan.positions.length ≤ 2 ^ k ∧
    plan.moves = (List.range plan.positions.length).map fun d =>
      ⟨d, Pattern.ofValue (2 ^ k + d) plan.coinRegister.width,
        Pattern.ofValue d plan.coinRegister.width⟩ := by
  have hlen : plan.positions.length = spec.widths.length := by
    rw [← h.positions, List.length_map]
  rw [hlen, h.coinRegister]
  exact Shift.movePatterns_eq_ok (List.length_pos_iff.mpr h.shape.nonempty) h.moves

end Plan.Sound

/-! ### Where the registers are -/

theorem Register.disjoint_of_stop_le {r s : Register} (h : r.stop ≤ s.start) :
    r.wires.Disjoint s.wires := by
  intro q hr hs
  have h1 := (Register.mem_wires.mp hr).2
  have h2 := (Register.mem_wires.mp hs).1
  omega

/-- The position register of a dimension. -/
def Plan.positionOf (plan : Plan R) (d : ℕ) : Register :=
  plan.positions.getD d plan.coinRegister

theorem Plan.getElem?_positions {plan : Plan R} {d : ℕ} (hd : d < plan.positions.length) :
    plan.positions[d]? = some (plan.positionOf d) := by
  rw [Plan.positionOf, List.getD_eq_getElem _ _ hd, List.getElem?_eq_getElem hd]

theorem Plan.eq_positionOf {plan : Plan R} {d : ℕ} {r : Register}
    (hr : plan.positions[d]? = some r) : d < plan.positions.length ∧ r = plan.positionOf d := by
  obtain ⟨hd, -⟩ := List.getElem?_eq_some_iff.mp hr
  rw [Plan.getElem?_positions hd, Option.some.injEq] at hr
  exact ⟨hd, hr.symm⟩

theorem Plan.positionOf_mem {plan : Plan R} {d : ℕ} (hd : d < plan.positions.length) :
    plan.positionOf d ∈ plan.positions := by
  rw [Plan.positionOf, List.getD_eq_getElem _ _ hd]
  exact List.getElem_mem hd

namespace Plan.Sound

variable [Scalar R] {plan : Plan R} {spec : WalkSpec R} (h : plan.Sound spec)
include h

theorem length_positions : plan.positions.length = spec.widths.length := by
  rw [← h.positions, List.length_map]

theorem width_positionOf {d : ℕ} (hd : d < plan.positions.length) :
    spec.widths[d]? = some (plan.positionOf d).width := by
  rw [← h.positions, List.getElem?_map, Plan.getElem?_positions hd]
  rfl

theorem apart : (plan.positions ++
    plan.coinRegister :: plan.controls.flatMap Installed.registers).Pairwise
      fun r s => r.stop ≤ s.start := h.registers ▸ plan.layout.apart

theorem positions_apart {d e : ℕ} (hde : d < e) (he : e < plan.positions.length) :
    (plan.positionOf d).stop ≤ (plan.positionOf e).start := by
  have hp := (List.pairwise_append.mp h.apart).1
  rw [Plan.positionOf, Plan.positionOf, List.getD_eq_getElem _ _ he,
    List.getD_eq_getElem _ _ (hde.trans he)]
  exact List.pairwise_iff_getElem.mp hp d e _ he hde

theorem positions_disjoint {d e : ℕ} (hd : d < plan.positions.length)
    (he : e < plan.positions.length) (hde : d ≠ e) :
    (plan.positionOf d).wires.Disjoint (plan.positionOf e).wires := by
  rcases Nat.lt_or_gt_of_ne hde with hlt | hlt
  · exact Register.disjoint_of_stop_le (h.positions_apart hlt he)
  · exact (Register.disjoint_of_stop_le (h.positions_apart hlt hd)).symm

theorem position_coin {d : ℕ} (hd : d < plan.positions.length) :
    (plan.positionOf d).stop ≤ plan.coinRegister.start :=
  (List.pairwise_append.mp h.apart).2.2 _ (Plan.positionOf_mem hd) _ (by simp)

theorem coin_disjoint {d : ℕ} (hd : d < plan.positions.length) :
    plan.coinRegister.wires.Disjoint (plan.positionOf d).wires :=
  (Register.disjoint_of_stop_le (h.position_coin hd)).symm

theorem coin_control {c : Installed R} (hc : c ∈ plan.controls) {r : Register}
    (hr : r ∈ c.registers) : plan.coinRegister.stop ≤ r.start := by
  have hp := (List.pairwise_append.mp h.apart).2.1
  exact (List.pairwise_cons.mp hp).1 r (List.mem_flatMap.mpr ⟨c, hc, hr⟩)

theorem position_control {d : ℕ} (hd : d < plan.positions.length) {c : Installed R}
    (hc : c ∈ plan.controls) {r : Register} (hr : r ∈ c.registers) :
    (plan.positionOf d).stop ≤ r.start := by
  have h1 := h.position_coin hd
  have h2 := h.coin_control hc hr
  unfold Register.stop at h2 ⊢
  unfold Register.stop at h1
  omega

theorem controls_disjoint {j k : ℕ} (hjk : j ≠ k) {c c' : Installed R}
    (hc : plan.controls[j]? = some c) (hc' : plan.controls[k]? = some c') {r s : Register}
    (hr : r ∈ c.registers) (hs : s ∈ c'.registers) : r.wires.Disjoint s.wires := by
  have hcontrols := (List.pairwise_cons.mp (List.pairwise_append.mp h.apart).2.1).2
  have hpair := List.pairwise_iff_getElem.mp (List.pairwise_flatMap.mp hcontrols).2
  obtain ⟨hj, rfl⟩ := List.getElem?_eq_some_iff.mp hc
  obtain ⟨hk, rfl⟩ := List.getElem?_eq_some_iff.mp hc'
  rcases Nat.lt_or_gt_of_ne hjk with hlt | hlt
  · exact Register.disjoint_of_stop_le (hpair j k hj hk hlt r hr s hs)
  · exact (Register.disjoint_of_stop_le (hpair k j hk hj hlt s hs r hr)).symm

theorem stop_positionOf {d : ℕ} (hd : d < plan.positions.length) :
    (plan.positionOf d).stop ≤ plan.layout.width :=
  plan.layout.stop_le (by rw [h.registers]; simp [Plan.positionOf_mem hd])

theorem stop_coin : plan.coinRegister.stop ≤ plan.layout.width :=
  plan.layout.stop_le (by rw [h.registers]; simp)

theorem stop_control {c : Installed R} (hc : c ∈ plan.controls) {r : Register}
    (hr : r ∈ c.registers) : r.stop ≤ plan.layout.width :=
  plan.layout.stop_le (by
    rw [h.registers]
    exact List.mem_append_right _ (List.mem_cons_of_mem _ (List.mem_flatMap.mpr ⟨c, hc, hr⟩)))

end Plan.Sound

end LatticeWalk
