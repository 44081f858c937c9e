import LatticeWalk.Proofs.Layout
import LatticeWalk.Proofs.Moves
import LatticeWalk.Walk

/-! # Compilation

Which operations the phases of a step add to the program.

* `Walk.push`: a walk with operations added behind its program.
* `Walk.outcome_addShifts`: the shift phase adds `Plan.moveOps`. -/

namespace LatticeWalk

variable {R : Type}

namespace Attempt

@[simp] theorem outcome_get {σ : Type} (s : σ) : (get : Attempt σ σ).outcome s = (.ok s, s) := rfl

@[simp] theorem outcome_modify {σ : Type} (f : σ → σ) (s : σ) :
    (modify f : Attempt σ Unit).outcome s = (.ok (), f s) := rfl

theorem outcome_bind_of_ok {σ α β : Type} {x : Attempt σ α} {f : α → Attempt σ β} {s s' : σ} {a : α}
    (h : x.outcome s = (.ok a, s')) : (x >>= f).outcome s = (f a).outcome s' := by
  rw [outcome_bind, h]

theorem outcome_bind_of_error {σ α β : Type} {x : Attempt σ α} {f : α → Attempt σ β} {s s' : σ}
    {e : Failure} (h : x.outcome s = (.error e, s')) : (x >>= f).outcome s = (.error e, s') := by
  rw [outcome_bind, h]

theorem outcome_bind_eq_ok {σ α β : Type} {x : Attempt σ α} {f : α → Attempt σ β} {s s' : σ} {b : β}
    (h : (x >>= f).outcome s = (.ok b, s')) :
    ∃ a s1, x.outcome s = (.ok a, s1) ∧ (f a).outcome s1 = (.ok b, s') := by
  rw [outcome_bind] at h
  rcases hx : x.outcome s with ⟨_ | a, s1⟩
  · rw [hx] at h
    cases h
  · rw [hx] at h
    exact ⟨a, s1, rfl, h⟩

end Attempt

/-- The shifts of a step: the moves of all dimensions. -/
def Plan.moveOps (plan : Plan R) : List (Operation R) :=
  Shift.moveOps plan.coinRegister (2 ^ (plan.coinRegister.width - 1)) plan.positionOf
    plan.positions.length

theorem Plan.Sound.wellFormed_wrapped [Scalar R] {plan : Plan R} {spec : WalkSpec R}
    (h : plan.Sound spec) {d : ℕ} (hd : d < plan.positions.length) {pattern : String}
    (hp : IsPattern pattern plan.coinRegister.width) {direction : Direction} :
    ∀ op ∈ (Shift.wrapped plan.coinRegister pattern direction (plan.positionOf d) :
      List (Operation R)), op.WellFormed plan.layout.width := by
  intro op hop
  refine Operation.wellFormed_of_fits (Shift.simple_of_wrapped hop) fun g hg => ?_
  exact Shift.fits_wrapped (h.coin_disjoint hd) h.stop_coin (h.stop_positionOf hd) hp
    (List.mem_flatMap.mpr ⟨op, hop, hg⟩)

namespace Walk

/-- The walk with operations added behind its program. -/
def push (w : Walk R) (ops : List (Operation R)) : Walk R :=
  { w with program := { w.program with operations := w.program.operations ++ ops } }

@[simp] theorem plan_push (w : Walk R) (ops : List (Operation R)) :
    (w.push ops).plan = w.plan := rfl

@[simp] theorem width_push (w : Walk R) (ops : List (Operation R)) :
    (w.push ops).program.width = w.program.width := rfl

@[simp] theorem push_nil (w : Walk R) : w.push [] = w := by simp [push]

@[simp] theorem push_push (w : Walk R) (ops ops' : List (Operation R)) :
    (w.push ops).push ops' = w.push (ops ++ ops') := by simp [push]

theorem position_eq_ok {w : Walk R} {d : ℕ} (hd : d < w.plan.positions.length) :
    w.position d = .ok (w.plan.positionOf d) := by
  simp only [position, Plan.getElem?_positions hd]

variable [Scalar R]

theorem outcome_onProgram_addAll {ops : List (Operation R)} {w : Walk R}
    (h : ∀ op ∈ ops, ∀ q ∈ op.wires, q < w.program.width) :
    (onProgram (Circuit.addAll ops)).outcome w = (.ok (), w.push ops) := by
  simp only [onProgram, Attempt.within, Attempt.outcome_of, Circuit.outcome_addAll h]
  rfl

/-- The walk has a sound plan, and a program over its layout. -/
structure Ready (w : Walk R) (spec : WalkSpec R) : Prop where
  plan : w.plan.Sound spec
  layout : w.program.layout = w.plan.layout

theorem Ready.push {w : Walk R} {spec : WalkSpec R} (h : w.Ready spec) (ops : List (Operation R)) :
    (w.push ops).Ready spec := ⟨h.plan, h.layout⟩

theorem Ready.width {w : Walk R} {spec : WalkSpec R} (h : w.Ready spec) :
    w.program.width = w.plan.layout.width := by rw [Circuit.width, h.layout]

theorem outcome_prepare (w : Walk R) : prepare.outcome w =
    (((Circuit.addAll w.plan.preparation).outcome w.program).1,
      { w with program := ((Circuit.addAll w.plan.preparation).outcome w.program).2 }) := by
  simp only [prepare, Attempt.outcome_bind, Attempt.outcome_get, onProgram, Attempt.within,
    Attempt.outcome_of]

theorem outcome_prepare_ok {w w' : Walk R} {u : Unit} (h : prepare.outcome w = (.ok u, w')) :
    w' = w.push w.plan.preparation := by
  rcases hadd : (Circuit.addAll w.plan.preparation).outcome w.program with ⟨result, c⟩
  rw [outcome_prepare, hadd] at h
  obtain ⟨rfl, rfl⟩ := Prod.mk.inj h
  rw [Circuit.addAll_eq_ok hadd]
  rfl

/-- **A walk is built** if its plan is made and its program can begin. -/
theorem build_eq_ok_iff {spec : WalkSpec R} {w : Walk R} : build spec = .ok w ↔
    spec.plan = .ok w.plan ∧ prepare.outcome (ofPlan w.plan) = (.ok (), w) := by
  constructor
  · intro h
    obtain ⟨plan, hplan, h⟩ := Except.bind_eq_ok.mp h
    rcases hprep : prepare.outcome (ofPlan plan) with ⟨_ | _, w'⟩
    · rw [hprep] at h
      cases h
    · rw [hprep] at h
      cases h
      obtain rfl : w.plan = plan := by rw [outcome_prepare_ok hprep]; rfl
      exact ⟨hplan, hprep⟩
  · rintro ⟨hplan, hprep⟩
    refine Except.bind_eq_ok.mpr ⟨_, hplan, ?_⟩
    rw [hprep]
    rfl

/-- **A walk that was built** has a sound plan, and a program that begins with its preparation. -/
theorem build_eq_ok {spec : WalkSpec R} {w : Walk R} (h : build spec = .ok w) :
    w.Ready spec ∧ w = (ofPlan w.plan).push w.plan.preparation := by
  obtain ⟨hplan, hprep⟩ := build_eq_ok_iff.mp h
  have hw := outcome_prepare_ok hprep
  exact ⟨⟨WalkSpec.plan_sound hplan, by rw [hw]; rfl⟩, hw⟩

/-- Another specification builds the same walk but for its plan, if the plan of that one is laid out
and prepared alike. -/
theorem build_of_preparation {spec spec' : WalkSpec R} {w : Walk R} {plan : Plan R}
    (h : build spec = .ok w) (hplan : spec'.plan = .ok plan)
    (hlayout : plan.layout = w.plan.layout) (hprep : plan.preparation = w.plan.preparation) :
    build spec' = .ok { w with plan := plan } := by
  have hprepared := (build_eq_ok_iff.mp h).2
  rw [outcome_prepare] at hprepared
  obtain ⟨hok, hw⟩ := Prod.mk.inj hprepared
  refine build_eq_ok_iff.mpr ⟨hplan, ?_⟩
  rw [outcome_prepare, ← hw]
  simp only [ofPlan, hprep, hlayout] at hok ⊢
  rw [hok]

/-- A walk that was built has no step yet, and its program prepares and does nothing else. -/
theorem fresh_of_build {spec : WalkSpec R} {w : Walk R} (h : build spec = .ok w) :
    w.phase = .idle ∧ w.steps = 0 ∧ w.program.operations = w.plan.preparation := by
  rw [(build_eq_ok h).2]
  exact ⟨rfl, rfl, rfl⟩

theorem Ready.within_wrapped {w : Walk R} {spec : WalkSpec R} (h : w.Ready spec) {d : ℕ}
    (hd : d < w.plan.positions.length) {pattern : String}
    (hp : IsPattern pattern w.plan.coinRegister.width) {direction : Direction} :
    ∀ op ∈ (Shift.wrapped w.plan.coinRegister pattern direction (w.plan.positionOf d) :
      List (Operation R)), op.Within w.program.width := by
  intro op hop
  rw [h.width]
  exact (h.plan.wellFormed_wrapped hd hp op hop).toWithin

omit [Scalar R] in
theorem mem_moveOps {plan : Plan R} {op : Operation R} (h : op ∈ plan.moveOps) :
    ∃ d < plan.positions.length, ∃ v direction,
      op ∈ (Shift.wrapped plan.coinRegister (Pattern.ofValue v plan.coinRegister.width) direction
        (plan.positionOf d) : List (Operation R)) := by
  obtain ⟨d, hd, hop⟩ := List.mem_flatMap.mp h
  rcases List.mem_append.mp hop with hop | hop
  · exact ⟨d, List.mem_range.mp hd, _, _, hop⟩
  · exact ⟨d, List.mem_range.mp hd, _, _, hop⟩

theorem Ready.within_moveOps {w : Walk R} {spec : WalkSpec R} (h : w.Ready spec) :
    ∀ op ∈ w.plan.moveOps, op.Within w.program.width := by
  intro op hop
  obtain ⟨d, hd, v, direction, hop⟩ := mem_moveOps hop
  exact h.within_wrapped hd (Pattern.isPattern_ofValue _ _) op hop

omit [Scalar R] in
theorem isReset_moveOps {plan : Plan R} : ∀ op ∈ plan.moveOps, op.isReset = false := by
  intro op hop
  obtain ⟨d, hd, v, direction, hop⟩ := mem_moveOps hop
  rcases Shift.simple_of_wrapped hop with rfl | ⟨g, rfl⟩ <;> rfl

theorem outcome_wrapShift {w : Walk R} {spec : WalkSpec R} (h : w.Ready spec) {d : ℕ}
    (hd : d < w.plan.positions.length) {pattern : String}
    (hp : IsPattern pattern w.plan.coinRegister.width) (direction : Direction) :
    (wrapShift direction pattern d).outcome w =
      (.ok (), w.push (Shift.wrapped w.plan.coinRegister pattern direction
        (w.plan.positionOf d))) := by
  simp only [wrapShift, Attempt.outcome_bind, Attempt.outcome_get, Attempt.outcome_check,
    position_eq_ok hd, Shift.wrap_eq_ok hp]
  exact outcome_onProgram_addAll fun op hop => (h.within_wrapped hd hp op hop).wires

theorem outcome_addMoves {spec : WalkSpec R} (half : ℕ) : ∀ {ds : List ℕ} {w : Walk R},
    w.Ready spec → (∀ d ∈ ds, d < w.plan.positions.length) →
    (addMoves (ds.map fun d => ⟨d, Pattern.ofValue (half + d) w.plan.coinRegister.width,
      Pattern.ofValue d w.plan.coinRegister.width⟩)).outcome w =
      (.ok (), w.push (ds.flatMap fun d =>
        Shift.wrapped w.plan.coinRegister (Pattern.ofValue (half + d) w.plan.coinRegister.width)
          .left (w.plan.positionOf d) ++
        Shift.wrapped w.plan.coinRegister (Pattern.ofValue d w.plan.coinRegister.width)
          .right (w.plan.positionOf d)))
  | [], w, _, _ => by simp [addMoves]
  | d :: ds, w, h, hds => by
    have hd := hds d (by simp)
    have hleft := outcome_wrapShift h hd (Pattern.isPattern_ofValue (half + d) _) .left
    set w1 := w.push (Shift.wrapped w.plan.coinRegister
      (Pattern.ofValue (half + d) w.plan.coinRegister.width) .left (w.plan.positionOf d)) with hw1
    have hright := outcome_wrapShift (h.push _ : w1.Ready spec) hd
      (Pattern.isPattern_ofValue d _) .right
    have hrest := outcome_addMoves half ((h.push _).push _ :
      (w1.push (Shift.wrapped w.plan.coinRegister
        (Pattern.ofValue d w.plan.coinRegister.width) .right (w.plan.positionOf d))).Ready spec)
      (fun d' (hd' : d' ∈ ds) => hds d' (by simp [hd']))
    simp only [List.map_cons, addMoves, Attempt.outcome_bind, hleft]
    rw [show (wrapShift .right (Pattern.ofValue d w.plan.coinRegister.width) d).outcome w1 = _ from
      hright]
    refine hrest.trans ?_
    simp

/-- **The shift phase** adds the moves of all dimensions. -/
theorem outcome_addShifts {w : Walk R} {spec : WalkSpec R} (h : w.Ready spec)
    (hphase : w.phase = .bounded) :
    addShifts.outcome w = (.ok (), { w.push w.plan.moveOps with phase := .shifted }) := by
  obtain ⟨k, hk, -, hmoves⟩ := h.plan.coin_eq
  have hready : ({ w with phase := .shifted } : Walk R).Ready spec := ⟨h.plan, h.layout⟩
  have hadd := outcome_addMoves (2 ^ k) hready
    fun d (hd : d ∈ List.range w.plan.positions.length) => List.mem_range.mp hd
  have hhalf : w.plan.moveOps = Shift.moveOps w.plan.coinRegister (2 ^ k) w.plan.positionOf
      w.plan.positions.length := by
    rw [Plan.moveOps, hk, Nat.add_sub_cancel]
  simp only [addShifts, advance, Attempt.outcome_bind, Attempt.outcome_of, hphase, if_true,
    Attempt.outcome_get]
  rw [hmoves, hhalf]
  exact hadd

end Walk

end LatticeWalk
