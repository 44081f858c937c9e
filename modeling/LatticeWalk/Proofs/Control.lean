import LatticeWalk.Proofs.Bits
import LatticeWalk.Proofs.Wave

/-! # Locality and control

A gate reads only amplitudes whose bits differ from those of its result in the target. Two facts
about lists of gates follow from this:

* `Gate.actAll_under`: gates under further controls act as the gates where these controls are met
  and not at all elsewhere, provided that no gate has one of the controls as its target.
* `Gate.actAll_mapWires`: gates on other wires act on each slice of a wave, all other wires held
  fixed, as the gates themselves.

`Operator.gatesOn_extend` says which gates an operator under control becomes when it is bound to the
wires of a program. -/

namespace LatticeWalk

open Function (update)

/-- A property of bits that does not depend on the wire `t`. -/
def Blind (P : (ℕ → Bool) → Prop) (t : ℕ) : Prop := ∀ b v, P (update b t v) ↔ P b

theorem Blind.not {P : (ℕ → Bool) → Prop} {t : ℕ} (h : Blind P t) : Blind (fun b => ¬ P b) t :=
  fun b v => not_congr (h b v)

theorem Blind.and {P Q : (ℕ → Bool) → Prop} {t : ℕ} (hP : Blind P t) (hQ : Blind Q t) :
    Blind (fun b => P b ∧ Q b) t := fun b v => and_congr (hP b v) (hQ b v)

theorem blind_wire {q t : ℕ} (h : q ≠ t) (x : Bool) : Blind (fun b => b q = x) t := fun b v => by
  show update b t v q = x ↔ b q = x
  rw [Function.update_of_ne h]

theorem blind_read {r : Register} {t : ℕ} (h : t ∉ r.wires) (x : ℕ) :
    Blind (fun b => r.read b = x) t := fun b v => by
  show r.read (update b t v) = x ↔ r.read b = x
  rw [Register.read_update h]

namespace Gate

variable {R : Type} [Scalar R]

/-! ### Locality -/

/-- Waves that agree on a property are still the same on it after a gate whose target the property
does not look at. -/
theorem act_congr {P : (ℕ → Bool) → Prop} {g : Gate R} (hP : Blind P g.target) {ψ φ : Wave R}
    (h : ∀ b, P b → ψ b = φ b) (b : ℕ → Bool) (hb : P b) : g.act ψ b = g.act φ b := by
  unfold act
  rw [h b hb, h _ ((hP b false).mpr hb), h _ ((hP b true).mpr hb)]

theorem actAll_congr {P : (ℕ → Bool) → Prop} : ∀ {gs : List (Gate R)},
    (∀ g ∈ gs, Blind P g.target) → ∀ {ψ φ : Wave R}, (∀ b, P b → ψ b = φ b) →
    ∀ b, P b → actAll gs ψ b = actAll gs φ b
  | [], _, _, _, h, b, hb => h b hb
  | g :: _, hgs, _, _, h, b, hb =>
    actAll_congr (fun g' hg' => hgs g' (by simp [hg'])) (act_congr (hgs g (by simp)) h) b hb

theorem actAll_of_not_met {cs : List Control} {b : ℕ → Bool} (hb : ¬ Met cs b) :
    ∀ {gs : List (Gate R)}, (∀ g ∈ gs, ∀ c ∈ cs, c ∈ g.controls) → ∀ ψ : Wave R,
    actAll gs ψ b = ψ b
  | [], _, _ => rfl
  | g :: gs, h, ψ => by
    have hg : ¬ Met g.controls b := fun hm => hb fun c hc => hm c (h g (by simp) c hc)
    rw [actAll_cons, actAll_of_not_met hb fun g' hg' => h g' (by simp [hg']), act_of_not_met hg]

theorem actAll_flatMap_of_others {α : Type} {f : α → List (Gate R)} {P : (ℕ → Bool) → Prop} :
    ∀ {as : List α}, (∀ a ∈ as, ∀ (ψ : Wave R) (b), P b → actAll (f a) ψ b = ψ b) →
    ∀ (ψ : Wave R) (b), P b → actAll (as.flatMap f) ψ b = ψ b
  | [], _, _, _, _ => rfl
  | a :: as, h, ψ, b, hb => by
    rw [List.flatMap_cons, actAll_append,
      actAll_flatMap_of_others (fun a' ha' => h a' (by simp [ha'])) _ b hb, h a (by simp) ψ b hb]

/-- If all lists but one leave the amplitudes of a property, that one decides. -/
theorem actAll_flatMap_of_single {α : Type} {f : α → List (Gate R)} {P : (ℕ → Bool) → Prop}
    {as as' : List α} {a : α}
    (h : ∀ a' ∈ as ++ as', ∀ (ψ : Wave R) (b), P b → actAll (f a') ψ b = ψ b)
    (hP : ∀ g ∈ f a, Blind P g.target) (ψ : Wave R) (b : ℕ → Bool) (hb : P b) :
    actAll ((as ++ a :: as').flatMap f) ψ b = actAll (f a) ψ b := by
  rw [List.flatMap_append, List.flatMap_cons, actAll_append, actAll_append,
    actAll_flatMap_of_others (fun a' ha' => h a' (List.mem_append_right _ ha')) _ b hb]
  refine actAll_congr hP ?_ b hb
  exact actAll_flatMap_of_others (fun a' ha' => h a' (List.mem_append_left _ ha')) ψ

/-! ### Further controls -/

/-- The gate under further controls. -/
def under (cs : List Control) (g : Gate R) : Gate R := { g with controls := cs ++ g.controls }

omit [Scalar R] in
theorem wires_under (cs : List Control) (g : Gate R) :
    (g.under cs).wires = cs.map Control.wire ++ g.wires := by
  simp [wires, under]

omit [Scalar R] in
theorem Fits.under {n : ℕ} {g : Gate R} (h : g.Fits n) {cs : List Control}
    (hlt : ∀ c ∈ cs, c.wire < n) (hnd : (cs.map Control.wire).Nodup)
    (hne : ∀ c ∈ cs, c.wire ∉ g.wires) : (g.under cs).Fits n := by
  obtain ⟨hw, hd⟩ := fits_iff.mp h
  refine fits_iff.mpr ⟨fun w hw' => ?_, ?_⟩
  · rw [wires_under, List.mem_append, List.mem_map] at hw'
    rcases hw' with ⟨c, hc, rfl⟩ | hw'
    · exact hlt c hc
    · exact hw w hw'
  · rw [wires_under]
    refine hnd.append hd fun w hw' => ?_
    obtain ⟨c, hc, rfl⟩ := List.mem_map.mp hw'
    exact hne c hc

omit [Scalar R] in
theorem Fits.mapWires {n m : ℕ} {g : Gate R} (h : g.Fits n) {f : ℕ → ℕ} (hlt : ∀ w < n, f w < m)
    (hinj : ∀ w < n, ∀ u < n, f w = f u → w = u) : (g.mapWires f).Fits m := by
  obtain ⟨hw, hd⟩ := fits_iff.mp h
  rw [fits_iff, wires_mapWires]
  refine ⟨fun w hw' => ?_, hd.map_on fun w hw1 u hu1 => hinj w (hw w hw1) u (hw u hu1)⟩
  obtain ⟨u, hu, rfl⟩ := List.mem_map.mp hw'
  exact hlt u (hw u hu)

omit [Scalar R] in
theorem blind_met {cs : List Control} {t : ℕ} (h : ∀ c ∈ cs, c.wire ≠ t) : Blind (Met cs) t :=
  fun b v => met_update h b v

theorem act_under (cs : List Control) (g : Gate R) (ψ : Wave R) (b : ℕ → Bool) :
    (g.under cs).act ψ b = if Met cs b then g.act ψ b else ψ b := by
  have hu : Met (g.under cs).controls b ↔ Met cs b ∧ Met g.controls b := met_append
  by_cases h : Met cs b
  · rw [if_pos h]
    exact if_congr (by rw [hu]; exact and_iff_right h) rfl rfl
  · rw [if_neg h, act_of_not_met fun hm => h (hu.mp hm).1]

/-- **Gates under control** act where the controls are met, and nowhere else. -/
theorem actAll_under {cs : List Control} : ∀ {gs : List (Gate R)},
    (∀ g ∈ gs, ∀ c ∈ cs, c.wire ≠ g.target) → ∀ (ψ : Wave R) (b : ℕ → Bool),
    actAll (gs.map (under cs)) ψ b = if Met cs b then actAll gs ψ b else ψ b
  | [], _, ψ, b => by simp
  | g :: gs, h, ψ, b => by
    have hgs : ∀ g' ∈ gs, ∀ c ∈ cs, c.wire ≠ g'.target := fun g' hg' => h g' (by simp [hg'])
    rw [List.map_cons, actAll_cons, actAll_under hgs, actAll_cons]
    by_cases hb : Met cs b
    · rw [if_pos hb, if_pos hb]
      refine actAll_congr (P := Met cs) (fun g' hg' => blind_met (hgs g' hg')) ?_ b hb
      intro c hc
      rw [act_under, if_pos hc]
    · rw [if_neg hb, if_neg hb, act_under, if_neg hb]

/-! ### Other wires -/

theorem extend_update {f : ℕ → ℕ} (hf : f.Injective) (b c : ℕ → Bool) (t : ℕ) (v : Bool) :
    f.extend (update c t v) b = update (f.extend c b) (f t) v := by
  funext q
  by_cases h : ∃ u, f u = q
  · obtain ⟨u, rfl⟩ := h
    rw [hf.extend_apply]
    by_cases hu : u = t
    · subst hu; simp
    · rw [Function.update_of_ne hu, Function.update_of_ne (fun e => hu (hf e)), hf.extend_apply]
  · rw [Function.extend_apply' _ _ _ h, Function.update_of_ne (fun e => h ⟨t, e.symm⟩),
      Function.extend_apply' _ _ _ h]

omit [Scalar R] in
theorem met_mapWires {f : ℕ → ℕ} (hf : f.Injective) (g : Gate R) (b c : ℕ → Bool) :
    Met (g.mapWires f).controls (f.extend c b) ↔ Met g.controls c := by
  simp only [Met, mapWires, List.forall_mem_map, hf.extend_apply]

theorem act_mapWires {f : ℕ → ℕ} (hf : f.Injective) (g : Gate R) (ψ : Wave R) (b c : ℕ → Bool) :
    (g.mapWires f).act ψ (f.extend c b) = g.act (fun c => ψ (f.extend c b)) c := by
  have ht : (f.extend c b) (f g.target) = c g.target := hf.extend_apply c b g.target
  simp only [act, met_mapWires hf, extend_update hf]
  simp only [mapWires, ht]

/-- **Gates on other wires** act on each slice of a wave as the gates themselves. -/
theorem actAll_mapWires {f : ℕ → ℕ} (hf : f.Injective) : ∀ (gs : List (Gate R)) (ψ : Wave R)
    (b c : ℕ → Bool), actAll (gs.map (mapWires f)) ψ (f.extend c b) =
      actAll gs (fun c => ψ (f.extend c b)) c
  | [], _, _, _ => rfl
  | g :: gs, ψ, b, c => by
    rw [List.map_cons, actAll_cons, actAll_mapWires hf gs, actAll_cons]
    congr 1
    funext c'
    exact act_mapWires hf g ψ b c'

end Gate

namespace Operator

variable {R : Type}

/-- Controls that ask the given wires for the given values. -/
def controlsOn (ws : List ℕ) (bits : List Bool) : List Control :=
  (ws.zip bits).map fun p => ⟨p.1, p.2⟩

theorem wire_lt_of_controlsFor {bits : List Bool} {c : Control} (h : c ∈ controlsFor bits) :
    c.wire < bits.length := by
  simp only [controlsFor, List.mem_map, Prod.exists, List.mem_zipIdx_iff_getElem?] at h
  obtain ⟨v, q, hq, rfl⟩ := h
  exact (List.getElem?_eq_some_iff.mp hq).1

theorem met_controlsFor {bits : List Bool} {b : ℕ → Bool} :
    Met (controlsFor bits) b ↔ (List.range bits.length).map b = bits := by
  simp only [Met, controlsFor, List.forall_mem_map, Prod.forall, List.mem_zipIdx_iff_getElem?]
  constructor
  · intro h
    refine List.ext_getElem (by simp) fun q _ hq => ?_
    simpa using h _ q (List.getElem?_eq_getElem hq)
  · intro h v q hq
    obtain ⟨hlt, hv⟩ := List.getElem?_eq_some_iff.mp hq
    have e := congrArg (fun l => l[q]?) h
    simpa [hlt, hv] using e

theorem controlsOn_append {ws us : List ℕ} {bs ds : List Bool} (h : ws.length = bs.length) :
    controlsOn (ws ++ us) (bs ++ ds) = controlsOn ws bs ++ controlsOn us ds := by
  simp [controlsOn, List.zip_append h]

theorem wire_mem_of_controlsOn {ws : List ℕ} {bits : List Bool} {c : Control}
    (h : c ∈ controlsOn ws bits) : c.wire ∈ ws := by
  simp only [controlsOn, List.mem_map] at h
  obtain ⟨p, hp, rfl⟩ := h
  exact (List.of_mem_zip hp).1

theorem met_controlsOn {r : Register} {s : String} (h : IsPattern s r.width) {b : ℕ → Bool} :
    Met (controlsOn r.wires (Pattern.wireBits s)) b ↔ r.read b = Pattern.value s := by
  have hl : (Pattern.wireBits s).length = r.width := Pattern.length_wireBits_of h
  rw [Pattern.read_eq_value h]
  simp only [Met, controlsOn, List.forall_mem_map]
  constructor
  · intro hm q hq
    have hzip : q < (r.wires.zip (Pattern.wireBits s)).length := by simpa [hl] using hq
    have e := hm _ (List.getElem_mem hzip)
    rw [List.getD_eq_getElem _ _ (by rw [hl]; exact hq)]
    simpa [Register.wires, Register.wire] using e
  · intro hr p hp
    obtain ⟨q, hq, rfl⟩ := List.getElem_of_mem hp
    have hq' : q < r.width := by simpa [hl] using hq
    have e := hr q hq'
    rw [List.getD_eq_getElem _ _ (by rw [hl]; exact hq')] at e
    simpa [Register.wires, Register.wire] using e

/-- **An operator under control on the wires of a program**: its gates on the wires behind the
controls, under controls on the wires in front. -/
theorem gatesOn_extend {front back : List ℕ} {bits : List Bool} (h : front.length = bits.length)
    (gs : List (Gate R)) :
    gatesOn (front ++ back) (gs.map (extendGate bits)) =
      (gatesOn back gs).map (Gate.under (controlsOn front bits)) := by
  have hback : ∀ w, (front ++ back).getD (w + bits.length) 0 = back.getD w 0 := by
    intro w
    rw [List.getD_append_right _ _ _ _ (by omega), h, Nat.add_sub_cancel]
  have hfront : (controlsFor bits).map
      (fun c => (⟨(front ++ back).getD c.wire 0, c.value⟩ : Control)) = controlsOn front bits := by
    refine List.ext_getElem (by simp [controlsFor, controlsOn, h]) fun q hq _ => ?_
    have hq' : q < front.length := by simpa [controlsFor, h] using hq
    simp [controlsFor, controlsOn, List.getElem?_append_left hq', List.getElem?_eq_getElem hq']
  simp only [gatesOn, List.map_map]
  refine List.map_congr_left fun g _ => ?_
  simp only [Function.comp_apply, extendGate, Gate.mapWires, Gate.under, List.map_append,
    List.map_map, hback]
  rw [hfront]
  congr 2
  exact List.map_congr_left fun c _ => by rw [Function.comp_apply, hback]

end Operator

end LatticeWalk
