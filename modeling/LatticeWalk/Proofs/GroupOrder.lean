import LatticeWalk.Proofs.BoundaryGroups

/-! # Groups in their order

The written boundaries with one code become one control. The first of them opens the group: it
decides the rule of the control and the place of the control among the others. So the groups are
those of the openers, and all that can fail is the control of an opener.

* `BoundarySpec.openers`: the boundaries whose code occurs with no earlier one;
  `BoundarySpec.codes_openers` and `BoundarySpec.mem_openers` say which these are.
* `BoundarySpec.opened`: the group of an opener; `foldlM_place` says that the groups are these.
* `buildControls_in_order`: the controls in their order, each with its planes in their order. -/

namespace LatticeWalk

variable {R : Type}

namespace BoundarySpec

/-! ### Openers -/

/-- The boundaries whose code occurs with no earlier one. -/
def openers : List BoundarySpec → List BoundarySpec
  | [] => []
  | spec :: specs => spec :: (openers specs).filter fun other => other.code ≠ spec.code

/-- **A boundary opens a group** if it is the first with its code. -/
theorem mem_openers {spec : BoundarySpec} : ∀ {specs : List BoundarySpec},
    spec ∈ openers specs ↔ specs.find? (fun other => other.code = spec.code) = some spec
  | [] => by simp [openers]
  | first :: specs => by
    rw [openers, List.mem_cons, List.mem_filter, mem_openers, List.find?_cons]
    by_cases hcode : first.code = spec.code
    · simp [hcode, eq_comm]
    · have hne : spec ≠ first := fun h => hcode (h ▸ rfl)
      simp [hcode, Ne.symm hcode, hne]

theorem openers_append_singleton (spec : BoundarySpec) : ∀ specs : List BoundarySpec,
    openers (specs ++ [spec]) =
      openers specs ++ if spec.code ∈ specs.map code then [] else [spec]
  | [] => rfl
  | first :: specs => by
    rw [List.cons_append, openers, openers, openers_append_singleton spec specs,
      List.filter_append, List.cons_append]
    by_cases hcode : spec.code = first.code
    · have hmem : spec.code ∈ (first :: specs).map code := by simp [hcode]
      rw [if_pos hmem]
      split_ifs <;> simp [hcode]
    · have hmem : spec.code ∈ (first :: specs).map code ↔ spec.code ∈ specs.map code := by
        simp [hcode]
      simp only [hmem]
      split_ifs <;> simp [hcode]

/-- The codes of the openers, each of them once, in the order in which they occur first. -/
theorem codes_openers (specs : List BoundarySpec) :
    (openers specs).map code = (specs.map code).eraseDups := by
  induction specs using List.reverseRecOn with
  | nil => rfl
  | append_singleton specs spec ih =>
    rw [openers_append_singleton, List.map_append, List.map_append, List.eraseDups_append, ih]
    congr 1
    generalize specs.map code = codes
    by_cases hmem : spec.code ∈ codes <;> simp [List.removeAll, hmem, List.eraseDups_cons]

theorem codes_openers_nodup : ∀ specs : List BoundarySpec, ((openers specs).map code).Nodup
  | [] => List.nodup_nil
  | spec :: specs => by
    rw [openers, List.map_cons, List.nodup_cons]
    refine ⟨?_, ((codes_openers_nodup specs).sublist (List.filter_sublist.map _))⟩
    simp

/-! ### Their groups -/

/-- The planes of the boundaries with a code, in their order. -/
def planesWith (specs : List BoundarySpec) (c : String) : List Boundary :=
  (specs.filter fun spec => spec.code = c).map boundary

theorem planesWith_append_singleton (specs : List BoundarySpec) (spec : BoundarySpec) (c : String) :
    planesWith (specs ++ [spec]) c =
      planesWith specs c ++ if spec.code = c then [spec.boundary] else [] := by
  unfold planesWith
  rw [List.filter_append, List.map_append]
  split_ifs with hcode <;> simp [hcode]

theorem planesWith_eq_nil {specs : List BoundarySpec} {c : String} (h : c ∉ specs.map code) :
    planesWith specs c = [] := by
  unfold planesWith
  rw [List.map_eq_nil_iff, List.filter_eq_nil_iff]
  intro spec hspec hcode
  exact h (List.mem_map.mpr ⟨spec, hspec, of_decide_eq_true hcode⟩)

/-- **Every boundary has one code**: so many planes are in the groups as there are boundaries. -/
theorem sum_planesWith (specs : List BoundarySpec) :
    (((openers specs).map code).map fun c => (planesWith specs c).length).sum = specs.length := by
  have hcount : ∀ c, (planesWith specs c).length = (specs.map code).count c := by
    intro c
    unfold planesWith
    rw [List.length_map, List.count, List.countP_map, List.countP_eq_length_filter]
    congr 1
  have hperm : ((openers specs).map code).Perm (specs.map code).dedup := by
    rw [List.perm_ext_iff_of_nodup (codes_openers_nodup specs) (List.nodup_dedup _)]
    intro c
    rw [codes_openers, List.mem_eraseDups, List.mem_dedup]
  simp only [hcount]
  rw [(hperm.map _).sum_eq, List.sum_map_count_dedup_eq_length, List.length_map]

variable [Scalar R] {policy : FallbackPolicy}

/-- The group that a boundary opens, with the planes of all boundaries that have its code. -/
def opened (policy : FallbackPolicy) (specs : List BoundarySpec) (opener : BoundarySpec) :
    Except Failure (String × BoundaryControl R) :=
  (opener.control policy).map fun c => (opener.code, c.addBoundaries (planesWith specs opener.code))

theorem opened_append_singleton (specs : List BoundarySpec) (spec opener : BoundarySpec) :
    (opened policy (specs ++ [spec]) opener : Except Failure (String × BoundaryControl R)) =
      (opened policy specs opener).map fun g =>
        (g.1, if g.1 = spec.code then g.2.addBoundaries [spec.boundary] else g.2) := by
  unfold opened
  rw [planesWith_append_singleton]
  cases opener.control policy (R := R) with
  | error failure => rfl
  | ok c => by_cases hcode : spec.code = opener.code <;>
      simp [Except.map, hcode, eq_comm, BoundaryControl.addBoundaries]

theorem opened_self {specs : List BoundarySpec} {spec : BoundarySpec}
    (h : spec.code ∉ specs.map code) :
    (opened policy (specs ++ [spec]) spec : Except Failure (String × BoundaryControl R)) =
      (spec.control policy).map fun c => (spec.code, c.addBoundaries [spec.boundary]) := by
  unfold opened
  rw [planesWith_append_singleton, planesWith_eq_nil h, if_pos rfl, List.nil_append]

theorem codes_of_opened {openers specs : List BoundarySpec} {groups : ControlGroups R}
    (h : openers.mapM (opened policy specs) = .ok groups) : groups.codes = openers.map code := by
  have hgroups := Except.mapM_eq_ok.mp h
  clear h
  induction hgroups with
  | nil => rfl
  | cons hg _ ih =>
    obtain ⟨c, -, rfl⟩ := Except.map_eq_ok.mp hg
    exact congrArg (_ :: ·) ih

end BoundarySpec

section groups
variable [Scalar R] {policy : FallbackPolicy}

theorem ControlGroups.place_eq (groups : ControlGroups R) (spec : BoundarySpec) :
    groups.place policy spec =
      if spec.code ∈ groups.codes then .ok (groups.add spec.code spec.boundary)
      else (spec.control policy).map fun c =>
        groups ++ [(spec.code, c.addBoundaries [spec.boundary])] := by
  have hany : (groups.any fun g => g.1 == spec.code) = true ↔ spec.code ∈ groups.codes := by
    simp [ControlGroups.codes]
  unfold ControlGroups.place
  simp only [hany]
  congr 1

/-- The groups of the openers of one boundary more: a plane more in the group of its code, or one
group more. -/
theorem BoundarySpec.mapM_openers (specs : List BoundarySpec) (spec : BoundarySpec) :
    (openers (specs ++ [spec])).mapM (opened (R := R) policy (specs ++ [spec])) =
      (openers specs).mapM (opened policy specs) >>= fun groups : ControlGroups R =>
        groups.place policy spec := by
  have hearlier : (openers specs).mapM (opened (R := R) policy (specs ++ [spec])) =
      ((openers specs).mapM (opened policy specs)).map (List.map fun g =>
        (g.1, if g.1 = spec.code then g.2.addBoundaries [spec.boundary] else g.2)) := by
    rw [← Except.mapM_map]
    congr 1
    funext opener
    exact opened_append_singleton specs spec opener
  rw [openers_append_singleton, List.mapM_append, hearlier]
  cases hgroups : (openers specs).mapM (opened (R := R) policy specs) with
  | error failure => rfl
  | ok groups =>
    have hcodes := codes_of_opened hgroups
    have hnodup : ControlGroups.codes groups |>.Nodup := hcodes ▸ codes_openers_nodup specs
    have hmem : spec.code ∈ ControlGroups.codes groups ↔ spec.code ∈ specs.map code := by
      rw [hcodes, codes_openers, List.mem_eraseDups]
    simp only [Except.map, bind, Except.bind]
    rw [ControlGroups.place_eq, ControlGroups.add_eq_map hnodup]
    by_cases hcode : spec.code ∈ ControlGroups.codes groups
    · rw [if_pos hcode, if_pos (hmem.mp hcode), List.mapM_nil]
      simp [pure, Except.pure]
    · have hothers : (groups.map fun g => (g.1, if g.1 = spec.code
          then g.2.addBoundaries [spec.boundary] else g.2)) = groups := by
        refine (List.map_congr_left fun g hg => ?_).trans groups.map_id
        rw [if_neg fun heq : g.1 = spec.code => hcode (heq ▸ List.mem_map_of_mem hg)]
        rfl
      have hnew : spec.code ∉ specs.map code := fun h => hcode (hmem.mpr h)
      rw [if_neg hcode, if_neg hnew, hothers, List.mapM_cons, opened_self hnew]
      cases spec.control policy (R := R) <;> rfl

/-- **The groups of written boundaries** are those that the openers open. -/
theorem foldlM_place (specs : List BoundarySpec) :
    specs.foldlM (ControlGroups.place policy) ([] : ControlGroups R) =
      (BoundarySpec.openers specs).mapM (BoundarySpec.opened policy specs) := by
  induction specs using List.reverseRecOn with
  | nil => rfl
  | append_singleton specs spec ih =>
    rw [List.foldlM_append, ih, BoundarySpec.mapM_openers]
    cases (BoundarySpec.openers specs).mapM (BoundarySpec.opened (R := R) policy specs) with
    | error failure => rfl
    | ok groups => exact bind_pure (ControlGroups.place policy groups spec)

theorem buildControls_eq (specs : List BoundarySpec) (policy : FallbackPolicy) :
    (buildControls specs policy : Except Failure (List (BoundaryControl R))) =
      ((BoundarySpec.openers specs).mapM (BoundarySpec.opened policy specs)).map
        (List.map Prod.snd) := by
  unfold buildControls
  rw [foldlM_place]
  cases (BoundarySpec.openers specs).mapM (BoundarySpec.opened (R := R) policy specs) <;> rfl

/-- The control of a code is the one that the first boundary with the code asks for, and its planes
are those of all boundaries with the code, in their order. -/
structure ControlOf (policy : FallbackPolicy) (specs : List BoundarySpec) (code : String)
    (control : BoundaryControl R) : Prop where
  rule : ∃ first, specs.find? (fun spec => spec.code = code) = some first ∧
    ∃ c, first.control policy = .ok c ∧
      control = c.addBoundaries (BoundarySpec.planesWith specs code)
  planes : control.boundaries = BoundarySpec.planesWith specs code

theorem ControlOf.of_opened {specs : List BoundarySpec} {opener : BoundarySpec}
    {g : String × BoundaryControl R} (hopener : opener ∈ BoundarySpec.openers specs)
    (h : BoundarySpec.opened policy specs opener = .ok g) :
    ControlOf policy specs opener.code g.2 := by
  obtain ⟨c, hc, rfl⟩ := Except.map_eq_ok.mp h
  refine ⟨⟨opener, BoundarySpec.mem_openers.mp hopener, c, hc, rfl⟩, ?_⟩
  simp [BoundaryControl.addBoundaries, (BoundarySpec.control_eq_ok hc).1]

/-- **Controls in their order.** The controls of written boundaries are those of their codes, each
code once, in the order in which the codes occur first. Each control has the planes of all
boundaries with its code, in their order, and no others; so there are as many planes as boundaries.
The controls are refused if and only if the control that the first boundary with some code asks for
is. -/
theorem buildControls_in_order (specs : List BoundarySpec) (policy : FallbackPolicy) :
    (∀ controls : List (BoundaryControl R), buildControls specs policy = .ok controls →
      (specs.map BoundarySpec.code).eraseDups.Nodup ∧
      List.Forall₂ (ControlOf policy specs) (specs.map BoundarySpec.code).eraseDups controls ∧
      (controls.map fun control => control.boundaries.length).sum = specs.length) ∧
    ((∃ failure, (buildControls specs policy : Except Failure (List (BoundaryControl R))) =
        .error failure) ↔
      ∃ spec, specs.find? (fun other => other.code = spec.code) = some spec ∧ ∃ failure,
        (spec.control policy : Except Failure (BoundaryControl R)) = .error failure) := by
  rw [buildControls_eq]
  constructor
  · intro controls hbuild
    obtain ⟨groups, hopened, rfl⟩ := Except.map_eq_ok.mp hbuild
    have hgroups : List.Forall₂ (ControlOf policy specs) (specs.map BoundarySpec.code).eraseDups
        (groups.map Prod.snd) := by
      rw [← BoundarySpec.codes_openers, List.forall₂_map_left_iff, List.forall₂_map_right_iff]
      refine ((List.forall₂_and_left _ _).mpr ⟨fun _ h => h, Except.mapM_eq_ok.mp hopened⟩).imp ?_
      rintro opener g ⟨hopener, hg⟩
      exact .of_opened hopener hg
    refine ⟨BoundarySpec.codes_openers specs ▸ BoundarySpec.codes_openers_nodup specs, hgroups, ?_⟩
    have hlengths : (specs.map BoundarySpec.code).eraseDups.map
          (fun code => (BoundarySpec.planesWith specs code).length) =
        (groups.map Prod.snd).map fun control => control.boundaries.length := by
      rw [← List.forall₂_eq_eq_eq, List.forall₂_map_left_iff, List.forall₂_map_right_iff]
      exact hgroups.imp fun code control hcontrol => by rw [hcontrol.planes]
    rw [← hlengths, ← BoundarySpec.codes_openers, BoundarySpec.sum_planesWith]
  · simp only [Except.map_eq_error, Except.mapM_eq_error, BoundarySpec.opened,
      BoundarySpec.mem_openers]

end groups

/-- The three controls of four boundaries, of which two are walls with a coin. -/
theorem buildControls_in_order_wallsAndValve : ∃ controls : List (BoundaryControl ℝ),
    buildControls wallsAndValve .basisRotation = .ok controls ∧
      List.Forall₂ (ControlOf .basisRotation wallsAndValve) ["N-0", "H-1", "oneway-2"] controls ∧
      (controls.map fun control => control.boundaries.length).sum = 4 := by
  have hcodes : (wallsAndValve.map BoundarySpec.code).eraseDups = ["N-0", "H-1", "oneway-2"] := by
    decide
  refine ⟨_, rfl, ?_⟩
  obtain ⟨-, hcontrols, hplanes⟩ :=
    (buildControls_in_order (R := ℝ) wallsAndValve .basisRotation).1 _ rfl
  exact ⟨hcodes ▸ hcontrols, hplanes⟩

end LatticeWalk
