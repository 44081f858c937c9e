import LatticeWalk.Proofs.Exact
import LatticeWalk.Proofs.Operator
import LatticeWalk.Boundary.Spec

/-! # Written boundaries in groups

Boundaries with one code share a control, which the first of them decides. The code is the name of
the kind, or of the operator of a permeable boundary, with the number of control wires. So the
others are what they are written to be, unless an operator is called as a kind is.

* `BoundarySpec.code_eq_iff`: what a code tells.
* `BoundarySpec.Clashes`: two boundaries with one code and different controls;
  `BoundarySpec.clash_or_alike` says that there are no others.
* `Grouped`: the planes of a group are those with its code, and its rule is that of one of them;
  `Grouped.place` says that each written boundary keeps this.
* `buildControls_groups`: which boundaries have the control that they have alone. -/

namespace LatticeWalk

variable {R : Type}

/-! ### Codes -/

theorem notMem_toString {c : Char} (hc : c.isDigit = false) (n : ℕ) : c ∉ (toString n).toList := by
  intro h
  rw [Nat.toString_eq_repr, Nat.toList_repr] at h
  have hdigit := Nat.isDigit_of_mem_toDigits (by omega) (by omega) h
  exact absurd hdigit (by simp [hc])

/-- What stands behind the last dash is told from what stands before it. -/
theorem eq_of_append_dash {l l' d d' : List Char} (hd : '-' ∉ d) (hd' : '-' ∉ d')
    (h : l ++ '-' :: d = l' ++ '-' :: d') : l = l' ∧ d = d' := by
  rcases List.append_eq_append_iff.mp h with ⟨m, rfl, hm⟩ | ⟨m, rfl, hm⟩
  · cases m with
    | nil => simpa using hm
    | cons c m =>
      rw [List.cons_append, List.cons.injEq] at hm
      exact absurd (by simp [hm.2]) hd
  · cases m with
    | nil => simpa [eq_comm] using hm
    | cons c m =>
      rw [List.cons_append, List.cons.injEq] at hm
      exact absurd (by simp [hm.2]) hd'

namespace BoundarySpec

theorem name_count_inj {name name' : String} {n n' : ℕ} :
    name ++ "-" ++ toString n = name' ++ "-" ++ toString n' ↔ name = name' ∧ n = n' := by
  constructor
  · intro h
    have hlists := congrArg String.toList h
    simp only [String.toList_append, List.append_assoc] at hlists
    obtain ⟨hname, hcount⟩ := eq_of_append_dash (notMem_toString (by decide) n)
      (notMem_toString (by decide) n') hlists
    exact ⟨String.toList_injective hname, Nat.repr_injective (String.toList_injective hcount)⟩
  · rintro ⟨rfl, rfl⟩
    rfl

/-- The name in a code: that of the kind, or of the operator of a permeable boundary. -/
def codeName (spec : BoundarySpec) : String :=
  match spec.kind with
  | .hard => "N"
  | .permeable => spec.operatorName
  | .oneWay => "oneway"
  | .absorbing => "absorbing"

theorem readKind_hard {text field count : String} {wires : ℕ}
    (h : readKind text field count = .ok (.hard, wires)) : wires = 0 := by
  unfold readKind at h
  dsimp only at h
  split_ifs at h
  · cases h
    rfl
  all_goals
    first
      | obtain ⟨n, -, hn⟩ := Except.bind_eq_ok.mp h
        cases hn
      | cases h

theorem kind_of_fields {text : String} {fields : List String} {spec : BoundarySpec}
    (h : ofFields text fields = .ok spec) :
    (∃ field count, readKind text field count = .ok (spec.kind, spec.controlWires)) ∧
      (spec.kind ≠ .hard → spec.controlWires ≠ 0) := by
  simp only [ofFields] at h
  split at h
  · simp only [Except.bind_eq_ok] at h
    obtain ⟨dimension, -, boundary, -, ⟨kind, wires⟩, hkind, h⟩ := h
    dsimp only at h
    split_ifs at h with hname hwires
    · simp [refuse] at h
    · simp [refuse] at h
    · obtain rfl := Except.ok.inj h
      exact ⟨⟨_, _, hkind⟩, fun hne hzero => hwires ⟨hne, hzero⟩⟩
  · obtain ⟨dimension, hrefused, -⟩ := Except.bind_eq_ok.mp h
    simp [refuse] at hrefused

theorem wires_of_read {text : String} {spec : BoundarySpec} (h : read text = .ok spec) :
    spec.controlWires = 0 ↔ spec.kind = .hard := by
  unfold read at h
  dsimp only at h
  split_ifs at h
  · obtain ⟨⟨field, count, hkind⟩, hne⟩ := kind_of_fields h
    constructor
    · intro hzero
      by_contra hsoft
      exact hne hsoft hzero
    · intro hhard
      rw [hhard] at hkind
      exact readKind_hard hkind
  · simp [refuse] at h

/-- **A code** tells the name and the number of control wires. -/
theorem code_eq_iff {a b : BoundarySpec} (ha : a.controlWires = 0 ↔ a.kind = .hard)
    (hb : b.controlWires = 0 ↔ b.kind = .hard) :
    a.code = b.code ↔ a.codeName = b.codeName ∧ a.controlWires = b.controlWires := by
  have hcode : ∀ spec : BoundarySpec, (spec.controlWires = 0 ↔ spec.kind = .hard) →
      spec.code = spec.codeName ++ "-" ++ toString spec.controlWires := by
    intro spec hspec
    unfold code codeName
    cases hkind : spec.kind with
    | hard =>
      rw [hspec.mpr hkind]
      rfl
    | permeable => rfl
    | oneWay => rfl
    | absorbing => rfl
  rw [hcode a ha, hcode b hb, name_count_inj]

/-- A permeable boundary whose operator is called as the kind of another boundary, both with as many
control wires. -/
def Clashes (a b : BoundarySpec) : Prop :=
  a.kind = .permeable ∧ a.controlWires = b.controlWires ∧
    (b.kind = .oneWay ∧ a.operatorName = "oneway" ∨
      b.kind = .absorbing ∧ a.operatorName = "absorbing")

instance (a b : BoundarySpec) : Decidable (a.Clashes b) := inferInstanceAs (Decidable (_ ∧ _))

theorem Clashes.code_eq {a b : BoundarySpec} (h : a.Clashes b) : a.code = b.code := by
  obtain ⟨ha, hcount, ⟨hb, hname⟩ | ⟨hb, hname⟩⟩ := h
  all_goals
    unfold code
    rw [ha, hb, hname, hcount]
    rfl

variable [Scalar R] {policy : FallbackPolicy}

/-- **Boundaries with one code** ask for the same control or clash. -/
theorem clash_or_alike {a b : BoundarySpec} (ha : a.controlWires = 0 ↔ a.kind = .hard)
    (hb : b.controlWires = 0 ↔ b.kind = .hard) (hcode : a.code = b.code) :
    a.Clashes b ∨ b.Clashes a ∨ (a.control policy : Except Failure (BoundaryControl R)) =
      b.control policy := by
  obtain ⟨hname, hcount⟩ := (code_eq_iff ha hb).mp hcode
  unfold codeName at hname
  unfold control
  cases hka : a.kind <;> cases hkb : b.kind
  all_goals
    rw [hka, hkb] at hname
    dsimp only at hname
  case hard.hard => exact .inr (.inr rfl)
  case permeable.permeable => simp [hname, hcount]
  case oneWay.oneWay => simp [hcount]
  case absorbing.absorbing => simp [hcount]
  case permeable.oneWay => exact .inl ⟨hka, hcount, .inl ⟨hkb, hname⟩⟩
  case permeable.absorbing => exact .inl ⟨hka, hcount, .inr ⟨hkb, hname⟩⟩
  case oneWay.permeable => exact .inr (.inl ⟨hkb, hcount.symm, .inl ⟨hka, hname.symm⟩⟩)
  case absorbing.permeable => exact .inr (.inl ⟨hkb, hcount.symm, .inr ⟨hka, hname.symm⟩⟩)
  -- of the others only one has no control wires
  all_goals
    first
      | exact absurd hname (by decide)
      | simp_all

/-- **The control of a written boundary** has no planes yet and is of the kind that is written, but
for a permeable boundary that has no operator or a counter. -/
theorem control_eq_ok {spec : BoundarySpec} {c : BoundaryControl R}
    (h : spec.control policy = .ok c) : c.boundaries = [] ∧
      (c.kind = spec.kind ∨ spec.kind = .permeable ∧
        (c.kind = .hard ∨ policy.resolve spec.operatorName = .cyclicController)) := by
  have honeWay : ∀ n, BoundaryControl.oneWay n = .ok c → c.boundaries = [] ∧ c.kind = .oneWay := by
    intro n h
    unfold BoundaryControl.oneWay at h
    split_ifs at h
    · simp [refuse] at h
    · cases h
      exact ⟨rfl, rfl⟩
  unfold control at h
  cases hkind : spec.kind with
  | hard =>
    rw [hkind] at h
    cases h
    exact ⟨rfl, .inl rfl⟩
  | oneWay =>
    rw [hkind] at h
    exact ⟨(honeWay _ h).1, .inl (honeWay _ h).2⟩
  | absorbing =>
    rw [hkind] at h
    dsimp only [BoundaryControl.absorbing] at h
    split_ifs at h
    · simp [refuse] at h
    · cases h
      exact ⟨rfl, .inl rfl⟩
  | permeable =>
    rw [hkind] at h
    dsimp only at h
    split at h
    case h_1 hcounter => exact ⟨(honeWay _ h).1, .inr ⟨rfl, .inr hcounter⟩⟩
    case h_2 =>
      obtain ⟨operator, -, h⟩ := Except.bind_eq_ok.mp h
      cases operator with
      | none =>
        cases h
        exact ⟨rfl, .inr ⟨rfl, .inl rfl⟩⟩
      | some op =>
        cases h
        exact ⟨rfl, .inl rfl⟩

/-- No operator has the name of a kind, so that boundaries that clash are of different kinds. -/
theorem Clashes.kind_ne {a b : BoundarySpec} (h : a.Clashes b) {c d : BoundaryControl R}
    (ha : a.control policy = .ok c) (hb : b.control policy = .ok d) : c.kind ≠ d.kind := by
  obtain ⟨hpermeable, -, hnamed⟩ := h
  have hcounter : policy.resolve a.operatorName ≠ .cyclicController := by
    rcases hnamed with ⟨-, hname⟩ | ⟨-, hname⟩
    all_goals
      rw [hname]
      cases policy <;> decide
  have hc : c.kind = .permeable ∨ c.kind = .hard := by
    rcases (control_eq_ok ha).2 with hkind | ⟨-, hhard | hcyclic⟩
    · exact .inl (hkind.trans hpermeable)
    · exact .inr hhard
    · exact absurd hcyclic hcounter
  have hd : d.kind = .oneWay ∨ d.kind = .absorbing := by
    rcases (control_eq_ok hb).2 with hkind | ⟨hkind, -⟩
    · rw [hkind]
      exact hnamed.imp And.left And.left
    · rcases hnamed with ⟨hb, -⟩ | ⟨hb, -⟩ <;> simp [hb] at hkind
  rcases hc with hc | hc <;> rcases hd with hd | hd <;> simp [hc, hd]

end BoundarySpec

/-! ### Groups -/

namespace ControlGroups

/-- The codes of the groups. -/
def codes (groups : ControlGroups R) : List String := groups.map Prod.fst

theorem add_eq_map {code : String} {plane : Boundary} :
    ∀ {groups : ControlGroups R}, groups.codes.Nodup → groups.add code plane =
      groups.map fun g => (g.1, if g.1 = code then g.2.addBoundaries [plane] else g.2)
  | [], _ => rfl
  | g :: groups, h => by
    obtain ⟨hnotin, hrest⟩ := List.nodup_cons.mp h
    unfold add
    split_ifs with hcode
    · have hothers : ∀ g' ∈ groups, g'.1 ≠ code := by
        intro g' hg' hcode'
        exact hnotin (List.mem_map.mpr ⟨g', hg', hcode'.trans hcode.symm⟩)
      rw [List.map_cons, if_pos hcode]
      congr 1
      symm
      rw [List.map_congr_left (g := id), List.map_id]
      intro g' hg'
      rw [if_neg (hothers g' hg')]
      rfl
    · rw [List.map_cons, if_neg hcode, add_eq_map hrest]

end ControlGroups

/-- **Groups of written boundaries**: one for each code that occurs, with the planes of that code in
their order, and with the control that one of its boundaries asks for. -/
structure Grouped [Scalar R] (policy : FallbackPolicy) (specs : List BoundarySpec)
    (groups : ControlGroups R) : Prop where
  distinct : groups.codes.Nodup
  covers : ∀ spec ∈ specs, spec.code ∈ groups.codes
  planes : ∀ g ∈ groups, g.2.boundaries =
    (specs.filter fun spec => spec.code = g.1).map BoundarySpec.boundary
  rules : ∀ g ∈ groups, ∃ spec ∈ specs, spec.code = g.1 ∧
    ∃ c, spec.control policy = .ok c ∧ ∃ planes, g.2 = c.addBoundaries planes

section groups
variable [Scalar R] {policy : FallbackPolicy}

theorem grouped_nil : Grouped policy [] ([] : ControlGroups R) where
  distinct := List.nodup_nil
  covers := by simp
  planes := by simp
  rules := by simp

namespace Grouped

variable {specs : List BoundarySpec} {groups : ControlGroups R} (h : Grouped policy specs groups)
include h

theorem join {spec : BoundarySpec} (hcode : spec.code ∈ groups.codes) :
    Grouped policy (specs ++ [spec]) (groups.add spec.code spec.boundary) := by
  rw [ControlGroups.add_eq_map h.distinct]
  have hcodes : ControlGroups.codes (groups.map fun g =>
      (g.1, if g.1 = spec.code then g.2.addBoundaries [spec.boundary] else g.2)) = groups.codes := by
    unfold ControlGroups.codes
    rw [List.map_map]
    rfl
  refine ⟨hcodes ▸ h.distinct, fun other hother => ?_, fun g hg => ?_, fun g hg => ?_⟩
  · rw [hcodes]
    rcases List.mem_append.mp hother with hother | hother
    · exact h.covers other hother
    · rwa [List.mem_singleton.mp hother]
  · obtain ⟨before, hbefore, rfl⟩ := List.mem_map.mp hg
    rw [List.filter_append, List.map_append, ← h.planes before hbefore]
    dsimp only
    split_ifs with heq
    · simp [BoundaryControl.addBoundaries, heq]
    · simp [Ne.symm heq]
  · obtain ⟨before, hbefore, rfl⟩ := List.mem_map.mp hg
    obtain ⟨first, hfirst, hcode', c, hc, planes, hplanes⟩ := h.rules before hbefore
    refine ⟨first, List.mem_append_left _ hfirst, hcode', c, hc, ?_⟩
    dsimp only
    split_ifs
    · exact ⟨planes ++ [spec.boundary], by simp [hplanes, BoundaryControl.addBoundaries]⟩
    · exact ⟨planes, hplanes⟩

theorem opens {spec : BoundarySpec} (hcode : spec.code ∉ groups.codes) {c : BoundaryControl R}
    (hc : spec.control policy = .ok c) :
    Grouped policy (specs ++ [spec]) (groups ++ [(spec.code, c.addBoundaries [spec.boundary])]) := by
  have hcodes : ControlGroups.codes (groups ++ [(spec.code, c.addBoundaries [spec.boundary])]) =
      groups.codes ++ [spec.code] := List.map_append
  refine ⟨?_, fun other hother => ?_, fun g hg => ?_, fun g hg => ?_⟩
  · rw [hcodes]
    exact List.Nodup.append h.distinct (List.nodup_singleton _) (by simpa using hcode)
  · rw [hcodes, List.mem_append]
    rcases List.mem_append.mp hother with hother | hother
    · exact .inl (h.covers other hother)
    · exact .inr (by rw [List.mem_singleton.mp hother]; exact List.mem_singleton_self _)
  · rw [List.filter_append, List.map_append]
    rcases List.mem_append.mp hg with hg | hg
    · have hne : spec.code ≠ g.1 := by
        intro heq
        exact hcode (List.mem_map.mpr ⟨g, hg, heq.symm⟩)
      rw [← h.planes g hg]
      simp [hne]
    · obtain rfl := List.mem_singleton.mp hg
      have hnone : specs.filter (fun other => other.code = spec.code) = [] := by
        rw [List.filter_eq_nil_iff]
        intro other hother heq
        exact hcode (of_decide_eq_true heq ▸ h.covers other hother)
      rw [hnone]
      simp [BoundaryControl.addBoundaries, (BoundarySpec.control_eq_ok hc).1]
  · rcases List.mem_append.mp hg with hg | hg
    · obtain ⟨first, hfirst, hrest⟩ := h.rules g hg
      exact ⟨first, List.mem_append_left _ hfirst, hrest⟩
    · obtain rfl := List.mem_singleton.mp hg
      exact ⟨spec, by simp, rfl, c, hc, _, rfl⟩

theorem place {spec : BoundarySpec} {groups' : ControlGroups R}
    (hplace : groups.place policy spec = .ok groups') :
    Grouped policy (specs ++ [spec]) groups' := by
  have hany : (groups.any fun g => g.1 == spec.code) = true ↔ spec.code ∈ groups.codes := by
    simp [ControlGroups.codes]
  unfold ControlGroups.place at hplace
  split_ifs at hplace with hcode
  · cases hplace
    exact h.join (hany.mp hcode)
  · obtain ⟨c, hc, hopened⟩ := Except.bind_eq_ok.mp hplace
    cases hopened
    exact h.opens (fun hmem => hcode (hany.mpr hmem)) hc

end Grouped

theorem grouped_foldlM : ∀ {specs earlier : List BoundarySpec} {groups groups' : ControlGroups R},
    Grouped policy earlier groups → specs.foldlM (ControlGroups.place policy) groups = .ok groups' →
    Grouped policy (earlier ++ specs) groups'
  | [], earlier, groups, groups', h, hfold => by
    cases hfold
    rwa [List.append_nil]
  | spec :: specs, earlier, groups, groups', h, hfold => by
    rw [List.foldlM_cons] at hfold
    obtain ⟨between, hplace, hrest⟩ := Except.bind_eq_ok.mp hfold
    rw [List.append_cons]
    exact grouped_foldlM (h.place hplace) hrest

theorem buildControls_alone {spec : BoundarySpec} {alone : BoundaryControl R} :
    buildControls [spec] policy = .ok [alone] ↔
      ∃ c, spec.control policy = .ok c ∧ alone = c.addBoundaries [spec.boundary] := by
  have hbuild : buildControls [spec] policy =
      (spec.control policy).map fun c : BoundaryControl R => [c.addBoundaries [spec.boundary]] := by
    unfold buildControls
    rw [List.foldlM_cons]
    simp only [ControlGroups.place, List.any_nil, Bool.false_eq_true, if_false, List.foldlM_nil]
    cases spec.control policy (R := R) <;> rfl
  rw [hbuild]
  cases spec.control policy (R := R) with
  | error failure => simp [Except.map]
  | ok c => simp [Except.map, eq_comm]

/-- **Which boundaries keep their control in a group.** The controls of written boundaries are those
of groups with different codes; the planes of a group are the boundaries with its code, in their
order, and each boundary has a group. Each boundary is in a control of the kind and with the
operator that it has alone, if and only if no permeable boundary among them has an operator that is
called as the kind of another with as many control wires. -/
theorem buildControls_groups (specs : List BoundarySpec)
    (hread : ∀ spec ∈ specs, ∃ text, BoundarySpec.read text = .ok spec)
    {controls : List (BoundaryControl R)} (hbuild : buildControls specs policy = .ok controls) :
    ∃ groups : ControlGroups R, controls = groups.map Prod.snd ∧ groups.codes.Nodup ∧
      (∀ g ∈ groups, g.2.boundaries =
        (specs.filter fun spec => spec.code = g.1).map BoundarySpec.boundary) ∧
      (∀ spec ∈ specs, ∃ c, (spec.code, c) ∈ groups) ∧
      ((∀ spec ∈ specs, ∀ c, (spec.code, c) ∈ groups → ∃ alone : BoundaryControl R,
          buildControls [spec] policy = .ok [alone] ∧ c.kind = alone.kind ∧
            c.operator? = alone.operator?) ↔
        ∀ a ∈ specs, ∀ b ∈ specs, ¬ a.Clashes b) := by
  obtain ⟨groups, hfold, hcontrols⟩ := Except.bind_eq_ok.mp hbuild
  cases hcontrols
  have h : Grouped policy specs groups := by
    have hall := grouped_foldlM (grouped_nil (R := R)) hfold
    rwa [List.nil_append] at hall
  refine ⟨groups, rfl, h.distinct, h.planes, fun spec hspec => ?_, ?_, ?_⟩
  · obtain ⟨g, hg, hcode⟩ := List.mem_map.mp (h.covers spec hspec)
    exact ⟨g.2, hcode ▸ hg⟩
  · intro hkept a ha b hb hclash
    obtain ⟨g, hg, hcode⟩ := List.mem_map.mp (h.covers a ha)
    obtain ⟨alone, halone, hkind, -⟩ := hkept a ha g.2 (hcode ▸ hg)
    obtain ⟨alone', halone', hkind', -⟩ := hkept b hb g.2 (hclash.code_eq ▸ hcode ▸ hg)
    obtain ⟨c, hc, rfl⟩ := buildControls_alone.mp halone
    obtain ⟨c', hc', rfl⟩ := buildControls_alone.mp halone'
    exact hclash.kind_ne hc hc' (hkind.symm.trans hkind')
  · intro hnone spec hspec c hc
    obtain ⟨first, hfirst, hcode, c₀, hc₀, planes, rfl⟩ := h.rules _ hc
    obtain ⟨text, htext⟩ := hread first hfirst
    obtain ⟨text', htext'⟩ := hread spec hspec
    have halike : first.control policy = .ok c₀ → spec.control policy = .ok c₀ := by
      rcases BoundarySpec.clash_or_alike (R := R) (BoundarySpec.wires_of_read htext)
        (BoundarySpec.wires_of_read htext') hcode with hclash | hclash | halike
      · exact absurd hclash (hnone first hfirst spec hspec)
      · exact absurd hclash (hnone spec hspec first hfirst)
      · rw [halike]
        exact fun h => h
    exact ⟨_, buildControls_alone.mpr ⟨c₀, halike hc₀, rfl⟩, rfl, rfl⟩

end groups

/-- A wall with a coin. -/
def secondWall : BoundarySpec := ⟨.permeable, ⟨"101", 0, none⟩, "H", 1⟩

/-- A hard wall, two walls with a coin, and a valve. -/
def wallsAndValve : List BoundarySpec :=
  [⟨.hard, ⟨"000", 0, none⟩, "", 0⟩, ⟨.permeable, ⟨"011", 0, none⟩, "H", 1⟩, secondWall,
    ⟨.oneWay, ⟨"110", 0, none⟩, "", 2⟩]

/-- No operator is called as a kind, and the two walls with a coin share a control with that coin. -/
theorem buildControls_groups_wallsAndValve :
    (∀ spec ∈ wallsAndValve, ∃ text, BoundarySpec.read text = .ok spec) ∧
      ∃ controls : List (BoundaryControl ℝ),
        buildControls wallsAndValve .basisRotation = .ok controls ∧
        ∃ groups : ControlGroups ℝ, controls = groups.map Prod.snd ∧ ∃ c, ("H-1", c) ∈ groups ∧
          c.boundaries = [⟨"011", 0, none⟩, ⟨"101", 0, none⟩] ∧ c.kind = .permeable ∧
          c.operator? = some (.hadamard 1) := by
  have hread : ∀ spec ∈ wallsAndValve, ∃ text, BoundarySpec.read text = .ok spec := by
    intro spec hspec
    simp only [wallsAndValve, List.mem_cons, List.not_mem_nil, or_false] at hspec
    obtain rfl | rfl | rfl | rfl := hspec
    · exact ⟨"hard-0-000", by decide⟩
    · exact ⟨"soft-0-011-H-1", by decide⟩
    · exact ⟨"s-0-101-H", by decide⟩
    · exact ⟨"oneway-0-110--2", by decide⟩
  have hsecond : secondWall ∈ wallsAndValve := by decide
  have hcode : secondWall.code = "H-1" := by decide
  have hshared : (wallsAndValve.filter fun spec => spec.code = "H-1").map BoundarySpec.boundary =
      [⟨"011", 0, none⟩, ⟨"101", 0, none⟩] := by decide
  have hbuild : buildControls [secondWall] .basisRotation =
      .ok [BoundaryControl.addBoundaries (.permeable (.hadamard 1 : Operator ℝ))
        [secondWall.boundary]] := rfl
  refine ⟨hread, _, rfl, ?_⟩
  obtain ⟨groups, hcontrols, -, hplanes, hgroup, hkept⟩ :=
    buildControls_groups (R := ℝ) wallsAndValve hread (Eq.refl (buildControls _ .basisRotation))
  obtain ⟨c, hc⟩ := hgroup secondWall hsecond
  obtain ⟨alone, halone, hkind, hoperator⟩ := hkept.mpr (by decide) secondWall hsecond c hc
  rw [hbuild, Except.ok.injEq, List.cons.injEq] at halone
  obtain ⟨rfl, -⟩ := halone
  rw [hcode] at hc
  exact ⟨groups, hcontrols, c, hc, (hplanes _ hc).trans hshared, hkind, hoperator⟩

/-- **A valve becomes a wall with a coin** behind a wall whose operator is called as a valve. -/
theorem valve_grouped_with_wall : ∃ wall valve : BoundarySpec,
    BoundarySpec.read "soft-0-11-oneway-2" = .ok wall ∧
      BoundarySpec.read "oneway-0-00--2" = .ok valve ∧
      ∃ together alone : BoundaryControl ℝ,
        buildControls [wall, valve] .basisRotation = .ok [together] ∧
        valve.boundary ∈ together.boundaries ∧ together.kind = .permeable ∧
        buildControls [valve] .basisRotation = .ok [alone] ∧ alone.kind = .oneWay := by
  refine ⟨⟨.permeable, ⟨"11", 0, none⟩, "oneway", 2⟩, ⟨.oneWay, ⟨"00", 0, none⟩, "", 2⟩, by decide,
    by decide, _, _, rfl, ?_, rfl, rfl, rfl⟩
  exact List.mem_cons_of_mem _ (List.mem_singleton_self _)

end LatticeWalk
