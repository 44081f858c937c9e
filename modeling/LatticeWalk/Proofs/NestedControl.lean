import LatticeWalk.Proofs.Operator

/-! # Control of control

Controls are added in front: what is added first is moved behind what is added later, and a pattern
is read from its end. The two reversals fit together (`Operator.controlsFor_append`), so that an
operator under a pattern, put under a second one, has the gates of the operator under the first
pattern followed by the second (`Operator.extendGate_extendGate`).

Inversion exchanges the two lists of an operator and control treats both alike
(`Operator.body_underPattern`). Main statement: `Operator.nested_control`. -/

namespace LatticeWalk

namespace Operator

variable {R : Type}

/-- **Operators that act alike**: they may have other names, labels and families. -/
structure Alike (op op' : Operator R) : Prop where
  wires : op.wires = op'.wires
  controlWires : op.controlWires = op'.controlWires
  gates : op.gates = op'.gates
  inverseGates : op.inverseGates = op'.inverseGates

/-! ### Controls in front of controls -/

theorem controlsFor_append (front back : List Bool) :
    controlsFor (front ++ back) =
      controlsFor front ++ (controlsFor back).map fun c => ⟨c.wire + front.length, c.value⟩ := by
  have hback : back.zipIdx front.length =
      back.zipIdx.map fun b => (b.1, front.length + b.2) := by
    rw [List.zipIdx_eq_map_add]
  simp only [controlsFor, List.zipIdx_append, Nat.zero_add, List.map_append, hback, List.map_map]
  congr 1
  exact List.map_congr_left fun b _ => by simp [Nat.add_comm]

theorem extendGate_extendGate (front back : List Bool) (g : Gate R) :
    extendGate front (extendGate back g) = extendGate (front ++ back) g := by
  simp [extendGate, Gate.mapWires, controlsFor_append, Nat.add_comm, Nat.add_left_comm,
    Function.comp_def]

/-- Under two patterns one after the other, the later one asks the wires in front. -/
theorem map_extendGate_append (s t : String) (gs : List (Gate R)) :
    (gs.map (extendGate (Pattern.wireBits s))).map (extendGate (Pattern.wireBits t)) =
      gs.map (extendGate (Pattern.wireBits (s ++ t))) := by
  rw [List.map_map, Pattern.wireBits_append]
  exact List.map_congr_left fun g _ => extendGate_extendGate _ _ g

/-! ### Bodies -/

/-- Control of an operator that was inverted or not: its body is inverted twice. -/
theorem body_underPattern (op : Operator R) (k : ℕ) (s : String) (i j : Bool)
    (label : Option String) : (op.underPattern k s i label).body j =
      (op.body (i ^^ j)).map (extendGate (Pattern.wireBits s)) := by
  cases i <;> cases j <;> rfl

theorem alike_underPattern_underPattern (op : Operator R) (k l : ℕ) (s t : String) (i j : Bool)
    (a b c : Option String) : ((op.underPattern k s i a).underPattern l t j b).Alike
      (op.underPattern (k + l) (s ++ t) (i ^^ j) c) where
  wires := Nat.add_assoc _ _ _
  controlWires := Nat.add_assoc _ _ _
  gates := by
    change ((op.underPattern k s i a).body j).map _ = _
    rw [body_underPattern, map_extendGate_append]
    rfl
  inverseGates := by
    change ((op.underPattern k s i a).body !j).map _ = _
    rw [body_underPattern, map_extendGate_append, Bool.xor_not]
    rfl

theorem alike_underPattern_inverse (op : Operator R) (k : ℕ) (s : String) (a b : Option String) :
    (op.underPattern k s true a).Alike (op.inverse.underPattern k s false b) :=
  ⟨rfl, rfl, rfl, rfl⟩

theorem alike_inverse_underPattern (op : Operator R) (k : ℕ) (s : String) (a b : Option String) :
    (op.underPattern k s true a).Alike (op.underPattern k s false b).inverse :=
  ⟨rfl, rfl, rfl, rfl⟩

/-! ### The laws of control -/

/-- **Nested control is one wider control.** An operator under a pattern on `k` wires, put under a
pattern on `l` wires, succeeds and acts as the operator under both patterns one after the other on
`k + l` wires, inverted if just one of the two inverts. And the inverse under control is the
controlled inverse, and the inverse of what is under control. -/
theorem nested_control (op : Operator R) {k l : ℕ} {p q : Option String}
    (hp : ∀ s ∈ p, IsPattern s k) (hq : ∀ s ∈ q, IsPattern s l) (i j : Bool)
    (a b c : Option String) :
    (∃ inner outer single, op.control k p i a = .ok inner ∧ inner.control l q j b = .ok outer ∧
      op.control (k + l) (some (asked k p ++ asked l q)) (i ^^ j) c = .ok single ∧
      outer.Alike single) ∧
    (∃ inverted ofInverse upright, op.control k p true a = .ok inverted ∧
      op.inverse.control k p false b = .ok ofInverse ∧ op.control k p false c = .ok upright ∧
      inverted.Alike ofInverse ∧ inverted.Alike upright.inverse) := by
  have hp' : IsPattern (asked k p) k := isPattern_asked hp
  have hq' : IsPattern (asked l q) l := isPattern_asked hq
  have hboth : IsPattern (asked (k + l) (some (asked k p ++ asked l q))) (k + l) :=
    Pattern.isPattern_append hp' hq'
  constructor
  · refine ⟨_, _, _, control_eq_ok.mpr ⟨hp', rfl⟩, control_eq_ok.mpr ⟨hq', rfl⟩,
      control_eq_ok.mpr ⟨hboth, rfl⟩, ?_⟩
    exact alike_underPattern_underPattern op k l _ _ i j a b c
  · refine ⟨_, _, _, control_eq_ok.mpr ⟨hp', rfl⟩, control_eq_ok.mpr ⟨hp', rfl⟩,
      control_eq_ok.mpr ⟨hp', rfl⟩, ?_, ?_⟩
    · exact alike_underPattern_inverse op k _ a b
    · exact alike_inverse_underPattern op k _ a c

/-- The inverse of a counter under "10", controlled by one more wire: the whole pattern is "101". -/
theorem nested_control_counter : (∀ s ∈ some "10", IsPattern s 2) ∧
    (∀ s ∈ (none : Option String), IsPattern s 1) ∧
    asked 2 (some "10") ++ asked 1 none = "101" ∧
    ∃ inner outer single : Operator ℝ,
      (cyclicIncrement 2).control 2 (some "10") true none = .ok inner ∧
      inner.control 1 none false none = .ok outer ∧
      (cyclicIncrement 2).control 3 (some "101") true none = .ok single ∧ outer.Alike single := by
  have hp : ∀ s ∈ some "10", IsPattern s 2 := by
    rintro s ⟨⟩
    exact ⟨by simp [Pattern.isBit], rfl⟩
  have hq : ∀ s ∈ (none : Option String), IsPattern s 1 := by simp
  have hpattern : asked 2 (some "10") ++ asked 1 none = "101" := by decide
  have h := (nested_control (cyclicIncrement 2 : Operator ℝ) hp hq true false none none none).1
  rw [hpattern] at h
  exact ⟨hp, hq, hpattern, h⟩

end Operator

end LatticeWalk
