import LatticeWalk.Proofs.BoundaryGroups
import LatticeWalk.Proofs.Lookup
import LatticeWalk.Proofs.OpenPaths
import LatticeWalk.Proofs.Pieces
import LatticeWalk.Proofs.Undo
import LatticeWalk.Experiment

/-! # Files of an experiment

A name without slashes leads to a file of the base itself, and what is written there changes no
other file. The tables of a walk have such names, since no coin that directs a walk has a slash in
its name, and they are told by the number of steps.

* `Folder.IsName`: names of files in the base; `Folder.IsName.open_iff` says when they are open, and
  `Folder.IsName.text?_update_of_ne` what an update of another one does to them.
* `text?_of_writeDisplacement`, `text?_of_appendLog`: tables and logs that were written.
* `PlainNumerals`: scalars that are written without slashes, as doubles are.
* `Experiment.isName_fileName`, `Experiment.fileName_injective`: the names of tables. -/

namespace LatticeWalk

/-! ### Names -/

namespace Folder

/-- The name of a file in the base itself. -/
structure IsName (name : String) : Prop where
  slash : '/' ∉ name.toList
  nonempty : name ≠ ""
  dot : name ≠ "."
  dots : name ≠ ".."

namespace IsName

variable {name other : String} {f f' : Folder} (h : IsName name)
include h

theorem open_iff {place : Place} : f.Open name place ↔
    (isLegal name = true ∧ name.utf8ByteSize ≤ nameLimit ∧ f.hasFolder [name] = false) ∧
      place = [name] := by
  have hsingle : Text.split '/' name = [name] := Text.split_of_notMem h.slash
  constructor
  · rintro ⟨hlegal, ⟨front, last, outer, hsplit, hfront, -, -, hshort, rfl⟩, hunmade⟩
    rw [hsingle] at hsplit
    cases front with
    | nil =>
      cases hsplit
      cases hfront
      exact ⟨⟨hlegal, hshort, hunmade⟩, rfl⟩
    | cons piece pieces => simp at hsplit
  · rintro ⟨⟨hlegal, hshort, hunmade⟩, rfl⟩
    have hhere : isHere name = false := by simp [isHere, h.nonempty, h.dot]
    have hdots : (name == "..") = false := by simpa using h.dots
    exact ⟨hlegal, ⟨[], name, [], hsingle, rfl, hhere, hdots, hshort, rfl⟩, hunmade⟩

theorem withParents_eq (f : Folder) : f.withParents name = f := by
  have hpieces : pieces name = [name] := by
    rw [pieces, Text.split_of_notMem h.slash]
    simp [isHere, h.nonempty, h.dot]
  rw [withParents, hpieces]
  rfl

/-- Where no folder was made, a file can be written under every name that a file can have. -/
theorem exists_update? (hlegal : isLegal name = true) (hshort : name.utf8ByteSize ≤ nameLimit)
    (hf : f.folders = []) (change : Option String → String) :
    ∃ f', f.update? name change = some f' ∧ f'.folders = [] := by
  have hunmade : f.hasFolder [name] = false := by simp [hasFolder, hf, h.dots]
  have hopen : f.Open name [name] := h.open_iff.mpr ⟨⟨hlegal, hshort, hunmade⟩, rfl⟩
  exact ⟨_, update?_eq_some_iff.mpr ⟨[name], hopen, rfl⟩, hf⟩

/-- **Other files stay** as they are. -/
theorem text?_update_of_ne {change : Option String → String}
    (hupdate : f.update? name change = some f') (hother : IsName other) (hne : other ≠ name) :
    f'.text? other = f.text? other := by
  refine text?_of_update?_of_ne hupdate fun hopen hopen' => ?_
  rw [(h.open_iff.mp hopen).2, (hother.open_iff.mp hopen').2]
  exact hne

end IsName

end Folder

section artifacts
variable {name other : String} {f f' : Folder}

theorem text?_of_writeDisplacement {R : Type} [Scalar R] {t : Displacement R}
    (h : Folder.IsName name) (hwrite : (writeDisplacement name t).outcome f = (.ok (), f')) :
    f'.text? name = some t.csv ∧
      ∀ other, Folder.IsName other → other ≠ name → f'.text? other = f.text? other := by
  rw [writeDisplacement, Attempt.outcome_of] at hwrite
  split at hwrite
  next g hupdate =>
    cases hwrite
    exact ⟨Folder.text?_of_update? hupdate, fun other => h.text?_update_of_ne hupdate⟩
  next => cases hwrite

/-- What is added to a log stands behind the rest of it, and other files stay. -/
theorem text?_of_appendLog {text : String} (h : Folder.IsName name)
    (hwrite : (appendLog name text).outcome f = (.ok (), f')) :
    f'.text? name = some ((f.text? name).getD "" ++ text) ∧
      ∀ other, Folder.IsName other → other ≠ name → f'.text? other = f.text? other := by
  have hupdate := appendLog_eq_ok.mp hwrite
  rw [h.withParents_eq] at hupdate
  exact ⟨Folder.text?_of_update? hupdate, fun other => h.text?_update_of_ne hupdate⟩

end artifacts

/-! ### Numbers in names -/

/-- Scalars that are written without slashes. -/
class PlainNumerals (R : Type) [Numeral R] : Prop where
  slash_notMem_spell : ∀ x : R, '/' ∉ (Numeral.spell x).toList

namespace Decimal

variable {c : Char}

theorem notMem_signed (hsign : c ≠ '-') {negative : Bool} {text : String} (h : c ∉ text.toList) :
    c ∉ (signed negative text).toList := by
  unfold signed
  split_ifs
  · rw [String.toList_append, List.mem_append]
    exact not_or.mpr ⟨by simpa using hsign, h⟩
  · exact h

theorem notMem_replicate_zero (hdigit : c.isDigit = false) (n : ℕ) :
    c ∉ (Text.replicate n '0').toList := by
  have hzero : c ≠ '0' := fun h => by
    rw [h] at hdigit
    cases hdigit
  simp [Text.replicate, hzero]

theorem notMem_positional (hdigit : c.isDigit = false) (hpoint : c ≠ '.') (digits : ℕ)
    (power : ℤ) : c ∉ (positional digits power).toList := by
  have hdigits : c ∉ (Nat.repr digits).toList := notMem_toString hdigit digits
  have hpadded : ∀ n, c ∉ (Text.padLeft n '0' (Nat.repr digits)).toList := by
    intro n
    rw [Text.padLeft, String.toList_append, List.mem_append]
    exact not_or.mpr ⟨notMem_replicate_zero hdigit _, hdigits⟩
  unfold positional
  dsimp only
  split_ifs
  · rw [String.toList_append, List.mem_append]
    exact not_or.mpr ⟨hdigits, notMem_replicate_zero hdigit _⟩
  · simp only [String.toList_append, String.toList_ofList, List.mem_append, not_or]
    exact ⟨⟨fun h => hpadded _ (List.mem_of_mem_take h), by simpa using hpoint⟩,
      fun h => hpadded _ (List.mem_of_mem_drop h)⟩

/-- A double is written with digits and the letters of `-`, `.`, `NaN` and `inf`. -/
theorem notMem_plain (hdigit : c.isDigit = false) (hother : c ∉ "-.NaNinf".toList)
    (x : Binary64) : c ∉ (plain x).toList := by
  have hpart : ∀ text : String, text.toList ⊆ "-.NaNinf".toList → c ∉ text.toList :=
    fun _ htext h => hother (htext h)
  have hsign : c ≠ '-' := by simpa using hpart "-" (by decide)
  have hpoint : c ≠ '.' := by simpa using hpart "." (by decide)
  unfold plain
  split
  · exact hpart "NaN" (by decide)
  · exact notMem_signed hsign (hpart "inf" (by decide))
  · exact notMem_signed hsign (notMem_toString hdigit 0)
  · exact notMem_signed hsign (notMem_positional hdigit hpoint _ _)

end Decimal

theorem notMem_toString_int {c : Char} (hdigit : c.isDigit = false) (hsign : c ≠ '-') (z : ℤ) :
    c ∉ (toString z).toList := by
  cases z with
  | ofNat n => exact notMem_toString hdigit n
  | negSucc n =>
    show c ∉ ("-" ++ toString (n + 1)).toList
    rw [String.toList_append, List.mem_append]
    exact not_or.mpr ⟨by simpa using hsign, notMem_toString hdigit _⟩

instance : PlainNumerals Float := ⟨fun _ => Decimal.notMem_plain (by decide) (by decide) _⟩

instance : PlainNumerals ℝ := ⟨fun x => notMem_toString_int (by decide) (by decide) ⌊x⌋⟩

/-! ### Names of coins and tables -/

variable {R : Type}

/-- **The coins that direct walks** have names without slashes. -/
theorem Operator.Directs.slash_notMem_name [Scalar R] [PlainNumerals R] {n : ℕ} {op : Operator R}
    (h : Directs n op) : '/' ∉ op.name.toList := by
  cases h with
  | hadamard => exact (by decide : '/' ∉ "Hadamard Coin".toList)
  | flip => exact (by decide : '/' ∉ "X Coin".toList)
  | diffusion => exact (by decide : '/' ∉ "Grover Coin".toList)
  | fourier => exact (by decide : '/' ∉ "DFT Coin".toList)
  | phaseKickback => exact (by decide : '/' ∉ "Phase Kickback Coin".toList)
  | kickback variant =>
    have hname : '/' ∉ variant.coinName.toList := by cases variant <;> decide
    exact hname
  | su2 h =>
    obtain ⟨_, -, h⟩ := Except.bind_eq_ok.mp h
    obtain ⟨_, -, h⟩ := Except.bind_eq_ok.mp h
    obtain ⟨_, -, h⟩ := Except.bind_eq_ok.mp h
    cases h
    exact (by decide : '/' ∉ "SU2 Coin".toList)
  | @permeability transmission _ h =>
    unfold Operator.permeability at h
    split_ifs at h
    · cases h
      simp only [Operator.ofGates, String.toList_append, List.mem_append, not_or]
      exact ⟨⟨by decide, PlainNumerals.slash_notMem_spell transmission⟩, by decide⟩
    · cases h

namespace Experiment

variable {w : Walk R}

theorem toList_fileName (w : Walk R) (steps : ℕ) : (fileName w steps).toList =
    ((toString w.plan.widths.length).toList ++ "D_Walk_".toList ++
      (toString (Nat.pow 2 (min (w.plan.widths.headD 0) 63))).toList ++ "_bit_iteration_".toList) ++
    (toString steps).toList ++
      ("_".toList ++ w.plan.coin.name.toList ++ "_results.csv".toList) := by
  have hparts : fileName w steps = toString w.plan.widths.length ++ "D_Walk_" ++
      toString (Nat.pow 2 (min (w.plan.widths.headD 0) 63)) ++ "_bit_iteration_" ++
      toString steps ++ "_" ++ w.plan.coin.name ++ "_results.csv" := rfl
  rw [hparts]
  simp only [String.toList_append, List.append_assoc]

/-- **The tables of a walk** have different names after different numbers of steps. -/
theorem fileName_injective (w : Walk R) : Function.Injective (fileName w) := by
  intro steps steps' h
  have hlists := congrArg String.toList h
  rw [toList_fileName, toList_fileName, List.append_cancel_right_eq,
    List.append_cancel_left_eq] at hlists
  exact Nat.repr_injective (String.toList_injective hlists)

theorem getLast?_fileName (w : Walk R) (steps : ℕ) :
    (fileName w steps).toList.getLast? = some 'v' := by
  rw [toList_fileName, ← List.append_assoc, List.getLast?_append]
  rfl

theorem fileName_ne {text : String} (h : text.toList.getLast? ≠ some 'v') (w : Walk R)
    (steps : ℕ) : fileName w steps ≠ text :=
  fun heq => h (heq ▸ getLast?_fileName w steps)

/-- **The tables of a walk** are files of the base itself, and none of them is the log. -/
theorem isName_fileName (h : '/' ∉ w.plan.coin.name.toList) (steps : ℕ) :
    Folder.IsName (fileName w steps) := by
  refine ⟨?_, fileName_ne (by decide) w steps, fileName_ne (by decide) w steps,
    fileName_ne (by decide) w steps⟩
  rw [toList_fileName]
  simp only [List.mem_append, not_or]
  exact ⟨⟨⟨⟨⟨notMem_toString (by decide) _, by decide⟩, notMem_toString (by decide) _⟩, by decide⟩,
    notMem_toString (by decide) _⟩, ⟨by decide, h⟩, by decide⟩

theorem isName_covarianceLog : Folder.IsName covarianceLog :=
  ⟨by decide, by decide, by decide, by decide⟩

theorem fileName_ne_covarianceLog (w : Walk R) (steps : ℕ) : fileName w steps ≠ covarianceLog :=
  fileName_ne (by decide) w steps

end Experiment

end LatticeWalk
