import LatticeWalk.Proofs.Lookup
import LatticeWalk.Artifact

/-! # Paths on which a file can stand

A path is open at a place if it leads through folders to a name that no folder has. What it leads to
is the file at that place, or nothing yet, and a write changes what stands there.

* `Folder.Open`: open paths; `Folder.open_of_isAt` tells them by what they lead to.
* `Folder.Open.withParents_eq`: no folder is missing on an open path.
* `Folder.text?_of_update?`, `Folder.text?_of_update?_of_ne`: what is written under a path stands
  there, and what stands at other places stays.
* `appendLog_eq_ok`, `text?_of_appended`, `exists_appended`: what an entry adds to a log. -/

namespace LatticeWalk

namespace Folder

variable {f g : Folder} {path : String} {place : Place}

/-! ### Through folders -/

theorem exists_folder_of_foldl {pieces : List String} {d : Destination} {b : Place}
    (h : pieces.foldl f.follow d = .folder b) : ∃ a, d = .folder a := by
  induction pieces generalizing d with
  | nil => exact ⟨b, h⟩
  | cons piece pieces ih =>
    obtain ⟨c, hc⟩ := ih h
    cases d with
    | folder a => exact ⟨a, rfl⟩
    | _ => cases hc

theorem foldl_follow_cons {piece : String} {pieces : List String} {a b : Place}
    (h : (piece :: pieces).foldl f.follow (.folder a) = .folder b) :
    ∃ c, f.follow (.folder a) piece = .folder c ∧
      pieces.foldl f.follow (.folder c) = .folder b := by
  obtain ⟨c, hc⟩ := exists_folder_of_foldl (d := f.follow (.folder a) piece) h
  exact ⟨c, hc, hc ▸ h⟩

theorem lookUp_eq_folder {c : Place} :
    f.lookUp place = .folder c ↔ f.hasFolder place = true ∧ c = place := by
  unfold lookUp
  cases f.hasFolder place with
  | true => simp [eq_comm]
  | false => cases f.files.find? place.path <;> simp

/-- Whether a piece leads to a folder depends on the folders only. -/
theorem follow_of_folders (hfolders : g.folders = f.folders) {a c : Place} {piece : String}
    (h : f.follow (.folder a) piece = .folder c) : g.follow (.folder a) piece = .folder c := by
  have hlook : f.lookUp (piece :: a) = .folder c → g.lookUp (piece :: a) = .folder c := by
    rw [lookUp_eq_folder, lookUp_eq_folder, hasFolder, hasFolder, hfolders]
    exact id
  simp only [follow] at h ⊢
  split_ifs at h ⊢
  · exact h
  · exact h
  · exact hlook h

theorem foldl_follow_of_folders (hfolders : g.folders = f.folders) {pieces : List String}
    {a b : Place} (h : pieces.foldl f.follow (.folder a) = .folder b) :
    pieces.foldl g.follow (.folder a) = .folder b := by
  induction pieces generalizing a with
  | nil => exact h
  | cons piece pieces ih =>
    obtain ⟨c, hpiece, hrest⟩ := foldl_follow_cons h
    rw [List.foldl_cons, follow_of_folders hfolders hpiece]
    exact ih hrest

theorem foldl_enter {pieces : List String} {a b : Place}
    (h : pieces.foldl f.follow (.folder a) = .folder b) :
    (pieces.filter fun piece => !isHere piece).foldl enter (f, .folder a) = (f, .folder b) := by
  induction pieces generalizing a with
  | nil =>
    cases h
    rfl
  | cons piece pieces ih =>
    obtain ⟨c, hpiece, hrest⟩ := foldl_follow_cons h
    cases hhere : isHere piece with
    | true =>
      rw [follow, if_pos hhere] at hpiece
      cases hpiece
      rw [List.filter_cons_of_neg (by simp [hhere])]
      exact ih hrest
    | false =>
      have henter : enter (f, .folder a) piece = (f, .folder c) := by
        rw [enter, hpiece]
      rw [List.filter_cons_of_pos (by simp [hhere]), List.foldl_cons, henter]
      exact ih hrest

end Folder

/-- A file stands at the place, or can be made there. -/
def Destination.IsAt (d : Destination) (place : Place) : Prop :=
  (∃ text, d = .file place text) ∨ d = .free place

namespace Folder

variable {f g : Folder} {path : String} {place : Place}

/-! ### Open paths -/

/-- **An open path**: it leads through folders to a name there, which no folder has. -/
structure Open (f : Folder) (path : String) (place : Place) : Prop where
  legal : isLegal path = true
  steps : ∃ front name outer, Text.split '/' path = front ++ [name] ∧
    front.foldl f.follow (.folder []) = .folder outer ∧ isHere name = false ∧
    (name == "..") = false ∧ name.utf8ByteSize ≤ nameLimit ∧ place = name :: outer
  unmade : f.hasFolder place = false

theorem Open.of_folders (h : f.Open path place) (hfolders : g.folders = f.folders) :
    g.Open path place := by
  obtain ⟨front, name, outer, hsplit, hfront, hname⟩ := h.steps
  refine ⟨h.legal, ⟨front, name, outer, hsplit, foldl_follow_of_folders hfolders hfront, hname⟩, ?_⟩
  rw [hasFolder, hfolders]
  exact h.unmade

theorem Open.destination_eq (h : f.Open path place) : f.destination path = f.lookUp place := by
  obtain ⟨front, name, outer, hsplit, hfront, hhere, hdots, hshort, rfl⟩ := h.steps
  rw [destination, if_pos h.legal, hsplit, List.foldl_append, hfront, List.foldl_cons,
    List.foldl_nil, follow, hhere, hdots]
  simp only [Bool.false_eq_true, if_false]
  rw [if_pos hshort]

theorem Open.text?_eq (h : f.Open path place) : f.text? path = f.files.find? place.path := by
  rw [text?, h.destination_eq, lookUp, h.unmade]
  simp only [Bool.false_eq_true, if_false]
  cases f.files.find? place.path <;> rfl

theorem isAt_lookUp {p : Place} (h : (f.lookUp p).IsAt place) :
    place = p ∧ f.hasFolder p = false := by
  unfold lookUp at h
  cases hfolder : f.hasFolder p with
  | true => simp [hfolder, Destination.IsAt] at h
  | false =>
    rw [hfolder] at h
    cases hfile : f.files.find? p.path <;> simp_all [Destination.IsAt]

/-- **Open paths** are those that lead to a file or to a name that is free. -/
theorem open_of_isAt (h : (f.destination path).IsAt place) : f.Open path place := by
  unfold destination at h
  split_ifs at h with hlegal
  · rcases List.eq_nil_or_concat (Text.split '/' path) with hnil | ⟨front, name, hsplit⟩
    · rw [hnil] at h
      simp [Destination.IsAt] at h
    · rw [List.concat_eq_append] at hsplit
      rw [hsplit, List.foldl_append, List.foldl_cons, List.foldl_nil] at h
      cases hfront : front.foldl f.follow (.folder []) with
      | folder outer =>
        rw [hfront, follow] at h
        split_ifs at h with hhere hdots hshort
        · simp [Destination.IsAt] at h
        · simp [Destination.IsAt] at h
        · obtain ⟨rfl, hunmade⟩ := isAt_lookUp h
          refine ⟨hlegal, ⟨front, name, outer, hsplit, hfront, ?_, ?_, hshort, rfl⟩, hunmade⟩
          · simpa using hhere
          · simpa using hdots
        · simp [Destination.IsAt] at h
      | _ =>
        rw [hfront, follow] at h
        simp [Destination.IsAt] at h
  · simp [Destination.IsAt] at h

theorem Open.isAt (h : f.Open path place) : (f.destination path).IsAt place := by
  rw [h.destination_eq, lookUp, h.unmade]
  simp only [Bool.false_eq_true, if_false]
  cases f.files.find? place.path with
  | some text => exact .inl ⟨text, rfl⟩
  | none => exact .inr rfl

/-- **No folder is made on an open path.** -/
theorem Open.withParents_eq (h : f.Open path place) : f.withParents path = f := by
  obtain ⟨front, name, outer, hsplit, hfront, hhere, -⟩ := h.steps
  have hpieces : pieces path = (front.filter fun piece => !isHere piece) ++ [name] := by
    rw [pieces, hsplit, List.filter_append, List.filter_singleton, hhere]
    rfl
  rw [withParents, hpieces, List.dropLast_concat, foldl_enter hfront]

theorem exists_open_of_text? {text : String} (h : f.text? path = some text) :
    ∃ place, f.Open path place := by
  unfold text? at h
  cases hd : f.destination path with
  | file place text' => exact ⟨place, open_of_isAt (hd ▸ .inl ⟨text', rfl⟩)⟩
  | _ => simp [hd] at h

/-! ### Writes -/

/-- Writes succeed exactly under open paths, and change the file at the place. -/
theorem update?_eq_some_iff {change : Option String → String} : f.update? path change = some g ↔
    ∃ place, f.Open path place ∧ g = { f with files := f.files.alter place.path change } := by
  unfold update?
  constructor
  · intro h
    cases hd : f.destination path with
    | file place text =>
      rw [hd] at h
      exact ⟨place, open_of_isAt (hd ▸ .inl ⟨text, rfl⟩), (Option.some.inj h).symm⟩
    | free place =>
      rw [hd] at h
      exact ⟨place, open_of_isAt (hd ▸ .inr rfl), (Option.some.inj h).symm⟩
    | _ => simp [hd] at h
  · rintro ⟨place, hopen, rfl⟩
    rcases hopen.isAt with ⟨text, hd⟩ | hd
    · rw [hd]
    · rw [hd]

/-- **What is written under a path** stands there. -/
theorem text?_of_update? {change : Option String → String} (h : f.update? path change = some g) :
    g.text? path = some (change (f.text? path)) := by
  obtain ⟨place, hopen, rfl⟩ := update?_eq_some_iff.mp h
  have hopen' := hopen.of_folders (g := { f with files := f.files.alter place.path change }) rfl
  rw [hopen'.text?_eq, hopen.text?_eq, OrderedMap.find?_alter, if_pos rfl]

/-- **What stands at another place** is left as it is. -/
theorem text?_of_update?_of_ne {other : String} {change : Option String → String}
    (h : f.update? path change = some g) (hne : ∀ {place place' : Place}, f.Open path place →
      f.Open other place' → place'.path ≠ place.path) : g.text? other = f.text? other := by
  obtain ⟨place, hopen, hg⟩ := update?_eq_some_iff.mp h
  have hfolders : g.folders = f.folders := by rw [hg]
  by_cases hother : ∃ place', f.Open other place'
  · obtain ⟨place', hother⟩ := hother
    rw [(hother.of_folders hfolders).text?_eq, hother.text?_eq, hg, OrderedMap.find?_alter,
      if_neg (hne hopen hother)]
  · -- no write makes a path open
    have hnone : ∀ g' : Folder, g'.folders = f.folders → g'.text? other = none := by
      intro g' hfolders'
      rw [Option.eq_none_iff_forall_ne_some]
      intro text htext
      obtain ⟨place', hopen'⟩ := exists_open_of_text? htext
      exact hother ⟨place', hopen'.of_folders hfolders'.symm⟩
    rw [hnone g hfolders, hnone f rfl]

end Folder

/-! ### Logs -/

section logs
variable {f g : Folder} {path entry : String}

theorem appendLog_eq_ok : (appendLog path entry).outcome f = (.ok (), g) ↔
    (f.withParents path).update? path (fun before => before.getD "" ++ entry) = some g := by
  rw [appendLog, Attempt.outcome_of]
  dsimp only
  cases (f.withParents path).update? path fun before => before.getD "" ++ entry <;> simp

theorem text?_of_appended (h : (appendLog path entry).outcome f = (.ok (), g)) :
    g.text? path = some (((f.withParents path).text? path).getD "" ++ entry) :=
  Folder.text?_of_update? (appendLog_eq_ok.mp h)

/-- **A log that has text** takes every entry, behind this text. -/
theorem exists_appended {text : String} (h : f.text? path = some text) (entry : String) :
    ∃ g, (appendLog path entry).outcome f = (.ok (), g) ∧ g.text? path = some (text ++ entry) := by
  obtain ⟨place, hopen⟩ := Folder.exists_open_of_text? h
  obtain ⟨g, hg⟩ : ∃ g, (appendLog path entry).outcome f = (.ok (), g) := by
    simp only [appendLog_eq_ok, hopen.withParents_eq]
    exact ⟨_, Folder.update?_eq_some_iff.mpr ⟨place, hopen, rfl⟩⟩
  refine ⟨g, hg, ?_⟩
  rw [text?_of_appended hg, hopen.withParents_eq, h, Option.getD_some]

end logs

end LatticeWalk
