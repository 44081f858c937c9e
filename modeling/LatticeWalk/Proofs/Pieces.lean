import Mathlib
import LatticeWalk.Text.Cut

/-! # Pieces of texts

Written records are cut at separators, and what is cut out is trimmed of blanks.

* `Text.Joined`: pieces without separators that make up a text; `Text.joined_iff` says that cutting
  at every separator gives these and no others.
* `Text.splitOnce_eq_some`, `Text.splitOnce_eq_none`: cutting at the first separator.
* `Text.trim_pad`, `Text.exists_pad`: a trimmed text is the text but for blanks at its ends. -/

namespace LatticeWalk.Text

/-! ### At every separator -/

theorem cut_eq_splitOn (sep : Char) (cs : List Char) : cut (· == sep) cs = cs.splitOn sep := by
  induction cs with
  | nil => rfl
  | cons c cs ih =>
    rw [cut, List.splitOn_cons_eq_if_modifyHead, ih]
    split_ifs with h
    · rfl
    · cases hrest : List.splitOn sep cs with
      | nil => exact absurd hrest (List.splitOn_ne_nil _ _)
      | cons piece pieces => rfl

theorem split_append (sep : Char) {piece : String} (h : sep ∉ piece.toList) (rest : String) :
    split sep (piece ++ String.singleton sep ++ rest) = piece :: split sep rest := by
  have hlist : (piece ++ String.singleton sep ++ rest).toList =
      piece.toList ++ sep :: rest.toList := by simp
  rw [split, split, cut_eq_splitOn, cut_eq_splitOn, hlist,
    List.splitOn_append_cons_self_of_not_mem h, List.map_cons, String.ofList_toList]

/-- **The pieces of a text**: none of them has a separator, and with separators between them they
are the text. -/
structure Joined (sep : Char) (s : String) (pieces : List String) : Prop where
  nonempty : pieces ≠ []
  plain : ∀ piece ∈ pieces, sep ∉ piece.toList
  joined : (String.singleton sep).intercalate pieces = s

theorem notMem_of_mem_splitOn {sep : Char} {cs piece : List Char}
    (h : piece ∈ cs.splitOn sep) : sep ∉ piece := by
  induction cs generalizing piece with
  | nil => simp_all
  | cons c cs ih =>
    rw [List.splitOn_cons_eq_if_modifyHead] at h
    split_ifs at h with hc
    · rcases List.mem_cons.mp h with rfl | h
      · exact List.not_mem_nil
      · exact ih h
    · have hne : sep ≠ c := fun heq => hc (by simp [heq])
      cases hrest : List.splitOn sep cs with
      | nil => exact absurd hrest (List.splitOn_ne_nil _ _)
      | cons first pieces =>
        rw [hrest] at h ih
        rcases List.mem_cons.mp h with rfl | h
        · exact List.not_mem_cons_of_ne_of_not_mem hne (ih List.mem_cons_self)
        · exact ih (List.mem_cons_of_mem _ h)

/-- **Cutting at every separator** gives the pieces of a text. -/
theorem joined_iff {sep : Char} {s : String} {pieces : List String} :
    Joined sep s pieces ↔ pieces = split sep s := by
  rw [split, cut_eq_splitOn]
  constructor
  · rintro ⟨hne, hplain, rfl⟩
    have hcut : List.splitOn sep ([sep].intercalate (pieces.map String.toList)) =
        pieces.map String.toList :=
      List.splitOn_intercalate sep (by simpa using hplain) (by simpa using hne)
    rw [String.toList_intercalate, String.toList_singleton, hcut, List.map_map]
    simp
  · rintro rfl
    refine ⟨by simp, fun piece hpiece => ?_, ?_⟩
    · obtain ⟨cs, hcs, rfl⟩ := List.mem_map.mp hpiece
      rw [String.toList_ofList]
      exact notMem_of_mem_splitOn hcs
    · rw [← String.toList_inj, String.toList_intercalate, String.toList_singleton, List.map_map]
      simp

theorem split_of_notMem {sep : Char} {s : String} (h : sep ∉ s.toList) : split sep s = [s] :=
  (joined_iff.mp ⟨by simp, by simpa using h, by simp⟩).symm

theorem split_join {sep : Char} {pieces : List String} (h : ∀ piece ∈ pieces, sep ∉ piece.toList) :
    split sep (String.join (pieces.map (· ++ String.singleton sep))) = pieces ++ [""] := by
  induction pieces with
  | nil => rfl
  | cons piece pieces ih =>
    obtain ⟨hpiece, hpieces⟩ := List.forall_mem_cons.mp h
    rw [List.map_cons, String.join_cons, split_append sep hpiece, ih hpieces, List.cons_append]

/-- Between the pieces stand separators only. -/
theorem notMem_intercalate {c sep : Char} (hc : c ≠ sep) {pieces : List String}
    (h : ∀ piece ∈ pieces, c ∉ piece.toList) :
    c ∉ ((String.singleton sep).intercalate pieces).toList := by
  rw [String.toList_intercalate, String.toList_singleton]
  induction pieces with
  | nil => exact List.not_mem_nil
  | cons piece pieces ih =>
    obtain ⟨hpiece, hpieces⟩ := List.forall_mem_cons.mp h
    cases pieces with
    | nil => simpa using hpiece
    | cons piece' pieces =>
      rw [List.map_cons, List.map_cons, List.intercalate_cons_cons, ← List.map_cons,
        List.mem_append, List.mem_append, List.mem_singleton]
      rintro ((hmem | hmem) | hmem)
      · exact hpiece hmem
      · exact hc hmem
      · exact ih hpieces hmem

/-! ### At the first separator -/

theorem cutOnce_append {sep : Char} {left : List Char} (h : sep ∉ left) (right : List Char) :
    cutOnce sep (left ++ sep :: right) = some (left, right) := by
  induction left with
  | nil => rw [List.nil_append, cutOnce, if_pos rfl]
  | cons c left ih =>
    obtain ⟨hne, hleft⟩ := List.ne_and_not_mem_of_not_mem_cons h
    rw [List.cons_append, cutOnce, if_neg (Ne.symm hne), ih hleft]
    rfl

theorem of_cutOnce {sep : Char} {cs left right : List Char}
    (h : cutOnce sep cs = some (left, right)) : cs = left ++ sep :: right ∧ sep ∉ left := by
  induction cs generalizing left with
  | nil => cases h
  | cons c cs ih =>
    rw [cutOnce] at h
    split_ifs at h with hc
    · cases h
      exact ⟨by rw [hc, List.nil_append], List.not_mem_nil⟩
    · obtain ⟨⟨left', right'⟩, hrest, heq⟩ := Option.map_eq_some_iff.mp h
      cases heq
      obtain ⟨rfl, hleft⟩ := ih hrest
      exact ⟨rfl, List.not_mem_cons_of_ne_of_not_mem (Ne.symm hc) hleft⟩

/-- **Cutting at the first separator** gives what stands in front of it and behind it. -/
theorem splitOnce_eq_some {sep : Char} {s left right : String} :
    splitOnce sep s = some (left, right) ↔
      s = left ++ String.singleton sep ++ right ∧ sep ∉ left.toList := by
  rw [splitOnce, Option.map_eq_some_iff]
  constructor
  · rintro ⟨⟨cs, ds⟩, hcut, heq⟩
    cases heq
    obtain ⟨hs, hcs⟩ := of_cutOnce hcut
    refine ⟨?_, by rwa [String.toList_ofList]⟩
    rw [← String.toList_inj, hs]
    simp
  · rintro ⟨rfl, hleft⟩
    have hlist : (left ++ String.singleton sep ++ right).toList =
        left.toList ++ sep :: right.toList := by simp
    refine ⟨(left.toList, right.toList), ?_, ?_⟩
    · rw [hlist, cutOnce_append hleft]
    · simp

theorem splitOnce_eq_none {sep : Char} {s : String} : splitOnce sep s = none ↔ sep ∉ s.toList := by
  rw [splitOnce, Option.map_eq_none_iff]
  generalize s.toList = cs
  induction cs with
  | nil => simp [cutOnce]
  | cons c cs ih =>
    rw [cutOnce, List.mem_cons, not_or, ← ih]
    split_ifs with hc
    · simp [hc]
    · simp [Ne.symm hc]

/-! ### Blanks at the ends -/

/-- A text of blanks only. -/
def AllBlank (s : String) : Prop := ∀ c ∈ s.toList, isBlank c = true

theorem allBlank_empty : AllBlank "" := by simp [AllBlank]

theorem trim_pad {a b : String} (ha : AllBlank a) (hb : AllBlank b) (s : String) :
    trim (a ++ s ++ b) = trim s := by
  have hfront : (a ++ s ++ b).toList.dropWhile isBlank = (s ++ b).toList.dropWhile isBlank := by
    rw [String.append_assoc, String.toList_append, List.dropWhile_append_of_pos ha]
  have hback : b.toList.reverse.dropWhile isBlank = [] :=
    List.dropWhile_eq_nil_iff.mpr fun c hc => hb c (List.mem_reverse.mp hc)
  rw [trim, trim, trimChars, trimChars, hfront, String.toList_append, List.dropWhile_append]
  split_ifs with hs
  · -- nothing but blanks in front of those at the end
    rw [List.dropWhile_eq_nil_iff.mpr hb, List.isEmpty_iff.mp hs]
  · rw [List.reverse_append, List.dropWhile_append, hback]
    rfl

theorem trim_append_left {a : String} (ha : AllBlank a) (s : String) : trim (a ++ s) = trim s := by
  simpa using trim_pad ha allBlank_empty s

theorem trim_append_right {b : String} (hb : AllBlank b) (s : String) : trim (s ++ b) = trim s := by
  simpa using trim_pad allBlank_empty hb s

/-- A text is what is left of it, with blanks at its ends. -/
theorem exists_pad (s : String) : ∃ a b, AllBlank a ∧ AllBlank b ∧ s = a ++ trim s ++ b := by
  set rest := s.toList.dropWhile isBlank with hrest
  refine ⟨String.ofList (s.toList.takeWhile isBlank),
    String.ofList (rest.reverse.takeWhile isBlank).reverse, fun c hc => ?_, fun c hc => ?_, ?_⟩
  · rw [String.toList_ofList] at hc
    exact List.mem_takeWhile_imp hc
  · rw [String.toList_ofList, List.mem_reverse] at hc
    exact List.mem_takeWhile_imp hc
  · rw [← String.toList_inj]
    simp only [String.toList_append, String.toList_ofList, trim, trimChars, ← hrest]
    rw [List.append_assoc, ← List.reverse_append, List.takeWhile_append_dropWhile,
      List.reverse_reverse, List.takeWhile_append_dropWhile]

theorem trim_trim (s : String) : trim (trim s) = trim s := by
  obtain ⟨a, b, ha, hb, hs⟩ := exists_pad s
  conv_rhs => rw [hs, trim_pad ha hb]

theorem trim_of_no_blank {s : String} (h : ∀ c ∈ s.toList, isBlank c = false) : trim s = s := by
  have hdrop : ∀ cs : List Char, (∀ c ∈ cs, isBlank c = false) → cs.dropWhile isBlank = cs := by
    intro cs hcs
    cases cs with
    | nil => rfl
    | cons c cs => rw [List.dropWhile_cons, if_neg (by simp [hcs c List.mem_cons_self])]
  rw [trim, trimChars, hdrop _ h, hdrop _ fun c hc => h c (List.mem_reverse.mp hc),
    List.reverse_reverse, String.ofList_toList]

theorem trim_eq_empty {s : String} : trim s = "" ↔ AllBlank s := by
  constructor
  · intro h
    obtain ⟨a, b, ha, hb, hs⟩ := exists_pad s
    rw [h, String.append_empty] at hs
    intro c hc
    rw [hs, String.toList_append, List.mem_append] at hc
    exact hc.elim (ha c) (hb c)
  · intro h
    rw [← String.append_empty (s := s), trim_append_left h]
    rfl

end LatticeWalk.Text
