import Mathlib
import LatticeWalk.Coin.Params
import LatticeWalk.Proofs.Exact
import LatticeWalk.Proofs.Fallible
import LatticeWalk.Proofs.Lookup
import LatticeWalk.Proofs.Pieces

/-! # Parameters as records

Written parameters are pieces between commas, each of which gives a key its value. The order of the
pieces, blank pieces and blanks around a piece, a key or a value say nothing.

* `ParamValue.Spelled`: the texts of a value, in terms of those of numbers.
* `CoinParams.Gives`: a piece gives a key a value.
* `CoinParams.IsRecord`: pieces that give different keys their values.
* `CoinParams.Rearranged`: the same pieces in another order or with other blanks.
* `CoinParams.read_as_record`: what is read is what the pieces give. -/

namespace LatticeWalk

open LatticeWalk.Text

/-! ### Values -/

namespace ParamValue

theorem insideBrackets_eq_some {s inner : String} :
    insideBrackets s = some inner ↔ s = "[" ++ inner ++ "]" := by
  have hlist : (s = "[" ++ inner ++ "]") ↔ s.toList = '[' :: (inner.toList ++ [']']) := by
    rw [← String.toList_inj]
    simp
  rw [hlist, insideBrackets]
  constructor
  · intro h
    split at h
    case h_2 => cases h
    case h_1 cs hs =>
      split at h
      case h_2 => cases h
      case h_1 letters hcs =>
        cases h
        rw [hs, String.toList_ofList, ← List.reverse_cons, ← hcs, List.reverse_reverse]
  · intro h
    simp [h]

theorem insideBrackets_eq_none {s : String} :
    insideBrackets s = none ↔ ∀ inner, s ≠ "[" ++ inner ++ "]" := by
  simp [Option.eq_none_iff_forall_ne_some, insideBrackets_eq_some]

variable {R : Type} [Scalar R]

/-- **The texts of a value**, but for blanks around it: a number by itself, or numbers in brackets
with semicolons between them, and none of them if only blanks stand in the brackets. -/
inductive Spelled : String → ParamValue R → Prop
  | scalar {text : String} {x : R} (plain : ∀ inner, trim text ≠ "[" ++ inner ++ "]")
      (number : readNumber (trim text) = .ok x) : Spelled text (scalar x)
  | noItems {text inner : String} (brackets : trim text = "[" ++ inner ++ "]")
      (blank : AllBlank inner) : Spelled text (list [])
  | items {text inner : String} {items : List String} {xs : List R}
      (brackets : trim text = "[" ++ inner ++ "]") (notBlank : ¬ AllBlank inner)
      (cut : Joined ';' inner items)
      (numbers : List.Forall₂ (fun item x => readNumber item = .ok x) items xs) :
      Spelled text (list xs)

theorem read_eq_ok {text : String} {v : ParamValue R} : read text = .ok v ↔ Spelled text v := by
  rw [read]
  constructor
  · intro h
    split at h
    case h_1 hplain =>
      obtain ⟨x, hx, rfl⟩ := Except.map_eq_ok.mp h
      exact .scalar (insideBrackets_eq_none.mp hplain) hx
    case h_2 inner hinner =>
      have hbrackets := insideBrackets_eq_some.mp hinner
      split_ifs at h with hempty
      · cases h
        exact .noItems hbrackets (trim_eq_empty.mp (String.isEmpty_iff.mp hempty))
      · obtain ⟨xs, hxs, rfl⟩ := Except.map_eq_ok.mp h
        have hblank : ¬ AllBlank inner := fun hall =>
          hempty (String.isEmpty_iff.mpr (trim_eq_empty.mpr hall))
        exact .items hbrackets hblank (joined_iff.mpr rfl) (Except.mapM_eq_ok.mp hxs)
  · rintro (⟨hplain, hx⟩ | ⟨hbrackets, hblank⟩ | ⟨hbrackets, hblank, hcut, hxs⟩)
    · simp only [insideBrackets_eq_none.mpr hplain, hx]
      rfl
    · simp only [insideBrackets_eq_some.mpr hbrackets, trim_eq_empty.mpr hblank]
      rfl
    · have hempty : ¬ (trim _).isEmpty = true := fun h =>
        hblank (trim_eq_empty.mp (String.isEmpty_iff.mp h))
      simp only [insideBrackets_eq_some.mpr hbrackets, if_neg hempty, ← joined_iff.mp hcut,
        Except.mapM_eq_ok.mpr hxs]
      rfl

theorem Spelled.congr {text text' : String} {v : ParamValue R} (h : Spelled text v)
    (htrim : trim text = trim text') : Spelled text' v := by
  rw [← read_eq_ok, read] at h ⊢
  rwa [← htrim]

theorem Spelled.unique {text : String} {v v' : ParamValue R} (h : Spelled text v)
    (h' : Spelled text v') : v = v' := by
  rw [← read_eq_ok] at h h'
  exact Except.ok.inj (h.symm.trans h')

end ParamValue

namespace CoinParams

/-! ### Pieces -/

/-- In front of the first equals sign of a piece stands a key, with blanks around it, and behind it
`text`. -/
def Assigns (piece key text : String) : Prop :=
  ∃ left, piece = left ++ "=" ++ text ∧ '=' ∉ left.toList ∧ trim left = key

/-- A piece has the key in front of its first equals sign. -/
def Names (piece key : String) : Prop := ∃ text, Assigns piece key text

/-- No key stands in both pieces. -/
def Apart (piece piece' : String) : Prop := ∀ key, Names piece key → ¬ Names piece' key

theorem splitOnce_eq_some {piece left text : String} :
    splitOnce '=' piece = some (left, text) ↔ piece = left ++ "=" ++ text ∧ '=' ∉ left.toList :=
  Text.splitOnce_eq_some

theorem Assigns.unique {piece key key' text text' : String} (h : Assigns piece key text)
    (h' : Assigns piece key' text') : key = key' ∧ text = text' := by
  obtain ⟨left, hpiece, hleft, rfl⟩ := h
  obtain ⟨left', hpiece', hleft', rfl⟩ := h'
  have hcut := splitOnce_eq_some.mpr ⟨hpiece, hleft⟩
  rw [splitOnce_eq_some.mpr ⟨hpiece', hleft'⟩] at hcut
  cases hcut
  exact ⟨rfl, rfl⟩

theorem Names.unique {piece key key' : String} (h : Names piece key) (h' : Names piece key') :
    key = key' := by
  obtain ⟨text, h⟩ := h
  obtain ⟨text', h'⟩ := h'
  exact (h.unique h').1

theorem Assigns.mem {piece key text : String} (h : Assigns piece key text) :
    '=' ∈ piece.toList := by
  obtain ⟨left, rfl, -, -⟩ := h
  simp

theorem notMem_of_allBlank {s : String} (h : AllBlank s) : '=' ∉ s.toList := by
  intro hmem
  have hblank := h '=' hmem
  cases hblank

theorem not_names_of_allBlank {piece key : String} (h : AllBlank piece) : ¬ Names piece key :=
  fun ⟨_, hassigns⟩ => notMem_of_allBlank h hassigns.mem

theorem Apart.symm {piece piece' : String} (h : Apart piece piece') : Apart piece' piece :=
  fun key hnames' hnames => h key hnames hnames'

section values
variable {R : Type} [Scalar R]

/-- **A piece gives a key a value**: the key, which must not be empty, stands in front of its first
equals sign, and a text of the value behind it. -/
def Gives (piece key : String) (v : ParamValue R) : Prop :=
  ∃ text, Assigns piece key text ∧ key ≠ "" ∧ ParamValue.Spelled text v

theorem Gives.names {piece key : String} {v : ParamValue R} (h : Gives piece key v) :
    Names piece key := by
  obtain ⟨text, hassigns, -, -⟩ := h
  exact ⟨text, hassigns⟩

theorem Gives.unique {piece key key' : String} {v v' : ParamValue R} (h : Gives piece key v)
    (h' : Gives piece key' v') : key = key' ∧ v = v' := by
  obtain ⟨text, hassigns, -, hv⟩ := h
  obtain ⟨text', hassigns', -, hv'⟩ := h'
  obtain ⟨rfl, rfl⟩ := hassigns.unique hassigns'
  exact ⟨rfl, hv.unique hv'⟩

/-- A piece is added if it gives a new key its value. -/
theorem addSegment_eq_ok {params params' : CoinParams R} {piece : String} :
    addSegment ParamValue.read params piece = .ok params' ↔
      ∃ key v, Gives piece key v ∧ params.find? key = none ∧ params' = params.insert key v := by
  rw [addSegment]
  constructor
  · intro h
    split at h
    case h_1 => cases h
    case h_2 left text hcut =>
      obtain ⟨hpiece, hleft⟩ := splitOnce_eq_some.mp hcut
      simp only at h
      split_ifs at h with hempty hfound
      · cases h
      · cases h
      · obtain ⟨v, hv, hparams⟩ := Except.bind_eq_ok.mp h
        cases hparams
        refine ⟨trim left, v, ⟨text, ⟨left, hpiece, hleft, rfl⟩, ?_, ParamValue.read_eq_ok.mp hv⟩,
          by simpa using hfound, rfl⟩
        exact fun hkey => hempty (String.isEmpty_iff.mpr hkey)
  · rintro ⟨key, v, ⟨text, ⟨left, hpiece, hleft, rfl⟩, hkey, hv⟩, hfresh, rfl⟩
    have hempty : ¬ (trim left).isEmpty = true := fun h => hkey (String.isEmpty_iff.mp h)
    have hfound : ¬ (params.find? (trim left)).isSome = true := by simp [hfresh]
    simp only [splitOnce_eq_some.mpr ⟨hpiece, hleft⟩, if_neg hempty, if_neg hfound,
      ParamValue.read_eq_ok.mpr hv]
    rfl

/-! ### One piece after the other -/

/-- Pieces that can be added to parameters: they give different keys, all of them new. -/
structure Fits (params : CoinParams R) (pieces : List String) : Prop where
  gives : ∀ piece ∈ pieces, ∃ key, ∃ v : ParamValue R, Gives piece key v
  distinct : pieces.Pairwise Apart
  fresh : ∀ piece ∈ pieces, ∀ key, Names piece key → params.find? key = none

/-- What stands at the keys once the pieces are added to parameters. -/
def Holds (params : CoinParams R) (pieces : List String) (params' : CoinParams R) : Prop :=
  ∀ key v, params'.find? key = some v ↔
    params.find? key = some v ∨ ∃ piece ∈ pieces, Gives piece key v

theorem fits_cons {params : CoinParams R} {piece : String} {pieces : List String} :
    Fits params (piece :: pieces) ↔
      ∃ key v, Gives piece key v ∧ params.find? key = none ∧ Fits (params.insert key v) pieces := by
  constructor
  · rintro ⟨hgives, hdistinct, hfresh⟩
    obtain ⟨⟨key, v, hv⟩, hgives⟩ := List.forall_mem_cons.mp hgives
    obtain ⟨hapart, hdistinct⟩ := List.pairwise_cons.mp hdistinct
    obtain ⟨hnew, hfresh⟩ := List.forall_mem_cons.mp hfresh
    refine ⟨key, v, hv, hnew key hv.names, hgives, hdistinct, fun other hother key' hkey' => ?_⟩
    refine OrderedMap.find?_insert_eq_none.mpr ⟨?_, hfresh other hother key' hkey'⟩
    rintro rfl
    exact hapart other hother key' hv.names hkey'
  · rintro ⟨key, v, hv, hnew, hgives, hdistinct, hfresh⟩
    -- a key that is new behind the first piece is new in front of it, and not the one given there
    have hall : ∀ other ∈ pieces, ∀ key', Names other key' →
        key' ≠ key ∧ params.find? key' = none := fun other hother key' hkey' =>
      OrderedMap.find?_insert_eq_none.mp (hfresh other hother key' hkey')
    refine ⟨List.forall_mem_cons.mpr ⟨⟨key, v, hv⟩, hgives⟩,
      List.pairwise_cons.mpr ⟨fun other hother key' hkey hkey' => ?_, hdistinct⟩,
      List.forall_mem_cons.mpr ⟨fun key' hkey' => ?_, fun other hother key' hkey' => ?_⟩⟩
    · exact (hall other hother key' hkey').1 (hkey.unique hv.names)
    · rwa [hkey'.unique hv.names]
    · exact (hall other hother key' hkey').2

theorem holds_cons {params params' : CoinParams R} {piece key : String} {v : ParamValue R}
    {pieces : List String} (hv : Gives piece key v) (hnew : params.find? key = none) :
    Holds params (piece :: pieces) params' ↔ Holds (params.insert key v) pieces params' := by
  refine forall₂_congr fun key' v' => iff_congr Iff.rfl ?_
  have hfirst : (params.find? key' = some v' ∨ Gives piece key' v') ↔
      (params.insert key v).find? key' = some v' := by
    rw [OrderedMap.find?_insert]
    split_ifs with hkey
    · subst hkey
      rw [hnew, Option.some_inj]
      constructor
      · rintro (h | h)
        · cases h
        · exact (hv.unique h).2
      · rintro rfl
        exact .inr hv
    · exact or_iff_left fun h => hkey (h.unique hv).1
  rw [List.exists_mem_cons_iff, ← or_assoc, hfirst]

/-- **Adding pieces** that fit gives the parameters that hold what they give. -/
theorem foldlM_eq_ok {params params' : CoinParams R} {pieces : List String} :
    pieces.foldlM (addSegment ParamValue.read) params = .ok params' ↔
      Fits params pieces ∧ Holds params pieces params' := by
  induction pieces generalizing params with
  | nil =>
    constructor
    · intro h
      cases h
      exact ⟨⟨by simp, .nil, by simp⟩, by simp [Holds]⟩
    · rintro ⟨-, hholds⟩
      have hsame : params = params' :=
        OrderedMap.ext_find? fun key => Option.ext fun v => by simp [hholds key v]
      rw [hsame]
      rfl
  | cons piece pieces ih =>
    rw [List.foldlM_cons, Except.bind_eq_ok]
    simp only [addSegment_eq_ok, ih]
    constructor
    · rintro ⟨_, ⟨key, v, hv, hnew, rfl⟩, hfits, hholds⟩
      exact ⟨fits_cons.mpr ⟨key, v, hv, hnew, hfits⟩, (holds_cons hv hnew).mpr hholds⟩
    · rintro ⟨hfits, hholds⟩
      obtain ⟨key, v, hv, hnew, hfits⟩ := fits_cons.mp hfits
      exact ⟨_, ⟨key, v, hv, hnew, rfl⟩, hfits, (holds_cons hv hnew).mp hholds⟩

theorem Fits.exists_holds {params : CoinParams R} {pieces : List String} (h : Fits params pieces) :
    ∃ params', Holds params pieces params' := by
  induction pieces generalizing params with
  | nil => exact ⟨params, by simp [Holds]⟩
  | cons piece pieces ih =>
    obtain ⟨key, v, hv, hnew, hfits⟩ := fits_cons.mp h
    obtain ⟨params', hholds⟩ := ih hfits
    exact ⟨params', (holds_cons hv hnew).mpr hholds⟩

end values

/-! ### Blanks and order -/

/-- The same piece with blanks added at its ends or beside its first equals sign. -/
inductive Spaced : String → String → Prop
  | ends {a b : String} (piece : String) (ha : AllBlank a) (hb : AllBlank b) :
      Spaced piece (a ++ piece ++ b)
  | beside {a b : String} (left right : String) (hleft : '=' ∉ left.toList) (ha : AllBlank a)
      (hb : AllBlank b) : Spaced (left ++ "=" ++ right) (left ++ a ++ "=" ++ b ++ right)

/-- **The same record, written in another way**: pieces in another order, with blank pieces among
them, or with blanks around pieces, keys and values. -/
inductive Rearranged : List String → List String → Prop
  | permuted {pieces pieces' : List String} (h : pieces.Perm pieces') : Rearranged pieces pieces'
  | blank {piece : String} (h : AllBlank piece) (pieces : List String) :
      Rearranged pieces (piece :: pieces)
  | spaced {piece piece' : String} (h : Spaced piece piece') (pieces : List String) :
      Rearranged (piece :: pieces) (piece' :: pieces)
  | symm {pieces pieces' : List String} (h : Rearranged pieces pieces') : Rearranged pieces' pieces
  | trans {pieces pieces' pieces'' : List String} (h : Rearranged pieces pieces')
      (h' : Rearranged pieces' pieces'') : Rearranged pieces pieces''

/-- Pieces that are the same but for blanks around them and around their two parts. -/
inductive Alike : String → String → Prop
  | whole {piece piece' : String} (h : '=' ∉ piece.toList) (h' : '=' ∉ piece'.toList)
      (same : trim piece = trim piece') : Alike piece piece'
  | parts {left left' right right' : String} (h : '=' ∉ left.toList) (h' : '=' ∉ left'.toList)
      (key : trim left = trim left') (text : trim right = trim right') :
      Alike (left ++ "=" ++ right) (left' ++ "=" ++ right')

theorem Spaced.alike {piece piece' : String} (h : Spaced piece piece') : Alike piece piece' := by
  cases h with
  | @ends a b _ ha hb =>
    cases hcut : splitOnce '=' piece with
    | none =>
      -- blanks add no equals sign where there was none
      have hpiece := Text.splitOnce_eq_none.mp hcut
      have hpadded : '=' ∉ (a ++ piece ++ b).toList := by
        simp [notMem_of_allBlank ha, hpiece, notMem_of_allBlank hb]
      exact .whole hpiece hpadded (trim_pad ha hb piece).symm
    | some parts =>
      obtain ⟨rfl, hleft⟩ := splitOnce_eq_some.mp hcut
      have hpiece : a ++ (parts.1 ++ "=" ++ parts.2) ++ b =
          (a ++ parts.1) ++ "=" ++ (parts.2 ++ b) := by simp only [String.append_assoc]
      have hfront : '=' ∉ (a ++ parts.1).toList := by simp [notMem_of_allBlank ha, hleft]
      rw [hpiece]
      exact .parts hleft hfront (trim_append_left ha _).symm (trim_append_right hb _).symm
  | @beside a b left right hleft ha hb =>
    have hpiece : left ++ a ++ "=" ++ b ++ right = (left ++ a) ++ "=" ++ (b ++ right) := by
      simp only [String.append_assoc]
    have hfront : '=' ∉ (left ++ a).toList := by simp [notMem_of_allBlank ha, hleft]
    rw [hpiece]
    exact .parts hleft hfront (trim_append_right ha _).symm (trim_append_left hb _).symm

theorem Alike.symm {piece piece' : String} (h : Alike piece piece') : Alike piece' piece := by
  cases h with
  | whole h h' same => exact .whole h' h same.symm
  | parts h h' key text => exact .parts h' h key.symm text.symm

theorem Alike.allBlank {piece piece' : String} (h : Alike piece piece') (hblank : AllBlank piece) :
    AllBlank piece' := by
  cases h with
  | whole h h' same =>
    rw [← trim_eq_empty, ← same]
    exact trim_eq_empty.mpr hblank
  | parts h h' key text => exact absurd (by simp) (notMem_of_allBlank hblank)

theorem Alike.assigns {piece piece' key text : String} (h : Alike piece piece')
    (hassigns : Assigns piece key text) :
    ∃ text', Assigns piece' key text' ∧ trim text = trim text' := by
  cases h with
  | whole h => exact absurd hassigns.mem h
  | @parts left left' right right' h h' hkey htext =>
    obtain ⟨rfl, rfl⟩ := hassigns.unique ⟨left, rfl, h, rfl⟩
    exact ⟨right', ⟨left', rfl, h', hkey.symm⟩, htext⟩

theorem Alike.names {piece piece' key : String} (h : Alike piece piece') (hnames : Names piece key) :
    Names piece' key := by
  obtain ⟨text, hassigns⟩ := hnames
  obtain ⟨text', hassigns', -⟩ := h.assigns hassigns
  exact ⟨text', hassigns'⟩

theorem Rearranged.cons (piece : String) {pieces pieces' : List String}
    (h : Rearranged pieces pieces') : Rearranged (piece :: pieces) (piece :: pieces') := by
  induction h with
  | permuted h => exact .permuted (h.cons piece)
  | blank h pieces => exact .trans (.blank h _) (.permuted (.swap _ _ _))
  | spaced h pieces =>
    exact .trans (.permuted (.swap _ _ _)) (.trans (.spaced h _) (.permuted (.swap _ _ _)))
  | symm _ ih => exact ih.symm
  | trans _ _ ih ih' => exact ih.trans ih'

/-- The trimmed pieces without the blank ones are the same record. -/
theorem rearranged_trim (pieces : List String) :
    Rearranged pieces ((pieces.map trim).filter fun piece => !piece.isEmpty) := by
  induction pieces with
  | nil => exact .permuted .rfl
  | cons piece pieces ih =>
    rw [List.map_cons, List.filter_cons]
    split_ifs with hempty
    · obtain ⟨a, b, ha, hb, hpiece⟩ := exists_pad piece
      have hspaced : Spaced (trim piece) piece := by
        conv_rhs => rw [hpiece]
        exact .ends _ ha hb
      exact .trans (.symm (.spaced hspaced _)) (ih.cons _)
    · have hblank : AllBlank piece := trim_eq_empty.mp (by simpa using hempty)
      exact .trans (.symm (.blank hblank _)) ih

section records
variable {R : Type} [Scalar R]

theorem Alike.gives {piece piece' key : String} {v : ParamValue R} (h : Alike piece piece')
    (hgives : Gives piece key v) : Gives piece' key v := by
  obtain ⟨text, hassigns, hkey, hv⟩ := hgives
  obtain ⟨text', hassigns', htrim⟩ := h.assigns hassigns
  exact ⟨text', hassigns', hkey, hv.congr htrim⟩

variable (R) in
/-- **Pieces that make up a record**: each of them that is not blank gives a key a value, and no two
have the same key. -/
structure IsRecord (pieces : List String) : Prop where
  gives : ∀ piece ∈ pieces, ¬ AllBlank piece → ∃ key, ∃ v : ParamValue R, Gives piece key v
  distinct : pieces.Pairwise Apart

theorem isRecord_cons {piece : String} {pieces : List String} :
    IsRecord R (piece :: pieces) ↔
      (¬ AllBlank piece → ∃ key, ∃ v : ParamValue R, Gives piece key v) ∧
        (∀ other ∈ pieces, Apart piece other) ∧ IsRecord R pieces := by
  constructor
  · rintro ⟨hgives, hdistinct⟩
    obtain ⟨hpiece, hgives⟩ := List.forall_mem_cons.mp hgives
    obtain ⟨hapart, hdistinct⟩ := List.pairwise_cons.mp hdistinct
    exact ⟨hpiece, hapart, hgives, hdistinct⟩
  · rintro ⟨hpiece, hapart, hgives, hdistinct⟩
    exact ⟨List.forall_mem_cons.mpr ⟨hpiece, hgives⟩, List.pairwise_cons.mpr ⟨hapart, hdistinct⟩⟩

theorem IsRecord.of_alike {piece piece' : String} {pieces : List String} (h : Alike piece piece')
    (hrecord : IsRecord R (piece :: pieces)) : IsRecord R (piece' :: pieces) := by
  obtain ⟨hpiece, hapart, hrecord⟩ := isRecord_cons.mp hrecord
  refine isRecord_cons.mpr ⟨fun hblank => ?_, fun other hother key hkey => ?_, hrecord⟩
  · obtain ⟨key, v, hv⟩ := hpiece fun hall => hblank (h.allBlank hall)
    exact ⟨key, v, h.gives hv⟩
  · exact hapart other hother key (h.symm.names hkey)

theorem Rearranged.isRecord_iff {pieces pieces' : List String} (h : Rearranged pieces pieces') :
    IsRecord R pieces ↔ IsRecord R pieces' := by
  induction h with
  | permuted h =>
    have hdistinct := h.pairwise_iff (R := Apart) fun {_ _} => Apart.symm
    exact ⟨fun ⟨hgives, h'⟩ => ⟨fun piece hp => hgives piece (h.mem_iff.mpr hp), hdistinct.mp h'⟩,
      fun ⟨hgives, h'⟩ => ⟨fun piece hp => hgives piece (h.mem_iff.mp hp), hdistinct.mpr h'⟩⟩
  | blank h pieces =>
    rw [isRecord_cons]
    exact ⟨fun hrecord => ⟨fun hblank => absurd h hblank,
      fun _ _ key hkey => absurd hkey (not_names_of_allBlank h), hrecord⟩, fun h => h.2.2⟩
  | spaced h pieces => exact ⟨.of_alike h.alike, .of_alike h.alike.symm⟩
  | symm _ ih => exact ih.symm
  | trans _ _ ih ih' => exact ih.trans ih'

theorem Rearranged.gives_iff {pieces pieces' : List String} (h : Rearranged pieces pieces')
    {key : String} {v : ParamValue R} :
    (∃ piece ∈ pieces, Gives piece key v) ↔ ∃ piece ∈ pieces', Gives piece key v := by
  induction h with
  | permuted h => simp only [h.mem_iff]
  | blank h pieces =>
    rw [List.exists_mem_cons_iff]
    exact (or_iff_right fun hv => not_names_of_allBlank h hv.names).symm
  | spaced h pieces =>
    rw [List.exists_mem_cons_iff, List.exists_mem_cons_iff]
    exact or_congr_left ⟨h.alike.gives, h.alike.symm.gives⟩
  | symm _ ih => exact ih.symm
  | trans _ _ ih ih' => exact ih.trans ih'

/-! ### What is read -/

theorem fits_segments {s : String} : Fits (.empty : CoinParams R) (segments s) ↔
    IsRecord R (segments s) := by
  constructor
  · rintro ⟨hgives, hdistinct, -⟩
    exact ⟨fun piece hpiece _ => hgives piece hpiece, hdistinct⟩
  · rintro ⟨hgives, hdistinct⟩
    -- what is left of a piece after trimming is not blank, or it was dropped
    refine ⟨fun piece hpiece => hgives piece hpiece fun hblank => ?_, hdistinct, fun _ _ _ _ => rfl⟩
    obtain ⟨hmem, hempty⟩ := List.mem_filter.mp hpiece
    obtain ⟨whole, -, rfl⟩ := List.mem_map.mp hmem
    rw [← trim_eq_empty, trim_trim] at hblank
    simp [hblank] at hempty

theorem Rearranged.fits_iff {s : String} {pieces : List String}
    (h : Rearranged pieces (segments s)) :
    Fits (.empty : CoinParams R) (segments s) ↔ IsRecord R pieces :=
  fits_segments.trans h.isRecord_iff.symm

theorem rearranged_segments {s : String} {pieces : List String} (h : Joined ',' s pieces) :
    Rearranged pieces (segments s) := by
  rw [segments, ← joined_iff.mp h]
  exact rearranged_trim pieces

theorem read_eq_ok {s : String} {pieces : List String} (h : Joined ',' s pieces)
    {params : CoinParams R} :
    read s = .ok params ↔ IsRecord R pieces ∧
      ∀ key v, params.find? key = some v ↔ ∃ piece ∈ pieces, Gives piece key v := by
  have hsame := rearranged_segments h
  have hholds : Holds .empty (segments s) params ↔
      ∀ key v, params.find? key = some v ↔ ∃ piece ∈ pieces, Gives piece key v := by
    refine forall₂_congr fun key v => ?_
    rw [OrderedMap.find?_empty, hsame.gives_iff]
    simp
  rw [read, readWith, foldlM_eq_ok, hsame.fits_iff, hholds]

variable (R) in
/-- **Parameters are unordered records**: those of a text can be read exactly if every piece between
commas that is not blank gives a key a value and no two have the same key. They hold what the
pieces give and nothing else, and so they are read from any text with the same pieces in another
order, with blank pieces among them or with other blanks. -/
theorem read_as_record (s : String) :
    (∃ pieces, Joined ',' s pieces) ∧
    ∀ pieces, Joined ',' s pieces →
      ((∃ params : CoinParams R, read s = .ok params) ↔ IsRecord R pieces) ∧
      (∀ params : CoinParams R, read s = .ok params →
        ∀ key v, params.find? key = some v ↔ ∃ piece ∈ pieces, Gives piece key v) ∧
      ∀ t pieces', Joined ',' t pieces' → Rearranged pieces pieces' →
        ∀ params : CoinParams R, read s = .ok params ↔ read t = .ok params := by
  refine ⟨⟨_, joined_iff.mpr rfl⟩, fun pieces hpieces => ⟨⟨?_, fun hrecord => ?_⟩, ?_, ?_⟩⟩
  · rintro ⟨params, hparams⟩
    exact ((read_eq_ok hpieces).mp hparams).1
  · have hsame := rearranged_segments hpieces
    have hfits : Fits (.empty : CoinParams R) (segments s) := hsame.fits_iff.mpr hrecord
    obtain ⟨params, hholds⟩ := hfits.exists_holds
    exact ⟨params, foldlM_eq_ok.mpr ⟨hfits, hholds⟩⟩
  · intro params hparams
    exact ((read_eq_ok hpieces).mp hparams).2
  · intro t pieces' hpieces' hsame params
    rw [read_eq_ok hpieces, read_eq_ok hpieces', hsame.isRecord_iff]
    simp only [hsame.gives_iff]

/-- Two angles, and the same two the other way round with a blank piece between them. -/
theorem read_as_record_twoAngles :
    Joined ',' "theta=pi,xi=[]" ["theta=pi", "xi=[]"] ∧
      Joined ',' " xi =[],,theta= pi" [" xi =[]", "", "theta= pi"] ∧
      Rearranged ["theta=pi", "xi=[]"] [" xi =[]", "", "theta= pi"] ∧
      IsRecord ℝ ["theta=pi", "xi=[]"] ∧
      ∃ params : CoinParams ℝ, read " xi =[],,theta= pi" = .ok params ∧
        params.find? "xi" = some (.list []) := by
  have hpieces : Joined ',' "theta=pi,xi=[]" ["theta=pi", "xi=[]"] := joined_iff.mpr rfl
  have hpieces' : Joined ',' " xi =[],,theta= pi" [" xi =[]", "", "theta= pi"] :=
    joined_iff.mpr rfl
  have hblank : AllBlank " " := trim_eq_empty.mp rfl
  have htheta : Spaced "theta=pi" "theta= pi" :=
    .beside "theta" "pi" (by decide) allBlank_empty hblank
  have hxi : Spaced "xi=[]" "xi =[]" := .beside "xi" "[]" (by decide) hblank allBlank_empty
  have hends : Spaced "xi =[]" " xi =[]" := .ends "xi =[]" hblank allBlank_empty
  have hsame : Rearranged ["theta=pi", "xi=[]"] [" xi =[]", "", "theta= pi"] := by
    refine .trans (.spaced htheta _) (.trans (.blank allBlank_empty _) ?_)
    refine .trans (.permuted (List.reverse_perm _).symm) ?_
    exact .trans (.spaced hxi _) (.trans (.spaced hends _) (.permuted (.cons _ (.swap _ _ _))))
  obtain ⟨hread, hgives, hrearranged⟩ := (read_as_record ℝ "theta=pi,xi=[]").2 _ hpieces
  have hrecord : IsRecord ℝ ["theta=pi", "xi=[]"] := hread.mp ⟨_, rfl⟩
  obtain ⟨params, hparams⟩ := hread.mpr hrecord
  have hfound : params.find? "xi" = some (.list []) := by
    refine (hgives params hparams _ _).mpr ⟨"xi=[]", by simp, "[]", ⟨"xi", rfl, ?_, rfl⟩, ?_, ?_⟩
    · decide
    · decide
    · exact .noItems rfl allBlank_empty
  exact ⟨hpieces, hpieces', hsame, hrecord, params, (hrearranged _ _ hpieces' hsame params).mp hparams,
    hfound⟩

end records

end CoinParams

end LatticeWalk
