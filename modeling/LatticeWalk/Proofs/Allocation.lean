import LatticeWalk.Proofs.Keys

/-! # Requests for registers

Registers are asked for one after the other, with names, roles and widths of any kind. A request is
refused if its name is taken, and then it changes nothing; any other adds a register behind the last
one. Whatever is asked for, the registers that result tile the wires.

* `Allocator.Taken`: some request for this name was answered.
* `Allocator.Answers`: what one request does behind others; `Allocator.answers` proves it.
* `Layout.Tiles`: the registers cover the wires one after the other, under different names, and the
  width that was counted is that of all of them; `Layout.tiles` proves it of every layout.
* `Layout.Spanned`: the spans of the position are those of its registers, in order of the
  dimensions, and the last bit of the position is the greatest of their ends.
* `Layout.registers_tile`: all of this, for every sequence of requests. -/

namespace LatticeWalk

/-! ### Packed registers -/

namespace Register

theorem wires_eq (r : Register) : r.wires = List.range' r.start r.width :=
  List.range'_eq_map_range.symm

theorem PackedFrom.start_eq {s : ℕ} {rs : List Register} (h : PackedFrom s rs) {k : ℕ}
    {r : Register} (hr : rs[k]? = some r) : r.start = s + ((rs.take k).map width).sum := by
  induction rs generalizing s k with
  | nil => cases hr
  | cons r' rs ih =>
    obtain ⟨hstart, hrs⟩ := h
    cases k with
    | zero =>
      cases hr
      exact hstart
    | succ k =>
      rw [ih hrs hr, stop, hstart, List.take_succ_cons, List.map_cons, List.sum_cons, Nat.add_assoc]

theorem PackedFrom.flatMap_wires {s : ℕ} {rs : List Register} (h : PackedFrom s rs) :
    rs.flatMap wires = List.range' s (rs.map width).sum := by
  induction rs generalizing s with
  | nil => rfl
  | cons r rs ih =>
    obtain ⟨hstart, hrs⟩ := h
    rw [List.flatMap_cons, ih hrs, wires_eq, stop, hstart, List.range'_append_1, List.map_cons,
      List.sum_cons]

end Register

/-! ### Requests -/

namespace Allocator

/-- Some request for the name was answered. -/
def Taken (requests : List (String × Role × ℕ)) (name : String) : Prop :=
  ∃ before role width, before ++ [(name, role, width)] <+: requests ∧
    ∃ answer, (after before).allocate name role width = .ok answer

/-- **What one request does** behind others: it is refused exactly if its name is taken, and then it
changes nothing; else it adds one register, which starts at the counter, and the counter moves on by
its width. -/
structure Answers (before : List (String × Role × ℕ)) (name : String) (role : Role) (width : ℕ) :
    Prop where
  fails_iff : (∃ e, (after before).allocate name role width = .error e) ↔ Taken before name
  refused : Taken before name →
    (after before).allocate name role width = refuse (.registerTwice name)
  unchanged : Taken before name → after (before ++ [(name, role, width)]) = after before
  answered : ¬ Taken before name → (after before).allocate name role width =
    .ok (⟨name, role, (after before).next, width⟩, after (before ++ [(name, role, width)]))
  added : ¬ Taken before name → (after (before ++ [(name, role, width)])).registers =
    (after before).registers ++ [⟨name, role, (after before).next, width⟩]
  widened : ¬ Taken before name →
    (after (before ++ [(name, role, width)])).next = (after before).next + width

theorem after_append (requests : List (String × Role × ℕ)) (name : String) (role : Role)
    (width : ℕ) : after (requests ++ [(name, role, width)]) =
      match (after requests).allocate name role width with
      | .ok (_, a) => a
      | .error _ => after requests := by
  rw [after, List.foldl_append]
  rfl

theorem allocate_eq_refuse {a : Allocator} {name : String}
    (h : name ∈ a.registers.map Register.name) (role : Role) (width : ℕ) :
    a.allocate name role width = refuse (.registerTwice name) := by
  have hany : (a.registers.any fun r => r.name == name) = true := by simpa using h
  rw [allocate, dif_pos hany]

theorem exists_allocate {a : Allocator} {name : String}
    (h : name ∉ a.registers.map Register.name) (role : Role) (width : ℕ) :
    ∃ a', a.allocate name role width = .ok (⟨name, role, a.next, width⟩, a') := by
  have hany : ¬ (a.registers.any fun r => r.name == name) = true := by simpa using h
  rw [allocate, dif_neg hany]
  exact ⟨_, rfl⟩

theorem after_append_of_mem {requests : List (String × Role × ℕ)} {name : String}
    (h : name ∈ (after requests).registers.map Register.name) (role : Role) (width : ℕ) :
    after (requests ++ [(name, role, width)]) = after requests := by
  rw [after_append, allocate_eq_refuse h]
  rfl

theorem allocate_after {requests : List (String × Role × ℕ)} {name : String}
    (h : name ∉ (after requests).registers.map Register.name) (role : Role) (width : ℕ) :
    (after requests).allocate name role width =
      .ok (⟨name, role, (after requests).next, width⟩,
        after (requests ++ [(name, role, width)])) := by
  obtain ⟨a', ha'⟩ := exists_allocate h role width
  rw [after_append, ha']

/-- A name is taken if a register has it. -/
theorem taken_iff {requests : List (String × Role × ℕ)} {name : String} :
    Taken requests name ↔ name ∈ (after requests).registers.map Register.name := by
  induction requests using List.reverseRecOn with
  | nil =>
    refine ⟨?_, nofun⟩
    rintro ⟨before, role, width, hfront, -⟩
    simpa using List.prefix_nil.mp hfront
  | append_singleton requests q ih =>
    obtain ⟨name', role', width'⟩ := q
    -- the last request is the one that was answered, or some request before it
    have hlast : Taken (requests ++ [(name', role', width')]) name ↔ Taken requests name ∨
        name' = name ∧ name' ∉ (after requests).registers.map Register.name := by
      constructor
      · rintro ⟨before, role, width, hfront, answer, hok⟩
        rcases List.prefix_concat_iff.mp hfront with hall | hfront
        · obtain ⟨rfl, hq⟩ := List.append_inj' hall rfl
          obtain ⟨rfl, rfl, rfl⟩ : name = name' ∧ role = role' ∧ width = width' := by simpa using hq
          refine .inr ⟨rfl, fun hmem => ?_⟩
          rw [allocate_eq_refuse hmem] at hok
          cases hok
        · exact .inl ⟨before, role, width, hfront, answer, hok⟩
      · rintro (⟨before, role, width, hfront, hok⟩ | ⟨rfl, hmem⟩)
        · exact ⟨before, role, width, hfront.trans (List.prefix_append _ _), hok⟩
        · exact ⟨requests, role', width', List.prefix_rfl, _, allocate_after hmem role' width'⟩
    rw [hlast, ih]
    by_cases hmem : name' ∈ (after requests).registers.map Register.name
    · rw [after_append_of_mem hmem]
      tauto
    · rw [(allocate_eq_ok (allocate_after hmem role' width')).2.1, List.map_append, List.mem_append,
        List.map_singleton, List.mem_singleton, eq_comm]
      tauto

theorem answers (before : List (String × Role × ℕ)) (name : String) (role : Role) (width : ℕ) :
    Answers before name role width where
  fails_iff := by
    rw [taken_iff]
    by_cases h : name ∈ (after before).registers.map Register.name
    · exact ⟨fun _ => h, fun _ => ⟨_, allocate_eq_refuse h role width⟩⟩
    · rw [allocate_after h]
      exact ⟨nofun, fun hmem => absurd hmem h⟩
  refused h := allocate_eq_refuse (taken_iff.mp h) role width
  unchanged h := after_append_of_mem (taken_iff.mp h) role width
  answered h := allocate_after (taken_iff.not.mp h) role width
  added h := (allocate_eq_ok (allocate_after (taken_iff.not.mp h) role width)).2.1
  widened h := (allocate_eq_ok (allocate_after (taken_iff.not.mp h) role width)).2.2

/-- No more wires are used than were asked for. -/
theorem next_after_le (requests : List (String × Role × ℕ)) :
    (after requests).next ≤ (requests.map (·.2.2)).sum := by
  induction requests using List.reverseRecOn with
  | nil => exact le_rfl
  | append_singleton requests q ih =>
    obtain ⟨name, role, width⟩ := q
    rw [List.map_append, List.sum_append, List.map_singleton, List.sum_singleton]
    have hrest : ((name, role, width) : String × Role × ℕ).2.2 = width := rfl
    by_cases h : Taken requests name
    · rw [(answers requests name role width).unchanged h]
      omega
    · rw [(answers requests name role width).widened h]
      omega

end Allocator

/-! ### What results -/

theorem Allocated.nodup_names {rs : List Register} {next : ℕ} (h : Allocated rs next) :
    (rs.map Register.name).Nodup := by
  induction h with
  | empty => exact List.nodup_nil
  | more _ unused role width ih =>
    rw [List.map_append, List.map_singleton, List.nodup_append']
    refine ⟨ih, List.nodup_singleton _, List.disjoint_singleton.mpr fun hmem => ?_⟩
    obtain ⟨r, hr, hname⟩ := List.mem_map.mp hmem
    exact unused r hr hname

namespace Layout

/-- **The registers tile the wires**: each starts where the widths before it add up to, together
they have every wire once, and no two have a name or a wire in common. -/
structure Tiles (l : Layout) : Prop where
  width_eq : l.width = (l.registers.map Register.width).sum
  start_eq : ∀ k r, l.registers[k]? = some r →
    r.start = ((l.registers.take k).map Register.width).sum
  cover : l.registers.flatMap Register.wires = List.range l.width
  disjoint : l.registers.Pairwise fun r s => r.wires.Disjoint s.wires
  names : (l.registers.map Register.name).Nodup

/-- **The spans of the position**: in order of the dimensions, for each dimension those of its
registers that have wires, and the greatest of their ends. -/
structure Spanned (l : Layout) : Prop where
  sorted : l.stateSpans.Pairwise fun a b => a.dimension ≤ b.dimension
  spans : ∀ d, (l.stateSpans.filter fun span => span.dimension = d) =
    (l.registers.filter fun r => r.role = .dimension d ∧ r.width ≠ 0).map
      fun r => ⟨d, r.start, r.stop - 1⟩
  last : ∀ m, l.lastStateBit? = some m ↔
    (∃ span ∈ l.stateSpans, span.last = m) ∧ ∀ span ∈ l.stateSpans, span.last ≤ m
  none : l.lastStateBit? = none ↔ l.stateSpans = []

theorem tiles (l : Layout) : l.Tiles := by
  have hcover : l.registers.flatMap Register.wires = List.range l.width := by
    rw [l.packed.flatMap_wires, List.range_eq_range', ← l.width_eq]
  exact {
    width_eq := l.width_eq
    start_eq := fun k r hr => (l.packed.start_eq hr).trans (Nat.zero_add _)
    cover := hcover
    disjoint := (List.nodup_flatMap.mp (hcover ▸ List.nodup_range)).2
    names := l.allocated.nodup_names }

theorem filter_filterMap_spanOf (d : ℕ) (rs : List Register) :
    ((rs.filterMap spanOf).filter fun span => span.dimension = d) =
      (rs.filter fun r => r.role = .dimension d ∧ r.width ≠ 0).map
        fun r => ⟨d, r.start, r.stop - 1⟩ := by
  induction rs with
  | nil => rfl
  | cons r rs ih =>
    by_cases hw : r.width = 0
    · have hspan : spanOf r = none := if_pos hw
      have hrole : ¬ (r.role = .dimension d ∧ r.width ≠ 0) := fun h => h.2 hw
      rw [List.filterMap_cons_none hspan, List.filter_cons_of_neg (by simpa using hrole), ih]
    · cases hrole : r.role with
      | dimension d' =>
        have hspan : spanOf r = some ⟨d', r.start, r.stop - 1⟩ := by
          rw [spanOf, if_neg hw, dimensionOf, hrole]
          rfl
        rw [List.filterMap_cons_some hspan]
        by_cases hd : d' = d
        · subst hd
          rw [List.filter_cons_of_pos (by simp), List.filter_cons_of_pos (by simp [hrole, hw]), ih]
          rfl
        · rw [List.filter_cons_of_neg (by simpa using hd),
            List.filter_cons_of_neg (by simp [hrole, hd]), ih]
      | _ =>
        have hspan : spanOf r = none := by
          rw [spanOf, if_neg hw, dimensionOf, hrole]
          rfl
        rw [List.filterMap_cons_none hspan, List.filter_cons_of_neg (by simp [hrole]), ih]

theorem spanned (l : Layout) : l.Spanned where
  sorted := by
    have hsorted : l.stateSpans.Pairwise fun a b => decide (a.dimension ≤ b.dimension) = true :=
      List.pairwise_mergeSort (by simp; omega) (by simp; omega) (l.registers.filterMap spanOf)
    exact hsorted.imp fun h => of_decide_eq_true h
  spans d := by
    rw [stateSpans, filter_mergeSort (by simp; omega) (by simp; omega), filter_filterMap_spanOf]
    -- the spans of one dimension are all alike to the sort
    exact List.mergeSort_of_pairwise (List.pairwise_map.mpr
      (List.pairwise_of_forall fun _ _ => decide_eq_true le_rfl))
  last m := by
    rw [lastStateBit?, List.max?_eq_some_iff, List.forall_mem_map, List.mem_map]
  none := by rw [lastStateBit?, List.max?_eq_none_iff, List.map_eq_nil_iff]

/-- **Registers tile the wires.** Of any requests, in any order and with any names, roles and
widths, exactly those fail whose name was given to an earlier one, and these change nothing. The
registers of the finished layout are consecutive ranges that cover its wires, with different names
and no wire in common; the spans of the position are the ranges of the registers of its dimensions
that have wires, in order of these, and its last bit is the greatest of their ends. -/
theorem registers_tile (requests : List (String × Role × ℕ)) :
    (∀ before name role width, before ++ [(name, role, width)] <+: requests →
      Allocator.Answers before name role width) ∧
    (after requests).Tiles ∧ (after requests).Spanned ∧
    (after requests).width ≤ (requests.map (·.2.2)).sum :=
  ⟨fun before name role width _ => Allocator.answers before name role width,
    (after requests).tiles, (after requests).spanned, Allocator.next_after_le requests⟩

/-- Requests out of order, with a dimension that has two registers, one without wires and a name
that is asked for twice. -/
def mixedRequests : List (String × Role × ℕ) :=
  [("top", .dimension 1, 2), ("flat", .dimension 0, 0), ("top", .coin, 3), ("coin", .coin, 1),
    ("low", .dimension 0, 1), ("more", .dimension 1, 1)]

/-- The third of the requests is refused, the others get the wires from 0 to 4. -/
theorem registers_tile_mixed :
    (mixedRequests.take 2 ++ [("top", .coin, 3)] <+: mixedRequests ∧
      ∃ e, (Allocator.after (mixedRequests.take 2)).allocate "top" .coin 3 = .error e) ∧
    (after mixedRequests).registers.flatMap Register.wires = List.range 5 ∧
    (after mixedRequests).stateSpans.filter (fun span => span.dimension = 1) =
      [⟨1, 0, 1⟩, ⟨1, 4, 4⟩] := by
  obtain ⟨hanswers, htiles, hspanned, -⟩ := registers_tile mixedRequests
  have hfront : mixedRequests.take 2 ++ [("top", .coin, 3)] <+: mixedRequests := by decide
  have htaken : Allocator.Taken (mixedRequests.take 2) "top" :=
    ⟨[], .dimension 1, 2, by decide, _, rfl⟩
  exact ⟨⟨hfront, (hanswers _ _ _ _ hfront).fails_iff.mpr htaken⟩, htiles.cover,
    hspanned.spans 1⟩

end Layout

end LatticeWalk
