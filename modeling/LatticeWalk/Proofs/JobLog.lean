import LatticeWalk.Proofs.Fallible
import LatticeWalk.Proofs.OpenPaths
import LatticeWalk.Proofs.Pieces

/-! # The log of jobs

A job is logged as a line with its written form. The number is filled up with zeros in front, which
do not change its value, and a written form has no blanks, so that every line is read as the job
that wrote it.

* `Text.readBelow_padLeft`: numerals filled up with zeros.
* `JobId.read?_spell`: an identifier is read back from its written form.
* `logLines_logText`: the lines of a log.
* `Logged`: what folders are like in which jobs were logged, in one session or several.
* `Logged.jobs_read_back`: a log gives the jobs that were logged, in this order. -/

namespace LatticeWalk

/-! ### Numerals -/

namespace Text

/-- Digits are read as core reads them. -/
theorem digitsFrom_eq {cs : List Char} (h : ∀ c ∈ cs, c.isDigit = true) (acc : ℕ) :
    digitsFrom acc cs = some (Nat.ofDigitChars 10 cs acc) := by
  induction cs generalizing acc with
  | nil => rfl
  | cons c cs ih =>
    have hdigit : digit? c = some (c.toNat - '0'.toNat) := if_pos (h c List.mem_cons_self)
    rw [digitsFrom, hdigit, Option.bind_some, ih fun c' hc' => h c' (List.mem_cons_of_mem _ hc'),
      Nat.ofDigitChars_cons]

theorem isBlank_of_isDigit {c : Char} (h : c.isDigit = true) : isBlank c = false := by
  have hrange : 48 ≤ c.toNat ∧ c.toNat ≤ 57 := by
    simpa [Char.isDigit, UInt32.le_iff_toNat_le] using h
  simp only [isBlank, Bool.or_eq_false_iff, Bool.and_eq_false_iff, decide_eq_false_iff_not,
    beq_eq_false_iff_ne]
  omega

theorem dropPlus_of_digits {cs : List Char} (h : ∀ c ∈ cs, c.isDigit = true) :
    dropPlus cs = cs := by
  unfold dropPlus
  split
  · have hplus := h '+' List.mem_cons_self
    cases hplus
  · rfl

theorem toList_padLeft_repr (width n : ℕ) : (padLeft width '0' (Nat.repr n)).toList =
    List.replicate (width - (Nat.repr n).length) '0' ++ Nat.toDigits 10 n := by
  rw [padLeft, replicate, String.toList_append, String.toList_ofList, Nat.toList_repr]

theorem isDigit_of_mem_padLeft {width n : ℕ} :
    ∀ c ∈ (padLeft width '0' (Nat.repr n)).toList, c.isDigit = true := by
  intro c hc
  rw [toList_padLeft_repr, List.mem_append] at hc
  rcases hc with hc | hc
  · rw [List.eq_of_mem_replicate hc]
    rfl
  · exact Nat.isDigit_of_mem_toDigits (by decide) (by decide) hc

/-- **A numeral filled up with zeros** is read as its number. -/
theorem readBelow_padLeft {limit n : ℕ} (h : n < limit) (width : ℕ) :
    readBelow limit (padLeft width '0' (Nat.repr n)) = some n := by
  have hdigits : readDigits (padLeft width '0' (Nat.repr n)).toList = some n := by
    cases hcs : (padLeft width '0' (Nat.repr n)).toList with
    | nil =>
      rw [toList_padLeft_repr, List.append_eq_nil_iff] at hcs
      exact absurd hcs.2 Nat.toDigits_ne_nil
    | cons c cs =>
      rw [readDigits, ← hcs, digitsFrom_eq isDigit_of_mem_padLeft, toList_padLeft_repr,
        Nat.ofDigitChars_append, Nat.ofDigitChars_replicate_zero, Nat.mul_zero,
        Nat.ofDigitChars_ten_toDigits]
      simp
  rw [readBelow, dropPlus_of_digits isDigit_of_mem_padLeft, hdigits, Option.filter_some,
    if_pos (decide_eq_true h)]

end Text

/-! ### Written forms -/

namespace JobId

theorem toList_spell (id : JobId) : id.spell.toList =
    ['j', 'o', 'b', '-'] ++ (Text.padLeft 6 '0' (Nat.repr id.number)).toList := by
  rw [spell, String.toList_append]
  rfl

theorem body_append (digits : List Char) : body (['j', 'o', 'b', '-'] ++ digits) = some digits :=
  rfl

/-- **An identifier is read back** from its written form, whatever the number of its digits. -/
theorem read?_spell {id : JobId} (h : id.number < Word.limit) : read? id.spell = some id := by
  rw [read?, toList_spell, body_append, Option.bind_some, String.ofList_toList,
    Text.readBelow_padLeft h, Option.map_some]

theorem no_blank_spell (id : JobId) : ∀ c ∈ id.spell.toList, Text.isBlank c = false := by
  intro c hc
  rw [toList_spell, List.mem_append] at hc
  rcases hc with hc | hc
  · simp only [List.mem_cons, List.not_mem_nil, or_false] at hc
    rcases hc with rfl | rfl | rfl | rfl <;> rfl
  · exact Text.isBlank_of_isDigit (Text.isDigit_of_mem_padLeft c hc)

theorem trim_spell (id : JobId) : Text.trim id.spell = id.spell :=
  Text.trim_of_no_blank id.no_blank_spell

theorem spell_ne_empty (id : JobId) : id.spell ≠ "" := by
  intro h
  have hlist := congrArg String.toList h
  rw [toList_spell] at hlist
  cases hlist

end JobId

/-! ### Lines -/

/-- The text of a log to which jobs were added. -/
def logText (ids : List JobId) : String := String.join (ids.map fun id => id.spell ++ "\n")

theorem logText_append (ids : List JobId) (id : JobId) :
    logText (ids ++ [id]) = logText ids ++ (id.spell ++ "\n") := by
  rw [logText, logText, List.map_append, String.join_append, List.map_singleton]
  simp

theorem split_logText (ids : List JobId) :
    Text.split '\n' (logText ids) = ids.map JobId.spell ++ [""] := by
  have hend : ∀ line ∈ ids.map JobId.spell, '\n' ∉ line.toList := by
    intro line hline
    obtain ⟨id, -, rfl⟩ := List.mem_map.mp hline
    exact fun h => by cases id.no_blank_spell _ h
  have hlines : logText ids =
      String.join ((ids.map JobId.spell).map (· ++ String.singleton '\n')) := by
    rw [List.map_map]
    rfl
  rw [hlines, Text.split_join hend]

/-- **The lines of a log** are the written forms of its jobs. -/
theorem logLines_logText (ids : List JobId) : logLines (logText ids) = ids.map JobId.spell := by
  have hlines : (ids.map JobId.spell).map Text.trim = ids.map JobId.spell := by
    rw [List.map_map]
    exact List.map_congr_left fun id _ => id.trim_spell
  rw [logLines, split_logText, List.map_append, hlines, List.filter_append]
  have hfull : (ids.map JobId.spell).filter (fun line => !line.isEmpty) = ids.map JobId.spell := by
    rw [List.filter_eq_self]
    intro line hline
    obtain ⟨id, -, rfl⟩ := List.mem_map.mp hline
    simpa using id.spell_ne_empty
  rw [hfull]
  exact List.append_nil _

theorem readJobLog_of_text? {f : Folder} {path : String} {ids : List JobId}
    (htext : f.text? path = some (logText ids)) (hids : ∀ id ∈ ids, id.number < Word.limit) :
    readJobLog f path = .ok ids := by
  have hread : (ids.map JobId.spell).mapM (readJobLine path) = .ok (ids.map fun id => id) :=
    Except.mapM_map_eq_ok fun id hid => by rw [readJobLine, JobId.read?_spell (hids id hid)]
  unfold Folder.text? at htext
  unfold readJobLog
  cases hd : f.destination path with
  | file place text =>
    rw [hd] at htext
    obtain rfl : text = logText ids := Option.some.inj htext
    dsimp only
    rw [logLines_logText, hread, List.map_id']
  | _ => simp [hd] at htext

/-! ### Sessions -/

/-- **A log without jobs**: it is missing or empty. A path may lead to a file only when the folders
on it are made, and no text may stand there either. -/
structure Folder.Vacant (f : Folder) (path : String) : Prop where
  absent : f.destination path = .missing ∨ (∃ place, f.destination path = .free place) ∨
    ∃ place, f.destination path = .file place ""
  blank : ∀ text, (f.withParents path).text? path = some text → text = ""

theorem Folder.Vacant.readJobLog_eq {f : Folder} {path : String} (h : f.Vacant path) :
    readJobLog f path = .ok [] := by
  unfold readJobLog
  rcases h.absent with hd | ⟨place, hd⟩ | ⟨place, hd⟩
  · rw [hd]
  · rw [hd]
  · rw [hd]
    rfl

theorem Folder.Vacant.eq_empty {f : Folder} {path text : String} (h : f.Vacant path)
    (htext : f.text? path = some text) : text = "" := by
  obtain ⟨place, hopen⟩ := exists_open_of_text? htext
  exact h.blank text (hopen.withParents_eq.symm ▸ htext)

/-- **Jobs that were logged** under a path, in one session or several: the log was without jobs
once, every session adds its jobs one after the other, and between two sessions anything may happen
to other files and folders. -/
inductive Logged (path : String) : List JobId → Folder → Prop
  | start {f : Folder} (h : f.Vacant path) : Logged path [] f
  | append {ids : List JobId} {id : JobId} {f g : Folder} (h : Logged path ids f)
      (h' : (logJob path id).outcome f = (.ok (), g)) : Logged path (ids ++ [id]) g
  | pause {ids : List JobId} {text : String} {f g : Folder} (h : Logged path ids f)
      (hf : f.text? path = some text) (hg : g.text? path = some text) : Logged path ids g

namespace Logged

variable {path : String} {ids : List JobId} {f : Folder}

/-- What stands in the log after each step: nothing yet, or the text of the jobs. -/
theorem vacant_or_text (h : Logged path ids f) :
    (ids = [] ∧ f.Vacant path) ∨ f.text? path = some (logText ids) := by
  induction h with
  | start h => exact .inl ⟨rfl, h⟩
  | @append ids id f g _ happend ih =>
    right
    rcases ih with ⟨rfl, hvacant⟩ | htext
    · rw [text?_of_appended happend]
      cases hmade : (f.withParents path).text? path with
      | none => rfl
      | some text =>
        rw [hvacant.blank text hmade]
        rfl
    · obtain ⟨g', hg', htext'⟩ := exists_appended htext (id.spell ++ "\n")
      rw [logJob, hg'] at happend
      cases happend
      rw [htext', logText_append]
  | @pause ids text f g _ hf hg ih =>
    right
    rcases ih with ⟨rfl, hvacant⟩ | htext
    · rw [hg, hvacant.eq_empty hf]
      rfl
    · rw [hg, ← hf, htext]

/-- **The log reads back what was written.** Jobs that were logged under a path, in one session or
several, are read in the order in which they were logged, as long as their numbers fit a word. Once
there is one, every further job can be logged too. -/
theorem jobs_read_back (h : Logged path ids f) (hids : ∀ id ∈ ids, id.number < Word.limit) :
    readJobLog f path = .ok ids ∧
      (ids ≠ [] → ∀ id, ∃ g, (logJob path id).outcome f = (.ok (), g)) := by
  rcases h.vacant_or_text with ⟨rfl, hvacant⟩ | htext
  · exact ⟨hvacant.readJobLog_eq, fun hne => absurd rfl hne⟩
  · refine ⟨readJobLog_of_text? htext hids, fun _ id => ?_⟩
    obtain ⟨g, hg, -⟩ := exists_appended htext (id.spell ++ "\n")
    exact ⟨g, hg⟩

/-- Two sessions in a folder that is made for the log, with another log begun in between: a number
of fewer digits than are written, and the greatest number of a word. -/
theorem jobs_read_back_twoSessions : ∃ f, Logged "runs/jobs.log" [⟨7⟩, ⟨2 ^ 64 - 1⟩] f ∧
    (∀ id ∈ [JobId.mk 7, ⟨2 ^ 64 - 1⟩], id.number < Word.limit) ∧
    readJobLog f "runs/jobs.log" = .ok [⟨7⟩, ⟨2 ^ 64 - 1⟩] := by
  have hmade : (Folder.empty.withParents "runs/jobs.log").text? "runs/jobs.log" = none := rfl
  have hvacant : Folder.empty.Vacant "runs/jobs.log" :=
    ⟨.inl rfl, fun text h => by rw [hmade] at h; cases h⟩
  obtain ⟨f₁, f₂, h₁, -, ht₁, ht₂⟩ : ∃ f₁ f₂ : Folder,
      (logJob "runs/jobs.log" ⟨7⟩).outcome .empty = (.ok (), f₁) ∧
      (logJob "other.log" ⟨3⟩).outcome f₁ = (.ok (), f₂) ∧
      f₁.text? "runs/jobs.log" = some "job-000007\n" ∧
      f₂.text? "runs/jobs.log" = some "job-000007\n" := ⟨_, _, rfl, rfl, rfl, rfl⟩
  obtain ⟨f₃, h₃, -⟩ := exists_appended ht₂ (JobId.spell ⟨2 ^ 64 - 1⟩ ++ "\n")
  have hlog : Logged "runs/jobs.log" [⟨7⟩, ⟨2 ^ 64 - 1⟩] f₃ :=
    .append (.pause (.append (.start hvacant) h₁) ht₁ ht₂) h₃
  have hids : ∀ id ∈ [JobId.mk 7, ⟨2 ^ 64 - 1⟩], id.number < Word.limit := by decide
  exact ⟨f₃, hlog, hids, (jobs_read_back hlog hids).1⟩

end Logged

end LatticeWalk
