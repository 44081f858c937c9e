import LatticeWalk.Proofs.JobStore

/-! # The outcomes of jobs

The outcome of a job stays what it is until the job is taken, and after that the job is unknown for
ever.

* `JobQueue.Sound.record?_run_of_finished`: no call but a take of the job changes the record of a
  job that has finished.
* `JobQueue.Sound.record?_run_of_none`: a number below that of the next submission is never given
  to a job again.
* `JobQueue.outcome_stable`: what this means for the answers of a queue. -/

namespace LatticeWalk

namespace JobQueue

variable {R σ : Type}

/-! ### Answers -/

section answers
variable {q : JobQueue R σ} {id : JobId}

theorem answers_of_none (h : q.record? id = none) : q.retrieve id = .error (.unknownJob id) ∧
    q.status id = .error (.unknownJob id) ∧ (q.take id).1 = .error (.unknownJob id) := by
  have hretrieve : q.retrieve id = .error (.unknownJob id) := by
    unfold retrieve
    rw [h]
  refine ⟨hretrieve, ?_, ?_⟩
  · unfold status
    rw [h]
  · rw [take_eq]
    exact hretrieve

theorem retrieve_congr {q' : JobQueue R σ} {record : JobRecord R} (hfinished : record.isFinished)
    (h : q.record? id = some record) (h' : q'.record? id = some record) :
    q'.retrieve id = q.retrieve id := by
  unfold retrieve
  rw [h, h']
  cases record with
  | queued => cases hfinished
  | running => cases hfinished
  | done histogram => rfl
  | failed message => rfl

theorem retrieve_of_done (h : q.status id = .ok .done) :
    ∃ histogram, q.retrieve id = .ok histogram := by
  obtain ⟨record, hrecord, hstatus⟩ := status_eq_ok.mp h
  unfold retrieve
  rw [hrecord]
  cases record with
  | done histogram => exact ⟨histogram, rfl⟩
  | _ => cases hstatus

theorem retrieve_of_failed (h : q.status id = .ok .failed) :
    ∃ message, q.retrieve id = .error (.executionFailed id message) := by
  obtain ⟨record, hrecord, hstatus⟩ := status_eq_ok.mp h
  unfold retrieve
  rw [hrecord]
  cases record with
  | failed message => exact ⟨message, rfl⟩
  | _ => cases hstatus

theorem retrieve_of_not_finished (h : ¬ q.Finished id) :
    q.retrieve id = .error (.notReady id (q.position id)) ∨
      q.retrieve id = .error (.unknownJob id) := by
  unfold retrieve
  cases hrecord : q.record? id with
  | none => exact .inr rfl
  | some record =>
    cases record with
    | queued => exact .inl rfl
    | running => exact .inl rfl
    | done => exact absurd (finished_iff.mpr ⟨_, hrecord, rfl⟩) h
    | failed => exact absurd (finished_iff.mpr ⟨_, hrecord, rfl⟩) h

end answers

/-! ### What calls leave alone -/

namespace Sound

variable {backend : Backend R σ} {q : JobQueue R σ} (h : q.Sound)
include h

/-- The record of a job that has finished is changed by nothing but a take of the job. -/
theorem record?_perform_of_finished {id : JobId} {record : JobRecord R}
    (hrecord : q.record? id = some record) (hfinished : record.isFinished) {call : Call R}
    (hcall : call ≠ .take id) : (q.perform backend call).record? id = some record := by
  refine h.keeps (P := fun q => q.record? id = some record) hrecord ?_ ?_ ?_ ?_
  · intro circuit shots _
    have hne : id ≠ ⟨q.nextNumber⟩ := by
      rintro rfl
      exact lt_irrefl _ (h.below _ record hrecord)
    rw [record?_submit, if_neg hne]
    exact hrecord
  · intro q hq hrecord other rest _ hwaiting
    have hne : id ≠ other := by
      rintro rfl
      have hqueued : q.status id = .ok .queued := (hq.queued id).mpr (by simp [hwaiting])
      exact (finished_iff.mpr ⟨record, hrecord, hfinished⟩).ne_queued hqueued
    rw [record?_started, if_neg hne]
    exact hrecord
  · intro q hq hrecord other circuit shots answer device hactive _ _
    have hne : id ≠ other := by
      rintro rfl
      have hrunning : q.status id = .ok .running := (hq.running id).mpr hactive
      exact (finished_iff.mpr ⟨record, hrecord, hfinished⟩).ne_running hrunning
    rw [record?_settled, if_neg hne]
    exact hrecord
  · intro other hother _
    have hne : id ≠ other := by
      rintro rfl
      exact hcall hother
    rw [record?_forgotten, if_neg hne]
    exact hrecord

theorem record?_run_of_finished {id : JobId} {record : JobRecord R}
    (hrecord : q.record? id = some record) (hfinished : record.isFinished) {calls : List (Call R)}
    (hcalls : .take id ∉ calls) : (q.run backend calls).record? id = some record := by
  have hall : (q.run backend calls).Sound ∧ (q.run backend calls).record? id = some record := by
    refine JobQueue.keeps_run (P := fun q => q.Sound ∧ q.record? id = some record)
      (fun call hcall q hq => ⟨hq.1.perform call, ?_⟩) ⟨h, hrecord⟩
    exact hq.1.record?_perform_of_finished hq.2 hfinished (ne_of_mem_of_not_mem hcall hcalls)
  exact hall.2

/-- A number below that of the next submission, of which nothing is kept, is free for ever. -/
theorem record?_run_of_none (backend : Backend R σ) {id : JobId} (hrecord : q.record? id = none)
    (hbelow : id.number < q.nextNumber) (calls : List (Call R)) :
    (q.run backend calls).record? id = none ∧
      id.number < (q.run backend calls).nextNumber := by
  have hall : (q.run backend calls).Sound ∧ id.number < (q.run backend calls).nextNumber ∧
      (q.run backend calls).record? id = none := by
    refine JobQueue.keeps_run
      (P := fun q => q.Sound ∧ id.number < q.nextNumber ∧ q.record? id = none)
      (fun call _ q hq => ⟨hq.1.perform call, ?_⟩) ⟨h, hbelow, hrecord⟩
    refine hq.1.keeps (P := fun q => id.number < q.nextNumber ∧ q.record? id = none) hq.2
      ?_ ?_ ?_ ?_
    · intro circuit shots _
      have hne : id ≠ ⟨q.nextNumber⟩ := by
        rintro rfl
        exact lt_irrefl _ hq.2.1
      rw [record?_submit, if_neg hne]
      exact ⟨Nat.lt_succ_of_lt hq.2.1, hq.2.2⟩
    · intro q _ hq other rest _ _
      refine ⟨hq.1, ?_⟩
      rw [record?_started]
      split_ifs with hid
      · rw [← hid, hq.2]
        rfl
      · exact hq.2
    · intro q _ hq other circuit shots answer device _ _ _
      refine ⟨hq.1, ?_⟩
      rw [record?_settled]
      split_ifs with hid
      · rw [← hid, hq.2]
        rfl
      · exact hq.2
    · intro other _ _
      refine ⟨hq.2.1, ?_⟩
      rw [record?_forgotten]
      split_ifs
      · rfl
      · exact hq.2.2
  exact ⟨hall.2.2, hall.2.1⟩

end Sound

/-- **An outcome is stable until it is taken, and gone for ever after.** Of every queue that calls
lead to: a job that is done has a histogram, one that failed a message. Whatever is asked later, as
long as the job is not taken, its outcome stays the same, and the first take gives it once more.
After that the job is unknown, whatever is asked, and no submission gets its number. A take of a job
that has not finished changes nothing. -/
theorem outcome_stable (backend : Backend R σ) (device : σ) (calls : List (Call R)) (id : JobId) :
    let q := (start device).run backend calls
    (q.status id = .ok .done → ∃ histogram, q.retrieve id = .ok histogram) ∧
      (q.status id = .ok .failed →
        ∃ message, q.retrieve id = .error (.executionFailed id message)) ∧
      (q.Finished id → ∀ later, .take id ∉ later →
        (q.run backend later).retrieve id = q.retrieve id ∧
        ((q.run backend later).take id).1 = q.retrieve id ∧
        ∀ rest,
          let gone := ((q.run backend later).take id).2.run backend rest
          gone.retrieve id = .error (.unknownJob id) ∧ gone.status id = .error (.unknownJob id) ∧
            (gone.take id).1 = .error (.unknownJob id) ∧
            ∀ circuit shots, (gone.submit circuit shots).1 ≠ id) ∧
      (¬ q.Finished id → (q.take id).2 = q ∧
        ((q.take id).1 = .error (.notReady id (q.position id)) ∨
          (q.take id).1 = .error (.unknownJob id))) := by
  intro q
  have h : q.Sound := sound_run device calls
  refine ⟨retrieve_of_done, retrieve_of_failed, fun hfinished later hlater => ?_,
    fun hnot => ?_⟩
  · obtain ⟨record, hrecord, hdone⟩ := finished_iff.mp hfinished
    have hsound : (q.run backend later).Sound := h.run later
    have hkept : (q.run backend later).record? id = some record :=
      h.record?_run_of_finished hrecord hdone hlater
    have hretrieve : (q.run backend later).retrieve id = q.retrieve id :=
      retrieve_congr hdone hrecord hkept
    have htaken : ((q.run backend later).take id).2 = (q.run backend later).forgotten id := by
      rw [take_eq]
      exact if_pos (finished_iff.mpr ⟨record, hkept, hdone⟩)
    refine ⟨hretrieve, ?_, fun rest => ?_⟩
    · rw [take_eq]
      exact hretrieve
    · intro gone
      have hnone : ((q.run backend later).take id).2.record? id = none := by
        rw [htaken, record?_forgotten, if_pos rfl]
      have hbelow : id.number < ((q.run backend later).take id).2.nextNumber := by
        rw [htaken]
        exact hsound.below id record hkept
      obtain ⟨hgone, hnumber⟩ := (hsound.take id).record?_run_of_none backend hnone hbelow rest
      obtain ⟨hretrieve', hstatus, htake⟩ := answers_of_none hgone
      refine ⟨hretrieve', hstatus, htake, fun circuit shots hid => ?_⟩
      have hnext : gone.nextNumber = id.number := congrArg JobId.number hid
      exact lt_irrefl _ (hnext ▸ hnumber)
  · have htake := take_eq q id
    rw [if_neg hnot] at htake
    rw [htake]
    exact ⟨rfl, retrieve_of_not_finished hnot⟩

/-- The first of two jobs keeps its histogram while the second fails and is taken, and is unknown
after its own take. -/
theorem outcome_stable_firstJob :
    let c : Circuit ℝ := .empty .empty
    let histogram := Histogram.ofCounts [("0", 5)]
    let q := (start [.ok histogram, mistrust (.reported "device offline")]).run (.replay ℝ)
      [.submit c 5, .submit c 7, .processNext]
    let later : List (Call ℝ) := [.processNext, .take ⟨2⟩, .submit c 9]
    q.status ⟨1⟩ = .ok .done ∧ q.retrieve ⟨1⟩ = .ok histogram ∧
      ((q.run (.replay ℝ) later).take ⟨1⟩).1 = .ok histogram ∧
      (((q.run (.replay ℝ) later).take ⟨1⟩).2.run (.replay ℝ)
        [.submit c 5, .runUntilIdle]).retrieve ⟨1⟩ = .error (.unknownJob ⟨1⟩) := by
  intro c histogram q later
  obtain ⟨-, -, hstable, -⟩ := outcome_stable (.replay ℝ)
    [.ok histogram, mistrust (.reported "device offline")]
    [.submit c 5, .submit c 7, .processNext] ⟨1⟩
  have hdone : q.status ⟨1⟩ = .ok .done := rfl
  have hretrieve : q.retrieve ⟨1⟩ = .ok histogram := rfl
  obtain ⟨-, htake, hgone⟩ := hstable (.inl hdone) later (by simp [later])
  exact ⟨hdone, hretrieve, htake.trans hretrieve, (hgone _).1⟩

end JobQueue

end LatticeWalk
