import LatticeWalk.Proofs.JobSteps

/-! # The job store

Where a queue keeps its jobs: in the list of those that wait, in the place of the one that runs, and
in the records. Every call keeps the three together, so that no job is lost.

* `JobQueue.Sound`: the queue, the running job and the records agree. A submission, a start, an
  execution and a take each keep it, and so does every run (`JobQueue.sound_run`).
* `JobQueue.Sound.keeps`: the changes of a sound queue that are to be looked at when something else
  is claimed of all runs.
* `JobQueue.Sound.kept_or_taken`: a record stays until its job is taken after it has finished.
* `JobQueue.store_consistent`: all of this, of every queue that calls lead to. -/

namespace LatticeWalk

namespace JobQueue

variable {R σ : Type} {backend : Backend R σ}

/-! ### The store -/

/-- **Queue, running job and records agree.** The numbers of those that wait ascend and are above
the number of the running job; a record says that its job waits, or runs, if and only if it does;
and all numbers are below that of the next submission. -/
structure Sound (q : JobQueue R σ) : Prop where
  ascending : q.waiting.Pairwise fun a b => a.number < b.number
  ahead : ∀ id, q.active = some id → ∀ other ∈ q.waiting, id.number < other.number
  queued : ∀ id, q.status id = .ok .queued ↔ id ∈ q.waiting
  running : ∀ id, q.status id = .ok .running ↔ q.active = some id
  below : ∀ id record, q.record? id = some record → id.number < q.nextNumber

theorem sound_start (device : σ) : (start device : JobQueue R σ).Sound where
  ascending := .nil
  ahead := nofun
  queued id := by
    rw [status_eq_ok, record?_start]
    simp [start]
  running id := by
    rw [status_eq_ok, record?_start]
    simp [start]
  below id record h := by
    rw [record?_start] at h
    cases h

namespace Sound

variable {q : JobQueue R σ} (h : q.Sound)
include h

theorem waiting_below {id : JobId} (hid : id ∈ q.waiting) : id.number < q.nextNumber := by
  obtain ⟨record, hrecord, -⟩ := status_eq_ok.mp ((h.queued id).mpr hid)
  exact h.below id record hrecord

theorem active_below {id : JobId} (hid : q.active = some id) : id.number < q.nextNumber := by
  obtain ⟨record, hrecord, -⟩ := status_eq_ok.mp ((h.running id).mpr hid)
  exact h.below id record hrecord

theorem record?_of_active {id : JobId} (hid : q.active = some id) :
    ∃ circuit shots, q.record? id = some (.running circuit shots) := by
  obtain ⟨record, hrecord, hstatus⟩ := status_eq_ok.mp ((h.running id).mpr hid)
  obtain ⟨circuit, shots, rfl⟩ := JobRecord.status_eq_running.mp hstatus
  exact ⟨circuit, shots, hrecord⟩

theorem record?_of_waiting {id : JobId} (hid : id ∈ q.waiting) :
    ∃ circuit shots, q.record? id = some (.queued circuit shots) := by
  obtain ⟨record, hrecord, hstatus⟩ := status_eq_ok.mp ((h.queued id).mpr hid)
  obtain ⟨circuit, shots, rfl⟩ := JobRecord.status_eq_queued.mp hstatus
  exact ⟨circuit, shots, hrecord⟩

/-- **An execution** does nothing if no job runs, and else settles the running job. -/
theorem finishRunning_cases (backend : Backend R σ) :
    (q.active = none ∧ q.finishRunning backend = (none, q)) ∨
      ∃ id circuit shots answer device, q.active = some id ∧
        q.record? id = some (.running circuit shots) ∧
        (backend.execute circuit shots).outcome q.device = (answer, device) ∧
        q.finishRunning backend = (some (JobRecord.ofAnswer answer : JobRecord R).status,
          q.settled id (.ofAnswer answer) device) := by
  cases hactive : q.active with
  | none => exact .inl ⟨rfl, finishRunning_of_none hactive⟩
  | some id =>
    obtain ⟨circuit, shots, hrecord⟩ := h.record?_of_active hactive
    exact .inr ⟨id, circuit, shots, _, _, rfl, hrecord, rfl,
      finishRunning_of_running hactive hrecord rfl⟩

theorem submit (circuit : Circuit R) (shots : ℕ) : (q.submit circuit shots).2.Sound where
  ascending := by
    refine List.pairwise_append.mpr ⟨h.ascending, List.pairwise_singleton _ _, ?_⟩
    intro a ha b hb
    rw [List.mem_singleton.mp hb]
    exact h.waiting_below ha
  ahead id hid other hother := by
    rcases List.mem_append.mp hother with hother | hother
    · exact h.ahead id hid other hother
    · rw [List.mem_singleton.mp hother]
      exact h.active_below hid
  queued id := by
    have hmem : id ∈ (q.submit circuit shots).2.waiting ↔ id ∈ q.waiting ∨ id = ⟨q.nextNumber⟩ := by
      rw [JobQueue.submit, List.mem_append, List.mem_singleton]
    rw [status_submit, hmem]
    split_ifs with hid
    · simp [hid]
    · simp [hid, h.queued]
  running id := by
    have hactive : (q.submit circuit shots).2.active = q.active := rfl
    rw [status_submit, hactive]
    split_ifs with hid
    · have hne : q.active ≠ some id := by
        intro hid'
        have hlt := h.active_below hid'
        rw [hid] at hlt
        exact lt_irrefl _ hlt
      simp [hne]
    · exact h.running id
  below id record hrecord := by
    rw [record?_submit] at hrecord
    split_ifs at hrecord with hid
    · rw [hid]
      exact Nat.lt_succ_self _
    · exact Nat.lt_succ_of_lt (h.below id record hrecord)

theorem started {id : JobId} {rest : List JobId} (hactive : q.active = none)
    (hwaiting : q.waiting = id :: rest) : (q.started id rest).Sound := by
  have hqueued : q.status id = .ok .queued := (h.queued id).mpr (by simp [hwaiting])
  have hascending := h.ascending
  rw [hwaiting] at hascending
  obtain ⟨hhead, htail⟩ := List.pairwise_cons.mp hascending
  have hnotin : id ∉ rest := fun hid => lt_irrefl _ (hhead id hid)
  refine ⟨htail, ?_, fun id' => ?_, fun id' => ?_, fun id' record hrecord => ?_⟩
  · intro id' hid' other hother
    rw [← Option.some.inj hid']
    exact hhead other hother
  · rw [status_started hqueued]
    have hrest := h.queued id'
    rw [hwaiting, List.mem_cons] at hrest
    split_ifs with hid
    · simp [hid, JobQueue.started, hnotin]
    · rw [hrest]
      simp [hid, JobQueue.started]
  · rw [status_started hqueued]
    have hrunning := h.running id'
    rw [hactive] at hrunning
    split_ifs with hid
    · simp [hid, JobQueue.started]
    · simp [hrunning, JobQueue.started, Ne.symm hid]
  · rw [record?_started] at hrecord
    split_ifs at hrecord with hid
    · rw [hid]
      exact h.waiting_below (by simp [hwaiting])
    · exact h.below id' record hrecord

theorem startNext : q.startNext.2.Sound := by
  rcases q.startNext_cases with hnext | ⟨id, rest, hactive, hwaiting, hnext⟩
  · rwa [hnext]
  · rw [hnext]
    exact h.started hactive hwaiting

theorem settled {id : JobId} (hactive : q.active = some id) {record : JobRecord R}
    (hfinished : record.isFinished = true) (device : σ) : (q.settled id record device).Sound := by
  obtain ⟨circuit, shots, hrecord⟩ := h.record?_of_active hactive
  have hstatus := status_settled (Option.isSome_iff_exists.mpr ⟨_, hrecord⟩) record device
  have hne := JobRecord.status_ne_of_finished hfinished
  have hrunning : q.status id = .ok .running := (h.running id).mpr hactive
  have hnotin : id ∉ q.waiting := by
    rw [← h.queued, hrunning]
    simp
  refine ⟨h.ascending, nofun, fun id' => ?_, fun id' => ?_, fun id' after hafter => ?_⟩
  · rw [hstatus]
    split_ifs with hid
    · simp [hid, JobQueue.settled, hnotin, hne.1]
    · exact h.queued id'
  · rw [hstatus]
    split_ifs with hid
    · simp [JobQueue.settled, hne.2]
    · simp [h.running, hactive, JobQueue.settled, Ne.symm hid]
  · rw [record?_settled] at hafter
    split_ifs at hafter with hid
    · rw [hid]
      exact h.active_below hactive
    · exact h.below id' after hafter

theorem finishRunning : (q.finishRunning backend).2.Sound := by
  rcases h.finishRunning_cases backend with
    ⟨-, hfinish⟩ | ⟨id, circuit, shots, answer, device, hactive, -, -, hfinish⟩
  · rwa [hfinish]
  · rw [hfinish]
    exact h.settled hactive (JobRecord.isFinished_ofAnswer _) _

theorem forgotten {id : JobId} (hfinished : q.Finished id) : (q.forgotten id).Sound := by
  have hnotin : id ∉ q.waiting := fun hid => hfinished.ne_queued ((h.queued id).mpr hid)
  have hnotactive : q.active ≠ some id := fun hid => hfinished.ne_running ((h.running id).mpr hid)
  refine ⟨h.ascending, h.ahead, fun id' => ?_, fun id' => ?_, fun id' record hrecord => ?_⟩
  · rw [status_forgotten]
    split_ifs with hid
    · simp [hid, JobQueue.forgotten, hnotin]
    · exact h.queued id'
  · rw [status_forgotten]
    split_ifs with hid
    · simp [hid, JobQueue.forgotten, hnotactive]
    · exact h.running id'
  · rw [record?_forgotten] at hrecord
    split_ifs at hrecord
    exact h.below id' record hrecord

theorem take (id : JobId) : (q.take id).2.Sound := by
  rw [take_eq]
  dsimp only
  split_ifs with hfinished
  · exact h.forgotten hfinished
  · exact h

theorem perform (call : Call R) : (q.perform backend call).Sound :=
  keeps_perform (fun _ hq => hq.startNext) (fun _ hq => hq.finishRunning) h
    (fun circuit shots _ => h.submit circuit shots) fun id _ => h.take id

theorem run (calls : List (Call R)) : (q.run backend calls).Sound :=
  JobQueue.keeps_run (fun call _ _ hq => hq.perform call) h

/-- **What a call keeps.** Of a sound queue there are four changes to look at: a submission, a start
from a free place, the execution of the job that runs, and a finished job forgotten. -/
theorem keeps {P : JobQueue R σ → Prop} {call : Call R} (hP : P q)
    (hsubmit : ∀ circuit shots, call = .submit circuit shots → P (q.submit circuit shots).2)
    (hstarted : ∀ q : JobQueue R σ, q.Sound → P q → ∀ id rest, q.active = none →
      q.waiting = id :: rest → P (q.started id rest))
    (hsettled : ∀ q : JobQueue R σ, q.Sound → P q → ∀ id circuit shots answer device,
      q.active = some id → q.record? id = some (.running circuit shots) →
      (backend.execute circuit shots).outcome q.device = (answer, device) →
      P (q.settled id (.ofAnswer answer) device))
    (hforgotten : ∀ id, call = .take id → q.Finished id → P (q.forgotten id)) :
    P (q.perform backend call) := by
  have hall : (q.perform backend call).Sound ∧ P (q.perform backend call) := by
    refine keeps_perform (P := fun q => q.Sound ∧ P q) (fun q hq => ⟨hq.1.startNext, ?_⟩)
      (fun q hq => ⟨hq.1.finishRunning, ?_⟩) ⟨h, hP⟩
      (fun circuit shots hcall => ⟨h.submit circuit shots, hsubmit circuit shots hcall⟩)
      fun id hcall => ⟨h.take id, ?_⟩
    · rcases q.startNext_cases with hnext | ⟨id, rest, hactive, hwaiting, hnext⟩
      · rw [hnext]
        exact hq.2
      · rw [hnext]
        exact hstarted q hq.1 hq.2 id rest hactive hwaiting
    · rcases hq.1.finishRunning_cases backend with
        ⟨-, hfinish⟩ | ⟨id, circuit, shots, answer, device, hactive, hrecord, hanswer, hfinish⟩
      · rw [hfinish]
        exact hq.2
      · rw [hfinish]
        exact hsettled q hq.1 hq.2 id circuit shots answer device hactive hrecord hanswer
    · rw [take_eq]
      dsimp only
      split_ifs with hfinished
      · exact hforgotten id hcall hfinished
      · exact hP
  exact hall.2

end Sound

/-- **Whatever a queue is asked**, queue, running job and records agree. -/
theorem sound_run (device : σ) (calls : List (Call R)) :
    ((start device : JobQueue R σ).run backend calls).Sound :=
  (sound_start device).run calls

/-! ### No job is lost -/

namespace Sound

variable {q : JobQueue R σ} (h : q.Sound)
include h

theorem nextNumber_le_run (backend : Backend R σ) (calls : List (Call R)) :
    q.nextNumber ≤ (q.run backend calls).nextNumber := by
  have hall : (q.run backend calls).Sound ∧ q.nextNumber ≤ (q.run backend calls).nextNumber := by
    refine JobQueue.keeps_run (P := fun q' => q'.Sound ∧ q.nextNumber ≤ q'.nextNumber)
      (fun call _ q' hq => ⟨hq.1.perform call, ?_⟩) ⟨h, le_rfl⟩
    exact hq.1.keeps (P := fun q' => q.nextNumber ≤ q'.nextNumber) hq.2
      (fun _ _ _ => hq.2.trans (Nat.le_succ _)) (fun _ _ hP _ _ _ _ => hP)
      (fun _ _ hP _ _ _ _ _ _ _ _ => hP) fun _ _ _ => hq.2
  exact hall.2

/-- A job of which something is kept waits, runs or has finished. -/
theorem place_of_record {id : JobId} (hid : (q.record? id).isSome) :
    id ∈ q.waiting ∨ q.active = some id ∨ q.Finished id := by
  obtain ⟨record, hrecord⟩ := Option.isSome_iff_exists.mp hid
  cases hstatus : record.status with
  | queued => exact .inl ((h.queued id).mp (status_eq_ok.mpr ⟨record, hrecord, hstatus⟩))
  | running => exact .inr (.inl ((h.running id).mp (status_eq_ok.mpr ⟨record, hrecord, hstatus⟩)))
  | done => exact .inr (.inr (.inl (status_eq_ok.mpr ⟨record, hrecord, hstatus⟩)))
  | failed => exact .inr (.inr (.inr (status_eq_ok.mpr ⟨record, hrecord, hstatus⟩)))

/-- A record is dropped by nothing but a take of its job after this has finished. -/
theorem isSome_record?_perform {id : JobId} (hid : (q.record? id).isSome) {call : Call R}
    (hcall : call = .take id → ¬ q.Finished id) :
    ((q.perform backend call).record? id).isSome := by
  refine h.keeps (P := fun q => (q.record? id).isSome) hid ?_ ?_ ?_ ?_
  · intro circuit shots _
    rw [record?_submit]
    split_ifs
    · rfl
    · exact hid
  · intro q _ hq other rest _ _
    rw [record?_started]
    split_ifs with heq
    · rwa [Option.isSome_map, ← heq]
    · exact hq
  · intro q _ hq other circuit shots answer device _ _ _
    rw [record?_settled]
    split_ifs with heq
    · rwa [Option.isSome_map, ← heq]
    · exact hq
  · intro other hother hfinished
    rw [record?_forgotten]
    split_ifs with heq
    · exact absurd (heq ▸ hfinished) (hcall (heq ▸ hother))
    · exact hid

/-- A record stays through a run, or its job is taken after it has finished. -/
theorem kept_or_taken (backend : Backend R σ) {id : JobId} (hid : (q.record? id).isSome)
    (calls : List (Call R)) :
    ((q.run backend calls).record? id).isSome ∨ ∃ earlier later,
      calls = earlier ++ .take id :: later ∧ (q.run backend earlier).Finished id := by
  induction calls using List.reverseRecOn with
  | nil => exact .inl hid
  | append_singleton calls call ih =>
    rcases ih with hkept | ⟨earlier, later, hsplit, hfinished⟩
    · by_cases hcall : call = .take id ∧ (q.run backend calls).Finished id
      · exact .inr ⟨calls, [], by rw [hcall.1], hcall.2⟩
      · rw [run_concat]
        exact .inl ((h.run calls).isSome_record?_perform hkept (not_and.mp hcall))
    · exact .inr ⟨earlier, later ++ [call], by simp [hsplit], hfinished⟩

theorem finishRunning_eq_none : (q.finishRunning backend).1 = none ↔ q.active = none := by
  rcases h.finishRunning_cases backend with
    ⟨hactive, hfinish⟩ | ⟨id, circuit, shots, answer, device, hactive, -, -, hfinish⟩
  · simp [hactive, hfinish]
  · simp [hactive, hfinish]

end Sound

/-- **The store stays consistent and loses no job.** Whatever a queue was asked: queue, running job
and records agree, and all numbers that were ever stored are below that of the next submission; so
every job that was submitted waits, runs, has finished or was taken after it had finished, and the
record of a running job is always there to be executed. -/
theorem store_consistent (backend : Backend R σ) (device : σ) (calls : List (Call R)) :
    let after := (start device).run backend
    (after calls).Sound ∧
      (∀ earlier later, calls = earlier ++ later → ∀ id record,
        (after earlier).record? id = some record → id.number < (after calls).nextNumber) ∧
      (∀ earlier circuit shots later, calls = earlier ++ .submit circuit shots :: later →
        let id := ((after earlier).submit circuit shots).1
        id ∈ (after calls).waiting ∨ (after calls).active = some id ∨ (after calls).Finished id ∨
          ∃ between rest, later = between ++ .take id :: rest ∧
            (after (earlier ++ .submit circuit shots :: between)).Finished id) ∧
      (((after calls).finishRunning backend).1 = none ↔ (after calls).active = none) := by
  intro after
  have hsound : ∀ calls, (after calls).Sound := sound_run device
  refine ⟨hsound calls, ?_, ?_, (hsound calls).finishRunning_eq_none⟩
  · rintro earlier later rfl id record hrecord
    have hlt := (hsound earlier).below id record hrecord
    have hle := (hsound earlier).nextNumber_le_run backend later
    rw [← run_append] at hle
    exact hlt.trans_le hle
  · rintro earlier circuit shots later rfl id
    have hsubmitted : (((after earlier).submit circuit shots).2.record? id).isSome :=
      Option.isSome_iff_exists.mpr ⟨_, record?_submit_self _ circuit shots⟩
    have hsplit : ∀ rest, after (earlier ++ .submit circuit shots :: rest) =
        ((after earlier).submit circuit shots).2.run backend rest := fun rest =>
      run_append _ earlier (.submit circuit shots :: rest)
    rcases ((hsound earlier).submit circuit shots).kept_or_taken backend hsubmitted later with
      hkept | ⟨between, rest, hlater, hfinished⟩
    · rw [← hsplit] at hkept
      rcases (hsound _).place_of_record hkept with hwaiting | hactive | hfinished
      · exact .inl hwaiting
      · exact .inr (.inl hactive)
      · exact .inr (.inr (.inl hfinished))
    · rw [← hsplit] at hfinished
      exact .inr (.inr (.inr ⟨between, rest, hlater, hfinished⟩))

/-- Of three jobs the first was taken after it had finished, the second runs and the third waits. -/
theorem store_consistent_threeJobs :
    let c : Circuit ℝ := .empty .empty
    let later : List (Call ℝ) :=
      [.submit c 7, .startNext, .finishRunning, .take ⟨1⟩, .submit c 9, .startNext]
    let q := (start [.ok (.empty 5)]).run (.replay ℝ) (.submit c 5 :: later)
    q.waiting = [⟨3⟩] ∧ q.active = some ⟨2⟩ ∧ q.record? ⟨1⟩ = none ∧
      (∃ between rest, later = between ++ .take ⟨1⟩ :: rest ∧
        ((start [.ok (.empty 5)]).run (.replay ℝ) (.submit c 5 :: between)).Finished ⟨1⟩) ∧
      (q.finishRunning (.replay ℝ)).1 ≠ none := by
  intro c later q
  obtain ⟨-, -, hplace, hfinish⟩ :=
    store_consistent (.replay ℝ) [.ok (.empty 5)] (.submit c 5 :: later)
  have hwaiting : q.waiting = [⟨3⟩] := rfl
  have hactive : q.active = some ⟨2⟩ := rfl
  have hrecord : q.record? ⟨1⟩ = none := rfl
  have hnot : ¬ q.Finished ⟨1⟩ := by
    rw [finished_iff, hrecord]
    simp
  refine ⟨hwaiting, hactive, hrecord, ?_, ?_⟩
  · rcases hplace [] c 5 later rfl with h | h | h | h
    · rw [show _ = [_] from hwaiting] at h
      cases List.mem_singleton.mp h
    · cases hactive.symm.trans h
    · exact absurd h hnot
    · exact h
  · rw [Ne, hfinish]
    exact nofun

end JobQueue

end LatticeWalk
