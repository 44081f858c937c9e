import LatticeWalk.Proofs.JobStore

/-! # The order of executions

A device that notes what it is asked shows what a queue does with it: the circuits are executed in
the order in which they were submitted, each once, and the outcome that is kept of a job is the
answer to its own execution.

* `Backend.noting`: a device that also notes its executions.
* `JobQueue.bare`, `JobQueue.run_bare`: the notes change nothing else.
* `JobQueue.Accounted`: the executions are those of the first jobs, and all others are pending, in
  the order of their numbers; `JobQueue.Accounted.perform` says that every call keeps this.
* `JobQueue.executed_in_order`: what follows of every run. -/

namespace LatticeWalk

variable {R σ : Type}

/-- What a device was asked and what it answered. -/
structure Execution (R : Type) where
  circuit : Circuit R
  shots : ℕ
  answer : Except Failure Histogram

namespace Execution

/-- What was asked. -/
def request (e : Execution R) : Circuit R × ℕ := (e.circuit, e.shots)

end Execution

/-- The device with a list in which it notes its executions. -/
def Backend.noting (backend : Backend R σ) : Backend R (σ × List (Execution R)) where
  execute circuit shots := .of fun s =>
    let (answer, device) := (backend.execute circuit shots).outcome s.1
    (answer, device, s.2 ++ [⟨circuit, shots, answer⟩])

namespace JobQueue

/-! ### Notes change nothing -/

/-- The queue in front of the device without its notes. -/
def bare (q : JobQueue R (σ × List (Execution R))) : JobQueue R σ := { q with device := q.device.1 }

section bare
variable (backend : Backend R σ) (q : JobQueue R (σ × List (Execution R)))

theorem startNext_bare : q.bare.startNext = (q.startNext.1, q.startNext.2.bare) := by
  unfold startNext bare
  dsimp only
  split <;> rfl

theorem finished_noting (device : σ × List (Execution R)) (record : JobRecord R) :
    finished backend device.1 record = ((finished backend.noting device record).1,
      (finished backend.noting device record).2.1) := by
  cases record with
  | running circuit shots =>
    unfold finished Backend.noting
    dsimp only
    rw [Attempt.outcome_of]
    rcases (backend.execute circuit shots).outcome device.1 with ⟨_ | _, _⟩ <;> rfl
  | _ => rfl

theorem finishRunning_bare : q.bare.finishRunning backend =
    ((q.finishRunning backend.noting).1, (q.finishRunning backend.noting).2.bare) := by
  have hactive : q.bare.active = q.active := rfl
  have hrecord : ∀ id, q.bare.record? id = q.record? id := fun _ => rfl
  have hdevice : q.bare.device = q.device.1 := rfl
  unfold finishRunning
  rw [hactive]
  cases q.active with
  | none => rfl
  | some id =>
    dsimp only
    rw [hrecord]
    cases q.record? id with
    | none => rfl
    | some record =>
      dsimp only
      rw [hdevice, finished_noting]
      rfl

theorem processNext_bare : q.bare.processNext backend =
    ((q.processNext backend.noting).1, (q.processNext backend.noting).2.bare) := by
  unfold processNext
  rw [startNext_bare]
  rcases q.startNext with ⟨_ | id, q'⟩
  · rfl
  · dsimp only
    rw [finishRunning_bare]

theorem drain_bare (q : JobQueue R (σ × List (Execution R))) : q.bare.drain backend =
    ((q.drain backend.noting).1, (q.drain backend.noting).2.bare) := by
  have hnext := processNext_bare backend q
  cases hjob : (q.processNext backend.noting).1 with
  | none =>
    have hbare : (q.bare.processNext backend).1 = none := by rw [hnext, hjob]
    rw [drain_of_none hjob, drain_of_none hbare, hnext]
  | some job =>
    have hbare : (q.bare.processNext backend).1 = some job := by rw [hnext, hjob]
    rw [drain_of_some hjob, drain_of_some hbare, hnext, drain_bare]
termination_by q.waiting.length
decreasing_by exact length_waiting_processNext (by rw [hjob]; rfl)

theorem runUntilIdle_bare : q.bare.runUntilIdle backend =
    ((q.runUntilIdle backend.noting).1, (q.runUntilIdle backend.noting).2.bare) := by
  unfold runUntilIdle
  rw [finishRunning_bare]
  dsimp only
  rw [drain_bare]

theorem take_bare (id : JobId) : q.bare.take id = ((q.take id).1, (q.take id).2.bare) := by
  rw [take_eq, take_eq]
  have hfinished : q.bare.Finished id ↔ q.Finished id := Iff.rfl
  have hretrieve : q.bare.retrieve id = q.retrieve id := rfl
  simp only [hfinished, hretrieve]
  split_ifs <;> rfl

theorem perform_bare (call : Call R) :
    q.bare.perform backend call = (q.perform backend.noting call).bare := by
  cases call with
  | submit circuit shots => rfl
  | startNext => exact congrArg Prod.snd (startNext_bare q)
  | finishRunning => exact congrArg Prod.snd (finishRunning_bare backend q)
  | processNext => exact congrArg Prod.snd (processNext_bare backend q)
  | runUntilIdle => exact congrArg Prod.snd (runUntilIdle_bare backend q)
  | take id => exact congrArg Prod.snd (take_bare q id)
  | retrieve id => rfl
  | status id => rfl

/-- **Notes change nothing**: without them a run leads to the same queue. -/
theorem run_bare (calls : List (Call R)) :
    q.bare.run backend calls = (q.run backend.noting calls).bare := by
  induction calls generalizing q with
  | nil => rfl
  | cons call calls ih =>
    have hcall := perform_bare backend q call
    have hrest := ih (q.perform backend.noting call)
    rw [← hcall] at hrest
    exact hrest

end bare

/-! ### Accounts -/

/-- What a call submits. -/
def Call.submission? : Call R → Option (Circuit R × ℕ)
  | .submit circuit shots => some (circuit, shots)
  | _ => none

/-- What calls submit, in their order. -/
def submissions (calls : List (Call R)) : List (Circuit R × ℕ) := calls.filterMap Call.submission?

/-- The jobs that have not been executed, in their order. -/
def pending (q : JobQueue R σ) : List JobId := q.active.toList ++ q.waiting

theorem Sound.mem_pending {q : JobQueue R σ} (h : q.Sound) {id : JobId} :
    id ∈ q.pending ↔ q.status id = .ok .queued ∨ q.status id = .ok .running := by
  rw [h.queued, h.running, pending, List.mem_append, Option.mem_toList, or_comm]

/-- **What was submitted is accounted for**: the first submissions were executed, in their order and
as they were submitted, all others are pending in their order, and what is kept of a job that was
executed is the answer. -/
structure Accounted (submitted : List (Circuit R × ℕ))
    (q : JobQueue R (σ × List (Execution R))) : Prop where
  next : q.nextNumber = submitted.length + 1
  total : q.device.2.length + q.pending.length = submitted.length
  pending : q.pending.map JobId.number = List.range' (q.device.2.length + 1) q.pending.length
  requests : q.device.2.map Execution.request = submitted.take q.device.2.length
  asked : ∀ id circuit shots, q.record? id = some (.queued circuit shots) ∨
    q.record? id = some (.running circuit shots) →
    ∃ i, id = ⟨i + 1⟩ ∧ submitted[i]? = some (circuit, shots)
  answered : ∀ id record, q.record? id = some record → record.isFinished = true →
    ∃ i e, id = ⟨i + 1⟩ ∧ q.device.2[i]? = some e ∧ record = .ofAnswer e.answer

theorem accounted_start (device : σ) :
    Accounted [] (start (device, []) : JobQueue R (σ × List (Execution R))) where
  next := rfl
  total := rfl
  pending := rfl
  requests := rfl
  asked id circuit shots h := by
    rw [record?_start] at h
    rcases h with h | h <;> cases h
  answered id record h := by
    rw [record?_start] at h
    cases h

namespace Accounted

variable {submitted : List (Circuit R × ℕ)} {q : JobQueue R (σ × List (Execution R))}
  (h : Accounted submitted q)
include h

theorem submit (circuit : Circuit R) (shots : ℕ) :
    Accounted (submitted ++ [(circuit, shots)]) (q.submit circuit shots).2 := by
  have hpending : (q.submit circuit shots).2.pending = q.pending ++ [⟨q.nextNumber⟩] :=
    (List.append_assoc _ _ _).symm
  have htotal := h.total
  have hnext := h.next
  refine ⟨?_, ?_, ?_, ?_, ?_, ?_⟩
  · rw [List.length_append, List.length_singleton, ← h.next]
    rfl
  · rw [hpending, List.length_append, List.length_append, ← h.total, Nat.add_assoc]
    rfl
  · rw [hpending, List.map_append, h.pending, List.length_append, List.length_singleton,
      List.range'_concat]
    have hlast : q.nextNumber = q.device.2.length + 1 + 1 * q.pending.length := by omega
    rw [List.map_singleton, hlast]
    rfl
  · rw [List.take_append_of_le_length (by show q.device.2.length ≤ _; omega)]
    exact h.requests
  · intro id circuit' shots' hrecord
    rw [record?_submit] at hrecord
    split_ifs at hrecord with hid
    · refine ⟨submitted.length, by rw [hid, h.next], ?_⟩
      rcases hrecord with hrecord | hrecord
      · cases hrecord
        simp
      · cases hrecord
    · obtain ⟨i, hi, hget⟩ := h.asked id circuit' shots' hrecord
      exact ⟨i, hi, List.getElem?_append_left (List.getElem?_eq_some_iff.mp hget).1 ▸ hget⟩
  · intro id record hrecord hfinished
    rw [record?_submit] at hrecord
    split_ifs at hrecord with hid
    · cases hrecord
      cases hfinished
    · exact h.answered id record hrecord hfinished

theorem started (hq : q.Sound) {id : JobId} {rest : List JobId} (hactive : q.active = none)
    (hwaiting : q.waiting = id :: rest) : Accounted submitted (q.started id rest) := by
  have hpending : (q.started id rest).pending = q.pending := by
    rw [JobQueue.pending, JobQueue.pending, hactive, hwaiting]
    rfl
  have hfirst : id ∈ q.waiting := by simp [hwaiting]
  obtain ⟨circuit, shots, hqueued⟩ := hq.record?_of_waiting hfirst
  refine ⟨h.next, by rw [hpending]; exact h.total, by rw [hpending]; exact h.pending, h.requests,
    fun id' circuit' shots' hrecord => ?_, fun id' record hrecord hfinished => ?_⟩
  · rw [record?_started] at hrecord
    split_ifs at hrecord with hid
    · rw [hqueued] at hrecord
      rcases hrecord with hrecord | hrecord
      · cases hrecord
      · cases hrecord
        exact h.asked id' _ _ (.inl (hid ▸ hqueued))
    · exact h.asked id' circuit' shots' hrecord
  · rw [record?_started] at hrecord
    split_ifs at hrecord with hid
    · rw [hqueued] at hrecord
      cases hrecord
      cases hfinished
    · exact h.answered id' record hrecord hfinished

theorem settled {id : JobId} {circuit : Circuit R} {shots : ℕ} {answer : Except Failure Histogram}
    {device : σ} (hactive : q.active = some id)
    (hrecord : q.record? id = some (.running circuit shots)) :
    Accounted submitted (q.settled id (.ofAnswer answer)
      (device, q.device.2 ++ [⟨circuit, shots, answer⟩])) := by
  have hpending : q.pending = id :: q.waiting := by
    rw [JobQueue.pending, hactive]
    rfl
  have htotal := h.total
  rw [hpending, List.length_cons] at htotal
  have hnumbers := h.pending
  rw [hpending, List.map_cons, List.length_cons, List.range'_succ, List.cons.injEq] at hnumbers
  obtain ⟨hnumber, hrest⟩ := hnumbers
  -- the running job is the first that was not executed
  have hid : id = ⟨q.device.2.length + 1⟩ := JobId.number_inj.mp hnumber
  obtain ⟨i, hi, hsubmitted⟩ := h.asked id circuit shots (.inr hrecord)
  have hfirst : i = q.device.2.length := by
    rw [hid, JobId.mk.injEq] at hi
    omega
  subst hfirst
  have hlength : (q.device.2 ++ [(⟨circuit, shots, answer⟩ : Execution R)]).length =
      q.device.2.length + 1 := by simp
  have hfinished : (JobRecord.ofAnswer answer : JobRecord R).isFinished = true :=
    JobRecord.isFinished_ofAnswer answer
  refine ⟨h.next, ?_, ?_, ?_, fun id' circuit' shots' hafter => ?_,
    fun id' record hafter hdone => ?_⟩
  · show (q.device.2 ++ [_]).length + q.waiting.length = _
    rw [hlength]
    omega
  · show q.waiting.map JobId.number = List.range' ((q.device.2 ++ [_]).length + 1) q.waiting.length
    rw [hlength]
    exact hrest
  · show (q.device.2 ++ [_]).map Execution.request = submitted.take (q.device.2 ++ [_]).length
    rw [hlength, List.take_add_one, hsubmitted, List.map_append, h.requests]
    rfl
  · rw [record?_settled] at hafter
    split_ifs at hafter with hid'
    · rw [hrecord, Option.map_some, Option.some.injEq, Option.some.injEq] at hafter
      rcases hafter with hafter | hafter <;>
        · rw [hafter] at hfinished
          cases hfinished
    · exact h.asked id' circuit' shots' hafter
  · rw [record?_settled] at hafter
    split_ifs at hafter with hid'
    · rw [hrecord, Option.map_some, Option.some.injEq] at hafter
      exact ⟨q.device.2.length, ⟨circuit, shots, answer⟩, hid'.trans hid,
        List.getElem?_concat_length, hafter.symm⟩
    · obtain ⟨j, e, hj, he, hanswer⟩ := h.answered id' record hafter hdone
      have hlt := (List.getElem?_eq_some_iff.mp he).1
      exact ⟨j, e, hj, (List.getElem?_append_left hlt).trans he, hanswer⟩

theorem forgotten (id : JobId) : Accounted submitted (q.forgotten id) := by
  refine ⟨h.next, h.total, h.pending, h.requests, fun id' circuit shots hrecord => ?_,
    fun id' record hrecord hfinished => ?_⟩
  · rw [record?_forgotten] at hrecord
    split_ifs at hrecord with hid
    · rcases hrecord with hrecord | hrecord <;> cases hrecord
    · exact h.asked id' circuit shots hrecord
  · rw [record?_forgotten] at hrecord
    split_ifs at hrecord
    exact h.answered id' record hrecord hfinished

theorem perform (hq : q.Sound) (backend : Backend R σ) (call : Call R) :
    Accounted (submitted ++ call.submission?.toList) (q.perform backend.noting call) := by
  cases hcall : call.submission? with
  | some submission =>
    cases call with
    | submit circuit shots =>
      cases hcall
      exact h.submit circuit shots
    | _ => cases hcall
  | none =>
    rw [Option.toList_none, List.append_nil]
    refine hq.keeps h ?_ ?_ ?_ ?_
    · rintro circuit shots rfl
      cases hcall
    · intro q hq h id rest hactive hwaiting
      exact h.started hq hactive hwaiting
    · intro q _ h id circuit shots answer device hactive hrecord hanswer
      rw [Backend.noting, Attempt.outcome_of] at hanswer
      cases hanswer
      exact h.settled hactive hrecord
    · intro id _ _
      exact h.forgotten id

/-- The jobs that were not executed are the ones that are pending. -/
theorem mem_pending {i : ℕ} :
    ⟨i + 1⟩ ∈ q.pending ↔ q.device.2.length ≤ i ∧ i < submitted.length := by
  have hmap : (⟨i + 1⟩ : JobId) ∈ q.pending ↔ i + 1 ∈ q.pending.map JobId.number := by
    rw [List.mem_map]
    constructor
    · intro hmem
      exact ⟨_, hmem, rfl⟩
    · rintro ⟨id, hmem, hid⟩
      rwa [← JobId.number_inj.mp hid]
  have htotal := h.total
  rw [hmap, h.pending, List.mem_range'_1]
  omega

theorem requests_prefix : q.device.2.map Execution.request <+: submitted := by
  rw [h.requests]
  exact List.take_prefix _ _

end Accounted

theorem accounted_run (backend : Backend R σ) (device : σ) (calls : List (Call R)) :
    Accounted (submissions calls) ((start (device, [])).run backend.noting calls) := by
  induction calls using List.reverseRecOn with
  | nil => exact accounted_start device
  | append_singleton calls call ih =>
    have hstep := ih.perform (sound_run _ calls) backend call
    have hsplit : submissions (calls ++ [call]) =
        submissions calls ++ call.submission?.toList := by
      rw [submissions, List.filterMap_append, List.filterMap_cons]
      cases call.submission? <;> rfl
    rw [run_concat, hsplit]
    exact hstep

/-- **Jobs are executed in the order of their submission, each once, and outcomes are never mixed
up.** In front of a device that notes its executions, which changes nothing else, every run leads to
executions that are a first part of what was submitted: the `i`-th submission gets the number
`i + 1`, the `i`-th execution is the one of that job, and there is one as soon as the job no longer
waits or runs. The outcome that is kept of a job is the answer to its own execution. -/
theorem executed_in_order (backend : Backend R σ) (device : σ) (calls : List (Call R)) :
    let q := (start (device, [])).run backend.noting calls
    let executions := q.device.2
    let submitted := submissions calls
    (start device).run backend calls = q.bare ∧
      (∀ circuit shots, (q.submit circuit shots).1 = ⟨submitted.length + 1⟩) ∧
      executions.map Execution.request <+: submitted ∧
      (∀ i < submitted.length, i < executions.length ↔
        ¬ (q.status ⟨i + 1⟩ = .ok .queued ∨ q.status ⟨i + 1⟩ = .ok .running)) ∧
      (∀ id histogram, q.record? id = some (.done histogram) → ∃ i e, id = ⟨i + 1⟩ ∧
        executions[i]? = some e ∧ e.answer = .ok histogram) ∧
      (∀ id message, q.record? id = some (.failed message) → ∃ i e failure, id = ⟨i + 1⟩ ∧
        executions[i]? = some e ∧ e.answer = .error failure ∧ message = failure.detail) := by
  intro q executions submitted
  have hsound : q.Sound := sound_run _ calls
  have h : Accounted submitted q := accounted_run backend device calls
  refine ⟨run_bare backend (start (device, [])) calls, fun circuit shots => ?_, h.requests_prefix,
    fun i hi => ?_, fun id histogram hrecord => ?_, fun id message hrecord => ?_⟩
  · exact congrArg JobId.mk h.next
  · rw [← hsound.mem_pending, h.mem_pending, not_and]
    constructor
    · intro hlt hle
      exact absurd hlt (Nat.not_lt.mpr hle)
    · intro hnot
      by_contra hle
      exact hnot (Nat.not_lt.mp hle) hi
  · obtain ⟨i, e, hid, he, hanswer⟩ := h.answered id _ hrecord rfl
    refine ⟨i, e, hid, he, ?_⟩
    cases hcase : e.answer with
    | ok histogram' =>
      rw [hcase] at hanswer
      cases hanswer
      rfl
    | error failure =>
      rw [hcase] at hanswer
      cases hanswer
  · obtain ⟨i, e, hid, he, hanswer⟩ := h.answered id _ hrecord rfl
    cases hcase : e.answer with
    | ok histogram =>
      rw [hcase] at hanswer
      cases hanswer
    | error failure =>
      rw [hcase] at hanswer
      cases hanswer
      exact ⟨i, e, failure, hid, he, hcase, rfl⟩

/-- Two jobs, of which the device fails on the second. -/
theorem executed_in_order_twoJobs :
    let c : Circuit ℝ := .empty .empty
    let q := (start ([.ok (.empty 5), mistrust (.reported "device offline")], [])).run
      (Backend.replay ℝ).noting [.submit c 5, .submit c 7, .processNext, .processNext]
    q.device.2.map Execution.request = [(c, 5), (c, 7)] ∧
      q.record? ⟨2⟩ = some (.failed "device offline") ∧
      ∃ i e failure, (⟨2⟩ : JobId) = ⟨i + 1⟩ ∧ q.device.2[i]? = some e ∧
        e.answer = .error failure ∧ "device offline" = failure.detail := by
  intro c q
  obtain ⟨-, -, -, -, -, hfailed⟩ := executed_in_order (.replay ℝ)
    [.ok (.empty 5), mistrust (.reported "device offline")]
    [.submit c 5, .submit c 7, .processNext, .processNext]
  have hrecord : q.record? ⟨2⟩ = some (.failed "device offline") := rfl
  exact ⟨rfl, hrecord, hfailed ⟨2⟩ _ hrecord⟩

end JobQueue

end LatticeWalk
