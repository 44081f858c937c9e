import LatticeWalk.Proofs.Lookup
import LatticeWalk.Job.Queue

/-! # The steps of a job queue

A queue changes in four ways: a job is submitted, started, settled or forgotten. Every call is made
of these steps.

* `JobQueue.Call`, `JobQueue.perform`, `JobQueue.run`: what a queue may be asked, and the queue
  after a call and after several.
* `JobQueue.Finished`: a job has an outcome.
* `JobQueue.started`, `JobQueue.settled`, `JobQueue.forgotten`: the queue after a step, with what
  becomes of records and statuses.
* `JobQueue.startNext_cases`, `JobQueue.finishRunning_of_running`, `JobQueue.take_eq`: the calls as
  steps.
* `JobQueue.keeps_perform`, `JobQueue.keeps_run`: what every step keeps, calls and runs keep. -/

namespace LatticeWalk

theorem JobId.number_inj {id id' : JobId} : id.number = id'.number ↔ id = id' := by
  cases id
  cases id'
  exact JobId.mk.injEq _ _ ▸ Iff.rfl

namespace JobRecord

variable {R : Type}

/-- What is kept of a job whose execution gave an answer. -/
def ofAnswer : Except Failure Histogram → JobRecord R
  | .ok histogram => .done histogram
  | .error failure => .failed failure.detail

theorem isFinished_ofAnswer (answer : Except Failure Histogram) :
    (ofAnswer answer : JobRecord R).isFinished = true := by cases answer <;> rfl

theorem isFinished_iff {record : JobRecord R} :
    record.isFinished = true ↔ record.status = .done ∨ record.status = .failed := by
  cases record <;> simp [isFinished, status]

theorem status_ne_of_finished {record : JobRecord R} (h : record.isFinished = true) :
    record.status ≠ .queued ∧ record.status ≠ .running := by
  rcases isFinished_iff.mp h with h | h <;> simp [h]

theorem status_eq_queued {record : JobRecord R} :
    record.status = .queued ↔ ∃ circuit shots, record = .queued circuit shots := by
  cases record <;> simp [status]

theorem status_eq_running {record : JobRecord R} :
    record.status = .running ↔ ∃ circuit shots, record = .running circuit shots := by
  cases record <;> simp [status]

theorem status_started {record : JobRecord R} (h : record.status = .queued) :
    record.started.status = .running := by
  obtain ⟨circuit, shots, rfl⟩ := status_eq_queued.mp h
  rfl

end JobRecord

namespace JobQueue

variable {R σ : Type}

/-! ### Calls -/

/-- What a queue may be asked. -/
inductive Call (R : Type) where
  | submit (circuit : Circuit R) (shots : ℕ)
  | startNext
  | finishRunning
  | processNext
  | runUntilIdle
  | take (id : JobId)
  | retrieve (id : JobId)
  | status (id : JobId)

/-- The queue after a call. -/
def perform (backend : Backend R σ) (q : JobQueue R σ) : Call R → JobQueue R σ
  | .submit circuit shots => (q.submit circuit shots).2
  | .startNext => q.startNext.2
  | .finishRunning => (q.finishRunning backend).2
  | .processNext => (q.processNext backend).2
  | .runUntilIdle => (q.runUntilIdle backend).2
  | .take id => (q.take id).2
  | .retrieve _ | .status _ => q

/-- The queue after some calls, one after the other. -/
def run (backend : Backend R σ) (q : JobQueue R σ) (calls : List (Call R)) : JobQueue R σ :=
  calls.foldl (perform backend) q

variable {backend : Backend R σ}

theorem run_append (q : JobQueue R σ) (calls later : List (Call R)) :
    q.run backend (calls ++ later) = (q.run backend calls).run backend later :=
  List.foldl_append

theorem run_concat (q : JobQueue R σ) (calls : List (Call R)) (call : Call R) :
    q.run backend (calls ++ [call]) = (q.run backend calls).perform backend call :=
  run_append q calls [call]

/-! ### What one step does -/

theorem status_eq_ok {q : JobQueue R σ} {id : JobId} {s : JobStatus} :
    q.status id = .ok s ↔ ∃ record, q.record? id = some record ∧ record.status = s := by
  unfold status
  cases q.record? id with
  | none => simp
  | some record => simp

/-- The job has an outcome. -/
def Finished (q : JobQueue R σ) (id : JobId) : Prop :=
  q.status id = .ok .done ∨ q.status id = .ok .failed

instance (q : JobQueue R σ) (id : JobId) : Decidable (q.Finished id) :=
  inferInstanceAs (Decidable (_ ∨ _))

theorem finished_iff {q : JobQueue R σ} {id : JobId} :
    q.Finished id ↔ ∃ record, q.record? id = some record ∧ record.isFinished = true := by
  simp only [Finished, status_eq_ok, JobRecord.isFinished_iff]
  constructor
  · rintro (⟨record, hrecord, hdone⟩ | ⟨record, hrecord, hfailed⟩)
    · exact ⟨record, hrecord, .inl hdone⟩
    · exact ⟨record, hrecord, .inr hfailed⟩
  · rintro ⟨record, hrecord, hdone | hfailed⟩
    · exact .inl ⟨record, hrecord, hdone⟩
    · exact .inr ⟨record, hrecord, hfailed⟩

theorem Finished.ne_queued {q : JobQueue R σ} {id : JobId} (h : q.Finished id) :
    q.status id ≠ .ok .queued := by
  rcases h with h | h <;> simp [h]

theorem Finished.ne_running {q : JobQueue R σ} {id : JobId} (h : q.Finished id) :
    q.status id ≠ .ok .running := by
  rcases h with h | h <;> simp [h]

theorem record?_start (device : σ) (id : JobId) : (start device : JobQueue R σ).record? id = none :=
  OrderedMap.find?_empty _

theorem record?_submit (q : JobQueue R σ) (circuit : Circuit R) (shots : ℕ) (id : JobId) :
    (q.submit circuit shots).2.record? id =
      if id = ⟨q.nextNumber⟩ then some (.queued circuit shots) else q.record? id := by
  simp only [← JobId.number_inj]
  exact OrderedMap.find?_insert _ _ _ _

theorem record?_submit_self (q : JobQueue R σ) (circuit : Circuit R) (shots : ℕ) :
    (q.submit circuit shots).2.record? (q.submit circuit shots).1 =
      some (.queued circuit shots) :=
  (record?_submit q circuit shots _).trans (if_pos rfl)

theorem status_submit (q : JobQueue R σ) (circuit : Circuit R) (shots : ℕ) (id : JobId) :
    (q.submit circuit shots).2.status id =
      if id = ⟨q.nextNumber⟩ then .ok .queued else q.status id := by
  unfold status
  rw [record?_submit]
  split_ifs <;> rfl

/-- The queue with the first of those that wait moved to the place of the one that runs. -/
def started (q : JobQueue R σ) (id : JobId) (rest : List JobId) : JobQueue R σ :=
  { q with
    waiting := rest
    active := some id
    records := q.records.modify id.number JobRecord.started }

theorem record?_started (q : JobQueue R σ) (id : JobId) (rest : List JobId) (id' : JobId) :
    (q.started id rest).record? id' =
      if id' = id then (q.record? id).map JobRecord.started else q.record? id' := by
  simp only [← JobId.number_inj]
  exact OrderedMap.find?_modify _ _ _ _

theorem status_started {q : JobQueue R σ} {id : JobId} (h : q.status id = .ok .queued)
    (rest : List JobId) (id' : JobId) :
    (q.started id rest).status id' = if id' = id then .ok .running else q.status id' := by
  obtain ⟨record, hrecord, hstatus⟩ := status_eq_ok.mp h
  have hstarted := JobRecord.status_started hstatus
  unfold status
  rw [record?_started, hrecord]
  split_ifs
  · simp [hstarted]
  · rfl

/-- **A start** does nothing, or moves the first of those that wait to a free place. -/
theorem startNext_cases (q : JobQueue R σ) :
    q.startNext = (none, q) ∨
      ∃ id rest, q.active = none ∧ q.waiting = id :: rest ∧
        q.startNext = (some id, q.started id rest) := by
  unfold startNext
  split
  case h_1 id rest hactive hwaiting => exact .inr ⟨id, rest, hactive, hwaiting, rfl⟩
  case h_2 => exact .inl rfl

/-- The queue with the place of the running job free, and `record` kept of it. -/
def settled (q : JobQueue R σ) (id : JobId) (record : JobRecord R) (device : σ) : JobQueue R σ :=
  { q with
    device := device
    active := none
    records := q.records.modify id.number fun _ => record }

theorem record?_settled (q : JobQueue R σ) (id : JobId) (record : JobRecord R) (device : σ)
    (id' : JobId) : (q.settled id record device).record? id' =
      if id' = id then (q.record? id).map fun _ => record else q.record? id' := by
  simp only [← JobId.number_inj]
  exact OrderedMap.find?_modify _ _ _ _

theorem status_settled {q : JobQueue R σ} {id : JobId} (h : (q.record? id).isSome)
    (record : JobRecord R) (device : σ) (id' : JobId) : (q.settled id record device).status id' =
      if id' = id then .ok record.status else q.status id' := by
  obtain ⟨before, hbefore⟩ := Option.isSome_iff_exists.mp h
  unfold status
  rw [record?_settled, hbefore]
  split_ifs <;> rfl

theorem finishRunning_of_none {q : JobQueue R σ} (h : q.active = none) :
    q.finishRunning backend = (none, q) := by
  unfold finishRunning
  rw [h]

theorem finishRunning_of_running {q : JobQueue R σ} {id : JobId} {circuit : Circuit R} {shots : ℕ}
    (hactive : q.active = some id) (hrecord : q.record? id = some (.running circuit shots))
    {answer : Except Failure Histogram} {device : σ}
    (hanswer : (backend.execute circuit shots).outcome q.device = (answer, device)) :
    q.finishRunning backend = (some (JobRecord.ofAnswer answer : JobRecord R).status,
      q.settled id (.ofAnswer answer) device) := by
  unfold finishRunning
  rw [hactive]
  simp only [hrecord, finished, hanswer]
  cases answer <;> rfl

/-- The queue without what is kept of a job. -/
def forgotten (q : JobQueue R σ) (id : JobId) : JobQueue R σ :=
  { q with records := q.records.erase id.number }

theorem record?_forgotten (q : JobQueue R σ) (id id' : JobId) :
    (q.forgotten id).record? id' = if id' = id then none else q.record? id' := by
  simp only [← JobId.number_inj]
  exact OrderedMap.find?_erase _ _ _

theorem status_forgotten (q : JobQueue R σ) (id id' : JobId) : (q.forgotten id).status id' =
    if id' = id then .error (.unknownJob id') else q.status id' := by
  unfold status
  rw [record?_forgotten]
  split_ifs <;> rfl

/-- **A take** answers as `retrieve` does, and forgets a job that has finished. -/
theorem take_eq (q : JobQueue R σ) (id : JobId) :
    q.take id = (q.retrieve id, if q.Finished id then q.forgotten id else q) := by
  simp only [finished_iff]
  unfold take
  cases q.record? id with
  | none => simp
  | some record =>
    simp only [Option.some.injEq, exists_eq_left']
    rfl

/-! ### What every step keeps -/

theorem drain_of_none {q : JobQueue R σ} (h : (q.processNext backend).1 = none) :
    q.drain backend = (0, (q.processNext backend).2) := by
  rw [drain]
  split <;> simp_all

theorem drain_of_some {q : JobQueue R σ} {job : JobId × JobStatus}
    (h : (q.processNext backend).1 = some job) :
    q.drain backend = (((q.processNext backend).2.drain backend).1 + 1,
      ((q.processNext backend).2.drain backend).2) := by
  rw [drain]
  split <;> simp_all

section keeps
variable {P : JobQueue R σ → Prop} (hstart : ∀ q, P q → P q.startNext.2)
  (hfinish : ∀ q, P q → P (q.finishRunning backend).2)
include hstart hfinish

theorem keeps_processNext {q : JobQueue R σ} (h : P q) : P (q.processNext backend).2 := by
  have hnext := hstart q h
  unfold processNext
  split
  case h_1 heq => rwa [heq] at hnext
  case h_2 heq =>
    rw [heq] at hnext
    exact hfinish _ hnext

theorem keeps_drain (q : JobQueue R σ) (h : P q) : P (q.drain backend).2 := by
  have hnext := keeps_processNext hstart hfinish h
  cases hjob : (q.processNext backend).1 with
  | none => rwa [drain_of_none hjob]
  | some job =>
    rw [drain_of_some hjob]
    exact keeps_drain _ hnext
termination_by q.waiting.length
decreasing_by exact length_waiting_processNext (by rw [hjob]; rfl)

/-- What starts and executions keep, is kept by every call that neither submits nor takes. -/
theorem keeps_perform {call : Call R} {q : JobQueue R σ} (h : P q)
    (hsubmit : ∀ circuit shots, call = .submit circuit shots → P (q.submit circuit shots).2)
    (htake : ∀ id, call = .take id → P (q.take id).2) : P (q.perform backend call) := by
  cases call with
  | submit circuit shots => exact hsubmit circuit shots rfl
  | startNext => exact hstart q h
  | finishRunning => exact hfinish q h
  | processNext => exact keeps_processNext hstart hfinish h
  | runUntilIdle => exact keeps_drain hstart hfinish _ (hfinish q h)
  | take id => exact htake id rfl
  | retrieve id => exact h
  | status id => exact h

end keeps

theorem keeps_run {P : JobQueue R σ → Prop} {calls : List (Call R)}
    (hstep : ∀ call ∈ calls, ∀ q, P q → P (q.perform backend call)) {q : JobQueue R σ} (h : P q) :
    P (q.run backend calls) :=
  List.foldlRecOn calls _ h fun q hq call hcall => hstep call hcall q hq

end JobQueue

end LatticeWalk
