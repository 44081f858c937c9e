import LatticeWalk.Proofs.JobOrder

/-! # Draining a queue

A queue that is run until it is idle executes the jobs that are pending, each once and in the order
of their submission, and nothing else.

* `JobQueue.request?`: what a pending job asks the device for.
* `JobQueue.Drained`: some jobs were executed and their answers kept, and all other records are as
  they were; `JobQueue.Drained.cons` puts one execution in front of others.
* `JobQueue.Sound.drained_finishRunning`, `JobQueue.Sound.drained_processNext`: one job.
* `JobQueue.Sound.drained_drain`: all that wait, by induction on their list.
* `JobQueue.runUntilIdle_drains`: what follows of every queue that calls lead to. -/

namespace LatticeWalk

variable {R σ : Type}

namespace JobQueue

/-! ### Jobs that are executed -/

/-- What a job that has not finished asks the device for. -/
def request? (q : JobQueue R σ) (id : JobId) : Option (Circuit R × ℕ) :=
  match q.record? id with
  | some (.queued circuit shots) | some (.running circuit shots) => some (circuit, shots)
  | _ => none

theorem request?_congr {q q' : JobQueue R σ} {id : JobId} (h : q'.record? id = q.record? id) :
    q'.request? id = q.request? id := by
  unfold request?
  rw [h]

theorem request?_started (q : JobQueue R σ) (id : JobId) (rest : List JobId) (id' : JobId) :
    (q.started id rest).request? id' = q.request? id' := by
  unfold request?
  rw [record?_started]
  split_ifs with hid
  · subst hid
    rcases q.record? id' with _ | (_ | _ | _ | _) <;> rfl
  · rfl

/-- **Some jobs were executed**: the device noted their executions in this order, each is what the
job had asked for and its answer is kept, and of all other jobs the same is kept as before. -/
structure Drained (q q' : JobQueue R (σ × List (Execution R))) (ids : List JobId)
    (executions : List (Execution R)) : Prop where
  noted : q'.device.2 = q.device.2 ++ executions
  settled : List.Forall₂ (fun id e => q.request? id = some e.request ∧
    q'.record? id = some (.ofAnswer e.answer)) ids executions
  others : ∀ id ∉ ids, q'.record? id = q.record? id

namespace Drained

variable {q q' q'' : JobQueue R (σ × List (Execution R))} {id : JobId} {ids : List JobId}
  {e : Execution R} {executions : List (Execution R)}

theorem refl (q : JobQueue R (σ × List (Execution R))) : Drained q q [] [] :=
  ⟨(List.append_nil _).symm, .nil, fun _ _ => rfl⟩

theorem cons (h : Drained q q' [id] [e]) (h' : Drained q' q'' ids executions) (hid : id ∉ ids) :
    Drained q q'' (id :: ids) (e :: executions) := by
  obtain ⟨⟨hasked, hkept⟩, -⟩ := List.forall₂_cons.mp h.settled
  refine ⟨?_, .cons ⟨hasked, (h'.others id hid).trans hkept⟩ ?_, fun other hother => ?_⟩
  · rw [h'.noted, h.noted, List.append_assoc, List.singleton_append]
  · -- the other jobs asked for the same before the first execution
    obtain ⟨hlength, hzip⟩ := List.forall₂_iff_zip.mp h'.settled
    refine List.forall₂_iff_zip.mpr ⟨hlength, fun {other _} hmem => ?_⟩
    have hne : other ∉ [id] := by
      rw [List.mem_singleton]
      exact ne_of_mem_of_not_mem (List.of_mem_zip hmem).1 hid
    exact ⟨request?_congr (h.others other hne) ▸ (hzip hmem).1, (hzip hmem).2⟩
  · rw [List.mem_cons, not_or] at hother
    rw [h'.others other hother.2, h.others other (by simpa using hother.1)]

theorem of_started {rest : List JobId} (h : Drained (q.started id rest) q' [id] [e]) :
    Drained q q' [id] [e] := by
  obtain ⟨⟨hasked, hkept⟩, -⟩ := List.forall₂_cons.mp h.settled
  refine ⟨h.noted, .cons ⟨request?_started q id rest id ▸ hasked, hkept⟩ .nil,
    fun other hother => ?_⟩
  rw [h.others other hother, record?_started, if_neg (by simpa using hother)]

theorem finished (h : Drained q q' ids executions) : ∀ id ∈ ids, q'.Finished id := by
  refine ((List.forall₂_and_left ids executions).mp (h.settled.imp fun id e he => ⟨?_, he⟩)).1
  exact finished_iff.mpr ⟨_, he.2, JobRecord.isFinished_ofAnswer _⟩

end Drained

/-- If no job is pending, all that was submitted has been executed. -/
theorem Accounted.requests_of_idle {submitted : List (Circuit R × ℕ)}
    {q : JobQueue R (σ × List (Execution R))} (h : Accounted submitted q) (hidle : q.pending = []) :
    q.device.2.map Execution.request = submitted := by
  have htotal := h.total
  rw [hidle, List.length_nil, Nat.add_zero] at htotal
  rw [h.requests, htotal, List.take_length]

/-! ### One job and all jobs -/

namespace Sound

variable {q : JobQueue R (σ × List (Execution R))} (h : q.Sound) (backend : Backend R σ)
include h

/-- **The running job** is executed and leaves its place. -/
theorem drained_finishRunning {id : JobId} (hactive : q.active = some id) : ∃ status q' e,
    q.finishRunning backend.noting = (some status, q') ∧ q'.active = none ∧
      q'.waiting = q.waiting ∧ Drained q q' [id] [e] := by
  obtain ⟨circuit, shots, hrecord⟩ := h.record?_of_active hactive
  refine ⟨_, _, ⟨circuit, shots, _⟩, finishRunning_of_running hactive hrecord rfl, rfl, rfl, rfl,
    .cons ⟨?_, ?_⟩ .nil, fun other hother => ?_⟩
  · unfold request?
    rw [hrecord]
    rfl
  · rw [record?_settled, if_pos rfl, hrecord]
    rfl
  · rw [record?_settled, if_neg (by simpa using hother)]

/-- **The first of those that wait** is executed and leaves the queue. -/
theorem drained_processNext {id : JobId} {rest : List JobId} (hactive : q.active = none)
    (hwaiting : q.waiting = id :: rest) : ∃ job q' e,
    q.processNext backend.noting = (some job, q') ∧ q'.active = none ∧ q'.waiting = rest ∧
      Drained q q' [id] [e] := by
  obtain ⟨status, q', e, hfinish, hnone, hrest, hdrained⟩ :=
    (h.started hactive hwaiting).drained_finishRunning backend rfl
  refine ⟨(id, status), q', e, ?_, hnone, hrest, hdrained.of_started⟩
  have hnext : q.startNext = (some id, q.started id rest) := by
    unfold JobQueue.startNext
    rw [hactive, hwaiting]
    rfl
  unfold processNext
  rw [hnext]
  dsimp only
  rw [hfinish]
  rfl

end Sound

theorem processNext_of_idle (backend : Backend R σ) {q : JobQueue R σ} (hwaiting : q.waiting = []) :
    q.processNext backend = (none, q) := by
  rcases q.startNext_cases with hnext | ⟨id, rest, -, hfirst, -⟩
  · unfold processNext
    rw [hnext]
  · rw [hwaiting] at hfirst
    cases hfirst

/-- **All jobs that wait** are executed if none runs. The induction is on the jobs that wait. -/
theorem Sound.drained_drain (backend : Backend R σ) {q : JobQueue R (σ × List (Execution R))}
    (h : q.Sound) (hactive : q.active = none) : ∃ q' executions,
      q.drain backend.noting = (q.waiting.length, q') ∧ q'.active = none ∧ q'.waiting = [] ∧
        Drained q q' q.waiting executions := by
  induction hwaiting : q.waiting generalizing q with
  | nil =>
    have hnext := processNext_of_idle backend.noting hwaiting
    have hdrain : q.drain backend.noting = (0, q) := by
      rw [drain_of_none (by rw [hnext]), hnext]
    exact ⟨q, [], hdrain, hactive, hwaiting, .refl q⟩
  | cons id rest ih =>
    obtain ⟨job, q₁, e, hnext, hnone, hrest, hfirst⟩ :=
      h.drained_processNext backend hactive hwaiting
    have hsound : q₁.Sound := by
      have hall : (q.perform backend.noting .processNext).Sound := h.perform .processNext
      rwa [JobQueue.perform, hnext] at hall
    obtain ⟨q', executions, hdrain, hidle, hempty, hothers⟩ := ih hsound hnone hrest
    have hnotin : id ∉ rest := by
      have hascending := hwaiting ▸ h.ascending
      exact fun hid => lt_irrefl _ ((List.pairwise_cons.mp hascending).1 id hid)
    refine ⟨q', e :: executions, ?_, hidle, hempty, hfirst.cons hothers hnotin⟩
    have hsome : (q.processNext backend.noting).1 = some job := by rw [hnext]
    rw [drain_of_some hsome, hnext, hdrain, List.length_cons]

/-- **All pending jobs** are executed by a run until the queue is idle. -/
theorem Sound.drained_runUntilIdle (backend : Backend R σ)
    {q : JobQueue R (σ × List (Execution R))} (h : q.Sound) : ∃ q' executions,
      q.runUntilIdle backend.noting = (q.pending.length, q') ∧ q'.active = none ∧
        q'.waiting = [] ∧ Drained q q' q.pending executions := by
  unfold runUntilIdle
  cases hactive : q.active with
  | none =>
    obtain ⟨q', executions, hdrain, hidle, hempty, hdrained⟩ := h.drained_drain backend hactive
    refine ⟨q', executions, ?_, hidle, hempty, ?_⟩
    · rw [finishRunning_of_none hactive, pending, hactive]
      dsimp only
      rw [hdrain]
      rfl
    · rwa [pending, hactive]
  | some id =>
    obtain ⟨status, q₁, e, hfinish, hnone, hwaiting, hfirst⟩ :=
      h.drained_finishRunning backend hactive
    have hsound : q₁.Sound := by
      have hall : (q.finishRunning backend.noting).2.Sound := h.finishRunning
      rwa [hfinish] at hall
    obtain ⟨q', executions, hdrain, hidle, hempty, hothers⟩ := hsound.drained_drain backend hnone
    have hnotin : id ∉ q.waiting := fun hid => lt_irrefl _ (h.ahead id hactive id hid)
    rw [hwaiting] at hdrain hothers
    refine ⟨q', e :: executions, ?_, hidle, hempty, ?_⟩
    · rw [hfinish, pending, hactive]
      dsimp only
      rw [hdrain]
      rfl
    · rw [pending, hactive]
      exact hfirst.cons hothers hnotin

/-! ### Every queue that calls lead to -/

/-- **A run until the queue is idle drains everything exactly once.** Whatever a queue was asked
before and whatever its device answers, it counts the jobs that were pending, which are those that
waited or ran; it has the device execute what these ask for, each once and in the order of their
numbers, so that all that was ever submitted has been executed in its order. Behind it no job waits
or runs, every job that was pending has the outcome of its own execution, and of every other job the
same is kept as before. The notes of the device change nothing of this. -/
theorem runUntilIdle_drains (backend : Backend R σ) (device : σ) (calls : List (Call R)) :
    let q := (start (device, [])).run backend.noting calls
    ∃ q' executions, q.runUntilIdle backend.noting = (q.pending.length, q') ∧
      ((start device).run backend calls).runUntilIdle backend = (q.pending.length, q'.bare) ∧
      (∀ id, id ∈ q.pending ↔ q.status id = .ok .queued ∨ q.status id = .ok .running) ∧
      (q.pending.map JobId.number).Pairwise (· < ·) ∧
      q'.device.2 = q.device.2 ++ executions ∧
      q'.device.2.map Execution.request = submissions calls ∧
      List.Forall₂ (fun id e => q.request? id = some e.request ∧
        q'.record? id = some (.ofAnswer e.answer)) q.pending executions ∧
      q'.waiting = [] ∧ q'.active = none ∧
      (∀ id, q'.status id ≠ .ok .queued ∧ q'.status id ≠ .ok .running) ∧
      (∀ id ∈ q.pending, q'.Finished id) ∧
      ∀ id ∉ q.pending, q'.record? id = q.record? id := by
  intro q
  have hsound : q.Sound := sound_run _ calls
  have hbefore : Accounted (submissions calls) q := accounted_run backend device calls
  obtain ⟨q', executions, hrun, hidle, hempty, hdrained⟩ := hsound.drained_runUntilIdle backend
  have hcall : q.perform backend.noting .runUntilIdle = q' := congrArg Prod.snd hrun
  have hsound' : q'.Sound := hcall ▸ hsound.perform .runUntilIdle
  have hafter : Accounted (submissions calls) q' := by
    have hstep := hbefore.perform hsound backend .runUntilIdle
    have hnone : (Call.runUntilIdle : Call R).submission? = none := rfl
    rwa [hcall, hnone, Option.toList_none, List.append_nil] at hstep
  have hbare : (start device).run backend calls = q.bare :=
    run_bare backend (start (device, [])) calls
  refine ⟨q', executions, hrun, ?_, fun id => hsound.mem_pending, ?_, hdrained.noted,
    hafter.requests_of_idle ?_, hdrained.settled, hempty, hidle, fun id => ?_, hdrained.finished,
    hdrained.others⟩
  · rw [hbare, runUntilIdle_bare, hrun]
  · rw [hbefore.pending]
    exact List.pairwise_lt_range' ..
  · rw [pending, hidle, hempty]
    rfl
  · rw [Ne, Ne, hsound'.queued, hsound'.running, hempty, hidle]
    exact ⟨List.not_mem_nil, (Option.some_ne_none id).symm⟩

end JobQueue

end LatticeWalk
