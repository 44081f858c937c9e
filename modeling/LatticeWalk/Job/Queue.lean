import LatticeWalk.Backend
import LatticeWalk.Job.Id

/-! # Job queues

A queue in front of a device: circuits are submitted, executed one after the other in the order of
submission, and their outcomes kept until they are taken.

* `JobQueue.submit`: a circuit put at the end of the queue; nothing is executed.
* `JobQueue.startNext`, `JobQueue.finishRunning`, `JobQueue.processNext`, `JobQueue.runUntilIdle`:
  the queue moved on.
* `JobQueue.status`, `JobQueue.retrieve`, `JobQueue.take`: what became of a job; a finished job that
  is taken is forgotten. -/

namespace LatticeWalk

/-- How far a job has come. -/
inductive JobStatus where
  | queued
  | running
  | done
  | failed
  deriving Repr, DecidableEq

/-- The status as a word. -/
def JobStatus.spell : JobStatus → String
  | queued => "queued"
  | running => "running"
  | done => "done"
  | failed => "failed"

/-- What is kept of a job. -/
inductive JobRecord (R : Type) where
  | queued (circuit : Circuit R) (shots : Nat)
  | running (circuit : Circuit R) (shots : Nat)
  | done (histogram : Histogram)
  | failed (message : String)

namespace JobRecord

variable {R : Type}

def status : JobRecord R → JobStatus
  | queued _ _ => .queued
  | running _ _ => .running
  | done _ => .done
  | failed _ => .failed

/-- Whether the job has an outcome. -/
def isFinished : JobRecord R → Bool
  | done _ | failed _ => true
  | queued _ _ | running _ _ => false

/-- A queued job started. -/
def started : JobRecord R → JobRecord R
  | queued circuit shots => running circuit shots
  | other => other

end JobRecord

/-- Jobs waiting for a device of state `σ`, and what is kept of all jobs. -/
structure JobQueue (R σ : Type) where
  device : σ
  /-- The number of the next submission. -/
  nextNumber : Nat
  waiting : List JobId
  active : Option JobId
  records : OrderedMap Nat (JobRecord R)

namespace JobQueue

variable {R σ : Type}

/-- No jobs yet. -/
def start (device : σ) : JobQueue R σ := ⟨device, 1, [], none, .empty⟩

/-- What is kept of a job. -/
def record? (q : JobQueue R σ) (id : JobId) : Option (JobRecord R) := q.records.find? id.number

/-- The number of jobs of which something is kept. -/
def retained (q : JobQueue R σ) : Nat := q.records.size

/-- Puts a circuit at the end of the queue. -/
def submit (q : JobQueue R σ) (circuit : Circuit R) (shots : Nat) : JobId × JobQueue R σ :=
  let id : JobId := ⟨q.nextNumber⟩
  (id, { q with
    nextNumber := q.nextNumber + 1
    waiting := q.waiting ++ [id]
    records := q.records.insert id.number (.queued circuit shots) })

/-- Starts the job at the head of the queue, unless one is running. -/
def startNext (q : JobQueue R σ) : Option JobId × JobQueue R σ :=
  match q.active, q.waiting with
  | none, id :: rest =>
    (some id, { q with
      waiting := rest
      active := some id
      records := q.records.modify id.number JobRecord.started })
  | _, _ => (none, q)

/-- Executes what a running job asks for; any other record stays as it is. -/
def finished (backend : Backend R σ) (device : σ) : JobRecord R → JobRecord R × σ
  | .running circuit shots =>
    match (backend.execute circuit shots).outcome device with
    | (.ok histogram, device) => (.done histogram, device)
    | (.error failure, device) => (.failed failure.detail, device)
  | other => (other, device)

/-- Executes the running job. -/
def finishRunning (backend : Backend R σ) (q : JobQueue R σ) : Option JobStatus × JobQueue R σ :=
  match q.active with
  | none => (none, q)
  | some id =>
    match q.record? id with
    | none => (none, { q with active := none })
    | some before =>
      let (after, device) := finished backend q.device before
      (some after.status, { q with
        device := device
        active := none
        records := q.records.modify id.number fun _ => after })

/-- Starts the next job and executes it. -/
def processNext (backend : Backend R σ) (q : JobQueue R σ) :
    Option (JobId × JobStatus) × JobQueue R σ :=
  match q.startNext with
  | (none, q) => (none, q)
  | (some id, q) =>
    let (status, q) := q.finishRunning backend
    (status.map fun s => (id, s), q)

theorem waiting_finishRunning (backend : Backend R σ) (q : JobQueue R σ) :
    (q.finishRunning backend).2.waiting = q.waiting := by
  unfold finishRunning
  split
  · rfl
  · split <;> rfl

theorem waiting_startNext {q : JobQueue R σ} {id : JobId} (h : q.startNext.1 = some id) :
    q.waiting = id :: q.startNext.2.waiting := by
  unfold startNext at h ⊢
  split <;> simp_all

/-- Each job that is processed leaves the queue one shorter. -/
theorem length_waiting_processNext {backend : Backend R σ} {q : JobQueue R σ}
    (h : (q.processNext backend).1.isSome) :
    (q.processNext backend).2.waiting.length < q.waiting.length := by
  have hw := @waiting_startNext R σ q
  unfold processNext at h ⊢
  split
  · rename_i heq; rw [heq] at h; simp at h
  · rename_i id q' heq
    rw [heq] at hw
    rw [hw rfl]
    simp [waiting_finishRunning]

/-- Processes jobs until the queue is empty, and counts them. -/
def drain (backend : Backend R σ) (q : JobQueue R σ) : Nat × JobQueue R σ :=
  match _h : q.processNext backend with
  | (none, q') => (0, q')
  | (some _, q') =>
    let (n, q'') := drain backend q'
    (n + 1, q'')
termination_by q.waiting.length
decreasing_by
  have shorter := length_waiting_processNext (by rw [_h]; rfl)
  rwa [_h] at shorter

/-- Executes the running job, if there is one, and all that wait. -/
def runUntilIdle (backend : Backend R σ) (q : JobQueue R σ) : Nat × JobQueue R σ :=
  let (status, q) := q.finishRunning backend
  let (n, q) := q.drain backend
  (n + (if status.isSome then 1 else 0), q)

/-- The number of jobs ahead of one that has not finished. -/
def position (q : JobQueue R σ) (id : JobId) : Nat :=
  let inQueue := (q.waiting.findIdx? (· == id)).getD 0
  let running := match q.active with
    | some other => if other = id then 0 else 1
    | none => 0
  inQueue + running

def status (q : JobQueue R σ) (id : JobId) : Except Failure JobStatus :=
  match q.record? id with
  | some record => .ok record.status
  | none => .error (.unknownJob id)

/-- The outcome of a job. -/
def retrieve (q : JobQueue R σ) (id : JobId) : Except Failure Histogram :=
  match q.record? id with
  | none => .error (.unknownJob id)
  | some (.done histogram) => .ok histogram
  | some (.failed message) => .error (.executionFailed id message)
  | some (.queued _ _) | some (.running _ _) => .error (.notReady id (q.position id))

/-- The outcome of a job, which is forgotten if it has finished. -/
def take (q : JobQueue R σ) (id : JobId) : Except Failure Histogram × JobQueue R σ :=
  match q.record? id with
  | some record =>
    (q.retrieve id,
      if record.isFinished then { q with records := q.records.erase id.number } else q)
  | none => (q.retrieve id, q)

end JobQueue

end LatticeWalk
