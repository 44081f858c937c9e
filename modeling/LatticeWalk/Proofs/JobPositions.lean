import LatticeWalk.Proofs.JobOrder

/-! # The positions of pending jobs

A queue tells of a job that is not ready how many jobs are ahead of it. The number is put together
from the place in the queue and the job that runs; it is that of the pending jobs that were
submitted earlier, in every queue that calls lead to.

* `JobQueue.Pending`: a job waits or runs. `JobQueue.pendingAmong`: the pending ones of the first
  jobs, in the order of submission.
* `JobQueue.Sound.position_of_pending`: the position is the place in the list of all that is
  pending.
* `JobQueue.Sound.pending_perform_iff`: a call makes no job pending again, and a job stops being
  pending only by finishing.
* `JobQueue.position_counts_pending`: what this means for the answers of a queue. -/

namespace LatticeWalk

namespace JobQueue

variable {R σ : Type} {q : JobQueue R σ} {id : JobId}

/-! ### Pending jobs -/

/-- The job waits or runs. -/
def Pending (q : JobQueue R σ) (id : JobId) : Prop :=
  q.status id = .ok .queued ∨ q.status id = .ok .running

instance (q : JobQueue R σ) (id : JobId) : Decidable (q.Pending id) :=
  inferInstanceAs (Decidable (_ ∨ _))

theorem Pending.not_finished (h : q.Pending id) : ¬ q.Finished id := by
  intro hfinished
  rcases h with h | h
  · exact hfinished.ne_queued h
  · exact hfinished.ne_running h

theorem Pending.record? (h : q.Pending id) : ∃ circuit shots,
    q.record? id = some (.queued circuit shots) ∨ q.record? id = some (.running circuit shots) := by
  rcases h with h | h
  · obtain ⟨record, hrecord, hstatus⟩ := status_eq_ok.mp h
    obtain ⟨circuit, shots, rfl⟩ := JobRecord.status_eq_queued.mp hstatus
    exact ⟨circuit, shots, .inl hrecord⟩
  · obtain ⟨record, hrecord, hstatus⟩ := status_eq_ok.mp h
    obtain ⟨circuit, shots, rfl⟩ := JobRecord.status_eq_running.mp hstatus
    exact ⟨circuit, shots, .inr hrecord⟩

theorem Pending.retrieve (h : q.Pending id) :
    q.retrieve id = .error (.notReady id (q.position id)) := by
  obtain ⟨circuit, shots, hrecord⟩ := h.record?
  unfold JobQueue.retrieve
  rcases hrecord with hrecord | hrecord <;> rw [hrecord]

/-- The pending jobs among the first `n` that were submitted, in the order of submission. -/
def pendingAmong (q : JobQueue R σ) (n : ℕ) : List JobId :=
  ((List.range n).map fun i => ⟨i + 1⟩).filter fun id => q.Pending id

theorem mem_pendingAmong {n : ℕ} :
    id ∈ q.pendingAmong n ↔ (∃ i < n, id = ⟨i + 1⟩) ∧ q.Pending id := by
  rw [pendingAmong, List.mem_filter, List.mem_map, decide_eq_true_eq]
  simp only [List.mem_range, eq_comm]

theorem pendingAmong_ascending (q : JobQueue R σ) (n : ℕ) :
    (q.pendingAmong n).Pairwise fun a b => a.number < b.number := by
  refine List.Pairwise.filter _ (List.pairwise_map.mpr ?_)
  exact List.pairwise_lt_range.imp fun hlt => Nat.succ_lt_succ hlt

/-- What is pending of the first jobs stands before the next, if this is pending. -/
theorem pendingAmong_split {i n : ℕ} (hi : i < n) (h : q.Pending ⟨i + 1⟩) :
    ∃ later, q.pendingAmong n = q.pendingAmong i ++ ⟨i + 1⟩ :: later := by
  obtain ⟨m, rfl⟩ := Nat.exists_eq_add_of_le (Nat.succ_le_of_lt hi)
  unfold pendingAmong
  rw [List.range_add, List.range_succ, List.map_append, List.map_append, List.filter_append,
    List.filter_append, List.append_assoc]
  exact ⟨_, congrArg _ (by rw [List.map_singleton, List.filter_singleton, decide_eq_true h]; rfl)⟩

/-! ### Places in the list of all that is pending -/

theorem ascending_unique {jobs jobs' : List JobId}
    (h : jobs.Pairwise fun a b => a.number < b.number)
    (h' : jobs'.Pairwise fun a b => a.number < b.number) (hmem : ∀ id, id ∈ jobs ↔ id ∈ jobs') :
    jobs = jobs' := by
  have hnodup : ∀ jobs : List JobId, (jobs.Pairwise fun a b => a.number < b.number) →
      jobs.Nodup := by
    intro jobs h
    refine h.imp fun hlt heq => ?_
    rw [heq] at hlt
    exact lt_irrefl _ hlt
  have hperm : jobs.Perm jobs' := (List.perm_ext_iff_of_nodup (hnodup _ h) (hnodup _ h')).mpr hmem
  exact hperm.eq_of_pairwise (fun _ _ _ _ hlt hgt => absurd hlt (Nat.lt_asymm hgt)) h h'

theorem findIdx?_of_ascending {earlier later : List JobId}
    (h : (earlier ++ id :: later).Pairwise fun a b => a.number < b.number) :
    (earlier ++ id :: later).findIdx? (· == id) = some earlier.length := by
  have hbefore : ∀ other ∈ earlier, (other == id) = false := by
    intro other hother
    have hlt := (List.pairwise_append.mp h).2.2 other hother id (List.mem_cons_self ..)
    rw [beq_eq_false_iff_ne]
    rintro rfl
    exact lt_irrefl _ hlt
  rw [List.findIdx?_append, List.findIdx?_eq_none_iff.mpr hbefore, List.findIdx?_cons]
  simp

namespace Sound

variable (h : q.Sound)
include h

theorem pending_ascending : q.pending.Pairwise fun a b => a.number < b.number := by
  unfold pending
  refine List.pairwise_append.mpr ⟨?_, h.ascending, fun id hid other hother => ?_⟩
  · cases q.active with
    | none => exact .nil
    | some id => exact List.pairwise_singleton _ _
  · exact h.ahead id (Option.mem_toList.mp hid) other hother

/-- **The position is the place in the list of all that is pending**, whether the job runs, waits
behind a job that runs, or waits while none runs. -/
theorem position_of_pending {earlier later : List JobId}
    (hsplit : q.pending = earlier ++ id :: later) : q.position id = earlier.length := by
  have hascending := h.pending_ascending
  unfold position
  cases hactive : q.active with
  | none =>
    have hwaiting : q.waiting = earlier ++ id :: later := by
      rw [← hsplit, pending, hactive]
      rfl
    rw [hwaiting, findIdx?_of_ascending (hwaiting ▸ h.ascending)]
    rfl
  | some active =>
    rw [pending, hactive, Option.toList_some, List.singleton_append] at hsplit
    cases earlier with
    | nil =>
      rw [List.nil_append, List.cons.injEq] at hsplit
      obtain ⟨rfl, -⟩ := hsplit
      -- the running job is not in the queue, so that its place there counts as 0
      have hnone : q.waiting.findIdx? (· == active) = none := by
        rw [List.findIdx?_eq_none_iff]
        intro other hother
        rw [beq_eq_false_iff_ne]
        rintro rfl
        exact lt_irrefl _ (h.ahead _ hactive _ hother)
      rw [hnone]
      simp
    | cons first earlier =>
      rw [List.cons_append, List.cons.injEq] at hsplit
      obtain ⟨rfl, hwaiting⟩ := hsplit
      have hne : active ≠ id := by
        rintro rfl
        exact lt_irrefl _ (h.ahead _ hactive active (by simp [hwaiting]))
      rw [hwaiting, findIdx?_of_ascending (hwaiting ▸ h.ascending)]
      simp [hne]

/-! ### What calls do to pending jobs -/

theorem pending_started {first : JobId} {rest : List JobId} (hwaiting : q.waiting = first :: rest) :
    (q.started first rest).Pending id ↔ q.Pending id := by
  have hqueued : q.status first = .ok .queued := (h.queued first).mpr (by simp [hwaiting])
  unfold Pending
  rw [JobQueue.status_started hqueued]
  split_ifs with hid
  · simp [hid, hqueued]
  · exact Iff.rfl

theorem pending_settled {active : JobId} (hactive : q.active = some active) {record : JobRecord R}
    (hfinished : record.isFinished = true) (device : σ) :
    (q.settled active record device).Pending id ↔ id ≠ active ∧ q.Pending id := by
  obtain ⟨circuit, shots, hrecord⟩ := h.record?_of_active hactive
  have hne := JobRecord.status_ne_of_finished hfinished
  unfold Pending
  rw [status_settled (Option.isSome_iff_exists.mpr ⟨_, hrecord⟩)]
  split_ifs with hid
  · simp [hid, hne.1, hne.2]
  · simp [hid]

theorem pending_of_perform {backend : Backend R σ} {call : Call R} (hid : id.number < q.nextNumber)
    (hafter : (q.perform backend call).Pending id) : q.Pending id := by
  refine h.keeps (P := fun q' => q'.Pending id → q.Pending id) (fun hbefore => hbefore) ?_ ?_ ?_ ?_
    hafter
  · intro circuit shots _
    have hne : id ≠ ⟨q.nextNumber⟩ := by
      rintro rfl
      exact lt_irrefl _ hid
    unfold Pending
    rw [status_submit, if_neg hne]
    exact fun hbefore => hbefore
  · intro q' hq' hkept first rest _ hwaiting hstarted
    exact hkept ((hq'.pending_started hwaiting).mp hstarted)
  · intro q' hq' hkept active circuit shots answer device hactive _ _ hsettled
    have hboth := (hq'.pending_settled hactive (JobRecord.isFinished_ofAnswer _) _).mp hsettled
    exact hkept hboth.2
  · intro other _ _
    unfold Pending
    rw [status_forgotten]
    split_ifs
    · simp
    · exact fun hbefore => hbefore

/-- **What is pending after a call** is what was pending before and has not finished, and what the
call submits. -/
theorem pending_perform_iff {backend : Backend R σ} {call : Call R}
    (hid : id.number < q.nextNumber) :
    (q.perform backend call).Pending id ↔ q.Pending id ∧ ¬ (q.perform backend call).Finished id := by
  constructor
  · intro hafter
    exact ⟨h.pending_of_perform hid hafter, hafter.not_finished⟩
  · rintro ⟨hbefore, hnot⟩
    have hrecord : (q.record? id).isSome := by
      obtain ⟨circuit, shots, hrecord | hrecord⟩ := hbefore.record? <;> simp [hrecord]
    have hkept : ((q.perform backend call).record? id).isSome :=
      h.isSome_record?_perform hrecord fun _ => hbefore.not_finished
    have hsound : (q.perform backend call).Sound := h.perform call
    rcases hsound.place_of_record hkept with hwaiting | hactive | hfinished
    · exact .inl ((hsound.queued id).mpr hwaiting)
    · exact .inr ((hsound.running id).mpr hactive)
    · exact absurd hfinished hnot

theorem pendingAmong_perform {backend : Backend R σ} {call : Call R} {n : ℕ}
    (hn : n < q.nextNumber) : (q.perform backend call).pendingAmong n =
      (q.pendingAmong n).filter fun id => ¬ (q.perform backend call).Finished id := by
  unfold pendingAmong
  rw [List.filter_filter]
  refine List.filter_congr fun id hid => ?_
  obtain ⟨i, hi, rfl⟩ := List.mem_map.mp hid
  have hbelow : (⟨i + 1⟩ : JobId).number < q.nextNumber :=
    Nat.lt_of_le_of_lt (List.mem_range.mp hi) hn
  rw [decide_eq_decide.mpr (h.pending_perform_iff hbelow), Bool.decide_and, Bool.and_comm]

/-- **The execution of another job** lowers the position of a pending job by one. -/
theorem position_settled {active : JobId} (hactive : q.active = some active) (hid : q.Pending id)
    (hne : active ≠ id) {record : JobRecord R} (hfinished : record.isFinished = true) (device : σ) :
    q.position id = (q.settled active record device).position id + 1 := by
  have hsettled : (q.settled active record device).Sound := h.settled hactive hfinished device
  have hpending : q.pending = active :: q.waiting := by
    rw [pending, hactive]
    rfl
  have hwaiting : id ∈ q.waiting := by
    have hmem := h.mem_pending.mpr hid
    rw [hpending, List.mem_cons] at hmem
    exact hmem.resolve_left (Ne.symm hne)
  -- the running job stands before all that waits, and the settled queue is without it
  obtain ⟨earlier, later, hsplit⟩ := List.append_of_mem hwaiting
  have hbefore : q.pending = (active :: earlier) ++ id :: later := by
    rw [hpending, hsplit]
    rfl
  have hafter : (q.settled active record device).pending = earlier ++ id :: later := hsplit
  rw [h.position_of_pending hbefore, hsettled.position_of_pending hafter]
  rfl

end Sound

/-! ### Positions of all runs -/

section run
variable {backend : Backend R σ} {device : σ} {calls : List (Call R)}

theorem nextNumber_run : ((start device).run backend calls).nextNumber =
    (submissions calls).length + 1 := by
  have hbare := run_bare backend (start (device, [])) calls
  have haccount := accounted_run backend device calls
  rw [show (start device : JobQueue R σ) = (start (device, [])).bare from rfl, hbare]
  exact haccount.next

theorem submitted_of_pending (h : ((start device).run backend calls).Pending id) :
    ∃ i < (submissions calls).length, id = ⟨i + 1⟩ := by
  have hbare := run_bare backend (start (device, [])) calls
  have haccount := accounted_run backend device calls
  rw [show (start device : JobQueue R σ) = (start (device, [])).bare from rfl, hbare] at h
  obtain ⟨circuit, shots, hasked⟩ := h.record?
  obtain ⟨i, hi, hsubmitted⟩ := haccount.asked id circuit shots hasked
  exact ⟨i, (List.getElem?_eq_some_iff.mp hsubmitted).1, hi⟩

/-- The list of all that is pending is that of the pending jobs in the order of submission. -/
theorem pending_run : ((start device).run backend calls).pending =
    ((start device).run backend calls).pendingAmong (submissions calls).length := by
  have hsound : ((start device).run backend calls).Sound := sound_run device calls
  refine ascending_unique hsound.pending_ascending (pendingAmong_ascending _ _) fun id => ?_
  rw [hsound.mem_pending, mem_pendingAmong]
  exact ⟨fun hid => ⟨submitted_of_pending hid, hid⟩, fun hid => hid.2⟩

theorem position_run {i : ℕ} (h : ((start device).run backend calls).Pending ⟨i + 1⟩) :
    ((start device).run backend calls).position ⟨i + 1⟩ =
      (((start device).run backend calls).pendingAmong i).length := by
  have hsound : ((start device).run backend calls).Sound := sound_run device calls
  obtain ⟨j, hj, hid⟩ := submitted_of_pending h
  rw [JobId.mk.injEq, Nat.add_right_cancel_iff] at hid
  obtain ⟨later, hsplit⟩ := pendingAmong_split (hid ▸ hj) h
  exact hsound.position_of_pending (pending_run.trans hsplit)

/-- A call lowers the position of a job that stays pending by the number of jobs before it that the
call finishes. -/
theorem position_perform {call : Call R} {i : ℕ}
    (hbefore : ((start device).run backend calls).Pending ⟨i + 1⟩)
    (hafter : (((start device).run backend calls).perform backend call).Pending ⟨i + 1⟩) :
    ((start device).run backend calls).position ⟨i + 1⟩ =
      (((start device).run backend calls).perform backend call).position ⟨i + 1⟩ +
        ((((start device).run backend calls).pendingAmong i).filter fun other =>
          (((start device).run backend calls).perform backend call).Finished other).length := by
  have hsound : ((start device).run backend calls).Sound := sound_run device calls
  have hbelow : i < ((start device).run backend calls).nextNumber := by
    obtain ⟨j, hj, hid⟩ := submitted_of_pending hbefore
    rw [JobId.mk.injEq] at hid
    rw [nextNumber_run]
    omega
  have hposition : (((start device).run backend calls).perform backend call).position ⟨i + 1⟩ =
      ((((start device).run backend calls).perform backend call).pendingAmong i).length := by
    rw [← run_concat] at hafter ⊢
    exact position_run hafter
  rw [position_run hbefore, hposition, hsound.pendingAmong_perform hbelow,
    List.length_eq_length_filter_add fun other =>
      decide ((((start device).run backend calls).perform backend call).Finished other)]
  simp only [decide_not, Nat.add_comm]

end run

/-- **The position of a job is the number of jobs that must finish first.** Of every queue that
calls lead to, the `i`-th submission having the number `i + 1`: a job that waits or runs is not
ready, at a position that is the number of pending jobs that were submitted before it, so that the
pending jobs have the positions `0`, `1`, `2` and so on in the order of submission. As long as a job
is pending, a call lowers its position by the number of jobs before it which the call finishes, and
by nothing else; in particular an execution of another job lowers it by one. -/
theorem position_counts_pending (backend : Backend R σ) (device : σ) (calls : List (Call R)) :
    let q := (start device).run backend calls
    let submitted := submissions calls
    (∀ circuit shots, (q.submit circuit shots).1 = ⟨submitted.length + 1⟩) ∧
      (∀ id, id ∈ q.pendingAmong submitted.length ↔ q.Pending id) ∧
      (∀ i, q.Pending ⟨i + 1⟩ →
        q.retrieve ⟨i + 1⟩ = .error (.notReady ⟨i + 1⟩ (q.pendingAmong i).length)) ∧
      (∀ k id, (q.pendingAmong submitted.length)[k]? = some id →
        q.retrieve id = .error (.notReady id k)) ∧
      (∀ call i, q.Pending ⟨i + 1⟩ → (q.perform backend call).Pending ⟨i + 1⟩ →
        ∃ k, (q.perform backend call).retrieve ⟨i + 1⟩ = .error (.notReady ⟨i + 1⟩ k) ∧
          q.retrieve ⟨i + 1⟩ = .error (.notReady ⟨i + 1⟩ (k + ((q.pendingAmong i).filter
            fun other => (q.perform backend call).Finished other).length))) ∧
      ∀ id other, q.Pending id → q.active = some other → other ≠ id →
        ∃ k, q.retrieve id = .error (.notReady id (k + 1)) ∧
          (q.finishRunning backend).2.retrieve id = .error (.notReady id k) ∧
          (q.finishRunning backend).2.Finished other := by
  intro q submitted
  have hsound : q.Sound := sound_run device calls
  have hnext : q.nextNumber = submitted.length + 1 := nextNumber_run
  refine ⟨fun circuit shots => congrArg JobId.mk hnext, fun id => ?_, fun i hi => ?_,
    fun k id hk => ?_, fun call i hi hafter => ?_, fun id other hid hactive hne => ?_⟩
  · rw [mem_pendingAmong]
    exact ⟨fun h => h.2, fun h => ⟨submitted_of_pending h, h⟩⟩
  · rw [hi.retrieve, position_run hi]
  · obtain ⟨hlt, hget⟩ := List.getElem?_eq_some_iff.mp hk
    have hid : q.Pending id := (mem_pendingAmong.mp (hget ▸ List.getElem_mem hlt)).2
    have hsplit : q.pending = (q.pendingAmong submitted.length).take k ++
        id :: (q.pendingAmong submitted.length).drop (k + 1) := by
      rw [pending_run, ← hget, ← List.drop_eq_getElem_cons hlt, List.take_append_drop]
    rw [hid.retrieve, hsound.position_of_pending hsplit, List.length_take, Nat.min_eq_left hlt.le]
  · refine ⟨_, hafter.retrieve, ?_⟩
    rw [hi.retrieve, position_perform hi hafter]
  · rcases hsound.finishRunning_cases backend with
      ⟨hnone, -⟩ | ⟨other', circuit, shots, answer, device', hactive', hrecord, -, hfinish⟩
    · rw [hnone] at hactive
      cases hactive
    · obtain rfl : other' = other := Option.some.inj (hactive'.symm.trans hactive)
      have hdone : (JobRecord.ofAnswer answer : JobRecord R).isFinished = true :=
        JobRecord.isFinished_ofAnswer answer
      have hafter := (hsound.pending_settled hactive' hdone device').mpr ⟨Ne.symm hne, hid⟩
      rw [hfinish]
      refine ⟨_, ?_, hafter.retrieve, ?_⟩
      · rw [hid.retrieve, hsound.position_settled hactive' hid hne hdone device']
      · refine finished_iff.mpr ⟨.ofAnswer answer, ?_, hdone⟩
        rw [record?_settled, if_pos rfl, hrecord]
        rfl

/-- Four jobs, of which the first is taken after it has finished, and the second runs then. -/
noncomputable def fourJobs : List (Call ℝ) :=
  [.submit (.empty .empty) 5, .submit (.empty .empty) 7, .submit (.empty .empty) 9,
    .submit (.empty .empty) 4, .processNext, .take ⟨1⟩, .startNext]

/-- The third job is at position 1 and the fourth at position 2; the execution of the second lowers
the position of the fourth to 1. -/
theorem position_counts_pending_fourJobs :
    let q := (start [.ok (.empty 5), .ok (.empty 7)]).run (.replay ℝ) fourJobs
    q.retrieve ⟨2⟩ = .error (.notReady ⟨2⟩ 0) ∧ q.retrieve ⟨3⟩ = .error (.notReady ⟨3⟩ 1) ∧
      q.retrieve ⟨4⟩ = .error (.notReady ⟨4⟩ 2) ∧
      (q.finishRunning (.replay ℝ)).2.retrieve ⟨4⟩ = .error (.notReady ⟨4⟩ 1) ∧
      (q.finishRunning (.replay ℝ)).2.Finished ⟨2⟩ := by
  intro q
  obtain ⟨-, -, hretrieve, hplace, -, hfinish⟩ :=
    position_counts_pending (.replay ℝ) [.ok (.empty 5), .ok (.empty 7)] fourJobs
  have hsecond : q.Pending ⟨2⟩ := by decide +kernel
  have hfourth : q.Pending ⟨4⟩ := by decide +kernel
  have hactive : q.active = some ⟨2⟩ := by decide +kernel
  have hahead : q.pendingAmong 1 = [] := by decide +kernel
  have hpending : q.pendingAmong (submissions fourJobs).length = [⟨2⟩, ⟨3⟩, ⟨4⟩] := by
    decide +kernel
  have hready : q.retrieve ⟨2⟩ = .error (.notReady ⟨2⟩ 0) := by
    rw [hretrieve 1 hsecond, show run _ _ _ = q from rfl, hahead, List.length_nil]
  have hlast : q.retrieve ⟨4⟩ = .error (.notReady ⟨4⟩ 2) :=
    hplace 2 ⟨4⟩ (congrArg (·[2]?) hpending)
  obtain ⟨k, hbefore, hafter, hdone⟩ := hfinish ⟨4⟩ ⟨2⟩ hfourth hactive (by simp)
  -- the position before the execution is known, so that after it is
  obtain rfl : k = 1 := by
    have heq := hbefore.symm.trans hlast
    injection heq with heq
    injection heq with _ heq
    omega
  exact ⟨hready, hplace 1 ⟨3⟩ (congrArg (·[1]?) hpending), hlast, hafter, hdone⟩

end JobQueue

end LatticeWalk
