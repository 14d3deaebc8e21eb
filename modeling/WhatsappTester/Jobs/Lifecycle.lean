import WhatsappTester.Jobs.Settling

namespace WhatsappTester.Jobs.Lifecycle

open Schema State Atomic Atomic.Program Atomic.Runs JobService

/-- The operations of `jobService` on jobs and items, and the passing of time between them. -/
inductive Op
  | createJob (args : CreateJobArgs)
  | markItemRunning (itemId : Id)
  | scheduleRetry (itemId : Id) (nextAttemptAt : Ms) (category : Category) (detail : Option String)
  | markItemTerminal (itemId : Id) (status : ItemStatus) (category : Option Category)
      (detail : Option String)
  | checkJobCompletion (jobId : Id)
  | cancelJob (id : Id) (actor : Option String)
  | pauseJob (id : Id) (actor : Option String)
  | resumeJob (id : Id) (actor : Option String)
  | wait (ms : Nat)

/-- An operation with the settled job that `checkJobCompletion` returns, if it does. -/
def Op.code : Op → Code (Option JobView)
  | .createJob args => do
    let _ ← JobService.createJob args
    pure none
  | .markItemRunning itemId => do
    JobService.markItemRunning itemId
    pure none
  | .scheduleRetry itemId nextAttemptAt category detail => do
    JobService.scheduleRetry itemId nextAttemptAt category detail
    pure none
  | .markItemTerminal itemId status category detail => do
    JobService.markItemTerminal itemId status category detail
    pure none
  | .checkJobCompletion jobId => JobService.checkJobCompletion jobId
  | .cancelJob id actor => do
    let _ ← JobService.cancelJob id actor
    pure none
  | .pauseJob id actor => do
    let _ ← JobService.pauseJob id actor
    pure none
  | .resumeJob id actor => do
    let _ ← JobService.resumeJob id actor
    pure none
  | .wait ms => do
    exec (fun w => { w with shared.now := w.shared.now + ms })
    pure none

structure Session where
  world : World
  returned : List Id

def step (s : Session) (op : Op) : Session where
  world := (op.code.run s.world).2
  returned := ((op.code.run s.world).1.map (·.job.id)).toList ++ s.returned

def start (now : Ms) (mem : Memory) : Session := ⟨⟨{ now := now }, mem⟩, []⟩

def Moves (status status' : JobStatus) : Prop :=
  status' = status ∨ status = .queued ∧ status' = .running ∨ status ∈ [.queued, .running] ∧
    status' = .paused ∨ status = .paused ∧ status' = .queued ∨ status.terminal = false ∧
    status'.terminal = true

def closes (id : Id) (e : JobEvent) : Bool :=
  match e.kind with
  | .completed .. | .cancelled .. => decide (e.jobId = id)
  | _ => false

def closed (id : Id) (j : Job) : Bool := decide (j.id = id) && j.status.terminal

/-- What an operation can do to the jobs and their events. -/
inductive Effect (v v' : World) : Option JobView → Prop
  /-- No job comes to its end. -/
  | quiet {p : Job → Bool} {f : Job → Job} {es : List JobEvent}
      (hjobs : v'.shared.db.jobs = Table.update p f v.shared.db.jobs)
      (hf : ∀ j ∈ v.shared.db.jobs, p j → (f j).id = j.id ∧ Moves j.status (f j).status ∧
        (f j).status.terminal = j.status.terminal)
      (hevents : v'.shared.db.events = v.shared.db.events ++ es)
        (hes : ∀ e ∈ es, ∀ id, closes id e = false) :
      Effect v v' none
  | created {job : Job} {es : List JobEvent} (hjobs : v'.shared.db.jobs = v.shared.db.jobs ++ [job])
      (hfresh : ∀ j ∈ v.shared.db.jobs, j.id ≠ job.id) (hstatus : job.status = .queued)
      (hevents : v'.shared.db.events = v.shared.db.events ++ es)
      (hes : ∀ e ∈ es, ∀ id, closes id e = false) :
      Effect v v' none
  /-- One job comes to its end. -/
  | settled {job : Job} {p : Job → Bool} {f : Job → Job} {e : JobEvent} {r : Option JobView}
      (hjob : job ∈ v.shared.db.jobs) (hopen : job.status.terminal = false)
      (hp : ∀ j ∈ v.shared.db.jobs, p j ↔ j = job)
      (hjobs : v'.shared.db.jobs = Table.update p f v.shared.db.jobs)
      (hf : (f job).id = job.id ∧ (f job).status.terminal = true)
      (hevents : v'.shared.db.events = v.shared.db.events ++ [e])
      (he : ∀ id, closes id e = decide (job.id = id)) (hr : ∀ view ∈ r, view.job.id = job.id) :
      Effect v v' r

/-- Every job has as many closing events as its status says, and was returned no more often. -/
structure Consistent (s : Session) : Prop where
  distinct : (s.world.shared.db.jobs.map (·.id)).Nodup
  events : ∀ id, s.world.shared.db.events.countP (closes id) =
    s.world.shared.db.jobs.countP (closed id)
  returned : ∀ id, s.returned.count id ≤ s.world.shared.db.jobs.countP (closed id)

section Effect

variable {v v' : World} {r : Option JobView} {returned : List Id}

theorem quiet_events {es : List JobEvent} (hes : ∀ e ∈ es, ∀ id, closes id e = false) (id : Id) :
    es.countP (closes id) = 0 := List.countP_eq_zero.mpr (fun e he => by simp [hes e he id])

theorem consistent_quiet {es : List JobEvent} (h : Consistent ⟨v, returned⟩)
    (hdistinct : (v'.shared.db.jobs.map (·.id)).Nodup)
    (hsame : ∀ id, v'.shared.db.jobs.countP (closed id) = v.shared.db.jobs.countP (closed id))
    (hnew : v'.shared.db.events = v.shared.db.events ++ es)
    (hes : ∀ e ∈ es, ∀ id, closes id e = false) : Consistent ⟨v', returned⟩ := by
  refine ⟨hdistinct, fun id => ?_, fun id => ?_⟩
  · simp only
    rw [hnew, List.countP_append, quiet_events hes, hsame]
    exact h.events id
  · simp only
    rw [hsame]
    exact h.returned id

section Settled

variable {jobs : List Job} {job : Job} {p : Job → Bool} {f : Job → Job}

theorem update_settled (hdistinct : (jobs.map (·.id)).Nodup) (hjob : job ∈ jobs)
    (hp : ∀ j ∈ jobs, p j ↔ j = job) :
    Table.update p f jobs = Table.update (fun j => decide (j.id = job.id)) f jobs := by
  refine List.map_congr_left (fun j hj => ?_)
  have hiff : p j ↔ j.id = job.id :=
    (hp j hj).trans ⟨fun h => h ▸ rfl, fun h => Table.eq_of_key hdistinct hj hjob h⟩
  by_cases hid : j.id = job.id
  · rw [if_pos (hiff.mpr hid), if_pos (decide_eq_true hid)]
  · rw [if_neg (fun hpj => hid (hiff.mp hpj)), if_neg (by simpa using hid)]

theorem ids_settled (hdistinct : (jobs.map (·.id)).Nodup) (hjob : job ∈ jobs)
    (hf : (f job).id = job.id) :
    (Table.update (fun j => decide (j.id = job.id)) f jobs).map (·.id) = jobs.map (·.id) := by
  refine Table.map_update_mem (fun j hj hid => ?_)
  rw [Table.eq_of_key hdistinct hj hjob (of_decide_eq_true hid)]
  exact hf

theorem closed_settled (hdistinct : (jobs.map (·.id)).Nodup) (hjob : job ∈ jobs)
    (hopen : job.status.terminal = false)
    (hf : (f job).id = job.id ∧ (f job).status.terminal = true) (id : Id) :
    (Table.update (fun j => decide (j.id = job.id)) f jobs).countP (closed id) =
      jobs.countP (closed id) + if job.id = id then 1 else 0 := by
  have hone := Table.countP_update_one hdistinct hjob (f := f) (closed id)
  simp only [closed, hf.1, hf.2, hopen, Bool.and_false, Bool.and_true, decide_eq_true_eq] at hone
  simpa using hone

end Settled

theorem consistent_effect (h : Consistent ⟨v, returned⟩) (he : Effect v v' r) :
    Consistent ⟨v', (r.map (·.job.id)).toList ++ returned⟩ := by
  have hdistinct : (v.shared.db.jobs.map (·.id)).Nodup := h.distinct
  cases he with
  | @quiet p f es hjobs hf hnew hes =>
    refine consistent_quiet h ?_ (fun id => ?_) hnew hes
    · rw [hjobs, Table.map_update_mem (fun j hj hp => (hf j hj hp).1)]
      exact hdistinct
    · rw [hjobs, Table.update, List.countP_map]
      refine List.countP_congr (fun j hj => ?_)
      by_cases hp : p j
      · obtain ⟨hid, _, hterminal⟩ := hf j hj hp
        simp [hp, closed, hid, hterminal]
      · simp [hp]
  | @created job es hjobs hfresh hstatus hnew hes =>
    refine consistent_quiet h ?_ (fun id => ?_) hnew hes
    · rw [hjobs, List.map_append]
      exact List.nodup_append.mpr ⟨hdistinct, List.nodup_singleton _, by simpa using hfresh⟩
    · have hopen : closed id job = false := by
        rw [closed, hstatus]
        exact Bool.and_false _
      rw [hjobs, List.countP_append, List.countP_singleton, hopen]
      rfl
  | @settled job p f e r hjob hopen hp hjobs hf hnew he hr =>
    rw [update_settled hdistinct hjob hp] at hjobs
    have hmore := closed_settled hdistinct hjob hopen hf
    rw [← hjobs] at hmore
    refine ⟨?_, fun id => ?_, fun id => ?_⟩
    · rw [hjobs, ids_settled hdistinct hjob hf.1]
      exact hdistinct
    · have hevents : v.shared.db.events.countP (closes id) = v.shared.db.jobs.countP (closed id) :=
        h.events id
      rw [hnew, List.countP_append, List.countP_singleton, he id, hmore, hevents]
      simp
    · rw [hmore, List.count_append]
      have hold : returned.count id ≤ v.shared.db.jobs.countP (closed id) := h.returned id
      cases r with
      | none => simpa using Nat.le_add_right_of_le hold
      | some view =>
        have hview : view.job.id = job.id := hr view rfl
        simp only [Option.map_some, Option.toList_some, hview, List.count_singleton, beq_iff_eq]
        omega

theorem moves_effect (he : Effect v v' r) {j : Job} (hj : j ∈ v.shared.db.jobs) :
    ∃ j' ∈ v'.shared.db.jobs, j'.id = j.id ∧ Moves j.status j'.status := by
  cases he with
  | @quiet p f es hjobs hf _ _ =>
    refine ⟨if p j then f j else j, hjobs ▸ Table.mem_update.mpr ⟨j, hj, rfl⟩, ?_⟩
    split
    · exact ⟨(hf j hj ‹_›).1, (hf j hj ‹_›).2.1⟩
    · exact ⟨rfl, Or.inl rfl⟩
  | created hjobs _ _ _ _ => exact ⟨j, hjobs ▸ List.mem_append_left _ hj, rfl, Or.inl rfl⟩
  | @settled job p f e r hjob hopen hp hjobs hf _ _ _ =>
    refine ⟨if p j then f j else j, hjobs ▸ Table.mem_update.mpr ⟨j, hj, rfl⟩, ?_⟩
    split
    case isTrue hpj =>
      obtain rfl := (hp j hj).mp hpj
      exact ⟨hf.1, Or.inr (Or.inr (Or.inr (Or.inr ⟨hopen, hf.2⟩)))⟩
    case isFalse => exact ⟨rfl, Or.inl rfl⟩

theorem effect_none (hjobs : v'.shared.db.jobs = v.shared.db.jobs)
    (hevents : v'.shared.db.events = v.shared.db.events) :
    Effect v v' none := by
  have hkept : v'.shared.db.jobs = Table.update (fun _ => false)
      (fun j : Job => j) v.shared.db.jobs := by
    rw [Table.update_eq_self (fun _ _ hp => by cases hp), hjobs]
  exact .quiet hkept (fun _ _ hp => by cases hp) (hevents.trans (List.append_nil _).symm)
    (fun _ he => absurd he List.not_mem_nil)

theorem ends_getJob (id : Id) :
    Ends (JobService.getJob id) (fun r u => u = v ∧ ∀ view ∈ r, view.job.id = id) v := by
  simp only [Ends, JobService.getJob, selectJob, wp_bind, wp_query, forall_eq', true_and]
  cases hfind : v.shared.db.job id with
  | none => exact ⟨rfl, fun _ hview => by cases hview⟩
  | some job =>
    simp only [selectItemsOf, wp_bind, wp_query, wp_pure, forall_eq', true_and]
    rintro _ ⟨⟩
    exact (Table.find_mem hfind).2

theorem ends_selectKey (key : Option String) : Ends (selectKey key) (fun _ u => u = v) v := by
  refine ends_always (T := fun a b => b = a) (fun a b ha hab => hab.trans ha) ?_ rfl
  cases key with
  | none => exact always_pure none
  | some k =>
    simp only [selectKey]
    split
    · exact always_pure none
    · exact always_query _ (fun _ => rfl)

theorem closes_none {id : Id} {ts : Ms} {kind : JobEventKind}
    (hkind : ∀ status a b c actor, kind ≠ .completed status a b c ∧ kind ≠ .cancelled actor)
    (id' : Id) :
    closes id' ⟨id, ts, kind⟩ = false := by
  cases kind with
  | completed status a b c => exact absurd rfl (hkind status a b c none).1
  | cancelled actor => exact absurd rfl (hkind .queued 0 0 0 actor).2
  | _ => rfl

theorem quiet_updateJobs {p : Job → Bool} {f : Job → Job} {es : List JobEvent}
    (hf : ∀ j, p j → (f j).id = j.id ∧ Moves j.status (f j).status ∧
      (f j).status.terminal = j.status.terminal)
    (hes : ∀ e ∈ es, ∀ id, closes id e = false) (items : List JobItem) :
    Effect v { v with
      shared.db.jobs := Table.update p f v.shared.db.jobs
      shared.db.items := items
      shared.db.events := v.shared.db.events ++ es } none := .quiet rfl (fun j _ => hf j) rfl hes

theorem silent_updateJobs {p : Job → Bool} {f : Job → Job}
    (hf : ∀ j, p j → (f j).id = j.id ∧ Moves j.status (f j).status ∧
      (f j).status.terminal = j.status.terminal)
    (items : List JobItem) :
    Effect v { v with shared.db.jobs := Table.update p f v.shared.db.jobs, shared.db.items := items } none :=
  .quiet rfl (fun j _ => hf j) (List.append_nil _).symm (fun _ he => absurd he List.not_mem_nil)

theorem effect_getJob {u : World} (id : Id) (h : Effect v u none) :
    Ends (JobService.getJob id) (fun _ u => Effect v u none) u := by
  refine wp_mono (fun _ t ht => ?_) (ends_getJob id)
  rw [ht.1]
  exact h

theorem effect_changeStatus {p : Job → Bool} {f : Ms → Job → Job} {kind : JobEventKind} (id : Id)
    (hf : ∀ now j, p j → (f now j).id = j.id ∧ Moves j.status (f now j).status ∧
      (f now j).status.terminal = j.status.terminal) (hkind : ∀ ts id',
      closes id' ⟨id, ts, kind⟩ = false) :
    Ends (do
      let now ← dateNow
      let changes ← updateJobs p (f now)
      if changes > 0 then recordEvent id kind else pure ()
      JobService.getJob id) (fun _ u => Effect v u none) v := by
  simp only [Ends, dateNow, updateJobs, wp_bind, wp_query, wp_update, forall_eq', true_and]
  split
  · simp only [recordEvent, dateNow, wp_bind, wp_query, wp_exec, forall_eq', true_and]
    exact effect_getJob id (quiet_updateJobs (hf v.shared.now) (List.forall_mem_singleton.mpr (hkind v.shared.now)) _)
  · exact effect_getJob id (silent_updateJobs (hf v.shared.now) _)

theorem effect_markItemRunning (itemId : Id) :
    Ends (JobService.markItemRunning itemId) (fun _ u => Effect v u none) v := by
  simp only [Ends, JobService.markItemRunning, dateNow, selectItem, wp_bind, wp_query,
    forall_eq', true_and]
  cases v.shared.db.item itemId with
  | none => exact effect_none rfl rfl
  | some item =>
    have hf : ∀ j : Job, decide (j.id = item.jobId ∧ j.status = .queued) = true →
        (startedJob v.shared.now j).id = j.id ∧ Moves j.status (startedJob v.shared.now j).status ∧
          (startedJob v.shared.now j).status.terminal = j.status.terminal := by
      intro j hj
      rw [startedJob, (of_decide_eq_true hj).2]
      exact ⟨rfl, Or.inr (Or.inl ⟨rfl, rfl⟩), rfl⟩
    simp only [updateItems, updateJobs, wp_bind, wp_update, forall_eq', true_and]
    split
    · simp only [recordEvent, dateNow, wp_bind, wp_query, wp_exec, forall_eq', true_and]
      exact quiet_updateJobs hf (List.forall_mem_singleton.mpr (closes_none (by simp))) _
    · exact silent_updateJobs hf _

theorem effect_pauseJob (id : Id) (actor : Option String) :
    Ends (JobService.pauseJob id actor) (fun _ u => Effect v u none) v := by
  refine effect_changeStatus (f := movedJob .paused) id (fun now j hj => ?_)
    (fun _ => closes_none (by simp))
  obtain ⟨_, hstatus⟩ := of_decide_eq_true hj
  refine ⟨rfl, Or.inr (Or.inr (Or.inl ⟨hstatus, rfl⟩)), ?_⟩
  simp only [List.mem_cons, List.not_mem_nil, or_false] at hstatus
  obtain hstatus | hstatus := hstatus <;> rw [hstatus] <;> rfl

theorem effect_resumeJob (id : Id) (actor : Option String) :
    Ends (JobService.resumeJob id actor) (fun _ u => Effect v u none) v := by
  refine effect_changeStatus (f := movedJob .queued) id (fun now j hj => ?_)
    (fun _ => closes_none (by simp))
  obtain ⟨_, hstatus⟩ := of_decide_eq_true hj
  refine ⟨rfl, Or.inr (Or.inr (Or.inr (Or.inl ⟨hstatus, rfl⟩))), ?_⟩
  rw [hstatus]
  rfl

theorem effect_scheduleRetry (itemId : Id) (nextAttemptAt : Ms) (category : Category)
    (detail : Option String) :
    Ends (JobService.scheduleRetry itemId nextAttemptAt category detail)
      (fun _ u => Effect v u none) v := by
  simp only [Ends, JobService.scheduleRetry, dateNow, updateItemsRecord, wp_bind, wp_query,
    wp_update, wp_pure, forall_eq', true_and]
  exact effect_none rfl rfl

theorem effect_markItemTerminal (itemId : Id) (status : ItemStatus) (category : Option Category)
    (detail : Option String) :
    Ends (JobService.markItemTerminal itemId status category detail)
      (fun _ u => Effect v u none) v := by
  simp only [Ends, JobService.markItemTerminal, dateNow, selectItem, wp_bind, wp_query,
    forall_eq', true_and]
  cases v.shared.db.item itemId with
  | none => exact effect_none rfl rfl
  | some item =>
    simp only [updateItemsRecord, wp_bind, wp_update, forall_eq', true_and]
    split
    · simp only [updateJobs, wp_bind, wp_update, wp_pure, forall_eq', true_and]
      have hf : ∀ j : Job, (addCounter status v.shared.now j).id = j.id ∧
          (addCounter status v.shared.now j).status = j.status := fun j => by
        cases status <;> exact ⟨rfl, rfl⟩
      refine .quiet rfl (fun j _ _ => ⟨(hf j).1, Or.inl (hf j).2, ?_⟩) (List.append_nil _).symm
        (fun _ he => absurd he List.not_mem_nil)
      rw [(hf j).2]
    · exact effect_none rfl rfl

theorem effect_cancelJob (id : Id) (actor : Option String)
    (hdistinct : (v.shared.db.jobs.map (·.id)).Nodup) :
    Ends (JobService.cancelJob id actor) (fun _ u => Effect v u none) v := by
  simp only [Ends, JobService.cancelJob, dateNow, updateJobs, wp_bind, wp_query, wp_update,
    forall_eq', true_and]
  split
  case isFalse hnone =>
    refine effect_getJob id (effect_none (Table.update_eq_self (fun j hj hp => ?_)) rfl)
    have := List.countP_eq_zero.mp (Nat.eq_zero_of_not_pos hnone) j hj
    exact this hp
  case isTrue hone =>
    obtain ⟨job, hjob, hp⟩ := List.countP_pos_iff.mp hone
    obtain ⟨hid, hopen⟩ := of_decide_eq_true hp
    simp only [updateItemsRecord, recordEvent, dateNow, wp_bind, wp_query, wp_update, wp_exec,
      forall_eq', true_and]
    refine effect_getJob id (.settled hjob (by simpa using hopen) (fun j hj => ⟨fun hpj => ?_, ?_⟩) rfl
      ⟨rfl, rfl⟩ rfl ?_ ?_)
    · exact Table.eq_of_key hdistinct hj hjob ((of_decide_eq_true hpj).1.trans hid.symm)
    · rintro rfl
      exact hp
    · exact fun id' => by rw [hid]; rfl
    · exact fun _ hview => by cases hview

theorem effect_checkJobCompletion (id : Id) (hdistinct : (v.shared.db.jobs.map (·.id)).Nodup) :
    Ends (JobService.checkJobCompletion id) (fun r u => Effect v u r) v := by
  simp only [Ends, JobService.checkJobCompletion, selectJob, wp_bind, wp_query,
    forall_eq', true_and]
  cases hfind : v.shared.db.job id with
  | none => exact effect_none rfl rfl
  | some job =>
    obtain ⟨hjob, hid⟩ := Table.find_mem hfind
    simp only
    split
    case isTrue => exact effect_none rfl rfl
    case isFalse hopen =>
      simp only [selectCounts, wp_bind, wp_query, forall_eq', true_and]
      split
      · exact effect_none rfl rfl
      · simp only [recordEvent, dateNow, updateJobs, wp_bind, wp_query, wp_update, wp_exec,
          forall_eq', true_and]
        refine wp_mono (fun r u hu => ?_) (ends_getJob id)
        rw [hu.1]
        refine .settled hjob (by simpa using hopen) (fun j hj => ⟨fun hpj => ?_, ?_⟩) rfl
          ⟨rfl, Statements.finalStatus_terminal _ _⟩ rfl (fun id' => ?_) (fun view hview => ?_)
        · exact Table.eq_of_key hdistinct hj hjob ((of_decide_eq_true hpj).1.trans hid.symm)
        · rintro rfl
          refine decide_eq_true ⟨hid, fun hcancelled => hopen ?_⟩
          rw [hcancelled]
          rfl
        · rw [hid]
          rfl
        · exact (hu.2 view hview).trans hid.symm

theorem effect_createJob (a : CreateJobArgs) :
    Ends (JobService.createJob a) (fun _ u => Effect v u none) v := by
  have hselect : ∀ {α : Type} {k : Option Id → Code α} {Q : α → World → Prop} (u : World),
      (∀ existing, Ends (k existing) Q u) → Ends (selectKey a.idempotencyKey >>= k) Q u := by
    intro α k Q u hk
    refine wp_seq (ends_selectKey a.idempotencyKey) ?_
    rintro existing _ rfl
    exact hk existing
  have hget : ∀ (id : Id) (created : Bool) u, Effect v u none → Ends (do
      let job ← JobService.getJob id
      pure (.ok ⟨job, created⟩ : Except SqlError CreateResult)) (fun _ u => Effect v u none) u := by
    intro id created u hu
    refine wp_seq (ends_getJob id) (fun _ t ht => ?_)
    rw [ht.1]
    exact hu
  refine hselect v (fun existing => ?_)
  cases existing with
  | some existing => exact hget existing false v (effect_none rfl rfl)
  | none =>
    simp only [randomUUID, dateNow, insertJobAndItems, wp_bind, wp_query, wp_update,
      forall_eq', true_and]
    cases htransaction : createTransaction v.shared.uuid v.shared.now a
      (v.shared.uuid + 1) v.shared.db with
    | ok db =>
      obtain ⟨rfl, hfresh, _⟩ := createTransaction_ok htransaction
      simp only [Except.map, recordEvent, dateNow, wp_bind, wp_query, wp_exec, forall_eq', true_and]
      refine (wp_bind ..).mp (hget v.shared.uuid true _ ?_)
      exact .created rfl hfresh rfl rfl
        (List.forall_mem_singleton.mpr (fun _ => rfl))
    | error err =>
      simp only [Except.map]
      split
      · refine hselect _ (fun existing => ?_)
        cases existing with
        | some existing => exact hget existing false _ (effect_none rfl rfl)
        | none => exact effect_none rfl rfl
      · exact effect_none rfl rfl

theorem effect_op (op : Op) (hdistinct : (v.shared.db.jobs.map (·.id)).Nodup) :
    Effect v (op.code.run v).2 (op.code.run v).1 := by
  suffices hends : Ends op.code (fun r u => Effect v u r) v from ends_iff.mp hends
  cases op with
  | createJob args => exact wp_seq (effect_createJob args) (fun _ _ h => h)
  | markItemRunning itemId => exact wp_seq (effect_markItemRunning itemId) (fun _ _ h => h)
  | scheduleRetry itemId nextAttemptAt category detail =>
    exact wp_seq (effect_scheduleRetry itemId nextAttemptAt category detail) (fun _ _ h => h)
  | markItemTerminal itemId status category detail =>
    exact wp_seq (effect_markItemTerminal itemId status category detail) (fun _ _ h => h)
  | checkJobCompletion id => exact effect_checkJobCompletion id hdistinct
  | cancelJob id actor => exact wp_seq (effect_cancelJob id actor hdistinct) (fun _ _ h => h)
  | pauseJob id actor => exact wp_seq (effect_pauseJob id actor) (fun _ _ h => h)
  | resumeJob id actor => exact wp_seq (effect_resumeJob id actor) (fun _ _ h => h)
  | wait ms =>
    simp only [Op.code, Ends, wp_bind, wp_exec, wp_pure, forall_eq', true_and]
    exact effect_none rfl rfl

end Effect

section Session

theorem consistent_step {s : Session} (h : Consistent s) (op : Op) : Consistent (step s op) :=
  consistent_effect h (effect_op op h.distinct)

theorem consistent_start (now : Ms) (mem : Memory) : Consistent (start now mem) where
  distinct := List.nodup_nil
  events := fun _ => rfl
  returned := fun _ => le_refl _

theorem consistent_run (now : Ms) (mem : Memory) (ops : List Op) :
    Consistent (play step (start now mem) ops) :=
  play_invariant_all Consistent (fun _ op h => consistent_step h op) (consistent_start now mem) ops

theorem terminal_moves {status status' : JobStatus} (h : Moves status status')
    (hterminal : status.terminal = true) :
    status' = status := by
  obtain h | ⟨rfl, _⟩ | ⟨h, _⟩ | ⟨rfl, _⟩ | ⟨h, _⟩ := h
  · exact h
  · cases hterminal
  · simp only [List.mem_cons, List.not_mem_nil, or_false] at h
    obtain rfl | rfl := h <;> cases hterminal
  · cases hterminal
  · rw [h] at hterminal
    cases hterminal

/-- A job that has come to its end keeps its status. -/
theorem terminal_run {s : Session} (h : Consistent s) (ops : List Op) {j : Job}
    (hj : j ∈ s.world.shared.db.jobs) (hterminal : j.status.terminal = true) :
    ∃ j' ∈ (play step s ops).world.shared.db.jobs, j'.id = j.id ∧ j'.status = j.status := by
  induction ops generalizing s j with
  | nil => exact ⟨j, hj, rfl, rfl⟩
  | cons op ops ih =>
    obtain ⟨j', hj', hid, hmoves⟩ := moves_effect (effect_op op h.distinct) hj
    have hstatus := terminal_moves hmoves hterminal
    obtain ⟨j'', hj'', hid', hstatus'⟩ :=
      ih (consistent_step h op) hj' (by rw [hstatus]; exact hterminal)
    exact ⟨j'', hj'', hid'.trans hid, hstatus'.trans hstatus⟩

end Session

/-- After any operations: the next one moves every job's status along `Moves`, a terminal status
stays for good, a job has one closing event if it is terminal and none otherwise, and
`checkJobCompletion` has returned it at most once. -/
theorem job_lifecycle (now : Ms) (mem : Memory) (ops : List Op) :
    let s := play step (start now mem) ops
    let jobs := s.world.shared.db.jobs
    (jobs.map (·.id)).Nodup ∧
    (∀ op, ∀ j ∈ jobs, ∃ j' ∈ (step s op).world.shared.db.jobs, j'.id = j.id ∧
      Moves j.status j'.status) ∧
    (∀ ops', ∀ j ∈ jobs, j.status.terminal = true →
      ∃ j' ∈ (play step s ops').world.shared.db.jobs, j'.id = j.id ∧ j'.status = j.status) ∧
    (∀ j ∈ jobs, s.world.shared.db.events.countP (closes j.id) =
      if j.status.terminal then 1 else 0) ∧
    ∀ id, s.returned.count id ≤ 1 := by
  intro s jobs
  have h : Consistent s := consistent_run now mem ops
  have hone : ∀ j ∈ jobs, jobs.countP (closed j.id) = if j.status.terminal then 1 else 0 := by
    intro j hj
    by_cases hterminal : j.status.terminal
    · rw [if_pos hterminal]
      refine Table.changes_one h.distinct hj (by simp [closed, hterminal]) (fun a ha => ?_)
      simp only [closed, Bool.and_eq_true, decide_eq_true_eq] at ha
      exact ha.1
    · rw [if_neg hterminal, List.countP_eq_zero]
      intro a ha hclosed
      simp only [closed, Bool.and_eq_true, decide_eq_true_eq] at hclosed
      rw [Table.eq_of_key h.distinct ha hj hclosed.1] at hclosed
      exact hterminal hclosed.2
  refine ⟨h.distinct, fun op j hj => moves_effect (effect_op op h.distinct) hj,
    fun ops' j hj hterminal => terminal_run h ops' hj hterminal, fun j hj => ?_, fun id => ?_⟩
  · rw [h.events]
    exact hone j hj
  · refine le_trans (h.returned id) ?_
    by_cases hid : ∃ j ∈ jobs, j.id = id
    · obtain ⟨j, hj, rfl⟩ := hid
      rw [hone j hj]
      split <;> decide
    · rw [List.countP_eq_zero.mpr (fun j hj hclosed => ?_)]
      · exact Nat.zero_le 1
      simp only [closed, Bool.and_eq_true, decide_eq_true_eq] at hclosed
      exact hid ⟨j, hj, hclosed.1⟩

end WhatsappTester.Jobs.Lifecycle
