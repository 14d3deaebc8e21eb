import WhatsappTester.Atomic.Bookkeeping
import WhatsappTester.Statements

namespace WhatsappTester.Jobs.Journal

open Schema State Atomic Atomic.Program Atomic.Bookkeeping Statements JobService Claiming Worker
  Process

structure Standing where
  status : JobStatus
  total : Nat
  sourceType : Option String
  sourceId : Option String
  deriving DecidableEq, Repr

def standing (j : Job) : Standing := ⟨j.status, j.total, j.sourceType, j.sourceId⟩

def standings (w : World) (id : Id) : Option Standing := (w.shared.db.job id).map standing

def tellKind (kind : JobEventKind) (row : Option Standing) : Option Standing :=
  match kind with
  | .created total sourceType sourceId => some ⟨.queued, total, sourceType, sourceId⟩
  | .started => row.map (fun s => { s with status := .running })
  | .completed finalStatus .. => row.map (fun s => { s with status := finalStatus })
  | .cancelled _ => row.map (fun s => { s with status := .cancelled })
  | .paused _ => row.map (fun s => { s with status := .paused })
  | .resumed _ => row.map (fun s => { s with status := .queued })

def tell (e : JobEvent) : Option Standing → Option Standing := tellKind e.kind

def told (w : World) (id : Id) : Option Standing :=
  recount JobEvent.jobId tell w.shared.db.events id

/-- The events go on from `base`, and tell of all jobs but for at most `n`. -/
structure Books (base : List JobEvent) (n : Nat) (w : World) : Prop where
  distinct : (w.shared.db.jobs.map (·.id)).Nodup
  grown : base <+: w.shared.db.events
  lag : Lag JobEvent.jobId tell n w.shared.db.events (standings w)

/-- A statement that neither moves a job nor notes that one has moved. -/
structure Quiet (v w : World) : Prop where
  ids : w.shared.db.jobs.map (·.id) = v.shared.db.jobs.map (·.id)
  standings : standings w = standings v
  events : w.shared.db.events = v.shared.db.events

/-- Since `v` the job has moved in a way that is still to be noted. -/
structure Owes (id : Id) (kind : JobEventKind) (v w : World) : Prop where
  distinct : (w.shared.db.jobs.map (·.id)).Nodup
  events : w.shared.db.events = v.shared.db.events
  others : ∀ k, k ≠ id → standings w k = standings v k
  one : standings w id = tellKind kind (standings v id)

variable {base : List JobEvent} {n : Nat} {u v w : World} {id : Id} {kind : JobEventKind}

theorem quiet_refl (v : World) : Quiet v v := ⟨rfl, rfl, rfl⟩

theorem quiet_trans (h : Quiet u v) (h' : Quiet v w) : Quiet u w :=
  ⟨h'.ids.trans h.ids, h'.standings.trans h.standings, h'.events.trans h.events⟩

theorem quiet_tables (hjobs : w.shared.db.jobs = v.shared.db.jobs)
    (hevents : w.shared.db.events = v.shared.db.events) : Quiet v w := by
  refine ⟨by rw [hjobs], funext (fun id => ?_), hevents⟩
  rw [standings, standings, Db.job, hjobs]
  rfl

theorem books_mono (h : Books base n v) : Books base (n + 1) v :=
  ⟨h.distinct, h.grown, lag_mono (Nat.le_succ n) h.lag⟩

theorem books_quiet (h : Books base n v) (hw : Quiet v w) : Books base n w := by
  refine ⟨hw.ids ▸ h.distinct, hw.events ▸ h.grown, ?_⟩
  rw [hw.events, hw.standings]
  exact h.lag

theorem books_owes (h : Books base n v) (hw : Owes id kind v w) : Books base (n + 1) w := by
  refine ⟨hw.distinct, hw.events ▸ h.grown, ?_⟩
  rw [hw.events]
  exact lag_changed h.lag hw.others

theorem owes_quiet (h : Owes id kind u v) (hw : Quiet v w) : Owes id kind u w := by
  refine ⟨hw.ids ▸ h.distinct, hw.events.trans h.events, fun k hk => ?_, ?_⟩
  · rw [hw.standings]
    exact h.others k hk
  · rw [hw.standings]
    exact h.one

/-- Cut off anywhere, the code leaves at most one more job behind; at its end it leaves none. -/
abbrev Keeps {α : Type} (base : List JobEvent) (n : Nat) (p : Code α) (v : World) : Prop :=
  Wp Eq (fun _ t => Books base (n + 1) t) p (fun _ t => Books base n t) v

theorem keeps_quiet {α : Type} {p : Code α} (hp : Always Quiet p) (h : Books base n v) :
    Keeps base n p v :=
  wp_alone hp (fun _ _ hv hw => ⟨books_mono (books_quiet hv hw), books_quiet hv hw⟩) h

theorem quiet_query {α : Type} (f : World → α) : Always Quiet (query f) := always_query f quiet_refl

theorem wp_owing {α : Type} {p : Code α} (hp : Always Quiet p) (h : Books base n v)
    (hw : Owes id kind v w) :
    Wp Eq (fun _ t => Books base (n + 1) t) p (fun _ t => Owes id kind v t) w :=
  wp_alone hp (fun _ _ hv ht => ⟨books_owes h (owes_quiet hv ht), owes_quiet hv ht⟩) hw

theorem keeps_recordEvent (h : Books base n v) (hw : Owes id kind v w) :
    Keeps base n (recordEvent id kind) w := by
  refine wp_seq (wp_owing (quiet_query _) h hw) (fun ts t ht => ?_)
  have hbooks : Books base n { t with
      shared.db.events := t.shared.db.events ++ [⟨id, ts, kind⟩] } := by
    refine ⟨ht.distinct, ?_, ?_⟩
    · exact (ht.events ▸ h.grown).trans (List.prefix_append _ _)
    · simp only [ht.events]
      exact lag_entered (e := ⟨id, ts, kind⟩) h.lag ht.others ht.one
  rw [wp_exec]
  rintro _ rfl
  exact ⟨books_mono hbooks, hbooks⟩

theorem wp_updateJobs {p : Job → Bool} {f : Job → Job} (kind : JobEventKind)
    (h : Books base n v) (hp : ∀ j, p j → j.id = id)
    (hf : ∀ j, p j → (f j).id = j.id ∧ tellKind kind (some (standing j)) = some (standing (f j))) :
    Wp Eq (fun _ t => Books base (n + 1) t) (updateJobs p f)
      (fun changes t => changes = Table.changes p v.shared.db.jobs ∧
        (0 < changes → Owes id kind v t) ∧ (changes = 0 → Books base n t)) v := by
  rw [updateJobs, wp_update]
  rintro _ rfl
  have hrow : ∀ k, standings { v with
      shared.db.jobs := Table.update p f v.shared.db.jobs } k =
      ((v.shared.db.job k).map (fun j => if p j then f j else j)).map standing :=
    fun k => congrArg (Option.map standing) (Table.find_update (fun j hj => (hf j hj).1) k _)
  have howes : 0 < Table.changes p v.shared.db.jobs → Owes id kind v { v with
      shared.db.jobs := Table.update p f v.shared.db.jobs } := by
    intro hpos
    refine ⟨?_, rfl, fun k hk => ?_, ?_⟩
    · simp only [Table.map_update (fun j hj => (hf j hj).1)]
      exact h.distinct
    · rw [hrow, standings]
      cases hjob : v.shared.db.job k with
      | none => rfl
      | some j =>
        have hnot : ¬ p j := fun hj => hk ((Table.find_mem hjob).2.symm.trans (hp j hj))
        simp [hnot]
    · obtain ⟨j, hj, hpj⟩ := List.countP_pos_iff.mp hpos
      have hid := hp j hpj
      have hjob : v.shared.db.job id = some j := hid ▸ Table.find_eq_some h.distinct hj
      rw [hrow, standings, hjob]
      simp only [Option.map_some, hpj, ↓reduceIte]
      exact (hf j hpj).2.symm
  have hsame : Table.changes p v.shared.db.jobs = 0 → Quiet v { v with
      shared.db.jobs := Table.update p f v.shared.db.jobs } := by
    intro hnone
    exact quiet_tables (Table.update_eq_self (List.countP_eq_zero.mp hnone)) rfl
  refine ⟨?_, rfl, howes, fun hnone => books_quiet h (hsame hnone)⟩
  by_cases hpos : 0 < Table.changes p v.shared.db.jobs
  · exact books_owes h (howes hpos)
  · exact books_mono (books_quiet h (hsame (Nat.eq_zero_of_not_pos hpos)))

theorem quiet_getJob (id : Id) : Always Quiet (getJob id) := by
  refine always_bind (quiet_query _) (fun job => ?_)
  cases job with
  | none => exact always_pure none
  | some job => exact always_bind (quiet_query _) (fun _ => always_pure _)

theorem quiet_updateItems (p : JobItem → Bool) (f : JobItem → JobItem) :
    Always Quiet (updateItems p f) := always_update _ (fun _ => quiet_tables rfl rfl)

theorem quiet_updateItemsRecord (p : JobItem → Bool) (f : JobItem → JobItem) (e : World → Event) :
    Always Quiet (updateItemsRecord p f e) := always_update _ (fun _ => quiet_tables rfl rfl)

theorem quiet_updateSchedules (p : Schedule → Bool) (f : Schedule → Schedule) :
    Always Quiet (updateSchedules p f) := always_update _ (fun _ => quiet_tables rfl rfl)

theorem quiet_memo (h : Memo v w) : Quiet v w :=
  quiet_tables (by rw [h.shared]) (by rw [h.shared])

theorem quiet_web (h : Web v w) : Quiet v w :=
  quiet_tables (congrArg JobSide.jobs h.jobSide) (congrArg JobSide.jobEvents h.jobSide)

theorem quiet_markItemTerminal (itemId : Id) (status : ItemStatus) (category : Option Category)
    (detail : Option String) : Always Quiet (markItemTerminal itemId status category detail) := by
  refine always_bind (quiet_query _) (fun now => always_bind (quiet_query _) (fun item => ?_))
  cases item with
  | none => exact always_pure ()
  | some item =>
    refine always_bind (quiet_updateItemsRecord _ _ _) (fun _ => ?_)
    split
    · refine always_bind (always_update _ (fun v => ?_)) (fun _ => always_pure ())
      have hcounter : ∀ j, (addCounter status now j).id = j.id ∧
          standing (addCounter status now j) = standing j := by
        intro j
        cases status <;> exact ⟨rfl, rfl⟩
      refine ⟨Table.map_update (fun j _ => (hcounter j).1) _, funext (fun id => ?_), rfl⟩
      refine (congrArg (Option.map standing)
        (Table.find_update (fun j _ => (hcounter j).1) id _)).trans ?_
      rw [Option.map_map]
      refine Option.map_congr (fun j _ => ?_)
      simp only [Function.comp_apply]
      split
      · exact (hcounter j).2
      · rfl
    · exact always_pure ()

theorem quiet_recordOutcome (task : Task) (outcome : SendOutcome) (random : Nat) :
    Always Quiet (recordOutcome task outcome random) := by
  simp only [recordOutcome]
  generalize classify outcome = result
  obtain ⟨status, category, detail⟩ := result
  refine always_bind (always_bind (quiet_query _)
    (fun now => always_exec (fun _ => quiet_tables rfl rfl))) (fun _ => ?_)
  cases category with
  | none =>
    exact always_bind (always_mono (fun _ _ => quiet_memo) memo_recordSuccess)
      (fun _ => quiet_markItemTerminal _ _ _ _)
  | some category =>
    refine always_bind (always_mono (fun _ _ => quiet_memo) (memo_recordFailure _)) (fun _ => ?_)
    split
    · refine always_bind (quiet_query _) (fun now => always_bind (quiet_query _) (fun _ => ?_))
      exact always_bind (quiet_updateItemsRecord _ _ _) (fun _ => always_pure ())
    · exact quiet_markItemTerminal _ _ _ _

theorem quiet_onJobSettled (view : JobView) : Always Quiet (Scheduler.onJobSettled view) := by
  refine always_bind (always_exec (fun _ => quiet_tables rfl rfl)) (fun _ => ?_)
  split
  · refine always_bind (quiet_query _) (fun row => ?_)
    cases row with
    | none => exact always_pure ()
    | some row =>
      refine always_bind (quiet_query _) (fun now => ?_)
      exact always_bind (quiet_updateSchedules _ _) (fun _ => always_pure ())
  · exact always_pure ()

theorem quiet_claimNextItem : Always Quiet claimNextItem := by
  refine always_bind (quiet_query _) (fun now => ?_)
  refine always_bind (always_update _ (fun v => ?_)) (fun claim => ?_)
  · split
    · exact quiet_refl v
    · exact quiet_tables rfl rfl
  · cases claim with
    | none => exact always_pure none
    | some claim =>
      simp only
      split
      · exact always_pure none
      · exact quiet_query _

theorem quiet_recoverStaleClaims : Always Quiet recoverStaleClaims :=
  always_bind (quiet_query _) (fun _ => quiet_updateItems _ _)

theorem quiet_create (input : Scheduler.CreateInput) : Always Quiet (Scheduler.create input) := by
  simp only [Scheduler.create]
  cases Scheduler.normalize input with
  | error err => exact always_pure ()
  | ok args =>
    refine always_bind (always_update _ (fun _ => quiet_tables rfl rfl)) (fun id => ?_)
    exact always_bind (quiet_query _) (fun now => always_exec (fun _ => quiet_tables rfl rfl))

theorem keeps_markItemRunning (itemId : Id) (h : Books base n v) :
    Keeps base n (markItemRunning itemId) v := by
  refine wp_seq (keeps_quiet (quiet_query _) h) (fun now v h => ?_)
  refine wp_seq (keeps_quiet (quiet_query _) h) (fun item v h => ?_)
  cases item with
  | none => exact h
  | some item =>
    refine wp_seq (keeps_quiet (quiet_updateItems _ _) h) (fun _ v h => ?_)
    refine wp_seq (wp_updateJobs .started h
      (fun j hj => (of_decide_eq_true hj).1) (fun j _ => ⟨rfl, rfl⟩)) ?_
    rintro changes t ⟨-, howes, hsame⟩
    split
    case isTrue hpos => exact keeps_recordEvent h (howes hpos)
    case isFalse hnone => exact hsame (Nat.eq_zero_of_not_pos hnone)

theorem keeps_changeStatus {p : Job → Bool} {status : JobStatus} (id : Id) (kind : JobEventKind)
    (hp : ∀ j, p j → j.id = id)
    (hkind : ∀ j, tellKind kind (some (standing j)) = some { standing j with status := status })
    (h : Books base n v) :
    Keeps base n (do
      let now ← dateNow
      let changes ← updateJobs p (movedJob status now)
      if changes > 0 then recordEvent id kind else pure ()
      getJob id) v := by
  refine wp_seq (keeps_quiet (quiet_query _) h) (fun now v h => ?_)
  refine wp_seq (wp_updateJobs kind h hp (fun j _ => ⟨rfl, hkind j⟩)) ?_
  rintro changes t ⟨-, howes, hsame⟩
  simp only
  split
  case isTrue hpos =>
    exact wp_seq (keeps_recordEvent h (howes hpos))
      (fun _ t ht => keeps_quiet (quiet_getJob id) ht)
  case isFalse hnone =>
    exact keeps_quiet (quiet_getJob id) (hsame (Nat.eq_zero_of_not_pos hnone))

theorem keeps_pauseJob (id : Id) (actor : Option String) (h : Books base n v) :
    Keeps base n (pauseJob id actor) v :=
  keeps_changeStatus id (.paused actor) (fun _ hj => (of_decide_eq_true hj).1)
    (fun _ => rfl) h

theorem keeps_resumeJob (id : Id) (actor : Option String) (h : Books base n v) :
    Keeps base n (resumeJob id actor) v :=
  keeps_changeStatus id (.resumed actor) (fun _ hj => (of_decide_eq_true hj).1)
    (fun _ => rfl) h

theorem keeps_cancelJob (id : Id) (actor : Option String) (h : Books base n v) :
    Keeps base n (cancelJob id actor) v := by
  refine wp_seq (keeps_quiet (quiet_query _) h) (fun now v h => ?_)
  refine wp_seq (wp_updateJobs (.cancelled actor) h
    (fun j hj => (of_decide_eq_true hj).1) (fun j _ => ⟨rfl, rfl⟩)) ?_
  rintro changes t ⟨-, howes, hsame⟩
  split
  case isTrue hpos =>
    refine wp_seq (wp_owing (quiet_updateItemsRecord _ _ _) h (howes hpos)) (fun _ t ht => ?_)
    exact wp_seq (keeps_recordEvent h ht) (fun _ t ht => keeps_quiet (quiet_getJob id) ht)
  case isFalse hnone =>
    exact keeps_quiet (quiet_getJob id) (hsame (Nat.eq_zero_of_not_pos hnone))

theorem keeps_completed {jobId : Id} {job : Job} (h : Books base n v)
    (hjob : v.shared.db.job jobId = some job) (hopen : ¬ job.status.terminal) (status : JobStatus)
    (now : Ms) (succeeded failed skipped : Nat) :
    Keeps base n (do
      let _ ← updateJobs (fun j => decide (j.id = jobId ∧ j.status ≠ .cancelled))
        (settledJob status now)
      recordEvent jobId (.completed status succeeded failed skipped)
      getJob jobId) v := by
  obtain ⟨hmem, hid⟩ := Table.find_mem hjob
  refine wp_seq (wp_updateJobs (.completed status succeeded failed skipped) h
    (fun j hj => (of_decide_eq_true hj).1) (fun j _ => ⟨rfl, rfl⟩)) ?_
  rintro changes t ⟨rfl, howes, -⟩
  refine wp_seq (keeps_recordEvent h (howes ?_)) (fun _ t ht => keeps_quiet (quiet_getJob _) ht)
  refine List.countP_pos_iff.mpr ⟨job, hmem, decide_eq_true ⟨hid, fun hcancelled => ?_⟩⟩
  rw [hcancelled] at hopen
  exact hopen rfl

theorem keeps_checkJobCompletion (jobId : Id) (h : Books base n v) :
    Keeps base n (checkJobCompletion jobId) v := by
  simp only [checkJobCompletion, selectJob, selectCounts, dateNow, wp_bind, wp_query]
  rintro _ rfl
  refine ⟨books_mono h, ?_⟩
  cases hjob : v.shared.db.job jobId with
  | none => exact h
  | some job =>
    simp only
    split
    case isTrue => exact h
    case isFalse hopen =>
      simp only [wp_bind, wp_query]
      rintro _ rfl
      refine ⟨books_mono h, ?_⟩
      split
      · exact h
      · simp only [wp_query, wp_bind]
        rintro _ rfl
        refine ⟨books_mono h, ?_⟩
        have hkeeps := keeps_completed h hjob hopen
        simp only [wp_bind] at hkeeps
        exact hkeeps _ _ _ _ _

theorem owes_created {a : CreateJobArgs} {now : Ms} {first : Id} {db : Db} (h : Books base n v)
    (htransaction : createTransaction id now a first v.shared.db = .ok db)
    (hjobs : w.shared.db.jobs = db.jobs) (hevents : w.shared.db.events = db.events) :
    Owes id (.created a.items.length a.sourceType a.sourceId) v w := by
  obtain ⟨rfl, hfresh, -⟩ := createTransaction_ok htransaction
  have hrow : ∀ k, standings w k = ((v.shared.db.job k).or
      (Table.find (fun j : Job => j.id) k [newJob id now a])).map standing := by
    intro k
    rw [standings, Db.job, hjobs]
    exact congrArg (Option.map standing) Table.find_append
  refine ⟨?_, hevents, fun k hk => ?_, ?_⟩
  · simp only [hjobs, List.map_append]
    refine List.nodup_append.mpr ⟨h.distinct, List.nodup_singleton _, ?_⟩
    simpa [newJob] using hfresh
  · have hnew : Table.find (fun j : Job => j.id) k [newJob id now a] = none :=
      Table.find_none.mpr (List.forall_mem_singleton.mpr (fun heq => hk heq.symm))
    rw [hrow, hnew, Option.or_none, standings]
  · have hnone : v.shared.db.job id = none := Table.find_none.mpr hfresh
    rw [hrow, hnone]
    simp [Table.find, newJob, standing, tellKind]

theorem quiet_selectKey (key : Option String) : Always Quiet (selectKey key) := by
  cases key with
  | none => exact always_pure none
  | some k =>
    simp only [selectKey]
    split
    · exact always_pure none
    · exact quiet_query _

theorem quiet_found (id : Id) (created : Bool) : Always Quiet (do
    let job ← getJob id
    pure (.ok ⟨job, created⟩ : Except SqlError CreateResult)) :=
  always_bind (quiet_getJob id) (fun _ => always_pure _)

theorem keeps_createJob (a : CreateJobArgs) (h : Books base n v) :
    Keeps base n (createJob a) v := by
  refine wp_seq (keeps_quiet (quiet_selectKey _) h) (fun existing v h => ?_)
  cases existing with
  | some existing => exact keeps_quiet (quiet_found existing false) h
  | none =>
    have huuid : Always Quiet randomUUID := always_update _ (fun _ => quiet_tables rfl rfl)
    refine wp_seq (keeps_quiet huuid h) (fun id v h => ?_)
    refine wp_seq (keeps_quiet (quiet_query _) h) (fun now v h => ?_)
    simp only [insertJobAndItems, wp_bind, wp_update]
    rintro _ rfl
    cases htransaction : createTransaction id now a v.shared.uuid v.shared.db with
    | ok db =>
      have howes := owes_created (w := { v with
          shared.db := db
          shared.uuid := v.shared.uuid + a.items.length
          shared.trace := .jobInserted v.mem.pid id a :: v.shared.trace }) h htransaction rfl rfl
      refine ⟨books_owes h howes, ?_⟩
      exact wp_seq (keeps_recordEvent h howes) (fun _ t ht => keeps_quiet (quiet_found id true) ht)
    | error err =>
      have hsame := books_quiet h (w := { v with
          shared.uuid := v.shared.uuid + a.items.length }) (quiet_tables rfl rfl)
      refine ⟨books_mono hsame, ?_⟩
      simp only [Except.map]
      split
      · refine wp_seq (keeps_quiet (quiet_selectKey _) hsame) (fun existing v h => ?_)
        cases existing with
        | some existing => exact keeps_quiet (quiet_found existing false) h
        | none => exact h
      · exact hsame

theorem keeps_callCreateJob (a : CreateJobArgs) (h : Books base n v) :
    Keeps base n (callCreateJob a) v := by
  refine wp_seq (keeps_createJob a h) (fun result v h => ?_)
  have hreturned : Always Quiet (exec (returned a result)) := by
    refine always_exec (fun v => ?_)
    cases result with
    | error err => exact quiet_refl v
    | ok r => exact quiet_tables rfl rfl
  exact wp_seq (keeps_quiet hreturned h) (fun _ v h => h)

theorem keeps_fireDue (row : Schedule) (h : Books base n v) :
    Keeps base n (Scheduler.fireDue row) v := by
  refine wp_seq (keeps_callCreateJob _ h) (fun result v h => ?_)
  cases result with
  | error err => exact h
  | ok result =>
    refine wp_seq (keeps_quiet (quiet_query _) h) (fun now v h => ?_)
    exact wp_seq (keeps_quiet (quiet_updateSchedules _ _) h) (fun _ v h => h)

theorem keeps_runTickIfReady (ready : Bool) (h : Books base n v) :
    Keeps base n (Scheduler.runTickIfReady ready) v := by
  simp only [Scheduler.runTickIfReady]
  split
  · exact h
  · refine wp_seq (keeps_quiet (quiet_query _) h) (fun now v h => ?_)
    refine wp_seq (keeps_quiet (quiet_query _) h) (fun rows v h => ?_)
    exact wp_each rows (fun row _ v h => keeps_fireDue row h) h

theorem keeps_processItem (item : JobItem) (h : Books base n v) :
    Keeps base n (processItem item) v := by
  refine wp_seq (keeps_markItemRunning item.id h) (fun _ v h => ?_)
  have hattempt : Always Quiet (recordAttemptStart item.id (item.attemptCount + 1)) := by
    refine always_bind (quiet_query _) (fun now => ?_)
    refine always_bind (always_exec (fun _ => quiet_tables rfl rfl)) (fun _ => ?_)
    exact always_bind (quiet_updateItemsRecord _ _ _) (fun _ => always_pure ())
  refine wp_seq (keeps_quiet hattempt h) (fun _ v h => ?_)
  exact keeps_quiet (always_exec (fun _ => quiet_tables rfl rfl)) h

theorem keeps_tick (h : Books base n v) : Keeps base n tick v := by
  refine wp_tick (fun f v h => keeps_quiet (quiet_query f) h)
    (fun hp v h => keeps_quiet (always_mono (fun _ _ => quiet_memo) hp) h) (fun v h => ?_) h
  refine wp_mono (fun item v h => ?_) (keeps_quiet quiet_claimNextItem h)
  cases item with
  | none => exact h
  | some item => exact keeps_processItem item h

theorem keeps_complete (itemId : Id) (outcome : SendOutcome) (random : Nat) (h : Books base n v) :
    Keeps base n (complete itemId outcome random) v := by
  refine wp_seq (keeps_quiet (quiet_query _) h) (fun task v h => ?_)
  cases task with
  | none => exact h
  | some task =>
    refine wp_seq (keeps_quiet (quiet_recordOutcome task outcome random) h) (fun _ v h => ?_)
    refine wp_seq ?_ (fun _ v h => keeps_quiet (always_exec (fun _ => quiet_tables rfl rfl)) h)
    refine wp_seq (keeps_checkJobCompletion _ h) (fun job v h => ?_)
    cases job with
    | none => exact h
    | some job => exact keeps_quiet (quiet_onJobSettled job) h

theorem keeps_call (c : Call) (h : Books base n v) : Keeps base n c.code v := by
  have hweb : ∀ {p : Code Unit}, Always Web p → Keeps base n p v :=
    fun hp => keeps_quiet (always_mono (fun _ _ => quiet_web) hp) h
  cases c with
  | tick => exact keeps_tick h
  | complete itemId outcome random => exact keeps_complete itemId outcome random h
  | createJob args => exact wp_seq (keeps_callCreateJob args h) (fun _ v h => h)
  | cancelJob id actor => exact wp_seq (keeps_cancelJob id actor h) (fun _ v h => h)
  | pauseJob id actor => exact wp_seq (keeps_pauseJob id actor h) (fun _ v h => h)
  | resumeJob id actor => exact wp_seq (keeps_resumeJob id actor h) (fun _ v h => h)
  | createSchedule input => exact keeps_quiet (quiet_create input) h
  | removeSchedule id => exact keeps_quiet (always_exec (fun _ => quiet_tables rfl rfl)) h
  | runTickIfReady ready => exact keeps_runTickIfReady ready h
  | setOutboundDisabled disabled actor reason => exact hweb (web_setOutboundDisabled _ _ _ _)
  | drainAndStop => exact keeps_quiet (always_exec (fun _ => quiet_tables rfl rfl)) h
  | request r ready => exact hweb (web_request r ready)
  | answered id answer ready => exact hweb (web_answered id answer ready)
  | delayOver id ready => exact hweb (web_delayOver id ready)
  | sweepExpiredIdempotencyKeys => exact hweb web_sweepExpiredIdempotencyKeys

theorem quiet_boot (v : World) : Quiet v (boot v) := by
  have hboot := boot_respects quiet_refl (fun _ _ _ => quiet_trans) quiet_recoverStaleClaims v
  exact ⟨hboot.ids, hboot.standings, hboot.events⟩

theorem books_step {s : Server} (h : Books base n s.world) (a : Action) :
    Books base (n + if a.isCrash then 1 else 0) (step s a).world := by
  cases a with
  | advance ms => exact books_quiet h (quiet_tables rfl rfl)
  | call c =>
    by_cases hup : s.up
    · rw [step_call hup]
      exact wp_run (keeps_call c h)
    · rw [step_call_down hup]
      exact h
  | crash c k =>
    by_cases hup : s.up
    · rw [step, if_pos hup]
      exact books_quiet (wp_cut (books_mono h) (keeps_call c h) k) (quiet_tables rfl rfl)
    · rw [step_crash_down hup]
      exact books_mono h
  | restart =>
    by_cases hup : s.up
    · rw [step_restart_up hup]
      exact h
    · rw [step_restart hup]
      exact books_quiet h (quiet_boot s.world)

theorem books_run {s : Server} (h : Books base n s.world) (as : List Action) :
    Books base (n + as.countP Action.isCrash) (run s as).world := by
  induction as generalizing s n with
  | nil => exact h
  | cons a as ih =>
    have hrest := ih (books_step h a)
    rw [List.countP_cons, Nat.add_comm (as.countP _), ← Nat.add_assoc]
    exact hrest

/-- The events of a job tell its status, its size and its source, for all jobs but one for each
death in the midst of a call; and no event that was noted is ever lost. -/
theorem journal_tells (concurrency : Nat) (now : Ms) (as bs : List Action) :
    let s := run (initial concurrency now) as
    (∃ behind : List Id, behind.length ≤ as.countP Action.isCrash ∧
      ∀ id, id ∉ behind → told s.world id = standings s.world id) ∧
    s.world.shared.db.events <+: (run s bs).world.shared.db.events := by
  have hstart : Books [] 0 (initial concurrency now).world :=
    ⟨List.nodup_nil, List.nil_prefix, lag_empty _ _⟩
  have hbooks := books_run hstart as
  obtain ⟨behind, hlength, htold⟩ := hbooks.lag
  have hagain : Books (run (initial concurrency now) as).world.shared.db.events _
      (run (initial concurrency now) as).world :=
    ⟨hbooks.distinct, List.prefix_refl _, hbooks.lag⟩
  refine ⟨⟨behind, ?_, htold⟩, (books_run hagain bs).grown⟩
  rwa [Nat.zero_add] at hlength

end WhatsappTester.Jobs.Journal
