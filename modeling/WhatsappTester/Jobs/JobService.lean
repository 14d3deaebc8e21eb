import Mathlib.Algebra.GroupWithZero.Nat
import Mathlib.Data.List.Sort
import WhatsappTester.State

namespace WhatsappTester.Jobs.JobService

open Schema State Atomic.Program

def recordEvent (jobId : Id) (kind : JobEventKind) : Code Unit := do
  let ts ← dateNow
  exec (fun w => { w with shared.db.events := w.shared.db.events ++ [⟨jobId, ts, kind⟩] })

/-- The item rows of a job, `ORDER BY seq`. -/
def selectItemsOf (jobId : Id) : Code (List JobItem) :=
  query (fun w => (w.shared.db.itemsOf jobId).insertionSort (fun r r' => r.seq ≤ r'.seq))

def getJob (id : Id) : Code (Option JobView) := do
  match ← selectJob id with
  | none => pure none
  | some job => do
    let items ← selectItemsOf id
    pure (some ⟨job, items⟩)

/-- The look-up of an idempotency key, which an empty or missing key skips. -/
def selectKey (key : Option String) : Code (Option Id) :=
  match key with
  | none => pure none
  | some k =>
    if k = "" then pure none
    else query (fun w =>
      (w.shared.db.jobs.find? (fun j => decide (j.idempotencyKey = some k))).map (·.id))

def newJob (id : Id) (now : Ms) (a : CreateJobArgs) : Job where
  id := id
  type := a.type
  status := .queued
  createdBy := a.createdBy
  createdAt := now
  startedAt := none
  completedAt := none
  updatedAt := now
  total := a.items.length
  succeeded := 0
  failed := 0
  skipped := 0
  cancelled := 0
  idempotencyKey := a.idempotencyKey
  sourceType := a.sourceType
  sourceId := a.sourceId
  metadata := a.metadata

def newItem (id jobId : Id) (seq : Nat) (now : Ms) (number : String) (name : Option String)
    (message : String) : JobItem where
  id := id
  jobId := jobId
  seq := seq
  recipientNumber := number
  recipientName := name.getD ""
  message := message
  status := .queued
  attemptCount := 0
  nextAttemptAt := now
  claimedBy := none
  claimedAt := none
  leaseExpiresAt := none
  lastErrorCategory := none
  lastErrorMessage := none
  updatedAt := now

/-- `INSERT INTO jobs`, with its primary key and the partial unique index on
the idempotency key. -/
def insertJob (job : Job) (db : Db) : Except SqlError Db :=
  if db.jobs.any (fun j => decide (j.id = job.id)) then .error (.unique "jobs.id")
  else if job.idempotencyKey.isSome &&
      db.jobs.any (fun j => decide (j.idempotencyKey = job.idempotencyKey)) then
    .error (.unique "jobs.idempotency_key")
  else .ok { db with jobs := db.jobs ++ [job] }

/-- The `INSERT INTO job_items` of each item in turn. The ids are drawn one by one. -/
def insertItems (jobId : Id) (now : Ms) : Id → Nat → List NewItem → Db → Except SqlError Db
  | _, _, [], db => .ok db
  | id, seq, item :: items, db =>
    match item.number, item.message with
    | none, _ => .error (.notNull "job_items.recipient_number")
    | _, none => .error (.notNull "job_items.message")
    | some number, some message =>
      if db.items.any (fun r => decide (r.id = id)) then .error (.unique "job_items.id")
      else insertItems jobId now (id + 1) (seq + 1) items
        { db with items := db.items ++ [newItem id jobId seq now number item.name message] }

/-- Everything between `BEGIN IMMEDIATE` and `COMMIT`. -/
def createTransaction (id : Id) (now : Ms) (a : CreateJobArgs) (firstItem : Id) (db : Db) :
    Except SqlError Db := do
  let db ← insertJob (newJob id now a) db
  insertItems id now firstItem 0 a.items db

def newItems (jobId : Id) (now : Ms) : Id → Nat → List NewItem → List JobItem
  | _, _, [] => []
  | id, seq, item :: items =>
    newItem id jobId seq now (item.number.getD "") item.name (item.message.getD "") ::
      newItems jobId now (id + 1) (seq + 1) items

theorem mem_newItems {jobId : Id} {now : Ms} {id : Id} {seq : Nat}
    {items : List NewItem} {r : JobItem} (hr : r ∈ newItems jobId now id seq items) :
    r.jobId = jobId ∧ r.status = .queued := by
  induction items generalizing id seq with
  | nil => cases hr
  | cons item items ih =>
    cases hr with
    | head => exact ⟨rfl, rfl⟩
    | tail _ hrest => exact ih hrest

theorem insertItems_ok {jobId : Id} {now : Ms} {id : Id} {seq : Nat}
    {items : List NewItem} {db db' : Db} (h : insertItems jobId now id seq items db = .ok db') :
    db' = { db with items := db.items ++ newItems jobId now id seq items } ∧
      (∀ item ∈ items, item.number.isSome ∧ item.message.isSome) ∧
      ((db.items.map (·.id)).Nodup → (db'.items.map (·.id)).Nodup) := by
  induction items generalizing id seq db with
  | nil =>
    cases h
    simp [newItems]
  | cons item items ih =>
    simp only [insertItems] at h
    split at h
    · cases h
    · cases h
    case h_3 number message hnumber hmessage =>
      split at h
      · cases h
      case isFalse hfresh =>
        obtain ⟨hdb, hgiven, hnodup⟩ := ih h
        refine ⟨?_, ?_, ?_⟩
        · rw [hdb]
          simp [newItems, hnumber, hmessage]
        · intro other hother
          cases hother with
          | head => exact ⟨by simp [hnumber], by simp [hmessage]⟩
          | tail _ hrest => exact hgiven other hrest
        · intro hold
          apply hnodup
          simp only [List.map_append, List.map_cons, List.map_nil, newItem]
          refine List.nodup_append.mpr ⟨hold, List.nodup_singleton _, ?_⟩
          have hne : ∀ r ∈ db.items, r.id ≠ id := by simpa using hfresh
          simpa using hne

theorem insertJob_ok {job : Job} {db db' : Db} (h : insertJob job db = .ok db') :
    db' = { db with jobs := db.jobs ++ [job] } ∧ (∀ j ∈ db.jobs, j.id ≠ job.id) ∧
      (job.idempotencyKey.isSome → ∀ j ∈ db.jobs, j.idempotencyKey ≠ job.idempotencyKey) := by
  simp only [insertJob] at h
  split at h
  · cases h
  case isFalse hid =>
    split at h
    · cases h
    case isFalse hkey =>
      cases h
      refine ⟨rfl, by simpa using hid, ?_⟩
      intro hsome
      simpa [hsome] using hkey

/-- What a transaction has done when it commits. -/
theorem createTransaction_ok {id : Id} {now : Ms} {a : CreateJobArgs} {firstItem : Id} {db db' : Db}
    (h : createTransaction id now a firstItem db = .ok db') :
    db' = { db with
        jobs := db.jobs ++ [newJob id now a]
        items := db.items ++ newItems id now firstItem 0 a.items } ∧
      (∀ j ∈ db.jobs, j.id ≠ id) ∧
      (a.idempotencyKey.isSome → ∀ j ∈ db.jobs, j.idempotencyKey ≠ a.idempotencyKey) ∧
      (∀ item ∈ a.items, item.number.isSome ∧ item.message.isSome) ∧
      ((db.items.map (·.id)).Nodup → (db'.items.map (·.id)).Nodup) := by
  cases hjob : insertJob (newJob id now a) db with
  | error err =>
    rw [createTransaction, hjob] at h
    cases h
  | ok mid =>
    rw [createTransaction, hjob] at h
    have h' : insertItems id now firstItem 0 a.items mid = .ok db' := h
    obtain ⟨hmid, hid, hkey⟩ := insertJob_ok hjob
    obtain ⟨hdb, hgiven, hnodup⟩ := insertItems_ok h'
    subst hmid
    exact ⟨hdb, hid, hkey, hgiven, hnodup⟩

section Transaction

variable {id first : Id} {now : Ms} {a : CreateJobArgs} {db db' : Db}

theorem insert_owned (h : createTransaction id now a first db = .ok db')
    (howned : ∀ r ∈ db.items, r.jobId ∈ db.jobs.map (·.id)) :
    ∀ r ∈ db'.items, r.jobId ∈ db'.jobs.map (·.id) := by
  obtain ⟨rfl, _⟩ := createTransaction_ok h
  simp only [List.map_append, List.mem_append]
  rintro r (hr | hr)
  · exact .inl (howned r hr)
  · exact .inr (by simp [(mem_newItems hr).1, newJob])

theorem insert_itemsOf (h : createTransaction id now a first db = .ok db') {k : Id} (hk : k ≠ id) :
    db'.itemsOf k = db.itemsOf k := by
  obtain ⟨rfl, _⟩ := createTransaction_ok h
  have hnone : (newItems id now first 0 a.items).filter (fun r => decide (r.jobId = k)) = [] :=
    List.filter_eq_nil_iff.mpr (fun r hr => by simpa [(mem_newItems hr).1] using hk.symm)
  rw [Db.itemsOf, List.filter_append, hnone, List.append_nil, Db.itemsOf]

theorem insert_itemsOf_new (h : createTransaction id now a first db = .ok db')
    (howned : ∀ r ∈ db.items, r.jobId ∈ db.jobs.map (·.id)) :
    db'.itemsOf id = newItems id now first 0 a.items := by
  obtain ⟨rfl, hfresh, _⟩ := createTransaction_ok h
  have hold : db.items.filter (fun r => decide (r.jobId = id)) = [] := by
    refine List.filter_eq_nil_iff.mpr (fun r hr => ?_)
    obtain ⟨j, hj, hjob⟩ := List.mem_map.mp (howned r hr)
    simpa [← hjob] using hfresh j hj
  rw [Db.itemsOf, List.filter_append, hold, List.nil_append]
  exact List.filter_eq_self.mpr (fun r hr => decide_eq_true (mem_newItems hr).1)

end Transaction

theorem insertItems_of {jobId : Id} {now : Ms} {id : Id} {seq : Nat}
    {items : List NewItem} {db : Db}
    (hgiven : ∀ item ∈ items, item.number.isSome ∧ item.message.isSome)
    (hfresh : ∀ r ∈ db.items, r.id < id) :
    insertItems jobId now id seq items db =
      .ok { db with items := db.items ++ newItems jobId now id seq items } := by
  induction items generalizing id seq db with
  | nil => simp [insertItems, newItems]
  | cons item items ih =>
    obtain ⟨⟨hnumber, hmessage⟩, hrest⟩ := List.forall_mem_cons.mp hgiven
    obtain ⟨number, hnumber⟩ := Option.isSome_iff_exists.mp hnumber
    obtain ⟨message, hmessage⟩ := Option.isSome_iff_exists.mp hmessage
    have hnone : db.items.any (fun r => decide (r.id = id)) = false := by
      simpa using fun r hr => Nat.ne_of_lt (hfresh r hr)
    simp only [insertItems, hnumber, hmessage, hnone, Bool.false_eq_true, ↓reduceIte]
    rw [ih hrest (List.forall_mem_append.mpr ⟨fun r hr => Nat.lt_succ_of_lt (hfresh r hr),
      by simp [newItem]⟩)]
    simp [newItems, hnumber, hmessage]

/-- A transaction commits when its id and its key are new and nothing is missing. -/
theorem createTransaction_of {id : Id} {now : Ms} {a : CreateJobArgs} {firstItem : Id} {db : Db}
    (hid : ∀ j ∈ db.jobs, j.id ≠ id) (hkey : ∀ j ∈ db.jobs, j.idempotencyKey ≠ a.idempotencyKey)
    (hgiven : ∀ item ∈ a.items, item.number.isSome ∧ item.message.isSome)
    (hfresh : ∀ r ∈ db.items, r.id < firstItem) :
    createTransaction id now a firstItem db = .ok { db with
      jobs := db.jobs ++ [newJob id now a]
      items := db.items ++ newItems id now firstItem 0 a.items } := by
  have hjob : insertJob (newJob id now a) db =
      .ok { db with jobs := db.jobs ++ [newJob id now a] } := by
    have hid' : ¬ (db.jobs.any (fun j => decide (j.id = id))) := by simpa using hid
    have hkey' : ¬ (a.idempotencyKey.isSome &&
        db.jobs.any (fun j => decide (j.idempotencyKey = a.idempotencyKey))) := by
      simpa using fun _ => hkey
    exact (if_neg hid').trans (if_neg hkey')
  rw [createTransaction, hjob]
  exact insertItems_of hgiven hfresh

/-- The transaction as one atomic section: it commits as a whole, or an error
rolls it back as a whole. -/
def insertJobAndItems (id : Id) (now : Ms) (a : CreateJobArgs) : Code (Except SqlError Unit) :=
  update
    (fun w =>
      match createTransaction id now a w.shared.uuid w.shared.db with
      | .ok db =>
        { w with
          shared.db := db
          shared.uuid := w.shared.uuid + a.items.length
          shared.trace := .jobInserted w.mem.pid id a :: w.shared.trace }
      | .error _ => { w with shared.uuid := w.shared.uuid + a.items.length })
    (fun w => (createTransaction id now a w.shared.uuid w.shared.db).map (fun _ => ()))

def createJob (a : CreateJobArgs) : Code (Except SqlError CreateResult) := do
  match ← selectKey a.idempotencyKey with
  | some existing => do
    let job ← getJob existing
    pure (.ok ⟨job, false⟩)
  | none => do
    let id ← randomUUID
    let now ← dateNow
    match ← insertJobAndItems id now a with
    | .ok _ => do
      recordEvent id (.created a.items.length a.sourceType a.sourceId)
      let job ← getJob id
      pure (.ok ⟨job, true⟩)
    | .error err =>
      if err.isUnique then do
        match ← selectKey a.idempotencyKey with
        | some existing => do
          let job ← getJob existing
          pure (.ok ⟨job, false⟩)
        | none => pure (.error err)
      else pure (.error err)

def returned (a : CreateJobArgs) (result : Except SqlError CreateResult) (w : World) : World :=
  match result with
  | .ok r => { w with shared.trace := .createReturned w.mem.pid a r :: w.shared.trace }
  | .error _ => w

def callCreateJob (a : CreateJobArgs) : Code (Except SqlError CreateResult) := do
  let result ← createJob a
  exec (returned a result)
  pure result

def runningItem (now : Ms) (r : JobItem) : JobItem :=
  { r with status := .running, updatedAt := now }

/-- `started_at = COALESCE(started_at, ?)` -/
def startedJob (now : Ms) (j : Job) : Job :=
  { j with status := .running, startedAt := j.startedAt.or (some now), updatedAt := now }

def markItemRunning (itemId : Id) : Code Unit := do
  let now ← dateNow
  match ← selectItem itemId with
  | none => pure ()
  | some item => do
    let _ ← updateItems (fun r => decide (r.id = itemId)) (runningItem now)
    let changes ← updateJobs (fun j => decide (j.id = item.jobId ∧ j.status = .queued))
        (startedJob now)
    if changes > 0 then recordEvent item.jobId .started else pure ()

def attemptedItem (attemptNumber : Nat) (now : Ms) (r : JobItem) : JobItem :=
  { r with attemptCount := attemptNumber, updatedAt := now }

def insertAttempt (itemId : Id) (attemptNumber : Nat) (startedAt : Ms) : Code Unit :=
  exec (fun w =>
    { w with
      shared.db.attempts :=
        w.shared.db.attempts ++ [⟨itemId, attemptNumber, startedAt, none, none, none, none⟩] })

def recordAttemptStart (itemId : Id) (attemptNumber : Nat) : Code Unit := do
  let now ← dateNow
  insertAttempt itemId attemptNumber now
  let _ ← updateItemsRecord (fun r => decide (r.id = itemId)) (attemptedItem attemptNumber now)
    (fun w => .attempted w.mem.pid itemId)

def recordAttemptFinish (itemId : Id) (attemptNumber : Nat) (outcome : SendStatus)
    (category : Option Category) (detail : Option String) : Code Unit := do
  let now ← dateNow
  exec (fun w =>
    { w with
      shared.db.attempts := Atomic.Table.update
        (fun t => decide (t.jobItemId = itemId ∧ t.attemptNumber = attemptNumber))
        (fun t => { t with
          finishedAt := some now, outcome := some outcome, errorCategory := category,
          errorMessage := detail })
        w.shared.db.attempts })

def retriedItem (nextAttemptAt : Ms) (category : Category) (detail : Option String) (now : Ms)
    (r : JobItem) : JobItem :=
  { r with
    status := .queued, nextAttemptAt := nextAttemptAt, lastErrorCategory := some category,
    lastErrorMessage := detail, claimedBy := none, claimedAt := none, leaseExpiresAt := none,
    updatedAt := now }

def scheduleRetry (itemId : Id) (nextAttemptAt : Ms) (category : Category)
    (detail : Option String) : Code Unit := do
  let now ← dateNow
  let _ ← updateItemsRecord (fun r => decide (r.id = itemId))
    (retriedItem nextAttemptAt category detail now) (fun w => .recorded w.mem.pid itemId)

def terminalItem (status : ItemStatus) (category : Option Category)
    (detail : Option String) (now : Ms) (r : JobItem) : JobItem :=
  { r with
    status := status, lastErrorCategory := category, lastErrorMessage := detail,
    claimedBy := none, claimedAt := none, leaseExpiresAt := none, updatedAt := now }

def addCounter (status : ItemStatus) (now : Ms) (j : Job) : Job :=
  match status with
  | .succeeded => { j with succeeded := j.succeeded + 1, updatedAt := now }
  | .failed => { j with failed := j.failed + 1, updatedAt := now }
  | .skipped => { j with skipped := j.skipped + 1, updatedAt := now }
  | .cancelled => { j with cancelled := j.cancelled + 1, updatedAt := now }
  | _ => j

def markItemTerminal (itemId : Id) (status : ItemStatus) (category : Option Category)
    (detail : Option String) : Code Unit := do
  let now ← dateNow
  match ← selectItem itemId with
  | none => pure ()
  | some item => do
    let _ ← updateItemsRecord (fun r => decide (r.id = itemId))
        (terminalItem status category detail now)
      (fun w => .recorded w.mem.pid itemId)
    if status.terminal then do
      let _ ← updateJobs (fun j => decide (j.id = item.jobId)) (addCounter status now)
    else pure ()

/-- `SELECT status, COUNT(*) … GROUP BY status` for one job. -/
def selectCounts (jobId : Id) : Code (ItemStatus → Nat) :=
  query (fun w status => w.shared.db.items.countP
    (fun r => decide (r.jobId = jobId ∧ r.status = status)))

def finalStatus (succeeded total : Nat) : JobStatus :=
  if succeeded = total then .completed
  else if succeeded > 0 then .partiallyCompleted else .failed

def settledJob (status : JobStatus) (now : Ms) (j : Job) : Job :=
  { j with status := status, completedAt := some now, updatedAt := now }

/-- Returns the settled job if the job just became terminal. -/
def checkJobCompletion (jobId : Id) : Code (Option JobView) := do
  match ← selectJob jobId with
  | none => pure none
  | some job =>
    if job.status.terminal then pure none
    else do
      let byStatus ← selectCounts jobId
      let terminalCount := (terminalItemStatuses.map byStatus).sum
      if terminalCount < job.total then pure none
      else do
        let succeeded := byStatus .succeeded
        let status := finalStatus succeeded job.total
        let now ← dateNow
        let _ ← updateJobs (fun j => decide (j.id = jobId ∧ j.status ≠ .cancelled))
            (settledJob status now)
        recordEvent jobId (.completed status succeeded (byStatus .failed) (byStatus .skipped))
        getJob jobId

def cancelledItem (now : Ms) (r : JobItem) : JobItem :=
  { r with
    status := .cancelled, claimedBy := none, claimedAt := none, leaseExpiresAt := none,
    updatedAt := now }

def cancelJob (id : Id) (actor : Option String) : Code (Option JobView) := do
  let now ← dateNow
  let changes ← updateJobs (fun j => decide (j.id = id ∧ ¬ j.status.terminal))
      (settledJob .cancelled now)
  if changes > 0 then do
    let _ ← updateItemsRecord
        (fun r => decide (r.jobId = id ∧ r.status ∈ [.queued, .claimed, .running]))
      (cancelledItem now) (fun _ => .itemsCancelled id)
    recordEvent id (.cancelled actor)
    getJob id
  else getJob id

def movedJob (status : JobStatus) (now : Ms) (j : Job) : Job :=
  { j with status := status, updatedAt := now }

def pauseJob (id : Id) (actor : Option String) : Code (Option JobView) := do
  let now ← dateNow
  let changes ← updateJobs (fun j => decide (j.id = id ∧ j.status ∈ [.queued, .running]))
    (movedJob .paused now)
  if changes > 0 then recordEvent id (.paused actor) else pure ()
  getJob id

def resumeJob (id : Id) (actor : Option String) : Code (Option JobView) := do
  let now ← dateNow
  let changes ← updateJobs (fun j => decide (j.id = id ∧ j.status = .paused)) (movedJob .queued now)
  if changes > 0 then recordEvent id (.resumed actor) else pure ()
  getJob id

end WhatsappTester.Jobs.JobService
