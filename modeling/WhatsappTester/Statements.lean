import WhatsappTester.Process

namespace WhatsappTester.Statements

open Schema State Atomic.Program Jobs

def isWeb : Event → Bool
  | .outbound .. | .arrived .. | .sendStarted .. | .stored .. | .answered .. => true
  | _ => false

def isCreation : Event → Bool
  | .jobInserted .. | .createReturned .. => true
  | _ => false

/-- The events from which one can tell who holds which item. -/
def isCustody : Event → Bool
  | .claimed .. | .attempted .. | .sent .. | .recorded .. | .died .. | .itemsCancelled .. => true
  | _ => false

/-- The columns of an item that no statement changes. -/
structure ItemOrigin where
  id : Id
  jobId : Id
  seq : Nat
  recipientNumber : String
  recipientName : String
  message : String
  deriving DecidableEq

structure JobOrigin where
  id : Id
  total : Nat
  idempotencyKey : Option String
  sourceType : Option String
  sourceId : Option String
  deriving DecidableEq

def itemOrigin (r : JobItem) : ItemOrigin :=
  ⟨r.id, r.jobId, r.seq, r.recipientNumber, r.recipientName, r.message⟩

def jobOrigin (j : Job) : JobOrigin := ⟨j.id, j.total, j.idempotencyKey, j.sourceType, j.sourceId⟩

structure WebSide where
  settings : List Setting
  idempotencyKeys : List IdempotencyRow
  handlers : List Handler
  events : List Event

def webSide (w : World) : WebSide :=
  ⟨w.shared.db.settings, w.shared.db.idempotencyKeys, w.mem.handlers, w.shared.trace.filter isWeb⟩

/-- The part of a view that only the job system and the scheduler work on. -/
structure JobSide where
  jobs : List Job
  items : List JobItem
  attempts : List JobAttempt
  schedules : List Schedule
  breaker : Breaker.CircuitBreaker
  semaphore : Breaker.Semaphore
  draining : Bool
  inFlight : List Task
  events : List Event
  jobEvents : List JobEvent

def jobSide (w : World) : JobSide :=
  ⟨w.shared.db.jobs, w.shared.db.items, w.shared.db.attempts, w.shared.db.schedules, w.mem.breaker,
    w.mem.semaphore, w.mem.draining, w.mem.inFlight, w.shared.trace.filter (fun e => !isWeb e),
    w.shared.db.events⟩

structure Origins where
  items : List ItemOrigin
  jobs : List JobOrigin
  events : List Event

def originsOf (s : Shared) : Origins :=
  ⟨s.db.items.map itemOrigin, s.db.jobs.map jobOrigin, s.trace.filter isCreation⟩

def origins (w : World) : Origins := originsOf w.shared

structure Custody where
  items : List JobItem
  inFlight : List Task
  events : List Event

def custody (w : World) : Custody :=
  ⟨w.shared.db.items, w.mem.inFlight, w.shared.trace.filter isCustody⟩

/-- What no statement does: it does not turn the clock, take back an id, or
change the process it belongs to or the number of its slots. -/
structure Any (v v' : World) : Prop where
  now : v'.shared.now = v.shared.now
  pid : v'.mem.pid = v.mem.pid
  slots : v'.mem.semaphore.maxConcurrent = v.mem.semaphore.maxConcurrent
  uuid : v.shared.uuid ≤ v'.shared.uuid

structure Web (v v' : World) : Prop extends Any v v' where
  jobSide : jobSide v' = jobSide v

structure Back (v v' : World) : Prop extends Any v v' where
  webSide : webSide v' = webSide v

structure Write (v v' : World) : Prop extends Back v v' where
  origins : origins v' = origins v

/-- A statement of the job system that adds no job and leaves the items to those who hold them. -/
structure Itemless (v v' : World) : Prop extends Write v v' where
  custody : custody v' = custody v

/-- One that works on the tables at the side only. -/
structure Aside (v v' : World) : Prop extends Itemless v v' where
  mem : v'.mem = v.mem
  jobs : v'.shared.db.jobs = v.shared.db.jobs
  schedules : v'.shared.db.schedules = v.shared.db.schedules

def isCompletion (e : JobEvent) : Bool :=
  match e.kind with
  | .completed .. => true
  | _ => false

/-- One at the side that counts no attempt and reports no job as completed or settled. -/
structure Mute (v v' : World) : Prop extends Aside v v' where
  attempts : v'.shared.db.attempts = v.shared.db.attempts
  trace : v'.shared.trace = v.shared.trace
  completions : v'.shared.db.events.filter isCompletion = v.shared.db.events.filter isCompletion

/-- One that works on the breaker or the slots of the worker only. -/
structure Memo (v v' : World) : Prop extends Itemless v v' where
  shared : v'.shared = v.shared
  draining : v'.mem.draining = v.mem.draining

theorem any_refl (v : World) : Any v v := ⟨rfl, rfl, rfl, le_refl _⟩

theorem itemless_refl (v : World) : Itemless v v := ⟨⟨⟨any_refl v, rfl⟩, rfl⟩, rfl⟩

theorem aside_refl (v : World) : Aside v v := ⟨itemless_refl v, rfl, rfl, rfl⟩

theorem mute_refl (v : World) : Mute v v := ⟨aside_refl v, rfl, rfl, rfl⟩

theorem web_refl (v : World) : Web v v := ⟨any_refl v, rfl⟩

/-- What a finer choice takes of the history depends on what a coarser one takes. -/
theorem filter_of_coarser {p q : Event → Bool} (hpq : ∀ e, p e = true → q e = true)
    {t t' : List Event} (h : t'.filter q = t.filter q) : t'.filter p = t.filter p := by
  have hsplit : ∀ t : List Event, t.filter p = (t.filter q).filter p := by
    intro t
    rw [List.filter_filter]
    refine List.filter_congr (fun e _ => ?_)
    cases hpe : p e with
    | false => rfl
    | true => simp [hpq e hpe]
  rw [hsplit t', hsplit t, h]

/-- Events of one of the finer kinds are no events of the HTTP side. -/
theorem filter_of_notWeb {p : Event → Bool} (hp : ∀ e, p e = true → isWeb e = false)
    {t t' : List Event} (h : t'.filter (fun e => !isWeb e) = t.filter (fun e => !isWeb e)) :
    t'.filter p = t.filter p :=
  filter_of_coarser (fun e he => by rw [hp e he]; rfl) h

theorem filter_of_custody {p : Event → Bool} (hp : ∀ e, p e = true → isCustody e = true)
    {v v' : World} (h : custody v' = custody v) :
    v'.shared.trace.filter p = v.shared.trace.filter p :=
  filter_of_coarser hp (congrArg Custody.events h)

theorem web_custody {v v' : World} (h : Web v v') : custody v' = custody v := by
  have hitems : v'.shared.db.items = v.shared.db.items := congrArg JobSide.items h.jobSide
  have hflight : v'.mem.inFlight = v.mem.inFlight := congrArg JobSide.inFlight h.jobSide
  have hevents : v'.shared.trace.filter isCustody = v.shared.trace.filter isCustody :=
    filter_of_notWeb (by intro e he; cases e <;> first | rfl | cases he)
      (congrArg JobSide.events h.jobSide)
  simp only [custody, hitems, hflight, hevents]

theorem web_origins {v v' : World} (h : Web v v') : origins v' = origins v := by
  have hitems : v'.shared.db.items = v.shared.db.items := congrArg JobSide.items h.jobSide
  have hjobs : v'.shared.db.jobs = v.shared.db.jobs := congrArg JobSide.jobs h.jobSide
  have hevents : v'.shared.trace.filter isCreation = v.shared.trace.filter isCreation :=
    filter_of_notWeb (by intro e he; cases e <;> first | rfl | cases he)
      (congrArg JobSide.events h.jobSide)
  simp only [origins, originsOf, hitems, hjobs, hevents]

theorem write_of_aside {v v' : World} (h : Aside v v') : Write v v' := h.toItemless.toWrite

theorem write_of_memo {v v' : World} (h : Memo v v') : Write v v' := h.toItemless.toWrite

theorem itemless_of_aside {v v' : World} (h : Aside v v') : Itemless v v' := h.toItemless

theorem web_query {α : Type} (f : World → α) : Always Web (query f) := always_query f web_refl

theorem mute_randomUUID : Always Mute randomUUID :=
  always_update _ (fun _ =>
    ⟨⟨⟨⟨⟨⟨rfl, rfl, rfl, Nat.le_succ _⟩, rfl⟩, rfl⟩, rfl⟩, rfl, rfl, rfl⟩, rfl, rfl, rfl⟩)

theorem memo_updateMemory {f : Memory → Memory} (hpid : ∀ m, (f m).pid = m.pid)
    (hslots : ∀ m, (f m).semaphore.maxConcurrent = m.semaphore.maxConcurrent)
    (hhandlers : ∀ m, (f m).handlers = m.handlers) (hinFlight : ∀ m, (f m).inFlight = m.inFlight)
    (hdraining : ∀ m, (f m).draining = m.draining) : Always Memo (updateMemory f) := by
  refine always_exec (fun w => ⟨⟨⟨⟨⟨rfl, hpid w.mem, hslots w.mem, le_refl _⟩, ?_⟩, rfl⟩, ?_⟩, rfl,
    hdraining w.mem⟩)
  · simp only [webSide, hhandlers]
  · simp only [custody, hinFlight]

theorem itemless_updateJobs (p : Job → Bool) {f : Job → Job}
    (hf : ∀ j, jobOrigin (f j) = jobOrigin j) :
    Always Itemless (updateJobs p f) := by
  refine always_update _ (fun w => ⟨⟨⟨⟨rfl, rfl, rfl, le_refl _⟩, rfl⟩, ?_⟩, rfl⟩)
  simp only [origins, originsOf, Atomic.Table.map_update (fun j _ => hf j)]

theorem itemless_updateSchedules (p : Schedule → Bool) (f : Schedule → Schedule) :
    Always Itemless (updateSchedules p f) :=
  always_update _ (fun _ => ⟨⟨⟨⟨rfl, rfl, rfl, le_refl _⟩, rfl⟩, rfl⟩, rfl⟩)

theorem items_origin (p : JobItem → Bool) {f : JobItem → JobItem}
    (hf : ∀ r, itemOrigin (f r) = itemOrigin r) (rows : List JobItem) :
    (Atomic.Table.update p f rows).map itemOrigin = rows.map itemOrigin :=
  Atomic.Table.map_update (fun r _ => hf r) rows

theorem write_updateItems (p : JobItem → Bool) {f : JobItem → JobItem}
    (hf : ∀ r, itemOrigin (f r) = itemOrigin r) : Always Write (updateItems p f) := by
  refine always_update _ (fun w => ⟨⟨⟨rfl, rfl, rfl, le_refl _⟩, rfl⟩, ?_⟩)
  simp only [origins, originsOf, items_origin p hf]

theorem write_updateItemsRecord (p : JobItem → Bool) {f : JobItem → JobItem} {e : World → Event}
    (hf : ∀ r, itemOrigin (f r) = itemOrigin r) (hweb : ∀ w, isWeb (e w) = false)
    (hcreation : ∀ w, isCreation (e w) = false) : Always Write (updateItemsRecord p f e) := by
  refine always_update _ (fun w => ⟨⟨⟨rfl, rfl, rfl, le_refl _⟩, ?_⟩, ?_⟩)
  · simp [webSide, hweb]
  · simp [origins, originsOf, items_origin p hf, hcreation]

/-- A class of statements with all that keep to the side. -/
def Lenient (T : World → World → Prop) : Prop := ∀ v v', Aside v v' → T v v'

def Tolerant (T : World → World → Prop) : Prop := ∀ v v', Mute v v' → T v v'

theorem lenient_back : Lenient Back := fun _ _ h => (write_of_aside h).toBack

theorem lenient_write : Lenient Write := fun _ _ => write_of_aside

theorem lenient_itemless : Lenient Itemless := fun _ _ => itemless_of_aside

theorem Lenient.tolerant {T : World → World → Prop} (h : Lenient T) : Tolerant T :=
  fun v v' hm => h v v' hm.toAside

section JobService

open JobService

variable {T : World → World → Prop}

theorem always_read {α : Type} (hT : Tolerant T) (f : World → α) : Always T (query f) :=
  always_query f (fun v => hT v v (mute_refl v))

theorem always_recordEvent (hT : Lenient T) (jobId : Id) (kind : JobEventKind) :
    Always T (recordEvent jobId kind) := by
  refine always_bind (always_read hT.tolerant _) (fun ts => always_mono hT ?_)
  exact always_exec (fun _ => ⟨⟨⟨⟨⟨rfl, rfl, rfl, le_refl _⟩, rfl⟩, rfl⟩, rfl⟩, rfl, rfl, rfl⟩)

theorem tolerant_recordEvent (hT : Tolerant T) (jobId : Id) {kind : JobEventKind}
    (hkind : ∀ ts, isCompletion ⟨jobId, ts, kind⟩ = false) : Always T (recordEvent jobId kind) := by
  refine always_bind (always_read hT _) (fun ts => always_mono hT ?_)
  refine always_exec (fun _ =>
    ⟨⟨⟨⟨⟨⟨rfl, rfl, rfl, le_refl _⟩, rfl⟩, rfl⟩, rfl⟩, rfl, rfl, rfl⟩, rfl, rfl, ?_⟩)
  rw [List.filter_append, List.filter_singleton, hkind]
  exact List.append_nil _

theorem always_getJob (hT : Tolerant T) (id : Id) : Always T (getJob id) := by
  refine always_bind (always_read hT _) (fun job => ?_)
  cases job with
  | none => exact always_pure none
  | some job => exact always_bind (always_read hT _) (fun _ => always_pure _)

theorem always_selectKey (hT : Tolerant T) (key : Option String) : Always T (selectKey key) := by
  cases key with
  | none => exact always_pure none
  | some k =>
    simp only [selectKey]
    split
    · exact always_pure none
    · exact always_read hT _

theorem back_insertJobAndItems (id : Id) (now : Ms) (a : CreateJobArgs) :
    Always Back (insertJobAndItems id now a) := by
  refine always_update _ (fun w => ?_)
  have huuid : w.shared.uuid ≤ w.shared.uuid + a.items.length := Nat.le_add_right _ _
  cases htransaction : createTransaction id now a w.shared.uuid w.shared.db with
  | ok db =>
    obtain ⟨hdb, _⟩ := createTransaction_ok htransaction
    subst hdb
    exact ⟨⟨rfl, rfl, rfl, huuid⟩, rfl⟩
  | error err => exact ⟨⟨rfl, rfl, rfl, huuid⟩, rfl⟩

/-- All that `createJob` does besides its transaction is bookkeeping. -/
theorem always_createJob (hT : Tolerant T) (a : CreateJobArgs)
    (hinsert : ∀ id now, Always T (insertJobAndItems id now a)) : Always T (createJob a) := by
  have hselect : Always T (selectKey a.idempotencyKey) := always_selectKey hT _
  have hget : ∀ id, ∀ created, Always T (do
      let job ← getJob id
      pure (.ok ⟨job, created⟩ : Except SqlError CreateResult)) :=
    fun id created => always_bind (always_getJob hT id) (fun _ => always_pure _)
  refine always_bind hselect (fun existing => ?_)
  cases existing with
  | some existing => exact hget existing false
  | none =>
    refine always_bind (always_mono hT mute_randomUUID) (fun id => ?_)
    refine always_bind (always_read hT _) (fun now => ?_)
    refine always_bind (hinsert id now) (fun result => ?_)
    cases result with
    | ok u => exact always_bind (tolerant_recordEvent hT _ (fun _ => rfl)) (fun _ => hget id true)
    | error err =>
      simp only
      split
      · refine always_bind hselect (fun existing => ?_)
        cases existing with
        | some existing => exact hget existing false
        | none => exact always_pure _
      · exact always_pure _

theorem always_callCreateJob (hT : Tolerant T) (a : CreateJobArgs)
    (hinsert : ∀ id now, Always T (insertJobAndItems id now a))
    (hreturned : ∀ result v, T v (returned a result v)) : Always T (callCreateJob a) := by
  refine always_bind (always_createJob hT a hinsert) (fun result => ?_)
  exact always_bind (always_exec (hreturned result)) (fun _ => always_pure _)

theorem back_returned (a : CreateJobArgs) (result : Except SqlError CreateResult) (v : World) :
    Back v (returned a result v) := by
  cases result <;> exact ⟨⟨rfl, rfl, rfl, le_refl _⟩, rfl⟩

theorem back_callCreateJob (a : CreateJobArgs) : Always Back (callCreateJob a) :=
  always_callCreateJob lenient_back.tolerant a
    (fun id now => back_insertJobAndItems id now a) (back_returned a)

theorem always_markItemRunning (hT : Tolerant T) (itemId : Id)
    (hitem : ∀ now, Always T (updateItems (fun r => decide (r.id = itemId)) (runningItem now)))
    (hjob : ∀ id now, Always T
      (updateJobs (fun j => decide (j.id = id ∧ j.status = .queued)) (startedJob now))) :
    Always T (markItemRunning itemId) := by
  refine always_bind (always_read hT _) (fun now => ?_)
  refine always_bind (always_read hT _) (fun item => ?_)
  cases item with
  | none => exact always_pure ()
  | some item =>
    refine always_bind (hitem now) (fun _ => ?_)
    refine always_bind (hjob item.jobId now) (fun changes => ?_)
    split
    · exact tolerant_recordEvent hT _ (fun _ => rfl)
    · exact always_pure ()

theorem aside_insertAttempt (itemId : Id) (attemptNumber : Nat) (startedAt : Ms) :
    Always Aside (insertAttempt itemId attemptNumber startedAt) :=
  always_exec (fun _ => ⟨⟨⟨⟨⟨rfl, rfl, rfl, le_refl _⟩, rfl⟩, rfl⟩, rfl⟩, rfl, rfl, rfl⟩)

theorem tolerant_recordAttemptStart (hT : Tolerant T) (itemId : Id) (attemptNumber : Nat)
    (hinsert : ∀ now, Always T (insertAttempt itemId attemptNumber now))
    (hitem : ∀ now, Always T (updateItemsRecord (fun r => decide (r.id = itemId))
      (attemptedItem attemptNumber now) (fun w => .attempted w.mem.pid itemId))) :
    Always T (recordAttemptStart itemId attemptNumber) := by
  refine always_bind (always_read hT _) (fun now => ?_)
  refine always_bind (hinsert now) (fun _ => ?_)
  exact always_bind (hitem now) (fun _ => always_pure ())

theorem always_recordAttemptStart (hT : Lenient T) (itemId : Id) (attemptNumber : Nat)
    (hitem : ∀ now, Always T (updateItemsRecord (fun r => decide (r.id = itemId))
      (attemptedItem attemptNumber now) (fun w => .attempted w.mem.pid itemId))) :
    Always T (recordAttemptStart itemId attemptNumber) :=
  tolerant_recordAttemptStart hT.tolerant itemId attemptNumber
    (fun _ => always_mono hT (aside_insertAttempt _ _ _)) hitem

theorem always_recordAttemptFinish (hT : Lenient T) (itemId : Id) (attemptNumber : Nat)
    (outcome : SendStatus) (category : Option Category) (detail : Option String) :
    Always T (recordAttemptFinish itemId attemptNumber outcome category detail) := by
  refine always_bind (always_read hT.tolerant _) (fun now => always_mono hT ?_)
  exact always_exec (fun _ => ⟨⟨⟨⟨⟨rfl, rfl, rfl, le_refl _⟩, rfl⟩, rfl⟩, rfl⟩, rfl, rfl, rfl⟩)

theorem always_scheduleRetry (hT : Tolerant T) (itemId : Id) (nextAttemptAt : Ms)
    (category : Category) (detail : Option String)
    (hitem : ∀ now, Always T (updateItemsRecord (fun r => decide (r.id = itemId))
      (retriedItem nextAttemptAt category detail now) (fun w => .recorded w.mem.pid itemId))) :
    Always T (scheduleRetry itemId nextAttemptAt category detail) :=
  always_bind (always_read hT _) (fun now => always_bind (hitem now) (fun _ => always_pure ()))

theorem always_markItemTerminal (hT : Tolerant T) (itemId : Id) {status : ItemStatus}
    {category : Option Category} {detail : Option String}
    (hitem : ∀ now, Always T (updateItemsRecord (fun r => decide (r.id = itemId))
      (terminalItem status category detail now) (fun w => .recorded w.mem.pid itemId)))
    (hjob : ∀ id now, Always T (updateJobs (fun j => decide (j.id = id)) (addCounter status now))) :
    Always T (markItemTerminal itemId status category detail) := by
  refine always_bind (always_read hT _) (fun now => ?_)
  refine always_bind (always_read hT _) (fun item => ?_)
  cases item with
  | none => exact always_pure ()
  | some item =>
    refine always_bind (hitem now) (fun changes => ?_)
    split
    · exact always_bind (hjob item.jobId now) (fun _ => always_pure ())
    · exact always_pure ()

theorem finalStatus_terminal (succeeded total : Nat) :
    (finalStatus succeeded total).terminal = true := by
  simp only [finalStatus]
  split
  · rfl
  · split <;> rfl

theorem tolerant_checkJobCompletion (hT : Tolerant T) (jobId : Id)
    (hjob : ∀ status now, status.terminal = true → Always T
      (updateJobs (fun j => decide (j.id = jobId ∧ j.status ≠ .cancelled)) (settledJob status now)))
    (hevent : ∀ kind, Always T (recordEvent jobId kind)) : Always T (checkJobCompletion jobId) := by
  refine always_bind (always_read hT _) (fun job => ?_)
  cases job with
  | none => exact always_pure none
  | some job =>
    simp only
    split
    · exact always_pure none
    · refine always_bind (always_read hT _) (fun byStatus => ?_)
      split
      · exact always_pure none
      · refine always_bind (always_read hT _) (fun now => ?_)
        refine always_bind (hjob _ now (finalStatus_terminal _ _)) (fun _ => ?_)
        exact always_bind (hevent _) (fun _ => always_getJob hT jobId)

theorem always_checkJobCompletion (hT : Lenient T) (jobId : Id)
    (hjob : ∀ status now, status.terminal = true → Always T
      (updateJobs (fun j => decide (j.id = jobId ∧ j.status ≠ .cancelled))
        (settledJob status now))) :
    Always T (checkJobCompletion jobId) :=
  tolerant_checkJobCompletion hT.tolerant jobId hjob (fun _ => always_recordEvent hT _ _)

theorem always_cancelJob (hT : Tolerant T) (id : Id) (actor : Option String)
    (hjob : ∀ now, Always T
      (updateJobs (fun j => decide (j.id = id ∧ ¬ j.status.terminal)) (settledJob .cancelled now)))
    (hitems : ∀ now, Always T (updateItemsRecord
      (fun r => decide (r.jobId = id ∧ r.status ∈ [.queued, .claimed, .running]))
      (cancelledItem now)
      (fun _ => .itemsCancelled id))) : Always T (cancelJob id actor) := by
  refine always_bind (always_read hT _) (fun now => ?_)
  refine always_bind (hjob now) (fun changes => ?_)
  split
  · refine always_bind (hitems now) (fun _ => ?_)
    exact always_bind (tolerant_recordEvent hT _ (fun _ => rfl)) (fun _ => always_getJob hT id)
  · exact always_getJob hT id

/-- `pauseJob` and `resumeJob`: a guarded change of status, noted when it took place. -/
theorem always_changeStatus (hT : Tolerant T) (id : Id) (p : Job → Bool) (f : Ms → Job → Job)
    {kind : JobEventKind} (hkind : ∀ ts, isCompletion ⟨id, ts, kind⟩ = false)
    (hjob : ∀ now, Always T (updateJobs p (f now))) :
    Always T (do
      let now ← dateNow
      let changes ← updateJobs p (f now)
      if changes > 0 then recordEvent id kind else pure ()
      getJob id) := by
  refine always_bind (always_read hT _) (fun now => ?_)
  refine always_bind (hjob now) (fun changes => ?_)
  simp only
  split
  · exact always_bind (tolerant_recordEvent hT _ hkind) (fun _ => always_getJob hT id)
  · exact always_getJob hT id

theorem itemless_changeStatus (id : Id) (p : Job → Bool) (status : JobStatus) {kind : JobEventKind}
    (hkind : ∀ ts, isCompletion ⟨id, ts, kind⟩ = false) :
    Always Itemless (do
      let now ← dateNow
      let changes ← updateJobs p (movedJob status now)
      if changes > 0 then recordEvent id kind else pure ()
      getJob id) :=
  always_changeStatus lenient_itemless.tolerant id p _ hkind
    (fun _ => itemless_updateJobs p (fun _ => rfl))

theorem itemless_pauseJob (id : Id) (actor : Option String) : Always Itemless (pauseJob id actor) :=
  itemless_changeStatus id _ .paused (fun _ => rfl)

theorem itemless_resumeJob (id : Id) (actor : Option String) :
    Always Itemless (resumeJob id actor) :=
  itemless_changeStatus id _ .queued (fun _ => rfl)

theorem itemless_checkJobCompletion (jobId : Id) : Always Itemless (checkJobCompletion jobId) :=
  always_checkJobCompletion lenient_itemless jobId
    (fun _ _ _ => itemless_updateJobs _ (fun _ => rfl))

theorem addCounter_origin (status : ItemStatus) (now : Ms) (j : Job) :
    jobOrigin (addCounter status now j) = jobOrigin j := by
  cases status <;> rfl

theorem write_updateJobs (p : Job → Bool) {f : Job → Job}
    (hf : ∀ j, jobOrigin (f j) = jobOrigin j) :
    Always Write (updateJobs p f) := always_mono (fun _ _ h => h.toWrite) (itemless_updateJobs p hf)

theorem write_markItemRunning (itemId : Id) : Always Write (markItemRunning itemId) :=
  always_markItemRunning lenient_write.tolerant itemId (fun _ => write_updateItems _ (fun _ => rfl))
    (fun _ _ => write_updateJobs _ (fun _ => rfl))

theorem write_recordAttemptStart (itemId : Id) (attemptNumber : Nat) :
    Always Write (recordAttemptStart itemId attemptNumber) :=
  always_recordAttemptStart lenient_write itemId attemptNumber
    (fun _ => write_updateItemsRecord _ (fun _ => rfl) (fun _ => rfl) (fun _ => rfl))

theorem write_markItemTerminal (itemId : Id) (status : ItemStatus) (category : Option Category)
    (detail : Option String) : Always Write (markItemTerminal itemId status category detail) :=
  always_markItemTerminal lenient_write.tolerant itemId
    (fun _ => write_updateItemsRecord _ (fun _ => rfl) (fun _ => rfl) (fun _ => rfl))
    (fun _ now => write_updateJobs _ (addCounter_origin status now))

theorem write_cancelJob (id : Id) (actor : Option String) : Always Write (cancelJob id actor) :=
  always_cancelJob lenient_write.tolerant id actor (fun _ => write_updateJobs _ (fun _ => rfl))
    (fun _ => write_updateItemsRecord _ (fun _ => rfl) (fun _ => rfl) (fun _ => rfl))

end JobService

section Claiming

open Claiming

variable {T : World → World → Prop}

theorem always_claimNextItem (hT : Tolerant T) (hclaim : ∀ now, Always T (claimTransaction now)) :
    Always T claimNextItem := by
  refine always_bind (always_read hT _) (fun now => ?_)
  refine always_bind (hclaim now) (fun claim => ?_)
  obtain _ | ⟨id, changes⟩ := claim
  · exact always_pure none
  · simp only
    split
    · exact always_pure none
    · exact always_read hT _

theorem write_claimTransaction (now : Ms) : Always Write (claimTransaction now) := by
  refine always_update _ (fun w => ?_)
  cases nextClaimable w.shared.db now with
  | none => exact (itemless_refl w).toWrite
  | some row =>
    refine ⟨⟨⟨rfl, rfl, rfl, le_refl _⟩, rfl⟩, ?_⟩
    simp only [origins, originsOf, claimRow]
    rw [items_origin]
    · rfl
    · exact fun _ => rfl

theorem always_recoverStaleClaims (hT : Tolerant T)
    (hitems : ∀ now, Always T (updateItems (stale now) (recoveredItem now))) :
    Always T recoverStaleClaims :=
  always_bind (always_read hT _) (fun now => hitems now)

theorem write_recoverStaleClaims : Always Write recoverStaleClaims :=
  always_recoverStaleClaims lenient_write.tolerant (fun _ => write_updateItems _ (fun _ => rfl))

end Claiming

section Scheduler

open Scheduler

variable {T : World → World → Prop}

theorem always_create (hT : Tolerant T) (input : CreateInput)
    (hinsert : ∀ id now args, Always T (exec (fun w : World =>
      { w with shared.db.schedules := w.shared.db.schedules ++ [newSchedule id now args] }))) :
    Always T (create input) := by
  simp only [create]
  cases normalize input with
  | error err => exact always_pure ()
  | ok args =>
    refine always_bind (always_mono hT mute_randomUUID) (fun id => ?_)
    exact always_bind (always_read hT _) (fun now => hinsert id now args)

theorem itemless_create (input : CreateInput) : Always Itemless (create input) :=
  always_create lenient_itemless.tolerant input
    (fun _ _ _ => always_exec (fun _ => ⟨⟨⟨⟨rfl, rfl, rfl, le_refl _⟩, rfl⟩, rfl⟩, rfl⟩))

theorem itemless_remove (id : String) : Always Itemless (remove id) :=
  always_exec (fun _ => ⟨⟨⟨⟨rfl, rfl, rfl, le_refl _⟩, rfl⟩, rfl⟩, rfl⟩)

theorem always_runTickIfReady (hT : Tolerant T)
    (hcreate : ∀ a, Always T (JobService.callCreateJob a))
    (hsending : ∀ p f, Always T (updateSchedules p f)) (ready : Bool) :
    Always T (runTickIfReady ready) := by
  have hfire : ∀ row, Always T (fireDue row) := by
    intro row
    refine always_bind (hcreate _) (fun result => ?_)
    cases result with
    | error err => exact always_pure ()
    | ok result =>
      refine always_bind (always_read hT _) (fun now => ?_)
      exact always_bind (hsending _ _) (fun _ => always_pure ())
  simp only [runTickIfReady]
  split
  · exact always_pure ()
  · refine always_bind (always_read hT _) (fun now => ?_)
    refine always_bind (always_read hT _) (fun rows => ?_)
    exact always_each hfire rows

theorem back_runTickIfReady (ready : Bool) : Always Back (runTickIfReady ready) :=
  always_runTickIfReady lenient_back.tolerant back_callCreateJob
    (fun p f => always_mono (fun _ _ h => h.toBack) (itemless_updateSchedules p f)) ready

theorem aside_settled (id : Id) : Always Aside (record (fun w => .settled w.mem.pid id)) :=
  always_exec (fun _ => ⟨⟨⟨⟨⟨rfl, rfl, rfl, le_refl _⟩, rfl⟩, rfl⟩, rfl⟩, rfl, rfl, rfl⟩)

theorem tolerant_onJobSettled (hT : Tolerant T) (view : JobView)
    (hrecord : Always T (record (fun w => .settled w.mem.pid view.job.id)))
    (hupdate : ∀ p f,
      (∀ s : Schedule, (f s).id = s.id ∧ (f s).recipients = s.recipients ∧
        (f s).message = s.message) →
      Always T (updateSchedules p f)) : Always T (onJobSettled view) := by
  refine always_bind hrecord (fun _ => ?_)
  split
  · refine always_bind (always_read hT _) (fun row => ?_)
    cases row with
    | none => exact always_pure ()
    | some row =>
      refine always_bind (always_read hT _) (fun now => ?_)
      exact always_bind (hupdate _ _ (fun _ => ⟨rfl, rfl, rfl⟩)) (fun _ => always_pure ())
  · exact always_pure ()

theorem always_onJobSettled (hT : Lenient T) (view : JobView)
    (hupdate : ∀ p f, Always T (updateSchedules p f)) : Always T (onJobSettled view) :=
  tolerant_onJobSettled hT.tolerant view (always_mono hT (aside_settled _))
    (fun p f _ => hupdate p f)

end Scheduler

section Worker

open Worker

variable {T : World → World → Prop}

theorem memo_tryAcquire : Always Memo tryAcquire := by
  refine always_update _ (fun w => ⟨⟨⟨⟨⟨rfl, rfl, ?_, le_refl _⟩, rfl⟩, rfl⟩, rfl⟩, rfl, rfl⟩)
  simp only [Breaker.tryAcquire]
  split <;> rfl

theorem memo_release : Always Memo release :=
  memo_updateMemory (fun _ => rfl) (fun _ => rfl) (fun _ => rfl) (fun _ => rfl) (fun _ => rfl)

theorem memo_canAttempt : Always Memo canAttempt :=
  always_update _ (fun _ => ⟨⟨⟨⟨⟨rfl, rfl, rfl, le_refl _⟩, rfl⟩, rfl⟩, rfl⟩, rfl, rfl⟩)

theorem memo_recordSuccess : Always Memo recordSuccess :=
  memo_updateMemory (fun _ => rfl) (fun _ => rfl) (fun _ => rfl) (fun _ => rfl) (fun _ => rfl)

theorem memo_recordFailure (category : Category) : Always Memo (recordFailure category) :=
  always_exec (fun _ => ⟨⟨⟨⟨⟨rfl, rfl, rfl, le_refl _⟩, rfl⟩, rfl⟩, rfl⟩, rfl, rfl⟩)

theorem itemless_drainAndStop : Always Itemless drainAndStop :=
  always_exec (fun _ => ⟨⟨⟨⟨rfl, rfl, rfl, le_refl _⟩, rfl⟩, rfl⟩, rfl⟩)

theorem always_processItem (item : JobItem)
    (hrunning : Always T (JobService.markItemRunning item.id))
    (hattempt : ∀ n, Always T (JobService.recordAttemptStart item.id n))
    (hsend : ∀ n, Always T (startSend item n)) : Always T (processItem item) := by
  refine always_bind hrunning (fun _ => ?_)
  exact always_bind (hattempt _) (fun _ => hsend _)

theorem always_tickLoop (hmemo : ∀ v v', Memo v v' → T v v')
    (hclaim : Always T Claiming.claimNextItem) (hprocess : ∀ item, Always T (processItem item))
    (rounds : Nat) : Always T (tickLoop rounds) := by
  induction rounds with
  | zero => exact always_pure ()
  | succ rounds ih =>
    refine always_bind (always_mono hmemo memo_tryAcquire) (fun acquired => ?_)
    split
    · refine always_bind (always_mono hmemo memo_canAttempt) (fun granted => ?_)
      split
      · refine always_bind hclaim (fun item => ?_)
        cases item with
        | none => exact always_mono hmemo memo_release
        | some item => exact always_bind (hprocess item) (fun _ => ih)
      · exact always_mono hmemo memo_release
    · exact always_pure ()

theorem always_tick (hT : Tolerant T) (hloop : ∀ rounds, Always T (tickLoop rounds)) :
    Always T tick := by
  refine always_bind (always_read hT _) (fun draining => ?_)
  split
  · exact always_pure ()
  · refine always_bind (always_read hT _) (fun disabled => ?_)
    split
    · exact always_pure ()
    · exact always_bind (always_read hT _) (fun free => hloop _)

/-- What every round of the loop keeps, wherever it stops, a tick keeps. -/
theorem wp_tick {R G : World → World → Prop} {P : World → Prop}
    (hread : ∀ {α : Type} (f : World → α) (v : World), P v → Wp R G (query f) (fun _ => P) v)
    (hmemo : ∀ {α : Type} {p : Code α}, Always Memo p → ∀ v, P v → Wp R G p (fun _ => P) v)
    (hround : ∀ v, P v → Wp R G Claiming.claimNextItem (fun item v => match item with
      | none => P v
      | some item => Wp R G (processItem item) (fun _ => P) v) v) {v : World} (h : P v) :
    Wp R G tick (fun _ => P) v := by
  have hloop : ∀ rounds v, P v → Wp R G (tickLoop rounds) (fun _ => P) v := by
    intro rounds
    induction rounds with
    | zero => exact fun _ h => h
    | succ rounds ih =>
      intro v h
      refine wp_seq (hmemo memo_tryAcquire v h) (fun acquired v h => ?_)
      split
      · refine wp_seq (hmemo memo_canAttempt v h) (fun granted v h => ?_)
        split
        · refine wp_seq (hround v h) (fun item v h => ?_)
          cases item with
          | none => exact hmemo memo_release v h
          | some item => exact wp_seq h (fun _ v h => ih v h)
        · exact hmemo memo_release v h
      · exact h
  refine wp_seq (hread _ v h) (fun draining v h => ?_)
  split
  · exact h
  · refine wp_seq (hread _ v h) (fun disabled v h => ?_)
    split
    · exact h
    · exact wp_seq (hread _ v h) (fun free v h => hloop _ v h)

theorem write_tick : Always Write tick := by
  refine always_tick lenient_write.tolerant (always_tickLoop (fun _ _ => write_of_memo)
    (always_claimNextItem lenient_write.tolerant write_claimTransaction) (fun item => ?_))
  exact always_processItem item (write_markItemRunning _) (fun n => write_recordAttemptStart _ n)
    (fun n => always_exec (fun _ => ⟨⟨⟨rfl, rfl, rfl, le_refl _⟩, rfl⟩, rfl⟩))

theorem failureStatus_terminal (category : Category) :
    (failureStatus category).terminal = true := by
  simp only [failureStatus]
  split <;> rfl

theorem tolerant_recordOutcome (hT : Tolerant T) (hmemo : ∀ v v', Memo v v' → T v v') (task : Task)
    (outcome : SendOutcome) (random : Nat)
    (hfinish : ∀ status category detail,
      Always T (JobService.recordAttemptFinish task.item.id task.attemptNumber status
        category detail))
    (hretry : ∀ nextAttemptAt category detail,
      Always T (JobService.scheduleRetry task.item.id nextAttemptAt category detail))
    (hterminal : ∀ status category detail, status.terminal = true →
      Always T (JobService.markItemTerminal task.item.id status category detail)) :
    Always T (recordOutcome task outcome random) := by
  simp only [recordOutcome]
  generalize classify outcome = result
  obtain ⟨status, category, detail⟩ := result
  refine always_bind (hfinish _ _ _) (fun _ => ?_)
  cases category with
  | none =>
    refine always_bind (always_mono hmemo memo_recordSuccess) (fun _ => ?_)
    exact hterminal _ _ _ rfl
  | some category =>
    refine always_bind (always_mono hmemo (memo_recordFailure _)) (fun _ => ?_)
    split
    · exact always_bind (always_read hT _) (fun now => hretry _ _ _)
    · exact hterminal _ _ _ (failureStatus_terminal category)

theorem always_recordOutcome (hT : Lenient T) (hmemo : ∀ v v', Memo v v' → T v v') (task : Task)
    (outcome : SendOutcome) (random : Nat)
    (hretry : ∀ nextAttemptAt category detail,
      Always T (JobService.scheduleRetry task.item.id nextAttemptAt category detail))
    (hterminal : ∀ status category detail, status.terminal = true →
      Always T (JobService.markItemTerminal task.item.id status category detail)) :
    Always T (recordOutcome task outcome random) :=
  tolerant_recordOutcome hT.tolerant hmemo task outcome random
    (fun _ _ _ => always_recordAttemptFinish hT _ _ _ _ _) hretry hterminal

theorem write_recordOutcome (task : Task) (outcome : SendOutcome) (random : Nat) :
    Always Write (recordOutcome task outcome random) := by
  refine always_recordOutcome lenient_write (fun _ _ => write_of_memo) task outcome random ?_ ?_
  · exact fun _ _ _ => always_scheduleRetry lenient_write.tolerant _ _ _ _
      (fun _ => write_updateItemsRecord _ (fun _ => rfl) (fun _ => rfl) (fun _ => rfl))
  · exact fun _ _ _ _ => write_markItemTerminal _ _ _ _

theorem always_settle (jobId : Id) (hcheck : Always T (JobService.checkJobCompletion jobId))
    (hsettled : ∀ view, Always T (Scheduler.onJobSettled view)) : Always T (settle jobId) := by
  refine always_bind hcheck (fun job => ?_)
  cases job with
  | none => exact always_pure ()
  | some job => exact hsettled job

theorem itemless_settle (jobId : Id) : Always Itemless (settle jobId) :=
  always_settle jobId (itemless_checkJobCompletion jobId)
    (fun view => always_onJobSettled lenient_itemless view itemless_updateSchedules)

theorem write_finish (itemId : Id) : Always Write (finish itemId) :=
  always_exec (fun _ => ⟨⟨⟨rfl, rfl, rfl, le_refl _⟩, rfl⟩, rfl⟩)

theorem write_complete (itemId : Id) (outcome : SendOutcome) (random : Nat) :
    Always Write (complete itemId outcome random) := by
  refine always_bind (always_read lenient_write.tolerant _) (fun task => ?_)
  cases task with
  | none => exact always_pure ()
  | some task =>
    refine always_bind (write_recordOutcome task outcome random) (fun _ => ?_)
    refine always_bind (always_mono (fun _ _ h => h.toWrite) (itemless_settle _)) (fun _ => ?_)
    exact write_finish itemId

end Worker

section Routes

open KillSwitch Routes

theorem web_updateMemory {f : Memory → Memory} (hpid : ∀ m, (f m).pid = m.pid)
    (hmem : ∀ m, (f m).breaker = m.breaker ∧ (f m).semaphore = m.semaphore ∧
      (f m).draining = m.draining ∧ (f m).inFlight = m.inFlight) : Always Web (updateMemory f) := by
  refine always_exec (fun w => ?_)
  obtain ⟨hbreaker, hsemaphore, hdraining, hinFlight⟩ := hmem w.mem
  refine ⟨⟨rfl, hpid w.mem, congrArg (·.maxConcurrent) hsemaphore, le_refl _⟩, ?_⟩
  simp only [jobSide, hbreaker, hsemaphore, hdraining, hinFlight]

theorem web_record (e : World → Event) (he : ∀ w, isWeb (e w)) : Always Web (record e) := by
  refine always_exec (fun w => ⟨⟨rfl, rfl, rfl, le_refl _⟩, ?_⟩)
  simp [jobSide, he]

theorem web_randomUUID : Always Web randomUUID :=
  always_update _ (fun _ => ⟨⟨rfl, rfl, rfl, Nat.le_succ _⟩, rfl⟩)

theorem web_recordAudit (row : Ms → AuditRow) : Always Web (recordAudit row) :=
  always_bind (web_query _) (fun _ => always_exec (fun _ => ⟨⟨rfl, rfl, rfl, le_refl _⟩, rfl⟩))

theorem web_setOutboundDisabled (disabled : Bool) (actor reason : Option String)
    (requestId : Option Id) :
    Always Web (setOutboundDisabled disabled actor reason requestId) := by
  refine always_bind (web_query _) (fun now => ?_)
  refine always_bind (always_exec (fun w => ?_)) (fun _ => ?_)
  · cases disabled <;> exact ⟨⟨rfl, rfl, rfl, le_refl _⟩, rfl⟩
  refine always_bind (always_exec (fun w => ⟨⟨rfl, rfl, rfl, le_refl _⟩, rfl⟩)) (fun _ => ?_)
  refine always_bind (web_recordAudit _) (fun _ => ?_)
  split
  · exact web_record _ (fun _ => rfl)
  · exact always_pure ()

theorem web_storeResponse (request : Id) (key : String) (arrivedAt : Ms) (route : SendRoute)
    (response : Response) : Always Web (storeResponse request key arrivedAt route response) := by
  refine always_exec (fun w => ?_)
  split
  · exact web_refl w
  · exact ⟨⟨rfl, rfl, rfl, le_refl _⟩, rfl⟩

theorem web_respond (h : Handler) (status : Nat) (response : Response) :
    Always Web (respond h status response) := by
  have hanswer : Always Web (do
      record (fun _ => .answered h.request status)
      updateMemory (fun m =>
        { m with handlers := m.handlers.filter (fun x => decide (x.request ≠ h.request)) })) :=
    always_bind (web_record _ (fun _ => rfl))
      (fun _ => web_updateMemory (fun _ => rfl) (fun _ => ⟨rfl, rfl, rfl, rfl⟩))
  simp only [respond]
  split
  · split
    · exact always_bind (web_storeResponse _ _ _ _ _) (fun _ => hanswer)
    · exact hanswer
  · exact hanswer

theorem web_succeed (h : Handler) : Always Web (succeed h) :=
  always_bind (web_recordAudit _) (fun _ => web_respond _ _ _)

theorem web_startRecipient (h : Handler) (recipient label message : String) :
    Always Web (startRecipient h recipient label message) :=
  always_exec (fun _ => ⟨⟨rfl, rfl, rfl, le_refl _⟩, rfl⟩)

theorem web_proceed (ready : Bool) (h : Handler) (todo : List Todo) :
    Always Web (proceed ready h todo) := by
  induction todo generalizing h with
  | nil => exact web_succeed _
  | cons next rest ih =>
    cases next with
    | skip result => exact ih _
    | send recipient label message =>
      simp only [proceed]
      split
      · exact web_respond _ _ _
      · exact web_startRecipient _ _ _ _

theorem web_validateAndHandle (ready : Bool) (r : Request) (h : Handler) :
    Always Web (validateAndHandle ready r h) := by
  simp only [validateAndHandle, handle]
  split
  · split
    · exact web_respond _ _ _
    · exact web_proceed _ _ _
  · exact web_respond _ _ _

theorem web_idempotent (ready : Bool) (r : Request) (id : Id) :
    Always Web (idempotent ready r id) := by
  simp only [idempotent]
  split
  · refine always_bind (web_query _) (fun now => ?_)
    refine always_bind (web_record _ (fun _ => rfl)) (fun _ => ?_)
    refine always_bind (web_query _) (fun cached => ?_)
    cases cached with
    | some row => exact web_record _ (fun _ => rfl)
    | none => exact web_validateAndHandle _ _ _
  · exact web_validateAndHandle _ _ _

theorem web_request (r : Request) (ready : Bool) : Always Web (request r ready) := by
  refine always_bind web_randomUUID (fun id => always_bind (web_query _) (fun disabled => ?_))
  split
  · exact web_record _ (fun _ => rfl)
  · exact web_idempotent _ _ _

theorem web_save (h : Handler) : Always Web (save h) :=
  web_updateMemory (fun _ => rfl) (fun _ => ⟨rfl, rfl, rfl, rfl⟩)

theorem web_chatAnswered (h : Handler) (chatId : String) (answer : Answer) :
    Always Web (chatAnswered h chatId answer) := by
  cases answer with
  | result status detail => exact always_bind (web_recordAudit _) (fun _ => web_respond _ _ _)
  | threw err =>
    simp only [chatAnswered]
    split
    · exact web_respond _ _ _
    · exact always_bind (web_recordAudit _) (fun _ => web_respond _ _ _)

theorem web_answered (id : Id) (answer : Answer) (ready : Bool) :
    Always Web (answered id answer ready) := by
  refine always_bind (web_query _) (fun h => ?_)
  cases h with
  | none => exact always_pure ()
  | some h =>
    simp only
    split
    · exact always_pure ()
    · split
      · exact web_chatAnswered _ _ _
      · split
        · exact web_save _
        · exact web_proceed _ _ _

theorem web_delayOver (id : Id) (ready : Bool) : Always Web (delayOver id ready) := by
  refine always_bind (web_query _) (fun h => ?_)
  cases h with
  | none => exact always_pure ()
  | some h =>
    simp only
    split
    · exact web_proceed _ _ _
    · exact always_pure ()

theorem web_sweepExpiredIdempotencyKeys : Always Web sweepExpiredIdempotencyKeys :=
  always_bind (web_query _) (fun _ => always_exec (fun _ => ⟨⟨rfl, rfl, rfl, le_refl _⟩, rfl⟩))

end Routes

/-- A call belongs to the HTTP side or to the job system, where only two calls create jobs. -/
theorem call_kinds (c : Process.Call) : Always Web c.code ∨ Always Write c.code ∨
    (∃ args, c = .createJob args) ∨ ∃ ready, c = .runTickIfReady ready := by
  have hwrite : ∀ {p : Code Unit}, Always Itemless p → Always Write p :=
    fun h => always_mono (fun _ _ h => h.toWrite) h
  cases c with
  | tick => exact Or.inr (Or.inl write_tick)
  | complete itemId outcome random => exact Or.inr (Or.inl (write_complete _ _ _))
  | createJob args => exact Or.inr (Or.inr (Or.inl ⟨args, rfl⟩))
  | cancelJob id actor =>
    exact Or.inr (Or.inl (always_bind (write_cancelJob id actor) (fun _ => always_pure ())))
  | pauseJob id actor =>
    exact Or.inr
      (Or.inl (hwrite (always_bind (itemless_pauseJob id actor) (fun _ => always_pure ()))))
  | resumeJob id actor =>
    exact Or.inr
      (Or.inl (hwrite (always_bind (itemless_resumeJob id actor) (fun _ => always_pure ()))))
  | createSchedule input => exact Or.inr (Or.inl (hwrite (itemless_create input)))
  | removeSchedule id => exact Or.inr (Or.inl (hwrite (itemless_remove id)))
  | runTickIfReady ready => exact Or.inr (Or.inr (Or.inr ⟨ready, rfl⟩))
  | setOutboundDisabled disabled actor reason => exact Or.inl (web_setOutboundDisabled _ _ _ _)
  | drainAndStop => exact Or.inr (Or.inl (hwrite itemless_drainAndStop))
  | request r ready => exact Or.inl (web_request r ready)
  | answered id answer ready => exact Or.inl (web_answered id answer ready)
  | delayOver id ready => exact Or.inl (web_delayOver id ready)
  | sweepExpiredIdempotencyKeys => exact Or.inl web_sweepExpiredIdempotencyKeys

theorem web_or_back (c : Process.Call) : Always Web c.code ∨ Always Back c.code := by
  obtain hweb | hwrite | ⟨args, rfl⟩ | ⟨ready, rfl⟩ := call_kinds c
  · exact Or.inl hweb
  · exact Or.inr (always_mono (fun _ _ h => h.toBack) hwrite)
  · exact Or.inr (always_bind (back_callCreateJob args) (fun _ => always_pure ()))
  · exact Or.inr (back_runTickIfReady ready)

theorem any_call (c : Process.Call) : Always Any c.code := by
  obtain hweb | hback := web_or_back c
  · exact always_mono (fun _ _ h => h.toAny) hweb
  · exact always_mono (fun _ _ h => h.toAny) hback

theorem any_trans {u v w : World} (h : Any u v) (h' : Any v w) : Any u w :=
  ⟨h'.now.trans h.now, h'.pid.trans h.pid, h'.slots.trans h.slots, le_trans h.uuid h'.uuid⟩

theorem web_trans {u v w : World} (h : Web u v) (h' : Web v w) : Web u w :=
  ⟨any_trans h.toAny h'.toAny, h'.jobSide.trans h.jobSide⟩

theorem write_trans {u v w : World} (h : Write u v) (h' : Write v w) : Write u w :=
  ⟨⟨any_trans h.toAny h'.toAny, h'.webSide.trans h.webSide⟩, h'.origins.trans h.origins⟩

theorem aside_trans {u v w : World} (h : Aside u v) (h' : Aside v w) : Aside u w :=
  ⟨⟨write_trans h.toWrite h'.toWrite, h'.custody.trans h.custody⟩, h'.mem.trans h.mem,
    h'.jobs.trans h.jobs, h'.schedules.trans h.schedules⟩

/-- A process that has just been started recovers, and that is all that it does. -/
theorem boot_respects {T : World → World → Prop} (hrefl : ∀ v, T v v)
    (htrans : ∀ u v w, T u v → T v w → T u w) (h : Always T Claiming.recoverStaleClaims)
    (v : World) :
    T { v with mem := Process.fresh v.mem.pid v.mem } (Process.boot v) :=
      always_run hrefl htrans h _

theorem write_boot (v : World) :
    Write { v with mem := Process.fresh v.mem.pid v.mem } (Process.boot v) :=
  boot_respects (fun u => (itemless_refl u).toWrite)
    (fun _ _ _ => write_trans) write_recoverStaleClaims v

end WhatsappTester.Statements
