import WhatsappTester.Atomic.Bookkeeping
import WhatsappTester.Catalogue
import WhatsappTester.Limits

namespace WhatsappTester.Auditing

open Schema State Atomic Atomic.Program Atomic.Runs Atomic.Bookkeeping Statements
open KillSwitch Routes Scheduler Jobs Jobs.JobService Jobs.Claiming Jobs.Worker

def insertSchedule (args : CreateArgs) : Code Id := do
  let id ← randomUUID
  let now ← dateNow
  exec (fun w =>
    { w with shared.db.schedules := w.shared.db.schedules ++ [newSchedule id now args] })
  pure id

def removeSchedule (id : String) : Code Nat :=
  update
    (fun w =>
      { w with shared.db.schedules := w.shared.db.schedules.filter (fun s => decide (s.id ≠ id)) })
    (fun w => Table.changes (fun s => decide (s.id = id)) w.shared.db.schedules)

theorem run_insertSchedule {input : CreateInput} {args : CreateArgs}
    (h : Scheduler.normalize input = .ok args) (w : World) :
    ((insertSchedule args).run w).2 = ((Scheduler.create input).run w).2 := by
  simp only [insertSchedule, Scheduler.create, h, run_bind, run_pure]

theorem run_removeSchedule (id : String) (w : World) :
    ((removeSchedule id).run w).2 = ((Scheduler.remove id).run w).2 := rfl

def privileged (username action : String) (target : Option String) (requestId : Id) (ts : Ms) :
    AuditRow :=
  ⟨ts, some username, action, target, "success", some requestId, none⟩

/-- `POST /api/schedules` -/
def postSchedule (username : String) (input : CreateInput) : Code Unit := do
  let requestId ← randomUUID
  if Limits.createScheduleBody input then
    match Scheduler.normalize { input with createdBy := some username } with
    | .error _ => pure ()
    | .ok args => do
      let id ← insertSchedule args
      recordAudit (privileged username "schedule_create" (some (toString id)) requestId)
  else pure ()

/-- `DELETE /api/schedules/:id` -/
def deleteSchedule (username id : String) : Code Unit := do
  let requestId ← randomUUID
  if lengthIn 1 300 id then
    let changes ← removeSchedule id
    if changes > 0 then
      recordAudit (privileged username "schedule_delete" (some id) requestId)
    else pure ()
  else pure ()

/-- `POST /api/admin/kill-switch` -/
def postKillSwitch (username : String) (disabled : Bool) (reason : Option String) : Code Unit := do
  let requestId ← randomUUID
  if reason.all (lengthIn 0 500) then
    setOutboundDisabled disabled (some username) (some (reason.getD "")) (some requestId)
  else pure ()

def isInner : Process.Call → Bool
  | .createSchedule _ | .removeSchedule _ | .setOutboundDisabled .. => false
  | _ => true

inductive Call
  | postSchedule (username : String) (input : CreateInput)
  | deleteSchedule (username id : String)
  | postKillSwitch (username : String) (disabled : Bool) (reason : Option String)
  | inner (c : Process.Call) (h : isInner c = true)

def Call.code : Call → Code Unit
  | .postSchedule username input => Auditing.postSchedule username input
  | .deleteSchedule username id => Auditing.deleteSchedule username id
  | .postKillSwitch username disabled reason => Auditing.postKillSwitch username disabled reason
  | .inner c _ => c.code

inductive Action
  | advance (ms : Nat)
  | call (c : Call)
  | crash (c : Call) (n : Nat)
  | restart

/-- The process dies in the midst of one of the routes. -/
def Action.cutsShort : Action → Bool
  | .crash (.inner ..) _ => false
  | .crash .. => true
  | _ => false

def step (s : Process.Server) : Action → Process.Server
  | .advance ms => { s with world.shared.now := s.world.shared.now + ms }
  | .call c => if s.up then { s with world := (c.code.run s.world).2 } else s
  | .crash c n =>
    if s.up then
      let w := c.code.cut n s.world
      ⟨false, { w with shared := Process.die w.mem.pid w.shared }⟩
    else s
  | .restart => if s.up then s else ⟨true, Process.boot s.world⟩

inductive Subject
  | schedule (id : String)
  | outbound
  | other
  deriving DecidableEq, Repr

inductive Fact
  | createdBy (username : Option String)
  | outbound (disabled : Bool) (updatedBy : Option String)
  deriving DecidableEq, Repr

def subject (row : AuditRow) : Subject :=
  if row.action = "schedule_create" ∨ row.action = "schedule_delete" then
    .schedule (row.target.getD "")
  else if row.action = "kill_switch_enabled" ∨ row.action = "kill_switch_disabled" then .outbound
  else .other

def tell (row : AuditRow) (fact : Option Fact) : Option Fact :=
  if row.action = "schedule_create" then some (.createdBy row.actor)
  else if row.action = "schedule_delete" then none
  else if row.action = "kill_switch_enabled" then some (.outbound true row.actor)
  else if row.action = "kill_switch_disabled" then some (.outbound false row.actor)
  else fact

def shown (w : World) : Subject → Option Fact
  | .schedule id =>
    (Table.find (·.id) id (Catalogue.entries w)).map (fun e => .createdBy e.createdBy)
  | .outbound =>
    (setting w.shared.db settingKey).map (fun row => .outbound (row.value == "true") row.updatedBy)
  | .other => none

def told (w : World) (k : Subject) : Option Fact := recount subject tell w.shared.db.auditLog k

/-- The log goes on from `base`, and tells of everything but for at most `n`. -/
structure Books (base : List AuditRow) (n : Nat) (w : World) : Prop where
  named : Broadcast.Named w.shared
  grown : base <+: w.shared.db.auditLog
  lag : Lag subject tell n w.shared.db.auditLog (shown w)

/-- A statement that leaves the kill switch alone, and audits other things at most. -/
structure Noting (v w : World) : Prop where
  settings : w.shared.db.settings = v.shared.db.settings
  audit : ∃ rows, w.shared.db.auditLog = v.shared.db.auditLog ++ rows ∧
    ∀ row ∈ rows, subject row = .other

structure Quiet (v w : World) : Prop where
  entries : Catalogue.entries w = Catalogue.entries v
  uuid : v.shared.uuid ≤ w.shared.uuid
  switch : setting w.shared.db settingKey = setting v.shared.db settingKey
  audit : ∃ rows, w.shared.db.auditLog = v.shared.db.auditLog ++ rows ∧
    ∀ row ∈ rows, subject row = .other

variable {base : List AuditRow} {n : Nat} {u v w : World} {k : Subject}

section Noting

theorem noting_same (hsettings : w.shared.db.settings = v.shared.db.settings)
    (haudit : w.shared.db.auditLog = v.shared.db.auditLog) : Noting v w :=
  ⟨hsettings, [], by rw [haudit, List.append_nil], nofun⟩

theorem noting_refl (v : World) : Noting v v := noting_same rfl rfl

theorem noting_trans (h : Noting u v) (h' : Noting v w) : Noting u w := by
  obtain ⟨rows, haudit, hrows⟩ := h.audit
  obtain ⟨rows', haudit', hrows'⟩ := h'.audit
  refine ⟨h'.settings.trans h.settings, rows ++ rows', ?_, ?_⟩
  · rw [haudit', haudit, List.append_assoc]
  · exact List.forall_mem_append.mpr ⟨hrows, hrows'⟩

theorem noting_memo (h : Memo v w) : Noting v w :=
  noting_same (by rw [h.shared]) (by rw [h.shared])

theorem noting_query {α : Type} (f : World → α) : Always Noting (query f) :=
  always_query f noting_refl

theorem noting_updateJobs (p : Job → Bool) (f : Job → Job) : Always Noting (updateJobs p f) :=
  always_update _ (fun _ => noting_same rfl rfl)

theorem noting_updateItems (p : JobItem → Bool) (f : JobItem → JobItem) :
    Always Noting (updateItems p f) := always_update _ (fun _ => noting_same rfl rfl)

theorem noting_updateItemsRecord (p : JobItem → Bool) (f : JobItem → JobItem) (e : World → Event) :
    Always Noting (updateItemsRecord p f e) := always_update _ (fun _ => noting_same rfl rfl)

theorem noting_updateSchedules (p : Schedule → Bool) (f : Schedule → Schedule) :
    Always Noting (updateSchedules p f) := always_update _ (fun _ => noting_same rfl rfl)

theorem noting_updateMemory (f : Memory → Memory) : Always Noting (updateMemory f) :=
  always_exec (fun _ => noting_same rfl rfl)

theorem noting_record (e : World → Event) : Always Noting (record e) :=
  always_exec (fun _ => noting_same rfl rfl)

theorem noting_recordEvent (jobId : Id) (kind : JobEventKind) :
    Always Noting (recordEvent jobId kind) :=
  always_bind (noting_query _) (fun _ => always_exec (fun _ => noting_same rfl rfl))

theorem noting_getJob (id : Id) : Always Noting (getJob id) := by
  refine always_bind (noting_query _) (fun job => ?_)
  cases job with
  | none => exact always_pure none
  | some job => exact always_bind (noting_query _) (fun _ => always_pure _)

theorem noting_selectKey (key : Option String) : Always Noting (selectKey key) := by
  cases key with
  | none => exact always_pure none
  | some k =>
    simp only [selectKey]
    split
    · exact always_pure none
    · exact noting_query _

theorem noting_insertJobAndItems (id : Id) (now : Ms) (a : CreateJobArgs) :
    Always Noting (insertJobAndItems id now a) := by
  refine always_update _ (fun v => ?_)
  cases htransaction : createTransaction id now a v.shared.uuid v.shared.db with
  | ok db =>
    obtain ⟨rfl, -⟩ := createTransaction_ok htransaction
    exact noting_same rfl rfl
  | error err => exact noting_same rfl rfl

theorem noting_createJob (a : CreateJobArgs) : Always Noting (createJob a) := by
  have hfound : ∀ id created, Always Noting (do
      let job ← getJob id
      pure (.ok ⟨job, created⟩ : Except SqlError CreateResult)) :=
    fun id created => always_bind (noting_getJob id) (fun _ => always_pure _)
  refine always_bind (noting_selectKey _) (fun existing => ?_)
  cases existing with
  | some existing => exact hfound existing false
  | none =>
    refine always_bind (always_update _ (fun _ => noting_same rfl rfl)) (fun id => ?_)
    refine always_bind (noting_query _) (fun now => ?_)
    refine always_bind (noting_insertJobAndItems id now a) (fun result => ?_)
    cases result with
    | ok u => exact always_bind (noting_recordEvent _ _) (fun _ => hfound id true)
    | error err =>
      simp only
      split
      · refine always_bind (noting_selectKey _) (fun existing => ?_)
        cases existing with
        | some existing => exact hfound existing false
        | none => exact always_pure _
      · exact always_pure _

theorem noting_callCreateJob (a : CreateJobArgs) : Always Noting (callCreateJob a) := by
  refine always_bind (noting_createJob a) (fun result => ?_)
  refine always_bind (always_exec (fun v => ?_)) (fun _ => always_pure _)
  cases result <;> exact noting_same rfl rfl

theorem noting_runTickIfReady (ready : Bool) : Always Noting (runTickIfReady ready) := by
  have hfire : ∀ row, Always Noting (fireDue row) := by
    intro row
    refine always_bind (noting_callCreateJob _) (fun result => ?_)
    cases result with
    | error err => exact always_pure ()
    | ok result =>
      refine always_bind (noting_query _) (fun now => ?_)
      exact always_bind (noting_updateSchedules _ _) (fun _ => always_pure ())
  simp only [runTickIfReady]
  split
  · exact always_pure ()
  · refine always_bind (noting_query _) (fun now => ?_)
    exact always_bind (noting_query _) (fun rows => always_each hfire rows)

theorem noting_markItemRunning (itemId : Id) : Always Noting (markItemRunning itemId) := by
  refine always_bind (noting_query _) (fun now => always_bind (noting_query _) (fun item => ?_))
  cases item with
  | none => exact always_pure ()
  | some item =>
    refine always_bind (noting_updateItems _ _) (fun _ => ?_)
    refine always_bind (noting_updateJobs _ _) (fun changes => ?_)
    split
    · exact noting_recordEvent _ _
    · exact always_pure ()

theorem noting_markItemTerminal (itemId : Id) (status : ItemStatus) (category : Option Category)
    (detail : Option String) : Always Noting (markItemTerminal itemId status category detail) := by
  refine always_bind (noting_query _) (fun now => always_bind (noting_query _) (fun item => ?_))
  cases item with
  | none => exact always_pure ()
  | some item =>
    refine always_bind (noting_updateItemsRecord _ _ _) (fun _ => ?_)
    split
    · exact always_bind (noting_updateJobs _ _) (fun _ => always_pure ())
    · exact always_pure ()

theorem noting_claimNextItem : Always Noting claimNextItem := by
  refine always_bind (noting_query _) (fun now => ?_)
  refine always_bind (always_update _ (fun v => ?_)) (fun claim => ?_)
  · split <;> exact noting_same rfl rfl
  · cases claim with
    | none => exact always_pure none
    | some claim =>
      simp only
      split
      · exact always_pure none
      · exact noting_query _

theorem noting_tick : Always Noting tick := by
  have hprocess : ∀ item, Always Noting (processItem item) := by
    intro item
    refine always_processItem item (noting_markItemRunning item.id) (fun attemptNumber => ?_)
      (fun attemptNumber => always_exec (fun _ => noting_same rfl rfl))
    refine always_bind (noting_query _) (fun now => ?_)
    refine always_bind (always_exec (fun _ => noting_same rfl rfl)) (fun _ => ?_)
    exact always_bind (noting_updateItemsRecord _ _ _) (fun _ => always_pure ())
  have hloop := always_tickLoop (T := Noting) (fun _ _ => noting_memo) noting_claimNextItem hprocess
  refine always_bind (noting_query _) (fun draining => ?_)
  split
  · exact always_pure ()
  · refine always_bind (noting_query _) (fun disabled => ?_)
    split
    · exact always_pure ()
    · exact always_bind (noting_query _) (fun free => hloop _)

theorem noting_recordOutcome (task : Task) (outcome : SendOutcome) (random : Nat) :
    Always Noting (recordOutcome task outcome random) := by
  simp only [recordOutcome]
  generalize classify outcome = result
  obtain ⟨status, category, detail⟩ := result
  refine always_bind (always_bind (noting_query _)
    (fun now => always_exec (fun _ => noting_same rfl rfl))) (fun _ => ?_)
  cases category with
  | none => exact always_bind (noting_updateMemory _) (fun _ => noting_markItemTerminal _ _ _ _)
  | some category =>
    refine always_bind (always_exec (fun _ => noting_same rfl rfl)) (fun _ => ?_)
    split
    · refine always_bind (noting_query _) (fun now => always_bind (noting_query _) (fun _ => ?_))
      exact always_bind (noting_updateItemsRecord _ _ _) (fun _ => always_pure ())
    · exact noting_markItemTerminal _ _ _ _

theorem noting_checkJobCompletion (jobId : Id) : Always Noting (checkJobCompletion jobId) := by
  refine always_bind (noting_query _) (fun job => ?_)
  cases job with
  | none => exact always_pure none
  | some job =>
    simp only
    split
    · exact always_pure none
    · refine always_bind (noting_query _) (fun byStatus => ?_)
      split
      · exact always_pure none
      · refine always_bind (noting_query _) (fun now => ?_)
        refine always_bind (noting_updateJobs _ _) (fun _ => ?_)
        exact always_bind (noting_recordEvent _ _) (fun _ => noting_getJob _)

theorem noting_onJobSettled (view : JobView) : Always Noting (onJobSettled view) := by
  refine always_bind (noting_record _) (fun _ => ?_)
  split
  · refine always_bind (noting_query _) (fun row => ?_)
    cases row with
    | none => exact always_pure ()
    | some row =>
      refine always_bind (noting_query _) (fun now => ?_)
      exact always_bind (noting_updateSchedules _ _) (fun _ => always_pure ())
  · exact always_pure ()

theorem noting_complete (itemId : Id) (outcome : SendOutcome) (random : Nat) :
    Always Noting (complete itemId outcome random) := by
  refine always_bind (noting_query _) (fun task => ?_)
  cases task with
  | none => exact always_pure ()
  | some task =>
    refine always_bind (noting_recordOutcome task outcome random) (fun _ => ?_)
    refine always_bind ?_ (fun _ => noting_updateMemory _)
    exact always_settle _ (noting_checkJobCompletion _) noting_onJobSettled

theorem noting_changeStatus (id : Id) (p : Job → Bool) (f : Ms → Job → Job)
    (kind : JobEventKind) : Always Noting (do
      let now ← dateNow
      let changes ← updateJobs p (f now)
      if changes > 0 then recordEvent id kind else pure ()
      getJob id) := by
  refine always_bind (noting_query _) (fun now => ?_)
  refine always_bind (noting_updateJobs _ _) (fun changes => ?_)
  simp only
  split
  · exact always_bind (noting_recordEvent _ _) (fun _ => noting_getJob _)
  · exact noting_getJob _

theorem noting_cancelJob (id : Id) (actor : Option String) :
    Always Noting (cancelJob id actor) := by
  refine always_bind (noting_query _) (fun now => ?_)
  refine always_bind (noting_updateJobs _ _) (fun changes => ?_)
  split
  · refine always_bind (noting_updateItemsRecord _ _ _) (fun _ => ?_)
    exact always_bind (noting_recordEvent _ _) (fun _ => noting_getJob _)
  · exact noting_getJob _

theorem noting_recoverStaleClaims : Always Noting recoverStaleClaims :=
  always_bind (noting_query _) (fun _ => noting_updateItems _ _)

/-! The send routes audit what they do, and none of it is told here. -/

theorem noting_recordAudit {row : Ms → AuditRow} (h : ∀ ts, subject (row ts) = .other) :
    Always Noting (recordAudit row) := by
  refine always_bind (noting_query _) (fun ts => always_exec (fun v => ⟨rfl, [row ts], rfl, ?_⟩))
  exact List.forall_mem_singleton.mpr (h ts)

theorem noting_respond (h : Handler) (status : Nat) (response : Response) :
    Always Noting (respond h status response) := by
  have hanswer : Always Noting (do
      record (fun _ => .answered h.request status)
      updateMemory (fun m =>
        { m with handlers := m.handlers.filter (fun x => decide (x.request ≠ h.request)) })) :=
    always_bind (noting_record _) (fun _ => noting_updateMemory _)
  simp only [respond]
  split
  · split
    · refine always_bind (always_exec (fun v => ?_)) (fun _ => hanswer)
      split <;> exact noting_same rfl rfl
    · exact hanswer
  · exact hanswer

theorem noting_proceed (ready : Bool) (h : Handler) (todo : List Todo) :
    Always Noting (proceed ready h todo) := by
  induction todo generalizing h with
  | nil =>
    refine always_bind (noting_recordAudit (fun ts => ?_)) (fun _ => noting_respond _ _ _)
    cases h.route <;> simp [subject]
  | cons next rest ih =>
    cases next with
    | skip result => exact ih _
    | send recipient label message =>
      simp only [proceed]
      split
      · exact noting_respond _ _ _
      · exact always_exec (fun _ => noting_same rfl rfl)

theorem noting_validateAndHandle (ready : Bool) (r : Request) (h : Handler) :
    Always Noting (validateAndHandle ready r h) := by
  simp only [validateAndHandle, handle]
  split
  · split
    · exact noting_respond _ _ _
    · exact noting_proceed _ _ _
  · exact noting_respond _ _ _

theorem noting_request (r : Request) (ready : Bool) : Always Noting (request r ready) := by
  refine always_bind (always_update _ (fun _ => noting_same rfl rfl)) (fun id => ?_)
  refine always_bind (noting_query _) (fun disabled => ?_)
  split
  · exact noting_record _
  · simp only [idempotent]
    split
    · refine always_bind (noting_query _) (fun now => ?_)
      refine always_bind (noting_record _) (fun _ => ?_)
      refine always_bind (noting_query _) (fun cached => ?_)
      cases cached with
      | some row => exact noting_record _
      | none => exact noting_validateAndHandle _ _ _
    · exact noting_validateAndHandle _ _ _

theorem noting_chatAnswered (h : Handler) (chatId : String) (answer : Answer) :
    Always Noting (chatAnswered h chatId answer) := by
  cases answer with
  | result status detail =>
    exact always_bind (noting_recordAudit (fun ts => by simp [subject]))
      (fun _ => noting_respond _ _ _)
  | threw err =>
    simp only [chatAnswered]
    split
    · exact noting_respond _ _ _
    · exact always_bind (noting_recordAudit (fun ts => by simp [subject]))
        (fun _ => noting_respond _ _ _)

theorem noting_answered (id : Id) (answer : Answer) (ready : Bool) :
    Always Noting (answered id answer ready) := by
  refine always_bind (noting_query _) (fun h => ?_)
  cases h with
  | none => exact always_pure ()
  | some h =>
    simp only
    split
    · exact always_pure ()
    · split
      · exact noting_chatAnswered _ _ _
      · split
        · exact noting_updateMemory _
        · exact noting_proceed _ _ _

theorem noting_delayOver (id : Id) (ready : Bool) : Always Noting (delayOver id ready) := by
  refine always_bind (noting_query _) (fun h => ?_)
  cases h with
  | none => exact always_pure ()
  | some h =>
    simp only
    split
    · exact noting_proceed _ _ _
    · exact always_pure ()

theorem noting_call {c : Process.Call} (h : isInner c = true) : Always Noting c.code := by
  cases c with
  | tick => exact noting_tick
  | complete itemId outcome random => exact noting_complete itemId outcome random
  | createJob args => exact always_bind (noting_callCreateJob args) (fun _ => always_pure ())
  | cancelJob id actor => exact always_bind (noting_cancelJob id actor) (fun _ => always_pure ())
  | pauseJob id actor =>
    exact always_bind (noting_changeStatus id _ _ _) (fun _ => always_pure ())
  | resumeJob id actor =>
    exact always_bind (noting_changeStatus id _ _ _) (fun _ => always_pure ())
  | createSchedule input => cases h
  | removeSchedule id => cases h
  | runTickIfReady ready => exact noting_runTickIfReady ready
  | setOutboundDisabled disabled actor reason => cases h
  | drainAndStop => exact always_exec (fun _ => noting_same rfl rfl)
  | request r ready => exact noting_request r ready
  | answered id answer ready => exact noting_answered id answer ready
  | delayOver id ready => exact noting_delayOver id ready
  | sweepExpiredIdempotencyKeys =>
    exact always_bind (noting_query _) (fun _ => always_exec (fun _ => noting_same rfl rfl))

end Noting

section Books

theorem quiet_noting (h : Noting v w) (hentries : Catalogue.entries w = Catalogue.entries v)
    (huuid : v.shared.uuid ≤ w.shared.uuid) : Quiet v w :=
  ⟨hentries, huuid, by rw [setting, h.settings]; rfl, h.audit⟩

theorem quiet_same (hentries : Catalogue.entries w = Catalogue.entries v)
    (huuid : v.shared.uuid ≤ w.shared.uuid)
    (hsettings : w.shared.db.settings = v.shared.db.settings)
    (haudit : w.shared.db.auditLog = v.shared.db.auditLog) : Quiet v w :=
  quiet_noting (noting_same hsettings haudit) hentries huuid

theorem quiet_call {c : Process.Call} (h : isInner c = true) : Always Quiet c.code := by
  have hentries : Always Catalogue.Keeps c.code := by
    obtain hkeeps | ⟨input, rfl⟩ | ⟨id, rfl⟩ := Catalogue.keeps_call c
    · exact hkeeps
    · cases h
    · cases h
  exact always_mono (fun _ _ ⟨hnoting, hkeeps, hany⟩ => quiet_noting hnoting hkeeps hany.uuid)
    (always_and (noting_call h) (always_and hentries (any_call c)))

theorem shown_quiet (h : Quiet v w) : shown w = shown v := by
  funext k
  cases k with
  | schedule id => simp only [shown, h.entries]
  | outbound => simp only [shown, h.switch]
  | other => rfl

theorem named_entries (h : Broadcast.Named v.shared)
    (hentries : Catalogue.entries w = Catalogue.entries v)
    (huuid : v.shared.uuid ≤ w.shared.uuid) : Broadcast.Named w.shared := by
  have hids := congrArg (List.map Catalogue.Entry.id) hentries
  simp only [Catalogue.entries, List.map_map] at hids
  exact Broadcast.named_of h hids huuid

theorem books_mono (h : Books base n v) : Books base (n + 1) v :=
  ⟨h.named, h.grown, lag_mono (Nat.le_succ n) h.lag⟩

theorem tell_other {row : AuditRow} (h : subject row = .other) (fact : Option Fact) :
    tell row fact = fact := by
  simp only [subject] at h
  split at h
  · cases h
  · next hschedule =>
    split at h
    · cases h
    · next hswitch =>
      rw [not_or] at hschedule hswitch
      rw [tell, if_neg hschedule.1, if_neg hschedule.2, if_neg hswitch.1, if_neg hswitch.2]

theorem lag_noted {log rows : List AuditRow} {facts : Subject → Option Fact}
    (hrows : ∀ row ∈ rows, subject row = .other) (h : Lag subject tell n log facts) :
    Lag subject tell n (log ++ rows) facts := by
  induction rows generalizing log with
  | nil => rwa [List.append_nil]
  | cons row rows ih =>
    obtain ⟨hrow, hrest⟩ := List.forall_mem_cons.mp hrows
    rw [List.append_cons]
    exact ih hrest (lag_entered h (fun _ _ => rfl) (tell_other hrow _).symm)

theorem books_quiet (h : Books base n v) (hw : Quiet v w) : Books base n w := by
  obtain ⟨rows, haudit, hrows⟩ := hw.audit
  refine ⟨named_entries h.named hw.entries hw.uuid, ?_, ?_⟩
  · rw [haudit]
    exact h.grown.trans (List.prefix_append _ _)
  · rw [haudit, shown_quiet hw]
    exact lag_noted hrows h.lag

/-- Since `v` something has been done that is still to be audited. -/
structure Owes (k : Subject) (f : Option Fact → Option Fact) (v w : World) : Prop where
  named : Broadcast.Named w.shared
  audit : w.shared.db.auditLog = v.shared.db.auditLog
  others : ∀ k', k' ≠ k → shown w k' = shown v k'
  one : shown w k = f (shown v k)

variable {f : Option Fact → Option Fact}

theorem books_owes (h : Books base n v) (hw : Owes k f v w) : Books base (n + 1) w := by
  refine ⟨hw.named, hw.audit ▸ h.grown, ?_⟩
  rw [hw.audit]
  exact lag_changed h.lag hw.others

/-- Cut off anywhere, the code leaves at most one more thing untold; at its end it leaves none. -/
abbrev Keeps {α : Type} (base : List AuditRow) (n : Nat) (p : Code α) (v : World) : Prop :=
  Wp Eq (fun _ t => Books base (n + 1) t) p (fun _ t => Books base n t) v

theorem keeps_quiet {α : Type} {p : Code α} (hp : Always Quiet p) (h : Books base n v) :
    Keeps base n p v :=
  wp_alone hp (fun _ _ hv hw => ⟨books_mono (books_quiet hv hw), books_quiet hv hw⟩) h

theorem quiet_randomUUID : Always Quiet randomUUID :=
  always_update _ (fun _ => quiet_same rfl (Nat.le_succ _) rfl rfl)

theorem keeps_recordAudit {row : Ms → AuditRow} (h : Books base n v) (hw : Owes k f v w)
    (hsubject : ∀ ts, subject (row ts) = k) (htell : ∀ ts, tell (row ts) = f) :
    Keeps base n (recordAudit row) w := by
  have hbooks : ∀ ts, Books base n { w with
      shared.db.auditLog := w.shared.db.auditLog ++ [row ts] } := by
    intro ts
    refine ⟨⟨hw.named.drawn, hw.named.distinct⟩, ?_, ?_⟩
    · exact (hw.audit ▸ h.grown).trans (List.prefix_append _ _)
    · simp only [hw.audit]
      refine lag_entered h.lag (fun k' hk' => ?_) ?_
      · exact hw.others k' (hsubject ts ▸ hk')
      · rw [hsubject, htell]
        exact hw.one
  simp only [recordAudit, dateNow, wp_bind, wp_query, wp_exec, forall_eq']
  exact ⟨books_owes h hw, books_mono (hbooks _), hbooks _⟩

theorem find_ne {e : Catalogue.Entry} {id : String} (h : e.id ≠ id) :
    Table.find (fun e : Catalogue.Entry => e.id) id [e] = none :=
  Table.find_none.mpr (List.forall_mem_singleton.mpr h)

theorem owes_created (h : Broadcast.Named v.shared) (args : CreateArgs) :
    Owes (.schedule (toString v.shared.uuid)) (fun _ => some (.createdBy args.createdBy)) v
      (Broadcast.created args v) := by
  have hentries : Catalogue.entries (Broadcast.created args v) = Catalogue.entries v ++
      [Catalogue.entry (newSchedule v.shared.uuid v.shared.now args)] := by
    simp [Catalogue.entries, Broadcast.created]
  refine ⟨Broadcast.named_created h args, rfl, fun k' hk' => ?_, ?_⟩
  · cases k' with
    | schedule id =>
      have hne : Table.find (fun e : Catalogue.Entry => e.id) id
          [Catalogue.entry (newSchedule v.shared.uuid v.shared.now args)] = none :=
        find_ne (fun heq => hk' (congrArg Subject.schedule heq.symm))
      simp only [shown, hentries, Table.find_append, hne, Option.or_none]
    | outbound => rfl
    | other => rfl
  · have hnone : Table.find (fun e : Catalogue.Entry => e.id) (toString v.shared.uuid)
        (Catalogue.entries v) = none := by
      refine Table.find_none.mpr (fun e he heq => ?_)
      obtain ⟨row, hrow, rfl⟩ := List.mem_map.mp he
      obtain ⟨m, hm, hname⟩ := h.drawn row hrow
      exact absurd (Nat.repr_injective (hname.symm.trans heq)) (Nat.ne_of_lt hm)
    simp only [shown, hentries, Table.find_append, hnone, Option.none_or]
    simp [Table.find, Catalogue.entry, newSchedule]

theorem normalize_createdBy {input : CreateInput} {args : CreateArgs}
    (h : Scheduler.normalize input = .ok args) : args.createdBy = input.createdBy := by
  unfold Scheduler.normalize at h
  split at h
  · cases h
  · split at h
    · cases h
    · rw [← Except.ok.inj h]

theorem keeps_postSchedule (username : String) (input : CreateInput) (h : Books base n v) :
    Keeps base n (postSchedule username input) v := by
  refine wp_seq (keeps_quiet quiet_randomUUID h) (fun requestId v h => ?_)
  split
  · cases hargs : Scheduler.normalize { input with createdBy := some username } with
    | error err => exact h
    | ok args =>
      have hcreator : args.createdBy = some username := normalize_createdBy hargs
      have howes := owes_created h.named args
      simp only [insertSchedule, randomUUID, dateNow, wp_bind, wp_update, wp_query, wp_exec,
        wp_pure, forall_eq']
      have hdrawn : Books base n { v with shared.uuid := v.shared.uuid + 1 } :=
        books_quiet h (quiet_same rfl (Nat.le_succ _) rfl rfl)
      refine ⟨books_mono hdrawn, books_mono hdrawn, books_owes h howes, ?_⟩
      refine keeps_recordAudit h howes (fun ts => ?_) (fun ts => ?_)
      · simp [subject, privileged]
      · funext fact
        simp [tell, privileged, hcreator]
  · exact h

def removed (id : String) (w : World) : World :=
  { w with shared.db.schedules := w.shared.db.schedules.filter (fun s => decide (s.id ≠ id)) }

theorem owes_removed (h : Broadcast.Named v.shared) (id : String) :
    Owes (.schedule id) (fun _ => none) v (removed id v) := by
  have hsub : (removed id v).shared.db.schedules.Sublist v.shared.db.schedules :=
    List.filter_sublist
  have hfind : ∀ id', Table.find (fun e : Catalogue.Entry => e.id) id'
      (Catalogue.entries (removed id v)) = if id' = id then none else
        Table.find (fun e : Catalogue.Entry => e.id) id' (Catalogue.entries v) :=
    fun id' => Catalogue.entries_remove id v ▸ Mirror.find_filter_ne id' id _
  refine ⟨⟨fun row hrow => h.drawn row (hsub.subset hrow), h.distinct.sublist (hsub.map _)⟩, rfl,
    fun k' hk' => ?_, ?_⟩
  · cases k' with
    | schedule id' =>
      have hne : id' ≠ id := fun heq => hk' (congrArg Subject.schedule heq)
      simp only [shown, hfind, if_neg hne]
    | outbound => rfl
    | other => rfl
  · simp only [shown, hfind, if_true, Option.map_none]

theorem quiet_removed {id : String}
    (h : ¬Table.changes (fun s : Schedule => decide (s.id = id)) v.shared.db.schedules > 0) :
    Quiet v (removed id v) := by
  have hkept : v.shared.db.schedules.filter (fun s => decide (s.id ≠ id)) =
      v.shared.db.schedules := by
    refine List.filter_eq_self.mpr (fun row hrow => decide_eq_true (fun hid => h ?_))
    exact List.countP_pos_iff.mpr ⟨row, hrow, decide_eq_true hid⟩
  refine quiet_same ?_ (Nat.le_refl _) rfl rfl
  simp only [Catalogue.entries, removed, hkept]

theorem keeps_deleteSchedule (username id : String) (h : Books base n v) :
    Keeps base n (deleteSchedule username id) v := by
  refine wp_seq (keeps_quiet quiet_randomUUID h) (fun requestId v h => ?_)
  split
  · have howes := owes_removed h.named id
    simp only [removeSchedule, wp_bind, wp_update, forall_eq']
    refine ⟨books_owes h howes, ?_⟩
    split
    case isTrue hpos =>
      refine keeps_recordAudit h howes (fun ts => ?_) (fun ts => ?_)
      · simp [subject, privileged]
      · funext fact
        simp [tell, privileged]
    case isFalse hnone => exact books_quiet h (quiet_removed hnone)
  · exact h

def switched (disabled : Bool) (now : Ms) (actor : Option String) (w : World) : World :=
  { w with
    shared.db.settings :=
      upsertSetting ⟨settingKey, switchValue disabled, now, actor⟩ w.shared.db.settings
    shared.trace := if disabled then w.shared.trace else .outbound false :: w.shared.trace }

def reasoned (reason : String) (now : Ms) (actor : Option String) (w : World) : World :=
  { w with
    shared.db.settings := upsertSetting ⟨reasonKey, reason, now, actor⟩ w.shared.db.settings }

theorem owes_switched (h : Broadcast.Named v.shared) (disabled : Bool) (now : Ms)
    (actor : Option String) :
    Owes .outbound (fun _ => some (.outbound disabled actor)) v
      (switched disabled now actor v) := by
  refine ⟨⟨h.drawn, h.distinct⟩, rfl, fun k' hk' => ?_, ?_⟩
  · cases k' with
    | schedule id => rfl
    | outbound => exact absurd rfl hk'
    | other => rfl
  · simp only [shown, setting, switched, find_upsert, if_true, Option.map_some]
    cases disabled <;> rfl

theorem quiet_reasoned (reason : String) (now : Ms) (actor : Option String) (w : World) :
    Quiet w (reasoned reason now actor w) := by
  refine ⟨rfl, Nat.le_refl _, ?_, [], (List.append_nil _).symm, nofun⟩
  rw [setting, reasoned, find_upsert, if_neg (by decide : reasonKey ≠ settingKey)]
  rfl

theorem owes_quiet (h : Owes k f u v) (hw : Quiet v w)
    (haudit : w.shared.db.auditLog = v.shared.db.auditLog) : Owes k f u w := by
  refine ⟨named_entries h.named hw.entries hw.uuid, haudit.trans h.audit, fun k' hk' => ?_, ?_⟩
  · rw [shown_quiet hw]
    exact h.others k' hk'
  · rw [shown_quiet hw]
    exact h.one

theorem keeps_setOutboundDisabled (disabled : Bool) (actor reason : Option String)
    (requestId : Option Id) (h : Books base n v) :
    Keeps base n (setOutboundDisabled disabled actor reason requestId) v := by
  have hswitched := owes_switched h.named disabled v.shared.now actor
  have hreasoned := owes_quiet hswitched
    (quiet_reasoned (reason.getD "") v.shared.now actor _) rfl
  simp only [setOutboundDisabled, dateNow, wp_bind, wp_query, wp_exec, forall_eq']
  refine ⟨books_mono h, books_owes h hswitched, books_owes h hreasoned, ?_⟩
  refine wp_mono (fun _ w h => ?_)
    (keeps_recordAudit h hreasoned (fun ts => ?_) (fun ts => ?_))
  · split
    · exact keeps_quiet (always_exec (fun _ => quiet_same rfl (Nat.le_refl _) rfl rfl)) h
    · exact h
  · cases disabled <;> simp [subject]
  · funext fact
    cases disabled <;> simp [tell]

theorem keeps_postKillSwitch (username : String) (disabled : Bool) (reason : Option String)
    (h : Books base n v) : Keeps base n (postKillSwitch username disabled reason) v := by
  refine wp_seq (keeps_quiet quiet_randomUUID h) (fun requestId v h => ?_)
  split
  · exact keeps_setOutboundDisabled disabled (some username) _ _ h
  · exact h

theorem keeps_call (c : Call) (h : Books base n v) : Keeps base n c.code v := by
  cases c with
  | postSchedule username input => exact keeps_postSchedule username input h
  | deleteSchedule username id => exact keeps_deleteSchedule username id h
  | postKillSwitch username disabled reason => exact keeps_postKillSwitch username disabled reason h
  | inner c hinner => exact keeps_quiet (quiet_call hinner) h

theorem quiet_boot (v : World) : Quiet v (Process.boot v) := by
  have hnoting : Noting { v with mem := Process.fresh v.mem.pid v.mem } (Process.boot v) :=
    boot_respects noting_refl (fun _ _ _ => noting_trans) noting_recoverStaleClaims v
  have hstill := Course.still_boot v
  exact ⟨congrArg (List.map Catalogue.entry) hstill.schedules, hstill.uuid,
    congrArg (Table.find (fun row : Setting => row.key) settingKey) hnoting.settings, hnoting.audit⟩

theorem books_die (pid : Nat) (h : Books base n v) :
    Books base n { v with shared := Process.die pid v.shared } :=
  books_quiet h (quiet_same rfl (Nat.le_refl _) rfl rfl)

theorem books_step {s : Process.Server} (h : Books base n s.world) (a : Action) :
    Books base (n + if a.cutsShort then 1 else 0) (step s a).world := by
  cases a with
  | advance ms => exact books_quiet h (quiet_same rfl (Nat.le_refl _) rfl rfl)
  | call c =>
    by_cases hup : s.up
    · rw [step, if_pos hup]
      exact wp_run (keeps_call c h)
    · rw [step, if_neg hup]
      exact h
  | crash c k =>
    by_cases hup : s.up
    · rw [step, if_pos hup]
      refine books_die _ ?_
      cases c with
      | inner c hinner =>
        have hcut := wp_alone (quiet_call hinner)
          (fun _ _ hv hw => ⟨books_quiet hv hw, books_quiet hv hw⟩) h
        exact wp_cut h hcut k
      | _ => exact wp_cut (books_mono h) (keeps_call _ h) k
    · rw [step, if_neg hup]
      cases c with
      | inner c hinner => exact h
      | _ => exact books_mono h
  | restart =>
    by_cases hup : s.up
    · rw [step, if_pos hup]
      exact h
    · rw [step, if_neg hup]
      exact books_quiet h (quiet_boot s.world)

theorem books_run {s : Process.Server} (h : Books base n s.world) (as : List Action) :
    Books base (n + as.countP Action.cutsShort) (play step s as).world := by
  induction as generalizing s n with
  | nil => exact h
  | cons a as ih =>
    have hrest := ih (books_step h a)
    rw [List.countP_cons, Nat.add_comm (as.countP _), ← Nat.add_assoc]
    exact hrest

/-- The audit log tells who made each schedule there is and that no other was kept, and who set the
kill switch to what, for all of these but one for each death in the midst of such a request; and no
row of it is ever lost. -/
theorem audit_tells (concurrency : Nat) (now : Ms) (as bs : List Action) :
    let s := play step (Process.initial concurrency now) as
    (∃ behind : List Subject, behind.length ≤ as.countP Action.cutsShort ∧
      ∀ k, k ∉ behind → told s.world k = shown s.world k) ∧
    s.world.shared.db.auditLog <+: (play step s bs).world.shared.db.auditLog := by
  have hstart : Books [] 0 (Process.initial concurrency now).world := by
    refine ⟨⟨fun row hrow => absurd hrow List.not_mem_nil, List.nodup_nil⟩, List.nil_prefix, ?_⟩
    have hnothing : shown (Process.initial concurrency now).world = fun _ => none := by
      funext k
      cases k with
      | schedule id => rfl
      | outbound => rfl
      | other => rfl
    rw [hnothing]
    exact lag_empty _ _
  have hbooks := books_run hstart as
  obtain ⟨behind, hlength, htold⟩ := hbooks.lag
  have hagain : Books (play step (Process.initial concurrency now) as).world.shared.db.auditLog _
      (play step (Process.initial concurrency now) as).world :=
    ⟨hbooks.named, List.prefix_refl _, hbooks.lag⟩
  refine ⟨⟨behind, ?_, htold⟩, (books_run hagain bs).grown⟩
  rwa [Nat.zero_add] at hlength

end Books

end WhatsappTester.Auditing
