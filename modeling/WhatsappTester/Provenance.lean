import WhatsappTester.Jobs.Course

namespace WhatsappTester.Provenance

open Schema State Atomic Atomic.Program Atomic.Runs Statements Process
open Jobs Jobs.JobService Jobs.Claiming Jobs.Worker Scheduler Routes

abbrev Letter := String × String

def itemLetter (r : JobItem) : Letter := (r.recipientNumber, r.message)

def letters (row : Schedule) : List Letter := row.recipients.map (fun r => (r.number, row.message))

def ordered (input : CreateInput) : List Letter :=
  (normalizeRecipients input.recipients).map (fun r => (r.number, input.message))

def newLetter (item : NewItem) : Option Letter :=
  item.number.bind (fun number => item.message.map (fun message => (number, message)))

def addressed (todo : List Todo) : List Letter :=
  todo.filterMap (fun t => match t with
    | .send recipient _ message => some (recipient, message)
    | .skip _ => none)

/-- The letters that a call brings to the job system. -/
def orders : Call → List Letter
  | .createSchedule input => ordered input
  | .createJob args => args.items.filterMap newLetter
  | _ => []

/-- The letters that a call brings to a send route. -/
def dictates : Call → List Letter
  | .request r _ => if r.body.valid then addressed r.body.todo else []
  | _ => []

/-- The letters of the schedules and of the items, and that an item was there for every send. -/
structure Backed (P : Letter → Prop) (v : World) : Prop where
  schedules : ∀ row ∈ v.shared.db.schedules, ∀ l ∈ letters row, P l
  items : ∀ r ∈ v.shared.db.items, P (itemLetter r)
  sent : ∀ pid i n, .sent pid i n ∈ v.shared.trace → ∃ r ∈ v.shared.db.items, r.id = i

/-- The letters that the send routes have before them and behind them. -/
structure Voiced (Q : Letter → Prop) (v : World) : Prop where
  todo : ∀ h ∈ v.mem.handlers, ∀ l ∈ addressed h.todo, Q l
  handed : ∀ id recipient message, .sendStarted id recipient message ∈ v.shared.trace →
    Q (recipient, message)

def Passes (P : Letter → Prop) (v w : World) : Prop := Backed P v → Backed P w

def Repeats (Q : Letter → Prop) (v w : World) : Prop := Voiced Q v → Voiced Q w

variable {P Q : Letter → Prop} {u v w : World}

section Backed

theorem passes_of (hschedules : w.shared.db.schedules = v.shared.db.schedules)
    (hitems : w.shared.db.items.map itemOrigin = v.shared.db.items.map itemOrigin)
    (hsent : ∀ pid i n, .sent pid i n ∈ w.shared.trace → .sent pid i n ∈ v.shared.trace) :
    Passes P v w := by
  intro h
  refine ⟨hschedules ▸ h.schedules, fun r hr => ?_, fun pid i n hmem => ?_⟩
  · obtain ⟨r', hr', horigin⟩ := List.mem_map.mp (hitems ▸ List.mem_map_of_mem (f := itemOrigin) hr)
    have hletter : itemLetter r' = itemLetter r :=
      congrArg (fun o : ItemOrigin => (o.recipientNumber, o.message)) horigin
    exact hletter ▸ h.items r' hr'
  · obtain ⟨r, hr, hid⟩ := h.sent pid i n (hsent pid i n hmem)
    obtain ⟨r', hr', horigin⟩ :=
      List.mem_map.mp (hitems.symm ▸ List.mem_map_of_mem (f := itemOrigin) hr)
    exact ⟨r', hr', (congrArg ItemOrigin.id horigin).trans hid⟩

theorem passes_write (h : Write v w) (hschedules : w.shared.db.schedules = v.shared.db.schedules)
    (hsent : ∀ pid i n, .sent pid i n ∈ w.shared.trace → .sent pid i n ∈ v.shared.trace) :
    Passes P v w := passes_of hschedules (congrArg Origins.items h.origins) hsent

theorem sent_custody (h : custody w = custody v) (pid : Nat) (i : Id) (n : Nat)
    (hmem : .sent pid i n ∈ w.shared.trace) : .sent pid i n ∈ v.shared.trace := by
  have hevents : w.shared.trace.filter isCustody = v.shared.trace.filter isCustody :=
    congrArg Custody.events h
  exact (List.mem_filter.mp (hevents ▸ List.mem_filter.mpr ⟨hmem, rfl⟩)).1

theorem passes_aside : Lenient (Passes P) := fun _ _ h =>
  passes_write h.toWrite h.schedules (sent_custody h.custody)

theorem passes_memo (h : Memo v w) : Passes P v w :=
  passes_write h.toWrite (by rw [h.shared]) (sent_custody h.custody)

theorem passes_web (h : Web v w) : Passes P v w := by
  have hitems : w.shared.db.items = v.shared.db.items := congrArg JobSide.items h.jobSide
  exact passes_of (congrArg JobSide.schedules h.jobSide) (by rw [hitems])
    (sent_custody (web_custody h))

theorem passes_updateJobs (p : Job → Bool) (f : Job → Job) : Always (Passes P) (updateJobs p f) :=
  always_update _ (fun _ h => ⟨h.schedules, h.items, h.sent⟩)

theorem passes_updateItems (p : JobItem → Bool) {f : JobItem → JobItem}
    (hf : ∀ r, itemOrigin (f r) = itemOrigin r) : Always (Passes P) (updateItems p f) :=
  always_update _ (fun _ => passes_of rfl (items_origin p hf _) (fun _ _ _ h => h))

theorem passes_updateItemsRecord (p : JobItem → Bool) {f : JobItem → JobItem} {e : World → Event}
    (hf : ∀ r, itemOrigin (f r) = itemOrigin r) (he : ∀ v pid i n, e v ≠ .sent pid i n) :
    Always (Passes P) (updateItemsRecord p f e) := by
  refine always_update _ (fun v => passes_of rfl (items_origin p hf _) (fun pid i n h => ?_))
  exact List.mem_of_ne_of_mem (he v pid i n).symm h

theorem passes_updateSchedules (p : Schedule → Bool) {f : Schedule → Schedule}
    (hf : ∀ row, letters (f row) = letters row) : Always (Passes P) (updateSchedules p f) := by
  refine always_update _ (fun v h => ⟨fun row' hrow' l hl => ?_, h.items, h.sent⟩)
  obtain ⟨row, hrow, rfl⟩ := Table.mem_update.mp hrow'
  refine h.schedules row hrow l ?_
  split at hl
  · exact hf row ▸ hl
  · exact hl

theorem passes_markItemRunning (i : Id) : Always (Passes P) (markItemRunning i) :=
  always_markItemRunning passes_aside.tolerant i (fun _ => passes_updateItems _ (fun _ => rfl))
    (fun _ _ => passes_updateJobs _ _)

theorem passes_recordAttemptStart (i : Id) (n : Nat) :
    Always (Passes P) (recordAttemptStart i n) :=
  always_recordAttemptStart passes_aside i n
    (fun _ => passes_updateItemsRecord _ (fun _ => rfl) (by simp))

theorem passes_settle (jobId : Id) : Always (Passes P) (settle jobId) := by
  refine always_settle jobId (always_checkJobCompletion passes_aside jobId
    (fun _ _ _ => passes_updateJobs _ _)) (fun view => ?_)
  refine tolerant_onJobSettled passes_aside.tolerant view
    (always_mono passes_aside (aside_settled _)) (fun p f hf => ?_)
  refine passes_updateSchedules p (fun row => ?_)
  rw [letters, letters, (hf row).2.1, (hf row).2.2]

theorem passes_complete (i : Id) (outcome : SendOutcome) (random : Nat) :
    Always (Passes P) (complete i outcome random) := by
  refine always_bind (always_read passes_aside.tolerant _) (fun task => ?_)
  cases task with
  | none => exact always_pure ()
  | some task =>
    refine always_bind (always_recordOutcome passes_aside (fun _ _ => passes_memo) task
      outcome random (fun _ _ _ => ?_) (fun _ _ _ _ => ?_)) (fun _ => ?_)
    · exact always_scheduleRetry passes_aside.tolerant _ _ _ _
        (fun _ => passes_updateItemsRecord _ (fun _ => rfl) (by simp))
    · exact always_markItemTerminal passes_aside.tolerant _
        (fun _ => passes_updateItemsRecord _ (fun _ => rfl) (by simp))
        (fun _ _ => passes_updateJobs _ _)
    · refine always_bind (passes_settle _) (fun _ => always_exec (fun v => ?_))
      exact passes_of rfl rfl (fun _ _ _ h => h)

theorem passes_cancelJob (id : Id) (actor : Option String) :
    Always (Passes P) (cancelJob id actor) :=
  always_cancelJob passes_aside.tolerant id actor (fun _ => passes_updateJobs _ _)
    (fun _ => passes_updateItemsRecord _ (fun _ => rfl) (by simp))

theorem passes_changeStatus (id : Id) (p : Job → Bool) (f : Ms → Job → Job) {kind : JobEventKind}
    (hkind : ∀ ts, isCompletion ⟨id, ts, kind⟩ = false) :
    Always (Passes P) (do
      let now ← dateNow
      let changes ← updateJobs p (f now)
      if changes > 0 then recordEvent id kind else pure ()
      JobService.getJob id) :=
  always_changeStatus passes_aside.tolerant id p f hkind (fun _ => passes_updateJobs _ _)

theorem passes_recoverStaleClaims : Always (Passes P) recoverStaleClaims :=
  always_recoverStaleClaims passes_aside.tolerant (fun _ => passes_updateItems _ (fun _ => rfl))

theorem wp_passes {α : Type} {p : Code α} (hp : Always (Passes P) p) (h : Backed P v) :
    Wp Eq (fun _ t => Backed P t) p (fun _ t => Backed P t) v :=
  wp_alone hp (fun _ _ ha hab => ⟨hab ha, hab ha⟩) h

theorem wp_claimNextItem (h : Backed P v) :
    Wp Eq (fun _ t => Backed P t) claimNextItem (fun item t => Backed P t ∧
      ∀ r ∈ item, r ∈ t.shared.db.items) v := by
  have hclaim : ∀ now, Always (Passes P) (claimTransaction now) := by
    intro now
    refine always_update _ (fun u => ?_)
    cases nextClaimable u.shared.db now with
    | none => exact fun h => h
    | some row =>
      refine passes_of rfl (items_origin _ (f := claimedItem u.mem.pid now) (fun _ => rfl) _) ?_
      exact fun pid i n hmem => List.mem_of_ne_of_mem (by simp) hmem
  refine wp_seq (wp_passes (always_read passes_aside.tolerant _) h) (fun now u hu => ?_)
  refine wp_seq (wp_passes (hclaim now) hu) (fun claim u hu => ?_)
  cases claim with
  | none => exact ⟨hu, by simp⟩
  | some claim =>
    simp only
    split
    · exact ⟨hu, by simp⟩
    · simp only [selectItem, wp_query, forall_eq', hu, true_and]
      exact fun r hr => (Table.find_mem hr).1

def Lists (i : Id) (v : World) : Prop := ∃ r ∈ v.shared.db.items, r.id = i

theorem lists_write {i : Id} (h : Write v w) (hi : Lists i v) : Lists i w := by
  obtain ⟨r, hr, hid⟩ := hi
  have hitems : w.shared.db.items.map itemOrigin = v.shared.db.items.map itemOrigin :=
    congrArg Origins.items h.origins
  obtain ⟨r', hr', horigin⟩ :=
    List.mem_map.mp (hitems.symm ▸ List.mem_map_of_mem (f := itemOrigin) hr)
  exact ⟨r', hr', (congrArg ItemOrigin.id horigin).trans hid⟩

theorem wp_processItem {item : JobItem} (h : Backed P v) (hitem : item ∈ v.shared.db.items) :
    Wp Eq (fun _ t => Backed P t) (processItem item) (fun _ t => Backed P t) v := by
  have hstep : ∀ {p : Code Unit} {v : World}, Always (Passes P) p → Always Write p →
      Backed P v ∧ Lists item.id v → Wp Eq (fun _ t => Backed P t) p
        (fun _ t => Backed P t ∧ Lists item.id t) v := by
    intro p v hp hw hv
    refine wp_alone (always_and hp hw) (fun a b ha hab => ?_) hv
    exact ⟨hab.1 ha.1, hab.1 ha.1, lists_write hab.2 ha.2⟩
  refine wp_seq (hstep (passes_markItemRunning _) (write_markItemRunning _)
    ⟨h, item, hitem, rfl⟩) (fun _ u hu => ?_)
  refine wp_seq (hstep (passes_recordAttemptStart _ _) (write_recordAttemptStart _ _) hu)
    (fun _ u hu => ?_)
  rw [startSend, wp_exec]
  rintro _ rfl
  have hsent : Backed P { u with
      shared.trace := .sent u.mem.pid item.id (item.attemptCount + 1) :: u.shared.trace
      mem.inFlight := u.mem.inFlight ++ [⟨item, item.attemptCount + 1⟩] } := by
    refine ⟨hu.1.schedules, hu.1.items, fun pid i n hmem => ?_⟩
    obtain heq | hmem := List.mem_cons.mp hmem
    · obtain ⟨-, rfl, -⟩ := Event.sent.inj heq
      exact hu.2
    · exact hu.1.sent pid i n hmem
  exact ⟨hsent, hsent⟩

theorem wp_tick (h : Backed P v) :
    Wp Eq (fun _ t => Backed P t) tick (fun _ t => Backed P t) v := by
  refine Statements.wp_tick (fun f u hu => wp_passes (always_read passes_aside.tolerant f) hu)
    (fun hp u hu => wp_passes (always_mono (fun _ _ => passes_memo) hp) hu) (fun u hu => ?_) h
  refine wp_mono (fun item w hw => ?_) (wp_claimNextItem hu)
  cases item with
  | none => exact hw.1
  | some item => exact wp_processItem hw.1 (hw.2 item rfl)

theorem normalize_letters {input : CreateInput} {args : CreateArgs}
    (h : normalize input = .ok args) (id : Id) (now : Ms) :
    letters (newSchedule id now args) = ordered input := by
  unfold Scheduler.normalize at h
  split at h
  · cases h
  · split at h
    · cases h
    · cases h
      rfl

theorem wp_create {input : CreateInput} (hinput : ∀ l ∈ ordered input, P l) (h : Backed P v) :
    Wp Eq (fun _ t => Backed P t) (create input) (fun _ t => Backed P t) v := by
  simp only [create]
  cases hargs : Scheduler.normalize input with
  | error err => exact h
  | ok args =>
    have huuid : Always (Passes P) randomUUID :=
      always_update _ (fun _ => passes_of rfl rfl (fun _ _ _ h => h))
    refine wp_seq (wp_passes huuid h) (fun id u hu => ?_)
    refine wp_seq (wp_passes (always_read passes_aside.tolerant _) hu) (fun now u hu => ?_)
    rw [wp_exec]
    rintro _ rfl
    have hnew : Backed P { u with
        shared.db.schedules := u.shared.db.schedules ++ [newSchedule id now args] } := by
      refine ⟨fun row hrow => ?_, hu.items, hu.sent⟩
      obtain hrow | hrow := List.mem_append.mp hrow
      · exact hu.schedules row hrow
      · rw [List.mem_singleton.mp hrow, normalize_letters hargs]
        exact hinput
    exact ⟨hnew, hnew⟩

theorem letter_newItems {jobId : Id} {now : Ms} {id : Id} {seq : Nat} {items : List NewItem}
    (hgiven : ∀ item ∈ items, item.number.isSome ∧ item.message.isSome) {r : JobItem}
    (hr : r ∈ newItems jobId now id seq items) :
    itemLetter r ∈ items.filterMap newLetter := by
  induction items generalizing id seq with
  | nil => cases hr
  | cons item items ih =>
    obtain ⟨⟨hnumber, hmessage⟩, hrest⟩ := List.forall_mem_cons.mp hgiven
    obtain ⟨number, hnumber⟩ := Option.isSome_iff_exists.mp hnumber
    obtain ⟨message, hmessage⟩ := Option.isSome_iff_exists.mp hmessage
    have hletter : newLetter item = some (number, message) := by
      rw [newLetter, hnumber, hmessage]
      rfl
    rw [List.filterMap_cons_some hletter]
    cases hr with
    | head => simp [itemLetter, newItem, hnumber, hmessage]
    | tail _ hr => exact List.mem_cons_of_mem _ (ih hrest hr)

theorem wp_callCreateJob {args : CreateJobArgs} (hargs : ∀ l ∈ orders (.createJob args), P l)
    (h : Backed P v) :
    Wp Eq (fun _ t => Backed P t) (callCreateJob args) (fun _ t => Backed P t) v := by
  refine Course.alone_callCreateJob (P := fun t => Backed P t) args
    (fun u w huw hu => passes_aside u w huw hu) (fun id u db htransaction hu => ?_)
    (fun result u hu => ?_) h
  · obtain ⟨rfl, -, -, hgiven, -⟩ := createTransaction_ok htransaction
    refine ⟨hu.schedules, fun r hr => ?_, fun pid i n hmem => ?_⟩
    · obtain hr | hr := List.mem_append.mp hr
      · exact hu.items r hr
      · exact hargs _ (letter_newItems hgiven hr)
    · obtain ⟨r, hr, hid⟩ := hu.sent pid i n (List.mem_of_ne_of_mem (by simp) hmem)
      exact ⟨r, List.mem_append_left _ hr, hid⟩
  · cases result with
    | error err => exact hu
    | ok result =>
      have hreturned : Passes P u (returned args (.ok result) u) :=
        passes_of rfl rfl (fun _ _ _ hmem => (List.mem_cons.mp hmem).resolve_left (by simp))
      exact hreturned hu

theorem orders_fireArgs (row : Schedule) : orders (.createJob (fireArgs row)) = letters row := by
  simp [orders, fireArgs, letters, List.filterMap_map, newLetter, Function.comp_def]

theorem wp_fireDue {row : Schedule} (hrow : ∀ l ∈ letters row, P l) (h : Backed P v) :
    Wp Eq (fun _ t => Backed P t) (fireDue row) (fun _ t => Backed P t) v := by
  refine wp_seq (wp_callCreateJob (orders_fireArgs row ▸ hrow) h) (fun result u hu => ?_)
  cases result with
  | error err => exact hu
  | ok result =>
    refine wp_passes (always_bind (always_read passes_aside.tolerant _) (fun now => ?_)) hu
    exact always_bind (passes_updateSchedules _ (fun _ => rfl)) (fun _ => always_pure ())

theorem wp_runTickIfReady (ready : Bool) (h : Backed P v) :
    Wp Eq (fun _ t => Backed P t) (runTickIfReady ready) (fun _ t => Backed P t) v := by
  simp only [runTickIfReady]
  split
  · exact h
  · simp only [dateNow, wp_bind, wp_query, forall_eq', h, true_and]
    refine wp_each (P := fun t => Backed P t) _ (fun row hrow u hu => ?_) h
    exact wp_fireDue (h.schedules row (List.mem_filter.mp hrow).1) hu

theorem backed_call {c : Call} (hc : ∀ l ∈ orders c, P l) (h : Backed P v) :
    Wp Eq (fun _ t => Backed P t) c.code (fun _ t => Backed P t) v := by
  have hweb : ∀ {p : Code Unit}, Always Web p →
      Wp Eq (fun _ t => Backed P t) p (fun _ t => Backed P t) v :=
    fun hp => wp_passes (always_mono (fun _ _ => passes_web) hp) h
  cases c with
  | tick => exact wp_tick h
  | complete i outcome random => exact wp_passes (passes_complete i outcome random) h
  | createJob args => exact wp_seq (wp_callCreateJob hc h) (fun _ _ ht => ht)
  | cancelJob id actor =>
    exact wp_passes (always_bind (passes_cancelJob id actor) (fun _ => always_pure ())) h
  | pauseJob id actor =>
    exact wp_passes (always_bind (passes_changeStatus id _ _ (fun _ => rfl))
      (fun _ => always_pure ())) h
  | resumeJob id actor =>
    exact wp_passes (always_bind (passes_changeStatus id _ _ (fun _ => rfl))
      (fun _ => always_pure ())) h
  | createSchedule input => exact wp_create hc h
  | removeSchedule id =>
    refine wp_passes (always_exec (fun u hu => ⟨fun row hrow => ?_, hu.items, hu.sent⟩)) h
    exact hu.schedules row (List.mem_filter.mp hrow).1
  | runTickIfReady ready => exact wp_runTickIfReady ready h
  | setOutboundDisabled disabled actor reason => exact hweb (web_setOutboundDisabled _ _ _ _)
  | drainAndStop => exact wp_passes (always_exec (fun _ => passes_of rfl rfl (fun _ _ _ h => h))) h
  | request r ready => exact hweb (web_request r ready)
  | answered id answer ready => exact hweb (web_answered id answer ready)
  | delayOver id ready => exact hweb (web_delayOver id ready)
  | sweepExpiredIdempotencyKeys => exact hweb web_sweepExpiredIdempotencyKeys

end Backed

section Voiced

theorem repeats_of (hhandlers : ∀ h ∈ w.mem.handlers, h ∈ v.mem.handlers)
    (hhanded : ∀ id recipient message, .sendStarted id recipient message ∈ w.shared.trace →
      .sendStarted id recipient message ∈ v.shared.trace) : Repeats Q v w :=
  fun h => ⟨fun x hx => h.todo x (hhandlers x hx),
    fun id recipient message hmem => h.handed id recipient message (hhanded _ _ _ hmem)⟩

theorem repeats_back (h : Back v w) : Repeats Q v w := by
  have hhandlers : w.mem.handlers = v.mem.handlers := congrArg WebSide.handlers h.webSide
  have hevents : w.shared.trace.filter isWeb = v.shared.trace.filter isWeb :=
    congrArg WebSide.events h.webSide
  refine repeats_of (fun x hx => hhandlers ▸ hx) (fun id recipient message hmem => ?_)
  exact (List.mem_filter.mp (hevents ▸ List.mem_filter.mpr ⟨hmem, rfl⟩)).1

theorem repeats_query {α : Type} (f : World → α) : Always (Repeats Q) (query f) :=
  always_query f (fun _ h => h)

theorem repeats_record {e : World → Event}
    (he : ∀ v id recipient message, e v ≠ .sendStarted id recipient message) :
    Always (Repeats Q) (record e) :=
  always_exec (fun v => repeats_of (fun _ hx => hx)
    (fun _ _ _ hmem => List.mem_of_ne_of_mem (he v _ _ _).symm hmem))

theorem repeats_recordAudit (row : Ms → AuditRow) :
    Always (Repeats Q) (KillSwitch.recordAudit row) :=
  always_bind (repeats_query _)
    (fun _ => always_exec (fun _ => repeats_of (fun _ hx => hx) (fun _ _ _ hmem => hmem)))

theorem repeats_respond (h : Handler) (status : Nat) (response : Response) :
    Always (Repeats Q) (respond h status response) := by
  have hanswer : Always (Repeats Q) (do
      record (fun _ => .answered h.request status)
      updateMemory (fun m =>
        { m with handlers := m.handlers.filter (fun x => decide (x.request ≠ h.request)) })) := by
    refine always_bind (repeats_record (by simp)) (fun _ => always_exec (fun v => ?_))
    exact repeats_of (fun x hx => (List.mem_filter.mp hx).1) (fun _ _ _ hmem => hmem)
  have hstore : ∀ key arrivedAt,
      Always (Repeats Q) (storeResponse h.request key arrivedAt h.route response) := by
    refine fun key arrivedAt => always_exec (fun v => ?_)
    split
    · exact fun h => h
    · exact repeats_of (fun _ hx => hx)
        (fun _ _ _ hmem => List.mem_of_ne_of_mem (by simp) hmem)
  simp only [respond]
  split
  · split
    · exact always_bind (hstore _ _) (fun _ => hanswer)
    · exact hanswer
  · exact hanswer

theorem repeats_save {h : Handler} (hh : ∀ l ∈ addressed h.todo, Q l) :
    Always (Repeats Q) (save h) := by
  refine always_exec (fun v hv => ⟨fun x hx => ?_, hv.handed⟩)
  obtain hx | hx := List.mem_append.mp hx
  · exact hv.todo x (List.mem_filter.mp hx).1
  · rw [List.mem_singleton.mp hx]
    exact hh

theorem repeats_startRecipient {h : Handler} {recipient message : String} (label : String)
    (hh : ∀ l ∈ addressed h.todo, Q l) (hsend : Q (recipient, message)) :
    Always (Repeats Q) (startRecipient h recipient label message) := by
  refine always_exec (fun v hv => ⟨fun x hx => ?_, fun id r m hmem => ?_⟩)
  · obtain hx | hx := List.mem_append.mp hx
    · exact hv.todo x (List.mem_filter.mp hx).1
    · rw [List.mem_singleton.mp hx]
      exact hh
  · obtain heq | hmem := List.mem_cons.mp hmem
    · obtain ⟨-, rfl, rfl⟩ := Event.sendStarted.inj heq
      exact hsend
    · exact hv.handed id r m hmem

theorem repeats_proceed (ready : Bool) (h : Handler) {todo : List Todo}
    (htodo : ∀ l ∈ addressed todo, Q l) : Always (Repeats Q) (proceed ready h todo) := by
  induction todo generalizing h with
  | nil => exact always_bind (repeats_recordAudit _) (fun _ => repeats_respond _ _ _)
  | cons next rest ih =>
    cases next with
    | skip result => exact ih _ htodo
    | send recipient label message =>
      obtain ⟨hnext, hrest⟩ := List.forall_mem_cons.mp htodo
      simp only [proceed]
      split
      · exact repeats_respond _ _ _
      · exact repeats_startRecipient label hrest hnext

theorem repeats_validateAndHandle (ready : Bool) {r : Routes.Request} {h : Handler}
    (hr : ∀ l ∈ dictates (.request r ready), Q l) (hh : h.todo = r.body.todo) :
    Always (Repeats Q) (validateAndHandle ready r h) := by
  simp only [validateAndHandle, handle]
  split
  case isTrue hvalid =>
    rw [dictates, if_pos hvalid, ← hh] at hr
    split
    · exact repeats_respond _ _ _
    · exact repeats_proceed ready h hr
  case isFalse => exact repeats_respond _ _ _

theorem repeats_request {r : Routes.Request} {ready : Bool}
    (hr : ∀ l ∈ dictates (.request r ready), Q l) :
    Always (Repeats Q) (Routes.request r ready) := by
  have huuid : Always (Repeats Q) randomUUID :=
    always_update _ (fun _ => repeats_of (fun _ hx => hx) (fun _ _ _ hmem => hmem))
  refine always_bind huuid (fun id => always_bind (repeats_query _) (fun disabled => ?_))
  split
  · exact repeats_record (by simp)
  · simp only [idempotent]
    split
    · refine always_bind (repeats_query _) (fun now => ?_)
      refine always_bind (repeats_record (by simp)) (fun _ => ?_)
      refine always_bind (repeats_query _) (fun cached => ?_)
      cases cached with
      | some row => exact repeats_record (by simp)
      | none => exact repeats_validateAndHandle ready hr rfl
    · exact repeats_validateAndHandle ready hr rfl

theorem repeats_chatAnswered (h : Handler) (chatId : String) (answer : Answer) :
    Always (Repeats Q) (chatAnswered h chatId answer) := by
  cases answer with
  | result status detail =>
    exact always_bind (repeats_recordAudit _) (fun _ => repeats_respond _ _ _)
  | threw err =>
    simp only [chatAnswered]
    split
    · exact repeats_respond _ _ _
    · exact always_bind (repeats_recordAudit _) (fun _ => repeats_respond _ _ _)

theorem wp_repeats {α : Type} {p : Code α} (hp : Always (Repeats Q) p) (h : Voiced Q v) :
    Wp Eq (fun _ t => Voiced Q t) p (fun _ t => Voiced Q t) v :=
  wp_alone hp (fun _ _ ha hab => ⟨hab ha, hab ha⟩) h

theorem wp_selectHandler {id : Id} {k : Option Handler → Code Unit} (h : Voiced Q v)
    (hnone : k none = pure ())
    (hsome : ∀ x : Handler, (∀ l ∈ addressed x.todo, Q l) → Always (Repeats Q) (k (some x))) :
    Wp Eq (fun _ t => Voiced Q t) (selectHandler id >>= k) (fun _ t => Voiced Q t) v := by
  simp only [selectHandler, wp_bind, wp_query, forall_eq', h, true_and]
  cases hfind : v.mem.handlers.find? (fun x => decide (x.request = id)) with
  | none =>
    rw [hnone]
    exact h
  | some x => exact wp_repeats (hsome x (h.todo x (List.mem_of_find?_eq_some hfind))) h

theorem wp_answered (id : Id) (answer : Answer) (ready : Bool) (h : Voiced Q v) :
    Wp Eq (fun _ t => Voiced Q t) (Routes.answered id answer ready) (fun _ t => Voiced Q t) v := by
  refine wp_selectHandler h rfl (fun x hx => ?_)
  simp only
  split
  · exact always_pure ()
  · split
    · exact repeats_chatAnswered _ _ _
    · split
      · exact repeats_save hx
      · exact repeats_proceed ready _ hx

theorem wp_delayOver (id : Id) (ready : Bool) (h : Voiced Q v) :
    Wp Eq (fun _ t => Voiced Q t) (Routes.delayOver id ready) (fun _ t => Voiced Q t) v := by
  refine wp_selectHandler h rfl (fun x hx => ?_)
  simp only
  split
  · exact repeats_proceed ready x hx
  · exact always_pure ()

theorem repeats_setOutboundDisabled (disabled : Bool) (actor reason : Option String)
    (requestId : Option Id) :
    Always (Repeats Q) (KillSwitch.setOutboundDisabled disabled actor reason requestId) := by
  refine always_bind (repeats_query _) (fun now => ?_)
  refine always_bind (always_exec (fun v => ?_)) (fun _ => ?_)
  · refine repeats_of (fun _ hx => hx) (fun _ _ _ hmem => ?_)
    cases disabled with
    | true => exact hmem
    | false => exact List.mem_of_ne_of_mem (by simp) hmem
  refine always_bind (always_exec (fun _ => repeats_of (fun _ hx => hx) (fun _ _ _ hmem => hmem)))
    (fun _ => always_bind (repeats_recordAudit _) (fun _ => ?_))
  split
  · exact repeats_record (by simp)
  · exact always_pure ()

theorem repeats_sweep : Always (Repeats Q) sweepExpiredIdempotencyKeys :=
  always_bind (repeats_query _)
    (fun _ => always_exec (fun _ => repeats_of (fun _ hx => hx) (fun _ _ _ hmem => hmem)))

theorem voiced_call {c : Call} (hc : ∀ l ∈ dictates c, Q l) (h : Voiced Q v) :
    Wp Eq (fun _ t => Voiced Q t) c.code (fun _ t => Voiced Q t) v := by
  have hback : ∀ {p : Code Unit}, Always Back p →
      Wp Eq (fun _ t => Voiced Q t) p (fun _ t => Voiced Q t) v :=
    fun hp => wp_repeats (always_mono (fun _ _ => repeats_back) hp) h
  have hwrite : ∀ {p : Code Unit}, Always Write p → Always Back p :=
    fun hp => always_mono (fun _ _ hw => hw.toBack) hp
  have hitemless : ∀ {p : Code Unit}, Always Itemless p → Always Back p :=
    fun hp => always_mono (fun _ _ hw => hw.toBack) hp
  cases c with
  | tick => exact hback (hwrite write_tick)
  | complete i outcome random => exact hback (hwrite (write_complete i outcome random))
  | createJob args =>
    exact hback (always_bind (back_callCreateJob args) (fun _ => always_pure ()))
  | cancelJob id actor =>
    exact hback (hwrite (always_bind (write_cancelJob id actor) (fun _ => always_pure ())))
  | pauseJob id actor =>
    exact hback (hitemless (always_bind (itemless_pauseJob id actor) (fun _ => always_pure ())))
  | resumeJob id actor =>
    exact hback (hitemless (always_bind (itemless_resumeJob id actor) (fun _ => always_pure ())))
  | createSchedule input => exact hback (hitemless (itemless_create input))
  | removeSchedule id => exact hback (hitemless (itemless_remove id))
  | runTickIfReady ready => exact hback (back_runTickIfReady ready)
  | drainAndStop => exact hback (hitemless itemless_drainAndStop)
  | setOutboundDisabled disabled actor reason =>
    exact wp_repeats (repeats_setOutboundDisabled _ _ _ _) h
  | request r ready => exact wp_repeats (repeats_request hc) h
  | answered id answer ready => exact wp_answered id answer ready h
  | delayOver id ready => exact wp_delayOver id ready h
  | sweepExpiredIdempotencyKeys => exact wp_repeats repeats_sweep h

end Voiced

theorem backed_step {s : Server} {a : Action}
    (ha : ∀ c, a.calls = some c → ∀ l ∈ orders c, P l) (h : Backed P s.world) :
    Backed P (step s a).world := by
  refine step_keeps (I := fun w => Backed P w) (fun c hc => backed_call (ha c hc) h)
    (fun _ _ hv => ⟨hv.schedules, hv.items, hv.sent⟩) (fun v hv => ?_) (fun v hv => ?_) h
  · refine ⟨hv.schedules, hv.items, fun pid i n hmem => hv.sent pid i n ?_⟩
    exact (List.mem_cons.mp hmem).resolve_left (by simp)
  · have hfresh : Backed P { v with mem := fresh v.mem.pid v.mem } :=
      ⟨hv.schedules, hv.items, hv.sent⟩
    exact wp_run (wp_passes passes_recoverStaleClaims hfresh)

theorem voiced_step {s : Server} {a : Action}
    (ha : ∀ c, a.calls = some c → ∀ l ∈ dictates c, Q l) (h : Voiced Q s.world) :
    Voiced Q (step s a).world := by
  refine step_keeps (I := fun w => Voiced Q w) (fun c hc => voiced_call (ha c hc) h)
    (fun _ _ hv => ⟨hv.todo, hv.handed⟩) (fun v hv => ?_) (fun v hv => ?_) h
  · refine ⟨hv.todo, fun id recipient message hmem => hv.handed id recipient message ?_⟩
    exact (List.mem_cons.mp hmem).resolve_left (by simp)
  · have hback : Back { v with mem := fresh v.mem.pid v.mem } (boot v) := (write_boot v).toBack
    exact repeats_back hback ⟨fun x hx => absurd hx List.not_mem_nil, hv.handed⟩

theorem backed_run (concurrency : Nat) (now : Ms) {as : List Action}
    (has : ∀ a ∈ as, ∀ c, a.calls = some c → ∀ l ∈ orders c, P l) :
    Backed P (run (initial concurrency now) as).world := by
  refine play_invariant (fun s : Server => Backed P s.world) (fun s a h ha => backed_step ha h) ?_
    (along_all has (initial concurrency now))
  exact ⟨fun _ h => absurd h List.not_mem_nil, fun _ h => absurd h List.not_mem_nil,
    fun _ _ _ h => absurd h List.not_mem_nil⟩

theorem voiced_run (concurrency : Nat) (now : Ms) {as : List Action}
    (has : ∀ a ∈ as, ∀ c, a.calls = some c → ∀ l ∈ dictates c, Q l) :
    Voiced Q (run (initial concurrency now) as).world := by
  refine play_invariant (fun s : Server => Voiced Q s.world) (fun s a h ha => voiced_step ha h) ?_
    (along_all has (initial concurrency now))
  exact ⟨fun _ h => absurd h List.not_mem_nil, fun _ _ _ h => absurd h List.not_mem_nil⟩

end WhatsappTester.Provenance
