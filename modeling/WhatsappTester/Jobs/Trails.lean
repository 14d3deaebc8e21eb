import WhatsappTester.Jobs.Attempts
import WhatsappTester.Jobs.Course

namespace WhatsappTester.Jobs.Trails

open Schema State Atomic Atomic.Program Statements JobService Claiming Worker Process Attempts

/-- What there is of an item: its rows, its attempts, its tasks in flight and the number of its sends. -/
structure Trail where
  rows : List JobItem
  attempts : List JobAttempt
  tasks : List Task
  sends : Nat

def trail (i : Id) (v : World) : Trail where
  rows := v.shared.db.items.filter (fun r => decide (r.id = i))
  attempts := v.shared.db.attempts.filter (fun t => decide (t.jobItemId = i))
  tasks := v.mem.inFlight.filter (fun t => decide (t.item.id = i))
  sends := sendCount i v.shared.trace

def Off (i : Id) (v v' : World) : Prop := trail i v' = trail i v ∧ v'.shared.now = v.shared.now

def Enters (i : Id) (v v' : World) : Prop :=
  ∃ new : List JobItem, (∀ r ∈ new, r.status = .queued ∧ r.attemptCount = 0) ∧
    trail i v' = { trail i v with rows := (trail i v).rows ++ new }

variable {i j : Id} {u v w : World} {T : Trail}

theorem sendCount_custody (i : Id) (t : List Event) :
    sendCount i t = sendCount i (t.filter isCustody) := by
  rw [sendCount, sendCount, List.countP_filter]
  refine List.countP_congr (fun e _ => ?_)
  cases e <;> simp [isCustody]

theorem sendCount_cons {e : Event} (he : ∀ n m, e ≠ .sent n i m) (t : List Event) :
    sendCount i (e :: t) = sendCount i t := by
  rw [sendCount, List.countP_cons_of_neg, sendCount]
  cases e with
  | sent worker k n =>
    have hk : k ≠ i := by
      rintro rfl
      exact he worker n rfl
    simpa using hk
  | _ => simp

theorem off_of (hitems : w.shared.db.items = v.shared.db.items)
    (hattempts : w.shared.db.attempts = v.shared.db.attempts)
    (hflight : w.mem.inFlight = v.mem.inFlight)
    (hevents : w.shared.trace.filter isCustody = v.shared.trace.filter isCustody) (hany : Any v w) :
    Off i v w := by
  have hsends : sendCount i w.shared.trace = sendCount i v.shared.trace := by
    rw [sendCount_custody, hevents, ← sendCount_custody]
  exact ⟨by simp only [trail, hitems, hattempts, hflight, hsends], hany.now⟩

theorem off_mute : Tolerant (Off i) := fun _ _ h =>
  off_of (congrArg Custody.items h.custody) h.attempts (congrArg (·.inFlight) h.mem)
    (congrArg Custody.events h.custody) h.toAny

theorem off_web (h : Web v w) : Off i v w := by
  refine off_of (congrArg JobSide.items h.jobSide) (congrArg JobSide.attempts h.jobSide)
    (congrArg JobSide.inFlight h.jobSide)
    (filter_of_notWeb ?_ (congrArg JobSide.events h.jobSide)) h.toAny
  intro e he
  cases e <;> first | rfl | cases he

theorem off_memo (h : Memo v w) : Off i v w :=
  off_of (by rw [h.shared]) (by rw [h.shared]) (congrArg Custody.inFlight h.custody)
    (by rw [h.shared])
    h.toAny

theorem off_updateJobs (p : Job → Bool) (f : Job → Job) : Always (Off i) (updateJobs p f) :=
  always_update _ (fun _ => ⟨rfl, rfl⟩)

theorem off_updateSchedules (p : Schedule → Bool) (f : Schedule → Schedule) :
    Always (Off i) (updateSchedules p f) :=
  always_update _ (fun _ => ⟨rfl, rfl⟩)

theorem off_items {p : JobItem → Bool} {f : JobItem → JobItem} (hp : ∀ r, p r → r.id ≠ i)
    (hid : ∀ r, (f r).id = r.id)
    {t : List Event} (ht : sendCount i t = sendCount i v.shared.trace) :
    Off i v { v with shared.db.items := Table.update p f v.shared.db.items, shared.trace := t } := by
  have hrows : (Table.update p f v.shared.db.items).filter (fun r => decide (r.id = i)) =
      v.shared.db.items.filter (fun r => decide (r.id = i)) :=
    Table.filter_update (fun r _ hr => by simp [hid, hp r hr])
  exact ⟨by simp only [trail, hrows, ht], rfl⟩

theorem off_recordEvent (id : Id) (kind : JobEventKind) : Always (Off i) (recordEvent id kind) :=
  always_bind (always_read off_mute _) (fun _ => always_exec (fun _ => ⟨rfl, rfl⟩))

section Other

variable (hj : j ≠ i)

include hj

theorem off_updateItem {f : JobItem → JobItem} (hid : ∀ r, (f r).id = r.id) :
    Always (Off i) (updateItems (fun r => decide (r.id = j)) f) :=
  always_update _ (fun v => off_items (fun _ hr => by rwa [of_decide_eq_true hr]) hid
    (t := v.shared.trace) rfl)

theorem off_updateItemRecord {f : JobItem → JobItem} {e : World → Event} (hid : ∀ r, (f r).id = r.id)
    (he : ∀ v n m, e v ≠ .sent n i m) : Always (Off i) (updateItemsRecord (fun r => decide (r.id = j)) f e) :=
  always_update _ (fun v => off_items (fun _ hr => by rwa [of_decide_eq_true hr]) hid (sendCount_cons (he v) _))

theorem off_markItemRunning : Always (Off i) (markItemRunning j) :=
  always_markItemRunning off_mute j (fun _ => off_updateItem hj (fun _ => rfl))
    (fun _ _ => off_updateJobs _ _)

theorem off_recordAttemptStart (n : Nat) : Always (Off i) (recordAttemptStart j n) := by
  refine tolerant_recordAttemptStart off_mute j n (fun now => always_exec (fun v => ?_))
    (fun _ => off_updateItemRecord hj (fun _ => rfl) (fun _ _ _ => by simp))
  exact ⟨by simp [trail, List.filter_append, hj], rfl⟩

theorem off_recordAttemptFinish (n : Nat) (status : SendStatus) (category : Option Category)
    (detail : Option String) :
    Always (Off i) (recordAttemptFinish j n status category detail) := by
  refine always_bind (always_read off_mute _) (fun now => always_exec (fun v => ?_))
  refine ⟨?_, rfl⟩
  simp only [trail]
  congr 1
  refine Table.filter_update (fun t _ ht => ?_)
  simp [(of_decide_eq_true ht).1, hj]

theorem off_startSend {item : JobItem} (hitem : item.id = j) (n : Nat) :
    Always (Off i) (startSend item n) := by
  subst hitem
  refine always_exec (fun v => ?_)
  have hsends := sendCount_cons (i := i) (e := .sent v.mem.pid item.id n)
    (fun _ _ h => hj (Event.sent.inj h).2.1)
    v.shared.trace
  exact ⟨by simp [trail, List.filter_append, hj, hsends], rfl⟩

theorem off_processItem {item : JobItem} (hitem : item.id = j) :
    Always (Off i) (processItem item) := by
  subst hitem
  exact always_processItem item (off_markItemRunning hj) (off_recordAttemptStart hj)
    (off_startSend hj rfl)

theorem off_recordOutcome {task : Task} (htask : task.item.id = j) (outcome : SendOutcome)
    (random : Nat) :
    Always (Off i) (recordOutcome task outcome random) := by
  subst htask
  refine tolerant_recordOutcome off_mute (fun _ _ => off_memo) task outcome random
    (fun _ _ _ => off_recordAttemptFinish hj _ _ _ _) (fun _ _ _ => ?_) (fun _ _ _ _ => ?_)
  · exact always_scheduleRetry off_mute _ _ _ _
      (fun _ => off_updateItemRecord hj (fun _ => rfl) (fun _ _ _ => by simp))
  · exact always_markItemTerminal off_mute _
      (fun _ => off_updateItemRecord hj (fun _ => rfl) (fun _ _ _ => by simp))
      (fun _ _ => off_updateJobs _ _)

theorem off_finish : Always (Off i) (finish j) := by
  refine always_exec (fun v => ?_)
  have htasks : (v.mem.inFlight.eraseP (fun t => decide (t.item.id = j))).filter
      (fun t => decide (t.item.id = i)) = v.mem.inFlight.filter
        (fun t => decide (t.item.id = i)) := by
    obtain heq | ⟨t, l, l', _, ht, hflight, herase⟩ :=
      List.exists_or_eq_self_of_eraseP (fun t : Task => decide (t.item.id = j)) v.mem.inFlight
    · rw [heq]
    · have hne : t.item.id ≠ i := by rwa [of_decide_eq_true ht]
      rw [herase, hflight]
      simp [List.filter_append, hne]
  exact ⟨by simp only [trail, htasks], rfl⟩

end Other

theorem off_claimRow {row : JobItem} (hid : row.id ≠ i) (now : Ms) :
    Off i v (claimRow row now v) := by
  have hsends := sendCount_cons (i := i) (e := .claimed v.mem.pid row.id (now + leaseMs))
    (by simp) v.shared.trace
  exact off_items (p := fun r => decide (r.id = row.id ∧ r.status = .queued))
    (f := claimedItem v.mem.pid now)
    (fun r hr => by rwa [(of_decide_eq_true hr).1]) (fun _ => rfl) hsends

theorem off_settle (jobId : Id) : Always (Off i) (settle jobId) := by
  refine always_settle jobId ?_ (fun view => ?_)
  · exact tolerant_checkJobCompletion off_mute jobId (fun _ _ _ => off_updateJobs _ _)
      (fun _ => off_recordEvent _ _)
  · exact tolerant_onJobSettled off_mute view (always_exec (fun v => ⟨by
      simp only [trail, sendCount_cons (i := i) (e := .settled v.mem.pid view.job.id) (by simp)],
        rfl⟩))
      (fun _ _ _ => off_updateSchedules _ _)

theorem ends_off {α : Type} {p : Code α} {now : Ms} (hp : Always (Off i) p)
    (h : trail i v = T ∧ v.shared.now = now) :
    Ends p (fun _ u => trail i u = T ∧ u.shared.now = now) v :=
  ends_always (fun _ _ ha hab => ⟨hab.1.trans ha.1, hab.2.trans ha.2⟩) hp h

theorem ends_completeOther (hj : j ≠ i) (outcome : SendOutcome) (random : Nat) :
    Ends (complete j outcome random) (fun _ u => trail i u = trail i v ∧
      u.shared.now = v.shared.now) v := by
  refine Probe.wp_complete j outcome random trivial (fun _ => ⟨rfl, rfl⟩) (fun task _ hid => ?_)
  refine wp_seq (ends_off (off_recordOutcome hj hid outcome random) ⟨rfl, rfl⟩) (fun _ u hu => ?_)
  refine wp_seq (ends_off (off_settle _) hu) (fun _ u hu => ?_)
  rw [hid]
  exact ends_off (off_finish hj) hu

theorem enters_off (h : Off i v w) : Enters i v w :=
  ⟨[], by simp, by rw [h.1, List.append_nil]⟩

theorem enters_trans (h : Enters i u v) (h' : Enters i v w) : Enters i u w := by
  obtain ⟨new, hnew, hv⟩ := h
  obtain ⟨new', hnew', hw⟩ := h'
  exact ⟨new ++ new', List.forall_mem_append.mpr ⟨hnew, hnew'⟩, by rw [hw, hv, List.append_assoc]⟩

theorem enters_mute : Tolerant (Enters i) := fun v w h => enters_off (off_mute v w h)

theorem fresh_newItems {jobId : Id} {now : Ms} {id : Id} {seq : Nat}
    {items : List NewItem} {r : JobItem} (hr : r ∈ newItems jobId now id seq items) :
    r.status = .queued ∧ r.attemptCount = 0 := by
  induction items generalizing id seq with
  | nil => cases hr
  | cons item items ih =>
    cases hr with
    | head => exact ⟨rfl, rfl⟩
    | tail _ hr => exact ih hr

theorem enters_callCreateJob (a : CreateJobArgs) : Always (Enters i) (callCreateJob a) := by
  refine always_callCreateJob enters_mute a (fun id now => always_update _ (fun v => ?_))
    (fun result v => ?_)
  · cases htransaction : createTransaction id now a v.shared.uuid v.shared.db with
    | error err => exact enters_off ⟨rfl, rfl⟩
    | ok db =>
      obtain ⟨rfl, _⟩ := createTransaction_ok htransaction
      refine ⟨(newItems id now v.shared.uuid 0 a.items).filter (fun r => decide (r.id = i)),
        fun r hr => ?_, ?_⟩
      · exact fresh_newItems (List.mem_filter.mp hr).1
      · simp only [trail, List.filter_append,
          sendCount_cons (i := i) (e := .jobInserted v.mem.pid id a) (by simp)]
  · cases result with
    | error err => exact enters_off ⟨rfl, rfl⟩
    | ok r =>
      refine enters_off ⟨?_, rfl⟩
      simp only [trail, returned,
        sendCount_cons (i := i) (e := .createReturned v.mem.pid a r) (by simp)]

/-- A call that neither sends, nor takes an answer, nor cancels, leaves the item alone or brings it in. -/
theorem enters_call {c : Call} (htick : c ≠ .tick) (hcomplete : ∀ j o r, c ≠ .complete j o r)
    (hcancel : ∀ id actor, c ≠ .cancelJob id actor) : Always (Enters i) c.code := by
  have hoff : ∀ {p : Code Unit}, Always (Off i) p → Always (Enters i) p :=
    fun h => always_mono (fun _ _ => enters_off) h
  have hweb : ∀ {p : Code Unit}, Always Web p → Always (Enters i) p :=
    fun h => hoff (always_mono (fun _ _ => off_web) h)
  cases c with
  | tick => exact absurd rfl htick
  | complete j o r => exact absurd rfl (hcomplete j o r)
  | cancelJob id actor => exact absurd rfl (hcancel id actor)
  | createJob args => exact always_bind (enters_callCreateJob args) (fun _ => always_pure ())
  | pauseJob id actor =>
    exact hoff (always_bind (always_changeStatus off_mute id _ (movedJob .paused) (fun _ => rfl)
      (fun _ => off_updateJobs _ _)) (fun _ => always_pure ()))
  | resumeJob id actor =>
    exact hoff (always_bind (always_changeStatus off_mute id _ (movedJob .queued) (fun _ => rfl)
      (fun _ => off_updateJobs _ _)) (fun _ => always_pure ()))
  | createSchedule input =>
    exact hoff (always_create off_mute input (fun _ _ _ => always_exec (fun _ => ⟨rfl, rfl⟩)))
  | removeSchedule id => exact always_exec (fun _ => enters_off ⟨rfl, rfl⟩)
  | runTickIfReady ready =>
    exact always_runTickIfReady enters_mute enters_callCreateJob
      (fun p f => always_mono (fun _ _ => enters_off) (off_updateSchedules p f)) ready
  | setOutboundDisabled disabled actor reason => exact hweb (web_setOutboundDisabled _ _ _ _)
  | drainAndStop => exact always_exec (fun _ => enters_off ⟨rfl, rfl⟩)
  | request r ready => exact hweb (web_request r ready)
  | answered id answer ready => exact hweb (web_answered id answer ready)
  | delayOver id ready => exact hweb (web_delayOver id ready)
  | sweepExpiredIdempotencyKeys => exact hweb web_sweepExpiredIdempotencyKeys

section Own

theorem trail_update {f : JobItem → JobItem} (hid : ∀ r, (f r).id = r.id) {t : List Event}
    (ht : sendCount i t = sendCount i v.shared.trace) :
    trail i { v with
      shared.db.items := Table.update (fun r => decide (r.id = i)) f v.shared.db.items
      shared.trace := t } = { trail i v with rows := (trail i v).rows.map f } := by
  simp only [trail, ht]
  congr 1
  rw [Table.filter_update_comm (fun r _ => by rw [hid])]
  refine List.map_congr_left (fun r hr => ?_)
  rw [if_pos (List.mem_filter.mp hr).2]

theorem rows_none (h : v.shared.db.item i = none) : (trail i v).rows = [] :=
  List.filter_eq_nil_iff.mpr (fun r hr => by simpa using Table.find_none.mp h r hr)

theorem ends_markItemRunning (i : Id) :
    Ends (markItemRunning i) (fun _ u =>
      trail i u = { trail i v with rows := (trail i v).rows.map (runningItem v.shared.now) } ∧
        u.shared.now = v.shared.now) v := by
  simp only [Ends, markItemRunning, dateNow, selectItem, wp_bind, wp_query, forall_eq', true_and]
  cases hfind : v.shared.db.item i with
  | none =>
    rw [wp_pure, rows_none hfind, List.map_nil, ← rows_none hfind]
    exact ⟨rfl, rfl⟩
  | some item =>
    refine (wp_bind ..).mpr ?_
    rintro _ rfl
    refine ⟨trivial, ends_off (always_bind (off_updateJobs _ _) (fun changes => ?_)) ⟨?_, rfl⟩⟩
    · split
      · exact off_recordEvent _ _
      · exact always_pure ()
    · exact trail_update (f := runningItem v.shared.now) (fun _ => rfl) (t := v.shared.trace) rfl

theorem ends_recordAttemptStart (i : Id) (n : Nat) :
    Ends (recordAttemptStart i n) (fun _ u =>
      trail i u = { trail i v with
        rows := (trail i v).rows.map (attemptedItem n v.shared.now)
        attempts := (trail i v).attempts ++ [⟨i, n, v.shared.now, none, none, none, none⟩] } ∧
        u.shared.now = v.shared.now) v := by
  simp only [Ends, recordAttemptStart, dateNow, insertAttempt, updateItemsRecord, wp_bind, wp_query,
    wp_exec, wp_update, wp_pure, forall_eq', true_and, and_true]
  refine (trail_update (f := attemptedItem n v.shared.now)
    (v := { v with shared.db.attempts := v.shared.db.attempts ++
      [⟨i, n, v.shared.now, none, none, none, none⟩] })
    (fun _ => rfl) (t := .attempted v.mem.pid i :: v.shared.trace)
      (sendCount_cons (by simp) _)).trans ?_
  simp [trail, List.filter_append]

theorem ends_processItem (item : JobItem) :
    Ends (processItem item) (fun _ u =>
      trail item.id u =
        ⟨(trail item.id v).rows.map (fun r =>
            attemptedItem (item.attemptCount + 1) v.shared.now (runningItem v.shared.now r)),
          (trail item.id v).attempts ++
            [⟨item.id, item.attemptCount + 1, v.shared.now, none, none, none, none⟩],
          (trail item.id v).tasks ++ [⟨item, item.attemptCount + 1⟩], (trail item.id v).sends + 1⟩ ∧
        u.shared.now = v.shared.now) v := by
  refine wp_seq (ends_markItemRunning item.id) (fun _ u hu => ?_)
  refine wp_seq (ends_recordAttemptStart item.id _) (fun _ w hw => ?_)
  rintro _ rfl
  refine ⟨trivial, ?_, hw.2.trans hu.2⟩
  obtain ⟨⟨hu, hnow⟩, hw, _⟩ := And.intro hu hw
  rw [hu, hnow] at hw
  have hsent : trail item.id { w with
      shared.trace := .sent w.mem.pid item.id (item.attemptCount + 1) :: w.shared.trace
      mem.inFlight := w.mem.inFlight ++ [⟨item, item.attemptCount + 1⟩] } =
      { trail item.id w with
        tasks := (trail item.id w).tasks ++ [⟨item, item.attemptCount + 1⟩]
        sends := (trail item.id w).sends + 1 } := by
    simp [trail, List.filter_append, sendCount]
  rw [hsent, hw, List.map_map]
  rfl

def finishedAttempt (status : SendStatus) (category : Option Category) (detail : Option String) (now : Ms)
    (t : JobAttempt) : JobAttempt :=
  { t with finishedAt := some now, outcome := some status, errorCategory := category, errorMessage := detail }

def writtenItem (n : Nat) (outcome : SendOutcome) (random : Nat) (now : Ms) : JobItem → JobItem :=
  match (classify outcome).2.1 with
  | none => terminalItem .succeeded none none now
  | some category =>
    if Retry.isRetryable category && decide (n < Retry.maxAttempts) then
      retriedItem (now + Retry.computeBackoffMs n random) category (classify outcome).2.2 now
    else terminalItem (failureStatus category) (some category) (classify outcome).2.2 now

theorem ends_recordAttemptFinish (i : Id) (n : Nat) (status : SendStatus)
    (category : Option Category) (detail : Option String) :
    Ends (recordAttemptFinish i n status category detail) (fun _ u =>
      trail i u = { trail i v with
        attempts := Table.update (fun t => decide (t.jobItemId = i ∧ t.attemptNumber = n))
          (finishedAttempt status category detail v.shared.now) (trail i v).attempts } ∧
        u.shared.now = v.shared.now) v := by
  simp only [Ends, recordAttemptFinish, dateNow, wp_bind, wp_query, wp_exec, forall_eq',
    true_and, and_true]
  simp only [trail]
  congr 1
  exact Table.filter_update_comm (f := finishedAttempt status category detail v.shared.now) (fun _ _ => rfl) _

theorem ends_scheduleRetry (i : Id) (nextAttemptAt : Ms) (category : Category)
    (detail : Option String) :
    Ends (scheduleRetry i nextAttemptAt category detail) (fun _ u =>
      trail i u = { trail i v with
        rows := (trail i v).rows.map (retriedItem nextAttemptAt category detail v.shared.now) } ∧
        u.shared.now = v.shared.now) v := by
  simp only [Ends, scheduleRetry, dateNow, updateItemsRecord, wp_bind, wp_query, wp_update,
    wp_pure, forall_eq', true_and, and_true]
  exact trail_update (f := retriedItem nextAttemptAt category detail v.shared.now) (fun _ => rfl)
    (sendCount_cons (by simp) _)

theorem ends_markItemTerminal (i : Id) (status : ItemStatus) (category : Option Category)
    (detail : Option String) :
    Ends (markItemTerminal i status category detail) (fun _ u =>
      trail i u = { trail i v with
        rows := (trail i v).rows.map (terminalItem status category detail v.shared.now) } ∧
        u.shared.now = v.shared.now) v := by
  simp only [Ends, markItemTerminal, dateNow, selectItem, wp_bind, wp_query, forall_eq', true_and]
  cases hfind : v.shared.db.item i with
  | none =>
    rw [wp_pure, rows_none hfind, List.map_nil, ← rows_none hfind]
    exact ⟨rfl, rfl⟩
  | some item =>
    refine (wp_bind ..).mpr ?_
    rintro _ rfl
    refine ⟨trivial, ends_off ?_
      ⟨trail_update (f := terminalItem status category detail v.shared.now) (fun _ => rfl)
      (sendCount_cons (by simp) _), rfl⟩⟩
    split
    · exact always_bind (off_updateJobs _ _) (fun _ => always_pure ())
    · exact always_pure ()

theorem ends_recordOutcome (task : Task) (outcome : SendOutcome) (random : Nat) :
    Ends (recordOutcome task outcome random) (fun _ u =>
      trail task.item.id u = { trail task.item.id v with
        rows :=
          (trail task.item.id v).rows.map
            (writtenItem task.attemptNumber outcome random v.shared.now)
        attempts :=
          Table.update (fun t => decide (t.jobItemId = task.item.id ∧
            t.attemptNumber = task.attemptNumber))
          (finishedAttempt (classify outcome).1 (classify outcome).2.1
            (classify outcome).2.2 v.shared.now)
          (trail task.item.id v).attempts } ∧
        u.shared.now = v.shared.now) v := by
  simp only [recordOutcome, writtenItem]
  generalize classify outcome = result
  obtain ⟨status, category, detail⟩ := result
  refine wp_seq (ends_recordAttemptFinish _ _ _ _ _) (fun _ u hu => ?_)
  cases category with
  | none =>
    refine wp_seq (ends_off (always_mono (fun _ _ => off_memo) memo_recordSuccess) hu)
      (fun _ w hw => ?_)
    refine wp_mono (fun _ x hx => ?_) (ends_markItemTerminal _ _ _ _)
    rw [hw.1, hw.2] at hx
    exact hx
  | some category =>
    refine wp_seq (ends_off (always_mono (fun _ _ => off_memo) (memo_recordFailure _)) hu)
      (fun _ w hw => ?_)
    simp only
    split
    case isTrue hretry =>
      simp only [dateNow, wp_bind, wp_query, forall_eq', true_and]
      refine wp_mono (fun _ x hx => ?_) (ends_scheduleRetry _ _ _ _)
      rw [hw.1, hw.2] at hx
      exact hx
    case isFalse hretry =>
      refine wp_mono (fun _ x hx => ?_) (ends_markItemTerminal _ _ _ _)
      rw [hw.1, hw.2] at hx
      exact hx

theorem ends_finish (i : Id) : Ends (finish i) (fun _ u =>
    trail i u =
      { trail i v with tasks := (trail i v).tasks.eraseP (fun t => decide (t.item.id = i)) } ∧
      u.shared.now = v.shared.now) v := by
  rintro _ rfl
  refine ⟨trivial, ?_, rfl⟩
  simp only [trail]
  congr 1
  rw [List.eraseP_filter]
  simp

end Own

end WhatsappTester.Jobs.Trails
