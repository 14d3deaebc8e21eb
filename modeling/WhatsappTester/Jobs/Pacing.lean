import WhatsappTester.Jobs.Probe
import WhatsappTester.Jobs.Lifecycle
import WhatsappTester.Jobs.Timetable

namespace WhatsappTester.Jobs.Pacing

open Schema State Atomic Atomic.Program Atomic.Runs Statements JobService Claiming Worker Ledger
  Process Solo Standing
open Registry Uniqueness Sending Probe Settling Scheduler Occurrences Course

def FirstSend (s : Server) (as : List Action) (i : Id) (t : Ms) : Prop :=
  ∃ bs a cs, as = bs ++ a :: cs ∧ i ∉ sends (run s bs).world.shared ∧
    i ∈ sends (step (run s bs) a).world.shared ∧ t = (run s bs).world.shared.now

/-- In no run are the first sends to two recipients of one occurrence of the schedule closer than that. -/
def Paced (input : CreateInput) (delaySeconds : Rat) : Prop :=
  ∀ (concurrency : Nat) (now : Ms) (as bs : List Action), (∀ a ∈ as ++ bs, Genuine a) →
    let s := run (initial concurrency now) as
    let whole := as ++ .call (.createSchedule input) :: bs
    let t := run (initial concurrency now) whole
    s.up → ∀ j ∈ t.world.shared.db.jobs, ofSchedule (toString s.world.shared.uuid) j = true →
      ∀ r ∈ t.world.shared.db.items, ∀ r' ∈ t.world.shared.db.items, r.jobId = j.id →
        r'.jobId = j.id → r.id ≠ r'.id → ∀ u u', FirstSend (initial concurrency now) whole r.id u →
          FirstSend (initial concurrency now) whole r'.id u' →
          1000 * delaySeconds ≤ ((u - u').natAbs : Rat)

structure Sized (n m : Nat) (s : Shared) : Prop where
  rows : ∀ row ∈ s.db.schedules, row.id = toString n → row.recipients.length = m
  jobs : ∀ j ∈ s.db.jobs, ofSchedule (toString n) j = true → j.total = m

structure Shapes (v v' : World) : Prop where
  rows : ∀ row' ∈ v'.shared.db.schedules, ∃ row ∈ v.shared.db.schedules,
    row.id = row'.id ∧ row.recipients = row'.recipients
  jobs : v'.shared.db.jobs.map jobOrigin = v.shared.db.jobs.map jobOrigin

section Shapes

variable {n m : Nat} {s : Shared} {v v' : World}

theorem shapes_of (hschedules : v'.shared.db.schedules = v.shared.db.schedules)
    (hjobs : v'.shared.db.jobs.map jobOrigin = v.shared.db.jobs.map jobOrigin) : Shapes v v' :=
  ⟨fun row hrow => ⟨row, hschedules ▸ hrow, rfl, rfl⟩, hjobs⟩

theorem shapes_still (h : Still v v') : Shapes v v' := by
  refine shapes_of h.schedules ?_
  have := congrArg (List.map Chronicle.origin) h.jobs
  simpa only [List.map_map, Function.comp_def, chronicle] using this

theorem shapes_aside : Lenient Shapes := fun v v' h => shapes_still (still_aside v v' h)

theorem sized_shapes (h : Sized n m v.shared) (hs : Shapes v v') : Sized n m v'.shared := by
  refine ⟨fun row' hrow' hid' => ?_, fun j' hj' hof => ?_⟩
  · obtain ⟨row, hrow, hid, hrecipients⟩ := hs.rows row' hrow'
    rw [← hrecipients]
    exact h.rows row hrow (hid.trans hid')
  · obtain ⟨j, hj, horigin⟩ := List.mem_map.mp (hs.jobs ▸ List.mem_map_of_mem (f := jobOrigin) hj')
    have htotal : j.total = j'.total := congrArg JobOrigin.total horigin
    have htype : j.sourceType = j'.sourceType := congrArg JobOrigin.sourceType horigin
    have hsource : j.sourceId = j'.sourceId := congrArg JobOrigin.sourceId horigin
    rw [← htotal]
    refine h.jobs j hj ?_
    rw [ofSchedule, htype, hsource]
    exact hof

theorem shapes_updateJobs {p : Job → Bool} {f : Job → Job}
    (hf : ∀ j, jobOrigin (f j) = jobOrigin j) :
    Always Shapes (updateJobs p f) :=
  always_update _ (fun _ => shapes_of rfl (Table.map_update (fun j _ => hf j) _))

theorem shapes_updateSchedules (p : Schedule → Bool) (f : Schedule → Schedule)
    (hf : ∀ row : Schedule, (f row).id = row.id ∧ (f row).recipients = row.recipients) :
    Always Shapes (updateSchedules p f) := by
  refine always_update _ (fun v => ⟨fun row' hrow' => ?_, rfl⟩)
  obtain ⟨row, hrow, rfl⟩ := Table.mem_update.mp hrow'
  refine ⟨row, hrow, ?_, ?_⟩
  · split
    · exact (hf row).1.symm
    · rfl
  · split
    · exact (hf row).2.symm
    · rfl

theorem shapes_settle (jobId : Id) : Always Shapes (settle jobId) :=
  always_settle jobId (always_checkJobCompletion shapes_aside jobId
    (fun _ _ _ => shapes_updateJobs (fun _ => rfl)))
    (fun view => tolerant_onJobSettled shapes_aside.tolerant view
      (always_mono shapes_aside (aside_settled _))
      (fun p f hf => shapes_updateSchedules p f (fun row => ⟨(hf row).1, (hf row).2.1⟩)))

theorem shapes_complete (i : Id) (outcome : SendOutcome) (random : Nat) :
    Always Shapes (complete i outcome random) := by
  refine always_bind (always_read shapes_aside.tolerant _) (fun task => ?_)
  cases task with
  | none => exact always_pure ()
  | some task =>
    refine always_bind (always_mono (fun _ _ => shapes_still)
      (still_recordOutcome task outcome random)) (fun _ => ?_)
    exact always_bind (shapes_settle _) (fun _ => always_exec (fun _ => shapes_of rfl rfl))

theorem shapes_cancelJob (id : Id) (actor : Option String) : Always Shapes (cancelJob id actor) :=
  always_cancelJob shapes_aside.tolerant id actor (fun _ => shapes_updateJobs (fun _ => rfl))
    (fun _ => always_update _ (fun _ => shapes_of rfl rfl))

structure Steady (v v' : World) : Prop extends Shapes v v' where
  items : v'.shared.db.items.map itemOrigin = v.shared.db.items.map itemOrigin

theorem always_steady {α : Type} {p : Code α} (hshapes : Always Shapes p)
    (hquiet : Always Quiet p) :
    Always Steady p :=
  always_mono (fun _ _ h => ⟨h.1, congrArg Origins.items h.2.2⟩) (always_and hshapes hquiet)

section Keeps

variable {P : World → Prop} (hsteady : ∀ a b, Steady a b → P a → P b)

include hsteady

theorem keeps_steady {α : Type} {p : Code α} (hp : Always Steady p) (h : P v) :
    Wp Eq (fun _ t => P t) p (fun _ t => P t) v :=
  wp_alone hp (fun a b ha hab => ⟨hsteady a b hab ha, hsteady a b hab ha⟩) h

theorem keeps_callCreateJob {a : CreateJobArgs} (hinsert : ∀ id u db,
      createTransaction id u.shared.now a u.shared.uuid u.shared.db = .ok db → P u → P { u with
        shared.db := db
        shared.uuid := u.shared.uuid + a.items.length
        shared.trace := .jobInserted u.mem.pid id a :: u.shared.trace }) (h : P v) :
    Wp Eq (fun _ t => P t) (callCreateJob a) (fun _ t => P t) v := by
  refine alone_callCreateJob a (fun x y hxy hx => hsteady x y ⟨shapes_aside x y hxy, ?_⟩ hx) hinsert
    (fun result x hx => ?_) h
  · exact congrArg Origins.items (write_of_aside hxy).origins
  · cases result with
    | error err => exact hx
    | ok r => exact hsteady x _ ⟨shapes_of rfl rfl, rfl⟩ hx

theorem keeps_create {input : CreateInput}
    (hcreate : ∀ args, normalize input = .ok args → P { v with
      shared.uuid := v.shared.uuid + 1
      shared.db.schedules := v.shared.db.schedules ++
        [newSchedule v.shared.uuid v.shared.now args] }) (h : P v) :
    Wp Eq (fun _ t => P t) (create input) (fun _ t => P t) v := by
  simp only [create]
  cases hargs : normalize input with
  | error err => exact h
  | ok args =>
    have hdrawn : P { v with shared.uuid := v.shared.uuid + 1 } :=
      hsteady v _ ⟨shapes_of rfl rfl, rfl⟩ h
    have hnew := hcreate args hargs
    simp only [randomUUID, dateNow, wp_bind, wp_update, wp_query, wp_exec, forall_eq',
      hdrawn, true_and]
    exact ⟨hnew, hnew⟩

theorem keeps_runTickIfReady (ready : Bool) (hinsert : ∀ row ∈ v.shared.db.schedules, ∀ id u db,
      createTransaction id u.shared.now (fireArgs row) u.shared.uuid u.shared.db = .ok db →
      P u → P { u with
        shared.db := db
        shared.uuid := u.shared.uuid + (fireArgs row).items.length
        shared.trace := .jobInserted u.mem.pid id (fireArgs row) :: u.shared.trace }) (h : P v) :
    Wp Eq (fun _ t => P t) (runTickIfReady ready) (fun _ t => P t) v := by
  simp only [runTickIfReady]
  split
  · exact h
  · simp only [dateNow, wp_bind, wp_query, forall_eq', h, true_and]
    refine wp_each (P := P) _ (fun row hrow u hu => ?_) h
    refine wp_seq (keeps_callCreateJob hsteady (hinsert row (List.mem_filter.mp hrow).1) hu)
      (fun result u hu => ?_)
    cases result with
    | error err => exact hu
    | ok r =>
      refine keeps_steady hsteady (always_steady ?_ ?_) hu
      · refine always_bind (always_read shapes_aside.tolerant _) (fun now => ?_)
        exact always_bind (shapes_updateSchedules _ _ (fun _ => ⟨rfl, rfl⟩))
          (fun _ => always_pure ())
      · refine always_bind (always_read quiet_aside.tolerant _) (fun now => ?_)
        exact always_bind (always_mono (fun _ _ => quiet_itemless) (itemless_updateSchedules _ _))
          (fun _ => always_pure ())

theorem keeps_call (c : Call)
    (hcreate : ∀ input args, c = .createSchedule input → normalize input = .ok args → P { v with
      shared.uuid := v.shared.uuid + 1
      shared.db.schedules := v.shared.db.schedules ++
        [newSchedule v.shared.uuid v.shared.now args] })
    (hinsert : ∀ a, c = .createJob a ∨ (∃ row ∈ v.shared.db.schedules, a = fireArgs row) →
      ∀ id u db, createTransaction id u.shared.now a u.shared.uuid u.shared.db = .ok db →
      P u → P { u with
        shared.db := db
        shared.uuid := u.shared.uuid + a.items.length
        shared.trace := .jobInserted u.mem.pid id a :: u.shared.trace })
    (h : P v) : Wp Eq (fun _ t => P t) c.code (fun _ t => P t) v := by
  have hwrite : ∀ {p : Code Unit}, Always Shapes p → Always Write p →
      Wp Eq (fun _ t => P t) p (fun _ t => P t) v :=
    fun hs hw => keeps_steady hsteady (always_steady hs (always_mono (fun _ _ => quiet_write) hw)) h
  have hstill : ∀ {p : Code Unit}, Always Still p → Always Write p →
      Wp Eq (fun _ t => P t) p (fun _ t => P t) v :=
    fun hs hw => hwrite (always_mono (fun _ _ => shapes_still) hs) hw
  have hitemless : ∀ {α : Type} {p : Code α}, Always Itemless p → Always Write p :=
    fun hp => always_mono (fun _ _ h => h.toWrite) hp
  have hweb : ∀ {p : Code Unit}, Always Web p → Wp Eq (fun _ t => P t) p (fun _ t => P t) v := by
    refine fun hp =>
      keeps_steady hsteady (always_mono (fun _ _ hw => ⟨shapes_still (still_web hw), ?_⟩) hp) h
    exact congrArg Origins.items (web_origins hw)
  cases c with
  | tick => exact hstill still_tick write_tick
  | complete i outcome random =>
    exact hwrite (shapes_complete i outcome random) (write_complete i outcome random)
  | createJob args =>
    exact wp_seq (keeps_callCreateJob hsteady (hinsert args (.inl rfl)) h) (fun _ _ ht => ht)
  | cancelJob id actor =>
    exact hwrite (always_bind (shapes_cancelJob id actor) (fun _ => always_pure ()))
      (always_bind (write_cancelJob id actor) (fun _ => always_pure ()))
  | pauseJob id actor =>
    exact hstill (always_bind (still_pauseJob id actor) (fun _ => always_pure ()))
      (always_bind (hitemless (itemless_pauseJob id actor)) (fun _ => always_pure ()))
  | resumeJob id actor =>
    exact hstill (always_bind (still_resumeJob id actor) (fun _ => always_pure ()))
      (always_bind (hitemless (itemless_resumeJob id actor)) (fun _ => always_pure ()))
  | createSchedule input => exact keeps_create hsteady (fun args => hcreate input args rfl) h
  | removeSchedule id =>
    have hremove : Always Steady (Scheduler.remove id) :=
      always_exec
        (fun _ => ⟨⟨fun row hrow => ⟨row, (List.mem_filter.mp hrow).1, rfl, rfl⟩, rfl⟩, rfl⟩)
    exact keeps_steady hsteady hremove h
  | runTickIfReady ready =>
    exact keeps_runTickIfReady hsteady ready (fun row hrow => hinsert _ (.inr ⟨row, hrow, rfl⟩)) h
  | setOutboundDisabled disabled actor reason => exact hweb (web_setOutboundDisabled _ _ _ _)
  | drainAndStop =>
    have hdrain : Always Steady drainAndStop := always_exec (fun _ => ⟨shapes_of rfl rfl, rfl⟩)
    exact keeps_steady hsteady hdrain h
  | request r ready => exact hweb (web_request r ready)
  | answered id answer ready => exact hweb (web_answered id answer ready)
  | delayOver id ready => exact hweb (web_delayOver id ready)
  | sweepExpiredIdempotencyKeys => exact hweb web_sweepExpiredIdempotencyKeys

end Keeps

theorem steady_boot (v : World) : Steady { v with mem := fresh v.mem.pid v.mem } (boot v) :=
  ⟨shapes_still (still_boot v), congrArg Origins.items (write_boot v).origins⟩

theorem sized_call (c : Call) (hc : Honest c) (hn : n < v.shared.uuid) (h : Sized n m v.shared) :
    Wp Eq (fun _ t => Sized n m t.shared) c.code (fun _ t => Sized n m t.shared) v := by
  refine keeps_call (P := fun t => Sized n m t.shared)
    (fun a b hab ha => sized_shapes ha hab.toShapes) c
    (fun input args _ _ => ⟨?_, h.jobs⟩) (fun a ha id u db htransaction hu => ?_) h
  -- of a schedule that is created later the recipients do not count
  · refine List.forall_mem_append.mpr ⟨h.rows, List.forall_mem_singleton.mpr (fun hid => ?_)⟩
    exact absurd hid (name_ne (Nat.ne_of_gt hn))
  · obtain ⟨rfl, _⟩ := createTransaction_ok htransaction
    refine ⟨hu.rows, List.forall_mem_append.mpr ⟨hu.jobs,
      List.forall_mem_singleton.mpr (fun hof => ?_)⟩⟩
    have hsource := of_decide_eq_true hof
    obtain rfl | ⟨row, hrow, rfl⟩ := ha
    · exact absurd hsource.1 hc.2
    · simp only [newJob, fireArgs, List.length_map]
      exact h.rows row hrow (Option.some.inj hsource.2)

end Shapes

section Server

variable {n m : Nat} {s : Server}

theorem sized_step {a : Action} (ha : Genuine a) (hn : n < s.world.shared.uuid)
    (h : Sized n m s.world.shared) :
    Sized n m (step s a).world.shared := by
  refine step_keeps (I := fun w => Sized n m w.shared)
    (fun c hc => sized_call c (ha c hc) hn h) ?_ ?_ ?_ h
  · exact fun v ms hv => ⟨hv.rows, hv.jobs⟩
  · exact fun v hv => ⟨hv.rows, hv.jobs⟩
  · exact fun v hv => sized_shapes (v := { v with mem := fresh v.mem.pid v.mem }) hv
      (steady_boot v).toShapes

theorem sized_run {as : List Action} (has : ∀ a ∈ as, Genuine a) (hn : n < s.world.shared.uuid)
    (h : Sized n m s.world.shared) : Sized n m (run s as).world.shared := by
  refine (play_invariant (fun s => Sized n m s.world.shared ∧ n < s.world.shared.uuid) ?_ ⟨h, hn⟩
    (along_all has s)).1
  rintro s a ⟨h, hn⟩ ha
  exact ⟨sized_step ha hn h, Nat.lt_of_lt_of_le hn (uuid_step s a)⟩

theorem step_createSchedule (hup : s.up) {input : CreateInput} {args : CreateArgs}
    (hargs : normalize input = .ok args) :
    (step s (.call (.createSchedule input))).world = { s.world with
      shared.uuid := s.world.shared.uuid + 1
      shared.db.schedules :=
        s.world.shared.db.schedules ++
        [newSchedule s.world.shared.uuid s.world.shared.now args] } := by
  simp only [step, hup, ↓reduceIte, Call.code, create, hargs]
  rfl

theorem sized_created (hdated : Dated s.world.shared.uuid s.world.shared) (hup : s.up)
    {input : CreateInput} {args : CreateArgs} (hargs : normalize input = .ok args) :
    let s' := step s (.call (.createSchedule input))
    s.world.shared.uuid < s'.world.shared.uuid ∧
      Sized s.world.shared.uuid args.recipients.length s'.world.shared := by
  intro s'
  rw [step_createSchedule hup hargs]
  refine ⟨Nat.lt_succ_self _, List.forall_mem_append.mpr ⟨fun row hrow hid => ?_,
    List.forall_mem_singleton.mpr (fun _ => rfl)⟩, fun j hj hof => ?_⟩
  · obtain ⟨k, hk, hname⟩ := hdated.named row hrow
    exact absurd (hname.symm.trans hid) (name_ne (Nat.ne_of_lt hk))
  · have hnone : jobsOf (toString s.world.shared.uuid) s.world.shared = [] :=
      List.map_eq_nil_iff.mp (shows_fresh hdated (le_refl _)).past
    have hmem : j ∈ jobsOf (toString s.world.shared.uuid) s.world.shared :=
      List.mem_filter.mpr ⟨hj, hof⟩
    rw [hnone] at hmem
    exact absurd hmem List.not_mem_nil

end Server

theorem eq_of_length_le_one {α : Type} {l : List α} (h : l.length ≤ 1) {x y : α} (hx : x ∈ l)
    (hy : y ∈ l) :
    x = y := by
  match l, h with
  | [z], _ => exact (List.mem_singleton.mp hx).trans (List.mem_singleton.mp hy).symm

/-- With a single recipient there is nothing to keep apart. -/
theorem paced_of_single {input : CreateInput} {args : CreateArgs}
    (hargs : normalize input = .ok args) (hsingle : args.recipients.length ≤ 1)
    (delaySeconds : Rat) : Paced input delaySeconds := by
  intro concurrency now as bs h s whole t hup j hj hof r hr r' hr' hjob hjob' hne
  obtain ⟨has, hbs⟩ := List.forall_mem_append.mp h
  have hcharted := charted_initial 0 concurrency now has
  obtain ⟨hn, hsized⟩ := sized_created hcharted.course.dated hup hargs
  have hwhole : t = run (step s (.call (.createSchedule input))) bs := play_append _ _ _
  have hregister : Register (originsOf t.world.shared) := by
    refine (charted_initial 0 concurrency now (List.forall_mem_append.mpr ⟨has, ?_⟩)).register
    refine List.forall_mem_cons.mpr ⟨?_, hbs⟩
    rintro _ ⟨⟩
    trivial
  have htotal : j.total = args.recipients.length := by
    rw [hwhole] at hj
    exact (sized_run hbs hn hsized).jobs j hj hof
  rw [← htotal, total_eq hregister hj] at hsingle
  have hmem : ∀ q ∈ t.world.shared.db.items, q.jobId = j.id → q ∈ t.world.shared.db.itemsOf j.id :=
    fun q hq hqj => List.mem_filter.mpr ⟨hq, decide_eq_true hqj⟩
  have hsame : r = r' := eq_of_length_le_one hsingle (hmem r hr hjob) (hmem r' hr' hjob')
  exact absurd (congrArg JobItem.id hsame) hne

section Together

variable {v : World}

structure Double (v : World) : Prop where
  distinct : Distinct v.shared
  slots : v.mem.semaphore.active + 2 ≤ v.mem.semaphore.maxConcurrent
  closed : v.mem.breaker.state = .closed
  running : v.mem.draining = false
  enabled : KillSwitch.outboundDisabled v.shared.db = false
  two : ∃ r ∈ v.shared.db.items, ∃ r' ∈ v.shared.db.items, r.id ≠ r'.id ∧
    claimable v.shared.db v.shared.now r = true ∧ claimable v.shared.db v.shared.now r' = true

theorem canAttempt_closed {now : Ms} {b : Breaker.CircuitBreaker} (h : b.state = .closed) :
    Breaker.canAttempt now b = (true, b) := by
  simp [Breaker.canAttempt, Breaker.takeProbe, h]

/-- Other items of jobs at work can still be taken up after a round. -/
theorem claimable_round {row r : JobItem} {u : World} (h : Round row v u) (hne : r.id ≠ row.id)
    (hr : r ∈ v.shared.db.items) (hclaimable : claimable v.shared.db v.shared.now r = true) :
    r ∈ u.shared.db.items ∧ claimable u.shared.db u.shared.now r = true := by
  refine ⟨(h.takes.rows r hne).mpr hr, ?_⟩
  obtain ⟨j, hj, hid, hstatus⟩ := claimable_job hclaimable
  obtain ⟨j', hj', hid', hstatus'⟩ := h.takes.jobs j hj hstatus
  simp only [claimable, Bool.and_eq_true, List.any_eq_true, decide_eq_true_eq] at hclaimable ⊢
  rw [h.ticked.now]
  exact ⟨hclaimable.1, j', hj', hid'.trans hid, hstatus'⟩

theorem ends_round {rounds : Nat} {Q : Unit → World → Prop} (hn : Distinct v.shared)
    (hslot : v.mem.semaphore.active < v.mem.semaphore.maxConcurrent)
    (hclosed : v.mem.breaker.state = .closed) {r : JobItem} (hr : r ∈ v.shared.db.items)
    (hclaimable : claimable v.shared.db v.shared.now r = true)
    (h : ∀ row u, Round row v u → Ends (tickLoop rounds) Q u) :
    Ends (tickLoop (rounds + 1)) Q v := by
  refine ends_tickLoop hn (fun hstop => ?_) (fun hnone _ => ?_)
    (fun row u _ hround => h row u hround)
  · rw [canAttempt_closed hclosed] at hstop
    obtain hfull | hrefused := hstop
    · exact absurd hslot (Nat.not_lt.mpr hfull)
    · cases hrefused
  · rw [nextClaimable_none.mp hnone r hr] at hclaimable
    cases hclaimable

theorem ends_double (h : Double v) :
    Ends tick (fun _ u => ∃ r ∈ v.shared.db.items, ∃ r' ∈ v.shared.db.items, r.id ≠ r'.id ∧
      r.id ∈ sends u.shared ∧ r'.id ∈ sends u.shared) v := by
  refine ends_tick (fun hoff => ?_) (fun _ _ => ?_)
  · obtain hoff | hoff := hoff
    · rw [h.running] at hoff
      cases hoff
    · rw [h.enabled] at hoff
      cases hoff
  · obtain ⟨r, hr, r', hr', hne, hclaimable, hclaimable'⟩ := h.two
    obtain ⟨n, hrounds⟩ := Nat.exists_eq_add_of_le (Nat.le_sub_of_add_le' h.slots)
    rw [hrounds, show 2 + n + 1 = n + 1 + 1 + 1 by omega]
    refine ends_round h.distinct (by have := h.slots; omega) h.closed hr hclaimable
      (fun row u hround => ?_)
    obtain ⟨q, hq, hqclaimable, hqne⟩ : ∃ q ∈ v.shared.db.items,
        claimable v.shared.db v.shared.now q = true ∧ q.id ≠ row.id := by
      by_cases hrow : r.id = row.id
      · exact ⟨r', hr', hclaimable', fun hsame => hne (hrow.trans hsame.symm)⟩
      · exact ⟨r, hr, hclaimable, hrow⟩
    obtain ⟨hq', hqclaimable'⟩ := claimable_round hround hqne hq hqclaimable
    have hactive : u.mem.semaphore =
        { v.mem.semaphore with active := v.mem.semaphore.active + 1 } :=
      congrArg Bench.semaphore hround.bench
    have hclosed : u.mem.breaker.state = .closed := by
      rw [hround.breaker, canAttempt_closed h.closed]
      exact h.closed
    refine ends_round hround.distinct ?_ hclosed hq' hqclaimable' (fun row' u' hround' => ?_)
    · rw [hactive]
      exact h.slots
    · obtain ⟨hrow, _⟩ := nextClaimable_mem hround.claimed
      obtain ⟨hrow', hclaimed'⟩ := nextClaimable_mem hround'.claimed
      have hother : row'.id ≠ row.id := fun hsame =>
        hround.taken row' hrow' hsame (claimable_queued hclaimed')
      have hsends := hround'.sends.trans (congrArg (row'.id :: ·) hround.sends)
      refine wp_mono (fun _ t ht => ?_) (ends_always (P := fun t => Further u' t)
        (fun _ _ ha hab => further_trans ha hab) (further_tickLoop _) (further_refl u'))
      obtain ⟨new, hnew⟩ := ht
      refine ⟨row, hrow, row', (hround.takes.rows row' hother).mp hrow', hother.symm, ?_, ?_⟩
      · rw [hnew, hsends]
        simp
      · rw [hnew, hsends]
        simp

end Together

section Fired

variable {v : World}

structure Fired (id : Id) (a : CreateJobArgs) (v u : World) : Prop where
  mem : u.mem = v.mem
  now : u.shared.now = v.shared.now
  settings : u.shared.db.settings = v.shared.db.settings
  sends : sends u.shared = sends v.shared
  jobs : u.shared.db.jobs = [newJob id v.shared.now a]
  items : u.shared.db.items = newItems id v.shared.now (id + 1) 0 a.items
  distinct : Distinct u.shared

theorem fired_callCreateJob {a : CreateJobArgs} (hjobs : v.shared.db.jobs = [])
    (hitems : v.shared.db.items = [])
    (hgiven : ∀ item ∈ a.items, item.number.isSome ∧ item.message.isSome) :
    Ends (callCreateJob a) (fun result u => (∃ r, result = .ok r) ∧
      Fired v.shared.uuid a v u) v := by
  have hselect : Ends (selectKey a.idempotencyKey)
      (fun existing u => existing = none ∧ u = v) v := by
    cases a.idempotencyKey with
    | none => exact ⟨rfl, rfl⟩
    | some k =>
      simp only [selectKey]
      split
      · exact ⟨rfl, rfl⟩
      · rintro _ rfl
        exact ⟨trivial, by simp [hjobs], rfl⟩
  have htransaction : createTransaction v.shared.uuid v.shared.now a
      (v.shared.uuid + 1) v.shared.db = .ok _ :=
    createTransaction_of (by simp [hjobs]) (by simp [hjobs]) hgiven (by simp [hitems])
  refine wp_seq (Q := fun result u => (∃ r, result = .ok r) ∧ Fired v.shared.uuid a v u) ?_
    (fun result u hu => ?_)
  · refine wp_seq hselect ?_
    rintro _ _ ⟨rfl, rfl⟩
    simp only [randomUUID, dateNow, insertJobAndItems, recordEvent, wp_bind, wp_update, wp_query,
      wp_exec, forall_eq', true_and, htransaction, Except.map]
    refine wp_mono (fun job u hu => ?_) (Lifecycle.ends_getJob _)
    obtain ⟨rfl, _⟩ := hu
    obtain ⟨_, _, _, _, hdistinct⟩ := createTransaction_ok htransaction
    refine ⟨⟨_, rfl⟩, rfl, rfl, rfl, sends_cons rfl _, ?_, ?_, hdistinct ?_⟩
    · simp [hjobs]
    · simp [hitems]
    · simp [hitems]
  · obtain ⟨⟨r, rfl⟩, hfired⟩ := hu
    rintro _ rfl
    refine ⟨trivial, ⟨r, rfl⟩, hfired.mem, hfired.now, hfired.settings, ?_, hfired.jobs,
      hfired.items, hfired.distinct⟩
    exact (sends_cons rfl u.shared).trans hfired.sends

theorem fired_runTickIfReady {row : Schedule} (hrow : v.shared.db.schedules = [row])
    (hdue : due v.shared.now row = true) (hjobs : v.shared.db.jobs = [])
    (hitems : v.shared.db.items = []) :
    Ends (runTickIfReady true) (fun _ u => Fired v.shared.uuid (fireArgs row) v u) v := by
  have hfire : Ends (fireDue row) (fun _ u => Fired v.shared.uuid (fireArgs row) v u) v := by
    refine wp_seq (fired_callCreateJob hjobs hitems ?_) ?_
    · simp [fireArgs]
    · rintro _ u ⟨⟨r, rfl⟩, h⟩
      simp only [dateNow, updateSchedules, wp_bind, wp_query, wp_update, wp_pure,
        forall_eq', true_and]
      exact ⟨h.mem, h.now, h.settings, h.sends, h.jobs, h.items, h.distinct⟩
  simp only [Ends, runTickIfReady, Bool.not_true, Bool.false_eq_true, ↓reduceIte, dateNow,
    wp_bind, wp_query, forall_eq', true_and, hrow, List.filter_cons_of_pos hdue,
    List.filter_nil, each]
  exact wp_mono (fun _ _ h => h) hfire

end Fired

theorem double_fired {id : Id} {a : CreateJobArgs} {v u : World} (h : Fired id a v u)
    (htwo : 1 < a.items.length)
    (hslots : v.mem.semaphore.active + 2 ≤ v.mem.semaphore.maxConcurrent)
    (hclosed : v.mem.breaker.state = .closed) (hrunning : v.mem.draining = false)
    (henabled : KillSwitch.outboundDisabled v.shared.db = false) : Double u := by
  refine ⟨h.distinct, h.mem ▸ hslots, h.mem ▸ hclosed, h.mem ▸ hrunning, ?_, ?_⟩
  · rw [KillSwitch.outboundDisabled, KillSwitch.setting, h.settings]
    exact henabled
  · have hrows := h.items
    cases hitems : a.items with
    | nil => simp [hitems] at htwo
    | cons item rest =>
      cases rest with
      | nil => simp [hitems] at htwo
      | cons item' rest =>
        rw [hitems, newItems, newItems] at hrows
        refine ⟨_, hrows ▸ List.mem_cons_self, _, hrows ▸ List.mem_cons_of_mem _ List.mem_cons_self,
          ?_, ?_, ?_⟩
        · simp [newItem]
        · simp [claimable, h.now, h.jobs, newItem, newJob]
        · simp [claimable, h.now, h.jobs, newItem, newJob]

def awaiting (args : CreateArgs) : World where
  shared := { now := args.runAt, db.schedules := [newSchedule 0 args.runAt args], uuid := 1 }
  mem := { pid := 0, semaphore := { maxConcurrent := 2 } }

def firing (input : CreateInput) : List Action :=
  [.call (.createSchedule input), .call (.runTickIfReady true)]

theorem run_firing {input : CreateInput} {args : CreateArgs} (hargs : normalize input = .ok args) :
    run (initial 2 args.runAt) (firing input) =
    ⟨true, ((runTickIfReady true).run (awaiting args)).2⟩ := by
  have hcreated : step (initial 2 args.runAt) (.call (.createSchedule input)) =
      ⟨true, awaiting args⟩ :=
    congrArg (Server.mk true) (step_createSchedule (s := initial 2 args.runAt) rfl hargs)
  exact congrArg (fun u => step u (.call (.runTickIfReady true))) hcreated

theorem fired_firing {input : CreateInput} {args : CreateArgs}
    (hargs : normalize input = .ok args) :
    Fired 1 (fireArgs (newSchedule 0 args.runAt args)) (awaiting args)
      (run (initial 2 args.runAt) (firing input)).world := by
  have hdue : due args.runAt (newSchedule 0 args.runAt args) = true := by simp [due, newSchedule]
  rw [run_firing hargs]
  exact wp_run (fired_runTickIfReady (v := awaiting args) rfl hdue rfl rfl)

/-- A tick that follows at once starts the sends to two recipients at one time. -/
theorem together {input : CreateInput} {args : CreateArgs} (hargs : normalize input = .ok args)
    (htwo : 1 < args.recipients.length) :
    let s := run (initial 2 args.runAt) (firing input)
    let t := run (initial 2 args.runAt) (firing input ++ [.call .tick])
    ∃ j ∈ t.world.shared.db.jobs, ofSchedule (toString 0) j = true ∧
      ∃ r ∈ t.world.shared.db.items, ∃ r' ∈ t.world.shared.db.items,
        r.jobId = j.id ∧ r'.jobId = j.id ∧ r.id ≠ r'.id ∧
        sends s.world.shared = [] ∧ r.id ∈ sends t.world.shared ∧ r'.id ∈ sends t.world.shared := by
  intro s t
  have hfired : Fired 1 (fireArgs (newSchedule 0 args.runAt args)) (awaiting args) s.world :=
    fired_firing hargs
  have hdouble : Double s.world :=
    double_fired hfired (by simpa [fireArgs, newSchedule] using htwo) (le_refl 2) rfl rfl rfl
  have hup : s.up = true := congrArg Server.up (run_firing hargs)
  have htick : t.world = (tick.run s.world).2 := by
    have hstep : t = step s (.call .tick) := play_append _ _ _
    simp [hstep, step, hup, Call.code]
  obtain ⟨⟨r, hr, r', hr', hne, hsent, hsent'⟩, hstanding⟩ :=
    wp_run (wp_and (ends_double hdouble) (Standing.wp_tick hdouble.distinct))
  rw [← htick] at hsent hsent' hstanding
  have hrow : ∀ q ∈ s.world.shared.db.items, ∃ q' ∈ t.world.shared.db.items, q'.id = q.id ∧
      q'.jobId = 1 := by
    intro q hq
    obtain ⟨q', hq', horigin, _⟩ := item_standing hstanding.standing hq
    refine ⟨q', hq', congrArg ItemOrigin.id horigin, (congrArg ItemOrigin.jobId horigin).trans ?_⟩
    exact (mem_newItems (hfired.items ▸ hq)).1
  obtain ⟨j, hj, horigin, _⟩ :=
    job_standing hstanding.standing (hfired.jobs ▸ List.mem_singleton_self _)
  obtain ⟨q, hq, hqid, hqjob⟩ := hrow r hr
  obtain ⟨q', hq', hqid', hqjob'⟩ := hrow r' hr'
  have hjob : j.id = 1 := congrArg JobOrigin.id horigin
  have htype : j.sourceType = some "schedule" := congrArg JobOrigin.sourceType horigin
  have hsource : j.sourceId = some (toString 0) := congrArg JobOrigin.sourceId horigin
  refine ⟨j, hj,
    by
      simp [ofSchedule, htype, hsource], q, hq, q', hq', hqjob.trans hjob.symm,
    hqjob'.trans hjob.symm, ?_, hfired.sends, hqid ▸ hsent, hqid' ▸ hsent'⟩
  rwa [hqid, hqid']

theorem normalize_delay {input : CreateInput} {args : CreateArgs}
    (hargs : normalize input = .ok args) :
    0 ≤ args.delaySeconds := by
  simp only [Scheduler.normalize] at hargs
  split at hargs
  · cases hargs
  · split at hargs
    · cases hargs
    · cases hargs
      exact le_max_left _ _

/-- A delay between recipients is not kept. -/
theorem not_paced {input : CreateInput} {args : CreateArgs} (hargs : normalize input = .ok args)
    (htwo : 1 < args.recipients.length) {delaySeconds : Rat} (hdelay : 0 < delaySeconds) :
    ¬ Paced input delaySeconds := by
  intro hpaced
  obtain ⟨j, hj, hof, r, hr, r', hr', hjob, hjob', hne, hnone, hsent, hsent'⟩ := together hargs htwo
  have hfirst : ∀ i ∈ sends (run (initial 2 args.runAt) (firing input ++ [.call .tick])).world.shared,
      FirstSend (initial 2 args.runAt) (firing input ++ [.call .tick]) i
        (run (initial 2 args.runAt) (firing input)).world.shared.now := by
    refine fun i hi => ⟨firing input, .call .tick, [], rfl, ?_, hi, rfl⟩
    rw [hnone]
    exact List.not_mem_nil
  have hgenuine : ∀ a ∈ ([] ++ [.call (.runTickIfReady true), .call .tick] : List Action),
      Genuine a := by decide
  have hapart := hpaced 2 args.runAt [] _ hgenuine rfl j hj hof r hr r' hr' hjob hjob' hne _ _
    (hfirst r.id hsent) (hfirst r'.id hsent')
  rw [sub_self, Int.natAbs_zero, Nat.cast_zero] at hapart
  linarith

/-- The first sends to the recipients of an occurrence are the delay apart exactly
if there is no delay or no second recipient. -/
theorem recipients_kept_apart (input : CreateInput) (args : CreateArgs)
    (hargs : normalize input = .ok args) :
    Paced input args.delaySeconds ↔ args.delaySeconds = 0 ∨ args.recipients.length ≤ 1 := by
  constructor
  · intro hpaced
    by_contra hnot
    obtain ⟨hdelay, hmany⟩ := not_or.mp hnot
    have hpositive : 0 < args.delaySeconds :=
      lt_of_le_of_ne (normalize_delay hargs) (Ne.symm hdelay)
    exact not_paced hargs (Nat.lt_of_not_le hmany) hpositive hpaced
  · rintro (hzero | hsingle)
    · intro _ _ _ _ _ s whole t _ _ _ _ _ _ _ _ _ _ _ u u' _ _
      rw [hzero, mul_zero]
      exact Nat.cast_nonneg _
    · exact paced_of_single hargs hsingle _

def toNumbers (numbers : List String) : CreateInput :=
  { recipients := numbers.map (fun number => ⟨some number, none⟩), message := "hello",
    runAt := some 0
    delaySeconds := 2, rule := none }

theorem recipients_kept_apart_single : Paced (toNumbers ["1"]) 2 :=
  (recipients_kept_apart (toNumbers ["1"]) ⟨[⟨"1", ""⟩], "hello", 0, 2, none, none,
    by decide⟩ rfl).mpr
    (Or.inr (by decide))

theorem recipients_kept_apart_fails : ¬ Paced (toNumbers ["1", "2"]) 2 :=
  have hargs : normalize (toNumbers ["1", "2"]) =
      .ok ⟨[⟨"1", ""⟩, ⟨"2", ""⟩], "hello", 0, 2, none, none, by decide⟩ := rfl
  not_paced hargs (by decide) (by norm_num)

end WhatsappTester.Jobs.Pacing
