import WhatsappTester.Jobs.Sending

namespace WhatsappTester.Jobs.Probe

open Schema State Atomic.Program Atomic.Runs Statements JobService Claiming Worker
  Ledger Process Solo
open Standing Sending
open Breaker hiding tryAcquire release recordSuccess recordFailure

structure Bench where
  breaker : CircuitBreaker
  semaphore : Semaphore
  inFlight : List Task

def bench (w : World) : Bench := ⟨w.mem.breaker, w.mem.semaphore, w.mem.inFlight⟩

def Rest (v v' : World) : Prop := bench v' = bench v

theorem rest_aside : Lenient Rest := fun _ _ h => by simp only [Rest, bench, h.mem]

theorem rest_web {v v' : World} (h : Web v v') : Rest v v' := by
  have hbreaker : v'.mem.breaker = v.mem.breaker := congrArg JobSide.breaker h.jobSide
  have hsemaphore : v'.mem.semaphore = v.mem.semaphore := congrArg JobSide.semaphore h.jobSide
  have hflight : v'.mem.inFlight = v.mem.inFlight := congrArg JobSide.inFlight h.jobSide
  simp only [Rest, bench, hbreaker, hsemaphore, hflight]

theorem rest_updateJobs (p : Job → Bool) (f : Job → Job) : Always Rest (updateJobs p f) :=
  always_update _ (fun _ => rfl)

theorem rest_updateSchedules (p : Schedule → Bool) (f : Schedule → Schedule) :
    Always Rest (updateSchedules p f) := always_update _ (fun _ => rfl)

theorem rest_updateItemsRecord (p : JobItem → Bool) (f : JobItem → JobItem) (e : World → Event) :
    Always Rest (updateItemsRecord p f e) := always_update _ (fun _ => rfl)

theorem rest_callCreateJob (a : CreateJobArgs) : Always Rest (callCreateJob a) := by
  refine always_callCreateJob rest_aside.tolerant a (fun id now => always_update _ (fun v => ?_)) ?_
  · cases createTransaction id now a v.shared.uuid v.shared.db <;> rfl
  · intro result v
    cases result <;> rfl

theorem rest_recordOutcome_end (task : Task) :
    (∀ nextAttemptAt category detail,
      Always Rest (scheduleRetry task.item.id nextAttemptAt category detail)) ∧
    ∀ status category detail, Always Rest (markItemTerminal task.item.id status category detail) :=
  ⟨fun _ _ _ => always_scheduleRetry rest_aside.tolerant _ _ _ _
    (fun _ => rest_updateItemsRecord _ _ _), fun _ _ _ =>
      always_markItemTerminal rest_aside.tolerant _ (fun _ => rest_updateItemsRecord _ _ _)
      (fun _ _ => rest_updateJobs _ _)⟩

theorem rest_settle (jobId : Id) : Always Rest (settle jobId) :=
  always_settle jobId (always_checkJobCompletion rest_aside jobId
    (fun _ _ _ => rest_updateJobs _ _))
    (fun view => always_onJobSettled rest_aside view rest_updateSchedules)

theorem rest_call {c : Call} (htick : c ≠ .tick) (hcomplete : ∀ i o r, c ≠ .complete i o r) :
    Always Rest c.code := by
  have hweb : ∀ {p : Code Unit}, Always Web p → Always Rest p :=
    fun h => always_mono (fun _ _ => rest_web) h
  cases c with
  | tick => exact absurd rfl htick
  | complete i o r => exact absurd rfl (hcomplete i o r)
  | createJob args => exact always_bind (rest_callCreateJob args) (fun _ => always_pure ())
  | cancelJob id actor =>
    refine always_bind (always_cancelJob rest_aside.tolerant id actor ?_ ?_)
      (fun _ => always_pure ())
    · exact fun _ => rest_updateJobs _ _
    · exact fun _ => rest_updateItemsRecord _ _ _
  | pauseJob id actor =>
    exact always_bind (always_changeStatus rest_aside.tolerant id _ (movedJob .paused)
      (fun _ => rfl)
      (fun _ => rest_updateJobs _ _)) (fun _ => always_pure ())
  | resumeJob id actor =>
    exact always_bind (always_changeStatus rest_aside.tolerant id _ (movedJob .queued)
      (fun _ => rfl)
      (fun _ => rest_updateJobs _ _)) (fun _ => always_pure ())
  | createSchedule input =>
    exact always_create rest_aside.tolerant input (fun _ _ _ => always_exec (fun _ => rfl))
  | removeSchedule id => exact always_exec (fun _ => rfl)
  | runTickIfReady ready =>
    exact always_runTickIfReady rest_aside.tolerant rest_callCreateJob rest_updateSchedules ready
  | setOutboundDisabled disabled actor reason => exact hweb (web_setOutboundDisabled _ _ _ _)
  | drainAndStop => exact always_exec (fun _ => rfl)
  | request r ready => exact hweb (web_request r ready)
  | answered id answer ready => exact hweb (web_answered id answer ready)
  | delayOver id ready => exact hweb (web_delayOver id ready)
  | sweepExpiredIdempotencyKeys => exact hweb web_sweepExpiredIdempotencyKeys

/-- Each task in flight has its slot, and a half-open breaker waits for one of them. -/
structure Fit (m : Memory) : Prop where
  slots : m.semaphore.active = m.inFlight.length
  probed : m.breaker.state = .halfOpen → m.inFlight ≠ []

theorem fit_of_bench {v v' : World} (h : Fit v.mem) (hb : bench v' = bench v) : Fit v'.mem := by
  have hbreaker : v'.mem.breaker = v.mem.breaker := congrArg Bench.breaker hb
  have hsemaphore : v'.mem.semaphore = v.mem.semaphore := congrArg Bench.semaphore hb
  have hflight : v'.mem.inFlight = v.mem.inFlight := congrArg Bench.inFlight hb
  exact ⟨by rw [hsemaphore, hflight]; exact h.slots, by rw [hbreaker, hflight]; exact h.probed⟩

/-- When the cool-down is over and nothing is in flight, there is an item to probe with. -/
def Probeable (v : World) : Prop :=
  v.mem.inFlight = [] → v.mem.breaker.state = .open → Cooled v.shared.now v.mem.breaker →
    nextClaimable v.shared.db v.shared.now ≠ none

section Tick

variable {v : World}

theorem rest_markItemRunning (i : Id) : Always Rest (markItemRunning i) :=
  always_markItemRunning rest_aside.tolerant i (fun _ => always_update _ (fun _ => rfl))
    (fun _ _ => rest_updateJobs _ _)

theorem rest_recordAttemptStart (i : Id) (n : Nat) : Always Rest (recordAttemptStart i n) :=
  always_recordAttemptStart rest_aside i n (fun _ => rest_updateItemsRecord _ _ _)

theorem ends_processItem (item : JobItem) (hn : Distinct v.shared) :
    Ends (processItem item) (fun _ v' => Distinct v'.shared ∧
      sends v'.shared = item.id :: sends v.shared ∧ bench v' =
      { bench v with inFlight := v.mem.inFlight ++ [⟨item, item.attemptCount + 1⟩] }) v := by
  have hrest : ∀ {p : Code Unit} {u : World}, Always Rest p → Always Unsent p → Always Write p →
      Distinct u.shared ∧ sends u.shared = sends v.shared ∧ bench u = bench v →
      Ends p (fun _ u => Distinct u.shared ∧ sends u.shared = sends v.shared ∧
        bench u = bench v) u := by
    intro p u hp hp' hp'' hu
    refine ends_always ?_ (always_and hp (always_and hp' hp'')) hu
    exact fun a b ha hab => ⟨distinct_of_origins hab.2.2.origins ha.1, hab.2.1.trans ha.2.1,
      hab.1.trans ha.2.2⟩
  refine wp_seq (hrest (rest_markItemRunning _) (unsent_markItemRunning _) (write_markItemRunning _)
    ⟨hn, rfl, rfl⟩)
    (fun _ u hu => ?_)
  refine wp_seq (hrest (rest_recordAttemptStart _ _) (unsent_recordAttemptStart _ _)
    (write_recordAttemptStart _ _) hu) (fun _ u hu => ?_)
  rintro _ rfl
  obtain ⟨hn, hsends, hb⟩ := hu
  have hbreaker : u.mem.breaker = v.mem.breaker := congrArg Bench.breaker hb
  have hsemaphore : u.mem.semaphore = v.mem.semaphore := congrArg Bench.semaphore hb
  have hflight : u.mem.inFlight = v.mem.inFlight := congrArg Bench.inFlight hb
  refine ⟨trivial, hn, ?_, by simp only [bench, hbreaker, hsemaphore, hflight]⟩
  rw [← hsends]
  exact List.filterMap_cons_some rfl

/-- A statement about one item: it does not queue it, and leaves the jobs that are at work at work. -/
structure Takes (i : Id) (v v' : World) : Prop where
  rows : ∀ r : JobItem, r.id ≠ i → (r ∈ v'.shared.db.items ↔ r ∈ v.shared.db.items)
  taken : (∀ r ∈ v.shared.db.items, r.id = i → r.status ≠ .queued) →
    ∀ r ∈ v'.shared.db.items, r.id = i → r.status ≠ .queued
  jobs : ∀ j ∈ v.shared.db.jobs, j.status ∈ [JobStatus.queued, .running] →
    ∃ j' ∈ v'.shared.db.jobs, j'.id = j.id ∧ j'.status ∈ [JobStatus.queued, .running]

theorem takes_aside {i : Id} : Lenient (Takes i) := by
  intro v v' h
  have hitems : v'.shared.db.items = v.shared.db.items := congrArg Custody.items h.custody
  exact ⟨fun r _ =>
    by
      rw [hitems], fun htaken => hitems ▸ htaken, fun j hj hstatus =>
        ⟨j, h.jobs ▸ hj, rfl, hstatus⟩⟩

theorem takes_trans {i : Id} {u v w : World} (h : Takes i u v) (h' : Takes i v w) :
    Takes i u w := by
  refine ⟨fun r hr => (h'.rows r hr).trans (h.rows r hr),
    fun htaken => h'.taken (h.taken htaken), ?_⟩
  intro j hj hstatus
  obtain ⟨j', hj', hid, hstatus'⟩ := h.jobs j hj hstatus
  obtain ⟨j'', hj'', hid', hstatus''⟩ := h'.jobs j' hj' hstatus'
  exact ⟨j'', hj'', hid'.trans hid, hstatus''⟩

theorem rows_updateItem {p : JobItem → Bool} {f : JobItem → JobItem} {i : Id}
    (hp : ∀ r, p r → r.id = i) (hid : ∀ r, (f r).id = r.id) {r : JobItem} (hne : r.id ≠ i)
    (rows : List JobItem) :
    r ∈ Atomic.Table.update p f rows ↔ r ∈ rows := by
  rw [Atomic.Table.mem_update]
  constructor
  · rintro ⟨r₀, hr₀, rfl⟩
    split at hne
    case isTrue hr => exact absurd ((hid r₀).trans (hp r₀ hr)) hne
    case isFalse hr => rwa [if_neg hr]
  · exact fun hr => ⟨r, hr, if_neg (fun hpr => hne (hp r hpr))⟩

theorem takes_updateItem (i : Id) {f : JobItem → JobItem} (hid : ∀ r, (f r).id = r.id)
    (hstatus : ∀ r : JobItem, r.status ≠ .queued → (f r).status ≠ .queued) (v : World)
    (t : List Event) :
    Takes i v { v with
      shared.db.items := Atomic.Table.update (fun r => decide (r.id = i)) f v.shared.db.items
      shared.trace := t } := by
  refine ⟨fun r hr => rows_updateItem (fun _ => of_decide_eq_true) hid hr _,
    fun htaken r hr hri => ?_, fun j hj hj' => ⟨j, hj, rfl, hj'⟩⟩
  obtain ⟨r₀, hr₀, rfl⟩ := Atomic.Table.mem_update.mp hr
  by_cases hid₀ : r₀.id = i
  · simp only [hid₀, decide_true, ↓reduceIte]
    exact hstatus r₀ (htaken r₀ hr₀ hid₀)
  · simp [hid₀] at hri

theorem takes_processItem (item : JobItem) : Always (Takes item.id) (processItem item) := by
  refine always_processItem item ?_ (fun n => ?_) (fun n => ?_)
  · refine always_markItemRunning takes_aside.tolerant _ (fun now => ?_) (fun id now => ?_)
    · exact always_update _ (fun v => takes_updateItem item.id (f := runningItem now) (fun _ => rfl)
        (fun _ _ => by simp [runningItem]) v v.shared.trace)
    · refine always_update _ (fun v =>
        ⟨fun _ _ => Iff.rfl, fun htaken => htaken, fun j hj hstatus => ?_⟩)
      refine ⟨_, Atomic.Table.mem_update.mpr ⟨j, hj, rfl⟩, ?_, ?_⟩
      · split <;> rfl
      · split
        · simp [startedJob]
        · exact hstatus
  · exact always_recordAttemptStart takes_aside _ n (fun now => always_update _ (fun v =>
      takes_updateItem item.id (f := attemptedItem n now) (fun _ => rfl) (fun _ h => h) v _))
  · exact always_exec (fun _ =>
      ⟨fun _ _ => Iff.rfl, fun htaken => htaken, fun j hj hstatus => ⟨j, hj, rfl, hstatus⟩⟩)

theorem takes_claimRow (row : JobItem) (now : Ms) (v : World) :
    Takes row.id v (claimRow row now v) ∧ ∀ r ∈ (claimRow row now v).shared.db.items,
    r.id = row.id → r.status ≠ .queued := by
  have htaken : ∀ r ∈ (claimRow row now v).shared.db.items, r.id = row.id → r.status ≠ .queued := by
    intro r hr hid
    obtain ⟨r₀, hr₀, rfl⟩ := Atomic.Table.mem_update.mp hr
    by_cases hqueued : r₀.status = .queued
    · by_cases hid₀ : r₀.id = row.id
      · simp [hid₀, hqueued, claimedItem]
      · simp [hid₀] at hid
    · simp [hqueued]
  refine ⟨⟨fun r hr => ?_, fun _ => htaken, fun j hj hstatus => ⟨j, hj, rfl, hstatus⟩⟩, htaken⟩
  exact rows_updateItem (f := claimedItem v.mem.pid now) (fun r hr => (of_decide_eq_true hr).1)
    (fun _ => rfl) hr _

theorem ends_taken (row : JobItem) (v : World) :
    Ends (processItem (claimedItem v.mem.pid v.shared.now row))
      (fun _ u => Takes row.id v u ∧ ∀ r ∈ u.shared.db.items, r.id = row.id → r.status ≠ .queued)
    (claimRow row v.shared.now v) :=
  ends_always (P := fun u => Takes row.id v u ∧ ∀ r ∈ u.shared.db.items, r.id = row.id →
    r.status ≠ .queued)
    (fun _ _ ha hab => ⟨takes_trans ha.1 hab, hab.taken ha.2⟩)
    (takes_processItem (claimedItem v.mem.pid v.shared.now row)) (takes_claimRow row _ v)

structure Round (row : JobItem) (v u : World) : Prop where
  ticked : Ticked v u
  claimed : nextClaimable v.shared.db v.shared.now = some row
  distinct : Distinct u.shared
  sends : sends u.shared = row.id :: sends v.shared
  takes : Takes row.id v u
  taken : ∀ r ∈ u.shared.db.items, r.id = row.id → r.status ≠ .queued
  bench : bench u = ⟨(canAttempt v.shared.now v.mem.breaker).2,
    { v.mem.semaphore with active := v.mem.semaphore.active + 1 },
    v.mem.inFlight ++ [⟨claimedItem v.mem.pid v.shared.now row, row.attemptCount + 1⟩]⟩

theorem Round.flight {row : JobItem} {u : World} (h : Round row v u) : u.mem.inFlight =
    v.mem.inFlight ++ [⟨claimedItem v.mem.pid v.shared.now row, row.attemptCount + 1⟩] :=
  congrArg Bench.inFlight h.bench

theorem Round.breaker {row : JobItem} {u : World} (h : Round row v u) :
    u.mem.breaker = (canAttempt v.shared.now v.mem.breaker).2 := congrArg Bench.breaker h.bench

theorem ends_tickLoop (hn : Distinct v.shared) {rounds : Nat} {Q : Unit → World → Prop}
    (hstop : v.mem.semaphore.maxConcurrent ≤ v.mem.semaphore.active ∨
      (canAttempt v.shared.now v.mem.breaker).1 = false → Q () v)
    (hnone : nextClaimable v.shared.db v.shared.now = none →
      (canAttempt v.shared.now v.mem.breaker).1 = true →
      Q () { v with mem.breaker := (canAttempt v.shared.now v.mem.breaker).2 })
    (hsome : ∀ row u, (canAttempt v.shared.now v.mem.breaker).1 = true → Round row v u →
      Ends (tickLoop rounds) Q u) : Ends (tickLoop (rounds + 1)) Q v := by
  rw [tickLoop]
  simp only [Ends, Worker.tryAcquire, Worker.canAttempt, wp_bind, wp_update, forall_eq', true_and]
  by_cases hslot : v.mem.semaphore.active < v.mem.semaphore.maxConcurrent
  case neg =>
    rw [tryAcquire_refused (Nat.not_lt.mp hslot)]
    exact hstop (Or.inl (Nat.not_lt.mp hslot))
  case pos =>
    rw [tryAcquire_granted hslot]
    simp only [↓reduceIte, wp_bind, wp_update, forall_eq', true_and]
    cases hgranted : (canAttempt v.shared.now v.mem.breaker).1 with
    | false =>
      rintro _ rfl
      refine ⟨trivial, ?_⟩
      rw [canAttempt_refused hgranted]
      exact hstop (Or.inr hgranted)
    | true =>
      simp only [↓reduceIte]
      refine (wp_bind ..).mpr (wp_claimNextItem ?_ trivial ?_ ?_)
      · exact hn
      · intro hrow
        rintro _ rfl
        exact ⟨trivial, hnone hrow hgranted⟩
      · intro row hrow
        refine ⟨trivial, ?_⟩
        obtain ⟨hmem, hclaimable⟩ := nextClaimable_mem hrow
        have hopen : ∀ m : Memory, Open row.id (⟨v.shared, m⟩ : World).shared := by
          intro _ r hr hid
          rw [Atomic.Table.eq_of_key hn hr hmem hid, claimable_queued hclaimable]
          rfl
        have heven := even_claimRow row v.shared.now { v with
          mem.semaphore := { v.mem.semaphore with active := v.mem.semaphore.active + 1 }
          mem.breaker := (canAttempt v.shared.now v.mem.breaker).2 }
        have hprocess :=
          wp_processItem (claimedItem v.mem.pid v.shared.now row) (ticked_of_even heven)
          (open_even (hopen _) heven)
        have htakes := ends_taken row { v with
          mem.semaphore := { v.mem.semaphore with active := v.mem.semaphore.active + 1 }
          mem.breaker := (canAttempt v.shared.now v.mem.breaker).2 }
        refine wp_seq
          (wp_and (wp_and (wp_weaken (fun _ _ _ => trivial) (fun _ _ ht => ht) hprocess) htakes)
          (ends_processItem _ ?_)) (fun _ u hu => hsome row u hgranted ?_)
        · rw [Distinct, claimRow, Atomic.Table.map_update (by exact fun _ _ => rfl)]
          exact hn
        · obtain ⟨⟨hticked, htakes, htaken⟩, hdistinct, hsends, hb⟩ := hu
          exact ⟨⟨⟨hticked.now, hticked.pid, hticked.slots, hticked.uuid⟩, hticked.standing,
            hticked.flight⟩, hrow, hdistinct,
            hsends.trans (congrArg (row.id :: ·) (unsent_claimRow row _ _)),
            ⟨htakes.rows, htakes.taken, htakes.jobs⟩, htaken, hb⟩

theorem fit_tickLoop (rounds : Nat) (hn : Distinct v.shared) (h : Fit v.mem) (hp : Probeable v) :
    Ends (tickLoop rounds) (fun _ v' => Fit v'.mem) v := by
  induction rounds generalizing v with
  | zero => exact h
  | succ rounds ih =>
    refine ends_tickLoop hn (fun _ => h) ?_ ?_
    · intro hrow _
      refine ⟨h.slots, fun hhalf => ?_⟩
      obtain hhalf | ⟨hopen, hcooled⟩ := canAttempt_halfOpen hhalf
      · exact h.probed hhalf
      · exact fun hnil => hp hnil hopen hcooled hrow
    · intro row u _ hround
      have hactive : u.mem.semaphore.active = v.mem.semaphore.active + 1 :=
        congrArg (fun b => b.semaphore.active) hround.bench
      have hne : u.mem.inFlight ≠ [] := by simp [hround.flight]
      refine ih hround.distinct ⟨?_, fun _ => hne⟩ (fun hnil => absurd hnil hne)
      rw [hactive, h.slots, hround.flight, List.length_append, List.length_singleton]

theorem flight_tickLoop (rounds : Nat) :
    Always (fun v v' : World => ∀ t ∈ v.mem.inFlight, t ∈ v'.mem.inFlight) (tickLoop rounds) := by
  have hrest : ∀ v v', Rest v v' → ∀ t ∈ v.mem.inFlight, t ∈ v'.mem.inFlight := by
    intro v v' h t ht
    have hflight : v'.mem.inFlight = v.mem.inFlight := congrArg Bench.inFlight h
    rwa [hflight]
  refine always_tickLoop ?_ ?_ ?_ rounds
  · intro v v' h t ht
    have hflight : v'.mem.inFlight = v.mem.inFlight := congrArg Custody.inFlight h.custody
    rwa [hflight]
  · refine always_mono hrest
      (always_claimNextItem rest_aside.tolerant (fun now => always_update _ (fun v => ?_)))
    cases nextClaimable v.shared.db now <;> rfl
  · intro item
    refine always_processItem item (always_mono hrest (rest_markItemRunning _))
      (fun n => always_mono hrest (rest_recordAttemptStart _ n))
      (fun n => always_exec (fun v => ?_))
    exact fun t ht => List.mem_append_left _ ht

theorem ends_tick {Q : Unit → World → Prop}
    (hoff : v.mem.draining = true ∨ KillSwitch.outboundDisabled v.shared.db = true → Q () v)
    (hloop : v.mem.draining = false → KillSwitch.outboundDisabled v.shared.db = false →
      Ends (tickLoop (v.mem.semaphore.maxConcurrent - v.mem.semaphore.active + 1)) Q v) : Ends
        tick Q v := by
  simp only [Ends, tick, KillSwitch.isOutboundDisabled, wp_bind, wp_query, forall_eq', true_and]
  cases hdraining : v.mem.draining with
  | true => exact hoff (Or.inl hdraining)
  | false =>
    simp only [Bool.false_eq_true, ↓reduceIte, wp_bind, wp_query, forall_eq', true_and]
    cases henabled : KillSwitch.outboundDisabled v.shared.db with
    | true => exact hoff (Or.inr henabled)
    | false =>
      simp only [Bool.false_eq_true, ↓reduceIte, wp_bind, wp_query, forall_eq', true_and]
      exact hloop hdraining henabled

theorem fit_tick (hn : Distinct v.shared) (h : Fit v.mem)
    (hp : v.mem.draining = false → KillSwitch.outboundDisabled v.shared.db = false → Probeable v) :
    Ends tick (fun _ v' => Fit v'.mem) v :=
  ends_tick (fun _ => h) (fun hdraining henabled => fit_tickLoop _ hn h (hp hdraining henabled))

theorem claims_tick (hn : Distinct v.shared) (h : Fit v.mem)
    (hroom : 0 < v.mem.semaphore.maxConcurrent) (hdraining : v.mem.draining = false)
    (henabled : KillSwitch.outboundDisabled v.shared.db = false) (hidle : v.mem.inFlight = [])
    (hcooled : v.mem.breaker.state = .open → Cooled v.shared.now v.mem.breaker) {row : JobItem}
    (hrow : nextClaimable v.shared.db v.shared.now = some row) :
    Ends tick (fun _ v' => ∃ t ∈ v'.mem.inFlight, t.item.id = row.id) v := by
  have hslot : v.mem.semaphore.active < v.mem.semaphore.maxConcurrent := by
    rw [h.slots, hidle]
    exact hroom
  have hstate : v.mem.breaker.state ≠ .halfOpen := fun hhalf => h.probed hhalf hidle
  refine ends_tick (fun hoff => by simp [hdraining, henabled] at hoff) (fun _ _ => ?_)
  refine ends_tickLoop hn ?_ ?_ ?_
  · intro hstop
    simp [canAttempt_granted hstate hcooled, Nat.not_le.mpr hslot] at hstop
  · exact fun hnone => absurd (hrow.symm.trans hnone) (by simp)
  · intro row' u _ hround
    cases hrow.symm.trans hround.claimed
    have hclaimed : ∃ t ∈ u.mem.inFlight, t.item.id = row.id := by
      rw [hround.flight]
      exact ⟨_, List.mem_append_right _ List.mem_cons_self, rfl⟩
    refine ends_always ?_ (flight_tickLoop _) hclaimed
    exact fun a b ⟨t, ht, hid⟩ hab => ⟨t, hab t ht, hid⟩

theorem ends_more {n m : Nat} {Q : Unit → World → Prop} (hn : Distinct v.shared)
    (h : v.mem.semaphore.maxConcurrent - v.mem.semaphore.active < n)
    (h' : v.mem.semaphore.maxConcurrent - v.mem.semaphore.active < m) (hQ : Ends (tickLoop n) Q v) :
    Ends (tickLoop m) Q v := by
  induction n generalizing m v with
  | zero => exact absurd h (Nat.not_lt_zero _)
  | succ n ih =>
    cases m with
    | zero => exact absurd h' (Nat.not_lt_zero _)
    | succ m =>
      rw [tickLoop] at hQ ⊢
      simp only [Ends, Worker.tryAcquire, Worker.canAttempt, wp_bind, wp_update, forall_eq',
        true_and] at hQ ⊢
      by_cases hslot : v.mem.semaphore.active < v.mem.semaphore.maxConcurrent
      case neg => simpa [tryAcquire_refused (Nat.not_lt.mp hslot)] using hQ
      case pos =>
        simp only [tryAcquire_granted hslot, ↓reduceIte, wp_bind, wp_update, forall_eq',
          true_and] at hQ ⊢
        cases hgranted : (canAttempt v.shared.now v.mem.breaker).1 with
        | false =>
          simp only [hgranted, Bool.false_eq_true, ↓reduceIte] at hQ ⊢
          exact hQ
        | true =>
          simp only [hgranted, ↓reduceIte, wp_bind] at hQ ⊢
          have hclaim : Ends claimNextItem (fun _ u => Distinct u.shared ∧
              u.mem.semaphore = { v.mem.semaphore with active := v.mem.semaphore.active + 1 })
              { v with
                mem.semaphore := { v.mem.semaphore with active := v.mem.semaphore.active + 1 }
                mem.breaker := (canAttempt v.shared.now v.mem.breaker).2 } := by
            refine wp_claimNextItem hn trivial (fun _ => ⟨hn, rfl⟩)
              (fun row _ => ⟨trivial, ?_, rfl⟩)
            rw [Distinct, claimRow, Atomic.Table.map_update (by exact fun _ _ => rfl)]
            exact hn
          refine wp_mono (fun item u hu => ?_) (wp_and hclaim hQ)
          obtain ⟨⟨hn', hsemaphore⟩, hQ⟩ := hu
          cases item with
          | none => exact hQ
          | some item =>
            refine (wp_bind ..).mpr (wp_mono (fun _ u' hu' => ?_)
              (wp_and (ends_processItem item hn') ((wp_bind ..).mp hQ)))
            obtain ⟨⟨hn'', _, hb⟩, hQ⟩ := hu'
            have hsemaphore' : u'.mem.semaphore = u.mem.semaphore := congrArg Bench.semaphore hb
            rw [hsemaphore] at hsemaphore'
            refine ih hn'' ?_ ?_ hQ <;> rw [hsemaphore'] <;> simp only <;> omega

/-- The rounds of a tick are bounded by its free slots: more of them change nothing. -/
theorem tickLoop_enough (hn : Distinct v.shared) {rounds : Nat}
    (h : v.mem.semaphore.maxConcurrent - v.mem.semaphore.active < rounds) :
    (tickLoop rounds).run v =
      (tickLoop (v.mem.semaphore.maxConcurrent - v.mem.semaphore.active + 1)).run v := by
  generalize hfree : v.mem.semaphore.maxConcurrent - v.mem.semaphore.active + 1 = free
  refine ends_iff.mp
    (ends_more (n := free) (Q := fun a s => (a, s) = (tickLoop free).run v) hn ?_ h ?_)
  · omega
  · exact ends_iff.mpr rfl

end Tick

section Complete

variable {v : World}

def judged (category : Option Category) (now : Ms) (b : CircuitBreaker) : CircuitBreaker :=
  match category with
  | none => Breaker.recordSuccess b
  | some category => Breaker.recordFailure category now b

theorem judged_halfOpen {category : Option Category} {now : Ms} {b : CircuitBreaker}
    (h : (judged category now b).state = .halfOpen) :
    b.state = .halfOpen ∧ category ≠ none ∧ category ≠ some .transient := by
  cases category with
  | none => cases h
  | some category =>
    obtain ⟨hstate, hne⟩ := recordFailure_halfOpen h
    exact ⟨hstate, by simp, by simpa using hne⟩

theorem ends_recordOutcome (task : Task) (outcome : SendOutcome) (random : Nat) :
    Ends (recordOutcome task outcome random) (fun _ u =>
      bench u = { bench v with breaker := judged (classify outcome).2.1 v.shared.now v.mem.breaker }) v := by
  have hrest : ∀ {b : Bench} {p : Code Unit} {u : World}, Always Rest p → bench u = b →
      Ends p (fun _ u => bench u = b) u :=
    fun hp hu => ends_always (fun _ _ ha hab => Eq.trans hab ha) hp hu
  obtain ⟨hretry, hterminal⟩ := rest_recordOutcome_end task
  simp only [recordOutcome]
  generalize classify outcome = result
  obtain ⟨status, category, detail⟩ := result
  refine wp_seq (Q := fun _ u => bench u = bench v ∧ u.shared.now = v.shared.now) ?_
    (fun _ u hu => ?_)
  · refine ends_always ?_ (always_and (always_recordAttemptFinish rest_aside _ _ _ _ _)
      (always_recordAttemptFinish (fun _ _ h => h) _ _ _ _ _)) ⟨rfl, rfl⟩
    exact fun a b ha hab => ⟨Eq.trans hab.1 ha.1, hab.2.now.trans ha.2⟩
  · obtain ⟨hb, hnow⟩ := hu
    have hbreaker : u.mem.breaker = v.mem.breaker := congrArg Bench.breaker hb
    have hsemaphore : u.mem.semaphore = v.mem.semaphore := congrArg Bench.semaphore hb
    have hflight : u.mem.inFlight = v.mem.inFlight := congrArg Bench.inFlight hb
    cases category with
    | none =>
      refine (wp_bind ..).mpr ?_
      rintro _ rfl
      refine ⟨trivial, hrest (hterminal _ _ _) ?_⟩
      simp only [bench, judged, hbreaker, hsemaphore, hflight]
    | some category =>
      refine (wp_bind ..).mpr ?_
      rintro _ rfl
      refine ⟨trivial, ?_⟩
      have hb' : bench { u with
          mem.breaker := Breaker.recordFailure category u.shared.now u.mem.breaker } =
          { bench v with breaker := judged (some category) v.shared.now v.mem.breaker } := by
        simp only [bench, judged, hbreaker, hsemaphore, hflight, hnow]
      split
      · exact hrest (always_bind (always_read rest_aside.tolerant _) (fun _ => hretry _ _ _)) hb'
      · exact hrest (hterminal _ _ _) hb'

theorem wp_complete {G : World → World → Prop} {Q : Unit → World → Prop} (i : Id)
    (outcome : SendOutcome) (random : Nat) (hG : G v v)
    (hnone : (∀ t ∈ v.mem.inFlight, t.item.id ≠ i) → Q () v)
    (hsome : ∀ task ∈ v.mem.inFlight, task.item.id = i → Wp Eq G (do
      recordOutcome task outcome random
      settle task.item.jobId
      finish task.item.id) Q v) : Wp Eq G (complete i outcome random) Q v := by
  refine (wp_bind ..).mpr ((wp_query ..).mpr ?_)
  rintro _ rfl
  refine ⟨hG, ?_⟩
  cases hfind : v.mem.inFlight.find? (fun t => decide (t.item.id = i)) with
  | none => exact hnone (by simpa using hfind)
  | some task =>
    have hid : task.item.id = i := by simpa using List.find?_some hfind
    have := hsome task (List.mem_of_find?_eq_some hfind) hid
    rwa [hid] at this

theorem fit_complete (i : Id) (outcome : SendOutcome) (random : Nat) (h : Fit v.mem)
    (hlast : v.mem.breaker.state = .halfOpen → (∀ t ∈ v.mem.inFlight, t.item.id = i) →
      (classify outcome).2.1 = none ∨ (classify outcome).2.1 = some .transient) :
    Ends (complete i outcome random) (fun _ v' => Fit v'.mem) v := by
  refine wp_complete i outcome random trivial (fun _ => h) ?_
  rintro task htask rfl
  refine wp_seq (ends_recordOutcome task outcome random) (fun _ u hu => ?_)
  refine wp_seq (ends_always (fun _ _ ha hab => Eq.trans hab ha) (rest_settle _) hu) (fun _ u hu => ?_)
  rintro _ rfl
  have hbreaker : u.mem.breaker = judged _ _ _ := congrArg Bench.breaker hu
  have hsemaphore : u.mem.semaphore = v.mem.semaphore := congrArg Bench.semaphore hu
  have hflight : u.mem.inFlight = v.mem.inFlight := congrArg Bench.inFlight hu
  have hlength := List.length_eraseP_of_mem (p := fun t : Task => decide (t.item.id = task.item.id))
    htask (decide_eq_true rfl)
  refine ⟨trivial, ?_, ?_⟩
  · simp only [hsemaphore, hflight, Breaker.release, h.slots, hlength]
  · intro hhalf
    simp only [hbreaker] at hhalf
    obtain ⟨hstate, hsuccess, htransient⟩ := judged_halfOpen hhalf
    simp only [hflight]
    intro hnil
    refine absurd (hlast hstate (fun t ht => ?_)) (by simp [hsuccess, htransient])
    by_contra hne
    have hrest : t ∈ v.mem.inFlight.eraseP (fun t => decide (t.item.id = task.item.id)) :=
      (List.mem_eraseP_of_neg (by simpa using hne)).mpr ht
    rw [hnil] at hrest
    cases hrest

end Complete

/-- No probe is wasted: a tick that is let through by a cooled breaker while
nothing is in flight finds an item, and the last task in flight of a half-open
breaker succeeds or fails transiently. -/
def Probes (s : Server) (a : Action) : Prop :=
  s.up → match a with
    | .call .tick =>
      s.world.mem.draining = false → KillSwitch.outboundDisabled s.world.shared.db = false →
        Probeable s.world
    | .call (.complete i outcome _) =>
      s.world.mem.breaker.state = .halfOpen → (∀ t ∈ s.world.mem.inFlight, t.item.id = i) →
        (classify outcome).2.1 = none ∨ (classify outcome).2.1 = some .transient
    | _ => True

instance (v : World) : Decidable (Probeable v) := inferInstanceAs (Decidable (_ → _ → _ → _))

instance (s : Server) (a : Action) : Decidable (Probes s a) := by
  unfold Probes
  split <;> infer_instance

structure Steady (s : Server) : Prop where
  kept : Kept s
  room : 0 < s.world.mem.semaphore.maxConcurrent
  fit : s.up → Fit s.world.mem

theorem slots_call (c : Call) (w : World) :
    (c.code.run w).2.mem.semaphore.maxConcurrent = w.mem.semaphore.maxConcurrent :=
  (always_run any_refl (fun _ _ _ => any_trans) (any_call c) w).slots

theorem slots_cut (c : Call) (n : Nat) (w : World) :
    (c.code.cut n w).mem.semaphore.maxConcurrent = w.mem.semaphore.maxConcurrent :=
  (always_cut any_refl (fun _ _ _ => any_trans) (any_call c) w n).slots

theorem fit_fresh (pid : Nat) (m : Memory) : Fit (fresh pid m) := ⟨rfl, fun hhalf => by cases hhalf⟩

theorem fit_call {s : Server} (h : Steady s) (hup : s.up) (c : Call) (hp : Probes s (.call c)) :
    Fit (c.code.run s.world).2.mem := by
  have hfit := h.fit hup
  by_cases htick : c = .tick
  · subst htick
    exact wp_run (fit_tick h.kept.inv.1 hfit (hp hup))
  by_cases hcomplete : ∃ i outcome random, c = .complete i outcome random
  · obtain ⟨i, outcome, random, rfl⟩ := hcomplete
    exact wp_run (fit_complete i outcome random hfit (hp hup))
  · have hrest := rest_call htick (fun i o r hc => hcomplete ⟨i, o, r, hc⟩)
    exact fit_of_bench hfit (always_run (T := Rest) (fun _ => rfl) (fun _ _ _ h h' => Eq.trans h' h)
      hrest s.world)

theorem steady_step {s : Server} (h : Steady s) {a : Action} (hp : Probes s a) :
    Steady (step s a) := by
  refine ⟨kept_step h.kept a, ?_, ?_⟩
  · cases a with
    | advance ms => exact h.room
    | call c =>
      simp only [step]
      split
      · simpa only [slots_call] using h.room
      · exact h.room
    | crash c n =>
      simp only [step]
      split
      · simpa only [slots_cut] using h.room
      · exact h.room
    | restart =>
      simp only [step]
      split <;> exact h.room
  · cases a with
    | advance ms => exact h.fit
    | call c =>
      simp only [step]
      split
      case isTrue hup => exact fun _ => fit_call h hup c hp
      case isFalse => exact h.fit
    | crash c n =>
      simp only [step]
      split
      · exact fun hup => absurd hup (by simp)
      · exact h.fit
    | restart =>
      simp only [step]
      split
      · exact h.fit
      · exact fun _ => fit_fresh s.world.mem.pid s.world.mem

theorem steady_run {concurrency : Nat} (hroom : 0 < concurrency) {now : Ms} {as : List Action}
    (h : Along Probes step (initial concurrency now) as) :
    Steady (run (initial concurrency now) as) := by
  refine play_invariant Steady (fun s a hs ha => steady_step hs ha) ?_ h
  exact ⟨kept_initial concurrency now, hroom, fun _ => ⟨rfl, fun hhalf => by cases hhalf⟩⟩

/-- As long as no probe is wasted, a breaker is never left half open with nothing in
flight, and once it has cooled down a tick with nothing in flight claims the next item. -/
theorem claims_after_cooldown {concurrency : Nat} (hroom : 0 < concurrency) (now : Ms)
    (as : List Action) (h : Along Probes step (initial concurrency now) as) :
    let s := run (initial concurrency now) as
    s.up → s.world.mem.inFlight = [] → s.world.mem.draining = false →
      KillSwitch.outboundDisabled s.world.shared.db = false →
      s.world.mem.breaker.state ≠ .halfOpen ∧
        ((s.world.mem.breaker.state = .open → Cooled s.world.shared.now s.world.mem.breaker) →
          ∀ row, nextClaimable s.world.shared.db s.world.shared.now = some row →
            ∃ t ∈ (step s (.call .tick)).world.mem.inFlight, t.item.id = row.id) := by
  intro s hup hidle hdraining henabled
  have hsteady : Steady s := steady_run hroom h
  have hfit := hsteady.fit hup
  refine ⟨fun hhalf => hfit.probed hhalf hidle, fun hcooled row hrow => ?_⟩
  simp only [step, hup, ↓reduceIte]
  exact wp_run (claims_tick hsteady.kept.inv.1 hfit hsteady.room hdraining henabled
    hidle hcooled hrow)

def fiveItems : CreateJobArgs :=
  { type := "bulk", items := List.replicate 5 ⟨some "1", none, some "hello"⟩ }

def opened : List Action :=
  [.call (.createJob fiveItems), .call .tick] ++
    (List.range 5).map (fun i => .call (.complete (i + 1) (.results [(.error, none)]) 0))

def probed : List Action :=
  opened ++ [.advance 30000, .call .tick, .call (.complete 1 (.results [(.notOnWhatsapp, none)]) 0)]

theorem claims_after_cooldown_fails :
    let s := run (initial 5 0) (probed ++ [.advance 30000])
    s.up ∧ s.world.mem.inFlight = [] ∧ s.world.mem.draining = false ∧
      KillSwitch.outboundDisabled s.world.shared.db = false ∧
      Cooled s.world.shared.now s.world.mem.breaker ∧
      (nextClaimable s.world.shared.db s.world.shared.now).isSome ∧
      (step s (.call .tick)).world.mem.inFlight = [] := by
  decide +kernel

/-- The same run with a probe that succeeds. -/
theorem claims_after_cooldown_success :
    let as :=
      opened ++ [.advance 30000, .call .tick, .call (.complete 1 (.results [(.sent, none)]) 0),
        .advance 30000]
    let s := run (initial 5 0) as
    s.up → s.world.mem.inFlight = [] → s.world.mem.draining = false →
      KillSwitch.outboundDisabled s.world.shared.db = false →
      s.world.mem.breaker.state ≠ .halfOpen ∧
        ((s.world.mem.breaker.state = .open → Cooled s.world.shared.now s.world.mem.breaker) →
          ∀ row, nextClaimable s.world.shared.db s.world.shared.now = some row →
            ∃ t ∈ (step s (.call .tick)).world.mem.inFlight, t.item.id = row.id) :=
  claims_after_cooldown (by decide) 0 _ (by decide +kernel)

end WhatsappTester.Jobs.Probe
