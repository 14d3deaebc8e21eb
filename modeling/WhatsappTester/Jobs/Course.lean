import WhatsappTester.Atomic.Calendar
import WhatsappTester.Jobs.Recurrence

namespace WhatsappTester.Jobs.Course

open Schema State Atomic Atomic.Program Atomic.Runs Atomic.Calendar Statements JobService
  Claiming Worker
open Process Solo Standing Registry Uniqueness Settling Scheduler Occurrences Recurrence

abbrev Terms := Option Int × Option RepeatUnit × Option Ms

def terms (row : Schedule) : Terms := (row.repeatEveryValue, row.repeatEveryUnit, row.repeatEndAt)

/-- The occurrence after the one that was due at `t` and settled at `s`, if there is one. -/
def after (r : Terms) (t s : Ms) : Option Ms :=
  match r.1 with
  | none => none
  | some value =>
    if value = 0 then none
    else
      let next := nextOccurrence (repeatUnitMs r.2.1 * value) s t
      if r.2.2.any (fun endAt => decide (endAt ≠ 0 ∧ next > endAt)) then none else some next

def planOf (row : Schedule) : Plan Terms Ms :=
  ⟨row.nextRunAt, terms row, decide (row.status = .done)⟩

theorem planOf_settledRow (now : Ms) (lastResult : LastResult) (row : Schedule) :
    planOf (settledRow now lastResult row) = (planOf row).advance after now := by
  simp only [Plan.advance, planOf, after, terms, settledRow]
  cases row.repeatEveryValue with
  | none => rfl
  | some value =>
    by_cases hvalue : value = 0
    · simp [hvalue]
    · simp only [hvalue, ↓reduceIte]
      split <;> simp_all

/-- What the course of a schedule depends on in a job. -/
structure Chronicle where
  origin : JobOrigin
  createdAt : Ms
  settled : Bool
  completedAt : Option Ms

def chronicle (j : Job) : Chronicle := ⟨jobOrigin j, j.createdAt, j.status.terminal, j.completedAt⟩

def entry (o : Occurrence JobOrigin Ms) : Chronicle :=
  ⟨o.work, o.firedAt, o.settledAt.isSome, o.settledAt⟩

def ofSchedule (id : String) (j : Job) : Bool :=
  decide (j.sourceType = some "schedule" ∧ j.sourceId = some id)

def jobsOf (id : String) (s : Shared) : List Job := s.db.jobs.filter (ofSchedule id)

structure Shows (n : Nat) (s : Shared) (d : Diary JobOrigin Terms Ms) : Prop where
  past : (jobsOf (toString n) s).map chronicle = d.past.map entry
  occurs : ∀ o ∈ d.past, Occurs n o.due o.work
  plan : d.plan = (s.db.schedule (toString n)).map planOf

/-- The schedules are well formed, and the diary of schedule `n` is in order and meets `K`. -/
structure OnCourse (n : Nat) (K : Diary JobOrigin Terms Ms → Prop) (s : Shared) : Prop where
  dated : Dated s.uuid s
  diary : ∃ d, Shows n s d ∧ InOrder d ∧ K d

section Still

/-- A statement that changes no schedule, and nothing in a job that a schedule depends on. -/
structure Still (v v' : World) : Prop extends Any v v' where
  jobs : v'.shared.db.jobs.map chronicle = v.shared.db.jobs.map chronicle
  schedules : v'.shared.db.schedules = v.shared.db.schedules

variable {v v' : World}

theorem still_refl (v : World) : Still v v := ⟨any_refl v, rfl, rfl⟩

theorem still_trans {u v w : World} (h : Still u v) (h' : Still v w) : Still u w :=
  ⟨any_trans h.toAny h'.toAny, h'.jobs.trans h.jobs, h'.schedules.trans h.schedules⟩

theorem still_aside : Lenient Still := fun _ _ h => ⟨h.toAny, by rw [h.jobs], h.schedules⟩

theorem still_memo (h : Memo v v') : Still v v' := ⟨h.toAny, by rw [h.shared], by rw [h.shared]⟩

theorem still_web (h : Web v v') : Still v v' :=
  ⟨h.toAny, congrArg (List.map chronicle) (congrArg JobSide.jobs h.jobSide),
    congrArg JobSide.schedules h.jobSide⟩

theorem still_items (items : List JobItem) (t : List Event) :
    Still v { v with shared.db.items := items, shared.trace := t } :=
  ⟨⟨rfl, rfl, rfl, le_refl _⟩, rfl, rfl⟩

theorem still_updateItems (p : JobItem → Bool) (f : JobItem → JobItem) :
    Always Still (updateItems p f) :=
  always_update _ (fun v => still_items _ v.shared.trace)

theorem still_updateItemsRecord (p : JobItem → Bool) (f : JobItem → JobItem) (e : World → Event) :
    Always Still (updateItemsRecord p f e) := always_update _ (fun _ => still_items _ _)

theorem still_updateJobs {p : Job → Bool} {f : Job → Job}
    (hf : ∀ j, p j → chronicle (f j) = chronicle j) :
    Always Still (updateJobs p f) :=
  always_update _ (fun _ => ⟨⟨rfl, rfl, rfl, le_refl _⟩, Table.map_update hf _, rfl⟩)

theorem still_recoverStaleClaims : Always Still recoverStaleClaims :=
  always_recoverStaleClaims still_aside.tolerant (fun _ => still_updateItems _ _)

theorem still_boot (v : World) : Still { v with mem := fresh v.mem.pid v.mem } (boot v) :=
  boot_respects still_refl (fun _ _ _ => still_trans) still_recoverStaleClaims v

theorem still_tick : Always Still tick := by
  refine always_tick still_aside.tolerant
    (always_tickLoop (fun _ _ => still_memo) ?_ (fun item => ?_))
  · refine always_claimNextItem still_aside.tolerant (fun now => always_update _ (fun v => ?_))
    cases nextClaimable v.shared.db now with
    | none => exact still_refl v
    | some row => exact still_items _ _
  · refine always_processItem item ?_ (fun n => ?_) (fun n => ?_)
    · refine always_markItemRunning still_aside.tolerant item.id (fun _ => still_updateItems _ _)
        (fun id now => ?_)
      refine still_updateJobs (fun j hj => ?_)
      simp only [chronicle, startedJob, (of_decide_eq_true hj).2]
      rfl
    · exact always_recordAttemptStart still_aside item.id n (fun _ => still_updateItemsRecord _ _ _)
    · exact always_exec (fun _ => ⟨⟨rfl, rfl, rfl, le_refl _⟩, rfl, rfl⟩)

theorem still_recordOutcome (task : Task) (outcome : SendOutcome) (random : Nat) :
    Always Still (recordOutcome task outcome random) := by
  refine always_recordOutcome still_aside (fun _ _ => still_memo) task outcome random ?_ ?_
  · exact fun _ _ _ => always_scheduleRetry still_aside.tolerant _ _ _ _
      (fun _ => still_updateItemsRecord _ _ _)
  · refine fun status _ _ _ =>
      always_markItemTerminal still_aside.tolerant _ (fun _ => still_updateItemsRecord _ _ _)
      (fun id now => still_updateJobs (fun j _ => ?_))
    cases status <;> rfl

theorem still_movedJob {p : Job → Bool} {status : JobStatus}
    (hp : ∀ j, p j → j.status.terminal = status.terminal) (now : Ms) :
    Always Still (updateJobs p (movedJob status now)) :=
  still_updateJobs (fun j hj => by simp only [chronicle, movedJob, hp j hj]; rfl)

theorem still_pauseJob (id : Id) (actor : Option String) : Always Still (pauseJob id actor) := by
  refine always_changeStatus still_aside.tolerant id _ (movedJob .paused) (fun _ => rfl)
    (still_movedJob (fun j hj => ?_))
  obtain ⟨_, hstatus⟩ := of_decide_eq_true hj
  simp only [List.mem_cons, List.not_mem_nil, or_false] at hstatus
  obtain hstatus | hstatus := hstatus <;> rw [hstatus] <;> rfl

theorem still_resumeJob (id : Id) (actor : Option String) : Always Still (resumeJob id actor) := by
  refine always_changeStatus still_aside.tolerant id _ (movedJob .queued) (fun _ => rfl)
    (still_movedJob (fun j hj => ?_))
  rw [(of_decide_eq_true hj).2]
  rfl

end Still

variable {n : Nat} {K : Diary JobOrigin Terms Ms → Prop} {s s' : Shared}
    {d : Diary JobOrigin Terms Ms}

theorem chronicles_eq (id : String) (s : Shared) : (jobsOf id s).map chronicle =
    (s.db.jobs.map chronicle).filter
      (fun x => decide (x.origin.sourceType = some "schedule" ∧ x.origin.sourceId = some id)) := by
  rw [jobsOf, List.filter_map]
  rfl

theorem shows_of (h : Shows n s d) (hjobs : s'.db.jobs.map chronicle = s.db.jobs.map chronicle)
    (hplan : (s'.db.schedule (toString n)).map planOf = (s.db.schedule (toString n)).map planOf) :
    Shows n s' d := by
  refine ⟨?_, h.occurs, h.plan.trans hplan.symm⟩
  rw [chronicles_eq, hjobs, ← chronicles_eq]
  exact h.past

theorem onCourse_of (h : OnCourse n K s)
    (hjobs : s'.db.jobs.map chronicle = s.db.jobs.map chronicle)
    (hschedules : s'.db.schedules = s.db.schedules) (huuid : s.uuid ≤ s'.uuid) :
    OnCourse n K s' := by
  have horigins : s'.db.jobs.map jobOrigin = s.db.jobs.map jobOrigin := by
    have := congrArg (List.map Chronicle.origin) hjobs
    simpa only [List.map_map, Function.comp_def, chronicle] using this
  obtain ⟨d, hshows, hd⟩ := h.diary
  refine ⟨dated_le (dated_of h.dated hschedules horigins) huuid, d, shows_of hshows hjobs ?_, hd⟩
  rw [Db.schedule, Db.schedule, hschedules]

theorem onCourse_still {v v' : World} (h : OnCourse n K v.shared) (hs : Still v v') :
    OnCourse n K v'.shared :=
  onCourse_of h hs.jobs hs.schedules hs.uuid

theorem schedule_of_mem {bound : Id} (h : Dated bound s) {row : Schedule}
    (hrow : row ∈ s.db.schedules) :
    s.db.schedule row.id = some row := Table.find_eq_some h.distinct hrow

theorem shows_fresh {bound : Id} (h : Dated bound s) (hn : bound ≤ n) : Shows n s ⟨[], none⟩ := by
  refine ⟨?_, fun _ ho => absurd ho List.not_mem_nil, ?_⟩
  · rw [jobsOf, List.filter_eq_nil_iff.mpr, List.map_nil, List.map_nil]
    intro j hj hsource
    obtain ⟨htype, hid⟩ := of_decide_eq_true hsource
    obtain hforeign | ⟨m, hm, t, hoccurs, _⟩ := h.jobs j hj
    · exact hforeign.2 htype
    · have hname := Option.some.inj (hid.symm.trans hoccurs.source)
      exact absurd (Nat.repr_injective hname) (Nat.ne_of_gt (Nat.lt_of_lt_of_le hm hn))
  · have hnone : s.db.schedule (toString n) = none := by
      refine Table.find_none.mpr (fun row hrow hid => ?_)
      obtain ⟨m, hm, hname⟩ := h.named row hrow
      exact absurd (Nat.repr_injective (hname.symm.trans hid))
        (Nat.ne_of_lt (Nat.lt_of_lt_of_le hm hn))
    rw [hnone]
    rfl

theorem inOrder_empty (plan : Option (Plan Terms Ms)) :
    InOrder (⟨[], plan⟩ : Diary JobOrigin Terms Ms) :=
  ⟨List.Pairwise.nil, fun _ ho => absurd ho List.not_mem_nil,
    fun _ _ _ ho => absurd ho List.not_mem_nil⟩

theorem onCourse_fresh (h : Dated s.uuid s) (hn : s.uuid ≤ n) (hK : K ⟨[], none⟩) :
    OnCourse n K s :=
  ⟨h, _, shows_fresh h hn, inOrder_empty _, hK⟩

section Fire

variable {v : World} {row : Schedule} {L : List (String × Ms × Bool)} {now : Ms}

theorem alone_insert {P : World → Prop} {id : Id} {a : CreateJobArgs}
    (haside : ∀ v v', Aside v v' → P v → P v')
    (hinsert : ∀ id v db, createTransaction id v.shared.now a v.shared.uuid v.shared.db = .ok db →
      P v → P { v with
        shared.db := db
        shared.uuid := v.shared.uuid + a.items.length
        shared.trace := .jobInserted v.mem.pid id a :: v.shared.trace }) (h : P v) :
    Wp Eq (fun _ t => P t) (insertJobAndItems id v.shared.now a) (fun _ t => P t) v := by
  rintro _ rfl
  have hafter : P ((insertJobAndItems id v.shared.now a).run v).2 := by
    rw [insertJobAndItems, run_update]
    cases htransaction : createTransaction id v.shared.now a v.shared.uuid v.shared.db with
    | ok db => exact hinsert id v db htransaction h
    | error err =>
      exact haside v _ ⟨⟨⟨⟨⟨rfl, rfl, rfl, Nat.le_add_right _ _⟩, rfl⟩, rfl⟩, rfl⟩,
        rfl, rfl, rfl⟩ h
  exact ⟨hafter, hafter⟩

theorem alone_callCreateJob {P : World → Prop} (a : CreateJobArgs)
    (haside : ∀ v v', Aside v v' → P v → P v')
    (hinsert : ∀ id v db, createTransaction id v.shared.now a v.shared.uuid v.shared.db = .ok db →
      P v → P { v with
        shared.db := db
        shared.uuid := v.shared.uuid + a.items.length
        shared.trace := .jobInserted v.mem.pid id a :: v.shared.trace })
    (hreturned : ∀ result v, P v → P (returned a result v)) (h : P v) :
    Wp Eq (fun _ t => P t) (callCreateJob a) (fun _ t => P t) v := by
  have hbook : ∀ {α : Type} {p : Code α}, Always Aside p → ∀ v, P v →
      Wp Eq (fun _ t => P t) p (fun _ t => P t) v :=
    fun hp v h => wp_alone hp (fun a b ha hab => ⟨haside a b hab ha, haside a b hab ha⟩) h
  have hlenient : Lenient Aside := fun _ _ h => h
  have hget : ∀ (id : Id) (created : Bool) v, P v → Wp Eq (fun _ t => P t) (do
      let job ← getJob id
      pure (.ok ⟨job, created⟩ : Except SqlError CreateResult)) (fun _ t => P t) v :=
    fun id created v h =>
      hbook (always_bind (always_getJob hlenient.tolerant id) (fun _ => always_pure _)) v h
  have hselect := fun v h => hbook (always_selectKey hlenient.tolerant a.idempotencyKey) v h
  refine wp_seq (Q := fun _ t => P t) ?_ (fun result u hu => ?_)
  · refine wp_seq (hselect v h) (fun existing u hu => ?_)
    cases existing with
    | some existing => exact hget existing false u hu
    | none =>
      refine wp_seq (hbook (always_mono (fun _ _ h => h.toAside) mute_randomUUID) u hu)
        (fun id u hu => ?_)
      refine (wp_bind ..).mpr ?_
      rintro _ rfl
      refine ⟨hu, wp_seq (alone_insert haside hinsert hu) (fun result u hu => ?_)⟩
      cases result with
      | ok x =>
        exact wp_seq (hbook (always_recordEvent hlenient _ _) u hu)
          (fun _ u hu => hget id true u hu)
      | error err =>
        simp only
        split
        · refine wp_seq (hselect u hu) (fun existing u hu => ?_)
          cases existing with
          | some existing => exact hget existing false u hu
          | none => exact hu
        · exact hu
  · rintro _ rfl
    exact ⟨hreturned result u hu, hreturned result u hu⟩

theorem jobsOf_insert {id : String} {a : CreateJobArgs} {job : Id} {db : Db}
    (htransaction : createTransaction job now a s.uuid s.db = .ok db) (s' : Shared)
    (hdb : s'.db = db) :
    jobsOf id s' = jobsOf id s ++ [newJob job now a].filter (ofSchedule id) := by
  obtain ⟨rfl, _⟩ := createTransaction_ok htransaction
  rw [jobsOf, jobsOf, hdb, List.filter_append]

theorem onCourse_insert {a : CreateJobArgs} {job : Id} {db : Db} {uuid : Id} {t : List Event}
    (h : OnCourse n K s) (htransaction : createTransaction job now a s.uuid s.db = .ok db)
    (huuid : s.uuid ≤ uuid) (hreached : Reached s.uuid s (jobOrigin (newJob job now a)))
    (hother : ¬ (a.sourceType = some "schedule" ∧ a.sourceId = some (toString n))) :
    OnCourse n K { s with db := db, uuid := uuid, trace := t } := by
  obtain ⟨d, hshows, hd⟩ := h.diary
  refine ⟨dated_le (dated_insert _ _ h.dated htransaction hreached) huuid, d,
    ⟨?_, hshows.occurs, ?_⟩, hd⟩
  · rw [jobsOf_insert htransaction _ rfl]
    have hnone : ofSchedule (toString n) (newJob job now a) = false := decide_eq_false hother
    rw [List.filter_singleton, hnone, cond_false, List.append_nil]
    exact hshows.past
  · obtain ⟨rfl, _⟩ := createTransaction_ok htransaction
    exact hshows.plan

variable (hK : ∀ d d', InOrder d → Step after d d' → K d → K d')
include hK

theorem onCourse_fire {job : Id} {db : Db} {uuid : Id} {t : List Event} (h : OnCourse n K s)
    (htransaction : createTransaction job s.now (fireArgs row) s.uuid s.db = .ok db)
    (huuid : s.uuid ≤ uuid) (hslot : (row.id, row.nextRunAt, false) ∈ slots s)
    (hdue : row.nextRunAt ≤ s.now) (hid : row.id = toString n) :
    OnCourse n K { s with db := db, uuid := uuid, trace := t } := by
  obtain ⟨d, hshows, horder, hd⟩ := h.diary
  obtain ⟨row', hrow', hid', hnext, hdone⟩ := slot_row hslot
  have hplan : d.plan = some (planOf row') := by
    have hfind := schedule_of_mem h.dated hrow'
    rw [hid', hid] at hfind
    rw [hshows.plan, hfind, Option.map_some]
  have hfresh : ∀ o ∈ d.past, o.due ≠ row'.nextRunAt := by
    intro o ho heq
    obtain ⟨j, hj, hjob⟩ := List.mem_map.mp (hshows.past ▸ List.mem_map_of_mem ho : entry o ∈ _)
    have hkey : j.idempotencyKey = _ := congrArg (fun x => x.origin.idempotencyKey) hjob
    refine (createTransaction_ok htransaction).2.2.1 rfl j (List.mem_filter.mp hj).1 (hkey.trans ?_)
    rw [entry, (hshows.occurs o ho).key, heq, hnext, ← hid]
    rfl
  obtain ⟨past, plan⟩ := d
  obtain rfl : plan = some (planOf row') := hplan
  have hopen : (planOf row').finished = false := by simp [planOf, hdone]
  have hnow : (planOf row').next ≤ s.now := by rw [planOf, hnext]; exact hdue
  have hstep : Step after _ _ :=
    Step.fire (jobOrigin (newJob job s.now (fireArgs row))) s.now hopen hnow hfresh
  refine ⟨dated_le (dated_insert _ _ h.dated htransaction (reached_fire h.dated hslot job s.now))
    huuid, _,
    ⟨?_, List.forall_mem_append.mpr ⟨hshows.occurs, List.forall_mem_singleton.mpr ⟨?_, rfl, ?_⟩⟩,
      ?_⟩,
    inOrder_step horder hstep, hK _ _ horder hstep hd⟩
  · rw [jobsOf_insert htransaction _ rfl]
    have hown : ofSchedule (toString n) (newJob job s.now (fireArgs row)) = true :=
      decide_eq_true ⟨rfl, congrArg some hid⟩
    rw [List.filter_singleton, hown, cond_true, List.map_append, List.map_append]
    exact congrArg (· ++ _) hshows.past
  · change some (occurrenceKey row.id row.nextRunAt) =
      some (occurrenceKey (toString n) row'.nextRunAt)
    rw [hid, hnext]
  · exact congrArg some hid
  · obtain ⟨rfl, _⟩ := createTransaction_ok htransaction
    exact hshows.plan

structure Ticking (n : Nat) (K : Diary JobOrigin Terms Ms → Prop)
    (L : List (String × Ms × Bool)) (now : Ms) (v : World) : Prop where
  course : OnCourse n K v.shared
  slots : slots v.shared = L
  now : v.shared.now = now

omit hK in
theorem ticking_still {v' : World} (h : Ticking n K L now v) (hs : Still v v') :
    Ticking n K L now v' := by
  refine ⟨onCourse_still h.course hs, ?_, hs.now.trans h.now⟩
  rw [slots, hs.schedules]
  exact h.slots

theorem ticking_callCreateJob (hslot : (row.id, row.nextRunAt, false) ∈ L)
    (hdue : row.nextRunAt ≤ now) (h : Ticking n K L now v) :
    Wp Eq (fun _ t => Ticking n K L now t) (callCreateJob (fireArgs row))
      (fun _ t => Ticking n K L now t) v := by
  refine alone_callCreateJob (fireArgs row)
    (fun v v' hv h => ticking_still h (still_aside v v' hv)) ?_ ?_ h
  · intro job v db htransaction h
    have huuid := Nat.le_add_right v.shared.uuid (fireArgs row).items.length
    have hslot' : (row.id, row.nextRunAt, false) ∈ slots v.shared := h.slots ▸ hslot
    have hdue' : row.nextRunAt ≤ v.shared.now := h.now ▸ hdue
    refine ⟨?_, ?_, h.now⟩
    · by_cases hid : row.id = toString n
      · exact onCourse_fire hK h.course htransaction huuid hslot' hdue' hid
      · refine onCourse_insert h.course htransaction huuid
          (reached_fire h.course.dated hslot' job _) ?_
        rintro ⟨_, hsource⟩
        exact hid (Option.some.inj hsource)
    · obtain ⟨rfl, _⟩ := createTransaction_ok htransaction
      exact h.slots
  · intro result v h
    cases result with
    | error err => exact h
    | ok r => exact ticking_still h ⟨⟨rfl, rfl, rfl, le_refl _⟩, rfl, rfl⟩

omit hK in
theorem onCourse_schedules (h : OnCourse n K s) {p : Schedule → Bool} {f : Schedule → Schedule}
    (hf : ∀ row, p row → Later row (f row) ∧ planOf (f row) = planOf row) :
    OnCourse n K { s with db.schedules := Table.update p f s.db.schedules } := by
  obtain ⟨d, hshows, hd⟩ := h.diary
  refine ⟨dated_update h.dated (fun row _ hp => (hf row hp).1), d, shows_of hshows rfl ?_, hd⟩
  have hfind : ∀ row, p row → (f row).id = row.id := fun row hp => (hf row hp).1.id
  simp only [Db.schedule, Table.find_update hfind, Option.map_map]
  refine congrArg (fun g => Option.map g _) (funext (fun row => ?_))
  simp only [Function.comp_def]
  split
  · exact (hf row ‹_›).2
  · rfl

omit hK in
theorem ticking_sending (h : Ticking n K L now v) (id : String) (now' : Ms) :
    Ticking n K L now { v with
      shared.db.schedules := Table.update (fun s => decide (s.id = id ∧ s.status = .scheduled))
        (sendingRow now') v.shared.db.schedules } := by
  refine ⟨onCourse_schedules h.course (fun row hrow => ⟨⟨rfl, rfl, rfl, le_refl _⟩, ?_⟩), ?_, h.now⟩
  · simp only [planOf, sendingRow, (of_decide_eq_true hrow).2]
    rfl
  · rw [slots_sending]
    exact h.slots

theorem ticking_fireDue (hslot : (row.id, row.nextRunAt, false) ∈ L) (hdue : row.nextRunAt ≤ now)
    (h : Ticking n K L now v) : Wp Eq (fun _ t => Ticking n K L now t) (fireDue row)
      (fun _ t => Ticking n K L now t) v := by
  refine wp_seq (ticking_callCreateJob hK hslot hdue h) (fun result u hu => ?_)
  cases result with
  | error err => exact hu
  | ok r =>
    simp only [dateNow, updateSchedules, wp_bind, wp_query, wp_update, wp_pure,
      forall_eq', hu, true_and]
    exact ⟨ticking_sending hu row.id u.shared.now, ticking_sending hu row.id u.shared.now⟩

theorem course_runTickIfReady (ready : Bool) (h : OnCourse n K v.shared) :
    Wp Eq (fun _ t => OnCourse n K t.shared) (runTickIfReady ready)
      (fun _ t => OnCourse n K t.shared) v := by
  simp only [runTickIfReady]
  split
  · exact h
  · simp only [dateNow, wp_bind, wp_query, forall_eq', h, true_and]
    have hticking : Ticking n K (slots v.shared) v.shared.now v := ⟨h, rfl, rfl⟩
    refine wp_weaken (G := fun _ t => Ticking n K (slots v.shared) v.shared.now t)
      (fun _ t ht => ht.course)
      (fun _ t ht => ht.course) (wp_each (P := Ticking n K (slots v.shared) v.shared.now) _
      (fun row hrow u hu => ?_) hticking)
    exact ticking_fireDue hK (slot_due hrow) (of_decide_eq_true (List.mem_filter.mp hrow).2).2 hu

end Fire

section Settle

variable {v : World} {now : Ms}

structure Ended (n : Nat) (K : Diary JobOrigin Terms Ms → Prop) (now : Ms) (s : Shared) : Prop where
  dated : Dated s.uuid s
  diary : ∃ past o plan, Shows n s ⟨past ++ [o], plan⟩ ∧ InOrder ⟨past ++ [o], plan⟩ ∧
    K ⟨past ++ [o], plan⟩ ∧ o.settledAt = some now ∧ ∀ p ∈ plan, o.due = p.next ∧ p.finished = false

theorem onCourse_ended (h : Ended n K now s) : OnCourse n K s := by
  obtain ⟨past, o, plan, hshows, horder, hd, _⟩ := h.diary
  exact ⟨h.dated, _, hshows, horder, hd⟩

theorem ended_of (h : Ended n K now s) (hjobs : s'.db.jobs.map chronicle = s.db.jobs.map chronicle)
    (hschedules : s'.db.schedules = s.db.schedules) (huuid : s.uuid ≤ s'.uuid) :
    Ended n K now s' := by
  obtain ⟨past, o, plan, hshows, hd⟩ := h.diary
  refine ⟨(onCourse_of (onCourse_ended h) hjobs hschedules huuid).dated, past, o, plan,
    shows_of hshows hjobs ?_, hd⟩
  rw [Db.schedule, Db.schedule, hschedules]

theorem jobsOf_update (id : String) {p : Job → Bool} {f : Job → Job}
    (hf : ∀ j, jobOrigin (f j) = jobOrigin j) (s : Shared) :
    jobsOf id { s with db.jobs := Table.update p f s.db.jobs } =
      Table.update p f (jobsOf id s) := by
  have hsame : ∀ j, ofSchedule id (if p j then f j else j) = ofSchedule id j := by
    intro j
    split
    · have htype : (f j).sourceType = j.sourceType := congrArg JobOrigin.sourceType (hf j)
      have hsource : (f j).sourceId = j.sourceId := congrArg JobOrigin.sourceId (hf j)
      rw [ofSchedule, ofSchedule, htype, hsource]
    · rfl
  rw [jobsOf, Table.update, List.filter_map, jobsOf, Table.update]
  refine congrArg _ (List.filter_congr (fun j _ => hsame j))

theorem dated_settle (h : Dated s.uuid s) {p : Job → Bool} {status : JobStatus} :
    Dated s.uuid { s with db.jobs := Table.update p (settledJob status now) s.db.jobs } := by
  refine dated_of h rfl ?_
  exact Table.map_update (f := settledJob status now) (fun _ _ => rfl) s.db.jobs

theorem onCourse_settle_other (h : OnCourse n K s) {p : Job → Bool} {status : JobStatus}
    (hother : ∀ j ∈ jobsOf (toString n) s, ¬ p j) :
    OnCourse n K { s with db.jobs := Table.update p (settledJob status now) s.db.jobs } := by
  obtain ⟨d, hshows, hd⟩ := h.diary
  refine ⟨dated_settle h.dated, d, ⟨?_, hshows.occurs, hshows.plan⟩, hd⟩
  rw [jobsOf_update _ (by exact fun _ => rfl), Table.update_eq_self hother]
  exact hshows.past

variable (hK : ∀ d d', InOrder d → Step after d d' → K d → K d')
include hK

/-- A job of a schedule that settles is that of its last occurrence. -/
theorem ended_settle (h : OnCourse n K s) {p : Job → Bool} {status : JobStatus}
    (hstatus : status.terminal = true) (hp : ∀ j ∈ s.db.jobs, p j → j.status.terminal = false)
    {j : Job} (hj : j ∈ jobsOf (toString n) s) (hpj : p j) :
    Ended n K now { s with db.jobs := Table.update p (settledJob status now) s.db.jobs } := by
  obtain ⟨⟨past, plan⟩, hshows, horder, hd⟩ := h.diary
  have hjobs := hshows.past
  obtain rfl | ⟨past, o, rfl⟩ := past.eq_nil_or_concat'
  · rw [List.map_eq_nil_iff.mp hjobs] at hj
    cases hj
  rw [List.map_append] at hjobs
  obtain ⟨js, ls, hsplit, hpast, hlast⟩ := List.map_eq_append_iff.mp hjobs
  obtain ⟨l, rest, rfl, hl, hrest⟩ := List.map_eq_cons_iff.mp hlast
  obtain rfl := List.map_eq_nil_iff.mp hrest
  have hmem : ∀ j ∈ js ++ [l], j ∈ s.db.jobs := fun j hj => (List.mem_filter.mp (hsplit ▸ hj)).1
  -- all but the last are settled
  have hold : ∀ j ∈ js, ¬ p j := by
    intro j hj hpj
    obtain ⟨o', ho', hentry⟩ := List.mem_map.mp (hpast ▸ List.mem_map_of_mem hj)
    have hsettled : o'.settledAt.isSome = j.status.terminal := congrArg Chronicle.settled hentry
    rw [inOrder_last horder o' ho', hp j (hmem j (List.mem_append_left _ hj)) hpj] at hsettled
    cases hsettled
  have hpl : p l := by
    obtain hj | hj := List.mem_append.mp (hsplit ▸ hj)
    · exact absurd hpj (hold j hj)
    · rwa [← List.mem_singleton.mp hj]
  have hopen : o.settledAt = none := by
    have hsettled : l.status.terminal = o.settledAt.isSome := congrArg Chronicle.settled hl
    rw [hp l (hmem l (List.mem_append_right _ (List.mem_singleton_self l))) hpl] at hsettled
    simpa using hsettled.symm
  have hstep : Step after ⟨past ++ [o], plan⟩ ⟨past ++ [o.settle now], plan⟩ :=
    Step.settle now hopen
  have hcurrent := fun q hq =>
    horder.current q hq o (List.mem_append_right _ (List.mem_singleton_self o)) hopen
  refine ⟨dated_settle h.dated, past, o.settle now, plan, ⟨?_, ?_, hshows.plan⟩,
    inOrder_step horder hstep, hK _ _ horder hstep hd, rfl, hcurrent⟩
  · rw [jobsOf_update _ (by exact fun _ => rfl), hsplit, Table.update, List.map_append,
      ← Table.update, Table.update_eq_self hold, List.map_append, hpast, List.map_append,
      List.map_singleton, if_pos hpl]
    have horigin : jobOrigin l = o.work := congrArg Chronicle.origin hl
    have hcreated : l.createdAt = o.firedAt := congrArg Chronicle.createdAt hl
    simp only [List.map_cons, List.map_nil, List.append_cancel_left_eq, List.cons.injEq, and_true]
    change (⟨jobOrigin l, l.createdAt, status.terminal, some now⟩ : Chronicle) =
      ⟨o.work, o.firedAt, true, some now⟩
    rw [horigin, hcreated, hstatus]
  · obtain ⟨holder, hlast⟩ := List.forall_mem_append.mp hshows.occurs
    exact List.forall_mem_append.mpr
      ⟨holder, List.forall_mem_singleton.mpr (hlast o (List.mem_singleton_self o))⟩

theorem onCourse_settle (h : OnCourse n K s) {p : Job → Bool} {status : JobStatus}
    (hstatus : status.terminal = true) (hp : ∀ j ∈ s.db.jobs, p j → j.status.terminal = false) :
    OnCourse n K { s with db.jobs := Table.update p (settledJob status now) s.db.jobs } := by
  by_cases hone : ∃ j ∈ jobsOf (toString n) s, p j
  · obtain ⟨j, hj, hpj⟩ := hone
    exact onCourse_ended (ended_settle hK h hstatus hp hj hpj)
  · exact onCourse_settle_other h (fun j hj hpj => hone ⟨j, hj, hpj⟩)

theorem onCourse_settled (h : OnCourse n K s) {row : Schedule} (hrow : row ∈ s.db.schedules)
    (hended : row.id = toString n → Ended n K now s) (lastResult : LastResult) :
    OnCourse n K { s with
      db.schedules := Table.update (fun s => decide (s.id = row.id))
        (writeSettled (settledRow now lastResult row)) s.db.schedules } := by
  have hplan : planOf (writeSettled (settledRow now lastResult row) row) =
      (planOf row).advance after now := by
    rw [writeSettled_self]
    exact planOf_settledRow now lastResult row
  have hdated := dated_settled h.dated hrow now lastResult
  have hfind := schedule_of_mem h.dated hrow
  by_cases hid : row.id = toString n
  · obtain ⟨past, o, plan, hshows, horder, hd, hsettled, hcurrent⟩ := (hended hid).diary
    obtain rfl : plan = some (planOf row) := by
      rw [hid] at hfind
      rw [show plan = _ from hshows.plan, hfind, Option.map_some]
    obtain ⟨hdue, hopen⟩ := hcurrent _ rfl
    have hstep : Step after ⟨past ++ [o], some (planOf row)⟩
        ⟨past ++ [o], some ((planOf row).advance after now)⟩ :=
      Step.move hsettled hdue hopen
    refine ⟨hdated, ⟨past ++ [o], some ((planOf row).advance after now)⟩,
      ⟨hshows.past, hshows.occurs, ?_⟩, inOrder_step horder hstep, hK _ _ horder hstep hd⟩
    rw [hid] at hfind
    simp only [Db.schedule] at hfind ⊢
    rw [Table.find_update (by exact fun _ _ => rfl), hfind, Option.map_some, Option.map_some,
      if_pos (decide_eq_true rfl), hplan]
  · obtain ⟨d, hshows, hd⟩ := h.diary
    refine ⟨hdated, d, shows_of hshows rfl ?_, hd⟩
    simp only [Db.schedule]
    rw [Table.find_update (by exact fun _ _ => rfl)]
    cases hother : Table.find (·.id) (toString n) s.db.schedules with
    | none => rfl
    | some row' =>
      have hid' : row'.id = toString n := (Table.find_mem hother).2
      have hne : row'.id ≠ row.id := fun heq => hid (heq.symm.trans hid')
      simp [hne]

theorem course_onJobSettled {j : Job} (hj : j ∈ v.shared.db.jobs) {view : JobView}
    (horigin : jobOrigin view.job = jobOrigin j) (h : OnCourse n K v.shared)
    (hended : ofSchedule (toString n) j = true → Ended n K v.shared.now v.shared) :
    Wp Eq (fun _ t => OnCourse n K t.shared) (onJobSettled view)
      (fun _ t => OnCourse n K t.shared) v := by
  have htype : view.job.sourceType = j.sourceType := congrArg JobOrigin.sourceType horigin
  have hsource : view.job.sourceId = j.sourceId := congrArg JobOrigin.sourceId horigin
  have hreported := still_aside _ _ (aside_settled view.job.id v).1
  have hu := onCourse_still h hreported
  refine (wp_bind ..).mpr ?_
  rintro _ rfl
  refine ⟨hu, ?_⟩
  split
  case isFalse => exact hu
  case isTrue hschedule =>
    refine (wp_bind ..).mpr ?_
    rintro _ rfl
    refine ⟨hu, ?_⟩
    simp only [Db.schedule]
    cases hfind : Table.find (·.id) (view.job.sourceId.getD "") v.shared.db.schedules with
    | none => exact hu
    | some row =>
      obtain ⟨hrow, hid⟩ := Table.find_mem hfind
      have hended' : row.id = toString n → Ended n K v.shared.now _ := fun hname => by
        refine ended_of (hended (decide_eq_true ⟨htype.symm.trans hschedule, ?_⟩)) hreported.jobs
          hreported.schedules hreported.uuid
        rw [← hsource, ← hname, hid]
        cases hview : view.job.sourceId with
        | some id => rfl
        | none =>
          obtain hforeign | ⟨m, _, t, hoccurs, _⟩ := h.dated.jobs j hj
          · exact absurd (htype.symm.trans hschedule) hforeign.2
          · have := hoccurs.source
            rw [show (jobOrigin j).sourceId = view.job.sourceId from hsource.symm, hview] at this
            cases this
      have hafter := onCourse_settled hK hu hrow hended'
        ⟨view.job.completedAt.getD v.shared.now, view.items.map resultOf⟩
      rintro _ rfl
      refine ⟨hu, ?_⟩
      rintro _ rfl
      exact ⟨hafter, hafter⟩

theorem course_complete (i : Id) (outcome : SendOutcome) (random : Nat)
    (hregister : Register (originsOf v.shared)) (h : OnCourse n K v.shared) :
    Wp Eq (fun _ t => OnCourse n K t.shared) (complete i outcome random)
      (fun _ t => OnCourse n K t.shared) v := by
  refine Probe.wp_complete i outcome random h (fun _ => h) ?_
  rintro task htask rfl
  have hrecord : Wp Eq (fun _ t => OnCourse n K t.shared) (recordOutcome task outcome random)
      (fun _ t => OnCourse n K t.shared ∧ Register (originsOf t.shared)) v := by
    refine wp_weaken (fun _ _ ht => ht) (fun _ _ ht => ht)
      (wp_alone (always_and (still_recordOutcome task outcome random)
        (write_recordOutcome task outcome random)) ?_
        ⟨h, hregister⟩)
    rintro a b ⟨ha, hregister⟩ ⟨hstill, hwrite⟩
    have hb := onCourse_still ha hstill
    exact ⟨hb, hb, register_origins hregister hwrite.origins⟩
  refine wp_seq hrecord (fun _ u hu => ?_)
  obtain ⟨hcourse, hregister'⟩ := hu
  have hnodup := jobs_nodup hregister'
  refine wp_settle_finish (fun _ ht => ht) hregister' hcourse (fun _ => hcourse) ?_
  intro j hj hid hopen _ status hstatus w hw
  have hp : ∀ j' ∈ u.shared.db.jobs, decide (j'.id = task.item.jobId ∧ j'.status ≠ .cancelled) =
      true → j'.status.terminal = false := by
    intro j' hj' hp'
    rw [Table.eq_of_key hnodup hj' hj ((of_decide_eq_true hp').1.trans hid.symm)]
    exact hopen
  have hpj : decide (j.id = task.item.jobId ∧ j.status ≠ .cancelled) = true := by
    refine decide_eq_true ⟨hid, fun hcancelled => ?_⟩
    rw [hcancelled] at hopen
    cases hopen
  have hstill := still_aside _ _ hw
  have hsettled : OnCourse n K w.shared :=
    onCourse_still (onCourse_settle hK hcourse hstatus hp) hstill
  refine ⟨hsettled, ?_⟩
  have hmem : settledJob status u.shared.now j ∈ w.shared.db.jobs := by
    rw [hw.jobs]
    exact Table.mem_update.mpr ⟨j, hj, if_pos hpj⟩
  refine course_onJobSettled hK hmem rfl hsettled (fun hsource => ?_)
  have hnow : w.shared.now = u.shared.now := hw.now
  rw [hnow]
  exact ended_of (ended_settle hK hcourse hstatus hp (List.mem_filter.mpr ⟨hj, hsource⟩) hpj)
    hstill.jobs
    hstill.schedules hstill.uuid

theorem course_cancelJob (id : Id) (actor : Option String) (h : OnCourse n K v.shared) :
    Wp Eq (fun _ t => OnCourse n K t.shared) (cancelJob id actor)
      (fun _ t => OnCourse n K t.shared) v := by
  refine wp_alone (T := fun a b => OnCourse n K a.shared → OnCourse n K b.shared) ?_
    (fun a b ha hab => ⟨hab ha, hab ha⟩) h
  have hlenient : Lenient (fun a b => OnCourse n K a.shared → OnCourse n K b.shared) :=
    fun a b hab ha => onCourse_still ha (still_aside a b hab)
  refine always_cancelJob hlenient.tolerant id actor (fun now => always_update _ (fun a ha => ?_))
    (fun now => ?_)
  · exact onCourse_settle hK ha rfl (fun j _ hj => by simpa using (of_decide_eq_true hj).2)
  · exact always_mono (fun a b hab ha => onCourse_still ha hab) (still_updateItemsRecord _ _ _)

end Settle

section Schedules

variable {v : World}

theorem course_create (input : CreateInput) (h : OnCourse n K v.shared)
    (hnew : ∀ args, normalize input = .ok args → v.shared.uuid = n →
      K ⟨[], some (planOf (newSchedule n v.shared.now args))⟩) :
    Wp Eq (fun _ t => OnCourse n K t.shared) (create input)
      (fun _ t => OnCourse n K t.shared) v := by
  simp only [create]
  cases hargs : normalize input with
  | error err => exact h
  | ok args =>
    have huuid : OnCourse n K { v.shared with uuid := v.shared.uuid + 1 } :=
      onCourse_of h rfl rfl (Nat.le_succ _)
    suffices hafter : OnCourse n K { v.shared with
        uuid := v.shared.uuid + 1
        db.schedules := v.shared.db.schedules ++ [newSchedule v.shared.uuid v.shared.now args] } by
      simp only [randomUUID, dateNow, wp_bind, wp_update, wp_query, wp_exec, forall_eq',
        huuid, true_and]
      exact ⟨hafter, hafter⟩
    have hdated := dated_create h.dated v.shared.now args
    by_cases hn : v.shared.uuid = n
    · subst hn
      have hfresh := shows_fresh h.dated (le_refl _)
      refine ⟨hdated, ⟨[], some (planOf (newSchedule v.shared.uuid v.shared.now args))⟩,
        ⟨hfresh.past, hfresh.occurs, ?_⟩, inOrder_empty _, hnew args hargs rfl⟩
      have hfind := schedule_of_mem hdated (List.mem_append_right _ (List.mem_singleton_self _))
      exact congrArg (Option.map planOf) hfind.symm
    · obtain ⟨d, hshows, hd⟩ := h.diary
      refine ⟨hdated, d, shows_of hshows rfl ?_, hd⟩
      have hother : Table.find (·.id) (toString n) [newSchedule v.shared.uuid v.shared.now args] =
          none :=
        Table.find_none.mpr (fun row hrow hid => by
          rw [List.mem_singleton.mp hrow] at hid
          exact hn (Nat.repr_injective hid))
      rw [Db.schedule, Table.find_append, hother, Option.or_none]
      rfl

theorem course_remove (hK : ∀ d d', InOrder d → Step after d d' → K d → K d') (id : String)
    (h : OnCourse n K v.shared) :
    Wp Eq (fun _ t => OnCourse n K t.shared) (Scheduler.remove id)
      (fun _ t => OnCourse n K t.shared) v := by
  rintro _ rfl
  suffices hafter : OnCourse n K { v.shared with
      db.schedules := v.shared.db.schedules.filter (fun s => decide (s.id ≠ id)) } from
      ⟨hafter, hafter⟩
  obtain ⟨d, hshows, horder, hd⟩ := h.diary
  have hdated := dated_remove h.dated id
  by_cases hid : toString n = id
  · have hstep : Step after d ⟨d.past, none⟩ := .withdraw d
    refine ⟨hdated, ⟨d.past, none⟩, ⟨hshows.past, hshows.occurs, ?_⟩, inOrder_step horder hstep,
      hK _ _ horder hstep hd⟩
    have hnone : Table.find (·.id) (toString n)
        (v.shared.db.schedules.filter (fun s => decide (s.id ≠ id))) = none :=
      Table.find_none.mpr (fun row hrow hname => by
        have hne := of_decide_eq_true (List.mem_filter.mp hrow).2
        exact hne (hname.trans hid))
    rw [Db.schedule, hnone]
    rfl
  · refine ⟨hdated, d, shows_of hshows rfl ?_, horder, hd⟩
    simp only [Db.schedule, Table.find, List.find?_filter]
    refine congrArg (Option.map planOf) (List.find?_congr (fun row _ => ?_))
    rw [Bool.eq_iff_iff]
    simp only [decide_eq_true_eq]
    exact ⟨fun h => h.2, fun hname => ⟨fun hsame => hid (hname.symm.trans hsame), hname⟩⟩

end Schedules

/-- No call creates a job in the name of a schedule. -/
def Honest : Call → Prop
  | .createJob args => Foreign args.idempotencyKey args.sourceType
  | _ => True

instance : (c : Call) → Decidable (Honest c)
  | .createJob _ => inferInstanceAs (Decidable (Foreign _ _))
  | .tick | .complete .. | .cancelJob .. | .pauseJob .. | .resumeJob .. | .createSchedule _
  | .removeSchedule _ | .runTickIfReady _ | .setOutboundDisabled .. | .drainAndStop | .request ..
  | .answered .. | .delayOver .. | .sweepExpiredIdempotencyKeys => inferInstanceAs (Decidable True)

theorem course_call (hK : ∀ d d', InOrder d → Step after d d' → K d → K d') {v : World} (c : Call)
    (hregister : Register (originsOf v.shared)) (h : OnCourse n K v.shared) (hc : Honest c)
    (hnew : ∀ input args, c = .createSchedule input → normalize input = .ok args →
      v.shared.uuid = n → K ⟨[], some (planOf (newSchedule n v.shared.now args))⟩) :
    Wp Eq (fun _ t => OnCourse n K t.shared) c.code (fun _ t => OnCourse n K t.shared) v := by
  have hstill : ∀ {p : Code Unit}, Always Still p →
      Wp Eq (fun _ t => OnCourse n K t.shared) p (fun _ t => OnCourse n K t.shared) v :=
    fun hp => wp_alone hp (fun a b ha hab => ⟨onCourse_still ha hab, onCourse_still ha hab⟩) h
  have hweb : ∀ {p : Code Unit}, Always Web p →
      Wp Eq (fun _ t => OnCourse n K t.shared) p (fun _ t => OnCourse n K t.shared) v :=
    fun hp => hstill (always_mono (fun _ _ => still_web) hp)
  cases c with
  | tick => exact hstill still_tick
  | complete i outcome random => exact course_complete hK i outcome random hregister h
  | createJob args =>
    refine wp_seq (alone_callCreateJob (P := fun t => OnCourse n K t.shared) args
      (fun a b hab ha => onCourse_still ha (still_aside a b hab)) ?_ ?_ h) (fun _ _ ht => ht)
    · exact fun job u db htransaction hu =>
        onCourse_insert hu htransaction (Nat.le_add_right _ _) (Or.inl hc)
        (fun hsource => hc.2 hsource.1)
    · intro result u hu
      cases result with
      | error err => exact hu
      | ok r => exact onCourse_still hu ⟨⟨rfl, rfl, rfl, le_refl _⟩, rfl, rfl⟩
  | cancelJob id actor => exact wp_seq (course_cancelJob hK id actor h) (fun _ _ ht => ht)
  | pauseJob id actor =>
    exact hstill (always_bind (still_pauseJob id actor) (fun _ => always_pure ()))
  | resumeJob id actor =>
    exact hstill (always_bind (still_resumeJob id actor) (fun _ => always_pure ()))
  | createSchedule input => exact course_create input h (fun args => hnew input args rfl)
  | removeSchedule id => exact course_remove hK id h
  | runTickIfReady ready => exact course_runTickIfReady hK ready h
  | setOutboundDisabled disabled actor reason => exact hweb (web_setOutboundDisabled _ _ _ _)
  | drainAndStop => exact hstill (always_exec (fun _ => ⟨⟨rfl, rfl, rfl, le_refl _⟩, rfl, rfl⟩))
  | request r ready => exact hweb (web_request r ready)
  | answered id answer ready => exact hweb (web_answered id answer ready)
  | delayOver id ready => exact hweb (web_delayOver id ready)
  | sweepExpiredIdempotencyKeys => exact hweb web_sweepExpiredIdempotencyKeys

def Genuine (a : Action) : Prop := ∀ c, a.calls = some c → Honest c

instance (a : Action) : Decidable (Genuine a) :=
  match h : a.calls with
  | none => isTrue (fun _ hc => by cases h.symm.trans hc)
  | some c => decidable_of_iff (Honest c) ⟨fun hc c' hc' => Option.some.inj (h.symm.trans hc') ▸ hc,
      fun hc => hc c h⟩

structure Charted (n : Nat) (K : Diary JobOrigin Terms Ms → Prop) (s : Server) : Prop where
  register : Register (originsOf s.world.shared)
  course : OnCourse n K s.world.shared

section Server

variable {s : Server}

theorem charted_step (hK : ∀ d d', InOrder d → Step after d d' → K d → K d')
    (h : Charted n K s) {a : Action} (ha : Genuine a)
    (hnew : ∀ input args, a.calls = some (.createSchedule input) → normalize input = .ok args →
      s.world.shared.uuid = n → K ⟨[], some (planOf (newSchedule n s.world.shared.now args))⟩) :
    Charted n K (step s a) := by
  refine ⟨register_step h.register a, ?_⟩
  refine step_keeps (I := fun w => OnCourse n K w.shared) (fun c hc => ?_) ?_ ?_ ?_ h.course
  · exact course_call hK c h.register h.course (ha c hc)
      (fun input args hinput => hnew input args (hinput ▸ hc))
  · exact fun v ms hv => onCourse_of hv rfl rfl (le_refl _)
  · exact fun v hv => onCourse_of hv rfl rfl (le_refl _)
  · intro v hv
    have hstill := still_boot v
    exact onCourse_of hv hstill.jobs hstill.schedules hstill.uuid

theorem uuid_step (s : Server) (a : Action) :
    s.world.shared.uuid ≤ (step s a).world.shared.uuid := by
  refine step_keeps (I := fun w => s.world.shared.uuid ≤ w.shared.uuid)
    (fun c _ => ?_) ?_ ?_ ?_ (le_refl _)
  · exact wp_alone (any_call c) (fun a b ha hab => ⟨le_trans ha hab.uuid, le_trans ha hab.uuid⟩)
      (le_refl _)
  · exact fun v ms hv => hv
  · exact fun v hv => hv
  · intro v hv
    exact le_trans hv (still_boot v).uuid

theorem charted_run (hK : ∀ d d', InOrder d → Step after d d' → K d → K d') (h : Charted n K s)
    (hn : n < s.world.shared.uuid) {as : List Action} (has : ∀ a ∈ as, Genuine a) :
    Charted n K (run s as) := by
  refine (play_invariant (fun s => Charted n K s ∧ n < s.world.shared.uuid) ?_ ⟨h, hn⟩
    (along_all has s)).1
  rintro s a ⟨h, hn⟩ ha
  refine ⟨charted_step hK h ha (fun _ _ _ _ heq => absurd heq (Nat.ne_of_gt hn)), ?_⟩
  exact Nat.lt_of_lt_of_le hn (uuid_step s a)

theorem dated_initial (concurrency : Nat) (now : Ms) :
    Dated 0 (initial concurrency now).world.shared :=
  ⟨fun _ h => absurd h List.not_mem_nil, List.nodup_nil, fun _ h => absurd h List.not_mem_nil,
    fun _ h => absurd h List.not_mem_nil, fun _ h => absurd h List.not_mem_nil⟩

theorem charted_initial (n : Nat) (concurrency : Nat) (now : Ms) {as : List Action}
    (has : ∀ a ∈ as, Genuine a) :
    Charted n (fun _ => True) (run (initial concurrency now) as) := by
  refine play_invariant (Charted n (fun _ => True)) (fun s a h ha => ?_) ?_
    (along_all has (initial concurrency now))
  · exact charted_step (fun _ _ _ _ _ => trivial) h ha (fun _ _ _ _ _ => trivial)
  · exact ⟨register_initial now,
      onCourse_fresh (dated_initial concurrency now) (Nat.zero_le n) trivial⟩

end Server

end WhatsappTester.Jobs.Course
