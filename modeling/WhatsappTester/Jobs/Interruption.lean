import WhatsappTester.Jobs.Uniqueness

namespace WhatsappTester.Jobs.Interruption

open Schema State Atomic Atomic.Program Atomic.Runs Statements Registry JobService Process

/-- How a call ends ahead of time: a statement of it fails, or its process dies. -/
inductive Failure
  | threw | died

def interrupted (f : Failure) (n : Nat) (id : Id) (actor : Option String) (s : Server) : Server :=
  match f with
  | .threw => { s with world := (Call.cancelJob id actor).code.cut n s.world }
  | .died => step s (.crash (.cancelJob id actor) n)

def isQuiet : Action → Bool
  | .advance _ | .restart => true
  | _ => false

def Pending (db : Db) (id i : Id) : Prop :=
  ∃ r, db.item i = some r ∧ r.jobId = id ∧ r.status ∈ [.queued, .claimed, .running]

structure Stands (id : Id) (items : Id → Prop) (status : JobStatus) (statuses : List ItemStatus)
    (db : Db) : Prop where
  job : (db.job id).map (·.status) = some status
  items : ∀ i, items i → ∃ r, db.item i = some r ∧ r.jobId = id ∧ r.status ∈ statuses

def Cancelled (id : Id) (db db' : Db) : Prop :=
  Stands id (Pending db id) .cancelled [.cancelled] db'

structure Unchanged (id : Id) (db db' : Db) : Prop where
  job : db'.job id = db.job id
  items : db'.itemsOf id = db.itemsOf id

/-- An interrupted cancellation has done all or nothing, and a second one completes it. -/
structure AllOrNothing (f : Failure) (n : Nat) (job : Job) (actor : Option String) (s : Server) :
    Prop where
  whole : Unchanged job.id s.world.shared.db (interrupted f n job.id actor s).world.shared.db ∨
    Cancelled job.id s.world.shared.db (interrupted f n job.id actor s).world.shared.db
  again : ¬ job.status.terminal → ∀ as : List Action, (∀ a ∈ as, isQuiet a) →
    (run (interrupted f n job.id actor s) as).up → ∀ actor',
      Cancelled job.id s.world.shared.db (step (run (interrupted f n job.id actor s) as)
        (.call (.cancelJob job.id actor'))).world.shared.db

structure Apart (v v' : World) : Prop where
  jobs : v'.shared.db.jobs = v.shared.db.jobs
  items : v'.shared.db.items = v.shared.db.items

theorem apart_lenient : Lenient Apart :=
  fun _ _ h => ⟨h.jobs, congrArg Custody.items h.custody⟩

theorem apart_refl (v : World) : Apart v v := ⟨rfl, rfl⟩

theorem apart_trans (v v' v'' : World) (h : Apart v v') (h' : Apart v' v'') : Apart v v'' :=
  ⟨h'.jobs.trans h.jobs, h'.items.trans h.items⟩

def cancelJobs (id : Id) (now : Ms) (jobs : List Job) : List Job :=
  Table.update (fun j => decide (j.id = id ∧ ¬ j.status.terminal)) (settledJob .cancelled now) jobs

def cancelItems (id : Id) (now : Ms) (items : List JobItem) : List JobItem :=
  Table.update (fun r => decide (r.jobId = id ∧ r.status ∈ [.queued, .claimed, .running]))
    (cancelledItem now) items

def cancellable (id : Id) (jobs : List Job) : Nat :=
  Table.changes (fun j => decide (j.id = id ∧ ¬ j.status.terminal)) jobs

section Cut

variable {id : Id} {actor : Option String} {v : World}

def cancelRest (id : Id) (actor : Option String) (now : Ms) (changes : Nat) :
    Code (Option JobView) :=
  if changes > 0 then do
    let _ ← updateItemsRecord
        (fun r => decide (r.jobId = id ∧ r.status ∈ [.queued, .claimed, .running]))
      (cancelledItem now) (fun _ => .itemsCancelled id)
    recordEvent id (.cancelled actor)
    getJob id
  else getJob id

def halfway (id : Id) (v : World) : World :=
  { v with shared.db.jobs := cancelJobs id v.shared.now v.shared.db.jobs }

def through (id : Id) (v : World) : World :=
  { v with
    shared.db.jobs := cancelJobs id v.shared.now v.shared.db.jobs
    shared.db.items := cancelItems id v.shared.now v.shared.db.items
    shared.trace := .itemsCancelled id :: v.shared.trace }

theorem cut_early {n : Nat} (hn : n < 2) : (Call.cancelJob id actor).code.cut n v = v := by
  match n, hn with
  | 0, _ => rfl
  | 1, _ => rfl

theorem cut_rest (n : Nat) : (Call.cancelJob id actor).code.cut (n + 2) v =
    (do let _ ← cancelRest id actor v.shared.now (cancellable id v.shared.db.jobs) : Code Unit).cut
      n (halfway id v) := rfl

theorem apart_getJob (id : Id) : Always Apart (do let _ ← getJob id : Code Unit) :=
  always_bind (always_getJob apart_lenient.tolerant id) (fun _ => always_pure ())

theorem apart_closing (id : Id) (actor : Option String) :
    Always Apart (do let _ ← (do recordEvent id (.cancelled actor); getJob id) : Code Unit) := by
  refine always_bind (always_bind (always_recordEvent apart_lenient id _) (fun _ => ?_))
    (fun _ => always_pure ())
  exact always_getJob apart_lenient.tolerant id

theorem cut_late (hopen : 0 < cancellable id v.shared.db.jobs) (n : Nat) :
    Apart (through id v) ((Call.cancelJob id actor).code.cut (n + 3) v) := by
  rw [cut_rest, cancelRest, if_pos hopen]
  exact always_cut apart_refl apart_trans (apart_closing id actor) (through id v) n

theorem cut_closed (hclosed : cancellable id v.shared.db.jobs = 0) (n : Nat) :
    Apart (halfway id v) ((Call.cancelJob id actor).code.cut (n + 2) v) := by
  rw [cut_rest, cancelRest, if_neg (by omega)]
  exact always_cut apart_refl apart_trans (apart_getJob id) (halfway id v) n

theorem run_rest : (Call.cancelJob id actor).code.run v =
    (do let _ ← cancelRest id actor v.shared.now (cancellable id v.shared.db.jobs) : Code Unit).run
      (halfway id v) := rfl

theorem run_open (hopen : 0 < cancellable id v.shared.db.jobs) :
    Apart (through id v) ((Call.cancelJob id actor).code.run v).2 := by
  rw [run_rest, cancelRest, if_pos hopen]
  exact always_run apart_refl apart_trans (apart_closing id actor) (through id v)

theorem run_closed (hclosed : cancellable id v.shared.db.jobs = 0) :
    Apart (halfway id v) ((Call.cancelJob id actor).code.run v).2 := by
  rw [run_rest, cancelRest, if_neg (by omega)]
  exact always_run apart_refl apart_trans (apart_getJob id) (halfway id v)

end Cut

section Standing

variable {id : Id} {items : Id → Prop} {status : JobStatus} {statuses : List ItemStatus}
  {v v' : World}

theorem stands_apart (h : Stands id items status statuses v.shared.db) (ha : Apart v v') :
    Stands id items status statuses v'.shared.db := by
  obtain ⟨hjob, hitems⟩ := h
  simp only [Db.job, Db.item] at hjob hitems
  exact ⟨by simpa only [Db.job, ha.jobs] using hjob, by simpa only [Db.item, ha.items] using hitems⟩

theorem job_halfway (id : Id) (v : World) :
    (halfway id v).shared.db.job id = (v.shared.db.job id).map (fun j =>
      if j.id = id ∧ ¬ j.status.terminal then settledJob .cancelled v.shared.now j else j) := by
  simp only [halfway, cancelJobs, Db.job]
  rw [Table.find_update (by exact fun _ _ => rfl)]
  simp only [decide_eq_true_eq]

theorem item_through (id i : Id) (v : World) :
    (through id v).shared.db.item i = (v.shared.db.item i).map (fun r =>
      if r.jobId = id ∧ r.status ∈ [.queued, .claimed, .running]
        then cancelledItem v.shared.now r else r) := by
  simp only [through, cancelItems, Db.item]
  rw [Table.find_update (by exact fun _ _ => rfl)]
  simp only [decide_eq_true_eq]

theorem job_cancelled (h : (v.shared.db.job id).map (·.status) = some status)
    (hstatus : status = .cancelled ∨ ¬ status.terminal) :
    ((halfway id v).shared.db.job id).map (·.status) = some .cancelled := by
  obtain ⟨j, hj, rfl⟩ := Option.map_eq_some_iff.mp h
  have hid : j.id = id := (Table.find_mem hj).2
  rw [job_halfway, hj, Option.map_some, Option.map_some]
  rcases hstatus with hcancelled | hopen
  · have hterminal : j.status.terminal := by rw [hcancelled]; rfl
    rw [if_neg (fun hboth => hboth.2 hterminal), hcancelled]
  · rw [if_pos ⟨hid, hopen⟩]
    rfl

theorem stands_through (h : Stands id items status statuses v.shared.db)
    (hstatus : status = .cancelled ∨ ¬ status.terminal)
    (hstatuses : statuses ⊆ [.queued, .claimed, .running, .cancelled]) :
    Stands id items .cancelled [.cancelled] (through id v).shared.db := by
  refine ⟨job_cancelled h.job hstatus, fun i hi => ?_⟩
  obtain ⟨r, hr, hjob, hr'⟩ := h.items i hi
  rw [item_through, hr, Option.map_some]
  split
  · exact ⟨_, rfl, hjob, List.mem_singleton.mpr rfl⟩
  · case isFalse hclosed =>
    have hmem := hstatuses hr'
    refine ⟨r, rfl, hjob, ?_⟩
    simp only [List.mem_cons, List.not_mem_nil, or_false] at hmem hclosed ⊢
    tauto

theorem stands_call (h : Stands id items status statuses v.shared.db)
    (hstatus : (status = .cancelled ∧ statuses = [.cancelled]) ∨
      ¬ status.terminal ∧ statuses = [.queued, .claimed, .running]) (actor : Option String) :
    Stands id items .cancelled [.cancelled]
      ((Call.cancelJob id actor).code.run v).2.shared.db := by
  rcases Nat.eq_zero_or_pos (cancellable id v.shared.db.jobs) with hclosed | hopen
  · refine stands_apart ?_ (run_closed hclosed)
    rcases hstatus with ⟨rfl, rfl⟩ | ⟨hnot, _⟩
    · exact ⟨job_cancelled h.job (Or.inl rfl), h.items⟩
    · obtain ⟨j, hj, rfl⟩ := Option.map_eq_some_iff.mp h.job
      obtain ⟨hmem, hid⟩ := Table.find_mem hj
      have hnone := List.countP_eq_zero.mp hclosed j hmem
      exact absurd (decide_eq_true ⟨hid, hnot⟩) hnone
  · refine stands_apart (stands_through h ?_ ?_) (run_open hopen)
    · exact hstatus.imp (·.1) (·.1)
    · rcases hstatus with ⟨_, rfl⟩ | ⟨_, rfl⟩ <;> simp

theorem stands_quiet {s : Server} {a : Action} (ha : isQuiet a)
    (hstatuses : .claimed ∈ statuses ∨ .running ∈ statuses → .queued ∈ statuses)
    (h : Stands id items status statuses s.world.shared.db) :
    Stands id items status statuses (step s a).world.shared.db := by
  cases a with
  | advance ms => exact h
  | restart =>
    by_cases hup : s.up
    · rwa [step_restart_up hup]
    · rw [step_restart hup]
      refine ⟨h.job, fun i hi => ?_⟩
      obtain ⟨r, hr, hjob, hr'⟩ := h.items i hi
      have hitem : (boot s.world).shared.db.item i = (s.world.shared.db.item i).map (fun r =>
          if Claiming.stale s.world.shared.now r
            then Claiming.recoveredItem s.world.shared.now r else r) :=
        Table.find_update (by exact fun _ _ => rfl) i _
      rw [hitem, hr, Option.map_some]
      split
      · case isTrue hstale =>
        refine ⟨_, rfl, hjob, hstatuses ?_⟩
        simp only [Claiming.stale, Bool.and_eq_true, decide_eq_true_eq, List.mem_cons,
          List.not_mem_nil, or_false] at hstale
        obtain ⟨hclaimed | hrunning, _⟩ := hstale
        · exact Or.inl (hclaimed ▸ hr')
        · exact Or.inr (hrunning ▸ hr')
      · exact ⟨r, rfl, hjob, hr'⟩
  | call c => cases ha
  | crash c n => cases ha

theorem stands_wait {s : Server} {as : List Action} (has : ∀ a ∈ as, isQuiet a)
    (hstatuses : .claimed ∈ statuses ∨ .running ∈ statuses → .queued ∈ statuses)
    (h : Stands id items status statuses s.world.shared.db) :
    Stands id items status statuses (run s as).world.shared.db :=
  play_invariant (fun s : Server => Stands id items status statuses s.world.shared.db)
    (fun _ _ hs ha => stands_quiet ha hstatuses hs) h (along_all has s)

theorem stands_again {s : Server} {as : List Action} (has : ∀ a ∈ as, isQuiet a)
    (hstatus : (status = .cancelled ∧ statuses = [.cancelled]) ∨
      ¬ status.terminal ∧ statuses = [.queued, .claimed, .running])
    (h : Stands id items status statuses s.world.shared.db) (hup : (run s as).up)
    (actor : Option String) :
    Stands id items .cancelled [.cancelled]
      (step (run s as) (.call (.cancelJob id actor))).world.shared.db := by
  have hstatuses : .claimed ∈ statuses ∨ .running ∈ statuses → .queued ∈ statuses := by
    rcases hstatus with ⟨_, rfl⟩ | ⟨_, rfl⟩ <;> simp
  rw [step_call hup]
  exact stands_call (stands_wait has hstatuses h) hstatus actor

end Standing

theorem interrupted_db {s : Server} (hup : s.up) (f : Failure) (n : Nat) (id : Id)
    (actor : Option String) : (interrupted f n id actor s).world.shared.db =
      ((Call.cancelJob id actor).code.cut n s.world).shared.db := by
  cases f with
  | threw => rfl
  | died =>
    simp only [interrupted, step, hup, ↓reduceIte]
    rfl

section Job

variable {job : Job} {v : World}

theorem cancellable_open (hjob : v.shared.db.job job.id = some job)
    (hopen : ¬ job.status.terminal) : 0 < cancellable job.id v.shared.db.jobs :=
  List.countP_pos_iff.mpr ⟨job, (Table.find_mem hjob).1, decide_eq_true ⟨rfl, hopen⟩⟩

theorem unchanged_terminal (hnodup : (v.shared.db.jobs.map (·.id)).Nodup)
    (hjob : v.shared.db.job job.id = some job) (hterminal : job.status.terminal)
    (actor : Option String) (n : Nat) :
    Unchanged job.id v.shared.db ((Call.cancelJob job.id actor).code.cut n v).shared.db := by
  have hnone : ∀ j ∈ v.shared.db.jobs, ¬ decide (j.id = job.id ∧ ¬ j.status.terminal) := by
    intro j hj hmatch
    obtain ⟨hid, hopen⟩ := of_decide_eq_true hmatch
    obtain rfl := Table.eq_of_key hnodup hj (Table.find_mem hjob).1 hid
    exact hopen hterminal
  match n with
  | 0 | 1 => exact ⟨rfl, rfl⟩
  | n + 2 =>
    obtain ⟨hjobs, hitems⟩ : Apart (halfway job.id v)
        ((Call.cancelJob job.id actor).code.cut (n + 2) v) :=
      cut_closed (List.countP_eq_zero.mpr hnone) n
    have hsame : (halfway job.id v).shared.db.jobs = v.shared.db.jobs :=
      Table.update_eq_self hnone
    refine ⟨?_, ?_⟩
    · rw [Db.job, hjobs, hsame, Db.job]
    · rw [Db.itemsOf, hitems]
      rfl

theorem stands_pending (hjob : v.shared.db.job job.id = some job) :
    Stands job.id (Pending v.shared.db job.id) job.status [.queued, .claimed, .running]
      v.shared.db :=
  ⟨by rw [hjob, Option.map_some], fun _ hi => hi⟩

theorem cancelled_late (hjob : v.shared.db.job job.id = some job) (hopen : ¬ job.status.terminal)
    (actor : Option String) (n : Nat) : Cancelled job.id v.shared.db
      ((Call.cancelJob job.id actor).code.cut (n + 3) v).shared.db :=
  stands_apart (stands_through (stands_pending hjob) (Or.inr hopen) (by simp))
    (cut_late (cancellable_open hjob hopen) n)

theorem halfway_iff (hjob : v.shared.db.job job.id = some job) (hopen : ¬ job.status.terminal) :
    Unchanged job.id v.shared.db (halfway job.id v).shared.db ∨
      Cancelled job.id v.shared.db (halfway job.id v).shared.db ↔
    ¬ ∃ i, Pending v.shared.db job.id i := by
  have hstatus := job_cancelled (stands_pending hjob).job (Or.inr hopen)
  constructor
  · rintro (hunchanged | hcancelled) ⟨i, r, hr, hid, hr'⟩
    · rw [hunchanged.job, hjob, Option.map_some, Option.some.injEq] at hstatus
      exact hopen (by rw [hstatus]; rfl)
    · obtain ⟨r', hitem, _, hcancelled'⟩ := hcancelled.items i ⟨r, hr, hid, hr'⟩
      have hsame : (halfway job.id v).shared.db.item i = v.shared.db.item i := rfl
      rw [hsame, hr, Option.some.injEq] at hitem
      subst hitem
      rw [List.mem_singleton.mp hcancelled'] at hr'
      simp at hr'
  · intro hnone
    exact Or.inr ⟨hstatus, fun i hi => absurd ⟨i, hi⟩ hnone⟩

theorem completed_again {s : Server} (hup : s.up) (hjob : s.world.shared.db.job job.id = some job)
    (hopen : ¬ job.status.terminal) (f : Failure) {n : Nat} (actor : Option String)
    (hn : n ≠ 2 ∨ ¬ ∃ i, Pending s.world.shared.db job.id i) {as : List Action}
    (has : ∀ a ∈ as, isQuiet a) (hagain : (run (interrupted f n job.id actor s) as).up)
    (actor' : Option String) :
    Cancelled job.id s.world.shared.db (step (run (interrupted f n job.id actor s) as)
      (.call (.cancelJob job.id actor'))).world.shared.db := by
  have hdb := interrupted_db hup f n job.id actor
  match n, hn with
  | 0, _ | 1, _ =>
    refine stands_again has (Or.inr ⟨hopen, rfl⟩) ?_ hagain actor'
    rw [hdb, cut_early (by omega)]
    exact stands_pending hjob
  | 2, hn =>
    refine stands_again has (Or.inl ⟨rfl, rfl⟩) ?_ hagain actor'
    rw [hdb]
    exact ⟨job_cancelled (stands_pending hjob).job (Or.inr hopen),
      fun i hi => absurd ⟨i, hi⟩ (hn.resolve_left (not_not.mpr rfl))⟩
  | n + 3, _ =>
    refine stands_again has (Or.inl ⟨rfl, rfl⟩) ?_ hagain actor'
    rw [hdb]
    exact cancelled_late hjob hopen actor n

end Job

/-- A cancellation survives an interruption if and only if that does not come between the update
of an open job and the update of its open items. -/
theorem allOrNothing_iff (concurrency : Nat) (now : Ms) (as : List Action) (f : Failure) (n : Nat)
    (actor : Option String) :
    let s := run (initial concurrency now) as
    s.up → ∀ job ∈ s.world.shared.db.jobs,
      (AllOrNothing f n job actor s ↔
        ¬ (n = 2 ∧ ¬ job.status.terminal ∧ ∃ i, Pending s.world.shared.db job.id i)) := by
  intro s hup job hmem
  have hnodup : (s.world.shared.db.jobs.map (·.id)).Nodup :=
    jobs_nodup (play_invariant_all (fun s : Server => Register (originsOf s.world.shared))
      (fun _ _ h => Uniqueness.register_step h _) (Uniqueness.register_initial now) as)
  have hjob : s.world.shared.db.job job.id = some job := Table.find_eq_some hnodup hmem
  have hdb := interrupted_db hup f n job.id actor
  by_cases hterminal : job.status.terminal
  · refine iff_of_true ⟨Or.inl ?_, fun hopen => absurd hterminal hopen⟩ (fun h => h.2.1 hterminal)
    rw [hdb]
    exact unchanged_terminal hnodup hjob hterminal actor n
  constructor
  · rintro ⟨hwhole, _⟩ ⟨rfl, _, hpending⟩
    rw [hdb] at hwhole
    exact (halfway_iff hjob hterminal).mp hwhole hpending
  · intro hcondition
    have hn : n ≠ 2 ∨ (¬ ∃ i, Pending s.world.shared.db job.id i) :=
      or_iff_not_imp_left.mpr (fun h hpending => hcondition ⟨not_not.mp h, hterminal, hpending⟩)
    refine ⟨?_, fun _ bs hbs => completed_again hup hjob hterminal f actor hn hbs⟩
    rw [hdb]
    match n, hn with
    | 0, _ | 1, _ =>
      rw [cut_early (by omega)]
      exact Or.inl ⟨rfl, rfl⟩
    | 2, hn => exact (halfway_iff hjob hterminal).mpr (hn.resolve_left (not_not.mpr rfl))
    | n + 3, _ => exact Or.inr (cancelled_late hjob hterminal actor n)

def oneItem : CreateJobArgs := { type := "bulk", items := [⟨some "1", none, some "hello"⟩] }

theorem allOrNothing_early :
    AllOrNothing .died 1 (newJob 0 0 oneItem) none
      (run (initial 1 0) [.call (.createJob oneItem)]) :=
  (allOrNothing_iff 1 0 [.call (.createJob oneItem)] .died 1 none (by decide +kernel)
    (newJob 0 0 oneItem) (by decide +kernel)).mpr (by simp)

/-- The process dies between the two updates: the job is cancelled, its item still queued. -/
theorem cancellation_torn :
    let s := run (initial 1 0) [.call (.createJob oneItem)]
    newJob 0 0 oneItem ∈ s.world.shared.db.jobs ∧
      ¬ AllOrNothing .died 2 (newJob 0 0 oneItem) none s := by
  refine ⟨by decide +kernel, fun h => ?_⟩
  have hitem : (run (initial 1 0) [.call (.createJob oneItem)]).world.shared.db.item 1 =
      some (newItem 1 0 0 0 "1" none "hello") := by decide +kernel
  rcases h.whole with hunchanged | hcancelled
  · exact absurd hunchanged.job (by decide +kernel)
  · have hall := hcancelled.items 1 ⟨_, hitem, rfl, by decide⟩
    obtain ⟨r', hr', _, hstatus⟩ := hall
    have hsame : (interrupted .died 2 (newJob 0 0 oneItem).id none
        (run (initial 1 0) [.call (.createJob oneItem)])).world.shared.db.item 1 =
          some (newItem 1 0 0 0 "1" none "hello") := by decide +kernel
    rw [hsame, Option.some.injEq] at hr'
    subst hr'
    exact absurd hstatus (by decide)

end WhatsappTester.Jobs.Interruption
