import WhatsappTester.Jobs.Probe
import WhatsappTester.Jobs.Standing
import WhatsappTester.Jobs.Uniqueness

namespace WhatsappTester.Jobs.Counting

open Schema State Atomic Atomic.Program Atomic.Runs Statements JobService Claiming Worker
  Ledger Custody
open Process Solo Standing Registry Uniqueness

/-- The tables of items and jobs agree, and the counters say what there is to count. -/
structure Counted (s : Shared) : Prop where
  distinct : Distinct s
  owned : ∀ r ∈ s.db.items, r.jobId ∈ jobIds s
  counts : ∀ j ∈ s.db.jobs, ∀ status, status.terminal = true →
    counter j status = tally s.db j.id status

def Underway (but : Option Id) (v : World) : Prop :=
  ∀ t ∈ v.mem.inFlight, some t.item.id ≠ but → Open t.item.id v.shared

structure Tallied (but : Option Id) (v : World) : Prop where
  counted : Counted v.shared
  underway : Underway but v

def reckoning (s : Shared) :
    List (ItemOrigin × Option ItemStatus) × List (JobOrigin × (ItemStatus → Nat)) :=
  (s.db.items.map itemStanding, s.db.jobs.map (fun j => (jobOrigin j, counter j)))

variable {s s' : Shared} {v v' : World} {but : Option Id}

theorem reckoning_standing (h : standing s' = standing s) : reckoning s' = reckoning s := by
  have hitems : s'.db.items.map itemStanding = s.db.items.map itemStanding :=
    congrArg Progress.items h
  have hjobs := congrArg (fun S => S.jobs.map (fun y => (y.1, y.2.2))) h
  simp only [standing, List.map_map, Function.comp_def, jobStanding] at hjobs
  simp only [reckoning, hitems, hjobs]

theorem tally_eq (id : Id) {status : ItemStatus} (h : status.terminal = true) :
    tally s.db id status =
      (reckoning s).1.countP (fun x => decide (x.1.jobId = id ∧ x.2 = some status)) := by
  rw [tally, reckoning, List.countP_map]
  refine List.countP_congr (fun r _ => ?_)
  rw [Function.comp_apply, decide_eq_true_iff, decide_eq_true_iff, itemStanding, final_eq_some]
  simp [itemOrigin, h]

theorem open_reckoning {i : Id} (h : Open i s) (heq : reckoning s' = reckoning s) : Open i s' := by
  have hitems : s'.db.items.map itemStanding = s.db.items.map itemStanding := congrArg Prod.fst heq
  rw [open_iff] at h ⊢
  simpa only [standing, hitems] using h

theorem counted_reckoning (h : Counted s) (heq : reckoning s' = reckoning s) : Counted s' := by
  have hitems : s'.db.items.map itemStanding = s.db.items.map itemStanding := congrArg Prod.fst heq
  have hjobs : s'.db.jobs.map (fun j => (jobOrigin j, counter j)) = _ := congrArg Prod.snd heq
  refine ⟨?_, ?_, ?_⟩
  · have hids := congrArg (List.map (fun x => x.1.id)) hitems
    simp only [List.map_map, Function.comp_def, itemStanding, itemOrigin] at hids
    rw [Distinct, hids]
    exact h.distinct
  · have hids := congrArg (List.map (fun y => y.1.id)) hjobs
    simp only [List.map_map, Function.comp_def, jobOrigin, reckoning] at hids
    intro r hr
    have hmem : itemStanding r ∈ s.db.items.map itemStanding := hitems ▸ List.mem_map_of_mem hr
    obtain ⟨r₀, hr₀, heq₀⟩ := List.mem_map.mp hmem
    have hjob : r₀.jobId = r.jobId := congrArg (fun x => x.1.jobId) heq₀
    rw [jobIds, hids, ← hjob]
    exact h.owned r₀ hr₀
  · intro j hj status hstatus
    have hmem : (jobOrigin j, counter j) ∈ s.db.jobs.map (fun j => (jobOrigin j, counter j)) := by
      rw [← show (reckoning s).2 = s.db.jobs.map (fun j => (jobOrigin j, counter j)) from rfl,
        ← heq]
      exact List.mem_map_of_mem hj
    obtain ⟨j₀, hj₀, heq₀⟩ := List.mem_map.mp hmem
    have hid : j₀.id = j.id := congrArg (fun y => y.1.id) heq₀
    have hcounter : counter j₀ = counter j := congrArg Prod.snd heq₀
    rw [← hcounter, h.counts j₀ hj₀ status hstatus, hid, tally_eq _ hstatus,
      tally_eq _ hstatus, heq]

structure Level (v v' : World) : Prop where
  reckoning : reckoning v'.shared = reckoning v.shared
  flight : v'.mem.inFlight = v.mem.inFlight

theorem level_even (h : Even v v') : Level v v' := ⟨reckoning_standing h.standing, h.flight⟩

theorem level_aside : Lenient Level := fun v v' h => level_even (even_aside v v' h)

theorem level_updateSchedules (p : Schedule → Bool) (f : Schedule → Schedule) :
    Always Level (updateSchedules p f) := always_update _ (fun _ => ⟨rfl, rfl⟩)

theorem tallied_level (h : Tallied but v) (hl : Level v v') : Tallied but v' := by
  refine ⟨counted_reckoning h.counted hl.reckoning, fun t ht hne => ?_⟩
  rw [hl.flight] at ht
  exact open_reckoning (h.underway t ht hne) hl.reckoning

def Orderly (v v' : World) : Prop := Tallied none v → Tallied none v'

theorem orderly_level (h : Level v v') : Orderly v v' := fun ht => tallied_level ht h

theorem orderly_aside : Lenient Orderly := fun v v' h => orderly_level (level_aside v v' h)

theorem orderly_even (h : Even v v') : Orderly v v' := orderly_level (level_even h)

theorem orderly_insertJobAndItems (id : Id) (now : Ms) (a : CreateJobArgs) :
    Always Orderly (insertJobAndItems id now a) := by
  refine always_update _ (fun v h => ?_)
  cases htransaction : createTransaction id now a v.shared.uuid v.shared.db with
  | error err => exact ⟨⟨h.counted.distinct, h.counted.owned, h.counted.counts⟩, h.underway⟩
  | ok db =>
    obtain ⟨rfl, hfresh, _, _, hnodup⟩ := createTransaction_ok htransaction
    have hnone : ∀ k : Id, ∀ status : ItemStatus, status.terminal = true →
        (newItems id now v.shared.uuid 0 a.items).countP
          (fun r => decide (r.jobId = k ∧ r.status = status)) = 0 := by
      intro k status hstatus
      refine List.countP_eq_zero.mpr (fun r hr => ?_)
      rw [(mem_newItems hr).2]
      rintro heq
      obtain ⟨_, rfl⟩ := of_decide_eq_true heq
      cases hstatus
    refine ⟨⟨hnodup h.counted.distinct, insert_owned htransaction h.counted.owned, ?_⟩, ?_⟩
    · intro j hj status hstatus
      simp only [tally, List.countP_append, hnone j.id status hstatus, Nat.add_zero]
      obtain hj | hj := List.mem_append.mp hj
      · exact h.counted.counts j hj status hstatus
      · rw [List.mem_singleton] at hj
        subst hj
        have hold : v.shared.db.items.countP (fun r => decide (r.jobId = id ∧ r.status = status)) =
            0 := by
          refine List.countP_eq_zero.mpr (fun r hr heq => ?_)
          obtain ⟨k, hk, hid⟩ := List.mem_map.mp (h.counted.owned r hr)
          exact hfresh k hk (hid.trans (of_decide_eq_true heq).1)
        rw [show (newJob id now a).id = id from rfl, hold]
        cases status <;> rfl
    · intro t ht hne r hr hid
      obtain hr | hr := List.mem_append.mp hr
      · exact h.underway t ht hne r hr hid
      · rw [(mem_newItems hr).2]
        rfl

theorem orderly_callCreateJob (a : CreateJobArgs) : Always Orderly (callCreateJob a) := by
  refine always_callCreateJob orderly_aside.tolerant a
    (fun id now => orderly_insertJobAndItems id now a) ?_
  intro result v
  cases result <;> exact orderly_level ⟨rfl, rfl⟩

theorem counter_addCounter {status : ItemStatus} (h : status.terminal = true) (now : Ms) (j : Job)
    (status' : ItemStatus) :
    counter (addCounter status now j) status' = counter j status' + if status =
      status' then 1 else 0 := by
  cases status <;> cases status' <;> first | rfl | cases h

theorem addCounter_id (status : ItemStatus) (now : Ms) (j : Job) :
    (addCounter status now j).id = j.id :=
  congrArg JobOrigin.id (addCounter_origin status now j)

theorem counted_terminal (h : Counted s) {row : JobItem} (hrow : row ∈ s.db.items)
    (hopen : row.status.terminal = false) {status : ItemStatus} (hstatus : status.terminal = true)
    (now : Ms) (category : Option Category) (detail : Option String) (t : List Event) :
    Counted { s with
      db.items :=
        Table.update (fun r => decide (r.id = row.id)) (terminalItem status category detail now)
        s.db.items
      db.jobs := Table.update (fun j => decide (j.id = row.jobId)) (addCounter status now) s.db.jobs
      trace := t } := by
  have hids : (Table.update (fun j => decide (j.id = row.jobId))
      (addCounter status now) s.db.jobs).map (·.id) = s.db.jobs.map (·.id) :=
    Table.map_update (fun j _ => addCounter_id status now j) _
  refine ⟨?_, ?_, ?_⟩
  · rw [Distinct, Table.map_update (by exact fun _ _ => rfl)]
    exact h.distinct
  · intro r hr
    obtain ⟨r₀, hr₀, rfl⟩ := Table.mem_update.mp hr
    rw [jobIds, hids]
    have := h.owned r₀ hr₀
    split <;> exact this
  · intro j hj status' hstatus'
    obtain ⟨j₀, hj₀, rfl⟩ := Table.mem_update.mp hj
    have hid : (if decide (j₀.id = row.jobId) = true then addCounter status now j₀ else j₀).id =
        j₀.id := by
      split
      · exact addCounter_id status now j₀
      · rfl
    have hcount :=
      Table.countP_update_one h.distinct hrow (f := terminalItem status category detail now)
      (fun r => decide (r.jobId = j₀.id ∧ r.status = status'))
    have hbefore : ¬ (row.jobId = j₀.id ∧ row.status = status') := by
      rintro ⟨_, rfl⟩
      rw [hopen] at hstatus'
      cases hstatus'
    have hold := h.counts j₀ hj₀ status' hstatus'
    simp only [tally] at hold
    simp only [tally, hid]
    simp only [hbefore, decide_false, Bool.false_eq_true, ↓reduceIte, terminalItem,
      Nat.add_zero] at hcount
    rw [hcount, ← hold]
    by_cases hjob : j₀.id = row.jobId
    · simp [hjob, counter_addCounter hstatus]
    · simp [hjob, Ne.symm hjob]

theorem ends_markItemTerminal {i : Id} {status : ItemStatus} {category : Option Category}
    {detail : Option String} (h : Tallied none v) (hopen : Open i v.shared)
    (hstatus : status.terminal = true) :
    Ends (markItemTerminal i status category detail) (fun _ u => Tallied (some i) u ∧
      u.mem.inFlight = v.mem.inFlight) v := by
  simp only [Ends, markItemTerminal, dateNow, selectItem, wp_bind, wp_query, forall_eq', true_and]
  cases hfind : v.shared.db.item i with
  | none => exact ⟨⟨h.counted, fun t ht hne => h.underway t ht (by simp)⟩, rfl⟩
  | some row =>
    obtain ⟨hrow, rfl⟩ := Table.find_mem hfind
    simp only [updateItemsRecord, updateJobs, hstatus, ↓reduceIte, wp_bind, wp_update,
      wp_pure, forall_eq', true_and]
    refine ⟨⟨counted_terminal h.counted hrow (hopen row hrow rfl) hstatus _ _ _ _, ?_⟩, trivial⟩
    intro t ht hne r hr hid
    obtain ⟨r₀, hr₀, rfl⟩ := Table.mem_update.mp hr
    by_cases hitem : r₀.id = row.id
    · simp only [hitem, decide_true, ↓reduceIte] at hid
      exact absurd (congrArg some hid.symm) (by simpa [terminalItem, hitem] using hne)
    · simp only [hitem, decide_false, Bool.false_eq_true, ↓reduceIte] at hid ⊢
      exact h.underway t ht (by simp) r₀ hr₀ hid

theorem tallied_skip (h : Tallied none v) : Tallied but v :=
  ⟨h.counted, fun t ht _ => h.underway t ht (by simp)⟩

theorem ends_recordOutcome {task : Task} {outcome : SendOutcome} {random : Nat} (h : Tallied none v)
    (hopen : Open task.item.id v.shared) :
    Ends (recordOutcome task outcome random) (fun _ u => Tallied (some task.item.id) u ∧
      u.mem.inFlight = v.mem.inFlight) v := by
  have hopened : ∀ {p : Code Unit} {u : World}, Always (Opened task.item.id) p →
      (Tallied none u ∧ u.mem.inFlight = v.mem.inFlight) ∧ Open task.item.id u.shared →
      Ends p (fun _ u => (Tallied none u ∧ u.mem.inFlight = v.mem.inFlight) ∧
        Open task.item.id u.shared) u := by
    intro p u hp hu
    refine ends_always (fun a b ha hab => ?_) hp hu
    have he := hab ha.2
    exact ⟨⟨tallied_level ha.1.1 (level_even he), he.flight.trans ha.1.2⟩, open_even ha.2 he⟩
  have hterminal : ∀ status category detail (u : World), status.terminal = true →
      (Tallied none u ∧ u.mem.inFlight = v.mem.inFlight) ∧ Open task.item.id u.shared →
      Ends (markItemTerminal task.item.id status category detail)
        (fun _ u => Tallied (some task.item.id) u ∧ u.mem.inFlight = v.mem.inFlight) u := by
    rintro status category detail u hstatus ⟨⟨hu, hflight⟩, hopen⟩
    exact wp_mono (fun _ t ht => ⟨ht.1, ht.2.trans hflight⟩)
      (ends_markItemTerminal hu hopen hstatus)
  simp only [recordOutcome]
  generalize classify outcome = result
  obtain ⟨status, category, detail⟩ := result
  have hmemo : ∀ {p : Code Unit}, Always Memo p → Always (Opened task.item.id) p :=
    fun hp => always_mono (fun _ _ hu => opened_of_even (even_memo hu)) hp
  refine wp_seq (hopened (always_recordAttemptFinish lenient_opened _ _ _ _ _) ⟨⟨h, rfl⟩, hopen⟩)
    (fun _ u hu => ?_)
  cases category with
  | none =>
    refine wp_seq (hopened (hmemo memo_recordSuccess) hu) (fun _ u hu => ?_)
    exact hterminal _ _ _ u rfl hu
  | some category =>
    refine wp_seq (hopened (hmemo (memo_recordFailure category)) hu) (fun _ u hu => ?_)
    split
    · have hretry := fun now : Ms => opened_scheduleRetry task.item.id
        (now + Retry.computeBackoffMs task.attemptNumber random) category detail
      refine wp_mono ?_ (hopened (always_bind (always_read lenient_opened.tolerant _) hretry) hu)
      exact fun _ t ht => ⟨tallied_skip ht.1.1, ht.1.2⟩
    · exact hterminal _ _ _ u (failureStatus_terminal category) hu

theorem level_settledJob (p : Job → Bool) (status : JobStatus) (now : Ms) :
    Always Level (updateJobs p (settledJob status now)) := by
  refine always_update _ (fun v => ⟨?_, rfl⟩)
  simp only [reckoning]
  rw [Table.map_update (by exact fun _ _ => rfl)]

theorem level_settle (jobId : Id) : Always Level (settle jobId) :=
  always_settle jobId (always_checkJobCompletion level_aside jobId
    (fun status now _ => level_settledJob _ status now))
    (fun view => always_onJobSettled level_aside view level_updateSchedules)

theorem ends_complete (i : Id) (outcome : SendOutcome) (random : Nat) (h : Tallied none v)
    (hn : (v.mem.inFlight.map (·.item.id)).Nodup) :
    Ends (complete i outcome random) (fun _ u => Tallied none u) v := by
  refine Probe.wp_complete i outcome random trivial (fun _ => h) ?_
  rintro task htask rfl
  refine wp_seq (ends_recordOutcome h (h.underway task htask (by simp))) (fun _ u hu => ?_)
  have hlevel : ∀ a b, Tallied (some task.item.id) a ∧ a.mem.inFlight = v.mem.inFlight → Level a b →
      Tallied (some task.item.id) b ∧ b.mem.inFlight = v.mem.inFlight :=
    fun a b ha hab => ⟨tallied_level ha.1 hab, hab.flight.trans ha.2⟩
  refine wp_seq (ends_always hlevel (level_settle _) hu) (fun _ u hu => ?_)
  rintro _ rfl
  obtain ⟨htallied, hflight⟩ := hu
  refine ⟨trivial, htallied.counted, fun t ht _ => ?_⟩
  simp only [hflight] at ht
  rw [eraseP_task _ hn, List.mem_filter, ← hflight] at ht
  exact htallied.underway t ht.1 (by simpa using ht.2)

theorem orderly_call {c : Call} (htick : c ≠ .tick) (hcomplete : ∀ i o r, c ≠ .complete i o r)
    (hcancel : ∀ id actor, c ≠ .cancelJob id actor) : Always Orderly c.code := by
  have heven : ∀ {p : Code Unit}, Always Even p → Always Orderly p :=
    fun h => always_mono (fun _ _ => orderly_even) h
  have hweb : ∀ {p : Code Unit}, Always Web p → Always Orderly p :=
    fun h => heven (always_mono (fun _ _ => even_web) h)
  cases c with
  | tick => exact absurd rfl htick
  | complete i o r => exact absurd rfl (hcomplete i o r)
  | createJob args => exact always_bind (orderly_callCreateJob args) (fun _ => always_pure ())
  | cancelJob id actor => exact absurd rfl (hcancel id actor)
  | pauseJob id actor =>
    exact heven (always_bind (even_pauseJob id actor) (fun _ => always_pure ()))
  | resumeJob id actor =>
    exact heven (always_bind (even_resumeJob id actor) (fun _ => always_pure ()))
  | createSchedule input =>
    exact always_create orderly_aside.tolerant input
      (fun _ _ _ => always_exec (fun _ => orderly_level ⟨rfl, rfl⟩))
  | removeSchedule id => exact always_exec (fun _ => orderly_level ⟨rfl, rfl⟩)
  | runTickIfReady ready =>
    exact always_runTickIfReady orderly_aside.tolerant orderly_callCreateJob
      (fun p f => always_mono (fun _ _ => orderly_level) (level_updateSchedules p f)) ready
  | setOutboundDisabled disabled actor reason => exact hweb (web_setOutboundDisabled _ _ _ _)
  | drainAndStop => exact heven (always_exec (fun _ => ⟨⟨rfl, rfl, rfl, le_refl _⟩, rfl, rfl⟩))
  | request r ready => exact hweb (web_request r ready)
  | answered id answer ready => exact hweb (web_answered id answer ready)
  | delayOver id ready => exact hweb (web_delayOver id ready)
  | sweepExpiredIdempotencyKeys => exact hweb web_sweepExpiredIdempotencyKeys

theorem wp_orderly {p : Code Unit} (hp : Always Orderly p) (h : Tallied none v) :
    Wp Eq (fun _ t => Tallied none t) p (fun _ t => Tallied none t) v := by
  refine wp_alone hp (fun s t hs hst => ?_) h
  exact ⟨hst hs, hst hs⟩

theorem wp_tick (h : Tallied none v) :
    Wp Eq (fun _ t => Tallied none t) tick (fun _ t => Tallied none t) v := by
  have hticked : ∀ t, Ticked v t → Tallied none t := by
    intro t ht
    have heq := reckoning_standing ht.standing
    refine ⟨counted_reckoning h.counted heq, fun x hx hne => ?_⟩
    obtain hx | hopen := ht.flight x hx
    · exact open_reckoning (h.underway x hx hne) heq
    · exact hopen
  exact wp_weaken (fun _ t ht => hticked t ht) (fun _ t ht => hticked t ht)
    (Standing.wp_tick h.counted.distinct)

/-- A job that is cancelled has no open item, unless it was settled before. -/
def Spent (id : Id) (v : World) : Prop :=
  (∃ j ∈ v.shared.db.jobs, j.id = id ∧ j.status.terminal = false) →
    ∀ r ∈ v.shared.db.items, r.jobId = id → r.status.terminal = true

theorem wp_cancelJob (id : Id) (actor : Option String) (h : Tallied none v) (hspent : Spent id v) :
    Wp Eq (fun _ t => Tallied none t) (cancelJob id actor) (fun _ t => Tallied none t) v := by
  have haside : ∀ {p : Code (Option JobView)} {u : World}, Always Aside p → Tallied none u →
      Wp Eq (fun _ t => Tallied none t) p (fun _ t => Tallied none t) u := by
    intro p u hp hu
    refine wp_alone hp (fun s t hs hst => ?_) hu
    exact ⟨orderly_aside s t hst hs, orderly_aside s t hst hs⟩
  have hget := always_getJob (T := Aside) (fun _ _ h => h.toAside) id
  simp only [cancelJob, dateNow, updateJobs, wp_bind, wp_query, wp_update, forall_eq', h, true_and]
  have hsettled := tallied_level h (level_settledJob
    (fun j => decide (j.id = id ∧ ¬ j.status.terminal)) .cancelled v.shared.now v).1
  refine ⟨hsettled, ?_⟩
  split
  case isFalse => exact haside hget hsettled
  case isTrue hchanges =>
    obtain ⟨j, hj, hid⟩ := List.countP_pos_iff.mp hchanges
    simp only [decide_eq_true_eq, Bool.not_eq_true] at hid
    have hrows : ∀ r ∈ v.shared.db.items, r.jobId = id → r.status.terminal = true :=
      hspent ⟨j, hj, hid⟩
    refine (wp_bind ..).mpr ?_
    rintro _ rfl
    have hsame : Table.update (fun r : JobItem =>
        decide (r.jobId = id ∧ r.status ∈ [.queued, .claimed, .running]))
        (cancelledItem v.shared.now) v.shared.db.items = v.shared.db.items := by
      refine Table.update_eq_self (fun r hr hp => ?_)
      obtain ⟨hjob, hstatus⟩ := of_decide_eq_true hp
      have hterminal := hrows r hr hjob
      cases hcase : r.status <;> simp_all [ItemStatus.terminal, terminalItemStatuses]
    have hnext : Tallied none { v with
        shared.db.jobs := Table.update (fun j => decide (j.id = id ∧ ¬ j.status.terminal))
          (settledJob .cancelled v.shared.now) v.shared.db.jobs
        shared.db.items := Table.update
          (fun r => decide (r.jobId = id ∧ r.status ∈ [.queued, .claimed, .running]))
          (cancelledItem v.shared.now) v.shared.db.items
        shared.trace := .itemsCancelled id :: v.shared.trace } := by
      rw [hsame]
      exact tallied_level hsettled ⟨rfl, rfl⟩
    exact ⟨hnext,
      haside (always_bind (always_recordEvent (fun _ _ h => h) _ _) (fun _ => hget)) hnext⟩

/-- No job that is not yet settled is cancelled with items still open, and no
process dies within a completion. -/
def Accounted (s : Server) (a : Action) : Prop :=
  s.up → match a with
    | .call (.cancelJob id _) | .crash (.cancelJob id _) _ => Spent id s.world
    | .crash (.complete ..) n => n = 0
    | _ => True

instance (id : Id) (v : World) : Decidable (Spent id v) := inferInstanceAs (Decidable (_ → _))

instance (s : Server) (a : Action) : Decidable (Accounted s a) := by
  unfold Accounted
  split <;> infer_instance

structure Audited (s : Server) : Prop where
  kept : Kept s
  register : Register (originsOf s.world.shared)
  tallied : Tallied none s.world

theorem wp_call {c : Call} (h : Tallied none v) (hcomplete : ∀ i o r, c ≠ .complete i o r)
    (hspent : ∀ id actor, c = .cancelJob id actor → Spent id v) :
    Wp Eq (fun _ t => Tallied none t) c.code (fun _ t => Tallied none t) v := by
  by_cases htick : c = .tick
  · subst htick
    exact wp_tick h
  by_cases hcancel : ∃ id actor, c = .cancelJob id actor
  · obtain ⟨id, actor, rfl⟩ := hcancel
    exact (wp_bind ..).mpr (wp_cancelJob id actor h (hspent id actor rfl))
  · exact wp_orderly (orderly_call htick hcomplete (fun id actor hc => hcancel ⟨id, actor, hc⟩)) h

theorem tallied_call {s : Server} (h : Audited s) (hup : s.up) {c : Call}
    (ha : Accounted s (.call c)) :
    Tallied none (c.code.run s.world).2 := by
  by_cases hcomplete : ∃ i outcome random, c = .complete i outcome random
  · obtain ⟨i, outcome, random, rfl⟩ := hcomplete
    exact wp_run (ends_complete i outcome random h.tallied
      (flight_nodup h.kept.inv.2 (h.kept.idle hup)))
  · refine wp_run (wp_call h.tallied (fun i o r hc => hcomplete ⟨i, o, r, hc⟩) ?_)
    rintro id actor rfl
    exact ha hup

theorem tallied_cut {s : Server} (h : Audited s) (hup : s.up) {c : Call} {n : Nat}
    (ha : Accounted s (.crash c n)) : Tallied none (c.code.cut n s.world) := by
  by_cases hcomplete : ∃ i outcome random, c = .complete i outcome random
  · obtain ⟨i, outcome, random, rfl⟩ := hcomplete
    have hzero : n = 0 := ha hup
    subst hzero
    exact h.tallied
  · refine wp_cut (I := fun t => Tallied none t) h.tallied
      (wp_call h.tallied (fun i o r hc => hcomplete ⟨i, o, r, hc⟩) ?_) n
    rintro id actor rfl
    exact ha hup

theorem tallied_boot (h : Tallied none v) : Tallied none (boot v) := by
  have hfresh : Tallied none { v with mem := fresh v.mem.pid v.mem } :=
    ⟨h.counted, fun t ht => absurd ht List.not_mem_nil⟩
  exact tallied_level hfresh (level_even (even_boot v))

theorem audited_step {s : Server} (h : Audited s) {a : Action} (ha : Accounted s a) :
    Audited (step s a) := by
  refine ⟨kept_step h.kept a, register_step h.register a, ?_⟩
  cases a with
  | advance ms =>
    exact ⟨⟨h.tallied.counted.distinct, h.tallied.counted.owned, h.tallied.counted.counts⟩,
      h.tallied.underway⟩
  | call c =>
    simp only [step]
    split
    case isTrue hup => exact tallied_call h hup ha
    case isFalse => exact h.tallied
  | crash c n =>
    simp only [step]
    split
    case isTrue hup => exact tallied_level (tallied_cut h hup ha) ⟨rfl, rfl⟩
    case isFalse => exact h.tallied
  | restart =>
    simp only [step]
    split
    · exact h.tallied
    · exact tallied_boot h.tallied

theorem audited_initial (concurrency : Nat) (now : Ms) : Audited (initial concurrency now) where
  kept := kept_initial concurrency now
  register := register_initial now
  tallied :=
    ⟨⟨List.nodup_nil, fun _ h => absurd h List.not_mem_nil, fun _ h => absurd h List.not_mem_nil⟩,
      fun _ h => absurd h List.not_mem_nil⟩

theorem audited_run {concurrency : Nat} {now : Ms} {as : List Action}
    (h : Along Accounted step (initial concurrency now) as) :
    Audited (run (initial concurrency now) as) :=
  play_invariant Audited (fun _ _ hs ha => audited_step hs ha) (audited_initial concurrency now) h

/-- As long as no open item is cancelled, each counter of a job says how many of its
items have that status, and the counters add up to its total when all its items are terminal. -/
theorem counters_agree (concurrency : Nat) (now : Ms) (as : List Action)
    (h : Along Accounted step (initial concurrency now) as) :
    let db := (run (initial concurrency now) as).world.shared.db
    ∀ j ∈ db.jobs,
      (j.succeeded = tally db j.id .succeeded ∧ j.failed = tally db j.id .failed ∧
        j.skipped = tally db j.id .skipped ∧ j.cancelled = tally db j.id .cancelled) ∧
      j.succeeded + j.failed + j.skipped + j.cancelled ≤ j.total ∧
      (j.succeeded + j.failed + j.skipped + j.cancelled = j.total ↔
        ∀ r ∈ db.items, r.jobId = j.id → r.status.terminal) := by
  intro db j hj
  have haudited := audited_run h
  have hcounts := haudited.tallied.counted.counts j hj
  have hsucceeded : j.succeeded = tally db j.id .succeeded := hcounts .succeeded rfl
  have hfailed : j.failed = tally db j.id .failed := hcounts .failed rfl
  have hskipped : j.skipped = tally db j.id .skipped := hcounts .skipped rfl
  have hcancelled : j.cancelled = tally db j.id .cancelled := hcounts .cancelled rfl
  have htotal : j.total = (db.itemsOf j.id).length := total_eq haudited.register hj
  have hsum : j.succeeded + j.failed + j.skipped + j.cancelled =
      (db.itemsOf j.id).countP (fun r => r.status.terminal) := by
    rw [← sum_tally, hsucceeded, hfailed, hskipped, hcancelled]
    simp [terminalItemStatuses, Nat.add_assoc]
  refine ⟨⟨hsucceeded, hfailed, hskipped, hcancelled⟩, ?_, ?_⟩
  · rw [hsum, htotal]
    exact List.countP_le_length
  · rw [hsum, htotal, List.countP_eq_length]
    simp [Db.itemsOf]

def twoItems : CreateJobArgs :=
  { type := "bulk", items := List.replicate 2 ⟨some "1", none, some "hello"⟩ }

/-- A job whose only item is queued when it is cancelled counts no cancelled item. -/
theorem counters_agree_fails :
    let db :=
      (run (initial 1 0) [.call (.createJob { twoItems with items := twoItems.items.take 1 }),
        .call (.cancelJob 0 none)]).world.shared.db
    (db.job 0).map (·.cancelled) = some 0 ∧ tally db 0 .cancelled = 1 := by
  decide +kernel

/-- One item is sent, the other fails; the job is cancelled after both. -/
theorem counters_agree_settled :
    let as : List Action := [.call (.createJob twoItems), .call .tick,
      .call (.complete 1 (.results [(.sent, none)]) 0),
      .call (.complete 2 (.results [(.notOnWhatsapp, none)]) 0), .call (.cancelJob 0 none)]
    let db := (run (initial 2 0) as).world.shared.db
    ∀ j ∈ db.jobs,
      (j.succeeded = tally db j.id .succeeded ∧ j.failed = tally db j.id .failed ∧
        j.skipped = tally db j.id .skipped ∧ j.cancelled = tally db j.id .cancelled) ∧
      j.succeeded + j.failed + j.skipped + j.cancelled ≤ j.total ∧
      (j.succeeded + j.failed + j.skipped + j.cancelled = j.total ↔
        ∀ r ∈ db.items, r.jobId = j.id → r.status.terminal) :=
  counters_agree 2 0 _ (by decide +kernel)

end WhatsappTester.Jobs.Counting
