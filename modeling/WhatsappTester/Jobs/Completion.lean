import WhatsappTester.Jobs.Upkeep

namespace WhatsappTester.Jobs.Completion

open Schema State Atomic Atomic.Program Atomic.Runs Statements JobService Claiming Worker
  Ledger Custody
open Process Solo Standing Registry Uniqueness Probe Settling Upkeep

/-- What may happen without a restart: time passes, the worker ticks, the
transport answers, and the kill switch is off. -/
def Continues : Action → Bool
  | .advance _ | .call .tick | .call (.complete ..) | .call (.setOutboundDisabled false ..) => true
  | _ => false

structure Going (id : Id) (s : Shared) : Prop where
  job : ∃ j ∈ s.db.jobs, j.id = id ∧ j.status ≠ .paused
  item : ∃ r ∈ s.db.items, r.jobId = id

def openItems (s : Shared) : Nat := s.db.items.countP (fun r => !r.status.terminal)

/-- A statement that neither pauses a job nor stops the worker. -/
structure Wakeful (v v' : World) : Prop where
  jobs : ∀ j ∈ v.shared.db.jobs, j.status ≠ .paused →
    ∃ j' ∈ v'.shared.db.jobs, j'.id = j.id ∧ j'.status ≠ .paused
  draining : v'.mem.draining = v.mem.draining

section Going

variable {u v w : World} {s : Server} {id : Id}

theorem wakeful_of_jobs (h : w.shared.db.jobs = v.shared.db.jobs)
    (hdraining : w.mem.draining = v.mem.draining) :
    Wakeful v w := ⟨fun j hj hstatus => ⟨j, h ▸ hj, rfl, hstatus⟩, hdraining⟩

theorem wakeful_refl (v : World) : Wakeful v v := wakeful_of_jobs rfl rfl

theorem wakeful_trans (h : Wakeful u v) (h' : Wakeful v w) : Wakeful u w := by
  refine ⟨fun j hj hstatus => ?_, h'.draining.trans h.draining⟩
  obtain ⟨j', hj', hid, hstatus'⟩ := h.jobs j hj hstatus
  obtain ⟨j'', hj'', hid', hstatus''⟩ := h'.jobs j' hj' hstatus'
  exact ⟨j'', hj'', hid'.trans hid, hstatus''⟩

theorem wakeful_aside : Lenient Wakeful := fun _ _ h =>
    wakeful_of_jobs h.jobs (congrArg (·.draining) h.mem)

theorem wakeful_memo (h : Memo v w) : Wakeful v w := wakeful_of_jobs (by rw [h.shared]) h.draining

theorem wakeful_web (h : Web v w) : Wakeful v w :=
  wakeful_of_jobs (congrArg JobSide.jobs h.jobSide) (congrArg JobSide.draining h.jobSide)

theorem wakeful_updateJobs (p : Job → Bool) {f : Job → Job} (hid : ∀ j, (f j).id = j.id)
    (hf : ∀ j, j.status ≠ .paused → (f j).status ≠ .paused) : Always Wakeful (updateJobs p f) := by
  refine always_update _ (fun v => ⟨fun j hj hstatus => ?_, rfl⟩)
  refine ⟨_, Table.mem_update.mpr ⟨j, hj, rfl⟩, ?_, ?_⟩
  · split
    · exact hid j
    · rfl
  · split
    · exact hf j hstatus
    · exact hstatus

theorem wakeful_tick : Always Wakeful tick := by
  have hitems : ∀ p f e, Always Wakeful (updateItemsRecord p f e) :=
    fun p f e => always_update _ (fun _ => wakeful_of_jobs rfl rfl)
  refine always_tick wakeful_aside.tolerant (always_tickLoop (fun _ _ => wakeful_memo)
    (always_claimNextItem wakeful_aside.tolerant (fun now => always_update _ (fun v => ?_)))
    (fun item => ?_))
  · cases nextClaimable v.shared.db now <;> exact wakeful_of_jobs rfl rfl
  · refine always_processItem item ?_
      (fun n => always_recordAttemptStart wakeful_aside _ n (fun _ => hitems _ _ _))
      (fun n => always_exec (fun _ => wakeful_of_jobs rfl rfl))
    exact always_markItemRunning wakeful_aside.tolerant _
      (fun _ => always_update _ (fun _ => wakeful_of_jobs rfl rfl))
      (fun _ _ => wakeful_updateJobs _ (fun _ => rfl) (fun _ _ => by simp [startedJob]))

theorem wakeful_settle (jobId : Id) : Always Wakeful (settle jobId) := by
  refine always_settle jobId
    (always_checkJobCompletion wakeful_aside jobId (fun status now hstatus => ?_))
    (fun view => always_onJobSettled wakeful_aside view
      (fun p f => always_update _ (fun _ => wakeful_of_jobs rfl rfl)))
  refine wakeful_updateJobs _ (fun _ => rfl) (fun j _ hpaused => ?_)
  rw [show (settledJob status now j).status = status from rfl] at hpaused
  rw [hpaused] at hstatus
  cases hstatus

theorem wakeful_complete (i : Id) (outcome : SendOutcome) (random : Nat) :
    Always Wakeful (complete i outcome random) := by
  have hitems : ∀ p f e, Always Wakeful (updateItemsRecord p f e) :=
    fun p f e => always_update _ (fun _ => wakeful_of_jobs rfl rfl)
  refine always_bind (always_read wakeful_aside.tolerant _) (fun task => ?_)
  cases task with
  | none => exact always_pure ()
  | some task =>
    refine always_bind (always_recordOutcome wakeful_aside (fun _ _ => wakeful_memo) task
      outcome random
      (fun _ _ _ => always_scheduleRetry wakeful_aside.tolerant _ _ _ _ (fun _ => hitems _ _ _))
      (fun status _ _ _ => always_markItemTerminal wakeful_aside.tolerant _ (fun _ => hitems _ _ _)
        (fun _ now => ?_)))
      (fun _ => always_bind (wakeful_settle _)
        (fun _ => always_exec (fun _ => wakeful_of_jobs rfl rfl)))
    exact wakeful_updateJobs _ (fun j => congrArg JobOrigin.id (addCounter_origin status now j))
      (fun j hj => by rwa [addCounter_status])

structure Driven (id : Id) (s : Server) : Prop where
  managed : Managed s
  up : s.up
  awake : s.world.mem.draining = false
  going : Going id s.world.shared

theorem going_wakeful (h : Going id v.shared) (hw : Wakeful v w)
    (horigins : origins w = origins v) :
    Going id w.shared := by
  obtain ⟨j, hj, hid, hstatus⟩ := h.job
  obtain ⟨r, hr, hjob⟩ := h.item
  obtain ⟨j', hj', hid', hstatus'⟩ := hw.jobs j hj hstatus
  obtain ⟨r', hr', hitem⟩ := item_origin horigins.symm hr
  have hjob' : r'.jobId = r.jobId := congrArg ItemOrigin.jobId hitem
  exact ⟨⟨j', hj', hid'.trans hid, hstatus'⟩, r', hr', hjob'.trans hjob⟩

theorem driven_call (h : Driven id s) {c : Call} (hcareful : Careful s (.call c))
    (hwakeful : Always Wakeful c.code)
    (horigins : Always (fun v v' => origins v' = origins v) c.code) :
    Driven id (step s (.call c)) := by
  have hw := always_run wakeful_refl (fun _ _ _ => wakeful_trans) hwakeful s.world
  have ho := always_run (T := fun v v' => origins v' = origins v) (fun _ => rfl)
    (fun _ _ _ h h' => h'.trans h) horigins s.world
  have hmanaged := managed_step h.managed hcareful
  have hstep := step_call h.up c
  rw [hstep] at hmanaged ⊢
  exact ⟨hmanaged, h.up, hw.draining.trans h.awake, going_wakeful h.going hw ho⟩

theorem driven_step (h : Driven id s) {a : Action} (hcareful : Careful s a) (ha : Continues a) :
    Driven id (step s a) := by
  cases a with
  | advance ms => exact ⟨managed_step h.managed hcareful, h.up, h.awake, h.going.job, h.going.item⟩
  | call c =>
    cases c with
    | tick => exact driven_call h hcareful wakeful_tick (always_mono (fun _ _ h => h.origins) write_tick)
    | complete i outcome random =>
      exact driven_call h hcareful (wakeful_complete i outcome random)
        (always_mono (fun _ _ h => h.origins) (write_complete i outcome random))
    | setOutboundDisabled disabled actor reason =>
      have hweb := web_setOutboundDisabled disabled actor reason none
      exact driven_call h hcareful (always_mono (fun _ _ => wakeful_web) hweb)
        (always_mono (fun _ _ => web_origins) hweb)
    | _ => cases ha
  | crash c n => cases ha
  | restart => cases ha

end Going

section Sent

variable {v : World} {s s' : Shared} {i : Id}

def delivered : SendOutcome := .results [(.sent, none)]

theorem openItems_standing (h : standing s' = standing s) : openItems s' = openItems s := by
  have hcount : ∀ s : Shared, openItems s = (standing s).items.countP (fun x => x.2.isNone) := by
    intro s
    rw [openItems, standing, List.countP_map]
    refine List.countP_congr (fun r _ => ?_)
    simp only [Function.comp_apply, itemStanding, Option.isNone_iff_eq_none, final_eq_none,
      Bool.not_eq_true']
  rw [hcount, hcount, h]

theorem openItems_split (i : Id) (s : Shared) : openItems s =
    (rowsBeside i s).countP (fun r => !r.status.terminal) +
      s.db.items.countP (fun r => !r.status.terminal && decide (r.id = i)) := by
  rw [openItems, rowsBeside, List.countP_eq_countP_filter_add _ _ (fun r => decide (r.id ≠ i))]
  simp [List.countP_filter]

theorem ends_delivered {task : Task} (htask : task ∈ v.mem.inFlight) (random : Nat) :
    Ends (complete task.item.id delivered random) (fun _ u =>
      u.mem.inFlight.length + 1 = v.mem.inFlight.length ∧
      rowsBeside task.item.id u.shared = rowsBeside task.item.id v.shared ∧
      ∀ r ∈ u.shared.db.items, r.id = task.item.id → r.status.terminal = true) v := by
  refine Probe.wp_complete _ delivered random trivial
    (fun hnone => absurd rfl (hnone task htask)) ?_
  rintro other hother hid
  have hrecorded : Ends (recordOutcome other delivered random) (fun _ u => Beside task.item.id v u ∧
      ∀ r ∈ u.shared.db.items, r.id = task.item.id → r.status.terminal = true) v := by
    rw [← hid]
    refine wp_mono (fun _ u hu => ⟨hu.1, fun r hr hri => ?_⟩) (wp_and
      (ends_always (fun a b ha hab => beside_trans ha hab)
        (beside_recordOutcome other delivered random)
        (beside_refl _ v))
      (Settling.ends_recordOutcome other delivered random))
    obtain hterminal | ⟨_, hne⟩ := hu.2 r hr hri
    · exact hterminal
    · exact absurd rfl hne
  have hmilder : ∀ a b : World, (a.mem.inFlight = v.mem.inFlight ∧
      rowsBeside task.item.id a.shared = rowsBeside task.item.id v.shared ∧
      ∀ r ∈ a.shared.db.items, r.id = task.item.id → r.status.terminal = true) → Milder a b →
      b.mem.inFlight = v.mem.inFlight ∧
      rowsBeside task.item.id b.shared = rowsBeside task.item.id v.shared ∧
      ∀ r ∈ b.shared.db.items, r.id = task.item.id → r.status.terminal = true := by
    rintro a b ⟨hflight, hrows, hterminal⟩ hab
    exact ⟨hab.flight.trans hflight, by rwa [rowsBeside, hab.items], hab.items ▸ hterminal⟩
  refine wp_seq hrecorded (fun _ u hu => ?_)
  refine wp_seq (ends_always hmilder (milder_settle _) ⟨hu.1.flight, hu.1.rows, hu.2⟩)
    (fun _ u hu => ?_)
  rintro _ rfl
  refine ⟨trivial, ?_, hu.2⟩
  have hlength :=
    List.length_eraseP_of_mem (p := fun t : Task => decide (t.item.id = other.item.id))
    hother (decide_eq_true rfl)
  simp only [hu.1, hlength]
  exact Nat.sub_add_cancel (List.length_pos_of_mem hother)

end Sent

section Drive

variable {s s' : Server} {id : Id}

/-- A continuation takes the one server to the other. -/
def Leads (s s' : Server) : Prop := ∃ bs, (∀ b ∈ bs, Continues b) ∧ run s bs = s'

theorem leads_refl (s : Server) : Leads s s := ⟨[], by simp, rfl⟩

theorem leads_step {a : Action} (ha : Continues a) (h : Leads (step s a) s') : Leads s s' := by
  obtain ⟨bs, hbs, hrun⟩ := h
  exact ⟨a :: bs, by simpa [ha] using hbs, hrun⟩

theorem leads_trans {s'' : Server} (h : Leads s s') (h' : Leads s' s'') : Leads s s'' := by
  obtain ⟨bs, hbs, rfl⟩ := h
  obtain ⟨bs', hbs', rfl⟩ := h'
  refine ⟨bs ++ bs', fun b hb => ?_, play_append ..⟩
  exact (List.mem_append.mp hb).elim (hbs b) (hbs' b)

theorem driven_deliver (h : Driven id s) {task : Task} (htask : task ∈ s.world.mem.inFlight) :
    let s' := step s (.call (.complete task.item.id delivered 0))
    Driven id s' ∧ s'.world.mem.inFlight.length + 1 = s.world.mem.inFlight.length ∧
      openItems s'.world.shared ≤ openItems s.world.shared ∧
      (Open task.item.id s.world.shared →
        openItems s'.world.shared < openItems s.world.shared) := by
  intro s'
  have hdriven : Driven id s' := driven_step h ⟨fun _ _ _ => Or.inl rfl, trivial⟩ rfl
  have hstep : s' = { s with world := (complete task.item.id delivered 0).run s.world |>.2 } := by
    simp only [s', step, h.up, ↓reduceIte, Call.code]
  obtain ⟨hlength, hrows, hterminal⟩ := wp_run (ends_delivered htask 0)
  have hnone : s'.world.shared.db.items.countP
      (fun r => !r.status.terminal && decide (r.id = task.item.id)) = 0 := by
    rw [hstep, List.countP_eq_zero]
    intro r hr
    by_cases hid : r.id = task.item.id
    · simp [hterminal r hr hid]
    · simp [hid]
  have hafter := openItems_split task.item.id s'.world.shared
  have hbefore := openItems_split task.item.id s.world.shared
  rw [hnone, hstep, hrows] at hafter
  refine ⟨hdriven, ?_, ?_, fun hopen => ?_⟩
  · rw [hstep]
    exact hlength
  · rw [hstep]
    omega
  · obtain ⟨e, hentry, _⟩ := ((h.managed.steady.kept.idle h.up).known task htask).2
    obtain ⟨r, hr, hid, _⟩ := item_of_entry hentry
    have hpos : 0 < s.world.shared.db.items.countP
        (fun r => !r.status.terminal && decide (r.id = task.item.id)) :=
      List.countP_pos_iff.mpr ⟨r, hr, by simp [hid, hopen r hr hid]⟩
    rw [hstep]
    omega

theorem driven_clear (h : Driven id s) :
    ∃ s', Leads s s' ∧ Driven id s' ∧ s'.world.mem.inFlight = [] ∧
    openItems s'.world.shared ≤ openItems s.world.shared := by
  generalize hn : s.world.mem.inFlight.length = n
  induction n generalizing s with
  | zero => exact ⟨s, leads_refl s, h, List.length_eq_zero_iff.mp hn, le_refl _⟩
  | succ n ih =>
    obtain ⟨task, htask⟩ :=
      List.exists_mem_of_length_pos (by omega : 0 < s.world.mem.inFlight.length)
    obtain ⟨hdriven, hlength, hle, _⟩ := driven_deliver h htask
    obtain ⟨s', hleads, hdriven', hclear, hle'⟩ := ih hdriven (by omega)
    exact ⟨s', leads_step rfl hleads, hdriven', hclear, le_trans hle' hle⟩

theorem driven_tick (h : Driven id s) (hidle : s.world.mem.inFlight = [])
    (henabled : KillSwitch.outboundDisabled s.world.shared.db = false)
    (hcooled : s.world.mem.breaker.state = .open →
      Breaker.Cooled s.world.shared.now s.world.mem.breaker)
    {row : JobItem} (hrow : nextClaimable s.world.shared.db s.world.shared.now = some row) :
    let s' := step s (.call .tick)
    Driven id s' ∧ openItems s'.world.shared = openItems s.world.shared ∧
      ∃ t ∈ s'.world.mem.inFlight, Open t.item.id s'.world.shared := by
  intro s'
  have hn := h.managed.steady.kept.inv.1
  have hdriven : Driven id s' := by
    refine driven_step h ⟨fun _ _ _ _ _ _ => ?_, trivial⟩ rfl
    rw [hrow]
    exact Option.some_ne_none row
  have hstep : s' = { s with world := (tick.run s.world).2 } := by
    simp only [s', step, h.up, ↓reduceIte, Call.code]
  have hticked : Ticked s.world (tick.run s.world).2 := wp_run (Standing.wp_tick hn)
  obtain ⟨t, ht, _⟩ :=
    wp_run (claims_tick hn (h.managed.steady.fit h.up) h.managed.steady.room h.awake henabled
    hidle hcooled hrow)
  refine ⟨hdriven, ?_, t, ?_, ?_⟩
  · rw [hstep]
    exact openItems_standing hticked.standing
  · rw [hstep]
    exact ht
  · rw [hstep]
    obtain hold | hopen := hticked.flight t ht
    · rw [hidle] at hold
      cases hold
    · exact hopen

theorem queued_of_going (h : Driven id s) (hidle : s.world.mem.inFlight = [])
    (hopen : ∀ j ∈ s.world.shared.db.jobs, j.id = id → j.status.terminal = false) :
    ∃ r ∈ s.world.shared.db.items, r.status = .queued ∧
      ∃ j ∈ s.world.shared.db.jobs, j.id = r.jobId ∧ j.status ∈ [JobStatus.queued, .running] := by
  obtain ⟨j, hj, rfl, hpaused⟩ := h.going.job
  have hstatus := hopen j hj rfl
  obtain ⟨r, hr, hjob, hterminal⟩ := h.managed.fed j hj hstatus not_false h.going.item
  refine ⟨r, hr, ?_, j, hj, hjob.symm, ?_⟩
  · have hfree : r.status ∉ [ItemStatus.claimed, .running] := by
      intro htaken
      obtain ⟨t, ht, _⟩ := h.managed.held h.up r hr htaken (by simp) ⟨j, hj, hjob.symm, hstatus⟩
      rw [hidle] at ht
      cases ht
    cases hcase : r.status <;> simp_all [ItemStatus.terminal, terminalItemStatuses]
  · cases hcase : j.status <;> simp_all [JobStatus.terminal, terminalJobStatuses]

theorem exists_later (now a b : Int) : ∃ ms : Nat, a ≤ now + ms ∧ b ≤ now + ms := by
  refine ⟨(a - now).toNat + (b - now).toNat, ?_, ?_⟩ <;> omega

theorem driven_round (h : Driven id s) (hidle : s.world.mem.inFlight = [])
    (hopen : ∀ j ∈ s.world.shared.db.jobs, j.id = id → j.status.terminal = false) :
    ∃ s', Leads s s' ∧ Driven id s' ∧ openItems s'.world.shared < openItems s.world.shared := by
  obtain ⟨r, hr, hqueued, j, hj, hjob, hstatus⟩ := queued_of_going h hidle hopen
  obtain ⟨ms, hdue, hcool⟩ := exists_later s.world.shared.now r.nextAttemptAt
    (s.world.mem.breaker.openedAt.getD 0 + s.world.mem.breaker.cooldownMs)
  let s₁ := step s (.call (.setOutboundDisabled false none none))
  let s₂ := step s₁ (.advance ms)
  have hstep₁ : s₁ = { s with world := (KillSwitch.setOutboundDisabled false none none none).run s.world |>.2 } := by
    simp only [s₁, step, h.up, ↓reduceIte, Call.code]
  have hweb : Web s.world s₁.world := by
    rw [hstep₁]
    exact always_run web_refl (fun _ _ _ => web_trans)
      (web_setOutboundDisabled false none none none) s.world
  have henabled : KillSwitch.outboundDisabled s₂.world.shared.db = false := by
    simp only [s₂, step, hstep₁]
    exact wp_run (KillSwitch.ends_setOutboundDisabled false none none none s.world)
  have hdriven : Driven id s₂ :=
    driven_step (driven_step h ⟨fun _ => trivial, trivial⟩ rfl) ⟨fun _ => trivial, trivial⟩ rfl
  have hitems : s₂.world.shared.db.items = s.world.shared.db.items :=
    congrArg JobSide.items hweb.jobSide
  have hjobs : s₂.world.shared.db.jobs = s.world.shared.db.jobs :=
    congrArg JobSide.jobs hweb.jobSide
  have hflight : s₂.world.mem.inFlight = [] := (congrArg JobSide.inFlight hweb.jobSide).trans hidle
  have hbreaker : s₂.world.mem.breaker = s.world.mem.breaker :=
    congrArg JobSide.breaker hweb.jobSide
  have hnow : s₂.world.shared.now = s.world.shared.now + ms := by simp only [s₂, step, hweb.now]
  have hcooled : Breaker.Cooled s₂.world.shared.now s₂.world.mem.breaker := by
    rw [hnow, hbreaker]
    exact Int.le_sub_left_of_add_le hcool
  have hclaimable : claimable s₂.world.shared.db s₂.world.shared.now r = true := by
    simp only [claimable, hjobs, hnow, Bool.and_eq_true, decide_eq_true_eq, List.any_eq_true]
    exact ⟨⟨hqueued, hdue⟩, j, hj, hjob, hstatus⟩
  have hsome : nextClaimable s₂.world.shared.db s₂.world.shared.now ≠ none := by
    intro hnone
    rw [nextClaimable_none.mp hnone r (hitems ▸ hr)] at hclaimable
    cases hclaimable
  obtain ⟨row, hrow⟩ := Option.ne_none_iff_exists'.mp hsome
  obtain ⟨hdriven₃, hsame, t, ht, hopen'⟩ :=
    driven_tick hdriven hflight henabled (fun _ => hcooled) hrow
  obtain ⟨hdriven₄, _, _, hless⟩ := driven_deliver hdriven₃ ht
  have hcount : openItems s₂.world.shared = openItems s.world.shared := by
    rw [openItems, openItems, hitems]
  refine ⟨_, leads_step rfl (leads_step rfl (leads_step rfl (leads_step rfl (leads_refl _)))),
    hdriven₄, ?_⟩
  rw [← hcount, ← hsame]
  exact hless hopen'

theorem driven_settles (h : Driven id s) :
    ∃ s', Leads s s' ∧ ∃ j ∈ s'.world.shared.db.jobs, j.id = id ∧ j.status.terminal := by
  generalize hn : openItems s.world.shared = n
  induction n using Nat.strong_induction_on generalizing s with
  | _ n ih =>
    obtain ⟨s₁, hleads, hdriven, hidle, hle⟩ := driven_clear h
    by_cases hdone : ∃ j ∈ s₁.world.shared.db.jobs, j.id = id ∧ j.status.terminal
    · exact ⟨s₁, hleads, hdone⟩
    · have hopen : ∀ j ∈ s₁.world.shared.db.jobs, j.id = id → j.status.terminal = false := by
        intro j hj hid
        by_contra hne
        exact hdone ⟨j, hj, hid, by simpa using hne⟩
      obtain ⟨s₂, hleads₂, hdriven₂, hless⟩ := driven_round hdriven hidle hopen
      obtain ⟨s', hleads', hsettled⟩ := ih _ (by omega) hdriven₂ rfl
      exact ⟨s', leads_trans hleads (leads_trans hleads₂ hleads'), hsettled⟩

end Drive

/-- With careful restarts every queued or running job can still be settled: whatever is
taken is in flight, and no job waits with all its items done. -/
theorem jobs_can_settle {concurrency : Nat} (hroom : 0 < concurrency) (now : Ms) (as : List Action)
    (h : Along Careful step (initial concurrency now) as) :
    let s := run (initial concurrency now) as
    s.up → s.world.mem.draining = false →
      (∀ j ∈ s.world.shared.db.jobs, j.status ∈ [JobStatus.queued, .running] →
        (∃ r ∈ s.world.shared.db.items, r.jobId = j.id) →
        ∃ bs, (∀ b ∈ bs, Continues b) ∧
          ∃ j' ∈ (run s bs).world.shared.db.jobs, j'.id = j.id ∧ j'.status.terminal) ∧
      ∀ j ∈ s.world.shared.db.jobs, j.status.terminal = false →
        (∀ r ∈ s.world.shared.db.items, r.jobId = j.id → r.status ∈ [ItemStatus.claimed, .running] →
          ∃ t ∈ s.world.mem.inFlight, t.item.id = r.id) ∧
        ((∃ r ∈ s.world.shared.db.items, r.jobId = j.id) →
          ∃ r ∈ s.world.shared.db.items, r.jobId = j.id ∧ r.status.terminal = false) := by
  intro s hup hawake
  have hmanaged : Managed s := managed_run hroom h
  refine ⟨fun j hj hstatus hitem => ?_, fun j hj hopen =>
    ⟨fun r hr hjob hstatus => ?_, fun hitem => ?_⟩⟩
  · have hpaused : j.status ≠ .paused := by
      rintro heq
      simp [heq] at hstatus
    obtain ⟨s', ⟨bs, hbs, rfl⟩, hsettled⟩ :=
      driven_settles ⟨hmanaged, hup, hawake, ⟨j, hj, rfl, hpaused⟩, hitem⟩
    exact ⟨bs, hbs, hsettled⟩
  · exact hmanaged.held hup r hr hstatus (by simp) ⟨j, hj, hjob.symm, hopen⟩
  · exact hmanaged.fed j hj hopen not_false hitem

def oneItem : CreateJobArgs := { type := "bulk", items := [⟨some "1", none, some "hello"⟩] }

def crashed : List Action := [.call (.createJob oneItem), .call .tick, .crash .tick 0]

/-- All items are running, none is in flight, and no job is settled. -/
structure Stuck (v : World) : Prop where
  distinct : Distinct v.shared
  running : ∀ r ∈ v.shared.db.items, r.status = .running
  unsettled : ∀ j ∈ v.shared.db.jobs, j.status.terminal = false
  idle : v.mem.inFlight = []

theorem stuck_tick {v : World} (h : Stuck v) : Ends tick (fun _ u => Stuck u) v := by
  have hmemo : ∀ {α : Type} {p : Code α}, Always Memo p → ∀ v, Stuck v →
      Ends p (fun _ u => Stuck u) v := by
    intro α p hp v hv
    refine ends_always (fun a b ha hab => ?_) hp hv
    exact ⟨hab.shared ▸ ha.distinct, hab.shared ▸ ha.running, hab.shared ▸ ha.unsettled,
      (congrArg Custody.inFlight hab.custody).trans ha.idle⟩
  refine Statements.wp_tick (P := Stuck) (fun f v hv => ?_) hmemo (fun v hv => ?_) h
  · rintro _ rfl
    exact ⟨trivial, hv⟩
  · refine wp_claimNextItem hv.distinct trivial (fun _ => hv) (fun row hrow => ?_)
    obtain ⟨hmem, hclaimable⟩ := nextClaimable_mem hrow
    have hqueued := claimable_queued hclaimable
    rw [hv.running row hmem] at hqueued
    cases hqueued

theorem stuck_step {s : Server} (h : Stuck s.world) {a : Action} (ha : Continues a) :
    Stuck (step s a).world := by
  have hcall : ∀ c : Call, Ends c.code (fun _ u => Stuck u) s.world →
      Stuck (step s (.call c)).world := by
    intro c hc
    simp only [step]
    split
    · exact wp_run hc
    · exact h
  cases a with
  | advance ms => exact ⟨h.distinct, h.running, h.unsettled, h.idle⟩
  | call c =>
    cases c with
    | tick => exact hcall _ (stuck_tick h)
    | complete i outcome random =>
      refine hcall _ (Probe.wp_complete i outcome random trivial (fun _ => h)
        (fun task htask => ?_))
      rw [h.idle] at htask
      cases htask
    | setOutboundDisabled disabled actor reason =>
      refine hcall _ (ends_always (fun a b ha hab => ?_)
        (web_setOutboundDisabled disabled actor reason none) h)
      have hitems : b.shared.db.items = a.shared.db.items := congrArg JobSide.items hab.jobSide
      have hjobs : b.shared.db.jobs = a.shared.db.jobs := congrArg JobSide.jobs hab.jobSide
      exact ⟨by rw [Distinct, hitems]; exact ha.distinct, hitems ▸ ha.running, hjobs ▸ ha.unsettled,
        (congrArg JobSide.inFlight hab.jobSide).trans ha.idle⟩
    | _ => cases ha
  | crash c n => cases ha
  | restart => cases ha

/-- Started again at once, the process leaves the item running for good. -/
theorem jobs_can_settle_fails :
    let s := run (initial 1 0) (crashed ++ [.restart])
    s.up ∧ s.world.mem.draining = false ∧
      (∃ j ∈ s.world.shared.db.jobs, j.status = .running ∧
        ∃ r ∈ s.world.shared.db.items, r.jobId = j.id) ∧
      ∀ bs, (∀ b ∈ bs, Continues b) → ∀ j ∈ (run s bs).world.shared.db.jobs,
      ¬ j.status.terminal := by
  intro s
  refine ⟨by decide +kernel, by decide +kernel, by decide +kernel, fun bs hbs j hj => ?_⟩
  have hstuck : Stuck s.world :=
    ⟨by rw [Distinct]; decide +kernel, by decide +kernel, by decide +kernel, by decide +kernel⟩
  have := play_invariant (fun s => Stuck s.world) (fun s b hs hb => stuck_step hs hb) hstuck
    (along_all hbs s)
  simp [this.unsettled j hj]

/-- Started again after the lease, it takes the item back. -/
theorem jobs_can_settle_late :
    let s := run (initial 1 0) (crashed ++ [.advance 60001, .restart])
    s.up → s.world.mem.draining = false →
      (∀ j ∈ s.world.shared.db.jobs, j.status ∈ [JobStatus.queued, .running] →
        (∃ r ∈ s.world.shared.db.items, r.jobId = j.id) →
        ∃ bs, (∀ b ∈ bs, Continues b) ∧
          ∃ j' ∈ (run s bs).world.shared.db.jobs, j'.id = j.id ∧ j'.status.terminal) ∧
      ∀ j ∈ s.world.shared.db.jobs, j.status.terminal = false →
        (∀ r ∈ s.world.shared.db.items, r.jobId = j.id → r.status ∈ [ItemStatus.claimed, .running] →
          ∃ t ∈ s.world.mem.inFlight, t.item.id = r.id) ∧
        ((∃ r ∈ s.world.shared.db.items, r.jobId = j.id) →
          ∃ r ∈ s.world.shared.db.items, r.jobId = j.id ∧ r.status.terminal = false) :=
  jobs_can_settle (by decide) 0 _ (by decide +kernel)

end WhatsappTester.Jobs.Completion
