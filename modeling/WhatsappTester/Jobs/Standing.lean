import WhatsappTester.Jobs.Solo

namespace WhatsappTester.Jobs.Standing

open Schema State Atomic Atomic.Program Statements JobService Claiming Worker Ledger Process Solo

def final (status : ItemStatus) : Option ItemStatus := if status.terminal then some status else none

def counter (j : Job) : ItemStatus → Nat
  | .succeeded => j.succeeded
  | .failed => j.failed
  | .skipped => j.skipped
  | .cancelled => j.cancelled
  | _ => 0

def tally (db : Db) (id : Id) (status : ItemStatus) : Nat :=
  db.items.countP (fun r => decide (r.jobId = id ∧ r.status = status))

/-- The tallies of the terminal statuses make up the terminal items. -/
theorem sum_tally (db : Db) (id : Id) :
    (terminalItemStatuses.map (tally db id)).sum =
    (db.itemsOf id).countP (fun r => r.status.terminal) := by
  simp only [tally, Db.itemsOf, List.countP_filter, terminalItemStatuses,
    List.map_cons, List.map_nil, List.sum_cons, List.sum_nil]
  induction db.items with
  | nil => rfl
  | cons r rows ih =>
    have hrow : (if decide (r.jobId = id ∧ r.status = .succeeded) = true then 1 else 0) +
        ((if decide (r.jobId = id ∧ r.status = .failed) = true then 1 else 0) +
        ((if decide (r.jobId = id ∧ r.status = .skipped) = true then 1 else 0) +
        (if decide (r.jobId = id ∧ r.status = .cancelled) = true then 1 else 0))) =
        if (r.status.terminal && decide (r.jobId = id)) = true then 1 else 0 := by
      by_cases hid : r.jobId = id
      · cases hstatus : r.status <;> simp [hid, ItemStatus.terminal, terminalItemStatuses]
      · simp [hid]
    simp only [List.countP_cons]
    omega

def itemStanding (r : JobItem) : ItemOrigin × Option ItemStatus := (itemOrigin r, final r.status)

def jobStanding (j : Job) : JobOrigin × Bool × (ItemStatus → Nat) :=
  (jobOrigin j, j.status.terminal, counter j)

/-- How far the work has come: which items and jobs are done with, and what is counted. -/
structure Progress where
  items : List (ItemOrigin × Option ItemStatus)
  jobs : List (JobOrigin × Bool × (ItemStatus → Nat))
  schedules : List Schedule

def standing (s : Shared) : Progress :=
  ⟨s.db.items.map itemStanding, s.db.jobs.map jobStanding, s.db.schedules⟩

structure Even (v v' : World) : Prop extends Any v v' where
  standing : standing v'.shared = standing v.shared
  flight : v'.mem.inFlight = v.mem.inFlight

variable {u v w : World}

theorem even_refl (v : World) : Even v v := ⟨any_refl v, rfl, rfl⟩

theorem even_trans (h : Even u v) (h' : Even v w) : Even u w :=
  ⟨any_trans h.toAny h'.toAny, h'.standing.trans h.standing, h'.flight.trans h.flight⟩

theorem final_eq_none {status : ItemStatus} : final status = none ↔ status.terminal = false := by
  cases status <;> simp [final, ItemStatus.terminal, terminalItemStatuses]

theorem final_eq_some {status result : ItemStatus} :
    final status = some result ↔ status = result ∧ result.terminal = true := by
  cases status <;> cases result <;> simp [final, ItemStatus.terminal, terminalItemStatuses]

theorem standing_eq {s s' : Shared}
    (hitems : s'.db.items.map itemStanding = s.db.items.map itemStanding)
    (hjobs : s'.db.jobs.map jobStanding = s.db.jobs.map jobStanding)
    (hschedules : s'.db.schedules = s.db.schedules) : standing s' = standing s := by
  simp only [standing, hitems, hjobs, hschedules]

theorem item_standing {s s' : Shared} (h : standing s' = standing s) {r : JobItem}
    (hr : r ∈ s.db.items) :
    ∃ r' ∈ s'.db.items, itemOrigin r' = itemOrigin r ∧ r'.status.terminal = r.status.terminal := by
  have hitems : s'.db.items.map itemStanding = s.db.items.map itemStanding :=
    congrArg Progress.items h
  have hmem : itemStanding r ∈ s'.db.items.map itemStanding := hitems ▸ List.mem_map_of_mem hr
  obtain ⟨r', hr', heq⟩ := List.mem_map.mp hmem
  refine ⟨r', hr', congrArg Prod.fst heq, ?_⟩
  have hfinal : final r'.status = final r.status := congrArg Prod.snd heq
  rw [Bool.eq_iff_iff, ← not_iff_not, Bool.not_eq_true, Bool.not_eq_true, ← final_eq_none,
    ← final_eq_none, hfinal]

theorem job_standing {s s' : Shared} (h : standing s' = standing s) {j : Job} (hj : j ∈ s.db.jobs) :
    ∃ j' ∈ s'.db.jobs, jobOrigin j' = jobOrigin j ∧ j'.status.terminal = j.status.terminal := by
  have hjobs : s'.db.jobs.map jobStanding = s.db.jobs.map jobStanding := congrArg Progress.jobs h
  have hmem : jobStanding j ∈ s'.db.jobs.map jobStanding := hjobs ▸ List.mem_map_of_mem hj
  obtain ⟨j', hj', heq⟩ := List.mem_map.mp hmem
  exact ⟨j', hj', congrArg Prod.fst heq, congrArg (fun y => y.2.1) heq⟩

theorem even_aside : Lenient Even := by
  intro v v' h
  have hitems : v'.shared.db.items = v.shared.db.items := congrArg Custody.items h.custody
  exact ⟨h.toAny, standing_eq (by rw [hitems]) (by rw [h.jobs]) h.schedules,
    congrArg (·.inFlight) h.mem⟩

theorem even_memo (h : Memo v w) : Even v w :=
  ⟨h.toAny, by rw [h.shared], congrArg Custody.inFlight h.custody⟩

theorem even_web (h : Web v w) : Even v w := by
  have hitems : w.shared.db.items = v.shared.db.items := congrArg JobSide.items h.jobSide
  have hjobs : w.shared.db.jobs = v.shared.db.jobs := congrArg JobSide.jobs h.jobSide
  have hschedules : w.shared.db.schedules = v.shared.db.schedules :=
    congrArg JobSide.schedules h.jobSide
  exact ⟨h.toAny, standing_eq (by rw [hitems]) (by rw [hjobs]) hschedules,
    congrArg JobSide.inFlight h.jobSide⟩

theorem even_updateJobs {p : Job → Bool} {f : Job → Job}
    (hf : ∀ j, p j → jobStanding (f j) = jobStanding j) :
    Always Even (updateJobs p f) :=
  always_update _ (fun _ =>
    ⟨⟨rfl, rfl, rfl, le_refl _⟩, standing_eq rfl (Table.map_update hf _) rfl, rfl⟩)

theorem even_items {p : JobItem → Bool} {f : JobItem → JobItem} {t : List Event}
    (hf : ∀ r ∈ v.shared.db.items, p r → itemStanding (f r) = itemStanding r) :
    Even v { v with shared.db.items := Table.update p f v.shared.db.items, shared.trace := t } :=
  ⟨⟨rfl, rfl, rfl, le_refl _⟩, standing_eq (Table.map_update_mem hf) rfl rfl, rfl⟩

theorem even_updateItems {p : JobItem → Bool} {f : JobItem → JobItem}
    (hf : ∀ r, p r → itemStanding (f r) = itemStanding r) : Always Even (updateItems p f) :=
  always_update _ (fun _ => even_items (fun r _ => hf r))

theorem even_updateItemsRecord {p : JobItem → Bool} {f : JobItem → JobItem} {e : World → Event}
    (hf : ∀ r, p r → itemStanding (f r) = itemStanding r) : Always Even (updateItemsRecord p f e) :=
  always_update _ (fun _ => even_items (fun r _ => hf r))

theorem standing_startedJob {j : Job} (h : j.status = .queued) (now : Ms) :
    jobStanding (startedJob now j) = jobStanding j := by
  simp only [jobStanding, startedJob, h]
  rfl

theorem standing_movedJob {status : JobStatus} {j : Job}
    (h : j.status.terminal = status.terminal) (now : Ms) :
    jobStanding (movedJob status now j) = jobStanding j := by
  simp only [jobStanding, movedJob, h]
  rfl

theorem even_pauseJob (id : Id) (actor : Option String) : Always Even (pauseJob id actor) := by
  refine always_changeStatus even_aside.tolerant id _ (movedJob .paused) (fun _ => rfl)
    (fun now => even_updateJobs (fun j hj => ?_))
  obtain ⟨_, hstatus⟩ := of_decide_eq_true hj
  refine standing_movedJob ?_ now
  simp only [List.mem_cons, List.not_mem_nil, or_false] at hstatus
  obtain hstatus | hstatus := hstatus <;> rw [hstatus] <;> rfl

theorem even_resumeJob (id : Id) (actor : Option String) : Always Even (resumeJob id actor) := by
  refine always_changeStatus even_aside.tolerant id _ (movedJob .queued) (fun _ => rfl)
    (fun now => even_updateJobs (fun j hj => ?_))
  obtain ⟨_, hstatus⟩ := of_decide_eq_true hj
  exact standing_movedJob (by rw [hstatus]; rfl) now

theorem standing_claimedItem {r : JobItem} (h : r.status = .queued) (pid : Nat) (now : Ms) :
    itemStanding (claimedItem pid now r) = itemStanding r := by
  simp only [itemStanding, claimedItem, h]
  rfl

theorem even_claimRow (row : JobItem) (now : Ms) (v : World) : Even v (claimRow row now v) :=
  even_items (fun _ _ hr => standing_claimedItem (of_decide_eq_true hr).2 v.mem.pid now)

theorem even_recoverStaleClaims : Always Even recoverStaleClaims := by
  refine always_recoverStaleClaims even_aside.tolerant
    (fun now => even_updateItems (fun _ hr => ?_))
  simp only [stale, Bool.and_eq_true, decide_eq_true_eq] at hr
  have hstatus := hr.1
  simp only [List.mem_cons, List.not_mem_nil, or_false] at hstatus
  simp only [itemStanding, recoveredItem]
  obtain hstatus | hstatus := hstatus <;> rw [hstatus] <;> rfl

theorem even_boot (v : World) : Even { v with mem := fresh v.mem.pid v.mem } (boot v) :=
  boot_respects even_refl (fun _ _ _ => even_trans) even_recoverStaleClaims v

theorem even_attempted (i : Id) (n : Nat) (now : Ms) : Always Even (updateItemsRecord
    (fun r => decide (r.id = i)) (attemptedItem n now) (fun w => .attempted w.mem.pid i)) :=
  even_updateItemsRecord (fun _ _ => rfl)

def Open (i : Id) (s : Shared) : Prop := ∀ r ∈ s.db.items, r.id = i → r.status.terminal = false

theorem open_iff {i : Id} {s : Shared} :
    Open i s ↔ ∀ x ∈ (standing s).items, x.1.id = i → x.2 = none := by
  simp only [Open, standing, List.forall_mem_map, itemStanding, itemOrigin, final_eq_none]

theorem open_even {i : Id} (h : Open i v.shared) (he : Even v w) : Open i w.shared := by
  rw [open_iff] at h ⊢
  rwa [he.standing]

theorem distinct_standing {s s' : Shared} (h : Distinct s) (heq : standing s' = standing s) :
    Distinct s' := by
  have hids := congrArg (fun S => S.items.map (fun x => x.1.id)) heq
  simp only [standing, List.map_map, Function.comp_def, itemStanding, itemOrigin] at hids
  rwa [Distinct, hids]

/-- Statements that are even as long as an item is open. -/
def Opened (i : Id) (v v' : World) : Prop := Open i v.shared → Even v v'

theorem opened_of_even {i : Id} (h : Even v w) : Opened i v w := fun _ => h

theorem lenient_opened {i : Id} :
    Lenient (Opened i) := fun v v' h => opened_of_even (even_aside v v' h)

theorem opened_items {i : Id} {f : JobItem → JobItem}
    (horigin : ∀ r, itemOrigin (f r) = itemOrigin r) (hf : ∀ r, (f r).status.terminal = false)
    (t : List Event) :
    Opened i v
      { v with
        shared.db.items := Table.update (fun r => decide (r.id = i)) f v.shared.db.items
        shared.trace := t } := by
  intro hopen
  refine even_items (fun r hr hid => ?_)
  have hstatus := hopen r hr (of_decide_eq_true hid)
  rw [itemStanding, itemStanding, horigin, final_eq_none.mpr (hf r), final_eq_none.mpr hstatus]

theorem opened_markItemRunning (i : Id) : Always (Opened i) (markItemRunning i) := by
  refine always_markItemRunning lenient_opened.tolerant i ?_ ?_
  · exact fun now => always_update _ (fun v =>
      opened_items (f := runningItem now) (fun _ => rfl) (fun _ => rfl) v.shared.trace)
  · intro id now
    refine always_mono (fun _ _ => opened_of_even) (even_updateJobs (fun j hj => ?_))
    exact standing_startedJob (of_decide_eq_true hj).2 now

theorem opened_scheduleRetry (i : Id) (nextAttemptAt : Ms) (category : Category)
    (detail : Option String) :
    Always (Opened i) (scheduleRetry i nextAttemptAt category detail) := by
  refine always_scheduleRetry lenient_opened.tolerant i _ _ _ ?_
  exact fun now => always_update _ (fun v =>
    opened_items (f := retriedItem nextAttemptAt category detail now) (fun _ => rfl)
      (fun _ => rfl) _)

theorem even_recordAttemptStart (i : Id) (n : Nat) : Always Even (recordAttemptStart i n) :=
  always_recordAttemptStart even_aside i n (even_attempted i n)

structure Ticked (v v' : World) : Prop extends Any v v' where
  standing : standing v'.shared = standing v.shared
  flight : ∀ t ∈ v'.mem.inFlight, t ∈ v.mem.inFlight ∨ Open t.item.id v'.shared

theorem ticked_even (h : Ticked u v) (he : Even v w) : Ticked u w := by
  refine ⟨any_trans h.toAny he.toAny, he.standing.trans h.standing, ?_⟩
  intro t ht
  rw [he.flight] at ht
  exact (h.flight t ht).imp id (fun hopen => open_even hopen he)

theorem ticked_of_even (h : Even v w) : Ticked v w :=
  ⟨h.toAny, h.standing, fun _ ht => Or.inl (h.flight ▸ ht)⟩

theorem wp_opened {α : Type} {p : Code α} {i : Id} {v : World}
    (hp : Always (Opened i) p) {u : World} (h : Ticked v u ∧ Open i u.shared) :
    Wp Eq (fun _ t => Ticked v t) p (fun _ t => Ticked v t ∧ Open i t.shared) u := by
  refine wp_always (M := fun t => Ticked v t ∧ Open i t.shared) hp ?_ ?_ h
  · rintro s _ hs rfl
    exact hs
  · intro s t hs hst
    have he := hst hs.2
    exact ⟨ticked_even hs.1 he, ticked_even hs.1 he, open_even hs.2 he⟩

theorem wp_processItem (item : JobItem) {u : World} (h : Ticked v u)
    (hopen : Open item.id u.shared) :
    Wp Eq (fun _ t => Ticked v t) (processItem item) (fun _ t => Ticked v t) u := by
  refine wp_seq (wp_opened (opened_markItemRunning item.id) ⟨h, hopen⟩) (fun _ u hu => ?_)
  refine wp_seq
    (wp_opened (always_mono (fun _ _ => opened_of_even) (even_recordAttemptStart _ _)) hu) ?_
  rintro _ u ⟨hu, hopen⟩ _ rfl
  have hticked : Ticked v { u with
      shared.trace := .sent u.mem.pid item.id (item.attemptCount + 1) :: u.shared.trace
      mem.inFlight := u.mem.inFlight ++ [⟨item, item.attemptCount + 1⟩] } := by
    refine ⟨⟨hu.now, hu.pid, hu.slots, hu.uuid⟩, hu.standing, ?_⟩
    intro t ht
    obtain ht | ht := List.mem_append.mp ht
    · exact hu.flight t ht
    · rw [List.mem_singleton] at ht
      subst ht
      exact Or.inr hopen
  exact ⟨hticked, hticked⟩

/-- At every point of a tick the work stands where it stood. -/
theorem wp_tick (hn : Distinct v.shared) :
    Wp Eq (fun _ t => Ticked v t) tick (fun _ t => Ticked v t) v := by
  have heven : ∀ {α : Type} {p : Code α}, Always Even p → ∀ u, Ticked v u →
      Wp Eq (fun _ t => Ticked v t) p (fun _ => Ticked v) u := by
    intro α p hp u hu
    refine wp_alone hp (fun s t hs hst => ?_) hu
    exact ⟨ticked_even hs hst, ticked_even hs hst⟩
  refine Statements.wp_tick (fun f => heven (always_read even_aside.tolerant f))
    (fun hp => heven (always_mono (fun _ _ => even_memo) hp)) (fun u hu => ?_)
    (ticked_of_even (even_refl v))
  have hn' : Distinct u.shared := distinct_standing hn hu.standing
  refine wp_claimNextItem hn' hu (fun _ => hu) (fun row hrow => ?_)
  obtain ⟨hmem, hclaimable⟩ := nextClaimable_mem hrow
  have hclaimed := ticked_even hu (even_claimRow row u.shared.now u)
  refine ⟨hclaimed, wp_processItem _ hclaimed (open_even ?_ (even_claimRow row u.shared.now u))⟩
  intro r hr hid
  rw [Table.eq_of_key hn' hr hmem hid, claimable_queued hclaimable]
  rfl

end WhatsappTester.Jobs.Standing
