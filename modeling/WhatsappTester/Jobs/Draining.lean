import WhatsappTester.Jobs.Probe
import WhatsappTester.Jobs.Settling

namespace WhatsappTester.Jobs.Draining

open Schema State Atomic Atomic.Program Atomic.Runs Statements JobService Claiming Worker Ledger
  Process Solo Standing Settling

/-- The events of work that a worker takes up. -/
def isWork : Event → Bool
  | .claimed .. | .attempted .. | .sent .. => true
  | _ => false

structure Passive (v v' : World) : Prop where
  work : v'.shared.trace.filter isWork = v.shared.trace.filter isWork
  taken : ∀ r ∈ v'.shared.db.items, r.status ∈ [ItemStatus.claimed, .running] →
    r ∈ v.shared.db.items
  flight : v'.mem.inFlight = v.mem.inFlight
  draining : v.mem.draining = true → v'.mem.draining = true

section Passive

variable {v v' : World}

theorem passive_same (hwork : v'.shared.trace.filter isWork = v.shared.trace.filter isWork)
    (hitems : v'.shared.db.items = v.shared.db.items) (hflight : v'.mem.inFlight = v.mem.inFlight)
    (hdraining : v'.mem.draining = v.mem.draining) : Passive v v' :=
  ⟨hwork, fun _ hr _ => hitems ▸ hr, hflight, fun h => hdraining.trans h⟩

theorem passive_aside : Lenient Passive := by
  intro v v' h
  refine passive_same ?_ (congrArg Custody.items h.custody) (congrArg (·.inFlight) h.mem)
    (congrArg (·.draining) h.mem)
  exact filter_of_custody (by intro e he; cases e <;> first | rfl | cases he) h.custody

theorem passive_memo (h : Memo v v') : Passive v v' :=
  passive_same (by rw [h.shared]) (by rw [h.shared]) (congrArg Custody.inFlight h.custody)
    h.draining

theorem passive_web (h : Web v v') : Passive v v' := by
  refine passive_same ?_ (congrArg JobSide.items h.jobSide) (congrArg JobSide.inFlight h.jobSide)
    (congrArg JobSide.draining h.jobSide)
  exact filter_of_notWeb (by intro e he; cases e <;> first | rfl | cases he)
    (congrArg JobSide.events h.jobSide)

theorem passive_updateJobs (p : Job → Bool) (f : Job → Job) : Always Passive (updateJobs p f) :=
  always_update _ (fun _ => passive_same rfl rfl rfl rfl)

theorem passive_updateSchedules (p : Schedule → Bool) (f : Schedule → Schedule) :
    Always Passive (updateSchedules p f) :=
  always_update _ (fun _ => passive_same rfl rfl rfl rfl)

theorem passive_updateItemsRecord (p : JobItem → Bool) {f : JobItem → JobItem} {e : World → Event}
    (hf : ∀ r, (f r).status ∉ [ItemStatus.claimed, .running]) (he : ∀ w, isWork (e w) = false) :
    Always Passive (updateItemsRecord p f e) := by
  refine always_update _ (fun v => ⟨?_, fun r hr hstatus => ?_, rfl, fun h => h⟩)
  · simp [he]
  · obtain ⟨r₀, hr₀, rfl⟩ := Table.mem_update.mp hr
    split at hstatus
    · exact absurd hstatus (hf r₀)
    · next hp =>
      rw [if_neg hp]
      exact hr₀

theorem untaken_terminal {status : ItemStatus} (h : status.terminal = true) :
    status ∉ [ItemStatus.claimed, .running] := by
  cases status <;> simp [ItemStatus.terminal, terminalItemStatuses] at h ⊢

theorem passive_recordOutcome (task : Task) (outcome : SendOutcome) (random : Nat) :
    Always Passive (recordOutcome task outcome random) := by
  refine always_recordOutcome passive_aside (fun _ _ => passive_memo) task outcome random ?_ ?_
  · exact fun _ _ _ => always_scheduleRetry passive_aside.tolerant _ _ _ _
      (fun _ => passive_updateItemsRecord _ (fun _ => by simp [retriedItem]) (fun _ => rfl))
  · exact fun status _ _ hstatus => always_markItemTerminal passive_aside.tolerant _
      (fun _ => passive_updateItemsRecord _ (fun _ => untaken_terminal hstatus) (fun _ => rfl))
      (fun _ _ => passive_updateJobs _ _)

theorem passive_settle (jobId : Id) : Always Passive (settle jobId) :=
  always_settle jobId
    (always_checkJobCompletion passive_aside jobId (fun _ _ _ => passive_updateJobs _ _))
    (fun view => always_onJobSettled passive_aside view passive_updateSchedules)

theorem passive_callCreateJob (a : CreateJobArgs) : Always Passive (callCreateJob a) := by
  refine always_callCreateJob passive_aside.tolerant a (fun id now => always_update _ (fun v => ?_))
    (fun result v => ?_)
  · cases htransaction : createTransaction id now a v.shared.uuid v.shared.db with
    | error err => exact passive_same rfl rfl rfl rfl
    | ok db =>
      obtain ⟨rfl, -⟩ := createTransaction_ok htransaction
      refine ⟨rfl, fun r hr hstatus => ?_, rfl, fun h => h⟩
      obtain hr | hr := List.mem_append.mp hr
      · exact hr
      · rw [(mem_newItems hr).2] at hstatus
        simp at hstatus
  · cases result <;> exact passive_same rfl rfl rfl rfl

theorem passive_cancelJob (id : Id) (actor : Option String) : Always Passive (cancelJob id actor) :=
  always_cancelJob passive_aside.tolerant id actor (fun _ => passive_updateJobs _ _)
    (fun _ => passive_updateItemsRecord _ (fun _ => by simp [cancelledItem]) (fun _ => rfl))

theorem passive_call {c : Call} (htick : c ≠ .tick) (hcomplete : ∀ i o r, c ≠ .complete i o r) :
    Always Passive c.code := by
  have hweb : ∀ {p : Code Unit}, Always Web p → Always Passive p :=
    fun hp => always_mono (fun _ _ => passive_web) hp
  cases c with
  | tick => exact absurd rfl htick
  | complete i outcome random => exact absurd rfl (hcomplete i outcome random)
  | createJob args => exact always_bind (passive_callCreateJob args) (fun _ => always_pure ())
  | cancelJob id actor => exact always_bind (passive_cancelJob id actor) (fun _ => always_pure ())
  | pauseJob id actor =>
    exact always_bind (always_changeStatus passive_aside.tolerant id _ (movedJob .paused)
      (fun _ => rfl) (fun _ => passive_updateJobs _ _)) (fun _ => always_pure ())
  | resumeJob id actor =>
    exact always_bind (always_changeStatus passive_aside.tolerant id _ (movedJob .queued)
      (fun _ => rfl) (fun _ => passive_updateJobs _ _)) (fun _ => always_pure ())
  | createSchedule input =>
    exact always_create passive_aside.tolerant input
      (fun _ _ _ => always_exec (fun _ => passive_same rfl rfl rfl rfl))
  | removeSchedule id => exact always_exec (fun _ => passive_same rfl rfl rfl rfl)
  | runTickIfReady ready =>
    exact always_runTickIfReady passive_aside.tolerant passive_callCreateJob
      passive_updateSchedules ready
  | setOutboundDisabled disabled actor reason => exact hweb (web_setOutboundDisabled _ _ _ _)
  | drainAndStop => exact always_exec (fun _ => ⟨rfl, fun _ hr _ => hr, rfl, fun _ => rfl⟩)
  | request r ready => exact hweb (web_request r ready)
  | answered id answer ready => exact hweb (web_answered id answer ready)
  | delayOver id ready => exact hweb (web_delayOver id ready)
  | sweepExpiredIdempotencyKeys => exact hweb web_sweepExpiredIdempotencyKeys

end Passive

section Drained

variable {v w : World} {s : Server}

structure Drained (v w : World) : Prop where
  draining : w.mem.draining = true
  work : w.shared.trace.filter isWork = v.shared.trace.filter isWork

theorem drained_passive {u : World} (h : Drained v u) (hp : Passive u w) : Drained v w :=
  ⟨hp.draining h.draining, hp.work.trans h.work⟩

theorem drained_complete (i : Id) (outcome : SendOutcome) (random : Nat) (h : Drained v w) :
    Wp Eq (fun _ t => Drained v t) (complete i outcome random) (fun _ t => Drained v t) w := by
  have hpassive : ∀ {p : Code Unit} {u : World}, Always Passive p → Drained v u →
      Wp Eq (fun _ t => Drained v t) p (fun _ t => Drained v t) u :=
    fun hp hu => wp_alone hp
      (fun _ _ ha hab => ⟨drained_passive ha hab, drained_passive ha hab⟩) hu
  refine Probe.wp_complete i outcome random h (fun _ => h) (fun task _ _ => ?_)
  refine wp_seq (hpassive (passive_recordOutcome task outcome random) h) (fun _ u hu => ?_)
  refine wp_seq (hpassive (passive_settle _) hu) (fun _ u hu => ?_)
  rintro _ rfl
  exact ⟨⟨hu.draining, hu.work⟩, ⟨hu.draining, hu.work⟩⟩

/-- A draining worker takes up nothing at any point of a call. -/
theorem drained_call (c : Call) (h : Drained v w) :
    Wp Eq (fun _ t => Drained v t) c.code (fun _ t => Drained v t) w := by
  by_cases htick : c = .tick
  · subst htick
    simp only [Call.code, tick, wp_bind, wp_query, forall_eq', h, true_and, h.draining, if_true]
    exact h
  by_cases hcomplete : ∃ i outcome random, c = .complete i outcome random
  · obtain ⟨i, outcome, random, rfl⟩ := hcomplete
    exact drained_complete i outcome random h
  · refine wp_alone (passive_call htick (fun i o r hc => hcomplete ⟨i, o, r, hc⟩))
      (fun _ _ ha hab => ⟨drained_passive ha hab, drained_passive ha hab⟩) h

theorem drained_step (hup : s.up) (h : Drained v s.world) {a : Action} (ha : a.isCrash = false) :
    (step s a).up ∧ Drained v (step s a).world := by
  cases a with
  | crash c n => cases ha
  | advance ms => exact ⟨hup, h.draining, h.work⟩
  | restart =>
    rw [step_restart_up hup]
    exact ⟨hup, h⟩
  | call c =>
    rw [step_call hup]
    exact ⟨hup, wp_run (drained_call c h)⟩

end Drained

section Left

variable {v v' : World} {rows : List JobItem} {but : Option Id} {i : Id} {s : Server}

/-- What is taken is in flight, but for one item and for the rows that were left behind. -/
def Left (rows : List JobItem) (but : Option Id) (v : World) : Prop :=
  ∀ r ∈ v.shared.db.items, r.status ∈ [ItemStatus.claimed, .running] → some r.id ≠ but →
    (∃ t ∈ v.mem.inFlight, t.item.id = r.id) ∨ r ∈ rows

theorem left_passive (h : Left rows but v) (hp : Passive v v') : Left rows but v' := by
  intro r hr hstatus hne
  rw [hp.flight]
  exact h r (hp.taken r hr hstatus) hstatus hne

theorem left_beside (h : Left rows (some i) v) (hb : Beside i v v') : Left rows (some i) v' := by
  intro r hr hstatus hne
  have hri : r.id ≠ i := fun heq => hne (congrArg some heq)
  rw [hb.flight]
  exact h r ((mem_beside hb hri).mp hr) hstatus hne

theorem left_processItem {item : JobItem} (hn : Distinct v.shared)
    (h : Left rows (some item.id) v) :
    Ends (processItem item) (fun _ v' => Distinct v'.shared ∧ Left rows none v') v := by
  have hbeside : ∀ {p : Code Unit} {u : World}, Always (Beside item.id) p →
      Distinct u.shared ∧ Left rows (some item.id) u →
      Ends p (fun _ u => Distinct u.shared ∧ Left rows (some item.id) u) u := by
    intro p u hp hu
    refine ends_always (fun a b ha hab => ?_) hp hu
    exact ⟨distinct_of_origins hab.origins ha.1, left_beside ha.2 hab⟩
  refine wp_seq (hbeside (beside_markItemRunning _) ⟨hn, h⟩) (fun _ u hu => ?_)
  refine wp_seq (hbeside (beside_recordAttemptStart _ _) hu) (fun _ u hu => ?_)
  rintro _ rfl
  refine ⟨trivial, hu.1, fun r hr hstatus _ => ?_⟩
  by_cases hid : r.id = item.id
  · exact .inl ⟨_, List.mem_append_right _ List.mem_cons_self, hid.symm⟩
  · refine (hu.2 r hr hstatus (by simpa using hid)).imp (fun hflight => ?_) id
    obtain ⟨t, ht, htid⟩ := hflight
    exact ⟨t, List.mem_append_left _ ht, htid⟩

theorem left_claimRow {row : JobItem} (h : Left rows none v) (now : Ms) :
    Left rows (some row.id) (claimRow row now v) := by
  intro r hr hstatus hne
  obtain ⟨r₀, hr₀, rfl⟩ := Table.mem_update.mp hr
  have hid : r₀.id ≠ row.id := by
    refine fun heq => hne (congrArg some ?_)
    split <;> exact heq
  simp only [hid, false_and, decide_false, Bool.false_eq_true, ↓reduceIte] at hstatus ⊢
  exact h r₀ hr₀ hstatus (by simp)

theorem left_tick (hn : Distinct v.shared) (h : Left rows none v) :
    Ends tick (fun _ v' => Left rows none v') v := by
  have hmemo : ∀ {α : Type} {p : Code α}, Always Memo p →
      ∀ v, Distinct v.shared ∧ Left rows none v →
      Ends p (fun _ v => Distinct v.shared ∧ Left rows none v) v := by
    intro α p hp v hv
    refine ends_always (fun a b ha hab => ?_) hp hv
    exact ⟨distinct_of_origins hab.origins ha.1, left_passive ha.2 (passive_memo hab)⟩
  refine wp_mono (fun _ _ ht => ht.2)
    (Statements.wp_tick (P := fun v => Distinct v.shared ∧ Left rows none v)
    (fun f v hv => ?_) hmemo (fun v hv => ?_) ⟨hn, h⟩)
  · rintro _ rfl
    exact ⟨trivial, hv⟩
  · refine wp_claimNextItem hv.1 trivial (fun _ => hv) (fun row hrow => ⟨trivial, ?_⟩)
    refine left_processItem ?_ (left_claimRow hv.2 v.shared.now)
    exact distinct_standing hv.1 (even_claimRow row v.shared.now v).standing

theorem left_complete (outcome : SendOutcome) (random : Nat) (h : Left rows none v) :
    Ends (complete i outcome random) (fun _ t => Left rows none t) v := by
  refine Probe.wp_complete i outcome random trivial (fun _ => h) (fun task _ _ => ?_)
  have huntaken : Ends (recordOutcome task outcome random) (fun _ u =>
      ∀ r ∈ u.shared.db.items, r.id = task.item.id →
        r.status ∉ [ItemStatus.claimed, .running]) v := by
    refine wp_mono (fun _ u hu r hr hid => ?_) (Settling.ends_recordOutcome task outcome random)
    obtain hterminal | ⟨hqueued, -⟩ := hu r hr hid
    · exact untaken_terminal hterminal
    · simp [hqueued]
  have hrecorded := wp_and (ends_always (fun a b ha hab => left_passive ha hab)
    (passive_recordOutcome task outcome random) h) huntaken
  refine wp_seq hrecorded (fun _ u hu => ?_)
  refine wp_seq (Q := fun _ u => Left rows none u ∧ ∀ r ∈ u.shared.db.items, r.id = task.item.id →
    r.status ∉ [ItemStatus.claimed, .running]) ?_ (fun _ u hu => ?_)
  · refine ends_always (fun a b ha hab => ⟨left_passive ha.1 hab, fun r hr hid hstatus => ?_⟩)
      (passive_settle _) hu
    exact ha.2 r (hab.taken r hr hstatus) hid hstatus
  · rintro _ rfl
    refine ⟨trivial, fun r hr hstatus hne => ?_⟩
    have hid : r.id ≠ task.item.id := fun heq => hu.2 r hr heq hstatus
    refine (hu.1 r hr hstatus hne).imp (fun hflight => ?_) id
    obtain ⟨t, ht, htid⟩ := hflight
    refine ⟨t, (List.mem_eraseP_of_neg ?_).mpr ht, htid⟩
    simpa [htid] using hid

theorem left_call (c : Call) (hn : Distinct v.shared) (h : Left rows none v) :
    Left rows none (c.code.run v).2 := by
  by_cases htick : c = .tick
  · subst htick
    exact wp_run (left_tick hn h)
  by_cases hcomplete : ∃ i outcome random, c = .complete i outcome random
  · obtain ⟨i, outcome, random, rfl⟩ := hcomplete
    exact wp_run (left_complete outcome random h)
  · exact ends_iff.mp (ends_always (P := Left rows none) (fun a b ha hab => left_passive ha hab)
      (passive_call htick (fun i o r hc => hcomplete ⟨i, o, r, hc⟩)) h)

theorem left_run (hs : Kept s) (hup : s.up) (h : Left rows none s.world) (as : List Action)
    (has : ∀ a ∈ as, a.isCrash = false) :
    Kept (run s as) ∧ (run s as).up ∧ Left rows none (run s as).world := by
  refine play_invariant (fun s => Kept s ∧ s.up ∧ Left rows none s.world) (fun s a h ha => ?_)
    ⟨hs, hup, h⟩ (along_all has s)
  obtain ⟨hs, hup, hleft⟩ := h
  refine ⟨kept_step hs a, ?_⟩
  cases a with
  | crash c n => cases ha
  | advance ms => exact ⟨hup, hleft⟩
  | restart =>
    rw [step_restart_up hup]
    exact ⟨hup, hleft⟩
  | call c =>
    rw [step_call hup]
    exact ⟨hup, left_call c hs.inv.1 hleft⟩

end Left

theorem boot_untaken {w : World}
    (h : ∀ r ∈ w.shared.db.items, r.status ∉ [ItemStatus.claimed, .running]) :
    (boot w).shared.db = w.shared.db := by
  have hitems : Table.update (stale w.shared.now) (recoveredItem w.shared.now) w.shared.db.items =
      w.shared.db.items := by
    refine Table.update_eq_self (fun r hr hstale => h r hr ?_)
    simp only [stale, Bool.and_eq_true, decide_eq_true_eq] at hstale
    exact hstale.1
  have hboot : (boot w).shared.db = { w.shared.db with
      items := Table.update (stale w.shared.now) (recoveredItem w.shared.now) w.shared.db.items } :=
    rfl
  rw [hboot, hitems]

end WhatsappTester.Jobs.Draining
