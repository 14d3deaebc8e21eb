import WhatsappTester.Jobs.Course

namespace WhatsappTester.Jobs.Messages

open Schema State Atomic Atomic.Program Atomic.Runs Statements JobService Claiming Worker
  Scheduler Process

def Held (v : World) (m : String) : Prop :=
  (∃ row ∈ v.shared.db.schedules, row.message = m) ∨ (∃ r ∈ v.shared.db.items, r.message = m) ∨
    ∃ t ∈ v.mem.inFlight, t.item.message = m

def Repeats (v v' : World) : Prop := ∀ m, Held v' m → Held v m

def Kept (P : String → Prop) (v : World) : Prop := ∀ m, Held v m → P m

def brings : Call → List String
  | .createSchedule input => [input.message]
  | .createJob args => args.items.filterMap (·.message)
  | _ => []

variable {P : String → Prop} {v v' : World}

theorem kept_repeats (h : Kept P v) (hr : Repeats v v') : Kept P v' := fun m hm => h m (hr m hm)

theorem repeats_of (hschedules : v'.shared.db.schedules = v.shared.db.schedules)
    (hitems : v'.shared.db.items.map itemOrigin = v.shared.db.items.map itemOrigin)
    (hflight : ∀ t ∈ v'.mem.inFlight, t ∈ v.mem.inFlight) : Repeats v v' := by
  rintro m (⟨row, hrow, hm⟩ | ⟨r, hr, hm⟩ | ⟨t, ht, hm⟩)
  · exact .inl ⟨row, hschedules ▸ hrow, hm⟩
  · obtain ⟨r', hr', horigin⟩ := List.mem_map.mp (hitems ▸ List.mem_map_of_mem (f := itemOrigin) hr)
    exact .inr (.inl ⟨r', hr', (congrArg ItemOrigin.message horigin).trans hm⟩)
  · exact .inr (.inr ⟨t, hflight t ht, hm⟩)

theorem repeats_write (h : Write v v') (hschedules : v'.shared.db.schedules = v.shared.db.schedules)
    (hflight : ∀ t ∈ v'.mem.inFlight, t ∈ v.mem.inFlight) : Repeats v v' :=
  repeats_of hschedules (congrArg Origins.items h.origins) hflight

theorem repeats_aside : Lenient Repeats := fun v v' h =>
  repeats_write h.toWrite h.schedules (fun t ht => by rwa [h.mem] at ht)

theorem repeats_memo (h : Memo v v') : Repeats v v' := by
  have hflight : v'.mem.inFlight = v.mem.inFlight := congrArg Custody.inFlight h.custody
  exact repeats_write h.toWrite (by rw [h.shared]) (fun t ht => hflight ▸ ht)

theorem repeats_web (h : Web v v') : Repeats v v' := by
  have hflight : v'.mem.inFlight = v.mem.inFlight := congrArg JobSide.inFlight h.jobSide
  have hitems : v'.shared.db.items = v.shared.db.items := congrArg JobSide.items h.jobSide
  exact repeats_of (congrArg JobSide.schedules h.jobSide) (by rw [hitems])
    (fun t ht => hflight ▸ ht)

theorem repeats_updateJobs (p : Job → Bool) (f : Job → Job) : Always Repeats (updateJobs p f) :=
  always_update _ (fun _ _ h => h)

theorem repeats_updateItems (p : JobItem → Bool) {f : JobItem → JobItem}
    (hf : ∀ r, itemOrigin (f r) = itemOrigin r) :
    Always Repeats (updateItems p f) :=
  always_update _ (fun _ => repeats_of rfl (items_origin p hf _) (fun _ h => h))

theorem repeats_updateItemsRecord (p : JobItem → Bool) {f : JobItem → JobItem} {e : World → Event}
    (hf : ∀ r, itemOrigin (f r) = itemOrigin r) : Always Repeats (updateItemsRecord p f e) :=
  always_update _ (fun _ => repeats_of rfl (items_origin p hf _) (fun _ h => h))

theorem repeats_updateSchedules (p : Schedule → Bool) {f : Schedule → Schedule}
    (hf : ∀ row, (f row).message = row.message) : Always Repeats (updateSchedules p f) := by
  refine always_update _ (fun v => ?_)
  rintro m (⟨row', hrow', hm⟩ | hrest)
  · obtain ⟨row, hrow, rfl⟩ := Table.mem_update.mp hrow'
    refine .inl ⟨row, hrow, ?_⟩
    rw [← hm]
    split
    · exact (hf row).symm
    · rfl
  · exact .inr hrest

theorem repeats_markItemRunning (i : Id) : Always Repeats (markItemRunning i) :=
  always_markItemRunning repeats_aside.tolerant i (fun _ => repeats_updateItems _ (fun _ => rfl))
    (fun _ _ => repeats_updateJobs _ _)

theorem repeats_recordAttemptStart (i : Id) (n : Nat) : Always Repeats (recordAttemptStart i n) :=
  always_recordAttemptStart repeats_aside i n (fun _ => repeats_updateItemsRecord _ (fun _ => rfl))

theorem repeats_settle (jobId : Id) : Always Repeats (settle jobId) :=
  always_settle jobId (always_checkJobCompletion repeats_aside jobId
    (fun _ _ _ => repeats_updateJobs _ _))
    (fun view => tolerant_onJobSettled repeats_aside.tolerant view
      (always_mono repeats_aside (aside_settled _))
      (fun p _ hf => repeats_updateSchedules p (fun row => (hf row).2.2)))

theorem repeats_complete (i : Id) (outcome : SendOutcome) (random : Nat) :
    Always Repeats (complete i outcome random) := by
  refine always_bind (always_read repeats_aside.tolerant _) (fun task => ?_)
  cases task with
  | none => exact always_pure ()
  | some task =>
    refine always_bind (always_recordOutcome repeats_aside (fun _ _ => repeats_memo) task
      outcome random
      (fun _ _ _ => ?_) (fun _ _ _ _ => ?_)) (fun _ => ?_)
    · exact always_scheduleRetry repeats_aside.tolerant _ _ _ _
        (fun _ => repeats_updateItemsRecord _ (fun _ => rfl))
    · exact always_markItemTerminal repeats_aside.tolerant _
        (fun _ => repeats_updateItemsRecord _ (fun _ => rfl)) (fun _ _ => repeats_updateJobs _ _)
    · refine always_bind (repeats_settle _) (fun _ => always_exec (fun v => ?_))
      exact repeats_of rfl rfl (fun t ht => List.mem_of_mem_eraseP ht)

theorem repeats_cancelJob (id : Id) (actor : Option String) : Always Repeats (cancelJob id actor) :=
  always_cancelJob repeats_aside.tolerant id actor (fun _ => repeats_updateJobs _ _)
    (fun _ => repeats_updateItemsRecord _ (fun _ => rfl))

theorem repeats_recoverStaleClaims : Always Repeats recoverStaleClaims :=
  always_recoverStaleClaims repeats_aside.tolerant (fun _ => repeats_updateItems _ (fun _ => rfl))

theorem wp_repeats {α : Type} {p : Code α} (hp : Always Repeats p) (h : Kept P v) :
    Wp Eq (fun _ t => Kept P t) p (fun _ t => Kept P t) v :=
  wp_alone hp (fun _ _ ha hab => ⟨kept_repeats ha hab, kept_repeats ha hab⟩) h

theorem repeats_claimRow (row : JobItem) (now : Ms) (v : World) : Repeats v (claimRow row now v) :=
  repeats_of rfl (items_origin _ (f := claimedItem v.mem.pid now) (fun _ => rfl) _) (fun _ h => h)

theorem wp_claimNextItem (h : Kept P v) :
    Wp Eq (fun _ t => Kept P t) claimNextItem (fun item t => Kept P t ∧
      ∀ r ∈ item, P r.message) v := by
  have hclaim : ∀ now, Always Repeats (claimTransaction now) := by
    intro now
    refine always_update _ (fun u => ?_)
    cases nextClaimable u.shared.db now with
    | none => exact fun _ hm => hm
    | some row => exact repeats_claimRow row now u
  refine wp_seq (wp_repeats (always_read repeats_aside.tolerant _) h) (fun now u hu => ?_)
  refine wp_seq (wp_repeats (hclaim now) hu) (fun claim u hu => ?_)
  obtain _ | ⟨id, changes⟩ := claim
  · exact ⟨hu, by simp⟩
  · simp only
    split
    · exact ⟨hu, by simp⟩
    · simp only [selectItem, wp_query, forall_eq', hu, true_and]
      exact fun r hr => hu _ (.inr (.inl ⟨r, (Table.find_mem hr).1, rfl⟩))

/-- A tick sends the texts of items. -/
theorem wp_tick (h : Kept P v) : Wp Eq (fun _ t => Kept P t) tick (fun _ t => Kept P t) v := by
  refine Statements.wp_tick (fun f u hu => wp_repeats (always_read repeats_aside.tolerant f) hu)
    (fun hp u hu => wp_repeats (always_mono (fun _ _ => repeats_memo) hp) hu) (fun u hu => ?_) h
  refine wp_mono (fun item w hw => ?_) (wp_claimNextItem hu)
  obtain ⟨hkept, hitem⟩ := hw
  cases item with
  | none => exact hkept
  | some item =>
    refine wp_seq (wp_repeats (repeats_markItemRunning _) hkept) (fun _ w hw => ?_)
    refine wp_seq (wp_repeats (repeats_recordAttemptStart _ _) hw) (fun _ w hw => ?_)
    have hsent : ∀ n, Kept P { w with
        shared.trace := .sent w.mem.pid item.id n :: w.shared.trace
        mem.inFlight := w.mem.inFlight ++ [⟨item, n⟩] } := by
      rintro n m (hrow | hr | ⟨t, ht, hm⟩)
      · exact hw m (.inl hrow)
      · exact hw m (.inr (.inl hr))
      · obtain ht | ht := List.mem_append.mp ht
        · exact hw m (.inr (.inr ⟨t, ht, hm⟩))
        · obtain rfl := List.mem_singleton.mp ht
          exact hm ▸ hitem item rfl
    simp only [startSend, wp_exec, forall_eq', hsent, and_self]

theorem wp_create (input : CreateInput) (hinput : P input.message) (h : Kept P v) :
    Wp Eq (fun _ t => Kept P t) (create input) (fun _ t => Kept P t) v := by
  simp only [create]
  cases hargs : Scheduler.normalize input with
  | error err => exact h
  | ok args =>
    have hmessage : args.message = input.message := by
      unfold Scheduler.normalize at hargs
      split at hargs
      · cases hargs
      · split at hargs
        · cases hargs
        · cases hargs
          rfl
    have hnew : ∀ id now, Kept P { v with
        shared.uuid := v.shared.uuid + 1
        shared.db.schedules := v.shared.db.schedules ++ [newSchedule id now args] } := by
      rintro id now m (⟨row, hrow, hm⟩ | hrest)
      · obtain hrow | hrow := List.mem_append.mp hrow
        · exact h m (.inl ⟨row, hrow, hm⟩)
        · obtain rfl := List.mem_singleton.mp hrow
          obtain rfl : args.message = m := hm
          rwa [hmessage]
      · exact h m (.inr hrest)
    have hmid : Kept P { v with shared.uuid := v.shared.uuid + 1 } := h
    simp only [randomUUID, dateNow, wp_bind, wp_update, wp_query, wp_exec, forall_eq',
      hmid, true_and]
    exact ⟨hnew _ _, hnew _ _⟩

theorem message_newItems {jobId : Id} {now : Ms} {id : Id} {seq : Nat} {items : List NewItem}
    (hgiven : ∀ item ∈ items, item.number.isSome ∧ item.message.isSome) {r : JobItem}
    (hr : r ∈ newItems jobId now id seq items) : r.message ∈ items.filterMap (·.message) := by
  induction items generalizing id seq with
  | nil => cases hr
  | cons item items ih =>
    obtain ⟨⟨_, hmessage⟩, hrest⟩ := List.forall_mem_cons.mp hgiven
    obtain ⟨message, hmessage⟩ := Option.isSome_iff_exists.mp hmessage
    rw [List.filterMap_cons_some hmessage]
    cases hr with
    | head => simp [newItem, hmessage]
    | tail _ hr => exact List.mem_cons_of_mem _ (ih hrest hr)

theorem wp_callCreateJob (a : CreateJobArgs) (ha : ∀ m ∈ a.items.filterMap (·.message), P m)
    (h : Kept P v) :
    Wp Eq (fun _ t => Kept P t) (callCreateJob a) (fun _ t => Kept P t) v := by
  refine Course.alone_callCreateJob (P := fun t => Kept P t) a
    (fun u w huw hu => kept_repeats hu (repeats_aside u w huw))
    (fun id u db htransaction hu => ?_) (fun result u hu => ?_) h
  · obtain ⟨rfl, _, _, hgiven, _⟩ := createTransaction_ok htransaction
    rintro m (hrow | ⟨r, hr, hm⟩ | ht)
    · exact hu m (.inl hrow)
    · obtain hr | hr := List.mem_append.mp hr
      · exact hu m (.inr (.inl ⟨r, hr, hm⟩))
      · exact hm ▸ ha _ (message_newItems hgiven hr)
    · exact hu m (.inr (.inr ht))
  · cases result <;> exact hu

theorem wp_fireDue {row : Schedule} (hrow : P row.message) (h : Kept P v) :
    Wp Eq (fun _ t => Kept P t) (fireDue row) (fun _ t => Kept P t) v := by
  have hitems : ∀ m ∈ (fireArgs row).items.filterMap (·.message), P m := by
    intro m hm
    obtain ⟨item, hitem, hm⟩ := List.mem_filterMap.mp hm
    obtain ⟨r, _, rfl⟩ := List.mem_map.mp hitem
    exact Option.some.inj hm ▸ hrow
  refine wp_seq (wp_callCreateJob (fireArgs row) hitems h) (fun result u hu => ?_)
  cases result with
  | error err => exact hu
  | ok r =>
    refine wp_repeats (always_bind (always_read repeats_aside.tolerant _) (fun now => ?_)) hu
    exact always_bind (repeats_updateSchedules _ (fun _ => rfl)) (fun _ => always_pure ())

theorem wp_runTickIfReady (ready : Bool) (h : Kept P v) :
    Wp Eq (fun _ t => Kept P t) (runTickIfReady ready) (fun _ t => Kept P t) v := by
  simp only [runTickIfReady]
  split
  · exact h
  · simp only [dateNow, wp_bind, wp_query, forall_eq', h, true_and]
    refine wp_each (P := fun t => Kept P t) _ (fun row hrow u hu => ?_) h
    exact wp_fireDue (h row.message (.inl ⟨row, (List.mem_filter.mp hrow).1, rfl⟩)) hu

theorem wp_call (c : Call) (hc : ∀ m ∈ brings c, P m) (h : Kept P v) :
    Wp Eq (fun _ t => Kept P t) c.code (fun _ t => Kept P t) v := by
  have hweb : ∀ {p : Code Unit}, Always Web p →
      Wp Eq (fun _ t => Kept P t) p (fun _ t => Kept P t) v :=
    fun hp => wp_repeats (always_mono (fun _ _ => repeats_web) hp) h
  cases c with
  | tick => exact wp_tick h
  | complete i outcome random => exact wp_repeats (repeats_complete i outcome random) h
  | createJob args => exact wp_seq (wp_callCreateJob args hc h) (fun _ _ ht => ht)
  | cancelJob id actor =>
    exact wp_repeats (always_bind (repeats_cancelJob id actor) (fun _ => always_pure ())) h
  | pauseJob id actor =>
    refine wp_repeats (always_bind ?_ (fun _ => always_pure ())) h
    exact always_changeStatus repeats_aside.tolerant id _ _ (fun _ => rfl)
      (fun _ => repeats_updateJobs _ _)
  | resumeJob id actor =>
    refine wp_repeats (always_bind ?_ (fun _ => always_pure ())) h
    exact always_changeStatus repeats_aside.tolerant id _ _ (fun _ => rfl)
      (fun _ => repeats_updateJobs _ _)
  | createSchedule input => exact wp_create input (hc _ List.mem_cons_self) h
  | removeSchedule id =>
    refine wp_repeats (always_exec (fun u => ?_)) h
    rintro m (⟨row, hrow, hm⟩ | hrest)
    · exact .inl ⟨row, (List.mem_filter.mp hrow).1, hm⟩
    · exact .inr hrest
  | runTickIfReady ready => exact wp_runTickIfReady ready h
  | setOutboundDisabled disabled actor reason => exact hweb (web_setOutboundDisabled _ _ _ _)
  | drainAndStop => exact wp_repeats (always_exec (fun _ _ hm => hm)) h
  | request r ready => exact hweb (web_request r ready)
  | answered id answer ready => exact hweb (web_answered id answer ready)
  | delayOver id ready => exact hweb (web_delayOver id ready)
  | sweepExpiredIdempotencyKeys => exact hweb web_sweepExpiredIdempotencyKeys

theorem kept_step {s : Server} {a : Action} (ha : ∀ c, a.calls = some c → ∀ m ∈ brings c, P m)
    (h : Kept P s.world) : Kept P (step s a).world := by
  refine step_keeps (I := fun w => Kept P w) (fun c hc => wp_call c (ha c hc) h) ?_ ?_ ?_ h
  · exact fun _ _ hv => hv
  · exact fun _ hv => hv
  · intro v hv
    have hfresh : Kept P { v with mem := fresh v.mem.pid v.mem } :=
      kept_repeats hv (repeats_of rfl rfl (fun t ht => by cases ht))
    exact wp_run (wp_repeats repeats_recoverStaleClaims hfresh)

theorem kept_run {concurrency : Nat} {now : Ms} {as : List Action}
    (has : ∀ a ∈ as, ∀ c, a.calls = some c → ∀ m ∈ brings c, P m) :
    Kept P (run (initial concurrency now) as).world := by
  refine play_invariant (fun s => Kept P s.world) (fun s a h ha => kept_step ha h) ?_
    (along_all has (initial concurrency now))
  rintro m (⟨row, hrow, _⟩ | ⟨r, hr, _⟩ | ⟨t, ht, _⟩)
  · cases hrow
  · cases hr
  · cases ht

end WhatsappTester.Jobs.Messages
