import WhatsappTester.Jobs.Course

namespace WhatsappTester.Jobs.Timetable

open Schema State Atomic Atomic.Runs Atomic.Calendar Statements Process Scheduler Occurrences
  Recurrence Course

section Phase

/-- The times that a schedule first due at `runAt` and repeated every `stepMs` can occur at. -/
def Phase (runAt stepMs : Int) (t : Ms) : Prop := ∃ k : ℕ, t = runAt + k * stepMs

theorem advance_spec {stepMs : Int} (h : 0 < stepMs) (now : Int) (fuel : Nat) (next : Int)
    (hfuel : now - next ≤ fuel) : ∃ k : ℕ, advance stepMs now fuel next = next + (k + 1) * stepMs ∧
      now < advance stepMs now fuel next ∧ (k = 0 ∨ next + k * stepMs ≤ now) := by
  induction fuel generalizing next with
  | zero =>
    refine ⟨0, ?_, ?_, Or.inl rfl⟩ <;> simp only [advance]
    · simp
    · simp only [Nat.cast_zero] at hfuel
      omega
  | succ fuel ih =>
    simp only [advance]
    split
    case isTrue hle =>
      obtain ⟨k, hvalue, hlt, hpast⟩ := ih (next + stepMs) (by push_cast at hfuel; omega)
      refine ⟨k + 1, ?_, hlt, Or.inr ?_⟩
      · rw [hvalue]
        push_cast
        ring
      · obtain rfl | hpast := hpast
        · simpa using hle
        · push_cast
          linarith
    case isFalse hgt =>
      exact ⟨0, by simp, not_le.mp hgt, Or.inl rfl⟩

/-- The next occurrence is the first one in phase that is later than the last and than the clock. -/
theorem nextOccurrence_least {runAt stepMs : Int} (h : 0 < stepMs) {t : Ms}
    (ht : Phase runAt stepMs t) (s : Ms) :
    IsLeast {u | Phase runAt stepMs u ∧ t < u ∧ s < u} (nextOccurrence stepMs s t) := by
  obtain ⟨i, rfl⟩ := ht
  obtain ⟨k, hvalue, hlt, hpast⟩ :=
    advance_spec h s (s - (runAt + i * stepMs)).toNat (runAt + i * stepMs) (Int.self_le_toNat _)
  refine ⟨⟨⟨i + k + 1, ?_⟩, advance_gt h _ _ _, hlt⟩, ?_⟩
  · rw [nextOccurrence, hvalue]
    push_cast
    ring
  · rintro _ ⟨⟨m, rfl⟩, hafter, hlate⟩
    have hsteps : runAt + i * stepMs + k * stepMs < runAt + m * stepMs := by
      obtain rfl | hpast := hpast
      · simpa using hafter
      · exact lt_of_le_of_lt hpast hlate
    have hcount : ((i + k : ℕ) : Int) < m := by
      refine lt_of_mul_lt_mul_right ?_ h.le
      push_cast
      linarith
    have hle : ((i + k + 1 : ℕ) : Int) * stepMs ≤ m * stepMs :=
      Int.mul_le_mul_of_nonneg_right (by exact_mod_cast hcount) h.le
    rw [nextOccurrence, hvalue]
    push_cast at hle
    linarith

theorem after_some {value : Int} {unit : Option RepeatUnit} {endAt : Option Ms} {t s u : Ms}
    (h : after (some value, unit, endAt) t s = some u) :
    u = nextOccurrence (repeatUnitMs unit * value) s t ∧ ∀ e ∈ endAt, e ≠ 0 → u ≤ e := by
  simp only [after] at h
  split at h
  · cases h
  · split at h
    · cases h
    case isFalse hend =>
      obtain rfl := Option.some.inj h
      refine ⟨rfl, fun e he hzero => ?_⟩
      rw [Option.mem_def.mp he] at hend
      simpa [hzero] using hend

end Phase

theorem charted_create {n concurrency : Nat} {now : Ms} {as : List Action} {a : Action}
    {input : CreateInput} {args : CreateArgs} {K : Diary JobOrigin Terms Ms → Prop}
    (hK : ∀ d d', InOrder d → Step after d d' → K d → K d') (hgenuine : ∀ x ∈ as, Genuine x)
    (ha : a.calls = some (.createSchedule input)) (hargs : normalize input = .ok args)
    (hn : (run (initial concurrency now) as).world.shared.uuid = n) (hempty : K ⟨[], none⟩)
    (hnew : ∀ t, K ⟨[], some (planOf (newSchedule n t args))⟩) :
    Charted n K (step (run (initial concurrency now) as) a) := by
  have h := charted_initial n concurrency now hgenuine
  refine charted_step hK ⟨h.register, onCourse_fresh h.course.dated hn.le hempty⟩ ?_ ?_
  · rintro c hc
    obtain rfl := Option.some.inj (ha.symm.trans hc)
    trivial
  · intro input' args' hinput' hargs' _
    obtain rfl := Call.createSchedule.inj (Option.some.inj (ha.symm.trans hinput'))
    rw [Except.ok.inj (hargs.symm.trans hargs')] at hnew
    exact hnew _

section Single

variable {n : Nat} {s : Shared} {d : Diary JobOrigin Terms Ms}

theorem open_jobs (h : Shows n s d) :
    ((jobsOf (toString n) s).filter (fun j => !j.status.terminal)).length =
    (d.past.filter (fun o => o.settledAt.isNone)).length := by
  have hopen := congrArg (fun l => (l.filter (fun x : Chronicle => !x.settled)).length) h.past
  simpa [List.filter_map, Function.comp_def, chronicle, entry] using hopen

theorem occurrence_of {j : Job} (h : Shows n s d) (hj : j ∈ jobsOf (toString n) s) :
    ∃ o ∈ d.past, entry o = chronicle j ∧ j.idempotencyKey =
    some (occurrenceKey (toString n) o.due) := by
  obtain ⟨o, ho, hentry⟩ := List.mem_map.mp (h.past ▸ List.mem_map_of_mem hj)
  have hkey : o.work.idempotencyKey = j.idempotencyKey :=
    congrArg (fun x => x.origin.idempotencyKey) hentry
  exact ⟨o, ho, hentry, hkey.symm.trans (h.occurs o ho).key⟩

theorem plan_of {row : Schedule} (h : Shows n s d) (hdated : Dated s.uuid s)
    (hrow : row ∈ s.db.schedules) (hid : row.id = toString n) : d.plan = some (planOf row) := by
  rw [h.plan, ← hid, schedule_of_mem hdated hrow]
  rfl

theorem open_job {row : Schedule} {j : Job} (h : Shows n s d) (horder : InOrder d)
    (hdated : Dated s.uuid s) (hrow : row ∈ s.db.schedules) (hid : row.id = toString n)
    (hj : j ∈ jobsOf (toString n) s) (hopen : j.status.terminal = false) :
    j.idempotencyKey = some (occurrenceKey row.id row.nextRunAt) ∧ row.status ≠ .done := by
  obtain ⟨o, ho, hentry, hkey⟩ := occurrence_of h hj
  have hsettled : o.settledAt.isSome = false := (congrArg Chronicle.settled hentry).trans hopen
  obtain ⟨hdue, hfinished⟩ :=
    horder.current _ (plan_of h hdated hrow hid) o ho (by simpa using hsettled)
  rw [hkey, hdue, hid]
  exact ⟨rfl, of_decide_eq_false hfinished⟩

theorem over_done {row : Schedule} (h : Shows n s d) (horder : InOrder d) (hdated : Dated s.uuid s)
    (hrow : row ∈ s.db.schedules) (hid : row.id = toString n) (hdone : row.status = .done) :
    Over d.past d := by
  have hplan := plan_of h hdated hrow hid
  have hfinished : (planOf row).finished = true := decide_eq_true hdone
  refine ⟨rfl, fun o ho => ?_, fun p hp => ?_⟩
  · by_contra hopen
    have := (horder.current _ hplan o ho (by simpa using hopen)).2
    rw [hfinished] at this
    cases this
  · rw [hplan] at hp
    rwa [← Option.some.inj hp]

end Single

/-- Every schedule has at most one open job, which is that of its current occurrence. A schedule
that is done has none, and stays done without another job. -/
theorem one_open_job (concurrency : Nat) (now : Ms) (as : List Action)
    (hgenuine : ∀ a ∈ as, Genuine a) :
    let s := run (initial concurrency now) as
    (∀ id, ((jobsOf id s.world.shared).filter (fun j => !j.status.terminal)).length ≤ 1) ∧
    ∀ row ∈ s.world.shared.db.schedules,
      (∀ j ∈ jobsOf row.id s.world.shared, j.status.terminal = false →
        j.idempotencyKey = some (occurrenceKey row.id row.nextRunAt)) ∧
      (row.status = .done → (∀ j ∈ jobsOf row.id s.world.shared, j.status.terminal = true) ∧
        ∀ bs, (∀ b ∈ bs, Genuine b) →
          (∀ row' ∈ (run s bs).world.shared.db.schedules, row'.id = row.id → row'.status = .done) ∧
          (jobsOf row.id (run s bs).world.shared).map (·.id) =
          (jobsOf row.id s.world.shared).map (·.id)) := by
  intro s
  have hcharted : ∀ n, Charted n (fun _ => True) s :=
    fun n => charted_initial n concurrency now hgenuine
  have hdated := (hcharted 0).course.dated
  refine ⟨fun id => ?_, fun row hrow => ?_⟩
  · by_cases hname : ∃ n : ℕ, id = toString n
    · obtain ⟨n, rfl⟩ := hname
      obtain ⟨d, hshows, horder, _⟩ := (hcharted n).course.diary
      rw [open_jobs hshows]
      exact open_le_one horder
    · have hnone : jobsOf id s.world.shared = [] := by
        refine List.filter_eq_nil_iff.mpr (fun j hj hsource => ?_)
        obtain ⟨htype, hid⟩ := of_decide_eq_true hsource
        obtain hforeign | ⟨n, _, t, hoccurs, _⟩ := hdated.jobs j hj
        · exact hforeign.2 htype
        · exact hname ⟨n, Option.some.inj (hid.symm.trans hoccurs.source)⟩
      simp [hnone]
  · obtain ⟨n, hn, hid⟩ := hdated.named row hrow
    obtain ⟨d, hshows, horder, _⟩ := (hcharted n).course.diary
    refine ⟨fun j hj hopen => ?_, fun hdone => ⟨fun j hj => ?_, fun bs hbs => ?_⟩⟩
    · exact (open_job hshows horder hdated hrow hid (hid ▸ hj) hopen).1
    · by_contra hopen
      exact (open_job hshows horder hdated hrow hid (hid ▸ hj) (by simpa using hopen)).2 hdone
    · have hover : Charted n (Over d.past) s :=
        ⟨(hcharted n).register, hdated, d, hshows, horder,
          over_done hshows horder hdated hrow hid hdone⟩
      obtain ⟨_, hdated', d', hshows', _, hover'⟩ :=
        charted_run (fun _ _ _ hs hd => over_step hd hs) hover hn hbs
      refine ⟨fun row' hrow' hid' => ?_, ?_⟩
      · have hplan := plan_of hshows' hdated' hrow' (hid'.trans hid)
        exact of_decide_eq_true (hover'.finished _ hplan)
      · have hpast := hshows'.past
        rw [hover'.past, ← hshows.past, ← hid] at hpast
        have hids := congrArg (List.map (fun x => x.origin.id)) hpast
        simpa only [List.map_map, Function.comp_def, chronicle, jobOrigin] using hids

def everyMinute (runAt : Ms) (endAt : Option Ms) : CreateInput :=
  { recipients := [⟨some "1", none⟩], message := "hello", runAt := some runAt, delaySeconds := 0
    rule := some ⟨1, .minutes, endAt⟩ }

/-- The schedule ends with its only occurrence. -/
theorem one_open_job_done :
    let as : List Action :=
      [.call (.createSchedule (everyMinute 0 (some 1))), .call (.runTickIfReady true), .call .tick,
        .call (.complete 2 (.results [(.sent, none)]) 0)]
    let s := run (initial 1 0) as
    (s.world.shared.db.schedule "0").map (·.status) = some .done ∧
    (∀ id, ((jobsOf id s.world.shared).filter (fun j => !j.status.terminal)).length ≤ 1) ∧
    ∀ row ∈ s.world.shared.db.schedules,
      (∀ j ∈ jobsOf row.id s.world.shared, j.status.terminal = false →
        j.idempotencyKey = some (occurrenceKey row.id row.nextRunAt)) ∧
      (row.status = .done → (∀ j ∈ jobsOf row.id s.world.shared, j.status.terminal = true) ∧
        ∀ bs, (∀ b ∈ bs, Genuine b) →
          (∀ row' ∈ (run s bs).world.shared.db.schedules, row'.id = row.id → row'.status = .done) ∧
          (jobsOf row.id (run s bs).world.shared).map (·.id) =
          (jobsOf row.id s.world.shared).map (·.id)) :=
  ⟨by decide +kernel, one_open_job 1 0 _ (by decide +kernel)⟩

/-- The occurrences `ts` that the jobs `js` of a schedule were created for: none before it
was due, and after the first always the next one in phase. -/
structure InPhase (id : String) (runAt stepMs : Int) (ts : List Ms) (js : List Job) : Prop where
  keys : List.Forall₂ (fun t j => j.idempotencyKey = some (occurrenceKey id t)) ts js
  due : List.Forall₂ (fun t j => t ≤ j.createdAt) ts js
  phase : ∀ t ∈ ts, Phase runAt stepMs t
  increasing : ts.Pairwise (· < ·)
  least : (ts.zip js).IsChain (fun x y => x.2.status.terminal = true ∧
    ∃ s, x.2.completedAt = some s ∧ IsLeast {u | Phase runAt stepMs u ∧ x.1 < u ∧ s < u} y.1)

section Regular

variable {n : Nat} {s : Shared} {d : Diary JobOrigin Terms Ms}

theorem told (h : Shows n s d) :
    List.Forall₂ (fun o j => entry o = chronicle j) d.past (jobsOf (toString n) s) := by
  have heq : List.Forall₂ (· = ·) (d.past.map entry) ((jobsOf (toString n) s).map chronicle) := by
    rw [List.forall₂_eq_eq_eq]
    exact h.past.symm
  exact List.forall₂_map_left_iff.mp (List.forall₂_map_right_iff.mp heq)

theorem told_of {P : Occurrence JobOrigin Ms → Prop} {R : Ms → Job → Prop} (h : Shows n s d)
    (hP : ∀ o ∈ d.past, P o) (hR : ∀ o j, P o → entry o = chronicle j → R o.due j) :
    List.Forall₂ R (d.past.map Occurrence.due) (jobsOf (toString n) s) := by
  refine List.forall₂_map_left_iff.mpr
    (List.Forall₂.imp ?_ ((List.forall₂_and_left _ _).mpr ⟨hP, told h⟩))
  exact fun o j hoj => hR o j hoj.1 hoj.2

theorem chain_zip {os : List (Occurrence JobOrigin Ms)} {js : List Job}
    {R : Occurrence JobOrigin Ms → Occurrence JobOrigin Ms → Prop} {S : Ms × Job → Ms × Job → Prop}
    (hS : ∀ o j o' j', entry o = chronicle j → R o o' → S (o.due, j) (o'.due, j'))
    (h : List.Forall₂ (fun o j => entry o = chronicle j) os js) (hchain : os.IsChain R) :
    ((os.map Occurrence.due).zip js).IsChain S := by
  induction h with
  | nil => exact .nil
  | @cons o j os js hoj hrest ih =>
    cases hrest with
    | nil => exact .singleton _
    | @cons o' j' os js hoj' hrest =>
      obtain ⟨hfirst, htail⟩ := List.isChain_cons_cons.mp hchain
      exact List.isChain_cons_cons.mpr ⟨hS o j o' j' hoj hfirst, ih htail⟩

theorem inPhase_of {rule : Terms} {runAt stepMs : Int} (h : Shows n s d) (horder : InOrder d)
    (hregular : Regular rule (Phase runAt stepMs)
      (fun t s u => IsLeast {u | Phase runAt stepMs u ∧ t < u ∧ s < u} u) d) :
    InPhase (toString n) runAt stepMs (d.past.map Occurrence.due) (jobsOf (toString n) s) := by
  have hearlier : ∀ t s u, IsLeast {u | Phase runAt stepMs u ∧ t < u ∧ s < u} u → t < u :=
    fun t s u hleast => hleast.1.2.1
  have hincreasing := due_increasing hearlier hregular.chain
  refine ⟨told_of h h.occurs (fun o j hoccurs hentry => ?_),
    told_of h horder.due (fun o j hdue hentry => ?_), List.forall_mem_map.mpr hregular.admitted,
    List.pairwise_map.mpr hincreasing, chain_zip ?_ (told h) hregular.chain⟩
  · have hkey : o.work.idempotencyKey = j.idempotencyKey :=
      congrArg (fun x => x.origin.idempotencyKey) hentry
    exact hkey.symm.trans hoccurs.key
  · have hcreated : o.firedAt = j.createdAt := congrArg Chronicle.createdAt hentry
    exact hcreated ▸ hdue
  · rintro o j o' j' hentry ⟨c, hsettled, hleast⟩
    have hterminal : o.settledAt.isSome = j.status.terminal := congrArg Chronicle.settled hentry
    have hcompleted : o.settledAt = j.completedAt := congrArg Chronicle.completedAt hentry
    refine ⟨?_, c, hcompleted.symm.trans hsettled, hleast⟩
    rw [← hterminal, hsettled]
    rfl

theorem regular_empty {rule : Terms} {admits : Ms → Prop} {follows : Ms → Ms → Ms → Prop}
    {plan : Option (Plan Terms Ms)} (hplan : ∀ p ∈ plan, p.rule = rule ∧ admits p.next) :
    Regular rule admits follows (⟨[], plan⟩ : Diary JobOrigin Terms Ms) :=
  ⟨hplan, fun _ ho => absurd ho List.not_mem_nil, .nil, fun _ _ _ ho => by cases ho⟩

/-- A schedule that is created with a repeat rule goes by that rule in every run. -/
theorem regular_run {concurrency : Nat} {now : Ms} {as bs : List Action} {a : Action}
    {input : CreateInput} {args : CreateArgs} {rule : Repeat} (admits : Ms → Prop)
    (follows : Ms → Ms → Ms → Prop) (hgenuine : ∀ x ∈ as ++ a :: bs, Genuine x)
    (ha : a.calls = some (.createSchedule input)) (hargs : normalize input = .ok args)
    (hrule : args.rule = some rule) (hn : (run (initial concurrency now) as).world.shared.uuid = n)
    (hcreated : ∃ row ∈ (step (run (initial concurrency now) as) a).world.shared.db.schedules,
      row.id = toString n)
    (hfirst : admits args.runAt) (hafter : ∀ t s u, admits t →
      after (some rule.everyValue, some rule.everyUnit, rule.endAt) t s = some u →
      admits u ∧ follows t s u) :
    OnCourse n (Regular (some rule.everyValue, some rule.everyUnit, rule.endAt) admits follows)
      (run (run (initial concurrency now) as) (a :: bs)).world.shared := by
  have hK : ∀ d d' : Diary JobOrigin Terms Ms, InOrder d → Step after d d' →
      Regular (some rule.everyValue, some rule.everyUnit, rule.endAt) admits follows d →
      Regular _ admits follows d' :=
    fun _ _ _ hs hd => regular_step hafter hd hs
  have h := charted_create hK (fun x hx => hgenuine x (List.mem_append_left _ hx)) ha hargs hn
    (regular_empty (fun p hp => by cases hp)) (fun t => regular_empty ?_)
  · refine (charted_run hK h ?_ (fun x hx => hgenuine x ?_)).course
    · obtain ⟨row, hrow, hid⟩ := hcreated
      obtain ⟨m, hm, hname⟩ := h.course.dated.named row hrow
      rwa [← Nat.repr_injective (hname.symm.trans hid)]
    · exact List.mem_append_right _ (List.mem_cons_of_mem a hx)
  · rintro _ ⟨⟩
    refine ⟨?_, hfirst⟩
    simp [planOf, terms, newSchedule, hrule]

end Regular

/-- The jobs of a repeating schedule are created for occurrences in phase with `runAt`,
each of them the first after its predecessor and the moment that settled. -/
theorem occurrences_in_phase (concurrency : Nat) (now : Ms) (as bs : List Action) (a : Action)
    (input : CreateInput) (args : CreateArgs) (rule : Repeat)
    (hgenuine : ∀ x ∈ as ++ a :: bs, Genuine x) (ha : a.calls = some (.createSchedule input))
    (hargs : normalize input = .ok args) (hrule : args.rule = some rule) :
    let s := run (initial concurrency now) as
    let id := toString s.world.shared.uuid
    (∃ row ∈ (step s a).world.shared.db.schedules, row.id = id) →
    ∃ ts, InPhase id args.runAt (repeatUnitMs (some rule.everyUnit) * rule.everyValue) ts
      (jobsOf id (run s (a :: bs)).world.shared) := by
  intro s id hcreated
  have hstep : 0 < repeatUnitMs (some rule.everyUnit) * rule.everyValue :=
    Int.mul_pos (repeatUnitMs_pos _) (Int.lt_of_lt_of_le Int.zero_lt_one rule.positive)
  obtain ⟨_, d, hshows, horder, hregular⟩ := regular_run
    (Phase args.runAt (repeatUnitMs (some rule.everyUnit) * rule.everyValue)) _ hgenuine ha hargs
    hrule rfl hcreated
    ⟨0, by simp⟩ (fun t s u ht hu => by
      obtain ⟨rfl, _⟩ := after_some hu
      have hleast := nextOccurrence_least hstep ht s
      exact ⟨hleast.1.1, hleast⟩)
  exact ⟨_, inPhase_of hshows horder hregular⟩

def late : List Action :=
  [.advance 100000, .call (.runTickIfReady true), .call .tick,
    .call (.complete 2 (.results [(.sent, none)]) 0), .advance 30000, .call (.runTickIfReady true)]

theorem occurrences_in_phase_late :
    let s := run (initial 1 0) [.advance 7]
    let id := toString s.world.shared.uuid
    let js := jobsOf id (run s (.call (.createSchedule (everyMinute 10 none)) :: late)).world.shared
    js.map (·.idempotencyKey) = [some (occurrenceKey "0" 10), some (occurrenceKey "0" 120010)] ∧
      ∃ ts, InPhase id 10 (repeatUnitMs (some .minutes) * 1) ts js :=
  ⟨by decide +kernel, occurrences_in_phase 1 0 [.advance 7] late _ (everyMinute 10 none)
    ⟨[⟨"1", ""⟩], "hello", 10, 0, some ⟨1, .minutes, none, by decide⟩, none, by decide⟩
    ⟨1, .minutes, none, by decide⟩ (by decide +kernel) rfl (by rfl) rfl (by decide +kernel)⟩

/-- With an end date that is not zero and not before the first occurrence, no job is
created for an occurrence after the end date. -/
theorem no_occurrence_after_end (concurrency : Nat) (now : Ms) (as bs : List Action) (a : Action)
    (input : CreateInput) (args : CreateArgs) (rule : Repeat) (endAt : Ms)
    (hgenuine : ∀ x ∈ as ++ a :: bs, Genuine x) (ha : a.calls = some (.createSchedule input))
    (hargs : normalize input = .ok args) (hrule : args.rule = some rule)
    (hend : rule.endAt = some endAt) (hzero : endAt ≠ 0) (hfirst : args.runAt ≤ endAt) :
    let s := run (initial concurrency now) as
    let id := toString s.world.shared.uuid
    (∃ row ∈ (step s a).world.shared.db.schedules, row.id = id) →
    ∀ j ∈ jobsOf id (run s (a :: bs)).world.shared, ∃ t ≤ endAt, j.idempotencyKey =
    some (occurrenceKey id t) := by
  intro s id hcreated j hj
  obtain ⟨_, d, hshows, _, hregular⟩ :=
    regular_run (fun t => t ≤ endAt) (fun _ _ _ => True) hgenuine ha hargs
    hrule rfl hcreated hfirst (fun t s u _ hu => by
      obtain ⟨_, hle⟩ := after_some hu
      exact ⟨hle endAt hend hzero, trivial⟩)
  obtain ⟨o, ho, _, hkey⟩ := occurrence_of hshows hj
  exact ⟨o.due, hregular.admitted o ho, hkey⟩

theorem no_occurrence_after_end_last :
    let s := run (initial 1 0) []
    let id := toString s.world.shared.uuid
    let js :=
      jobsOf id (run s (.call (.createSchedule (everyMinute 10 (some 60010))) :: late)).world.shared
    js.length = 1 ∧ ∀ j ∈ js, ∃ t ≤ 60010, j.idempotencyKey = some (occurrenceKey id t) :=
  ⟨by decide +kernel, no_occurrence_after_end 1 0 [] late _ (everyMinute 10 (some 60010))
    ⟨[⟨"1", ""⟩], "hello", 10, 0, some ⟨1, .minutes, some 60010, by decide⟩, none, by decide⟩
    ⟨1, .minutes, some 60010, by decide⟩ 60010 (by decide +kernel) rfl (by rfl) rfl rfl
      (by decide) (by decide)
    (by decide +kernel)⟩

/-- The first occurrence is not compared with the end date, and an end date of zero counts as none. -/
theorem no_occurrence_after_end_fails :
    ((run (initial 1 20) [.call (.createSchedule (everyMinute 10 (some 5))),
        .call (.runTickIfReady true)]).world.shared.db.jobs.map (·.idempotencyKey) =
      [some (occurrenceKey "0" 10)] ∧ (10 : Ms) > 5) ∧
    (run (initial 1 0) [.call (.createSchedule (everyMinute 0 (some 0))),
        .call (.runTickIfReady true), .call .tick, .call (.complete 2 (.results [(.sent, none)]) 0),
        .advance 60000, .call (.runTickIfReady true)]).world.shared.db.jobs.map (·.idempotencyKey) =
      [some (occurrenceKey "0" 0), some (occurrenceKey "0" 60000)] ∧ (60000 : Ms) > 0 := by
  decide +kernel

end WhatsappTester.Jobs.Timetable
