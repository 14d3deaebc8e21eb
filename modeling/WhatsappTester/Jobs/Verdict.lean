import WhatsappTester.Jobs.Counting
import WhatsappTester.Jobs.Upkeep

namespace WhatsappTester.Jobs.Verdict

open Schema State Atomic Atomic.Program Atomic.Runs Statements JobService Claiming Worker
  Ledger Custody
open Process Solo Standing Registry Uniqueness Settling Upkeep

def settles (id : Id) : Event → Bool
  | .settled _ job => decide (job = id)
  | _ => false

def settlements (id : Id) (s : Shared) : Nat := s.trace.countP (settles id)

/-- A job is open as long as one of its items is; after that it has its final status, and was reported once. -/
structure Due (s : Shared) (j : Job) : Prop where
  early : (∃ r ∈ s.db.itemsOf j.id, r.status.terminal = false) →
    j.status.terminal = false ∧ settlements j.id s = 0
  late : s.db.itemsOf j.id ≠ [] → (∀ r ∈ s.db.itemsOf j.id, r.status.terminal = true) →
    j.status = finalStatus (tally s.db j.id .succeeded) j.total ∧ settlements j.id s = 1

/-- What is reported of the jobs that are not cancelled is what their items say. -/
structure Judged (s : Shared) : Prop where
  owned : Owned s
  fresh : ∀ id, id ∉ jobIds s → settlements id s = 0
  due : ∀ j ∈ s.db.jobs, j.status ≠ .cancelled → Due s j

/-- The tasks in flight, but for one item and for those of cancelled jobs, are about open items. -/
def Busy (but : Option Id) (v : World) : Prop :=
  ∀ t ∈ v.mem.inFlight, some t.item.id ≠ but → ∀ r ∈ v.shared.db.items, r.id = t.item.id →
    r.status.terminal = false ∨ ∃ j ∈ v.shared.db.jobs, j.id = r.jobId ∧ j.status = .cancelled

def fate (status : JobStatus) : Option JobStatus := if status.terminal then some status else none

def jobFate (j : Job) : JobOrigin × Option JobStatus := (jobOrigin j, fate j.status)

def isSettled : Event → Bool
  | .settled .. => true
  | _ => false

structure Undecided (v v' : World) : Prop where
  jobs : v'.shared.db.jobs.map jobFate = v.shared.db.jobs.map jobFate
  reports : v'.shared.trace.filter isSettled = v.shared.trace.filter isSettled

section Fate

variable {s s' : Shared} {v v' : World}

theorem fate_eq {status status' : JobStatus} (h : fate status = fate status') :
    status.terminal = status'.terminal ∧ (status'.terminal = true → status = status') := by
  cases status <;> cases status' <;> simp_all [fate, JobStatus.terminal, terminalJobStatuses]

theorem fate_cancelled {status status' : JobStatus} (h : fate status = fate status')
    (hne : status ≠ .cancelled) :
    status' ≠ .cancelled := by
  rintro rfl
  exact hne ((fate_eq h).2 rfl)

theorem settlements_eq (h : s'.trace.filter isSettled = s.trace.filter isSettled) (id : Id) :
    settlements id s' = settlements id s := by
  have hcount : ∀ t : List Event, t.countP (settles id) =
      (t.filter isSettled).countP (settles id) := by
    intro t
    rw [List.countP_filter]
    refine List.countP_congr (fun e _ => ?_)
    cases e <;> simp [settles, isSettled]
  rw [settlements, settlements, hcount, h, ← hcount]

theorem job_fate (h : s'.db.jobs.map jobFate = s.db.jobs.map jobFate) {j' : Job}
    (hj' : j' ∈ s'.db.jobs) :
    ∃ j ∈ s.db.jobs, jobOrigin j = jobOrigin j' ∧ fate j.status = fate j'.status := by
  have hmem : jobFate j' ∈ s.db.jobs.map jobFate := h ▸ List.mem_map_of_mem hj'
  obtain ⟨j, hj, heq⟩ := List.mem_map.mp hmem
  exact ⟨j, hj, congrArg Prod.fst heq, congrArg Prod.snd heq⟩

theorem jobIds_fate (h : s'.db.jobs.map jobFate = s.db.jobs.map jobFate) :
    jobIds s' = jobIds s := by
  have hids := congrArg (List.map (fun x => x.1.id)) h
  simpa only [List.map_map, Function.comp_def, jobFate, jobOrigin, jobIds] using hids

theorem itemsOf_standing (h : s'.db.items.map itemStanding = s.db.items.map itemStanding)
    (id : Id) :
    (s'.db.itemsOf id).map itemStanding = (s.db.itemsOf id).map itemStanding := by
  have hfilter : ∀ rows : List JobItem,
      (rows.filter (fun r => decide (r.jobId = id))).map itemStanding =
      (rows.map itemStanding).filter (fun x => decide (x.1.jobId = id)) := by
    intro rows
    rw [List.filter_map]
    rfl
  rw [Db.itemsOf, Db.itemsOf, hfilter, hfilter, h]

theorem tally_itemsOf (db : Db) (id : Id) (status : ItemStatus) :
    tally db id status = (db.itemsOf id).countP (fun r => decide (r.status = status)) := by
  rw [tally, Db.itemsOf, List.countP_filter]
  exact List.countP_congr (fun r _ => by simp [and_comm])

theorem due_of {j j' : Job} (h : Due s j) (horigin : jobOrigin j = jobOrigin j')
    (hfate : fate j.status = fate j'.status)
    (hitems : (s'.db.itemsOf j.id).map itemStanding = (s.db.itemsOf j.id).map itemStanding)
    (hsettled : settlements j.id s' = settlements j.id s) : Due s' j' := by
  have hid : j.id = j'.id := congrArg JobOrigin.id horigin
  have htotal : j.total = j'.total := congrArg JobOrigin.total horigin
  obtain ⟨hterminal, hsame⟩ := fate_eq hfate
  have hfinal : ∀ p : Option ItemStatus → Prop,
      (∀ r ∈ s'.db.itemsOf j.id, p (final r.status)) ↔
      ∀ r ∈ s.db.itemsOf j.id, p (final r.status) := by
    intro p
    have := congrArg (fun l => ∀ x ∈ l, p x.2) hitems
    simpa only [List.forall_mem_map, itemStanding, eq_iff_iff] using this
  have hopen : (∃ r ∈ s'.db.itemsOf j.id, r.status.terminal = false) ↔
      ∃ r ∈ s.db.itemsOf j.id, r.status.terminal = false := by
    have := not_congr (hfinal (· ≠ none))
    simpa only [ne_eq, final_eq_none, not_forall, not_not, exists_prop] using this
  have htally : tally s'.db j.id .succeeded = tally s.db j.id .succeeded := by
    have hcount : ∀ rows : List JobItem, rows.countP (fun r => decide (r.status = .succeeded)) =
        (rows.map itemStanding).countP (fun x => decide (x.2 = some .succeeded)) := by
      intro rows
      rw [List.countP_map]
      refine List.countP_congr (fun r _ => ?_)
      simp [itemStanding, final_eq_some, ItemStatus.terminal, terminalItemStatuses]
    rw [tally_itemsOf, tally_itemsOf, hcount, hitems, ← hcount]
  refine ⟨?_, ?_⟩
  · rw [← hid, hopen, hsettled, ← hterminal]
    exact h.early
  · rw [← hid, ← htotal, htally, hsettled]
    intro hne hall
    have hne' : s.db.itemsOf j.id ≠ [] := by
      rintro hnil
      rw [hnil] at hitems
      exact hne (List.map_eq_nil_iff.mp hitems)
    obtain ⟨hstatus, hcount⟩ := h.late hne' (fun r hr => by
      by_contra hr'
      obtain ⟨r', hr', hopen'⟩ := hopen.mpr ⟨r, hr, by simpa using hr'⟩
      rw [hall r' hr'] at hopen'
      cases hopen')
    have hend : j'.status.terminal = true := by
      rw [← hterminal, hstatus]
      exact finalStatus_terminal _ _
    exact ⟨(hsame hend).symm.trans hstatus, hcount⟩

theorem judged_of (h : Judged s)
    (hitems : s'.db.items.map itemStanding = s.db.items.map itemStanding)
    (hjobs : s'.db.jobs.map jobFate = s.db.jobs.map jobFate)
    (hreports : s'.trace.filter isSettled = s.trace.filter isSettled) : Judged s' := by
  refine ⟨fun r hr => ?_, fun id hid => ?_, fun j' hj' hne => ?_⟩
  · have hmem : itemStanding r ∈ s.db.items.map itemStanding := hitems ▸ List.mem_map_of_mem hr
    obtain ⟨r₀, hr₀, heq⟩ := List.mem_map.mp hmem
    have hjob : r₀.jobId = r.jobId := congrArg (fun x => x.1.jobId) heq
    rw [jobIds_fate hjobs, ← hjob]
    exact h.owned r₀ hr₀
  · rw [settlements_eq hreports]
    rw [jobIds_fate hjobs] at hid
    exact h.fresh id hid
  · obtain ⟨j, hj, horigin, hfate⟩ := job_fate hjobs hj'
    exact due_of (h.due j hj (fate_cancelled hfate.symm hne)) horigin hfate
      (itemsOf_standing hitems j.id)
      (settlements_eq hreports j.id)

end Fate

section Undecided

variable {u v w : World}

theorem undecided_mute : Tolerant Undecided :=
  fun _ _ h => ⟨by rw [h.jobs], by rw [h.trace]⟩

theorem undecided_memo (h : Memo v w) : Undecided v w := ⟨by rw [h.shared], by rw [h.shared]⟩

theorem undecided_web (h : Web v w) : Undecided v w := by
  have hjobs : w.shared.db.jobs = v.shared.db.jobs := congrArg JobSide.jobs h.jobSide
  refine ⟨by rw [hjobs], filter_of_notWeb ?_ (congrArg JobSide.events h.jobSide)⟩
  intro e he
  cases e <;> first | rfl | cases he

theorem undecided_refl (v : World) : Undecided v v := ⟨rfl, rfl⟩

theorem undecided_trans (h : Undecided u v) (h' : Undecided v w) : Undecided u w :=
  ⟨h'.jobs.trans h.jobs, h'.reports.trans h.reports⟩

theorem undecided_updateJobs {p : Job → Bool} {f : Job → Job}
    (hf : ∀ j, p j → jobFate (f j) = jobFate j) :
    Always Undecided (updateJobs p f) := always_update _ (fun _ => ⟨Table.map_update hf _, rfl⟩)

theorem undecided_updateItems (p : JobItem → Bool) (f : JobItem → JobItem) :
    Always Undecided (updateItems p f) := always_update _ (fun _ => ⟨rfl, rfl⟩)

theorem undecided_updateItemsRecord (p : JobItem → Bool) (f : JobItem → JobItem) {e : World → Event}
    (he : ∀ w, isSettled (e w) = false) : Always Undecided (updateItemsRecord p f e) :=
  always_update _ (fun w =>
    ⟨rfl, by rw [List.filter_cons_of_neg (by rw [he w]; exact Bool.false_ne_true)]⟩)

theorem fate_movedJob {status : JobStatus} {j : Job} (hj : j.status.terminal = false)
    (hstatus : status.terminal = false) (now : Ms) :
    jobFate (movedJob status now j) = jobFate j := by
  simp only [jobFate, fate, movedJob, hj, hstatus]
  rfl

theorem undecided_markItemRunning (i : Id) : Always Undecided (markItemRunning i) := by
  refine always_markItemRunning undecided_mute i (fun _ => undecided_updateItems _ _)
    (fun id now => ?_)
  refine undecided_updateJobs (fun j hj => ?_)
  simp only [jobFate, fate, startedJob, (of_decide_eq_true hj).2]
  rfl

theorem undecided_tick : Always Undecided tick := by
  refine always_tick undecided_mute
    (always_tickLoop (fun _ _ => undecided_memo) ?_ (fun item => ?_))
  · refine always_claimNextItem undecided_mute (fun now => always_update _ (fun v => ?_))
    cases nextClaimable v.shared.db now with
    | none => exact undecided_refl v
    | some row => exact ⟨rfl, List.filter_cons_of_neg (by simp [isSettled])⟩
  · refine always_processItem item (undecided_markItemRunning _) (fun n => ?_) (fun n => ?_)
    · exact tolerant_recordAttemptStart undecided_mute _ n
        (fun _ => always_exec (fun _ => ⟨rfl, rfl⟩))
        (fun _ => undecided_updateItemsRecord _ _ (fun _ => rfl))
    · exact always_exec (fun _ => ⟨rfl, List.filter_cons_of_neg (by simp [isSettled])⟩)

theorem undecided_recordOutcome (task : Task) (outcome : SendOutcome) (random : Nat) :
    Always Undecided (recordOutcome task outcome random) := by
  refine tolerant_recordOutcome undecided_mute (fun _ _ => undecided_memo) task outcome
    random ?_ ?_ ?_
  · exact fun _ _ _ => always_bind (always_read undecided_mute _)
      (fun _ => always_exec (fun _ => ⟨rfl, rfl⟩))
  · exact fun _ _ _ => always_scheduleRetry undecided_mute _ _ _ _
      (fun _ => undecided_updateItemsRecord _ _ (fun _ => rfl))
  · refine fun status _ _ _ => always_markItemTerminal undecided_mute _
      (fun _ => undecided_updateItemsRecord _ _ (fun _ => rfl))
      (fun _ now => undecided_updateJobs (fun j _ => ?_))
    rw [jobFate, jobFate, addCounter_origin, addCounter_status]

theorem undecided_changeStatus (id : Id) (p : Job → Bool) {status : JobStatus} {kind : JobEventKind}
    (hkind : ∀ ts, isCompletion ⟨id, ts, kind⟩ = false) (hstatus : status.terminal = false)
    (hp : ∀ j, p j → j.status.terminal = false) : Always Undecided (do
      let now ← dateNow
      let changes ← updateJobs p (movedJob status now)
      if changes > 0 then recordEvent id kind else pure ()
      getJob id) :=
  always_changeStatus undecided_mute id p _ hkind
    (fun now => undecided_updateJobs (fun j hj => fate_movedJob (hp j hj) hstatus now))

theorem undecided_pauseJob (id : Id) (actor : Option String) :
    Always Undecided (pauseJob id actor) := by
  refine undecided_changeStatus id _ (fun _ => rfl) rfl (fun j hj => ?_)
  have hstatus := (of_decide_eq_true hj).2
  simp only [List.mem_cons, List.not_mem_nil, or_false] at hstatus
  obtain hstatus | hstatus := hstatus <;> rw [hstatus] <;> rfl

theorem undecided_resumeJob (id : Id) (actor : Option String) :
    Always Undecided (resumeJob id actor) := by
  refine undecided_changeStatus id _ (fun _ => rfl) rfl (fun j hj => ?_)
  rw [(of_decide_eq_true hj).2]
  rfl

end Undecided

/-- What is reported is what the items say, and the work in flight does not change what is final. -/
structure Ruled (v : World) : Prop where
  judged : Judged v.shared
  busy : Busy none v

def Rules (v v' : World) : Prop := Ruled v → Ruled v'

section Rules

variable {v v' : World} {but : Option Id}

theorem busy_of (h : Busy but v)
    (hitems : v'.shared.db.items.map itemStanding = v.shared.db.items.map itemStanding)
    (hjobs : v'.shared.db.jobs.map jobFate = v.shared.db.jobs.map jobFate)
    (hflight : ∀ t ∈ v'.mem.inFlight, t ∈ v.mem.inFlight ∨ Open t.item.id v'.shared) :
    Busy but v' := by
  intro t ht hne r hr hid
  obtain ht | hopen := hflight t ht
  · have hmem : itemStanding r ∈ v.shared.db.items.map itemStanding :=
      hitems ▸ List.mem_map_of_mem hr
    obtain ⟨r₀, hr₀, heq⟩ := List.mem_map.mp hmem
    have hid₀ : r₀.id = r.id := congrArg (fun x => x.1.id) heq
    have hjob₀ : r₀.jobId = r.jobId := congrArg (fun x => x.1.jobId) heq
    have hfinal : final r₀.status = final r.status := congrArg Prod.snd heq
    obtain hopen | ⟨j, hj, hjid, hcancelled⟩ := h t ht hne r₀ hr₀ (hid₀.trans hid)
    · exact Or.inl (final_eq_none.mp (hfinal ▸ final_eq_none.mpr hopen))
    · obtain ⟨j', hj', horigin, hfate⟩ := job_fate hjobs.symm hj
      have hid' : j'.id = j.id := congrArg JobOrigin.id horigin
      refine Or.inr ⟨j', hj', hid'.trans (hjid.trans hjob₀), ?_⟩
      exact ((fate_eq hfate).2 (by rw [hcancelled]; rfl)).trans hcancelled
  · exact Or.inl (hopen r hr hid)

theorem ruled_of (h : Ruled v)
    (hitems : v'.shared.db.items.map itemStanding = v.shared.db.items.map itemStanding)
    (hu : Undecided v v')
    (hflight : ∀ t ∈ v'.mem.inFlight, t ∈ v.mem.inFlight ∨ Open t.item.id v'.shared) :
    Ruled v' :=
  ⟨judged_of h.judged hitems hu.jobs hu.reports, busy_of h.busy hitems hu.jobs hflight⟩

theorem rules_even (h : Even v v') (hu : Undecided v v') : Rules v v' :=
  fun hr => ruled_of hr (congrArg Progress.items h.standing) hu (fun _ ht => Or.inl (h.flight ▸ ht))

theorem rules_mute : Tolerant Rules :=
  fun v v' h => rules_even (even_aside v v' h.toAside) (undecided_mute v v' h)

theorem rules_web (h : Web v v') : Rules v v' := rules_even (even_web h) (undecided_web h)

theorem rules_updateSchedules (p : Schedule → Bool) (f : Schedule → Schedule) :
    Always Rules (updateSchedules p f) :=
  always_update _ (fun _ h => ruled_of h rfl ⟨rfl, rfl⟩ (fun _ ht => Or.inl ht))

theorem rules_insertJobAndItems (id : Id) (now : Ms) (a : CreateJobArgs) :
    Always Rules (insertJobAndItems id now a) := by
  refine always_update _ (fun v h => ?_)
  cases htransaction : createTransaction id now a v.shared.uuid v.shared.db with
  | error err => exact ruled_of h rfl ⟨rfl, rfl⟩ (fun _ ht => Or.inl ht)
  | ok db =>
    obtain ⟨rfl, hfresh, _⟩ := createTransaction_ok htransaction
    have hcount : ∀ (k : Id) (e : Event), isSettled e = false →
        settlements k { v.shared with trace := e :: v.shared.trace } = settlements k v.shared :=
      fun k e he =>
        settlements_eq (List.filter_cons_of_neg (by rw [he]; exact Bool.false_ne_true)) k
    refine ⟨⟨insert_owned htransaction h.judged.owned, ?_, ?_⟩, ?_⟩
    · intro k hk
      refine (hcount k _ rfl).trans (h.judged.fresh k (fun hmem => hk ?_))
      simp only [jobIds, List.map_append, List.mem_append]
      exact Or.inl hmem
    · intro j hj hne
      obtain hj | hj := List.mem_append.mp hj
      · exact due_of (h.judged.due j hj hne) rfl rfl
          (by rw [insert_itemsOf htransaction (hfresh j hj)])
          (hcount j.id _ rfl)
      · rw [List.mem_singleton] at hj
        subst hj
        have hnew := insert_itemsOf_new htransaction h.judged.owned
        refine ⟨fun _ => ⟨rfl, (hcount id _ rfl).trans (h.judged.fresh id ?_)⟩,
          fun hitems hall => ?_⟩
        · rintro hmem
          obtain ⟨j, hj, hid⟩ := List.mem_map.mp hmem
          exact hfresh j hj hid
        · obtain ⟨r, hr⟩ := List.exists_mem_of_ne_nil _ hitems
          have hend := hall r hr
          rw [(mem_newItems (hnew ▸ hr)).2] at hend
          cases hend
    · intro t ht hne r hr hid
      obtain hr | hr := List.mem_append.mp hr
      · refine (h.busy t ht hne r hr hid).imp_right (fun hjob => ?_)
        obtain ⟨j, hj, hcancelled⟩ := hjob
        exact ⟨j, List.mem_append_left _ hj, hcancelled⟩
      · rw [(mem_newItems hr).2]
        exact Or.inl rfl

theorem rules_callCreateJob (a : CreateJobArgs) : Always Rules (callCreateJob a) := by
  refine always_callCreateJob rules_mute a (fun id now => rules_insertJobAndItems id now a) ?_
  intro result v h
  cases result with
  | ok x => exact ruled_of h rfl ⟨rfl, List.filter_cons_of_neg (by simp [isSettled])⟩ (fun _ ht => Or.inl ht)
  | error err => exact h

theorem ruled_cancelled {j : Job} (hdistinct : (v.shared.db.jobs.map (·.id)).Nodup) (h : Ruled v)
    (hj : j ∈ v.shared.db.jobs) (hopen : j.status.terminal = false) (now : Ms) : Ruled { v with
      shared.db.jobs := Table.update (fun k => decide (k.id = j.id ∧ ¬ k.status.terminal = true))
        (settledJob .cancelled now) v.shared.db.jobs
      shared.db.items :=
        Table.update (fun r => decide (r.jobId = j.id ∧ r.status ∈ [.queued, .claimed, .running]))
        (cancelledItem now) v.shared.db.items
      shared.trace := .itemsCancelled j.id :: v.shared.trace } := by
  have hgone : settledJob .cancelled now j ∈ Table.update
      (fun k => decide (k.id = j.id ∧ ¬ k.status.terminal = true))
      (settledJob .cancelled now) v.shared.db.jobs :=
    Table.mem_update.mpr ⟨j, hj, if_pos (decide_eq_true ⟨rfl, by simp [hopen]⟩)⟩
  have hother : ∀ k ∈ v.shared.db.jobs, k.id ≠ j.id → k ∈ Table.update
      (fun k => decide (k.id = j.id ∧ ¬ k.status.terminal = true))
      (settledJob .cancelled now) v.shared.db.jobs :=
    fun k hk hne => Table.mem_update.mpr ⟨k, hk, if_neg (by simp [hne])⟩
  have hids : (Table.update (fun k => decide (k.id = j.id ∧ ¬ k.status.terminal = true))
      (settledJob .cancelled now) v.shared.db.jobs).map (·.id) = v.shared.db.jobs.map (·.id) :=
    Table.map_update (by exact fun _ _ => rfl) _
  have hcount : ∀ k, settlements k { v.shared with trace := .itemsCancelled j.id ::
      v.shared.trace } = settlements k v.shared := fun k =>
        settlements_eq (List.filter_cons_of_neg (by simp [isSettled])) k
  have hitems : ∀ k ≠ j.id, (Table.update
      (fun r => decide (r.jobId = j.id ∧ r.status ∈ [.queued, .claimed, .running]))
      (cancelledItem now) v.shared.db.items).filter (fun r => decide (r.jobId = k)) =
      v.shared.db.items.filter (fun r => decide (r.jobId = k)) := by
    refine fun k hk => Table.filter_update (fun r _ hr => ?_)
    obtain ⟨hjob, _⟩ := of_decide_eq_true hr
    simp [cancelledItem, hjob, Ne.symm hk]
  refine ⟨⟨?_, ?_, ?_⟩, ?_⟩
  · intro r hr
    obtain ⟨r₀, hr₀, rfl⟩ := Table.mem_update.mp hr
    rw [jobIds, hids]
    have := h.judged.owned r₀ hr₀
    split <;> exact this
  · intro k hk
    rw [jobIds, hids] at hk
    exact (hcount k).trans (h.judged.fresh k hk)
  · intro k hk hne
    obtain ⟨k₀, hk₀, rfl⟩ := Table.mem_update.mp hk
    by_cases hid : k₀.id = j.id
    · rw [Table.eq_of_key hdistinct hk₀ hj hid] at hne
      simp [hopen, settledJob] at hne
    · simp only [hid, false_and, decide_false, Bool.false_eq_true, ↓reduceIte] at hne ⊢
      exact due_of (h.judged.due k₀ hk₀ hne) rfl rfl (congrArg _ (hitems k₀.id hid)) (hcount k₀.id)
  · intro t ht hne r hr hid
    obtain ⟨r₀, hr₀, rfl⟩ := Table.mem_update.mp hr
    by_cases hjob : r₀.jobId = j.id
    · refine Or.inr ⟨_, hgone, ?_, rfl⟩
      split <;> exact hjob.symm
    · simp only [hjob, false_and, decide_false, Bool.false_eq_true, ↓reduceIte] at hid ⊢
      obtain hopen | ⟨k, hk, hkid, hcancelled⟩ := h.busy t ht hne r₀ hr₀ hid
      · exact Or.inl hopen
      · exact Or.inr ⟨k, hother k hk (fun heq => hjob (hkid.symm.trans heq)), hkid, hcancelled⟩

theorem ends_cancelJob (id : Id) (actor : Option String)
    (hdistinct : (v.shared.db.jobs.map (·.id)).Nodup) (h : Ruled v) :
    Ends (cancelJob id actor) (fun _ t => Ruled t) v := by
  have hrules : ∀ {α : Type} {p : Code α} {u : World}, Always Rules p → Ruled u →
      Ends p (fun _ t => Ruled t) u :=
    fun hp hu => ends_always (fun _ _ ha hab => hab ha) hp hu
  have hget := always_getJob rules_mute id
  simp only [Ends, cancelJob, dateNow, updateJobs, wp_bind, wp_query, wp_update,
    forall_eq', true_and]
  split
  case isFalse hnone =>
    have hself : Table.update (fun j => decide (j.id = id ∧ ¬ j.status.terminal = true))
        (settledJob .cancelled v.shared.now) v.shared.db.jobs = v.shared.db.jobs :=
      Table.update_eq_self (fun j hj hp => hnone (List.countP_pos_iff.mpr ⟨j, hj, hp⟩))
    simp only [hself]
    exact hrules hget h
  case isTrue hsome =>
    obtain ⟨j, hj, hp⟩ := List.countP_pos_iff.mp hsome
    obtain ⟨rfl, hopen⟩ := of_decide_eq_true hp
    refine (wp_bind ..).mpr ?_
    rintro _ rfl
    refine ⟨trivial,
      hrules (always_bind (tolerant_recordEvent rules_mute _ (fun _ => rfl)) (fun _ => hget)) ?_⟩
    exact ruled_cancelled hdistinct h hj (by simpa using hopen) _

end Rules

/-- The outcome of item `i` of job `k` is recorded, and the job is not judged yet. -/
structure Recorded (i k : Id) (v : World) : Prop where
  owned : Owned v.shared
  fresh : ∀ id, id ∉ jobIds v.shared → settlements id v.shared = 0
  due : ∀ j ∈ v.shared.db.jobs, j.status ≠ .cancelled → (j.id = k → j.status.terminal = true) →
    Due v.shared j
  unreported : ∀ j ∈ v.shared.db.jobs, j.id = k → j.status.terminal = false →
    v.shared.db.itemsOf k ≠ [] → settlements k v.shared = 0
  busy : Busy (some i) v

section Complete

variable {i k : Id} {u v : World}

theorem itemsOf_beside (hb : Beside i v u) {id : Id}
    (hrow : ∀ r ∈ v.shared.db.items, r.id = i → r.jobId ≠ id) :
    u.shared.db.itemsOf id = v.shared.db.itemsOf id := by
  have hrow' : ∀ r ∈ u.shared.db.items, r.id = i → r.jobId ≠ id := by
    intro r hr hid
    obtain ⟨r₀, hr₀, heq⟩ := item_origin hb.origins hr
    have hid₀ : r₀.id = r.id := congrArg ItemOrigin.id heq
    have hjob₀ : r₀.jobId = r.jobId := congrArg ItemOrigin.jobId heq
    exact hjob₀ ▸ hrow r₀ hr₀ (hid₀.trans hid)
  have hbeside : ∀ s : Shared, (∀ r ∈ s.db.items, r.id = i → r.jobId ≠ id) →
      s.db.itemsOf id = (rowsBeside i s).filter (fun r => decide (r.jobId = id)) := by
    intro s hs
    rw [Db.itemsOf, rowsBeside, List.filter_filter]
    refine List.filter_congr (fun r hr => ?_)
    by_cases hid : r.id = i
    · simp [hs r hr hid]
    · simp [hid]
  rw [hbeside u.shared hrow', hbeside v.shared hrow, hb.rows]

theorem itemsOf_origins (heq : origins u = origins v) (id : Id) :
    u.shared.db.itemsOf id = [] ↔ v.shared.db.itemsOf id = [] := by
  have hitems : u.shared.db.items.map itemOrigin = v.shared.db.items.map itemOrigin :=
    congrArg Origins.items heq
  have hiff : ∀ s : Shared, s.db.itemsOf id = [] ↔
      ∀ x ∈ s.db.items.map itemOrigin, x.jobId ≠ id := by
    intro s
    simp [Db.itemsOf, itemOrigin]
  rw [hiff, hiff, hitems]

theorem recorded_beside (hdistinct : (v.shared.db.jobs.map (·.id)).Nodup)
    (hrow : ∀ r ∈ v.shared.db.items, r.id = i → r.jobId = k) {t : Task} (ht : t ∈ v.mem.inFlight)
    (hid : t.item.id = i) (h : Ruled v) (hb : Beside i v u) (hu : Undecided v u) :
    Recorded i k u := by
  have hitem : ∀ j ∈ v.shared.db.jobs, j.status ≠ .cancelled →
      (j.id = k → j.status.terminal = true) → ∀ r ∈ v.shared.db.items, r.id = i →
      r.jobId ≠ j.id := by
    intro j hj hne hterminal r hr hri hjob
    have hend := hterminal (hjob.symm.trans (hrow r hr hri))
    obtain hopen | ⟨c, hc, hcid, hcancelled⟩ := h.busy t ht (by simp) r hr (hri.trans hid.symm)
    · have hearly :=
        (h.judged.due j hj hne).early ⟨r, List.mem_filter.mpr ⟨hr, decide_eq_true hjob⟩, hopen⟩
      rw [hearly.1] at hend
      cases hend
    · rw [Table.eq_of_key hdistinct hc hj (hcid.trans hjob)] at hcancelled
      exact hne hcancelled
  refine ⟨owned_origins h.judged.owned hb.origins, fun id hmem => ?_, fun j hj hne hterminal => ?_,
    fun j hj hjid hopen hitems => ?_, fun t' ht' hne r hr hrid => ?_⟩
  · rw [jobIds_of_origins hb.origins] at hmem
    exact (settlements_eq hu.reports id).trans (h.judged.fresh id hmem)
  · obtain ⟨j₀, hj₀, horigin, hfate⟩ := job_fate hu.jobs hj
    have hid₀ : j₀.id = j.id := congrArg JobOrigin.id horigin
    have hne₀ := fate_cancelled hfate.symm hne
    have hsame := itemsOf_beside hb (hitem j₀ hj₀ hne₀
      (fun hk => (fate_eq hfate).1.trans (hterminal (hid₀.symm.trans hk))))
    exact due_of (h.judged.due j₀ hj₀ hne₀) horigin hfate (congrArg _ hsame)
      (settlements_eq hu.reports j₀.id)
  · obtain ⟨j₀, hj₀, horigin, hfate⟩ := job_fate hu.jobs hj
    have hid₀ : j₀.id = k := (congrArg JobOrigin.id horigin).trans hjid
    have hopen₀ : j₀.status.terminal = false := (fate_eq hfate).1.trans hopen
    have hdue : Due v.shared j₀ :=
      h.judged.due j₀ hj₀ (by rintro hc; rw [hc] at hopen₀; cases hopen₀)
    rw [settlements_eq hu.reports, ← hid₀]
    by_cases hexists : ∃ r ∈ v.shared.db.itemsOf j₀.id, r.status.terminal = false
    · exact (hdue.early hexists).2
    · have hstatus :=
        (hdue.late
          (by rw [hid₀]; exact fun hnil => hitems ((itemsOf_origins hb.origins k).mpr hnil))
        (fun r hr => by by_contra hr'; exact hexists ⟨r, hr, by simpa using hr'⟩)).1
      rw [hstatus, finalStatus_terminal] at hopen₀
      cases hopen₀
  · rw [hb.flight] at ht'
    have hri : r.id ≠ i := fun heq => hne (congrArg some (hrid.symm.trans heq))
    refine (h.busy t' ht' (by simp) r ((mem_beside hb hri).mp hr) hrid).imp (fun hopen => hopen) ?_
    rintro ⟨c, hc, hcid, hcancelled⟩
    obtain ⟨c', hc', horigin, hfate⟩ := job_fate hu.jobs.symm hc
    have hid' : c'.id = c.id := congrArg JobOrigin.id horigin
    exact ⟨c', hc', hid'.trans hcid, ((fate_eq hfate).2 (by rw [hcancelled]; rfl)).trans hcancelled⟩

theorem ends_onJobSettled (view : JobView) : Ends (Scheduler.onJobSettled view) (fun _ t =>
    t.shared.trace = .settled v.mem.pid view.job.id :: v.shared.trace ∧
      t.shared.db.jobs = v.shared.db.jobs ∧ t.shared.db.items = v.shared.db.items ∧
      t.mem.inFlight = v.mem.inFlight) v := by
  simp only [Ends, Scheduler.onJobSettled, record, wp_bind, wp_exec, forall_eq', true_and]
  split
  · simp only [selectSchedule, wp_bind, wp_query, forall_eq', true_and]
    split
    · exact ⟨rfl, rfl, rfl, rfl⟩
    · rintro _ rfl
      refine ⟨trivial, ?_⟩
      rintro _ rfl
      exact ⟨trivial, rfl, rfl, rfl, rfl⟩
  · exact ⟨rfl, rfl, rfl, rfl⟩

structure Closed (k : Id) (status : JobStatus) (v t : World) : Prop where
  trace : ∃ w, t.shared.trace = .settled w k :: v.shared.trace
  jobs : t.shared.db.jobs = (settleJob k status v).shared.db.jobs
  items : t.shared.db.items = v.shared.db.items
  flight : t.mem.inFlight = v.mem.inFlight

section Closed

variable {status : JobStatus} {t : World}

theorem closed_settlements (hc : Closed k status v t) (id : Id) :
    settlements id t.shared = settlements id v.shared + if k = id then 1 else 0 := by
  obtain ⟨w, htrace⟩ := hc.trace
  have hkind : settles id (.settled w k) = decide (k = id) := by rw [settles]
  simp only [settlements, htrace, List.countP_cons, hkind, decide_eq_true_eq]

theorem closed_itemsOf (hc : Closed k status v t) (id : Id) :
    t.shared.db.itemsOf id = v.shared.db.itemsOf id := by rw [Db.itemsOf, hc.items, Db.itemsOf]

theorem closed_jobIds (hc : Closed k status v t) : jobIds t.shared = jobIds v.shared := by
  rw [jobIds, hc.jobs]
  exact Table.map_update (by exact fun _ _ => rfl) _

theorem closed_due (hc : Closed k status v t) {j : Job} (hid : j.id = k)
    (hall : ∀ r ∈ v.shared.db.items, r.jobId = k → r.status.terminal = true)
    (hstatus : status = finalStatus (tally v.shared.db k .succeeded) j.total)
    (hunreported : v.shared.db.itemsOf k ≠ [] → settlements k v.shared = 0) :
    Due t.shared (settledJob status v.shared.now j) := by
  have hsame : t.shared.db.itemsOf j.id = v.shared.db.itemsOf k := hid ▸ closed_itemsOf hc j.id
  have htally : tally t.shared.db j.id .succeeded = tally v.shared.db k .succeeded := by
    rw [tally, hc.items, hid]
    rfl
  refine ⟨?_, fun hitems _ => ⟨?_, ?_⟩⟩
  · rintro ⟨r, hr, hropen⟩
    obtain ⟨hr, hrid⟩ := List.mem_filter.mp hr
    have hterminal := hall r (hc.items ▸ hr) ((of_decide_eq_true hrid).trans hid)
    rw [hterminal] at hropen
    cases hropen
  · change status = finalStatus (tally t.shared.db j.id .succeeded) j.total
    rw [htally]
    exact hstatus
  · change settlements j.id t.shared = 1
    rw [hid, closed_settlements hc, hunreported (fun hnil => hitems (hsame.trans hnil)), if_pos rfl]

theorem closed_judged (hc : Closed k status v t) (hnodup : (v.shared.db.jobs.map (·.id)).Nodup)
    (h : Recorded i k v) {j : Job} (hj : j ∈ v.shared.db.jobs) (hid : j.id = k)
    (hopen : j.status.terminal = false)
    (hall : ∀ r ∈ v.shared.db.items, r.jobId = k → r.status.terminal = true)
    (hstatus : status = finalStatus (tally v.shared.db k .succeeded) j.total) :
    Judged t.shared := by
  have hids := closed_jobIds hc
  refine ⟨?_, fun id hmem => ?_, ?_⟩
  · rw [Owned, hc.items, hids]
    exact h.owned
  · have hne : k ≠ id := by
      rintro rfl
      exact hmem (hids ▸ List.mem_map.mpr ⟨j, hj, hid⟩)
    rw [closed_settlements hc, if_neg hne, Nat.add_zero]
    exact h.fresh id (hids ▸ hmem)
  · rw [hc.jobs]
    refine Table.forall_update.mpr (fun j₀ hj₀ => ?_)
    by_cases hid₀ : j₀.id = k
    · obtain rfl : j₀ = j := Table.eq_of_key hnodup hj₀ hj (hid₀.trans hid.symm)
      have hkept : j₀.status ≠ .cancelled := by
        intro hcancelled
        rw [hcancelled] at hopen
        cases hopen
      rw [if_pos (decide_eq_true ⟨hid, hkept⟩)]
      exact fun _ => closed_due hc hid hall hstatus (h.unreported j₀ hj hid hopen)
    · simp only [hid₀, false_and, decide_false, Bool.false_eq_true, ↓reduceIte]
      intro hne
      refine due_of (h.due j₀ hj₀ hne (fun heq => absurd heq hid₀)) rfl rfl
        (by rw [closed_itemsOf hc]) ?_
      rw [closed_settlements hc, if_neg (Ne.symm hid₀), Nat.add_zero]

theorem closed_busy (hc : Closed k status v t) (h : Busy (some i) v) : Busy (some i) t := by
  intro task ht hne r hr hrid
  rw [hc.flight] at ht
  rw [hc.items] at hr
  refine (h task ht hne r hr hrid).imp_right ?_
  rintro ⟨c, hj, hid, hcancelled⟩
  refine ⟨c, ?_, hid, hcancelled⟩
  rw [hc.jobs]
  exact Table.mem_update.mpr ⟨c, hj, if_neg (by simp [hcancelled])⟩

end Closed

theorem ends_settle (hregister : Register (originsOf v.shared)) (h : Recorded i k v) :
    Ends (settle k) (fun _ t => Judged t.shared ∧ Busy (some i) t ∧
      t.mem.inFlight = v.mem.inFlight) v := by
  refine (wp_bind ..).mpr (wp_checkJobCompletion hregister trivial (fun hopen => ?_) ?_)
  · refine ⟨⟨h.owned, h.fresh, fun j hj hne => ?_⟩, h.busy, rfl⟩
    by_cases hjob : j.id = k ∧ j.status.terminal = false
    · obtain ⟨hid, hterminal⟩ := hjob
      obtain ⟨r, hr, hrid, hropen⟩ := hopen j hj hid hterminal
      have hmem : r ∈ v.shared.db.itemsOf j.id := List.mem_filter.mpr ⟨hr, decide_eq_true hrid⟩
      refine ⟨fun _ => ⟨hterminal, ?_⟩, fun _ hall => ?_⟩
      · rw [hid] at hmem ⊢
        exact h.unreported j hj hid hterminal (List.ne_nil_of_mem hmem)
      · rw [hall r hmem] at hropen
        cases hropen
    · exact h.due j hj hne (fun hid =>
        by by_contra hterminal; exact hjob ⟨hid, by simpa using hterminal⟩)
  · intro j hj hid hopen hall status hstatus w hw htrace
    refine ⟨trivial, wp_mono ?_ (ends_onJobSettled _)⟩
    rintro _ t ⟨httrace, htjobs, htitems, htflight⟩
    have hitems : w.shared.db.items = v.shared.db.items := congrArg Custody.items hw.custody
    have hc : Closed k status v t := by
      refine ⟨⟨w.mem.pid, ?_⟩, htjobs.trans hw.jobs, htitems.trans hitems,
        htflight.trans (congrArg (·.inFlight) hw.mem)⟩
      rw [httrace, htrace, ← hid]
      rfl
    exact ⟨closed_judged hc (jobs_nodup hregister) h hj hid hopen
      (fun r hr hrid => hall r hr (hrid.trans hid.symm)) rfl, closed_busy hc h.busy, hc.flight⟩

theorem ends_complete (i : Id) (outcome : SendOutcome) (random : Nat)
    (hregister : Register (originsOf v.shared))
    (hrow : ∀ t ∈ v.mem.inFlight, ∀ r ∈ v.shared.db.items, r.id = t.item.id →
      r.jobId = t.item.jobId)
    (hn : (v.mem.inFlight.map (·.item.id)).Nodup) (h : Ruled v) :
    Ends (complete i outcome random) (fun _ t => Ruled t) v := by
  refine Probe.wp_complete i outcome random trivial (fun _ => h) ?_
  rintro task htask rfl
  have hrecorded : Ends (recordOutcome task outcome random)
      (fun _ u => Beside task.item.id v u ∧ Undecided v u) v :=
    ends_always (fun a b ha hab => ⟨beside_trans ha.1 hab.1, undecided_trans ha.2 hab.2⟩)
      (always_and (beside_recordOutcome task outcome random)
        (undecided_recordOutcome task outcome random))
      ⟨beside_refl _ v, undecided_refl v⟩
  refine wp_seq hrecorded ?_
  rintro _ u ⟨hb, hu⟩
  have hregister' : Register (originsOf u.shared) := register_origins hregister hb.origins
  refine wp_seq (ends_settle hregister'
    (recorded_beside (jobs_nodup hregister) (hrow task htask) htask rfl h hb hu)) ?_
  rintro _ t ⟨hjudged, hbusy, hflight⟩ _ rfl
  refine ⟨trivial, hjudged, fun t' ht' _ => ?_⟩
  simp only [hflight, hb.flight] at ht'
  rw [eraseP_task _ hn, List.mem_filter] at ht'
  refine hbusy t' ?_ (by simpa using ht'.2)
  rw [hflight, hb.flight]
  exact ht'.1

end Complete

theorem rules_call {c : Call} (htick : c ≠ .tick) (hcomplete : ∀ i o r, c ≠ .complete i o r)
    (hcancel : ∀ id actor, c ≠ .cancelJob id actor) : Always Rules c.code := by
  have hweb : ∀ {p : Code Unit}, Always Web p → Always Rules p :=
    fun h => always_mono (fun _ _ => rules_web) h
  have heven : ∀ {α : Type} {p : Code α}, Always Even p → Always Undecided p → Always Rules p :=
    fun h h' => always_mono (fun _ _ hab => rules_even hab.1 hab.2) (always_and h h')
  cases c with
  | tick => exact absurd rfl htick
  | complete i o r => exact absurd rfl (hcomplete i o r)
  | createJob args => exact always_bind (rules_callCreateJob args) (fun _ => always_pure ())
  | cancelJob id actor => exact absurd rfl (hcancel id actor)
  | pauseJob id actor =>
    exact always_bind (heven (even_pauseJob id actor) (undecided_pauseJob id actor))
      (fun _ => always_pure ())
  | resumeJob id actor =>
    exact always_bind (heven (even_resumeJob id actor) (undecided_resumeJob id actor))
      (fun _ => always_pure ())
  | createSchedule input =>
    exact always_create rules_mute input
      (fun _ _ _ => always_exec (fun _ h => ruled_of h rfl ⟨rfl, rfl⟩ (fun _ ht => Or.inl ht)))
  | removeSchedule id =>
    exact always_exec (fun _ h => ruled_of h rfl ⟨rfl, rfl⟩ (fun _ ht => Or.inl ht))
  | runTickIfReady ready =>
    exact always_runTickIfReady rules_mute rules_callCreateJob rules_updateSchedules ready
  | setOutboundDisabled disabled actor reason => exact hweb (web_setOutboundDisabled _ _ _ _)
  | drainAndStop => exact always_exec (fun _ h => ruled_of h rfl ⟨rfl, rfl⟩ (fun _ ht => Or.inl ht))
  | request r ready => exact hweb (web_request r ready)
  | answered id answer ready => exact hweb (web_answered id answer ready)
  | delayOver id ready => exact hweb (web_delayOver id ready)
  | sweepExpiredIdempotencyKeys => exact hweb web_sweepExpiredIdempotencyKeys

def Unbroken : Action → Prop
  | .crash .. => False
  | _ => True

instance : (a : Action) → Decidable (Unbroken a)
  | .crash .. => inferInstanceAs (Decidable False)
  | .advance _ | .call _ | .restart => inferInstanceAs (Decidable True)

structure Governed (s : Server) : Prop where
  up : s.up
  kept : Kept s
  register : Register (originsOf s.world.shared)
  ruled : Ruled s.world

theorem ruled_call {s : Server} (h : Governed s) (c : Call) : Ruled (c.code.run s.world).2 := by
  have hnodup := jobs_nodup h.register
  by_cases htick : c = .tick
  · subst htick
    have hticked : Ticked s.world (tick.run s.world).2 := wp_run (Standing.wp_tick h.kept.inv.1)
    exact ruled_of h.ruled (congrArg Progress.items hticked.standing)
      (always_run undecided_refl (fun _ _ _ => undecided_trans) undecided_tick s.world)
        hticked.flight
  by_cases hcomplete : ∃ i outcome random, c = .complete i outcome random
  · obtain ⟨i, outcome, random, rfl⟩ := hcomplete
    exact wp_run (ends_complete i outcome random h.register (row_of_task h.kept h.up)
      (flight_nodup h.kept.inv.2 (h.kept.idle h.up)) h.ruled)
  by_cases hcancel : ∃ id actor, c = .cancelJob id actor
  · obtain ⟨id, actor, rfl⟩ := hcancel
    exact wp_run (Q := fun _ t => Ruled t)
      (wp_seq (ends_cancelJob id actor hnodup h.ruled) (fun _ _ ht => ht))
  · have hrules := rules_call htick (fun i o r hc => hcomplete ⟨i, o, r, hc⟩)
      (fun id actor hc => hcancel ⟨id, actor, hc⟩)
    exact wp_run (ends_always (fun _ _ ha hab => hab ha) hrules h.ruled)

theorem governed_step {s : Server} (h : Governed s) {a : Action} (ha : Unbroken a) :
    Governed (step s a) := by
  have hkept := kept_step h.kept a
  have hregister := register_step h.register a
  cases a with
  | advance ms =>
    exact ⟨h.up, hkept, hregister, ruled_of h.ruled rfl ⟨rfl, rfl⟩ (fun _ ht => Or.inl ht)⟩
  | call c =>
    refine ⟨?_, hkept, hregister, ?_⟩
    · simp only [step, h.up, ↓reduceIte]
    · simp only [step, h.up, ↓reduceIte]
      exact ruled_call h c
  | crash c n => exact ha.elim
  | restart =>
    simp only [step, h.up, ↓reduceIte]
    exact h

theorem governed_initial (concurrency : Nat) (now : Ms) : Governed (initial concurrency now) where
  up := rfl
  kept := kept_initial concurrency now
  register := register_initial now
  ruled :=
    ⟨⟨fun _ h => absurd h List.not_mem_nil, fun _ _ => rfl, fun _ h => absurd h List.not_mem_nil⟩,
      fun _ h => absurd h List.not_mem_nil⟩

theorem governed_run (concurrency : Nat) (now : Ms) {as : List Action} (h : ∀ a ∈ as, Unbroken a) :
    Governed (run (initial concurrency now) as) :=
  play_invariant Governed (fun _ _ hs ha => governed_step hs ha) (governed_initial concurrency now)
    (along_all h _)

theorem finalStatus_iff (succeeded : Nat) {total : Nat} (h : 0 < total) :
    finalStatus succeeded total ∈ [.completed, .partiallyCompleted, .failed] ∧
      (finalStatus succeeded total = .completed ↔ succeeded = total) ∧
      (finalStatus succeeded total = .failed ↔ succeeded = 0) ∧
      (finalStatus succeeded total = .partiallyCompleted ↔ succeeded ≠ 0 ∧ succeeded ≠ total) := by
  simp only [finalStatus]
  split
  · simp
    omega
  · split <;> simp <;> omega

/-- In a run without crashes, a job with items that is not cancelled is in a final status if and
only if all its items are, its status says how many succeeded, and it was reported once by then. -/
theorem settled_with_last_item (concurrency : Nat) (now : Ms) (as : List Action)
    (h : ∀ a ∈ as, Unbroken a) :
    let s := (run (initial concurrency now) as).world.shared
    ∀ j ∈ s.db.jobs, j.status ≠ .cancelled → s.db.itemsOf j.id ≠ [] →
      let done := ∀ r ∈ s.db.itemsOf j.id, r.status.terminal = true
      j.total = (s.db.itemsOf j.id).length ∧
      (j.status ∈ [.completed, .partiallyCompleted, .failed] ↔ done) ∧
      (j.status = .completed ↔ ∀ r ∈ s.db.itemsOf j.id, r.status = .succeeded) ∧
      (j.status = .failed ↔ done ∧ ∀ r ∈ s.db.itemsOf j.id, r.status ≠ .succeeded) ∧
      (j.status = .partiallyCompleted ↔ done ∧ (∃ r ∈ s.db.itemsOf j.id, r.status = .succeeded) ∧
        ∃ r ∈ s.db.itemsOf j.id, r.status ≠ .succeeded) ∧
      (done → settlements j.id s = 1) ∧ (¬ done → settlements j.id s = 0) := by
  intro s j hj hkept hitems done
  have hgoverned := governed_run concurrency now h
  have hdue : Due s j := hgoverned.ruled.judged.due j hj hkept
  have htotal : j.total = (s.db.itemsOf j.id).length := total_eq hgoverned.register hj
  have hall : tally s.db j.id .succeeded = j.total ↔
      ∀ r ∈ s.db.itemsOf j.id, r.status = .succeeded := by
    rw [tally_itemsOf, htotal, List.countP_eq_length]
    simp
  have hnone : tally s.db j.id .succeeded = 0 ↔ ∀ r ∈ s.db.itemsOf j.id, r.status ≠ .succeeded := by
    rw [tally_itemsOf, List.countP_eq_zero]
    simp
  by_cases hdone : done
  · obtain ⟨hstatus, hcount⟩ := hdue.late hitems hdone
    obtain ⟨hfinal, hcompleted, hfailed, hpartially⟩ :=
      finalStatus_iff (tally s.db j.id .succeeded) (htotal ▸ List.length_pos_of_ne_nil hitems)
    rw [← hstatus] at hfinal hcompleted hfailed hpartially
    refine ⟨htotal, iff_of_true hfinal hdone, hcompleted.trans hall, ?_, ?_, fun _ => hcount,
      fun hnot => absurd hdone hnot⟩
    · rw [hfailed, hnone]
      exact ⟨fun hn => ⟨hdone, hn⟩, And.right⟩
    · rw [hpartially, Ne, Ne, hall, hnone]
      push Not
      exact ⟨fun hn => ⟨hdone, hn⟩, And.right⟩
  · have hexists : ∃ r ∈ s.db.itemsOf j.id, r.status.terminal = false := by
      by_contra hno
      exact hdone (fun r hr => by by_contra hr'; exact hno ⟨r, hr, by simpa using hr'⟩)
    obtain ⟨hopen, hcount⟩ := hdue.early hexists
    have hne : ∀ status : JobStatus, status.terminal = true → j.status ≠ status := by
      rintro status hterminal rfl
      rw [hopen] at hterminal
      cases hterminal
    refine ⟨htotal, iff_of_false ?_ hdone, iff_of_false (hne _ rfl) ?_,
      iff_of_false (hne _ rfl) (fun hn => hdone hn.1),
      iff_of_false (hne _ rfl) (fun hn => hdone hn.1), fun hd => absurd hd hdone, fun _ => hcount⟩
    · simp [hne .completed rfl, hne .partiallyCompleted rfl, hne .failed rfl]
    · refine fun hn => hdone (fun r hr => ?_)
      rw [hn r hr]
      rfl

def retried : List Action :=
  [.call (.createJob Counting.twoItems), .call .tick,
    .call (.complete 2 (.results [(.notOnWhatsapp, none)]) 0),
    .call (.complete 1 (.threw ⟨"Error", "timeout"⟩) 0), .call (.pauseJob 0 none), .advance 600000,
    .call .tick, .call (.resumeJob 0 none), .call .tick,
    .call (.complete 1 (.results [(.sent, none)]) 0)]

theorem settled_with_last_item_retried :
    let s := (run (initial 2 0) retried).world.shared
    s.db.jobs.length = 1 ∧ ∀ j ∈ s.db.jobs, j.status = .partiallyCompleted ∧
      settlements j.id s = 1 := by
  refine ⟨by decide +kernel, fun j hj => ?_⟩
  have hend : let db := (run (initial 2 0) retried).world.shared.db
      ∀ j ∈ db.jobs, j.status ≠ .cancelled ∧ db.itemsOf j.id ≠ [] ∧
        (∀ r ∈ db.itemsOf j.id, r.status.terminal = true) ∧
        (∃ r ∈ db.itemsOf j.id, r.status = .succeeded) ∧
        ∃ r ∈ db.itemsOf j.id, r.status ≠ .succeeded := by decide +kernel
  obtain ⟨hkept, hitems, hdone, hmixed⟩ := hend j hj
  obtain ⟨_, _, _, _, hpartially, hcount, _⟩ :=
    settled_with_last_item 2 0 retried (by decide +kernel) j hj hkept hitems
  exact ⟨hpartially.mpr ⟨hdone, hmixed⟩, hcount hdone⟩

end WhatsappTester.Jobs.Verdict
