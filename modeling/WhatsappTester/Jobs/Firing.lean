import WhatsappTester.Jobs.Lifecycle
import WhatsappTester.Jobs.Occurrences

namespace WhatsappTester.Jobs.Firing

open Schema State Atomic Atomic.Program JobService Scheduler Occurrences

/-- Ids that have been given out are not given out again, and no schedule is there twice. -/
structure Sane (s : Shared) : Prop where
  jobs : ∀ j ∈ s.db.jobs, j.id < s.uuid
  items : ∀ r ∈ s.db.items, r.id < s.uuid ∧ r.jobId < s.uuid
  schedules : (s.db.schedules.map (·.id)).Nodup

structure Found (a : CreateJobArgs) (v u : World) : Prop where
  keyed : ∃ j ∈ v.shared.db.jobs, j.idempotencyKey = a.idempotencyKey
  jobs : u.shared.db.jobs = v.shared.db.jobs
  items : u.shared.db.items = v.shared.db.items
  uuid : u.shared.uuid = v.shared.uuid

structure Added (a : CreateJobArgs) (v u : World) : Prop where
  unkeyed : ∀ j ∈ v.shared.db.jobs, j.idempotencyKey ≠ a.idempotencyKey
  jobs : u.shared.db.jobs = v.shared.db.jobs ++ [newJob v.shared.uuid v.shared.now a]
  items : u.shared.db.items =
    v.shared.db.items ++ newItems v.shared.uuid v.shared.now (v.shared.uuid + 1) 0 a.items
  uuid : u.shared.uuid = v.shared.uuid + 1 + a.items.length

structure Served (a : CreateJobArgs) (v u : World) : Prop where
  now : u.shared.now = v.shared.now
  schedules : u.shared.db.schedules = v.shared.db.schedules
  outcome : Found a v u ∨ Added a v u

variable {v u : World} {a : CreateJobArgs} {k : String}

theorem ends_found {id : Id} (h : ∃ j ∈ v.shared.db.jobs, j.idempotencyKey = a.idempotencyKey) :
    Ends (do
      let job ← getJob id
      pure (.ok ⟨job, false⟩ : Except SqlError CreateResult))
      (fun result u => (∃ r, result = .ok r) ∧ Served a v u) v := by
  refine wp_seq (Lifecycle.ends_getJob id) ?_
  rintro job _ ⟨rfl, -⟩
  exact ⟨⟨_, rfl⟩, rfl, rfl, .inl ⟨h, rfl, rfl, rfl⟩⟩

theorem ends_callCreateJob (hsane : Sane v.shared) (hk : a.idempotencyKey = some k) (hne : k ≠ "")
    (hgiven : ∀ item ∈ a.items, item.number.isSome ∧ item.message.isSome) :
    Ends (callCreateJob a) (fun result u => (∃ r, result = .ok r) ∧ Served a v u) v := by
  refine wp_seq (Q := fun result u => (∃ r, result = .ok r) ∧ Served a v u) ?_
    (fun result u hu => ?_)
  · have hselect : Ends (selectKey a.idempotencyKey) (fun existing u => v = u ∧
        (∀ id ∈ existing, ∃ j ∈ v.shared.db.jobs, j.idempotencyKey = a.idempotencyKey) ∧
        (existing = none → ∀ j ∈ v.shared.db.jobs, j.idempotencyKey ≠ a.idempotencyKey)) v := by
      rw [hk]
      simp only [Ends, selectKey, hne, ↓reduceIte, wp_query, forall_eq', true_and]
      refine ⟨fun id hid => ?_, fun hnone => by simpa using hnone⟩
      obtain ⟨j, hj, -⟩ := Option.map_eq_some_iff.mp hid
      exact ⟨j, List.mem_of_find?_eq_some hj, by simpa using List.find?_some hj⟩
    refine wp_seq hselect ?_
    rintro existing _ ⟨rfl, hfound, hnone⟩
    cases existing with
    | some id => exact ends_found (hfound id rfl)
    | none =>
      have hkey := hnone rfl
      have htransaction : createTransaction v.shared.uuid v.shared.now a (v.shared.uuid + 1)
          v.shared.db = .ok _ :=
        createTransaction_of (fun j hj => (hsane.jobs j hj).ne) hkey hgiven
          (fun r hr => Nat.lt_succ_of_lt (hsane.items r hr).1)
      simp only [randomUUID, dateNow, insertJobAndItems, recordEvent, wp_bind, wp_update,
        wp_query, wp_exec, forall_eq', true_and, htransaction, Except.map]
      refine wp_mono (fun job u hu => ?_) (Lifecycle.ends_getJob _)
      obtain ⟨rfl, -⟩ := hu
      exact ⟨⟨_, rfl⟩, rfl, rfl, .inr ⟨hkey, rfl, rfl, rfl⟩⟩
  · obtain ⟨⟨r, rfl⟩, hserved⟩ := hu
    rintro _ rfl
    refine ⟨trivial, ⟨r, rfl⟩, hserved.now, hserved.schedules, hserved.outcome.imp ?_ ?_⟩
    · exact fun h => ⟨h.keyed, h.jobs, h.items, h.uuid⟩
    · exact fun h => ⟨h.unkeyed, h.jobs, h.items, h.uuid⟩

structure Fires (row : Schedule) (v u : World) : Prop where
  now : u.shared.now = v.shared.now
  schedules : u.shared.db.schedules =
    Table.update (fun s => decide (s.id = row.id ∧ s.status = .scheduled))
      (sendingRow v.shared.now) v.shared.db.schedules
  outcome : Found (fireArgs row) v u ∨ Added (fireArgs row) v u

theorem ends_fireDue (row : Schedule) (hsane : Sane v.shared) :
    Ends (fireDue row) (fun _ u => Fires row v u) v := by
  refine wp_seq (ends_callCreateJob (a := fireArgs row) hsane rfl (occurrenceKey_ne _ _) ?_) ?_
  · simp [fireArgs]
  · rintro _ u ⟨⟨r, rfl⟩, hserved⟩
    simp only [dateNow, updateSchedules, wp_bind, wp_query, wp_update, wp_pure, forall_eq',
      true_and]
    refine ⟨hserved.now, ?_, hserved.outcome.imp ?_ ?_⟩
    · rw [hserved.schedules, hserved.now]
      rfl
    · exact fun h => ⟨h.keyed, h.jobs, h.items, h.uuid⟩
    · exact fun h => ⟨h.unkeyed, h.jobs, h.items, h.uuid⟩

theorem newItems_ids {jobId : Id} {now : Ms} {id : Id} {seq : Nat} {items : List NewItem} :
    ∀ r ∈ newItems jobId now id seq items, r.id < id + items.length ∧ r.jobId = jobId := by
  induction items generalizing id seq with
  | nil => simp [newItems]
  | cons item items ih =>
    refine List.forall_mem_cons.mpr ⟨⟨by simp [newItem], rfl⟩, fun r hr => ?_⟩
    obtain ⟨hid, hjob⟩ := ih r hr
    rw [List.length_cons, Nat.add_comm items.length, ← Nat.add_assoc]
    exact ⟨hid, hjob⟩

theorem ids_sending (id : String) (now : Ms) (rows : List Schedule) :
    (Table.update (fun s => decide (s.id = id ∧ s.status = .scheduled)) (sendingRow now) rows).map
      (·.id) = rows.map (·.id) :=
  Table.map_update (f := sendingRow now) (g := (·.id)) (fun _ _ => rfl) rows

theorem sane_fires {row : Schedule} (hsane : Sane v.shared) (h : Fires row v u) :
    Sane u.shared := by
  have hschedules : (u.shared.db.schedules.map (·.id)).Nodup := by
    rw [h.schedules, ids_sending]
    exact hsane.schedules
  obtain hfound | hadded := h.outcome
  · refine ⟨?_, ?_, hschedules⟩
    · rw [hfound.jobs, hfound.uuid]
      exact hsane.jobs
    · rw [hfound.items, hfound.uuid]
      exact hsane.items
  · have hnew : v.shared.uuid < u.shared.uuid := by
      rw [hadded.uuid]
      exact Nat.lt_of_lt_of_le (Nat.lt_succ_self _) (Nat.le_add_right _ _)
    refine ⟨?_, ?_, hschedules⟩
    · rw [hadded.jobs]
      exact List.forall_mem_append.mpr ⟨fun j hj => (hsane.jobs j hj).trans hnew,
        List.forall_mem_singleton.mpr hnew⟩
    · rw [hadded.items]
      refine List.forall_mem_append.mpr ⟨fun r hr => ?_, fun r hr => ?_⟩
      · exact ⟨(hsane.items r hr).1.trans hnew, (hsane.items r hr).2.trans hnew⟩
      · obtain ⟨hid, hjob⟩ := newItems_ids r hr
        exact ⟨hadded.uuid ▸ hid, hjob ▸ hnew⟩

def letter (r : JobItem) : String × String × String :=
  (r.recipientNumber, r.recipientName, r.message)

structure Waiting (row : Schedule) (v : World) : Prop where
  sane : Sane v.shared
  unfired : ∀ j ∈ v.shared.db.jobs, j.idempotencyKey ≠ currentKey row
  scheduled : ∃ s ∈ v.shared.db.schedules, s.id = row.id ∧ s.status = .scheduled

/-- A schedule that is being sent: there is a queued job for its occurrence, with an item for
each of its recipients. -/
structure Underway (row : Schedule) (v : World) : Prop where
  sane : Sane v.shared
  job : ∃ j ∈ v.shared.db.jobs, j.idempotencyKey = currentKey row ∧ j.status = .queued ∧
    (v.shared.db.itemsOf j.id).map letter =
      row.recipients.map (fun r => (r.number, r.name, row.message))
  sending : ∃ s ∈ v.shared.db.schedules, s.id = row.id ∧ s.status = .sending

section Fires

variable {row other : Schedule}

theorem kept_fires (h : Fires other v u) (hne : other.id ≠ row.id) {status : ScheduleStatus}
    (hrow : ∃ s ∈ v.shared.db.schedules, s.id = row.id ∧ s.status = status) :
    ∃ s ∈ u.shared.db.schedules, s.id = row.id ∧ s.status = status := by
  obtain ⟨s, hs, hid, hstatus⟩ := hrow
  refine ⟨s, ?_, hid, hstatus⟩
  rw [h.schedules]
  refine Table.mem_update.mpr ⟨s, hs, if_neg ?_⟩
  rw [decide_eq_true_iff]
  exact fun hsame => hne (hsame.1.symm.trans hid)

theorem waiting_fires_other (hwaiting : Waiting row v) (h : Fires other v u)
    (hne : other.id ≠ row.id) : Waiting row u := by
  refine ⟨sane_fires hwaiting.sane h, ?_, kept_fires h hne hwaiting.scheduled⟩
  obtain hfound | hadded := h.outcome
  · rw [hfound.jobs]
    exact hwaiting.unfired
  · rw [hadded.jobs]
    refine List.forall_mem_append.mpr ⟨hwaiting.unfired, List.forall_mem_singleton.mpr ?_⟩
    exact fun hkey => hne (occurrenceKey_inj (Option.some.inj hkey)).1

theorem letters_newItems {jobId : Id} {now : Ms} {id : Id} {seq : Nat} {items : List NewItem} :
    (newItems jobId now id seq items).map letter =
      items.map (fun item => (item.number.getD "", item.name.getD "", item.message.getD "")) := by
  induction items generalizing id seq with
  | nil => rfl
  | cons item items ih =>
    rw [newItems, List.map_cons, ih, List.map_cons]
    rfl

theorem itemsOf_added (hsane : Sane v.shared) (h : Added a v u) :
    u.shared.db.itemsOf v.shared.uuid =
      newItems v.shared.uuid v.shared.now (v.shared.uuid + 1) 0 a.items := by
  have hold : v.shared.db.items.filter (fun r => decide (r.jobId = v.shared.uuid)) = [] :=
    List.filter_eq_nil_iff.mpr (fun r hr => by simpa using (hsane.items r hr).2.ne)
  rw [Db.itemsOf, h.items, List.filter_append, hold, List.nil_append]
  exact List.filter_eq_self.mpr (fun r hr => decide_eq_true (mem_newItems hr).1)

theorem underway_fires (hwaiting : Waiting row v) (h : Fires row v u) : Underway row u := by
  obtain hfound | hadded := h.outcome
  · obtain ⟨j, hj, hkey⟩ := hfound.keyed
    exact absurd hkey (hwaiting.unfired j hj)
  · refine ⟨sane_fires hwaiting.sane h,
      ⟨newJob v.shared.uuid v.shared.now (fireArgs row), ?_, rfl, rfl, ?_⟩, ?_⟩
    · exact hadded.jobs ▸ List.mem_append_right _ (List.mem_singleton_self _)
    · change (u.shared.db.itemsOf v.shared.uuid).map letter = _
      rw [itemsOf_added hwaiting.sane hadded, letters_newItems]
      simp [fireArgs]
    · obtain ⟨s, hs, hid, hscheduled⟩ := hwaiting.scheduled
      refine ⟨sendingRow v.shared.now s, ?_, hid, rfl⟩
      rw [h.schedules]
      exact Table.mem_update.mpr ⟨s, hs, if_pos (decide_eq_true ⟨hid, hscheduled⟩)⟩

theorem underway_fires_other (hunderway : Underway row v) (h : Fires other v u)
    (hne : other.id ≠ row.id) : Underway row u := by
  refine ⟨sane_fires hunderway.sane h, ?_, kept_fires h hne hunderway.sending⟩
  obtain ⟨j, hj, hkey, hqueued, hletters⟩ := hunderway.job
  obtain hfound | hadded := h.outcome
  · refine ⟨j, hfound.jobs ▸ hj, hkey, hqueued, ?_⟩
    rw [Db.itemsOf, hfound.items]
    exact hletters
  · refine ⟨j, hadded.jobs ▸ List.mem_append_left _ hj, hkey, hqueued, ?_⟩
    have hnone : (newItems v.shared.uuid v.shared.now (v.shared.uuid + 1) 0
        (fireArgs other).items).filter (fun r => decide (r.jobId = j.id)) = [] := by
      refine List.filter_eq_nil_iff.mpr (fun r hr => ?_)
      rw [(mem_newItems hr).1]
      simpa using (hunderway.sane.jobs j hj).ne'
    rw [Db.itemsOf, hadded.items, List.filter_append, hnone, List.append_nil]
    exact hletters

end Fires

/-- A tick in a ready process fires every schedule that is due and not yet fired. -/
theorem underway_runTickIfReady {row : Schedule} (hsane : Sane v.shared)
    (hrow : row ∈ v.shared.db.schedules) (hdue : due v.shared.now row = true)
    (hunfired : ∀ j ∈ v.shared.db.jobs, j.idempotencyKey ≠ currentKey row) :
    Ends (runTickIfReady true) (fun _ u => Underway row u) v := by
  have hscheduled : row.status = .scheduled := (of_decide_eq_true hdue).1
  have hwaiting : Waiting row v := ⟨hsane, hunfired, row, hrow, rfl, hscheduled⟩
  obtain ⟨before, after, hsplit⟩ :=
    List.append_of_mem (List.mem_filter.mpr ⟨hrow, hdue⟩ : row ∈ v.shared.db.schedules.filter _)
  have hdistinct : ((before ++ row :: after).map (·.id)).Nodup := by
    rw [← hsplit]
    exact hsane.schedules.sublist (List.filter_sublist.map _)
  rw [List.map_append, List.map_cons, List.nodup_middle, List.nodup_cons,
    List.mem_append] at hdistinct
  have hbefore : ∀ other ∈ before, other.id ≠ row.id :=
    fun other hother hid => hdistinct.1 (.inl (List.mem_map.mpr ⟨other, hother, hid⟩))
  have hafter : ∀ other ∈ after, other.id ≠ row.id :=
    fun other hother hid => hdistinct.1 (.inr (List.mem_map.mpr ⟨other, hother, hid⟩))
  simp only [Ends, runTickIfReady, Bool.not_true, Bool.false_eq_true, ↓reduceIte, dateNow,
    wp_bind, wp_query, forall_eq', true_and, hsplit]
  exact wp_each_turn
    (fun other hother u hu => wp_mono
      (fun _ t ht => waiting_fires_other hu ht (hbefore other hother)) (ends_fireDue other hu.sane))
    (fun u hu => wp_mono (fun _ t ht => underway_fires hu ht) (ends_fireDue row hu.sane))
    (fun other hother u hu => wp_mono
      (fun _ t ht => underway_fires_other hu ht (hafter other hother)) (ends_fireDue other hu.sane))
    hwaiting

end WhatsappTester.Jobs.Firing
