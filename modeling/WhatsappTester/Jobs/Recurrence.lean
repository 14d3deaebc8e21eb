import WhatsappTester.Jobs.Occurrences

namespace WhatsappTester.Jobs.Recurrence

open Schema State Atomic Atomic.Program Atomic.Runs Statements JobService Claiming Worker Ledger
open Process Solo Standing Registry Uniqueness Settling Scheduler Occurrences

section Next

theorem advance_gt {stepMs : Int} (h : 0 < stepMs) (now : Int) (fuel : Nat) (next : Int) :
    next < advance stepMs now fuel next := by
  induction fuel generalizing next with
  | zero => exact Int.lt_add_of_pos_right next h
  | succ fuel ih =>
    have hnext := Int.lt_add_of_pos_right next h
    simp only [advance]
    split
    · exact lt_trans hnext (ih (next + stepMs))
    · exact hnext

theorem repeatUnitMs_pos (unit : Option RepeatUnit) : 0 < repeatUnitMs unit := by
  cases unit with
  | none => decide
  | some unit => cases unit <;> simp [repeatUnitMs]

/-- A schedule whose occurrence has settled is done, or waits for a later occurrence. -/
theorem settledRow_later {row : Schedule}
    (h : ∀ value, row.repeatEveryValue = some value → 1 ≤ value) (now : Ms)
    (lastResult : LastResult) :
    ((settledRow now lastResult row).status = .done ∧
        (settledRow now lastResult row).nextRunAt = row.nextRunAt) ∨
      ((settledRow now lastResult row).status = .scheduled ∧
        row.nextRunAt < (settledRow now lastResult row).nextRunAt) := by
  cases hvalue : row.repeatEveryValue with
  | none =>
    simp [settledRow, hvalue]
  | some value =>
    have hpos := h value hvalue
    have hstep : 0 < repeatUnitMs row.repeatEveryUnit * value :=
      Int.mul_pos (repeatUnitMs_pos _) (Int.lt_of_lt_of_le Int.zero_lt_one hpos)
    simp only [settledRow, hvalue, show value ≠ 0 by omega, ↓reduceIte]
    split
    · exact Or.inl ⟨rfl, rfl⟩
    · exact Or.inr ⟨rfl, advance_gt hstep _ _ _⟩

end Next

section Exempt

variable {s : Shared} {exempt exempt' : Id → Prop}

theorem onTime_mono (h : OnTime exempt s) (hle : ∀ id, exempt id → exempt' id) : OnTime exempt' s :=
  ⟨h.dated, h.fired, fun row hrow hdone j hj hkey hexempt =>
    h.served row hrow hdone j hj hkey (fun he => hexempt (hle j.id he))⟩

theorem onTime_full (h : OnTime (fun _ => False) s) :
    OnTime exempt s := onTime_mono h (fun _ => False.elim)

theorem onTime_updateJobs (h : OnTime exempt s) {p : Job → Bool} {f : Job → Job}
    (hf : ∀ j, jobOrigin (f j) = jobOrigin j) (hp : ∀ j, p j → exempt j.id) :
    OnTime exempt { s with db.jobs := Table.update p f s.db.jobs } := by
  have horigin : ∀ j, jobOrigin (if p j then f j else j) = jobOrigin j := by
    intro j
    split
    · exact hf j
    · rfl
  refine ⟨⟨h.dated.named, h.dated.distinct, h.dated.addressed, h.dated.forward,
    Table.forall_update.mpr (fun j hj => ?_)⟩, fun row hrow hsending => ?_,
    fun row hrow hdone => Table.forall_update.mpr (fun j hj hkey hexempt => ?_)⟩
  · rw [horigin]
    exact h.dated.jobs j hj
  · obtain ⟨j, hj, hkey⟩ := h.fired row hrow hsending
    refine ⟨_, Table.mem_update.mpr ⟨j, hj, rfl⟩, ?_⟩
    exact (congrArg JobOrigin.idempotencyKey (horigin j)).trans hkey
  · have hid : (if p j then f j else j).id = j.id := congrArg JobOrigin.id (horigin j)
    rw [hid] at hexempt
    have hne : ¬ p j := fun hj => hexempt (hp j hj)
    rw [if_neg hne] at hkey ⊢
    obtain ⟨hopen, hitem⟩ := h.served row hrow hdone j hj hkey hexempt
    exact ⟨hopen, hitem⟩

theorem onTime_updateItems (h : OnTime exempt s) {p : JobItem → Bool} {f : JobItem → JobItem}
    (t : List Event) (hp : ∀ r, p r → exempt r.jobId) :
    OnTime exempt { s with db.items := Table.update p f s.db.items, trace := t } := by
  refine ⟨⟨h.dated.named, h.dated.distinct, h.dated.addressed, h.dated.forward, h.dated.jobs⟩,
    h.fired, fun row hrow hdone j hj hkey hexempt => ?_⟩
  obtain ⟨hopen, r, hr, hjob, hstatus⟩ := h.served row hrow hdone j hj hkey hexempt
  refine ⟨hopen, r, Table.mem_update.mpr ⟨r, hr, if_neg (fun hpr => ?_)⟩, hjob, hstatus⟩
  exact hexempt (hjob ▸ hp r hpr)

def Current (s : Shared) (id : Id) : Prop :=
  ∃ row ∈ s.db.schedules, row.status ≠ .done ∧ ∃ j ∈ s.db.jobs, j.id = id ∧
  j.idempotencyKey = currentKey row

theorem onTime_idle {id : Id} (h : OnTime (fun k => k = id) s) (hcurrent : ¬ Current s id) :
    OnTime (fun _ => False) s :=
  ⟨h.dated, h.fired, fun row hrow hdone j hj hkey _ =>
    h.served row hrow hdone j hj hkey (fun hid => hcurrent ⟨row, hrow, hdone, j, hj, hid, hkey⟩)⟩

end Exempt

variable {v v' : World}

section Cancel

theorem wp_cancelJob (id : Id) (actor : Option String) (h : OnTime (fun _ => False) v.shared)
    (hcurrent : ¬ Current v.shared id) :
    Wp Eq (fun _ t => OnTime (fun _ => False) t.shared) (cancelJob id actor)
      (fun _ t => OnTime (fun _ => False) t.shared) v := by
  have hrest : ∀ {p : Code (Option JobView)} {u : World}, Always Aside p →
      OnTime (fun _ => False) u.shared → Wp Eq (fun _ t => OnTime (fun _ => False) t.shared) p
        (fun _ t => OnTime (fun _ => False) t.shared) u :=
    fun hp hu =>
      wp_alone hp (fun a b ha hab => ⟨punctual_aside a b hab ha, punctual_aside a b hab ha⟩) hu
  have hget := always_getJob (T := Aside) (fun _ _ h => h.toAside) id
  have hjobs : OnTime (fun k => k = id) { v.shared with
      db.jobs := Table.update (fun j => decide (j.id = id ∧ ¬ j.status.terminal))
        (settledJob .cancelled v.shared.now) v.shared.db.jobs } :=
    onTime_updateJobs (onTime_full h) (fun _ => rfl) (fun j hj => (of_decide_eq_true hj).1)
  have hidle : ∀ {items : List JobItem} {t : List Event}, ¬ Current { v.shared with
      db.jobs := Table.update (fun j => decide (j.id = id ∧ ¬ j.status.terminal))
        (settledJob .cancelled v.shared.now) v.shared.db.jobs
      db.items := items
      trace := t } id := by
    rintro items t ⟨row, hrow, hdone, j, hj, hid, hkey⟩
    obtain ⟨j₀, hj₀, rfl⟩ := Table.mem_update.mp hj
    refine hcurrent ⟨row, hrow, hdone, j₀, hj₀, ?_, ?_⟩
    · rw [← hid]
      split <;> rfl
    · rw [← hkey]
      split <;> rfl
  simp only [cancelJob, dateNow, updateJobs, wp_bind, wp_query, wp_update, forall_eq', h, true_and]
  refine ⟨onTime_idle hjobs hidle, ?_⟩
  split
  case isFalse => exact hrest hget (onTime_idle hjobs hidle)
  case isTrue =>
    refine (wp_bind ..).mpr ?_
    rintro _ rfl
    have hitems := onTime_idle (onTime_updateItems hjobs (f := cancelledItem v.shared.now)
      (p := fun r => decide (r.jobId = id ∧ r.status ∈ [.queued, .claimed, .running]))
      (.itemsCancelled id :: v.shared.trace) (fun r hr => (of_decide_eq_true hr).1)) hidle
    exact ⟨hitems,
      hrest (always_bind (always_recordEvent (fun _ _ h => h) _ _) (fun _ => hget)) hitems⟩

end Cancel

section Settle

theorem settledRow_le {row : Schedule} (h : ∀ value, row.repeatEveryValue = some value → 1 ≤ value)
    (now : Ms) (lastResult : LastResult) :
    row.nextRunAt ≤ (settledRow now lastResult row).nextRunAt := by
  obtain ⟨_, hsame⟩ | ⟨_, hlt⟩ := settledRow_later h now lastResult
  · exact le_of_eq hsame.symm
  · exact le_of_lt hlt

theorem dated_settled {s : Shared} {bound : Id} (h : Dated bound s) {row : Schedule}
    (hrow : row ∈ s.db.schedules) (now : Ms) (lastResult : LastResult) :
    Dated bound { s with
      db.schedules := Table.update (fun s => decide (s.id = row.id))
        (writeSettled (settledRow now lastResult row)) s.db.schedules } := by
  refine dated_update h (fun row' hrow' heq => ?_)
  rw [Table.eq_of_key h.distinct hrow' hrow (of_decide_eq_true heq)]
  refine ⟨rfl, rfl, rfl, ?_⟩
  rw [writeSettled_self]
  exact settledRow_le (h.forward row hrow) now lastResult

theorem onTime_settled {s : Shared} (hjobs : (s.db.jobs.map (·.id)).Nodup) {n : Nat}
    {t : Ms} {j : Job} (hj : j ∈ s.db.jobs) (hoccurs : Occurs n t (jobOrigin j))
    (h : OnTime (fun k => k = j.id) s) {row : Schedule} (hrow : row ∈ s.db.schedules)
    (hid : row.id = toString n) (now : Ms) (lastResult : LastResult) :
    OnTime (fun _ => False) { s with
      db.schedules := Table.update (fun s => decide (s.id = row.id))
        (writeSettled (settledRow now lastResult row)) s.db.schedules } := by
  have hlater := settledRow_later (h.dated.forward row hrow) now lastResult
  -- a job's key names its schedule
  have hkeyed : ∀ row' ∈ s.db.schedules, ∀ j' ∈ s.db.jobs, j'.id = j.id →
      j'.idempotencyKey = currentKey row' → row'.id = row.id := by
    intro row' hrow' j' hj' hid' hkey
    rw [Table.eq_of_key hjobs hj' hj hid', show j.idempotencyKey = _ from hoccurs.key] at hkey
    have hsame := (occurrenceKey_inj (Option.some.inj hkey)).1
    exact hsame.symm.trans hid.symm
  refine ⟨dated_settled h.dated hrow now lastResult,
    Table.forall_update.mpr (fun row' hrow' hsending => ?_),
    Table.forall_update.mpr (fun row' hrow' hdone j' hj' hkey _ => ?_)⟩
  · split at hsending
    case isTrue =>
      obtain ⟨hdone, _⟩ | ⟨hscheduled, _⟩ := hlater
      · exact absurd (hsending.symm.trans hdone) (by simp)
      · exact absurd (hsending.symm.trans hscheduled) (by simp)
    case isFalse hother =>
      rw [if_neg hother]
      exact h.fired row' hrow' hsending
  · split at hdone
    case isTrue heq =>
      obtain rfl := Table.eq_of_key h.dated.distinct hrow' hrow (of_decide_eq_true heq)
      rw [if_pos heq] at hkey
      obtain ⟨hdone', _⟩ | ⟨_, hlt⟩ := hlater
      · exact absurd hdone' hdone
      · obtain hforeign | ⟨m, _, u, hoccurs', hreached'⟩ := h.dated.jobs j' hj'
        · exact absurd hkey (foreign_ne hforeign _)
        · have hkey' := Option.some.inj (hoccurs'.key.symm.trans hkey)
          obtain ⟨hsame, rfl⟩ := occurrenceKey_inj hkey'
          rw [← writeSettled_self] at hlt
          exact absurd (hreached' _ hrow' hsame.symm) (not_le.mpr hlt)
    case isFalse hother =>
      rw [if_neg hother] at hkey
      have hne : j'.id ≠ j.id :=
        fun hid' => hother (decide_eq_true (hkeyed row' hrow' j' hj' hid' hkey))
      obtain ⟨hopen, hitem⟩ := h.served row' hrow' hdone j' hj' hkey hne
      exact ⟨hopen, hitem⟩

theorem onTime_beside {i jobId : Id} (v' : World) (hjobs : (v.shared.db.jobs.map (·.id)).Nodup)
    (h : OnTime (fun _ => False) v.shared) (hb : Beside i v v')
    (hrow : ∀ r ∈ v.shared.db.items, r.id = i → r.jobId = jobId) :
    OnTime (fun k => k = jobId) v'.shared ∧
      ∀ row ∈ v'.shared.db.schedules, row.status ≠ .done → ∀ j ∈ v'.shared.db.jobs,
        j.idempotencyKey = currentKey row → j.status.terminal = false := by
  have hjob : ∀ j' ∈ v'.shared.db.jobs, ∃ j ∈ v.shared.db.jobs, jobOrigin j = jobOrigin j' ∧
      j.status.terminal = j'.status.terminal := by
    intro j' hj'
    obtain ⟨j, hj, hid, hterminal⟩ := job_beside hb hj'
    have horigins : v'.shared.db.jobs.map jobOrigin = v.shared.db.jobs.map jobOrigin :=
      congrArg Origins.jobs hb.origins
    obtain ⟨j₀, hj₀, heq⟩ := List.mem_map.mp (horigins ▸ List.mem_map_of_mem hj')
    have hid₀ : j₀.id = j'.id := congrArg JobOrigin.id heq
    rw [Table.eq_of_key hjobs hj₀ hj (hid₀.trans hid.symm)] at heq
    exact ⟨j, hj, heq, hterminal⟩
  have hserved : ∀ row ∈ v'.shared.db.schedules, row.status ≠ .done → ∀ j' ∈ v'.shared.db.jobs,
      j'.idempotencyKey = currentKey row → ∃ j, Live j v.shared ∧ j.id = j'.id ∧
        j.status.terminal = j'.status.terminal := by
    intro row hr hdone j' hj' hkey
    rw [hb.schedules] at hr
    obtain ⟨j, hj, horigin, hterminal⟩ := hjob j' hj'
    have hkey' : j.idempotencyKey = j'.idempotencyKey := congrArg JobOrigin.idempotencyKey horigin
    exact ⟨j, h.served row hr hdone j hj (hkey'.trans hkey) id,
      congrArg JobOrigin.id horigin, hterminal⟩
  have hdated := dated_le h.dated hb.uuid
  refine ⟨⟨⟨?_, ?_, ?_, ?_, fun j' hj' => ?_⟩, fun row hr hsending => ?_, ?_⟩, ?_⟩
  · exact hb.schedules ▸ hdated.named
  · exact hb.schedules ▸ hdated.distinct
  · exact hb.schedules ▸ hdated.addressed
  · exact hb.schedules ▸ hdated.forward
  · obtain ⟨j, hj, horigin, _⟩ := hjob j' hj'
    rw [Reached, hb.schedules, ← horigin]
    exact hdated.jobs j hj
  · rw [hb.schedules] at hr
    obtain ⟨j, hj, hkey⟩ := h.fired row hr hsending
    have horigins : v.shared.db.jobs.map jobOrigin = v'.shared.db.jobs.map jobOrigin :=
      (congrArg Origins.jobs hb.origins).symm
    obtain ⟨j', hj', heq⟩ := List.mem_map.mp (horigins ▸ List.mem_map_of_mem hj)
    have hkey' : j'.idempotencyKey = j.idempotencyKey := congrArg JobOrigin.idempotencyKey heq
    exact ⟨j', hj', hkey'.trans hkey⟩
  · intro row hr hdone j' hj' hkey hexempt
    obtain ⟨j, hlive, hid, hterminal⟩ := hserved row hr hdone j' hj' hkey
    obtain ⟨r, hr', hjob', hopen⟩ := hlive.item
    have hne : r.id ≠ i := fun heq => hexempt (hid.symm.trans (hjob'.symm.trans (hrow r hr' heq)))
    exact ⟨hterminal.symm.trans hlive.unsettled, r, (mem_beside hb hne).mpr hr',
      hjob'.trans hid, hopen⟩
  · intro row hr hdone j' hj' hkey
    obtain ⟨j, hlive, _, hterminal⟩ := hserved row hr hdone j' hj' hkey
    exact hterminal.symm.trans hlive.unsettled

theorem wp_onJobSettled {I : World → Prop} (hI : ∀ t, OnTime (fun _ => False) t.shared → I t)
    (hjobs : (v.shared.db.jobs.map (·.id)).Nodup) {j : Job} (hj : j ∈ v.shared.db.jobs)
    {view : JobView} (horigin : jobOrigin view.job = jobOrigin j)
    (h : OnTime (fun k => k = j.id) v.shared) (hfull : ∀ t, Aside v t → I t) :
    Wp Eq (fun _ t => I t) (onJobSettled view) (fun _ t => OnTime (fun _ => False) t.shared) v := by
  have hid : view.job.id = j.id := congrArg JobOrigin.id horigin
  have htype : view.job.sourceType = j.sourceType := congrArg JobOrigin.sourceType horigin
  have hsource : view.job.sourceId = j.sourceId := congrArg JobOrigin.sourceId horigin
  -- a job that is not the current one of a schedule needs no schedule to move
  have hidle : ∀ u : World, u.shared.db = v.shared.db → OnTime (fun k => k = j.id) u.shared →
      (∀ row ∈ v.shared.db.schedules, j.idempotencyKey ≠ currentKey row) →
      OnTime (fun _ => False) u.shared := by
    intro u hdb hu hkeys
    refine onTime_idle hu ?_
    rintro ⟨row, hrow, _, j', hj', hid', hkey⟩
    rw [hdb] at hrow hj'
    rw [Table.eq_of_key hjobs hj' hj hid'] at hkey
    exact hkeys row hrow hkey
  have hreported := (aside_settled view.job.id v).1
  have hu := onTime_standing h (even_aside _ _ hreported).standing hreported.uuid
  refine (wp_bind ..).mpr ?_
  rintro _ rfl
  refine ⟨hfull _ hreported, ?_⟩
  obtain hforeign | ⟨n, _, t, hoccurs, _⟩ := h.dated.jobs j hj
  · rw [if_neg (show view.job.sourceType ≠ some "schedule" from htype ▸ hforeign.2)]
    exact hidle _ rfl hu (fun row _ => foreign_ne hforeign row)
  · have hschedule : view.job.sourceType = some "schedule" := htype.trans hoccurs.type
    have hname : view.job.sourceId.getD "" = toString n := by
      rw [hsource, show j.sourceId = _ from hoccurs.source]
      rfl
    rw [if_pos hschedule, hname]
    refine (wp_bind ..).mpr ?_
    rintro _ rfl
    refine ⟨hfull _ hreported, ?_⟩
    simp only [Db.schedule]
    cases hfind : Table.find (·.id) (toString n) v.shared.db.schedules with
    | none =>
      refine hidle _ rfl hu (fun row hrow hkey => ?_)
      have hkey' := Option.some.inj (hoccurs.key.symm.trans hkey)
      exact Table.find_none.mp hfind row hrow (occurrenceKey_inj hkey').1.symm
    | some row =>
      obtain ⟨hrow, hid⟩ := Table.find_mem hfind
      have hsettled := onTime_settled (s := { v.shared with trace := _ :: v.shared.trace }) hjobs hj
        hoccurs hu hrow hid v.shared.now ⟨view.job.completedAt.getD v.shared.now, view.items.map resultOf⟩
      rintro _ rfl
      refine ⟨hfull _ hreported, ?_⟩
      rintro _ rfl
      exact ⟨hI _ hsettled, hsettled⟩

theorem wp_complete (i : Id) (outcome : SendOutcome) (random : Nat)
    (hregister : Register (originsOf v.shared))
    (hrow : ∀ t ∈ v.mem.inFlight, ∀ r ∈ v.shared.db.items, r.id = t.item.id →
      r.jobId = t.item.jobId)
    (h : OnTime (fun _ => False) v.shared) :
    Wp Eq (fun _ t => OnTime (flightJobs t) t.shared) (complete i outcome random)
      (fun _ t => OnTime (fun _ => False) t.shared) v := by
  refine Probe.wp_complete i outcome random (onTime_full h) (fun _ => h) ?_
  rintro task htask rfl
  have hbeside := fun t ht => onTime_beside t (jobs_nodup hregister) h ht (hrow task htask)
  have hflight : ∀ t : World, task ∈ t.mem.inFlight →
      OnTime (fun k => k = task.item.jobId) t.shared → OnTime (flightJobs t) t.shared :=
    fun t hmem ht => onTime_mono ht (fun id hid => ⟨task, hmem, hid.symm⟩)
  have hpart : ∀ t, Beside task.item.id v t → OnTime (flightJobs t) t.shared :=
    fun t ht => hflight t (ht.flight ▸ htask) (hbeside t ht).1
  refine wp_seq (wp_alone (P := Beside task.item.id v) (beside_recordOutcome task outcome random)
    (fun a b ha hab => ⟨hpart b (beside_trans ha hab), beside_trans ha hab⟩)
    (beside_refl _ v)) (fun _ u hu => ?_)
  have hregister' : Register (originsOf u.shared) := register_origins hregister hu.origins
  obtain ⟨honTime, hunsettled⟩ := hbeside u hu
  refine wp_settle_finish (fun _ ht => onTime_full ht) hregister' (hpart u hu) ?_ ?_
  · refine fun hopen => ⟨honTime.dated, honTime.fired, fun row hr hdone j hj hkey _ => ?_⟩
    by_cases hid : j.id = task.item.jobId
    · have hstatus := hunsettled row hr hdone j hj hkey
      exact ⟨hstatus, hopen j hj hid hstatus⟩
    · exact honTime.served row hr hdone j hj hkey hid
  · intro j hj hid _ _ status _ w hw
    have hflightw : w.mem.inFlight = u.mem.inFlight := congrArg (·.inFlight) hw.mem
    have hmem : task ∈ w.mem.inFlight := by
      rw [hflightw, hu.flight]
      exact htask
    have hsettled := onTime_updateJobs honTime (f := settledJob status u.shared.now) (fun _ => rfl)
      (p := fun j => decide (j.id = task.item.jobId ∧ j.status ≠ .cancelled))
      (fun j hj => (of_decide_eq_true hj).1)
    have haside : ∀ t, Aside (settleJob task.item.jobId status u) t →
        OnTime (fun k => k = task.item.jobId) t.shared :=
      fun t ht => onTime_standing hsettled (even_aside _ _ ht).standing ht.uuid
    have hjobs : (w.shared.db.jobs.map (·.id)).Nodup := by
      rw [hw.jobs, settleJob, Table.map_update (by exact fun _ _ => rfl)]
      exact jobs_nodup hregister'
    obtain ⟨j', hj', horigin⟩ : ∃ j' ∈ w.shared.db.jobs, jobOrigin j' = jobOrigin j := by
      rw [hw.jobs]
      refine ⟨_, Table.mem_update.mpr ⟨j, hj, rfl⟩, ?_⟩
      split <;> rfl
    have hid' : j'.id = task.item.jobId := (congrArg JobOrigin.id horigin).trans hid
    refine ⟨hflight w hmem (haside w hw), ?_⟩
    refine wp_onJobSettled (j := j') (fun t ht => onTime_full ht) hjobs hj' horigin.symm
      (hid' ▸ haside w hw) (fun t ht => ?_)
    have hflightt : t.mem.inFlight = w.mem.inFlight := congrArg (·.inFlight) ht.mem
    exact hflight t (hflightt ▸ hmem) (haside t (aside_trans hw ht))

end Settle

/-- A task's job is the one that a schedule waits for, and it is settled or has no open item left. -/
def Interrupted (v : World) : Prop :=
  ∃ t ∈ v.mem.inFlight, Current v.shared t.item.jobId ∧
    ∀ j ∈ v.shared.db.jobs, j.id = t.item.jobId → j.status.terminal = false →
      ∀ r ∈ v.shared.db.items, r.jobId = j.id → r.status.terminal = true

/-- No call creates a job in the name of a schedule, or cancels a job that a schedule waits for. -/
def Spares (v : World) : Call → Prop
  | .createJob args => Foreign args.idempotencyKey args.sourceType
  | .cancelJob id _ => ¬ Current v.shared id
  | _ => True

/-- Nor does the process die between the last item of such a job and its schedule. -/
def Careful (s : Server) (a : Action) : Prop :=
  s.up → match a with
    | .call c => Spares s.world c
    | .crash c n => Spares s.world c ∧ ¬ Interrupted (c.code.cut n s.world)
    | _ => True

instance (s : Shared) (id : Id) : Decidable (Current s id) :=
  inferInstanceAs (Decidable (∃ row ∈ _, _ ∧ ∃ j ∈ _, _ ∧ _))

instance (v : World) : Decidable (Interrupted v) :=
  inferInstanceAs (Decidable (∃ t ∈ _, _ ∧ ∀ j ∈ _, _ → _ → _))

instance (v : World) (c : Call) : Decidable (Spares v c) := by
  unfold Spares
  split <;> infer_instance

instance (s : Server) (a : Action) : Decidable (Careful s a) := by
  unfold Careful
  split <;> infer_instance

theorem wp_call (c : Call) (hn : Distinct v.shared) (hregister : Register (originsOf v.shared))
    (hrow : ∀ t ∈ v.mem.inFlight, ∀ r ∈ v.shared.db.items, r.id = t.item.id →
      r.jobId = t.item.jobId)
    (h : OnTime (fun _ => False) v.shared) (hc : Spares v c) :
    Wp Eq (fun _ t => OnTime (flightJobs t) t.shared) c.code
      (fun _ t => OnTime (fun _ => False) t.shared) v := by
  have hfull : ∀ {p : Code Unit}, Wp Eq (fun _ t => OnTime (fun _ => False) t.shared) p
      (fun _ t => OnTime (fun _ => False) t.shared) v →
      Wp Eq (fun _ t => OnTime (flightJobs t) t.shared) p
      (fun _ t => OnTime (fun _ => False) t.shared) v :=
    fun hp => wp_weaken (fun _ _ ht => onTime_full ht) (fun _ _ ht => ht) hp
  have hpunctual : ∀ {p : Code Unit}, Always Punctual p →
      Wp Eq (fun _ t => OnTime (flightJobs t) t.shared) p
      (fun _ t => OnTime (fun _ => False) t.shared) v :=
    fun hp => hfull (wp_alone hp (fun a b ha hab => ⟨hab ha, hab ha⟩) h)
  have heven : ∀ {p : Code Unit}, Always Even p →
      Wp Eq (fun _ t => OnTime (flightJobs t) t.shared) p
      (fun _ t => OnTime (fun _ => False) t.shared) v :=
    fun hp => hpunctual (always_mono (fun _ _ => punctual_even) hp)
  have hweb : ∀ {p : Code Unit}, Always Web p → Wp Eq (fun _ t => OnTime (flightJobs t) t.shared) p
      (fun _ t => OnTime (fun _ => False) t.shared) v :=
    fun hp => heven (always_mono (fun _ _ => even_web) hp)
  cases c with
  | tick =>
    have hticked : ∀ t, Ticked v t → OnTime (fun _ => False) t.shared :=
      fun t ht => onTime_standing h ht.standing ht.uuid
    exact hfull (wp_weaken (fun _ t ht => hticked t ht) (fun _ t ht => hticked t ht)
      (Standing.wp_tick hn))
  | complete i outcome random => exact wp_complete i outcome random hregister hrow h
  | createJob args =>
    exact hpunctual (always_bind (punctual_callCreateJob hc) (fun _ => always_pure ()))
  | cancelJob id actor => exact hfull ((wp_bind ..).mpr (wp_cancelJob id actor h hc))
  | pauseJob id actor =>
    exact heven (always_bind (even_pauseJob id actor) (fun _ => always_pure ()))
  | resumeJob id actor =>
    exact heven (always_bind (even_resumeJob id actor) (fun _ => always_pure ()))
  | createSchedule input => exact hfull (wp_create input h)
  | removeSchedule id => exact hpunctual (punctual_remove id)
  | runTickIfReady ready => exact hfull (wp_runTickIfReady ready h)
  | setOutboundDisabled disabled actor reason => exact hweb (web_setOutboundDisabled _ _ _ _)
  | drainAndStop => exact heven (always_exec (fun _ => ⟨⟨rfl, rfl, rfl, le_refl _⟩, rfl, rfl⟩))
  | request r ready => exact hweb (web_request r ready)
  | answered id answer ready => exact hweb (web_answered id answer ready)
  | delayOver id ready => exact hweb (web_delayOver id ready)
  | sweepExpiredIdempotencyKeys => exact hweb web_sweepExpiredIdempotencyKeys

structure Timed (s : Server) : Prop where
  kept : Kept s
  register : Register (originsOf s.world.shared)
  onTime : OnTime (fun _ => False) s.world.shared

section Server

variable {s : Server}

theorem onTime_cut (h : Timed s) (hup : s.up) {c : Call} {n : Nat} (ha : Careful s (.crash c n)) :
    OnTime (fun _ => False) (die s.world.mem.pid (c.code.cut n s.world).shared) := by
  obtain ⟨hspares, hcut⟩ := ha hup
  have hpart := wp_cut (I := fun t => OnTime (flightJobs t) t.shared) (onTime_full h.onTime)
    (wp_call c h.kept.inv.1 h.register (row_of_task h.kept hup) h.onTime hspares) n
  have hregister : Register (originsOf (die s.world.mem.pid (c.code.cut n s.world).shared)) := by
    simpa [step, hup, pid_cut] using register_step h.register (.crash c n)
  have hjobs := jobs_nodup hregister
  refine onTime_standing (s := (c.code.cut n s.world).shared) ?_ rfl (le_refl _)
  refine ⟨hpart.dated, hpart.fired, fun row hr hdone j hj hkey _ => ?_⟩
  by_cases hflight : flightJobs (c.code.cut n s.world) j.id
  · obtain ⟨t, ht, hid⟩ := hflight
    by_contra hlive
    refine hcut ⟨t, ht, ⟨row, hr, hdone, j, hj, hid.symm, hkey⟩,
      fun j' hj' hid' hopen r hr' hjob => ?_⟩
    obtain rfl := Table.eq_of_key hjobs hj' hj (hid'.trans hid)
    by_contra hne
    exact hlive ⟨hopen, r, hr', hjob, by simpa using hne⟩
  · exact hpart.served row hr hdone j hj hkey hflight

theorem timed_step (h : Timed s) {a : Action} (ha : Careful s a) : Timed (step s a) := by
  refine ⟨kept_step h.kept a, register_step h.register a, ?_⟩
  cases a with
  | advance ms => exact onTime_standing h.onTime rfl (le_refl _)
  | call c =>
    simp only [step]
    split
    case isTrue hup =>
      exact wp_run (wp_call c h.kept.inv.1 h.register (row_of_task h.kept hup) h.onTime (ha hup))
    case isFalse => exact h.onTime
  | crash c n =>
    simp only [step]
    split
    case isTrue hup =>
      rw [pid_cut]
      exact onTime_cut h hup ha
    case isFalse => exact h.onTime
  | restart =>
    simp only [step]
    split
    · exact h.onTime
    · have heven := even_boot s.world
      exact onTime_standing h.onTime heven.standing heven.uuid

theorem timed_initial (concurrency : Nat) (now : Ms) : Timed (initial concurrency now) where
  kept := kept_initial concurrency now
  register := register_initial now
  onTime :=
    ⟨⟨fun _ h => absurd h List.not_mem_nil, List.nodup_nil, fun _ h => absurd h List.not_mem_nil,
      fun _ h => absurd h List.not_mem_nil, fun _ h => absurd h List.not_mem_nil⟩,
      fun _ h => absurd h List.not_mem_nil, fun _ h => absurd h List.not_mem_nil⟩

theorem timed_run {concurrency : Nat} {now : Ms} {as : List Action}
    (h : Along Careful step (initial concurrency now) as) :
    Timed (run (initial concurrency now) as) :=
  play_invariant Timed (fun _ _ hs ha => timed_step hs ha) (timed_initial concurrency now) h

end Server

/-- As long as nobody cancels a job that a schedule waits for, and no process dies between
such a job and its schedule, every schedule in `sending` has a job that will move it on. -/
theorem sending_schedules_move_on (concurrency : Nat) (now : Ms) (as : List Action)
    (h : Along Careful step (initial concurrency now) as) :
    let db := (run (initial concurrency now) as).world.shared.db
    ∀ row ∈ db.schedules, row.status = .sending → ∃ j ∈ db.jobs,
      j.idempotencyKey = some (occurrenceKey row.id row.nextRunAt) ∧
      j.sourceType = some "schedule" ∧ j.sourceId = some row.id ∧
      j.status.terminal = false ∧ ∃ r ∈ db.items, r.jobId = j.id ∧ r.status.terminal = false := by
  intro db row hrow hsending
  have honTime := (timed_run h).onTime
  obtain ⟨j, hj, hkey⟩ := honTime.fired row hrow hsending
  have hlive := honTime.served row hrow (by simp [hsending]) j hj hkey id
  obtain hforeign | ⟨n, _, t, hoccurs, _⟩ := honTime.dated.jobs j hj
  · exact absurd hkey (foreign_ne hforeign row)
  · have hkey' := Option.some.inj (hoccurs.key.symm.trans hkey)
    exact ⟨j, hj, hkey, hoccurs.type,
      hoccurs.source.trans (congrArg some (occurrenceKey_inj hkey').1), hlive.unsettled, hlive.item⟩

def once : CreateInput :=
  { recipients := [⟨some "1", none⟩], message := "hello", runAt := some 0, delaySeconds := 0,
    rule := none }

/-- The job of a schedule is cancelled; nothing moves the schedule on. -/
theorem sending_schedules_move_on_fails :
    let db := (run (initial 1 0) [.call (.createSchedule once), .call (.runTickIfReady true),
      .call (.cancelJob 1 none)]).world.shared.db
    (db.schedule "0").map (·.status) = some .sending ∧ db.jobs.map (·.status) = [.cancelled] ∧
      db.items.map (·.status) = [.cancelled] := by
  decide +kernel

/-- The process dies before it marks a schedule whose job it has created. -/
theorem sending_schedules_move_on_crash :
    let as : List Action :=
      [.call (.createSchedule once), .crash (.runTickIfReady true) 8, .restart, .call .tick,
        .call (.runTickIfReady true)]
    let db := (run (initial 1 0) as).world.shared.db
    ∀ row ∈ db.schedules, row.status = .sending → ∃ j ∈ db.jobs,
      j.idempotencyKey = some (occurrenceKey row.id row.nextRunAt) ∧
      j.sourceType = some "schedule" ∧ j.sourceId = some row.id ∧
      j.status.terminal = false ∧ ∃ r ∈ db.items, r.jobId = j.id ∧ r.status.terminal = false :=
  sending_schedules_move_on 1 0 _ (by decide +kernel)

end WhatsappTester.Jobs.Recurrence
