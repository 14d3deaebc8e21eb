import WhatsappTester.Jobs.Probe
import WhatsappTester.Jobs.Settling

namespace WhatsappTester.Jobs.Upkeep

open Schema State Atomic Atomic.Program Atomic.Runs Statements JobService Claiming Worker
  Ledger Custody
open Process Solo Standing Registry Uniqueness Probe Settling

def Owned (s : Shared) : Prop := ∀ r ∈ s.db.items, r.jobId ∈ jobIds s

/-- A job that is not settled has an open item, unless it has no items or is exempt. -/
def Fed (exempt : Id → Prop) (s : Shared) : Prop :=
  ∀ j ∈ s.db.jobs, j.status.terminal = false → ¬ exempt j.id → (∃ r ∈ s.db.items, r.jobId = j.id) →
    ∃ r ∈ s.db.items, r.jobId = j.id ∧ r.status.terminal = false

/-- The items that are taken are in flight, but for one and for those of settled jobs. -/
def Held (but : Option Id) (v : World) : Prop :=
  ∀ r ∈ v.shared.db.items, r.status ∈ [ItemStatus.claimed, .running] → some r.id ≠ but →
    (∃ j ∈ v.shared.db.jobs, j.id = r.jobId ∧ j.status.terminal = false) →
    ∃ t ∈ v.mem.inFlight, t.item.id = r.id

structure Tended (v : World) : Prop where
  owned : Owned v.shared
  fed : Fed (fun _ => False) v.shared
  held : Held none v

structure Milder (v v' : World) : Prop where
  items : v'.shared.db.items = v.shared.db.items
  ids : jobIds v'.shared = jobIds v.shared
  jobs : ∀ j' ∈ v'.shared.db.jobs, j'.status.terminal = false →
    ∃ j ∈ v.shared.db.jobs, j.id = j'.id ∧ j.status.terminal = false
  flight : v'.mem.inFlight = v.mem.inFlight

section Milder

variable {v v' : World} {but : Option Id} {exempt : Id → Prop}

theorem milder_of_jobs (hitems : v'.shared.db.items = v.shared.db.items)
    (hjobs : v'.shared.db.jobs = v.shared.db.jobs) (hflight : v'.mem.inFlight = v.mem.inFlight) :
    Milder v v' :=
  ⟨hitems, by rw [jobIds, jobIds, hjobs], fun j hj hopen => ⟨j, hjobs ▸ hj, rfl, hopen⟩, hflight⟩

theorem milder_aside : Lenient Milder := fun _ _ h =>
  milder_of_jobs (congrArg Custody.items h.custody) h.jobs (congrArg (·.inFlight) h.mem)

theorem milder_memo (h : Memo v v') : Milder v v' :=
  milder_of_jobs (by rw [h.shared]) (by rw [h.shared]) (congrArg Custody.inFlight h.custody)

theorem milder_web (h : Web v v') : Milder v v' :=
  milder_of_jobs (congrArg JobSide.items h.jobSide) (congrArg JobSide.jobs h.jobSide)
    (congrArg JobSide.inFlight h.jobSide)

theorem milder_updateSchedules (p : Schedule → Bool) (f : Schedule → Schedule) :
    Always Milder (updateSchedules p f) := always_update _ (fun _ => milder_of_jobs rfl rfl rfl)

theorem milder_updateJobs (p : Job → Bool) {f : Job → Job} (hid : ∀ j, (f j).id = j.id)
    (hf : ∀ j, p j → (f j).status.terminal = false → j.status.terminal = false) :
    Always Milder (updateJobs p f) := by
  refine always_update _ (fun v => ⟨rfl, Table.map_update (fun j _ => hid j) _, ?_, rfl⟩)
  intro j' hj' hopen
  obtain ⟨j, hj, rfl⟩ := Table.mem_update.mp hj'
  refine ⟨j, hj, ?_, ?_⟩
  · split
    · exact (hid j).symm
    · rfl
  · split at hopen
    · exact hf j ‹_› hopen
    · exact hopen

theorem milder_settledJob (p : Job → Bool) {status : JobStatus}
    (h : status.terminal = true) (now : Ms) :
    Always Milder (updateJobs p (settledJob status now)) := by
  refine milder_updateJobs p (fun _ => rfl) (fun j _ hopen => ?_)
  rw [show (settledJob status now j).status = status from rfl, h] at hopen
  cases hopen

theorem milder_settle (jobId : Id) : Always Milder (settle jobId) :=
  always_settle jobId (always_checkJobCompletion milder_aside jobId
      (fun _ now hstatus => milder_settledJob _ hstatus now))
    (fun view => always_onJobSettled milder_aside view milder_updateSchedules)

theorem owned_milder (h : Owned v.shared) (hm : Milder v v') : Owned v'.shared := by
  intro r hr
  rw [hm.items] at hr
  rw [hm.ids]
  exact h r hr

theorem fed_milder (h : Fed exempt v.shared) (hm : Milder v v') : Fed exempt v'.shared := by
  intro j' hj' hopen hexempt hitems
  obtain ⟨j, hj, hid, hstatus⟩ := hm.jobs j' hj' hopen
  rw [hm.items, ← hid] at hitems ⊢
  exact h j hj hstatus (hid ▸ hexempt) hitems

theorem held_milder (h : Held but v) (hm : Milder v v') : Held but v' := by
  intro r hr hstatus hne hjob
  obtain ⟨j', hj', hid', hopen'⟩ := hjob
  obtain ⟨j, hj, hid, hopen⟩ := hm.jobs j' hj' hopen'
  rw [hm.items] at hr
  rw [hm.flight]
  exact h r hr hstatus hne ⟨j, hj, hid.trans hid', hopen⟩

theorem tended_milder (h : Tended v) (hm : Milder v v') : Tended v' :=
  ⟨owned_milder h.owned hm, fed_milder h.fed hm, held_milder h.held hm⟩

end Milder

section Beside

variable {i : Id} {v v' : World}

theorem owned_origins (h : Owned v.shared) (heq : origins v' = origins v) : Owned v'.shared := by
  intro r hr
  obtain ⟨r₀, hr₀, heq₀⟩ := item_origin heq hr
  rw [jobIds_of_origins heq, ← show r₀.jobId = r.jobId from congrArg ItemOrigin.jobId heq₀]
  exact h r₀ hr₀

theorem fed_beside (h : Fed (fun _ => False) v.shared) (hb : Beside i v v') {jobId : Id}
    (hrow : ∀ r ∈ v'.shared.db.items, r.id = i → r.jobId = jobId) :
    Fed (fun k => k = jobId) v'.shared := by
  rintro j' hj' hopen hexempt ⟨r, hr, hjob⟩
  obtain ⟨j, hj, hid, hstatus⟩ := job_beside hb hj'
  have hother : ∀ r ∈ v.shared.db.items, r.jobId = j'.id → r.id ≠ i := by
    intro r hr hjob heq
    obtain ⟨r', hr', heq'⟩ := item_origin hb.origins.symm hr
    have hjob' : r'.jobId = r.jobId := congrArg ItemOrigin.jobId heq'
    have hid' : r'.id = r.id := congrArg ItemOrigin.id heq'
    exact hexempt ((hjob'.trans hjob).symm.trans (hrow r' hr' (hid'.trans heq)))
  have hne : r.id ≠ i := fun heq => hexempt (hjob.symm.trans (hrow r hr heq))
  obtain ⟨q, hq, hqjob, hqopen⟩ := h j hj (hstatus.trans hopen) id
    ⟨r, (mem_beside hb hne).mp hr, hjob.trans hid.symm⟩
  have hqjob' := hqjob.trans hid
  exact ⟨q, (mem_beside hb (hother q hq hqjob')).mpr hq, hqjob', hqopen⟩

theorem held_beside {but : Option Id} (h : Held but v) (hb : Beside i v v')
    (hbut : but = none ∨ but = some i) :
    Held (some i) v' := by
  rintro r hr hstatus hne ⟨j', hj', hid', hopen⟩
  have hri : r.id ≠ i := by simpa using hne
  obtain ⟨j, hj, hid, hterminal⟩ := job_beside hb hj'
  rw [hb.flight]
  refine h r ((mem_beside hb hri).mp hr) hstatus ?_ ⟨j, hj, hid.trans hid', hterminal.trans hopen⟩
  obtain rfl | rfl := hbut
  · simp
  · exact hne

end Beside

def Tends (v v' : World) : Prop := Tended v → Tended v'

variable {v v' : World}

theorem tends_milder (h : Milder v v') : Tends v v' := fun ht => tended_milder ht h

theorem tends_aside : Lenient Tends := fun v v' h => tends_milder (milder_aside v v' h)

theorem tends_insertJobAndItems (id : Id) (now : Ms) (a : CreateJobArgs) :
    Always Tends (insertJobAndItems id now a) := by
  refine always_update _ (fun v h => ?_)
  cases htransaction : createTransaction id now a v.shared.uuid v.shared.db with
  | error err => exact ⟨h.owned, h.fed, h.held⟩
  | ok db =>
    obtain ⟨rfl, hfresh, _⟩ := createTransaction_ok htransaction
    have hold : ∀ r ∈ v.shared.db.items, r.jobId ≠ id := by
      intro r hr heq
      obtain ⟨j, hj, hid⟩ := List.mem_map.mp (h.owned r hr)
      exact hfresh j hj (hid.trans heq)
    refine ⟨insert_owned htransaction h.owned, ?_, ?_⟩
    · rintro j hj hopen hexempt ⟨r, hr, hjob⟩
      obtain hj | hj := List.mem_append.mp hj
      · have hr' : r ∈ v.shared.db.items := by
          obtain hr | hr := List.mem_append.mp hr
          · exact hr
          · exact absurd (hjob.symm.trans (mem_newItems hr).1) (hfresh j hj)
        obtain ⟨q, hq, hq'⟩ := h.fed j hj hopen hexempt ⟨r, hr', hjob⟩
        exact ⟨q, List.mem_append_left _ hq, hq'⟩
      · rw [List.mem_singleton] at hj
        subst hj
        refine ⟨r, hr, hjob, ?_⟩
        obtain hr | hr := List.mem_append.mp hr
        · exact absurd hjob (hold r hr)
        · rw [(mem_newItems hr).2]
          rfl
    · rintro r hr hstatus hne ⟨j, hj, hid, hopen⟩
      obtain hr | hr := List.mem_append.mp hr
      · refine h.held r hr hstatus hne ⟨j, ?_, hid, hopen⟩
        obtain hj | hj := List.mem_append.mp hj
        · exact hj
        · rw [List.mem_singleton] at hj
          subst hj
          exact absurd hid.symm (hold r hr)
      · rw [(mem_newItems hr).2] at hstatus
        cases List.mem_cons.mp hstatus with
        | inl h => cases h
        | inr h => cases List.mem_singleton.mp h

theorem tends_callCreateJob (a : CreateJobArgs) : Always Tends (callCreateJob a) := by
  refine always_callCreateJob tends_aside.tolerant a
    (fun id now => tends_insertJobAndItems id now a) ?_
  intro result v
  cases result <;> exact tends_milder (milder_of_jobs rfl rfl rfl)

theorem milder_changeStatus (id : Id) (p : Job → Bool) {status : JobStatus} {kind : JobEventKind}
    (hkind : ∀ ts, isCompletion ⟨id, ts, kind⟩ = false)
    (hp : ∀ j, p j → j.status.terminal = false) : Always Milder (do
      let now ← dateNow
      let changes ← updateJobs p (movedJob status now)
      if changes > 0 then recordEvent id kind else pure ()
      getJob id) :=
  always_changeStatus milder_aside.tolerant id p _ hkind
    (fun _ => milder_updateJobs p (fun _ => rfl) (fun j hj _ => hp j hj))

theorem milder_pauseJob (id : Id) (actor : Option String) : Always Milder (pauseJob id actor) := by
  refine milder_changeStatus id _ (fun _ => rfl) (fun j hj => ?_)
  have hstatus := (of_decide_eq_true hj).2
  simp only [List.mem_cons, List.not_mem_nil, or_false] at hstatus
  obtain hstatus | hstatus := hstatus <;> rw [hstatus] <;> rfl

theorem milder_resumeJob (id : Id) (actor : Option String) :
    Always Milder (resumeJob id actor) := by
  refine milder_changeStatus id _ (fun _ => rfl) (fun j hj => ?_)
  rw [(of_decide_eq_true hj).2]
  rfl

theorem tends_call {c : Call} (htick : c ≠ .tick) (hcomplete : ∀ i o r, c ≠ .complete i o r)
    (hcancel : ∀ id actor, c ≠ .cancelJob id actor) : Always Tends c.code := by
  have hmilder : ∀ {p : Code Unit}, Always Milder p → Always Tends p :=
    fun h => always_mono (fun _ _ => tends_milder) h
  have hweb : ∀ {p : Code Unit}, Always Web p → Always Tends p :=
    fun h => hmilder (always_mono (fun _ _ => milder_web) h)
  cases c with
  | tick => exact absurd rfl htick
  | complete i o r => exact absurd rfl (hcomplete i o r)
  | createJob args => exact always_bind (tends_callCreateJob args) (fun _ => always_pure ())
  | cancelJob id actor => exact absurd rfl (hcancel id actor)
  | pauseJob id actor =>
    exact hmilder (always_bind (milder_pauseJob id actor) (fun _ => always_pure ()))
  | resumeJob id actor =>
    exact hmilder (always_bind (milder_resumeJob id actor) (fun _ => always_pure ()))
  | createSchedule input =>
    exact hmilder (always_create milder_aside.tolerant input
      (fun _ _ _ => always_exec (fun _ => milder_of_jobs rfl rfl rfl)))
  | removeSchedule id => exact hmilder (always_exec (fun _ => milder_of_jobs rfl rfl rfl))
  | runTickIfReady ready =>
    exact always_runTickIfReady tends_aside.tolerant tends_callCreateJob
      (fun p f => always_mono (fun _ _ => tends_milder) (milder_updateSchedules p f)) ready
  | setOutboundDisabled disabled actor reason => exact hweb (web_setOutboundDisabled _ _ _ _)
  | drainAndStop => exact hmilder (always_exec (fun _ => milder_of_jobs rfl rfl rfl))
  | request r ready => exact hweb (web_request r ready)
  | answered id answer ready => exact hweb (web_answered id answer ready)
  | delayOver id ready => exact hweb (web_delayOver id ready)
  | sweepExpiredIdempotencyKeys => exact hweb web_sweepExpiredIdempotencyKeys

theorem wp_tends {α : Type} {p : Code α} (hp : Always Tends p) (h : Tended v) :
    Wp Eq (fun _ t => Tended t) p (fun _ t => Tended t) v := by
  refine wp_alone hp (fun s t hs hst => ?_) h
  exact ⟨hst hs, hst hs⟩

theorem tended_cancelItems {id : Id} (h : Tended v)
    (hsettled : ∀ j ∈ v.shared.db.jobs, j.id = id → j.status.terminal = true) (now : Ms)
    (t : List Event) :
    Tended { v with
      shared.db.items :=
        Table.update (fun r => decide (r.jobId = id ∧ r.status ∈ [.queued, .claimed, .running]))
        (cancelledItem now) v.shared.db.items
      shared.trace := t } := by
  have hkeep : ∀ r : JobItem, r.jobId ≠ id →
      (if decide (r.jobId = id ∧ r.status ∈ [ItemStatus.queued, .claimed, .running])
        then cancelledItem now r else r) = r := fun r hne => by simp [hne]
  have hne : ∀ j ∈ v.shared.db.jobs, j.status.terminal = false → j.id ≠ id := by
    intro j hj hopen heq
    rw [hsettled j hj heq] at hopen
    cases hopen
  refine ⟨?_, ?_, ?_⟩
  · intro r hr
    obtain ⟨r₀, hr₀, rfl⟩ := Table.mem_update.mp hr
    have := h.owned r₀ hr₀
    split <;> exact this
  · rintro j hj hopen hexempt ⟨r, hr, hjob⟩
    obtain ⟨r₀, hr₀, rfl⟩ := Table.mem_update.mp hr
    have hjob₀ : r₀.jobId = j.id := by
      rw [← hjob]
      split <;> rfl
    obtain ⟨q, hq, hqjob, hqopen⟩ := h.fed j hj hopen hexempt ⟨r₀, hr₀, hjob₀⟩
    exact ⟨q, Table.mem_update.mpr ⟨q, hq, hkeep q (hqjob ▸ hne j hj hopen)⟩, hqjob, hqopen⟩
  · rintro r hr hstatus hbut ⟨j, hj, hid, hopen⟩
    obtain ⟨r₀, hr₀, rfl⟩ := Table.mem_update.mp hr
    have hjob₀ : r₀.jobId ≠ id := by
      refine fun heq => hne j hj hopen (hid.trans ?_)
      split <;> exact heq
    rw [hkeep r₀ hjob₀] at hstatus hbut hid ⊢
    exact h.held r₀ hr₀ hstatus hbut ⟨j, hj, hid, hopen⟩

theorem wp_cancelJob (id : Id) (actor : Option String) (h : Tended v) :
    Wp Eq (fun _ t => Tended t) (cancelJob id actor) (fun _ t => Tended t) v := by
  have hget := always_getJob tends_aside.tolerant id
  simp only [cancelJob, dateNow, updateJobs, wp_bind, wp_query, wp_update, forall_eq', h, true_and]
  have hcancelled : JobStatus.cancelled.terminal = true := rfl
  have hsettled :=
    tended_milder h (milder_settledJob (fun j => decide (j.id = id ∧ ¬ j.status.terminal))
    hcancelled v.shared.now v).1
  refine ⟨hsettled, ?_⟩
  split
  case isFalse => exact wp_tends hget hsettled
  case isTrue hchanges =>
    refine (wp_bind ..).mpr ?_
    rintro _ rfl
    have hgone : ∀ j ∈ (Table.update (fun j => decide (j.id = id ∧ ¬ j.status.terminal))
        (settledJob .cancelled v.shared.now) v.shared.db.jobs), j.id = id →
        j.status.terminal = true := by
      intro j hj hid
      obtain ⟨j₀, hj₀, rfl⟩ := Table.mem_update.mp hj
      split
      · rfl
      case isFalse hne =>
        rw [if_neg hne] at hid
        simpa [hid] using hne
    have hitems :=
      tended_cancelItems hsettled hgone v.shared.now (.itemsCancelled id :: v.shared.trace)
    exact ⟨hitems,
      wp_tends (always_bind (always_recordEvent tends_aside _ _) (fun _ => hget)) hitems⟩

section Standing

variable {s s' : Shared}

theorem owned_standing (h : Owned s) (heq : standing s' = standing s) : Owned s' := by
  intro r hr
  obtain ⟨r₀, hr₀, horigin, _⟩ := item_standing heq.symm hr
  obtain ⟨j, hj, hid⟩ := List.mem_map.mp (h r₀ hr₀)
  obtain ⟨j', hj', horigin', _⟩ := job_standing heq hj
  have hjob : r₀.jobId = r.jobId := congrArg ItemOrigin.jobId horigin
  exact List.mem_map.mpr ⟨j', hj', (congrArg JobOrigin.id horigin').trans (hid.trans hjob)⟩

theorem fed_standing {exempt : Id → Prop} (h : Fed exempt s) (heq : standing s' = standing s) :
    Fed exempt s' := by
  rintro j hj hopen hexempt ⟨r, hr, hjob⟩
  obtain ⟨j₀, hj₀, horigin, hterminal⟩ := job_standing heq.symm hj
  obtain ⟨r₀, hr₀, hitem, _⟩ := item_standing heq.symm hr
  have hid : j₀.id = j.id := congrArg JobOrigin.id horigin
  have hjob₀ : r₀.jobId = r.jobId := congrArg ItemOrigin.jobId hitem
  obtain ⟨q, hq, hqjob, hqopen⟩ := h j₀ hj₀ (hterminal.trans hopen) (hid ▸ hexempt)
    ⟨r₀, hr₀, hjob₀.trans (hjob.trans hid.symm)⟩
  obtain ⟨q', hq', hqorigin, hqterminal⟩ := item_standing heq hq
  have hqjob' : q'.jobId = q.jobId := congrArg ItemOrigin.jobId hqorigin
  exact ⟨q', hq', hqjob'.trans (hqjob.trans hid), hqterminal.trans hqopen⟩

end Standing

theorem held_memo {but : Option Id} (h : Held but v) (hm : Memo v v') : Held but v' :=
  held_milder h (milder_memo hm)

theorem ends_processItem {item : JobItem} (hn : Distinct v.shared) (h : Held (some item.id) v) :
    Ends (processItem item) (fun _ v' => Distinct v'.shared ∧ Held none v') v := by
  have hbeside : ∀ {p : Code Unit} {u : World}, Always (Beside item.id) p →
      Distinct u.shared ∧ Held (some item.id) u →
      Ends p (fun _ u => Distinct u.shared ∧ Held (some item.id) u) u := by
    intro p u hp hu
    refine ends_always (fun a b ha hab => ?_) hp hu
    exact ⟨distinct_of_origins hab.origins ha.1, held_beside ha.2 hab (Or.inr rfl)⟩
  refine wp_seq (hbeside (beside_markItemRunning _) ⟨hn, h⟩) (fun _ u hu => ?_)
  refine wp_seq (hbeside (beside_recordAttemptStart _ _) hu) (fun _ u hu => ?_)
  rintro _ rfl
  refine ⟨trivial, hu.1, fun r hr hstatus _ hjob => ?_⟩
  by_cases hid : r.id = item.id
  · exact ⟨_, List.mem_append_right _ List.mem_cons_self, hid.symm⟩
  · obtain ⟨t, ht, htid⟩ := hu.2 r hr hstatus (by simpa using hid) hjob
    exact ⟨t, List.mem_append_left _ ht, htid⟩

theorem held_claimRow {row : JobItem} (h : Held none v) (now : Ms) :
    Held (some row.id) (claimRow row now v) := by
  intro r hr hstatus hne hjob
  obtain ⟨r₀, hr₀, rfl⟩ := Table.mem_update.mp hr
  have hid : r₀.id ≠ row.id := by
    refine fun heq => hne (congrArg some ?_)
    split <;> exact heq
  simp only [hid, false_and, decide_false, Bool.false_eq_true, ↓reduceIte] at hstatus hjob ⊢
  exact h r₀ hr₀ hstatus (by simp) hjob

theorem ends_tick (hn : Distinct v.shared) (h : Held none v) :
    Ends tick (fun _ v' => Held none v') v := by
  have hmemo : ∀ {α : Type} {p : Code α}, Always Memo p → ∀ v, Distinct v.shared ∧ Held none v →
      Ends p (fun _ v => Distinct v.shared ∧ Held none v) v := by
    intro α p hp v hv
    refine ends_always (fun a b ha hab => ?_) hp hv
    exact ⟨distinct_of_origins hab.origins ha.1, held_memo ha.2 hab⟩
  refine wp_mono (fun _ _ ht => ht.2)
    (Statements.wp_tick (P := fun v => Distinct v.shared ∧ Held none v)
    (fun f v hv => ?_) hmemo (fun v hv => ?_) ⟨hn, h⟩)
  · rintro _ rfl
    exact ⟨trivial, hv⟩
  · refine wp_claimNextItem hv.1 trivial (fun _ => hv) (fun row hrow => ⟨trivial, ?_⟩)
    refine ends_processItem ?_ (held_claimRow hv.2 v.shared.now)
    exact distinct_standing hv.1 (even_claimRow row v.shared.now v).standing

theorem milder_settleJob (jobId : Id) {status : JobStatus}
    (h : status.terminal = true) (v : World) :
    Milder v (settleJob jobId status v) :=
  (milder_settledJob (fun j => decide (j.id = jobId ∧ j.status ≠ .cancelled)) h v.shared.now v).1

theorem fed_settleJob {jobId : Id} {status : JobStatus} (h : Fed (fun k => k = jobId) v.shared)
    (hstatus : status.terminal = true) :
    Fed (fun _ => False) (settleJob jobId status v).shared := by
  intro j hj hopen _ hitems
  refine fed_milder h (milder_settleJob jobId hstatus v) j hj hopen ?_ hitems
  obtain ⟨j₀, _, rfl⟩ := Table.mem_update.mp hj
  intro hid
  split at hopen
  · rw [show (settledJob status v.shared.now j₀).status = status from rfl, hstatus] at hopen
    cases hopen
  case isFalse hne =>
    rw [if_neg hne] at hid
    have hcancelled : j₀.status = .cancelled := by simpa [hid] using hne
    rw [hcancelled] at hopen
    cases hopen

theorem fed_exempt {exempt : Id → Prop} {s : Shared} (h : Fed (fun _ => False) s) : Fed exempt s :=
  fun j hj hopen _ => h j hj hopen id

theorem wp_complete (i : Id) (outcome : SendOutcome) (random : Nat)
    (hregister : Register (originsOf v.shared))
    (hrow : ∀ t ∈ v.mem.inFlight, ∀ r ∈ v.shared.db.items, r.id = t.item.id →
      r.jobId = t.item.jobId)
    (h : Tended v) :
    Wp Eq (fun _ t => Owned t.shared ∧ Fed (flightJobs t) t.shared) (complete i outcome random)
      (fun _ t => Owned t.shared ∧ Fed (fun _ => False) t.shared) v := by
  have hfull : ∀ t : World, Owned t.shared ∧ Fed (fun _ => False) t.shared →
      Owned t.shared ∧ Fed (flightJobs t) t.shared := fun t ht => ⟨ht.1, fed_exempt ht.2⟩
  refine Probe.wp_complete i outcome random (hfull v ⟨h.owned, h.fed⟩)
    (fun _ => ⟨h.owned, h.fed⟩) ?_
  rintro task htask rfl
  have hbeside : ∀ t, Beside task.item.id v t →
      Owned t.shared ∧ Fed (fun k => k = task.item.jobId) t.shared ∧ task ∈ t.mem.inFlight := by
    intro t ht
    refine ⟨owned_origins h.owned ht.origins, fed_beside h.fed ht ?_, ht.flight ▸ htask⟩
    intro r hr hid
    obtain ⟨r₀, hr₀, heq⟩ := item_origin ht.origins hr
    have hid₀ : r₀.id = r.id := congrArg ItemOrigin.id heq
    have hjob₀ : r₀.jobId = r.jobId := congrArg ItemOrigin.jobId heq
    exact hjob₀.symm.trans (hrow task htask r₀ hr₀ (hid₀.trans hid))
  have hpart : ∀ t, Beside task.item.id v t → Owned t.shared ∧ Fed (flightJobs t) t.shared := by
    intro t ht
    obtain ⟨howned, hfed, hmem⟩ := hbeside t ht
    refine ⟨howned, fun j hj hopen hexempt hitems => hfed j hj hopen (fun heq => ?_) hitems⟩
    exact hexempt ⟨task, hmem, heq.symm⟩
  refine wp_seq (wp_alone (P := Beside task.item.id v) (beside_recordOutcome task outcome random)
    (fun a b ha hab => ⟨hpart b (beside_trans ha hab), beside_trans ha hab⟩)
    (beside_refl _ v)) (fun _ u hu => ?_)
  obtain ⟨howned, hfed, _⟩ := hbeside u hu
  have hregister' : Register (originsOf u.shared) := register_origins hregister hu.origins
  refine wp_settle_finish (Q := fun s => Owned s ∧ Fed (fun _ => False) s) hfull hregister'
    (hpart u hu) ?_ ?_
  · refine fun hopen => ⟨howned, fun j hj hstatus _ hitems => ?_⟩
    by_cases hid : j.id = task.item.jobId
    · exact hopen j hj hid hstatus
    · exact hfed j hj hstatus hid hitems
  · intro j hj hid hstatus hitems status hterminal w hw
    have hsettled : Owned w.shared ∧ Fed (fun _ => False) w.shared :=
      ⟨owned_milder (owned_milder howned (milder_settleJob _ hterminal u)) (milder_aside _ _ hw),
        fed_milder (fed_settleJob hfed hterminal) (milder_aside _ _ hw)⟩
    have hkeep : ∀ a b : World, Owned a.shared ∧ Fed (fun _ => False) a.shared → Milder a b →
        Owned b.shared ∧ Fed (fun _ => False) b.shared :=
      fun a b ha hab => ⟨owned_milder ha.1 hab, fed_milder ha.2 hab⟩
    refine ⟨hfull w hsettled, ?_⟩
    refine wp_alone (P := fun t => Owned t.shared ∧ Fed (fun _ => False) t.shared)
      (always_onJobSettled milder_aside _ milder_updateSchedules) (fun a b ha hab => ?_) hsettled
    exact ⟨hfull b (hkeep a b ha hab), hkeep a b ha hab⟩

theorem ends_complete (i : Id) (outcome : SendOutcome) (random : Nat) (h : Held none v) :
    Ends (complete i outcome random) (fun _ t => Held none t) v := by
  refine Probe.wp_complete i outcome random trivial (fun _ => h) ?_
  rintro task _ rfl
  have hrecorded : Ends (recordOutcome task outcome random) (fun _ u => Held (some task.item.id) u ∧
      ∀ r ∈ u.shared.db.items, r.id = task.item.id →
      r.status ∉ [ItemStatus.claimed, .running]) v := by
    refine wp_mono (fun _ u hu => ⟨hu.1, fun r hr hid => ?_⟩) (wp_and
      (ends_always (fun a b ha hab => held_beside ha hab (Or.inr rfl))
        (beside_recordOutcome task outcome random) (held_beside h (beside_refl _ v) (Or.inl rfl)))
      (Settling.ends_recordOutcome task outcome random))
    obtain hterminal | ⟨hqueued, _⟩ := hu.2 r hr hid
    · cases hstatus : r.status <;> simp_all [ItemStatus.terminal, terminalItemStatuses]
    · simp [hqueued]
  refine wp_seq hrecorded (fun _ u hu => ?_)
  have hmilder : ∀ a b : World,
      (Held (some task.item.id) a ∧ ∀ r ∈ a.shared.db.items, r.id = task.item.id →
        r.status ∉ [ItemStatus.claimed, .running]) → Milder a b → Held (some task.item.id) b ∧
      ∀ r ∈ b.shared.db.items, r.id = task.item.id → r.status ∉ [ItemStatus.claimed, .running] :=
    fun a b ha hab => ⟨held_milder ha.1 hab, hab.items ▸ ha.2⟩
  refine wp_seq (ends_always hmilder (milder_settle task.item.jobId) hu) (fun _ u hu => ?_)
  rintro _ rfl
  refine ⟨trivial, fun r hr hstatus _ hjob => ?_⟩
  have hne : r.id ≠ task.item.id := fun hid => hu.2 r hr hid hstatus
  obtain ⟨t, ht, htid⟩ := hu.1 r hr hstatus (by simpa using hne) hjob
  refine ⟨t, (List.mem_eraseP_of_neg ?_).mpr ht, htid⟩
  simpa [htid] using hne

/-- A task's job has no open item left, and it is not settled. -/
def Interrupted (v : World) : Prop :=
  ∃ t ∈ v.mem.inFlight, ∃ j ∈ v.shared.db.jobs, j.id = t.item.jobId ∧ j.status.terminal = false ∧
    ∀ r ∈ v.shared.db.items, r.jobId = j.id → r.status.terminal = true

/-- The leases of the items that are taken have run out, but for those of settled jobs. -/
def Expired (s : Shared) : Prop :=
  ∀ r ∈ s.db.items, r.status ∈ [ItemStatus.claimed, .running] →
    (∃ j ∈ s.db.jobs, j.id = r.jobId ∧ j.status.terminal = false) → stale s.now r = true

/-- No probe is wasted, no process dies between the last item of a job and its
settlement, and none is started again before the leases have run out. -/
def Careful (s : Server) (a : Action) : Prop :=
  Probes s a ∧ match a with
    | .crash c n => s.up → ¬ Interrupted (c.code.cut n s.world)
    | .restart => ¬ s.up → Expired s.world.shared
    | _ => True

instance (v : World) : Decidable (Interrupted v) :=
  inferInstanceAs (Decidable (∃ t ∈ _, ∃ j ∈ _, _ ∧ _ ∧ _))

instance (s : Shared) : Decidable (Expired s) := inferInstanceAs (Decidable (∀ r ∈ _, _ → _ → _))

instance (s : Server) : (a : Action) → Decidable (Careful s a)
  | .crash .. => inferInstanceAs (Decidable (_ ∧ (_ → ¬ Interrupted _)))
  | .restart => inferInstanceAs (Decidable (_ ∧ (_ → Expired _)))
  | .advance _ | .call _ => inferInstanceAs (Decidable (_ ∧ True))

structure Managed (s : Server) : Prop where
  steady : Steady s
  register : Register (originsOf s.world.shared)
  owned : Owned s.world.shared
  fed : Fed (fun _ => False) s.world.shared
  held : s.up → Held none s.world

section Server

variable {s : Server}

theorem tended_server (h : Managed s) (hup : s.up) : Tended s.world := ⟨h.owned, h.fed, h.held hup⟩

theorem wp_tick (hn : Distinct v.shared) (h : Tended v) :
    Wp Eq (fun _ t => Owned t.shared ∧ Fed (fun _ => False) t.shared) tick
      (fun _ t => Owned t.shared ∧ Fed (fun _ => False) t.shared) v := by
  have hticked : ∀ t, Ticked v t → Owned t.shared ∧ Fed (fun _ => False) t.shared :=
    fun t ht => ⟨owned_standing h.owned ht.standing, fed_standing h.fed ht.standing⟩
  exact wp_weaken (fun _ t ht => hticked t ht) (fun _ t ht => hticked t ht) (Standing.wp_tick hn)

theorem wp_tended {c : Call} (h : Tended v) (htick : c ≠ .tick)
    (hcomplete : ∀ i o r, c ≠ .complete i o r) :
    Wp Eq (fun _ t => Tended t) c.code (fun _ t => Tended t) v := by
  by_cases hcancel : ∃ id actor, c = .cancelJob id actor
  · obtain ⟨id, actor, rfl⟩ := hcancel
    exact (wp_bind ..).mpr (wp_cancelJob id actor h)
  · exact wp_tends (tends_call htick hcomplete (fun id actor hc => hcancel ⟨id, actor, hc⟩)) h

theorem wp_call (h : Managed s) (hup : s.up) (c : Call) :
    Wp Eq (fun _ t => Owned t.shared ∧ Fed (flightJobs t) t.shared) c.code
      (fun _ t => Owned t.shared ∧ Fed (fun _ => False) t.shared) s.world := by
  have ht := tended_server h hup
  by_cases htick : c = .tick
  · subst htick
    exact wp_weaken (fun _ _ hg => ⟨hg.1, fed_exempt hg.2⟩) (fun _ _ hq => hq)
      (wp_tick h.steady.kept.inv.1 ht)
  by_cases hcomplete : ∃ i outcome random, c = .complete i outcome random
  · obtain ⟨i, outcome, random, rfl⟩ := hcomplete
    exact wp_complete i outcome random h.register (row_of_task h.steady.kept hup) ht
  · exact wp_weaken (fun _ _ hg => ⟨hg.owned, fed_exempt hg.fed⟩) (fun _ _ hq => ⟨hq.owned, hq.fed⟩)
      (wp_tended ht htick (fun i o r hc => hcomplete ⟨i, o, r, hc⟩))

theorem held_call (h : Managed s) (hup : s.up) (c : Call) : Held none (c.code.run s.world).2 := by
  have ht := tended_server h hup
  by_cases htick : c = .tick
  · subst htick
    exact wp_run (ends_tick h.steady.kept.inv.1 ht.held)
  by_cases hcomplete : ∃ i outcome random, c = .complete i outcome random
  · obtain ⟨i, outcome, random, rfl⟩ := hcomplete
    exact wp_run (ends_complete i outcome random ht.held)
  · exact (wp_run (wp_tended ht htick (fun i o r hc => hcomplete ⟨i, o, r, hc⟩))).held

theorem fed_cut (h : Managed s) (hup : s.up) {c : Call} {n : Nat}
    (ha : ¬ Interrupted (c.code.cut n s.world)) :
    Owned (c.code.cut n s.world).shared ∧ Fed (fun _ => False) (c.code.cut n s.world).shared := by
  obtain ⟨howned, hfed⟩ := wp_cut (I := fun t => Owned t.shared ∧ Fed (flightJobs t) t.shared)
    ⟨h.owned, fed_exempt h.fed⟩ (wp_call h hup c) n
  refine ⟨howned, fun j hj hopen _ hitems => ?_⟩
  by_cases hflight : flightJobs (c.code.cut n s.world) j.id
  · obtain ⟨t, ht, hid⟩ := hflight
    by_contra hnone
    refine ha ⟨t, ht, j, hj, hid.symm, hopen, fun r hr hjob => ?_⟩
    by_contra hne
    exact hnone ⟨r, hr, hjob, by simpa using hne⟩
  · exact hfed j hj hopen hflight hitems

theorem held_boot (h : Expired v.shared) : Held none (boot v) := by
  rintro r hr hstatus _ ⟨j, hj, hid, hopen⟩
  obtain ⟨r₀, hr₀, rfl⟩ := Table.mem_update.mp hr
  by_cases hstale : stale v.shared.now r₀ = true
  · rw [if_pos hstale] at hstatus
    simp [recoveredItem] at hstatus
  · rw [if_neg hstale] at hstatus hid
    exact absurd (h r₀ hr₀ hstatus ⟨j, hj, hid, hopen⟩) hstale

theorem stocked_step (h : Managed s) {a : Action} (ha : Careful s a) :
    Owned (step s a).world.shared ∧ Fed (fun _ => False) (step s a).world.shared := by
  cases a with
  | advance ms => exact ⟨h.owned, h.fed⟩
  | call c =>
    simp only [step]
    split
    case isTrue hup => exact wp_run (wp_call h hup c)
    case isFalse => exact ⟨h.owned, h.fed⟩
  | crash c n =>
    simp only [step]
    split
    case isTrue hup => exact fed_cut h hup (ha.2 hup)
    case isFalse => exact ⟨h.owned, h.fed⟩
  | restart =>
    simp only [step]
    split
    · exact ⟨h.owned, h.fed⟩
    · have heven := even_boot s.world
      exact ⟨owned_standing h.owned heven.standing, fed_standing h.fed heven.standing⟩

theorem managed_step (h : Managed s) {a : Action} (ha : Careful s a) : Managed (step s a) := by
  obtain ⟨howned, hfed⟩ := stocked_step h ha
  refine ⟨steady_step h.steady ha.1, register_step h.register a, howned, hfed, ?_⟩
  cases a with
  | advance ms => exact h.held
  | call c =>
    simp only [step]
    split
    case isTrue hup => exact fun _ => held_call h hup c
    case isFalse => exact h.held
  | crash c n =>
    simp only [step]
    split
    · exact fun hup => absurd hup (by simp)
    · exact h.held
  | restart =>
    simp only [step]
    split
    · exact h.held
    case isFalse hdown => exact fun _ => held_boot (ha.2 hdown)

theorem managed_initial {concurrency : Nat} (hroom : 0 < concurrency) (now : Ms) :
    Managed (initial concurrency now) where
  steady := ⟨kept_initial concurrency now, hroom, fun _ => ⟨rfl, fun hhalf => by cases hhalf⟩⟩
  register := register_initial now
  owned := fun _ h => absurd h List.not_mem_nil
  fed := fun _ h => absurd h List.not_mem_nil
  held := fun _ _ h => absurd h List.not_mem_nil

theorem managed_run {concurrency : Nat} (hroom : 0 < concurrency) {now : Ms} {as : List Action}
    (h : Along Careful step (initial concurrency now) as) :
    Managed (run (initial concurrency now) as) :=
  play_invariant Managed (fun _ _ hs ha => managed_step hs ha) (managed_initial hroom now) h

end Server

end WhatsappTester.Jobs.Upkeep
