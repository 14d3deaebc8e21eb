import WhatsappTester.Jobs.Probe
import WhatsappTester.Jobs.Timetable
import WhatsappTester.Jobs.Upkeep

namespace WhatsappTester.Jobs.Removal

open Schema State Atomic Atomic.Program Atomic.Runs Atomic.Calendar Statements JobService
  Claiming Worker Ledger
open Custody Process Solo Standing Registry Uniqueness Sending Probe Settling Upkeep Course

def Closed (k : Id) (s : Shared) : Prop :=
  (∀ j ∈ s.db.jobs, j.id = k → j.status.terminal = true) ∨
    ∀ r ∈ s.db.items, r.jobId = k → r.status.terminal = true

def Over (k : Id) (v : World) : Prop :=
  (∀ j ∈ v.shared.db.jobs, j.id = k → j.status.terminal = true) ∨
    (∀ r ∈ v.shared.db.items, r.jobId = k → r.status.terminal = true) ∧
      ∀ t ∈ v.mem.inFlight, t.item.jobId ≠ k

def Elsewhere (k i : Id) (s : Shared) : Prop := ∃ r ∈ s.db.items, r.id = i ∧ r.jobId ≠ k

def Rests (k : Id) (v v' : World) : Prop :=
  k ∈ jobIds v.shared ∧ Over k v → k ∈ jobIds v'.shared ∧ Over k v'

section Rests

variable {k i : Id} {s s' : Shared} {v v' : World}

theorem over_closed (h : Over k v) : Closed k v.shared := h.imp id And.left

theorem jobs_standing (h : ∀ j ∈ s.db.jobs, j.id = k → j.status.terminal = true)
    (heq : standing s' = standing s) : ∀ j ∈ s'.db.jobs, j.id = k → j.status.terminal = true := by
  intro j hj hid
  obtain ⟨j₀, hj₀, horigin, hterminal⟩ := job_standing heq.symm hj
  have hid₀ : j₀.id = j.id := congrArg JobOrigin.id horigin
  exact hterminal.symm.trans (h j₀ hj₀ (hid₀.trans hid))

theorem items_standing (h : ∀ r ∈ s.db.items, r.jobId = k → r.status.terminal = true)
    (heq : standing s' = standing s) :
    ∀ r ∈ s'.db.items, r.jobId = k → r.status.terminal = true := by
  intro r hr hjob
  obtain ⟨r₀, hr₀, horigin, hterminal⟩ := item_standing heq.symm hr
  have hjob₀ : r₀.jobId = r.jobId := congrArg ItemOrigin.jobId horigin
  exact hterminal.symm.trans (h r₀ hr₀ (hjob₀.trans hjob))

theorem closed_standing (h : Closed k s) (heq : standing s' = standing s) : Closed k s' :=
  h.imp (fun hjobs => jobs_standing hjobs heq) (fun hitems => items_standing hitems heq)

theorem elsewhere_standing (h : Elsewhere k i s) (heq : standing s' = standing s) :
    Elsewhere k i s' := by
  obtain ⟨r, hr, hid, hjob⟩ := h
  obtain ⟨r', hr', horigin, _⟩ := item_standing heq hr
  have hid' : r'.id = r.id := congrArg ItemOrigin.id horigin
  have hjob' : r'.jobId = r.jobId := congrArg ItemOrigin.jobId horigin
  exact ⟨r', hr', hid'.trans hid, hjob' ▸ hjob⟩

theorem over_of_closed (h : Closed k v.shared) (hflight : ∀ t ∈ v.mem.inFlight, t.item.jobId ≠ k) :
    Over k v :=
  h.imp id (fun hitems => ⟨hitems, hflight⟩)

theorem rests_milder (h : Milder v v') : Rests k v v' := by
  rintro ⟨hknown, hover⟩
  refine ⟨h.ids ▸ hknown, hover.imp (fun hjobs j' hj' hid => ?_) (fun hrest => ?_)⟩
  · by_contra hopen
    obtain ⟨j, hj, hid', hopen'⟩ := h.jobs j' hj' (by simpa using hopen)
    rw [hjobs j hj (hid'.trans hid)] at hopen'
    cases hopen'
  · rw [h.items, h.flight]
    exact hrest

theorem rests_aside : Lenient (Rests k) := fun v v' h => rests_milder (milder_aside v v' h)

theorem rests_updateSchedules (p : Schedule → Bool) (f : Schedule → Schedule) :
    Always (Rests k) (updateSchedules p f) :=
  always_mono (fun _ _ => rests_milder) (milder_updateSchedules p f)

theorem rests_insertJobAndItems (id : Id) (now : Ms) (a : CreateJobArgs) :
    Always (Rests k) (insertJobAndItems id now a) := by
  refine always_update _ (fun v h => ?_)
  cases htransaction : createTransaction id now a v.shared.uuid v.shared.db with
  | error err => exact h
  | ok db =>
    obtain ⟨rfl, hfresh, _⟩ := createTransaction_ok htransaction
    obtain ⟨hknown, hover⟩ := h
    have hne : id ≠ k := by
      rintro rfl
      obtain ⟨j, hj, hid⟩ := List.mem_map.mp hknown
      exact hfresh j hj hid
    refine ⟨?_, hover.imp (fun hjobs j hj hid => ?_)
      (fun ⟨hitems, hflight⟩ => ⟨fun r hr hjob => ?_, hflight⟩)⟩
    · simp only [jobIds, List.map_append, List.mem_append]
      exact Or.inl hknown
    · obtain hj | hj := List.mem_append.mp hj
      · exact hjobs j hj hid
      · rw [List.mem_singleton] at hj
        subst hj
        exact absurd hid hne
    · obtain hr | hr := List.mem_append.mp hr
      · exact hitems r hr hjob
      · exact absurd ((mem_newItems hr).1.symm.trans hjob) hne

theorem rests_callCreateJob (a : CreateJobArgs) : Always (Rests k) (callCreateJob a) := by
  refine always_callCreateJob rests_aside.tolerant a
    (fun id now => rests_insertJobAndItems id now a) ?_
  intro result v
  cases result <;> exact rests_milder (milder_of_jobs rfl rfl rfl)

theorem rests_cancelJob (id : Id) (actor : Option String) :
    Always (Rests k) (cancelJob id actor) := by
  refine always_cancelJob rests_aside.tolerant id actor (fun now => ?_) (fun now => ?_)
  · exact always_mono (fun _ _ => rests_milder) (milder_settledJob _ rfl now)
  · refine always_update _ (fun v ⟨hknown, hover⟩ => ⟨hknown, hover.imp (fun hjobs => hjobs) ?_⟩)
    rintro ⟨hitems, hflight⟩
    refine ⟨fun r hr hjob => ?_, hflight⟩
    obtain ⟨r₀, hr₀, rfl⟩ := Table.mem_update.mp hr
    split
    · rfl
    case isFalse hkept =>
      rw [if_neg hkept] at hjob
      exact hitems r₀ hr₀ hjob

theorem rests_call {c : Call} (htick : c ≠ .tick) (hcomplete : ∀ i o r, c ≠ .complete i o r) :
    Always (Rests k) c.code := by
  have hmilder : ∀ {p : Code Unit}, Always Milder p → Always (Rests k) p :=
    fun h => always_mono (fun _ _ => rests_milder) h
  have hweb : ∀ {p : Code Unit}, Always Web p → Always (Rests k) p :=
    fun h => hmilder (always_mono (fun _ _ => milder_web) h)
  cases c with
  | tick => exact absurd rfl htick
  | complete i o r => exact absurd rfl (hcomplete i o r)
  | createJob args => exact always_bind (rests_callCreateJob args) (fun _ => always_pure ())
  | cancelJob id actor => exact always_bind (rests_cancelJob id actor) (fun _ => always_pure ())
  | pauseJob id actor =>
    exact hmilder (always_bind (milder_pauseJob id actor) (fun _ => always_pure ()))
  | resumeJob id actor =>
    exact hmilder (always_bind (milder_resumeJob id actor) (fun _ => always_pure ()))
  | createSchedule input =>
    exact hmilder (always_create milder_aside.tolerant input
      (fun _ _ _ => always_exec (fun _ => milder_of_jobs rfl rfl rfl)))
  | removeSchedule id => exact hmilder (always_exec (fun _ => milder_of_jobs rfl rfl rfl))
  | runTickIfReady ready =>
    exact always_runTickIfReady rests_aside.tolerant rests_callCreateJob rests_updateSchedules ready
  | setOutboundDisabled disabled actor reason => exact hweb (web_setOutboundDisabled _ _ _ _)
  | drainAndStop => exact hmilder (always_exec (fun _ => milder_of_jobs rfl rfl rfl))
  | request r ready => exact hweb (web_request r ready)
  | answered id answer ready => exact hweb (web_answered id answer ready)
  | delayOver id ready => exact hweb (web_delayOver id ready)
  | sweepExpiredIdempotencyKeys => exact hweb web_sweepExpiredIdempotencyKeys

end Rests

section Calls

variable {k i : Id} {v u : World}

theorem claimed_elsewhere (h : Closed k v.shared) {row : JobItem}
    (hrow : nextClaimable v.shared.db v.shared.now = some row) :
    row ∈ v.shared.db.items ∧ row.jobId ≠ k := by
  obtain ⟨hmem, hclaimable⟩ := nextClaimable_mem hrow
  obtain ⟨j, hj, hid, hstatus⟩ := claimable_job hclaimable
  refine ⟨hmem, fun hjob => ?_⟩
  obtain hjobs | hitems := h
  · have hterminal := hjobs j hj (hid.trans hjob)
    simp only [List.mem_cons, List.not_mem_nil, or_false] at hstatus
    obtain hstatus | hstatus := hstatus <;> rw [hstatus] at hterminal <;> cases hterminal
  · have hterminal := hitems row hmem hjob
    rw [claimable_queued hclaimable] at hterminal
    cases hterminal

theorem over_round {row : JobItem} (h : Over k v) (hround : Round row v u) : Over k u := by
  have hstanding := hround.ticked.standing
  obtain ⟨_, hne⟩ := claimed_elsewhere (over_closed h) hround.claimed
  refine h.imp (fun hjobs => jobs_standing hjobs hstanding)
    (fun ⟨hitems, hflight⟩ => ⟨items_standing hitems hstanding, ?_⟩)
  intro t ht
  rw [hround.flight] at ht
  obtain ht | ht := List.mem_append.mp ht
  · exact hflight t ht
  · rw [List.mem_singleton] at ht
    subst ht
    exact hne

theorem over_tickLoop (rounds : Nat) (hn : Distinct v.shared) (h : Over k v) :
    Ends (tickLoop rounds) (fun _ u => Over k u ∧
      ∃ new, sends u.shared = new ++ sends v.shared ∧ ∀ i ∈ new, Elsewhere k i v.shared) v := by
  induction rounds generalizing v with
  | zero => exact ⟨h, [], rfl, fun _ hi => absurd hi List.not_mem_nil⟩
  | succ rounds ih =>
    refine ends_tickLoop hn (fun _ => ⟨h, [], rfl, fun _ hi => absurd hi List.not_mem_nil⟩)
      (fun _ _ => ⟨h, [], rfl, fun _ hi => absurd hi List.not_mem_nil⟩) (fun row u _ hround => ?_)
    refine wp_mono (fun _ t ht => ?_) (ih hround.distinct (over_round h hround))
    obtain ⟨hover, new, hnew, helsewhere⟩ := ht
    refine ⟨hover, new ++ [row.id], ?_, fun i hi => ?_⟩
    · rw [hnew, hround.sends, List.append_assoc, List.singleton_append]
    · obtain hi | hi := List.mem_append.mp hi
      · exact elsewhere_standing (helsewhere i hi) hround.ticked.standing.symm
      · rw [List.mem_singleton] at hi
        subst hi
        obtain ⟨hmem, hne⟩ := claimed_elsewhere (over_closed h) hround.claimed
        exact ⟨row, hmem, rfl, hne⟩

theorem over_tick (hn : Distinct v.shared) (h : Over k v) : Ends tick (fun _ u => Over k u ∧
    ∃ new, sends u.shared = new ++ sends v.shared ∧ ∀ i ∈ new, Elsewhere k i v.shared) v :=
  ends_tick (fun _ => ⟨h, [], rfl, fun _ hi => absurd hi List.not_mem_nil⟩)
    (fun _ _ => over_tickLoop _ hn h)

theorem over_beside (h : Over k v) (hb : Beside i v u) {t : Task} (ht : t ∈ v.mem.inFlight)
    (hid : t.item.id = i) (hrow : ∀ r ∈ v.shared.db.items, r.id = i → r.jobId = t.item.jobId) :
    Over k u := by
  refine h.imp (fun hjobs j' hj' hid' => ?_) (fun ⟨hitems, hflight⟩ => ⟨fun r hr hjob => ?_, ?_⟩)
  · obtain ⟨j, hj, hid, hterminal⟩ := job_beside hb hj'
    exact hterminal.symm.trans (hjobs j hj (hid.trans hid'))
  · refine hitems r ((mem_beside hb ?_).mp hr) hjob
    rintro rfl
    obtain ⟨r₀, hr₀, heq⟩ := item_origin hb.origins hr
    have hid₀ : r₀.id = r.id := congrArg ItemOrigin.id heq
    have hjob₀ : r₀.jobId = r.jobId := congrArg ItemOrigin.jobId heq
    exact hflight t ht ((hrow r₀ hr₀ hid₀).symm.trans (hjob₀.trans hjob))
  · rw [hb.flight]
    exact hflight

theorem over_complete (i : Id) (outcome : SendOutcome) (random : Nat) (hrow : ∀ t ∈ v.mem.inFlight,
    ∀ r ∈ v.shared.db.items, r.id = t.item.id →
    r.jobId = t.item.jobId) (hknown : k ∈ jobIds v.shared)
    (h : Over k v) : Wp Eq (fun _ t => k ∈ jobIds t.shared ∧ Over k t) (complete i outcome random)
      (fun _ t => k ∈ jobIds t.shared ∧ Over k t) v := by
  refine Probe.wp_complete i outcome random ⟨hknown, h⟩ (fun _ => ⟨hknown, h⟩) ?_
  rintro task htask rfl
  have hbeside : ∀ u, Beside task.item.id v u → k ∈ jobIds u.shared ∧ Over k u := by
    refine fun u hb => ⟨?_, over_beside h hb htask rfl (hrow task htask)⟩
    rw [jobIds_of_origins hb.origins]
    exact hknown
  refine wp_seq (wp_alone (P := fun u => Beside task.item.id v u)
    (beside_recordOutcome task outcome random)
    (fun a b ha hab => ⟨hbeside b (beside_trans ha hab), beside_trans ha hab⟩) (beside_refl _ v))
    (fun _ u hb => ?_)
  refine wp_seq (wp_alone (P := fun u => k ∈ jobIds u.shared ∧ Over k u)
    (milder_settle task.item.jobId)
    (fun a b ha hab => ⟨rests_milder hab ha, rests_milder hab ha⟩) (hbeside u hb)) ?_
  rintro _ u ⟨hknown, hover⟩ _ rfl
  have hafter : k ∈ jobIds u.shared ∧ Over k { u with
      mem.semaphore := Breaker.release u.mem.semaphore
      mem.inFlight := u.mem.inFlight.eraseP (fun t => decide (t.item.id = task.item.id)) } :=
    ⟨hknown, hover.imp id (fun ⟨hitems, hflight⟩ =>
      ⟨hitems, fun t ht => hflight t (List.mem_of_mem_eraseP ht)⟩)⟩
  exact ⟨hafter, hafter⟩

end Calls

def Keeps (v v' : World) : Prop :=
  ∀ r ∈ v.shared.db.items, ∃ r' ∈ v'.shared.db.items, itemOrigin r' = itemOrigin r

section Keeps

variable {k i : Id} {v v' : World}

theorem keeps_origins (h : origins v' = origins v) : Keeps v v' := fun _ hr => item_origin h.symm hr

theorem keeps_trans {u v w : World} (h : Keeps u v) (h' : Keeps v w) : Keeps u w := by
  intro r hr
  obtain ⟨r', hr', heq⟩ := h r hr
  obtain ⟨r'', hr'', heq'⟩ := h' r' hr'
  exact ⟨r'', hr'', heq'.trans heq⟩

theorem keeps_aside : Lenient Keeps := fun _ _ h => keeps_origins (write_of_aside h).origins

theorem keeps_callCreateJob (a : CreateJobArgs) : Always Keeps (callCreateJob a) := by
  refine always_callCreateJob keeps_aside.tolerant a
    (fun id now => always_update _ (fun v => ?_)) ?_
  · cases htransaction : createTransaction id now a v.shared.uuid v.shared.db with
    | error err => exact keeps_origins rfl
    | ok db =>
      obtain ⟨rfl, _⟩ := createTransaction_ok htransaction
      exact fun r hr => ⟨r, List.mem_append_left _ hr, rfl⟩
  · intro result v r hr
    cases result <;> exact ⟨r, hr, rfl⟩

theorem keeps_call (c : Call) : Always Keeps c.code := by
  obtain hweb | hwrite | ⟨args, rfl⟩ | ⟨ready, rfl⟩ := call_kinds c
  · exact always_mono (fun _ _ h => keeps_origins (web_origins h)) hweb
  · exact always_mono (fun _ _ h => keeps_origins h.origins) hwrite
  · exact always_bind (keeps_callCreateJob args) (fun _ => always_pure ())
  · exact always_runTickIfReady keeps_aside.tolerant keeps_callCreateJob
      (fun p f => always_update _ (fun _ => keeps_origins rfl)) ready

theorem keeps_step (s : Server) (a : Action) : Keeps s.world (step s a).world := by
  refine step_keeps (I := fun t => Keeps s.world t) (fun c _ => ?_) ?_ ?_ ?_ (keeps_origins rfl)
  · exact wp_alone (keeps_call c) (fun a b ha hab => ⟨keeps_trans ha hab, keeps_trans ha hab⟩)
      (keeps_origins rfl)
  · exact fun v ms hv => hv
  · exact fun v hv => hv
  · intro v hv
    exact keeps_trans hv (keeps_origins (write_boot v).origins)

theorem elsewhere_keeps (h : Elsewhere k i v.shared) (hk : Keeps v v') :
    Elsewhere k i v'.shared := by
  obtain ⟨r, hr, hid, hjob⟩ := h
  obtain ⟨r', hr', horigin⟩ := hk r hr
  have hid' : r'.id = r.id := congrArg ItemOrigin.id horigin
  have hjob' : r'.jobId = r.jobId := congrArg ItemOrigin.jobId horigin
  exact ⟨r', hr', hid'.trans hid, hjob' ▸ hjob⟩

end Keeps

/-- A job for which nothing is left to do, and of which nothing was sent since `base`. -/
structure Done (k : Id) (base : List Id) (s : Server) : Prop where
  kept : Kept s
  known : k ∈ jobIds s.world.shared
  closed : Closed k s.world.shared
  rest : s.up → Over k s.world
  sends : ∃ new, sends s.world.shared = new ++ base ∧ ∀ i ∈ new, Elsewhere k i s.world.shared

section Server

variable {k : Id} {base : List Id} {s : Server}

theorem over_call (h : Done k base s) (hup : s.up) {c : Call} (htick : c ≠ .tick) :
    Wp Eq (fun _ t => k ∈ jobIds t.shared ∧ Over k t) c.code
      (fun _ t => k ∈ jobIds t.shared ∧ Over k t) s.world := by
  by_cases hcomplete : ∃ i outcome random, c = .complete i outcome random
  · obtain ⟨i, outcome, random, rfl⟩ := hcomplete
    exact over_complete i outcome random (row_of_task h.kept hup) h.known (h.rest hup)
  · exact wp_alone (rests_call htick (fun i o r hc => hcomplete ⟨i, o, r, hc⟩))
      (fun a b ha hab => ⟨hab ha, hab ha⟩) ⟨h.known, h.rest hup⟩

theorem sends_call (h : Done k base s) (hup : s.up) (c : Call) : ∃ new,
    sends (c.code.run s.world).2.shared = new ++ sends s.world.shared ∧
    ∀ i ∈ new, Elsewhere k i s.world.shared := by
  by_cases htick : c = .tick
  · subst htick
    exact (wp_run (over_tick h.kept.inv.1 (h.rest hup))).2
  · refine ⟨[], ?_, fun _ hi => absurd hi List.not_mem_nil⟩
    exact always_run (T := Unsent) (fun _ => rfl) (fun _ _ _ => unsent_trans)
      (unsent_call htick) s.world

theorem sends_step (h : Done k base s) (a : Action) : ∃ new,
    sends (step s a).world.shared = new ++ sends s.world.shared ∧
    ∀ i ∈ new, Elsewhere k i s.world.shared := by
  have hnone : ∀ {t : Shared}, sends t = sends s.world.shared → ∃ new,
      sends t = new ++ sends s.world.shared ∧ ∀ i ∈ new, Elsewhere k i s.world.shared :=
    fun ht => ⟨[], ht, fun _ hi => absurd hi List.not_mem_nil⟩
  cases a with
  | advance ms => exact hnone rfl
  | call c =>
    simp only [step]
    split
    case isTrue hup => exact sends_call h hup c
    case isFalse => exact hnone rfl
  | crash c n =>
    simp only [step]
    split
    case isTrue hup =>
      obtain ⟨new, hnew, helsewhere⟩ := sends_call h hup c
      obtain ⟨new', hsuffix, hnew'⟩ := sends_cut (n := n) hnew
      exact ⟨new', hnew', fun i hi => helsewhere i (hsuffix.subset hi)⟩
    case isFalse => exact hnone rfl
  | restart =>
    simp only [step]
    split
    · exact hnone rfl
    · exact hnone (unsent_boot s.world)

theorem done_call (h : Done k base s) (hup : s.up) (c : Call) (n : Nat) :
    (k ∈ jobIds (c.code.run s.world).2.shared ∧ Over k (c.code.run s.world).2) ∧
      k ∈ jobIds (c.code.cut n s.world).shared ∧ Closed k (c.code.cut n s.world).shared := by
  by_cases htick : c = .tick
  · subst htick
    have horigins : ∀ {w : World}, Write s.world w → k ∈ jobIds w.shared := by
      intro w hw
      rw [jobIds_of_origins hw.origins]
      exact h.known
    have hwrite : ∀ u, Write u u := fun u => (itemless_refl u).toWrite
    refine ⟨⟨horigins ?_, (wp_run (over_tick h.kept.inv.1 (h.rest hup))).1⟩, horigins ?_, ?_⟩
    · exact always_run hwrite (fun _ _ _ => write_trans) write_tick s.world
    · exact always_cut hwrite (fun _ _ _ => write_trans) write_tick s.world n
    · have hticked : Ticked s.world (Call.tick.code.cut n s.world) :=
        wp_cut (I := fun t => Ticked s.world t) (ticked_of_even (even_refl _))
          (Standing.wp_tick h.kept.inv.1) n
      exact closed_standing h.closed hticked.standing
  · have hcall := over_call h hup htick
    obtain ⟨hknown, hover⟩ :=
      wp_cut (I := fun t => k ∈ jobIds t.shared ∧ Over k t) ⟨h.known, h.rest hup⟩ hcall n
    exact ⟨wp_run hcall, hknown, over_closed hover⟩

theorem done_step (h : Done k base s) (a : Action) : Done k base (step s a) := by
  have hkept := kept_step h.kept a
  have hsends : ∃ new, sends (step s a).world.shared = new ++ base ∧
      ∀ i ∈ new, Elsewhere k i (step s a).world.shared := by
    obtain ⟨new, hnew, helsewhere⟩ := h.sends
    obtain ⟨new', hnew', helsewhere'⟩ := sends_step h a
    refine ⟨new' ++ new,
      by rw [hnew', hnew, List.append_assoc], fun i hi => elsewhere_keeps ?_ (keeps_step s a)⟩
    obtain hi | hi := List.mem_append.mp hi
    · exact helsewhere' i hi
    · exact helsewhere i hi
  cases a with
  | advance ms => exact ⟨hkept, h.known, h.closed, h.rest, hsends⟩
  | call c =>
    by_cases hup : s.up
    · obtain ⟨⟨hknown, hover⟩, _⟩ := done_call h hup c 0
      have hworld : (step s (.call c)).world = (c.code.run s.world).2 := by
        simp only [step, hup, ↓reduceIte]
      rw [← hworld] at hknown hover
      exact ⟨hkept, hknown, over_closed hover, fun _ => hover, hsends⟩
    · rwa [step_call_down hup c]
  | crash c n =>
    by_cases hup : s.up
    · obtain ⟨_, hknown, hclosed⟩ := done_call h hup c n
      have hdown : (step s (.crash c n)).up = false := by simp [step, hup]
      have hdb : (step s (.crash c n)).world.shared.db = (c.code.cut n s.world).shared.db := by
        simp [step, hup, die]
      refine ⟨hkept, ?_, ?_, fun hup' => absurd hup' (by simp [hdown]), hsends⟩
      · rwa [jobIds, hdb]
      · rwa [Closed, hdb]
    · rwa [step_crash_down hup c n]
  | restart =>
    by_cases hup : s.up
    · rwa [step_restart_up hup]
    · have hboot := step_restart hup
      have heven := even_boot s.world
      have hclosed : Closed k (boot s.world).shared := closed_standing h.closed heven.standing
      have hidle : (boot s.world).mem.inFlight = [] := heven.flight
      rw [hboot] at hkept hsends ⊢
      refine ⟨hkept, ?_, hclosed, fun _ => over_of_closed hclosed (fun t ht => ?_), hsends⟩
      · rw [jobIds_of_origins (write_boot s.world).origins]
        exact h.known
      · rw [hidle] at ht
        exact absurd ht List.not_mem_nil

/-- Nothing more is sent of a job for which nothing is left to do. -/
theorem nothing_sent (hkept : Kept s) (hknown : k ∈ jobIds s.world.shared) (hover : Over k s.world)
    (as : List Action) :
    let t := run s as
    ∀ r ∈ t.world.shared.db.items, r.jobId = k → r.id ∉ started s.world.shared t.world.shared := by
  intro t r hr hjob hsent
  have hdone : Done k (sends s.world.shared) t :=
    play_invariant_all (Done k (sends s.world.shared)) (fun _ a h => done_step h a)
      ⟨hkept, hknown, over_closed hover, fun _ => hover, [], rfl,
        fun _ hi => absurd hi List.not_mem_nil⟩ as
  obtain ⟨new, hnew, helsewhere⟩ := hdone.sends
  rw [started_eq hnew] at hsent
  obtain ⟨r', hr', hid, hne⟩ := helsewhere r.id hsent
  rw [Table.eq_of_key hdone.kept.inv.1 hr' hr hid] at hne
  exact hne hjob

end Server

/-- Every job of a schedule is settled, or has neither an open item nor a task in flight. -/
def AtRest (id : String) (v : World) : Prop :=
  ∀ j ∈ v.shared.db.jobs, ofSchedule id j = true → j.status.terminal = true ∨
    (∀ r ∈ v.shared.db.items, r.jobId = j.id → r.status.terminal = true) ∧
      ∀ t ∈ v.mem.inFlight, t.item.jobId ≠ j.id

instance (id : String) (v : World) : Decidable (AtRest id v) :=
  inferInstanceAs (Decidable (∀ j ∈ v.shared.db.jobs, _ → _))

section Schedule

variable {n : Nat} {s : Server}

theorem over_of_atRest {id : String} {v : World} (hregister : Register (originsOf v.shared))
    (h : AtRest id v) {j : Job} (hj : j ∈ v.shared.db.jobs) (hof : ofSchedule id j = true) :
    Over j.id v := by
  refine (h j hj hof).imp (fun hterminal j' hj' hid => ?_) (fun hrest => hrest)
  rwa [Table.eq_of_key (jobs_nodup hregister) hj' hj hid]

theorem jobsOf_origins {d : Diary JobOrigin Terms Ms} {v : Shared} (h : Course.Shows n v d) :
    (jobsOf (toString n) v).map jobOrigin = d.past.map (·.work) := by
  have := congrArg (List.map Chronicle.origin) h.past
  simpa only [List.map_map, Function.comp_def, chronicle, entry] using this

theorem removed_charted (h : Charted n (fun _ => True) s) (hup : s.up) :
    Charted n (Withdrawn ((jobsOf (toString n) s.world.shared).map jobOrigin))
      (step s (.call (.removeSchedule (toString n)))) := by
  have hcharted : Charted n (fun _ => True) (step s (.call (.removeSchedule (toString n)))) :=
    charted_step (fun _ _ _ _ _ => trivial) h (fun c hc => by cases hc; trivial)
      (fun _ _ _ _ _ => trivial)
  refine ⟨hcharted.register, hcharted.course.dated, ?_⟩
  obtain ⟨d, hshows, horder, _⟩ := hcharted.course.diary
  refine ⟨d, hshows, horder, ?_, ?_⟩
  · rw [← jobsOf_origins hshows]
    simp only [step, hup, ↓reduceIte]
    rfl
  · have hnone : (step s (.call (.removeSchedule (toString n)))).world.shared.db.schedule
        (toString n) = none := by
      simp only [step, hup, ↓reduceIte]
      exact Table.find_none.mpr (fun row hrow => of_decide_eq_true (List.mem_filter.mp hrow).2)
    rw [hshows.plan, hnone]
    rfl

theorem nothing_sent_of_schedule (h : Charted n (fun _ => True) s) (hkept : Kept s) (hup : s.up)
    (hn : n < s.world.shared.uuid) (hrest : AtRest (toString n) s.world) {as : List Action}
    (has : ∀ a ∈ as, Genuine a) :
    let s' := step s (.call (.removeSchedule (toString n)))
    let t := run s' as
    ∀ j ∈ t.world.shared.db.jobs, ofSchedule (toString n) j = true →
      ∀ r ∈ t.world.shared.db.items, r.jobId = j.id →
      r.id ∉ started s'.world.shared t.world.shared := by
  intro s' t j hj hof r hr hjob
  have huuid : n < s'.world.shared.uuid := Nat.lt_of_lt_of_le hn (uuid_step s _)
  have hend : Charted n _ t :=
    charted_run (fun _ _ _ hs hK => withdrawn_step hK hs) (removed_charted h hup) huuid has
  obtain ⟨d, hshows, _, hworks, _⟩ := hend.course.diary
  rw [← jobsOf_origins hshows] at hworks
  have horigin : jobOrigin j ∈ (jobsOf (toString n) s.world.shared).map jobOrigin :=
    hworks ▸ List.mem_map_of_mem (List.mem_filter.mpr ⟨hj, hof⟩)
  obtain ⟨j₀, hj₀, heq⟩ := List.mem_map.mp horigin
  obtain ⟨hmem₀, hof₀⟩ := List.mem_filter.mp hj₀
  have hid : j₀.id = j.id := congrArg JobOrigin.id heq
  have hrests := always_run (T := Rests j₀.id) (fun _ hu => hu) (fun _ _ _ hu hu' hr => hu' (hu hr))
    (rests_call (c := .removeSchedule (toString n)) (by simp) (by simp)) s.world
  obtain ⟨hknown, hover⟩ :=
    hrests ⟨List.mem_map_of_mem hmem₀, over_of_atRest h.register hrest hmem₀ hof₀⟩
  have hworld : s'.world = ((Call.removeSchedule (toString n)).code.run s.world).2 := by
    simp only [s', step, hup, ↓reduceIte]
  rw [← hworld] at hknown hover
  exact nothing_sent (kept_step hkept _) hknown hover as r hr (hjob.trans hid.symm)

end Schedule

/-- After a schedule at rest was removed, nothing more is sent of any of its jobs. -/
theorem no_send_after_removal (concurrency : Nat) (now : Ms) (as bs : List Action)
    (h : ∀ a ∈ as ++ bs, Genuine a) (id : String) :
    let s := run (initial concurrency now) as
    let s' := step s (.call (.removeSchedule id))
    let t := run s' bs
    s.up → (s.world.shared.db.schedule id).isSome → AtRest id s.world →
      ∀ j ∈ t.world.shared.db.jobs, ofSchedule id j = true →
        ∀ r ∈ t.world.shared.db.items, r.jobId = j.id →
        r.id ∉ started s'.world.shared t.world.shared := by
  intro s s' t hup hrow hrest
  obtain ⟨has, hbs⟩ := List.forall_mem_append.mp h
  have hcharted := fun n => charted_initial n concurrency now has
  obtain ⟨row, hfind⟩ := Option.isSome_iff_exists.mp hrow
  obtain ⟨hmem, rfl⟩ := Table.find_mem hfind
  obtain ⟨n, hn, hname⟩ := (hcharted 0).course.dated.named row hmem
  have hkept : Kept s :=
    play_invariant_all Kept (fun _ a hs => kept_step hs a) (kept_initial concurrency now) as
  simp only [s', t, hname] at hrest ⊢
  exact nothing_sent_of_schedule (hcharted n) hkept hup hn hrest hbs

def firedOnce : List Action :=
  [.call (.createSchedule (Timetable.everyMinute 0 none)), .call (.runTickIfReady true)]

/-- The schedule is removed before its first send. -/
theorem no_send_after_removal_fails :
    let s := run (initial 1 0) firedOnce
    let s' := step s (.call (.removeSchedule "0"))
    let t := run s' [.call .tick]
    (s.world.shared.db.schedule "0").isSome ∧ s'.world.shared.db.schedules = [] ∧
      ∃ j ∈ t.world.shared.db.jobs, ofSchedule "0" j = true ∧
        ∃ r ∈ t.world.shared.db.items, r.jobId = j.id ∧
        r.id ∈ started s'.world.shared t.world.shared := by
  decide +kernel

/-- The schedule is removed after its first occurrence. -/
theorem no_send_after_removal_settled :
    let s :=
      run (initial 1 0) (firedOnce ++
        [.call .tick, .call (.complete 2 (.results [(.sent, none)]) 0)])
    let s' := step s (.call (.removeSchedule "0"))
    let t := run s' [.advance 60000, .call (.runTickIfReady true), .call .tick]
    ∀ j ∈ t.world.shared.db.jobs, ofSchedule "0" j = true →
      ∀ r ∈ t.world.shared.db.items, r.jobId = j.id →
      r.id ∉ started s'.world.shared t.world.shared :=
  no_send_after_removal 1 0 _ _ (by decide +kernel) "0" (by decide +kernel) (by decide +kernel)
    (by decide +kernel)

end WhatsappTester.Jobs.Removal
