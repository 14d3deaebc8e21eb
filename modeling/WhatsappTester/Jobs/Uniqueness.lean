import WhatsappTester.Jobs.Registry

namespace WhatsappTester.Jobs.Uniqueness

open Schema State Atomic.Program Atomic.Runs Atomic.Interleaving Statements JobService
  Registry Cluster

theorem meets_work (w : Nat) (work : Work) : contract.Meets w work.code := by
  intro v h
  have hquiet : ∀ {p : Code Unit}, Always Quiet p → Conduct w p (fun _ v => v.mem.pid = w) v :=
    fun hp => wp_quiet local_pid hp h
  cases work with
  | recover =>
    refine hquiet (always_mono (fun _ _ => quiet_write) ?_)
    exact always_bind write_recoverStaleClaims (fun _ => always_pure ())
  | call c =>
    obtain hweb | hwrite | ⟨args, rfl⟩ | ⟨ready, rfl⟩ := call_kinds c
    · exact hquiet (always_mono (fun _ _ => quiet_web) hweb)
    · exact hquiet (always_mono (fun _ _ => quiet_write) hwrite)
    · exact wp_seq (wp_callCreateJob h) (fun _ _ h => h)
    · have hread : ∀ {α : Type} (f : World → α) {v : World}, v.mem.pid = w →
          Conduct w (query f) (fun _ v => v.mem.pid = w) v :=
        fun f _ hv => wp_quiet local_pid (always_read quiet_aside.tolerant f) hv
      change Conduct w (Scheduler.runTickIfReady ready) _ v
      simp only [Scheduler.runTickIfReady]
      split
      · exact h
      · refine wp_seq (hread _ h) (fun now v h => ?_)
        refine wp_seq (hread _ h) (fun rows v h => wp_each rows ?_ h)
        intro row _ v h
        refine wp_seq (wp_callCreateJob h) (fun result v h => ?_)
        cases result with
        | error err => exact h
        | ok result =>
          refine wp_seq (hread _ h) (fun now v h => ?_)
          refine wp_quiet local_pid (always_mono (fun _ _ => quiet_itemless) ?_) h
          exact always_bind (itemless_updateSchedules _ _) (fun _ => always_pure ())

theorem register_initial (now : Ms) : Register (originsOf { now := now }) where
  ids := List.nodup_nil
  keys := fun _ h => absurd h List.not_mem_nil
  owned := fun _ h => absurd h List.not_mem_nil
  inserted := fun _ h => absurd h List.not_mem_nil
  filed := fun _ _ _ h => absurd h List.not_mem_nil
  once := List.nodup_nil
  created := List.nodup_nil
  returned := fun _ _ _ h => absurd h List.not_mem_nil

theorem honoured_step {C : Processes} (h : contract.Honoured C) (a : Step) :
    contract.Honoured (rules.step C a) := by
  have hsame : ∀ {p : Nat → Prop} {s s' : Shared}, originsOf s' = originsOf s →
      Contract.Safe (fun _ _ => True) contract p s s' := by
    intro p s s' heq hinv
    refine ⟨trivial, ?_, fun u _ => ?_⟩
    · change Register (originsOf s')
      rwa [heq]
    · change Grows u (originsOf s) (originsOf s')
      rw [heq]
      exact Grows.refl u _
  refine (Contract.honoured_step (T := fun _ _ => True) meets_work (fun _ => trivial)
    (fun _ _ _ hguar _ => ⟨trivial, hguar⟩) (fun _ _ => hsame rfl) ?_ (fun _ _ => hsame rfl) h a).2
  exact fun _ _ _ => rfl

theorem register_run (concurrency : Nat → Nat) (now : Ms) (as : List Step) :
    Register (originsOf (run (initial concurrency now) as).shared) := by
  have hinitial : contract.Honoured (initial concurrency now) :=
    ⟨register_initial now, fun _ => rfl⟩
  exact (play_invariant_all contract.Honoured (fun C a hC => honoured_step hC a) hinitial as).inv

theorem register_step {s : Process.Server} (h : Register (originsOf s.world.shared))
    (a : Process.Action) :
    Register (originsOf (Process.step s a).world.shared) := by
  have halone : ∀ c : Process.Call, Wp Eq (fun _ t => contract.inv t.shared ∧ True) c.code
      (fun _ t => contract.idle s.world.mem.pid t ∧ contract.inv t.shared ∧ True) s.world := by
    intro c
    have hkept : ∀ t t', contract.inv t → True → contract.guar s.world.mem.pid t t' →
        contract.inv t' ∧ True :=
      fun _ _ _ _ hguar => ⟨hguar.1, trivial⟩
    exact Contract.alone hkept ⟨h, trivial⟩ (meets_work s.world.mem.pid (.call c) s.world rfl)
  cases a with
  | advance ms => exact h
  | call c =>
    simp only [Process.step]
    split
    · exact (wp_run (halone c)).2.1
    · exact h
  | crash c n =>
    simp only [Process.step]
    split
    · exact (wp_cut (I := fun t : World => contract.inv t.shared ∧ True) ⟨h, trivial⟩
        (halone c) n).1
    · exact h
  | restart =>
    simp only [Process.step]
    split
    · exact h
    · have heq : originsOf (Process.boot s.world).shared = originsOf s.world.shared :=
        (write_boot s.world).origins
      rwa [heq]

def rowContents (s : Shared) (id : Id) : List Content :=
  (s.db.itemsOf id).map (fun r => (r.seq, r.recipientNumber, r.recipientName, r.message))

def createdWith (k : String) : Event → Bool
  | .createReturned _ a r => decide (a.idempotencyKey = some k ∧ r.created = true)
  | _ => false

def jobsWith (k : String) (s : Shared) : List Job :=
  s.db.jobs.filter (fun j => decide (j.idempotencyKey = some k))

section Register

variable {s : Shared}

theorem rowContents_eq (id : Id) : rowContents s id = (itemsOf (originsOf s) id).map content := by
  simp only [rowContents, itemsOf, originsOf, Db.itemsOf, List.filter_map, List.map_map]
  rfl

theorem mem_events {e : Event} (he : isCreation e) : e ∈ (originsOf s).events ↔ e ∈ s.trace := by
  simp [originsOf, he]

theorem job_of_origin {o : JobOrigin} (ho : o ∈ (originsOf s).jobs) :
    ∃ j ∈ s.db.jobs, jobOrigin j = o :=
  List.mem_map.mp ho

theorem eq_of_key (h : Register (originsOf s)) {j j' : Job} (hj : j ∈ s.db.jobs)
    (hj' : j' ∈ s.db.jobs) {k : String} (hk : j.idempotencyKey = some k)
    (hk' : j'.idempotencyKey = some k) : j = j' := by
  have horigin : jobOrigin j = jobOrigin j' :=
    h.keys _ (List.mem_map_of_mem hj) _ (List.mem_map_of_mem hj') (by simp [jobOrigin, hk])
      (hk.trans hk'.symm)
  exact Atomic.Table.eq_of_key (jobs_nodup h) hj hj' (congrArg JobOrigin.id horigin)

theorem length_le_one {α : Type} {l : List α} (hn : l.Nodup) (h : ∀ x ∈ l, ∀ y ∈ l, x = y) :
    l.length ≤ 1 := by
  cases l with
  | nil => exact Nat.zero_le _
  | cons x l =>
    cases l with
    | nil => exact le_refl _
    | cons y l =>
      rw [List.nodup_cons] at hn
      have : x = y := h x List.mem_cons_self y (List.mem_cons_of_mem _ List.mem_cons_self)
      exact absurd (this ▸ List.mem_cons_self) hn.1

theorem total_eq (h : Register (originsOf s)) {j : Job} (hj : j ∈ s.db.jobs) :
    j.total = (s.db.itemsOf j.id).length := by
  obtain ⟨w, a, ha⟩ := h.inserted (jobOrigin j) (List.mem_map_of_mem hj)
  obtain ⟨o, ho, hid, htotal, _, hcontents⟩ := h.filed w _ a ha
  have hsame : o = jobOrigin j :=
    List.inj_on_of_nodup_map h.ids ho (List.mem_map_of_mem hj) hid
  have hlength : (rowContents s j.id).length = a.items.length := by
    rw [rowContents_eq, show (itemsOf (originsOf s) j.id).map content = contents a from
      hcontents, contents, List.length_mapIdx]
  rw [rowContents, List.length_map] at hlength
  rw [hlength, ← htotal, hsame]
  rfl

theorem jobsWith_le_one (h : Register (originsOf s)) (k : String) : (jobsWith k s).length ≤ 1 := by
  refine length_le_one ((List.Nodup.of_map _ (jobs_nodup h)).filter _) ?_
  intro j hj j' hj'
  rw [jobsWith, List.mem_filter, decide_eq_true_eq] at hj hj'
  exact eq_of_key h hj.1 hj'.1 hj.2 hj'.2

theorem filterMap_createdId (t : List Event) :
    (t.filter isCreation).filterMap createdId = t.filterMap createdId := by
  rw [List.filterMap_filter]
  refine List.filterMap_congr (fun e _ => ?_)
  cases e <;> rfl

theorem returned_job (h : Register (originsOf s)) {w : Nat} {a : CreateJobArgs} {r : CreateResult}
    {k : String} (hr : .createReturned w a r ∈ s.trace) (hk : a.idempotencyKey = some k)
    (hne : k ≠ "") :
    ∃ view, r.job = some view ∧ (∃ j ∈ jobsWith k s, j.id = view.job.id) ∧
      view.items.map (fun i => content (itemOrigin i)) = rowContents s view.job.id := by
  obtain ⟨view, hview, hshows, hkey⟩ := (h.returned w a r ((mem_events rfl).mpr hr)).keyed k hk hne
  obtain ⟨j, hj, horigin⟩ := job_of_origin hshows.job
  refine ⟨view, hview, ⟨j, ?_, congrArg JobOrigin.id horigin⟩, ?_⟩
  · rw [jobsWith, List.mem_filter, decide_eq_true_eq]
    exact ⟨hj, (congrArg JobOrigin.idempotencyKey horigin).trans hkey⟩
  · rw [rowContents_eq, ← hshows.items, List.map_map]
    rfl

theorem createdWith_le_one (h : Register (originsOf s)) {k : String} (hne : k ≠ "") :
    s.trace.countP (createdWith k) ≤ 1 := by
  have hnodup : (s.trace.filterMap createdId).Nodup := filterMap_createdId s.trace ▸ h.created
  have hjob : ∀ e ∈ s.trace, createdWith k e → ∃ j ∈ jobsWith k s, createdId e = some j.id := by
    intro e he hcreated
    cases e with
    | createReturned w a r =>
      simp only [createdWith, decide_eq_true_eq] at hcreated
      obtain ⟨view, hview, ⟨j, hj, hid⟩, _⟩ := returned_job h he hcreated.1 hne
      obtain ⟨job, created⟩ := r
      obtain ⟨_, rfl⟩ := hcreated
      cases hview
      exact ⟨j, hj, congrArg some hid.symm⟩
    | _ => cases hcreated
  cases hjobs : jobsWith k s with
  | nil =>
    refine le_of_eq_of_le (List.countP_eq_zero.mpr ?_) (Nat.zero_le 1)
    intro e he hcreated
    obtain ⟨j, hj, _⟩ := hjob e he hcreated
    rw [hjobs] at hj
    cases hj
  | cons j rest =>
    have hsame : ∀ e ∈ s.trace, createdWith k e → createdId e == some j.id := by
      intro e he hcreated
      obtain ⟨j', hj', hid⟩ := hjob e he hcreated
      have hj : j ∈ jobsWith k s := hjobs ▸ List.mem_cons_self
      rw [jobsWith, List.mem_filter, decide_eq_true_eq] at hj hj'
      rw [hid, eq_of_key h hj'.1 hj.1 hj'.2 hj.2]
      exact beq_self_eq_true _
    calc s.trace.countP (createdWith k) ≤ s.trace.countP (fun e => createdId e == some j.id) :=
          List.countP_mono_left hsame
      _ = (s.trace.filterMap createdId).count j.id := (List.count_filterMap ..).symm
      _ ≤ 1 := List.nodup_iff_count_le_one.mp hnodup j.id

end Register

/-- However the processes race: a key has at most one job, with exactly the items
of the one call that created it; every call with the key that returns returns
that job, and at most one says that it created it. So an occurrence of a
schedule has at most one job. -/
theorem one_job_per_key (concurrency : Nat → Nat) (now : Ms) (as : List Step) :
    let s := (run (initial concurrency now) as).shared
    (∀ k, k ≠ "" →
      (jobsWith k s).length ≤ 1 ∧
      (∀ j ∈ jobsWith k s, ∃ w a, .jobInserted w j.id a ∈ s.trace ∧
        (∀ w' a', .jobInserted w' j.id a' ∈ s.trace → w' = w ∧ a' = a) ∧
        a.idempotencyKey = some k ∧ j.total = a.items.length ∧ rowContents s j.id = contents a) ∧
      (∀ w a r, .createReturned w a r ∈ s.trace → a.idempotencyKey = some k →
        ∃ view, r.job = some view ∧ (∃ j ∈ jobsWith k s, j.id = view.job.id) ∧
          view.items.map (fun i => content (itemOrigin i)) = rowContents s view.job.id) ∧
      s.trace.countP (createdWith k) ≤ 1) ∧
    ∀ id nextRunAt, (jobsWith (Scheduler.occurrenceKey id nextRunAt) s).length ≤ 1 := by
  intro s
  have h : Register (originsOf s) := register_run concurrency now as
  refine ⟨fun k hk => ⟨jobsWith_le_one h k, ?_, fun w a r hr hkey => returned_job h hr hkey hk,
    createdWith_le_one h hk⟩, fun id nextRunAt => jobsWith_le_one h _⟩
  intro j hj
  rw [jobsWith, List.mem_filter, decide_eq_true_eq] at hj
  obtain ⟨w, a, ha⟩ := h.inserted (jobOrigin j) (List.mem_map_of_mem hj.1)
  obtain ⟨o, ho, hid, htotal, hkey, hcontents⟩ := h.filed w _ a ha
  obtain ⟨j', hj', rfl⟩ := job_of_origin ho
  have hsame : j' = j := Atomic.Table.eq_of_key (jobs_nodup h) hj' hj.1 hid
  subst hsame
  refine ⟨w, a, (mem_events rfl).mp ha, ?_, hkey.symm.trans hj.2, htotal,
    (rowContents_eq _).trans hcontents⟩
  intro w' a' ha'
  have := eq_of_nodup_filterMap h.once ((mem_events rfl).mpr ha') ha rfl rfl
  obtain ⟨hw, _, ha⟩ := Event.jobInserted.inj this
  exact ⟨hw, ha⟩

/-- Two processes in lockstep create a job with the same key: both find no job, and the
transaction of the second fails. -/
def keyRace : List Step :=
  let args : CreateJobArgs :=
    { type := "bulk", idempotencyKey := some "order", items := [⟨some "1", none, some "hello"⟩] }
  [.start 0 (.call (.createJob args)), .start 1 (.call (.createJob args))] ++
    (List.replicate 12 [Action.exec 0, .exec 1]).flatten

theorem one_job_per_key_race :
    let s := (run (initial (fun _ => 1) 0) keyRace).shared
    (jobsWith "order" s).length ≤ 1 ∧ s.trace.countP (createdWith "order") ≤ 1 ∧
      s.trace.length = 3 := by
  have h := (one_job_per_key (fun _ => 1) 0 keyRace).1 "order" (by decide)
  exact ⟨h.1, h.2.2.2, by decide +kernel⟩

end WhatsappTester.Jobs.Uniqueness
