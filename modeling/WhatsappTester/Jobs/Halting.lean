import WhatsappTester.Jobs.Handover

namespace WhatsappTester.Jobs.Halting

open Schema State Atomic Atomic.Program Atomic.Runs Atomic.Interleaving Atomic.Watch Statements
  JobService Ledger
open Process Custody Cluster Sending Retirement Handover

instance (id : Id) (s : Shared) : Decidable (AtWork id s) :=
  inferInstanceAs (Decidable (∃ j ∈ s.db.jobs, j.id = id ∧ j.status ∈ [JobStatus.queued, .running]))

/-- A process that is on `resumeJob` puts a job back to work. -/
def BringsBack (id : Id) (W : Watching) (a : Step) : Prop :=
  ∃ x ∈ W.errands, executes x.1 a = true ∧ resumes id x.2.work = true ∧
    ¬ AtWork id W.cluster.shared ∧ AtWork id (watch rules W a).cluster.shared

instance (id : Id) (W : Watching) (a : Step) : Decidable (BringsBack id W a) := by
  unfold BringsBack
  infer_instance

def atRest (status : JobStatus) : Bool := decide (status ∉ [.queued, .running])

/-- What is known at every point of an orderly run: whoever is not on `resumeJob` brings no retired job back. -/
structure Watchful (p : JobStatus → Bool) (id : Id) (W : Watching) : Prop where
  honoured : contract.Honoured W.cluster
  backed : Backed W.cluster.shared
  covered : Covered W
  keeping : Keeping (fun _ e code _ => p .paused = false ∨ resumes id e.work = false →
    Always (Stays p id) code) W

structure Spared (id : Id) (s s' : Shared) : Prop where
  grown : Grown s s'
  sent : ∃ new, sends s' = new ++ sends s ∧ ∀ i ∈ new, ∃ r ∈ s'.db.items, r.id = i ∧ r.jobId ≠ id

section Halting

variable {p : JobStatus → Bool} {id : Id} {W : Watching} {a : Step} {s s' s'' : Shared}

theorem inactive_atRest : Inactive atRest := by
  refine ⟨rfl, rfl, fun status h => ?_⟩
  cases status <;> first | rfl | cases h

theorem spared_trans (h : Spared id s s') (h' : Spared id s' s'') : Spared id s s'' := by
  obtain ⟨new, hsends, hnew⟩ := h.sent
  obtain ⟨new', hsends', hnew'⟩ := h'.sent
  refine ⟨grown_trans h.grown h'.grown, new' ++ new,
    by rw [hsends', hsends, List.append_assoc], fun i hi => ?_⟩
  obtain hi | hi := List.mem_append.mp hi
  · exact hnew' i hi
  · obtain ⟨r, hr, hid, hjob⟩ := hnew i hi
    obtain ⟨r', hr', horigin⟩ := item_grown h'.grown hr
    have hjob' : r'.jobId = r.jobId := congrArg ItemOrigin.jobId horigin
    exact ⟨r', hr', (congrArg ItemOrigin.id horigin).trans hid, hjob' ▸ hjob⟩

theorem not_atWork (hp : Inactive p) (h : Retired p id s) : ¬ AtWork id s := by
  rintro ⟨j, hj, hid, hstatus⟩
  exact not_going hp (h.status j hj hid) hstatus

theorem watchful_initial (concurrency : Nat → Nat) (now : Ms) :
    Watchful p id ⟨initial concurrency now, []⟩ :=
  ⟨honoured_initial concurrency now, fun _ hx => absurd hx List.not_mem_nil,
    fun _ hbusy => Bool.noConfusion hbusy, fun _ _ he => absurd he List.not_mem_nil⟩

theorem watchful_step (hp : Inactive p) (h : Watchful p id W) (ha : Orderly W.cluster a) :
    Watchful p id (watch rules W a) := by
  obtain ⟨hhonoured, w, hands⟩ := honoured_step h.honoured a
  refine ⟨hhonoured, backed_step hands h.backed ha, covered_step h.covered a, ?_⟩
  cases a with
  | start w work => exact keeping_start h.keeping (fun _ hresumes => stays_work hp work hresumes)
  | exec w =>
    refine keeping_exec h.keeping (fun e act next _ _ hold hresumes => ?_)
      (fun _ _ _ _ hold => hold)
    exact (hold hresumes (W.cluster.view w)).2
  | kill w => exact keeping_kill h.keeping (fun _ _ _ _ hold => hold)
  | wait ms => exact keeping_wait h.keeping (fun _ _ _ hold => hold)

theorem retired_step (hp : Inactive p) (h : Watchful p id W)
    (hretired : Retired p id W.cluster.shared)
    (hback : p .paused = false ∨ p = atRest ∧ ¬ BringsBack id W a) :
    Retired p id (watch rules W a).cluster.shared := by
  obtain ⟨-, _, hands⟩ := honoured_step h.honoured a
  have hsame : (rules.step W.cluster a).shared.db.jobs = W.cluster.shared.db.jobs →
      Retired p id (watch rules W a).cluster.shared := fun hjobs => retired_of_jobs hjobs hretired
  cases a with
  | start w work =>
    refine hsame ?_
    simp only [Rules.step, Rules.start]
    split <;> rfl
  | kill w => exact hsame rfl
  | wait ms => exact hsame rfl
  | exec w =>
    cases hcode : (W.cluster.process w).code with
    | ret x => exact hsame (by simp only [Rules.step, Rules.exec, hcode])
    | stmt act next =>
      obtain ⟨e, he⟩ := h.covered w (by simp [Watch.idle, hcode])
      have hshared : (watch rules W (.exec w)).cluster.shared =
          (act (W.cluster.view w)).shared := by
        simp only [watch, Rules.step, Rules.exec, hcode]
      by_cases hresumes : p .paused = false ∨ resumes id e.work = false
      · have hstays := h.keeping w e he hresumes
        rw [hcode] at hstays
        rw [hshared]
        exact (hstays (W.cluster.view w)).1 hretired
      · obtain ⟨hpaused, hon⟩ := not_or.mp hresumes
        obtain ⟨rfl, hnot⟩ := hback.resolve_left hpaused
        have hrest : ¬ AtWork id (watch rules W (.exec w)).cluster.shared :=
          fun hwork =>
            hnot ⟨(w, e), he, decide_eq_true rfl, by simpa using hon, not_atWork hp hretired, hwork⟩
        refine ⟨known_grown hands.toGrown hretired.known, fun j hj hid => ?_⟩
        by_contra hwork
        exact hrest ⟨j, hj, hid, by simpa [atRest, or_iff_not_imp_left] using hwork⟩

theorem spared_step (hp : Inactive p) (h : Watchful p id W)
    (hretired : Retired p id W.cluster.shared) :
    Spared id W.cluster.shared (watch rules W a).cluster.shared := by
  obtain ⟨-, _, hands⟩ := honoured_step h.honoured a
  refine ⟨hands.toGrown, ?_⟩
  obtain hsends | ⟨r, hr, hwork, hsends⟩ := sent_at_work hands h.backed
  · exact ⟨[], hsends, fun _ hi => absurd hi List.not_mem_nil⟩
  · refine ⟨[r.id], hsends, fun i hi => ?_⟩
    rw [List.mem_singleton] at hi
    obtain ⟨r', hr', horigin⟩ := item_grown hands.toGrown hr
    have hjob : r'.jobId = r.jobId := congrArg ItemOrigin.jobId horigin
    refine ⟨r', hr', (congrArg ItemOrigin.id horigin).trans hi.symm, ?_⟩
    rintro rfl
    exact not_atWork hp hretired (hjob ▸ hwork)

theorem spared_run (hp : Inactive p) {as : List Step} (h : Watchful p id W)
    (hretired : Retired p id W.cluster.shared) (horderly : Along Orderly rules.step W.cluster as)
    (hback : p .paused = false ∨ p = atRest ∧
      Along (fun W a => ¬ BringsBack id W a) (watch rules) W as) :
    Spared id W.cluster.shared (play (watch rules) W as).cluster.shared := by
  have hok : Along (fun W a => Orderly W.cluster a ∧
      (p .paused = false ∨ p = atRest ∧ ¬ BringsBack id W a))
      (watch rules) W as := by
    have horderly' : Along (fun W a => Orderly W.cluster a) (watch rules) W as :=
      along_watch.mpr horderly
    obtain hpaused | ⟨hrest, hback⟩ := hback
    · exact along_mono (fun _ _ ha => ⟨ha, Or.inl hpaused⟩) horderly'
    · exact along_mono (fun _ _ ha => ⟨ha.1, Or.inr ⟨hrest, ha.2⟩⟩) (along_and horderly' hback)
  refine play_relation (fun W => Watchful p id W ∧ Retired p id W.cluster.shared)
    (fun W W' => Spared id W.cluster.shared W'.cluster.shared) ?_ (fun _ _ _ => spared_trans) ?_
    ⟨h, hretired⟩ hok
  · exact fun W => ⟨grown_refl _, [], rfl, fun _ hi => absurd hi List.not_mem_nil⟩
  · rintro W a ⟨h, hretired⟩ ⟨ha, hback⟩
    exact ⟨⟨watchful_step hp h ha, retired_step hp h hretired hback⟩, spared_step hp h hretired⟩

/-- The second statement of a call, when it finds the state `v` after its first one. -/
def Second (c : Call) (v : World) (Q : World → Prop) : Prop :=
  ∃ act next, c.code = .stmt act next ∧ ∀ u, ∃ act' next', next u = .stmt act' next' ∧ Q (act' v)

theorem second_cancelJob (actor : Option String) {v : World} (h : id ∈ jobIds v.shared) :
    Second (.cancelJob id actor) v (fun u => Retired JobStatus.terminal id u.shared) := by
  refine ⟨_, _, rfl, fun u => ⟨_, _, rfl, retired_updateJobs (fun _ => rfl) (fun j hj => ?_) h⟩⟩
  split
  · rfl
  · simp_all

theorem second_pauseJob (actor : Option String) {v : World} (h : id ∈ jobIds v.shared) :
    Second (.pauseJob id actor) v (fun u => Retired atRest id u.shared) := by
  refine ⟨_, _, rfl, fun u => ⟨_, _, rfl, retired_updateJobs (fun _ => rfl) (fun j hj => ?_) h⟩⟩
  split
  · rfl
  · simp_all [atRest]

/-- The call that stops a job has made its first two statements: it has read the clock
and updated the job's row. -/
def updated (as bs bs' : List Step) (w : Nat) (c : Call) : List Step :=
  as ++ .start w (.call c) :: bs ++ .exec w :: bs' ++ [.exec w]

theorem second_updated {C : Processes} {bs bs' : List Step} {w : Nat} {c : Call}
    (hidle : Watch.idle (C.process w) = true) (hforeign : ∀ b ∈ bs ++ bs', foreign w b = true)
    (hbusy : ∀ v, Second c v (fun _ => True)) : ∃ v : World,
      v.shared = (run C (.start w (.call c) :: bs ++ .exec w :: bs')).shared ∧
        ∀ Q : Shared → Prop, Second c v (fun u => Q u.shared) →
        Q (run C (updated [] bs bs' w c)).shared := by
  obtain ⟨hbs, hbs'⟩ := List.forall_mem_append.mp hforeign
  obtain ⟨act, next, hcode, hnext⟩ := hbusy (C.view w)
  have hstart : (rules.step C (.start w (.call c))).process w =
      ⟨(C.process w).mem, .stmt act next⟩ := by
    rw [Rules.step, start_idle hidle]
    simp [rules, Work.code, hcode]
  let D := run C (.start w (.call c) :: bs)
  have hread : D.process w = (rules.step C (.start w (.call c))).process w :=
    process_foreign hbs (by rw [hstart]; rfl)
  rw [hstart] at hread
  let E := run (rules.step D (.exec w)) bs'
  obtain ⟨act', next', hnext', -⟩ := hnext (D.view w)
  have hexec : (rules.step D (.exec w)).process w = ⟨(act (D.view w)).mem, .stmt act' next'⟩ := by
    simp [Rules.step, Rules.exec, hread, hnext']
  have hE : E.process w = ⟨(act (D.view w)).mem, .stmt act' next'⟩ :=
    (process_foreign hbs' (by rw [hexec]; rfl)).trans hexec
  have hrun : run C (.start w (.call c) :: bs ++ .exec w :: bs') = E := play_append _ _ _
  have hupdated : run C (updated [] bs bs' w c) = rules.step E (.exec w) :=
    (play_append _ _ _).trans (congrArg (fun C => rules.step C (.exec w)) hrun)
  refine ⟨E.view w, by rw [hrun]; rfl, ?_⟩
  rintro Q ⟨act₁, next₁, hcode₁, hQ⟩
  obtain ⟨act₂, next₂, hnext₂, hQ⟩ := hQ (D.view w)
  obtain ⟨rfl, rfl⟩ : act₁ = act ∧ next₁ = next := by
    rw [hcode] at hcode₁
    cases hcode₁
    exact ⟨rfl, rfl⟩
  obtain ⟨rfl, rfl⟩ : act₂ = act' ∧ next₂ = next' := by
    rw [hnext'] at hnext₂
    cases hnext₂
    exact ⟨rfl, rfl⟩
  rw [hupdated]
  simpa [Rules.step, Rules.exec, hE] using hQ

theorem honoured_run {C : Processes} (h : contract.Honoured C) (as : List Step) :
    contract.Honoured (run C as) :=
  play_invariant_all contract.Honoured (fun _ a h => (honoured_step h a).1) h as

theorem watchful_run (hp : Inactive p) {concurrency : Nat → Nat} {now : Ms} {as : List Step}
    (h : Along Orderly rules.step (initial concurrency now) as) :
    Watchful p id (play (watch rules) ⟨initial concurrency now, []⟩ as) :=
  play_invariant (Watchful p id) (fun _ _ h ha => watchful_step hp h ha)
    (watchful_initial concurrency now)
    (along_watch.mpr h)

theorem started_spared (hn : Distinct s') (h : Spared id s s') {i : Id}
    (hi : i ∈ started s s') {r : JobItem} (hr : r ∈ s'.db.items) (hid : r.id = i) :
    r.jobId ≠ id := by
  obtain ⟨new, hsends, hnew⟩ := h.sent
  rw [started_eq hsends] at hi
  obtain ⟨r', hr', hid', hjob⟩ := hnew i hi
  rwa [Table.eq_of_key hn hr hr' (hid.trans hid'.symm)]

end Halting

/-- From the update of a `cancelJob` on, and so once it has returned, no send of an item of the
job is started; from that of a `pauseJob` on, none until a `resumeJob` puts the job back to work. -/
theorem no_send_after_halt (concurrency : Nat → Nat) (now : Ms) (as bs bs' cs : List Step)
    (w : Nat) (c : Call) (id : Id) (actor : Option String)
    (hc : c = .cancelJob id actor ∨ c = .pauseJob id actor ∧
      Along (fun W a => ¬ BringsBack id W a) (watch rules)
        (play (watch rules) ⟨initial concurrency now, []⟩ (updated as bs bs' w c)) cs)
    (hidle : Watch.idle ((run (initial concurrency now) as).process w) = true)
    (hforeign : ∀ b ∈ bs ++ bs', foreign w b = true)
    (hknown : id ∈ jobIds (run (initial concurrency now) as).shared)
    (horderly : Along Orderly rules.step (initial concurrency now) (updated as bs bs' w c ++ cs)) :
    let s := (run (initial concurrency now) (updated as bs bs' w c)).shared
    let s' := (run (initial concurrency now) (updated as bs bs' w c ++ cs)).shared
    ∀ i ∈ started s s', ∀ r ∈ s'.db.items, r.id = i → r.jobId ≠ id := by
  intro s s'
  let W := play (watch rules) ⟨initial concurrency now, []⟩ (updated as bs bs' w c)
  obtain ⟨hbefore, hafter⟩ := (along_append _ _ _).mp horderly
  have hW : W.cluster.shared = s :=
    congrArg Cluster.shared (watch_cluster (W := ⟨initial concurrency now, []⟩) _)
  have hs' : (play (watch rules) W cs).cluster.shared = s' := by
    rw [watch_cluster, watch_cluster, ← play_append]
  have hdistinct : Distinct s' := (honoured_run (honoured_initial concurrency now) _).inv
  have hspared : ∀ p, Inactive p → Retired p id s → (p .paused = false ∨ p = atRest ∧
      Along (fun W a => ¬ BringsBack id W a) (watch rules) W cs) → Spared id s s' := by
    intro p hp hretired hback
    rw [← hW] at hretired ⊢
    rw [← hs']
    exact spared_run hp (watchful_run hp hbefore) hretired
      (by rw [watch_cluster]; exact hafter) hback
  have hrun : run (run (initial concurrency now) as) (updated [] bs bs' w c) =
      run (initial concurrency now) (updated as bs bs' w c) :=
    (play_append _ _ _).symm.trans (by simp [updated])
  have hbusy : ∀ v, Second c v (fun _ => True) := by
    obtain rfl | ⟨rfl, -⟩ := hc <;> exact fun v => ⟨_, _, rfl, fun u => ⟨_, _, rfl, trivial⟩⟩
  obtain ⟨v, hv, hsecond⟩ := second_updated hidle hforeign hbusy
  rw [hrun] at hsecond
  have hknown' : id ∈ jobIds v.shared :=
    hv ▸ known_grown (grown_run (honoured_run (honoured_initial concurrency now) as) _) hknown
  intro i hi r hr hid
  refine started_spared hdistinct ?_ hi hr hid
  obtain rfl | ⟨rfl, hback⟩ := hc
  · exact hspared _ inactive_terminal (hsecond _ (second_cancelJob actor hknown')) (Or.inl rfl)
  · exact hspared _ inactive_atRest (hsecond _ (second_pauseJob actor hknown'))
      (Or.inr ⟨rfl, hback⟩)

def single : List Step :=
  steps 0 (.call (.createJob { type := "bulk", items := [⟨some "1", none, some "hello"⟩] })) 8

/-- The job is paused while its item is in flight, and the retry that follows is not sent. -/
theorem no_send_after_halt_retry :
    let call := updated (single ++ steps 1 (.call .tick) 19) [] [] 0 (.pauseJob 0 none)
    let retry : List Step := steps 1 (.call (.complete 1 (.results [(.error, none)]) 0)) 20 ++
      [.wait 100000] ++ steps 1 (.call .tick) 20
    let s := (run (initial (fun _ => 1) 0) call).shared
    let s' := (run (initial (fun _ => 1) 0) (call ++ retry)).shared
    ∀ i ∈ started s s', ∀ r ∈ s'.db.items, r.id = i → r.jobId ≠ 0 :=
  no_send_after_halt (fun _ => 1) 0 (single ++ steps 1 (.call .tick) 19) [] [] _ 0
    (.pauseJob 0 none) 0 none
    (Or.inr ⟨rfl, by decide +kernel⟩) (by decide +kernel) (by decide) (by decide +kernel)
    (by decide +kernel)

/-- Process 1 has claimed the item when process 0 makes a call of `n` statements. -/
def overlapped (c : Call) (n : Nat) : Processes :=
  run (initial (fun _ => 1) 0) (single ++ steps 1 (.call .tick) 8 ++ steps 0 (.call c) n)

def SentAfter (C : Processes) : Prop :=
  let D := run C (List.replicate 10 (.exec 1))
  Watch.idle (C.process 0) = true ∧
    (∀ j ∈ C.shared.db.jobs, j.status ∈ [JobStatus.cancelled, .paused]) ∧
    ∃ i ∈ started C.shared D.shared, ∃ r ∈ D.shared.db.items, r.id = i ∧ r.jobId = 0

instance (C : Processes) : Decidable (SentAfter C) := by
  unfold SentAfter
  infer_instance

theorem no_send_after_halt_fails :
    SentAfter (overlapped (.cancelJob 0 none) 7) ∧ SentAfter (overlapped (.pauseJob 0 none) 6) := by
  decide +kernel

end WhatsappTester.Jobs.Halting
