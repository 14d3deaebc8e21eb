import WhatsappTester.Jobs.Exclusion

namespace WhatsappTester.Jobs.Cancellation

open Schema State Atomic.Runs Atomic.Lease Atomic.Interleaving Ledger Custody Cluster Exclusion

def isRecovery : Step → Bool
  | .start _ .recover => true
  | _ => false

/-- Processes recover nothing from one another, and the items of a job are
cancelled only while no process is at one of them. -/
def CancelsAtRest (C : Processes) (a : Step) : Prop :=
  isRecovery a = false ∧
    ∀ r ∈ C.shared.db.items,
      (rules.step C a).shared.trace = .itemsCancelled r.jobId :: C.shared.trace →
        r.id ∉ (processing C).map (·.2)

instance (C : Processes) (a : Step) : Decidable (CancelsAtRest C a) :=
  inferInstanceAs (Decidable (_ ∧ _))

structure Settled (s : Shared) : Prop where
  working : Working (ledger s)
  cancelled : ∀ id, .itemsCancelled id ∈ s.trace → id ∈ jobIds s ∧
    ∀ i e, (ledger s).entry i = some e → e.group = id → ∃ c, e.phase = .closed c

def Final (s s' : Shared) : Prop :=
  ∀ i e c, (ledger s).entry i = some e → e.phase = .closed c → (ledger s').entry i = some e

variable {s s' : Shared} {m : JobMove} {w : Nat}

theorem settled_move (hs : Sound (ledger s)) (hm : Moves False w m s s')
    (hjobs : jobIds s ⊆ jobIds s') (hspares : Spares (ledger s) m) (h : Settled s) :
    Settled s' ∧ Final s s' := by
  have hrecover : ∀ now, m = .recover now → Timely now (ledger s) :=
    fun now hnow => (hm.recover now hnow).1.elim
  have hfinal : Final s s' := by
    intro i e c hentry hclosed
    rw [hm.ledger]
    exact closed_apply hm.enabled h.working hentry hclosed
  refine ⟨⟨hm.ledger ▸ working_apply hs hm.enabled hrecover hspares h.working, ?_⟩, hfinal⟩
  intro id hid
  have hold : .itemsCancelled id ∈ s.trace → id ∈ jobIds s' ∧
      ∀ i e, (ledger s').entry i = some e → e.group = id → ∃ c, e.phase = .closed c := by
    intro hid
    obtain ⟨hjob, hclosed⟩ := h.cancelled id hid
    refine ⟨hjobs hjob, ?_⟩
    intro i e hentry hgroup
    cases hbefore : (ledger s).entry i with
    | none =>
      obtain ⟨new, hinsert⟩ := entry_new hbefore (hm.ledger ▸ hentry)
      exact absurd (hgroup ▸ hjob) (hm.insert _ new hinsert)
    | some e₀ =>
      obtain ⟨e', hentry', hgroup'⟩ := group_apply hm.enabled i e₀ hbefore
      rw [← hm.ledger, hentry] at hentry'
      cases hentry'
      obtain ⟨c, hc⟩ := hclosed i e₀ hbefore (hgroup'.symm.trans hgroup)
      have := hfinal i e₀ c hbefore hc
      rw [hentry] at this
      cases this
      exact ⟨c, hc⟩
  obtain hid | hcancel := hm.cancelled id hid
  · exact hold hid
  · refine ⟨hjobs (hm.cancel _ _ hcancel).1, ?_⟩
    intro i e hentry hgroup
    rw [hm.ledger, hcancel] at hentry
    obtain ⟨e₀, _, rfl⟩ := Option.map_eq_some_iff.mp hentry
    rw [cancelEntry_group] at hgroup
    unfold cancelEntry
    cases hphase : e₀.phase with
    | closed c => exact ⟨c, by simp [Phase.isOpen, hphase]⟩
    | waiting => exact ⟨.cancelled, by simp [Phase.isOpen, hgroup]⟩
    | busy => exact ⟨.cancelled, by simp [Phase.isOpen, hgroup]⟩

theorem final_refl (s : Shared) : Final s s := fun _ _ _ hentry _ => hentry

theorem settled_step {C : Processes} {a : Step} (ha : CancelsAtRest C a)
    (hC : (contract False).Honoured C ∧ Settled C.shared) :
    ((contract False).Honoured (rules.step C a) ∧ Settled (rules.step C a).shared) ∧
      Final C.shared (rules.step C a).shared := by
  obtain ⟨hhonoured, hsettled⟩ := hC
  cases a with
  | start w work =>
    cases work with
    | recover => exact absurd ha.1 (by simp [isRecovery])
    | call c =>
      have hshared : (rules.step C (.start w (.call c))).shared = C.shared := by
        simp only [Rules.step, Rules.start]
        split <;> rfl
      rw [hshared]
      exact ⟨⟨Contract.honoured_start (meets_call w c) hhonoured, hsettled⟩, final_refl _⟩
  | exec w =>
    have hnext := Contract.honoured_exec hhonoured w
      (fun hd => does_sound hhonoured.inv hd (fun hfalse => hfalse.elim))
    obtain hsame | hdoes := Contract.exec_guar hhonoured w
    · simp only [Rules.step, hsame]
      exact ⟨⟨hhonoured, hsettled⟩, final_refl _⟩
    · obtain ⟨m, hm⟩ := hdoes.move
      have hspares : Spares (ledger C.shared) m := by
        rintro id c rfl x hx e hentry rfl
        obtain ⟨r, hr, hid, rfl⟩ := item_of_entry hentry
        refine ha.2 r hr (hm.cancel _ _ rfl).2 ?_
        rw [hid]
        exact List.mem_map.mpr ⟨(x.worker, x.item), List.mem_map.mpr ⟨x, hx, rfl⟩, rfl⟩
      obtain ⟨hsettled', hfinal⟩ := settled_move hhonoured.inv.2 hm hdoes.jobs hspares hsettled
      exact ⟨⟨hnext, hsettled'⟩, hfinal⟩
  | kill w =>
    have hm : (Move.die w : JobMove).Enabled Retry.maxAttempts (ledger C.shared) := trivial
    refine ⟨⟨honoured_kill hhonoured w, ?_, ?_⟩, fun _ _ _ hentry _ => hentry⟩
    · exact working_apply hhonoured.inv.2 hm (by simp) (by simp [Spares]) hsettled.working
    · intro id hid
      exact hsettled.cancelled id (List.mem_of_ne_of_mem (by simp) hid)
  | wait ms =>
    exact ⟨⟨honoured_wait hhonoured ms, hsettled.working, hsettled.cancelled⟩,
      fun _ _ _ hentry _ => hentry⟩

theorem settled_initial (concurrency : Nat → Nat) (now : Ms) :
    Settled (initial concurrency now).shared :=
  ⟨fun _ hh => absurd hh List.not_mem_nil, fun _ hid => absurd hid List.not_mem_nil⟩

theorem settled_run {concurrency : Nat → Nat} {now : Ms} {as : List Step}
    (h : Along CancelsAtRest rules.step (initial concurrency now) as) :
    (contract False).Honoured (run (initial concurrency now) as) ∧
      Settled (run (initial concurrency now) as).shared := by
  refine play_invariant (fun C => (contract False).Honoured C ∧ Settled C.shared) ?_
    ⟨honoured_initial concurrency now, settled_initial concurrency now⟩ h
  exact fun C a hC ha => (settled_step ha hC).1

theorem final_run {C : Processes} {as : List Step}
    (hC : (contract False).Honoured C ∧ Settled C.shared)
    (h : Along CancelsAtRest rules.step C as) :
    Final C.shared (run C as).shared := by
  refine play_relation (fun C => (contract False).Honoured C ∧ Settled C.shared)
    (fun C C' => Final C.shared C'.shared) (fun C => final_refl _) ?_ ?_ hC h
  · exact fun C C' C'' h h' i e c hentry hclosed => h' i e c (h i e c hentry hclosed) hclosed
  · exact fun C a hC ha => settled_step ha hC

/-- As long as jobs are cancelled at rest, a terminal item keeps its status, and
a job whose items have been cancelled is left with terminal items only. -/
theorem terminal_items_stay (concurrency : Nat → Nat) (now : Ms) (as bs : List Step)
    (h : Along CancelsAtRest rules.step (initial concurrency now) (as ++ bs)) :
    let s := (run (initial concurrency now) as).shared
    let s' := (run (initial concurrency now) (as ++ bs)).shared
    (∀ i r, s.db.item i = some r → r.status.terminal →
        ∃ r', s'.db.item i = some r' ∧ r'.status = r.status) ∧
      ∀ id, .itemsCancelled id ∈ s'.trace → ∀ r ∈ s'.db.items, r.jobId = id →
        r.status.terminal := by
  intro s s'
  obtain ⟨has, hbs⟩ := (along_append _ _ _).mp h
  refine ⟨?_, ?_⟩
  · intro i r hr hterminal
    have hentry : (ledger s).entry i = some (entryOf r) := by
      simp only [ledger, hr, Option.map_some]
    have hfinal := final_run (settled_run has) hbs i _ _ hentry (phaseOf_terminal hterminal)
    rw [run, ← play_append] at hfinal
    obtain ⟨r', hr', heq⟩ := Option.map_eq_some_iff.mp hfinal
    refine ⟨r', hr', (phaseOf_closed ?_).1⟩
    exact (congrArg Entry.phase heq).trans (phaseOf_terminal hterminal)
  · intro id hid r hr hjob
    obtain ⟨hhonoured, hsettled⟩ := settled_run h
    obtain ⟨c, hc⟩ := (hsettled.cancelled id hid).2 r.id _ (entry_of_mem hhonoured.inv.1 hr) hjob
    exact (phaseOf_closed hc).2

def oneItem : CreateJobArgs := { type := "bulk", items := [⟨some "1", none, some "hello"⟩] }

def cancelledInFlight : List Step :=
  steps 0 (.call (.createJob oneItem)) 12 ++ steps 0 (.call .tick) 30 ++
    steps 0 (.call (.cancelJob 0 none)) 10

def failedAfterwards : List Step :=
  steps 0 (.call (.complete 1 (.results [(.error, none)]) 0)) 15

theorem terminal_items_stay_fails :
    let s := (run (initial (fun _ => 1) 0) cancelledInFlight).shared
    let s' := (run (initial (fun _ => 1) 0) (cancelledInFlight ++ failedAfterwards)).shared
    (s.db.item 1).map (·.status) = some .cancelled ∧
      (s'.db.job 0).map (·.status) = some .cancelled ∧
      (s'.db.item 1).map (·.status) = some .queued := by
  decide +kernel

/-- The same job, cancelled after the send has failed. -/
theorem terminal_items_stay_at_rest :
    let as := steps 0 (.call (.createJob oneItem)) 12 ++ steps 0 (.call .tick) 30 ++
      failedAfterwards ++ steps 0 (.call (.cancelJob 0 none)) 10
    let bs := [.wait 60000] ++ steps 0 (.call .tick) 10
    let s := (run (initial (fun _ => 1) 0) as).shared
    let s' := (run (initial (fun _ => 1) 0) (as ++ bs)).shared
    (∀ i r, s.db.item i = some r → r.status.terminal →
        ∃ r', s'.db.item i = some r' ∧ r'.status = r.status) ∧
      ∀ id, .itemsCancelled id ∈ s'.trace → ∀ r ∈ s'.db.items, r.jobId = id → r.status.terminal :=
  terminal_items_stay (fun _ => 1) 0 _ _ (by decide +kernel)

end WhatsappTester.Jobs.Cancellation
