import WhatsappTester.Jobs.Retirement
import WhatsappTester.Jobs.Sending

namespace WhatsappTester.Jobs.Handover

open Schema State Atomic Atomic.Program Atomic.Runs Atomic.Interleaving Statements JobService
  Claiming Worker Ledger
open Process Custody Cluster Sending Retirement

def pending : List Event → List (Nat × Id)
  | [] => []
  | .claimed w i _ :: t => (w, i) :: pending t
  | .sent w i _ :: t => (pending t).filter (fun x => decide (x ≠ (w, i)))
  | .died w :: t => (pending t).filter (fun x => decide (x.1 ≠ w))
  | _ :: t => pending t

def pendingOf (w : Nat) (s : Shared) : List (Nat × Id) :=
  (pending s.trace).filter (fun x => decide (x.1 = w))

def AtWork (id : Id) (s : Shared) : Prop :=
  ∃ j ∈ s.db.jobs, j.id = id ∧ j.status ∈ [.queued, .running]

structure Grown (s s' : Shared) : Prop where
  items : ∃ new, s'.db.items.map itemOrigin = s.db.items.map itemOrigin ++ new
  jobs : ∃ new, s'.db.jobs.map jobOrigin = s.db.jobs.map jobOrigin ++ new
  distinct : Distinct s → Distinct s'

/-- What a step of process `w` does to the pending items: it may claim one of a job at work,
and start the send of one of its own. -/
structure Hands (w : Nat) (s s' : Shared) : Prop extends Grown s s' where
  others : ∀ u, u ≠ w → pendingOf u s' = pendingOf u s
  claims : ∀ x ∈ pending s'.trace, x ∈ pending s.trace ∨
    s'.db.jobs = s.db.jobs ∧ ∃ row ∈ s.db.items, row.id = x.2 ∧ AtWork row.jobId s
  sent : sends s' = sends s ∨ ∃ i, (w, i) ∈ pending s.trace ∧ sends s' = i :: sends s

section Hands

variable {w : Nat} {s s' : Shared} {v v' : World}

theorem pending_handoffs (t : List Event) : pending t = pending (t.filter isHandoff) := by
  induction t with
  | nil => rfl
  | cons e t ih =>
    cases e <;> simp only [pending, List.filter_cons, isHandoff, Bool.false_eq_true, ↓reduceIte, ih]

theorem pending_handless (h : Handless v v') :
    pending v'.shared.trace = pending v.shared.trace := by
  rw [pending_handoffs, h, ← pending_handoffs]

theorem grown_of_origins (h : origins v' = origins v) : Grown v.shared v'.shared := by
  have hitems : v'.shared.db.items.map itemOrigin = v.shared.db.items.map itemOrigin :=
    congrArg Origins.items h
  have hjobs : v'.shared.db.jobs.map jobOrigin = v.shared.db.jobs.map jobOrigin :=
    congrArg Origins.jobs h
  exact ⟨⟨[], by rw [hitems, List.append_nil]⟩, ⟨[], by rw [hjobs, List.append_nil]⟩,
    distinct_of_origins h⟩

theorem grown_of_tables (hitems : s'.db.items = s.db.items) (hjobs : s'.db.jobs = s.db.jobs) :
    Grown s s' :=
  ⟨⟨[], by rw [hitems, List.append_nil]⟩, ⟨[], by rw [hjobs, List.append_nil]⟩,
    fun hn => by rw [Distinct, hitems]; exact hn⟩

theorem grown_callCreateJob (a : CreateJobArgs) :
    Always (fun v v' : World => Grown v.shared v'.shared) (callCreateJob a) := by
  have haside : Lenient (fun v v' : World => Grown v.shared v'.shared) :=
    fun _ _ h => grown_of_origins h.origins
  refine always_callCreateJob haside.tolerant a (fun id now => always_update _ (fun v => ?_))
    (fun result v => ?_)
  · cases htransaction : createTransaction id now a v.shared.uuid v.shared.db with
    | error err => exact grown_of_tables rfl rfl
    | ok db =>
      obtain ⟨rfl, _, _, _, hdistinct⟩ := createTransaction_ok htransaction
      exact ⟨⟨_, List.map_append⟩, ⟨_, List.map_append⟩, hdistinct⟩
  · cases result <;> exact grown_of_tables rfl rfl

theorem grown_call (c : Call) : Always (fun v v' : World => Grown v.shared v'.shared) c.code := by
  obtain hweb | hwrite | ⟨args, rfl⟩ | ⟨ready, rfl⟩ := call_kinds c
  · exact always_mono (fun _ _ h => grown_of_origins (web_origins h)) hweb
  · exact always_mono (fun _ _ h => grown_of_origins h.origins) hwrite
  · exact always_bind (grown_callCreateJob args) (fun _ => always_pure ())
  · have haside : Lenient (fun v v' : World => Grown v.shared v'.shared) :=
      fun _ _ h => grown_of_origins h.origins
    exact always_runTickIfReady haside.tolerant grown_callCreateJob
      (fun _ _ => always_update _ (fun _ => grown_of_tables rfl rfl)) ready

theorem hands_handless (hgrown : Grown v.shared v'.shared) (h : Handless v v') :
    Hands w v.shared v'.shared := by
  have hpending := pending_handless h
  refine ⟨hgrown,
    fun u _ => by rw [pendingOf, hpending, pendingOf], fun x hx => Or.inl (hpending ▸ hx), ?_⟩
  exact Or.inl (unsent_handless h)

theorem hands_refl (w : Nat) (s : Shared) : Hands w s s :=
  ⟨grown_of_tables rfl rfl, fun _ _ => rfl, fun _ hx => Or.inl hx, Or.inl rfl⟩

theorem hands_claimRow {row : JobItem} {now : Ms} (hpid : v.mem.pid = w)
    (hrow : nextClaimable v.shared.db now = some row) :
    Hands w v.shared (claimRow row now v).shared := by
  obtain ⟨hmem, hclaimable⟩ := nextClaimable_mem hrow
  have horigins : (Table.update (fun r => decide (r.id = row.id ∧ r.status = .queued))
      (claimedItem v.mem.pid now)
      v.shared.db.items).map itemOrigin = v.shared.db.items.map itemOrigin :=
    items_origin _ (by exact fun _ => rfl) _
  refine ⟨⟨⟨[], ?_⟩, ⟨[], (List.append_nil _).symm⟩, fun hn => ?_⟩, fun u hu => ?_, ?_,
    Or.inl (unsent_claimRow row now v)⟩
  · rw [List.append_nil]
    exact horigins
  · rw [Distinct, claimRow, Table.map_update (by exact fun _ _ => rfl)]
    exact hn
  · rw [pendingOf, claimRow, pending, List.filter_cons_of_neg (by simpa [hpid] using hu.symm),
      pendingOf]
  · intro x hx
    obtain rfl | hx := List.mem_cons.mp hx
    · exact Or.inr ⟨rfl, row, hmem, rfl, claimable_job hclaimable⟩
    · exact Or.inl hx

theorem hands_startSend {item : JobItem} {n : Nat} (hpid : v.mem.pid = w)
    (hpending : (w, item.id) ∈ pending v.shared.trace) :
    Hands w v.shared { v.shared with trace := .sent v.mem.pid item.id n :: v.shared.trace } := by
  refine ⟨grown_of_tables rfl rfl, fun u hu => ?_, fun x hx => Or.inl (List.mem_filter.mp hx).1,
    Or.inr ⟨item.id, hpending, List.filterMap_cons_some rfl⟩⟩
  rw [pendingOf, pending, List.filter_filter, pendingOf]
  refine List.filter_congr (fun x _ => ?_)
  by_cases hx : x.1 = u
  · have hne : x ≠ (v.mem.pid, item.id) := by
      rintro rfl
      exact hu (hx.symm.trans hpid)
    simp [hx, hne]
  · simp [hx]

theorem hands_die (w : Nat) (s : Shared) : Hands w s (die w s) := by
  refine ⟨grown_of_tables rfl rfl, fun u hu => ?_,
    fun x hx => Or.inl (List.mem_filter.mp hx).1, Or.inl rfl⟩
  rw [pendingOf, die, pending, List.filter_filter, pendingOf]
  refine List.filter_congr (fun x _ => ?_)
  by_cases hx : x.1 = u
  · simp [hx, hu]
  · simp [hx]

end Hands

def contract : Contract Nat Shared Memory where
  inv := Distinct
  guar := Hands
  rely w s s' := pendingOf w s' = pendingOf w s
  idle w v := v.mem.pid = w
  rely_refl _ _ := rfl
  rely_trans _ _ _ _ h h' := h'.trans h
  idle_stable _ _ _ _ h _ := h

section Contract

variable {w : Nat} {v : World}

def Holding (w : Nat) (i : Id) (v : World) : Prop := v.mem.pid = w ∧ (w, i) ∈ pending v.shared.trace

theorem holding_others {i : Id} {v v' : World} (h : Holding w i v)
    (hothers : contract.Others w v v') :
    Holding w i v' := by
  obtain ⟨hmem, hrely, _⟩ := hothers
  have hmine : (w, i) ∈ pendingOf w v.shared := List.mem_filter.mpr ⟨h.2, decide_eq_true rfl⟩
  rw [← show pendingOf w v'.shared = pendingOf w v.shared from hrely] at hmine
  exact ⟨hmem ▸ h.1, (List.mem_filter.mp hmine).1⟩

theorem wp_handless {α : Type} {p : Code α} (hany : Always Any p)
    (hgrown : Always (fun v v' : World => Grown v.shared v'.shared) p)
    (hhandless : Always Handless p) {P : World → Prop}
    (hothers : ∀ v v', P v → contract.Others w v v' → P v')
    (hkeep : ∀ v v', P v → Any v v' → Handless v v' → P v') (hP : P v) :
    Wp (contract.Others w) (contract.Own w) p (fun _ => P) v := by
  refine wp_always (always_and hany (always_and hgrown hhandless)) hothers ?_ hP
  exact fun s t hs hst => ⟨hands_handless hst.2.1 hst.2.2, hkeep s t hs hst.1 hst.2.2⟩

theorem wp_processItem (item : JobItem) (h : Holding w item.id v) :
    Wp (contract.Others w) (contract.Own w) (processItem item) (fun _ v => v.mem.pid = w) v := by
  have hkeep : ∀ v v', Holding w item.id v → Any v v' → Handless v v' → Holding w item.id v' :=
    fun v v' hv hany hhandless => ⟨hany.pid.trans hv.1, pending_handless hhandless ▸ hv.2⟩
  have hwrite : ∀ {p : Code Unit}, Always Write p →
      Always Any p ∧ Always (fun v v' : World => Grown v.shared v'.shared) p :=
    fun h => ⟨always_mono (fun _ _ h => h.toAny) h,
      always_mono (fun _ _ h => grown_of_origins h.origins) h⟩
  refine wp_seq (wp_handless (hwrite (write_markItemRunning _)).1
    (hwrite (write_markItemRunning _)).2
    (handless_markItemRunning _) (fun _ _ => holding_others) hkeep h) (fun _ u hu => ?_)
  refine wp_seq (wp_handless (hwrite (write_recordAttemptStart _ _)).1
    (hwrite (write_recordAttemptStart _ _)).2
    (handless_recordAttemptStart _ _) (fun _ _ => holding_others) hkeep hu) (fun _ u hu => ?_)
  intro u' hothers
  obtain ⟨hpid, hpending⟩ := holding_others hu hothers
  exact ⟨hands_startSend hpid hpending, hpid⟩

theorem wp_claim (h : v.mem.pid = w) :
    Wp (contract.Others w) (contract.Own w) claimNextItem (fun item v => match item with
      | none => v.mem.pid = w
      | some item => Wp (contract.Others w) (contract.Own w) (processItem item)
          (fun _ v => v.mem.pid = w) v) v := by
  have hpid : ∀ {u u' : World}, u.mem.pid = w → contract.Others w u u' → u'.mem.pid = w :=
    fun hu hothers => hothers.1 ▸ hu
  simp only [claimNextItem, dateNow, claimTransaction, wp_bind, wp_query, wp_update]
  intro v₁ h₁
  refine ⟨hands_refl w _, fun v₂ h₂ => ?_⟩
  have hpid₂ := hpid (hpid h h₁) h₂
  cases hrow : nextClaimable v₂.shared.db v₁.shared.now with
  | none => exact ⟨hands_refl w _, hpid₂⟩
  | some row =>
    refine ⟨hands_claimRow hpid₂ hrow, ?_⟩
    have hholding : Holding w row.id (claimRow row v₁.shared.now v₂) :=
      ⟨hpid₂, hpid₂ ▸ List.mem_cons_self⟩
    simp only [Option.map_some]
    split
    · exact hpid₂
    · rw [selectItem, wp_query]
      intro v₃ h₃
      have hholding₃ := holding_others hholding h₃
      refine ⟨hands_refl w _, ?_⟩
      cases hitem : v₃.shared.db.item row.id with
      | none => exact hholding₃.1
      | some item =>
        obtain ⟨_, hid⟩ := Table.find_mem hitem
        exact wp_processItem item (hid ▸ hholding₃)

theorem meets_work (w : Nat) (work : Work) : contract.Meets w work.code := by
  intro v hv
  have hpid : ∀ v v' : World, v.mem.pid = w → contract.Others w v v' → v'.mem.pid = w :=
    fun _ _ hu hothers => hothers.1 ▸ hu
  have hquiet : ∀ {α : Type} {p : Code α}, Always Any p →
      Always (fun v v' : World => Grown v.shared v'.shared) p → Always Handless p →
        ∀ v, v.mem.pid = w → Wp (contract.Others w) (contract.Own w) p
          (fun _ v => v.mem.pid = w) v :=
    fun hany hgrown hhandless _ hv =>
      wp_handless (P := fun v => v.mem.pid = w) hany hgrown hhandless hpid
      (fun _ _ hv hany _ => hany.pid.trans hv) hv
  cases work with
  | recover =>
    refine wp_seq (hquiet ?_ ?_ handless_recoverStaleClaims v hv) (fun _ _ h => h)
    · exact always_mono (fun _ _ h => h.toAny) write_recoverStaleClaims
    · exact always_mono (fun _ _ h => grown_of_origins h.origins) write_recoverStaleClaims
  | call c =>
    by_cases htick : c = .tick
    case neg => exact hquiet (any_call c) (grown_call c) (handless_call htick) v hv
    case pos =>
      subst htick
      refine Statements.wp_tick (fun f u hu => ?_) (fun hmemo u hu => ?_)
        (fun u hu => wp_claim hu) hv
      · exact fun u' hothers => ⟨hands_refl w _, hpid u u' hu hothers⟩
      · refine hquiet ?_ ?_ ?_ u hu
        · exact always_mono (fun _ _ h => h.toAny) hmemo
        · exact always_mono (fun _ _ h => grown_of_origins h.origins) hmemo
        · exact always_mono (fun _ _ => handless_memo) hmemo

end Contract

/-- No job stops being at work as long as one of its items is pending. -/
def Orderly (C : Processes) (a : Step) : Prop :=
  ∀ j ∈ C.shared.db.jobs, j.status ∈ [JobStatus.queued, .running] →
    (∃ j' ∈ (rules.step C a).shared.db.jobs, j'.id = j.id ∧
      j'.status ∉ [JobStatus.queued, .running]) →
      ∀ x ∈ pending C.shared.trace, ∀ r ∈ C.shared.db.items, r.id = x.2 → r.jobId ≠ j.id

instance (C : Processes) (a : Step) : Decidable (Orderly C a) := by
  unfold Orderly
  infer_instance

def Backed (s : Shared) : Prop :=
  ∀ x ∈ pending s.trace, ∃ r ∈ s.db.items, r.id = x.2 ∧ AtWork r.jobId s

section Run

variable {C : Processes} {s s' : Shared} {w : Nat}

theorem item_grown (h : Grown s s') {r : JobItem} (hr : r ∈ s.db.items) :
    ∃ r' ∈ s'.db.items, itemOrigin r' = itemOrigin r := by
  obtain ⟨new, hitems⟩ := h.items
  have hmem : itemOrigin r ∈ s'.db.items.map itemOrigin :=
    hitems ▸ List.mem_append_left _ (List.mem_map_of_mem hr)
  exact List.mem_map.mp hmem

theorem job_grown (h : Grown s s') {j : Job} (hj : j ∈ s.db.jobs) :
    ∃ j' ∈ s'.db.jobs, jobOrigin j' = jobOrigin j := by
  obtain ⟨new, hjobs⟩ := h.jobs
  have hmem : jobOrigin j ∈ s'.db.jobs.map jobOrigin :=
    hjobs ▸ List.mem_append_left _ (List.mem_map_of_mem hj)
  exact List.mem_map.mp hmem

theorem known_grown (h : Grown s s') {id : Id} (hid : id ∈ jobIds s) : id ∈ jobIds s' := by
  obtain ⟨j, hj, rfl⟩ := List.mem_map.mp hid
  obtain ⟨j', hj', horigin⟩ := job_grown h hj
  exact List.mem_map.mpr ⟨j', hj', congrArg JobOrigin.id horigin⟩

theorem honoured_initial (concurrency : Nat → Nat) (now : Ms) :
    contract.Honoured (initial concurrency now) :=
  ⟨List.nodup_nil, fun _ => rfl⟩

theorem honoured_step (h : contract.Honoured C) (a : Step) :
    contract.Honoured (rules.step C a) ∧ ∃ w, Hands w C.shared (rules.step C a).shared := by
  refine (Contract.honoured_step (T := fun s s' => ∃ w, Hands w s s') meets_work
    (fun s => ⟨0, hands_refl 0 s⟩) (fun w s s' hands hinv => ?_) (fun w s hinv => ?_)
    (fun _ _ _ => rfl) (fun ms s hinv => ?_) h a).symm
  · exact ⟨⟨w, hands⟩, hands.distinct hinv, hands.others⟩
  · exact ⟨⟨w, hands_die w s⟩, hinv, (hands_die w s).others⟩
  · refine ⟨⟨0, grown_of_tables rfl rfl, fun _ _ => rfl, fun _ hx => Or.inl hx, Or.inl rfl⟩, hinv, ?_⟩
    exact fun _ _ => rfl

theorem grown_refl (s : Shared) : Grown s s := grown_of_tables rfl rfl

theorem grown_trans {s'' : Shared} (h : Grown s s') (h' : Grown s' s'') : Grown s s'' := by
  obtain ⟨new, hitems⟩ := h.items
  obtain ⟨new', hitems'⟩ := h'.items
  obtain ⟨jobs, hjobs⟩ := h.jobs
  obtain ⟨jobs', hjobs'⟩ := h'.jobs
  refine ⟨⟨new ++ new', ?_⟩, ⟨jobs ++ jobs', ?_⟩, fun hn => h'.distinct (h.distinct hn)⟩
  · rw [hitems', hitems, List.append_assoc]
  · rw [hjobs', hjobs, List.append_assoc]

theorem grown_run (h : contract.Honoured C) (as : List Step) :
    Grown C.shared (run C as).shared := by
  induction as generalizing C with
  | nil => exact grown_refl _
  | cons a as ih =>
    obtain ⟨hhonoured, _, hands⟩ := honoured_step h a
    exact grown_trans hands.toGrown (ih hhonoured)

theorem backed_step (hands : Hands w s s') (h : Backed s) (horderly : ∀ j ∈ s.db.jobs,
      j.status ∈ [JobStatus.queued, .running] →
      (∃ j' ∈ s'.db.jobs, j'.id = j.id ∧ j'.status ∉ [JobStatus.queued, .running]) →
        ∀ x ∈ pending s.trace, ∀ r ∈ s.db.items, r.id = x.2 → r.jobId ≠ j.id) : Backed s' := by
  intro x hx
  have hback : ∀ r ∈ s.db.items, r.id = x.2 → AtWork r.jobId s' →
      ∃ r' ∈ s'.db.items, r'.id = x.2 ∧ AtWork r'.jobId s' := by
    intro r hr hid hwork
    obtain ⟨r', hr', horigin⟩ := item_grown hands.toGrown hr
    have hjob : r'.jobId = r.jobId := congrArg ItemOrigin.jobId horigin
    exact ⟨r', hr', (congrArg ItemOrigin.id horigin).trans hid, hjob ▸ hwork⟩
  obtain hold | ⟨hjobs, r, hr, hid, j, hj, hjob, hstatus⟩ := hands.claims x hx
  · obtain ⟨r, hr, hid, j, hj, hjob, hstatus⟩ := h x hold
    refine hback r hr hid ?_
    obtain ⟨j', hj', hid'⟩ := List.mem_map.mp (known_grown hands.toGrown (List.mem_map_of_mem hj))
    refine ⟨j', hj', hid'.trans hjob, ?_⟩
    by_contra hleft
    exact horderly j hj hstatus ⟨j', hj', hid', hleft⟩ x hold r hr hid hjob.symm
  · exact hback r hr hid ⟨j, hjobs ▸ hj, hjob, hstatus⟩

theorem sent_at_work (hands : Hands w s s') (h : Backed s) :
    sends s' = sends s ∨ ∃ r ∈ s.db.items, AtWork r.jobId s ∧ sends s' = r.id :: sends s := by
  refine hands.sent.imp id ?_
  rintro ⟨i, hi, hsends⟩
  obtain ⟨r, hr, hid, hwork⟩ := h (w, i) hi
  exact ⟨r, hr, hwork, hid ▸ hsends⟩

end Run

end WhatsappTester.Jobs.Handover
