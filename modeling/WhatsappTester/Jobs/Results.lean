import WhatsappTester.Jobs.Outcomes
import WhatsappTester.Jobs.Pacing
import WhatsappTester.Jobs.Settlement

namespace WhatsappTester.Jobs.Results

open Schema State Atomic Atomic.Program Atomic.Runs Statements JobService Worker Ledger Process Solo
  Registry Uniqueness
open Standing Settling Verdict Scheduler Occurrences Course Pacing Trails Outcomes

def reported : SendOutcome → SendStatus
  | .results ((.sent, _) :: _) => .sent
  | .results ((.notOnWhatsapp, _) :: _) => .notOnWhatsapp
  | .results ((.skipped, _) :: _) => .skipped
  | _ => .error

def addressee (r : JobItem) : Recipient := ⟨r.recipientNumber, r.recipientName⟩

/-- The results are about the recipients in their order, whom the items are addressed to,
each with the outcome of the last attempt for its item. -/
structure Faithful (last : Id → Option SendOutcome) (recipients : List Recipient)
    (items : List JobItem) (results : List RecipientResult) : Prop where
  addressees : items.map addressee = recipients
  recipients : results.map (fun x => (⟨x.number, x.name⟩ : Recipient)) = recipients
  statuses : List.Forall₂ (fun r x => ∃ outcome, last r.id = some outcome ∧
    x.status = reported outcome) items results

structure Addressed (s : Shared) : Prop where
  owned : ∀ r ∈ s.db.items, r.jobId ∈ s.db.jobs.map (·.id)
  jobs : ∀ j ∈ s.db.jobs, ∀ row ∈ s.db.schedules, ofSchedule row.id j = true →
    (s.db.itemsOf j.id).map addressee = row.recipients

section Addressed

variable {s : Shared} {v w : World}

theorem addressees_origins (s : Shared) (id : Id) : (s.db.itemsOf id).map addressee =
    ((s.db.items.map itemOrigin).filter (fun o => decide (o.jobId = id))).map
      (fun o => (⟨o.recipientNumber, o.recipientName⟩ : Recipient)) := by
  simp only [Db.itemsOf, List.filter_map, List.map_map, Function.comp_def]
  rfl

theorem addressees_inOrder (h : Register (originsOf v.shared)) {j : Job}
    (hj : j ∈ v.shared.db.jobs) :
    (itemsInOrder j.id v.shared).map addressee = (v.shared.db.itemsOf j.id).map addressee := by
  have hsorted :=
    congrArg (List.map (fun o : ItemOrigin => (⟨o.recipientNumber, o.recipientName⟩ : Recipient)))
    (items_sorted h hj)
  rw [addressees_origins]
  rw [List.map_map] at hsorted
  exact hsorted

theorem addressed_steady (h : Addressed v.shared) (hs : Steady v w) : Addressed w.shared := by
  refine ⟨fun r hr => ?_, fun j hj row hrow hof => ?_⟩
  · obtain ⟨r₀, hr₀, horigin⟩ :=
      List.mem_map.mp (hs.items ▸ List.mem_map_of_mem (f := itemOrigin) hr)
    have hids := congrArg (List.map JobOrigin.id) hs.jobs
    simp only [List.map_map, Function.comp_def, jobOrigin] at hids
    rw [hids, ← show r₀.jobId = r.jobId from congrArg ItemOrigin.jobId horigin]
    exact h.owned r₀ hr₀
  · obtain ⟨j₀, hj₀, horigin⟩ := List.mem_map.mp (hs.jobs ▸ List.mem_map_of_mem (f := jobOrigin) hj)
    obtain ⟨row₀, hrow₀, hname, hrecipients⟩ := hs.rows row hrow
    have hid : j₀.id = j.id := congrArg JobOrigin.id horigin
    have htype : j₀.sourceType = j.sourceType := congrArg JobOrigin.sourceType horigin
    have hsource : j₀.sourceId = j.sourceId := congrArg JobOrigin.sourceId horigin
    rw [addressees_origins, hs.items, ← addressees_origins, ← hid, ← hrecipients]
    refine h.jobs j₀ hj₀ row₀ hrow₀ ?_
    rw [ofSchedule, htype, hsource, hname]
    exact hof

theorem addressees_newItems (jobId : Id) (now : Ms) (first : Id) (seq : Nat)
    (items : List NewItem) :
    (newItems jobId now first seq items).map addressee =
      items.map (fun item => (⟨item.number.getD "", item.name.getD ""⟩ : Recipient)) := by
  induction items generalizing first seq with
  | nil => rfl
  | cons item items ih =>
    rw [newItems, List.map_cons, ih, List.map_cons]
    rfl

theorem addressees_fireArgs (jobId : Id) (now : Ms) (first : Id) (row : Schedule) :
    (newItems jobId now first 0 (fireArgs row).items).map addressee = row.recipients := by
  rw [addressees_newItems, fireArgs, List.map_map]
  exact List.map_id _

theorem addressed_insert {a : CreateJobArgs} {id : Id} {now : Ms} {db : Db} (h : Addressed s)
    (htransaction : createTransaction id now a s.uuid s.db = .ok db) (uuid : Id) (t : List Event)
    (ha : ∀ row ∈ s.db.schedules, ofSchedule row.id (newJob id now a) = true →
      (newItems id now s.uuid 0 a.items).map addressee = row.recipients) :
    Addressed { s with db := db, uuid := uuid, trace := t } := by
  obtain ⟨rfl, hfresh, _⟩ := createTransaction_ok htransaction
  refine ⟨insert_owned htransaction h.owned,
    List.forall_mem_append.mpr ⟨fun j hj row hrow hof => ?_,
      List.forall_mem_singleton.mpr (fun row hrow hof => ?_)⟩⟩
  · rw [insert_itemsOf htransaction (hfresh j hj)]
    exact h.jobs j hj row hrow hof
  · rw [show (newJob id now a).id = id from rfl, insert_itemsOf_new htransaction h.owned]
    exact ha row hrow hof

theorem addressed_call (c : Call) (hc : Honest c) (hdated : Dated v.shared.uuid v.shared)
    (h : Addressed v.shared) :
    Wp Eq (fun _ t => Addressed t.shared) c.code (fun _ t => Addressed t.shared) v := by
  have hstart : ∀ row' ∈ v.shared.db.schedules, ∀ row ∈ v.shared.db.schedules, row'.id = row.id →
      row'.recipients = row.recipients :=
    fun row' hrow' row hrow hid => congrArg _ (Table.eq_of_key hdated.distinct hrow' hrow hid)
  refine wp_weaken (fun _ _ ht => ht.1) (fun _ _ ht => ht.1) (keeps_call
    (P := fun t => Addressed t.shared ∧ ∀ row' ∈ t.shared.db.schedules,
      ∀ row ∈ v.shared.db.schedules, row'.id = row.id → row'.recipients = row.recipients)
    (fun a b hab ha => ⟨addressed_steady ha.1 hab, fun row' hrow' row hrow hid => ?_⟩) c
    (fun input args _ _ => ⟨⟨h.owned, fun j hj => ?_⟩, ?_⟩)
    (fun a ha id u db htransaction hu => ?_) ⟨h, hstart⟩)
  · obtain ⟨row₀, hrow₀, hname, hrecipients⟩ := hab.rows row' hrow'
    rw [← hrecipients]
    exact ha.2 row₀ hrow₀ row hrow (hname.trans hid)
  · refine List.forall_mem_append.mpr ⟨h.jobs j hj, List.forall_mem_singleton.mpr (fun hof => ?_)⟩
    have hnone : jobsOf (toString v.shared.uuid) v.shared = [] :=
      List.map_eq_nil_iff.mp (shows_fresh hdated (le_refl _)).past
    have hmem : j ∈ jobsOf (toString v.shared.uuid) v.shared := List.mem_filter.mpr ⟨hj, hof⟩
    rw [hnone] at hmem
    cases hmem
  · refine List.forall_mem_append.mpr
      ⟨hstart, List.forall_mem_singleton.mpr (fun row hrow hid => ?_)⟩
    obtain ⟨n, hn, hname⟩ := hdated.named row hrow
    exact absurd (hid.trans hname) (name_ne (Nat.ne_of_gt hn))
  · have hschedules : db.schedules = u.shared.db.schedules := by
      rw [(createTransaction_ok htransaction).1]
    refine ⟨addressed_insert hu.1 htransaction _ _ (fun row hrow hof => ?_), fun row' hrow' => ?_⟩
    · have hsource := of_decide_eq_true hof
      obtain rfl | ⟨row₀, hrow₀, rfl⟩ := ha
      · exact absurd hsource.1 hc.2
      · rw [addressees_fireArgs]
        exact (hu.2 row hrow row₀ hrow₀ (Option.some.inj hsource.2).symm).symm
    · exact hu.2 row' (hschedules ▸ hrow')

end Addressed

structure Listed (s : Server) : Prop where
  charted : Charted 0 (fun _ => True) s
  addressed : Addressed s.world.shared

theorem listed_step {s : Server} (h : Listed s) {a : Action} (ha : Genuine a) :
    Listed (step s a) := by
  refine ⟨charted_step (fun _ _ _ _ _ => trivial) h.charted ha (fun _ _ _ _ _ => trivial), ?_⟩
  refine step_keeps (I := fun w => Addressed w.shared)
    (fun c hc => addressed_call c (ha c hc) h.charted.course.dated h.addressed) ?_ ?_ ?_ h.addressed
  · exact fun v ms hv => ⟨hv.owned, hv.jobs⟩
  · exact fun v hv => ⟨hv.owned, hv.jobs⟩
  · exact fun v hv => addressed_steady (v := { v with mem := fresh v.mem.pid v.mem }) hv
      (steady_boot v)

theorem listed_run (concurrency : Nat) (now : Ms) {as : List Action} (has : ∀ a ∈ as, Genuine a) :
    Listed (run (initial concurrency now) as) := by
  refine play_invariant Listed (fun s a hs ha => listed_step hs ha) ⟨?_, ?_⟩ (along_all has _)
  · exact @charted_initial 0 concurrency now [] (List.forall_mem_nil _)
  · exact ⟨fun _ hr => absurd hr List.not_mem_nil, fun _ hj => absurd hj List.not_mem_nil⟩

section Reports

variable {v w : World} {row : Schedule}

theorem settledRow_lastResult (now : Ms) (lastResult : LastResult) (row : Schedule) :
    (settledRow now lastResult row).lastResult = some lastResult := by
  simp only [settledRow]
  split
  · rfl
  · split
    · rfl
    · split <;> rfl

def Reports (row : Schedule) (id : Id) (s : Shared) : Prop :=
  ∃ row' ∈ s.db.schedules, row'.id = row.id ∧ row'.recipients = row.recipients ∧
    ∃ lastResult, row'.lastResult = some lastResult ∧
    lastResult.results = (itemsInOrder id s).map resultOf

theorem reports_onJobSettled {view : JobView} {id : Id} (hrow : row ∈ v.shared.db.schedules)
    (hdistinct : (v.shared.db.schedules.map (·.id)).Nodup) (hof : ofSchedule row.id view.job = true)
    (hitems : view.items = itemsInOrder id v.shared) :
    Ends (onJobSettled view) (fun _ t => Reports row id t.shared) v := by
  obtain ⟨htype, hsource⟩ := of_decide_eq_true hof
  have hfind : v.shared.db.schedule row.id = some row := Table.find_eq_some hdistinct hrow
  simp only [Ends, onJobSettled, record, wp_bind, wp_exec, forall_eq', true_and, htype,
    ↓reduceIte, hsource, Option.getD_some, selectSchedule, wp_query, hfind, dateNow,
    updateSchedules, wp_update, wp_pure]
  refine ⟨_, Table.mem_update.mpr ⟨row, hrow, if_pos (decide_eq_true rfl)⟩, rfl, rfl, _,
    settledRow_lastResult _ _ _, ?_⟩
  rw [hitems]
  rfl

/-- A job that is settled has only closed items, and the row of its schedule shows what they say. -/
def Told (row : Schedule) (id : Id) (s : Shared) : Prop :=
  ∀ j ∈ s.db.jobs, j.id = id → ofSchedule row.id j = true →
    (∀ r ∈ s.db.items, r.jobId = id → r.status.terminal = true) ∧ Reports row id s

theorem told_settle {id k : Id} (hregister : Register (originsOf v.shared))
    (hrow : row ∈ v.shared.db.schedules) (hdistinct : (v.shared.db.schedules.map (·.id)).Nodup) :
    Ends (settle k) (fun _ t => settlements id t.shared = settlements id v.shared ∨
      Told row id t.shared) v := by
  refine (wp_bind ..).mpr (wp_checkJobCompletion hregister trivial (fun _ => .inl rfl) ?_)
  intro j hj hid hopen hall status hstatus w hw htrace
  refine ⟨trivial, ?_⟩
  have hitems : w.shared.db.items = v.shared.db.items := congrArg Custody.items hw.custody
  have hsettled : Ends (onJobSettled ⟨settledJob status v.shared.now j, itemsInOrder j.id w.shared⟩)
      (fun _ t => ofSchedule row.id j = true → Reports row j.id t.shared) w := by
    by_cases hof : ofSchedule row.id j = true
    · exact wp_mono (fun _ t ht _ => ht)
        (reports_onJobSettled (hw.schedules ▸ hrow) (hw.schedules ▸ hdistinct) hof rfl)
    · exact ends_iff.mpr (fun h => absurd h hof)
  refine wp_mono ?_ (wp_and (Verdict.ends_onJobSettled _) hsettled)
  rintro _ t ⟨⟨httrace, htjobs, htitems, _⟩, hreports⟩
  by_cases hk : id = j.id
  · subst hk
    refine .inr (fun j' hj' hid' hof => ⟨fun r hr hjob => ?_, hreports ?_⟩)
    · rw [htitems, hitems] at hr
      exact hall r hr hjob
    · rw [htjobs, hw.jobs] at hj'
      obtain ⟨j₀, hj₀, hafter⟩ := Table.mem_update.mp hj'
      have horigin : jobOrigin j' = jobOrigin j₀ := by
        rw [← hafter]
        split <;> rfl
      have hid₀ : j'.id = j₀.id := congrArg JobOrigin.id horigin
      have htype : j'.sourceType = j₀.sourceType := congrArg JobOrigin.sourceType horigin
      have hsource : j'.sourceId = j₀.sourceId := congrArg JobOrigin.sourceId horigin
      obtain rfl := Table.eq_of_key (jobs_nodup hregister) hj₀ hj (hid₀.symm.trans hid')
      rwa [ofSchedule, htype, hsource] at hof
  · refine .inl ?_
    have hother : settles id (.settled w.mem.pid j.id) = false :=
      decide_eq_false (fun heq => hk heq.symm)
    simp only [settlements, httrace, htrace, settledJob, List.countP_cons, hother,
      Bool.false_eq_true, ↓reduceIte, Nat.add_zero]

theorem told_complete {id : Id} (i : Id) (outcome : SendOutcome) (random : Nat)
    (hregister : Register (originsOf v.shared)) (hrow : row ∈ v.shared.db.schedules)
    (hdistinct : (v.shared.db.schedules.map (·.id)).Nodup) :
    Ends (complete i outcome random)
      (fun _ t => settlements id t.shared = settlements id v.shared ∨ Told row id t.shared) v := by
  refine Probe.wp_complete i outcome random trivial (fun _ => .inl rfl) (fun task _ _ => ?_)
  have hrecorded : Ends (recordOutcome task outcome random)
      (fun _ u => u.shared.db.schedules = v.shared.db.schedules ∧ origins u = origins v ∧
        settlements id u.shared = settlements id v.shared) v := by
    refine ends_always (fun a b ha hab => ?_) (always_and (still_recordOutcome task outcome random)
      (always_and (write_recordOutcome task outcome random)
        (undecided_recordOutcome task outcome random)))
      ⟨rfl, rfl, rfl⟩
    obtain ⟨hstill, hwrite, hundecided⟩ := hab
    exact ⟨hstill.schedules.trans ha.1, hwrite.origins.trans ha.2.1,
      (settlements_eq hundecided.reports id).trans ha.2.2⟩
  refine wp_seq hrecorded ?_
  rintro _ u ⟨hschedules, horigins, hsettlements⟩
  have htold : Ends (settle task.item.jobId)
      (fun _ t => settlements id t.shared = settlements id u.shared ∨ Told row id t.shared) u :=
    told_settle (register_origins hregister horigins) (hschedules ▸ hrow) (hschedules ▸ hdistinct)
  rw [hsettlements] at htold
  refine wp_seq htold ?_
  rintro _ t ht _ rfl
  exact ⟨trivial, ht⟩

theorem told_step {s : Server} (h : Listed s) (hup : s.up = true) {a : Action}
    (ha : Calm a) {id : Id} (hrow : row ∈ s.world.shared.db.schedules)
    (hsettled : settlements id (step s a).world.shared ≠ settlements id s.world.shared) :
    Told row id (step s a).world.shared := by
  cases a with
  | advance ms => exact absurd rfl hsettled
  | restart => exact absurd (by simp [step, hup]) hsettled
  | crash c n => cases ha
  | call c =>
    have hstep := step_call hup c
    rw [hstep] at hsettled ⊢
    by_cases hcompletes : Settlement.completes (.call c)
    · cases c with
      | complete i outcome random =>
        exact (wp_run (told_complete i outcome random h.charted.register hrow
          h.charted.course.dated.distinct)).resolve_left hsettled
      | _ => cases hcompletes
    · have hsilent : Always (Settlement.Same (settlements id)) c.code :=
        always_mono (fun _ _ => Settlement.settlements_silent)
          (@Settlement.silent_work (.call c) (by simpa using hcompletes))
      exact absurd (always_run (T := Settlement.Same (settlements id)) (fun _ => rfl)
        (fun _ _ _ h h' => Eq.trans h' h) hsilent s.world) hsettled

end Reports

section Outcome

theorem classifyException_ne (err : Retry.SendError) :
    Retry.classifyException err ≠ .permanent := by
  unfold Retry.classifyException
  split <;> simp

/-- The status and the category of an item at its end tell the outcome of the last attempt. -/
theorem resultStatus_eq {r : JobItem} {outcome : SendOutcome}
    (hstatus : r.status = endStatus (sendStatus outcome))
    (hcategory : r.lastErrorCategory = (classify outcome).2.1) :
    resultStatus r = reported outcome := by
  unfold resultStatus
  rw [hstatus, hcategory]
  cases outcome with
  | threw err => simp [sendStatus, endStatus, classify, reported, classifyException_ne]
  | results results =>
    cases results with
    | nil => simp [sendStatus, endStatus, classify, reported, classifyException_ne]
    | cons result rest =>
      obtain ⟨status, detail⟩ := result
      cases status <;> rfl

theorem last_outcome {os : List SendOutcome} {w : World} {r : JobItem}
    (h : Stage r.id os (trail r.id w)) (hr : r ∈ w.shared.db.items)
    (hterminal : r.status.terminal = true) :
    ∃ outcome, os.getLast? = some outcome ∧ resultStatus r = reported outcome := by
  obtain ⟨outcome, _, hlast, hstatus, hcategory, _⟩ := stage_ended h hr hterminal
  exact ⟨outcome, hlast, resultStatus_eq hstatus hcategory⟩

end Outcome

theorem results_in_order (concurrency : Nat) (now : Ms) (as : List Action) (a : Action)
    (h : ∀ b ∈ as ++ [a], Calm b ∧ Genuine b) :
    let start := initial concurrency now
    let v := (run start as).world
    let w := (run start (as ++ [a])).world
    ∀ j ∈ w.shared.db.jobs, settlements j.id w.shared ≠ settlements j.id v.shared →
      ∀ row ∈ v.shared.db.schedules, ofSchedule row.id j = true →
        ∃ row' ∈ w.shared.db.schedules, row'.id = row.id ∧
          ∃ lastResult, row'.lastResult = some lastResult ∧
          Faithful (fun i => (outcomes i start (as ++ [a])).getLast?) row.recipients
            (itemsInOrder j.id w.shared)
            lastResult.results := by
  intro start v w j hj hsettled row hrow hof
  have hlisted : Listed (run start as) :=
    listed_run concurrency now (fun b hb => (h b (by simp [hb])).2)
  have hlisted' : Listed (run start (as ++ [a])) :=
    listed_run concurrency now (fun b hb => (h b hb).2)
  have hstaged : ∀ i, Staged i (outcomes i start (as ++ [a])) (run start (as ++ [a])) := fun i =>
    staged_run (staged_initial i concurrency now) (fun b hb => (h b hb).1)
  have hup : (run start as).up = true :=
    (staged_run (staged_initial 0 concurrency now) (fun b hb => (h b (by simp [hb])).1)).up
  have hstep : run start (as ++ [a]) = step (run start as) a := play_append start as [a]
  have htold : Told row j.id w.shared := by
    have htold : settlements j.id (step (run start as) a).world.shared ≠
        settlements j.id (run start as).world.shared →
        Told row j.id (step (run start as) a).world.shared :=
      told_step hlisted hup (h a (by simp)).1 hrow
    rw [← hstep] at htold
    exact htold hsettled
  obtain ⟨hall, row', hrow', hname, hrecipients, lastResult, hlast, hresults⟩ := htold j hj rfl hof
  have haddressees : (itemsInOrder j.id w.shared).map addressee = row.recipients := by
    rw [addressees_inOrder hlisted'.charted.register hj, ← hrecipients]
    exact hlisted'.addressed.jobs j hj row' hrow' (hname ▸ hof)
  refine ⟨row', hrow', hname, lastResult, hlast, haddressees, ?_, ?_⟩
  · rw [hresults, List.map_map, ← haddressees]
    rfl
  · rw [hresults, List.forall₂_map_right_iff]
    refine List.forall₂_same.mpr (fun r hr => ?_)
    obtain ⟨hr, hjob⟩ := List.mem_filter.mp (List.mem_insertionSort _ |>.mp hr)
    exact last_outcome (hstaged r.id).stage hr (hall r hr (of_decide_eq_true hjob))

def twoSends : List Action :=
  [.call (.createSchedule (toNumbers ["1", "2"])), .call (.runTickIfReady true), .call .tick,
    .call (.complete 3 (.results [(.sent, none)]) 0)]

def lastAnswer : Action := .call (.complete 2 (.results [(.notOnWhatsapp, none)]) 0)

theorem results_in_order_twoSends :
    let w := (run (initial 2 0) (twoSends ++ [lastAnswer])).world
    ∃ row ∈ w.shared.db.schedules, ∃ lastResult, row.lastResult = some lastResult ∧
      Faithful (fun i => (outcomes i (initial 2 0) (twoSends ++ [lastAnswer])).getLast?)
        [⟨"1", ""⟩, ⟨"2", ""⟩]
        (itemsInOrder 1 w.shared) lastResult.results := by
  intro w
  have hallowed : ∀ b ∈ twoSends ++ [lastAnswer], Calm b ∧ Genuine b := by decide +kernel
  obtain ⟨j, hj, hid, hsettled, row, hrow, hof, hrecipients⟩ : ∃ j ∈ w.shared.db.jobs, j.id = 1 ∧
      settlements j.id w.shared ≠ settlements j.id (run (initial 2 0) twoSends).world.shared ∧
      ∃ row ∈ (run (initial 2 0) twoSends).world.shared.db.schedules, ofSchedule row.id j = true ∧
        row.recipients = [⟨"1", ""⟩, ⟨"2", ""⟩] := by
    decide +kernel
  obtain ⟨row', hrow', _, lastResult, hlast, hfaithful⟩ :=
    results_in_order 2 0 twoSends lastAnswer hallowed j hj hsettled row hrow hof
  rw [hid, hrecipients] at hfaithful
  exact ⟨row', hrow', lastResult, hlast, hfaithful⟩

end WhatsappTester.Jobs.Results
