import WhatsappTester.Statements

namespace WhatsappTester.Outbound

open Schema State Atomic.Program Atomic.Runs Statements Jobs KillSwitch Routes Process

def isStart : Event → Bool
  | .sent .. | .sendStarted .. => true
  | _ => false

def starts (t : List Event) : Nat := t.countP isStart

def isSent : Event → Bool
  | .sent .. => true
  | _ => false

def isSend : Todo → Bool
  | .send .. => true
  | .skip .. => false

/-- A handler of a send route has a recipient left that it has not started to send to. -/
def Sending (v : World) : Prop := ∃ h ∈ v.mem.handlers, h.todo.any isSend

/-- The switch is on, no handler has anything left to send, and `n` sends were started so far. -/
structure Silent (n : Nat) (v : World) : Prop where
  disabled : outboundDisabled v.shared.db = true
  spent : ∀ h ∈ v.mem.handlers, ∀ x ∈ h.todo, isSend x = false
  starts : starts v.shared.trace = n

structure Hushed (v v' : World) : Prop where
  webSide : webSide v' = webSide v
  sent : v'.shared.trace.filter isSent = v.shared.trace.filter isSent

variable {n : Nat} {v v' : World}

theorem starts_split (t : List Event) :
    starts t = ((t.filter isWeb).countP isStart) + (t.filter isSent).length := by
  simp only [starts, List.countP_filter, ← List.countP_eq_length_filter]
  induction t with
  | nil => rfl
  | cons e t ih =>
    simp only [List.countP_cons, ih]
    cases e <;> simp [isStart, isWeb, isSent] <;> omega

theorem outboundDisabled_settings {db db' : Db} (h : db'.settings = db.settings) :
    outboundDisabled db' = outboundDisabled db := by
  simp only [outboundDisabled, setting, h]

theorem silent_hushed (h : Silent n v) (hh : Hushed v v') : Silent n v' := by
  have hsettings : v'.shared.db.settings = v.shared.db.settings :=
    congrArg WebSide.settings hh.webSide
  have hhandlers : v'.mem.handlers = v.mem.handlers := congrArg WebSide.handlers hh.webSide
  have hevents : v'.shared.trace.filter isWeb = v.shared.trace.filter isWeb :=
    congrArg WebSide.events hh.webSide
  refine ⟨(outboundDisabled_settings hsettings).trans h.disabled, hhandlers ▸ h.spent, ?_⟩
  rw [starts_split, hevents, hh.sent, ← starts_split]
  exact h.starts

theorem hushed_itemless (h : Itemless v v') : Hushed v v' :=
  ⟨h.webSide, filter_of_custody (by intro e he; cases e <;> first | rfl | cases he) h.custody⟩

theorem hushed_aside : Lenient Hushed := fun _ _ h => hushed_itemless h.toItemless

theorem hushed_updateItemsRecord (p : JobItem → Bool) (f : JobItem → JobItem) {e : World → Event}
    (hweb : ∀ w, isWeb (e w) = false) (hsent : ∀ w, isSent (e w) = false) :
    Always Hushed (updateItemsRecord p f e) :=
  always_update _ (fun w => ⟨by simp [webSide, hweb], by simp [hsent]⟩)

theorem hushed_updateJobs (p : Job → Bool) (f : Job → Job) : Always Hushed (updateJobs p f) :=
  always_update _ (fun _ => ⟨rfl, rfl⟩)

theorem hushed_insertJobAndItems (id : Id) (now : Ms) (a : CreateJobArgs) :
    Always Hushed (JobService.insertJobAndItems id now a) := by
  refine always_update _ (fun v => ?_)
  cases htransaction : JobService.createTransaction id now a v.shared.uuid v.shared.db with
  | error err => exact ⟨rfl, rfl⟩
  | ok db =>
    obtain ⟨rfl, _⟩ := JobService.createTransaction_ok htransaction
    exact ⟨rfl, rfl⟩

theorem hushed_callCreateJob (a : CreateJobArgs) : Always Hushed (JobService.callCreateJob a) := by
  refine always_callCreateJob hushed_aside.tolerant a
    (fun id now => hushed_insertJobAndItems id now a) ?_
  intro result v
  cases result <;> exact ⟨rfl, rfl⟩

theorem hushed_complete (i : Id) (outcome : Worker.SendOutcome) (random : Nat) :
    Always Hushed (Worker.complete i outcome random) := by
  refine always_bind (always_read hushed_aside.tolerant _) (fun task => ?_)
  cases task with
  | none => exact always_pure ()
  | some task =>
    refine always_bind (always_recordOutcome hushed_aside
      (fun _ _ h => hushed_itemless h.toItemless) task outcome
      random (fun _ _ _ => ?_) (fun _ _ _ _ => ?_)) (fun _ => ?_)
    · exact always_scheduleRetry hushed_aside.tolerant _ _ _ _
        (fun _ => hushed_updateItemsRecord _ _ (fun _ => rfl) (fun _ => rfl))
    · exact always_markItemTerminal hushed_aside.tolerant _
        (fun _ => hushed_updateItemsRecord _ _ (fun _ => rfl) (fun _ => rfl))
        (fun _ _ => hushed_updateJobs _ _)
    · refine always_bind (always_mono (fun _ _ => hushed_itemless) (itemless_settle _))
        (fun _ => ?_)
      exact always_exec (fun _ => ⟨rfl, rfl⟩)

theorem hushed_cancelJob (id : Id) (actor : Option String) :
    Always Hushed (JobService.cancelJob id actor) :=
  always_cancelJob hushed_aside.tolerant id actor (fun _ => hushed_updateJobs _ _)
    (fun _ => hushed_updateItemsRecord _ _ (fun _ => rfl) (fun _ => rfl))

section Web

theorem silent_of_parts (h : Silent n v) (hsettings : v'.shared.db.settings = v.shared.db.settings)
    (hhandlers : v'.mem.handlers ⊆ v.mem.handlers)
    (hstarts : starts v'.shared.trace = starts v.shared.trace) :
    Silent n v' :=
  ⟨(outboundDisabled_settings hsettings).trans h.disabled, fun x hx => h.spent x (hhandlers hx),
    hstarts.trans h.starts⟩

abbrev Keeps (n : Nat) (p : Code Unit) (v : World) : Prop :=
  Wp Eq (fun _ t => Silent n t) p (fun _ t => Silent n t) v

theorem keeps_exec {f : World → World} (h : Silent n (f v)) : Keeps n (exec f) v := by
  rintro _ rfl
  exact ⟨h, h⟩

theorem keeps_seq {p q : Code Unit} (hp : Keeps n p v) (hq : ∀ u, Silent n u → Keeps n q u) :
    Keeps n (do p; q) v := wp_seq hp (fun _ u hu => hq u hu)

theorem keeps_query {α : Type} {f : World → α} {k : α → Code Unit} (hv : Silent n v)
    (hk : Keeps n (k (f v)) v) :
    Keeps n (query f >>= k) v := by
  refine (wp_bind ..).mpr ?_
  rintro _ rfl
  exact ⟨hv, hk⟩

theorem keeps_record {e : World → Event} (he : ∀ w, isStart (e w) = false) (h : Silent n v) :
    Keeps n (record e) v :=
  keeps_exec (silent_of_parts h rfl (List.Subset.refl _) (by simp [starts, he]))

theorem keeps_recordAudit (row : Ms → AuditRow) (h : Silent n v) : Keeps n (recordAudit row) v :=
  keeps_query h (keeps_exec (silent_of_parts h rfl (List.Subset.refl _) rfl))

theorem keeps_respond (h : Handler) (status : Nat) (response : Response) (hv : Silent n v) :
    Keeps n (respond h status response) v := by
  have hanswer : ∀ u, Silent n u → Keeps n (do
      record (fun _ => .answered h.request status)
      updateMemory (fun m =>
        { m with handlers := m.handlers.filter (fun x => decide (x.request ≠ h.request)) })) u := by
    intro u hu
    refine keeps_seq (keeps_record (fun _ => rfl) hu) (fun u hu => keeps_exec ?_)
    exact silent_of_parts hu rfl (List.filter_subset_self _) rfl
  simp only [respond]
  split
  · split
    · refine keeps_seq (keeps_exec ?_) hanswer
      split
      · exact hv
      · exact silent_of_parts hv rfl (List.Subset.refl _) (by simp [starts, isStart])
    · exact hanswer v hv
  · exact hanswer v hv

theorem keeps_proceed (ready : Bool) (h : Handler) {todo : List Todo}
    (htodo : ∀ x ∈ todo, isSend x = false) (hv : Silent n v) :
    Keeps n (proceed ready h todo) v := by
  induction todo generalizing h with
  | nil => exact keeps_seq (keeps_recordAudit _ hv) (fun u hu => keeps_respond _ _ _ hu)
  | cons x rest ih =>
    cases x with
    | skip result => exact ih _ (fun x hx => htodo x (List.mem_cons_of_mem _ hx))
    | send recipient label message => exact absurd (htodo _ List.mem_cons_self) (by simp [isSend])

theorem keeps_chatAnswered (h : Handler) (chatId : String) (answer : Answer) (hv : Silent n v) :
    Keeps n (chatAnswered h chatId answer) v := by
  cases answer with
  | result status detail =>
    exact keeps_seq (keeps_recordAudit _ hv) (fun u hu => keeps_respond _ _ _ hu)
  | threw err =>
    simp only [chatAnswered]
    split
    · exact keeps_respond _ _ _ hv
    · exact keeps_seq (keeps_recordAudit _ hv) (fun u hu => keeps_respond _ _ _ hu)

theorem keeps_selectHandler {id : Id} {k : Option Handler → Code Unit} (hv : Silent n v)
    (hnone : Keeps n (k none) v) (hsome : ∀ h ∈ v.mem.handlers, Keeps n (k (some h)) v) :
    Keeps n (selectHandler id >>= k) v := by
  refine keeps_query hv ?_
  cases hfind : v.mem.handlers.find? (fun h => decide (h.request = id)) with
  | none => exact hnone
  | some h => exact hsome h (List.mem_of_find?_eq_some hfind)

theorem keeps_answered (id : Id) (answer : Answer) (ready : Bool) (hv : Silent n v) :
    Keeps n (answered id answer ready) v := by
  refine keeps_selectHandler hv hv (fun h hh => ?_)
  simp only
  split
  · exact hv
  · split
    · exact keeps_chatAnswered _ _ _ hv
    · split
      · refine keeps_exec ⟨hv.disabled, fun x hx => ?_, hv.starts⟩
        obtain hx | hx := List.mem_append.mp hx
        · exact hv.spent x (List.mem_filter.mp hx).1
        · rw [List.mem_singleton.mp hx]
          exact hv.spent h hh
      · exact keeps_proceed ready _ (hv.spent h hh) hv

theorem keeps_delayOver (id : Id) (ready : Bool) (hv : Silent n v) :
    Keeps n (delayOver id ready) v := by
  refine keeps_selectHandler hv hv (fun h hh => ?_)
  simp only
  split
  · exact keeps_proceed ready _ (hv.spent h hh) hv
  · exact hv

theorem keeps_request (r : Request) (ready : Bool) (hv : Silent n v) :
    Keeps n (request r ready) v := by
  have huuid : Silent n { v with shared.uuid := v.shared.uuid + 1 } :=
    silent_of_parts hv rfl (List.Subset.refl _) rfl
  refine (wp_bind ..).mpr ?_
  rintro _ rfl
  refine ⟨huuid, keeps_query huuid ?_⟩
  rw [if_pos huuid.disabled]
  exact keeps_record (fun _ => rfl) huuid

theorem keeps_setOutboundDisabled (actor reason : Option String) (hv : Silent n v) :
    Keeps n (setOutboundDisabled true actor reason none) v := by
  refine keeps_query hv
    (keeps_seq (keeps_exec ⟨outboundDisabled_upsert true _ actor _, hv.spent, hv.starts⟩) ?_)
  refine fun u hu => keeps_seq (keeps_exec ⟨?_, hu.spent, hu.starts⟩) (fun u hu => ?_)
  · exact (outboundDisabled_reason (reason.getD "") _ actor _).trans hu.disabled
  · refine keeps_seq (keeps_recordAudit _ hu) (fun u hu => ?_)
    exact keeps_record (fun _ => rfl) hu

end Web

theorem keeps_tick (hv : Silent n v) : Keeps n Worker.tick v := by
  refine keeps_query hv ?_
  split
  · exact hv
  · refine keeps_query hv ?_
    rw [if_pos hv.disabled]
    exact hv

def enables : Action → Bool
  | .call (.setOutboundDisabled false ..) | .crash (.setOutboundDisabled false ..) _ => true
  | _ => false

theorem keeps_call {c : Call} (hc : enables (.call c) = false) (hv : Silent n v) :
    Keeps n c.code v := by
  have hhushed : ∀ {p : Code Unit}, Always Hushed p → Keeps n p v := by
    refine fun hp => wp_alone hp (fun a b ha hab => ?_) hv
    exact ⟨silent_hushed ha hab, silent_hushed ha hab⟩
  have hitemless : ∀ {p : Code Unit}, Always Itemless p → Keeps n p v :=
    fun hp => hhushed (always_mono (fun _ _ => hushed_itemless) hp)
  cases c with
  | tick => exact keeps_tick hv
  | complete i outcome random => exact hhushed (hushed_complete i outcome random)
  | createJob args =>
    exact hhushed (always_bind (hushed_callCreateJob args) (fun _ => always_pure ()))
  | cancelJob id actor =>
    exact hhushed (always_bind (hushed_cancelJob id actor) (fun _ => always_pure ()))
  | pauseJob id actor =>
    exact hitemless (always_bind (itemless_pauseJob id actor) (fun _ => always_pure ()))
  | resumeJob id actor =>
    exact hitemless (always_bind (itemless_resumeJob id actor) (fun _ => always_pure ()))
  | createSchedule input => exact hitemless (itemless_create input)
  | removeSchedule id => exact hitemless (itemless_remove id)
  | runTickIfReady ready =>
    exact hhushed (always_runTickIfReady hushed_aside.tolerant hushed_callCreateJob
      (fun p f => always_mono (fun _ _ => hushed_itemless) (itemless_updateSchedules p f)) ready)
  | setOutboundDisabled disabled actor reason =>
    cases disabled with
    | true => exact keeps_setOutboundDisabled actor reason hv
    | false => cases hc
  | drainAndStop => exact hitemless itemless_drainAndStop
  | request r ready => exact keeps_request r ready hv
  | answered id answer ready => exact keeps_answered id answer ready hv
  | delayOver id ready => exact keeps_delayOver id ready hv
  | sweepExpiredIdempotencyKeys =>
    exact keeps_query hv (keeps_exec (silent_of_parts hv rfl (List.Subset.refl _) rfl))

theorem silent_step {s : Server} {a : Action} (h : Silent n s.world) (ha : enables a = false) :
    Silent n (step s a).world := by
  cases a with
  | advance ms => exact silent_of_parts h rfl (List.Subset.refl _) rfl
  | call c =>
    simp only [step]
    split
    · exact wp_run (keeps_call ha h)
    · exact h
  | crash c n =>
    have hc : enables (.call c) = false := by
      cases c with
      | setOutboundDisabled disabled => cases disabled <;> first | rfl | cases ha
      | _ => rfl
    simp only [step]
    split
    · have hcut := wp_cut (I := Silent _) h (keeps_call hc h) n
      exact silent_of_parts hcut rfl (List.Subset.refl _) (by simp [starts, die, isStart])
    · exact h
  | restart =>
    simp only [step]
    split
    · exact h
    · have hfresh : Silent n { s.world with mem := fresh s.world.mem.pid s.world.mem } :=
        ⟨h.disabled, fun x hx => absurd hx List.not_mem_nil, h.starts⟩
      have hhushed : Always Hushed Claiming.recoverStaleClaims :=
        always_recoverStaleClaims hushed_aside.tolerant
          (fun _ => always_update _ (fun _ => ⟨rfl, rfl⟩))
      exact wp_run (wp_alone (G := fun _ _ => True) hhushed
        (fun a b ha hab => ⟨trivial, silent_hushed ha hab⟩) hfresh)

/-- From a call of `setOutboundDisabled(true)` to the next one of `setOutboundDisabled(false)`
no send is started, if no send route is at work when the call is made. -/
theorem no_send_while_disabled (concurrency : Nat) (now : Ms) (as bs : List Action)
    (actor reason : Option String) (hup : (run (initial concurrency now) as).up = true)
    (hidle : ¬ Sending (run (initial concurrency now) as).world)
    (hbs : ∀ b ∈ bs, enables b = false) :
    let off := as ++ [.call (.setOutboundDisabled true actor reason)]
    starts (run (initial concurrency now) (off ++ bs)).world.shared.trace =
      starts (run (initial concurrency now) off).world.shared.trace := by
  intro off
  have hoff : Silent (starts (run (initial concurrency now) off).world.shared.trace)
      (run (initial concurrency now) off).world := by
    have hend :=
      wp_run (ends_setOutboundDisabled true actor reason none
        (run (initial concurrency now) as).world)
    have hworld : (run (initial concurrency now) off).world =
        ((setOutboundDisabled true actor reason none).run
          (run (initial concurrency now) as).world).2 := by
      rw [run] at hup
      simp [off, play_append, step, hup, Call.code]
    have hhandlers : (run (initial concurrency now) off).world.mem.handlers =
        (run (initial concurrency now) as).world.mem.handlers := by
      rw [hworld]
      simp [setOutboundDisabled, recordAudit, dateNow, record]
    refine ⟨hworld ▸ hend, fun h hh x hx => ?_, rfl⟩
    rw [hhandlers] at hh
    by_contra hsend
    exact hidle ⟨h, hh, List.any_eq_true.mpr ⟨x, hx, by simpa using hsend⟩⟩
  generalize starts (run (initial concurrency now) off).world.shared.trace = n at hoff ⊢
  have hrun : Silent n (play step (run (initial concurrency now) off) bs).world :=
    play_invariant (fun s : Server => Silent n s.world) (fun _ _ => silent_step) hoff
      (along_all hbs _)
  rw [run, play_append]
  exact hrun.starts

def twoRecipients : Request :=
  { user := "u", idempotencyKey := none, body := .send ["1", "2"] "hello" 0 }

/-- A request to two recipients goes on after the switch is turned. -/
theorem no_send_while_disabled_fails :
    let off : List Action :=
      [.call (.request twoRecipients true), .call (.setOutboundDisabled true none none)]
    let sent : Action := .call (.answered 0 (.result .sent none) true)
    starts (run (initial 1 0) off).world.shared.trace = 1 ∧
      starts (run (initial 1 0) (off ++ [sent])).world.shared.trace = 2 := by
  decide +kernel

/-- The same request, when its last send has been started. -/
theorem no_send_while_disabled_last :
    let sent : Action := .call (.answered 0 (.result .sent none) true)
    let off : List Action := [.call (.request twoRecipients true), sent] ++
      [.call (.setOutboundDisabled true none none)]
    let bs : List Action :=
      [sent, .call (.request twoRecipients true), .crash .tick 1, .restart, .call .tick]
    starts (run (initial 1 0) (off ++ bs)).world.shared.trace =
      starts (run (initial 1 0) off).world.shared.trace :=
  no_send_while_disabled 1 0 _ _ none none (by decide +kernel)
    (by simp only [Sending]; decide +kernel) (by decide)

end WhatsappTester.Outbound
