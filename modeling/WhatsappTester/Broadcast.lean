import WhatsappTester.Atomic.Embedding
import WhatsappTester.Atomic.Mirror
import WhatsappTester.Jobs.Course

namespace WhatsappTester.Broadcast

open Schema State Atomic Atomic.Program Atomic.Embedding Atomic.Mirror Jobs Jobs.Worker Scheduler
  Process

structure RepeatView where
  everyValue : Int
  everyUnit : Option RepeatUnit
  endAt : Option Ms
  deriving DecidableEq, Repr

structure ScheduleView where
  id : String
  recipients : List Recipient
  message : String
  delaySeconds : Rat
  runAt : Ms
  rule : Option RepeatView
  status : ScheduleStatus
  lastResult : Option LastResult
  createdAt : Ms
  deriving DecidableEq, Repr

def rowToSchedule (row : Schedule) : ScheduleView where
  id := row.id
  recipients := row.recipients
  message := row.message
  delaySeconds := row.delaySeconds
  runAt := row.nextRunAt
  rule := (row.repeatEveryValue.filter (· ≠ 0)).map
    (fun value => ⟨value, row.repeatEveryUnit, row.repeatEndAt⟩)
  status := row.status
  lastResult := row.lastResult
  createdAt := row.createdAt

inductive Notice
  | scheduleUpdate (schedule : ScheduleView)
  | scheduleRemoved (id : String)
  deriving DecidableEq, Repr

structure Emission where
  notice : Notice
  /-- What there was when the notice was emitted. -/
  world : World

structure Station where
  world : World
  sent : List Emission

def inWorld : Part Station World where
  get t := t.world
  set w t := { t with world := w }
  get_set _ _ := rfl
  set_get _ := rfl
  set_set _ _ _ := rfl

abbrev Emitting := Prog Station

def emit (n : Notice) : Emitting Unit := exec (fun t => { t with sent := t.sent ++ [⟨n, t.world⟩] })

/-- `_get` -/
def get (id : String) : Code (Option ScheduleView) := do
  let row ← selectSchedule id
  pure (row.map rowToSchedule)

def list : Code (List ScheduleView) :=
  query (fun w =>
    (w.shared.db.schedules.insertionSort (fun s s' => s.nextRunAt ≤ s'.nextRunAt)).map
      rowToSchedule)

/-- A row that is gone emits nothing. -/
def emitUpdate (id : String) : Emitting Unit := do
  match ← within inWorld (get id) with
  | none => pure ()
  | some schedule => emit (.scheduleUpdate schedule)

/-- The row that is read back has just been inserted. -/
def create (a : CreateInput) : Emitting Unit :=
  match normalize a with
  | .error _ => pure ()
  | .ok args => do
    let id ← within inWorld randomUUID
    let now ← within inWorld dateNow
    within inWorld (exec (fun w =>
      { w with shared.db.schedules := w.shared.db.schedules ++ [newSchedule id now args] }))
    emitUpdate (toString id)

def remove (id : String) : Emitting Bool := do
  let changes ← within inWorld (update
    (fun w =>
      { w with shared.db.schedules := w.shared.db.schedules.filter (fun s => decide (s.id ≠ id)) })
    (fun w => Table.changes (fun s => decide (s.id = id)) w.shared.db.schedules))
  if changes > 0 then do
    emit (.scheduleRemoved id)
    pure true
  else pure false

def fireDue (row : Schedule) : Emitting Unit := do
  match ← within inWorld (JobService.callCreateJob (fireArgs row)) with
  | .error _ => pure ()
  | .ok _ => do
    let now ← within inWorld dateNow
    let _ ← within inWorld (updateSchedules
      (fun s => decide (s.id = row.id ∧ s.status = .scheduled))
      (fun s => { s with status := .sending, updatedAt := now }))
    emitUpdate row.id

def runTickIfReady (ready : Bool) : Emitting Unit :=
  if !ready then pure ()
  else do
    let now ← within inWorld dateNow
    let rows ← within inWorld (query (fun w => w.shared.db.schedules.filter (due now)))
    each fireDue rows

def onJobSettled (view : JobView) : Emitting Unit := do
  within inWorld (Scheduler.onJobSettled view)
  if view.job.sourceType = some "schedule" then emitUpdate (view.job.sourceId.getD "")
  else pure ()

def settle (jobId : Id) : Emitting Unit := do
  match ← within inWorld (JobService.checkJobCompletion jobId) with
  | none => pure ()
  | some job => onJobSettled job

def complete (itemId : Id) (outcome : SendOutcome) (random : Nat) : Emitting Unit := do
  match ← within inWorld
      (query (fun w => w.mem.inFlight.find? (fun t => decide (t.item.id = itemId)))) with
  | none => pure ()
  | some task => do
    within inWorld (recordOutcome task outcome random)
    settle task.item.jobId
    within inWorld (finish itemId)

def code : Call → Emitting Unit
  | .createSchedule input => create input
  | .removeSchedule id => do let _ ← remove id
  | .runTickIfReady ready => runTickIfReady ready
  | .complete itemId outcome random => complete itemId outcome random
  | c => within inWorld c.code

/-! Without what it emits, the process is the one that runs the calls alone. -/

theorem shadows_emitUpdate (id : String) : Shadows inWorld (emitUpdate id) (pure ()) := by
  intro t
  have hget : ((within inWorld (get id)).run t).2 = t := by simp [get, selectSchedule, inWorld]
  simp only [emitUpdate, run_bind, hget]
  split
  · exact ⟨trivial, rfl⟩
  · exact ⟨trivial, rfl⟩

theorem shadows_create (a : CreateInput) : Shadows inWorld (create a) (Scheduler.create a) := by
  simp only [create, Scheduler.create]
  cases normalize a with
  | error err => exact shadows_pure ()
  | ok args =>
    refine shadows_bind (shadows_within _) (fun id => ?_)
    refine shadows_bind (shadows_within _) (fun now => ?_)
    exact shadows_after (shadows_within _) (shadows_emitUpdate _)

theorem shadows_remove (id : String) :
    Shadows inWorld (do let _ ← remove id) (Scheduler.remove id) := by
  intro t
  simp only [remove, run_bind, run_within, Scheduler.remove, run_exec, run_update]
  split
  · exact ⟨trivial, rfl⟩
  · exact ⟨trivial, rfl⟩

theorem shadows_fireDue (row : Schedule) :
    Shadows inWorld (fireDue row) (Scheduler.fireDue row) := by
  refine shadows_bind (shadows_within _) (fun result => ?_)
  cases result with
  | error err => exact shadows_pure ()
  | ok result =>
    refine shadows_bind (shadows_within _) (fun now => ?_)
    exact shadows_bind (shadows_within _) (fun _ => shadows_emitUpdate _)

theorem shadows_runTickIfReady (ready : Bool) :
    Shadows inWorld (runTickIfReady ready) (Scheduler.runTickIfReady ready) := by
  simp only [runTickIfReady, Scheduler.runTickIfReady]
  split
  · exact shadows_pure ()
  · refine shadows_bind (shadows_within _) (fun now => ?_)
    refine shadows_bind (shadows_within _) (fun rows => ?_)
    exact shadows_each shadows_fireDue rows

theorem shadows_onJobSettled (view : JobView) :
    Shadows inWorld (onJobSettled view) (Scheduler.onJobSettled view) := by
  refine shadows_after (shadows_within _) ?_
  split
  · exact shadows_emitUpdate _
  · exact shadows_pure ()

theorem shadows_complete (itemId : Id) (outcome : SendOutcome) (random : Nat) :
    Shadows inWorld (complete itemId outcome random) (Worker.complete itemId outcome random) := by
  refine shadows_bind (shadows_within _) (fun task => ?_)
  cases task with
  | none => exact shadows_pure ()
  | some task =>
    refine shadows_bind (shadows_within _) (fun _ => shadows_bind ?_ (fun _ => shadows_within _))
    refine shadows_bind (shadows_within _) (fun job => ?_)
    cases job with
    | none => exact shadows_pure ()
    | some job => exact shadows_onJobSettled job

theorem shadows_code (c : Call) : Shadows inWorld (code c) c.code := by
  cases c with
  | createSchedule input => exact shadows_create input
  | removeSchedule id => exact shadows_remove id
  | runTickIfReady ready => exact shadows_runTickIfReady ready
  | complete itemId outcome random => exact shadows_complete itemId outcome random
  | _ => exact shadows_within _

def views (w : World) (id : String) : Option ScheduleView :=
  (w.shared.db.schedule id).map rowToSchedule

def Notice.change : Notice → Change String ScheduleView
  | .scheduleUpdate schedule => ⟨schedule.id, some schedule⟩
  | .scheduleRemoved id => ⟨id, none⟩

def changes (es : List Emission) : List (Change String ScheduleView) :=
  es.map (fun e => e.notice.change)

/-- Each notice makes of what was shown before it what there was when it was emitted. -/
def Exact (m : String → Option ScheduleView) : List Emission → Prop
  | [] => True
  | e :: es => apply m e.notice.change = views e.world ∧ Exact (views e.world) es

/-- Every schedule has an id of its own that was drawn before. -/
structure Named (s : Shared) : Prop where
  drawn : ∀ row ∈ s.db.schedules, ∃ n < s.uuid, row.id = toString n
  distinct : (s.db.schedules.map (·.id)).Nodup

/-- What has been emitted since the process had `base` tells what there is. -/
structure Told (base : String → Option ScheduleView) (t : Station) : Prop where
  named : Named t.world.shared
  told : replay base (changes t.sent) = views t.world
  exact : Exact base t.sent

structure Quiet (v w : World) : Prop where
  schedules : w.shared.db.schedules = v.shared.db.schedules
  uuid : v.shared.uuid ≤ w.shared.uuid

/-- A statement that changes nothing but the schedule with that id, and does not remove it. -/
structure Touches (id : String) (v w : World) : Prop where
  others : ∀ k, k ≠ id → views w k = views v k
  stays : views w id = none → views v id = none
  ids : w.shared.db.schedules.map (·.id) = v.shared.db.schedules.map (·.id)
  uuid : v.shared.uuid ≤ w.shared.uuid

variable {base : String → Option ScheduleView} {t : Station} {u v w : World} {id : String}

theorem quiet_refl (v : World) : Quiet v v := ⟨rfl, le_refl _⟩

theorem quiet_trans (h : Quiet u v) (h' : Quiet v w) : Quiet u w :=
  ⟨h'.schedules.trans h.schedules, le_trans h.uuid h'.uuid⟩

theorem touches_trans (h : Touches id u v) (h' : Touches id v w) : Touches id u w :=
  ⟨fun k hk => (h'.others k hk).trans (h.others k hk), fun hw => h.stays (h'.stays hw),
    h'.ids.trans h.ids, le_trans h.uuid h'.uuid⟩

theorem views_quiet (h : Quiet v w) : views w = views v := by
  funext k
  rw [views, views, Db.schedule, h.schedules]
  rfl

theorem touches_quiet (id : String) (h : Quiet v w) : Touches id v w := by
  have hviews := views_quiet h
  refine ⟨fun k _ => by rw [hviews], fun hw => ?_, by rw [h.schedules], h.uuid⟩
  rwa [hviews] at hw

theorem touches_refl (id : String) (v : World) : Touches id v v := touches_quiet id (quiet_refl v)

theorem named_of {s s' : Shared} (h : Named s)
    (hids : s'.db.schedules.map (·.id) = s.db.schedules.map (·.id)) (huuid : s.uuid ≤ s'.uuid) :
    Named s' := by
  refine ⟨fun row hrow => ?_, hids ▸ h.distinct⟩
  obtain ⟨row₀, hrow₀, hid⟩ :=
    List.mem_map.mp (hids ▸ List.mem_map_of_mem (f := fun s : Schedule => s.id) hrow)
  obtain ⟨n, hn, hname⟩ := h.drawn row₀ hrow₀
  exact ⟨n, Nat.lt_of_lt_of_le hn huuid, hid.symm.trans hname⟩

theorem quiet_still (h : Course.Still v w) : Quiet v w := ⟨h.schedules, h.uuid⟩

theorem quiet_mute : Statements.Tolerant Quiet :=
  fun v w h => quiet_still (Course.still_aside v w h.toAside)

theorem quiet_web (h : Statements.Web v w) : Quiet v w := quiet_still (Course.still_web h)

theorem quiet_callCreateJob (a : CreateJobArgs) :
    Always Quiet (JobService.callCreateJob a) := by
  refine Statements.always_callCreateJob quiet_mute a (fun id now => always_update _ (fun v => ?_))
    (fun result v => ?_)
  · have huuid := Nat.le_add_right v.shared.uuid a.items.length
    cases htransaction : JobService.createTransaction id now a v.shared.uuid v.shared.db with
    | error err => exact ⟨rfl, huuid⟩
    | ok db =>
      obtain ⟨rfl, _⟩ := JobService.createTransaction_ok htransaction
      exact ⟨rfl, huuid⟩
  · cases result with
    | error err => exact quiet_refl v
    | ok r => exact ⟨rfl, le_refl _⟩

theorem quiet_checkJobCompletion (jobId : Id) :
    Always Quiet (JobService.checkJobCompletion jobId) :=
  Statements.tolerant_checkJobCompletion quiet_mute jobId
    (fun _ _ _ => always_update _ (fun _ => ⟨rfl, le_refl _⟩))
    (fun _ => always_bind (Statements.always_read quiet_mute _)
      (fun _ => always_exec (fun _ => ⟨rfl, le_refl _⟩)))

theorem quiet_cancelJob (id : Id) (actor : Option String) :
    Always Quiet (JobService.cancelJob id actor) :=
  Statements.always_cancelJob quiet_mute id actor
    (fun _ => always_update _ (fun _ => ⟨rfl, le_refl _⟩))
    (fun _ => always_update _ (fun _ => ⟨rfl, le_refl _⟩))

theorem touches_updateSchedules {p : Schedule → Bool} {f : Schedule → Schedule}
    (hp : ∀ s, p s → s.id = id) (hf : ∀ s, (f s).id = s.id) :
    Always (Touches id) (updateSchedules p f) := by
  refine always_update _ (fun v => ?_)
  have hfind : ∀ k, Table.find (fun s : Schedule => s.id) k
      (Table.update p f v.shared.db.schedules) =
        (v.shared.db.schedule k).map (fun s => if p s then f s else s) :=
    fun k => Table.find_update (fun s _ => hf s) k _
  refine ⟨fun k hk => ?_, fun hnone => ?_, Table.map_update (fun s _ => hf s) _, le_refl _⟩
  · refine (congrArg (Option.map rowToSchedule) (hfind k)).trans ?_
    rw [views]
    cases hrow : v.shared.db.schedule k with
    | none => rfl
    | some row =>
      have hid : row.id = k := (Table.find_mem hrow).2
      have hnot : ¬ p row := fun h => hk (hid.symm.trans (hp row h))
      simp [hnot]
  · have hview := (congrArg (Option.map rowToSchedule) (hfind id)).symm.trans hnone
    simpa [views] using hview

theorem ends_onJobSettled (view : JobView) (v : World) :
    Ends (Scheduler.onJobSettled view)
      (fun _ w => Touches (view.job.sourceId.getD "") v w ∧
        (view.job.sourceType ≠ some "schedule" → Quiet v w)) v := by
  simp only [Ends, Scheduler.onJobSettled, record, wp_bind, wp_exec, forall_eq', true_and]
  split
  case isTrue hsource =>
    simp only [selectSchedule, dateNow, wp_bind, wp_query, forall_eq', true_and]
    cases hrow : v.shared.db.schedule (view.job.sourceId.getD "") with
    | none => exact ⟨touches_quiet _ ⟨rfl, le_refl _⟩, fun hne => absurd hsource hne⟩
    | some row =>
      have hid : row.id = view.job.sourceId.getD "" := (Table.find_mem hrow).2
      simp only [wp_bind, wp_query, forall_eq', true_and]
      refine wp_mono (fun _ w hw => ⟨?_, fun hne => absurd hsource hne⟩)
        (ends_always (P := Touches (view.job.sourceId.getD "") v)
          (fun _ _ => touches_trans) (touches_updateSchedules (fun s hs => ?_) (fun _ => rfl))
          (touches_quiet _ ⟨rfl, le_refl _⟩))
      · exact hw
      · exact (of_decide_eq_true hs).trans hid
  case isFalse hsource =>
    exact ⟨touches_quiet _ ⟨rfl, le_refl _⟩, fun _ => ⟨rfl, le_refl _⟩⟩

theorem told_quiet (h : Told base t) (hw : Quiet t.world w) : Told base { t with world := w } := by
  refine ⟨named_of h.named (by rw [hw.schedules]) hw.uuid, ?_, h.exact⟩
  rw [views_quiet hw]
  exact h.told

theorem ends_quiet {α : Type} {p : Code α} (hp : Always Quiet p) (h : Told base t) :
    Ends (within inWorld p) (fun _ t' => Told base t') t := by
  rw [ends_iff, run_within]
  exact told_quiet h (always_run quiet_refl (fun _ _ _ => quiet_trans) hp t.world)

theorem replay_changes (es es' : List Emission) :
    replay base (changes (es ++ es')) = replay (replay base (changes es)) (changes es') := by
  rw [changes, List.map_append, replay_append]
  rfl

theorem exact_append {es es' : List Emission} (h : Exact base es)
    (h' : Exact (replay base (changes es)) es') : Exact base (es ++ es') := by
  induction es generalizing base with
  | nil => exact h'
  | cons e es ih =>
    obtain ⟨hfirst, hrest⟩ := h
    refine ⟨hfirst, ih hrest ?_⟩
    rw [← hfirst]
    exact h'

theorem told_emit {n : Notice} (h : Told base t) (hnamed : Named w.shared)
    (hn : apply (views t.world) n.change = views w) : Told base ⟨w, t.sent ++ [⟨n, w⟩]⟩ := by
  rw [← h.told] at hn
  exact ⟨hnamed, (replay_changes t.sent [⟨n, w⟩]).trans hn, exact_append h.exact ⟨hn, trivial⟩⟩

theorem ends_emitUpdate (h : Told base t) (hnamed : Named w.shared)
    (hothers : ∀ k, k ≠ id → views w k = views t.world k)
    (hstays : views w id = none → views t.world id = none) :
    Ends (emitUpdate id) (fun _ t' => Told base t') { t with world := w } := by
  simp only [ends_iff, emitUpdate, get, selectSchedule, run_bind, run_within, run_query, run_pure]
  change Told base (Prog.run (match views w id with
    | none => pure ()
    | some schedule => emit (.scheduleUpdate schedule)) { t with world := w }).2
  cases hview : views w id with
  | none =>
    refine ⟨hnamed, h.told.trans (funext (fun k => ?_)), h.exact⟩
    by_cases hk : k = id
    · rw [hk, hstays hview]
      exact hview.symm
    · exact (hothers k hk).symm
  | some schedule =>
    refine told_emit (t := t) h hnamed (funext (fun k => ?_))
    obtain ⟨row, hrow, rfl⟩ := Option.map_eq_some_iff.mp hview
    have hid : row.id = id := (Table.find_mem hrow).2
    by_cases hk : k = id
    · subst hk
      exact (congrArg _ hid.symm).trans ((apply_self _ _).trans hview.symm)
    · exact (apply_other (fun heq => hk (heq.trans hid))).trans (hothers k hk).symm

theorem ends_touches (h : Told base t) (hw : Touches id t.world w) :
    Ends (emitUpdate id) (fun _ t' => Told base t') { t with world := w } :=
  ends_emitUpdate h (named_of h.named hw.ids hw.uuid) hw.others hw.stays

def created (args : CreateArgs) (w : World) : World :=
  { w with
    shared.uuid := w.shared.uuid + 1
    shared.db.schedules := w.shared.db.schedules ++ [newSchedule w.shared.uuid w.shared.now args] }

theorem named_created (h : Named w.shared) (args : CreateArgs) : Named (created args w).shared := by
  refine ⟨List.forall_mem_append.mpr ⟨fun row hrow => ?_, List.forall_mem_singleton.mpr ?_⟩, ?_⟩
  · obtain ⟨n, hn, hname⟩ := h.drawn row hrow
    exact ⟨n, Nat.lt_succ_of_lt hn, hname⟩
  · exact ⟨w.shared.uuid, Nat.lt_succ_self _, rfl⟩
  · simp only [created, List.map_append]
    refine List.nodup_append.mpr ⟨h.distinct, List.nodup_singleton _, fun name hname => ?_⟩
    obtain ⟨row, hrow, rfl⟩ := List.mem_map.mp hname
    obtain ⟨n, hn, hrow⟩ := h.drawn row hrow
    rw [hrow]
    exact List.forall_mem_singleton.mpr (Occurrences.name_ne (Nat.ne_of_lt hn))

theorem views_created (args : CreateArgs) (w : World) (k : String) : views (created args w) k =
    ((w.shared.db.schedule k).or (Table.find (fun s : Schedule => s.id) k
      [newSchedule w.shared.uuid w.shared.now args])).map rowToSchedule :=
  congrArg (Option.map rowToSchedule) Table.find_append

theorem ends_create (a : CreateInput) (h : Told base t) :
    Ends (create a) (fun _ t' => Told base t') t := by
  simp only [create]
  cases normalize a with
  | error err => exact h
  | ok args =>
    have hemit : Ends (emitUpdate (toString t.world.shared.uuid)) (fun _ t' => Told base t')
        { t with world := created args t.world } := by
      refine ends_emitUpdate h (named_created h.named args) (fun k hk => ?_) (fun hnone => ?_)
      · have hnew : Table.find (fun s : Schedule => s.id) k
            [newSchedule t.world.shared.uuid t.world.shared.now args] = none :=
          Table.find_none.mpr (List.forall_mem_singleton.mpr (fun heq => hk heq.symm))
        rw [views_created, hnew, Option.or_none, views]
      · rw [views_created] at hnone
        simp [Table.find, newSchedule] at hnone
    rw [ends_iff] at hemit ⊢
    simp only [run_bind, run_within, randomUUID, run_update, dateNow, run_query, run_exec]
    exact hemit

theorem ends_remove (id : String) (h : Told base t) :
    Ends (remove id) (fun _ t' => Told base t') t := by
  have hsub : (t.world.shared.db.schedules.filter (fun s => decide (s.id ≠ id))).Sublist
      t.world.shared.db.schedules := List.filter_sublist
  have hnamed : Named { t.world.shared with
      db.schedules := t.world.shared.db.schedules.filter (fun s => decide (s.id ≠ id)) } :=
    ⟨fun row hrow => h.named.drawn row (hsub.subset hrow), h.named.distinct.sublist (hsub.map _)⟩
  have hfind : ∀ k, Table.find (fun s : Schedule => s.id) k
      (t.world.shared.db.schedules.filter (fun s => decide (s.id ≠ id))) =
      if k = id then none else t.world.shared.db.schedule k :=
    fun k => find_filter_ne k id t.world.shared.db.schedules
  rw [ends_iff]
  simp only [remove, run_bind, run_within, run_update]
  split
  case isTrue hpos =>
    refine told_emit (t := t) h hnamed (funext (fun k => ?_))
    refine Eq.trans ?_ (congrArg (Option.map rowToSchedule) (hfind k)).symm
    by_cases hk : k = id
    · subst hk
      rw [if_pos rfl]
      exact apply_self _ _
    · rw [if_neg hk]
      exact apply_other hk
  case isFalse hnone =>
    refine told_quiet h ⟨?_, le_refl _⟩
    refine List.filter_eq_self.mpr (fun row hrow => decide_eq_true (fun hid => hnone ?_))
    exact List.countP_pos_iff.mpr ⟨row, hrow, decide_eq_true hid⟩

theorem ends_fireDue (row : Schedule) (h : Told base t) :
    Ends (fireDue row) (fun _ t' => Told base t') t := by
  refine wp_seq (ends_quiet (quiet_callCreateJob _) h) (fun result t ht => ?_)
  cases result with
  | error err => exact ht
  | ok result =>
    refine wp_seq (ends_quiet (always_query _ quiet_refl) ht) (fun now t ht => ends_iff.mpr ?_)
    simp only [run_bind, run_within]
    refine ends_iff.mp (ends_touches ht ?_)
    have hsending : Always (Touches row.id) (updateSchedules
        (fun s => decide (s.id = row.id ∧ s.status = .scheduled))
        (fun s => { s with status := .sending, updatedAt := now })) :=
      touches_updateSchedules (fun s hs => (of_decide_eq_true hs).1) (fun _ => rfl)
    exact always_run (touches_refl _) (fun _ _ _ => touches_trans) hsending t.world

theorem ends_runTickIfReady (ready : Bool) (h : Told base t) :
    Ends (runTickIfReady ready) (fun _ t' => Told base t') t := by
  simp only [runTickIfReady]
  split
  · exact h
  · refine wp_seq (ends_quiet (always_query _ quiet_refl) h) (fun now t ht => ?_)
    refine wp_seq (ends_quiet (always_query _ quiet_refl) ht) (fun rows t ht => ?_)
    exact wp_each rows (fun row _ t ht => ends_fireDue row ht) ht

theorem ends_settled (view : JobView) (h : Told base t) :
    Ends (onJobSettled view) (fun _ t' => Told base t') t := by
  obtain ⟨htouches, hquiet⟩ := ends_iff.mp (ends_onJobSettled view t.world)
  rw [ends_iff]
  simp only [onJobSettled, run_bind, run_within]
  split
  case isTrue hsource => exact ends_iff.mp (ends_touches h htouches)
  case isFalse hsource => exact told_quiet h (hquiet hsource)

theorem ends_complete (itemId : Id) (outcome : SendOutcome) (random : Nat) (h : Told base t) :
    Ends (complete itemId outcome random) (fun _ t' => Told base t') t := by
  refine wp_seq (ends_quiet (always_query _ quiet_refl) h) (fun task t ht => ?_)
  cases task with
  | none => exact ht
  | some task =>
    have hrecord := always_mono (fun _ _ => quiet_still)
      (Course.still_recordOutcome task outcome random)
    refine wp_seq (ends_quiet hrecord ht) (fun _ t ht => ?_)
    refine wp_seq ?_ (fun _ t ht => ends_quiet (always_exec (fun _ => ⟨rfl, le_refl _⟩)) ht)
    refine wp_seq (ends_quiet (quiet_checkJobCompletion _) ht) (fun job t ht => ?_)
    cases job with
    | none => exact ht
    | some job => exact ends_settled job ht

theorem quiet_call (c : Call) : (Always Quiet c.code ∧ code c = within inWorld c.code) ∨
    (∃ input, c = .createSchedule input) ∨ (∃ id, c = .removeSchedule id) ∨
    (∃ ready, c = .runTickIfReady ready) ∨
    ∃ itemId outcome random, c = .complete itemId outcome random := by
  have hweb : ∀ {p : Code Unit}, Always Statements.Web p → Always Quiet p :=
    fun hp => always_mono (fun _ _ => quiet_web) hp
  have hstill : ∀ {p : Code Unit}, Always Course.Still p → Always Quiet p :=
    fun hp => always_mono (fun _ _ => quiet_still) hp
  cases c with
  | createSchedule input => exact .inr (.inl ⟨input, rfl⟩)
  | removeSchedule id => exact .inr (.inr (.inl ⟨id, rfl⟩))
  | runTickIfReady ready => exact .inr (.inr (.inr (.inl ⟨ready, rfl⟩)))
  | complete itemId outcome random =>
    exact .inr (.inr (.inr (.inr ⟨itemId, outcome, random, rfl⟩)))
  | tick => exact .inl ⟨hstill Course.still_tick, rfl⟩
  | createJob args =>
    exact .inl ⟨always_bind (quiet_callCreateJob args) (fun _ => always_pure ()), rfl⟩
  | cancelJob id actor =>
    exact .inl ⟨always_bind (quiet_cancelJob id actor) (fun _ => always_pure ()), rfl⟩
  | pauseJob id actor =>
    exact .inl
      ⟨hstill (always_bind (Course.still_pauseJob id actor) (fun _ => always_pure ())), rfl⟩
  | resumeJob id actor =>
    exact .inl
      ⟨hstill (always_bind (Course.still_resumeJob id actor) (fun _ => always_pure ())), rfl⟩
  | drainAndStop => exact .inl ⟨always_exec (fun _ => ⟨rfl, le_refl _⟩), rfl⟩
  | setOutboundDisabled disabled actor reason =>
    exact .inl ⟨hweb (Statements.web_setOutboundDisabled _ _ _ _), rfl⟩
  | request r ready => exact .inl ⟨hweb (Statements.web_request r ready), rfl⟩
  | answered id answer ready => exact .inl ⟨hweb (Statements.web_answered id answer ready), rfl⟩
  | delayOver id ready => exact .inl ⟨hweb (Statements.web_delayOver id ready), rfl⟩
  | sweepExpiredIdempotencyKeys =>
    exact .inl ⟨hweb Statements.web_sweepExpiredIdempotencyKeys, rfl⟩

theorem ends_code (c : Call) (h : Told base t) : Ends (code c) (fun _ t' => Told base t') t := by
  obtain ⟨hquiet, hcode⟩ | ⟨input, rfl⟩ | ⟨id, rfl⟩ | ⟨ready, rfl⟩ |
    ⟨itemId, outcome, random, rfl⟩ := quiet_call c
  · rw [hcode]
    exact ends_quiet hquiet h
  · exact ends_create input h
  · exact wp_seq (ends_remove id h) (fun _ _ ht => ht)
  · exact ends_runTickIfReady ready h
  · exact ends_complete itemId outcome random h

def emitted (c : Call) (w : World) : List Emission := ((code c).run ⟨w, []⟩).2.sent

theorem told_emitted (c : Call) (h : Named w.shared) :
    Told (views w) ⟨(c.code.run w).2, emitted c w⟩ := by
  have hstart : Told (views w) ⟨w, []⟩ := ⟨h, rfl, trivial⟩
  have hend := ends_iff.mp (ends_code c hstart)
  have hworld : ((code c).run ⟨w, []⟩).2.world = (c.code.run w).2 := (shadows_code c ⟨w, []⟩).2
  rw [← hworld]
  exact hend

structure Fewer (v w : World) : Prop where
  ids : (w.shared.db.schedules.map (·.id)).Sublist (v.shared.db.schedules.map (·.id))
  uuid : v.shared.uuid ≤ w.shared.uuid

theorem fewer_quiet (h : Quiet v w) : Fewer v w := ⟨by rw [h.schedules], h.uuid⟩

theorem fewer_mute : Statements.Tolerant Fewer := fun v w h => fewer_quiet (quiet_mute v w h)

theorem fewer_updateSchedules {p : Schedule → Bool} {f : Schedule → Schedule}
    (hf : ∀ s, (f s).id = s.id) : Always Fewer (updateSchedules p f) :=
  always_update _ (fun _ => ⟨by simp only [Table.map_update (fun s _ => hf s), List.Sublist.refl],
    le_refl _⟩)

theorem named_fewer (h : Named v.shared) (hw : Fewer v w) : Named w.shared := by
  refine ⟨fun row hrow => ?_, h.distinct.sublist hw.ids⟩
  obtain ⟨row₀, hrow₀, hid⟩ :=
    List.mem_map.mp (hw.ids.subset (List.mem_map_of_mem (f := fun s : Schedule => s.id) hrow))
  obtain ⟨n, hn, hname⟩ := h.drawn row₀ hrow₀
  exact ⟨n, Nat.lt_of_lt_of_le hn hw.uuid, hid.symm.trans hname⟩

theorem fewer_runTickIfReady (ready : Bool) : Always Fewer (Scheduler.runTickIfReady ready) := by
  have hfire : ∀ row, Always Fewer (Scheduler.fireDue row) := by
    intro row
    refine always_bind (always_mono (fun _ _ => fewer_quiet) (quiet_callCreateJob _))
      (fun result => ?_)
    cases result with
    | error err => exact always_pure ()
    | ok result =>
      refine always_bind (Statements.always_read fewer_mute _) (fun now => ?_)
      exact always_bind (fewer_updateSchedules (fun _ => rfl)) (fun _ => always_pure ())
  simp only [Scheduler.runTickIfReady]
  split
  · exact always_pure ()
  · refine always_bind (Statements.always_read fewer_mute _) (fun now => ?_)
    exact always_bind (Statements.always_read fewer_mute _) (fun rows => always_each hfire rows)

theorem fewer_complete (itemId : Id) (outcome : SendOutcome) (random : Nat) :
    Always Fewer (Worker.complete itemId outcome random) := by
  refine always_bind (Statements.always_read fewer_mute _) (fun task => ?_)
  cases task with
  | none => exact always_pure ()
  | some task =>
    refine always_bind (always_mono (fun _ _ h => fewer_quiet (quiet_still h))
      (Course.still_recordOutcome task outcome random)) (fun _ => ?_)
    refine always_bind ?_ (fun _ => always_exec (fun _ => fewer_quiet ⟨rfl, le_refl _⟩))
    refine Statements.always_settle _ (always_mono (fun _ _ => fewer_quiet)
      (quiet_checkJobCompletion _)) (fun view => ?_)
    exact Statements.tolerant_onJobSettled fewer_mute view
      (always_exec (fun _ => fewer_quiet ⟨rfl, le_refl _⟩))
      (fun p f hf => fewer_updateSchedules (fun s => (hf s).1))

theorem alone_create (input : CreateInput) (h : Named v.shared) :
    Wp Eq (fun _ t => Named t.shared) (Scheduler.create input) (fun _ t => Named t.shared) v := by
  simp only [Scheduler.create]
  cases normalize input with
  | error err => exact h
  | ok args =>
    have hdrawn : Named { v.shared with uuid := v.shared.uuid + 1 } :=
      named_of h rfl (Nat.le_succ _)
    have hnew := named_created h args
    simp only [randomUUID, dateNow, wp_bind, wp_update, wp_query, wp_exec, forall_eq', hdrawn,
      true_and]
    exact ⟨hnew, hnew⟩

/-- At every point of a call the schedules have their own ids. -/
theorem named_call (c : Call) (h : Named v.shared) :
    Wp Eq (fun _ t => Named t.shared) c.code (fun _ t => Named t.shared) v := by
  have hfewer : ∀ {p : Code Unit}, Always Fewer p →
      Wp Eq (fun _ t => Named t.shared) p (fun _ t => Named t.shared) v :=
    fun hp => wp_alone hp (fun _ _ ha hab => ⟨named_fewer ha hab, named_fewer ha hab⟩) h
  obtain ⟨hquiet, _⟩ | ⟨input, rfl⟩ | ⟨id, rfl⟩ | ⟨ready, rfl⟩ | ⟨itemId, outcome, random, rfl⟩ :=
    quiet_call c
  · exact hfewer (always_mono (fun _ _ => fewer_quiet) hquiet)
  · exact alone_create input h
  · exact hfewer (always_exec (fun _ => ⟨List.filter_sublist.map _, le_refl _⟩))
  · exact hfewer (fewer_runTickIfReady ready)
  · exact hfewer (fewer_complete itemId outcome random)

theorem named_step {s : Server} (h : Named s.world.shared) (a : Action) :
    Named (step s a).world.shared := by
  refine step_keeps (I := fun w => Named w.shared) (fun c _ => named_call c h)
    (fun _ _ hv => ⟨hv.drawn, hv.distinct⟩) (fun _ hv => ⟨hv.drawn, hv.distinct⟩)
    (fun w hv => ?_) h
  have hboot := quiet_still (Course.still_boot w)
  exact named_of hv (by rw [hboot.schedules]) hboot.uuid

theorem named_run (concurrency : Nat) (now : Ms) (as : List Action) :
    Named (run (initial concurrency now) as).world.shared := by
  have hstart : Named (initial concurrency now).world.shared :=
    ⟨fun _ hrow => absurd hrow List.not_mem_nil, List.nodup_nil⟩
  exact Runs.play_invariant_all (fun s : Server => Named s.world.shared)
    (fun _ a h => named_step h a) hstart as

def emissionsOf (s : Server) : Action → List Emission
  | .call c => if s.up then emitted c s.world else []
  | _ => []

def emissions : Server → List Action → List Emission
  | _, [] => []
  | s, a :: as => emissionsOf s a ++ emissions (step s a) as

def noticesOf (s : Server) (a : Action) : List Notice := (emissionsOf s a).map (·.notice)

theorem changes_noticesOf (s : Server) (a : Action) :
    (noticesOf s a).map Notice.change = changes (emissionsOf s a) := List.map_map

theorem told_emissionsOf {s : Server} (h : Named s.world.shared) {a : Action}
    (ha : a.isCrash = false) :
    replay (views s.world) (changes (emissionsOf s a)) = views (step s a).world ∧
      Exact (views s.world) (emissionsOf s a) := by
  cases a with
  | crash c n => cases ha
  | advance ms => exact ⟨rfl, trivial⟩
  | restart =>
    refine ⟨?_, trivial⟩
    by_cases hup : s.up
    · rw [step_restart_up hup]
      rfl
    · rw [step_restart hup]
      exact (views_quiet (quiet_still (Course.still_boot s.world))).symm
  | call c =>
    by_cases hup : s.up
    · have htold := told_emitted c h
      rw [emissionsOf, if_pos hup, step_call hup]
      exact ⟨htold.told, htold.exact⟩
    · rw [emissionsOf, if_neg hup, step_call_down hup]
      exact ⟨rfl, trivial⟩

/-- What is emitted in the course of a run makes of the schedules before it the schedules after it,
and each notice makes of them what there is at the moment it is emitted. -/
theorem notices_tell (concurrency : Nat) (now : Ms) (as bs : List Action)
    (h : ∀ b ∈ bs, b.isCrash = false) :
    let s := run (initial concurrency now) as
    replay (views s.world) (changes (emissions s bs)) = views (run s bs).world ∧
      Exact (views s.world) (emissions s bs) := by
  intro s
  have hnamed : Named s.world.shared := named_run concurrency now as
  clear_value s
  induction bs generalizing s with
  | nil => exact ⟨rfl, trivial⟩
  | cons b bs ih =>
    obtain ⟨hb, hbs⟩ := List.forall_mem_cons.mp h
    obtain ⟨hfirst, hexact⟩ := told_emissionsOf hnamed hb
    obtain ⟨hrest, hexacts⟩ := ih hbs (step s b) (named_step hnamed b)
    rw [emissions, replay_changes, hfirst]
    refine ⟨hrest, exact_append hexact ?_⟩
    rw [hfirst]
    exact hexacts

def firedOnce : List Action :=
  [.call (.createSchedule ⟨[⟨some "1", none⟩], "hello", some 0, 0, none, none⟩),
    .call (.runTickIfReady true), .call (.removeSchedule "0")]

theorem notices_tell_firedOnce :
    (emissions (initial 1 0) firedOnce).length = 3 ∧
      replay (views (initial 1 0).world) (changes (emissions (initial 1 0) firedOnce)) =
        views (run (initial 1 0) firedOnce).world ∧
      Exact (views (initial 1 0).world) (emissions (initial 1 0) firedOnce) :=
  ⟨by decide +kernel, notices_tell 1 0 [] firedOnce (by decide)⟩

end WhatsappTester.Broadcast
