import WhatsappTester.Atomic.History
import WhatsappTester.Broadcast

namespace WhatsappTester.Catalogue

open Schema State Atomic Atomic.Program Atomic.Runs Atomic.History Statements Process
open Jobs Jobs.Worker Scheduler Broadcast

/-- What is asked for with a schedule, and nothing of what becomes of it. -/
structure Entry where
  id : String
  recipients : List Recipient
  message : String
  delaySeconds : Rat
  repeatEveryValue : Option Int
  repeatEveryUnit : Option RepeatUnit
  repeatEndAt : Option Ms
  createdBy : Option String
  createdAt : Ms
  deriving DecidableEq

def entry (row : Schedule) : Entry where
  id := row.id
  recipients := row.recipients
  message := row.message
  delaySeconds := row.delaySeconds
  repeatEveryValue := row.repeatEveryValue
  repeatEveryUnit := row.repeatEveryUnit
  repeatEndAt := row.repeatEndAt
  createdBy := row.createdBy
  createdAt := row.createdAt

def entries (w : World) : List Entry := w.shared.db.schedules.map entry

/-- A schedule is accepted by `create`, also if the process dies before it can say so. -/
def Accepts (s : Server) (a : Action) (e : Entry) : Prop :=
  s.up ∧ ∃ input args, normalize input = .ok args ∧
    e = entry (newSchedule s.world.shared.uuid s.world.shared.now args) ∧
    (a = .call (.createSchedule input) ∨ ∃ n, 3 ≤ n ∧ a = .crash (.createSchedule input) n)

def Removes (s : Server) (a : Action) (e : Entry) : Prop :=
  s.up ∧ (a = .call (.removeSchedule e.id) ∨ ∃ n, 1 ≤ n ∧ a = .crash (.removeSchedule e.id) n)

def Keeps (v w : World) : Prop := entries w = entries v

variable {v w : World} {s : Server}

theorem keeps_mute : Tolerant Keeps := by
  intro v w h
  simp only [Keeps, entries, h.schedules]

theorem keeps_quiet (h : Quiet v w) : Keeps v w := by
  simp only [Keeps, entries, h.schedules]

theorem keeps_updateSchedules (p : Schedule → Bool) {f : Schedule → Schedule}
    (hf : ∀ s, entry (f s) = entry s) : Always Keeps (updateSchedules p f) :=
  always_update _ (fun _ => Table.map_update (fun s _ => hf s) _)

theorem keeps_runTickIfReady (ready : Bool) : Always Keeps (Scheduler.runTickIfReady ready) := by
  have hfire : ∀ row, Always Keeps (Scheduler.fireDue row) := by
    intro row
    apply always_bind (always_mono (fun _ _ => keeps_quiet) (quiet_callCreateJob _))
    intro result
    cases result with
    | error err => exact always_pure ()
    | ok result =>
      apply always_bind (always_read keeps_mute _)
      intro now
      exact always_bind (keeps_updateSchedules _ (fun _ => rfl)) (fun _ => always_pure ())
  simp only [Scheduler.runTickIfReady]
  split
  · exact always_pure ()
  · apply always_bind (always_read keeps_mute _)
    intro now
    exact always_bind (always_read keeps_mute _) (fun rows => always_each hfire rows)

theorem keeps_onJobSettled (view : JobView) : Always Keeps (Scheduler.onJobSettled view) := by
  have hrecord : Always Keeps (record (fun w => .settled w.mem.pid view.job.id)) :=
    always_exec (fun _ => rfl)
  apply always_bind hrecord
  intro _
  split
  · apply always_bind (always_read keeps_mute _)
    intro row
    cases row with
    | none => exact always_pure ()
    | some row =>
      apply always_bind (always_read keeps_mute _)
      intro now
      exact always_bind (keeps_updateSchedules _ (fun _ => rfl)) (fun _ => always_pure ())
  · exact always_pure ()

theorem keeps_complete (itemId : Id) (outcome : SendOutcome) (random : Nat) :
    Always Keeps (Worker.complete itemId outcome random) := by
  apply always_bind (always_read keeps_mute _)
  intro task
  cases task with
  | none => exact always_pure ()
  | some task =>
    apply always_bind (always_mono (fun _ _ h => keeps_quiet (quiet_still h))
      (Course.still_recordOutcome task outcome random))
    intro _
    apply always_bind (always_settle _
      (always_mono (fun _ _ => keeps_quiet) (quiet_checkJobCompletion _)) keeps_onJobSettled)
    intro _
    exact always_exec (fun _ => rfl)

theorem keeps_call (c : Call) : Always Keeps c.code ∨ (∃ input, c = .createSchedule input) ∨
    ∃ id, c = .removeSchedule id := by
  obtain ⟨hquiet, _⟩ | hcreate | hremove | ⟨ready, rfl⟩ | ⟨itemId, outcome, random, rfl⟩ :=
    quiet_call c
  · exact .inl (always_mono (fun _ _ => keeps_quiet) hquiet)
  · exact .inr (.inl hcreate)
  · exact .inr (.inr hremove)
  · exact .inl (keeps_runTickIfReady ready)
  · exact .inl (keeps_complete itemId outcome random)

section Create

variable {input : CreateInput} {args : CreateArgs}

theorem entries_create (h : normalize input = .ok args) (w : World) :
    entries ((Scheduler.create input).run w).2 =
      entries w ++ [entry (newSchedule w.shared.uuid w.shared.now args)] := by
  simp [entries, Scheduler.create, h, randomUUID, dateNow]

theorem entries_create_cut (h : normalize input = .ok args) (w : World) (n : Nat) :
    entries ((Scheduler.create input).cut n w) =
      entries w ++ if 3 ≤ n then [entry (newSchedule w.shared.uuid w.shared.now args)] else [] := by
  rw [Scheduler.create, h]
  by_cases hn : 3 ≤ n
  · obtain ⟨k, rfl⟩ := Nat.exists_eq_add_of_le' hn
    cases k <;> simp [entries, bind, Prog.bind, Prog.cut, randomUUID, dateNow, update, query, exec]
  · have hsmall : n = 0 ∨ n = 1 ∨ n = 2 := by omega
    obtain rfl | rfl | rfl := hsmall <;>
      simp [entries, bind, Prog.bind, Prog.cut, randomUUID, dateNow, update, query]

theorem create_refused {err : String} (h : normalize input = .error err) :
    Scheduler.create input = pure () := by
  rw [Scheduler.create, h]

theorem entries_remove (id : String) (w : World) :
    entries ((Scheduler.remove id).run w).2 = (entries w).filter (fun e => decide (e.id ≠ id)) := by
  rw [entries, entries, List.filter_map]
  rfl

theorem entries_remove_cut (id : String) (w : World) (n : Nat) :
    entries ((Scheduler.remove id).cut n w) =
      if 1 ≤ n then (entries w).filter (fun e => decide (e.id ≠ id)) else entries w := by
  cases n with
  | zero => rfl
  | succ n =>
    rw [if_pos (Nat.le_add_left 1 n), ← entries_remove]
    cases n <;> rfl

end Create

theorem mem_same {a : Action} {e : Entry} (hsame : entries (step s a).world = entries s.world)
    (haccepts : ¬ Accepts s a e) (hremoves : ¬ Removes s a e) :
    e ∈ entries (step s a).world ↔ Accepts s a e ∨ (e ∈ entries s.world ∧ ¬ Removes s a e) := by
  simp [hsame, haccepts, hremoves]

theorem mem_create {a : Action} {e : Entry} {input : CreateInput} (hup : s.up)
    (ha : a = .call (.createSchedule input) ∨ ∃ n, a = .crash (.createSchedule input) n) :
    e ∈ entries (step s a).world ↔ Accepts s a e ∨ (e ∈ entries s.world ∧ ¬ Removes s a e) := by
  have hremoves : ¬ Removes s a e := by
    rintro ⟨-, rfl | ⟨n, -, rfl⟩⟩ <;> simp at ha
  cases hargs : normalize input with
  | error err =>
    refine mem_same ?_ ?_ hremoves
    · obtain rfl | ⟨n, rfl⟩ := ha
      · rw [step_call hup, Call.code, create_refused hargs]
        rfl
      · rw [step, if_pos hup, Call.code, create_refused hargs]
        cases n <;> rfl
    · rintro ⟨-, input', args, hargs', -, ha'⟩
      have hinput : input' = input := by
        obtain rfl | ⟨n, -, rfl⟩ := ha' <;> simpa using ha
      rw [hinput, hargs] at hargs'
      cases hargs'
  | ok args =>
    have haccepts : Accepts s a e ↔
        e = entry (newSchedule s.world.shared.uuid s.world.shared.now args) ∧
          (a = .call (.createSchedule input) ∨
            ∃ n, 3 ≤ n ∧ a = .crash (.createSchedule input) n) := by
      constructor
      · rintro ⟨-, input', args', hargs', rfl, ha'⟩
        have hinput : input' = input := by
          obtain rfl | ⟨n, -, rfl⟩ := ha' <;> simpa using ha
        subst hinput
        cases hargs'.symm.trans hargs
        exact ⟨rfl, ha'⟩
      · exact fun h => ⟨hup, input, args, hargs, h⟩
    simp only [haccepts, hremoves, not_false_eq_true, and_true]
    obtain rfl | ⟨n, rfl⟩ := ha
    · rw [step_call hup, Call.code, entries_create hargs]
      simp [or_comm]
    · have hcut := entries_create_cut hargs s.world n
      have hworld : entries (step s (.crash (.createSchedule input) n)).world =
          entries ((Scheduler.create input).cut n s.world) := by
        rw [step, if_pos hup]
        rfl
      rw [hworld, hcut]
      by_cases hn : 3 ≤ n <;> simp [hn, or_comm]

theorem mem_remove {a : Action} {e : Entry} {id : String} (hup : s.up)
    (ha : a = .call (.removeSchedule id) ∨ ∃ n, a = .crash (.removeSchedule id) n) :
    e ∈ entries (step s a).world ↔ Accepts s a e ∨ (e ∈ entries s.world ∧ ¬ Removes s a e) := by
  have haccepts : ¬ Accepts s a e := by
    rintro ⟨-, input, args, -, -, rfl | ⟨n, -, rfl⟩⟩ <;> simp at ha
  simp only [haccepts, false_or]
  obtain rfl | ⟨n, rfl⟩ := ha
  · have hremoves : Removes s (.call (.removeSchedule id)) e ↔ e.id = id := by
      simp [Removes, hup, eq_comm (a := id)]
    rw [step_call hup, Call.code, entries_remove, hremoves]
    simp
  · have hworld : entries (step s (.crash (.removeSchedule id) n)).world =
        entries ((Scheduler.remove id).cut n s.world) := by
      rw [step, if_pos hup]
      rfl
    have hremoves : Removes s (.crash (.removeSchedule id) n) e ↔ 1 ≤ n ∧ e.id = id := by
      simp [Removes, hup, eq_comm (a := id)]
    rw [hworld, entries_remove_cut, hremoves]
    by_cases hn : 1 ≤ n <;> simp [hn]

/-- One action brings an entry in or takes it out, and leaves all others as they are. -/
theorem mem_step (s : Server) (a : Action) (e : Entry) :
    e ∈ entries (step s a).world ↔ Accepts s a e ∨ (e ∈ entries s.world ∧ ¬ Removes s a e) := by
  by_cases hup : s.up
  case neg =>
    have hworld : entries (step s a).world = entries s.world := by
      cases a with
      | advance ms => rfl
      | call c => rw [step_call_down hup]
      | crash c n => rw [step_crash_down hup]
      | restart =>
        rw [step_restart hup]
        have hboot := (Course.still_boot s.world).schedules
        simp only [entries, hboot]
    exact mem_same hworld (fun h => hup h.1) (fun h => hup h.1)
  have hother : ∀ c, a = .call c ∨ (∃ n, a = .crash c n) →
      (e ∈ entries (step s a).world ↔ Accepts s a e ∨ (e ∈ entries s.world ∧ ¬ Removes s a e)) := by
    intro c ha
    by_cases hcreate : ∃ input, c = .createSchedule input
    · obtain ⟨input, rfl⟩ := hcreate
      exact mem_create hup ha
    by_cases hremove : ∃ id, c = .removeSchedule id
    · obtain ⟨id, rfl⟩ := hremove
      exact mem_remove hup ha
    have hkeeps := ((keeps_call c).resolve_right (not_or.mpr ⟨hcreate, hremove⟩))
    have htrans : ∀ u v w : World, Keeps u v → Keeps v w → Keeps u w :=
      fun _ _ _ h h' => h'.trans h
    refine mem_same ?_ ?_ ?_
    · obtain rfl | ⟨n, rfl⟩ := ha
      · rw [step_call hup]
        exact always_run (T := Keeps) (fun _ => rfl) htrans hkeeps s.world
      · rw [step, if_pos hup]
        exact always_cut (T := Keeps) (fun _ => rfl) htrans hkeeps s.world n
    · rintro ⟨-, input, args, -, -, rfl | ⟨n, -, rfl⟩⟩
      · exact hcreate ⟨input, by simpa [eq_comm] using ha⟩
      · exact hcreate ⟨input, by simpa [eq_comm] using ha⟩
    · rintro ⟨-, rfl | ⟨n, -, rfl⟩⟩
      · exact hremove ⟨e.id, by simpa [eq_comm] using ha⟩
      · exact hremove ⟨e.id, by simpa [eq_comm] using ha⟩
  cases a with
  | advance ms =>
    refine mem_same rfl ?_ ?_
    · rintro ⟨-, input, args, -, -, h | ⟨n, -, h⟩⟩ <;> cases h
    · rintro ⟨-, h | ⟨n, -, h⟩⟩ <;> cases h
  | call c => exact hother c (.inl rfl)
  | crash c n => exact hother c (.inr ⟨n, rfl⟩)
  | restart =>
    refine mem_same (by rw [step_restart_up hup]) ?_ ?_
    · rintro ⟨-, input, args, -, -, h | ⟨n, -, h⟩⟩ <;> cases h
    · rintro ⟨-, h | ⟨n, -, h⟩⟩ <;> cases h

/-- Through all deaths and starts, a schedule is kept with what it was accepted with until it is
removed, and once. -/
theorem kept_until_removed (concurrency : Nat) (now : Ms) (as : List Action) :
    (((run (initial concurrency now) as).world.shared.db.schedules.map (·.id)).Nodup) ∧
    ∀ e, e ∈ entries (run (initial concurrency now) as).world ↔
      Brought Accepts Removes step (initial concurrency now) as e := by
  refine ⟨(named_run concurrency now as).distinct, fun e => ?_⟩
  apply holds_iff (fun s e => e ∈ entries s.world) (fun _ => True) (fun _ _ _ => trivial) trivial
    (fun s a e _ => mem_step s a e)
  exact fun e he => absurd he List.not_mem_nil

end WhatsappTester.Catalogue
