import Mathlib.Logic.Function.Basic
import WhatsappTester.Atomic.History
import WhatsappTester.Transport.Connection

namespace WhatsappTester.Transport.Mock

open Schema Atomic.Runs Atomic.History Connection

def codeUnits (s : String) : List Nat :=
  s.toList.flatMap (fun c =>
    if c.toNat < 0x10000 then [c.toNat]
    else [0xd800 + (c.toNat - 0x10000) / 0x400, 0xdc00 + (c.toNat - 0x10000) % 0x400])

def hashString (s : String) : Nat :=
  (codeUnits s).foldl (fun h unit => (31 * h + unit) % 2 ^ 32) 0

def hashedOutcome (seed : Int) (recipient : String) : SendStatus :=
  let h := hashString (toString seed ++ ":" ++ recipient)
  if h % 7 = 0 then .notOnWhatsapp
  else if h % 13 = 0 then .error
  else .sent

inductive Timer
  | toQr
  | toAuthenticated
  | toReady
  deriving DecidableEq, Repr

def Timer.ms : Timer → Ms
  | .toQr => 150
  | .toAuthenticated => 400
  | .toReady => 700

/-- A run of `sendToNumbers` or of `sendToGroups`, asleep until `wakeAt`: before the next
outcome, or after one. -/
structure Task where
  groups : Bool
  recipients : List String
  delayMs : Nat
  todo : List String
  results : List (String × SendStatus) := []
  pausing : Bool := false
  wakeAt : Ms
  deriving DecidableEq, Repr

/-- The transport, with the QR codes that `toDataURL` is rendering, and the recipients for whom an
outcome was drawn so far. -/
structure MockTransport where
  seed : Int
  connectionState : ConnectionState := .initializing
  lastQrDataUrl : Option String := none
  timers : List (Timer × Ms) := []
  renders : Nat := 0
  forcedOutcomes : String → Option (SendStatus × Int) := fun _ => none
  tasks : List Task := []
  now : Ms
  emitted : List Payload := []
  drawn : List String := []

def setState (s : MockTransport) (state : ConnectionState) (reason : Option String) :
    MockTransport :=
  { s with
    connectionState := state
    emitted := s.emitted ++ [⟨state, s.lastQrDataUrl, reason⟩] }

/-- `initialize` -/
def initializeMock (s : MockTransport) : MockTransport :=
  let timers := [Timer.toQr, .toAuthenticated, .toReady].map (fun t => (t, s.now + t.ms))
  { s with timers := s.timers ++ timers }

def onTimer (s : MockTransport) : Timer → MockTransport
  | .toQr => { s with renders := s.renders + 1 }
  | .toAuthenticated => setState { s with lastQrDataUrl := none } .authenticated none
  | .toReady => setState s .ready none

/-- The `k`-th timer fires, no earlier than it is due. -/
def fire (s : MockTransport) (k : Nat) : MockTransport :=
  match s.timers[k]? with
  | some (timer, due) =>
    if due ≤ s.now then onTimer { s with timers := s.timers.eraseIdx k } timer else s
  | none => s

def rendered (s : MockTransport) (url : String) : MockTransport :=
  if s.renders = 0 then s
  else setState { s with renders := s.renders - 1, lastQrDataUrl := some url } .qr none

def disconnect (s : MockTransport) : MockTransport :=
  setState { s with timers := [] } .disconnected (some "Disconnected by user (mock)")

def shutdown (s : MockTransport) : MockTransport := { s with timers := [] }

def forceOutcome (s : MockTransport) (recipient : String) (status : SendStatus) (count : Int) :
    MockTransport :=
  { s with forcedOutcomes := Function.update s.forcedOutcomes recipient (some (status, count)) }

def clearForcedOutcomes (s : MockTransport) : MockTransport :=
  { s with forcedOutcomes := fun _ => none }

/-- `_outcomeFor` -/
def outcomeFor (s : MockTransport) (recipient : String) : SendStatus × MockTransport :=
  let s := { s with drawn := s.drawn ++ [recipient] }
  match s.forcedOutcomes recipient with
  | some (status, remaining) =>
    if 0 < remaining then
      let left := if remaining - 1 = 0 then none else some (status, remaining - 1)
      (status, { s with forcedOutcomes := Function.update s.forcedOutcomes recipient left })
    else (hashedOutcome s.seed recipient, s)
  | none => (hashedOutcome s.seed recipient, s)

def reported (groups : Bool) (outcome : SendStatus) : SendStatus :=
  if groups then if outcome = .notOnWhatsapp then .error else .sent else outcome

/-- `_assertReady`, and the loop up to its first `await`. -/
def send (s : MockTransport) (groups : Bool) (recipients : List String) (delayMs : Nat) :
    MockTransport :=
  if s.connectionState = .ready then
    { s with
      tasks := s.tasks ++
        [{ groups, recipients, delayMs, todo := recipients, wakeAt := s.now + 15 }] }
  else s

/-- The `k`-th task goes on, no earlier than its sleep is over. -/
def wake (s : MockTransport) (k : Nat) : MockTransport :=
  match s.tasks[k]? with
  | none => s
  | some task =>
    if s.now < task.wakeAt then s
    else if task.pausing then
      { s with tasks := s.tasks.set k { task with pausing := false, wakeAt := s.now + 15 } }
    else
      match task.todo with
      | [] => s
      | raw :: rest =>
        let (outcome, s) := outcomeFor s raw
        let wakeAt := s.now + if task.delayMs = 0 then 15 else task.delayMs
        { s with
          tasks := s.tasks.set k
            { task with
              todo := rest
              results := task.results ++ [(raw, reported task.groups outcome)]
              pausing := decide (task.delayMs ≠ 0)
              wakeAt := wakeAt } }

inductive Action
  | wait (ms : Nat)
  | initializeMock
  | fire (k : Nat)
  | rendered (url : String)
  | disconnect
  | shutdown
  | forceOutcome (recipient : String) (status : SendStatus) (count : Int)
  | clearForcedOutcomes
  | send (groups : Bool) (recipients : List String) (delayMs : Nat)
  | wake (k : Nat)

def step (s : MockTransport) : Action → MockTransport
  | .wait ms => { s with now := s.now + ms }
  | .initializeMock => initializeMock s
  | .fire k => fire s k
  | .rendered url => rendered s url
  | .disconnect => disconnect s
  | .shutdown => shutdown s
  | .forceOutcome recipient status count => forceOutcome s recipient status count
  | .clearForcedOutcomes => clearForcedOutcomes s
  | .send groups recipients delayMs => send s groups recipients delayMs
  | .wake k => wake s k

/-- The forced outcome of the recipient stays what it is, but for what is drawn of it. -/
def Spares (recipient : String) : Action → Prop
  | .forceOutcome recipient' _ _ => recipient' ≠ recipient
  | .clearForcedOutcomes => False
  | _ => True

def draws (s : MockTransport) (recipient : String) : Nat := s.drawn.count recipient

section Outcomes

variable {s : MockTransport} {recipient : String}

def left (s : MockTransport) (recipient : String) : Option (SendStatus × Int) :=
  (s.forcedOutcomes recipient).bind (fun f => if 0 < f.2 then some f else none)

theorem outcomeFor_fst (s : MockTransport) (recipient : String) :
    (outcomeFor s recipient).1 =
      ((left s recipient).map Prod.fst).getD (hashedOutcome s.seed recipient) := by
  simp only [outcomeFor, left]
  cases s.forcedOutcomes recipient with
  | none => rfl
  | some f =>
    by_cases hpos : 0 < f.2
    · simp [hpos]
    · simp [hpos]

structure Drawing (s t : MockTransport) (recipient : String) : Prop where
  seed : t.seed = s.seed
  drawn : t.drawn = s.drawn ++ [recipient]
  others : ∀ other, other ≠ recipient → left t other = left s other
  one : left t recipient = (left s recipient).bind (fun f =>
    if 0 < f.2 - 1 then some (f.1, f.2 - 1) else none)

theorem drawing_outcomeFor (s : MockTransport) (recipient : String) :
    Drawing s (outcomeFor s recipient).2 recipient := by
  cases hforced : s.forcedOutcomes recipient with
  | none =>
    simp only [outcomeFor, hforced]
    exact ⟨rfl, rfl, fun _ _ => rfl, by simp [left, hforced]⟩
  | some f =>
    by_cases hpos : 0 < f.2
    · simp only [outcomeFor, hforced, if_pos hpos]
      refine ⟨rfl, rfl, fun other hother => by simp [left, Function.update_of_ne hother], ?_⟩
      simp only [left, Function.update_self, hforced]
      by_cases hlast : f.2 - 1 = 0
      · have hnone : ¬ 1 < f.2 := by omega
        simp [hlast, hpos, hnone]
      · have hmore : 1 < f.2 := by omega
        simp [hlast, hpos, hmore]
    · simp only [outcomeFor, hforced, if_neg hpos]
      exact ⟨rfl, rfl, fun _ _ => rfl, by simp [left, hforced, hpos]⟩

/-- The `k`-th task is awake, with `i` results, and goes on with the recipient. -/
def Draws (k i : Nat) (recipient : String) (s : MockTransport) : Prop :=
  ∃ task rest, s.tasks[k]? = some task ∧ task.results.length = i ∧ task.wakeAt ≤ s.now ∧
    task.pausing = false ∧ task.todo = recipient :: rest

structure Aside (s t : MockTransport) : Prop where
  seed : t.seed = s.seed
  drawn : t.drawn = s.drawn
  forcedOutcomes : t.forcedOutcomes = s.forcedOutcomes

theorem aside_onTimer (s : MockTransport) (timer : Timer) : Aside s (onTimer s timer) := by
  cases timer <;> exact ⟨rfl, rfl, rfl⟩

theorem wake_cases (s : MockTransport) (k : Nat) : Aside s (wake s k) ∨
    ∃ recipient, Drawing s (wake s k) recipient := by
  unfold wake
  split
  · exact .inl ⟨rfl, rfl, rfl⟩
  · next task htask =>
    split
    · exact .inl ⟨rfl, rfl, rfl⟩
    · next hawake =>
      split
      · exact .inl ⟨rfl, rfl, rfl⟩
      · next hpausing =>
        split
        · exact .inl ⟨rfl, rfl, rfl⟩
        · next raw rest htodo =>
          obtain ⟨hseed, hdrawn, hothers, hone⟩ := drawing_outcomeFor s raw
          exact .inr ⟨raw, hseed, hdrawn, hothers, hone⟩

def Used (recipient : String) (s t : MockTransport) : Prop :=
  t.seed = s.seed ∧
    (left t recipient = left s recipient ∧ draws t recipient = draws s recipient ∨
      left t recipient = (left s recipient).bind (fun f =>
          if 0 < f.2 - 1 then some (f.1, f.2 - 1) else none) ∧
        draws t recipient = draws s recipient + 1)

theorem used_aside {t : MockTransport} (h : Aside s t) : Used recipient s t :=
  ⟨h.seed, .inl ⟨by rw [left, h.forcedOutcomes, left], by rw [draws, h.drawn, draws]⟩⟩

theorem used_drawing {t : MockTransport} {raw : String} (h : Drawing s t raw) :
    Used recipient s t := by
  refine ⟨h.seed, ?_⟩
  by_cases hraw : recipient = raw
  · subst hraw
    refine .inr ⟨h.one, ?_⟩
    rw [draws, h.drawn, List.count_append, List.count_singleton_self, draws]
  · refine .inl ⟨h.others recipient hraw, ?_⟩
    have hnone : [raw].count recipient = 0 := List.count_eq_zero.mpr (by simpa using hraw)
    rw [draws, h.drawn, List.count_append, hnone, Nat.add_zero, draws]

theorem used_step {a : Action} (h : Spares recipient a) : Used recipient s (step s a) := by
  cases a with
  | wake k =>
    obtain haside | ⟨raw, hdrawing⟩ := wake_cases s k
    · exact used_aside haside
    · exact used_drawing hdrawing
  | forceOutcome other status count =>
    have hne : recipient ≠ other := fun heq => h heq.symm
    refine ⟨rfl, .inl ⟨?_, rfl⟩⟩
    simp [step, forceOutcome, left, Function.update_of_ne hne]
  | clearForcedOutcomes => exact h.elim
  | fire k =>
    apply used_aside
    simp only [step, fire]
    split
    · next timer due _ =>
      split
      · obtain ⟨hseed, hdrawn, hforced⟩ :=
          aside_onTimer { s with timers := s.timers.eraseIdx k } timer
        exact ⟨hseed, hdrawn, hforced⟩
      · exact ⟨rfl, rfl, rfl⟩
    · exact ⟨rfl, rfl, rfl⟩
  | rendered url =>
    apply used_aside
    simp only [step, rendered]
    split <;> exact ⟨rfl, rfl, rfl⟩
  | send groups recipients delayMs =>
    apply used_aside
    simp only [step, send]
    split <;> exact ⟨rfl, rfl, rfl⟩
  | wait ms => exact used_aside ⟨rfl, rfl, rfl⟩
  | initializeMock => exact used_aside ⟨rfl, rfl, rfl⟩
  | disconnect => exact used_aside ⟨rfl, rfl, rfl⟩
  | shutdown => exact used_aside ⟨rfl, rfl, rfl⟩

theorem seed_step (s : MockTransport) (a : Action) : (step s a).seed = s.seed := by
  by_cases h : Spares "" a
  · exact (used_step h).1
  · cases a with
    | forceOutcome recipient status count => rfl
    | clearForcedOutcomes => rfl
    | _ => exact absurd trivial h

theorem seed_play (s : MockTransport) (as : List Action) : (play step s as).seed = s.seed :=
  play_invariant_all (fun t => t.seed = s.seed) (fun t a h => (seed_step t a).trans h) rfl as

def lasting (status : SendStatus) (n : Int) : Option (SendStatus × Int) :=
  if 0 < n then some (status, n) else none

theorem lasting_less (status : SendStatus) (n : Int) :
    (lasting status n).bind (fun f => if 0 < f.2 - 1 then some (f.1, f.2 - 1) else none) =
      lasting status (n - 1) := by
  unfold lasting
  by_cases hpos : 0 < n
  · simp [hpos]
  · have hless : ¬ 0 < n - 1 := by omega
    rw [if_neg hpos, if_neg hless]
    rfl

theorem left_play {status : SendStatus} {count : Int} (h : left s recipient = lasting status count)
    {bs : List Action} (hbs : ∀ b ∈ bs, Spares recipient b) :
    left (play step s bs) recipient =
      lasting status (count - ((draws (play step s bs) recipient : Int) - draws s recipient)) := by
  refine play_invariant (fun t => left t recipient =
    lasting status (count - ((draws t recipient : Int) - draws s recipient)))
    (fun t b ht (hb : Spares recipient b) => ?_) ?_ (along_all hbs s)
  · obtain ⟨-, ⟨hleft, hdraws⟩ | ⟨hleft, hdraws⟩⟩ := used_step (s := t) hb
    · rw [hleft, hdraws]
      exact ht
    · rw [hleft, ht, lasting_less, hdraws]
      congr 1
      omega
  · simp [h]

theorem outcomeFor_lasting {status : SendStatus} {n : Int}
    (h : left s recipient = lasting status n) :
    (outcomeFor s recipient).1 = if 0 < n then status else hashedOutcome s.seed recipient := by
  rw [outcomeFor_fst, h, lasting]
  split <;> rfl

/-- With nothing forced, the seed tells the outcome. -/
theorem outcome_spared (h : left s recipient = none) {bs : List Action}
    (hbs : ∀ b ∈ bs, Spares recipient b) :
    (outcomeFor (play step s bs) recipient).1 = hashedOutcome s.seed recipient := by
  have hnone : left (play step s bs) recipient = none := by
    refine play_invariant (fun t => left t recipient = none)
      (fun t b ht (hb : Spares recipient b) => ?_) h (along_all hbs s)
    obtain ⟨-, ⟨hleft, -⟩ | ⟨hleft, -⟩⟩ := used_step (s := t) hb
    · exact hleft.trans ht
    · rw [hleft, ht]
      rfl
  rw [outcomeFor_fst, hnone, seed_play]
  rfl

end Outcomes

section Tasks

variable {start s : MockTransport} {as : List Action} {k : Nat} {task : Task}

/-- The `k`-th task was begun while the transport was ready, and its `i`-th result is what was drawn
when it was awake with `i` results. -/
structure Kept (start : MockTransport) (as : List Action) (k : Nat) (task : Task) : Prop where
  sent : ∃ before, At (fun t _ => t.connectionState = .ready ∧ t.tasks.length = k) step start as
    before (.send task.groups task.recipients task.delayMs)
  recipients : task.results.map Prod.fst ++ task.todo = task.recipients
  results : ∀ i x, task.results[i]? = some x → ∃ before, At (fun t _ => Draws k i x.1 t ∧
    x.2 = reported task.groups (outcomeFor t x.1).1) step start as before (.wake k)

theorem kept_append (h : Kept start as k task) (bs : List Action) :
    Kept start (as ++ bs) k task := by
  refine ⟨?_, h.recipients, fun i x hx => ?_⟩
  · obtain ⟨before, hat⟩ := h.sent
    exact ⟨before, at_append hat bs⟩
  · obtain ⟨before, hat⟩ := h.results i x hx
    exact ⟨before, at_append hat bs⟩

theorem tasks_outcomeFor (s : MockTransport) (recipient : String) :
    (outcomeFor s recipient).2.tasks = s.tasks := by
  simp only [outcomeFor]
  split
  · split <;> rfl
  · rfl

theorem kept_step (h : ∀ k task, (play step start as).tasks[k]? = some task →
    Kept start as k task) (a : Action) :
    ∀ k task, (step (play step start as) a).tasks[k]? = some task →
      Kept start (as ++ [a]) k task := by
  intro k task htask
  have hold : ∀ {k task}, (play step start as).tasks[k]? = some task →
      Kept start (as ++ [a]) k task :=
    fun htask => kept_append (h _ _ htask) [a]
  have hset : ∀ {j new}, ((play step start as).tasks.set j new)[k]? = some task →
      (j = k → Kept start (as ++ [a]) k new) → Kept start (as ++ [a]) k task := by
    intro j new htask hnew
    by_cases hj : j = k
    · subst hj
      have hin := (List.getElem?_eq_some_iff.mp htask).1
      rw [List.length_set] at hin
      rw [List.getElem?_set_self hin] at htask
      exact Option.some.inj htask ▸ hnew rfl
    · rw [List.getElem?_set_ne hj] at htask
      exact hold htask
  cases a with
  | send groups recipients delayMs =>
    simp only [step, send] at htask
    split at htask
    · next hready =>
      by_cases hlast : k < (play step start as).tasks.length
      · rw [List.getElem?_append_left hlast] at htask
        exact hold htask
      · rw [List.getElem?_append_right (Nat.le_of_not_lt hlast), List.getElem?_singleton,
          Option.ite_none_right_eq_some] at htask
        obtain ⟨hzero, ⟨⟩⟩ := htask
        have hlength : (play step start as).tasks.length = k := by omega
        exact ⟨⟨as, at_last ⟨hready, hlength⟩⟩, rfl, nofun⟩
    · exact hold htask
  | wake j =>
    simp only [step, wake] at htask
    split at htask
    · exact hold htask
    · next old hget =>
      have hkept : Kept start (as ++ [.wake j]) j old := hold hget
      split at htask
      · exact hold htask
      · next hawake =>
        split at htask
        · refine hset htask ?_
          rintro rfl
          exact ⟨hkept.sent, hkept.recipients, hkept.results⟩
        · next hpausing =>
          split at htask
          · exact hold htask
          · next raw rest htodo =>
            simp only [tasks_outcomeFor] at htask
            refine hset htask ?_
            rintro rfl
            refine ⟨hkept.sent, ?_, fun i x hx => ?_⟩
            · have hrecipients := hkept.recipients
              rw [htodo] at hrecipients
              simp only [List.map_append, List.map_cons, List.map_nil, List.append_assoc]
              exact hrecipients
            · by_cases hi : i < old.results.length
              · rw [List.getElem?_append_left hi] at hx
                exact hkept.results i x hx
              · rw [List.getElem?_append_right (Nat.le_of_not_lt hi), List.getElem?_singleton,
                  Option.ite_none_right_eq_some] at hx
                obtain ⟨hzero, ⟨⟩⟩ := hx
                have hlength : old.results.length = i := by omega
                have hdraws : Draws j i raw (play step start as) :=
                  ⟨old, rest, hget, hlength, Int.not_lt.mp hawake, Bool.eq_false_iff.mpr hpausing,
                    htodo⟩
                exact ⟨as, at_last ⟨hdraws, rfl⟩⟩
  | fire j =>
    refine hold ?_
    simp only [step, fire] at htask
    split at htask
    · next timer due _ =>
      split at htask
      · cases timer <;> exact htask
      · exact htask
    · exact htask
  | rendered url =>
    refine hold ?_
    simp only [step, rendered] at htask
    split at htask <;> exact htask
  | wait ms => exact hold htask
  | initializeMock => exact hold htask
  | disconnect => exact hold htask
  | shutdown => exact hold htask
  | forceOutcome recipient status count => exact hold htask
  | clearForcedOutcomes => exact hold htask

def results (s : MockTransport) (recipient : String) : Nat :=
  (s.tasks.map (fun task => (task.results.map Prod.fst).count recipient)).sum

theorem sum_set {f : Task → Nat} {tasks : List Task} {new : Task} {n : Nat}
    (h : tasks[k]? = some task) (hf : f new = f task + n) :
    ((tasks.set k new).map f).sum = (tasks.map f).sum + n := by
  induction tasks generalizing k with
  | nil => cases h
  | cons first rest ih =>
    cases k with
    | zero =>
      obtain rfl := Option.some.inj h
      simp only [List.set_cons_zero, List.map_cons, List.sum_cons, hf]
      omega
    | succ k =>
      simp only [List.set_cons_succ, List.map_cons, List.sum_cons, ih h]
      omega

/-- All that is drawn for a recipient is shown. -/
theorem results_step (h : ∀ recipient, draws s recipient = results s recipient) (a : Action)
    (recipient : String) : draws (step s a) recipient = results (step s a) recipient := by
  cases a with
  | send groups recipients delayMs =>
    simp only [step, send]
    split
    · have hsame := h recipient
      rw [draws, results] at hsame
      simpa [draws, results] using hsame
    · exact h recipient
  | wake k =>
    simp only [step, wake]
    split
    · exact h recipient
    · next task hget =>
      split
      · exact h recipient
      · split
        · refine (h recipient).trans (Eq.symm ?_)
          exact (sum_set hget rfl).trans (Nat.add_zero _)
        · split
          · exact h recipient
          · next raw rest htodo =>
            have hdrawn := (drawing_outcomeFor s raw).drawn
            simp only [draws, results, tasks_outcomeFor, hdrawn, List.count_append]
            rw [sum_set hget (n := [raw].count recipient) (by simp)]
            exact congrArg (· + _) (h recipient)
  | fire k =>
    simp only [step, fire]
    split
    · next timer due _ =>
      split
      · cases timer <;> exact h recipient
      · exact h recipient
    · exact h recipient
  | rendered url =>
    simp only [step, rendered]
    split <;> exact h recipient
  | wait ms => exact h recipient
  | initializeMock => exact h recipient
  | disconnect => exact h recipient
  | shutdown => exact h recipient
  | forceOutcome other status count => exact h recipient
  | clearForcedOutcomes => exact h recipient

end Tasks

/-- Whatever is sent, and forced, and awake in whatever order, a send that has begun shows for its
recipients, in order, what was drawn for them each time that it was awake, and nothing else is
drawn; and what is drawn for a recipient is what was forced last as often as it was forced, and
after that, or if nothing was, what the seed says. -/
theorem outcomes_drawn (seed : Int) (now : Ms) (as : List Action) :
    let start : MockTransport := { seed, now }
    let s := play step start as
    (∀ k task, s.tasks[k]? = some task → Kept start as k task) ∧
    (∀ recipient, draws s recipient = results s recipient) ∧
    (∀ recipient status count bs, (∀ b ∈ bs, Spares recipient b) →
      let t := play step s (.forceOutcome recipient status count :: bs)
      (outcomeFor t recipient).1 =
        if (draws t recipient : Int) - draws s recipient < count then status
        else hashedOutcome seed recipient) ∧
    (∀ recipient bs, (∀ b ∈ bs, Spares recipient b) →
      (outcomeFor (play step s (.clearForcedOutcomes :: bs)) recipient).1 =
        hashedOutcome seed recipient) ∧
    ∀ recipient, (∀ a ∈ as, Spares recipient a) →
      (outcomeFor s recipient).1 = hashedOutcome seed recipient := by
  intro start s
  have hseed : s.seed = seed := seed_play start as
  refine ⟨?_, ?_, fun recipient status count bs hbs => ?_, fun recipient bs hbs => ?_,
    fun recipient has => outcome_spared rfl has⟩
  · exact play_history (fun as (s : MockTransport) => ∀ k task, s.tasks[k]? = some task →
      Kept start as k task) (fun _ _ h => by simp [start] at h) (fun _ a h => kept_step h a) as
  · exact play_invariant_all (fun s => ∀ recipient, draws s recipient = results s recipient)
      (fun _ a h => results_step h a) (fun _ => rfl) as
  · have hforced : left (step s (.forceOutcome recipient status count)) recipient =
        lasting status count := by
      simp [step, forceOutcome, left, lasting]
    have hiff : ∀ n : Int, 0 < count - n ↔ n < count := fun n => by omega
    simp only [play_cons]
    rw [outcomeFor_lasting (left_play hforced hbs), seed_play, seed_step, hseed]
    simp only [hiff]
    rfl
  · rw [play_cons, outcome_spared rfl hbs, seed_step, hseed]

end WhatsappTester.Transport.Mock
