import WhatsappTester.Atomic.Runs
import WhatsappTester.Routes

namespace WhatsappTester.Transport.Connection

open Schema Atomic.Runs

inductive ConnectionState
  | initializing
  | qr
  | authenticated
  | ready
  | disconnected
  deriving DecidableEq, Repr

/-- What the WhatsApp client reports of its connection. -/
inductive ClientEvent
  | qr (code : String)
  | authenticated
  | ready
  | authFailure (msg : String)
  | disconnected (reason : String)
  | loadingScreen (percent : Nat) (message : Option String)
  deriving DecidableEq, Repr

structure Payload where
  state : ConnectionState
  qr : Option String
  reason : Option String
  deriving DecidableEq, Repr

/-- A callback still to come, and the number of the client's event that set it up. -/
structure Pending (α : Type) where
  value : α
  number : Nat
  deriving DecidableEq, Repr

/-- The transport with the QR codes that `toDataURL` is rendering, the times at
which its `ready` timers are due, and the history of what it emitted and of what
the client reported. -/
structure WebTransport where
  connectionState : ConnectionState := .initializing
  lastQrDataUrl : Option String := none
  renders : List (Pending String) := []
  timers : List (Pending Ms) := []
  now : Ms := 0
  emitted : List Payload := []
  reported : List ClientEvent := []
  deriving DecidableEq, Repr

/-- `_setState` -/
def setState (s : WebTransport) (state : ConnectionState) (reason : Option String) : WebTransport :=
  { s with
    connectionState := state
    emitted := s.emitted ++ [⟨state, s.lastQrDataUrl, reason⟩] }

/-- Progress in loading is no event of the connection. -/
def ClientEvent.counts : ClientEvent → Bool
  | .loadingScreen .. => false
  | _ => true

def readyDelayMs : Ms := 5000

def handler (s : WebTransport) : ClientEvent → WebTransport
  | .qr code => { s with renders := s.renders ++ [⟨code, s.reported.length⟩] }
  | .authenticated => setState { s with lastQrDataUrl := none } .authenticated none
  | .ready => { s with timers := s.timers ++ [⟨s.now + readyDelayMs, s.reported.length⟩] }
  | .authFailure msg => setState s .disconnected (some ("Auth failed: " ++ msg))
  | .disconnected reason => setState s .disconnected (some reason)
  | .loadingScreen percent message =>
    setState s s.connectionState
      (some (Routes.trim ("Syncing… " ++ toString percent ++ "% " ++ message.getD "")))

def client (s : WebTransport) (e : ClientEvent) : WebTransport :=
  handler (if e.counts then { s with reported := e :: s.reported } else s) e

def rendered (s : WebTransport) (k : Nat) (url : Option String) : WebTransport :=
  match s.renders[k]?, url with
  | some _, some url =>
    setState { s with renders := s.renders.eraseIdx k, lastQrDataUrl := some url } .qr none
  | some _, none => { s with renders := s.renders.eraseIdx k }
  | none, _ => s

/-- The `k`-th timer fires, no earlier than it is due. -/
def fire (s : WebTransport) (k : Nat) : WebTransport :=
  match s.timers[k]? with
  | some timer =>
    if timer.value ≤ s.now then
      setState { s with timers := s.timers.eraseIdx k, lastQrDataUrl := none } .ready none
    else s
  | none => s

inductive Action
  | client (e : ClientEvent)
  | rendered (k : Nat) (url : Option String)
  | fire (k : Nat)
  | wait (ms : Nat)
  deriving DecidableEq, Repr

def step (s : WebTransport) : Action → WebTransport
  | .client e => client s e
  | .rendered k url => rendered s k url
  | .fire k => fire s k
  | .wait ms => { s with now := s.now + ms }

/-- What needs no further event of the client. -/
def Action.late : Action → Bool
  | .client _ => false
  | _ => true

/-- The transport is `ready` only after a last report of `ready`. -/
def Truthful (s : WebTransport) : Prop :=
  s.connectionState = .ready → s.reported.head? = some .ready

instance (s : WebTransport) : Decidable (Truthful s) :=
  inferInstanceAs (Decidable (_ → _))

def stale (s : WebTransport) : Action → Bool
  | .rendered k _ => s.renders[k]?.any (fun p => decide (p.number ≠ s.reported.length))
  | .fire k => s.timers[k]?.any (fun p => decide (p.number ≠ s.reported.length))
  | _ => false

/-- No stale callback moves the transport out of `disconnected`. -/
def Settled (s : WebTransport) (a : Action) : Prop :=
  stale s a = true → s.connectionState = .disconnected → (step s a).connectionState = .disconnected

instance (s : WebTransport) (a : Action) : Decidable (Settled s a) :=
  inferInstanceAs (Decidable (_ → _))

def Sound (s : WebTransport) (a : Action) : Prop := Truthful (step s a) ∧ Settled s a

instance (s : WebTransport) (a : Action) : Decidable (Sound s a) :=
  inferInstanceAs (Decidable (_ ∧ _))

def down (s : WebTransport) : ClientEvent → Bool
  | .authFailure _ | .disconnected _ => true
  | .qr _ | .ready => decide (s.connectionState = .disconnected)
  | _ => false

/-- The client reports nothing while a callback is pending that the report makes
obsolete: a timer, unless it reports `ready` again, and any callback where the
report leaves the transport `disconnected`. And it shows no new code while the
transport is `ready`. -/
def Undisturbed (s : WebTransport) : Action → Prop
  | .client e =>
    (e.counts = true → e ≠ .ready → s.timers = []) ∧
      (down s e = true → s.renders = [] ∧ s.timers = []) ∧
      (s.connectionState = .ready → ∀ code, e ≠ .qr code)
  | _ => True

@[simp] theorem setState_connectionState (s : WebTransport) (state : ConnectionState)
    (reason : Option String) :
    (setState s state reason).connectionState = state := rfl

@[simp] theorem setState_renders (s : WebTransport) (state : ConnectionState)
    (reason : Option String) :
    (setState s state reason).renders = s.renders := rfl

@[simp] theorem setState_timers (s : WebTransport) (state : ConnectionState)
    (reason : Option String) :
    (setState s state reason).timers = s.timers := rfl

@[simp] theorem setState_reported (s : WebTransport) (state : ConnectionState)
    (reason : Option String) :
    (setState s state reason).reported = s.reported := rfl

def Numbered (s : WebTransport) : Prop :=
  (∀ p ∈ s.renders, p.number ≤ s.reported.length) ∧ (∀ p ∈ s.timers, p.number ≤ s.reported.length)

def Fresh (s : WebTransport) : Prop :=
  (∀ p ∈ s.renders, p.number = s.reported.length) ∧ (∀ p ∈ s.timers, p.number = s.reported.length)

structure Calm (s : WebTransport) : Prop where
  truthful : Truthful s
  timed : s.timers ≠ [] → s.reported.head? = some .ready
  fresh : s.connectionState = .disconnected → Fresh s

theorem calm_init : Calm {} where
  truthful := by simp [Truthful]
  timed := by simp
  fresh := by simp

theorem rendered_some {s : WebTransport} {k : Nat} {p : Pending String}
    (hp : s.renders[k]? = some p) (url : String) : rendered s k (some url) =
      setState { s with renders := s.renders.eraseIdx k, lastQrDataUrl := some url } .qr none := by
  simp [rendered, hp]

theorem fire_due {s : WebTransport} {k : Nat} {p : Pending Ms} (hp : s.timers[k]? = some p)
    (hdue : p.value ≤ s.now) : fire s k =
      setState { s with timers := s.timers.eraseIdx k, lastQrDataUrl := none } .ready none := by
  simp [fire, hp, hdue]

theorem rendered_cases (s : WebTransport) (k : Nat) (url : Option String) :
    rendered s k url = s ∨ rendered s k url = { s with renders := s.renders.eraseIdx k } ∨
      ∃ p u, s.renders[k]? = some p ∧ rendered s k url =
        setState { s with renders := s.renders.eraseIdx k, lastQrDataUrl := some u } .qr none := by
  cases hp : s.renders[k]? with
  | none => exact .inl (by simp [rendered, hp])
  | some p =>
    cases url with
    | none => exact .inr (.inl (by simp [rendered, hp]))
    | some u => exact .inr (.inr ⟨p, u, rfl, rendered_some hp u⟩)

theorem fire_cases (s : WebTransport) (k : Nat) :
    fire s k = s ∨ ∃ p, s.timers[k]? = some p ∧ fire s k =
      setState { s with timers := s.timers.eraseIdx k, lastQrDataUrl := none } .ready none := by
  cases hp : s.timers[k]? with
  | none => exact .inl (by simp [fire, hp])
  | some p =>
    by_cases hdue : p.value ≤ s.now
    · exact .inr ⟨p, rfl, fire_due hp hdue⟩
    · exact .inl (by simp [fire, hp, hdue])

theorem calm_rendered {s : WebTransport} (h : Calm s) (k : Nat) (url : Option String) :
    Calm (rendered s k url) := by
  obtain heq | heq | ⟨p, u, -, heq⟩ := rendered_cases s k url
  · rwa [heq]
  · rw [heq]
    refine ⟨h.truthful, h.timed, fun hdown => ⟨fun p hp => ?_, (h.fresh hdown).2⟩⟩
    exact (h.fresh hdown).1 p (List.mem_of_mem_eraseIdx hp)
  · rw [heq]
    exact ⟨by simp [Truthful], h.timed, by simp⟩

theorem calm_fire {s : WebTransport} (h : Calm s) (k : Nat) : Calm (fire s k) := by
  obtain heq | ⟨p, hp, heq⟩ := fire_cases s k
  · rwa [heq]
  · have hready : s.reported.head? = some .ready := by
      apply h.timed
      intro hnil
      simp [hnil] at hp
    rw [heq]
    exact ⟨fun _ => hready, fun _ => hready, by simp⟩

theorem calm_client {s : WebTransport} (h : Calm s) {e : ClientEvent}
    (he : Undisturbed s (.client e)) :
    Calm (client s e) := by
  obtain ⟨htimers, hdown, hqr⟩ := he
  cases e with
  | qr code =>
    have hnil : s.timers = [] := htimers rfl (by simp)
    refine ⟨fun hready => absurd rfl (hqr hready code), fun ht => absurd hnil ht, fun hd => ?_⟩
    have hnone := (hdown (decide_eq_true hd)).1
    simp [Fresh, client, handler, ClientEvent.counts, hnil, hnone]
  | authenticated =>
    have hnil : s.timers = [] := htimers rfl (by simp)
    exact ⟨by simp [Truthful, client, handler, ClientEvent.counts], fun ht => absurd hnil ht,
      by simp [client, handler, ClientEvent.counts]⟩
  | ready =>
    refine ⟨fun _ => rfl, fun _ => rfl, fun hd => ?_⟩
    obtain ⟨hnone, hnil⟩ := hdown (decide_eq_true hd)
    simp [Fresh, client, handler, ClientEvent.counts, hnil, hnone]
  | authFailure msg =>
    obtain ⟨hnone, hnil⟩ := hdown rfl
    exact ⟨by simp [Truthful, client, handler, ClientEvent.counts], fun ht => absurd hnil ht,
      fun _ => by simp [Fresh, client, handler, ClientEvent.counts, hnil, hnone]⟩
  | disconnected reason =>
    obtain ⟨hnone, hnil⟩ := hdown rfl
    exact ⟨by simp [Truthful, client, handler, ClientEvent.counts], fun ht => absurd hnil ht,
      fun _ => by simp [Fresh, client, handler, ClientEvent.counts, hnil, hnone]⟩
  | loadingScreen percent message => exact ⟨h.truthful, h.timed, h.fresh⟩

theorem calm_step {s : WebTransport} (h : Calm s) {a : Action} (ha : Undisturbed s a) :
    Calm (step s a) := by
  cases a with
  | client e => exact calm_client h ha
  | rendered k url => exact calm_rendered h k url
  | fire k => exact calm_fire h k
  | wait ms => exact ⟨h.truthful, h.timed, h.fresh⟩

/-- No callback of a calm transport that is `disconnected` is stale. -/
theorem settled_of_calm {s : WebTransport} (h : Calm s) (a : Action) : Settled s a := by
  intro hstale hdown
  obtain ⟨hrenders, htimers⟩ := h.fresh hdown
  cases a with
  | rendered k url =>
    obtain ⟨p, hp, hne⟩ := (Option.any_eq_true _ _).mp hstale
    exact absurd (hrenders p (List.mem_of_getElem? hp)) (of_decide_eq_true hne)
  | fire k =>
    obtain ⟨p, hp, hne⟩ := (Option.any_eq_true _ _).mp hstale
    exact absurd (htimers p (List.mem_of_getElem? hp)) (of_decide_eq_true hne)
  | client e => simp [stale] at hstale
  | wait ms => simp [stale] at hstale

theorem sound_of_undisturbed {s : WebTransport} (h : Calm s) {as : List Action}
    (ha : Along Undisturbed step s as) : Along Sound step s as :=
  along_invariant Calm
    (fun _ a hcalm hok => ⟨⟨(calm_step hcalm hok).truthful, settled_of_calm hcalm a⟩,
      calm_step hcalm hok⟩)
    h ha

theorem numbered_grow {s : WebTransport} (h : Numbered s) (e : ClientEvent) :
    Numbered { s with reported := e :: s.reported } :=
  ⟨fun p hp => Nat.le_succ_of_le (h.1 p hp), fun p hp => Nat.le_succ_of_le (h.2 p hp)⟩

theorem numbered_handler {s : WebTransport} (h : Numbered s) (e : ClientEvent) :
    Numbered (handler s e) := by
  cases e with
  | qr code =>
    refine ⟨fun p hp => ?_, h.2⟩
    obtain hp | hp := List.mem_append.mp hp
    · exact h.1 p hp
    · rw [List.mem_singleton.mp hp]
      exact Nat.le_refl _
  | ready =>
    refine ⟨h.1, fun p hp => ?_⟩
    obtain hp | hp := List.mem_append.mp hp
    · exact h.2 p hp
    · rw [List.mem_singleton.mp hp]
      exact Nat.le_refl _
  | authenticated => exact h
  | authFailure msg => exact h
  | disconnected reason => exact h
  | loadingScreen percent message => exact h

theorem numbered_step {s : WebTransport} (h : Numbered s) (a : Action) : Numbered (step s a) := by
  cases a with
  | client e =>
    apply numbered_handler
    split
    · exact numbered_grow h e
    · exact h
  | rendered k url =>
    obtain heq | heq | ⟨p, u, -, heq⟩ := rendered_cases s k url
    · rwa [step, heq]
    · rw [step, heq]
      exact ⟨fun p hp => h.1 p (List.mem_of_mem_eraseIdx hp), h.2⟩
    · rw [step, heq]
      exact ⟨fun p hp => h.1 p (List.mem_of_mem_eraseIdx hp), h.2⟩
  | fire k =>
    obtain heq | ⟨p, -, heq⟩ := fire_cases s k
    · rwa [step, heq]
    · rw [step, heq]
      exact ⟨h.1, fun p hp => h.2 p (List.mem_of_mem_eraseIdx hp)⟩
  | wait ms => exact h

def Breach (s : WebTransport) : Prop :=
  ∃ bs : List Action, (∀ b ∈ bs, b.late = true) ∧ ¬ Along Sound step s bs

theorem breach_step {s : WebTransport} {a : Action} (ha : a.late = true) (h : Breach (step s a)) :
    Breach s := by
  obtain ⟨bs, hlate, hbreach⟩ := h
  refine ⟨a :: bs, ?_, fun halong => hbreach halong.2⟩
  simpa [ha] using hlate

theorem breach_of {s : WebTransport} {a : Action} (ha : a.late = true) (h : ¬ Sound s a) :
    Breach s :=
  ⟨[a], by simpa using ha, fun halong => h halong.1⟩

theorem breach_timer {s : WebTransport} {timer : Pending Ms} {timers : List (Pending Ms)}
    (ht : s.timers = timer :: timers)
    (hbad : s.reported.head? ≠ some .ready ∨
      s.connectionState = .disconnected ∧ timer.number ≠ s.reported.length) : Breach s := by
  apply breach_step (a := .wait (timer.value - s.now).toNat) rfl
  apply breach_of (a := .fire 0) rfl
  have hdue : timer.value ≤ s.now + (timer.value - s.now).toNat :=
    Int.le_add_of_sub_left_le (Int.self_le_toNat (timer.value - s.now))
  have hfire := fire_due (s := step s (.wait (timer.value - s.now).toNat)) (k := 0) (p := timer)
    (by simp [step, ht]) hdue
  rintro ⟨htruthful, hsettled⟩
  obtain hlast | ⟨hdown, hstale⟩ := hbad
  · rw [step, hfire] at htruthful
    exact hlast (htruthful rfl)
  · have hmoved := hsettled (by simp [stale, step, ht, hstale]) hdown
    rw [step, hfire] at hmoved
    exact absurd hmoved (by simp)

theorem breach_render {s : WebTransport} {render : Pending String} {renders : List (Pending String)}
    (hr : s.renders = render :: renders) (hdown : s.connectionState = .disconnected)
    (hstale : render.number ≠ s.reported.length) : Breach s := by
  apply breach_of (a := .rendered 0 (some render.value)) rfl
  rintro ⟨-, hsettled⟩
  have hmoved := hsettled (by simp [stale, hr, hstale]) hdown
  rw [step, rendered_some (p := render) (by simp [hr])] at hmoved
  exact absurd hmoved (by simp)

theorem reported_client (s : WebTransport) {e : ClientEvent} (he : e.counts = true) :
    (client s e).reported = e :: s.reported := by
  cases e <;> first | rfl | simp [ClientEvent.counts] at he

theorem timers_client (s : WebTransport) (e : ClientEvent) :
    ∃ timers, (client s e).timers = s.timers ++ timers := by
  cases e with
  | ready => exact ⟨_, rfl⟩
  | _ => exact ⟨[], (List.append_nil _).symm⟩

theorem renders_client (s : WebTransport) (e : ClientEvent) :
    ∃ renders, (client s e).renders = s.renders ++ renders := by
  cases e with
  | qr code => exact ⟨_, rfl⟩
  | _ => exact ⟨[], (List.append_nil _).symm⟩

theorem down_client {s : WebTransport} {e : ClientEvent} (h : down s e = true) :
    e.counts = true ∧ (client s e).connectionState = .disconnected := by
  cases e with
  | qr code => exact ⟨rfl, of_decide_eq_true h⟩
  | ready => exact ⟨rfl, of_decide_eq_true h⟩
  | authFailure msg => exact ⟨rfl, rfl⟩
  | disconnected reason => exact ⟨rfl, rfl⟩
  | authenticated => simp [down] at h
  | loadingScreen percent message => simp [down] at h

theorem breach_client {s : WebTransport} (hnum : Numbered s) {e : ClientEvent}
    (he : ¬ Undisturbed s (.client e)) : ¬ Sound s (.client e) ∨ Breach (client s e) := by
  obtain ⟨moreTimers, htimers⟩ := timers_client s e
  obtain ⟨moreRenders, hrenders⟩ := renders_client s e
  by_cases htimed : e.counts = true → e ≠ .ready → s.timers = []
  · by_cases hpending : down s e = true → s.renders = [] ∧ s.timers = []
    · have hqr : s.connectionState = .ready ∧ ∃ code, e = .qr code := by
        by_contra hnot
        exact he ⟨htimed, hpending, fun hready code hcode => hnot ⟨hready, code, hcode⟩⟩
      obtain ⟨hready, code, rfl⟩ := hqr
      left
      rintro ⟨htruthful, -⟩
      have hlast := htruthful hready
      simp [step, reported_client s (e := .qr code) rfl] at hlast
    · rw [Classical.not_imp] at hpending
      obtain ⟨hdown, hsome⟩ := hpending
      obtain ⟨hcounts, hstate⟩ := down_client hdown
      right
      cases hr : s.renders with
      | nil =>
        cases ht : s.timers with
        | nil => exact absurd ⟨hr, ht⟩ hsome
        | cons timer timers =>
          have hle := hnum.2 timer (by simp [ht])
          have hpending : (client s e).timers = timer :: (timers ++ moreTimers) := by
            rw [htimers, ht, List.cons_append]
          apply breach_timer hpending
          refine .inr ⟨hstate, ?_⟩
          rw [reported_client s hcounts, List.length_cons]
          omega
      | cons render renders =>
        have hle := hnum.1 render (by simp [hr])
        have hpending : (client s e).renders = render :: (renders ++ moreRenders) := by
          rw [hrenders, hr, List.cons_append]
        apply breach_render hpending hstate
        rw [reported_client s hcounts, List.length_cons]
        omega
  · rw [Classical.not_imp, Classical.not_imp] at htimed
    obtain ⟨hcounts, hne, hsome⟩ := htimed
    right
    cases ht : s.timers with
    | nil => exact absurd ht hsome
    | cons timer timers =>
      have hpending : (client s e).timers = timer :: (timers ++ moreTimers) := by
        rw [htimers, ht, List.cons_append]
      apply breach_timer hpending
      refine .inl ?_
      rw [reported_client s hcounts]
      simpa using hne

theorem undisturbed_of_late {s : WebTransport} {bs : List Action} (h : ∀ b ∈ bs, b.late = true) :
    Along Undisturbed step s bs := by
  refine along_mono (fun s b hb => ?_) (along_all h s)
  cases b with
  | client e => simp [Action.late] at hb
  | _ => trivial

theorem undisturbed_of_sound {s : WebTransport} (hnum : Numbered s) {as : List Action}
    (h : ∀ n, ∀ bs : List Action, (∀ b ∈ bs, b.late = true) →
      Along Sound step s (as.take n ++ bs)) :
    Along Undisturbed step s as := by
  induction as generalizing s with
  | nil => trivial
  | cons a as ih =>
    refine ⟨?_, ih (numbered_step hnum a) (fun n bs hbs => (h (n + 1) bs hbs).2)⟩
    cases a with
    | client e =>
      by_contra hdisturbed
      obtain hbad | ⟨bs, hbs, hbreach⟩ := breach_client hnum hdisturbed
      · exact hbad (h 1 [] (by simp)).1
      · exact hbreach (h 1 bs hbs).2
    | _ => trivial

/-- Whatever callbacks come at whatever point of a run, the transport is `ready`
only after a report of `ready` and leaves `disconnected` by no stale callback, if and
only if no report of the run disturbs a pending callback. -/
theorem sound_iff_undisturbed (as : List Action) :
    (∀ n, ∀ bs : List Action, (∀ b ∈ bs, b.late = true) → Along Sound step {} (as.take n ++ bs)) ↔
      Along Undisturbed step {} as := by
  constructor
  · intro h
    exact undisturbed_of_sound ⟨by simp, by simp⟩ h
  · intro h n bs hbs
    apply sound_of_undisturbed calm_init
    rw [along_append]
    refine ⟨?_, undisturbed_of_late hbs⟩
    rw [← List.take_append_drop n as, along_append] at h
    exact h.1

/-- The `ready` timer overtakes a disconnection. -/
theorem ready_after_disconnected : ¬ Along Sound step {}
    [.client .authenticated, .client .ready, .client (.disconnected "NAVIGATION"), .wait 5000,
      .fire 0] := by
  decide +kernel

end WhatsappTester.Transport.Connection
