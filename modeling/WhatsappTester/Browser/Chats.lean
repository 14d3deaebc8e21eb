import Mathlib.Data.List.DropRight
import Mathlib.Logic.Function.Basic
import WhatsappTester.Atomic.Runs
import WhatsappTester.Atomic.Tailing
import WhatsappTester.Schema

namespace WhatsappTester.Browser.Chats

open Schema Atomic.Runs Atomic.Tailing

structure Message where
  id : String
  body : String
  fromMe : Bool
  author : Option String
  timestamp : Int
  hasMedia : Bool
  deriving DecidableEq, Repr

/-- A message in the collections of the WhatsApp client. `announced` says whether the client fires
`message_create` for it. -/
structure Model where
  sender : String
  receiver : String
  message : Message
  isNotification : Bool
  serializable : Bool
  announced : Bool
  deriving DecidableEq, Repr

def Model.chatId (m : Model) : String := if m.message.fromMe then m.receiver else m.sender

structure ChatEvent where
  chatId : String
  message : Message
  deriving DecidableEq, Repr

/-- `client.on('message_create')` -/
def onMessageCreate (m : Model) : Option ChatEvent :=
  if m.sender = "status@broadcast" ∨ m.receiver = "status@broadcast" then none
  else some ⟨m.chatId, m.message⟩

structure Feed where
  ready : Bool
  chats : List String
  models : List Model
  queue : List ChatEvent := []
  deriving DecidableEq, Repr

def announcements (models : List Model) : List ChatEvent :=
  models.filterMap (fun m => if m.announced then onMessageCreate m else none)

def fetched (models : List Model) (chatId : String) : List Message :=
  let kept := models.filter (fun m => decide (m.chatId = chatId) && !m.isNotification)
  ((kept.rtake 50).filter (·.serializable)).map (·.message)

/-- `GET /api/chats/:id/messages` -/
def getMessages (t : Feed) (chatId : String) : Except String (List Message) :=
  if t.ready then
    if chatId ∈ t.chats then .ok (fetched t.models chatId) else .error "Chat not found"
  else .error "WhatsApp is not connected yet"

inductive Row
  | bubble (m : Message)
  | divider (label : String)
  | failure (text : String)
  deriving DecidableEq, Repr

/-- The answer that `openChat` waits for, if it has been computed, with the number of
messages that there were then. -/
structure Load where
  chatId : String
  answer : Option (Except String (List Message) × Nat) := none

structure Page where
  connected : Bool := false
  inbox : List ChatEvent := []
  activeChatId : Option String := none
  loads : List Load := []
  block : Option String := none
  rows : List Row := []
  currentThreadLastDay : Option String := none
  /-- The load that the thread was set up with, and the number of messages that its answer came
  after; `none` if a chat has been opened since, or a load has failed. -/
  rendered : Option (String × Nat) := none
  /-- The events that had come, or were lost, when the thread was set up. -/
  reached : Nat := 0
  /-- The events since then, each with whether it came. -/
  past : List (ChatEvent × Bool) := []

structure Site (ω : Type) where
  feed : Feed
  page : ω → Page
  now : Ms

variable (formatDayLabel : Ms → Int → String)

namespace Page

def connect (p : Page) : Page := { p with connected := true }

def disconnect (p : Page) : Page :=
  { p with connected := false, inbox := [], past := p.past ++ p.inbox.map (·, false) }

/-- `io.emit('chatMessage')` -/
def hear (e : ChatEvent) (p : Page) : Page :=
  if p.connected then { p with inbox := p.inbox ++ [e] }
  else { p with past := p.past ++ [(e, false)] }

def clear (rendered : Option (String × Nat)) (reached : Nat) (p : Page) : Page :=
  { p with block := none, rows := [], rendered := rendered, reached := reached, past := [] }

def openChat (chatId : String) (reached : Nat) (p : Page) : Page :=
  { p.clear none reached with
    activeChatId := some chatId
    block := some "Loading messages…"
    loads := p.loads ++ [{ chatId }] }

def appendBubble (now : Ms) (p : Page) (msg : Message) : Page :=
  let dayLabel := formatDayLabel now msg.timestamp
  if p.currentThreadLastDay = some dayLabel then { p with rows := p.rows ++ [.bubble msg] }
  else
    { p with
      rows := p.rows ++ [.divider dayLabel, .bubble msg]
      currentThreadLastDay := some dayLabel }

def renderMessages (now : Ms) (list : List Message) (p : Page) : Page :=
  list.foldl (appendBubble formatDayLabel now) { p with currentThreadLastDay := none }

def answer (t : Feed) (k : Nat) (p : Page) : Page :=
  match p.loads[k]? with
  | some load =>
    if load.answer.isNone then
      { p with
        loads := p.loads.set k
          { load with answer := some (getMessages t load.chatId, t.models.length) } }
    else p
  | none => p

def showError (text : String) (reached : Nat) (p : Page) : Page :=
  { p.clear none reached with block := some text }

/-- `openChat` goes on with the answer. -/
def respond (now : Ms) (k : Nat) (reached : Nat) (p : Page) : Page :=
  match p.loads[k]? with
  | some ⟨chatId, some (.ok list, seen)⟩ =>
    renderMessages formatDayLabel now list
      (clear (some (chatId, seen)) reached { p with loads := p.loads.eraseIdx k })
  | some ⟨_, some (.error text, _)⟩ => showError text reached { p with loads := p.loads.eraseIdx k }
  | _ => p

def fail (k : Nat) (text : String) (reached : Nat) (p : Page) : Page :=
  if k < p.loads.length then showError text reached { p with loads := p.loads.eraseIdx k } else p

/-- `socket.on('chatMessage')` -/
def deliver (now : Ms) (p : Page) : Page :=
  match p.inbox with
  | [] => p
  | e :: rest =>
    let p := { p with inbox := rest, past := p.past ++ [(e, true)] }
    if some e.chatId = p.activeChatId then appendBubble formatDayLabel now p e.message else p

def sendFailed (text : String) (p : Page) : Page := { p with rows := p.rows ++ [.failure text] }

end Page

inductive Action (ω : Type)
  | wait (ms : Nat)
  | connection (ready : Bool)
  | chat (id : String)
  | store (m : Model)
  | emit
  | open (b : ω)
  | connect (b : ω)
  | disconnect (b : ω)
  | openChat (b : ω) (chatId : String)
  | answer (b : ω) (k : Nat)
  | respond (b : ω) (k : Nat)
  | fail (b : ω) (k : Nat) (text : String)
  | deliver (b : ω)
  | sendFailed (b : ω) (text : String)

def Feed.store (t : Feed) (m : Model) : Feed :=
  { t with
    chats := if m.chatId ∈ t.chats then t.chats else t.chats ++ [m.chatId]
    models := t.models ++ [m]
    queue := t.queue ++ announcements [m] }

variable {ω : Type} [DecidableEq ω]

/-- The events that have come to a page, or that it has lost. -/
def come (t : Feed) (p : Page) : Nat :=
  (announcements t.models).length - (p.inbox ++ t.queue).length

def opened (t : Feed) : Page := { reached := come t {} }

def onPage (s : Site ω) (b : ω) (f : Page → Page) : Site ω :=
  { s with page := Function.update s.page b (f (s.page b)) }

def step (s : Site ω) : Action ω → Site ω
  | .wait ms => { s with now := s.now + ms }
  | .connection ready => { s with feed := { s.feed with ready := ready } }
  | .chat id => { s with feed := { s.feed with chats := s.feed.chats ++ [id] } }
  | .store m => { s with feed := s.feed.store m }
  | .emit =>
    match s.feed.queue with
    | [] => s
    | e :: rest =>
      { s with feed := { s.feed with queue := rest }, page := fun b => (s.page b).hear e }
  | .open b => onPage s b (fun _ => opened s.feed)
  | .connect b => onPage s b Page.connect
  | .disconnect b => onPage s b Page.disconnect
  | .openChat b chatId => onPage s b (fun p => p.openChat chatId (come s.feed p))
  | .answer b k => onPage s b (Page.answer s.feed k)
  | .respond b k =>
    onPage s b (fun p => p.respond formatDayLabel s.now k (come s.feed p))
  | .fail b k text => onPage s b (fun p => p.fail k text (come s.feed p))
  | .deliver b => onPage s b (Page.deliver formatDayLabel s.now)
  | .sendFailed b text => onPage s b (Page.sendFailed text)

def bubbles (rows : List Row) : List Message :=
  rows.filterMap (fun row => match row with
    | .bubble m => some m
    | _ => none)

def loaded (models : List Model) (rendered : Option (String × Nat)) : List Message :=
  match rendered with
  | some (chatId, seen) => fetched (models.take seen) chatId
  | none => []

def pick (activeChatId : Option String) (e : ChatEvent) : Option Message :=
  if some e.chatId = activeChatId then some e.message else none

def reader (t : Feed) (p : Page) : Reader ChatEvent Message :=
  ⟨loaded t.models p.rendered, bubbles p.rows, p.inbox ++ t.queue, p.reached, p.past⟩

structure Shows (t : Feed) (p : Page) : Prop where
  tails : Tails (pick p.activeChatId) (announcements t.models) (reader t p)
  inbox : p.connected = false → p.inbox = []
  rendered : ∀ r ∈ p.rendered, r.2 ≤ t.models.length
  loads : ∀ load ∈ p.loads, ∀ list seen, load.answer = some (.ok list, seen) →
    seen ≤ t.models.length ∧ list = fetched (t.models.take seen) load.chatId

section Shows

variable {formatDayLabel} {t : Feed} {p : Page}

theorem bubbles_append (rows rows' : List Row) :
    bubbles (rows ++ rows') = bubbles rows ++ bubbles rows' := List.filterMap_append

theorem announcements_append (models models' : List Model) :
    announcements (models ++ models') = announcements models ++ announcements models' :=
  List.filterMap_append

theorem appendBubble_eq (formatDayLabel : Ms → Int → String) (now : Ms) (p : Page)
    (msg : Message) :
    ∃ rows day, p.appendBubble formatDayLabel now msg =
      { p with rows := p.rows ++ rows, currentThreadLastDay := day } ∧ bubbles rows = [msg] := by
  simp only [Page.appendBubble]
  split
  · exact ⟨[.bubble msg], p.currentThreadLastDay, rfl, rfl⟩
  · exact ⟨_, _, rfl, rfl⟩

theorem foldl_appendBubble (formatDayLabel : Ms → Int → String) (now : Ms) (list : List Message)
    (p : Page) :
    ∃ rows day, list.foldl (Page.appendBubble formatDayLabel now) p =
      { p with rows := p.rows ++ rows, currentThreadLastDay := day } ∧ bubbles rows = list := by
  induction list generalizing p with
  | nil => exact ⟨[], p.currentThreadLastDay, by simp, rfl⟩
  | cons msg list ih =>
    obtain ⟨rows, day, heq, hrows⟩ := appendBubble_eq formatDayLabel now p msg
    obtain ⟨rows', day', heq', hrows'⟩ := ih (p.appendBubble formatDayLabel now msg)
    refine ⟨rows ++ rows', day', ?_, ?_⟩
    · rw [List.foldl_cons, heq', heq, List.append_assoc]
    · rw [bubbles_append, hrows, hrows']
      rfl

theorem loaded_store {rendered : Option (String × Nat)}
    (h : ∀ r ∈ rendered, r.2 ≤ t.models.length) (m : Model) :
    loaded (t.store m).models rendered = loaded t.models rendered := by
  cases rendered with
  | none => rfl
  | some r =>
    simp only [loaded, Feed.store]
    rw [List.take_append_of_le_length (h r rfl)]

theorem shows_new (h : t.queue <:+ announcements t.models) : Shows t (opened t) :=
  ⟨tails_start _ h [], fun _ => rfl, nofun, nofun⟩

theorem shows_connect (h : Shows t p) : Shows t p.connect :=
  ⟨h.tails, nofun, h.rendered, h.loads⟩

theorem shows_disconnect (h : Shows t p) : Shows t p.disconnect :=
  ⟨tails_lose h.tails rfl, fun _ => rfl, h.rendered, h.loads⟩

theorem shows_clear (h : Shows t p) {p' : Page} (hinbox : p'.inbox = p.inbox)
    (hconnected : p'.connected = p.connected) (hreached : p'.reached = come t p)
    (hpast : p'.past = []) (hrows : bubbles p'.rows = loaded t.models p'.rendered)
    (hrendered : ∀ r ∈ p'.rendered, r.2 ≤ t.models.length)
    (hloads : ∀ load ∈ p'.loads, load ∈ p.loads ∨ load.answer = none) : Shows t p' := by
  refine ⟨?_, fun hdown => hinbox.trans (h.inbox (hconnected.symm.trans hdown)), hrendered,
    fun load hload list seen hanswer => ?_⟩
  · have hstart := tails_start (pick p'.activeChatId) (way_suffix h.tails)
      (loaded t.models p'.rendered)
    rw [reader, hrows, hinbox, hreached, hpast]
    exact hstart
  · obtain hold | hnone := hloads load hload
    · exact h.loads load hold list seen hanswer
    · rw [hnone] at hanswer
      cases hanswer

theorem shows_openChat (h : Shows t p) (chatId : String) :
    Shows t (p.openChat chatId (come t p)) := by
  refine shows_clear h rfl rfl rfl rfl rfl nofun (fun load hload => ?_)
  obtain hload | hload := List.mem_append.mp hload
  · exact .inl hload
  · rw [List.mem_singleton.mp hload]
    exact .inr rfl

theorem shows_answer (h : Shows t p) (k : Nat) : Shows t (p.answer t k) := by
  unfold Page.answer
  split
  · next load hload =>
    split
    · refine ⟨h.tails, h.inbox, h.rendered, fun load' hload' list seen hanswer => ?_⟩
      obtain hold | rfl := List.mem_or_eq_of_mem_set hload'
      · exact h.loads load' hold list seen hanswer
      · obtain ⟨hget, rfl⟩ := Prod.mk.inj (Option.some.inj hanswer)
        refine ⟨Nat.le_refl _, ?_⟩
        rw [List.take_length]
        unfold getMessages at hget
        split at hget
        · split at hget
          · exact (Except.ok.inj hget).symm
          · cases hget
        · cases hget
    · exact h
  · exact h

theorem shows_showError (h : Shows t p) (text : String) (k : Nat) :
    Shows t (Page.showError text (come t p) { p with loads := p.loads.eraseIdx k }) :=
  shows_clear h rfl rfl rfl rfl rfl nofun (fun _ hload => .inl (List.mem_of_mem_eraseIdx hload))

theorem shows_respond (h : Shows t p) (now : Ms) (k : Nat) :
    Shows t (p.respond formatDayLabel now k (come t p)) := by
  unfold Page.respond
  split
  · next chatId list seen hload =>
    obtain ⟨hseen, hlist⟩ := h.loads _ (List.mem_of_getElem? hload) list seen rfl
    obtain ⟨rows, day, heq, hrows⟩ := foldl_appendBubble formatDayLabel now list
      { Page.clear (some (chatId, seen)) (come t p) { p with loads := p.loads.eraseIdx k } with
        currentThreadLastDay := none }
    rw [Page.renderMessages, heq]
    refine shows_clear h rfl rfl rfl rfl ?_ ?_
      (fun _ hload => .inl (List.mem_of_mem_eraseIdx hload))
    · exact hrows.trans hlist
    · rintro r ⟨rfl⟩
      exact hseen
  · exact shows_showError h _ k
  · exact h

theorem shows_fail (h : Shows t p) (k : Nat) (text : String) :
    Shows t (p.fail k text (come t p)) := by
  unfold Page.fail
  split
  · exact shows_showError h text k
  · exact h

theorem shows_deliver (h : Shows t p) (now : Ms) : Shows t (p.deliver formatDayLabel now) := by
  unfold Page.deliver
  split
  · exact h
  · next e rest hinbox =>
    have hway : (reader t p).way = e :: (rest ++ t.queue) := by rw [reader, hinbox]; rfl
    have hheard := tails_hear h.tails hway
    have hdown : p.connected = false → rest = [] := by
      intro hdown
      rw [h.inbox hdown] at hinbox
      cases hinbox
    dsimp only
    split
    · next hactive =>
      obtain ⟨rows, day, heq, hrows⟩ := appendBubble_eq formatDayLabel now
        { p with inbox := rest, past := p.past ++ [(e, true)] } e.message
      rw [heq]
      refine ⟨?_, hdown, h.rendered, h.loads⟩
      rw [pick, if_pos hactive] at hheard
      simp only [reader, bubbles_append, hrows]
      exact hheard
    · next hactive =>
      refine ⟨?_, hdown, h.rendered, h.loads⟩
      rw [pick, if_neg hactive, Option.toList_none, List.append_nil] at hheard
      exact hheard

theorem shows_sendFailed (h : Shows t p) (text : String) : Shows t (p.sendFailed text) := by
  refine ⟨?_, h.inbox, h.rendered, h.loads⟩
  have hsame : bubbles (p.sendFailed text).rows = bubbles p.rows := by
    rw [Page.sendFailed, bubbles_append]
    exact List.append_nil _
  rw [reader, hsame]
  exact h.tails

theorem shows_hear {e : ChatEvent} {rest : List ChatEvent} (h : Shows t p)
    (hqueue : t.queue = e :: rest) : Shows { t with queue := rest } (p.hear e) := by
  unfold Page.hear
  split
  · next hup =>
    refine ⟨?_, fun hdown => absurd (hdown.symm.trans hup) (by simp), h.rendered, h.loads⟩
    have hway : p.inbox ++ [e] ++ rest = p.inbox ++ t.queue := by
      rw [hqueue, List.append_assoc]
      rfl
    simp only [reader, hway]
    exact h.tails
  · next hdown =>
    have hinbox := h.inbox (Bool.eq_false_iff.mpr hdown)
    have hway : (reader t p).way = [e] ++ (p.inbox ++ rest) := by
      rw [reader, hinbox, hqueue]
      rfl
    exact ⟨tails_lose h.tails hway, h.inbox, h.rendered, h.loads⟩

theorem shows_store (h : Shows t p) (m : Model) : Shows (t.store m) p := by
  have hgrown : t.models.length ≤ (t.store m).models.length := by
    simp [Feed.store]
  refine ⟨?_, h.inbox, fun r hr => Nat.le_trans (h.rendered r hr) hgrown,
    fun load hload list seen hanswer => ?_⟩
  · have htails := tails_grow h.tails (announcements [m])
    rw [reader, loaded_store h.rendered]
    simp only [Feed.store, announcements_append, ← List.append_assoc]
    exact htails
  · obtain ⟨hseen, hlist⟩ := h.loads load hload list seen hanswer
    refine ⟨Nat.le_trans hseen hgrown, ?_⟩
    simp only [Feed.store]
    rw [List.take_append_of_le_length hseen]
    exact hlist

end Shows

section Run

variable {formatDayLabel} {s : Site ω} {b : ω}

structure InStep (s : Site ω) : Prop where
  queue : s.feed.queue <:+ announcements s.feed.models
  shows : ∀ b, Shows s.feed (s.page b)

theorem inStep_onPage (h : InStep s) {f : Page → Page}
    (hf : ∀ p, Shows s.feed p → Shows s.feed (f p)) : InStep (onPage s b f) := by
  refine ⟨h.queue, fun b' => ?_⟩
  by_cases hb : b' = b
  · subst hb
    simp only [onPage, Function.update_self]
    exact hf _ (h.shows b')
  · simp only [onPage, Function.update_of_ne hb]
    exact h.shows b'

theorem inStep_step (h : InStep s) (a : Action ω) : InStep (step formatDayLabel s a) := by
  cases a with
  | wait ms => exact ⟨h.queue, h.shows⟩
  | connection ready => exact ⟨h.queue, fun b => ⟨(h.shows b).tails, (h.shows b).inbox,
      (h.shows b).rendered, (h.shows b).loads⟩⟩
  | chat id => exact ⟨h.queue, fun b => ⟨(h.shows b).tails, (h.shows b).inbox,
      (h.shows b).rendered, (h.shows b).loads⟩⟩
  | store m =>
    refine ⟨?_, fun b => shows_store (h.shows b) m⟩
    obtain ⟨before, hbefore⟩ := h.queue
    refine ⟨before, ?_⟩
    simp only [step, Feed.store, announcements_append, ← hbefore, List.append_assoc]
  | emit =>
    simp only [step]
    split
    · exact h
    · next e rest hqueue =>
      refine ⟨?_, fun b => shows_hear (h.shows b) hqueue⟩
      exact (hqueue ▸ List.suffix_cons e rest : rest <:+ s.feed.queue).trans h.queue
  | «open» b => exact inStep_onPage h (fun _ _ => shows_new h.queue)
  | connect b => exact inStep_onPage h (fun _ => shows_connect)
  | disconnect b => exact inStep_onPage h (fun _ => shows_disconnect)
  | openChat b chatId =>
    exact inStep_onPage h (f := fun p => p.openChat chatId (come s.feed p))
      (fun _ hp => shows_openChat hp chatId)
  | answer b k => exact inStep_onPage h (fun _ hp => shows_answer hp k)
  | respond b k =>
    exact inStep_onPage h (f := fun p => p.respond formatDayLabel s.now k (come s.feed p))
      (fun _ hp => shows_respond hp s.now k)
  | fail b k text =>
    exact inStep_onPage h (f := fun p => p.fail k text (come s.feed p))
      (fun _ hp => shows_fail hp k text)
  | deliver b => exact inStep_onPage h (fun _ hp => shows_deliver hp s.now)
  | sendFailed b text => exact inStep_onPage h (fun _ hp => shows_sendFailed hp text)

def live (p : Page) (events : List ChatEvent) : List Message :=
  events.filterMap (pick p.activeChatId)

theorem chat_of_fetched {models : List Model} {chatId : String} {m : Message}
    (h : m ∈ fetched models chatId) : ∃ x ∈ models, x.message = m ∧ x.chatId = chatId := by
  obtain ⟨x, hx, rfl⟩ := List.mem_map.mp h
  have hkept := List.mem_of_mem_drop (List.mem_filter.mp hx).1
  obtain ⟨hmodel, hchat⟩ := List.mem_filter.mp hkept
  rw [Bool.and_eq_true, decide_eq_true_eq] at hchat
  exact ⟨x, hmodel, rfl, hchat.1⟩

theorem came_announced {models : List Model} {past : List (ChatEvent × Bool)}
    {way : List ChatEvent} {k : Nat}
    (h : past.map (·.1) ++ way = (announcements models).drop k) :
    ∀ e ∈ came past, e ∈ announcements models := by
  intro e he
  obtain ⟨x, hx, rfl⟩ := List.mem_map.mp he
  apply List.mem_of_mem_drop (i := k)
  rw [← h]
  exact List.mem_append_left _ (List.mem_map_of_mem (List.mem_filter.mp hx).1)

theorem chat_of_live {models : List Model} {p : Page} {events : List ChatEvent} {m : Message}
    (hevents : ∀ e ∈ events, e ∈ announcements models) (h : m ∈ live p events) :
    ∃ x ∈ models, x.message = m ∧ some x.chatId = p.activeChatId := by
  obtain ⟨e, he, hpick⟩ := List.mem_filterMap.mp h
  obtain ⟨x, hx, hannounced⟩ := List.mem_filterMap.mp (hevents e he)
  obtain ⟨hactive, hmessage⟩ := Option.ite_none_right_eq_some.mp hpick
  obtain ⟨-, hevent⟩ := Option.ite_none_right_eq_some.mp hannounced
  obtain ⟨-, hevent⟩ := Option.ite_none_left_eq_some.mp hevent
  rw [← Option.some.inj hevent] at hactive hmessage
  exact ⟨x, hx, Option.some.inj hmessage, hactive⟩

/-- At any moment the thread of a page shows, in order, what it was set up with (what the server had
when it answered the load that was rendered, or nothing if a chat was opened or a load failed), and
after it the messages of the open chat that have come since: of what was announced and had not come
by then, all but what was lost with the socket or is on its way. If the thread was set up with a
load for the open chat, then no message of another chat is shown; if besides all of that chat has
come, and just what the answer came after had come to the page, then what was announced after the
answer is shown after it. -/
theorem thread_shows (chats : List String) (models : List Model) (ready : Bool) (now : Ms)
    (as : List (Action ω)) (b : ω) :
    let t : Feed := ⟨ready, chats, models, []⟩
    let s := play (step formatDayLabel) ⟨t, fun _ => opened t, now⟩ as
    let p := s.page b
    let shown := bubbles p.rows
    p.past.map (·.1) ++ (p.inbox ++ s.feed.queue) =
        (announcements s.feed.models).drop p.reached ∧
      shown = loaded s.feed.models p.rendered ++ live p (came p.past) ∧
      ∀ chatId seen, p.rendered = some (chatId, seen) → p.activeChatId = some chatId →
        (∀ m ∈ shown, ∃ x ∈ s.feed.models, x.message = m ∧ x.chatId = chatId) ∧
        (p.inbox ++ s.feed.queue = [] → (∀ x ∈ p.past, x.2 = false → x.1.chatId ≠ chatId) →
          p.reached = (announcements (s.feed.models.take seen)).length →
          shown = fetched (s.feed.models.take seen) chatId ++
            live p (announcements (s.feed.models.drop seen))) := by
  intro t s p shown
  have hs : InStep s := by
    refine play_invariant_all InStep (fun _ a h => inStep_step h a) ?_ as
    exact ⟨List.nil_suffix, fun _ => shows_new List.nil_suffix⟩
  obtain ⟨-, hsplit, hshown⟩ := (hs.shows b).tails
  have hshown : shown = loaded s.feed.models p.rendered ++ live p (came p.past) := hshown
  have hsplit : p.past.map (·.1) ++ (p.inbox ++ s.feed.queue) =
      (announcements s.feed.models).drop p.reached := hsplit
  refine ⟨hsplit, hshown, fun chatId seen hrendered hactive => ?_⟩
  rw [hrendered] at hshown
  refine ⟨fun m hm => ?_, fun hway hlost hreached => ?_⟩
  · rw [hshown] at hm
    obtain hm | hm := List.mem_append.mp hm
    · obtain ⟨x, hx, hsame⟩ := chat_of_fetched hm
      exact ⟨x, List.mem_of_mem_take hx, hsame⟩
    · obtain ⟨x, hx, hmessage, hchat⟩ := chat_of_live (came_announced hsplit) hm
      exact ⟨x, hx, hmessage, Option.some.inj (hchat.trans hactive)⟩
  · have hdrop : (announcements s.feed.models).drop p.reached =
        announcements (s.feed.models.drop seen) := by
      conv_lhs => rw [← List.take_append_drop seen s.feed.models, announcements_append, hreached]
      exact List.drop_left
    rw [hway, List.append_nil, hdrop] at hsplit
    have hpicked : ∀ x ∈ p.past, x.2 = false → pick p.activeChatId x.1 = none :=
      fun x hx hfalse => if_neg (fun h => hlost x hx hfalse (Option.some.inj (h.trans hactive)))
    rw [hshown, live, came_of_picked hpicked, hsplit]
    rfl

def incoming (id : String) : Model where
  sender := "ana"
  receiver := "me"
  message := ⟨id, "hi", false, none, 0, false⟩
  isNotification := false
  serializable := true
  announced := true

def openedOnce : List (Action Unit) :=
  [.connect (), .store (incoming "1"), .emit, .deliver (), .openChat () "ana", .answer () 0,
    .respond () 0, .store (incoming "2"), .emit, .deliver ()]

theorem thread_shows_openedOnce :
    let t : Feed := ⟨true, [], [], []⟩
    let s := play (step (fun _ _ => "Today")) ⟨t, fun _ => opened t, 0⟩ openedOnce
    bubbles (s.page ()).rows = [(incoming "1").message] ++ [(incoming "2").message] :=
  ((thread_shows [] [] true 0 openedOnce ()).2.2 "ana" 1 (by decide +kernel) (by decide +kernel)).2
    (by decide +kernel) (by decide +kernel) (by decide +kernel)

end Run

end WhatsappTester.Browser.Chats
