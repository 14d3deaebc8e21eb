import WhatsappTester.Atomic.Subscription
import WhatsappTester.Broadcast

namespace WhatsappTester.Browser.Schedules

open Schema State Atomic Atomic.Program Atomic.Runs Atomic.Mirror Atomic.Subscription Broadcast
  Process

structure Page where
  connected : Bool := false
  inbox : List Notice := []
  /-- The answer to `GET /api/schedules`, with the number of the notices in the inbox that
  were emitted before it was computed. -/
  response : Option (List ScheduleView × Nat) := none
  loaded : Bool := false
  schedules : List ScheduleView := []
  /-- The notices emitted after the answer was computed that were lost with the socket, or handled
  before the answer came and took their place. -/
  missed : List Notice := []
  deriving DecidableEq, Repr

namespace Page

def asked (p : Page) : Bool := p.loaded || p.response.isSome

def connect (p : Page) : Page := { p with connected := true }

def newer (p : Page) : List Notice :=
  match p.response with
  | some (_, older) => p.inbox.drop older
  | none => if p.loaded then p.inbox else []

def disconnect (p : Page) : Page :=
  { p with
    connected := false
    inbox := []
    response := p.response.map (fun r => (r.1, 0))
    missed := p.missed ++ p.newer }

/-- `io.emit` -/
def hear (ns : List Notice) (p : Page) : Page :=
  if p.connected then { p with inbox := p.inbox ++ ns }
  else if p.asked then { p with missed := p.missed ++ ns }
  else p

/-- The server answers `loadSchedules`, which the page calls once. -/
def fetch (schedules : List ScheduleView) (p : Page) : Page :=
  if p.asked then p else { p with response := some (schedules, p.inbox.length) }

/-- `schedules = await res.json()` -/
def respond (p : Page) : Page :=
  match p.response with
  | none => p
  | some (schedules, _) => { p with response := none, loaded := true, schedules := schedules }

/-- `socket.on('scheduleUpdate')` and `socket.on('scheduleRemoved')` -/
def onNotice (n : Notice) (schedules : List ScheduleView) : List ScheduleView :=
  match n with
  | .scheduleUpdate schedule => put (·.id) schedule schedules
  | .scheduleRemoved id => schedules.filter (fun s => decide (s.id ≠ id))

def deliver (p : Page) : Page :=
  match p.inbox with
  | [] => p
  | n :: rest =>
    { p with
      inbox := rest
      response := p.response.map (fun r => (r.1, r.2 - 1))
      schedules := onNotice n p.schedules
      missed := if p.response.any (fun r => r.2 == 0) then p.missed ++ [n] else p.missed }

end Page

open Page

/-- The copy of the list that `renderScheduleList` sorts and shows. -/
def sorted (schedules : List ScheduleView) : List ScheduleView :=
  schedules.insertionSort (fun s s' => s.runAt ≤ s'.runAt)

structure Site (ω : Type) where
  server : Server
  page : ω → Page

inductive Action (ω : Type)
  | server (a : Process.Action)
  | open (b : ω)
  | connect (b : ω)
  | disconnect (b : ω)
  | fetch (b : ω)
  | respond (b : ω)
  | deliver (b : ω)

variable {ω : Type} [DecidableEq ω]

def onPage (s : Site ω) (b : ω) (f : Page → Page) : Site ω :=
  { s with page := Function.update s.page b (f (s.page b)) }

def step (s : Site ω) : Action ω → Site ω
  | .server a => ⟨Process.step s.server a, fun b => (s.page b).hear (noticesOf s.server a)⟩
  | .open b => onPage s b (fun _ => {})
  | .connect b => onPage s b connect
  | .disconnect b => onPage s b disconnect
  | .fetch b => onPage s b (fetch (list.run s.server.world).1)
  | .respond b => onPage s b respond
  | .deliver b => onPage s b deliver

def Whole : Action ω → Prop
  | .server a => a.isCrash = false
  | _ => True

def shown (schedules : List ScheduleView) (id : String) : Option ScheduleView :=
  Table.find (·.id) id schedules

def client (p : Page) : Client String ScheduleView where
  connected := p.connected
  inbox := p.inbox.map Notice.change
  snapshot := p.response.map (fun r => (shown r.1, r.2))
  loaded := p.loaded
  held := shown p.schedules
  missed := p.missed.map Notice.change

section Client

variable {p : Page}

theorem client_newer (p : Page) : p.newer.map Notice.change = (client p).newer := by
  obtain ⟨connected, inbox, response, loaded, schedules, missed⟩ := p
  cases response with
  | none => cases loaded <;> rfl
  | some r => exact List.map_drop

theorem client_disconnect (p : Page) : client p.disconnect = (client p).disconnect := by
  simp only [client, Page.disconnect, Client.disconnect, List.map_append, client_newer,
    Option.map_map]
  rfl

theorem client_asked (p : Page) : (client p).asked = p.asked := by
  simp [Client.asked, Page.asked, client]

theorem client_hear (ns : List Notice) (p : Page) :
    client (p.hear ns) = (client p).hear (ns.map Notice.change) := by
  simp only [Page.hear, Client.hear, client_asked]
  by_cases hconnected : p.connected = true
  · simp [client, hconnected]
  · by_cases hasked : p.asked = true
    · simp [client, hconnected, hasked]
    · simp [client, hconnected, hasked]

theorem client_fetch (schedules : List ScheduleView) (p : Page) :
    client (p.fetch schedules) = (client p).fetch (shown schedules) := by
  simp only [Page.fetch, Client.fetch, client_asked]
  split
  · rfl
  · simp [client]

theorem client_respond (p : Page) : client p.respond = (client p).respond := by
  obtain ⟨connected, inbox, response, loaded, schedules, missed⟩ := p
  cases response with
  | none => rfl
  | some r => rfl

theorem shown_onNotice (n : Notice) (schedules : List ScheduleView) :
    shown (onNotice n schedules) = apply (shown schedules) n.change := by
  funext id
  refine Eq.trans ?_ (apply_eq (shown schedules) n.change id).symm
  cases n with
  | scheduleUpdate schedule => exact find_put schedule id schedules
  | scheduleRemoved id' => exact find_filter_ne id id' schedules

theorem client_deliver (p : Page) : client p.deliver = (client p).deliver := by
  obtain ⟨connected, inbox, response, loaded, schedules, missed⟩ := p
  cases inbox with
  | nil => rfl
  | cons n rest =>
    simp only [Page.deliver, Client.deliver, client, List.map_cons, shown_onNotice, Option.map_map,
      Function.comp_def, Option.any_map]
    split <;> simp

theorem nodup_onNotice (n : Notice) {schedules : List ScheduleView}
    (h : (schedules.map (·.id)).Nodup) : ((onNotice n schedules).map (·.id)).Nodup := by
  cases n with
  | scheduleUpdate schedule => exact nodup_put h
  | scheduleRemoved id => exact h.sublist (List.filter_sublist.map _)

end Client

section Run

structure Distinct (p : Page) : Prop where
  schedules : (p.schedules.map (·.id)).Nodup
  response : ∀ r ∈ p.response, (r.1.map (·.id)).Nodup

structure Current (w : World) (p : Page) : Prop where
  follows : Follows (views w) (client p)
  distinct : Distinct p

variable {s : Site ω} {w : World} {p : Page} {b : ω}

theorem list_perm (w : World) :
    (list.run w).1.Perm (w.shared.db.schedules.map rowToSchedule) :=
  (List.perm_insertionSort _ _).map rowToSchedule

theorem distinct_list (h : Named w.shared) : ((list.run w).1.map (·.id)).Nodup := by
  refine ((list_perm w).map (·.id)).nodup_iff.mpr ?_
  rw [List.map_map]
  exact h.distinct

theorem find_map (rows : List Schedule) (id : String) :
    shown (rows.map rowToSchedule) id =
      (Table.find (·.id) id rows).map rowToSchedule := by
  simp only [shown, Table.find, List.find?_map]
  rfl

/-- The list shows what there is. -/
theorem shown_list (h : Named w.shared) : shown (list.run w).1 = views w := by
  funext id
  rw [shown, find_perm (list_perm w) (distinct_list h)]
  exact find_map _ id

theorem distinct_of {p' : Page} (h : Distinct p) (hschedules : p'.schedules = p.schedules)
    (hresponse : p'.response.map Prod.fst = p.response.map Prod.fst) : Distinct p' := by
  refine ⟨hschedules ▸ h.schedules, fun r hr => ?_⟩
  have hmem : some r.1 = p.response.map Prod.fst := by
    rw [← hresponse, Option.mem_def.mp hr]
    rfl
  obtain ⟨r', hr', heq⟩ := Option.map_eq_some_iff.mp hmem.symm
  rw [← heq]
  exact h.response r' hr'

theorem current_new (w : World) : Current w {} :=
  ⟨follows_new _, ⟨List.nodup_nil, nofun⟩⟩

theorem current_connect (h : Current w p) : Current w p.connect :=
  ⟨follows_connect h.follows, distinct_of h.distinct rfl rfl⟩

theorem current_disconnect (h : Current w p) : Current w p.disconnect := by
  refine ⟨?_, distinct_of h.distinct rfl ?_⟩
  · rw [client_disconnect]
    exact follows_disconnect h.follows
  · simp [Page.disconnect, Function.comp_def]

theorem current_fetch (hnamed : Named w.shared) (h : Current w p) :
    Current w (p.fetch (list.run w).1) := by
  refine ⟨?_, ?_⟩
  · rw [client_fetch, shown_list hnamed]
    exact follows_fetch h.follows
  · unfold Page.fetch
    split
    · exact h.distinct
    · refine ⟨h.distinct.schedules, fun r hr => ?_⟩
      rw [← Option.some.inj hr]
      exact distinct_list hnamed

theorem current_respond (h : Current w p) : Current w p.respond := by
  refine ⟨?_, ?_⟩
  · rw [client_respond]
    exact follows_respond h.follows
  · unfold Page.respond
    split
    · exact h.distinct
    case h_2 schedules older hresponse =>
      exact ⟨h.distinct.response _ hresponse, nofun⟩

theorem current_deliver (h : Current w p) : Current w p.deliver := by
  refine ⟨?_, ?_⟩
  · rw [client_deliver]
    exact follows_deliver h.follows
  · unfold Page.deliver
    split
    · exact h.distinct
    · refine ⟨nodup_onNotice _ h.distinct.schedules, fun r hr => ?_⟩
      obtain ⟨r', hr', rfl⟩ := Option.map_eq_some_iff.mp hr
      exact h.distinct.response r' hr'

/-- What the server does, a page hears of. -/
theorem current_server {t : Server} {a : Process.Action} (hnamed : Named t.world.shared)
    (ha : a.isCrash = false) (h : Current t.world p) :
    Current (Process.step t a).world (p.hear (noticesOf t a)) := by
  refine ⟨?_, distinct_of h.distinct ?_ ?_⟩
  · rw [client_hear, ← (told_emissionsOf hnamed ha).1, ← changes_noticesOf]
    exact follows_hear h.follows _
  · unfold Page.hear
    split <;> [rfl; split <;> rfl]
  · unfold Page.hear
    split <;> [rfl; split <;> rfl]

structure InStep (s : Site ω) : Prop where
  named : Named s.server.world.shared
  current : ∀ b, Current s.server.world (s.page b)

theorem inStep_onPage (h : InStep s) {f : Page → Page}
    (hf : ∀ p, Current s.server.world p → Current s.server.world (f p)) :
    InStep (onPage s b f) := by
  refine ⟨h.named, fun b' => ?_⟩
  by_cases hb : b' = b
  · subst hb
    simp only [onPage, Function.update_self]
    exact hf _ (h.current b')
  · simp only [onPage, Function.update_of_ne hb]
    exact h.current b'

theorem inStep_step (h : InStep s) {a : Action ω} (ha : Whole a) : InStep (step s a) := by
  cases a with
  | server a =>
    exact ⟨named_step h.named a, fun b => current_server h.named ha (h.current b)⟩
  | «open» b => exact inStep_onPage h (fun _ _ => current_new _)
  | connect b => exact inStep_onPage h (fun _ => current_connect)
  | disconnect b => exact inStep_onPage h (fun _ => current_disconnect)
  | fetch b => exact inStep_onPage h (fun _ => current_fetch h.named)
  | respond b => exact inStep_onPage h (fun _ => current_respond)
  | deliver b => exact inStep_onPage h (fun _ => current_deliver)

def openedOnce : List (Action Unit) :=
  [.open (), .connect (), .fetch (),
    .server (.call (.createSchedule ⟨[⟨some "1", none⟩], "hello", some 0, 0, none, none⟩)),
    .respond (), .deliver ()]

end Run

end WhatsappTester.Browser.Schedules
