import WhatsappTester.Atomic.Runs
import WhatsappTester.Routes

namespace WhatsappTester.Idempotency

open Schema State Routes Atomic.Program Atomic.Runs

def compositeKey (r : Request) : Option String :=
  match routeName r.body.route, r.idempotencyKey.filter (· ≠ "") with
  | some name, some key => some (name ++ ":" ++ key)
  | _, _ => none

/-- `SELECT response … WHERE key = ? AND expires_at > ?` -/
def lookup (now : Ms) (key : String) (rows : List IdempotencyRow) : Option Response :=
  (rows.find? (fun row => decide (row.key = key ∧ row.expiresAt > now))).map (·.response)

/-- `INSERT … ON CONFLICT(key) DO NOTHING` -/
def store (key route : String) (arrivedAt : Ms) (response : Response) (rows : List IdempotencyRow) :
    List IdempotencyRow :=
  if rows.any (fun row => decide (row.key = key)) then rows
  else rows ++ [⟨key, route, response, arrivedAt, arrivedAt + ttlMs⟩]

def sweep (now : Ms) (rows : List IdempotencyRow) : List IdempotencyRow :=
  rows.filter (fun row => decide (¬ row.expiresAt < now))

theorem storeResponse_run (id : Id) (key : String) (arrivedAt : Ms) (route : SendRoute)
    (response : Response) (w : World) :
    ((storeResponse id key arrivedAt route response).run w).2.shared.db.idempotencyKeys =
      store key ((routeName route).getD "") arrivedAt response w.shared.db.idempotencyKeys := by
  simp only [storeResponse, run_exec, store]
  split <;> rfl

theorem sweepExpiredIdempotencyKeys_run (w : World) :
    (sweepExpiredIdempotencyKeys.run w).2.shared.db.idempotencyKeys =
      sweep w.shared.now w.shared.db.idempotencyKeys := rfl

structure Running where
  id : Nat
  request : Request
  arrivedAt : Ms
  deriving DecidableEq, Repr

inductive Entry
  | started (id : Nat) (request : Request)
  | replayed (id : Nat) (request : Request) (response : Response)
  | answered (id : Nat) (request : Request) (arrivedAt : Ms) (status : Nat) (response : Response)
  deriving DecidableEq, Repr

/-- The middleware of the send routes, with the history of their requests, newest first. -/
structure Desk where
  rows : List IdempotencyRow := []
  running : List Running := []
  now : Ms := 0
  nextId : Nat := 0
  log : List Entry := []

def replay (s : Desk) (r : Request) : Option Response :=
  (compositeKey r).bind (fun key => lookup s.now key s.rows)

def arrive (s : Desk) (r : Request) : Desk :=
  match replay s r with
  | some response =>
    { s with nextId := s.nextId + 1, log := .replayed s.nextId r response :: s.log }
  | none =>
    { s with
      nextId := s.nextId + 1
      running := s.running ++ [⟨s.nextId, r, s.now⟩]
      log := .started s.nextId r :: s.log }

def success (status : Nat) : Bool := decide (200 ≤ status ∧ status < 300)

/-- What the wrapped `res.json` stores. -/
def filed (x : Running) (status : Nat) (response : Response) (rows : List IdempotencyRow) :
    List IdempotencyRow :=
  match compositeKey x.request with
  | some key =>
    if success status then store key ((routeName x.request.body.route).getD "") x.arrivedAt response
      rows else rows
  | none => rows

def find (s : Desk) (id : Nat) : Option Running := s.running.find? (fun x => decide (x.id = id))

def answer (s : Desk) (id status : Nat) (response : Response) : Desk :=
  match find s id with
  | some x =>
    { s with
      rows := filed x status response s.rows
      running := s.running.filter (fun y => decide (y.id ≠ id))
      log := .answered id x.request x.arrivedAt status response :: s.log }
  | none => s

inductive Action
  | arrive (r : Request)
  | answer (id status : Nat) (response : Response)
  | sweep
  | restart
  | wait (ms : Nat)
  deriving DecidableEq, Repr

def step (s : Desk) : Action → Desk
  | .arrive r => arrive s r
  | .answer id status response => answer s id status response
  | .sweep => { s with rows := sweep s.now s.rows }
  | .restart => { s with running := [] }
  | .wait ms => { s with now := s.now + ms }

def Executed (s : Desk) (key : String) (arrivedAt : Ms) (response : Response) : Prop :=
  ∃ id r status, .answered id r arrivedAt status response ∈ s.log ∧ compositeKey r = some key ∧
  success status = true

def Alone (key : String) (s : Desk) : Action → Prop
  | .arrive r => s.running = [] ∧ compositeKey r = some key
  | _ => True

/-- No answer is stored while an expired one is left under its key. -/
def Cleared (s : Desk) : Action → Prop
  | .answer id status _ => ∀ x ∈ find s id, success status = true →
    ∀ row ∈ s.rows, compositeKey x.request ≠ some row.key
  | _ => True

instance (key : String) (s : Desk) : (a : Action) → Decidable (Alone key s a)
  | .arrive r => inferInstanceAs (Decidable (s.running = [] ∧ compositeKey r = some key))
  | .answer .. | .sweep | .restart | .wait _ => inferInstanceAs (Decidable True)

instance (s : Desk) : (a : Action) → Decidable (Cleared s a)
  | .answer id _ _ => inferInstanceAs
      (Decidable (∀ x ∈ find s id, _ → ∀ row ∈ s.rows, compositeKey x.request ≠ some row.key))
  | .arrive _ | .sweep | .restart | .wait _ => inferInstanceAs (Decidable True)

/-- A request is answered by a replay if and only if one that arrived within the
lifetime of an answer was executed with success, and with the answer of that one. -/
def Sound (key : String) (s : Desk) : Action → Prop
  | .arrive r => ∀ response, replay s r = some response ↔
    ∃ arrivedAt, Executed s key arrivedAt response ∧ s.now < arrivedAt + ttlMs
  | _ => True

/-- The rows under a key are the answers of its executions, and each live answer has its row. -/
structure Kept (key : String) (s : Desk) : Prop where
  rows : ∀ row ∈ s.rows, row.key = key → ∃ arrivedAt, Executed s key arrivedAt row.response ∧
    row.expiresAt = arrivedAt + ttlMs
  live : ∀ arrivedAt response, Executed s key arrivedAt response → s.now < arrivedAt + ttlMs →
    ∃ row ∈ s.rows, row.key = key ∧ row.response = response ∧ row.expiresAt = arrivedAt + ttlMs
  single : ∀ row ∈ s.rows, ∀ row' ∈ s.rows, row.key = key → row'.key = key → row = row'
  running : ∀ x ∈ s.running, compositeKey x.request = some key ∧ x.arrivedAt ≤ s.now ∧
    ∀ arrivedAt response, Executed s key arrivedAt response → arrivedAt + ttlMs ≤ x.arrivedAt
  alone : s.running.length ≤ 1

variable {key : String} {s : Desk}

theorem lookup_some {now : Ms} {rows : List IdempotencyRow} {response : Response}
    (h : lookup now key rows = some response) :
    ∃ row ∈ rows, row.key = key ∧ now < row.expiresAt ∧ row.response = response := by
  obtain ⟨row, hfind, hresponse⟩ := Option.map_eq_some_iff.mp h
  have hrow := List.find?_some hfind
  rw [decide_eq_true_eq] at hrow
  exact ⟨row, List.mem_of_find?_eq_some hfind, hrow.1, hrow.2, hresponse⟩

theorem lookup_live {now : Ms} {rows : List IdempotencyRow} {row : IdempotencyRow}
    (hrow : row ∈ rows) (hkey : row.key = key) (hlive : now < row.expiresAt)
    (hsingle : ∀ row' ∈ rows, row'.key = key → row' = row) :
    lookup now key rows = some row.response := by
  cases hfind : rows.find? (fun row => decide (row.key = key ∧ row.expiresAt > now)) with
  | none =>
    have hnone := List.find?_eq_none.mp hfind row hrow
    simp only [decide_eq_true_eq] at hnone
    exact absurd ⟨hkey, hlive⟩ hnone
  | some row' =>
    have hrow' := List.find?_some hfind
    rw [decide_eq_true_eq] at hrow'
    rw [lookup, hfind, hsingle row' (List.mem_of_find?_eq_some hfind) hrow'.1]
    rfl

theorem sound_of_kept (h : Kept key s) {a : Action} (ha : Alone key s a) : Sound key s a := by
  cases a with
  | arrive r =>
    intro response
    have hreplay : replay s r = lookup s.now key s.rows := by rw [replay, ha.2, Option.bind_some]
    rw [hreplay]
    constructor
    · intro hlookup
      obtain ⟨row, hrow, hkey, hlive, rfl⟩ := lookup_some hlookup
      obtain ⟨arrivedAt, hexecuted, hexpires⟩ := h.rows row hrow hkey
      exact ⟨arrivedAt, hexecuted, hexpires ▸ hlive⟩
    · rintro ⟨arrivedAt, hexecuted, hlive⟩
      obtain ⟨row, hrow, hkey, rfl, hexpires⟩ := h.live arrivedAt response hexecuted hlive
      exact lookup_live hrow hkey (hexpires ▸ hlive)
        (fun row' hrow' hkey' => h.single row' hrow' row hrow hkey' hkey)
  | answer id status response => trivial
  | sweep => trivial
  | restart => trivial
  | wait ms => trivial

theorem executed_cons {e : Entry} {arrivedAt : Ms} {response : Response} :
    Executed { s with log := e :: s.log } key arrivedAt response ↔
      Executed s key arrivedAt response ∨ ∃ id r status, e = .answered id r arrivedAt status
        response ∧ compositeKey r = some key ∧ success status = true := by
  simp only [Executed, List.mem_cons]
  constructor
  · rintro ⟨id, r, status, heq | hmem, hkey, hok⟩
    · exact .inr ⟨id, r, status, heq.symm, hkey, hok⟩
    · exact .inl ⟨id, r, status, hmem, hkey, hok⟩
  · rintro (⟨id, r, status, hmem, hkey, hok⟩ | ⟨id, r, status, rfl, hkey, hok⟩)
    · exact ⟨id, r, status, .inr hmem, hkey, hok⟩
    · exact ⟨id, r, status, .inl rfl, hkey, hok⟩

theorem kept_log {s' : Desk} (h : Kept key s) (hrows : s'.rows = s.rows) (hnow : s'.now = s.now)
    (hlog : ∀ arrivedAt response, Executed s' key arrivedAt response ↔
      Executed s key arrivedAt response)
    (hrunning : ∀ x ∈ s'.running, compositeKey x.request = some key ∧ x.arrivedAt ≤ s.now ∧
      ∀ arrivedAt response, Executed s key arrivedAt response → arrivedAt + ttlMs ≤ x.arrivedAt)
    (halone : s'.running.length ≤ 1) : Kept key s' where
  rows row hrow hkey := by
    simp only [hlog]
    exact h.rows row (hrows ▸ hrow) hkey
  live arrivedAt response hexecuted hlive := by
    rw [hrows]
    exact h.live arrivedAt response ((hlog arrivedAt response).mp hexecuted) (hnow ▸ hlive)
  single row hrow row' hrow' := h.single row (hrows ▸ hrow) row' (hrows ▸ hrow')
  running x hx := by
    obtain ⟨hkey, harrived, hover⟩ := hrunning x hx
    refine ⟨hkey, hnow ▸ harrived, fun arrivedAt response hexecuted => ?_⟩
    exact hover arrivedAt response ((hlog arrivedAt response).mp hexecuted)
  alone := halone

theorem kept_arrive (h : Kept key s) {r : Request} (hidle : s.running = [])
    (hkey : compositeKey r = some key) :
    Kept key (arrive s r) := by
  have hreplay : replay s r = lookup s.now key s.rows := by rw [replay, hkey, Option.bind_some]
  unfold arrive
  split
  · refine kept_log h rfl rfl (fun arrivedAt response => ?_) h.running h.alone
    exact executed_cons.trans (by simp)
  · next hnone =>
    refine kept_log h rfl rfl (fun arrivedAt response => ?_) (fun x hx => ?_) (by simp [hidle])
    · exact executed_cons.trans (by simp)
    · rw [hidle, List.nil_append, List.mem_singleton] at hx
      rw [hx]
      refine ⟨hkey, Int.le_refl _, fun arrivedAt response hexecuted =>
        Int.not_lt.mp (fun hlive => ?_)⟩
      obtain ⟨row, hrow, hrowKey, -, hexpires⟩ := h.live arrivedAt response hexecuted hlive
      rw [hreplay, lookup_live hrow hrowKey (hexpires ▸ hlive)
        (fun row' hrow' hkey' => h.single row' hrow' row hrow hkey' hrowKey)] at hnone
      simp at hnone

theorem find_mem {id : Nat} {x : Running} (h : find s id = some x) : x ∈ s.running ∧ x.id = id :=
  ⟨List.mem_of_find?_eq_some h, by simpa using List.find?_some h⟩

/-- The only running request is gone when it has been answered. -/
theorem filter_alone (halone : s.running.length ≤ 1) {x : Running} (hx : x ∈ s.running) :
    s.running.filter (fun y => decide (y.id ≠ x.id)) = [] := by
  match hrunning : s.running with
  | [] => simp
  | [y] =>
    rw [hrunning, List.mem_singleton] at hx
    simp [hx]
  | y :: z :: rest => simp [hrunning] at halone

theorem kept_success (h : Kept key s) {x : Running} (hx : x ∈ s.running) {status : Nat}
    (hok : success status = true) (response : Response) (hcleared : ∀ row ∈ s.rows, row.key ≠ key) :
    Kept key
      { s with
        rows := store key ((routeName x.request.body.route).getD "") x.arrivedAt response s.rows
        running := []
        log := .answered x.id x.request x.arrivedAt status response :: s.log } := by
  obtain ⟨hkey, harrived, hover⟩ := h.running x hx
  have hstore : store key ((routeName x.request.body.route).getD "") x.arrivedAt response s.rows =
      s.rows ++ [⟨key, (routeName x.request.body.route).getD "", response, x.arrivedAt,
        x.arrivedAt + ttlMs⟩] := by
    rw [store, if_neg]
    simpa using hcleared
  have hnew (row : IdempotencyRow)
      (hrow : row ∈ store key ((routeName x.request.body.route).getD "") x.arrivedAt
      response s.rows) (hrowKey : row.key = key) :
      row = ⟨key, (routeName x.request.body.route).getD "", response, x.arrivedAt,
        x.arrivedAt + ttlMs⟩ := by
    rw [hstore] at hrow
    obtain hold | hlast := List.mem_append.mp hrow
    · exact absurd hrowKey (hcleared row hold)
    · exact List.mem_singleton.mp hlast
  have hadded (arrivedAt : Ms) (response' : Response) :
      Executed { s with log := .answered x.id x.request x.arrivedAt status response :: s.log } key
        arrivedAt response' ↔ Executed s key arrivedAt response' ∨ x.arrivedAt = arrivedAt ∧
        response = response' := by
    refine executed_cons.trans (or_congr_right ⟨?_, ?_⟩)
    · rintro ⟨id, r, status', ⟨⟩, -, -⟩
      exact ⟨rfl, rfl⟩
    · rintro ⟨rfl, rfl⟩
      exact ⟨x.id, x.request, status, rfl, hkey, hok⟩
  constructor
  · intro row hrow hrowKey
    rw [hnew row hrow hrowKey]
    exact ⟨x.arrivedAt, (hadded _ _).mpr (.inr ⟨rfl, rfl⟩), rfl⟩
  · intro arrivedAt response' hexecuted hlive
    obtain hold | ⟨rfl, rfl⟩ := (hadded arrivedAt response').mp hexecuted
    · have hlapsed := Int.le_trans (hover arrivedAt response' hold) harrived
      exact absurd hlive (Int.not_lt.mpr hlapsed)
    · exact ⟨_, hstore ▸ List.mem_append_right _ List.mem_cons_self, rfl, rfl, rfl⟩
  · intro row hrow row' hrow' hrowKey hrowKey'
    rw [hnew row hrow hrowKey, hnew row' hrow' hrowKey']
  · simp
  · simp

theorem kept_answer (h : Kept key s) {id status : Nat} {response : Response}
    (hcleared : Cleared s (.answer id status response)) :
    Kept key (answer s id status response) := by
  unfold answer
  split
  · next x hfind =>
    obtain ⟨hx, rfl⟩ := find_mem hfind
    have hkey := (h.running x hx).1
    rw [filter_alone h.alone hx]
    simp only [filed, hkey]
    split
    · next hok =>
      refine kept_success h hx hok response (fun row hrow heq => ?_)
      exact hcleared x hfind hok row hrow (by rw [hkey, heq])
    · next hfailed =>
      refine kept_log h rfl rfl (fun arrivedAt response' => executed_cons.trans ?_)
        (by simp) (by simp)
      simp only [or_iff_left_iff_imp]
      rintro ⟨_, _, _, ⟨⟩, -, hok⟩
      exact absurd hok hfailed
  · exact h

theorem kept_step (h : Kept key s) {a : Action} (halone : Alone key s a) (hcleared : Cleared s a) :
    Kept key (step s a) := by
  cases a with
  | arrive r => exact kept_arrive h halone.1 halone.2
  | answer id status response => exact kept_answer h hcleared
  | sweep =>
    refine ⟨fun row hrow => h.rows row (List.mem_filter.mp hrow).1,
      fun arrivedAt response hexecuted hlive => ?_, fun row hrow row' hrow' =>
        h.single row (List.mem_filter.mp hrow).1 row' (List.mem_filter.mp hrow').1,
      h.running, h.alone⟩
    obtain ⟨row, hrow, hkey, hresponse, hexpires⟩ := h.live arrivedAt response hexecuted hlive
    refine ⟨row, List.mem_filter.mpr ⟨hrow, decide_eq_true ?_⟩, hkey, hresponse, hexpires⟩
    exact Int.not_lt.mpr (Int.le_of_lt (hexpires ▸ hlive))
  | restart => exact kept_log h rfl rfl (fun _ _ => Iff.rfl) (by simp [step]) (by simp [step])
  | wait ms =>
    have hlater : s.now ≤ s.now + ms := Int.le_add_of_nonneg_right (Int.natCast_nonneg ms)
    refine ⟨h.rows, fun arrivedAt response hexecuted hlive => ?_, h.single, fun x hx => ?_, h.alone⟩
    · exact h.live arrivedAt response hexecuted (Int.lt_of_le_of_lt hlater hlive)
    · obtain ⟨hkey, harrived, hover⟩ := h.running x hx
      exact ⟨hkey, Int.le_trans harrived hlater, hover⟩

/-- One key, one request at a time: a request is replayed exactly while the answer of
an execution lives, as long as no answer is stored over an expired one. -/
theorem replayed_iff_executed (key : String) (now : Ms) {as : List Action}
    (hdomain : Along (Alone key) step { now } as) (h : Along Cleared step { now } as) :
    Along (Sound key) step { now } as :=
  along_invariant (Kept key) (fun _ _ hkept hok =>
    ⟨sound_of_kept hkept hok.1, kept_step hkept hok.1 hok.2⟩)
    ⟨by simp, by simp [Executed], by simp, by simp, by simp⟩ (along_and hdomain h)

def order : Request :=
  { user := "owner", idempotencyKey := some "order", body := .send ["15550001"] "Hello" 0 }

def delivered : Response := .results [⟨"15550001", none, .sent, none⟩]

theorem replayed_iff_executed_swept : Along (Sound "send:order") step { now := 0 }
    [.arrive order, .answer 0 200 delivered, .wait 1000, .arrive order, .wait 300000, .sweep,
      .arrive order, .answer 2 200 delivered, .arrive order] :=
  replayed_iff_executed "send:order" 0 (by decide +kernel) (by decide +kernel)

/-- The second use of a key, after the first answer has expired, is not protected:
the expired row is still there, and the third request is executed as well. -/
theorem second_use_unprotected :
    let as : List Action := [.arrive order, .answer 0 200 delivered, .wait 300001, .arrive order,
      .answer 1 200 delivered, .arrive order]
    Along (Alone "send:order") step { now := 0 } as ∧
      ¬ Along (Sound "send:order") step { now := 0 } as := by
  refine ⟨by decide +kernel, fun h => ?_⟩
  have hlast := h.2.2.2.2.2.1 delivered
  have hexecuted := hlast.mpr ⟨300001, ⟨1, order, 200, by decide +kernel, by decide +kernel, rfl⟩,
    by decide +kernel⟩
  exact absurd hexecuted (by decide +kernel)

end WhatsappTester.Idempotency
