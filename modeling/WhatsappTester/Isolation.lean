import WhatsappTester.Idempotency

namespace WhatsappTester.Isolation

open Schema State Routes Atomic.Runs Idempotency

/-- A replayed response was produced by a request of the same user with the same
body, which is one on the same route. -/
def Personal (s : Desk) : Action → Prop
  | .arrive r => ∀ response, replay s r = some response →
    ∃ id r' arrivedAt status, .answered id r' arrivedAt status response ∈ s.log ∧ r'.user = r.user ∧
    r'.body = r.body
  | _ => True

/-- A replayed response was produced by a request on the same route with the same
key, which arrived within the lifetime of its answer. -/
def ByKey (s : Desk) : Action → Prop
  | .arrive r => ∀ response, replay s r = some response →
    ∃ id r' arrivedAt status, .answered id r' arrivedAt status response ∈ s.log ∧
      success status = true ∧ r'.body.route = r.body.route ∧ r'.idempotencyKey = r.idempotencyKey ∧
      s.now < arrivedAt + ttlMs
  | _ => True

theorem routeName_apart {route route' : SendRoute} {name name' key key' : String}
    (h : routeName route = some name) (h' : routeName route' = some name')
    (heq : name ++ ":" ++ key = name' ++ ":" ++ key') :
    route = route' ∧ key = key' := by
  have hlist : name.toList ++ ':' :: key.toList = name'.toList ++ ':' :: key'.toList := by
    simpa using congrArg String.toList heq
  cases route <;> cases route' <;> cases h <;> cases h' <;> simp_all

theorem compositeKey_some {r : Request} {key : String} (h : compositeKey r = some key) :
    ∃ name own, routeName r.body.route = some name ∧ r.idempotencyKey = some own ∧
    key = name ++ ":" ++ own := by
  unfold compositeKey at h
  split at h
  · next name own hname hown =>
    exact ⟨name, own, hname, (Option.filter_eq_some_iff.mp hown).1, (Option.some.inj h).symm⟩
  · simp at h

/-- The composite key tells the routes and the keys of two requests apart. -/
theorem compositeKey_inj {r r' : Request} {key : String} (h : compositeKey r = some key)
    (h' : compositeKey r' = some key) :
    r.body.route = r'.body.route ∧ r.idempotencyKey = r'.idempotencyKey := by
  obtain ⟨name, own, hname, hown, rfl⟩ := compositeKey_some h
  obtain ⟨name', own', hname', hown', heq⟩ := compositeKey_some h'
  obtain ⟨hroute, hkey⟩ := routeName_apart hname hname' heq
  exact ⟨hroute, by rw [hown, hown', hkey]⟩

def Sourced (s : Desk) : Prop :=
  ∀ row ∈ s.rows, ∃ arrivedAt, Executed s row.key arrivedAt row.response ∧
  row.expiresAt = arrivedAt + ttlMs

theorem executed_grow {s s' : Desk} (h : s.log ⊆ s'.log) {key : String} {arrivedAt : Ms}
    {response : Response} :
    Executed s key arrivedAt response → Executed s' key arrivedAt response := by
  rintro ⟨id, r, status, hmem, hkey, hok⟩
  exact ⟨id, r, status, h hmem, hkey, hok⟩

theorem mem_filed {x : Running} {status : Nat} {response : Response} {rows : List IdempotencyRow}
    {row : IdempotencyRow} (h : row ∈ filed x status response rows) :
    row ∈ rows ∨ compositeKey x.request = some row.key ∧ success status = true ∧
      row.response = response ∧ row.expiresAt = x.arrivedAt + ttlMs := by
  unfold filed at h
  split at h
  · next key hkey =>
    split at h
    · next hok =>
      unfold store at h
      split at h
      · exact .inl h
      · obtain hold | hnew := List.mem_append.mp h
        · exact .inl hold
        · rw [List.mem_singleton.mp hnew]
          exact .inr ⟨hkey, hok, rfl, rfl⟩
    · exact .inl h
  · exact .inl h

theorem sourced_step {s : Desk} (h : Sourced s) (a : Action) : Sourced (step s a) := by
  have hgrow {s' : Desk} (hlog : s.log ⊆ s'.log) (hrows : s'.rows ⊆ s.rows) : Sourced s' :=
    fun row hrow =>
    (h row (hrows hrow)).imp (fun _ hx => ⟨executed_grow hlog hx.1, hx.2⟩)
  cases a with
  | arrive r =>
    simp only [step, arrive]
    split
    · exact hgrow (List.subset_cons_self _ _) (List.Subset.refl _)
    · exact hgrow (List.subset_cons_self _ _) (List.Subset.refl _)
  | answer id status response =>
    simp only [step, answer]
    split
    · next x hfind =>
      intro row hrow
      obtain hold | ⟨hkey, hok, rfl, hexpires⟩ := mem_filed hrow
      · exact (h row hold).imp (fun _ hx => ⟨executed_grow (List.subset_cons_self _ _) hx.1, hx.2⟩)
      · exact ⟨x.arrivedAt, ⟨id, x.request, status, List.mem_cons_self, hkey, hok⟩, hexpires⟩
    · exact h
  | sweep => exact hgrow (List.Subset.refl _) (List.filter_subset_self _)
  | restart => exact hgrow (List.Subset.refl _) (List.Subset.refl _)
  | wait ms => exact hgrow (List.Subset.refl _) (List.Subset.refl _)

theorem byKey_of_sourced {s : Desk} (h : Sourced s) (a : Action) : ByKey s a := by
  cases a with
  | arrive r =>
    intro response hreplay
    obtain ⟨key, hkey, hlookup⟩ := Option.bind_eq_some_iff.mp hreplay
    obtain ⟨row, hrow, rfl, hlive, rfl⟩ := lookup_some hlookup
    obtain ⟨arrivedAt, ⟨id, r', status, hmem, hkey', hok⟩, hexpires⟩ := h row hrow
    obtain ⟨hroute, hown⟩ := compositeKey_inj hkey' hkey
    exact ⟨id, r', arrivedAt, status, hmem, hok, hroute, hown, hexpires ▸ hlive⟩
  | answer id status response => trivial
  | sweep => trivial
  | restart => trivial
  | wait ms => trivial

theorem byKey_run (now : Ms) (as : List Action) : Along ByKey step { now } as :=
  along_invariant_all Sourced (fun _ a hsourced =>
    ⟨byKey_of_sourced hsourced a, sourced_step hsourced a⟩)
    (by simp [Sourced]) as

def Entry.user : Entry → String
  | .started _ r | .replayed _ r _ | .answered _ r _ _ _ => r.user

def view (user : String) (s : Desk) : List Entry :=
  s.log.filter (fun e => decide (Entry.user e = user))

def Alike (user : String) : Action → Action → Prop
  | .arrive r, .arrive r' => r'.user = r.user ∧ r'.body = r.body ∧ (r.user = user → r' = r)
  | a, b => a = b

/-- Of all users, only the one files requests under the keys of `K`, and under no others. -/
def Apart (user : String) (K : String → Bool) : Action → Prop
  | .arrive r => ∀ key ∈ compositeKey r, K key = decide (r.user = user)
  | _ => True

instance (user : String) (K : String → Bool) : (a : Action) → Decidable (Apart user K a)
  | .arrive r =>
    inferInstanceAs (Decidable (∀ key ∈ compositeKey r, K key = decide (r.user = user)))
  | .answer .. | .sweep | .restart | .wait _ => inferInstanceAs (Decidable True)

structure Same (user : String) (K : String → Bool) (s t : Desk) : Prop where
  now : s.now = t.now
  nextId : s.nextId = t.nextId
  rows : s.rows.filter (fun row => K row.key) = t.rows.filter (fun row => K row.key)
  running : s.running.filter (fun x => decide (x.request.user = user)) =
    t.running.filter (fun x => decide (x.request.user = user))
  view : view user s = view user t

/-- Requests run under numbers of their own, and file under the keys of their user. -/
structure Tidy (user : String) (K : String → Bool) (s : Desk) : Prop where
  fresh : ∀ x ∈ s.running, x.id < s.nextId
  distinct : ∀ x ∈ s.running, ∀ y ∈ s.running, x.id = y.id → x = y
  filed : ∀ x ∈ s.running, ∀ key ∈ compositeKey x.request, K key = decide (x.request.user = user)

variable {user : String} {K : String → Bool} {s t : Desk}

theorem same_symm (h : Same user K s t) : Same user K t s :=
  ⟨h.now.symm, h.nextId.symm, h.rows.symm, h.running.symm, h.view.symm⟩

theorem same_trans {u : Desk} (h : Same user K s t) (h' : Same user K t u) : Same user K s u :=
  ⟨h.now.trans h'.now, h.nextId.trans h'.nextId, h.rows.trans h'.rows, h.running.trans h'.running,
    h.view.trans h'.view⟩

theorem view_own {e : Entry} {s' : Desk} (hlog : s'.log = e :: s.log) (he : Entry.user e = user) :
    view user s' = e :: view user s := by
  simp [view, hlog, he]

theorem view_other {e : Entry} {s' : Desk} (hlog : s'.log = e :: s.log) (he : Entry.user e ≠ user) :
    view user s' = view user s := by
  simp [view, hlog, he]

theorem lookup_filter {now : Ms} {key : String} (hkey : K key = true) (rows : List IdempotencyRow) :
    lookup now key (rows.filter (fun row => K row.key)) = lookup now key rows := by
  unfold lookup
  rw [List.find?_filter]
  congr 2
  funext row
  by_cases hrow : row.key = key
  · simp [hrow, hkey]
  · simp [hrow]

theorem replay_same (h : Same user K s t) {r : Request} (hr : r.user = user)
    (hapart : Apart user K (.arrive r)) :
    replay s r = replay t r := by
  unfold replay
  cases hkey : compositeKey r with
  | none => rfl
  | some key =>
    have hmine : K key = true := (hapart key hkey).trans (decide_eq_true hr)
    rw [Option.bind_some, Option.bind_some, ← lookup_filter hmine s.rows,
      ← lookup_filter hmine t.rows, h.rows, h.now]

theorem filter_store {key route : String} {arrivedAt : Ms} {response : Response}
    (hkey : K key = true) (rows : List IdempotencyRow) :
    (store key route arrivedAt response rows).filter (fun row => K row.key) =
      store key route arrivedAt response (rows.filter (fun row => K row.key)) := by
  have hany : (rows.filter (fun row => K row.key)).any (fun row => decide (row.key = key)) =
      rows.any (fun row => decide (row.key = key)) := by
    rw [List.any_filter]
    congr 1
    funext row
    by_cases hrow : row.key = key
    · simp [hrow, hkey]
    · simp [hrow]
  unfold store
  rw [hany]
  split
  · rfl
  · simp [hkey]

theorem filter_store_other {key route : String} {arrivedAt : Ms} {response : Response}
    (hkey : K key = false) (rows : List IdempotencyRow) :
    (store key route arrivedAt response rows).filter (fun row => K row.key) =
      rows.filter (fun row => K row.key) := by
  unfold store
  split
  · rfl
  · simp [hkey]

theorem same_arrive_other {r : Request} (hr : r.user ≠ user) :
    Same user K { s with nextId := s.nextId + 1 } (arrive s r) := by
  unfold arrive
  split
  · exact ⟨rfl, rfl, rfl, rfl, Eq.symm (view_other rfl hr)⟩
  · exact ⟨rfl, rfl, rfl, by simp [hr], Eq.symm (view_other rfl hr)⟩

theorem same_arrive (h : Same user K s t) {r : Request} (hr : r.user = user)
    (hapart : Apart user K (.arrive r)) :
    Same user K (arrive s r) (arrive t r) := by
  have hnext : s.nextId + 1 = t.nextId + 1 := by rw [h.nextId]
  unfold arrive
  rw [replay_same h hr hapart]
  split
  · refine ⟨h.now, hnext, h.rows, h.running, Eq.trans (view_own rfl hr) ?_⟩
    rw [h.view, h.nextId]
    exact Eq.symm (view_own rfl hr)
  · refine ⟨h.now, hnext, h.rows, ?_, Eq.trans (view_own rfl hr) ?_⟩
    · simp [List.filter_append, h.running, h.nextId, h.now]
    · rw [h.view, h.nextId]
      exact Eq.symm (view_own rfl hr)

theorem same_answer_other (htidy : Tidy user K s) {id : Nat}
    (hid : ∀ x ∈ s.running, x.id = id → x.request.user ≠ user) (status : Nat)
    (response : Response) : Same user K s (answer s id status response) := by
  unfold answer
  split
  · next x hfind =>
    obtain ⟨hx, hxid⟩ := find_mem hfind
    have hother := hid x hx hxid
    refine ⟨rfl, rfl, ?_, ?_, Eq.symm (view_other rfl hother)⟩
    · unfold filed
      split
      · next key hkey =>
        have hforeign : K key = false := (htidy.filed x hx key hkey).trans (decide_eq_false hother)
        split
        · exact (filter_store_other hforeign s.rows).symm
        · rfl
      · rfl
    · rw [List.filter_filter]
      refine List.filter_congr (fun y hy => ?_)
      by_cases hyid : y.id = id
      · simp [hyid, hid y hy hyid]
      · simp [hyid]
  · exact ⟨rfl, rfl, rfl, rfl, rfl⟩

theorem find_own (htidy : Tidy user K s) {x : Running} (hx : x ∈ s.running) :
    find s x.id = some x := by
  cases hfind : find s x.id with
  | none => simpa using List.find?_eq_none.mp hfind x hx
  | some y =>
    obtain ⟨hy, hid⟩ := find_mem hfind
    rw [htidy.distinct y hy x hx hid]

theorem running_same (h : Same user K s t) {x : Running} (hx : x ∈ s.running)
    (hmine : x.request.user = user) :
    x ∈ t.running := by
  have hfilter : x ∈ s.running.filter (fun x => decide (x.request.user = user)) :=
    List.mem_filter.mpr ⟨hx, decide_eq_true hmine⟩
  rw [h.running] at hfilter
  exact (List.mem_filter.mp hfilter).1

theorem same_answer_own (h : Same user K s t) (hs : Tidy user K s)
    (ht : Tidy user K t) {x : Running} (hx : x ∈ s.running) (hmine : x.request.user = user)
    (status : Nat) (response : Response) :
    Same user K (answer s x.id status response) (answer t x.id status response) := by
  have hview : view user (answer s x.id status response) =
      view user (answer t x.id status response) := by
    simp only [answer, find_own hs hx, find_own ht (running_same h hx hmine)]
    refine Eq.trans (view_own rfl hmine) ?_
    rw [h.view]
    exact Eq.symm (view_own rfl hmine)
  have hrest : ∀ running : List Running,
      (running.filter (fun y => decide (y.id ≠ x.id))).filter
        (fun y => decide (y.request.user = user)) =
        (running.filter (fun y => decide (y.request.user = user))).filter
          (fun y => decide (y.id ≠ x.id)) := by
    intro running
    rw [List.filter_filter, List.filter_filter]
    exact List.filter_congr (fun y _ => Bool.and_comm _ _)
  simp only [answer, find_own hs hx, find_own ht (running_same h hx hmine)] at hview ⊢
  refine ⟨h.now, h.nextId, ?_, by rw [hrest, hrest, h.running], hview⟩
  unfold filed
  split
  · next key hkey =>
    have hown : K key = true := (hs.filed x hx key hkey).trans (decide_eq_true hmine)
    split
    · rw [filter_store hown, filter_store hown, h.rows]
    · exact h.rows
  · exact h.rows

theorem same_answer (h : Same user K s t) (hs : Tidy user K s) (ht : Tidy user K t)
    (id status : Nat) (response : Response) :
    Same user K (answer s id status response) (answer t id status response) := by
  by_cases hown : ∃ x ∈ s.running, x.id = id ∧ x.request.user = user
  · obtain ⟨x, hx, rfl, hmine⟩ := hown
    exact same_answer_own h hs ht hx hmine status response
  · have hfirst : ∀ x ∈ s.running, x.id = id → x.request.user ≠ user :=
      fun x hx hid hmine => hown ⟨x, hx, hid, hmine⟩
    have hsecond : ∀ x ∈ t.running, x.id = id → x.request.user ≠ user :=
      fun x hx hid hmine => hown ⟨x, running_same (same_symm h) hx hmine, hid, hmine⟩
    exact same_trans (same_symm (same_answer_other hs hfirst status response))
      (same_trans h (same_answer_other ht hsecond status response))

theorem tidy_arrive (h : Tidy user K s) {r : Request} (hapart : Apart user K (.arrive r)) :
    Tidy user K (arrive s r) := by
  unfold arrive
  split
  · exact ⟨fun x hx => Nat.lt_succ_of_lt (h.fresh x hx), h.distinct, h.filed⟩
  · refine ⟨fun x hx => ?_, fun x hx y hy hid => ?_, fun x hx => ?_⟩
    · obtain hold | hnew := List.mem_append.mp hx
      · exact Nat.lt_succ_of_lt (h.fresh x hold)
      · rw [List.mem_singleton.mp hnew]
        exact Nat.lt_succ_self _
    · obtain hx | hx := List.mem_append.mp hx
      · obtain hy | hy := List.mem_append.mp hy
        · exact h.distinct x hx y hy hid
        · rw [List.mem_singleton.mp hy] at hid
          exact absurd hid (Nat.ne_of_lt (h.fresh x hx))
      · obtain hy | hy := List.mem_append.mp hy
        · rw [List.mem_singleton.mp hx] at hid
          exact absurd hid.symm (Nat.ne_of_lt (h.fresh y hy))
        · rw [List.mem_singleton.mp hx, List.mem_singleton.mp hy]
    · obtain hold | hnew := List.mem_append.mp hx
      · exact h.filed x hold
      · rw [List.mem_singleton.mp hnew]
        exact hapart

theorem tidy_fewer {running : List Running} (h : Tidy user K s)
    (hsub : running ⊆ s.running) {s' : Desk} (hrunning : s'.running = running)
    (hnext : s'.nextId = s.nextId) : Tidy user K s' := by
  refine ⟨fun x hx => ?_, fun x hx y hy => ?_, fun x hx => ?_⟩
  · rw [hrunning] at hx
    rw [hnext]
    exact h.fresh x (hsub hx)
  · rw [hrunning] at hx hy
    exact h.distinct x (hsub hx) y (hsub hy)
  · rw [hrunning] at hx
    exact h.filed x (hsub hx)

theorem tidy_step (h : Tidy user K s) {a : Action} (ha : Apart user K a) :
    Tidy user K (step s a) := by
  cases a with
  | arrive r => exact tidy_arrive h ha
  | answer id status response =>
    simp only [step, answer]
    split
    · exact tidy_fewer h (List.filter_subset_self _) rfl rfl
    · exact h
  | sweep => exact tidy_fewer h (List.Subset.refl _) rfl rfl
  | restart => exact tidy_fewer h (List.nil_subset _) rfl rfl
  | wait ms => exact tidy_fewer h (List.Subset.refl _) rfl rfl

theorem same_step (h : Same user K s t) (hs : Tidy user K s) (ht : Tidy user K t) {a b : Action}
    (hab : Alike user a b) (ha : Apart user K a) (hb : Apart user K b) :
    Same user K (step s a) (step t b) := by
  cases a with
  | arrive r =>
    cases b with
    | arrive r' =>
      obtain ⟨huser, -, hown⟩ := hab
      by_cases hr : r.user = user
      · rw [hown hr]
        exact same_arrive h hr ha
      · have hr' : r'.user ≠ user := huser ▸ hr
        have hbetween : Same user K { s with nextId := s.nextId + 1 }
            { t with nextId := t.nextId + 1 } :=
          ⟨h.now, by rw [h.nextId], h.rows, h.running, h.view⟩
        exact same_trans (same_symm (same_arrive_other hr))
          (same_trans hbetween (same_arrive_other hr'))
    | _ => cases hab
  | answer id status response =>
    cases hab
    exact same_answer h hs ht id status response
  | sweep =>
    cases hab
    have hcomm : ∀ now rows, (sweep now rows).filter (fun row => K row.key) =
        sweep now (rows.filter (fun row => K row.key)) := by
      intro now rows
      unfold sweep
      rw [List.filter_filter, List.filter_filter]
      exact List.filter_congr (fun row _ => Bool.and_comm _ _)
    refine ⟨h.now, h.nextId, ?_, h.running, h.view⟩
    simp only [step]
    rw [hcomm, hcomm, h.rows, h.now]
  | restart =>
    cases hab
    exact ⟨h.now, h.nextId, h.rows, rfl, h.view⟩
  | wait ms =>
    cases hab
    exact ⟨by simp only [step]; rw [h.now], h.nextId, h.rows, h.running, h.view⟩

theorem same_run {as bs : List Action} (hab : List.Forall₂ (Alike user) as bs)
    (ha : ∀ a ∈ as, Apart user K a) (hb : ∀ b ∈ bs, Apart user K b) (h : Same user K s t)
    (hs : Tidy user K s) (ht : Tidy user K t) :
    Same user K (play step s as) (play step t bs) := by
  induction hab generalizing s t with
  | nil => exact h
  | cons hfirst hrest ih =>
    have hfirstA := ha _ List.mem_cons_self
    have hfirstB := hb _ List.mem_cons_self
    exact ih (fun a hmem => ha a (List.mem_cons_of_mem _ hmem))
      (fun b hmem => hb b (List.mem_cons_of_mem _ hmem))
      (same_step h hs ht hfirst hfirstA hfirstB) (tidy_step hs hfirstA) (tidy_step ht hfirstB)

/-- A request is only given an answer to one on the same route with the same key,
and while nobody else uses a user's keys on their routes, that user is not
affected by the keys that others send. -/
theorem replayed_by_key (now : Ms) (as : List Action) :
    Along ByKey step { now } as ∧
      ∀ user K bs, List.Forall₂ (Alike user) as bs → (∀ a ∈ as, Apart user K a) →
        (∀ b ∈ bs, Apart user K b) →
        view user (play step { now } as) = view user (play step { now } bs) :=
  ⟨byKey_run now as, fun _ _ _ hab ha hb =>
    (same_run hab ha hb ⟨rfl, rfl, rfl, rfl, rfl⟩ ⟨by simp, by simp, by simp⟩
      ⟨by simp, by simp, by simp⟩).view⟩

def annSends (key : String) : Request :=
  { user := "ann", idempotencyKey := some key, body := .send ["15550001"] "Hello" 0 }

def bobSends (key : String) : Request :=
  { user := "bob", idempotencyKey := some key, body := .send ["15550002"] "Invoice 17" 0 }

def annThenBob (annKey bobKey : String) : List Action :=
  [.arrive (annSends annKey), .answer 0 200 delivered, .arrive (bobSends bobKey)]

theorem annThenBob_alike (annKey annKey' bobKey : String) :
    List.Forall₂ (Alike "bob") (annThenBob annKey bobKey) (annThenBob annKey' bobKey) :=
  .cons ⟨rfl, rfl, fun h => absurd h (show "ann" ≠ "bob" by decide)⟩
    (.cons rfl (.cons ⟨rfl, rfl, fun _ => rfl⟩ .nil))

theorem replayed_by_key_apart : Along ByKey step { now := 0 } (annThenBob "order" "invoice") ∧
    view "bob" (play step { now := 0 } (annThenBob "order" "invoice")) =
      view "bob" (play step { now := 0 } (annThenBob "parcel" "invoice")) :=
  ⟨(replayed_by_key 0 (annThenBob "order" "invoice")).1,
    (replayed_by_key 0 (annThenBob "order" "invoice")).2 "bob"
      (fun key => decide (key = "send:invoice"))
      (annThenBob "parcel" "invoice") (annThenBob_alike "order" "parcel" "invoice")
      (by decide +kernel)
      (by decide +kernel)⟩

/-- Bob's request is not sent when Ann has used his key: he is shown the answer to hers. -/
theorem replayed_to_another : ¬ Along Personal step { now := 0 } (annThenBob "order" "order") ∧
    view "bob" (play step { now := 0 } (annThenBob "order" "order")) ≠
      view "bob" (play step { now := 0 } (annThenBob "parcel" "order")) := by
  refine ⟨fun h => ?_, by decide +kernel⟩
  obtain ⟨id, r, arrivedAt, status, hmem, huser, -⟩ := h.2.2.1 delivered (by decide +kernel)
  have hlog : (play step { now := 0 } [.arrive (annSends "order"), .answer 0 200 delivered]).log =
      [.answered 0 (annSends "order") 0 200 delivered, .started 0 (annSends "order")] := by
    decide +kernel
  have hmem' : Entry.answered id r arrivedAt status delivered ∈
      [Entry.answered 0 (annSends "order") 0 200 delivered, .started 0 (annSends "order")] :=
    hlog ▸ hmem
  simp only [List.mem_cons, Entry.answered.injEq, reduceCtorEq, List.not_mem_nil, or_false] at hmem'
  rw [hmem'.2.1] at huser
  exact absurd huser (by decide)

end WhatsappTester.Isolation
