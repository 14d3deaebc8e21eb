import WhatsappTester.Atomic.Lease
import WhatsappTester.Statements

namespace WhatsappTester.Jobs.Ledger

open Schema State Atomic Atomic.Lease Statements Claiming JobService

def phaseOf : ItemStatus → Phase ItemStatus
  | .queued => .waiting
  | .claimed | .running => .busy
  | status => .closed status

def entryOf (r : JobItem) : Entry Id Ms ItemStatus :=
  ⟨r.jobId, phaseOf r.status, r.leaseExpiresAt, r.attemptCount⟩

def markOf : Event → Option (Mark Nat Id Ms)
  | .claimed w i l => some (.claimed w i l)
  | .attempted w i => some (.attempted w i)
  | .sent w i _ => some (.sent w i)
  | .recorded w i => some (.recorded w i)
  | .died w => some (.died w)
  | _ => none

def ledger (s : Shared) : Ledger Nat Id Id Ms ItemStatus :=
  ⟨fun i => (s.db.item i).map entryOf, s.trace.filterMap markOf⟩

def Distinct (s : Shared) : Prop := (s.db.items.map (·.id)).Nodup

theorem distinct_of_origins {v v' : World} (h : origins v' = origins v) (hn : Distinct v.shared) :
    Distinct v'.shared := by
  have hids := congrArg (fun O => O.items.map (·.id)) h
  simp only [origins, originsOf, List.map_map, Function.comp_def, itemOrigin] at hids
  rwa [Distinct, hids]

theorem phaseOf_terminal {status : ItemStatus} (h : status.terminal = true) :
    phaseOf status = .closed status := by
  cases status with
  | queued | claimed | running => exact absurd h (by decide)
  | succeeded | failed | skipped | cancelled => rfl

theorem phaseOf_closed {status result : ItemStatus} (h : phaseOf status = .closed result) :
    status = result ∧ status.terminal = true := by
  cases status <;> cases h <;> exact ⟨rfl, rfl⟩

theorem phaseOf_waiting {status : ItemStatus} : phaseOf status = .waiting ↔ status = .queued := by
  cases status <;> simp [phaseOf]

theorem phaseOf_isBusy (status : ItemStatus) :
    (phaseOf status).isBusy = decide (status ∈ [ItemStatus.claimed, .running]) := by
  cases status <;> rfl

theorem phaseOf_isOpen (status : ItemStatus) :
    (phaseOf status).isOpen = decide (status ∈ [ItemStatus.queued, .claimed, .running]) := by
  cases status <;> rfl

theorem filterMap_markOf (t : List Event) :
    (t.filter isCustody).filterMap markOf = t.filterMap markOf := by
  rw [List.filterMap_filter]
  refine List.filterMap_congr (fun e _ => ?_)
  cases e <;> rfl

theorem ledger_of_custody {v v' : World} (h : custody v' = custody v) :
    ledger v'.shared = ledger v.shared := by
  have hitems : v'.shared.db.items = v.shared.db.items := congrArg Custody.items h
  have hevents : v'.shared.trace.filter isCustody = v.shared.trace.filter isCustody :=
    congrArg Custody.events h
  simp only [ledger, Db.item, hitems]
  rw [← filterMap_markOf, hevents, filterMap_markOf]

theorem entry_of_mem {s : Shared} (hs : Distinct s) {r : JobItem} (hr : r ∈ s.db.items) :
    (ledger s).entry r.id = some (entryOf r) := by
  simp only [ledger, Db.item, Table.find_eq_some hs hr, Option.map_some]

theorem item_of_entry {s : Shared} {i : Id} {e : Entry Id Ms ItemStatus}
    (h : (ledger s).entry i = some e) : ∃ r ∈ s.db.items, r.id = i ∧ entryOf r = e := by
  obtain ⟨r, hr, he⟩ := Option.map_eq_some_iff.mp h
  obtain ⟨hmem, hid⟩ := Table.find_mem hr
  exact ⟨r, hmem, hid, he⟩

/-- An update of some rows that keeps the ids, in terms of entries. -/
theorem entry_update (p : JobItem → Bool) {f : JobItem → JobItem} (hf : ∀ r, (f r).id = r.id)
    (db : Db) (i : Id) :
    ({ db with items := Table.update p f db.items }.item i).map entryOf =
      (db.item i).map (fun r => entryOf (if p r then f r else r)) := by
  rw [Db.item, Table.find_update (fun r _ => hf r), Option.map_map]
  rfl

theorem entry_updateOne (i : Id) {f : JobItem → JobItem} (hf : ∀ r, (f r).id = r.id) {db : Db}
    {g : Entry Id Ms ItemStatus → Entry Id Ms ItemStatus}
    (hg : ∀ r, db.item i = some r → entryOf (f r) = g (entryOf r)) (k : Id) :
    ({ db with items := Table.update (fun r => decide (r.id = i)) f db.items }.item k).map entryOf =
      change i g (fun k => (db.item k).map entryOf) k := by
  rw [entry_update _ hf]
  cases hfind : db.item k with
  | none => simp [change, hfind]
  | some r =>
    have hid : r.id = k := (Table.find_mem hfind).2
    by_cases hk : k = i
    · subst hk
      simp [change, hfind, hid, hg r hfind]
    · simp [change, hfind, hid, hk]

theorem ledger_running (s : Shared) (w : Nat) (i : Id) (now : Ms) :
    ledger { s with
        db.items := Table.update (fun r => decide (r.id = i)) (runningItem now) s.db.items } =
      (Move.touch w i).apply (ledger s) := by
  simp only [ledger, Move.apply, Ledger.mk.injEq, and_true]
  funext k
  refine entry_updateOne i ?_ ?_ k
  · exact fun _ => rfl
  · exact fun _ _ => rfl

theorem ledger_attempted {s : Shared} {i : Id} {n : Nat}
    (hn : attempts (ledger s) i + 1 = n) (w : Nat) (now : Ms) :
    ledger { s with
        db.items := Table.update (fun r => decide (r.id = i)) (attemptedItem n now) s.db.items
        trace := .attempted w i :: s.trace } =
      (Move.attempt w i).apply (ledger s) := by
  simp only [ledger, Move.apply, Ledger.mk.injEq]
  refine ⟨?_, rfl⟩
  funext k
  refine entry_updateOne i ?_ ?_ k
  · exact fun _ => rfl
  · intro r hr
    have : attempts (ledger s) i = r.attemptCount :=
      attempts_of_entry (e := entryOf r) (by simp only [ledger, hr, Option.map_some])
    simp only [entryOf, attemptedItem, ← hn, this]

theorem ledger_retry (s : Shared) (w : Nat) (i : Id) (nextAttemptAt now : Ms) (category : Category)
    (detail : Option String) :
    ledger { s with
        db.items := Table.update (fun r => decide (r.id = i))
          (retriedItem nextAttemptAt category detail now) s.db.items
        trace := .recorded w i :: s.trace } =
      (Move.retry w i).apply (ledger s) := by
  simp only [ledger, Move.apply, Ledger.mk.injEq]
  refine ⟨?_, rfl⟩
  funext k
  refine entry_updateOne i ?_ ?_ k
  · exact fun _ => rfl
  · exact fun _ _ => rfl

theorem ledger_terminal (s : Shared) (w : Nat) (i : Id) {status : ItemStatus}
    (h : status.terminal = true) (now : Ms) (category : Option Category) (detail : Option String) :
    ledger { s with
        db.items :=
          Table.update (fun r => decide (r.id = i)) (terminalItem status category detail now)
          s.db.items
        trace := .recorded w i :: s.trace } =
      (Move.close w i status).apply (ledger s) := by
  simp only [ledger, Move.apply, Ledger.mk.injEq]
  refine ⟨?_, rfl⟩
  funext k
  refine entry_updateOne i ?_ ?_ k
  · exact fun _ => rfl
  · intro r _
    simp only [entryOf, terminalItem, phaseOf_terminal h]

theorem ledger_claim {v : World} (hs : Distinct v.shared) {row : JobItem} {now : Ms}
    (hrow : nextClaimable v.shared.db now = some row) :
    ledger (claimRow row now v).shared =
      (Move.claim v.mem.pid row.id (now + leaseMs)).apply (ledger v.shared) := by
  obtain ⟨hrowmem, hclaimable⟩ := nextClaimable_mem hrow
  have hqueued := claimable_queued hclaimable
  simp only [ledger, claimRow, Move.apply, Ledger.mk.injEq]
  refine ⟨?_, rfl⟩
  funext k
  rw [entry_update _ (by exact fun _ => rfl)]
  cases hfind : v.shared.db.item k with
  | none => simp [change, hfind]
  | some r =>
    obtain ⟨hr, hid⟩ := Table.find_mem hfind
    subst hid
    by_cases hk : r.id = row.id
    · have : r = row := Table.eq_of_key hs hr hrowmem hk
      subst this
      simp [change, hfind, hqueued, entryOf, phaseOf, claimedItem]
    · simp [change, hfind, hk]

theorem ledger_cancel (s : Shared) (id : Id) (now : Ms) :
    ledger { s with
        db.items := Table.update
          (fun r => decide (r.jobId = id ∧ r.status ∈ [.queued, .claimed, .running]))
          (cancelledItem now) s.db.items
        trace := .itemsCancelled id :: s.trace } =
      (Move.cancel id .cancelled).apply (ledger s) := by
  simp only [ledger, Move.apply, Ledger.mk.injEq]
  refine ⟨?_, rfl⟩
  funext k
  rw [entry_update _ (by exact fun _ => rfl)]
  rw [Option.map_map]
  refine Option.map_congr (fun r _ => ?_)
  simp only [Function.comp_apply, cancelEntry, entryOf, phaseOf_isOpen, decide_eq_true_eq]
  split <;> rfl

theorem ledger_recover (s : Shared) (now : Ms) :
    ledger { s with db.items := Table.update (stale now) (recoveredItem now) s.db.items } =
      (Move.recover now).apply (ledger s) := by
  simp only [ledger, Move.apply, Ledger.mk.injEq, and_true]
  funext k
  rw [entry_update _ (by exact fun _ => rfl)]
  rw [Option.map_map]
  refine Option.map_congr (fun r _ => ?_)
  have hstale : stale now r =
      ((phaseOf r.status).isBusy && r.leaseExpiresAt.any (fun l => decide (l < now))) := by
    rw [stale, phaseOf_isBusy]
  simp only [Function.comp_apply, recoverEntry, entryOf, ← hstale]
  split <;> rfl

theorem newItems_entry {jobId : Id} {now : Ms} {id : Id} {seq : Nat} {items : List NewItem}
    {r : JobItem} (hr : r ∈ newItems jobId now id seq items) :
    entryOf r = ⟨jobId, .waiting, none, 0⟩ := by
  induction items generalizing id seq with
  | nil => cases hr
  | cons item items ih =>
    cases hr with
    | head => rfl
    | tail _ hrest => exact ih hrest

theorem ledger_insert {s : Shared} (hs : Distinct s) {id : Id} {now : Ms} {a : CreateJobArgs}
    {firstItem : Id} {db : Db} (h : createTransaction id now a firstItem s.db = .ok db) (pid : Nat)
    (uuid : Id) (limit : Nat) :
    let m : Move Nat Id Id Ms ItemStatus :=
      .insert id ((newItems id now firstItem 0 a.items).map (·.id))
    let s' : Shared := { s with db := db, uuid := uuid, trace := .jobInserted pid id a :: s.trace }
    Distinct s' ∧ m.Enabled limit (ledger s) ∧ ledger s' = m.apply (ledger s) := by
  intro m s'
  obtain ⟨hdb, _, _, _, hnodup⟩ := createTransaction_ok h
  have hdistinct : (db.items.map (·.id)).Nodup := hnodup hs
  have hnew : ∀ i ∈ (newItems id now firstItem 0 a.items).map (·.id), s.db.item i = none := by
    intro i hi
    rw [Db.item, Table.find_none]
    rw [hdb, List.map_append] at hdistinct
    exact fun r hr heq =>
      (List.nodup_append.mp hdistinct).2.2 r.id (List.mem_map_of_mem hr) i hi heq
  refine ⟨hdistinct, fun i hi => by simp [ledger, hnew i hi], ?_⟩
  simp only [ledger, Move.apply, Ledger.mk.injEq, s', m, hdb]
  refine ⟨?_, rfl⟩
  funext i
  simp only [Db.item, Table.find_append]
  by_cases hi : i ∈ (newItems id now firstItem 0 a.items).map (·.id)
  · have hold : Table.find (·.id) i s.db.items = none := hnew i hi
    cases hfind : Table.find (·.id) i (newItems id now firstItem 0 a.items) with
    | none =>
      obtain ⟨r, hr, hid⟩ := List.mem_map.mp hi
      exact absurd hid (Table.find_none.mp hfind r hr)
    | some r => simp [hold, hi, newItems_entry (Table.find_mem hfind).1]
  · have hfind : Table.find (·.id) i (newItems id now firstItem 0 a.items) = none :=
      Table.find_none.mpr (fun r hr heq => hi (heq ▸ List.mem_map_of_mem hr))
    simp [hfind, hi]

theorem sound_initial (now : Ms) : Sound (ledger { now := now }) :=
  ⟨List.nodup_nil, fun _ hh => absurd hh List.not_mem_nil, fun _ hh => absurd hh List.not_mem_nil,
    fun _ => le_refl _, trivial⟩

end WhatsappTester.Jobs.Ledger
