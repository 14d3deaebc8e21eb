import Mathlib.Data.List.Infix
import WhatsappTester.Atomic.Transaction
import WhatsappTester.Jobs.Claiming
import WhatsappTester.Jobs.JobService

namespace WhatsappTester.Jobs.Transactions

open Schema State Atomic.Program Atomic.Transaction

/-- What the database throws: a broken constraint, a `BEGIN`, `COMMIT` or `ROLLBACK` in the wrong
place, or whatever else goes wrong with a statement. -/
inductive DbError
  | constraint (err : SqlError)
  | misplaced
  | failed (message : String)
  deriving DecidableEq, Repr

/-- `/UNIQUE/i.test(String(err.message))` -/
def DbError.isUnique : DbError → Bool
  | .constraint err => err.isUnique
  | .misplaced => false
  | .failed message => decide ("UNIQUE".toList <:+: message.toList.map Char.toUpper)

def write (f : Db → Except SqlError Db) : Script Db DbError Unit :=
  statement (fun db => ((f db).mapError .constraint).map (fun db => ((), db)))

def recordEvent (jobId : Id) (ts : Ms) (kind : JobEventKind) : Script Db DbError Unit :=
  write (fun db => .ok { db with events := db.events ++ [⟨jobId, ts, kind⟩] })

def getJob (id : Id) : Script Db DbError (Option JobView) := do
  match ← select (·.job id) with
  | none => pure none
  | some job => do
    let items ← select (fun db =>
      (db.itemsOf id).insertionSort (fun r r' => r.seq ≤ r'.seq))
    pure (some ⟨job, items⟩)

def selectKey (key : Option String) : Script Db DbError (Option Id) :=
  match key with
  | none => pure none
  | some k =>
    if k = "" then pure none
    else select (fun db =>
      (db.jobs.find? (fun j => decide (j.idempotencyKey = some k))).map (·.id))

/-- The look-up of a job by its idempotency key, and what a call returns when it finds one. -/
def selectExisting (key : Option String) : Script Db DbError (Option CreateResult) := do
  match ← selectKey key with
  | none => pure none
  | some existing => do
    let job ← getJob existing
    pure (some ⟨job, false⟩)

/-- `items.forEach((item, i) => insertItem.run(…))` -/
def insertItems (jobId : Id) (now : Ms) : Id → Nat → List NewItem → Script Db DbError Unit
  | _, _, [] => pure ()
  | id, seq, item :: items => do
    write (JobService.insertItems jobId now id seq [item])
    insertItems jobId now (id + 1) (seq + 1) items

/-- The body of the `try` of `createJob`. -/
def insertJobAndItems (id : Id) (now : Ms) (first : Id) (a : CreateJobArgs) :
    Script Db DbError (Option CreateResult) := do
  write (JobService.insertJob (JobService.newJob id now a))
  insertItems id now first 0 a.items
  commit .misplaced
  pure none

/-- The `catch` of `createJob`. -/
def rollbackAndSelect (key : Option String) (err : DbError) :
    Script Db DbError (Option CreateResult) := do
  rollbackQuietly .misplaced
  if err.isUnique then
    match ← selectExisting key with
    | some result => pure (some result)
    | none => throw err
  else throw err

/-- `createJob` statement by statement, with the ids and the clock readings that it draws. -/
def createJob (id : Id) (now ts : Ms) (first : Id) (a : CreateJobArgs) :
    Script Db DbError CreateResult := do
  match ← selectExisting a.idempotencyKey with
  | some result => pure result
  | none => do
    beginImmediate .misplaced
    match ← tryCatch (insertJobAndItems id now first a) (rollbackAndSelect a.idempotencyKey) with
    | some result => pure result
    | none => do
      recordEvent id ts (.created a.items.length a.sourceType a.sourceId)
      let job ← getJob id
      pure ⟨job, true⟩

def claimItem (pid : Nat) (now : Ms) (row : JobItem) (db : Db) : Db :=
  { db with
    items := Atomic.Table.update (fun r => decide (r.id = row.id ∧ r.status = .queued))
      (Claiming.claimedItem pid now) db.items }

/-- The body of the `try` of `claimNextItem`. -/
def selectAndClaim (pid : Nat) (now : Ms) : Script Db DbError (Option JobItem) := do
  match ← select (Claiming.nextClaimable · now) with
  | none => do
    commit .misplaced
    pure none
  | some row => do
    let changes ← statement (fun db => .ok
      (Atomic.Table.changes (fun r => decide (r.id = row.id ∧ r.status = .queued)) db.items,
        claimItem pid now row db))
    commit .misplaced
    if changes ≠ 1 then pure none else select (·.item row.id)

def claimNextItem (pid : Nat) (now : Ms) : Script Db DbError (Option JobItem) := do
  beginImmediate .misplaced
  tryCatch (selectAndClaim pid now) (fun err => do
    rollbackQuietly .misplaced
    throw err)

def SameTables (db db' : Db) : Prop := db'.jobs = db.jobs ∧ db'.items = db.items

def claim (pid : Nat) (now : Ms) (db : Db) : Db :=
  match Claiming.nextClaimable db now with
  | none => db
  | some row => claimItem pid now row db

def Created (id : Id) (now : Ms) (first : Id) (a : CreateJobArgs) (db db' : Db) : Prop :=
  ∃ mid, JobService.createTransaction id now a first db = .ok mid ∧ SameTables mid db'

/-- Where a call on `db` ends: outside a transaction, and either with the tables as they were or,
if its `COMMIT` worked, with what it commits. -/
structure Whole (db : Db) (committed : Db → Prop) (s : Session Db DbError) : Prop where
  outside : s.working = none
  before : s.commits = 0 → SameTables db s.stored
  after : s.commits ≠ 0 → committed s.stored

section Reads

variable {K : Db → Prop} {d : Db} {n : Nat} {s : Session Db DbError}

def Reads {α : Type} (K : Db → Prop) (p : Script Db DbError α) : Prop :=
  ∀ d n s, K d → At d none n s → Leads K p (fun _ t => At d none n t) (fun _ t => At d none n t) s

theorem reads_pure {α : Type} (a : α) : Reads K (pure a) := fun _ _ _ _ hs => leads_pure hs

theorem reads_select {α : Type} (f : Db → α) : Reads K (select f) :=
  fun _ _ _ hK hs => leads_select hs hK (fun _ ht => ht) (fun _ _ ht => ht)

theorem reads_bind {α β : Type} {p : Script Db DbError α} {k : α → Script Db DbError β}
    (hp : Reads K p) (hk : ∀ a, Reads K (k a)) : Reads K (p >>= k) :=
  fun d n s hK hs =>
    leads_bind (hp d n s hK hs) (fun a t ht => hk a d n t hK ht) (fun _ _ ht => ht)

theorem reads_getJob (id : Id) : Reads K (getJob id) := by
  refine reads_bind (reads_select _) (fun job => ?_)
  cases job with
  | none => exact reads_pure none
  | some job => exact reads_bind (reads_select _) (fun _ => reads_pure _)

theorem reads_selectExisting (key : Option String) : Reads K (selectExisting key) := by
  refine reads_bind ?_ (fun existing => ?_)
  · cases key with
    | none => exact reads_pure none
    | some k =>
      simp only [selectKey]
      split
      · exact reads_pure none
      · exact reads_select _
  · cases existing with
    | none => exact reads_pure none
    | some existing => exact reads_bind (reads_getJob existing) (fun _ => reads_pure _)

end Reads

section Insertion

variable {K : Db → Prop} {db w : Db} {s : Session Db DbError}

theorem write_ok {f : Db → Except SqlError Db} {d d' : Db} {u : Unit}
    (h : ((f d).mapError DbError.constraint).map (fun db => ((), db)) = .ok (u, d')) :
    f d = .ok d' := by
  cases hd : f d with
  | error err => simp [hd, Except.mapError, Except.map] at h
  | ok d'' =>
    simp only [hd, Except.mapError, Except.map, Except.ok.injEq, Prod.mk.injEq, true_and] at h
    rw [h]

theorem leads_write_inside {f : Db → Except SqlError Db} {n : Nat} (hs : At db (some w) n s)
    (hK : K db) : Leads K (write f) (fun _ t => ∃ w', f w = .ok w' ∧ At db (some w') n t)
      (fun _ t => Within db n t) s :=
  leads_inside hs hK (fun _ w' _ hf ht => ⟨w', write_ok hf, ht⟩) (fun _ _ ht => ht)

theorem leads_write_outside {f : Db → Except SqlError Db} {n : Nat} (hs : At db none n s)
    (hK : K db) (hK' : ∀ db', f db = .ok db' → K db') :
    Leads K (write f) (fun _ t => ∃ db', f db = .ok db' ∧ At db' none n t)
      (fun _ t => At db none n t) s :=
  leads_outside hs hK (fun _ db' hf => hK' db' (write_ok hf))
    (fun _ db' _ hf ht => ⟨db', write_ok hf, ht⟩) (fun _ _ ht => ht)

theorem insertItems_cons (jobId : Id) (now : Ms) (id : Id) (seq : Nat) (item : NewItem)
    (items : List NewItem) (db : Db) :
    JobService.insertItems jobId now id seq (item :: items) db =
      (JobService.insertItems jobId now id seq [item] db).bind
        (JobService.insertItems jobId now (id + 1) (seq + 1) items) := by
  simp only [JobService.insertItems]
  split
  · rfl
  · rfl
  · split <;> rfl

theorem leads_insertItems (jobId : Id) (now : Ms) (id : Id) (seq : Nat) (items : List NewItem)
    {n : Nat} (hs : At db (some w) n s) (hK : K db) :
    Leads K (insertItems jobId now id seq items)
      (fun _ t => ∃ w', JobService.insertItems jobId now id seq items w = .ok w' ∧
        At db (some w') n t)
      (fun _ t => Within db n t) s := by
  induction items generalizing id seq w s with
  | nil => exact leads_pure ⟨w, rfl, hs⟩
  | cons item items ih =>
    refine leads_bind (leads_write_inside hs hK) (fun _ t ht => ?_) (fun _ _ ht => ht)
    obtain ⟨w', hone, ht⟩ := ht
    refine leads_mono (fun _ u hu => ?_) (fun _ _ hu => hu) (ih (id + 1) (seq + 1) ht)
    obtain ⟨w'', hrest, hu⟩ := hu
    exact ⟨w'', by rw [insertItems_cons, hone]; exact hrest, hu⟩

end Insertion

theorem SameTables.refl (db : Db) : SameTables db db := ⟨rfl, rfl⟩

theorem SameTables.trans {db db' db'' : Db} (h : SameTables db db') (h' : SameTables db' db'') :
    SameTables db db'' := ⟨h'.1.trans h.1, h'.2.trans h.2⟩

section Calls

variable {db : Db} {committed : Db → Prop} {s : Session Db DbError}

def OneOf (db : Db) (committed : Db → Prop) (d : Db) : Prop := SameTables db d ∨ committed d

theorem one_of_before (db : Db) : OneOf db committed db := Or.inl (.refl db)

theorem whole_before (hs : At db none 0 s) : Whole db committed s :=
  ⟨hs.working, fun _ => by rw [hs.stored]; exact .refl db, fun h => absurd hs.commits h⟩

theorem whole_after {db' : Db} (h : committed db') (hs : At db' none 1 s) : Whole db committed s :=
  ⟨hs.working, fun h => absurd (hs.commits.symm.trans h) (by decide), fun _ => by rwa [hs.stored]⟩

section CreateJob

variable {id : Id} {now ts : Ms} {first : Id} {a : CreateJobArgs}

theorem leads_insertJobAndItems (hs : At db (some db) 0 s) :
    Leads (OneOf db (Created id now first a db)) (insertJobAndItems id now first a)
      (fun raced t => raced = none ∧
        ∃ db', JobService.createTransaction id now a first db = .ok db' ∧ At db' none 1 t)
      (fun _ t => Within db 0 t) s := by
  have hK : OneOf db (Created id now first a db) db := one_of_before db
  refine leads_bind (leads_write_inside hs hK) (fun _ t ht => ?_) (fun _ _ ht => ht)
  obtain ⟨mid, hjob, ht⟩ := ht
  refine leads_bind (leads_insertItems id now first 0 a.items ht hK) (fun _ u hu => ?_)
    (fun _ _ hu => hu)
  obtain ⟨db', hitems, hu⟩ := hu
  have htransaction : JobService.createTransaction id now a first db = .ok db' := by
    rw [JobService.createTransaction, hjob]
    exact hitems
  exact leads_bind (Q := fun _ v => At db' none 1 v) (leads_commit hu hK
    (Or.inr ⟨db', htransaction, .refl db'⟩) (fun _ hv => hv) (fun _ _ hv => hv))
    (fun _ v hv => leads_pure ⟨rfl, db', htransaction, hv⟩) (fun _ _ hv => hv)

theorem leads_rollbackAndSelect {K : Db → Prop} (hK : K db) (key : Option String) (err : DbError)
    (hs : Within db 0 s) : Leads K (rollbackAndSelect key err)
      (fun raced t => raced.isSome ∧ At db none 0 t) (fun _ t => At db none 0 t) s := by
  refine leads_bind (Q := fun _ t => At db none 0 t) (F := fun _ t => At db none 0 t)
    (leads_rollbackQuietly hs hK (fun _ ht => ht)) (fun _ t ht => ?_) (fun _ _ ht => ht)
  split
  · refine leads_bind (reads_selectExisting key db 0 t hK ht) (fun existing u hu => ?_)
      (fun _ _ hu => hu)
    cases existing with
    | some result => exact leads_pure ⟨rfl, hu⟩
    | none => exact leads_throw hu
  · exact leads_throw ht

/-- After the `try`, the transaction is committed, or it is rolled back. -/
theorem leads_tryInsert (hs : At db (some db) 0 s) :
    Leads (OneOf db (Created id now first a db))
      (tryCatch (insertJobAndItems id now first a) (rollbackAndSelect a.idempotencyKey))
      (fun raced t => raced.isSome ∧ At db none 0 t ∨ raced = none ∧
        ∃ db', JobService.createTransaction id now a first db = .ok db' ∧ At db' none 1 t)
      (fun _ t => At db none 0 t) s := by
  refine leads_catch (leads_mono (fun _ _ ht => Or.inr ht) (fun _ _ ht => ht)
    (leads_insertJobAndItems hs)) (fun err t ht => ?_)
  exact leads_mono (fun _ _ hu => Or.inl hu) (fun _ _ hu => hu)
    (leads_rollbackAndSelect (one_of_before db) _ err ht)

/-- What follows the `COMMIT` leaves the jobs and items alone, also where it throws. -/
theorem leads_report {db' : Db} (htransaction : JobService.createTransaction id now a first db =
    .ok db') (kind : JobEventKind) (hs : At db' none 1 s) :
    Leads (OneOf db (Created id now first a db))
      (do
        recordEvent id ts kind
        let job ← getJob id
        pure (⟨job, true⟩ : CreateResult))
      (fun _ t => Whole db (Created id now first a db) t)
      (fun _ t => Whole db (Created id now first a db) t) s := by
  have hdone : ∀ d, SameTables db' d → Created id now first a db d :=
    fun d hd => ⟨db', htransaction, hd⟩
  have hevent : Leads (OneOf db (Created id now first a db)) (recordEvent id ts kind)
      (fun _ t => ∃ d, SameTables db' d ∧ At d none 1 t)
      (fun _ t => ∃ d, SameTables db' d ∧ At d none 1 t) s :=
    leads_mono (fun _ t ⟨d, hd, ht⟩ => ⟨d, by cases hd; exact .refl _, ht⟩)
      (fun _ t ht => ⟨db', .refl db', ht⟩)
      (leads_write_outside hs (Or.inr (hdone db' (.refl db')))
        (fun d hd => by cases hd; exact Or.inr (hdone _ (.refl _))))
  have hwhole : ∀ t : Session Db DbError, (∃ d, SameTables db' d ∧ At d none 1 t) →
      Whole db (Created id now first a db) t := by
    rintro t ⟨d, hd, ht⟩
    exact whole_after (hdone d hd) ht
  refine leads_bind hevent (fun _ t ht => ?_) (fun _ t ht => hwhole t ht)
  obtain ⟨d, hd, ht⟩ := ht
  refine leads_bind (reads_getJob id d 1 t (Or.inr (hdone d hd)) ht) (fun job u hu => ?_)
    (fun _ u hu => hwhole u ⟨d, hd, hu⟩)
  exact leads_pure (hwhole u ⟨d, hd, hu⟩)

theorem leads_createJob (hs : At db none 0 s) :
    Leads (OneOf db (Created id now first a db)) (createJob id now ts first a)
      (fun _ t => Whole db (Created id now first a db) t)
      (fun _ t => Whole db (Created id now first a db) t) s := by
  have hK : OneOf db (Created id now first a db) db := one_of_before db
  have hselect := reads_selectExisting a.idempotencyKey db 0 s hK hs
  refine leads_bind hselect (fun existing s hs => ?_) (fun _ _ ht => whole_before ht)
  cases existing with
  | some result => exact leads_pure (whole_before hs)
  | none =>
    have hbegin : Leads (OneOf db (Created id now first a db)) (beginImmediate .misplaced)
        (fun _ t => At db (some db) 0 t) (fun _ t => At db none 0 t) s :=
      leads_begin hs hK (fun _ ht => ht) (fun _ _ ht => ht)
    refine leads_bind hbegin (fun _ s hs => ?_) (fun _ _ ht => whole_before ht)
    refine leads_bind (leads_tryInsert hs) (fun raced t ht => ?_) (fun _ _ ht => whole_before ht)
    obtain ⟨hraced, ht⟩ | ⟨rfl, db', htransaction, ht⟩ := ht
    · obtain ⟨result, rfl⟩ := Option.isSome_iff_exists.mp hraced
      exact leads_pure (whole_before ht)
    · exact leads_report htransaction _ ht

end CreateJob

section ClaimNextItem

variable {pid : Nat} {now : Ms}

def Claimed (pid : Nat) (now : Ms) (db db' : Db) : Prop := db' = claim pid now db

theorem leads_selectAndClaim (hs : At db (some db) 0 s) :
    Leads (OneOf db (Claimed pid now db)) (selectAndClaim pid now)
      (fun _ t => At (claim pid now db) none 1 t)
      (fun _ t => Within db 0 t ∨ At (claim pid now db) none 1 t) s := by
  have hK : OneOf db (Claimed pid now db) db := one_of_before db
  have hcommit : ∀ {w : Db} {t : Session Db DbError}, w = claim pid now db → At db (some w) 0 t →
      Leads (OneOf db (Claimed pid now db)) (commit .misplaced)
        (fun _ t => At (claim pid now db) none 1 t) (fun _ t => Within db 0 t) t := by
    rintro w t rfl ht
    exact leads_commit ht hK (Or.inr rfl) (fun _ hu => hu) (fun _ _ hu => hu)
  refine leads_bind (Q := fun row t => row = Claiming.nextClaimable db now ∧ At db (some db) 0 t)
    (F := fun _ t => Within db 0 t)
    (leads_select_inside hs hK (fun _ ht => ⟨rfl, ht⟩) (fun _ _ ht => ht))
    (fun row t ht => ?_) (fun _ _ ht => Or.inl ht)
  obtain ⟨rfl, ht⟩ := ht
  cases hrow : Claiming.nextClaimable db now with
  | none =>
    have hsame : db = claim pid now db := by rw [claim, hrow]
    exact leads_bind (hcommit hsame ht) (fun _ _ hu => leads_pure hu) (fun _ _ hu => Or.inl hu)
  | some row =>
    have hclaim : claimItem pid now row db = claim pid now db := by rw [claim, hrow]
    refine leads_bind (Q := fun _ t => At db (some (claimItem pid now row db)) 0 t)
      (F := fun _ t => Within db 0 t)
      (leads_inside ht hK (fun _ w' u hf hu => by cases hf; exact hu) (fun _ _ hu => hu))
      (fun changes u hu => ?_) (fun _ _ hu => Or.inl hu)
    refine leads_bind (hcommit hclaim hu) (fun _ v hv => ?_) (fun _ _ hv => Or.inl hv)
    split
    · exact leads_pure hv
    · exact leads_mono (fun _ _ hx => hx) (fun _ _ hx => Or.inr hx)
        (reads_select _ _ 1 v (Or.inr rfl) hv)

theorem leads_claimNextItem (hs : At db none 0 s) :
    Leads (OneOf db (Claimed pid now db)) (claimNextItem pid now)
      (fun _ t => Whole db (Claimed pid now db) t)
      (fun _ t => Whole db (Claimed pid now db) t) s := by
  have hK : OneOf db (Claimed pid now db) db := one_of_before db
  have hafter : ∀ t : Session Db DbError, At (claim pid now db) none 1 t →
      Whole db (Claimed pid now db) t := fun t ht => whole_after rfl ht
  refine leads_bind (Q := fun _ t => At db (some db) 0 t) (F := fun _ t => At db none 0 t)
    (leads_begin hs hK (fun _ ht => ht) (fun _ _ ht => ht)) (fun _ t ht => ?_)
    (fun _ _ ht => whole_before ht)
  refine leads_catch (leads_mono (fun _ u hu => hafter u hu) (fun _ _ hu => hu)
    (leads_selectAndClaim ht)) (fun err u hu => ?_)
  -- There is a transaction to roll back unless the `SELECT` after the `COMMIT` has failed.
  obtain hu | hu := hu
  · exact leads_bind (Q := fun _ v => At db none 0 v) (F := fun _ v => At db none 0 v)
      (leads_rollbackQuietly hu hK (fun _ hv => hv)) (fun _ _ hv => leads_throw (whole_before hv))
      (fun _ _ hv => whole_before hv)
  · exact leads_bind (Q := fun _ v => At (claim pid now db) none 1 v)
      (F := fun _ v => At (claim pid now db) none 1 v)
      (leads_rollbackQuietly ⟨_, hu⟩ (Or.inr rfl) (fun _ hv => hv))
      (fun _ v hv => leads_throw (hafter v hv)) (fun _ v hv => hafter v hv)

end ClaimNextItem

end Calls

/-- Whichever statements fail, a call leaves no transaction open, and where its `COMMIT` has not
worked it leaves the jobs and items as they were. Where it has, they are what the call commits,
all of it, even if a later statement makes the call throw. -/
theorem calls_whole (db : Db) (fates : List (Fate DbError)) :
    (∀ id now ts first a, Whole db (Created id now first a db)
      ((createJob id now ts first a).run.run { stored := db, fates := fates }).2) ∧
    (∀ pid now, Whole db (Claimed pid now db)
      ((claimNextItem pid now).run.run { stored := db, fates := fates }).2) := by
  have hs : At db none 0 ({ stored := db, fates := fates } : Session Db DbError) := ⟨rfl, rfl, rfl⟩
  refine ⟨fun id now ts first a => ?_, fun pid now => ?_⟩
  · exact leads_end (leads_createJob hs)
  · exact leads_end (leads_claimNextItem hs)

/-- Where the process dies within a call, the database holds what the call commits, all of it, or
the jobs and items as they were. -/
theorem calls_cut (db : Db) (fates : List (Fate DbError)) (n : Nat) :
    (∀ id now ts first a, OneOf db (Created id now first a db)
      ((createJob id now ts first a).run.cut n { stored := db, fates := fates }).stored) ∧
    (∀ pid now, OneOf db (Claimed pid now db)
      ((claimNextItem pid now).run.cut n { stored := db, fates := fates }).stored) := by
  have hs : At db none 0 ({ stored := db, fates := fates } : Session Db DbError) := ⟨rfl, rfl, rfl⟩
  refine ⟨fun id now ts first a => ?_, fun pid now => ?_⟩
  · exact leads_cut (s := { stored := db, fates := fates }) (one_of_before db)
      (leads_createJob hs) n
  · exact leads_cut (s := { stored := db, fates := fates }) (one_of_before db)
      (leads_claimNextItem hs) n

/-- A committed claim is the claim of the model in which a transaction is one statement. -/
theorem claimTransaction_db (now : Ms) (w : World) :
    ((Claiming.claimTransaction now).run w).2.shared.db = claim w.mem.pid now w.shared.db := by
  simp only [Claiming.claimTransaction, run_update, claim]
  cases Claiming.nextClaimable w.shared.db now <;> rfl

/-- A call leaves the connection outside a transaction, and where it throws it leaves the jobs and
items as they were. -/
structure Undone {α : Type} (db : Db) (p : Script Db DbError α) (fates : List (Fate DbError)) :
    Prop where
  outside : (p.run.run { stored := db, fates := fates }).2.working = none
  unchanged : ∀ err, (p.run.run { stored := db, fates := fates }).1 = .error err →
    SameTables db (p.run.run { stored := db, fates := fates }).2.stored

def oneItem : CreateJobArgs := { type := "bulk", items := [⟨some "1", none, some "hello"⟩] }

/-- The `COMMIT` works, and the `INSERT` of the event after it fails. -/
theorem created_and_thrown :
    ¬ Undone {} (createJob 0 0 0 1 oneItem)
      [.works, .works, .works, .works, .fails (.failed "disk I/O error") false] :=
  fun h => absurd (h.unchanged (.failed "disk I/O error") rfl).1 (by decide +kernel)

end WhatsappTester.Jobs.Transactions
