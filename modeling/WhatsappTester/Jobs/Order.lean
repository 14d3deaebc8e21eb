import WhatsappTester.Atomic.Serving
import WhatsappTester.Jobs.Handover

namespace WhatsappTester.Jobs.Order

open Schema State Atomic Atomic.Program Atomic.Runs Atomic.Interleaving Statements JobService
  Claiming Worker Ledger
open Process Custody Cluster Sending Retirement

/-- The items that were ever claimed, in the order of their first claims, the latest first. -/
def firstClaims : List Event → List Id
  | [] => []
  | .claimed _ i _ :: t => (firstClaims t).insert i
  | _ :: t => firstClaims t

/-- The places of a job's items in the order of their first claims. -/
def claimOrder (s : Shared) (id : Id) : List Nat :=
  (Serving.ranks (·.id) (·.seq) (s.db.itemsOf id) (firstClaims s.trace)).reverse

def isClaim : Event → Bool
  | .claimed .. => true
  | _ => false

/-- No step claims anything but the claimable item that comes first, by its due time and
then by its place in the table. -/
def Fair (s s' : Shared) : Prop :=
  s'.trace.filter isClaim = s.trace.filter isClaim ∨
    ∃ w row l pre post, s'.trace = .claimed w row.id l :: s.trace ∧
      s.db.items = pre ++ row :: post ∧ claimable s.db s.now row ∧
      (∀ r ∈ pre, claimable s.db s.now r → row.nextAttemptAt < r.nextAttemptAt) ∧
      ∀ r ∈ post, claimable s.db s.now r → row.nextAttemptAt ≤ r.nextAttemptAt

abbrev Gone (id : Id) (s : Shared) : Prop := Retired JobStatus.terminal id s

/-- The items of a job are claimed in their order, and what was never claimed still stands
as it was inserted, unless its job is over. -/
structure Ordered (s : Shared) : Prop where
  served : Serving.Served ItemOrigin.id ItemOrigin.jobId ItemOrigin.seq
    (s.db.items.map itemOrigin) (firstClaims s.trace)
  owned : ∀ r ∈ s.db.items, r.jobId ∈ jobIds s
  even : ∀ r ∈ s.db.items, ∀ r' ∈ s.db.items, r.jobId = r'.jobId →
    r.id ∉ firstClaims s.trace → r'.id ∉ firstClaims s.trace →
      r.nextAttemptAt = r'.nextAttemptAt
  waiting : ∀ r ∈ s.db.items, r.id ∉ firstClaims s.trace → r.status = .queued ∨ Gone r.jobId s

/-- What a process counts on: no claim is undone, a job that is over stays so, and time goes on. -/
structure Later (s s' : Shared) : Prop where
  claims : ∀ i ∈ firstClaims s.trace, i ∈ firstClaims s'.trace
  gone : ∀ id, Gone id s → Gone id s'
  now : s.now ≤ s'.now

/-- A step that leaves what was never claimed as it was, or cancels it with its job. -/
structure Kept (s s' : Shared) : Prop extends Later s s' where
  items : ∃ f, s'.db.items = s.db.items.map f ∧ ∀ r ∈ s.db.items,
    itemOrigin (f r) = itemOrigin r ∧ (r.id ∉ firstClaims s'.trace →
      (f r).nextAttemptAt = r.nextAttemptAt ∧ ((f r).status = r.status ∨ Gone r.jobId s))
  jobs : jobIds s ⊆ jobIds s'

structure Tidy (s s' : Shared) : Prop extends Kept s s' where
  unclaimed : s'.trace.filter isClaim = s.trace.filter isClaim

structure Turn (s s' : Shared) : Prop extends Later s s' where
  ordered : Ordered s'
  fair : Fair s s'

section Turn

variable {s s' : Shared} {v : World}

theorem firstClaims_claims (t : List Event) :
    firstClaims t = firstClaims (t.filter isClaim) := by
  induction t with
  | nil => rfl
  | cons e t ih =>
    cases e <;> simp only [firstClaims, List.filter_cons, isClaim, Bool.false_eq_true, ↓reduceIte,
      ih]

theorem firstClaims_of_claims {t t' : List Event} (h : t'.filter isClaim = t.filter isClaim) :
    firstClaims t' = firstClaims t := by
  rw [firstClaims_claims, h, ← firstClaims_claims]

theorem later_refl (s : Shared) : Later s s := ⟨fun _ h => h, fun _ h => h, le_refl _⟩

theorem later_trans {s'' : Shared} (h : Later s s') (h' : Later s' s'') : Later s s'' :=
  ⟨fun i hi => h'.claims i (h.claims i hi), fun id hid => h'.gone id (h.gone id hid),
    le_trans h.now h'.now⟩

theorem tidy_of_items (hitems : s'.db.items = s.db.items)
    (hclaims : s'.trace.filter isClaim = s.trace.filter isClaim) (hjobs : jobIds s ⊆ jobIds s')
    (hgone : ∀ id, Gone id s → Gone id s') (hnow : s.now ≤ s'.now) : Tidy s s' :=
  ⟨⟨⟨fun _ hi => firstClaims_of_claims hclaims ▸ hi, hgone, hnow⟩, ⟨id, by rw [hitems, List.map_id],
    fun _ _ => ⟨rfl, fun _ => ⟨rfl, Or.inl rfl⟩⟩⟩, hjobs⟩, hclaims⟩

theorem tidy_of_tables (hitems : s'.db.items = s.db.items) (hjobs : s'.db.jobs = s.db.jobs)
    (hclaims : s'.trace.filter isClaim = s.trace.filter isClaim) (hnow : s.now ≤ s'.now) :
    Tidy s s' :=
  tidy_of_items hitems hclaims (fun _ hi => by rwa [jobIds, hjobs]) (fun _ => retired_of_jobs hjobs)
    hnow

theorem kept_origins (h : Kept s s') :
    s'.db.items.map itemOrigin = s.db.items.map itemOrigin := by
  obtain ⟨f, hitems, hf⟩ := h.items
  rw [hitems, List.map_map]
  exact List.map_congr_left (fun r hr => (hf r hr).1)

theorem ordered_kept (h : Ordered s) (hk : Kept s s')
    (hserved : Serving.Served ItemOrigin.id ItemOrigin.jobId ItemOrigin.seq
      (s.db.items.map itemOrigin) (firstClaims s'.trace)) : Ordered s' := by
  have horigins := kept_origins hk
  obtain ⟨f, hitems, hf⟩ := hk.items
  have hid : ∀ r ∈ s.db.items, (f r).id = r.id :=
    fun r hr => congrArg ItemOrigin.id (hf r hr).1
  have hjob : ∀ r ∈ s.db.items, (f r).jobId = r.jobId :=
    fun r hr => congrArg ItemOrigin.jobId (hf r hr).1
  have hold : ∀ i, i ∉ firstClaims s'.trace → i ∉ firstClaims s.trace :=
    fun i hi hclaimed => hi (hk.claims i hclaimed)
  refine ⟨horigins ▸ hserved, ?_, ?_, ?_⟩
  · rw [hitems]
    refine List.forall_mem_map.mpr (fun r hr => ?_)
    rw [hjob r hr]
    exact hk.jobs (h.owned r hr)
  · rw [hitems]
    refine List.forall_mem_map.mpr (fun r hr => List.forall_mem_map.mpr (fun r' hr' => ?_))
    rw [hjob r hr, hjob r' hr', hid r hr, hid r' hr']
    intro hsame hnew hnew'
    rw [((hf r hr).2 hnew).1, ((hf r' hr').2 hnew').1]
    exact h.even r hr r' hr' hsame (hold _ hnew) (hold _ hnew')
  · rw [hitems]
    refine List.forall_mem_map.mpr (fun r hr => ?_)
    rw [hjob r hr, hid r hr]
    intro hnew
    obtain hstatus | hgone := ((hf r hr).2 hnew).2
    · rw [hstatus]
      exact (h.waiting r hr (hold _ hnew)).imp_right (hk.gone _)
    · exact Or.inr (hk.gone _ hgone)

theorem turn_tidy (h : Ordered s) (ht : Tidy s s') : Turn s s' :=
  ⟨ht.toLater, ordered_kept h ht.toKept (firstClaims_of_claims ht.unclaimed ▸ h.served),
    Or.inl ht.unclaimed⟩

theorem nextClaimable_first {db : Db} {now : Ms} {row : JobItem}
    (h : nextClaimable db now = some row) :
    ∃ pre post, db.items = pre ++ row :: post ∧
      (∀ r ∈ pre, claimable db now r → row.nextAttemptAt < r.nextAttemptAt) ∧
      ∀ r ∈ post, claimable db now r → row.nextAttemptAt ≤ r.nextAttemptAt :=
  Table.earliest_filter h

theorem lower_claimed (h : Ordered s) {row : JobItem} {now : Ms}
    (hrow : nextClaimable s.db now = some row) {r : JobItem} (hr : r ∈ s.db.items)
    (hjob : r.jobId = row.jobId) (hlt : r.seq < row.seq) : r.id ∈ firstClaims s.trace := by
  obtain ⟨hmem, hclaimable⟩ := nextClaimable_mem hrow
  obtain ⟨pre, post, hitems, hpre, _⟩ := nextClaimable_first hrow
  by_contra hfresh
  have hnew : row.id ∉ firstClaims s.trace :=
    fun hrow => hfresh (h.served.lower _ (List.mem_map_of_mem hr) _ (List.mem_map_of_mem hmem)
      hjob hlt hrow)
  have hdue := h.even r hr row hmem hjob hfresh hnew
  obtain ⟨j, hj, hid, hstatus⟩ := claimable_job hclaimable
  -- the job of the claimed item is at work, so it has not cancelled the other one
  have hqueued : r.status = .queued := by
    refine (h.waiting r hr hfresh).resolve_right (fun hgone => ?_)
    have hterminal := hgone.status j hj (hid.trans hjob.symm)
    simp only [List.mem_cons, List.not_mem_nil, or_false] at hstatus
    obtain hstatus | hstatus := hstatus <;> rw [hstatus] at hterminal <;> cases hterminal
  have hready : claimable s.db now r = true := by
    simp only [claimable, Bool.and_eq_true, List.any_eq_true, decide_eq_true_eq]
    exact ⟨⟨hqueued, hdue ▸ claimable_due hclaimable⟩, j, hj, hid.trans hjob.symm, hstatus⟩
  have hsorted := h.served.sorted
  rw [hitems, List.map_append, List.map_cons] at hsorted
  have hpost := (List.pairwise_cons.mp (List.pairwise_append.mp hsorted).2.1).1
  rw [hitems] at hr
  obtain hr | hr := List.mem_append.mp hr
  · exact absurd (hpre r hr hready) hdue.not_gt
  · obtain rfl | hr := List.mem_cons.mp hr
    · exact absurd hlt (Nat.lt_irrefl _)
    · exact absurd (hpost _ (List.mem_map_of_mem hr) hjob.symm) (Nat.not_lt.mpr hlt.le)

theorem fair_claimRow {row : JobItem} {now : Ms} (hrow : nextClaimable v.shared.db now = some row)
    (hnow : now ≤ v.shared.now) : Fair v.shared (claimRow row now v).shared := by
  obtain ⟨_, hclaimable⟩ := nextClaimable_mem hrow
  obtain ⟨pre, post, hitems, hpre, hpost⟩ := nextClaimable_first hrow
  have hclaim : ∀ r, claimable v.shared.db v.shared.now r → r.nextAttemptAt ≤ now →
      claimable v.shared.db now r := by
    intro r hr hdue
    simp only [claimable, Bool.and_eq_true, decide_eq_true_eq] at hr ⊢
    exact ⟨⟨hr.1.1, hdue⟩, hr.2⟩
  have hdue := claimable_due hclaimable
  refine Or.inr ⟨_, row, _, pre, post, rfl, hitems, ?_, fun r hr hready => ?_,
    fun r hr hready => ?_⟩
  · simp only [claimable, Bool.and_eq_true, decide_eq_true_eq] at hclaimable ⊢
    exact ⟨⟨hclaimable.1.1, le_trans hdue hnow⟩, hclaimable.2⟩
  · by_contra hle
    exact hle (hpre r hr (hclaim r hready (le_trans (not_lt.mp hle) hdue)))
  · by_contra hle
    exact hle (hpost r hr (hclaim r hready (le_trans (not_le.mp hle).le hdue)))

theorem kept_claimRow (row : JobItem) (now : Ms) (v : World) :
    Kept v.shared (claimRow row now v).shared := by
  refine ⟨⟨fun i hi => List.mem_insert_of_mem hi, fun _ => retired_of_jobs rfl, le_refl _⟩,
    ⟨_, rfl, fun r _ => ⟨by split <;> rfl, fun hnew => ?_⟩⟩, fun _ hi => hi⟩
  split
  case isTrue hclaimed =>
    exact absurd (List.mem_insert_iff.mpr (Or.inl (of_decide_eq_true hclaimed).1)) hnew
  case isFalse => exact ⟨rfl, Or.inl rfl⟩

theorem turn_claimRow {row : JobItem} {now : Ms} (h : Ordered v.shared)
    (hrow : nextClaimable v.shared.db now = some row) (hnow : now ≤ v.shared.now) :
    Turn v.shared (claimRow row now v).shared := by
  have hkept := kept_claimRow row now v
  refine ⟨hkept.toLater, ordered_kept h hkept ?_, fair_claimRow hrow hnow⟩
  refine Serving.served_insert h.served (List.mem_map_of_mem (nextClaimable_mem hrow).1) ?_
  exact List.forall_mem_map.mpr (fun r hr hjob hlt => lower_claimed h hrow hr hjob hlt)

theorem newItems_even {id : Id} {now : Ms} {first : Id} {seq : Nat} {items : List NewItem} :
    ∀ r ∈ newItems id now first seq items, r.nextAttemptAt = now ∧ seq ≤ r.seq := by
  induction items generalizing first seq with
  | nil => exact fun _ hr => absurd hr List.not_mem_nil
  | cons item items ih =>
    refine List.forall_mem_cons.mpr ⟨⟨rfl, le_refl _⟩, fun r hr => ?_⟩
    exact ⟨(ih r hr).1, Nat.le_of_succ_le (ih r hr).2⟩

theorem newItems_sorted {id : Id} {now : Ms} {first : Id} {seq : Nat} {items : List NewItem} :
    (newItems id now first seq items).Pairwise (fun r r' => r.seq < r'.seq) := by
  induction items generalizing first seq with
  | nil => exact List.Pairwise.nil
  | cons item items ih => exact List.pairwise_cons.mpr ⟨fun r hr => (newItems_even r hr).2, ih⟩

theorem turn_insert (id : Id) (now : Ms) (a : CreateJobArgs) :
    Always (fun v v' : World => Ordered v.shared → Turn v.shared v'.shared)
      (insertJobAndItems id now a) := by
  refine always_update _ (fun v h => ?_)
  have hgone : ∀ k, Stays JobStatus.terminal k v _ :=
    fun k => (stays_insertJobAndItems id now a v).1
  cases htransaction : createTransaction id now a v.shared.uuid v.shared.db with
  | error err => exact turn_tidy h (tidy_of_tables rfl rfl rfl (le_refl _))
  | ok db =>
    simp only [htransaction, Stays] at hgone
    have howned := insert_owned htransaction h.owned
    obtain ⟨rfl, hfresh, _, _, hdistinct⟩ := createTransaction_ok htransaction
    have hother : ∀ r ∈ v.shared.db.items, r.jobId ≠ id := by
      intro r hr hid
      obtain ⟨j, hj, hjob⟩ := List.mem_map.mp (h.owned r hr)
      exact hfresh j hj (hjob.trans hid)
    refine ⟨⟨fun _ hi => hi, hgone, le_refl _⟩, ⟨?_, howned, ?_, ?_⟩, Or.inl rfl⟩
    · rw [List.map_append]
      refine Serving.served_append h.served ?_ ?_ ?_
      · have hkeys := h.served.keys
        rw [List.map_map] at hkeys
        rw [← List.map_append, List.map_map]
        exact hdistinct hkeys
      · refine List.forall_mem_map.mpr (fun r hr => List.forall_mem_map.mpr (fun r' hr' hjob => ?_))
        exact hother r hr (hjob.trans (mem_newItems hr').1)
      · rw [List.pairwise_map]
        exact newItems_sorted
    · intro r hr r' hr' hjob hnew hnew'
      obtain hr | hr := List.mem_append.mp hr <;> obtain hr' | hr' := List.mem_append.mp hr'
      · exact h.even r hr r' hr' hjob hnew hnew'
      · exact absurd (hjob.trans (mem_newItems hr').1) (hother r hr)
      · exact absurd (hjob.symm.trans (mem_newItems hr).1) (hother r' hr')
      · exact (newItems_even r hr).1.trans (newItems_even r' hr').1.symm
    · intro r hr hnew
      obtain hr | hr := List.mem_append.mp hr
      · exact (h.waiting r hr hnew).imp_right (hgone _)
      · exact Or.inl (mem_newItems hr).2

end Turn

def contract : Contract Nat Shared Memory where
  inv := Ordered
  guar _ := Turn
  rely _ := Later
  idle _ v := ∀ t ∈ v.mem.inFlight, t.item.id ∈ firstClaims v.shared.trace
  rely_refl _ := later_refl
  rely_trans _ _ _ _ := later_trans
  idle_stable _ _ _ _ h hlater t ht := hlater.claims _ (h t ht)

structure Knows (items jobs : List Id) (v : World) : Prop where
  flight : ∀ t ∈ v.mem.inFlight, t.item.id ∈ firstClaims v.shared.trace
  items : ∀ i ∈ items, i ∈ firstClaims v.shared.trace
  jobs : ∀ id ∈ jobs, Gone id v.shared

def Under (items jobs : List Id) (v v' : World) : Prop :=
  Knows items jobs v → Ordered v.shared → Turn v.shared v'.shared ∧
    ∀ t ∈ v'.mem.inFlight, t ∈ v.mem.inFlight ∨ t.item.id ∈ items

abbrev Conduct (w : Nat) {α : Type} (p : Code α) (Q : α → World → Prop) (v : World) : Prop :=
  Wp (contract.Others w) (contract.Own w) p Q v

section Contract

variable {w : Nat} {v v' : World} {items jobs : List Id} {α : Type}

theorem knows_later (h : Knows items jobs v) (hlater : Later v.shared v'.shared)
    (hflight : ∀ t ∈ v'.mem.inFlight, t ∈ v.mem.inFlight ∨ t.item.id ∈ items) :
    Knows items jobs v' := by
  refine ⟨fun t ht => hlater.claims _ ?_, fun i hi => hlater.claims i (h.items i hi),
    fun id hid => hlater.gone id (h.jobs id hid)⟩
  obtain ht | hi := hflight t ht
  · exact h.flight t ht
  · exact h.items _ hi

theorem knows_others (h : Knows items jobs v) (hothers : contract.Others w v v') :
    Knows items jobs v' :=
  knows_later h hothers.2.1 (fun _ ht => Or.inl (hothers.1 ▸ ht))

theorem wp_under {p : Code α} (hp : Always (Under items jobs) p) (h : Knows items jobs v) :
    Conduct w p (fun _ => Knows items jobs) v := by
  refine Contract.wp_kept hp (fun _ _ => knows_others) (fun v v' hv hordered hunder => ?_) h
  obtain ⟨hturn, hflight⟩ := hunder hv hordered
  exact ⟨hturn, knows_later hv hturn.toLater hflight⟩

theorem under_tidy (h : Ordered v.shared → Knows items jobs v → Tidy v.shared v'.shared)
    (hmem : v'.mem.inFlight = v.mem.inFlight) : Under items jobs v v' :=
  fun hknows hordered => ⟨turn_tidy hordered (h hordered hknows), fun _ ht => Or.inl (hmem ▸ ht)⟩

theorem claims_custody (h : custody v' = custody v) :
    v'.shared.trace.filter isClaim = v.shared.trace.filter isClaim :=
  filter_of_custody (by intro e he; cases e <;> first | rfl | cases he) h

theorem under_quiet (hany : Any v v') (hcustody : custody v' = custody v)
    (horigins : origins v' = origins v) (hgone : ∀ id, Stays JobStatus.terminal id v v') :
    Under items jobs v v' := by
  have hitems : v'.shared.db.items = v.shared.db.items := congrArg Custody.items hcustody
  refine under_tidy (fun _ _ => ?_) (congrArg Custody.inFlight hcustody)
  exact tidy_of_items hitems (claims_custody hcustody)
    (fun _ hi => jobIds_of_origins horigins ▸ hi) hgone hany.now.ge

theorem under_itemless (h : Itemless v v') (hgone : ∀ id, Stays JobStatus.terminal id v v') :
    Under items jobs v v' := under_quiet h.toAny h.custody h.origins hgone

theorem under_aside : Lenient (Under items jobs) :=
  fun v v' h => under_itemless h.toItemless (fun _ => stays_aside v v' h)

theorem under_memo (h : Memo v v') : Under items jobs v v' :=
  under_itemless h.toItemless (fun _ => stays_memo h)

theorem under_web (h : Web v v') : Under items jobs v v' :=
  under_quiet h.toAny (web_custody h) (web_origins h) (fun _ => stays_web h)

theorem always_itemless {p : Code α} (h : Always Itemless p)
    (hgone : ∀ id, Always (Stays JobStatus.terminal id) p) : Always (Under items jobs) p :=
  always_mono (fun _ _ h => under_itemless h.1 h.2) (always_and h (always_forall hgone))

theorem under_updateJobs (q : Job → Bool) {f : Job → Job} (hf : ∀ j, jobOrigin (f j) = jobOrigin j)
    (hkeep : ∀ j, q j = true → j.status.terminal = true → (f j).status.terminal = true) :
    Always (Under items jobs) (updateJobs q f) :=
  always_itemless (itemless_updateJobs q hf)
    (fun _ => stays_updateJobs (fun j => congrArg JobOrigin.id (hf j)) (fun j _ => hkeep j))

theorem tidy_updateItems {s : Shared} {p : JobItem → Bool} {f : JobItem → JobItem}
    (hf : ∀ r, itemOrigin (f r) = itemOrigin r)
    (hp : ∀ r ∈ s.db.items, p r = true → r.id ∉ firstClaims s.trace →
      (f r).nextAttemptAt = r.nextAttemptAt ∧ ((f r).status = r.status ∨ Gone r.jobId s))
    {t : List Event} (ht : t.filter isClaim = s.trace.filter isClaim) :
    Tidy s { s with db.items := Table.update p f s.db.items, trace := t } := by
  have hclaims := firstClaims_of_claims ht
  refine ⟨⟨⟨fun _ hi => hclaims ▸ hi, fun _ => retired_of_jobs rfl, le_refl _⟩,
    ⟨_, rfl, fun r hr => ⟨?_, fun hnew => ?_⟩⟩, fun _ hi => hi⟩, ht⟩
  · split
    · exact hf r
    · rfl
  · split
    case isTrue hpr => exact hp r hr hpr (hclaims ▸ hnew)
    case isFalse => exact ⟨rfl, Or.inl rfl⟩

theorem claimed_item {i : Id} (hi : i ∈ items) (hknows : Knows items jobs v)
    (f : JobItem → JobItem) :
    ∀ r ∈ v.shared.db.items, decide (r.id = i) = true → r.id ∉ firstClaims v.shared.trace →
      (f r).nextAttemptAt = r.nextAttemptAt ∧ ((f r).status = r.status ∨ Gone r.jobId v.shared) :=
  fun _ _ hid hnew => absurd (of_decide_eq_true hid ▸ hknows.items i hi) hnew

theorem under_updateItem {i : Id} (hi : i ∈ items) {f : JobItem → JobItem}
    (hf : ∀ r, itemOrigin (f r) = itemOrigin r) :
    Always (Under items jobs) (updateItems (fun r => decide (r.id = i)) f) :=
  always_update _ (fun _ =>
    under_tidy (fun _ hknows => tidy_updateItems hf (claimed_item hi hknows f) rfl) rfl)

theorem under_updateItemRecord {i : Id} {f : JobItem → JobItem} {e : World → Event}
    (hi : i ∈ items) (hf : ∀ r, itemOrigin (f r) = itemOrigin r)
    (he : ∀ v, isClaim (e v) = false) :
    Always (Under items jobs) (updateItemsRecord (fun r => decide (r.id = i)) f e) := by
  refine always_update _ (fun v => under_tidy (fun _ hknows => ?_) rfl)
  exact tidy_updateItems hf (claimed_item hi hknows f)
    (List.filter_cons_of_neg (by simp [he v]))

theorem under_callCreateJob (a : CreateJobArgs) : Always (Under items jobs) (callCreateJob a) := by
  refine always_callCreateJob under_aside.tolerant a (fun id now v => ?_) (fun result v => ?_)
  · obtain ⟨hturn, hrest⟩ := turn_insert id now a v
    refine ⟨fun _ hordered => ⟨hturn hordered, fun t ht => Or.inl ?_⟩, trivial⟩
    cases htransaction : createTransaction id now a v.shared.uuid v.shared.db <;>
      simpa only [htransaction] using ht
  · refine under_tidy (fun _ _ => ?_) (by cases result <;> rfl)
    cases result <;> exact tidy_of_tables rfl rfl rfl (le_refl _)

theorem under_processItem (item : JobItem) (hi : item.id ∈ items) :
    Always (Under items jobs) (processItem item) := by
  refine always_processItem item ?_ (fun n => ?_) (fun n => always_exec (fun v => ?_))
  · refine always_markItemRunning under_aside.tolerant _
      (fun now => under_updateItem hi (fun _ => rfl))
      (fun id now => under_updateJobs _ (fun _ => rfl) (fun j hq hterminal => ?_))
    rw [(of_decide_eq_true hq).2] at hterminal
    cases hterminal
  · exact always_recordAttemptStart under_aside _ n
      (fun now => under_updateItemRecord hi (fun _ => rfl) (fun _ => rfl))
  · intro _ hordered
    refine ⟨turn_tidy hordered (tidy_of_tables rfl rfl rfl (le_refl _)), fun t ht => ?_⟩
    obtain ht | ht := List.mem_append.mp ht
    · exact Or.inl ht
    · obtain rfl := List.mem_singleton.mp ht
      exact Or.inr hi

theorem under_settledJob (q : Job → Bool) {status : JobStatus} (h : status.terminal = true)
    (now : Ms) : Always (Under items jobs) (updateJobs q (settledJob status now)) :=
  under_updateJobs q (fun _ => rfl) (fun _ _ _ => h)

theorem under_settle (jobId : Id) : Always (Under items jobs) (settle jobId) := by
  refine always_settle jobId ?_ (fun view => ?_)
  · exact always_checkJobCompletion under_aside jobId
      (fun _ now hstatus => under_settledJob _ hstatus now)
  · exact always_onJobSettled under_aside view (fun q f =>
      always_itemless (itemless_updateSchedules q f) (fun _ => stays_updateSchedules q f))

theorem under_recordOutcome (task : Task) (outcome : SendOutcome) (random : Nat)
    (hi : task.item.id ∈ items) :
    Always (Under items jobs) (recordOutcome task outcome random) := by
  refine always_recordOutcome under_aside (fun _ _ => under_memo) task outcome random
    (fun _ _ _ => ?_) (fun status _ _ _ => ?_)
  · exact always_scheduleRetry under_aside.tolerant _ _ _ _
      (fun _ => under_updateItemRecord hi (fun _ => rfl) (fun _ => rfl))
  · refine always_markItemTerminal under_aside.tolerant _
      (fun _ => under_updateItemRecord hi (fun _ => rfl) (fun _ => rfl))
      (fun _ now => under_updateJobs _ (addCounter_origin status now) (fun j _ hterminal => ?_))
    cases status <;> exact hterminal

theorem under_finish (i : Id) : Always (Under items jobs) (finish i) := by
  refine always_exec (fun v _ hordered => ?_)
  exact ⟨turn_tidy hordered (tidy_of_tables rfl rfl rfl (le_refl _)),
    fun t ht => Or.inl (List.mem_of_mem_eraseP ht)⟩

theorem under_recoverStaleClaims : Always (Under items jobs) recoverStaleClaims := by
  refine always_recoverStaleClaims under_aside.tolerant (fun now => always_update _ (fun v => ?_))
  have horigin : ∀ r, itemOrigin (recoveredItem now r) = itemOrigin r := fun _ => rfl
  refine under_tidy (fun hordered _ => tidy_updateItems horigin ?_ rfl) rfl
  intro r hr hstale hnew
  refine ⟨rfl, Or.inr ((hordered.waiting r hr hnew).resolve_left (fun hqueued => ?_))⟩
  simp [stale, hqueued] at hstale

theorem wp_read {β : Type} (f : World → β) (h : Knows items jobs v) :
    Conduct w (query f) (fun _ => Knows items jobs) v :=
  wp_under (always_read under_aside.tolerant f) h

theorem knows_none (h : Knows items jobs v) : Knows [] [] v :=
  ⟨h.flight, fun _ hi => absurd hi List.not_mem_nil, fun _ hid => absurd hid List.not_mem_nil⟩

theorem knows_idle (h : contract.idle w v) : Knows [] [] v :=
  ⟨h, fun _ hi => absurd hi List.not_mem_nil, fun _ hid => absurd hid List.not_mem_nil⟩

theorem wp_cancelJob (id : Id) (actor : Option String) (h : Knows [] [] v) :
    Conduct w (cancelJob id actor) (fun _ => Knows [] []) v := by
  have hid : ∀ (now : Ms) (j : Job), (settledJob .cancelled now j).id = j.id := fun _ _ => rfl
  have hterminal : JobStatus.cancelled.terminal = true := rfl
  refine wp_seq (wp_read _ h) (fun now v h => ?_)
  refine wp_seq (Q := fun changes v => Knows [] [] v ∧ (changes > 0 → Knows [] [id] v)) ?_ ?_
  · intro u hothers
    have hu := knows_others h hothers
    obtain ⟨hturn, hflight⟩ := (under_settledJob (fun j => decide (j.id = id ∧ ¬ j.status.terminal))
      hterminal now u).1 hu hothers.2.2
    have hknows := knows_later hu hturn.toLater hflight
    refine ⟨hturn, hknows, fun hchanges => ⟨hknows.flight, hknows.items, ?_⟩⟩
    refine List.forall_mem_singleton.mpr (retired_updateJobs (hid now) (fun j hjob => ?_) ?_)
    · cases hstatus : j.status.terminal with
      | true => simp [hjob, hstatus]
      | false => simp [hjob, settledJob, hterminal]
    · obtain ⟨j, hj, hmatch⟩ := List.countP_pos_iff.mp hchanges
      exact List.mem_map.mpr ⟨j, hj, (of_decide_eq_true hmatch).1⟩
  · rintro changes v ⟨h, hgone⟩
    split
    case isTrue hchanges =>
      refine wp_mono (fun _ _ => knows_none) (wp_under ?_ (hgone hchanges))
      refine always_bind (always_update _ (fun v => ?_)) (fun _ => ?_)
      · have horigin : ∀ r, itemOrigin (cancelledItem now r) = itemOrigin r := fun _ => rfl
        refine under_tidy (fun _ hknows => tidy_updateItems horigin ?_ rfl) rfl
        intro r _ hmatch _
        rw [decide_eq_true_eq] at hmatch
        exact ⟨rfl, Or.inr (hmatch.1 ▸ hknows.jobs id List.mem_cons_self)⟩
      · exact always_bind (always_recordEvent under_aside _ _)
          (fun _ => always_getJob under_aside.tolerant id)
    case isFalse => exact wp_under (always_getJob under_aside.tolerant id) h

theorem wp_claim (h : Knows [] [] v) :
    Conduct w claimNextItem (fun item v => match item with
      | none => Knows [] [] v
      | some item => Conduct w (processItem item) (fun _ => Knows [] []) v) v := by
  simp only [claimNextItem, dateNow, claimTransaction, wp_bind, wp_query, wp_update]
  intro v₁ h₁
  have hread : ∀ {u : World}, Ordered u.shared → Turn u.shared u.shared :=
    fun hu => ⟨later_refl _, hu, Or.inl rfl⟩
  refine ⟨hread h₁.2.2, fun v₂ h₂ => ?_⟩
  have hknows := knows_others (knows_others h h₁) h₂
  cases hrow : nextClaimable v₂.shared.db v₁.shared.now with
  | none => exact ⟨hread h₂.2.2, hknows⟩
  | some row =>
    have hturn := turn_claimRow h₂.2.2 hrow h₂.2.1.now
    refine ⟨hturn, ?_⟩
    have hflight : Knows [] [] (claimRow row v₁.shared.now v₂) :=
      knows_later hknows hturn.toLater (fun _ ht => Or.inl ht)
    have hclaimed : Knows [row.id] [] (claimRow row v₁.shared.now v₂) :=
      ⟨hflight.flight, List.forall_mem_singleton.mpr (List.mem_insert_iff.mpr (Or.inl rfl)),
        hflight.jobs⟩
    simp only [Option.map_some]
    split
    · exact hflight
    · rw [selectItem, wp_query]
      intro v₃ h₃
      have hclaimed := knows_others hclaimed h₃
      refine ⟨hread h₃.2.2, ?_⟩
      cases hitem : v₃.shared.db.item row.id with
      | none => exact knows_none hclaimed
      | some item =>
        obtain ⟨_, hid⟩ := Table.find_mem hitem
        have hmem : item.id ∈ [row.id] := List.mem_singleton.mpr hid
        exact wp_mono (fun _ _ => knows_none) (wp_under (under_processItem item hmem) hclaimed)

theorem wp_tick (h : Knows [] [] v) : Conduct w tick (fun _ => Knows [] []) v :=
  Statements.wp_tick (fun f _ hv => wp_read f hv)
    (fun hmemo _ hv => wp_under (always_mono (fun _ _ => under_memo) hmemo) hv)
    (fun _ hv => wp_claim hv) h

theorem wp_complete (i : Id) (outcome : SendOutcome) (random : Nat) (h : Knows [] [] v) :
    Conduct w (complete i outcome random) (fun _ => Knows [] []) v := by
  refine wp_seq (Q := fun task v => ∀ items, (∀ i ∈ items, ∃ t ∈ task, t.item.id = i) →
    Knows items [] v) ?_ ?_
  · intro u hothers
    have hu := knows_others h hothers
    refine ⟨⟨later_refl _, hothers.2.2, Or.inl rfl⟩, fun items hitems => ⟨hu.flight, ?_, hu.jobs⟩⟩
    intro k hk
    obtain ⟨t, ht, rfl⟩ := hitems k hk
    exact hu.flight t (List.mem_of_find?_eq_some ht)
  · intro task v hknows
    cases task with
    | none => exact hknows [] (fun _ hk => absurd hk List.not_mem_nil)
    | some task =>
      have htask : Knows [task.item.id] [] v :=
        hknows _ (List.forall_mem_singleton.mpr ⟨task, rfl, rfl⟩)
      refine wp_mono (fun _ _ => knows_none) (wp_under ?_ htask)
      refine always_bind (under_recordOutcome task outcome random List.mem_cons_self) (fun _ => ?_)
      exact always_bind (under_settle _) (fun _ => under_finish _)

theorem meets_work (w : Nat) (work : Work) : contract.Meets w work.code := by
  intro v hidle
  have h := knows_idle hidle
  refine wp_mono (fun _ _ (hknows : Knows [] [] _) => hknows.flight) ?_
  have hitemless : ∀ {p : Code Unit}, Always Itemless p →
      (∀ id, Always (Stays JobStatus.terminal id) p) → Conduct w p (fun _ => Knows [] []) v :=
    fun hp hgone => wp_under (always_itemless hp hgone) h
  have hweb : ∀ {p : Code Unit}, Always Web p → Conduct w p (fun _ => Knows [] []) v :=
    fun hp => wp_under (always_mono (fun _ _ => under_web) hp) h
  have hstays : ∀ id, Always (Stays JobStatus.terminal id) work.code :=
    fun _ => stays_work inactive_terminal work (Or.inl rfl)
  cases work with
  | recover => exact wp_under (always_bind under_recoverStaleClaims (fun _ => always_pure ())) h
  | call c =>
    cases c with
    | tick => exact wp_tick h
    | complete i outcome random => exact wp_complete i outcome random h
    | createJob args =>
      exact wp_under (always_bind (under_callCreateJob args) (fun _ => always_pure ())) h
    | cancelJob id actor => exact wp_seq (wp_cancelJob id actor h) (fun _ _ h => h)
    | pauseJob id actor =>
      exact hitemless (always_bind (itemless_pauseJob id actor) (fun _ => always_pure ())) hstays
    | resumeJob id actor =>
      exact hitemless (always_bind (itemless_resumeJob id actor) (fun _ => always_pure ())) hstays
    | createSchedule input => exact hitemless (itemless_create input) hstays
    | removeSchedule id => exact hitemless (itemless_remove id) hstays
    | runTickIfReady ready =>
      exact wp_under (always_runTickIfReady under_aside.tolerant under_callCreateJob (fun q f =>
        always_itemless (itemless_updateSchedules q f)
          (fun _ => stays_updateSchedules q f)) ready) h
    | setOutboundDisabled disabled actor reason => exact hweb (web_setOutboundDisabled _ _ _ _)
    | drainAndStop => exact hitemless itemless_drainAndStop hstays
    | request r ready => exact hweb (web_request r ready)
    | answered id answer ready => exact hweb (web_answered id answer ready)
    | delayOver id ready => exact hweb (web_delayOver id ready)
    | sweepExpiredIdempotencyKeys => exact hweb web_sweepExpiredIdempotencyKeys

end Contract

section Run

variable {C : Processes}

theorem ordered_initial (now : Ms) : Ordered { now := now } where
  served := Serving.served_nil
  owned := fun _ hr => absurd hr List.not_mem_nil
  even := fun _ hr => absurd hr List.not_mem_nil
  waiting := fun _ hr => absurd hr List.not_mem_nil

theorem honoured_initial (concurrency : Nat → Nat) (now : Ms) :
    contract.Honoured (initial concurrency now) :=
  ⟨ordered_initial now, fun _ _ ht => absurd ht List.not_mem_nil⟩

theorem tidy_die (w : Nat) (s : Shared) : Tidy s (die w s) := tidy_of_tables rfl rfl rfl (le_refl _)

theorem tidy_wait (ms : Nat) (s : Shared) : Tidy s (rules.wait ms s) :=
  tidy_of_tables rfl rfl rfl (Int.le_add_of_nonneg_right (Int.natCast_nonneg ms))

theorem honoured_step (h : contract.Honoured C) (a : Step) :
    Fair C.shared (rules.step C a).shared ∧ contract.Honoured (rules.step C a) := by
  have hsafe : ∀ {p : Nat → Prop} {s s' : Shared}, (Ordered s → Turn s s') →
      Contract.Safe Fair contract p s s' :=
    fun hturn hinv => ⟨(hturn hinv).fair, (hturn hinv).ordered, fun _ _ => (hturn hinv).toLater⟩
  refine Contract.honoured_step (T := Fair) meets_work (fun _ => Or.inl rfl)
    (fun _ _ _ hturn => hsafe (fun _ => hturn)) (fun w s => hsafe ?_)
    (fun _ _ _ _ ht => absurd ht List.not_mem_nil) (fun ms s => hsafe ?_) h a
  · exact fun hinv => turn_tidy hinv (tidy_die w s)
  · exact fun hinv => turn_tidy hinv (tidy_wait ms s)

theorem ordered_run (concurrency : Nat → Nat) (now : Ms) (as : List Step) :
    Ordered (run (initial concurrency now) as).shared :=
  (play_invariant_all contract.Honoured (fun _ a hC => (honoured_step hC a).2)
    (honoured_initial concurrency now) as).inv

/-- The items of a job in the table, and the places that were claimed. -/
theorem claimOrder_origins (s : Shared) (id : Id) :
    claimOrder s id = (Serving.ranks ItemOrigin.id ItemOrigin.seq
      ((s.db.items.map itemOrigin).filter (fun o => decide (o.jobId = id)))
      (firstClaims s.trace)).reverse := by
  have hfind : ∀ i : Id, (Table.find (·.id) i (s.db.itemsOf id)).map (·.seq) =
      (Table.find ItemOrigin.id i ((s.db.items.map itemOrigin).filter
        (fun o => decide (o.jobId = id)))).map ItemOrigin.seq := by
    intro i
    rw [List.filter_map, Table.find, Table.find, List.find?_map, Option.map_map]
    rfl
  simp only [claimOrder, Serving.ranks, hfind]

/-- However the processes race, and whatever is retried, paused, resumed or recovered: the
items of a job are claimed for the first time in their order, and every claim takes the
claimable item that is due first, of those due at the same time the one inserted first. -/
theorem claims_in_order (concurrency : Nat → Nat) (now : Ms) (as : List Step) :
    (∀ id, (claimOrder (run (initial concurrency now) as).shared id).Pairwise
      (fun n n' => n < n')) ∧ Along (fun C a => Fair C.shared (rules.step C a).shared) rules.step
        (initial concurrency now) as := by
  refine ⟨fun id => ?_, ?_⟩
  · rw [claimOrder_origins, List.pairwise_reverse]
    exact Serving.ranks_ordered (ordered_run concurrency now as).served _
      (fun _ => of_decide_eq_true)
  · exact along_invariant_all contract.Honoured (fun _ a hC => honoured_step hC a)
      (honoured_initial concurrency now) as

/-- Two workers share the items of a job. -/
example :
    let args : CreateJobArgs :=
      { type := "bulk", items := [⟨some "1", none, some "one"⟩, ⟨some "2", none, some "two"⟩] }
    let as := steps 0 (.call (.createJob args)) 7 ++ steps 1 (.call .tick) 20 ++
      steps 2 (.call .tick) 20
    claimOrder (run (initial (fun _ => 1) 0) as).shared 0 = [0, 1] := by decide +kernel

end Run

end WhatsappTester.Jobs.Order
