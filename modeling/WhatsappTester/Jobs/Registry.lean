import WhatsappTester.Cluster
import WhatsappTester.Statements

namespace WhatsappTester.Jobs.Registry

open Schema State Atomic Atomic.Program Atomic.Interleaving Statements JobService

def insertedId : Event → Option Id
  | .jobInserted _ id _ => some id
  | _ => none

def createdId : Event → Option Id
  | .createReturned _ _ ⟨some view, true⟩ => some view.job.id
  | _ => none

def isOf (w : Nat) : Event → Bool
  | .jobInserted u _ _ | .createReturned u _ _ => decide (u = w)
  | _ => false

abbrev Content := Nat × String × String × String

def content (o : ItemOrigin) : Content := (o.seq, o.recipientNumber, o.recipientName, o.message)

def contents (a : CreateJobArgs) : List Content :=
  a.items.mapIdx (fun i item => (i, item.number.getD "", item.name.getD "", item.message.getD ""))

def itemsOf (O : Origins) (id : Id) : List ItemOrigin :=
  O.items.filter (fun o => decide (o.jobId = id))

/-- A view of a job that is in the tables, with all its items. -/
structure Shows (O : Origins) (view : JobView) : Prop where
  job : jobOrigin view.job ∈ O.jobs
  items : view.items.map itemOrigin = itemsOf O view.job.id

/-- A call returns the job that carries its key, and says that it created the
job only if it did. -/
structure Returned (O : Origins) (w : Nat) (a : CreateJobArgs) (r : CreateResult) : Prop where
  created : r.created = true → ∃ view, r.job = some view ∧ .jobInserted w view.job.id a ∈ O.events
  keyed : ∀ k, a.idempotencyKey = some k → k ≠ "" →
    ∃ view, r.job = some view ∧ Shows O view ∧ view.job.idempotencyKey = some k

/-- The tables of jobs and items tell what the calls of `createJob` did. -/
structure Register (O : Origins) : Prop where
  ids : (O.jobs.map (·.id)).Nodup
  keys : ∀ j ∈ O.jobs, ∀ j' ∈ O.jobs, j.idempotencyKey.isSome →
    j.idempotencyKey = j'.idempotencyKey → j = j'
  owned : ∀ o ∈ O.items, o.jobId ∈ O.jobs.map (·.id)
  inserted : ∀ j ∈ O.jobs, ∃ w a, .jobInserted w j.id a ∈ O.events
  filed : ∀ w id a, .jobInserted w id a ∈ O.events → ∃ j ∈ O.jobs, j.id = id ∧
    j.total = a.items.length ∧ j.idempotencyKey = a.idempotencyKey ∧
      (itemsOf O id).map content = contents a
  once : (O.events.filterMap insertedId).Nodup
  created : (O.events.filterMap createdId).Nodup
  returned : ∀ w a r, .createReturned w a r ∈ O.events → Returned O w a r

theorem jobs_nodup {s : Shared} (h : Register (originsOf s)) : (s.db.jobs.map (·.id)).Nodup := by
  simpa only [originsOf, List.map_map, Function.comp_def, jobOrigin] using h.ids

theorem register_origins {v w : World} (h : Register (originsOf v.shared))
    (heq : origins w = origins v) :
    Register (originsOf w.shared) := by
  rw [show originsOf w.shared = originsOf v.shared from heq]
  exact h

/-- What a process counts on: jobs and their items stay as they are, and nobody
else writes its history. -/
structure Grows (w : Nat) (O O' : Origins) : Prop where
  jobs : ∀ j ∈ O.jobs, j ∈ O'.jobs
  items : ∀ j ∈ O.jobs, itemsOf O' j.id = itemsOf O j.id
  events : ∀ e ∈ O.events, e ∈ O'.events
  own : O'.events.filter (isOf w) = O.events.filter (isOf w)

theorem Grows.refl (w : Nat) (O : Origins) : Grows w O O :=
  ⟨fun _ h => h, fun _ _ => rfl, fun _ h => h, rfl⟩

theorem Grows.trans {w : Nat} {O O' O'' : Origins} (h : Grows w O O') (h' : Grows w O' O'') :
    Grows w O O'' :=
  ⟨fun j hj => h'.jobs j (h.jobs j hj), fun j hj => (h'.items j (h.jobs j hj)).trans (h.items j hj),
    fun e he => h'.events e (h.events e he), h'.own.trans h.own⟩

theorem Returned.grows {w : Nat} {O O' : Origins} {a : CreateJobArgs} {r : CreateResult}
    (h : Returned O w a r) (hjobs : ∀ j ∈ O.jobs, j ∈ O'.jobs)
    (hitems : ∀ j ∈ O.jobs, itemsOf O' j.id = itemsOf O j.id)
    (hevents : ∀ e ∈ O.events, e ∈ O'.events) :
    Returned O' w a r := by
  refine ⟨?_, ?_⟩
  · intro hcreated
    obtain ⟨view, hview, hinserted⟩ := h.created hcreated
    exact ⟨view, hview, hevents _ hinserted⟩
  · intro k hk hne
    obtain ⟨view, hview, hshows, hkey⟩ := h.keyed k hk hne
    exact ⟨view, hview, ⟨hjobs _ hshows.job, hshows.items.trans (hitems _ hshows.job).symm⟩, hkey⟩

theorem newItems_content (id : Id) (now : Ms) (first : Id) (seq : Nat) (items : List NewItem) :
    ((newItems id now first seq items).map itemOrigin).map content =
      items.mapIdx (fun i item =>
        (seq + i, item.number.getD "", item.name.getD "", item.message.getD "")) := by
  induction items generalizing first seq with
  | nil => rfl
  | cons item items ih =>
    simp only [newItems, List.map_cons, ih, List.mapIdx_cons]
    simp [itemOrigin, newItem, content, Nat.add_assoc, Nat.add_comm 1]

theorem newItems_jobId {id : Id} {now : Ms} {first : Id} {seq : Nat} {items : List NewItem} :
    ∀ o ∈ (newItems id now first seq items).map itemOrigin, o.jobId = id := by
  intro o ho
  obtain ⟨r, hr, rfl⟩ := List.mem_map.mp ho
  exact (mem_newItems hr).1

section Steps

variable {O : Origins} {w : Nat} {a : CreateJobArgs}

def afterInsert (O : Origins) (w : Nat) (id : Id) (now : Ms) (a : CreateJobArgs) (first : Id) :
    Origins :=
  ⟨O.items ++ (newItems id now first 0 a.items).map itemOrigin,
    O.jobs ++ [jobOrigin (newJob id now a)], .jobInserted w id a :: O.events⟩

theorem itemsOf_insert_old {id k : Id} (hk : k ≠ id) (now : Ms) (first : Id) :
    itemsOf (afterInsert O w id now a first) k = itemsOf O k := by
  have hnew : ((newItems id now first 0 a.items).map itemOrigin).filter
      (fun o => decide (o.jobId = k)) = [] := by
    rw [List.filter_eq_nil_iff]
    intro o ho
    simpa [newItems_jobId o ho] using hk.symm
  simp [itemsOf, afterInsert, List.filter_append, hnew]

theorem itemsOf_insert_new (h : Register O) {id : Id} (hid : ∀ j ∈ O.jobs, j.id ≠ id) (now : Ms)
    (first : Id) :
    itemsOf (afterInsert O w id now a first) id =
    (newItems id now first 0 a.items).map itemOrigin := by
  have hold : O.items.filter (fun o => decide (o.jobId = id)) = [] := by
    rw [List.filter_eq_nil_iff]
    intro o ho
    obtain ⟨j, hj, hjob⟩ := List.mem_map.mp (h.owned o ho)
    simpa [← hjob] using hid j hj
  have hnew : ((newItems id now first 0 a.items).map itemOrigin).filter
      (fun o => decide (o.jobId = id)) = (newItems id now first 0 a.items).map itemOrigin :=
    List.filter_eq_self.mpr (fun o ho => by simp [newItems_jobId o ho])
  simp only [itemsOf, afterInsert, List.filter_append, hold, hnew, List.nil_append]

theorem grows_insert {id : Id} (hid : ∀ j ∈ O.jobs, j.id ≠ id) (now : Ms) (first : Id)
    {u : Nat} (hu : u ≠ w) : Grows u O (afterInsert O w id now a first) :=
  ⟨fun _ hj => List.mem_append_left _ hj, fun j hj => itemsOf_insert_old (hid j hj) now first,
    fun _ he => List.mem_cons_of_mem _ he, by simp [afterInsert, isOf, hu.symm]⟩

theorem register_insert (h : Register O) {id : Id} (hid : ∀ j ∈ O.jobs, j.id ≠ id)
    (hkey : a.idempotencyKey.isSome → ∀ j ∈ O.jobs, j.idempotencyKey ≠ a.idempotencyKey) (now : Ms)
    (first : Id) : Register (afterInsert O w id now a first) where
  ids := by
    simp only [afterInsert, List.map_append, List.map_cons, List.map_nil]
    refine List.nodup_append.mpr ⟨h.ids, List.nodup_singleton _, ?_⟩
    simpa [jobOrigin, newJob] using hid
  keys := by
    have hnew : ∀ j ∈ O.jobs, a.idempotencyKey.isSome → j.idempotencyKey ≠ a.idempotencyKey :=
      fun j hj hsome => hkey hsome j hj
    intro j hj j' hj' hsome heq
    simp only [afterInsert, List.mem_append, List.mem_singleton] at hj hj'
    obtain hj | rfl := hj
    · obtain hj' | rfl := hj'
      · exact h.keys j hj j' hj' hsome heq
      · have heq : j.idempotencyKey = a.idempotencyKey := heq
        exact absurd heq (hnew j hj (heq ▸ hsome))
    · obtain hj' | rfl := hj'
      · exact absurd heq.symm (hnew j' hj' hsome)
      · rfl
  owned := by
    intro o ho
    simp only [afterInsert, List.mem_append, List.map_append] at ho ⊢
    obtain ho | ho := ho
    · exact Or.inl (h.owned o ho)
    · exact Or.inr (by simp [newItems_jobId o ho, jobOrigin, newJob])
  inserted := by
    intro j hj
    simp only [afterInsert, List.mem_append, List.mem_singleton] at hj
    obtain hj | rfl := hj
    · obtain ⟨u, b, hb⟩ := h.inserted j hj
      exact ⟨u, b, List.mem_cons_of_mem _ hb⟩
    · exact ⟨w, a, List.mem_cons_self⟩
  filed := by
    intro u k b hb
    cases hb with
    | head =>
      refine ⟨jobOrigin (newJob id now a), List.mem_append_right _ List.mem_cons_self,
        rfl, rfl, rfl, ?_⟩
      rw [itemsOf_insert_new h hid, newItems_content]
      simp only [contents, Nat.zero_add]
    | tail _ hb =>
      obtain ⟨j, hj, rfl, htotal, hkey', hcontents⟩ := h.filed u k b hb
      refine ⟨j, List.mem_append_left _ hj, rfl, htotal, hkey', ?_⟩
      rw [itemsOf_insert_old (hid j hj), hcontents]
  once := by
    simp only [afterInsert, List.filterMap_cons, insertedId, List.nodup_cons]
    refine ⟨?_, h.once⟩
    intro hmem
    obtain ⟨e, he, heq⟩ := List.mem_filterMap.mp hmem
    cases e with
    | jobInserted u k b =>
      cases heq
      obtain ⟨j, hj, hjid, _⟩ := h.filed _ _ _ he
      exact hid j hj hjid
    | _ => cases heq
  created := by simpa [afterInsert, createdId, List.filterMap_cons] using h.created
  returned := by
    intro u b r hr
    have hr : .createReturned u b r ∈ O.events := List.mem_of_ne_of_mem (by simp) hr
    exact (h.returned u b r hr).grows (fun _ hj => List.mem_append_left _ hj)
      (fun j hj => itemsOf_insert_old (hid j hj) now first) (fun _ he => List.mem_cons_of_mem _ he)

def afterReturn (O : Origins) (w : Nat) (a : CreateJobArgs) (r : CreateResult) : Origins :=
  ⟨O.items, O.jobs, .createReturned w a r :: O.events⟩

theorem grows_return {r : CreateResult} {u : Nat} (hu : u ≠ w) : Grows u O (afterReturn O w a r) :=
  ⟨fun _ hj => hj, fun _ _ => rfl, fun _ he => List.mem_cons_of_mem _ he,
    by simp [afterReturn, isOf, hu.symm]⟩

theorem register_return (h : Register O) {r : CreateResult} (hr : Returned O w a r)
    (hfirst : ∀ id, createdId (.createReturned w a r) = some id →
      id ∉ O.events.filterMap createdId) :
    Register (afterReturn O w a r) where
  ids := h.ids
  keys := h.keys
  owned := h.owned
  inserted := by
    intro j hj
    obtain ⟨u, b, hb⟩ := h.inserted j hj
    exact ⟨u, b, List.mem_cons_of_mem _ hb⟩
  filed := fun u k b hb => h.filed u k b (List.mem_of_ne_of_mem (by simp) hb)
  once := by simpa [afterReturn, insertedId, List.filterMap_cons] using h.once
  created := by
    rw [afterReturn, List.filterMap_cons]
    cases hid : createdId (.createReturned w a r) with
    | none => exact h.created
    | some id => exact List.nodup_cons.mpr ⟨hfirst id hid, h.created⟩
  returned := by
    have hgrows : ∀ u b r', Returned O u b r' → Returned (afterReturn O w a r) u b r' :=
      fun u b r' h' => h'.grows (fun _ hj => hj) (fun _ _ => rfl)
        (fun _ he => List.mem_cons_of_mem _ he)
    intro u b r' hr'
    cases hr' with
    | head => exact hgrows w a r hr
    | tail _ hr' => exact hgrows u b r' (h.returned u b r' hr')

end Steps

def contract : Contract Nat Shared Memory where
  inv s := Register (originsOf s)
  guar w s s' := Register (originsOf s') ∧ ∀ u, u ≠ w → Grows u (originsOf s) (originsOf s')
  rely w s s' := Grows w (originsOf s) (originsOf s')
  idle w v := v.mem.pid = w
  rely_refl w _ := Grows.refl w _
  rely_trans _ _ _ _ := Grows.trans
  idle_stable _ _ _ _ h _ := h

abbrev Conduct (w : Nat) {α : Type} (p : Code α) (Q : α → World → Prop) (v : World) : Prop :=
  Wp (contract.Others w) (contract.Own w) p Q v

def Local (w : Nat) (A : World → Prop) : Prop :=
  ∀ v v', A v → v'.mem.pid = v.mem.pid → Grows w (origins v) (origins v') → A v'

def Quiet (v v' : World) : Prop := v'.mem.pid = v.mem.pid ∧ origins v' = origins v

theorem quiet_write {v v' : World} (h : Write v v') : Quiet v v' := ⟨h.pid, h.origins⟩

theorem quiet_itemless {v v' : World} (h : Itemless v v') : Quiet v v' := quiet_write h.toWrite

theorem quiet_aside : Lenient Quiet := fun _ _ h => quiet_write (write_of_aside h)

theorem quiet_web {v v' : World} (h : Web v v') : Quiet v v' := ⟨h.pid, web_origins h⟩

section Creating

variable {w : Nat} {v v' : World} {A : World → Prop} {α : Type}

theorem local_others (hA : Local w A) (h : A v) (hr : contract.Others w v v') : A v' :=
  hA v v' h (congrArg (·.pid) hr.1) hr.2.1

theorem own_quiet (hinv : contract.inv v.shared) (h : Quiet v v') : contract.Own w v v' := by
  have heq : originsOf v'.shared = originsOf v.shared := h.2
  refine ⟨heq ▸ hinv, fun u _ => ?_⟩
  rw [heq]
  exact Grows.refl u _

theorem wp_quiet (hA : Local w A) {p : Code α} (hp : Always Quiet p) (h : A v) :
    Conduct w p (fun _ => A) v := by
  refine Contract.wp_kept hp (fun v v' => local_others hA) (fun v v' hv hinv hq => ?_) h
  exact ⟨own_quiet hinv hq, hA v v' hv hq.1 (hq.2 ▸ Grows.refl w _)⟩

theorem wp_select {f : World → α} {Q : α → World → Prop} (hA : Local w A)
    (hQ : ∀ v, A v → contract.inv v.shared → Q (f v) v) (h : A v) : Conduct w (query f) Q v := by
  intro v' hr
  exact ⟨own_quiet hr.2.2 ⟨rfl, rfl⟩, hQ v' (local_others hA h hr) hr.2.2⟩

theorem local_pid : Local w (fun v => v.mem.pid = w) := fun _ _ h hpid _ => hpid.trans h

theorem contents_sorted (a : CreateJobArgs) : (contents a).Pairwise (fun x y => x.1 ≤ y.1) := by
  rw [List.pairwise_iff_getElem]
  intro i j hi hj hij
  simpa [contents] using hij.le

/-- The items of a job come out of the table in their order. -/
theorem items_sorted (hinv : Register (originsOf v.shared)) {j : Job} (hj : j ∈ v.shared.db.jobs) :
    (((v.shared.db.itemsOf j.id).insertionSort (fun r r' => r.seq ≤ r'.seq)).map itemOrigin) =
      itemsOf (origins v) j.id := by
  have hitems : (v.shared.db.itemsOf j.id).map itemOrigin = itemsOf (origins v) j.id := by
    simp only [Db.itemsOf, itemsOf, origins, originsOf, List.filter_map, Function.comp_def]
    rfl
  obtain ⟨u, b, hb⟩ := hinv.inserted (jobOrigin j) (List.mem_map_of_mem hj)
  obtain ⟨_, _, _, _, _, hcontents⟩ := hinv.filed u _ b hb
  have hsorted := contents_sorted b
  rw [← hcontents, List.pairwise_map] at hsorted
  have hrows : (itemsOf (origins v) j.id).Pairwise (fun x y => (content x).1 ≤ (content y).1) :=
    hsorted
  rw [← hitems, List.pairwise_map] at hrows
  have hseq : (v.shared.db.itemsOf j.id).Pairwise (fun r r' => r.seq ≤ r'.seq) := hrows
  rw [hseq.insertionSort_eq, hitems]

theorem wp_getJob (hA : Local w A) {id : Id} {k : Option String}
    (hjob : ∀ v, A v → ∃ j ∈ (origins v).jobs, j.id = id ∧ j.idempotencyKey = k) (h : A v) :
    Conduct w (getJob id) (fun job v => A v ∧ ∃ view, job = some view ∧ Shows (origins v) view ∧
      view.job.id = id ∧ view.job.idempotencyKey = k) v := by
  refine wp_seq (wp_select (Q := fun job v => A v ∧ ∃ row, job = some row ∧
    jobOrigin row ∈ (origins v).jobs ∧ row.id = id ∧ row.idempotencyKey = k) hA ?_ h) ?_
  · intro u hu hinv
    obtain ⟨o, ho, hid, hkey⟩ := hjob u hu
    obtain ⟨row, hrow, rfl⟩ := List.mem_map.mp ho
    refine ⟨hu, row, ?_, ho, hid, hkey⟩
    rw [Db.job, ← hid]
    exact Table.find_eq_some (jobs_nodup hinv) hrow
  · rintro job u ⟨hu, row, rfl, hrow, hid, hkey⟩
    refine wp_seq (wp_select (A := fun v => A v ∧ jobOrigin row ∈ (origins v).jobs)
      (Q := fun items v => A v ∧ Shows (origins v) ⟨row, items⟩) ?_ ?_ ⟨hu, hrow⟩) ?_
    · exact fun v v' hv hpid hg => ⟨hA v v' hv.1 hpid hg, hg.jobs _ hv.2⟩
    · rintro x ⟨hx, hmem⟩ hinv
      obtain ⟨row', hrow', horigin⟩ := List.mem_map.mp hmem
      have hsame : row'.id = id := (congrArg JobOrigin.id horigin).trans hid
      have := items_sorted hinv hrow'
      rw [hsame, ← hid] at this
      exact ⟨hx, hmem, hid ▸ this⟩
    · rintro items x ⟨hx, hshows⟩
      exact ⟨hx, ⟨row, items⟩, rfl, hshows, hid, hkey⟩

def Returning (w : Nat) (a : CreateJobArgs) (r : CreateResult) (v : World) : Prop :=
  v.mem.pid = w ∧ Returned (origins v) w a r ∧
    ∀ id, createdId (.createReturned w a r) = some id → .jobInserted w id a ∈ (origins v).events ∧
      ∀ e ∈ (origins v).events, isOf w e → createdId e ≠ some id

theorem isOf_grows {O O' : Origins} (hg : Grows w O O') {e : Event} (he : e ∈ O'.events)
    (hw : isOf w e) :
    e ∈ O.events := by
  have hmem : e ∈ O'.events.filter (isOf w) := List.mem_filter.mpr ⟨he, hw⟩
  rw [hg.own] at hmem
  exact (List.mem_filter.mp hmem).1

theorem local_returning (a : CreateJobArgs) (r : CreateResult) : Local w (Returning w a r) := by
  rintro v v' ⟨hpid, hreturned, hcreated⟩ hpid' hg
  refine ⟨hpid'.trans hpid, hreturned.grows hg.jobs hg.items hg.events, ?_⟩
  intro id hid
  obtain ⟨hinserted, hfirst⟩ := hcreated id hid
  exact ⟨hg.events _ hinserted, fun e he hw => hfirst e (isOf_grows hg he hw) hw⟩

theorem wp_existing {a : CreateJobArgs} {existing : Id}
    (h : v.mem.pid = w ∧ ∃ k, a.idempotencyKey = some k ∧
      ∃ j ∈ (origins v).jobs, j.id = existing ∧ j.idempotencyKey = some k) :
    Conduct w (do
      let job ← getJob existing
      pure (.ok ⟨job, false⟩ : Except SqlError CreateResult))
      (fun result v => ∃ r, result = .ok r ∧ Returning w a r v) v := by
  obtain ⟨hpid, k, hk, hjob⟩ := h
  have hlocal : Local w (fun v => v.mem.pid = w ∧
      ∃ j ∈ (origins v).jobs, j.id = existing ∧ j.idempotencyKey = some k) := by
    rintro v v' ⟨hv, j, hj, hid, hkey⟩ hpid hg
    exact ⟨hpid.trans hv, j, hg.jobs j hj, hid, hkey⟩
  refine wp_seq (wp_getJob hlocal (fun _ hv => hv.2) ⟨hpid, hjob⟩) ?_
  rintro job u ⟨⟨hu, _⟩, view, rfl, hshows, _, hkey⟩
  refine ⟨_, rfl, hu, ⟨by simp, ?_⟩, ?_⟩
  · intro k' hk' _
    rw [hk] at hk'
    cases hk'
    exact ⟨view, rfl, hshows, hkey⟩
  · intro id hid
    cases hid

theorem wp_selectKey {a : CreateJobArgs} (h : v.mem.pid = w) :
    Conduct w (selectKey a.idempotencyKey) (fun existing v => v.mem.pid = w ∧
      ∀ id, existing = some id → ∃ k, a.idempotencyKey = some k ∧
        ∃ j ∈ (origins v).jobs, j.id = id ∧ j.idempotencyKey = some k) v := by
  cases hkey : a.idempotencyKey with
  | none => exact ⟨h, fun id hid => by cases hid⟩
  | some k =>
    simp only [selectKey]
    split
    · exact ⟨h, fun id hid => by cases hid⟩
    · refine wp_select local_pid ?_ h
      intro u hu _
      refine ⟨hu, ?_⟩
      intro id hid
      obtain ⟨row, hrow, rfl⟩ := Option.map_eq_some_iff.mp hid
      refine ⟨k, rfl, jobOrigin row, List.mem_map_of_mem (List.mem_of_find?_eq_some hrow), rfl, ?_⟩
      simpa [jobOrigin] using List.find?_some hrow

theorem inserted_of_created {O : Origins} (h : Register O) {e : Event} (he : e ∈ O.events) {id : Id}
    (hid : createdId e = some id) :
    ∃ u b r, e = .createReturned u b r ∧ .jobInserted u id b ∈ O.events := by
  cases e with
  | createReturned u b r =>
    obtain ⟨job, created⟩ := r
    cases job with
    | none => cases hid
    | some view =>
      cases created with
      | false => cases hid
      | true =>
        obtain ⟨view', hview, hinserted⟩ := (h.returned u b _ he).created rfl
        cases hview
        cases hid
        exact ⟨u, b, _, rfl, hinserted⟩
  | _ => cases hid

def Inserted (w : Nat) (id : Id) (a : CreateJobArgs) (v : World) : Prop :=
  v.mem.pid = w ∧ .jobInserted w id a ∈ (origins v).events ∧
    (∀ e ∈ (origins v).events, isOf w e → createdId e ≠ some id) ∧
    ∃ j ∈ (origins v).jobs, j.id = id ∧ j.idempotencyKey = a.idempotencyKey

theorem local_inserted (id : Id) (a : CreateJobArgs) : Local w (Inserted w id a) := by
  rintro v v' ⟨hpid, hinserted, hfirst, j, hj, hid, hkey⟩ hpid' hg
  exact ⟨hpid'.trans hpid, hg.events _ hinserted,
    fun e he hw => hfirst e (isOf_grows hg he hw) hw, j, hg.jobs j hj, hid, hkey⟩

theorem wp_insertJobAndItems (id : Id) (now : Ms) (a : CreateJobArgs) (h : v.mem.pid = w) :
    Conduct w (insertJobAndItems id now a) (fun result v => v.mem.pid = w ∧
      (result = .ok () → Inserted w id a v)) v := by
  intro u hr
  have hu := local_others local_pid h hr
  have hinv : Register (originsOf u.shared) := hr.2.2
  cases htransaction : createTransaction id now a u.shared.uuid u.shared.db with
  | error err =>
    simp only [htransaction]
    exact ⟨own_quiet hinv ⟨rfl, rfl⟩, hu, fun hok => by cases hok⟩
  | ok db =>
    simp only [htransaction]
    obtain ⟨hdb, hid, hkey, _⟩ := createTransaction_ok htransaction
    have hid' : ∀ j ∈ (originsOf u.shared).jobs, j.id ≠ id := by
      simpa [originsOf, jobOrigin] using hid
    have hkey' : a.idempotencyKey.isSome →
        ∀ j ∈ (originsOf u.shared).jobs, j.idempotencyKey ≠ a.idempotencyKey := by
      simpa [originsOf, jobOrigin] using hkey
    have hafter : originsOf { u.shared with
        db := db
        uuid := u.shared.uuid + a.items.length
        trace := .jobInserted u.mem.pid id a :: u.shared.trace } =
        afterInsert (originsOf u.shared) w id now a u.shared.uuid := by
      subst hdb
      simp [originsOf, afterInsert, List.filter_cons, isCreation, hu]
    have hregister := register_insert hinv hid' hkey' now u.shared.uuid (w := w)
    refine ⟨⟨?_, ?_⟩, hu, fun _ => ⟨hu, ?_⟩⟩
    · rw [hafter]
      exact hregister
    · intro x hx
      rw [hafter]
      exact grows_insert hid' now u.shared.uuid hx
    · rw [origins, hafter]
      refine ⟨List.mem_cons_self, ?_, _, List.mem_append_right _ List.mem_cons_self, rfl, rfl⟩
      intro e he _ hcreated
      cases he with
      | head => cases hcreated
      | tail _ he =>
        obtain ⟨u', b, _, _, hinserted⟩ := inserted_of_created hinv he hcreated
        obtain ⟨j, hj, hjid, _⟩ := hinv.filed u' id b hinserted
        exact hid' j hj hjid

theorem eq_of_nodup_filterMap {β γ : Type} {f : β → Option γ} {l : List β}
    (hn : (l.filterMap f).Nodup) {x y : β} {c : γ} (hx : x ∈ l) (hy : y ∈ l) (hfx : f x = some c)
    (hfy : f y = some c) : x = y := by
  induction l with
  | nil => cases hx
  | cons b l ih =>
    have hmem : ∀ z ∈ l, f z = some c → c ∈ l.filterMap f :=
      fun z hz hfz => List.mem_filterMap.mpr ⟨z, hz, hfz⟩
    cases hb : f b with
    | none =>
      rw [List.filterMap_cons_none hb] at hn
      cases hx with
      | head => rw [hfx] at hb; cases hb
      | tail _ hx =>
        cases hy with
        | head => rw [hfy] at hb; cases hb
        | tail _ hy => exact ih hn hx hy
    | some d =>
      rw [List.filterMap_cons_some hb, List.nodup_cons] at hn
      cases hx with
      | head =>
        rw [hfx] at hb
        cases hb
        cases hy with
        | head => rfl
        | tail _ hy => exact absurd (hmem y hy hfy) hn.1
      | tail _ hx =>
        cases hy with
        | head =>
          rw [hfy] at hb
          cases hb
          exact absurd (hmem x hx hfx) hn.1
        | tail _ hy => exact ih hn.2 hx hy

theorem wp_returned {a : CreateJobArgs} {r : CreateResult} (h : Returning w a r v) :
    Conduct w (exec (returned a (.ok r))) (fun _ v => v.mem.pid = w) v := by
  intro u hr
  obtain ⟨hpid, hreturned, hcreated⟩ := local_others (local_returning a r) h hr
  have hinv : Register (originsOf u.shared) := hr.2.2
  have hafter : originsOf (returned a (.ok r) u).shared =
      afterReturn (originsOf u.shared) w a r := by
    simp [returned, originsOf, afterReturn, List.filter_cons, isCreation, hpid]
  refine ⟨⟨?_, ?_⟩, hpid⟩
  · rw [hafter]
    refine register_return hinv hreturned ?_
    intro id hid hmem
    obtain ⟨e, he, hcreatedId⟩ := List.mem_filterMap.mp hmem
    obtain ⟨hinserted, hfirst⟩ := hcreated id hid
    obtain ⟨u', b, r', rfl, hinserted'⟩ := inserted_of_created hinv he hcreatedId
    have heq := eq_of_nodup_filterMap hinv.once hinserted hinserted' rfl rfl
    have hw : isOf w (.createReturned u' b r') := decide_eq_true (Event.jobInserted.inj heq).1.symm
    exact hfirst _ he hw hcreatedId
  · intro x hx
    rw [hafter]
    exact grows_return hx

theorem wp_created {a : CreateJobArgs} {id : Id} (h : Inserted w id a v) :
    Conduct w (do
      let job ← getJob id
      pure (.ok ⟨job, true⟩ : Except SqlError CreateResult))
      (fun result v => ∃ r, result = .ok r ∧ Returning w a r v) v := by
  refine wp_seq (wp_getJob (local_inserted id a) (fun _ hv => hv.2.2.2) h) ?_
  rintro job u ⟨⟨hpid, hinserted, hfirst, _⟩, view, rfl, hshows, hid, hkey⟩
  refine ⟨_, rfl, hpid, ⟨fun _ => ⟨view, rfl, hid ▸ hinserted⟩, ?_⟩, ?_⟩
  · exact fun k hk _ => ⟨view, rfl, hshows, hkey.trans hk⟩
  · intro i hi
    have : view.job.id = i := Option.some.inj hi
    rw [← this, hid]
    exact ⟨hinserted, hfirst⟩

theorem wp_createJob {a : CreateJobArgs} (h : v.mem.pid = w) :
    Conduct w (createJob a) (fun result v => v.mem.pid = w ∧
      ∀ r, result = .ok r → Returning w a r v) v := by
  have hfinish : ∀ {p : Code (Except SqlError CreateResult)} {v : World},
      Conduct w p (fun result v => ∃ r, result = .ok r ∧ Returning w a r v) v →
      Conduct w p (fun result v => v.mem.pid = w ∧ ∀ r, result = .ok r → Returning w a r v) v := by
    intro p v hp
    refine wp_mono ?_ hp
    rintro result u ⟨r, rfl, hr⟩
    exact ⟨hr.1, fun r' hr' => by cases hr'; exact hr⟩
  have hfailed : ∀ err v, v.mem.pid = w →
      Conduct w (pure (.error err : Except SqlError CreateResult))
      (fun result v => v.mem.pid = w ∧ ∀ r, result = .ok r → Returning w a r v) v :=
    fun err v hv => ⟨hv, fun r hr => by cases hr⟩
  refine wp_seq (wp_selectKey h) (fun existing v h => ?_)
  cases existing with
  | some existing => exact hfinish (wp_existing ⟨h.1, h.2 existing rfl⟩)
  | none =>
    refine wp_seq (wp_quiet local_pid (always_mono quiet_aside.tolerant mute_randomUUID) h.1)
      (fun id v h => ?_)
    refine wp_seq (wp_quiet local_pid (always_read quiet_aside.tolerant _) h) (fun now v h => ?_)
    refine wp_seq (wp_insertJobAndItems id now a h) (fun result v h => ?_)
    cases result with
    | ok u =>
      refine wp_seq (wp_quiet (local_inserted id a)
        (always_recordEvent quiet_aside _ _) (h.2 rfl)) ?_
      exact fun _ v h => hfinish (wp_created h)
    | error err =>
      simp only
      split
      · refine wp_seq (wp_selectKey h.1) (fun existing v h => ?_)
        cases existing with
        | some existing => exact hfinish (wp_existing ⟨h.1, h.2 existing rfl⟩)
        | none => exact hfailed err v h.1
      · exact hfailed err v h.1

theorem wp_callCreateJob {a : CreateJobArgs} (h : v.mem.pid = w) :
    Conduct w (callCreateJob a) (fun _ v => v.mem.pid = w) v := by
  refine wp_seq (wp_createJob h) (fun result v h => ?_)
  cases result with
  | error err =>
    refine wp_seq (wp_quiet local_pid (always_exec (fun _ => ⟨rfl, rfl⟩)) h.1) (fun _ v h => h)
  | ok r => exact wp_seq (wp_returned (h.2 r rfl)) (fun _ v h => h)


end Creating

end WhatsappTester.Jobs.Registry
