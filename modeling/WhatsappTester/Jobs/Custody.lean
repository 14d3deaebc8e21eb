import WhatsappTester.Cluster
import WhatsappTester.Jobs.Ledger

namespace WhatsappTester.Jobs.Custody

open Schema State Atomic Atomic.Program Atomic.Lease Atomic.Interleaving Statements Retry JobService
open Claiming Worker Ledger

abbrev JobMove := Move Nat Id Id Ms ItemStatus

def jobIds (s : Shared) : List Id := s.db.jobs.map (·.id)

/-- What one statement of process `w` does to the ledger of the items. Only a
start-up recovery takes items back from others. -/
structure Moves (recovering : Prop) (w : Nat) (m : JobMove) (s s' : Shared) : Prop where
  enabled : m.Enabled maxAttempts (ledger s)
  ledger : ledger s' = m.apply (ledger s)
  worker : ∀ u, m.worker = some u → u = w
  recover : ∀ t, m = .recover t → recovering ∧ t ≤ s.now
  insert : ∀ id new, m = .insert id new → id ∉ jobIds s
  cancel : ∀ id c, m = .cancel id c → id ∈ jobIds s ∧ s'.trace = .itemsCancelled id :: s.trace
  cancelled : ∀ id, .itemsCancelled id ∈ s'.trace →
    .itemsCancelled id ∈ s.trace ∨ m = .cancel id .cancelled

structure Does (recovering : Prop) (w : Nat) (s s' : Shared) : Prop where
  distinct : Distinct s'
  jobs : jobIds s ⊆ jobIds s'
  now : s'.now = s.now
  move : ∃ m, Moves recovering w m s s'

def Running (t : Task) (s : Shared) : Prop :=
  ∃ e, (ledger s).entry t.item.id = some e ∧ e.group = t.item.jobId ∧ e.attempts = t.attemptNumber

/-- What a process holds, and whether it has counted an attempt of it. -/
def mine (w : Nat) (s : Shared) : List (Id × Bool) :=
  (holdsOf w (ledger s).log).map (fun h => (h.item, h.attempted))

def attempted (tasks : List Task) : List (Id × Bool) := tasks.map (fun t => (t.item.id, true))

/-- Where a process stands: the tasks it has in flight, what it holds, and
which tasks' items it knows to stand as they did. -/
structure Desk (w : Nat) (flight : List Task) (held : List (Id × Bool)) (known : List Task)
    (v : World) : Prop where
  pid : v.mem.pid = w
  flight : v.mem.inFlight = flight
  mine : (mine w v.shared).Perm held
  known : ∀ t ∈ known, (∃ b, (t.item.id, b) ∈ held) ∧ Running t v.shared

def idle (w : Nat) (v : World) : Prop :=
  Desk w v.mem.inFlight (attempted v.mem.inFlight) v.mem.inFlight v

theorem running_keeps {t : Task} {s s' : Shared} {w : Nat} {b : Bool}
    (hmine : (t.item.id, b) ∈ mine w s) (hk : Keeps w (ledger s) (ledger s')) (h : Running t s) :
    Running t s' := by
  obtain ⟨e, hentry, hgroup, hattempts⟩ := h
  obtain ⟨e', hentry', hgroup'⟩ := hk.group _ e hentry
  obtain ⟨x, hx, heq⟩ := List.mem_map.mp hmine
  have hitem : x.item = t.item.id := congrArg Prod.fst heq
  have hcount := (hk.counts x hx).1
  rw [hitem, attempts_of_entry hentry, attempts_of_entry hentry'] at hcount
  exact ⟨e', hentry', hgroup'.trans hgroup, hcount.trans hattempts⟩

theorem mine_keeps {s s' : Shared} {w : Nat} (hk : Keeps w (ledger s) (ledger s')) :
    mine w s' = mine w s := by
  rw [mine, hk.holds, mine]

structure Calm (w : Nat) (v v' : World) : Prop where
  pid : v'.mem.pid = v.mem.pid
  flight : v'.mem.inFlight = v.mem.inFlight
  keeps : Keeps w (ledger v.shared) (ledger v'.shared)
  jobs : jobIds v.shared ⊆ jobIds v'.shared
  now : v.shared.now ≤ v'.shared.now

theorem desk_calm {w : Nat} {flight known : List Task} {held : List (Id × Bool)} {v v' : World}
    (h : Desk w flight held known v) (hc : Calm w v v') : Desk w flight held known v' := by
  refine ⟨hc.pid.trans h.pid, hc.flight.trans h.flight, mine_keeps hc.keeps ▸ h.mine, ?_⟩
  intro t ht
  obtain ⟨⟨b, hb⟩, hrunning⟩ := h.known t ht
  exact ⟨⟨b, hb⟩, running_keeps (h.mine.symm.subset hb) hc.keeps hrunning⟩

theorem idle_calm {w : Nat} {v v' : World} (h : idle w v) (hc : Calm w v v') : idle w v' := by
  have := desk_calm h hc
  rwa [← hc.flight] at this

def contract (recovering : Prop) : Contract Nat Shared Memory where
  inv s := Distinct s ∧ Sound (ledger s)
  guar := Does recovering
  rely w s s' := Keeps w (ledger s) (ledger s') ∧ jobIds s ⊆ jobIds s' ∧ s.now ≤ s'.now
  idle := idle
  rely_refl w _ := ⟨Keeps.refl w _, List.Subset.refl _, le_refl _⟩
  rely_trans _ _ _ _ h h' :=
    ⟨h.1.trans h'.1, List.Subset.trans h.2.1 h'.2.1, le_trans h.2.2 h'.2.2⟩
  idle_stable _ _ _ _ h hr := idle_calm h ⟨rfl, rfl, hr.1, hr.2.1, hr.2.2⟩

section Statements

variable {recovering : Prop} {w : Nat} {v v' : World} {A : World → Prop} {α : Type}

def Local (w : Nat) (A : World → Prop) : Prop := ∀ v v', A v → Calm w v v' → A v'

theorem calm_others (h : (contract recovering).Others w v v') : Calm w v v' :=
  ⟨congrArg (·.pid) h.1, congrArg (·.inFlight) h.1, h.2.1.1, h.2.1.2.1, h.2.1.2.2⟩

theorem rest_calm {s s' : Shared} (h : ledger s' = ledger s) : Keeps w (ledger s) (ledger s') :=
  h ▸ Keeps.refl w _

/-- A statement that the contract permits where `A` holds, and that leaves the
process where it is. -/
def Permitted (recovering : Prop) (w : Nat) (A : World → Prop) (v v' : World) : Prop :=
  A v → (contract recovering).inv v.shared → Does recovering w v.shared v'.shared ∧ Calm w v v'

abbrev Free (recovering : Prop) (w : Nat) : World → World → Prop :=
  Permitted recovering w (fun _ => True)

theorem wp_permitted (hA : Local w A) {p : Code α}
    (hp : Always (Permitted recovering w A) p) (h : A v) :
    Wp ((contract recovering).Others w) ((contract recovering).Own w) p (fun _ => A) v := by
  refine Contract.wp_kept hp (fun v v' hv hr => hA v v' hv (calm_others hr)) ?_ h
  intro v v' hv hinv hstep
  obtain ⟨hdoes, hcalm⟩ := hstep hv hinv
  exact ⟨hdoes, hA v v' hv hcalm⟩

theorem wp_free (hA : Local w A) {p : Code α} (hp : Always (Free recovering w) p) (h : A v) :
    Wp ((contract recovering).Others w) ((contract recovering).Own w) p (fun _ => A) v :=
  wp_permitted hA (always_mono (fun _ _ hfree _ => hfree trivial) hp) h

theorem jobIds_of_origins (h : origins v' = origins v) : jobIds v'.shared = jobIds v.shared := by
  have hjobs : v'.shared.db.jobs.map jobOrigin = v.shared.db.jobs.map jobOrigin :=
    congrArg Origins.jobs h
  have := congrArg (List.map JobOrigin.id) hjobs
  simpa only [List.map_map, Function.comp_def, jobOrigin, jobIds] using this

theorem does_move {m : JobMove} {s s' : Shared}
    (hids : s'.db.items.map (·.id) = s.db.items.map (·.id)) (hjobs : jobIds s' = jobIds s)
    (hnow : s'.now = s.now) (hs : (contract recovering).inv s) (hm : Moves recovering w m s s') :
    Does recovering w s s' :=
  ⟨by rw [Distinct, hids]; exact hs.1, fun _ hi => hjobs ▸ hi, hnow, m, hm⟩

theorem free_rest (hany : Any v v') (hcustody : custody v' = custody v)
    (hids : jobIds v'.shared = jobIds v.shared) : Free recovering w v v' := by
  intro _ hv
  have hledger := ledger_of_custody hcustody
  have hjobs : jobIds v.shared ⊆ jobIds v'.shared := fun _ hi => hids ▸ hi
  have hdistinct : Distinct v'.shared := by
    have hitems : v'.shared.db.items = v.shared.db.items := congrArg Custody.items hcustody
    rw [Distinct, hitems]
    exact hv.1
  refine ⟨⟨hdistinct, hjobs, hany.now, .rest, trivial, hledger,
    by simp [Move.worker], by simp, by simp, by simp, ?_⟩, hany.pid,
    congrArg Custody.inFlight hcustody, rest_calm hledger, hjobs, hany.now.ge⟩
  intro id hid
  have hevents : v'.shared.trace.filter isCustody = v.shared.trace.filter isCustody :=
    congrArg Custody.events hcustody
  have hmem : .itemsCancelled id ∈ v'.shared.trace.filter isCustody :=
    List.mem_filter.mpr ⟨hid, rfl⟩
  rw [hevents] at hmem
  exact Or.inl (List.mem_filter.mp hmem).1

theorem free_itemless (h : Itemless v v') : Free recovering w v v' :=
  free_rest h.toAny h.custody (jobIds_of_origins h.origins)

theorem free_aside : Lenient (Free recovering w) := fun _ _ h => free_itemless h.toItemless

theorem free_memo (h : Memo v v') : Free recovering w v v' := free_itemless h.toItemless

theorem free_web (h : Web v v') : Free recovering w v v' :=
  free_rest h.toAny (web_custody h) (jobIds_of_origins (web_origins h))

theorem calm_move {m : JobMove} (hv : (contract recovering).inv v.shared)
    (hpid : v'.mem.pid = v.mem.pid) (hflight : v'.mem.inFlight = v.mem.inFlight)
    (hjobs : jobIds v.shared ⊆ jobIds v'.shared) (hnow : v'.shared.now = v.shared.now)
    (hm : m.Enabled maxAttempts (ledger v.shared))
    (hledger : ledger v'.shared = m.apply (ledger v.shared)) (hw : m.worker ≠ some w) :
    Calm w v v' :=
  ⟨hpid, hflight, hledger ▸ keeps_apply hv.2 hm hw, hjobs, hnow.ge⟩

theorem free_insert (id : Id) (now : Ms) (a : CreateJobArgs) :
    Always (Free recovering w) (insertJobAndItems id now a) := by
  refine always_update _ (fun v => ?_)
  cases htransaction : createTransaction id now a v.shared.uuid v.shared.db with
  | error err =>
    exact free_rest ⟨rfl, rfl, rfl, Nat.le_add_right _ _⟩ rfl rfl
  | ok db =>
    intro _ hv
    obtain ⟨hdb, hid, _⟩ := createTransaction_ok htransaction
    obtain ⟨hdistinct, hm, hledger⟩ := ledger_insert hv.1 htransaction v.mem.pid
      (v.shared.uuid + a.items.length) maxAttempts
    have hjobs : jobIds v.shared ⊆ db.jobs.map (·.id) := by
      intro i hi
      rw [hdb, List.map_append]
      exact List.mem_append_left _ hi
    refine ⟨⟨hdistinct, hjobs, rfl, _, hm, hledger, by simp [Move.worker], by simp, ?_, by simp,
        by simp +contextual⟩, calm_move hv rfl rfl hjobs rfl hm hledger (by simp [Move.worker])⟩
    intro k new hk
    cases hk
    simpa [jobIds] using hid

theorem free_callCreateJob (a : CreateJobArgs) : Always (Free recovering w) (callCreateJob a) := by
  refine always_callCreateJob free_aside.tolerant a (fun id now => free_insert id now a) ?_
  intro result v
  cases result with
  | error err => exact free_itemless (itemless_refl v)
  | ok r => exact free_rest ⟨rfl, rfl, rfl, le_refl _⟩ rfl rfl

theorem wp_read {β : Type} (hA : Local w A) (f : World → β) (h : A v) :
    Wp ((contract recovering).Others w) ((contract recovering).Own w) (query f) (fun _ => A) v :=
  wp_free hA (always_read free_aside.tolerant f) h

theorem wp_select {β : Type} {f : World → β} {Q : β → World → Prop} (hA : Local w A)
    (hQ : ∀ v, A v → (contract recovering).inv v.shared → Q (f v) v) (h : A v) :
    Wp ((contract recovering).Others w) ((contract recovering).Own w) (query f) Q v := by
  intro v' hr
  have hv' := hA v v' h (calm_others hr)
  exact ⟨(free_itemless (itemless_refl v') trivial hr.2.2).1, hQ v' hv' hr.2.2⟩

end Statements

section Desk

variable {recovering : Prop} {w : Nat} {v v' : World}
variable {flight known : List Task} {held : List (Id × Bool)}

theorem local_desk : Local w (Desk w flight held known) := fun _ _ => desk_calm

theorem mine_nodup (hs : Sound (ledger v.shared)) (h : Desk w flight held known v) :
    (held.map (·.1)).Nodup := by
  have hsub : ((holdsOf w (ledger v.shared).log).map (·.item)).Nodup :=
    hs.exclusive.sublist (List.filter_sublist.map _)
  refine (h.mine.map (·.1)).nodup_iff.mp ?_
  simpa [mine, Function.comp_def] using hsub

theorem hold_of_held {i : Id} {b : Bool} (h : Desk w flight held known v) (hi : (i, b) ∈ held) :
    ∃ x ∈ holdsOf w (ledger v.shared).log, x.item = i ∧ x.attempted = b := by
  obtain ⟨x, hx, heq⟩ := List.mem_map.mp (h.mine.symm.subset hi)
  exact ⟨x, hx, congrArg Prod.fst heq, congrArg Prod.snd heq⟩

theorem mine_claimed {s s' : Shared} {i : Id} {l : Ms}
    (h : (ledger s').log = .claimed w i l :: (ledger s).log) :
    mine w s' = (i, false) :: mine w s := by
  simp [mine, h, holdsOf_claimed]

theorem mine_sent {s s' : Shared} {i : Id} (h : (ledger s').log = .sent w i :: (ledger s).log) :
    mine w s' = mine w s := by
  simp [mine, h, holdsOf_sent]

theorem mine_attempted {s s' : Shared} {i : Id}
    (h : (ledger s').log = .attempted w i :: (ledger s).log) :
    mine w s' = (mine w s).map (fun p => if p.1 = i then (p.1, true) else p) := by
  simp only [mine, h, holdsOf_attempted, List.map_map]
  refine List.map_congr_left (fun x hx => ?_)
  have hw : x.worker = w := (mem_holdsOf.mp hx).2
  by_cases hi : x.item = i <;> simp [Hold.attempt, Hold.isFor, hw, hi]

theorem mine_recorded {s s' : Shared} {i : Id}
    (h : (ledger s').log = .recorded w i :: (ledger s).log) :
    mine w s' = (mine w s).filter (fun p => decide (p.1 ≠ i)) := by
  simp only [mine, h, holdsOf_recorded, List.filter_map, Function.comp_def]
  refine congrArg _ (List.filter_congr (fun x hx => ?_))
  have hw : x.worker = w := (mem_holdsOf.mp hx).2
  by_cases hi : x.item = i <;> simp [Hold.isFor, hw, hi]

theorem running_move {m : JobMove} {t : Task} {s s' : Shared}
    (hm : m.Enabled maxAttempts (ledger s)) (hledger : ledger s' = m.apply (ledger s))
    (hne : ∀ u, m ≠ .attempt u t.item.id) (h : Running t s) :
    Running t s' := by
  obtain ⟨e, hentry, hgroup, hattempts⟩ := h
  obtain ⟨e', hentry', hgroup'⟩ := group_apply hm _ e hentry
  have hcount := attempts_apply hm t.item.id
  rw [attempts_of_entry hentry, attempts_of_entry hentry'] at hcount
  refine ⟨e', hledger ▸ hentry', hgroup'.trans hgroup, ?_⟩
  cases m with
  | attempt u k =>
    have hk : t.item.id ≠ k := fun hk => hne u (hk ▸ rfl)
    simp only [hk, false_and, ↓reduceIte] at hcount
    omega
  | _ => exact hcount.trans hattempts

abbrev Conduct (recovering : Prop) (w : Nat) {α : Type} (p : Code α)
    (Q : α → World → Prop) (v : World) :
    Prop :=
  Wp ((contract recovering).Others w) ((contract recovering).Own w) p Q v

theorem wp_claimTransaction (now : Ms) (h : Desk w flight held known v) :
    Conduct recovering w (claimTransaction now) (fun claim v' => match claim with
      | none => Desk w flight held known v'
      | some (i, changes) => changes = 1 ∧ Desk w flight ((i, false) :: held) known v' ∧
          ∃ e, (ledger v'.shared).entry i = some e) v := by
  intro v' hr
  have hdesk := desk_calm h (calm_others hr)
  have hinv := hr.2.2
  cases hrow : nextClaimable v'.shared.db now with
  | none =>
    simp only [hrow, Option.map_none]
    exact ⟨(free_itemless (itemless_refl v') trivial hinv).1, hdesk⟩
  | some row =>
    obtain ⟨hmem, hclaimable⟩ := nextClaimable_mem hrow
    have hqueued := claimable_queued hclaimable
    have hledger := ledger_claim hinv.1 hrow
    have hentry := entry_of_mem hinv.1 hmem
    have hm : (Move.claim v'.mem.pid row.id (now + leaseMs) : JobMove).Enabled maxAttempts
        (ledger v'.shared) := ⟨_, hentry, phaseOf_waiting.mpr hqueued⟩
    simp only [hrow, Option.map_some]
    refine ⟨does_move (Table.map_update (by exact fun _ _ => rfl) _) rfl rfl hinv
        ⟨hm, hledger,
          by simp [Move.worker, hdesk.pid], by simp, by simp, by simp, by simp [claimRow]⟩,
      ?_, ⟨hdesk.pid, hdesk.flight, ?_, ?_⟩, ?_⟩
    · exact Table.changes_one hinv.1 hmem (by simp [hqueued]) (by simp +contextual)
    · rw [mine_claimed (i := row.id) (l := now + leaseMs)]
      · exact hdesk.mine.cons _
      · rw [hledger, Move.apply, hdesk.pid]
    · intro t ht
      obtain ⟨⟨b, hb⟩, hrunning⟩ := hdesk.known t ht
      exact ⟨⟨b, List.mem_cons_of_mem _ hb⟩, running_move hm hledger (by simp) hrunning⟩
    · obtain ⟨e, he, _⟩ := group_apply hm _ _ hentry
      exact ⟨e, hledger ▸ he⟩

theorem wp_claimNextItem (h : Desk w flight held known v) :
    Conduct recovering w claimNextItem (fun item v' => match item with
      | none => Desk w flight held known v'
      | some item => Desk w flight ((item.id, false) :: held)
          (⟨item, item.attemptCount⟩ :: known) v') v := by
  refine wp_seq (wp_read local_desk _ h) ?_
  intro now v' h'
  refine wp_seq (wp_claimTransaction now h') ?_
  intro claim v'' h''
  cases claim with
  | none => exact h''
  | some claim =>
    obtain ⟨i, changes⟩ := claim
    obtain ⟨rfl, hdesk, hentry⟩ := h''
    refine wp_select (A := fun v => Desk w flight ((i, false) :: held) known v ∧
      ∃ e, (ledger v.shared).entry i = some e) ?_ ?_ ⟨hdesk, hentry⟩
    · rintro a b ⟨ha, e, he⟩ hc
      obtain ⟨e', he', _⟩ := hc.keeps.group i e he
      exact ⟨desk_calm ha hc, e', he'⟩
    · rintro u ⟨hu, e, he⟩ hinv
      obtain ⟨r, hr, rfl, hre⟩ := item_of_entry he
      rw [Db.item, Table.find_eq_some hinv.1 hr]
      refine ⟨hu.pid, hu.flight, hu.mine, ?_⟩
      intro t ht
      cases ht with
      | head => exact ⟨⟨false, List.mem_cons_self⟩, entryOf r, entry_of_mem hinv.1 hr, rfl, rfl⟩
      | tail _ ht => exact hu.known t ht

theorem keeps_touch {L : Ledger Nat Id Id Ms ItemStatus} {i : Id}
    (hm : (Move.touch w i : JobMove).Enabled maxAttempts L) :
    Keeps w L ((Move.touch w i : JobMove).apply L) :=
  ⟨rfl, fun h _ => ⟨attempts_apply hm h.item, sends_apply h.item⟩, group_apply hm⟩

theorem holder_of_desk {i : Id} {b : Bool} (hi : (i, b) ∈ held) (v : World)
    (h : Desk w flight held known v) :
    v.mem.pid = w ∧ ∃ x ∈ holdsOf w (ledger v.shared).log, x.item = i := by
  obtain ⟨x, hx, hitem, _⟩ := hold_of_held h hi
  exact ⟨h.pid, x, hx, hitem⟩

theorem permitted_markItemRunning {A : World → Prop} {i : Id}
    (hA : ∀ v, A v → v.mem.pid = w ∧ ∃ x ∈ holdsOf w (ledger v.shared).log, x.item = i) :
    Always (Permitted recovering w A) (markItemRunning i) := by
  have hfree : ∀ v v', Free recovering w v v' → Permitted recovering w A v v' :=
    fun _ _ h _ hv => h trivial hv
  refine always_markItemRunning (fun v v' h => hfree v v' (free_aside v v' h.toAside)) i
    (fun now v => ⟨?_, trivial⟩)
    (fun _ _ => always_mono (fun v v' h => hfree v v' (free_itemless h))
      (itemless_updateJobs _ (fun _ => rfl)))
  intro hAv hinv
  obtain ⟨_, hhold⟩ := hA v hAv
  have hm : (Move.touch w i : JobMove).Enabled maxAttempts (ledger v.shared) := hhold
  have hledger := ledger_running v.shared w i now
  refine ⟨does_move (Table.map_update (by exact fun _ _ => rfl) _) rfl rfl hinv
      ⟨hm, hledger, by simp [Move.worker], by simp, by simp, by simp, by simp +contextual⟩,
    rfl, rfl, ?_, List.Subset.refl _, le_refl _⟩
  exact hledger ▸ keeps_touch hm

theorem wp_markItemRunning {i : Id} {b : Bool} (hi : (i, b) ∈ held)
    (h : Desk w flight held known v) :
    Conduct recovering w (markItemRunning i) (fun _ => Desk w flight held known) v :=
  wp_permitted local_desk (permitted_markItemRunning (holder_of_desk hi)) h

/-- An attempt has been counted and not yet been used for a send. -/
def Unsent (i : Id) (v : World) : Prop :=
  sends (ledger v.shared).log i < attempts (ledger v.shared) i

theorem unsent_calm {i : Id} {b : Bool} (hi : (i, b) ∈ held) (h : Desk w flight held known v)
    (hc : Calm w v v') (hu : Unsent i v) : Unsent i v' := by
  obtain ⟨x, hx, rfl, _⟩ := hold_of_held h hi
  obtain ⟨hattempts, hsends⟩ := hc.keeps.counts x hx
  rwa [Unsent, hattempts, hsends]

theorem mem_attempted {t : Task} (ht : t ∈ flight) : (t.item.id, true) ∈ attempted flight :=
  List.mem_map_of_mem ht

theorem wp_recordAttemptStart {item : JobItem} {n : Nat}
    (h : Desk w flight ((item.id, false) :: attempted flight) (⟨item, n⟩ :: flight) v) :
    Conduct recovering w (recordAttemptStart item.id (n + 1)) (fun _ v' =>
      Desk w flight ((item.id, true) :: attempted flight) (⟨item, n + 1⟩ :: flight) v' ∧
        Unsent item.id v') v := by
  refine wp_seq (wp_read local_desk _ h) ?_
  intro now v' h'
  refine wp_seq (wp_free local_desk (always_mono free_aside (aside_insertAttempt _ _ _)) h') ?_
  intro _ v'' h'' u hr
  have hdesk := desk_calm h'' (calm_others hr)
  have hinv := hr.2.2
  have hpid := hdesk.pid
  subst hpid
  obtain ⟨_, e, hentry, hgroup, hattempts⟩ := hdesk.known ⟨item, n⟩ List.mem_cons_self
  obtain ⟨x, hx, hitem, hfresh⟩ := hold_of_held hdesk List.mem_cons_self
  have hm : (Move.attempt u.mem.pid item.id : JobMove).Enabled maxAttempts (ledger u.shared) :=
    ⟨x, hx, hitem, hfresh⟩
  have hcount : attempts (ledger u.shared) item.id + 1 = n + 1 := by
    rw [attempts_of_entry hentry, hattempts]
  have hledger := ledger_attempted hcount u.mem.pid now
  -- the other items of the process are not the one just attempted
  have hnodup := mine_nodup hinv.2 hdesk
  rw [List.map_cons, List.nodup_cons] at hnodup
  have hother : ∀ t ∈ flight, t.item.id ≠ item.id := by
    intro t ht heq
    exact hnodup.1 (List.mem_map.mpr ⟨_, mem_attempted ht, heq⟩)
  refine ⟨does_move (Table.map_update (by exact fun _ _ => rfl) _) rfl rfl hinv
      ⟨hm, hledger, by simp [Move.worker], by simp, by simp, by simp, by simp +contextual⟩,
    ⟨rfl, hdesk.flight, ?_, ?_⟩, ?_⟩
  · rw [mine_attempted (congrArg Ledger.log hledger)]
    refine (hdesk.mine.map _).trans ?_
    have hsame : (attempted flight).map (fun p => if p.1 = item.id then (p.1, true) else p) =
        attempted flight := by
      simp [attempted]
    simp [hsame]
  · intro t ht
    cases ht with
    | head =>
      refine ⟨⟨true, List.mem_cons_self⟩, { e with attempts := e.attempts + 1 }, ?_, hgroup, ?_⟩
      · rw [hledger]
        simp [Move.apply, change, hentry]
      · simp [hattempts]
    | tail _ ht =>
      obtain ⟨_, hrunning⟩ := hdesk.known t (List.mem_cons_of_mem _ ht)
      refine ⟨⟨true, List.mem_cons_of_mem _ (mem_attempted ht)⟩,
        running_move hm hledger ?_ hrunning⟩
      intro k hk
      exact hother t ht (Move.attempt.inj hk).2.symm
  · rw [Unsent, hledger, sends_apply, attempts_apply hm]
    have := hinv.2.counted item.id
    simp [hentry]
    omega

theorem wp_startSend {item : JobItem} {n : Nat}
    (h : Desk w flight ((item.id, true) :: attempted flight) (⟨item, n⟩ :: flight) v)
    (hu : Unsent item.id v) :
    Conduct recovering w (startSend item n) (fun _ => idle w) v := by
  intro u hr
  have hcalm := calm_others hr
  have hdesk := desk_calm h hcalm
  have hunsent := unsent_calm List.mem_cons_self h hcalm hu
  have hinv := hr.2.2
  have hpid := hdesk.pid
  subst hpid
  obtain ⟨x, hx, hitem, _⟩ := hold_of_held hdesk List.mem_cons_self
  have hm : (Move.send u.mem.pid item.id : JobMove).Enabled maxAttempts (ledger u.shared) :=
    ⟨⟨x, hx, hitem⟩, hunsent⟩
  have hledger : ledger { u.shared with trace := .sent u.mem.pid item.id n :: u.shared.trace } =
      (Move.send u.mem.pid item.id : JobMove).apply (ledger u.shared) := rfl
  refine ⟨does_move rfl rfl rfl hinv ⟨hm, hledger,
    by simp [Move.worker], by simp, by simp, by simp, by simp +contextual⟩, rfl, rfl, ?_, ?_⟩
  · rw [mine_sent (congrArg Ledger.log hledger)]
    refine hdesk.mine.trans ?_
    simpa [attempted, hdesk.flight] using (List.perm_append_singleton _ _).symm
  · intro t ht
    obtain ⟨_, hrunning⟩ := hdesk.known t (by simpa [hdesk.flight, or_comm] using ht)
    exact ⟨⟨true, mem_attempted ht⟩, running_move hm hledger (by simp) hrunning⟩

theorem idle_of_desk (h : Desk w flight (attempted flight) flight v) : idle w v := by
  have hflight := h.flight
  subst hflight
  exact h

theorem wp_processItem {item : JobItem}
    (h : Desk w flight ((item.id, false) :: attempted flight) (⟨item, item.attemptCount⟩ ::
      flight) v) :
    Conduct recovering w (processItem item) (fun _ => idle w) v := by
  refine wp_seq (wp_markItemRunning List.mem_cons_self h) (fun _ v' h' => ?_)
  refine wp_seq (wp_recordAttemptStart h') (fun _ v'' h'' => ?_)
  exact wp_startSend h''.1 h''.2

theorem wp_tick (h : idle w v) : Conduct recovering w tick (fun _ => idle w) v := by
  have hlocal : Local w (idle w) := fun _ _ => idle_calm
  refine Statements.wp_tick (fun f v h => wp_read hlocal f h)
    (fun hp v h => wp_free hlocal (always_mono (fun _ _ => free_memo) hp) h) (fun v h => ?_) h
  refine wp_mono ?_ (wp_claimNextItem h)
  intro item v h
  cases item with
  | none => exact idle_of_desk h
  | some item => exact wp_processItem h

theorem desk_recorded {m : JobMove} {i : Id} (h : Desk w flight held known v)
    (hm : m.Enabled maxAttempts (ledger v.shared))
    (hledger : ledger v'.shared = m.apply (ledger v.shared))
    (hlog : (m.apply (ledger v.shared)).log = .recorded w i :: (ledger v.shared).log)
    (hmove : ∀ u k, m ≠ .attempt u k) (hmem : v'.mem = v.mem) :
    Desk w flight (held.filter (fun p => decide (p.1 ≠ i)))
      (known.filter (fun t => decide (t.item.id ≠ i))) v' := by
  refine ⟨hmem ▸ h.pid, hmem ▸ h.flight, ?_, ?_⟩
  · rw [mine_recorded (hledger ▸ hlog)]
    exact h.mine.filter _
  · intro t ht
    obtain ⟨ht, hne⟩ := List.mem_filter.mp ht
    obtain ⟨⟨b, hb⟩, hrunning⟩ := h.known t ht
    exact ⟨⟨b, List.mem_filter.mpr ⟨hb, hne⟩⟩,
      running_move hm hledger (fun u => hmove u _) hrunning⟩

theorem wp_scheduleRetry {t : Task} {nextAttemptAt : Ms} {category : Category}
    {detail : Option String} (ht : t ∈ known) (hlimit : t.attemptNumber < maxAttempts)
    (h : Desk w flight held known v) :
    Conduct recovering w (scheduleRetry t.item.id nextAttemptAt category detail) (fun _ =>
      Desk w flight (held.filter (fun p => decide (p.1 ≠ t.item.id)))
        (known.filter (fun x => decide (x.item.id ≠ t.item.id)))) v := by
  refine wp_seq (wp_read local_desk _ h) ?_
  intro now v' h' u hr
  have hdesk := desk_calm h' (calm_others hr)
  have hinv := hr.2.2
  have hpid := hdesk.pid
  subst hpid
  obtain ⟨⟨b, hb⟩, e, hentry, _, hattempts⟩ := hdesk.known t ht
  obtain ⟨x, hx, hitem, _⟩ := hold_of_held hdesk hb
  have hm : (Move.retry u.mem.pid t.item.id : JobMove).Enabled maxAttempts (ledger u.shared) :=
    ⟨⟨x, hx, hitem⟩, by rwa [attempts_of_entry hentry, hattempts]⟩
  have hledger := ledger_retry u.shared u.mem.pid t.item.id nextAttemptAt now category detail
  refine ⟨does_move (Table.map_update (by exact fun _ _ => rfl) _) rfl rfl hinv
    ⟨hm, hledger, by simp [Move.worker], by simp, by simp, by simp, by simp +contextual⟩, ?_⟩
  exact desk_recorded hdesk hm hledger rfl (by simp) rfl

theorem wp_markItemTerminal {t : Task} {status : ItemStatus} {category : Option Category}
    {detail : Option String} (ht : t ∈ known) (hstatus : status.terminal = true)
    (h : Desk w flight held known v) :
    Conduct recovering w (markItemTerminal t.item.id status category detail) (fun _ =>
      Desk w flight (held.filter (fun p => decide (p.1 ≠ t.item.id)))
        (known.filter (fun x => decide (x.item.id ≠ t.item.id)))) v := by
  refine wp_seq (wp_read local_desk _ h) ?_
  intro now v h
  refine wp_seq (wp_select (Q := fun item v => item.isSome ∧ Desk w flight held known v)
    local_desk ?_ h) ?_
  · intro u hu _
    obtain ⟨_, e, hentry, _⟩ := hu.known t ht
    obtain ⟨r, hr, _⟩ := Option.map_eq_some_iff.mp hentry
    exact ⟨by rw [hr]; rfl, hu⟩
  · rintro item v ⟨hsome, h⟩
    cases item with
    | none => cases hsome
    | some item =>
      refine wp_seq (Q := fun _ => Desk w flight (held.filter (fun p => decide (p.1 ≠ t.item.id)))
        (known.filter (fun x => decide (x.item.id ≠ t.item.id)))) ?_ ?_
      · intro u hr
        have hdesk := desk_calm h (calm_others hr)
        have hinv := hr.2.2
        have hpid := hdesk.pid
        subst hpid
        obtain ⟨⟨b, hb⟩, _⟩ := hdesk.known t ht
        obtain ⟨x, hx, hitem, _⟩ := hold_of_held hdesk hb
        have hm : (Move.close u.mem.pid t.item.id status : JobMove).Enabled maxAttempts
            (ledger u.shared) :=
          ⟨x, hx, hitem⟩
        have hledger := ledger_terminal u.shared u.mem.pid t.item.id hstatus now category detail
        refine ⟨does_move (Table.map_update (by exact fun _ _ => rfl) _) rfl rfl hinv
          ⟨hm, hledger, by simp [Move.worker], by simp, by simp, by simp, by simp +contextual⟩, ?_⟩
        exact desk_recorded hdesk hm hledger rfl (by simp) rfl
      · intro changes v h
        have hcount := always_bind (itemless_updateJobs (fun j => decide (j.id = item.jobId))
          (addCounter_origin status now)) (fun _ => always_pure (T := Itemless) ())
        rw [if_pos hstatus]
        exact wp_free local_desk (always_mono (fun _ _ => free_itemless) hcount) h

theorem wp_recordOutcome {t : Task} {outcome : SendOutcome} {random : Nat} (ht : t ∈ known)
    (h : Desk w flight held known v) :
    Conduct recovering w (recordOutcome t outcome random) (fun _ =>
      Desk w flight (held.filter (fun p => decide (p.1 ≠ t.item.id)))
        (known.filter (fun x => decide (x.item.id ≠ t.item.id)))) v := by
  have hmemo : ∀ {p : Code Unit} {v : World}, Always Memo p → Desk w flight held known v →
      Conduct recovering w p (fun _ => Desk w flight held known) v :=
    fun hp hv => wp_free local_desk (always_mono (fun _ _ => free_memo) hp) hv
  simp only [recordOutcome]
  generalize classify outcome = result
  obtain ⟨status, category, detail⟩ := result
  refine wp_seq (wp_free local_desk (always_recordAttemptFinish free_aside _ _ _ _ _) h)
    (fun _ v h => ?_)
  cases category with
  | none =>
    refine wp_seq (hmemo memo_recordSuccess h) (fun _ v h => ?_)
    exact wp_markItemTerminal ht rfl h
  | some category =>
    refine wp_seq (hmemo (memo_recordFailure _) h) (fun _ v h => ?_)
    split
    case isTrue hretry =>
      rw [Bool.and_eq_true, decide_eq_true_eq] at hretry
      refine wp_seq (wp_read local_desk _ h) ?_
      exact fun now v h => wp_scheduleRetry ht hretry.2 h
    case isFalse => exact wp_markItemTerminal ht (failureStatus_terminal category) h

theorem attempted_filter (i : Id) :
    (attempted flight).filter (fun p => decide (p.1 ≠ i)) =
      attempted (flight.filter (fun t => decide (t.item.id ≠ i))) := by
  simp only [attempted, List.filter_map, Function.comp_def]

theorem eraseP_task (i : Id) (hn : (flight.map (·.item.id)).Nodup) :
    flight.eraseP (fun t => decide (t.item.id = i)) =
      flight.filter (fun t => decide (t.item.id ≠ i)) := by
  induction flight with
  | nil => rfl
  | cons t flight ih =>
    rw [List.map_cons, List.nodup_cons] at hn
    by_cases hi : t.item.id = i
    · have hrest : ∀ x ∈ flight, decide (x.item.id ≠ i) := by
        intro x hx
        exact decide_eq_true (fun hxi => hn.1 (List.mem_map.mpr ⟨x, hx, hxi.trans hi.symm⟩))
      rw [List.eraseP_cons_of_pos (by simpa using hi), List.filter_cons_of_neg (by simpa using hi),
        List.filter_eq_self.mpr hrest]
    · simpa [hi] using ih hn.2

theorem wp_finish {i : Id} (hn : (flight.map (·.item.id)).Nodup)
    (h : Desk w flight ((attempted flight).filter (fun p => decide (p.1 ≠ i)))
      (flight.filter (fun t => decide (t.item.id ≠ i))) v) :
    Conduct recovering w (finish i) (fun _ => idle w) v := by
  intro u hr
  have hdesk := desk_calm h (calm_others hr)
  have hrest : Moves recovering w .rest u.shared u.shared :=
    ⟨trivial, rfl, by simp [Move.worker], by simp, by simp, by simp, by simp +contextual⟩
  refine ⟨does_move rfl rfl rfl hr.2.2 hrest, ?_⟩
  have hflight : u.mem.inFlight.eraseP (fun t => decide (t.item.id = i)) =
      flight.filter (fun t => decide (t.item.id ≠ i)) := by
    rw [hdesk.flight, eraseP_task i hn]
  have hmine := hdesk.mine
  rw [attempted_filter] at hmine
  exact idle_of_desk ⟨hdesk.pid, hflight, hmine,
    fun t ht => ⟨⟨true, mem_attempted ht⟩, (hdesk.known t ht).2⟩⟩

theorem flight_nodup (hs : Sound (ledger v.shared)) (h : Desk w flight (attempted flight) known v) :
    (flight.map (·.item.id)).Nodup := by
  have := mine_nodup hs h
  simpa [attempted, Function.comp_def] using this

theorem wp_complete (i : Id) (outcome : SendOutcome) (random : Nat) (h : idle w v) :
    Conduct recovering w (complete i outcome random) (fun _ => idle w) v := by
  refine wp_seq (wp_select (A := idle w) (fun _ _ => idle_calm)
    (Q := fun task v => task.elim (idle w v) (fun t => ∃ flight, t ∈ flight ∧ t.item.id = i ∧
      (flight.map (·.item.id)).Nodup ∧ Desk w flight (attempted flight) flight v)) ?_ h) ?_
  · intro u hu hinv
    cases hfind : u.mem.inFlight.find? (fun t => decide (t.item.id = i)) with
    | none => exact hu
    | some t =>
      exact ⟨u.mem.inFlight, List.mem_of_find?_eq_some hfind, by simpa using List.find?_some hfind,
        flight_nodup hinv.2 hu, hu⟩
  · intro task v h
    cases task with
    | none => exact h
    | some t =>
      obtain ⟨flight, ht, rfl, hn, hdesk⟩ := h
      refine wp_seq (wp_recordOutcome ht hdesk) (fun _ v h => ?_)
      refine wp_seq
        (wp_free local_desk (always_mono (fun _ _ => free_itemless) (itemless_settle _)) h) ?_
      exact fun _ v h => wp_finish hn h

theorem wp_cancelJob {A : World → Prop} (hA : Local w A) (id : Id)
    (actor : Option String) (h : A v) :
    Conduct recovering w (cancelJob id actor) (fun _ => A) v := by
  refine wp_seq (wp_read hA _ h) (fun now v h => ?_)
  have hB : Local w (fun v => A v ∧ id ∈ jobIds v.shared) :=
    fun v v' hv hc => ⟨hA v v' hv.1 hc, hc.jobs hv.2⟩
  refine wp_seq (Q := fun changes v => A v ∧ (changes > 0 → id ∈ jobIds v.shared)) ?_ ?_
  · intro u hr
    have hu := hA _ _ h (calm_others hr)
    have hstep := (itemless_updateJobs (fun j => decide (j.id = id ∧ ¬ j.status.terminal))
      (f := settledJob .cancelled now) (fun _ => rfl) u).1
    obtain ⟨hdoes, hcalm⟩ := free_itemless hstep trivial hr.2.2
    refine ⟨hdoes, hA _ _ hu hcalm, fun hchanges => hcalm.jobs ?_⟩
    obtain ⟨j, hj, hid⟩ := List.countP_pos_iff.mp hchanges
    simp only [decide_eq_true_eq] at hid
    exact List.mem_map.mpr ⟨j, hj, hid.1⟩
  · rintro changes v ⟨h, hjob⟩
    split
    case isTrue hchanges =>
      refine wp_seq (Q := fun _ => A) ?_ (fun _ v h => ?_)
      · intro u hr
        obtain ⟨hu, hid⟩ := hB _ _ ⟨h, hjob hchanges⟩ (calm_others hr)
        have hledger := ledger_cancel u.shared id now
        have hm : (Move.cancel id .cancelled : JobMove).Enabled maxAttempts (ledger u.shared) :=
          trivial
        refine ⟨does_move (Table.map_update (by exact fun _ _ => rfl) _) rfl rfl hr.2.2
            ⟨hm, hledger, by simp [Move.worker], by simp, by simp, ?_, ?_⟩,
          hA _ _ hu (calm_move hr.2.2 rfl rfl (List.Subset.refl _) rfl hm hledger
            (by simp [Move.worker]))⟩
        · rintro _ _ ⟨⟩
          exact ⟨hid, rfl⟩
        · intro k hk
          cases hk with
          | head => exact Or.inr rfl
          | tail _ hk => exact Or.inl hk
      · exact wp_free hA (always_bind (always_recordEvent free_aside _ _)
          (fun _ => always_getJob free_aside.tolerant id)) h
    case isFalse => exact wp_free hA (always_getJob free_aside.tolerant id) h

end Desk

section Contract

variable {recovering : Prop}

theorem meets_call (w : Nat) (c : Process.Call) : (contract recovering).Meets w c.code := by
  intro v h
  have hlocal : Local w (idle w) := fun _ _ => idle_calm
  have hfree : ∀ {p : Code Unit}, Always (Free recovering w) p →
      Conduct recovering w p (fun _ => idle w) v := fun hp => wp_free hlocal hp h
  have hitemless : ∀ {p : Code Unit}, Always Itemless p →
      Conduct recovering w p (fun _ => idle w) v :=
    fun hp => hfree (always_mono (fun _ _ => free_itemless) hp)
  have hweb : ∀ {p : Code Unit}, Always Web p → Conduct recovering w p (fun _ => idle w) v :=
    fun hp => hfree (always_mono (fun _ _ => free_web) hp)
  cases c with
  | tick => exact wp_tick h
  | complete itemId outcome random => exact wp_complete itemId outcome random h
  | createJob args => exact hfree (always_bind (free_callCreateJob args) (fun _ => always_pure ()))
  | cancelJob id actor => exact wp_seq (wp_cancelJob hlocal id actor h) (fun _ _ h => h)
  | pauseJob id actor =>
    exact hitemless (always_bind (itemless_pauseJob id actor) (fun _ => always_pure ()))
  | resumeJob id actor =>
    exact hitemless (always_bind (itemless_resumeJob id actor) (fun _ => always_pure ()))
  | createSchedule input => exact hitemless (itemless_create input)
  | removeSchedule id => exact hitemless (itemless_remove id)
  | runTickIfReady ready =>
    exact hfree (always_runTickIfReady free_aside.tolerant free_callCreateJob
      (fun p f => always_mono (fun _ _ => free_itemless) (itemless_updateSchedules p f)) ready)
  | setOutboundDisabled disabled actor reason => exact hweb (web_setOutboundDisabled _ _ _ _)
  | drainAndStop => exact hfree (always_mono (fun _ _ => free_itemless) itemless_drainAndStop)
  | request r ready => exact hweb (web_request r ready)
  | answered id answer ready => exact hweb (web_answered id answer ready)
  | delayOver id ready => exact hweb (web_delayOver id ready)
  | sweepExpiredIdempotencyKeys => exact hweb web_sweepExpiredIdempotencyKeys

theorem wp_recoverStaleClaims (w : Nat) {v : World} (h : idle w v) :
    Conduct True w recoverStaleClaims (fun _ => idle w) v := by
  refine wp_seq (wp_select (A := idle w) (fun _ _ => idle_calm)
    (Q := fun now v => idle w v ∧ now ≤ v.shared.now) (fun v hv _ => ⟨hv, le_refl _⟩) h) ?_
  intro now v h u hr
  have hcalm := calm_others hr
  have hu := idle_calm h.1 hcalm
  have hnow : now ≤ u.shared.now := le_trans h.2 hcalm.now
  have hledger := ledger_recover u.shared now
  have hm : (Move.recover now : JobMove).Enabled maxAttempts (ledger u.shared) := trivial
  refine ⟨does_move (Table.map_update (by exact fun _ _ => rfl) _) rfl rfl hr.2.2
      ⟨hm, hledger, by simp [Move.worker], ?_, by simp, by simp, fun _ h => Or.inl h⟩,
    idle_calm hu (calm_move hr.2.2 rfl rfl (List.Subset.refl _) rfl hm hledger
      (by simp [Move.worker]))⟩
  rintro _ ⟨⟩
  exact ⟨trivial, hnow⟩

theorem meets_recover (w : Nat) : (contract True).Meets w (Cluster.Work.code .recover) :=
  fun _ h => wp_seq (wp_recoverStaleClaims w h) (fun _ _ h => h)

theorem does_sound {w : Nat} {s s' : Shared} (hs : (contract recovering).inv s)
    (hd : Does recovering w s s') (ht : recovering → Timely s.now (ledger s)) :
    (contract recovering).inv s' ∧ ∀ u, u ≠ w → (contract recovering).rely u s s' := by
  obtain ⟨m, hm⟩ := hd.move
  have htimely : ∀ now, m = .recover now → Timely now (ledger s) := by
    intro now hrecover h hh
    obtain ⟨hrec, hle⟩ := hm.recover now hrecover
    exact le_trans hle (ht hrec h hh)
  refine ⟨⟨hd.distinct, hm.ledger ▸ sound_apply hs.2 hm.enabled htimely⟩, ?_⟩
  intro u hu
  refine ⟨hm.ledger ▸ keeps_apply hs.2 hm.enabled ?_, hd.jobs, hd.now.ge⟩
  exact fun hworker => hu (hm.worker u hworker)

end Contract

end WhatsappTester.Jobs.Custody
