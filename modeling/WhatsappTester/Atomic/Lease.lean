import Mathlib.Data.List.Nodup
import Mathlib.Order.Lattice

namespace WhatsappTester.Atomic.Lease

variable {ω ι γ τ κ : Type}

inductive Phase (κ : Type)
  | waiting
  | busy
  | closed (result : κ)

/-- An item of work: the group it belongs to, the lease of its last claim, and
how often it has been attempted. -/
structure Entry (γ τ κ : Type) where
  group : γ
  phase : Phase κ
  lease : Option τ
  attempts : Nat

inductive Mark (ω ι τ : Type)
  | claimed (worker : ω) (item : ι) (lease : τ)
  | attempted (worker : ω) (item : ι)
  | sent (worker : ω) (item : ι)
  | recorded (worker : ω) (item : ι)
  | died (worker : ω)

/-- A worker holds an item from its claim until it records an outcome or dies. -/
structure Hold (ω ι τ : Type) where
  worker : ω
  item : ι
  lease : τ
  attempted : Bool

/-- A store of items and the log of what its workers did, newest first. -/
structure Ledger (ω ι γ τ κ : Type) where
  entry : ι → Option (Entry γ τ κ)
  log : List (Mark ω ι τ)

section Log

variable [DecidableEq ω] [DecidableEq ι]

def Hold.isFor (h : Hold ω ι τ) (w : ω) (i : ι) : Bool := decide (h.worker = w ∧ h.item = i)

def Hold.attempt (w : ω) (i : ι) (h : Hold ω ι τ) : Hold ω ι τ :=
  if h.isFor w i then { h with attempted := true } else h

def holds : List (Mark ω ι τ) → List (Hold ω ι τ)
  | [] => []
  | .claimed w i l :: t => ⟨w, i, l, false⟩ :: holds t
  | .attempted w i :: t => (holds t).map (Hold.attempt w i)
  | .sent _ _ :: t => holds t
  | .recorded w i :: t => (holds t).filter (fun h => !h.isFor w i)
  | .died w :: t => (holds t).filter (fun h => decide (h.worker ≠ w))

def claimant : List (Mark ω ι τ) → ι → Option ω
  | [], _ => none
  | .claimed w i _ :: t, k => if k = i then some w else claimant t k
  | _ :: t, k => claimant t k

def sends : List (Mark ω ι τ) → ι → Nat
  | [], _ => 0
  | .sent _ i :: t, k => sends t k + if k = i then 1 else 0
  | _ :: t, k => sends t k

def rightful : List (Mark ω ι τ) → Prop
  | [] => True
  | .sent w i :: t => claimant t i = some w ∧ rightful t
  | _ :: t => rightful t

def holdsOf (w : ω) (log : List (Mark ω ι τ)) : List (Hold ω ι τ) :=
  (holds log).filter (fun h => decide (h.worker = w))

@[simp] theorem attempt_worker (w : ω) (i : ι) (h : Hold ω ι τ) :
    (h.attempt w i).worker = h.worker := by
  unfold Hold.attempt
  split <;> rfl

@[simp] theorem attempt_item (w : ω) (i : ι) (h : Hold ω ι τ) : (h.attempt w i).item = h.item := by
  unfold Hold.attempt
  split <;> rfl

@[simp] theorem attempt_lease (w : ω) (i : ι) (h : Hold ω ι τ) :
    (h.attempt w i).lease = h.lease := by
  unfold Hold.attempt
  split <;> rfl

theorem attempt_of_ne {w : ω} {i : ι} {h : Hold ω ι τ} (hne : h.worker ≠ w) :
    h.attempt w i = h := by
  simp [Hold.attempt, Hold.isFor, hne]

@[simp] theorem mem_holdsOf {w : ω} {log : List (Mark ω ι τ)} {h : Hold ω ι τ} :
    h ∈ holdsOf w log ↔ h ∈ holds log ∧ h.worker = w := by
  simp [holdsOf]

theorem holdsOf_claimed (u w : ω) (i : ι) (l : τ) (log : List (Mark ω ι τ)) :
    holdsOf u (.claimed w i l :: log) =
      if w = u then ⟨w, i, l, false⟩ :: holdsOf u log else holdsOf u log := by
  simp [holdsOf, holds, List.filter_cons]

theorem holdsOf_attempted (u w : ω) (i : ι) (log : List (Mark ω ι τ)) :
    holdsOf u (.attempted w i :: log) = (holdsOf u log).map (Hold.attempt w i) := by
  simp [holdsOf, holds, List.filter_map, Function.comp_def]

theorem holdsOf_sent (u w : ω) (i : ι) (log : List (Mark ω ι τ)) :
    holdsOf u (.sent w i :: log) = holdsOf u log := rfl

theorem holdsOf_recorded (u w : ω) (i : ι) (log : List (Mark ω ι τ)) :
    holdsOf u (.recorded w i :: log) = (holdsOf u log).filter (fun h => !h.isFor w i) := by
  simp [holdsOf, holds, List.filter_filter, Bool.and_comm]

theorem holdsOf_died (u w : ω) (log : List (Mark ω ι τ)) :
    holdsOf u (.died w :: log) = (holdsOf u log).filter (fun h => decide (h.worker ≠ w)) := by
  simp [holdsOf, holds, List.filter_filter, Bool.and_comm]

end Log

def Phase.isOpen : Phase κ → Bool
  | .closed _ => false
  | _ => true

def Phase.isBusy : Phase κ → Bool
  | .busy => true
  | _ => false

inductive Move (ω ι γ τ κ : Type)
  | rest
  | insert (group : γ) (new : List ι)
  | claim (worker : ω) (item : ι) (lease : τ)
  | touch (worker : ω) (item : ι)
  | attempt (worker : ω) (item : ι)
  | send (worker : ω) (item : ι)
  | retry (worker : ω) (item : ι)
  | close (worker : ω) (item : ι) (result : κ)
  | cancel (group : γ) (result : κ)
  | recover (now : τ)
  | die (worker : ω)

def Move.worker : Move ω ι γ τ κ → Option ω
  | .claim w _ _ | .touch w _ | .attempt w _ | .send w _ | .retry w _ | .close w _ _ | .die w =>
    some w
  | _ => none

def cancelEntry [DecidableEq γ] (g : γ) (c : κ) (e : Entry γ τ κ) : Entry γ τ κ :=
  if e.group = g ∧ e.phase.isOpen then { e with phase := .closed c, lease := none } else e

def recoverEntry [LinearOrder τ] (now : τ) (e : Entry γ τ κ) : Entry γ τ κ :=
  if e.phase.isBusy && e.lease.any (fun l => decide (l < now)) then
    { e with phase := .waiting, lease := none }
  else e

def attempts (L : Ledger ω ι γ τ κ) (i : ι) : Nat := ((L.entry i).map (·.attempts)).getD 0

theorem attempts_of_entry {L : Ledger ω ι γ τ κ} {i : ι} {e : Entry γ τ κ}
    (h : L.entry i = some e) :
    attempts L i = e.attempts := by
  simp [attempts, h]

/-- What a held item's entry must look like: not waiting to be claimed, and
under no lease but the hold's own. -/
def HeldBy (h : Hold ω ι τ) (o : Option (Entry γ τ κ)) : Prop :=
  ∃ e, o = some e ∧ e.phase ≠ .waiting ∧ ∀ l, e.lease = some l → l = h.lease

theorem heldBy_map {h : Hold ω ι τ} {o : Option (Entry γ τ κ)} {f : Entry γ τ κ → Entry γ τ κ}
    (hf : ∀ e, e.phase ≠ .waiting → (∀ l, e.lease = some l → l = h.lease) →
      (f e).phase ≠ .waiting ∧ ∀ l, (f e).lease = some l → l = h.lease)
    (ho : HeldBy h o) : HeldBy h (o.map f) := by
  obtain ⟨e, rfl, hbusy, hlease⟩ := ho
  exact ⟨f e, rfl, hf e hbusy hlease⟩

section Change

variable [DecidableEq ι]

def change (i : ι) (f : Entry γ τ κ → Entry γ τ κ) (entry : ι → Option (Entry γ τ κ)) :
    ι → Option (Entry γ τ κ) :=
  fun k => if k = i then (entry k).map f else entry k

theorem heldBy_change {h : Hold ω ι τ} {i : ι} {entry : ι → Option (Entry γ τ κ)}
    {f : Entry γ τ κ → Entry γ τ κ}
    (hf : h.item = i → ∀ e, e.phase ≠ .waiting → (∀ l, e.lease = some l → l = h.lease) →
      (f e).phase ≠ .waiting ∧ ∀ l, (f e).lease = some l → l = h.lease)
    (ho : HeldBy h (entry h.item)) : HeldBy h (change i f entry h.item) := by
  unfold change
  split
  · exact heldBy_map (hf ‹_›) ho
  · exact ho

end Change

@[simp] theorem cancelEntry_attempts [DecidableEq γ] (g : γ) (c : κ) (e : Entry γ τ κ) :
    (cancelEntry g c e).attempts = e.attempts := by
  unfold cancelEntry
  split <;> rfl

@[simp] theorem cancelEntry_group [DecidableEq γ] (g : γ) (c : κ) (e : Entry γ τ κ) :
    (cancelEntry g c e).group = e.group := by
  unfold cancelEntry
  split <;> rfl

@[simp] theorem recoverEntry_attempts [LinearOrder τ] (now : τ) (e : Entry γ τ κ) :
    (recoverEntry now e).attempts = e.attempts := by
  unfold recoverEntry
  split <;> rfl

@[simp] theorem recoverEntry_group [LinearOrder τ] (now : τ) (e : Entry γ τ κ) :
    (recoverEntry now e).group = e.group := by
  unfold recoverEntry
  split <;> rfl

section Moves

variable [DecidableEq ω] [DecidableEq ι] [DecidableEq γ] [LinearOrder τ]

def Move.apply (L : Ledger ω ι γ τ κ) : Move ω ι γ τ κ → Ledger ω ι γ τ κ
  | .rest => L
  | .insert g new =>
    { L with entry := fun i => if i ∈ new then some ⟨g, .waiting, none, 0⟩ else L.entry i }
  | .claim w i l =>
    ⟨change i (fun e => { e with phase := .busy, lease := some l }) L.entry,
      .claimed w i l :: L.log⟩
  | .touch _ i => { L with entry := change i (fun e => { e with phase := .busy }) L.entry }
  | .attempt w i =>
    ⟨change i (fun e => { e with attempts := e.attempts + 1 }) L.entry, .attempted w i :: L.log⟩
  | .send w i => { L with log := .sent w i :: L.log }
  | .retry w i =>
    ⟨change i (fun e => { e with phase := .waiting, lease := none }) L.entry,
      .recorded w i :: L.log⟩
  | .close w i c =>
    ⟨change i (fun e => { e with phase := .closed c, lease := none }) L.entry,
      .recorded w i :: L.log⟩
  | .cancel g c => { L with entry := fun i => (L.entry i).map (cancelEntry g c) }
  | .recover now => { L with entry := fun i => (L.entry i).map (recoverEntry now) }
  | .die w => { L with log := .died w :: L.log }

/-- A worker touches only what it holds, attempts an item once for each claim,
sends it at most once for each attempt, and retries it below the limit only. -/
def Move.Enabled (limit : Nat) (L : Ledger ω ι γ τ κ) : Move ω ι γ τ κ → Prop
  | .rest | .cancel _ _ | .recover _ | .die _ => True
  | .insert _ new => ∀ i ∈ new, L.entry i = none
  | .claim _ i _ => ∃ e, L.entry i = some e ∧ e.phase = .waiting
  | .touch w i | .close w i _ => ∃ h ∈ holdsOf w L.log, h.item = i
  | .attempt w i => ∃ h ∈ holdsOf w L.log, h.item = i ∧ h.attempted = false
  | .send w i => (∃ h ∈ holdsOf w L.log, h.item = i) ∧ sends L.log i < attempts L i
  | .retry w i => (∃ h ∈ holdsOf w L.log, h.item = i) ∧ attempts L i < limit

structure Sound (L : Ledger ω ι γ τ κ) : Prop where
  exclusive : ((holds L.log).map (·.item)).Nodup
  held : ∀ h ∈ holds L.log, HeldBy h (L.entry h.item)
  claimed : ∀ h ∈ holds L.log, claimant L.log h.item = some h.worker
  counted : ∀ i, sends L.log i ≤ attempts L i
  rightful : rightful L.log

def Timely (now : τ) (L : Ledger ω ι γ τ κ) : Prop := ∀ h ∈ holds L.log, now ≤ h.lease

end Moves

section Steps

variable [DecidableEq ω] [DecidableEq ι]
variable {L : Ledger ω ι γ τ κ} {m : Move ω ι γ τ κ} {limit : Nat}

/-- At most one worker holds an item. -/
theorem Sound.unique (hs : Sound L) {h h' : Hold ω ι τ} (hh : h ∈ holds L.log)
    (hh' : h' ∈ holds L.log) (heq : h.item = h'.item) : h = h' :=
  List.inj_on_of_nodup_map hs.exclusive hh hh' heq

/-- An outcome ends the only hold on its item. -/
theorem Sound.released (hs : Sound L) {w : ω} {i : ι} {h : Hold ω ι τ}
    (hw : ∃ h₀ ∈ holdsOf w L.log, h₀.item = i)
    (hh : h ∈ (holds L.log).filter (fun h => !h.isFor w i)) : h ∈ holds L.log ∧ h.item ≠ i := by
  obtain ⟨h₀, hh₀, hi⟩ := hw
  obtain ⟨hh₀, hw⟩ := mem_holdsOf.mp hh₀
  rw [List.mem_filter] at hh
  refine ⟨hh.1, ?_⟩
  rintro rfl
  have := hs.unique hh.1 hh₀ hi.symm
  subst this
  simp [Hold.isFor, hw] at hh

/-- What a worker counts on: its holds, and of the items it holds the numbers
of attempts and sends. No item ever changes its group. -/
structure Keeps (w : ω) (L L' : Ledger ω ι γ τ κ) : Prop where
  holds : holdsOf w L'.log = holdsOf w L.log
  counts : ∀ h ∈ holdsOf w L.log,
    attempts L' h.item = attempts L h.item ∧ sends L'.log h.item = sends L.log h.item
  group : ∀ i e, L.entry i = some e → ∃ e', L'.entry i = some e' ∧ e'.group = e.group

theorem Keeps.refl (w : ω) (L : Ledger ω ι γ τ κ) : Keeps w L L :=
  ⟨rfl, fun _ _ => ⟨rfl, rfl⟩, fun _ e h => ⟨e, h, rfl⟩⟩

theorem Keeps.trans {w : ω} {L L' L'' : Ledger ω ι γ τ κ} (h : Keeps w L L')
    (h' : Keeps w L' L'') : Keeps w L L'' := by
  refine ⟨h'.holds.trans h.holds, ?_, ?_⟩
  · intro x hx
    have hnext := h'.counts x (h.holds ▸ hx)
    exact ⟨hnext.1.trans (h.counts x hx).1, hnext.2.trans (h.counts x hx).2⟩
  · intro i e hentry
    obtain ⟨e', hentry', hgroup⟩ := h.group i e hentry
    obtain ⟨e'', hentry'', hgroup'⟩ := h'.group i e' hentry'
    exact ⟨e'', hentry'', hgroup'.trans hgroup⟩

variable [DecidableEq γ] [LinearOrder τ]

/-- A hold after a step is one from before, or the one the step has just taken. -/
theorem holds_apply {h : Hold ω ι τ} (hh : h ∈ holds (m.apply L).log) :
    (∃ h₀ ∈ holds L.log, h.worker = h₀.worker ∧ h.item = h₀.item ∧ h.lease = h₀.lease) ∨
      m = .claim h.worker h.item h.lease := by
  cases m with
  | claim w i l =>
    simp only [Move.apply, holds, List.mem_cons] at hh
    rcases hh with rfl | hh
    · exact Or.inr rfl
    · exact Or.inl ⟨h, hh, rfl, rfl, rfl⟩
  | attempt w i =>
    simp only [Move.apply, holds, List.mem_map] at hh
    obtain ⟨h₀, hmem, rfl⟩ := hh
    exact Or.inl ⟨h₀, hmem, by simp, by simp, by simp⟩
  | retry w i => exact Or.inl ⟨h, List.mem_of_mem_filter hh, rfl, rfl, rfl⟩
  | close w i c => exact Or.inl ⟨h, List.mem_of_mem_filter hh, rfl, rfl, rfl⟩
  | die w => exact Or.inl ⟨h, List.mem_of_mem_filter hh, rfl, rfl, rfl⟩
  | rest | insert | touch | send | cancel | recover => exact Or.inl ⟨h, hh, rfl, rfl, rfl⟩

theorem exclusive_apply (hs : Sound L) (he : m.Enabled limit L) :
    ((holds (m.apply L).log).map (·.item)).Nodup := by
  have hsub : ∀ p : Hold ω ι τ → Bool, (((holds L.log).filter p).map (·.item)).Nodup :=
    fun p => hs.exclusive.sublist (List.filter_sublist.map _)
  cases m with
  | claim w i l =>
    obtain ⟨e, hentry, hwait⟩ := he
    simp only [Move.apply, holds, List.map_cons, List.nodup_cons]
    refine ⟨?_, hs.exclusive⟩
    intro hmem
    obtain ⟨h, hh, hi⟩ := List.mem_map.mp hmem
    obtain ⟨e', hentry', hbusy, _⟩ := hs.held h hh
    rw [hi, hentry] at hentry'
    cases hentry'
    exact hbusy hwait
  | attempt w i =>
    have hmap : ((holds L.log).map (Hold.attempt w i)).map (·.item) =
        (holds L.log).map (·.item) := by
      simp
    simpa only [Move.apply, holds, hmap] using hs.exclusive
  | retry | close | die => exact hsub _
  | rest | insert | touch | send | cancel | recover => exact hs.exclusive

theorem held_apply (hs : Sound L) (he : m.Enabled limit L)
    (ht : ∀ now, m = .recover now → Timely now L) :
    ∀ h ∈ holds (m.apply L).log, HeldBy h ((m.apply L).entry h.item) := by
  intro h hh
  cases m with
  | rest => exact hs.held h hh
  | insert g new =>
    obtain ⟨e, hentry, hbusy⟩ := hs.held h hh
    have hold : h.item ∉ new := fun hi => by simp [he h.item hi] at hentry
    simpa only [Move.apply, hold, ↓reduceIte] using hs.held h hh
  | claim w i l =>
    simp only [Move.apply, holds, List.mem_cons] at hh
    obtain ⟨e, hentry, hwait⟩ := he
    rcases hh with rfl | hh
    · exact ⟨{ e with phase := .busy, lease := some l }, by simp [Move.apply, change, hentry],
        by simp, by simp⟩
    · refine heldBy_change ?_ (hs.held h hh)
      rintro rfl
      obtain ⟨e', hentry', hbusy, _⟩ := hs.held h hh
      rw [hentry] at hentry'
      cases hentry'
      exact absurd hwait hbusy
  | touch w i => exact heldBy_change (fun _ e _ hl => ⟨by simp, hl⟩) (hs.held h hh)
  | attempt w i =>
    simp only [Move.apply, holds, List.mem_map] at hh
    obtain ⟨h₀, hmem, rfl⟩ := hh
    have := heldBy_change (f := fun e => { e with attempts := e.attempts + 1 }) (i := i)
      (fun _ e hb hl => ⟨hb, hl⟩) (hs.held h₀ hmem)
    simpa [HeldBy, Move.apply] using this
  | send w i => exact hs.held h hh
  | retry w i =>
    obtain ⟨hmem, hne⟩ := hs.released he.1 hh
    exact heldBy_change (fun heq => absurd heq hne) (hs.held h hmem)
  | close w i c =>
    obtain ⟨hmem, hne⟩ := hs.released he hh
    exact heldBy_change (fun heq => absurd heq hne) (hs.held h hmem)
  | cancel g c =>
    refine heldBy_map (fun e hb hl => ?_) (hs.held h hh)
    unfold cancelEntry
    split
    · exact ⟨by simp, by simp⟩
    · exact ⟨hb, hl⟩
  | recover now =>
    refine heldBy_map (fun e hb hl => ?_) (hs.held h hh)
    have hfresh : e.lease.any (fun l => decide (l < now)) = false := by
      cases hlease : e.lease with
      | none => rfl
      | some l => simpa [hl l hlease] using ht now rfl h hh
    simpa [recoverEntry, hfresh] using ⟨hb, hl⟩
  | die w => exact hs.held h (List.mem_of_mem_filter hh)

theorem claimed_apply (hs : Sound L) (he : m.Enabled limit L) :
    ∀ h ∈ holds (m.apply L).log, claimant (m.apply L).log h.item = some h.worker := by
  intro h hh
  have hkeep : (∃ h₀ ∈ holds L.log, h.worker = h₀.worker ∧ h.item = h₀.item ∧ h.lease = h₀.lease) →
      claimant L.log h.item = some h.worker := by
    rintro ⟨h₀, hmem, hw, hi, _⟩
    rw [hw, hi]
    exact hs.claimed h₀ hmem
  cases m with
  | claim w i l =>
    simp only [Move.apply, holds, List.mem_cons] at hh
    rcases hh with rfl | hh
    · simp [Move.apply, claimant]
    · obtain ⟨e, hentry, hwait⟩ := he
      obtain ⟨e', hentry', hbusy, _⟩ := hs.held h hh
      have hne : h.item ≠ i := by
        rintro rfl
        rw [hentry] at hentry'
        cases hentry'
        exact hbusy hwait
      simpa [Move.apply, claimant, hne] using hs.claimed h hh
  | _ =>
    rcases holds_apply hh with hold | hnew
    · exact hkeep hold
    · cases hnew

theorem attempts_apply (he : m.Enabled limit L) (i : ι) :
    attempts (m.apply L) i = attempts L i + match m with
      | .attempt _ k => if i = k ∧ (L.entry i).isSome then 1 else 0
      | _ => 0 := by
  have hmap : ∀ f : Entry γ τ κ → Entry γ τ κ, (∀ e, (f e).attempts = e.attempts) →
      (((L.entry i).map f).map (·.attempts)).getD 0 = attempts L i := by
    intro f hf
    cases hentry : L.entry i <;> simp [attempts, hentry, hf]
  have hchange : ∀ k, ∀ f : Entry γ τ κ → Entry γ τ κ, (∀ e, (f e).attempts = e.attempts) →
      ((change k f L.entry i).map (·.attempts)).getD 0 = attempts L i := by
    intro k f hf
    unfold change
    split
    · exact hmap f hf
    · rfl
  cases m with
  | insert g new =>
    by_cases hi : i ∈ new
    · simp [attempts, Move.apply, hi, he i hi]
    · simp [attempts, Move.apply, hi]
  | attempt w k =>
    by_cases hi : i = k
    · subst hi
      cases hentry : L.entry i <;> simp [attempts, Move.apply, change, hentry]
    · simp [attempts, Move.apply, change, hi]
  | cancel g c => exact hmap _ (cancelEntry_attempts g c)
  | recover now => exact hmap _ (recoverEntry_attempts now)
  | claim w k l => exact hchange k _ (fun e => rfl)
  | touch w k => exact hchange k _ (fun e => rfl)
  | retry w k => exact hchange k _ (fun e => rfl)
  | close w k c => exact hchange k _ (fun e => rfl)
  | rest | send | die => rfl

omit [DecidableEq ω] in
theorem sends_apply (i : ι) :
    sends (m.apply L).log i = sends L.log i + match m with
      | .send _ k => if i = k then 1 else 0
      | _ => 0 := by
  cases m <;> simp [Move.apply, sends]

theorem counted_apply (hs : Sound L) (he : m.Enabled limit L) (i : ι) :
    sends (m.apply L).log i ≤ attempts (m.apply L) i := by
  rw [sends_apply, attempts_apply he]
  have := hs.counted i
  cases m with
  | send w k =>
    by_cases hi : i = k
    · subst hi
      simpa using Nat.succ_le_of_lt he.2
    · simpa [hi] using this
  | attempt w k => simpa using Nat.le_trans this (Nat.le_add_right _ _)
  | _ => simpa using this

theorem rightful_apply (hs : Sound L) (he : m.Enabled limit L) : rightful (m.apply L).log := by
  cases m with
  | send w i =>
    obtain ⟨⟨h, hh, rfl⟩, _⟩ := he
    obtain ⟨hmem, rfl⟩ := mem_holdsOf.mp hh
    exact ⟨hs.claimed h hmem, hs.rightful⟩
  | _ => exact hs.rightful

/-- Every step keeps a ledger sound, a recovery as long as no hold is late. -/
theorem sound_apply (hs : Sound L) (he : m.Enabled limit L)
    (ht : ∀ now, m = .recover now → Timely now L) : Sound (m.apply L) where
  exclusive := exclusive_apply hs he
  held := held_apply hs he ht
  claimed := claimed_apply hs he
  counted := counted_apply hs he
  rightful := rightful_apply hs he

theorem group_apply (he : m.Enabled limit L) (i : ι) (e : Entry γ τ κ)
    (hentry : L.entry i = some e) :
    ∃ e', (m.apply L).entry i = some e' ∧ e'.group = e.group := by
  have hchange : ∀ k, ∀ f : Entry γ τ κ → Entry γ τ κ, (∀ e, (f e).group = e.group) →
      ∃ e', change k f L.entry i = some e' ∧ e'.group = e.group := by
    intro k f hf
    unfold change
    split
    · exact ⟨f e, by simp [hentry], hf e⟩
    · exact ⟨e, hentry, rfl⟩
  cases m with
  | insert g new =>
    have hi : i ∉ new := fun hi => by simp [he i hi] at hentry
    exact ⟨e, by simpa [Move.apply, hi] using hentry, rfl⟩
  | cancel g c =>
    exact ⟨cancelEntry g c e, by simp [Move.apply, hentry], cancelEntry_group g c e⟩
  | recover now =>
    exact ⟨recoverEntry now e, by simp [Move.apply, hentry], recoverEntry_group now e⟩
  | claim w k l => exact hchange k _ (fun e => rfl)
  | touch w k => exact hchange k _ (fun e => rfl)
  | attempt w k => exact hchange k _ (fun e => rfl)
  | retry w k => exact hchange k _ (fun e => rfl)
  | close w k c => exact hchange k _ (fun e => rfl)
  | rest | send | die => exact ⟨e, hentry, rfl⟩

/-- A worker's step leaves the holds of every other worker alone. -/
theorem holdsOf_apply {w : ω} (hw : m.worker ≠ some w) :
    holdsOf w (m.apply L).log = holdsOf w L.log := by
  have hfor : ∀ u i, u ≠ w → (holdsOf w L.log).filter (fun h => !h.isFor u i) =
      holdsOf w L.log := by
    intro u i hu
    refine List.filter_eq_self.mpr (fun h hh => ?_)
    have hne : h.worker ≠ u := (mem_holdsOf.mp hh).2 ▸ hu.symm
    simp [Hold.isFor, hne]
  cases m with
  | claim u i l =>
    have hu : u ≠ w := fun h => hw (congrArg some h)
    simp [Move.apply, holdsOf_claimed, hu]
  | attempt u i =>
    have hu : u ≠ w := fun h => hw (congrArg some h)
    rw [Move.apply, holdsOf_attempted]
    conv_rhs => rw [← List.map_id (holdsOf w L.log)]
    refine List.map_congr_left (fun h hh => attempt_of_ne ?_)
    exact (mem_holdsOf.mp hh).2 ▸ hu.symm
  | send u i => rfl
  | retry u i =>
    have hu : u ≠ w := fun h => hw (congrArg some h)
    rw [Move.apply, holdsOf_recorded, hfor u i hu]
  | close u i c =>
    have hu : u ≠ w := fun h => hw (congrArg some h)
    rw [Move.apply, holdsOf_recorded, hfor u i hu]
  | die u =>
    have hu : u ≠ w := fun h => hw (congrArg some h)
    rw [Move.apply, holdsOf_died]
    refine List.filter_eq_self.mpr (fun h hh => ?_)
    have hne : h.worker ≠ u := (mem_holdsOf.mp hh).2 ▸ hu.symm
    simp [hne]
  | rest | insert | touch | cancel | recover => rfl

theorem keeps_apply (hs : Sound L) (he : m.Enabled limit L) {w : ω} (hw : m.worker ≠ some w) :
    Keeps w L (m.apply L) := by
  refine ⟨holdsOf_apply hw, ?_, group_apply he⟩
  intro h hh
  obtain ⟨hmem, hworker⟩ := mem_holdsOf.mp hh
  -- whoever works on an item holds it, and two workers never hold the same one
  have hother : ∀ u, ∀ i, u ≠ w → (∃ h₀ ∈ holdsOf u L.log, h₀.item = i) → h.item ≠ i := by
    rintro u i hu ⟨h₀, hh₀, rfl⟩ heq
    obtain ⟨hmem₀, hworker₀⟩ := mem_holdsOf.mp hh₀
    rw [hs.unique hmem hmem₀ heq] at hworker
    exact hu (hworker₀.symm.trans hworker)
  rw [attempts_apply he, sends_apply]
  cases m with
  | attempt u i =>
    obtain ⟨h₀, hh₀, hi, _⟩ := he
    have := hother u i (fun h => hw (congrArg some h)) ⟨h₀, hh₀, hi⟩
    simp [this]
  | send u i =>
    have := hother u i (fun h => hw (congrArg some h)) he.1
    simp [this]
  | _ => exact ⟨rfl, rfl⟩

def Working (L : Ledger ω ι γ τ κ) : Prop :=
  ∀ h ∈ holds L.log, ∃ e, L.entry h.item = some e ∧ e.phase = .busy

def Spares (L : Ledger ω ι γ τ κ) (m : Move ω ι γ τ κ) : Prop :=
  ∀ g c, m = .cancel g c → ∀ h ∈ holds L.log, ∀ e, L.entry h.item = some e → e.group ≠ g

theorem working_apply (hs : Sound L) (he : m.Enabled limit L)
    (ht : ∀ now, m = .recover now → Timely now L) (hc : Spares L m) (hb : Working L) :
    Working (m.apply L) := by
  intro h hh
  have hkept : ∀ k, ∀ f : Entry γ τ κ → Entry γ τ κ, ∀ h ∈ holds L.log,
      (h.item = k → ∀ e, e.phase = .busy → (f e).phase = .busy) →
      ∃ e, change k f L.entry h.item = some e ∧ e.phase = .busy := by
    intro k f h hmem hf
    obtain ⟨e, hentry, hbusy⟩ := hb h hmem
    unfold change
    split
    · exact ⟨f e, by simp [hentry], hf ‹_› e hbusy⟩
    · exact ⟨e, hentry, hbusy⟩
  cases m with
  | rest => exact hb h hh
  | insert g new =>
    obtain ⟨e, hentry, hbusy⟩ := hb h hh
    have hi : h.item ∉ new := fun hi => by simp [he h.item hi] at hentry
    exact ⟨e, by simpa [Move.apply, hi] using hentry, hbusy⟩
  | claim w i l =>
    simp only [Move.apply, holds, List.mem_cons] at hh
    rcases hh with rfl | hh
    · obtain ⟨e, hentry, _⟩ := he
      exact ⟨{ e with phase := .busy, lease := some l }, by simp [Move.apply, change, hentry], rfl⟩
    · exact hkept i _ h hh (fun _ _ _ => rfl)
  | touch w i => exact hkept i _ h hh (fun _ _ _ => rfl)
  | attempt w i =>
    simp only [Move.apply, holds, List.mem_map] at hh
    obtain ⟨h₀, hmem, rfl⟩ := hh
    simpa [Move.apply] using hkept i (fun e => { e with attempts := e.attempts + 1 }) h₀ hmem
      (fun _ _ hbusy => hbusy)
  | send w i => exact hb h hh
  | retry w i =>
    obtain ⟨hmem, hne⟩ := hs.released he.1 hh
    exact hkept i _ h hmem (fun heq => absurd heq hne)
  | close w i c =>
    obtain ⟨hmem, hne⟩ := hs.released he hh
    exact hkept i _ h hmem (fun heq => absurd heq hne)
  | cancel g c =>
    obtain ⟨e, hentry, hbusy⟩ := hb h hh
    have hg := hc g c rfl h hh e hentry
    exact ⟨e, by simp [Move.apply, hentry, cancelEntry, hg], hbusy⟩
  | recover now =>
    obtain ⟨e, hentry, hbusy⟩ := hb h hh
    obtain ⟨e', hentry', hwait, _⟩ := held_apply hs he ht h hh
    refine ⟨e', hentry', ?_⟩
    have : recoverEntry now e = e' := by simpa [Move.apply, hentry] using hentry'
    subst this
    unfold recoverEntry at hwait ⊢
    split
    · simp_all
    · exact hbusy
  | die w => exact hb h (List.mem_of_mem_filter hh)

/-- While every held item is being worked on, a closed item stays as it is. -/
theorem closed_apply (he : m.Enabled limit L) (hb : Working L) {i : ι} {e : Entry γ τ κ} {c : κ}
    (hentry : L.entry i = some e) (hclosed : e.phase = .closed c) :
    (m.apply L).entry i = some e := by
  have hopen : ∀ w, (∃ h ∈ holdsOf w L.log, h.item = i) → False := by
    rintro w ⟨h, hh, rfl⟩
    obtain ⟨e', hentry', hbusy⟩ := hb h (mem_holdsOf.mp hh).1
    rw [hentry] at hentry'
    cases hentry'
    rw [hclosed] at hbusy
    cases hbusy
  have hother : ∀ k, ∀ f : Entry γ τ κ → Entry γ τ κ, i ≠ k → change k f L.entry i = some e := by
    intro k f hne
    rw [change, if_neg hne]
    exact hentry
  cases m with
  | rest => exact hentry
  | insert g new =>
    have hi : i ∉ new := fun hi => by simp [he i hi] at hentry
    simpa [Move.apply, hi] using hentry
  | claim w k l =>
    obtain ⟨e', hentry', hwait⟩ := he
    refine hother k _ ?_
    rintro rfl
    rw [hentry] at hentry'
    cases hentry'
    rw [hclosed] at hwait
    cases hwait
  | touch w k => exact hother k _ (fun h => hopen w (h ▸ he))
  | attempt w k =>
    obtain ⟨h, hh, hi, _⟩ := he
    exact hother k _ (fun heq => hopen w ⟨h, hh, hi.trans heq.symm⟩)
  | retry w k => exact hother k _ (fun h => hopen w (h ▸ he.1))
  | close w k c => exact hother k _ (fun h => hopen w (h ▸ he))
  | cancel g c => simp [Move.apply, hentry, cancelEntry, hclosed, Phase.isOpen]
  | recover now => simp [Move.apply, hentry, recoverEntry, hclosed, Phase.isBusy]
  | send | die => exact hentry

omit [DecidableEq ω] in
/-- Items come into being by insertions only. -/
theorem entry_new {i : ι} {e : Entry γ τ κ} (hnone : L.entry i = none)
    (hentry : (m.apply L).entry i = some e) : ∃ new, m = .insert e.group new := by
  cases m with
  | insert g new =>
    by_cases hi : i ∈ new
    · simp only [Move.apply, hi, ↓reduceIte, Option.some.injEq] at hentry
      exact ⟨new, by rw [← hentry]⟩
    · simp [Move.apply, hi, hnone] at hentry
  | claim | touch | attempt | retry | close => simp [Move.apply, change, hnone] at hentry
  | cancel | recover => simp [Move.apply, hnone] at hentry
  | rest | send | die => exact absurd (hnone.symm.trans hentry) (by simp)

structure Bounded (limit : Nat) (L : Ledger ω ι γ τ κ) : Prop where
  total : ∀ i, attempts L i ≤ limit
  waiting : ∀ i e, L.entry i = some e → e.phase = .waiting → e.attempts < limit
  fresh : ∀ h ∈ holds L.log, h.attempted = false → attempts L h.item < limit

/-- A recovery that finds the items it takes back below the limit. -/
def Exhausts (limit : Nat) (L : Ledger ω ι γ τ κ) (m : Move ω ι γ τ κ) : Prop :=
  ∃ now i e, m = .recover now ∧ L.entry i = some e ∧ e.phase = .busy ∧
    e.lease.any (fun l => decide (l < now)) ∧ limit ≤ e.attempts

theorem fresh_apply (hs : Sound L) (he : m.Enabled limit L) (hb : Bounded limit L) :
    ∀ h ∈ holds (m.apply L).log, h.attempted = false → attempts (m.apply L) h.item < limit := by
  intro h hh hfresh
  rw [attempts_apply he]
  cases m with
  | claim w i l =>
    simp only [Move.apply, holds, List.mem_cons] at hh
    rcases hh with rfl | hh
    · obtain ⟨e, hentry, hwait⟩ := he
      simpa [attempts_of_entry hentry] using hb.waiting i e hentry hwait
    · exact hb.fresh h hh hfresh
  | attempt w i =>
    simp only [Move.apply, holds, List.mem_map] at hh
    obtain ⟨h₀, hmem, rfl⟩ := hh
    obtain ⟨h₁, hh₁, hi, _⟩ := he
    obtain ⟨hmem₁, hw⟩ := mem_holdsOf.mp hh₁
    have hne : h₀.item ≠ i := by
      intro heq
      have : h₀ = h₁ := hs.unique hmem hmem₁ (heq.trans hi.symm)
      subst this
      simp [Hold.attempt, Hold.isFor, hw, hi] at hfresh
    have hsame : h₀.attempt w i = h₀ := by simp [Hold.attempt, Hold.isFor, hne]
    rw [hsame] at hfresh
    simpa [hne] using hb.fresh h₀ hmem hfresh
  | retry | close | die => exact hb.fresh h (List.mem_of_mem_filter hh) hfresh
  | rest | insert | touch | send | cancel | recover => exact hb.fresh h hh hfresh

theorem waiting_apply (hs : Sound L) (he : m.Enabled limit L) (hlimit : 0 < limit)
    (hr : ¬ Exhausts limit L m) (hb : Bounded limit L) (i : ι) (e : Entry γ τ κ)
    (hentry : (m.apply L).entry i = some e) (hwait : e.phase = .waiting) : e.attempts < limit := by
  have hchange : ∀ k, ∀ f : Entry γ τ κ → Entry γ τ κ, change k f L.entry i = some e →
      (∀ a, L.entry k = some a → (f a).phase = .waiting → (f a).attempts < limit) →
      e.attempts < limit := by
    intro k f h hf
    unfold change at h
    split at h
    · subst i
      obtain ⟨a, ha, rfl⟩ := Option.map_eq_some_iff.mp h
      exact hf a ha hwait
    · exact hb.waiting i e h hwait
  cases m with
  | insert g new =>
    by_cases hi : i ∈ new
    · simp only [Move.apply, hi, ↓reduceIte, Option.some.injEq] at hentry
      subst hentry
      exact hlimit
    · exact hb.waiting i e (by simpa [Move.apply, hi] using hentry) hwait
  | claim w k l => exact hchange k _ hentry (fun a _ h => by cases h)
  | touch w k => exact hchange k _ hentry (fun a _ h => by cases h)
  | attempt w k =>
    obtain ⟨h, hh, rfl, _⟩ := he
    refine hchange _ _ hentry (fun a ha h' => ?_)
    obtain ⟨a', ha', hbusy, _⟩ := hs.held h (mem_holdsOf.mp hh).1
    rw [ha] at ha'
    cases ha'
    exact absurd h' hbusy
  | retry w k => exact hchange k _ hentry (fun a ha _ => attempts_of_entry ha ▸ he.2)
  | close w k c => exact hchange k _ hentry (fun a _ h => by cases h)
  | cancel g c =>
    obtain ⟨a, ha, rfl⟩ := Option.map_eq_some_iff.mp hentry
    rw [cancelEntry_attempts]
    unfold cancelEntry at hwait
    split at hwait
    · cases hwait
    · exact hb.waiting i a ha hwait
  | recover now =>
    obtain ⟨a, ha, rfl⟩ := Option.map_eq_some_iff.mp hentry
    rw [recoverEntry_attempts]
    unfold recoverEntry at hwait
    split at hwait
    case isTrue hcond =>
      rw [Bool.and_eq_true] at hcond
      have hbusy : a.phase = .busy := by
        cases hphase : a.phase <;> simp_all [Phase.isBusy]
      exact Nat.lt_of_not_le (fun hle => hr ⟨now, i, a, rfl, ha, hbusy, hcond.2, hle⟩)
    case isFalse => exact hb.waiting i a ha hwait
  | rest | send | die => exact hb.waiting i e hentry hwait

/-- Every step keeps the limit, a recovery as long as it takes back no item
that has used all its attempts. -/
theorem bounded_apply (hs : Sound L) (he : m.Enabled limit L) (hlimit : 0 < limit)
    (hr : ¬ Exhausts limit L m) (hb : Bounded limit L) : Bounded limit (m.apply L) where
  total i := by
    rw [attempts_apply he]
    have htotal := hb.total i
    cases m with
    | attempt w k =>
      obtain ⟨h, hh, rfl, hfresh⟩ := he
      have := hb.fresh h (mem_holdsOf.mp hh).1 hfresh
      by_cases hi : i = h.item
      · subst hi
        simp only [true_and]
        split <;> omega
      · simpa [hi] using htotal
    | _ => simpa using htotal
  waiting := waiting_apply hs he hlimit hr hb
  fresh := fresh_apply hs he hb

omit [DecidableEq γ] [LinearOrder τ] in
theorem sends_le (hs : Sound L) (hb : Bounded limit L) (i : ι) : sends L.log i ≤ limit :=
  Nat.le_trans (hs.counted i) (hb.total i)

end Steps

end WhatsappTester.Atomic.Lease
