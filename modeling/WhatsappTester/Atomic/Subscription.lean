import WhatsappTester.Atomic.Mirror

namespace WhatsappTester.Atomic.Subscription

open Mirror

/-- A client that takes one snapshot of a table and hears of its changes in order. -/
structure Client (κ ν : Type) where
  connected : Bool := false
  inbox : List (Change κ ν) := []
  /-- The snapshot underway, with the number of changes in the inbox that it comes after. -/
  snapshot : Option ((κ → Option ν) × Nat) := none
  loaded : Bool := false
  held : κ → Option ν := fun _ => none
  /-- The changes after the snapshot that have not been made to it and will not be. -/
  missed : List (Change κ ν) := []

variable {κ ν : Type}

namespace Client

def asked (c : Client κ ν) : Bool := c.loaded || c.snapshot.isSome

def connect (c : Client κ ν) : Client κ ν := { c with connected := true }

def newer (c : Client κ ν) : List (Change κ ν) :=
  match c.snapshot with
  | some (_, older) => c.inbox.drop older
  | none => if c.loaded then c.inbox else []

def disconnect (c : Client κ ν) : Client κ ν :=
  { c with
    connected := false
    inbox := []
    snapshot := c.snapshot.map (fun s => (s.1, 0))
    missed := c.missed ++ c.newer }

def hear (cs : List (Change κ ν)) (c : Client κ ν) : Client κ ν :=
  if c.connected then { c with inbox := c.inbox ++ cs }
  else if c.asked then { c with missed := c.missed ++ cs }
  else c

def fetch (m : κ → Option ν) (c : Client κ ν) : Client κ ν :=
  if c.asked then c else { c with snapshot := some (m, c.inbox.length) }

def respond (c : Client κ ν) : Client κ ν :=
  match c.snapshot with
  | none => c
  | some (m, _) => { c with snapshot := none, loaded := true, held := m }

variable [DecidableEq κ]

/-- A change that is made before the snapshot arrives is made in vain. -/
def deliver (c : Client κ ν) : Client κ ν :=
  match c.inbox with
  | [] => c
  | x :: rest =>
    { c with
      inbox := rest
      snapshot := c.snapshot.map (fun s => (s.1, s.2 - 1))
      held := apply c.held x
      missed := if c.snapshot.any (fun s => s.2 == 0) then c.missed ++ [x] else c.missed }

end Client

open Client

variable [DecidableEq κ]

def Spared (cs : List (Change κ ν)) (k : κ) : Prop := ∀ c ∈ cs, c.key ≠ k

/-- The client comes to hold the table, but for what it has missed. -/
structure Follows (m : κ → Option ν) (c : Client κ ν) : Prop where
  empty : c.connected = false → c.inbox = []
  fresh : c.asked = false → ∃ m₀, replay m₀ c.inbox = m
  once : c.loaded = true → c.snapshot = none
  older : ∀ s k, c.snapshot = some (s, k) → k ≤ c.inbox.length ∧ replay s (c.inbox.take k) = s
  newer : ∀ s k, c.snapshot = some (s, k) → ∀ key, Spared c.missed key →
    replay s (c.inbox.drop k) key = m key
  held : c.loaded = true → ∀ key, Spared c.missed key → replay c.held c.inbox key = m key

variable {m : κ → Option ν} {c : Client κ ν} {cs ds : List (Change κ ν)} {key : κ}

omit [DecidableEq κ] in
theorem spared_append : Spared (cs ++ ds) key ↔ Spared cs key ∧ Spared ds key :=
  List.forall_mem_append

theorem follows_new (m : κ → Option ν) : Follows m ({} : Client κ ν) :=
  ⟨fun _ => rfl, fun _ => ⟨m, rfl⟩, nofun, nofun, nofun, nofun⟩

theorem follows_connect (h : Follows m c) : Follows m c.connect :=
  ⟨nofun, h.fresh, h.once, h.older, h.newer, h.held⟩

theorem follows_disconnect (h : Follows m c) : Follows m c.disconnect := by
  refine ⟨fun _ => rfl, fun _ => ⟨m, rfl⟩, fun hloaded => ?_, fun s k hs => ?_,
    fun s k hs key hkey => ?_, fun hloaded key hkey => ?_⟩
  · simp [disconnect, h.once hloaded]
  · obtain ⟨⟨s', k'⟩, hs', heq⟩ := Option.map_eq_some_iff.mp hs
    cases heq
    exact ⟨Nat.le_refl _, rfl⟩
  · obtain ⟨⟨s', k'⟩, hs', heq⟩ := Option.map_eq_some_iff.mp hs
    cases heq
    obtain ⟨hmissed, hlost⟩ := spared_append.mp hkey
    rw [← h.newer _ _ hs' key hmissed]
    simp only [Client.newer, hs'] at hlost
    exact (replay_untouched hlost).symm
  · obtain ⟨hmissed, hlost⟩ := spared_append.mp hkey
    simp only [Client.newer, h.once hloaded, show c.loaded = true from hloaded, if_true] at hlost
    rw [← h.held hloaded key hmissed]
    exact (replay_untouched hlost).symm

/-- The table changes, and the client is told. -/
theorem follows_hear (h : Follows m c) (cs : List (Change κ ν)) :
    Follows (replay m cs) (c.hear cs) := by
  have hat : ∀ {m' : κ → Option ν} {key}, m' key = m key → replay m' cs key = replay m cs key :=
    fun heq => replay_touched (.inl heq)
  unfold hear
  split
  case isTrue hconnected =>
    refine ⟨fun hnot => absurd hconnected (by simp [show c.connected = false from hnot]),
      fun hasked => ?_, h.once, fun s k hs => ?_, fun s k hs key hkey => ?_,
      fun hloaded key hkey => ?_⟩
    · obtain ⟨m₀, hm₀⟩ := h.fresh hasked
      exact ⟨m₀, by rw [replay_append, hm₀]⟩
    · obtain ⟨hk, holder⟩ := h.older s k hs
      refine ⟨by simp; omega, ?_⟩
      rw [List.take_append_of_le_length hk]
      exact holder
    · rw [List.drop_append_of_le_length (h.older s k hs).1, replay_append]
      exact hat (h.newer s k hs key hkey)
    · rw [replay_append]
      exact hat (h.held hloaded key hkey)
  case isFalse hconnected =>
    have hempty := h.empty (by simpa using hconnected)
    split
    case isTrue hasked =>
      refine ⟨fun _ => hempty, fun hnot => absurd hasked (by simp [show c.asked = false from hnot]),
        h.once, h.older, fun s k hs key hkey => ?_, fun hloaded key hkey => ?_⟩
      · obtain ⟨hmissed, hcs⟩ := spared_append.mp hkey
        rw [replay_untouched hcs]
        exact h.newer s k hs key hmissed
      · obtain ⟨hmissed, hcs⟩ := spared_append.mp hkey
        rw [replay_untouched hcs]
        exact h.held hloaded key hmissed
    case isFalse hasked =>
      have hneither : c.loaded = false ∧ c.snapshot = none := by simpa [asked] using hasked
      refine ⟨fun _ => hempty, fun _ => ⟨replay m cs, by rw [hempty, replay_nil]⟩, h.once,
        h.older, fun s k hs => ?_, fun hloaded => ?_⟩
      · rw [hneither.2] at hs
        cases hs
      · rw [hneither.1] at hloaded
        cases hloaded

theorem follows_fetch (h : Follows m c) : Follows m (c.fetch m) := by
  unfold fetch
  split
  · exact h
  case isFalse hasked =>
    obtain ⟨m₀, hm₀⟩ := h.fresh (by simpa using hasked)
    have hneither : c.loaded = false ∧ c.snapshot = none := by simpa [asked] using hasked
    refine ⟨h.empty, fun hnot => absurd hnot (by simp [asked]), fun hloaded => ?_, fun s k hs => ?_,
      fun s k hs key _ => ?_, fun hloaded => ?_⟩
    · exact absurd hloaded (by simp [hneither.1])
    · cases hs
      refine ⟨Nat.le_refl _, ?_⟩
      have hagain := replay_again m₀ [] c.inbox
      rwa [List.nil_append, hm₀, ← List.take_length (l := c.inbox)] at hagain
    · cases hs
      rw [List.drop_length, replay_nil]
    · exact absurd hloaded (by simp [hneither.1])

theorem follows_respond (h : Follows m c) : Follows m c.respond := by
  unfold respond
  split
  · exact h
  case h_2 s k hs =>
    obtain ⟨_, holder⟩ := h.older s k hs
    refine ⟨h.empty, fun hnot => absurd hnot (by simp [asked]), fun _ => rfl, nofun, nofun,
      fun _ key hkey => ?_⟩
    rw [← List.take_append_drop k c.inbox, replay_append, holder]
    exact h.newer s k hs key hkey

theorem follows_deliver (h : Follows m c) : Follows m c.deliver := by
  unfold deliver
  split
  · exact h
  case h_2 x rest hinbox =>
    refine ⟨fun hnot => ?_, fun hasked => ?_, fun hloaded => ?_, fun s k hs => ?_,
      fun s k hs key hkey => ?_, fun hloaded key hkey => ?_⟩
    · exact absurd (hinbox.symm.trans (h.empty hnot)) (by simp)
    · obtain ⟨m₀, hm₀⟩ := h.fresh (by simpa [asked] using hasked)
      exact ⟨apply m₀ x, by rw [← hm₀, hinbox, replay_cons]⟩
    · simp [h.once hloaded]
    · obtain ⟨⟨s', k'⟩, hs', heq⟩ := Option.map_eq_some_iff.mp hs
      cases heq
      obtain ⟨hk, holder⟩ := h.older _ _ hs'
      rw [hinbox] at hk holder
      cases k' with
      | zero => exact ⟨Nat.zero_le _, rfl⟩
      | succ k' =>
        refine ⟨Nat.le_of_succ_le_succ hk, ?_⟩
        have hagain := replay_again s' [x] (rest.take k')
        rw [List.singleton_append, ← List.take_succ_cons, holder] at hagain
        exact hagain
    · obtain ⟨⟨s', k'⟩, hs', heq⟩ := Option.map_eq_some_iff.mp hs
      cases heq
      rw [hs'] at hkey
      cases k' with
      | zero =>
        obtain ⟨hmissed, hx⟩ := spared_append.mp hkey
        rw [← h.newer _ _ hs' key hmissed, hinbox]
        refine replay_touched (.inl (apply_other ?_).symm)
        exact Ne.symm (hx x List.mem_cons_self)
      | succ k' =>
        rw [← h.newer _ _ hs' key hkey, hinbox]
        rfl
    · have hnone := h.once hloaded
      simp only [hnone, Option.any_none, Bool.false_eq_true, if_false] at hkey
      rw [← h.held hloaded key hkey, hinbox, replay_cons]

end WhatsappTester.Atomic.Subscription
