import Mathlib.Data.List.Pairwise
import WhatsappTester.Atomic.Table

namespace WhatsappTester.Atomic.Serving

variable {ρ κ γ : Type} [DecidableEq κ]

/-- A table of rows in groups, each group in the order of its ranks, and the keys of the rows
that were served so far, the latest first. Every group is served in its order. -/
structure Served (key : ρ → κ) (group : ρ → γ) (rank : ρ → Nat) (rows : List ρ)
    (served : List κ) : Prop where
  known : ∀ k ∈ served, k ∈ rows.map key
  keys : (rows.map key).Nodup
  sorted : rows.Pairwise (fun r r' => group r = group r' → rank r < rank r')
  lower : ∀ r ∈ rows, ∀ r' ∈ rows, group r = group r' → rank r < rank r' → key r' ∈ served →
    key r ∈ served
  ordered : served.Pairwise (fun k k' => ∀ r ∈ rows, ∀ r' ∈ rows, key r = k → key r' = k' →
    group r = group r' → rank r' < rank r)

def ranks (key : ρ → κ) (rank : ρ → Nat) (rows : List ρ) (served : List κ) : List Nat :=
  served.filterMap (fun k => (Table.find key k rows).map rank)

variable {key : ρ → κ} {group : ρ → γ} {rank : ρ → Nat} {rows new : List ρ} {served : List κ}

omit [DecidableEq κ] in
theorem served_nil : Served key group rank [] [] where
  known := fun _ h => absurd h List.not_mem_nil
  keys := List.nodup_nil
  sorted := List.Pairwise.nil
  lower := fun _ h => absurd h List.not_mem_nil
  ordered := List.Pairwise.nil

omit [DecidableEq κ] in
theorem rank_ne (h : Served key group rank rows served) {r r' : ρ} (hr : r ∈ rows)
    (hr' : r' ∈ rows) (hne : r ≠ r') (hgroup : group r = group r') : rank r ≠ rank r' := by
  have hsorted : rows.Pairwise (fun r r' => group r = group r' → rank r ≠ rank r') :=
    h.sorted.imp (fun h hgroup => Nat.ne_of_lt (h hgroup))
  have : Std.Symm (fun r r' => group r = group r' → rank r ≠ rank r') :=
    ⟨fun _ _ h hgroup => (h hgroup.symm).symm⟩
  exact hsorted.forall hr hr' hne hgroup

omit [DecidableEq κ] in
/-- New rows make groups of their own. -/
theorem served_append (h : Served key group rank rows served)
    (hkeys : ((rows ++ new).map key).Nodup) (hgroup : ∀ r ∈ rows, ∀ r' ∈ new, group r ≠ group r')
    (hsorted : new.Pairwise (fun r r' => rank r < rank r')) :
    Served key group rank (rows ++ new) served := by
  have hold : ∀ r ∈ rows ++ new, key r ∈ served → r ∈ rows := by
    intro r hr hserved
    obtain ⟨a, ha, hkey⟩ := List.mem_map.mp (h.known _ hserved)
    have hsame := List.inj_on_of_nodup_map hkeys (List.mem_append_left new ha) hr hkey
    exact hsame ▸ ha
  refine ⟨fun k hk => ?_, hkeys, ?_, ?_, ?_⟩
  · rw [List.map_append]
    exact List.mem_append_left _ (h.known k hk)
  · have hnew : new.Pairwise (fun r r' => group r = group r' → rank r < rank r') := by
      refine hsorted.imp (fun hlt _ => ?_)
      exact hlt
    exact List.pairwise_append.mpr ⟨h.sorted, hnew,
      fun r hr r' hr' hsame => absurd hsame (hgroup r hr r' hr')⟩
  · intro r hr r' hr' hsame hlt hserved
    have hr' := hold r' hr' hserved
    obtain hr | hr := List.mem_append.mp hr
    · exact h.lower r hr r' hr' hsame hlt hserved
    · exact absurd hsame.symm (hgroup r' hr' r hr)
  · refine h.ordered.imp_of_mem (fun hk hk' hordered r hr r' hr' hkey hkey' hsame => ?_)
    exact hordered r (hold r hr (hkey ▸ hk)) r' (hold r' hr' (hkey' ▸ hk')) hkey hkey' hsame

/-- A row may be served once all rows of its group that rank below it have been. -/
theorem served_insert (h : Served key group rank rows served) {r : ρ} (hr : r ∈ rows)
    (hlower : ∀ r' ∈ rows, group r' = group r → rank r' < rank r → key r' ∈ served) :
    Served key group rank rows (served.insert (key r)) := by
  by_cases hmem : key r ∈ served
  case pos => rwa [List.insert_of_mem hmem]
  case neg =>
    rw [List.insert_of_not_mem hmem]
    have hsame : ∀ x ∈ rows, key x = key r → x = r :=
      fun x hx hkey => List.inj_on_of_nodup_map h.keys hx hr hkey
    refine ⟨?_, h.keys, h.sorted, ?_, List.pairwise_cons.mpr ⟨?_, h.ordered⟩⟩
    · exact List.forall_mem_cons.mpr ⟨List.mem_map_of_mem hr, h.known⟩
    · intro x hx y hy hgroup hlt hserved
      refine List.mem_cons_of_mem _ ?_
      obtain hkey | hserved := List.mem_cons.mp hserved
      · obtain rfl := hsame y hy hkey
        exact hlower x hx hgroup hlt
      · exact h.lower x hx y hy hgroup hlt hserved
    · intro k hk x hx y hy hkey hkey' hgroup
      obtain rfl := hsame x hx hkey
      have hserved : key y ∈ served := hkey' ▸ hk
      have hne : rank x ≠ rank y :=
        rank_ne h hx hy (fun hxy => hmem (hxy ▸ hserved)) hgroup
      by_contra hle
      have hlt : rank x < rank y := Nat.lt_of_le_of_ne (Nat.le_of_not_lt hle) hne
      exact hmem (h.lower x hx y hy hgroup hlt hserved)

theorem ranks_ordered (h : Served key group rank rows served) {g : γ} (p : ρ → Bool)
    (hp : ∀ r, p r → group r = g) :
    (ranks key rank (rows.filter p) served).Pairwise (fun n n' => n' < n) := by
  have hrow : ∀ {k n}, (Table.find key k (rows.filter p)).map rank = some n →
      ∃ r ∈ rows, key r = k ∧ group r = g ∧ rank r = n := by
    intro k n hfind
    obtain ⟨r, hr, hrank⟩ := Option.map_eq_some_iff.mp hfind
    obtain ⟨hmem, hkey⟩ := Table.find_mem hr
    obtain ⟨hmem, hpr⟩ := List.mem_filter.mp hmem
    exact ⟨r, hmem, hkey, hp r hpr, hrank⟩
  rw [ranks, List.pairwise_filterMap]
  refine h.ordered.imp (fun hordered n hn n' hn' => ?_)
  obtain ⟨r, hr, hkey, hgroup, rfl⟩ := hrow hn
  obtain ⟨r', hr', hkey', hgroup', rfl⟩ := hrow hn'
  exact hordered r hr r' hr' hkey hkey' (hgroup.trans hgroup'.symm)

end WhatsappTester.Atomic.Serving
