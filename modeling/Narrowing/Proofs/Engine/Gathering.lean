import Narrowing.Proofs.Engine.Waiting
import Mathlib.Data.List.Nodup

/-!
What gathers in a backlog. For every key it is all that was there and all that arrived, and keys that
arrive come after those that wait. What arrives because of a change is, for every listener that
watches the domain, those of the events that it wants to hear of.
-/

namespace Narrowing

namespace EventSet

variable {a b c : EventSet}

theorem empty_union (a : EventSet) : ∅ ∪ a = a := ext fun e => by simp

theorem union_empty (a : EventSet) : a ∪ ∅ = a := ext fun e => by simp

theorem union_assoc (a b c : EventSet) : a ∪ b ∪ c = a ∪ (b ∪ c) := ext fun e => by simp [or_assoc]

theorem union_ne_empty : a ∪ b ≠ ∅ ↔ a ≠ ∅ ∨ b ≠ ∅ := by
  constructor
  · intro h
    obtain ⟨e, he⟩ := exists_mem h
    exact (mem_union.1 he).imp ne_empty_of_mem ne_empty_of_mem
  · rintro (h | h)
    · obtain ⟨e, he⟩ := exists_mem h
      exact ne_empty_of_mem (mem_union.2 (Or.inl he))
    · obtain ⟨e, he⟩ := exists_mem h
      exact ne_empty_of_mem (mem_union.2 (Or.inr he))

end EventSet

/-! ### All that is listed for a key -/

namespace Backlog

variable {κ : Type} [DecidableEq κ] {b : Backlog κ EventSet} {arrivals entries : List (κ × EventSet)}
  {k k' : κ} {events : EventSet} {R : κ → κ → Prop}

/-- All that is listed for a key. -/
def total (k : κ) : List (κ × EventSet) → EventSet
  | [] => ∅
  | (k', events) :: rest => if k' = k then events ∪ total k rest else total k rest

theorem mem_total {e : Event} : e ∈ total k entries ↔ ∃ events, (k, events) ∈ entries ∧ e ∈ events := by
  induction entries with
  | nil => simp [total]
  | cons entry rest ih =>
      obtain ⟨k', events⟩ := entry
      rw [total]
      split
      · next hk => simp [ih, hk, or_and_right, exists_or]
      · next hk => simp [ih, Ne.symm hk]

theorem total_insertEntry (k k' : κ) (events : EventSet) (entries : List (κ × EventSet)) :
    total k' (insertEntry k events entries) =
      total k' entries ∪ if k = k' then events else ∅ := by
  induction entries with
  | nil => simp only [insertEntry, total, EventSet.empty_union, EventSet.union_empty]
  | cons entry rest ih =>
      obtain ⟨k₀, events₀⟩ := entry
      rw [insertEntry]
      split
      · next hk =>
        subst hk
        simp only [total]
        refine EventSet.ext fun e => ?_
        by_cases hk' : k₀ = k'
        · simp only [if_pos hk', EventSet.mem_union]
          tauto
        · simp only [if_neg hk', EventSet.union_empty]
      · rw [total, total, ih]
        split
        · rw [EventSet.union_assoc]
        · rfl

theorem total_addAll (k : κ) (arrivals : List (κ × EventSet)) :
    total k (b.addAll arrivals).entries = total k b.entries ∪ total k arrivals := by
  induction arrivals generalizing b with
  | nil => exact (EventSet.union_empty _).symm
  | cons arrival rest ih =>
      obtain ⟨k', events⟩ := arrival
      refine (ih (b := b.add k' events)).trans ?_
      rw [show (b.add k' events).entries = insertEntry k' events b.entries from rfl,
        total_insertEntry, EventSet.union_assoc, total]
      by_cases hk : k' = k
      · rw [if_pos hk, if_pos hk]
      · rw [if_neg hk, if_neg hk, EventSet.empty_union]

theorem total_of_notMem (h : k ∉ entries.map Prod.fst) : total k entries = ∅ := by
  by_contra hne
  obtain ⟨e, he⟩ := EventSet.exists_mem hne
  obtain ⟨events, hmem, -⟩ := mem_total.1 he
  exact h (List.mem_map_of_mem hmem)

/-- For a key that is listed once that is what is listed with it. -/
theorem total_of_mem (hnodup : (entries.map Prod.fst).Nodup) (h : (k, events) ∈ entries) :
    total k entries = events := by
  refine EventSet.ext fun e => mem_total.trans ⟨?_, fun he => ⟨events, h, he⟩⟩
  rintro ⟨events', hmem, he⟩
  obtain ⟨-, rfl⟩ := Prod.mk.inj (List.inj_on_of_nodup_map hnodup hmem h rfl)
  exact he

/-- Where nothing is listed in vain, the listed keys are those for which there is something. -/
theorem mem_keys_iff_total (h : ∀ x ∈ entries, x.2 ≠ ∅) :
    k ∈ entries.map Prod.fst ↔ total k entries ≠ ∅ := by
  constructor
  · intro hk
    obtain ⟨⟨k', events⟩, hmem, rfl⟩ := List.mem_map.1 hk
    obtain ⟨e, he⟩ := EventSet.exists_mem (h _ hmem)
    exact EventSet.ne_empty_of_mem (mem_total.2 ⟨events, hmem, he⟩)
  · intro hne
    by_contra hk
    exact hne (total_of_notMem hk)

/-- Keys that arrive come after those that wait, in the order of the arrivals. -/
theorem pairwise_keys_addAll (hb : b.keys.Pairwise R)
    (harrivals : (arrivals.map Prod.fst).Pairwise fun k k' => k ∉ b.keys → k' ∉ b.keys → R k k')
    (hlater : ∀ k ∈ b.keys, ∀ k' ∈ arrivals.map Prod.fst, k' ∉ b.keys → R k k') :
    (b.addAll arrivals).keys.Pairwise R := by
  induction arrivals generalizing b with
  | nil => exact hb
  | cons arrival rest ih =>
      obtain ⟨k, events⟩ := arrival
      obtain ⟨hfirst, hrest⟩ := List.pairwise_cons.1 harrivals
      have hkeys := keys_add b k events
      by_cases hk : k ∈ b.keys
      · rw [if_pos hk] at hkeys
        refine ih (b := b.add k events) ?_ ?_ ?_
        · rwa [hkeys]
        · rwa [hkeys]
        · rw [hkeys]
          exact fun k₁ h₁ k' h' => hlater k₁ h₁ k' (List.mem_cons_of_mem _ h')
      · rw [if_neg hk] at hkeys
        have hsub : ∀ k' ∉ (b.add k events).keys, k' ∉ b.keys := fun k' h' hmem =>
          h' (hkeys ▸ List.mem_append_left _ hmem)
        refine ih (b := b.add k events) ?_ ?_ ?_
        · rw [hkeys, List.pairwise_append]
          refine ⟨hb, List.pairwise_singleton R k, fun k₁ h₁ k₂ h₂ => ?_⟩
          obtain rfl := List.mem_singleton.1 h₂
          exact hlater k₁ h₁ k₂ List.mem_cons_self hk
        · exact hrest.imp fun h h₁ h₂ => h (hsub _ h₁) (hsub _ h₂)
        · intro k₁ h₁ k' h' hnew
          rw [hkeys, List.mem_append, List.mem_singleton] at h₁
          rcases h₁ with h₁ | rfl
          · exact hlater k₁ h₁ k' (List.mem_cons_of_mem _ h') (hsub k' hnew)
          · exact hfirst k' h' hk (hsub k' hnew)

end Backlog

/-! ### What a change means to those who watch -/

namespace Notifier

variable {n : Notifier} {o : Occurrence} {new : Watch} {ws : List Watch} {notices : List Notice}
  {os : List Occurrence} {skips : Bool} {l : Listener} {events events' : EventSet}

/-- What a change means for a listener that wants to hear of `events`: nothing, if it is a change of
its own and those are skipped. -/
def heard (skips : Bool) (l : Listener) (events : EventSet) (o : Occurrence) : EventSet :=
  if skips = true ∧ o.cause = .propagator l.propagator then ∅ else events ∩ o.events

theorem heard_empty (skips : Bool) (l : Listener) (o : Occurrence) : heard skips l ∅ o = ∅ := by
  unfold heard
  split
  · rfl
  · exact EventSet.ext fun e => by simp

theorem heard_union (skips : Bool) (l : Listener) (events events' : EventSet) (o : Occurrence) :
    heard skips l (events ∪ events') o = heard skips l events o ∪ heard skips l events' o := by
  unfold heard
  split
  · exact (EventSet.empty_union ∅).symm
  · exact EventSet.ext fun e => by simp [or_and_right]

theorem notice?_eq (n : Notifier) (o : Occurrence) (w : Watch) :
    n.notice? o w = if heard n.skipsOwn w.listener w.events o = ∅ then none
      else some ⟨o, w.listener, heard n.skipsOwn w.listener w.events o⟩ := by
  unfold notice? heard
  by_cases hown : n.skipsOwn = true ∧ o.cause = .propagator w.listener.propagator
  · simp [hown]
  · have hfalse : ¬ (n.skipsOwn && o.cause == .propagator w.listener.propagator) = true := by
      simpa using hown
    simp only [if_neg hown, if_neg hfalse, EventSet.isEmpty_iff]

/-- What arrives because of a change, from those who watch. -/
def arrivals (skips : Bool) (o : Occurrence) (ws : List Watch) : List (Listener × EventSet) :=
  (ws.filter fun w => heard skips w.listener w.events o ≠ ∅).map fun w =>
    (w.listener, heard skips w.listener w.events o)

theorem map_filterMap_notice? (n : Notifier) (o : Occurrence) (ws : List Watch) :
    (ws.filterMap (n.notice? o)).map (fun x => (x.listener, x.events)) =
      arrivals n.skipsOwn o ws := by
  induction ws with
  | nil => rfl
  | cons w rest ih =>
      unfold arrivals at ih ⊢
      rw [List.filterMap_cons, notice?_eq, List.filter_cons]
      by_cases hnone : heard n.skipsOwn w.listener w.events o = ∅
      · simpa [hnone] using ih
      · simpa [hnone] using ih

theorem ne_empty_of_mem_arrivals {x : Listener × EventSet} (h : x ∈ arrivals skips o ws) :
    x.2 ≠ ∅ := by
  obtain ⟨w, hw, rfl⟩ := List.mem_map.1 h
  simpa using (List.mem_filter.1 hw).2

theorem sublist_arrivals (skips : Bool) (o : Occurrence) (ws : List Watch) :
    ((arrivals skips o ws).map Prod.fst).Sublist (ws.map Watch.listener) := by
  unfold arrivals
  rw [List.map_map]
  exact List.filter_sublist.map Watch.listener

/-- A watch, as an entry of a backlog. -/
def entry (w : Watch) : Listener × EventSet := (w.listener, w.events)

/-- Watches are added to each other as what waits is. -/
theorem map_entry_addWatch (new : Watch) (ws : List Watch) :
    (addWatch new ws).map entry = Backlog.insertEntry new.listener new.events (ws.map entry) := by
  induction ws with
  | nil => rfl
  | cons w rest ih =>
      rw [addWatch, List.map_cons, entry, Backlog.insertEntry]
      split
      · rfl
      · rw [List.map_cons, ih]
        rfl

theorem total_arrivals (skips : Bool) (o : Occurrence) (ws : List Watch) (l : Listener) :
    Backlog.total l (arrivals skips o ws) =
      heard skips l (Backlog.total l (ws.map entry)) o := by
  induction ws with
  | nil => exact (heard_empty skips l o).symm
  | cons w rest ih =>
      rw [List.map_cons, entry, Backlog.total]
      unfold arrivals at ih ⊢
      rw [List.filter_cons]
      by_cases hl : w.listener = l
      · subst hl
        rw [if_pos rfl, heard_union, ← ih]
        by_cases hnone : heard skips w.listener w.events o = ∅
        · simp [hnone, EventSet.empty_union]
        · simp [hnone, Backlog.total]
      · rw [if_neg hl, ← ih]
        by_cases hnone : heard skips w.listener w.events o = ∅
        · simp [hnone]
        · simp [hnone, Backlog.total, hl]

end Notifier

end Narrowing
