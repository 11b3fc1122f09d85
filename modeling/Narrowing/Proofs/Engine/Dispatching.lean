import Narrowing.Engine.Dispatcher

/-!
A queue and a map in step. Whatever is watched, reported, picked up and dropped, the queue of a
dispatcher lists the keys of the notifier's backlog, and its map has for each of them what has
gathered in the backlog.
-/

namespace Narrowing

variable {n n' : Notifier} {d d' : Dispatcher} {id : DomainId} {new : Watch} {o : Occurrence}
  {os : List Occurrence} {notices : List Notice} {l : Listener} {events : EventSet}

/-- `d` keeps the backlog of `n` in a queue and a map. -/
structure Mirrored (n : Notifier) (d : Dispatcher) : Prop where
  watches_eq : d.watches = n.watches
  skipsOwn_eq : d.skipsOwn = n.skipsOwn
  queue_eq : d.queue = n.pending.keys
  lookup_eq : ∀ l, d.pending.lookup l = n.pending.gathered? l

namespace Mirrored

theorem grow (h : Mirrored n d) : Mirrored n.grow d.grow :=
  ⟨congrArg (·.push []) h.watches_eq, h.skipsOwn_eq, h.queue_eq, h.lookup_eq⟩

/-- The same domains can be watched. -/
theorem watch (h : Mirrored n d) (hn : n.watch id new = .ok n') :
    ∃ d', d.watch id new = .ok d' ∧ Mirrored n' d' := by
  obtain ⟨ws, hws, hn⟩ := Checked.bind_eq_ok hn
  obtain rfl := Except.ok.inj hn
  rw [Dispatcher.watch, h.watches_eq, hws]
  exact ⟨_, rfl, rfl, h.skipsOwn_eq, h.queue_eq, h.lookup_eq⟩

/-- What gathers in the map is what gathers in the backlog. -/
theorem lookup_insert (h : Mirrored n d) (l : Listener) (events : EventSet) (l' : Listener) :
    (d.pending.insert l (((d.pending.lookup l).map (· ∪ events)).getD events)).lookup l' =
      (n.pending.add l events).gathered? l' := by
  rw [Backlog.gathered?_add, ← h.lookup_eq, ← h.lookup_eq]
  split
  · next hl => rw [hl, Finmap.lookup_insert]
  · next hl => exact Finmap.lookup_insert_of_ne _ hl

/-- A listener joins the queue if the map has nothing for it, and the backlog if it has no entry
there. -/
theorem add (h : Mirrored n d) (l : Listener) (events : EventSet) :
    Mirrored { n with pending := n.pending.add l events } (d.add l events) := by
  have hinsert := h.lookup_insert l events
  have hgathered := h.lookup_eq l
  unfold Dispatcher.add
  cases hlookup : d.pending.lookup l with
  | none =>
      rw [hlookup] at hinsert hgathered
      refine ⟨h.watches_eq, h.skipsOwn_eq, ?_, hinsert⟩
      rw [Backlog.keys_add, if_neg (Backlog.gathered?_eq_none.1 hgathered.symm), ← h.queue_eq]
  | some before =>
      rw [hlookup] at hinsert hgathered
      have hmem : l ∈ n.pending.keys := by
        by_contra hnone
        rw [Backlog.gathered?_eq_none.2 hnone] at hgathered
        exact nomatch hgathered
      refine ⟨h.watches_eq, h.skipsOwn_eq, ?_, hinsert⟩
      rw [Backlog.keys_add, if_pos hmem, ← h.queue_eq]

/-- A change is taken up for the listener of a watch if it means something for that listener. -/
theorem tell (h : Mirrored n d) (o : Occurrence) (w : Watch) :
    Mirrored (n.accept (n.notice? o w).toList) (d.tell o w) := by
  unfold Dispatcher.tell Notifier.notice?
  rw [h.skipsOwn_eq]
  split
  · exact h
  · dsimp only
    split
    · exact h
    · exact h.add w.listener (w.events ∩ o.events)

/-- A change is taken up for everyone who watches the domain. -/
theorem tellAll (h : Mirrored n d) (o : Occurrence) (ws : List Watch) :
    Mirrored (n.accept (ws.filterMap (n.notice? o))) (ws.foldl (Dispatcher.tell o) d) := by
  induction ws generalizing n d with
  | nil => exact h
  | cons w rest ih =>
      have hsplit : (w :: rest).filterMap (n.notice? o) =
          (n.notice? o w).toList ++ rest.filterMap (n.notice? o) := by
        rw [List.filterMap_cons]
        cases n.notice? o w <;> rfl
      rw [hsplit, Notifier.accept_append, List.foldl_cons]
      exact ih (h.tell o w)

/-- Reported changes are taken up by both. -/
theorem notify (h : Mirrored n d) (hnotices : n.noticesOfAll os = .ok notices) :
    ∃ d', d.notify os = .ok d' ∧ Mirrored (n.accept notices) d' := by
  induction os generalizing n d notices with
  | nil =>
      obtain rfl := Except.ok.inj hnotices
      exact ⟨d, rfl, h⟩
  | cons o rest ih =>
      obtain ⟨here, hhere, hnotices⟩ := Checked.bind_eq_ok hnotices
      obtain ⟨others, hothers, hnotices⟩ := Checked.bind_eq_ok hnotices
      obtain rfl := Except.ok.inj hnotices
      obtain ⟨ws, hws, hhere⟩ := Checked.bind_eq_ok hhere
      obtain rfl := Except.ok.inj hhere
      rw [Dispatcher.notify, h.watches_eq, hws, Notifier.accept_append]
      exact ih (h.tellAll o ws) ((Notifier.noticesOfAll_accept _ _ _).trans hothers)

/-- The same notification is picked up. Its listener leaves the queue and the map. -/
theorem pop (h : Mirrored n d) (hnodup : n.pending.keys.Nodup)
    (hn : n.pop? = some ((l, events), n')) :
    ∃ d', d.pop? = some ((l, events), d') ∧ Mirrored n' d' := by
  obtain ⟨rest, hpending, rfl⟩ := Notifier.pop?_eq_some hn
  have hqueue := h.queue_eq
  have hlookup := h.lookup_eq
  rw [hpending] at hqueue hlookup hnodup
  have hfirst : d.pending.lookup l = some events := by
    rw [hlookup, Backlog.gathered?_eq_some hnodup]
    exact List.mem_cons_self
  rw [Dispatcher.pop?, hqueue]
  refine ⟨_, congrArg (fun e => some ((l, e), _)) (congrArg (Option.getD · ∅) hfirst), h.watches_eq,
    h.skipsOwn_eq, rfl, fun l' => ?_⟩
  by_cases hl : l' = l
  · rw [hl, Finmap.lookup_erase, eq_comm, Backlog.gathered?_eq_none]
    exact (List.nodup_cons.1 hnodup).1
  · rw [Finmap.lookup_erase_ne hl, hlookup, Backlog.gathered?, Backlog.lookup_cons, if_neg hl]
    rfl

theorem pop?_eq_none (h : Mirrored n d) : d.pop? = none ↔ n.pop? = none := by
  rw [Notifier.pop?_eq_none, ← h.queue_eq, Dispatcher.pop?]
  split
  · next hqueue => exact iff_of_true rfl hqueue
  · next hqueue => exact iff_of_false nofun (hqueue ▸ nofun)

/-- The two pick up the same. -/
theorem map_pop? (h : Mirrored n d) (hnodup : n.pending.keys.Nodup) :
    d.pop?.map Prod.fst = n.pop?.map Prod.fst := by
  cases hn : n.pop? with
  | none => rw [h.pop?_eq_none.2 hn]; rfl
  | some popped =>
      obtain ⟨⟨l, events⟩, n'⟩ := popped
      obtain ⟨d', hd, -⟩ := h.pop hnodup hn
      rw [hd]
      rfl

theorem hasPending_eq (h : Mirrored n d) : d.hasPending = n.hasPending := by
  rw [Dispatcher.hasPending, h.queue_eq, Notifier.hasPending, Backlog.isEmpty, Backlog.keys,
    List.isEmpty_map]

theorem clear (h : Mirrored n d) : Mirrored n.clear d.clear :=
  ⟨h.watches_eq, h.skipsOwn_eq, rfl, fun _ => rfl⟩

end Mirrored

end Narrowing
