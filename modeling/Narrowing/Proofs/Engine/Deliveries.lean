import Narrowing.Proofs.Engine.Dispatching
import Narrowing.Proofs.Engine.Gathering
import Narrowing.Proofs.Variable.Edits

/-!
What a notifier delivers. Its history tells for every listener what changes meant to it since it was
last served: of every change that it was told of, the events that it had asked for by then. Exactly
the listeners for which that is something wait, each of them once and with all of it, and they are
served in the order in which they came to wait. A dispatcher, which keeps a queue and a map, does the
same, and the two never get out of step.
-/

namespace Narrowing

/-- What happens to a notifier, one thing at a time. -/
inductive Dealing where
  /-- A listener asks for events of a domain. -/
  | watched (id : DomainId) (new : Watch)
  /-- A change is reported. -/
  | told (o : Occurrence)
  /-- What waits for a listener is picked up. -/
  | popped (l : Listener)
  /-- All that waits is dropped. -/
  | cleared
  deriving DecidableEq, Repr

namespace Dealing

variable {past : List Dealing} {id : DomainId} {l : Listener} {skips : Bool}

/-! ### What a history amounts to

A history has the latest dealing first. -/

/-- The events of a domain that a listener asked for. -/
def mask (l : Listener) (id : DomainId) : List Dealing → EventSet
  | [] => ∅
  | .watched j new :: past =>
    if j = id ∧ new.listener = l then mask l id past ∪ new.events else mask l id past
  | _ :: past => mask l id past

/-- All that changes meant for a listener since what waited for it was last picked up or dropped. -/
def gathered (skips : Bool) (l : Listener) : List Dealing → EventSet
  | [] => ∅
  | .watched _ _ :: past => gathered skips l past
  | .told o :: past => gathered skips l past ∪ Notifier.heard skips l (mask l o.domain past) o
  | .popped l' :: past => if l' = l then ∅ else gathered skips l past
  | .cleared :: _ => ∅

/-- How many dealings there were before a listener first asked for events of a domain. -/
def first? (l : Listener) (id : DomainId) : List Dealing → Option Nat
  | [] => none
  | .watched j new :: past =>
    (first? l id past).or (if j = id ∧ new.listener = l then some past.length else none)
  | _ :: past => first? l id past

/-- The same of a listener that did. -/
def joined (l : Listener) (id : DomainId) (past : List Dealing) : Nat := (first? l id past).getD 0

/-- For a listener that waits: how many dealings there were before the change that made it wait, and
before it first asked for events of the changed domain. -/
def since (skips : Bool) (l : Listener) : List Dealing → Nat × Nat
  | .told o :: past =>
    if gathered skips l past = ∅ then (past.length, joined l o.domain past) else since skips l past
  | .watched _ _ :: past => since skips l past
  | .popped _ :: past => since skips l past
  | _ => (0, 0)

/-- Of two listeners that wait, the first one has waited longer: an earlier change made it wait, or it
asked earlier for events of the domain whose change made both of them wait. -/
def Before (skips : Bool) (past : List Dealing) (l l' : Listener) : Prop :=
  (since skips l past).1 < (since skips l' past).1 ∨
    (since skips l past).1 = (since skips l' past).1 ∧
      (since skips l past).2 < (since skips l' past).2

instance (l l' : Listener) : Decidable (Before skips past l l') := by
  unfold Before
  infer_instance

/-- Whether what waits for a listener is picked up or dropped. -/
def Serves (l : Listener) : Dealing → Prop
  | .popped l' => l' = l
  | .cleared => True
  | _ => False

theorem mem_mask {e : Event} : e ∈ mask l id past ↔
    ∃ new, .watched id new ∈ past ∧ new.listener = l ∧ e ∈ new.events := by
  induction past with
  | nil => simp [mask]
  | cons m past ih =>
      cases m with
      | watched j new =>
          rw [mask]
          by_cases hwatch : j = id ∧ new.listener = l
          · obtain ⟨rfl, rfl⟩ := hwatch
            simp only [and_self, if_true, EventSet.mem_union, ih, List.mem_cons, watched.injEq,
              true_and, or_and_right, exists_or, exists_eq_left]
            exact or_comm
          · rw [if_neg hwatch, ih]
            simp only [List.mem_cons, watched.injEq]
            grind
      | _ => simp [mask, ih]

/-- A change since a listener was last served is the latest dealing, or it is among those before
that and the latest dealing did not serve the listener. -/
theorem exists_recent_cons {m : Dealing} {P : Occurrence → List Dealing → Prop} :
    (∃ recent o earlier, m :: past = recent ++ .told o :: earlier ∧
        (∀ m ∈ recent, ¬ m.Serves l) ∧ P o earlier) ↔
      (∃ o, m = .told o ∧ P o past) ∨ ¬ m.Serves l ∧
        ∃ recent o earlier, past = recent ++ .told o :: earlier ∧
          (∀ m ∈ recent, ¬ m.Serves l) ∧ P o earlier := by
  constructor
  · rintro ⟨recent, o, earlier, hpast, hrecent, hP⟩
    rcases List.cons_eq_append_iff.1 hpast with ⟨rfl, hm⟩ | ⟨recent', rfl, rfl⟩
    · obtain ⟨rfl, rfl⟩ := List.cons.inj hm
      exact Or.inl ⟨o, rfl, hP⟩
    · obtain ⟨hm, hrecent'⟩ := List.forall_mem_cons.1 hrecent
      exact Or.inr ⟨hm, recent', o, earlier, rfl, hrecent', hP⟩
  · rintro (⟨o, rfl, hP⟩ | ⟨hm, recent, o, earlier, rfl, hrecent, hP⟩)
    · exact ⟨[], o, past, rfl, List.forall_mem_nil _, hP⟩
    · exact ⟨m :: recent, o, earlier, rfl, List.forall_mem_cons.2 ⟨hm, hrecent⟩, hP⟩

/-- What gathered comes from the changes since the listener was last served: those of their events
that it had asked for by then, unless it made the change itself and that is skipped. -/
theorem mem_gathered {e : Event} : e ∈ gathered skips l past ↔
    ∃ recent o earlier, past = recent ++ .told o :: earlier ∧ (∀ m ∈ recent, ¬ m.Serves l) ∧
      e ∈ Notifier.heard skips l (mask l o.domain earlier) o := by
  induction past with
  | nil => simp [gathered]
  | cons m past ih =>
      rw [exists_recent_cons, ← ih]
      cases m with
      | watched id new => simp [gathered, Serves]
      | told o => simp [gathered, Serves, or_comm]
      | popped l' =>
          rw [gathered]
          split
          · next hl => simp [Serves, hl]
          · next hl => simp [Serves, hl]
      | cleared => simp [gathered, Serves]

/-- A listener has waited since a change that found nothing gathered for it. -/
theorem since_eq (h : gathered skips l past ≠ ∅) :
    ∃ recent o earlier, past = recent ++ .told o :: earlier ∧ (∀ m ∈ recent, ¬ m.Serves l) ∧
      gathered skips l earlier = ∅ ∧ Notifier.heard skips l (mask l o.domain earlier) o ≠ ∅ ∧
      since skips l past = (earlier.length, joined l o.domain earlier) := by
  induction past with
  | nil => exact absurd rfl h
  | cons m past ih =>
      rw [exists_recent_cons]
      cases m with
      | watched id new => exact Or.inr ⟨not_false, ih h⟩
      | told o =>
          rw [since]
          by_cases hnone : gathered skips l past = ∅
          · rw [gathered, hnone, EventSet.empty_union] at h
            exact Or.inl ⟨o, rfl, hnone, h, if_pos hnone⟩
          · simp only [if_neg hnone]
            exact Or.inr ⟨not_false, ih hnone⟩
      | popped l' =>
          rw [gathered] at h
          split at h
          · exact absurd rfl h
          · next hl => exact Or.inr ⟨hl, ih h⟩
      | cleared => exact absurd rfl h

theorem since_lt (h : gathered skips l past ≠ ∅) : (since skips l past).1 < past.length := by
  obtain ⟨recent, o, earlier, rfl, -, -, -, hsince⟩ := since_eq h
  rw [hsince, List.length_append, List.length_cons]
  exact Nat.lt_add_left _ (Nat.lt_succ_self _)

theorem first?_lt {n : Nat} (h : first? l id past = some n) : n < past.length := by
  induction past with
  | nil => exact nomatch h
  | cons m past ih =>
      rw [List.length_cons]
      cases m with
      | watched j new =>
          rw [first?, Option.or_eq_some_iff] at h
          rcases h with h | ⟨-, h⟩
          · exact Nat.lt_succ_of_lt (ih h)
          · split at h
            · obtain rfl := Option.some.inj h
              exact Nat.lt_succ_self _
            · exact nomatch h
      | told o => exact Nat.lt_succ_of_lt (ih h)
      | popped l' => exact Nat.lt_succ_of_lt (ih h)
      | cleared => exact Nat.lt_succ_of_lt (ih h)

end Dealing

open Dealing

variable {past : List Dealing} {skips : Bool} {id : DomainId} {ws : List Watch} {new : Watch}
  {o : Occurrence} {pending : Backlog Listener EventSet} {n n' : Notifier}

/-! ### Watch lists -/

/-- A history made `ws` the watches of a domain. -/
structure Roster (past : List Dealing) (id : DomainId) (ws : List Watch) : Prop where
  masks : ∀ l, Backlog.total l (ws.map Notifier.entry) = mask l id past
  listeners : ∀ l, l ∈ ws.map Watch.listener ↔ (first? l id past).isSome = true
  ordered : (ws.map Watch.listener).Pairwise fun l l' => joined l id past < joined l' id past

theorem Roster.tell (h : Roster past id ws) (o : Occurrence) : Roster (.told o :: past) id ws :=
  ⟨h.masks, h.listeners, h.ordered⟩

theorem Roster.pop (h : Roster past id ws) (l : Listener) : Roster (.popped l :: past) id ws :=
  ⟨h.masks, h.listeners, h.ordered⟩

theorem Roster.clear (h : Roster past id ws) : Roster (.cleared :: past) id ws :=
  ⟨h.masks, h.listeners, h.ordered⟩

theorem map_fst_entry (ws : List Watch) : (ws.map Notifier.entry).map Prod.fst = ws.map Watch.listener := by
  rw [List.map_map]
  rfl

theorem joined_watched {l : Listener} (h : (first? l id past).isSome = true) (j : DomainId)
    (new : Watch) : joined l id (.watched j new :: past) = joined l id past := by
  obtain ⟨n, hn⟩ := Option.isSome_iff_exists.1 h
  simp only [joined, first?, hn, Option.some_or]

/-- A watch joins those of its domain. -/
theorem Roster.watch (h : Roster past id ws) (new : Watch) :
    Roster (.watched id new :: past) id (Notifier.addWatch new ws) := by
  have hkeys : (Notifier.addWatch new ws).map Watch.listener =
      if new.listener ∈ ws.map Watch.listener then ws.map Watch.listener
      else ws.map Watch.listener ++ [new.listener] := by
    rw [← map_fst_entry, Notifier.map_entry_addWatch, Backlog.map_fst_insertEntry, map_fst_entry]
  refine ⟨fun l => ?_, fun l => ?_, ?_⟩
  · rw [Notifier.map_entry_addWatch, Backlog.total_insertEntry, h.masks, mask]
    by_cases hl : new.listener = l
    · rw [if_pos hl, if_pos ⟨rfl, hl⟩]
    · rw [if_neg hl, if_neg fun he => hl he.2, EventSet.union_empty]
  · have hmem : l ∈ (Notifier.addWatch new ws).map Watch.listener ↔
        l ∈ ws.map Watch.listener ∨ new.listener = l := by
      rw [hkeys]
      split
      · next hnew => exact ⟨Or.inl, fun hl => hl.elim (fun hl => hl) fun hl => hl ▸ hnew⟩
      · rw [List.mem_append, List.mem_singleton, eq_comm]
    rw [hmem, h.listeners, first?, Option.isSome_or, Bool.or_eq_true]
    by_cases hl : new.listener = l <;> simp [hl]
  · have hsame : ∀ l ∈ ws.map Watch.listener,
        joined l id (.watched id new :: past) = joined l id past := fun l hl =>
      joined_watched ((h.listeners l).1 hl) id new
    have hordered : (ws.map Watch.listener).Pairwise fun l l' =>
        joined l id (.watched id new :: past) < joined l' id (.watched id new :: past) := by
      refine h.ordered.imp_of_mem fun hl hl' hlt => ?_
      rwa [hsame _ hl, hsame _ hl']
    rw [hkeys]
    split
    · exact hordered
    · next hnew =>
      refine List.pairwise_append.2 ⟨hordered, List.pairwise_singleton _ _, fun l hl l' hl' => ?_⟩
      obtain rfl := List.mem_singleton.1 hl'
      obtain ⟨n, hn⟩ := Option.isSome_iff_exists.1 ((h.listeners l).1 hl)
      have hfirst : first? new.listener id past = none := by
        rw [← Option.not_isSome_iff_eq_none]
        exact fun hsome => hnew ((h.listeners _).2 hsome)
      rw [hsame l hl]
      simp only [joined, first?, hn, hfirst, Option.none_or, and_self, if_true, Option.getD_some]
      exact first?_lt hn

/-- A watch of another domain makes no difference. -/
theorem Roster.watch_of_ne (h : Roster past id ws) {j : DomainId} (hj : j ≠ id) (new : Watch) :
    Roster (.watched j new :: past) id ws := by
  have hfirst : ∀ l, first? l id (.watched j new :: past) = first? l id past := fun l => by
    rw [first?, if_neg fun he => hj he.1, Option.or_none]
  refine ⟨fun l => ?_, fun l => ?_, ?_⟩
  · rw [mask, if_neg fun he => hj he.1, h.masks]
  · rw [hfirst, h.listeners]
  · simp only [joined, hfirst]
    exact h.ordered

/-! ### What waits -/

/-- A history made `pending` wait. -/
structure Queued (skips : Bool) (past : List Dealing) (pending : Backlog Listener EventSet) : Prop where
  nonempty : ∀ x ∈ pending.entries, x.2 ≠ ∅
  totals : ∀ l, Backlog.total l pending.entries = gathered skips l past
  ordered : pending.keys.Pairwise (Before skips past)

namespace Queued

variable {l : Listener} {events : EventSet}

theorem mem_keys (h : Queued skips past pending) :
    l ∈ pending.keys ↔ gathered skips l past ≠ ∅ := by
  rw [← h.totals]
  exact Backlog.mem_keys_iff_total h.nonempty

theorem nodup (h : Queued skips past pending) : pending.keys.Nodup := by
  refine h.ordered.imp fun hbefore he => ?_
  rw [he] at hbefore
  rcases hbefore with hlt | ⟨-, hlt⟩
  · exact lt_irrefl _ hlt
  · exact lt_irrefl _ hlt

theorem mem_entries (h : Queued skips past pending) :
    (l, events) ∈ pending.entries ↔ events = gathered skips l past ∧ events ≠ ∅ := by
  constructor
  · intro hmem
    refine ⟨?_, h.nonempty _ hmem⟩
    rw [← h.totals, Backlog.total_of_mem h.nodup hmem]
  · rintro ⟨rfl, hne⟩
    obtain ⟨⟨l', events⟩, hmem, rfl⟩ := List.mem_map.1 (h.mem_keys.2 hne)
    rwa [← h.totals, Backlog.total_of_mem h.nodup hmem]

/-- What a change means for those who watch the domain comes to wait. -/
theorem tell (h : Queued skips past pending) (hws : Roster past o.domain ws) :
    Queued skips (.told o :: past) (pending.addAll (Notifier.arrivals skips o ws)) := by
  have hkept : ∀ l ∈ pending.keys, since skips l (.told o :: past) = since skips l past :=
    fun l hl => if_neg (h.mem_keys.1 hl)
  have hnew : ∀ l, l ∉ pending.keys →
      since skips l (.told o :: past) = (past.length, joined l o.domain past) := fun l hl =>
    if_pos (not_not.1 (mt h.mem_keys.2 hl))
  refine ⟨?_, fun l => ?_, Backlog.pairwise_keys_addAll ?_ ?_ fun l hl l' _ hl' => ?_⟩
  · refine Backlog.forall_addAll (Q := fun _ events => events ≠ ∅) (fun _ _ _ he _ => ?_) h.nonempty
      fun x hx => Notifier.ne_empty_of_mem_arrivals hx
    exact EventSet.union_ne_empty.2 (Or.inl he)
  · rw [Backlog.total_addAll, Notifier.total_arrivals, h.totals, hws.masks]
    rfl
  · refine h.ordered.imp_of_mem fun hl hl' hbefore => ?_
    unfold Before
    rwa [hkept _ hl, hkept _ hl']
  · refine (hws.ordered.sublist (Notifier.sublist_arrivals skips o ws)).imp fun hlt hl hl' => ?_
    unfold Before
    rw [hnew _ hl, hnew _ hl']
    exact Or.inr ⟨rfl, hlt⟩
  · unfold Before
    rw [hkept l hl, hnew l' hl']
    exact Or.inl (since_lt (h.mem_keys.1 hl))

/-- What waits for the first listener is picked up. -/
theorem pop {rest : List (Listener × EventSet)}
    (h : Queued skips past ⟨(l, events) :: rest⟩) : Queued skips (.popped l :: past) ⟨rest⟩ := by
  obtain ⟨hfirst, hnodup⟩ := List.nodup_cons.1 h.nodup
  refine ⟨fun x hx => h.nonempty x (List.mem_cons_of_mem _ hx), fun l' => ?_,
    (List.pairwise_cons.1 h.ordered).2⟩
  rw [gathered]
  split
  · next hl =>
    subst hl
    exact Backlog.total_of_notMem hfirst
  · next hl =>
    rw [← h.totals, Backlog.total, if_neg hl]

end Queued

/-- All watch lists came of a history. -/
def Rostered (past : List Dealing) (n : Notifier) : Prop :=
  ∀ id, Roster past id ((n.watches.get? id).getD [])

theorem Rostered.grow (h : Rostered past n) : Rostered past n.grow := by
  intro id
  have hsame : (n.grow.watches.get? id).getD [] = (n.watches.get? id).getD [] := by
    rw [show n.grow.watches = n.watches.push [] from rfl, Table.get?_push]
    split
    · next hid =>
      rw [(n.watches.get?_eq_none_iff id).2 (ge_of_eq hid)]
      rfl
    · rfl
  rw [hsame]
  exact h id

theorem Rostered.watch (h : Rostered past n) (hn : n.watch id new = .ok n') :
    Rostered (.watched id new :: past) n' := by
  obtain ⟨ws, hws, hn⟩ := Checked.bind_eq_ok hn
  obtain rfl := Except.ok.inj hn
  have hget := (Table.fetch_eq_ok_iff _).1 hws
  intro j
  have hj := h j
  change Roster _ j (((n.watches.put id (Notifier.addWatch new ws)).get? j).getD [])
  rw [Table.get?_put _ _ (Table.lt_size_of_get? hget)]
  split
  · next he =>
    subst he
    rw [hget] at hj
    exact hj.watch new
  · next hne => exact hj.watch_of_ne (Ne.symm hne) new

/-- Changes are reported one after the other. -/
theorem Queued.tellAll {os : List Occurrence} {notices : List Notice} (h : Queued n.skipsOwn past pending)
    (hn : Rostered past n) (hnotices : n.noticesOfAll os = .ok notices) :
    Queued n.skipsOwn ((os.map .told).reverse ++ past)
        (pending.addAll (notices.map fun x => (x.listener, x.events))) ∧
      Rostered ((os.map .told).reverse ++ past) n := by
  induction os generalizing past pending notices with
  | nil =>
      obtain rfl := Except.ok.inj hnotices
      exact ⟨h, hn⟩
  | cons o rest ih =>
      obtain ⟨here, hhere, hnotices⟩ := Checked.bind_eq_ok hnotices
      obtain ⟨others, hothers, hnotices⟩ := Checked.bind_eq_ok hnotices
      obtain rfl := Except.ok.inj hnotices
      obtain ⟨ws, hws, hhere⟩ := Checked.bind_eq_ok hhere
      obtain rfl := Except.ok.inj hhere
      have hroster := hn o.domain
      rw [(Table.fetch_eq_ok_iff _).1 hws] at hroster
      rw [List.map_append, Notifier.map_filterMap_notice?, Backlog.addAll, List.foldl_append,
        List.map_cons, List.reverse_cons, List.append_assoc]
      exact ih (h.tell hroster) (fun id => (hn id).tell o) hothers

/-- Changes that wait to be reported are changes of domains that are there. -/
theorem Domains.Narrows.unreported_lt {B : DomainId → Prop} {cause : Cause} {s s' : Domains}
    (h : Narrows B cause s s') (hs : ∀ o ∈ s.unreported.toList, o.domain.index < s.table.size) :
    ∀ o ∈ s'.unreported.toList, o.domain.index < s'.table.size := by
  induction h with
  | refl => exact hs
  | @change s' i d c _ _ hd _ ih =>
      intro o ho
      have hsize : (s'.change i cause c).table.size = s'.table.size := Table.size_update _ _ _
      have hlist : (s'.change i cause c).unreported.toList = s'.unreported.toList ++ [⟨i, c.events, cause⟩] :=
        Array.toList_push
      rw [hsize]
      rw [hlist] at ho
      rcases List.mem_append.1 ho with ho | ho
      · exact ih o ho
      · obtain rfl := List.mem_singleton.1 ho
        exact Table.lt_size_of_get? hd

/-- Changes of domains with watch lists can be reported. -/
theorem Notifier.exists_noticesOfAll {os : List Occurrence}
    (h : ∀ o ∈ os, o.domain.index < n.watches.size) : ∃ notices, n.noticesOfAll os = .ok notices := by
  induction os with
  | nil => exact ⟨[], rfl⟩
  | cons o rest ih =>
      obtain ⟨hlt, hrest⟩ := List.forall_mem_cons.1 h
      obtain ⟨ws, hws⟩ := n.watches.exists_get? hlt
      obtain ⟨others, hothers⟩ := ih hrest
      refine ⟨ws.filterMap (n.notice? o) ++ others, ?_⟩
      simp only [noticesOfAll, notices, (Table.fetch_eq_ok_iff _).2 hws, hothers, bind, Except.bind]
      rfl

/-- The notification that is picked up has waited longest. -/
theorem Queued.first {l : Listener} {events : EventSet} (h : Queued skips past n.pending)
    (hn : n.pop? = some ((l, events), n')) :
    events = gathered skips l past ∧ events ≠ ∅ ∧
      ∀ l', gathered skips l' past ≠ ∅ → l' ≠ l → Before skips past l l' := by
  obtain ⟨rest, hentries, -⟩ := Notifier.pop?_eq_some hn
  rw [hentries] at h
  obtain ⟨heq, hne⟩ := h.mem_entries.1 (List.mem_cons_self (a := (l, events)))
  refine ⟨heq, hne, fun l' hl' hne' => (List.pairwise_cons.1 h.ordered).1 l' ?_⟩
  exact (List.mem_cons.1 (h.mem_keys.2 hl')).resolve_left hne'

/-- A domain with a watch list can be watched. -/
theorem Notifier.exists_watch (h : id.index < n.watches.size) (new : Watch) :
    ∃ n', n.watch id new = .ok n' := by
  obtain ⟨ws, hws⟩ := n.watches.exists_get? h
  simp only [watch, (Table.fetch_eq_ok_iff _).2 hws, bind, Except.bind]
  exact ⟨_, rfl⟩

/-! ### A notifier in use -/

/-- A notifier, a dispatcher beside it, the domains whose changes they report, and what happened to them
so far. -/
structure Desk where
  domains : Domains
  notifier : Notifier
  dispatcher : Dispatcher
  past : List Dealing

namespace Desk

variable {b : Desk}

/-- What can come about, in whatever order domains are added and watched, restricted, taken back and
reported on, and what waits is picked up or dropped. -/
inductive Reached (skips : Bool) : Desk → Prop
  | start : Reached skips ⟨{}, { skipsOwn := skips }, { skipsOwn := skips }, []⟩
  | push {b : Desk} (h : Reached skips b) {d : Domain} (hd : d.Made) :
      Reached skips ⟨b.domains.push d, b.notifier.grow, b.dispatcher.grow, b.past⟩
  | edit {b : Desk} (h : Reached skips b) {e : Domains.Edit} (he : ∀ d, e ≠ .push d) {s : Domains}
      (hs : e.run b.domains = .ok s) : Reached skips { b with domains := s }
  | watch {b : Desk} (h : Reached skips b) {id : DomainId} {new : Watch} {n : Notifier}
      {d : Dispatcher} (hn : b.notifier.watch id new = .ok n)
      (hd : b.dispatcher.watch id new = .ok d) :
      Reached skips ⟨b.domains, n, d, .watched id new :: b.past⟩
  | notify {b : Desk} (h : Reached skips b) {notices : List Notice} {d : Dispatcher}
      (hnotices : b.notifier.noticesOfAll b.domains.unreported.toList = .ok notices)
      (hd : b.dispatcher.notify b.domains.unreported.toList = .ok d) :
      Reached skips ⟨b.domains.reported, b.notifier.accept notices, d,
        (b.domains.unreported.toList.map .told).reverse ++ b.past⟩
  | pop {b : Desk} (h : Reached skips b) {l : Listener} {events : EventSet} {n : Notifier}
      {first : Listener × EventSet} {d : Dispatcher} (hn : b.notifier.pop? = some ((l, events), n))
      (hd : b.dispatcher.pop? = some (first, d)) :
      Reached skips ⟨b.domains, n, d, .popped l :: b.past⟩
  | clear {b : Desk} (h : Reached skips b) :
      Reached skips ⟨b.domains, b.notifier.clear, b.dispatcher.clear, .cleared :: b.past⟩

/-- What waits is what the history says, and every domain has its watches. -/
structure Sound (skips : Bool) (b : Desk) : Prop where
  traced : b.domains.Traced
  skipsOwn_eq : b.notifier.skipsOwn = skips
  size_eq : b.notifier.watches.size = b.domains.table.size
  unreported : ∀ o ∈ b.domains.unreported.toList, o.domain.index < b.domains.table.size
  rostered : Rostered b.past b.notifier
  queued : Queued skips b.past b.notifier.pending
  mirrored : Mirrored b.notifier b.dispatcher

theorem Sound.edit (h : Sound skips b) {e : Domains.Edit} (he : ∀ d, e ≠ .push d) {s : Domains}
    (hs : e.run b.domains = .ok s) : Sound skips { b with domains := s } := by
  have hkeeps : s.Traced ∧ s.table.size = b.domains.table.size ∧
      ∀ o ∈ s.unreported.toList, o.domain.index < s.table.size := by
    cases e with
    | push d => exact absurd rfl (he d)
    | restrict x r cause =>
        have hn := Domains.narrows_of_restrict h.traced.wellFormed hs
        exact ⟨h.traced.narrows hn, hn.size_eq, hn.unreported_lt h.unreported⟩
    | mark =>
        have htraced := h.traced.run (e := .mark) trivial hs
        obtain rfl := Except.ok.inj hs
        exact ⟨htraced, rfl, h.unreported⟩
    | rewind k =>
        obtain ⟨-, htable, -, hunreported⟩ := Domains.rewind_eq_ok hs
        refine ⟨h.traced.rewind hs, htable ▸ Domains.size_past _ _, fun o ho => ?_⟩
        rw [hunreported] at ho
        exact nomatch ho
    | report =>
        have htraced := h.traced.run (e := .report) trivial hs
        obtain rfl := Except.ok.inj hs
        exact ⟨htraced, rfl, fun o ho => nomatch ho⟩
  obtain ⟨htraced, hsize, hunreported⟩ := hkeeps
  exact ⟨htraced, h.skipsOwn_eq, h.size_eq.trans hsize.symm, hunreported, h.rostered, h.queued,
    h.mirrored⟩

theorem Sound.push (h : Sound skips b) {d : Domain} (hd : d.Made) :
    Sound skips ⟨b.domains.push d, b.notifier.grow, b.dispatcher.grow, b.past⟩ := by
  refine ⟨h.traced.push hd.wellFormed, h.skipsOwn_eq, ?_, fun o ho => ?_, h.rostered.grow, h.queued,
    h.mirrored.grow⟩
  · exact (Table.size_push _ _).trans ((congrArg (· + 1) h.size_eq).trans (Table.size_push _ _).symm)
  · exact (h.unreported o ho).trans_le ((Nat.le_succ _).trans_eq (Table.size_push _ _).symm)

theorem Sound.watch (h : Sound skips b) {new : Watch} {d : Dispatcher}
    (hn : b.notifier.watch id new = .ok n) (hd : b.dispatcher.watch id new = .ok d) :
    Sound skips ⟨b.domains, n, d, .watched id new :: b.past⟩ := by
  obtain ⟨hextends, -⟩ := Notifier.watch_eq_ok hn
  obtain ⟨d', hd', hmirrored⟩ := h.mirrored.watch hn
  obtain rfl := Except.ok.inj (hd.symm.trans hd')
  refine ⟨h.traced, hextends.skipsOwn_eq.trans h.skipsOwn_eq, hextends.size_eq.trans h.size_eq,
    h.unreported, h.rostered.watch hn, ?_, hmirrored⟩
  rw [hextends.pending_eq]
  exact ⟨h.queued.nonempty, h.queued.totals, h.queued.ordered⟩

theorem Sound.notify (h : Sound skips b) {notices : List Notice} {d : Dispatcher}
    (hnotices : b.notifier.noticesOfAll b.domains.unreported.toList = .ok notices)
    (hd : b.dispatcher.notify b.domains.unreported.toList = .ok d) :
    Sound skips ⟨b.domains.reported, b.notifier.accept notices, d,
      (b.domains.unreported.toList.map .told).reverse ++ b.past⟩ := by
  obtain ⟨htraced, rfl, hsize, hunreported, hrostered, hqueued, hmirrored⟩ := h
  obtain ⟨hqueued', hrostered'⟩ := hqueued.tellAll hrostered hnotices
  obtain ⟨d', hd', hmirrored'⟩ := hmirrored.notify hnotices
  obtain rfl := Except.ok.inj (hd.symm.trans hd')
  exact ⟨htraced.run (e := .report) trivial rfl, rfl, hsize, (fun o ho => nomatch ho), hrostered',
    hqueued', hmirrored'⟩

theorem Sound.pop (h : Sound skips b) {l : Listener} {events : EventSet} {d : Dispatcher}
    {first : Listener × EventSet} (hn : b.notifier.pop? = some ((l, events), n))
    (hd : b.dispatcher.pop? = some (first, d)) :
    Sound skips ⟨b.domains, n, d, .popped l :: b.past⟩ := by
  obtain ⟨htraced, hskips, hsize, hunreported, hrostered, hqueued, hmirrored⟩ := h
  obtain ⟨d', hd', hmirrored'⟩ := hmirrored.pop hqueued.nodup hn
  obtain ⟨-, rfl⟩ := Prod.mk.inj (Option.some.inj (hd.symm.trans hd'))
  obtain ⟨rest, hentries, rfl⟩ := Notifier.pop?_eq_some hn
  rw [hentries] at hqueued
  exact ⟨htraced, hskips, hsize, hunreported, fun id => (hrostered id).pop l, hqueued.pop, hmirrored'⟩

theorem Sound.clear (h : Sound skips b) :
    Sound skips ⟨b.domains, b.notifier.clear, b.dispatcher.clear, .cleared :: b.past⟩ :=
  ⟨h.traced, h.skipsOwn_eq, h.size_eq, h.unreported, fun id => (h.rostered id).clear,
    ⟨List.forall_mem_nil _, fun _ => rfl, List.Pairwise.nil⟩, h.mirrored.clear⟩

theorem Reached.sound (h : Reached skips b) : Sound skips b := by
  induction h with
  | start =>
      refine ⟨Domains.Reachable.start.traced, rfl, rfl, (fun o ho => nomatch ho), fun id => ?_,
        ⟨List.forall_mem_nil _, fun _ => rfl, List.Pairwise.nil⟩, ⟨rfl, rfl, rfl, fun _ => rfl⟩⟩
      exact ⟨fun _ => rfl, fun l => ⟨nofun, nofun⟩, List.Pairwise.nil⟩
  | push _ hd ih => exact ih.push hd
  | edit _ he hs ih => exact ih.edit he hs
  | watch _ hn hd ih => exact ih.watch hn hd
  | notify _ hnotices hd ih => exact ih.notify hnotices hd
  | pop _ hn hd ih => exact ih.pop hn hd
  | clear _ ih => exact ih.clear

/-- **Deliveries.** Notifications are merged without loss and without doubling. The queue holds exactly
the listeners for which changes meant something since they were last served, each of them once. These
are also the listeners that the map knows, and it has all that the changes meant to them. The one that
is picked up has waited longer than any other, and it gets all that gathered for it. The backlog of the
notifier has the same listeners in the same order with the same events. Changes of domains can always
be reported, and domains be watched. -/
theorem Reached.deliveries (h : Reached skips b) :
    b.dispatcher.queue.Nodup ∧
      (∀ l, l ∈ b.dispatcher.queue ↔ gathered skips l b.past ≠ ∅) ∧
      (∀ l events, b.dispatcher.pending.lookup l = some events ↔
        events = gathered skips l b.past ∧ events ≠ ∅) ∧
      (b.dispatcher.hasPending = false ↔ ∀ l, gathered skips l b.past = ∅) ∧
      (b.dispatcher.pop? = none ↔ ∀ l, gathered skips l b.past = ∅) ∧
      (∀ l events d, b.dispatcher.pop? = some ((l, events), d) →
        events = gathered skips l b.past ∧ events ≠ ∅ ∧
          ∀ l', gathered skips l' b.past ≠ ∅ → l' ≠ l → Before skips b.past l l') ∧
      b.notifier.pending.keys = b.dispatcher.queue ∧
      (∀ l events, (l, events) ∈ b.notifier.pending.entries ↔
        b.dispatcher.pending.lookup l = some events) ∧
      b.notifier.hasPending = b.dispatcher.hasPending ∧
      b.notifier.pop?.map Prod.fst = b.dispatcher.pop?.map Prod.fst ∧
      (∃ notices d, b.notifier.noticesOfAll b.domains.unreported.toList = .ok notices ∧
        b.dispatcher.notify b.domains.unreported.toList = .ok d) ∧
      ∀ id new, id.index < b.domains.table.size →
        ∃ n d, b.notifier.watch id new = .ok n ∧ b.dispatcher.watch id new = .ok d := by
  obtain ⟨-, -, hsize, hunreported, -, hqueued, hmirrored⟩ := h.sound
  have hnone : b.dispatcher.queue = [] ↔ ∀ l, gathered skips l b.past = ∅ := by
    rw [hmirrored.queue_eq, List.eq_nil_iff_forall_not_mem]
    exact forall_congr' fun l => (not_congr hqueued.mem_keys).trans not_not
  have hentries : ∀ l events, (l, events) ∈ b.notifier.pending.entries ↔
      b.dispatcher.pending.lookup l = some events := fun l events => by
    rw [hmirrored.lookup_eq, Backlog.gathered?_eq_some hqueued.nodup]
  refine ⟨hmirrored.queue_eq ▸ hqueued.nodup, fun l => ?_, fun l events => ?_, ?_, ?_,
    fun l events d hd => ?_, hmirrored.queue_eq.symm, hentries, hmirrored.hasPending_eq.symm,
    (hmirrored.map_pop? hqueued.nodup).symm, ?_, fun id new hid => ?_⟩
  · rw [hmirrored.queue_eq, hqueued.mem_keys]
  · rw [← hentries, hqueued.mem_entries]
  · rw [Dispatcher.hasPending, Bool.not_eq_false', List.isEmpty_iff, hnone]
  · rw [hmirrored.pop?_eq_none, Notifier.pop?_eq_none, ← hmirrored.queue_eq, hnone]
  · have hpop := hmirrored.map_pop? hqueued.nodup
    rw [hd, Option.map_some, eq_comm, Option.map_eq_some_iff] at hpop
    obtain ⟨⟨popped, n⟩, hn, rfl⟩ := hpop
    exact hqueued.first hn
  · obtain ⟨notices, hnotices⟩ := Notifier.exists_noticesOfAll fun o ho => hsize ▸ hunreported o ho
    obtain ⟨d, hd, -⟩ := hmirrored.notify hnotices
    exact ⟨notices, d, hnotices, hd⟩
  · obtain ⟨n, hn⟩ := Notifier.exists_watch (hsize ▸ hid) new
    obtain ⟨d, hd, -⟩ := hmirrored.watch hn
    exact ⟨n, d, hn, hd⟩

/-! ### Two listeners -/

def first : Listener := ⟨⟨0⟩, 0⟩

def second : Listener := ⟨⟨1⟩, 0⟩

/-- The first listener asked for events of both domains, and for those of one of them twice. It was
told of a change that the second one made. Since then both domains lost their greatest values. -/
def busy : Desk where
  domains :=
    { table := ⟨#[⟨.interval, 2, 8, 7⟩, ⟨.interval, 0, 7, 8⟩]⟩
      trail := ⟨[(⟨1⟩, .narrowed 0 10 0 7 11 8), (⟨0⟩, .narrowed 2 10 2 8 9 7),
        (⟨0⟩, .narrowed 0 10 2 10 11 9)], []⟩ }
  notifier :=
    { watches := ⟨#[[⟨first, .bounds⟩, ⟨second, .all⟩], [⟨first, .single .upperBound⟩]]⟩
      pending := ⟨[(first, .single .upperBound), (second, .single .upperBound)]⟩
      skipsOwn := true }
  dispatcher :=
    { watches := ⟨#[[⟨first, .bounds⟩, ⟨second, .all⟩], [⟨first, .single .upperBound⟩]]⟩
      queue := [first, second]
      pending := ((∅ : Finmap fun _ => EventSet).insert second (.single .upperBound)).insert first
        (.single .upperBound)
      skipsOwn := true }
  past := [.told ⟨⟨1⟩, .single .upperBound, .decision⟩, .told ⟨⟨0⟩, .single .upperBound, .decision⟩,
    .popped first, .told ⟨⟨0⟩, .single .lowerBound, .propagator ⟨1⟩⟩,
    .watched ⟨0⟩ ⟨first, .single .upperBound⟩, .watched ⟨1⟩ ⟨first, .single .upperBound⟩,
    .watched ⟨0⟩ ⟨second, .all⟩, .watched ⟨0⟩ ⟨first, .single .lowerBound⟩]

theorem reached_busy : Reached true busy := by
  have hmade : (Domain.interval 0 10).Made := .interval (by decide) (by decide) (by decide)
  have hwatched : Reached true ⟨⟨⟨#[.interval 0 10, .interval 0 10]⟩, {}, #[]⟩,
      ⟨⟨#[[⟨first, .bounds⟩, ⟨second, .all⟩], [⟨first, .single .upperBound⟩]]⟩, {}, true⟩,
      ⟨⟨#[[⟨first, .bounds⟩, ⟨second, .all⟩], [⟨first, .single .upperBound⟩]]⟩, [], ∅, true⟩,
      busy.past.drop 4⟩ :=
    ((((Reached.start.push hmade).push hmade).watch rfl rfl).watch rfl rfl).watch rfl rfl |>.watch rfl rfl
  have hraised := hwatched.edit (e := .restrict (.domain ⟨0⟩) (.atLeast 2) (.propagator ⟨1⟩)) nofun rfl
  have hserved := (hraised.notify rfl rfl).pop rfl rfl
  have hlowered := hserved.edit (e := .restrict (.domain ⟨0⟩) (.atMost 8) .decision) nofun rfl
  exact (hlowered.edit (e := .restrict (.domain ⟨1⟩) (.atMost 7) .decision) nofun rfl).notify rfl rfl

theorem deliveries_busy : Reached true busy ∧
    busy.dispatcher.queue.Nodup ∧
      (∀ l, l ∈ busy.dispatcher.queue ↔ gathered true l busy.past ≠ ∅) ∧
      (∀ l events, busy.dispatcher.pending.lookup l = some events ↔
        events = gathered true l busy.past ∧ events ≠ ∅) ∧
      (busy.dispatcher.hasPending = false ↔ ∀ l, gathered true l busy.past = ∅) ∧
      (busy.dispatcher.pop? = none ↔ ∀ l, gathered true l busy.past = ∅) ∧
      (∀ l events d, busy.dispatcher.pop? = some ((l, events), d) →
        events = gathered true l busy.past ∧ events ≠ ∅ ∧
          ∀ l', gathered true l' busy.past ≠ ∅ → l' ≠ l → Before true busy.past l l') ∧
      busy.notifier.pending.keys = busy.dispatcher.queue ∧
      (∀ l events, (l, events) ∈ busy.notifier.pending.entries ↔
        busy.dispatcher.pending.lookup l = some events) ∧
      busy.notifier.hasPending = busy.dispatcher.hasPending ∧
      busy.notifier.pop?.map Prod.fst = busy.dispatcher.pop?.map Prod.fst ∧
      (∃ notices d, busy.notifier.noticesOfAll busy.domains.unreported.toList = .ok notices ∧
        busy.dispatcher.notify busy.domains.unreported.toList = .ok d) ∧
      ∀ id new, id.index < busy.domains.table.size →
        ∃ n d, busy.notifier.watch id new = .ok n ∧ busy.dispatcher.watch id new = .ok d :=
  ⟨reached_busy, reached_busy.deliveries⟩

/-- One change made both of them wait, and the first one watched the domain before the second. -/
example : since true first busy.past = (6, 0) ∧ since true second busy.past = (6, 1) := by decide

end Desk

end Narrowing
