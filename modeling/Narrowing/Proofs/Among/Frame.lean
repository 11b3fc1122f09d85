import Narrowing.Proofs.Among.Notified
import Narrowing.Proofs.Engine.Run

/-!
Among propagators in an engine, as far as it does not depend on what was propagated so far. Each
propagator has cells of its own and hears of its variables, and what a rewind would give back is what
the propagator knew, without anything waiting, when the level was left. Of the propagators in `exact`
more is known, in engines in which propagators hear of everything and checkpoints are opened at fixed
points only.
-/

namespace Narrowing.AmongPropagator

open Narrowing.Engine

/-- No propagator. -/
abbrev Nobody (_ : PropagatorId) : Prop := False

variable (exact : PropagatorId → Prop)

/-- What is true of the propagator `p` under the name `j` all the time. -/
structure Placed (e : Engine AmongPropagator) (j : PropagatorId) (p : AmongPropagator) : Prop where
  sure_eq : p.sure = ⟨j.index⟩
  possible_eq : p.possible = ⟨j.index⟩
  sorted : p.tracked.Pairwise (· < ·)
  grounded : p.Grounded e.domains.table
  unblocked : exact j → p.backPropagates = true → p.Unblocked e.domains.table
  hears_place : exact j → ∀ i < p.scope.length, e.notifier.Hears ⟨j, i⟩ (p.place i).base .all
  hears_counter : exact j → p.counter ≠ .domain p.counter.base →
    e.notifier.Hears ⟨j, p.counterId⟩ p.counter.base .all

/-- What a propagator knew when there was nothing waiting. -/
structure Held (known : Prop) (t : Table DomainId Domain) (C : Contents) (p : AmongPropagator) :
    Prop where
  unblocked : known → p.backPropagates = true → p.Unblocked t
  accounts : p.Accounts t (C.places p.possible) (C.value p.sure)
  counts : p.Counts (C.places p.possible) (C.value p.sure)
  tracks : known → p.Tracks t (C.places p.possible) (C.value p.sure) fun _ => False
  inBounds : known → p.InBounds t (C.places p.possible) (C.value p.sure)

/-- What is true of an engine all the time. -/
structure Frame (e : Engine AmongPropagator) : Prop where
  consistent : Consistent e
  placed : ∀ j p, e.propagators.get? j = some p → Placed exact e j p
  countable : ∀ j p, e.propagators.get? j = some p → p.Countable
  size_eq : e.cells.integers.size = e.propagators.size ∧ e.cells.sets.size = e.propagators.size
  delivers : ∀ {j}, exact j → e.notifier.skipsOwn = false
  pending_ne : ∀ x ∈ e.notifier.pending.entries, x.2 ≠ ∅
  unreported_ne : ∀ o ∈ e.domains.unreported.toList, o.events ≠ ∅
  held : ∀ k < e.level, ∀ j p, e.propagators.get? j = some p →
    Held (exact j) (e.domains.past k) (e.cells.past k) p

variable {exact} {known : Prop} {e e' f : Engine AmongPropagator} {j : PropagatorId}
  {p : AmongPropagator} {t t' : Table DomainId Domain} {C : Contents}

/-- Domains lose members, or changes of them are reported. -/
theorem Placed.narrower (h : Placed exact e j p) {B : DomainId → Prop} {cause : Cause}
    (hn : Domains.Narrows B cause e.domains f.domains) (hwf : e.domains.table.WellFormed)
    (hhears : ∀ l id events, e.notifier.Hears l id events → f.notifier.Hears l id events) :
    Placed exact f j p where
  sure_eq := h.sure_eq
  possible_eq := h.possible_eq
  sorted := h.sorted
  grounded := h.grounded.narrower hn
  unblocked he hb := (h.unblocked he hb).narrower hn hwf
  hears_place he i hi := hhears _ _ _ (h.hears_place he i hi)
  hears_counter he hview := hhears _ _ _ (h.hears_counter he hview)

theorem Placed.further (h : Placed exact e j p)
    (hext : ∀ id : DomainId, id.index < e.domains.table.size →
      f.domains.table.get? id = e.domains.table.get? id)
    (hsize : e.domains.table.size ≤ f.domains.table.size)
    (hhears : ∀ l id events, e.notifier.Hears l id events → f.notifier.Hears l id events) :
    Placed exact f j p where
  sure_eq := h.sure_eq
  possible_eq := h.possible_eq
  sorted := h.sorted
  grounded := ⟨fun i hi => (h.grounded.place_lt i hi).trans_le hsize,
    h.grounded.counter_lt.trans_le hsize⟩
  unblocked he hb := (h.unblocked he hb).further h.grounded hext
  hears_place he i hi := hhears _ _ _ (h.hears_place he i hi)
  hears_counter he hview := hhears _ _ _ (h.hears_counter he hview)

theorem Held.further (h : Held known t C p) (hg : p.Grounded t)
    (hext : ∀ id : DomainId, id.index < t.size → t'.get? id = t.get? id) :
    Held known t' C p where
  unblocked he hb := (h.unblocked he hb).further hg hext
  accounts := h.accounts.further hext
  counts := h.counts
  tracks he := (h.tracks he).further hg hext
  inBounds he := (h.inBounds he).further hg hext

namespace Frame

variable (h : Frame exact e)
include h

/-- What a propagator can rely on when it is called. -/
theorem ready (hp : e.propagators.get? j = some p) : Ready p (exact j) e.toWorkspace :=
  have hplaced := h.placed j p hp
  ⟨h.consistent.workspace, hplaced.grounded, hplaced.sorted, h.countable j p hp, hplaced.unblocked⟩

/-- Two propagators have no cell in common. -/
theorem cells_ne {i : PropagatorId} {q : AmongPropagator} (hp : e.propagators.get? j = some p)
    (hq : e.propagators.get? i = some q) (hne : i ≠ j) :
    q.sure ≠ p.sure ∧ q.possible ≠ p.possible := by
  have hindex : i.index ≠ j.index := fun he => hne (by cases i; cases j; exact congrArg _ he)
  rw [(h.placed j p hp).sure_eq, (h.placed j p hp).possible_eq, (h.placed i q hq).sure_eq,
    (h.placed i q hq).possible_eq]
  exact ⟨fun he => hindex (CellId.mk.inj he), fun he => hindex (SetId.mk.inj he)⟩

/-- Domains, cells and propagators stay what they are. -/
theorem same (hconsistent : Consistent e') (htable : e'.domains.table = e.domains.table)
    (htrail : e'.domains.trail = e.domains.trail) (hcells : e'.cells = e.cells)
    (hpropagators : e'.propagators = e.propagators)
    (hwatches : e'.notifier.watches = e.notifier.watches)
    (hskips : e'.notifier.skipsOwn = e.notifier.skipsOwn)
    (hpending : ∀ x ∈ e'.notifier.pending.entries, x.2 ≠ ∅)
    (hunreported : ∀ o ∈ e'.domains.unreported.toList, o.events ≠ ∅) :
    Frame exact e' where
  consistent := hconsistent
  placed i q hq := by
    rw [hpropagators] at hq
    refine (h.placed i q hq).further (fun id _ => by rw [htable]) (by rw [htable])
      fun l id events hl => ?_
    exact hl.of_eq hwatches
  countable := hpropagators ▸ h.countable
  size_eq := by
    rw [hcells, hpropagators]
    exact h.size_eq
  delivers he := hskips.trans (h.delivers he)
  pending_ne := hpending
  unreported_ne := hunreported
  held k hk i q hq := by
    rw [hpropagators] at hq
    rw [Domains.past, htrail, htable, hcells]
    exact h.held k (hk.trans_eq (congrArg Trail.level htrail)) i q hq

theorem told {notices : List Notice}
    (hn : e.notifier.noticesOfAll e.domains.unreported.toList = .ok notices) :
    Frame exact (e.told notices) := by
  refine h.same (h.consistent.told notices) rfl rfl rfl rfl rfl rfl ?_ fun o ho => nomatch ho
  refine Backlog.forall_addAll (Q := fun _ events => events ≠ ∅) ?_ h.pending_ne fun x hx => ?_
  · intro l events events' hne _ hempty
    obtain ⟨event, he⟩ := EventSet.exists_mem hne
    exact EventSet.not_mem_empty event (hempty ▸ EventSet.mem_union.2 (Or.inl he))
  · obtain ⟨notice, hnotice, rfl⟩ := List.mem_map.1 hx
    obtain ⟨o, -, ws, -, w, -, hsome⟩ := Notifier.exists_of_mem_noticesOfAll hn hnotice
    exact Notifier.events_of_notice? hsome

theorem delivered {first : Listener × EventSet} {rest : List (Listener × EventSet)}
    (hpending : e.notifier.pending.entries = first :: rest) :
    Frame exact (e.delivered rest) := by
  refine h.same (h.consistent.delivered rest) rfl rfl rfl rfl rfl rfl (fun x hx => ?_) h.unreported_ne
  exact h.pending_ne x (hpending ▸ List.mem_cons_of_mem _ hx)

theorem met {r : Request} {rest : List Request} (hr : e.agenda.requests = r :: rest) :
    Frame exact (e.met rest) :=
  h.same (h.consistent.met hr) rfl rfl rfl rfl rfl rfl h.pending_ne h.unreported_ne

theorem requested (id : PropagatorId) (priority : Priority) (passes : Passes) :
    Frame exact { e with agenda := e.agenda.request id priority passes } :=
  h.same (h.consistent.requested id priority passes) rfl rfl rfl rfl rfl rfl h.pending_ne
    h.unreported_ne

theorem failed (c : Contradiction) : Frame exact (e.fail c) :=
  h.same (h.consistent.failed c) rfl rfl rfl rfl rfl rfl (fun _ hx => nomatch hx) h.unreported_ne

/-- Changes of domains and cells, made for whatever cause. -/
theorem worked {cause : Cause} {w : Workspace Remark}
    (hp : Workspace.Progress cause e.toWorkspace w) : Frame exact (e.worked w) where
  consistent := h.consistent.worked hp
  placed i q hq := (h.placed i q hq).narrower (f := e.worked w) hp.narrows h.consistent.workspace.table
    fun _ _ _ hl => hl
  countable := h.countable
  size_eq := ⟨hp.evolves.size_eq.1.trans h.size_eq.1, hp.evolves.size_eq.2.trans h.size_eq.2⟩
  delivers := h.delivers
  pending_ne := h.pending_ne
  unreported_ne o ho := by
    obtain ⟨new, hnew, hall⟩ := hp.narrows.unreported_eq
    have ho : o ∈ w.domains.unreported.toList := ho
    rw [hnew] at ho
    rcases List.mem_append.1 ho with ho | ho
    · exact h.unreported_ne o ho
    · exact (hall o ho).2.2
  held k hk i q hq := by
    have hk : k < e.domains.level := hk.trans_eq hp.narrows.trail_eq.1
    have hk' : k < e.cells.level := hk.trans_eq h.consistent.workspace.level_eq.symm
    change Held (exact i) (w.domains.past k) (w.cells.past k) q
    rw [hp.narrows.past_eq h.consistent.workspace.table hk, hp.evolves.past_eq k hk']
    exact h.held k hk i q hq

theorem grown {d : Domain} (hd : d.WellFormed) : Frame exact (e.grown d) where
  consistent := h.consistent.grown hd
  placed i q hq := (h.placed i q hq).further (f := e.grown d)
    (fun _ hid => Table.get?_push_of_lt _ _ hid)
    (Nat.le_of_lt ((Nat.lt_succ_self _).trans_eq (Table.size_push _ _).symm)) fun _ _ _ hl => hl.grow
  countable := h.countable
  size_eq := h.size_eq
  delivers := h.delivers
  pending_ne := h.pending_ne
  unreported_ne := h.unreported_ne
  held k hk i q hq := by
    have hg := (h.placed i q hq).grounded
    have hsize := Domains.size_past e.domains k
    change Held (exact i) ((e.domains.push d).past k) (e.cells.past k) q
    rw [Domains.past_push _ h.consistent.workspace.recorded]
    exact (h.held k hk i q hq).further ⟨fun i hi => (hg.place_lt i hi).trans_eq hsize.symm,
      hg.counter_lt.trans_eq hsize.symm⟩ fun _ hid => Table.get?_push_of_lt _ _ hid

end Frame

end Narrowing.AmongPropagator
