import Narrowing.Proofs.Among.Exhaustion
import Narrowing.Proofs.Among.Greatest
import Narrowing.Proofs.Among.Recount
import Narrowing.Proofs.Engine.Arrival

/-!
Passes from scratch at a fixed point. Some propagators are asked for one, and the engine reposes when
nothing is waiting and each of these is spent after a recount. Then they recount and do nothing else,
so propagation comes to a fixed point again and the domains stay what they are.

That fixed points are such can fail for two reasons. A place may be struck off without effect, which a
recount finds out. And a propagator that does not hear of its own changes may keep counts that are out
of date.
-/

namespace Narrowing.AmongPropagator

open Narrowing.Action Narrowing.Engine

variable {exact : PropagatorId → Prop} {e e' e₀ : Engine AmongPropagator} {j : PropagatorId}
  {p : AmongPropagator} {w : Workspace Remark} {skipsOwn : Bool} {m : Moment AmongPropagator}
  {asked ids : List PropagatorId}

/-! ### Repeated passes -/

/-- Nothing is waiting, and a pass from scratch of any propagator that is asked for one would recount
and find nothing to do. -/
structure Reposes (asked : List PropagatorId) (e : Engine AmongPropagator) : Prop where
  live : Live Nobody e
  idle : e.Idle
  ready : ∀ j ∈ asked, ∃ p, e.propagators.get? j = some p ∧ Recountable p e.toWorkspace ∧
    p.Spent e.domains.table (p.undecided e.domains.table) (p.sures e.domains.table)

/-- Only passes from scratch are left to make, and since `e₀` nothing has changed but that some
propagators have recounted that were asked for it. -/
structure Repeats (asked : List PropagatorId) (e₀ e : Engine AmongPropagator) : Prop where
  consistent : Consistent e
  contradiction_eq : e.contradiction = none
  notifier_eq : e.notifier = e₀.notifier
  propagators_eq : e.propagators = e₀.propagators
  retains : Retains e₀.toWorkspace e.toWorkspace
  full : ∀ r ∈ e.agenda.requests, r.passes.full = true ∧ r.propagator ∈ asked
  recounted : ∀ j p, e₀.propagators.get? j = some p →
    (p.may e.toWorkspace = p.may e₀.toWorkspace ∧ p.surely e.toWorkspace = p.surely e₀.toWorkspace) ∨
      j ∈ asked ∧ p.may e.toWorkspace = p.undecided e₀.domains.table ∧
        p.surely e.toWorkspace = p.sures e₀.domains.table

theorem Reposes.repeats (h : Reposes asked e₀) : Repeats asked e₀ e₀ where
  consistent := h.live.consistent
  contradiction_eq := h.live.contradiction_eq
  notifier_eq := rfl
  propagators_eq := rfl
  retains := ⟨rfl, .refl h.live.consistent.workspace.cells, rfl⟩
  full r hr := by
    rw [h.idle.requests] at hr
    exact nomatch hr
  recounted _ _ _ := Or.inl ⟨rfl, rfl⟩

/-- A pass from scratch is requested. -/
theorem Repeats.forced (h : Repeats asked e₀ e) (hj : j ∈ asked) (priority : Priority) :
    Repeats asked e₀ { e with agenda := e.agenda.request j priority .fromScratch } := by
  refine ⟨h.consistent.requested _ _ _, h.contradiction_eq, h.notifier_eq, h.propagators_eq, h.retains,
    ?_, h.recounted⟩
  refine Agenda.forall_request (Q := fun id passes => passes.full = true ∧ id ∈ asked)
    (fun _ _ hQ => ⟨?_, hQ.2⟩) h.full ⟨rfl, hj⟩
  exact Bool.or_true _

theorem Repeats.exists_forced (h : Repeats asked e₀ e) (h₀ : Reposes asked e₀)
    (hids : ∀ id ∈ ids, id ∈ asked) :
    ∃ e', ids.forM forceFull e = .ok () e' ∧ Repeats asked e₀ e' := by
  induction ids generalizing e with
  | nil => exact ⟨e, rfl, h⟩
  | cons id rest ih =>
      obtain ⟨hid, hrest⟩ := List.forall_mem_cons.1 hids
      obtain ⟨p, hp, -⟩ := h₀.ready id hid
      obtain ⟨e', he', h'⟩ := ih (h.forced hid (Propagator.priority p)) hrest
      have hfound : propagator id e = .ok p e :=
        checked_of_ok ((Table.fetch_eq_ok_iff _).2 (h.propagators_eq ▸ hp))
      have hforce : forceFull id e =
          .ok () { e with agenda := e.agenda.request id (Propagator.priority p) .fromScratch } :=
        bind_of_ok hfound
      exact ⟨e', (bind_of_ok hforce).trans he', h'⟩

/-- A pass that did nothing but recount. -/
theorem Repeats.passed {r : Request} {rest : List Request} (h : Repeats asked e₀ e)
    (h₀ : Reposes asked e₀) (hr : e.agenda.requests = r :: rest)
    (hp : e₀.propagators.get? r.propagator = some p) (hretains : Retains e.toWorkspace w)
    (hrecounted : Recounted p e.toWorkspace w) : Repeats asked e₀ ((e.met rest).worked w) := by
  have hprogress : Workspace.Progress (.propagator r.propagator) (e.met rest).toWorkspace w :=
    ⟨hretains.domains_eq ▸ .refl, hretains.evolves⟩
  refine ⟨(h.consistent.met hr).worked hprogress, h.contradiction_eq, h.notifier_eq,
    h.propagators_eq, h.retains.trans hretains,
    fun r' hr' => h.full r' (hr ▸ List.mem_cons_of_mem _ hr'), fun i q hq => ?_⟩
  by_cases hne : i = r.propagator
  · obtain rfl : p = q := Option.some.inj (hp.symm.trans (hne ▸ hq))
    have hexact := hrecounted.tracks.exact
    rw [h.retains.domains_eq] at hexact
    exact Or.inr ⟨hne ▸ (h.full r (hr ▸ List.mem_cons_self)).2, hexact⟩
  · obtain ⟨hsure, hpossible⟩ := h₀.live.cells_ne hp hq hne
    have hmay : q.may w = q.may e.toWorkspace := hrecounted.places_eq _ hpossible
    have hsurely : q.surely w = q.surely e.toWorkspace := hrecounted.value_eq _ hsure
    change (q.may w = _ ∧ q.surely w = _) ∨ _ ∧ q.may w = _ ∧ q.surely w = _
    rw [hmay, hsurely]
    exact h.recounted i q hq

/-- No round stops, and it does nothing but recount. -/
theorem Repeats.exists_round (h₀ : Reposes asked e₀) (h : Repeats asked e₀ e) :
    ∃ more e', Engine.round e = .ok more e' ∧ Repeats asked e₀ e' := by
  have hdomains : e.domains = e₀.domains := h.retains.domains_eq
  refine Engine.exists_round (hdomains ▸ h₀.idle.unreported) (h.notifier_eq ▸ h₀.idle.pending)
    (fun _ => h) fun r rest hr => ?_
  obtain ⟨hfull, hasked⟩ := h.full r (hr ▸ List.mem_cons_self)
  obtain ⟨p, hp, hrecountable, hspent⟩ := h₀.ready _ hasked
  have hplaced := h₀.live.placed _ p hp
  have hready : Ready p False e.toWorkspace :=
    ⟨h.consistent.workspace, hdomains ▸ hplaced.grounded, hplaced.sorted, h₀.live.countable _ p hp,
      fun hf => hf.elim⟩
  rw [← hdomains] at hspent
  refine ⟨p, h.propagators_eq ▸ hp, ?_⟩
  exact (succeeds_pass_again hready (hrecountable.retains h.retains) hspent hfull).imp
    fun _ _ hw => h.passed h₀ hr hp hw.1 hw.2

/-- Propagation comes to a fixed point again and does nothing but recount. -/
theorem Reposes.settle_repeats (h : Reposes ids e₀) :
    ∃ e₁ e₂, ids.forM forceFull e₀ = .ok () e₁ ∧ Engine.settle e₁ = .ok (.ok ()) e₂ ∧
      Repeats ids e₀ e₂ := by
  obtain ⟨e₁, hforce, h₁⟩ := h.repeats.exists_forced h fun _ hid => hid
  obtain ⟨e₂, hs, h₂⟩ := settle_eq_ok_of_rounds (fun _ h' => h'.exists_round h) h₁ h₁.consistent
    h₁.contradiction_eq
  exact ⟨e₁, e₂, hforce, hs, h₂⟩

/-! ### What the cells tell -/

/-- The listed places depend on the set only. -/
theorem possiblePlaces_congr {s s' : Cells} (hf : p.Furnished s) (hf' : p.Furnished s')
    (hwf : s.WellFormed) (hwf' : s'.WellFormed)
    (hsame : s'.contents.places p.possible = s.contents.places p.possible) :
    p.possiblePlaces s' = p.possiblePlaces s := by
  obtain ⟨l, hl⟩ := Cells.exists_members hf.possible_lt
  obtain ⟨l', hl'⟩ := Cells.exists_members hf'.possible_lt
  obtain ⟨hnodup, hmem⟩ := Cells.members_eq_ok hl hwf
  obtain ⟨hnodup', hmem'⟩ := Cells.members_eq_ok hl' hwf'
  have hperm : l'.Perm l := (List.perm_ext_iff_of_nodup hnodup' hnodup).2 fun i => by
    rw [hmem', hmem, hsame]
  have hsort : l'.mergeSort = l.mergeSort :=
    ((List.mergeSort_perm l' _).trans (hperm.trans (List.mergeSort_perm l _).symm)).eq_of_pairwise'
      (List.pairwise_mergeSort' (· ≤ ·) l') (List.pairwise_mergeSort' (· ≤ ·) l)
  unfold possiblePlaces
  rw [hl, hl']
  exact congrArg Except.ok hsort

theorem sureCount_congr {s s' : Cells} (hf : p.Furnished s) (hf' : p.Furnished s')
    (hsame : s'.contents.value p.sure = s.contents.value p.sure) :
    p.sureCount s' = p.sureCount s := by
  rw [sureCount, sureCount, Cells.read_of_lt hf.sure_lt, Cells.read_of_lt hf'.sure_lt, hsame]

/-! ### Fixed points -/

/-- A propagator whose repeated pass leaves a fixed point alone. -/
inductive Repeatable (exact : PropagatorId → Prop) (skipsOwn : Bool) (t : Table DomainId Domain)
    (j : PropagatorId) (p : AmongPropagator) : Prop
  /-- It hears of its own changes, and no place of it can be struck off without effect. -/
  | told (hskips : skipsOwn = false) (hexact : exact j)
  /-- It restricts no views of intervals, and its counter does not stand in its scope if it does not
  hear of its own changes. -/
  | spared (hsteers : p.Steerable t)
    (hapart : skipsOwn = true → ∀ i < p.scope.length, (p.place i).base ≠ p.counter.base)

/-- The propagator hears of its own changes, or decides about no place that is over an interval. -/
def Notices (skipsOwn : Bool) (p : AmongPropagator) (t : Table DomainId Domain) : Prop :=
  skipsOwn = true → p.backPropagates = true → ∀ x ∈ p.scope, t.enumerated x.base = true

namespace Repeatable

variable (h : Repeatable exact skipsOwn e₀.domains.table j p)
  (hreached : Reached (unblockedRules exact) skipsOwn m) {u : Unit}
  (hs : Engine.settle m.engine = .ok (.ok u) e₀) (hp : e₀.propagators.get? j = some p)
include h hreached hs hp

/-- At the fixed point the cells lag behind only at intervals that a propagator has narrowed without
hearing of it. -/
theorem tracks : p.Tracks e₀.domains.table (p.may e₀.toWorkspace) (p.surely e₀.toWorkspace) fun i =>
    skipsOwn = true ∧ p.backPropagates = true ∧
      e₀.domains.table.enumerated (p.place i).base = false := by
  cases h with
  | told hskips hexact =>
      subst hskips
      have hsane := Reached.sane_of_unblocked hreached
      exact ((hsane.held_of_settle hs hp).2.tracks hexact).mono fun _ _ hf => hf.elim
  | spared hsteers hapart =>
      obtain ⟨-, hquiet⟩ := quiet_of_settle (settled_of_reached hreached) hs hp hsteers
      refine hquiet.tracks.mono fun i hi hstale => ?_
      have hlt := Finset.mem_range.1 (hquiet.tracks.subset hi)
      have hhandled := hstale.2.resolve_right (hapart hstale.1 i hlt)
      exact ⟨hstale.1, hhandled.back, hhandled.interval⟩

/-- What a propagator finds out by a recount lets it do nothing more. -/
theorem spent (ht : p.Tractable e₀.domains.table) :
    p.Spent e₀.domains.table (p.undecided e₀.domains.table) (p.sures e₀.domains.table) := by
  have htracks := h.tracks hreached hs hp
  cases h with
  | told hskips hexact =>
      subst hskips
      obtain ⟨-, -, hspent⟩ := lasts_exhausts.of_settle (settled_of_reached hreached) hs
      obtain ⟨hmay, hsurely⟩ := Among.Tracks.exact (htracks.mono fun _ _ hstale => nomatch hstale.1)
      rw [← hmay, ← hsurely]
      exact hspent j p hp rfl
  | spared hsteers hapart =>
      obtain ⟨hframe, hquiet⟩ := quiet_of_settle (settled_of_reached hreached) hs hp hsteers
      have hplaced := hframe.placed j p hp
      have hwf := hframe.consistent.workspace.table
      exact (hquiet.atRest hwf hplaced.grounded hapart).spent ht hplaced.grounded hwf hplaced.sorted

end Repeatable

theorem furnished_of_live (h : Live Nobody e) (hp : e.propagators.get? j = some p) :
    p.Furnished e.cells := by
  have hplaced := h.placed j p hp
  have hlt : j.index < e.propagators.size := Table.lt_size_of_get? hp
  constructor
  · rw [h.size_eq.1, hplaced.sure_eq]
    exact hlt
  · rw [h.size_eq.2, hplaced.possible_eq]
    exact hlt

/-- The fixed point is one that repeated passes leave alone. -/
theorem reposes_of_settle {u : Unit} (h : Reached (unblockedRules exact) skipsOwn m)
    (hs : Engine.settle m.engine = .ok (.ok u) e₀)
    (hids : ∀ id ∈ ids, ∃ p, e₀.propagators.get? id = some p ∧
      Repeatable exact skipsOwn e₀.domains.table id p ∧ ∀ v ∈ p.tracked, Value.InRange v) :
    Reposes ids e₀ := by
  obtain ⟨hlive, hidle, htractable⟩ := lasts_tractable.of_settle (settled_of_reached h) hs
  refine ⟨hlive, hidle, fun j hj => ?_⟩
  obtain ⟨p, hp, hrepeatable, htracked⟩ := hids j hj
  have htracks := hrepeatable.tracks h hs hp
  refine ⟨p, hp, ⟨furnished_of_live hlive hp, htractable j p hp, htracked, fun i hi => ?_⟩,
    hrepeatable.spent h hs hp (htractable j p hp)⟩
  exact Cells.lt_capacity_of_mem_places hlive.consistent.workspace.cells
    (htracks.undecided_subset hi)

/-- A propagator whose cells were exact if it recounted finds in them what it found before. -/
theorem Repeats.cells_eq (h : Repeats asked e₀ e) (h₀ : Reposes asked e₀)
    (hp : e₀.propagators.get? j = some p)
    (htracks : j ∈ asked → p.Tracks e₀.domains.table (p.may e₀.toWorkspace) (p.surely e₀.toWorkspace)
      fun _ => False) :
    p.possiblePlaces e.cells = p.possiblePlaces e₀.cells ∧
      p.sureCount e.cells = p.sureCount e₀.cells := by
  have hf := furnished_of_live h₀.live hp
  have hf' := hf.evolves h.retains.evolves
  obtain ⟨hmay, hsurely⟩ : p.may e.toWorkspace = p.may e₀.toWorkspace ∧
      p.surely e.toWorkspace = p.surely e₀.toWorkspace := by
    rcases h.recounted j p hp with hsame | ⟨hasked, hmay, hsurely⟩
    · exact hsame
    · obtain ⟨hmay₀, hsurely₀⟩ := (htracks hasked).exact
      exact ⟨hmay.trans hmay₀.symm, hsurely.trans hsurely₀.symm⟩
  have hwf := h₀.live.consistent.workspace.cells
  exact ⟨possiblePlaces_congr hf hf' hwf h.consistent.workspace.cells hmay,
    sureCount_congr hf hf' hsurely⟩

/-- **Repeated passes.** Where scopes can be counted, passes from scratch at a fixed point lead to a
fixed point again, and the domains are what they were. So is what the cells of every propagator tell
that was not asked for one or notices all that it does. -/
theorem settle_again {u : Unit} (h : Reached (unblockedRules exact) skipsOwn m)
    (hs : Engine.settle m.engine = .ok (.ok u) e)
    (hids : ∀ id ∈ ids, ∃ p, e.propagators.get? id = some p ∧
      Repeatable exact skipsOwn e.domains.table id p ∧ ∀ v ∈ p.tracked, Value.InRange v) :
    ∃ forced e', ids.forM forceFull e = .ok () forced ∧ Engine.settle forced = .ok (.ok ()) e' ∧
      e'.domains = e.domains ∧ ∀ j p, e.propagators.get? j = some p →
        (j ∈ ids → p.Notices skipsOwn e.domains.table) →
        p.possiblePlaces e'.cells = p.possiblePlaces e.cells ∧
          p.sureCount e'.cells = p.sureCount e.cells := by
  have hreposes := reposes_of_settle h hs hids
  obtain ⟨forced, e', hforce, hs', hrepeats⟩ := hreposes.settle_repeats
  refine ⟨forced, e', hforce, hs', hrepeats.retains.domains_eq, fun j p hp hnotices => ?_⟩
  refine hrepeats.cells_eq hreposes hp fun hj => ?_
  obtain ⟨q, hq, hrepeatable, -⟩ := hids j hj
  obtain rfl := Option.some.inj (hp.symm.trans hq)
  refine (hrepeatable.tracks h hs hp).mono fun i hi ⟨hskips, hback, hinterval⟩ => ?_
  have hlt := Finset.mem_range.1 ((hrepeatable.tracks h hs hp).subset hi)
  exact nomatch (hnotices hj hskips hback _ (Among.place_mem hlt)).symm.trans hinterval

/-- The propagator of a small run is asked for another pass. -/
theorem settle_again_countedTwice :
    ∃ forced e', [(⟨0⟩ : PropagatorId)].forM forceFull (countedTwice.after .settle).engine =
        .ok () forced ∧ Engine.settle forced = .ok (.ok ()) e' ∧
      e'.domains = (countedTwice.after .settle).engine.domains ∧
      AmongPropagator.sureCount
        ⟨⟨[.domain ⟨0⟩, .abs (.domain ⟨0⟩)], .domain ⟨1⟩, [1]⟩, ⟨0⟩, ⟨0⟩, true⟩ e'.cells = .ok 2 := by
  have hp : (countedTwice.after .settle).engine.propagators.get? ⟨0⟩ =
      some ⟨⟨[.domain ⟨0⟩, .abs (.domain ⟨0⟩)], .domain ⟨1⟩, [1]⟩, ⟨0⟩, ⟨0⟩, true⟩ := by
    decide +kernel
  have hclear : Among.Clear ⟨[.domain ⟨0⟩, .abs (.domain ⟨0⟩)], .domain ⟨1⟩, [1]⟩
      (countedTwice.after .settle).engine.domains.table := by decide +kernel
  have hids : ∀ id ∈ [(⟨0⟩ : PropagatorId)], ∃ p,
      (countedTwice.after .settle).engine.propagators.get? id = some p ∧
        Repeatable (fun _ => False) false (countedTwice.after .settle).engine.domains.table id p ∧
        ∀ v ∈ p.tracked, Value.InRange v :=
    List.forall_mem_singleton.2 ⟨_, hp, .spared (.of_clear hclear) (fun hskips => nomatch hskips),
      by decide +kernel⟩
  obtain ⟨forced, e', hforce, hs, hdomains, hcells⟩ :=
    settle_again (reached_countedTwice fun hf => hf.elim) settle_countedTwice hids
  refine ⟨forced, e', hforce, hs, hdomains, ?_⟩
  rw [(hcells ⟨0⟩ _ hp fun _ hskips => nomatch hskips).2]
  decide +kernel

/-- No place may be struck off without effect. Here the absolute value of a variable from `-3` to `3`
is not to be `0` or `1`, which takes no value from the interval; the caller decides that the variable
is not negative, and a pass from scratch takes these values. -/
example :
    let c : Among := ⟨[.abs (.domain ⟨0⟩)], .domain ⟨1⟩, [0, 1]⟩
    let m := ((Moment.mk (init false) false |>.after (.newInterval (-3) 3)).after
      (.newInterval 0 0)).after (.add (posting c.scope c.counter c.tracked true))
    let m := (m.after .settle).after (.impose (.domain ⟨0⟩) (.atLeast 0)) |>.after .settle
    let m' := (m.after (.forceFull ⟨0⟩)).after .settle
    m.settled = true ∧ m.engine.domains.table.members ⟨0⟩ = {0, 1, 2, 3} ∧
      m'.settled = true ∧ m'.engine.domains.table.members ⟨0⟩ = {2, 3} := by
  decide +kernel

/-- A propagator that does not hear of its own changes has to recount to learn what they decided. -/
example :
    let p : AmongPropagator := ⟨⟨[.domain ⟨0⟩], .domain ⟨1⟩, [0, 1]⟩, ⟨0⟩, ⟨0⟩, true⟩
    let m := ((Moment.mk (init true) false |>.after (.newInterval 0 3)).after
      (.newInterval 1 1)).after (.add (posting p.scope p.counter p.tracked true))
    let m := m.after .settle
    let m' := (m.after (.forceFull ⟨0⟩)).after .settle
    m'.settled = true ∧ (∀ id ∈ [⟨0⟩, ⟨1⟩], m'.engine.domains.table.members id =
        m.engine.domains.table.members id) ∧
      p.sureCount m.engine.cells = .ok 0 ∧ p.sureCount m'.engine.cells = .ok 1 := by
  decide +kernel

end Narrowing.AmongPropagator
