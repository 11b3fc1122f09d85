import Narrowing.Proofs.Among.Recount

/-!
Propagators that are spared the news of what they do themselves. They account for it on their own,
with one exception: when a pass moves a bound of the counter, that may decide about places of the
scope at which the counter itself stands, and nobody tells the propagator. One such place does no harm
as long as a fixed counter has an effect on the scope. With that, a fixed point in which everything is
fixed is a solution.
-/

namespace Narrowing.AmongPropagator

open Narrowing.Engine

variable {p : AmongPropagator} {t : Table DomainId Domain} {P : Finset Nat} {n : Int}
  {σ : DomainId → Int} {skipsOwn : Bool} {i : Nat}

/-- How often the counter may stand in the scope of a propagator that is spared its own changes. -/
def tolerated (p : AmongPropagator) : Nat := if p.backPropagates = true then 1 else 0

/-- The places at which the counter stands. -/
def counterPlaces (p : AmongPropagator) : Finset Nat :=
  (Finset.range p.scope.length).filter fun i => (p.place i).base = p.counter.base

theorem mem_counterPlaces : i ∈ p.counterPlaces ↔
    i < p.scope.length ∧ (p.place i).base = p.counter.base := by
  rw [counterPlaces, Finset.mem_filter, Finset.mem_range]

section Fixed

variable (hfixed : ∀ x ∈ p.counter :: p.scope, t.members x.base = {σ x.base})
include hfixed

/-- Where everything is fixed, only a solution leaves a propagator at rest. -/
theorem AtRest.satisfied (h : p.AtRest t) : p.Satisfied σ :=
  satisfied_of_inBounds hfixed (h.inBounds _ (eval_counter_mem_of_fixed hfixed))

/-- If the cells lag behind at few places only, a fixed counter decides about them. -/
theorem Quiet.pinned_of_fixed (h : Quiet skipsOwn p t P n) (hback : p.backPropagates = true)
    (hfew : p.counterPlaces.card ≤ 1) : p.Pinned t P n := by
  by_contra hnot
  have hP : P ⊆ p.counterPlaces := by
    intro i hi
    have hlt := Finset.mem_range.1 (h.tracks.subset hi)
    have hstale := h.tracks.awaited i hi (decided_of_fixed hfixed hlt)
    exact mem_counterPlaces.2 ⟨hlt, hstale.2.resolve_left fun hhandled => hnot hhandled.pinned⟩
  have hcard := (Finset.card_le_card hP).trans hfew
  have hcounter := current_of_fixed (hfixed p.counter List.mem_cons_self)
  have hbounds := h.resting.inBounds _ (eval_counter_mem_of_fixed hfixed)
  have hcount : ∀ m, p.counter.eval σ = m → p.CounterIs t m := by
    intro m hm v hv
    rw [hcounter, Finset.mem_singleton] at hv
    exact hv.trans hm
  refine hnot ⟨hback, ?_⟩
  by_cases hleast : p.counter.eval σ = n
  · exact Or.inl (hcount n hleast)
  · exact Or.inr (hcount _ (by omega))

theorem Quiet.atRest_of_fixed (h : Quiet skipsOwn p t P n) (hwf : t.WellFormed)
    (hg : p.Grounded t) (hfew : p.counterPlaces.card ≤ p.tolerated) : p.AtRest t := by
  unfold tolerated at hfew
  split at hfew
  · next hback =>
    have hpinned := h.pinned_of_fixed hfixed hback hfew
    exact h.resting.atRest (h.tracks.mono fun _ _ _ => hpinned) hwf hg
  · refine h.atRest hwf hg fun _ i hi heq => ?_
    have hnone := Finset.card_eq_zero.1 (Nat.le_zero.1 hfew)
    exact Finset.notMem_empty i (hnone ▸ mem_counterPlaces.2 ⟨hi, heq⟩)

end Fixed

/-- Where scopes can be counted, the constraint is satisfied at a fixed point at which its variables are
all fixed, also if propagators hear nothing of their own changes. -/
theorem satisfied_of_fixed_spared {m : Moment AmongPropagator} {e' : Engine AmongPropagator}
    {j : PropagatorId} (h : Reached settledRules true m)
    (hs : settle m.engine = .ok (.ok ()) e') (hp : e'.propagators.get? j = some p)
    (hclear : p.Clear e'.domains.table) (hfew : p.counterPlaces.card ≤ p.tolerated)
    (hfixed : ∀ x ∈ p.counter :: p.scope, e'.domains.table.members x.base = {σ x.base}) :
    p.Satisfied σ := by
  obtain ⟨hframe, hquiet⟩ := quiet_of_settle h hs hp (.of_clear hclear)
  exact (hquiet.atRest_of_fixed hfixed hframe.consistent.workspace.table
    (hframe.placed j p hp).grounded hfew).satisfied hfixed

/-- A variable with the values `1` and `3`, its own counter, in an engine whose propagators are spared
their own changes. -/
def ownCounter : Moment AmongPropagator :=
  (Moment.mk (init true) false |>.after (.newListed [1, 3])).after
    (.add (posting [.domain ⟨0⟩] (.domain ⟨0⟩) [1] true))

/-- The variable becomes `1`, and is counted once. -/
theorem satisfied_of_fixed_spared_ownCounter :
    Among.Satisfied ⟨[.domain ⟨0⟩], .domain ⟨0⟩, [1]⟩ fun _ => 1 := by
  have hstart : Reached settledRules true ⟨init true, false⟩ := .refl
  have hvariable := hstart.after (.newListed [1, 3]) (by decide) trivial (by decide +kernel)
  have hreached : Reached settledRules true ownCounter := hvariable.after
    (.add (posting [.domain ⟨0⟩] (.domain ⟨0⟩) [1] true)) trivial
    ⟨by decide +kernel, _, _, _, _, rfl, by decide, trivial⟩ (by decide +kernel)
  have hsettle : settle ownCounter.engine = .ok (.ok ()) (ownCounter.after .settle).engine :=
    Moment.settle_eq_ok (by decide +kernel) (by decide +kernel)
  have hp : (ownCounter.after .settle).engine.propagators.get? ⟨0⟩ =
      some ⟨⟨[.domain ⟨0⟩], .domain ⟨0⟩, [1]⟩, ⟨0⟩, ⟨0⟩, true⟩ := by decide +kernel
  exact satisfied_of_fixed_spared hreached hsettle hp (by decide +kernel) (by decide)
    (by decide +kernel)

/-- The condition is needed. If the same variable stands in the scope twice, it becomes `1` as well,
and is counted twice. -/
example :
    let c : Among := ⟨[.domain ⟨0⟩, .domain ⟨0⟩], .domain ⟨0⟩, [1]⟩
    let m := (Moment.mk (init true) false |>.after (.newListed [1, 3])).after
      (.add (posting c.scope c.counter c.tracked true)) |>.after .settle
    m.settled = true ∧ m.engine.domains.table.members ⟨0⟩ = {1} ∧ ¬ c.Satisfied fun _ => 1 := by
  decide +kernel

end Narrowing.AmongPropagator
