import Narrowing.Proofs.Among.Attention

/-!
What propagation comes to does not depend on how it gets there. Without views of intervals, it ends
in the greatest domains below those that it began with at which every propagator is at rest, and it
comes to a contradiction only if there are no such domains.
-/

namespace Narrowing.AmongPropagator

open Narrowing.Action Narrowing.Engine

variable {e e' e₀ : Engine AmongPropagator} {t g : Table DomainId Domain}

/-- Every propagator is at rest. -/
def AllAtRest (e : Engine AmongPropagator) (t : Table DomainId Domain) : Prop :=
  ∀ j p, e.propagators.get? j = some p → p.AtRest t

/-- No propagator has a view of an interval. -/
def AllClear (e : Engine AmongPropagator) : Prop :=
  ∀ j p, e.propagators.get? j = some p → p.Clear e.domains.table

instance : Decidable (AllClear e) :=
  decidable_of_iff (∀ p ∈ e.propagators.toList, p.Clear e.domains.table)
    ⟨fun h _ p hp => h p (Table.mem_toList_iff.2 ⟨_, hp⟩),
      fun h p hp => (Table.mem_toList_iff.1 hp).elim fun j hj => h j p hj⟩

/-- Propagation that began in `e₀` has come to `e` and left no domains behind at which every
propagator is at rest. -/
structure Descends (e₀ e : Engine AmongPropagator) : Prop where
  below : e.domains.table.Below e₀.domains.table
  floor : ∀ g, AllAtRest e₀ g → g.Below e₀.domains.table → g.Below e.domains.table

/-- No domains below are such that every propagator is at rest. -/
def AllRestless (e₀ : Engine AmongPropagator) : Prop :=
  ∀ g : Table DomainId Domain, g.Below e₀.domains.table → ¬ AllAtRest e₀ g

/-- What a propagator does that leaves no domains behind at which it is at rest. -/
theorem Descends.guarded (h : Descends e₀ e) {j : PropagatorId} {p : AmongPropagator}
    {w : Workspace Remark} (hwf : e.domains.table.WellFormed)
    (hp : e₀.propagators.get? j = some p) (hw : Guarded p j e.toWorkspace w) :
    Descends e₀ (e.worked w) :=
  ⟨(hw.progress.narrows.table_below hwf).trans h.below,
    fun g hg hb => hw.floor g (hg j p hp) (h.floor g hg hb)⟩

theorem Descends.restless (h : Descends e₀ e) {j : PropagatorId} {p : AmongPropagator}
    (hp : e₀.propagators.get? j = some p) (hw : Restless p e.toWorkspace) : AllRestless e₀ :=
  fun g hb hg => hw g (h.floor g hg hb) (hg j p hp)

theorem closed_descends (e₀ : Engine AmongPropagator) (hclear : AllClear e₀) :
    Closed (fun e => (Since Nobody e₀ e ∧ Watchful e) ∧ Descends e₀ e)
      fun e => (Hopeless Nobody e₀ e ∧ Hearkens e) ∧ AllRestless e₀ := by
  have hclear' : ∀ {e : Engine AmongPropagator} {j : PropagatorId} {p : AmongPropagator},
      Since Nobody e₀ e → Descends e₀ e → e.propagators.get? j = some p →
      e₀.propagators.get? j = some p ∧ p.Clear e.domains.table := by
    intro e j p hsince h hp
    have hp := hsince.propagators_eq ▸ hp
    exact ⟨hp, (hclear j p hp).of_enumerated h.below.enumerated_eq⟩
  refine (closed_watchful e₀).and (fun _ h _ => ⟨h.below, h.floor⟩) ?_ ?_
  · rintro e l events rest p ⟨hsince, hwatchful⟩ h hunreported hpending hp
    obtain ⟨hp₀, hclear⟩ := hclear' hsince h hp
    refine (hwatchful.yields_notified hsince.toLive hunreported hpending hp).mono
      (fun response w hw _ => ?_) fun w hw _ => h.restless hp₀ (hw (.of_clear hclear))
    have hdescends := h.guarded hsince.consistent.workspace.table hp₀ (hw (.of_clear hclear)).1
    cases response <;> exact ⟨hdescends.below, hdescends.floor⟩
  · rintro e r rest p ⟨hsince, hwatchful⟩ h hunreported hr hp
    obtain ⟨hp₀, hclear⟩ := hclear' hsince h hp
    refine (hwatchful.yields_pass hsince.toLive hunreported hr hp).mono
      (fun _ w hw _ => ?_) fun w hw _ => h.restless hp₀ (hw (.of_clear hclear))
    have hdescends := h.guarded hsince.consistent.workspace.table hp₀ (hw (.of_clear hclear)).1
    exact ⟨hdescends.below, hdescends.floor⟩

/-- The counter of no propagator stands in its scope. -/
def AllApart (e : Engine AmongPropagator) : Prop :=
  ∀ j p, e.propagators.get? j = some p → ∀ i < p.scope.length, (p.place i).base ≠ p.counter.base

/-- A moment at which the propagators find out all they can. They need not hear of their own changes
if their counters do not stand in their scopes. -/
structure Steady (skipsOwn : Bool) (m : Moment AmongPropagator) : Prop where
  reached : Reached settledRules skipsOwn m
  clear : AllClear m.engine
  apart : skipsOwn = true → AllApart m.engine
  contradiction_eq : m.engine.contradiction = none

/-- Propagation ends in the greatest domains at which every propagator is at rest, or comes to a
contradiction because there are none. -/
theorem Steady.settle_greatest {skipsOwn : Bool} {m : Moment AmongPropagator} (h : Steady skipsOwn m)
    {r : Except Contradiction Unit} (hs : settle m.engine = .ok r e') :
    (r = .ok () ∧ AllAtRest m.engine e'.domains.table ∧ Descends m.engine e') ∨
      ((∃ c, r = .error c) ∧ AllRestless m.engine) := by
  have hlive := (Reached.sane h.reached).live h.contradiction_eq
  have hstart : (Since Nobody m.engine m.engine ∧ Watchful m.engine) ∧
      Descends m.engine m.engine :=
    ⟨⟨⟨hlive, rfl, fun σ hσ => hσ.1⟩, watchful_of_reached h.reached⟩,
      .refl hlive.consistent.workspace.table, fun _ _ hb => hb⟩
  rcases (closed_descends m.engine h.clear).settle_eq_ok hstart h.contradiction_eq hs with
    ⟨rfl, ⟨⟨hsince, -⟩, hdescends⟩, -⟩ | ⟨c, broken, rfl, -, -, hrestless⟩
  · refine Or.inl ⟨rfl, fun j p hp => ?_, hdescends⟩
    have hp' : e'.propagators.get? j = some p := hsince.propagators_eq ▸ hp
    have hclear' := (h.clear j p hp).of_enumerated hdescends.below.enumerated_eq
    obtain ⟨hframe, hquiet⟩ := quiet_of_settle h.reached hs hp' (.of_clear hclear')
    exact hquiet.atRest hframe.consistent.workspace.table (hframe.placed j p hp').grounded
      fun hskips => h.apart hskips j p hp
  · exact Or.inr ⟨⟨c, rfl⟩, hrestless⟩

end Narrowing.AmongPropagator
