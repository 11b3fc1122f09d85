import Narrowing.Proofs.Among.Arrangement

/-!
How propagation with Among propagators ends. A call reads cells and domains that are there, and counts
and removed values stay machine values, unless a propagator is strained: so propagation is never
abandoned otherwise, and then for an overflow. A strained propagator can be abandoned. While the places
that may count are gone through, one place can bring down another one over the same domain to tracked
values only; if that one is to lose its values at the bounds and the greatest machine value is among
them, the next lower bound is no machine value.
-/

namespace Narrowing.AmongPropagator

open Narrowing.Action Narrowing.Engine

variable {safe : Prop} {e e' : Engine AmongPropagator} {p : AmongPropagator} {w : Workspace Remark}

/-! ### Rounds -/

/-- The fault is one that one of the propagators is at risk of. -/
def Endangered (safe : Prop) (propagators : Table PropagatorId AmongPropagator) (f : Fault)
    (e : Engine AmongPropagator) : Prop :=
  ∃ j p, propagators.get? j = some p ∧ p.Hazard safe f e.toWorkspace

/-- Changes can be told, whoever is to be told or to make a pass is there, and what it does is
abandoned only where it is at risk. -/
theorem Working.ends_round_endangered (h : Working safe e) :
    Ends round e (fun _ _ => True) (Faulted (Endangered safe e.propagators)) := by
  have hwatches := h.trusted.consistent.watches_size
  apply ends_round_risks
  · exact Notifier.exists_noticesOfAll fun o ho => (h.unreported o ho).trans_eq hwatches.symm
  · rintro e' notices hn rfl
    have htold := h.told hn
    constructor
    · intro l events rest hpending
      obtain ⟨p, hp, -⟩ := htold.pending (l, events) (hpending ▸ List.mem_cons_self)
      have hrisks := htold.risks_notified hpending hp (covers_hazard p safe)
      refine ⟨p, hp, hrisks.mono (fun _ _ _ => trivial) ?_⟩
      exact fun f w hf => ⟨l.propagator, p, hp, hf⟩
    · intro r rest _ hrequests
      obtain ⟨p, hp⟩ := htold.requests r (hrequests ▸ List.mem_cons_self)
      refine ⟨p, hp, (htold.risks_pass hp r.passes).mono (fun _ _ _ => trivial) ?_⟩
      exact fun f w hf => ⟨r.propagator, p, hp, hf⟩

/-- A round of propagation leaves everything in its place, or is abandoned where a propagator is at
risk. -/
theorem Working.ends_round (h : Working safe e) :
    Ends round e (fun _ e' => Working safe e' ∧ e'.propagators = e.propagators)
      (Faulted (Endangered safe e.propagators)) := by
  have hkeeps := (closed_working safe).ends_round h
  have hsame := (closed_propagators e.propagators).ends_round rfl
  exact (hkeeps.and (hsame.and h.ends_round_endangered)).mono (fun _ _ hw => ⟨hw.1.1, hw.2.1.1⟩)
    fun _ _ hw => hw.2.2

/-! ### Propagation -/

/-- With everything in its place, propagation comes to an end, or is abandoned where a propagator is
strained. -/
theorem Orderly.settle_ends (h : Orderly e) (htame : AllTame e) :
    (∃ r e', Engine.settle e = .ok r e') ∨
      ∃ e' j p, Engine.settle e = .error .overflow e' ∧ e.propagators.get? j = some p ∧
        p.Strained e'.toWorkspace := by
  cases hc : e.contradiction with
  | some c => exact Or.inl ⟨_, _, settle_of_contradiction hc⟩
  | none =>
      have hworking : Working True e := h.working hc fun _ => htame
      have hround : ∀ e₁, Working True e₁ ∧ e₁.propagators = e.propagators →
          Ends round e₁ (fun _ e₂ => Working True e₂ ∧ e₂.propagators = e.propagators)
            (Faulted (Endangered True e.propagators)) := by
        rintro e₁ ⟨h₁, hsame⟩
        rw [← hsame]
        exact h₁.ends_round
      rcases settle_of_rounds hround ⟨hworking, rfl⟩ h.trusted.consistent hc with
        ⟨e', he', -⟩ | ⟨c, e', he', -⟩ | ⟨f, e', he', hf⟩
      · exact Or.inl ⟨_, _, he'⟩
      · exact Or.inl ⟨_, _, he'⟩
      · obtain ⟨j, p, hp, hhazard⟩ := hf f rfl
        obtain ⟨rfl, hstrained⟩ := hhazard trivial
        exact Or.inr ⟨e', j, p, he', hp, hstrained⟩

/-- **Propagation with Among propagators ends, unless one is strained.** At every moment of a run
whose domains do not have the least machine value, propagation comes to a fixed point or to a
contradiction, or else it is abandoned for an overflow and leaves a strained propagator: one with more
places than can be counted, or with a place that is sure to count though it still belongs to those that
may, and whose interval has the greatest machine value. -/
theorem settle_ok_or_strained {skipsOwn : Bool} {m : Moment AmongPropagator}
    (h : Reached freeRules skipsOwn m)
    (hleast : ∀ id, Value.least ∉ m.engine.domains.table.members id) :
    (∃ r e, settle m.engine = .ok r e) ∨
      ∃ e j p, settle m.engine = .error .overflow e ∧ m.engine.propagators.get? j = some p ∧
        p.Strained e.toWorkspace :=
  (orderly_of_reached (open_of_free h)).settle_ends (allTame_of_free h hleast)

/-- A variable with the two least negated machine values, and none of it and its absolute value may be
tracked. Once the variable has lost the tracked one of its values, its absolute value has come down to
the greatest machine value, which is tracked. -/
def cornered : Moment AmongPropagator :=
  ((Moment.mk (init false) false |>.after
    (.newInterval (-2147483647) (-2147483646))).after (.newInterval 0 0)).after
      (.add (posting [.domain ⟨0⟩, .abs (.domain ⟨0⟩)] (.domain ⟨1⟩) [-2147483646, 2147483647] true))

theorem settle_ok_or_strained_cornered :
    Reached freeRules false cornered ∧
      (∀ id, Value.least ∉ cornered.engine.domains.table.members id) ∧
      ∃ e j p, settle cornered.engine = .error .overflow e ∧
        cornered.engine.propagators.get? j = some p ∧ p.Strained e.toWorkspace := by
  have hstart : Reached freeRules false ⟨init false, false⟩ := .refl
  have hfirst := hstart.after (.newInterval (-2147483647) (-2147483646)) (by decide) trivial
    (by decide +kernel)
  have hsecond := hfirst.after (.newInterval 0 0) (by decide) trivial (by decide +kernel)
  have hreached : Reached freeRules false cornered :=
    hsecond.after _ trivial ⟨_, _, _, _, rfl, by decide⟩ (by decide +kernel)
  have hlower : ∀ d ∈ cornered.engine.domains.table.entries.toList, Value.least < d.lower := by
    decide +kernel
  have hleast := Table.notMem_members_of_lt_lower hlower
  have habandoned : ∀ r e, settle cornered.engine ≠ .ok r e := by
    intro r e he
    have hends : cornered.plays .settle = false := by decide +kernel
    have hplay : Move.play .settle cornered.engine = .ok r.isOk e := bind_of_ok he
    unfold Moment.plays at hends
    rw [hplay] at hends
    exact nomatch hends
  refine ⟨hreached, hleast, ?_⟩
  rcases settle_ok_or_strained hreached hleast with ⟨r, e, he⟩ | hstrained
  · exact absurd he (habandoned r e)
  · exact hstrained

/-! ### Propagators that are not strained -/

/-- A propagator that can count its places is strained only if it tracks the greatest machine value, and
back-propagates. -/
theorem Strained.greatest_mem (h : p.Strained w) (hlength : (p.scope.length : Int) ≤ Value.greatest) :
    p.backPropagates = true ∧ Value.greatest ∈ p.tracked := by
  cases h with
  | crowded hlt => exact absurd hlength (not_le.2 hlt)
  | cornered hback _ _ hsure hgreatest => exact ⟨hback, hsure _ hgreatest⟩

/-- Propagation comes to a fixed point or to a contradiction as long as every scope can be counted and
no propagator that back-propagates tracks the greatest machine value. -/
theorem settle_ok_of_relaxed {skipsOwn : Bool} {m : Moment AmongPropagator}
    (h : Reached freeRules skipsOwn m)
    (hleast : ∀ id, Value.least ∉ m.engine.domains.table.members id)
    (hrelaxed : ∀ j p, m.engine.propagators.get? j = some p →
      (p.scope.length : Int) ≤ Value.greatest ∧
        (p.backPropagates = true → Value.greatest ∉ p.tracked)) :
    ∃ r e, settle m.engine = .ok r e := by
  rcases (orderly_of_reached (open_of_free h)).settle_ends (allTame_of_free h hleast) with
    hok | ⟨e, j, p, -, hp, hstrained⟩
  · exact hok
  · obtain ⟨hlength, huntracked⟩ := hrelaxed j p hp
    obtain ⟨hback, hmem⟩ := hstrained.greatest_mem hlength
    exact absurd hmem (huntracked hback)

end Narrowing.AmongPropagator
