import Narrowing.Proofs.Among.Unstrained
import Narrowing.Proofs.Variable.Alike

/-!
Confluence. What propagation comes to depends on the constraints and on the values that the variables
have when it begins, and on nothing else: not on the order in which the constraints were added, not on
what was explored and restored before, and not on the order in which the propagators are called. The
greatest domains at which every propagator is at rest are the same for all of them.

An overflow is not an outcome in this sense. The absolute value of the smallest value is no value, so
one order may run into it where another has taken the value out first. Where there are no such values,
propagation comes to an outcome in every order.
-/

namespace Narrowing.AmongPropagator

open Narrowing.Engine

variable {e e₁ e₂ : Engine AmongPropagator} {t₁ t₂ : Table DomainId Domain}

/-- The constraints of an engine, each with whether a fixed counter has an effect on the scope. -/
def constraints (e : Engine AmongPropagator) : Finset (Among × Bool) :=
  (e.propagators.toList.map fun p => (p.toAmong, p.backPropagates)).toFinset

theorem mem_constraints {c : Among} {backPropagates : Bool} :
    (c, backPropagates) ∈ constraints e ↔ ∃ j p, e.propagators.get? j = some p ∧
      p.toAmong = c ∧ p.backPropagates = backPropagates := by
  simp only [constraints, List.mem_toFinset, List.mem_map, Table.mem_toList_iff, Prod.mk.injEq]
  exact ⟨fun ⟨p, ⟨j, hj⟩, hp⟩ => ⟨j, p, hj, hp⟩, fun ⟨j, p, hj, hp⟩ => ⟨p, ⟨j, hj⟩, hp⟩⟩

section Same

variable (hsame : constraints e₁ = constraints e₂) (halike : t₁.Alike t₂)
include hsame halike

/-- Whether every propagator is at rest depends on the constraints and on the values. -/
theorem AllAtRest.congr (h : AllAtRest e₁ t₁) : AllAtRest e₂ t₂ := by
  intro j p hp
  obtain ⟨i, q, hq, hc, hback⟩ := mem_constraints.1 (hsame ▸ mem_constraints.2 ⟨j, p, hp, rfl, rfl⟩)
  exact (h i q hq).congr hc.symm hback.symm (fun id => (halike.members_eq id).symm)
    fun id => (halike.enumerated_eq id).symm

end Same

section Steady

variable {skips₁ skips₂ : Bool} {m₁ m₂ : Moment AmongPropagator} (h₁ : Steady skips₁ m₁)
  (h₂ : Steady skips₂ m₂) (hsame : constraints m₁.engine = constraints m₂.engine)
  (halike : m₁.engine.domains.table.Alike m₂.engine.domains.table)
include h₁ h₂ hsame halike

/-- If propagation comes to a fixed point, so does propagation of the same constraints over the same
values, and it leaves at least as much. -/
theorem Steady.settle_below (hs₁ : settle m₁.engine = .ok (.ok ()) e₁)
    {r : Except Contradiction Unit} (hs₂ : settle m₂.engine = .ok r e₂) :
    r = .ok () ∧ e₁.domains.table.Below e₂.domains.table := by
  obtain ⟨-, hatRest, hdescends⟩ | ⟨⟨c, hr⟩, -⟩ := h₁.settle_greatest hs₁
  swap
  · exact nomatch hr
  have hatRest₂ : AllAtRest m₂.engine e₁.domains.table := hatRest.congr hsame (.refl _)
  have hbelow := halike.below hdescends.below
  rcases h₂.settle_greatest hs₂ with ⟨rfl, -, hdescends₂⟩ | ⟨-, hrestless⟩
  · exact ⟨rfl, hdescends₂.floor _ hatRest₂ hbelow⟩
  · exact absurd hatRest₂ (hrestless _ hbelow)

/-- Propagation of the same constraints over the same values comes to the same. -/
theorem Steady.settle_alike {r₁ r₂ : Except Contradiction Unit}
    (hs₁ : settle m₁.engine = .ok r₁ e₁) (hs₂ : settle m₂.engine = .ok r₂ e₂) :
    r₁.isOk = r₂.isOk ∧ (r₁ = .ok () → e₁.domains.table.Alike e₂.domains.table) := by
  cases r₁ with
  | ok u =>
      obtain ⟨rfl, hbelow⟩ := h₁.settle_below h₂ hsame halike hs₁ hs₂
      obtain ⟨-, hbelow'⟩ := h₂.settle_below h₁ hsame.symm halike.symm hs₂ hs₁
      exact ⟨rfl, fun _ => .of_below hbelow hbelow'⟩
  | error c =>
      cases r₂ with
      | ok u => exact nomatch (h₂.settle_below h₁ hsame.symm halike.symm hs₂ hs₁).1
      | error c' => exact ⟨rfl, fun hr => nomatch hr⟩

end Steady

theorem AllClear.congr (h : AllClear e₁) (hsame : constraints e₁ = constraints e₂)
    (halike : e₁.domains.table.Alike e₂.domains.table) : AllClear e₂ := by
  intro j p hp
  obtain ⟨i, q, hq, hc, -⟩ := mem_constraints.1 (hsame ▸ mem_constraints.2 ⟨j, p, hp, rfl, rfl⟩)
  exact hc ▸ (h i q hq).of_enumerated fun id => (halike.enumerated_eq id).symm

theorem AllTame.congr (h : AllTame e₁) (hsame : constraints e₁ = constraints e₂)
    (halike : e₁.domains.table.Alike e₂.domains.table) : AllTame e₂ := by
  intro j p hp
  obtain ⟨i, q, hq, hc, -⟩ := mem_constraints.1 (hsame ▸ mem_constraints.2 ⟨j, p, hp, rfl, rfl⟩)
  refine ⟨hc ▸ (h i q hq).tracked, fun x hx => ?_⟩
  exact ((h i q hq).invertible x (hc ▸ hx)).imp_right fun hleast => halike.members_eq x.base ▸ hleast

theorem settled_iff_of_isOk {r₁ r₂ : Except Contradiction Unit} (h : r₁.isOk = r₂.isOk) :
    r₁ = .ok () ↔ r₂ = .ok () := by
  cases r₁ with
  | ok u => cases r₂ with
    | ok u' => exact iff_of_true rfl rfl
    | error c' => exact nomatch h
  | error c => cases r₂ with
    | ok u' => exact nomatch h
    | error c' => exact iff_of_false (fun hr => nomatch hr) fun hr => nomatch hr

/-- **Propagation is confluent.** Two engines with the same constraints, over scopes that can be
counted, and with variables of the same values both come to a fixed point or both to a contradiction,
and at the fixed points the variables have the same values again. Propagation comes to an end in both as
long as no variable that is viewed has the least machine value and machine values are tracked. -/
theorem settle_confluent {m₁ m₂ : Moment AmongPropagator} (h₁ : Reached settledRules false m₁)
    (h₂ : Reached settledRules false m₂) (hclear : AllClear m₁.engine)
    (hc₁ : m₁.engine.contradiction = none) (hc₂ : m₂.engine.contradiction = none)
    (hsame : constraints m₁.engine = constraints m₂.engine)
    (halike : m₁.engine.domains.table.Alike m₂.engine.domains.table) :
    (∀ r₁ r₂ e₁ e₂, settle m₁.engine = .ok r₁ e₁ → settle m₂.engine = .ok r₂ e₂ →
      (r₁ = .ok () ↔ r₂ = .ok ()) ∧ (r₁ = .ok () → e₁.domains.table.Alike e₂.domains.table)) ∧
    (AllTame m₁.engine →
      ∃ r₁ r₂ e₁ e₂, settle m₁.engine = .ok r₁ e₁ ∧ settle m₂.engine = .ok r₂ e₂) := by
  have hclear₂ := hclear.congr hsame halike
  have hsteady₁ : Steady false m₁ := ⟨h₁, hclear, fun hs => (nomatch hs), hc₁⟩
  have hsteady₂ : Steady false m₂ := ⟨h₂, hclear₂, fun hs => (nomatch hs), hc₂⟩
  constructor
  · intro r₁ r₂ e₁ e₂ hs₁ hs₂
    obtain ⟨hsettled, hvalues⟩ := hsteady₁.settle_alike hsteady₂ hsame halike hs₁ hs₂
    exact ⟨settled_iff_of_isOk hsettled, hvalues⟩
  · intro htame
    obtain ⟨r₁, e₁, hs₁⟩ := settle_ok_of_clear h₁ hclear htame
    obtain ⟨r₂, e₂, hs₂⟩ := settle_ok_of_clear h₂ hclear₂ (htame.congr hsame halike)
    exact ⟨r₁, r₂, e₁, e₂, hs₁, hs₂⟩

/-! ### Two ways to one fixed point -/

/-- The counter counts how often the variable is `1`. -/
def countsOne : Posting AmongPropagator := posting [.domain ⟨0⟩] (.domain ⟨1⟩) [1] true

/-- The same counter counts how often the absolute value of the variable is `1` or `2`. -/
def countsSize : Posting AmongPropagator := posting [.abs (.domain ⟨0⟩)] (.domain ⟨1⟩) [2, 1] true

/-- The caller decides right after the first propagation that the variable is not `1`. -/
def decidedAtOnce : Moment AmongPropagator :=
  (twoVariables.after (.add countsOne)).after (.add countsSize) |>.after .settle
    |>.after (.impose (.domain ⟨0⟩) (.without 1))

/-- The caller adds the constraints the other way round, first finds out what comes of the decision
that the variable is `1`, and goes back. -/
def decidedLater : Moment AmongPropagator :=
  (twoVariables.after (.add countsSize)).after (.add countsOne) |>.after .settle
    |>.after .newCheckpoint |>.after (.impose (.domain ⟨0⟩) (.exactly 1)) |>.after .settle
    |>.after (.restoreTo 0) |>.after (.impose (.domain ⟨0⟩) (.without 1))

/-- Either way the variable becomes `0`. -/
theorem settle_confluent_of_decided :
    (decidedAtOnce.after .settle).engine.domains.table.members ⟨0⟩ = {0} ∧
      (decidedAtOnce.after .settle).engine.domains.table.Alike
        (decidedLater.after .settle).engine.domains.table := by
  have hstart : Reached settledRules false ⟨init false, false⟩ := .refl
  have hfirst := hstart.after (.newEnumerated (-1) 2) (by decide) trivial (by decide +kernel)
  have hvariables : Reached settledRules false twoVariables :=
    hfirst.after (.newInterval 0 2) (by decide) trivial (by decide +kernel)
  have hadd₁ := (hvariables.after (.add countsOne) trivial
    ⟨by decide +kernel, _, _, _, _, rfl, by decide, trivial⟩ (by decide +kernel)).after
    (.add countsSize) trivial
    ⟨by decide +kernel, _, _, _, _, rfl, by decide, trivial⟩ (by decide +kernel)
  have hreached₁ : Reached settledRules false decidedAtOnce :=
    (hadd₁.after .settle trivial trivial (by decide +kernel)).after
      (.impose (.domain ⟨0⟩) (.without 1)) trivial trivial (by decide +kernel)
  have hadd₂ := (hvariables.after (.add countsSize) trivial
    ⟨by decide +kernel, _, _, _, _, rfl, by decide, trivial⟩ (by decide +kernel)).after
    (.add countsOne) trivial
    ⟨by decide +kernel, _, _, _, _, rfl, by decide, trivial⟩ (by decide +kernel)
  have hmarked := (hadd₂.after .settle trivial trivial (by decide +kernel)).after .newCheckpoint
    trivial (fun _ => by decide +kernel) (by decide +kernel)
  have hexplored := (hmarked.after (.impose (.domain ⟨0⟩) (.exactly 1)) trivial trivial
    (by decide +kernel)).after .settle trivial trivial (by decide +kernel)
  have hreached₂ : Reached settledRules false decidedLater :=
    (hexplored.after (.restoreTo 0) trivial trivial (by decide +kernel)).after
      (.impose (.domain ⟨0⟩) (.without 1)) trivial trivial (by decide +kernel)
  have hs₁ : settle decidedAtOnce.engine = .ok (.ok ()) (decidedAtOnce.after .settle).engine :=
    Moment.settle_eq_ok (by decide +kernel) (by decide +kernel)
  have hs₂ : settle decidedLater.engine = .ok (.ok ()) (decidedLater.after .settle).engine :=
    Moment.settle_eq_ok (by decide +kernel) (by decide +kernel)
  obtain ⟨hsame, -⟩ := settle_confluent hreached₁ hreached₂ (by decide +kernel) (by decide +kernel)
    (by decide +kernel) (by decide +kernel) (by decide +kernel)
  exact ⟨by decide +kernel, (hsame _ _ _ _ hs₁ hs₂).2 rfl⟩

/-! ### An overflow in one order -/

/-- A variable that can be the smallest value of all or the next one, and two counters. -/
def leastVariables : Moment AmongPropagator :=
  (Moment.mk (init false) false |>.after (.newListed [-2147483648, -2147483647])).after
    (.newInterval 0 1) |>.after (.newListed [1])

/-- The variable has to be the value next to the smallest. -/
def countsNext : Posting AmongPropagator :=
  posting [.domain ⟨0⟩] (.domain ⟨2⟩) [-2147483647] true

/-- Whether the absolute value of the variable is `5` is counted. -/
def countsFive : Posting AmongPropagator := posting [.abs (.domain ⟨0⟩)] (.domain ⟨1⟩) [5] true

/-- Without the condition that both calls come to an end, propagation is not confluent: one order takes
the smallest value out before its absolute value is asked for, the other asks first. -/
theorem not_settle_confluent :
    ¬ ∀ m₁ m₂ : Moment AmongPropagator, Reached settledRules false m₁ →
      Reached settledRules false m₂ → AllClear m₁.engine → m₁.engine.contradiction = none →
      m₂.engine.contradiction = none → constraints m₁.engine = constraints m₂.engine →
      m₁.engine.domains.table.Alike m₂.engine.domains.table →
      ((∃ e, settle m₁.engine = .ok (.ok ()) e) ↔ ∃ e, settle m₂.engine = .ok (.ok ()) e) := by
  intro hall
  have hstart : Reached settledRules false ⟨init false, false⟩ := .refl
  have hvariables : Reached settledRules false leastVariables :=
    ((hstart.after (.newListed [-2147483648, -2147483647]) (by decide) trivial
      (by decide +kernel)).after (.newInterval 0 1) (by decide) trivial (by decide +kernel)).after
      (.newListed [1]) (by decide) trivial (by decide +kernel)
  have hreached₁ := (hvariables.after (.add countsNext) trivial
    ⟨by decide +kernel, _, _, _, _, rfl, by decide, trivial⟩ (by decide +kernel)).after
    (.add countsFive) trivial
    ⟨by decide +kernel, _, _, _, _, rfl, by decide, trivial⟩ (by decide +kernel)
  have hreached₂ := (hvariables.after (.add countsFive) trivial
    ⟨by decide +kernel, _, _, _, _, rfl, by decide, trivial⟩ (by decide +kernel)).after
    (.add countsNext) trivial
    ⟨by decide +kernel, _, _, _, _, rfl, by decide, trivial⟩ (by decide +kernel)
  have hs₁ := Moment.settle_eq_ok
    (m := (leastVariables.after (.add countsNext)).after (.add countsFive))
    (by decide +kernel) (by decide +kernel)
  obtain ⟨e, hs₂⟩ := (hall _ _ hreached₁ hreached₂ (by decide +kernel) (by decide +kernel)
    (by decide +kernel) (by decide +kernel) (by decide +kernel)).1 ⟨_, hs₁⟩
  have hplays : ((leastVariables.after (.add countsFive)).after (.add countsNext)).plays
      .settle = true := by
    unfold Moment.plays
    rw [show Move.play .settle _ = _ from bind_of_ok hs₂]
    rfl
  exact absurd hplays (by decide +kernel)

end Narrowing.AmongPropagator
