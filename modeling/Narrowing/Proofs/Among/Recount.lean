import Narrowing.Proofs.Among.Attention
import Narrowing.Proofs.Propagator.Success

/-!
What the cells of an Among propagator say at a fixed point. When propagators hear of everything and
checkpoints are opened right after fixed points only, they say what a recount would. So a fixed point
in which everything is fixed is a solution.

The one exception are intervals seen through a view. A lower bound may be without effect on such a
variable, and a fixed counter that forces it not to count then strikes it off all the same. The rules
below keep clear of it, for the propagators that are looked at, by `Among.Unblocked`.
-/

namespace Narrowing.AmongPropagator

open Narrowing.Engine

variable {exact : PropagatorId → Prop} {m : Moment AmongPropagator} {e e' : Engine AmongPropagator}
  {j : PropagatorId} {p : AmongPropagator} {t : Table DomainId Domain} {σ : DomainId → Int} {i : Nat}

/-- At a fixed point nothing is awaited any more. -/
theorem Sane.held_of_settle (h : Sane exact e) {u : Unit}
    (hs : Engine.settle e = .ok (.ok u) e') (hp : e'.propagators.get? j = some p) :
    Frame exact e' ∧ Held (exact j) e'.domains.table e'.cells.contents p := by
  have hidle := idle_of_settle hs
  have hlive : Live exact e' := by
    cases hc : e.contradiction with
    | some c =>
        rw [settle_of_contradiction hc] at hs
        exact nomatch (EStateM.Result.ok.inj hs).1
    | none =>
        have hstart : Since exact e e := ⟨h.live hc, rfl, fun σ hσ => hσ.1⟩
        rcases (closed_since e).settle_eq_ok hstart hc hs with ⟨-, hsince, -⟩ | ⟨c, broken, hr, -⟩
        · exact hsince.toLive
        · exact nomatch hr
  have hinformed : Informed exact e' j p :=
    (hlive.current j p hp).resolve_left fun hf => hf.asks.of_empty hidle.requests
  exact ⟨hlive.toFrame, hinformed.held (hlive.placed j p hp) hidle.requests fun _ => hidle⟩

/-- A caller who adds Among constraints at the root, over scopes that can be counted, and opens
checkpoints right after fixed points only. No place of the propagators in `exact` can be struck off
without effect. -/
def unblockedRules (exact : PropagatorId → Prop) : Rules AmongPropagator :=
  amongRules True fun j c backPropagates t => exact j → backPropagates = true → c.Unblocked t

/-- In a run in which they hear of everything, these propagators have exact cells. -/
theorem Reached.sane_of_unblocked (h : Reached (unblockedRules exact) false m) :
    Sane exact m.engine :=
  sane_of_reached (fun _ _ _ _ hc => hc) (fun _ => rfl) (fun _ => trivial) h

/-! ### Everything fixed -/

theorem current_of_fixed {x : Variable} (h : t.members x.base = {σ x.base}) :
    x.current t = {x.eval σ} := by
  rw [Variable.current, h, Finset.image_singleton, Variable.eval_eq_image]

section Fixed

variable (hfixed : ∀ x ∈ p.counter :: p.scope, t.members x.base = {σ x.base})
include hfixed

theorem eval_counter_mem_of_fixed : p.counter.eval σ ∈ p.counter.current t := by
  rw [current_of_fixed (hfixed p.counter List.mem_cons_self)]
  exact Finset.mem_singleton_self _

theorem current_place_of_fixed (hi : i < p.scope.length) :
    (p.place i).current t = {(p.place i).eval σ} :=
  current_of_fixed (hfixed _ (List.mem_cons_of_mem _ (Among.place_mem hi)))

theorem sure_iff_of_fixed (hi : i < p.scope.length) :
    p.Sure t (p.place i) ↔ (p.place i).eval σ ∈ p.tracked := by
  rw [Among.Sure, current_place_of_fixed hfixed hi]
  simp only [Finset.mem_singleton, forall_eq]

theorem decided_of_fixed (hi : i < p.scope.length) : p.Decided t (p.place i) := by
  rw [Among.Decided, sure_iff_of_fixed hfixed hi, Among.Never, current_place_of_fixed hfixed hi]
  simp only [Finset.mem_singleton, forall_eq]
  exact em _

theorem undecided_of_fixed : p.undecided t = ∅ :=
  Finset.filter_false_of_mem fun _ hi hnot =>
    hnot (decided_of_fixed hfixed (Finset.mem_range.1 hi))

theorem sures_of_fixed : p.sures t = (p.tally σ (Finset.range p.scope.length)).card := by
  rw [Among.sures, Among.tally]
  exact congrArg Finset.card (Finset.filter_congr fun _ hi =>
    sure_iff_of_fixed hfixed (Finset.mem_range.1 hi))

/-- A counter between the two counts of a recount has just the value that it should have. -/
theorem satisfied_of_inBounds
    (h : (p.sures t : Int) ≤ p.counter.eval σ ∧ p.counter.eval σ ≤ p.sures t + (p.undecided t).card) :
    p.Satisfied σ := by
  rw [undecided_of_fixed hfixed, sures_of_fixed hfixed, Finset.card_empty] at h
  exact Among.satisfied_iff.2 (by omega)

end Fixed

/-- **Nothing but solutions.** Where scopes can be counted, the constraint of a propagator is satisfied
at a fixed point at which its variables are all fixed, if no place of it can be struck off without
effect. -/
theorem satisfied_of_fixed (h : Reached (unblockedRules (· = j)) false m)
    (hs : settle m.engine = .ok (.ok ()) e') (hp : e'.propagators.get? j = some p)
    (hfixed : ∀ x ∈ p.counter :: p.scope, e'.domains.table.members x.base = {σ x.base}) :
    p.Satisfied σ := by
  obtain ⟨-, hheld⟩ := (Reached.sane_of_unblocked h).held_of_settle hs hp
  obtain ⟨hmay, hsurely⟩ := (hheld.tracks rfl).exact
  have hcurrent := current_of_fixed (hfixed p.counter List.mem_cons_self)
  have hbounds := hheld.inBounds rfl _ (eval_counter_mem_of_fixed hfixed) (Or.inr hcurrent)
  rw [hmay, hsurely] at hbounds
  exact satisfied_of_inBounds hfixed hbounds

/-- A decision about the counter fixes everything, and the constraint is satisfied then. -/
theorem satisfied_of_fixed_countedTwice :
    Among.Satisfied ⟨[.domain ⟨0⟩, .abs (.domain ⟨0⟩)], .domain ⟨1⟩, [1]⟩
      fun id => if id.index = 0 then 1 else 2 := by
  have hunblocked : Among.Unblocked ⟨[.domain ⟨0⟩, .abs (.domain ⟨0⟩)], .domain ⟨1⟩,
      Ascending.ofList [1]⟩ twoVariables.engine.domains.table := by
    intro x hx d hd k _ hgap
    have hfaithful : ∀ x ∈ [Variable.domain ⟨0⟩, .abs (.domain ⟨0⟩)],
        Among.Faithful twoVariables.engine.domains.table x := by decide +kernel
    exact absurd hgap (Among.not_keepsGap_of_faithful (hfaithful x hx) hd)
  have hp : (countedTwice.after .settle).engine.propagators.get? ⟨0⟩ =
      some ⟨⟨[.domain ⟨0⟩, .abs (.domain ⟨0⟩)], .domain ⟨1⟩, [1]⟩, ⟨0⟩, ⟨0⟩, true⟩ := by
    decide +kernel
  exact satisfied_of_fixed (reached_countedTwice fun _ _ => hunblocked) settle_countedTwice hp
    (by decide +kernel)

/-- The condition is needed. Here the absolute value of a variable from `-3` to `3` is not to be `0`
or `1`, which takes no value from the interval; then the caller decides that the variable is `0`. -/
example :
    let c : Among := ⟨[.abs (.domain ⟨0⟩)], .domain ⟨1⟩, [0, 1]⟩
    let m := ((Moment.mk (init false) false |>.after (.newInterval (-3) 3)).after
      (.newInterval 0 0)).after (.add (posting c.scope c.counter c.tracked true))
    let m := (m.after .settle).after (.impose (.domain ⟨0⟩) (.exactly 0)) |>.after .settle
    m.settled = true ∧ (∀ id ∈ [⟨0⟩, ⟨1⟩], m.engine.domains.table.members id = {0}) ∧
      ¬ c.Satisfied fun _ => 0 := by
  decide +kernel

/-! ### Recounts -/

/-- The listed places and the number that the cells of a propagator hold. -/
theorem exists_contents {s : Cells} (hwf : s.WellFormed)
    (hsure : Key.index p.sure < s.integers.size) (hpossible : Key.index p.possible < s.sets.size) :
    p.sureCount s = .ok (s.contents.value p.sure) ∧ ∃ places, p.possiblePlaces s = .ok places ∧
      places.Nodup ∧ places.toFinset = s.contents.places p.possible := by
  obtain ⟨l, hl⟩ := Cells.exists_members hpossible
  obtain ⟨hnodup, hmem⟩ := Cells.members_eq_ok hl hwf
  refine ⟨Cells.read_of_lt hsure, l.mergeSort, ?_, (List.mergeSort_perm l _).nodup_iff.2 hnodup, ?_⟩
  · rw [possiblePlaces, hl]
    rfl
  · ext i
    rw [List.mem_toFinset, List.mem_mergeSort, hmem]

/-- **The cells agree with a recount.** Where scopes can be counted, the places that may count are at a
fixed point those with a tracked and an untracked value, the number of those that are sure is the number
of places with tracked values only, and the counter is between the counts that this allows for. -/
theorem recount_of_settle (h : Reached settledRules false m)
    (hs : settle m.engine = .ok (.ok ()) e') (hp : e'.propagators.get? j = some p)
    (hclear : p.Clear e'.domains.table) :
    ∃ places count, p.possiblePlaces e'.cells = .ok places ∧ p.sureCount e'.cells = .ok count ∧
      places.Nodup ∧
      (∀ i, i ∈ places ↔ i < p.scope.length ∧
        (∃ v ∈ (p.place i).current e'.domains.table, v ∈ p.tracked) ∧
        ∃ v ∈ (p.place i).current e'.domains.table, v ∉ p.tracked) ∧
      count = ((Finset.range p.scope.length).filter fun i =>
        ∀ v ∈ (p.place i).current e'.domains.table, v ∈ p.tracked).card ∧
      (∀ v ∈ p.counter.current e'.domains.table, count ≤ v ∧ v ≤ count + places.length) ∧
      (∀ v, p.counter.lower e'.domains = .ok v → count ≤ v) ∧
      ∀ v, p.counter.upper e'.domains = .ok v → v ≤ count + places.length := by
  obtain ⟨hframe, hquiet⟩ := quiet_of_settle h hs hp (.of_clear hclear)
  have hplaced := hframe.placed j p hp
  have hlt := Table.lt_size_of_get? hp
  have hanswers := p.counter.describes_answer hframe.consistent.workspace.table
  obtain ⟨hmay, hsurely⟩ := (hquiet.tracks.mono fun _ _ hstale => nomatch hstale.1).exact
  have hbounds := hquiet.resting.inBounds
  obtain ⟨hsure, places, hpossible, hnodup, hplaces⟩ :=
    exists_contents (p := p) hframe.consistent.workspace.cells
      (hplaced.sure_eq ▸ hlt.trans_eq hframe.size_eq.1.symm)
      (hplaced.possible_eq ▸ hlt.trans_eq hframe.size_eq.2.symm)
  have hplaces : places.toFinset = p.may e'.toWorkspace := hplaces
  have hlength : places.length = (p.may e'.toWorkspace).card := by
    rw [← hplaces, List.toFinset_card_of_nodup hnodup]
  rw [← hlength] at hbounds
  refine ⟨places, p.surely e'.toWorkspace, hpossible, hsure, hnodup, fun i => ?_, hsurely, hbounds,
    fun v hv => (hbounds v (hanswers.lower hv).1).1, fun v hv => (hbounds v (hanswers.upper hv).1).2⟩
  rw [← List.mem_toFinset, hplaces, hmay, Among.undecided, Finset.mem_filter, Finset.mem_range,
    Among.Decided, Among.Sure, Among.Never]
  push Not
  rw [and_comm (a := ∃ v ∈ _, v ∉ p.tracked)]

/-- Once both places are sure none is left that may count. -/
theorem recount_of_settle_countedTwice :
    ∃ places count, AmongPropagator.possiblePlaces
        ⟨⟨[.domain ⟨0⟩, .abs (.domain ⟨0⟩)], .domain ⟨1⟩, [1]⟩, ⟨0⟩, ⟨0⟩, true⟩
        (countedTwice.after .settle).engine.cells = .ok places ∧
      AmongPropagator.sureCount
        ⟨⟨[.domain ⟨0⟩, .abs (.domain ⟨0⟩)], .domain ⟨1⟩, [1]⟩, ⟨0⟩, ⟨0⟩, true⟩
        (countedTwice.after .settle).engine.cells = .ok count ∧ count = 2 := by
  have hp : (countedTwice.after .settle).engine.propagators.get? ⟨0⟩ =
      some ⟨⟨[.domain ⟨0⟩, .abs (.domain ⟨0⟩)], .domain ⟨1⟩, [1]⟩, ⟨0⟩, ⟨0⟩, true⟩ := by
    decide +kernel
  obtain ⟨places, count, hplaces, hcount, -, -, hcard, -⟩ :=
    recount_of_settle (reached_countedTwice trivial) settle_countedTwice hp (by decide +kernel)
  refine ⟨places, count, hplaces, hcount, hcard.trans ?_⟩
  decide +kernel

end Narrowing.AmongPropagator
