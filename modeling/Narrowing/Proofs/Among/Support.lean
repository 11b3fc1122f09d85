import Narrowing.Proofs.Among.Attention

/-!
Completeness of propagation. At a fixed point a propagator with back-propagation over pairwise
distinct domains leaves no value without a reason: every value of a domain that can have holes, and
both bounds of an interval, occur in an assignment of current values that satisfies the constraint.
For a value of a variable that may or may not count, the counter has to leave room for the other
variables to make up the count; where it does not, the propagator has trimmed the variable.
-/

namespace Narrowing

/-- A value at a bound, or any value of a domain that can have holes, is not within an interval. -/
theorem Variable.Trimmed.of_bound {x : Variable} {t : Table DomainId Domain} {T : Int → Prop}
    {d : Domain} {v : Int} (h : x.Trimmed t T) (hx : x = .domain x.base)
    (hd : t.get? x.base = some d) (hv : v ∈ d.members)
    (hbound : d.enumerated = true ∨ v = d.lower ∨ v = d.upper) : T v := by
  have hcurrent : x.current t = d.members := by
    rw [hx]
    exact Finset.image_id.trans (Table.members_of_get? hd)
  refine (h v (hcurrent ▸ hv)).resolve_right ?_
  rintro ⟨hkind, ⟨a, ha, hav⟩, b, hb, hvb⟩
  rw [hcurrent] at ha hb
  rw [Table.enumerated_of_get? hd] at hkind
  have := Domain.lower_le ha
  have := Domain.le_upper hb
  rcases hbound with he | rfl | rfl
  · exact nomatch he.symm.trans hkind
  · omega
  · omega

namespace Among

variable {c : Among} {t : Table DomainId Domain} {f : Nat → Int} {m : Int} {i : Nat}

/-- The counter has the value `m` and the variable at place `i` the value `f i`; all others have
their least value. -/
def assignment (c : Among) (t : Table DomainId Domain) (m : Int) (f : Nat → Int) (id : DomainId) :
    Int :=
  if id = c.counter.base then m
  else match (List.range c.scope.length).find? fun i => (c.place i).base = id with
    | some i => f i
    | none => (t.get? id).elim 0 Domain.lower

section Plain

variable (h : c.Plain)
include h

theorem eval_assignment_counter : c.counter.eval (c.assignment t m f) = m := by
  rw [h.counter_eq, Variable.eval, assignment, if_pos rfl]

theorem eval_assignment_place (hi : i < c.scope.length) :
    (c.place i).eval (c.assignment t m f) = f i := by
  rw [h.place_eq hi, Variable.eval, assignment, if_neg (h.place_ne_counter hi)]
  cases hfind : (List.range c.scope.length).find? fun j => (c.place j).base = (c.place i).base with
  | some j =>
      have hj := List.mem_range.1 (List.mem_of_find?_eq_some hfind)
      have hsame := List.find?_some hfind
      rw [h.place_inj hj hi (of_decide_eq_true hsame)]
  | none =>
      have hnot := List.find?_eq_none.1 hfind i (List.mem_range.2 hi)
      exact absurd (decide_eq_true rfl) hnot

/-- Values of distinct domains can be chosen independently. -/
theorem admits_assignment (hwf : t.WellFormed) (hm : m ∈ c.counter.current t)
    (hf : ∀ i < c.scope.length, f i ∈ (c.place i).current t) : t.Admits (c.assignment t m f) := by
  have hmem : ∀ {x : Variable} {v : Int} {d : Domain}, x = .domain x.base →
      t.get? x.base = some d → v ∈ x.current t → v ∈ d.members := by
    intro x v d hx hd hv
    rw [hx] at hv
    rw [← Table.members_of_get? hd]
    exact Finset.image_id.subset hv
  intro id d hd
  by_cases hid : id = c.counter.base
  · subst hid
    rw [assignment, if_pos rfl]
    exact hmem h.counter_eq hd hm
  rw [assignment, if_neg hid]
  cases hfind : (List.range c.scope.length).find? fun j => (c.place j).base = id with
  | some j =>
      have hj := List.mem_range.1 (List.mem_of_find?_eq_some hfind)
      have hsame := List.find?_some hfind
      obtain rfl : (c.place j).base = id := of_decide_eq_true hsame
      exact hmem (h.place_eq hj) hd (hf j hj)
  | none =>
      simp only [hd, Option.elim_some]
      exact (hwf id d hd).lower_mem

/-- If the counter can be the number of the places that are sure and of those in `S`, values can be
chosen to satisfy the constraint, those of the undecided places such that those in `S` count. -/
theorem exists_satisfying (hwf : t.WellFormed) {S : Finset Nat}
    (hS : S ⊆ c.undecided t) (hm : (c.sures t : Int) + S.card ∈ c.counter.current t)
    {D : Nat → Int → Prop} (hD : ∀ i < c.scope.length, ∃ u ∈ (c.place i).current t, D i u ∧
      (i ∈ c.undecided t → (u ∈ c.tracked ↔ i ∈ S))) :
    ∃ σ, t.Admits σ ∧ c.Satisfied σ ∧ c.counter.eval σ = c.sures t + S.card ∧
      ∀ i < c.scope.length, D i ((c.place i).eval σ) := by
  choose! f hf hDf hcounts using hD
  refine ⟨c.assignment t (c.sures t + S.card) f, admits_assignment h hwf hm hf, ?_,
    eval_assignment_counter h, fun i hi => by rw [eval_assignment_place h hi]; exact hDf i hi⟩
  have htally : c.tally (c.assignment t (c.sures t + S.card) f) (Finset.range c.scope.length) =
      ((Finset.range c.scope.length).filter fun i => c.Sure t (c.place i)) ∪ S := by
    ext i
    simp only [tally, Finset.mem_filter, Finset.mem_union, Finset.mem_range]
    constructor
    · rintro ⟨hi, hin⟩
      rw [eval_assignment_place h hi] at hin
      by_cases hU : i ∈ c.undecided t
      · exact Or.inr ((hcounts i hi hU).1 hin)
      · have hdecided : c.Decided t (c.place i) := by
          by_contra hnot
          exact hU (Finset.mem_filter.2 ⟨Finset.mem_range.2 hi, hnot⟩)
        exact Or.inl ⟨hi, hdecided.resolve_right fun hn => hn _ (hf i hi) hin⟩
    · rintro (⟨hi, hsure⟩ | hi)
      · exact ⟨hi, by rw [eval_assignment_place h hi]; exact hsure _ (hf i hi)⟩
      · have hlt := Finset.mem_range.1 (Finset.mem_filter.1 (hS hi)).1
        exact ⟨hlt, by rw [eval_assignment_place h hlt]; exact (hcounts i hlt (hS hi)).2 hi⟩
  have hdisjoint : Disjoint ((Finset.range c.scope.length).filter fun i => c.Sure t (c.place i))
      S := by
    rw [Finset.disjoint_left]
    intro i hi hiS
    exact (Finset.mem_filter.1 (hS hiS)).2 (Or.inl (Finset.mem_filter.1 hi).2)
  rw [satisfied_iff, eval_assignment_counter h, htally, Finset.card_union_of_disjoint hdisjoint,
    sures]
  push_cast
  rfl

end Plain

/-- An undecided place can count, or not. -/
theorem exists_mem_iff_of_undecided (hi : i ∈ c.undecided t) (S : Finset Nat) :
    ∃ u ∈ (c.place i).current t, (u ∈ c.tracked ↔ i ∈ S) := by
  have hnot := (Finset.mem_filter.1 hi).2
  by_cases hS : i ∈ S
  · have hnever : ¬ c.Never t (c.place i) := fun hn => hnot (Or.inr hn)
    unfold Never at hnever
    push Not at hnever
    obtain ⟨u, hu, hin⟩ := hnever
    exact ⟨u, hu, iff_of_true hin hS⟩
  · have hsure : ¬ c.Sure t (c.place i) := fun hs => hnot (Or.inl hs)
    unfold Sure at hsure
    push Not at hsure
    obtain ⟨u, hu, hout⟩ := hsure
    exact ⟨u, hu, iff_of_false hout hS⟩

theorem exists_choice (hwf : t.WellFormed) (hg : c.Grounded t) (S : Finset Nat)
    (hi : i < c.scope.length) :
    ∃ u ∈ (c.place i).current t, i ∈ c.undecided t → (u ∈ c.tracked ↔ i ∈ S) := by
  by_cases hU : i ∈ c.undecided t
  · obtain ⟨u, hu, hiff⟩ := exists_mem_iff_of_undecided hU S
    exact ⟨u, hu, fun _ => hiff⟩
  · obtain ⟨u, hu⟩ := current_nonempty hwf (hg.place_lt i hi)
    exact ⟨u, hu, fun h => absurd h hU⟩

end Among

namespace AmongPropagator

open Narrowing.Engine

variable {p : AmongPropagator} {t : Table DomainId Domain} {x : Variable} {d : Domain} {v : Int}
  {k : Nat}

section AtRest

variable (hr : p.AtRest t) (hwf : t.WellFormed) (hg : p.Grounded t)
include hr hwf hg

/-- The counter leaves room for a choice about one place, if the place was trimmed where it does
not. -/
theorem AtRest.exists_subset (hback : p.backPropagates = true)
    (hx : p.place k = .domain (p.place k).base) (hd : t.get? (p.place k).base = some d)
    (hv : v ∈ d.members)
    (hbound : d.enumerated = true ∨ v = d.lower ∨ v = d.upper) :
    ∃ S ⊆ p.undecided t, (p.sures t : Int) + S.card ∈ p.counter.current t ∧
      (k ∈ p.undecided t → (v ∈ p.tracked ↔ k ∈ S)) := by
  have hcount : ∀ {m : Int}, m ∈ p.counter.current t → ∃ s : Nat, m = p.sures t + s ∧
      s ≤ (p.undecided t).card := by
    intro m hm
    have := hr.inBounds m hm
    exact ⟨(m - p.sures t).toNat, by omega, by omega⟩
  by_cases hk : k ∈ p.undecided t
  swap
  · obtain ⟨m, hm⟩ := Among.current_nonempty hwf hg.counter_lt
    obtain ⟨s, rfl, hs⟩ := hcount hm
    obtain ⟨S, hS, rfl⟩ := Finset.exists_subset_card_eq hs
    exact ⟨S, hS, hm, fun h => absurd h hk⟩
  have herase := Finset.card_erase_add_one hk
  by_cases hin : v ∈ p.tracked
  · have hnot : ¬ p.CounterIs t (p.sures t) := fun hc =>
      (hr.excluded hback hc k hk).of_bound hx hd hv hbound hin
    unfold Among.CounterIs at hnot
    push Not at hnot
    obtain ⟨m, hm, hne⟩ := hnot
    obtain ⟨s, rfl, hs⟩ := hcount hm
    obtain ⟨S, hS, hcard⟩ := Finset.exists_subset_card_eq
      (show s - 1 ≤ ((p.undecided t).erase k).card by omega)
    have hnotin : k ∉ S := fun hmem => Finset.notMem_erase k _ (hS hmem)
    refine ⟨insert k S, Finset.insert_subset hk (hS.trans (Finset.erase_subset _ _)), ?_,
      fun _ => iff_of_true hin (Finset.mem_insert_self k S)⟩
    rw [Finset.card_insert_of_notMem hnotin, hcard, Nat.sub_add_cancel (by omega)]
    exact hm
  · have hnot : ¬ p.CounterIs t (p.sures t + (p.undecided t).card) := fun hc =>
      hin ((hr.included hback hc k hk).of_bound hx hd hv hbound)
    unfold Among.CounterIs at hnot
    push Not at hnot
    obtain ⟨m, hm, hne⟩ := hnot
    obtain ⟨s, rfl, hs⟩ := hcount hm
    obtain ⟨S, hS, rfl⟩ := Finset.exists_subset_card_eq
      (show s ≤ ((p.undecided t).erase k).card by omega)
    exact ⟨S, hS.trans (Finset.erase_subset _ _), hm,
      fun _ => iff_of_false hin fun hmem => Finset.notMem_erase k _ (hS hmem)⟩

/-- A propagator at rest leaves no value without a reason. -/
theorem AtRest.exists_solution (hback : p.backPropagates = true) (hplain : p.Plain)
    (hx : x ∈ p.counter :: p.scope) (hd : t.get? x.base = some d) (hv : v ∈ d.members)
    (hbound : d.enumerated = true ∨ v = d.lower ∨ v = d.upper) :
    ∃ σ, t.Admits σ ∧ σ x.base = v ∧ p.Satisfied σ := by
  rcases List.mem_cons.1 hx with rfl | hx
  · have hmem : v ∈ p.counter.current t := by
      rw [hplain.counter_eq]
      exact Finset.image_id.symm.subset (Table.members_of_get? hd ▸ hv)
    have hbounds := hr.inBounds v hmem
    obtain ⟨S, hS, hcard⟩ := Finset.exists_subset_card_eq
      (show (v - p.sures t).toNat ≤ (p.undecided t).card by omega)
    have heq : (p.sures t : Int) + S.card = v := by omega
    obtain ⟨σ, hσ, hsat, hcounter, -⟩ := Among.exists_satisfying (D := fun _ _ => True) hplain hwf
      hS (heq ▸ hmem) fun i hi => by
        obtain ⟨u, hu, hiff⟩ := Among.exists_choice hwf hg S hi
        exact ⟨u, hu, trivial, hiff⟩
    rw [hplain.counter_eq] at hcounter
    exact ⟨σ, hσ, hcounter.trans heq, hsat⟩
  · obtain ⟨k, hk, rfl⟩ := List.getElem_of_mem hx
    rw [← Among.place_eq_getElem hk] at hd ⊢
    have hmem : v ∈ (p.place k).current t := by
      rw [hplain.place_eq hk]
      exact Finset.image_id.symm.subset (Table.members_of_get? hd ▸ hv)
    obtain ⟨S, hS, hm, hiff⟩ :=
      AtRest.exists_subset hr hwf hg hback (hplain.place_eq hk) hd hv hbound
    obtain ⟨σ, hσ, hsat, -, hvalue⟩ := Among.exists_satisfying (D := fun i u => i = k → u = v)
      hplain hwf hS hm fun i hi => by
        by_cases hik : i = k
        · subst hik
          exact ⟨v, hmem, fun _ => rfl, hiff⟩
        · obtain ⟨u, hu, hiff⟩ := Among.exists_choice hwf hg S hi
          exact ⟨u, hu, fun h => absurd h hik, hiff⟩
    have heval := hvalue k hk rfl
    rw [hplain.place_eq hk] at heval
    exact ⟨σ, hσ, heval, hsat⟩

end AtRest

/-- Where scopes can be counted, propagation that comes to a fixed point leaves no value without a
reason: every value of a domain that can have holes, and both bounds of an interval, occur in an
assignment of current values that satisfies the constraint. -/
theorem exists_solution_of_settle {skipsOwn : Bool} {m : Moment AmongPropagator}
    {e' : Engine AmongPropagator} {j : PropagatorId} (h : Reached settledRules skipsOwn m)
    (hs : settle m.engine = .ok (.ok ()) e') (hp : e'.propagators.get? j = some p)
    (hback : p.backPropagates = true) (hplain : p.Plain) (hx : x ∈ p.counter :: p.scope)
    (hd : e'.domains.table.get? x.base = some d) (hv : v ∈ d.members)
    (hbound : d.enumerated = true ∨ v = d.lower ∨ v = d.upper) :
    ∃ σ, e'.domains.table.Admits σ ∧ σ x.base = v ∧ p.Satisfied σ := by
  obtain ⟨hframe, hquiet⟩ := quiet_of_settle h hs hp (.of_clear (hplain.clear _))
  have hwf := hframe.consistent.workspace.table
  have hg := (hframe.placed j p hp).grounded
  have hr := hquiet.atRest hwf hg fun _ i hi => hplain.place_ne_counter hi
  exact hr.exists_solution hwf hg hback hplain hx hd hv hbound

/-- The counter counts how often the variable is `1`. -/
def counted : Moment AmongPropagator :=
  twoVariables.after (.add (posting [.domain ⟨0⟩] (.domain ⟨1⟩) [1] true))

/-- After propagation the variable can be `2`, with a counter of `0`. -/
theorem exists_solution_of_settle_counted :
    ∃ σ, (counted.after .settle).engine.domains.table.Admits σ ∧ σ ⟨0⟩ = 2 ∧
      Among.Satisfied ⟨[.domain ⟨0⟩], .domain ⟨1⟩, [1]⟩ σ := by
  have hstart : Reached settledRules false ⟨init false, false⟩ := .refl
  have hfirst := hstart.after (.newEnumerated (-1) 2) (by decide) trivial (by decide +kernel)
  have hvariables : Reached settledRules false twoVariables :=
    hfirst.after (.newInterval 0 2) (by decide) trivial (by decide +kernel)
  have hreached : Reached settledRules false counted := hvariables.after
    (.add (posting [.domain ⟨0⟩] (.domain ⟨1⟩) [1] true)) trivial
    ⟨by decide +kernel, _, _, _, _, rfl, by decide, trivial⟩ (by decide +kernel)
  have hsettle : settle counted.engine = .ok (.ok ()) (counted.after .settle).engine :=
    Moment.settle_eq_ok (by decide +kernel) (by decide +kernel)
  have hp : (counted.after .settle).engine.propagators.get? ⟨0⟩ =
      some ⟨⟨[.domain ⟨0⟩], .domain ⟨1⟩, [1]⟩, ⟨0⟩, ⟨0⟩, true⟩ := by decide +kernel
  obtain ⟨d, hd⟩ := Option.isSome_iff_exists.1
    (show ((counted.after .settle).engine.domains.table.get? ⟨0⟩).isSome = true by decide +kernel)
  have hv : (2 : Int) ∈ (counted.after .settle).engine.domains.table.members ⟨0⟩ := by
    decide +kernel
  have hkind : (counted.after .settle).engine.domains.table.enumerated ⟨0⟩ = true := by
    decide +kernel
  rw [Table.members_of_get? hd] at hv
  rw [Table.enumerated_of_get? hd] at hkind
  have hx : Variable.domain ⟨0⟩ ∈ [Variable.domain ⟨1⟩, .domain ⟨0⟩] := by decide
  exact exists_solution_of_settle hreached hsettle hp rfl (by decide) hx hd hv (Or.inl hkind)

end AmongPropagator

end Narrowing
