import Narrowing.Proofs.Among.Pass

/-!
The Among propagator on events. A place that was awaited is looked at, and from then on it is either
undecided or counted, so it need not be awaited any more. Every event of a place calls for a pass,
and so does every event of the counter, except that a plain counter ignores the loss of a value
between its bounds.
-/

namespace Narrowing

namespace Variable

/-- Some event of a domain is some event of every variable over it. -/
theorem perceived_ne_empty (x : Variable) {events : EventSet} (h : events ≠ ∅) :
    x.perceived events ≠ ∅ := by
  induction x with
  | domain id => exact h
  | abs x ih =>
      rw [perceived, if_neg fun he => ih (EventSet.isEmpty_iff.1 he)]
      decide

theorem perceived_abs (x : Variable) {events : EventSet} (h : events ≠ ∅) :
    (abs x).perceived events = .all :=
  if_neg fun he => x.perceived_ne_empty h (EventSet.isEmpty_iff.1 he)

end Variable

theorem EventSet.inter_all (s : EventSet) : s ∩ .all = s := by
  obtain ⟨a, b, c, d⟩ := s
  revert a b c d
  decide

namespace AmongPropagator

open Narrowing.Action

variable {p : AmongPropagator} {me : PropagatorId} {exact : Prop} {A : Nat → Prop}
  {w₀ w : Workspace Remark} {i : Nat} {events : EventSet}

/-- A place that was looked at need not be awaited. -/
theorem Upheld.forget (h : Upheld p me exact (fun j => A j ∨ j = i) w₀ w)
    (hi : i ∈ p.may w → ¬ p.Decided w.domains.table (p.place i)) : Upheld p me exact A w₀ w := by
  refine ⟨h.toSound, h.accounts, h.counts, fun he => (h.tracks he).forget (fun j _ hj hne => ?_) hi⟩
  rcases hj with (hj | hj) | hj
  · exact Or.inl hj
  · exact absurd hj hne
  · exact Or.inr hj

section Ready

variable (hready : Ready p exact w₀)
include hready

/-- A place is looked at. -/
theorem yields_reconsider (h : Knows p exact (fun j => A j ∨ j = i) w₀)
    (hi : i < p.scope.length) :
    Yields me (p.reconsider i (p.place i)) w₀ (fun _ w' => Upheld p me exact A w₀ w')
      (Refuted p me w₀) := by
  have hwf := hready.wellFormed.table
  have hupheld : Upheld p me exact (fun j => A j ∨ j = i) w₀ w₀ :=
    ⟨Sound.refl hready.wellFormed, h⟩
  have hcounter : ∀ {w}, Upheld p me exact A w₀ w →
      p.counter.base.index < w.domains.table.size :=
    fun hw => hready.grounded.counter_lt.trans_eq hw.progress.narrows.size_eq.symm
  unfold reconsider
  refine yields_bind (yields_onCells fun here hhere => ?_)
  obtain ⟨set, hset, hhere⟩ := Checked.bind_eq_ok hhere
  obtain ⟨hset', hplaces⟩ := Cells.set_eq_ok hset hready.wellFormed.cells
  have hmem : here = true ↔ i ∈ p.may w₀ := by
    rw [← Except.ok.inj hhere, SwapSet.contains_iff hset', hplaces]
    rfl
  split
  · next hin =>
    have hin := hmem.1 hin
    refine yields_bind (yields_onDomains fun st hst => ?_)
    rcases Among.standing_eq_ok hwf hready.sorted hst with
      ⟨rfl, hsure⟩ | ⟨rfl, hnotsure, hnotnever⟩ | ⟨rfl, hnotsure, hnever⟩
    · refine (yields_settlePlace hready hupheld hin hi hsure).bind fun _ w hw => ?_
      obtain ⟨hw, -, hmay, -⟩ := hw
      have hw := hw.forget fun hmem => absurd (hmay ▸ hmem) (Finset.notMem_erase i _)
      refine yields_bind (yields_onCells fun bounds hbounds => ?_)
      obtain ⟨least, most⟩ := bounds
      obtain ⟨rfl, -⟩ := countBounds_eq_ok (hw.toSound.ready hready).wellFormed.cells hw.counts
        hready.countable hbounds
      refine yields_bind (yields_remark ?_)
      refine (yields_force_of hready (hw.remark _) (hcounter (hw.remark _))
        fun σ hσ hsat => ?_).imp fun _ w' hw' => hw'.upheld
      have := hw.accounts σ hσ hsat
      change p.surely w ≤ _
      omega
    · exact yields_pure (hupheld.forget fun _ hd => hd.elim hnotsure hnotnever)
    · refine (yields_erase hready hupheld hi
        (fun σ hσ _ => hnever _ (Among.eval_mem_current hσ (hready.grounded.place_lt i hi)))
        fun _ => hnever).bind fun _ w hw => ?_
      obtain ⟨hw, -, hmay, -⟩ := hw
      have hw := hw.forget fun hmem => absurd (hmay ▸ hmem) (Finset.notMem_erase i _)
      refine yields_bind (yields_onCells fun bounds hbounds => ?_)
      obtain ⟨least, most⟩ := bounds
      obtain ⟨-, rfl⟩ := countBounds_eq_ok (hw.toSound.ready hready).wellFormed.cells hw.counts
        hready.countable hbounds
      refine yields_bind (yields_remark ?_)
      refine (yields_force_of hready (hw.remark _) (hcounter (hw.remark _))
        fun σ hσ hsat => ?_).imp fun _ w' hw' => hw'.upheld
      have haccounts := hw.accounts σ hσ hsat
      have hcard := Finset.card_le_card (Finset.filter_subset (fun i =>
        (p.place i).eval σ ∈ p.tracked) (p.may w))
      unfold Among.tally at haccounts
      change _ ≤ p.surely w + (p.may w).card
      omega
  · next hnot => exact yields_pure (hupheld.forget fun hin => absurd (hmem.2 hin) hnot)

/-- Events of a place, or of the counter, of a propagator that knows about all others. -/
theorem yields_notified (h : Knows p exact (fun j => A j ∨ j = i) w₀) (hevents : events ≠ ∅) :
    Yields me (p.notified i events) w₀
      (fun response w' => Upheld p me exact A w₀ w' ∧
        (response = .skip → w' = w₀ ∧ i = p.counterId ∧ p.counter = .domain p.counter.base))
      (Refuted p me w₀) := by
  have hupheld : Upheld p me exact (fun j => A j ∨ j = i) w₀ w₀ :=
    ⟨Sound.refl hready.wellFormed, h⟩
  unfold notified
  split
  · next hi =>
    refine yields_pure ⟨?_, fun hskip => ⟨rfl, hi, ?_⟩⟩
    · by_cases he : exact
      · refine hupheld.forget fun hin => ?_
        have := Finset.mem_range.1 ((h.tracks he).subset hin)
        rw [hi] at this
        exact absurd this (lt_irrefl _)
      · exact ⟨hupheld.toSound, h.accounts, h.counts, fun hex => absurd hex he⟩
    · cases hc : p.counter with
      | domain id => rfl
      | abs x =>
          rw [hc, Variable.perceived_abs x hevents, conditions, if_pos hi] at hskip
          exact absurd hskip (by decide)
  · next hi =>
    refine yields_bind (yields_subject fun hlt => ?_)
    split
    · next hempty =>
      rw [conditions, if_neg hi, EventSet.inter_all] at hempty
      exact absurd (EventSet.isEmpty_iff.1 hempty) ((p.place i).perceived_ne_empty hevents)
    · refine (yields_reconsider hready h hlt).bind fun _ w' hw' => ?_
      exact yields_pure ⟨hw', fun he => nomatch he⟩

end Ready

/-- Events change nothing as long as no place may count. -/
theorem yields_notified_of_empty (hwf : w₀.cells.WellFormed) (h : p.may w₀ = ∅) :
    Yields me (p.notified i events) w₀ (fun _ w' => w' = w₀) fun _ => False := by
  unfold notified
  split
  · exact yields_pure rfl
  · refine yields_bind (yields_subject fun _ => ?_)
    split
    · exact yields_pure rfl
    · unfold reconsider
      refine yields_bind (yields_bind (yields_onCells fun here hhere => ?_))
      obtain ⟨set, hset, hhere⟩ := Checked.bind_eq_ok hhere
      obtain ⟨hset', hplaces⟩ := Cells.set_eq_ok hset hwf
      have hnot : ¬ here = true := by
        rw [← Except.ok.inj hhere, SwapSet.contains_iff hset', hplaces]
        change i ∉ p.may w₀
        rw [h]
        exact Finset.notMem_empty i
      rw [if_neg hnot]
      exact yields_pure (yields_pure rfl)

end AmongPropagator

end Narrowing
