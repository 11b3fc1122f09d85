import Narrowing.Proofs.Among.Trimming

/-!
What the calls of an Among propagator come to. A pass ends in domains where the propagator rests as
far as its cells tell, and it changes more than the counter only where that is fixed to a count that
decides about all places. A notification strikes off a place at most, and leads to a pass unless the
propagator does not react to what it is told.
-/

namespace Narrowing

namespace AmongPropagator

open Narrowing.Action

variable {p : AmongPropagator} {me : PropagatorId} {A : Nat → Prop}
  {w₀ w w' : Workspace Remark} {i : Nat}

/-- The events of its variables that a propagator reacts to. -/
def minds (p : AmongPropagator) (i : LocalId) : EventSet :=
  if i = p.counterId ∧ p.counter = .domain p.counter.base then .assignAndBounds else .all

theorem Resting.of_empty {t : Table DomainId Domain} {n : Int}
    (h : ∀ v ∈ p.counter.current t, n ≤ v ∧ v ≤ n + (∅ : Finset Nat).card) : p.Resting t ∅ n :=
  ⟨h, fun _ _ _ hi => absurd hi (Finset.notMem_empty _),
    fun _ _ _ hi => absurd hi (Finset.notMem_empty _)⟩

/-- A counter in its bounds that decides about no place leaves nothing to do. -/
theorem Resting.of_indecisive
    (hin : ∀ v ∈ p.counter.current w.domains.table,
      p.surely w ≤ v ∧ v ≤ p.surely w + (p.may w).card) (h : p.Indecisive w)
    (htracked : (p.may w).Nonempty → p.tracked ≠ []) :
    p.Resting w.domains.table (p.may w) (p.surely w) := by
  rcases (p.may w).eq_empty_or_nonempty with hempty | hne
  · rw [hempty] at hin ⊢
    exact .of_empty hin
  · have hnot := fun hb => h.resolve_left hne.ne_empty hb (htracked hne)
    exact ⟨hin, fun hb hc => absurd hc (hnot hb).1, fun hb hc => absurd hc (hnot hb).2⟩

/-- After a walk the counter is fixed to one count only. -/
theorem Walk.count_eq {T : Int → Prop} {P : Finset Nat} {n m : Int} (hwf : w₀.WellFormed)
    (hg : p.Grounded w₀.domains.table) (h : Walk p me T w₀ P m [] w)
    (hn : p.CounterIs w.domains.table n) : n = m :=
  hn.unique (h.guarded.wellFormed hwf).table (hg.narrower h.guarded.progress.narrows) h.count

/-- The places that a walk leaves in the set are over intervals, and trimmed. -/
theorem Walk.finished {T : Int → Prop} {P : Finset Nat} {m : Int} (h : Walk p me T w₀ P m [] w)
    (hi : i ∈ p.may w) :
    w.domains.table.enumerated (p.place i).base = false ∧ (p.place i).Trimmed w.domains.table T :=
  (h.done i hi).resolve_left List.not_mem_nil

theorem Walk.resting_of_excluded {P : Finset Nat} (hwf : w₀.WellFormed)
    (hg : p.Grounded w₀.domains.table) (h : Walk p me (· ∉ p.tracked) w₀ P (p.surely w) [] w) :
    p.Resting w.domains.table (p.may w) (p.surely w) := by
  refine ⟨fun v hv => ?_, fun _ _ i hi => (h.finished hi).2, fun _ hc i hi => ?_⟩
  · have := h.count v hv
    omega
  · have hsame := h.count_eq hwf hg hc
    have := Finset.card_pos.2 ⟨i, hi⟩
    omega

theorem Walk.resting_of_included {P : Finset Nat} (hwf : w₀.WellFormed)
    (hg : p.Grounded w₀.domains.table)
    (h : Walk p me (· ∈ p.tracked) w₀ P (p.surely w + (p.may w).card) [] w) :
    p.Resting w.domains.table (p.may w) (p.surely w) := by
  refine ⟨fun v hv => ?_, fun _ hc i hi => ?_, fun _ _ i hi => (h.finished hi).2⟩
  · have := h.count v hv
    omega
  · have hsame := h.count_eq hwf hg hc
    have := Finset.card_pos.2 ⟨i, hi⟩
    omega

section Calls

variable (hready : Ready p True w₀) (hsteers : p.Steerable w₀.domains.table)
include hready hsteers

/-- The filtering brings the propagator to rest, as far as its cells tell. -/
theorem yields_filter_trims (h : Guarded p me w₀ w)
    (htracks : p.Tracks w.domains.table (p.may w) (p.surely w) A)
    (htracked : (p.may w).Nonempty → p.tracked ≠ []) :
    Yields me (p.filter me) w
      (fun _ w' => Guarded p me w₀ w' ∧ p.may w' ⊆ p.may w ∧
        p.Resting w'.domains.table (p.may w') (p.surely w') ∧
        (Shrinks p me w₀ p.counter w w' ∨ p.Pinned w'.domains.table (p.may w') (p.surely w') ∧
          ∀ i ∈ p.may w', w'.domains.table.enumerated (p.place i).base = false))
      fun _ => Restless p w₀ := by
  have hwf := hready.wellFormed
  have hwfw := h.wellFormed hwf
  have hg := hready.grounded.narrower h.progress.narrows
  have hfaithful := (hsteers.of_enumerated (h.progress.narrows.enumerated_eq hwf.table)).counter
  have hfloor : ∀ g : Table DomainId Domain, p.AtRest g → g.Below w.domains.table →
      ∀ v ∈ p.counter.current g, p.surely w ≤ v ∧ v ≤ p.surely w + (p.may w).card :=
    fun g hr hb v hv => hr.inBounds_of htracks hb hg hv
  refine yields_filter_of hwfw hready.sorted htracks.counts hready.countable (fun hout => ?_)
    fun _ _ _ _ _ => ?_
  · intro g hb hr
    have hb := h.floor g hr hb
    obtain ⟨v, hv⟩ := Among.current_nonempty hb.wellFormed (hg.below hb).counter_lt
    exact hout v (Among.current_subset_of_below hb _ hv) (hfloor g hr hb v hv)
  refine (yields_clamp_guarded hwf h hg.counter_lt hfaithful hfloor).imp fun _ w₁ hw₁ =>
    hw₁.imp fun _ w₂ hw₂ => ?_
  obtain ⟨hshrinks, -, hin⟩ := hw₂
  have hwf₂ := hshrinks.guarded.wellFormed hwf
  have hbelow := hshrinks.narrows.table_below hwfw.table
  have hg₂ := hg.below hbelow
  have hmay := hshrinks.may_eq
  have hsurely := hshrinks.surely_eq
  have htracks₂ : p.Tracks w₂.domains.table (p.may w₂) (p.surely w₂) fun _ => True := by
    rw [hmay, hsurely]
    exact htracks.below hbelow hg fun _ _ _ => trivial
  have hwalk : ∀ {T : Int → Prop} {m smallest largest : Int} {places : List Nat},
      p.Decision m smallest largest places w₂ →
      (∀ g : Table DomainId Domain, p.AtRest g → g.Below w₂.domains.table → ∀ i ∈ p.may w₂,
        (p.place i).Trimmed g T) → Walk p me T w₀ (p.may w) m places w₂ := fun hd hdue =>
    ⟨hshrinks.guarded, hd.nodup, fun i hi => (hd.mem_iff i).1 hi,
      fun i hi => Finset.mem_range.1 (htracks₂.subset hi), hmay.le, hd.counter,
      fun g hr hb i hi => hdue g hr hb i ((hd.mem_iff i).1 hi),
      fun i hi => Or.inl ((hd.mem_iff i).2 hi)⟩
  refine ⟨hwf₂, hmay, hsurely, fun hidle => ?_, fun smallest largest places hd => ?_,
    fun smallest largest places hd => ?_⟩
  · rw [← hmay, ← hsurely] at hin
    refine ⟨hshrinks.guarded, hmay.le, .of_indecisive hin hidle ?_, Or.inl hshrinks⟩
    rwa [hmay]
  · have hwalk₂ := hwalk hd fun g hr hb i hi => hr.excludes htracks₂ hb hg₂ hd.back hd.counter hi
    refine (yields_excludeEach_trims hwf (hsteers.clear hd.back) hready.grounded hwalk₂).imp
      fun _ w₃ hw₃ => ?_
    obtain ⟨hwalk₃, hsurely₃⟩ := hw₃
    rw [← hsurely₃] at hwalk₃
    exact ⟨hwalk₃.guarded, hwalk₃.may_subset, hwalk₃.resting_of_excluded hwf hready.grounded,
      Or.inr ⟨⟨hd.back, Or.inl hwalk₃.count⟩, fun i hi => (hwalk₃.finished hi).1⟩⟩
  · have hwalk₂ := hwalk hd fun g hr hb i hi => hr.includes htracks₂ hb hg₂ hd.back hd.counter hi
    refine (yields_includeEach_trims hwf (hsteers.clear hd.back) hready.grounded hd.span hwalk₂).imp
      fun _ w₃ hw₃ => ?_
    obtain ⟨hwalk₃, hsum₃⟩ := hw₃
    rw [← hsum₃] at hwalk₃
    exact ⟨hwalk₃.guarded, hwalk₃.may_subset, hwalk₃.resting_of_included hwf hready.grounded,
      Or.inr ⟨⟨hd.back, Or.inr hwalk₃.count⟩, fun i hi => (hwalk₃.finished hi).1⟩⟩

/-- A pass brings the propagator to rest, as far as its cells tell, and narrows more than the counter
only where that decides about all places. -/
theorem yields_pass_trims {passes : Passes} (hreported : w₀.domains.unreported = #[])
    (h : passes.full = true ∨ p.Tracks w₀.domains.table (p.may w₀) (p.surely w₀) A ∧
      ((p.may w₀).Nonempty → p.tracked ≠ [])) :
    Yields me (p.pass me passes) w₀
      (fun _ w' => Guarded p me w₀ w' ∧ ((p.may w').Nonempty → p.tracked ≠ []) ∧
        p.Resting w'.domains.table (p.may w') (p.surely w') ∧
        (Domains.Narrows (· = p.counter.base) (.propagator me) w₀.domains w'.domains ∧
            (passes.full = false → w'.cells = w₀.cells) ∨
          p.Pinned w'.domains.table (p.may w') (p.surely w') ∧
            ∀ i ∈ p.may w', w'.domains.table.enumerated (p.place i).base = false))
      fun _ => Restless p w₀ := by
  unfold pass
  split
  · next hfull =>
    refine yields_bind (Yields.imp (yields_initialise (A := fun _ => False) hready)
      fun _ w hw => ?_)
    obtain ⟨hupheld, hdomains⟩ := hw
    have hguarded : Guarded p me w₀ w := ⟨hupheld.progress, fun g _ hb => hdomains ▸ hb⟩
    have htracks : p.Tracks w.domains.table (p.may w) (p.surely w) fun _ => False := by
      refine (hupheld.tracks trivial).mono fun i _ haw => haw.elim id ?_
      rintro ⟨o, ho, -⟩
      rw [hdomains, hreported] at ho
      exact nomatch ho
    have htracked : (p.may w).Nonempty → p.tracked ≠ [] := by
      rintro ⟨i, hi⟩ hnil
      refine htracks.awaited i hi (Or.inr fun v _ hv => ?_)
      rw [hnil] at hv
      exact nomatch hv
    refine (yields_filter_trims hready hsteers hguarded htracks htracked).imp fun _ w' hw' => ?_
    obtain ⟨hguarded', hsub, hresting, hor⟩ := hw'
    refine ⟨hguarded', fun hne => htracked (hne.mono hsub), hresting, hor.imp_left fun hshrinks => ?_⟩
    exact ⟨hdomains ▸ hshrinks.narrows, fun hnot => absurd (hfull.symm.trans hnot) (by decide)⟩
  · next hnot =>
    obtain ⟨htracks, htracked⟩ := h.resolve_left hnot
    refine (yields_filter_trims hready hsteers (.refl hready.wellFormed) htracks htracked).imp
      fun _ w' hw' => ?_
    obtain ⟨hguarded, hsub, hresting, hor⟩ := hw'
    exact ⟨hguarded, fun hne => htracked (hne.mono hsub), hresting,
      hor.imp_left fun hshrinks => ⟨hshrinks.narrows, fun _ => hshrinks.cells_eq⟩⟩

/-- What events of a place come to: the place may be struck off, and the counter narrowed. -/
structure Heeded (p : AmongPropagator) (me : PropagatorId) (w₀ w : Workspace Remark) : Prop where
  guarded : Guarded p me w₀ w
  narrows : Domains.Narrows (· = p.counter.base) (.propagator me) w₀.domains w.domains
  may_subset : p.may w ⊆ p.may w₀
  least : p.CounterIs w₀.domains.table (p.surely w₀) → p.CounterIs w.domains.table (p.surely w)
  most : p.CounterIs w₀.domains.table (p.surely w₀ + (p.may w₀).card) →
    p.CounterIs w.domains.table (p.surely w + (p.may w).card)

omit hsteers in
theorem Heeded.refl : Heeded p me w₀ w₀ :=
  ⟨.refl hready.wellFormed, .refl, Finset.Subset.refl _, id, id⟩

/-- The counter follows the cells, once a place is struck off. -/
theorem yields_force_heeded {r : Restriction} (h : Guarded p me w₀ w)
    (hdomains : w.domains = w₀.domains) (hmay : p.may w ⊆ p.may w₀)
    (hobeys : ∀ g : Table DomainId Domain, p.AtRest g → g.Below w₀.domains.table →
      ∀ v ∈ p.counter.current g, r.Allows v)
    (hleft : p.counter.Leaves (.propagator me)
      (fun u => Among.Faithful w₀.domains.table p.counter → r.Allows (p.counter.image u)) r w.domains)
    (hleast : r.Allows (p.surely w₀) → p.surely w = p.surely w₀)
    (hmost : r.Allows (p.surely w₀ + (p.may w₀).card) →
      p.surely w + (p.may w).card = p.surely w₀ + (p.may w₀).card) :
    Yields me (force p.counter r) w (fun _ w' => Heeded p me w₀ w') fun _ => Restless p w₀ := by
  have hcounter := hready.grounded.counter_lt
  refine (yields_force_guarded hready.wellFormed h (hdomains ▸ hcounter)
    (fun g hr hb => hobeys g hr (hdomains ▸ hb)) hleft).imp fun _ w' hw' => ?_
  obtain ⟨hshrinks, -, hleft'⟩ := hw'
  have hn : Domains.Narrows (· = p.counter.base) (.propagator me) w₀.domains w'.domains :=
    hdomains ▸ hshrinks.narrows
  have hbelow := hn.table_below hready.wellFormed.table
  obtain ⟨v, hv⟩ := Among.current_nonempty hbelow.wellFormed (hready.grounded.below hbelow).counter_lt
  have hall : ∀ m, p.CounterIs w₀.domains.table m → p.CounterIs w'.domains.table m ∧ r.Allows m := by
    intro m hm
    have hm' := hm.below hbelow
    obtain ⟨u, hu, rfl⟩ := Variable.mem_current.1 hv
    exact ⟨hm', hm' _ hv ▸ hleft' u hu hsteers.counter⟩
  refine ⟨hshrinks.guarded, hn, hshrinks.may_eq.le.trans hmay, fun hcount => ?_, fun hcount => ?_⟩
  · obtain ⟨hcount', hallows⟩ := hall _ hcount
    rwa [hshrinks.surely_eq, hleast hallows]
  · obtain ⟨hcount', hallows⟩ := hall _ hcount
    rwa [hshrinks.may_eq, hshrinks.surely_eq, hmost hallows]

/-- A place is looked at. -/
theorem yields_reconsider_trims
    (htracks : p.Tracks w₀.domains.table (p.may w₀) (p.surely w₀) A) :
    Yields me (p.reconsider i (p.place i)) w₀ (fun _ w' => Heeded p me w₀ w')
      fun _ => Restless p w₀ := by
  have hwf := hready.wellFormed
  have hguarded : Guarded p me w₀ w₀ := .refl hwf
  unfold reconsider
  refine yields_bind (yields_onCells fun here hhere => ?_)
  obtain ⟨set, hset, hhere⟩ := Checked.bind_eq_ok hhere
  obtain ⟨hset', hplaces⟩ := Cells.set_eq_ok hset hwf.cells
  have hmem : here = true ↔ i ∈ p.may w₀ := by
    rw [← Except.ok.inj hhere, SwapSet.contains_iff hset', hplaces]
    rfl
  split
  · next hin =>
    have hin := hmem.1 hin
    have hcard := Finset.card_erase_add_one hin
    refine yields_bind (yields_onDomains fun st hst => ?_)
    rcases Among.standing_eq_ok hwf.table hready.sorted hst with
      ⟨rfl, hsure⟩ | ⟨rfl, -⟩ | ⟨rfl, hnotsure, hnever⟩
    · refine yields_bind (yields_settlePlace_of hwf.cells fun cells hevolves hmay hsurely => ?_)
      refine yields_bind (yields_onCells fun bounds hbounds => ?_)
      obtain ⟨least, most⟩ := bounds
      have htracks' := htracks.settle hin hsure
      obtain ⟨rfl, -⟩ := countBounds_eq_ok hevolves.wellFormed
        (by rw [hmay, hsurely]; exact htracks'.counts) hready.countable hbounds
      refine yields_bind (yields_remark ?_)
      refine yields_force_heeded hready hsteers ((hguarded.withCells hevolves).remark _) rfl
        (hmay.le.trans (Finset.erase_subset _ _)) (fun g hr hb v hv => ?_)
        (leaves_atLeast_of_faithful hwf.table _ _) (fun hallows => ?_) fun _ => ?_
      · have := (hr.inBounds_of htracks' hb hready.grounded hv).1
        exact hsurely.le.trans this
      · change p.surely { w₀ with cells } ≤ p.surely w₀ at hallows
        omega
      · change p.surely { w₀ with cells } + (p.may { w₀ with cells }).card = _
        rw [hsurely, hmay]
        omega
    · exact yields_pure (.refl hready)
    · refine yields_bind (yields_write_erase hwf.cells fun cells hevolves hmay hsurely => ?_)
      refine yields_bind (yields_onCells fun bounds hbounds => ?_)
      obtain ⟨least, most⟩ := bounds
      have htracks' := htracks.erase hnotsure (Or.inr hnever)
      obtain ⟨-, rfl⟩ := countBounds_eq_ok hevolves.wellFormed
        (by rw [hmay, hsurely]; exact htracks'.counts) hready.countable hbounds
      refine yields_bind (yields_remark ?_)
      refine yields_force_heeded hready hsteers ((hguarded.withCells hevolves).remark _) rfl
        (hmay.le.trans (Finset.erase_subset _ _)) (fun g hr hb v hv => ?_)
        ((Variable.leaves_atMost hwf.table p.counter _).mono hwf.table (fun _ _ hf => hf)
          fun _ _ hl _ => hl) (fun _ => hsurely) fun hallows => ?_
      · have := (hr.inBounds_of htracks' hb hready.grounded hv).2
        rw [hsurely, hmay]
        exact this
      · change _ ≤ p.surely { w₀ with cells } + (p.may { w₀ with cells }).card at hallows
        rw [hsurely, hmay] at hallows
        omega
  · exact yields_pure (.refl hready)

/-- Events strike off a place at most, and narrow the counter. -/
theorem yields_notified_trims {events : EventSet}
    (htracks : p.Tracks w₀.domains.table (p.may w₀) (p.surely w₀) A) :
    Yields me (p.notified i events) w₀ (fun _ w' => Heeded p me w₀ w') fun _ => Restless p w₀ := by
  unfold notified
  split
  · exact yields_pure (.refl hready)
  · refine yields_bind (yields_subject fun _ => ?_)
    split
    · exact yields_pure (.refl hready)
    · refine (yields_reconsider_trims hready hsteers htracks).bind fun _ w' hw' => ?_
      exact yields_pure hw'

end Calls

/-- The counter passes over events that the propagator does not react to, and over no others. -/
theorem not_mem_minds_of_skip {events : EventSet} (hevents : events ≠ ∅) (hi : i = p.counterId)
    (hskip : (p.counter.perceived events ∩ p.conditions i).isEmpty = true) :
    ∀ e ∈ events, e ∉ p.minds i := by
  intro e he hminds
  rw [EventSet.isEmpty_iff, conditions, if_pos hi] at hskip
  cases hc : p.counter with
  | abs x =>
      rw [hc, Variable.perceived_abs x hevents] at hskip
      exact absurd hskip (by decide)
  | domain id =>
      rw [minds, if_pos ⟨hi, by rw [hc]; rfl⟩] at hminds
      rw [hc] at hskip
      exact EventSet.not_mem_empty e (hskip ▸ EventSet.mem_inter.2 ⟨he, hminds⟩)

/-- Events lead to a pass, unless they are none that the propagator reacts to. -/
theorem yields_notified_skips {events : EventSet} (hevents : events ≠ ∅) :
    Yields me (p.notified i events) w₀ (fun response w' =>
      response = .skip → w' = w₀ ∧ ∀ e ∈ events, e ∉ p.minds i) fun _ => True := by
  unfold notified
  split
  · next hi =>
    refine yields_pure fun hskip => ⟨rfl, not_mem_minds_of_skip hevents hi ?_⟩
    by_contra hnot
    rw [if_neg hnot] at hskip
    exact nomatch hskip
  · next hi =>
    refine yields_bind (yields_subject fun _ => ?_)
    split
    · next hempty =>
      rw [conditions, if_neg hi, EventSet.inter_all] at hempty
      exact absurd (EventSet.isEmpty_iff.1 hempty) ((p.place i).perceived_ne_empty hevents)
    · exact yields_bind (.of_all (fun _ _ => yields_pure fun he => nomatch he) fun _ => trivial)

end AmongPropagator

end Narrowing
