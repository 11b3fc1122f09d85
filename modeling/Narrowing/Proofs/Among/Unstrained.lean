import Narrowing.Proofs.Among.Abandonment
import Narrowing.Proofs.Among.Greatest

/-!
Propagation that is not abandoned. Where checkpoints are opened at fixed points, propagators without
views of intervals do not get strained. Their cells may lag behind at a place that has come down to
tracked values, but then the place is over the domain of the counter, or the counter is at the greatest
count. In the first case the greatest machine value is none of the counts that the place can be left
with, and in the second one no place has to lose tracked values.
-/

namespace Narrowing.AmongPropagator

open Narrowing.Action Narrowing.Engine

variable {p : AmongPropagator} {me j : PropagatorId} {safe : Prop} {w w' : Workspace Remark}
  {e e' e₀ : Engine AmongPropagator} {skipsOwn : Bool} {m : Moment AmongPropagator}

/-! ### Calls -/

/-- A propagator without views of intervals whose cells lag behind at a place that is sure to count only
if the place is over the domain of the counter, or the counter is at the greatest count. -/
structure Aware (p : AmongPropagator) (w : Workspace Remark) : Prop where
  clear : p.Clear w.domains.table
  sure : ∀ i ∈ p.may w, p.Sure w.domains.table (p.place i) →
    p.CounterIs w.domains.table (p.surely w + (p.may w).card) ∨ (p.place i).base = p.counter.base

/-- A propagator without views of intervals of which no place over an interval may count that has come
down to tracked values, the greatest machine value among them. -/
structure Roomy (p : AmongPropagator) (w : Workspace Remark) : Prop where
  clear : p.Clear w.domains.table
  greatest_notMem : ∀ i ∈ p.may w, w.domains.table.enumerated (p.place i).base = false →
    p.Sure w.domains.table (p.place i) → Value.greatest ∉ (p.place i).current w.domains.table

/-- The interval that a place is over tells the variable. -/
theorem place_eq_of_interval (h : p.Clear w.domains.table) {i : Nat} (hi : i < p.scope.length)
    (hinterval : w.domains.table.enumerated (p.place i).base = false) :
    p.place i = .domain (p.place i).base :=
  (h.place hi).resolve_right fun he => nomatch hinterval.symm.trans he

/-- One domain is narrowed. Places over other ones stay what they are. -/
theorem Roomy.narrowed (h : Roomy p w) (hwf : w.domains.table.WellFormed) {id : DomainId}
    (hn : Domains.Narrows (· = id) (.propagator me) w.domains w'.domains) (hcells : w'.cells = w.cells)
    (hid : ∀ i ∈ p.may w, w.domains.table.enumerated id = false → (p.place i).base = id →
      ¬ p.Sure w'.domains.table (p.place i)) : Roomy p w' := by
  refine ⟨h.clear.of_enumerated (hn.enumerated_eq hwf), fun i hi hinterval hsure => ?_⟩
  rw [may_congr hcells] at hi
  rw [hn.enumerated_eq hwf] at hinterval
  by_cases hbase : (p.place i).base = id
  · exact absurd hsure (hid i hi (hbase ▸ hinterval) hbase)
  · have hsame := Variable.current_of_get? (hn.get?_eq_of_not hbase)
    rw [Among.Sure, hsame] at hsure
    rw [hsame]
    exact h.greatest_notMem i hi hinterval hsure

/-- Once the counter is at the least count, no interval is to lose the greatest machine value. -/
theorem Aware.roomy (h : Aware p w) (hable : p.Able safe w)
    (hcountable : p.Countable)
    (hn : Domains.Narrows (· = p.counter.base) (.propagator me) w.domains w'.domains)
    (hcells : w'.cells = w.cells) (hcounts : p.Counts (p.may w') (p.surely w'))
    (hcounter : p.CounterIs w'.domains.table (p.surely w')) : Roomy p w' := by
  have hwf := hable.wellFormed.table
  have hclear := h.clear.of_enumerated (hn.enumerated_eq hwf)
  refine ⟨hclear, fun i hi hinterval hsure => ?_⟩
  have hi₀ : i ∈ p.may w := may_congr hcells ▸ hi
  have hlt := hable.lt_of_mem hi₀
  by_cases hbase : (p.place i).base = p.counter.base
  · have hplain := hclear.counter.resolve_right fun he => nomatch (hbase ▸ hinterval).symm.trans he
    have hsame : p.place i = p.counter := by
      rw [place_eq_of_interval hclear hlt hinterval, hbase, ← hplain]
    rw [hsame]
    intro hmem
    have hgreatest := hcounter _ hmem
    have hnext := hcounts.next_le hi
    unfold Among.Countable at hcountable
    omega
  · have hsame := Variable.current_of_get? (hn.get?_eq_of_not hbase)
    rw [Among.Sure, hsame] at hsure
    have hmost := ((h.sure i hi₀ hsure).resolve_right hbase).below (hn.table_below hwf)
    rw [← may_congr hcells, ← surely_congr hcells] at hmost
    have hequal := hcounter.unique (hn.wellFormed hwf) (hable.grounded.narrower hn) hmost
    have hcard := Finset.card_pos.2 ⟨i, hi⟩
    omega

/-- A call that begins so is not abandoned. -/
theorem escorts_roomy (hcountable : p.Countable) (me : PropagatorId)
    (safe : Prop) : Escorts p me safe (Aware p) (Roomy p) fun _ _ => ¬ safe where
  of_safe h hsafe := h hsafe hsafe
  crowded hlt := absurd hcountable (not_le.2 hlt)
  starts h hable hn hcells hcounts hcounter := h.roomy hable hcountable hn hcells hcounts hcounter
  congr h hdomains hsub :=
    ⟨hdomains ▸ h.clear, fun i hi => hdomains ▸ h.greatest_notMem i (hsub hi)⟩
  forceOut h hable _ he := (yields_forceOut_tries hable.wellFormed.table).imp fun _ w' hw' =>
    h.narrowed hable.wellFormed.table hw'.narrows hw'.cells_eq fun j _ hinterval _ =>
      nomatch hinterval.symm.trans he
  forceInward {w i} h hable hi hinterval := by
    have hlt := hable.lt_of_mem hi
    refine (yields_forceInward_leaves hable.wellFormed.table (hable.grounded.place_lt i hlt) _).imp
      fun _ w' hw' => ?_
    obtain ⟨hn, hcells, v, hv, hstays⟩ := hw'
    refine h.narrowed hable.wellFormed.table hn hcells fun j hj _ hbase hsure => ?_
    have hsame : p.place j = p.place i := by
      rw [place_eq_of_interval h.clear (hable.lt_of_mem hj) (hbase ▸ hinterval), hbase,
        ← place_eq_of_interval h.clear hlt hinterval]
    exact nomatch hstays.symm.trans (List.contains_iff_mem.2 (hsure v (hsame ▸ hv)))
  overruns h _ hi hinterval hoverruns := absurd hoverruns.greatest_mem
    (h.greatest_notMem _ hi hinterval fun v hv => List.contains_iff_mem.1 (hoverruns.all_go v hv))

/-- A propagator that follows the domains is aware when nothing is to be heard of any more. -/
theorem Follows.aware (h : Follows e j p) (hclear : p.Clear e.domains.table)
    (hwf : e.domains.table.WellFormed) (hg : p.Grounded e.domains.table)
    (hnone : ∀ i, ¬ News e j p i) : Aware p e.toWorkspace := by
  refine ⟨hclear, fun i hi hsure => ?_⟩
  have hlt := Finset.mem_range.1 (h.tracks.subset hi)
  have hstale := (h.tracks.awaited i hi (Or.inl hsure)).resolve_left (hnone i)
  refine hstale.2.imp_left fun hhandled => ?_
  rcases hhandled.trimmed with ⟨-, htrimmed⟩ | ⟨hmost, -⟩
  · obtain ⟨v, hv, hout⟩ := htrimmed.exists_mem (Among.current_nonempty hwf (hg.place_lt i hlt))
    exact absurd (hsure v hv) hout
  · exact hmost

theorem Recounted.aware (h : Recounted p w w') (hclear : p.Clear w.domains.table) : Aware p w' := by
  refine ⟨h.domains_eq ▸ hclear, fun i hi hsure => ?_⟩
  rw [h.domains_eq] at hsure
  exact (h.tracks.awaited i hi (Or.inl hsure)).elim

/-! ### Propagation -/

/-- A pass that is made when nothing is to be heard of is not abandoned. -/
theorem Working.not_risks_pass (h : Working True e) (hwatchful : Watchful e) {r : Request}
    {rest : List Request} (hunreported : e.domains.unreported = #[])
    (hpending : e.notifier.pending.entries = []) (hr : e.agenda.requests = r :: rest)
    (hp : e.propagators.get? r.propagator = some p) (hclear : p.Clear e.domains.table)
    (hcountable : p.Countable) :
    Risks r.propagator (p.pass r.propagator r.passes) e.toWorkspace (fun _ _ => True)
      fun _ _ => False := by
  have hescorts := escorts_roomy hcountable r.propagator True
  refine ((h.able hp).risks_pass hescorts (h.counted _ p hp) (fun hnot => ?_)
    fun w' hw' => hw'.aware hclear).mono (fun _ _ _ => trivial) fun _ _ hunsafe => hunsafe trivial
  have hconsistent := h.trusted.consistent
  rcases hwatchful.follows h.contradiction_eq _ p hp (.of_clear hclear) with hfresh | hfollows
  · exact nomatch hnot.symm.trans (Agenda.full_of_covers (hfresh.asks.met hconsistent.nodup hr rfl))
  · exact hfollows.aware hclear hconsistent.workspace.table (h.able hp).grounded
      fun _ => not_news hunreported hpending

/-- Propagation that began in `e₀` has come to `e`, where everything is in its place. -/
structure Proceeding (e₀ e : Engine AmongPropagator) : Prop where
  working : Working True e
  descends : (Since Nobody e₀ e ∧ Watchful e) ∧ Descends e₀ e

section Rounds

variable (hclear : AllClear e₀)
include hclear

theorem Proceeding.told (h : Proceeding e₀ e) {notices : List Notice}
    (hn : e.notifier.noticesOfAll e.domains.unreported.toList = .ok notices) :
    Proceeding e₀ (e.told notices) :=
  ⟨(closed_working True).report h.working hn, (closed_descends e₀ hclear).report h.descends hn⟩

/-- A round is not abandoned: changes can be told, whoever is to be told or to make a pass is there, and
can do what it has to. -/
theorem Proceeding.not_faulted (h : Proceeding e₀ e) :
    Ends round e (fun _ _ => True) (Faulted fun _ _ => False) := by
  have hwatches := h.working.trusted.consistent.watches_size
  apply ends_round_risks
  · exact Notifier.exists_noticesOfAll fun o ho => (h.working.unreported o ho).trans_eq hwatches.symm
  · rintro e' notices hn rfl
    obtain ⟨hworking, ⟨hsince, hwatchful⟩, hdescends⟩ := h.told hclear hn
    constructor
    · intro l events rest hpending
      obtain ⟨p, hp, -⟩ := hworking.pending (l, events) (hpending ▸ List.mem_cons_self)
      have hcovers := (escorts_roomy (hsince.countable _ p hp) l.propagator True).toCovers
      refine ⟨p, hp, (hworking.risks_notified hpending hp hcovers).mono (fun _ _ _ => trivial) ?_⟩
      exact fun _ _ hunsafe => hunsafe trivial
    · intro r rest hpending hrequests
      obtain ⟨p, hp⟩ := hworking.requests r (hrequests ▸ List.mem_cons_self)
      have hclear := (hclear _ p (hsince.propagators_eq ▸ hp)).of_enumerated
        hdescends.below.enumerated_eq
      exact ⟨p, hp, hworking.not_risks_pass hwatchful rfl hpending hrequests hp hclear
        (hsince.countable _ p hp)⟩

theorem Proceeding.ends_round (h : Proceeding e₀ e) :
    Ends round e (fun _ e' => Proceeding e₀ e') (Faulted fun _ _ => False) := by
  have hworks := (closed_working True).ends_round h.working
  have hdescends := (closed_descends e₀ hclear).ends_round h.descends
  exact (hworks.and (hdescends.and (h.not_faulted hclear))).mono
    (fun _ _ hw => ⟨hw.1.1, hw.2.1.1⟩) fun _ _ hw => hw.2.2

end Rounds

/-- The caller of settled runs keeps to the open rules, too. -/
theorem open_of_settled (h : Reached settledRules skipsOwn m) : Reached openRules skipsOwn m := by
  refine h.weaken ?_ (fun _ _ => trivial) id
  rintro e p ⟨-, scope, counter, tracked, back, hp, -⟩
  exact ⟨scope, counter, tracked, back, hp⟩

/-- **Propagation without views of intervals comes to an end.** At every moment of a run in which
checkpoints are opened at fixed points, propagation comes to a fixed point or to a contradiction, as
long as the propagators are tame. -/
theorem settle_ok_of_clear (h : Reached settledRules skipsOwn m) (hclear : AllClear m.engine)
    (htame : AllTame m.engine) : ∃ r e', settle m.engine = .ok r e' := by
  cases hc : m.engine.contradiction with
  | some c => exact ⟨_, _, settle_of_contradiction hc⟩
  | none =>
      have hlive := (Reached.sane h).live hc
      have hworking := (orderly_of_reached (open_of_settled h)).working hc fun _ : True => htame
      have hstart : Proceeding m.engine m.engine :=
        ⟨hworking, ⟨⟨hlive, rfl, fun σ hσ => hσ.1⟩, watchful_of_reached h⟩,
          .refl hlive.consistent.workspace.table, fun _ _ hb => hb⟩
      rcases settle_of_rounds (fun e he => he.ends_round hclear) hstart hlive.consistent hc
        with ⟨e', he', -⟩ | ⟨c, e', he', -⟩ | ⟨f, e', -, hf⟩
      · exact ⟨_, _, he'⟩
      · exact ⟨_, _, he'⟩
      · exact (hf f rfl).elim

end Narrowing.AmongPropagator
