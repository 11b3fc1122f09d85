import Narrowing.Proofs.Among.Lasting
import Narrowing.Proofs.Among.Spending

/-!
Propagators that have done what they can. After its first pass the constraint of a propagator is
tractable, and that lasts in every run. A propagator that hears of its own changes is spent, as far as
its cells tell, or something is waiting for it.
-/

namespace Narrowing.AmongPropagator

open Narrowing.Action Narrowing.Engine

variable {e : Engine AmongPropagator} {j : PropagatorId} {p : AmongPropagator}
  {w : Workspace Remark} {t t' : Table DomainId Domain} {P : Finset Nat} {n m : Int}

/-! ### Changes made by others -/

/-- What a spent restriction leaves has been there. -/
theorem allows_of_spent {x : Variable} {s : Domains} {r : Restriction} {left : Int → Prop}
    (h : x.Spent s.table r) (hleft : x.Leaves .decision left r s) :
    ∀ u ∈ s.table.members x.base, left u := by
  obtain ⟨b, hb⟩ := h .decision s rfl
  unfold Variable.Leaves Domains.Confines Ends at hleft
  rw [hb] at hleft
  exact hleft.2.2

/-- Bounds of a counter that need not be moved need not be moved once it has lost values, or it is a
view and was changed. -/
theorem spent_counter_of_kept {B : DomainId → Prop} {cause : Cause} {s s' : Domains}
    (hatLeast : p.counter.Spent s.table (.atLeast n)) (hatMost : p.counter.Spent s.table (.atMost m))
    (hwf : s.table.WellFormed) (hg : p.Grounded s.table) (hn : Domains.Narrows B cause s s')
    (hkept : p.counter = .domain p.counter.base ∨
      s'.table.get? p.counter.base = s.table.get? p.counter.base) :
    p.counter.Spent s'.table (.atLeast n) ∧ p.counter.Spent s'.table (.atMost m) := by
  rcases hkept with hplain | hsame
  · obtain ⟨lo, hi, hlo, hhi⟩ := hatMost.exists_bounds
    refine spent_counter hwf hg hlo hhi hn (Or.inl hplain) fun v hv => ?_
    obtain ⟨u, hu, rfl⟩ := Variable.mem_current.1 hv
    have hu := hn.members_subset hwf _ hu
    exact ⟨allows_of_spent hatLeast (leaves_atLeast_of_faithful hwf _ _) u hu (Or.inl hplain),
      allows_of_spent hatMost (Variable.leaves_atMost hwf _ _) u hu⟩
  · exact ⟨hatLeast.of_get? hsame, hatMost.of_get? hsame⟩

/-- A spent propagator is so after changes made by others, or has news of one. -/
theorem Spent.or_news {B : DomainId → Prop} {cause : Cause} (h : p.Spent e.domains.table P n)
    (hwf : e.domains.table.WellFormed) (hg : p.Grounded e.domains.table)
    (hn : Domains.Narrows B cause e.domains w.domains)
    (hconcerns : ¬ (e.notifier.skipsOwn = true ∧ cause = .propagator j)) :
    p.Spent w.domains.table P n ∨ ∃ i ≤ p.counterId, News (e.worked w) j p i := by
  by_cases hnews : ∃ i ≤ p.counterId, News (e.worked w) j p i
  · exact Or.inr hnews
  have hkept : p.counter = .domain p.counter.base ∨
      w.domains.table.get? p.counter.base = e.domains.table.get? p.counter.base := by
    by_cases hplain : p.counter = .domain p.counter.base
    · exact Or.inl hplain
    · refine Or.inr ?_
      by_contra hne
      exact hnews ⟨_, Nat.le_refl _, news_of_ne hn hconcerns (minds_of_view hplain)
        (by rwa [place_counterId])⟩
  obtain ⟨hatLeast, hatMost⟩ := spent_counter_of_kept h.least h.most hwf hg hn hkept
  refine Or.inl ⟨hatLeast, hatMost, fun hb ht hc i hi => ?_, fun hb ht hc i hi => ?_⟩
  · obtain ⟨hlt, hexcluded⟩ :=
      h.excluded hb ht (counterIs_of_no_news hn hconcerns hnews hwf hc) i hi
    exact ⟨hlt, hexcluded.of_get? (get?_of_no_news hn hconcerns hnews hlt)⟩
  · obtain ⟨hlt, hincluded⟩ :=
      h.included hb ht (counterIs_of_no_news hn hconcerns hnews hwf hc) i hi
    exact ⟨hlt, hincluded.of_get? (get?_of_no_news hn hconcerns hnews hlt)⟩

theorem Spent.further (h : p.Spent t P n) (hg : p.Grounded t)
    (hext : ∀ id : DomainId, id.index < t.size → t'.get? id = t.get? id) : p.Spent t' P n := by
  have hcounter := hext _ hg.counter_lt
  refine ⟨h.least.of_get? hcounter, h.most.of_get? hcounter, fun hb ht hc i hi => ?_,
    fun hb ht hc i hi => ?_⟩
  · obtain ⟨hlt, hexcluded⟩ := h.excluded hb ht ((counterIs_further hg hext).1 hc) i hi
    exact ⟨hlt, hexcluded.of_get? (hext _ (hg.place_lt i hlt))⟩
  · obtain ⟨hlt, hincluded⟩ := h.included hb ht ((counterIs_further hg hext).1 hc) i hi
    exact ⟨hlt, hincluded.of_get? (hext _ (hg.place_lt i hlt))⟩

/-! ### Changes of its own -/

/-- Of changes that call for a further pass there is news, unless the propagator is spared them. -/
theorem Disturbed.exists_news (h : p.Disturbed w) (hunreported : e.domains.unreported = #[])
    (hskips : e.notifier.skipsOwn = false)
    (hn : Domains.Narrows (fun _ => True) (.propagator j) e.domains w.domains) :
    ∃ i ≤ p.counterId, News (e.worked w) j p i := by
  have hnews : ∀ i, p.minds i = .all → w.domains.Touched (p.place i).base →
      News (e.worked w) j p i := fun i hminds ht =>
    (touched_self hunreported hn ht hminds).resolve_right fun hspared => by
      simp [hskips] at hspared
  rcases h with ⟨i, hi, ht⟩ | ⟨hview, ht⟩
  · exact ⟨i, Nat.le_of_lt hi, hnews i (minds_of_lt hi) ht⟩
  · exact ⟨_, Nat.le_refl _, hnews _ (minds_of_view hview) (by rwa [place_counterId])⟩

/-! ### Traits -/

/-- The constraint is tractable in every run, once the propagator made a pass. -/
theorem lasts_tractable :
    Lasts (fun e _ p => p.Tractable e.domains.table) (fun _ p t _ _ => p.Tractable t) where
  carried h hg hc := h.further hg hc.table
  worked h hwf _ hn _ _ _ := h.below (hn.table_below hwf)
  notified := by
    intro e p l events rest h hlive hunreported hpending hp
    refine (hlive.yields_notified_sound hpending hp).mono (fun response w hw => ?_) fun _ _ => trivial
    have hbelow := hw.progress.narrows.table_below hlive.consistent.workspace.table
    cases response <;> exact h.below hbelow
  pass := by
    intro e p r rest h hlive hunreported hr hp
    rcases h with hfresh | h
    · have hfull := Agenda.full_of_covers (hfresh.asks.met hlive.consistent.nodup hr rfl)
      exact yields_pass_tractable hlive.consistent.workspace (hlive.placed _ p hp).sorted hfull
    · exact (hlive.yields_pass_sound hr hp).mono (fun _ w hw =>
        h.below (hw.progress.narrows.table_below hlive.consistent.workspace.table))
        fun _ _ => trivial
  further h hg hext := h.further hg hext
  put_down h _ := h
  taken_up h := h

/-- A propagator that hears of its own changes is spent, or something waits for it. -/
def Exhausts : Trait := fun e j p => e.notifier.skipsOwn = false →
  p.Spent e.domains.table (p.may e.toWorkspace) (p.surely e.toWorkspace) ∨ e.agenda.Asks j {} ∨
    ∃ i ≤ p.counterId, News e j p i

theorem lasts_exhausts : Lasts Exhausts fun skipsOwn p t P n => skipsOwn = false → p.Spent t P n where
  carried := by
    intro e e' j p h hg hc hskips
    refine (h (hc.skipsOwn_eq ▸ hskips)).imp (fun hspent => ?_)
      (Or.imp hc.asks fun ⟨i, hi, hnews⟩ => ⟨i, hi, hc.news i hi hnews⟩)
    rw [hc.may_eq, hc.surely_eq]
    exact hspent.further hg hc.table
  worked := by
    intro e j p w B cause h hwf hg hn hconcerns hmay hsurely hskips
    change p.Spent w.domains.table (p.may w) (p.surely w) ∨ _
    rw [hmay, hsurely]
    rcases h hskips with hspent | hasks | ⟨i, hi, hnews⟩
    · exact (hspent.or_news hwf hg hn hconcerns).imp_right Or.inr
    · exact Or.inr (Or.inl hasks)
    · exact Or.inr (Or.inr ⟨i, hi, hnews.worked hn⟩)
  notified := by
    intro e p l events rest h hlive hunreported hpending hp
    have hevents : events ≠ ∅ := hlive.pending_ne (l, events) (hpending ▸ List.mem_cons_self)
    refine (yields_notified_skips hevents).mono (fun response w hskip hskips => ?_) fun _ _ => trivial
    cases response with
    | enqueue =>
        obtain ⟨r, hr, hid, -⟩ := e.agenda.asks_request l.propagator (Propagator.priority p) .takingUp
        exact Or.inr (Or.inl ⟨r, hr, hid, Agenda.union_empty _⟩)
    | skip =>
        obtain ⟨rfl, hunminded⟩ := hskip rfl
        refine (h hskips).imp_right (Or.imp_right ?_)
        rintro ⟨i, hi, hnews⟩
        refine ⟨i, hi, News.delivered hnews hpending fun hl => ?_⟩
        have hi : l.localId = i := congrArg Listener.localId hl
        exact hi ▸ hunminded
  pass := by
    intro e p r rest h hlive hunreported hr hp
    have hready := hlive.ready hp
    have hcounts : r.passes.full = true ∨ p.Counts (p.may e.toWorkspace) (p.surely e.toWorkspace) := by
      rcases hlive.current r.propagator p hp with hfresh | hinformed
      · exact Or.inl (Agenda.full_of_covers (hfresh.asks.met hlive.consistent.nodup hr rfl))
      · exact Or.inr hinformed.counts
    refine ((yields_pass_spends hready hcounts).and (hlive.yields_pass_sound hr hp)).mono
      (fun _ w hw hskips => ?_) fun _ _ => trivial
    obtain ⟨hdisturbed | hspent, hsound⟩ := hw
    · exact Or.inr (Or.inr (hdisturbed.exists_news (e := e.met rest) hunreported hskips
        hsound.progress.narrows))
    · exact Or.inl hspent
  further h hg hext hskips := (h hskips).further hg hext
  put_down := by
    intro e j p h hidle hskips
    refine (h hskips).resolve_right ?_
    rintro (hasks | ⟨i, -, hnews⟩)
    · exact hasks.of_empty hidle.requests
    · exact not_news_of_idle hidle hnews
  taken_up h hskips := Or.inl (h hskips)

end Narrowing.AmongPropagator
