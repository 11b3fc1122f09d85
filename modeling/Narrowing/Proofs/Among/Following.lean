import Narrowing.Proofs.Among.Calls
import Narrowing.Proofs.Among.Knowledge

/-!
How a propagator follows the domains, whether or not it is told of its own changes. There is `News`
of a variable as long as a change of it is to be heard of. What the cells say is what a recount would
give, apart from places of which there is news, and from those that are `Stale`: a propagator that is
spared its own changes misses what it does to the domain of the counter, and what it does to the places
once the counter decides about all of them. It rests as far as its cells tell, or a pass is to come.
-/

namespace Narrowing

theorem EventSet.mem_all (e : Event) : e ∈ EventSet.all := by cases e <;> rfl

namespace AmongPropagator

open Narrowing.Action Narrowing.Engine

variable {e e' : Engine AmongPropagator} {j : PropagatorId} {p : AmongPropagator}
  {w : Workspace Remark} {t t' : Table DomainId Domain} {P P' : Finset Nat} {n n' : Int}
  {skipsOwn : Bool} {i : LocalId} {cause : Cause}

theorem place_counterId (p : AmongPropagator) : p.place p.counterId = p.counter :=
  List.getD_eq_default _ _ (Nat.le_refl _)

theorem minds_of_lt (hi : i < p.scope.length) : p.minds i = .all :=
  if_neg fun h => Nat.lt_irrefl _ (h.1 ▸ hi)

theorem minds_of_view (h : p.counter ≠ .domain p.counter.base) : p.minds i = .all :=
  if_neg fun h' => h h'.2

theorem mem_minds_of_bounds {event : Event} (h : event ∈ EventSet.bounds) : event ∈ p.minds i := by
  unfold minds
  split
  · cases event with
    | lowerBound => rfl
    | upperBound => rfl
    | assign => exact absurd h (by decide)
    | removal => exact absurd h (by decide)
  · exact EventSet.mem_all event

/-! ### News -/

/-- A change of the variable `i` of `j` is to be heard of: a notification waits, or a report is to
come. -/
def News (e : Engine AmongPropagator) (j : PropagatorId) (p : AmongPropagator) (i : LocalId) : Prop :=
  e.notifier.Notifies ⟨j, i⟩ (p.minds i) ∨ ∃ o ∈ e.domains.unreported.toList,
    o.domain = (p.place i).base ∧ e.notifier.Concerns ⟨j, i⟩ o ∧
    ∃ event ∈ p.minds i, event ∈ o.events

theorem news_of_occurrence {o : Occurrence} (ho : o ∈ e.domains.unreported.toList)
    (hdomain : o.domain = (p.place i).base) (hconcerns : e.notifier.Concerns ⟨j, i⟩ o)
    (hminds : p.minds i = .all) (hne : o.events ≠ ∅) : News e j p i := by
  obtain ⟨event, hevent⟩ := EventSet.exists_mem hne
  exact Or.inr ⟨o, ho, hdomain, hconcerns, event, hminds ▸ EventSet.mem_all event, hevent⟩

theorem News.told {notices : List Notice} (h : News e j p i)
    (hn : e.notifier.noticesOfAll e.domains.unreported.toList = .ok notices)
    (hears : e.notifier.Hears ⟨j, i⟩ (p.place i).base (p.minds i)) : News (e.told notices) j p i := by
  rcases h with hnotifies | ⟨o, ho, hdomain, hconcerns, event, hminds, hevent⟩
  · exact Or.inl (hnotifies.accept notices)
  · obtain ⟨x, hx, hl, hxe⟩ :=
      Notifier.exists_notice_of_concerns hn ho hconcerns (hdomain ▸ hears) hminds hevent
    exact Or.inl (Notifier.notifies_accept hx hl hminds hxe)

/-- What is delivered to others, or not minded, takes away no news. -/
theorem News.delivered {l : Listener} {events : EventSet} {rest : List (Listener × EventSet)}
    (h : News e j p i) (hpending : e.notifier.pending.entries = (l, events) :: rest)
    (hold : l = ⟨j, i⟩ → ∀ event ∈ events, event ∉ p.minds i) : News (e.delivered rest) j p i := by
  refine h.imp_left ?_
  rintro ⟨x, hx, hl, event, hminds, hevent⟩
  rw [hpending] at hx
  rcases List.mem_cons.1 hx with rfl | hx
  · exact absurd hminds (hold hl event hevent)
  · exact ⟨x, hx, hl, event, hminds, hevent⟩

section Work

variable {B : DomainId → Prop} (hn : Domains.Narrows B cause e.domains w.domains)
  (hconcerns : ¬ (e.notifier.skipsOwn = true ∧ cause = .propagator j))
include hn

theorem News.worked (h : News e j p i) : News (e.worked w) j p i :=
  h.imp_right fun ⟨o, ho, hrest⟩ => ⟨o, hn.mem_unreported ho, hrest⟩

include hconcerns

/-- A change that the propagator is not spared is news. -/
theorem news_of_ne (hminds : p.minds i = .all)
    (hne : w.domains.table.get? (p.place i).base ≠ e.domains.table.get? (p.place i).base) :
    News (e.worked w) j p i := by
  obtain ⟨o, ho, hdomain, rfl, hevents⟩ := (hn.get?_eq_or _).resolve_left hne
  exact news_of_occurrence (e := e.worked w) ho hdomain hconcerns hminds hevents

/-- A counter that comes to be fixed is news. -/
theorem counterIs_or_news (hwf : e.domains.table.WellFormed)
    (h : p.CounterIs w.domains.table n) :
    p.CounterIs e.domains.table n ∨ News (e.worked w) j p p.counterId := by
  by_cases hplain : p.counter = .domain p.counter.base
  · have hmembers : ∀ t, p.counter.current t = t.members p.counter.base := fun t => by
      rw [hplain]
      exact Finset.image_id
    rw [Among.CounterIs, hmembers] at h ⊢
    refine (hn.fixed_or hwf h).imp_right ?_
    rintro ⟨o, ho, hdomain, rfl, event, hbounds, hevent⟩
    exact Or.inr ⟨o, ho, p.place_counterId ▸ hdomain, hconcerns, event,
      mem_minds_of_bounds hbounds, hevent⟩
  · by_cases hsame : w.domains.table.get? p.counter.base = e.domains.table.get? p.counter.base
    · rw [Among.CounterIs, Variable.current_of_get? hsame] at h
      exact Or.inl h
    · exact Or.inr (news_of_ne hn hconcerns (minds_of_view hplain) (by rwa [place_counterId]))

section NoNews

variable (hnone : ¬ ∃ i ≤ p.counterId, News (e.worked w) j p i)
include hnone

theorem get?_of_no_news (hi : i < p.scope.length) :
    w.domains.table.get? (p.place i).base = e.domains.table.get? (p.place i).base := by
  by_contra hne
  exact hnone ⟨i, Nat.le_of_lt hi, news_of_ne hn hconcerns (minds_of_lt hi) hne⟩

theorem counterIs_of_no_news (hwf : e.domains.table.WellFormed)
    (h : p.CounterIs w.domains.table n) : p.CounterIs e.domains.table n :=
  (counterIs_or_news hn hconcerns hwf h).resolve_right fun hnews => hnone ⟨_, Nat.le_refl _, hnews⟩

end NoNews

/-- A propagator that rested does so after changes made by others, or has news of one. -/
theorem Resting.or_news (h : p.Resting e.domains.table P n) (hwf : e.domains.table.WellFormed)
    (hP : P ⊆ Finset.range p.scope.length) :
    p.Resting w.domains.table P n ∨ ∃ i ≤ p.counterId, News (e.worked w) j p i := by
  by_cases hnews : ∃ i ≤ p.counterId, News (e.worked w) j p i
  · exact Or.inr hnews
  have hsame : ∀ i ∈ P, w.domains.table.get? (p.place i).base =
      e.domains.table.get? (p.place i).base := fun i hi =>
    get?_of_no_news hn hconcerns hnews (Finset.mem_range.1 (hP hi))
  refine Or.inl ⟨fun v hv => h.inBounds v (Among.current_subset hn hwf _ hv), fun hb hc i hi => ?_,
    fun hb hc i hi => ?_⟩
  · exact (h.excluded hb (counterIs_of_no_news hn hconcerns hnews hwf hc) i hi).of_get? (hsame i hi)
  · exact (h.included hb (counterIs_of_no_news hn hconcerns hnews hwf hc) i hi).of_get? (hsame i hi)

end Work

/-! ### Following -/

/-- The cells may lag behind at the place for good. -/
def Stale (skipsOwn : Bool) (p : AmongPropagator) (t : Table DomainId Domain) (P : Finset Nat)
    (n : Int) (i : Nat) : Prop :=
  skipsOwn = true ∧ (p.Handled t P n i ∨ (p.place i).base = p.counter.base)

/-- The cells of the propagator follow the domains, and it rests unless a pass is to come. -/
structure Follows (e : Engine AmongPropagator) (j : PropagatorId) (p : AmongPropagator) : Prop where
  tracks : p.Tracks e.domains.table (p.may e.toWorkspace) (p.surely e.toWorkspace) fun i =>
    News e j p i ∨
      Stale e.notifier.skipsOwn p e.domains.table (p.may e.toWorkspace) (p.surely e.toWorkspace) i
  tracked_ne : (p.may e.toWorkspace).Nonempty → p.tracked ≠ []
  rests : p.Resting e.domains.table (p.may e.toWorkspace) (p.surely e.toWorkspace) ∨
    e.agenda.Asks j {} ∨ ∃ i ≤ p.counterId, News e j p i

/-- What a propagator knows when nothing is waiting for it. -/
structure Quiet (skipsOwn : Bool) (p : AmongPropagator) (t : Table DomainId Domain) (P : Finset Nat)
    (n : Int) : Prop where
  tracks : p.Tracks t P n (Stale skipsOwn p t P n)
  tracked_ne : P.Nonempty → p.tracked ≠ []
  resting : p.Resting t P n

theorem Stale.imp (h : Stale skipsOwn p t P n i)
    (hhandled : (p.place i).base ≠ p.counter.base → p.Handled t P n i → p.Handled t' P' n' i) :
    Stale skipsOwn p t' P' n' i := by
  refine ⟨h.1, or_iff_not_imp_right.2 fun hne => ?_⟩
  exact hhandled hne (h.2.resolve_right hne)

theorem Quiet.follows (h : Quiet e.notifier.skipsOwn p e.domains.table (p.may e.toWorkspace)
    (p.surely e.toWorkspace)) : Follows e j p :=
  ⟨h.tracks.mono fun _ _ hs => Or.inr hs, h.tracked_ne, Or.inl h.resting⟩

theorem not_news (hunreported : e.domains.unreported = #[])
    (hpending : e.notifier.pending.entries = []) : ¬ News e j p i := by
  rintro (⟨x, hx, -⟩ | ⟨o, ho, -⟩)
  · rw [hpending] at hx
    exact nomatch hx
  · rw [hunreported] at ho
    exact nomatch ho

theorem not_news_of_idle (h : e.Idle) : ¬ News e j p i := not_news h.unreported h.pending

/-- When nothing waits, no pass is to come. -/
theorem Follows.quiet (h : Follows e j p) (hidle : e.Idle) :
    Quiet e.notifier.skipsOwn p e.domains.table (p.may e.toWorkspace) (p.surely e.toWorkspace) where
  tracks := h.tracks.mono fun _ _ hor => hor.resolve_left (not_news_of_idle hidle)
  tracked_ne := h.tracked_ne
  resting := h.rests.resolve_right fun hor => hor.elim (fun hasks => hasks.of_empty hidle.requests)
    fun ⟨_, _, hnews⟩ => not_news_of_idle hidle hnews

/-- A propagator that nothing is waiting for is at rest, if the counter is in the scope only where the
propagator hears of its own changes. -/
theorem Quiet.atRest (h : Quiet skipsOwn p t P n) (hwf : t.WellFormed) (hg : p.Grounded t)
    (hcounter : skipsOwn = true → ∀ i < p.scope.length, (p.place i).base ≠ p.counter.base) :
    p.AtRest t := by
  refine h.resting.atRest (h.tracks.mono fun i hi hs => (hs.2.resolve_right ?_).pinned) hwf hg
  exact hcounter hs.1 i (Finset.mem_range.1 (h.tracks.subset hi))

section Further

variable (hg : p.Grounded t)
  (hext : ∀ id : DomainId, id.index < t.size → t'.get? id = t.get? id)
include hg hext

theorem steerable_further : p.Steerable t' ↔ p.Steerable t := by
  have hsame : ∀ x ∈ p.counter :: p.scope, (Among.Faithful t' x ↔ Among.Faithful t x) :=
    fun _ hx => Among.faithful_further hext (hg.lt_of_mem hx)
  obtain ⟨hcounter, hscope⟩ := List.forall_mem_cons.1 hsame
  exact ⟨fun h => ⟨hcounter.1 h.counter, fun hback x hx => (hscope x hx).1 (h.scope hback x hx)⟩,
    fun h => ⟨hcounter.2 h.counter, fun hback x hx => (hscope x hx).2 (h.scope hback x hx)⟩⟩

theorem counterIs_further : p.CounterIs t' n ↔ p.CounterIs t n := by
  rw [Among.CounterIs, Among.CounterIs, Among.current_further hext hg.counter_lt]

theorem Resting.further (h : p.Resting t P n) (hP : P ⊆ Finset.range p.scope.length) :
    p.Resting t' P n := by
  have hget : ∀ i ∈ P, t'.get? (p.place i).base = t.get? (p.place i).base := fun i hi =>
    hext _ (hg.place_lt i (Finset.mem_range.1 (hP hi)))
  refine ⟨?_, fun hb hc i hi => ?_, fun hb hc i hi => ?_⟩
  · rw [Among.current_further hext hg.counter_lt]
    exact h.inBounds
  · exact (h.excluded hb ((counterIs_further hg hext).1 hc) i hi).of_get? (hget i hi)
  · exact (h.included hb ((counterIs_further hg hext).1 hc) i hi).of_get? (hget i hi)

theorem Stale.further (h : Stale skipsOwn p t P n i) (hi : i < p.scope.length) :
    Stale skipsOwn p t' P n i :=
  h.imp fun _ hhandled => hhandled.of_get? (hext _ (hg.place_lt i hi)) (counterIs_further hg hext).2
    (counterIs_further hg hext).2

theorem Quiet.further (h : Quiet skipsOwn p t P n) : Quiet skipsOwn p t' P n :=
  ⟨(h.tracks.further hg hext).mono fun _ hi hs =>
    hs.further hg hext (Finset.mem_range.1 (h.tracks.subset hi)), h.tracked_ne,
    h.resting.further hg hext h.tracks.subset⟩

end Further

/-- The domains that were there and the cells of the propagator stay what they are, and nothing that
waits for it gets lost. -/
structure Carries (e e' : Engine AmongPropagator) (j : PropagatorId) (p : AmongPropagator) :
    Prop where
  table : ∀ id : DomainId, id.index < e.domains.table.size →
    e'.domains.table.get? id = e.domains.table.get? id
  skipsOwn_eq : e'.notifier.skipsOwn = e.notifier.skipsOwn
  may_eq : p.may e'.toWorkspace = p.may e.toWorkspace
  surely_eq : p.surely e'.toWorkspace = p.surely e.toWorkspace
  news : ∀ i ≤ p.counterId, News e j p i → News e' j p i
  asks : e.agenda.Asks j {} → e'.agenda.Asks j {}

namespace Follows

theorem carried (h : Follows e j p) (hg : p.Grounded e.domains.table) (hc : Carries e e' j p) :
    Follows e' j p := by
  refine ⟨?_, hc.may_eq ▸ h.tracked_ne, ?_⟩
  · rw [hc.skipsOwn_eq, hc.may_eq, hc.surely_eq]
    refine (h.tracks.further hg hc.table).mono fun i hi hor => ?_
    have hlt := Finset.mem_range.1 (h.tracks.subset hi)
    exact hor.imp (hc.news i (Nat.le_of_lt hlt)) fun hstale => hstale.further hg hc.table hlt
  · rw [hc.may_eq, hc.surely_eq]
    refine h.rests.imp (fun hresting => ?_)
      (Or.imp hc.asks fun ⟨i, hi, hn⟩ => ⟨i, hi, hc.news i hi hn⟩)
    exact hresting.further hg hc.table h.tracks.subset

/-- Changes of domains that the propagator is not spared, and of cells that are not its own. -/
theorem worked (h : Follows e j p) (hwf : e.domains.table.WellFormed)
    (hg : p.Grounded e.domains.table) {B : DomainId → Prop}
    (hn : Domains.Narrows B cause e.domains w.domains)
    (hconcerns : ¬ (e.notifier.skipsOwn = true ∧ cause = .propagator j))
    (hmay : p.may w = p.may e.toWorkspace) (hsurely : p.surely w = p.surely e.toWorkspace) :
    Follows (e.worked w) j p := by
  have hbelow := hn.table_below hwf
  refine ⟨?_, ?_, ?_⟩
  · change p.Tracks w.domains.table (p.may w) (p.surely w) fun i => News (e.worked w) j p i ∨
      Stale e.notifier.skipsOwn p w.domains.table (p.may w) (p.surely w) i
    rw [hmay, hsurely]
    refine h.tracks.narrower hn hwf hg fun i hi hor => ?_
    by_cases hsame : w.domains.table.get? (p.place i).base = e.domains.table.get? (p.place i).base
    · rcases hor.resolve_right fun hne => hne hsame with hnews | hstale
      · exact Or.inl (hnews.worked hn)
      · exact Or.inr (hstale.imp fun _ hhandled => hhandled.below hbelow hsame)
    · exact Or.inl (news_of_ne hn hconcerns
        (minds_of_lt (Finset.mem_range.1 (h.tracks.subset hi))) hsame)
  · exact fun hne => h.tracked_ne (hmay ▸ hne)
  · change p.Resting w.domains.table (p.may w) (p.surely w) ∨ _
    rw [hmay, hsurely]
    rcases h.rests with hresting | hasks | ⟨i, hi, hnews⟩
    · exact (hresting.or_news hn hconcerns hwf h.tracks.subset).imp_right Or.inr
    · exact Or.inr (Or.inl hasks)
    · exact Or.inr (Or.inr ⟨i, hi, hnews.worked hn⟩)

end Follows

/-! ### The propagator acts -/

section Acts

variable (hready : Ready p True e.toWorkspace) (hsteers : p.Steerable e.domains.table)
  (hunreported : e.domains.unreported = #[])
include hunreported

/-- Of what the propagator changes itself it hears, unless it is spared that. -/
theorem touched_self {B : DomainId → Prop}
    (hn : Domains.Narrows B (.propagator j) e.domains w.domains)
    (ht : w.domains.Touched (p.place i).base) (hminds : p.minds i = .all) :
    News (e.worked w) j p i ∨ e.notifier.skipsOwn = true ∧ B (p.place i).base := by
  obtain ⟨o, ho, hdomain⟩ := ht
  obtain ⟨new, hnew, hall⟩ := hn.unreported_eq
  have hmem := ho
  rw [hnew, hunreported] at hmem
  obtain ⟨hB, hcause, hevents⟩ := hall o hmem
  by_cases hskips : e.notifier.skipsOwn = true
  · exact Or.inr ⟨hskips, hdomain ▸ hB⟩
  · exact Or.inl (news_of_occurrence (e := e.worked w) ho hdomain (fun hspared => hskips hspared.1)
      hminds hevents)

include hready hsteers

/-- A notification of a propagator that follows the domains. -/
theorem Follows.yields_notified {l : Listener} {events : EventSet}
    {rest : List (Listener × EventSet)} (h : Follows e l.propagator p)
    (hpending : e.notifier.pending.entries = (l, events) :: rest) (hevents : events ≠ ∅) :
    Yields l.propagator (p.notified l.localId events) e.toWorkspace
      (fun response w => Guarded p l.propagator e.toWorkspace w ∧
        Follows (((e.delivered rest).worked w).answered l.propagator p response) l.propagator p)
      fun _ => Restless p e.toWorkspace := by
  set A : Nat → Prop := fun i => News (e.delivered rest) l.propagator p i ∨
    Stale e.notifier.skipsOwn p e.domains.table (p.may e.toWorkspace) (p.surely e.toWorkspace) i
    with hA
  have hknows : Knows p True (fun i => A i ∨ i = l.localId) e.toWorkspace := by
    refine ⟨h.tracks.accounts hready.grounded, h.tracks.counts,
      fun _ => h.tracks.mono fun i _ hor => Or.inl ?_⟩
    by_cases hi : i = l.localId
    · exact Or.inr hi
    · refine Or.inl (hor.imp_left fun hnews => hnews.delivered hpending fun hl => ?_)
      exact absurd (congrArg Listener.localId hl).symm hi
  refine (((AmongPropagator.yields_notified hready hknows hevents).and
    (yields_notified_trims hready hsteers h.tracks)).and
    (yields_notified_skips hevents)).mono (fun response w hw => ?_) fun _ hw => hw.1.2
  obtain ⟨⟨⟨hupheld, -⟩, hheeded⟩, hskip⟩ := hw
  have hn := hheeded.narrows
  have htracks : p.Tracks w.domains.table (p.may w) (p.surely w) fun i =>
      News ((e.delivered rest).worked w) l.propagator p i ∨
        Stale e.notifier.skipsOwn p w.domains.table (p.may w) (p.surely w) i := by
    refine (hupheld.tracks trivial).mono fun i hi haw => ?_
    rcases haw with (hnews | hstale) | htouched
    · exact Or.inl (hnews.worked (w := w) hn)
    · refine Or.inr (hstale.imp fun hne hhandled => ?_)
      exact hhandled.of_get? (hn.get?_eq_of_not hne) hheeded.least hheeded.most
    · have hminds := minds_of_lt (Finset.mem_range.1 ((hupheld.tracks trivial).subset hi))
      exact (touched_self (e := e.delivered rest) hunreported hn htouched hminds).imp_right
        fun hspared => ⟨hspared.1, Or.inr hspared.2⟩
  have htracked : (p.may w).Nonempty → p.tracked ≠ [] := fun hne =>
    h.tracked_ne (hne.mono hheeded.may_subset)
  refine ⟨hheeded.guarded, ?_⟩
  cases response with
  | enqueue =>
      obtain ⟨r, hr, hid, -⟩ := e.agenda.asks_request l.propagator (Propagator.priority p) .takingUp
      exact ⟨htracks, htracked, Or.inr (Or.inl ⟨r, hr, hid, Agenda.union_empty _⟩)⟩
  | skip =>
      obtain ⟨rfl, hunminded⟩ := hskip rfl
      refine ⟨htracks, htracked, h.rests.imp_right (Or.imp_right ?_)⟩
      rintro ⟨i, hi, hnews⟩
      refine ⟨i, hi, News.worked (w := e.toWorkspace) hn (hnews.delivered hpending fun hl => ?_)⟩
      have hi : l.localId = i := congrArg Listener.localId hl
      exact hi ▸ hunminded

/-- A pass of a propagator that is fresh or follows the domains. -/
theorem yields_pass_follows {r : Request} {rest : List Request}
    (h : Fresh e r.propagator p ∨ Follows e r.propagator p)
    (hnodup : (e.agenda.requests.map Request.propagator).Nodup)
    (hr : e.agenda.requests = r :: rest) :
    Yields r.propagator (p.pass r.propagator r.passes) e.toWorkspace
      (fun _ w => Guarded p r.propagator e.toWorkspace w ∧
        Follows ((e.met rest).worked w) r.propagator p) fun _ => Restless p e.toWorkspace := by
  set A : Nat → Prop := fun i => r.passes.full = false ∧ (News e r.propagator p i ∨
    Stale e.notifier.skipsOwn p e.domains.table (p.may e.toWorkspace) (p.surely e.toWorkspace) i)
    with hA
  have hknown : r.passes.full = true ∨ p.Tracks e.domains.table (p.may e.toWorkspace)
      (p.surely e.toWorkspace) A ∧ ((p.may e.toWorkspace).Nonempty → p.tracked ≠ []) := by
    rcases h with hfresh | hfollows
    · exact Or.inl (Agenda.full_of_covers (hfresh.asks.met hnodup hr rfl))
    · cases hfull : r.passes.full with
      | true => exact Or.inl rfl
      | false =>
          exact Or.inr ⟨hfollows.tracks.mono fun _ _ hor => ⟨hfull, hor⟩, hfollows.tracked_ne⟩
  have hknows : r.passes.full = true ∨ Knows p True A e.toWorkspace := hknown.imp_right fun hk =>
    ⟨hk.1.accounts hready.grounded, hk.1.counts, fun _ => hk.1.mono fun _ _ => Or.inl⟩
  refine ((yields_pass hready hknows).and
    (yields_pass_trims hready hsteers hunreported hknown)).mono (fun _ w hw => ?_) fun _ hw => hw.2
  obtain ⟨⟨hupheld, -⟩, hguarded, htracked, hresting, hor⟩ := hw
  refine ⟨hguarded, (hupheld.tracks trivial).mono fun i hi haw => ?_, htracked, Or.inl hresting⟩
  have hminds := minds_of_lt (Finset.mem_range.1 ((hupheld.tracks trivial).subset hi))
  rcases haw with ⟨hnot, hnews | hstale⟩ | htouched
  · exact Or.inl (News.worked (e := e.met rest) hguarded.progress.narrows hnews)
  · refine Or.inr (hstale.imp fun hne hhandled => ?_)
    rcases hor with ⟨hn, hcells⟩ | hpinned
    · have hsame := hcells hnot
      have hmay : p.may w = p.may e.toWorkspace := by rw [may, hsame]; rfl
      have hsurely : p.surely w = p.surely e.toWorkspace := by rw [surely, hsame]; rfl
      change p.Handled w.domains.table (p.may w) (p.surely w) i
      rw [hmay, hsurely]
      exact hhandled.below (hn.table_below hready.wellFormed.table) (hn.get?_eq_of_not hne)
    · exact hresting.handled hpinned.1 (hpinned.2 i hi) hi
  · rcases hor with ⟨hn, -⟩ | hpinned
    · exact (touched_self (e := e.met rest) hunreported hn htouched hminds).imp_right
        fun hspared => ⟨hspared.1, Or.inr hspared.2⟩
    · have hhandled := hresting.handled hpinned.1 (hpinned.2 i hi) hi
      exact (touched_self (e := e.met rest) hunreported hguarded.progress.narrows htouched
        hminds).imp_right fun hspared => ⟨hspared.1, Or.inl hhandled⟩

end Acts

end AmongPropagator

end Narrowing
