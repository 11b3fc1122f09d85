import Narrowing.Proofs.Among.Frame

/-!
What Among propagators know while an engine works. A propagator is `Fresh` until its first pass, and
`Informed` from then on: its cells account for the solutions and, in an exact engine, track the
domains, apart from places of which a notification or a report is still to come. While one propagator
acts, its changes reach the others as such reports, so they stay informed.
-/

namespace Narrowing.AmongPropagator

open Narrowing.Action Narrowing.Engine

variable (exact : PropagatorId → Prop)

/-- A notification waits for the variable `i` of `j`. -/
def Pends (e : Engine AmongPropagator) (j : PropagatorId) (i : LocalId) : Prop :=
  (⟨j, i⟩ : Listener) ∈ e.notifier.pending.keys

/-- A pass is to come: it is requested, or a view as counter changed, which will lead to a request.
-/
def Stirred (e : Engine AmongPropagator) (j : PropagatorId) (p : AmongPropagator) : Prop :=
  e.agenda.Asks j {} ∨ (p.counter ≠ .domain p.counter.base ∧
    (Pends e j p.counterId ∨ e.domains.Touched p.counter.base))

/-- The first pass is to come, and nothing is counted yet. -/
structure Fresh (e : Engine AmongPropagator) (j : PropagatorId) (p : AmongPropagator) : Prop where
  asks : e.agenda.Asks j .fromScratch
  may_eq : p.may e.toWorkspace = ∅

/-- The propagator knows what it has to, and the counter is in bounds unless a pass is to come. -/
structure Informed (e : Engine AmongPropagator) (j : PropagatorId) (p : AmongPropagator) : Prop
    extends Knows p (exact j) (Pends e j) e.toWorkspace where
  bounded : exact j → p.InBounds e.domains.table (p.may e.toWorkspace) (p.surely e.toWorkspace) ∨
    Stirred e j p

/-- Every propagator but `j` is fresh or informed. -/
def Attended (e : Engine AmongPropagator) (j : PropagatorId) : Prop :=
  ∀ i q, i ≠ j → e.propagators.get? i = some q → Fresh e i q ∨ Informed exact e i q

/-- An engine that may have solutions: every propagator is fresh or informed. -/
structure Live (e : Engine AmongPropagator) : Prop extends Frame exact e where
  contradiction_eq : e.contradiction = none
  current : ∀ j p, e.propagators.get? j = some p → Fresh e j p ∨ Informed exact e j p

/-- An assignment of current values that satisfies every constraint. -/
def Solves (e : Engine AmongPropagator) (σ : DomainId → Int) : Prop :=
  e.domains.table.Admits σ ∧ ∀ j p, e.propagators.get? j = some p → p.Satisfied σ

variable {exact} {e e₀ : Engine AmongPropagator} {i j : PropagatorId}
  {p q : AmongPropagator} {w : Workspace Remark}

/-! ### Single steps -/

theorem Fresh.requested (h : Fresh e j p) (id : PropagatorId) (priority : Priority)
    (passes : Passes) : Fresh { e with agenda := e.agenda.request id priority passes } j p :=
  ⟨h.asks.request id priority passes, h.may_eq⟩

/-- What is known of the same domains and cells. -/
theorem Informed.carried {e' : Engine AmongPropagator} (h : Informed exact e j p)
    (hdomains : e'.domains = e.domains) (hmay : p.may e'.toWorkspace = p.may e.toWorkspace)
    (hsurely : p.surely e'.toWorkspace = p.surely e.toWorkspace)
    (hpends : ∀ k, Pends e j k → Pends e' j k) (hasks : e.agenda.Asks j {} → e'.agenda.Asks j {}) :
    Informed exact e' j p := by
  refine ⟨⟨?_, ?_, fun he => ?_⟩, fun he => ?_⟩
  · rw [hdomains, hmay, hsurely]
    exact h.accounts
  · rw [hmay, hsurely]
    exact h.counts
  · unfold awaits
    rw [hdomains, hmay, hsurely]
    exact (h.tracks he).mono fun k _ haw => haw.imp_left (hpends k)
  · unfold Stirred
    rw [hdomains, hmay, hsurely]
    exact (h.bounded he).imp_right
      (Or.imp hasks (And.imp_right (Or.imp_left (hpends _))))

theorem Informed.requested (h : Informed exact e j p) (id : PropagatorId) (priority : Priority)
    (passes : Passes) :
    Informed exact { e with agenda := e.agenda.request id priority passes } j p :=
  h.carried rfl rfl rfl (fun _ hk => hk) fun hasks => hasks.request id priority passes

/-- A change of a domain that a listener watches leads to a notification. -/
theorem pends_told {notices : List Notice} (h : Frame exact e) {i : PropagatorId} (he : exact i)
    (hn : e.notifier.noticesOfAll e.domains.unreported.toList = .ok notices) {id : DomainId}
    {k : LocalId} (hears : e.notifier.Hears ⟨j, k⟩ id .all) (ht : e.domains.Touched id) :
    Pends (e.told notices) j k := by
  obtain ⟨o, ho, rfl⟩ := ht
  obtain ⟨event, hevent⟩ := EventSet.exists_mem (h.unreported_ne o ho)
  have hall : event ∈ EventSet.all := by cases event <;> rfl
  exact (Notifier.mem_keys_accept _ _ _).2
    (Or.inr (Notifier.exists_notice hn (h.delivers he) ho hears hall hevent))

theorem Informed.told {notices : List Notice} (h : Informed exact e j p)
    (hf : Frame exact e) (hp : e.propagators.get? j = some p)
    (hn : e.notifier.noticesOfAll e.domains.unreported.toList = .ok notices) :
    Informed exact (e.told notices) j p := by
  have hplaced := hf.placed j p hp
  have hpends : ∀ {k}, Pends e j k → Pends (e.told notices) j k := fun hk =>
    (Notifier.mem_keys_accept _ _ _).2 (Or.inl hk)
  refine ⟨⟨h.accounts, h.counts, fun he => (h.tracks he).mono fun k hk haw => Or.inl ?_⟩,
    fun he => ?_⟩
  · rcases haw with hk' | ht
    · exact hpends hk'
    · have hlt := Finset.mem_range.1 ((h.tracks he).subset hk)
      exact pends_told hf he hn (hplaced.hears_place he k hlt) ht
  · rcases h.bounded he with hin | hasks | ⟨hview, hk | ht⟩
    · exact Or.inl hin
    · exact Or.inr (Or.inl hasks)
    · exact Or.inr (Or.inr ⟨hview, Or.inl (hpends hk)⟩)
    · exact Or.inr (Or.inr ⟨hview, Or.inl (pends_told hf he hn (hplaced.hears_counter he hview) ht)⟩)

theorem Informed.delivered {first : Listener × EventSet} {rest : List (Listener × EventSet)}
    (h : Informed exact e j p) (hpending : e.notifier.pending.entries = first :: rest)
    (hne : first.1.propagator ≠ j) : Informed exact (e.delivered rest) j p := by
  have hpends : ∀ {k}, Pends e j k → Pends (e.delivered rest) j k := by
    intro k hk
    unfold Pends Backlog.keys at hk
    rw [hpending] at hk
    rcases List.mem_cons.1 hk with hk | hk
    · exact absurd (congrArg Listener.propagator hk).symm hne
    · exact hk
  exact h.carried rfl rfl rfl (fun _ hk => hpends hk) fun hasks => hasks

theorem Informed.met {r : Request} {rest : List Request} (h : Informed exact e j p)
    (hr : e.agenda.requests = r :: rest) (hne : r.propagator ≠ j) :
    Informed exact (e.met rest) j p :=
  h.carried rfl rfl rfl (fun _ hk => hk) fun hasks => hasks.remains hr hne _

/-- Work on the domains that leaves the cells of a propagator alone. -/
theorem Informed.worked {cause : Cause} (h : Informed exact e j p)
    (hconsistent : Consistent e) (hplaced : Placed exact e j p)
    (hn : Domains.Narrows (fun _ => True) cause e.domains w.domains)
    (hmay : p.may w = p.may e.toWorkspace) (hsurely : p.surely w = p.surely e.toWorkspace) :
    Informed exact (e.worked w) j p := by
  have hwf := hconsistent.workspace.table
  refine ⟨⟨?_, ?_, fun he => ?_⟩, fun he => ?_⟩
  · change p.Accounts w.domains.table (p.may w) (p.surely w)
    rw [hmay, hsurely]
    exact h.accounts.narrower hn hwf
  · change p.Counts (p.may w) (p.surely w)
    rw [hmay, hsurely]
    exact h.counts
  · change p.Tracks w.domains.table (p.may w) (p.surely w) _
    rw [hmay, hsurely]
    refine (h.tracks he).narrower hn hwf hplaced.grounded fun k _ hor => ?_
    rcases hor with (hk | ht) | hne
    · exact Or.inl hk
    · exact Or.inr (hn.touched ht)
    · exact Or.inr (hn.touched_of_ne hne)
  · change p.InBounds w.domains.table (p.may w) (p.surely w) ∨ _
    rw [hmay, hsurely]
    rcases h.bounded he with hin | hasks | ⟨hview, hk | ht⟩
    · by_cases hsame : p.counter ≠ .domain p.counter.base →
          w.domains.table.get? p.counter.base = e.domains.table.get? p.counter.base
      · exact Or.inl (hin.narrower hn hwf hsame)
      · push Not at hsame
        exact Or.inr (Or.inr ⟨hsame.1, Or.inr (hn.touched_of_ne hsame.2)⟩)
    · exact Or.inr (Or.inl hasks)
    · exact Or.inr (Or.inr ⟨hview, Or.inl hk⟩)
    · exact Or.inr (Or.inr ⟨hview, Or.inr (hn.touched ht)⟩)

/-! ### One propagator acts -/

theorem Attended.delivered {l : Listener} {events : EventSet} {rest : List (Listener × EventSet)}
    (h : Attended exact e l.propagator)
    (hpending : e.notifier.pending.entries = (l, events) :: rest) :
    Attended exact (e.delivered rest) l.propagator := fun i q hne hq =>
  (h i q hne hq).imp (fun hf => ⟨hf.asks, hf.may_eq⟩) fun hi => hi.delivered hpending hne.symm

theorem Attended.met {r : Request} {rest : List Request} (h : Attended exact e r.propagator)
    (hr : e.agenda.requests = r :: rest) : Attended exact (e.met rest) r.propagator :=
  fun i q hne hq => (h i q hne hq).imp (fun hf => ⟨hf.asks.remains hr hne.symm _, hf.may_eq⟩)
    fun hi => hi.met hr hne.symm

/-- What one propagator does keeps the others attended. -/
theorem Attended.worked (h : Attended exact e j) (hf : Frame exact e)
    (hp : e.propagators.get? j = some p) (hw : Sound p j e.toWorkspace w) :
    Attended exact (e.worked w) j := by
  intro i q hne hq
  obtain ⟨hsure, hpossible⟩ := hf.cells_ne hp hq hne
  have hmay : q.may w = q.may e.toWorkspace := hw.places_eq _ hpossible
  refine (h i q hne hq).imp (fun hfresh => ⟨hfresh.asks, hmay.trans hfresh.may_eq⟩) fun hi => ?_
  exact hi.worked hf.consistent (hf.placed i q hq) hw.progress.narrows hmay (hw.value_eq _ hsure)

theorem Attended.requested (h : Attended exact e j) (id : PropagatorId) (priority : Priority)
    (passes : Passes) :
    Attended exact { e with agenda := e.agenda.request id priority passes } j := fun i q hne hq =>
  (h i q hne hq).imp (fun hf => hf.requested id priority passes)
    fun hi => hi.requested id priority passes

/-- An engine is live when the propagator that acted is attended too. -/
theorem Attended.live (h : Attended exact e j) (hf : Frame exact e)
    (hc : e.contradiction = none) (hp : e.propagators.get? j = some p)
    (hself : Fresh e j p ∨ Informed exact e j p) : Live exact e := by
  refine ⟨hf, hc, fun i q hq => ?_⟩
  by_cases hne : i = j
  · obtain rfl : p = q := Option.some.inj (hp.symm.trans (hne ▸ hq))
    exact hne ▸ hself
  · exact h i q hne hq

theorem Live.attended (h : Live exact e) (j : PropagatorId) : Attended exact e j :=
  fun i q _ hq => h.current i q hq

theorem Live.told {notices : List Notice} (h : Live exact e)
    (hn : e.notifier.noticesOfAll e.domains.unreported.toList = .ok notices) :
    Live exact (e.told notices) :=
  ⟨h.toFrame.told hn, h.contradiction_eq, fun i q hq => (h.current i q hq).imp
    (fun hf => ⟨hf.asks, hf.may_eq⟩) fun hi => hi.told h.toFrame hq hn⟩

theorem Live.requested (h : Live exact e) (id : PropagatorId) (priority : Priority)
    (passes : Passes) :
    Live exact { e with agenda := e.agenda.request id priority passes } :=
  ⟨h.toFrame.requested id priority passes, h.contradiction_eq, fun i q hq =>
    (h.current i q hq).imp (fun hf => hf.requested id priority passes)
      fun hi => hi.requested id priority passes⟩

theorem Live.answered (h : Live exact e) (id : PropagatorId) (p : AmongPropagator)
    (response : Response) : Live exact (e.answered id p response) := by
  cases response with
  | enqueue => exact h.requested id _ _
  | skip => exact h

/-! ### Propagation -/

/-- Propagation that began in `e₀` has come to `e` and lost no solution. -/
structure Since (exact : PropagatorId → Prop) (e₀ e : Engine AmongPropagator) : Prop
    extends Live exact e where
  propagators_eq : e.propagators = e₀.propagators
  kept : ∀ σ, Solves e₀ σ → e.domains.table.Admits σ

/-- Propagation that began in `e₀` has come to `e` and to a contradiction. -/
structure Hopeless (exact : PropagatorId → Prop) (e₀ e : Engine AmongPropagator) : Prop
    extends Frame exact e where
  unsolvable : ∀ σ, ¬ Solves e σ
  refuted : ∀ σ, ¬ Solves e₀ σ

/-- A propagator that finds its constraint refuted refutes what propagation began with. -/
theorem Since.hopeless (h : Since exact e₀ e) (hp : e.propagators.get? j = some p)
    {e₁ : Engine AmongPropagator} (hf : Frame exact e₁)
    (hworkspace : e₁.toWorkspace = e.toWorkspace) (hpropagators : e₁.propagators = e.propagators)
    (hw : Refuted p j e.toWorkspace w) : Hopeless exact e₀ (e₁.worked w) := by
  have hprogress : Workspace.Progress (.propagator j) e₁.toWorkspace w := hworkspace ▸ hw.progress
  refine ⟨hf.worked hprogress, fun σ hσ => ?_, fun σ hσ => ?_⟩
  · have hwf := h.consistent.workspace.table
    exact hw.none σ (hw.progress.narrows.admits hwf hσ.1)
      (hσ.2 j p ((congrArg (fun t => t.get? j) hpropagators).trans hp))
  · exact hw.none σ (h.kept σ hσ) (hσ.2 j p (h.propagators_eq ▸ hp))

/-- The rounds of propagation lose no solution. -/
theorem closed_since (e₀ : Engine AmongPropagator) :
    Closed (Since exact e₀) (Hopeless exact e₀) := by
  refine ⟨fun h hn => ⟨h.toLive.told hn, h.propagators_eq, h.kept⟩, ?_, ?_⟩
  · intro e l events rest p h _ hpending hp
    have hdelivered := h.toFrame.delivered hpending
    have hothers := (h.attended l.propagator).delivered hpending
    rcases h.current l.propagator p hp with hfresh | hinformed
    · refine (yields_notified_of_empty h.consistent.workspace.cells hfresh.may_eq).mono
        (fun response w hw => ?_) fun _ hw => hw.elim
      obtain rfl : w = e.toWorkspace := hw
      have hlive := hothers.live hdelivered h.contradiction_eq hp (Or.inl ⟨hfresh.asks, hfresh.may_eq⟩)
      refine ⟨hlive.answered _ _ response, ?_, ?_⟩
      · cases response <;> exact h.propagators_eq
      · cases response <;> exact h.kept
    · have hready := h.ready hp
      have hknows : Knows p (exact l.propagator)
          (fun k => Pends (e.delivered rest) l.propagator k ∨ k = l.localId) e.toWorkspace := by
        refine ⟨hinformed.accounts, hinformed.counts,
          fun he => (hinformed.tracks he).mono fun k _ haw => ?_⟩
        refine haw.imp_left fun hk => ?_
        unfold Pends Backlog.keys at hk
        rw [hpending] at hk
        rcases List.mem_cons.1 hk with hk | hk
        · exact Or.inr (congrArg Listener.localId hk)
        · exact Or.inl hk
      have hevents : events ≠ ∅ := h.pending_ne (l, events) (hpending ▸ List.mem_cons_self)
      refine (yields_notified hready hknows hevents).mono (fun response w hw => ?_) fun w hw => ?_
      · obtain ⟨hupheld, hskip⟩ := hw
        have hframe := hdelivered.worked (w := w) hupheld.progress
        have hothers' := hothers.worked hdelivered hp hupheld.toSound
        have hkept : ∀ σ, Solves e₀ σ → w.domains.table.Admits σ := fun σ hσ =>
          hupheld.kept σ (h.kept σ hσ) (hσ.2 l.propagator p (h.propagators_eq ▸ hp))
        cases response with
        | enqueue =>
            have hasks : (e.agenda.request l.propagator (Propagator.priority p) .takingUp).Asks
                l.propagator {} := by
              obtain ⟨r, hr, hid, -⟩ := e.agenda.asks_request l.propagator
                (Propagator.priority p) .takingUp
              exact ⟨r, hr, hid, Agenda.union_empty _⟩
            exact ⟨(hothers'.requested _ _ _).live (hframe.requested _ _ _) h.contradiction_eq hp
              (Or.inr ⟨⟨hupheld.accounts, hupheld.counts, hupheld.tracks⟩,
                fun _ => Or.inr (Or.inl hasks)⟩),
              h.propagators_eq, hkept⟩
        | skip =>
            obtain ⟨rfl, -, hplain⟩ := hskip rfl
            refine ⟨hothers'.live hframe h.contradiction_eq hp
              (Or.inr ⟨⟨hupheld.accounts, hupheld.counts, hupheld.tracks⟩, fun he => ?_⟩),
              h.propagators_eq, hkept⟩
            rcases hinformed.bounded he with hin | hasks | ⟨hview, -⟩
            · exact Or.inl hin
            · exact Or.inr (Or.inl hasks)
            · exact absurd hplain hview
      · exact h.hopeless hp hdelivered rfl rfl hw
  · intro e r rest p h _ hr hp
    have hmet := h.toFrame.met hr
    have hready := h.ready hp
    have hknows : r.passes.full = true ∨
        Knows p (exact r.propagator) (Pends e r.propagator) e.toWorkspace := by
      rcases h.current r.propagator p hp with hfresh | hinformed
      · exact Or.inl (Agenda.full_of_covers (hfresh.asks.met h.consistent.nodup hr rfl))
      · exact Or.inr hinformed.toKnows
    refine (yields_pass hready hknows).mono (fun _ w hw => ?_) fun w hw => ?_
    · obtain ⟨hupheld, hin⟩ := hw
      have hothers := ((h.attended r.propagator).met hr).worked hmet hp hupheld.toSound
      refine ⟨hothers.live (hmet.worked hupheld.progress) h.contradiction_eq hp
        (Or.inr ⟨⟨hupheld.accounts, hupheld.counts, hupheld.tracks⟩, fun _ => Or.inl hin⟩),
        h.propagators_eq, fun σ hσ => ?_⟩
      exact hupheld.kept σ (h.kept σ hσ) (hσ.2 r.propagator p (h.propagators_eq ▸ hp))
    · exact h.hopeless hp hmet rfl rfl hw

end Narrowing.AmongPropagator
