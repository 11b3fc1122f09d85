import Narrowing.Proofs.Among.Lasting

/-!
Engines in which every propagator that restricts no views of intervals follows the domains. That is so
in every run in which checkpoints are opened at fixed points: at a checkpoint what a propagator knows is
put down with nothing waiting for it, so that a restore, which drops all that waits, gives back a
propagator that follows the domains.
-/

namespace Narrowing.AmongPropagator

open Narrowing.Action Narrowing.Engine

variable {e e' e₀ : Engine AmongPropagator} {j : PropagatorId} {p : AmongPropagator}
  {cause : Cause} {l : Listener} {events : EventSet} {rest : List (Listener × EventSet)}

/-- What a propagator hears of, and what it knew when a level was left. -/
structure Listens (e : Engine AmongPropagator) (j : PropagatorId) (p : AmongPropagator) : Prop where
  hears : ∀ i ≤ p.counterId, e.notifier.Hears ⟨j, i⟩ (p.place i).base (p.minds i)
  quiet : ∀ k < e.level, p.Steerable (e.domains.past k) → Quiet e.notifier.skipsOwn p
    (e.domains.past k) ((e.cells.past k).places p.possible) ((e.cells.past k).value p.sure)

/-- Every propagator listens. -/
def Hearkens (e : Engine AmongPropagator) : Prop :=
  ∀ j p, e.propagators.get? j = some p → Listens e j p

/-- Every propagator listens and, as long as there is no contradiction, follows the domains. -/
structure Watchful (e : Engine AmongPropagator) : Prop where
  listens : Hearkens e
  follows : e.contradiction = none → ∀ j p, e.propagators.get? j = some p →
    p.Steerable e.domains.table → Fresh e j p ∨ Follows e j p

/-- Domains that lose members keep their kind, so a propagator has views of intervals after it only
if it had before. -/
theorem steerable_of_narrows {B : DomainId → Prop} {s s' : Domains}
    (hn : Domains.Narrows B cause s s') (hwf : s.table.WellFormed) :
    p.Steerable s'.table ↔ p.Steerable s.table :=
  ⟨fun h => h.of_enumerated fun id => (hn.enumerated_eq hwf id).symm,
    fun h => h.of_enumerated (hn.enumerated_eq hwf)⟩

/-- What a propagator can rely on that restricts no views of intervals. -/
theorem ready_of_steerable (h : p.Steerable e.domains.table) (hf : Frame Nobody e)
    (hp : e.propagators.get? j = some p) : Ready p True e.toWorkspace := by
  have hplaced := hf.placed j p hp
  refine ⟨hf.consistent.workspace, hplaced.grounded, hplaced.sorted, hf.countable j p hp,
    fun _ hback x hx d hd k _ hgap => ?_⟩
  exact absurd hgap (Among.not_keepsGap_of_faithful (h.scope hback x hx) hd)

namespace Watchful

variable (h : Watchful e) (hlive : Live Nobody e) (hunreported : e.domains.unreported = #[])
include h hlive hunreported

/-- A propagator that restricts no views of intervals goes on to follow the domains when it is
notified. -/
theorem yields_notified (hpending : e.notifier.pending.entries = (l, events) :: rest)
    (hp : e.propagators.get? l.propagator = some p) :
    Yields l.propagator (p.notified l.localId events) e.toWorkspace
      (fun response w => p.Steerable e.domains.table → Guarded p l.propagator e.toWorkspace w ∧
        (Fresh (((e.delivered rest).worked w).answered l.propagator p response) l.propagator p ∨
          Follows (((e.delivered rest).worked w).answered l.propagator p response) l.propagator p))
      fun _ => p.Steerable e.domains.table → Restless p e.toWorkspace := by
  by_cases hsteers : p.Steerable e.domains.table
  swap
  · exact .of_all (fun _ _ hc => absurd hc hsteers) fun _ hc => absurd hc hsteers
  rcases h.follows hlive.contradiction_eq l.propagator p hp hsteers with hfresh | hfollows
  · refine (yields_notified_of_empty hlive.consistent.workspace.cells hfresh.may_eq).mono
      (fun response w hw _ => ?_) fun _ hw => hw.elim
    obtain rfl : w = e.toWorkspace := hw
    refine ⟨.refl hlive.consistent.workspace, Or.inl ?_⟩
    cases response with
    | skip => exact ⟨hfresh.asks, hfresh.may_eq⟩
    | enqueue => exact ⟨hfresh.asks.request _ _ _, hfresh.may_eq⟩
  · have hready := ready_of_steerable hsteers hlive.toFrame hp
    have hevents := hlive.pending_ne (l, events) (hpending ▸ List.mem_cons_self)
    exact (hfollows.yields_notified hready hsteers hunreported hpending hevents).mono
      (fun _ _ hw _ => ⟨hw.1, Or.inr hw.2⟩) fun _ hw _ => hw

theorem yields_pass {r : Request} {rest : List Request} (hr : e.agenda.requests = r :: rest)
    (hp : e.propagators.get? r.propagator = some p) :
    Yields r.propagator (p.pass r.propagator r.passes) e.toWorkspace
      (fun _ w => p.Steerable e.domains.table → Guarded p r.propagator e.toWorkspace w ∧
        Follows ((e.met rest).worked w) r.propagator p)
      fun _ => p.Steerable e.domains.table → Restless p e.toWorkspace := by
  by_cases hsteers : p.Steerable e.domains.table
  · exact (yields_pass_follows (ready_of_steerable hsteers hlive.toFrame hp) hsteers hunreported
      (h.follows hlive.contradiction_eq r.propagator p hp hsteers) hlive.consistent.nodup hr).mono
      (fun _ _ hw _ => hw) fun _ hw _ => hw
  · exact .of_all (fun _ _ hc => absurd hc hsteers) fun _ hc => absurd hc hsteers

end Watchful

/-! ### Runs -/

/-- A propagator that restricts no views of intervals follows the domains. -/
def Heeds : Trait := fun e j p => p.Steerable e.domains.table → Follows e j p

/-- What a propagator that restricts no views of intervals knows when nothing is waiting for it. -/
def Knew : Legacy := fun skipsOwn p t P n => p.Steerable t → Quiet skipsOwn p t P n

theorem hearkens_iff : Hearkens e ↔ Recalling Knew e :=
  ⟨fun h j p hp => ⟨(h j p hp).hears, (h j p hp).quiet⟩,
    fun h j p hp => ⟨(h j p hp).hears, (h j p hp).past⟩⟩

theorem watchful_iff : Watchful e ↔ Abiding Heeds Knew e := by
  constructor
  · refine fun h => ⟨hearkens_iff.1 h.listens, fun hc j p hp => ?_⟩
    by_cases hsteers : p.Steerable e.domains.table
    · exact (h.follows hc j p hp hsteers).imp_right fun hfollows _ => hfollows
    · exact Or.inr fun hc => absurd hc hsteers
  · exact fun h => ⟨hearkens_iff.2 h.recalls, fun hc j p hp hsteers =>
      (h.now hc j p hp).imp_right fun hheeds => hheeds hsteers⟩

theorem lasts_heeds : Lasts Heeds Knew where
  carried := by
    intro e e' j p h hg hc hsteers
    exact (h ((steerable_further hg hc.table).1 hsteers)).carried hg hc
  worked := by
    intro e j p w B cause h hwf hg hn hconcerns hmay hsurely hsteers
    exact (h ((steerable_of_narrows hn hwf).1 hsteers)).worked hwf hg hn hconcerns hmay hsurely
  notified := by
    intro e p l events rest h hlive hunreported hpending hp
    by_cases hsteers : p.Steerable e.domains.table
    · have hready := ready_of_steerable hsteers hlive.toFrame hp
      have hevents := hlive.pending_ne (l, events) (hpending ▸ List.mem_cons_self)
      exact ((h hsteers).yields_notified hready hsteers hunreported hpending hevents).mono
        (fun response w hw _ => hw.2) fun _ _ => trivial
    · refine (hlive.yields_notified_sound hpending hp).mono (fun response w hw hc => ?_)
        fun _ _ => trivial
      have hc : p.Steerable w.domains.table := by cases response <;> exact hc
      exact absurd ((steerable_of_narrows hw.progress.narrows hlive.consistent.workspace.table).1 hc)
        hsteers
  pass := by
    intro e p r rest h hlive hunreported hr hp
    by_cases hsteers : p.Steerable e.domains.table
    · have h' := h.imp_right fun hheeds => hheeds hsteers
      exact (yields_pass_follows (ready_of_steerable hsteers hlive.toFrame hp) hsteers hunreported h'
        hlive.consistent.nodup hr).mono (fun _ w hw _ => hw.2) fun _ _ => trivial
    · refine (hlive.yields_pass_sound hr hp).mono (fun _ w hw hc => ?_) fun _ _ => trivial
      exact absurd ((steerable_of_narrows hw.progress.narrows hlive.consistent.workspace.table).1 hc)
        hsteers
  further h hg hext hsteers := (h ((steerable_further hg hext).1 hsteers)).further hg hext
  put_down h hidle hsteers := (h hsteers).quiet hidle
  taken_up h hsteers := (h hsteers).follows

/-- The rounds of propagation keep every propagator watchful. -/
theorem closed_watchful (e₀ : Engine AmongPropagator) :
    Closed (fun e => Since Nobody e₀ e ∧ Watchful e)
      fun e => Hopeless Nobody e₀ e ∧ Hearkens e := by
  simpa only [watchful_iff, hearkens_iff] using lasts_heeds.closed e₀

/-- In every run in which checkpoints are opened at fixed points, the propagators follow the domains,
whether or not they hear of their own changes. -/
theorem watchful_of_reached {skipsOwn : Bool} {m : Moment AmongPropagator}
    (h : Reached settledRules skipsOwn m) : Watchful m.engine :=
  watchful_iff.2 (lasts_heeds.of_reached h)

/-- At a fixed point nothing is waiting for any propagator. -/
theorem quiet_of_settle {skipsOwn : Bool} {m : Moment AmongPropagator}
    (h : Reached settledRules skipsOwn m) (hs : Engine.settle m.engine = .ok (.ok ()) e')
    (hp : e'.propagators.get? j = some p) (hsteers : p.Steerable e'.domains.table) :
    Frame Nobody e' ∧
      Quiet skipsOwn p e'.domains.table (p.may e'.toWorkspace) (p.surely e'.toWorkspace) := by
  obtain ⟨hlive, -, hknew⟩ := lasts_heeds.of_settle h hs
  exact ⟨hlive.toFrame, hknew j p hp hsteers⟩

end Narrowing.AmongPropagator
