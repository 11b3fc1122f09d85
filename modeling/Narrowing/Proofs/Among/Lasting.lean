import Narrowing.Proofs.Among.Course
import Narrowing.Proofs.Among.Following

/-!
What lasts through a run. A trait is a property of single propagators that have made their first pass,
and its legacy is what is put down of it with a checkpoint, once nothing is waiting. If a trait is
kept by the changes that others make, as far as there is no news of them, and by the calls of the
propagator itself, then all propagators have it as long as checkpoints are opened at fixed points.
-/

namespace Narrowing.AmongPropagator

open Narrowing.Action Narrowing.Engine

/-- A property of a propagator in an engine. -/
abbrev Trait := Engine AmongPropagator → PropagatorId → AmongPropagator → Prop

/-- A property of a propagator with what is in its cells; the engine may spare the propagators their
own changes. -/
abbrev Legacy := Bool → AmongPropagator → Table DomainId Domain → Finset Nat → Int → Prop

variable {Now : Trait} {Past : Legacy} {e e' e₀ : Engine AmongPropagator} {i j : PropagatorId}
  {p q : AmongPropagator} {w : Workspace Remark} {cause : Cause} {l : Listener} {events : EventSet}
  {rest : List (Listener × EventSet)}

/-- The trait lasts while an engine works, and what is put down of it can be taken up again. -/
structure Lasts (Now : Trait) (Past : Legacy) : Prop where
  carried : ∀ {e e' j p}, Now e j p → p.Grounded e.domains.table → Carries e e' j p → Now e' j p
  worked : ∀ {e j p} {w : Workspace Remark} {B : DomainId → Prop} {cause : Cause}, Now e j p →
    e.domains.table.WellFormed → p.Grounded e.domains.table →
    Domains.Narrows B cause e.domains w.domains →
    ¬ (e.notifier.skipsOwn = true ∧ cause = .propagator j) → p.may w = p.may e.toWorkspace →
    p.surely w = p.surely e.toWorkspace → Now (e.worked w) j p
  notified : ∀ {e p} {l : Listener} {events : EventSet} {rest : List (Listener × EventSet)},
    Now e l.propagator p → Live Nobody e → e.domains.unreported = #[] →
    e.notifier.pending.entries = (l, events) :: rest → e.propagators.get? l.propagator = some p →
    Yields l.propagator (p.notified l.localId events) e.toWorkspace (fun response w =>
      Now (((e.delivered rest).worked w).answered l.propagator p response) l.propagator p)
      fun _ => True
  pass : ∀ {e p} {r : Request} {rest : List Request}, Fresh e r.propagator p ∨ Now e r.propagator p →
    Live Nobody e → e.domains.unreported = #[] → e.agenda.requests = r :: rest →
    e.propagators.get? r.propagator = some p →
    Yields r.propagator (p.pass r.propagator r.passes) e.toWorkspace
      (fun _ w => Now ((e.met rest).worked w) r.propagator p) fun _ => True
  further : ∀ {skipsOwn p t t' P n}, Past skipsOwn p t P n → p.Grounded t →
    (∀ id : DomainId, id.index < t.size → t'.get? id = t.get? id) → Past skipsOwn p t' P n
  put_down : ∀ {e j p}, Now e j p → e.Idle →
    Past e.notifier.skipsOwn p e.domains.table (p.may e.toWorkspace) (p.surely e.toWorkspace)
  taken_up : ∀ {e j p}, Past e.notifier.skipsOwn p e.domains.table (p.may e.toWorkspace)
    (p.surely e.toWorkspace) → Now e j p

/-- What the propagator hears of, and what was true of it when a level was left. -/
structure Recalls (Past : Legacy) (e : Engine AmongPropagator) (j : PropagatorId)
    (p : AmongPropagator) : Prop where
  hears : ∀ i ≤ p.counterId, e.notifier.Hears ⟨j, i⟩ (p.place i).base (p.minds i)
  past : ∀ k < e.level, Past e.notifier.skipsOwn p (e.domains.past k)
    ((e.cells.past k).places p.possible) ((e.cells.past k).value p.sure)

/-- Every propagator recalls what was true of it. -/
def Recalling (Past : Legacy) (e : Engine AmongPropagator) : Prop :=
  ∀ j p, e.propagators.get? j = some p → Recalls Past e j p

/-- Every propagator but `j` is fresh or has the trait. -/
def OthersAbide (Now : Trait) (e : Engine AmongPropagator) (j : PropagatorId) : Prop :=
  ∀ i q, i ≠ j → e.propagators.get? i = some q → Fresh e i q ∨ Now e i q

/-- Every propagator recalls what was true of it and, as long as there is no contradiction, is fresh or
has the trait. -/
structure Abiding (Now : Trait) (Past : Legacy) (e : Engine AmongPropagator) : Prop where
  recalls : Recalling Past e
  now : e.contradiction = none → ∀ j p, e.propagators.get? j = some p → Fresh e j p ∨ Now e j p

/-! ### One propagator acts -/

theorem Recalls.worked (h : Recalls Past e j p) (hconsistent : Consistent e)
    (hp : Workspace.Progress cause e.toWorkspace w) : Recalls Past (e.worked w) j p where
  hears := h.hears
  past k hk := by
    have hk : k < e.domains.level := hk.trans_eq hp.narrows.trail_eq.1
    have hk' : k < e.cells.level := hk.trans_eq hconsistent.workspace.level_eq.symm
    change Past e.notifier.skipsOwn p (w.domains.past k) ((w.cells.past k).places p.possible)
      ((w.cells.past k).value p.sure)
    rw [hp.narrows.past_eq hconsistent.workspace.table hk, hp.evolves.past_eq k hk']
    exact h.past k hk

namespace Recalling

theorem worked (h : Recalling Past e) (hconsistent : Consistent e)
    (hp : Workspace.Progress cause e.toWorkspace w) : Recalling Past (e.worked w) :=
  fun j p hj => (h j p hj).worked hconsistent hp

theorem told {notices : List Notice} (h : Recalling Past e) : Recalling Past (e.told notices) :=
  fun j p hj => ⟨(h j p hj).hears, (h j p hj).past⟩

theorem delivered (h : Recalling Past e) : Recalling Past (e.delivered rest) :=
  fun j p hj => ⟨(h j p hj).hears, (h j p hj).past⟩

theorem met {rest : List Request} (h : Recalling Past e) : Recalling Past (e.met rest) :=
  fun j p hj => ⟨(h j p hj).hears, (h j p hj).past⟩

theorem requested (h : Recalling Past e) (id : PropagatorId) (priority : Priority)
    (passes : Passes) :
    Recalling Past { e with agenda := e.agenda.request id priority passes } :=
  fun j p hj => ⟨(h j p hj).hears, (h j p hj).past⟩

theorem failed (h : Recalling Past e) (c : Contradiction) : Recalling Past (e.fail c) :=
  fun j p hj => ⟨(h j p hj).hears, (h j p hj).past⟩

end Recalling

theorem Carries.delivered (hpending : e.notifier.pending.entries = (l, events) :: rest)
    (hne : l.propagator ≠ j) : Carries e (e.delivered rest) j p :=
  ⟨fun _ _ => rfl, rfl, rfl, rfl,
    fun _ _ hn => hn.delivered hpending fun hl => absurd (hl ▸ rfl) hne, fun hasks => hasks⟩

theorem Carries.met {r : Request} {rest : List Request} (hr : e.agenda.requests = r :: rest)
    (hne : r.propagator ≠ j) : Carries e (e.met rest) j p :=
  ⟨fun _ _ => rfl, rfl, rfl, rfl, fun _ _ hn => hn, fun hasks => hasks.remains hr hne _⟩

theorem Carries.requested (id : PropagatorId) (priority : Priority) (passes : Passes) :
    Carries e { e with agenda := e.agenda.request id priority passes } j p :=
  ⟨fun _ _ => rfl, rfl, rfl, rfl, fun _ _ hn => hn, fun hasks => hasks.request id priority passes⟩

/-- A propagator that is notified changes no foreign cell. -/
theorem Live.yields_notified_sound (h : Live Nobody e)
    (hpending : e.notifier.pending.entries = (l, events) :: rest)
    (hp : e.propagators.get? l.propagator = some p) :
    Yields l.propagator (p.notified l.localId events) e.toWorkspace
      (fun _ w => Sound p l.propagator e.toWorkspace w)
      fun w => Workspace.Progress (.propagator l.propagator) e.toWorkspace w := by
  rcases h.current l.propagator p hp with hfresh | hinformed
  · refine (yields_notified_of_empty h.consistent.workspace.cells hfresh.may_eq).mono
      (fun _ w hw => ?_) fun _ hw => hw.elim
    obtain rfl : w = e.toWorkspace := hw
    exact .refl h.consistent.workspace
  · have hknows : Knows p False (fun i => False ∨ i = l.localId) e.toWorkspace :=
      ⟨hinformed.accounts, hinformed.counts, fun he => he.elim⟩
    have hevents : events ≠ ∅ := h.pending_ne (l, events) (hpending ▸ List.mem_cons_self)
    exact (yields_notified (A := fun _ => False) (h.ready hp) hknows hevents).mono
      (fun _ _ hw => hw.1.toSound) fun _ hw => hw.progress

theorem Live.yields_pass_sound (h : Live Nobody e) {r : Request} {rest : List Request}
    (hr : e.agenda.requests = r :: rest) (hp : e.propagators.get? r.propagator = some p) :
    Yields r.propagator (p.pass r.propagator r.passes) e.toWorkspace
      (fun _ w => Sound p r.propagator e.toWorkspace w)
      fun w => Workspace.Progress (.propagator r.propagator) e.toWorkspace w := by
  have hknows : r.passes.full = true ∨ Knows p False (fun _ => False) e.toWorkspace := by
    rcases h.current r.propagator p hp with hfresh | hinformed
    · exact Or.inl (Agenda.full_of_covers (hfresh.asks.met h.consistent.nodup hr rfl))
    · exact Or.inr ⟨hinformed.accounts, hinformed.counts, fun he => he.elim⟩
  exact (yields_pass (h.ready hp) hknows).mono
    (fun _ _ hw => hw.1.toSound) fun _ hw => hw.progress

namespace Lasts

variable (hlasts : Lasts Now Past)
include hlasts

theorem others_delivered (h : OthersAbide Now e l.propagator) (hf : Frame Nobody e)
    (hpending : e.notifier.pending.entries = (l, events) :: rest) :
    OthersAbide Now (e.delivered rest) l.propagator := fun i q hne hq =>
  (h i q hne hq).imp (fun hfresh => ⟨hfresh.asks, hfresh.may_eq⟩) fun hnow =>
    hlasts.carried hnow (hf.placed i q hq).grounded (.delivered hpending hne.symm)

theorem others_met {r : Request} {rest : List Request} (h : OthersAbide Now e r.propagator)
    (hf : Frame Nobody e) (hr : e.agenda.requests = r :: rest) :
    OthersAbide Now (e.met rest) r.propagator := fun i q hne hq =>
  (h i q hne hq).imp (fun hfresh => ⟨hfresh.asks.remains hr hne.symm _, hfresh.may_eq⟩) fun hnow =>
    hlasts.carried hnow (hf.placed i q hq).grounded (.met hr hne.symm)

theorem others_requested (h : OthersAbide Now e j) (hf : Frame Nobody e) (id : PropagatorId)
    (priority : Priority) (passes : Passes) :
    OthersAbide Now { e with agenda := e.agenda.request id priority passes } j := fun i q hne hq =>
  (h i q hne hq).imp (fun hfresh => hfresh.requested id priority passes) fun hnow =>
    hlasts.carried hnow (hf.placed i q hq).grounded (.requested id priority passes)

/-- What one propagator does the others are not spared. -/
theorem others_worked (h : OthersAbide Now e j) (hf : Frame Nobody e)
    (hp : e.propagators.get? j = some p) (hw : Sound p j e.toWorkspace w) :
    OthersAbide Now (e.worked w) j := by
  intro i q hne hq
  obtain ⟨hsure, hpossible⟩ := hf.cells_ne hp hq hne
  have hmay : q.may w = q.may e.toWorkspace := hw.places_eq _ hpossible
  refine (h i q hne hq).imp (fun hfresh => ⟨hfresh.asks, hmay.trans hfresh.may_eq⟩) fun hnow => ?_
  refine hlasts.worked hnow hf.consistent.workspace.table (hf.placed i q hq).grounded
    hw.progress.narrows ?_ hmay (hw.value_eq _ hsure)
  rintro ⟨-, hcause⟩
  exact hne (Cause.propagator.inj hcause).symm

omit hlasts in
/-- When the propagator that acted has the trait too, all do. -/
theorem abiding_of_others (h : OthersAbide Now e j) (hrecalls : Recalling Past e)
    (hp : e.propagators.get? j = some p) (hself : Fresh e j p ∨ Now e j p) : Abiding Now Past e := by
  refine ⟨hrecalls, fun _ i q hq => ?_⟩
  by_cases hne : i = j
  · obtain rfl : p = q := Option.some.inj (hp.symm.trans (hne ▸ hq))
    exact hne ▸ hself
  · exact h i q hne hq

/-- A propagator that is notified stays fresh or keeps the trait. -/
theorem yields_notified (h : Abiding Now Past e) (hlive : Live Nobody e)
    (hunreported : e.domains.unreported = #[])
    (hpending : e.notifier.pending.entries = (l, events) :: rest)
    (hp : e.propagators.get? l.propagator = some p) :
    Yields l.propagator (p.notified l.localId events) e.toWorkspace (fun response w =>
      Fresh (((e.delivered rest).worked w).answered l.propagator p response) l.propagator p ∨
        Now (((e.delivered rest).worked w).answered l.propagator p response) l.propagator p)
      fun _ => True := by
  rcases h.now hlive.contradiction_eq l.propagator p hp with hfresh | hnow
  · refine (yields_notified_of_empty hlive.consistent.workspace.cells hfresh.may_eq).mono
      (fun response w hw => Or.inl ?_) fun _ hw => hw.elim
    obtain rfl : w = e.toWorkspace := hw
    cases response with
    | skip => exact ⟨hfresh.asks, hfresh.may_eq⟩
    | enqueue => exact ⟨hfresh.asks.request _ _ _, hfresh.may_eq⟩
  · exact (hlasts.notified hnow hlive hunreported hpending hp).imp fun _ _ => Or.inr

/-! ### Propagation -/

/-- The rounds of propagation keep the trait. -/
theorem closed (e₀ : Engine AmongPropagator) :
    Closed (fun e => Since Nobody e₀ e ∧ Abiding Now Past e)
      fun e => Hopeless Nobody e₀ e ∧ Recalling Past e := by
  refine (closed_since e₀).and (fun {e notices} hsince h hn => ?_)
    (fun {e l events rest p} hsince h hunreported hpending hp => ?_)
    fun {e r rest p} hsince h hunreported hr hp => ?_
  · refine ⟨h.recalls.told, fun hc j p hp => (h.now hc j p hp).imp
      (fun hfresh => ⟨hfresh.asks, hfresh.may_eq⟩) fun hnow => ?_⟩
    exact hlasts.carried hnow (hsince.placed j p hp).grounded ⟨fun _ _ => rfl, rfl, rfl, rfl,
      fun i hi hnews => hnews.told hn ((h.recalls j p hp).hears i hi), fun hasks => hasks⟩
  · have hlive := hsince.toLive
    have hframe := hlive.toFrame.delivered hpending
    have hothers : OthersAbide Now e l.propagator := fun i q _ => h.now hlive.contradiction_eq i q
    have hothers := hlasts.others_delivered hothers hlive.toFrame hpending
    refine ((hlasts.yields_notified h hlive hunreported hpending hp).and
      (hlive.yields_notified_sound hpending hp)).mono (fun response w hw _ => ?_) fun w hw _ => ?_
    · obtain ⟨hself, hsound⟩ := hw
      have hrecalls := h.recalls.delivered.worked hframe.consistent hsound.progress
      have hothers := hlasts.others_worked hothers hframe hp hsound
      cases response with
      | skip => exact abiding_of_others hothers hrecalls hp hself
      | enqueue =>
          have hothers := hlasts.others_requested hothers (hframe.worked hsound.progress)
            l.propagator (Propagator.priority p) .takingUp
          exact abiding_of_others hothers (hrecalls.requested _ _ _) hp hself
    · exact h.recalls.delivered.worked hframe.consistent hw.2
  · have hlive := hsince.toLive
    have hframe := hlive.toFrame.met hr
    have hothers : OthersAbide Now e r.propagator := fun i q _ => h.now hlive.contradiction_eq i q
    have hothers := hlasts.others_met hothers hlive.toFrame hr
    have hnow := h.now hlive.contradiction_eq r.propagator p hp
    refine ((hlasts.pass hnow hlive hunreported hr hp).and
      (hlive.yields_pass_sound hr hp)).mono (fun _ w hw _ => ?_) fun w hw _ => ?_
    · obtain ⟨hself, hsound⟩ := hw
      exact abiding_of_others (hlasts.others_worked hothers hframe hp hsound)
        (h.recalls.met.worked hframe.consistent hsound.progress) hp (Or.inr hself)
    · exact h.recalls.met.worked hframe.consistent hw.2

/-- Propagation comes to a fixed point where the propagators have the trait, or to a contradiction. -/
theorem settle_eq_ok (h : Abiding Now Past e) (hsane : Sane Nobody e)
    (hc : e.contradiction = none) {r : Except Contradiction Unit}
    (hs : Engine.settle e = .ok r e') :
    (r = .ok () ∧ Live Nobody e' ∧ Abiding Now Past e' ∧ e'.Idle) ∨
      ∃ c broken, r = .error c ∧ e' = broken.fail c ∧ Recalling Past broken := by
  have hstart : Since Nobody e e := ⟨hsane.live hc, rfl, fun σ hσ => hσ.1⟩
  rcases (hlasts.closed e).settle_eq_ok ⟨hstart, h⟩ hc hs with
    ⟨hr, ⟨hsince, habiding⟩, hidle⟩ | ⟨c, broken, hr, he', -, hrecalls⟩
  · exact Or.inl ⟨hr, hsince.toLive, habiding, hidle⟩
  · exact Or.inr ⟨c, broken, hr, he', hrecalls⟩

theorem settle (h : Abiding Now Past e) (hsane : Sane Nobody e)
    {r : Except Contradiction Unit} (hs : Engine.settle e = .ok r e') : Abiding Now Past e' := by
  cases hc : e.contradiction with
  | some c =>
      rw [settle_of_contradiction hc] at hs
      obtain ⟨-, rfl⟩ := EStateM.Result.ok.inj hs
      exact h
  | none =>
      rcases hlasts.settle_eq_ok h hsane hc hs with ⟨-, -, h', -⟩ | ⟨c, broken, -, rfl, hrecalls⟩
      · exact h'
      · exact ⟨hrecalls.failed c, fun hc' => nomatch hc'⟩

/-! ### Runs -/

theorem requested (h : Abiding Now Past e) (hf : Frame Nobody e) (id : PropagatorId)
    (priority : Priority) (passes : Passes) :
    Abiding Now Past { e with agenda := e.agenda.request id priority passes } :=
  ⟨h.recalls.requested id priority passes, fun hc j p hp => (h.now hc j p hp).imp
    (fun hfresh => hfresh.requested id priority passes) fun hnow =>
      hlasts.carried hnow (hf.placed j p hp).grounded (.requested id priority passes)⟩

/-- A decision is taken. -/
theorem narrowed (h : Abiding Now Past e) (hf : Frame Nobody e) {B : DomainId → Prop}
    {domains : Domains} (hn : Domains.Narrows B .decision e.domains domains) :
    Abiding Now Past { e with domains } := by
  have hprogress : Workspace.Progress .decision e.toWorkspace ⟨domains, e.cells, e.journal⟩ :=
    ⟨hn.mono fun _ _ => trivial, .refl hf.consistent.workspace.cells⟩
  refine ⟨h.recalls.worked hf.consistent hprogress, fun hc j p hp => ?_⟩
  refine (h.now hc j p hp).imp (fun hfresh => ⟨hfresh.asks, hfresh.may_eq⟩) fun hnow => ?_
  exact hlasts.worked (w := ⟨domains, e.cells, e.journal⟩) hnow hf.consistent.workspace.table
    (hf.placed j p hp).grounded hn (fun hspared => nomatch hspared.2) rfl rfl

/-- A domain is added. -/
theorem grown (h : Abiding Now Past e) (hf : Frame Nobody e) (d : Domain) :
    Abiding Now Past (e.grown d) := by
  have hext : ∀ (t : Table DomainId Domain) (id : DomainId), id.index < t.size →
      (t.push d).get? id = t.get? id := fun t _ hid => Table.get?_push_of_lt _ _ hid
  refine ⟨fun j p hp => ⟨fun i hi => ((h.recalls j p hp).hears i hi).grow, fun k hk => ?_⟩,
    fun hc j p hp => ?_⟩
  · have hsize := Domains.size_past e.domains k
    have hg := (hf.placed j p hp).grounded
    have hg : p.Grounded (e.domains.past k) := ⟨fun i hi => (hg.place_lt i hi).trans_eq hsize.symm,
      hg.counter_lt.trans_eq hsize.symm⟩
    change Past _ p ((e.domains.push d).past k) _ _
    rw [Domains.past_push _ hf.consistent.workspace.recorded]
    exact hlasts.further ((h.recalls j p hp).past k hk) hg (hext _)
  · refine (h.now hc j p hp).imp (fun hfresh => ⟨hfresh.asks, hfresh.may_eq⟩) fun hnow => ?_
    exact hlasts.carried hnow (hf.placed j p hp).grounded
      ⟨hext _, rfl, rfl, rfl, fun _ _ hnews => hnews, fun hasks => hasks⟩

omit hlasts in
/-- A propagator that joins hears of what it minds. -/
theorem hears_minds_of_watched {n n' : Notifier} {id : PropagatorId} {scope : List Variable}
    {counter : Variable} {tracked : List Int} {backPropagates : Bool} {made : AmongPropagator}
    (h : Watched n n' id (posting scope counter tracked backPropagates).interests)
    (hmade : made.toAmong = ⟨scope, counter, Ascending.ofList tracked⟩) :
    ∀ i ≤ made.counterId, n'.Hears ⟨id, i⟩ (made.place i).base (made.minds i) := by
  have hscope : made.scope = scope := congrArg Among.scope hmade
  have hcounter : made.counter = counter := congrArg Among.counter hmade
  intro i hi
  rcases Nat.lt_or_eq_of_le hi with hlt | rfl
  · rw [minds_of_lt hlt, Among.place, hscope, hcounter]
    exact (hears_of_watched h).1 i (hscope ▸ hlt)
  · have hwatches := h.listens ⟨counter, .assignAndBounds, scope.length⟩
      (List.mem_append_right _ (List.mem_singleton_self _)) _ _ (watched_eq _ bounds_ne_empty)
    have hid : made.counterId = scope.length := congrArg List.length hscope
    simp only [place_counterId, minds, hcounter, true_and]
    rw [hid]
    exact hwatches

/-- A propagator joins at the root, where nothing was put down yet. -/
theorem joined (h : Abiding Now Past e) (hf : Frame Nobody e) {scope : List Variable}
    {counter : Variable} {tracked : List Int} {backPropagates : Bool} {notifier : Notifier}
    {journal : Array (Message (Propagator.Note AmongPropagator))} (hroot : e.level = 0)
    (hwatched : Watched e.notifier notifier e.propagators.nextKey
      (posting scope counter tracked backPropagates).interests) :
    Abiding Now Past (e.joined (posting scope counter tracked backPropagates) notifier journal) := by
  set e' := e.joined (posting scope counter tracked backPropagates) notifier journal with he'
  set made : AmongPropagator := ⟨⟨scope, counter, Ascending.ofList tracked⟩,
    ⟨e.cells.sets.size⟩, ⟨e.cells.integers.size⟩, backPropagates⟩ with hmade
  obtain ⟨hvalue, hmay, hempty⟩ := contents_joined e scope.length
  have hget : ∀ i q, e'.propagators.get? i = some q →
      e.propagators.get? i = some q ∨ (i = e.propagators.nextKey ∧ q = made) := fun i q hq =>
    (Table.eq_or_of_get?_push hq).imp_left And.right
  have hnone : ∀ k, ¬ k < e'.level := fun k hk => Nat.not_lt_zero k (hk.trans_eq hroot)
  refine ⟨fun i q hq => ⟨fun k hk => ?_, fun k hk => absurd hk (hnone k)⟩, fun hc i q hq => ?_⟩
  · rcases hget i q hq with hold | ⟨rfl, rfl⟩
    · exact hwatched.hears _ _ _ ((h.recalls i q hold).hears k hk)
    · exact hears_minds_of_watched hwatched rfl k hk
  · rcases hget i q hq with hold | ⟨rfl, rfl⟩
    · have hmay' : q.may e'.toWorkspace = q.may e.toWorkspace := congrFun hmay _
      refine (h.now hc i q hold).imp
        (fun hfresh => ⟨hfresh.asks.request _ _ _, hmay'.trans hfresh.may_eq⟩) fun hnow => ?_
      refine hlasts.carried hnow (hf.placed i q hold).grounded ⟨fun _ _ => rfl, hwatched.skipsOwn_eq,
        hmay', congrFun hvalue _, fun k _ hnews => ?_, fun hasks => hasks.request _ _ _⟩
      refine hnews.imp (fun hnotifies => ?_) fun ⟨o, ho, hdomain, hconcerns, hrest⟩ =>
        ⟨o, ho, hdomain, ?_, hrest⟩
      · change Notifier.Notifies notifier _ _
        unfold Notifier.Notifies
        rw [hwatched.pending_eq]
        exact hnotifies
      · change Notifier.Concerns notifier _ _
        unfold Notifier.Concerns
        rw [hwatched.skipsOwn_eq]
        exact hconcerns
    · exact Or.inl ⟨Agenda.asks_request _ _ _ _, (congrFun hmay _).trans hempty⟩

/-- A checkpoint is opened with nothing waiting. -/
theorem entered (h : Abiding Now Past e) (hf : Frame Nobody e) (hidle : e.Idle)
    (hc : e.contradiction = none)
    (journal : Array (Message (Propagator.Note AmongPropagator))) :
    Abiding Now Past (e.entered journal) := by
  have hnow : ∀ j p, e.propagators.get? j = some p → Now e j p := fun j p hp =>
    (h.now hc j p hp).resolve_left fun hfresh => hfresh.asks.of_empty hidle.requests
  refine ⟨fun j p hp => ⟨(h.recalls j p hp).hears, fun k hk => ?_⟩, fun _ j p hp => Or.inr ?_⟩
  · have hk : k ≤ e.domains.level := Nat.le_of_lt_succ (hk.trans_eq (Domains.level_mark _))
    have hk' : k ≤ e.cells.level := hk.trans_eq hf.consistent.workspace.level_eq.symm
    change Past _ p (e.domains.mark.past k) ((e.cells.mark.past k).places p.possible)
      ((e.cells.mark.past k).value p.sure)
    rw [Domains.past_mark _ hk, Cells.past_mark _ hk']
    rcases Nat.lt_or_eq_of_le hk with hlt | rfl
    · exact (h.recalls j p hp).past k hlt
    · have hcells : e.cells.past e.domains.level = e.cells.contents := by
        rw [← hf.consistent.workspace.level_eq, Cells.past_level]
      rw [Domains.past_level, hcells]
      exact hlasts.put_down (e := e) (hnow j p hp) hidle
  · exact hlasts.carried (hnow j p hp) (hf.placed j p hp).grounded
      ⟨fun _ _ => rfl, rfl, rfl, rfl, fun _ _ hnews => hnews, fun hasks => hasks⟩

/-- A restore gives back what was put down. -/
theorem rewound (h : Abiding Now Past e) (hf : Frame Nobody e) {k : Nat} {domains : Domains}
    {cells : Cells} {journal : Array (Message (Propagator.Note AmongPropagator))}
    (hdomains : e.domains.rewind k = .ok domains) (hcells : e.cells.rewind k = .ok cells) :
    Abiding Now Past (e.rewound domains cells journal) := by
  obtain ⟨hk, htable, htrail, -⟩ := Domains.rewind_eq_ok hdomains
  obtain ⟨-, -, -, hcontents, -, hpasts⟩ := Cells.rewind_eq_ok hf.consistent.workspace.cells hcells
  refine ⟨fun j p hp => ⟨(h.recalls j p hp).hears, fun n hn => ?_⟩, fun _ j p hp => Or.inr ?_⟩
  · have hlevel : domains.level = k := by
      rw [Domains.level, htrail, Trail.level_below _ (Nat.le_of_lt hk)]
    have hn : n < k := hn.trans_eq hlevel
    change Past _ p (domains.past n) ((cells.past n).places p.possible) ((cells.past n).value p.sure)
    rw [Domains.past_of_rewind hdomains (Nat.le_of_lt hn), hpasts n (Nat.le_of_lt hn)]
    exact (h.recalls j p hp).past n (hn.trans hk)
  · have hpast := (h.recalls j p hp).past k hk
    rw [← htable, ← hcontents] at hpast
    exact hlasts.taken_up (e := e.rewound domains cells journal) hpast

omit hlasts in
theorem abiding_init (skipsOwn : Bool) : Abiding Now Past (init skipsOwn) := by
  have hnone : ∀ j p, (init skipsOwn : Engine AmongPropagator).propagators.get? j = some p → False :=
    fun j p hp => Nat.not_lt_zero _ (Table.lt_size_of_get? hp)
  exact ⟨fun j p hp => (hnone j p hp).elim, fun _ j p hp => (hnone j p hp).elim⟩

end Lasts

/-- A caller who adds Among constraints at the root, over scopes that can be counted, and opens
checkpoints right after fixed points only. -/
def settledRules : Rules AmongPropagator := amongRules True fun _ _ _ _ => True

theorem Reached.sane {skipsOwn : Bool} {m : Moment AmongPropagator}
    (h : Reached settledRules skipsOwn m) : Sane Nobody m.engine :=
  sane_of_reached (fun _ _ _ _ _ hf => hf.elim) (fun hf => hf.elim) (fun hf => hf.elim) h

/-- Whatever else the rules ask for. -/
theorem settled_of_reached {skipsOwn : Bool} {m : Moment AmongPropagator}
    {accepts : Admission}
    (h : Reached (amongRules True accepts) skipsOwn m) : Reached settledRules skipsOwn m := by
  refine h.weaken ?_ (fun _ hm => hm) id
  rintro e p ⟨hroot, scope, counter, tracked, back, hp, hcountable, -⟩
  exact ⟨hroot, scope, counter, tracked, back, hp, hcountable, trivial⟩

namespace Lasts

variable (hlasts : Lasts Now Past)
include hlasts

/-- In every run in which checkpoints are opened at fixed points the propagators have the trait. -/
theorem of_reached {skipsOwn : Bool} {m : Moment AmongPropagator}
    (h : Reached settledRules skipsOwn m) : Abiding Now Past m.engine := by
  induction h with
  | refl => exact abiding_init skipsOwn
  | @step m' move settled e' hleads hrange hpermit hplay ih =>
      have hsane := Reached.sane hleads
      have hframe := hsane.toFrame
      have hidle := (hleads.consistent ⟨consistent_init skipsOwn, fun hs => (nomatch hs)⟩).2
      have ho := outcome_of_play hframe.consistent.workspace.table hplay
      cases ho with
      | unchanged => exact ih
      | grown hd => exact hlasts.grown ih hframe _
      | joined hwatched =>
          obtain ⟨hroot, scope, counter, tracked, back, rfl, -⟩ := hpermit
          exact hlasts.joined ih hframe hroot hwatched
      | constrained hroot hwatched hsettle =>
          obtain ⟨-, scope, counter, tracked, back, rfl, hcountable, -⟩ := hpermit hroot
          exact hlasts.settle (hlasts.joined ih hframe hroot hwatched)
            (hsane.joined hroot hwatched hcountable fun hf => hf.elim) hsettle
      | replaced => exact hpermit.elim
      | narrowed hn => exact hlasts.narrowed ih hframe hn
      | forced _ => exact hlasts.requested ih hframe _ _ _
      | settled hsettle => exact hlasts.settle ih hsane hsettle
      | marked hrequests _ hc => exact hlasts.entered ih hframe (hidle (hpermit trivial)) hc _
      | rewound hdomains hcells => exact hlasts.rewound ih hframe hdomains hcells

/-- At a fixed point nothing is waiting for any propagator. -/
theorem of_settle {skipsOwn : Bool} {m : Moment AmongPropagator}
    (h : Reached settledRules skipsOwn m) (hs : Engine.settle m.engine = .ok (.ok ()) e') :
    Live Nobody e' ∧ e'.Idle ∧ ∀ j p, e'.propagators.get? j = some p →
      Past skipsOwn p e'.domains.table (p.may e'.toWorkspace) (p.surely e'.toWorkspace) := by
  have hskips : e'.notifier.skipsOwn = skipsOwn :=
    (closed_skipsOwn skipsOwn).settle (fun _ h => h) h.skipsOwn_eq hs
  have hc : m.engine.contradiction = none := by
    cases hc : m.engine.contradiction with
    | none => rfl
    | some c =>
        rw [settle_of_contradiction hc] at hs
        exact nomatch (EStateM.Result.ok.inj hs).1
  rcases hlasts.settle_eq_ok (hlasts.of_reached h) (Reached.sane h) hc hs with
    ⟨-, hlive, habiding, hidle⟩ | ⟨c, broken, hr, -⟩
  · refine ⟨hlive, hidle, fun j p hp => ?_⟩
    have hnow := (habiding.now hlive.contradiction_eq j p hp).resolve_left
      fun hfresh => hfresh.asks.of_empty hidle.requests
    exact hskips ▸ hlasts.put_down hnow hidle
  · exact nomatch hr

end Lasts

end Narrowing.AmongPropagator
