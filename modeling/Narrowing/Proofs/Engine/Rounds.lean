import Narrowing.Engine.FixedPoint
import Narrowing.Proofs.Propagator.Action

/-!
Propagation round by round. A round does one of three things: it turns changes into notifications,
it delivers a notification, or it makes a pass. A property that is `Closed` under the three holds when
propagation comes to a fixed point, and there nothing is waiting.
-/

namespace Narrowing.Engine

open Narrowing.Action

variable {P : Type} [Propagator P] {e e' : Engine P} {Inv Broken : Engine P → Prop}

/-- Nothing is waiting: no change to be reported, no notification and no pass. -/
structure Idle (e : Engine P) : Prop where
  unreported : e.domains.unreported = #[]
  pending : e.notifier.pending.entries = []
  requests : e.agenda.requests = []

/-- The engine once its changes have become notices. -/
def told (e : Engine P) (notices : List Notice) : Engine P :=
  { e with
    domains := e.domains.reported
    journal := e.journal ++ notices.map (@Message.notified (Propagator.Note P))
    notifier := e.notifier.accept notices }

/-- The engine once all notifications but `rest` are delivered. -/
def delivered (e : Engine P) (rest : List (Listener × EventSet)) : Engine P :=
  { e with notifier := { e.notifier with pending := ⟨rest⟩ } }

/-- The engine once all requests but `rest` are met; one of them was. -/
def met (e : Engine P) (rest : List Request) : Engine P :=
  { e with agenda := ⟨rest, e.agenda.waiting - 1⟩ }

/-- The engine once a propagator has answered to a notification. -/
def answered (e : Engine P) (id : PropagatorId) (p : P) : Response → Engine P
  | .enqueue => { e with agenda := e.agenda.request id (Propagator.priority p) .takingUp }
  | .skip => e

/-- The engine with the workspace that an action left. -/
def worked (e : Engine P) (w : Workspace (Propagator.Note P)) : Engine P :=
  { e with toWorkspace := w }

/-- Every part of a round keeps `Inv`, or comes to a contradiction and leaves an engine that is
`Broken`. -/
structure Closed (Inv Broken : Engine P → Prop) : Prop where
  report : ∀ {e : Engine P} {notices : List Notice}, Inv e →
    e.notifier.noticesOfAll e.domains.unreported.toList = .ok notices → Inv (e.told notices)
  notify : ∀ {e : Engine P} {l : Listener} {events : EventSet} {rest : List (Listener × EventSet)}
    {p : P}, Inv e → e.domains.unreported = #[] → e.notifier.pending.entries = (l, events) :: rest →
    e.propagators.get? l.propagator = some p →
    Yields l.propagator (Propagator.notified p l.propagator l.localId events) e.toWorkspace
      (fun response w => Inv (((e.delivered rest).worked w).answered l.propagator p response))
      fun w => Broken ((e.delivered rest).worked w)
  pass : ∀ {e : Engine P} {r : Request} {rest : List Request} {p : P}, Inv e →
    e.domains.unreported = #[] → e.agenda.requests = r :: rest →
    e.propagators.get? r.propagator = some p →
    Yields r.propagator (Propagator.pass p r.propagator r.passes) e.toWorkspace
      (fun _ w => Inv ((e.met rest).worked w)) fun w => Broken ((e.met rest).worked w)

/-- A step that stopped for a contradiction left an engine that is `Broken`. -/
def Stopped (Broken : Engine P → Prop) (stop : Stop) (e : Engine P) : Prop :=
  ∀ c, stop = .contradiction c → Broken e

theorem checked_of_ok {α : Type} {c : Checked α} {a : α} (h : c = .ok a) :
    (checked c : Operation P α) e = .ok a e := by
  rw [h]
  rfl

theorem ends_checked {α : Type} {c : Checked α} {post : α → Engine P → Prop}
    {fail : Fault → Engine P → Prop} (h : ∀ a, c = .ok a → post a e) (hf : ∀ f, fail f e) :
    Ends (checked c : Operation P α) e post fail := by
  cases c with
  | ok a => exact h a rfl
  | error f => exact hf f

theorem ends_within {α : Type} {m : Operation P α} {post : α → Engine P → Prop}
    (h : Ends m e post fun _ _ => True) :
    Ends (within m) e post (Stopped Broken) := by
  unfold Ends within at *
  cases hm : m e with
  | ok a e' =>
      rw [hm] at h
      exact h
  | error f e' => exact fun c hc => nomatch hc

/-- A propagator that acts changes the workspace only. -/
theorem ends_act_of {α : Type} {id : PropagatorId} {action : Action (Propagator.Note P) α}
    {post : α → Engine P → Prop} {fail : Stop → Engine P → Prop}
    (h : Ends (action.run id) e.toWorkspace (fun a w => post a (e.worked w)) fun stop w =>
      fail stop (e.worked w)) : Ends (act id action) e post fail := by
  obtain ⟨workspace, notifier, agenda, propagators, contradiction⟩ := e
  unfold Ends at h
  unfold Ends act
  dsimp only at h ⊢
  cases hr : action.run id workspace with
  | ok a w =>
      rw [hr] at h
      exact h
  | error stop w =>
      rw [hr] at h
      exact h

theorem ends_act {α : Type} {id : PropagatorId} {action : Action (Propagator.Note P) α}
    {post : α → Engine P → Prop}
    (h : Yields id action e.toWorkspace (fun a w => post a (e.worked w)) fun w =>
      Broken (e.worked w)) :
    Ends (act id action) e post (Stopped Broken) :=
  ends_act_of h

theorem ends_propagator {id : PropagatorId} {post : P → Engine P → Prop}
    (h : ∀ p, e.propagators.get? id = some p → post p e) :
    Ends (propagator id) e post fun _ _ => True := by
  refine ends_bind (ends_get (ends_checked (fun p hp => h p ?_) fun _ => trivial))
  exact (Table.fetch_eq_ok_iff _).1 hp

theorem ends_requestPass {id : PropagatorId} {passes : Passes} {post : Unit → Engine P → Prop}
    (h : ∀ p, e.propagators.get? id = some p →
      post () { e with agenda := e.agenda.request id (Propagator.priority p) passes }) :
    Ends (requestPass id passes) e post fun _ _ => True :=
  ends_bind (ends_propagator fun p hp => ends_modify (h p hp))

/-- The task of the next round, and the engine in which it is carried out. -/
def upcoming (e : Engine P) : Option (Task × Engine P) :=
  match Engine.report e with
  | .ok () e' => e'.due
  | .error _ _ => none

theorem upcoming_of_told {notices : List Notice}
    (hn : e.notifier.noticesOfAll e.domains.unreported.toList = .ok notices) :
    e.upcoming = (e.told notices).due := by
  unfold upcoming Engine.report
  rw [hn]
  rfl

theorem due_of_pending {first : Listener × EventSet} {rest : List (Listener × EventSet)}
    (h : e.notifier.pending.entries = first :: rest) :
    e.due = some (.notify first.1 first.2, e.delivered rest) := by
  simp only [delivered, due, Notifier.pop?, Backlog.pop?, h, Option.map_some]

theorem due_of_requests {r : Request} {rest : List Request}
    (hpending : e.notifier.pending.entries = []) (h : e.agenda.requests = r :: rest) :
    e.due = some (.pass r, e.met rest) := by
  simp only [met, due, Notifier.pop?, Backlog.pop?, hpending, Agenda.pop?, h, Option.map_none,
    Option.map_some]

theorem due_of_nothing (hpending : e.notifier.pending.entries = [])
    (h : e.agenda.requests = []) : e.due = none := by
  simp only [due, Notifier.pop?, Backlog.pop?, hpending, Agenda.pop?, h, Option.map_none]

/-- A delivered notification, and the request that it may lead to. -/
theorem ends_notify {l : Listener} {events : EventSet} {post : Unit → Engine P → Prop}
    (h : ∀ p, e.propagators.get? l.propagator = some p →
      Yields l.propagator (Propagator.notified p l.propagator l.localId events) e.toWorkspace
        (fun response w => post () ((e.worked w).answered l.propagator p response))
        fun w => Broken (e.worked w)) :
    Ends (carryOut (.notify l events)) e post (Stopped Broken) := by
  refine ends_bind (ends_within (ends_propagator fun p hp => ?_))
  refine ends_bind (ends_act ((h p hp).imp fun response w hw => ?_))
  cases response with
  | skip => exact hw
  | enqueue =>
      refine ends_within (ends_requestPass fun q hq => ?_)
      obtain rfl : p = q := Option.some.inj (hp.symm.trans hq)
      exact hw

theorem ends_pass {r : Request} {post : Unit → Engine P → Prop}
    (h : ∀ p, e.propagators.get? r.propagator = some p →
      Yields r.propagator (Propagator.pass p r.propagator r.passes) e.toWorkspace
        (fun u w => post u (e.worked w)) fun w => Broken (e.worked w)) :
    Ends (carryOut (.pass r)) e post (Stopped Broken) :=
  ends_bind (ends_within (ends_propagator fun p hp => ends_act (h p hp)))

/-- A round, from what is done in it. -/
theorem ends_round_from {post : Bool → Engine P → Prop} {fail : Stop → Engine P → Prop}
    (hreport : ∀ f, e.notifier.noticesOfAll e.domains.unreported.toList = .error f → fail (.fault f) e)
    (h : ∀ e' notices, e.notifier.noticesOfAll e.domains.unreported.toList = .ok notices →
      e' = e.told notices →
      (∀ l events rest, e'.notifier.pending.entries = (l, events) :: rest →
        Ends (carryOut (.notify l events)) (e'.delivered rest) (fun _ e'' => post true e'') fail) ∧
      (∀ r rest, e'.notifier.pending.entries = [] → e'.agenda.requests = r :: rest →
        Ends (carryOut (.pass r)) (e'.met rest) (fun _ e'' => post true e'') fail) ∧
      (e'.notifier.pending.entries = [] → e'.agenda.requests = [] → post false e')) :
    Ends round e post fail := by
  have hends : Ends Engine.report e (fun _ e' => ∃ notices,
      e.notifier.noticesOfAll e.domains.unreported.toList = .ok notices ∧ e' = e.told notices)
      fail := by
    unfold Ends Engine.report
    cases hn : e.notifier.noticesOfAll e.domains.unreported.toList with
    | error f => exact hreport f hn
    | ok notices => exact ⟨notices, rfl, rfl⟩
  refine hends.bind fun _ e' h' => ?_
  obtain ⟨notices, hn, he'⟩ := h'
  obtain ⟨hnotify, hpass, hidle⟩ := h e' notices hn he'
  refine ends_bind (ends_get ?_)
  cases hpending : e'.notifier.pending.entries with
  | cons first rest =>
      rw [due_of_pending hpending]
      refine ends_bind (ends_set (ends_bind ?_))
      exact (hnotify first.1 first.2 rest hpending).imp fun _ _ hw => ends_pure hw
  | nil =>
      cases hrequests : e'.agenda.requests with
      | cons r rest =>
          rw [due_of_requests hpending hrequests]
          refine ends_bind (ends_set (ends_bind ?_))
          exact (hpass r rest hpending hrequests).imp fun _ _ hw => ends_pure hw
      | nil =>
          rw [due_of_nothing hpending hrequests]
          exact ends_pure (hidle hpending hrequests)

/-- A round, from what its parts do. -/
theorem ends_round_of {post : Bool → Engine P → Prop}
    (h : ∀ e' notices, e.notifier.noticesOfAll e.domains.unreported.toList = .ok notices →
      e' = e.told notices →
      (∀ l events rest p, e'.notifier.pending.entries = (l, events) :: rest →
        e'.propagators.get? l.propagator = some p →
        Yields l.propagator (Propagator.notified p l.propagator l.localId events) e'.toWorkspace
          (fun response w =>
            post true (((e'.delivered rest).worked w).answered l.propagator p response))
          fun w => Broken ((e'.delivered rest).worked w)) ∧
      (∀ r rest p, e'.notifier.pending.entries = [] → e'.agenda.requests = r :: rest →
        e'.propagators.get? r.propagator = some p →
        Yields r.propagator (Propagator.pass p r.propagator r.passes) e'.toWorkspace
          (fun _ w => post true ((e'.met rest).worked w)) fun w => Broken ((e'.met rest).worked w)) ∧
      (e'.notifier.pending.entries = [] → e'.agenda.requests = [] → post false e')) :
    Ends round e post (Stopped Broken) := by
  refine ends_round_from (fun f _ c hc => nomatch hc) fun e' notices hn he' => ?_
  obtain ⟨hnotify, hpass, hidle⟩ := h e' notices hn he'
  exact ⟨fun l events rest hpending => ends_notify fun p hp => hnotify l events rest p hpending hp,
    fun r rest hpending hrequests => ends_pass fun p hp => hpass r rest p hpending hrequests hp, hidle⟩

namespace Closed

variable (h : Closed Inv Broken)
include h

/-- A round keeps the property, and finds nothing to do only where nothing is waiting. -/
theorem ends_round (hinv : Inv e) :
    Ends round e (fun more e' => Inv e' ∧ (more = false → e'.Idle))
      (Stopped Broken) := by
  refine ends_round_of fun e' notices hn he' => ?_
  have hinv' : Inv e' := he' ▸ h.report hinv hn
  have hreported : e'.domains.unreported = #[] := he' ▸ rfl
  refine ⟨fun l events rest p hpending hp => ?_, fun r rest p _ hrequests hp => ?_, ?_⟩
  · exact (h.notify hinv' hreported hpending hp).imp fun _ _ hw => ⟨hw, fun hf => nomatch hf⟩
  · exact (h.pass hinv' hreported hrequests hp).imp fun _ _ hw => ⟨hw, fun hf => nomatch hf⟩
  · exact fun hpending hrequests => ⟨hinv', fun _ => ⟨hreported, hpending, hrequests⟩⟩

theorem ends_rounds (n : Nat) (hinv : Inv e) :
    Ends (rounds n) e (fun _ e' => Inv e' ∧ e'.Idle)
      (Stopped Broken) := by
  induction n generalizing e with
  | zero => exact fun c hc => nomatch hc
  | succ n ih =>
      refine (h.ends_round hinv).bind fun more e₁ h₁ => ?_
      cases more with
      | true => exact ih h₁.1
      | false => exact ends_pure ⟨h₁.1, h₁.2 rfl⟩

/-- Propagation comes to a fixed point with the property, or to a contradiction. -/
theorem settle_eq_ok (hinv : Inv e) (hc : e.contradiction = none) {r : Except Contradiction Unit}
    (hs : settle e = .ok r e') :
    (r = .ok () ∧ Inv e' ∧ e'.Idle) ∨
      ∃ c broken, r = .error c ∧ e' = broken.fail c ∧ Broken broken := by
  have hrounds := h.ends_rounds e.roundBound hinv
  unfold settle at hs
  rw [hc] at hs
  dsimp only at hs
  cases hr : rounds e.roundBound e with
  | ok u e₁ =>
      rw [hr] at hs
      obtain ⟨rfl, rfl⟩ := EStateM.Result.ok.inj hs
      exact Or.inl ⟨rfl, hrounds.of_ok hr⟩
  | error stop e₁ =>
      rw [hr] at hs
      cases stop with
      | contradiction c =>
          obtain ⟨rfl, rfl⟩ := EStateM.Result.ok.inj hs
          exact Or.inr ⟨c, e₁, rfl, rfl, hrounds.of_error hr c rfl⟩
      | fault f => exact nomatch hs

/-- Propagation keeps the property, if coming to a contradiction restores it. -/
theorem settle (hfail : ∀ {e : Engine P} (c : Contradiction), Broken e → Inv (e.fail c))
    (hinv : Inv e) {r : Except Contradiction Unit} (hs : Engine.settle e = .ok r e') : Inv e' := by
  cases hc : e.contradiction with
  | some c =>
      rw [settle_of_contradiction hc] at hs
      obtain ⟨-, rfl⟩ := EStateM.Result.ok.inj hs
      exact hinv
  | none =>
      rcases h.settle_eq_ok hinv hc hs with ⟨-, h', -⟩ | ⟨c, broken, -, rfl, h'⟩
      · exact h'
      · exact hfail c h'

/-- Two properties are closed together, if each part of a round that keeps the first keeps the second
where it held. -/
theorem and {Inv' Broken' : Engine P → Prop}
    (report : ∀ {e : Engine P} {notices : List Notice}, Inv e → Inv' e →
      e.notifier.noticesOfAll e.domains.unreported.toList = .ok notices → Inv' (e.told notices))
    (notify : ∀ {e : Engine P} {l : Listener} {events : EventSet}
      {rest : List (Listener × EventSet)} {p : P}, Inv e → Inv' e → e.domains.unreported = #[] →
      e.notifier.pending.entries = (l, events) :: rest →
      e.propagators.get? l.propagator = some p →
      Yields l.propagator (Propagator.notified p l.propagator l.localId events) e.toWorkspace
        (fun response w => Inv (((e.delivered rest).worked w).answered l.propagator p response) →
          Inv' (((e.delivered rest).worked w).answered l.propagator p response))
        fun w => Broken ((e.delivered rest).worked w) → Broken' ((e.delivered rest).worked w))
    (pass : ∀ {e : Engine P} {r : Request} {rest : List Request} {p : P}, Inv e → Inv' e →
      e.domains.unreported = #[] → e.agenda.requests = r :: rest →
      e.propagators.get? r.propagator = some p →
      Yields r.propagator (Propagator.pass p r.propagator r.passes) e.toWorkspace
        (fun _ w => Inv ((e.met rest).worked w) → Inv' ((e.met rest).worked w))
        fun w => Broken ((e.met rest).worked w) → Broken' ((e.met rest).worked w)) :
    Closed (fun e => Inv e ∧ Inv' e) fun e => Broken e ∧ Broken' e where
  report hinv hn := ⟨h.report hinv.1 hn, report hinv.1 hinv.2 hn⟩
  notify hinv hunreported hpending hp :=
    ((h.notify hinv.1 hunreported hpending hp).and
      (notify hinv.1 hinv.2 hunreported hpending hp)).mono
      (fun _ _ hw => ⟨hw.1, hw.2 hw.1⟩) fun _ hw => ⟨hw.1, hw.2 hw.1⟩
  pass hinv hunreported hr hp :=
    ((h.pass hinv.1 hunreported hr hp).and (pass hinv.1 hinv.2 hunreported hr hp)).mono
      (fun _ _ hw => ⟨hw.1, hw.2 hw.1⟩) fun _ hw => ⟨hw.1, hw.2 hw.1⟩

end Closed

end Narrowing.Engine
