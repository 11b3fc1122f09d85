import Narrowing.Proofs.Engine.Arrival
import Narrowing.Proofs.Engine.Deliveries
import Narrowing.Proofs.Propagator.Risk

/-!
Propagation that is abandoned. Who is told of a change is on a watch list, and only those get there who
asked for it. As long as all of them are there, a round is abandoned only where the propagator is whose
turn it is.
-/

namespace Narrowing

namespace Notifier

variable {n n' : Notifier} {l : Listener} {id : DomainId} {new : Watch} {notices : List Notice}
  {os : List Occurrence}

/-- The listener watches some domain. -/
def Lists (n : Notifier) (l : Listener) : Prop :=
  ∃ id ws, n.watches.get? id = some ws ∧ ∃ w ∈ ws, w.listener = l

theorem mem_of_addWatch {ws : List Watch} {w : Watch} (h : w ∈ addWatch new ws) :
    w.listener = new.listener ∨ ∃ w' ∈ ws, w'.listener = w.listener := by
  induction ws with
  | nil => exact Or.inl (congrArg Watch.listener (List.mem_singleton.1 h))
  | cons w₀ rest ih =>
      have hrest : (∃ w' ∈ rest, w'.listener = w.listener) →
          ∃ w' ∈ w₀ :: rest, w'.listener = w.listener := fun ⟨w', hw', hl⟩ =>
        ⟨w', List.mem_cons_of_mem w₀ hw', hl⟩
      rw [addWatch] at h
      split at h
      · rcases List.mem_cons.1 h with rfl | h
        · exact Or.inr ⟨w₀, List.mem_cons_self, rfl⟩
        · exact Or.inr (hrest ⟨w, h, rfl⟩)
      · rcases List.mem_cons.1 h with rfl | h
        · exact Or.inr ⟨w, List.mem_cons_self, rfl⟩
        · exact (ih h).imp_right hrest

/-- Only the listener that asks for it gets onto a list. -/
theorem Lists.of_watch (h : n'.Lists l) (hn : n.watch id new = .ok n') :
    n.Lists l ∨ l = new.listener := by
  obtain ⟨ws, hws, hn⟩ := Checked.bind_eq_ok hn
  obtain rfl := Except.ok.inj hn
  have hget := (Table.fetch_eq_ok_iff _).1 hws
  obtain ⟨j, ws', hws', w, hw, rfl⟩ := h
  change (n.watches.put id (addWatch new ws)).get? j = some ws' at hws'
  rw [Table.get?_put _ _ (Table.lt_size_of_get? hget)] at hws'
  split at hws'
  · next hj =>
    obtain rfl := Option.some.inj hws'
    rcases mem_of_addWatch hw with hl | ⟨w', hw', hl⟩
    · exact Or.inr hl
    · exact Or.inl ⟨j, ws, hj ▸ hget, w', hw', hl⟩
  · exact Or.inl ⟨j, ws', hws', w, hw, rfl⟩

theorem Lists.of_grow (h : n.grow.Lists l) : n.Lists l := by
  obtain ⟨j, ws, hws, w, hw, hl⟩ := h
  rcases Table.eq_or_of_get?_push hws with ⟨-, hold⟩ | ⟨-, rfl⟩
  · exact ⟨j, ws, hold, w, hw, hl⟩
  · exact nomatch hw

/-- Notices are for those that are listed. -/
theorem lists_of_mem_noticesOfAll (h : n.noticesOfAll os = .ok notices) {x : Notice}
    (hx : x ∈ notices) : n.Lists x.listener := by
  obtain ⟨o, -, ws, hws, w, hw, hsome⟩ := exists_of_mem_noticesOfAll h hx
  exact ⟨o.domain, ws, hws, w, hw, (congrArg Notice.listener (notice?_eq_some hsome)).symm⟩

/-- What is true of those that wait and of those that are listed is true of those that wait once the
notices are added. -/
theorem forall_pending_accept {Q : Listener → Prop} (h : n.noticesOfAll os = .ok notices)
    (hlists : ∀ l, n.Lists l → Q l) (hpending : ∀ x ∈ n.pending.entries, Q x.1) :
    ∀ x ∈ (n.accept notices).pending.entries, Q x.1 := by
  refine Backlog.forall_addAll (Q := fun l _ => Q l) (fun _ _ _ hl _ => hl) hpending fun x hx => ?_
  obtain ⟨notice, hnotice, rfl⟩ := List.mem_map.1 hx
  exact hlists _ (lists_of_mem_noticesOfAll h hnotice)

end Notifier

namespace Engine

open Narrowing.Action

variable {P : Type} [Propagator P] {e e' : Engine P} {hazard : Fault → Engine P → Prop}

/-- A propagator that is added gets onto lists for its interests only. -/
theorem ends_watchAll_lists (id : PropagatorId) (interests : List Interest) :
    Ends (watchAll id interests) e (fun _ e' => e'.propagators = e.propagators ∧
      ∀ l, e'.notifier.Lists l → e.notifier.Lists l ∨ ∃ i ∈ interests, l = ⟨id, i.localId⟩)
      fun _ _ => True := by
  induction interests generalizing e with
  | nil => exact ⟨rfl, fun l hl => Or.inl hl⟩
  | cons i rest ih =>
      have hrest : ∀ n, (∀ l, n.Lists l → e.notifier.Lists l ∨ l = ⟨id, i.localId⟩) →
          Ends (watchAll id rest) { e with notifier := n } (fun _ e' =>
            e'.propagators = e.propagators ∧ ∀ l, e'.notifier.Lists l →
              e.notifier.Lists l ∨ ∃ j ∈ i :: rest, l = ⟨id, j.localId⟩) fun _ _ => True := by
        intro n hn
        refine (ih (e := { e with notifier := n })).imp fun _ e₁ h₁ => ⟨h₁.1, fun l hl => ?_⟩
        rcases h₁.2 l hl with hl | ⟨j, hj, hl⟩
        · exact (hn l hl).imp_right fun hl => ⟨i, List.mem_cons_self, hl⟩
        · exact Or.inr ⟨j, List.mem_cons_of_mem i hj, hl⟩
      rw [watchAll]
      cases hw : i.subject.watched i.events with
      | none => exact ends_bind (ends_pure (hrest e.notifier fun l hl => Or.inl hl))
      | some watched =>
          refine ends_bind (ends_get (ends_bind (ends_checked (fun n hn => ?_) fun _ => trivial)))
          exact ends_bind (ends_modify (hrest n fun l hl => hl.of_watch hn))

theorem ends_add_lists (p : Posting P) :
    Ends (add p) e (fun _ e' => ∀ l, e'.notifier.Lists l → e.notifier.Lists l ∨
      ∃ i ∈ p.interests, l = ⟨e.propagators.nextKey, i.localId⟩) fun _ _ => True := by
  refine ends_bind (ends_get ((ends_watchAll_lists _ _).bind fun _ e₁ h₁ => ?_))
  refine ends_bind (ends_bind (ends_get (ends_checked (fun notes _ => ?_) fun _ => trivial)))
  refine ends_bind (ends_get (ends_bind (ends_modify (ends_bind (ends_modify ?_)))))
  exact ends_bind (ends_requestPass fun q _ => ends_pure h₁.2)

/-! ### Rounds -/

/-- A step that was abandoned left a hazard. -/
def Faulted (hazard : Fault → Engine P → Prop) (stop : Stop) (e : Engine P) : Prop :=
  ∀ f, stop = .fault f → hazard f e

theorem ends_within_of_ok {α : Type} {m : Operation P α} {a : α} {post : α → Engine P → Prop}
    {fail : Stop → Engine P → Prop} (h : m e = .ok a e') (hpost : post a e') :
    Ends (within m) e post fail := by
  unfold Ends within
  rwa [h]

/-- A notification that finds its propagator is abandoned only where the propagator is. -/
theorem ends_notify_risks {l : Listener} {events : EventSet} {p : P}
    (hp : e.propagators.get? l.propagator = some p)
    (h : Risks l.propagator (Propagator.notified p l.propagator l.localId events) e.toWorkspace
      (fun _ _ => True) fun f w => hazard f (e.worked w)) :
    Ends (carryOut (.notify l events)) e (fun _ _ => True) (Faulted hazard) := by
  refine ends_bind (ends_within_of_ok (checked_of_ok ((Table.fetch_eq_ok_iff _).2 hp)) ?_)
  refine ends_bind (ends_act_of (h.imp fun response w _ => ?_))
  cases response with
  | skip => exact trivial
  | enqueue =>
      have hfound : propagator l.propagator (e.worked w) = .ok p (e.worked w) :=
        checked_of_ok ((Table.fetch_eq_ok_iff _).2 hp)
      exact ends_within_of_ok ((bind_of_ok hfound).trans rfl) trivial

theorem ends_pass_risks {r : Request} {p : P} (hp : e.propagators.get? r.propagator = some p)
    (h : Risks r.propagator (Propagator.pass p r.propagator r.passes) e.toWorkspace
      (fun _ _ => True) fun f w => hazard f (e.worked w)) :
    Ends (carryOut (.pass r)) e (fun _ _ => True) (Faulted hazard) := by
  refine ends_bind (ends_within_of_ok (checked_of_ok ((Table.fetch_eq_ok_iff _).2 hp)) ?_)
  exact ends_act_of h

/-- A round is abandoned only where the propagator is whose turn it is. -/
theorem ends_round_risks
    (hreport : ∃ notices, e.notifier.noticesOfAll e.domains.unreported.toList = .ok notices)
    (h : ∀ e' notices, e.notifier.noticesOfAll e.domains.unreported.toList = .ok notices →
      e' = e.told notices →
      (∀ l events rest, e'.notifier.pending.entries = (l, events) :: rest →
        ∃ p, e'.propagators.get? l.propagator = some p ∧
          Risks l.propagator (Propagator.notified p l.propagator l.localId events) e'.toWorkspace
            (fun _ _ => True) fun f w => hazard f ((e'.delivered rest).worked w)) ∧
      (∀ r rest, e'.notifier.pending.entries = [] → e'.agenda.requests = r :: rest →
        ∃ p, e'.propagators.get? r.propagator = some p ∧
          Risks r.propagator (Propagator.pass p r.propagator r.passes) e'.toWorkspace
            (fun _ _ => True) fun f w => hazard f ((e'.met rest).worked w))) :
    Ends round e (fun _ _ => True) (Faulted hazard) := by
  refine ends_round_from (fun f hf => ?_) fun e' notices hn he' => ⟨fun l events rest hpending => ?_,
    fun r rest hpending hrequests => ?_, fun _ _ => trivial⟩
  · obtain ⟨notices, hn⟩ := hreport
    exact nomatch hf.symm.trans hn
  · obtain ⟨p, hp, hrisks⟩ := (h e' notices hn he').1 l events rest hpending
    exact ends_notify_risks (e := e'.delivered rest) hp hrisks
  · obtain ⟨p, hp, hrisks⟩ := (h e' notices hn he').2 r rest hpending hrequests
    exact ends_pass_risks (e := e'.met rest) hp hrisks

end Engine

end Narrowing
