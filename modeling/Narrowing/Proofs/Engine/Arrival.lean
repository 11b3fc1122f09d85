import Narrowing.Proofs.Engine.Termination
import Narrowing.Proofs.Propagator.Success

/-!
Propagation that comes to a fixed point. Rounds come to an end of their own, so if none of them stops
there is an end that is a fixed point. A round does not stop if all that is left to do is a pass that
succeeds.
-/

namespace Narrowing.Engine

open Narrowing.Action

variable {P : Type} [Propagator P] {e : Engine P} {Inv : Engine P → Prop}

/-- With nothing to report an engine is as it was once it has told its changes. -/
theorem told_nil (h : e.domains.unreported = #[]) : e.told [] = e := by
  obtain ⟨⟨⟨table, unreported, trail⟩, cells, journal⟩, notifier, agenda, propagators, contradiction⟩ := e
  subst h
  simp [told, Domains.reported, Notifier.accept, Backlog.addAll]

theorem act_of_ok {α : Type} {id : PropagatorId} {action : Action (Propagator.Note P) α} {a : α}
    {w : Workspace (Propagator.Note P)} (h : action.run id e.toWorkspace = .ok a w) :
    act id action e = .ok a (e.worked w) := by
  obtain ⟨workspace, notifier, agenda, propagators, contradiction⟩ := e
  unfold act
  dsimp only at h ⊢
  rw [h]
  rfl

theorem within_propagator {id : PropagatorId} {p : P} (h : e.propagators.get? id = some p) :
    within (propagator id) e = .ok p e := by
  have hp : propagator id e = .ok p e := checked_of_ok ((Table.fetch_eq_ok_iff _).2 h)
  unfold within
  rw [hp]

/-- A round of an engine in which only passes are left to make. -/
theorem exists_round (hunreported : e.domains.unreported = #[])
    (hpending : e.notifier.pending.entries = []) (hidle : e.agenda.requests = [] → Inv e)
    (hpass : ∀ r rest, e.agenda.requests = r :: rest →
      ∃ p, e.propagators.get? r.propagator = some p ∧
        Succeeds r.propagator (Propagator.pass p r.propagator r.passes) e.toWorkspace
          fun _ w => Inv ((e.met rest).worked w)) :
    ∃ more e', round e = .ok more e' ∧ Inv e' := by
  have hnotices : e.notifier.noticesOfAll e.domains.unreported.toList = .ok [] := by
    rw [hunreported]
    rfl
  cases hrequests : e.agenda.requests with
  | nil =>
      refine ⟨false, e, ?_, hidle hrequests⟩
      have hreport : Engine.report e = .ok () e := by
        unfold Engine.report
        rw [hnotices]
        exact congrArg _ (told_nil hunreported)
      refine (bind_of_ok hreport).trans ((bind_of_ok rfl).trans ?_)
      rw [due_of_nothing hpending hrequests]
      rfl
  | cons r rest =>
      obtain ⟨p, hp, u, w, hrun, hinv⟩ := hpass r rest hrequests
      refine ⟨true, (e.met rest).worked w, ?_, hinv⟩
      have htask : e.upcoming = some (.pass r, e.met rest) := by
        rw [upcoming_of_told hnotices, told_nil hunreported, due_of_requests hpending hrequests]
      have hcarry : carryOut (.pass r) (e.met rest) = .ok () ((e.met rest).worked w) :=
        (bind_of_ok (within_propagator (e := e.met rest) hp)).trans (act_of_ok hrun)
      exact (round_of_upcoming htask).trans (bind_of_ok hcarry)

/-- Propagation ends as its last round does. -/
theorem settle_of_rounds {stop : Stop → Engine P → Prop}
    (hround : ∀ e, Inv e → Ends round e (fun _ e' => Inv e') stop) (hinv : Inv e)
    (hconsistent : Consistent e) (hc : e.contradiction = none) :
    (∃ e', settle e = .ok (.ok ()) e' ∧ Inv e') ∨
      (∃ c e', settle e = .ok (.error c) (e'.fail c) ∧ stop (.contradiction c) e') ∨
      ∃ f e', settle e = .error f e' ∧ stop (.fault f) e' := by
  have hproceeds : ∀ {tasks e'}, Proceeds e tasks e' → Inv e' := by
    intro tasks e' h
    induction h with
    | refl => exact hinv
    | round _ _ hr ih => exact (hround _ ih).of_ok hr
  have hends : Concludes e (rounds e.roundBound e) := by
    refine concludes_rounds hconsistent ?_
    rw [roundBound_eq]
    exact Nat.lt_succ_self _
  unfold settle
  rw [hc]
  dsimp only
  generalize rounds e.roundBound e = result at hends ⊢
  cases hends with
  | idle h hlast => exact Or.inl ⟨_, rfl, (hround _ (hproceeds h)).of_ok hlast⟩
  | @stop _ _ e' reason h hlast =>
      have hstop := (hround _ (hproceeds h)).of_error hlast
      cases reason with
      | contradiction c => exact Or.inr (Or.inl ⟨c, e', rfl, hstop⟩)
      | fault f => exact Or.inr (Or.inr ⟨f, e', rfl, hstop⟩)

/-- Propagation comes to a fixed point if no round stops. -/
theorem settle_eq_ok_of_rounds (hround : ∀ e, Inv e → ∃ more e', round e = .ok more e' ∧ Inv e')
    (hinv : Inv e) (hconsistent : Consistent e) (hc : e.contradiction = none) :
    ∃ e', settle e = .ok (.ok ()) e' ∧ Inv e' := by
  have hends : ∀ e, Inv e → Ends round e (fun _ e' => Inv e') fun _ _ => False := by
    intro e h
    obtain ⟨more, e', hr, hinv'⟩ := hround e h
    unfold Ends
    rwa [hr]
  rcases settle_of_rounds hends hinv hconsistent hc with hok | ⟨_, _, -, hf⟩ | ⟨_, _, -, hf⟩
  · exact hok
  · exact hf.elim
  · exact hf.elim

end Narrowing.Engine
