import Narrowing.Proofs.Propagator.Success
import Narrowing.Proofs.Variable.Verdict

/-!
Actions that may be abandoned. The rules for `Yields` leave a fault out of account; the ones here say
what is true if an action is abandoned, so that it is never abandoned where that is false.
-/

namespace Narrowing.Action

variable {ν α β : Type} {self : PropagatorId} {w : Workspace ν}

/-- Carried out in `w`, the action ends with an answer and a workspace as in `post`, or with a
contradiction. If it is abandoned, then for a fault and in a workspace as in `hazard`. -/
def Risks (self : PropagatorId) (m : Action ν α) (w : Workspace ν) (post : α → Workspace ν → Prop)
    (hazard : Fault → Workspace ν → Prop) : Prop :=
  Ends (m.run self) w post fun e w' => ∀ f, e = .fault f → hazard f w'

variable {post post' : α → Workspace ν → Prop} {hazard hazard' : Fault → Workspace ν → Prop}

theorem Risks.mono {m : Action ν α} (h : Risks self m w post hazard)
    (hpost : ∀ a w', post a w' → post' a w') (hhazard : ∀ f w', hazard f w' → hazard' f w') :
    Risks self m w post' hazard' :=
  Ends.mono h hpost fun _ _ hf f he => hhazard f _ (hf f he)

theorem Risks.imp {m : Action ν α} (h : Risks self m w post hazard)
    (hpost : ∀ a w', post a w' → post' a w') : Risks self m w post' hazard :=
  h.mono hpost fun _ _ hf => hf

/-- What an action comes to holds, too, where it is at risk. -/
theorem Risks.and {m : Action ν α} {stop : Workspace ν → Prop} (h : Risks self m w post hazard)
    (h' : Yields self m w post' stop) :
    Risks self m w (fun a w' => post a w' ∧ post' a w') hazard :=
  Ends.mono (Ends.and h h') (fun _ _ hp => hp) fun _ _ hf => hf.1

/-- An action that is carried through is at no risk. -/
theorem Succeeds.risks {m : Action ν α} (h : Succeeds self m w post) : Risks self m w post hazard := by
  obtain ⟨a, w', hok, hpost⟩ := h
  unfold Risks Ends
  rw [hok]
  exact hpost

theorem risks_pure {a : α} (h : post a w) : Risks self (pure a) w post hazard := h

theorem risks_contradict {c : Contradiction} :
    Risks self (.contradict c : Action ν α) w post hazard := fun _ hf => nomatch hf

theorem risks_bind {m : Action ν α} {f : α → Action ν β} {post : β → Workspace ν → Prop}
    (h : Risks self m w (fun a w' => Risks self (f a) w' post hazard) hazard) :
    Risks self (m >>= f) w post hazard := by
  unfold Risks Ends at h ⊢
  rw [run_bind]
  cases hr : m.run self w with
  | ok a w' =>
      rw [hr] at h
      exact h
  | error e w' =>
      rw [hr] at h
      exact h

/-- A question that is answered. -/
theorem risks_onDomains {f : Domains → Checked α} (h : ∀ a, f w.domains = .ok a → post a w)
    (hf : ∀ e, f w.domains = .error e → hazard e w) : Risks self (onDomains f) w post hazard := by
  unfold Risks Ends
  simp only [onDomains, run]
  cases hr : f w.domains with
  | ok a => exact h a hr
  | error e =>
      intro e' he'
      cases he'
      exact hf e hr

theorem risks_onCells {f : Cells → Checked α} (h : ∀ a, f w.cells = .ok a → post a w)
    (hf : ∀ e, f w.cells = .error e → hazard e w) : Risks self (onCells f) w post hazard := by
  unfold Risks Ends
  simp only [onCells, run]
  cases hr : f w.cells with
  | ok a => exact h a hr
  | error e =>
      intro e' he'
      cases he'
      exact hf e hr

theorem risks_remark {content : ν} {post : Unit → Workspace ν → Prop}
    (h : post () (w.noted content)) : Risks self (remark content) w post hazard := h

/-- A restriction is refused, carried out or abandoned. -/
theorem risks_narrow {x : Variable} {r : Restriction} {post : Bool → Workspace ν → Prop}
    (h : ∀ b domains, x.restrict (.propagator self) r w.domains = .ok b domains →
      post b { w with domains })
    (hf : ∀ f domains, x.restrict (.propagator self) r w.domains = .error (.fault f) domains →
      hazard f { w with domains }) : Risks self (narrow x r) w post hazard := by
  obtain ⟨domains, cells, journal⟩ := w
  unfold Risks Ends
  simp only [narrow, run]
  cases hr : x.restrict (.propagator self) r domains with
  | ok b domains' => exact h b domains' hr
  | error refusal domains' =>
      cases refusal with
      | empty =>
          intro f he
          cases he
      | fault f =>
          intro f' he'
          cases he'
          exact hf f domains' hr

theorem risks_set {op : CellOp} {post : Bool → Workspace ν → Prop}
    (h : ∀ b cells, w.cells.perform op = .ok (b, cells) → post b { w with cells })
    (hf : ∀ f, w.cells.perform op = .error f → hazard f w) : Risks self (set op) w post hazard := by
  unfold Risks Ends
  simp only [set, run]
  cases hop : w.cells.perform op with
  | error f =>
      intro f' he'
      cases he'
      exact hf f hop
  | ok result => exact h result.1 result.2 hop

end Narrowing.Action
