import Narrowing.Propagator.Action
import Narrowing.Proofs.Cell.Store
import Narrowing.Proofs.Variable.Restriction

/-!
What actions do to domains and cells. Whatever a propagator is, its actions only narrow domains, in
its own name, and change cells in the current frame. What a particular action does beyond that is
shown with the rules for `Yields`, one for each kind of step.
-/

namespace Narrowing

variable {ν α β : Type}

/-- The domains and cells of a workspace can be trusted, and are at the same checkpoint. -/
structure Workspace.WellFormed (w : Workspace ν) : Prop where
  table : w.domains.table.WellFormed
  recorded : w.domains.Recorded
  cells : w.cells.WellFormed
  level_eq : w.cells.level = w.domains.level

/-- `w'` came from `w` by steps made for `cause`. -/
structure Workspace.Progress (cause : Cause) (w w' : Workspace ν) : Prop where
  narrows : Domains.Narrows (fun _ => True) cause w.domains w'.domains
  evolves : Cells.Evolves w.cells w'.cells

namespace Workspace

/-- The workspace with a message that the propagator has left. -/
def noted (w : Workspace ν) (content : ν) : Workspace ν :=
  { w with journal := w.journal.push (.note content) }

variable {cause : Cause} {w w' w'' : Workspace ν}

theorem Progress.refl (h : w.WellFormed) : Progress cause w w := ⟨.refl, .refl h.cells⟩

theorem Progress.trans (h : Progress cause w w') (h' : Progress cause w' w'') :
    Progress cause w w'' :=
  ⟨h.narrows.trans h'.narrows, h.evolves.trans h'.evolves⟩

theorem Progress.wellFormed (h : Progress cause w w') (hwf : w.WellFormed) : w'.WellFormed where
  table := h.narrows.wellFormed hwf.table
  recorded := h.narrows.recorded hwf.recorded
  cells := h.evolves.wellFormed
  level_eq := by rw [h.evolves.level_eq, hwf.level_eq, h.narrows.trail_eq.1]

end Workspace

namespace Action

variable {self : PropagatorId} {w : Workspace ν}

/-- Every action only narrows domains in the name of its propagator and changes cells of the current
frame, whether or not it comes to an end. -/
theorem progress (m : Action ν α) (hwf : w.WellFormed) :
    Ends (m.run self) w (fun _ w' => Workspace.Progress (.propagator self) w w')
      (fun _ w' => Workspace.Progress (.propagator self) w w') := by
  induction m generalizing w with
  | done a => exact .refl hwf
  | contradict c => exact .refl hwf
  | abandon f => exact .refl hwf
  | look k ih => exact ih w.domains w.cells hwf
  | note content k ih =>
      refine Ends.mono (ih (w := { w with journal := w.journal.push (.note content) })
        ⟨hwf.table, hwf.recorded, hwf.cells, hwf.level_eq⟩) ?_ ?_
      · rintro a w' ⟨hn, he⟩
        exact ⟨hn, he⟩
      · rintro e w' ⟨hn, he⟩
        exact ⟨hn, he⟩
  | restrict x r k ih =>
      obtain ⟨domains, cells, journal⟩ := w
      have hc := x.confined (.propagator self) r domains hwf.table
      have hrest : ∀ result domains',
          Domains.Narrows (· = x.base) (.propagator self) domains domains' →
          Ends ((k result).run self) ⟨domains', cells, journal⟩
            (fun _ w' => Workspace.Progress (.propagator self) ⟨domains, cells, journal⟩ w')
            (fun _ w' => Workspace.Progress (.propagator self) ⟨domains, cells, journal⟩ w') := by
        intro result domains' hn
        have hfirst : Workspace.Progress (.propagator self) (⟨domains, cells, journal⟩ : Workspace ν)
            ⟨domains', cells, journal⟩ := ⟨hn.mono fun _ _ => trivial, .refl hwf.cells⟩
        exact Ends.mono (ih result (hfirst.wellFormed hwf)) (fun _ _ h => hfirst.trans h)
          fun _ _ h => hfirst.trans h
      unfold Ends
      simp only [run]
      unfold Domains.Confines Ends at hc
      cases hr : x.restrict (.propagator self) r domains with
      | ok b domains' =>
          simp only [hr] at hc ⊢
          exact hrest (.ok b) domains' hc.1
      | error e domains' =>
          simp only [hr] at hc
          cases e with
          | empty => exact hrest _ domains' hc.1
          | fault f => exact ⟨hc.1.mono fun _ _ => trivial, .refl hwf.cells⟩
  | change op k ih =>
      unfold Ends
      simp only [run]
      cases hop : w.cells.perform op with
      | error f => exact .refl hwf
      | ok result =>
          obtain ⟨b, cells'⟩ := result
          have hfirst : Workspace.Progress (.propagator self) w { w with cells := cells' } :=
            ⟨.refl, (Cells.perform_eq_ok hwf.cells hop).1⟩
          exact Ends.mono (ih b (hfirst.wellFormed hwf)) (fun _ _ h => hfirst.trans h)
            fun _ _ h => hfirst.trans h

/-! ### Steps -/

/-- Carried out in `w`, the action ends with an answer and a workspace as in `post`, or with a
contradiction and a workspace as in `stop`, unless it is abandoned. -/
def Yields (self : PropagatorId) (m : Action ν α) (w : Workspace ν)
    (post : α → Workspace ν → Prop) (stop : Workspace ν → Prop) : Prop :=
  Ends (m.run self) w post fun e w' => ∀ c, e = .contradiction c → stop w'

variable {post : α → Workspace ν → Prop} {stop : Workspace ν → Prop}

theorem Yields.mono {m : Action ν α} {post' : α → Workspace ν → Prop} {stop' : Workspace ν → Prop}
    (h : Yields self m w post stop) (hpost : ∀ a w', post a w' → post' a w')
    (hstop : ∀ w', stop w' → stop' w') : Yields self m w post' stop' :=
  Ends.mono h hpost fun _ _ hs c hc => hstop _ (hs c hc)

theorem Yields.imp {m : Action ν α} {post' : α → Workspace ν → Prop}
    (h : Yields self m w post stop) (hpost : ∀ a w', post a w' → post' a w') :
    Yields self m w post' stop :=
  h.mono hpost fun _ hs => hs

/-- Two descriptions of what an action comes to hold together. -/
theorem Yields.and {m : Action ν α} {post' : α → Workspace ν → Prop} {stop' : Workspace ν → Prop}
    (h : Yields self m w post stop) (h' : Yields self m w post' stop') :
    Yields self m w (fun a w' => post a w' ∧ post' a w') fun w' => stop w' ∧ stop' w' :=
  Ends.mono (Ends.and h h') (fun _ _ hp => hp) fun _ _ hs c hc => ⟨hs.1 c hc, hs.2 c hc⟩

/-- Nothing has to be shown of what holds anyway. -/
theorem Yields.of_all {m : Action ν α} (hpost : ∀ a w', post a w') (hstop : ∀ w', stop w') :
    Yields self m w post stop := by
  unfold Yields Ends
  split
  · exact hpost _ _
  · exact fun _ _ => hstop _

theorem yields_pure {a : α} (h : post a w) : Yields self (pure a) w post stop := h

theorem yields_contradict {c : Contradiction} (h : stop w) :
    Yields self (.contradict c : Action ν α) w post stop := fun _ _ => h

theorem yields_bind {m : Action ν α} {f : α → Action ν β} {post : β → Workspace ν → Prop}
    (h : Yields self m w (fun a w' => Yields self (f a) w' post stop) stop) :
    Yields self (m >>= f) w post stop := by
  unfold Yields Ends at h ⊢
  rw [run_bind]
  cases hr : m.run self w with
  | ok a w' =>
      rw [hr] at h
      exact h
  | error e w' =>
      rw [hr] at h
      exact h

theorem Yields.bind {m : Action ν α} {f : α → Action ν β} {post : β → Workspace ν → Prop}
    {mid : α → Workspace ν → Prop} (h : Yields self m w mid stop)
    (hf : ∀ a w', mid a w' → Yields self (f a) w' post stop) : Yields self (m >>= f) w post stop :=
  yields_bind (h.imp hf)

theorem yields_onDomains {f : Domains → Checked α} (h : ∀ a, f w.domains = .ok a → post a w) :
    Yields self (onDomains f) w post stop := by
  unfold Yields Ends
  simp only [onDomains, run]
  cases hf : f w.domains with
  | ok a => exact h a hf
  | error e =>
      intro c hc
      cases hc

theorem yields_onCells {f : Cells → Checked α} (h : ∀ a, f w.cells = .ok a → post a w) :
    Yields self (onCells f) w post stop := by
  unfold Yields Ends
  simp only [onCells, run]
  cases hf : f w.cells with
  | ok a => exact h a hf
  | error e =>
      intro c hc
      cases hc

theorem yields_remark {content : ν} {post : Unit → Workspace ν → Prop}
    (h : post () (w.noted content)) : Yields self (remark content) w post stop := h

theorem yields_narrow {x : Variable} {r : Restriction} {post : Bool → Workspace ν → Prop}
    {allowed left : Int → Prop}
    (hc : Domains.Confines x.base (.propagator self) allowed left
      (x.restrict (.propagator self) r) w.domains)
    (hpost : ∀ b domains', Domains.Narrows (· = x.base) (.propagator self) w.domains domains' →
      (∀ u ∈ w.domains.table.members x.base, allowed u → u ∈ domains'.table.members x.base) →
      (∀ u ∈ domains'.table.members x.base, left u) → post b { w with domains := domains' })
    (hstop : ∀ domains', Domains.Narrows (· = x.base) (.propagator self) w.domains domains' →
      (∀ u ∈ w.domains.table.members x.base, ¬ allowed u) → stop { w with domains := domains' }) :
    Yields self (narrow x r) w post stop := by
  obtain ⟨domains, cells, journal⟩ := w
  unfold Yields Ends
  simp only [narrow, run]
  unfold Domains.Confines Ends at hc
  cases hr : x.restrict (.propagator self) r domains with
  | ok b domains' =>
      simp only [hr] at hc
      exact hpost b domains' hc.1 hc.2.1 hc.2.2
  | error e domains' =>
      simp only [hr] at hc
      cases e with
      | empty => exact fun c _ => hstop domains' hc.1 (hc.2 rfl)
      | fault f =>
          intro c hf
          cases hf

theorem yields_set {op : CellOp} {post : Bool → Workspace ν → Prop} (hwf : w.cells.WellFormed)
    (h : ∀ b cells', Cells.Evolves w.cells cells' → op.Turns w.cells.contents cells'.contents →
      post b { w with cells := cells' }) : Yields self (set op) w post stop := by
  unfold Yields Ends
  simp only [set, run]
  cases hop : w.cells.perform op with
  | error f =>
      intro c hc
      cases hc
  | ok result =>
      obtain ⟨b, cells'⟩ := result
      obtain ⟨hevolves, hturns⟩ := Cells.perform_eq_ok hwf hop
      exact h b cells' hevolves hturns

/-! ### What is written -/

/-- All changes of cells in the text of an action are in `allowed`. -/
def Writes (allowed : CellOp → Prop) : Action ν α → Prop
  | .done _ => True
  | .contradict _ => True
  | .abandon _ => True
  | .look k => ∀ domains cells, (k domains cells).Writes allowed
  | .restrict _ _ k => ∀ result, (k result).Writes allowed
  | .change op k => allowed op ∧ ∀ result, (k result).Writes allowed
  | .note _ k => k.Writes allowed

variable {allowed : CellOp → Prop}

theorem writes_pure (a : α) : (pure a : Action ν α).Writes allowed := trivial

theorem writes_ofChecked (c : Checked α) : (ofChecked c : Action ν α).Writes allowed := by
  cases c <;> exact trivial

theorem writes_onDomains (f : Domains → Checked α) :
    (onDomains f : Action ν α).Writes allowed := fun _ _ => writes_ofChecked _

theorem writes_onCells (f : Cells → Checked α) :
    (onCells f : Action ν α).Writes allowed := fun _ _ => writes_ofChecked _

theorem writes_remark (content : ν) : (remark content : Action ν Unit).Writes allowed := trivial

theorem writes_narrow (x : Variable) (r : Restriction) :
    (narrow x r : Action ν Bool).Writes allowed := fun result => by
  cases result <;> exact trivial

theorem writes_set {op : CellOp} (h : allowed op) : (set op : Action ν Bool).Writes allowed :=
  ⟨h, fun _ => trivial⟩

theorem writes_bind {m : Action ν α} {f : α → Action ν β} (hm : m.Writes allowed)
    (hf : ∀ a, (f a).Writes allowed) : (m >>= f).Writes allowed := by
  change (m.bind f).Writes allowed
  induction m with
  | done a => exact hf a
  | contradict c => exact trivial
  | abandon e => exact trivial
  | look k ih => exact fun domains cells => ih domains cells (hm domains cells)
  | restrict x r k ih => exact fun result => ih result (hm result)
  | change op k ih => exact ⟨hm.1, fun result => ih result (hm.2 result)⟩
  | note content k ih => exact ih hm

/-- What is kept by the changes that an action writes is kept by the action, whether or not it comes
to an end. -/
theorem Writes.ends {m : Action ν α} (hm : m.Writes allowed) {Q : Cells → Prop}
    (hQ : ∀ {s s' : Cells} {op : CellOp} {b : Bool}, allowed op → Q s →
      s.perform op = .ok (b, s') → Q s') (h : Q w.cells) :
    Ends (m.run self) w (fun _ w' => Q w'.cells) fun _ w' => Q w'.cells := by
  induction m generalizing w with
  | done a => exact h
  | contradict c => exact h
  | abandon f => exact h
  | look k ih => exact ih w.domains w.cells (hm w.domains w.cells) h
  | note content k ih => exact ih hm (w := w.noted content) h
  | restrict x r k ih =>
      obtain ⟨domains, cells, journal⟩ := w
      unfold Ends
      simp only [run]
      cases x.restrict (.propagator self) r domains with
      | ok b domains' => exact ih (.ok b) (hm _) (w := ⟨domains', cells, journal⟩) h
      | error refusal domains' =>
          cases refusal with
          | empty => exact ih _ (hm _) (w := ⟨domains', cells, journal⟩) h
          | fault f => exact h
  | change op k ih =>
      unfold Ends
      simp only [run]
      cases hop : w.cells.perform op with
      | error f => exact h
      | ok result => exact ih result.1 (hm.2 _) (w := { w with cells := result.2 }) (hQ hm.1 h hop)

theorem writes_all (m : Action ν α) : m.Writes fun _ => True := by
  induction m with
  | done a => exact trivial
  | contradict c => exact trivial
  | abandon f => exact trivial
  | look k ih => exact fun domains cells => ih domains cells
  | restrict x r k ih => exact fun result => ih result
  | change op k ih => exact ⟨trivial, fun result => ih result⟩
  | note content k ih => exact ih

end Action

end Narrowing
