import Narrowing.Among.Propagator
import Narrowing.Proofs.Propagator.Action

/-!
The cells that an Among propagator writes. Whatever happens in a call, whether it ends well, in a
contradiction or is abandoned, the propagator changes its number and its set and no other cell. That can
be read off the text of its actions.
-/

namespace Narrowing.AmongPropagator

open Narrowing.Action

variable {p : AmongPropagator} {me : PropagatorId} {α : Type}

/-- The change is one of the cells of the propagator. -/
def Owns (p : AmongPropagator) : CellOp → Prop
  | .assign c _ => c = p.sure
  | .add c _ => c = p.sure
  | .insert k _ => k = p.possible
  | .erase k _ => k = p.possible
  | .clear k => k = p.possible

/-- The action changes cells of the propagator only. -/
abbrev Keeps (p : AmongPropagator) (m : Step α) : Prop := m.Writes p.Owns

/-! ### Steps -/

theorem keeps_write {op : CellOp} (h : p.Owns op) : p.Keeps (write op) :=
  writes_bind (writes_set h) fun _ => writes_pure ()

theorem keeps_force (x : Variable) (r : Restriction) : p.Keeps (force x r) :=
  writes_bind (writes_narrow x r) fun _ => writes_pure ()

theorem keeps_subject (i : Nat) : p.Keeps (p.subject i) := by
  unfold subject
  split <;> trivial

theorem keeps_forceOut (x : Variable) (l : List Int) : p.Keeps (forceOut x l) := by
  induction l with
  | nil => exact writes_pure ()
  | cons v rest ih => exact writes_bind (keeps_force x _) fun _ => ih

theorem keeps_forceInward (x : Variable) (goes : Int → Bool) : p.Keeps (forceInward x goes) := by
  refine writes_bind (writes_onDomains _) fun bounds => ?_
  apply writes_bind (keeps_force x _)
  intro _
  exact writes_bind (keeps_force x _) fun _ => writes_pure _

theorem keeps_settlePlace (i : Nat) : p.Keeps (p.settlePlace i) :=
  writes_bind (keeps_write rfl) fun _ => keeps_write rfl

/-! ### Walks -/

theorem keeps_enlist (i : Nat) (n : Int) (rest : List Variable) : p.Keeps (p.enlist i n rest) := by
  induction rest generalizing i n with
  | nil => exact writes_pure n
  | cons x rest ih =>
      refine writes_bind (writes_onDomains _) fun standing => ?_
      cases standing with
      | sure => exact ih (i + 1) (n + 1)
      | possible => exact writes_bind (keeps_write rfl) fun _ => ih (i + 1) n
      | impossible => exact ih (i + 1) n

theorem keeps_initialise : p.Keeps p.initialise := by
  refine writes_bind (keeps_write rfl) fun _ => ?_
  refine writes_bind (keeps_enlist 0 0 p.scope) fun n => ?_
  exact keeps_write (show p.Owns (.assign p.sure n) from rfl)

theorem keeps_excludeEach (smallest largest : Int) (places : List Nat) :
    p.Keeps (p.excludeEach smallest largest places) := by
  induction places with
  | nil => exact writes_pure ()
  | cons i rest ih =>
      have herased : p.Keeps (do
          write (.erase p.possible i)
          p.excludeEach smallest largest rest) := writes_bind (keeps_write rfl) fun _ => ih
      refine writes_bind (keeps_subject i) fun x => writes_bind (writes_remark _) fun _ => ?_
      refine writes_bind (writes_onDomains _) fun kind => ?_
      split
      · exact writes_bind (keeps_forceOut x _) fun _ => herased
      · refine writes_bind (keeps_forceInward x _) fun bounds => ?_
        obtain ⟨lo, hi⟩ := bounds
        dsimp only
        split
        · exact herased
        · exact ih

theorem keeps_includeEach (smallest largest : Int) (places : List Nat) :
    p.Keeps (p.includeEach smallest largest places) := by
  induction places with
  | nil => exact writes_pure ()
  | cons i rest ih =>
      have hsettled : p.Keeps (do
          p.settlePlace i
          p.includeEach smallest largest rest) := writes_bind (keeps_settlePlace i) fun _ => ih
      refine writes_bind (keeps_subject i) fun x => writes_bind (writes_remark _) fun _ => ?_
      refine writes_bind (writes_onDomains _) fun kind => ?_
      split
      · refine writes_bind (writes_onDomains _) fun values => ?_
        exact writes_bind (keeps_forceOut x _) fun _ => hsettled
      · apply writes_bind (keeps_force x _)
        intro _
        apply writes_bind (keeps_force x _)
        intro _
        refine writes_bind (keeps_forceInward x _) fun _ => ?_
        refine writes_bind (writes_onDomains _) fun fixed => ?_
        split
        · exact hsettled
        · exact ih

/-! ### Calls -/

theorem keeps_eachPossible {treat : Int → Int → List Nat → Step Unit}
    (h : ∀ smallest largest places, p.Keeps (treat smallest largest places)) :
    p.Keeps (p.eachPossible treat) := by
  unfold eachPossible
  split
  · exact writes_bind (writes_onCells _) fun places => h _ _ places
  · exact writes_pure ()

theorem keeps_filter : p.Keeps (p.filter me) := by
  unfold filter
  refine writes_bind (writes_onCells _) fun bounds => writes_bind (writes_onDomains _) fun hi => ?_
  split
  · trivial
  refine writes_bind (writes_onDomains _) fun lo => ?_
  split
  · trivial
  apply writes_bind (keeps_force p.counter _)
  intro _
  apply writes_bind (keeps_force p.counter _)
  intro _
  split
  · exact writes_pure ()
  refine writes_bind (writes_onDomains _) fun fixed => ?_
  split
  · exact writes_pure ()
  split
  · exact writes_pure ()
  refine writes_bind (writes_onDomains _) fun count => ?_
  split
  · exact keeps_eachPossible keeps_excludeEach
  split
  · exact keeps_eachPossible keeps_includeEach
  · exact writes_pure ()

/-- A pass changes cells of the propagator only. -/
theorem keeps_pass (passes : Passes) : p.Keeps (p.pass me passes) := by
  unfold pass
  split
  · exact writes_bind keeps_initialise fun _ => keeps_filter
  · exact keeps_filter

theorem keeps_reconsider (i : Nat) (x : Variable) : p.Keeps (p.reconsider i x) := by
  unfold reconsider
  refine writes_bind (writes_onCells _) fun here => ?_
  split
  · refine writes_bind (writes_onDomains _) fun standing => ?_
    cases standing with
    | sure =>
        refine writes_bind (keeps_settlePlace i) fun _ => writes_bind (writes_onCells _) fun _ => ?_
        exact writes_bind (writes_remark _) fun _ => keeps_force p.counter _
    | possible => exact writes_pure ()
    | impossible =>
        refine writes_bind (keeps_write rfl) fun _ => writes_bind (writes_onCells _) fun _ => ?_
        exact writes_bind (writes_remark _) fun _ => keeps_force p.counter _
  · exact writes_pure ()

/-- A notified propagator changes its cells only. -/
theorem keeps_notified (i : LocalId) (events : EventSet) : p.Keeps (p.notified i events) := by
  unfold notified
  split
  · exact writes_pure _
  · refine writes_bind (keeps_subject i) fun x => ?_
    split
    · exact writes_pure _
    · exact writes_bind (keeps_reconsider i x) fun _ => writes_pure _

/-! ### What others have -/

/-- Cells of others are as they were. -/
structure Spares (p : AmongPropagator) (s s' : Cells) : Prop where
  wellFormed : s'.WellFormed
  value_eq : ∀ c ≠ p.sure, s'.contents.value c = s.contents.value c
  places_eq : ∀ k ≠ p.possible, s'.contents.places k = s.contents.places k

theorem Spares.perform {s s' s'' : Cells} {op : CellOp} {b : Bool} (h : p.Spares s s')
    (howns : p.Owns op) (hop : s'.perform op = .ok (b, s'')) : p.Spares s s'' := by
  obtain ⟨hevolves, hturns⟩ := Cells.perform_eq_ok h.wellFormed hop
  refine ⟨hevolves.wellFormed, fun c hc => ?_, fun k hk => ?_⟩
  · rw [← h.value_eq c hc]
    cases op with
    | assign c' v => exact (congrFun hturns.1 c).trans (Function.update_of_ne (howns ▸ hc) _ _)
    | add c' v => exact (congrFun hturns.1 c).trans (Function.update_of_ne (howns ▸ hc) _ _)
    | insert k' i => exact congrFun hturns.1 c
    | erase k' i => exact congrFun hturns.1 c
    | clear k' => exact congrFun hturns.1 c
  · rw [← h.places_eq k hk]
    cases op with
    | assign c' v => exact congrFun hturns.2 k
    | add c' v => exact congrFun hturns.2 k
    | insert k' i => exact (congrFun hturns.2 k).trans (Function.update_of_ne (howns ▸ hk) _ _)
    | erase k' i => exact (congrFun hturns.2 k).trans (Function.update_of_ne (howns ▸ hk) _ _)
    | clear k' => exact (congrFun hturns.2 k).trans (Function.update_of_ne (howns ▸ hk) _ _)

/-- However a call ends, the cells of others are as they were. -/
theorem Keeps.spares {m : Step α} (h : p.Keeps m) {w : Workspace Remark}
    (hwf : w.cells.WellFormed) : Ends (m.run me) w (fun _ w' => p.Spares w.cells w'.cells)
      fun _ w' => p.Spares w.cells w'.cells :=
  h.ends (fun howns hs hop => hs.perform howns hop) ⟨hwf, fun _ _ => rfl, fun _ _ => rfl⟩

end Narrowing.AmongPropagator
