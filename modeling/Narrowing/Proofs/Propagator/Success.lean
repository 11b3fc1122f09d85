import Narrowing.Proofs.Cell.Restoring
import Narrowing.Proofs.Propagator.Action
import Narrowing.Proofs.Variable.Spent

/-!
Actions that come to an end with an answer. The rules for `Yields` say what is true if they do; the
ones here say that they do, step by step: a question that is answered, a restriction that is spent, a
change of a cell that goes through.
-/

namespace Narrowing

variable {ν α β : Type}

namespace Cells

variable {s : Cells} {c : CellId} {k : SetId} {e : Nat}

theorem exists_perform_assign (hc : c.index < s.integers.size) (v : Int) :
    ∃ b s', s.perform (.assign c v) = .ok (b, s') := by
  obtain ⟨s', hs'⟩ := exists_assign hc v
  refine ⟨false, s', ?_⟩
  change (s.assign c v >>= fun s' => pure (false, s')) = _
  rw [hs']
  rfl

theorem exists_perform_clear (hwf : s.WellFormed) (hk : k.index < s.sets.size) :
    ∃ b s', s.perform (.clear k) = .ok (b, s') := by
  obtain ⟨s', hs'⟩ := exists_clear hwf hk
  refine ⟨false, s', ?_⟩
  change (s.clear k >>= fun s' => pure (false, s')) = _
  rw [hs']
  rfl

theorem exists_set (hk : k.index < s.sets.size) : ∃ set, s.set k = .ok set :=
  (s.sets.exists_get? hk).imp fun _ => (Table.fetch_eq_ok_iff _).2

theorem exists_members (hk : k.index < s.sets.size) : ∃ l, s.members k = .ok l := by
  obtain ⟨set, hset⟩ := exists_set hk
  refine ⟨set.members, ?_⟩
  rw [members, hset]
  rfl

/-- A member of a set is a number that the set can hold. -/
theorem lt_capacity_of_mem_places (hwf : s.WellFormed) (he : e ∈ s.contents.places k) :
    e < s.capacity k := by
  change e ∈ (s.sets.get? k).elim ∅ SwapSet.toFinset at he
  unfold capacity
  cases hget : s.sets.get? k with
  | none =>
      rw [hget] at he
      exact absurd he (Finset.notMem_empty e)
  | some set =>
      rw [hget] at he
      exact SwapSet.lt_capacity_of_mem (hwf.sets k set hget) he

end Cells

namespace Action

variable {self : PropagatorId} {w : Workspace ν} {post post' : α → Workspace ν → Prop}

/-- Carried out in `w`, the action ends with an answer and a workspace as in `post`. -/
def Succeeds (self : PropagatorId) (m : Action ν α) (w : Workspace ν)
    (post : α → Workspace ν → Prop) : Prop :=
  ∃ a w', m.run self w = .ok a w' ∧ post a w'

theorem Succeeds.imp {m : Action ν α} (h : Succeeds self m w post)
    (hpost : ∀ a w', post a w' → post' a w') : Succeeds self m w post' := by
  obtain ⟨a, w', hr, hw'⟩ := h
  exact ⟨a, w', hr, hpost a w' hw'⟩

/-- What is true of an action if it succeeds is true of one that does. -/
theorem Succeeds.and_yields {m : Action ν α} {stop : Workspace ν → Prop}
    (h : Succeeds self m w post) (h' : Yields self m w post' stop) :
    Succeeds self m w fun a w' => post a w' ∧ post' a w' := by
  obtain ⟨a, w', hr, hw'⟩ := h
  exact ⟨a, w', hr, hw', Ends.of_ok h' hr⟩

theorem succeeds_pure {a : α} (h : post a w) : Succeeds self (pure a) w post := ⟨a, w, rfl, h⟩

theorem succeeds_bind {m : Action ν α} {f : α → Action ν β} {post : β → Workspace ν → Prop}
    (h : Succeeds self m w fun a w' => Succeeds self (f a) w' post) :
    Succeeds self (m >>= f) w post := by
  obtain ⟨a, w₁, hr, b, w₂, hr', hpost⟩ := h
  refine ⟨b, w₂, ?_, hpost⟩
  rw [run_bind, hr]
  exact hr'

theorem Succeeds.bind {m : Action ν α} {f : α → Action ν β} {post : β → Workspace ν → Prop}
    {mid : α → Workspace ν → Prop} (h : Succeeds self m w mid)
    (hf : ∀ a w', mid a w' → Succeeds self (f a) w' post) : Succeeds self (m >>= f) w post :=
  succeeds_bind (h.imp hf)

theorem succeeds_onDomains {f : Domains → Checked α} {a : α} (hf : f w.domains = .ok a)
    (h : post a w) : Succeeds self (onDomains f) w post := by
  refine ⟨a, w, ?_, h⟩
  simp only [onDomains, run, hf, ofChecked]

theorem succeeds_onCells {f : Cells → Checked α} {a : α} (hf : f w.cells = .ok a) (h : post a w) :
    Succeeds self (onCells f) w post := by
  refine ⟨a, w, ?_, h⟩
  simp only [onCells, run, hf, ofChecked]

theorem succeeds_remark {content : ν} {post : Unit → Workspace ν → Prop}
    (h : post () { w with journal := w.journal.push (.note content) }) :
    Succeeds self (remark content) w post := ⟨(), _, rfl, h⟩

/-- A spent restriction is accepted and leaves the workspace as it is. -/
theorem succeeds_narrow {x : Variable} {r : Restriction} {post : Bool → Workspace ν → Prop}
    (hx : x.Spent w.domains.table r) (h : ∀ b, post b w) : Succeeds self (narrow x r) w post := by
  obtain ⟨domains, cells, journal⟩ := w
  obtain ⟨b, hb⟩ := hx (.propagator self) domains rfl
  refine ⟨b, ⟨domains, cells, journal⟩, ?_, h b⟩
  simp only [narrow, run, hb]

theorem succeeds_set {op : CellOp} {post : Bool → Workspace ν → Prop} (hwf : w.cells.WellFormed)
    (hop : ∃ b cells', w.cells.perform op = .ok (b, cells'))
    (h : ∀ b cells', Cells.Evolves w.cells cells' → op.Turns w.cells.contents cells'.contents →
      cells'.capacity = w.cells.capacity → post b { w with cells := cells' }) :
    Succeeds self (set op) w post := by
  obtain ⟨b, cells', hop⟩ := hop
  obtain ⟨hevolves, hturns⟩ := Cells.perform_eq_ok hwf hop
  refine ⟨b, { w with cells := cells' }, ?_,
    h b cells' hevolves hturns (Cells.keeps_perform hwf hop).capacity_eq⟩
  simp only [set, run, hop]

end Action

end Narrowing
