import Narrowing.Proofs.Among.Pass
import Narrowing.Proofs.Among.Rest
import Narrowing.Proofs.Variable.Width

/-!
Constraints of which every question has an answer. What can go wrong in a recount is that a view has
to tell the absolute value of the least machine value. That does not happen over domains below those
at which a recount went well.
-/

namespace Narrowing

namespace Variable

/-! A variable of a domain that is there, and that looks at no domain with the least machine value
through a view. -/
section Invertible

variable {x : Variable} {s : Domains} (hwf : s.table.WellFormed) (hlt : x.base.index < s.table.size)
  (hleast : x = .domain x.base ∨ Value.least ∉ s.table.members x.base)
include hwf hlt hleast

/-- Every question about the variable is answered. -/
theorem responds_of_invertible : Responds (x.answer s) := by
  obtain ⟨d, hd⟩ := s.table.exists_get? hlt
  rcases hleast with hplain | hleast
  · rw [hplain]
    exact Domains.responds_answer hd (hwf _ d hd)
  · rw [Table.members_of_get? hd] at hleast
    exact responds_answer hwf hd hleast

/-- All answers portray its values. -/
theorem portrays_of_invertible : Portrays (x.answer s) (x.current s.table) := by
  have hresponds := responds_of_invertible hwf hlt hleast
  obtain ⟨d, hd⟩ := s.table.exists_get? hlt
  refine (x.describes_answer hwf).portrays hresponds ?_
  rcases hleast with hplain | hleast
  · rw [hplain, current_domain _ hd]
    exact Domains.listsDown_answer hd (hwf _ d hd)
  · rw [Table.members_of_get? hd] at hleast
    exact listsDown_answer hwf hd hleast

/-- Its values are machine values. -/
theorem inRange_of_invertible : ∀ v ∈ x.current s.table, Value.InRange v := by
  obtain ⟨d, hd⟩ := s.table.exists_get? hlt
  rcases hleast with hplain | hleast
  · rw [hplain, current_domain _ hd]
    exact fun v hv => Domain.inRange_of_mem (hwf _ d hd) hv
  · rw [Table.members_of_get? hd] at hleast
    exact fun v hv => (invertible_current hd (hwf _ d hd) hleast v hv).1

end Invertible

end Variable

namespace Among

variable {c : Among} {t t' g : Table DomainId Domain} {s : Domains} {x : Variable}

/-- Every question of a recount has an answer: no variable that is looked at through a view has the
least machine value. -/
def Tractable (c : Among) (t : Table DomainId Domain) : Prop :=
  ∀ x ∈ c.counter :: c.scope, x = .domain x.base ∨ Value.least ∉ t.members x.base

namespace Tractable

theorem below (h : c.Tractable t) (hb : g.Below t) : c.Tractable g := fun x hx =>
  (h x hx).imp_right fun hleast hmem => hleast (hb.subset _ hmem)

theorem further (h : c.Tractable t) (hg : c.Grounded t)
    (hext : ∀ id : DomainId, id.index < t.size → t'.get? id = t.get? id) : c.Tractable t' := by
  intro x hx
  refine (h x hx).imp_right fun hleast hmem => hleast ?_
  rwa [Table.members, hext _ (hg.lt_of_mem hx)] at hmem

variable (h : c.Tractable s.table) (hwf : s.table.WellFormed)
include h hwf

/-- Every question about a variable of the constraint is answered. -/
theorem responds (hx : x ∈ c.counter :: c.scope) (hlt : x.base.index < s.table.size) :
    Responds (x.answer s) :=
  Variable.responds_of_invertible hwf hlt (h x hx)

theorem responds_place (hg : c.Grounded s.table) {i : Nat} (hi : i < c.scope.length) :
    Responds ((c.place i).answer s) :=
  h.responds hwf (List.mem_cons_of_mem _ (place_mem hi)) (hg.place_lt i hi)

theorem responds_counter (hg : c.Grounded s.table) : Responds (c.counter.answer s) :=
  h.responds hwf List.mem_cons_self hg.counter_lt

end Tractable

theorem exists_countTracked (h : Responds (x.answer s)) {l : List Int}
    (hl : ∀ v ∈ l, Value.InRange v) : ∃ n, countTracked x s l = .ok n := by
  induction l with
  | nil => exact ⟨0, rfl⟩
  | cons v rest ih =>
      obtain ⟨hv, hrest⟩ := List.forall_mem_cons.1 hl
      obtain ⟨here, hhere⟩ := h.contains hv
      obtain ⟨n, hn⟩ := ih hrest
      refine ⟨if here then n + 1 else n, ?_⟩
      rw [countTracked, Variable.contains, hhere, hn]
      rfl

/-- The standing of a variable is told that responds. -/
theorem exists_standing (h : Responds (x.answer s)) (htracked : ∀ v ∈ c.tracked, Value.InRange v) :
    ∃ st, c.standing s x = .ok st := by
  obtain ⟨n, hn⟩ := exists_countTracked h htracked
  obtain ⟨size, hsize⟩ := h.size
  rw [standing, hn, Variable.size, hsize]
  change ∃ st, (if n = size then _ else if 0 < n then _ else _ : Checked Standing) = .ok st
  split
  · exact ⟨.sure, rfl⟩
  · split
    · exact ⟨.possible, rfl⟩
    · exact ⟨.impossible, rfl⟩

theorem exists_size_of_standing {st : Standing} (h : c.standing s x = .ok st) :
    ∃ n, x.size s = .ok n := by
  obtain ⟨count, -, h⟩ := Checked.bind_eq_ok h
  obtain ⟨n, hn, -⟩ := Checked.bind_eq_ok h
  exact ⟨n, hn⟩

end Among

namespace AmongPropagator

open Narrowing.Action

variable {p : AmongPropagator} {me : PropagatorId} {w w₀ : Workspace Remark}
  {stop : Workspace Remark → Prop}

/-! ### Recounts that went well -/

/-- The standings of all variables that were gone through were told. -/
theorem yields_enlist_tells {i : Nat} {n : Int} {rest : List Variable} (hwf : w.cells.WellFormed) :
    Yields me (p.enlist i n rest) w
      (fun _ _ => ∀ x ∈ rest, ∃ st, p.standing w.domains x = .ok st) stop := by
  induction rest generalizing i n w with
  | nil => exact yields_pure fun x hx => nomatch hx
  | cons x rest ih =>
      refine yields_bind (yields_onDomains fun st hst => ?_)
      have hall : (∀ y ∈ rest, ∃ st, p.standing w.domains y = .ok st) →
          ∀ y ∈ x :: rest, ∃ st, p.standing w.domains y = .ok st :=
        fun h => List.forall_mem_cons.2 ⟨⟨st, hst⟩, h⟩
      cases st with
      | sure => exact (ih hwf).imp fun _ _ => hall
      | possible =>
          refine yields_bind (yields_bind (yields_set hwf fun b cells hevolves _ => yields_pure ?_))
          exact (ih (w := { w with cells }) hevolves.wellFormed).imp fun _ _ => hall
      | impossible => exact (ih hwf).imp fun _ _ => hall

theorem yields_initialise_tells (hwf : w.cells.WellFormed) :
    Yields me p.initialise w
      (fun _ _ => ∀ x ∈ p.scope, ∃ st, p.standing w.domains x = .ok st) fun _ => True := by
  refine yields_bind (yields_bind (yields_set hwf fun b cells hevolves _ => yields_pure ?_))
  refine yields_bind ((yields_enlist_tells (w := { w with cells }) hevolves.wellFormed).imp
    fun _ w' h => ?_)
  exact Yields.of_all (fun _ _ => h) fun _ => trivial

/-- The filtering had the greatest value of the counter. -/
theorem yields_filter_tells :
    Yields me (p.filter me) w (fun _ _ => ∃ v, p.counter.upper w.domains = .ok v)
      fun _ => True := by
  unfold filter
  refine yields_bind (yields_onCells fun bounds hbounds => ?_)
  refine yields_bind (yields_onDomains fun hi hhi => ?_)
  exact Yields.of_all (fun _ _ => ⟨hi, hhi⟩) fun _ => trivial

/-- After a pass from scratch the constraint is tractable. -/
theorem yields_pass_tractable (hwf : w₀.WellFormed) (hsorted : p.tracked.Pairwise (· < ·))
    {passes : Passes} (hfull : passes.full = true) :
    Yields me (p.pass me passes) w₀ (fun _ w' => p.Tractable w'.domains.table) fun _ => True := by
  have hstart : Yields me (p.pass me passes) w₀ (fun _ _ => p.Tractable w₀.domains.table)
      fun _ => True := by
    unfold pass
    rw [if_pos hfull]
    have hrecounts : Yields me p.initialise w₀ (fun _ w => Recounted p w₀ w) fun _ => True :=
      yields_initialise_recounts hwf hsorted
    refine yields_bind ((hrecounts.and (yields_initialise_tells hwf.cells)).mono
      (fun _ w hw => ?_) fun _ _ => trivial)
    obtain ⟨hrecounted, htells⟩ := hw
    refine yields_filter_tells.imp fun _ _ hw x hx => ?_
    rw [hrecounted.domains_eq] at hw
    obtain ⟨hi, hhi⟩ := hw
    cases x with
    | domain id => exact Or.inl rfl
    | abs y =>
        refine Or.inr ?_
        rcases List.mem_cons.1 hx with hc | hx
        · exact Variable.least_notMem_of_upper (y := y) hwf.table (hc ▸ hhi)
        · obtain ⟨st, hst⟩ := htells _ hx
          obtain ⟨n, hn⟩ := Among.exists_size_of_standing hst
          exact Variable.least_notMem_of_size (y := y) hwf.table hn
  have hprogress : Yields me (p.pass me passes) w₀
      (fun _ w' => Workspace.Progress (.propagator me) w₀ w') fun _ => True :=
    (Action.progress _ hwf).mono (fun _ _ h => h) fun _ _ _ _ _ => trivial
  refine (hstart.and hprogress).mono (fun _ w hw => ?_) fun _ _ => trivial
  exact hw.1.below (hw.2.narrows.table_below hwf.table)

end AmongPropagator

end Narrowing
