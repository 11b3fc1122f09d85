import Narrowing.Proofs.Variable.Monitor
import Narrowing.Proofs.Variable.Runs
import Narrowing.Proofs.Variable.Verdict

/-!
The arithmetic of views. If every member of the domain at the bottom has an absolute value, nearly
every question about a view of it is answered and every restriction is refused or carried out, so no
negation and no step to a neighbouring value leaves the machine values. There are two exceptions.
Neighbouring runs are compared by the value behind the end of one of them, and there is none behind
the greatest machine value. And a report of losses goes through all values that the domain lost,
among which may be the least machine value.
-/

namespace Narrowing

namespace Absolute

variable {ask : Oracle} {lost l : List Int} {p limit : Nat}

/-- Every value that is looked at has an absolute value. -/
theorem inRange_of_absent (h : absent ask lost = .ok l) :
    ∀ v ∈ lost, Value.InRange (v.natAbs : Int) := by
  induction lost generalizing l with
  | nil => exact nofun
  | cons v rest ih =>
      obtain ⟨size, hsize, h⟩ := Checked.bind_eq_ok h
      obtain ⟨here, -, h⟩ := Checked.bind_eq_ok h
      obtain ⟨others, hothers, -⟩ := Checked.bind_eq_ok h
      have hrange := Value.inRange_of_check hsize
      rw [Value.eq_of_check hsize] at hrange
      exact List.forall_mem_cons.2 ⟨hrange, ih hothers⟩

theorem least_notMem_of_absent (h : absent ask lost = .ok l) : Value.least ∉ lost := fun hmem =>
  absurd (inRange_of_absent h _ hmem) (by decide)

theorem exists_lost_of_removedSince (h : answer ask _ (.removedSince p limit) = .ok l) :
    ∃ lost, ask _ (.removedSince p Value.count) = .ok lost ∧ Value.least ∉ lost := by
  obtain ⟨lost, hlost, h⟩ := Checked.bind_eq_ok h
  obtain ⟨gone, hgone, -⟩ := Checked.bind_eq_ok h
  exact ⟨lost, hlost, least_notMem_of_absent hgone⟩

end Absolute

namespace Variable

variable {s : Domains} {y : Variable} {d : Domain} {p limit : Nat}

/-- What the domain at the bottom lost is gone through by every view above it. -/
theorem least_notMem_of_removedSince {l : List Int}
    (h : (abs y).answer s _ (.removedSince p limit) = .ok l) :
    ∃ lost, s.answer y.base _ (.removedSince p Value.count) = .ok lost ∧ Value.least ∉ lost := by
  induction y generalizing limit l with
  | domain id => exact Absolute.exists_lost_of_removedSince h
  | abs x ih =>
      obtain ⟨lost, hlost, -⟩ := Absolute.exists_lost_of_removedSince h
      exact ih hlost

/-- A report of losses is given exactly when the domain at the bottom did not lose the least machine
value. -/
theorem removedSince_iff (hwf : s.table.WellFormed) {d₀ : Domain}
    (h : s.Since y.base (min p s.position) d₀) (hleast : Value.least ∉ s.table.members y.base) :
    ∃ lost, s.answer y.base _ (.removedSince p Value.count) = .ok lost ∧
      ∀ limit, (∃ l, (abs y).answer s _ (.removedSince p limit) = .ok l) ↔ Value.least ∉ lost := by
  obtain ⟨lost, hreports⟩ := h.reports
  have hcount := hreports.length_le (Domain.card_members_le h.wellFormed)
  obtain ⟨hanswers, -, hmem⟩ := hreports
  have hlost := hanswers Value.count
  rw [List.take_of_length_le hcount] at hlost
  refine ⟨lost, hlost, fun limit => ⟨?_, fun hnone => ?_⟩⟩
  · rintro ⟨l, hl⟩
    obtain ⟨lost', hlost', hnone⟩ := least_notMem_of_removedSince hl
    rwa [Except.ok.inj (hlost'.symm.trans hlost)] at hnone
  · have hleast₀ : Value.least ∉ d₀.members := fun hmem₀ => hnone ((hmem _).2 ⟨hmem₀, hleast⟩)
    have ht : (s.table.update y.base fun _ => d₀).get? y.base = some d₀ := by
      rw [Table.get?_update_self, h.now]
      rfl
    obtain ⟨l, ⟨hl, -⟩, -⟩ := reports hwf (x := .abs y) ht h fun _ _ => hleast₀
    exact ⟨_, hl limit⟩

/-- Nothing that is computed about the view of `y`, over a domain `d`, leaves the machine values,
with two exceptions. -/
structure Computes (y : Variable) (s : Domains) (d : Domain) : Prop where
  portrays : Portrays ((abs y).answer s) (Absolute.image d.members)
  enumerated : ∃ b, (abs y).answer s _ .enumerated = .ok b
  /-- The listing of runs upwards comes to its end exactly if no run that ends at the greatest machine
  value has another one to be compared with, and then so does the listing downwards. The view of a
  domain also lists its runs downwards to the end where only one of the two values at the ends of the
  machine values is a member. -/
  runs : ∃ up down, (abs y).answer s _ .runs = .ok up ∧ (abs y).answer s _ .runsDown = .ok down ∧
    (up.Complete ↔ Absolute.Joinable d.members) ∧ (down.Complete ↔ y.JoinableDown d.members) ∧
    (up.Complete → down.Complete)
  /-- A report of losses is given exactly if the least machine value is not among the lost ones. -/
  removedSince : ∀ p, ∃ lost, s.answer y.base _ (.removedSince p Value.count) = .ok lost ∧
    ∀ limit, (∃ l, (abs y).answer s _ (.removedSince p limit) = .ok l) ↔ Value.least ∉ lost
  restrict : ∀ r : Restriction, r.InRange → ∀ cause,
    (abs y).restrict cause r s = .error .empty s ∨ ∃ b s', (abs y).restrict cause r s = .ok b s'

end Variable

namespace Domains.Reachable

variable {s : Domains} (hs : s.Reachable)
include hs

/-- Where every member has an absolute value, a view of whatever nesting computes within the machine
values. -/
theorem computes_view {y : Variable} {d : Domain} (hd : s.table.get? y.base = some d)
    (hrange : ∀ v ∈ d.members, -Value.greatest ≤ v ∧ v ≤ Value.greatest) : y.Computes s d := by
  have hwf := hs.traced.wellFormed
  have hleast : Value.least ∉ d.members := fun hmem => absurd (hrange _ hmem).1 (by decide)
  have hmembers := Table.members_of_get? hd
  have hholds : y.Holds s d.lower :=
    ⟨hwf, hmembers ▸ (hwf _ d hd).lower_mem, hmembers ▸ hleast⟩
  refine ⟨Variable.current_abs_eq hd ▸ hholds.abs.portrays,
    ⟨_, Variable.answer_enumerated (x := .abs y) (Table.lt_size_of_get? hd)⟩, ?_, fun p => ?_,
    fun r hr cause => ?_⟩
  · obtain ⟨up, down, hup, hdown, hcomplete, hcompleteDown⟩ := Variable.complete_iff hwf hd hleast
    refine ⟨up, down, hup, hdown, hcomplete, hcompleteDown, fun hend => ?_⟩
    obtain ⟨l, -, hdown', -⟩ := Variable.listsRuns_answer hwf hd hleast (hcomplete.1 hend)
    obtain rfl := Except.ok.inj (hdown.symm.trans hdown')
    exact Enumeration.complete_ofList l.reverse
  · obtain ⟨d₀, hsince⟩ := hs.traced.origin y.base d hd
    obtain ⟨d₁, hsince₁⟩ := hsince.later (Nat.min_le_right p s.position)
    exact Variable.removedSince_iff hwf hsince₁ (hmembers ▸ hleast)
  · rcases Variable.refused_or_performed hwf hd hleast hr cause with
      ⟨-, hrun⟩ | ⟨-, b, s', hrun, -⟩
    · exact Or.inl hrun
    · exact Or.inr ⟨b, s', hrun⟩

omit hs in
theorem computes_view_scarred :
    scarred.Reachable ∧ scarred.table.get? ⟨0⟩ = some cropped ∧
      (∀ v ∈ cropped.members, -Value.greatest ≤ v ∧ v ≤ Value.greatest) ∧
      (Variable.abs (.domain ⟨0⟩)).Computes scarred cropped :=
  ⟨reachable_scarred, by decide, by decide,
    computes_view reachable_scarred (y := .abs (.domain ⟨0⟩)) (by decide) (by decide)⟩

/-- From zero up to the greatest machine value is one part, from zero to `1` is the other one, and
there is no value behind the first to compare the second with. Downwards, it is the second that has a
value behind it. -/
example :
    (Variable.abs (.domain ⟨0⟩)).answer { table := ⟨#[.interval (-1) Value.greatest]⟩ } _ .runs =
      .ok (.fault .overflow) ∧
    (Variable.abs (.domain ⟨0⟩)).answer { table := ⟨#[.interval (-1) Value.greatest]⟩ } _ .runsDown =
      .ok (.item ⟨0, Value.greatest⟩ .done) := by decide

end Domains.Reachable

end Narrowing
