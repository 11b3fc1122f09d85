import Narrowing.Proofs.Domain.Creation
import Narrowing.Proofs.Domain.Store

/-!
Where a domain comes from. The record of changes tells how every domain came to be what it is from
what it was at any earlier length of the record, and taking back the latest changes leads to what the
rest of the record tells.
-/

namespace Narrowing

/-! ### Records of one domain -/

/-- A domain as it is made: all values of a range, of which one kind keeps the bounds only, or the
listed values. -/
inductive Domain.Made : Domain → Prop
  | interval {lo hi : Int} (hle : lo ≤ hi) (hlo : Value.InRange lo) (hhi : Value.InRange hi) :
      Made (.interval lo hi)
  | listed {values : List Int} {d : Domain} (h : Domain.listed values = some d)
      (hvalues : ∀ v ∈ values, Value.InRange v) : Made d
  | full {lo hi : Int} {d : Domain} (h : Domain.full lo hi = some d) (hlo : Value.InRange lo)
      (hhi : Value.InRange hi) : Made d

namespace Domain

variable {d : Domain}

theorem Made.wellFormed (h : d.Made) : d.WellFormed := by
  cases h with
  | interval hle hlo hhi => exact wellFormed_interval hle hlo hhi
  | listed h hvalues => exact wellFormed_listed h hvalues
  | full h hlo hhi => exact wellFormed_full h hlo hhi

@[simp] theorem applyAll_nil (d : Domain) : d.applyAll [] = d := rfl

theorem applyAll_append (d : Domain) (cs cs' : List Change) :
    d.applyAll (cs ++ cs') = (d.applyAll cs).applyAll cs' := List.foldl_append

theorem fitAll_append {cs cs' : List Change} :
    d.FitAll (cs ++ cs') ↔ d.FitAll cs ∧ (d.applyAll cs).FitAll cs' := by
  induction cs generalizing d with
  | nil => simp [FitAll]
  | cons c cs ih =>
      rw [List.cons_append, FitAll, FitAll, ih, and_assoc]
      rfl

theorem wellFormed_applyAll (h : d.WellFormed) {cs : List Change} (hfit : d.FitAll cs) :
    (d.applyAll cs).WellFormed := by
  induction cs generalizing d with
  | nil => exact h
  | cons c cs ih => exact ih (wellFormed_apply h hfit.1) hfit.2

theorem members_applyAll_subset (h : d.WellFormed) {cs : List Change} (hfit : d.FitAll cs) :
    (d.applyAll cs).members ⊆ d.members := by
  induction cs generalizing d with
  | nil => exact Finset.Subset.refl _
  | cons c cs ih =>
      refine (ih (wellFormed_apply h hfit.1) hfit.2).trans ?_
      rw [members_apply h hfit.1]
      exact Finset.filter_subset _ _

end Domain

/-! ### The record of all domains -/

theorem Trail.chronicle_eq {α : Type} (t : Trail α) {k : Nat} (hk : k ≤ t.level) :
    t.chronicle = (t.below k).chronicle ++ (t.undone k).reverse := by
  rw [chronicle, chronicle, undone, t.frames_below hk, ← List.reverse_append, ← List.flatten_append,
    List.take_append_drop]

namespace Domains

variable {B : DomainId → Prop} {cause : Cause} {s s' : Domains} {id : DomainId} {p : Nat}
  {d₀ : Domain}

/-- What some records say about one domain. -/
def changesOf (id : DomainId) (records : List (DomainId × Change)) : List Change :=
  records.filterMap fun (owner, change) => if owner = id then some change else none

theorem changesSince_eq (s : Domains) (id : DomainId) (p : Nat) :
    s.changesSince id p = changesOf id (s.trail.chronicle.drop p) := rfl

theorem changesOf_append (id : DomainId) (records records' : List (DomainId × Change)) :
    changesOf id (records ++ records') = changesOf id records ++ changesOf id records' :=
  List.filterMap_append

theorem changesOf_singleton_self (id : DomainId) (c : Change) : changesOf id [(id, c)] = [c] := by
  simp [changesOf]

theorem changesOf_singleton_of_ne {j : DomainId} (h : j ≠ id) (c : Change) :
    changesOf id [(j, c)] = [] := by
  simp [changesOf, h]

/-- With `p` changes on record the domain under a name was `d₀`, and the changes recorded since lead
from there to what it is. -/
structure Since (s : Domains) (id : DomainId) (p : Nat) (d₀ : Domain) : Prop where
  wellFormed : d₀.WellFormed
  recorded : p ≤ s.position
  fit : d₀.FitAll (s.changesSince id p)
  now : s.table.get? id = some (d₀.applyAll (s.changesSince id p))

/-- Nothing has happened to a domain since now. -/
theorem Since.refl {d : Domain} (hd : s.table.get? id = some d) (hwf : d.WellFormed) :
    s.Since id s.position d := by
  have hnone : s.changesSince id s.position = [] := by
    rw [changesSince_eq, position, Trail.length_eq_length_chronicle, List.drop_length]
    rfl
  exact ⟨hwf, le_refl _, by rw [hnone]; trivial, by rw [hnone]; exact hd⟩

theorem Since.change (h : s.Since id p d₀) {j : DomainId} {d : Domain} {c : Change}
    (hd : s.table.get? j = some d) (hc : c.Fits d) : (s.change j cause c).Since id p d₀ := by
  have hp : p ≤ s.trail.chronicle.length := by
    rw [← Trail.length_eq_length_chronicle]
    exact h.recorded
  have hrecord : (s.change j cause c).changesSince id p =
      s.changesSince id p ++ changesOf id [(j, c)] := by
    rw [changesSince_eq, changesSince_eq, ← changesOf_append, ← List.drop_append_of_le_length hp]
    exact congrArg (changesOf id ·) (congrArg (List.drop p) (s.trail.chronicle_push (j, c)))
  have hposition : (s.change j cause c).position = s.position + 1 := by
    unfold position
    rw [Trail.length_eq_length_chronicle, Trail.length_eq_length_chronicle]
    exact (congrArg List.length (s.trail.chronicle_push (j, c))).trans List.length_append
  have hrecorded : p ≤ (s.change j cause c).position := by
    have := h.recorded
    omega
  by_cases hj : j = id
  · subst hj
    rw [changesOf_singleton_self] at hrecord
    obtain rfl : d = d₀.applyAll (s.changesSince j p) := Option.some.inj (hd.symm.trans h.now)
    refine ⟨h.wellFormed, hrecorded, ?_, ?_⟩
    · rw [hrecord]
      exact Domain.fitAll_append.2 ⟨h.fit, hc, trivial⟩
    · rw [hrecord, Domain.applyAll_append, get?_change hd, if_pos rfl]
      rfl
  · rw [changesOf_singleton_of_ne hj, List.append_nil] at hrecord
    refine ⟨h.wellFormed, hrecorded, hrecord ▸ h.fit, ?_⟩
    rw [hrecord, get?_change hd, if_neg (Ne.symm hj)]
    exact h.now

theorem Since.narrows (h : s.Since id p d₀) (hn : Narrows B cause s s') : s'.Since id p d₀ := by
  induction hn with
  | refl => exact h
  | change _ _ hd hc ih => exact ih.change hd hc

/-- The rest of a domain's history does not depend on domains that are made later, on frames and on
reports. -/
theorem Since.of_eq (h : s.Since id p d₀) (hrecord : s'.trail.chronicle = s.trail.chronicle)
    (hnow : s'.table.get? id = s.table.get? id) : s'.Since id p d₀ := by
  have hsame : s'.changesSince id p = s.changesSince id p := by
    rw [changesSince_eq, changesSince_eq, hrecord]
  refine ⟨h.wellFormed, ?_, hsame ▸ h.fit, by rw [hsame, hnow]; exact h.now⟩
  have hle := h.recorded
  unfold position at hle ⊢
  rwa [Trail.length_eq_length_chronicle, hrecord, ← Trail.length_eq_length_chronicle]

/-- A domain was something at every later length of the record, too. -/
theorem Since.later (h : s.Since id 0 d₀) (hp : p ≤ s.position) : ∃ d₁, s.Since id p d₁ := by
  have hrecord : s.changesSince id 0 =
      changesOf id (s.trail.chronicle.take p) ++ s.changesSince id p := by
    rw [changesSince_eq, changesSince_eq, ← changesOf_append, List.take_append_drop, List.drop_zero]
  have hfit := h.fit
  have hnow := h.now
  rw [hrecord, Domain.fitAll_append] at hfit
  rw [hrecord, Domain.applyAll_append] at hnow
  exact ⟨_, Domain.wellFormed_applyAll h.wellFormed hfit.1, hp, hfit.2, hnow⟩

/-- Taking back the latest records leads to what the others tell. -/
theorem get?_foldl_undo (hwf : d₀.WellFormed) (old : List (DomainId × Change))
    (records : List (DomainId × Change)) {t : Table DomainId Domain}
    (hfit : d₀.FitAll (changesOf id (old ++ records.reverse)))
    (hnow : t.get? id = some (d₀.applyAll (changesOf id (old ++ records.reverse)))) :
    (records.foldl undo t).get? id = some (d₀.applyAll (changesOf id old)) := by
  induction records generalizing t with
  | nil => simpa using hnow
  | cons r rest ih =>
      obtain ⟨j, c⟩ := r
      have hlast : changesOf id (old ++ ((j, c) :: rest).reverse) =
          changesOf id (old ++ rest.reverse) ++ changesOf id [(j, c)] := by
        rw [List.reverse_cons, ← List.append_assoc, changesOf_append]
      rw [hlast, Domain.fitAll_append] at hfit
      rw [hlast, Domain.applyAll_append] at hnow
      refine ih hfit.1 ?_
      change (t.update j (·.undo c)).get? id = _
      rw [Table.get?_update, hnow]
      by_cases hj : j = id
      · subst hj
        rw [changesOf_singleton_self] at hfit ⊢
        rw [if_pos rfl]
        exact congrArg some (Domain.undo_apply (Domain.wellFormed_applyAll hwf hfit.1) hfit.2.1)
      · rw [changesOf_singleton_of_ne hj, if_neg (Ne.symm hj)]
        rfl

theorem position_rewind_le {k : Nat} (hs : s.rewind k = .ok s') : s'.position ≤ s.position := by
  obtain ⟨hk, -, htrail, -⟩ := rewind_eq_ok hs
  unfold position
  rw [htrail, Trail.length_eq_length_chronicle, Trail.length_eq_length_chronicle,
    s.trail.chronicle_eq (Nat.le_of_lt hk), List.length_append]
  exact Nat.le_add_right _ _

/-- Domains stay when the checkpoint of their creation is left. -/
theorem exists_get?_rewind {k : Nat} (hs : s.rewind k = .ok s') {d : Domain}
    (hd : s.table.get? id = some d) : ∃ d', s'.table.get? id = some d' := by
  obtain ⟨-, htable, -⟩ := rewind_eq_ok hs
  cases hd' : s'.table.get? id with
  | some d' => exact ⟨d', rfl⟩
  | none =>
      rw [Table.get?_eq_none_iff, htable, size_past] at hd'
      exact absurd (Table.lt_size_of_get? hd) (not_lt.2 hd')

/-- A rewind that leaves more than `p` changes on record does not reach back to `d₀`. -/
theorem Since.rewind (h : s.Since id p d₀) {k : Nat} (hs : s.rewind k = .ok s')
    (hp : p ≤ s'.position) : s'.Since id p d₀ := by
  obtain ⟨hk, htable, htrail, -⟩ := rewind_eq_ok hs
  have hle : p ≤ (s.trail.below k).chronicle.length := by
    rwa [← Trail.length_eq_length_chronicle, ← htrail]
  have hrecord : s.trail.chronicle.drop p =
      (s.trail.below k).chronicle.drop p ++ (s.trail.undone k).reverse := by
    rw [s.trail.chronicle_eq (Nat.le_of_lt hk), List.drop_append_of_le_length hle]
  have hfit := h.fit
  have hnow := h.now
  rw [changesSince_eq, hrecord] at hfit hnow
  refine ⟨h.wellFormed, hp, ?_, ?_⟩
  · rw [changesSince_eq, htrail]
    rw [changesOf_append] at hfit
    exact (Domain.fitAll_append.1 hfit).1
  · rw [changesSince_eq, htrail, htable]
    exact get?_foldl_undo h.wellFormed _ _ hfit hnow

end Domains

end Narrowing
