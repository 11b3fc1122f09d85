import Narrowing.Proofs.Variable.Restriction

/-!
Domains that have the same members and are of the same kind. They may be stored differently: a domain
that was full once and one that was listed later keep different bits. No answer and no restriction
tells them apart.
-/

namespace Narrowing

/-- Two tables with domains of the same kinds that have the same members. -/
structure Table.Alike (t t' : Table DomainId Domain) : Prop where
  size_eq : t.size = t'.size
  enumerated_eq : ∀ id, t.enumerated id = t'.enumerated id
  members_eq : ∀ id, t.members id = t'.members id

namespace Table

variable {g t t' t'' : Table DomainId Domain} {id : DomainId} {d d' : Domain}

theorem members_of_size_le (h : t.size ≤ id.index) : t.members id = ∅ := by
  rw [members, (t.get?_eq_none_iff id).2 h]

theorem enumerated_of_size_le (h : t.size ≤ id.index) : t.enumerated id = false := by
  rw [enumerated, (t.get?_eq_none_iff id).2 h]

namespace Alike

theorem refl (t : Table DomainId Domain) : t.Alike t := ⟨rfl, fun _ => rfl, fun _ => rfl⟩

theorem symm (h : t.Alike t') : t'.Alike t :=
  ⟨h.size_eq.symm, fun id => (h.enumerated_eq id).symm, fun id => (h.members_eq id).symm⟩

theorem trans (h : t.Alike t') (h' : t'.Alike t'') : t.Alike t'' :=
  ⟨h.size_eq.trans h'.size_eq, fun id => (h.enumerated_eq id).trans (h'.enumerated_eq id),
    fun id => (h.members_eq id).trans (h'.members_eq id)⟩

/-- What is below one of two tables alike is below the other. -/
theorem below (h : t.Alike t') (hb : g.Below t) : g.Below t' :=
  ⟨hb.wellFormed, hb.size_eq.trans h.size_eq,
    fun id => (hb.enumerated_eq id).trans (h.enumerated_eq id),
    fun id => (hb.subset id).trans (h.members_eq id).subset⟩

/-- Tables each below the other are alike. -/
theorem of_below (h : t.Below t') (h' : t'.Below t) : t.Alike t' :=
  ⟨h.size_eq, h.enumerated_eq, fun id => (h.subset id).antisymm (h'.subset id)⟩

/-- Only names of domains have to be compared. -/
theorem of_lt (hsize : t.size = t'.size) (hall : ∀ n < t.size,
    t.enumerated ⟨n⟩ = t'.enumerated ⟨n⟩ ∧ t.members ⟨n⟩ = t'.members ⟨n⟩) : t.Alike t' := by
  have hboth : ∀ id : DomainId,
      t.enumerated id = t'.enumerated id ∧ t.members id = t'.members id := by
    intro id
    rcases Nat.lt_or_ge id.index t.size with hlt | hge
    · exact hall id.index hlt
    · rw [enumerated_of_size_le hge, enumerated_of_size_le (hsize ▸ hge), members_of_size_le hge,
        members_of_size_le (hsize ▸ hge)]
      exact ⟨rfl, rfl⟩
  exact ⟨hsize, fun id => (hboth id).1, fun id => (hboth id).2⟩

/-- A domain is added to both. -/
theorem push (h : t.Alike t') (d : Domain) : (t.push d).Alike (t'.push d) := by
  refine ⟨by rw [size_push, size_push, h.size_eq], fun id => ?_, fun id => ?_⟩
  · have hkind := h.enumerated_eq id
    unfold enumerated at hkind ⊢
    rw [get?_push, get?_push, ← h.size_eq]
    by_cases hid : Key.index id = t.size
    · rw [if_pos hid, if_pos hid]
    · rwa [if_neg hid, if_neg hid]
  · have hmembers := h.members_eq id
    unfold members at hmembers ⊢
    rw [get?_push, get?_push, ← h.size_eq]
    by_cases hid : Key.index id = t.size
    · rw [if_pos hid, if_pos hid]
    · rwa [if_neg hid, if_neg hid]

end Alike

instance : Decidable (t.Alike t') :=
  decidable_of_iff (t.size = t'.size ∧ ∀ n < t.size,
      t.enumerated ⟨n⟩ = t'.enumerated ⟨n⟩ ∧ t.members ⟨n⟩ = t'.members ⟨n⟩)
    ⟨fun h => .of_lt h.1 h.2,
      fun h => ⟨h.size_eq, fun n _ => ⟨h.enumerated_eq ⟨n⟩, h.members_eq ⟨n⟩⟩⟩⟩

end Table

/-! ### Answers -/

theorem FirstFrom.unique {V : Finset Int} {a : Int} {o o' : Option Int} (h : FirstFrom V a o)
    (h' : FirstFrom V a o') : o = o' := by
  cases o with
  | none => cases o' with
    | none => rfl
    | some w => exact absurd (h w h'.1) (not_lt.2 h'.2.1)
  | some v => cases o' with
    | none => exact absurd (h' v h.1) (not_lt.2 h.2.1)
    | some w => exact congrArg some ((h.2.2 w h'.1 h'.2.1).antisymm (h'.2.2 v h.1 h.2.1))

theorem LastUpTo.unique {V : Finset Int} {a : Int} {o o' : Option Int} (h : LastUpTo V a o)
    (h' : LastUpTo V a o') : o = o' := by
  cases o with
  | none => cases o' with
    | none => rfl
    | some w => exact absurd (h w h'.1) (not_lt.2 h'.2.1)
  | some v => cases o' with
    | none => exact absurd (h' v h.1) (not_lt.2 h.2.1)
    | some w => exact congrArg some ((h'.2.2 v h.1 h.2.1).antisymm (h.2.2 w h'.1 h'.2.1))

/-- Two oracles give the same answers to the questions that restrictions of views ask. -/
structure Concur (ask ask' : Oracle) : Prop where
  lower : ask _ .lower = ask' _ .lower
  upper : ask _ .upper = ask' _ .upper
  contains : ∀ v, ask _ (.contains v) = ask' _ (.contains v)
  next : ∀ v, ask _ (.next v) = ask' _ (.next v)
  previous : ∀ v, ask _ (.previous v) = ask' _ (.previous v)

/-- A view asks for nothing else. -/
theorem Concur.absolute {ask ask' : Oracle} (h : Concur ask ask') :
    Concur (Absolute.answer ask) (Absolute.answer ask') := by
  have hlower : Absolute.lower ask = Absolute.lower ask' := by
    simp only [Absolute.lower, h.lower, h.upper, h.contains, h.next, h.previous]
  refine ⟨hlower, ?_, fun v => ?_, fun v => ?_, fun v => ?_⟩
  · simp only [Absolute.answer, Absolute.upper, h.lower, h.upper]
  · simp only [Absolute.answer, Absolute.contains, h.contains]
  · simp only [Absolute.answer, Absolute.next, hlower, h.next, h.previous]
  · simp only [Absolute.answer, Absolute.previous, h.next, h.previous]

namespace Domain

variable {d d' : Domain} {r : Restriction} (h : d.WellFormed) (h' : d'.WellFormed)
  (hmembers : d.members = d'.members)
include h h' hmembers

theorem lower_eq_of_members : d.lower = d'.lower :=
  (lower_le (hmembers ▸ h'.lower_mem)).antisymm (lower_le (hmembers ▸ h.lower_mem))

theorem upper_eq_of_members : d.upper = d'.upper :=
  (le_upper (hmembers ▸ h.upper_mem)).antisymm (le_upper (hmembers ▸ h'.upper_mem))

end Domain

namespace Domains

/-- Two stores of domains that have the same members and are of the same kinds. -/
structure Twins (s s' : Domains) : Prop where
  wellFormed : s.table.WellFormed
  wellFormed' : s'.table.WellFormed
  alike : s.table.Alike s'.table

variable {s s' : Domains} {id : DomainId} {d d' : Domain}

/-- Two stores have domains under the same names. -/
theorem Twins.get? (h : Twins s s') (id : DomainId) :
    (s.table.get? id = none ∧ s'.table.get? id = none) ∨
      ∃ d d', s.table.get? id = some d ∧ s'.table.get? id = some d' ∧
        d.enumerated = d'.enumerated ∧ d.members = d'.members := by
  cases hd : s.table.get? id with
  | none =>
      have hsize := h.alike.size_eq ▸ (s.table.get?_eq_none_iff id).1 hd
      exact Or.inl ⟨rfl, (s'.table.get?_eq_none_iff id).2 hsize⟩
  | some d =>
      have hlt : id.index < s'.table.size := h.alike.size_eq ▸ Table.lt_size_of_get? hd
      cases hd' : s'.table.get? id with
      | none => exact absurd ((s'.table.get?_eq_none_iff id).1 hd') (not_le.2 hlt)
      | some d' =>
          have hkind := h.alike.enumerated_eq id
          have hmembers := h.alike.members_eq id
          rw [Table.enumerated_of_get? hd, Table.enumerated_of_get? hd'] at hkind
          rw [Table.members_of_get? hd, Table.members_of_get? hd'] at hmembers
          exact Or.inr ⟨d, d', rfl, rfl, hkind, hmembers⟩

theorem Twins.concur (h : Twins s s') (id : DomainId) : Concur (s.answer id) (s'.answer id) := by
  rcases h.get? id with ⟨hd, hd'⟩ | ⟨d, d', hd, hd', -, hmembers⟩
  · have hfault : s.domain id = s'.domain id := by
      rw [domain, domain, Table.fetch, Table.fetch, hd, hd']
    constructor <;> intros <;> simp only [answer, hfault]
  · have hok : s.domain id = .ok d := s.table.fetch_eq_ok_iff.2 hd
    have hok' : s'.domain id = .ok d' := s'.table.fetch_eq_ok_iff.2 hd'
    have hwf := h.wellFormed id d hd
    have hwf' := h.wellFormed' id d' hd'
    refine ⟨?_, ?_, fun v => ?_, fun v => ?_, fun v => ?_⟩
    all_goals simp only [answer, hok, hok', bind, Except.bind]
    · rw [Domain.lower_eq_of_members hwf hwf' hmembers]
    · rw [Domain.upper_eq_of_members hwf hwf' hmembers]
    · rw [Domain.contains_eq hwf, Domain.contains_eq hwf', hmembers]
    · obtain ⟨o, ho, hfirst⟩ := Domain.next_eq hwf v
      obtain ⟨o', ho', hfirst'⟩ := Domain.next_eq hwf' v
      rw [← hmembers] at hfirst'
      rw [ho, ho', hfirst.unique hfirst']
    · obtain ⟨o, ho, hlast⟩ := Domain.previous_eq hwf v
      obtain ⟨o', ho', hlast'⟩ := Domain.previous_eq hwf' v
      rw [← hmembers] at hlast'
      rw [ho, ho', hlast.unique hlast']

end Domains

theorem Variable.concur {s s' : Domains} (h : s.Twins s') (x : Variable) :
    Concur (x.answer s) (x.answer s') := by
  induction x with
  | domain id => exact h.concur id
  | abs x ih => exact ih.absolute

/-! ### Restrictions -/

namespace Domain

variable {d d' : Domain} {r : Restriction}

/-- What is left of the members by a restriction. Those of an interval stay if both bounds may. -/
def left (d : Domain) (r : Restriction) : Finset Int :=
  if d.enumerated = false ∧ r.Allows d.lower ∧ r.Allows d.upper then d.members
  else d.members.filter r.Allows

theorem left_congr (h : d.WellFormed) (h' : d'.WellFormed) (hkind : d.enumerated = d'.enumerated)
    (hmembers : d.members = d'.members) (r : Restriction) : d.left r = d'.left r := by
  unfold left
  rw [hkind, hmembers, lower_eq_of_members h h' hmembers, upper_eq_of_members h h' hmembers]

theorem Obeys.members_eq (ho : Obeys d d' r) (h : d.WellFormed)
    (hkind : d'.enumerated = d.enumerated) : d'.members = d.left r := by
  unfold left
  rcases ho with hfilter | ⟨hi, rfl, hl, hu⟩
  · split
    · next hc =>
      obtain ⟨hi, hl, hu⟩ := hc
      have hlower : d.lower ∈ d'.members := hfilter ▸ Finset.mem_filter.2 ⟨h.lower_mem, hl⟩
      have hupper : d.upper ∈ d'.members := hfilter ▸ Finset.mem_filter.2 ⟨h.upper_mem, hu⟩
      refine Finset.Subset.antisymm (hfilter ▸ Finset.filter_subset _ _) fun v hv => ?_
      rw [mem_members_of_interval (hkind.trans hi)]
      exact ⟨(lower_le hlower).trans (lower_le hv), (le_upper hv).trans (le_upper hupper)⟩
    · exact hfilter
  · rw [if_pos ⟨hi, hl, hu⟩]

theorem card_applyAll_le {changes : List Change} (h : d.WellFormed) (hfit : FitAll d changes) :
    (d.applyAll changes).WellFormed ∧ (d.applyAll changes).enumerated = d.enumerated ∧
      (d.applyAll changes).members.card + changes.length ≤ d.members.card := by
  induction changes generalizing d with
  | nil => exact ⟨h, rfl, le_refl _⟩
  | cons c rest ih =>
      obtain ⟨hc, hrest⟩ := hfit
      obtain ⟨hwf, hkind, hcard⟩ := ih (wellFormed_apply h hc) hrest
      have hlt := card_apply_lt h hc
      change _ ∧ (((d.apply c).applyAll rest).enumerated = _) ∧
        ((d.apply c).applyAll rest).members.card + (rest.length + 1) ≤ _
      exact ⟨hwf, hkind.trans (enumerated_apply c), by omega⟩

/-- What planning a restriction comes to, in terms of members. -/
theorem plan_cases (h : d.WellFormed) (r : Restriction) :
    (d.plan r = .error .empty ∧ d.left r = ∅) ∨
      ∃ changes, d.plan r = .ok changes ∧ FitAll d changes ∧ (d.applyAll changes).WellFormed ∧
        (d.applyAll changes).enumerated = d.enumerated ∧
        (d.applyAll changes).members = d.left r ∧
        (changes.isEmpty = true ↔ d.left r = d.members) := by
  rcases planned_plan h r with ⟨changes, hplan, hfit, hobeys⟩ | ⟨hplan, hnone⟩
  · obtain ⟨hwf, hkind, hcard⟩ := card_applyAll_le h hfit
    have hleft := hobeys.members_eq h hkind
    refine Or.inr ⟨changes, hplan, hfit, hwf, hkind, hleft, fun hempty => ?_, fun hsame => ?_⟩
    · obtain rfl := List.isEmpty_iff.1 hempty
      exact hleft.symm
    · rw [hleft, hsame] at hcard
      exact List.isEmpty_iff.2 (List.length_eq_zero_iff.1 (by omega))
  · refine Or.inl ⟨hplan, ?_⟩
    rw [left, if_neg fun hc => hnone _ h.lower_mem hc.2.1]
    exact Finset.filter_false_of_mem hnone

end Domain

namespace Domains

variable {s s' : Domains} {id : DomainId} {α β : Type}

/-- Two steps end alike: with the same answer or for the same reason, and in twins. -/
def SameEnd : EStateM.Result Refusal Domains α → EStateM.Result Refusal Domains α → Prop
  | .ok a s, .ok a' s' => a = a' ∧ Twins s s'
  | .error e s, .error e' s' => e = e' ∧ Twins s s'
  | _, _ => False

/-- The step does not tell twins apart. -/
def Blind (m : Restricting α) : Prop := ∀ ⦃s s'⦄, Twins s s' → SameEnd (m s) (m s')

theorem blind_pure (a : α) : Blind (pure a) := fun _ _ h => ⟨rfl, h⟩

theorem blind_throw (e : Refusal) : Blind (throw e : Restricting α) := fun _ _ h => ⟨rfl, h⟩

theorem blind_checked (c : Checked α) : Blind (Absolute.checked c) := by
  intro s s' h
  cases c with
  | ok a => exact ⟨rfl, h⟩
  | error f => exact ⟨rfl, h⟩

theorem Blind.bind {m : Restricting α} {f : α → Restricting β} (h : Blind m)
    (hf : ∀ a, Blind (f a)) : Blind (m >>= f) := by
  intro s s' hs
  have hm := h hs
  cases hr : m s with
  | ok a s₁ => cases hr' : m s' with
    | ok a' s₁' =>
        rw [hr, hr'] at hm
        obtain ⟨rfl, hs₁⟩ := hm
        rw [bind_of_ok hr, bind_of_ok hr']
        exact hf a hs₁
    | error e s₁' =>
        rw [hr, hr'] at hm
        exact hm.elim
  | error e s₁ => cases hr' : m s' with
    | ok a' s₁' =>
        rw [hr, hr'] at hm
        exact hm.elim
    | error e' s₁' =>
        rw [hr, hr'] at hm
        rw [bind_of_error hr, bind_of_error hr']
        exact hm

theorem blind_ite {c : Prop} [Decidable c] {m m' : Restricting α} (h : Blind m) (h' : Blind m') :
    Blind (if c then m else m') := by
  split
  · exact h
  · exact h'

/-- A question of which twins give the same answer. -/
theorem blind_ask {x : Variable} {q : Query α}
    (h : ∀ ⦃s s'⦄, Twins s s' → x.answer s _ q = x.answer s' _ q) : Blind (x.ask q) := by
  intro s s' hs
  unfold Variable.ask
  rw [h hs]
  exact blind_checked _ hs

theorem members_changeAll (cause : Cause) {d : Domain} (hd : s.table.get? id = some d)
    {changes : List Change} (hfit : d.FitAll changes) (j : DomainId) :
    (s.changeAll id cause changes).table.members j =
      if j = id then (d.applyAll changes).members else s.table.members j := by
  obtain ⟨-, hget⟩ := narrows_changeAll (B := fun _ => True) cause trivial hd hfit
  unfold Table.members
  rw [hget]
  by_cases hj : j = id
  · rw [if_pos hj, if_pos hj]
  · rw [if_neg hj, if_neg hj]

/-- A restriction of a domain does not tell twins apart. -/
theorem blind_restrict (id : DomainId) (r : Restriction) (cause : Cause) :
    Blind (Domains.restrict id r cause) := by
  intro s s' h
  unfold Domains.restrict domain Table.fetch
  rcases h.get? id with ⟨hd, hd'⟩ | ⟨d, d', hd, hd', hkind, hmembers⟩
  · rw [hd, hd']
    exact ⟨rfl, h⟩
  have hwf := h.wellFormed id d hd
  have hwf' := h.wellFormed' id d' hd'
  have hleft := Domain.left_congr hwf hwf' hkind hmembers r
  rw [hd, hd']
  dsimp only
  rcases Domain.plan_cases hwf r with
    ⟨hplan, hnone⟩ | ⟨changes, hplan, hfit, hnew, -, hleaves, hempty⟩
  · rcases Domain.plan_cases hwf' r with ⟨hplan', -⟩ | ⟨_, hplan', -, hnew', -, hleaves', -⟩
    · rw [hplan, hplan']
      exact ⟨rfl, h⟩
    · have hmem := hnew'.lower_mem
      rw [hleaves', ← hleft, hnone] at hmem
      exact absurd hmem (Finset.notMem_empty _)
  · rcases Domain.plan_cases hwf' r with
      ⟨hplan', hnone'⟩ | ⟨changes', hplan', hfit', -, -, hleaves', hempty'⟩
    · have hmem := hnew.lower_mem
      rw [hleaves, hleft, hnone'] at hmem
      exact absurd hmem (Finset.notMem_empty _)
    · have hn := (narrows_changeAll (B := fun _ => True) cause trivial hd hfit).1
      have hn' := (narrows_changeAll (B := fun _ => True) cause trivial hd' hfit').1
      rw [hplan, hplan']
      refine ⟨?_, hn.wellFormed h.wellFormed, hn'.wellFormed h.wellFormed', ?_, fun j => ?_,
        fun j => ?_⟩
      · have hsame : changes.isEmpty = changes'.isEmpty :=
          Bool.eq_iff_iff.2 (by rw [hempty, hempty', hleft, hmembers])
        rw [hsame]
      · rw [hn.size_eq, hn'.size_eq, h.alike.size_eq]
      · rw [hn.enumerated_eq h.wellFormed, hn'.enumerated_eq h.wellFormed', h.alike.enumerated_eq]
      · rw [members_changeAll cause hd hfit, members_changeAll cause hd' hfit', hleaves, hleaves',
          hleft, h.alike.members_eq]

end Domains

namespace Variable

open Domains

variable {x : Variable} {cause : Cause}

section Views

variable (hx : ∀ r, Blind (x.restrict cause r))
include hx

theorem blind_widenGap (v : Int) : Blind (Absolute.widenGap (x.restrict cause) v) :=
  (blind_checked _).bind fun _ => (blind_checked _).bind fun _ => hx _

theorem blind_clamp (v : Int) : Blind (Absolute.clamp (x.restrict cause) v) :=
  (hx _).bind fun _ => (blind_checked _).bind fun _ => (hx _).bind fun _ => blind_pure _

/-- A restriction of a view does not tell twins apart, if those of what it looks at do not. -/
theorem blind_absolute (r : Restriction) :
    Blind (Absolute.restrict (fun _ q => (Variable.abs x).ask q) (x.restrict cause) r) := by
  have hlower : Blind ((Variable.abs x).ask .lower) := blind_ask fun _ _ h => (concur h _).lower
  have hupper : Blind ((Variable.abs x).ask .upper) := blind_ask fun _ _ h => (concur h _).upper
  have hcontains : ∀ v, Blind ((Variable.abs x).ask (.contains v)) := fun v =>
    blind_ask fun _ _ h => (concur h _).contains v
  cases r with
  | atLeast v =>
      refine hlower.bind fun lo => blind_ite (blind_pure _) ?_
      exact hupper.bind fun hi => blind_ite (blind_throw _) (blind_widenGap hx v)
  | atMost v =>
      refine blind_ite (blind_throw _) (hlower.bind fun lo => blind_ite (blind_throw _) ?_)
      exact hupper.bind fun hi => blind_ite (blind_pure _) (blind_clamp hx v)
  | without v =>
      refine (hcontains v).bind fun here => blind_ite (blind_pure _) ?_
      refine hlower.bind fun lo => hupper.bind fun hi => blind_ite (blind_throw _) ?_
      refine (hx _).bind fun positive => blind_ite (blind_pure _) ?_
      exact (blind_checked _).bind fun _ => (hx _).bind fun _ => blind_pure _
  | outside lo hi =>
      have hmirrored : Blind (x.mirrored cause (max lo 0) hi) :=
        (hx _).bind fun _ => (blind_checked _).bind fun _ => (blind_checked _).bind fun _ =>
          (hx _).bind fun _ => blind_pure _
      refine blind_ite (blind_pure _) (hlower.bind fun low => blind_ite ?_ hmirrored)
      exact hupper.bind fun high => blind_ite ((blind_throw _).bind fun _ => hmirrored) hmirrored
  | exactly v =>
      refine (hcontains v).bind fun here => blind_ite (blind_throw _) (blind_ite (hx _) ?_)
      exact (blind_clamp hx v).bind fun _ => (blind_widenGap hx v).bind fun _ => blind_pure _

end Views

/-- No restriction of a variable tells twins apart. -/
theorem blind_restrict (x : Variable) (cause : Cause) (r : Restriction) :
    Blind (x.restrict cause r) := by
  induction x generalizing r with
  | domain id => exact Domains.blind_restrict id r cause
  | abs x ih => exact blind_absolute ih r

end Variable

end Narrowing
