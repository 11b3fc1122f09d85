import Narrowing.Proofs.Variable.Restriction

/-!
Restrictions of intervals and of views of them. An upper bound takes every value above it, whatever
the variable. A lower bound on a view takes the values around zero out of the domain below, which is
possible for an interval only if a bound of it moves. `KeepsGap` says exactly when it is not: for a
view of the interval, when both bounds lie outside of what has to go; for a view of a view, which
takes out one sign at a time, already when one bound is negative and the other lies outside.
-/

namespace Narrowing.Variable

open Domains

variable {cause : Cause} {s : Domains}

/-- No restriction is expected to be refused, nor any member to stay. -/
abbrev Leaves (x : Variable) (cause : Cause) (left : Int → Prop) (r : Restriction) (s : Domains) :
    Prop :=
  Confines x.base cause (fun _ => False) left (x.restrict cause r) s

theorem Leaves.and {x : Variable} {left left' : Int → Prop} {r : Restriction}
    (h : Leaves x cause left r s) (h' : Leaves x cause left' r s) :
    Leaves x cause (fun u => left u ∧ left' u) r s :=
  Confines.and h h'

/-- Views do not add up: however deeply they are nested, they give the absolute value. -/
theorem natAbs_image (x : Variable) (u : Int) : (x.image u).natAbs = u.natAbs := by
  induction x with
  | domain id => rfl
  | abs x ih => rw [image_abs, Int.natAbs_natCast, ih]

/-- The values of a view of an interval have no holes. -/
theorem mem_current_of_between {t : Table DomainId Domain} {x : Variable} {d : Domain}
    (hd : t.get? x.base = some d) (hkind : d.enumerated = false) {a b v : Int}
    (ha : a ∈ (abs x).current t) (hb : b ∈ (abs x).current t) (hav : a ≤ v) (hvb : v ≤ b) :
    v ∈ (abs x).current t := by
  have hmembers : ∀ u, u ∈ t.members (abs x).base ↔ d.lower ≤ u ∧ u ≤ d.upper := by
    intro u
    change u ∈ t.members x.base ↔ _
    rw [Table.members_of_get? hd, Domain.mem_members_of_interval hkind]
  obtain ⟨u, hu, rfl⟩ := mem_current.1 ha
  obtain ⟨w, hw, rfl⟩ := mem_current.1 hb
  rw [hmembers] at hu hw
  rw [image_abs, natAbs_image] at hav hvb
  rw [mem_current]
  by_cases hin : d.lower ≤ v ∧ v ≤ d.upper
  · refine ⟨v, (hmembers v).2 hin, ?_⟩
    rw [image_abs, natAbs_image]
    omega
  · refine ⟨-v, (hmembers (-v)).2 ⟨?_, ?_⟩, ?_⟩
    · omega
    · omega
    · rw [image_abs, natAbs_image]
      omega

/-! ### Bounds -/

theorem leaves_atLeast_domain (hwf : s.table.WellFormed) (id : DomainId) (v : Int) :
    Leaves (.domain id) cause (v ≤ ·) (.atLeast v) s := by
  refine (confines_restrict hwf id (.atLeast v)).mono hwf (fun _ _ hf => hf.elim) fun u hu hl => ?_
  rcases hl with hl | ⟨d, hd, -, hlo, -⟩
  · exact hl
  · have hu : u ∈ s.table.members id := hu
    rw [Table.members_of_get? hd] at hu
    exact le_trans hlo (Domain.lower_le hu)

theorem leaves_atMost_domain (hwf : s.table.WellFormed) (id : DomainId) (v : Int) :
    Leaves (.domain id) cause (· ≤ v) (.atMost v) s := by
  refine (confines_restrict hwf id (.atMost v)).mono hwf (fun _ _ hf => hf.elim) fun u hu hl => ?_
  rcases hl with hl | ⟨d, hd, -, -, hhi⟩
  · exact hl
  · have hu : u ∈ s.table.members id := hu
    rw [Table.members_of_get? hd] at hu
    exact le_trans (Domain.le_upper hu) hhi

/-- A lower bound that is not positive takes effect on every variable. -/
theorem leaves_atLeast_of_nonpos (hwf : s.table.WellFormed) (x : Variable) {v : Int} (hv : v ≤ 0) :
    Leaves x cause (fun u => v ≤ x.image u) (.atLeast v) s := by
  cases x with
  | domain id => exact leaves_atLeast_domain hwf id v
  | abs x =>
      refine ((abs x).confined cause (.atLeast v) s hwf).mono hwf (fun _ _ hf => hf.elim)
        fun u _ _ => ?_
      exact hv.trans (image_nonneg x u)

/-- An upper bound takes effect on every variable. -/
theorem leaves_atMost (hwf : s.table.WellFormed) (x : Variable) (v : Int) :
    Leaves x cause (fun u => x.image u ≤ v) (.atMost v) s := by
  induction x generalizing s v with
  | domain id => exact leaves_atMost_domain hwf id v
  | abs x ih =>
      have hanswers := describes_answer hwf (abs x)
      change Confines x.base cause _ _
        (Absolute.atMost (fun _ q => (abs x).ask q) (x.restrict cause) v) s
      unfold Absolute.atMost
      split
      · exact confines_throw fun _ _ hf => hf
      · next hv =>
        refine confines_ask fun lo _ => ?_
        split
        · exact confines_throw fun _ _ hf => hf
        · refine confines_ask fun hi hhi => ?_
          split
          · next hu =>
            refine confines_pure fun u hmem => ?_
            exact ((hanswers.upper hhi).2 _ (image_mem_current hmem)).trans hu
          · unfold Absolute.clamp
            refine Confines.bind _ (ih hwf v) fun _ s' hn hfirst => confines_checked fun z hz => ?_
            obtain rfl := Absolute.negate_eq_ok hz
            have hwf' := hn.wellFormed hwf
            refine Confines.bind (fun u => (abs x).image u ≤ v)
              ((leaves_atLeast_of_nonpos hwf' x (by omega)).mono hwf' (fun _ _ hf => hf)
                fun u hu hl => ?_) fun _ _ _ hall => confines_pure hall
            have := hfirst u hu
            rw [image_abs]
            omega

/-! ### The gap around zero -/

/-- Whether a lower bound of `k + 1` on the variable leaves smaller values, because its domain is
the interval `d`. -/
def KeepsGap (d : Domain) (k : Int) : Variable → Prop
  | .domain _ => False
  | .abs (.domain _) => d.enumerated = false ∧ d.lower < -k ∧ k < d.upper
  | .abs (.abs _) => d.enumerated = false ∧ d.lower < 0 ∧ k < d.upper

instance (d : Domain) (k : Int) (x : Variable) : Decidable (KeepsGap d k x) := by
  unfold KeepsGap
  split <;> infer_instance

section KeepsGap

variable {d : Domain} {k : Int} {x : Variable} (h : KeepsGap d k x)
include h

theorem KeepsGap.enumerated_eq : d.enumerated = false := by
  unfold KeepsGap at h
  split at h
  · exact h.elim
  · exact h.1
  · exact h.1

theorem KeepsGap.lt_upper : k < d.upper := by
  unfold KeepsGap at h
  split at h
  · exact h.elim
  · exact h.2.2
  · exact h.2.2

theorem KeepsGap.lower_neg (hk : 0 ≤ k) : d.lower < 0 := by
  unfold KeepsGap at h
  split at h
  · exact h.elim
  · omega
  · exact h.2.1

theorem KeepsGap.image_eq (u : Int) : x.image u = (u.natAbs : Int) := by
  unfold KeepsGap at h
  split at h
  · exact h.elim
  · exact image_abs _ u
  · rw [image_abs, natAbs_image]

end KeepsGap

/-- A domain that lost values keeps no gap that it did not keep before. -/
theorem KeepsGap.of_subset {d d' : Domain} {k : Int} {x : Variable} (h : KeepsGap d' k x)
    (hwf' : d'.WellFormed) (hkind : d'.enumerated = d.enumerated) (hsub : d'.members ⊆ d.members) :
    KeepsGap d k x := by
  have hlo := Domain.lower_le (hsub hwf'.lower_mem)
  have hhi := Domain.le_upper (hsub hwf'.upper_mem)
  match x, h with
  | .abs (.domain _), ⟨h₁, h₂, h₃⟩ => exact ⟨hkind ▸ h₁, by omega, by omega⟩
  | .abs (.abs _), ⟨h₁, h₂, h₃⟩ => exact ⟨hkind ▸ h₁, by omega, by omega⟩

/-- Taking values of one sign and then those of the other from an interval moves a bound each time,
unless the interval reaches beyond them. -/
theorem leaves_mirrored_domain (hwf : s.table.WellFormed) {id : DomainId} {d : Domain}
    (hd : s.table.get? id = some d) {hi : Int} (hhi : 0 ≤ hi)
    (hgap : ¬ (d.lower < 0 ∧ hi < d.upper)) :
    Confines id cause (fun _ => False) (fun u => hi < (u.natAbs : Int))
      (mirrored (.domain id) cause 0 hi) s := by
  unfold mirrored
  refine Confines.bind (fun u => u < 0 ∨ hi < u)
    ((confines_restrict hwf id (.outside 0 hi)).mono hwf (fun _ _ hf => hf.elim)
      fun u hu hl => ?_) fun _ s' hn hfirst => ?_
  · rw [Table.members_of_get? hd] at hu
    have hlu := Domain.lower_le hu
    have huu := Domain.le_upper hu
    rcases hl with hl | ⟨d', hd', -, hl', hu'⟩
    · simp only [Restriction.Allows] at hl
      omega
    · obtain rfl := Option.some.inj (hd.symm.trans hd')
      simp only [Restriction.Allows] at hl' hu'
      omega
  · have hwf' := hn.wellFormed hwf
    refine confines_checked fun z hz => confines_checked fun z' hz' => ?_
    obtain rfl := Absolute.negate_eq_ok hz
    obtain rfl := Absolute.negate_eq_ok hz'
    refine Confines.bind (fun u => hi < (u.natAbs : Int))
      ((confines_restrict hwf' id (.outside (-hi) (-0))).mono hwf' (fun _ _ hf => hf.elim)
        fun u hu hl => ?_) fun _ _ _ hall => confines_pure hall
    have hfirst' := hfirst u hu
    rcases hl with hl | ⟨d', hd', -, hl', hu'⟩
    · simp only [Restriction.Allows] at hl
      omega
    · have hmem := hn.members_subset hwf id hu
      rw [Table.members_of_get? hd] at hmem
      have hsub := hn.members_subset hwf id
      rw [Table.members_of_get? hd, Table.members_of_get? hd'] at hsub
      rw [Table.members_of_get? hd'] at hu hfirst
      have hlow := hfirst _ (hwf' id d' hd').lower_mem
      have hupp := hfirst _ (hwf' id d' hd').upper_mem
      have hlow' := Domain.lower_le (hsub (hwf' id d' hd').lower_mem)
      have hupp' := Domain.le_upper (hsub (hwf' id d' hd').upper_mem)
      have hlu := Domain.lower_le hu
      have huu := Domain.le_upper hu
      simp only [Restriction.Allows] at hl' hu'
      omega

theorem leaves_outside (cause : Cause) (hwf : s.table.WellFormed) {x : Variable} {d : Domain}
    (hd : s.table.get? x.base = some d) {lo hi : Int} (hlo : lo ≤ 0) (hhi : 0 ≤ hi)
    (hgap : ¬ (d.lower < 0 ∧ hi < d.upper)) :
    Leaves (.abs x) cause (fun u => hi < (abs x).image u) (.outside lo hi) s := by
  induction x generalizing s d lo with
  | domain id =>
      refine confines_outside_of_mirrored (x := .domain id) hwf (by omega) hhi
        (fun _ hf => hf.elim) ?_
      rw [max_eq_right hlo]
      exact leaves_mirrored_domain hwf hd hhi hgap
  | abs x ih =>
      refine confines_outside_of_mirrored (x := .abs x) hwf (by omega) hhi
        (fun _ hf => hf.elim) ?_
      rw [max_eq_right hlo]
      unfold mirrored
      refine Confines.bind _ (ih hwf hd (le_refl 0) hgap) fun _ s' hn hfirst => ?_
      refine confines_checked fun z hz => confines_checked fun z' hz' => ?_
      refine Confines.bind (fun u => hi < (abs (abs x)).image u)
        (((abs x).confined cause _ s' (hn.wellFormed hwf)).mono (hn.wellFormed hwf)
          (fun _ _ hf => hf.elim) fun u hu _ => ?_) fun _ _ _ hall => confines_pure hall
      have := hfirst u hu
      rw [image_abs]
      omega

/-- A lower bound takes effect on a variable that keeps no gap. -/
theorem leaves_atLeast (cause : Cause) (hwf : s.table.WellFormed) {x : Variable} {d : Domain}
    (hd : s.table.get? x.base = some d) {k : Int} (hk : 0 ≤ k) (hgap : ¬ KeepsGap d k x) :
    Leaves x cause (fun u => k < x.image u) (.atLeast (k + 1)) s := by
  cases x with
  | domain id => exact leaves_atLeast_domain hwf id (k + 1)
  | abs x =>
      have hanswers := describes_answer hwf (abs x)
      by_cases he : d.enumerated = true
      · refine ((abs x).confined cause (.atLeast (k + 1)) s hwf).mono hwf (fun _ _ hf => hf.elim)
          fun u _ hl => ?_
        exact hl (by rw [Table.enumerated_of_get? hd, he])
      · change Confines x.base cause _ _
          (Absolute.atLeast (fun _ q => (abs x).ask q) (x.restrict cause) (k + 1)) s
        unfold Absolute.atLeast
        refine confines_ask fun lo hlo => ?_
        split
        · next hv =>
          refine confines_pure fun u hu => ?_
          have := (hanswers.lower hlo).2 _ (image_mem_current hu)
          omega
        · refine confines_ask fun hi hhi => ?_
          split
          · exact confines_throw fun _ _ hf => hf
          · unfold Absolute.widenGap
            refine confines_checked fun a ha => confines_checked fun b hb => ?_
            obtain ⟨z, hz, ha⟩ := Checked.bind_eq_ok ha
            obtain rfl := Absolute.negate_eq_ok hz
            obtain rfl := Value.eq_of_check ha
            obtain rfl := Value.eq_of_check hb
            have hkind : d.enumerated = false := by simpa using he
            cases x with
            | domain id =>
                have hd' : s.table.get? id = some d := hd
                refine (confines_restrict hwf id _).mono hwf (fun _ _ hf => hf.elim)
                  fun u hu hl => ?_
                have hmem : u ∈ s.table.members id := hu
                rw [Table.members_of_get? hd'] at hmem
                have hlu := Domain.lower_le hmem
                have huu := Domain.le_upper hmem
                have hgap : ¬ (d.lower < -k ∧ k < d.upper) := fun h => hgap ⟨hkind, h⟩
                change k < ((u.natAbs : Nat) : Int)
                rcases hl with hl | ⟨d', hd'', -, hl', hu'⟩
                · simp only [Restriction.Allows] at hl
                  omega
                · obtain rfl := Option.some.inj (hd'.symm.trans hd'')
                  simp only [Restriction.Allows] at hl' hu'
                  omega
            | abs x =>
                have hnogap : ¬ (d.lower < 0 ∧ k + 1 - 1 < d.upper) := fun h =>
                  hgap ⟨hkind, h.1, by omega⟩
                have houtside := leaves_outside cause (x := x) hwf hd
                  (show -(k + 1) + 1 ≤ 0 by omega) (show 0 ≤ k + 1 - 1 by omega) hnogap
                refine Confines.mono hwf houtside (fun _ _ hf => hf) fun u _ hl => ?_
                have hl : k + 1 - 1 < (abs x).image u := hl
                rw [image_abs]
                omega

/-- A lower bound above all values leaves none of them. -/
theorem leaves_atLeast_of_lt (hwf : s.table.WellFormed) {x : Variable} {v : Int}
    (hlt : ∀ u ∈ s.table.members x.base, x.image u < v) :
    Leaves x cause (fun _ => False) (.atLeast v) s := by
  by_cases hv : v ≤ 0
  · refine Confines.mono hwf (leaves_atLeast_of_nonpos hwf x hv) (fun _ _ hf => hf) fun u hu hl => ?_
    exact absurd hl (not_le.2 (hlt u hu))
  · cases hd : s.table.get? x.base with
    | none =>
        refine Confines.mono hwf (x.confined cause (.atLeast v) s hwf) (fun _ _ hf => hf.elim)
          fun u hu _ => ?_
        rw [Table.members, hd] at hu
        exact absurd hu (Finset.notMem_empty u)
    | some d =>
        rw [Table.members_of_get? hd] at hlt
        have hgap : ¬ KeepsGap d (v - 1) x := by
          intro hgap
          have hupper := hlt _ (hwf _ d hd).upper_mem
          have hge := hgap.lt_upper
          rw [hgap.image_eq] at hupper
          omega
        have hleaves := leaves_atLeast cause hwf hd (show 0 ≤ v - 1 by omega) hgap
        rw [Int.sub_add_cancel] at hleaves
        refine Confines.mono hwf hleaves (fun _ _ hf => hf) fun u hu hl => ?_
        rw [Table.members_of_get? hd] at hu
        have := hlt u hu
        have hl : v - 1 < x.image u := hl
        omega

/-- What any lower bound does: it never leaves only values below it, and it leaves none below it
unless the variable keeps a gap there. -/
theorem leaves_atLeast_unless (hwf : s.table.WellFormed) {x : Variable}
    (hx : x.base.index < s.table.size) (v : Int) :
    Leaves x cause
      (fun u => (¬ ∀ w ∈ s.table.members x.base, x.image w < v) ∧
        ((∀ d, s.table.get? x.base = some d → 0 < v → ¬ KeepsGap d (v - 1) x) → v ≤ x.image u))
      (.atLeast v) s := by
  have hconfined : Leaves x cause (fun _ => True) (.atLeast v) s :=
    (x.confined cause (.atLeast v) s hwf).mono hwf (fun _ _ hf => hf.elim) fun _ _ _ => trivial
  refine Leaves.and ?_ ?_
  · by_cases hlt : ∀ w ∈ s.table.members x.base, x.image w < v
    · exact Confines.mono hwf (leaves_atLeast_of_lt hwf hlt) (fun _ _ hf => hf)
        fun _ _ hf => hf.elim
    · exact hconfined.mono hwf (fun _ _ hf => hf) fun _ _ _ => hlt
  · by_cases hv : v ≤ 0
    · exact Confines.mono hwf (leaves_atLeast_of_nonpos hwf x hv) (fun _ _ hf => hf)
        fun _ _ hl _ => hl
    · cases hd : s.table.get? x.base with
      | none => exact absurd ((s.table.get?_eq_none_iff _).1 hd) (not_le.2 hx)
      | some d =>
          by_cases hgap : KeepsGap d (v - 1) x
          · exact hconfined.mono hwf (fun _ _ hf => hf) fun _ _ _ hno =>
              absurd hgap (hno d rfl (by omega))
          · have hleaves := leaves_atLeast cause hwf hd (show 0 ≤ v - 1 by omega) hgap
            rw [Int.sub_add_cancel] at hleaves
            refine Confines.mono hwf hleaves (fun _ _ hf => hf) fun u _ hl _ => ?_
            have hl : v - 1 < x.image u := hl
            omega

end Narrowing.Variable
