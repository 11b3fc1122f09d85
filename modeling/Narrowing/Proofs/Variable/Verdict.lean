import Narrowing.Proofs.Variable.Portrayal
import Narrowing.Proofs.Variable.Spent

/-!
Restrictions are decided before anything is done. A restriction of a domain is refused exactly when
no member may stay. One of a view becomes two or three restrictions of what lies below, any of which
could be refused after another one was carried out; but the view looks at its own values first, and
as long as a member may stay, that member is allowed by every one of them, so none is refused. The
answer tells whether the domain lost a member.
-/

namespace Narrowing

/-- The values that a restriction names are machine values. -/
def Restriction.InRange : Restriction → Prop
  | .atLeast v => Value.InRange v
  | .atMost v => Value.InRange v
  | .without v => Value.InRange v
  | .outside lo hi => Value.InRange lo ∧ Value.InRange hi
  | .exactly v => Value.InRange v

instance : (r : Restriction) → Decidable r.InRange
  | .atLeast v => inferInstanceAs (Decidable (Value.InRange v))
  | .atMost v => inferInstanceAs (Decidable (Value.InRange v))
  | .without v => inferInstanceAs (Decidable (Value.InRange v))
  | .outside lo hi => inferInstanceAs (Decidable (Value.InRange lo ∧ Value.InRange hi))
  | .exactly v => inferInstanceAs (Decidable (Value.InRange v))

/-! ### Domains -/

namespace Domain

variable {d d' : Domain} {r : Restriction}

/-- A series of changes costs a member at least. -/
theorem members_applyAll_ssubset (h : d.WellFormed) {cs : List Change} (hfit : d.FitAll cs)
    (hcs : cs ≠ []) : (d.applyAll cs).members ⊂ d.members := by
  cases cs with
  | nil => exact absurd rfl hcs
  | cons c cs =>
      refine (members_applyAll_subset h hfit).ssubset_of_ne fun hsame => ?_
      have hrest := members_applyAll_subset (wellFormed_apply h hfit.1) hfit.2
      have hless := card_apply_lt h hfit.1
      have hle := Finset.card_le_card hrest
      change (d.applyAll (c :: cs)).members.card ≤ _ at hle
      rw [hsame] at hle
      omega

theorem members_eq_Icc (h : d.enumerated = false) : d.members = Finset.Icc d.lower d.upper := by
  ext v
  rw [mem_members_of_interval h, Finset.mem_Icc]

/-- A restriction that is carried out finds a member that may stay. -/
theorem Obeys.exists_allowed (h : d.Obeys d' r) (hwf : d.WellFormed) (hwf' : d'.WellFormed) :
    ∃ v ∈ d.members, r.Allows v := by
  rcases h with hmembers | ⟨-, -, hlower, -⟩
  · have hmem := hwf'.lower_mem
    rw [hmembers, Finset.mem_filter] at hmem
    exact ⟨_, hmem⟩
  · exact ⟨d.lower, hwf.lower_mem, hlower⟩

/-- An interval comes to have what may stay if that is an interval, and stays as it is otherwise. -/
theorem Obeys.interval (h : d.Obeys d' r) (hkind : d.enumerated = false)
    (hkind' : d'.enumerated = false) :
    ((∃ lo hi, d.members.filter r.Allows = Finset.Icc lo hi) →
        d'.members = d.members.filter r.Allows) ∧
      ((¬ ∃ lo hi, d.members.filter r.Allows = Finset.Icc lo hi) → d' = d) := by
  rcases h with hmembers | ⟨-, rfl, hlower, hupper⟩
  · refine ⟨fun _ => hmembers, fun hnone => absurd ?_ hnone⟩
    exact ⟨d'.lower, d'.upper, hmembers.symm.trans (members_eq_Icc hkind')⟩
  · refine ⟨?_, fun _ => rfl⟩
    rintro ⟨lo, hi, hall⟩
    refine (Finset.filter_true_of_mem fun v hv => ?_).symm
    have hbounds := (mem_members_of_interval hkind).1 hv
    have hle := hbounds.1.trans hbounds.2
    have hlo : d'.lower ∈ d'.members.filter r.Allows :=
      Finset.mem_filter.2 ⟨(mem_members_of_interval hkind).2 ⟨le_refl _, hle⟩, hlower⟩
    have hhi : d'.upper ∈ d'.members.filter r.Allows :=
      Finset.mem_filter.2 ⟨(mem_members_of_interval hkind).2 ⟨hle, le_refl _⟩, hupper⟩
    rw [hall, Finset.mem_Icc] at hlo hhi
    have hmem : v ∈ d'.members.filter r.Allows := by
      rw [hall, Finset.mem_Icc]
      omega
    exact (Finset.mem_filter.1 hmem).2

end Domain

namespace Domains

variable {s s' s'' : Domains} {id : DomainId} {d : Domain} {r : Restriction} {b b' : Bool}

/-- `b` tells whether the domain under a name lost members on the way from `s` to `s'`, and nothing
happened if it did not. -/
structure Told (id : DomainId) (s s' : Domains) (b : Bool) : Prop where
  same : b = false → s' = s
  lost : b = true → s'.table.members id ⊂ s.table.members id

theorem Told.refl (id : DomainId) (s : Domains) : Told id s s false :=
  ⟨fun _ => rfl, fun h => nomatch h⟩

theorem Told.trans (h : Told id s s' b) (h' : Told id s' s'' b') : Told id s s'' (b || b') := by
  cases b with
  | false =>
      obtain rfl := h.same rfl
      exact h'
  | true =>
      refine ⟨(fun he => nomatch he), fun _ => ?_⟩
      cases b' with
      | false =>
          obtain rfl := h'.same rfl
          exact h.lost rfl
      | true => exact (h'.lost rfl).trans (h.lost rfl)

theorem Told.iff_members (h : Told id s s' b) :
    b = true ↔ s'.table.members id ≠ s.table.members id := by
  cases b with
  | false =>
      obtain rfl := h.same rfl
      simp
  | true => exact iff_of_true rfl (h.lost rfl).ne

theorem Told.iff_domain (h : Told id s s' b) {d' : Domain} (hd : s.table.get? id = some d)
    (hd' : s'.table.get? id = some d') : b = true ↔ d' ≠ d := by
  cases b with
  | false =>
      obtain rfl := h.same rfl
      simp [Option.some.inj (hd'.symm.trans hd)]
  | true =>
      refine iff_of_true rfl fun he => ?_
      have hlost := h.lost rfl
      rw [Table.members_of_get? hd, Table.members_of_get? hd', he] at hlost
      exact hlost.ne rfl

/-- A restriction of a domain is refused or carried out. -/
theorem refused_or_changed (h : d.WellFormed) (hd : s.table.get? id = some d) (r : Restriction)
    (cause : Cause) :
    ((∀ v ∈ d.members, ¬ r.Allows v) ∧ restrict id r cause s = .error .empty s) ∨
      ∃ changes, restrict id r cause s = .ok (!changes.isEmpty) (s.changeAll id cause changes) ∧
        d.FitAll changes ∧ d.Obeys (d.applyAll changes) r := by
  unfold restrict
  rw [domain_eq hd]
  rcases Domain.planned_plan h r with ⟨changes, hplan, hfit, hobeys⟩ | ⟨hplan, hnone⟩
  · refine Or.inr ⟨changes, ?_, hfit, hobeys⟩
    simp only [hplan]
  · refine Or.inl ⟨hnone, ?_⟩
    simp only [hplan]

theorem told_changeAll (h : d.WellFormed) (hd : s.table.get? id = some d) (cause : Cause)
    {changes : List Change} (hfit : d.FitAll changes) :
    Told id s (s.changeAll id cause changes) (!changes.isEmpty) := by
  cases changes with
  | nil => exact Told.refl id s
  | cons c rest =>
      refine ⟨(fun he => nomatch he), fun _ => ?_⟩
      have hget := (narrows_changeAll (B := fun _ => True) cause trivial hd hfit).2 id
      rw [if_pos rfl] at hget
      rw [Table.members_of_get? hd, Table.members_of_get? hget]
      exact Domain.members_applyAll_ssubset h hfit (List.cons_ne_nil _ _)

end Domains

/-! ### Views -/

namespace Variable

open Domains

variable {x : Variable} {s s' : Domains} {cause : Cause} {r : Restriction} {u v : Int} {b : Bool}

/-- `u` is a member of the domain of a variable, all of whose members have an absolute value. -/
structure Holds (x : Variable) (s : Domains) (u : Int) : Prop where
  wellFormed : s.table.WellFormed
  mem : u ∈ s.table.members x.base
  least_notMem : Value.least ∉ s.table.members x.base

/-- A member that may stay is still there after the restriction. -/
theorem Holds.after (h : x.Holds s u) (hr : x.restrict cause r s = .ok b s') (hu : x.Permits r u) :
    x.Holds s' u := by
  have hconfined := x.confined cause r s h.wellFormed
  obtain ⟨hnarrows, hstays, -⟩ := Ends.of_ok hconfined hr
  refine ⟨hnarrows.wellFormed h.wellFormed, hstays u h.mem hu, fun hmem => ?_⟩
  exact h.least_notMem (hnarrows.members_subset h.wellFormed x.base hmem)

theorem Holds.exists_domain (h : x.Holds s u) : ∃ d, s.table.get? x.base = some d := by
  have hmem := h.mem
  unfold Table.members at hmem
  cases hd : s.table.get? x.base with
  | some d => exact ⟨d, rfl⟩
  | none =>
      rw [hd] at hmem
      exact absurd hmem (Finset.notMem_empty u)

/-- All answers about the variable portray its values. -/
theorem Holds.portrays (h : x.Holds s u) : Portrays (x.answer s) (x.current s.table) := by
  obtain ⟨d, hd⟩ := h.exists_domain
  have hleast := h.least_notMem
  rw [Table.members_of_get? hd] at hleast
  exact portrays_answer h.wellFormed hd hleast

theorem Holds.abs (h : x.Holds s u) : (Variable.abs x).Holds s u :=
  ⟨h.wellFormed, h.mem, h.least_notMem⟩

theorem Holds.of_abs (h : (Variable.abs x).Holds s u) : x.Holds s u :=
  ⟨h.wellFormed, h.mem, h.least_notMem⟩

/-- A view has machine values, none of which is negative. -/
theorem Holds.inRange (h : x.Holds s u) (hw : v ∈ (Variable.abs x).current s.table) :
    0 ≤ v ∧ v ≤ Value.greatest := by
  obtain ⟨d, hd⟩ := h.exists_domain
  have hleast := h.least_notMem
  rw [Table.members_of_get? hd] at hleast
  obtain ⟨w, -, rfl⟩ := mem_current.1 hw
  exact ⟨image_nonneg x w,
    (invertible_current (x := .abs x) hd (h.wellFormed _ d hd) hleast _ hw).1.2⟩

/-- Restrictions that a member outlasts are carried out, and the answer tells whether they had an
effect. -/
def Performs (x : Variable) (cause : Cause) : Prop :=
  ∀ ⦃r : Restriction⦄ ⦃s : Domains⦄ ⦃u : Int⦄, r.InRange → x.Holds s u → x.Permits r u →
    ∃ b s', x.restrict cause r s = .ok b s' ∧ Told x.base s s' b

theorem performs_domain (id : DomainId) (cause : Cause) : (domain id).Performs cause := by
  intro r s u _ h hu
  obtain ⟨d, hd⟩ := h.exists_domain
  have hwf := h.wellFormed id d hd
  have hmem : u ∈ d.members := Table.members_of_get? hd ▸ h.mem
  rcases refused_or_changed hwf hd r cause with ⟨hnone, -⟩ | ⟨changes, hr, hfit, -⟩
  · exact absurd hu (hnone u hmem)
  · exact ⟨_, _, hr, told_changeAll hwf hd cause hfit⟩

theorem checked_of_ok {α : Type} {c : Checked α} {a : α} (h : c = .ok a) (s : Domains) :
    Absolute.checked c s = .ok a s := by
  rw [h]
  rfl

section Perform

variable (hx : x.Performs cause) (h : x.Holds s u)
include hx h

theorem performs_widenGap (hv : 0 < v) (hvr : v ≤ Value.greatest)
    (hu : (abs x).Permits (.atLeast v) u) :
    ∃ b s', Absolute.widenGap (x.restrict cause) v s = .ok b s' ∧ Told x.base s s' b := by
  have hneg : Value.InRange (-v) := by
    unfold Value.InRange Value.least Value.greatest at *
    omega
  have hlo : Value.InRange (-v + 1) := by
    unfold Value.InRange Value.least Value.greatest at *
    omega
  have hhi : Value.InRange (v - 1) := by
    unfold Value.InRange Value.least Value.greatest at *
    omega
  have hlow : (do Value.check ((← Absolute.negate v) + 1) : Checked Int) = .ok (-v + 1) := by
    rw [Absolute.negate_of_inRange hneg]
    exact Value.check_eq_ok hlo
  have hpermits : x.Permits (.outside (-v + 1) (v - 1)) u := by
    simp only [Permits, Restriction.Allows, image_abs] at hu ⊢
    omega
  unfold Absolute.widenGap
  rw [bind_of_ok (checked_of_ok hlow s), bind_of_ok (checked_of_ok (Value.check_eq_ok hhi) s)]
  exact hx (r := .outside (-v + 1) (v - 1)) ⟨hlo, hhi⟩ h hpermits

/-- Two restrictions of what lies below, one after the other. -/
theorem performs_both (r₁ r₂ : Restriction) (hr₁ : r₁.InRange) (hr₂ : r₂.InRange)
    (hu₁ : x.Permits r₁ u) (hu₂ : x.Permits r₂ u) :
    ∃ b₁ s₁ b₂ s₂, x.restrict cause r₁ s = .ok b₁ s₁ ∧ x.restrict cause r₂ s₁ = .ok b₂ s₂ ∧
      Told x.base s s₂ (b₁ || b₂) := by
  obtain ⟨b₁, s₁, hrun₁, htold₁⟩ := hx hr₁ h hu₁
  obtain ⟨b₂, s₂, hrun₂, htold₂⟩ := hx hr₂ (h.after hrun₁ hu₁) hu₂
  exact ⟨b₁, s₁, b₂, s₂, hrun₁, hrun₂, htold₁.trans htold₂⟩

theorem performs_clamp (hv : 0 ≤ v) (hvr : v ≤ Value.greatest)
    (hu : (abs x).Permits (.atMost v) u) :
    ∃ b s', Absolute.clamp (x.restrict cause) v s = .ok b s' ∧ Told x.base s s' b ∧
      x.Holds s' u := by
  have hpos : Value.InRange v := ⟨by unfold Value.least; omega, hvr⟩
  have hneg := Absolute.inRange_neg hv hpos
  have hupper : x.Permits (.atMost v) u := by
    simp only [Permits, Restriction.Allows, image_abs] at hu ⊢
    omega
  have hlower : x.Permits (.atLeast (-v)) u := by
    simp only [Permits, Restriction.Allows, image_abs] at hu ⊢
    omega
  obtain ⟨b₁, s₁, b₂, s₂, hrun₁, hrun₂, htold⟩ :=
    performs_both hx h (.atMost v) (.atLeast (-v)) hpos hneg hupper hlower
  refine ⟨b₁ || b₂, s₂, ?_, htold, (h.after hrun₁ hupper).after hrun₂ hlower⟩
  unfold Absolute.clamp
  rw [bind_of_ok hrun₁, bind_of_ok (checked_of_ok (Absolute.negate_of_inRange hneg) s₁),
    bind_of_ok hrun₂]
  rfl

theorem performs_atLeast (hu : (abs x).Permits (.atLeast v) u) :
    ∃ b s', (abs x).restrict cause (.atLeast v) s = .ok b s' ∧ Told x.base s s' b := by
  obtain ⟨lo, hlo, hloV, hleast⟩ := h.abs.portrays.lower
  obtain ⟨hi, hhi, hhiV, hgreatest⟩ := h.abs.portrays.upper
  have hle : v ≤ hi := le_trans hu (hgreatest (image_mem_current h.mem))
  rw [restrict, Absolute.restrict, Absolute.atLeast, bind_of_ok (ask_of_ok hlo)]
  split
  · exact ⟨false, s, rfl, .refl _ _⟩
  · next hvlo =>
    have hrange := h.inRange hhiV
    have hpos := (h.inRange hloV).1
    rw [bind_of_ok (ask_of_ok hhi), if_neg (not_lt.2 hle)]
    exact performs_widenGap hx h (by omega) (by omega) hu

theorem performs_atMost (hu : (abs x).Permits (.atMost v) u) :
    ∃ b s', (abs x).restrict cause (.atMost v) s = .ok b s' ∧ Told x.base s s' b := by
  obtain ⟨lo, hlo, hloV, hleast⟩ := h.abs.portrays.lower
  obtain ⟨hi, hhi, hhiV, hgreatest⟩ := h.abs.portrays.upper
  have hle : lo ≤ v := le_trans (hleast (image_mem_current h.mem)) hu
  have hpos := (h.inRange hloV).1
  rw [restrict, Absolute.restrict, Absolute.atMost, if_neg (by omega), bind_of_ok (ask_of_ok hlo),
    if_neg (not_lt.2 hle), bind_of_ok (ask_of_ok hhi)]
  split
  · exact ⟨false, s, rfl, .refl _ _⟩
  · next hhiv =>
    have hrange := h.inRange hhiV
    obtain ⟨b, s', hrun, htold, -⟩ := performs_clamp hx h (by omega) (by omega) hu
    exact ⟨b, s', hrun, htold⟩

theorem performs_without (hv : Value.InRange v) (hu : (abs x).Permits (.without v) u) :
    ∃ b s', (abs x).restrict cause (.without v) s = .ok b s' ∧ Told x.base s s' b := by
  obtain ⟨lo, hlo, hloV, hleast⟩ := h.abs.portrays.lower
  obtain ⟨hi, hhi, hhiV, hgreatest⟩ := h.abs.portrays.upper
  rw [restrict, Absolute.restrict, Absolute.without,
    bind_of_ok (ask_of_ok (h.abs.portrays.contains v hv))]
  by_cases hmem : v ∈ (abs x).current s.table
  · have hpos := (h.inRange hmem).1
    have hneg := Absolute.inRange_neg hpos hv
    have hbounds : lo ≠ hi := by
      rintro rfl
      have hvlo := le_antisymm (hleast hmem) (hgreatest hmem)
      have hulo := le_antisymm (hleast (image_mem_current h.mem)) (hgreatest (image_mem_current h.mem))
      exact hu (hulo.symm.trans hvlo)
    have hpermits : x.Permits (.without v) u := by
      simp only [Permits, Restriction.Allows, image_abs] at hu ⊢
      omega
    have hpermits' : x.Permits (.without (-v)) u := by
      simp only [Permits, Restriction.Allows, image_abs] at hu ⊢
      omega
    rw [if_neg (by simp [hmem]), bind_of_ok (ask_of_ok hlo), bind_of_ok (ask_of_ok hhi),
      if_neg hbounds]
    obtain ⟨b₁, s₁, hrun₁, htold₁⟩ := hx (r := .without v) hv h hpermits
    obtain ⟨b₂, s₂, hrun₂, htold₂⟩ :=
      hx (r := .without (-v)) hneg (h.after hrun₁ hpermits) hpermits'
    rw [bind_of_ok hrun₁]
    split
    · exact ⟨b₁, s₁, rfl, htold₁⟩
    · refine ⟨b₁ || b₂, s₂, ?_, htold₁.trans htold₂⟩
      rw [bind_of_ok (checked_of_ok (Absolute.negate_of_inRange hneg) s₁), bind_of_ok hrun₂]
      rfl
  · rw [if_pos (by simp [hmem])]
    exact ⟨false, s, rfl, .refl _ _⟩

theorem performs_mirrored {lo hi : Int} (hlo : 0 ≤ lo) (hlor : lo ≤ Value.greatest)
    (hhi : 0 ≤ hi) (hhir : hi ≤ Value.greatest) (hu : (abs x).Permits (.outside lo hi) u) :
    ∃ b s', x.mirrored cause lo hi s = .ok b s' ∧ Told x.base s s' b := by
  have hlo' : Value.InRange lo := ⟨by unfold Value.least; omega, hlor⟩
  have hhi' : Value.InRange hi := ⟨by unfold Value.least; omega, hhir⟩
  have hlo'' := Absolute.inRange_neg hlo hlo'
  have hhi'' := Absolute.inRange_neg hhi hhi'
  have hpermits : x.Permits (.outside lo hi) u := by
    simp only [Permits, Restriction.Allows, image_abs] at hu ⊢
    omega
  have hpermits' : x.Permits (.outside (-hi) (-lo)) u := by
    simp only [Permits, Restriction.Allows, image_abs] at hu ⊢
    omega
  obtain ⟨b₁, s₁, b₂, s₂, hrun₁, hrun₂, htold⟩ := performs_both hx h (.outside lo hi)
    (.outside (-hi) (-lo)) ⟨hlo', hhi'⟩ ⟨hhi'', hlo''⟩ hpermits hpermits'
  refine ⟨b₁ || b₂, s₂, ?_, htold⟩
  unfold mirrored
  rw [bind_of_ok hrun₁, bind_of_ok (checked_of_ok (Absolute.negate_of_inRange hhi'') s₁),
    bind_of_ok (checked_of_ok (Absolute.negate_of_inRange hlo'') s₁), bind_of_ok hrun₂]
  rfl

theorem performs_outside {lo hi : Int} (hhir : hi ≤ Value.greatest)
    (hu : (abs x).Permits (.outside lo hi) u) :
    ∃ b s', (abs x).restrict cause (.outside lo hi) s = .ok b s' ∧ Told x.base s s' b := by
  obtain ⟨low, hlow, hlowV, hleast⟩ := h.abs.portrays.lower
  obtain ⟨high, hhigh, hhighV, hgreatest⟩ := h.abs.portrays.upper
  have hpos := image_nonneg x u
  rw [restrict, Absolute.restrict, Absolute.outside]
  split
  · exact ⟨false, s, rfl, .refl _ _⟩
  · next hsome =>
    have hu' : (abs x).Permits (.outside (max lo 0) hi) u := by
      simp only [Permits, Restriction.Allows] at hu ⊢
      omega
    have hmirrored := performs_mirrored hx h (le_max_right lo 0) (by omega) (by omega) hhir hu'
    rw [bind_of_ok (ask_of_ok hlow)]
    split
    · next hl =>
      have hnot : ¬ high ≤ hi := by
        have hul := hleast (image_mem_current h.mem)
        have huh := hgreatest (image_mem_current h.mem)
        simp only [Permits, Restriction.Allows] at hu
        omega
      rw [bind_of_ok (ask_of_ok hhigh), if_neg hnot]
      exact hmirrored
    · exact hmirrored

theorem performs_exactly (hv : Value.InRange v) (hu : (abs x).Permits (.exactly v) u) :
    ∃ b s', (abs x).restrict cause (.exactly v) s = .ok b s' ∧ Told x.base s s' b := by
  have hmem : v ∈ (abs x).current s.table := (hu : (abs x).image u = v) ▸ image_mem_current h.mem
  have hpos := (h.inRange hmem).1
  rw [restrict, Absolute.restrict, Absolute.exactly,
    bind_of_ok (ask_of_ok (h.abs.portrays.contains v hv)), if_neg (by simp [hmem])]
  split
  · next hzero =>
    have hpermits : x.Permits (.exactly 0) u := by
      simp only [Permits, Restriction.Allows, image_abs] at hu ⊢
      omega
    exact hx (r := .exactly 0) (show Value.InRange 0 by decide) h hpermits
  · next hzero =>
    have hmost : (abs x).Permits (.atMost v) u := le_of_eq hu
    have hleast : (abs x).Permits (.atLeast v) u := ge_of_eq hu
    obtain ⟨b₁, s₁, hrun₁, htold₁, h₁⟩ := performs_clamp hx h hpos hv.2 hmost
    obtain ⟨b₂, s₂, hrun₂, htold₂⟩ := performs_widenGap hx h₁ (by omega) hv.2 hleast
    refine ⟨b₁ || b₂, s₂, ?_, htold₁.trans htold₂⟩
    rw [bind_of_ok hrun₁, bind_of_ok hrun₂]
    rfl

end Perform

/-- Restrictions of any variable that a member outlasts are carried out. -/
theorem performs (x : Variable) (cause : Cause) : x.Performs cause := by
  induction x with
  | domain id => exact performs_domain id cause
  | abs x ih =>
      intro r s u hr h hu
      have h := h.of_abs
      cases r with
      | atLeast v => exact performs_atLeast ih h hu
      | atMost v => exact performs_atMost ih h hu
      | without v => exact performs_without ih h hr hu
      | outside lo hi => exact performs_outside ih h hr.2.2 hu
      | exactly v => exact performs_exactly ih h hr hu

/-- A view of which no value may stay refuses, and leaves everything as it was. -/
theorem refuses_view (h : x.Holds s u) (hr : r.InRange)
    (hnone : ∀ w ∈ (abs x).current s.table, ¬ r.Allows w) :
    (abs x).restrict cause r s = .error .empty s := by
  obtain ⟨lo, hlo, hloV, hleast⟩ := h.abs.portrays.lower
  obtain ⟨hi, hhi, hhiV, hgreatest⟩ := h.abs.portrays.upper
  have hlo' := hnone lo hloV
  have hhi' := hnone hi hhiV
  have hpos := (h.inRange hloV).1
  cases r with
  | atLeast v =>
      simp only [Restriction.Allows] at hlo' hhi'
      rw [restrict, Absolute.restrict, Absolute.atLeast, bind_of_ok (ask_of_ok hlo), if_neg hlo',
        bind_of_ok (ask_of_ok hhi), if_pos (not_le.1 hhi')]
      rfl
  | atMost v =>
      simp only [Restriction.Allows] at hlo' hhi'
      rw [restrict, Absolute.restrict, Absolute.atMost]
      split
      · rfl
      · rw [bind_of_ok (ask_of_ok hlo), if_pos (not_le.1 hlo')]
        rfl
  | without v =>
      simp only [Restriction.Allows, not_not] at hlo' hhi'
      have hcontains := h.abs.portrays.contains v hr
      rw [decide_eq_true (hlo' ▸ hloV)] at hcontains
      rw [restrict, Absolute.restrict, Absolute.without, bind_of_ok (ask_of_ok hcontains),
        if_neg (by decide), bind_of_ok (ask_of_ok hlo), bind_of_ok (ask_of_ok hhi),
        if_pos (hlo'.trans hhi'.symm)]
      rfl
  | outside lo' hi' =>
      simp only [Restriction.Allows, not_not] at hlo' hhi'
      rw [restrict, Absolute.restrict, Absolute.outside, if_neg (by omega),
        bind_of_ok (ask_of_ok hlo), if_pos (by omega), bind_of_ok (ask_of_ok hhi), if_pos hhi'.2]
      rfl
  | exactly v =>
      have hcontains := h.abs.portrays.contains v hr
      rw [decide_eq_false fun hv => hnone v hv rfl] at hcontains
      rw [restrict, Absolute.restrict, Absolute.exactly, bind_of_ok (ask_of_ok hcontains),
        if_pos (by decide)]
      rfl

/-- A restriction of a view is refused, and then nothing happened, or it is carried out. -/
theorem refused_or_performed (hwf : s.table.WellFormed) {y : Variable} {d : Domain}
    (hd : s.table.get? y.base = some d) (hleast : Value.least ∉ d.members) (hr : r.InRange)
    (cause : Cause) :
    ((∀ u ∈ d.members, ¬ r.Allows (u.natAbs : Int)) ∧
        (abs y).restrict cause r s = .error .empty s) ∨
      (∃ u ∈ d.members, r.Allows (u.natAbs : Int)) ∧
        ∃ b s', (abs y).restrict cause r s = .ok b s' ∧ Told y.base s s' b := by
  have hmembers := Table.members_of_get? hd
  have hholds : ∀ u ∈ d.members, y.Holds s u := fun u hu =>
    ⟨hwf, hmembers ▸ hu, hmembers ▸ hleast⟩
  by_cases hsome : ∃ u ∈ d.members, r.Allows (u.natAbs : Int)
  · have ⟨u, hu, hallowed⟩ := hsome
    have hpermits : (abs y).Permits r u := by
      rwa [Permits, image_abs, natAbs_image]
    exact Or.inr ⟨hsome, performs (abs y) cause hr (hholds u hu).abs hpermits⟩
  · have hnone : ∀ u ∈ d.members, ¬ r.Allows (u.natAbs : Int) := fun u hu hallowed =>
      hsome ⟨u, hu, hallowed⟩
    refine Or.inl ⟨hnone, refuses_view (hholds d.lower (hwf _ d hd).lower_mem) hr fun w hw => ?_⟩
    rw [current_abs_eq hd, Absolute.image, Finset.mem_image] at hw
    obtain ⟨u, hu, rfl⟩ := hw
    exact hnone u hu

/-- A restriction of a variable is refused or carried out. -/
theorem refused_or_ok (hwf : s.table.WellFormed) {d : Domain} (hd : s.table.get? x.base = some d)
    (hleast : x = .domain x.base ∨ Value.least ∉ d.members) (hr : r.InRange) (cause : Cause) :
    x.restrict cause r s = .error .empty s ∨ ∃ b s', x.restrict cause r s = .ok b s' := by
  cases x with
  | domain id =>
      rcases refused_or_changed (hwf id d hd) hd r cause with ⟨-, hrun⟩ | ⟨changes, hrun, -⟩
      · exact Or.inl hrun
      · exact Or.inr ⟨_, _, hrun⟩
  | abs y =>
      have hleast := hleast.resolve_left fun h => nomatch h
      rcases refused_or_performed (y := y) hwf hd hleast hr cause with ⟨-, hrun⟩ | ⟨-, b, s', hrun, -⟩
      · exact Or.inl hrun
      · exact Or.inr ⟨b, s', hrun⟩

end Variable

/-! ### States that a run leads to -/

namespace Domains.Reachable

variable {s : Domains} (hs : s.Reachable)
include hs

/-- A restriction of a domain is refused when no member may stay, and then nothing happened.
Otherwise a domain that can have holes keeps the members that may stay, and an interval does if they
are an interval. The answer tells whether members were lost. -/
theorem restrict_domain {id : DomainId} {d : Domain} (hd : s.table.get? id = some d)
    (r : Restriction) (cause : Cause) :
    (d.members.filter r.Allows = ∅ → Domains.restrict id r cause s = .error .empty s) ∧
      ((d.members.filter r.Allows).Nonempty → ∃ d' s',
        Domains.restrict id r cause s = .ok (decide (d'.members ≠ d.members)) s' ∧
        s'.table.get? id = some d' ∧
        (d.enumerated = true → d'.members = d.members.filter r.Allows) ∧
        (d.enumerated = false →
          ((∃ lo hi, d.members.filter r.Allows = Finset.Icc lo hi) →
            d'.members = d.members.filter r.Allows) ∧
          ((¬ ∃ lo hi, d.members.filter r.Allows = Finset.Icc lo hi) → d' = d)) ∧
        ∀ j, j ≠ id → s'.table.get? j = s.table.get? j) := by
  have hwf := hs.traced.wellFormed id d hd
  rcases refused_or_changed hwf hd r cause with ⟨hnone, hrun⟩ | ⟨changes, hrun, hfit, hobeys⟩
  · refine ⟨fun _ => hrun, fun hsome => ?_⟩
    obtain ⟨v, hv⟩ := hsome
    exact absurd (Finset.mem_filter.1 hv).2 (hnone v (Finset.mem_filter.1 hv).1)
  · have hafter := narrows_changeAll (B := (· = id)) cause rfl hd hfit
    have hd' := hafter.2 id
    rw [if_pos rfl] at hd'
    obtain ⟨d', hget, hwf', hkind, -⟩ := hafter.1.get?_eq_some hs.traced.wellFormed hd
    obtain rfl := Option.some.inj (hd'.symm.trans hget)
    have htold := (told_changeAll hwf hd cause hfit).iff_members
    rw [Table.members_of_get? hd, Table.members_of_get? hd'] at htold
    refine ⟨fun hempty => ?_, fun _ => ⟨_, _, ?_, hd', fun hlisted => ?_, fun hinterval => ?_, ?_⟩⟩
    · obtain ⟨v, hv, hallowed⟩ := hobeys.exists_allowed hwf hwf'
      exact absurd (Finset.mem_filter.2 ⟨hv, hallowed⟩) (hempty ▸ Finset.notMem_empty v)
    · rw [hrun]
      congr 1
      exact Bool.eq_iff_iff.2 (htold.trans decide_eq_true_iff.symm)
    · rcases hobeys with hmembers | ⟨hinterval, -⟩
      · exact hmembers
      · exact absurd (hlisted.symm.trans hinterval) (by decide)
    · exact hobeys.interval hinterval (hkind.trans hinterval)
    · intro j hj
      rw [hafter.2 j, if_neg hj]

omit hs in
theorem restrict_domain_scarred :
    scarred.Reachable ∧ scarred.table.get? ⟨1⟩ = some (.interval (-5) 9) ∧
      (((Domain.interval (-5) 9).members.filter (Restriction.outside 7 20).Allows = ∅ →
          Domains.restrict ⟨1⟩ (.outside 7 20) .decision scarred = .error .empty scarred) ∧
        (((Domain.interval (-5) 9).members.filter (Restriction.outside 7 20).Allows).Nonempty →
          ∃ d' s', Domains.restrict ⟨1⟩ (.outside 7 20) .decision scarred =
              .ok (decide (d'.members ≠ (Domain.interval (-5) 9).members)) s' ∧
            s'.table.get? ⟨1⟩ = some d' ∧
            ((Domain.interval (-5) 9).enumerated = true → d'.members =
              (Domain.interval (-5) 9).members.filter (Restriction.outside 7 20).Allows) ∧
            ((Domain.interval (-5) 9).enumerated = false →
              ((∃ lo hi, (Domain.interval (-5) 9).members.filter (Restriction.outside 7 20).Allows =
                  Finset.Icc lo hi) →
                d'.members =
                  (Domain.interval (-5) 9).members.filter (Restriction.outside 7 20).Allows) ∧
              ((¬ ∃ lo hi, (Domain.interval (-5) 9).members.filter
                  (Restriction.outside 7 20).Allows = Finset.Icc lo hi) →
                d' = .interval (-5) 9)) ∧
            ∀ j, j ≠ ⟨1⟩ → s'.table.get? j = scarred.table.get? j)) :=
  ⟨reachable_scarred, by decide,
    restrict_domain reachable_scarred (by decide) (.outside 7 20) .decision⟩

/-- A restriction of a view, of whatever nesting, is refused when no member of the domain at the
bottom may stay, and then nothing happened. Otherwise the domain keeps every member that may stay,
and no other one if it can have holes. The answer tells whether the domain changed. -/
theorem restrict_view {y : Variable} {d : Domain} (hd : s.table.get? y.base = some d)
    (hleast : Value.least ∉ d.members) {r : Restriction} (hr : r.InRange) (cause : Cause) :
    (d.members.filter (fun u => r.Allows (u.natAbs : Int)) = ∅ →
        (Variable.abs y).restrict cause r s = .error .empty s) ∧
      ((d.members.filter fun u => r.Allows (u.natAbs : Int)).Nonempty → ∃ d' s',
        (Variable.abs y).restrict cause r s = .ok (decide (d' ≠ d)) s' ∧
        s'.table.get? y.base = some d' ∧
        (d.members.filter fun u => r.Allows (u.natAbs : Int)) ⊆ d'.members ∧
        d'.members ⊆ d.members ∧
        (d.enumerated = true → d'.members = d.members.filter fun u => r.Allows (u.natAbs : Int)) ∧
        ∀ j, j ≠ y.base → s'.table.get? j = s.table.get? j) := by
  have hwf := hs.traced.wellFormed
  rcases Variable.refused_or_performed hwf hd hleast hr cause with
    ⟨hnone, hrun⟩ | ⟨⟨u, hu, hallowed⟩, b, s', hrun, htold⟩
  · refine ⟨fun _ => hrun, fun hsome => ?_⟩
    obtain ⟨u, hu⟩ := hsome
    exact absurd (Finset.mem_filter.1 hu).2 (hnone u (Finset.mem_filter.1 hu).1)
  · refine ⟨fun hempty => ?_, fun _ => ?_⟩
    · exact absurd (Finset.mem_filter.2 ⟨hu, hallowed⟩) (hempty ▸ Finset.notMem_empty u)
    obtain ⟨hnarrows, hstays, hleft⟩ := Ends.of_ok ((Variable.abs y).confined cause r s hwf) hrun
    obtain ⟨d', hd', -, -, hsub⟩ := hnarrows.get?_eq_some hwf hd
    have hpermits : ∀ u, (Variable.abs y).Permits r u ↔ r.Allows (u.natAbs : Int) := fun u => by
      rw [Variable.Permits, Variable.image_abs, Variable.natAbs_image]
    simp only [show (Variable.abs y).base = y.base from rfl, Table.members_of_get? hd,
      Table.members_of_get? hd', Table.enumerated_of_get? hd, hpermits] at hstays hleft
    have hkeeps : (d.members.filter fun u => r.Allows (u.natAbs : Int)) ⊆ d'.members := by
      intro w hw
      obtain ⟨hw, hwa⟩ := Finset.mem_filter.1 hw
      exact hstays w hw hwa
    refine ⟨d', s', ?_, hd', hkeeps, hsub, fun hlisted => ?_, fun j hj => ?_⟩
    · rw [hrun]
      congr 1
      exact Bool.eq_iff_iff.2 ((htold.iff_domain hd hd').trans decide_eq_true_iff.symm)
    · apply Finset.Subset.antisymm _ hkeeps
      intro w hw
      exact Finset.mem_filter.2 ⟨hsub hw, hleft w hw hlisted⟩
    · exact hnarrows.get?_eq_of_not hj

omit hs in
theorem restrict_view_scarred :
    scarred.Reachable ∧ scarred.table.get? ⟨0⟩ = some cropped ∧ Value.least ∉ cropped.members ∧
      (Restriction.outside 1 3).InRange ∧
      ((cropped.members.filter (fun u => (Restriction.outside 1 3).Allows (u.natAbs : Int)) = ∅ →
          (Variable.abs (.abs (.domain ⟨0⟩))).restrict .decision (.outside 1 3) scarred =
            .error .empty scarred) ∧
        ((cropped.members.filter fun u =>
            (Restriction.outside 1 3).Allows (u.natAbs : Int)).Nonempty → ∃ d' s',
          (Variable.abs (.abs (.domain ⟨0⟩))).restrict .decision (.outside 1 3) scarred =
            .ok (decide (d' ≠ cropped)) s' ∧
          s'.table.get? ⟨0⟩ = some d' ∧
          (cropped.members.filter fun u => (Restriction.outside 1 3).Allows (u.natAbs : Int)) ⊆
            d'.members ∧
          d'.members ⊆ cropped.members ∧
          (cropped.enumerated = true → d'.members =
            cropped.members.filter fun u => (Restriction.outside 1 3).Allows (u.natAbs : Int)) ∧
          ∀ j, j ≠ ⟨0⟩ → s'.table.get? j = scarred.table.get? j)) :=
  ⟨reachable_scarred, by decide, by decide, by decide,
    restrict_view reachable_scarred (y := .abs (.domain ⟨0⟩)) (by decide) (by decide) (by decide)
      .decision⟩

end Domains.Reachable

end Narrowing
