import Narrowing.Proofs.Variable.Verdict

/-!
What a restriction of a view comes down to. Where some member may stay it is a series of restrictions
of what lies below, and the series depends on the restriction alone: the checks of a view only find
out whether it has to be refused. Applied to a view of a view, this turns most restrictions into those
of the view itself.

At the bottom a restriction meets a domain, which has nothing left to lose to a weaker one afterwards.
-/

namespace Narrowing

/-- What a value has to obey for its absolute value to obey a restriction. -/
def Restriction.below : Restriction → List Restriction
  | .atLeast v => if v ≤ 0 then [] else [.outside (-v + 1) (v - 1)]
  | .atMost v => [.atMost v, .atLeast (-v)]
  | .without v => if v < 0 then [] else if v = 0 then [.without 0] else [.without v, .without (-v)]
  | .outside lo hi =>
    if hi < 0 ∨ hi < lo then [] else [.outside (max lo 0) hi, .outside (-hi) (-max lo 0)]
  | .exactly v =>
    if v = 0 then [.exactly 0] else [.atMost v, .atLeast (-v), .outside (-v + 1) (v - 1)]

/-- Whether a view of a view puts a restriction on what it looks at as it is: it does, unless the
values around zero have to go. -/
def Restriction.Transparent : Restriction → Prop
  | .atLeast v => v ≤ 0
  | .exactly v => v = 0
  | _ => True

/-- The absolute value obeys a restriction when the value obeys what it comes down to. -/
theorem Restriction.allows_natAbs_iff (r : Restriction) (z : Int) :
    r.Allows (z.natAbs : Int) ↔ ∀ r' ∈ r.below, r'.Allows z := by
  cases r with
  | atLeast v =>
      rw [below]
      split
      · simp only [List.not_mem_nil, false_implies, implies_true, iff_true, Allows]
        omega
      · simp only [List.forall_mem_singleton, Allows]
        omega
  | atMost v =>
      simp only [below, List.forall_mem_cons, List.not_mem_nil, false_implies, implies_true, and_true, Allows]
      omega
  | without v =>
      rw [below]
      split
      · simp only [List.not_mem_nil, false_implies, implies_true, iff_true, Allows]
        omega
      · split <;>
          simp only [List.forall_mem_cons, List.not_mem_nil, false_implies, implies_true, and_true, Allows] <;> omega
  | outside lo hi =>
      rw [below]
      split
      · simp only [List.not_mem_nil, false_implies, implies_true, iff_true, Allows]
        omega
      · simp only [List.forall_mem_cons, List.not_mem_nil, false_implies, implies_true, and_true, Allows]
        omega
  | exactly v =>
      rw [below]
      split <;>
        simp only [List.forall_mem_cons, List.not_mem_nil, false_implies, implies_true, and_true, Allows] <;> omega

/-- What a restriction that an absolute value obeys comes down to names machine values. -/
theorem Restriction.InRange.below {r : Restriction} (hr : r.InRange) {w : Int} (h0 : 0 ≤ w)
    (hw : r.Allows w) : ∀ r' ∈ r.below, r'.InRange := by
  cases r with
  | atLeast v =>
      rw [Restriction.below]
      split
      · exact List.forall_mem_nil _
      · simp only [List.forall_mem_singleton, Restriction.InRange, Value.InRange, Value.least,
          Value.greatest] at hr ⊢
        omega
  | atMost v =>
      simp only [Restriction.below, List.forall_mem_cons, List.not_mem_nil, false_implies, implies_true, and_true]
      exact ⟨hr, Absolute.inRange_neg (h0.trans hw) hr⟩
  | without v =>
      rw [Restriction.below]
      split
      · exact List.forall_mem_nil _
      · next hv =>
        split
        · exact List.forall_mem_singleton.2 (show Value.InRange 0 by decide)
        · simp only [List.forall_mem_cons, List.not_mem_nil, false_implies, implies_true, and_true]
          exact ⟨hr, Absolute.inRange_neg (not_lt.1 hv) hr⟩
  | outside lo hi =>
      rw [Restriction.below]
      split
      · exact List.forall_mem_nil _
      · simp only [List.forall_mem_cons, List.not_mem_nil, false_implies, implies_true, and_true, Restriction.InRange,
          Value.InRange, Value.least, Value.greatest] at hr ⊢
        omega
  | exactly v =>
      obtain rfl : w = v := hw
      rw [Restriction.below]
      split
      · exact List.forall_mem_singleton.2 (show Value.InRange 0 by decide)
      · simp only [List.forall_mem_cons, List.not_mem_nil, false_implies, implies_true, and_true, Restriction.InRange,
          Value.InRange, Value.least, Value.greatest] at hr ⊢
        omega

/-- What a restriction that an absolute value obeys comes down to is put on views as it is. -/
theorem Restriction.transparent_below {r : Restriction} {w : Int} (h0 : 0 ≤ w) (hw : r.Allows w) :
    ∀ r' ∈ r.below, r'.Transparent := by
  cases r with
  | atLeast v =>
      rw [below]
      split
      · exact List.forall_mem_nil _
      · exact List.forall_mem_singleton.2 trivial
  | atMost v =>
      simp only [below, List.forall_mem_cons, List.not_mem_nil, false_implies, implies_true, and_true]
      exact ⟨trivial, Int.neg_nonpos_of_nonneg (h0.trans hw)⟩
  | without v =>
      rw [below]
      split
      · exact List.forall_mem_nil _
      · split <;>
          simp only [List.forall_mem_cons, List.not_mem_nil, false_implies, implies_true, and_true,
            Transparent]
  | outside lo hi =>
      rw [below]
      split <;>
        simp only [List.forall_mem_cons, List.not_mem_nil, false_implies, implies_true, and_true,
          Transparent]
  | exactly v =>
      obtain rfl : w = v := hw
      rw [below]
      split
      · exact List.forall_mem_singleton.2 rfl
      · simp only [List.forall_mem_cons, List.not_mem_nil, false_implies, implies_true, and_true]
        exact ⟨trivial, Int.neg_nonpos_of_nonneg h0, trivial⟩

/-- Such a restriction comes down to the same through two views as through one, unless it takes out
values of both signs at once. -/
theorem Restriction.Transparent.below_below {r : Restriction} (ht : r.Transparent) {w : Int}
    (h0 : 0 ≤ w) (hw : r.Allows w)
    (houtside : ∀ lo hi, r = .outside lo hi → hi < 0 ∨ hi < lo ∨ 0 < lo) :
    r.below.flatMap Restriction.below = r.below := by
  cases r with
  | atLeast v =>
      have hv : v ≤ 0 := ht
      rw [below, if_pos hv]
      rfl
  | atMost v =>
      have hv : 0 ≤ v := h0.trans hw
      have hneg : -v ≤ 0 := by omega
      simp only [below, List.flatMap_cons, List.flatMap_nil, if_pos hneg, List.append_nil]
  | without v =>
      by_cases hv : v < 0
      · rw [below, if_pos hv]
        rfl
      · by_cases hzero : v = 0
        · subst hzero
          rfl
        · have hneg : -v < 0 := by omega
          simp only [below, if_neg hv, if_neg hzero, List.flatMap_cons, List.flatMap_nil, if_pos hneg,
            List.append_nil]
  | outside lo hi =>
      by_cases hnone : hi < 0 ∨ hi < lo
      · rw [below, if_pos hnone]
        rfl
      · have hlo : 0 < lo := by
          have := houtside lo hi rfl
          omega
        have hmax : max lo 0 = lo := max_eq_left (le_of_lt hlo)
        have hneg : -lo < 0 ∨ -lo < -hi := by omega
        simp only [below, if_neg hnone, hmax, List.flatMap_cons, List.flatMap_nil, if_pos hneg,
          List.append_nil]
  | exactly v =>
      obtain rfl : v = 0 := ht
      rfl

/-! ### Restrictions of a domain that ask for nothing more -/

namespace Domain

variable {d d' : Domain} {r r' : Restriction}

/-- Once a domain obeys a restriction, no weaker one takes anything from it. -/
theorem Obeys.left_eq (ho : d.Obeys d' r) (hweaker : ∀ v, r.Allows v → r'.Allows v) :
    d'.left r' = d'.members := by
  unfold left
  split
  · rfl
  · next hnot =>
    refine Finset.filter_true_of_mem fun v hv => hweaker v ?_
    rcases ho with hmembers | ⟨hkind, rfl, hlower, hupper⟩
    · rw [hmembers] at hv
      exact (Finset.mem_filter.1 hv).2
    · exact absurd ⟨hkind, hweaker _ hlower, hweaker _ hupper⟩ hnot

end Domain

namespace Domains

variable {s s' : Domains} {id : DomainId} {d : Domain} {r r' : Restriction} {b : Bool}

/-- A restriction that leaves all members has no effect. -/
theorem restrict_of_left (hwf : d.WellFormed) (hd : s.table.get? id = some d)
    (hleft : d.left r = d.members) (cause : Cause) : restrict id r cause s = .ok false s := by
  rcases Domain.plan_cases hwf r with ⟨-, hnone⟩ | ⟨changes, hplan, -, -, -, -, hempty⟩
  · have hmem := hwf.lower_mem
    rw [← hleft, hnone] at hmem
    exact absurd hmem (Finset.notMem_empty _)
  · obtain rfl := List.isEmpty_iff.1 (hempty.2 hleft)
    simp only [restrict, domain_eq hd, hplan]
    rfl

/-- After a restriction of a domain no weaker one has an effect, so neither has the same again. -/
theorem restrict_weaker (hwf : s.table.WellFormed) {cause : Cause}
    (h : restrict id r cause s = .ok b s') (hweaker : ∀ v, r.Allows v → r'.Allows v) :
    restrict id r' cause s' = .ok false s' := by
  cases hd : s.table.get? id with
  | none =>
      have hdomain : s.domain id = .error .outOfBounds := by rw [domain, Table.fetch, hd]
      simp only [restrict, hdomain] at h
      cases h
  | some d =>
      rcases refused_or_changed (hwf id d hd) hd r cause with ⟨-, hrun⟩ | ⟨changes, hrun, hfit, hobeys⟩
      · cases h.symm.trans hrun
      · obtain ⟨rfl, rfl⟩ := EStateM.Result.ok.inj (h.symm.trans hrun)
        have hd' := (narrows_changeAll (B := (· = id)) cause rfl hd hfit).2 id
        rw [if_pos rfl] at hd'
        exact restrict_of_left (Domain.wellFormed_applyAll (hwf id d hd) hfit) hd'
          (hobeys.left_eq hweaker) cause

end Domains

namespace Variable

open Domains

variable {x y : Variable} {cause : Cause} {s s' s'' : Domains} {r : Restriction}
  {rs rs' : List Restriction} {u v lo hi : Int} {b b' : Bool}

/-! ### Several restrictions -/

/-- Make restrictions one after the other, and tell whether any of them had an effect. -/
def restrictAll (x : Variable) (cause : Cause) : List Restriction → Restricting Bool
  | [] => pure false
  | r :: rest => do
    let changed ← x.restrict cause r
    let changed' ← x.restrictAll cause rest
    return changed || changed'

@[simp] theorem restrictAll_nil (x : Variable) (cause : Cause) (s : Domains) :
    x.restrictAll cause [] s = .ok false s := rfl

theorem restrictAll_cons_of_ok (h : x.restrict cause r s = .ok b s')
    (hs : x.restrictAll cause rs s' = .ok b' s'') :
    x.restrictAll cause (r :: rs) s = .ok (b || b') s'' := by
  rw [restrictAll, bind_of_ok h, bind_of_ok hs]
  rfl

theorem restrictAll_cons_eq_ok (h : x.restrictAll cause (r :: rs) s = .ok b s'') :
    ∃ b₁ s' b₂, x.restrict cause r s = .ok b₁ s' ∧ x.restrictAll cause rs s' = .ok b₂ s'' ∧
      b = (b₁ || b₂) := by
  rw [restrictAll] at h
  cases hr : x.restrict cause r s with
  | error e s' =>
      rw [bind_of_error hr] at h
      exact nomatch h
  | ok b₁ s' =>
      rw [bind_of_ok hr] at h
      cases hs : x.restrictAll cause rs s' with
      | error e s₂ =>
          rw [bind_of_error hs] at h
          exact nomatch h
      | ok b₂ s₂ =>
          rw [bind_of_ok hs] at h
          obtain ⟨rfl, rfl⟩ := EStateM.Result.ok.inj h
          exact ⟨b₁, s', b₂, rfl, hs, rfl⟩

@[simp] theorem restrictAll_singleton (x : Variable) (cause : Cause) (r : Restriction) (s : Domains) :
    x.restrictAll cause [r] s = x.restrict cause r s := by
  cases h : x.restrict cause r s with
  | ok b s' => rw [restrictAll_cons_of_ok h (restrictAll_nil x cause s'), Bool.or_false]
  | error e s' => rw [restrictAll, bind_of_error h]

theorem restrictAll_append_of_ok (h : x.restrictAll cause rs s = .ok b s')
    (h' : x.restrictAll cause rs' s' = .ok b' s'') :
    x.restrictAll cause (rs ++ rs') s = .ok (b || b') s'' := by
  induction rs generalizing s b with
  | nil =>
      obtain ⟨rfl, rfl⟩ := EStateM.Result.ok.inj h
      exact h'
  | cons r rest ih =>
      obtain ⟨b₁, s₁, b₂, hr, hrest, rfl⟩ := restrictAll_cons_eq_ok h
      rw [List.cons_append, restrictAll_cons_of_ok hr (ih hrest), Bool.or_assoc]

/-- Restrictions that a member outlasts are carried out one after the other. -/
theorem exists_restrictAll (cause : Cause) (h : x.Holds s u) (hrs : ∀ r ∈ rs, r.InRange)
    (hu : ∀ r ∈ rs, x.Permits r u) :
    ∃ b s', x.restrictAll cause rs s = .ok b s' ∧ x.Holds s' u := by
  induction rs generalizing s with
  | nil => exact ⟨false, s, rfl, h⟩
  | cons r rest ih =>
      obtain ⟨hr, hrest⟩ := List.forall_mem_cons.1 hrs
      obtain ⟨hur, hurest⟩ := List.forall_mem_cons.1 hu
      obtain ⟨b, s₁, hrun, -⟩ := x.performs cause hr h hur
      obtain ⟨b', s₂, hrun', h'⟩ := ih (h.after hrun hur) hrest hurest
      exact ⟨b || b', s₂, restrictAll_cons_of_ok hrun hrun', h'⟩

/-! ### Restrictions without effect -/

/-- A restriction that all members obey has no effect. -/
theorem restrict_of_permits (cause : Cause) (h : x.Holds s u) (hr : r.InRange)
    (hall : ∀ w ∈ s.table.members x.base, x.Permits r w) : x.restrict cause r s = .ok false s := by
  obtain ⟨b, s', hrun, htold⟩ := x.performs cause hr h (hall u h.mem)
  obtain ⟨-, hstays, -⟩ := Ends.of_ok (x.confined cause r s h.wellFormed) hrun
  cases b with
  | false => rw [hrun, htold.same rfl]
  | true =>
      have hsub : s.table.members x.base ⊆ s'.table.members x.base := fun w hw =>
        hstays w hw (hall w hw)
      exact absurd hsub (htold.lost rfl).2

/-- Restrictions that all members obey have no effect. -/
theorem restrictAll_of_permits (cause : Cause) (h : x.Holds s u) (hrs : ∀ r ∈ rs, r.InRange)
    (hall : ∀ r ∈ rs, ∀ w ∈ s.table.members x.base, x.Permits r w) :
    x.restrictAll cause rs s = .ok false s := by
  induction rs with
  | nil => rfl
  | cons r rest ih =>
      obtain ⟨hr, hrest⟩ := List.forall_mem_cons.1 hrs
      obtain ⟨hallr, hallrest⟩ := List.forall_mem_cons.1 hall
      exact restrictAll_cons_of_ok (restrict_of_permits cause h hr hallr) (ih hrest hallrest)

/-! ### Restrictions of a view -/

theorem permits_abs_iff : (abs x).Permits r u ↔ ∀ r' ∈ r.below, x.Permits r' u :=
  r.allows_natAbs_iff (x.image u)

theorem below_inRange (hr : r.InRange) (hu : (abs x).Permits r u) : ∀ r' ∈ r.below, r'.InRange :=
  hr.below (image_nonneg x u) hu

/-- A positive lower bound comes down to taking out what is closer to zero. -/
theorem below_atLeast (hv : 0 < v) :
    (Restriction.atLeast v).below = [.outside (-v + 1) (v - 1)] := by
  rw [Restriction.below, if_neg (not_le.2 hv)]

theorem permits_around (hv : 0 < v) (hr : Value.InRange v) (hu : (abs x).Permits (.atLeast v) u) :
    (Restriction.outside (-v + 1) (v - 1)).InRange ∧ x.Permits (.outside (-v + 1) (v - 1)) u := by
  have hrange := below_inRange (r := .atLeast v) hr hu
  have hpermits := permits_abs_iff.1 hu
  rw [below_atLeast hv, List.forall_mem_singleton] at hrange hpermits
  exact ⟨hrange, hpermits⟩

/-- Taking out everything closer to zero than `v` is one restriction below. -/
theorem widenGap_eq (x : Variable) (cause : Cause) (hv : 0 < v) (hvr : Value.InRange v)
    (s : Domains) : Absolute.widenGap (x.restrict cause) v s =
      x.restrict cause (.outside (-v + 1) (v - 1)) s := by
  have hneg := Absolute.inRange_neg (le_of_lt hv) hvr
  have hlo : Value.InRange (-v + 1) := by
    unfold Value.InRange Value.least Value.greatest at *
    omega
  have hhi : Value.InRange (v - 1) := by
    unfold Value.InRange Value.least Value.greatest at *
    omega
  have hlow : (do Value.check ((← Absolute.negate v) + 1) : Checked Int) = .ok (-v + 1) := by
    rw [Absolute.negate_of_inRange hneg]
    exact Value.check_eq_ok hlo
  rw [Absolute.widenGap, bind_of_ok (checked_of_ok hlow s),
    bind_of_ok (checked_of_ok (Value.check_eq_ok hhi) s)]

section Carried

variable (h : x.Holds s u)
include h

/-- The bounds of a view are answered, and its values are between them. -/
theorem exists_bounds : ∃ lo hi, (abs x).answer s _ .lower = .ok lo ∧
    (abs x).answer s _ .upper = .ok hi ∧
    (∃ w ∈ s.table.members x.base, (abs x).image w = lo) ∧
    (∃ w ∈ s.table.members x.base, (abs x).image w = hi) ∧
    ∀ w ∈ s.table.members x.base, lo ≤ (abs x).image w ∧ (abs x).image w ≤ hi := by
  obtain ⟨lo, hlo, hloV, hleast⟩ := h.abs.portrays.lower
  obtain ⟨hi, hhi, hhiV, hgreatest⟩ := h.abs.portrays.upper
  refine ⟨lo, hi, hlo, hhi, mem_current.1 hloV, mem_current.1 hhiV, fun w hw => ⟨?_, ?_⟩⟩
  · exact hleast (image_mem_current (x := .abs x) hw)
  · exact hgreatest (image_mem_current (x := .abs x) hw)

/-- If all members may stay, what a restriction comes down to has no effect either. -/
theorem restrictAll_below_of_permits (hr : r.InRange) (hu : (abs x).Permits r u)
    (hall : ∀ w ∈ s.table.members x.base, (abs x).Permits r w) :
    x.restrictAll cause r.below s = .ok false s :=
  restrictAll_of_permits cause h (below_inRange hr hu) fun r' hr' w hw =>
    permits_abs_iff.1 (hall w hw) r' hr'

/-- Taking out everything further from zero than `v` is two restrictions below. -/
theorem clamp_eq (hr : Value.InRange v) (hu : (abs x).Permits (.atMost v) u) :
    Absolute.clamp (x.restrict cause) v s = x.restrictAll cause [.atMost v, .atLeast (-v)] s := by
  have hpos : 0 ≤ v := (image_nonneg x u).trans hu
  have hneg := Absolute.inRange_neg hpos hr
  obtain ⟨hupper, hlower⟩ := List.forall_mem_cons.1 (permits_abs_iff.1 hu)
  obtain ⟨b₁, s₁, b₂, s₂, hrun₁, hrun₂, -⟩ := performs_both (x.performs cause) h (.atMost v)
    (.atLeast (-v)) hr hneg hupper (hlower _ (List.mem_singleton_self _))
  rw [Absolute.clamp, bind_of_ok hrun₁,
    bind_of_ok (checked_of_ok (Absolute.negate_of_inRange hneg) s₁), bind_of_ok hrun₂,
    restrictAll_cons_of_ok hrun₁ ((restrictAll_singleton _ _ _ _).trans hrun₂)]
  rfl

theorem restrict_abs_atLeast (hr : Value.InRange v) (hu : (abs x).Permits (.atLeast v) u) :
    (abs x).restrict cause (.atLeast v) s = x.restrictAll cause (Restriction.atLeast v).below s := by
  obtain ⟨lo, hi, hlo, hhi, ⟨w, -, hlow⟩, -, hall⟩ := exists_bounds h
  rw [restrict, Absolute.restrict, Absolute.atLeast, bind_of_ok (ask_of_ok hlo)]
  split
  · next hv =>
    exact (restrictAll_below_of_permits h (r := .atLeast v) hr hu fun w hw =>
      hv.trans (hall w hw).1).symm
  · next hv =>
    have hpos := hlow ▸ image_nonneg x w
    have hvhi : v ≤ hi := le_trans hu (hall u h.mem).2
    have hv0 : 0 < v := by omega
    rw [bind_of_ok (ask_of_ok hhi), if_neg (not_lt.2 hvhi), widenGap_eq x cause hv0 hr,
      below_atLeast hv0, restrictAll_singleton]

/-- So a positive lower bound of a view is one restriction below. -/
theorem restrict_abs_atLeast_of_pos (hv : 0 < v) (hr : Value.InRange v)
    (hu : (abs x).Permits (.atLeast v) u) :
    (abs x).restrict cause (.atLeast v) s = x.restrict cause (.outside (-v + 1) (v - 1)) s := by
  rw [restrict_abs_atLeast h hr hu, below_atLeast hv, restrictAll_singleton]

theorem restrict_abs_atMost (hr : Value.InRange v) (hu : (abs x).Permits (.atMost v) u) :
    (abs x).restrict cause (.atMost v) s = x.restrictAll cause (Restriction.atMost v).below s := by
  obtain ⟨lo, hi, hlo, hhi, -, -, hall⟩ := exists_bounds h
  have hpos : 0 ≤ v := (image_nonneg x u).trans hu
  have hlov : lo ≤ v := (hall u h.mem).1.trans hu
  rw [restrict, Absolute.restrict, Absolute.atMost, if_neg (not_lt.2 hpos),
    bind_of_ok (ask_of_ok hlo), if_neg (not_lt.2 hlov), bind_of_ok (ask_of_ok hhi)]
  split
  · next hv =>
    exact (restrictAll_below_of_permits h (r := .atMost v) hr hu fun w hw =>
      (hall w hw).2.trans hv).symm
  · exact clamp_eq h hr hu

theorem restrict_abs_without (hr : Value.InRange v) (hu : (abs x).Permits (.without v) u) :
    (abs x).restrict cause (.without v) s = x.restrictAll cause (Restriction.without v).below s := by
  obtain ⟨lo, hi, hlo, hhi, -, -, hall⟩ := exists_bounds h
  rw [restrict, Absolute.restrict, Absolute.without,
    bind_of_ok (ask_of_ok (h.abs.portrays.contains v hr))]
  by_cases hmem : v ∈ (abs x).current s.table
  · obtain ⟨w, hw, hwv⟩ := mem_current.1 hmem
    have hpos : 0 ≤ v := hwv ▸ image_nonneg x w
    have hneg := Absolute.inRange_neg hpos hr
    have hbounds : lo ≠ hi := by
      have hbu := hall u h.mem
      have hbw := hall w hw
      simp only [Permits, Restriction.Allows] at hu
      omega
    have hpermits := permits_abs_iff.1 hu
    rw [if_neg (by simp [hmem]), bind_of_ok (ask_of_ok hlo), bind_of_ok (ask_of_ok hhi),
      if_neg hbounds]
    rw [Restriction.below, if_neg (not_lt.2 hpos)] at hpermits ⊢
    by_cases hzero : v = 0
    · subst hzero
      rw [if_pos rfl] at hpermits ⊢
      obtain ⟨b, s₁, hrun, -⟩ := x.performs cause (r := .without 0) hr h
        (hpermits _ (List.mem_singleton_self _))
      rw [bind_of_ok hrun, if_pos rfl, restrictAll_singleton, hrun]
      rfl
    · rw [if_neg hzero] at hpermits ⊢
      obtain ⟨hplus, hminus⟩ := List.forall_mem_cons.1 hpermits
      obtain ⟨b₁, s₁, b₂, s₂, hrun₁, hrun₂, -⟩ := performs_both (x.performs cause) h (.without v)
        (.without (-v)) hr hneg hplus (hminus _ (List.mem_singleton_self _))
      rw [bind_of_ok hrun₁, if_neg hzero,
        bind_of_ok (checked_of_ok (Absolute.negate_of_inRange hneg) s₁), bind_of_ok hrun₂,
        restrictAll_cons_of_ok hrun₁ ((restrictAll_singleton _ _ _ _).trans hrun₂)]
      rfl
  · rw [if_pos (by simp [hmem])]
    refine (restrictAll_below_of_permits h (r := .without v) hr hu fun w hw hwv => hmem ?_).symm
    exact hwv ▸ image_mem_current (x := .abs x) hw

theorem restrict_abs_outside (hr : (Restriction.outside lo hi).InRange)
    (hu : (abs x).Permits (.outside lo hi) u) : (abs x).restrict cause (.outside lo hi) s =
      x.restrictAll cause (Restriction.outside lo hi).below s := by
  obtain ⟨low, high, hlow, hhigh, -, -, hall⟩ := exists_bounds h
  have hrange := below_inRange hr hu
  have hpermits := permits_abs_iff.1 hu
  rw [restrict, Absolute.restrict, Absolute.outside]
  rw [Restriction.below] at hrange hpermits ⊢
  split
  · rfl
  · next hsome =>
    rw [if_neg hsome] at hrange hpermits
    obtain ⟨hr₁, hr₂⟩ := List.forall_mem_cons.1 hrange
    obtain ⟨hu₁, hu₂⟩ := List.forall_mem_cons.1 hpermits
    rw [List.forall_mem_singleton] at hr₂ hu₂
    obtain ⟨b₁, s₁, b₂, s₂, hrun₁, hrun₂, -⟩ :=
      performs_both (x.performs cause) h _ _ hr₁ hr₂ hu₁ hu₂
    have hmirrored : x.mirrored cause (max lo 0) hi s = .ok (b₁ || b₂) s₂ := by
      rw [mirrored, bind_of_ok hrun₁, bind_of_ok (checked_of_ok (Absolute.negate_of_inRange hr₂.1) s₁),
        bind_of_ok (checked_of_ok (Absolute.negate_of_inRange hr₂.2) s₁), bind_of_ok hrun₂]
      rfl
    rw [restrictAll_cons_of_ok hrun₁ ((restrictAll_singleton _ _ _ _).trans hrun₂), ← hmirrored,
      bind_of_ok (ask_of_ok hlow)]
    split
    · next hl =>
      have hnot : ¬ high ≤ hi := by
        have hbu := hall u h.mem
        have hpos := image_nonneg x u
        simp only [Permits, Restriction.Allows] at hu
        omega
      rw [bind_of_ok (ask_of_ok hhigh), if_neg hnot]
      rfl
    · rfl

theorem restrict_abs_exactly (hr : Value.InRange v) (hu : (abs x).Permits (.exactly v) u) :
    (abs x).restrict cause (.exactly v) s = x.restrictAll cause (Restriction.exactly v).below s := by
  have hmem : v ∈ (abs x).current s.table :=
    (show (abs x).image u = v from hu) ▸ image_mem_current (x := .abs x) h.mem
  have hpos : 0 ≤ v := (show (abs x).image u = v from hu) ▸ image_nonneg x u
  rw [restrict, Absolute.restrict, Absolute.exactly,
    bind_of_ok (ask_of_ok (h.abs.portrays.contains v hr)), if_neg (by simp [hmem]),
    Restriction.below]
  split
  · rw [restrictAll_singleton]
  · next hzero =>
    have hmost : (abs x).Permits (.atMost v) u := le_of_eq hu
    have hv : 0 < v := by omega
    obtain ⟨b₁, s₁, hrun₁, h₁⟩ := exists_restrictAll cause h (below_inRange (r := .atMost v) hr hmost)
      (permits_abs_iff.1 hmost)
    obtain ⟨hgap, hpermits⟩ := permits_around hv hr (ge_of_eq hu)
    obtain ⟨b₂, s₂, hrun₂, -⟩ := x.performs cause hgap h₁ hpermits
    have hclamp := (clamp_eq h hr hmost).trans hrun₁
    have hwiden := (widenGap_eq x cause hv hr s₁).trans hrun₂
    rw [bind_of_ok hclamp, bind_of_ok hwiden]
    exact (restrictAll_append_of_ok hrun₁ ((restrictAll_singleton _ _ _ _).trans hrun₂)).symm

/-- A restriction of a view that some member outlasts is a series of restrictions below. -/
theorem restrict_abs_eq (cause : Cause) (hr : r.InRange) (hu : (abs x).Permits r u) :
    (abs x).restrict cause r s = x.restrictAll cause r.below s := by
  cases r with
  | atLeast v => exact restrict_abs_atLeast h hr hu
  | atMost v => exact restrict_abs_atMost h hr hu
  | without v => exact restrict_abs_without h hr hu
  | outside lo hi => exact restrict_abs_outside h hr hu
  | exactly v => exact restrict_abs_exactly h hr hu

/-- So is a series of restrictions of a view. -/
theorem restrictAll_abs_eq (cause : Cause) (hrs : ∀ r ∈ rs, r.InRange)
    (hu : ∀ r ∈ rs, (abs x).Permits r u) :
    (abs x).restrictAll cause rs s = x.restrictAll cause (rs.flatMap Restriction.below) s := by
  induction rs generalizing s with
  | nil => rfl
  | cons r rest ih =>
      obtain ⟨hr, hrest⟩ := List.forall_mem_cons.1 hrs
      obtain ⟨hur, hurest⟩ := List.forall_mem_cons.1 hu
      obtain ⟨b, s₁, hrun, h₁⟩ := exists_restrictAll cause h (below_inRange hr hur)
        (permits_abs_iff.1 hur)
      obtain ⟨b', s₂, hrun', -⟩ := exists_restrictAll cause h₁.abs hrest hurest
      rw [restrictAll_cons_of_ok ((restrict_abs_eq h cause hr hur).trans hrun) hrun',
        List.flatMap_cons]
      exact (restrictAll_append_of_ok hrun ((ih h₁ hrest hurest).symm.trans hrun')).symm

end Carried

/-! ### Views of views -/

section Nested

variable (h : y.Holds s u)
include h

theorem Holds.of_mem (hw : v ∈ s.table.members y.base) : y.Holds s v :=
  ⟨h.wellFormed, hw, h.least_notMem⟩

/-- What holds of a variable holds of the domain at the bottom. -/
theorem Holds.of_base : (domain y.base).Holds s u :=
  ⟨h.wellFormed, h.mem, h.least_notMem⟩

omit h in
theorem permits_abs_abs : (abs (abs y)).Permits r u ↔ (abs y).Permits r u := by
  rw [Permits, Permits, image_abs, image_abs, natAbs_image, Int.natAbs_natCast]

omit h in
theorem permits_abs_base : (abs (domain y.base)).Permits r u ↔ (abs y).Permits r u := by
  rw [Permits, Permits, image_abs, natAbs_image, image_abs, natAbs_image]

/-- A view of a view comes to what the view comes to if what is below it does. -/
theorem restrict_abs_abs_of (cause : Cause) (hr : r.InRange)
    (hsame : ∀ w, y.Holds s w → (abs y).Permits r w →
      (abs y).restrictAll cause r.below s = y.restrictAll cause r.below s) :
    (abs (abs y)).restrict cause r s = (abs y).restrict cause r s := by
  by_cases hsome : ∃ w ∈ s.table.members y.base, (abs y).Permits r w
  · obtain ⟨w, hw, hpermits⟩ := hsome
    have hw' := h.of_mem hw
    rw [restrict_abs_eq hw'.abs cause hr (permits_abs_abs.2 hpermits),
      restrict_abs_eq hw' cause hr hpermits, hsame w hw' hpermits]
  · have hnone : ∀ z ∈ (abs y).current s.table, ¬ r.Allows z := by
      intro z hz hallowed
      obtain ⟨w, hw, rfl⟩ := mem_current.1 hz
      exact hsome ⟨w, hw, hallowed⟩
    have hnone' : ∀ z ∈ (abs (abs y)).current s.table, ¬ r.Allows z := by
      intro z hz hallowed
      obtain ⟨w, hw, rfl⟩ := mem_current.1 hz
      exact hsome ⟨w, hw, permits_abs_abs.1 hallowed⟩
    rw [refuses_view h.abs hr hnone', refuses_view h hr hnone]

/-- That is so at once if it comes down to the same through two views as through one. -/
theorem restrict_abs_abs_of_below (cause : Cause) (hr : r.InRange)
    (hsame : ∀ w, 0 ≤ w → r.Allows w → r.below.flatMap Restriction.below = r.below) :
    (abs (abs y)).restrict cause r s = (abs y).restrict cause r s := by
  refine restrict_abs_abs_of h cause hr fun w hw hpermits => ?_
  rw [restrictAll_abs_eq hw cause (below_inRange hr hpermits)
    (permits_abs_iff.1 (permits_abs_abs.2 hpermits)), hsame _ (image_nonneg y w) hpermits]

end Nested

/-- Once the values from `-hi` to `hi` were taken out of a view, one sign at a time, there is nothing
left to take out for a restriction that names the negative ones. -/
def Spares (y : Variable) : Prop :=
  ∀ ⦃cause : Cause⦄ ⦃s s' : Domains⦄ ⦃b : Bool⦄ ⦃u hi : Int⦄, y.Holds s u → 0 ≤ hi →
    Value.InRange hi → (abs y).Permits (.outside 0 hi) u →
    (abs y).restrict cause (.outside 0 hi) s = .ok b s' →
    (abs y).restrict cause (.outside (-hi) 0) s' = .ok false s'

theorem below_outside_of_nonpos (hlo : lo ≤ 0) (hhi : 0 ≤ hi) :
    (Restriction.outside lo hi).below = [.outside 0 hi, .outside (-hi) 0] := by
  rw [Restriction.below, if_neg (by omega), max_eq_right hlo, neg_zero]

theorem restrict_outside_abs_abs_of_spares (hy : y.Spares) (cause : Cause) (h : y.Holds s u)
    (hr : (Restriction.outside lo hi).InRange) :
    (abs (abs y)).restrict cause (.outside lo hi) s = (abs y).restrict cause (.outside lo hi) s := by
  by_cases hboth : hi < 0 ∨ hi < lo ∨ 0 < lo
  · refine restrict_abs_abs_of_below h cause hr fun w h0 hw => ?_
    refine Restriction.Transparent.below_below trivial h0 hw fun lo' hi' he => ?_
    obtain ⟨rfl, rfl⟩ := Restriction.outside.inj he
    exact hboth
  · refine restrict_abs_abs_of h cause hr fun w hw hpermits => ?_
    have hrange : (Restriction.outside 0 hi).InRange := ⟨by decide, hr.2⟩
    have hpermits' : (abs y).Permits (.outside 0 hi) w := by
      have hpos := image_nonneg y w
      simp only [Permits, Restriction.Allows] at hpermits ⊢
      omega
    obtain ⟨b, s₁, hrun, -⟩ := (abs y).performs cause hrange hw.abs hpermits'
    have hspared := hy hw (by omega) hr.2 hpermits' hrun
    rw [below_outside_of_nonpos (by omega) (by omega),
      restrictAll_cons_of_ok hrun ((restrictAll_singleton _ _ _ _).trans hspared), Bool.or_false,
      ← hrun, restrict_abs_eq hw cause hrange hpermits',
      below_outside_of_nonpos (le_refl 0) (by omega)]

theorem spares_domain (id : DomainId) : (domain id).Spares := by
  intro cause s s' b u hi h hhi hr hu hrun
  have h' := h.abs.after hrun hu
  have hrange : (Restriction.outside 0 hi).InRange := ⟨by decide, hr⟩
  have hneg : (Restriction.outside (-hi) 0).InRange := ⟨Absolute.inRange_neg hhi hr, by decide⟩
  have hu' : (abs (domain id)).Permits (.outside (-hi) 0) u := by
    have hpos := image_nonneg (domain id) u
    simp only [Permits, Restriction.Allows] at hu ⊢
    omega
  rw [restrict_abs_eq h cause hrange hu, below_outside_of_nonpos (le_refl 0) hhi] at hrun
  obtain ⟨b₁, s₁, b₂, hrun₁, hrun₂, -⟩ := restrictAll_cons_eq_ok hrun
  rw [restrictAll_singleton] at hrun₂
  have hwf₁ := (Ends.of_ok ((domain id).confined cause _ s h.wellFormed) hrun₁).1.wellFormed
    h.wellFormed
  have hzero : (domain id).restrict cause (.outside 0 0) s' = .ok false s' := by
    refine restrict_weaker hwf₁ hrun₂ fun v hv => ?_
    simp only [Restriction.Allows] at hv ⊢
    omega
  rw [restrict_abs_eq h'.of_abs cause hneg hu',
    below_outside_of_nonpos (by omega) (le_refl 0), neg_zero,
    restrictAll_cons_of_ok hzero ((restrictAll_singleton _ _ _ _).trans hzero)]
  rfl

theorem spares (y : Variable) : y.Spares := by
  induction y with
  | domain id => exact spares_domain id
  | abs y ih =>
      intro cause s s' b u hi h hhi hr hu hrun
      have hrange : (Restriction.outside 0 hi).InRange := ⟨by decide, hr⟩
      have hneg : (Restriction.outside (-hi) 0).InRange := ⟨Absolute.inRange_neg hhi hr, by decide⟩
      rw [restrict_outside_abs_abs_of_spares ih cause h.of_abs hrange] at hrun
      have h' := h.after hrun (permits_abs_abs.1 hu)
      rw [restrict_outside_abs_abs_of_spares ih cause h'.of_abs hneg]
      exact ih h.of_abs hhi hr (permits_abs_abs.1 hu) hrun

/-- The absolute value of a view obeys most restrictions as the view does. -/
theorem restrict_abs_abs (cause : Cause) (h : y.Holds s u) (hr : r.InRange) (ht : r.Transparent) :
    (abs (abs y)).restrict cause r s = (abs y).restrict cause r s := by
  cases r with
  | outside lo hi => exact restrict_outside_abs_abs_of_spares y.spares cause h hr
  | _ => exact restrict_abs_abs_of_below h cause hr fun w h0 hw => ht.below_below h0 hw nofun

theorem restrictAll_abs_abs (cause : Cause) (h : y.Holds s u) (hrs : ∀ r ∈ rs, r.InRange)
    (ht : ∀ r ∈ rs, r.Transparent) (hu : ∀ r ∈ rs, (abs y).Permits r u) :
    (abs (abs y)).restrictAll cause rs s = (abs y).restrictAll cause rs s := by
  induction rs generalizing s with
  | nil => rfl
  | cons r rest ih =>
      obtain ⟨hr, hrest⟩ := List.forall_mem_cons.1 hrs
      obtain ⟨htr, htrest⟩ := List.forall_mem_cons.1 ht
      obtain ⟨hur, hurest⟩ := List.forall_mem_cons.1 hu
      obtain ⟨b, s₁, hrun, -⟩ := (abs y).performs cause hr h.abs hur
      have h₁ := (h.abs.after hrun hur).of_abs
      obtain ⟨b', s₂, hrun', -⟩ := exists_restrictAll cause h₁.abs hrest hurest
      rw [restrictAll_cons_of_ok hrun hrun']
      exact restrictAll_cons_of_ok ((restrict_abs_abs cause h hr htr).trans hrun)
        ((ih h₁ hrest htrest hurest).trans hrun')

/-- From the second view on, further ones make no difference at all. -/
theorem restrict_abs_abs_abs (cause : Cause) (h : y.Holds s u) (hr : r.InRange) :
    (abs (abs (abs y))).restrict cause r s = (abs (abs y)).restrict cause r s := by
  refine restrict_abs_abs_of h.abs cause hr fun w hw hpermits => ?_
  refine restrictAll_abs_abs cause hw.of_abs (below_inRange hr hpermits)
    (Restriction.transparent_below (image_nonneg (abs y) w) hpermits) fun r' hr' => ?_
  exact permits_abs_iff.1 hpermits r' hr'

/-- Views of views obey most restrictions as the view of the domain at the bottom does. -/
theorem restrict_abs_base (cause : Cause) (h : y.Holds s u) (hr : r.InRange) (ht : r.Transparent) :
    (abs y).restrict cause r s = (abs (domain y.base)).restrict cause r s := by
  induction y with
  | domain id => rfl
  | abs y ih => exact (restrict_abs_abs cause h.of_abs hr ht).trans (ih h.of_abs)

/-- So such a restriction of a view is a series of restrictions of that domain. -/
theorem restrict_abs_base_eq (cause : Cause) (h : y.Holds s u) (hr : r.InRange) (ht : r.Transparent)
    (hu : (abs y).Permits r u) :
    (abs y).restrict cause r s = (domain y.base).restrictAll cause r.below s := by
  rw [restrict_abs_base cause h hr ht,
    restrict_abs_eq h.of_base cause hr (permits_abs_base.2 hu)]

/-- And they obey all restrictions as the view of its view does. -/
theorem restrict_abs_abs_base (cause : Cause) (h : y.Holds s u) (hr : r.InRange) :
    (abs (abs y)).restrict cause r s = (abs (abs (domain y.base))).restrict cause r s := by
  induction y with
  | domain id => rfl
  | abs y ih => exact (restrict_abs_abs_abs cause h.of_abs hr).trans (ih h.of_abs)

end Variable

end Narrowing
