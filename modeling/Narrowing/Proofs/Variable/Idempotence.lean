import Narrowing.Proofs.Variable.Lowering

/-!
Restrictions made twice. Where a restriction was carried out, the same one has no effect right after
it, with one exception. Some restrictions of views take out the values around zero, those that are not
negative first and the negative ones then. From an interval that reaches further up than they do, but
not further down, nothing can be taken at first and everything up to zero then; only when it is made
again does the restriction find the lower bound among the values that have to go.
-/

namespace Narrowing

namespace Domain

/-- Whether an interval reaches beyond `k`, and below zero, but not beyond `-k`. -/
def Lopsided (d : Domain) (k : Int) : Prop :=
  d.enumerated = false ∧ d.lower < 0 ∧ -k ≤ d.lower ∧ k < d.upper

instance (d : Domain) (k : Int) : Decidable (d.Lopsided k) := by
  unfold Lopsided
  infer_instance

/-- What becomes of an interval `d` when the values from `lo` to `hi` have to go: a bound among them
moves past them, and nothing else happens. -/
structure Cut (d d' : Domain) (lo hi : Int) : Prop where
  wellFormed : d'.WellFormed
  kind : d'.enumerated = false
  lower_of_mem : lo ≤ d.lower → d.lower ≤ hi → d'.lower = hi + 1
  lower_of_notMem : d.lower < lo ∨ hi < d.lower → d'.lower = d.lower
  upper_of_mem : lo ≤ d.upper → d.upper ≤ hi → d'.upper = lo - 1
  upper_of_notMem : d.upper < lo ∨ hi < d.upper → d'.upper = d.upper

variable {d d' : Domain} {r : Restriction} {lo hi : Int}

/-- An interval obeys in this way. -/
theorem Obeys.cut (ho : d.Obeys d' r) (hkind : d.enumerated = false) (hkind' : d'.enumerated = false)
    (h : d.WellFormed) (h' : d'.WellFormed) (hout : ∀ u, r.Allows u ↔ ¬ (lo ≤ u ∧ u ≤ hi)) :
    d.Cut d' lo hi := by
  have hle := h.lower_le_upper
  have hle' := h'.lower_le_upper
  rcases ho with hmembers | ⟨-, rfl, hlower, hupper⟩
  · have hmem : ∀ u, (d'.lower ≤ u ∧ u ≤ d'.upper) ↔
        (d.lower ≤ u ∧ u ≤ d.upper) ∧ ¬ (lo ≤ u ∧ u ≤ hi) := by
      intro u
      rw [← mem_members_of_interval hkind', ← mem_members_of_interval hkind, hmembers,
        Finset.mem_filter, hout]
    have hlower := hmem d.lower
    have hupper := hmem d.upper
    have hlower' := hmem d'.lower
    have hupper' := hmem d'.upper
    have habove := hmem (hi + 1)
    have hbelow := hmem (lo - 1)
    exact ⟨h', hkind', by omega, by omega, by omega, by omega⟩
  · rw [hout] at hlower hupper
    exact ⟨h, hkind, by omega, fun _ => rfl, by omega, fun _ => rfl⟩

end Domain

namespace Domains

variable {s s' s₁ s₂ : Domains} {id : DomainId} {d : Domain} {r r₁ r₂ : Restriction} {cause : Cause}
  {lo hi : Int} {b b₁ b₂ : Bool}

theorem exists_cut (hwf : s.table.WellFormed) (hd : s.table.get? id = some d)
    (hkind : d.enumerated = false) (hout : ∀ u, r.Allows u ↔ ¬ (lo ≤ u ∧ u ≤ hi))
    (h : restrict id r cause s = .ok b s') : ∃ d', s'.table.get? id = some d' ∧ d.Cut d' lo hi := by
  rcases refused_or_changed (hwf id d hd) hd r cause with ⟨-, hrun⟩ | ⟨changes, hrun, hfit, hobeys⟩
  · exact nomatch h.symm.trans hrun
  · obtain ⟨-, rfl⟩ := EStateM.Result.ok.inj (h.symm.trans hrun)
    have hd' := (narrows_changeAll (B := (· = id)) cause rfl hd hfit).2 id
    rw [if_pos rfl] at hd'
    obtain ⟨hwf', hkind', -⟩ := Domain.card_applyAll_le (hwf id d hd) hfit
    exact ⟨_, hd', hobeys.cut hkind (hkind'.trans hkind) (hwf id d hd) hwf' hout⟩

/-- Taking out values of one sign and then those of the other is not made good for by doing it again,
unless the interval is lopsided. -/
theorem spent_of_mirrored (hwf : s.table.WellFormed) (hd : s.table.get? id = some d)
    (hkind : d.enumerated = false) (hlo : 0 ≤ lo) (hle : lo ≤ hi)
    (h₁ : ∀ u, r₁.Allows u ↔ ¬ (lo ≤ u ∧ u ≤ hi)) (h₂ : ∀ u, r₂.Allows u ↔ ¬ (-hi ≤ u ∧ u ≤ -lo))
    (hlopsided : lo = 0 → ¬ d.Lopsided hi) (hrun₁ : restrict id r₁ cause s = .ok b₁ s₁)
    (hrun₂ : restrict id r₂ cause s₁ = .ok b₂ s₂) : restrict id r₁ cause s₂ = .ok false s₂ := by
  obtain ⟨d₁, hd₁, hcut₁⟩ := exists_cut hwf hd hkind h₁ hrun₁
  have hwf₁ := (Ends.of_ok (confines_restrict hwf id r₁) hrun₁).1.wellFormed hwf
  obtain ⟨d₂, hd₂, hcut₂⟩ := exists_cut hwf₁ hd₁ hcut₁.kind h₂ hrun₂
  have hbounds := (hwf id d hd).lower_le_upper
  have hbounds₁ := hcut₁.wellFormed.lower_le_upper
  have hbounds₂ := hcut₂.wellFormed.lower_le_upper
  have hnot : lo = 0 → ¬ (d.lower < 0 ∧ -hi ≤ d.lower ∧ hi < d.upper) := fun hzero hl =>
    hlopsided hzero ⟨hkind, hl⟩
  obtain ⟨-, -, hl₁, hl₁', hu₁, hu₁'⟩ := hcut₁
  obtain ⟨hwf₂, hkind₂, hl₂, hl₂', hu₂, hu₂'⟩ := hcut₂
  have hlower : r₁.Allows d₂.lower := by
    rw [h₁]
    omega
  have hupper : r₁.Allows d₂.upper := by
    rw [h₁]
    omega
  refine restrict_of_left hwf₂ hd₂ ?_ cause
  rw [Domain.left, if_pos ⟨hkind₂, hlower, hupper⟩]

end Domains

namespace Variable

open Domains

variable {x y : Variable} {cause : Cause} {s s' s₁ : Domains} {d d₁ : Domain} {r : Restriction}
  {rs : List Restriction} {u v lo hi k : Int} {b b₁ b₂ : Bool}

/-! ### Restrictions that all that is left obeys -/

theorem restrictAll_of_spent (h : ∀ r ∈ rs, x.restrict cause r s = .ok false s) :
    x.restrictAll cause rs s = .ok false s := by
  induction rs with
  | nil => rfl
  | cons r rest ih =>
      obtain ⟨hr, hrest⟩ := List.forall_mem_cons.1 h
      exact restrictAll_cons_of_ok hr (ih hrest)

/-- An upper bound has no effect when it is set again. -/
theorem restrict_atMost_again (h : x.Holds s u) (hr : Value.InRange v)
    (hu : x.Permits (.atMost v) u) (hrun : x.restrict cause (.atMost v) s = .ok b s') :
    x.restrict cause (.atMost v) s' = .ok false s' :=
  restrict_of_permits cause (h.after hrun hu) hr
    (Ends.of_ok (leaves_atMost h.wellFormed x v) hrun).2.2

/-- Nothing that may not stay is left in a domain that can have holes. -/
theorem restrict_again_of_enumerated (h : x.Holds s u) (hd : s.table.get? x.base = some d)
    (hkind : d.enumerated = true) (hr : r.InRange) (hu : x.Permits r u)
    (hrun : x.restrict cause r s = .ok b s') : x.restrict cause r s' = .ok false s' := by
  refine restrict_of_permits cause (h.after hrun hu) hr fun w hw => ?_
  exact (Ends.of_ok (x.confined cause r s h.wellFormed) hrun).2.2 w hw
    ((Table.enumerated_of_get? hd).trans hkind)

/-! ### Restrictions that are passed on as they are -/

section Interval

variable {id : DomainId} (h : (domain id).Holds s u) (hd : s.table.get? id = some d)
  (hkind : d.enumerated = false)
include h hd hkind

/-- Taking out values of one sign and then those of the other has no effect when both are done again,
unless the interval is lopsided. -/
theorem restrictAll_mirrored_again {r₁ r₂ : Restriction} (hlo : 0 ≤ lo) (hle : lo ≤ hi)
    (h₁ : ∀ u, r₁.Allows u ↔ ¬ (lo ≤ u ∧ u ≤ hi)) (h₂ : ∀ u, r₂.Allows u ↔ ¬ (-hi ≤ u ∧ u ≤ -lo))
    (hlopsided : lo = 0 → ¬ d.Lopsided hi)
    (hrun : (domain id).restrictAll cause [r₁, r₂] s = .ok b s') :
    (domain id).restrictAll cause [r₁, r₂] s' = .ok false s' := by
  obtain ⟨b₁, s₁, b₂, hrun₁, hrun₂, -⟩ := restrictAll_cons_eq_ok hrun
  rw [restrictAll_singleton] at hrun₂
  have hwf₁ := (Ends.of_ok (confines_restrict h.wellFormed id r₁) hrun₁).1.wellFormed h.wellFormed
  have hfirst := spent_of_mirrored h.wellFormed hd hkind hlo hle h₁ h₂ hlopsided hrun₁ hrun₂
  have hsecond := restrict_weaker hwf₁ hrun₂ fun _ hv => hv
  exact restrictAll_of_spent (List.forall_mem_cons.2 ⟨hfirst, List.forall_mem_singleton.2 hsecond⟩)

/-- What a restriction that the view of an interval passes on as it is comes down to is obeyed by what
is left, unless the interval is lopsided. -/
theorem restrictAll_below_again (ht : r.Transparent)
    (hmost : ∀ v, r ≠ .atMost v)
    (hlopsided : ∀ lo hi, r = .outside lo hi → lo ≤ 0 → ¬ d.Lopsided hi)
    (hrun : (domain id).restrictAll cause r.below s = .ok b s') :
    (domain id).restrictAll cause r.below s' = .ok false s' := by
  cases r with
  | atLeast v =>
      have hv : v ≤ 0 := ht
      rw [Restriction.below, if_pos hv]
      rfl
  | atMost v => exact absurd rfl (hmost v)
  | without v =>
      rw [Restriction.below] at hrun ⊢
      split at hrun
      · next hv => rw [if_pos hv]; rfl
      · next hv =>
        rw [if_neg hv]
        split at hrun
        · next hzero =>
          rw [if_pos hzero, restrictAll_singleton]
          rw [restrictAll_singleton] at hrun
          exact restrict_weaker h.wellFormed hrun fun _ hv => hv
        · next hzero =>
          rw [if_neg hzero]
          refine restrictAll_mirrored_again h hd hkind (not_lt.1 hv) (le_refl v) (fun u => ?_)
            (fun u => ?_) (fun hz => absurd hz hzero) hrun
          · simp only [Restriction.Allows]
            omega
          · simp only [Restriction.Allows]
            omega
  | outside lo hi =>
      rw [Restriction.below] at hrun ⊢
      split at hrun
      · next hnone => rw [if_pos hnone]; rfl
      · next hsome =>
        rw [if_neg hsome]
        exact restrictAll_mirrored_again h hd hkind (le_max_right lo 0) (by omega)
          (fun _ => Iff.rfl) (fun _ => Iff.rfl) (fun hz => hlopsided lo hi rfl (by omega)) hrun
  | exactly v =>
      obtain rfl : v = 0 := ht
      have hbelow : (Restriction.exactly 0).below = [.exactly 0] := rfl
      rw [hbelow, restrictAll_singleton] at hrun ⊢
      exact restrict_weaker h.wellFormed hrun fun _ hv => hv

end Interval

/-- Such a restriction of a view has no effect when it is made again, unless it takes out the values
around zero of a lopsided interval. -/
theorem restrict_again_of_transparent (h : y.Holds s u) (hd : s.table.get? y.base = some d)
    (hr : r.InRange) (hu : (abs y).Permits r u) (ht : r.Transparent)
    (hlopsided : ∀ lo hi, r = .outside lo hi → lo ≤ 0 → ¬ d.Lopsided hi)
    (hrun : (abs y).restrict cause r s = .ok b s') :
    (abs y).restrict cause r s' = .ok false s' := by
  by_cases hkind : d.enumerated = true
  · exact restrict_again_of_enumerated h.abs hd hkind hr hu hrun
  · by_cases hmost : ∃ v, r = .atMost v
    · obtain ⟨v, rfl⟩ := hmost
      exact restrict_atMost_again h.abs hr hu hrun
    · have h' := (h.abs.after hrun hu).of_abs
      rw [restrict_abs_base_eq cause h hr ht hu] at hrun
      rw [restrict_abs_base_eq cause h' hr ht hu]
      exact restrictAll_below_again h.of_base hd (by simpa using hkind) ht
        (fun v he => hmost ⟨v, he⟩) hlopsided hrun

/-! ### Taking out the values around zero -/

theorem told_of_ok (h : x.Holds s u) (hr : r.InRange) (hu : x.Permits r u)
    (hrun : x.restrict cause r s = .ok b s') : Told x.base s s' b := by
  obtain ⟨_, _, hrun', htold⟩ := x.performs cause hr h hu
  obtain ⟨rfl, rfl⟩ := EStateM.Result.ok.inj (hrun.symm.trans hrun')
  exact htold

theorem restrict_outside_again (h : x.Holds s u) (hd : s.table.get? x.base = some d)
    (hr : (Restriction.outside lo hi).InRange) (hu : x.Permits (.outside lo hi) u)
    (hlopsided : ∀ y, x = .abs y → lo ≤ 0 → ¬ d.Lopsided hi)
    (hrun : x.restrict cause (.outside lo hi) s = .ok b s') :
    x.restrict cause (.outside lo hi) s' = .ok false s' := by
  cases x with
  | domain id => exact restrict_weaker h.wellFormed hrun fun _ hv => hv
  | abs y =>
      refine restrict_again_of_transparent h.of_abs hd hr hu trivial (fun lo' hi' he hlo' => ?_) hrun
      obtain ⟨rfl, rfl⟩ := Restriction.outside.inj he
      exact hlopsided y rfl hlo'

section Around

variable (h : y.Holds s u) (hd : s.table.get? y.base = some d) (hkind : d.enumerated = false)
  (hr : (Restriction.outside lo hi).InRange) (hu : (abs y).Permits (.outside lo hi) u)
  (hlo : lo ≤ 0) (hhi : 0 ≤ hi) (hrun : (abs y).restrict cause (.outside lo hi) s = .ok b s')
include h hd hkind hr hu hlo hhi hrun

/-- An interval is cut twice. -/
theorem exists_cuts : ∃ d₁ d', s'.table.get? y.base = some d' ∧ d.Cut d₁ 0 hi ∧ d₁.Cut d' (-hi) 0 := by
  rw [restrict_abs_base_eq cause h hr trivial hu, below_outside_of_nonpos hlo hhi] at hrun
  obtain ⟨b₁, s₁, b₂, hrun₁, hrun₂, -⟩ := restrictAll_cons_eq_ok hrun
  rw [restrictAll_singleton] at hrun₂
  obtain ⟨d₁, hd₁, hcut₁⟩ := exists_cut h.wellFormed hd hkind (fun _ => Iff.rfl) hrun₁
  have hwf₁ := (Ends.of_ok (confines_restrict h.wellFormed _ _) hrun₁).1.wellFormed h.wellFormed
  obtain ⟨d', hd', hcut'⟩ := exists_cut hwf₁ hd₁ hcut₁.kind (fun _ => Iff.rfl) hrun₂
  exact ⟨d₁, d', hd', hcut₁, hcut'⟩

/-- At first a lopsided interval loses what is not above zero. -/
theorem restrict_outside_of_lopsided (hl : d.Lopsided hi) : b = true ∧
    ∃ d', s'.table.get? y.base = some d' ∧ d'.enumerated = false ∧ d'.lower = 1 ∧
      d'.upper = d.upper := by
  obtain ⟨d₁, d', hd', ⟨-, -, hl₁, hl₁', hu₁, hu₁'⟩, ⟨-, hkind', hl₂, hl₂', hu₂, hu₂'⟩⟩ :=
    exists_cuts h hd hkind hr hu hlo hhi hrun
  obtain ⟨-, hneg, hfar, hlt⟩ := hl
  have hlower : d'.lower = 1 := by omega
  refine ⟨((told_of_ok h.abs hr hu hrun).iff_domain hd hd').2 fun he => ?_, d', hd', hkind', hlower,
    by omega⟩
  rw [he] at hlower
  omega

/-- An interval above zero loses what is in its way. -/
theorem restrict_outside_of_pos (hpos : 0 < d.lower) (hle : d.lower ≤ hi) : b = true := by
  obtain ⟨d₁, d', hd', ⟨-, -, hl₁, hl₁', hu₁, hu₁'⟩, ⟨-, hkind', hl₂, hl₂', hu₂, hu₂'⟩⟩ :=
    exists_cuts h hd hkind hr hu hlo hhi hrun
  refine ((told_of_ok h.abs hr hu hrun).iff_domain hd hd').2 fun he => ?_
  rw [he] at hl₂ hl₂'
  omega

/-- So it takes two attempts to take out of a lopsided interval what is to go. -/
theorem restrict_outside_twice (hl : d.Lopsided hi) : b = true ∧
    ∃ s'', (abs y).restrict cause (.outside lo hi) s' = .ok true s'' ∧
      (abs y).restrict cause (.outside lo hi) s'' = .ok false s'' := by
  obtain ⟨hb, d', hd', hkind', hlower, hupper⟩ :=
    restrict_outside_of_lopsided h hd hkind hr hu hlo hhi hrun hl
  have h' := (h.abs.after hrun hu).of_abs
  obtain ⟨b', s'', hrun', -⟩ := (abs y).performs cause hr h'.abs hu
  obtain ⟨-, hneg, hfar, -⟩ := hl
  obtain rfl := restrict_outside_of_pos h' hd' hkind' hr hu hlo hhi hrun' (by omega) (by omega)
  refine ⟨hb, s'', hrun', restrict_outside_again h'.abs hd' hr hu (fun _ _ _ hl' => ?_) hrun'⟩
  have := hl'.2.1
  omega

end Around

/-! ### The choice of a value -/

section Choice

variable (h : y.Holds s u) (hv : 0 < v) (hr : Value.InRange v) (hu : (abs y).Permits (.exactly v) u)
include h hv hr hu

/-- The choice of a value comes to an upper bound, and to taking out what is closer to zero. -/
theorem restrict_exactly_eq (cause : Cause) : ∃ b₁ s₁ b₂ s₂,
    (abs y).restrict cause (.atMost v) s = .ok b₁ s₁ ∧
    y.restrict cause (.outside (-v + 1) (v - 1)) s₁ = .ok b₂ s₂ ∧
    (abs y).restrict cause (.exactly v) s = .ok (b₁ || b₂) s₂ := by
  have hmost : (abs y).Permits (.atMost v) u := le_of_eq hu
  have hrange := below_inRange (r := .exactly v) hr hu
  have hpermits := permits_abs_iff.1 hu
  have hbelow : (Restriction.exactly v).below =
      (Restriction.atMost v).below ++ [.outside (-v + 1) (v - 1)] := by
    simp only [Restriction.below, if_neg (ne_of_gt hv), List.cons_append, List.nil_append]
  rw [hbelow] at hrange hpermits
  have hlast : ∀ {r₁ : Restriction}, r₁ ∈ (Restriction.atMost v).below ++ [r₁] :=
    List.mem_append_right _ (List.mem_singleton_self _)
  obtain ⟨b₁, s₁, hrun₁, h₁⟩ := exists_restrictAll cause h (below_inRange (r := .atMost v) hr hmost)
    (permits_abs_iff.1 hmost)
  obtain ⟨b₂, s₂, hrun₂, -⟩ := y.performs cause (hrange _ hlast) h₁ (hpermits _ hlast)
  refine ⟨b₁, s₁, b₂, s₂, (restrict_abs_atMost h hr hmost).trans hrun₁, hrun₂, ?_⟩
  rw [restrict_abs_exactly h hr hu, hbelow]
  exact restrictAll_append_of_ok hrun₁ ((restrictAll_singleton _ _ _ _).trans hrun₂)

/-- Where no value is above the chosen one, only what is closer to zero has to go. -/
theorem restrict_exactly_of_le (cause : Cause)
    (hall : ∀ w ∈ s.table.members y.base, (abs y).image w ≤ v) :
    (abs y).restrict cause (.exactly v) s = y.restrict cause (.outside (-v + 1) (v - 1)) s := by
  obtain ⟨b₁, s₁, b₂, s₂, hrun₁, hrun₂, hrun⟩ := restrict_exactly_eq h hv hr hu cause
  have hsame := restrict_of_permits (r := .atMost v) cause h.abs hr hall
  obtain ⟨rfl, rfl⟩ := EStateM.Result.ok.inj (hrun₁.symm.trans hsame)
  rw [hrun, hrun₂]
  rfl

end Choice

/-- An upper bound above `k` on a view does not make the interval below lopsided, nor does it make good
for it. -/
theorem lopsided_iff_of_atMost (hwf : s.table.WellFormed) (hd : s.table.get? y.base = some d)
    (hk : k < v) (hk0 : 0 ≤ k) (hrun : (abs y).restrict cause (.atMost v) s = .ok b s') :
    ∃ d', s'.table.get? y.base = some d' ∧ (d'.Lopsided k ↔ d.Lopsided k) := by
  obtain ⟨hn, hstays, -⟩ := Ends.of_ok ((abs y).confined cause (.atMost v) s hwf) hrun
  obtain ⟨-, -, hleft⟩ := Ends.of_ok (leaves_atMost hwf (.abs y) v) hrun
  obtain ⟨d', hd', hwf', hkind', hsub⟩ := hn.get?_eq_some hwf hd
  refine ⟨d', hd', ?_⟩
  simp only [show (abs y).base = y.base from rfl, Table.members_of_get? hd,
    Table.members_of_get? hd', Permits, Restriction.Allows, image_abs, natAbs_image] at hstays hleft
  have hlower := hsub hwf'.lower_mem
  have hupper := hsub hwf'.upper_mem
  by_cases hkind : d.enumerated = true
  · refine iff_of_false (fun hl => ?_) fun hl => ?_
    · exact absurd (hkind'.symm.trans hl.1) (by rw [hkind]; decide)
    · exact absurd hl.1 (by rw [hkind]; decide)
  · have hinterval : d.enumerated = false := by simpa using hkind
    simp only [Domain.mem_members_of_interval hinterval,
      Domain.mem_members_of_interval (hkind'.trans hinterval)] at hstays hleft hlower hupper
    have hbounds := hwf'.lower_le_upper
    have hlow := hstays d.lower
    have hhigh := hstays d.upper
    have hvalue := hstays v
    have hopposite := hstays (-v)
    refine ⟨fun hl => ?_, fun hl => ?_⟩
    · obtain ⟨-, hl⟩ := hl
      exact ⟨hinterval, by omega, by omega, by omega⟩
    · obtain ⟨-, hl⟩ := hl
      exact ⟨hkind'.trans hinterval, by omega, by omega, by omega⟩

/-! ### Restrictions made again -/

/-- Where a restriction takes out the values of a view from `-k` to `k`, those of one sign before those
of the other, `k` is it. -/
def halved? : Variable → Restriction → Option Int
  | .abs _, .outside lo hi => if lo ≤ 0 then some hi else none
  | .abs (.abs _), .atLeast v => some (v - 1)
  | .abs (.abs _), .exactly v => some (v - 1)
  | _, _ => none

section Again

variable (h : y.Holds s u) (hd : s.table.get? y.base = some d) (hr : r.InRange)
  (hu : (abs y).Permits r u) (hrun : (abs y).restrict cause r s = .ok b s')
include h hd hr hu hrun

/-- A restriction of a view has no effect when it is made again. -/
theorem restrict_abs_again (hlopsided : ∀ k ∈ (abs y).halved? r, ¬ d.Lopsided k) :
    (abs y).restrict cause r s' = .ok false s' := by
  by_cases ht : r.Transparent
  · refine restrict_again_of_transparent h hd hr hu ht (fun lo hi he hlo => hlopsided hi ?_) hrun
    rw [he, halved?, if_pos hlo]
    rfl
  have h' := (h.abs.after hrun hu).of_abs
  cases r with
  | atLeast v =>
      have hv : 0 < v := not_le.1 ht
      obtain ⟨hout, hallowed⟩ := permits_around hv hr hu
      rw [restrict_abs_atLeast_of_pos h hv hr hu] at hrun
      rw [restrict_abs_atLeast_of_pos h' hv hr hu]
      refine restrict_outside_again h hd hout hallowed (fun z hz _ => hlopsided _ ?_) hrun
      rw [hz]
      rfl
  | exactly v =>
      have hpos : 0 ≤ v := (show (abs y).image u = v from hu) ▸ image_nonneg y u
      have hv : 0 < v := lt_of_le_of_ne hpos fun he => ht he.symm
      obtain ⟨b₁, s₁, b₂, s₂, hrun₁, hrun₂, hrun'⟩ := restrict_exactly_eq h hv hr hu cause
      obtain ⟨-, rfl⟩ := EStateM.Result.ok.inj (hrun.symm.trans hrun')
      obtain ⟨d₁, hd₁, hiff⟩ := lopsided_iff_of_atMost h.wellFormed hd
        (Int.sub_one_lt_of_le (le_refl v)) (Int.sub_nonneg_of_le hv) hrun₁
      have h₁ := (h.abs.after hrun₁ (le_of_eq hu)).of_abs
      obtain ⟨hout, hallowed⟩ := permits_around hv hr (ge_of_eq hu)
      have hn := (Ends.of_ok (y.confined cause _ s₁ h₁.wellFormed) hrun₂).1
      rw [restrict_exactly_of_le h' hv hr hu cause fun w hw =>
        (Ends.of_ok (leaves_atMost h.wellFormed (.abs y) v) hrun₁).2.2 w
          (hn.members_subset h₁.wellFormed y.base hw)]
      refine restrict_outside_again h₁ hd₁ hout hallowed
        (fun z hz _ hl => hlopsided _ ?_ (hiff.1 hl)) hrun₂
      rw [hz]
      rfl
  | _ => exact absurd trivial ht

/-- Unless it halves a lopsided interval: then it takes a second time to take effect. -/
theorem restrict_abs_twice (hk : k ∈ (abs y).halved? r) (hl : d.Lopsided k) : b = true ∧
    ∃ s'', (abs y).restrict cause r s' = .ok true s'' ∧
      (abs y).restrict cause r s'' = .ok false s'' := by
  have hk0 : 0 ≤ k := by
    have := hl.2.1
    have := hl.2.2.1
    omega
  unfold halved? at hk
  split at hk
  · next y lo hi he =>
    obtain rfl := Variable.abs.inj he
    split at hk
    · next hlo =>
      obtain rfl := Option.some.inj hk
      exact restrict_outside_twice h hd hl.1 hr hu hlo hk0 hrun hl
    · exact nomatch hk
  · next z v he =>
    obtain rfl := Variable.abs.inj he
    obtain rfl := Option.some.inj hk
    have hv : 0 < v := by omega
    obtain ⟨hout, hallowed⟩ := permits_around hv hr hu
    rw [restrict_abs_atLeast_of_pos h hv hr hu] at hrun
    obtain ⟨hb, s'', hrun', hrun''⟩ := restrict_outside_twice h.of_abs hd hl.1 hout hallowed (by omega)
      hk0 hrun hl
    have h' := h.after hrun hallowed
    have h'' := h'.after hrun' hallowed
    refine ⟨hb, s'', ?_, ?_⟩
    · rwa [restrict_abs_atLeast_of_pos h' hv hr hu]
    · rwa [restrict_abs_atLeast_of_pos h'' hv hr hu]
  · next z v he =>
    obtain rfl := Variable.abs.inj he
    obtain rfl := Option.some.inj hk
    have hv : 0 < v := by omega
    obtain ⟨b₁, s₁, b₂, s₂, hrun₁, hrun₂, hrun'⟩ := restrict_exactly_eq h hv hr hu cause
    obtain ⟨rfl, rfl⟩ := EStateM.Result.ok.inj (hrun.symm.trans hrun')
    obtain ⟨d₁, hd₁, hiff⟩ := lopsided_iff_of_atMost h.wellFormed hd (by omega) hk0 hrun₁
    have h₁ := (h.abs.after hrun₁ (le_of_eq hu)).of_abs
    obtain ⟨hout, hallowed⟩ := permits_around hv hr (ge_of_eq hu)
    obtain ⟨rfl, s'', hrun', hrun''⟩ := restrict_outside_twice h₁.of_abs hd₁ (hiff.2 hl).1 hout hallowed
      (by omega) hk0 hrun₂ (hiff.2 hl)
    have hall := (Ends.of_ok (leaves_atMost h.wellFormed (.abs (.abs z)) v) hrun₁).2.2
    have hn := (Ends.of_ok ((abs z).confined cause _ s₁ h₁.wellFormed) hrun₂).1
    have h' := h₁.after hrun₂ hallowed
    have hn' := (Ends.of_ok ((abs z).confined cause _ _ h'.wellFormed) hrun').1
    have h'' := h'.after hrun' hallowed
    have hsub := hn.members_subset h₁.wellFormed z.base
    have hsub' := hn'.members_subset h'.wellFormed z.base
    refine ⟨Bool.or_true _, s'', ?_, ?_⟩
    · rwa [restrict_exactly_of_le h' hv hr hu cause fun w hw => hall w (hsub hw)]
    · rwa [restrict_exactly_of_le h'' hv hr hu cause fun w hw => hall w (hsub (hsub' hw))]
  · exact nomatch hk

end Again

end Variable

namespace Domains

/-- A store of one domain, the interval from `-2` to `5`. -/
def crossing : Domains where
  table := ⟨#[.interval (-2) 5]⟩

theorem reachable_crossing : crossing.Reachable :=
  Reachable.start.step (e := .push (.interval (-2) 5))
    (.interval (by decide) (by decide) (by decide)) rfl

namespace Reachable

variable {s s' : Domains} {x : Variable} {d : Domain} {r : Restriction} {cause : Cause} {b : Bool}

/-- A restriction that was carried out has no effect when it is made again, on a domain and on views
of whatever nesting. There is one exception: a restriction of a view that takes out the values of a
lopsided interval around zero, those of one sign before those of the other, has an effect the first
and the second time, and has none from then on. -/
theorem restrict_repeated (hs : s.Reachable) (hd : s.table.get? x.base = some d)
    (hleast : ∀ y, x = .abs y → Value.least ∉ d.members) (hr : r.InRange)
    (hrun : x.restrict cause r s = .ok b s') :
    ((∀ k ∈ x.halved? r, ¬ d.Lopsided k) → x.restrict cause r s' = .ok false s') ∧
      ∀ k ∈ x.halved? r, d.Lopsided k → b = true ∧
        ∃ s'', x.restrict cause r s' = .ok true s'' ∧ x.restrict cause r s'' = .ok false s'' := by
  have hwf := hs.traced.wellFormed
  cases x with
  | domain id =>
      exact ⟨fun _ => restrict_weaker hwf hrun fun _ hv => hv, fun k hk _ => nomatch hk⟩
  | abs y =>
      rcases Variable.refused_or_performed hwf (y := y) hd (hleast y rfl) hr cause with
        ⟨-, hrefused⟩ | ⟨⟨u, hu, hallowed⟩, -⟩
      · exact nomatch hrun.symm.trans hrefused
      · have hmembers := Table.members_of_get? hd
        have hholds : y.Holds s u := ⟨hwf, hmembers ▸ hu, hmembers ▸ hleast y rfl⟩
        have hpermits : (Variable.abs y).Permits r u := by
          rwa [Variable.Permits, Variable.image_abs, Variable.natAbs_image]
        exact ⟨Variable.restrict_abs_again hholds hd hr hpermits hrun,
          fun k => Variable.restrict_abs_twice hholds hd hr hpermits hrun⟩

theorem restrict_repeated_scarred : scarred.Reachable ∧
    scarred.table.get? ⟨1⟩ = some (.interval (-5) 9) ∧
    (∀ y, Variable.abs (.abs (.domain ⟨1⟩)) = .abs y → Value.least ∉ (Domain.interval (-5) 9).members) ∧
    (Restriction.exactly 8).InRange ∧ ∃ b s',
      (Variable.abs (.abs (.domain ⟨1⟩))).restrict .decision (.exactly 8) scarred = .ok b s' ∧
      ((∀ k ∈ (Variable.abs (.abs (.domain ⟨1⟩))).halved? (.exactly 8),
            ¬ (Domain.interval (-5) 9).Lopsided k) →
          (Variable.abs (.abs (.domain ⟨1⟩))).restrict .decision (.exactly 8) s' = .ok false s') ∧
      ∀ k ∈ (Variable.abs (.abs (.domain ⟨1⟩))).halved? (.exactly 8),
        (Domain.interval (-5) 9).Lopsided k → b = true ∧ ∃ s'',
          (Variable.abs (.abs (.domain ⟨1⟩))).restrict .decision (.exactly 8) s' = .ok true s'' ∧
          (Variable.abs (.abs (.domain ⟨1⟩))).restrict .decision (.exactly 8) s'' = .ok false s'' :=
  ⟨reachable_scarred, by decide, fun _ _ => by decide, by decide, _, _, rfl,
    restrict_repeated reachable_scarred (x := .abs (.abs (.domain ⟨1⟩))) (by decide)
      (fun _ _ => by decide) (by decide) rfl⟩

/-- Taking the values from `0` to `2` out of the view of the interval from `-2` to `5` leaves those from
`1` on; taking them out again leaves those from `3` on. -/
theorem exists_effect_again : crossing.Reachable ∧ ∃ s' s'',
    (Variable.abs (.domain ⟨0⟩)).restrict .decision (.outside 0 2) crossing = .ok true s' ∧
    s'.table.get? ⟨0⟩ = some ⟨.interval, 1, 5, 5⟩ ∧
    (Variable.abs (.domain ⟨0⟩)).restrict .decision (.outside 0 2) s' = .ok true s'' ∧
    s''.table.get? ⟨0⟩ = some ⟨.interval, 3, 5, 3⟩ ∧
    ¬ (Variable.abs (.domain ⟨0⟩)).restrict .decision (.outside 0 2) s' = .ok false s' :=
  ⟨reachable_crossing, _, _, rfl, rfl, rfl, rfl, nofun⟩

end Reachable

end Domains

end Narrowing
