import Narrowing.Proofs.Ending
import Narrowing.Proofs.Variable.Answers

/-!
What a restriction of a variable does to the domain at its bottom. It never takes a member that may
stay, and it is refused only when no member may stay. Whether it takes every other member depends:
it does on a domain with holes, under any nesting of views, and for upper bounds it does on every
variable, but a view cannot take values out of the middle of an interval.
-/

namespace Narrowing

namespace Table

/-- Whether values between the bounds of the domain under a name can be missing. -/
def enumerated (t : Table DomainId Domain) (id : DomainId) : Bool :=
  match t.get? id with
  | some d => d.enumerated
  | none => false

theorem enumerated_of_get? {t : Table DomainId Domain} {id : DomainId} {d : Domain}
    (h : t.get? id = some d) : t.enumerated id = d.enumerated := by
  rw [enumerated, h]

end Table

namespace Domains

variable {id : DomainId} {cause : Cause} {allowed allowed' left left' : Int → Prop} {α β : Type}
  {s s' : Domains}

theorem Narrows.enumerated_eq {B : DomainId → Prop} (h : Narrows B cause s s')
    (hwf : s.table.WellFormed) (id : DomainId) :
    s'.table.enumerated id = s.table.enumerated id := by
  cases hd : s.table.get? id with
  | none =>
      have hd' : s'.table.get? id = none := by
        rw [Table.get?_eq_none_iff, h.size_eq]
        exact (Table.get?_eq_none_iff _ _).1 hd
      rw [Table.enumerated, Table.enumerated, hd, hd']
  | some d =>
      obtain ⟨d', hd', -, hkind, -⟩ := h.get?_eq_some hwf hd
      rw [Table.enumerated_of_get? hd, Table.enumerated_of_get? hd', hkind]

end Domains

/-- `g` has the domains of `t`, each of the same kind and without some of its members. -/
structure Table.Below (g t : Table DomainId Domain) : Prop where
  wellFormed : g.WellFormed
  size_eq : g.size = t.size
  enumerated_eq : ∀ id, g.enumerated id = t.enumerated id
  subset : ∀ id, g.members id ⊆ t.members id

theorem Table.Below.trans {g t u : Table DomainId Domain} (h : g.Below t) (h' : t.Below u) :
    g.Below u :=
  ⟨h.wellFormed, h.size_eq.trans h'.size_eq, fun id => (h.enumerated_eq id).trans (h'.enumerated_eq id),
    fun id => (h.subset id).trans (h'.subset id)⟩

theorem Table.Below.refl {t : Table DomainId Domain} (h : t.WellFormed) : t.Below t :=
  ⟨h, rfl, fun _ => rfl, fun _ => Finset.Subset.refl _⟩

namespace Domains

variable {id : DomainId} {cause : Cause} {allowed allowed' left left' : Int → Prop} {α β : Type}
  {s s' : Domains}

theorem Narrows.table_below {B : DomainId → Prop} (h : Narrows B cause s s') (hwf : s.table.WellFormed) :
    s'.table.Below s.table :=
  ⟨h.wellFormed hwf, h.size_eq, h.enumerated_eq hwf, h.members_subset hwf⟩

/-- The step makes changes of one domain only. Members that are `allowed` stay, what stays is as in
`left`, and it is refused only if no member is allowed. -/
def Confines (id : DomainId) (cause : Cause) (allowed left : Int → Prop) (m : Restricting α)
    (s : Domains) : Prop :=
  Ends m s
    (fun _ s' => Narrows (· = id) cause s s' ∧
      (∀ u ∈ s.table.members id, allowed u → u ∈ s'.table.members id) ∧
      ∀ u ∈ s'.table.members id, left u)
    (fun e s' => Narrows (· = id) cause s s' ∧
      (e = .empty → ∀ u ∈ s.table.members id, ¬ allowed u))

namespace Confines

variable {m : Restricting α} {f : α → Restricting β}

theorem mono (hwf : s.table.WellFormed) (h : Confines id cause allowed left m s)
    (hallowed : ∀ u ∈ s.table.members id, allowed' u → allowed u)
    (hleft : ∀ u ∈ s.table.members id, left u → left' u) :
    Confines id cause allowed' left' m s := by
  refine Ends.mono h ?_ ?_
  · rintro a s' ⟨hn, hstay, hs'⟩
    refine ⟨hn, fun u hu ha => hstay u hu (hallowed u hu ha), fun u hu => ?_⟩
    exact hleft u (hn.members_subset hwf id hu) (hs' u hu)
  · rintro e s' ⟨hn, hnone⟩
    exact ⟨hn, fun he u hu ha => hnone he u hu (hallowed u hu ha)⟩

/-- A sequence, with what the first step leaves in between. -/
theorem bind (left : Int → Prop) (h : Confines id cause allowed left m s)
    (hf : ∀ a s', Narrows (· = id) cause s s' → (∀ u ∈ s'.table.members id, left u) →
      Confines id cause allowed left' (f a) s') :
    Confines id cause allowed left' (m >>= f) s := by
  refine ends_bind (Ends.mono h ?_ ?_)
  · rintro a s' ⟨hn, hstay, hs'⟩
    refine Ends.mono (hf a s' hn hs') ?_ ?_
    · rintro b s'' ⟨hn', hstay', hs''⟩
      exact ⟨hn.trans hn', fun u hu ha => hstay' u (hstay u hu ha) ha, hs''⟩
    · rintro e s'' ⟨hn', hnone⟩
      exact ⟨hn.trans hn', fun he u hu ha => hnone he u (hstay u hu ha) ha⟩
  · rintro e s' ⟨hn, hnone⟩
    exact ⟨hn, hnone⟩

/-- Two descriptions of what is left hold together. -/
theorem and (h : Confines id cause allowed left m s) (h' : Confines id cause allowed' left' m s) :
    Confines id cause allowed (fun u => left u ∧ left' u) m s := by
  refine Ends.mono (Ends.and h h') ?_ ?_
  · rintro a s' ⟨⟨hn, hstay, hl⟩, -, -, hl'⟩
    exact ⟨hn, hstay, fun u hu => ⟨hl u hu, hl' u hu⟩⟩
  · rintro e s' ⟨hrefused, -⟩
    exact hrefused

end Confines

theorem confines_pure {a : α} (h : ∀ u ∈ s.table.members id, left u) :
    Confines id cause allowed left (pure a) s :=
  ends_pure ⟨.refl, fun _ hu _ => hu, h⟩

theorem confines_throw (h : ∀ u ∈ s.table.members id, ¬ allowed u) :
    Confines id cause allowed left (throw .empty : Restricting α) s :=
  ends_throw ⟨.refl, fun _ => h⟩

/-- Nothing comes after a refusal. -/
theorem confines_throw_bind {f : α → Restricting β} (h : ∀ u ∈ s.table.members id, ¬ allowed u) :
    Confines id cause allowed left ((throw .empty : Restricting α) >>= f) s :=
  ends_bind (ends_throw ⟨.refl, fun _ => h⟩)

theorem confines_checked {c : Checked α} {f : α → Restricting β}
    (hf : ∀ a, c = .ok a → Confines id cause allowed left (f a) s) :
    Confines id cause allowed left (Absolute.checked c >>= f) s := by
  refine ends_bind ?_
  unfold Ends Absolute.checked
  cases c with
  | ok a => exact hf a rfl
  | error e => exact ⟨.refl, fun he => nomatch he⟩

theorem confines_ask {x : Variable} {q : Query α} {f : α → Restricting β}
    (hf : ∀ a, x.answer s α q = .ok a → Confines id cause allowed left (f a) s) :
    Confines id cause allowed left (x.ask q >>= f) s :=
  confines_checked hf

/-- A restriction of a domain. Of an interval it may leave what it does not allow, but then both
bounds are allowed. -/
theorem confines_restrict (hwf : s.table.WellFormed) (id : DomainId) (r : Restriction) :
    Confines id cause r.Allows
      (fun u => r.Allows u ∨ ∃ d, s.table.get? id = some d ∧ d.enumerated = false ∧
        r.Allows d.lower ∧ r.Allows d.upper) (restrict id r cause) s := by
  unfold Confines Ends restrict domain Table.fetch
  cases hd : s.table.get? id with
  | none => exact ⟨.refl, fun he => nomatch he⟩
  | some d =>
      rcases Domain.planned_plan (hwf id d hd) r with ⟨changes, hplan, hfit, hobeys⟩ | ⟨hplan, hnone⟩
      · obtain ⟨hn, hget⟩ := narrows_changeAll (B := (· = id)) cause rfl hd hfit
        have hd' := (hget id).trans (if_pos rfl)
        simp only [hplan, Table.members_of_get? hd, Table.members_of_get? hd']
        rcases hobeys with hmembers | ⟨hkind, hsame, hlo, hhi⟩
        · rw [hmembers]
          exact ⟨hn, fun u hu ha => Finset.mem_filter.2 ⟨hu, ha⟩,
            fun u hu => Or.inl (Finset.mem_filter.1 hu).2⟩
        · rw [hsame]
          exact ⟨hn, fun u hu _ => hu, fun u _ => Or.inr ⟨d, rfl, hkind, hlo, hhi⟩⟩
      · simp only [hplan, Table.members_of_get? hd]
        exact ⟨.refl, fun _ => hnone⟩

end Domains

namespace Variable

open Domains

variable {cause : Cause} {s : Domains}

theorem image_nonneg (x : Variable) (u : Int) : 0 ≤ (abs x).image u := Int.natCast_nonneg _

theorem image_abs (x : Variable) (u : Int) : (abs x).image u = (x.image u).natAbs := rfl

/-- Whether a restriction of the variable allows its domain the value `u`. -/
def Permits (x : Variable) (r : Restriction) (u : Int) : Prop := r.Allows (x.image u)

/-- Every restriction of the variable confines its domain, and exactly so if that can have holes. -/
def Confined (x : Variable) (cause : Cause) : Prop :=
  ∀ (r : Restriction) (s : Domains), s.table.WellFormed →
    Confines x.base cause (x.Permits r)
      (fun u => s.table.enumerated x.base = true → x.Permits r u) (x.restrict cause r) s

/-- Take out the values from `lo` to `hi`, then their negations. -/
def mirrored (x : Variable) (cause : Cause) (lo hi : Int) : Restricting Bool := do
  let positive ← x.restrict cause (.outside lo hi)
  let z ← Absolute.checked (Absolute.negate hi)
  let z' ← Absolute.checked (Absolute.negate lo)
  let negative ← x.restrict cause (.outside z z')
  return positive || negative

section Views

variable {x : Variable} (hx : x.Confined cause) (hwf : s.table.WellFormed)
include hx hwf

theorem confines_widenGap (v : Int) :
    Confines x.base cause ((abs x).Permits (.atLeast v))
      (fun u => s.table.enumerated x.base = true → (abs x).Permits (.atLeast v) u)
      (Absolute.widenGap (x.restrict cause) v) s := by
  unfold Absolute.widenGap
  refine confines_checked fun lo hlo => confines_checked fun hi hhi => ?_
  obtain ⟨z, hz, hlo⟩ := Checked.bind_eq_ok hlo
  obtain rfl := Absolute.negate_eq_ok hz
  obtain rfl := Value.eq_of_check hlo
  obtain rfl := Value.eq_of_check hhi
  refine (hx _ s hwf).mono hwf (fun u _ ha => ?_) fun u _ hl he => ?_
  · simp only [Permits, Restriction.Allows, image_abs] at ha ⊢
    omega
  · have hout := hl he
    simp only [Permits, Restriction.Allows, image_abs] at hout ⊢
    omega

/-- The second of two restrictions below that make up one of the view. -/
theorem confines_second {r r₂ : Restriction} {first : Int → Prop} {e : Bool} {g : Bool → Bool}
    (he : s.table.enumerated x.base = e)
    (hfirst : ∀ u ∈ s.table.members x.base, e = true → first u)
    (hallows : ∀ u, (abs x).Permits r u → x.Permits r₂ u)
    (hboth : ∀ u, first u → x.Permits r₂ u → (abs x).Permits r u) :
    Confines x.base cause ((abs x).Permits r) (fun u => e = true → (abs x).Permits r u)
      (x.restrict cause r₂ >>= fun b => pure (g b)) s := by
  subst he
  refine Confines.bind (fun u => s.table.enumerated x.base = true → (abs x).Permits r u)
    ((hx r₂ s hwf).mono hwf (fun u _ => hallows u) fun u hu hl he => ?_)
    fun _ _ _ hall => confines_pure hall
  exact hboth u (hfirst u hu he) (hl he)

theorem confines_clamp (v : Int) :
    Confines x.base cause ((abs x).Permits (.atMost v))
      (fun u => s.table.enumerated x.base = true → (abs x).Permits (.atMost v) u)
      (Absolute.clamp (x.restrict cause) v) s := by
  unfold Absolute.clamp
  refine Confines.bind (fun u => s.table.enumerated x.base = true → x.image u ≤ v)
    ((hx _ s hwf).mono hwf (fun u _ ha => ?_) fun u _ hl => hl) fun _ s' hn hfirst => ?_
  · simp only [Permits, Restriction.Allows, image_abs] at ha ⊢
    omega
  · refine confines_checked fun z hz => ?_
    obtain rfl := Absolute.negate_eq_ok hz
    refine confines_second hx (hn.wellFormed hwf) (hn.enumerated_eq hwf _) hfirst
      (fun u ha => ?_) fun u h₁ h₂ => ?_
    · simp only [Permits, Restriction.Allows, image_abs] at ha ⊢
      omega
    · simp only [Permits, Restriction.Allows, image_abs] at h₂ ⊢
      omega

theorem confines_atLeast (v : Int) :
    Confines x.base cause ((abs x).Permits (.atLeast v))
      (fun u => s.table.enumerated x.base = true → (abs x).Permits (.atLeast v) u)
      (Absolute.atLeast (fun _ q => (abs x).ask q) (x.restrict cause) v) s := by
  have hanswers := describes_answer hwf (abs x)
  unfold Absolute.atLeast
  refine confines_ask fun lo hlo => ?_
  split
  · next hv =>
    exact confines_pure fun u hu _ => hv.trans ((hanswers.lower hlo).2 _ (image_mem_current hu))
  · next hv =>
    refine confines_ask fun hi hhi => ?_
    split
    · next hu =>
      refine confines_throw fun u hmem ha => ?_
      have := (hanswers.upper hhi).2 _ (image_mem_current hmem)
      exact absurd (ha.trans this) (not_le.2 hu)
    · next hu => exact confines_widenGap hx hwf v

theorem confines_atMost (v : Int) :
    Confines x.base cause ((abs x).Permits (.atMost v))
      (fun u => s.table.enumerated x.base = true → (abs x).Permits (.atMost v) u)
      (Absolute.atMost (fun _ q => (abs x).ask q) (x.restrict cause) v) s := by
  have hanswers := describes_answer hwf (abs x)
  unfold Absolute.atMost
  split
  · next hv =>
    refine confines_throw fun u hmem ha => ?_
    have := image_nonneg x u
    exact absurd (this.trans ha) (not_le.2 hv)
  · next hv =>
    refine confines_ask fun lo hlo => ?_
    split
    · next hl =>
      refine confines_throw fun u hmem ha => ?_
      have := (hanswers.lower hlo).2 _ (image_mem_current hmem)
      exact absurd (this.trans ha) (not_le.2 hl)
    · next hl =>
      refine confines_ask fun hi hhi => ?_
      split
      · next hu =>
        refine confines_pure fun u hmem _ => ?_
        exact ((hanswers.upper hhi).2 _ (image_mem_current hmem)).trans hu
      · next hu => exact confines_clamp hx hwf v

theorem confines_without (v : Int) :
    Confines x.base cause ((abs x).Permits (.without v))
      (fun u => s.table.enumerated x.base = true → (abs x).Permits (.without v) u)
      (Absolute.without (fun _ q => (abs x).ask q) (x.restrict cause) v) s := by
  have hanswers := describes_answer hwf (abs x)
  unfold Absolute.without
  refine confines_ask fun here hhere => ?_
  split
  · next hnot =>
    refine confines_pure fun u hmem _ heq => ?_
    subst heq
    have := (hanswers.contains hhere).2 (image_mem_current hmem)
    simp [this] at hnot
  · next hin =>
    have hv := (hanswers.contains hhere).1 (by simpa using hin)
    have hv0 : 0 ≤ v := by
      obtain ⟨w, -, rfl⟩ := mem_current.1 hv
      exact image_nonneg x w
    refine confines_ask fun lo hlo => confines_ask fun hi hhi => ?_
    split
    · next hfixed =>
      refine confines_throw fun u hmem ha => ?_
      have := (hanswers.lower hlo).2 _ hv
      have := (hanswers.upper hhi).2 _ hv
      have := (hanswers.lower hlo).2 _ (image_mem_current hmem)
      have := (hanswers.upper hhi).2 _ (image_mem_current hmem)
      simp only [Permits, Restriction.Allows] at ha
      omega
    · next hfixed =>
      refine Confines.bind (fun u => s.table.enumerated x.base = true → x.image u ≠ v)
        ((hx _ s hwf).mono hwf (fun u _ ha => ?_) fun u _ hl => hl) fun _ s' hn hfirst => ?_
      · simp only [Permits, Restriction.Allows, image_abs] at ha ⊢
        omega
      · split
        · next hzero =>
          refine confines_pure fun u hu he => ?_
          have := hfirst u hu he
          simp only [Permits, Restriction.Allows, image_abs]
          omega
        · next hzero =>
          refine confines_checked fun z hz => ?_
          obtain rfl := Absolute.negate_eq_ok hz
          refine confines_second hx (hn.wellFormed hwf) (hn.enumerated_eq hwf _) hfirst
            (fun u ha => ?_) fun u h₁ h₂ => ?_
          · simp only [Permits, Restriction.Allows, image_abs] at ha ⊢
            omega
          · simp only [Permits, Restriction.Allows, image_abs] at h₂ ⊢
            omega

/-- Taking out values of one sign, then those of the other. -/
theorem confines_mirrored {lo hi : Int} (hlo : 0 ≤ lo) :
    Confines x.base cause ((abs x).Permits (.outside lo hi))
      (fun u => s.table.enumerated x.base = true → (abs x).Permits (.outside lo hi) u)
      (x.mirrored cause lo hi) s := by
  refine Confines.bind (fun u => s.table.enumerated x.base = true →
    x.Permits (.outside lo hi) u) ((hx _ s hwf).mono hwf (fun u _ ha => ?_) fun u _ hl => hl)
    fun _ s' hn hfirst => ?_
  · simp only [Permits, Restriction.Allows, image_abs] at ha ⊢
    omega
  · refine confines_checked fun z hz => confines_checked fun z' hz' => ?_
    obtain rfl := Absolute.negate_eq_ok hz
    obtain rfl := Absolute.negate_eq_ok hz'
    refine confines_second hx (hn.wellFormed hwf) (hn.enumerated_eq hwf _) hfirst
      (fun u ha => ?_) fun u h₁ h₂ => ?_
    · simp only [Permits, Restriction.Allows, image_abs] at ha ⊢
      omega
    · simp only [Permits, Restriction.Allows, image_abs] at h₁ h₂ ⊢
      omega

omit hx in
/-- The refusal that is looked for before values are taken out of a view. -/
theorem confines_outside_of_mirrored {lo hi : Int} {allowed left : Int → Prop} (hle : lo ≤ hi)
    (hpos : 0 ≤ hi) (hallowed : ∀ u, allowed u → (abs x).Permits (.outside lo hi) u)
    (hrest : Confines x.base cause allowed left (x.mirrored cause (max lo 0) hi) s) :
    Confines x.base cause allowed left
      (Absolute.outside (fun _ q => (abs x).ask q) (x.restrict cause) lo hi) s := by
  have hanswers := describes_answer hwf (abs x)
  unfold Absolute.outside
  rw [if_neg (by omega)]
  refine confines_ask fun low hlow => ?_
  split
  · next hlow' =>
    refine confines_ask fun high hhigh => ?_
    split
    · next hhigh' =>
      refine confines_throw_bind fun u hu ha => ?_
      have := (hanswers.lower hlow).2 _ (image_mem_current hu)
      have := (hanswers.upper hhigh).2 _ (image_mem_current hu)
      have ha := hallowed u ha
      simp only [Permits, Restriction.Allows] at ha
      omega
    · exact hrest
  · exact hrest

theorem confines_outside (lo hi : Int) :
    Confines x.base cause ((abs x).Permits (.outside lo hi))
      (fun u => s.table.enumerated x.base = true → (abs x).Permits (.outside lo hi) u)
      (Absolute.outside (fun _ q => (abs x).ask q) (x.restrict cause) lo hi) s := by
  by_cases hnone : hi < 0 ∨ hi < lo
  · unfold Absolute.outside
    rw [if_pos hnone]
    refine confines_pure fun u hu _ => ?_
    have := image_nonneg x u
    simp only [Permits, Restriction.Allows]
    omega
  · refine confines_outside_of_mirrored hwf (by omega) (by omega) (fun _ ha => ha) ?_
    refine (confines_mirrored hx hwf (le_max_right lo 0)).mono hwf (fun u _ ha => ?_)
      fun u _ hl he => ?_
    · have := image_nonneg x u
      simp only [Permits, Restriction.Allows] at ha ⊢
      omega
    · have hl := hl he
      have := image_nonneg x u
      simp only [Permits, Restriction.Allows] at hl ⊢
      omega

theorem confines_exactly (v : Int) :
    Confines x.base cause ((abs x).Permits (.exactly v))
      (fun u => s.table.enumerated x.base = true → (abs x).Permits (.exactly v) u)
      (Absolute.exactly (fun _ q => (abs x).ask q) (x.restrict cause) v) s := by
  have hanswers := describes_answer hwf (abs x)
  unfold Absolute.exactly
  refine confines_ask fun here hhere => ?_
  split
  · next hnot =>
    refine confines_throw fun u hmem ha => ?_
    have := (hanswers.contains hhere).2 (ha ▸ image_mem_current hmem)
    simp [this] at hnot
  · next hin =>
    split
    · next hzero =>
      refine (hx _ s hwf).mono hwf (fun u _ ha => ?_) fun u _ hl he => ?_
      · simp only [Permits, Restriction.Allows, image_abs] at ha ⊢
        omega
      · have hl := hl he
        simp only [Permits, Restriction.Allows, image_abs] at hl ⊢
        omega
    · next hzero =>
      refine Confines.bind (fun u => s.table.enumerated x.base = true →
        (abs x).Permits (.atMost v) u) ((confines_clamp hx hwf v).mono hwf (fun u _ ha => ?_)
          fun u _ hl => hl) fun _ s' hn hclamped => ?_
      · exact le_of_eq ha
      · have hwf' := hn.wellFormed hwf
        refine Confines.bind (fun u => s.table.enumerated x.base = true →
          (abs x).Permits (.exactly v) u) ((confines_widenGap hx hwf' v).mono hwf'
            (fun u _ ha => ?_) fun u hu hl he => ?_) fun _ _ _ hall => confines_pure hall
        · exact le_of_eq ha.symm
        · exact le_antisymm (hclamped u hu he) (hl (by rw [hn.enumerated_eq hwf, he]))

end Views

/-- Restrictions of any variable confine its domain. -/
theorem confined (x : Variable) (cause : Cause) : x.Confined cause := by
  intro r s hwf
  induction x generalizing r s with
  | domain id =>
      refine (confines_restrict hwf id r).mono hwf (fun u _ ha => ha) fun u _ hl he => ?_
      rcases hl with hl | ⟨d, hd, hkind, -⟩
      · exact hl
      · have he : s.table.enumerated id = true := he
        rw [Table.enumerated_of_get? hd, hkind] at he
        exact nomatch he
  | abs x ih =>
      have hx : x.Confined cause := ih
      cases r with
      | atLeast v => exact confines_atLeast hx hwf v
      | atMost v => exact confines_atMost hx hwf v
      | without v => exact confines_without hx hwf v
      | outside lo hi => exact confines_outside hx hwf lo hi
      | exactly v => exact confines_exactly hx hwf v

end Variable

end Narrowing
