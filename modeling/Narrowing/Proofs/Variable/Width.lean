import Narrowing.Proofs.Variable.Portrayal

/-!
Machine values. Bounds and next values that a variable tells are machine values, and so is all that a
listing upwards has. The least machine value has no absolute value, so a view that was counted is not
one of a domain with that value.
-/

namespace Narrowing

/-- Bounds and next values are machine values. -/
structure InWidth (ask : Oracle) : Prop where
  lower : ∀ {a}, ask _ .lower = .ok a → Value.InRange a
  upper : ∀ {a}, ask _ .upper = .ok a → Value.InRange a
  next : ∀ {v w}, ask _ (.next v) = .ok (some w) → Value.InRange w

theorem Value.inRange_of_check {v w : Int} (h : check v = .ok w) : InRange w := by
  unfold check at h
  split at h
  · next hv => exact Except.ok.inj h ▸ hv
  · exact nomatch h

theorem Domain.inRange_of_mem {d : Domain} (h : d.WellFormed) {v : Int} (hv : v ∈ d.members) :
    Value.InRange v :=
  ⟨h.least_le.trans (lower_le hv), (le_upper hv).trans h.le_greatest⟩

theorem Domains.inWidth_answer {s : Domains} (hwf : s.table.WellFormed) (id : DomainId) :
    InWidth (s.answer id) := by
  have hanswers := Domains.describes_answer hwf id
  have hmem : ∀ v ∈ s.table.members id, Value.InRange v := by
    intro v hv
    cases hd : s.table.get? id with
    | none =>
        rw [Table.members, hd] at hv
        exact absurd hv (Finset.notMem_empty v)
    | some d =>
        rw [Table.members_of_get? hd] at hv
        exact Domain.inRange_of_mem (hwf id d hd) hv
  exact ⟨fun ha => hmem _ (hanswers.lower ha).1, fun ha => hmem _ (hanswers.upper ha).1,
    fun hw => hmem _ (hanswers.next hw).1⟩

namespace Absolute

variable {ask : Oracle} {p q : Option Int} {v w : Int} {l : List Int} {n limit : Nat}

theorem inRange_of_negate? (h : negate? q = .ok (some w)) : Value.InRange w := by
  cases q with
  | none => exact nomatch h
  | some v =>
      obtain ⟨u, hu, h⟩ := Checked.bind_eq_ok h
      obtain rfl := Option.some.inj (Except.ok.inj h)
      exact Value.inRange_of_check hu

theorem inRange_of_pick {better : Int → Int → Int}
    (hbetter : ∀ a b, better a b = a ∨ better a b = b) (hp : ∀ w, p = some w → Value.InRange w)
    (hq : ∀ w, q = some w → Value.InRange w) (hv : pick better p q = some v) : Value.InRange v :=
  (of_pick_eq_some hbetter hv).elim (hp v) (hq v)

section Width

variable (h : InWidth ask)
include h

theorem inRange_of_lower (hm : lower ask = .ok v) : Value.InRange v := by
  obtain ⟨zero, -, hm⟩ := Checked.bind_eq_ok hm
  split at hm
  · obtain rfl := Except.ok.inj hm
    decide
  obtain ⟨lo, hlo, hm⟩ := Checked.bind_eq_ok hm
  obtain ⟨hi, hhi, hm⟩ := Checked.bind_eq_ok hm
  split at hm
  · obtain rfl := Except.ok.inj hm
    exact h.lower hlo
  split at hm
  · exact Value.inRange_of_check hm
  obtain ⟨above, habove, hm⟩ := Checked.bind_eq_ok hm
  obtain ⟨below, -, hm⟩ := Checked.bind_eq_ok hm
  obtain ⟨opposite, hopposite, hm⟩ := Checked.bind_eq_ok hm
  obtain rfl := Except.ok.inj hm
  have hfirst : Value.InRange (above.getD hi) := by
    cases above with
    | none => exact h.upper hhi
    | some w => exact h.next habove
  rcases min_choice (above.getD hi) opposite with hc | hc
  · exact hc.symm ▸ hfirst
  · exact hc.symm ▸ Value.inRange_of_check hopposite

/-- Views of what keeps to the machine values do so too. -/
theorem inWidth_answer : InWidth (answer ask) where
  lower := inRange_of_lower h
  upper hm := by
    obtain ⟨lo, -, hm⟩ := Checked.bind_eq_ok hm
    obtain ⟨hi, hhi, hm⟩ := Checked.bind_eq_ok hm
    obtain ⟨opposite, hopposite, hm⟩ := Checked.bind_eq_ok hm
    obtain rfl := Except.ok.inj hm
    rcases max_choice opposite hi with hc | hc
    · exact hc.symm ▸ Value.inRange_of_check hopposite
    · exact hc.symm ▸ h.upper hhi
  next {v w} hm := by
    change next ask v = _ at hm
    unfold next at hm
    split at hm
    · obtain ⟨m, hm', hm⟩ := Checked.bind_eq_ok hm
      obtain rfl := Option.some.inj (Except.ok.inj hm)
      exact inRange_of_lower h hm'
    · obtain ⟨above, habove, hm⟩ := Checked.bind_eq_ok hm
      obtain ⟨opposite, -, hm⟩ := Checked.bind_eq_ok hm
      obtain ⟨below, -, hm⟩ := Checked.bind_eq_ok hm
      obtain ⟨turned, hturned, hm⟩ := Checked.bind_eq_ok hm
      refine inRange_of_pick min_choice (fun u hu => ?_) (fun u hu => ?_) (Except.ok.inj hm)
      · exact h.next (hu ▸ habove)
      · exact inRange_of_negate? (hu ▸ hturned)

theorem inRange_of_climb (hp : ∀ w, p = some w → Value.InRange w) (hl : climb ask n p q = .ok l) :
    ∀ v ∈ l, Value.InRange v := by
  induction n generalizing p q l with
  | zero =>
      obtain rfl := Except.ok.inj hl
      exact fun v hv => nomatch hv
  | succ n ih =>
      rw [climb_succ] at hl
      obtain ⟨opposite, hopposite, hl⟩ := Checked.bind_eq_ok hl
      cases hv : pick min p opposite with
      | none =>
          simp only [hv] at hl
          obtain rfl := Except.ok.inj hl
          exact fun v hv => nomatch hv
      | some v =>
          simp only [hv] at hl
          obtain ⟨p₁, hp₁, hl⟩ := Checked.bind_eq_ok hl
          obtain ⟨q₁, -, hl⟩ := Checked.bind_eq_ok hl
          obtain ⟨tail, htail, hl⟩ := Checked.bind_eq_ok hl
          obtain rfl := Except.ok.inj hl
          have hp' : ∀ w, p₁ = some w → Value.InRange w := by
            intro w hw
            split at hp₁
            · exact h.next (hw ▸ hp₁)
            · exact hp w ((Except.ok.inj hp₁).trans hw)
          have hfirst : Value.InRange v := inRange_of_pick min_choice hp
            (fun u hu => inRange_of_negate? (hu ▸ hopposite)) hv
          exact List.forall_mem_cons.2 ⟨hfirst, ih hp' htail⟩

theorem inRange_of_ascending (hl : ascending ask limit = .ok l) : ∀ v ∈ l, Value.InRange v := by
  obtain ⟨zero, -, hl⟩ := Checked.bind_eq_ok hl
  split at hl
  · obtain ⟨first, hfirst, hl⟩ := Checked.bind_eq_ok hl
    obtain ⟨below, -, hl⟩ := Checked.bind_eq_ok hl
    obtain rfl := Except.ok.inj hfirst
    refine inRange_of_climb h (fun w hw => ?_) hl
    obtain rfl := Option.some.inj hw
    decide
  · obtain ⟨above, habove, hl⟩ := Checked.bind_eq_ok hl
    obtain ⟨below, -, hl⟩ := Checked.bind_eq_ok hl
    exact inRange_of_climb h (fun w hw => h.next (hw ▸ habove)) hl

end Width

end Absolute

namespace Variable

variable {s : Domains} (hwf : s.table.WellFormed)
include hwf

theorem inWidth_answer (x : Variable) : InWidth (x.answer s) := by
  induction x with
  | domain id => exact Domains.inWidth_answer hwf id
  | abs x ih => exact Absolute.inWidth_answer ih

omit hwf in
/-- The absolute value of the least machine value is none. -/
theorem least_notMem_of_current {y : Variable}
    (h : ∀ v ∈ (Variable.abs y).current s.table, Value.InRange v) :
    Value.least ∉ s.table.members y.base := by
  intro hmem
  have hrange := h _ (image_mem_current (x := .abs y) hmem)
  rw [image_abs, natAbs_image] at hrange
  exact absurd hrange (by decide)

/-- Of a view that was counted, the domain does not have the least machine value. -/
theorem least_notMem_of_size {y : Variable} {n : Nat} (h : (Variable.abs y).size s = .ok n) :
    Value.least ∉ s.table.members y.base := by
  obtain ⟨l, hl, -⟩ := Checked.bind_eq_ok h
  have hanswers := (Variable.abs y).describes_answer hwf
  obtain ⟨-, hmem⟩ := hanswers.ascending hanswers.few hl
  exact least_notMem_of_current fun v hv =>
    Absolute.inRange_of_ascending (y.inWidth_answer hwf) hl v ((hmem v).2 hv)

/-- The same holds of a view of which the greatest value was told. -/
theorem least_notMem_of_upper {y : Variable} {v : Int} (h : (Variable.abs y).upper s = .ok v) :
    Value.least ∉ s.table.members y.base := by
  have hrange := ((Variable.abs y).inWidth_answer hwf).upper h
  obtain ⟨-, hgreatest⟩ := ((Variable.abs y).describes_answer hwf).upper h
  refine least_notMem_of_current fun u hu => ?_
  obtain ⟨u', -, rfl⟩ := mem_current.1 hu
  have := hgreatest _ hu
  have := image_nonneg y u'
  unfold Value.InRange Value.least Value.greatest at *
  omega

end Variable

end Narrowing
