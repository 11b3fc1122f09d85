import Narrowing.Variable.Basic
import Narrowing.Proofs.Domain.Store
import Mathlib.Data.Finset.Image

/-!
The answers to questions describe one finite set of values. For a domain these are its members, and
for an absolute view the absolute values of the set below, so for any nesting of views the answers
describe the image of the members at the bottom. What is shown is that no answer is wrong; an answer
may be missing, where a negation leaves the width of values.
-/

namespace Narrowing

/-- The answers of `ask`, where it gives one, are those about the values `V`. -/
structure Describes (ask : Oracle) (V : Finset Int) : Prop where
  few : V.card ≤ Value.count
  lower : ∀ {a}, ask _ .lower = .ok a → a ∈ V ∧ ∀ u ∈ V, a ≤ u
  upper : ∀ {a}, ask _ .upper = .ok a → a ∈ V ∧ ∀ u ∈ V, u ≤ a
  size : ∀ {n}, ask _ .size = .ok n → n = V.card
  contains : ∀ {v b}, ask _ (.contains v) = .ok b → (b = true ↔ v ∈ V)
  next : ∀ {v o}, ask _ (.next v) = .ok o → FirstFrom V (v + 1) o
  previous : ∀ {v o}, ask _ (.previous v) = .ok o → LastUpTo V (v - 1) o
  ascending : ∀ {limit l}, V.card ≤ limit → ask _ (.ascending limit) = .ok l →
    l.Pairwise (· < ·) ∧ ∀ v, v ∈ l ↔ v ∈ V

/-! ### Domains -/

theorem Domains.describes_answer {s : Domains} (hwf : s.table.WellFormed) (id : DomainId) :
    Describes (s.answer id) (s.table.members id) := by
  cases hd : s.table.get? id with
  | none =>
      have hfault : s.domain id = .error .outOfBounds := by
        unfold Domains.domain Table.fetch
        rw [hd]
      have hempty : s.table.members id = ∅ := by
        unfold Table.members
        rw [hd]
      rw [hempty]
      refine ⟨Nat.zero_le _, ?_, ?_, ?_, ?_, ?_, ?_, ?_⟩
      all_goals
        intros
        rename_i ha
        simp [Domains.answer, hfault, bind, Except.bind] at ha
  | some d =>
      have h := hwf id d hd
      have hok : s.domain id = .ok d := (s.table.fetch_eq_ok_iff).2 hd
      rw [Table.members_of_get? hd]
      refine ⟨Domain.card_members_le h, ?_, ?_, ?_, ?_, ?_, ?_, ?_⟩
      all_goals simp only [Domains.answer, hok, bind, Except.bind, pure, Except.pure]
      · rintro a ⟨⟩
        exact ⟨h.lower_mem, fun u hu => Domain.lower_le hu⟩
      · rintro a ⟨⟩
        exact ⟨h.upper_mem, fun u hu => Domain.le_upper hu⟩
      · rintro n ⟨⟩
        exact h.size_eq
      · intro v b hb
        rw [Domain.contains_eq h] at hb
        obtain rfl := Except.ok.inj hb
        exact decide_eq_true_iff
      · intro v o ho
        obtain ⟨o', ho', hfirst⟩ := Domain.next_eq h v
        obtain rfl := Except.ok.inj (ho'.symm.trans ho)
        exact hfirst
      · intro v o ho
        obtain ⟨o', ho', hlast⟩ := Domain.previous_eq h v
        obtain rfl := Except.ok.inj (ho'.symm.trans ho)
        exact hlast
      · intro limit l hlimit hl
        obtain ⟨l', hl', hlist⟩ := Domain.ascending_eq h hlimit
        obtain rfl := Except.ok.inj (hl'.symm.trans hl)
        exact hlist

/-! ### Absolute views -/

namespace Absolute

/-- The absolute values of a set. -/
def image (V : Finset Int) : Finset Int := V.image fun v => (v.natAbs : Int)

theorem mem_image {V : Finset Int} {w : Int} : w ∈ image V ↔ 0 ≤ w ∧ (w ∈ V ∨ -w ∈ V) := by
  simp only [image, Finset.mem_image]
  constructor
  · rintro ⟨v, hv, rfl⟩
    refine ⟨Int.natCast_nonneg _, ?_⟩
    rcases Int.natAbs_eq v with h | h
    · exact Or.inl (h ▸ hv)
    · exact Or.inr (by rwa [← h])
  · rintro ⟨hw, h | h⟩
    · exact ⟨w, h, by omega⟩
    · exact ⟨-w, h, by omega⟩

theorem negate_eq_ok {v w : Int} (h : negate v = .ok w) : w = -v := Value.eq_of_check h

theorem negate?_eq_ok {o o' : Option Int} (h : negate? o = .ok o') : o' = o.map fun v => -v := by
  cases o with
  | none => exact (Except.ok.inj h).symm
  | some v =>
      obtain ⟨w, hw, ho⟩ := Checked.bind_eq_ok h
      rw [← Except.ok.inj ho, negate_eq_ok hw]
      rfl

variable {ask : Oracle} {V : Finset Int} {p q : Option Int} {a b : Int}

/-- The values still to come when the next one up is at least `a` and the next one down at most
`-b`. -/
def rest (V : Finset Int) (a b : Int) : Finset Int :=
  V.filter (a ≤ ·) ∪ (V.filter (· ≤ -b)).image fun v => -v

theorem mem_rest {w : Int} : w ∈ rest V a b ↔ (a ≤ w ∧ w ∈ V) ∨ (b ≤ w ∧ -w ∈ V) := by
  simp only [rest, Finset.mem_union, Finset.mem_filter, Finset.mem_image]
  constructor
  · rintro (⟨hw, ha⟩ | ⟨v, ⟨hv, hb⟩, rfl⟩)
    · exact Or.inl ⟨ha, hw⟩
    · exact Or.inr ⟨by omega, by rwa [neg_neg]⟩
  · rintro (⟨ha, hw⟩ | ⟨hb, hw⟩)
    · exact Or.inl ⟨hw, ha⟩
    · exact Or.inr ⟨-w, ⟨hw, by omega⟩, neg_neg w⟩

theorem image_eq_rest : image V = rest V 0 1 := by
  ext w
  rw [mem_image, mem_rest]
  constructor
  · rintro ⟨hw, h | h⟩
    · exact Or.inl ⟨hw, h⟩
    · by_cases hz : w = 0
      · subst hz
        exact Or.inl ⟨hw, by simpa using h⟩
      · exact Or.inr ⟨by omega, h⟩
  · rintro (⟨hw, h⟩ | ⟨hw, h⟩)
    · exact ⟨hw, Or.inl h⟩
    · exact ⟨by omega, Or.inr h⟩

/-- The smaller of the next values on either side is the first of those still to come. -/
theorem pick_min (hp : FirstFrom V a p) (hq : LastUpTo V (-b) q) :
    match pick min p (q.map fun v => -v) with
    | none => rest V a b = ∅
    | some w => w ∈ rest V a b ∧ ∀ u ∈ rest V a b, w ≤ u := by
  cases p with
  | none =>
      cases q with
      | none =>
          refine Finset.eq_empty_of_forall_notMem fun w hw => ?_
          rcases mem_rest.1 hw with ⟨ha, h⟩ | ⟨hb, h⟩
          · exact absurd (hp w h) (not_lt.2 ha)
          · have := hq (-w) h
            omega
      | some z =>
          obtain ⟨hz, hzb, hlast⟩ := hq
          change -z ∈ rest V a b ∧ ∀ u ∈ rest V a b, -z ≤ u
          refine ⟨mem_rest.2 (Or.inr ⟨by omega, by rwa [neg_neg]⟩), fun u hu => ?_⟩
          rcases mem_rest.1 hu with ⟨ha, h⟩ | ⟨hb, h⟩
          · exact absurd (hp u h) (not_lt.2 ha)
          · have := hlast (-u) h (by omega)
            omega
  | some w =>
      obtain ⟨hw, haw, hfirst⟩ := hp
      cases q with
      | none =>
          refine ⟨mem_rest.2 (Or.inl ⟨haw, hw⟩), fun u hu => ?_⟩
          rcases mem_rest.1 hu with ⟨ha, h⟩ | ⟨hb, h⟩
          · exact hfirst u h ha
          · have := hq (-u) h
            omega
      | some z =>
          obtain ⟨hz, hzb, hlast⟩ := hq
          change min w (-z) ∈ rest V a b ∧ ∀ u ∈ rest V a b, min w (-z) ≤ u
          constructor
          · rcases min_choice w (-z) with h | h
            · rw [h]
              exact mem_rest.2 (Or.inl ⟨haw, hw⟩)
            · rw [h]
              exact mem_rest.2 (Or.inr ⟨by omega, by rwa [neg_neg]⟩)
          · intro u hu
            rcases mem_rest.1 hu with ⟨ha, h⟩ | ⟨hb, h⟩
            · exact (min_le_left _ _).trans (hfirst u h ha)
            · have := hlast (-u) h (by omega)
              exact (min_le_right _ _).trans (by omega)

/-- The greater of the next values towards zero on either side is the last one below `v`. -/
theorem pick_max {v : Int} (hp : LastUpTo V (v - 1) p) (hq : FirstFrom V (-v + 1) q) :
    LastUpTo (image V) (v - 1)
      (pick max (p.filter (0 ≤ ·)) ((q.filter (· ≤ 0)).map fun u => -u)) := by
  have hleft : ∀ u ∈ V, u ≤ v - 1 → 0 ≤ u → ∃ w, p.filter (0 ≤ ·) = some w ∧ u ≤ w := by
    intro u hu huv hu0
    cases p with
    | none => exact absurd (hp u hu) (not_lt.2 huv)
    | some w =>
        have huw := hp.2.2 u hu huv
        exact ⟨w, by simp [Option.filter, hu0.trans huw], huw⟩
  have hright : ∀ u ∈ V, -v + 1 ≤ u → u ≤ 0 → ∃ w, q.filter (· ≤ 0) = some w ∧ w ≤ u := by
    intro u hu huv hu0
    cases q with
    | none => exact absurd (hq u hu) (not_lt.2 huv)
    | some w =>
        have hwu := hq.2.2 u hu huv
        exact ⟨w, by simp [Option.filter, hwu.trans hu0], hwu⟩
  have hp' : ∀ w, p.filter (0 ≤ ·) = some w → w ∈ V ∧ w ≤ v - 1 ∧ 0 ≤ w := by
    intro w hw
    obtain ⟨hpw, h0⟩ := Option.filter_eq_some_iff.1 hw
    rw [hpw] at hp
    exact ⟨hp.1, hp.2.1, by simpa using h0⟩
  have hq' : ∀ w, q.filter (· ≤ 0) = some w → w ∈ V ∧ -v + 1 ≤ w ∧ w ≤ 0 := by
    intro w hw
    obtain ⟨hqw, h0⟩ := Option.filter_eq_some_iff.1 hw
    rw [hqw] at hq
    exact ⟨hq.1, hq.2.1, by simpa using h0⟩
  generalize p.filter (0 ≤ ·) = p' at hleft hp' ⊢
  generalize q.filter (· ≤ 0) = q' at hright hq' ⊢
  have hpass : ∀ u ∈ image V, u ≤ v - 1 →
      (∃ w, p' = some w ∧ u ≤ w) ∨ (∃ w, q' = some w ∧ u ≤ -w) := by
    intro u hu huv
    obtain ⟨hu0, h | h⟩ := mem_image.1 hu
    · exact Or.inl (hleft u h huv hu0)
    · obtain ⟨w, hw, hle⟩ := hright (-u) h (by omega) (by omega)
      exact Or.inr ⟨w, hw, by omega⟩
  cases p' with
  | none =>
      cases q' with
      | none =>
          intro u hu
          by_contra hlt
          rcases hpass u hu (not_lt.1 hlt) with ⟨w, hw, -⟩ | ⟨w, hw, -⟩ <;> exact nomatch hw
      | some z =>
          obtain ⟨hz, hvz, hz0⟩ := hq' z rfl
          change -z ∈ image V ∧ -z ≤ v - 1 ∧ ∀ u ∈ image V, u ≤ v - 1 → u ≤ -z
          refine ⟨mem_image.2 ⟨by omega, Or.inr (by rwa [neg_neg])⟩, by omega, fun u hu huv => ?_⟩
          rcases hpass u hu huv with ⟨w, hw, -⟩ | ⟨w, hw, hle⟩
          · exact nomatch hw
          · obtain rfl := Option.some.inj hw
            exact hle
  | some w =>
      obtain ⟨hw, hwv, hw0⟩ := hp' w rfl
      cases q' with
      | none =>
          refine ⟨mem_image.2 ⟨hw0, Or.inl hw⟩, hwv, fun u hu huv => ?_⟩
          rcases hpass u hu huv with ⟨w', hw', hle⟩ | ⟨w', hw', -⟩
          · obtain rfl := Option.some.inj hw'
            exact hle
          · exact nomatch hw'
      | some z =>
          obtain ⟨hz, hvz, hz0⟩ := hq' z rfl
          change max w (-z) ∈ image V ∧ max w (-z) ≤ v - 1 ∧ ∀ u ∈ image V, u ≤ v - 1 → u ≤ max w (-z)
          refine ⟨?_, max_le hwv (by omega), fun u hu huv => ?_⟩
          · rcases max_choice w (-z) with h | h
            · rw [h]
              exact mem_image.2 ⟨hw0, Or.inl hw⟩
            · rw [h]
              exact mem_image.2 ⟨by omega, Or.inr (by rwa [neg_neg])⟩
          · rcases hpass u hu huv with ⟨w', hw', hle⟩ | ⟨w', hw', hle⟩
            · obtain rfl := Option.some.inj hw'
              exact le_max_of_le_left hle
            · obtain rfl := Option.some.inj hw'
              exact le_max_of_le_right hle

theorem climb_succ (n : Nat) :
    climb ask (n + 1) p q = (negate? q >>= fun q' =>
      match pick min p q' with
      | none => pure []
      | some v => do
        let p₁ ← (if p = some v then ask _ (.next v) else pure p : Checked (Option Int))
        let q₁ ← (if q' = some v then ask _ (.previous (-v)) else pure q : Checked (Option Int))
        let tail ← climb ask n p₁ q₁
        pure (v :: tail)) := by
  rw [climb]
  congr 1
  funext q'
  cases pick min p q' with
  | none => rfl
  | some v =>
      by_cases hp : p = some v <;> by_cases hq : q' = some v <;> simp [hp, hq]

section Answers

variable (h : Describes ask V)
include h

/-- Walking away from zero on both sides lists the values still to come. -/
theorem climb_eq {n : Nat} {l : List Int} (hab : a ≤ b) (hba : b ≤ a + 1)
    (hp : FirstFrom V a p) (hq : LastUpTo V (-b) q) (hn : (rest V a b).card ≤ n)
    (hl : climb ask n p q = .ok l) :
    l.Pairwise (· < ·) ∧ ∀ v, v ∈ l ↔ v ∈ rest V a b := by
  induction n generalizing p q a b l with
  | zero =>
      obtain rfl := Except.ok.inj hl
      rw [Finset.card_eq_zero.1 (Nat.le_zero.1 hn)]
      exact ⟨List.Pairwise.nil, by simp⟩
  | succ n ih =>
      rw [climb_succ] at hl
      obtain ⟨q', hq', hl⟩ := Checked.bind_eq_ok hl
      obtain rfl := negate?_eq_ok hq'
      have hpick := pick_min hp hq
      cases hw : pick min p (q.map fun v => -v) with
      | none =>
          simp only [hw] at hl hpick
          obtain rfl := Except.ok.inj hl
          rw [hpick]
          exact ⟨List.Pairwise.nil, by simp⟩
      | some v =>
          simp only [hw] at hl hpick
          obtain ⟨hmem, hleast⟩ := hpick
          obtain ⟨p₁, hp₁, hl⟩ := Checked.bind_eq_ok hl
          obtain ⟨q₁, hq₁, hl⟩ := Checked.bind_eq_ok hl
          obtain ⟨tail, htail, hl⟩ := Checked.bind_eq_ok hl
          obtain rfl := Except.ok.inj hl
          have hav : a ≤ v := by
            rcases mem_rest.1 hmem with ⟨ha, -⟩ | ⟨hb, -⟩ <;> omega
          have hfirst : FirstFrom V (v + 1) p₁ := by
            split at hp₁
            · exact h.next hp₁
            · next hne =>
              obtain rfl := Except.ok.inj hp₁
              refine hp.advance (by omega) fun w hpw => ?_
              subst hpw
              have := hleast w (mem_rest.2 (Or.inl ⟨hp.2.1, hp.1⟩))
              have : w ≠ v := fun he => hne (congrArg some he)
              omega
          have hlast : LastUpTo V (-(v + 1)) q₁ := by
            split at hq₁
            · have := h.previous hq₁
              rwa [neg_add']
            · next hne =>
              obtain rfl := Except.ok.inj hq₁
              refine hq.advance (by omega) fun w hqw => ?_
              subst hqw
              have hw' : -b ≥ w := hq.2.1
              have := hleast (-w) (mem_rest.2 (Or.inr ⟨by omega, by rw [neg_neg]; exact hq.1⟩))
              have : -w ≠ v := fun he => hne (congrArg some he)
              omega
          have hrest : rest V a b = insert v (rest V (v + 1) (v + 1)) := by
            ext u
            rw [Finset.mem_insert]
            constructor
            · intro hu
              have hvu := hleast u hu
              by_cases huv : u = v
              · exact Or.inl huv
              · refine Or.inr (mem_rest.2 ?_)
                rcases mem_rest.1 hu with ⟨-, hu⟩ | ⟨-, hu⟩
                · exact Or.inl ⟨by omega, hu⟩
                · exact Or.inr ⟨by omega, hu⟩
            · rintro (rfl | hu)
              · exact hmem
              · refine mem_rest.2 ?_
                rcases mem_rest.1 hu with ⟨hlt, hu⟩ | ⟨hlt, hu⟩
                · exact Or.inl ⟨by omega, hu⟩
                · exact Or.inr ⟨by omega, hu⟩
          have hnew : v ∉ rest V (v + 1) (v + 1) := fun hv => by
            rcases mem_rest.1 hv with ⟨hlt, -⟩ | ⟨hlt, -⟩ <;> omega
          rw [hrest, Finset.card_insert_of_notMem hnew] at hn
          obtain ⟨hsorted, htail⟩ := ih (le_refl _) (by omega) hfirst hlast (by omega) htail
          refine ⟨List.pairwise_cons.2 ⟨fun u hu => ?_, hsorted⟩, fun u => ?_⟩
          · rcases mem_rest.1 ((htail u).1 hu) with ⟨hlt, -⟩ | ⟨hlt, -⟩ <;> omega
          · rw [List.mem_cons, htail, hrest, Finset.mem_insert]

theorem ascending_eq {limit : Nat} {l : List Int} (hlimit : (image V).card ≤ limit)
    (hl : ascending ask limit = .ok l) : l.Pairwise (· < ·) ∧ ∀ v, v ∈ l ↔ v ∈ image V := by
  obtain ⟨zero, hzero, hl⟩ := Checked.bind_eq_ok hl
  have hz := h.contains hzero
  have hstart : ∃ p q, FirstFrom V 0 p ∧ LastUpTo V (-1) q ∧ climb ask limit p q = .ok l := by
    cases zero with
    | true =>
        obtain ⟨p, hp, hl⟩ := Checked.bind_eq_ok hl
        obtain rfl := Except.ok.inj hp
        obtain ⟨q, hq, hl⟩ := Checked.bind_eq_ok hl
        exact ⟨some 0, q, firstFrom_self (hz.1 rfl), h.previous hq, hl⟩
    | false =>
        obtain ⟨p, hp, hl⟩ := Checked.bind_eq_ok hl
        obtain ⟨q, hq, hl⟩ := Checked.bind_eq_ok hl
        refine ⟨p, q, (h.next hp).of_le (by omega) fun u hu hlt => ?_, h.previous hq, hl⟩
        have hne : u ≠ 0 := by
          rintro rfl
          exact absurd (hz.2 hu) (by decide)
        omega
  obtain ⟨p, q, hp, hq, hl⟩ := hstart
  rw [image_eq_rest] at hlimit ⊢
  exact climb_eq h (by omega) (by omega) hp hq hlimit hl

theorem lower_eq {m : Int} (hm : lower ask = .ok m) : m ∈ image V ∧ ∀ u ∈ image V, m ≤ u := by
  obtain ⟨zero, hzero, hm⟩ := Checked.bind_eq_ok hm
  have hz := h.contains hzero
  cases zero with
  | true =>
      obtain rfl := Except.ok.inj hm
      exact ⟨mem_image.2 ⟨le_refl 0, Or.inl (hz.1 rfl)⟩, fun u hu => (mem_image.1 hu).1⟩
  | false =>
      have hz : (0 : Int) ∉ V := fun h0 => absurd (hz.2 h0) (by decide)
      obtain ⟨lo, hlo, hm⟩ := Checked.bind_eq_ok hm
      obtain ⟨hi, hhi, hm⟩ := Checked.bind_eq_ok hm
      obtain ⟨hloV, hlo⟩ := h.lower hlo
      obtain ⟨hhiV, hhi⟩ := h.upper hhi
      split at hm
      · next hpos =>
        obtain rfl := Except.ok.inj hm
        refine ⟨mem_image.2 ⟨by omega, Or.inl hloV⟩, fun u hu => ?_⟩
        obtain ⟨hu0, hu | hu⟩ := mem_image.1 hu
        · exact hlo u hu
        · have := hlo (-u) hu
          omega
      · next hpos =>
        split at hm
        · next hneg =>
          obtain rfl := negate_eq_ok hm
          refine ⟨mem_image.2 ⟨by omega, Or.inr (by rwa [neg_neg])⟩, fun u hu => ?_⟩
          obtain ⟨hu0, hu | hu⟩ := mem_image.1 hu
          · have := hhi u hu
            omega
          · have := hhi (-u) hu
            omega
        · next hneg =>
          obtain ⟨p, hp, hm⟩ := Checked.bind_eq_ok hm
          obtain ⟨q, hq, hm⟩ := Checked.bind_eq_ok hm
          obtain ⟨z, hz', hm⟩ := Checked.bind_eq_ok hm
          obtain rfl := Except.ok.inj hm
          obtain rfl := negate_eq_ok hz'
          have hp := h.next hp
          have hq := h.previous hq
          cases p with
          | none =>
              have := hp hi hhiV
              exact absurd hhiV (by rw [show hi = 0 by omega]; exact hz)
          | some w =>
              cases q with
              | none =>
                  have := hq lo hloV
                  exact absurd hloV (by rw [show lo = 0 by omega]; exact hz)
              | some z =>
                  obtain ⟨hw, hw0, hfirst⟩ := hp
                  obtain ⟨hz', hz0, hlast⟩ := hq
                  change min w (-z) ∈ image V ∧ ∀ u ∈ image V, min w (-z) ≤ u
                  constructor
                  · rcases min_choice w (-z) with hc | hc
                    · rw [hc]
                      exact mem_image.2 ⟨by omega, Or.inl hw⟩
                    · rw [hc]
                      exact mem_image.2 ⟨by omega, Or.inr (by rwa [neg_neg])⟩
                  · intro u hu
                    obtain ⟨hu0, hu⟩ := mem_image.1 hu
                    have hne : u ≠ 0 := by
                      rintro rfl
                      exact hz (by simpa using hu)
                    rcases hu with hu | hu
                    · exact (min_le_left _ _).trans (hfirst u hu (by omega))
                    · have := hlast (-u) hu (by omega)
                      exact (min_le_right _ _).trans (by omega)

theorem upper_eq {m : Int} (hm : upper ask = .ok m) : m ∈ image V ∧ ∀ u ∈ image V, u ≤ m := by
  obtain ⟨lo, hlo, hm⟩ := Checked.bind_eq_ok hm
  obtain ⟨hi, hhi, hm⟩ := Checked.bind_eq_ok hm
  obtain ⟨z, hz, hm⟩ := Checked.bind_eq_ok hm
  obtain rfl := Except.ok.inj hm
  obtain rfl := negate_eq_ok hz
  obtain ⟨hloV, hlo⟩ := h.lower hlo
  obtain ⟨hhiV, hhi⟩ := h.upper hhi
  have hle := hlo hi hhiV
  constructor
  · rcases max_choice (-lo) hi with hc | hc
    · rw [hc]
      exact mem_image.2 ⟨by omega, Or.inr (by rwa [neg_neg])⟩
    · rw [hc]
      exact mem_image.2 ⟨by omega, Or.inl hhiV⟩
  · intro u hu
    obtain ⟨-, hu | hu⟩ := mem_image.1 hu
    · exact le_max_of_le_right (hhi u hu)
    · have := hlo (-u) hu
      exact le_max_of_le_left (by omega)

theorem contains_eq {v : Int} {r : Bool} (hr : contains ask v = .ok r) :
    r = true ↔ v ∈ image V := by
  unfold contains at hr
  split at hr
  · next hv =>
    obtain rfl := Except.ok.inj hr
    exact ⟨fun hf => absurd hf (by decide), fun hm => absurd (mem_image.1 hm).1 (not_le.2 hv)⟩
  · next hv =>
    obtain ⟨here, hhere, hr⟩ := Checked.bind_eq_ok hr
    have hhere := h.contains hhere
    cases here with
    | true =>
        obtain rfl := Except.ok.inj hr
        exact ⟨fun _ => mem_image.2 ⟨not_lt.1 hv, Or.inl (hhere.1 rfl)⟩, fun _ => rfl⟩
    | false =>
        have hnot : v ∉ V := fun hm => absurd (hhere.2 hm) (by decide)
        obtain ⟨z, hz, hr⟩ := Checked.bind_eq_ok hr
        rw [negate_eq_ok hz] at hr
        rw [h.contains hr, mem_image]
        exact ⟨fun hm => ⟨not_lt.1 hv, Or.inr hm⟩, fun hm => hm.2.resolve_left hnot⟩

theorem next_eq {v : Int} {o : Option Int} (ho : next ask v = .ok o) :
    FirstFrom (image V) (v + 1) o := by
  unfold next at ho
  split at ho
  · next hv =>
    obtain ⟨m, hm, ho⟩ := Checked.bind_eq_ok ho
    obtain rfl := Except.ok.inj ho
    obtain ⟨hmem, hleast⟩ := lower_eq h hm
    have := (mem_image.1 hmem).1
    exact ⟨hmem, by omega, fun u hu _ => hleast u hu⟩
  · next hv =>
    obtain ⟨p, hp, ho⟩ := Checked.bind_eq_ok ho
    obtain ⟨z, hz, ho⟩ := Checked.bind_eq_ok ho
    obtain ⟨q, hq, ho⟩ := Checked.bind_eq_ok ho
    obtain ⟨q', hq', ho⟩ := Checked.bind_eq_ok ho
    obtain rfl := negate_eq_ok hz
    obtain rfl := negate?_eq_ok hq'
    obtain rfl := Except.ok.inj ho
    have hq := h.previous hq
    rw [← neg_add'] at hq
    have hpick := pick_min (h.next hp) hq
    have hmem : ∀ u, u ∈ rest V (v + 1) (v + 1) ↔ u ∈ image V ∧ v + 1 ≤ u := by
      intro u
      rw [mem_rest, mem_image]
      constructor
      · rintro (⟨hle, hu⟩ | ⟨hle, hu⟩)
        · exact ⟨⟨by omega, Or.inl hu⟩, hle⟩
        · exact ⟨⟨by omega, Or.inr hu⟩, hle⟩
      · rintro ⟨⟨-, hu | hu⟩, hle⟩
        · exact Or.inl ⟨hle, hu⟩
        · exact Or.inr ⟨hle, hu⟩
    split at hpick
    · next hnone =>
      rw [hnone]
      intro u hu
      by_contra hlt
      have := (hmem u).2 ⟨hu, not_lt.1 hlt⟩
      rw [hpick] at this
      exact absurd this (Finset.notMem_empty u)
    · next w hw =>
      rw [hw]
      obtain ⟨hwm, hleast⟩ := hpick
      obtain ⟨hwi, hle⟩ := (hmem w).1 hwm
      exact ⟨hwi, hle, fun u hu hvu => hleast u ((hmem u).2 ⟨hu, hvu⟩)⟩

theorem previous_eq {v : Int} {o : Option Int} (ho : previous ask v = .ok o) :
    LastUpTo (image V) (v - 1) o := by
  unfold previous at ho
  split at ho
  · next hv =>
    obtain rfl := Except.ok.inj ho
    intro u hu
    have := (mem_image.1 hu).1
    omega
  · next hv =>
    obtain ⟨p, hp, ho⟩ := Checked.bind_eq_ok ho
    obtain ⟨z, hz, ho⟩ := Checked.bind_eq_ok ho
    obtain ⟨q, hq, ho⟩ := Checked.bind_eq_ok ho
    obtain ⟨q', hq', ho⟩ := Checked.bind_eq_ok ho
    obtain rfl := negate_eq_ok hz
    obtain rfl := negate?_eq_ok hq'
    obtain rfl := Except.ok.inj ho
    exact pick_max (h.previous hp) (h.next hq)

/-- The answers of an absolute view are about the absolute values. -/
theorem describes_answer : Describes (answer ask) (image V) where
  few := Finset.card_image_le.trans h.few
  lower := lower_eq h
  upper := upper_eq h
  size := by
    intro n hn
    obtain ⟨l, hl, hn⟩ := Checked.bind_eq_ok hn
    obtain rfl := Except.ok.inj hn
    obtain ⟨hsorted, hmem⟩ := ascending_eq h (Finset.card_image_le.trans h.few) hl
    have hset : l.toFinset = image V := by
      ext v
      rw [List.mem_toFinset, hmem]
    rw [← hset, List.toFinset_card_of_nodup (hsorted.imp fun hlt => ne_of_lt hlt)]
  contains := contains_eq h
  next := next_eq h
  previous := previous_eq h
  ascending := ascending_eq h

end Answers

end Absolute

/-! ### Variables -/

namespace Variable

/-- The value of a variable when its domain has the value `u`. -/
def image : Variable → Int → Int
  | .domain _, u => u
  | .abs x, u => ((x.image u).natAbs : Int)

/-- The values a variable may take. -/
def current (x : Variable) (t : Table DomainId Domain) : Finset Int :=
  (t.members x.base).image x.image

theorem mem_current {x : Variable} {t : Table DomainId Domain} {w : Int} :
    w ∈ x.current t ↔ ∃ u ∈ t.members x.base, x.image u = w :=
  Finset.mem_image

theorem image_mem_current {x : Variable} {t : Table DomainId Domain} {u : Int}
    (hu : u ∈ t.members x.base) : x.image u ∈ x.current t :=
  Finset.mem_image_of_mem _ hu

theorem current_of_get? {x : Variable} {t t' : Table DomainId Domain}
    (hsame : t'.get? x.base = t.get? x.base) : x.current t' = x.current t := by
  rw [current, current, Table.members, Table.members, hsame]

theorem eval_eq_image (σ : DomainId → Int) (x : Variable) : x.eval σ = x.image (σ x.base) := by
  induction x with
  | domain id => rfl
  | abs x ih =>
      rw [eval, ih]
      rfl

theorem current_abs (x : Variable) (t : Table DomainId Domain) :
    (abs x).current t = Absolute.image (x.current t) := by
  unfold current Absolute.image
  rw [Finset.image_image]
  rfl

/-- The answers about a variable describe the values it may take. -/
theorem describes_answer {s : Domains} (hwf : s.table.WellFormed) (x : Variable) :
    Describes (x.answer s) (x.current s.table) := by
  induction x with
  | domain id =>
      have hsame : (domain id).current s.table = s.table.members id := Finset.image_id
      rw [hsame]
      exact Domains.describes_answer hwf id
  | abs x ih =>
      rw [current_abs]
      exact Absolute.describes_answer ih

end Variable

end Narrowing
