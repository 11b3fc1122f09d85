import Narrowing.Proofs.Domain.Listings
import Narrowing.Proofs.Variable.Answers
import Narrowing.Proofs.Variable.Edits
import Narrowing.Proofs.Variable.Interval
import Mathlib.Data.Int.ConditionallyCompleteOrder
import Mathlib.Order.ConditionallyCompleteLattice.Basic

/-!
Every question about a variable is answered, and all answers portray one set of values that is not
empty: for a domain its members, for a view of any nesting their absolute values. The least machine
value has no absolute value, so domains that are looked at through views must not have it; no other
value, and no machine value asked about, makes a negation leave its width.
-/

namespace Narrowing

/-- Every question about machine values gets an answer; listings downwards are left aside. -/
structure Responds (ask : Oracle) : Prop where
  lower : ∃ a, ask _ .lower = .ok a
  upper : ∃ a, ask _ .upper = .ok a
  size : ∃ n, ask _ .size = .ok n
  contains : ∀ {v}, Value.InRange v → ∃ b, ask _ (.contains v) = .ok b
  next : ∀ {v}, Value.InRange v → ∃ o, ask _ (.next v) = .ok o
  previous : ∀ {v}, Value.InRange v → ∃ o, ask _ (.previous v) = .ok o
  ascending : ∀ limit, ∃ l, ask _ (.ascending limit) = .ok l

/-- Listings downwards are answered, and they have the values `V`. -/
def ListsDown (ask : Oracle) (V : Finset Int) : Prop :=
  ∀ limit, V.card ≤ limit → ∃ l, ask _ (.descending limit) = .ok l ∧ l.Pairwise (· > ·) ∧
    ∀ v, v ∈ l ↔ v ∈ V

/-- Every question about machine values is answered from the values `V`. -/
structure Portrays (ask : Oracle) (V : Finset Int) : Prop where
  lower : ∃ a, ask _ .lower = .ok a ∧ IsLeast (V : Set Int) a
  upper : ∃ a, ask _ .upper = .ok a ∧ IsGreatest (V : Set Int) a
  size : ask _ .size = .ok V.card
  contains : ∀ v, Value.InRange v → ask _ (.contains v) = .ok (decide (v ∈ V))
  next : ∀ v, Value.InRange v → ∃ o, ask _ (.next v) = .ok o ∧ FirstFrom V (v + 1) o
  previous : ∀ v, Value.InRange v → ∃ o, ask _ (.previous v) = .ok o ∧ LastUpTo V (v - 1) o
  ascending : ∀ limit, V.card ≤ limit → ∃ l, ask _ (.ascending limit) = .ok l ∧
    l.Pairwise (· < ·) ∧ ∀ v, v ∈ l ↔ v ∈ V
  descending : ListsDown ask V

/-- Right answers to all questions portray the values. -/
theorem Describes.portrays {ask : Oracle} {V : Finset Int} (h : Describes ask V)
    (hr : Responds ask) (hdown : ListsDown ask V) : Portrays ask V where
  lower := by
    obtain ⟨a, ha⟩ := hr.lower
    exact ⟨a, ha, (h.lower ha).1, fun u hu => (h.lower ha).2 u hu⟩
  upper := by
    obtain ⟨a, ha⟩ := hr.upper
    exact ⟨a, ha, (h.upper ha).1, fun u hu => (h.upper ha).2 u hu⟩
  size := by
    obtain ⟨n, hn⟩ := hr.size
    rw [hn, h.size hn]
  contains v hv := by
    obtain ⟨b, hb⟩ := hr.contains hv
    rw [hb, ← Bool.decide_coe b, decide_eq_decide.2 (h.contains hb)]
  next v hv := (hr.next hv).imp fun _ ho => ⟨ho, h.next ho⟩
  previous v hv := (hr.previous hv).imp fun _ ho => ⟨ho, h.previous ho⟩
  ascending limit hlimit := (hr.ascending limit).imp fun _ hl => ⟨hl, h.ascending hlimit hl⟩
  descending := hdown

/-! ### Domains -/

namespace Domains

variable {s : Domains} {id : DomainId} {d : Domain} (hd : s.table.get? id = some d)
  (h : d.WellFormed)
include hd

theorem domain_eq : s.domain id = .ok d := (s.table.fetch_eq_ok_iff).2 hd

include h

theorem responds_answer : Responds (s.answer id) := by
  have hok := domain_eq hd
  constructor
  all_goals simp only [Domains.answer, hok, bind, Except.bind, pure, Except.pure]
  · exact ⟨_, rfl⟩
  · exact ⟨_, rfl⟩
  · exact ⟨_, rfl⟩
  · exact fun _ => ⟨_, Domain.contains_eq h _⟩
  · exact fun _ => (Domain.next_eq h _).imp fun _ ho => ho.1
  · exact fun _ => (Domain.previous_eq h _).imp fun _ ho => ho.1
  · intro limit
    exact ⟨_, Domain.listUp_eq h d.width limit d.lower (le_refl _) (by
      have := h.lower_le_upper
      unfold Domain.width
      omega)⟩

theorem listsDown_answer : ListsDown (s.answer id) d.members := by
  intro limit hlimit
  simp only [Domains.answer, domain_eq hd, bind, Except.bind]
  exact Domain.descending_eq h hlimit

end Domains

/-! ### Absolute views -/

/-- Nothing is left out by the greatest value of both sides. -/
theorem LastUpTo.union {A B : Finset Int} {a : Int} {p q : Option Int} (hp : LastUpTo A a p)
    (hq : LastUpTo B a q) : LastUpTo (A ∪ B) a (Absolute.pick max p q) := by
  cases p with
  | none =>
      cases q with
      | none => exact fun u hu => (Finset.mem_union.1 hu).elim (hp u) (hq u)
      | some z =>
          refine ⟨Finset.mem_union_right _ hq.1, hq.2.1, fun u hu hua => ?_⟩
          rcases Finset.mem_union.1 hu with hu | hu
          · exact absurd (hp u hu) (not_lt.2 hua)
          · exact hq.2.2 u hu hua
  | some w =>
      cases q with
      | none =>
          refine ⟨Finset.mem_union_left _ hp.1, hp.2.1, fun u hu hua => ?_⟩
          rcases Finset.mem_union.1 hu with hu | hu
          · exact hp.2.2 u hu hua
          · exact absurd (hq u hu) (not_lt.2 hua)
      | some z =>
          refine ⟨?_, max_le hp.2.1 hq.2.1, fun u hu hua => ?_⟩
          · rcases max_choice w z with hc | hc
            · rw [hc]
              exact Finset.mem_union_left _ hp.1
            · rw [hc]
              exact Finset.mem_union_right _ hq.1
          · rcases Finset.mem_union.1 hu with hu | hu
            · exact le_max_of_le_left (hp.2.2 u hu hua)
            · exact le_max_of_le_right (hq.2.2 u hu hua)

theorem FirstFrom.mem {V : Finset Int} {a : Int} {o : Option Int} (h : FirstFrom V a o) :
    ∀ w, o = some w → w ∈ V := by
  rintro w rfl
  exact h.1

theorem LastUpTo.mem {V : Finset Int} {a : Int} {o : Option Int} (h : LastUpTo V a o) :
    ∀ w, o = some w → w ∈ V := by
  rintro w rfl
  exact h.1

namespace Absolute

/-- All values have an absolute value, since the least machine value is not among them. -/
def Invertible (V : Finset Int) : Prop := ∀ v ∈ V, Value.InRange v ∧ Value.InRange (-v)

variable {ask : Oracle} {V : Finset Int} {p q : Option Int} {a v : Int}

theorem inRange_neg (h0 : 0 ≤ v) (hv : Value.InRange v) : Value.InRange (-v) := by
  unfold Value.InRange Value.least Value.greatest at *
  omega

theorem Invertible.image (h : Invertible V) : Invertible (image V) := by
  intro w hw
  obtain ⟨-, hw | hw⟩ := mem_image.1 hw
  · exact h w hw
  · obtain ⟨h1, h2⟩ := h (-w) hw
    rw [neg_neg] at h2
    exact ⟨h2, h1⟩

theorem negate_of_inRange (h : Value.InRange (-v)) : negate v = .ok (-v) := Value.check_eq_ok h

theorem negate?_of_mem (hV : Invertible V) (hq : ∀ w, q = some w → w ∈ V) :
    negate? q = .ok (q.map fun v => -v) := by
  cases q with
  | none => rfl
  | some w =>
      rw [negate?, negate_of_inRange (hV w (hq w rfl)).2]
      rfl

theorem of_pick_eq_some {better : Int → Int → Int} (hbetter : ∀ a b, better a b = a ∨ better a b = b)
    (hv : pick better p q = some v) : p = some v ∨ q = some v := by
  cases p with
  | none => exact Or.inr hv
  | some w =>
      cases q with
      | none => exact Or.inl hv
      | some z =>
          obtain rfl := Option.some.inj hv
          rcases hbetter w z with h | h
          · exact Or.inl (congrArg some h.symm)
          · exact Or.inr (congrArg some h.symm)

section Total

variable (h : Describes ask V) (hr : Responds ask) (hV : Invertible V)
include h hr hV

theorem exists_lower : ∃ m, lower ask = .ok m := by
  obtain ⟨zero, hzero⟩ := hr.contains (v := 0) (by decide)
  obtain ⟨lo, hlo⟩ := hr.lower
  obtain ⟨hi, hhi⟩ := hr.upper
  obtain ⟨above, habove⟩ := hr.next (v := 0) (by decide)
  obtain ⟨below, hbelow⟩ := hr.previous (v := 0) (by decide)
  have hnegate : ∀ w ∈ V, negate w = .ok (-w) := fun w hw => negate_of_inRange (hV w hw).2
  have hbelow' : below.getD lo ∈ V := by
    cases below with
    | none => exact (h.lower hlo).1
    | some w => exact (h.previous hbelow).1
  unfold lower
  simp only [hzero, hlo, hhi, habove, hbelow, bind, Except.bind, hnegate _ hbelow']
  cases zero with
  | true => exact ⟨0, rfl⟩
  | false =>
      rw [if_neg (by decide)]
      split
      · exact ⟨lo, rfl⟩
      · split
        · exact ⟨-hi, hnegate hi (h.upper hhi).1⟩
        · exact ⟨_, rfl⟩

theorem exists_upper : ∃ m, upper ask = .ok m := by
  obtain ⟨lo, hlo⟩ := hr.lower
  obtain ⟨hi, hhi⟩ := hr.upper
  unfold upper
  simp only [hlo, hhi, bind, Except.bind, negate_of_inRange (hV lo (h.lower hlo).1).2]
  exact ⟨_, rfl⟩

omit h hV in
theorem exists_contains (hv : Value.InRange v) : ∃ b, contains ask v = .ok b := by
  unfold contains
  split
  · exact ⟨false, rfl⟩
  · next h0 =>
    have hneg := inRange_neg (not_lt.1 h0) hv
    obtain ⟨here, hhere⟩ := hr.contains hv
    obtain ⟨there, hthere⟩ := hr.contains hneg
    simp only [hhere, bind, Except.bind, negate_of_inRange hneg]
    cases here with
    | true => exact ⟨true, rfl⟩
    | false => exact ⟨there, hthere⟩

theorem exists_next (hv : Value.InRange v) : ∃ o, next ask v = .ok o := by
  unfold next
  split
  · obtain ⟨m, hm⟩ := exists_lower h hr hV
    exact ⟨some m, by rw [hm]; rfl⟩
  · next h0 =>
    have hneg := inRange_neg (not_lt.1 h0) hv
    obtain ⟨above, habove⟩ := hr.next hv
    obtain ⟨below, hbelow⟩ := hr.previous hneg
    have hopposite := negate?_of_mem hV (h.previous hbelow).mem
    simp only [habove, hbelow, bind, Except.bind, negate_of_inRange hneg, hopposite]
    exact ⟨_, rfl⟩

theorem exists_previous (hv : Value.InRange v) : ∃ o, previous ask v = .ok o := by
  unfold previous
  split
  · exact ⟨none, rfl⟩
  · next h0 =>
    have hneg := inRange_neg (le_of_lt (not_le.1 h0)) hv
    obtain ⟨above, habove⟩ := hr.previous hv
    obtain ⟨below, hbelow⟩ := hr.next hneg
    have hopposite := negate?_of_mem (q := below.filter (· ≤ 0)) hV fun w hw =>
      (h.next hbelow).mem w (Option.filter_eq_some_iff.1 hw).1
    simp only [habove, hbelow, bind, Except.bind, negate_of_inRange hneg, hopposite]
    exact ⟨_, rfl⟩

/-- A walk away from zero never gets stuck. -/
theorem exists_climb (n : Nat) (hp : ∀ w, p = some w → w ∈ V) (hq : ∀ w, q = some w → w ∈ V) :
    ∃ l, climb ask n p q = .ok l := by
  induction n generalizing p q with
  | zero => exact ⟨[], rfl⟩
  | succ n ih =>
      rw [climb_succ, negate?_of_mem hV hq]
      dsimp only [bind, Except.bind]
      cases hv : pick min p (q.map fun v => -v) with
      | none => exact ⟨[], rfl⟩
      | some v =>
          have hp₁ : ∃ p₁, (if p = some v then ask _ (.next v) else pure p) = .ok p₁ ∧
              ∀ w, p₁ = some w → w ∈ V := by
            split
            · next hpv =>
              obtain ⟨o, ho⟩ := hr.next (hV v (hp v hpv)).1
              exact ⟨o, ho, (h.next ho).mem⟩
            · exact ⟨p, rfl, hp⟩
          have hq₁ : ∃ q₁, (if (q.map fun v => -v) = some v then ask _ (.previous (-v)) else pure q)
              = .ok q₁ ∧ ∀ w, q₁ = some w → w ∈ V := by
            split
            · next hqv =>
              obtain ⟨w, hqw, rfl⟩ := Option.map_eq_some_iff.1 hqv
              obtain ⟨o, ho⟩ := hr.previous (v := - -w) (by
                rw [neg_neg]
                exact (hV w (hq w hqw)).1)
              exact ⟨o, ho, (h.previous ho).mem⟩
            · exact ⟨q, rfl, hq⟩
          obtain ⟨p₁, hp₁, hp₁'⟩ := hp₁
          obtain ⟨q₁, hq₁, hq₁'⟩ := hq₁
          obtain ⟨l, hl⟩ := ih hp₁' hq₁'
          refine ⟨v :: l, ?_⟩
          simp only [hp₁, hq₁, hl]
          rfl

theorem exists_ascending (limit : Nat) : ∃ l, ascending ask limit = .ok l := by
  obtain ⟨zero, hzero⟩ := hr.contains (v := 0) (by decide)
  obtain ⟨above, habove⟩ := hr.next (v := 0) (by decide)
  obtain ⟨below, hbelow⟩ := hr.previous (v := 0) (by decide)
  unfold ascending
  cases zero with
  | true =>
      have hmem : ∀ w, some (0 : Int) = some w → w ∈ V := by
        rintro w ⟨⟩
        exact (h.contains hzero).1 rfl
      simp only [hzero, hbelow, bind, Except.bind]
      exact exists_climb h hr hV limit hmem (h.previous hbelow).mem
  | false =>
      simp only [hzero, habove, hbelow, bind, Except.bind]
      exact exists_climb h hr hV limit (h.next habove).mem (h.previous hbelow).mem

/-- Views of what responds respond. -/
theorem responds_answer : Responds (answer ask) where
  lower := exists_lower h hr hV
  upper := exists_upper h hr hV
  size := by
    obtain ⟨l, hl⟩ := exists_ascending h hr hV Value.count
    exact ⟨l.length, by simp only [answer, hl]; rfl⟩
  contains := exists_contains hr
  next := exists_next h hr hV
  previous := exists_previous h hr hV
  ascending := exists_ascending h hr hV

end Total

/-! ### Listings downwards -/

theorem lastUpTo_nonnegative {o : Option Int} (h : LastUpTo V a o) :
    LastUpTo (V.filter (0 ≤ ·)) a (o.filter (0 ≤ ·)) := by
  cases o with
  | none => exact fun u hu => h u (Finset.mem_filter.1 hu).1
  | some w =>
      by_cases hw : 0 ≤ w
      · rw [Option.filter_some_pos (by simpa using hw)]
        exact ⟨Finset.mem_filter.2 ⟨h.1, hw⟩, h.2.1, fun u hu => h.2.2 u (Finset.mem_filter.1 hu).1⟩
      · rw [Option.filter_some_neg (by simpa using hw)]
        intro u hu
        obtain ⟨hu, hu0⟩ := Finset.mem_filter.1 hu
        by_contra hua
        have := h.2.2 u hu (not_lt.1 hua)
        omega

theorem firstFrom_negative {o : Option Int} (h : FirstFrom V a o) :
    FirstFrom (V.filter (· < 0)) a (o.filter (· < 0)) := by
  cases o with
  | none => exact fun u hu => h u (Finset.mem_filter.1 hu).1
  | some w =>
      by_cases hw : w < 0
      · rw [Option.filter_some_pos (by simpa using hw)]
        exact ⟨Finset.mem_filter.2 ⟨h.1, hw⟩, h.2.1, fun u hu => h.2.2 u (Finset.mem_filter.1 hu).1⟩
      · rw [Option.filter_some_neg (by simpa using hw)]
        intro u hu
        obtain ⟨hu, hu0⟩ := Finset.mem_filter.1 hu
        by_contra hua
        have := h.2.2 u hu (not_lt.1 hua)
        omega

/-- The absolute values are the values of one sign and the negations of the others. -/
theorem image_eq_union :
    image V = V.filter (0 ≤ ·) ∪ (V.filter (· < 0)).image fun v => -v := by
  ext w
  rw [mem_image, Finset.mem_union, Finset.mem_filter, Finset.mem_image]
  constructor
  · rintro ⟨h0, hw | hw⟩
    · exact Or.inl ⟨hw, h0⟩
    · rcases Int.lt_or_eq_of_le h0 with hlt | rfl
      · exact Or.inr ⟨-w, Finset.mem_filter.2 ⟨hw, by omega⟩, neg_neg w⟩
      · exact Or.inl ⟨by simpa using hw, h0⟩
  · rintro (⟨hw, h0⟩ | ⟨v, hv, rfl⟩)
    · exact ⟨h0, Or.inl hw⟩
    · obtain ⟨hv, hv0⟩ := Finset.mem_filter.1 hv
      exact ⟨by omega, Or.inr (by rwa [neg_neg])⟩

theorem lastUpTo_neg {B : Finset Int} (h : FirstFrom B (-a) q) :
    LastUpTo (B.image fun v => -v) a (q.map fun v => -v) := by
  cases q with
  | none =>
      intro u hu
      obtain ⟨v, hv, rfl⟩ := Finset.mem_image.1 hu
      have := h v hv
      omega
  | some w =>
      obtain ⟨hw, hwa, hleast⟩ := h
      refine ⟨Finset.mem_image_of_mem _ hw, by show -w ≤ a; omega, fun u hu hua => ?_⟩
      obtain ⟨v, hv, rfl⟩ := Finset.mem_image.1 hu
      have := hleast v hv (by omega)
      show -v ≤ -w
      omega

theorem descend_succ (n : Nat) :
    descend ask (n + 1) p q = (negate? q >>= fun q' =>
      match pick max p q' with
      | none => pure []
      | some v => do
        let p₁ ← (if p = some v then (·.filter (0 ≤ ·)) <$> ask _ (.previous v) else pure p :
          Checked (Option Int))
        let q₁ ← (if q' = some v then (·.filter (· < 0)) <$> ask _ (.next (-v)) else pure q :
          Checked (Option Int))
        let tail ← descend ask n p₁ q₁
        pure (v :: tail)) := by
  rw [descend]
  congr 1
  funext q'
  cases pick max p q' with
  | none => rfl
  | some v =>
      by_cases hp : p = some v <;> by_cases hq : q' = some v <;> simp [hp, hq]

section Descend

variable (h : Describes ask V) (hr : Responds ask) (hV : Invertible V)
include h hr hV

/-- The side of the values that are not negative, after `v` is listed. -/
theorem descend_positive (hp : LastUpTo (V.filter (0 ≤ ·)) a p) (hva : v ≤ a)
    (hle : ∀ w, p = some w → w ≤ v) :
    ∃ p₁, (if p = some v then (·.filter (0 ≤ ·)) <$> ask _ (.previous v) else pure p) = .ok p₁ ∧
      LastUpTo (V.filter (0 ≤ ·)) (v - 1) p₁ := by
  split
  · next hpv =>
    have hv := (Finset.mem_filter.1 (hp.mem v hpv)).1
    obtain ⟨o, ho⟩ := hr.previous (hV v hv).1
    exact ⟨o.filter (0 ≤ ·), by rw [ho]; rfl, lastUpTo_nonnegative (h.previous ho)⟩
  · next hpv =>
    refine ⟨p, rfl, ?_⟩
    cases p with
    | none => exact fun u hu => by have := hp u hu; omega
    | some w =>
        have hwv := hle w rfl
        have hne : w ≠ v := fun he => hpv (congrArg some he)
        exact ⟨hp.1, by omega, fun u hu huv => hp.2.2 u hu (by omega)⟩

/-- The side of the negative values, after `v` is listed. -/
theorem descend_negative (hq : FirstFrom (V.filter (· < 0)) (-a) q) (hva : v ≤ a)
    (hle : ∀ w, q = some w → -w ≤ v) :
    ∃ q₁, (if (q.map fun v => -v) = some v then (·.filter (· < 0)) <$> ask _ (.next (-v)) else pure q)
      = .ok q₁ ∧ FirstFrom (V.filter (· < 0)) (-(v - 1)) q₁ := by
  split
  · next hqv =>
    obtain ⟨w, hqw, rfl⟩ := Option.map_eq_some_iff.1 hqv
    have hw := (Finset.mem_filter.1 (hq.mem w hqw)).1
    obtain ⟨o, ho⟩ := hr.next (v := - -w) (by rw [neg_neg]; exact (hV w hw).1)
    refine ⟨o.filter (· < 0), by rw [ho]; rfl, ?_⟩
    rw [show -(-w - 1) = - -w + 1 by omega]
    exact firstFrom_negative (h.next ho)
  · next hqv =>
    refine ⟨q, rfl, ?_⟩
    cases q with
    | none => exact fun u hu => by have := hq u hu; omega
    | some w =>
        have hwv := hle w rfl
        have hne : -w ≠ v := fun he => hqv (congrArg some he)
        exact ⟨hq.1, by omega, fun u hu huv => hq.2.2 u hu (by omega)⟩

/-- Walking towards zero on both sides lists the values that are not above `a`. -/
theorem descend_eq {n : Nat} (hp : LastUpTo (V.filter (0 ≤ ·)) a p)
    (hq : FirstFrom (V.filter (· < 0)) (-a) q) (hn : ((image V).filter (· ≤ a)).card ≤ n) :
    ∃ l, descend ask n p q = .ok l ∧ l.Pairwise (· > ·) ∧
      ∀ v, v ∈ l ↔ v ∈ (image V).filter (· ≤ a) := by
  induction n generalizing p q a with
  | zero =>
      rw [Finset.card_eq_zero.1 (Nat.le_zero.1 hn)]
      exact ⟨[], rfl, List.Pairwise.nil, by simp⟩
  | succ n ih =>
      have hqV : ∀ w, q = some w → w ∈ V := fun w hw => (Finset.mem_filter.1 (hq.mem w hw)).1
      have hpick := hp.union (lastUpTo_neg hq)
      rw [← image_eq_union] at hpick
      rw [descend_succ, negate?_of_mem hV hqV]
      show ∃ l, (match pick max p (q.map fun v => -v) with
        | none => pure []
        | some v => _ : Checked (List Int)) = .ok l ∧ _
      cases hv : pick max p (q.map fun v => -v) with
      | none =>
          rw [hv] at hpick
          refine ⟨[], rfl, List.Pairwise.nil, fun v => ?_⟩
          simpa using fun hv => hpick v hv
      | some v =>
          rw [hv] at hpick
          obtain ⟨hvV, hva, hgreatest⟩ := hpick
          obtain ⟨p₁, hp₁, hp₁'⟩ := descend_positive h hr hV hp hva fun w hw => by
            subst hw
            apply hgreatest w _ hp.2.1
            rw [image_eq_union]
            exact Finset.mem_union_left _ hp.1
          obtain ⟨q₁, hq₁, hq₁'⟩ := descend_negative h hr hV hq hva fun w hw => by
            subst hw
            have hwa : -a ≤ w := hq.2.1
            apply hgreatest (-w) _ (by omega)
            rw [image_eq_union]
            exact Finset.mem_union_right _ (Finset.mem_image_of_mem _ hq.1)
          have hsplit : (image V).filter (· ≤ a) = insert v ((image V).filter (· ≤ v - 1)) := by
            ext u
            simp only [Finset.mem_insert, Finset.mem_filter]
            constructor
            · rintro ⟨hu, hua⟩
              have := hgreatest u hu hua
              by_cases huv : u = v
              · exact Or.inl huv
              · exact Or.inr ⟨hu, by omega⟩
            · rintro (rfl | ⟨hu, huv⟩)
              · exact ⟨hvV, hva⟩
              · exact ⟨hu, by omega⟩
          have hnew : v ∉ (image V).filter (· ≤ v - 1) := by simp
          rw [hsplit, Finset.card_insert_of_notMem hnew] at hn
          obtain ⟨l, hl, hsorted, hmem⟩ := ih hp₁' hq₁' (by omega)
          refine ⟨v :: l, ?_, List.pairwise_cons.2 ⟨fun u hu => ?_, hsorted⟩, fun u => ?_⟩
          · simp only [hp₁, hq₁, hl, bind, Except.bind]
            rfl
          · have := (Finset.mem_filter.1 ((hmem u).1 hu)).2
            omega
          · rw [List.mem_cons, hmem, hsplit, Finset.mem_insert]

theorem listsDown_answer : ListsDown (answer ask) (image V) := by
  intro limit hlimit
  obtain ⟨lo, hlo⟩ := hr.lower
  obtain ⟨hi, hhi⟩ := hr.upper
  obtain ⟨hloV, hlo'⟩ := h.lower hlo
  obtain ⟨hhiV, hhi'⟩ := h.upper hhi
  have hp : LastUpTo (V.filter (0 ≤ ·)) (max hi (-lo)) (if 0 ≤ hi then some hi else none) := by
    split
    · next h0 =>
      refine ⟨Finset.mem_filter.2 ⟨hhiV, h0⟩, le_max_left _ _, fun u hu _ => ?_⟩
      exact hhi' u (Finset.mem_filter.1 hu).1
    · next h0 =>
      intro u hu
      obtain ⟨hu, hu0⟩ := Finset.mem_filter.1 hu
      have := hhi' u hu
      omega
  have hq : FirstFrom (V.filter (· < 0)) (-(max hi (-lo))) (if lo < 0 then some lo else none) := by
    split
    · next h0 =>
      refine ⟨Finset.mem_filter.2 ⟨hloV, h0⟩, by omega, fun u hu _ => ?_⟩
      exact hlo' u (Finset.mem_filter.1 hu).1
    · next h0 =>
      intro u hu
      obtain ⟨hu, hu0⟩ := Finset.mem_filter.1 hu
      have := hlo' u hu
      omega
  have hall : (image V).filter (· ≤ max hi (-lo)) = image V := by
    apply Finset.filter_true_of_mem
    intro v hv
    obtain ⟨-, hv | hv⟩ := mem_image.1 hv
    · exact le_max_of_le_left (hhi' v hv)
    · have := hlo' (-v) hv
      omega
  obtain ⟨l, hl, hsorted, hmem⟩ := descend_eq h hr hV (n := limit) hp hq (by rwa [hall])
  rw [hall] at hmem
  refine ⟨l, ?_, hsorted, hmem⟩
  simp only [answer, descending, hlo, hhi, bind, Except.bind]
  exact hl

end Descend

end Absolute

/-! ### Variables -/

namespace Variable

variable {s : Domains} {t : Table DomainId Domain} {d : Domain}

/-- A machine value other than the least has a machine value as its negation. -/
theorem invertible_members (h : d.WellFormed) (hleast : Value.least ∉ d.members) :
    Absolute.Invertible d.members := by
  intro v hv
  have hne : v ≠ Value.least := fun he => hleast (he ▸ hv)
  have := Domain.lower_le hv
  have := Domain.le_upper hv
  have := h.least_le
  have := h.le_greatest
  unfold Value.InRange Value.least Value.greatest at *
  omega

theorem current_domain (id : DomainId) (hd : t.get? id = some d) :
    (domain id).current t = d.members := by
  rw [← Table.members_of_get? hd]
  exact Finset.image_id

theorem invertible_current {x : Variable} (hd : t.get? x.base = some d) (h : d.WellFormed)
    (hleast : Value.least ∉ d.members) : Absolute.Invertible (x.current t) := by
  induction x with
  | domain id =>
      rw [current_domain id hd]
      exact invertible_members h hleast
  | abs x ih =>
      rw [current_abs]
      exact (ih hd).image

/-- Every question about a variable over a domain without the least machine value is answered. -/
theorem responds_answer (hwf : s.table.WellFormed) {x : Variable}
    (hd : s.table.get? x.base = some d) (hleast : Value.least ∉ d.members) :
    Responds (x.answer s) := by
  induction x with
  | domain id => exact Domains.responds_answer hd (hwf id d hd)
  | abs x ih =>
      exact Absolute.responds_answer (describes_answer hwf x) (ih hd)
        (invertible_current hd (hwf _ d hd) hleast)

theorem listsDown_answer (hwf : s.table.WellFormed) {x : Variable}
    (hd : s.table.get? x.base = some d) (hleast : Value.least ∉ d.members) :
    ListsDown (x.answer s) (x.current s.table) := by
  cases x with
  | domain id =>
      rw [current_domain id hd]
      exact Domains.listsDown_answer hd (hwf id d hd)
  | abs x =>
      rw [current_abs]
      exact Absolute.listsDown_answer (describes_answer hwf x) (responds_answer hwf hd hleast)
        (invertible_current hd (hwf _ d hd) hleast)

/-- All answers about a variable over such a domain portray its values. -/
theorem portrays_answer (hwf : s.table.WellFormed) {x : Variable}
    (hd : s.table.get? x.base = some d) (hleast : Value.least ∉ d.members) :
    Portrays (x.answer s) (x.current s.table) :=
  (x.describes_answer hwf).portrays (responds_answer hwf hd hleast)
    (listsDown_answer hwf hd hleast)

theorem answer_enumerated {x : Variable} (hx : x.base.index < s.table.size) :
    x.answer s _ .enumerated = .ok (s.table.enumerated x.base) := by
  induction x with
  | domain id =>
      obtain ⟨d, hd⟩ := s.table.exists_get? hx
      refine (congrArg (· >>= fun d => pure d.enumerated) (Domains.domain_eq hd)).trans ?_
      exact congrArg Except.ok (Table.enumerated_of_get? hd).symm
  | abs y ih => exact ih hx

/-- The values of a view are the absolute values of the members at the bottom. -/
theorem current_abs_eq {y : Variable} (hd : t.get? y.base = some d) :
    (abs y).current t = Absolute.image d.members := by
  unfold current Absolute.image
  rw [show (abs y).base = y.base from rfl, Table.members_of_get? hd]
  refine Finset.image_congr fun u _ => ?_
  rw [image_abs, natAbs_image]

/-- A variable is fixed when its bounds are those of one value. -/
theorem isFixed_of_bounds {x : Variable} {V : Finset Int} {lo hi : Int} (hlo : x.lower s = .ok lo)
    (hhi : x.upper s = .ok hi) (hleast : IsLeast (V : Set Int) lo)
    (hgreatest : IsGreatest (V : Set Int) hi) : x.isFixed s = .ok (decide (V.card = 1)) := by
  have hsame : lo = hi ↔ V.card = 1 := by
    rw [Finset.card_eq_one]
    constructor
    · rintro rfl
      refine ⟨lo, Finset.eq_singleton_iff_unique_mem.2 ⟨hleast.1, fun u hu => ?_⟩⟩
      exact le_antisymm (hgreatest.2 hu) (hleast.2 hu)
    · rintro ⟨v, rfl⟩
      rw [Finset.mem_singleton.1 hleast.1, Finset.mem_singleton.1 hgreatest.1]
  unfold isFixed
  simp only [hlo, hhi, bind, Except.bind, pure, Except.pure, hsame]

/-- A variable whose bounds are answered is fixed when it has one value. -/
theorem isFixed_eq {x : Variable} {V : Finset Int} (h : Portrays (x.answer s) V) :
    x.isFixed s = .ok (decide (V.card = 1)) := by
  obtain ⟨lo, hlo, hleast⟩ := h.lower
  obtain ⟨hi, hhi, hgreatest⟩ := h.upper
  exact isFixed_of_bounds hlo hhi hleast hgreatest

end Variable

/-! ### What a run reaches -/

namespace Domains.Reachable

variable {s : Domains} (hs : s.Reachable)
include hs

/-- All answers about a domain portray one set, which is not empty and of which an interval has no
value left out; and the runs listed upwards and downwards are its maximal runs. -/
theorem portrays_domain {id : DomainId} {d : Domain} (hd : s.table.get? id = some d) :
    ∃ D : Finset Int, D.Nonempty ∧ Portrays (s.answer id) D ∧
      (s.answer id _ .enumerated = .ok false → ∃ lo hi, D = Finset.Icc lo hi) ∧
      ∃ up down l, s.answer id _ .runs = .ok up ∧ s.answer id _ .runsDown = .ok down ∧
        up.toList = .ok l ∧ down.toList = .ok l.reverse ∧
        l.Pairwise (fun a b => a.last < b.first) ∧ ∀ r, r ∈ l ↔ r.IsRun D := by
  have hwf := hs.traced.wellFormed
  have h := hwf id d hd
  have hdescribes := describes_answer hwf id
  rw [Table.members_of_get? hd] at hdescribes
  refine ⟨d.members, ⟨d.lower, h.lower_mem⟩,
    hdescribes.portrays (responds_answer hd h) (listsDown_answer hd h), fun hkind => ?_, ?_⟩
  · simp only [answer, domain_eq hd, bind, Except.bind] at hkind
    refine ⟨d.lower, d.upper, ?_⟩
    ext v
    rw [Domain.mem_members_of_interval (Except.ok.inj hkind), Finset.mem_Icc]
  · obtain ⟨l, hup, hdown, hsorted, hmem⟩ := Domain.runs_eq h
    refine ⟨d.runs, d.runsDown, l, ?_, ?_, hup, hdown, hsorted, hmem⟩
    · simp only [answer, domain_eq hd, bind, Except.bind]
      rfl
    · simp only [answer, domain_eq hd, bind, Except.bind]
      rfl

omit hs in
theorem portrays_domain_scarred :
    scarred.Reachable ∧ ∃ D : Finset Int, D.Nonempty ∧ Portrays (scarred.answer ⟨0⟩) D ∧
      (scarred.answer ⟨0⟩ _ .enumerated = .ok false → ∃ lo hi, D = Finset.Icc lo hi) ∧
      ∃ up down l, scarred.answer ⟨0⟩ _ .runs = .ok up ∧ scarred.answer ⟨0⟩ _ .runsDown = .ok down ∧
        up.toList = .ok l ∧ down.toList = .ok l.reverse ∧
        l.Pairwise (fun a b => a.last < b.first) ∧ ∀ r, r ∈ l ↔ r.IsRun D :=
  ⟨reachable_scarred, portrays_domain reachable_scarred (d := cropped) (by decide)⟩

/-- All answers about a view, of whatever nesting, portray the absolute values of the members of the
domain at the bottom. -/
theorem portrays_view {y : Variable} {d : Domain} (hd : s.table.get? y.base = some d)
    (hleast : Value.least ∉ d.members) :
    Portrays ((Variable.abs y).answer s) (Absolute.image d.members) ∧
      (Variable.abs y).isFixed s = .ok (decide ((Absolute.image d.members).card = 1)) := by
  have hwf := hs.traced.wellFormed
  have hdescribes := Variable.describes_answer hwf (.abs y)
  have hdown := Variable.listsDown_answer (x := .abs y) hwf hd hleast
  rw [Variable.current_abs_eq hd] at hdescribes hdown
  have hportrays := hdescribes.portrays
    (Variable.responds_answer (x := .abs y) hwf hd hleast) hdown
  exact ⟨hportrays, Variable.isFixed_eq hportrays⟩

omit hs in
theorem portrays_view_scarred :
    scarred.Reachable ∧ scarred.table.get? ⟨0⟩ = some cropped ∧ Value.least ∉ cropped.members ∧
      Portrays ((Variable.abs (.abs (.domain ⟨0⟩))).answer scarred) (Absolute.image cropped.members) ∧
      (Variable.abs (.abs (.domain ⟨0⟩))).isFixed scarred =
        .ok (decide ((Absolute.image cropped.members).card = 1)) :=
  ⟨reachable_scarred, by decide, by decide,
    portrays_view reachable_scarred (y := .abs (.domain ⟨0⟩)) (by decide) (by decide)⟩

end Domains.Reachable

end Narrowing
