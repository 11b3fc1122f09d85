import Narrowing.Proofs.Domain.Members

/-!
What a change does to the members of a domain. A change fits a domain if it starts from what the
domain is, keeps its bounds members and costs it a member at least. Changes that fit keep a domain
well-formed, can be taken back exactly, and are always reported by some event.
-/

namespace Narrowing

namespace Change

/-- Whether a change can be made of a domain. -/
def Fits (d : Domain) : Change → Prop
  | .narrowed fromLower fromUpper toLower toUpper fromSize toSize =>
    (fromLower = d.lower ∧ fromUpper = d.upper ∧ fromSize = d.size) ∧
    (toLower ∈ d.members ∧ toUpper ∈ d.members ∧ toLower ≤ toUpper) ∧
    toSize = (d.members.filter fun v => toLower ≤ v ∧ v ≤ toUpper).card ∧
    (d.lower < toLower ∨ toUpper < d.upper)
  | .punctured v => d.enumerated = true ∧ v ∈ d.members ∧ d.lower < v ∧ v < d.upper

/-- Whether a value outlasts a change. -/
def Keeps : Change → Int → Prop
  | .narrowed _ _ toLower toUpper _ _, v => toLower ≤ v ∧ v ≤ toUpper
  | .punctured u, v => v ≠ u

instance (c : Change) (v : Int) : Decidable (c.Keeps v) := by
  cases c <;> unfold Keeps <;> infer_instance

end Change

namespace Domain

variable {d : Domain} {c : Change}

theorem bit_setPresent {offset : Int} {present : Array Bool} (hs : d.shape = .listed offset present)
    {v : Int} (hv : offset ≤ v) (hi : (v - offset).toNat < present.size) (b : Bool) (n : Nat)
    (u : Int) : (d.setPresent v b n).bit u = if u = v then b else d.bit u := by
  obtain ⟨shape, lower, upper, size⟩ := d
  obtain rfl : shape = .listed offset present := hs
  simp only [setPresent, bit]
  by_cases hu : u = v
  · subst hu
    simp [hv, hi]
  · rw [if_neg hu]
    by_cases ho : offset ≤ u
    · have hne : (v - offset).toNat ≠ (u - offset).toNat := by omega
      simp [ho, Array.getElem?_setIfInBounds_ne hne]
    · simp [ho]

/-- The bits of a domain with holes reach over all values between its bounds. -/
theorem WellFormed.index_lt (h : d.WellFormed) {offset : Int} {present : Array Bool}
    (hs : d.shape = .listed offset present) {v : Int} (hl : d.lower ≤ v) (hu : v ≤ d.upper) :
    offset ≤ v ∧ (v - offset).toNat < present.size := by
  have hp := h.isPresent_eq v hl hu
  unfold isPresent at hp
  rw [hs] at hp
  simp only at hp
  split at hp
  · exact nomatch hp
  · split at hp
    · next ho _ hbit =>
      exact ⟨by omega, (Array.getElem?_eq_some_iff.1 hbit).1⟩
    · exact nomatch hp

@[simp] theorem enumerated_setPresent (v : Int) (b : Bool) (n : Nat) :
    (d.setPresent v b n).enumerated = d.enumerated := by
  obtain ⟨shape, lower, upper, size⟩ := d
  cases shape <;> rfl

@[simp] theorem lower_setPresent (v : Int) (b : Bool) (n : Nat) :
    (d.setPresent v b n).lower = d.lower := by
  obtain ⟨shape, lower, upper, size⟩ := d
  cases shape <;> rfl

@[simp] theorem upper_setPresent (v : Int) (b : Bool) (n : Nat) :
    (d.setPresent v b n).upper = d.upper := by
  obtain ⟨shape, lower, upper, size⟩ := d
  cases shape <;> rfl

@[simp] theorem size_setPresent (v : Int) (b : Bool) (n : Nat) :
    (d.setPresent v b n).size = n := by
  obtain ⟨shape, lower, upper, size⟩ := d
  cases shape <;> rfl

/-- The kind of a domain is for good. -/
@[simp] theorem enumerated_apply (c : Change) : (d.apply c).enumerated = d.enumerated := by
  cases c with
  | narrowed => rfl
  | punctured v => exact enumerated_setPresent v false _

theorem exists_listed (h : d.enumerated = true) :
    ∃ offset present, d.shape = .listed offset present := by
  unfold enumerated at h
  split at h
  · exact absurd h (by decide)
  · next offset present hs => exact ⟨offset, present, hs⟩

/-- A change takes exactly the values that do not outlast it. -/
theorem members_apply (h : d.WellFormed) (hc : c.Fits d) :
    (d.apply c).members = d.members.filter c.Keeps := by
  cases c with
  | narrowed fromLower fromUpper toLower toUpper fromSize toSize =>
      obtain ⟨-, ⟨hlo, hhi, -⟩, -⟩ := hc
      ext v
      have := lower_le hlo
      have := le_upper hhi
      have hb : (d.apply (.narrowed fromLower fromUpper toLower toUpper fromSize toSize)).bit v =
        d.bit v := rfl
      simp only [mem_members, Finset.mem_filter, hb, Change.Keeps]
      simp only [apply]
      constructor
      · rintro ⟨⟨h1, h2⟩, hbit⟩
        exact ⟨⟨⟨by omega, by omega⟩, hbit⟩, h1, h2⟩
      · rintro ⟨⟨-, hbit⟩, hv⟩
        exact ⟨hv, hbit⟩
  | punctured v =>
      obtain ⟨hlisted, -, hl, hu⟩ := hc
      obtain ⟨offset, present, hs⟩ := exists_listed hlisted
      obtain ⟨ho, hi⟩ := h.index_lt hs (le_of_lt hl) (le_of_lt hu)
      ext u
      simp only [apply, mem_members, Finset.mem_filter, lower_setPresent, upper_setPresent,
        bit_setPresent hs ho hi, Change.Keeps]
      by_cases huv : u = v <;> simp [huv]

/-- A change costs a member at least. -/
theorem card_apply_lt (h : d.WellFormed) (hc : c.Fits d) :
    (d.apply c).members.card < d.members.card := by
  rw [members_apply h hc]
  refine Finset.card_lt_card (Finset.filter_ssubset.2 ?_)
  cases c with
  | narrowed fromLower fromUpper toLower toUpper fromSize toSize =>
      obtain ⟨-, -, -, hmoved⟩ := hc
      rcases hmoved with hlo | hhi
      · exact ⟨d.lower, h.lower_mem, fun hk => by have := hk.1; omega⟩
      · exact ⟨d.upper, h.upper_mem, fun hk => by have := hk.2; omega⟩
  | punctured v => exact ⟨v, hc.2.1, fun hk => hk rfl⟩

/-- A change that fits leaves a domain well-formed. -/
theorem wellFormed_apply (h : d.WellFormed) (hc : c.Fits d) : (d.apply c).WellFormed := by
  have hmembers := members_apply h hc
  have hleast := h.least_le
  have hgreatest := h.le_greatest
  cases c with
  | narrowed fromLower fromUpper toLower toUpper fromSize toSize =>
      obtain ⟨-, ⟨hlo, hhi, hle⟩, hsize, -⟩ := hc
      have hlo' := lower_le hlo
      have hhi' := le_upper hhi
      refine ⟨?_, ?_, ?_, ?_, ?_, fun v hl hu => h.isPresent_eq v (le_trans hlo' hl)
        (le_trans hu hhi')⟩
      · rw [hmembers]
        exact Finset.mem_filter.2 ⟨hlo, le_refl toLower, hle⟩
      · rw [hmembers]
        exact Finset.mem_filter.2 ⟨hhi, hle, le_refl toUpper⟩
      · rw [hmembers]
        exact hsize
      · exact le_trans hleast hlo'
      · exact le_trans hhi' hgreatest
  | punctured v =>
      obtain ⟨hlisted, hv, hl, hu⟩ := hc
      have herase : d.members.filter (Change.punctured v).Keeps = d.members.erase v := by
        ext u
        simp only [Finset.mem_filter, Finset.mem_erase, Change.Keeps]
        exact and_comm
      obtain ⟨offset, present, hs⟩ := exists_listed hlisted
      refine ⟨?_, ?_, ?_, ?_, ?_, fun u hul huu => ?_⟩
      · rw [hmembers, herase]
        simpa [apply] using ⟨ne_of_lt hl, h.lower_mem⟩
      · rw [hmembers, herase]
        simpa [apply] using ⟨ne_of_gt hu, h.upper_mem⟩
      · rw [hmembers, herase, Finset.card_erase_of_mem hv, ← h.size_eq]
        simp [apply]
      · simpa [apply] using hleast
      · simpa [apply] using hgreatest
      · simp only [apply, lower_setPresent] at hul
        simp only [apply, upper_setPresent] at huu
        obtain ⟨ho, hi⟩ := h.index_lt hs hul huu
        obtain ⟨shape, lower, upper, size⟩ := d
        obtain rfl : shape = .listed offset present := hs
        have hsize : (u - offset).toNat <
            (present.setIfInBounds (v - offset).toNat false).size := by simpa using hi
        simp only [apply, setPresent, isPresent, bit, if_neg (not_lt.2 ho),
          Array.getElem?_eq_getElem hsize, Array.getD_eq_getD_getElem?, ho, decide_true,
          Bool.true_and, Option.getD_some]

/-- Taking back a change gives the domain that was there before it. -/
theorem undo_apply (h : d.WellFormed) (hc : c.Fits d) : (d.apply c).undo c = d := by
  cases c with
  | narrowed fromLower fromUpper toLower toUpper fromSize toSize =>
      obtain ⟨⟨rfl, rfl, rfl⟩, -⟩ := hc
      rfl
  | punctured v =>
      obtain ⟨hlisted, hv, hl, hu⟩ := hc
      obtain ⟨offset, present, hs⟩ := exists_listed hlisted
      obtain ⟨ho, hi⟩ := h.index_lt hs (le_of_lt hl) (le_of_lt hu)
      have hpos : 0 < d.size := by
        rw [h.size_eq]
        exact Finset.card_pos.2 ⟨v, hv⟩
      have hbit := (mem_members.1 hv).2
      obtain ⟨shape, lower, upper, size⟩ := d
      obtain rfl : shape = .listed offset present := hs
      simp only [bit, Bool.and_eq_true, decide_eq_true_eq, Array.getD_eq_getD_getElem?,
        Array.getElem?_eq_getElem hi, Option.getD_some] at hbit
      have hback : (present.setIfInBounds (v - offset).toNat false).setIfInBounds
          (v - offset).toNat true = present := by
        rw [Array.setIfInBounds_setIfInBounds]
        refine Array.ext (by simp) fun i h1 h2 => ?_
        by_cases hi' : (v - offset).toNat = i
        · subst hi'
          simp [hbit.2]
        · exact Array.getElem_setIfInBounds_ne h2 hi'
      simp only [apply, undo, setPresent, hback]
      simp only at hpos
      rw [Nat.sub_add_cancel hpos]

/-- Every change is reported. -/
theorem events_ne_empty (hc : c.Fits d) : c.events ≠ ∅ := by
  cases c with
  | narrowed fromLower fromUpper toLower toUpper fromSize toSize =>
      obtain ⟨⟨rfl, rfl, -⟩, -, -, hmoved⟩ := hc
      intro he
      rcases hmoved with hlo | hhi
      · have := congrArg EventSet.lowerBound he
        simp only [Change.events, hlo, decide_true] at this
        exact absurd this (by decide)
      · have := congrArg EventSet.upperBound he
        simp only [Change.events, hhi, decide_true] at this
        exact absurd this (by decide)
  | punctured v =>
      exact fun he => absurd (congrArg EventSet.removal he) Bool.noConfusion

end Domain

end Narrowing
