import Narrowing.Domain.Basic
import Mathlib.Data.Int.Interval
import Mathlib.Data.Int.Range
import Mathlib.Data.Finset.Max

/-!
The members of a domain as a finite set, and the domains that can be trusted: both bounds are
members, the size is the number of members, and no question between the bounds leaves the bits.
Every question to such a domain is answered from its members, and none of them is a fault.
-/

namespace Narrowing

/-- There are no more different values than `Value.count`. -/
theorem Value.card_le_count {V : Finset Int} (h : ∀ v ∈ V, Value.InRange v) :
    V.card ≤ Value.count := by
  have hsub : V ⊆ Finset.Icc Value.least Value.greatest := fun v hv => Finset.mem_Icc.2 (h v hv)
  refine (Finset.card_le_card hsub).trans ?_
  rw [Int.card_Icc]
  decide

/-! ### Nearest members -/

/-- The smallest member from `a` upwards, if there is one. -/
def FirstFrom (V : Finset Int) (a : Int) : Option Int → Prop
  | none => ∀ u ∈ V, u < a
  | some w => w ∈ V ∧ a ≤ w ∧ ∀ u ∈ V, a ≤ u → w ≤ u

/-- The greatest member from `a` downwards, if there is one. -/
def LastUpTo (V : Finset Int) (a : Int) : Option Int → Prop
  | none => ∀ u ∈ V, a < u
  | some w => w ∈ V ∧ w ≤ a ∧ ∀ u ∈ V, u ≤ a → u ≤ w

variable {V : Finset Int} {a b : Int} {o : Option Int}

/-- Passing over values that are no members changes nothing. -/
theorem FirstFrom.of_le (h : FirstFrom V b o) (hab : a ≤ b) (hgap : ∀ u ∈ V, u < b → u < a) :
    FirstFrom V a o := by
  cases o with
  | none => exact fun u hu => hgap u hu (h u hu)
  | some w =>
      obtain ⟨hw, hbw, hleast⟩ := h
      refine ⟨hw, hab.trans hbw, fun u hu hau => hleast u hu ?_⟩
      by_contra hub
      have := hgap u hu (by omega)
      omega

theorem LastUpTo.of_le (h : LastUpTo V a o) (hab : a ≤ b) (hgap : ∀ u ∈ V, a < u → b < u) :
    LastUpTo V b o := by
  cases o with
  | none => exact fun u hu => hgap u hu (h u hu)
  | some w =>
      obtain ⟨hw, hwa, hgreatest⟩ := h
      refine ⟨hw, hwa.trans hab, fun u hu hub => hgreatest u hu ?_⟩
      by_contra hau
      have := hgap u hu (by omega)
      omega

theorem FirstFrom.advance (h : FirstFrom V a o) (hab : a ≤ b + 1)
    (hlt : ∀ w, o = some w → b < w) : FirstFrom V (b + 1) o := by
  cases o with
  | none => exact fun u hu => (h u hu).trans_le hab
  | some w => exact ⟨h.1, hlt w rfl, fun u hu hbu => h.2.2 u hu (hab.trans hbu)⟩

theorem LastUpTo.advance (h : LastUpTo V (-a) o) (hab : a ≤ b + 1)
    (hlt : ∀ w, o = some w → b < -w) : LastUpTo V (-(b + 1)) o := by
  cases o with
  | none => exact fun u hu => lt_of_le_of_lt (by omega) (h u hu)
  | some w =>
      have := hlt w rfl
      exact ⟨h.1, by omega, fun u hu hbu => h.2.2 u hu (hbu.trans (by omega))⟩

theorem firstFrom_self (h : a ∈ V) : FirstFrom V a (some a) :=
  ⟨h, le_refl a, fun _ _ hu => hu⟩

theorem lastUpTo_self (h : a ∈ V) : LastUpTo V a (some a) :=
  ⟨h, le_refl a, fun _ _ hu => hu⟩

namespace Domain

/-- The bit of a value. Values beyond the bits have none set. -/
def bit (d : Domain) (v : Int) : Bool :=
  match d.shape with
  | .interval => true
  | .listed offset present => decide (offset ≤ v) && present.getD (v - offset).toNat false

/-- The values of a domain. -/
def members (d : Domain) : Finset Int :=
  (Int.range d.lower (d.upper + 1)).toFinset.filter fun v => d.bit v = true

theorem mem_members {d : Domain} {v : Int} :
    v ∈ d.members ↔ (d.lower ≤ v ∧ v ≤ d.upper) ∧ d.bit v = true := by
  simp only [members, Finset.mem_filter, List.mem_toFinset, Int.mem_range_iff, Int.lt_add_one_iff]

theorem lower_le {d : Domain} {v : Int} (hv : v ∈ d.members) : d.lower ≤ v :=
  (mem_members.1 hv).1.1

theorem le_upper {d : Domain} {v : Int} (hv : v ∈ d.members) : v ≤ d.upper :=
  (mem_members.1 hv).1.2

theorem bit_of_interval {d : Domain} (h : d.enumerated = false) (v : Int) : d.bit v = true := by
  unfold enumerated at h
  unfold bit
  cases hs : d.shape with
  | interval => rfl
  | listed offset present =>
      rw [hs] at h
      exact nomatch h

/-- An interval has all values between its bounds. -/
theorem mem_members_of_interval {d : Domain} (h : d.enumerated = false) {v : Int} :
    v ∈ d.members ↔ d.lower ≤ v ∧ v ≤ d.upper := by
  rw [mem_members, bit_of_interval h v]
  simp

/-- The values with their bit set among the `n` values from `v` upwards. -/
def present (d : Domain) (n : Nat) (v : Int) : List Int :=
  ((List.range n).map fun i : Nat => v + i).filter fun u => d.bit u

theorem mem_present {d : Domain} {n : Nat} {v u : Int} :
    u ∈ d.present n v ↔ (v ≤ u ∧ u < v + n) ∧ d.bit u = true := by
  simp only [present, List.mem_filter, List.mem_map, List.mem_range]
  refine and_congr_left fun _ => ⟨?_, fun hu => ⟨(u - v).toNat, by omega, by omega⟩⟩
  rintro ⟨i, hi, rfl⟩
  omega

theorem nodup_present (d : Domain) (n : Nat) (v : Int) : (d.present n v).Nodup := by
  refine List.Nodup.filter _ (List.Nodup.map (fun i j hij => ?_) List.nodup_range)
  simpa using hij

/-- Listing upwards lists what has its bit set, as long as it stays within the bits. -/
theorem listUp_eq_present {d : Domain} (n limit : Nat) (v : Int)
    (hbits : ∀ u, v ≤ u → u < v + n → d.isPresent u = .ok (d.bit u)) :
    d.listUp n limit v = .ok ((d.present n v).take limit) := by
  induction n generalizing v limit with
  | zero => cases limit <;> rfl
  | succ n ih =>
      have htail : d.present (n + 1) v =
          (if d.bit v then [v] else []) ++ d.present n (v + 1) := by
        have hshift : (List.range n).map (fun i : Nat => v + ((i + 1 : Nat) : Int)) =
            (List.range n).map fun i : Nat => v + 1 + i := by
          refine List.map_congr_left fun i _ => ?_
          push_cast
          omega
        rw [present, List.range_succ_eq_map, List.map_cons, List.map_map]
        simp only [Function.comp_def, hshift, Nat.cast_zero, add_zero]
        cases hb : d.bit v <;> simp [hb, present]
      have hrest : ∀ u, v + 1 ≤ u → u < v + 1 + n → d.isPresent u = .ok (d.bit u) :=
        fun u hu hun => hbits u (by omega) (by push_cast; omega)
      cases limit with
      | zero => rfl
      | succ limit =>
          rw [listUp, hbits v (le_refl v) (by push_cast; omega), htail]
          cases hb : d.bit v with
          | true =>
              simp only [bind, Except.bind, if_true]
              rw [ih limit (v + 1) hrest]
              rfl
          | false =>
              simp only [bind, Except.bind]
              exact ih (limit + 1) (v + 1) hrest

/-- What is to be true of a domain for its answers to describe one set. -/
structure WellFormed (d : Domain) : Prop where
  lower_mem : d.lower ∈ d.members
  upper_mem : d.upper ∈ d.members
  size_eq : d.size = d.members.card
  least_le : Value.least ≤ d.lower
  le_greatest : d.upper ≤ Value.greatest
  isPresent_eq : ∀ v, d.lower ≤ v → v ≤ d.upper → d.isPresent v = .ok (d.bit v)

section Answers

variable {d : Domain} (h : d.WellFormed)
include h

theorem WellFormed.lower_le_upper : d.lower ≤ d.upper :=
  (mem_members.1 h.lower_mem).1.2

theorem contains_eq (v : Int) : d.contains v = .ok (decide (v ∈ d.members)) := by
  unfold contains
  split
  · next hv =>
    rw [h.isPresent_eq v hv.1 hv.2]
    simp [mem_members, hv]
  · next hv => simp [mem_members, hv]

/-- Seeking upwards as far as the upper bound finds the first member. -/
theorem firstFrom_seekUp (n : Nat) (v : Int) (hv : d.lower ≤ v) (hn : v + n = d.upper + 1) :
    ∃ o, d.seekUp n v = .ok o ∧ FirstFrom d.members v o := by
  induction n generalizing v with
  | zero => exact ⟨none, rfl, fun u hu => by have := le_upper hu; omega⟩
  | succ n ih =>
      have hp := h.isPresent_eq v hv (by omega)
      cases hb : d.bit v with
      | true =>
          refine ⟨some v, ?_, firstFrom_self (mem_members.2 ⟨⟨hv, by omega⟩, hb⟩)⟩
          rw [seekUp, hp, hb]
          rfl
      | false =>
          obtain ⟨o, ho, hfirst⟩ := ih (v + 1) (by omega) (by omega)
          refine ⟨o, ?_, hfirst.of_le (by omega) fun u hu hlt => ?_⟩
          · rw [seekUp, hp, hb]
            exact ho
          · have hne : u ≠ v := by
              rintro rfl
              exact absurd (mem_members.1 hu).2 (by simp [hb])
            omega

/-- Seeking downwards as far as the lower bound finds the last member. -/
theorem lastUpTo_seekDown (n : Nat) (v : Int) (hv : v ≤ d.upper) (hn : v - n = d.lower - 1) :
    ∃ o, d.seekDown n v = .ok o ∧ LastUpTo d.members v o := by
  induction n generalizing v with
  | zero => exact ⟨none, rfl, fun u hu => by have := lower_le hu; omega⟩
  | succ n ih =>
      have hp := h.isPresent_eq v (by omega) hv
      cases hb : d.bit v with
      | true =>
          refine ⟨some v, ?_, lastUpTo_self (mem_members.2 ⟨⟨by omega, hv⟩, hb⟩)⟩
          rw [seekDown, hp, hb]
          rfl
      | false =>
          obtain ⟨o, ho, hlast⟩ := ih (v - 1) (by omega) (by omega)
          refine ⟨o, ?_, hlast.of_le (by omega) fun u hu hlt => ?_⟩
          · rw [seekDown, hp, hb]
            exact ho
          · have hne : u ≠ v := by
              rintro rfl
              exact absurd (mem_members.1 hu).2 (by simp [hb])
            omega

theorem next_eq (v : Int) : ∃ o, d.next v = .ok o ∧ FirstFrom d.members (v + 1) o := by
  unfold next
  split
  · next hv =>
    refine ⟨_, rfl, h.lower_mem, by omega, fun u hu _ => lower_le hu⟩
  · next hv =>
    split
    · next hu => exact ⟨_, rfl, fun u hu => by have := le_upper hu; omega⟩
    · next hu =>
      have hr : Value.InRange (v + 1) := by
        have := h.least_le
        have := h.le_greatest
        constructor <;> omega
      rw [Value.check_eq_ok hr]
      exact firstFrom_seekUp h _ (v + 1) (by omega) (by omega)

theorem previous_eq (v : Int) : ∃ o, d.previous v = .ok o ∧ LastUpTo d.members (v - 1) o := by
  unfold previous
  split
  · next hv =>
    refine ⟨_, rfl, h.upper_mem, by omega, fun u hu _ => le_upper hu⟩
  · next hv =>
    split
    · next hu => exact ⟨_, rfl, fun u hu => by have := lower_le hu; omega⟩
    · next hu => exact lastUpTo_seekDown h _ (v - 1) (by omega) (by omega)

/-- Listing upwards between the bounds lists the members there. -/
theorem listUp_eq (n limit : Nat) (v : Int) (hv : d.lower ≤ v) (hn : v + n ≤ d.upper + 1) :
    d.listUp n limit v =
      .ok ((((List.range n).map fun i : Nat => v + i).filter fun u => d.bit u).take limit) :=
  listUp_eq_present n limit v fun u hu hun => h.isPresent_eq u (by omega) (by omega)

/-- A listing of all values has the members in ascending order. -/
theorem ascending_eq {limit : Nat} (hlimit : d.members.card ≤ limit) :
    ∃ l, d.ascending limit = .ok l ∧ l.Pairwise (· < ·) ∧ ∀ v, v ∈ l ↔ v ∈ d.members := by
  have hle := h.lower_le_upper
  set all := ((List.range d.width).map fun i : Nat => d.lower + i).filter fun u => d.bit u with hall
  have hmem : ∀ v, v ∈ all ↔ v ∈ d.members := by
    intro v
    simp only [hall, List.mem_filter, List.mem_map, List.mem_range, mem_members, width]
    refine and_congr_left fun _ => ⟨?_, fun hv => ⟨(v - d.lower).toNat, by omega, by omega⟩⟩
    rintro ⟨i, hi, rfl⟩
    omega
  have hsorted : all.Pairwise (· < ·) := by
    refine List.Pairwise.filter _ (List.Pairwise.map _ ?_ List.pairwise_lt_range)
    intro i j hij
    omega
  have hlength : all.length ≤ limit := by
    have hnodup : all.Nodup := hsorted.imp fun hlt => ne_of_lt hlt
    have hset : all.toFinset = d.members := by
      ext v
      rw [List.mem_toFinset, hmem]
    rw [← hset, List.toFinset_card_of_nodup hnodup] at hlimit
    exact hlimit
  refine ⟨all, ?_, hsorted, hmem⟩
  rw [ascending, listUp_eq h d.width limit d.lower (le_refl _) (by unfold width; omega),
    List.take_of_length_le hlength]

/-- There are no more members than values. -/
theorem card_members_le : d.members.card ≤ Value.count := by
  refine Value.card_le_count fun v hv => ?_
  have := lower_le hv
  have := le_upper hv
  have := h.least_le
  have := h.le_greatest
  exact ⟨by omega, by omega⟩

end Answers

end Domain

end Narrowing
