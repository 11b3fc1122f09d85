import Narrowing.Cell.SwapSet
import Mathlib.Data.Finset.Card
import Mathlib.Data.Fintype.Card

/-!
Swap sets as finite sets. As long as the two arrays are inverse to each other, the numbers before
the boundary are a set without repetition, and a swap with the number at the boundary adds or
removes exactly one member.
-/

namespace Narrowing.SwapSet

/-- The two arrays are inverse to each other, and the boundary lies within them. -/
structure WellFormed (s : SwapSet) : Prop where
  size_le : s.size ≤ s.elements.size
  elements_eq : ∀ {e p : Nat}, s.positions[e]? = some p → s.elements[p]? = some e
  positions_eq : ∀ {e p : Nat}, s.elements[p]? = some e → s.positions[e]? = some p

/-- The members. -/
def toFinset (s : SwapSet) : Finset Nat := s.members.toFinset

theorem wellFormed_ofCapacity (n : Nat) : (ofCapacity n).WellFormed := by
  refine ⟨Nat.zero_le _, fun {e p} h => ?_, fun {e p} h => ?_⟩
  all_goals
    simp only [ofCapacity, Array.getElem?_range] at h ⊢
    split at h
    · next hlt =>
      obtain rfl := Option.some.inj h
      exact if_pos hlt
    · cases h

@[simp] theorem toFinset_ofCapacity (n : Nat) : (ofCapacity n).toFinset = ∅ := by
  rw [toFinset, members_ofCapacity]
  rfl

variable {s s' : SwapSet} {e u : Nat} {b : Bool}

theorem mem_members (s : SwapSet) :
    u ∈ s.members ↔ ∃ p, p < s.size ∧ s.elements[p]? = some u := by
  rw [members, List.mem_take_iff_getElem]
  constructor
  · rintro ⟨p, hp, hu⟩
    have hlt : p < s.elements.size := by
      rw [← Array.length_toList]
      omega
    exact ⟨p, by omega, by rw [Array.getElem?_eq_getElem hlt, ← hu, Array.getElem_toList]⟩
  · rintro ⟨p, hp, hu⟩
    obtain ⟨hlt, hu⟩ := Array.getElem?_eq_some_iff.1 hu
    exact ⟨p, by rw [Array.length_toList]; omega, by rw [Array.getElem_toList, hu]⟩

theorem mem_toFinset (s : SwapSet) :
    u ∈ s.toFinset ↔ ∃ p, p < s.size ∧ s.elements[p]? = some u := by
  rw [toFinset, List.mem_toFinset, mem_members]

theorem mem_toFinset_iff (h : s.WellFormed) :
    u ∈ s.toFinset ↔ ∃ p, s.positions[u]? = some p ∧ p < s.size := by
  rw [mem_toFinset]
  constructor
  · rintro ⟨p, hp, hu⟩
    exact ⟨p, h.positions_eq hu, hp⟩
  · rintro ⟨p, hu, hp⟩
    exact ⟨p, hp, h.elements_eq hu⟩

theorem contains_iff (h : s.WellFormed) : s.contains u = true ↔ u ∈ s.toFinset := by
  rw [mem_toFinset_iff h, contains]
  split
  · next p hp => simp [hp]
  · next hp => simp [hp]

theorem nodup_members (h : s.WellFormed) : s.members.Nodup := by
  refine List.Nodup.sublist (List.take_sublist _ _) ?_
  rw [List.nodup_iff_injective_get]
  intro i j hij
  have hi : s.elements[i.1]? = some (s.elements.toList.get i) := by
    rw [← Array.getElem?_toList, List.getElem?_eq_getElem i.2]
    rfl
  have hj : s.elements[j.1]? = some (s.elements.toList.get i) := by
    rw [hij, ← Array.getElem?_toList, List.getElem?_eq_getElem j.2]
    rfl
  exact Fin.ext (Option.some.inj ((h.positions_eq hi).symm.trans (h.positions_eq hj)))

theorem card_toFinset (h : s.WellFormed) : s.toFinset.card = s.size := by
  rw [toFinset, List.toFinset_card_of_nodup (nodup_members h), members, List.length_take,
    Array.length_toList]
  exact Nat.min_eq_left h.size_le

theorem size_le_size_of_inverse {a b : Array Nat}
    (h : ∀ {i j : Nat}, a[i]? = some j → b[j]? = some i) : a.size ≤ b.size := by
  have hlt : ∀ i : Fin a.size, a[i] < b.size := fun i =>
    (Array.getElem?_eq_some_iff.1 (h (Array.getElem?_eq_getElem i.2))).1
  have hinj : Function.Injective fun i : Fin a.size => (⟨a[i], hlt i⟩ : Fin b.size) := by
    intro i j hij
    have hi := h (Array.getElem?_eq_getElem i.2)
    have hj := h (Array.getElem?_eq_getElem j.2)
    rw [show a[i.1] = a[j.1] from Fin.mk.inj hij] at hi
    exact Fin.ext (Option.some.inj (hi.symm.trans hj))
  simpa only [Fintype.card_fin] using Fintype.card_le_of_injective _ hinj

/-- Every number below the capacity stands somewhere. -/
theorem size_positions (h : s.WellFormed) : s.positions.size = s.capacity :=
  Nat.le_antisymm (size_le_size_of_inverse h.elements_eq) (size_le_size_of_inverse h.positions_eq)

theorem lt_capacity_of_mem (h : s.WellFormed) (he : e ∈ s.toFinset) : e < s.capacity := by
  obtain ⟨p, hp, -⟩ := (mem_toFinset_iff h).1 he
  rw [← size_positions h]
  exact (Array.getElem?_eq_some_iff.1 hp).1

/-- What a swap does to the two arrays. -/
theorem moveTo_eq_ok {target : Nat} (h : s.moveTo e target = .ok s') :
    s'.size = s.size ∧ s'.elements.size = s.elements.size ∧
      ∃ here displaced, s.positions[e]? = some here ∧ s.elements[target]? = some displaced ∧
      s'.elements = (s.elements.setIfInBounds here displaced).setIfInBounds target e ∧
      s'.positions = (s.positions.setIfInBounds displaced here).setIfInBounds e target := by
  unfold moveTo at h
  split at h
  · next here displaced hhere hdisplaced =>
    obtain rfl := Except.ok.inj h
    exact ⟨rfl, by simp, here, displaced, hhere, hdisplaced, rfl, rfl⟩
  · exact nomatch h

/-- Where the numbers stand after a swap. -/
theorem getElem?_moveTo (hs : s.WellFormed) {target : Nat} (h : s.moveTo e target = .ok s') :
    ∃ here displaced, s.positions[e]? = some here ∧ s.positions[displaced]? = some target ∧
      (∀ p, s'.elements[p]? = if p = target then some e else if p = here then some displaced
        else s.elements[p]?) ∧
      ∀ u, s'.positions[u]? = if u = e then some target else if u = displaced then some here
        else s.positions[u]? := by
  obtain ⟨-, -, here, displaced, hhere, hdisplaced, helements, hpositions⟩ := moveTo_eq_ok h
  have hhere' := (Array.getElem?_eq_some_iff.1 (hs.elements_eq hhere)).1
  have htarget := (Array.getElem?_eq_some_iff.1 hdisplaced).1
  have he := (Array.getElem?_eq_some_iff.1 hhere).1
  have hdisplaced' := (Array.getElem?_eq_some_iff.1 (hs.positions_eq hdisplaced)).1
  refine ⟨here, displaced, hhere, hs.positions_eq hdisplaced, fun p => ?_, fun u => ?_⟩
  · rw [helements, Array.getElem?_setIfInBounds, Array.getElem?_setIfInBounds]
    simp only [Array.size_setIfInBounds, htarget, hhere', if_true, eq_comm (a := p)]
  · rw [hpositions, Array.getElem?_setIfInBounds, Array.getElem?_setIfInBounds]
    simp only [Array.size_setIfInBounds, he, hdisplaced', if_true, eq_comm (a := u)]

/-- When two values of a function change places, and the places of these two values in an inverse,
the inverse goes on to find every value. -/
theorem inverse_of_swap {f g f' g' : Nat → Option Nat}
    (hinv : ∀ {i j : Nat}, f i = some j → g j = some i) {a b i k : Nat} (ha : g a = some i) (hb : g b = some k)
    (hf : ∀ x, f' x = if x = k then some a else if x = i then some b else f x)
    (hg : ∀ y, g' y = if y = a then some k else if y = b then some i else g y) {x y : Nat}
    (h : f' x = some y) : g' y = some x := by
  rw [hf] at h
  rw [hg]
  split at h
  · next hx =>
    obtain rfl := Option.some.inj h
    rw [if_pos rfl, hx]
  · next hk =>
    split at h
    · next hi =>
      obtain rfl := Option.some.inj h
      have hne : b ≠ a := fun he => hk (hi.trans (Option.some.inj (ha.symm.trans (he ▸ hb))))
      rw [if_neg hne, if_pos rfl, hi]
    · next hi =>
      have hy := hinv h
      have hya : y ≠ a := fun he => hi (Option.some.inj (hy.symm.trans (he ▸ ha)))
      have hyb : y ≠ b := fun he => hk (Option.some.inj (hy.symm.trans (he ▸ hb)))
      rw [if_neg hya, if_neg hyb, hy]

/-- After a swap the boundary can be anywhere. -/
theorem wellFormed_moveTo (hs : s.WellFormed) {target n : Nat} (h : s.moveTo e target = .ok s')
    (hn : n ≤ s.elements.size) : ({ s' with size := n } : SwapSet).WellFormed := by
  obtain ⟨-, hsize, -⟩ := moveTo_eq_ok h
  obtain ⟨here, displaced, hhere, htarget, helements, hpositions⟩ := getElem?_moveTo hs h
  exact ⟨hn.trans_eq hsize.symm,
    inverse_of_swap hs.elements_eq (hs.elements_eq htarget) (hs.elements_eq hhere) hpositions
      helements,
    inverse_of_swap hs.positions_eq hhere htarget helements hpositions⟩

/-- A swap makes two numbers change places, and all others stay where they are. -/
theorem elements_moveTo (hs : s.WellFormed) {target : Nat} (h : s.moveTo e target = .ok s') :
    ∃ here, s.positions[e]? = some here ∧ ∃ (hhere : here < s.elements.size)
      (htarget : target < s.elements.size), s'.elements = s.elements.swap here target := by
  obtain ⟨here, displaced, hhere, hdisplaced, helements, -⟩ := getElem?_moveTo hs h
  obtain ⟨hlt, he⟩ := Array.getElem?_eq_some_iff.1 (hs.elements_eq hhere)
  obtain ⟨htarget, hd⟩ := Array.getElem?_eq_some_iff.1 (hs.elements_eq hdisplaced)
  refine ⟨here, hhere, hlt, htarget, Array.ext_getElem? fun p => ?_⟩
  rw [helements, Array.getElem?_swap]
  simp only [he, hd, eq_comm (a := p)]

theorem perm_moveTo (hs : s.WellFormed) {target : Nat} (h : s.moveTo e target = .ok s') :
    s'.elements.toList.Perm s.elements.toList := by
  obtain ⟨here, -, hhere, htarget, helements⟩ := elements_moveTo hs h
  rw [helements]
  exact (Array.swap_perm hhere htarget).toList

/-- A number below the capacity can be swapped with any other one. -/
theorem exists_moveTo (hs : s.WellFormed) {target : Nat} (he : e < s.capacity)
    (htarget : target < s.elements.size) : ∃ s', s.moveTo e target = .ok s' := by
  rw [← size_positions hs] at he
  unfold moveTo
  rw [Array.getElem?_eq_getElem he, Array.getElem?_eq_getElem htarget]
  exact ⟨_, rfl⟩

/-- A number below the capacity can be added. -/
theorem exists_insert (hs : s.WellFormed) (he : e < s.capacity) :
    ∃ b s', s.insert e = .ok (b, s') := by
  unfold insert
  split
  · exact ⟨false, s, rfl⟩
  · next hout =>
    have hsize : s.size < s.elements.size := by
      refine Nat.lt_of_not_le fun hle => hout ?_
      have hlt : e < s.positions.size := by rwa [size_positions hs]
      have hstands := hs.elements_eq (Array.getElem?_eq_getElem hlt)
      have hbound := (Array.getElem?_eq_some_iff.1 hstands).1
      refine (contains_iff hs).2 ((mem_toFinset_iff hs).2 ⟨_, Array.getElem?_eq_getElem hlt, ?_⟩)
      exact Nat.lt_of_lt_of_le hbound hle
    obtain ⟨moved, hmoved⟩ := exists_moveTo hs he hsize
    rw [hmoved]
    exact ⟨true, _, rfl⟩

/-- Any number can be removed. -/
theorem exists_erase (hs : s.WellFormed) (e : Nat) : ∃ b s', s.erase e = .ok (b, s') := by
  unfold erase
  split
  · next hin =>
    have hin := (contains_iff hs).1 hin
    obtain ⟨p, hp, hlt⟩ := (mem_toFinset_iff hs).1 hin
    have hlast : s.size - 1 < s.elements.size := by
      have hle := hs.size_le
      omega
    obtain ⟨moved, hmoved⟩ := exists_moveTo hs (lt_capacity_of_mem hs hin) hlast
    rw [hmoved]
    exact ⟨true, _, rfl⟩
  · exact ⟨false, s, rfl⟩

/-- Adding a number either finds it there or swaps it to the boundary, which moves behind it. -/
theorem insert_cases (h : s.insert e = .ok (b, s')) :
    (s.contains e = true ∧ b = false ∧ s' = s) ∨
      (s.contains e = false ∧ b = true ∧ ∃ moved, s.moveTo e s.size = .ok moved ∧
        s' = { moved with size := s.size + 1 }) := by
  unfold insert at h
  split at h
  · next hin =>
    obtain ⟨rfl, rfl⟩ := Prod.mk.inj (Except.ok.inj h)
    exact Or.inl ⟨hin, rfl, rfl⟩
  · next hout =>
    obtain ⟨moved, hmoved, h⟩ := Checked.bind_eq_ok h
    obtain ⟨rfl, rfl⟩ := Prod.mk.inj (Except.ok.inj h)
    exact Or.inr ⟨Bool.eq_false_iff.2 hout, rfl, moved, hmoved, rfl⟩

/-- Removing a number either misses it or swaps it with the last member, and the boundary moves before
it. -/
theorem erase_cases (h : s.erase e = .ok (b, s')) :
    (s.contains e = false ∧ b = false ∧ s' = s) ∨
      (s.contains e = true ∧ b = true ∧ ∃ moved, s.moveTo e (s.size - 1) = .ok moved ∧
        s' = { moved with size := s.size - 1 }) := by
  unfold erase at h
  split at h
  · next hin =>
    obtain ⟨moved, hmoved, h⟩ := Checked.bind_eq_ok h
    obtain ⟨rfl, rfl⟩ := Prod.mk.inj (Except.ok.inj h)
    exact Or.inr ⟨hin, rfl, moved, hmoved, rfl⟩
  · next hout =>
    obtain ⟨rfl, rfl⟩ := Prod.mk.inj (Except.ok.inj h)
    exact Or.inl ⟨Bool.eq_false_iff.2 hout, rfl, rfl⟩

theorem capacity_insert (h : s.insert e = .ok (b, s')) : s'.capacity = s.capacity := by
  rcases insert_cases h with ⟨-, -, rfl⟩ | ⟨-, -, moved, hmoved, rfl⟩
  · rfl
  · exact (moveTo_eq_ok hmoved).2.1

theorem capacity_erase (h : s.erase e = .ok (b, s')) : s'.capacity = s.capacity := by
  rcases erase_cases h with ⟨-, -, rfl⟩ | ⟨-, -, moved, hmoved, rfl⟩
  · rfl
  · exact (moveTo_eq_ok hmoved).2.1

theorem perm_insert (hs : s.WellFormed) (h : s.insert e = .ok (b, s')) :
    s'.elements.toList.Perm s.elements.toList := by
  rcases insert_cases h with ⟨-, -, rfl⟩ | ⟨-, -, moved, hmoved, rfl⟩
  · exact List.Perm.refl _
  · exact (perm_moveTo hs hmoved :)

theorem perm_erase (hs : s.WellFormed) (h : s.erase e = .ok (b, s')) :
    s'.elements.toList.Perm s.elements.toList := by
  rcases erase_cases h with ⟨-, -, rfl⟩ | ⟨-, -, moved, hmoved, rfl⟩
  · exact List.Perm.refl _
  · exact (perm_moveTo hs hmoved :)

theorem insert_eq_ok (hs : s.WellFormed) (h : s.insert e = .ok (b, s')) :
    s'.WellFormed ∧ s'.toFinset = Insert.insert e s.toFinset ∧ (b = true ↔ e ∉ s.toFinset) := by
  rcases insert_cases h with ⟨hin, rfl, rfl⟩ | ⟨hout, rfl, moved, hmoved, rfl⟩
  · have hin := (contains_iff hs).1 hin
    exact ⟨hs, (Finset.insert_eq_self.2 hin).symm, by simp [hin]⟩
  · have hout := mt (contains_iff hs).2 (Bool.eq_false_iff.1 hout)
    obtain ⟨here, displaced, hhere, htarget, helements, -⟩ := getElem?_moveTo hs hmoved
    have hsize := (Array.getElem?_eq_some_iff.1 (hs.elements_eq htarget)).1
    have hbehind : s.size ≤ here := not_lt.1 fun hlt =>
      hout ((mem_toFinset_iff hs).2 ⟨here, hhere, hlt⟩)
    have hbefore : ∀ p, p < s.size → moved.elements[p]? = s.elements[p]? := fun p hp => by
      rw [helements, if_neg (by omega), if_neg (by omega)]
    have hlast : moved.elements[s.size]? = some e := by rw [helements, if_pos rfl]
    refine ⟨wellFormed_moveTo hs hmoved hsize, ?_, by simp [hout]⟩
    ext u
    rw [Finset.mem_insert, mem_toFinset, mem_toFinset]
    constructor
    · rintro ⟨p, hp, hu⟩
      rcases Nat.lt_succ_iff_lt_or_eq.1 hp with hp | rfl
      · exact Or.inr ⟨p, hp, (hbefore p hp).symm.trans hu⟩
      · exact Or.inl (Option.some.inj (hu.symm.trans hlast))
    · rintro (rfl | ⟨p, hp, hu⟩)
      · exact ⟨s.size, Nat.lt_succ_self _, hlast⟩
      · exact ⟨p, Nat.lt_succ_of_lt hp, (hbefore p hp).trans hu⟩

theorem erase_eq_ok (hs : s.WellFormed) (h : s.erase e = .ok (b, s')) :
    s'.WellFormed ∧ s'.toFinset = s.toFinset.erase e ∧ (b = true ↔ e ∈ s.toFinset) := by
  rcases erase_cases h with ⟨hout, rfl, rfl⟩ | ⟨hin, rfl, moved, hmoved, rfl⟩
  · have hout := mt (contains_iff hs).2 (Bool.eq_false_iff.1 hout)
    exact ⟨hs, (Finset.erase_eq_of_notMem hout).symm, by simp [hout]⟩
  · have hin := (contains_iff hs).1 hin
    obtain ⟨here, displaced, hhere, htarget, helements, -⟩ := getElem?_moveTo hs hmoved
    have hle := hs.size_le
    have he := hs.elements_eq hhere
    have hlast := hs.elements_eq htarget
    have hbefore : here < s.size := by
      obtain ⟨p, hp, hlt⟩ := (mem_toFinset_iff hs).1 hin
      rwa [Option.some.inj (hhere.symm.trans hp)]
    refine ⟨wellFormed_moveTo hs hmoved (by omega), ?_, by simp [hin]⟩
    ext u
    rw [Finset.mem_erase, mem_toFinset, mem_toFinset]
    constructor
    · rintro ⟨p, hp, hu⟩
      have hp : p < s.size - 1 := hp
      rw [helements, if_neg (by omega)] at hu
      split at hu
      · next hpe =>
        obtain rfl := Option.some.inj hu
        refine ⟨fun heq => ?_, s.size - 1, by omega, hlast⟩
        have := Option.some.inj (htarget.symm.trans (heq ▸ hhere))
        omega
      · next hpe =>
        exact ⟨fun heq => hpe (Option.some.inj ((hs.positions_eq hu).symm.trans (heq ▸ hhere))),
          p, by omega, hu⟩
    · rintro ⟨hne, p, hp, hu⟩
      have hpe : p ≠ here := fun heq => hne (Option.some.inj (hu.symm.trans (heq ▸ he)))
      by_cases hpl : p = s.size - 1
      · refine ⟨here, show here < s.size - 1 by omega, ?_⟩
        rw [helements, if_neg (by omega), if_pos rfl, ← hu, hpl, hlast]
      · refine ⟨p, show p < s.size - 1 by omega, ?_⟩
        rw [helements, if_neg hpl, if_neg hpe, hu]

end Narrowing.SwapSet
