import Narrowing.Proofs.Domain.Change

/-!
What a restriction makes of a domain. A plan is refused exactly when no member is allowed; carried
out, it leaves the allowed members, except that an interval both of whose bounds are allowed stays
as it is. Planning is never a fault.
-/

namespace Narrowing.Domain

/-- A series of changes that can be made one after the other. -/
def FitAll (d : Domain) : List Change → Prop
  | [] => True
  | c :: rest => c.Fits d ∧ FitAll (d.apply c) rest

/-- The domain after a series of changes. -/
def applyAll (d : Domain) (changes : List Change) : Domain := changes.foldl apply d

/-- `d'` is what a restriction makes of `d`. -/
def Obeys (d d' : Domain) (r : Restriction) : Prop :=
  d'.members = d.members.filter r.Allows ∨
    (d.enumerated = false ∧ d' = d ∧ r.Allows d.lower ∧ r.Allows d.upper)

/-- What comes of planning a restriction. -/
def Planned (d : Domain) (r : Restriction) (result : Except Refusal (List Change)) : Prop :=
  (∃ changes, result = .ok changes ∧ FitAll d changes ∧ Obeys d (d.applyAll changes) r) ∨
    (result = .error .empty ∧ ∀ v ∈ d.members, ¬ r.Allows v)

section Laws

variable {d : Domain} {r : Restriction} (h : d.WellFormed)
include h

omit h in
/-- A restriction that all members obey calls for no change. -/
theorem planned_nil (hall : ∀ v ∈ d.members, r.Allows v) : Planned d r (.ok []) :=
  Or.inl ⟨[], rfl, trivial, Or.inl (Finset.filter_true_of_mem hall).symm⟩

/-- A change that keeps exactly what is allowed carries out a restriction. -/
theorem planned_singleton {c : Change} (hc : c.Fits d)
    (hkeeps : ∀ v ∈ d.members, c.Keeps v ↔ r.Allows v) : Planned d r (.ok [c]) := by
  refine Or.inl ⟨[c], rfl, ⟨hc, trivial⟩, Or.inl ?_⟩
  rw [applyAll, List.foldl_cons, List.foldl_nil, members_apply h hc]
  exact Finset.filter_congr hkeeps

omit h in
theorem planned_refused (hnone : ∀ v ∈ d.members, ¬ r.Allows v) : Planned d r (.error .empty) :=
  Or.inr ⟨rfl, hnone⟩

omit h in
/-- Restrictions that allow the same members are planned alike. -/
theorem Planned.congr {r' : Restriction} {result : Except Refusal (List Change)}
    (hp : Planned d r result) (hsame : ∀ v ∈ d.members, r.Allows v ↔ r'.Allows v)
    (hd : d.WellFormed) : Planned d r' result := by
  rcases hp with ⟨changes, rfl, hfit, hobeys⟩ | ⟨rfl, hnone⟩
  · refine Or.inl ⟨changes, rfl, hfit, ?_⟩
    rcases hobeys with hm | ⟨hi, hs, hl, hu⟩
    · exact Or.inl (hm.trans (Finset.filter_congr hsame))
    · exact Or.inr ⟨hi, hs, (hsame _ hd.lower_mem).1 hl, (hsame _ hd.upper_mem).1 hu⟩
  · exact Or.inr ⟨rfl, fun v hv ha => hnone v hv ((hsame v hv).2 ha)⟩

/-! ### Counting what a bound cuts off -/

theorem countUp_eq (n : Nat) (v : Int) (counted : Nat) (hv : d.lower ≤ v)
    (hn : v + n ≤ d.upper + 1) :
    d.countUp n v counted =
      .ok (counted + (d.members.filter fun u => v ≤ u ∧ u < v + n).card) := by
  induction n generalizing v counted with
  | zero =>
      have hnone : (d.members.filter fun u => v ≤ u ∧ u < v + (0 : Nat)) = ∅ :=
        Finset.filter_false_of_mem fun u _ => by omega
      rw [hnone]
      rfl
  | succ n ih =>
      rw [countUp, h.isPresent_eq v hv (by omega)]
      change d.countUp n (v + 1) (if d.bit v then counted + 1 else counted) = _
      rw [ih _ _ (by omega) (by omega)]
      by_cases hbit : d.bit v = true
      · have hmem : v ∈ d.members := mem_members.2 ⟨⟨hv, by omega⟩, hbit⟩
        have hsplit : (d.members.filter fun u => v ≤ u ∧ u < v + (n + 1 : Nat)) =
            insert v (d.members.filter fun u => v + 1 ≤ u ∧ u < v + 1 + n) := by
          ext u
          simp only [Finset.mem_filter, Finset.mem_insert]
          constructor
          · rintro ⟨hu, hlo, hhi⟩
            by_cases huv : u = v
            · exact Or.inl huv
            · exact Or.inr ⟨hu, by omega, by omega⟩
          · rintro (rfl | ⟨hu, hlo, hhi⟩)
            · exact ⟨hmem, by omega, by omega⟩
            · exact ⟨hu, by omega, by omega⟩
        rw [if_pos hbit, hsplit, Finset.card_insert_of_notMem (by simp)]
        congr 1
        omega
      · rw [if_neg hbit]
        congr 3
        refine Finset.filter_congr fun u hu => ?_
        have hne : u ≠ v := by
          rintro rfl
          exact hbit (mem_members.1 hu).2
        omega

theorem countPresent_eq {lo hi : Int} (hlo : d.lower ≤ lo) (hhi : hi ≤ d.upper) :
    d.countPresent lo hi = .ok (d.members.filter fun v => lo ≤ v ∧ v ≤ hi).card := by
  unfold countPresent
  split
  · next hlt =>
    rw [Finset.filter_false_of_mem fun v _ => by omega]
    rfl
  · next hle =>
    split
    · next hs =>
      have hall : (d.members.filter fun v => lo ≤ v ∧ v ≤ hi) = Finset.Icc lo hi := by
        ext v
        rw [Finset.mem_filter, mem_members_of_interval (by simp [enumerated, hs]), Finset.mem_Icc]
        omega
      rw [hall, Int.card_Icc]
      congr 2
      omega
    · rw [countUp_eq h _ _ _ hlo (by omega), Nat.zero_add]
      congr 2
      refine Finset.filter_congr fun v _ => ?_
      omega

theorem countBelow_eq {lo : Int} (hlo : lo ≤ d.upper) :
    d.countBelow lo = .ok (d.members.filter fun v => v < lo).card := by
  have hleast := h.least_le
  have hgreatest := h.le_greatest
  unfold countBelow
  split
  · next hlt =>
    have hr : Value.InRange (lo - 1) := ⟨by omega, by omega⟩
    rw [Value.check_eq_ok hr]
    refine (countPresent_eq h (le_refl _) (by omega)).trans ?_
    congr 2
    refine Finset.filter_congr fun v hv => ?_
    have := lower_le hv
    omega
  · next hge =>
    rw [Finset.filter_false_of_mem fun v hv => by have := lower_le hv; omega]
    rfl

theorem countAbove_eq {hi : Int} (hhi : d.lower ≤ hi) :
    d.countAbove hi = .ok (d.members.filter fun v => hi < v).card := by
  have hleast := h.least_le
  have hgreatest := h.le_greatest
  unfold countAbove
  split
  · next hlt =>
    have hr : Value.InRange (hi + 1) := ⟨by omega, by omega⟩
    rw [Value.check_eq_ok hr]
    refine (countPresent_eq h (by omega) (le_refl _)).trans ?_
    congr 2
    refine Finset.filter_congr fun v hv => ?_
    have := le_upper hv
    omega
  · next hge =>
    rw [Finset.filter_false_of_mem fun v hv => by have := le_upper hv; omega]
    rfl

/-- Moving the bounds to members is a change with the right count. -/
theorem narrow_eq {lo hi : Int} (hlo : lo ∈ d.members) (hhi : hi ∈ d.members) (hle : lo ≤ hi) :
    d.narrow lo hi = .ok (.narrowed d.lower d.upper lo hi d.size
      (d.members.filter fun v => lo ≤ v ∧ v ≤ hi).card) := by
  have hsum : (d.members.filter fun v => v < lo).card +
      (d.members.filter fun v => hi < v).card +
        (d.members.filter fun v => lo ≤ v ∧ v ≤ hi).card = d.size := by
    rw [h.size_eq, ← Finset.card_union_of_disjoint, ← Finset.card_union_of_disjoint]
    · congr 1
      ext v
      simp only [Finset.mem_union, Finset.mem_filter]
      by_cases hv : v ∈ d.members <;> simp [hv]
      omega
    · rw [Finset.disjoint_left]
      intro v hv hv'
      simp only [Finset.mem_union, Finset.mem_filter] at hv hv'
      omega
    · rw [Finset.disjoint_left]
      intro v hv hv'
      simp only [Finset.mem_filter] at hv hv'
      omega
  unfold narrow
  rw [countBelow_eq h (le_upper hlo), countAbove_eq h (lower_le hhi)]
  simp only [bind, Except.bind]
  rw [if_neg (by omega)]
  simp only [pure, Except.pure]
  congr 2
  omega

/-! ### The five plans -/

theorem planned_atLeast (v : Int) : Planned d (.atLeast v) (d.planAtLeast v) := by
  unfold planAtLeast
  split
  · next hv => exact planned_nil fun u hu => le_trans hv (lower_le hu)
  · next hv =>
    split
    · next hu =>
      refine planned_refused fun u hm ha => ?_
      have h1 := le_upper hm
      have h2 : v ≤ u := ha
      omega
    · next hu =>
      obtain ⟨o, ho, hfirst⟩ := firstFrom_seekUp h (d.upper - v + 1).toNat v (by omega) (by omega)
      cases o with
      | none => exact absurd (hfirst _ h.upper_mem) (by omega)
      | some w =>
          obtain ⟨hw, hvw, hleast⟩ := hfirst
          rw [ho]
          simp only [Refusal.guard, bind, Except.bind, Option.getD_some]
          rw [narrow_eq h hw h.upper_mem (le_upper hw)]
          refine planned_singleton h ⟨⟨rfl, rfl, rfl⟩, ⟨hw, h.upper_mem, le_upper hw⟩, rfl,
            Or.inl (by omega)⟩ fun u hu => ⟨fun hk => le_trans hvw hk.1, fun ha => ?_⟩
          exact ⟨hleast u hu ha, le_upper hu⟩

theorem planned_atMost (v : Int) : Planned d (.atMost v) (d.planAtMost v) := by
  unfold planAtMost
  split
  · next hv => exact planned_nil fun u hu => le_trans (le_upper hu) hv
  · next hv =>
    split
    · next hl =>
      refine planned_refused fun u hm ha => ?_
      have h1 := lower_le hm
      have h2 : u ≤ v := ha
      omega
    · next hl =>
      obtain ⟨o, ho, hlast⟩ := lastUpTo_seekDown h (v - d.lower + 1).toNat v (by omega) (by omega)
      cases o with
      | none => exact absurd (hlast _ h.lower_mem) (by omega)
      | some w =>
          obtain ⟨hw, hwv, hgreatest⟩ := hlast
          rw [ho]
          simp only [Refusal.guard, bind, Except.bind, Option.getD_some]
          rw [narrow_eq h h.lower_mem hw (lower_le hw)]
          refine planned_singleton h ⟨⟨rfl, rfl, rfl⟩, ⟨h.lower_mem, hw, lower_le hw⟩, rfl,
            Or.inr (by omega)⟩ fun u hu => ⟨fun hk => le_trans hk.2 hwv, fun ha => ?_⟩
          exact ⟨lower_le hu, hgreatest u hu ha⟩

theorem planned_exactly (v : Int) : Planned d (.exactly v) (d.planExactly v) := by
  unfold planExactly
  rw [contains_eq h]
  by_cases hv : v ∈ d.members
  · simp only [Refusal.guard, bind, Except.bind, hv, decide_true, Bool.not_true]
    split
    · next hs => exact absurd hs (by decide)
    · split
      · next heq =>
        refine planned_nil fun u hu => ?_
        have := lower_le hu
        have := le_upper hu
        have := lower_le hv
        have := le_upper hv
        change u = v
        omega
      · next hne =>
        rw [narrow_eq h hv hv (le_refl v)]
        have := lower_le hv
        have := le_upper hv
        refine planned_singleton h ⟨⟨rfl, rfl, rfl⟩, ⟨hv, hv, le_refl v⟩, rfl, by omega⟩
          fun u _ => ?_
        simp only [Change.Keeps, Restriction.Allows]
        omega
  · simp only [Refusal.guard, bind, Except.bind, hv, decide_false, Bool.not_false, if_true]
    exact planned_refused fun u hu (ha : u = v) => hv (ha ▸ hu)

theorem planned_without (v : Int) : Planned d (.without v) (d.planWithout v) := by
  have hleast := h.least_le
  have hgreatest := h.le_greatest
  unfold planWithout
  rw [contains_eq h]
  by_cases hv : v ∈ d.members
  · have hlv := lower_le hv
    have hvu := le_upper hv
    simp only [Refusal.guard, bind, Except.bind, hv, decide_true, Bool.not_true]
    rw [if_neg (by decide)]
    split
    · next heq =>
      refine planned_refused fun u hu ha => ha ?_
      have := lower_le hu
      have := le_upper hu
      omega
    · next hne =>
      split
      · next hl =>
        rw [Value.check_eq_ok ⟨by omega, by omega⟩]
        refine (planned_atLeast h (v + 1)).congr (fun u hu => ?_) h
        have := lower_le hu
        simp only [Restriction.Allows]
        omega
      · next hl =>
        split
        · next hu =>
          rw [Value.check_eq_ok ⟨by omega, by omega⟩]
          refine (planned_atMost h (v - 1)).congr (fun u hu => ?_) h
          have := le_upper hu
          simp only [Restriction.Allows]
          omega
        · next hu =>
          split
          · next he =>
            exact planned_singleton h ⟨he, hv, by omega, by omega⟩ fun u _ => Iff.rfl
          · next he =>
            refine Or.inl ⟨[], rfl, trivial, Or.inr ⟨by simpa using he, rfl, ?_, ?_⟩⟩
            · exact fun hx => hl hx.symm
            · exact fun hx => hu hx.symm
  · simp only [Refusal.guard, bind, Except.bind, hv, decide_false, Bool.not_false, if_true]
    exact planned_nil fun u hu (ha : u = v) => hv (ha ▸ hu)

/-- Members strictly between the bounds can be taken one by one. -/
theorem fitAll_punctured (he : d.enumerated = true) (values : List Int) (hnodup : values.Nodup)
    (hvalues : ∀ v ∈ values, v ∈ d.members ∧ d.lower < v ∧ v < d.upper) :
    FitAll d (values.map .punctured) ∧ (d.applyAll (values.map .punctured)).members =
      d.members.filter (· ∉ values) := by
  induction values generalizing d with
  | nil => exact ⟨trivial, by simp [applyAll]⟩
  | cons v values ih =>
      obtain ⟨hv, hl, hu⟩ := hvalues v List.mem_cons_self
      have hfit : (Change.punctured v).Fits d := ⟨he, hv, hl, hu⟩
      have hmembers := members_apply h hfit
      obtain ⟨hnot, hnodup⟩ := List.nodup_cons.1 hnodup
      obtain ⟨hfits, hall⟩ := ih (wellFormed_apply h hfit) (by rw [enumerated_apply, he]) hnodup
        (fun u hu' => by
          obtain ⟨hm, hl', hu''⟩ := hvalues u (List.mem_cons_of_mem _ hu')
          refine ⟨?_, by simpa [apply] using hl', by simpa [apply] using hu''⟩
          rw [hmembers]
          exact Finset.mem_filter.2 ⟨hm, fun hx => hnot (hx ▸ hu')⟩)
      refine ⟨⟨hfit, hfits⟩, ?_⟩
      rw [List.map_cons, applyAll, List.foldl_cons]
      refine hall.trans ?_
      rw [hmembers, Finset.filter_filter]
      refine Finset.filter_congr fun u _ => ?_
      simp [Change.Keeps]

theorem planned_outside (lo hi : Int) : Planned d (.outside lo hi) (d.planOutside lo hi) := by
  have hleast := h.least_le
  have hgreatest := h.le_greatest
  have hbounds := h.lower_le_upper
  unfold planOutside
  split
  · next hout =>
    refine planned_nil fun u hu ha => ?_
    have := lower_le hu
    have := le_upper hu
    omega
  · next hin =>
    split
    · next hall =>
      refine planned_refused fun u hu ha => ha ?_
      have := lower_le hu
      have := le_upper hu
      omega
    · next hsome =>
      split
      · next hl =>
        rw [Value.check_eq_ok ⟨by omega, by omega⟩]
        refine (planned_atLeast h (hi + 1)).congr (fun u hu => ?_) h
        have := lower_le hu
        simp only [Restriction.Allows]
        omega
      · next hl =>
        split
        · next hu =>
          rw [Value.check_eq_ok ⟨by omega, by omega⟩]
          refine (planned_atMost h (lo - 1)).congr (fun u hu => ?_) h
          have := le_upper hu
          simp only [Restriction.Allows]
          omega
        · next hu =>
          split
          · next he =>
            simp only [Refusal.guard, bind, Except.bind, pure, Except.pure]
            rw [listUp_eq h _ _ _ (by omega) (by omega)]
            set values := ((((List.range (hi - lo + 1).toNat).map fun i : Nat => lo + i).filter
              fun u => d.bit u).take (hi - lo + 1).toNat) with hvalues
            have htake : values = ((List.range (hi - lo + 1).toNat).map
                fun i : Nat => lo + (i : Int)).filter fun u => d.bit u := by
              refine List.take_of_length_le ((List.length_filter_le _ _).trans ?_)
              simp
            have hmem : ∀ u, u ∈ values ↔ u ∈ d.members ∧ lo ≤ u ∧ u ≤ hi := by
              intro u
              rw [htake]
              simp only [List.mem_filter, List.mem_map, List.mem_range, mem_members]
              constructor
              · rintro ⟨⟨i, hi', rfl⟩, hbit⟩
                exact ⟨⟨⟨by omega, by omega⟩, hbit⟩, by omega, by omega⟩
              · rintro ⟨⟨-, hbit⟩, hlo, hhi⟩
                exact ⟨⟨(u - lo).toNat, by omega, by omega⟩, hbit⟩
            have hnodup : values.Nodup := by
              rw [htake]
              refine List.Nodup.filter _ (List.Nodup.map (fun i j hij => ?_) List.nodup_range)
              simpa using hij
            obtain ⟨hfit, hmembers⟩ := fitAll_punctured h he values hnodup fun u hu' => by
              obtain ⟨hm, hlo, hhi⟩ := (hmem u).1 hu'
              exact ⟨hm, by omega, by omega⟩
            refine Or.inl ⟨_, rfl, hfit, Or.inl (hmembers.trans ?_)⟩
            refine Finset.filter_congr fun u hu' => ?_
            rw [hmem]
            simp only [Restriction.Allows]
            tauto
          · next he =>
            refine Or.inl ⟨[], rfl, trivial, Or.inr ⟨by simpa using he, rfl, ?_, ?_⟩⟩
            · exact fun hx => by omega
            · exact fun hx => by omega

/-- Every restriction is planned, or refused for want of an allowed member. -/
theorem planned_plan (r : Restriction) : Planned d r (d.plan r) := by
  cases r with
  | atLeast v => exact planned_atLeast h v
  | atMost v => exact planned_atMost h v
  | without v => exact planned_without h v
  | outside lo hi => exact planned_outside h lo hi
  | exactly v => exact planned_exactly h v

end Laws

end Narrowing.Domain
