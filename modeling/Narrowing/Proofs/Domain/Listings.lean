import Narrowing.Proofs.Domain.Members

/-!
Listings of a domain: its members downwards, and its maximal runs of consecutive members in either
direction. A walk along the bits stops at the end of a run, and the nearest member behind that end is
where the next run starts, so by induction on the values that are left a listing has every maximal
run, each of them once.
-/

namespace Narrowing

/-- A maximal run of consecutive values of `V`. -/
def Span.IsRun (V : Finset Int) (r : Span) : Prop :=
  r.first ≤ r.last ∧ (∀ u, r.first ≤ u → u ≤ r.last → u ∈ V) ∧ r.first - 1 ∉ V ∧ r.last + 1 ∉ V

namespace Span

variable {V : Finset Int} {r q : Span}

theorem IsRun.first_mem (h : r.IsRun V) : r.first ∈ V := h.2.1 _ (le_refl _) h.1

theorem IsRun.last_mem (h : r.IsRun V) : r.last ∈ V := h.2.1 _ h.1 (le_refl _)

/-- A run that starts within another one is that one. -/
theorem IsRun.eq_of_first_mem (hr : r.IsRun V) (hq : q.IsRun V) (hfirst : q.first ≤ r.first)
    (hlast : r.first ≤ q.last) : r = q := by
  obtain ⟨hrle, hrall, hrbefore, hrbehind⟩ := hr
  obtain ⟨-, hqall, -, hqbehind⟩ := hq
  have hsame : r.first = q.first := by
    by_contra hne
    exact hrbefore (hqall _ (by omega) (by omega))
  have hends : r.last = q.last := by
    rcases lt_trichotomy r.last q.last with hlt | heq | hgt
    · exact absurd (hqall (r.last + 1) (by omega) (by omega)) hrbehind
    · exact heq
    · exact absurd (hrall (q.last + 1) (by omega) (by omega)) hqbehind
  obtain ⟨rf, rl⟩ := r
  obtain ⟨qf, ql⟩ := q
  exact congrArg₂ Span.mk hsame hends

/-- Two listings in the order of the first values agree when they have the same items. -/
theorem eq_of_mem_iff {l l' : List Span} (h : l.Pairwise fun a b => a.first < b.first)
    (h' : l'.Pairwise fun a b => a.first < b.first) (hmem : ∀ r, r ∈ l ↔ r ∈ l') : l = l' := by
  have hperm : l.Perm l' := by
    refine (List.perm_ext_iff_of_nodup (h.imp ?_) (h'.imp ?_)).2 hmem
    · rintro a b hab rfl
      exact lt_irrefl _ hab
    · rintro a b hab rfl
      exact lt_irrefl _ hab
  refine List.Perm.eq_of_pairwise (fun a b _ _ hab hba => ?_) h h' hperm
  exact absurd hab (lt_asymm hba)

end Span

namespace Domain

variable {d : Domain} (h : d.WellFormed)
include h

/-! ### Members downwards -/

theorem listDown_eq (n limit : Nat) (v : Int) (hv : v ≤ d.upper) (hn : d.lower - 1 ≤ v - n) :
    d.listDown n limit v =
      .ok ((((List.range n).map fun i : Nat => v - i).filter fun u => d.bit u).take limit) := by
  induction n generalizing v limit with
  | zero => cases limit <;> rfl
  | succ n ih =>
      cases limit with
      | zero => rfl
      | succ limit =>
          have hp := h.isPresent_eq v (by omega) hv
          have htail : (List.range n).map (fun i : Nat => v - ((i + 1 : Nat) : Int)) =
              (List.range n).map fun i : Nat => v - 1 - i := by
            refine List.map_congr_left fun i _ => ?_
            push_cast
            omega
          rw [listDown, hp, List.range_succ_eq_map, List.map_cons, List.map_map]
          simp only [Function.comp_def, htail, Nat.cast_zero, sub_zero]
          cases hb : d.bit v with
          | true =>
              rw [List.filter_cons_of_pos hb, List.take_succ_cons]
              simp only [bind, Except.bind, if_true]
              rw [ih limit (v - 1) (by omega) (by omega)]
              rfl
          | false =>
              rw [List.filter_cons_of_neg (by simp [hb])]
              simp only [bind, Except.bind]
              exact ih (limit + 1) (v - 1) (by omega) (by omega)

/-- A listing of all values downwards has the members in descending order. -/
theorem descending_eq {limit : Nat} (hlimit : d.members.card ≤ limit) :
    ∃ l, d.descending limit = .ok l ∧ l.Pairwise (· > ·) ∧ ∀ v, v ∈ l ↔ v ∈ d.members := by
  have hle := h.lower_le_upper
  set all := ((List.range d.width).map fun i : Nat => d.upper - i).filter fun u => d.bit u with hall
  have hmem : ∀ v, v ∈ all ↔ v ∈ d.members := by
    intro v
    simp only [hall, List.mem_filter, List.mem_map, List.mem_range, mem_members, width]
    refine and_congr_left fun _ => ⟨?_, fun hv => ⟨(d.upper - v).toNat, by omega, by omega⟩⟩
    rintro ⟨i, hi, rfl⟩
    omega
  have hsorted : all.Pairwise (· > ·) := by
    refine List.Pairwise.filter _ (List.Pairwise.map _ ?_ List.pairwise_lt_range)
    intro i j hij
    omega
  have hlength : all.length ≤ limit := by
    have hnodup : all.Nodup := hsorted.imp fun hlt => ne_of_gt hlt
    have hset : all.toFinset = d.members := by
      ext v
      rw [List.mem_toFinset, hmem]
    rw [← hset, List.toFinset_card_of_nodup hnodup] at hlimit
    exact hlimit
  refine ⟨all, ?_, hsorted, hmem⟩
  rw [descending, listDown_eq h d.width limit d.upper (le_refl _) (by unfold width; omega),
    List.take_of_length_le hlength]

/-! ### One run -/

/-- Going up as far as there are members ends at the last value of a run. -/
theorem climb_eq (n : Nat) (v : Int) (hv : v ∈ d.members) (hn : v + n = d.upper) :
    ∃ w, d.climb n v = .ok w ∧ v ≤ w ∧ (∀ u, v ≤ u → u ≤ w → u ∈ d.members) ∧
      w + 1 ∉ d.members := by
  have hl := lower_le hv
  induction n generalizing v with
  | zero =>
      refine ⟨v, rfl, le_refl v, fun u hvu huv => ?_, fun hm => by have := le_upper hm; omega⟩
      rwa [le_antisymm huv hvu]
  | succ n ih =>
      have hr : Value.InRange (v + 1) := by
        have := h.least_le
        have := h.le_greatest
        constructor <;> omega
      have hp := h.isPresent_eq (v + 1) (by omega) (by omega)
      rw [climb, Value.check_eq_ok hr]
      simp only [bind, Except.bind, hp]
      cases hb : d.bit (v + 1) with
      | true =>
          have hmem : v + 1 ∈ d.members := mem_members.2 ⟨⟨by omega, by omega⟩, hb⟩
          obtain ⟨w, hw, hle, hall, hend⟩ := ih (v + 1) hmem (by omega) (by omega)
          refine ⟨w, hw, by omega, fun u hvu huw => ?_, hend⟩
          rcases Int.lt_or_eq_of_le hvu with hlt | rfl
          · exact hall u (by omega) huw
          · exact hv
      | false =>
          refine ⟨v, rfl, le_refl v, fun u hvu huv => ?_, fun hm => ?_⟩
          · rwa [le_antisymm huv hvu]
          · exact absurd (mem_members.1 hm).2 (by simp [hb])

/-- Going down as far as there are members ends at the first value of a run. -/
theorem descend_eq (n : Nat) (v : Int) (hv : v ∈ d.members) (hn : v - n = d.lower) :
    ∃ w, d.descend n v = .ok w ∧ w ≤ v ∧ (∀ u, w ≤ u → u ≤ v → u ∈ d.members) ∧
      w - 1 ∉ d.members := by
  have hu := le_upper hv
  induction n generalizing v with
  | zero =>
      refine ⟨v, rfl, le_refl v, fun u hvu huv => ?_, fun hm => by have := lower_le hm; omega⟩
      rwa [le_antisymm huv hvu]
  | succ n ih =>
      have hr : Value.InRange (v - 1) := by
        have := h.least_le
        have := h.le_greatest
        constructor <;> omega
      have hp := h.isPresent_eq (v - 1) (by omega) (by omega)
      rw [descend, Value.check_eq_ok hr]
      simp only [bind, Except.bind, hp]
      cases hb : d.bit (v - 1) with
      | true =>
          have hmem : v - 1 ∈ d.members := mem_members.2 ⟨⟨by omega, by omega⟩, hb⟩
          obtain ⟨w, hw, hle, hall, hend⟩ := ih (v - 1) hmem (by omega) (by omega)
          refine ⟨w, hw, by omega, fun u hwu huv => ?_, hend⟩
          rcases Int.lt_or_eq_of_le huv with hlt | rfl
          · exact hall u hwu (by omega)
          · exact hv
      | false =>
          refine ⟨v, rfl, le_refl v, fun u hvu huv => ?_, fun hm => ?_⟩
          · rwa [le_antisymm huv hvu]
          · exact absurd (mem_members.1 hm).2 (by simp [hb])

/-- Every member is in a run. -/
theorem exists_isRun {v : Int} (hv : v ∈ d.members) :
    ∃ r : Span, r.IsRun d.members ∧ r.first ≤ v ∧ v ≤ r.last := by
  have hl := lower_le hv
  have hu := le_upper hv
  obtain ⟨last, -, hvl, hup, hbehind⟩ := climb_eq h (d.upper - v).toNat v hv (by omega)
  obtain ⟨first, -, hfv, hdown, hbefore⟩ := descend_eq h (v - d.lower).toNat v hv (by omega)
  refine ⟨⟨first, last⟩, ⟨hfv.trans hvl, fun u hfu hul => ?_, hbefore, hbehind⟩, hfv, hvl⟩
  rcases le_total u v with huv | hvu
  · exact hdown u hfu huv
  · exact hup u hvu hul

/-- A run that starts behind a gap, and the first member behind that run. -/
theorem runStartingAt_eq {first : Int} (hfirst : first ∈ d.members) (hgap : first - 1 ∉ d.members) :
    ∃ last o, d.runStartingAt first = .ok (last, o) ∧ Span.IsRun d.members ⟨first, last⟩ ∧
      FirstFrom d.members (last + 1) o := by
  have hend : ∃ last, d.endOfRun first = .ok last ∧ Span.IsRun d.members ⟨first, last⟩ := by
    unfold endOfRun
    split
    · next hs =>
      refine ⟨d.upper, rfl, le_upper hfirst, fun u hfu huu => ?_, hgap, fun hm => ?_⟩
      · refine (mem_members_of_interval (by simp [enumerated, hs])).2 ⟨?_, huu⟩
        exact (lower_le hfirst).trans hfu
      · exact absurd (le_upper hm) (not_le.2 (Int.lt_succ d.upper))
    · have := le_upper hfirst
      obtain ⟨w, hw, hle, hall, hbehind⟩ := climb_eq h (d.upper - first).toNat first hfirst (by omega)
      exact ⟨w, hw, hle, hall, hgap, hbehind⟩
  obtain ⟨last, hlast, hrun⟩ := hend
  obtain ⟨o, ho, hnext⟩ := next_eq h last
  refine ⟨last, o, ?_, hrun, hnext⟩
  rw [runStartingAt, hlast]
  simp only [bind, Except.bind, ho]
  rfl

/-- A run that ends before a gap, and the last member before that run. -/
theorem runEndingAt_eq {last : Int} (hlast : last ∈ d.members) (hgap : last + 1 ∉ d.members) :
    ∃ first o, d.runEndingAt last = .ok (first, o) ∧ Span.IsRun d.members ⟨first, last⟩ ∧
      LastUpTo d.members (first - 1) o := by
  have hstart : ∃ first, d.startOfRun last = .ok first ∧ Span.IsRun d.members ⟨first, last⟩ := by
    unfold startOfRun
    split
    · next hs =>
      refine ⟨d.lower, rfl, lower_le hlast, fun u hlu hul => ?_, fun hm => ?_, hgap⟩
      · refine (mem_members_of_interval (by simp [enumerated, hs])).2 ⟨hlu, ?_⟩
        exact hul.trans (le_upper hlast)
      · exact absurd (lower_le hm) (not_le.2 (Int.pred_self_lt d.lower))
    · have := lower_le hlast
      obtain ⟨w, hw, hle, hall, hbefore⟩ := descend_eq h (last - d.lower).toNat last hlast (by omega)
      exact ⟨w, hw, hle, hall, hbefore, hgap⟩
  obtain ⟨first, hfirst, hrun⟩ := hstart
  obtain ⟨o, ho, hprevious⟩ := previous_eq h first
  refine ⟨first, o, ?_, hrun, hprevious⟩
  rw [runEndingAt, hfirst]
  simp only [bind, Except.bind, ho]
  rfl

/-! ### All runs -/

/-- The runs from one that starts behind a gap are all the maximal runs from there on. -/
theorem runsFrom_eq (n : Nat) {first : Int} (hfirst : first ∈ d.members)
    (hgap : first - 1 ∉ d.members) (hn : d.upper - first < n) :
    ∃ l, (d.runsFrom n first).toList = .ok l ∧ l.Pairwise (fun a b => a.last < b.first) ∧
      ∀ r, r ∈ l ↔ r.IsRun d.members ∧ first ≤ r.first := by
  induction n generalizing first with
  | zero =>
      have := le_upper hfirst
      omega
  | succ n ih =>
      obtain ⟨last, o, heq, hrun, hnext⟩ := runStartingAt_eq h hfirst hgap
      have hle : first ≤ last := hrun.1
      have hsplit : ∀ r : Span, r.IsRun d.members → first ≤ r.first →
          r = ⟨first, last⟩ ∨ last + 1 ≤ r.first := by
        intro r hr hr'
        by_cases hend : r.first ≤ last
        · exact Or.inl (hr.eq_of_first_mem hrun hr' hend)
        · exact Or.inr (by omega)
      cases o with
      | none =>
          refine ⟨[⟨first, last⟩], ?_, List.pairwise_singleton _ _, fun r => ?_⟩
          · simp only [runsFrom, heq]
            rfl
          · rw [List.mem_singleton]
            constructor
            · rintro rfl
              exact ⟨hrun, le_refl first⟩
            · rintro ⟨hr, hr'⟩
              refine (hsplit r hr hr').resolve_right fun hbehind => ?_
              exact absurd (hnext _ hr.first_mem) (not_lt.2 hbehind)
      | some w =>
          obtain ⟨hw, hlw, hleast⟩ := hnext
          have hlw' : last + 1 < w := by
            refine lt_of_le_of_ne hlw fun heq' => hrun.2.2.2 ?_
            simpa only [heq'] using hw
          have hwgap : w - 1 ∉ d.members := fun hm => by
            have := hleast _ hm (by omega)
            omega
          obtain ⟨l, hl, hsorted, hmem⟩ := ih hw hwgap (by omega)
          refine ⟨⟨first, last⟩ :: l, ?_, ?_, fun r => ?_⟩
          · simp only [runsFrom, heq, Enumeration.toList, hl]
            rfl
          · refine List.pairwise_cons.2 ⟨fun r hr => ?_, hsorted⟩
            have := ((hmem r).1 hr).2
            change last < r.first
            omega
          · rw [List.mem_cons, hmem]
            constructor
            · rintro (rfl | ⟨hr, hr'⟩)
              · exact ⟨hrun, le_refl first⟩
              · exact ⟨hr, by omega⟩
            · rintro ⟨hr, hr'⟩
              exact (hsplit r hr hr').imp_right fun hbehind => ⟨hr, hleast _ hr.first_mem hbehind⟩

/-- The runs down from one that ends before a gap are all the maximal runs down from there. -/
theorem runsDownFrom_eq (n : Nat) {last : Int} (hlast : last ∈ d.members)
    (hgap : last + 1 ∉ d.members) (hn : last - d.lower < n) :
    ∃ l, (d.runsDownFrom n last).toList = .ok l ∧ l.Pairwise (fun a b => b.last < a.first) ∧
      ∀ r, r ∈ l ↔ r.IsRun d.members ∧ r.last ≤ last := by
  induction n generalizing last with
  | zero =>
      have := lower_le hlast
      omega
  | succ n ih =>
      obtain ⟨first, o, heq, hrun, hprevious⟩ := runEndingAt_eq h hlast hgap
      have hle : first ≤ last := hrun.1
      have hsplit : ∀ r : Span, r.IsRun d.members → r.last ≤ last →
          r = ⟨first, last⟩ ∨ r.last ≤ first - 1 := by
        intro r hr hr'
        by_cases hstart : first ≤ r.last
        · refine Or.inl ?_
          by_cases hin : first ≤ r.first
          · exact hr.eq_of_first_mem hrun hin (hr.1.trans hr')
          · exact (hrun.eq_of_first_mem hr (by change r.first ≤ first; omega) hstart).symm
        · exact Or.inr (by omega)
      cases o with
      | none =>
          refine ⟨[⟨first, last⟩], ?_, List.pairwise_singleton _ _, fun r => ?_⟩
          · simp only [runsDownFrom, heq]
            rfl
          · rw [List.mem_singleton]
            constructor
            · rintro rfl
              exact ⟨hrun, le_refl last⟩
            · rintro ⟨hr, hr'⟩
              refine (hsplit r hr hr').resolve_right fun hbefore => ?_
              exact absurd (hprevious _ hr.last_mem) (not_lt.2 hbefore)
      | some w =>
          obtain ⟨hw, hwf, hgreatest⟩ := hprevious
          have hwf' : w < first - 1 := by
            refine lt_of_le_of_ne hwf fun heq' => hrun.2.2.1 ?_
            simpa only [← heq'] using hw
          have hwgap : w + 1 ∉ d.members := fun hm => by
            have := hgreatest _ hm (by omega)
            omega
          obtain ⟨l, hl, hsorted, hmem⟩ := ih hw hwgap (by omega)
          refine ⟨⟨first, last⟩ :: l, ?_, ?_, fun r => ?_⟩
          · simp only [runsDownFrom, heq, Enumeration.toList, hl]
            rfl
          · refine List.pairwise_cons.2 ⟨fun r hr => ?_, hsorted⟩
            have := ((hmem r).1 hr).2
            change r.last < first
            omega
          · rw [List.mem_cons, hmem]
            constructor
            · rintro (rfl | ⟨hr, hr'⟩)
              · exact ⟨hrun, le_refl last⟩
              · exact ⟨hr, by omega⟩
            · rintro ⟨hr, hr'⟩
              exact (hsplit r hr hr').imp_right fun hbefore => ⟨hr, hgreatest _ hr.last_mem hbefore⟩

/-- The maximal runs are listed upwards, and the same ones downwards. -/
theorem runs_eq :
    ∃ l, d.runs.toList = .ok l ∧ d.runsDown.toList = .ok l.reverse ∧
      l.Pairwise (fun a b => a.last < b.first) ∧ ∀ r, r ∈ l ↔ r.IsRun d.members := by
  have hle := h.lower_le_upper
  obtain ⟨up, hup, hsorted, hmem⟩ := runsFrom_eq h d.width h.lower_mem
    (fun hm => absurd (lower_le hm) (by omega)) (by unfold width; omega)
  obtain ⟨down, hdown, hsorted', hmem'⟩ := runsDownFrom_eq h d.width h.upper_mem
    (fun hm => absurd (le_upper hm) (by omega)) (by unfold width; omega)
  have hup_iff : ∀ r, r ∈ up ↔ r.IsRun d.members := fun r =>
    (hmem r).trans (and_iff_left_of_imp fun hr => lower_le hr.first_mem)
  have hdown_iff : ∀ r, r ∈ down ↔ r.IsRun d.members := fun r =>
    (hmem' r).trans (and_iff_left_of_imp fun hr => le_upper hr.last_mem)
  have hupward : up.Pairwise fun a b => a.first < b.first :=
    hsorted.imp_of_mem fun ha _ hab => ((hup_iff _).1 ha).1.trans_lt hab
  have hdownward : down.reverse.Pairwise fun a b => a.first < b.first :=
    List.pairwise_reverse.2 (hsorted'.imp_of_mem fun _ hb hab => ((hdown_iff _).1 hb).1.trans_lt hab)
  have hsame : down.reverse = up :=
    Span.eq_of_mem_iff hdownward hupward fun r => by rw [List.mem_reverse, hdown_iff, hup_iff]
  refine ⟨up, hup, ?_, hsorted, hup_iff⟩
  rw [← hsame, List.reverse_reverse]
  exact hdown

end Domain

end Narrowing
