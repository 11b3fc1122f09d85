import Narrowing.Domain.Store
import Narrowing.Proofs.Domain.Plan

/-!
What restrictions do to the store of domains. Every one of them, on whatever variable, is a series
of changes that fit; `Narrows` is that series, and what one change keeps, the series keeps: domains
stay well-formed, lose members only, and every change is waiting to be reported. What a rewind would
give is not affected by changes made since, so it is settled when a frame is opened.
-/

namespace Narrowing

/-! ### Tables of domains -/

namespace Table

variable {t : Table DomainId Domain}

/-- The members of the domain under a name. A name without a domain has none. -/
def members (t : Table DomainId Domain) (id : DomainId) : Finset Int :=
  match t.get? id with
  | some d => d.members
  | none => ∅

/-- All domains are well-formed. -/
def WellFormed (t : Table DomainId Domain) : Prop :=
  ∀ id d, t.get? id = some d → d.WellFormed

/-- Every domain has the value that `σ` says. -/
def Admits (t : Table DomainId Domain) (σ : DomainId → Int) : Prop :=
  ∀ id d, t.get? id = some d → σ id ∈ d.members

theorem members_of_get? {id : DomainId} {d : Domain} (h : t.get? id = some d) :
    t.members id = d.members := by
  rw [members, h]

/-- What is below all bounds is in no domain. -/
theorem notMem_members_of_lt_lower {v : Int} (h : ∀ d ∈ t.entries.toList, v < d.lower)
    (id : DomainId) : v ∉ t.members id := by
  intro hv
  cases hd : t.get? id with
  | none =>
      rw [members, hd] at hv
      exact absurd hv (Finset.notMem_empty v)
  | some d =>
      rw [members_of_get? hd] at hv
      have hlower := h d (Array.mem_toList_iff.2 (Array.mem_of_getElem? hd))
      exact absurd (Domain.lower_le hv) (not_le.2 hlower)

theorem Admits.mem {σ : DomainId → Int} (h : t.Admits σ) {id : DomainId} (hid : id.index < t.size) :
    σ id ∈ t.members id := by
  cases hd : t.get? id with
  | none => exact absurd ((t.get?_eq_none_iff id).1 hd) (not_le.2 hid)
  | some d => exact members_of_get? hd ▸ h id d hd

theorem get?_update (t : Table DomainId Domain) (f : Domain → Domain) (i id : DomainId) :
    (t.update i f).get? id = if id = i then (t.get? id).map f else t.get? id := by
  by_cases h : id = i
  · rw [if_pos h, h, get?_update_self]
  · refine (get?_update_of_ne t f fun he => h ?_).trans (if_neg h).symm
    cases id
    cases i
    exact congrArg DomainId.mk he.symm

theorem ext_get? {t u : Table DomainId Domain} (hget : ∀ id, t.get? id = u.get? id) : t = u := by
  cases t with
  | mk entries =>
      cases u with
      | mk entries' =>
          congr 1
          exact Array.ext_getElem? fun i => hget ⟨i⟩

end Table

namespace Domains

variable {B : DomainId → Prop} {cause : Cause} {s s' s'' : Domains}

/-- `s'` came from `s` by changes of domains in `B` made for `cause`, all of which fitted. -/
inductive Narrows (B : DomainId → Prop) (cause : Cause) (s : Domains) : Domains → Prop
  | refl : Narrows B cause s s
  | change {s' : Domains} {id : DomainId} {d : Domain} {c : Change} (h : Narrows B cause s s')
      (hid : B id) (hd : s'.table.get? id = some d) (hc : c.Fits d) :
      Narrows B cause s (s'.change id cause c)

namespace Narrows

theorem trans (h : Narrows B cause s s') (h' : Narrows B cause s' s'') : Narrows B cause s s'' := by
  induction h' with
  | refl => exact h
  | change _ hid hd hc ih => exact ih.change hid hd hc

theorem mono {B' : DomainId → Prop} (h : Narrows B cause s s') (hB : ∀ id, B id → B' id) :
    Narrows B' cause s s' := by
  induction h with
  | refl => exact .refl
  | change _ hid hd hc ih => exact ih.change (hB _ hid) hd hc

end Narrows

theorem get?_change {id : DomainId} {d : Domain} {c : Change} (hd : s.table.get? id = some d)
    (j : DomainId) : (s.change id cause c).table.get? j =
      if j = id then some (d.apply c) else s.table.get? j := by
  change (s.table.update id (·.apply c)).get? j = _
  rw [Table.get?_update]
  split
  · next hj => rw [hj, hd]; rfl
  · rfl

/-- A series of changes that fit, made one after the other. -/
theorem narrows_changeAll (cause : Cause) {id : DomainId} {d : Domain} (hid : B id)
    (hd : s.table.get? id = some d) {changes : List Change} (hfit : d.FitAll changes) :
    Narrows B cause s (s.changeAll id cause changes) ∧
      ∀ j, (s.changeAll id cause changes).table.get? j =
        if j = id then some (d.applyAll changes) else s.table.get? j := by
  induction changes generalizing s d with
  | nil =>
      refine ⟨.refl, fun j => ?_⟩
      split
      · next hj => rw [hj]; exact hd
      · rfl
  | cons c rest ih =>
      obtain ⟨hc, hrest⟩ := hfit
      have hd' : (s.change id cause c).table.get? id = some (d.apply c) := by
        rw [get?_change hd, if_pos rfl]
      obtain ⟨hnarrows, hget⟩ := ih hd' hrest
      refine ⟨(Narrows.refl.change hid hd hc).trans hnarrows, fun j => (hget j).trans ?_⟩
      by_cases hj : j = id
      · rw [if_pos hj, if_pos hj]
        rfl
      · rw [if_neg hj, if_neg hj, get?_change hd, if_neg hj]

/-- What the domain under a name becomes: it keeps its kind and loses members only. -/
theorem Narrows.get?_eq_some (h : Narrows B cause s s') (hwf : s.table.WellFormed) {id : DomainId}
    {d : Domain} (hd : s.table.get? id = some d) :
    ∃ d', s'.table.get? id = some d' ∧ d'.WellFormed ∧ d'.enumerated = d.enumerated ∧
      d'.members ⊆ d.members := by
  induction h with
  | refl => exact ⟨d, hd, hwf id d hd, rfl, Finset.Subset.refl _⟩
  | @change _ i di c _ hi hdi hc ih =>
      obtain ⟨d', hd', hwf', hkind, hsub⟩ := ih
      by_cases hid : id = i
      · subst hid
        obtain rfl : di = d' := Option.some.inj (hdi.symm.trans hd')
        refine ⟨di.apply c, by rw [get?_change hdi, if_pos rfl], Domain.wellFormed_apply hwf' hc,
          (Domain.enumerated_apply c).trans hkind, ?_⟩
        rw [Domain.members_apply hwf' hc]
        exact (Finset.filter_subset _ _).trans hsub
      · exact ⟨d', by rw [get?_change hdi, if_neg hid, hd'], hwf', hkind, hsub⟩

theorem Narrows.size_eq (h : Narrows B cause s s') : s'.table.size = s.table.size := by
  induction h with
  | refl => rfl
  | change _ _ _ _ ih =>
      exact (Table.size_update _ _ _).trans ih

theorem Narrows.exists_of_get? (h : Narrows B cause s s') {id : DomainId} {d' : Domain}
    (hd' : s'.table.get? id = some d') : ∃ d, s.table.get? id = some d := by
  cases hd : s.table.get? id with
  | some d => exact ⟨d, rfl⟩
  | none =>
      rw [Table.get?_eq_none_iff, ← h.size_eq, ← Table.get?_eq_none_iff, hd'] at hd
      exact nomatch hd

theorem Narrows.wellFormed (h : Narrows B cause s s') (hwf : s.table.WellFormed) :
    s'.table.WellFormed := by
  intro id d' hd'
  obtain ⟨d, hd⟩ := h.exists_of_get? hd'
  obtain ⟨_, hd'', hwf', -⟩ := h.get?_eq_some hwf hd
  obtain rfl := Option.some.inj (hd'.symm.trans hd'')
  exact hwf'

theorem Narrows.members_subset (h : Narrows B cause s s') (hwf : s.table.WellFormed)
    (id : DomainId) : s'.table.members id ⊆ s.table.members id := by
  cases hd' : s'.table.get? id with
  | none => simp [Table.members, hd']
  | some d' =>
      obtain ⟨d, hd⟩ := h.exists_of_get? hd'
      obtain ⟨_, hd'', -, -, hsub⟩ := h.get?_eq_some hwf hd
      obtain rfl := Option.some.inj (hd'.symm.trans hd'')
      rwa [Table.members_of_get? hd, Table.members_of_get? hd']

theorem Narrows.admits (h : Narrows B cause s s') (hwf : s.table.WellFormed) {σ : DomainId → Int}
    (hσ : s'.table.Admits σ) : s.table.Admits σ := by
  intro id d hd
  obtain ⟨d', hd', -, -, hsub⟩ := h.get?_eq_some hwf hd
  exact hsub (hσ id d' hd')

/-! ### What is waiting to be reported -/

/-- The new occurrences are about the domains that were changed. -/
theorem Narrows.unreported_eq (h : Narrows B cause s s') :
    ∃ new, s'.unreported.toList = s.unreported.toList ++ new ∧
      ∀ o ∈ new, B o.domain ∧ o.cause = cause ∧ o.events ≠ ∅ := by
  induction h with
  | refl => exact ⟨[], by simp, by simp⟩
  | @change s' i di c _ hi hdi hc ih =>
      obtain ⟨new, hnew, hall⟩ := ih
      refine ⟨new ++ [⟨i, c.events, cause⟩], ?_, fun o ho => ?_⟩
      · rw [← List.append_assoc, ← hnew]
        exact Array.toList_push
      · rcases List.mem_append.1 ho with ho | ho
        · exact hall o ho
        · obtain rfl := List.mem_singleton.1 ho
          exact ⟨hi, rfl, Domain.events_ne_empty hc⟩

theorem Narrows.mem_unreported (h : Narrows B cause s s') {o : Occurrence}
    (ho : o ∈ s.unreported.toList) : o ∈ s'.unreported.toList := by
  obtain ⟨new, hnew, -⟩ := h.unreported_eq
  rw [hnew]
  exact List.mem_append_left _ ho

/-- A domain is as it was, or a change of it is waiting to be reported. -/
theorem Narrows.get?_eq_or (h : Narrows B cause s s') (id : DomainId) :
    s'.table.get? id = s.table.get? id ∨
      ∃ o ∈ s'.unreported.toList, o.domain = id ∧ o.cause = cause ∧ o.events ≠ ∅ := by
  induction h with
  | refl => exact Or.inl rfl
  | @change s' i di c _ hi hdi hc ih =>
      by_cases hid : id = i
      · refine Or.inr ⟨⟨i, c.events, cause⟩, ?_, hid.symm, rfl, Domain.events_ne_empty hc⟩
        exact Array.toList_push ▸ List.mem_append_right _ (List.mem_singleton_self _)
      · rcases ih with hsame | ⟨o, ho, hreported⟩
        · exact Or.inl (by rw [get?_change hdi, if_neg hid, hsame])
        · exact Or.inr ⟨o, Array.toList_push ▸ List.mem_append_left _ ho, hreported⟩

/-- A domain that comes to have one value had it before, or the change of a bound is waiting to be
reported. -/
theorem Narrows.fixed_or (h : Narrows B cause s s') (hwf : s.table.WellFormed) {id : DomainId}
    {v : Int} (hfixed : ∀ u ∈ s'.table.members id, u = v) :
    (∀ u ∈ s.table.members id, u = v) ∨ ∃ o ∈ s'.unreported.toList, o.domain = id ∧
      o.cause = cause ∧ ∃ e : Event, e ∈ EventSet.bounds ∧ e ∈ o.events := by
  induction h with
  | refl => exact Or.inl hfixed
  | @change s' i di c hn hi hdi hc ih =>
      have hlater : (∃ o ∈ s'.unreported.toList, o.domain = id ∧ o.cause = cause ∧
          ∃ e : Event, e ∈ EventSet.bounds ∧ e ∈ o.events) →
          ∃ o ∈ (s'.change i cause c).unreported.toList, o.domain = id ∧ o.cause = cause ∧
            ∃ e : Event, e ∈ EventSet.bounds ∧ e ∈ o.events := by
        rintro ⟨o, ho, hreported⟩
        exact ⟨o, Array.toList_push ▸ List.mem_append_left _ ho, hreported⟩
      by_cases hid : id = i
      · subst hid
        have hdi' : (s'.change id cause c).table.get? id = some (di.apply c) := by
          rw [get?_change hdi, if_pos rfl]
        have hwfi := hn.wellFormed hwf id di hdi
        rw [Table.members_of_get? hdi', Domain.members_apply hwfi hc] at hfixed
        cases c with
        | narrowed fromLower fromUpper toLower toUpper fromSize toSize =>
            obtain ⟨⟨rfl, rfl, -⟩, -, -, hmoved⟩ := hc
            refine Or.inr ⟨_, Array.toList_push ▸ List.mem_append_right _
              (List.mem_singleton_self _), rfl, rfl, ?_⟩
            rcases hmoved with hlo | hhi
            · exact ⟨.lowerBound, rfl, decide_eq_true hlo⟩
            · exact ⟨.upperBound, rfl, decide_eq_true hhi⟩
        | punctured u =>
            obtain ⟨-, -, hl, hu⟩ := hc
            have hlower := hfixed _ (Finset.mem_filter.2 ⟨hwfi.lower_mem, ne_of_lt hl⟩)
            have hupper := hfixed _ (Finset.mem_filter.2 ⟨hwfi.upper_mem, ne_of_gt hu⟩)
            omega
      · rw [Table.members, get?_change hdi, if_neg hid] at hfixed
        exact (ih hfixed).imp_right hlater

/-- A domain that is not to be changed is as it was. -/
theorem Narrows.get?_eq_of_not (h : Narrows B cause s s') {id : DomainId} (hid : ¬ B id) :
    s'.table.get? id = s.table.get? id := by
  induction h with
  | refl => rfl
  | @change s' i di c _ hi hdi hc ih =>
      have hne : id ≠ i := fun he => hid (he ▸ hi)
      rw [get?_change hdi, if_neg hne, ih]

/-! ### What a rewind would give -/

/-- The domains as they would be after a rewind to level `k`. -/
def past (s : Domains) (k : Nat) : Table DomainId Domain := (s.trail.undone k).foldl undo s.table

/-- Every change on record is one of a domain that is there. -/
def Recorded (s : Domains) : Prop := ∀ r ∈ s.trail.frames.flatten, r.1.index < s.table.size

theorem Narrows.trail_eq (h : Narrows B cause s s') :
    s'.level = s.level ∧ s'.trail.earlier = s.trail.earlier := by
  induction h with
  | refl => exact ⟨rfl, rfl⟩
  | change _ _ _ _ ih => exact ih

theorem Narrows.recorded (h : Narrows B cause s s') (hr : s.Recorded) : s'.Recorded := by
  induction h with
  | refl => exact hr
  | @change s' i di c hn hi hdi hc ih =>
      have hsize : (s'.change i cause c).table.size = s'.table.size := Table.size_update _ _ _
      intro r hr'
      rw [hsize]
      rcases List.mem_cons.1 hr' with rfl | hr'
      · by_contra hlt
        rw [(Table.get?_eq_none_iff _ _).2 (not_lt.1 hlt)] at hdi
        exact nomatch hdi
      · exact ih r hr'

/-- Changes of the current frame do not show in what a rewind gives. -/
theorem Narrows.past_eq (h : Narrows B cause s s') (hwf : s.table.WellFormed) {k : Nat}
    (hk : k < s.level) : s'.past k = s.past k := by
  induction h with
  | refl => rfl
  | @change s' i di c hn hi hdi hc ih =>
      refine Eq.trans ?_ ih
      have hk' : k < s'.trail.level := by
        have := hn.trail_eq.1
        unfold level at this hk
        omega
      unfold past
      change (((s'.trail.push (i, c)).undone k).foldl undo _) = _
      rw [Trail.undone_push _ _ hk', List.foldl_cons]
      congr 1
      refine Table.ext_get? fun j => ?_
      change ((s'.change i cause c).table.update i (·.undo c)).get? j = _
      rw [Table.get?_update, get?_change hdi]
      by_cases hj : j = i
      · rw [if_pos hj, if_pos hj, hj, hdi, Option.map_some,
          Domain.undo_apply (hn.wellFormed hwf i di hdi) hc]
      · rw [if_neg hj, if_neg hj]

theorem past_level (s : Domains) : s.past s.level = s.table := by
  rw [past, level, Trail.undone_level]
  rfl

theorem past_mark (s : Domains) {k : Nat} (hk : k ≤ s.level) : s.mark.past k = s.past k := by
  unfold past
  rw [← Trail.undone_mark s.trail hk]
  rfl

theorem size_foldl_undo (t : Table DomainId Domain) (records : List (DomainId × Change)) :
    (records.foldl undo t).size = t.size := by
  induction records generalizing t with
  | nil => rfl
  | cons r rest ih => exact (ih _).trans (Table.size_update _ _ _)

theorem size_past (s : Domains) (k : Nat) : (s.past k).size = s.table.size :=
  size_foldl_undo _ _

/-- A domain added later has its first members in what a rewind gives. -/
theorem past_push (s : Domains) (hr : s.Recorded) (d : Domain) (k : Nat) :
    (s.push d).past k = (s.past k).push d := by
  have hall : ∀ r ∈ s.trail.undone k, r.1.index < s.table.size := fun r hr' =>
    hr r (Trail.mem_frames_of_undone _ hr')
  unfold past
  change (s.trail.undone k).foldl undo (s.table.push d) = _
  generalize s.trail.undone k = records at hall ⊢
  generalize s.table = t at hall ⊢
  induction records generalizing t with
  | nil => rfl
  | cons r rest ih =>
      obtain ⟨i, c⟩ := r
      have hi : i.index < t.size := hall (i, c) List.mem_cons_self
      rw [List.foldl_cons, List.foldl_cons]
      have hcomm : undo (t.push d) (i, c) = (undo t (i, c)).push d := by
        refine Table.ext_get? fun j => ?_
        simp only [undo, Table.get?_update, Table.get?_push, Table.size_update]
        by_cases hj : j = i
        · subst hj
          have hne : Key.index j ≠ t.size := Nat.ne_of_lt hi
          simp [hne]
        · simp [hj]
      rw [hcomm]
      exact ih _ fun r hr' => by
        rw [show (undo t (i, c)).size = t.size from Table.size_update _ _ _]
        exact hall r (List.mem_cons_of_mem _ hr')

/-- What a rewind gives is what it would have given. -/
theorem rewind_eq_ok {k : Nat} (h : s.rewind k = .ok s') :
    k < s.level ∧ s'.table = s.past k ∧ s'.trail = s.trail.below k ∧ s'.unreported = #[] := by
  obtain ⟨⟨undone, trail⟩, hrewind, hs⟩ := Checked.bind_eq_ok h
  obtain ⟨hk, rfl, rfl⟩ := Trail.rewind_eq_ok hrewind
  obtain rfl := Except.ok.inj hs
  exact ⟨hk, rfl, rfl, rfl⟩

/-- Every earlier level can be returned to. -/
theorem exists_rewind {k : Nat} (hk : k < s.level) : ∃ s', s.rewind k = .ok s' := by
  rw [rewind, Trail.rewind_of_lt hk]
  exact ⟨_, rfl⟩

/-- A rewind does not show in what a further one gives. -/
theorem past_of_rewind {k : Nat} (h : s.rewind k = .ok s') {j : Nat} (hj : j ≤ k) :
    s'.past j = s.past j := by
  obtain ⟨hk, htable, htrail, -⟩ := rewind_eq_ok h
  unfold past at htable ⊢
  rw [htable, htrail, Trail.undone_append_below _ hj (Nat.le_of_lt hk), List.foldl_append]

theorem Recorded.rewind (hr : s.Recorded) {k : Nat} (h : s.rewind k = .ok s') : s'.Recorded := by
  obtain ⟨hk, htable, htrail, -⟩ := rewind_eq_ok h
  intro r hr'
  rw [htrail] at hr'
  rw [htable, size_past]
  exact hr r (Trail.mem_frames_of_below _ (Nat.le_of_lt hk) hr')

end Domains

end Narrowing
