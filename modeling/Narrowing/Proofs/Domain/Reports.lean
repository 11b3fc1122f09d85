import Narrowing.Proofs.Variable.Edits
import Narrowing.Proofs.Variable.Verdict

/-!
What is reported about a restriction of a domain. A restriction comes down to one move of the bounds
or to the loss of values between them, one by one, so the events of its changes taken together are
those that a comparison of the values before and after shows: none is missing and none is made up.
-/

namespace Narrowing

/-- Whether the values `V'` that are left of `V` show that an event took place. -/
def Event.Shown (V V' : Finset Int) : Event → Prop
  | .assign => V'.card = 1 ∧ V.card ≠ 1
  | .lowerBound => V.min < V'.min
  | .upperBound => V'.max < V.max
  | .removal => ∃ v ∈ V, v ∉ V' ∧ V'.min < v ∧ v < V'.max

/-- Values that stay what they are show nothing. -/
theorem Event.not_shown_self (V : Finset Int) (e : Event) : ¬ e.Shown V V := by
  cases e with
  | assign => exact fun h => h.2 h.1
  | lowerBound => exact lt_irrefl V.min
  | upperBound => exact lt_irrefl V.max
  | removal => exact fun ⟨_, hv, hnot, _⟩ => hnot hv

theorem Refusal.eq_ok_of_guard {α : Type} {x : Checked α} {a : α} (h : Refusal.guard x = .ok a) :
    x = .ok a := by
  cases x with
  | ok b => exact congrArg Except.ok (Except.ok.inj h)
  | error f => exact nomatch h

theorem Refusal.bind_guard_eq_ok {α β : Type} {x : Checked α} {f : α → Except Refusal β} {b : β}
    (h : Refusal.guard x >>= f = .ok b) : ∃ a, x = .ok a ∧ f a = .ok b := by
  cases x with
  | ok a => exact ⟨a, rfl, h⟩
  | error e => exact nomatch h

namespace Domain

variable {d : Domain} {c : Change} {changes : List Change} {e : Event} {v : Int}

/-! ### Bounds of the members -/

theorem WellFormed.min_eq (h : d.WellFormed) : d.members.min = d.lower :=
  le_antisymm (Finset.min_le h.lower_mem)
    (Finset.le_min fun _ hv => WithTop.coe_le_coe.2 (lower_le hv))

theorem WellFormed.max_eq (h : d.WellFormed) : d.members.max = d.upper :=
  le_antisymm (Finset.max_le fun _ hv => WithBot.coe_le_coe.2 (le_upper hv))
    (Finset.le_max h.upper_mem)

theorem WellFormed.card_eq_one_iff (h : d.WellFormed) :
    d.members.card = 1 ↔ d.lower = d.upper := by
  rw [Finset.card_eq_one]
  constructor
  · rintro ⟨v, hv⟩
    have hlower := h.lower_mem
    have hupper := h.upper_mem
    rw [hv, Finset.mem_singleton] at hlower hupper
    exact hlower.trans hupper.symm
  · intro hsame
    refine ⟨d.lower, Finset.eq_singleton_iff_unique_mem.2 ⟨h.lower_mem, fun v hv => ?_⟩⟩
    exact le_antisymm ((le_upper hv).trans_eq hsame.symm) (lower_le hv)

/-- What well-formed domains show, in terms of their bounds. -/
theorem shown_iff {d' : Domain} (h : d.WellFormed) (h' : d'.WellFormed) :
    e.Shown d.members d'.members ↔ match e with
      | .assign => d'.lower = d'.upper ∧ d.lower ≠ d.upper
      | .lowerBound => d.lower < d'.lower
      | .upperBound => d'.upper < d.upper
      | .removal => ∃ v ∈ d.members, v ∉ d'.members ∧ d'.lower < v ∧ v < d'.upper := by
  cases e with
  | assign => exact and_congr h'.card_eq_one_iff (not_congr h.card_eq_one_iff)
  | lowerBound => rw [Event.Shown, h.min_eq, h'.min_eq, WithTop.coe_lt_coe]
  | upperBound => rw [Event.Shown, h.max_eq, h'.max_eq, WithBot.coe_lt_coe]
  | removal => simp only [Event.Shown, h'.min_eq, h'.max_eq, WithTop.coe_lt_coe, WithBot.coe_lt_coe]

/-! ### One change, and values between the bounds one by one -/

/-- The events of a change are those that the values show. -/
theorem mem_events_iff (h : d.WellFormed) (hc : c.Fits d) :
    e ∈ c.events ↔ e.Shown d.members (d.apply c).members := by
  rw [shown_iff h (wellFormed_apply h hc), members_apply h hc]
  cases c with
  | narrowed fromLower fromUpper toLower toUpper fromSize toSize =>
      obtain ⟨⟨rfl, rfl, -⟩, ⟨hlo, hhi, hle⟩, -, hmoved⟩ := hc
      have hlower := lower_le hlo
      have hupper := le_upper hhi
      cases e with
      | assign =>
          have hopen : d.lower ≠ d.upper := by omega
          exact decide_eq_true_iff.trans (iff_self_and.2 fun _ => hopen)
      | lowerBound => exact decide_eq_true_iff
      | upperBound => exact decide_eq_true_iff
      | removal =>
          refine iff_of_false Bool.false_ne_true fun ⟨v, hv, hnot, hlv, hvu⟩ => hnot ?_
          exact Finset.mem_filter.2 ⟨hv, le_of_lt hlv, le_of_lt hvu⟩
  | punctured v =>
      obtain ⟨-, hv, hlv, hvu⟩ := hc
      have hlower : (d.apply (.punctured v)).lower = d.lower := lower_setPresent v false _
      have hupper : (d.apply (.punctured v)).upper = d.upper := upper_setPresent v false _
      cases e with
      | assign => exact iff_of_false Bool.false_ne_true fun hone => by omega
      | lowerBound => exact iff_of_false Bool.false_ne_true (by simp only [hlower]; omega)
      | upperBound => exact iff_of_false Bool.false_ne_true (by simp only [hupper]; omega)
      | removal =>
          refine iff_of_true rfl ⟨v, hv, fun hmem => ?_, by omega, by omega⟩
          exact (Finset.mem_filter.1 hmem).2 rfl

theorem bounds_applyAll_punctured (d : Domain) (values : List Int) :
    (d.applyAll (values.map .punctured)).lower = d.lower ∧
      (d.applyAll (values.map .punctured)).upper = d.upper := by
  induction values generalizing d with
  | nil => exact ⟨rfl, rfl⟩
  | cons v values ih =>
      obtain ⟨hlower, hupper⟩ := ih (d.apply (.punctured v))
      exact ⟨hlower.trans (lower_setPresent v false _), hupper.trans (upper_setPresent v false _)⟩

/-- Values that go one by one show that some went, and nothing else. -/
theorem mem_events_punctured_iff (h : d.WellFormed) {values : List Int}
    (hfit : d.FitAll (values.map .punctured)) :
    (∃ c ∈ values.map Change.punctured, e ∈ c.events) ↔
      e.Shown d.members (d.applyAll (values.map .punctured)).members := by
  cases values with
  | nil => exact iff_of_false (by simp) (e.not_shown_self _)
  | cons v values =>
      obtain ⟨hlower, hupper⟩ := bounds_applyAll_punctured d (v :: values)
      have hfirst : (∃ c ∈ (v :: values).map Change.punctured, e ∈ c.events) ↔ e = .removal := by
        constructor
        · rintro ⟨c, hc, he⟩
          obtain ⟨u, -, rfl⟩ := List.mem_map.1 hc
          cases e with
          | removal => rfl
          | _ => exact absurd he Bool.false_ne_true
        · rintro rfl
          exact ⟨.punctured v, List.mem_map_of_mem List.mem_cons_self, rfl⟩
      obtain ⟨-, hv, hlv, hvu⟩ := hfit.1
      rw [hfirst, shown_iff h (wellFormed_applyAll h hfit)]
      cases e with
      | assign => exact iff_of_false nofun fun hone => by omega
      | lowerBound => exact iff_of_false nofun (by simp only [hlower]; omega)
      | upperBound => exact iff_of_false nofun (by simp only [hupper]; omega)
      | removal =>
          refine iff_of_true rfl ⟨v, hv, fun hmem => ?_, by omega, by omega⟩
          have hrest := members_applyAll_subset (wellFormed_apply h hfit.1) hfit.2 hmem
          rw [members_apply h hfit.1, Finset.mem_filter] at hrest
          exact hrest.2 rfl

/-! ### Plans -/

/-- At most one change, or values between the bounds one by one. -/
def Uniform (changes : List Change) : Prop :=
  changes.length ≤ 1 ∨ ∃ values : List Int, changes = values.map .punctured

/-- The events of such changes are those that the values show. -/
theorem Uniform.mem_events_iff (hu : Uniform changes) (h : d.WellFormed) (hfit : d.FitAll changes) :
    (∃ c ∈ changes, e ∈ c.events) ↔ e.Shown d.members (d.applyAll changes).members := by
  rcases hu with hone | ⟨values, rfl⟩
  · match changes, hone with
    | [], _ => exact iff_of_false (by simp) (e.not_shown_self _)
    | [c], _ =>
        simp only [List.mem_singleton, exists_eq_left]
        exact Domain.mem_events_iff h hfit.1
  · exact mem_events_punctured_iff h hfit

theorem length_planAtLeast (h : d.planAtLeast v = .ok changes) : changes.length ≤ 1 := by
  unfold planAtLeast at h
  split at h
  · obtain rfl := Except.ok.inj h
    exact Nat.zero_le 1
  · split at h
    · exact nomatch h
    · obtain ⟨_, _, h⟩ := Checked.bind_eq_ok (Refusal.eq_ok_of_guard h)
      obtain ⟨_, _, h⟩ := Checked.bind_eq_ok h
      obtain rfl := Except.ok.inj h
      exact le_refl 1

theorem length_planAtMost (h : d.planAtMost v = .ok changes) : changes.length ≤ 1 := by
  unfold planAtMost at h
  split at h
  · obtain rfl := Except.ok.inj h
    exact Nat.zero_le 1
  · split at h
    · exact nomatch h
    · obtain ⟨_, _, h⟩ := Checked.bind_eq_ok (Refusal.eq_ok_of_guard h)
      obtain ⟨_, _, h⟩ := Checked.bind_eq_ok h
      obtain rfl := Except.ok.inj h
      exact le_refl 1

theorem length_planWithout (h : d.planWithout v = .ok changes) : changes.length ≤ 1 := by
  obtain ⟨here, _, h⟩ := Refusal.bind_guard_eq_ok h
  split at h
  · obtain rfl := Except.ok.inj h
    exact Nat.zero_le 1
  split at h
  · exact nomatch h
  split at h
  · obtain ⟨_, _, h⟩ := Refusal.bind_guard_eq_ok h
    exact length_planAtLeast h
  split at h
  · obtain ⟨_, _, h⟩ := Refusal.bind_guard_eq_ok h
    exact length_planAtMost h
  split at h <;> obtain rfl := Except.ok.inj h
  · exact le_refl 1
  · exact Nat.zero_le 1

theorem length_planExactly (h : d.planExactly v = .ok changes) : changes.length ≤ 1 := by
  obtain ⟨here, _, h⟩ := Refusal.bind_guard_eq_ok h
  split at h
  · exact nomatch h
  split at h
  · obtain rfl := Except.ok.inj h
    exact Nat.zero_le 1
  · obtain ⟨_, _, h⟩ := Checked.bind_eq_ok (Refusal.eq_ok_of_guard h)
    obtain rfl := Except.ok.inj h
    exact le_refl 1

theorem uniform_planOutside {lo hi : Int} (h : d.planOutside lo hi = .ok changes) :
    Uniform changes := by
  unfold planOutside at h
  split at h
  · obtain rfl := Except.ok.inj h
    exact Or.inl (Nat.zero_le 1)
  split at h
  · exact nomatch h
  split at h
  · obtain ⟨_, _, h⟩ := Refusal.bind_guard_eq_ok h
    exact Or.inl (length_planAtLeast h)
  split at h
  · obtain ⟨_, _, h⟩ := Refusal.bind_guard_eq_ok h
    exact Or.inl (length_planAtMost h)
  split at h
  · obtain ⟨values, _, h⟩ := Checked.bind_eq_ok (Refusal.eq_ok_of_guard h)
    exact Or.inr ⟨values, (Except.ok.inj h).symm⟩
  · obtain rfl := Except.ok.inj h
    exact Or.inl (Nat.zero_le 1)

/-- No plan mixes moves of the bounds with losses between them. -/
theorem uniform_plan {r : Restriction} (h : d.plan r = .ok changes) : Uniform changes := by
  cases r with
  | atLeast v => exact Or.inl (length_planAtLeast h)
  | atMost v => exact Or.inl (length_planAtMost h)
  | without v => exact Or.inl (length_planWithout h)
  | outside lo hi => exact uniform_planOutside h
  | exactly v => exact Or.inl (length_planExactly h)

end Domain

/-! ### The store -/

namespace Domains

variable {s : Domains} {id : DomainId} {d : Domain}

/-- Every change is recorded and reported once, in the order in which they are made. -/
theorem records_changeAll (s : Domains) (id : DomainId) (cause : Cause) (changes : List Change) :
    (s.changeAll id cause changes).trail.chronicle =
        s.trail.chronicle ++ changes.map (fun c => (id, c)) ∧
      (s.changeAll id cause changes).unreported.toList =
        s.unreported.toList ++ changes.map (fun c => ⟨id, c.events, cause⟩) := by
  induction changes generalizing s with
  | nil => exact ⟨(List.append_nil _).symm, (List.append_nil _).symm⟩
  | cons c rest ih =>
      obtain ⟨hrecords, hreports⟩ := ih (s.change id cause c)
      refine ⟨hrecords.trans ?_, hreports.trans ?_⟩
      · rw [change, Trail.chronicle_push, List.append_assoc]
        rfl
      · rw [change, Array.toList_push, List.append_assoc]
        rfl

/-- A restriction of a domain makes a series of changes that fit and are of one sort; it makes none
if it is refused. -/
theorem exists_changes (hd : s.table.get? id = some d) (h : d.WellFormed) (r : Restriction)
    (cause : Cause) : ∃ changes, d.FitAll changes ∧ Domain.Uniform changes ∧
      (Edit.restrict (.domain id) r cause).run s = .ok (s.changeAll id cause changes) := by
  rcases Domain.planned_plan h r with ⟨changes, hplan, hfit, -⟩ | ⟨hplan, -⟩
  · have hrun : restrict id r cause s = .ok (!changes.isEmpty) (s.changeAll id cause changes) := by
      simp only [restrict, domain_eq hd, hplan]
    exact ⟨changes, hfit, Domain.uniform_plan hplan, by simp only [Edit.run, Variable.restrict, hrun]⟩
  · have hrun : restrict id r cause s = .error .empty s := by
      simp only [restrict, domain_eq hd, hplan]
    refine ⟨[], trivial, Or.inl (Nat.zero_le 1), ?_⟩
    simp only [Edit.run, Variable.restrict, hrun]
    rfl

namespace Reachable

variable (hs : s.Reachable)
include hs

/-- A restriction of a domain, carried out or refused, adds as many reports as records. All of them
are about that domain, for the given cause and of some event; together they are about exactly the
events that the values before and after show, and there are none exactly when the values stay. -/
theorem reports_restrict (hd : s.table.get? id = some d) (r : Restriction) (cause : Cause) :
    ∃ s' d' records reports, (Edit.restrict (.domain id) r cause).run s = .ok s' ∧
      s'.table.get? id = some d' ∧
      s'.trail.chronicle = s.trail.chronicle ++ records ∧
      s'.unreported.toList = s.unreported.toList ++ reports ∧
      reports.length = records.length ∧ (∀ p ∈ records, p.1 = id) ∧
      (∀ o ∈ reports, o.domain = id ∧ o.cause = cause ∧ o.events ≠ ∅) ∧
      (∀ e : Event, (∃ o ∈ reports, e ∈ o.events) ↔ e.Shown d.members d'.members) ∧
      (reports = [] ↔ d'.members = d.members) := by
  have h := hs.traced.wellFormed id d hd
  obtain ⟨changes, hfit, huniform, hrun⟩ := exists_changes hd h r cause
  obtain ⟨hrecords, hreports⟩ := records_changeAll s id cause changes
  obtain ⟨hnarrows, hget⟩ := narrows_changeAll (B := (· = id)) cause rfl hd hfit
  refine ⟨_, d.applyAll changes, _, _, hrun, (hget id).trans (if_pos rfl), hrecords, hreports,
    by rw [List.length_map, List.length_map], fun p hp => ?_, fun o ho => ?_, fun e => ?_, ?_⟩
  · obtain ⟨c, -, rfl⟩ := List.mem_map.1 hp
    rfl
  · obtain ⟨reports, hreports', hall⟩ := hnarrows.unreported_eq
    obtain rfl := List.append_cancel_left (hreports.symm.trans hreports')
    exact hall o ho
  · rw [← huniform.mem_events_iff h hfit]
    simp only [List.mem_map, exists_exists_and_eq_and]
  · rw [List.map_eq_nil_iff]
    refine ⟨fun hnone => by rw [hnone, Domain.applyAll_nil], fun hsame => ?_⟩
    by_contra hsome
    exact (Domain.members_applyAll_ssubset h hfit hsome).ne hsame

omit hs in
theorem reports_restrict_scarred :
    scarred.Reachable ∧ scarred.table.get? ⟨0⟩ = some cropped ∧
      ∃ s' d' records reports,
        (Edit.restrict (.domain ⟨0⟩) (.outside (-1) 3) .decision).run scarred = .ok s' ∧
        s'.table.get? ⟨0⟩ = some d' ∧
        s'.trail.chronicle = scarred.trail.chronicle ++ records ∧
        s'.unreported.toList = scarred.unreported.toList ++ reports ∧
        reports.length = records.length ∧ (∀ p ∈ records, p.1 = ⟨0⟩) ∧
        (∀ o ∈ reports, o.domain = ⟨0⟩ ∧ o.cause = .decision ∧ o.events ≠ ∅) ∧
        (∀ e : Event, (∃ o ∈ reports, e ∈ o.events) ↔ e.Shown cropped.members d'.members) ∧
        (reports = [] ↔ d'.members = cropped.members) :=
  ⟨reachable_scarred, by decide,
    reports_restrict reachable_scarred (by decide) (.outside (-1) 3) .decision⟩

end Reachable

end Domains

end Narrowing
