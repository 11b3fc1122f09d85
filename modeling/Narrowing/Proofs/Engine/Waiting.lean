import Narrowing.Engine.Agenda
import Narrowing.Engine.Notifier
import Mathlib.Tactic.Common

/-!
What waits in an engine: requests of passes, and notifications. A request stays until it is met, and
grows in between. A listener that hears of an event of a domain is among the waiting ones once the
change is reported.
-/

namespace Narrowing

theorem EventSet.exists_mem {s : EventSet} (h : s ≠ ∅) : ∃ e : Event, e ∈ s := by
  by_contra hnone
  push Not at hnone
  exact h (EventSet.ext fun e => iff_of_false (hnone e) (EventSet.not_mem_empty e))

theorem EventSet.ne_empty_of_mem {s : EventSet} {e : Event} (h : e ∈ s) : s ≠ ∅ := by
  rintro rfl
  exact EventSet.not_mem_empty e h

/-! ### Requests -/

namespace Agenda

variable {a : Agenda} {p q : PropagatorId} {priority : Priority} {passes passes' : Passes}
  {rs rest : List Request} {r new : Request}

/-- A pass of `p` is requested, and it is for `passes` at least. -/
def Asks (a : Agenda) (p : PropagatorId) (passes : Passes) : Prop :=
  ∃ r ∈ a.requests, r.propagator = p ∧ r.passes ∪ passes = r.passes

theorem union_self (a : Passes) : a ∪ a = a := by
  obtain ⟨a₁, a₂⟩ := a
  revert a₁ a₂
  decide

theorem union_empty (a : Passes) : a ∪ {} = a := by
  obtain ⟨a₁, a₂⟩ := a
  revert a₁ a₂
  decide

theorem union_union_right (a b : Passes) : a ∪ b ∪ b = a ∪ b := by
  obtain ⟨a₁, a₂⟩ := a
  obtain ⟨b₁, b₂⟩ := b
  revert a₁ a₂ b₁ b₂
  decide

theorem union_covers {a b c : Passes} (h : a ∪ c = a) : a ∪ b ∪ c = a ∪ b := by
  obtain ⟨a₁, a₂⟩ := a
  obtain ⟨b₁, b₂⟩ := b
  obtain ⟨c₁, c₂⟩ := c
  revert a₁ a₂ b₁ b₂ c₁ c₂
  decide

theorem full_of_covers {a : Passes} (h : a ∪ .fromScratch = a) : a.full = true := by
  rw [← h]
  exact Bool.or_true _

theorem map_propagator_extend (p : PropagatorId) (passes : Passes) (rs : List Request) :
    (extend p passes rs).map Request.propagator = rs.map Request.propagator := by
  induction rs with
  | nil => rfl
  | cons r rest ih =>
      rw [extend]
      split
      · rfl
      · rw [List.map_cons, List.map_cons, ih]

theorem mem_extend (p : PropagatorId) (passes : Passes) (h : r ∈ rs) :
    ∃ r' ∈ extend p passes rs, r'.propagator = r.propagator ∧
      (r'.passes = r.passes ∨ r'.passes = r.passes ∪ passes) := by
  induction rs with
  | nil => exact nomatch h
  | cons r₀ rest ih =>
      rw [extend]
      split
      · rcases List.mem_cons.1 h with rfl | h
        · exact ⟨_, List.mem_cons_self, rfl, Or.inr rfl⟩
        · exact ⟨r, List.mem_cons_of_mem _ h, rfl, Or.inl rfl⟩
      · rcases List.mem_cons.1 h with rfl | h
        · exact ⟨r, List.mem_cons_self, rfl, Or.inl rfl⟩
        · obtain ⟨r', hr', hrest⟩ := ih h
          exact ⟨r', List.mem_cons_of_mem _ hr', hrest⟩

/-- What stands among the requests after an extension was there before. -/
theorem exists_of_mem_extend {p : PropagatorId} {passes : Passes} (h : r ∈ extend p passes rs) :
    ∃ r' ∈ rs, r.propagator = r'.propagator ∧
      (r.passes = r'.passes ∨ r.passes = r'.passes ∪ passes) := by
  induction rs with
  | nil => exact nomatch h
  | cons r₀ rest ih =>
      rw [extend] at h
      split at h
      · rcases List.mem_cons.1 h with rfl | h
        · exact ⟨r₀, List.mem_cons_self, rfl, Or.inr rfl⟩
        · exact ⟨r, List.mem_cons_of_mem _ h, rfl, Or.inl rfl⟩
      · rcases List.mem_cons.1 h with rfl | h
        · exact ⟨r, List.mem_cons_self, rfl, Or.inl rfl⟩
        · obtain ⟨r', hr', hrest⟩ := ih h
          exact ⟨r', List.mem_cons_of_mem _ hr', hrest⟩

theorem exists_mem_extend (h : ∃ r ∈ rs, r.propagator = p) :
    ∃ r' ∈ extend p passes rs, r'.propagator = p ∧ r'.passes ∪ passes = r'.passes := by
  induction rs with
  | nil => obtain ⟨r, hr, -⟩ := h; exact nomatch hr
  | cons r₀ rest ih =>
      rw [extend]
      split
      · next hr₀ => exact ⟨_, List.mem_cons_self, hr₀, union_union_right _ _⟩
      · next hr₀ =>
        obtain ⟨r, hr, hp⟩ := h
        rcases List.mem_cons.1 hr with rfl | hr
        · exact absurd hp hr₀
        · obtain ⟨r', hr', hrest⟩ := ih ⟨r, hr, hp⟩
          exact ⟨r', List.mem_cons_of_mem _ hr', hrest⟩

theorem mem_enter : r ∈ enter new rs ↔ r = new ∨ r ∈ rs := by
  induction rs with
  | nil => simp [enter]
  | cons r₀ rest ih =>
      rw [enter]
      split
      · exact List.mem_cons
      · rw [List.mem_cons, ih, List.mem_cons]
        tauto

theorem nodup_enter (h : (rs.map Request.propagator).Nodup)
    (hnew : ∀ r ∈ rs, r.propagator ≠ new.propagator) :
    ((enter new rs).map Request.propagator).Nodup := by
  induction rs with
  | nil => simp [enter]
  | cons r₀ rest ih =>
      have hfirst := hnew r₀ List.mem_cons_self
      rw [List.map_cons, List.nodup_cons] at h
      rw [enter]
      split
      · rw [List.map_cons, List.nodup_cons]
        refine ⟨fun hmem => ?_, List.nodup_cons.2 h⟩
        obtain ⟨r, hr, he⟩ := List.mem_map.1 hmem
        exact hnew r hr he
      · rw [List.map_cons, List.nodup_cons]
        refine ⟨fun hmem => ?_, ih h.2 fun r hr => hnew r (List.mem_cons_of_mem _ hr)⟩
        obtain ⟨r, hr, he⟩ := List.mem_map.1 hmem
        rcases mem_enter.1 hr with rfl | hr
        · exact hfirst he.symm
        · exact h.1 (he ▸ List.mem_map_of_mem hr)

theorem has_iff : a.has p = true ↔ ∃ r ∈ a.requests, r.propagator = p := by
  simp [has]

/-- No propagator stands on the agenda twice. -/
theorem nodup_request (h : (a.requests.map Request.propagator).Nodup) :
    ((a.request p priority passes).requests.map Request.propagator).Nodup := by
  unfold request
  split
  · change ((extend p passes a.requests).map Request.propagator).Nodup
    rwa [map_propagator_extend]
  · next hnot =>
    refine nodup_enter h fun r hr he => ?_
    exact hnot (has_iff.2 ⟨r, hr, he⟩)

theorem asks_request (a : Agenda) (p : PropagatorId) (priority : Priority) (passes : Passes) :
    (a.request p priority passes).Asks p passes := by
  unfold request
  split
  · next hhas => exact exists_mem_extend (has_iff.1 hhas)
  · exact ⟨_, mem_enter.2 (Or.inl rfl), rfl, union_self passes⟩

/-- What is requested stays requested. -/
theorem Asks.request (h : a.Asks p passes) (q : PropagatorId) (priority : Priority)
    (passes' : Passes) : (a.request q priority passes').Asks p passes := by
  obtain ⟨r, hr, hp, hcovers⟩ := h
  unfold Agenda.request
  split
  · obtain ⟨r', hr', hp', hpasses⟩ := mem_extend q passes' hr
    refine ⟨r', hr', hp'.trans hp, ?_⟩
    rcases hpasses with hpasses | hpasses
    · rw [hpasses, hcovers]
    · rw [hpasses, union_covers hcovers]
  · exact ⟨r, mem_enter.2 (Or.inr hr), hp, hcovers⟩

/-- What is requested was so before, or it is the pass that is asked for. -/
theorem forall_request {Q : PropagatorId → Passes → Prop}
    (hunion : ∀ p passes', Q p passes' → Q p (passes' ∪ passes))
    (h : ∀ r ∈ a.requests, Q r.propagator r.passes) (hnew : Q q passes) :
    ∀ r ∈ (a.request q priority passes).requests, Q r.propagator r.passes := by
  intro r hr
  unfold request at hr
  split at hr
  · obtain ⟨r', hr', hid, hpasses | hpasses⟩ := exists_of_mem_extend hr
    · rw [hid, hpasses]
      exact h r' hr'
    · rw [hid, hpasses]
      exact hunion _ _ (h r' hr')
  · rcases mem_enter.1 hr with rfl | hr
    · exact hnew
    · exact h r hr

theorem Asks.of_empty (h : a.Asks p passes) : a.requests ≠ [] := by
  obtain ⟨r, hr, -⟩ := h
  exact List.ne_nil_of_mem hr

/-- When a request is met, those of other propagators stay. -/
theorem Asks.remains (h : a.Asks p passes) (hr : a.requests = r :: rest) (hp : r.propagator ≠ p)
    (n : Nat) : (⟨rest, n⟩ : Agenda).Asks p passes := by
  obtain ⟨r', hr', hp', hcovers⟩ := h
  rw [hr] at hr'
  rcases List.mem_cons.1 hr' with rfl | hr'
  · exact absurd hp' hp
  · exact ⟨r', hr', hp', hcovers⟩

/-- The request that is met is the one that was asked for. -/
theorem Asks.met (h : a.Asks p passes) (hnodup : (a.requests.map Request.propagator).Nodup)
    (hr : a.requests = r :: rest) (hp : r.propagator = p) : r.passes ∪ passes = r.passes := by
  obtain ⟨r', hr', hp', hcovers⟩ := h
  rw [hr] at hr' hnodup
  rcases List.mem_cons.1 hr' with rfl | hr'
  · exact hcovers
  · refine absurd (List.mem_map_of_mem (f := Request.propagator) hr') ?_
    rw [hp', ← hp]
    exact (List.nodup_cons.1 hnodup).1

end Agenda

/-! ### Backlogs -/

namespace Backlog

variable {κ ε : Type} [DecidableEq κ] [Union ε]

theorem mem_keys_add (b : Backlog κ ε) (k k' : κ) (e : ε) :
    k' ∈ (b.add k e).keys ↔ k' ∈ b.keys ∨ k' = k := by
  rw [keys_add]
  split
  · next hk =>
    refine ⟨Or.inl, fun h => h.elim id ?_⟩
    rintro rfl
    exact hk
  · rw [List.mem_append, List.mem_singleton]

/-- The keys that wait after arrivals are those that waited and those that arrived. -/
theorem mem_keys_addAll (b : Backlog κ ε) (arrivals : List (κ × ε)) (k : κ) :
    k ∈ (b.addAll arrivals).keys ↔ k ∈ b.keys ∨ k ∈ arrivals.map Prod.fst := by
  induction arrivals generalizing b with
  | nil => simp [addAll]
  | cons arrival rest ih =>
      change k ∈ ((b.add arrival.1 arrival.2).addAll rest).keys ↔ _
      rw [ih, mem_keys_add, List.map_cons, List.mem_cons, or_assoc]

theorem forall_insertEntry {Q : κ → ε → Prop} (hunion : ∀ k e e', Q k e → Q k e' → Q k (e ∪ e'))
    {k : κ} {e : ε} (he : Q k e) {entries : List (κ × ε)} (h : ∀ x ∈ entries, Q x.1 x.2) :
    ∀ x ∈ insertEntry k e entries, Q x.1 x.2 := by
  induction entries with
  | nil =>
      intro x hx
      rw [insertEntry, List.mem_singleton] at hx
      rw [hx]
      exact he
  | cons entry rest ih =>
      obtain ⟨k', e'⟩ := entry
      have hfirst : Q k' e' := h _ List.mem_cons_self
      have hrest : ∀ x ∈ rest, Q x.1 x.2 := fun x hx => h x (List.mem_cons_of_mem _ hx)
      rw [insertEntry]
      split
      · next hk =>
        intro x hx
        rcases List.mem_cons.1 hx with rfl | hx
        · exact hunion _ _ _ hfirst (hk ▸ he)
        · exact hrest x hx
      · intro x hx
        rcases List.mem_cons.1 hx with rfl | hx
        · exact hfirst
        · exact ih hrest x hx

/-- What holds of everything that waits and of everything that arrives goes on to hold, if gathering
keeps it. -/
theorem forall_addAll {Q : κ → ε → Prop} (hunion : ∀ k e e', Q k e → Q k e' → Q k (e ∪ e'))
    {b : Backlog κ ε} {arrivals : List (κ × ε)} (h : ∀ x ∈ b.entries, Q x.1 x.2)
    (harrivals : ∀ x ∈ arrivals, Q x.1 x.2) : ∀ x ∈ (b.addAll arrivals).entries, Q x.1 x.2 := by
  induction arrivals generalizing b with
  | nil => exact h
  | cons arrival rest ih =>
      refine ih (b := b.add arrival.1 arrival.2) ?_ fun x hx =>
        harrivals x (List.mem_cons_of_mem _ hx)
      exact forall_insertEntry hunion (harrivals arrival List.mem_cons_self) h

section Gathered

variable {Q : ε → Prop} (hleft : ∀ e e', Q e → Q (e ∪ e')) (hright : ∀ e e', Q e' → Q (e ∪ e'))
  {k k' : κ}
include hleft

theorem exists_mem_insertEntry (e : ε) {entries : List (κ × ε)}
    (h : ∃ x ∈ entries, x.1 = k ∧ Q x.2) : ∃ x ∈ insertEntry k' e entries, x.1 = k ∧ Q x.2 := by
  induction entries with
  | nil =>
      obtain ⟨x, hx, -⟩ := h
      exact nomatch hx
  | cons entry rest ih =>
      obtain ⟨k₀, e₀⟩ := entry
      obtain ⟨x, hx, hk, hQ⟩ := h
      rw [insertEntry]
      split
      · rcases List.mem_cons.1 hx with rfl | hx
        · exact ⟨_, List.mem_cons_self, hk, hleft _ _ hQ⟩
        · exact ⟨x, List.mem_cons_of_mem _ hx, hk, hQ⟩
      · rcases List.mem_cons.1 hx with rfl | hx
        · exact ⟨_, List.mem_cons_self, hk, hQ⟩
        · obtain ⟨x', hx', hrest⟩ := ih ⟨x, hx, hk, hQ⟩
          exact ⟨x', List.mem_cons_of_mem _ hx', hrest⟩

/-- What has gathered for a key is not lost when more arrives. -/
theorem exists_mem_addAll {b : Backlog κ ε} (arrivals : List (κ × ε))
    (h : ∃ x ∈ b.entries, x.1 = k ∧ Q x.2) :
    ∃ x ∈ (b.addAll arrivals).entries, x.1 = k ∧ Q x.2 := by
  induction arrivals generalizing b with
  | nil => exact h
  | cons arrival rest ih =>
      exact ih (b := b.add arrival.1 arrival.2) (exists_mem_insertEntry hleft arrival.2 h)

include hright

omit hleft in
theorem exists_mem_insertEntry_self {e : ε} (he : Q e) (entries : List (κ × ε)) :
    ∃ x ∈ insertEntry k e entries, x.1 = k ∧ Q x.2 := by
  induction entries with
  | nil => exact ⟨(k, e), List.mem_singleton_self _, rfl, he⟩
  | cons entry rest ih =>
      obtain ⟨k₀, e₀⟩ := entry
      rw [insertEntry]
      split
      · next hk => exact ⟨_, List.mem_cons_self, hk, hright _ _ he⟩
      · obtain ⟨x, hx, hrest⟩ := ih
        exact ⟨x, List.mem_cons_of_mem _ hx, hrest⟩

/-- What arrives for a key is gathered. -/
theorem exists_mem_addAll_of_mem {b : Backlog κ ε} {arrivals : List (κ × ε)} {e : ε}
    (h : (k, e) ∈ arrivals) (he : Q e) :
    ∃ x ∈ (b.addAll arrivals).entries, x.1 = k ∧ Q x.2 := by
  induction arrivals generalizing b with
  | nil => exact nomatch h
  | cons arrival rest ih =>
      rcases List.mem_cons.1 h with rfl | h
      · exact exists_mem_addAll (b := b.add k e) hleft rest
          (exists_mem_insertEntry_self hright he b.entries)
      · exact ih (b := b.add arrival.1 arrival.2) h

end Gathered

end Backlog

/-! ### Notifications -/

namespace Notifier

variable {n n' : Notifier} {l : Listener} {id : DomainId} {events : EventSet} {new : Watch}
  {notices : List Notice} {os : List Occurrence}

/-- The listener watches the domain for `events` at least. -/
def Hears (n : Notifier) (l : Listener) (id : DomainId) (events : EventSet) : Prop :=
  ∃ ws, n.watches.get? id = some ws ∧ ∃ w ∈ ws, w.listener = l ∧ ∀ e ∈ events, e ∈ w.events

theorem Hears.of_eq (h : n.Hears l id events) (hw : n'.watches = n.watches) :
    n'.Hears l id events := by
  unfold Hears
  rwa [hw]

theorem Hears.lt_size (h : n.Hears l id events) : id.index < n.watches.size := by
  obtain ⟨ws, hws, -⟩ := h
  exact Table.lt_size_of_get? hws

theorem Hears.grow (h : n.Hears l id events) : n.grow.Hears l id events := by
  obtain ⟨ws, hws, hmem⟩ := h
  exact ⟨ws, (Table.get?_push_of_lt _ _ (Table.lt_size_of_get? hws)).trans hws, hmem⟩

theorem mem_addWatch_self (new : Watch) (ws : List Watch) :
    ∃ w ∈ addWatch new ws, w.listener = new.listener ∧ ∀ e ∈ new.events, e ∈ w.events := by
  induction ws with
  | nil => exact ⟨new, List.mem_singleton_self _, rfl, fun _ he => he⟩
  | cons w rest ih =>
      rw [addWatch]
      split
      · next hl =>
        exact ⟨_, List.mem_cons_self, hl, fun e he => EventSet.mem_union.2 (Or.inr he)⟩
      · obtain ⟨w', hw', hrest⟩ := ih
        exact ⟨w', List.mem_cons_of_mem _ hw', hrest⟩

theorem mem_addWatch (new : Watch) {ws : List Watch} {w : Watch} (hw : w ∈ ws) :
    ∃ w' ∈ addWatch new ws, w'.listener = w.listener ∧ ∀ e ∈ w.events, e ∈ w'.events := by
  induction ws with
  | nil => exact nomatch hw
  | cons w₀ rest ih =>
      rw [addWatch]
      split
      · rcases List.mem_cons.1 hw with rfl | hw
        · exact ⟨_, List.mem_cons_self, rfl, fun e he => EventSet.mem_union.2 (Or.inl he)⟩
        · exact ⟨w, List.mem_cons_of_mem _ hw, rfl, fun _ he => he⟩
      · rcases List.mem_cons.1 hw with rfl | hw
        · exact ⟨w, List.mem_cons_self, rfl, fun _ he => he⟩
        · obtain ⟨w', hw', hrest⟩ := ih hw
          exact ⟨w', List.mem_cons_of_mem _ hw', hrest⟩

/-- `n'` differs from `n` in watches only, and has all that are in `n`. -/
structure Extends (n n' : Notifier) : Prop where
  pending_eq : n'.pending = n.pending
  skipsOwn_eq : n'.skipsOwn = n.skipsOwn
  size_eq : n'.watches.size = n.watches.size
  hears : ∀ l id events, n.Hears l id events → n'.Hears l id events

theorem Extends.refl : n.Extends n := ⟨rfl, rfl, rfl, fun _ _ _ h => h⟩

theorem Extends.trans {n'' : Notifier} (h : n.Extends n') (h' : n'.Extends n'') : n.Extends n'' :=
  ⟨h'.pending_eq.trans h.pending_eq, h'.skipsOwn_eq.trans h.skipsOwn_eq, h'.size_eq.trans h.size_eq,
    fun l id events hears => h'.hears l id events (h.hears l id events hears)⟩

/-- A new watch is there, and so are all others. -/
theorem watch_eq_ok (h : n.watch id new = .ok n') :
    n.Extends n' ∧ n'.Hears new.listener id new.events := by
  obtain ⟨ws, hws, h⟩ := Checked.bind_eq_ok h
  obtain rfl := Except.ok.inj h
  have hget := (Table.fetch_eq_ok_iff _).1 hws
  have hlt := Table.lt_size_of_get? hget
  refine ⟨⟨rfl, rfl, Table.size_put _ _ _, fun l j events hears => ?_⟩,
    _, Table.get?_put_self _ _ hlt, mem_addWatch_self _ _⟩
  obtain ⟨ws', hws', w, hw, hl, hevents⟩ := hears
  change ∃ ws, (n.watches.put id _).get? j = some ws ∧ _
  rw [Table.get?_put _ _ hlt]
  split
  · next hj =>
    obtain rfl : ws' = ws := Option.some.inj (hws'.symm.trans (hj ▸ hget))
    obtain ⟨w', hw', hl', hevents'⟩ := mem_addWatch new hw
    exact ⟨_, rfl, w', hw', hl'.trans hl, fun e he => hevents' e (hevents e he)⟩
  · exact ⟨ws', hws', w, hw, hl, hevents⟩

/-- A notice is about a change, for a listener that watches the domain for what happened. -/
theorem exists_of_mem_noticesOfAll (h : n.noticesOfAll os = .ok notices) {x : Notice}
    (hx : x ∈ notices) : ∃ o ∈ os, ∃ ws, n.watches.get? o.domain = some ws ∧
      ∃ w ∈ ws, n.notice? o w = some x := by
  induction os generalizing notices with
  | nil =>
      obtain rfl := Except.ok.inj h
      exact nomatch hx
  | cons o rest ih =>
      obtain ⟨here, hhere, h⟩ := Checked.bind_eq_ok h
      obtain ⟨others, hothers, h⟩ := Checked.bind_eq_ok h
      obtain rfl := Except.ok.inj h
      rcases List.mem_append.1 hx with hx | hx
      · obtain ⟨ws, hws, hhere⟩ := Checked.bind_eq_ok hhere
        obtain rfl := Except.ok.inj hhere
        obtain ⟨w, hw, hnotice⟩ := List.mem_filterMap.1 hx
        exact ⟨o, List.mem_cons_self, ws, (Table.fetch_eq_ok_iff _).1 hws, w, hw, hnotice⟩
      · obtain ⟨o', ho', hrest⟩ := ih hothers hx
        exact ⟨o', List.mem_cons_of_mem _ ho', hrest⟩

theorem mem_noticesOfAll (h : n.noticesOfAll os = .ok notices) {o : Occurrence} (ho : o ∈ os)
    {ws : List Watch} (hws : n.watches.get? o.domain = some ws) {w : Watch} (hw : w ∈ ws)
    {x : Notice} (hx : n.notice? o w = some x) : x ∈ notices := by
  induction os generalizing notices with
  | nil => exact nomatch ho
  | cons o' rest ih =>
      obtain ⟨here, hhere, h⟩ := Checked.bind_eq_ok h
      obtain ⟨others, hothers, h⟩ := Checked.bind_eq_ok h
      obtain rfl := Except.ok.inj h
      rcases List.mem_cons.1 ho with rfl | ho
      · obtain ⟨ws', hws', hhere⟩ := Checked.bind_eq_ok hhere
        obtain rfl := Except.ok.inj hhere
        obtain rfl := Option.some.inj (hws.symm.trans ((Table.fetch_eq_ok_iff _).1 hws'))
        exact List.mem_append_left _ (List.mem_filterMap.2 ⟨w, hw, hx⟩)
      · exact List.mem_append_right _ (ih hothers ho)

/-- A listener is not spared a change. -/
def Concerns (n : Notifier) (l : Listener) (o : Occurrence) : Prop :=
  ¬ (n.skipsOwn = true ∧ o.cause = .propagator l.propagator)

/-- A listener is told of a change that it hears of and is not spared. -/
theorem exists_notice_of_concerns (h : n.noticesOfAll os = .ok notices) {o : Occurrence}
    (ho : o ∈ os) (hconcerns : n.Concerns l o) (hears : n.Hears l o.domain events) {e : Event}
    (he : e ∈ events) (heo : e ∈ o.events) : ∃ x ∈ notices, x.listener = l ∧ e ∈ x.events := by
  obtain ⟨ws, hws, w, hw, rfl, hevents⟩ := hears
  have hmem : e ∈ w.events ∩ o.events := EventSet.mem_inter.2 ⟨hevents e he, heo⟩
  have hnot : ¬ (w.events ∩ o.events).isEmpty = true := fun hempty =>
    EventSet.ne_empty_of_mem hmem (EventSet.isEmpty_iff.1 hempty)
  have hspared : ¬ (n.skipsOwn && o.cause == .propagator w.listener.propagator) = true := by
    simpa [Concerns] using hconcerns
  have hnotice : n.notice? o w = some ⟨o, w.listener, w.events ∩ o.events⟩ := by
    simp only [notice?, hspared, Bool.false_eq_true, if_false, hnot]
  exact ⟨_, mem_noticesOfAll h ho hws hw hnotice, rfl, hmem⟩

/-- Unless it is spared its own changes, a listener is told of a change that it hears of. -/
theorem exists_notice (h : n.noticesOfAll os = .ok notices) (hskips : n.skipsOwn = false)
    {o : Occurrence} (ho : o ∈ os) (hears : n.Hears l o.domain events) {e : Event}
    (he : e ∈ events) (heo : e ∈ o.events) : ∃ x ∈ notices, x.listener = l := by
  have hconcerns : n.Concerns l o := fun hspared => by simp [hskips] at hspared
  obtain ⟨x, hx, hl, -⟩ := exists_notice_of_concerns h ho hconcerns hears he heo
  exact ⟨x, hx, hl⟩

/-- A notification waits that tells the listener of one of `events`. -/
def Notifies (n : Notifier) (l : Listener) (events : EventSet) : Prop :=
  ∃ x ∈ n.pending.entries, x.1 = l ∧ ∃ e ∈ events, e ∈ x.2

theorem Notifies.accept (h : n.Notifies l events) (notices : List Notice) :
    (n.accept notices).Notifies l events :=
  Backlog.exists_mem_addAll (Q := fun gathered => ∃ e ∈ events, e ∈ gathered)
    (fun _ _ he => he.imp fun _ he => he.imp_right fun he => EventSet.mem_union.2 (Or.inl he)) _ h

theorem notifies_accept {x : Notice} (hx : x ∈ notices) (hl : x.listener = l) {e : Event}
    (he : e ∈ events) (hxe : e ∈ x.events) : (n.accept notices).Notifies l events := by
  have hmem : (l, x.events) ∈ notices.map fun x => (x.listener, x.events) :=
    List.mem_map.2 ⟨x, hx, by rw [hl]⟩
  exact Backlog.exists_mem_addAll_of_mem (Q := fun gathered => ∃ e ∈ events, e ∈ gathered)
    (fun _ _ he => he.imp fun _ he => he.imp_right fun he => EventSet.mem_union.2 (Or.inl he))
    (fun _ _ he => he.imp fun _ he => he.imp_right fun he => EventSet.mem_union.2 (Or.inr he))
    hmem ⟨e, he, hxe⟩

theorem mem_keys_accept (n : Notifier) (notices : List Notice) (l : Listener) :
    l ∈ (n.accept notices).pending.keys ↔
      l ∈ n.pending.keys ∨ ∃ x ∈ notices, x.listener = l := by
  unfold accept
  rw [Backlog.mem_keys_addAll, List.map_map]
  refine or_congr_right ?_
  simp

theorem notice?_eq_some {o : Occurrence} {w : Watch} {x : Notice} (h : n.notice? o w = some x) :
    x = ⟨o, w.listener, w.events ∩ o.events⟩ := by
  unfold notice? at h
  split at h
  · exact nomatch h
  · dsimp only at h
    split at h
    · exact nomatch h
    · exact (Option.some.inj h).symm

end Notifier

end Narrowing
