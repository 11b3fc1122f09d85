import Narrowing.Engine.Levels
import Narrowing.Proofs.Engine.Waiting

/-!
Who gets a turn. The history of an agenda tells for every propagator what the passes are for that were
requested of it since its last turn, and when and with which priority the first of them was. Exactly
the propagators for which that is something stand on the agenda, each of them once. The turn goes to
one with the highest priority, and among those to the one that has waited longest. An agenda that is
kept in levels does the same, whatever is requested in whatever order.
-/

namespace Narrowing

/-- What happens to an agenda, one thing at a time. -/
inductive Turn where
  /-- A pass of a propagator is requested. -/
  | requested (p : PropagatorId) (priority : Priority) (passes : Passes)
  /-- A propagator gets its turn. -/
  | met (p : PropagatorId)
  /-- All requests are dropped. -/
  | cleared
  deriving DecidableEq, Repr

namespace Turn

variable {past : List Turn} {p q : PropagatorId} {priority : Priority} {passes : Passes}

/-! ### What a history amounts to

A history has the latest turn first. -/

/-- All that passes of a propagator were requested for since its last turn. -/
def wanted (p : PropagatorId) : List Turn → Passes
  | [] => {}
  | .requested q _ passes :: past => if q = p then wanted p past ∪ passes else wanted p past
  | .met q :: past => if q = p then {} else wanted p past
  | .cleared :: _ => {}

/-- For a propagator that waits for its turn: how many turns there were before the first request that
it waits for, and the priority of that request. -/
def opened (p : PropagatorId) : List Turn → Nat × Priority
  | .requested q priority _ :: past =>
    if q = p ∧ wanted p past = {} then (past.length, priority) else opened p past
  | .met _ :: past => opened p past
  | _ => (0, .high)

/-- Of two propagators that wait, the first one comes first: its priority is higher, or the priorities
are equal and it has waited longer. -/
def Before (past : List Turn) (p q : PropagatorId) : Prop :=
  (opened p past).2.rank < (opened q past).2.rank ∨
    (opened p past).2.rank = (opened q past).2.rank ∧ (opened p past).1 < (opened q past).1

instance (p q : PropagatorId) : Decidable (Before past p q) := by
  unfold Before
  infer_instance

/-- Whether the requests of passes of a propagator are met or dropped. -/
def Serves (p : PropagatorId) : Turn → Prop
  | .met q => q = p
  | .cleared => True
  | _ => False

theorem union_eq_empty {a b : Passes} : a ∪ b = {} ↔ a = {} ∧ b = {} := by
  obtain ⟨a₁, a₂⟩ := a
  obtain ⟨b₁, b₂⟩ := b
  revert a₁ a₂ b₁ b₂
  decide

theorem empty_union (a : Passes) : ({} : Passes) ∪ a = a := rfl

/-- A propagator waits from the first request on that finds nothing wanted of it. -/
theorem opened_eq (h : wanted p past ≠ {}) :
    ∃ recent priority passes earlier, past = recent ++ .requested p priority passes :: earlier ∧
      (∀ m ∈ recent, ¬ m.Serves p) ∧ wanted p earlier = {} ∧ passes ≠ {} ∧
      opened p past = (earlier.length, priority) := by
  induction past with
  | nil => exact absurd rfl h
  | cons m past ih =>
      have hlater : ¬ m.Serves p → wanted p past ≠ {} → opened p (m :: past) = opened p past →
          ∃ recent priority passes earlier, m :: past = recent ++ .requested p priority passes :: earlier ∧
            (∀ m ∈ recent, ¬ m.Serves p) ∧ wanted p earlier = {} ∧ passes ≠ {} ∧
            opened p (m :: past) = (earlier.length, priority) := by
        intro hm hpast hsame
        obtain ⟨recent, priority, passes, earlier, rfl, hrecent, hrest⟩ := ih hpast
        rw [hsame]
        exact ⟨m :: recent, priority, passes, earlier, rfl, List.forall_mem_cons.2 ⟨hm, hrecent⟩, hrest⟩
      cases m with
      | requested q priority passes =>
          by_cases hfirst : q = p ∧ wanted p past = {}
          · obtain ⟨rfl, hnone⟩ := hfirst
            rw [wanted, if_pos rfl, hnone, empty_union] at h
            exact ⟨[], priority, passes, past, rfl, List.forall_mem_nil _, hnone, h, if_pos ⟨rfl, hnone⟩⟩
          · refine hlater not_false (fun hnone => ?_) (if_neg hfirst)
            rw [wanted, if_neg fun hq => hfirst ⟨hq, hnone⟩] at h
            exact h hnone
      | met q =>
          rw [wanted] at h
          split at h
          · exact absurd rfl h
          · next hq => exact hlater hq h rfl
      | cleared => exact absurd rfl h

theorem opened_lt (h : wanted p past ≠ {}) : (opened p past).1 < past.length := by
  obtain ⟨recent, priority, passes, earlier, rfl, -, -, -, hopened⟩ := opened_eq h
  rw [hopened, List.length_append, List.length_cons]
  exact Nat.lt_add_left _ (Nat.lt_succ_self _)

/-- A further request leaves the place of a propagator. -/
theorem opened_requested (h : wanted p past ≠ {}) (q : PropagatorId) (priority : Priority)
    (passes : Passes) : opened p (.requested q priority passes :: past) = opened p past :=
  if_neg fun hnone => h hnone.2

theorem opened_requested_self (h : wanted p past = {}) (priority : Priority) (passes : Passes) :
    opened p (.requested p priority passes :: past) = (past.length, priority) :=
  if_pos ⟨rfl, h⟩

theorem Before.ne (h : Before past p q) : p ≠ q := by
  rintro rfl
  rcases h with hlt | ⟨-, hlt⟩
  · exact lt_irrefl _ hlt
  · exact lt_irrefl _ hlt

theorem Before.rank_le (h : Before past p q) : (opened p past).2.rank ≤ (opened q past).2.rank :=
  h.elim Nat.le_of_lt fun h => Nat.le_of_eq h.1

end Turn

open Turn

variable {past : List Turn} {p q : PropagatorId} {priority π : Priority} {passes : Passes}
  {rs rest : List Request} {r new : Request} {n : Nat} {a a' : Agenda} {l l' : Levels}

/-! ### Requests in their order -/

namespace Agenda

/-- A request that comes behind those that come no later comes before the others, as the requests are
ordered by priority. -/
theorem pairwise_enter {R : Request → Request → Prop}
    (hsorted : rs.Pairwise fun r r' => r.priority.rank ≤ r'.priority.rank) (h : rs.Pairwise R)
    (hbehind : ∀ r ∈ rs, r.priority.rank ≤ new.priority.rank → R r new)
    (hahead : ∀ r ∈ rs, new.priority.rank < r.priority.rank → R new r) : (enter new rs).Pairwise R := by
  induction rs with
  | nil => exact List.pairwise_singleton _ _
  | cons r₀ rest ih =>
      obtain ⟨hle, hsorted'⟩ := List.pairwise_cons.1 hsorted
      obtain ⟨hR, h'⟩ := List.pairwise_cons.1 h
      rw [enter]
      split
      · next hlt =>
        refine List.pairwise_cons.2 ⟨fun r hr => hahead r hr ?_, h⟩
        rcases List.mem_cons.1 hr with rfl | hr
        · exact hlt
        · exact hlt.trans_le (hle r hr)
      · next hge =>
        refine List.pairwise_cons.2 ⟨fun r hr => ?_, ih hsorted' h'
          (fun r hr => hbehind r (List.mem_cons_of_mem _ hr))
          fun r hr => hahead r (List.mem_cons_of_mem _ hr)⟩
        rcases mem_enter.1 hr with rfl | hr
        · exact hbehind r₀ List.mem_cons_self (Nat.le_of_not_lt hge)
        · exact hR r hr

/-- An extension adds to the request of one propagator. -/
theorem mem_extend_iff (h : (rs.map Request.propagator).Nodup) :
    r ∈ extend p passes rs ↔ r.propagator ≠ p ∧ r ∈ rs ∨
      ∃ r' ∈ rs, r'.propagator = p ∧ r = { r' with passes := r'.passes ∪ passes } := by
  induction rs with
  | nil => simp [extend]
  | cons r₀ rest ih =>
      obtain ⟨hnotMem, h'⟩ := List.nodup_cons.1 h
      rw [extend]
      split
      · next hp =>
        have hothers : ∀ r' ∈ rest, r'.propagator ≠ p := fun r' hr' he =>
          hnotMem (List.mem_map.2 ⟨r', hr', he.trans hp.symm⟩)
        simp only [List.mem_cons]
        grind
      · next hp =>
        rw [List.mem_cons, ih h']
        simp only [List.mem_cons]
        grind

/-- The propagators of one priority, in their order. -/
def level (π : Priority) (rs : List Request) : List PropagatorId :=
  (rs.filter (·.priority = π)).map Request.propagator

theorem level_cons (π : Priority) (r : Request) (rs : List Request) :
    level π (r :: rs) = if r.priority = π then r.propagator :: level π rs else level π rs := by
  rw [level, List.filter_cons]
  by_cases h : r.priority = π
  · simp [h, level]
  · simp [h, level]

theorem level_extend (π : Priority) (p : PropagatorId) (passes : Passes) (rs : List Request) :
    level π (extend p passes rs) = level π rs := by
  induction rs with
  | nil => rfl
  | cons r rest ih =>
      rw [extend]
      split
      · rw [level_cons, level_cons]
      · rw [level_cons, level_cons, ih]

theorem level_eq_nil : level π rs = [] ↔ ∀ r ∈ rs, r.priority ≠ π := by
  simp [level]

theorem rank_injective {π π' : Priority} (h : π.rank = π'.rank) : π = π' := by
  cases π <;> cases π' <;> first | rfl | exact nomatch h

/-- A new request is the last one of its priority. -/
theorem level_enter (hsorted : rs.Pairwise fun r r' => r.priority.rank ≤ r'.priority.rank) :
    level π (enter new rs) =
      if new.priority = π then level π rs ++ [new.propagator] else level π rs := by
  induction rs with
  | nil => rw [enter, level_cons]; rfl
  | cons r₀ rest ih =>
      obtain ⟨hle, hsorted'⟩ := List.pairwise_cons.1 hsorted
      rw [enter]
      split
      · next hlt =>
        rw [level_cons]
        split
        · next hπ =>
          have hnone : level π (r₀ :: rest) = [] := by
            refine level_eq_nil.2 fun r hr he => ?_
            have hbehind : new.priority.rank < r.priority.rank := by
              rcases List.mem_cons.1 hr with rfl | hr
              · exact hlt
              · exact hlt.trans_le (hle r hr)
            rw [he, hπ] at hbehind
            exact lt_irrefl _ hbehind
          rw [hnone]
          rfl
        · rfl
      · rw [level_cons, ih hsorted', level_cons]
        split <;> split <;> rfl

/-- With a new request its priority is not empty, and no other priority changes. -/
theorem exists_level_enter (hsorted : rs.Pairwise fun r r' => r.priority.rank ≤ r'.priority.rank) :
    (∃ π : Priority, π.rank = n ∧ level π (enter new rs) ≠ []) ↔
      n = new.priority.rank ∨ ∃ π : Priority, π.rank = n ∧ level π rs ≠ [] := by
  simp only [level_enter hsorted]
  constructor
  · rintro ⟨π, rfl, hne⟩
    by_cases hπ : new.priority = π
    · exact Or.inl (congrArg _ hπ.symm)
    · rw [if_neg hπ] at hne
      exact Or.inr ⟨π, rfl, hne⟩
  · rintro (rfl | ⟨π, rfl, hne⟩)
    · refine ⟨new.priority, rfl, ?_⟩
      rw [if_pos rfl]
      exact List.append_ne_nil_of_right_ne_nil _ (List.cons_ne_nil _ _)
    · refine ⟨π, rfl, ?_⟩
      split
      · exact List.append_ne_nil_of_left_ne_nil hne _
      · exact hne

/-- Requests that are ordered by priority are those of each priority, one priority after the other. -/
theorem flatten_levels (hsorted : rs.Pairwise fun r r' => r.priority.rank ≤ r'.priority.rank) :
    level .high rs ++ (level .medium rs ++ (level .low rs ++ level .veryLow rs)) =
      rs.map Request.propagator := by
  induction rs with
  | nil => rfl
  | cons r rest ih =>
      obtain ⟨hle, hsorted'⟩ := List.pairwise_cons.1 hsorted
      have hnone : ∀ π : Priority, π.rank < r.priority.rank → level π rest = [] := fun π hπ =>
        level_eq_nil.2 fun r' hr' he => absurd (hle r' hr') (Nat.not_le_of_lt (he ▸ hπ))
      rw [List.map_cons, ← ih hsorted']
      simp only [level_cons]
      cases hr : r.priority <;> rw [hr] at hnone
      · rfl
      · rw [hnone .high (by decide)]
        rfl
      · rw [hnone .high (by decide), hnone .medium (by decide)]
        rfl
      · rw [hnone .high (by decide), hnone .medium (by decide), hnone .low (by decide)]
        rfl

end Agenda

open Agenda

/-! ### The agenda and its history -/

/-- A history made `a` the agenda. -/
structure Listed (past : List Turn) (a : Agenda) : Prop where
  ordered : (a.requests.map Request.propagator).Pairwise (Before past)
  mem : ∀ r, r ∈ a.requests ↔ r.passes = wanted r.propagator past ∧ r.passes ≠ {} ∧
    r.priority = (opened r.propagator past).2
  waiting_eq : a.waiting = a.requests.length

namespace Listed

theorem nodup (h : Listed past a) : (a.requests.map Request.propagator).Nodup :=
  h.ordered.imp Before.ne

theorem sorted (h : Listed past a) :
    a.requests.Pairwise fun r r' => r.priority.rank ≤ r'.priority.rank := by
  refine (List.pairwise_map.1 h.ordered).imp_of_mem fun hr hr' hbefore => ?_
  rw [((h.mem _).1 hr).2.2, ((h.mem _).1 hr').2.2]
  exact hbefore.rank_le

theorem has_iff (h : Listed past a) : a.has p = true ↔ wanted p past ≠ {} := by
  rw [Agenda.has_iff]
  constructor
  · rintro ⟨r, hr, rfl⟩
    obtain ⟨hpasses, hne, -⟩ := (h.mem r).1 hr
    exact hpasses ▸ hne
  · exact fun hne => ⟨⟨p, (opened p past).2, wanted p past⟩, (h.mem _).2 ⟨rfl, hne, rfl⟩, rfl⟩

theorem mem_propagators (h : Listed past a) :
    p ∈ a.requests.map Request.propagator ↔ wanted p past ≠ {} := by
  rw [← h.has_iff, Agenda.has_iff, List.mem_map]

theorem requests_eq_nil (h : Listed past a) : a.requests = [] ↔ ∀ p, wanted p past = {} := by
  rw [← List.map_eq_nil_iff (f := Request.propagator), List.eq_nil_iff_forall_not_mem]
  exact forall_congr' fun p => (not_congr h.mem_propagators).trans not_not

theorem isEmpty_iff (h : Listed past a) : a.isEmpty = true ↔ ∀ p, wanted p past = {} := by
  rw [isEmpty, h.waiting_eq, beq_iff_eq, List.length_eq_zero_iff, h.requests_eq_nil]

/-- A pass is requested of a propagator that stands on the agenda. -/
theorem extend (h : Listed past a) (hp : wanted p past ≠ {}) (priority : Priority) (passes : Passes) :
    Listed (.requested p priority passes :: past)
      { a with requests := Agenda.extend p passes a.requests } := by
  have hopened : ∀ q, wanted q past ≠ {} → opened q (.requested p priority passes :: past) = opened q past :=
    fun q hq => opened_requested hq p priority passes
  refine ⟨?_, fun r => ?_, ?_⟩
  · rw [map_propagator_extend]
    refine h.ordered.imp_of_mem fun hq hq' hbefore => ?_
    unfold Before
    rwa [hopened _ (h.mem_propagators.1 hq), hopened _ (h.mem_propagators.1 hq')]
  · rw [mem_extend_iff h.nodup, wanted]
    by_cases hr : r.propagator = p
    · have hplace : opened r.propagator (.requested p priority passes :: past) = opened p past := by
        rw [hr, hopened p hp]
      rw [if_pos hr.symm, hplace, hr]
      constructor
      · rintro (⟨hne, -⟩ | ⟨r', hr', rfl, rfl⟩)
        · exact absurd rfl hne
        · obtain ⟨hpasses, hne, hpriority⟩ := (h.mem r').1 hr'
          exact ⟨congrArg (· ∪ passes) hpasses, fun he => hne (union_eq_empty.1 he).1, hpriority⟩
      · rintro ⟨hpasses, -, hpriority⟩
        refine Or.inr ⟨⟨p, (opened p past).2, wanted p past⟩, (h.mem _).2 ⟨rfl, hp, rfl⟩, rfl, ?_⟩
        rw [← hpasses, ← hpriority, ← hr]
    · rw [if_neg fun he => hr he.symm, h.mem]
      have hplace : opened r.propagator (.requested p priority passes :: past) =
          opened r.propagator past := if_neg fun he => hr he.1.symm
      rw [hplace]
      constructor
      · rintro (⟨-, hmem⟩ | ⟨r', -, he, rfl⟩)
        · exact hmem
        · exact absurd he hr
      · exact fun hmem => Or.inl ⟨hr, hmem⟩
  · rw [length_extend]
    exact h.waiting_eq

/-- A pass is requested of a propagator that does not stand on the agenda. -/
theorem enter (h : Listed past a) (hp : wanted p past = {}) (priority : Priority)
    (hpasses : passes ≠ {}) : Listed (.requested p priority passes :: past)
      ⟨Agenda.enter ⟨p, priority, passes⟩ a.requests, a.waiting + 1⟩ := by
  have hothers : ∀ r ∈ a.requests, r.propagator ≠ p ∧
      opened r.propagator (.requested p priority passes :: past) = (opened r.propagator past) := by
    intro r hr
    have hwanted := h.mem_propagators.1 (List.mem_map_of_mem (f := Request.propagator) hr)
    exact ⟨fun he => hwanted (he ▸ hp), opened_requested hwanted p priority passes⟩
  have hself := opened_requested_self hp priority passes
  refine ⟨List.pairwise_map.2 (pairwise_enter h.sorted ?_ ?_ ?_), fun r => ?_, ?_⟩
  · refine (List.pairwise_map.1 h.ordered).imp_of_mem fun hr hr' hbefore => ?_
    unfold Before
    rwa [(hothers _ hr).2, (hothers _ hr').2]
  · intro r hr hle
    have hlt := opened_lt (h.mem_propagators.1 (List.mem_map_of_mem (f := Request.propagator) hr))
    rw [((h.mem r).1 hr).2.2] at hle
    unfold Before
    rw [(hothers r hr).2, hself]
    exact (Nat.lt_or_eq_of_le hle).imp id fun he => ⟨he, hlt⟩
  · intro r hr hlt
    rw [((h.mem r).1 hr).2.2] at hlt
    unfold Before
    rw [(hothers r hr).2, hself]
    exact Or.inl hlt
  · rw [mem_enter, wanted]
    by_cases hr : r.propagator = p
    · have hnotMem : r ∉ a.requests := fun hmem => (hothers r hmem).1 hr
      rw [if_pos hr.symm, hr, hp, empty_union, hself, or_iff_left hnotMem]
      constructor
      · rintro rfl
        exact ⟨rfl, hpasses, rfl⟩
      · rintro ⟨hpasses, -, hpriority⟩
        rw [← hpasses, ← hr]
        exact congrArg (Request.mk r.propagator · r.passes) hpriority
    · rw [if_neg fun he => hr he.symm]
      have hplace : opened r.propagator (.requested p priority passes :: past) =
          opened r.propagator past := if_neg fun he => hr he.1.symm
      rw [hplace, ← h.mem, or_iff_right]
      rintro rfl
      exact hr rfl
  · rw [length_enter]
    exact congrArg (· + 1) h.waiting_eq

theorem request (h : Listed past a) (p : PropagatorId) (priority : Priority) (hpasses : passes ≠ {}) :
    Listed (.requested p priority passes :: past) (a.request p priority passes) := by
  unfold Agenda.request
  split
  · next hhas => exact h.extend (h.has_iff.1 hhas) priority passes
  · next hhas => exact h.enter (not_not.1 (mt h.has_iff.2 hhas)) priority hpasses

/-- The first one gets its turn. -/
theorem pop (h : Listed past ⟨r :: rest, n⟩) : Listed (.met r.propagator :: past) ⟨rest, n - 1⟩ := by
  obtain ⟨hnotMem, -⟩ := List.nodup_cons.1 h.nodup
  refine ⟨(List.pairwise_cons.1 h.ordered).2, fun r' => ?_, ?_⟩
  · rw [wanted]
    split
    · next he =>
      refine iff_of_false (fun hr' => hnotMem (List.mem_map.2 ⟨r', hr', he.symm⟩)) ?_
      rintro ⟨hpasses, hne, -⟩
      exact hne hpasses
    · next hne =>
      have hmem := h.mem r'
      rw [List.mem_cons, or_iff_right fun he => hne (congrArg Request.propagator he).symm] at hmem
      exact hmem
  · have hcount : n = rest.length + 1 := h.waiting_eq
    rw [hcount]
    rfl

end Listed

/-! ### The levels of an agenda -/

/-- `l` keeps the requests of `a` in levels. -/
structure Stacked (past : List Turn) (a : Agenda) (l : Levels) : Prop where
  size_eq : l.queues.size = 4
  queue : ∀ π : Priority, l.queues.get? π.rank = some (level π a.requests)
  pending : ∀ p, (l.pending.get? p).getD {} = wanted p past
  enqueued_eq : l.enqueued = a.waiting
  ascending : l.present.Pairwise (· < ·)
  mem_present : ∀ n, n ∈ l.present ↔ ∃ π : Priority, π.rank = n ∧ level π a.requests ≠ []

/-- The passes that are found where there is room for them are those that are wanted. -/
theorem before_eq_wanted {pending : Table PropagatorId Passes} {before : Passes}
    (h : ∀ q, (pending.get? q).getD {} = wanted q past)
    (hp : (Levels.accommodate p pending).get? p = some before) : before = wanted p past := by
  rw [← h, ← Levels.get?_accommodate p p, hp]
  rfl

/-- What is wanted of all propagators after one more request. -/
theorem pending_accommodate {pending : Table PropagatorId Passes} {before : Passes}
    (h : ∀ q, (pending.get? q).getD {} = wanted q past)
    (hp : (Levels.accommodate p pending).get? p = some before) (priority : Priority) (passes : Passes)
    (q : PropagatorId) :
    (((Levels.accommodate p pending).put p (before ∪ passes)).get? q).getD {} =
      wanted q (.requested p priority passes :: past) := by
  rw [Table.get?_put _ _ (Levels.size_accommodate p pending), wanted]
  by_cases hq : q = p
  · rw [if_pos hq, if_pos hq.symm, hq, before_eq_wanted h hp]
    rfl
  · rw [if_neg hq, if_neg (Ne.symm hq), Levels.get?_accommodate, h]

namespace Stacked

theorem rank_lt (h : Stacked past a l) (π : Priority) : π.rank < l.queues.size :=
  Table.lt_size_of_get? (h.queue π)

/-- A queue is among those that are not empty exactly if it is not. -/
theorem rank_mem_present (h : Stacked past a l) :
    π.rank ∈ l.present ↔ level π a.requests ≠ [] := by
  rw [h.mem_present]
  refine ⟨?_, fun hne => ⟨π, rfl, hne⟩⟩
  rintro ⟨π', he, hne⟩
  rwa [← rank_injective he]

theorem flatten_queues (h : Stacked past a l) (ha : Listed past a) :
    l.queues.toList.flatten = a.requests.map Request.propagator := by
  have hqueues : l.queues.toList = [level .high a.requests, level .medium a.requests,
      level .low a.requests, level .veryLow a.requests] := by
    have hsize : l.queues.toList.length = 4 := h.size_eq
    have hget : ∀ π : Priority, l.queues.toList[π.rank]? = some (level π a.requests) := fun π => by
      rw [← h.queue π]
      exact Array.getElem?_toList
    match hlist : l.queues.toList, hsize with
    | [q₀, q₁, q₂, q₃], _ =>
      rw [hlist] at hget
      rw [← Option.some.inj (hget .high), ← Option.some.inj (hget .medium),
        ← Option.some.inj (hget .low), ← Option.some.inj (hget .veryLow)]
  rw [hqueues, ← flatten_levels ha.sorted]
  simp

/-- A propagator that is not queued comes to the end of the queue of its priority. -/
theorem enter (h : Stacked past a l) (ha : Listed past a) (hp : wanted p past = {})
    (priority : Priority) (passes : Passes) :
    Stacked (.requested p priority passes :: past)
      ⟨Agenda.enter ⟨p, priority, passes⟩ a.requests, a.waiting + 1⟩
      ⟨l.queues.put priority.rank (level priority a.requests ++ [p]),
        (Levels.accommodate p l.pending).put p passes, l.enqueued + 1,
        if level priority a.requests = [] then Levels.heapPush priority.rank l.present
        else l.present⟩ := by
  obtain ⟨before, hbefore⟩ := Levels.exists_accommodate p l.pending
  have hpending := pending_accommodate h.pending hbefore priority passes
  rw [before_eq_wanted h.pending hbefore, hp, empty_union] at hpending
  refine ⟨(Table.size_put _ _ _).trans h.size_eq, fun π => ?_, hpending,
    congrArg (· + 1) h.enqueued_eq, ?_, fun n => ?_⟩
  · rw [Table.get?_put _ _ (h.rank_lt priority), level_enter ha.sorted]
    by_cases hπ : priority = π
    · rw [if_pos hπ, if_pos (congrArg _ hπ.symm), hπ]
    · rw [if_neg hπ, if_neg fun he => hπ (rank_injective he).symm, h.queue]
  · dsimp only
    split
    · next hnil => exact Levels.pairwise_heapPush h.ascending fun hmem => h.rank_mem_present.1 hmem hnil
    · exact h.ascending
  · rw [exists_level_enter ha.sorted, ← h.mem_present]
    dsimp only
    split
    · exact Levels.mem_heapPush
    · next hne =>
      refine (or_iff_right_of_imp ?_).symm
      rintro rfl
      exact h.rank_mem_present.2 hne

/-- A propagator that is queued keeps its place. -/
theorem extend (h : Stacked past a l) {before : Passes}
    (hbefore : (Levels.accommodate p l.pending).get? p = some before) (priority : Priority)
    (passes : Passes) :
    Stacked (.requested p priority passes :: past)
      { a with requests := Agenda.extend p passes a.requests }
      { l with pending := (Levels.accommodate p l.pending).put p (before ∪ passes) } where
  size_eq := h.size_eq
  queue π := (h.queue π).trans (congrArg some (level_extend π p passes a.requests).symm)
  pending := pending_accommodate h.pending hbefore priority passes
  enqueued_eq := h.enqueued_eq
  ascending := h.ascending
  mem_present n := by
    simp only [level_extend]
    exact h.mem_present n

/-- The same passes are requested of both. -/
theorem request (h : Stacked past a l) (ha : Listed past a) (p : PropagatorId) (priority : Priority)
    (passes : Passes) : ∃ l', l.request p priority passes = .ok l' ∧
      Stacked (.requested p priority passes :: past) (a.request p priority passes) l' := by
  obtain ⟨before, hbefore⟩ := Levels.exists_accommodate p l.pending
  have hwanted := before_eq_wanted h.pending hbefore
  simp only [Levels.request, (Table.fetch_eq_ok_iff _).2 hbefore, bind, Except.bind]
  unfold Agenda.request
  by_cases hp : wanted p past = {}
  · have hnot : ¬ a.has p = true := fun hhas => ha.has_iff.1 hhas hp
    rw [if_neg hnot, if_neg fun hne => hne (hwanted.trans hp)]
    simp only [(Table.fetch_eq_ok_iff _).2 (h.queue priority)]
    exact ⟨_, rfl, h.enter ha hp priority passes⟩
  · rw [if_pos (ha.has_iff.2 hp), if_pos fun he => hp (hwanted ▸ he)]
    exact ⟨_, rfl, h.extend hbefore priority passes⟩

/-- The first propagator of the agenda is the first one of the highest queue that is not empty. -/
theorem exists_top (h : Stacked past ⟨r :: rest, n⟩ l) (ha : Listed past ⟨r :: rest, n⟩) :
    ∃ others, l.present = r.priority.rank :: others := by
  have hself : level r.priority (r :: rest) ≠ [] := by
    rw [level_cons, if_pos rfl]
    exact List.cons_ne_nil _ _
  have hleast : ∀ k ∈ l.present, r.priority.rank ≤ k := by
    intro k hk
    obtain ⟨π, rfl, hne⟩ := (h.mem_present k).1 hk
    obtain ⟨q, hq⟩ := List.exists_mem_of_ne_nil _ hne
    obtain ⟨r', hr', -⟩ := List.mem_map.1 hq
    obtain ⟨hr', hπ⟩ := List.mem_filter.1 hr'
    rw [← of_decide_eq_true hπ]
    rcases List.mem_cons.1 hr' with rfl | hr'
    · exact le_rfl
    · exact (List.pairwise_cons.1 ha.sorted).1 r' hr'
  have hmem := h.rank_mem_present.2 hself
  cases hpresent : l.present with
  | nil => exact absurd (hpresent ▸ hmem) List.not_mem_nil
  | cons top others =>
      have hascending := h.ascending
      rw [hpresent] at hmem hleast hascending
      have htop : r.priority.rank = top := by
        rcases List.mem_cons.1 hmem with he | hothers
        · exact he
        · have hlt := (List.pairwise_cons.1 hascending).1 _ hothers
          exact absurd (hleast top List.mem_cons_self) (Nat.not_le_of_lt hlt)
      exact ⟨others, congrArg (· :: others) htop.symm⟩

/-- Below the top of the heap are the places of the other priorities that are not empty. -/
theorem mem_others (h : Stacked past ⟨r :: rest, n⟩ l) {others : List Nat}
    (hpresent : l.present = r.priority.rank :: others) {k : Nat} :
    k ∈ others ↔ ∃ π : Priority, π.rank = k ∧ π ≠ r.priority ∧ level π rest ≠ [] := by
  have hmem : ∀ π : Priority, π ≠ r.priority → (π.rank ∈ others ↔ level π rest ≠ []) := by
    intro π hπ
    have hrank := h.rank_mem_present (π := π)
    rw [hpresent, List.mem_cons, or_iff_right fun he => hπ (rank_injective he), level_cons,
      if_neg (Ne.symm hπ)] at hrank
    exact hrank
  have hascending := h.ascending
  rw [hpresent] at hascending
  have hless := (List.pairwise_cons.1 hascending).1
  constructor
  · intro hk
    obtain ⟨π, rfl, -⟩ := (h.mem_present k).1 (hpresent ▸ List.mem_cons_of_mem _ hk)
    have hπ : π ≠ r.priority := by
      rintro rfl
      exact lt_irrefl _ (hless _ hk)
    exact ⟨π, rfl, hπ, (hmem π hπ).1 hk⟩
  · rintro ⟨π, rfl, hπ, hne⟩
    exact (hmem π hπ).2 hne

/-- The same propagator gets its turn. -/
theorem pop (h : Stacked past ⟨r :: rest, n⟩ l) (ha : Listed past ⟨r :: rest, n⟩) :
    ∃ l', l.pop? = .ok (some ((r.propagator, r.passes), l')) ∧ l'.enqueued + 1 = l.enqueued ∧
      Stacked (.met r.propagator :: past) ⟨rest, n - 1⟩ l' := by
  obtain ⟨others, hpresent⟩ := h.exists_top ha
  obtain ⟨hpasses, hne, -⟩ := (ha.mem r).1 List.mem_cons_self
  have hlevel : ∀ π, level π (r :: rest) = if r.priority = π then r.propagator :: level π rest
      else level π rest := fun π => level_cons π r rest
  have hqueue := h.queue r.priority
  rw [hlevel, if_pos rfl] at hqueue
  have hfetch : l.pending.get? r.propagator = some r.passes := by
    have hpending := h.pending r.propagator
    cases hget : l.pending.get? r.propagator with
    | none =>
        rw [hget] at hpending
        exact absurd (hpasses.trans hpending.symm) hne
    | some passes =>
        rw [hget] at hpending
        exact congrArg some (Eq.trans hpending hpasses.symm)
  have hcount : l.enqueued = rest.length + 1 := h.enqueued_eq.trans ha.waiting_eq
  have hascending := h.ascending
  rw [hpresent] at hascending
  have hascending' := (List.pairwise_cons.1 hascending).2
  simp only [Levels.pop?, hpresent, (Table.fetch_eq_ok_iff _).2 hqueue,
    (Table.fetch_eq_ok_iff _).2 hfetch, bind, Except.bind, hcount, Nat.succ_ne_zero, if_false]
  refine ⟨_, rfl, rfl, (Table.size_put _ _ _).trans h.size_eq, fun π => ?_, fun q => ?_, ?_, ?_,
    fun k => ?_⟩
  · rw [Table.get?_put _ _ (h.rank_lt r.priority)]
    by_cases hπ : π = r.priority
    · rw [if_pos (congrArg _ hπ), hπ]
    · rw [if_neg fun he => hπ (rank_injective he), h.queue, hlevel, if_neg (Ne.symm hπ)]
  · rw [Table.get?_put _ _ (Table.lt_size_of_get? hfetch), wanted]
    by_cases hq : q = r.propagator
    · rw [if_pos hq, if_pos hq.symm]
      rfl
    · rw [if_neg hq, if_neg (Ne.symm hq), h.pending]
  · have hn : n = rest.length + 1 := ha.waiting_eq
    rw [hn]
  · dsimp only
    split
    · exact hascending'
    · exact hascending
  · have hothers := h.mem_others hpresent (k := k)
    dsimp only
    split
    · next hnil =>
      rw [hothers]
      refine exists_congr fun π => and_congr_right fun _ => and_iff_right_of_imp ?_
      rintro hne rfl
      exact hne hnil
    · next hrest =>
      rw [List.mem_cons, hothers]
      constructor
      · rintro (rfl | ⟨π, rfl, -, hne⟩)
        · exact ⟨r.priority, rfl, hrest⟩
        · exact ⟨π, rfl, hne⟩
      · rintro ⟨π, rfl, hne⟩
        by_cases hπ : π = r.priority
        · exact Or.inl (congrArg _ hπ)
        · exact Or.inr ⟨π, rfl, hπ, hne⟩

theorem pop_nil (h : Stacked past ⟨[], n⟩ l) : l.pop? = .ok none := by
  have hpresent : l.present = [] := by
    refine List.eq_nil_iff_forall_not_mem.2 fun k hk => ?_
    obtain ⟨π, -, hne⟩ := (h.mem_present k).1 hk
    exact hne rfl
  rw [Levels.pop?, hpresent]

theorem clear (h : Stacked past a l) : Stacked (.cleared :: past) {} l.clear := by
  refine ⟨Array.size_replicate.trans h.size_eq, fun π => ?_, fun q => ?_, rfl, List.Pairwise.nil, fun k => ?_⟩
  · exact Array.getElem?_replicate.trans (if_pos (h.rank_lt π))
  · simp only [Table.get?, Levels.clear, Array.getElem?_replicate]
    split <;> rfl
  · refine iff_of_false List.not_mem_nil ?_
    rintro ⟨π, -, hne⟩
    exact hne rfl

/-- The places on the heap are those of the queues that are not empty. -/
theorem mem_present_iff (h : Stacked past a l) (k : Nat) :
    k ∈ l.present ↔ ∃ queue, l.queues.get? k = some queue ∧ queue ≠ [] := by
  rw [h.mem_present]
  constructor
  · rintro ⟨π, rfl, hne⟩
    exact ⟨_, h.queue π, hne⟩
  · rintro ⟨queue, hqueue, hne⟩
    have hk : k < 4 := h.size_eq ▸ Table.lt_size_of_get? hqueue
    obtain ⟨π, rfl⟩ : ∃ π : Priority, π.rank = k := by
      match k, hk with
      | 0, _ => exact ⟨.high, rfl⟩
      | 1, _ => exact ⟨.medium, rfl⟩
      | 2, _ => exact ⟨.low, rfl⟩
      | 3, _ => exact ⟨.veryLow, rfl⟩
    rw [h.queue, Option.some.injEq] at hqueue
    exact ⟨π, rfl, hqueue ▸ hne⟩

end Stacked

/-! ### An agenda in use -/

namespace Turn

/-- The propagator that is to get the next turn. -/
def First (past : List Turn) (p : PropagatorId) : Prop :=
  wanted p past ≠ {} ∧ ∀ q, wanted q past ≠ {} → q ≠ p → Before past p q

/-- Histories of an agenda, what it is, and its levels. Passes of any propagators are requested with
any priorities, the propagators get their turns, and requests are dropped, in whatever order. -/
inductive Reached : List Turn → Agenda → Levels → Prop
  | start : Reached [] {} {}
  | request {past : List Turn} {a : Agenda} {l l' : Levels} (h : Reached past a l) {p : PropagatorId}
      {priority : Priority} {passes : Passes} (hpasses : passes ≠ {})
      (hl : l.request p priority passes = .ok l') :
      Reached (.requested p priority passes :: past) (a.request p priority passes) l'
  | pop {past : List Turn} {a a' : Agenda} {l l' : Levels} (h : Reached past a l) {r : Request}
      {turn : PropagatorId × Passes} (ha : a.pop? = some (r, a')) (hl : l.pop? = .ok (some (turn, l'))) :
      Reached (.met r.propagator :: past) a' l'
  | clear {past : List Turn} {a : Agenda} {l : Levels} (h : Reached past a l) :
      Reached (.cleared :: past) {} l.clear

theorem Reached.listed_and_stacked (h : Reached past a l) : Listed past a ∧ Stacked past a l := by
  induction h with
  | start =>
      refine ⟨⟨List.Pairwise.nil, fun r => ?_, rfl⟩,
        ⟨rfl, fun π => ?_, fun _ => rfl, rfl, List.Pairwise.nil, fun n => ?_⟩⟩
      · exact iff_of_false List.not_mem_nil fun hr => hr.2.1 hr.1
      · cases π <;> rfl
      · exact iff_of_false List.not_mem_nil fun ⟨π, _, hne⟩ => hne rfl
  | @request past a l l' _ p priority passes hpasses hl ih =>
      obtain ⟨hlisted, hstacked⟩ := ih
      obtain ⟨l'', hl'', hstacked'⟩ := hstacked.request hlisted p priority passes
      obtain rfl := Except.ok.inj (hl.symm.trans hl'')
      exact ⟨hlisted.request p priority hpasses, hstacked'⟩
  | @pop past a a' l l' _ r turn ha hl ih =>
      obtain ⟨hlisted, hstacked⟩ := ih
      obtain ⟨requests, n⟩ := a
      cases requests with
      | nil => exact nomatch ha
      | cons first rest =>
          obtain ⟨rfl, rfl⟩ := Prod.mk.inj (Option.some.inj ha)
          obtain ⟨l'', hl'', -, hstacked'⟩ := hstacked.pop hlisted
          obtain ⟨-, rfl⟩ := Prod.mk.inj (Option.some.inj (Except.ok.inj (hl.symm.trans hl'')))
          exact ⟨hlisted.pop, hstacked'⟩
  | clear _ ih =>
      refine ⟨⟨List.Pairwise.nil, fun r => ?_, rfl⟩, ih.2.clear⟩
      exact iff_of_false List.not_mem_nil fun hr => hr.2.1 hr.1

/-- **Turns.** An agenda is a queue by priority in which requests are merged. Each propagator stands on
it at most once, namely if passes of it were requested since its last turn. The turn goes to the one
with the highest priority at the first of these requests, among those with this priority to the one
that was requested first, and its pass is for everything that was requested in between. There is no
turn exactly if nothing is requested. The levels hold the same propagators in the same order, each
queue that is not empty once on the heap; requests and turns never fail there, and the count stays the
number of propagators that wait. -/
theorem Reached.turns (h : Reached past a l) :
    (a.requests.map Request.propagator).Nodup ∧
      l.queues.toList.flatten = a.requests.map Request.propagator ∧
      (∀ p, p ∈ a.requests.map Request.propagator ↔ wanted p past ≠ {}) ∧
      (∀ p, (l.pending.get? p).getD {} = wanted p past) ∧
      (l.present.Pairwise (· < ·) ∧
        ∀ n, n ∈ l.present ↔ ∃ queue, l.queues.get? n = some queue ∧ queue ≠ []) ∧
      (a.waiting = a.requests.length ∧ l.enqueued = a.requests.length) ∧
      (a.isEmpty = true ↔ ∀ p, wanted p past = {}) ∧ l.isEmpty = a.isEmpty ∧
      (a.pop? = none ↔ ∀ p, wanted p past = {}) ∧ (l.pop? = .ok none ↔ ∀ p, wanted p past = {}) ∧
      ((∃ p, wanted p past ≠ {}) → ∃ p, First past p ∧
        (∃ a', a.pop? = some (⟨p, (opened p past).2, wanted p past⟩, a') ∧ a'.waiting + 1 = a.waiting) ∧
        ∃ l', l.pop? = .ok (some ((p, wanted p past), l')) ∧ l'.enqueued + 1 = l.enqueued) ∧
      ∀ p priority passes, ∃ l', l.request p priority passes = .ok l' := by
  obtain ⟨hlisted, hstacked⟩ := h.listed_and_stacked
  have hcount : l.isEmpty = a.isEmpty := congrArg (· == 0) hstacked.enqueued_eq
  refine ⟨hlisted.nodup, hstacked.flatten_queues hlisted, fun p => hlisted.mem_propagators,
    hstacked.pending, ⟨hstacked.ascending, hstacked.mem_present_iff⟩,
    ⟨hlisted.waiting_eq, hstacked.enqueued_eq.trans hlisted.waiting_eq⟩, hlisted.isEmpty_iff, hcount, ?_⟩
  have hrequest : ∀ p priority passes, ∃ l', l.request p priority passes = .ok l' := by
    intro p priority passes
    obtain ⟨l', hl', -⟩ := hstacked.request hlisted p priority passes
    exact ⟨l', hl'⟩
  obtain ⟨requests, n⟩ := a
  cases requests with
  | nil =>
      have hnone := hlisted.requests_eq_nil.1 rfl
      refine ⟨iff_of_true rfl hnone, iff_of_true hstacked.pop_nil hnone, ?_, hrequest⟩
      rintro ⟨p, hp⟩
      exact absurd (hnone p) hp
  | cons first rest =>
      obtain ⟨hpasses, hne, hpriority⟩ := (hlisted.mem first).1 List.mem_cons_self
      obtain ⟨l', hl', henqueued, -⟩ := hstacked.pop hlisted
      have hsome : ¬ ∀ p, wanted p past = {} := fun hnone => hne (hpasses.trans (hnone first.propagator))
      have hl'' : l.pop? ≠ .ok none := by
        rw [hl']
        exact nofun
      refine ⟨iff_of_false nofun hsome, iff_of_false hl'' hsome, fun _ =>
        ⟨first.propagator, ⟨hpasses ▸ hne, fun q hq hqne => ?_⟩, ⟨⟨rest, n - 1⟩, ?_, ?_⟩, l', ?_, henqueued⟩,
        hrequest⟩
      · refine (List.pairwise_cons.1 hlisted.ordered).1 q ?_
        exact (List.mem_cons.1 (hlisted.mem_propagators.2 hq)).resolve_left hqne
      · rw [← hpasses, ← hpriority]
        rfl
      · have hn : n = rest.length + 1 := hlisted.waiting_eq
        rw [hn]
        rfl
      · rw [← hpasses]
        exact hl'

/-! ### Four propagators -/

/-- The first request of `1` was for what changed and with a low priority. The second one was from
scratch and with a high priority, which does not bring its turn forward. The queue of the high priority
went empty in between, and everything that was requested before was dropped. -/
def busy : List Turn :=
  [.requested ⟨3⟩ .high .fromScratch, .requested ⟨0⟩ .medium .takingUp, .met ⟨0⟩,
    .requested ⟨2⟩ .low .takingUp, .requested ⟨1⟩ .high .fromScratch, .requested ⟨0⟩ .high .fromScratch,
    .requested ⟨1⟩ .low .takingUp, .cleared, .requested ⟨2⟩ .veryLow .fromScratch]

def busyAgenda : Agenda :=
  ⟨[⟨⟨3⟩, .high, .fromScratch⟩, ⟨⟨0⟩, .medium, .takingUp⟩, ⟨⟨1⟩, .low, .fromScratch ∪ .takingUp⟩,
    ⟨⟨2⟩, .low, .takingUp⟩], 4⟩

def busyLevels : Levels where
  queues := ⟨#[[⟨3⟩], [⟨0⟩], [⟨1⟩, ⟨2⟩], []]⟩
  pending := ⟨#[.takingUp, .fromScratch ∪ .takingUp, .takingUp, .fromScratch]⟩
  enqueued := 4
  present := [0, 1, 2]

theorem reached_busy : Reached busy busyAgenda busyLevels := by
  have hrequested : Reached (busy.drop 8) _
      ⟨⟨#[[], [], [], [⟨2⟩]]⟩, ⟨#[{}, {}, .fromScratch]⟩, 1, [3]⟩ := Reached.start.request (by decide) rfl
  have hcleared : Reached (busy.drop 7) {} ⟨⟨#[[], [], [], []]⟩, ⟨#[{}, {}, {}]⟩, 0, []⟩ :=
    hrequested.clear
  have hlow : Reached (busy.drop 6) _
      ⟨⟨#[[], [], [⟨1⟩], []]⟩, ⟨#[{}, .takingUp, {}]⟩, 1, [2]⟩ := hcleared.request (by decide) rfl
  have hhigh : Reached (busy.drop 5) _
      ⟨⟨#[[⟨0⟩], [], [⟨1⟩], []]⟩, ⟨#[.fromScratch, .takingUp, {}]⟩, 2, [0, 2]⟩ :=
    hlow.request (by decide) rfl
  have hmerged : Reached (busy.drop 4) _
      ⟨⟨#[[⟨0⟩], [], [⟨1⟩], []]⟩, ⟨#[.fromScratch, .fromScratch ∪ .takingUp, {}]⟩, 2, [0, 2]⟩ :=
    hhigh.request (by decide) rfl
  have hlast : Reached (busy.drop 3) _
      ⟨⟨#[[⟨0⟩], [], [⟨1⟩, ⟨2⟩], []]⟩, ⟨#[.fromScratch, .fromScratch ∪ .takingUp, .takingUp]⟩, 3, [0, 2]⟩ :=
    hmerged.request (by decide) rfl
  have hmet : Reached (busy.drop 2) _
      ⟨⟨#[[], [], [⟨1⟩, ⟨2⟩], []]⟩, ⟨#[{}, .fromScratch ∪ .takingUp, .takingUp]⟩, 2, [2]⟩ :=
    hlast.pop rfl rfl
  have hagain : Reached (busy.drop 1) _
      ⟨⟨#[[], [⟨0⟩], [⟨1⟩, ⟨2⟩], []]⟩, ⟨#[.takingUp, .fromScratch ∪ .takingUp, .takingUp]⟩, 3, [1, 2]⟩ :=
    hmet.request (by decide) rfl
  exact hagain.request (by decide) rfl

theorem turns_busy : Reached busy busyAgenda busyLevels ∧
    (busyAgenda.requests.map Request.propagator).Nodup ∧
      busyLevels.queues.toList.flatten = busyAgenda.requests.map Request.propagator ∧
      (∀ p, p ∈ busyAgenda.requests.map Request.propagator ↔ wanted p busy ≠ {}) ∧
      (∀ p, (busyLevels.pending.get? p).getD {} = wanted p busy) ∧
      (busyLevels.present.Pairwise (· < ·) ∧
        ∀ n, n ∈ busyLevels.present ↔ ∃ queue, busyLevels.queues.get? n = some queue ∧ queue ≠ []) ∧
      (busyAgenda.waiting = busyAgenda.requests.length ∧
        busyLevels.enqueued = busyAgenda.requests.length) ∧
      (busyAgenda.isEmpty = true ↔ ∀ p, wanted p busy = {}) ∧ busyLevels.isEmpty = busyAgenda.isEmpty ∧
      (busyAgenda.pop? = none ↔ ∀ p, wanted p busy = {}) ∧
      (busyLevels.pop? = .ok none ↔ ∀ p, wanted p busy = {}) ∧
      ((∃ p, wanted p busy ≠ {}) → ∃ p, First busy p ∧
        (∃ a', busyAgenda.pop? = some (⟨p, (opened p busy).2, wanted p busy⟩, a') ∧
          a'.waiting + 1 = busyAgenda.waiting) ∧
        ∃ l', busyLevels.pop? = .ok (some ((p, wanted p busy), l')) ∧
          l'.enqueued + 1 = busyLevels.enqueued) ∧
      ∀ p priority passes, ∃ l', busyLevels.request p priority passes = .ok l' :=
  ⟨reached_busy, reached_busy.turns⟩

/-- The second request of `1` asked for a high priority, but it waits with the low one of the first. -/
example : opened ⟨1⟩ busy = (2, .low) ∧ Before busy ⟨0⟩ ⟨1⟩ ∧ Before busy ⟨1⟩ ⟨2⟩ := by decide

end Turn

end Narrowing
