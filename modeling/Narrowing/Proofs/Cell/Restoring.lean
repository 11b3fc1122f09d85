import Narrowing.Proofs.Cell.Store

/-!
Changing cells and taking the changes back does not fail. A change goes through if the cell is
there, the element is one the set can hold and a sum fits. A record can be taken back in whatever
state the cells are by then, because it names an element of a set that is there for good and never
changes what it can hold.
-/

namespace Narrowing

/-- What is not recorded of a set is not taken back. -/
theorem Contents.places_foldl_undo {C : Contents} {k : SetId} {records : List CellChange}
    (h : ∀ e, .inserted k e ∉ records ∧ .erased k e ∉ records) :
    (records.foldl undo C).places k = C.places k := by
  induction records generalizing C with
  | nil => rfl
  | cons r rest ih =>
      have hrest := fun e => And.intro
        (fun hr => (h e).1 (List.mem_cons_of_mem r hr))
        (fun hr => (h e).2 (List.mem_cons_of_mem r hr))
      rw [List.foldl_cons, ih hrest]
      cases r with
      | written c old => rfl
      | inserted j e =>
          refine Function.update_of_ne (fun hj => (h e).1 ?_) _ _
          rw [hj]
          exact List.mem_cons_self
      | erased j e =>
          refine Function.update_of_ne (fun hj => (h e).2 ?_) _ _
          rw [hj]
          exact List.mem_cons_self

namespace Cells

/-- How many numbers a set has to choose from. A name without a set has none. -/
def capacity (s : Cells) (k : SetId) : Nat := (s.sets.get? k).elim 0 SwapSet.capacity

/-- The record of a change of a set names an element that the set can hold. -/
def Holds (s : Cells) : CellChange → Prop
  | .written _ _ => True
  | .inserted k e => e < s.capacity k
  | .erased k e => e < s.capacity k

/-- Cells that can be rewound to any earlier level. -/
structure Restorable (s : Cells) : Prop where
  wellFormed : s.WellFormed
  holds : ∀ r ∈ s.trail.frames.flatten, s.Holds r

/-- `s'` came from `s` by changes whose records can be taken back. -/
structure Keeps (s s' : Cells) : Prop where
  capacity_eq : s'.capacity = s.capacity
  holds : ∀ r ∈ s'.trail.frames.flatten, r ∈ s.trail.frames.flatten ∨ s.Holds r

variable {s s' s'' : Cells} {c : CellId} {k : SetId} {e : Nat} {b : Bool}

theorem holds_congr (h : s'.capacity = s.capacity) (r : CellChange) : s'.Holds r ↔ s.Holds r := by
  cases r <;> simp only [Holds, h]

theorem exists_set_of_lt_capacity (h : e < s.capacity k) :
    ∃ set, s.sets.get? k = some set ∧ e < set.capacity := by
  unfold capacity at h
  cases hget : s.sets.get? k with
  | none => rw [hget] at h; exact absurd h (Nat.not_lt_zero e)
  | some set => rw [hget] at h; exact ⟨set, rfl, h⟩

/-- Replacing a set by one over the same numbers. -/
theorem capacity_put (s : Cells) {set set' : SwapSet} (hget : s.sets.get? k = some set)
    (hcapacity : set'.capacity = set.capacity) (trail : Trail CellChange) :
    ({ s with trail, sets := s.sets.put k set' } : Cells).capacity = s.capacity := by
  funext j
  change ((s.sets.put k set').get? j).elim 0 SwapSet.capacity =
    (s.sets.get? j).elim 0 SwapSet.capacity
  rw [Table.get?_put _ _ (Table.lt_size_of_get? hget)]
  by_cases hj : j = k
  · rw [if_pos hj, hj, hget]
    exact hcapacity
  · rw [if_neg hj]

theorem capacity_newSet_self (s : Cells) (n : Nat) : (s.newSet n).capacity ⟨s.sets.size⟩ = n := by
  have hget : (s.sets.push (.ofCapacity n)).get? (⟨s.sets.size⟩ : SetId) = some (.ofCapacity n) := by
    rw [Table.get?_push]
    exact if_pos rfl
  change ((s.sets.push (.ofCapacity n)).get? _).elim 0 SwapSet.capacity = n
  rw [hget]
  exact SwapSet.capacity_ofCapacity n

theorem capacity_newSet_of_lt (s : Cells) (n : Nat) (hk : k.index < s.sets.size) :
    (s.newSet n).capacity k = s.capacity k := by
  change ((s.sets.push (.ofCapacity n)).get? k).elim 0 SwapSet.capacity = _
  rw [Table.get?_push_of_lt _ _ hk]
  rfl

namespace Keeps

theorem refl (s : Cells) : Keeps s s := ⟨rfl, fun _ hr => Or.inl hr⟩

theorem trans (h : Keeps s s') (h' : Keeps s' s'') : Keeps s s'' := by
  refine ⟨h'.capacity_eq.trans h.capacity_eq, fun r hr => ?_⟩
  rcases h'.holds r hr with hr | hr
  · exact h.holds r hr
  · exact Or.inr ((holds_congr h.capacity_eq r).1 hr)

/-- A change that makes one record or none. -/
theorem of_push {r : CellChange} (hcapacity : s'.capacity = s.capacity)
    (htrail : s'.trail = s.trail ∨ s'.trail = s.trail.push r ∧ s.Holds r) : Keeps s s' := by
  refine ⟨hcapacity, fun r' hr' => ?_⟩
  rcases htrail with ht | ⟨ht, hr⟩
  · exact Or.inl (ht ▸ hr')
  · rw [ht, Trail.mem_frames_push] at hr'
    exact hr'.elim (fun he => Or.inr (he ▸ hr)) Or.inl

end Keeps

/-! ### What changes record -/

theorem keeps_assign {v : Int} (h : s.assign c v = .ok s') : Keeps s s' := by
  obtain ⟨cell, -, h⟩ := Checked.bind_eq_ok h
  split at h
  · obtain rfl := Except.ok.inj h
    exact .refl s
  · obtain rfl := Except.ok.inj h
    refine .of_push (r := .written c cell) rfl ?_
    by_cases hstamp : cell.stamp = some s.stamp
    · exact Or.inl (if_pos hstamp)
    · exact Or.inr ⟨if_neg hstamp, trivial⟩

theorem keeps_insert (hwf : s.WellFormed) (h : s.insert k e = .ok (b, s')) : Keeps s s' := by
  obtain ⟨set, hset, h⟩ := Checked.bind_eq_ok h
  obtain ⟨⟨fresh, set'⟩, hset', h⟩ := Checked.bind_eq_ok h
  obtain ⟨-, rfl⟩ := Prod.mk.inj (Except.ok.inj h)
  have hget := (Table.fetch_eq_ok_iff _).1 hset
  refine .of_push (r := .inserted k e)
    (capacity_put s hget (SwapSet.capacity_insert hset') _) ?_
  cases fresh with
  | false => exact Or.inl rfl
  | true =>
      obtain ⟨hwf', hmembers, -⟩ := SwapSet.insert_eq_ok (hwf.sets k set hget) hset'
      have he : e < set'.capacity := by
        refine SwapSet.lt_capacity_of_mem hwf' ?_
        rw [hmembers]
        exact Finset.mem_insert_self e _
      refine Or.inr ⟨rfl, ?_⟩
      rw [SwapSet.capacity_insert hset'] at he
      rwa [Holds, capacity, hget]

theorem keeps_erase (hwf : s.WellFormed) (h : s.erase k e = .ok (b, s')) : Keeps s s' := by
  obtain ⟨set, hset, h⟩ := Checked.bind_eq_ok h
  obtain ⟨⟨found, set'⟩, hset', h⟩ := Checked.bind_eq_ok h
  obtain ⟨-, rfl⟩ := Prod.mk.inj (Except.ok.inj h)
  have hget := (Table.fetch_eq_ok_iff _).1 hset
  refine .of_push (r := .erased k e)
    (capacity_put s hget (SwapSet.capacity_erase hset') _) ?_
  cases found with
  | false => exact Or.inl rfl
  | true =>
      have hset := hwf.sets k set hget
      have he := SwapSet.lt_capacity_of_mem hset ((SwapSet.erase_eq_ok hset hset').2.2.1 rfl)
      refine Or.inr ⟨rfl, ?_⟩
      rwa [Holds, capacity, hget]

theorem keeps_eraseAll (hwf : s.WellFormed) {l : List Nat} (h : s.eraseAll k l = .ok s') :
    Keeps s s' := by
  induction l generalizing s with
  | nil =>
      obtain rfl := Except.ok.inj h
      exact .refl s
  | cons e rest ih =>
      obtain ⟨⟨b, s₁⟩, hfirst, h⟩ := Checked.bind_eq_ok h
      exact (keeps_erase hwf hfirst).trans (ih (erase_eq_ok hwf hfirst).1.wellFormed h)

theorem keeps_perform (hwf : s.WellFormed) {op : CellOp} (h : s.perform op = .ok (b, s')) :
    Keeps s s' := by
  cases op with
  | assign c v =>
      obtain ⟨s₁, hs₁, h⟩ := Checked.bind_eq_ok h
      obtain ⟨-, rfl⟩ := Prod.mk.inj (Except.ok.inj h)
      exact keeps_assign hs₁
  | add c n =>
      obtain ⟨s₁, hs₁, h⟩ := Checked.bind_eq_ok h
      obtain ⟨-, rfl⟩ := Prod.mk.inj (Except.ok.inj h)
      obtain ⟨v, -, hs₁⟩ := Checked.bind_eq_ok hs₁
      obtain ⟨sum, -, hs₁⟩ := Checked.bind_eq_ok hs₁
      exact keeps_assign hs₁
  | insert k e => exact keeps_insert hwf h
  | erase k e => exact keeps_erase hwf h
  | clear k =>
      obtain ⟨s₁, hs₁, h⟩ := Checked.bind_eq_ok h
      obtain ⟨-, rfl⟩ := Prod.mk.inj (Except.ok.inj h)
      obtain ⟨l, -, hs₁⟩ := Checked.bind_eq_ok hs₁
      exact keeps_eraseAll hwf hs₁

/-! ### Changes go through -/

theorem exists_assign (hc : c.index < s.integers.size) (v : Int) : ∃ s', s.assign c v = .ok s' := by
  obtain ⟨cell, hcell⟩ := s.integers.exists_get? hc
  unfold assign
  rw [(Table.fetch_eq_ok_iff _).2 hcell]
  by_cases hv : cell.value = v
  · exact ⟨s, if_pos hv⟩
  · exact ⟨_, if_neg hv⟩

theorem read_of_lt (hc : c.index < s.integers.size) : s.read c = .ok (s.contents.value c) := by
  obtain ⟨cell, hcell⟩ := s.integers.exists_get? hc
  rw [read, (Table.fetch_eq_ok_iff _).2 hcell, Contents.value, contents, hcell]
  rfl

theorem exists_add (hc : c.index < s.integers.size) {n : Int}
    (hsum : Amount.InRange (s.contents.value c + n)) : ∃ s', s.add c n = .ok s' := by
  obtain ⟨s', hs'⟩ := exists_assign hc (s.contents.value c + n)
  refine ⟨s', ?_⟩
  rw [add, read_of_lt hc]
  change (Amount.check (s.contents.value c + n) >>= fun sum => s.assign c sum) = _
  rw [Amount.check_eq_ok hsum]
  exact hs'

theorem exists_insert (hwf : s.WellFormed) (he : e < s.capacity k) :
    ∃ b s', s.insert k e = .ok (b, s') := by
  obtain ⟨set, hget, he⟩ := exists_set_of_lt_capacity he
  obtain ⟨b, set', hset'⟩ := SwapSet.exists_insert (hwf.sets k set hget) he
  unfold insert Cells.set
  rw [(Table.fetch_eq_ok_iff _).2 hget]
  change ∃ b s', (set.insert e >>= _) = _
  rw [hset']
  exact ⟨b, _, rfl⟩

theorem exists_erase (hwf : s.WellFormed) (hk : k.index < s.sets.size) (e : Nat) :
    ∃ b s', s.erase k e = .ok (b, s') := by
  obtain ⟨set, hget⟩ := s.sets.exists_get? hk
  obtain ⟨b, set', hset'⟩ := SwapSet.exists_erase (hwf.sets k set hget) e
  unfold erase Cells.set
  rw [(Table.fetch_eq_ok_iff _).2 hget]
  change ∃ b s', (set.erase e >>= _) = _
  rw [hset']
  exact ⟨b, _, rfl⟩

theorem exists_eraseAll (hwf : s.WellFormed) (hk : k.index < s.sets.size) (l : List Nat) :
    ∃ s', s.eraseAll k l = .ok s' := by
  induction l generalizing s with
  | nil => exact ⟨s, rfl⟩
  | cons e rest ih =>
      obtain ⟨b, s₁, hs₁⟩ := exists_erase hwf hk e
      obtain ⟨hevolves, -⟩ := erase_eq_ok hwf hs₁
      rw [eraseAll, hs₁]
      exact ih hevolves.wellFormed (by rwa [hevolves.size_eq.2])

theorem exists_clear (hwf : s.WellFormed) (hk : k.index < s.sets.size) :
    ∃ s', s.clear k = .ok s' := by
  obtain ⟨set, hget⟩ := s.sets.exists_get? hk
  unfold clear members Cells.set
  rw [(Table.fetch_eq_ok_iff _).2 hget]
  exact exists_eraseAll hwf hk set.members

/-! ### Records can be taken back -/

theorem undo_of_holds (hsets : ∀ k set, s.sets.get? k = some set → set.WellFormed) {r : CellChange}
    (hr : s.Holds r) : ∃ s', s.undo r = .ok s' ∧ s'.capacity = s.capacity := by
  cases r with
  | written c old => exact ⟨_, rfl, rfl⟩
  | inserted k e =>
      obtain ⟨set, hget, -⟩ := exists_set_of_lt_capacity hr
      obtain ⟨b, set', hset'⟩ := SwapSet.exists_erase (hsets k set hget) e
      refine ⟨_, ?_, capacity_put s hget (SwapSet.capacity_erase hset') s.trail⟩
      change (s.sets.fetch k >>= fun set => set.erase e >>= _) = _
      rw [(Table.fetch_eq_ok_iff _).2 hget]
      change (set.erase e >>= _) = _
      rw [hset']
      rfl
  | erased k e =>
      obtain ⟨set, hget, he⟩ := exists_set_of_lt_capacity hr
      obtain ⟨b, set', hset'⟩ := SwapSet.exists_insert (hsets k set hget) he
      refine ⟨_, ?_, capacity_put s hget (SwapSet.capacity_insert hset') s.trail⟩
      change (s.sets.fetch k >>= fun set => set.insert e >>= _) = _
      rw [(Table.fetch_eq_ok_iff _).2 hget]
      change (set.insert e >>= _) = _
      rw [hset']
      rfl

theorem undoAll_of_holds (hsets : ∀ k set, s.sets.get? k = some set → set.WellFormed)
    {records : List CellChange} (hr : ∀ r ∈ records, s.Holds r) :
    ∃ s', s.undoAll records = .ok s' ∧ s'.capacity = s.capacity := by
  induction records generalizing s with
  | nil => exact ⟨s, rfl, rfl⟩
  | cons r rest ih =>
      obtain ⟨s₁, hs₁, hcapacity⟩ := undo_of_holds hsets (hr r List.mem_cons_self)
      obtain ⟨s', hs', hcapacity'⟩ := ih (undo_eq_ok hsets hs₁).1 fun r' hr' =>
        (holds_congr hcapacity r').2 (hr r' (List.mem_cons_of_mem _ hr'))
      refine ⟨s', ?_, hcapacity'.trans hcapacity⟩
      rw [undoAll, hs₁]
      exact hs'

namespace Restorable

variable (h : s.Restorable)
include h

theorem perform {op : CellOp} (hop : s.perform op = .ok (b, s')) : s'.Restorable := by
  have hkeeps := keeps_perform h.wellFormed hop
  refine ⟨(perform_eq_ok h.wellFormed hop).1.wellFormed, fun r hr => ?_⟩
  rw [holds_congr hkeeps.capacity_eq]
  exact (hkeeps.holds r hr).elim (h.holds r) id

theorem newInteger (v : Int) : (s.newInteger v).Restorable :=
  ⟨wellFormed_newInteger h.wellFormed v, h.holds⟩

theorem newSet (n : Nat) : (s.newSet n).Restorable := by
  have hcapacity : ∀ {k : SetId} {e : Nat}, e < s.capacity k → e < (s.newSet n).capacity k := by
    intro k e he
    obtain ⟨set, hget, he⟩ := exists_set_of_lt_capacity he
    change e < ((s.sets.push (.ofCapacity n)).get? k).elim 0 SwapSet.capacity
    rwa [Table.get?_push_of_lt _ _ (Table.lt_size_of_get? hget), hget]
  refine ⟨wellFormed_newSet h.wellFormed n, fun r hr => ?_⟩
  have hr := h.holds r hr
  cases r with
  | written c old => exact trivial
  | inserted k e => exact hcapacity hr
  | erased k e => exact hcapacity hr

theorem mark : s.mark.Restorable :=
  ⟨wellFormed_mark h.wellFormed, fun r hr => h.holds r ((Trail.mem_frames_mark _).1 hr)⟩

/-- Every earlier level can be returned to. -/
theorem exists_rewind {j : Nat} (hj : j < s.level) :
    ∃ s', s.rewind j = .ok s' ∧ s'.Restorable ∧ s'.capacity = s.capacity := by
  obtain ⟨s₁, hs₁, hcapacity⟩ := undoAll_of_holds (s := { s with trail := s.trail.below j })
    h.wellFormed.sets fun r hr => h.holds r (Trail.mem_frames_of_undone _ hr)
  have hrewind : s.rewind j =
      .ok { s₁ with stamps := s₁.stamps.drop (s₁.stamps.length - (j + 1)) } := by
    rw [Cells.rewind, Trail.rewind_of_lt hj]
    change ({ s with trail := s.trail.below j }.undoAll (s.trail.undone j) >>= _) = _
    rw [hs₁]
    rfl
  refine ⟨_, hrewind, ⟨(rewind_eq_ok h.wellFormed hrewind).2.1, fun r hr => ?_⟩, hcapacity⟩
  have htrail : s₁.trail = s.trail.below j := (undoAll_eq_ok
    (s := { s with trail := s.trail.below j }) h.wellFormed.sets hs₁).2.2.2.1
  change r ∈ s₁.trail.frames.flatten at hr
  rw [htrail] at hr
  exact (holds_congr hcapacity r).2 (h.holds r (Trail.mem_frames_of_below _ (Nat.le_of_lt hj) hr))

/-- A name without a set has no members at any level. -/
theorem places_past_of_le {k : SetId} (hk : s.sets.size ≤ k.index) (j : Nat) :
    (s.past j).places k = ∅ := by
  have hnone := (Table.get?_eq_none_iff s.sets k).2 hk
  have hcapacity : ∀ e, ¬ e < s.capacity k := by
    intro e he
    rw [capacity, hnone] at he
    exact Nat.not_lt_zero e he
  rw [past, Contents.places_foldl_undo fun e => ⟨fun hr => ?_, fun hr => ?_⟩]
  · change (s.sets.get? k).elim ∅ SwapSet.toFinset = ∅
    rw [hnone]
    rfl
  · exact hcapacity e (h.holds _ (Trail.mem_frames_of_undone _ hr))
  · exact hcapacity e (h.holds _ (Trail.mem_frames_of_undone _ hr))

end Restorable

theorem restorable_init : ({} : Cells).Restorable :=
  ⟨wellFormed_init, fun _ hr => absurd hr List.not_mem_nil⟩

end Cells

end Narrowing
