import Narrowing.Proofs.Cell.Restoring
import Mathlib.Data.List.GetD

/-!
Cells against the plainest memory that follows checkpoints: a copy of everything for every open
checkpoint. To open a checkpoint is to copy, to return to one is to drop the copies above it, and a
new cell is put into every copy. Whatever sequence of operations the copies admit, the cells go
through it with the same answers and hold what the current copy holds.
-/

namespace Narrowing

/-- An operation on the cells. -/
inductive CellStep where
  | newInteger (value : Int)
  | newSet (capacity : Nat)
  | perform (op : CellOp)
  | mark
  | rewind (level : Nat)

/-- A copy of everything: the value of every integer and the members of every set. -/
structure Snapshot where
  value : CellId → Int := fun _ => 0
  members : SetId → Finset Nat := fun _ => ∅

/-- The copies of all open checkpoints, the current one apart, the latest of the others first; how
many integers there are, and how many numbers each set has to choose from. -/
structure Snapshots where
  current : Snapshot := {}
  earlier : List Snapshot := []
  integers : Nat := 0
  capacities : List Nat := []

/-- Make one change. The answer tells whether a set changed. -/
def Snapshot.perform (S : Snapshot) : CellOp → Bool × Snapshot
  | .assign c v => (false, { S with value := Function.update S.value c v })
  | .add c n => (false, { S with value := Function.update S.value c (S.value c + n) })
  | .insert k e => (e ∉ S.members k,
    { S with members := Function.update S.members k (insert e (S.members k)) })
  | .erase k e => (e ∈ S.members k,
    { S with members := Function.update S.members k ((S.members k).erase e) })
  | .clear k => (false, { S with members := Function.update S.members k ∅ })

namespace Snapshots

/-- The current checkpoint. -/
def level (M : Snapshots) : Nat := M.earlier.length

/-- All copies, the current one first. -/
def copies (M : Snapshots) : List Snapshot := M.current :: M.earlier

/-- Change every copy. -/
def edit (M : Snapshots) (f : Snapshot → Snapshot) : Snapshots :=
  { M with current := f M.current, earlier := M.earlier.map f }

/-- Make the copy of level `k` the current one. -/
def back (M : Snapshots) (k : Nat) : Snapshots :=
  match M.copies.drop (M.level - k) with
  | [] => M
  | current :: earlier => { M with current, earlier }

/-- One operation and its answer. -/
def step (M : Snapshots) : CellStep → Bool × Snapshots
  | .newInteger v =>
    let M' := M.edit fun S => { S with value := Function.update S.value ⟨M.integers⟩ v }
    (false, { M' with integers := M.integers + 1 })
  | .newSet n =>
    let M' := M.edit fun S =>
      { S with members := Function.update S.members ⟨M.capacities.length⟩ ∅ }
    (false, { M' with capacities := M.capacities ++ [n] })
  | .perform op => ((M.current.perform op).1, { M with current := (M.current.perform op).2 })
  | .mark => (false, { M with earlier := M.copies })
  | .rewind k => (false, M.back k)

/-- The operation names cells that are there, adds elements that the set can hold and sums that fit
an integer, and returns to an earlier checkpoint. -/
def Admits (M : Snapshots) : CellStep → Prop
  | .newInteger _ => True
  | .newSet _ => True
  | .perform (.assign c _) => c.index < M.integers
  | .perform (.add c n) => c.index < M.integers ∧ Amount.InRange (M.current.value c + n)
  | .perform (.insert k e) => e < M.capacities.getD k.index 0
  | .perform (.erase k _) => k.index < M.capacities.length
  | .perform (.clear k) => k.index < M.capacities.length
  | .mark => True
  | .rewind k => k < M.level

instance (M : Snapshots) : DecidablePred M.Admits
  | .newInteger _ => inferInstanceAs (Decidable True)
  | .newSet _ => inferInstanceAs (Decidable True)
  | .perform (.assign _ _) => inferInstanceAs (Decidable (_ < _))
  | .perform (.add _ _) => inferInstanceAs (Decidable (_ ∧ _))
  | .perform (.insert _ _) => inferInstanceAs (Decidable (_ < _))
  | .perform (.erase _ _) => inferInstanceAs (Decidable (_ < _))
  | .perform (.clear _) => inferInstanceAs (Decidable (_ < _))
  | .mark => inferInstanceAs (Decidable True)
  | .rewind _ => inferInstanceAs (Decidable (_ < _))

/-- A sequence of operations and their answers. -/
def run (M : Snapshots) : List CellStep → List Bool × Snapshots
  | [] => ([], M)
  | x :: rest => ((M.step x).1 :: ((M.step x).2.run rest).1, ((M.step x).2.run rest).2)

/-- Every operation of a sequence is admitted when its turn comes. -/
def AdmitsAll (M : Snapshots) : List CellStep → Prop
  | [] => True
  | x :: rest => M.Admits x ∧ (M.step x).2.AdmitsAll rest

instance decidableAdmitsAll (M : Snapshots) : DecidablePred M.AdmitsAll
  | [] => inferInstanceAs (Decidable True)
  | x :: rest =>
    have := decidableAdmitsAll (M.step x).2 rest
    inferInstanceAs (Decidable (M.Admits x ∧ _))

/-- The copies that are left when the copies above a level are dropped. -/
theorem copies_back (M : Snapshots) (k : Nat) :
    (M.back k).copies = M.copies.drop (M.level - k) := by
  unfold back
  split
  · next hdrop =>
    have hlength := congrArg List.length hdrop
    rw [List.length_drop, copies, List.length_cons, List.length_nil, level] at hlength
    omega
  · next hdrop => exact hdrop.symm

end Snapshots

/-- The copy that contents are. -/
def Contents.snapshot (C : Contents) : Snapshot := ⟨C.value, C.places⟩

namespace Contents

theorem value_push (C : Contents) (cell : Cell) :
    (C.push cell).value = Function.update C.value ⟨C.integers.size⟩ cell.value := by
  funext c
  change ((C.integers.push cell).get? c).elim 0 Cell.value = _
  rw [Table.get?_push]
  by_cases hc : c = ⟨C.integers.size⟩
  · rw [hc, Function.update_self]
    exact congrArg (Option.elim · 0 Cell.value) (if_pos rfl)
  · rw [Function.update_of_ne hc]
    exact congrArg (Option.elim · 0 Cell.value) (if_neg fun he => hc (Table.eq_of_index he))

end Contents

namespace Cells

/-- One operation and its answer. -/
def step (s : Cells) : CellStep → Checked (Bool × Cells)
  | .newInteger v => .ok (false, s.newInteger v)
  | .newSet n => .ok (false, s.newSet n)
  | .perform op => s.perform op
  | .mark => .ok (false, s.mark)
  | .rewind k => do return (false, ← s.rewind k)

/-- A sequence of operations and their answers. -/
def run (s : Cells) : List CellStep → Checked (List Bool × Cells)
  | [] => .ok ([], s)
  | x :: rest => do
    let (answer, s) ← s.step x
    let (answers, s) ← s.run rest
    return (answer :: answers, s)

/-- Everything that can be read agrees with the current copy. -/
structure Agrees (s : Cells) (M : Snapshots) : Prop where
  level_eq : s.level = M.level
  read_eq : ∀ c, s.read c =
    if c.index < M.integers then .ok (M.current.value c) else .error .outOfBounds
  set_eq_ok : ∀ k, k.index < M.capacities.length → ∃ set, s.set k = .ok set ∧
    (∀ e, set.contains e = true ↔ e ∈ M.current.members k) ∧ set.size = (M.current.members k).card
  members_eq_ok : ∀ k, k.index < M.capacities.length → ∃ l, s.members k = .ok l ∧ l.Nodup ∧
    ∀ e, e ∈ l ↔ e ∈ M.current.members k
  set_eq_error : ∀ k, M.capacities.length ≤ k.index → s.set k = .error .outOfBounds

/-- What a rewind to each level would give, as copies. -/
def snapshots (s : Cells) : Snapshots where
  current := s.contents.snapshot
  earlier := (List.range s.level).reverse.map fun j => (s.past j).snapshot
  integers := s.integers.size
  capacities := s.sets.toList.map SwapSet.capacity

variable {s s' : Cells}

theorem level_snapshots (s : Cells) : s.snapshots.level = s.level := by
  simp only [Snapshots.level, snapshots, List.length_map, List.length_reverse, List.length_range]

theorem copies_snapshots (s : Cells) :
    s.snapshots.copies = (List.range (s.level + 1)).reverse.map fun j => (s.past j).snapshot := by
  rw [List.range_succ, List.reverse_append, List.reverse_singleton, List.singleton_append,
    List.map_cons, past_level]
  rfl

theorem length_capacities (s : Cells) : s.snapshots.capacities.length = s.sets.size := by
  rw [snapshots, List.length_map]
  rfl

theorem capacity_eq_getD (s : Cells) (k : SetId) :
    s.snapshots.capacities.getD k.index 0 = s.capacity k := by
  rw [List.getD_eq_getElem?_getD]
  change ((s.sets.entries.toList.map SwapSet.capacity)[k.index]?).getD 0 =
    (s.sets.entries[k.index]?).elim 0 SwapSet.capacity
  rw [List.getElem?_map, Array.getElem?_toList]
  cases s.sets.entries[k.index]? <;> rfl

theorem capacities_eq (hsize : s'.sets.size = s.sets.size) (hcapacity : s'.capacity = s.capacity) :
    s'.snapshots.capacities = s.snapshots.capacities := by
  have hlength : s'.snapshots.capacities.length = s.snapshots.capacities.length := by
    rw [length_capacities, length_capacities, hsize]
  refine List.ext_getElem hlength fun i hi hi' => ?_
  have h := capacity_eq_getD s' ⟨i⟩
  rwa [hcapacity, ← capacity_eq_getD, List.getD_eq_getElem _ _ hi,
    List.getD_eq_getElem _ _ hi'] at h

theorem snapshots_eq {M : Snapshots}
    (hcopies : (List.range (s.level + 1)).reverse.map (fun j => (s.past j).snapshot) = M.copies)
    (hintegers : s.integers.size = M.integers)
    (hcapacities : s.sets.toList.map SwapSet.capacity = M.capacities) : s.snapshots = M := by
  rw [← copies_snapshots] at hcopies
  obtain ⟨hcurrent, hearlier⟩ := List.cons.inj hcopies
  cases M
  exact Snapshots.mk.injEq .. ▸ ⟨hcurrent, hearlier, hintegers, hcapacities⟩

theorem agrees_snapshots (h : s.Restorable) : s.Agrees s.snapshots where
  level_eq := s.level_snapshots.symm
  read_eq c := by
    by_cases hc : c.index < s.integers.size
    · exact (read_of_lt hc).trans (if_pos hc).symm
    · refine Eq.trans ?_ (if_neg hc).symm
      rw [read, Table.fetch, (Table.get?_eq_none_iff _ c).2 (Nat.le_of_not_lt hc)]
      rfl
  set_eq_ok k hk := by
    rw [length_capacities] at hk
    obtain ⟨set, hget⟩ := s.sets.exists_get? hk
    have hset : s.set k = .ok set := (Table.fetch_eq_ok_iff _).2 hget
    obtain ⟨hwf, hplaces⟩ := Cells.set_eq_ok hset h.wellFormed
    refine ⟨set, hset, fun e => ?_, ?_⟩
    · rw [SwapSet.contains_iff hwf, hplaces]
      rfl
    · rw [← SwapSet.card_toFinset hwf, hplaces]
      rfl
  members_eq_ok k hk := by
    rw [length_capacities] at hk
    obtain ⟨set, hget⟩ := s.sets.exists_get? hk
    have hmembers : s.members k = .ok set.members := by
      rw [members, Cells.set, (Table.fetch_eq_ok_iff _).2 hget]
      rfl
    exact ⟨set.members, hmembers, Cells.members_eq_ok hmembers h.wellFormed⟩
  set_eq_error k hk := by
    rw [length_capacities] at hk
    rw [Cells.set, Table.fetch, (Table.get?_eq_none_iff _ k).2 hk]

/-! ### One operation -/

theorem snapshots_newInteger (h : s.WellFormed) (v : Int) :
    (s.newInteger v).snapshots = (s.snapshots.step (.newInteger v)).2 := by
  refine snapshots_eq ?_ (Table.size_push _ _) rfl
  change _ = s.snapshots.copies.map fun S =>
    { S with value := Function.update S.value ⟨s.integers.size⟩ v }
  rw [copies_snapshots, List.map_map]
  refine List.map_congr_left fun j _ => ?_
  have hsize : (s.past j).integers.size = s.integers.size := Contents.size_foldl_undo _ _
  rw [past_newInteger h, Contents.snapshot, Contents.value_push, hsize]
  rfl

theorem snapshots_newSet (h : s.Restorable) (n : Nat) :
    (s.newSet n).snapshots = (s.snapshots.step (.newSet n)).2 := by
  refine snapshots_eq ?_ rfl ?_
  · change _ = s.snapshots.copies.map fun S =>
      { S with members := Function.update S.members ⟨s.snapshots.capacities.length⟩ ∅ }
    rw [copies_snapshots, List.map_map]
    refine List.map_congr_left fun j _ => ?_
    have hempty : (s.past j).places ⟨s.sets.size⟩ = ∅ := h.places_past_of_le (Nat.le_refl _) j
    change _ = Snapshot.mk _ (Function.update (s.past j).places ⟨s.snapshots.capacities.length⟩ ∅)
    rw [past_newSet, length_capacities, ← hempty, Function.update_eq_self]
    rfl
  · change (s.sets.push (.ofCapacity n)).toList.map SwapSet.capacity =
      s.sets.toList.map SwapSet.capacity ++ [n]
    rw [Table.toList, Table.push, Array.toList_push, List.map_append, List.map_singleton,
      SwapSet.capacity_ofCapacity]
    rfl

theorem snapshots_mark (s : Cells) : s.mark.snapshots = (s.snapshots.step .mark).2 := by
  refine snapshots_eq ?_ rfl rfl
  change _ = s.contents.snapshot :: s.snapshots.copies
  rw [copies_snapshots, level_mark, List.range_succ, List.reverse_append, List.reverse_singleton,
    List.singleton_append, List.map_cons, ← level_mark, past_level]
  refine congrArg (s.contents.snapshot :: ·) (List.map_congr_left fun j hj => ?_)
  have hj := List.mem_range.1 (List.mem_reverse.1 hj)
  rw [past_mark s (by rw [level_mark] at hj; omega)]

/-- An insertion tells whether the element was no member. -/
theorem answer_insert (h : s.WellFormed) {k : SetId} {e : Nat} {b : Bool}
    (hi : s.insert k e = .ok (b, s')) : b = decide (e ∉ s.places k) := by
  obtain ⟨set, hset, hi⟩ := Checked.bind_eq_ok hi
  obtain ⟨⟨fresh, set'⟩, hset', hi⟩ := Checked.bind_eq_ok hi
  obtain ⟨rfl, -⟩ := Prod.mk.inj (Except.ok.inj hi)
  obtain ⟨hwf, hplaces⟩ := Cells.set_eq_ok hset h
  have hfresh := (SwapSet.insert_eq_ok hwf hset').2.2
  rw [hplaces] at hfresh
  exact Bool.eq_iff_iff.2 (hfresh.trans decide_eq_true_iff.symm)

/-- A removal tells whether the element was a member. -/
theorem answer_erase (h : s.WellFormed) {k : SetId} {e : Nat} {b : Bool}
    (he : s.erase k e = .ok (b, s')) : b = decide (e ∈ s.places k) := by
  obtain ⟨set, hset, he⟩ := Checked.bind_eq_ok he
  obtain ⟨⟨found, set'⟩, hset', he⟩ := Checked.bind_eq_ok he
  obtain ⟨rfl, -⟩ := Prod.mk.inj (Except.ok.inj he)
  obtain ⟨hwf, hplaces⟩ := Cells.set_eq_ok hset h
  have hfound := (SwapSet.erase_eq_ok hwf hset').2.2
  rw [hplaces] at hfound
  exact Bool.eq_iff_iff.2 (hfound.trans decide_eq_true_iff.symm)

/-- A change turns the copy as it turns the cells. -/
theorem snapshot_perform (h : s.WellFormed) {op : CellOp} {b : Bool}
    (hop : s.perform op = .ok (b, s')) :
    s.contents.snapshot.perform op = (b, s'.contents.snapshot) := by
  have hsnapshot : (s.contents.snapshot.perform op).2 = s'.contents.snapshot := by
    obtain ⟨-, hturns⟩ := perform_eq_ok h hop
    cases op <;> obtain ⟨hvalue, hplaces⟩ := hturns
    all_goals
      rw [Contents.snapshot, Contents.snapshot, hvalue, hplaces]
      rfl
  have hanswer : (s.contents.snapshot.perform op).1 = b := by
    cases op with
    | assign c v =>
        obtain ⟨_, -, hop⟩ := Checked.bind_eq_ok hop
        exact (Prod.mk.inj (Except.ok.inj hop)).1
    | add c n =>
        obtain ⟨_, -, hop⟩ := Checked.bind_eq_ok hop
        exact (Prod.mk.inj (Except.ok.inj hop)).1
    | insert k e => exact (answer_insert h hop).symm
    | erase k e => exact (answer_erase h hop).symm
    | clear k =>
        obtain ⟨_, -, hop⟩ := Checked.bind_eq_ok hop
        exact (Prod.mk.inj (Except.ok.inj hop)).1
  rw [← hanswer, ← hsnapshot]

theorem snapshots_perform (h : s.WellFormed) {op : CellOp} {b : Bool}
    (hop : s.perform op = .ok (b, s')) : s.snapshots.step (.perform op) = (b, s'.snapshots) := by
  have hturn : s.snapshots.current.perform op = _ := snapshot_perform h hop
  obtain ⟨hevolves, -⟩ := perform_eq_ok h hop
  rw [Snapshots.step, hturn]
  refine congrArg (Prod.mk b) (snapshots_eq ?_ hevolves.size_eq.1 ?_).symm
  · rw [← copies_snapshots]
    refine congrArg (s'.contents.snapshot :: ·) ?_
    change (List.range s'.level).reverse.map _ = (List.range s.level).reverse.map _
    rw [hevolves.level_eq]
    refine List.map_congr_left fun j hj => ?_
    rw [hevolves.past_eq j (List.mem_range.1 (List.mem_reverse.1 hj))]
  · exact capacities_eq hevolves.size_eq.2 (keeps_perform h hop).capacity_eq

theorem snapshots_rewind (h : s.Restorable) {k : Nat} (hk : k < s.level) :
    ∃ s', s.rewind k = .ok s' ∧ s'.Restorable ∧ s'.snapshots = s.snapshots.back k := by
  obtain ⟨s', hs', hrestorable, hcapacity⟩ := h.exists_rewind hk
  obtain ⟨-, -, hlevel, -, hsize, hpast⟩ := rewind_eq_ok h.wellFormed hs'
  refine ⟨s', hs', hrestorable, snapshots_eq ?_ ?_ ?_⟩
  · have hdrop : (List.range (s.level + 1)).reverse.drop (s.level - k) =
        (List.range (k + 1)).reverse := by
      rw [List.drop_reverse, List.length_range, List.take_range]
      congr 2
      omega
    rw [Snapshots.copies_back, copies_snapshots, level_snapshots, ← List.map_drop, hdrop, hlevel]
    refine List.map_congr_left fun j hj => ?_
    rw [hpast j (Nat.le_of_lt_succ (List.mem_range.1 (List.mem_reverse.1 hj)))]
  · rw [hsize.1]
    unfold Snapshots.back
    split <;> rfl
  · refine (capacities_eq hsize.2 hcapacity).trans ?_
    unfold Snapshots.back
    split <;> rfl

/-- An admitted change goes through. -/
theorem exists_perform (h : s.WellFormed) {op : CellOp} (ha : s.snapshots.Admits (.perform op)) :
    ∃ b s', s.perform op = .ok (b, s') := by
  cases op with
  | assign c v =>
      obtain ⟨s', hs'⟩ := exists_assign ha v
      exact ⟨false, s', by rw [perform, hs']; rfl⟩
  | add c n =>
      obtain ⟨s', hs'⟩ := exists_add ha.1 ha.2
      exact ⟨false, s', by rw [perform, hs']; rfl⟩
  | insert k e => exact exists_insert h (Nat.lt_of_lt_of_eq ha (capacity_eq_getD s k))
  | erase k e => exact exists_erase h (Nat.lt_of_lt_of_eq ha (length_capacities s)) e
  | clear k =>
      have hk : k.index < s.sets.size := Nat.lt_of_lt_of_eq ha (length_capacities s)
      obtain ⟨s', hs'⟩ := exists_clear h hk
      exact ⟨false, s', by rw [perform, hs']; rfl⟩

/-- An operation that the copies admit succeeds, with their answer and what they hold. -/
theorem step_of_admits (h : s.Restorable) {x : CellStep} (ha : s.snapshots.Admits x) :
    ∃ s', s.step x = .ok ((s.snapshots.step x).1, s') ∧ s'.Restorable ∧
      s'.snapshots = (s.snapshots.step x).2 := by
  cases x with
  | newInteger v =>
      exact ⟨s.newInteger v, rfl, h.newInteger v, snapshots_newInteger h.wellFormed v⟩
  | newSet n => exact ⟨s.newSet n, rfl, h.newSet n, snapshots_newSet h n⟩
  | perform op =>
      obtain ⟨b, s', hop⟩ := exists_perform h.wellFormed ha
      rw [snapshots_perform h.wellFormed hop]
      exact ⟨s', hop, h.perform hop, rfl⟩
  | mark => exact ⟨s.mark, rfl, h.mark, snapshots_mark s⟩
  | rewind k =>
      have hk : k < s.level := Nat.lt_of_lt_of_eq ha (level_snapshots s)
      obtain ⟨s', hs', hrestorable, hback⟩ := snapshots_rewind h hk
      exact ⟨s', by rw [step, hs']; rfl, hrestorable, hback⟩

theorem run_of_admits (h : s.Restorable) {xs : List CellStep} (ha : s.snapshots.AdmitsAll xs) :
    ∃ s', s.run xs = .ok ((s.snapshots.run xs).1, s') ∧ s'.Restorable ∧
      s'.snapshots = (s.snapshots.run xs).2 := by
  induction xs generalizing s with
  | nil => exact ⟨s, rfl, h, rfl⟩
  | cons x rest ih =>
      obtain ⟨s₁, hs₁, hrestorable, hcopies⟩ := step_of_admits h ha.1
      obtain ⟨s', hs', hrestorable', hcopies'⟩ := ih hrestorable (hcopies ▸ ha.2)
      rw [hcopies] at hs' hcopies'
      refine ⟨s', ?_, hrestorable', hcopies'⟩
      rw [run, hs₁]
      change (s₁.run rest >>= _) = _
      rw [hs']
      rfl

theorem snapshots_init : ({} : Cells).snapshots = {} := rfl

/-- **Cells are a stack of snapshots.** Every sequence of operations that the copies admit, from
no cells at all, goes through on the cells with the same answers, and what can be read afterwards is
what the current copy holds. A sequence may be broken off anywhere, so this is so all along. -/
theorem run_agrees (xs : List CellStep) (h : ({} : Snapshots).AdmitsAll xs) :
    ∃ s, ({} : Cells).run xs = .ok ((({} : Snapshots).run xs).1, s) ∧
      s.Agrees (({} : Snapshots).run xs).2 := by
  rw [← snapshots_init] at h ⊢
  obtain ⟨s, hs, hrestorable, hcopies⟩ := run_of_admits restorable_init h
  exact ⟨s, hs, hcopies ▸ agrees_snapshots hrestorable⟩

/-- The integer is written in two frames, in the outer one again after the inner one was left, and
the set made in the inner frame is empty in the end. -/
theorem run_agrees_of_stampRestored :
    ∃ s, ({} : Cells).run [.newInteger 1, .mark, .perform (.assign ⟨0⟩ 5), .mark, .newSet 3,
        .perform (.insert ⟨0⟩ 2), .perform (.add ⟨0⟩ 2), .rewind 1, .perform (.assign ⟨0⟩ 8),
        .rewind 0] =
      .ok ([false, false, false, false, false, true, false, false, false, false], s) ∧
      s.read ⟨0⟩ = .ok 1 ∧ s.members ⟨0⟩ = .ok [] := by
  obtain ⟨s, hs, hagrees⟩ := run_agrees [.newInteger 1, .mark, .perform (.assign ⟨0⟩ 5),
    .mark, .newSet 3, .perform (.insert ⟨0⟩ 2), .perform (.add ⟨0⟩ 2), .rewind 1,
    .perform (.assign ⟨0⟩ 8), .rewind 0] (by decide)
  refine ⟨s, hs, hagrees.read_eq ⟨0⟩, ?_⟩
  obtain ⟨l, hl, -, hmembers⟩ := hagrees.members_eq_ok ⟨0⟩ (by decide)
  have hnil : l = [] := List.eq_nil_iff_forall_not_mem.2 fun e he =>
    absurd ((hmembers e).1 he) (Finset.notMem_empty e)
  rw [hl, hnil]

end Cells

end Narrowing
