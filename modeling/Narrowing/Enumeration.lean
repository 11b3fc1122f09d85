import Narrowing.Fault

/-!
Sequences that are produced one item at a time and may be abandoned on the way. A reader who stops
early never learns of a fault that lies further on, so the place of a fault among the items is part
of the sequence.
-/

namespace Narrowing

/-- The items in order, and how the sequence ends. -/
inductive Enumeration (α : Type) where
  | done
  | fault (f : Fault)
  | item (a : α) (rest : Enumeration α)
  deriving DecidableEq

namespace Enumeration

variable {α β : Type}

/-- A sequence whose production starts with a step that may fail. -/
def ofChecked : Checked (Enumeration α) → Enumeration α
  | .ok e => e
  | .error f => .fault f

/-- At most the first `n` items. -/
def take : Nat → Enumeration α → Checked (List α)
  | 0, _ => .ok []
  | _ + 1, .done => .ok []
  | _ + 1, .fault f => .error f
  | n + 1, .item a rest => do return a :: (← take n rest)

/-- All items. -/
def toList : Enumeration α → Checked (List α)
  | .done => .ok []
  | .fault f => .error f
  | .item a rest => do return a :: (← toList rest)

/-- Keep some of the items and change them; a change may fail. -/
def filterMap (f : α → Option (Checked β)) : Enumeration α → Enumeration β
  | .done => .done
  | .fault e => .fault e
  | .item a rest =>
    match f a with
    | none => filterMap f rest
    | some (.ok b) => .item b (filterMap f rest)
    | some (.error e) => .fault e

/-- Put `b` and what follows it into a sequence, ahead of the items that do not come before `b`. -/
def mergeItem (first : α → α → Bool) (b : α) (merge : Enumeration α → Enumeration α) :
    Enumeration α → Enumeration α
  | .done => .item b (merge .done)
  | .fault e => .fault e
  | .item a rest =>
    if first a b then .item a (mergeItem first b merge rest) else .item b (merge (.item a rest))

/-- Merge two sequences: of the two next items the left one goes `first` when it says so. Both next
items have to be at hand before either is given out, the left one before the right one. -/
def merge (first : α → α → Bool) (left : Enumeration α) : Enumeration α → Enumeration α
  | .done => left
  | .fault e =>
    match left with
    | .fault e' => .fault e'
    | _ => .fault e
  | .item b rest => mergeItem first b (fun left => merge first left rest) left

/-- Join neighbouring items for which `join` yields a single item in their place, carrying `held` as
the item that is still open. -/
def joinFrom (join : α → α → Checked (Option α)) (held : α) : Enumeration α → Enumeration α
  | .done => .item held .done
  | .fault e => .fault e
  | .item a rest =>
    match join held a with
    | .error e => .fault e
    | .ok (some both) => joinFrom join both rest
    | .ok none => .item held (joinFrom join a rest)

/-- Join neighbouring items for which `join` yields a single item in their place. -/
def joinNeighbours (join : α → α → Checked (Option α)) : Enumeration α → Enumeration α
  | .done => .done
  | .fault e => .fault e
  | .item a rest => joinFrom join a rest

/-- The sequence that gives out the items of a list and is done. -/
def ofList : List α → Enumeration α
  | [] => .done
  | a :: l => .item a (ofList l)

theorem toList_ofList (l : List α) : (ofList l).toList = .ok l := by
  induction l with
  | nil => rfl
  | cons a l ih =>
    rw [ofList, toList, ih]
    rfl

/-- A sequence that gives out all its items is that of a list. -/
theorem eq_ofList {e : Enumeration α} {l : List α} (h : e.toList = .ok l) : e = ofList l := by
  induction e generalizing l with
  | done =>
    cases h
    rfl
  | fault f => cases h
  | item a rest ih =>
    obtain ⟨rest', hrest, h⟩ := Checked.bind_eq_ok h
    cases h
    rw [ofList, ih hrest]

theorem filterMap_ofList {f : α → Option (Checked β)} {g : α → Option β} {l : List α}
    (h : ∀ a ∈ l, f a = (g a).map .ok) : (ofList l).filterMap f = ofList (l.filterMap g) := by
  induction l with
  | nil => rfl
  | cons a l ih =>
    have hrest := ih fun b hb => h b (List.mem_cons_of_mem a hb)
    rw [ofList, filterMap, h a List.mem_cons_self, List.filterMap_cons]
    cases g a with
    | none => exact hrest
    | some b => exact congrArg (Enumeration.item b) hrest

theorem merge_ofList (first : α → α → Bool) (left right : List α) :
    merge first (ofList left) (ofList right) = ofList (left.merge right first) := by
  induction right generalizing left with
  | nil =>
    rw [List.merge_right]
    rfl
  | cons b right ih =>
    rw [ofList, merge]
    induction left with
    | nil =>
      rw [ofList, mergeItem, List.nil_merge]
      exact congrArg (Enumeration.item b) ((ih []).trans (by rw [List.nil_merge]))
    | cons a left ihl =>
      rw [ofList, mergeItem, List.cons_merge_cons]
      split
      · exact congrArg (Enumeration.item a) ihl
      · exact congrArg (Enumeration.item b) (ih (a :: left))

/-! No fault is passed over: what is made of a sequence comes to its end only if the sequence does. -/

/-- All items are given out. -/
def Complete (e : Enumeration α) : Prop := ∃ l, e.toList = .ok l

theorem complete_ofList (l : List α) : (ofList l).Complete := ⟨l, toList_ofList l⟩

theorem complete_item {a : α} {e : Enumeration α} : (item a e).Complete ↔ e.Complete := by
  constructor
  · rintro ⟨l, hl⟩
    obtain ⟨l', hl', -⟩ := Checked.bind_eq_ok hl
    exact ⟨l', hl'⟩
  · rintro ⟨l, hl⟩
    rw [eq_ofList hl]
    exact complete_ofList (a :: l)

theorem not_complete_fault (f : Fault) : ¬ (fault f : Enumeration α).Complete := fun ⟨_, hl⟩ =>
  nomatch hl

theorem Complete.of_filterMap {f : α → Option (Checked β)} {e : Enumeration α}
    (h : (e.filterMap f).Complete) : e.Complete := by
  induction e with
  | done => exact complete_ofList []
  | fault f => exact absurd h (not_complete_fault f)
  | item a rest ih =>
    rw [complete_item]
    rw [filterMap] at h
    split at h
    · exact ih h
    · exact ih (complete_item.1 h)
    · exact absurd h (not_complete_fault _)

theorem Complete.of_merge {first : α → α → Bool} {left right : Enumeration α}
    (h : (merge first left right).Complete) : left.Complete := by
  induction right generalizing left with
  | done => exact h
  | fault f =>
    cases left with
    | done => exact complete_ofList []
    | fault f' => exact h
    | item a rest => exact absurd h (not_complete_fault f)
  | item b rest ih =>
    rw [merge] at h
    induction left with
    | done => exact complete_ofList []
    | fault f => exact absurd h (not_complete_fault f)
    | item a left ihl =>
      rw [mergeItem] at h
      split at h
      · exact complete_item.2 (ihl (complete_item.1 h))
      · exact ih (complete_item.1 h)

/-- The next item on the right has to be at hand as well. -/
theorem Complete.of_merge_right {first : α → α → Bool} {left right : Enumeration α}
    (h : (merge first left right).Complete) : right.Complete := by
  induction right generalizing left with
  | done => exact complete_ofList []
  | fault f =>
    cases left with
    | fault f' => exact absurd h (not_complete_fault f')
    | done => exact absurd h (not_complete_fault f)
    | item a rest => exact absurd h (not_complete_fault f)
  | item b rest ih =>
    rw [complete_item]
    rw [merge] at h
    induction left with
    | done => exact ih (complete_item.1 h)
    | fault f => exact absurd h (not_complete_fault f)
    | item a left ihl =>
      rw [mergeItem] at h
      split at h
      · exact ihl (complete_item.1 h)
      · exact ih (complete_item.1 h)

theorem Complete.of_joinFrom {join : α → α → Checked (Option α)} {held : α} {e : Enumeration α}
    (h : (joinFrom join held e).Complete) : e.Complete := by
  induction e generalizing held with
  | done => exact complete_ofList []
  | fault f => exact absurd h (not_complete_fault f)
  | item a rest ih =>
    rw [complete_item]
    rw [joinFrom] at h
    split at h
    · exact absurd h (not_complete_fault _)
    · exact ih h
    · exact ih (complete_item.1 h)

theorem Complete.of_joinNeighbours {join : α → α → Checked (Option α)} {e : Enumeration α}
    (h : (e.joinNeighbours join).Complete) : e.Complete := by
  cases e with
  | done => exact h
  | fault f => exact h
  | item a rest => exact complete_item.2 (Complete.of_joinFrom h)

end Enumeration

end Narrowing
