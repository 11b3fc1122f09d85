import Narrowing.Proofs.Cell.SwapSet

/-!
Swap sets in use. Numbers are added and removed in any order; the two arrays remain a permutation of
the numbers below the capacity and its inverse, and everything that can be asked is answered as a
finite set would answer it on which the same was done. The answers tell which steps had an effect.
Those steps, taken back from the last one to the first, return the set to what it was.
-/

namespace Narrowing

/-- A number is added to a set, or removed from it. -/
inductive SetStep where
  | insert (e : Nat)
  | erase (e : Nat)
  deriving DecidableEq, Repr

namespace SetStep

/-- The number that a step is about. -/
def element : SetStep → Nat
  | .insert e => e
  | .erase e => e

/-- What a step makes of a finite set. -/
def apply : SetStep → Finset Nat → Finset Nat
  | .insert e, S => Insert.insert e S
  | .erase e, S => S.erase e

/-- Whether a step has an effect on a finite set. -/
def changes (x : SetStep) (S : Finset Nat) : Bool := x.apply S ≠ S

/-- What several steps make of a finite set. -/
def after (S : Finset Nat) (xs : List SetStep) : Finset Nat := xs.foldl (fun S x => x.apply S) S

/-- Which of several steps have an effect. -/
def answers (S : Finset Nat) : List SetStep → List Bool
  | [] => []
  | x :: rest => x.changes S :: answers (x.apply S) rest

/-- What takes back a step that had an effect. -/
def inverse : SetStep → SetStep
  | .insert e => .erase e
  | .erase e => .insert e

/-- Take back the steps that were answered with yes, the last one first. -/
def undo (xs : List SetStep) (given : List Bool) : List SetStep :=
  ((xs.zip given).filter (·.2)).reverse.map (·.1.inverse)

variable {S : Finset Nat} {x : SetStep} {xs : List SetStep} {given : List Bool} {n : Nat}

@[simp] theorem element_inverse (x : SetStep) : x.inverse.element = x.element := by
  cases x <;> rfl

theorem changes_iff : x.changes S = true ↔ x.apply S ≠ S := decide_eq_true_iff

theorem changes_insert {e : Nat} : (insert e).changes S = true ↔ e ∉ S :=
  changes_iff.trans Finset.insert_ne_self

theorem changes_erase {e : Nat} : (erase e).changes S = true ↔ e ∈ S :=
  changes_iff.trans Finset.erase_ne_self

/-- Taking back a step that had an effect has an effect as well, and undoes the first. -/
theorem apply_inverse (h : x.changes S = true) :
    x.inverse.apply (x.apply S) = S ∧ x.inverse.changes (x.apply S) = true := by
  have hback : x.inverse.apply (x.apply S) = S := by
    cases x with
    | insert e => exact Finset.erase_insert (changes_insert.1 h)
    | erase e => exact Finset.insert_erase (changes_erase.1 h)
  refine ⟨hback, changes_iff.2 ?_⟩
  rw [hback]
  exact (changes_iff.1 h).symm

theorem after_append (S : Finset Nat) (xs ys : List SetStep) :
    after S (xs ++ ys) = after (after S xs) ys := List.foldl_append

theorem answers_append (S : Finset Nat) (xs ys : List SetStep) :
    answers S (xs ++ ys) = answers S xs ++ answers (after S xs) ys := by
  induction xs generalizing S with
  | nil => rfl
  | cons x rest ih => exact congrArg (x.changes S :: ·) (ih (x.apply S))

theorem undo_cons (x : SetStep) (b : Bool) (xs : List SetStep) (given : List Bool) :
    undo (x :: xs) (b :: given) = undo xs given ++ if b then [x.inverse] else [] := by
  unfold undo
  cases b <;> simp

/-- Steps that had an effect are taken back by steps that have one, and nothing is left of them. -/
theorem after_undo (S : Finset Nat) (xs : List SetStep) :
    after (after S xs) (undo xs (answers S xs)) = S ∧
      ∀ b ∈ answers (after S xs) (undo xs (answers S xs)), b = true := by
  induction xs generalizing S with
  | nil => exact ⟨rfl, nofun⟩
  | cons x rest ih =>
      obtain ⟨hafter, hanswers⟩ := ih (x.apply S)
      change after (after (x.apply S) rest) (undo _ (x.changes S :: _)) = S ∧
        ∀ b ∈ answers (after (x.apply S) rest) (undo _ (x.changes S :: _)), b = true
      rw [undo_cons, after_append, answers_append, hafter]
      cases h : x.changes S with
      | false =>
          have hsame : x.apply S = S := by simpa [changes] using h
          exact ⟨hsame, by simpa [answers] using hanswers⟩
      | true =>
          obtain ⟨hback, hchanges⟩ := apply_inverse h
          refine ⟨hback, fun b hb => ?_⟩
          rcases List.mem_append.1 hb with hb | hb
          · exact hanswers b hb
          · rw [List.mem_singleton.1 hb, hchanges]

theorem element_lt_of_mem_undo (h : ∀ x ∈ xs, x.element < n) :
    ∀ y ∈ undo xs given, y.element < n := by
  intro y hy
  obtain ⟨⟨x, b⟩, hx, rfl⟩ := List.mem_map.1 hy
  rw [element_inverse]
  exact h x (List.of_mem_zip (List.mem_filter.1 (List.mem_reverse.1 hx)).1).1

end SetStep

namespace SwapSet

open SetStep (after answers undo)

/-- One step and its answer. -/
def step (s : SwapSet) : SetStep → Checked (Bool × SwapSet)
  | .insert e => s.insert e
  | .erase e => s.erase e

/-- Several steps and their answers. -/
def run (s : SwapSet) : List SetStep → Checked (List Bool × SwapSet)
  | [] => .ok ([], s)
  | x :: rest => do
    let (answer, s) ← s.step x
    let (answers, s) ← s.run rest
    return (answer :: answers, s)

/-- The arrays hold the numbers below `n`, with the members `S` in front, and that is what the
questions are answered from. -/
structure Arranges (s : SwapSet) (n : Nat) (S : Finset Nat) : Prop where
  perm : s.elements.toList.Perm (List.range n)
  size_positions : s.positions.size = n
  inverse : ∀ e p : Nat, s.positions[e]? = some p ↔ s.elements[p]? = some e
  size_le : s.size ≤ n
  in_front : ∀ e, e ∈ S ↔ ∃ p : Nat, p < s.size ∧ s.elements[p]? = some e
  contains_eq : ∀ e, s.contains e = decide (e ∈ S)
  size_eq : s.size = S.card
  nodup_members : s.members.Nodup
  mem_members : ∀ e, e ∈ s.members ↔ e ∈ S

variable {s s' : SwapSet} {n : Nat} {S : Finset Nat} {x : SetStep}

theorem size_of_perm_range {a : Array Nat} (h : a.toList.Perm (List.range n)) : a.size = n := by
  rw [← Array.length_toList, h.length_eq, List.length_range]

theorem WellFormed.arranges (hs : s.WellFormed) (hperm : s.elements.toList.Perm (List.range n)) :
    s.Arranges n s.toFinset := by
  have hsize := size_of_perm_range hperm
  refine ⟨hperm, (size_positions hs).trans hsize, fun e p => ⟨hs.elements_eq, hs.positions_eq⟩,
    hs.size_le.trans_eq hsize, fun e => mem_toFinset s, fun e => ?_, (card_toFinset hs).symm,
    nodup_members hs, fun e => List.mem_toFinset.symm⟩
  rw [Bool.eq_iff_iff, contains_iff hs, decide_eq_true_iff]

namespace Arranges

theorem size_elements (h : s.Arranges n S) : s.elements.size = n := size_of_perm_range h.perm

theorem wellFormed (h : s.Arranges n S) : s.WellFormed :=
  ⟨h.size_le.trans_eq h.size_elements.symm, (h.inverse _ _).1, (h.inverse _ _).2⟩

theorem toFinset_eq (h : s.Arranges n S) : s.toFinset = S := by
  ext e
  rw [toFinset, List.mem_toFinset, h.mem_members]

/-- A step is answered as the finite set answers it, and keeps the arrangement. -/
theorem step (h : s.Arranges n S) (hx : x.element < n) :
    ∃ s', s.step x = .ok (x.changes S, s') ∧ s'.Arranges n (x.apply S) := by
  have hwf := h.wellFormed
  have hset := h.toFinset_eq
  subst hset
  cases x with
  | insert e =>
      have he : e < s.capacity := hx.trans_eq h.size_elements.symm
      obtain ⟨b, s', hs'⟩ := exists_insert hwf he
      obtain ⟨hwf', hset', hb⟩ := insert_eq_ok hwf hs'
      obtain rfl : b = (SetStep.insert e).changes s.toFinset :=
        Bool.eq_iff_iff.2 (hb.trans SetStep.changes_insert.symm)
      refine ⟨s', hs', ?_⟩
      rw [SetStep.apply, ← hset']
      exact hwf'.arranges ((perm_insert hwf hs').trans h.perm)
  | erase e =>
      obtain ⟨b, s', hs'⟩ := exists_erase hwf e
      obtain ⟨hwf', hset', hb⟩ := erase_eq_ok hwf hs'
      obtain rfl : b = (SetStep.erase e).changes s.toFinset :=
        Bool.eq_iff_iff.2 (hb.trans SetStep.changes_erase.symm)
      refine ⟨s', hs', ?_⟩
      rw [SetStep.apply, ← hset']
      exact hwf'.arranges ((perm_erase hwf hs').trans h.perm)

/-- So does a run. -/
theorem run (h : s.Arranges n S) {xs : List SetStep} (hxs : ∀ x ∈ xs, x.element < n) :
    ∃ s', s.run xs = .ok (answers S xs, s') ∧ s'.Arranges n (after S xs) := by
  induction xs generalizing s S with
  | nil => exact ⟨s, rfl, h⟩
  | cons x rest ih =>
      obtain ⟨s₁, hs₁, h₁⟩ := h.step (hxs x List.mem_cons_self)
      obtain ⟨s', hs', h'⟩ := ih h₁ fun y hy => hxs y (List.mem_cons_of_mem x hy)
      refine ⟨s', ?_, h'⟩
      rw [SwapSet.run, hs₁]
      change (s₁.run rest >>= _) = _
      rw [hs']
      rfl

end Arranges

theorem arranges_ofCapacity (n : Nat) : (ofCapacity n).Arranges n ∅ := by
  have hperm : (ofCapacity n).elements.toList.Perm (List.range n) := by
    rw [ofCapacity, Array.toList_range]
  simpa only [toFinset_ofCapacity] using (wellFormed_ofCapacity n).arranges hperm

/-- **A swap set is a finite set, stored as a permutation and its inverse.** Every sequence of steps
with numbers below the capacity goes through with the answers of a finite set, and leaves the arrays
arranged around what is left of that set. Whatever is done next, taking back what had an effect has
an effect at each step and leads to the same set again. -/
theorem run_arranges (n : Nat) (xs : List SetStep) (hxs : ∀ x ∈ xs, x.element < n) :
    ∃ s, (ofCapacity n).run xs = .ok (answers ∅ xs, s) ∧ s.Arranges n (after ∅ xs) ∧
      ∀ ys : List SetStep, (∀ y ∈ ys, y.element < n) → ∃ given s' replies s'',
        s.run ys = .ok (given, s') ∧ given = answers (after ∅ xs) ys ∧
        s'.run (undo ys given) = .ok (replies, s'') ∧ (∀ b ∈ replies, b = true) ∧
        s''.Arranges n (after ∅ xs) := by
  obtain ⟨s, hs, harranges⟩ := (arranges_ofCapacity n).run hxs
  refine ⟨s, hs, harranges, fun ys hys => ?_⟩
  obtain ⟨s', hs', harranges'⟩ := harranges.run hys
  obtain ⟨s'', hs'', harranges''⟩ := harranges'.run (SetStep.element_lt_of_mem_undo hys)
  obtain ⟨hafter, heffect⟩ := SetStep.after_undo (after ∅ xs) ys
  rw [hafter] at harranges''
  exact ⟨_, s', _, s'', hs', rfl, hs'', heffect, harranges''⟩

/-- The numbers `0` and `3` are added where they stand and elsewhere, `3` is removed as the last member
and `0` as another one. Of the next four steps the first has no effect, so three are taken back. -/
theorem run_arranges_revisited :
    (∀ x ∈ [.insert 0, .insert 3, .erase 3, .insert 2, .erase 0], SetStep.element x < 4) ∧
      ∃ s s' replies s'', (ofCapacity 4).run [.insert 0, .insert 3, .erase 3, .insert 2, .erase 0] =
          .ok ([true, true, true, true, true], s) ∧ s.Arranges 4 {2} ∧
        s.run [.insert 2, .insert 1, .erase 2, .insert 3] = .ok ([false, true, true, true], s') ∧
        s'.run [.erase 3, .insert 2, .erase 1] = .ok (replies, s'') ∧ (∀ b ∈ replies, b = true) ∧
        s''.Arranges 4 {2} := by
  have hxs : ∀ x ∈ [.insert 0, .insert 3, .erase 3, .insert 2, .erase 0], SetStep.element x < 4 := by
    decide
  obtain ⟨s, hs, harranges, hundo⟩ := run_arranges 4 _ hxs
  obtain ⟨given, s', replies, s'', hs', rfl, hs'', heffect, harranges''⟩ :=
    hundo [.insert 2, .insert 1, .erase 2, .insert 3] (by decide)
  exact ⟨hxs, s, s', replies, s'', hs, harranges, hs', hs'', heffect, harranges''⟩

end SwapSet

end Narrowing
