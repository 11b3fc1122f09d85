import Narrowing.Proofs.Domain.History
import Narrowing.Proofs.Variable.Restriction

/-!
Runs of the store of domains on its own: domains are made, variables restricted, frames opened and
rewound, and changes reported, in any order. On every store that such a run reaches each domain is
what became of the domain that was made by the changes on record, so all of them are well-formed.
-/

namespace Narrowing.Domains

/-- What can be done with a store of domains. -/
inductive Edit where
  | push (d : Domain)
  | restrict (x : Variable) (r : Restriction) (cause : Cause)
  | mark
  | rewind (k : Nat)
  | report

/-- Do it. A restriction that is refused leaves behind what it did before it was. -/
def Edit.run (s : Domains) : Edit → Checked Domains
  | .push d => .ok (s.push d)
  | .restrict x r cause =>
    match x.restrict cause r s with
    | .ok _ s' => .ok s'
    | .error .empty s' => .ok s'
    | .error (.fault f) _ => .error f
  | .mark => .ok s.mark
  | .rewind k => s.rewind k
  | .report => .ok s.reported

/-- Domains come from where they are made. -/
def Edit.Proper : Edit → Prop
  | .push d => d.Made
  | _ => True

/-- The stores that a run reaches. -/
inductive Reachable : Domains → Prop
  | start : Reachable {}
  | step {s s' : Domains} (h : Reachable s) {e : Edit} (he : e.Proper) (hs : e.run s = .ok s') :
      Reachable s'

/-- Do several things one after the other. -/
def Edit.runAll (s : Domains) (edits : List Edit) : Checked Domains := edits.foldlM Edit.run s

theorem Reachable.runAll {s s' : Domains} (h : Reachable s) {edits : List Edit}
    (hedits : ∀ e ∈ edits, e.Proper) (hs : Edit.runAll s edits = .ok s') : Reachable s' := by
  induction edits generalizing s with
  | nil =>
      obtain rfl := Except.ok.inj hs
      exact h
  | cons e edits ih =>
      obtain ⟨s₁, hs₁, hs⟩ := Checked.bind_eq_ok hs
      exact ih (h.step (hedits e List.mem_cons_self) hs₁)
        (fun e' he' => hedits e' (List.mem_cons_of_mem _ he')) hs

/-- The record tells how every domain came to be what it is. -/
structure Traced (s : Domains) : Prop where
  recorded : s.Recorded
  origin : ∀ id d, s.table.get? id = some d → ∃ d₀, s.Since id 0 d₀

variable {s s' : Domains}

theorem Traced.wellFormed (h : s.Traced) : s.table.WellFormed := by
  intro id d hd
  obtain ⟨d₀, hsince⟩ := h.origin id d hd
  obtain rfl := Option.some.inj (hd.symm.trans hsince.now)
  exact Domain.wellFormed_applyAll hsince.wellFormed hsince.fit

theorem Traced.narrows {B : DomainId → Prop} {cause : Cause} (h : s.Traced)
    (hn : Narrows B cause s s') : s'.Traced := by
  refine ⟨hn.recorded h.recorded, fun id d hd => ?_⟩
  obtain ⟨d', hd'⟩ := hn.exists_of_get? hd
  obtain ⟨d₀, hsince⟩ := h.origin id d' hd'
  exact ⟨d₀, hsince.narrows hn⟩

theorem Traced.push (h : s.Traced) {d : Domain} (hd : d.WellFormed) : (s.push d).Traced := by
  constructor
  · intro r hr
    have := h.recorded r hr
    have hsize : (s.push d).table.size = s.table.size + 1 := Table.size_push _ _
    omega
  · intro id d' hd'
    rcases Table.eq_or_of_get?_push hd' with ⟨hlt, hd'⟩ | ⟨rfl, rfl⟩
    · obtain ⟨d₀, hsince⟩ := h.origin id d' hd'
      exact ⟨d₀, hsince.of_eq rfl (Table.get?_push_of_lt _ _ hlt)⟩
    · have hnone : (s.push d').changesSince s.table.nextKey 0 = [] := by
        rw [changesSince_eq, changesOf, List.filterMap_eq_nil_iff]
        intro r hr
        have hr' := h.recorded r (by simpa [Domains.push, Trail.chronicle] using hr)
        have hne : r.1 ≠ s.table.nextKey := by
          intro heq
          rw [heq] at hr'
          exact absurd hr' (lt_irrefl _)
        simp [hne]
      exact ⟨d', hd, Nat.zero_le _, by rw [hnone]; trivial, by rw [hnone]; exact hd'⟩

theorem Traced.rewind (h : s.Traced) {k : Nat} (hs : s.rewind k = .ok s') : s'.Traced := by
  refine ⟨h.recorded.rewind hs, fun id d hd => ?_⟩
  obtain ⟨hk, htable, -⟩ := rewind_eq_ok hs
  have hlt : Key.index id < s.table.size := by
    rw [← size_past s k, ← htable]
    exact Table.lt_size_of_get? hd
  cases hd' : s.table.get? id with
  | none => exact absurd ((Table.get?_eq_none_iff _ _).1 hd') (not_le.2 hlt)
  | some d' =>
      obtain ⟨d₀, hsince⟩ := h.origin id d' hd'
      exact ⟨d₀, hsince.rewind hs (Nat.zero_le _)⟩

/-- A restriction of a variable is a series of changes that fit, also when it is refused. -/
theorem narrows_of_restrict (hwf : s.table.WellFormed) {x : Variable} {r : Restriction}
    {cause : Cause} (hs : (Edit.restrict x r cause).run s = .ok s') :
    Narrows (· = x.base) cause s s' := by
  have hends := Variable.confined x cause r s hwf
  unfold Confines Ends at hends
  simp only [Edit.run] at hs
  split at hs
  · next he =>
    obtain rfl := Except.ok.inj hs
    rw [he] at hends
    exact hends.1
  · next he =>
    obtain rfl := Except.ok.inj hs
    rw [he] at hends
    exact hends.1
  · exact nomatch hs

theorem Traced.run (h : s.Traced) {e : Edit} (he : e.Proper) (hs : e.run s = .ok s') :
    s'.Traced := by
  cases e with
  | push d =>
      obtain rfl := Except.ok.inj hs
      exact h.push he.wellFormed
  | restrict x r cause => exact h.narrows (narrows_of_restrict h.wellFormed hs)
  | mark =>
      obtain rfl := Except.ok.inj hs
      refine ⟨fun r hr => h.recorded r ((Trail.mem_frames_mark _).1 hr), fun id d hd => ?_⟩
      obtain ⟨d₀, hsince⟩ := h.origin id d hd
      exact ⟨d₀, hsince.of_eq s.trail.chronicle_mark rfl⟩
  | rewind k => exact h.rewind hs
  | report =>
      obtain rfl := Except.ok.inj hs
      exact ⟨h.recorded, fun id d hd => (h.origin id d hd).imp fun _ hsince => hsince.of_eq rfl rfl⟩

theorem Reachable.traced (h : s.Reachable) : s.Traced := by
  induction h with
  | start =>
      refine ⟨fun r hr => ?_, fun id d hd => ?_⟩
      · simp [Trail.frames] at hr
      · simp [Table.get?] at hd
  | step _ he hs ih => exact ih.run he hs

/-! ### A run with holes, bounds and a frame that was left -/

/-- The values `-3`, `-2`, `0`, `3` and `4`. -/
def holed : Domain := ⟨.listed (-3) #[true, true, false, true, false, false, true, true], -3, 4, 5⟩

def scars : List Edit :=
  [.push holed, .push (.interval (-5) 9), .mark,
    .restrict (.abs (.domain ⟨0⟩)) (.without 3) .decision, .mark,
    .restrict (.domain ⟨1⟩) (.atMost 4) .decision, .rewind 1, .report]

/-- What is left of it: `3` is a hole, and `-3` is below the lower bound. -/
def cropped : Domain := ⟨.listed (-3) #[true, true, false, true, false, false, false, true], -2, 4, 3⟩

/-- What the run leads to: the restriction of the interval was taken back. -/
def scarred : Domains where
  table := ⟨#[cropped, .interval (-5) 9]⟩
  trail := ⟨[(⟨0⟩, .narrowed (-3) 4 (-2) 4 4 3), (⟨0⟩, .punctured 3)], [[]]⟩

theorem reachable_scarred : scarred.Reachable := by
  have hlisted : Domain.listed [-3, -2, 0, 3, 4] = some holed := by decide
  have hholed : holed.Made := .listed hlisted (by decide)
  have hinterval : (Domain.interval (-5) 9).Made := .interval (by decide) (by decide) (by decide)
  have hrun : Edit.runAll {} scars = .ok scarred := by decide
  apply Reachable.start.runAll _ hrun
  simp [scars, Edit.Proper, hholed, hinterval]

end Narrowing.Domains
