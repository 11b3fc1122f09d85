import Narrowing.Among.Constraint
import Narrowing.Proofs.Variable.Restriction
import Mathlib.Data.List.GetD
import Mathlib.Order.Interval.Finset.Nat

/-!
What is known about an Among constraint between two passes: a number of places that are sure to
count and a set of places that may. Three properties tie this knowledge to the domains. It
`Accounts` for the solutions: in every one, the counter is that number plus what the set contributes.
It `Tracks` the domains: it is what a recount would give, apart from places that are yet to be looked
at again. And the counter is `InBounds`, between the least and the greatest count that it allows for.
Whatever it says of the domains, it `Counts` no place twice.
-/

namespace Narrowing.Among

variable {c : Among} {t t' : Table DomainId Domain} {P : Finset Nat} {n : Int} {A A' : Nat → Prop}
  {σ : DomainId → Int} {i : Nat} {x : Variable}

/-- The variable at a place of the scope. -/
def place (c : Among) (i : Nat) : Variable := c.scope.getD i c.counter

theorem place_eq_getElem (hi : i < c.scope.length) : c.place i = c.scope[i] :=
  List.getD_eq_getElem _ _ hi

theorem place_mem (hi : i < c.scope.length) : c.place i ∈ c.scope := by
  rw [place_eq_getElem hi]
  exact List.getElem_mem hi

/-- All values of the variable are tracked. -/
def Sure (c : Among) (t : Table DomainId Domain) (x : Variable) : Prop :=
  ∀ v ∈ x.current t, v ∈ c.tracked

/-- No value of the variable is tracked. -/
def Never (c : Among) (t : Table DomainId Domain) (x : Variable) : Prop :=
  ∀ v ∈ x.current t, v ∉ c.tracked

instance : Decidable (c.Sure t x) := inferInstanceAs (Decidable (∀ v ∈ _, _))

instance : Decidable (c.Never t x) := inferInstanceAs (Decidable (∀ v ∈ _, _))

/-- Whether a variable counts is decided. -/
def Decided (c : Among) (t : Table DomainId Domain) (x : Variable) : Prop :=
  c.Sure t x ∨ c.Never t x

instance : Decidable (c.Decided t x) := inferInstanceAs (Decidable (_ ∨ _))

/-- The places of `P` that count in an assignment. -/
def tally (c : Among) (σ : DomainId → Int) (P : Finset Nat) : Finset Nat :=
  P.filter fun i => (c.place i).eval σ ∈ c.tracked

/-- Every variable of the constraint is one of a domain that is there. -/
structure Grounded (c : Among) (t : Table DomainId Domain) : Prop where
  place_lt : ∀ i < c.scope.length, (c.place i).base.index < t.size
  counter_lt : c.counter.base.index < t.size

theorem Grounded.lt_of_mem (h : c.Grounded t) (hx : x ∈ c.counter :: c.scope) :
    x.base.index < t.size := by
  rcases List.mem_cons.1 hx with rfl | hx
  · exact h.counter_lt
  · obtain ⟨i, hi, rfl⟩ := List.getElem_of_mem hx
    exact place_eq_getElem hi ▸ h.place_lt i hi

/-- In every solution the counter is `n` plus the number of places of `P` that count. -/
def Accounts (c : Among) (t : Table DomainId Domain) (P : Finset Nat) (n : Int) : Prop :=
  ∀ σ, t.Admits σ → c.Satisfied σ → n + (c.tally σ P).card = c.counter.eval σ

/-- `P` has the places that are undecided, and `n` is the number of those that are sure, except that
the places in `A` may have been decided since. -/
structure Tracks (c : Among) (t : Table DomainId Domain) (P : Finset Nat) (n : Int)
    (A : Nat → Prop) : Prop where
  subset : P ⊆ Finset.range c.scope.length
  sure_eq : n = (((Finset.range c.scope.length).filter fun i =>
    i ∉ P ∧ c.Sure t (c.place i)).card : Nat)
  decided : ∀ i < c.scope.length, i ∉ P → c.Decided t (c.place i)
  awaited : ∀ i ∈ P, c.Decided t (c.place i) → A i

/-- The scope has no more places than a value can count. -/
def Countable (c : Among) : Prop := (c.scope.length : Int) ≤ Value.greatest

instance : Decidable c.Countable := inferInstanceAs (Decidable (_ ≤ _))

/-- The counts from `n` to `n` and one for each place in `P` are between nothing and the whole scope. -/
structure Counts (c : Among) (P : Finset Nat) (n : Int) : Prop where
  nonneg : 0 ≤ n
  most_le : n + P.card ≤ c.scope.length

/-- The bounds of the counter can be moved to any value. -/
def Faithful (t : Table DomainId Domain) (x : Variable) : Prop :=
  x = .domain x.base ∨ t.enumerated x.base = true

instance (t : Table DomainId Domain) (x : Variable) : Decidable (Faithful t x) :=
  inferInstanceAs (Decidable (_ ∨ _))

/-- The counter is between the least and the greatest count. Of a counter whose bounds cannot be
moved freely this is known only if one value is left. -/
def InBounds (c : Among) (t : Table DomainId Domain) (P : Finset Nat) (n : Int) : Prop :=
  ∀ v ∈ c.counter.current t, Faithful t c.counter ∨ c.counter.current t = {v} →
    n ≤ v ∧ v ≤ n + P.card

/-! ### Satisfaction as a count of places -/

theorem countP_eq_card {α : Type} (l : List α) (d : α) (p : α → Bool) :
    l.countP p = ((Finset.range l.length).filter fun i => p (l.getD i d) = true).card := by
  induction l using List.reverseRecOn with
  | nil => rfl
  | append_singleton l a ih =>
      have hold : ∀ i ∈ Finset.range l.length, (p ((l ++ [a]).getD i d) = true ↔
          p (l.getD i d) = true) := by
        intro i hi
        rw [List.getD_append _ _ _ _ (Finset.mem_range.1 hi)]
      have hnew : (l ++ [a]).getD l.length d = a := by
        rw [List.getD_append_right _ _ _ _ (le_refl _), Nat.sub_self]
        rfl
      rw [List.countP_append, ih, List.length_append, List.length_singleton, Finset.range_add_one,
        Finset.filter_insert, hnew, Finset.filter_congr hold]
      cases hp : p a with
      | true =>
          rw [if_pos rfl, Finset.card_insert_of_notMem (by simp), List.countP_singleton, hp]
          rfl
      | false => simp [hp]

theorem satisfied_iff :
    c.Satisfied σ ↔ c.counter.eval σ = (c.tally σ (Finset.range c.scope.length)).card := by
  rw [Satisfied, countP_eq_card c.scope c.counter]
  simp only [decide_eq_true_eq]
  rfl

theorem eval_mem_current (h : t.Admits σ) (hx : x.base.index < t.size) :
    x.eval σ ∈ x.current t := by
  rw [Variable.eval_eq_image]
  exact Variable.image_mem_current (h.mem hx)

theorem current_nonempty (hwf : t.WellFormed) (hx : x.base.index < t.size) :
    (x.current t).Nonempty := by
  cases hd : t.get? x.base with
  | none => exact absurd ((t.get?_eq_none_iff _).1 hd) (not_le.2 hx)
  | some d =>
      refine ⟨x.image d.lower, Variable.image_mem_current ?_⟩
      rw [Table.members_of_get? hd]
      exact (hwf _ d hd).lower_mem

theorem Never.not_sure (h : c.Never t x) (hx : (x.current t).Nonempty) : ¬ c.Sure t x := by
  obtain ⟨v, hv⟩ := hx
  exact fun hs => h v hv (hs v hv)

/-! ### Recounts -/

/-- What tracks the domains accounts for the solutions. -/
theorem Tracks.accounts (h : c.Tracks t P n A) (hg : c.Grounded t) : c.Accounts t P n := by
  intro σ hσ hsat
  have hsplit : c.tally σ (Finset.range c.scope.length) =
      (Finset.range c.scope.length).filter (fun i => i ∉ P ∧ c.Sure t (c.place i)) ∪
        c.tally σ P := by
    ext i
    simp only [tally, Finset.mem_union, Finset.mem_filter, Finset.mem_range]
    constructor
    · rintro ⟨hi, htracked⟩
      by_cases hP : i ∈ P
      · exact Or.inr ⟨hP, htracked⟩
      · rcases h.decided i hi hP with hs | hn
        · exact Or.inl ⟨hi, hP, hs⟩
        · exact absurd htracked (hn _ (eval_mem_current hσ (hg.place_lt i hi)))
    · rintro (⟨hi, hP, hs⟩ | ⟨hP, htracked⟩)
      · exact ⟨hi, hs _ (eval_mem_current hσ (hg.place_lt i hi))⟩
      · exact ⟨Finset.mem_range.1 (h.subset hP), htracked⟩
  have hdisjoint : Disjoint
      ((Finset.range c.scope.length).filter fun i => i ∉ P ∧ c.Sure t (c.place i))
      (c.tally σ P) := by
    rw [Finset.disjoint_left]
    intro i hi hi'
    exact (Finset.mem_filter.1 hi).2.1 (Finset.mem_filter.1 hi').1
  rw [satisfied_iff.1 hsat, hsplit, Finset.card_union_of_disjoint hdisjoint, h.sure_eq]
  push_cast
  rfl

/-! ### Counts within the scope -/

/-- Nothing is counted yet. -/
theorem counts_empty (c : Among) : c.Counts ∅ 0 := ⟨Int.le_refl 0, by simp⟩

theorem Counts.erase (h : c.Counts P n) (i : Nat) : c.Counts (P.erase i) n := by
  have hle : (P.erase i).card ≤ P.card := Finset.card_erase_le
  have hmost := h.most_le
  exact ⟨h.nonneg, by omega⟩

/-- A place that is sure to count moves from the set to the number. -/
theorem Counts.settle (h : c.Counts P n) (hi : i ∈ P) : c.Counts (P.erase i) (n + 1) := by
  have hcard := Finset.card_erase_add_one hi
  have hnonneg := h.nonneg
  have hmost := h.most_le
  exact ⟨by omega, by omega⟩

/-- The next count is within the scope, too, if there is a place left. -/
theorem Counts.next_le (h : c.Counts P n) (hi : i ∈ P) : n + 1 ≤ c.scope.length := by
  have hcard := Finset.card_pos.2 ⟨i, hi⟩
  have hmost := h.most_le
  omega

/-- A recount counts every place at most once. -/
theorem Tracks.counts (h : c.Tracks t P n A) : c.Counts P n := by
  set S := (Finset.range c.scope.length).filter fun i => i ∉ P ∧ c.Sure t (c.place i) with hS
  have hdisjoint : Disjoint S P := Finset.disjoint_left.2 fun i hi => (Finset.mem_filter.1 hi).2.1
  have hsub : S ∪ P ⊆ Finset.range c.scope.length :=
    Finset.union_subset (Finset.filter_subset _ _) h.subset
  have hle := Finset.card_le_card hsub
  rw [Finset.card_union_of_disjoint hdisjoint, Finset.card_range] at hle
  have hn : n = (S.card : Nat) := h.sure_eq
  exact ⟨by omega, by omega⟩

namespace Counts

variable (h : c.Counts P n) (hc : c.Countable)
include h hc

/-- In a scope that can be counted all counts are values. -/
theorem inRange : Value.InRange n ∧ Value.InRange P.card ∧ Value.InRange (n + P.card) := by
  have hnonneg := h.nonneg
  have hmost := h.most_le.trans hc
  unfold Value.InRange Value.least Value.greatest at *
  omega

end Counts

/-! ### Narrower domains -/

section Below

variable {g : Table DomainId Domain} (h : g.Below t)
include h

theorem current_subset_of_below (x : Variable) : x.current g ⊆ x.current t :=
  Finset.image_subset_image (h.subset x.base)

theorem Grounded.below (hg : c.Grounded t) : c.Grounded g :=
  ⟨fun i hi => (hg.place_lt i hi).trans_eq h.size_eq.symm, hg.counter_lt.trans_eq h.size_eq.symm⟩

theorem Sure.below (hs : c.Sure t x) : c.Sure g x :=
  fun v hv => hs v (current_subset_of_below h x hv)

theorem Never.below (hn : c.Never t x) : c.Never g x :=
  fun v hv => hn v (current_subset_of_below h x hv)

theorem Decided.below (hd : c.Decided t x) : c.Decided g x :=
  hd.imp (Sure.below h) (Never.below h)

/-- Places that are decided stay what they are. -/
theorem Tracks.below (ht : c.Tracks t P n A) (hg : c.Grounded t)
    (hA : ∀ i ∈ P, c.Decided g (c.place i) → A' i) : c.Tracks g P n A' := by
  refine ⟨ht.subset, ?_, fun i hi hP => (ht.decided i hi hP).below h, hA⟩
  rw [ht.sure_eq]
  congr 2
  refine Finset.filter_congr fun i hi => and_congr_right fun hP => ?_
  have hi := Finset.mem_range.1 hi
  refine ⟨Sure.below h, fun hs => ?_⟩
  rcases ht.decided i hi hP with hs' | hnever
  · exact hs'
  · exact absurd hs ((hnever.below h).not_sure
      (current_nonempty h.wellFormed ((hg.below h).place_lt i hi)))

end Below

section Narrower

variable {B : DomainId → Prop} {cause : Cause} {s s' : Domains}
  (hn : Domains.Narrows B cause s s') (hwf : s.table.WellFormed)
include hn hwf

theorem current_subset (x : Variable) : x.current s'.table ⊆ x.current s.table :=
  current_subset_of_below (hn.table_below hwf) x

omit hwf in
theorem Grounded.narrower (h : c.Grounded s.table) : c.Grounded s'.table :=
  ⟨fun i hi => (h.place_lt i hi).trans_eq hn.size_eq.symm, h.counter_lt.trans_eq hn.size_eq.symm⟩

theorem Accounts.narrower (h : c.Accounts s.table P n) : c.Accounts s'.table P n :=
  fun σ hσ => h σ (hn.admits hwf hσ)

/-- Places that are decided stay what they are; others are awaited when they change. -/
theorem Tracks.narrower (h : c.Tracks s.table P n A) (hg : c.Grounded s.table)
    (hA : ∀ i ∈ P, A i ∨ s'.table.get? (c.place i).base ≠ s.table.get? (c.place i).base → A' i) :
    c.Tracks s'.table P n A' := by
  refine h.below (hn.table_below hwf) hg fun i hi hd => ?_
  by_cases hsame : s'.table.get? (c.place i).base = s.table.get? (c.place i).base
  · refine hA i hi (Or.inl (h.awaited i hi ?_))
    unfold Decided Sure Never at hd ⊢
    rwa [Variable.current_of_get? hsame] at hd
  · exact hA i hi (Or.inr hsame)

/-- A counter stays in bounds unless its domain changes below views of an interval. -/
theorem InBounds.narrower (h : c.InBounds s.table P n)
    (hsame : c.counter ≠ .domain c.counter.base →
      s'.table.get? c.counter.base = s.table.get? c.counter.base) : c.InBounds s'.table P n := by
  intro v hv hor
  by_cases hf : Faithful s.table c.counter
  · exact h v (current_subset hn hwf c.counter hv) (Or.inl hf)
  · have hview : c.counter ≠ .domain c.counter.base := fun he => hf (Or.inl he)
    rw [Variable.current_of_get? (hsame hview)] at hv hor
    refine h v hv (hor.imp_left fun hf' => ?_)
    rcases hf' with he | he
    · exact Or.inl he
    · exact Or.inr (by rw [← hn.enumerated_eq hwf, he])

end Narrower

/-! ### Further domains -/

section Further

variable (hg : c.Grounded t)
  (hext : ∀ id : DomainId, id.index < t.size → t'.get? id = t.get? id)
include hext

theorem admits_of_further {σ : DomainId → Int} (h : t'.Admits σ) : t.Admits σ := by
  intro id d hd
  exact h id d ((hext id (Table.lt_size_of_get? hd)).trans hd)

theorem current_further (hx : x.base.index < t.size) : x.current t' = x.current t :=
  Variable.current_of_get? (hext _ hx)

theorem faithful_further (hx : x.base.index < t.size) : Faithful t' x ↔ Faithful t x := by
  rw [Faithful, Faithful, Table.enumerated, Table.enumerated, hext _ hx]

theorem Accounts.further (h : c.Accounts t P n) : c.Accounts t' P n :=
  fun σ hσ => h σ (admits_of_further hext hσ)

include hg in
theorem Tracks.further (h : c.Tracks t P n A) : c.Tracks t' P n A := by
  have hsure : ∀ i < c.scope.length, (c.Sure t' (c.place i) ↔ c.Sure t (c.place i)) := by
    intro i hi
    rw [Sure, Sure, current_further hext (hg.place_lt i hi)]
  have hdecided : ∀ i < c.scope.length, (c.Decided t' (c.place i) ↔ c.Decided t (c.place i)) := by
    intro i hi
    rw [Decided, Decided, hsure i hi, Never, Never, current_further hext (hg.place_lt i hi)]
  refine ⟨h.subset, ?_, fun i hi hP => (hdecided i hi).2 (h.decided i hi hP), fun i hi hd => ?_⟩
  · rw [h.sure_eq]
    congr 2
    refine Finset.filter_congr fun i hi => and_congr_right fun _ => ?_
    exact (hsure i (Finset.mem_range.1 hi)).symm
  · exact h.awaited i hi ((hdecided i (Finset.mem_range.1 (h.subset hi))).1 hd)

include hg in
theorem InBounds.further (h : c.InBounds t P n) : c.InBounds t' P n := by
  rw [InBounds, current_further hext hg.counter_lt, faithful_further hext hg.counter_lt]
  exact h

end Further

/-! ### Places that leave the set -/

/-- A place that counts in no solution can be struck off. -/
theorem Accounts.erase (h : c.Accounts t P n)
    (hout : ∀ σ, t.Admits σ → c.Satisfied σ → (c.place i).eval σ ∉ c.tracked) :
    c.Accounts t (P.erase i) n := by
  intro σ hσ hsat
  have htally : c.tally σ (P.erase i) = c.tally σ P := by
    rw [tally, Finset.filter_erase, Finset.erase_eq_of_notMem]
    · rfl
    · exact fun hi => hout σ hσ hsat (Finset.mem_filter.1 hi).2
  rw [htally]
  exact h σ hσ hsat

/-- A place that counts in every solution moves from the set to the number. -/
theorem Accounts.settle (h : c.Accounts t P n) (hi : i ∈ P)
    (hin : ∀ σ, t.Admits σ → c.Satisfied σ → (c.place i).eval σ ∈ c.tracked) :
    c.Accounts t (P.erase i) (n + 1) := by
  intro σ hσ hsat
  have hmem : i ∈ c.tally σ P := Finset.mem_filter.2 ⟨hi, hin σ hσ hsat⟩
  have hcard : (c.tally σ (P.erase i)).card + 1 = (c.tally σ P).card := by
    rw [tally, Finset.filter_erase]
    exact Finset.card_erase_add_one hmem
  rw [← h σ hσ hsat, ← hcard]
  push_cast
  omega

theorem Tracks.erase (h : c.Tracks t P n A) (hnot : ¬ c.Sure t (c.place i))
    (hi : c.Decided t (c.place i)) : c.Tracks t (P.erase i) n A := by
  refine ⟨(Finset.erase_subset _ _).trans h.subset, ?_, fun j hj hP => ?_, fun j hj hd => ?_⟩
  · rw [h.sure_eq]
    congr 2
    refine Finset.filter_congr fun j _ => ?_
    rw [Finset.mem_erase]
    by_cases hji : j = i
    · subst hji
      simp [hnot]
    · simp [hji]
  · by_cases hji : j = i
    · rw [hji]
      exact hi
    · exact h.decided j hj fun hjP => hP (Finset.mem_erase.2 ⟨hji, hjP⟩)
  · exact h.awaited j (Finset.mem_of_mem_erase hj) hd

theorem Tracks.settle (h : c.Tracks t P n A) (hi : i ∈ P) (hsure : c.Sure t (c.place i)) :
    c.Tracks t (P.erase i) (n + 1) A := by
  refine ⟨(Finset.erase_subset _ _).trans h.subset, ?_, fun j hj hP => ?_, fun j hj hd => ?_⟩
  · have hinsert : (Finset.range c.scope.length).filter
          (fun j => j ∉ P.erase i ∧ c.Sure t (c.place j)) =
        insert i ((Finset.range c.scope.length).filter
          fun j => j ∉ P ∧ c.Sure t (c.place j)) := by
      ext j
      simp only [Finset.mem_insert, Finset.mem_filter, Finset.mem_erase]
      by_cases hji : j = i
      · subst hji
        simp [hsure, Finset.mem_range.1 (h.subset hi)]
      · simp [hji]
    rw [hinsert, Finset.card_insert_of_notMem fun hmem => (Finset.mem_filter.1 hmem).2.1 hi,
      h.sure_eq]
    push_cast
    rfl
  · by_cases hji : j = i
    · rw [hji]
      exact Or.inl hsure
    · exact h.decided j hj fun hjP => hP (Finset.mem_erase.2 ⟨hji, hjP⟩)
  · exact h.awaited j (Finset.mem_of_mem_erase hj) hd

/-- More places may be awaited. -/
theorem Tracks.mono (h : c.Tracks t P n A) (hA : ∀ i ∈ P, A i → A' i) : c.Tracks t P n A' :=
  ⟨h.subset, h.sure_eq, h.decided, fun i hi hd => hA i hi (h.awaited i hi hd)⟩

/-- A place that is looked at and found undecided need not be awaited. -/
theorem Tracks.forget (h : c.Tracks t P n A) (hA : ∀ j ∈ P, A j → j ≠ i → A' j)
    (hi : i ∈ P → ¬ c.Decided t (c.place i)) : c.Tracks t P n A' := by
  refine ⟨h.subset, h.sure_eq, h.decided, fun j hj hd => hA j hj (h.awaited j hj hd) ?_⟩
  rintro rfl
  exact hi hj hd

/-! ### Standings -/

theorem countTracked_eq_ok {s : Domains} (hwf : s.table.WellFormed) {l : List Int} {m : Nat}
    (h : countTracked x s l = .ok m) : m = (l.filter (· ∈ x.current s.table)).length := by
  induction l generalizing m with
  | nil => exact (Except.ok.inj h).symm
  | cons v rest ih =>
      obtain ⟨here, hhere, h⟩ := Checked.bind_eq_ok h
      obtain ⟨others, hothers, h⟩ := Checked.bind_eq_ok h
      obtain rfl := Except.ok.inj h
      have hiff := (x.describes_answer hwf).contains hhere
      rw [ih hothers, List.filter_cons]
      cases here with
      | true =>
          have hv := hiff.1 rfl
          simp [hv]
      | false =>
          have hv : v ∉ x.current s.table := fun hv => absurd (hiff.2 hv) (by decide)
          simp [hv]

/-- What the standing of a variable says about its values. -/
theorem standing_eq_ok {s : Domains} (hwf : s.table.WellFormed) (hsorted : c.tracked.Pairwise (· < ·))
    {st : Standing} (h : c.standing s x = .ok st) :
    (st = .sure ∧ c.Sure s.table x) ∨
      (st = .possible ∧ ¬ c.Sure s.table x ∧ ¬ c.Never s.table x) ∨
      (st = .impossible ∧ ¬ c.Sure s.table x ∧ c.Never s.table x) := by
  obtain ⟨count, hcount, h⟩ := Checked.bind_eq_ok h
  obtain ⟨size, hsize, h⟩ := Checked.bind_eq_ok h
  have hsize := (x.describes_answer hwf).size hsize
  have hcount := countTracked_eq_ok hwf hcount
  have hnodup : c.tracked.Nodup := hsorted.imp fun hlt => ne_of_lt hlt
  have hset : count = (x.current s.table ∩ c.tracked.toFinset).card := by
    rw [hcount, ← List.toFinset_card_of_nodup (hnodup.filter _)]
    congr 1
    ext v
    simp [and_comm]
  have hsure : count = size ↔ c.Sure s.table x := by
    rw [hset, hsize]
    constructor
    · intro hcard v hv
      have hsub : x.current s.table ∩ c.tracked.toFinset ⊆ x.current s.table :=
        Finset.inter_subset_left
      have heq := Finset.eq_of_subset_of_card_le hsub hcard.ge
      rw [← heq] at hv
      exact List.mem_toFinset.1 (Finset.mem_inter.1 hv).2
    · intro hs
      rw [Finset.inter_eq_left.2 fun v hv => List.mem_toFinset.2 (hs v hv)]
  have hnever : count = 0 ↔ c.Never s.table x := by
    rw [hset, Finset.card_eq_zero, Finset.eq_empty_iff_forall_notMem]
    simp only [Finset.mem_inter, List.mem_toFinset, not_and]
    rfl
  split at h
  · next heq => exact Or.inl ⟨(Except.ok.inj h).symm, hsure.1 heq⟩
  · next hne =>
    have hnot : ¬ c.Sure s.table x := fun hs => hne (hsure.2 hs)
    split at h
    · next hpos =>
      refine Or.inr (Or.inl ⟨(Except.ok.inj h).symm, hnot, fun hn => ?_⟩)
      rw [hnever.2 hn] at hpos
      exact absurd hpos (lt_irrefl 0)
    · next hzero =>
      exact Or.inr (Or.inr ⟨(Except.ok.inj h).symm, hnot,
        hnever.1 (Nat.eq_zero_of_not_pos hzero)⟩)

end Narrowing.Among
