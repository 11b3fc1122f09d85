import Narrowing.Among.Propagator
import Narrowing.Proofs.Among.Accounts

/-!
Domains at which an Among propagator is at rest. The counter is between the counts that a recount
gives, and where a counter fixed to one of them decides about the undecided variables, these are
trimmed: what has to go from them is gone, except from within an interval. Whether a propagator is at
rest depends on the domains alone.

What the cells of a propagator say may lag behind the domains. As long as it accounts for the
domains, a propagator that rests as far as its cells tell is at rest, and what its cells tell about
the domains holds of all domains below them, those at rest among them.
-/

namespace Narrowing

namespace Variable

/-- No value of the variable is outside of `T`, except within an interval strictly between other
values. -/
def Trimmed (x : Variable) (t : Table DomainId Domain) (T : Int → Prop) : Prop :=
  ∀ v ∈ x.current t, T v ∨ (t.enumerated x.base = false ∧ (∃ a ∈ x.current t, a < v) ∧
    ∃ b ∈ x.current t, v < b)

variable {x : Variable} {t t' : Table DomainId Domain} {T : Int → Prop} {v : Int}

theorem Trimmed.of_all (h : ∀ v ∈ x.current t, T v) : x.Trimmed t T := fun v hv => Or.inl (h v hv)

theorem Trimmed.imp {T' : Int → Prop} (h : x.Trimmed t T) (himp : ∀ v, T v → T' v) :
    x.Trimmed t T' := fun v hv => (h v hv).imp_left (himp v)

theorem Trimmed.all (h : x.Trimmed t T) (hkind : t.enumerated x.base = true) :
    ∀ v ∈ x.current t, T v := by
  intro v hv
  refine (h v hv).resolve_right fun hinside => ?_
  exact absurd (hkind.symm.trans hinside.1) (by decide)

/-- The smallest value of a trimmed variable is not outside. -/
theorem Trimmed.of_least (h : x.Trimmed t T) (hv : v ∈ x.current t)
    (hleast : ∀ u ∈ x.current t, v ≤ u) : T v := by
  refine (h v hv).resolve_right ?_
  rintro ⟨-, ⟨a, ha, hav⟩, -⟩
  exact absurd (hleast a ha) (not_le.2 hav)

theorem Trimmed.of_greatest (h : x.Trimmed t T) (hv : v ∈ x.current t)
    (hgreatest : ∀ u ∈ x.current t, u ≤ v) : T v := by
  refine (h v hv).resolve_right ?_
  rintro ⟨-, -, b, hb, hvb⟩
  exact absurd (hgreatest b hb) (not_le.2 hvb)

theorem Trimmed.exists_mem (h : x.Trimmed t T) (hne : (x.current t).Nonempty) :
    ∃ v ∈ x.current t, T v :=
  ⟨_, Finset.min'_mem _ hne, h.of_least (Finset.min'_mem _ hne) fun _ hu => Finset.min'_le _ _ hu⟩

/-- A lower bound on what is not outside is one on all values of a trimmed variable. -/
theorem Trimmed.le (h : x.Trimmed t T) {lo : Int} (hlo : ∀ u ∈ x.current t, T u → lo ≤ u)
    (hv : v ∈ x.current t) : lo ≤ v := by
  have hmem := Finset.min'_mem _ ⟨v, hv⟩
  calc lo ≤ (x.current t).min' ⟨v, hv⟩ :=
        hlo _ hmem (h.of_least hmem fun _ hu => Finset.min'_le _ _ hu)
    _ ≤ v := Finset.min'_le _ _ hv

theorem Trimmed.ge (h : x.Trimmed t T) {hi : Int} (hhi : ∀ u ∈ x.current t, T u → u ≤ hi)
    (hv : v ∈ x.current t) : v ≤ hi := by
  have hmem := Finset.max'_mem _ ⟨v, hv⟩
  calc v ≤ (x.current t).max' ⟨v, hv⟩ := Finset.le_max' _ _ hv
    _ ≤ hi := hhi _ hmem (h.of_greatest hmem fun _ hu => Finset.le_max' _ _ hu)

theorem Trimmed.between (h : x.Trimmed t T) {lo hi : Int}
    (hT : ∀ u ∈ x.current t, T u → lo ≤ u ∧ u ≤ hi) (hv : v ∈ x.current t) : lo ≤ v ∧ v ≤ hi :=
  ⟨h.le (fun u hu hin => (hT u hu hin).1) hv, h.ge (fun u hu hin => (hT u hu hin).2) hv⟩

theorem Trimmed.congr (h : x.Trimmed t T) (hcurrent : x.current t' = x.current t)
    (hkind : t'.enumerated x.base = t.enumerated x.base) : x.Trimmed t' T := by
  unfold Trimmed
  rwa [hcurrent, hkind]

theorem Trimmed.of_get? (h : x.Trimmed t T) (hsame : t'.get? x.base = t.get? x.base) :
    x.Trimmed t' T := by
  refine h.congr (current_of_get? hsame) ?_
  rw [Table.enumerated, Table.enumerated, hsame]

end Variable

namespace Among

variable {c : Among} {t t' g : Table DomainId Domain} {P : Finset Nat} {n m : Int} {A : Nat → Prop}
  {i : Nat}

/-- The counter has the value `m` and no other. -/
def CounterIs (c : Among) (t : Table DomainId Domain) (m : Int) : Prop :=
  ∀ v ∈ c.counter.current t, v = m

/-- The number of places that are sure to count. -/
def sures (c : Among) (t : Table DomainId Domain) : Nat :=
  ((Finset.range c.scope.length).filter fun i => c.Sure t (c.place i)).card

/-- The places that may or may not count. -/
def undecided (c : Among) (t : Table DomainId Domain) : Finset Nat :=
  (Finset.range c.scope.length).filter fun i => ¬ c.Decided t (c.place i)

/-- The bounds of every variable of the constraint can be moved to any value. -/
def Clear (c : Among) (t : Table DomainId Domain) : Prop :=
  ∀ x ∈ c.counter :: c.scope, Faithful t x

instance : Decidable (c.Clear t) := inferInstanceAs (Decidable (∀ x ∈ _, _))

theorem CounterIs.unique (hwf : t.WellFormed) (hg : c.Grounded t) (hm : c.CounterIs t m)
    (hn : c.CounterIs t n) : m = n := by
  obtain ⟨v, hv⟩ := current_nonempty hwf hg.counter_lt
  exact (hm v hv).symm.trans (hn v hv)

theorem CounterIs.below (h : c.CounterIs t m) (hb : g.Below t) : c.CounterIs g m :=
  fun v hv => h v (current_subset_of_below hb _ hv)

theorem Clear.counter (h : c.Clear t) : Faithful t c.counter := h _ List.mem_cons_self

theorem Clear.place (h : c.Clear t) (hi : i < c.scope.length) : Faithful t (c.place i) :=
  h _ (List.mem_cons_of_mem _ (place_mem hi))

theorem Clear.of_enumerated (h : c.Clear t) (hkind : ∀ id, t'.enumerated id = t.enumerated id) :
    c.Clear t' := fun x hx => (h x hx).imp_right fun he => (hkind _).trans he

/-- The scope and the counter are pairwise distinct domains, without views. -/
structure Plain (c : Among) : Prop where
  distinct : (c.counter :: c.scope).Nodup
  plain : ∀ x ∈ c.counter :: c.scope, x = .domain x.base

instance : Decidable c.Plain :=
  decidable_of_iff ((c.counter :: c.scope).Nodup ∧ ∀ x ∈ c.counter :: c.scope, x = .domain x.base)
    ⟨fun h => ⟨h.1, h.2⟩, fun h => ⟨h.distinct, h.plain⟩⟩

namespace Plain

variable (h : c.Plain) {j : Nat}
include h

theorem clear (t : Table DomainId Domain) : c.Clear t := fun x hx => Or.inl (h.plain x hx)

theorem counter_eq : c.counter = .domain c.counter.base := h.plain _ List.mem_cons_self

theorem place_eq (hi : i < c.scope.length) : c.place i = .domain (c.place i).base :=
  h.plain _ (List.mem_cons_of_mem _ (place_mem hi))

theorem place_ne_counter (hi : i < c.scope.length) : (c.place i).base ≠ c.counter.base := by
  intro heq
  have hsame : c.place i = c.counter := by rw [h.place_eq hi, heq, ← h.counter_eq]
  exact (List.nodup_cons.1 h.distinct).1 (hsame ▸ place_mem hi)

theorem place_inj (hi : i < c.scope.length) (hj : j < c.scope.length)
    (heq : (c.place i).base = (c.place j).base) : i = j := by
  have hsame : c.place i = c.place j := by rw [h.place_eq hi, heq, ← h.place_eq hj]
  rw [place_eq_getElem hi, place_eq_getElem hj] at hsame
  exact (List.Nodup.getElem_inj_iff (List.nodup_cons.1 h.distinct).2).1 hsame

end Plain

/-! ### A recount from what the cells say -/

theorem Tracks.sures_eq (h : c.Tracks t P n A) :
    (c.sures t : Int) = n + (P.filter fun i => c.Sure t (c.place i)).card := by
  have hsplit : ((Finset.range c.scope.length).filter fun i => c.Sure t (c.place i)) =
      ((Finset.range c.scope.length).filter fun i => i ∉ P ∧ c.Sure t (c.place i)) ∪
        P.filter fun i => c.Sure t (c.place i) := by
    ext i
    have hsub := @h.subset i
    simp only [Finset.mem_union, Finset.mem_filter]
    tauto
  have hdisjoint : Disjoint
      ((Finset.range c.scope.length).filter fun i => i ∉ P ∧ c.Sure t (c.place i))
      (P.filter fun i => c.Sure t (c.place i)) := by
    rw [Finset.disjoint_left]
    intro i hi hi'
    exact (Finset.mem_filter.1 hi).2.1 (Finset.mem_filter.1 hi').1
  rw [sures, hsplit, Finset.card_union_of_disjoint hdisjoint, h.sure_eq]
  push_cast
  rfl

theorem Tracks.undecided_subset (h : c.Tracks t P n A) : c.undecided t ⊆ P := by
  intro i hi
  obtain ⟨hlt, hnot⟩ := Finset.mem_filter.1 hi
  by_contra hP
  exact hnot (h.decided i (Finset.mem_range.1 hlt) hP)

/-- The places that are sure and those that are undecided are those that are not ruled out. -/
theorem Tracks.most_eq (h : c.Tracks t P n A) (hwf : t.WellFormed) (hg : c.Grounded t) :
    (c.sures t : Int) + (c.undecided t).card =
      n + (P.filter fun i => ¬ c.Never t (c.place i)).card := by
  have hsplit : (P.filter fun i => ¬ c.Never t (c.place i)) =
      (P.filter fun i => c.Sure t (c.place i)) ∪ c.undecided t := by
    ext i
    have hsub := @h.subset i
    have hundecided := @Tracks.undecided_subset _ _ _ _ _ h i
    unfold undecided Decided at hundecided ⊢
    simp only [Finset.mem_union, Finset.mem_filter] at hundecided ⊢
    have hboth : i ∈ P → c.Sure t (c.place i) → ¬ c.Never t (c.place i) := fun hi hs hn =>
      hn.not_sure (current_nonempty hwf (hg.place_lt i (Finset.mem_range.1 (hsub hi)))) hs
    tauto
  have hdisjoint : Disjoint (P.filter fun i => c.Sure t (c.place i)) (c.undecided t) := by
    rw [Finset.disjoint_left]
    intro i hi hi'
    exact (Finset.mem_filter.1 hi').2 (Or.inl (Finset.mem_filter.1 hi).2)
  rw [h.sures_eq, hsplit, Finset.card_union_of_disjoint hdisjoint]
  push_cast
  omega

/-- If the cells lag behind nowhere, a recount gives what they say. -/
theorem Tracks.exact (h : c.Tracks t P n fun _ => False) : P = c.undecided t ∧ n = c.sures t := by
  have hP : P = c.undecided t := by
    refine Finset.Subset.antisymm (fun i hi => ?_) h.undecided_subset
    exact Finset.mem_filter.2 ⟨h.subset hi, fun hd => h.awaited i hi hd⟩
  refine ⟨hP, ?_⟩
  have hnone : (P.filter fun i => c.Sure t (c.place i)) = ∅ :=
    Finset.filter_false_of_mem fun i hi hs => h.awaited i hi (Or.inl hs)
  rw [h.sures_eq, hnone, Finset.card_empty]
  simp

end Among

namespace AmongPropagator

variable {p : AmongPropagator} {t t' g : Table DomainId Domain} {P : Finset Nat} {n m : Int}
  {A : Nat → Prop} {i : Nat}

/-- The counter is between `n` and what `P` adds to it, and where it is fixed to one of these the
places of `P` are trimmed, so that the propagator can do no more about them. -/
structure Resting (p : AmongPropagator) (t : Table DomainId Domain) (P : Finset Nat) (n : Int) :
    Prop where
  inBounds : ∀ v ∈ p.counter.current t, n ≤ v ∧ v ≤ n + P.card
  excluded : p.backPropagates = true → p.CounterIs t n →
    ∀ i ∈ P, (p.place i).Trimmed t (· ∉ p.tracked)
  included : p.backPropagates = true → p.CounterIs t (n + P.card) →
    ∀ i ∈ P, (p.place i).Trimmed t (· ∈ p.tracked)

/-- The bounds of every variable that the propagator may restrict can be moved to any value. -/
structure Steerable (p : AmongPropagator) (t : Table DomainId Domain) : Prop where
  counter : Among.Faithful t p.counter
  scope : p.backPropagates = true → ∀ x ∈ p.scope, Among.Faithful t x

theorem Steerable.of_clear (h : p.Clear t) : p.Steerable t :=
  ⟨h.counter, fun _ x hx => h x (List.mem_cons_of_mem _ hx)⟩

theorem Steerable.clear (h : p.Steerable t) (hback : p.backPropagates = true) : p.Clear t :=
  List.forall_mem_cons.2 ⟨h.counter, h.scope hback⟩

theorem Steerable.of_enumerated (h : p.Steerable t)
    (hkind : ∀ id, t'.enumerated id = t.enumerated id) : p.Steerable t' :=
  ⟨h.counter.imp_right fun he => (hkind _).trans he,
    fun hback x hx => (h.scope hback x hx).imp_right fun he => (hkind _).trans he⟩

/-- The domains leave the propagator nothing to do. -/
def AtRest (p : AmongPropagator) (t : Table DomainId Domain) : Prop :=
  p.Resting t (p.undecided t) (p.sures t)

/-- The counter is fixed to a count that decides about the places of `P`. -/
def Pinned (p : AmongPropagator) (t : Table DomainId Domain) (P : Finset Nat) (n : Int) : Prop :=
  p.backPropagates = true ∧ (p.CounterIs t n ∨ p.CounterIs t (n + P.card))

/-- The counter decides about the place `i`, which is over an interval, and the values that have to go
for it are gone. -/
structure Handled (p : AmongPropagator) (t : Table DomainId Domain) (P : Finset Nat) (n : Int)
    (i : Nat) : Prop where
  back : p.backPropagates = true
  interval : t.enumerated (p.place i).base = false
  trimmed : p.CounterIs t n ∧ (p.place i).Trimmed t (· ∉ p.tracked) ∨
    p.CounterIs t (n + P.card) ∧ (p.place i).Trimmed t (· ∈ p.tracked)

theorem Handled.pinned (h : p.Handled t P n i) : p.Pinned t P n :=
  ⟨h.back, h.trimmed.imp And.left And.left⟩

/-- A place stays treated as long as its domain and the counter do. -/
theorem Handled.of_get? {P' : Finset Nat} {n' : Int} (h : p.Handled t P n i)
    (hsame : t'.get? (p.place i).base = t.get? (p.place i).base)
    (hleast : p.CounterIs t n → p.CounterIs t' n')
    (hmost : p.CounterIs t (n + P.card) → p.CounterIs t' (n' + P'.card)) : p.Handled t' P' n' i := by
  refine ⟨h.back, ?_, h.trimmed.imp (And.imp hleast (·.of_get? hsame))
    (And.imp hmost (·.of_get? hsame))⟩
  rw [Table.enumerated, hsame]
  exact h.interval

theorem Handled.below (h : p.Handled t P n i) (hb : g.Below t)
    (hsame : g.get? (p.place i).base = t.get? (p.place i).base) : p.Handled g P n i :=
  h.of_get? hsame (·.below hb) (·.below hb)

/-- Where a propagator rests, the counter decides about all places or about none. -/
theorem Resting.handled (h : p.Resting t P n) (hpinned : p.Pinned t P n)
    (hinterval : t.enumerated (p.place i).base = false) (hi : i ∈ P) : p.Handled t P n i :=
  ⟨hpinned.1, hinterval, hpinned.2.imp (fun hc => ⟨hc, h.excluded hpinned.1 hc i hi⟩) fun hc =>
    ⟨hc, h.included hpinned.1 hc i hi⟩⟩

/-- Whether a propagator is at rest depends on its constraint and on the values of its variables. -/
theorem AtRest.congr {q : AmongPropagator} (h : p.AtRest t) (hc : q.toAmong = p.toAmong)
    (hback : q.backPropagates = p.backPropagates) (hmembers : ∀ id, t'.members id = t.members id)
    (hkind : ∀ id, t'.enumerated id = t.enumerated id) : q.AtRest t' := by
  have hcurrent : ∀ x : Variable, x.current t' = x.current t := fun x => by
    rw [Variable.current, Variable.current, hmembers]
  have hsure : ∀ i, q.Sure t' (q.place i) ↔ p.Sure t (p.place i) := fun i => by
    rw [Among.Sure, Among.Sure, hc, hcurrent]
  have hdecided : ∀ i, q.Decided t' (q.place i) ↔ p.Decided t (p.place i) := fun i => by
    rw [Among.Decided, Among.Decided, hsure, Among.Never, Among.Never, hc, hcurrent]
  have hundecided : q.undecided t' = p.undecided t := by
    rw [Among.undecided, Among.undecided, hc]
    exact Finset.filter_congr fun i _ => not_congr (hc ▸ hdecided i)
  have hsures : q.sures t' = p.sures t := by
    rw [Among.sures, Among.sures, hc]
    exact congrArg Finset.card (Finset.filter_congr fun i _ => hc ▸ hsure i)
  unfold AtRest
  rw [hundecided, hsures]
  refine ⟨fun v hv => ?_, fun hb hcount i hi => ?_, fun hb hcount i hi => ?_⟩
  · rw [hc, hcurrent] at hv
    exact h.inBounds v hv
  · rw [Among.CounterIs, hc, hcurrent] at hcount
    rw [hc]
    exact (h.excluded (hback ▸ hb) hcount i hi).congr (hcurrent _) (hkind _)
  · rw [Among.CounterIs, hc, hcurrent] at hcount
    rw [hc]
    exact (h.included (hback ▸ hb) hcount i hi).congr (hcurrent _) (hkind _)

/-- A propagator that rests as far as its cells tell is at rest, if they lag behind only where the
counter decides about all places. -/
theorem Resting.atRest (h : p.Resting t P n) (ht : p.Tracks t P n fun _ => p.Pinned t P n)
    (hwf : t.WellFormed) (hg : p.Grounded t) : p.AtRest t := by
  have hcounter := Among.current_nonempty hwf hg.counter_lt
  have hplace : ∀ i ∈ P, ((p.place i).current t).Nonempty := fun i hi =>
    Among.current_nonempty hwf (hg.place_lt i (Finset.mem_range.1 (ht.subset hi)))
  have hsures := ht.sures_eq
  have hmost := ht.most_eq hwf hg
  have hsub := ht.undecided_subset
  by_cases hpinned : p.Pinned t P n
  · obtain ⟨hback, hleast | hgreatest⟩ := hpinned
    · have htrimmed := h.excluded hback hleast
      have hnone : (P.filter fun i => p.Sure t (p.place i)) = ∅ := by
        refine Finset.filter_false_of_mem fun i hi hs => ?_
        obtain ⟨v, hv, hout⟩ := (htrimmed i hi).exists_mem (hplace i hi)
        exact hout (hs v hv)
      rw [hnone, Finset.card_empty] at hsures
      refine ⟨fun v hv => ?_, fun _ _ i hi => htrimmed i (hsub hi), fun _ hcount i hi => ?_⟩
      · have := hleast v hv
        omega
      · obtain ⟨v, hv⟩ := hcounter
        have := hleast v hv
        have := hcount v hv
        have := Finset.card_pos.2 ⟨i, hi⟩
        omega
    · have htrimmed := h.included hback hgreatest
      have hall : (P.filter fun i => ¬ p.Never t (p.place i)) = P := by
        refine Finset.filter_true_of_mem fun i hi hn => ?_
        obtain ⟨v, hv, hin⟩ := (htrimmed i hi).exists_mem (hplace i hi)
        exact hn v hv hin
      rw [hall] at hmost
      refine ⟨fun v hv => ?_, fun _ hcount i hi => ?_, fun _ _ i hi => htrimmed i (hsub hi)⟩
      · have := hgreatest v hv
        omega
      · obtain ⟨v, hv⟩ := hcounter
        have := hgreatest v hv
        have := hcount v hv
        have := Finset.card_pos.2 ⟨i, hi⟩
        omega
  · have hexact : p.Tracks t P n fun _ => False := ht.mono fun i _ hA => hpinned hA
    obtain ⟨rfl, rfl⟩ := hexact.exact
    exact h

/-! ### Domains at rest below others -/

section Below

variable (hr : p.AtRest g) (ht : p.Tracks t P n A) (hb : g.Below t) (hg : p.Grounded t)
include hr ht hb hg

/-- In domains at rest the counter is between what the cells say about domains above them. -/
theorem AtRest.inBounds_of {v : Int} (hv : v ∈ p.counter.current g) : n ≤ v ∧ v ≤ n + P.card := by
  have htracks : p.Tracks g P n fun _ => True := ht.below hb hg fun _ _ _ => trivial
  have hsures := htracks.sures_eq
  have hmost := htracks.most_eq hb.wellFormed (hg.below hb)
  have hcard := Finset.card_le_card (Finset.filter_subset (fun i => ¬ p.Never g (p.place i)) P)
  have := hr.inBounds v hv
  omega

/-- A counter at the least count decides about the places in domains at rest too. -/
theorem AtRest.excludes (hback : p.backPropagates = true) (hcount : p.CounterIs t n) (hi : i ∈ P) :
    (p.place i).Trimmed g (· ∉ p.tracked) := by
  have htracks : p.Tracks g P n fun _ => True := ht.below hb hg fun _ _ _ => trivial
  have hsures := htracks.sures_eq
  have hcount := hcount.below hb
  obtain ⟨v, hv⟩ := Among.current_nonempty hb.wellFormed (hg.below hb).counter_lt
  have hv' := hcount v hv
  have hle := (hr.inBounds v hv).1
  have hnone : (P.filter fun i => p.Sure g (p.place i)) = ∅ := Finset.card_eq_zero.1 (by omega)
  have hnot : ¬ p.Sure g (p.place i) := fun hs =>
    Finset.notMem_empty i (hnone ▸ Finset.mem_filter.2 ⟨hi, hs⟩)
  by_cases hnever : p.Never g (p.place i)
  · exact .of_all hnever
  · refine hr.excluded hback ?_ i (Finset.mem_filter.2 ⟨ht.subset hi, ?_⟩)
    · rw [hsures, hnone, Finset.card_empty]
      simpa using hcount
    · rintro (hs | hn)
      · exact hnot hs
      · exact hnever hn

theorem AtRest.includes (hback : p.backPropagates = true) (hcount : p.CounterIs t (n + P.card))
    (hi : i ∈ P) : (p.place i).Trimmed g (· ∈ p.tracked) := by
  have htracks : p.Tracks g P n fun _ => True := ht.below hb hg fun _ _ _ => trivial
  have hmost := htracks.most_eq hb.wellFormed (hg.below hb)
  have hcard := Finset.card_le_card (Finset.filter_subset (fun i => ¬ p.Never g (p.place i)) P)
  have hcount := hcount.below hb
  obtain ⟨v, hv⟩ := Among.current_nonempty hb.wellFormed (hg.below hb).counter_lt
  have hv' := hcount v hv
  have hle := (hr.inBounds v hv).2
  have hall : (P.filter fun i => ¬ p.Never g (p.place i)) = P :=
    Finset.eq_of_subset_of_card_le (Finset.filter_subset _ _) (by omega)
  have hnot : ¬ p.Never g (p.place i) := by
    rw [← hall] at hi
    exact (Finset.mem_filter.1 hi).2
  by_cases hsure : p.Sure g (p.place i)
  · exact .of_all hsure
  · refine hr.included hback ?_ i (Finset.mem_filter.2 ⟨ht.subset hi, ?_⟩)
    · rw [hmost, hall]
      exact hcount
    · rintro (hs | hn)
      · exact hsure hs
      · exact hnot hn

end Below

end AmongPropagator

end Narrowing
