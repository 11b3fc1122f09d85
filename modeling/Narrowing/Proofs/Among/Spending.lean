import Narrowing.Proofs.Among.Calls
import Narrowing.Proofs.Among.Spent

/-!
How a pass comes to leave a propagator spent. A restriction narrows the domain at the bottom of its
variable, which is to be reported, or it had no effect, and will have none. So a pass that gave nothing
to report has left nothing to do. The same holds of one that gave only changes of the counter, if that
is a domain: its bounds are where the pass moved them.
-/

namespace Narrowing

variable {x : Variable} {s s' : Domains} {cause : Cause} {id : DomainId}

/-- There is a report of the domain, or none was added. -/
theorem Domains.Narrows.touched_or (h : Domains.Narrows (· = id) cause s s') :
    s'.Touched id ∨ s'.unreported.size ≤ s.unreported.size := by
  obtain ⟨new, hnew, hall⟩ := h.unreported_eq
  cases new with
  | nil =>
      have hlength := congrArg List.length hnew
      rw [List.append_nil, Array.length_toList, Array.length_toList] at hlength
      exact Or.inr hlength.le
  | cons o rest =>
      refine Or.inl ⟨o, ?_, (hall o List.mem_cons_self).1⟩
      rw [hnew]
      exact List.mem_append_right _ List.mem_cons_self

theorem Variable.leaves_true (hwf : s.table.WellFormed) (r : Restriction) :
    x.Leaves cause (fun _ => True) r s :=
  (x.confined cause r s hwf).mono hwf (fun _ _ hf => hf.elim) fun _ _ _ => trivial

namespace AmongPropagator

open Narrowing.Action

variable {p : AmongPropagator} {me : PropagatorId} {w w' w'' : Workspace Remark} {Q Q' : Prop}
  {t t' : Table DomainId Domain} {goes : Int → Bool} {i : Nat} {places : List Nat}
  {smallest largest : Int}

/-! ### Restrictions that are tried -/

/-- Restrictions of `x` on the way from `w` to `w'` gave something to report, or they had no effect
and `Q` is true. -/
structure Tried (x : Variable) (me : PropagatorId) (Q : Prop) (w w' : Workspace Remark) : Prop where
  cells_eq : w'.cells = w.cells
  narrows : Domains.Narrows (· = x.base) (.propagator me) w.domains w'.domains
  effect : w'.domains.Touched x.base ∨ w'.domains = w.domains ∧ Q

theorem Tried.imp (h : Tried x me Q w w') (hQ : Q → Q') : Tried x me Q' w w' :=
  ⟨h.cells_eq, h.narrows, h.effect.imp_right (And.imp_right hQ)⟩

theorem Tried.progress (h : Tried x me Q w w') (hwf : w.WellFormed) :
    Workspace.Progress (.propagator me) w w' := by
  refine ⟨h.narrows.mono fun _ _ => trivial, ?_⟩
  rw [h.cells_eq]
  exact .refl hwf.cells

theorem Tried.may_eq (h : Tried x me Q w w') : p.may w' = p.may w :=
  may_congr h.cells_eq

theorem Tried.surely_eq (h : Tried x me Q w w') : p.surely w' = p.surely w :=
  surely_congr h.cells_eq

theorem Tried.trans (h : Tried x me Q w w') (h' : Tried x me Q' w' w'') :
    Tried x me (Q ∧ Q' ∧ w'.domains = w.domains) w w'' := by
  refine ⟨h'.cells_eq.trans h.cells_eq, h.narrows.trans h'.narrows, ?_⟩
  rcases h'.effect with ht | ⟨hsame', hQ'⟩
  · exact Or.inl ht
  rcases h.effect with ht | ⟨hsame, hQ⟩
  · exact Or.inl (hsame' ▸ ht)
  · exact Or.inr ⟨hsame'.trans hsame, hQ, hQ', hsame⟩

theorem yields_force_tries {r : Restriction} {left : Int → Prop}
    (hleft : x.Leaves (.propagator me) left r w.domains) :
    Yields me (force x r) w (fun _ w' => Tried x me (x.Spent w.domains.table r) w w' ∧
      ∀ u ∈ w'.domains.table.members x.base, left u) fun _ => True := by
  obtain ⟨domains, cells, journal⟩ := w
  apply yields_bind
  unfold Yields Ends
  simp only [narrow, run]
  unfold Variable.Leaves Domains.Confines Ends at hleft
  cases hr : x.restrict (.propagator me) r domains with
  | ok b domains' =>
      simp only [hr] at hleft
      obtain ⟨hn, -, hall⟩ := hleft
      have hspent := hn.touched_or.imp_right fun hsize => Variable.spent_of_restrict hr hsize
      exact ⟨⟨rfl, hn, hspent⟩, hall⟩
  | error e domains' =>
      cases e with
      | empty => exact fun _ _ => trivial
      | fault f => exact fun _ _ => trivial

section Forced

variable (hwf : w.domains.table.WellFormed)
include hwf

theorem yields_forceOut_tries {l : List Int} :
    Yields me (forceOut x l) w (fun _ w' => Tried x me True w w') fun _ => True := by
  induction l generalizing w with
  | nil => exact yields_pure ⟨rfl, .refl, Or.inr ⟨rfl, trivial⟩⟩
  | cons v rest ih =>
      refine (yields_force_tries (Variable.leaves_true hwf _)).bind fun _ w₁ hw₁ => ?_
      exact (ih (hw₁.1.narrows.wellFormed hwf)).imp fun _ _ hw₂ =>
        (hw₁.1.trans hw₂).imp fun _ => trivial

theorem yields_forceInward_tries :
    Yields me (forceInward x goes) w (fun bounds w' =>
      Tried x me (x.Hulled w.domains.table goes bounds.1 bounds.2) w w') fun _ => True := by
  refine yields_bind (yields_onDomains fun bounds hbounds => ?_)
  obtain ⟨lo, hi⟩ := bounds
  refine (yields_force_tries (Variable.leaves_true hwf _)).bind fun _ w₁ hw₁ => ?_
  have hwf₁ := hw₁.1.narrows.wellFormed hwf
  refine (yields_force_tries (Variable.leaves_true hwf₁ _)).bind fun _ w₂ hw₂ => ?_
  refine yields_pure ((hw₁.1.trans hw₂.1).imp fun ⟨hatLeast, hatMost, hsame⟩ => ?_)
  exact ⟨fun s hs => (Variable.hull_of_get? hs).trans hbounds, hatLeast, hsame ▸ hatMost⟩

end Forced

/-! ### Walks -/

theorem Excluded.of_get? (h : p.Excluded t x) (hsame : t'.get? x.base = t.get? x.base) :
    p.Excluded t' x := by
  obtain ⟨hkind, lo, hi, hhulled, hbounds⟩ := h
  refine ⟨?_, lo, hi, hhulled.of_get? hsame, hbounds⟩
  rw [Table.enumerated, hsame]
  exact hkind

theorem Included.of_get? (h : p.Included t x) (hsame : t'.get? x.base = t.get? x.base) :
    p.Included t' x := by
  obtain ⟨hkind, hsmallest, hlargest, lo, hi, hhulled⟩ := h
  refine ⟨?_, fun v hv => (hsmallest v hv).of_get? hsame, fun v hv => (hlargest v hv).of_get? hsame,
    lo, hi, hhulled.of_get? hsame⟩
  rw [Table.enumerated, hsame]
  exact hkind

/-- The listed places were treated on the way from `w` to `w'`: those that may count still are as in
`left`, or have a change to be reported. -/
structure Treated (p : AmongPropagator) (me : PropagatorId)
    (left : Table DomainId Domain → Variable → Prop) (places : List Nat) (w w' : Workspace Remark) :
    Prop where
  progress : Workspace.Progress (.propagator me) w w'
  may_subset : p.may w' ⊆ p.may w
  treated : ∀ i ∈ places, i ∈ p.may w' → i < p.scope.length ∧
    (w'.domains.Touched (p.place i).base ∨ left w'.domains.table (p.place i))

theorem Treated.refl {left : Table DomainId Domain → Variable → Prop} (hwf : w.WellFormed) :
    Treated p me left [] w w :=
  ⟨.refl hwf, Finset.Subset.refl _, fun _ hi => nomatch hi⟩

/-- The treatment of one place, and that of the rest. -/
theorem Treated.cons {left : Table DomainId Domain → Variable → Prop}
    (hleft : ∀ {t t' : Table DomainId Domain} {x : Variable}, left t x →
      t'.get? x.base = t.get? x.base → left t' x) (hfirst : Treated p me left [i] w w')
    (hrest : Treated p me left places w' w'') : Treated p me left (i :: places) w w'' := by
  refine ⟨hfirst.progress.trans hrest.progress, hrest.may_subset.trans hfirst.may_subset,
    List.forall_mem_cons.2 ⟨fun hi => ?_, hrest.treated⟩⟩
  obtain ⟨hlt, ht | hdone⟩ := hfirst.treated i List.mem_cons_self (hrest.may_subset hi)
  · exact ⟨hlt, Or.inl (hrest.progress.narrows.touched ht)⟩
  · by_cases hsame : w''.domains.table.get? (p.place i).base = w'.domains.table.get? (p.place i).base
    · exact ⟨hlt, Or.inr (hleft hdone hsame)⟩
    · exact ⟨hlt, Or.inl (hrest.progress.narrows.touched_of_ne hsame)⟩

/-- A place that leaves the set need not be as in `left`. -/
theorem Treated.erased {left : Table DomainId Domain → Variable → Prop}
    (hnarrows : Domains.Narrows (fun _ => True) (.propagator me) w.domains w'.domains)
    (hevolves : Cells.Evolves w.cells w'.cells) (hmay : p.may w' = (p.may w).erase i) :
    Treated p me left [i] w w' := by
  refine ⟨⟨hnarrows, hevolves⟩, hmay.le.trans (Finset.erase_subset _ _), fun j hj hmem => ?_⟩
  obtain rfl := List.mem_singleton.1 hj
  exact absurd (hmay ▸ hmem) (Finset.notMem_erase j _)

theorem Treated.kept {left : Table DomainId Domain → Variable → Prop} (hwf : w.WellFormed)
    (hi : i < p.scope.length) (h : Tried (p.place i) me Q w w')
    (hleft : Q → left w.domains.table (p.place i)) : Treated p me left [i] w w' := by
  refine ⟨h.progress hwf, h.may_eq.le, fun j hj _ => ?_⟩
  obtain rfl := List.mem_singleton.1 hj
  exact ⟨hi, h.effect.imp_right fun ⟨hsame, hQ⟩ => hsame ▸ hleft hQ⟩

theorem yields_excludeEach_treats (hwf : w.WellFormed) (hsmallest : p.tracked.head? = some smallest)
    (hlargest : p.tracked.getLast? = some largest) :
    Yields me (p.excludeEach smallest largest places) w
      (fun _ w' => Treated p me p.Excluded places w w' ∧ p.surely w' = p.surely w)
      fun _ => True := by
  induction places generalizing w with
  | nil => exact yields_pure ⟨.refl hwf, rfl⟩
  | cons i rest ih =>
      have hrest : ∀ w₁, Treated p me p.Excluded [i] w w₁ → p.surely w₁ = p.surely w →
          Yields me (p.excludeEach smallest largest rest) w₁
            (fun _ w' => Treated p me p.Excluded (i :: rest) w w' ∧ p.surely w' = p.surely w)
            fun _ => True := fun w₁ hfirst hsurely =>
        (ih (hfirst.progress.wellFormed hwf)).imp fun _ w₂ hw₂ =>
          ⟨.cons Excluded.of_get? hfirst hw₂.1, hw₂.2.trans hsurely⟩
      have herased : ∀ (w₁ : Workspace Remark) Q, Tried (p.place i) me Q w w₁ →
          Yields me (write (.erase p.possible i)) w₁ (fun _ w₂ =>
            Yields me (p.excludeEach smallest largest rest) w₂
              (fun _ w' => Treated p me p.Excluded (i :: rest) w w' ∧ p.surely w' = p.surely w)
              fun _ => True) fun _ => True := by
        intro w₁ Q htried
        have hcells : w₁.cells.WellFormed := htried.cells_eq ▸ hwf.cells
        refine yields_write_erase hcells fun cells hevolves hmay hsurely => hrest _ ?_ ?_
        · exact .erased (htried.narrows.mono fun _ _ => trivial) (htried.cells_eq ▸ hevolves)
            (hmay.trans (by rw [htried.may_eq]))
        · exact hsurely.trans htried.surely_eq
      refine yields_excludeEach_cons (fun hlt _ => ?_) fun hlt he => ?_
      · refine Yields.imp (yields_forceOut_tries ?_) fun _ w₁ hw₁ => ?_
        · exact hwf.table
        · exact herased w₁ _ ⟨hw₁.cells_eq, hw₁.narrows, hw₁.effect⟩
      · refine Yields.imp (yields_forceInward_tries ?_) fun bounds w₁ hw₁ => ?_
        · exact hwf.table
        have htried : Tried (p.place i) me _ w w₁ := ⟨hw₁.cells_eq, hw₁.narrows, hw₁.effect⟩
        refine ⟨fun _ => herased w₁ _ htried, fun hin => ?_⟩
        refine hrest w₁ (.kept hwf hlt htried fun hhulled => ?_) htried.surely_eq
        obtain ⟨hle, hge⟩ := not_or.1 hin
        exact ⟨he, bounds.1, bounds.2, hhulled, ⟨largest, List.mem_of_getLast? hlargest, not_lt.1 hle⟩,
          smallest, List.mem_of_head? hsmallest, not_lt.1 hge⟩

theorem yields_includeEach_treats (hwf : w.WellFormed) (hsmallest : p.tracked.head? = some smallest)
    (hlargest : p.tracked.getLast? = some largest) (hnodup : places.Nodup)
    (hplaces : ∀ i ∈ places, i ∈ p.may w) :
    Yields me (p.includeEach smallest largest places) w
      (fun _ w' => Treated p me p.Included places w w' ∧
        p.surely w' + (p.may w').card = p.surely w + (p.may w).card) fun _ => True := by
  induction places generalizing w with
  | nil => exact yields_pure ⟨.refl hwf, rfl⟩
  | cons i rest ih =>
      obtain ⟨hnotin, hnodup⟩ := List.nodup_cons.1 hnodup
      have hi := hplaces i List.mem_cons_self
      have hrest : ∀ w₁, Treated p me p.Included [i] w w₁ →
          (p.may w₁ = p.may w ∧ p.surely w₁ = p.surely w ∨
            p.may w₁ = (p.may w).erase i ∧ p.surely w₁ = p.surely w + 1) →
          Yields me (p.includeEach smallest largest rest) w₁
            (fun _ w' => Treated p me p.Included (i :: rest) w w' ∧
              p.surely w' + (p.may w').card = p.surely w + (p.may w).card) fun _ => True := by
        intro w₁ hfirst hcells
        have hsum : p.surely w₁ + (p.may w₁).card = p.surely w + (p.may w).card := by
          rcases hcells with ⟨hmay, hsurely⟩ | ⟨hmay, hsurely⟩
          · rw [hmay, hsurely]
          · have := Finset.card_erase_add_one hi
            rw [hmay, hsurely]
            omega
        refine (ih (hfirst.progress.wellFormed hwf) hnodup fun j hj => ?_).imp fun _ w₂ hw₂ =>
          ⟨.cons Included.of_get? hfirst hw₂.1, hw₂.2.trans hsum⟩
        have hj' := hplaces j (List.mem_cons_of_mem _ hj)
        rcases hcells with ⟨hmay, -⟩ | ⟨hmay, -⟩
        · rwa [hmay]
        · rw [hmay]
          exact Finset.mem_erase.2 ⟨fun he => hnotin (he ▸ hj), hj'⟩
      have hsettled : ∀ (w₁ : Workspace Remark) Q, Tried (p.place i) me Q w w₁ →
          Yields me (p.settlePlace i) w₁ (fun _ w₂ =>
            Yields me (p.includeEach smallest largest rest) w₂
              (fun _ w' => Treated p me p.Included (i :: rest) w w' ∧
                p.surely w' + (p.may w').card = p.surely w + (p.may w).card) fun _ => True)
            fun _ => True := by
        intro w₁ Q htried
        have hcells : w₁.cells.WellFormed := htried.cells_eq ▸ hwf.cells
        refine yields_settlePlace_of hcells fun cells hevolves hmay hsurely => hrest _ ?_ ?_
        · exact .erased (htried.narrows.mono fun _ _ => trivial) (htried.cells_eq ▸ hevolves)
            (hmay.trans (by rw [htried.may_eq]))
        · exact Or.inr ⟨hmay.trans (by rw [htried.may_eq]), hsurely.trans (by rw [htried.surely_eq])⟩
      refine yields_includeEach_cons (fun hlt _ _ _ => ?_) fun hlt he => ?_
      · refine Yields.imp (yields_forceOut_tries ?_) fun _ w₁ hw₁ => ?_
        · exact hwf.table
        · exact hsettled w₁ _ ⟨hw₁.cells_eq, hw₁.narrows, hw₁.effect⟩
      · refine Yields.imp (yields_force_tries (Variable.leaves_true ?_ _)) fun _ w₁ hw₁ => ?_
        · exact hwf.table
        have hwf₁ := hw₁.1.narrows.wellFormed hwf.table
        refine Yields.imp (yields_force_tries (Variable.leaves_true hwf₁ _)) fun _ w₂ hw₂ => ?_
        have hwf₂ := hw₂.1.narrows.wellFormed hwf₁
        refine Yields.imp (yields_forceInward_tries hwf₂) fun bounds w₃ hw₃ => ?_
        have htried := (hw₁.1.trans hw₂.1).trans hw₃
        have htried : Tried (p.place i) me _ w w₃ := ⟨htried.cells_eq, htried.narrows, htried.effect⟩
        refine ⟨fun _ => hsettled w₃ _ htried, ?_⟩
        refine hrest w₃ (.kept hwf hlt htried ?_) (Or.inl ⟨htried.may_eq, htried.surely_eq⟩)
        rintro ⟨⟨hatLeast, hatMost, hsame₁⟩, hhulled, hsame₂⟩
        have hatLeast : (p.place i).Spent w.domains.table (.atLeast smallest) := hatLeast
        refine ⟨he, fun v hv => ?_, fun v hv => ?_, bounds.1, bounds.2, hsame₂ ▸ hhulled⟩
        · obtain rfl := Option.some.inj (hsmallest.symm.trans hv)
          exact hatLeast
        · obtain rfl := Option.some.inj (hlargest.symm.trans hv)
          exact hsame₁ ▸ hatMost

/-! ### The filtering -/

/-- Changes are to be reported that call for a further pass: of the scope, or of a view as counter. -/
def Disturbed (p : AmongPropagator) (w : Workspace Remark) : Prop :=
  (∃ i < p.scope.length, w.domains.Touched (p.place i).base) ∨
    (p.counter ≠ .domain p.counter.base ∧ w.domains.Touched p.counter.base)

/-- A counter of which no change calls for a further pass is a domain, or it is as it was. -/
theorem counter_of_not_disturbed (h : ¬ p.Disturbed w')
    (hn : Domains.Narrows (fun _ => True) (.propagator me) w.domains w'.domains) :
    p.counter = .domain p.counter.base ∨
      w'.domains.table.get? p.counter.base = w.domains.table.get? p.counter.base := by
  by_cases hplain : p.counter = .domain p.counter.base
  · exact Or.inl hplain
  · refine Or.inr ?_
    by_contra hne
    exact h (Or.inr ⟨hplain, hn.touched_of_ne hne⟩)

section Counter

variable {B : DomainId → Prop} {n m lo hi : Int} (hwf : s.table.WellFormed)
  (hg : p.Grounded s.table) (hlo : p.counter.lower s = .ok lo) (hhi : p.counter.upper s = .ok hi)
  (hn : Domains.Narrows B cause s s') (hkept : p.counter = .domain p.counter.base ∨
    s'.table.get? p.counter.base = s.table.get? p.counter.base)
include hwf hg hlo hhi hn hkept

/-- The bounds of a counter are told as they were, of a domain even if it was narrowed. -/
theorem exists_bounds_of_kept :
    ∃ a b, p.counter.lower s' = .ok a ∧ p.counter.upper s' = .ok b := by
  rcases hkept with hplain | hsame
  · obtain ⟨d, hd⟩ := s'.table.exists_get? (hg.counter_lt.trans_eq hn.size_eq.symm)
    have hresponds := Domains.responds_answer hd (hn.wellFormed hwf _ d hd)
    obtain ⟨a, ha⟩ := hresponds.lower
    obtain ⟨b, hb⟩ := hresponds.upper
    rw [hplain]
    exact ⟨a, b, ha, hb⟩
  · have hconcur := Variable.concur_of_get? hsame
    exact ⟨lo, hi, hconcur.lower.trans hlo, hconcur.upper.trans hhi⟩

/-- A counter within its bounds is not to be restricted any more. -/
theorem spent_counter (hall : ∀ u ∈ p.counter.current s'.table, n ≤ u ∧ u ≤ m) :
    p.counter.Spent s'.table (.atLeast n) ∧ p.counter.Spent s'.table (.atMost m) := by
  obtain ⟨a, b, ha, hb⟩ := exists_bounds_of_kept hwf hg hlo hhi hn hkept
  exact ⟨Variable.spent_atLeast (hn.wellFormed hwf) ha fun u hu => (hall u hu).1,
    Variable.spent_atMost (hn.wellFormed hwf) ha hb fun u hu => (hall u hu).2⟩

end Counter

/-- The restrictions of the counter to the bounds of the count leave it spent, unless there are
changes that call for a further pass. -/
theorem spent_of_bounded {n m lo hi : Int} (hwf : w.WellFormed) (hg : p.Grounded w.domains.table)
    (hlo : p.counter.lower w.domains = .ok lo) (hhi : p.counter.upper w.domains = .ok hi)
    (h : Tried p.counter me (p.counter.Spent w.domains.table (.atLeast n)) w w')
    (h' : Tried p.counter me (p.counter.Spent w'.domains.table (.atMost m)) w' w'')
    (hbounds : p.counter = .domain p.counter.base →
      ∀ u ∈ p.counter.current w''.domains.table, n ≤ u ∧ u ≤ m) (hcalm : ¬ p.Disturbed w'') :
    p.counter.Spent w''.domains.table (.atLeast n) ∧
      p.counter.Spent w''.domains.table (.atMost m) := by
  have htried := h.trans h'
  by_cases hplain : p.counter = .domain p.counter.base
  · have hn := (htried.progress hwf).narrows
    exact spent_counter hwf.table hg hlo hhi hn (Or.inl hplain) (hbounds hplain)
  · obtain ⟨hsame, hatLeast, hatMost, hsame₁⟩ := htried.effect.resolve_left fun ht =>
      hcalm (Or.inr ⟨hplain, ht⟩)
    rw [hsame]
    exact ⟨hatLeast, hsame₁ ▸ hatMost⟩

/-- Where the counter decides about no place, only its own bounds matter. -/
theorem Spent.of_indecisive (hatLeast : p.counter.Spent w.domains.table (.atLeast (p.surely w)))
    (hatMost : p.counter.Spent w.domains.table (.atMost (p.surely w + (p.may w).card)))
    (h : p.Indecisive w) : p.Spent w.domains.table (p.may w) (p.surely w) := by
  refine ⟨hatLeast, hatMost, fun hb ht hc i hi => ?_, fun hb ht hc i hi => ?_⟩
  · exact absurd hc (h.resolve_left (Finset.ne_empty_of_mem hi) hb ht).1
  · exact absurd hc (h.resolve_left (Finset.ne_empty_of_mem hi) hb ht).2

section Walked

variable {m : Int} {left : Table DomainId Domain → Variable → Prop} (hwf : w.WellFormed)
  (hg : p.Grounded w.domains.table) (hd : p.Decision m smallest largest places w)
  (hcalm : ¬ p.Disturbed w')

include hd hcalm in
/-- After a walk over all places that may count, those that still do are as it leaves them. -/
theorem Treated.remains (h : Treated p me left places w w') (hi : i ∈ p.may w') :
    i < p.scope.length ∧ left w'.domains.table (p.place i) := by
  obtain ⟨hlt, hor⟩ := h.treated i ((hd.mem_iff i).2 (h.may_subset hi)) hi
  exact ⟨hlt, hor.resolve_left fun ht => hcalm (Or.inl ⟨i, hlt, ht⟩)⟩

include hwf hg hd hcalm

/-- A walk leaves the counter fixed, and in the bounds of the count if it was. -/
theorem Treated.counter (h : Treated p me left places w w') (hle : p.surely w' ≤ m)
    (hge : m ≤ p.surely w' + (p.may w').card) :
    (∀ n, p.CounterIs w'.domains.table n → m = n) ∧
      p.counter.Spent w'.domains.table (.atLeast (p.surely w')) ∧
      p.counter.Spent w'.domains.table (.atMost (p.surely w' + (p.may w').card)) := by
  have hn := h.progress.narrows
  have hcounter := hd.counter.below (hn.table_below hwf.table)
  obtain ⟨lo, hlo, hrest⟩ := Checked.bind_eq_ok hd.fixed
  obtain ⟨hi, hhi, -⟩ := Checked.bind_eq_ok hrest
  refine ⟨fun n => Among.CounterIs.unique (h.progress.wellFormed hwf).table (hg.narrower hn) hcounter,
    spent_counter hwf.table hg hlo hhi hn (counter_of_not_disturbed hcalm hn) fun u hu => ?_⟩
  rw [hcounter u hu]
  exact ⟨hle, hge⟩

end Walked

theorem Treated.spent_of_excluded (hwf : w.WellFormed) (hg : p.Grounded w.domains.table)
    (h : Treated p me p.Excluded places w w')
    (hd : p.Decision (p.surely w) smallest largest places w) (hcalm : ¬ p.Disturbed w')
    (hsurely : p.surely w' = p.surely w) :
    p.Spent w'.domains.table (p.may w') (p.surely w') := by
  obtain ⟨hunique, hatLeast, hatMost⟩ := h.counter hwf hg hd hcalm hsurely.le (by omega)
  refine ⟨hatLeast, hatMost, fun _ _ _ i => h.remains hd hcalm, fun _ _ hc i hi => ?_⟩
  have hcard := Finset.card_pos.2 ⟨i, hi⟩
  have hsame := hunique _ hc
  omega

theorem Treated.spent_of_included (hwf : w.WellFormed) (hg : p.Grounded w.domains.table)
    (h : Treated p me p.Included places w w')
    (hd : p.Decision (p.surely w + (p.may w).card) smallest largest places w)
    (hcalm : ¬ p.Disturbed w')
    (hsum : p.surely w' + (p.may w').card = p.surely w + (p.may w).card) :
    p.Spent w'.domains.table (p.may w') (p.surely w') := by
  obtain ⟨hunique, hatLeast, hatMost⟩ := h.counter hwf hg hd hcalm (by omega) hsum.ge
  refine ⟨hatLeast, hatMost, fun _ _ hc i hi => ?_, fun _ _ _ i => h.remains hd hcalm⟩
  have hcard := Finset.card_pos.2 ⟨i, hi⟩
  have hsame := hunique _ hc
  omega

/-- A filtering leaves the propagator spent, unless there are changes that call for a further pass. -/
theorem yields_filter_spends (hready : Ready p False w)
    (hcounts : p.Counts (p.may w) (p.surely w)) :
    Yields me (p.filter me) w (fun _ w' => p.Disturbed w' ∨
      p.Spent w'.domains.table (p.may w') (p.surely w')) fun _ => True := by
  have hwf := hready.wellFormed
  have hg := hready.grounded
  refine yields_filter_of hwf hready.sorted hcounts hready.countable (fun _ => trivial)
    fun lo hi hlo hhi _ => ?_
  refine Yields.imp (yields_force_tries (leaves_atLeast_of_faithful hwf.table p.counter _))
    fun _ w₁ hw₁ => ?_
  obtain ⟨htried₁, hleft₁⟩ := hw₁
  have hwf₁ := htried₁.narrows.wellFormed hwf.table
  refine Yields.imp (yields_force_tries (Variable.leaves_atMost hwf₁ p.counter _))
    fun _ w₂ hw₂ => ?_
  obtain ⟨htried₂, hleft₂⟩ := hw₂
  have htried := htried₁.trans htried₂
  have hprogress := htried.progress hwf
  have hwf₂ := hprogress.wellFormed hwf
  have hg₂ := hg.narrower hprogress.narrows
  have hmay : p.may w₂ = p.may w := htried.may_eq
  have hsurely : p.surely w₂ = p.surely w := htried.surely_eq
  have hbounds : p.counter = .domain p.counter.base → ∀ u ∈ p.counter.current w₂.domains.table,
      p.surely w ≤ u ∧ u ≤ p.surely w + (p.may w).card := by
    intro hplain v hv
    obtain ⟨u, hu, rfl⟩ := Variable.mem_current.1 hv
    exact ⟨hleft₁ u (htried₂.narrows.members_subset hwf₁ _ hu) (Or.inl hplain), hleft₂ u hu⟩
  refine ⟨hwf₂, hmay, hsurely, fun hidle => or_iff_not_imp_left.2 fun hcalm => ?_,
    fun smallest largest places hd => ?_, fun smallest largest places hd => ?_⟩
  · obtain ⟨hatLeast, hatMost⟩ := spent_of_bounded hwf hg hlo hhi htried₁ htried₂ hbounds hcalm
    rw [← hsurely] at hatLeast
    rw [← hsurely, ← hmay] at hatMost
    exact .of_indecisive hatLeast hatMost hidle
  · refine (yields_excludeEach_treats hwf₂ hd.head_eq hd.last_eq).imp fun _ w₃ hw₃ =>
      or_iff_not_imp_left.2 fun hcalm => ?_
    exact hw₃.1.spent_of_excluded hwf₂ hg₂ hd hcalm hw₃.2
  · refine (yields_includeEach_treats hwf₂ hd.head_eq hd.last_eq hd.nodup
      fun i => (hd.mem_iff i).1).imp fun _ w₃ hw₃ => or_iff_not_imp_left.2 fun hcalm => ?_
    exact hw₃.1.spent_of_included hwf₂ hg₂ hd hcalm hw₃.2

/-- A pass leaves the propagator spent, unless there are changes that call for a further pass. -/
theorem yields_pass_spends {passes : Passes} (hready : Ready p False w)
    (hcounts : passes.full = true ∨ p.Counts (p.may w) (p.surely w)) :
    Yields me (p.pass me passes) w (fun _ w' => p.Disturbed w' ∨
      p.Spent w'.domains.table (p.may w') (p.surely w')) fun _ => True := by
  unfold pass
  split
  · have hrecounts : Yields me p.initialise w (fun _ w' => Recounted p w w') fun _ => True :=
      yields_initialise_recounts hready.wellFormed hready.sorted
    refine hrecounts.bind fun _ w₁ hw₁ => yields_filter_spends ?_ hw₁.tracks.counts
    have hprogress : Workspace.Progress (.propagator me) w w₁ :=
      ⟨hw₁.domains_eq ▸ .refl, hw₁.evolves⟩
    exact ⟨hprogress.wellFormed hready.wellFormed, hw₁.domains_eq ▸ hready.grounded, hready.sorted,
      hready.countable, fun hf => hf.elim⟩
  · next hnot => exact yields_filter_spends hready (hcounts.resolve_left hnot)

end AmongPropagator

end Narrowing
