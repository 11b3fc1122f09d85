import Narrowing.Among.Propagator
import Narrowing.Proofs.Among.Accounts
import Narrowing.Proofs.Propagator.Action
import Narrowing.Proofs.Variable.Hull
import Narrowing.Proofs.Variable.Interval

/-!
The steps of the Among propagator. Every step upholds what the propagator knows: it takes no value
that occurs in a solution, and the cells account for the solutions after it as they did before. That
the cells also track the domains is upheld on the side, as far as `exact` says that it held and that
no interval in the scope keeps a gap.
-/

namespace Narrowing

namespace Domains

/-- A change of the domain is waiting to be reported. -/
def Touched (s : Domains) (id : DomainId) : Prop := ∃ o ∈ s.unreported.toList, o.domain = id

variable {B : DomainId → Prop} {cause : Cause} {s s' : Domains} {id : DomainId}

theorem Narrows.touched (h : Narrows B cause s s') (ht : s.Touched id) : s'.Touched id := by
  obtain ⟨o, ho, hid⟩ := ht
  exact ⟨o, h.mem_unreported ho, hid⟩

/-- A domain that is not as it was has a change to be reported. -/
theorem Narrows.touched_of_ne (h : Narrows B cause s s')
    (hne : s'.table.get? id ≠ s.table.get? id) : s'.Touched id := by
  obtain ⟨o, ho, hid, -⟩ := (h.get?_eq_or id).resolve_left hne
  exact ⟨o, ho, hid⟩

end Domains

/-- No lower bound that is needed to take exactly the tracked values from zero on out of a variable
of the scope is without effect. -/
def Among.Unblocked (c : Among) (t : Table DomainId Domain) : Prop :=
  ∀ x ∈ c.scope, ∀ d, t.get? x.base = some d → ∀ k, 0 ≤ k → x.KeepsGap d k →
    ¬ ∀ v, 0 ≤ v → (v ∈ c.tracked ↔ v ≤ k)

theorem Among.not_keepsGap_of_faithful {t : Table DomainId Domain} {x : Variable} {d : Domain}
    {k : Int} (h : Among.Faithful t x) (hd : t.get? x.base = some d) : ¬ x.KeepsGap d k := by
  intro hgap
  rcases h with hplain | hkind
  · rw [hplain] at hgap
    exact hgap
  · rw [Table.enumerated_of_get? hd] at hkind
    rw [hgap.enumerated_eq] at hkind
    cases hkind

section Unblocked

variable {c : Among} {B : DomainId → Prop} {cause : Cause} {s s' : Domains}
  {t t' : Table DomainId Domain}

theorem Among.Unblocked.narrower (h : c.Unblocked s.table) (hn : Domains.Narrows B cause s s')
    (hwf : s.table.WellFormed) : c.Unblocked s'.table := by
  intro y hy d' hd' k hk hgap
  obtain ⟨d, hd⟩ := hn.exists_of_get? hd'
  obtain ⟨d'', hd'', hwf', hkind, hsub⟩ := hn.get?_eq_some hwf hd
  obtain rfl := Option.some.inj (hd'.symm.trans hd'')
  exact h y hy d hd k hk (hgap.of_subset hwf' hkind hsub)

theorem Among.Unblocked.further (h : c.Unblocked t) (hg : c.Grounded t)
    (hext : ∀ id : DomainId, id.index < t.size → t'.get? id = t.get? id) : c.Unblocked t' := by
  intro y hy d hd
  obtain ⟨i, hi, rfl⟩ := List.getElem_of_mem hy
  rw [← place_eq_getElem hi] at hd ⊢
  rw [hext _ (hg.place_lt i hi)] at hd
  exact h _ (place_mem hi) d hd

end Unblocked

namespace AmongPropagator

open Narrowing.Action

variable (p : AmongPropagator) (me : PropagatorId) (exact : Prop) (A : Nat → Prop)

/-- The places that may count, as the cells have them. -/
def may (w : Workspace Remark) : Finset Nat := w.cells.contents.places p.possible

/-- The number of places that are sure to count, as the cells have it. -/
def surely (w : Workspace Remark) : Int := w.cells.contents.value p.sure

/-- The places that are yet to be looked at: those in `A`, and those with a change to be reported.
-/
def awaits (w : Workspace Remark) (i : Nat) : Prop :=
  A i ∨ w.domains.Touched (p.place i).base

/-- What the propagator can rely on when it is called. -/
structure Ready (w : Workspace Remark) : Prop where
  wellFormed : w.WellFormed
  grounded : p.Grounded w.domains.table
  sorted : p.tracked.Pairwise (· < ·)
  countable : p.Countable
  unblocked : exact → p.backPropagates = true → p.Unblocked w.domains.table

/-- The cells account for the solutions, count no place twice and, if `exact`, track the domains. -/
structure Knows (w : Workspace Remark) : Prop where
  accounts : p.Accounts w.domains.table (p.may w) (p.surely w)
  counts : p.Counts (p.may w) (p.surely w)
  tracks : exact → p.Tracks w.domains.table (p.may w) (p.surely w) (p.awaits A w)

/-- On the way from `w₀` to `w` no solution was lost and no foreign cell was touched. -/
structure Sound (w₀ w : Workspace Remark) : Prop where
  progress : Workspace.Progress (.propagator me) w₀ w
  value_eq : ∀ c ≠ p.sure, w.cells.contents.value c = w₀.cells.contents.value c
  places_eq : ∀ k ≠ p.possible, w.cells.contents.places k = w₀.cells.contents.places k
  kept : ∀ σ, w₀.domains.table.Admits σ → p.Satisfied σ → w.domains.table.Admits σ

/-- The work that began in `w₀` has come to `w`, and the propagator knows what it has to. -/
structure Upheld (w₀ w : Workspace Remark) : Prop extends Sound p me w₀ w, Knows p exact A w

/-- The work that began in `w₀` came to a contradiction, and `w₀` had no solution. -/
structure Refuted (w₀ w : Workspace Remark) : Prop where
  progress : Workspace.Progress (.propagator me) w₀ w
  none : ∀ σ, w₀.domains.table.Admits σ → ¬ p.Satisfied σ

variable {p me exact A} {w₀ w w' w'' : Workspace Remark} {x : Variable}

theorem may_congr (h : w'.cells = w.cells) : p.may w' = p.may w :=
  congrArg (fun s => s.contents.places p.possible) h

theorem surely_congr (h : w'.cells = w.cells) : p.surely w' = p.surely w :=
  congrArg (fun s => s.contents.value p.sure) h

theorem Sound.refl (h : w.WellFormed) : Sound p me w w :=
  ⟨.refl h, fun _ _ => rfl, fun _ _ => rfl, fun _ h _ => h⟩

/-- Steps on the domains alone. -/
structure Reduces (p : AmongPropagator) (me : PropagatorId) (exact : Prop) (A : Nat → Prop)
    (w₀ w w' : Workspace Remark) : Prop where
  upheld : Upheld p me exact A w₀ w'
  cells_eq : w'.cells = w.cells
  narrows : Domains.Narrows (fun _ => True) (.propagator me) w.domains w'.domains

theorem Reduces.refl (h : Upheld p me exact A w₀ w) : Reduces p me exact A w₀ w w :=
  ⟨h, rfl, .refl⟩

theorem Reduces.trans (h : Reduces p me exact A w₀ w w') (h' : Reduces p me exact A w₀ w' w'') :
    Reduces p me exact A w₀ w w'' :=
  ⟨h'.upheld, h'.cells_eq.trans h.cells_eq, h.narrows.trans h'.narrows⟩

/-- Notes do not matter. -/
theorem Upheld.remark (h : Upheld p me exact A w₀ w) (content : Remark) :
    Upheld p me exact A w₀ (w.noted content) :=
  ⟨⟨⟨h.progress.narrows, h.progress.evolves⟩, h.value_eq, h.places_eq, h.kept⟩,
    h.accounts, h.counts, h.tracks⟩

/-! ### Restrictions -/

section Restrictions

variable (hwf : w.domains.table.WellFormed)
include hwf

/-- A restriction keeps what it permits; where it is refused, that was nothing. -/
theorem yields_force {r : Restriction} {left : Int → Prop} {post : Unit → Workspace Remark → Prop}
    {stop : Workspace Remark → Prop} (hleft : x.Leaves (.propagator me) left r w.domains)
    (hpost : ∀ domains, Domains.Narrows (· = x.base) (.propagator me) w.domains domains →
      (∀ u ∈ w.domains.table.members x.base, x.Permits r u → u ∈ domains.table.members x.base) →
      (∀ u ∈ domains.table.members x.base, left u) → post () { w with domains })
    (hstop : ∀ domains, Domains.Narrows (· = x.base) (.propagator me) w.domains domains →
      (∀ u ∈ w.domains.table.members x.base, ¬ x.Permits r u) → stop { w with domains }) :
    Yields me (force x r) w post stop := by
  have hconfined := (x.confined (.propagator me) r w.domains hwf).and hleft
  refine yields_bind (yields_narrow hconfined (fun b domains hn hstay hall => ?_) hstop)
  exact yields_pure (hpost domains hn hstay fun u hu => (hall u hu).2)

/-- If the bounds of a variable can be moved inwards, some value that need not go is left. -/
theorem yields_forceInward_leaves (hx : x.base.index < w.domains.table.size) (goes : Int → Bool) :
    Yields me (forceInward x goes) w (fun _ w' =>
      Domains.Narrows (· = x.base) (.propagator me) w.domains w'.domains ∧ w'.cells = w.cells ∧
        ∃ v ∈ x.current w'.domains.table, goes v = false) fun _ => True := by
  refine yields_bind (yields_onDomains fun bounds hbounds => ?_)
  obtain ⟨lo, hi⟩ := bounds
  obtain ⟨hcut, hfirst, -⟩ := Variable.hull_eq_ok hwf hbounds
  refine yields_bind (yields_force (r := .atLeast lo) hwf (Variable.leaves_atLeast_unless hwf hx lo)
    (fun domains₁ hn₁ hstay₁ hleft₁ => ?_) fun _ _ _ => trivial)
  have hwf₁ := hn₁.wellFormed hwf
  refine yields_bind (yields_force (w := { w with domains := domains₁ }) (r := .atMost hi) hwf₁
    (Variable.leaves_atMost hwf₁ x hi) (fun domains₂ hn₂ hstay₂ _ => ?_) fun _ _ _ => trivial)
  refine yields_pure ⟨hn₁.trans hn₂, rfl, ?_⟩
  obtain ⟨v, hv⟩ := Among.current_nonempty hwf₁ (hx.trans_eq hn₁.size_eq.symm)
  obtain ⟨u₁, hu₁, -⟩ := Variable.mem_current.1 hv
  have hsome : ∃ u ∈ w.domains.table.members x.base, lo ≤ x.image u := by
    have hnot := (hleft₁ u₁ hu₁).1
    push Not at hnot
    exact hnot
  obtain ⟨u, hu, hle⟩ := hsome
  obtain ⟨v, hv, -, hstays⟩ := hfirst _ (Variable.image_mem_current hu) hle
  have hin : lo ≤ v ∧ v ≤ hi := by
    by_contra hout
    exact nomatch hstays.symm.trans (hcut v hv (by omega))
  obtain ⟨u, hu, rfl⟩ := Variable.mem_current.1 hv
  exact ⟨_, Variable.image_mem_current (hstay₂ u (hstay₁ u hu hin.1) hin.2), hstays⟩

end Restrictions

section Steps

variable (hready : Ready p exact w₀)
include hready

theorem Sound.ready (h : Sound p me w₀ w) : Ready p exact w where
  wellFormed := h.progress.wellFormed hready.wellFormed
  grounded := hready.grounded.narrower h.progress.narrows
  sorted := hready.sorted
  countable := hready.countable
  unblocked he hb := (hready.unblocked he hb).narrower h.progress.narrows hready.wellFormed.table

/-- Narrower domains do not change what the cells account for. -/
theorem Upheld.reduces (h : Upheld p me exact A w₀ w) {domains' : Domains}
    (hn : Domains.Narrows (fun _ => True) (.propagator me) w.domains domains')
    (hkept : ∀ σ, w.domains.table.Admits σ → p.Satisfied σ → domains'.table.Admits σ) :
    Reduces p me exact A w₀ w { w with domains := domains' } := by
  have hr := h.toSound.ready hready
  have hwf := hr.wellFormed.table
  refine ⟨⟨⟨⟨h.progress.narrows.trans hn, h.progress.evolves⟩, h.value_eq, h.places_eq,
    fun σ hσ hsat => hkept σ (h.kept σ hσ hsat) hsat⟩, h.accounts.narrower hn hwf, h.counts,
    fun he => ?_⟩, rfl, hn⟩
  refine (h.tracks he).narrower hn hwf hr.grounded fun i _ hor => ?_
  rcases hor with (hi | hi) | hi
  · exact Or.inl hi
  · exact Or.inr (hn.touched hi)
  · exact Or.inr (hn.touched_of_ne hi)

/-- A restriction that every solution obeys. -/
theorem yields_narrow_of (h : Upheld p me exact A w₀ w) {r : Restriction} {left : Int → Prop}
    (hx : x.base.index < w.domains.table.size)
    (hobeys : ∀ σ, w.domains.table.Admits σ → p.Satisfied σ → r.Allows (x.eval σ))
    (hleft : x.Leaves (.propagator me) left r w.domains) :
    Yields me (force x r) w
      (fun _ w' => Reduces p me exact A w₀ w w' ∧
        (∀ u ∈ w.domains.table.members x.base, x.Permits r u →
          u ∈ w'.domains.table.members x.base) ∧
        ∀ u ∈ w'.domains.table.members x.base, left u) (Refuted p me w₀) := by
  have hr := h.toSound.ready hready
  have hwf := hr.wellFormed.table
  refine yields_force hwf hleft (fun domains hn hstay hall => ?_) fun domains hn hnone => ?_
  · refine ⟨h.reduces hready (hn.mono fun _ _ => trivial) fun σ hσ hsat id d hd => ?_, hstay, hall⟩
    obtain ⟨d₀, hd₀⟩ := hn.exists_of_get? hd
    rw [← Table.members_of_get? hd]
    by_cases hid : id = x.base
    · subst hid
      refine hstay _ (hσ.mem hx) ?_
      rw [Variable.Permits, ← Variable.eval_eq_image]
      exact hobeys σ hσ hsat
    · rw [Table.members, hn.get?_eq_of_not hid]
      exact hσ.mem (Table.lt_size_of_get? hd₀)
  · refine ⟨⟨h.progress.narrows.trans (hn.mono fun _ _ => trivial), h.progress.evolves⟩,
      fun σ hσ hsat => ?_⟩
    have hσ' := h.kept σ hσ hsat
    refine hnone _ (hσ'.mem hx) ?_
    rw [Variable.Permits, ← Variable.eval_eq_image]
    exact hobeys σ hσ' hsat

theorem yields_force_of (h : Upheld p me exact A w₀ w) {r : Restriction}
    (hx : x.base.index < w.domains.table.size)
    (hobeys : ∀ σ, w.domains.table.Admits σ → p.Satisfied σ → r.Allows (x.eval σ)) :
    Yields me (force x r) w (fun _ w' => Reduces p me exact A w₀ w w') (Refuted p me w₀) := by
  have hwf := (h.toSound.ready hready).wellFormed.table
  have hleaves : x.Leaves (.propagator me) (fun _ => True) r w.domains :=
    (x.confined (.propagator me) r w.domains hwf).mono hwf (fun _ _ hf => hf.elim)
      fun _ _ _ => trivial
  exact (yields_narrow_of hready h hx hobeys hleaves).imp fun _ _ hw' => hw'.1

/-! ### Cells -/

/-- A place that counts in no solution leaves the set. -/
theorem yields_erase (h : Upheld p me exact A w₀ w) {i : Nat} (hi : i < p.scope.length)
    (hout : ∀ σ, w.domains.table.Admits σ → p.Satisfied σ → (p.place i).eval σ ∉ p.tracked)
    (hnever : exact → p.Never w.domains.table (p.place i)) :
    Yields me (write (.erase p.possible i)) w
      (fun _ w' => Upheld p me exact A w₀ w' ∧ w'.domains = w.domains ∧
        p.may w' = (p.may w).erase i ∧ p.surely w' = p.surely w) (Refuted p me w₀) := by
  have hr := h.toSound.ready hready
  refine yields_bind (yields_set hr.wellFormed.cells fun b cells' hevolves hturns => ?_)
  obtain ⟨hvalue, hplaces⟩ := hturns
  have hmay : p.may { w with cells := cells' } = (p.may w).erase i := by
    rw [may, hplaces, Function.update_self]
    rfl
  have hsurely : p.surely { w with cells := cells' } = p.surely w := congrFun hvalue _
  refine yields_pure ⟨⟨⟨⟨h.progress.narrows, h.progress.evolves.trans hevolves⟩, fun c hc => ?_,
    fun k hk => ?_, h.kept⟩, ?_, ?_, fun he => ?_⟩, rfl, hmay, hsurely⟩
  · exact (congrFun hvalue c).trans (h.value_eq c hc)
  · rw [hplaces, Function.update_of_ne hk]
    exact h.places_eq k hk
  · rw [hmay, hsurely]
    exact h.accounts.erase hout
  · rw [hmay, hsurely]
    exact h.counts.erase i
  · rw [hmay, hsurely]
    have hnonempty := Among.current_nonempty hr.wellFormed.table (hr.grounded.place_lt i hi)
    exact (h.tracks he).erase ((hnever he).not_sure hnonempty) (Or.inr (hnever he))

/-- A place that is sure to count moves from the set to the number. -/
theorem yields_settlePlace (h : Upheld p me exact A w₀ w) {i : Nat} (hi : i ∈ p.may w)
    (hlt : i < p.scope.length) (hsure : p.Sure w.domains.table (p.place i)) :
    Yields me (p.settlePlace i) w
      (fun _ w' => Upheld p me exact A w₀ w' ∧ w'.domains = w.domains ∧
        p.may w' = (p.may w).erase i ∧ p.surely w' = p.surely w + 1) (Refuted p me w₀) := by
  have hr := h.toSound.ready hready
  refine yields_bind (yields_bind (yields_set hr.wellFormed.cells
    fun b₁ cells₁ hevolves₁ hturns₁ => yields_pure ?_))
  refine yields_bind (yields_set hevolves₁.wellFormed fun b₂ cells₂ hevolves₂ hturns₂ => ?_)
  obtain ⟨hvalue₁, hplaces₁⟩ := hturns₁
  obtain ⟨hvalue₂, hplaces₂⟩ := hturns₂
  have hplaces : cells₂.contents.places = cells₁.contents.places := hplaces₂
  have hvalue : cells₂.contents.value =
      Function.update w.cells.contents.value p.sure (w.cells.contents.value p.sure + 1) := by
    rw [← hvalue₁]
    exact hvalue₂
  have hmay : p.may { w with cells := cells₂ } = (p.may w).erase i := by
    rw [may, hplaces, hplaces₁, Function.update_self]
    rfl
  have hsurely : p.surely { w with cells := cells₂ } = p.surely w + 1 := by
    rw [surely, hvalue, Function.update_self]
    rfl
  refine yields_pure ⟨⟨⟨⟨h.progress.narrows, (h.progress.evolves.trans hevolves₁).trans hevolves₂⟩,
    fun c hc => ?_, fun k hk => ?_, h.kept⟩, ?_, ?_, fun he => ?_⟩, rfl, hmay, hsurely⟩
  · change cells₂.contents.value c = _
    rw [hvalue, Function.update_of_ne hc]
    exact h.value_eq c hc
  · change cells₂.contents.places k = _
    rw [hplaces, hplaces₁, Function.update_of_ne hk]
    exact h.places_eq k hk
  · rw [hmay, hsurely]
    refine h.accounts.settle hi fun σ hσ _ => ?_
    exact hsure _ (Among.eval_mem_current hσ (hr.grounded.place_lt i hlt))
  · rw [hmay, hsurely]
    exact h.counts.settle hi
  · rw [hmay, hsurely]
    exact (h.tracks he).settle hi hsure

/-! ### Series of restrictions -/

omit hready in
theorem yields_subject {i : Nat} {post : Variable → Workspace Remark → Prop}
    {stop : Workspace Remark → Prop} (h : i < p.scope.length → post (p.place i) w) :
    Yields me (p.subject i) w post stop := by
  unfold subject
  split
  · next x hx =>
    have hi := (List.getElem?_eq_some_iff.1 hx).1
    have hplace : p.place i = x := by
      rw [Among.place, List.getD_eq_getElem?_getD, hx]
      rfl
    exact hplace ▸ h hi
  · exact fun c hc => nomatch hc

/-- Values that occur in no solution are taken out of a variable over a domain with holes. -/
theorem yields_forceOut (h : Upheld p me exact A w₀ w) (hx : x.base.index < w.domains.table.size)
    (he : w.domains.table.enumerated x.base = true) {l : List Int}
    (hout : ∀ σ, w.domains.table.Admits σ → p.Satisfied σ → x.eval σ ∉ l) :
    Yields me (forceOut x l) w
      (fun _ w' => Reduces p me exact A w₀ w w' ∧
        ∀ u ∈ w'.domains.table.members x.base, x.image u ∉ l) (Refuted p me w₀) := by
  induction l generalizing w with
  | nil => exact yields_pure ⟨.refl h, fun u _ hu => nomatch hu⟩
  | cons v rest ih =>
      have hwf := (h.toSound.ready hready).wellFormed.table
      have hleaves : x.Leaves (.propagator me) (fun u => x.image u ≠ v) (.without v) w.domains :=
        (x.confined (.propagator me) (.without v) w.domains hwf).mono hwf (fun _ _ hf => hf.elim)
          fun u _ hl => hl he
      refine (yields_narrow_of (r := .without v) hready h hx (fun σ hσ hsat heq => ?_)
        hleaves).bind fun _ w' hw' => ?_
      · exact hout σ hσ hsat (List.mem_cons.2 (Or.inl heq))
      · obtain ⟨hreduces, -, hne⟩ := hw'
        have hn := hreduces.narrows
        refine (ih hreduces.upheld (hx.trans_eq hn.size_eq.symm)
          ((hn.enumerated_eq hwf _).trans he) fun σ hσ hsat hmem => ?_).imp fun _ w'' hw'' => ?_
        · exact hout σ (hn.admits hwf hσ) hsat (List.mem_cons_of_mem _ hmem)
        · refine ⟨hreduces.trans hw''.1, fun u hu hmem => ?_⟩
          have hwf' := (hreduces.upheld.toSound.ready hready).wellFormed.table
          rcases List.mem_cons.1 hmem with heq | hmem
          · exact hne u (hw''.1.narrows.members_subset hwf' x.base hu) heq
          · exact hw''.2 u hu hmem

/-- The bounds of a variable are moved inwards past values that occur in no solution. The upper bound
is where it was to be moved, and so is the lower one unless the variable keeps a gap there. -/
theorem yields_forceInward (h : Upheld p me exact A w₀ w)
    (hx : x.base.index < w.domains.table.size) (goes : Int → Bool)
    (hgoes : ∀ σ, w.domains.table.Admits σ → p.Satisfied σ → goes (x.eval σ) = false) :
    Yields me (forceInward x goes) w
      (fun bounds w' => Reduces p me exact A w₀ w w' ∧
        (∀ u ∈ w'.domains.table.members x.base, x.image u ≤ bounds.2) ∧
        (∀ u ∈ w.domains.table.members x.base, x.image u < bounds.1 → goes (x.image u) = true) ∧
        ((∀ d, w.domains.table.get? x.base = some d → 0 < bounds.1 →
            ¬ x.KeepsGap d (bounds.1 - 1)) →
          ∀ u ∈ w'.domains.table.members x.base, bounds.1 ≤ x.image u)) (Refuted p me w₀) := by
  have hwf := (h.toSound.ready hready).wellFormed.table
  refine yields_bind (yields_onDomains fun bounds hbounds => ?_)
  obtain ⟨lo, hi⟩ := bounds
  obtain ⟨hcut, -⟩ := Variable.hull_eq_ok hwf hbounds
  have hbounds : ∀ σ, w.domains.table.Admits σ → p.Satisfied σ →
      lo ≤ x.eval σ ∧ x.eval σ ≤ hi := by
    intro σ hσ hsat
    by_contra hout
    exact nomatch (hgoes σ hσ hsat).symm.trans
      (hcut _ (Among.eval_mem_current hσ hx) (by omega))
  refine (yields_narrow_of (r := .atLeast lo) hready h hx
    (fun σ hσ hsat => (hbounds σ hσ hsat).1)
    (Variable.leaves_atLeast_unless hwf hx lo)).bind fun _ w₁ hw₁ => ?_
  obtain ⟨hreduces₁, hkept₁, hleft₁⟩ := hw₁
  have hn₁ := hreduces₁.narrows
  have hwf₁ := hn₁.wellFormed hwf
  have hx₁ : x.base.index < w₁.domains.table.size := hx.trans_eq hn₁.size_eq.symm
  refine (yields_narrow_of (r := .atMost hi) hready hreduces₁.upheld hx₁
    (fun σ hσ hsat => (hbounds σ (hn₁.admits hwf hσ) hsat).2)
    (Variable.leaves_atMost hwf₁ x hi)).bind fun _ w₂ hw₂ => ?_
  obtain ⟨hreduces₂, hkept₂, hleft₂⟩ := hw₂
  have hsub := hreduces₂.narrows.members_subset hwf₁ x.base
  refine yields_pure ⟨hreduces₁.trans hreduces₂, hleft₂, fun u hu hlt => ?_, fun hgap u hu => ?_⟩
  · exact hcut _ (Variable.image_mem_current hu) (Or.inl hlt)
  · exact (hleft₁ u (hsub hu)).2 hgap

end Steps

end AmongPropagator

end Narrowing
