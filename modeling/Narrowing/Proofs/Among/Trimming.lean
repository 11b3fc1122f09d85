import Narrowing.Proofs.Among.Notified
import Narrowing.Proofs.Among.Rest

/-!
How an Among propagator comes to rest. What is shown of every step is that it leaves no domains
behind at which the propagator is at rest: those that were below the domains before the step are below
them after it, and where a step is refused, there were none. The walks over the places that may count
trim the variables there, as long as the counter stays at the extreme it is at.
-/

namespace Narrowing

/-- A trimmed variable stays so when the domain of another one changes that is trimmed, too. -/
theorem Variable.Trimmed.narrowed {x y : Variable} {T : Int → Prop} {cause : Cause} {s s' : Domains}
    (h : y.Trimmed s.table T) (hwf : s.table.WellFormed)
    (hn : Domains.Narrows (· = x.base) cause s s') (hx : Among.Faithful s.table x)
    (hy : Among.Faithful s.table y) (htrimmed : x.Trimmed s'.table T) : y.Trimmed s'.table T := by
  by_cases hbase : y.base = x.base
  · by_cases hkind : s.table.enumerated y.base = true
    · exact .of_all fun v hv => h.all hkind v (Among.current_subset hn hwf y hv)
    · have hy := hy.resolve_right hkind
      have hx := hx.resolve_right (hbase ▸ hkind)
      rwa [hy, hbase, ← hx]
  · exact h.of_get? (hn.get?_eq_of_not hbase)

namespace AmongPropagator

open Narrowing.Action

variable {p : AmongPropagator} {me : PropagatorId} {exact : Prop} {A : Nat → Prop}
  {w₀ w w' w'' : Workspace Remark} {x : Variable} {T : Int → Prop} {i : Nat} {rest places : List Nat}
  {P : Finset Nat} {m smallest largest : Int}

/-- On the way from `w₀` to `w` no domains were left behind at which the propagator is at rest. -/
structure Guarded (p : AmongPropagator) (me : PropagatorId) (w₀ w : Workspace Remark) : Prop where
  progress : Workspace.Progress (.propagator me) w₀ w
  floor : ∀ g : Table DomainId Domain, p.AtRest g → g.Below w₀.domains.table →
    g.Below w.domains.table

/-- The propagator is at rest in no domains below. -/
def Restless (p : AmongPropagator) (w : Workspace Remark) : Prop :=
  ∀ g : Table DomainId Domain, g.Below w.domains.table → ¬ p.AtRest g

/-- A step from `w` to `w'` that narrows the domain of `x` and leaves the cells alone. -/
structure Shrinks (p : AmongPropagator) (me : PropagatorId) (w₀ : Workspace Remark) (x : Variable)
    (w w' : Workspace Remark) : Prop where
  guarded : Guarded p me w₀ w'
  narrows : Domains.Narrows (· = x.base) (.propagator me) w.domains w'.domains
  cells_eq : w'.cells = w.cells

theorem Guarded.refl (h : w.WellFormed) : Guarded p me w w := ⟨.refl h, fun _ _ hb => hb⟩

theorem Guarded.wellFormed (h : Guarded p me w₀ w) (hwf : w₀.WellFormed) : w.WellFormed :=
  h.progress.wellFormed hwf

theorem Guarded.remark (h : Guarded p me w₀ w) (content : Remark) :
    Guarded p me w₀ (w.noted content) :=
  ⟨⟨h.progress.narrows, h.progress.evolves⟩, h.floor⟩

theorem Guarded.withCells (h : Guarded p me w₀ w) {cells : Cells}
    (hevolves : Cells.Evolves w.cells cells) : Guarded p me w₀ { w with cells } :=
  ⟨⟨h.progress.narrows, h.progress.evolves.trans hevolves⟩, h.floor⟩

theorem Guarded.clear (h : Guarded p me w₀ w) (hwf : w₀.WellFormed)
    (hclear : p.Clear w₀.domains.table) : p.Clear w.domains.table :=
  hclear.of_enumerated (h.progress.narrows.enumerated_eq hwf.table)

theorem Shrinks.refl (h : Guarded p me w₀ w) : Shrinks p me w₀ x w w := ⟨h, .refl, rfl⟩

theorem Shrinks.trans (h : Shrinks p me w₀ x w w') (h' : Shrinks p me w₀ x w' w'') :
    Shrinks p me w₀ x w w'' :=
  ⟨h'.guarded, h.narrows.trans h'.narrows, h'.cells_eq.trans h.cells_eq⟩

theorem Shrinks.may_eq (h : Shrinks p me w₀ x w w') : p.may w' = p.may w :=
  may_congr h.cells_eq

theorem Shrinks.surely_eq (h : Shrinks p me w₀ x w w') : p.surely w' = p.surely w :=
  surely_congr h.cells_eq

/-! ### Single steps -/

section Steps

variable (hwf₀ : w₀.WellFormed)
include hwf₀

/-- A restriction that all values obey in domains at rest. -/
theorem yields_force_guarded (h : Guarded p me w₀ w) {r : Restriction} {left : Int → Prop}
    (hx : x.base.index < w.domains.table.size)
    (hobeys : ∀ g : Table DomainId Domain, p.AtRest g → g.Below w.domains.table →
      ∀ v ∈ x.current g, r.Allows v)
    (hleft : x.Leaves (.propagator me) left r w.domains) :
    Yields me (force x r) w
      (fun _ w' => Shrinks p me w₀ x w w' ∧
        (∀ u ∈ w.domains.table.members x.base, x.Permits r u →
          u ∈ w'.domains.table.members x.base) ∧
        ∀ u ∈ w'.domains.table.members x.base, left u) fun _ => Restless p w₀ := by
  have hwf := (h.wellFormed hwf₀).table
  have hpermits : ∀ g : Table DomainId Domain, p.AtRest g → g.Below w.domains.table →
      ∀ u ∈ g.members x.base, x.Permits r u := fun g hg hb u hu =>
    hobeys g hg hb _ (Variable.image_mem_current hu)
  refine yields_force hwf hleft (fun domains hn hstay hall => ?_) fun domains hn hnone g hb hg => ?_
  · refine ⟨⟨⟨⟨h.progress.narrows.trans (hn.mono fun _ _ => trivial), h.progress.evolves⟩,
      fun g hg hb => ?_⟩, hn, rfl⟩, hstay, hall⟩
    have hb := h.floor g hg hb
    refine ⟨hb.wellFormed, hb.size_eq.trans hn.size_eq.symm, fun id =>
      (hb.enumerated_eq id).trans (hn.enumerated_eq hwf id).symm, fun id u hu => ?_⟩
    by_cases hid : id = x.base
    · subst hid
      exact hstay u (hb.subset _ hu) (hpermits g hg hb u hu)
    · rw [Table.members, hn.get?_eq_of_not hid]
      exact hb.subset id hu
  · have hb := h.floor g hg hb
    obtain ⟨v, hv⟩ := Among.current_nonempty hb.wellFormed (hx.trans_eq hb.size_eq.symm)
    obtain ⟨u, hu, rfl⟩ := Variable.mem_current.1 hv
    exact hnone u (hb.subset _ hu) (hpermits g hg hb u hu)

/-- Values that are missing in domains at rest are taken out of a variable over a domain with holes. -/
theorem yields_forceOut_guarded (h : Guarded p me w₀ w)
    (hx : x.base.index < w.domains.table.size) (he : w.domains.table.enumerated x.base = true)
    {l : List Int} (hout : ∀ g : Table DomainId Domain, p.AtRest g → g.Below w.domains.table →
      ∀ v ∈ x.current g, v ∉ l) :
    Yields me (forceOut x l) w
      (fun _ w' => Shrinks p me w₀ x w w' ∧ ∀ v ∈ x.current w'.domains.table, v ∉ l)
      fun _ => Restless p w₀ := by
  induction l generalizing w with
  | nil => exact yields_pure ⟨.refl h, fun _ _ hv => nomatch hv⟩
  | cons v rest ih =>
      have hwf := (h.wellFormed hwf₀).table
      have hleaves : x.Leaves (.propagator me) (fun u => x.image u ≠ v) (.without v) w.domains :=
        (x.confined (.propagator me) (.without v) w.domains hwf).mono hwf (fun _ _ hf => hf.elim)
          fun u _ hl => hl he
      refine (yields_force_guarded (r := .without v) hwf₀ h hx (fun g hg hb u hu heq => ?_)
        hleaves).bind fun _ w' hw' => ?_
      · exact hout g hg hb u hu (List.mem_cons.2 (Or.inl heq))
      · obtain ⟨hshrinks, -, hne⟩ := hw'
        have hn := hshrinks.narrows
        refine (ih hshrinks.guarded (hx.trans_eq hn.size_eq.symm)
          ((hn.enumerated_eq hwf _).trans he) fun g hg hb u hu hmem => ?_).imp fun _ w'' hw'' => ?_
        · exact hout g hg (hb.trans (hn.table_below hwf)) u hu (List.mem_cons_of_mem _ hmem)
        · refine ⟨hshrinks.trans hw''.1, fun u hu hmem => ?_⟩
          rcases List.mem_cons.1 hmem with heq | hmem
          · obtain ⟨z, hz, rfl⟩ := Variable.mem_current.1 hu
            exact hne z (hw''.1.narrows.members_subset (hn.wellFormed hwf) x.base hz) heq
          · exact hw''.2 u hu hmem

/-- Both bounds of a variable are moved to values that it keeps to in domains at rest. -/
theorem yields_clamp_guarded (h : Guarded p me w₀ w) (hx : x.base.index < w.domains.table.size)
    (hfaithful : Among.Faithful w.domains.table x) {lo hi : Int}
    (hobeys : ∀ g : Table DomainId Domain, p.AtRest g → g.Below w.domains.table →
      ∀ v ∈ x.current g, lo ≤ v ∧ v ≤ hi) :
    Yields me (force x (.atLeast lo)) w (fun _ w₁ =>
      Yields me (force x (.atMost hi)) w₁ (fun _ w₂ => Shrinks p me w₀ x w w₂ ∧
        (∀ v ∈ x.current w.domains.table, lo ≤ v ∧ v ≤ hi → v ∈ x.current w₂.domains.table) ∧
        ∀ v ∈ x.current w₂.domains.table, lo ≤ v ∧ v ≤ hi)
        fun _ => Restless p w₀) fun _ => Restless p w₀ := by
  have hwf := (h.wellFormed hwf₀).table
  refine Yields.imp (yields_force_guarded (r := .atLeast lo) hwf₀ h hx
    (fun g hg hb v hv => (hobeys g hg hb v hv).1) (leaves_atLeast_of_faithful hwf x lo))
    fun _ w₁ hw₁ => ?_
  obtain ⟨hshrinks₁, hstay₁, hleft₁⟩ := hw₁
  have hn₁ := hshrinks₁.narrows
  have hwf₁ := hn₁.wellFormed hwf
  refine Yields.imp (yields_force_guarded (r := .atMost hi) hwf₀ hshrinks₁.guarded
    (hx.trans_eq hn₁.size_eq.symm)
    (fun g hg hb v hv => (hobeys g hg (hb.trans (hn₁.table_below hwf)) v hv).2)
    (Variable.leaves_atMost hwf₁ x hi)) fun _ w₂ hw₂ => ?_
  obtain ⟨hshrinks₂, hstay₂, hleft₂⟩ := hw₂
  refine ⟨hshrinks₁.trans hshrinks₂, fun v hv hin => ?_, fun v hv => ?_⟩
  · obtain ⟨u, hu, rfl⟩ := Variable.mem_current.1 hv
    exact Variable.image_mem_current (hstay₂ u (hstay₁ u hu hin.1) hin.2)
  · obtain ⟨u, hu, rfl⟩ := Variable.mem_current.1 hv
    exact ⟨hleft₁ u (hshrinks₂.narrows.members_subset hwf₁ _ hu) hfaithful, hleft₂ u hu⟩

/-- The bounds of an interval are moved inwards until it is trimmed. -/
theorem yields_forceInward_guarded (h : Guarded p me w₀ w)
    (hx : x.base.index < w.domains.table.size) (hfaithful : Among.Faithful w.domains.table x)
    (hkind : w.domains.table.enumerated x.base = false) (goes : Int → Bool)
    (hkeep : ∀ g : Table DomainId Domain, p.AtRest g → g.Below w.domains.table →
      x.Trimmed g (goes · = false)) :
    Yields me (forceInward x goes) w
      (fun _ w' => Shrinks p me w₀ x w w' ∧ x.Trimmed w'.domains.table (goes · = false))
      fun _ => Restless p w₀ := by
  have hwf := (h.wellFormed hwf₀).table
  refine yields_bind (yields_onDomains fun bounds hbounds => ?_)
  obtain ⟨lo, hi⟩ := bounds
  obtain ⟨hcut, hfirst, hlast, -⟩ := Variable.hull_eq_ok hwf hbounds
  have hstays : ∀ u ∈ x.current w.domains.table, goes u = false → lo ≤ u ∧ u ≤ hi := by
    intro u hu hgoes
    by_contra hout
    have := hcut u hu (by omega)
    rw [hgoes] at this
    exact nomatch this
  have hobeys : ∀ g : Table DomainId Domain, p.AtRest g → g.Below w.domains.table →
      ∀ v ∈ x.current g, lo ≤ v ∧ v ≤ hi := fun g hg hb v hv =>
    (hkeep g hg hb).between (fun u hu => hstays u (Among.current_subset_of_below hb x hu)) hv
  refine yields_bind ((yields_clamp_guarded hwf₀ h hx hfaithful hobeys).imp fun _ w₁ hw₁ =>
    yields_bind (hw₁.imp fun _ w₂ hw₂ => ?_))
  obtain ⟨hshrinks, hstay, hleft⟩ := hw₂
  have hn := hshrinks.narrows
  refine yields_pure ⟨hshrinks, fun v hv => ?_⟩
  by_cases hgoes : goes v = false
  · exact Or.inl hgoes
  have hv₀ := Among.current_subset hn hwf x hv
  obtain ⟨hlo, hhi⟩ := hleft v hv
  have hne : ∀ {a : Int}, goes a = false → a ≠ v := by
    rintro a ha rfl
    exact hgoes ha
  obtain ⟨a, ha, hav, hgoesa⟩ := hfirst v hv₀ hlo
  obtain ⟨b, hb, hvb, hgoesb⟩ := hlast v hv₀ hlo hhi
  exact Or.inr ⟨(hn.enumerated_eq hwf _).trans hkind,
    ⟨a, hstay a ha (hstays a ha hgoesa), lt_of_le_of_ne hav (hne hgoesa)⟩,
    ⟨b, hstay b hb (hstays b hb hgoesb), lt_of_le_of_ne hvb (hne hgoesb).symm⟩⟩

/-- An interval is moved into the span of the tracked values, and its bounds to tracked values. -/
theorem yields_forceSpan_guarded (h : Guarded p me w₀ w)
    (hx : x.base.index < w.domains.table.size) (hfaithful : Among.Faithful w.domains.table x)
    (hkind : w.domains.table.enumerated x.base = false) (hspan : p.Spans smallest largest)
    (hkeep : ∀ g : Table DomainId Domain, p.AtRest g → g.Below w.domains.table →
      x.Trimmed g (· ∈ p.tracked)) :
    Yields me (force x (.atLeast smallest)) w (fun _ w₁ =>
      Yields me (force x (.atMost largest)) w₁ (fun _ w₂ =>
        Yields me (forceInward x (!p.tracked.contains ·)) w₂ (fun _ w₃ =>
          Shrinks p me w₀ x w w₃ ∧ x.Trimmed w₃.domains.table (· ∈ p.tracked))
          fun _ => Restless p w₀) fun _ => Restless p w₀) fun _ => Restless p w₀ := by
  have hwf := (h.wellFormed hwf₀).table
  refine (yields_clamp_guarded hwf₀ h hx hfaithful fun g hg hb v hv =>
    (hkeep g hg hb).between (fun u _ => hspan u) hv).imp fun _ w₁ hw₁ => hw₁.imp fun _ w₂ hw₂ => ?_
  obtain ⟨hshrinks, -, -⟩ := hw₂
  have hn := hshrinks.narrows
  have hfaithful₂ := hfaithful.imp_right fun he => (hn.enumerated_eq hwf _).trans he
  refine (yields_forceInward_guarded hwf₀ hshrinks.guarded (hx.trans_eq hn.size_eq.symm) hfaithful₂
    ((hn.enumerated_eq hwf _).trans hkind) (!p.tracked.contains ·) fun g hg hb =>
      (hkeep g hg (hb.trans (hn.table_below hwf))).imp fun v hv => by simpa using hv).imp
    fun _ w₃ hw₃ => ?_
  obtain ⟨hshrinks₃, htrimmed⟩ := hw₃
  exact ⟨hshrinks.trans hshrinks₃, htrimmed.imp fun v hv => by simpa using hv⟩

end Steps

/-! ### Cells -/

/-- A place leaves the set. -/
theorem yields_write_erase {post : Unit → Workspace Remark → Prop} {stop : Workspace Remark → Prop}
    (hwf : w.cells.WellFormed)
    (h : ∀ cells, Cells.Evolves w.cells cells → p.may { w with cells } = (p.may w).erase i →
      p.surely { w with cells } = p.surely w → post () { w with cells }) :
    Yields me (write (.erase p.possible i)) w post stop := by
  refine yields_bind (yields_set hwf fun b cells hevolves hturns => yields_pure ?_)
  obtain ⟨hvalue, hplaces⟩ := hturns
  refine h cells hevolves ?_ (congrFun hvalue _)
  rw [may, hplaces, Function.update_self]
  rfl

/-- A place moves from the set to the number. -/
theorem yields_settlePlace_of {post : Unit → Workspace Remark → Prop}
    {stop : Workspace Remark → Prop} (hwf : w.cells.WellFormed)
    (h : ∀ cells, Cells.Evolves w.cells cells → p.may { w with cells } = (p.may w).erase i →
      p.surely { w with cells } = p.surely w + 1 → post () { w with cells }) :
    Yields me (p.settlePlace i) w post stop := by
  refine yields_bind (yields_write_erase hwf fun cells₁ hevolves₁ hmay₁ hsurely₁ => ?_)
  refine yields_bind (yields_set hevolves₁.wellFormed fun b cells₂ hevolves₂ hturns => yields_pure ?_)
  obtain ⟨hvalue, hplaces⟩ := hturns
  have hmay : p.may { w with cells := cells₂ } = p.may { w with cells := cells₁ } :=
    congrFun hplaces p.possible
  refine h cells₂ (hevolves₁.trans hevolves₂) (hmay.trans hmay₁) ?_
  rw [← hsurely₁, surely, hvalue, Function.update_self]
  rfl

/-! ### Walks -/

/-- A walk that trims variables to `T`, with the counter fixed to `m`, and has the listed places left.
The others that are still in the set are over intervals. All places of the set are in `P`. -/
structure Walk (p : AmongPropagator) (me : PropagatorId) (T : Int → Prop) (w₀ : Workspace Remark)
    (P : Finset Nat) (m : Int) (places : List Nat) (w : Workspace Remark) : Prop where
  guarded : Guarded p me w₀ w
  nodup : places.Nodup
  subset : ∀ i ∈ places, i ∈ p.may w
  inScope : ∀ i ∈ p.may w, i < p.scope.length
  may_subset : p.may w ⊆ P
  count : p.CounterIs w.domains.table m
  due : ∀ g : Table DomainId Domain, p.AtRest g → g.Below w.domains.table →
    ∀ i ∈ places, (p.place i).Trimmed g T
  done : ∀ i ∈ p.may w, i ∈ places ∨ w.domains.table.enumerated (p.place i).base = false ∧
    (p.place i).Trimmed w.domains.table T

theorem Walk.remark (h : Walk p me T w₀ P m places w) (content : Remark) :
    Walk p me T w₀ P m places (w.noted content) :=
  ⟨h.guarded.remark content, h.nodup, h.subset, h.inScope, h.may_subset, h.count, h.due, h.done⟩

theorem Walk.index_lt (h : Walk p me T w₀ P m (i :: rest) w) (hg : p.Grounded w₀.domains.table) :
    (p.place i).base.index < w.domains.table.size :=
  (hg.place_lt i (h.inScope i (h.subset i List.mem_cons_self))).trans_eq
    h.guarded.progress.narrows.size_eq.symm

section Walks

variable (hwf : w₀.WellFormed) (hclear : p.Clear w₀.domains.table)
include hwf hclear

/-- A place is treated: its variable is trimmed, and it has left the set or is over an interval. -/
theorem Walk.next {w₁ : Workspace Remark} (h : Walk p me T w₀ P m (i :: rest) w)
    (hshrinks : Shrinks p me w₀ (p.place i) w w₁)
    (htrimmed : (p.place i).Trimmed w₁.domains.table T) (hguarded : Guarded p me w₀ w')
    (hdomains : w'.domains = w₁.domains)
    (hmay : p.may w' = p.may w ∧ w.domains.table.enumerated (p.place i).base = false ∨
      p.may w' = (p.may w).erase i) : Walk p me T w₀ P m rest w' := by
  have hwf' := (h.guarded.wellFormed hwf).table
  have hclear' := h.guarded.clear hwf hclear
  have hbelow := hshrinks.narrows.table_below hwf'
  have hkind := hshrinks.narrows.enumerated_eq hwf'
  have hsub : p.may w' ⊆ p.may w := by
    rcases hmay with ⟨hmay, -⟩ | hmay
    · exact hmay.le
    · exact hmay.le.trans (Finset.erase_subset _ _)
  obtain ⟨hnotin, hnodup⟩ := List.nodup_cons.1 h.nodup
  refine ⟨hguarded, hnodup, fun j hj => ?_, fun j hj => h.inScope j (hsub hj), hsub.trans h.may_subset,
    hdomains ▸ h.count.below hbelow, fun g hg hb j hj => ?_, fun j hj => ?_⟩
  · have hj' := h.subset j (List.mem_cons_of_mem _ hj)
    rcases hmay with ⟨hmay, -⟩ | hmay
    · rwa [hmay]
    · rw [hmay]
      exact Finset.mem_erase.2 ⟨fun he => hnotin (he ▸ hj), hj'⟩
  · have hb' : g.Below w₁.domains.table := hdomains ▸ hb
    exact h.due g hg (hb'.trans hbelow) j (List.mem_cons_of_mem _ hj)
  · rw [hdomains]
    rcases h.done j (hsub hj) with hmem | ⟨hinterval, hdone⟩
    · rcases List.mem_cons.1 hmem with rfl | hmem
      · rcases hmay with ⟨-, hinterval⟩ | hmay
        · exact Or.inr ⟨(hkind _).trans hinterval, htrimmed⟩
        · exact absurd (hmay ▸ hj) (Finset.notMem_erase _ _)
      · exact Or.inl hmem
    · exact Or.inr ⟨(hkind _).trans hinterval, hdone.narrowed hwf' hshrinks.narrows
        (hclear'.place (h.inScope i (h.subset i List.mem_cons_self)))
        (hclear'.place (h.inScope j (hsub hj))) htrimmed⟩

section Treated

variable {w₁ : Workspace Remark} (h : Walk p me T w₀ P m (i :: rest) w)
  (hshrinks : Shrinks p me w₀ (p.place i) w w₁)
  (htrimmed : (p.place i).Trimmed w₁.domains.table T)
include h hshrinks htrimmed

/-- A place over an interval may stay. -/
theorem Walk.kept (hinterval : w.domains.table.enumerated (p.place i).base = false) :
    Walk p me T w₀ P m rest w₁ :=
  h.next hwf hclear hshrinks htrimmed hshrinks.guarded rfl (Or.inl ⟨hshrinks.may_eq, hinterval⟩)

/-- A place leaves the set. -/
theorem Walk.yields_erase {stop : Workspace Remark → Prop} :
    Yields me (write (.erase p.possible i)) w₁
      (fun _ w' => Walk p me T w₀ P m rest w' ∧ p.surely w' = p.surely w) stop := by
  refine yields_write_erase (hshrinks.guarded.wellFormed hwf).cells fun cells hevolves hmay hsurely => ?_
  rw [hshrinks.may_eq] at hmay
  rw [hshrinks.surely_eq] at hsurely
  exact ⟨h.next hwf hclear hshrinks htrimmed (hshrinks.guarded.withCells hevolves) rfl (Or.inr hmay),
    hsurely⟩

/-- A place moves from the set to the number. -/
theorem Walk.yields_settlePlace {stop : Workspace Remark → Prop} :
    Yields me (p.settlePlace i) w₁ (fun _ w' => Walk p me T w₀ P m rest w' ∧
      p.surely w' + (p.may w').card = p.surely w + (p.may w).card) stop := by
  refine yields_settlePlace_of (hshrinks.guarded.wellFormed hwf).cells
    fun cells hevolves hmay hsurely => ?_
  rw [hshrinks.may_eq] at hmay
  rw [hshrinks.surely_eq] at hsurely
  have hcard := Finset.card_erase_add_one (h.subset i List.mem_cons_self)
  refine ⟨h.next hwf hclear hshrinks htrimmed (hshrinks.guarded.withCells hevolves) rfl (Or.inr hmay), ?_⟩
  rw [hmay, hsurely]
  omega

end Treated

variable (hgrounded : p.Grounded w₀.domains.table)
include hgrounded

/-- The walk that makes places not count. -/
theorem yields_excludeEach_trims (h : Walk p me (· ∉ p.tracked) w₀ P m places w) :
    Yields me (p.excludeEach smallest largest places) w
      (fun _ w' => Walk p me (· ∉ p.tracked) w₀ P m [] w' ∧ p.surely w' = p.surely w)
      fun _ => Restless p w₀ := by
  induction places generalizing w with
  | nil => exact yields_pure ⟨h, rfl⟩
  | cons i rest ih =>
      have hrest : ∀ w', Walk p me (· ∉ p.tracked) w₀ P m rest w' ∧ p.surely w' = p.surely w →
          Yields me (p.excludeEach smallest largest rest) w' (fun _ w'' =>
            Walk p me (· ∉ p.tracked) w₀ P m [] w'' ∧ p.surely w'' = p.surely w)
            fun _ => Restless p w₀ := fun w' hw' =>
        (ih hw'.1).imp fun _ w'' hw'' => ⟨hw''.1, hw''.2.trans hw'.2⟩
      have h := h.remark (.excluded (p.place i) p.tracked)
      have hdue : ∀ g : Table DomainId Domain, p.AtRest g → g.Below w.domains.table →
          (p.place i).Trimmed g (· ∉ p.tracked) := fun g hg hb => h.due g hg hb i List.mem_cons_self
      refine yields_excludeEach_cons (fun hlt he => ?_) fun hlt he => ?_
      · refine Yields.imp (yields_forceOut_guarded hwf h.guarded (h.index_lt hgrounded) he
          fun g hg hb => (hdue g hg hb).all ((hb.enumerated_eq _).trans he)) fun _ w₁ hw₁ => ?_
        obtain ⟨hshrinks, hout⟩ := hw₁
        exact (h.yields_erase hwf hclear hshrinks (.of_all hout)).imp fun _ => hrest
      · refine Yields.imp (yields_forceInward_guarded hwf h.guarded (h.index_lt hgrounded)
          ((h.guarded.clear hwf hclear).place hlt) he (p.tracked.contains ·) fun g hg hb =>
            (hdue g hg hb).imp fun v hv => by simpa using hv) fun bounds w₁ hw₁ => ?_
        obtain ⟨hshrinks, htrimmed⟩ := hw₁
        have htrimmed : (p.place i).Trimmed w₁.domains.table (· ∉ p.tracked) :=
          htrimmed.imp fun v hv => by simpa using hv
        refine ⟨fun _ => (h.yields_erase hwf hclear hshrinks htrimmed).imp fun _ => hrest, fun _ => ?_⟩
        exact hrest w₁ ⟨h.kept hwf hclear hshrinks htrimmed he, hshrinks.surely_eq⟩

/-- The walk that makes places count. -/
theorem yields_includeEach_trims (hspan : p.Spans smallest largest)
    (h : Walk p me (· ∈ p.tracked) w₀ P m places w) :
    Yields me (p.includeEach smallest largest places) w
      (fun _ w' => Walk p me (· ∈ p.tracked) w₀ P m [] w' ∧
        p.surely w' + (p.may w').card = p.surely w + (p.may w).card) fun _ => Restless p w₀ := by
  induction places generalizing w with
  | nil => exact yields_pure ⟨h, rfl⟩
  | cons i rest ih =>
      have hrest : ∀ w', Walk p me (· ∈ p.tracked) w₀ P m rest w' ∧
            p.surely w' + (p.may w').card = p.surely w + (p.may w).card →
          Yields me (p.includeEach smallest largest rest) w' (fun _ w'' =>
            Walk p me (· ∈ p.tracked) w₀ P m [] w'' ∧
              p.surely w'' + (p.may w'').card = p.surely w + (p.may w).card)
            fun _ => Restless p w₀ := fun w' hw' =>
        (ih hw'.1).imp fun _ w'' hw'' => ⟨hw''.1, hw''.2.trans hw'.2⟩
      have h := h.remark (.included (p.place i) p.tracked)
      have hdue : ∀ g : Table DomainId Domain, p.AtRest g → g.Below w.domains.table →
          (p.place i).Trimmed g (· ∈ p.tracked) := fun g hg hb => h.due g hg hb i List.mem_cons_self
      have hwfw := (h.guarded.wellFormed hwf).table
      refine yields_includeEach_cons (fun hlt he values hvalues => ?_) fun hlt he => ?_
      · have hanswers := (p.place i).describes_answer hwfw
        obtain ⟨-, hlisted⟩ := hanswers.ascending hanswers.few hvalues
        refine Yields.imp (yields_forceOut_guarded hwf h.guarded (h.index_lt hgrounded) he
          fun g hg hb v hv hmem => ?_) fun _ w₁ hw₁ => ?_
        · have hin := (hdue g hg hb).all ((hb.enumerated_eq _).trans he) v hv
          have hout := (List.mem_filter.1 hmem).2
          simp [hin] at hout
        · obtain ⟨hshrinks, hout⟩ := hw₁
          have hin : ∀ v ∈ (p.place i).current w₁.domains.table, v ∈ p.tracked := by
            intro v hv
            by_contra hnot
            refine hout v hv (List.mem_filter.2 ⟨(hlisted v).2 ?_, by simpa using hnot⟩)
            exact Among.current_subset hshrinks.narrows hwfw _ hv
          exact (h.yields_settlePlace hwf hclear hshrinks (.of_all hin)).imp fun _ => hrest
      · have hfaithful := (h.guarded.clear hwf hclear).place hlt
        refine Yields.imp (yields_forceSpan_guarded hwf h.guarded (h.index_lt hgrounded) hfaithful he
          hspan hdue) fun _ w₁ hw₁ => hw₁.imp fun _ w₂ hw₂ => hw₂.imp fun _ w₃ hw₃ => ?_
        obtain ⟨hshrinks, htrimmed⟩ := hw₃
        refine ⟨fun _ => (h.yields_settlePlace hwf hclear hshrinks htrimmed).imp fun _ => hrest, ?_⟩
        refine hrest w₃ ⟨h.kept hwf hclear hshrinks htrimmed he, ?_⟩
        rw [hshrinks.surely_eq, hshrinks.may_eq]
        rfl

end Walks

end AmongPropagator

end Narrowing
