import NominalTypes.Proofs.Substitution

/-!
# Substitution after substitution

* `TypeExpr.references_instantiate`: the variables of a result are those of what was put in;
* `TypeExpr.instantiate_eq_self`: where there is nothing to replace, nothing changes;
* `TypeExpr.instantiate_instantiate`: two substitutions in a row are one, by the first bindings
  remapped through the second;
* `TypeExpr.substitute_substitute`: the same where bindings may be empty, as long as there is then
  nothing left to replace;
* `Bindings.remap_eq_ok_iff`: remapping is substitution entry by entry (`TypeExpr.Substituted`);
* `Bindings.substitute_remap`: two substitutions in a row are one, their faults included.
-/

namespace NominalTypes

namespace TypeExpr

variable {σ ρ ρ' : Bindings}

/-! ## Variables -/

/-- The variables that come in where a reference is replaced. -/
def broughtIn (σ : Bindings) (v : Variable) : List Variable :=
  match σ.type? v.name with
  | some t => (if v.nullable then t.toNullable else t).references
  | none => []

theorem references_toNullable_eq_nil {t : TypeExpr} (h : t.references = []) :
    t.toNullable.references = [] := by
  cases t with
  | inst d args n => exact h
  | var x b n => cases b <;> cases h
  | fn ps s => exact h

theorem broughtIn_eq_nil (h : ∀ e ∈ σ, e.2.references = []) (v : Variable) :
    broughtIn σ v = [] := by
  unfold broughtIn
  cases ht : σ.type? v.name with
  | none => rfl
  | some t =>
    have hnil := h _ (Bindings.mem_of_type? ht)
    cases v.nullable with
    | false => exact hnil
    | true => exact references_toNullable_eq_nil hnil

theorem referencesOfEach_instantiateEach {types result : List (String × TypeExpr)}
    (ih : ∀ e ∈ types, ∀ r, e.2.instantiate σ = .ok r →
      r.references = e.2.occurrences.flatMap (broughtIn σ))
    (h : instantiateEach σ types = .ok result) :
    referencesOfEach result = (occurrencesOfEach types).flatMap (broughtIn σ) := by
  replace h := instantiateEach_eq_ok_iff.mp h
  induction h with
  | nil => rfl
  | @cons e f _ _ hef _ ihl =>
    rw [referencesOfEach, occurrencesOfEach, List.flatMap_append,
      ih e List.mem_cons_self f.2 hef.2, ihl fun x hx => ih x (List.mem_cons_of_mem e hx)]

theorem references_instantiate {t r : TypeExpr} (h : t.instantiate σ = .ok r) :
    r.references = t.occurrences.flatMap (broughtIn σ) := by
  induction t using inductOutsideBounds generalizing r with
  | inst d args n ih =>
    obtain ⟨args', hargs, rfl⟩ := instantiate_inst_eq_ok_iff.mp h
    rw [references, occurrences]
    exact referencesOfEach_instantiateEach (fun e he r => ih e he) hargs
  | var x b n =>
    obtain ⟨t, ht, rfl⟩ := instantiate_var_eq_ok_iff.mp h
    rw [occurrences, List.flatMap_singleton, broughtIn, ht]
  | fn ps s ihp ihs =>
    obtain ⟨ps', s', hps, hs, rfl⟩ := instantiate_fn_eq_ok_iff.mp h
    have hps := referencesOfEach_instantiateEach (fun e he r => ihp e he) hps
    rw [references, occurrences, List.flatMap_append, hps, ihs hs]

/-! ## Nothing to replace -/

theorem instantiateEach_eq_self {types : List (String × TypeExpr)}
    (h : ∀ e ∈ types, e.2.instantiate σ = .ok e.2) : instantiateEach σ types = .ok types :=
  instantiateEach_eq_ok_iff.mpr (List.forall₂_same.mpr fun e he => ⟨rfl, h e he⟩)

theorem occurrences_of_mem {types : List (String × TypeExpr)} (h : occurrencesOfEach types = [])
    {e : String × TypeExpr} (he : e ∈ types) : e.2.occurrences = [] := by
  rw [occurrencesOfEach_eq_flatMap, List.flatMap_eq_nil_iff] at h
  exact h e he

theorem instantiate_eq_self {t : TypeExpr} (h : t.occurrences = []) : t.instantiate σ = .ok t := by
  induction t using inductOutsideBounds with
  | inst d args n ih =>
    refine instantiate_inst_eq_ok_iff.mpr ⟨args, ?_, rfl⟩
    exact instantiateEach_eq_self fun e he => ih e he (occurrences_of_mem h he)
  | var x b n => cases h
  | fn ps s ihp ihs =>
    rw [occurrences, List.append_eq_nil_iff] at h
    refine instantiate_fn_eq_ok_iff.mpr ⟨ps, s, ?_, ihs h.2, rfl⟩
    exact instantiateEach_eq_self fun e he => ihp e he (occurrences_of_mem h.1 he)

/-! ## Composition -/

theorem instantiate_toNullable {t r : TypeExpr} (h : t.instantiate σ = .ok r) :
    t.toNullable.instantiate σ = .ok r.toNullable := by
  cases t with
  | inst d args n =>
    obtain ⟨args', hargs, rfl⟩ := instantiate_inst_eq_ok_iff.mp h
    exact instantiate_inst_eq_ok_iff.mpr ⟨args', hargs, rfl⟩
  | var x b n =>
    obtain ⟨t, ht, rfl⟩ := instantiate_var_eq_ok_iff.mp h
    refine instantiate_var_eq_ok_iff.mpr ⟨t, ht, ?_⟩
    cases n <;> simp
  | fn ps s =>
    obtain ⟨ps', s', _, _, rfl⟩ := instantiate_fn_eq_ok_iff.mp h
    exact h

theorem instantiateEach_instantiateEach {types result : List (String × TypeExpr)}
    (ih : ∀ e ∈ types, ∀ u, e.2.instantiate ρ = .ok u →
      ∃ r, u.instantiate σ = .ok r ∧ e.2.instantiate ρ' = .ok r)
    (h : instantiateEach ρ types = .ok result) :
    ∃ rs, instantiateEach σ result = .ok rs ∧ instantiateEach ρ' types = .ok rs := by
  replace h := instantiateEach_eq_ok_iff.mp h
  simp only [instantiateEach_eq_ok_iff]
  induction h with
  | nil => exact ⟨[], .nil, .nil⟩
  | @cons e f _ _ hef _ ihl =>
    obtain ⟨r, hr, hr'⟩ := ih e List.mem_cons_self f.2 hef.2
    obtain ⟨rs, hrs, hrs'⟩ := ihl fun x hx => ih x (List.mem_cons_of_mem e hx)
    exact ⟨(e.1, r) :: rs, .cons ⟨hef.1.symm, hr⟩ hrs, .cons ⟨rfl, hr'⟩ hrs'⟩

/-- If the first bindings can be remapped through the second, a result of the first substitution
can be substituted in again. -/
theorem instantiate_instantiate (hρ : instantiateEach σ ρ = .ok ρ') {t u : TypeExpr}
    (h : t.instantiate ρ = .ok u) :
    ∃ r, u.instantiate σ = .ok r ∧ t.instantiate ρ' = .ok r := by
  induction t using inductOutsideBounds generalizing u with
  | inst d args n ih =>
    obtain ⟨args', hargs, rfl⟩ := instantiate_inst_eq_ok_iff.mp h
    obtain ⟨rs, hrs, hrs'⟩ := instantiateEach_instantiateEach (fun e he u => ih e he) hargs
    exact ⟨inst d rs n, instantiate_inst_eq_ok_iff.mpr ⟨rs, hrs, rfl⟩,
      instantiate_inst_eq_ok_iff.mpr ⟨rs, hrs', rfl⟩⟩
  | var x b n =>
    obtain ⟨t, ht, rfl⟩ := instantiate_var_eq_ok_iff.mp h
    obtain ⟨r, hr, htr⟩ := type?_instantiateEach hρ ht
    refine ⟨if n then r.toNullable else r, ?_, instantiate_var_eq_ok_iff.mpr ⟨r, hr, rfl⟩⟩
    cases n with
    | false => exact htr
    | true => exact instantiate_toNullable htr
  | fn ps s ihp ihs =>
    obtain ⟨ps', s', hps, hs, rfl⟩ := instantiate_fn_eq_ok_iff.mp h
    obtain ⟨qs, hqs, hqs'⟩ := instantiateEach_instantiateEach (fun e he u => ihp e he) hps
    obtain ⟨r, hr, hr'⟩ := ihs hs
    exact ⟨fn qs r, instantiate_fn_eq_ok_iff.mpr ⟨qs, r, hqs, hr, rfl⟩,
      instantiate_fn_eq_ok_iff.mpr ⟨qs, r, hqs', hr', rfl⟩⟩

/-- Where the first substitution fails, the two in one fail alike, since they bind the same
parameters. -/
theorem instantiate_bind_instantiate (hρ : instantiateEach σ ρ = .ok ρ') (t : TypeExpr) :
    (t.instantiate ρ >>= fun u => u.instantiate σ) = t.instantiate ρ' := by
  cases h : t.instantiate ρ with
  | ok u =>
    obtain ⟨r, hr, hr'⟩ := instantiate_instantiate hρ h
    rw [hr']
    exact hr
  | error f =>
    obtain ⟨v, hv, rfl⟩ := instantiate_eq_error_iff.mp h
    rw [← firstUnbound?_congr (instantiateEach_names hρ)] at hv
    exact (instantiate_of_unbound hv).symm

theorem instantiateEach_bind_instantiateEach (hρ : instantiateEach σ ρ = .ok ρ')
    (types : List (String × TypeExpr)) :
    (instantiateEach ρ types >>= instantiateEach σ) = instantiateEach ρ' types := by
  cases h : instantiateEach ρ types with
  | ok us =>
    obtain ⟨rs, hrs, hrs'⟩ :=
      instantiateEach_instantiateEach (fun _ _ _ => instantiate_instantiate hρ) h
    rw [hrs']
    exact hrs
  | error f =>
    obtain ⟨v, hv, rfl⟩ := instantiateEach_eq_error_iff.mp h
    rw [← firstUnbound?_congr (instantiateEach_names hρ)] at hv
    exact (instantiateEach_eq_error_iff.mpr ⟨v, hv, rfl⟩).symm

theorem substitute_substitute (hρ : ρ.remap σ = .ok ρ') {t u : TypeExpr}
    (hnil : ρ = [] → t.occurrences = []) (h : t.substitute ρ = .ok u) :
    ∃ r, u.substitute σ = .ok r ∧ t.substitute ρ' = .ok r := by
  by_cases hσ : σ = []
  · subst hσ
    cases hρ
    exact ⟨u, rfl, h⟩
  · have hnames := Bindings.remap_names hρ
    rw [Bindings.remap_of_ne_nil hσ] at hρ
    rw [substitute_of_ne_nil hσ]
    by_cases hnull : ρ = []
    · have hnull' : ρ' = [] := by simpa [hnull] using hnames
      rw [hnull] at h
      cases h
      rw [hnull', substitute_nil]
      exact ⟨t, instantiate_eq_self (hnil hnull), rfl⟩
    · have hnull' : ρ' ≠ [] := by
        rintro rfl
        exact hnull (by simpa using hnames.symm)
      rw [substitute_of_ne_nil hnull] at h
      rw [substitute_of_ne_nil hnull']
      exact instantiate_instantiate hρ h

/-- Entries with the same names in the same order, `σ` taking each type to the other. -/
def Substituted (σ : Bindings) (types results : List (String × TypeExpr)) : Prop :=
  List.Forall₂ (fun p q => q.1 = p.1 ∧ p.2.substitute σ = .ok q.2) types results

theorem Substituted.names {types results : List (String × TypeExpr)}
    (h : Substituted σ types results) : results.map (·.1) = types.map (·.1) := by
  induction h with
  | nil => rfl
  | cons hpq _ ih => rw [List.map_cons, List.map_cons, hpq.1, ih]

theorem Substituted.exists_of_mem {types results : List (String × TypeExpr)}
    (h : Substituted σ types results) {q : String × TypeExpr} (hq : q ∈ results) :
    ∃ p ∈ types, q.1 = p.1 ∧ p.2.substitute σ = .ok q.2 := by
  induction h with
  | nil => cases hq
  | @cons p _ _ _ hpq _ ih =>
    rcases List.mem_cons.mp hq with rfl | hq
    · exact ⟨p, List.mem_cons_self, hpq⟩
    · obtain ⟨p', hp', h⟩ := ih hq
      exact ⟨p', List.mem_cons_of_mem p hp', h⟩

end TypeExpr

theorem Bindings.remap_eq_ok_iff {b c σ : Bindings} :
    b.remap σ = .ok c ↔ TypeExpr.Substituted σ b c := by
  by_cases hσ : σ = []
  · have hentry (p q : String × TypeExpr) :
        q.1 = p.1 ∧ p.2.substitute [] = .ok q.2 ↔ p = q := by
      rw [TypeExpr.substitute_nil, Except.ok.injEq, Prod.ext_iff, eq_comm (a := q.1)]
    simp only [hσ, remap_nil, Except.ok.injEq, TypeExpr.Substituted, hentry, List.forall₂_eq_eq_eq]
  · rw [remap_of_ne_nil hσ, TypeExpr.instantiateEach_eq_ok_iff, TypeExpr.Substituted]
    simp only [TypeExpr.substitute_of_ne_nil hσ]

/-! ## Associativity -/

section Associativity

variable {ρ σ ρ' : Bindings}

theorem Bindings.ne_nil_of_remap (hne : ρ ≠ []) (hρ : ρ.remap σ = .ok ρ') : ρ' ≠ [] := by
  rintro rfl
  exact hne (List.map_eq_nil_iff.mp (remap_names hρ).symm)

theorem TypeExpr.substitute_bind_substitute (hne : ρ ≠ []) (hρ : ρ.remap σ = .ok ρ')
    (t : TypeExpr) : (t.substitute ρ >>= fun u => u.substitute σ) = t.substitute ρ' := by
  have hne' := Bindings.ne_nil_of_remap hne hρ
  by_cases hσ : σ = []
  · subst hσ
    cases hρ
    exact bind_pure (t.substitute ρ)
  · rw [Bindings.remap_of_ne_nil hσ] at hρ
    simp only [substitute_of_ne_nil hσ, substitute_of_ne_nil hne, substitute_of_ne_nil hne']
    exact instantiate_bind_instantiate hρ t

theorem Bindings.remap_bind_remap (hne : ρ ≠ []) (hρ : ρ.remap σ = .ok ρ') (b : Bindings) :
    (b.remap ρ >>= fun c => c.remap σ) = b.remap ρ' := by
  have hne' := ne_nil_of_remap hne hρ
  by_cases hσ : σ = []
  · subst hσ
    cases hρ
    exact bind_pure (b.remap ρ)
  · rw [remap_of_ne_nil hσ] at hρ
    simp only [remap_of_ne_nil hσ, remap_of_ne_nil hne, remap_of_ne_nil hne']
    exact TypeExpr.instantiateEach_bind_instantiateEach hρ b

/-- Substituting in two steps is substituting once, by the first bindings remapped through the
second.  This succeeds if the first bindings bind all variables outside bounds, and else the first
of the others in reading order is at fault, in two steps as in one. -/
theorem Bindings.substitute_remap (hne : ρ ≠ []) (hρ : ρ.remap σ = .ok ρ') :
    (∀ t : TypeExpr,
      (t.substitute ρ >>= fun u => u.substitute σ) = t.substitute ρ' ∧
      (TypeExpr.firstUnbound? ρ t.occurrences = none → ∃ r, t.substitute ρ' = .ok r) ∧
      ∀ v, TypeExpr.firstUnbound? ρ t.occurrences = some v →
        t.substitute ρ' = .error (.unboundParameter v.name)) ∧
    ∀ b : Bindings, (b.remap ρ >>= fun c => c.remap σ) = b.remap ρ' := by
  refine ⟨fun t => ⟨TypeExpr.substitute_bind_substitute hne hρ t, fun hnone => ?_, fun v hv => ?_⟩,
    remap_bind_remap hne hρ⟩
  · rw [← TypeExpr.firstUnbound?_congr (remap_names hρ)] at hnone
    exact TypeExpr.exists_substitute (TypeExpr.firstUnbound?_eq_none_iff.mp hnone)
  · rw [← TypeExpr.firstUnbound?_congr (remap_names hρ)] at hv
    rw [TypeExpr.substitute_of_ne_nil (ne_nil_of_remap hne hρ)]
    exact TypeExpr.instantiate_of_unbound hv

end Associativity

namespace Forwarding

def name : TypeExpr := .inst { id := 0, qualified := ⟨"p", "Name"⟩, kind := .classKind } [] false

def pair : Definition := { id := 1, qualified := ⟨"p", "Pair"⟩, kind := .classKind }

def var (x : String) : TypeExpr := .var x none false

/-- A reference and a function type, the one nullable after substitution in `T?`, the other not. -/
def inner : Bindings := [("T", var "U"), ("F", .fn [("x", var "U")] (var "U").toNullable)]

def outer : Bindings := [("U", name)]

def composed : Bindings := [("T", name), ("F", .fn [("x", name)] name.toNullable)]

/-- `Pair<A=T?, B=F?>` comes out the same in two steps and in one, and `(x: X, y: Y) -> T` fails on
`X` in both, as do the bindings `A=Pair<A=Y>, B=X` on `Y`. -/
theorem pair_forwarded :
    ((TypeExpr.inst pair [("A", (var "T").toNullable), ("B", (var "F").toNullable)] false).substitute
        inner >>= fun u => u.substitute outer) =
      .ok (.inst pair [("A", name.toNullable), ("B", .fn [("x", name)] name.toNullable)] false) ∧
    ((TypeExpr.fn [("x", var "X"), ("y", var "Y")] (var "T")).substitute inner >>= fun u =>
        u.substitute outer) = .error (.unboundParameter "X") ∧
    (Bindings.remap [("A", .inst pair [("A", var "Y")] false), ("B", var "X")] inner >>= fun c =>
        c.remap outer) = .error (.unboundParameter "Y") := by
  have hne : inner ≠ [] := by decide
  have hcomposed : inner.remap outer = .ok composed := rfl
  obtain ⟨htypes, hbindings⟩ := Bindings.substitute_remap hne hcomposed
  obtain ⟨hpair, -, -⟩ := htypes
    (.inst pair [("A", (var "T").toNullable), ("B", (var "F").toNullable)] false)
  obtain ⟨hfn, -, hfail⟩ := htypes (.fn [("x", var "X"), ("y", var "Y")] (var "T"))
  have hX := hfail { name := "X", bound := none, nullable := false } rfl
  exact ⟨hpair.trans rfl, hfn.trans hX, (hbindings _).trans rfl⟩

end Forwarding

end NominalTypes
