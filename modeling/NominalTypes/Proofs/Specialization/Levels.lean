import NominalTypes.Proofs.Assignability
import NominalTypes.Proofs.Composition

/-!
# Levels of a specialised type

Here `s'` is a type `s` with `σ` substituted in its arguments: `s.remap σ = .ok s'`.  If `s` has an
argument for each parameter of its definition, then what the definition declares, seen from `s'`, is
what it declares, seen from `s` and with `σ` substituted:

* `Universe.Coherent.substitute_level` for one type of the body, and from it
  `Universe.Coherent.remap_level` for supertypes and `Universe.Coherent.remap_properties` for
  properties.
-/

namespace NominalTypes

namespace Universe

variable {U : Universe} {σ : Bindings} {s s' : Instance}

/-- Without arguments there are no parameters, and so no variables in the body. -/
theorem Coherent.references_eq_nil (hU : U.Coherent) (hs : U.Full s) (hnil : s.args = [])
    {t : TypeExpr} (ht : t ∈ (U.body s.definition).types) : t.references = [] := by
  refine List.eq_nil_iff_forall_not_mem.mpr fun v hv => ?_
  have hbinds := hs.binds (hU.declares_of_mem_types ht hv)
  rw [hnil] at hbinds
  cases hbinds

theorem Coherent.substitute_level (hU : U.Coherent) (hs : U.Full s) (hσ : s.remap σ = .ok s')
    {t : TypeExpr} (ht : t ∈ (U.body s.definition).types) :
    ∃ u r, t.substitute s.args = .ok u ∧ u.substitute σ = .ok r ∧ t.substitute s'.args = .ok r := by
  obtain ⟨args, hargs, rfl⟩ := Instance.remap_eq_ok_iff.mp hσ
  have hnil (h : s.args = []) : t.occurrences = [] :=
    List.subset_nil.mp (hU.references_eq_nil hs h ht ▸ TypeExpr.occurrences_subset_references t)
  obtain ⟨u, hu⟩ := hU.exists_substitute hs ht
  obtain ⟨r, hr, hr'⟩ := TypeExpr.substitute_substitute hargs hnil hu
  exact ⟨u, r, hu, hr, hr'⟩

theorem Coherent.remap_level (hU : U.Coherent) (hs : U.Full s) (hσ : s.remap σ = .ok s')
    {i : Instance} (hi : i ∈ U.supertypes s.definition) :
    ∃ above above', i.remap s.args = .ok above ∧ above.remap σ = .ok above' ∧
      i.remap s'.args = .ok above' := by
  obtain ⟨u, r, hu, hr, hr'⟩ := hU.substitute_level hs hσ (Body.supertype_mem_types hi)
  obtain ⟨above, habove, rfl⟩ := Instance.substitute_toExpr.mp hu
  obtain ⟨above', habove', rfl⟩ := Instance.substitute_toExpr.mp hr
  exact ⟨above, above', habove, habove', Instance.remap_of_substitute_toExpr hr'⟩

theorem Coherent.remap_properties (hU : U.Coherent) (hs : U.Full s) (hσ : s.remap σ = .ok s')
    {types : List (String × TypeExpr)} (ht : ∀ p ∈ types, p ∈ U.properties s.definition) :
    ∃ us rs, Bindings.remap types s.args = .ok us ∧ TypeExpr.Substituted σ us rs ∧
      Bindings.remap types s'.args = .ok rs := by
  simp only [Bindings.remap_eq_ok_iff]
  induction types with
  | nil => exact ⟨[], [], .nil, .nil, .nil⟩
  | cons p rest ih =>
    obtain ⟨hp, hrest⟩ := List.forall_mem_cons.mp ht
    obtain ⟨u, r, hu, hr, hr'⟩ := hU.substitute_level hs hσ (Body.property_mem_types hp)
    obtain ⟨us, rs, hus, hrs, hrs'⟩ := ih hrest
    exact ⟨(p.1, u) :: us, (p.1, r) :: rs, .cons ⟨rfl, hu⟩ hus, .cons ⟨rfl, hr⟩ hrs,
      .cons ⟨rfl, hr'⟩ hrs'⟩

end Universe

end NominalTypes
