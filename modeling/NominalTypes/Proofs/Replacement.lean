import NominalTypes.Proofs.Composition

/-!
# What substitution replaces

References are met in reading order, and each is followed by what its own bound mentions.  Those
outside bounds are what substitution has to find a binding for, and what it replaces.

* `TypeExpr.references_eq_flatMap_occurrences`: reading a type is reading one by one the references
  outside bounds, each with its bound;
* `TypeExpr.substitute_replaces_occurrences`: substitution succeeds when these are bound, fails at
  the first that is not, and leaves in place of each what it is bound to.
-/

namespace NominalTypes

namespace TypeExpr

theorem references_eq_flatMap_occurrences (t : TypeExpr) :
    t.references = t.occurrences.flatMap fun v => v.toExpr.references := by
  have heach {types : List (String × TypeExpr)}
      (ih : ∀ e ∈ types, e.2.references = e.2.occurrences.flatMap fun v => v.toExpr.references) :
      referencesOfEach types =
        (occurrencesOfEach types).flatMap fun v => v.toExpr.references := by
    rw [referencesOfEach_eq_flatMap, occurrencesOfEach_eq_flatMap, List.flatMap_assoc]
    exact List.flatMap_congr ih
  induction t using inductOutsideBounds with
  | inst d args n ih =>
    rw [references, occurrences]
    exact heach ih
  | var x b n =>
    rw [occurrences, List.flatMap_singleton]
    rfl
  | fn params result ihp ihr =>
    rw [references, occurrences, List.flatMap_append, heach ihp, ← ihr]

/-- All that substitution asks for is a binding for each reference outside bounds; an unbound one is
its only fault, and the first of them is reported.  Reading the result is reading one by one, in
place of these references, the types that they are bound to. -/
theorem substitute_replaces_occurrences {σ : Bindings} (hσ : σ ≠ []) (t : TypeExpr) :
    ((∃ r, t.substitute σ = .ok r) ↔ ∀ v ∈ t.occurrences, σ.binds v.name = true) ∧
    (∀ f, t.substitute σ = .error f ↔
      ∃ before v after, t.occurrences = before ++ v :: after ∧
        (∀ w ∈ before, σ.binds w.name = true) ∧ σ.binds v.name = false ∧
        f = .unboundParameter v.name) ∧
    (∀ r, t.substitute σ = .ok r → r.references = t.occurrences.flatMap (broughtIn σ)) ∧
    t.references = t.occurrences.flatMap fun v => v.toExpr.references := by
  rw [substitute_of_ne_nil hσ]
  refine ⟨exists_instantiate_iff, fun f => ?_, fun r hr => references_instantiate hr,
    references_eq_flatMap_occurrences t⟩
  rw [instantiate_eq_error_iff]
  constructor
  · rintro ⟨v, hv, hf⟩
    obtain ⟨before, after, hsplit, hbefore, hunbound⟩ := firstUnbound?_eq_some_iff.mp hv
    exact ⟨before, v, after, hsplit, hbefore, hunbound, hf⟩
  · rintro ⟨before, v, after, hsplit, hbefore, hunbound, hf⟩
    exact ⟨v, firstUnbound?_eq_some_iff.mpr ⟨before, after, hsplit, hbefore, hunbound⟩, hf⟩

end TypeExpr

namespace Forwarding

/-- `T` is bound to a reference that has a bound of its own, `F` to a type without references. -/
def arguments : Bindings := [("T", .var "V" (some (var "U")) false), ("F", name)]

/-- `Pair<A=T?, B=(x: F) -> T>`, where the nullable reference has the bound `X`. -/
def receiver : TypeExpr :=
  .inst pair [("A", .var "T" (some (var "X")) true), ("B", .fn [("x", var "F")] (var "T"))] false

/-- `(x: Pair<A=T, B=Y>) -> Z`. -/
def signature : TypeExpr :=
  .fn [("x", .inst pair [("A", var "T"), ("B", var "Y")] false)] (var "Z")

/-- `X` is read in the receiver, but it stands in a bound and needs no binding; `V` comes in for each
`T`, every time followed by its bound.  In the signature `Y` is the first without a binding. -/
theorem receiver_replaced :
    receiver.references.map (·.name) = ["T", "X", "F", "T"] ∧
    (∃ r, receiver.substitute arguments = .ok r ∧ r.references =
      [⟨"V", some (var "U"), true⟩, ⟨"U", none, false⟩, ⟨"V", some (var "U"), false⟩,
        ⟨"U", none, false⟩]) ∧
    signature.substitute arguments = .error (.unboundParameter "Y") := by
  have hne : arguments ≠ [] := by decide
  obtain ⟨hbound, _, hresult, hread⟩ := TypeExpr.substitute_replaces_occurrences hne receiver
  obtain ⟨_, hfault, _, _⟩ := TypeExpr.substitute_replaces_occurrences hne signature
  obtain ⟨r, hr⟩ := hbound.mpr (by decide)
  refine ⟨by rw [hread]; rfl, ⟨r, hr, (hresult r hr).trans rfl⟩, ?_⟩
  exact (hfault _).mpr ⟨[⟨"T", none, false⟩], ⟨"Y", none, false⟩, [⟨"Z", none, false⟩], rfl,
    by decide, rfl, rfl⟩

end Forwarding

end NominalTypes
