import NominalTypes.Proofs.Requirements
import NominalTypes.Proofs.Specialization.Lookup
import NominalTypes.Proofs.Subtyping

/-!
# Conformance of instances

A definition is checked against its interfaces once, while its own variables stand in the types.
The check holds good for every instance:

* `Session.Reachable.conforms_instance`: what an interface requires, seen from an instance of the
  definition, is declared by the definition, seen from that instance.
-/

namespace NominalTypes

namespace Session

variable {lenient : Bool} {S : Session}

/-- `checked` is the limit at which the declaration was compared with what `i` requires. -/
theorem Reachable.conforms_instance (h : Reachable lenient S) {s i : Instance}
    (hs : .type s.toExpr ∈ S.items) (hfull : S.known.Full s)
    (hi : i ∈ S.known.interfaces s.definition)
    (hifull : ∀ nodes top, Route S.known.ParentHop i nodes top → S.known.Full top)
    {checked : Nat} {required : List (String × TypeExpr)}
    (hrequired : S.known.allProperties checked i = .ok required)
    (hdeclared : ∀ r ∈ required, declares (S.known.properties s.definition) r.1 r.2 = true) :
    ∃ seen, i.remap s.args = .ok seen ∧
      ∀ limit ps, S.known.allProperties limit i = .ok ps →
        ∃ resolved, S.known.allProperties limit seen = .ok resolved ∧
          ∀ r ∈ resolved, ∃ p ∈ S.known.properties s.definition, p.1 = r.1 ∧
            ∃ t, p.2.substitute s.args = .ok t ∧ t.sameAs r.2 = true := by
  have hU := h.wellFormed.coherent
  have hargs := (Universe.admits_toExpr.mp (h.admits hs)).2
  have hrefl := Bindings.sameAs_refl hargs.1 hargs.distinct
  have hmem := Universe.mem_supertypes_iff.mpr (.inr hi)
  have hiargs := (Universe.admits_toExpr.mp (hU.admits_of_mem_supertypes hmem)).2
  obtain ⟨seen, hseen⟩ := hU.exists_remap hfull hmem
  refine ⟨seen, hseen, fun limit ps hps => ?_⟩
  obtain rfl := Universe.allProperties_unique hrequired hps
  have halike : Alike (TypeExpr.Substituted s.args) (S.known.allProperties limit i)
      (S.known.allProperties limit seen) := hU.listFrom_alike hifull hseen
  obtain ⟨resolved, hresolved, hsub⟩ := halike.exists_ok hps
  refine ⟨resolved, hresolved, fun r hr => ?_⟩
  obtain ⟨q, hq, hname, hqr⟩ := hsub.exists_of_mem hr
  obtain ⟨p, hp, hpq, hsame⟩ := declares_iff.mp (hdeclared q hq)
  obtain ⟨t, ht⟩ := hU.exists_substitute hfull (Body.property_mem_types hp)
  obtain ⟨u, hu, htu⟩ := TypeExpr.substitute_congr (hU.admits_of_mem_properties hp).distinct
    (hU.admits_listed hiargs hps hq).distinct hsame hrefl ht
  rw [hqr] at hu
  cases hu
  exact ⟨p, hp, hpq.trans hname.symm, t, ht, htu⟩

end Session

namespace Shelves

/-- What `Source<T=U>` requires of `Shelf<U>`. -/
def required : List (String × TypeExpr) := [
  ("rest", (source (var "U")).toExpr), ("next", .fn [("x", (var "U").toNullable)] (var "U")),
  ("item", (var "U").toNullable)]

theorem shelf_mem : .type (shelf name).toExpr ∈ session.items :=
  List.mem_cons_of_mem _ (Session.mem_of_instance? (n := 55) (by cbv))

theorem shelf_conforms :
    session.known.allProperties 1 (source (var "U")) = .ok required ∧
    ∃ resolved, session.known.allProperties 1 (source name) = .ok resolved ∧
      ∀ r ∈ resolved, ∃ p ∈ session.known.properties (shelf name).definition, p.1 = r.1 ∧
        ∃ t, p.2.substitute (shelf name).args = .ok t ∧ t.sameAs r.2 = true := by
  have hfull : session.known.Full (shelf name) := by decide
  have hi : source (var "U") ∈ session.known.interfaces (shelf name).definition :=
    List.mem_singleton.mpr rfl
  have hifull (nodes : List Instance) (top : Instance)
      (h : Route session.known.ParentHop (source (var "U")) nodes top) : session.known.Full top :=
    full_of_path (by decide) (by decide) (h.imp fun _ _ => Universe.ParentHop.hop)
  have hrequired : session.known.allProperties 1 (source (var "U")) = .ok required := rfl
  have hdeclared : ∀ r ∈ required,
      declares (session.known.properties (shelf name).definition) r.1 r.2 = true := by decide
  obtain ⟨seen, hseen, hresolved⟩ :=
    reachable.conforms_instance shelf_mem hfull hi hifull hrequired hdeclared
  cases hseen
  exact ⟨hrequired, hresolved 1 required hrequired⟩

end Shelves

end NominalTypes
