import NominalTypes.Proofs.Assignability
import NominalTypes.Proofs.Lookup
import NominalTypes.Proofs.Replay
import NominalTypes.Proofs.Sessions

/-!
# Queries end

No search for a supertype or for a property goes up more levels than there are declarations, whatever
the limit allows:

* `Universe.Coherent.find_eq`, `Universe.Coherent.allProperties_eq`, `Universe.Coherent.accepts_eq`:
  a limit above the number of declarations might as well be that number, and is never hit;
* `Session.Reachable.supertypes_acyclic`: what makes this so in every reachable session.
-/

namespace NominalTypes

namespace Universe

variable {U : Universe}

theorem Coherent.find_eq (hU : U.Coherent) (limit : Nat) (name : String) {on : Instance}
    (hon : on.definition ∈ U.definitions) :
    U.find limit name on = U.findFrom limit name (min limit U.entries.size) 0 on ∧
      (U.entries.size ≤ limit → ¬ HitsLimit (U.find limit name on)) := by
  have hsize : ¬ HitsLimit (U.findFrom limit name U.entries.size 0 on) := by
    intro h
    obtain ⟨nodes, top, hroute, hlen⟩ := route_of_findFrom_hitsLimit h
    have hle := hU.length_le_of_path hon (hroute.imp fun _ _ => ParentHop.hop)
    omega
  exact eq_min_of_stable (fun _ _ => findFrom_stable) hsize limit

theorem Coherent.allProperties_eq (hU : U.Coherent) (limit : Nat) {on : Instance}
    (hon : on.definition ∈ U.definitions) :
    U.allProperties limit on = U.listFrom limit on (min limit U.entries.size) [] on ∧
      (U.entries.size ≤ limit → ¬ HitsLimit (U.allProperties limit on)) := by
  have hsize : ¬ HitsLimit (U.listFrom limit on U.entries.size [] on) := by
    intro h
    obtain ⟨nodes, top, hroute, hlen⟩ := route_of_listFrom_hitsLimit h
    have hle := hU.length_le_of_path hon (hroute.imp fun _ _ => ParentHop.hop)
    omega
  exact eq_min_of_stable (fun _ _ => listFrom_stable) hsize limit

theorem Coherent.accepts_eq (hU : U.Coherent) (limit : Nat) (target : Instance)
    {source : Instance} (hs : source.definition ∈ U.definitions) :
    U.accepts limit target source =
        U.acceptsFrom limit target (min limit U.entries.size + 1) source ∧
      (U.entries.size ≤ limit → ¬ HitsLimit (U.accepts limit target source)) := by
  have hsize : ¬ HitsLimit (U.acceptsFrom limit target (U.entries.size + 1) source) := by
    intro h
    obtain ⟨nodes, top, hpath, hlen⟩ := path_of_acceptsFrom_hitsLimit h
    have hle := hU.length_le_of_path hs hpath
    omega
  have hstable (n m : Nat) (hnm : n ≤ m)
      (h : ¬ HitsLimit (U.acceptsFrom limit target (n + 1) source)) :
      U.acceptsFrom limit target (m + 1) source = U.acceptsFrom limit target (n + 1) source :=
    acceptsFrom_stable (by omega) h
  exact eq_min_of_stable hstable hsize limit

end Universe

namespace Session

variable {lenient : Bool} {S : Session}

/-- Supertypes are closed, no definition is above itself, the loop over property names ends without
a bound, and a limit matters to the other searches only below the number of declarations. -/
theorem Reachable.supertypes_acyclic (h : Reachable lenient S) :
    (∀ d ∈ S.known.definitions, S.known.isClosed d = true →
      ∀ i, S.known.parent? d = some i ∨ i ∈ S.known.interfaces d →
        i.definition ∈ S.known.definitions ∧ S.known.isClosed i.definition = true) ∧
    (∀ d, ¬ Relation.TransGen S.known.Link d d) ∧
    (∀ d ∈ S.known.definitions, ∃ names, S.known.Collects (some d) [] names ∧
      ∀ result, S.known.Collects (some d) [] result →
        result = names ∧ result = S.known.propertyNames d) ∧
    ∀ (limit : Nat) (s : Instance), s.definition ∈ S.known.definitions →
      (∀ name,
        S.known.find limit name s =
          S.known.findFrom limit name (min limit S.known.entries.size) 0 s ∧
        (S.known.entries.size ≤ limit → ¬ HitsLimit (S.known.find limit name s))) ∧
      (S.known.allProperties limit s =
          S.known.listFrom limit s (min limit S.known.entries.size) [] s ∧
        (S.known.entries.size ≤ limit → ¬ HitsLimit (S.known.allProperties limit s))) ∧
      ∀ target,
        S.known.accepts limit target s =
          S.known.acceptsFrom limit target (min limit S.known.entries.size + 1) s ∧
        (S.known.entries.size ≤ limit → ¬ HitsLimit (S.known.accepts limit target s)) := by
  have hU := h.wellFormed.coherent
  refine ⟨?_, hU.not_transGen_link, ?_, ?_⟩
  · intro d _ _ i hi
    have hmem := Universe.mem_supertypes_iff.mpr hi
    have hadmits := Universe.admits_toExpr.mp (hU.admits_of_mem_supertypes hmem)
    exact ⟨hadmits.1, hU.closed_of_mem_supertypes hmem⟩
  · intro d hd
    refine ⟨S.known.propertyNames d, (hU.collects_iff hd).mpr rfl, ?_⟩
    intro result hresult
    have heq := (hU.collects_iff hd).mp hresult
    exact ⟨heq, heq⟩
  · intro limit s hs
    exact ⟨fun name => hU.find_eq limit name hs, hU.allProperties_eq limit hs,
      fun target => hU.accepts_eq limit target hs⟩

end Session

namespace Sample

theorem acyclic : Session.Reachable true session ∧
    session.known.Link drawer.definition cell.definition ∧
      ∀ d, ¬ Relation.TransGen session.known.Link d d := by
  have hlink : session.known.Link drawer.definition cell.definition :=
    ⟨cell, List.mem_singleton.mpr rfl, rfl⟩
  exact ⟨reachable, hlink, reachable.supertypes_acyclic.2.1⟩

end Sample

end NominalTypes
