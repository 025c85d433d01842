import NominalTypes.Proofs.Assignability
import NominalTypes.Proofs.Replay
import NominalTypes.Proofs.Sessions

/-!
# Subtyping in reachable sessions

For the constructed types of a session in which no two declarations share a qualified name:

* `Session.Reachable.accepts_iff_fits`: one type accepts another exactly when a supertype path leads
  to it;
* `Session.Reachable.accepts_partialOrder`: this is reflexive, antisymmetric up to equality, and
  transitive as far as the depth limit and missing arguments let it be seen.
-/

namespace NominalTypes

namespace Session

variable {lenient : Bool} {S : Session}

theorem Reachable.admits (h : Reachable lenient S) {t : TypeExpr} (ht : .type t ∈ S.items) :
    S.known.Admits t := h.wellFormed.items (.type t) ht

theorem Reachable.definition_mem (h : Reachable lenient S) {i : Instance}
    (hi : .type i.toExpr ∈ S.items) : i.definition ∈ S.known.definitions :=
  (Universe.admits_toExpr.mp (h.admits hi)).1

/-! ## Paths -/

theorem Reachable.accepts_iff_fits (h : Reachable lenient S) (hu : S.known.Unambiguous)
    {target source : Instance} (ht : .type target.toExpr ∈ S.items)
    (hs : .type source.toExpr ∈ S.items) {limit : Nat} {answer : Bool}
    (ha : S.known.accepts limit target source = .ok answer) :
    answer = true ↔ S.known.Fits target source :=
  h.wellFormed.coherent.accepts_eq_iff hu (h.definition_mem ht) (h.definition_mem hs) ha

end Session

namespace Sample

theorem unambiguous : session.known.Unambiguous := by
  unfold Universe.Unambiguous
  decide

theorem drawer_fits_box :
    session.known.accepts 2 box drawer = .ok true ∧ session.known.Fits box drawer := by
  have haccepts : session.known.accepts 2 box drawer = .ok true := rfl
  refine ⟨haccepts, ?_⟩
  exact (reachable.accepts_iff_fits unambiguous box_mem drawer_mem haccepts).mp rfl

end Sample

/-! ## Order -/

namespace Session

variable {lenient : Bool} {S : Session}

/-- A path of `n` types has `n - 1` hops. -/
theorem Reachable.accepts_partialOrder (h : Reachable lenient S) (hu : S.known.Unambiguous)
    (limit : Nat) {a b c : Instance} (ha : .type a.toExpr ∈ S.items)
    (hb : .type b.toExpr ∈ S.items) (hc : .type c.toExpr ∈ S.items) :
    S.known.accepts limit a a = .ok true ∧
    (S.known.accepts limit a b = .ok true → S.known.accepts limit b a = .ok true →
      a.toExpr.sameAs b.toExpr = true) ∧
    (S.known.accepts limit a b = .ok true → S.known.accepts limit b c = .ok true →
      S.known.accepts limit a c ≠ .ok false ∧
      ((∀ nodes top, S.known.Path c nodes top → nodes.length - 1 ≤ limit) →
        (∀ nodes top, S.known.Path c nodes top → S.known.Full top) →
        S.known.accepts limit a c = .ok true)) := by
  have hU := h.wellFormed.coherent
  obtain ⟨hda, haargs⟩ := Universe.admits_toExpr.mp (h.admits ha)
  have hdb := h.definition_mem hb
  have hdc := h.definition_mem hc
  refine ⟨?_, ?_, ?_⟩
  · have hrefl := Bindings.sameAs_refl haargs.1 haargs.distinct
    have hn : (a.nullable && !a.nullable) = false := by simp
    rw [Universe.accepts, Universe.acceptsFrom_reached hn (Definition.sameAs_iff.mpr rfl), hrefl]
  · intro hab hba
    have hfab := hU.fits_of_acceptsFrom hu hda hdb hab
    have hfba := hU.fits_of_acceptsFrom hu hdb hda hba
    exact hU.sameAs_of_fits hfab hfba
  · intro hab hbc
    have hfab := hU.fits_of_acceptsFrom hu hda hdb hab
    have hfbc := hU.fits_of_acceptsFrom hu hdb hdc hbc
    have hfac := hU.fits_trans hfab hfbc
    have hne : S.known.accepts limit a c ≠ .ok false :=
      fun hf => hU.not_fits_of_acceptsFrom hu hda hdc hf hfac
    refine ⟨hne, ?_⟩
    intro hlen hfull
    have hlevels (nodes : List Instance) (top : Instance) (hpath : S.known.Path c nodes top) :
        nodes.length ≤ limit + 1 := by
      have hle := hlen nodes top hpath
      omega
    obtain ⟨r, hr⟩ : ∃ r, S.known.accepts limit a c = .ok r :=
      hU.exists_acceptsFrom_eq_ok hlevels hfull
    cases r with
    | true => exact hr
    | false => exact absurd hr hne

end Session

namespace Sample

theorem full_of_path {nodes : List Instance} {top : Instance}
    (h : session.known.Path drawer nodes top) : session.known.Full top := by
  have hall : ∀ d ∈ session.known.definitions, ∀ i ∈ session.known.supertypes d,
      session.known.Full i := by decide
  exact reachable.wellFormed.coherent.full_of_path hall (reachable.definition_mem drawer_mem)
    (by decide) h

theorem accepts_box_cell_drawer :
    session.known.accepts 3 box cell = .ok true ∧ session.known.accepts 3 cell drawer = .ok true ∧
      session.known.accepts 3 box drawer = .ok true := by
  obtain ⟨_, _, htrans⟩ :=
    reachable.accepts_partialOrder unambiguous 3 box_mem cell_mem drawer_mem
  refine ⟨rfl, rfl, (htrans rfl rfl).2 (fun nodes top hpath => ?_) fun _ _ => full_of_path⟩
  have hsize : session.known.entries.size = 4 := rfl
  have hle := reachable.wellFormed.coherent.length_le_of_path (reachable.definition_mem drawer_mem)
    hpath
  omega

end Sample

end NominalTypes
