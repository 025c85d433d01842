import NominalTypes.Proofs.Substitution
import NominalTypes.Universe
import Mathlib.Data.List.Chain

/-!
# The supertype graph

* `Universe.Link`: from a definition to the definition of its parent or of an interface that it
  implements;
* `Universe.Hop`: from a type to one of its declared supertypes, with remapped arguments, and
  `Universe.ParentHop` when that is the parent;
* `Universe.Path`: any number of hops, with all types on the way, both ends included.
-/

namespace NominalTypes

def Body.supertypes (b : Body) : List Instance := b.parent.toList ++ b.interfaces

/-- Steps of a relation one after the other, with all that is passed on the way. -/
inductive Route (R : Instance → Instance → Prop) : Instance → List Instance → Instance → Prop where
  | here (s : Instance) : Route R s [s] s
  | up {s t u : Instance} {nodes : List Instance} :
    R s t → Route R t nodes u → Route R s (s :: nodes) u

namespace Route

variable {R Q : Instance → Instance → Prop} {s t u : Instance} {nodes rest : List Instance}

theorem start_mem (h : Route R s nodes t) : s ∈ nodes := by
  cases h <;> exact List.mem_cons_self

theorem end_mem (h : Route R s nodes t) : t ∈ nodes := by
  induction h with
  | here s => exact List.mem_cons_self
  | up _ _ ih => exact List.mem_cons_of_mem _ ih

theorem imp (h : Route R s nodes t) (hRQ : ∀ a b, R a b → Q a b) : Route Q s nodes t := by
  induction h with
  | here s => exact .here s
  | up hst _ ih => exact .up (hRQ _ _ hst) ih

theorem append (h : Route R s nodes t) (h' : Route R t rest u) :
    Route R s (nodes.dropLast ++ rest) u := by
  induction h with
  | here s => exact h'
  | @up a b c nodes hab hbc ih =>
    have hne : nodes ≠ [] := List.ne_nil_of_mem hbc.start_mem
    rw [List.dropLast_cons_of_ne_nil hne]
    exact .up hab (ih h')

/-- What every step preserves holds all along. -/
theorem forall_mem {P : Instance → Prop} (h : Route R s nodes t) (hs : P s)
    (hR : ∀ a b, R a b → P a → P b) : ∀ n ∈ nodes, P n := by
  induction h with
  | here s => exact fun n hn => by rwa [List.mem_singleton.mp hn]
  | up hst _ ih => exact List.forall_mem_cons.mpr ⟨hs, ih (hR _ _ hst hs)⟩

end Route

namespace Universe

variable {U : Universe} {d e : Definition} {s t : Instance} {nodes : List Instance}

/-- The parent, then the implemented interfaces. -/
def supertypes (U : Universe) (d : Definition) : List Instance := (U.body d).supertypes

def Link (U : Universe) (d e : Definition) : Prop := ∃ i ∈ U.supertypes d, i.definition = e

def ParentHop (U : Universe) (s t : Instance) : Prop :=
  ∃ i, U.parent? s.definition = some i ∧ i.remap s.args = .ok t

def Hop (U : Universe) (s t : Instance) : Prop :=
  ∃ i ∈ U.supertypes s.definition, i.remap s.args = .ok t

abbrev Path (U : Universe) : Instance → List Instance → Instance → Prop := Route U.Hop

theorem mem_supertypes_iff {i : Instance} :
    i ∈ U.supertypes d ↔ U.parent? d = some i ∨ i ∈ U.interfaces d := by
  simp [supertypes, Body.supertypes, parent?, interfaces]

theorem ParentHop.hop (h : U.ParentHop s t) : U.Hop s t := by
  obtain ⟨i, hi, hr⟩ := h
  exact ⟨i, mem_supertypes_iff.mpr (.inl hi), hr⟩

theorem Hop.link (h : U.Hop s t) : U.Link s.definition t.definition := by
  obtain ⟨i, hi, hr⟩ := h
  obtain ⟨args, _, rfl⟩ := Instance.remap_eq_ok_iff.mp hr
  exact ⟨i, hi, rfl⟩

theorem isChain_of_path (h : U.Path s nodes t) :
    (nodes.map (·.definition)).IsChain U.Link := by
  induction h with
  | here s => exact .singleton _
  | up hst h ih =>
    cases h with
    | here t => exact .cons_cons hst.link (.singleton _)
    | up htu h => exact .cons_cons hst.link ih

/-- A path with at least one hop comes back to its start only on a cycle of links. -/
theorem transGen_of_path (h : U.Path s nodes t) :
    s = t ∨ Relation.TransGen U.Link s.definition t.definition := by
  induction h with
  | here s => exact .inl rfl
  | up hst _ ih =>
    rcases ih with rfl | ih
    · exact .inr (.single hst.link)
    · exact .inr (.head hst.link ih)

end Universe

end NominalTypes
