import NominalTypes.Proofs.Contents
import NominalTypes.Proofs.PropertyPaths

/-!
# Where exact arguments come from

Instantiating a closed definition checks that the arguments are those for its parameters, and
nothing changes their names later.  An open definition has no parameters to check against:

* `Session.MadeOpen`: an earlier session instantiated the definition while it was open;
* `Session.Reachable.all_accounted`: every instance of a session has exact arguments or was made
  open;
* `Session.Reachable.supertypes_exact`: so does every parent and every implemented interface;
* `Strays.not_exact`: an instance that was made open, and is extended after its definition closed.
-/

namespace NominalTypes

/-! ## One instantiation -/

theorem Universe.Grows.exact {U V : Universe} (h : U.Grows V) {d : Definition}
    {names : List String} (hd : U.Exact d names) : V.Exact d names := by
  obtain ⟨hclosed, hfull, hdeclared⟩ := hd
  have hp : V.parameters d = U.parameters d := congrArg (·.parameters) (h.body hclosed)
  exact ⟨h.isClosed hclosed, hp ▸ hfull, hp ▸ hdeclared⟩

theorem Instantiation.exact_of_construct {U : Universe} {i : Instantiation} {made : Instance}
    (hclosed : U.isClosed i.definition = true) (h : i.construct U = .ok made) :
    U.Exact i.definition (i.args.map (·.1)) := by
  obtain ⟨hnames, hparameters, _⟩ := construct_eq_ok h
  refine ⟨hclosed, fun p hp => ?_, fun x hx => ?_⟩
  · obtain ⟨argument, hargument, _⟩ := bind_eq_ok_iff.mp (hparameters p hp)
    rw [← Bindings.binds_iff, Bindings.binds]
    unfold Bindings.resolve at hargument
    split at hargument
    · next t ht => rw [ht, Option.isSome_some]
    · cases hargument
  · obtain ⟨a, ha, rfl⟩ := List.mem_map.mp hx
    exact checkNames_eq_ok_iff.mp hnames hclosed a ha

namespace Session

variable {lenient : Bool} {s t : Session}

/-! ## Earlier sessions -/

/-- An instantiation with these arguments succeeded when the definition was still open. -/
def MadeOpen (lenient : Bool) (s : Session) (d : Definition) (names : List String) : Prop :=
  lenient = true ∧ ∃ r, Reachable lenient r ∧ Reaches lenient r s ∧ r.known.isClosed d = false ∧
    ∃ i made, .instantiation i ∈ r.items ∧ i.construct r.known = .ok made ∧ i.definition = d ∧
      i.args.map (·.1) = names

/-- Exact as things stand, or made at a time when nothing could be checked. -/
def Accounted (lenient : Bool) (s : Session) (d : Definition) (names : List String) : Prop :=
  s.known.Exact d names ∨ MadeOpen lenient s d names

theorem Accounted.step (hs : s.WellFormed) (h : Step lenient s t) {d : Definition}
    {names : List String} (hd : Accounted lenient s d names) : Accounted lenient t d names := by
  rcases hd with hexact | ⟨hlenient, r, hr, hreaches, hopen⟩
  · exact .inl ((hs.grows h).exact hexact)
  · exact .inr ⟨hlenient, r, hr, hreaches.step h, hopen⟩

theorem Reachable.accounted_of_construct (h : Reachable lenient s) {i : Instantiation}
    {made : Instance} (hi : .instantiation i ∈ s.items)
    (hclosed : lenient = true ∨ s.known.isClosed i.definition = true)
    (hmade : i.construct s.known = .ok made) :
    Accounted lenient s i.definition (i.args.map (·.1)) := by
  cases hd : s.known.isClosed i.definition with
  | true => exact .inl (i.exact_of_construct hd hmade)
  | false =>
    have hlenient : lenient = true := hclosed.resolve_right (hd ▸ Bool.false_ne_true)
    exact .inr ⟨hlenient, s, h, .refl s, hd, i, made, hi, hmade, rfl, rfl⟩

/-! ## All instances of a session -/

theorem all_empty {P : Definition → Bindings → Prop} : Session.All {} P where
  bodies d t ht := by simp [Universe.body, Universe.body?, Body.types, Body.supertypes] at ht
  items _ hi := absurd hi List.not_mem_nil

theorem Reachable.all_accounted (h : Reachable lenient s) :
    s.All fun d args => Accounted lenient s d (args.map (·.1)) := by
  induction h with
  | refl => exact all_empty
  | @step t u h hstep ih =>
    have hw := Reachable.wellFormed h
    have hc := ih.computes fun i made => Reachable.accounted_of_construct h
    have hall := ih.step hw hc (fun item _ => ih.item_of_substitutes) hstep
    exact hall.imp fun d args => Accounted.step hw hstep

/-- Without instances of open definitions all arguments are exact. -/
theorem Reachable.all_exact (h : Reachable false s) :
    s.All fun d args => s.known.Exact d (args.map (·.1)) := by
  refine h.all_accounted.imp fun d args hd => ?_
  rcases hd with hexact | ⟨hlenient, _⟩
  · exact hexact
  · cases hlenient

/-- A parent or interface binds the parameters of its definition and nothing else, unless it was
made while its definition was open. -/
theorem Reachable.supertypes_exact (h : Reachable lenient s) {d : Definition} {i : Instance}
    (hi : s.known.parent? d = some i ∨ i ∈ s.known.interfaces d) :
    s.known.Exact i.definition (i.args.map (·.1)) ∨
      MadeOpen lenient s i.definition (i.args.map (·.1)) := by
  have hsuper : i ∈ s.known.supertypes d := Universe.mem_supertypes_iff.mpr hi
  have hall := h.all_accounted.bodies d _ (Body.supertype_mem_types hsuper)
  exact (TypeExpr.all_inst.mp hall).1

end Session

/-! ## A stray instance -/

namespace Strays

open Command

/-- A class `Crate<T>` with a property of type `T`, an instance of it without arguments that is made
before it closes, and a class `Bin` that extends this instance afterwards. -/
def commands : List Command := [
  startDraft "Crate" .classKind, addParameter 0 "T", refer 1 "T", addProperty 1 "item" 2, reference 3,
  startInstantiation 0, construct 5, close 4,
  startDraft "Bin" .classKind, inherit 7 6, close 8]

def session : Session := (Session.replay? commands).getD {}

def crate : Instance := ⟨⟨0, ⟨"default", "Crate"⟩, .classKind⟩, [], false⟩

def bin : Definition := ⟨1, ⟨"default", "Bin"⟩, .classKind⟩

theorem reachable : Session.Reachable true session := by
  have h : Session.replay? commands = some session := rfl
  exact Session.reachable_of_replay? h

theorem parent_bin : session.known.parent? bin = some crate := rfl

theorem crate_not_exact : ¬ session.known.Exact crate.definition (crate.args.map (·.1)) := by decide

theorem crate_made_open :
    session.known.parent? bin = some crate ∧
      Session.MadeOpen true session crate.definition (crate.args.map (·.1)) := by
  have h := reachable.supertypes_exact (.inl parent_bin)
  exact ⟨parent_bin, h.resolve_left crate_not_exact⟩

/-- `Bin` is closed, and its parent leaves `T` without an argument. -/
theorem not_exact :
    ¬ ∀ s, Session.Reachable true s → ∀ d ∈ s.known.definitions, s.known.isClosed d = true →
      ∀ i, s.known.parent? d = some i ∨ i ∈ s.known.interfaces d →
        s.known.Exact i.definition (i.args.map (·.1)) := by
  intro h
  have hmem : bin ∈ session.known.definitions := by decide
  exact crate_not_exact (h session reachable bin hmem rfl crate (.inl parent_bin))

end Strays

end NominalTypes
