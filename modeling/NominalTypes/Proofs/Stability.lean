import NominalTypes.Conformance
import NominalTypes.Proofs.Subtyping

/-!
# Answers that stay

A search starts at one definition and only ever looks into the bodies of this definition and of
those above it; the arguments and the types of properties are copied, not looked into.

* `Universe.Agrees`: two universes with the same bodies for all definitions of a set that nothing
  leads out of;
* `Universe.Agrees.find`, `Universe.Agrees.allProperties`, `Universe.Agrees.accepts`: the same
  answers for all types of these definitions;
* `Universe.Grows.agrees`: the closed definitions of a coherent universe are such a set;
* `Session.Reachable.answers_stable`: what was answered about a type of a closed definition is
  answered in every later session.
-/

namespace NominalTypes

namespace Universe

/-- The same bodies on a set of definitions that holds the supertypes of its members. -/
structure Agrees (U V : Universe) (P : Definition → Prop) : Prop where
  body : ∀ d, P d → V.body d = U.body d
  above : ∀ d, P d → ∀ i ∈ U.supertypes d, P i.definition

variable {U V : Universe} {P : Definition → Prop} {d : Definition} {on source : Instance}

namespace Agrees

theorem parent? (h : U.Agrees V P) (hd : P d) : V.parent? d = U.parent? d :=
  congrArg (·.parent) (h.body d hd)

theorem interfaces (h : U.Agrees V P) (hd : P d) : V.interfaces d = U.interfaces d :=
  congrArg (·.interfaces) (h.body d hd)

theorem properties (h : U.Agrees V P) (hd : P d) : V.properties d = U.properties d :=
  congrArg (·.properties) (h.body d hd)

theorem remap (h : U.Agrees V P) (hd : P d) {i above : Instance} {outer : Bindings}
    (hi : i ∈ U.supertypes d) (hr : i.remap outer = .ok above) : P above.definition := by
  rw [Instance.definition_remap hr]
  exact h.above d hd i hi

/-! ## The searches -/

theorem findFrom (h : U.Agrees V P) (hon : P on.definition) (limit : Nat) (name : String)
    (hops depth : Nat) :
    V.findFrom limit name hops depth on = U.findFrom limit name hops depth on := by
  have hown (on : Instance) (hon : P on.definition) :
      V.ownProperty? on.definition name = U.ownProperty? on.definition name := by
    rw [ownProperty?, h.properties hon, ← ownProperty?]
  induction hops generalizing depth on with
  | zero => rw [findFrom_eq, findFrom_eq, hown on hon, h.parent? hon]
  | succ hops ih =>
    rw [findFrom_eq, findFrom_eq, hown on hon, h.parent? hon]
    cases U.ownProperty? on.definition name with
    | some own => rfl
    | none =>
      cases hp : U.parent? on.definition with
      | none => rfl
      | some parent =>
        refine bind_congr_ok fun above hr => ?_
        exact ih (h.remap hon (mem_supertypes_iff.mpr (.inl hp)) hr) (depth + 1)

theorem find (h : U.Agrees V P) (hon : P on.definition) (limit : Nat) (name : String) :
    V.find limit name on = U.find limit name on :=
  h.findFrom hon limit name limit 0

theorem listFrom (h : U.Agrees V P) (hon : P on.definition) (limit : Nat) (start : Instance)
    (hops : Nat) (seen : List String) :
    V.listFrom limit start hops seen on = U.listFrom limit start hops seen on := by
  have hvisible (seen : List String) (on : Instance) (hon : P on.definition) :
      V.visible seen on.definition = U.visible seen on.definition := by
    rw [visible, h.properties hon, ← visible]
  induction hops generalizing seen on with
  | zero => rw [listFrom_eq, listFrom_eq, hvisible seen on hon, h.parent? hon]
  | succ hops ih =>
    rw [listFrom_eq, listFrom_eq, hvisible seen on hon, h.parent? hon]
    refine bind_congr_ok fun level _ => ?_
    cases hp : U.parent? on.definition with
    | none => rfl
    | some parent =>
      refine bind_congr_ok fun above hr => ?_
      have habove := h.remap hon (mem_supertypes_iff.mpr (.inl hp)) hr
      simp only [ih habove]

theorem allProperties (h : U.Agrees V P) (hon : P on.definition) (limit : Nat) :
    V.allProperties limit on = U.allProperties limit on :=
  h.listFrom hon limit on limit []

theorem conform (h : U.Agrees V P) {interfaces : List Instance}
    (hi : ∀ i ∈ interfaces, P i.definition) (limit : Nat) (name : String)
    (properties : List (String × TypeExpr)) :
    V.conform limit name interfaces properties = U.conform limit name interfaces properties := by
  have hrequired : V.requirements limit name interfaces = U.requirements limit name interfaces := by
    refine foldlM_congr (fun i hmem required => ?_) []
    rw [h.allProperties (hi i hmem)]
  rw [Universe.conform, Universe.conform, hrequired]

theorem acceptsFrom (h : U.Agrees V P) (hs : P source.definition) (limit : Nat)
    (target : Instance) (levels : Nat) :
    V.acceptsFrom limit target levels source = U.acceptsFrom limit target levels source := by
  induction levels generalizing source with
  | zero => rfl
  | succ levels ih =>
    have hcandidates : V.candidates target.definition source.definition =
        U.candidates target.definition source.definition := by
      rw [candidates, h.parent? hs, h.interfaces hs, ← candidates]
    cases hn : source.nullable && !target.nullable with
    | true => rw [acceptsFrom_nullable hn, acceptsFrom_nullable hn]
    | false =>
      cases hd : target.definition.sameAs source.definition with
      | true => rw [acceptsFrom_reached hn hd, acceptsFrom_reached hn hd]
      | false =>
        rw [acceptsFrom_up hn hd, acceptsFrom_up hn hd, hcandidates]
        refine anyM_congr fun i hi => bind_congr_ok fun above hr => ?_
        exact ih (h.remap hs (mem_supertypes_of_mem_candidates hi) hr)

theorem accepts (h : U.Agrees V P) (hs : P source.definition) (limit : Nat) (target : Instance) :
    V.accepts limit target source = U.accepts limit target source :=
  h.acceptsFrom hs limit target (limit + 1)

theorem collects (h : U.Agrees V P) {current : Option Definition} {names result : List String}
    (hcurrent : ∀ d, current = some d → P d) (hc : U.Collects current names result) :
    V.Collects current names result := by
  induction hc with
  | done names => exact .done names
  | @level d names result _ ih =>
    have hd := hcurrent d rfl
    refine .level ?_
    rw [h.parent? hd, h.properties hd]
    refine ih fun e he => ?_
    obtain ⟨i, hi, rfl⟩ := Option.map_eq_some_iff.mp he
    exact h.above d hd i (mem_supertypes_iff.mpr (.inl hi))

end Agrees

/-! ## Closed definitions -/

theorem Grows.agrees (hU : U.Coherent) (h : U.Grows V) :
    U.Agrees V fun d => U.isClosed d = true where
  body _ hd := h.body hd
  above _ _ _ hi := hU.closed_of_mem_supertypes hi

/-- Names are gathered under a bound that grows with the universe, so it is the loop without a bound
that carries over. -/
theorem Agrees.propertyNames (h : U.Agrees V P) (hU : U.Coherent) (hV : V.Coherent) (hd : P d)
    (hmem : d ∈ U.definitions) (hmem' : d ∈ V.definitions) :
    V.propertyNames d = U.propertyNames d := by
  have hcollects : U.Collects (some d) [] (U.propertyNames d) := (hU.collects_iff hmem).mpr rfl
  have hcollects' := h.collects (fun e he => Option.some.inj he ▸ hd) hcollects
  exact ((hV.collects_iff hmem').mp hcollects').symm

end Universe

namespace Session

variable {lenient : Bool} {S T : Session}

/-- Whatever happens in between, closings of definitions that are mentioned included. -/
theorem Reachable.answers_stable (hS : Reachable lenient S) (hST : Reaches lenient S T)
    {s : Instance} (hs : .type s.toExpr ∈ S.items) (hclosed : S.known.isClosed s.definition = true)
    (t : Instance) (name : String) (limit : Nat) :
    T.known.find limit name s = S.known.find limit name s ∧
      T.known.allProperties limit s = S.known.allProperties limit s ∧
      T.known.propertyNames s.definition = S.known.propertyNames s.definition ∧
      T.known.accepts limit t s = S.known.accepts limit t s := by
  have hgrows := hST.grows hS.wellFormed
  have hagrees := hgrows.agrees hS.wellFormed.coherent
  have hmem := hS.definition_mem hs
  refine ⟨hagrees.find hclosed limit name, hagrees.allProperties hclosed limit, ?_,
    hagrees.accepts hclosed limit t⟩
  exact hagrees.propertyNames hS.wellFormed.coherent (hST.wellFormed hS.wellFormed).coherent hclosed
    hmem (hgrows.definitions _ hmem)

end Session

namespace Shipments

open Command

/-- A class `Label` that is handed out open, and a closed class `Crate<T>` with a property of type
`T` and one of type `Label`; then an instance of it with a `Label` as argument. -/
def before : List Command := [
  startDraft "Label" .classKind, reference 0, startInstantiation 0, construct 2,
  startDraft "Crate" .classKind, addParameter 4 "T", refer 5 "T", addProperty 5 "item" 6,
  addProperty 7 "label" 3, close 8, startInstantiation 1, bind 9 "T" 3, construct 10]

/-- `Label` gets a property and is closed. -/
def after : List Command := [addProperty 1 "text" 3, close 12]

def early : Session := (Session.replay? before).getD {}

def late : Session := (after.foldlM Session.execute? early).getD {}

def label : Instance := ⟨⟨0, ⟨"default", "Label"⟩, .classKind⟩, [], false⟩

def crate : Instance := ⟨⟨1, ⟨"default", "Crate"⟩, .classKind⟩, [("T", label.toExpr)], false⟩

theorem reachable : Session.Reachable true early := by
  have h : Session.replay? before = some early := rfl
  exact Session.reachable_of_replay? h

theorem reaches : Session.Reaches true early late := by
  have h : after.foldlM Session.execute? early = some late := rfl
  exact Session.reaches_of_foldlM (fun _ _ _ => Session.step_of_execute? (.inl rfl)) h

theorem crate_mem : .type crate.toExpr ∈ early.items := Session.mem_of_instance? (n := 11) rfl

/-- `Label` is closed in between, which changes what is known of it and nothing about the crate. -/
theorem crate_answers_stable :
    early.known.isClosed label.definition = false ∧
      late.known.propertyNames label.definition = ["text"] ∧
      early.known.isClosed crate.definition = true ∧
      late.known.find 3 "item" crate = early.known.find 3 "item" crate ∧
      late.known.allProperties 3 crate = early.known.allProperties 3 crate ∧
      late.known.propertyNames crate.definition = early.known.propertyNames crate.definition ∧
      late.known.accepts 3 label crate = early.known.accepts 3 label crate := by
  refine ⟨rfl, rfl, rfl, ?_⟩
  exact reachable.answers_stable reaches crate_mem rfl label "item" 3

end Shipments

end NominalTypes
