import NominalTypes.Proofs.Outcome
import NominalTypes.Session
import Mathlib.Computability.Primrec.List
import Mathlib.Data.List.Permutation

/-!
# Sessions from commands

A session can be built by a list of commands.  A command names what it works on by its place, the
oldest item and the oldest declaration being number 0.

* `Session.outcome?`: what comes of a command that leaves the universe alone, be it a fault;
* `Session.execute?`: one command, which gives nothing if the operation fails;
* `Session.step_of_execute?`, `Session.reachable_of_replay?`: a command that succeeds is a step, so
  what a list of commands builds is reachable;
* `Session.replayClosed?`, `Session.reachable_of_replayClosed?`: the same without instances of open
  definitions;
* `Session.reachable_getD`: commands that are only known to succeed.

From Mathlib come only the equations that evaluating a list of commands uses.
-/

namespace NominalTypes

inductive Command where
  | startDraft (name : String) (kind : Kind)
  | inherit (draft parent : Nat)
  | implement (draft interface : Nat)
  | addParameter (draft : Nat) (name : String)
  | addBoundedParameter (draft : Nat) (name : String) (bound : Nat)
  | addProperty (draft : Nat) (name : String) (type : Nat)
  | refer (draft : Nat) (name : String)
  | reference (draft : Nat)
  | close (draft : Nat)
  | startInstantiation (definition : Nat)
  | bind (instantiation : Nat) (parameter : String) (type : Nat)
  | construct (instantiation : Nat)
  | var (name : String)
  | boundedVar (name : String) (bound : Nat)
  | fn (params : List (String × Nat)) (result : Nat)
  | nullable (type : Nat)
  | ofEntries (entries : List (String × Nat))
  | substitute (type bindings : Nat)

def Item.bindings? : Item → Option Bindings
  | .bindings b => some b
  | _ => none

namespace Session

/-! ## Items by number -/

def draft? (s : Session) (n : Nat) : Option Draft :=
  match s.items.reverse[n]? with
  | some (.draft draft) => some draft
  | _ => none

def instantiation? (s : Session) (n : Nat) : Option Instantiation :=
  match s.items.reverse[n]? with
  | some (.instantiation i) => some i
  | _ => none

def type? (s : Session) (n : Nat) : Option TypeExpr :=
  match s.items.reverse[n]? with
  | some (.type t) => some t
  | _ => none

def instance? (s : Session) (n : Nat) : Option Instance := (s.type? n).bind (·.asInstance?)

def bindings? (s : Session) (n : Nat) : Option Bindings := s.items.reverse[n]?.bind (·.bindings?)

def types? (s : Session) : List (String × Nat) → Option (List (String × TypeExpr))
  | [] => some []
  | (name, n) :: rest => do return (name, ← s.type? n) :: (← s.types? rest)

variable {s t : Session} {n : Nat}

theorem mem_of_reverse {item : Item} (h : s.items.reverse[n]? = some item) : item ∈ s.items :=
  List.mem_reverse.mp (List.mem_of_getElem? h)

theorem mem_of_draft? {draft : Draft} (h : s.draft? n = some draft) :
    .draft draft ∈ s.items := by
  unfold draft? at h
  split at h
  · next hn =>
    cases h
    exact mem_of_reverse hn
  · cases h

theorem mem_of_instantiation? {i : Instantiation} (h : s.instantiation? n = some i) :
    .instantiation i ∈ s.items := by
  unfold instantiation? at h
  split at h
  · next hn =>
    cases h
    exact mem_of_reverse hn
  · cases h

theorem mem_of_type? {type : TypeExpr} (h : s.type? n = some type) : .type type ∈ s.items := by
  unfold type? at h
  split at h
  · next hn =>
    cases h
    exact mem_of_reverse hn
  · cases h

theorem mem_of_instance? {i : Instance} (h : s.instance? n = some i) :
    .type i.toExpr ∈ s.items := by
  obtain ⟨type, ht, hi⟩ := Option.bind_eq_some_iff.mp h
  cases type with
  | inst d args nullable =>
    cases hi
    exact mem_of_type? ht
  | var x b nullable => cases hi
  | fn params result => cases hi

theorem mem_of_bindings? {b : Bindings} (h : s.bindings? n = some b) : .bindings b ∈ s.items := by
  obtain ⟨item, hitem, hb⟩ := Option.bind_eq_some_iff.mp h
  cases item with
  | bindings c =>
    cases hb
    exact mem_of_reverse hitem
  | _ => cases hb

theorem mem_of_types? {numbers : List (String × Nat)} {types : List (String × TypeExpr)}
    (h : s.types? numbers = some types) : ∀ p ∈ types, .type p.2 ∈ s.items := by
  induction numbers generalizing types with
  | nil =>
    cases h
    exact fun p hp => absurd hp List.not_mem_nil
  | cons e rest ih =>
    simp only [types?, Option.bind_eq_bind, Option.bind_eq_some_iff, Option.pure_def,
      Option.some.injEq] at h
    obtain ⟨type, ht, tail, htail, rfl⟩ := h
    exact List.forall_mem_cons.mpr ⟨mem_of_type? ht, ih htail⟩

/-! ## Commands -/

/-- What comes of a command that leaves the universe alone, if what it works on is there. -/
def outcome? (s : Session) : Command → Option (Except Fault Item)
  | .startDraft name kind => some (.ok (.draft (Draft.start name kind)))
  | .inherit draft parent => do
    return ((← s.draft? draft).inherit s.known (← s.instance? parent)).map .draft
  | .implement draft interface => do
    return ((← s.draft? draft).implement s.known (← s.instance? interface)).map .draft
  | .addParameter draft name => do
    return ((← s.draft? draft).addParameter ⟨name, none⟩).map .draft
  | .addBoundedParameter draft name bound => do
    return ((← s.draft? draft).addParameter ⟨name, some (← s.type? bound)⟩).map .draft
  | .addProperty draft name type => do
    return ((← s.draft? draft).addProperty name (← s.type? type)).map .draft
  | .refer draft name => do return ((← s.draft? draft).refer name).map .type
  | .reference _ => none
  | .close _ => none
  | .startInstantiation d => do
    return .ok (.instantiation (Instantiation.start (← s.known.definitions[d]?)))
  | .bind i parameter type => do
    return ((← s.instantiation? i).bind parameter (← s.type? type)).map .instantiation
  | .construct i => do
    return ((← s.instantiation? i).construct s.known).map fun made => .type made.toExpr
  | .var name => some (.ok (.type (.var name none false)))
  | .boundedVar name bound => do return .ok (.type (.var name (some (← s.type? bound)) false))
  | .fn params result => do return .ok (.type (.fn (← s.types? params) (← s.type? result)))
  | .nullable type => do return .ok (.type (← s.type? type).toNullable)
  | .ofEntries entries => do return .ok (.bindings (Bindings.ofEntries (← s.types? entries)))
  | .substitute type bindings => do
    return ((← s.type? type).substitute (← s.bindings? bindings)).map .type

def execute? (s : Session) : Command → Option Session
  | .reference draft => do
    let (_, draft, U) := (← s.draft? draft).reference s.known
    return ⟨U, .draft draft :: s.items⟩
  | .close draft => do
    let (_, U) ← ((← s.draft? draft).construct s.known).toOption
    return ⟨U, s.items⟩
  | command => do return ⟨s.known, (← (← s.outcome? command).toOption) :: s.items⟩

/-- All commands, from a session with nothing in it. -/
def replay? (commands : List Command) : Option Session := commands.foldlM execute? {}

/-- Whether the command instantiates closed definitions only. -/
def sparesOpen (s : Session) : Command → Bool
  | .construct i => (s.instantiation? i).all fun i => s.known.isClosed i.definition
  | _ => true

def executeClosed? (s : Session) (command : Command) : Option Session :=
  if s.sparesOpen command then s.execute? command else none

def replayClosed? (commands : List Command) : Option Session := commands.foldlM executeClosed? {}

theorem eq_ok_of_toOption {α : Type} {r : Except Fault α} {a : α} (h : r.toOption = some a) :
    r = .ok a := by
  cases r with
  | error e => cases h
  | ok b =>
    cases h
    rfl

variable {lenient : Bool} {command : Command}

theorem makes_of_outcome? {item : Item} (hopen : lenient = true ∨ s.sparesOpen command = true)
    (h : s.outcome? command = some (.ok item)) : Makes lenient s.known s.items item := by
  cases command <;>
    simp only [outcome?, Option.bind_eq_bind, Option.bind_eq_some_iff, Option.pure_def,
      Option.some.injEq, map_eq_ok_iff, Except.ok.injEq, reduceCtorEq] at h
  case startDraft name kind =>
    subst h
    exact .startDraft name kind
  case inherit =>
    obtain ⟨draft, hd, parent, hp, changed, hc, rfl⟩ := h
    exact .inherit (mem_of_draft? hd) (mem_of_instance? hp) hc
  case implement =>
    obtain ⟨draft, hd, interface, hi, changed, hc, rfl⟩ := h
    exact .implement (mem_of_draft? hd) (mem_of_instance? hi) hc
  case addParameter =>
    obtain ⟨draft, hd, changed, hc, rfl⟩ := h
    exact .addParameter (mem_of_draft? hd) hc
  case addBoundedParameter =>
    obtain ⟨draft, hd, bound, hb, changed, hc, rfl⟩ := h
    exact .addBoundedParameter (mem_of_draft? hd) (mem_of_type? hb) hc
  case addProperty =>
    obtain ⟨draft, hd, type, ht, changed, hc, rfl⟩ := h
    exact .addProperty (mem_of_draft? hd) (mem_of_type? ht) hc
  case refer =>
    obtain ⟨draft, hd, type, ht, rfl⟩ := h
    exact .refer (mem_of_draft? hd) ht
  case startInstantiation =>
    obtain ⟨d, hd, rfl⟩ := h
    exact .startInstantiation (List.mem_of_getElem? hd)
  case bind =>
    obtain ⟨i, hi, type, ht, changed, hc, rfl⟩ := h
    exact .bind (mem_of_instantiation? hi) (mem_of_type? ht) hc
  case construct =>
    obtain ⟨i, hi, made, hm, rfl⟩ := h
    rw [sparesOpen, hi, Option.all_some] at hopen
    exact .construct (mem_of_instantiation? hi) hopen hm
  case var name =>
    subst h
    exact .var name
  case boundedVar name _ =>
    obtain ⟨bound, hb, rfl⟩ := h
    exact .boundedVar name (mem_of_type? hb)
  case fn =>
    obtain ⟨params, hp, result, hr, rfl⟩ := h
    exact .fn (mem_of_types? hp) (mem_of_type? hr)
  case nullable =>
    obtain ⟨type, ht, rfl⟩ := h
    exact .nullable (mem_of_type? ht)
  case ofEntries =>
    obtain ⟨entries, he, rfl⟩ := h
    exact .ofEntries (mem_of_types? he)
  case substitute =>
    obtain ⟨type, ht, b, hb, result, hr, rfl⟩ := h
    exact .substitute (mem_of_type? ht) (mem_of_bindings? hb) hr

theorem refuses_of_outcome? {fault : Fault} (h : s.outcome? command = some (.error fault)) :
    Refuses s.known s.items fault := by
  cases command <;>
    simp only [outcome?, Option.bind_eq_bind, Option.bind_eq_some_iff, Option.pure_def,
      Option.some.injEq, map_eq_error_iff, reduceCtorEq, and_false, exists_false] at h
  case inherit =>
    obtain ⟨draft, hd, parent, hp, he⟩ := h
    exact .inherit (mem_of_draft? hd) (mem_of_instance? hp) he
  case implement =>
    obtain ⟨draft, hd, interface, hi, he⟩ := h
    exact .implement (mem_of_draft? hd) (mem_of_instance? hi) he
  case addParameter =>
    obtain ⟨draft, hd, he⟩ := h
    exact .addParameter (mem_of_draft? hd) he
  case addBoundedParameter =>
    obtain ⟨draft, hd, bound, hb, he⟩ := h
    exact .addBoundedParameter (mem_of_draft? hd) (mem_of_type? hb) he
  case addProperty =>
    obtain ⟨draft, hd, type, ht, he⟩ := h
    exact .addProperty (mem_of_draft? hd) (mem_of_type? ht) he
  case refer =>
    obtain ⟨draft, hd, he⟩ := h
    exact .refer (mem_of_draft? hd) he
  case bind =>
    obtain ⟨i, hi, type, ht, he⟩ := h
    exact .bind (mem_of_instantiation? hi) (mem_of_type? ht) he
  case construct =>
    obtain ⟨i, hi, he⟩ := h
    exact .construct (mem_of_instantiation? hi) he
  case substitute =>
    obtain ⟨type, ht, b, hb, he⟩ := h
    exact .substitute (mem_of_type? ht) (mem_of_bindings? hb) he

theorem step_of_execute? (hopen : lenient = true ∨ s.sparesOpen command = true)
    (h : s.execute? command = some t) : Step lenient s t := by
  unfold execute? at h
  split at h
  · obtain ⟨draft, hd, h⟩ := Option.bind_eq_some_iff.mp h
    cases h
    exact .reference (mem_of_draft? hd)
  · obtain ⟨draft, hd, h⟩ := Option.bind_eq_some_iff.mp h
    obtain ⟨⟨d, U⟩, hc, h⟩ := Option.bind_eq_some_iff.mp h
    cases h
    exact .construct (mem_of_draft? hd) (eq_ok_of_toOption hc)
  · obtain ⟨outcome, houtcome, h⟩ := Option.bind_eq_some_iff.mp h
    obtain ⟨item, hitem, h⟩ := Option.bind_eq_some_iff.mp h
    cases h
    rw [eq_ok_of_toOption hitem] at houtcome
    exact .make (makes_of_outcome? hopen houtcome)

theorem step_of_executeClosed? (h : s.executeClosed? command = some t) : Step false s t := by
  rw [executeClosed?] at h
  split at h
  · next hopen => exact step_of_execute? (.inr hopen) h
  · cases h

theorem reaches_of_foldlM {execute : Session → Command → Option Session} {commands : List Command}
    (hstep : ∀ s command t, execute s command = some t → Step lenient s t)
    (h : commands.foldlM execute s = some t) : Reaches lenient s t := by
  induction commands generalizing s with
  | nil =>
    cases h
    exact .refl _
  | cons command rest ih =>
    rw [List.foldlM_cons, Option.bind_eq_bind, Option.bind_eq_some_iff] at h
    obtain ⟨u, hu, h⟩ := h
    exact Reaches.trans (.step (.refl s) (hstep _ _ _ hu)) (ih h)

theorem reachable_of_replay? {commands : List Command} (h : replay? commands = some s) :
    Reachable true s := reaches_of_foldlM (fun _ _ _ => step_of_execute? (.inl rfl)) h

theorem reachable_of_replayClosed? {commands : List Command} (h : replayClosed? commands = some s) :
    Reachable false s := reaches_of_foldlM (fun _ _ _ => step_of_executeClosed?) h

theorem reachable_getD {result : Option Session} (hsome : result.isSome = true)
    (h : ∀ s, result = some s → Reachable lenient s) : Reachable lenient (result.getD {}) := by
  obtain ⟨s, hs⟩ := Option.isSome_iff_exists.mp hsome
  rw [hs]
  exact h s hs

end Session

/-! ## A sample -/

namespace Sample

open Command

/-- An interface `Box<T>`, a class `Cell<U>` that implements `Box<T=U>`, a class `Drawer` that
extends `Cell<U=Name>`, and an instance of each. -/
def commands : List Command := [
  startDraft "Box" .interfaceKind, addParameter 0 "T", close 1,
  startDraft "Name" .classKind, close 2, startInstantiation 1, construct 3,
  startDraft "Cell" .classKind, addParameter 5 "U", refer 6 "U",
  startInstantiation 0, bind 8 "T" 7, construct 9, implement 6 10, close 11,
  startInstantiation 2, bind 12 "U" 4, construct 13,
  startInstantiation 0, bind 15 "T" 4, construct 16,
  startDraft "Drawer" .classKind, inherit 18 14, close 19, startInstantiation 3, construct 20]

def session : Session := (Session.replay? commands).getD {}

def name : TypeExpr := .inst ⟨1, ⟨"default", "Name"⟩, .classKind⟩ [] false

def box : Instance := ⟨⟨0, ⟨"default", "Box"⟩, .interfaceKind⟩, [("T", name)], false⟩

def cell : Instance := ⟨⟨2, ⟨"default", "Cell"⟩, .classKind⟩, [("U", name)], false⟩

def drawer : Instance := ⟨⟨3, ⟨"default", "Drawer"⟩, .classKind⟩, [], false⟩

theorem reachable : Session.Reachable true session := by
  have h : Session.replay? commands = some session := rfl
  exact Session.reachable_of_replay? h

theorem box_mem : .type box.toExpr ∈ session.items := Session.mem_of_instance? (n := 17) rfl

theorem cell_mem : .type cell.toExpr ∈ session.items := Session.mem_of_instance? (n := 14) rfl

theorem drawer_mem : .type drawer.toExpr ∈ session.items := Session.mem_of_instance? (n := 21) rfl

end Sample

end NominalTypes
