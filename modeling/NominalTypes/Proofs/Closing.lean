import NominalTypes.Proofs.Contents
import NominalTypes.Proofs.Replay
import NominalTypes.Proofs.Stability

/-!
# Closing happens once

`Draft.construct` says what closing comes to.  Done step by step, it works on the universe: a draft
that never handed out its definition declares one before the last checks, and a check that fails
leaves this definition behind.  Here operations that fail are part of a run.

* `Draft.close`: closing in the order of its effects; by `Draft.close_cases` the outcome is that of
  `Draft.construct`;
* `Session.Attempt`: one operation with what came of it, be it a success or a failure, and
  `Session.Runs`: any number of them, which lead wherever steps do (`Session.Reaches.exists_runs`);
* `Session.Attempt.of_refused`: where a fault comes from;
* `Session.Attempt.closes_or_keeps`: all that an operation can do to bodies;
* `Session.Runs.closes_once`: what this comes to over a whole run.
-/

namespace NominalTypes

/-! ## Closing step by step -/

namespace Draft

variable {U : Universe} {draft : Draft}

/-- Check the variables and the package, get hold of the definition, make the other checks, and give
the definition its body; and the universe that is left, also where one of these fails. -/
def close (U : Universe) (draft : Draft) : Except Fault Definition × Universe :=
  match draft.checkVariables >>= fun _ => draft.checkPackage with
  | .error e => (.error e, U)
  | .ok _ =>
    let (d, _, V) := draft.reference U
    let checked := draft.checkSelfReferences >>= fun _ =>
      V.conform draft.settings.maxDepth draft.name draft.interfaces draft.body.properties
    match checked with
    | .error e => (.error e, V)
    | .ok _ =>
      match V.close? d draft.body with
      | some W => (.ok d, W)
      | none => (.error (.alreadyConstructed d.qualified), V)

theorem agrees_reference (draft : Draft) (U : Universe) :
    U.Agrees (draft.reference U).2.2 fun _ => True where
  body d _ := draft.body_reference U d
  above _ _ _ _ := trivial

theorem construct_eq (U : Universe) (draft : Draft) :
    draft.construct U =
      ((draft.checkVariables >>= fun _ => draft.checkPackage) >>= fun _ =>
        (draft.checkSelfReferences >>= fun _ =>
          U.conform draft.settings.maxDepth draft.name draft.interfaces draft.body.properties) >>=
        fun _ =>
          match (draft.reference U).2.2.close? (draft.reference U).1 draft.body with
          | some V => .ok ((draft.reference U).1, V)
          | none => .error (.alreadyConstructed (draft.reference U).1.qualified)) := by
  simp only [bind_assoc]
  rfl

/-- A closing that fails leaves the universe as it was, but for a definition that the draft has
declared. -/
theorem close_cases (U : Universe) (draft : Draft) :
    (∃ d V, draft.construct U = .ok (d, V) ∧ draft.close U = (.ok d, V)) ∨
      ∃ e V, draft.construct U = .error e ∧ draft.close U = (.error e, V) ∧
        (V = U ∨ V = (draft.reference U).2.2) := by
  have hall : ∀ i ∈ draft.interfaces, True := fun _ _ => trivial
  have hconform := (draft.agrees_reference U).conform hall draft.settings.maxDepth draft.name
    draft.body.properties
  rw [construct_eq, close]
  cases draft.checkVariables >>= fun _ => draft.checkPackage with
  | error e => exact .inr ⟨e, U, rfl, rfl, .inl rfl⟩
  | ok _ =>
    dsimp only
    rw [hconform]
    cases draft.checkSelfReferences >>= fun _ => U.conform draft.settings.maxDepth draft.name
        draft.interfaces draft.body.properties with
    | error e => exact .inr ⟨e, (draft.reference U).2.2, rfl, rfl, .inr rfl⟩
    | ok _ =>
      cases (draft.reference U).2.2.close? (draft.reference U).1 draft.body with
      | some V => exact .inl ⟨(draft.reference U).1, V, rfl, rfl⟩
      | none =>
        exact .inr ⟨.alreadyConstructed (draft.reference U).1.qualified, (draft.reference U).2.2,
          rfl, rfl, .inr rfl⟩

end Draft

/-! ## What one operation does to bodies -/

namespace Universe

variable {U V : Universe} {draft : Draft} {d : Definition}

/-- The draft gives its body to the definition, which is the one that it handed out if it did, and
no other body changes. -/
structure Closes (U : Universe) (draft : Draft) (d : Definition) (V : Universe) : Prop where
  mem : d ∈ V.definitions
  issued : ∀ e, draft.issued = some e → e = d
  absent : U.body? d = none
  body? : ∀ e, V.body? e = if e.id = d.id then some draft.body else U.body? e

theorem Coherent.closes_of_construct (hU : U.Coherent) (hd : U.AdmitsDraft draft)
    (h : draft.construct U = .ok (d, V)) : U.Closes draft d V := by
  obtain ⟨hopen, hbody⟩ := hU.body?_of_construct hd h
  obtain ⟨_, _, _, _, rfl, hclose⟩ := Draft.construct_eq_ok h
  obtain ⟨hU', _, _, hmem, _⟩ := hU.reference hd
  refine ⟨(hU'.grows_close hmem hclose).definitions _ hmem, fun e he => ?_, ?_, hbody⟩
  · rw [Draft.reference, he]
  · rwa [isClosed, Option.isSome_eq_false_iff, Option.isNone_iff_eq_none] at hopen

theorem Closes.closed (h : U.Closes draft d V) : V.body? d = some draft.body := by
  rw [h.body? d, if_pos rfl]

theorem Coherent.getElem?_definitions_iff (hU : U.Coherent) {n : Nat} :
    U.definitions[n]? = some d ↔ d ∈ U.definitions ∧ d.id = n := by
  have hget (n : Nat) : U.definitions[n]? = U.entries[n]?.map (·.definition) := by
    simp [definitions]
  constructor
  · intro h
    refine ⟨List.mem_of_getElem? h, ?_⟩
    rw [hget] at h
    obtain ⟨e, he, rfl⟩ := Option.map_eq_some_iff.mp h
    exact hU.id_eq n e he
  · rintro ⟨hd, rfl⟩
    obtain ⟨e, he, rfl⟩ := hU.entry hd
    rw [hget, he, Option.map_some]

/-- A body that was there is the body of a declaration that was there. -/
theorem Grows.mem_of_body? (h : U.Grows V) (hU : U.Coherent) (hV : V.Coherent)
    (hd : d ∈ V.definitions) {b : Body} (hb : U.body? d = some b) : d ∈ U.definitions := by
  obtain ⟨x, hx, _⟩ := body?_eq_some_iff.mp hb
  have hmem : x.definition ∈ U.definitions := mem_definitions_iff.mpr ⟨d.id, x, hx, rfl⟩
  have heq := hV.eq_of_id_eq (h.definitions _ hmem) hd (hU.id_eq d.id x hx)
  exact heq ▸ hmem

end Universe

/-! ## Runs with failures -/

/-- What came of an operation. -/
inductive Event where
  | made (item : Item)
  | issued (d : Definition)
  | closed (draft : Draft) (d : Definition)
  | refused (fault : Fault)

namespace Event

def ofClosing (draft : Draft) : Except Fault Definition → Event
  | .ok d => .closed draft d
  | .error e => .refused e

theorem ofClosing_eq_refused_iff {draft : Draft} {outcome : Except Fault Definition}
    {fault : Fault} : ofClosing draft outcome = .refused fault ↔ outcome = .error fault := by
  cases outcome <;> simp [ofClosing]

def closing? : Event → Option (Draft × Definition)
  | .closed draft d => some (draft, d)
  | _ => none

/-- The closings that succeeded, with their drafts. -/
def closings (events : List Event) : List (Draft × Definition) := events.filterMap closing?

theorem mem_closings_iff {events : List Event} {draft : Draft} {d : Definition} :
    (draft, d) ∈ closings events ↔ .closed draft d ∈ events := by
  rw [closings, List.mem_filterMap]
  constructor
  · rintro ⟨event, hmem, heq⟩
    cases event with
    | closed => cases heq; exact hmem
    | _ => cases heq
  · exact fun hmem => ⟨_, hmem, rfl⟩

end Event

namespace Session

open Event (closings)

/-- One operation that succeeds or fails.  Closing works on the universe; all other operations that
can fail only read it, and make nothing when they do. -/
inductive Attempt (lenient : Bool) (s : Session) : Event → Session → Prop where
  | make {item : Item} : Makes lenient s.known s.items item →
    Attempt lenient s (.made item) ⟨s.known, item :: s.items⟩
  | reference {draft : Draft} : .draft draft ∈ s.items →
    Attempt lenient s (.issued (draft.reference s.known).1)
      ⟨(draft.reference s.known).2.2, .draft (draft.reference s.known).2.1 :: s.items⟩
  | close {draft : Draft} : .draft draft ∈ s.items →
    Attempt lenient s (.ofClosing draft (draft.close s.known).1) ⟨(draft.close s.known).2, s.items⟩
  | refused {fault : Fault} : Refuses s.known s.items fault → Attempt lenient s (.refused fault) s

inductive Runs (lenient : Bool) : Session → List Event → Session → Prop where
  | nil (s : Session) : Runs lenient s [] s
  | cons {s t u : Session} {event : Event} {events : List Event} :
    Attempt lenient s event t → Runs lenient t events u → Runs lenient s (event :: events) u

variable {lenient : Bool} {s t u : Session} {event : Event} {events before after : List Event}

theorem Step.exists_attempt (h : Step lenient s t) : ∃ event, Attempt lenient s event t := by
  cases h with
  | make hmakes => exact ⟨_, .make hmakes⟩
  | reference hd => exact ⟨_, .reference hd⟩
  | @construct draft d U hd hconstruct =>
    rcases draft.close_cases s.known with ⟨d', V, heq, hclose⟩ | ⟨e, V, heq, _⟩
    · rw [hconstruct] at heq
      cases heq
      have hattempt : Attempt lenient s _ _ := .close hd
      rw [hclose] at hattempt
      exact ⟨_, hattempt⟩
    · rw [hconstruct] at heq
      cases heq

/-- A closing that succeeds settles one definition; whatever else is attempted, and be it a closing
that fails, all bodies are kept. -/
theorem Attempt.closes_or_keeps (hs : s.WellFormed) (h : Attempt lenient s event t) :
    t.WellFormed ∧ s.known.Grows t.known ∧
      ((∃ draft d, event = .closed draft d ∧ s.known.Closes draft d t.known) ∨
        (event.closing? = none ∧ ∀ d, t.known.body? d = s.known.body? d)) := by
  cases h with
  | make hmakes =>
    have hstep : Step lenient s ⟨s.known, _⟩ := .make hmakes
    exact ⟨hs.step hstep, .refl _, .inr ⟨rfl, fun _ => rfl⟩⟩
  | @reference draft hd =>
    have hstep : Step lenient s ⟨(draft.reference s.known).2.2, _⟩ := .reference hd
    exact ⟨hs.step hstep, hs.grows hstep, .inr ⟨rfl, draft.body?_reference s.known⟩⟩
  | @close draft hd =>
    rcases draft.close_cases s.known with ⟨d, V, hconstruct, hclose⟩ | ⟨e, V, _, hclose, hV⟩
    · rw [hclose]
      have hstep : Step lenient s ⟨V, s.items⟩ := .construct hd hconstruct
      refine ⟨hs.step hstep, hs.grows hstep, .inl ⟨draft, d, rfl, ?_⟩⟩
      exact hs.coherent.closes_of_construct (hs.items _ hd) hconstruct
    · rw [hclose]
      obtain ⟨hcoherent, hgrows, _, _⟩ := hs.coherent.reference (hs.items _ hd)
      rcases hV with rfl | rfl
      · exact ⟨hs, .refl _, .inr ⟨rfl, fun _ => rfl⟩⟩
      · exact ⟨⟨hcoherent, fun item hi => hgrows.admitsItem (hs.items item hi)⟩, hgrows,
          .inr ⟨rfl, draft.body?_reference s.known⟩⟩
  | refused _ => exact ⟨hs, .refl _, .inr ⟨rfl, fun _ => rfl⟩⟩

/-- A fault comes from a closing that fails, or from an operation that leaves all as it is. -/
theorem Attempt.of_refused {fault : Fault} (h : Attempt lenient s (.refused fault) t) :
    (Refuses s.known s.items fault ∧ t = s) ∨
      ∃ draft, .draft draft ∈ s.items ∧ draft.close s.known = (.error fault, t.known) ∧
        t.items = s.items := by
  generalize heq : Event.refused fault = event at h
  cases h with
  | make _ => cases heq
  | reference _ => cases heq
  | @close draft hd =>
    have hfault := Event.ofClosing_eq_refused_iff.mp heq.symm
    exact .inr ⟨draft, hd, Prod.ext hfault rfl, rfl⟩
  | refused hrefuses =>
    cases heq
    exact .inl ⟨hrefuses, rfl⟩

theorem Runs.append (h : Runs lenient s before t) (h' : Runs lenient t after u) :
    Runs lenient s (before ++ after) u := by
  induction h with
  | nil => exact h'
  | cons hattempt _ ih => exact .cons hattempt (ih h')

/-- Runs with failures go wherever runs without them do. -/
theorem Reaches.exists_runs (h : Reaches lenient s t) : ∃ events, Runs lenient s events t := by
  induction h with
  | refl => exact ⟨[], .nil _⟩
  | step _ hstep ih =>
    obtain ⟨events, hruns⟩ := ih
    obtain ⟨event, hattempt⟩ := hstep.exists_attempt
    exact ⟨events ++ [event], hruns.append (.cons hattempt (.nil _))⟩

/-! ## Whole runs -/

/-- What the closings of a run have to do with the bodies before and after it. -/
structure Ledger (s : Session) (events : List Event) (t : Session) : Prop where
  wellFormed : t.WellFormed
  grows : s.known.Grows t.known
  /-- Every closing settled a definition that was open, and the one handed out if there was one. -/
  closed : ∀ draft d, .closed draft d ∈ events →
    s.known.body? d = none ∧ t.known.body? d = some draft.body ∧
      ∀ e, draft.issued = some e → e = d
  /-- Every new body comes from a closing. -/
  origin : ∀ d ∈ t.known.definitions, ∀ b, s.known.body? d = none → t.known.body? d = some b →
    ∃ draft, .closed draft d ∈ events ∧ draft.body = b
  distinct : (closings events).Pairwise fun c c' => c.2 ≠ c'.2

theorem Ledger.nil (hs : s.WellFormed) : Ledger s [] s where
  wellFormed := hs
  grows := .refl _
  closed _ _ h := absurd h List.not_mem_nil
  origin d _ b hnone hsome := by
    rw [hnone] at hsome
    cases hsome
  distinct := .nil

theorem Attempt.ledger (hs : s.WellFormed) (h : Attempt lenient s event t) :
    Ledger s [event] t := by
  obtain ⟨ht, hgrows, ⟨draft, d, rfl, hcloses⟩ | ⟨hclosing, hkeeps⟩⟩ := h.closes_or_keeps hs
  · refine ⟨ht, hgrows, ?_, ?_, List.pairwise_singleton _ _⟩
    · intro draft' d' hmem
      cases List.mem_singleton.mp hmem
      exact ⟨hcloses.absent, hcloses.closed, hcloses.issued⟩
    · intro x hx b hnone hsome
      have hbody := hcloses.body? x
      split at hbody
      · next hid =>
        obtain rfl := ht.coherent.eq_of_id_eq hx hcloses.mem hid
        rw [hsome] at hbody
        cases hbody
        exact ⟨draft, List.mem_cons_self, rfl⟩
      · rw [hsome, hnone] at hbody
        cases hbody
  · refine ⟨ht, hgrows, ?_, ?_, ?_⟩
    · intro draft d hmem
      cases List.mem_singleton.mp hmem
      cases hclosing
    · intro x _ b hnone hsome
      rw [hkeeps x, hnone] at hsome
      cases hsome
    · rw [closings, List.filterMap_cons, hclosing]
      exact .nil

theorem Ledger.append (h : Ledger s before t) (h' : Ledger t after u) :
    Ledger s (before ++ after) u where
  wellFormed := h'.wellFormed
  grows := h.grows.trans h'.grows
  closed draft d hmem := by
    rcases List.mem_append.mp hmem with hmem | hmem
    · obtain ⟨hnone, hsome, hissued⟩ := h.closed draft d hmem
      exact ⟨hnone, h'.grows.body? d _ hsome, hissued⟩
    · obtain ⟨hnone, hsome, hissued⟩ := h'.closed draft d hmem
      refine ⟨?_, hsome, hissued⟩
      cases hd : s.known.body? d with
      | none => rfl
      | some b =>
        rw [h.grows.body? d b hd] at hnone
        cases hnone
  origin d hd b hnone hsome := by
    cases ht : t.known.body? d with
    | none =>
      obtain ⟨draft, hmem, hbody⟩ := h'.origin d hd b ht hsome
      exact ⟨draft, List.mem_append_right _ hmem, hbody⟩
    | some c =>
      have hmem := h'.grows.mem_of_body? h.wellFormed.coherent h'.wellFormed.coherent hd ht
      rw [h'.grows.body? d c ht] at hsome
      cases hsome
      obtain ⟨draft, hmem, hbody⟩ := h.origin d hmem b hnone ht
      exact ⟨draft, List.mem_append_left _ hmem, hbody⟩
  distinct := by
    rw [closings, List.filterMap_append, List.pairwise_append]
    refine ⟨h.distinct, h'.distinct, ?_⟩
    rintro ⟨draft, d⟩ hmem ⟨draft', d'⟩ hmem' (heq : d = d')
    have hsome := (h.closed draft d (Event.mem_closings_iff.mp hmem)).2.1
    rw [heq, (h'.closed draft' d' (Event.mem_closings_iff.mp hmem')).1] at hsome
    cases hsome

theorem Runs.ledger (h : Runs lenient s events t) (hs : s.WellFormed) : Ledger s events t := by
  induction h with
  | nil s => exact .nil hs
  | cons hattempt _ ih =>
    have hledger := hattempt.ledger hs
    exact hledger.append (ih hledger.wellFormed)

/-- Over a whole run: no declaration changes; no body changes or goes away; what is closed in the
second part was closed by an operation of this part that succeeded, and that gave it the body of its
draft and answered with the definition that the draft had handed out, if it had; no definition is
closed twice, and of the drafts that share a definition no two are closed; and an operation that
fails, closing included, changes no body. -/
theorem Runs.closes_once (h : Runs lenient {} before s) (h' : Runs lenient s after t) :
    (∀ (n : Nat) d, s.known.definitions[n]? = some d → t.known.definitions[n]? = some d) ∧
    (∀ d b, s.known.body? d = some b → t.known.body? d = some b) ∧
    (∀ d ∈ t.known.definitions, ∀ b, s.known.body? d = none → t.known.body? d = some b →
      ∃ draft, .closed draft d ∈ after ∧ draft.body = b) ∧
    (∀ draft d, .closed draft d ∈ after →
      s.known.body? d = none ∧ t.known.body? d = some draft.body ∧
        ∀ e, draft.issued = some e → e = d) ∧
    (closings (before ++ after)).Pairwise (fun c c' =>
      c.2 ≠ c'.2 ∧ ∀ e, c.1.issued = some e → c'.1.issued ≠ some e) ∧
    ∀ fault u, Attempt lenient t (.refused fault) u →
      u.items = t.items ∧ ∀ d, u.known.body? d = t.known.body? d := by
  have hbefore := h.ledger wellFormed_empty
  have hafter := h'.ledger hbefore.wellFormed
  have hall := hbefore.append hafter
  refine ⟨?_, hafter.grows.body?, hafter.origin, hafter.closed, ?_, ?_⟩
  · intro n d hd
    obtain ⟨hmem, hid⟩ := hbefore.wellFormed.coherent.getElem?_definitions_iff.mp hd
    exact hafter.wellFormed.coherent.getElem?_definitions_iff.mpr
      ⟨hafter.grows.definitions d hmem, hid⟩
  · refine hall.distinct.imp_of_mem ?_
    rintro ⟨draft, d⟩ ⟨draft', d'⟩ hmem hmem' hne
    refine ⟨hne, fun e he he' => hne ?_⟩
    have hd := (hall.closed draft d (Event.mem_closings_iff.mp hmem)).2.2 e he
    have hd' := (hall.closed draft' d' (Event.mem_closings_iff.mp hmem')).2.2 e he'
    exact hd.symm.trans hd'
  · intro fault u hattempt
    obtain ⟨_, _, ⟨draft, d, heq, _⟩ | ⟨_, hkeeps⟩⟩ :=
      hattempt.closes_or_keeps hafter.wellFormed
    · cases heq
    · refine ⟨?_, hkeeps⟩
      rcases hattempt.of_refused with ⟨_, rfl⟩ | ⟨_, _, _, hitems⟩
      · rfl
      · exact hitems

/-! ## Runs from commands -/

/-- One command, with what came of it, if what it works on is there. -/
def attempt? (s : Session) : Command → Option (Event × Session)
  | .reference draft => do
    let (d, draft, U) := (← s.draft? draft).reference s.known
    return (.issued d, ⟨U, .draft draft :: s.items⟩)
  | .close draft => do
    let draft ← s.draft? draft
    let (outcome, U) := draft.close s.known
    return (.ofClosing draft outcome, ⟨U, s.items⟩)
  | command => do
    match ← s.outcome? command with
    | .ok item => return (.made item, ⟨s.known, item :: s.items⟩)
    | .error fault => return (.refused fault, s)

def attempts? (s : Session) : List Command → Option (List Event × Session)
  | [] => some ([], s)
  | command :: rest => do
    let (event, t) ← s.attempt? command
    let (events, u) ← t.attempts? rest
    return (event :: events, u)

theorem attempt_of_attempt? {command : Command} (h : s.attempt? command = some (event, t)) :
    Attempt true s event t := by
  unfold attempt? at h
  split at h
  · obtain ⟨draft, hd, h⟩ := Option.bind_eq_some_iff.mp h
    cases h
    exact .reference (mem_of_draft? hd)
  · obtain ⟨draft, hd, h⟩ := Option.bind_eq_some_iff.mp h
    cases h
    exact .close (mem_of_draft? hd)
  · obtain ⟨outcome, houtcome, h⟩ := Option.bind_eq_some_iff.mp h
    cases outcome with
    | ok item =>
      cases h
      exact .make (makes_of_outcome? (.inl rfl) houtcome)
    | error fault =>
      cases h
      exact .refused (refuses_of_outcome? houtcome)

theorem runs_of_attempts? {commands : List Command} (h : s.attempts? commands = some (events, t)) :
    Runs true s events t := by
  induction commands generalizing s events with
  | nil =>
    cases h
    exact .nil _
  | cons command rest ih =>
    obtain ⟨⟨event, u⟩, hu, h⟩ := Option.bind_eq_some_iff.mp h
    obtain ⟨⟨events, v⟩, hv, h⟩ := Option.bind_eq_some_iff.mp h
    cases h
    exact .cons (attempt_of_attempt? hu) (ih hv)

end Session

namespace Labels

open Command

/-- A class `Box<T>` that is handed out open, an interface `Labelled` with a property of that type,
and a class `Jar`.  `Jar` cannot extend `Box`, which is open, and it cannot close, since it
implements the interface without the property. -/
def before : List Command := [
  startDraft "Box" .classKind, addParameter 0 "T", refer 1 "T", reference 1,
  startInstantiation 0, construct 4,
  startDraft "Labelled" .interfaceKind, addProperty 6 "label" 5, close 7,
  startInstantiation 1, construct 8, startDraft "Jar" .classKind, inherit 10 5,
  implement 10 9, close 11]

/-- `Box` gets a property, which is refused when it is added again; it is closed, and then once more
from the draft without the property. -/
def after : List Command := [addProperty 3 "item" 2, addProperty 12 "item" 2, close 12, close 3]

def early : List Event × Session := (Session.attempts? {} before).getD ([], {})

def late : List Event × Session := (early.2.attempts? after).getD ([], {})

def box : Definition := ⟨0, ⟨"default", "Box"⟩, .classKind⟩

def labelled : Definition := ⟨1, ⟨"default", "Labelled"⟩, .interfaceKind⟩

def jar : Definition := ⟨2, ⟨"default", "Jar"⟩, .classKind⟩

theorem runs_early : Session.Runs true {} early.1 early.2 := by
  have h : Session.attempts? {} before = some early := rfl
  exact Session.runs_of_attempts? h

theorem runs_late : Session.Runs true early.2 late.1 late.2 := by
  have h : early.2.attempts? after = some late := rfl
  exact Session.runs_of_attempts? h

/-- The definition that was declared for `Jar` is left behind, open.  Two more operations fail then,
and the bodies stay what they are, though the second declares a definition once more. -/
theorem box_closes_once :
    late.2.known.definitions = [box, labelled, jar] ∧ late.2.known.isClosed jar = false ∧
      ((Event.closings (early.1 ++ late.1)).map (·.2) = [labelled, box] ∧
        (Event.closings (early.1 ++ late.1)).Pairwise fun c c' =>
          c.2 ≠ c'.2 ∧ ∀ e, c.1.issued = some e → c'.1.issued ≠ some e) ∧
      .refused (.openSupertype "Jar" ⟨box, [], false⟩) ∈ early.1 ∧
      .refused (.duplicateProperty "Box" "item") ∈ late.1 ∧
      ∀ command ∈ [implement 11 9, close 11], ∃ fault u,
        late.2.attempt? command = some (.refused fault, u) ∧ u.items = late.2.items ∧
          ∀ d, u.known.body? d = late.2.known.body? d := by
  obtain ⟨_, _, _, _, honce, hrefused⟩ := runs_early.closes_once runs_late
  have hearly : .refused (.openSupertype "Jar" ⟨box, [], false⟩) ∈ early.1 :=
    List.mem_of_getElem? (i := 12) rfl
  have hlate : .refused (.duplicateProperty "Box" "item") ∈ late.1 :=
    List.mem_of_getElem? (i := 1) rfl
  have keeps {command : Command}
      (h : ∃ fault u, late.2.attempt? command = some (.refused fault, u)) :
      ∃ fault u, late.2.attempt? command = some (.refused fault, u) ∧ u.items = late.2.items ∧
        ∀ d, u.known.body? d = late.2.known.body? d := by
    obtain ⟨fault, u, hcommand⟩ := h
    exact ⟨fault, u, hcommand, hrefused fault u (Session.attempt_of_attempt? hcommand)⟩
  refine ⟨rfl, rfl, ⟨rfl, honce⟩, hearly, hlate, ?_⟩
  rw [List.forall_mem_cons, List.forall_mem_singleton]
  exact ⟨keeps ⟨_, _, rfl⟩, keeps ⟨_, _, rfl⟩⟩

end Labels

end NominalTypes
