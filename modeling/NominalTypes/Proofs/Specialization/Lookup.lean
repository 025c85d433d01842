import NominalTypes.Proofs.Lookup
import NominalTypes.Proofs.Replay
import NominalTypes.Proofs.Sessions
import NominalTypes.Proofs.Specialization.Levels

/-!
# Lookup on a specialised type

A type and the same type with `σ` substituted have the same properties, up to that substitution, as
long as no parent above the type leaves a parameter without an argument:

* `Universe.Coherent.findFrom_step_alike`, `Universe.Coherent.listFrom_step_alike`: one level of the
  two searches beside each other;
* `Universe.Coherent.findFrom_alike`, `Universe.Coherent.listFrom_alike`: all levels;
* `Session.Reachable.lookup_substitute`: lookup commutes with substitution.
-/

namespace NominalTypes

namespace Universe

variable {U : Universe} {σ : Bindings} {s s' : Instance}

/-- At the same place, `σ` taking one type to the other. -/
def FoundAlike (σ : Bindings) (f g : Found) : Prop :=
  g.depth = f.depth ∧ g.position = f.position ∧ f.type.substitute σ = .ok g.type

/-! ## One property -/

section Finding

variable {limit hops depth : Nat} {name : String}

/-- A level settles both answers, or hands on to parents that `σ` takes to each other. -/
theorem Coherent.findFrom_step_alike (hU : U.Coherent) (hs : U.Full s) (hσ : s.remap σ = .ok s')
    (limit : Nat) (name : String) :
    (∀ hops depth, Alike (Option.Rel (FoundAlike σ)) (U.findFrom limit name hops depth s)
      (U.findFrom limit name hops depth s')) ∨
    (∃ above above', U.ParentHop s above ∧ above.remap σ = .ok above' ∧ ∀ hops depth,
      Alike (Option.Rel (FoundAlike σ)) (U.findFrom limit name 0 depth s)
        (U.findFrom limit name 0 depth s') ∧
      U.findFrom limit name (hops + 1) depth s = U.findFrom limit name hops (depth + 1) above ∧
      U.findFrom limit name (hops + 1) depth s' = U.findFrom limit name hops (depth + 1) above') := by
  have hd : s'.definition = s.definition := Instance.definition_remap hσ
  cases hown : U.ownProperty? s.definition name with
  | some own =>
    obtain ⟨position, declared⟩ := own
    have hmem := List.mem_of_getElem? (getElem?_of_firstNamed? hown)
    obtain ⟨u, r, hu, hr, hr'⟩ := hU.substitute_level hs hσ (Body.property_mem_types hmem)
    refine .inl fun hops depth => ?_
    rw [findFrom_own hown, findFrom_own (hd ▸ hown), hu, hr']
    exact .ok (.some ⟨rfl, rfl, hr⟩)
  | none =>
    cases hp : U.parent? s.definition with
    | none =>
      refine .inl fun hops depth => ?_
      rw [findFrom_top hown hp, findFrom_top (hd ▸ hown) (hd ▸ hp)]
      exact .ok .none
    | some parent =>
      obtain ⟨above, above', hr, hσ', hr'⟩ :=
        hU.remap_level hs hσ (mem_supertypes_iff.mpr (.inl hp))
      refine .inr ⟨above, above', ⟨parent, hp, hr⟩, hσ', fun hops depth => ⟨?_, ?_, ?_⟩⟩
      · rw [findFrom_zero hown hp hr, findFrom_zero (hd ▸ hown) (hd ▸ hp) hr']
        exact .error rfl
      · exact findFrom_succ hown hp hr
      · exact findFrom_succ (hd ▸ hown) (hd ▸ hp) hr'

theorem Coherent.findFrom_alike (hU : U.Coherent)
    (hfull : ∀ nodes top, Route U.ParentHop s nodes top → U.Full top) (hσ : s.remap σ = .ok s') :
    Alike (Option.Rel (FoundAlike σ)) (U.findFrom limit name hops depth s)
      (U.findFrom limit name hops depth s') := by
  induction hops generalizing depth s s' with
  | zero =>
    have hs := hfull [s] s (.here s)
    rcases hU.findFrom_step_alike hs hσ limit name with halike | ⟨_, _, _, _, hstep⟩
    · exact halike 0 depth
    · exact (hstep 0 depth).1
  | succ k ih =>
    have hs := hfull [s] s (.here s)
    rcases hU.findFrom_step_alike hs hσ limit name with halike | ⟨above, above', hup, hσ', hstep⟩
    · exact halike (k + 1) depth
    · obtain ⟨_, hsucc, hsucc'⟩ := hstep k depth
      rw [hsucc, hsucc']
      exact ih (fun nodes top h => hfull _ top (.up hup h)) hσ'

end Finding

/-! ## All properties -/

section Listing

variable {limit hops : Nat} {start start' : Instance} {seen : List String}

theorem Coherent.listFrom_step_alike (hU : U.Coherent) (hs : U.Full s) (hσ : s.remap σ = .ok s')
    (limit : Nat) (start start' : Instance) (seen : List String) :
    (∀ hops, Alike (TypeExpr.Substituted σ) (U.listFrom limit start hops seen s)
      (U.listFrom limit start' hops seen s')) ∨
    (∃ level level' above above', TypeExpr.Substituted σ level level' ∧ U.ParentHop s above ∧
      above.remap σ = .ok above' ∧ ∀ hops,
      Alike (TypeExpr.Substituted σ) (U.listFrom limit start 0 seen s)
        (U.listFrom limit start' 0 seen s') ∧
      U.listFrom limit start (hops + 1) seen s =
        (U.listFrom limit start hops (seen ++ level.map (·.1)) above >>= fun rest =>
          .ok (level ++ rest)) ∧
      U.listFrom limit start' (hops + 1) seen s' =
        (U.listFrom limit start' hops (seen ++ level.map (·.1)) above' >>= fun rest =>
          .ok (level' ++ rest))) := by
  have hd : s'.definition = s.definition := Instance.definition_remap hσ
  have hvisible (p : String × TypeExpr) (hp : p ∈ U.visible seen s.definition) :
      p ∈ U.properties s.definition := List.mem_of_mem_filter hp
  obtain ⟨level, level', hl, hlevel, hl'⟩ := hU.remap_properties hs hσ hvisible
  cases hp : U.parent? s.definition with
  | none =>
    refine .inl fun hops => ?_
    rw [listFrom_top hl hp, listFrom_top (hd ▸ hl') (hd ▸ hp)]
    exact .ok hlevel
  | some parent =>
    obtain ⟨above, above', hr, hσ', hr'⟩ :=
      hU.remap_level hs hσ (mem_supertypes_iff.mpr (.inl hp))
    refine .inr ⟨level, level', above, above', hlevel, ⟨parent, hp, hr⟩, hσ', fun hops => ?_⟩
    refine ⟨?_, listFrom_succ hl hp hr, ?_⟩
    · rw [listFrom_zero hl hp hr, listFrom_zero (hd ▸ hl') (hd ▸ hp) hr']
      exact .error rfl
    · rw [← hlevel.names]
      exact listFrom_succ (hd ▸ hl') (hd ▸ hp) hr'

theorem Coherent.listFrom_alike (hU : U.Coherent)
    (hfull : ∀ nodes top, Route U.ParentHop s nodes top → U.Full top) (hσ : s.remap σ = .ok s') :
    Alike (TypeExpr.Substituted σ) (U.listFrom limit start hops seen s)
      (U.listFrom limit start' hops seen s') := by
  induction hops generalizing seen s s' with
  | zero =>
    have hs := hfull [s] s (.here s)
    rcases hU.listFrom_step_alike hs hσ limit start start' seen with
      halike | ⟨_, _, _, _, _, _, _, hstep⟩
    · exact halike 0
    · exact (hstep 0).1
  | succ k ih =>
    have hs := hfull [s] s (.here s)
    rcases hU.listFrom_step_alike hs hσ limit start start' seen with
      halike | ⟨level, level', above, above', hlevel, hup, hσ', hstep⟩
    · exact halike (k + 1)
    · obtain ⟨_, hsucc, hsucc'⟩ := hstep k
      rw [hsucc, hsucc']
      refine (ih (fun nodes top h => hfull _ top (.up hup h)) hσ').bind fun rest rest' hrest => ?_
      exact .ok (List.rel_append hlevel hrest)

end Listing

end Universe

/-! ## Reachable sessions -/

namespace Session

variable {lenient : Bool} {S : Session}

/-- What is found on `s` with `σ` substituted is what is found on `s`, at the same place and with `σ`
substituted, and the same is true of the list of all properties.  Where one of the two fails the
other fails for the same reason. -/
theorem Reachable.lookup_substitute (h : Reachable lenient S) {s s' : Instance} {σ : Bindings}
    (hfull : ∀ nodes top, Route S.known.ParentHop s nodes top → S.known.Full top)
    (hσ : s.toExpr.substitute σ = .ok s'.toExpr) (limit : Nat) (name : String) :
    Alike (Option.Rel (Universe.FoundAlike σ)) (S.known.find limit name s)
      (S.known.find limit name s') ∧
    Alike (TypeExpr.Substituted σ) (S.known.allProperties limit s)
      (S.known.allProperties limit s') := by
  have hU := h.wellFormed.coherent
  have hremap := Instance.remap_of_substitute_toExpr hσ
  exact ⟨hU.findFrom_alike hfull hremap, hU.listFrom_alike hfull hremap⟩

end Session

namespace Shelves

open Command

/-- Interfaces `Box<E>` and `Source<T>`, which extends `Box<E=T>`, a class `Shelf<U>` that implements
`Source<T=U>`, a class `Rack<X>` that extends `Shelf<U=Source<T=X>>`, and instances of them. -/
def commands : List Command := [
  startDraft "Name" .classKind, close 0, startInstantiation 0, construct 1,
  startDraft "Box" .interfaceKind, addParameter 3 "E", refer 4 "E", nullable 5,
  addProperty 4 "item" 6, close 7,
  startDraft "Source" .interfaceKind, addParameter 8 "T", refer 9 "T",
  startInstantiation 1, bind 11 "E" 10, construct 12, inherit 9 13, reference 14,
  startInstantiation 2, bind 16 "T" 10, construct 17, addProperty 15 "rest" 18,
  nullable 10, fn [("x", 20)] 10, addProperty 19 "next" 21, close 22,
  startDraft "Shelf" .classKind, addParameter 23 "U", refer 24 "U",
  startInstantiation 2, bind 26 "T" 25, construct 27, implement 24 28, nullable 25,
  addProperty 29 "item" 30, addProperty 31 "rest" 28, fn [("x", 30)] 25,
  addProperty 32 "next" 33, close 34,
  startDraft "Rack" .classKind, addParameter 35 "X", refer 36 "X",
  startInstantiation 2, bind 38 "T" 37, construct 39, startInstantiation 3, bind 41 "U" 40,
  construct 42, inherit 36 43, close 44,
  startInstantiation 4, bind 45 "X" 37, construct 46, bind 45 "X" 2, construct 48,
  startInstantiation 1, bind 50 "E" 40, construct 51,
  startInstantiation 3, bind 53 "U" 2, construct 54]

def replayed : Session := (Session.replay? commands).getD {}

def name : TypeExpr := .inst ⟨0, ⟨"default", "Name"⟩, .classKind⟩ [] false

def box (e : TypeExpr) : Instance := ⟨⟨1, ⟨"default", "Box"⟩, .interfaceKind⟩, [("E", e)], false⟩

def source (t : TypeExpr) : Instance :=
  ⟨⟨2, ⟨"default", "Source"⟩, .interfaceKind⟩, [("T", t)], false⟩

def shelf (u : TypeExpr) : Instance :=
  ⟨⟨3, ⟨"default", "Shelf"⟩, .classKind⟩, [("U", u)], false⟩

def rack (x : TypeExpr) : Instance := ⟨⟨4, ⟨"default", "Rack"⟩, .classKind⟩, [("X", x)], false⟩

def var (x : String) : TypeExpr := .var x none false

/-- What the commands declare. -/
def known : Universe where
  entries := #[
    ⟨⟨0, ⟨"default", "Name"⟩, .classKind⟩, some {}⟩,
    ⟨(box name).definition, some {
      parameters := [⟨"E", none⟩]
      properties := [("item", (var "E").toNullable)] }⟩,
    ⟨(source name).definition, some {
      parent := some (box (var "T"))
      parameters := [⟨"T", none⟩]
      properties := [("rest", (source (var "T")).toExpr),
        ("next", .fn [("x", (var "T").toNullable)] (var "T"))] }⟩,
    ⟨(shelf name).definition, some {
      interfaces := [source (var "U")]
      parameters := [⟨"U", none⟩]
      properties := [("item", (var "U").toNullable), ("rest", (source (var "U")).toExpr),
        ("next", .fn [("x", (var "U").toNullable)] (var "U"))] }⟩,
    ⟨(rack name).definition, some {
      parent := some (shelf (source (var "X")).toExpr)
      parameters := [⟨"X", none⟩] }⟩]

/-- What the commands make, and the arguments of `Rack<X=Name>` on their own. -/
def session : Session where
  known := known
  items := .bindings (rack name).args :: replayed.items

theorem replayed_known : replayed.known = known := by cbv

theorem rack_name_mem : .type (rack name).toExpr ∈ replayed.items :=
  Session.mem_of_instance? (n := 49) (by cbv)

theorem reachable : Session.Reachable true session := by
  have hsome : (Session.replay? commands).isSome = true := by decide +kernel
  have hreplayed : Session.Reachable true replayed :=
    Session.reachable_getD hsome fun _ => Session.reachable_of_replay?
  have hstep : Session.Step true replayed
      ⟨replayed.known, .bindings (rack name).args :: replayed.items⟩ := .make (.args rack_name_mem)
  rw [replayed_known] at hstep
  exact .step hreplayed hstep

theorem full_of_path {s top : Instance} {nodes : List Instance}
    (hd : s.definition ∈ session.known.definitions) (hs : session.known.Full s)
    (h : session.known.Path s nodes top) : session.known.Full top := by
  have hall : ∀ d ∈ session.known.definitions, ∀ i ∈ session.known.supertypes d,
      session.known.Full i := by decide
  exact reachable.wellFormed.coherent.full_of_path hall hd hs h

theorem full_of_rack_path {nodes : List Instance} {top : Instance}
    (h : session.known.Path (rack (var "X")) nodes top) : session.known.Full top :=
  full_of_path (by decide) (by decide) h

/-- `item` on `Rack<X=X>`, where it is declared one level up, and on `Rack<X=Name>`. -/
theorem item_alike :
    session.known.find 1 "item" (rack (var "X")) =
      .ok (some ⟨1, 0, (source (var "X")).toExpr.toNullable⟩) ∧
    Alike (Option.Rel (Universe.FoundAlike [("X", name)]))
      (session.known.find 1 "item" (rack (var "X"))) (session.known.find 1 "item" (rack name)) := by
  have hfull (nodes : List Instance) (top : Instance)
      (h : Route session.known.ParentHop (rack (var "X")) nodes top) : session.known.Full top :=
    full_of_rack_path (h.imp fun _ _ => Universe.ParentHop.hop)
  have hσ : (rack (var "X")).toExpr.substitute [("X", name)] = .ok (rack name).toExpr := rfl
  obtain ⟨hfind, _⟩ := reachable.lookup_substitute hfull hσ 1 "item"
  exact ⟨rfl, hfind⟩

end Shelves

end NominalTypes
