import NominalTypes.Proofs.Bounds.Sessions
import NominalTypes.Proofs.Replay

/-!
# Bounds survive substitution

* `Session.Careful.bounds_survive`: in a careful run, what is found on a type and what stands above
  it can be instantiated again without failing at a bound;
* `Universe.Warranted.toExpr`, `Universe.tight_of_bounds`: two ways to meet the conditions, by taking
  references from the declaration and by not bounding parameters by parameters;
* `Session.Escapes`: what happens otherwise, each condition being given up in turn.
-/

namespace NominalTypes

/-! ## Ways to meet the conditions -/

namespace Universe

variable {U : Universe} {d : Definition} {args : Bindings}

/-- A reference with the bound that it was declared with. -/
theorem Warranted.toExpr {parameters : List Parameter} {p : Parameter} (hp : p ∈ parameters)
    (h : ∀ b, p.bound = some b → U.Admits b ∧ U.Warranted parameters b) :
    U.Warranted parameters p.toExpr := by
  obtain ⟨x, bound⟩ := p
  cases bound with
  | none => exact .var
  | some b =>
    obtain ⟨hadmits, hw⟩ := h b rfl
    exact .bounded hp rfl (fitsExpr_refl hadmits) hw hw

/-- Bounds that are no references never become any. -/
theorem tight_of_bounds (h : ∀ p ∈ U.parameters d, ∀ b ∈ p.bound, b.asVariable? = none) :
    U.Tight d args := by
  intro p hp declared hdeclared bound hbound argument _
  have hnot := h p hp declared hdeclared
  cases declared with
  | inst e bs n =>
    obtain ⟨above, _, rfl⟩ := Instance.substitute_toExpr (i := ⟨e, bs, n⟩).mp hbound
    exact refines_inst_left
  | var x b n => cases hnot
  | fn ps r =>
    by_cases hne : args = []
    · rw [hne, TypeExpr.substitute_nil] at hbound
      cases hbound
      exact refines_fn_left
    · rw [TypeExpr.substitute_of_ne_nil hne] at hbound
      obtain ⟨_, _, _, _, rfl⟩ := TypeExpr.instantiate_fn_eq_ok_iff.mp hbound
      exact refines_fn_left

end Universe

/-! ## Survival -/

namespace Session

variable {s : Session}

/-- In a careful run whose names and references are in order, the definition of every constructed
type that is mentioned in what is found on `s`, or in a supertype of `s` as seen from its arguments,
can be instantiated again with the same arguments as far as bounds are concerned. -/
theorem Careful.bounds_survive (h : s.Careful) (hu : s.Uniform) {i : Instance}
    (hi : .type i.toExpr ∈ s.items) :
    (∀ limit name found, s.known.find limit name i = .ok (some found) →
      ∀ c ∈ found.type.instances, s.known.KeepsBounds c) ∧
    (∀ nodes top, s.known.Path i nodes top →
      ∀ c ∈ top.toExpr.instances, s.known.KeepsBounds c) := by
  have hw := h.reachable.wellFormed
  have hs := h.all_proper hu
  have hbounded := hs.bounded hw hu
  have hsturdy : s.known.Sturdy i := hs.sturdy hw hu hi List.mem_cons_self
  have hkeeps {type : TypeExpr} (hadmits : s.known.Admits type) (hproper : type.All s.known.Proper)
      (c : Instance) (hc : c ∈ type.instances) : s.known.KeepsBounds c :=
    hw.coherent.keepsBounds hu.names (fun j hj => hadmits j (TypeExpr.instances_subset hc hj))
      (hproper c hc).2
  constructor
  · intro limit name found hfound
    obtain ⟨nodes, top, _, hroute, hown, hsub, _⟩ := Universe.route_of_findFrom_eq_some hfound
    have hp := List.mem_of_getElem? (getElem?_of_firstNamed? hown)
    exact hkeeps (hw.coherent.admits_found hsturdy.admitsArgs hfound)
      (hbounded.proper_property hsturdy hroute hp hsub)
  · intro nodes top hpath
    have htop := hbounded.sturdy_of_path hsturdy hpath
    exact hkeeps htop.admits htop.proper

end Session

namespace Kennels

open Command

/-- A class `Animal`, a class `Dog` that extends it, a class `Cage<A: Animal>`, a class
`Kennel<T: Animal>` with a property `cage` of type `Cage<A=T>`, a class `Pen<X: Dog>` that extends
`Kennel<T=X>`, and `Pen<X=Dog>`. -/
def commands : List Command := [
  startDraft "Animal" .classKind, close 0, startInstantiation 0, construct 1,
  startDraft "Dog" .classKind, inherit 3 2, close 4, startInstantiation 1, construct 5,
  startDraft "Cage" .classKind, addBoundedParameter 7 "A" 2, close 8,
  startDraft "Kennel" .classKind, addBoundedParameter 9 "T" 2, refer 10 "T",
  startInstantiation 2, bind 12 "A" 11, construct 13, addProperty 10 "cage" 14, close 15,
  startDraft "Pen" .classKind, addBoundedParameter 16 "X" 6, refer 17 "X",
  startInstantiation 3, bind 19 "T" 18, construct 20, inherit 17 21, close 22,
  startInstantiation 4, bind 23 "X" 6, construct 24]

def session : Session := (Session.replayClosed? commands).getD {}

def animal : Instance := ⟨⟨0, ⟨"default", "Animal"⟩, .classKind⟩, [], false⟩

def dog : Instance := ⟨⟨1, ⟨"default", "Dog"⟩, .classKind⟩, [], false⟩

def cage (a : TypeExpr) : Instance := ⟨⟨2, ⟨"default", "Cage"⟩, .classKind⟩, [("A", a)], false⟩

def kennel (t : TypeExpr) : Instance :=
  ⟨⟨3, ⟨"default", "Kennel"⟩, .classKind⟩, [("T", t)], false⟩

def pen (x : TypeExpr) : Instance := ⟨⟨4, ⟨"default", "Pen"⟩, .classKind⟩, [("X", x)], false⟩

def cageParameter : Parameter := ⟨"A", some animal.toExpr⟩

def kennelParameter : Parameter := ⟨"T", some animal.toExpr⟩

def penParameter : Parameter := ⟨"X", some dog.toExpr⟩

/-- What the commands declare. -/
def known : Universe where
  entries := #[
    ⟨animal.definition, some {}⟩,
    ⟨dog.definition, some { parent := some animal }⟩,
    ⟨(cage dog.toExpr).definition, some { parameters := [cageParameter] }⟩,
    ⟨(kennel dog.toExpr).definition, some {
      parameters := [kennelParameter]
      properties := [("cage", (cage kennelParameter.toExpr).toExpr)] }⟩,
    ⟨(pen dog.toExpr).definition, some {
      parent := some (kennel penParameter.toExpr)
      parameters := [penParameter] }⟩]

theorem session_known : session.known = known := by cbv

theorem reachable : Session.Reachable false session := by
  have hsome : (Session.replayClosed? commands).isSome = true := by decide +kernel
  exact Session.reachable_getD hsome fun _ => Session.reachable_of_replayClosed?

theorem pen_mem : .type (pen dog.toExpr).toExpr ∈ session.items :=
  Session.mem_of_instance? (n := 25) (by cbv)

theorem careful : session.Careful := by
  refine reachable.careful fun b h => ?_
  have hnone : session.items.all (·.bindings?.isNone) = true := by decide +kernel
  exact Bool.false_ne_true (List.all_eq_true.mp hnone _ h)

theorem unambiguous : session.known.Unambiguous := by
  have h : ∀ d ∈ known.definitions, ∀ e ∈ known.definitions, d.qualified = e.qualified → d = e := by
    decide
  rw [session_known]
  exact h

/-- All references come from the declarations. -/
theorem warrantedBodies : session.known.WarrantedBodies := by
  have hanimal : session.known.Admits animal.toExpr :=
    reachable.wellFormed.items _ (Session.mem_of_instance? (n := 2) (by cbv))
  have hdog : session.known.Admits dog.toExpr :=
    reachable.wellFormed.items _ (Session.mem_of_instance? (n := 6) (by cbv))
  rw [session_known] at hanimal hdog ⊢
  have hT : known.Warranted [kennelParameter] kennelParameter.toExpr :=
    .toExpr List.mem_cons_self fun _ h => by
      cases h
      exact ⟨hanimal, .inst⟩
  have hX : known.Warranted [penParameter] penParameter.toExpr :=
    .toExpr List.mem_cons_self fun _ h => by
      cases h
      exact ⟨hdog, .inst⟩
  have plain (ps : List Parameter) (d : Definition) :
      (TypeExpr.inst d [] false).All fun _ args => ∀ e ∈ args, known.Warranted ps e.2 :=
    TypeExpr.all_inst.mpr ⟨List.forall_mem_nil _, List.forall_mem_nil _⟩
  have applied {ps : List Parameter} {d e : Definition} {name : String} {p : Parameter}
      (hp : p.bound = some (.inst d [] false)) (hw : known.Warranted ps p.toExpr) :
      (TypeExpr.inst e [(name, p.toExpr)] false).All fun _ args =>
        ∀ e ∈ args, known.Warranted ps e.2 := by
    rw [TypeExpr.all_inst, List.forall_mem_singleton, List.forall_mem_singleton]
    refine ⟨hw, ?_⟩
    rw [Parameter.toExpr, hp]
    exact TypeExpr.all_bounded.mpr (plain ps d)
  have hdefinitions : known.definitions = [animal.definition, dog.definition,
    (cage dog.toExpr).definition, (kennel dog.toExpr).definition,
    (pen dog.toExpr).definition] := rfl
  intro d hd
  simp only [hdefinitions, List.mem_cons, List.not_mem_nil, or_false] at hd
  rcases hd with rfl | rfl | rfl | rfl | rfl
  · exact List.forall_mem_nil _
  · exact List.forall_mem_singleton.mpr (plain _ _)
  · exact List.forall_mem_singleton.mpr (plain _ _)
  · exact List.forall_mem_cons.mpr ⟨plain _ _, List.forall_mem_singleton.mpr (applied rfl hT)⟩
  · exact List.forall_mem_cons.mpr ⟨plain _ _, List.forall_mem_singleton.mpr (applied rfl hX)⟩

theorem all_tight : ∀ t, .type t ∈ session.items → t.All session.known.Tight := by
  have hbounds : ∀ d ∈ session.known.definitions, ∀ p ∈ session.known.parameters d,
      ∀ b ∈ p.bound, b.asVariable? = none := by
    rw [session_known]
    decide
  intro t ht i hi
  exact Universe.tight_of_bounds (hbounds _ (reachable.wellFormed.items _ ht i hi).1)

/-- `Pen<X=Dog>` has `cage` from `Kennel<T=Dog>`, where it is `Cage<A=Dog>`. -/
theorem cage_of_pen :
    session.known.find 1 "cage" (pen dog.toExpr) =
      .ok (some ⟨1, 0, (cage dog.toExpr).toExpr⟩) ∧
    session.known.KeepsBounds (cage dog.toExpr) ∧
    session.known.KeepsBounds (kennel dog.toExpr) := by
  have hfind : session.known.find 1 "cage" (pen dog.toExpr) =
      .ok (some ⟨1, 0, (cage dog.toExpr).toExpr⟩) := by
    rw [session_known]
    rfl
  have hpath : session.known.Path (pen dog.toExpr) [pen dog.toExpr, kennel dog.toExpr]
      (kennel dog.toExpr) := by
    rw [session_known]
    exact .up ⟨kennel penParameter.toExpr, List.mem_cons_self, rfl⟩ (.here _)
  obtain ⟨hfound, habove⟩ :=
    careful.bounds_survive ⟨unambiguous, warrantedBodies, all_tight⟩ pen_mem
  exact ⟨hfind, hfound 1 "cage" _ hfind _ List.mem_cons_self,
    habove _ _ hpath _ List.mem_cons_self⟩

end Kennels

/-! ## Escape -/

/-- Instantiation of a closed definition makes `i`, and fails at a bound on the arguments of
something found on `i`. -/
def Session.Escapes (s : Session) (i : Instance) : Prop :=
  (∃ b, .instantiation b ∈ s.items ∧ s.known.isClosed b.definition = true ∧
      b.construct s.known = .ok i) ∧
    ∃ limit name found, s.known.find limit name i = .ok (some found) ∧
      ∃ c ∈ found.type.instances, ¬ s.known.KeepsBounds c

theorem Session.escapes_of_found {s : Session} {i c : Instance} {b : Instantiation} {found : Found}
    {limit : Nat} {name definition parameter : String} {bound argument : TypeExpr}
    (hb : .instantiation b ∈ s.items) (hclosed : s.known.isClosed b.definition = true)
    (hmade : b.construct s.known = .ok i) (hfound : s.known.find limit name i = .ok (some found))
    (hc : c ∈ found.type.instances)
    (h : (⟨c.definition, c.args, c.nullable, limit⟩ : Instantiation).construct s.known =
      .error (.boundViolation definition parameter bound argument)) : s.Escapes i :=
  ⟨⟨b, hb, hclosed, hmade⟩, limit, name, found, hfound, c, hc, fun hkeeps => hkeeps _ _ _ _ _ h⟩

namespace Strangers

open Command

/-- Classes `Animal`, `Rock` and `Cage<A: Animal>`. -/
def cages : List Command := [
  startDraft "Animal" .classKind, close 0, startInstantiation 0, construct 1,
  startDraft "Rock" .classKind, close 3, startInstantiation 1, construct 4,
  startDraft "Cage" .classKind, addBoundedParameter 6 "A" 2, close 7]

def run (commands : List Command) : Session :=
  (Session.replayClosed? (cages ++ commands)).getD {}

def instanceOf (n : Nat) (name : String) (args : Bindings) : Instance :=
  ⟨⟨n, ⟨"default", name⟩, .classKind⟩, args, false⟩

def animal : Instance := instanceOf 0 "Animal" []

def rock : Instance := instanceOf 1 "Rock" []

def cage (a : TypeExpr) : Instance := instanceOf 2 "Cage" [("A", a)]

/-- The instantiation that makes `i`. -/
def making (i : Instance) : Instantiation := { definition := i.definition, args := i.args }

/-- The property `cage` of `i` is a `Cage` for something that is no `Animal`. -/
theorem escapes_of_run {commands : List Command} {n : Nat} {i : Instance} {a : TypeExpr}
    (hsome : (Session.replayClosed? (cages ++ commands)).isSome = true)
    (hmaking : (run commands).instantiation? n = some (making i))
    (hclosed : (run commands).known.isClosed i.definition = true)
    (hmade : (making i).construct (run commands).known = .ok i)
    (hfind : (run commands).known.find 256 "cage" i = .ok (some ⟨0, 0, (cage a).toExpr⟩))
    (h : (making (cage a)).construct (run commands).known =
      .error (.boundViolation "Cage" "A" animal.toExpr a)) :
    Session.Reachable false (run commands) ∧ (run commands).Escapes i :=
  ⟨Session.reachable_getD hsome fun _ => Session.reachable_of_replayClosed?,
    Session.escapes_of_found (Session.mem_of_instantiation? hmaking) hclosed hmade hfind
      List.mem_cons_self h⟩

/-! ### Without `Uniform.names` -/

/-- A class `Dog` that extends `Animal`, one that does not, a class `Poodle` that extends the latter,
`Kennel<T: Dog>` for the former with a property `cage` of type `Cage<A=T>`, and
`Kennel<T=Poodle>`. -/
def kennelCommands : List Command := [
  startDraft "Dog" .classKind, inherit 8 2, close 9, startInstantiation 3, construct 10,
  startDraft "Dog" .classKind, close 12, startInstantiation 4, construct 13,
  startDraft "Poodle" .classKind, inherit 15 14, close 16, startInstantiation 5, construct 17,
  startDraft "Kennel" .classKind, addBoundedParameter 19 "T" 11, refer 20 "T",
  startInstantiation 2, bind 22 "A" 21, construct 23, addProperty 20 "cage" 24, close 25,
  startInstantiation 6, bind 26 "T" 18, construct 27]

def poodle : Instance := instanceOf 5 "Poodle" []

def kennel : Instance := instanceOf 6 "Kennel" [("T", poodle.toExpr)]

theorem kennel_escapes :
    Session.Reachable false (run kennelCommands) ∧ (run kennelCommands).Escapes kennel := by
  have hsome : (Session.replayClosed? (cages ++ kennelCommands)).isSome = true := by decide +kernel
  refine escapes_of_run (n := 27) (a := poodle.toExpr) hsome ?_ ?_ ?_ ?_ ?_ <;> cbv

/-! ### Without `Uniform.bodies` -/

/-- `Zoo<T>` with a property `cage` of type `Cage<A=T>`, where the reference claims the bound
`Animal`, and `Zoo<T=Rock>`. -/
def zooCommands : List Command := [
  boundedVar "T" 2, startInstantiation 2, bind 9 "A" 8, construct 10,
  startDraft "Zoo" .classKind, addParameter 12 "T", addProperty 13 "cage" 11, close 14,
  startInstantiation 3, bind 15 "T" 5, construct 16]

def zoo : Instance := instanceOf 3 "Zoo" [("T", rock.toExpr)]

theorem zoo_escapes :
    Session.Reachable false (run zooCommands) ∧ (run zooCommands).Escapes zoo := by
  have hsome : (Session.replayClosed? (cages ++ zooCommands)).isSome = true := by decide +kernel
  refine escapes_of_run (n := 16) (a := rock.toExpr) hsome ?_ ?_ ?_ ?_ ?_ <;> cbv

/-! ### Without `Uniform.types` -/

/-- `Park<T: Animal, U: T>` with a property `cage` of type `Cage<A=U>`, and `Park<T=V, U=V>`, where
only the first `V` has a bound. -/
def parkCommands : List Command := [
  startDraft "Park" .classKind, addBoundedParameter 8 "T" 2, refer 9 "T",
  addBoundedParameter 9 "U" 10, refer 11 "U", startInstantiation 2, bind 13 "A" 12, construct 14,
  addProperty 11 "cage" 15, close 16, boundedVar "V" 2, var "V",
  startInstantiation 3, bind 19 "T" 17, bind 20 "U" 18, construct 21]

def freeV : TypeExpr := .var "V" none false

def park : Instance :=
  instanceOf 3 "Park" [("T", .var "V" (some animal.toExpr) false), ("U", freeV)]

theorem park_escapes :
    Session.Reachable false (run parkCommands) ∧ (run parkCommands).Escapes park := by
  have hsome : (Session.replayClosed? (cages ++ parkCommands)).isSome = true := by decide +kernel
  refine escapes_of_run (n := 21) (a := freeV) hsome ?_ ?_ ?_ ?_ ?_ <;> cbv

/-! ### Without `Careful` -/

/-- `Cage<A=V>` for a `V` with the bound `Animal`, in which `V` is replaced by `Rock`, and `Box<E>`
with a property `cage` of type `E`, for the result. -/
def boxCommands : List Command := [
  boundedVar "V" 2, startInstantiation 2, bind 9 "A" 8, construct 10,
  ofEntries [("V", 5)], substitute 11 12,
  startDraft "Box" .classKind, addParameter 14 "E", refer 15 "E", addProperty 15 "cage" 16,
  close 17, startInstantiation 3, bind 18 "E" 13, construct 19]

def box : Instance := instanceOf 3 "Box" [("E", (cage rock.toExpr).toExpr)]

theorem box_escapes :
    Session.Reachable false (run boxCommands) ∧ (run boxCommands).Escapes box := by
  have hsome : (Session.replayClosed? (cages ++ boxCommands)).isSome = true := by decide +kernel
  refine escapes_of_run (n := 19) (a := rock.toExpr) hsome ?_ ?_ ?_ ?_ ?_ <;> cbv

/-! ### Each of them -/

/-- Each of the four is made in a run of its own without instances of open definitions, and its
`cage` is out of bounds: on the `Kennel` for the ambiguous name, on the `Zoo` for a reference that
carries more than is declared, on the `Park` for the weaker bound of `U`, on the `Box` for the chosen
bindings. -/
theorem bounds_escape :
    (Session.Reachable false (run kennelCommands) ∧ (run kennelCommands).Escapes kennel) ∧
    (Session.Reachable false (run zooCommands) ∧ (run zooCommands).Escapes zoo) ∧
    (Session.Reachable false (run parkCommands) ∧ (run parkCommands).Escapes park) ∧
    (Session.Reachable false (run boxCommands) ∧ (run boxCommands).Escapes box) :=
  ⟨kennel_escapes, zoo_escapes, park_escapes, box_escapes⟩

end Strangers

end NominalTypes
