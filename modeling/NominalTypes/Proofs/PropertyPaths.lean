import NominalTypes.Proofs.Specialization.Lookup

/-!
# Paths of properties

Properties looked up one after the other, each on the type found before.  In a universe whose bodies
give each definition exactly the arguments for its parameters, and from a type without variables
that does so too:

* `Universe.Coherent.sound_substitute`: what a body mentions, seen from such a type, is again one;
* `Universe.Coherent.findIn_sound`: so is what is found on it, and no argument is missing;
* `Universe.Coherent.findAlong_sound`, `Session.Reachable.property_path_sound`: this goes on along
  every path.
-/

namespace NominalTypes

namespace Universe

/-- The type at the end of a path, if there is a property for each name. -/
def findAlong (U : Universe) (limit : Nat) :
    (path : List String) → TypeExpr → Except Fault (Option TypeExpr)
  | [], t => .ok (some t)
  | name :: rest, t => do
    match ← U.findIn limit name t with
    | none => return none
    | some found => U.findAlong limit rest found.type

/-! ## Exact arguments -/

/-- The definition is closed, and the names are those of its parameters. -/
def Exact (U : Universe) (d : Definition) (names : List String) : Prop :=
  U.isClosed d = true ∧ (∀ p ∈ U.parameters d, p.name ∈ names) ∧
    ∀ x ∈ names, Parameter.declares (U.parameters d) x = true

instance (U : Universe) (d : Definition) (names : List String) : Decidable (U.Exact d names) :=
  inferInstanceAs (Decidable (_ ∧ _ ∧ _))

def ExactBodies (U : Universe) : Prop :=
  ∀ d ∈ U.definitions, U.isClosed d = true → ∀ t ∈ (U.body d).types, t.Everywhere U.Exact

instance (U : Universe) : Decidable U.ExactBodies :=
  inferInstanceAs (Decidable (∀ d ∈ U.definitions, _ → ∀ t ∈ (U.body d).types, _))

/-- Without variables, and with exact arguments everywhere. -/
def Sound (U : Universe) (t : TypeExpr) : Prop := t.references = [] ∧ t.Everywhere U.Exact

variable {U : Universe} {s : Instance} {limit : Nat} {name : String}

theorem Sound.full (h : U.Sound s.toExpr) : U.Full s := by
  intro p hp
  obtain ⟨⟨_, hfull, _⟩, _⟩ := TypeExpr.everywhere_inst.mp h.2
  exact Bindings.binds_iff.mpr (hfull p hp)

theorem Sound.args (h : U.Sound s.toExpr) : ∀ e ∈ s.args, U.Sound e.2 := by
  obtain ⟨hground, hexact⟩ := h
  rw [Instance.toExpr, TypeExpr.references, TypeExpr.referencesOfEach_eq_flatMap,
    List.flatMap_eq_nil_iff] at hground
  obtain ⟨_, hargs⟩ := TypeExpr.everywhere_inst.mp hexact
  exact fun e he => ⟨hground e he, hargs e he⟩

theorem Coherent.exact_of_mem_types (hU : U.Coherent) (hb : U.ExactBodies) {d : Definition}
    {t : TypeExpr} (ht : t ∈ (U.body d).types) : t.Everywhere U.Exact := by
  cases hd : U.body? d with
  | none =>
    rw [body, hd] at ht
    exact absurd ht List.not_mem_nil
  | some b =>
    obtain ⟨e, he, heb⟩ := hU.exists_definition hd
    have hclosed : U.isClosed e = true := by rw [isClosed, heb, Option.isSome_some]
    rw [body_of_body? hd, ← body_of_body? heb] at ht
    exact hb e he hclosed t ht

/-! ## One look-up -/

/-- Arguments without references leave none in a declared type. -/
theorem Coherent.references_substitute_eq_nil (hU : U.Coherent) (hs : U.Full s)
    (hargs : ∀ e ∈ s.args, e.2.references = []) {t r : TypeExpr}
    (ht : t ∈ (U.body s.definition).types) (h : t.substitute s.args = .ok r) :
    r.references = [] := by
  by_cases hnil : s.args = []
  · rw [hnil, TypeExpr.substitute_nil] at h
    cases h
    exact hU.references_eq_nil hs hnil ht
  · rw [TypeExpr.substitute_of_ne_nil hnil] at h
    rw [TypeExpr.references_instantiate h, List.flatMap_eq_nil_iff]
    exact fun v _ => TypeExpr.broughtIn_eq_nil hargs v

theorem Coherent.sound_substitute (hU : U.Coherent) (hb : U.ExactBodies) (hs : U.Sound s.toExpr)
    {t r : TypeExpr} (ht : t ∈ (U.body s.definition).types) (h : t.substitute s.args = .ok r) :
    U.Sound r :=
  ⟨hU.references_substitute_eq_nil hs.full (fun e he => (hs.args e he).1) ht h,
    (hU.exact_of_mem_types hb ht).substitute (fun e he => (hs.args e he).2) h⟩

theorem Coherent.sound_hop (hU : U.Coherent) (hb : U.ExactBodies) {above : Instance}
    (h : U.Hop s above) (hs : U.Sound s.toExpr) : U.Sound above.toExpr := by
  obtain ⟨i, hi, hr⟩ := h
  exact hU.sound_substitute hb hs (Body.supertype_mem_types hi)
    (Instance.substitute_toExpr.mpr ⟨above, hr, rfl⟩)

theorem Coherent.sound_of_route (hU : U.Coherent) (hb : U.ExactBodies) (hs : U.Sound s.toExpr)
    {nodes : List Instance} {top : Instance} (h : Route U.ParentHop s nodes top) :
    U.Sound top.toExpr :=
  h.forall_mem (P := fun n => U.Sound n.toExpr) hs (fun _ _ hab ha => hU.sound_hop hb hab.hop ha)
    top h.end_mem

theorem Coherent.sound_find (hU : U.Coherent) (hb : U.ExactBodies) (hs : U.Sound s.toExpr)
    {found : Found} (h : U.find limit name s = .ok (some found)) : U.Sound found.type := by
  obtain ⟨_, top, declared, hroute, hown, hsub, _⟩ := route_of_findFrom_eq_some h
  have hmem := List.mem_of_getElem? (getElem?_of_firstNamed? hown)
  exact hU.sound_substitute hb (hU.sound_of_route hb hs hroute) (Body.property_mem_types hmem) hsub

theorem Coherent.find_eq_error (hU : U.Coherent) (hb : U.ExactBodies) (hs : U.Sound s.toExpr)
    {e : Fault} (h : U.find limit name s = .error e) :
    e = .recursionLimit limit (.lookingUp name) := by
  obtain ⟨_, top, hroute, hcause⟩ := route_of_findFrom_eq_error h
  have hfull := (hU.sound_of_route hb hs hroute).full
  rcases hcause with hlimit | ⟨p, hp, herr⟩ | ⟨i, hi, herr⟩
  · exact hlimit
  · obtain ⟨u, hu⟩ := hU.exists_substitute hfull (Body.property_mem_types hp)
    rw [herr] at hu
    cases hu
  · obtain ⟨above, habove⟩ := hU.exists_remap hfull hi
    rw [herr] at habove
    cases habove

/-- The only fault is a chain of parents longer than the limit. -/
theorem Coherent.findIn_sound (hU : U.Coherent) (hb : U.ExactBodies) {t : TypeExpr}
    (ht : U.Sound t) (limit : Nat) (name : String) :
    (∀ e, U.findIn limit name t = .error e → e = .recursionLimit limit (.lookingUp name)) ∧
      ∀ found, U.findIn limit name t = .ok (some found) → U.Sound found.type := by
  cases t with
  | inst d args n =>
    have hs : U.Sound (Instance.toExpr ⟨d, args, n⟩) := ht
    exact ⟨fun _ h => hU.find_eq_error hb hs h, fun _ h => hU.sound_find hb hs h⟩
  | var x b n =>
    have hnil := ht.1
    cases b <;> cases hnil
  | fn ps r =>
    rw [findIn]
    constructor
    · intro _ h
      cases h
    · intro _ h
      cases h

/-! ## Paths -/

theorem findAlong_cons (U : Universe) (limit : Nat) (name : String) (path : List String)
    (t : TypeExpr) :
    U.findAlong limit (name :: path) t = (U.findIn limit name t >>= fun
      | none => .ok none
      | some found => U.findAlong limit path found.type) := rfl

theorem Coherent.findAlong_sound (hU : U.Coherent) (hb : U.ExactBodies) {t : TypeExpr}
    (ht : U.Sound t) (limit : Nat) (path : List String) :
    (∀ e, U.findAlong limit path t = .error e →
      ∃ name ∈ path, e = .recursionLimit limit (.lookingUp name)) ∧
      ∀ r, U.findAlong limit path t = .ok (some r) → U.Sound r := by
  induction path generalizing t with
  | nil =>
    refine ⟨nofun, fun r h => ?_⟩
    cases h
    exact ht
  | cons name rest ih =>
    obtain ⟨hfault, hfound⟩ := hU.findIn_sound hb ht limit name
    rw [findAlong_cons]
    cases h : U.findIn limit name t with
    | error e =>
      refine ⟨fun e' h' => ?_, nofun⟩
      cases h'
      exact ⟨name, List.mem_cons_self, hfault e h⟩
    | ok answer =>
      cases answer with
      | none => exact ⟨nofun, nofun⟩
      | some found =>
        obtain ⟨hfaults, htypes⟩ := ih (hfound found h)
        refine ⟨fun e h' => ?_, htypes⟩
        obtain ⟨x, hx, he⟩ := hfaults e h'
        exact ⟨x, List.mem_cons_of_mem name hx, he⟩

end Universe

/-! ## Reachable sessions -/

namespace Session

variable {lenient : Bool} {S : Session}

theorem Reachable.property_path_sound (h : Reachable lenient S) (hb : S.known.ExactBodies)
    {s : Instance} (hground : s.toExpr.references = []) (hexact : s.toExpr.Everywhere S.known.Exact)
    (limit : Nat) (path : List String) :
    (∀ x, S.known.findAlong limit path s.toExpr ≠ .error (.unboundParameter x)) ∧
      ∀ t, S.known.findAlong limit path s.toExpr = .ok (some t) →
        t.references = [] ∧ t.Everywhere S.known.Exact := by
  have hs : S.known.Sound s.toExpr := ⟨hground, hexact⟩
  obtain ⟨hfault, hfound⟩ := h.wellFormed.coherent.findAlong_sound hb hs limit path
  refine ⟨fun x hx => ?_, hfound⟩
  obtain ⟨name, _, he⟩ := hfault _ hx
  cases he

end Session

namespace Shelves

theorem exactBodies : session.known.ExactBodies := by decide

/-- The steps on the way are `Source<T=Name>?`, `Source<T=Name>` and `Name?`. -/
theorem item_rest_item :
    session.known.findAlong 2 ["item", "rest", "item"] (rack name).toExpr =
      .ok (some name.toNullable) ∧
    name.toNullable.references = [] ∧ name.toNullable.Everywhere session.known.Exact := by
  have hexact : (rack name).toExpr.Everywhere session.known.Exact := by decide
  have hground : (rack name).toExpr.references = [] := rfl
  have hfound : session.known.findAlong 2 ["item", "rest", "item"] (rack name).toExpr =
      .ok (some name.toNullable) := rfl
  obtain ⟨_, hsound⟩ := reachable.property_path_sound exactBodies hground hexact 2
    ["item", "rest", "item"]
  exact ⟨hfound, hsound _ hfound⟩

end Shelves

end NominalTypes
