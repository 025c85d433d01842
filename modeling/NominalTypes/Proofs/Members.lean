import NominalTypes.Proofs.Acyclicity
import NominalTypes.Proofs.Composition
import NominalTypes.Proofs.Replay
import NominalTypes.Proofs.Requirements
import NominalTypes.Proofs.Subtyping

/-!
# The members of a type

Three searches go up the same chain of parents, and each hides in its own way what a nearer level
declares: the look-up of one name stops at the first level, the list of properties leaves out the
names seen before, and the list of names is freed of repetitions.

* `Universe.Nearest`: the first level that declares a name, and how far up it is;
* `Universe.find_of_nearest`: what is found where there is such a level;
* `Universe.listFrom_view`: a list of properties, read name by name, against the look-up of each;
* `Universe.collects_of_listFrom`: the same list against the list of names;
* `Session.Reachable.members_agree`: the three views side by side.
-/

namespace NominalTypes

/-! ## Types under one name -/

section Named

variable {name : String} {properties : List (String × TypeExpr)}

theorem typesNamed_append (name : String) (ps qs : List (String × TypeExpr)) :
    typesNamed name (ps ++ qs) = typesNamed name ps ++ typesNamed name qs := by
  rw [typesNamed, List.filter_append, List.map_append, ← typesNamed, ← typesNamed]

theorem typesNamed_eq_nil_iff : typesNamed name properties = [] ↔ name ∉ properties.map (·.1) := by
  simp only [typesNamed, List.map_eq_nil_iff, List.filter_eq_nil_iff, beq_iff_eq, List.mem_map,
    not_exists, not_and]

/-- What is found first is the first of that name. -/
theorem firstNamed?_eq_some {position : Nat} {type : TypeExpr}
    (h : firstNamed? name properties = some (position, type)) :
    properties.findIdx? (·.1 == name) = some position ∧
      ∃ rest, typesNamed name properties = type :: rest := by
  induction properties generalizing position with
  | nil => cases h
  | cons p rest ih =>
    rw [firstNamed?] at h
    rw [List.findIdx?_cons, typesNamed, List.filter_cons]
    split at h
    · next hp =>
      cases h
      rw [if_pos hp, if_pos hp]
      exact ⟨rfl, _, rfl⟩
    · next hp =>
      obtain ⟨found, hfound, heq⟩ := Option.map_eq_some_iff.mp h
      cases heq
      obtain ⟨hidx, tail, htail⟩ := ih hfound
      rw [if_neg hp, if_neg hp, hidx]
      exact ⟨rfl, tail, htail⟩

/-- Substitution keeps names, so it can be read name by name. -/
theorem TypeExpr.Substituted.typesNamed {σ : Bindings} {types results : List (String × TypeExpr)}
    (h : Substituted σ types results) (name : String) :
    List.Forall₂ (fun t u => t.substitute σ = .ok u) (typesNamed name types)
      (typesNamed name results) := by
  induction h with
  | nil => exact .nil
  | @cons p q _ _ hpq _ ih =>
    rw [NominalTypes.typesNamed, NominalTypes.typesNamed, List.filter_cons, List.filter_cons, hpq.1]
    split
    · exact .cons hpq.2 ih
    · exact ih

end Named

/-- Names that were there before make no difference. -/
theorem eraseDups_append_filter (seen new : List String) :
    (seen ++ new.filter (!seen.contains ·)).eraseDups = (seen ++ new).eraseDups := by
  simp only [List.eraseDups_append, List.removeAll, List.filter_filter, List.contains_eq_mem,
    Bool.and_self]

namespace Universe

variable {U : Universe} {limit hops depth : Nat} {name : String} {on above top : Instance}

/-! ## The nearest declaration -/

/-- The names that a definition declares itself. -/
def declaredNames (U : Universe) (d : Definition) : List String := (U.properties d).map (·.1)

/-- `top` is that many parents above, with its arguments as seen from below, and the first on the
way up that declares the name. -/
inductive Nearest (U : Universe) (name : String) : Instance → Nat → Instance → Prop where
  | here {on : Instance} : name ∈ U.declaredNames on.definition → Nearest U name on 0 on
  | up {on above top : Instance} {depth : Nat} : name ∉ U.declaredNames on.definition →
    U.ParentHop on above → Nearest U name above depth top → Nearest U name on (depth + 1) top

theorem ownProperty?_eq_none_iff {d : Definition} :
    U.ownProperty? d name = none ↔ name ∉ U.declaredNames d := firstNamed?_eq_none_iff

theorem Nearest.exists_ownProperty? (h : U.Nearest name on depth top) :
    ∃ position declared, U.ownProperty? top.definition name = some (position, declared) := by
  induction h with
  | @here on hmem =>
    cases hown : U.ownProperty? on.definition name with
    | none => exact absurd hmem (ownProperty?_eq_none_iff.mp hown)
    | some own => exact ⟨own.1, own.2, rfl⟩
  | up _ _ _ ih => exact ih

theorem findFrom_of_nearest {k : Nat} (h : U.Nearest name on k top) (hk : k ≤ hops) {position : Nat}
    {declared type : TypeExpr} (hown : U.ownProperty? top.definition name = some (position, declared))
    (hsub : declared.substitute top.args = .ok type) :
    U.findFrom limit name hops depth on = .ok (some ⟨depth + k, position, type⟩) := by
  induction h generalizing hops depth with
  | here _ =>
    rw [findFrom_own hown, hsub]
    rfl
  | @up on above top k hnot hup _ ih =>
    obtain ⟨parent, hp, hr⟩ := hup
    obtain ⟨hops, rfl⟩ : ∃ n, hops = n + 1 := ⟨hops - 1, by omega⟩
    rw [findFrom_succ (ownProperty?_eq_none_iff.mpr hnot) hp hr, ih (by omega) hown hsub,
      Nat.add_assoc, Nat.add_comm 1 k]

/-- A property is found up to as many parents above as the limit says. -/
theorem find_of_nearest (h : U.Nearest name on depth top) (hdepth : depth ≤ limit) {position : Nat}
    {declared type : TypeExpr} (hown : U.ownProperty? top.definition name = some (position, declared))
    (hsub : declared.substitute top.args = .ok type) :
    U.find limit name on = .ok (some ⟨depth, position, type⟩) := by
  rw [find, findFrom_of_nearest h hdepth hown hsub, Nat.zero_add]

/-! ## The list of properties -/

section Listing

variable {start : Instance} {seen : List String} {ps : List (String × TypeExpr)}

theorem typesNamed_visible {d : Definition} (h : name ∉ seen) :
    typesNamed name (U.visible seen d) = typesNamed name (U.properties d) := by
  rw [typesNamed, visible, List.filter_filter, typesNamed]
  congr 1
  refine List.filter_congr fun p _ => ?_
  by_cases hp : p.1 = name
  · simp [hp, h]
  · simp [hp]

theorem names_level {level : List (String × TypeExpr)}
    (hl : Bindings.remap (U.visible seen on.definition) on.args = .ok level) :
    level.map (·.1) = (U.declaredNames on.definition).filter (!seen.contains ·) := by
  rw [Bindings.remap_names hl, visible, declaredNames, List.filter_map]
  rfl

theorem not_mem_seen_of_level {level : List (String × TypeExpr)}
    (hl : Bindings.remap (U.visible seen on.definition) on.args = .ok level) :
    ∀ x ∈ level.map (·.1), x ∉ seen := by
  intro x hx
  rw [names_level hl, List.mem_filter] at hx
  simpa using hx.2

theorem not_mem_seen_of_listFrom (h : U.listFrom limit start hops seen on = .ok ps) :
    ∀ x ∈ ps.map (·.1), x ∉ seen := by
  induction hops generalizing seen on ps with
  | zero =>
    obtain ⟨level, hl, ⟨_, rfl⟩ | ⟨_, k, _, _, hk, _⟩⟩ := listFrom_eq_ok h
    · exact not_mem_seen_of_level hl
    · cases hk
  | succ k ih =>
    obtain ⟨level, hl, ⟨_, rfl⟩ | ⟨above, k', rest, _, hk, hrest, rfl⟩⟩ := listFrom_eq_ok h
    · exact not_mem_seen_of_level hl
    · cases hk
      intro x hx
      rw [List.map_append, List.mem_append] at hx
      rcases hx with hx | hx
      · exact not_mem_seen_of_level hl x hx
      · exact fun hseen => ih hrest x hx (List.mem_append_left _ hseen)

/-- The types listed under a name come from its nearest declaration, if there is one within reach. -/
theorem listFrom_view (h : U.listFrom limit start hops seen on = .ok ps) (hname : name ∉ seen) :
    (typesNamed name ps = [] ∧ ∀ depth, U.findFrom limit name hops depth on = .ok none) ∨
    ∃ k top, U.Nearest name on k top ∧ k ≤ hops ∧
      List.Forall₂ (fun t u => t.substitute top.args = .ok u)
        (typesNamed name (U.properties top.definition)) (typesNamed name ps) := by
  induction hops generalizing seen on ps with
  | zero =>
    obtain ⟨level, hl, ⟨hp, rfl⟩ | ⟨_, k, _, _, hk, _⟩⟩ := listFrom_eq_ok h
    · have hlevel := (Bindings.remap_eq_ok_iff.mp hl).typesNamed name
      rw [typesNamed_visible hname] at hlevel
      by_cases hown : name ∈ U.declaredNames on.definition
      · exact .inr ⟨0, on, .here hown, le_rfl, hlevel⟩
      · rw [typesNamed_eq_nil_iff.mpr hown, List.forall₂_nil_left_iff] at hlevel
        exact .inl ⟨hlevel, fun _ => findFrom_top (ownProperty?_eq_none_iff.mpr hown) hp⟩
    · cases hk
  | succ k ih =>
    obtain ⟨level, hl, hps⟩ := listFrom_eq_ok h
    have hlevel := (Bindings.remap_eq_ok_iff.mp hl).typesNamed name
    rw [typesNamed_visible hname] at hlevel
    by_cases hown : name ∈ U.declaredNames on.definition
    · refine .inr ⟨0, on, .here hown, Nat.zero_le _, ?_⟩
      rcases hps with ⟨_, rfl⟩ | ⟨above, _, rest, _, hk, hrest, rfl⟩
      · exact hlevel
      · have hseen : name ∈ level.map (·.1) := by
          rw [names_level hl, List.mem_filter]
          exact ⟨hown, by simpa using hname⟩
        have hnone : name ∉ rest.map (·.1) := fun hmem =>
          not_mem_seen_of_listFrom hrest name hmem (List.mem_append_right _ hseen)
        rw [typesNamed_append, typesNamed_eq_nil_iff.mpr hnone, List.append_nil]
        exact hlevel
    · rw [typesNamed_eq_nil_iff.mpr hown, List.forall₂_nil_left_iff] at hlevel
      have hnot := ownProperty?_eq_none_iff.mpr hown
      rcases hps with ⟨hp, rfl⟩ | ⟨above, _, rest, hup, hk, hrest, rfl⟩
      · exact .inl ⟨hlevel, fun _ => findFrom_top hnot hp⟩
      · cases hk
        have hseen : name ∉ seen ++ level.map (·.1) := by
          rw [List.mem_append, not_or]
          exact ⟨hname, typesNamed_eq_nil_iff.mp hlevel⟩
        rw [typesNamed_append, hlevel, List.nil_append]
        rcases ih hrest hseen with ⟨hnil, hfind⟩ | ⟨depth, top, hnearest, hdepth, htypes⟩
        · obtain ⟨parent, hp, hr⟩ := hup
          refine .inl ⟨hnil, fun depth => ?_⟩
          rw [findFrom_succ hnot hp hr, hfind]
        · exact .inr ⟨depth + 1, top, .up hown hup hnearest, Nat.succ_le_succ hdepth, htypes⟩

theorem allProperties_view (h : U.allProperties limit on = .ok ps) (name : String) :
    (name ∉ ps.map (·.1) ∧ U.find limit name on = .ok none) ∨
    ∃ found top, U.find limit name on = .ok (some found) ∧ U.Nearest name on found.depth top ∧
      (U.properties top.definition).findIdx? (·.1 == name) = some found.position ∧
      List.Forall₂ (fun t u => t.substitute top.args = .ok u)
        (typesNamed name (U.properties top.definition)) (typesNamed name ps) ∧
      (typesNamed name ps).head? = some found.type := by
  rcases listFrom_view h List.not_mem_nil with ⟨hnil, hfind⟩ | ⟨k, top, hnearest, hk, htypes⟩
  · exact .inl ⟨typesNamed_eq_nil_iff.mp hnil, hfind 0⟩
  · obtain ⟨position, declared, hown⟩ := hnearest.exists_ownProperty?
    obtain ⟨hidx, rest, hrest⟩ := firstNamed?_eq_some hown
    have hfirst := htypes
    rw [hrest, List.forall₂_cons_left_iff] at hfirst
    obtain ⟨type, rest', hsub, _, htypes'⟩ := hfirst
    refine .inr ⟨⟨k, position, type⟩, top, find_of_nearest hnearest hk hown hsub, hnearest, hidx,
      htypes, ?_⟩
    rw [htypes', List.head?_cons]

/-! ## The list of names -/

theorem collects_of_listFrom (h : U.listFrom limit start hops seen on = .ok ps) :
    U.Collects (some on.definition) seen.eraseDups (seen ++ ps.map (·.1)).eraseDups := by
  have hpush {seen : List String} {on : Instance} {level : List (String × TypeExpr)}
      (hl : Bindings.remap (U.visible seen on.definition) on.args = .ok level) :
      pushNew seen.eraseDups (U.declaredNames on.definition) =
        (seen ++ level.map (·.1)).eraseDups := by
    rw [pushNew_eraseDups, names_level hl, eraseDups_append_filter]
  induction hops generalizing seen on ps with
  | zero =>
    obtain ⟨level, hl, ⟨hp, rfl⟩ | ⟨_, k, _, _, hk, _⟩⟩ := listFrom_eq_ok h
    · refine .level ?_
      rw [hp, ← declaredNames, hpush hl]
      exact .done _
    · cases hk
  | succ k ih =>
    obtain ⟨level, hl, ⟨hp, rfl⟩ | ⟨above, k', rest, ⟨parent, hp, hr⟩, hk, hrest, rfl⟩⟩ :=
      listFrom_eq_ok h
    · refine .level ?_
      rw [hp, ← declaredNames, hpush hl]
      exact .done _
    · cases hk
      refine .level ?_
      rw [hp, ← declaredNames, hpush hl, Option.map_some, ← Instance.definition_remap hr,
        List.map_append, ← List.append_assoc]
      exact ih hrest

theorem Coherent.propertyNames_eq (hU : U.Coherent) (hd : on.definition ∈ U.definitions)
    (h : U.allProperties limit on = .ok ps) :
    U.propertyNames on.definition = (ps.map (·.1)).eraseDups := by
  have hcollects := collects_of_listFrom h
  rw [List.eraseDups_nil, List.nil_append] at hcollects
  exact ((hU.collects_iff hd).mp hcollects).symm

end Listing

end Universe

/-! ## Reachable sessions -/

namespace Session

variable {lenient : Bool} {S : Session}

/-- Wherever all properties can be listed, each name can be looked up: what is found is the first of
the types listed under the name, and these are the overloads of the nearest level that declares it,
as seen from the type.  The names listed are the property names of the definition. -/
theorem Reachable.members_agree (h : Reachable lenient S) {s : Instance}
    (hs : .type s.toExpr ∈ S.items) {limit : Nat} {ps : List (String × TypeExpr)}
    (hps : S.known.allProperties limit s = .ok ps) :
    (∀ name, ∃ answer, S.known.find limit name s = .ok answer ∧
      (answer = none ↔ name ∉ ps.map (·.1)) ∧
      ∀ found, answer = some found → ∃ top, S.known.Nearest name s found.depth top ∧
        (S.known.properties top.definition).findIdx? (·.1 == name) = some found.position ∧
        List.Forall₂ (fun t u => t.substitute top.args = .ok u)
          (typesNamed name (S.known.properties top.definition)) (typesNamed name ps) ∧
        (typesNamed name ps).head? = some found.type) ∧
    S.known.propertyNames s.definition = (ps.map (·.1)).eraseDups := by
  refine ⟨fun name => ?_, h.wellFormed.coherent.propertyNames_eq (h.definition_mem hs) hps⟩
  rcases Universe.allProperties_view hps name with
    ⟨hnot, hfind⟩ | ⟨found, top, hfind, hnearest, hidx, htypes, hhead⟩
  · exact ⟨none, hfind, ⟨fun _ => hnot, fun _ => rfl⟩, nofun⟩
  · refine ⟨some found, hfind, ⟨nofun, fun hnot => ?_⟩, ?_⟩
    · rw [typesNamed_eq_nil_iff.mpr hnot] at hhead
      cases hhead
    · rintro _ ⟨⟩
      exact ⟨top, hnearest, hidx, htypes, hhead⟩

end Session

namespace Layers

open Command

/-- A class `Base<T>` with two overloads of `f` and a property `g`, a class `Middle<U>` that extends
`Base<T=U>` and declares `g` anew, a class `Top` that extends `Middle<U=Name>`, and its instance. -/
def commands : List Command := [
  startDraft "Name" .classKind, close 0, startInstantiation 0, construct 1,
  startDraft "Base" .classKind, addParameter 3 "T", refer 4 "T", fn [("x", 5)] 2,
  fn [("x", 5), ("y", 5)] 2, addProperty 4 "f" 6, addProperty 8 "f" 7, addProperty 9 "g" 5, close 10,
  startDraft "Middle" .classKind, addParameter 11 "U", refer 12 "U",
  startInstantiation 1, bind 14 "T" 13, construct 15, inherit 12 16, addProperty 17 "g" 2, close 18,
  startDraft "Top" .classKind, startInstantiation 2, bind 20 "U" 2, construct 21, inherit 19 22,
  close 23, startInstantiation 3, construct 24]

def session : Session := (Session.replay? commands).getD {}

def name : TypeExpr := .inst ⟨0, ⟨"default", "Name"⟩, .classKind⟩ [] false

def base (t : TypeExpr) : Instance := ⟨⟨1, ⟨"default", "Base"⟩, .classKind⟩, [("T", t)], false⟩

def middle (u : TypeExpr) : Instance :=
  ⟨⟨2, ⟨"default", "Middle"⟩, .classKind⟩, [("U", u)], false⟩

def top : Instance := ⟨⟨3, ⟨"default", "Top"⟩, .classKind⟩, [], false⟩

/-- The overloads of `f`, then `g`. -/
def baseProperties (t : TypeExpr) : List (String × TypeExpr) := [
  ("f", .fn [("x", t)] name), ("f", .fn [("x", t), ("y", t)] name), ("g", t)]

/-- What the commands declare. -/
def known : Universe where
  entries := #[
    ⟨⟨0, ⟨"default", "Name"⟩, .classKind⟩, some {}⟩,
    ⟨(base name).definition, some {
      parameters := [⟨"T", none⟩]
      properties := baseProperties (.var "T" none false) }⟩,
    ⟨(middle name).definition, some {
      parent := some (base (.var "U" none false))
      parameters := [⟨"U", none⟩]
      properties := [("g", name)] }⟩,
    ⟨top.definition, some { parent := some (middle name) }⟩]

theorem session_known : session.known = known := by cbv

theorem reachable : Session.Reachable true session := by
  have hsome : (Session.replay? commands).isSome = true := by decide +kernel
  exact Session.reachable_getD hsome fun _ => Session.reachable_of_replay?

theorem top_mem : .type top.toExpr ∈ session.items := Session.mem_of_instance? (n := 25) (by cbv)

/-- What `Top` has: its parent's `g` hides the one further up. -/
def listed : List (String × TypeExpr) := ("g", name) :: (baseProperties name).take 2

theorem top_members :
    session.known.allProperties 2 top = .ok listed ∧
    (∃ found, session.known.find 2 "f" top = .ok (some found) ∧
      (typesNamed "f" listed).head? = some found.type) ∧
    session.known.propertyNames top.definition = ["g", "f"] := by
  have hlisted : session.known.allProperties 2 top = .ok listed := by
    rw [session_known]
    rfl
  obtain ⟨hfind, hnames⟩ := reachable.members_agree top_mem hlisted
  refine ⟨hlisted, ?_, hnames⟩
  obtain ⟨answer, hanswer, hnone, hsome⟩ := hfind "f"
  cases answer with
  | none => exact absurd (hnone.mp rfl) (by decide)
  | some found =>
    obtain ⟨_, _, _, _, hhead⟩ := hsome found rfl
    exact ⟨found, hanswer, hhead⟩

end Layers

end NominalTypes
