import NominalTypes.Conformance
import NominalTypes.Proofs.Outcome
import NominalTypes.Proofs.Equality

/-!
# What interfaces require

What the check of a definition against its interfaces says, for `required i` being all properties of
an interface `i`:

* `Agree`, `Met`: the interfaces require the same types under every common name, and all that they
  require is declared;
* `FirstsAlike`: the comparison that is made, of the first interface that requires a name with each
  of the others, by number of types and inclusion in one direction;
* `Universe.conform_judges`: the outcome is decided by `FirstsAlike`, one group of types after the
  other (`gathered_foldlM`).
-/

namespace NominalTypes

/-! ## What interfaces require -/

/-- The types under one name. -/
def typesNamed (name : String) (properties : List (String × TypeExpr)) : List TypeExpr :=
  (properties.filter (·.1 == name)).map (·.2)

/-- Both lists hold the same types, no matter how often. -/
def SameTypes (ts us : List TypeExpr) : Prop :=
  (∀ t ∈ ts, ∃ u ∈ us, t.sameAs u = true) ∧ ∀ u ∈ us, ∃ t ∈ ts, u.sameAs t = true

section Requirements

variable (required : Instance → List (String × TypeExpr)) (interfaces : List Instance)

def Agree : Prop :=
  ∀ i ∈ interfaces, ∀ j ∈ interfaces, ∀ name, name ∈ (required i).map (·.1) →
    name ∈ (required j).map (·.1) →
    SameTypes (typesNamed name (required i)) (typesNamed name (required j))

def Met (properties : List (String × TypeExpr)) : Prop :=
  ∀ i ∈ interfaces, ∀ r ∈ required i, ∃ p ∈ properties, p.1 = r.1 ∧ p.2.sameAs r.2 = true

def first? (name : String) : Option Instance :=
  interfaces.find? fun i => (required i).any (·.1 == name)

def FirstsAlike : Prop :=
  ∀ name f, first? required interfaces name = some f →
    ∀ j ∈ interfaces, name ∈ (required j).map (·.1) →
      (typesNamed name (required f)).length = (typesNamed name (required j)).length ∧
        ∀ t ∈ typesNamed name (required f), ∃ u ∈ typesNamed name (required j), t.sameAs u = true

end Requirements

def IsClash (outcome : Except Fault Unit) : Prop :=
  ∃ definition name first second,
    outcome = .error (.interfaceClash definition name first second)

def IsUnmet (outcome : Except Fault Unit) : Prop :=
  ∃ definition interface name type,
    outcome = .error (.notImplemented definition interface name type)

/-- The outcome tells whether the requirements are consistent, and if so, whether they are met. -/
def Judges (outcome : Except Fault Unit) (consistent met : Prop) : Prop :=
  (outcome = .ok () ↔ consistent ∧ met) ∧ (IsClash outcome ↔ ¬ consistent) ∧
    (IsUnmet outcome ↔ consistent ∧ ¬ met)

variable {required : Instance → List (String × TypeExpr)} {interfaces : List Instance}
variable {name : String} {properties : List (String × TypeExpr)}

theorem mem_typesNamed_iff {t : TypeExpr} :
    t ∈ typesNamed name properties ↔ (name, t) ∈ properties := by
  simp only [typesNamed, List.mem_map, List.mem_filter, beq_iff_eq]
  constructor
  · rintro ⟨p, ⟨hp, rfl⟩, rfl⟩
    exact hp
  · intro h
    exact ⟨(name, t), ⟨h, rfl⟩, rfl⟩

theorem mem_of_first? {f : Instance} (h : first? required interfaces name = some f) :
    f ∈ interfaces ∧ name ∈ (required f).map (·.1) := by
  refine ⟨List.mem_of_find?_eq_some h, ?_⟩
  have hany := List.find?_some h
  obtain ⟨p, hp, hname⟩ := List.any_eq_true.mp hany
  exact List.mem_map.mpr ⟨p, hp, beq_iff_eq.mp hname⟩

theorem exists_first? {j : Instance} (hj : j ∈ interfaces) (hname : name ∈ (required j).map (·.1)) :
    ∃ f, first? required interfaces name = some f := by
  obtain ⟨p, hp, rfl⟩ := List.mem_map.mp hname
  refine Option.isSome_iff_exists.mp (List.find?_isSome.mpr ⟨j, hj, ?_⟩)
  exact List.any_eq_true.mpr ⟨p, hp, beq_self_eq_true p.1⟩

/-! ## Groups of requirements -/

theorem key_of_find? {α : Type} {key : α → String} {l : List α} {a : α}
    (h : l.find? (fun x => key x == name) = some a) : key a = name :=
  beq_iff_eq.mp (List.find?_some (p := fun x => key x == name) h)

/-- What one interface requires under one name. -/
structure Group where
  interface : Instance
  name : String
  types : List TypeExpr

/-- All groups, in the order in which they are looked at. -/
def groups (required : Instance → List (String × TypeExpr)) (interfaces : List Instance) :
    List Group :=
  interfaces.flatMap fun i => (groupByName (required i)).map fun g => ⟨i, g.1, g.2⟩

theorem mem_groups_iff {g : Group} :
    g ∈ groups required interfaces ↔
      g.interface ∈ interfaces ∧ g.name ∈ (required g.interface).map (·.1) ∧
        g.types = typesNamed g.name (required g.interface) := by
  simp only [groups, groupByName, List.map_map, List.mem_flatMap, List.mem_map, List.mem_eraseDups,
    Function.comp_apply]
  constructor
  · rintro ⟨i, hi, n, hn, rfl⟩
    exact ⟨hi, hn, rfl⟩
  · rintro ⟨hi, hn, ht⟩
    refine ⟨g.interface, hi, g.name, hn, ?_⟩
    rw [typesNamed] at ht
    rw [← ht]

theorem find?_groupByName (name : String) (properties : List (String × TypeExpr)) :
    (groupByName properties).find? (·.1 == name) =
      if properties.any (·.1 == name) then some (name, typesNamed name properties) else none := by
  have hmem (g : String × List TypeExpr) :
      g ∈ groupByName properties ↔
        properties.any (·.1 == g.1) = true ∧ g.2 = typesNamed g.1 properties := by
    simp only [groupByName, List.mem_map, List.mem_eraseDups, List.any_eq_true, beq_iff_eq]
    constructor
    · rintro ⟨n, ⟨p, hp, rfl⟩, rfl⟩
      exact ⟨⟨p, hp, rfl⟩, rfl⟩
    · rintro ⟨⟨p, hp, hpg⟩, ht⟩
      refine ⟨g.1, ⟨p, hp, hpg⟩, ?_⟩
      rw [← typesNamed, ← ht]
  cases hg : (groupByName properties).find? (·.1 == name) with
  | none =>
    rw [List.find?_eq_none] at hg
    split
    · next hany =>
      have hin := (hmem (name, typesNamed name properties)).mpr ⟨hany, rfl⟩
      exact absurd (beq_self_eq_true name) (hg _ hin)
    · rfl
  | some g =>
    obtain ⟨hany, htypes⟩ := (hmem g).mp (List.mem_of_find?_eq_some hg)
    have hname : g.1 = name := key_of_find? hg
    rw [hname] at hany htypes
    rw [if_pos hany, ← htypes, ← hname]

theorem find?_groups (name : String) :
    (groups required interfaces).find? (·.name == name) =
      (first? required interfaces name).map fun f => ⟨f, name, typesNamed name (required f)⟩ := by
  induction interfaces with
  | nil => rfl
  | cons i rest ih =>
    have hcons : groups required (i :: rest) =
        ((groupByName (required i)).map fun g => ⟨i, g.1, g.2⟩) ++ groups required rest :=
      List.flatMap_cons
    have hi : ((groupByName (required i)).map fun g => (⟨i, g.1, g.2⟩ : Group)).find?
        (·.name == name) = ((groupByName (required i)).find? (·.1 == name)).map
          fun g => ⟨i, g.1, g.2⟩ := List.find?_map ..
    rw [hcons, List.find?_append, ih, hi, find?_groupByName, first?, first?, List.find?_cons]
    cases (required i).any (·.1 == name) <;> rfl

/-! ## Comparing groups -/

theorem sameSignatures_iff {ts us : List TypeExpr} :
    sameSignatures ts us = true ↔
      ts.length = us.length ∧ ∀ t ∈ ts, ∃ u ∈ us, t.sameAs u = true := by
  simp [sameSignatures]

/-- What is kept of the groups seen so far: the first one of each name. -/
def Keeps (seen : List Group) (kept : List Requirement) : Prop :=
  ∀ r, r ∈ kept ↔ seen.find? (·.name == r.name) = some ⟨r.interface, r.name, r.types⟩

theorem Keeps.find? {seen : List Group} {kept : List Requirement} (h : Keeps seen kept)
    (name : String) :
    kept.find? (·.name == name) =
      (seen.find? (·.name == name)).map fun g => ⟨g.name, g.types, g.interface⟩ := by
  cases hr : kept.find? (·.name == name) with
  | none =>
    cases hg : seen.find? (·.name == name) with
    | none => rfl
    | some g =>
      have hname : g.name = name := key_of_find? hg
      have hmem : ⟨g.name, g.types, g.interface⟩ ∈ kept := by
        rw [h, hname, hg, ← hname]
      have hne := List.find?_eq_none.mp hr _ hmem
      exact absurd (beq_iff_eq.mpr hname) hne
  | some r =>
    have hname : r.name = name := key_of_find? hr
    have hmem := (h r).mp (List.mem_of_find?_eq_some hr)
    rw [hname] at hmem
    rw [hmem, Option.map_some, ← hname]

theorem Keeps.old {seen : List Group} {kept : List Requirement} (h : Keeps seen kept) {f g : Group}
    (hf : seen.find? (·.name == g.name) = some f) : Keeps (seen ++ [g]) kept := by
  intro r
  rw [h r, List.find?_append]
  cases hr : seen.find? (·.name == r.name) with
  | some x => rfl
  | none =>
    have hne : (g.name == r.name) = false := by
      rw [beq_eq_false_iff_ne]
      intro heq
      rw [heq, hr] at hf
      cases hf
    simp [hne]

theorem Keeps.new {seen : List Group} {kept : List Requirement} (h : Keeps seen kept) {g : Group}
    (hg : seen.find? (·.name == g.name) = none) :
    Keeps (seen ++ [g]) (kept ++ [⟨g.name, g.types, g.interface⟩]) := by
  intro r
  rw [List.mem_append, List.mem_singleton, h r, List.find?_append]
  by_cases hr : g.name = r.name
  · rw [hr] at hg
    have hbeq : (g.name == r.name) = true := beq_iff_eq.mpr hr
    rw [hg]
    simp only [reduceCtorEq, false_or, Option.none_or, List.find?_cons, hbeq, Option.some.injEq]
    cases r
    cases g
    simp only [Requirement.mk.injEq, Group.mk.injEq]
    tauto
  · have hbeq : (g.name == r.name) = false := beq_eq_false_iff_ne.mpr hr
    have hne : r ≠ ⟨g.name, g.types, g.interface⟩ := by
      rintro rfl
      exact hr rfl
    simp [hbeq, hne]

theorem require_old {definition : String} {seen : List Group} {kept : List Requirement}
    (h : Keeps seen kept) {f g : Group} (hf : seen.find? (·.name == g.name) = some f) :
    require definition g.interface kept (g.name, g.types) =
      if sameSignatures f.types g.types then .ok kept
      else .error (.interfaceClash definition g.name f.types g.types) := by
  have hfind := h.find? g.name
  rw [hf, Option.map_some] at hfind
  rw [require, hfind]

theorem require_new {definition : String} {seen : List Group} {kept : List Requirement}
    (h : Keeps seen kept) {g : Group} (hg : seen.find? (·.name == g.name) = none) :
    require definition g.interface kept (g.name, g.types) =
      .ok (kept ++ [⟨g.name, g.types, g.interface⟩]) := by
  have hfind := h.find? g.name
  rw [hg, Option.map_none] at hfind
  rw [require, hfind]

def LikeFirst (all : List Group) (g : Group) : Prop :=
  ∀ f, all.find? (·.name == g.name) = some f → sameSignatures f.types g.types = true

/-- The outcome after the last groups `rest` of `all`: each is like the first one of its name, or
one that is not makes a clash. -/
inductive Gathered (definition : String) (all rest : List Group) :
    Except Fault (List Requirement) → Prop where
  | alike {kept : List Requirement} : Keeps all kept → (∀ g ∈ rest, LikeFirst all g) →
    Gathered definition all rest (.ok kept)
  | clash {name : String} {first second : List TypeExpr} {g : Group} : g ∈ rest →
    ¬ LikeFirst all g →
    Gathered definition all rest (.error (.interfaceClash definition name first second))

theorem Gathered.cons {definition : String} {all rest : List Group} {g : Group}
    {outcome : Except Fault (List Requirement)} (h : Gathered definition all rest outcome)
    (hg : LikeFirst all g) : Gathered definition all (g :: rest) outcome := by
  cases h with
  | alike hkeeps hrest => exact .alike hkeeps (List.forall_mem_cons.mpr ⟨hg, hrest⟩)
  | clash hmem hclash => exact .clash (List.mem_cons_of_mem g hmem) hclash

def requireGroup (definition : String) (kept : List Requirement) (g : Group) :
    Except Fault (List Requirement) :=
  require definition g.interface kept (g.name, g.types)

theorem gathered_foldlM {definition : String} {seen rest : List Group} {kept : List Requirement}
    (h : Keeps seen kept) (hrefl : ∀ g ∈ rest, sameSignatures g.types g.types = true) :
    Gathered definition (seen ++ rest) rest (rest.foldlM (requireGroup definition) kept) := by
  induction rest generalizing seen kept with
  | nil =>
    rw [List.append_nil]
    exact .alike h fun g hg => absurd hg List.not_mem_nil
  | cons g rest ih =>
    obtain ⟨hg, hrest⟩ := List.forall_mem_cons.mp hrefl
    have happend : seen ++ g :: rest = (seen ++ [g]) ++ rest := by simp
    rw [List.foldlM_cons, requireGroup]
    cases hf : seen.find? (·.name == g.name) with
    | none =>
      have hlike : LikeFirst (seen ++ g :: rest) g := by
        intro f hfirst
        rw [List.find?_append, hf, Option.none_or, List.find?_cons, beq_self_eq_true] at hfirst
        cases hfirst
        exact hg
      rw [require_new h hf, happend]
      exact (ih (h.new hf) hrest).cons (happend ▸ hlike)
    | some f =>
      have hfirst : (seen ++ g :: rest).find? (·.name == g.name) = some f := by
        rw [List.find?_append, hf, Option.some_or]
      rw [require_old h hf]
      cases hsame : sameSignatures f.types g.types with
      | true =>
        have hlike : LikeFirst (seen ++ g :: rest) g := by
          intro f' hf'
          rw [hfirst] at hf'
          cases hf'
          exact hsame
        rw [if_pos rfl, happend]
        exact (ih (h.old hf) hrest).cons (happend ▸ hlike)
      | false =>
        rw [if_neg Bool.false_ne_true]
        refine .clash List.mem_cons_self fun hlike => ?_
        rw [hlike f hfirst] at hsame
        cases hsame

/-! ## The check -/

section Check

variable {U : Universe} {limit : Nat} {definition : String}

theorem requirements_eq (h : ∀ i ∈ interfaces, U.allProperties limit i = .ok (required i)) :
    U.requirements limit definition interfaces =
      (groups required interfaces).foldlM (requireGroup definition) [] := by
  have hfold (interfaces : List Instance) (kept : List Requirement)
      (h : ∀ i ∈ interfaces, U.allProperties limit i = .ok (required i)) :
      (interfaces.foldlM (fun required interface => do
        let properties ← U.allProperties limit interface
        (groupByName properties).foldlM (require definition interface) required) kept) =
          (groups required interfaces).foldlM (requireGroup definition) kept := by
    induction interfaces generalizing kept with
    | nil => rfl
    | cons i rest ih =>
      obtain ⟨hi, hrest⟩ := List.forall_mem_cons.mp h
      have hcons : groups required (i :: rest) =
          ((groupByName (required i)).map fun g => ⟨i, g.1, g.2⟩) ++ groups required rest :=
        List.flatMap_cons
      rw [List.foldlM_cons, hcons, List.foldlM_append, List.foldlM_map, hi]
      exact bind_congr fun next => ih next hrest
  exact hfold interfaces [] h

theorem likeFirst_iff :
    (∀ g ∈ groups required interfaces, LikeFirst (groups required interfaces) g) ↔
      FirstsAlike required interfaces := by
  constructor
  · intro h name f hf j hj hname
    have hmem : ⟨j, name, typesNamed name (required j)⟩ ∈ groups required interfaces :=
      mem_groups_iff.mpr ⟨hj, hname, rfl⟩
    refine sameSignatures_iff.mp (h _ hmem ⟨f, name, typesNamed name (required f)⟩ ?_)
    rw [find?_groups, hf, Option.map_some]
  · intro h g hg f hf
    obtain ⟨hj, hname, htypes⟩ := mem_groups_iff.mp hg
    rw [find?_groups] at hf
    obtain ⟨i, hi, rfl⟩ := Option.map_eq_some_iff.mp hf
    rw [htypes]
    exact sameSignatures_iff.mpr (h g.name i hi g.interface hj hname)

theorem declares_iff {type : TypeExpr} :
    declares properties name type = true ↔
      ∃ p ∈ properties, p.1 = name ∧ p.2.sameAs type = true := by
  simp [declares]

theorem check_eq (r : Requirement) :
    (r.check definition properties = .ok () ∧
      ∀ t ∈ r.types, ∃ p ∈ properties, p.1 = r.name ∧ p.2.sameAs t = true) ∨
    IsUnmet (r.check definition properties) ∧
      ∃ t ∈ r.types, ¬ ∃ p ∈ properties, p.1 = r.name ∧ p.2.sameAs t = true := by
  rw [Requirement.check]
  rcases forM_eq_ok_or_error (fun t => if declares properties r.name t then .ok ()
    else .error (.notImplemented definition r.interface r.name t)) r.types with
    ⟨hok, hall⟩ | ⟨t, ht, e, he, herror⟩
  · refine .inl ⟨hok, fun t ht => declares_iff.mp ?_⟩
    have hdeclares := hall t ht
    split at hdeclares
    · assumption
    · cases hdeclares
  · rw [herror]
    split at he
    · cases he
    · next hnot =>
      cases he
      exact .inr ⟨⟨_, _, _, _, rfl⟩, t, ht, fun hex => hnot (declares_iff.mpr hex)⟩

/-- What the first interface with a name requires under it is declared. -/
def MetByFirsts (required : Instance → List (String × TypeExpr)) (interfaces : List Instance)
    (properties : List (String × TypeExpr)) : Prop :=
  ∀ name f, first? required interfaces name = some f →
    ∀ t ∈ typesNamed name (required f), ∃ p ∈ properties, p.1 = name ∧ p.2.sameAs t = true

theorem mem_kept_iff {kept : List Requirement} (h : Keeps (groups required interfaces) kept)
    {r : Requirement} :
    r ∈ kept ↔ first? required interfaces r.name = some r.interface ∧
      r.types = typesNamed r.name (required r.interface) := by
  rw [h r, find?_groups, Option.map_eq_some_iff]
  constructor
  · rintro ⟨f, hf, heq⟩
    obtain ⟨rfl, _, ht⟩ := Group.mk.inj heq
    exact ⟨hf, ht.symm⟩
  · rintro ⟨hf, ht⟩
    exact ⟨r.interface, hf, by rw [ht]⟩

theorem judges_of_clash {outcome : Except Fault Unit} {consistent met : Prop}
    (h : IsClash outcome) (hc : ¬ consistent) : Judges outcome consistent met := by
  obtain ⟨_, _, _, _, rfl⟩ := h
  refine ⟨?_, ?_, ?_⟩ <;> simp [IsClash, IsUnmet, hc]

theorem judges_of_ok {consistent met : Prop} (hc : consistent) (hm : met) :
    Judges (.ok ()) consistent met := by
  refine ⟨?_, ?_, ?_⟩ <;> simp [IsClash, IsUnmet, hc, hm]

theorem judges_of_unmet {outcome : Except Fault Unit} {consistent met : Prop}
    (h : IsUnmet outcome) (hc : consistent) (hm : ¬ met) : Judges outcome consistent met := by
  obtain ⟨_, _, _, _, rfl⟩ := h
  refine ⟨?_, ?_, ?_⟩ <;> simp [IsClash, IsUnmet, hc, hm]

theorem Universe.conform_judges
    (h : ∀ i ∈ interfaces, U.allProperties limit i = .ok (required i))
    (hd : ∀ i ∈ interfaces, ∀ p ∈ required i, p.2.Distinct) :
    Judges (U.conform limit definition interfaces properties) (FirstsAlike required interfaces)
      (MetByFirsts required interfaces properties) := by
  have hrefl (g : Group) (hg : g ∈ groups required interfaces) :
      sameSignatures g.types g.types = true := by
    obtain ⟨hi, _, htypes⟩ := mem_groups_iff.mp hg
    refine sameSignatures_iff.mpr ⟨rfl, fun t ht => ⟨t, ht, TypeExpr.sameAs_refl ?_⟩⟩
    rw [htypes, mem_typesNamed_iff] at ht
    exact hd g.interface hi (g.name, t) ht
  have hempty : Keeps [] [] := fun r => by simp
  have hgathered : Gathered definition (groups required interfaces) (groups required interfaces)
      (U.requirements limit definition interfaces) := by
    rw [requirements_eq h]
    exact gathered_foldlM hempty hrefl
  rw [Universe.conform]
  generalize U.requirements limit definition interfaces = outcome at hgathered
  cases hgathered with
  | clash hg hclash =>
    refine judges_of_clash ⟨_, _, _, _, rfl⟩ fun hfirsts => hclash ?_
    exact likeFirst_iff.mpr hfirsts _ hg
  | @alike kept hkeeps hlike =>
    have hfirsts := likeFirst_iff.mp hlike
    show Judges (kept.forM fun r => r.check definition properties) _ _
    rcases forM_eq_ok_or_error (fun r => r.check definition properties) kept with
      ⟨hok, hall⟩ | ⟨r, hr, e, he, herror⟩
    · rw [hok]
      refine judges_of_ok hfirsts fun name f hf t ht => ?_
      have hmem : ⟨name, typesNamed name (required f), f⟩ ∈ kept :=
        (mem_kept_iff hkeeps).mpr ⟨hf, rfl⟩
      rcases check_eq ⟨name, typesNamed name (required f), f⟩ with ⟨_, hmet⟩ | ⟨hunmet, _⟩
      · exact hmet t ht
      · rw [hall _ hmem] at hunmet
        obtain ⟨_, _, _, _, heq⟩ := hunmet
        cases heq
    · obtain ⟨hf, htypes⟩ := (mem_kept_iff hkeeps).mp hr
      rw [herror]
      rcases check_eq r with ⟨hok, _⟩ | ⟨hunmet, t, ht, hnot⟩
      · rw [hok] at he
        cases he
      · rw [he] at hunmet
        refine judges_of_unmet hunmet hfirsts fun hmet => hnot ?_
        exact hmet r.name r.interface hf t (htypes ▸ ht)

end Check

end NominalTypes
