import NominalTypes.Proofs.Equality
import NominalTypes.TypeExpr.Fingerprint
import Mathlib.Data.List.Nodup

/-!
# Equality and hashing

* `byName_eq_of_perm`: listing entries by name forgets the order in which they came;
* `TypeExpr.fingerprint_eq_of_sameAs`: equal types have the same fingerprint, by induction on the
  type outside bounds, which neither equality nor the fingerprint enters;
* `firstIndices_eq_map`: with equality and hashing in agreement, a hash map finds for each item the
  first that is equal to it;
* `equality_agrees_with_hashing`: for types, type arguments and definitions.

`DistinctType` and `DistinctArguments` are the types and the type arguments in which no list, at any
depth, binds a parameter twice.  There are no others: `Bindings.add` refuses a second binding, and
substitution keeps the names as they are (`TypeExpr.Everywhere.substitute`).
-/

namespace NominalTypes

/-! ## Entries by name -/

theorem byName_perm {α : Type} (entries : List (String × α)) : (byName entries).Perm entries :=
  List.mergeSort_perm entries _

theorem pairwise_byName {α : Type} (entries : List (String × α)) :
    (byName entries).Pairwise fun a b => a.1 ≤ b.1 := by
  rw [byName]
  refine (List.pairwise_mergeSort ?trans ?total entries).imp of_decide_eq_true
  case trans =>
    intro a b c hab hbc
    exact decide_eq_true (String.le_trans (of_decide_eq_true hab) (of_decide_eq_true hbc))
  case total =>
    intro a b
    simpa using String.le_total a.1 b.1

/-- Distinct names can be sorted in one way only. -/
theorem byName_eq_of_perm {α : Type} {l k : List (String × α)} (hl : (l.map (·.1)).Nodup)
    (h : l.Perm k) : byName l = byName k := by
  have hperm : (byName l).Perm (byName k) := (byName_perm l).trans (h.trans (byName_perm k).symm)
  refine hperm.eq_of_pairwise ?_ (pairwise_byName l) (pairwise_byName k)
  intro a b ha hb hab hba
  have ha : a ∈ l := (byName_perm l).mem_iff.mp ha
  have hb : b ∈ l := h.mem_iff.mpr ((byName_perm k).mem_iff.mp hb)
  exact List.inj_on_of_nodup_map hl ha hb (String.le_antisymm hab hba)

/-! ## Equal types -/

namespace TypeExpr

theorem fingerprints_names (types : List (String × TypeExpr)) :
    (fingerprints types).map (·.1) = types.map (·.1) := by
  rw [fingerprints_eq_map, List.map_map]
  rfl

theorem mem_fingerprints {types : List (String × TypeExpr)} {x : String × List Atom} :
    x ∈ fingerprints types ↔ ∃ t, (x.1, t) ∈ types ∧ t.fingerprint = x.2 := by
  rw [fingerprints_eq_map, List.mem_map]
  constructor
  · rintro ⟨e, he, rfl⟩
    exact ⟨e.2, he, rfl⟩
  · rintro ⟨t, ht, hx⟩
    exact ⟨(x.1, t), ht, by rw [hx]⟩

theorem fingerprints_perm_of {a b : Bindings} (ha : (a.map (·.1)).Nodup) (hb : (b.map (·.1)).Nodup)
    (ih : ∀ e ∈ a, ∀ f ∈ b, e.2.sameAs f.2 = true → e.2.fingerprint = f.2.fingerprint)
    (h : a.sameAs b = true) : (fingerprints a).Perm (fingerprints b) := by
  obtain ⟨hleft, hright⟩ := (Bindings.sameAs_iff_type? ha hb).mp h
  have hna : (fingerprints a).Nodup := List.Nodup.of_map (·.1) (by rwa [fingerprints_names])
  have hnb : (fingerprints b).Nodup := List.Nodup.of_map (·.1) (by rwa [fingerprints_names])
  refine (List.perm_ext_iff_of_nodup hna hnb).mpr fun x => ?_
  rw [mem_fingerprints, mem_fingerprints]
  constructor
  · rintro ⟨t, ht, hx⟩
    obtain ⟨u, hu, htu⟩ := hleft x.1 t (Bindings.type?_of_mem ha ht)
    have hu := Bindings.mem_of_type? hu
    exact ⟨u, hu, (ih _ ht _ hu htu).symm.trans hx⟩
  · rintro ⟨u, hu, hx⟩
    obtain ⟨t, ht, htu⟩ := hright x.1 u (Bindings.type?_of_mem hb hu)
    have ht := Bindings.mem_of_type? ht
    exact ⟨t, ht, (ih _ ht _ hu htu).trans hx⟩

theorem entryAtoms_eq_of {a b : Bindings} (ha : (a.map (·.1)).Nodup) (hb : (b.map (·.1)).Nodup)
    (ih : ∀ e ∈ a, ∀ f ∈ b, e.2.sameAs f.2 = true → e.2.fingerprint = f.2.fingerprint)
    (h : a.sameAs b = true) : entryAtoms (fingerprints a) = entryAtoms (fingerprints b) := by
  have hnames : ((fingerprints a).map (·.1)).Nodup := by rwa [fingerprints_names]
  rw [entryAtoms, entryAtoms, byName_eq_of_perm hnames (fingerprints_perm_of ha hb ih h)]

theorem positional_eq_of {ps qs : List (String × TypeExpr)}
    (ih : ∀ e ∈ ps, ∀ f ∈ qs, e.2.sameAs f.2 = true → e.2.fingerprint = f.2.fingerprint)
    (h : List.Forall₂ (fun p q => p.2.sameAs q.2 = true) ps qs) :
    positional ps = positional qs := by
  induction h with
  | nil => rfl
  | @cons p q ps qs hpq _ ihl =>
    have htail := ihl fun e he f hf => ih e (List.mem_cons_of_mem p he) f (List.mem_cons_of_mem q hf)
    rw [positional, positional, ih p List.mem_cons_self q List.mem_cons_self hpq, htail]

theorem fingerprint_eq_of_sameAs {t u : TypeExpr} (ht : t.Distinct) (hu : u.Distinct)
    (h : t.sameAs u = true) : t.fingerprint = u.fingerprint := by
  induction t using inductOutsideBounds generalizing u with
  | inst d as n ih =>
    cases u with
    | inst e bs m =>
      obtain ⟨hna, has⟩ := everywhere_inst.mp ht
      obtain ⟨hnb, hbs⟩ := everywhere_inst.mp hu
      obtain ⟨rfl, hde, hab⟩ := sameAs_inst_iff.mp h
      have hargs := entryAtoms_eq_of hna hnb
        (fun x hx y hy hxy => ih x hx (has x hx) (hbs y hy) hxy) hab
      rw [fingerprint, fingerprint, Definition.sameAs_iff.mp hde, hargs]
    | var y b m => simp [sameAs] at h
    | fn qs s => simp [sameAs] at h
  | var x b n =>
    cases u with
    | inst e bs m => simp [sameAs] at h
    | var y c m =>
      simp only [sameAs, Bool.and_eq_true, beq_iff_eq] at h
      rw [fingerprint, fingerprint, h.1, h.2]
    | fn qs s => simp [sameAs] at h
  | fn ps r ihp ihr =>
    cases u with
    | inst e bs m => simp [sameAs] at h
    | var y b m => simp [sameAs] at h
    | fn qs s =>
      obtain ⟨hps, hr⟩ := everywhere_fn.mp ht
      obtain ⟨hqs, hs⟩ := everywhere_fn.mp hu
      obtain ⟨hrs, hpq⟩ := sameAs_fn_iff.mp h
      have hparams := positional_eq_of
        (fun x hx y hy hxy => ihp x hx (hps x hx) (hqs y hy) hxy) hpq
      rw [fingerprint, fingerprint, hpq.length_eq, hparams, ihr hr hs hrs]

end TypeExpr

theorem Bindings.fingerprint_eq_of_sameAs {a b : Bindings} (ha : (a.map (·.1)).Nodup)
    (hb : (b.map (·.1)).Nodup) (had : ∀ e ∈ a, e.2.Distinct) (hbd : ∀ e ∈ b, e.2.Distinct)
    (h : a.sameAs b = true) : a.fingerprint = b.fingerprint :=
  TypeExpr.entryAtoms_eq_of ha hb
    (fun e he f hf => TypeExpr.fingerprint_eq_of_sameAs (had e he) (hbd f hf)) h

/-! ## Values to be compared and hashed -/

structure DistinctType where
  type : TypeExpr
  distinct : type.Distinct

structure DistinctArguments where
  arguments : Arguments
  names : (arguments.bindings.map (·.1)).Nodup
  types : ∀ e ∈ arguments.bindings, e.2.Distinct

/-- A definition as a value that is compared and hashed by its qualified name. -/
structure NominalDefinition where
  definition : Definition

namespace DistinctType

def atoms (t : DistinctType) : List Atom := t.type.fingerprint

instance : BEq DistinctType := ⟨fun t u => t.type == u.type⟩

instance : Hashable DistinctType := ⟨fun t => hash t.type⟩

instance : EquivBEq DistinctType where
  rfl {t} := TypeExpr.sameAs_refl t.distinct
  symm {t u} := TypeExpr.sameAs_symm t.distinct u.distinct
  trans := TypeExpr.sameAs_trans

end DistinctType

namespace DistinctArguments

def atoms (a : DistinctArguments) : List Atom := a.arguments.bindings.fingerprint

instance : BEq DistinctArguments := ⟨fun a b => a.arguments == b.arguments⟩

instance : Hashable DistinctArguments := ⟨fun a => hash a.arguments⟩

instance : EquivBEq DistinctArguments where
  rfl {a} := Bindings.sameAs_refl a.names a.types
  symm {a b} := Bindings.sameAs_symm a.names b.names a.types b.types
  trans := Bindings.sameAs_trans

end DistinctArguments

namespace NominalDefinition

def atoms (d : NominalDefinition) : List Atom := d.definition.qualified.atoms

instance : BEq NominalDefinition := ⟨fun d e => d.definition.sameAs e.definition⟩

instance : Hashable NominalDefinition := ⟨fun d => hash d.atoms⟩

instance : EquivBEq NominalDefinition where
  rfl := Definition.sameAs_iff.mpr rfl
  symm h := Definition.sameAs_iff.mpr (Definition.sameAs_iff.mp h).symm
  trans h k := Definition.sameAs_iff.mpr
    ((Definition.sameAs_iff.mp h).trans (Definition.sameAs_iff.mp k))

end NominalDefinition

/-! ## Hash maps -/

theorem findIdx?_append_singleton {α : Type} [BEq α] (before : List α) (a b : α) :
    (before ++ [a]).findIdx? (· == b) =
      (before.findIdx? (· == b)).or (if a == b then some before.length else none) := by
  rw [List.findIdx?_append]
  cases hab : a == b <;> simp [hab]

section HashMaps

variable {α : Type} [BEq α] [Hashable α] [EquivBEq α] [LawfulHashable α]

/-- The map gives for every item the index of the first of `before` that is equal to it. -/
def Indexes (seen : Std.HashMap α Nat) (before : List α) : Prop :=
  ∀ a, seen[a]? = before.findIdx? (· == a)

variable {seen : Std.HashMap α Nat} {before : List α} {a : α}

theorem Indexes.append_of_some {i : Nat} (h : Indexes seen before) (ha : seen[a]? = some i) :
    Indexes seen (before ++ [a]) := by
  intro b
  rw [findIdx?_append_singleton, ← h b]
  split
  · rename_i hab
    rw [← Std.HashMap.getElem?_congr hab, ha]
    rfl
  · rw [Option.or_none]

theorem Indexes.insert_of_none (h : Indexes seen before) (ha : seen[a]? = none) :
    Indexes (seen.insert a before.length) (before ++ [a]) := by
  intro b
  rw [findIdx?_append_singleton, ← h b, Std.HashMap.getElem?_insert]
  split
  · rename_i hab
    rw [← Std.HashMap.getElem?_congr hab, ha]
    rfl
  · rw [Option.or_none]

theorem firstIndicesFrom_eq_map {rest : List α} (h : Indexes seen before) :
    firstIndicesFrom seen before.length rest =
      rest.map fun a => (before ++ rest).findIdx (· == a) := by
  induction rest generalizing seen before with
  | nil => rfl
  | cons a rest ih =>
    have hhead : (before ++ a :: rest).findIdx (· == a) = (seen[a]?).getD before.length := by
      rw [List.findIdx_eq_getD_findIdx?, List.findIdx?_append, ← h a]
      cases seen[a]? <;> simp [List.findIdx?_cons]
    have hlength : before.length + 1 = (before ++ [a]).length := by simp
    rw [firstIndicesFrom, List.map_cons, hhead, List.append_cons before a rest, hlength]
    cases ha : seen[a]? with
    | some i => exact congrArg (i :: ·) (ih (h.append_of_some ha))
    | none => exact congrArg (before.length :: ·) (ih (h.insert_of_none ha))

/-- A hash map keyed by the items finds the first that is equal. -/
theorem firstIndices_eq_map (items : List α) :
    firstIndices items = items.map fun a => items.findIdx (· == a) := by
  have hempty : Indexes (∅ : Std.HashMap α Nat) [] := fun a => Std.HashMap.getElem?_empty
  exact firstIndicesFrom_eq_map hempty

end HashMaps

/-! ## Agreement -/

/-- Equality is an equivalence, hashing reads the atoms and nothing else, and equal values have the
same atoms.  Values that are equal are therefore one key to every hash map, `firstIndices` being one
user of them. -/
structure LawfulKey (α : Type) [BEq α] [Hashable α] (atoms : α → List Atom) : Prop where
  equivalence : Equivalence fun a b : α => (a == b) = true
  atoms_eq : ∀ a b : α, (a == b) = true → atoms a = atoms b
  hash_eq : ∀ a : α, hash a = hash (atoms a)
  getElem?_eq : ∀ (β : Type) (m : Std.HashMap α β) (a b : α), (a == b) = true → m[a]? = m[b]?
  first : ∀ items : List α, firstIndices items = items.map fun a => items.findIdx (· == a)

theorem LawfulKey.of_atoms {α : Type} [BEq α] [Hashable α] [EquivBEq α] {atoms : α → List Atom}
    (hatoms : ∀ a b : α, (a == b) = true → atoms a = atoms b)
    (hhash : ∀ a : α, hash a = hash (atoms a)) : LawfulKey α atoms := by
  have hlawful : LawfulHashable α := ⟨fun a b h => by rw [hhash, hhash, hatoms a b h]⟩
  exact {
    equivalence := ⟨fun _ => BEq.rfl, BEq.symm, BEq.trans⟩
    atoms_eq := hatoms
    hash_eq := hhash
    getElem?_eq := fun _ _ _ _ h => Std.HashMap.getElem?_congr h
    first := firstIndices_eq_map }

/-- Types, type arguments and definitions can all be keys. -/
theorem equality_agrees_with_hashing :
    LawfulKey DistinctType DistinctType.atoms ∧
    LawfulKey DistinctArguments DistinctArguments.atoms ∧
    LawfulKey NominalDefinition NominalDefinition.atoms := by
  refine ⟨.of_atoms ?_ fun _ => rfl, .of_atoms ?_ fun _ => rfl, .of_atoms ?_ fun _ => rfl⟩
  · intro t u h
    exact TypeExpr.fingerprint_eq_of_sameAs t.distinct u.distinct h
  · intro a b h
    exact Bindings.fingerprint_eq_of_sameAs a.names b.names a.types b.types h
  · intro d e h
    exact congrArg QualifiedName.atoms (Definition.sameAs_iff.mp h)

/-- Other order of arguments, other parameter names and another bound, but the same key. -/
example :
    let d : Definition := ⟨0, ⟨"p", "Pair"⟩, .classKind⟩
    let r (bound : Option TypeExpr) : TypeExpr := .var "R" bound true
    let t : TypeExpr := .inst d [("A", r none), ("B", .fn [("x", r none)] (r none))] false
    let u : TypeExpr := .inst d [("B", .fn [("y", r none)] (r none)), ("A", r (some t))] false
    t.sameAs u = true ∧ t.fingerprint = u.fingerprint := by
  cbv

end NominalTypes
