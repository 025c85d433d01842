import NominalTypes.Proofs.Drafts
import NominalTypes.Proofs.Lookup
import NominalTypes.Session
import Mathlib.Data.List.Nodup

/-!
# Reachable sessions

* `Universe.AdmitsItem`: what is true of everything that a session holds;
* `Universe.Coherent.admitsItem_of_makes`: whatever is made of admitted things is admitted, one case
  for each way of making something;
* `Session.WellFormed.step`, `Session.Reachable.wellFormed`: a step, and so every run from nothing,
  keeps the universe coherent and all items admitted;
* `Session.WellFormed.grows`, `Session.Reaches.grows`: no step takes a declaration away or changes a
  body.
-/

namespace NominalTypes

namespace Bindings

theorem names_set (b : Bindings) (parameter : String) (type : TypeExpr) :
    (b.set parameter type).map (·.1) =
      if parameter ∈ b.map (·.1) then b.map (·.1) else b.map (·.1) ++ [parameter] := by
  induction b with
  | nil => rfl
  | cons e rest ih =>
    rw [set]
    by_cases he : e.1 = parameter
    · simp [he]
    · have hne : (e.1 == parameter) = false := by simp [he]
      rw [hne, if_neg Bool.false_ne_true, List.map_cons, ih, List.map_cons]
      by_cases hr : parameter ∈ rest.map (·.1)
      · rw [if_pos hr, if_pos (List.mem_cons_of_mem _ hr)]
      · rw [if_neg hr, if_neg (List.not_mem_cons_of_ne_of_not_mem (Ne.symm he) hr)]
        rfl

theorem mem_set {b : Bindings} {parameter : String} {type : TypeExpr}
    {e : String × TypeExpr} (he : e ∈ b.set parameter type) : e ∈ b ∨ e.2 = type := by
  induction b with
  | nil =>
    rw [set, List.mem_singleton] at he
    exact .inr (by rw [he])
  | cons f rest ih =>
    rw [set] at he
    split at he
    · rcases List.mem_cons.mp he with rfl | he
      · exact .inr rfl
      · exact .inl (List.mem_cons_of_mem f he)
    · rcases List.mem_cons.mp he with rfl | he
      · exact .inl List.mem_cons_self
      · rcases ih he with he | he
        · exact .inl (List.mem_cons_of_mem f he)
        · exact .inr he

end Bindings

namespace Instantiation

variable {U : Universe} {i : Instantiation} {made : Instance} {f : Fault}

theorem checkNames_eq_ok_iff :
    i.checkNames U = .ok () ↔ (U.isClosed i.definition = true →
      ∀ a ∈ i.args, Parameter.declares (U.parameters i.definition) a.1 = true) := by
  have hfind : (i.args.find? fun a => !Parameter.declares (U.parameters i.definition) a.1) = none ↔
      ∀ a ∈ i.args, Parameter.declares (U.parameters i.definition) a.1 = true := by
    simp
  rw [← hfind, checkNames]
  cases U.isClosed i.definition with
  | false => simp
  | true =>
    cases i.args.find? fun a => !Parameter.declares (U.parameters i.definition) a.1 <;> simp

theorem checkNames_eq_error (h : i.checkNames U = .error f) :
    ∃ p, f = .undeclaredParameter i.definition.name p := by
  unfold checkNames at h
  split at h
  · split at h
    · next a _ =>
      cases h
      exact ⟨a.1, rfl⟩
    · cases h
  · cases h

/-- The checks that a successful instantiation has passed. -/
theorem construct_eq_ok (h : i.construct U = .ok made) :
    i.checkNames U = .ok () ∧ (∀ p ∈ U.parameters i.definition, i.checkParameter U p = .ok ()) ∧
      made = i.toInstance := by
  unfold construct at h
  obtain ⟨_, hnames, h⟩ := bind_eq_ok_iff.mp h
  obtain ⟨_, hparameters, h⟩ := bind_eq_ok_iff.mp h
  cases h
  exact ⟨hnames, forall_of_forM_eq_ok hparameters, rfl⟩

end Instantiation

namespace Universe

variable {U V : Universe}

/-! ## Bindings -/

section Bindings

variable {b c : Bindings} {parameter : String} {type : TypeExpr}

theorem AdmitsArgs.add (hb : U.AdmitsArgs b) (ht : U.Admits type)
    (h : b.add parameter type = .ok c) : U.AdmitsArgs c := by
  obtain ⟨hnew, rfl⟩ := Bindings.add_eq_ok_iff.mp h
  have hnot : parameter ∉ b.map (·.1) := by
    rw [← Bindings.binds_iff, hnew]
    exact Bool.false_ne_true
  refine ⟨?_, ?_⟩
  · rw [List.map_append, List.map_cons, List.map_nil, ← List.concat_eq_append, List.nodup_concat]
    exact ⟨hnot, hb.1⟩
  · intro e he
    rcases List.mem_append.mp he with he | he
    · exact hb.2 e he
    · rwa [List.mem_singleton.mp he]

theorem AdmitsArgs.set (hb : U.AdmitsArgs b) (ht : U.Admits type) :
    U.AdmitsArgs (b.set parameter type) := by
  refine ⟨?_, ?_⟩
  · rw [Bindings.names_set]
    split
    · exact hb.1
    · next hnot =>
      rw [← List.concat_eq_append, List.nodup_concat]
      exact ⟨hnot, hb.1⟩
  · intro e he
    rcases Bindings.mem_set he with he | he
    · exact hb.2 e he
    · exact he ▸ ht

theorem AdmitsArgs.ofEntries {entries : List (String × TypeExpr)}
    (h : ∀ e ∈ entries, U.Admits e.2) : U.AdmitsArgs (Bindings.ofEntries entries) := by
  have hfold (entries : List (String × TypeExpr)) (h : ∀ e ∈ entries, U.Admits e.2) (b : Bindings)
      (hb : U.AdmitsArgs b) : U.AdmitsArgs (entries.foldl (fun b e => b.set e.1 e.2) b) := by
    induction entries generalizing b with
    | nil => exact hb
    | cons e rest ih =>
      obtain ⟨he, hrest⟩ := List.forall_mem_cons.mp h
      exact ih hrest _ (hb.set he)
  exact hfold entries h [] ⟨List.nodup_nil, fun e he => absurd he List.not_mem_nil⟩

theorem AdmitsArgs.remap {outer : Bindings} (hb : U.AdmitsArgs b) (ho : U.AdmitsArgs outer)
    (h : b.remap outer = .ok c) : U.AdmitsArgs c := by
  refine ⟨?_, Bindings.everywhere_remap hb.2 ho.2 h⟩
  rw [Bindings.remap_names h]
  exact hb.1

theorem AdmitsArgs.resolve (hb : U.AdmitsArgs b) (h : b.resolve parameter = .ok type) :
    U.Admits type := by
  unfold Bindings.resolve at h
  split at h
  · next t ht =>
    cases h
    exact hb.2 _ (Bindings.mem_of_type? ht)
  · cases h

end Bindings

/-! ## Queries -/

section Queries

variable {limit : Nat} {name : String}

theorem Coherent.admitsArgs_of_parent (hU : U.Coherent) {d : Definition} {i : Instance}
    (hi : U.parent? d = some i) : U.AdmitsArgs i.args :=
  (admits_toExpr.mp (hU.admits_of_mem_supertypes (mem_supertypes_iff.mpr (.inl hi)))).2

theorem Coherent.admitsArgs_of_hop (hU : U.Coherent) {s t : Instance} (hs : U.AdmitsArgs s.args)
    (h : U.Hop s t) : U.AdmitsArgs t.args := by
  obtain ⟨i, hi, hr⟩ := h
  obtain ⟨args, hargs, rfl⟩ := Instance.remap_eq_ok_iff.mp hr
  exact (admits_toExpr.mp (hU.admits_of_mem_supertypes hi)).2.remap hs hargs

theorem Coherent.admits_found (hU : U.Coherent) {on : Instance} (hon : U.AdmitsArgs on.args)
    {found : Found} (h : U.find limit name on = .ok (some found)) : U.Admits found.type :=
  everywhere_findFrom (fun _ _ hp => hU.admits_of_mem_properties hp)
    (fun _ _ hi => (hU.admitsArgs_of_parent hi).2) hon.2 h

theorem Coherent.admits_foundIn (hU : U.Coherent) {type : TypeExpr} (ht : U.Admits type)
    {found : Found} (h : U.findIn limit name type = .ok (some found)) : U.Admits found.type := by
  induction type with
  | inst d args n =>
    rw [findIn] at h
    exact hU.admits_found (admits_toExpr (i := ⟨d, args, n⟩).mp ht).2 h
  | var x n =>
    rw [findIn] at h
    cases h
  | bounded x b n ih =>
    rw [findIn] at h
    exact ih (TypeExpr.everywhere_bounded.mp ht) h
  | fn ps r _ _ =>
    rw [findIn] at h
    cases h

theorem Coherent.admits_listed (hU : U.Coherent) {on : Instance} (hon : U.AdmitsArgs on.args)
    {properties : List (String × TypeExpr)} (h : U.allProperties limit on = .ok properties)
    {p : String × TypeExpr} (hp : p ∈ properties) : U.Admits p.2 :=
  everywhere_listFrom (fun _ _ hp => hU.admits_of_mem_properties hp)
    (fun _ _ hi => (hU.admitsArgs_of_parent hi).2) hon.2 h p hp

end Queries

/-! ## Items -/

def AdmitsItem (U : Universe) : Item → Prop
  | .draft draft => U.AdmitsDraft draft
  | .instantiation i => U.Admits i.toInstance.toExpr
  | .type t => U.Admits t
  | .bindings b => U.AdmitsArgs b

theorem Grows.admitsItem (h : U.Grows V) {item : Item} (hi : U.AdmitsItem item) :
    V.AdmitsItem item := by
  cases item with
  | draft draft => exact h.admitsDraft hi
  | instantiation i => exact h.admits hi
  | type t => exact h.admits hi
  | bindings b => exact h.admitsArgs hi

theorem Coherent.admits_reference (hU : U.Coherent) {d : Definition} {name : String}
    {type : TypeExpr} (h : U.reference? d name = some type) : U.Admits type := by
  obtain ⟨p, hp, rfl⟩ := Option.map_eq_some_iff.mp h
  have hmem : p ∈ U.parameters d := List.mem_of_find?_eq_some hp
  exact admits_parameter fun t ht => hU.admits_of_bound hmem ht

theorem admits_of_construct {i : Instantiation} {made : Instance}
    (hi : U.Admits i.toInstance.toExpr) (h : i.construct U = .ok made) : U.Admits made.toExpr := by
  obtain ⟨_, _, rfl⟩ := Instantiation.construct_eq_ok h
  exact hi

theorem Coherent.admitsItem_of_makes (hU : U.Coherent) {lenient : Bool} {items : List Item}
    {item : Item} (hitems : ∀ item ∈ items, U.AdmitsItem item) (h : Makes lenient U items item) :
    U.AdmitsItem item := by
  have draft {x : Draft} (hx : .draft x ∈ items) : U.AdmitsDraft x := hitems (.draft x) hx
  have instantiation {x : Instantiation} (hx : .instantiation x ∈ items) :
      U.Admits x.toInstance.toExpr := hitems (.instantiation x) hx
  have type {x : TypeExpr} (hx : .type x ∈ items) : U.Admits x := hitems (.type x) hx
  have bindings {x : Bindings} (hx : .bindings x ∈ items) : U.AdmitsArgs x :=
    hitems (.bindings x) hx
  cases h with
  | startDraft name kind => exact .start U name kind
  | configureDraft settings hd => exact ⟨(draft hd).allows, (draft hd).issued⟩
  | inPackage package hd => exact ⟨(draft hd).allows, (draft hd).issued⟩
  | inherit hd hp h => exact (draft hd).inherit (type hp) h
  | implement hd hi h => exact (draft hd).implement (type hi) h
  | addParameter hd h => exact (draft hd).addParameter (fun t ht => by cases ht) h
  | addBoundedParameter hd hb h =>
    refine (draft hd).addParameter ?_ h
    rintro t ⟨⟩
    exact type hb
  | addProperty hd ht h => exact (draft hd).addProperty (type ht) h
  | refer hd h => exact (draft hd).refer h
  | startInstantiation hd =>
    exact admits_toExpr.mpr ⟨hd, List.nodup_nil, fun e he => absurd he List.not_mem_nil⟩
  | configureInstantiation settings hi =>
    have hi := instantiation hi
    exact hi
  | @bind i _ parameter t hi ht h =>
    obtain ⟨args, hargs, h⟩ := bind_eq_ok_iff.mp h
    cases h
    obtain ⟨hknown, hold⟩ := admits_toExpr.mp (instantiation hi)
    exact admits_toExpr.mpr ⟨hknown, hold.add (type ht) hargs⟩
  | nullableInstantiation hi =>
    obtain ⟨hknown, hargs⟩ := admits_toExpr.mp (instantiation hi)
    exact admits_toExpr.mpr ⟨hknown, hargs⟩
  | construct hi _ h => exact admits_of_construct (instantiation hi) h
  | var name =>
    rw [AdmitsItem, Admits]
    exact TypeExpr.everywhere_var
  | boundedVar name hb => exact TypeExpr.everywhere_bounded.mpr (type hb)
  | fn hps hr => exact TypeExpr.everywhere_fn.mpr ⟨fun p hp => type (hps p hp), type hr⟩
  | nullable ht => exact TypeExpr.everywhere_toNullable.mpr (type ht)
  | substitute ht hb h => exact (type ht).substitute (bindings hb).2 h
  | @bound v t hv hb =>
    have hv := type hv
    rw [Admits, Variable.toExpr, hb] at hv
    exact TypeExpr.everywhere_bounded.mp hv
  | param hf hp => exact (TypeExpr.everywhere_fn.mp (type hf)).1 _ hp
  | result hf => exact (TypeExpr.everywhere_fn.mp (type hf)).2
  | reference _ h => exact hU.admits_reference h
  | supertype _ hi => exact hU.admits_of_mem_supertypes (mem_supertypes_iff.mpr hi)
  | property _ hp => exact hU.admits_of_mem_properties hp
  | found _ hb h => exact hU.admits_found (bindings hb) h
  | foundIn ht h => exact hU.admits_foundIn (type ht) h
  | listed hi h hp => exact hU.admits_listed (admits_toExpr.mp (type hi)).2 h hp
  | addBinding hb ht h => exact (bindings hb).add (type ht) h
  | ofEntries he => exact .ofEntries fun e h => type (he e h)
  | args hi => exact (admits_toExpr.mp (type hi)).2
  | remap hb ho h => exact (bindings hb).remap (bindings ho) h
  | resolve hb h => exact (bindings hb).resolve h

end Universe

/-! ## Sessions -/

namespace Session

variable {lenient : Bool} {s t : Session}

structure WellFormed (s : Session) : Prop where
  coherent : s.known.Coherent
  items : ∀ item ∈ s.items, s.known.AdmitsItem item

theorem wellFormed_empty : WellFormed {} where
  coherent :=
    { id_eq := fun n e he => by simp at he
      allows := fun n e b he => by simp at he
      wellFounded := ⟨fun d => Acc.intro d (by
        rintro e ⟨i, hi, _⟩
        exact absurd hi (by simp [Universe.supertypes, Universe.body, Universe.body?,
          Body.supertypes]))⟩ }
  items _ h := absurd h List.not_mem_nil

theorem WellFormed.step (hs : s.WellFormed) (h : Step lenient s t) : t.WellFormed := by
  cases h with
  | make hmakes =>
    exact ⟨hs.coherent,
      List.forall_mem_cons.mpr ⟨hs.coherent.admitsItem_of_makes hs.items hmakes, hs.items⟩⟩
  | reference hd =>
    obtain ⟨hcoherent, hgrows, hdraft, _⟩ := hs.coherent.reference (hs.items _ hd)
    exact ⟨hcoherent,
      List.forall_mem_cons.mpr ⟨hdraft, fun item hi => hgrows.admitsItem (hs.items item hi)⟩⟩
  | construct hd hconstruct =>
    obtain ⟨hcoherent, hgrows⟩ := hs.coherent.construct (hs.items _ hd) hconstruct
    exact ⟨hcoherent, fun item hi => hgrows.admitsItem (hs.items item hi)⟩

theorem Reaches.wellFormed (h : Reaches lenient s t) (hs : s.WellFormed) : t.WellFormed := by
  induction h with
  | refl => exact hs
  | step _ hstep ih => exact ih.step hstep

theorem Reachable.wellFormed (h : Reachable lenient s) : s.WellFormed :=
  Reaches.wellFormed h wellFormed_empty

theorem WellFormed.grows (hs : s.WellFormed) (h : Step lenient s t) : s.known.Grows t.known := by
  cases h with
  | make _ => exact .refl _
  | reference hd => exact (hs.coherent.reference (hs.items _ hd)).2.1
  | construct hd h => exact (hs.coherent.construct (hs.items _ hd) h).2

theorem Reaches.grows (h : Reaches lenient s t) (hs : s.WellFormed) : s.known.Grows t.known := by
  induction h with
  | refl => exact .refl _
  | step h hstep ih => exact ih.trans ((h.wellFormed hs).grows hstep)

end Session

end NominalTypes
