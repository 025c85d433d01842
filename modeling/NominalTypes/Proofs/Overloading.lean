import NominalTypes.Proofs.Scoping

/-!
# Properties of one name

A property is checked against those declared before it.  What comes of it is a law about any two of
them, in whatever order they are declared.

* `Overload`, `Overloaded`: two properties may share a name, and all do that share one;
* `Draft.addProperties_cases`: the properties are added as long as each goes with those before it;
* `Overload.congr`: the law does not see bounds, so it survives the closing of a definition;
* `Session.Reachable.overloading`: what is accepted, what is rejected first, and what is closed.
-/

namespace NominalTypes

/-! ## Two properties -/

/-- Functions with equal results, and with parameters that differ in number or in the type at some
place.  The names of parameters are not looked at. -/
def Overload (t u : TypeExpr) : Prop :=
  ∃ ps r qs s, t = .fn ps r ∧ u = .fn qs s ∧ r.sameAs s = true ∧
    (ps.length ≠ qs.length ∨
      ∃ (i : Nat) (p q : String × TypeExpr), ps[i]? = some p ∧ qs[i]? = some q ∧
        p.2.sameAs q.2 = false)

/-- A property that was declared, and one that comes later. -/
def Compatible (p q : String × TypeExpr) : Prop := p.1 = q.1 → Overload p.2 q.2

/-- Any two properties with one name overload each other. -/
def Overloaded (properties : List (String × TypeExpr)) : Prop :=
  ∀ (i j : Nat) (p q : String × TypeExpr), i ≠ j → properties[i]? = some p →
    properties[j]? = some q → Compatible p q

theorem TypeExpr.sameParams_eq_false_iff {ps qs : List (String × TypeExpr)} :
    sameParams ps qs = false ↔ ps.length ≠ qs.length ∨
      ∃ (i : Nat) (p q : String × TypeExpr), ps[i]? = some p ∧ qs[i]? = some q ∧
        p.2.sameAs q.2 = false := by
  rw [← Bool.not_eq_true, sameParams_iff, List.forall₂_iff_get]
  constructor
  · intro h
    by_cases hlen : ps.length = qs.length
    · right
      by_contra hsame
      refine h ⟨hlen, fun i hp hq => ?_⟩
      by_contra hne
      exact hsame ⟨i, ps[i], qs[i], List.getElem?_eq_getElem hp, List.getElem?_eq_getElem hq,
        by simpa using hne⟩
    · exact .inl hlen
  · rintro (hlen | ⟨i, p, q, hp, hq, hne⟩) ⟨hlen', hsame⟩
    · exact hlen hlen'
    · obtain ⟨hi, rfl⟩ := List.getElem?_eq_some_iff.mp hp
      obtain ⟨hj, rfl⟩ := List.getElem?_eq_some_iff.mp hq
      exact Bool.false_ne_true (hne.symm.trans (hsame i hi hj))

theorem canOverload_iff {t u : TypeExpr} : canOverload t u = true ↔ Overload t u := by
  constructor
  · intro h
    unfold canOverload at h
    split at h
    · next ps r qs s =>
      obtain ⟨hresult, hparams⟩ := Bool.and_eq_true_iff.mp h
      rw [Bool.not_eq_true'] at hparams
      exact ⟨ps, r, qs, s, rfl, rfl, hresult, TypeExpr.sameParams_eq_false_iff.mp hparams⟩
    · cases h
  · rintro ⟨ps, r, qs, s, rfl, rfl, hresult, hparams⟩
    rw [canOverload, hresult, TypeExpr.sameParams_eq_false_iff.mpr hparams]
    rfl

theorem canJoin_iff {properties : List (String × TypeExpr)} {name : String} {type : TypeExpr} :
    canJoin properties name type = true ↔ ∀ p ∈ properties, Compatible p (name, type) := by
  simp only [canJoin, List.all_eq_true, Bool.or_eq_true, bne_iff_ne, canOverload_iff, Compatible,
    ← imp_iff_not_or, ne_eq]

/-- With equal results, functions overload each other unless they are equal. -/
theorem overload_fn_iff {ps qs : List (String × TypeExpr)} {r s : TypeExpr} :
    Overload (.fn ps r) (.fn qs s) ↔
      r.sameAs s = true ∧ (TypeExpr.fn ps r).sameAs (.fn qs s) = false := by
  rw [TypeExpr.sameAs, Bool.and_eq_false_iff, TypeExpr.sameParams_eq_false_iff]
  constructor
  · rintro ⟨_, _, _, _, ⟨⟩, ⟨⟩, hresult, hparams⟩
    exact ⟨hresult, .inr hparams⟩
  · rintro ⟨hresult, hne | hparams⟩
    · rw [hresult] at hne
      cases hne
    · exact ⟨ps, r, qs, s, rfl, rfl, hresult, hparams⟩

section Laws

variable {t u t' u' : TypeExpr}

theorem Overload.symm (ht : t.Distinct) (hu : u.Distinct) (h : Overload t u) : Overload u t := by
  obtain ⟨ps, r, qs, s, rfl, rfl, _⟩ := id h
  obtain ⟨hresult, hne⟩ := overload_fn_iff.mp h
  have hr := (TypeExpr.everywhere_fn.mp ht).2
  have hs := (TypeExpr.everywhere_fn.mp hu).2
  refine overload_fn_iff.mpr ⟨TypeExpr.sameAs_symm hr hs hresult, ?_⟩
  rw [← Bool.not_eq_true] at hne ⊢
  exact fun hsame => hne (TypeExpr.sameAs_symm hu ht hsame)

/-- Equal types overload equal types. -/
theorem Overload.congr (ht : t.Distinct) (ht' : t'.Distinct) (hu : u.Distinct)
    (hu' : u'.Distinct) (htt : t.sameAs t' = true) (huu : u.sameAs u' = true)
    (h : Overload t u) : Overload t' u' := by
  obtain ⟨ps, r, qs, s, rfl, rfl, _⟩ := id h
  obtain ⟨hresult, hne⟩ := overload_fn_iff.mp h
  cases t' with
  | inst d args n => simp [TypeExpr.sameAs] at htt
  | var x b n => simp [TypeExpr.sameAs] at htt
  | fn ps' r' =>
    cases u' with
    | inst d args n => simp [TypeExpr.sameAs] at huu
    | var x b n => simp [TypeExpr.sameAs] at huu
    | fn qs' s' =>
      have hr := TypeExpr.sameAs_symm (TypeExpr.everywhere_fn.mp ht).2
        (TypeExpr.everywhere_fn.mp ht').2 (TypeExpr.sameAs_fn_iff.mp htt).1
      have hs := (TypeExpr.sameAs_fn_iff.mp huu).1
      refine overload_fn_iff.mpr ⟨TypeExpr.sameAs_trans hr (TypeExpr.sameAs_trans hresult hs), ?_⟩
      rw [← Bool.not_eq_true] at hne ⊢
      intro hsame
      apply hne
      have huu' := TypeExpr.sameAs_symm hu hu' huu
      exact TypeExpr.sameAs_trans htt (TypeExpr.sameAs_trans hsame huu')

end Laws

/-! ## Any two of a list -/

section Lists

variable {properties : List (String × TypeExpr)}

/-- As a condition on each property and those after it, which is one in both directions. -/
theorem overloaded_iff_pairwise :
    Overloaded properties ↔ properties.Pairwise fun p q => Compatible p q ∧ Compatible q p := by
  rw [List.pairwise_iff_getElem]
  constructor
  · intro h i j hi hj hij
    have hpi := List.getElem?_eq_getElem hi
    have hpj := List.getElem?_eq_getElem hj
    exact ⟨h i j _ _ (Nat.ne_of_lt hij) hpi hpj, h j i _ _ (Nat.ne_of_gt hij) hpj hpi⟩
  · intro h i j p q hij hp hq
    obtain ⟨hi, rfl⟩ := List.getElem?_eq_some_iff.mp hp
    obtain ⟨hj, rfl⟩ := List.getElem?_eq_some_iff.mp hq
    rcases Nat.lt_or_gt_of_ne hij with hlt | hgt
    · exact (h i j hi hj hlt).1
    · exact (h j i hj hi hgt).2

theorem overloaded_iff (hd : ∀ p ∈ properties, p.2.Distinct) :
    Overloaded properties ↔ properties.Pairwise Compatible := by
  rw [overloaded_iff_pairwise]
  refine ⟨fun h => h.imp And.left, fun h => h.imp_of_mem ?_⟩
  intro p q hp hq hpq
  exact ⟨hpq, fun hname => (hpq hname.symm).symm (hd p hp) (hd q hq)⟩

theorem Overloaded.perm {reordered : List (String × TypeExpr)} (h : Overloaded properties)
    (hp : properties.Perm reordered) : Overloaded reordered := by
  rw [overloaded_iff_pairwise] at h ⊢
  exact (hp.pairwise_iff fun hpq => ⟨hpq.2, hpq.1⟩).mp h

end Lists

/-! ## One after the other -/

namespace Draft

/-- The properties added one after the other, up to the first that is rejected. -/
def addProperties (draft : Draft) (properties : List (String × TypeExpr)) : Except Fault Draft :=
  properties.foldlM (fun draft p => draft.addProperty p.1 p.2) draft

variable {draft : Draft}

theorem addProperty_cases (draft : Draft) (p : String × TypeExpr) :
    ((∀ q ∈ draft.properties, Compatible q p) ∧ draft.addProperty p.1 p.2 =
      .ok { draft with properties := draft.properties ++ [p] }) ∨
    ((∃ q ∈ draft.properties, ¬ Compatible q p) ∧
      draft.addProperty p.1 p.2 = .error (.duplicateProperty draft.name p.1)) := by
  have hjoin : canJoin draft.properties p.1 p.2 = true ↔ ∀ q ∈ draft.properties, Compatible q p :=
    canJoin_iff
  unfold addProperty
  split
  · next h => exact .inl ⟨hjoin.mp h, rfl⟩
  · next h => exact .inr ⟨by simpa using mt hjoin.mpr h, rfl⟩

theorem addProperties_concat (draft : Draft) (properties : List (String × TypeExpr))
    (p : String × TypeExpr) :
    draft.addProperties (properties ++ [p]) =
      draft.addProperties properties >>= fun changed => changed.addProperty p.1 p.2 := by
  simp [addProperties, List.foldlM_append]

/-- All are added, or those before the first that does not go with one before it. -/
theorem addProperties_cases (hd : draft.properties.Pairwise Compatible)
    (properties : List (String × TypeExpr)) :
    ((draft.properties ++ properties).Pairwise Compatible ∧ draft.addProperties properties =
      .ok { draft with properties := draft.properties ++ properties }) ∨
    ∃ before p after, properties = before ++ p :: after ∧
      (draft.properties ++ before).Pairwise Compatible ∧
      (∃ q ∈ draft.properties ++ before, ¬ Compatible q p) ∧
      draft.addProperties before =
        .ok { draft with properties := draft.properties ++ before } ∧
      draft.addProperties (before ++ [p]) = .error (.duplicateProperty draft.name p.1) ∧
      draft.addProperties properties = .error (.duplicateProperty draft.name p.1) := by
  induction properties using List.reverseRecOn with
  | nil =>
    rw [List.append_nil]
    exact .inl ⟨hd, rfl⟩
  | append_singleton properties p ih =>
    rcases ih with ⟨hpairs, hall⟩ | ⟨before, p', after, rfl, hbefore, hne, hsome, hfirst, hrest⟩
    · have hstep := draft.addProperties_concat properties p
      rw [hall] at hstep
      rcases addProperty_cases { draft with properties := draft.properties ++ properties } p with
        ⟨hp, hadd⟩ | ⟨hne, hreject⟩
      · refine .inl ⟨?_, ?_⟩
        · rw [← List.append_assoc]
          refine List.pairwise_append.mpr ⟨hpairs, List.pairwise_singleton _ p, ?_⟩
          intro q hq p' hp'
          exact List.mem_singleton.mp hp' ▸ hp q hq
        · rw [← List.append_assoc]
          exact hstep.trans hadd
      · have hstep := hstep.trans hreject
        exact .inr ⟨properties, p, [], rfl, hpairs, hne, hall, hstep, hstep⟩
    · refine .inr ⟨before, p', after ++ [p], by simp, hbefore, hne, hsome, hfirst, ?_⟩
      rw [addProperties_concat, hrest]
      rfl

section First

variable {properties : List (String × TypeExpr)}

theorem accepts_iff_overloaded (hd : draft.properties = [])
    (ht : ∀ p ∈ properties, p.2.Distinct) :
    (∃ changed, draft.addProperties properties = .ok changed) ↔ Overloaded properties := by
  rw [overloaded_iff ht]
  have hnone : draft.properties.Pairwise Compatible := hd ▸ .nil
  rcases addProperties_cases hnone properties with
    ⟨hpairs, hall⟩ | ⟨before, p, after, rfl, _, ⟨q, hq, hne⟩, _, _, hreject⟩
  · rw [hd] at hpairs
    exact ⟨fun _ => hpairs, fun _ => ⟨_, hall⟩⟩
  · rw [hd, List.nil_append] at hq
    constructor
    · rintro ⟨changed, haccept⟩
      rw [hreject] at haccept
      cases haccept
    · intro hpairs
      exact absurd ((List.pairwise_append.mp hpairs).2.2 q hq p List.mem_cons_self) hne

theorem rejects_first (hd : draft.properties = []) (ht : ∀ p ∈ properties, p.2.Distinct)
    (h : ¬ Overloaded properties) :
    ∃ before p after, properties = before ++ p :: after ∧
      Overloaded before ∧ (∃ q ∈ before, ¬ Compatible q p) ∧
      draft.addProperties before = .ok { draft with properties := before } ∧
      draft.addProperties (before ++ [p]) = .error (.duplicateProperty draft.name p.1) ∧
      draft.addProperties properties = .error (.duplicateProperty draft.name p.1) := by
  have hnone : draft.properties.Pairwise Compatible := hd ▸ .nil
  rcases addProperties_cases hnone properties with
    ⟨_, hall⟩ | ⟨before, p, after, rfl, hbefore, hne, hsome, hfirst, hrest⟩
  · exact absurd ((accepts_iff_overloaded hd ht).mp ⟨_, hall⟩) h
  · rw [hd, List.nil_append] at hbefore hne hsome
    have hdistinct : ∀ q ∈ before, q.2.Distinct := fun q hq => ht q (List.mem_append_left _ hq)
    exact ⟨before, p, after, rfl, (overloaded_iff hdistinct).mpr hbefore, hne, hsome, hfirst, hrest⟩

end First

/-! ## Drafts and definitions -/

theorem compatible_invariant : Draft.Invariant fun b => b.properties.Pairwise Compatible where
  start := .nil
  inherit hd h := by
    obtain ⟨_, _, _, rfl⟩ := inherit_eq_ok h
    exact hd
  implement hd h := by
    obtain ⟨_, _, _, rfl⟩ := implement_eq_ok h
    exact hd
  addParameter hd h := by
    obtain ⟨_, rfl⟩ := addParameter_eq_ok h
    exact hd
  addProperty hd h := by
    obtain ⟨hjoin, rfl⟩ := addProperty_eq_ok h
    refine List.pairwise_append.mpr ⟨hd, List.pairwise_singleton _ _, ?_⟩
    intro q hq p hp
    exact List.mem_singleton.mp hp ▸ canJoin_iff.mp hjoin q hq

/-- The bounds that closing attaches make no difference. -/
theorem overloaded_body {U : Universe} (hU : U.Allows draft.kind draft.declared)
    (h : Overloaded draft.properties) : Overloaded draft.body.properties := by
  intro i j p q hij hp hq hname
  rw [body, TypeExpr.withBoundsEach_eq_map, List.getElem?_map, Option.map_eq_some_iff] at hp hq
  obtain ⟨p, hp, rfl⟩ := hp
  obtain ⟨q, hq, rfl⟩ := hq
  have hpq : Overload p.2 q.2 := h i j p q hij hp hq hname
  have hdistinct {e : String × TypeExpr} (he : e ∈ draft.properties) : e.2.Distinct :=
    (hU.properties e he).distinct
  have hattached {e : String × TypeExpr} (he : e ∈ draft.properties) :
      (e.2.withBounds draft.parameters).Distinct := by
    have hadmits : U.Admits (e.2.withBounds draft.parameters) :=
      (hU.properties e he).withBounds hU.bounds
    exact hadmits.distinct
  have hp := List.mem_of_getElem? hp
  have hq := List.mem_of_getElem? hq
  exact hpq.congr (hdistinct hp) (hattached hp) (hdistinct hq) (hattached hq)
    (TypeExpr.sameAs_withBounds (hdistinct hp)) (TypeExpr.sameAs_withBounds (hdistinct hq))

end Draft

namespace Session

variable {lenient : Bool} {S : Session}

theorem Reachable.overloaded_draft (h : Reachable lenient S) {draft : Draft}
    (hd : .draft draft ∈ S.items) : Overloaded draft.properties := by
  have hallows := (h.wellFormed.items _ hd).allows
  refine (overloaded_iff fun p hp => (hallows.properties p hp).distinct).mpr ?_
  exact h.declared Draft.compatible_invariant draft hd

theorem Reachable.overloaded_properties (h : Reachable lenient S) {d : Definition}
    (hd : d ∈ S.known.definitions) (hclosed : S.known.isClosed d = true) :
    Overloaded (S.known.properties d) := by
  obtain ⟨b, hb⟩ := Option.isSome_iff_exists.mp hclosed
  obtain ⟨r, draft, V, hr, hdraft, _, rfl⟩ := h.exists_closing hd hb
  have hproperties : S.known.properties d = draft.body.properties :=
    congrArg (·.properties) (Universe.body_of_body? hb)
  rw [hproperties]
  exact Draft.overloaded_body (hr.wellFormed.items _ hdraft).allows (hr.overloaded_draft hdraft)

/-- Properties are accepted if any two of one name overload each other, in whatever order; otherwise
the first that does not overload one before it is reported.  What is closed keeps to the law. -/
theorem Reachable.overloading (h : Reachable lenient S) {draft : Draft}
    (hd : draft.properties = []) {properties : List (String × TypeExpr)}
    (ht : ∀ p ∈ properties, .type p.2 ∈ S.items) :
    ((∃ changed, draft.addProperties properties = .ok changed) ↔ Overloaded properties) ∧
    (∀ reordered, properties.Perm reordered →
      ((∃ changed, draft.addProperties reordered = .ok changed) ↔
        ∃ changed, draft.addProperties properties = .ok changed)) ∧
    (¬ Overloaded properties → ∃ before p after, properties = before ++ p :: after ∧
      Overloaded before ∧ (∃ q ∈ before, ¬ Compatible q p) ∧
      draft.addProperties before = .ok { draft with properties := before } ∧
      draft.addProperties (before ++ [p]) = .error (.duplicateProperty draft.name p.1) ∧
      draft.addProperties properties = .error (.duplicateProperty draft.name p.1)) ∧
    ∀ d ∈ S.known.definitions, S.known.isClosed d = true → Overloaded (S.known.properties d) := by
  have hdistinct : ∀ p ∈ properties, p.2.Distinct := by
    intro p hp
    have hadmits : S.known.Admits p.2 := h.wellFormed.items _ (ht p hp)
    exact hadmits.distinct
  have haccepts := Draft.accepts_iff_overloaded hd hdistinct
  refine ⟨haccepts, fun reordered hperm => ?_, Draft.rejects_first hd hdistinct,
    fun d hmem hclosed => h.overloaded_properties hmem hclosed⟩
  have hdistinct' : ∀ p ∈ reordered, p.2.Distinct := fun p hp => hdistinct p (hperm.mem_iff.mpr hp)
  rw [haccepts, Draft.accepts_iff_overloaded hd hdistinct']
  exact ⟨fun h => h.perm hperm.symm, fun h => h.perm hperm⟩

end Session

/-! ## Overloads of a parameter type -/

namespace Printers

open Command

/-- A class `Text`, and a class `Printer<T: Text>` with `print` for one `T` and for two of them.  The
`T` in these is one without a bound. -/
def commands : List Command := [
  startDraft "Text" .classKind, close 0, startInstantiation 0, construct 1,
  startDraft "Other" .classKind, addParameter 3 "T", refer 4 "T",
  fn [("x", 5)] 2, fn [("x", 5), ("y", 5)] 2, fn [("y", 5)] 2,
  startDraft "Printer" .classKind, addBoundedParameter 9 "T" 2, addProperty 10 "print" 6,
  addProperty 11 "name" 2, addProperty 12 "print" 7, close 13]

def session : Session := (Session.replay? commands).getD {}

def text : TypeExpr := .inst ⟨0, ⟨"default", "Text"⟩, .classKind⟩ [] false

def printer : Definition := ⟨1, ⟨"default", "Printer"⟩, .classKind⟩

def print (names : List String) : String × TypeExpr :=
  ("print", .fn (names.map fun x => (x, .var "T" none false)) text)

def accepted : List (String × TypeExpr) := [print ["x"], ("name", text), print ["x", "y"]]

/-- The third differs from the first by the name of its parameter only. -/
def rejected : List (String × TypeExpr) :=
  [print ["x"], print ["x", "y"], print ["y"], ("name", text)]

def draft : Draft := Draft.start "Printer" .classKind

theorem printer_overloads :
    Overloaded accepted ∧ (∃ changed, draft.addProperties accepted.reverse = .ok changed) ∧
      ¬ Overloaded rejected ∧
      draft.addProperties rejected = .error (.duplicateProperty "Printer" "print") ∧
      (session.known.properties printer).map (·.1) = ["print", "name", "print"] ∧
      Overloaded (session.known.properties printer) := by
  have hreplay : Session.replay? commands = some session := rfl
  have h : Session.Reachable true session := Session.reachable_of_replay? hreplay
  have haccepted : session.types? [("print", 6), ("name", 2), ("print", 7)] = some accepted := rfl
  have hrejected : session.types? [("print", 6), ("print", 7), ("print", 8), ("name", 2)] =
      some rejected := rfl
  have hmem : printer ∈ session.known.definitions := by decide +kernel
  have hclosed : session.known.isClosed printer = true := rfl
  obtain ⟨haccepts, horder, _, hbodies⟩ :=
    h.overloading (rfl : draft.properties = []) (Session.mem_of_types? haccepted)
  obtain ⟨hrejects, _, _⟩ :=
    h.overloading (rfl : draft.properties = []) (Session.mem_of_types? hrejected)
  have hadded : ∃ changed, draft.addProperties accepted = .ok changed := ⟨_, rfl⟩
  have hreport : draft.addProperties rejected = .error (.duplicateProperty "Printer" "print") := rfl
  have hnot : ¬ Overloaded rejected := by
    intro hall
    obtain ⟨changed, hchanged⟩ := hrejects.mpr hall
    rw [hreport] at hchanged
    cases hchanged
  exact ⟨haccepts.mp hadded, (horder _ (List.reverse_perm _).symm).mpr hadded, hnot, hreport, rfl,
    hbodies printer hmem hclosed⟩

end Printers

end NominalTypes
