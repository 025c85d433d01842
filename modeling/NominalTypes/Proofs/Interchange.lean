import NominalTypes.Proofs.Subtyping

/-!
# Equal types in queries

Equality leaves out the order of type arguments, the parameter names of functions and the bounds of
variables, all of which the types still carry while they are computed with.  No query lets any of it
through:

* `Universe.Interchangeable`: two types of one definition, written differently;
* `Universe.Interchangeable.substitute_alike` and its like: seen from either, what the definition
  declares is equal, or fails for the same reason;
* `Universe.Coherent.findFrom_interchange`, `Universe.Coherent.listFrom_interchange`,
  `Universe.Coherent.acceptsFrom_interchange`: one level of the three searches, and from it all
  levels;
* `Session.Reachable.equal_types_interchangeable`: equal types get the same answers.
-/

namespace NominalTypes

/-! ## Equal bindings -/

section Bindings

variable {σ τ : Bindings}

theorem kind_eq_of_unbound {α β : Type} {x : Except Fault α} {y : Except Fault β}
    (hx : ∀ e, x = .error e → ∃ p, e = .unboundParameter p)
    (hy : ∀ e, y = .error e → ∃ p, e = .unboundParameter p) (e f : Fault) (he : x = .error e)
    (hf : y = .error f) : e.kind = f.kind := by
  obtain ⟨p, rfl⟩ := hx e he
  obtain ⟨q, rfl⟩ := hy f hf
  rfl

theorem TypeExpr.substitute_alike {t : TypeExpr} (ht : t.Distinct) (hστ : σ.sameAs τ = true)
    (hτσ : τ.sameAs σ = true) :
    Alike (fun u r => u.sameAs r = true) (t.substitute σ) (t.substitute τ) := by
  have hrefl := sameAs_refl ht
  refine .of_ok (fun u hu => substitute_congr ht ht hrefl hστ hu) (fun r hr => ?_)
    (kind_eq_of_unbound (fun _ => substitute_eq_error) fun _ => substitute_eq_error)
  obtain ⟨u, hu, _⟩ := substitute_congr ht ht hrefl hτσ hr
  exact ⟨u, hu⟩

/-- Entry by entry, since properties may share a name. -/
theorem TypeExpr.Substituted.congr {types us : List (String × TypeExpr)}
    (ht : ∀ p ∈ types, p.2.Distinct) (hστ : σ.sameAs τ = true) (h : Substituted σ types us) :
    ∃ rs, Substituted τ types rs ∧ SameEntries us rs := by
  induction h with
  | nil => exact ⟨[], .nil, .nil⟩
  | @cons p q types us hpq _ ih =>
    obtain ⟨hp, hrest⟩ := List.forall_mem_cons.mp ht
    obtain ⟨r, hr, hqr⟩ := substitute_congr hp hp (sameAs_refl hp) hστ hpq.2
    obtain ⟨rs, hrs, hsame⟩ := ih hrest
    exact ⟨(p.1, r) :: rs, .cons ⟨rfl, hr⟩ hrs, .cons ⟨hpq.1.symm, hqr⟩ hsame⟩

theorem Bindings.remap_alike {types : List (String × TypeExpr)} (ht : ∀ p ∈ types, p.2.Distinct)
    (hστ : σ.sameAs τ = true) (hτσ : τ.sameAs σ = true) :
    Alike TypeExpr.SameEntries (Bindings.remap types σ) (Bindings.remap types τ) := by
  refine .of_ok (fun us hus => ?_) (fun rs hrs => ?_)
    (kind_eq_of_unbound (fun _ => remap_eq_error) fun _ => remap_eq_error)
  · obtain ⟨rs, hrs, hsame⟩ := (remap_eq_ok_iff.mp hus).congr ht hστ
    exact ⟨rs, remap_eq_ok_iff.mpr hrs, hsame⟩
  · obtain ⟨us, hus, _⟩ := (remap_eq_ok_iff.mp hrs).congr ht hτσ
    exact ⟨us, remap_eq_ok_iff.mpr hus⟩

end Bindings

namespace Universe

variable {U : Universe} {s t : Instance}

/-! ## Equal types -/

/-- One definition, with arguments that are equal and may be written differently. -/
structure Interchangeable (U : Universe) (s t : Instance) : Prop where
  definition : t.definition = s.definition
  nullable : t.nullable = s.nullable
  left : U.AdmitsArgs s.args
  right : U.AdmitsArgs t.args
  args : s.args.sameAs t.args = true

namespace Interchangeable

theorem symm (h : U.Interchangeable s t) : U.Interchangeable t s where
  definition := h.definition.symm
  nullable := h.nullable.symm
  left := h.right
  right := h.left
  args := Bindings.sameAs_symm h.left.1 h.right.1 h.left.distinct h.right.distinct h.args

theorem of_sameAs (hu : U.Unambiguous) (hs : U.Admits s.toExpr) (ht : U.Admits t.toExpr)
    (h : s.sameAs t = true) : U.Interchangeable s t := by
  obtain ⟨hs, hargs⟩ := admits_toExpr.mp hs
  obtain ⟨ht, hargs'⟩ := admits_toExpr.mp ht
  obtain ⟨hn, hd, hsame⟩ := TypeExpr.sameAs_inst_iff.mp h
  exact ⟨(hu.eq_of_sameAs hs ht hd).symm, hn.symm, hargs, hargs', hsame⟩

theorem substitute_alike (h : U.Interchangeable s t) {x : TypeExpr} (hx : U.Admits x) :
    Alike (fun u r => u.sameAs r = true) (x.substitute s.args) (x.substitute t.args) :=
  TypeExpr.substitute_alike hx.distinct h.args h.symm.args

theorem remap_properties_alike (h : U.Interchangeable s t) {types : List (String × TypeExpr)}
    (ht : ∀ p ∈ types, U.Admits p.2) :
    Alike TypeExpr.SameEntries (Bindings.remap types s.args) (Bindings.remap types t.args) :=
  Bindings.remap_alike (fun p hp => (ht p hp).distinct) h.args h.symm.args

theorem remap_alike (h : U.Interchangeable s t) {i : Instance} (hi : U.Admits i.toExpr) :
    Alike U.Interchangeable (i.remap s.args) (i.remap t.args) := by
  have hargs := (admits_toExpr.mp hi).2
  have exists_remap {s t : Instance} (h : U.Interchangeable s t) {a : Instance}
      (ha : i.remap s.args = .ok a) :
      ∃ b, i.remap t.args = .ok b ∧ U.Interchangeable a b := by
    obtain ⟨as, has, rfl⟩ := Instance.remap_eq_ok_iff.mp ha
    obtain ⟨bs, hbs, hsame⟩ := hargs.remap_congr hargs hargs.sameAs_refl h.args has
    exact ⟨{ i with args := bs }, Instance.remap_eq_ok_iff.mpr ⟨bs, hbs, rfl⟩, rfl, rfl,
      hargs.remap h.left has, hargs.remap h.right hbs, hsame⟩
  refine .of_ok (fun a ha => exists_remap h ha) (fun b hb => ?_)
    (kind_eq_of_unbound (fun _ => Instance.remap_eq_error) fun _ => Instance.remap_eq_error)
  obtain ⟨a, ha, _⟩ := exists_remap h.symm hb
  exact ⟨a, ha⟩

end Interchangeable

/-! ## One property -/

section Finding

variable {limit : Nat} {name : String}

/-- At the same place, with equal types. -/
def SameFound (f g : Found) : Prop :=
  g.depth = f.depth ∧ g.position = f.position ∧ f.type.sameAs g.type = true

/-- Both are answered alike on this level, or go on to parents that are interchangeable again. -/
theorem Coherent.findFrom_level (hU : U.Coherent) (h : U.Interchangeable s t) {hops depth : Nat}
    (hup : ∀ k, hops = k + 1 → ∀ a b, U.Interchangeable a b →
      Alike (Option.Rel SameFound) (U.findFrom limit name k (depth + 1) a)
        (U.findFrom limit name k (depth + 1) b)) :
    Alike (Option.Rel SameFound) (U.findFrom limit name hops depth s)
      (U.findFrom limit name hops depth t) := by
  rw [findFrom_eq, findFrom_eq U limit name hops depth t, h.definition]
  cases hown : U.ownProperty? s.definition name with
  | some own =>
    have hmem := List.mem_of_getElem? (getElem?_of_firstNamed? hown)
    refine (h.substitute_alike (hU.admits_of_mem_properties hmem)).bind fun u r hur => ?_
    exact .ok (.some ⟨rfl, rfl, hur⟩)
  | none =>
    cases hp : U.parent? s.definition with
    | none => exact .ok .none
    | some parent =>
      have hparent := hU.admits_of_mem_supertypes (mem_supertypes_iff.mpr (.inl hp))
      refine (h.remap_alike hparent).bind fun a b hab => ?_
      cases hops with
      | zero => exact .error rfl
      | succ k => exact hup k rfl a b hab

theorem Coherent.findFrom_interchange (hU : U.Coherent) (h : U.Interchangeable s t)
    (hops depth : Nat) :
    Alike (Option.Rel SameFound) (U.findFrom limit name hops depth s)
      (U.findFrom limit name hops depth t) := by
  induction hops generalizing depth s t with
  | zero => exact hU.findFrom_level h fun k hk => by cases hk
  | succ n ih =>
    refine hU.findFrom_level h fun k hk a b hab => ?_
    cases hk
    exact ih hab (depth + 1)

end Finding

/-! ## All properties -/

section Listing

variable {limit : Nat} {start start' : Instance}

theorem Coherent.listFrom_level (hU : U.Coherent) (h : U.Interchangeable s t) {hops : Nat}
    {seen : List String}
    (hup : ∀ k, hops = k + 1 → ∀ seen a b, U.Interchangeable a b →
      Alike TypeExpr.SameEntries (U.listFrom limit start k seen a)
        (U.listFrom limit start' k seen b)) :
    Alike TypeExpr.SameEntries (U.listFrom limit start hops seen s)
      (U.listFrom limit start' hops seen t) := by
  have hvisible (p : String × TypeExpr) (hp : p ∈ U.visible seen s.definition) : U.Admits p.2 :=
    hU.admits_of_mem_properties (List.mem_of_mem_filter hp)
  rw [listFrom_eq, listFrom_eq U limit start' hops seen t, h.definition]
  refine (h.remap_properties_alike hvisible).bind fun level level' hlevel => ?_
  cases hp : U.parent? s.definition with
  | none => exact .ok hlevel
  | some parent =>
    have hparent := hU.admits_of_mem_supertypes (mem_supertypes_iff.mpr (.inl hp))
    refine (h.remap_alike hparent).bind fun a b hab => ?_
    cases hops with
    | zero => exact .error rfl
    | succ k =>
      dsimp only
      rw [hlevel.names]
      refine (hup k rfl _ a b hab).bind fun rest rest' hrest => ?_
      exact .ok (List.rel_append hlevel hrest)

theorem Coherent.listFrom_interchange (hU : U.Coherent) (h : U.Interchangeable s t) (hops : Nat)
    (seen : List String) :
    Alike TypeExpr.SameEntries (U.listFrom limit start hops seen s)
      (U.listFrom limit start' hops seen t) := by
  induction hops generalizing seen s t with
  | zero => exact hU.listFrom_level h fun k hk => by cases hk
  | succ n ih =>
    refine hU.listFrom_level h fun k hk seen a b hab => ?_
    cases hk
    exact ih hab seen

end Listing

/-! ## Assignability -/

section Accepting

variable {limit : Nat} {target target' : Instance}

theorem Interchangeable.sameAs_args (ht : U.Interchangeable target target')
    (hs : U.Interchangeable s t) :
    target.args.sameAs s.args = target'.args.sameAs t.args := by
  have hleft (h : target.args.sameAs s.args = true) : target'.args.sameAs t.args = true :=
    Bindings.sameAs_trans ht.symm.args (Bindings.sameAs_trans h hs.args)
  have hright (h : target'.args.sameAs t.args = true) : target.args.sameAs s.args = true :=
    Bindings.sameAs_trans ht.args (Bindings.sameAs_trans h hs.symm.args)
  exact Bool.eq_iff_iff.mpr ⟨hleft, hright⟩

theorem Coherent.acceptsFrom_level (hU : U.Coherent) (ht : U.Interchangeable target target')
    (hs : U.Interchangeable s t) {levels : Nat}
    (hup : ∀ a b, U.Interchangeable a b →
      Alike Eq (U.acceptsFrom limit target levels a) (U.acceptsFrom limit target' levels b)) :
    Alike Eq (U.acceptsFrom limit target (levels + 1) s)
      (U.acceptsFrom limit target' (levels + 1) t) := by
  cases hn : s.nullable && !target.nullable with
  | true =>
    rw [acceptsFrom_nullable hn, acceptsFrom_nullable (by rwa [hs.nullable, ht.nullable])]
    exact .ok rfl
  | false =>
    have hn' : (t.nullable && !target'.nullable) = false := by rwa [hs.nullable, ht.nullable]
    cases hd : target.definition.sameAs s.definition with
    | true =>
      have hd' : target'.definition.sameAs t.definition = true := by
        rwa [hs.definition, ht.definition]
      rw [acceptsFrom_reached hn hd, acceptsFrom_reached hn' hd', ht.sameAs_args hs]
      exact .ok rfl
    | false =>
      have hd' : target'.definition.sameAs t.definition = false := by
        rwa [hs.definition, ht.definition]
      rw [acceptsFrom_up hn hd, acceptsFrom_up hn' hd', hs.definition, ht.definition]
      refine .anyM fun i hi => ?_
      have hadmits := hU.admits_of_mem_supertypes (mem_supertypes_of_mem_candidates hi)
      exact (hs.remap_alike hadmits).bind hup

theorem Coherent.acceptsFrom_interchange (hU : U.Coherent) (ht : U.Interchangeable target target')
    (hs : U.Interchangeable s t) (levels : Nat) :
    Alike Eq (U.acceptsFrom limit target levels s) (U.acceptsFrom limit target' levels t) := by
  induction levels generalizing s t with
  | zero => exact .error rfl
  | succ n ih => exact hU.acceptsFrom_level ht hs fun a b hab => ih hab

end Accepting

end Universe

/-! ## Reachable sessions -/

namespace Session

variable {lenient : Bool} {S : Session}

/-- Neither a look-up, nor a list of properties, nor the search for a supertype tells equal types
apart, whether it succeeds or fails. -/
theorem Reachable.equal_types_interchangeable (h : Reachable lenient S) (hu : S.known.Unambiguous)
    {a a' b b' : Instance} (ha : .type a.toExpr ∈ S.items) (ha' : .type a'.toExpr ∈ S.items)
    (hb : .type b.toExpr ∈ S.items) (hb' : .type b'.toExpr ∈ S.items) (haa : a.sameAs a' = true)
    (hbb : b.sameAs b' = true) (limit : Nat) (name : String) :
    Alike (Option.Rel Universe.SameFound) (S.known.find limit name a)
      (S.known.find limit name a') ∧
    Alike TypeExpr.SameEntries (S.known.allProperties limit a) (S.known.allProperties limit a') ∧
    Alike Eq (S.known.accepts limit a b) (S.known.accepts limit a' b') := by
  have hU := h.wellFormed.coherent
  have hleft := Universe.Interchangeable.of_sameAs hu (h.admits ha) (h.admits ha') haa
  have hright := Universe.Interchangeable.of_sameAs hu (h.admits hb) (h.admits hb') hbb
  exact ⟨hU.findFrom_interchange hleft limit 0, hU.listFrom_interchange hleft limit [],
    hU.acceptsFrom_interchange hleft hright (limit + 1)⟩

end Session

namespace Knots

open Command

/-- A class `Pair<A, B>`, a class `Knot<X, Y>` that extends `Pair<A=X, B=Y>`, and instances of both
with a function type and a reference for their arguments.  Each is there a second time, with the
arguments in the other order, the parameter of the function under another name, and a bound on the
reference. -/
def commands : List Command := [
  startDraft "Name" .classKind, close 0, startInstantiation 0, construct 1,
  startDraft "Pair" .classKind, addParameter 3 "A", addParameter 4 "B", refer 5 "A", refer 5 "B",
  fn [("x", 6)] 7, addProperty 5 "first" 6, addProperty 9 "make" 8, close 10,
  startDraft "Knot" .classKind, addParameter 11 "X", addParameter 12 "Y", refer 13 "X",
  refer 13 "Y", startInstantiation 1, bind 16 "A" 14, bind 17 "B" 15, construct 18, inherit 13 19,
  close 20,
  fn [("x", 2)] 2, fn [("y", 2)] 2,
  startDraft "Free" .classKind, addParameter 23 "R", refer 24 "R",
  startDraft "Bounded" .classKind, addBoundedParameter 26 "R" 2, refer 27 "R",
  startInstantiation 2, bind 29 "X" 21, bind 30 "Y" 25, construct 31,
  bind 29 "Y" 28, bind 33 "X" 22, construct 34,
  startInstantiation 1, bind 36 "A" 21, bind 37 "B" 25, construct 38,
  bind 36 "B" 28, bind 40 "A" 22, construct 41]

def replayed : Session := (Session.replayClosed? commands).getD {}

def name : TypeExpr := .inst ⟨0, ⟨"default", "Name"⟩, .classKind⟩ [] false

def function (parameter : String) : TypeExpr := .fn [(parameter, name)] name

def reference (bound : Option TypeExpr) : TypeExpr := .var "R" bound false

def pair (args : Bindings) : Instance := ⟨⟨1, ⟨"default", "Pair"⟩, .classKind⟩, args, false⟩

def knot (args : Bindings) : Instance := ⟨⟨2, ⟨"default", "Knot"⟩, .classKind⟩, args, false⟩

def plainPair : Instance := pair [("A", function "x"), ("B", reference none)]

def otherPair : Instance := pair [("B", reference (some name)), ("A", function "y")]

def plainKnot : Instance := knot [("X", function "x"), ("Y", reference none)]

def otherKnot : Instance := knot [("Y", reference (some name)), ("X", function "y")]

def var (x : String) : TypeExpr := .var x none false

/-- What the commands declare. -/
def known : Universe where
  entries := #[
    ⟨⟨0, ⟨"default", "Name"⟩, .classKind⟩, some {}⟩,
    ⟨plainPair.definition, some {
      parameters := [⟨"A", none⟩, ⟨"B", none⟩]
      properties := [("first", var "A"), ("make", .fn [("x", var "A")] (var "B"))] }⟩,
    ⟨plainKnot.definition, some {
      parent := some (pair [("A", var "X"), ("B", var "Y")])
      parameters := [⟨"X", none⟩, ⟨"Y", none⟩] }⟩]

theorem replayed_known : replayed.known = known := by cbv

def session : Session := ⟨known, replayed.items⟩

theorem session_eq : session = replayed := by rw [session, ← replayed_known]

theorem reachable : Session.Reachable false session := by
  rw [session_eq]
  have hsome : (Session.replayClosed? commands).isSome = true := by decide +kernel
  exact Session.reachable_getD hsome fun _ => Session.reachable_of_replayClosed?

theorem unambiguous : session.known.Unambiguous := by
  unfold Universe.Unambiguous
  decide

/-- What a `Knot` has from `Pair`. -/
def listed (parameter : String) (bound : Option TypeExpr) : List (String × TypeExpr) :=
  [("first", function parameter), ("make", .fn [("x", function parameter)] (reference bound))]

/-- From either `Knot` the properties of `Pair` have the same types, but for the parameter of the
function in them and the bound of the reference.  Either `Pair` accepts its `Knot`, neither `Knot`
its `Pair`, and both searches fail if they may not go up. -/
theorem knots_interchangeable :
    plainKnot.sameAs otherKnot = true ∧ plainPair.sameAs otherPair = true ∧
    session.known.find 1 "make" plainKnot =
      .ok (some ⟨1, 1, .fn [("x", function "x")] (reference none)⟩) ∧
    Alike (Option.Rel Universe.SameFound) (session.known.find 1 "make" plainKnot)
      (session.known.find 1 "make" otherKnot) ∧
    session.known.allProperties 1 plainKnot = .ok (listed "x" none) ∧
    session.known.allProperties 1 otherKnot = .ok (listed "y" (some name)) ∧
    Alike TypeExpr.SameEntries (session.known.allProperties 1 plainKnot)
      (session.known.allProperties 1 otherKnot) ∧
    session.known.accepts 1 plainPair plainKnot = .ok true ∧
    Alike Eq (session.known.accepts 1 plainPair plainKnot)
      (session.known.accepts 1 otherPair otherKnot) ∧
    session.known.accepts 1 plainKnot plainPair = .ok false ∧
    Alike Eq (session.known.accepts 1 plainKnot plainPair)
      (session.known.accepts 1 otherKnot otherPair) ∧
    HitsLimit (session.known.accepts 0 plainPair plainKnot) ∧
    Alike Eq (session.known.accepts 0 plainPair plainKnot)
      (session.known.accepts 0 otherPair otherKnot) := by
  have hknot : plainKnot.sameAs otherKnot = true := by decide
  have hpair : plainPair.sameAs otherPair = true := by decide
  have hplain : .type plainKnot.toExpr ∈ session.items := Session.mem_of_instance? (n := 32) (by cbv)
  have hother : .type otherKnot.toExpr ∈ session.items := Session.mem_of_instance? (n := 35) (by cbv)
  have hplain' : .type plainPair.toExpr ∈ session.items :=
    Session.mem_of_instance? (n := 39) (by cbv)
  have hother' : .type otherPair.toExpr ∈ session.items :=
    Session.mem_of_instance? (n := 42) (by cbv)
  have hup (limit : Nat) := reachable.equal_types_interchangeable unambiguous hplain' hother' hplain
    hother hpair hknot limit "make"
  obtain ⟨hfind, hlist, hdown⟩ := reachable.equal_types_interchangeable unambiguous hplain hother
    hplain' hother' hknot hpair 1 "make"
  exact ⟨hknot, hpair, rfl, hfind, rfl, rfl, hlist, rfl, (hup 1).2.2, rfl, hdown,
    ⟨0, .assigningTo plainPair, rfl⟩, (hup 0).2.2⟩

end Knots

end NominalTypes
