import NominalTypes.Proofs.Sessions

/-!
# The order of binding

Type arguments are kept in the order in which they were bound, which shows in the text of a type and
in which undeclared parameter is reported.  Nothing else about an instantiation depends on it:

* `Bindings.type?_eq_of_perm`: in any order, each parameter is bound to the same type;
* `TypeExpr.substitute_eq_of_type?`, `Instantiation.checkParameter_eq_of_type?`: substitution, and so
  the check of a parameter, reads bindings through look-up alone;
* `Instantiation.construct_sameOutcome`, `Instantiation.bind_order_irrelevant`: arguments bound in
  another order give an equal type, or the same fault.
-/

namespace NominalTypes

/-! ## Look-up -/

namespace Bindings

variable {b c : Bindings}

theorem type?_eq_of_perm (h : b.Perm c) (hb : (b.map (·.1)).Nodup) (p : String) :
    c.type? p = b.type? p := by
  have hc : (c.map (·.1)).Nodup := (h.map _).nodup_iff.mp hb
  ext t
  rw [type?_eq_some_iff hb, type?_eq_some_iff hc, h.mem_iff]

theorem sameAs_of_perm (h : b.Perm c) (hb : (b.map (·.1)).Nodup) (ht : ∀ e ∈ b, e.2.Distinct) :
    b.sameAs c = true := by
  have hc : (c.map (·.1)).Nodup := (h.map _).nodup_iff.mp hb
  refine sameAs_iff.mpr ⟨h.length_eq, fun e he => ?_⟩
  exact ⟨e.2, type?_of_mem hc (h.mem_iff.mp he), TypeExpr.sameAs_refl (ht e he)⟩

theorem eq_nil_iff : b = [] ↔ ∀ p, b.type? p = none := by
  cases b with
  | nil => exact ⟨fun _ => type?_nil, fun _ => rfl⟩
  | cons e rest =>
    refine ⟨fun h => absurd h (List.cons_ne_nil e rest), fun h => ?_⟩
    have he := h e.1
    rw [type?_cons, if_pos rfl] at he
    cases he

end Bindings

namespace TypeExpr

variable {σ τ : Bindings}

theorem instantiate_eq_of_type? (h : ∀ p, τ.type? p = σ.type? p) (t : TypeExpr) :
    t.instantiate τ = t.instantiate σ := by
  have heach {types : List (String × TypeExpr)}
      (ih : ∀ e ∈ types, e.2.instantiate τ = e.2.instantiate σ) :
      instantiateEach τ types = instantiateEach σ types := by
    induction types with
    | nil => rfl
    | cons e rest ihl =>
      obtain ⟨he, hrest⟩ := List.forall_mem_cons.mp ih
      rw [instantiateEach, instantiateEach, he, ihl hrest]
  induction t using inductOutsideBounds with
  | inst d args n ih => rw [instantiate, instantiate, heach ih]
  | var x b n => rw [instantiate, instantiate, Bindings.resolve, Bindings.resolve, h]
  | fn params result ihp ihr => rw [instantiate, instantiate, heach ihp, ihr]

theorem substitute_eq_of_type? (h : ∀ p, τ.type? p = σ.type? p) (t : TypeExpr) :
    t.substitute τ = t.substitute σ := by
  have hnil : τ = [] ↔ σ = [] := by
    simp only [Bindings.eq_nil_iff, h]
  by_cases hσ : σ = []
  · rw [hσ, hnil.mpr hσ]
  · rw [substitute_of_ne_nil hσ, substitute_of_ne_nil (mt hnil.mp hσ), instantiate_eq_of_type? h]

end TypeExpr

namespace Instantiation

variable {U : Universe} {i : Instantiation} {args : Bindings}

/-! ## The checks -/

theorem checkParameter_eq_of_type? (h : ∀ p, args.type? p = i.args.type? p) (p : Parameter) :
    ({ i with args } : Instantiation).checkParameter U p = i.checkParameter U p := by
  simp only [checkParameter, Bindings.resolve, h, TypeExpr.substitute_eq_of_type? h]

/-! ## Instances -/

/-- Equal types, or the same fault, up to which undeclared parameter it names. -/
structure SameOutcome (x y : Except Fault Instance) : Prop where
  alike : Alike (fun a b => a.sameAs b = true) x y
  fault : ∀ f, x = .error f → f.kind ≠ "UndeclaredParameter" → y = .error f

/-- Undeclared names are looked for in the order of the arguments, and the parameters are checked in
that of their declaration. -/
theorem construct_sameOutcome (h : i.args.Perm args) (hn : (i.args.map (·.1)).Nodup)
    (ht : ∀ a ∈ i.args, a.2.Distinct) :
    SameOutcome (i.construct U) (({ i with args } : Instantiation).construct U) := by
  have hnames : ({ i with args } : Instantiation).checkNames U = .ok () ↔
      i.checkNames U = .ok () := by
    simp only [checkNames_eq_ok_iff, h.mem_iff]
  have hcheck : ({ i with args } : Instantiation).checkParameter U = i.checkParameter U :=
    funext (checkParameter_eq_of_type? (Bindings.type?_eq_of_perm h hn))
  unfold construct
  rw [hcheck]
  cases hi : i.checkNames U with
  | ok _ =>
    rw [hnames.mpr hi]
    cases (U.parameters i.definition).forM (i.checkParameter U) with
    | error f => exact ⟨.error rfl, fun g hg _ => hg⟩
    | ok _ =>
      have hsame : i.toInstance.sameAs ⟨i.definition, args, i.nullable⟩ = true :=
        TypeExpr.sameAs_inst_iff.mpr
          ⟨rfl, Definition.sameAs_iff.mpr rfl, Bindings.sameAs_of_perm h hn ht⟩
      exact ⟨.ok hsame, fun f hf => by cases hf⟩
  | error f =>
    obtain ⟨p, rfl⟩ := checkNames_eq_error hi
    cases hj : ({ i with args } : Instantiation).checkNames U with
    | ok _ =>
      rw [hnames.mp hj] at hi
      cases hi
    | error g =>
      obtain ⟨q, rfl⟩ := checkNames_eq_error hj
      refine ⟨.error rfl, fun f hf hkind => ?_⟩
      cases hf
      exact absurd rfl hkind

/-! ## One argument after the other -/

/-- The arguments bound one after the other, up to the first whose parameter is bound already. -/
def bindAll (i : Instantiation) (arguments : List (String × TypeExpr)) :
    Except Fault Instantiation :=
  arguments.foldlM (fun i a => i.bind a.1 a.2) i

theorem bindAll_eq_ok {arguments : List (String × TypeExpr)}
    (h : ((i.args ++ arguments).map (·.1)).Nodup) :
    i.bindAll arguments = .ok { i with args := i.args ++ arguments } := by
  induction arguments generalizing i with
  | nil =>
    rw [List.append_nil]
    rfl
  | cons a rest ih =>
    have hnew : i.args.binds a.1 = false := by
      rw [Bool.eq_false_iff, Ne, Bindings.binds_iff]
      rw [List.map_append] at h
      exact fun hmem => (List.nodup_append.mp h).2.2 a.1 hmem a.1 List.mem_cons_self rfl
    have hadd : i.args.add a.1 a.2 = .ok (i.args ++ [a]) := Bindings.add_eq_ok_iff.mpr ⟨hnew, rfl⟩
    have hbind : i.bind a.1 a.2 = .ok { i with args := i.args ++ [a] } := by
      rw [bind, hadd]
      rfl
    have hrest : ((i.args ++ [a] ++ rest).map (·.1)).Nodup := by rwa [List.append_assoc]
    calc i.bindAll (a :: rest)
        = (i.bind a.1 a.2 >>= fun j => j.bindAll rest) := List.foldlM_cons
      _ = ({ i with args := i.args ++ [a] } : Instantiation).bindAll rest := by rw [hbind]; rfl
      _ = .ok { i with args := i.args ++ a :: rest } := by
        rw [ih hrest, List.append_assoc, List.singleton_append]

/-- Arguments for parameters with distinct names can be bound in any order, whether the definition
is closed or still open, whatever the nullability and the depth limit.  Of the types nothing is asked
but that they are such as can be built, no argument list in them binding a parameter twice. -/
theorem bind_order_irrelevant (U : Universe) (hi : i.args = [])
    {arguments reordered : List (String × TypeExpr)} (h : arguments.Perm reordered)
    (hn : (arguments.map (·.1)).Nodup) (ht : ∀ a ∈ arguments, a.2.Distinct) :
    SameOutcome (i.bindAll arguments >>= fun bound => bound.construct U)
      (i.bindAll reordered >>= fun bound => bound.construct U) := by
  have hn' : (reordered.map (·.1)).Nodup := (h.map _).nodup_iff.mp hn
  rw [bindAll_eq_ok (by rwa [hi, List.nil_append]), bindAll_eq_ok (by rwa [hi, List.nil_append]), hi]
  exact construct_sameOutcome (i := { i with args := arguments }) h hn ht

end Instantiation

namespace Ranges

def comparable : Definition := ⟨0, ⟨"default", "Comparable"⟩, .interfaceKind⟩

def text : TypeExpr := .inst ⟨1, ⟨"default", "Text"⟩, .classKind⟩ [] false

def rock : TypeExpr := .inst ⟨2, ⟨"default", "Rock"⟩, .classKind⟩ [] false

def range : Definition := ⟨3, ⟨"default", "Range"⟩, .classKind⟩

def comparableTo (t : TypeExpr) : Instance := ⟨comparable, [("T", t)], false⟩

/-- The bound of each parameter mentions the other one. -/
def parameters : List Parameter :=
  [⟨"Low", some (comparableTo (.var "High" none false)).toExpr⟩,
    ⟨"High", some (comparableTo (.var "Low" none false)).toExpr⟩]

/-- An interface `Comparable<T>`, a class `Text` that implements `Comparable<T=Text>`, a class `Rock`
and a class `Range<Low: Comparable<T=High>, High: Comparable<T=Low>>`. -/
def known : Universe where
  entries := #[
    ⟨comparable, some { parameters := [⟨"T", none⟩] }⟩,
    ⟨⟨1, ⟨"default", "Text"⟩, .classKind⟩, some { interfaces := [comparableTo text] }⟩,
    ⟨⟨2, ⟨"default", "Rock"⟩, .classKind⟩, some {}⟩,
    ⟨range, some { parameters }⟩]

/-- The range with these arguments, bound in this order. -/
def bound (arguments : List (String × TypeExpr)) : Except Fault Instance :=
  (Instantiation.start range).bindAll arguments >>= fun bound => bound.construct known

/-- Two texts make a range in either order; a text and a rock fail at the bound of `Low`, which comes
first in the class; and of two parameters that the class does not declare the first bound is named. -/
theorem range_either_way :
    bound [("High", text), ("Low", text)] = .ok ⟨range, [("High", text), ("Low", text)], false⟩ ∧
    (∃ made, bound [("Low", text), ("High", text)] = .ok made ∧
      (⟨range, [("High", text), ("Low", text)], false⟩ : Instance).sameAs made = true) ∧
    bound [("High", text), ("Low", rock)] =
      .error (.boundViolation "Range" "Low" (comparableTo text).toExpr rock) ∧
    bound [("Low", rock), ("High", text)] =
      .error (.boundViolation "Range" "Low" (comparableTo text).toExpr rock) ∧
    bound [("X", text), ("Y", text)] = .error (.undeclaredParameter "Range" "X") ∧
    bound [("Y", text), ("X", text)] = .error (.undeclaredParameter "Range" "Y") ∧
    Alike (fun a b => a.sameAs b = true) (bound [("X", text), ("Y", text)])
      (bound [("Y", text), ("X", text)]) := by
  have swapped (x y : String) (t u : TypeExpr) (hxy : x ≠ y) (ht : t.Distinct) (hu : u.Distinct) :
      Instantiation.SameOutcome (bound [(x, t), (y, u)]) (bound [(y, u), (x, t)]) :=
    Instantiation.bind_order_irrelevant known rfl (.swap _ _ _) (by simpa using hxy)
      (by simp [ht, hu])
  have htext : text.Distinct := by decide
  have hrock : rock.Distinct := by decide
  have hmade : bound [("High", text), ("Low", text)] =
      .ok ⟨range, [("High", text), ("Low", text)], false⟩ := rfl
  have hviolation : bound [("High", text), ("Low", rock)] =
      .error (.boundViolation "Range" "Low" (comparableTo text).toExpr rock) := rfl
  have htexts := swapped "High" "Low" text text (by decide) htext htext
  have hmixed := swapped "High" "Low" text rock (by decide) htext hrock
  have hunknown := swapped "X" "Y" text text (by decide) htext htext
  exact ⟨hmade, htexts.alike.exists_ok hmade, hviolation,
    hmixed.fault _ hviolation (by decide), rfl, rfl, hunknown.alike⟩

end Ranges

end NominalTypes
