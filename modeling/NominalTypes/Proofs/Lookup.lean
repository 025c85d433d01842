import NominalTypes.Lookup
import NominalTypes.Proofs.Composition
import NominalTypes.Proofs.Supertypes

/-!
# Property lookup level by level

* `Universe.findFrom_eq`, `Universe.listFrom_eq`: the two searches as a sequence of steps, and
  `Universe.findFrom_step`, `Universe.listFrom_step`: a level settles the answer or hands on to the
  parent;
* `Universe.route_of_findFrom_eq_some`, `Universe.route_of_findFrom_eq_error`: the level where a
  property was found, or where the search failed, and `Universe.route_of_mem_listFrom`: the level
  that a listed property comes from;
* `Universe.findFrom_stable`, `Universe.listFrom_stable`: an answer other than the limit is the
  answer under every larger limit, so there is only one list of properties
  (`Universe.allProperties_unique`);
* `Universe.route_of_findFrom_hitsLimit`, `Universe.route_of_listFrom_hitsLimit`: the limit is hit
  only by a chain of parents that is longer;
* `Universe.everywhere_findFrom`, `Universe.everywhere_listFrom`: what holds of all instances in
  bodies and in the receiver holds of all instances in the answer.
-/

namespace NominalTypes

namespace Universe

variable {U : Universe} {limit limit' hops hops' depth : Nat} {name : String} {on : Instance}

/-! ## One level -/

theorem findFrom_eq (U : Universe) (limit : Nat) (name : String) (hops depth : Nat)
    (on : Instance) :
    U.findFrom limit name hops depth on =
      match U.ownProperty? on.definition name with
      | some (position, declared) =>
        declared.substitute on.args >>= fun t => .ok (some ⟨depth, position, t⟩)
      | none =>
        match U.parent? on.definition with
        | none => .ok none
        | some parent => parent.remap on.args >>= fun above =>
          match hops with
          | 0 => .error (.recursionLimit limit (.lookingUp name))
          | hops + 1 => U.findFrom limit name hops (depth + 1) above := by
  rw [findFrom]
  cases U.ownProperty? on.definition name with
  | some own => rfl
  | none =>
    cases U.parent? on.definition with
    | none => rfl
    | some parent => cases hops <;> rfl

theorem findFrom_own {position : Nat} {declared : TypeExpr}
    (h : U.ownProperty? on.definition name = some (position, declared)) :
    U.findFrom limit name hops depth on =
      (declared.substitute on.args >>= fun t => .ok (some ⟨depth, position, t⟩)) := by
  rw [findFrom_eq, h]

theorem findFrom_top (h : U.ownProperty? on.definition name = none)
    (hp : U.parent? on.definition = none) : U.findFrom limit name hops depth on = .ok none := by
  rw [findFrom_eq, h, hp]

theorem findFrom_unbound {parent : Instance} {e : Fault}
    (h : U.ownProperty? on.definition name = none) (hp : U.parent? on.definition = some parent)
    (hr : parent.remap on.args = .error e) : U.findFrom limit name hops depth on = .error e := by
  rw [findFrom_eq]
  simp only [h, hp, hr]
  rfl

theorem findFrom_zero {parent above : Instance}
    (h : U.ownProperty? on.definition name = none) (hp : U.parent? on.definition = some parent)
    (hr : parent.remap on.args = .ok above) :
    U.findFrom limit name 0 depth on = .error (.recursionLimit limit (.lookingUp name)) := by
  rw [findFrom_eq]
  simp only [h, hp, hr]
  rfl

theorem findFrom_succ {parent above : Instance}
    (h : U.ownProperty? on.definition name = none) (hp : U.parent? on.definition = some parent)
    (hr : parent.remap on.args = .ok above) :
    U.findFrom limit name (hops + 1) depth on = U.findFrom limit name hops (depth + 1) above := by
  rw [findFrom_eq]
  simp only [h, hp, hr]
  rfl

/-- Only the parent, if it comes to that, is asked with fewer hops left. -/
theorem findFrom_step (U : Universe) (name : String) (on : Instance) :
    (∀ depth, ∃ r, ¬ HitsLimit r ∧ ∀ limit hops, U.findFrom limit name hops depth on = r) ∨
    (∃ above, U.ParentHop on above ∧ ∀ limit hops depth,
      U.findFrom limit name 0 depth on = .error (.recursionLimit limit (.lookingUp name)) ∧
      U.findFrom limit name (hops + 1) depth on =
        U.findFrom limit name hops (depth + 1) above) := by
  cases hown : U.ownProperty? on.definition name with
  | some found =>
    refine .inl fun depth => ⟨_, ?_, fun limit hops => findFrom_own hown⟩
    rw [hitsLimit_bind_iff]
    rintro (h | ⟨t, _, h⟩)
    · exact TypeExpr.not_hitsLimit_substitute h
    · exact not_hitsLimit_ok h
  | none =>
    cases hp : U.parent? on.definition with
    | none =>
      exact .inl fun depth => ⟨_, not_hitsLimit_ok, fun limit hops => findFrom_top hown hp⟩
    | some parent =>
      cases hr : parent.remap on.args with
      | error e =>
        refine .inl fun depth => ⟨.error e, ?_, fun limit hops => findFrom_unbound hown hp hr⟩
        rintro ⟨l, a, h⟩
        cases h
        exact Instance.not_hitsLimit_remap ⟨l, a, hr⟩
      | ok above =>
        exact .inr ⟨above, ⟨parent, hp, hr⟩, fun limit hops depth =>
          ⟨findFrom_zero hown hp hr, findFrom_succ hown hp hr⟩⟩

theorem findFrom_eq_some {found : Found}
    (h : U.findFrom limit name hops depth on = .ok (some found)) :
    (∃ position declared, U.ownProperty? on.definition name = some (position, declared) ∧
      declared.substitute on.args = .ok found.type ∧
      found.depth = depth ∧ found.position = position) ∨
    (∃ above k, U.ownProperty? on.definition name = none ∧ U.ParentHop on above ∧ hops = k + 1 ∧
      U.findFrom limit name k (depth + 1) above = .ok (some found)) := by
  cases hown : U.ownProperty? on.definition name with
  | some own =>
    rw [findFrom_own hown] at h
    obtain ⟨t, ht, h⟩ := bind_eq_ok_iff.mp h
    cases h
    exact .inl ⟨own.1, own.2, rfl, ht, rfl, rfl⟩
  | none =>
    cases hp : U.parent? on.definition with
    | none =>
      rw [findFrom_top hown hp] at h
      cases h
    | some parent =>
      cases hr : parent.remap on.args with
      | error e =>
        rw [findFrom_unbound hown hp hr] at h
        cases h
      | ok above =>
        cases hops with
        | zero =>
          rw [findFrom_zero hown hp hr] at h
          cases h
        | succ k =>
          rw [findFrom_succ hown hp hr] at h
          exact .inr ⟨above, k, rfl, ⟨parent, hp, hr⟩, rfl, h⟩

/-- Where a property was found, and as what. -/
theorem route_of_findFrom_eq_some {found : Found}
    (h : U.findFrom limit name hops depth on = .ok (some found)) :
    ∃ nodes top declared, Route U.ParentHop on nodes top ∧
      U.ownProperty? top.definition name = some (found.position, declared) ∧
      declared.substitute top.args = .ok found.type ∧
      found.depth + 1 = depth + nodes.length := by
  induction hops generalizing depth on with
  | zero =>
    rcases findFrom_eq_some h with ⟨_, declared, hown, hsub, rfl, rfl⟩ | ⟨_, k, _, _, hk, _⟩
    · exact ⟨[on], on, declared, .here on, hown, hsub, rfl⟩
    · omega
  | succ k ih =>
    rcases findFrom_eq_some h with ⟨_, declared, hown, hsub, rfl, rfl⟩ | ⟨above, _, _, hup, hk, h⟩
    · exact ⟨[on], on, declared, .here on, hown, hsub, rfl⟩
    · cases hk
      obtain ⟨nodes, top, declared, hroute, hown, hsub, hdepth⟩ := ih h
      refine ⟨on :: nodes, top, declared, .up hup hroute, hown, hsub, ?_⟩
      rw [List.length_cons]
      omega

theorem findFrom_eq_error {e : Fault} (h : U.findFrom limit name hops depth on = .error e) :
    e = .recursionLimit limit (.lookingUp name) ∨
    (∃ p ∈ U.properties on.definition, p.2.substitute on.args = .error e) ∨
    (∃ i ∈ U.supertypes on.definition, i.remap on.args = .error e) ∨
    (∃ above k, U.ParentHop on above ∧ hops = k + 1 ∧
      U.findFrom limit name k (depth + 1) above = .error e) := by
  cases hown : U.ownProperty? on.definition name with
  | some own =>
    rw [findFrom_own hown] at h
    rcases bind_eq_error_iff.mp h with h | ⟨_, _, h⟩
    · exact .inr (.inl ⟨_, List.mem_of_getElem? (getElem?_of_firstNamed? hown), h⟩)
    · cases h
  | none =>
    cases hp : U.parent? on.definition with
    | none =>
      rw [findFrom_top hown hp] at h
      cases h
    | some parent =>
      cases hr : parent.remap on.args with
      | error f =>
        rw [findFrom_unbound hown hp hr] at h
        cases h
        exact .inr (.inr (.inl ⟨parent, mem_supertypes_iff.mpr (.inl hp), hr⟩))
      | ok above =>
        cases hops with
        | zero =>
          rw [findFrom_zero hown hp hr] at h
          cases h
          exact .inl rfl
        | succ k =>
          rw [findFrom_succ hown hp hr] at h
          exact .inr (.inr (.inr ⟨above, k, ⟨parent, hp, hr⟩, rfl, h⟩))

/-- Where the search fails it has come to the limit, or to a level where an argument is missing. -/
theorem route_of_findFrom_eq_error {e : Fault}
    (h : U.findFrom limit name hops depth on = .error e) :
    ∃ nodes top, Route U.ParentHop on nodes top ∧
      (e = .recursionLimit limit (.lookingUp name) ∨
        (∃ p ∈ U.properties top.definition, p.2.substitute top.args = .error e) ∨
        ∃ i ∈ U.supertypes top.definition, i.remap top.args = .error e) := by
  induction hops generalizing depth on with
  | zero =>
    rcases findFrom_eq_error h with hlimit | hprop | hsuper | ⟨_, _, _, hk, _⟩
    · exact ⟨[on], on, .here on, .inl hlimit⟩
    · exact ⟨[on], on, .here on, .inr (.inl hprop)⟩
    · exact ⟨[on], on, .here on, .inr (.inr hsuper)⟩
    · cases hk
  | succ k ih =>
    rcases findFrom_eq_error h with hlimit | hprop | hsuper | ⟨above, _, hup, hk, h⟩
    · exact ⟨[on], on, .here on, .inl hlimit⟩
    · exact ⟨[on], on, .here on, .inr (.inl hprop)⟩
    · exact ⟨[on], on, .here on, .inr (.inr hsuper)⟩
    · cases hk
      obtain ⟨nodes, top, hroute, hcause⟩ := ih h
      exact ⟨on :: nodes, top, .up hup hroute, hcause⟩

/-- A type is searched through one of its instances, which is the bound at the end of a chain of
variables or the type itself. -/
theorem findIn_eq_some {t : TypeExpr} {found : Found}
    (h : U.findIn limit name t = .ok (some found)) :
    ∃ i ∈ t.instances, U.find limit name i = .ok (some found) := by
  induction t with
  | inst d args n => exact ⟨⟨d, args, n⟩, List.mem_cons_self, h⟩
  | var x n => cases h
  | bounded x b n ih => exact ih h
  | fn ps r _ _ => cases h

/-- What a level adds to the properties listed so far, before its variables are replaced. -/
def visible (U : Universe) (seen : List String) (d : Definition) : List (String × TypeExpr) :=
  (U.properties d).filter (!seen.contains ·.1)

section Listing

variable {start : Instance} {seen : List String}

theorem listFrom_eq (U : Universe) (limit : Nat) (start : Instance) (hops : Nat)
    (seen : List String) (on : Instance) :
    U.listFrom limit start hops seen on =
      (Bindings.remap (U.visible seen on.definition) on.args >>= fun level =>
        match U.parent? on.definition with
        | none => .ok level
        | some parent => parent.remap on.args >>= fun above =>
          match hops with
          | 0 => .error (.recursionLimit limit (.listing start))
          | hops + 1 =>
            U.listFrom limit start hops (seen ++ level.map (·.1)) above >>= fun rest =>
              .ok (level ++ rest)) := by
  rw [listFrom]
  cases U.parent? on.definition with
  | none => rfl
  | some parent => cases hops <;> rfl

theorem listFrom_unbound {e : Fault}
    (hl : Bindings.remap (U.visible seen on.definition) on.args = .error e) :
    U.listFrom limit start hops seen on = .error e := by
  rw [listFrom_eq, hl]
  rfl

theorem listFrom_top {level : List (String × TypeExpr)}
    (hl : Bindings.remap (U.visible seen on.definition) on.args = .ok level)
    (hp : U.parent? on.definition = none) : U.listFrom limit start hops seen on = .ok level := by
  rw [listFrom_eq, hl, hp]
  rfl

theorem listFrom_unbound_parent {level : List (String × TypeExpr)} {parent : Instance} {e : Fault}
    (hl : Bindings.remap (U.visible seen on.definition) on.args = .ok level)
    (hp : U.parent? on.definition = some parent) (hr : parent.remap on.args = .error e) :
    U.listFrom limit start hops seen on = .error e := by
  rw [listFrom_eq]
  simp only [hl, hp, hr]
  rfl

theorem listFrom_zero {level : List (String × TypeExpr)} {parent above : Instance}
    (hl : Bindings.remap (U.visible seen on.definition) on.args = .ok level)
    (hp : U.parent? on.definition = some parent) (hr : parent.remap on.args = .ok above) :
    U.listFrom limit start 0 seen on = .error (.recursionLimit limit (.listing start)) := by
  rw [listFrom_eq]
  simp only [hl, hp, hr]
  rfl

theorem listFrom_succ {level : List (String × TypeExpr)} {parent above : Instance}
    (hl : Bindings.remap (U.visible seen on.definition) on.args = .ok level)
    (hp : U.parent? on.definition = some parent) (hr : parent.remap on.args = .ok above) :
    U.listFrom limit start (hops + 1) seen on =
      (U.listFrom limit start hops (seen ++ level.map (·.1)) above >>= fun rest =>
        .ok (level ++ rest)) := by
  rw [listFrom_eq]
  simp only [hl, hp, hr]
  rfl

theorem listFrom_step (U : Universe) (start : Instance) (seen : List String) (on : Instance) :
    (∃ r, ¬ HitsLimit r ∧ ∀ limit hops, U.listFrom limit start hops seen on = r) ∨
    (∃ level above, U.ParentHop on above ∧ ∀ limit hops,
      U.listFrom limit start 0 seen on = .error (.recursionLimit limit (.listing start)) ∧
      U.listFrom limit start (hops + 1) seen on =
        (U.listFrom limit start hops (seen ++ level.map (·.1)) above >>= fun rest =>
          .ok (level ++ rest))) := by
  cases hl : Bindings.remap (U.visible seen on.definition) on.args with
  | error e =>
    refine .inl ⟨.error e, ?_, fun limit hops => listFrom_unbound hl⟩
    exact hl ▸ Bindings.not_hitsLimit_remap
  | ok level =>
    cases hp : U.parent? on.definition with
    | none => exact .inl ⟨.ok level, not_hitsLimit_ok, fun limit hops => listFrom_top hl hp⟩
    | some parent =>
      cases hr : parent.remap on.args with
      | error e =>
        refine .inl ⟨.error e, ?_, fun limit hops => listFrom_unbound_parent hl hp hr⟩
        rintro ⟨l, a, h⟩
        cases h
        exact Instance.not_hitsLimit_remap ⟨l, a, hr⟩
      | ok above =>
        exact .inr ⟨level, above, ⟨parent, hp, hr⟩, fun limit hops =>
          ⟨listFrom_zero hl hp hr, listFrom_succ hl hp hr⟩⟩

theorem listFrom_eq_ok {ps : List (String × TypeExpr)}
    (h : U.listFrom limit start hops seen on = .ok ps) :
    ∃ level, Bindings.remap (U.visible seen on.definition) on.args = .ok level ∧
      ((U.parent? on.definition = none ∧ ps = level) ∨
        ∃ above k rest, U.ParentHop on above ∧ hops = k + 1 ∧
          U.listFrom limit start k (seen ++ level.map (·.1)) above = .ok rest ∧
          ps = level ++ rest) := by
  cases hl : Bindings.remap (U.visible seen on.definition) on.args with
  | error e =>
    rw [listFrom_unbound hl] at h
    cases h
  | ok level =>
    refine ⟨level, rfl, ?_⟩
    cases hp : U.parent? on.definition with
    | none =>
      rw [listFrom_top hl hp] at h
      cases h
      exact .inl ⟨rfl, rfl⟩
    | some parent =>
      cases hr : parent.remap on.args with
      | error e =>
        rw [listFrom_unbound_parent hl hp hr] at h
        cases h
      | ok above =>
        cases hops with
        | zero =>
          rw [listFrom_zero hl hp hr] at h
          cases h
        | succ k =>
          rw [listFrom_succ hl hp hr] at h
          obtain ⟨rest, hrest, h⟩ := bind_eq_ok_iff.mp h
          cases h
          exact .inr ⟨above, k, rest, ⟨parent, hp, hr⟩, rfl, hrest, rfl⟩

/-- Every property listed is declared on some level. -/
theorem route_of_mem_listFrom {ps : List (String × TypeExpr)}
    (h : U.listFrom limit start hops seen on = .ok ps) {p : String × TypeExpr} (hp : p ∈ ps) :
    ∃ nodes top, Route U.ParentHop on nodes top ∧
      ∃ q ∈ U.properties top.definition, p.1 = q.1 ∧ q.2.substitute top.args = .ok p.2 := by
  have hlevel {seen : List String} {on : Instance} {level : List (String × TypeExpr)}
      (hl : Bindings.remap (U.visible seen on.definition) on.args = .ok level) (hp : p ∈ level) :
      ∃ q ∈ U.properties on.definition, p.1 = q.1 ∧ q.2.substitute on.args = .ok p.2 := by
    obtain ⟨q, hq, h⟩ := (Bindings.remap_eq_ok_iff.mp hl).exists_of_mem hp
    exact ⟨q, List.mem_of_mem_filter hq, h⟩
  induction hops generalizing seen on ps with
  | zero =>
    obtain ⟨level, hl, ⟨_, rfl⟩ | ⟨_, k, _, _, hk, _⟩⟩ := listFrom_eq_ok h
    · exact ⟨[on], on, .here on, hlevel hl hp⟩
    · cases hk
  | succ k ih =>
    obtain ⟨level, hl, ⟨_, rfl⟩ | ⟨above, k', rest, hup, hk, h, rfl⟩⟩ := listFrom_eq_ok h
    · exact ⟨[on], on, .here on, hlevel hl hp⟩
    · cases hk
      rcases List.mem_append.mp hp with hp | hp
      · exact ⟨[on], on, .here on, hlevel hl hp⟩
      · obtain ⟨nodes, top, hroute, hq⟩ := ih h hp
        exact ⟨on :: nodes, top, .up hup hroute, hq⟩

end Listing

/-! ## The limit -/

theorem findFrom_stable (hle : hops ≤ hops')
    (h : ¬ HitsLimit (U.findFrom limit name hops depth on)) :
    U.findFrom limit' name hops' depth on = U.findFrom limit name hops depth on := by
  induction hops generalizing hops' depth on with
  | zero =>
    rcases U.findFrom_step name on with hr | ⟨above, _, hstep⟩
    · obtain ⟨r, _, hr⟩ := hr depth
      rw [hr, hr]
    · rw [(hstep limit 0 depth).1] at h
      exact absurd hitsLimit_recursionLimit h
  | succ k ih =>
    obtain ⟨k', rfl⟩ : ∃ k', hops' = k' + 1 := ⟨hops' - 1, by omega⟩
    rcases U.findFrom_step name on with hr | ⟨above, _, hstep⟩
    · obtain ⟨r, _, hr⟩ := hr depth
      rw [hr, hr]
    · rw [(hstep limit k depth).2] at h ⊢
      rw [(hstep limit' k' depth).2]
      exact ih (by omega) h

theorem route_of_findFrom_hitsLimit (h : HitsLimit (U.findFrom limit name hops depth on)) :
    ∃ nodes t, Route U.ParentHop on nodes t ∧ nodes.length = hops + 2 := by
  induction hops generalizing depth on with
  | zero =>
    rcases U.findFrom_step name on with hr | ⟨above, habove, _⟩
    · obtain ⟨r, hlimit, hr⟩ := hr depth
      rw [hr] at h
      exact absurd h hlimit
    · exact ⟨[on, above], above, .up habove (.here above), rfl⟩
  | succ k ih =>
    rcases U.findFrom_step name on with hr | ⟨above, habove, hstep⟩
    · obtain ⟨r, hlimit, hr⟩ := hr depth
      rw [hr] at h
      exact absurd h hlimit
    · rw [(hstep limit k depth).2] at h
      obtain ⟨nodes, t, hroute, hlen⟩ := ih h
      exact ⟨on :: nodes, t, .up habove hroute, by rw [List.length_cons, hlen]⟩

theorem listFrom_stable {start : Instance} {seen : List String} (hle : hops ≤ hops')
    (h : ¬ HitsLimit (U.listFrom limit start hops seen on)) :
    U.listFrom limit' start hops' seen on = U.listFrom limit start hops seen on := by
  induction hops generalizing hops' seen on with
  | zero =>
    rcases U.listFrom_step start seen on with ⟨r, _, hr⟩ | ⟨level, above, _, hstep⟩
    · rw [hr, hr]
    · rw [(hstep limit 0).1] at h
      exact absurd hitsLimit_recursionLimit h
  | succ k ih =>
    obtain ⟨k', rfl⟩ : ∃ k', hops' = k' + 1 := ⟨hops' - 1, by omega⟩
    rcases U.listFrom_step start seen on with ⟨r, _, hr⟩ | ⟨level, above, _, hstep⟩
    · rw [hr, hr]
    · rw [(hstep limit k).2] at h ⊢
      rw [(hstep limit' k').2]
      rw [hitsLimit_bind_iff, not_or] at h
      rw [ih (by omega) h.1]

/-- Every limit that is large enough gives the same list. -/
theorem allProperties_unique {ps ps' : List (String × TypeExpr)}
    (h : U.allProperties limit on = .ok ps) (h' : U.allProperties limit' on = .ok ps') :
    ps = ps' := by
  rw [allProperties] at h h'
  rcases Nat.le_total limit limit' with hle | hle
  · have heq : U.listFrom limit' on limit' [] on = U.listFrom limit on limit [] on :=
      listFrom_stable hle (h ▸ not_hitsLimit_ok)
    rw [h, h'] at heq
    exact (Except.ok.inj heq).symm
  · have heq : U.listFrom limit on limit [] on = U.listFrom limit' on limit' [] on :=
      listFrom_stable hle (h' ▸ not_hitsLimit_ok)
    rw [h, h'] at heq
    exact Except.ok.inj heq

theorem route_of_listFrom_hitsLimit {start : Instance} {seen : List String}
    (h : HitsLimit (U.listFrom limit start hops seen on)) :
    ∃ nodes t, Route U.ParentHop on nodes t ∧ nodes.length = hops + 2 := by
  induction hops generalizing seen on with
  | zero =>
    rcases U.listFrom_step start seen on with ⟨r, hlimit, hr⟩ | ⟨level, above, habove, _⟩
    · rw [hr] at h
      exact absurd h hlimit
    · exact ⟨[on, above], above, .up habove (.here above), rfl⟩
  | succ k ih =>
    rcases U.listFrom_step start seen on with ⟨r, hlimit, hr⟩ | ⟨level, above, habove, hstep⟩
    · rw [hr] at h
      exact absurd h hlimit
    · rw [(hstep limit k).2, hitsLimit_bind_iff] at h
      rcases h with h | ⟨_, _, h⟩
      · obtain ⟨nodes, t, hroute, hlen⟩ := ih h
        exact ⟨on :: nodes, t, .up habove hroute, by rw [List.length_cons, hlen]⟩
      · exact absurd h not_hitsLimit_ok

/-! ## Conditions on instances -/

section Everywhere

variable {P : Definition → List String → Prop}

theorem ParentHop.everywhere {above : Instance}
    (hparents : ∀ d i, U.parent? d = some i → ∀ e ∈ i.args, e.2.Everywhere P)
    (hon : ∀ e ∈ on.args, e.2.Everywhere P) (h : U.ParentHop on above) :
    ∀ e ∈ above.args, e.2.Everywhere P := by
  obtain ⟨parent, hp, hr⟩ := h
  obtain ⟨args, hargs, rfl⟩ := Instance.remap_eq_ok_iff.mp hr
  exact Bindings.everywhere_remap (hparents _ _ hp) hon hargs

theorem everywhere_property (hprops : ∀ d, ∀ p ∈ U.properties d, p.2.Everywhere P)
    (hparents : ∀ d i, U.parent? d = some i → ∀ e ∈ i.args, e.2.Everywhere P)
    (hon : ∀ e ∈ on.args, e.2.Everywhere P) {nodes : List Instance} {top : Instance}
    (hroute : Route U.ParentHop on nodes top) {p : String × TypeExpr}
    (hp : p ∈ U.properties top.definition) {type : TypeExpr}
    (h : p.2.substitute top.args = .ok type) : type.Everywhere P := by
  have hnodes := hroute.forall_mem (P := fun n => ∀ e ∈ n.args, e.2.Everywhere P) hon
    fun a b hab ha => hab.everywhere hparents ha
  exact (hprops _ p hp).substitute (hnodes top hroute.end_mem) h

theorem everywhere_findFrom (hprops : ∀ d, ∀ p ∈ U.properties d, p.2.Everywhere P)
    (hparents : ∀ d i, U.parent? d = some i → ∀ e ∈ i.args, e.2.Everywhere P)
    (hon : ∀ e ∈ on.args, e.2.Everywhere P) {found : Found}
    (h : U.findFrom limit name hops depth on = .ok (some found)) : found.type.Everywhere P := by
  obtain ⟨nodes, top, declared, hroute, hown, hsub, _⟩ := route_of_findFrom_eq_some h
  have hmem := List.mem_of_getElem? (getElem?_of_firstNamed? hown)
  exact everywhere_property hprops hparents hon hroute hmem hsub

theorem everywhere_listFrom (hprops : ∀ d, ∀ p ∈ U.properties d, p.2.Everywhere P)
    (hparents : ∀ d i, U.parent? d = some i → ∀ e ∈ i.args, e.2.Everywhere P)
    (hon : ∀ e ∈ on.args, e.2.Everywhere P) {start : Instance} {seen : List String}
    {ps : List (String × TypeExpr)} (h : U.listFrom limit start hops seen on = .ok ps) :
    ∀ p ∈ ps, p.2.Everywhere P := by
  intro p hp
  obtain ⟨nodes, top, hroute, q, hq, _, hsub⟩ := route_of_mem_listFrom h hp
  exact everywhere_property hprops hparents hon hroute hq hsub

end Everywhere

end Universe

end NominalTypes
