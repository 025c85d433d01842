import NominalTypes.Proofs.Equality
import NominalTypes.TypeExpr.Display

/-!
# Canonical names

A canonical name is written without escapes, and can still be read in one way only, as long as the
marks `<`, `>`, `,`, `=` and `?` stand in no name and the dot in no name but those of packages.

* `TypeExpr.Readable`: names that keep to this, and no function types;
* `append_inj_of_stop`: a word ends where the first character stands that is no part of it;
* `TypeExpr.readsBack`: what is written at the start of a longer text settles the type, and where it
  ends;
* `Instance.sameAs_of_canonicalName`: so the canonical name settles the type.
-/

namespace NominalTypes

/-- The characters that separate the parts of a canonical name. -/
def isMark (c : Char) : Bool := c == '<' || c == '>' || c == ',' || c == '=' || c == '?'

def Unmarked (text : String) : Prop := ∀ c ∈ text.toList, isMark c = false

instance (text : String) : Decidable (Unmarked text) :=
  List.decidableBAll (fun c => isMark c = false) text.toList

/-- Text that can be the name of a definition, a parameter or a variable. -/
def Undotted (text : String) : Prop := Unmarked text ∧ '.' ∉ text.toList

instance (text : String) : Decidable (Undotted text) :=
  inferInstanceAs (Decidable (Unmarked text ∧ '.' ∉ text.toList))

namespace TypeExpr

mutual

/-- No function types and no marks in names, with dots in packages only.  Bounds of variables are not
written, and may be anything. -/
def Readable : TypeExpr → Prop
  | inst d args _ => Unmarked d.package ∧ Undotted d.name ∧ ReadableEach args
  | var name _ _ => Undotted name
  | fn _ _ => False

def ReadableEach : List (String × TypeExpr) → Prop
  | [] => True
  | (name, t) :: rest => Undotted name ∧ t.Readable ∧ ReadableEach rest

end

end TypeExpr

/-! ## Words -/

theorem append_inj_of_stop {p : Char → Bool} {w w' r r' : List Char} (hw : ∀ c ∈ w, p c = true)
    (hw' : ∀ c ∈ w', p c = true) (hr : ∀ c ∈ r.head?, p c = false)
    (hr' : ∀ c ∈ r'.head?, p c = false) (h : w ++ r = w' ++ r') : w = w' ∧ r = r' := by
  have htake {w r : List Char} (hw : ∀ c ∈ w, p c = true) (hr : ∀ c ∈ r.head?, p c = false) :
      (w ++ r).takeWhile p = w := by
    rw [List.takeWhile_append_of_pos hw]
    cases r with
    | nil => simp
    | cons c r => simp [hr c rfl]
  have hword : w = w' := by rw [← htake hw hr, h, htake hw' hr']
  subst hword
  exact ⟨rfl, List.append_cancel_left h⟩

/-- The last dot is the one before the name. -/
theorem QualifiedName.text_inj {q q' : QualifiedName} (hn : '.' ∉ q.name.toList)
    (hn' : '.' ∉ q'.name.toList) (h : q.text = q'.text) : q = q' := by
  have hword {s : String} (hs : '.' ∉ s.toList) : ∀ c ∈ s.toList.reverse, (c != '.') = true := by
    intro c hc
    have hc : c ∈ s.toList := List.mem_reverse.mp hc
    simpa using fun heq : c = '.' => hs (heq ▸ hc)
  have hdot (l : List Char) : ∀ c ∈ ('.' :: l).head?, (c != '.') = false := by simp
  have htext : q.name.toList.reverse ++ '.' :: q.package.toList.reverse =
      q'.name.toList.reverse ++ '.' :: q'.package.toList.reverse := by
    have hreverse := congrArg (fun s => s.toList.reverse) h
    simpa [QualifiedName.text] using hreverse
  obtain ⟨hname, hrest⟩ := append_inj_of_stop (hword hn) (hword hn') (hdot _) (hdot _) htext
  have hname := String.toList_inj.mp (List.reverse_injective hname)
  have hpackage := String.toList_inj.mp (List.reverse_injective (List.cons.inj hrest).2)
  cases q
  cases q'
  simp_all

theorem QualifiedName.dot_mem_text (q : QualifiedName) : '.' ∈ q.text.toList := by
  simp [QualifiedName.text]

theorem QualifiedName.unmarked_text {q : QualifiedName} (hp : Unmarked q.package)
    (hn : Unmarked q.name) : Unmarked q.text := by
  intro c hc
  simp only [QualifiedName.text, String.toList_append, List.mem_append] at hc
  rcases hc with (hc | hc) | hc
  · exact hp c hc
  · obtain rfl : c = '.' := by simpa using hc
    rfl
  · exact hn c hc

/-! ## What follows -/

/-- What can follow a type: nothing, the next argument or the end of the arguments. -/
def AtEnd (rest : List Char) : Prop := ∀ c ∈ rest.head?, c = ',' ∨ c = '>'

/-- What can follow a name. -/
def AtMark (rest : List Char) : Prop := ∀ c ∈ rest.head?, (!isMark c) = false

theorem AtEnd.atMark {r : List Char} (hr : AtEnd r) : AtMark r := by
  intro c hc
  rcases hr c hc with rfl | rfl <;> rfl

theorem AtEnd.nullMark_append {r : List Char} (hr : AtEnd r) (n : Bool) :
    AtMark ((nullMark n).toList ++ r) := by
  cases n with
  | false => exact hr.atMark
  | true => simp [AtMark, nullMark, isMark]

theorem AtEnd.nullMark_inj {n m : Bool} {r r' : List Char} (hr : AtEnd r) (hr' : AtEnd r')
    (h : (nullMark n).toList ++ r = (nullMark m).toList ++ r') : n = m ∧ r = r' := by
  have hne {l : List Char} (hl : AtEnd ('?' :: l)) : False := by
    rcases hl '?' rfl with h | h <;> cases h
  cases n <;> cases m <;> simp [nullMark] at h
  · exact ⟨rfl, h⟩
  · exact (hne (h ▸ hr)).elim
  · exact (hne (h ▸ hr')).elim
  · exact ⟨rfl, h⟩

theorem AtEnd.not_opening {r : List Char} (hr : AtEnd r) (n : Bool) :
    '<' ∉ ((nullMark n).toList ++ r).head? := by
  cases n with
  | false =>
    intro hmem
    rcases hr '<' hmem with h | h <;> cases h
  | true => simp [nullMark]

theorem Unmarked.append_inj {s s' : String} {r r' : List Char} (hs : Unmarked s) (hs' : Unmarked s')
    (hr : AtMark r) (hr' : AtMark r') (h : s.toList ++ r = s'.toList ++ r') : s = s' ∧ r = r' := by
  have hword {s : String} (hs : Unmarked s) : ∀ c ∈ s.toList, (!isMark c) = true := by
    intro c hc
    rw [hs c hc]
    rfl
  obtain ⟨hword, hrest⟩ := append_inj_of_stop (hword hs) (hword hs') hr hr' h
  exact ⟨String.toList_inj.mp hword, hrest⟩

namespace TypeExpr

/-! ## Arguments -/

/-- Arguments as they are written, with the character in front of them. -/
def argsText : Char → List (String × TypeExpr) → List Char
  | _, [] => ['>']
  | c, (x, t) :: rest => c :: (x.toList ++ '=' :: (t.canonical.toList ++ argsText ',' rest))

theorem toList_angled {args : List (String × TypeExpr)} (hne : args ≠ []) :
    (angled (canonicalEach args)).toList = argsText '<' args := by
  have hlist (x : String) (t : TypeExpr) (rest : List (String × TypeExpr)) :
      [','].intercalate ((canonicalEach ((x, t) :: rest)).map String.toList) ++ ['>'] =
        x.toList ++ '=' :: (t.canonical.toList ++ argsText ',' rest) := by
    induction rest generalizing x t with
    | nil => simp [canonicalEach, argsText]
    | cons e rest ih =>
      have ih := ih e.1 e.2
      rw [canonicalEach, List.map_cons] at ih ⊢
      rw [canonicalEach, List.map_cons, List.intercalate_cons_cons, List.append_assoc, ih, argsText]
      simp
  cases args with
  | nil => exact absurd rfl hne
  | cons e rest =>
    rw [argsText, ← hlist, angled, canonicalEach, List.isEmpty_cons, if_neg Bool.false_ne_true,
      String.toList_append, String.toList_append, String.toList_intercalate]
    rfl

theorem atEnd_argsText (args : List (String × TypeExpr)) (r : List Char) :
    AtEnd (argsText ',' args ++ r) := by
  cases args <;> simp [AtEnd, argsText]

/-- Where the type is written at the start of a longer text, no other type is. -/
def ReadsBack (t : TypeExpr) : Prop :=
  ∀ (u : TypeExpr) (r r' : List Char), u.Readable → u.Distinct → AtEnd r → AtEnd r' →
    t.canonical.toList ++ r = u.canonical.toList ++ r' → t.sameAs u = true ∧ r = r'

theorem argsText_inj {as bs : List (String × TypeExpr)} {c : Char} {r r' : List Char}
    (has : ReadableEach as) (hbs : ReadableEach bs) (hd : ∀ f ∈ bs, f.2.Distinct)
    (ih : ∀ e ∈ as, e.2.Readable → e.2.ReadsBack) (hc : c ≠ '>')
    (h : argsText c as ++ r = argsText c bs ++ r') : SameEntries as bs ∧ r = r' := by
  induction as generalizing bs c with
  | nil =>
    cases bs with
    | nil => exact ⟨.nil, List.append_cancel_left h⟩
    | cons f bs =>
      have hclosing := (List.cons.inj h).1
      exact absurd hclosing.symm hc
  | cons e as ihas =>
    cases bs with
    | nil =>
      have hclosing := (List.cons.inj h).1
      exact absurd hclosing hc
    | cons f bs =>
      obtain ⟨hname, he, has⟩ := has
      obtain ⟨hname', hf, hbs⟩ := hbs
      obtain ⟨hdf, hdbs⟩ := List.forall_mem_cons.mp hd
      obtain ⟨ihe, ihrest⟩ := List.forall_mem_cons.mp ih
      simp only [argsText, List.append_assoc, List.cons_append] at h
      have hafter := (List.cons.inj h).2
      obtain ⟨hx, hafter⟩ := hname.1.append_inj hname'.1 (by simp [AtMark, isMark])
        (by simp [AtMark, isMark]) hafter
      obtain ⟨hsame, hafter⟩ := ihe he f.2 _ _ hf hdf (atEnd_argsText as r) (atEnd_argsText bs r')
        (List.cons.inj hafter).2
      obtain ⟨hentries, hr⟩ := ihas has hbs hdbs ihrest (by decide) hafter
      exact ⟨.cons ⟨hx.symm, hsame⟩ hentries, hr⟩

/-! ## Types -/

theorem toList_canonical_inst (d : Definition) (args : List (String × TypeExpr)) (n : Bool)
    (r : List Char) : (inst d args n).canonical.toList ++ r =
      d.qualified.text.toList ++
        ((angled (canonicalEach args)).toList ++ ((nullMark n).toList ++ r)) := by
  simp [canonical]

theorem toList_canonical_var (x : String) (b : Option TypeExpr) (n : Bool) (r : List Char) :
    (var x b n).canonical.toList ++ r = x.toList ++ ((nullMark n).toList ++ r) := by
  simp [canonical, display]

theorem angled_append_inj {as bs : List (String × TypeExpr)} {s s' : List Char}
    (has : ReadableEach as) (hbs : ReadableEach bs) (hd : ∀ f ∈ bs, f.2.Distinct)
    (ih : ∀ e ∈ as, e.2.Readable → e.2.ReadsBack) (hs : '<' ∉ s.head?) (hs' : '<' ∉ s'.head?)
    (h : (angled (canonicalEach as)).toList ++ s = (angled (canonicalEach bs)).toList ++ s') :
    SameEntries as bs ∧ s = s' := by
  cases as with
  | nil =>
    cases bs with
    | nil => exact ⟨.nil, h⟩
    | cons f bs =>
      rw [toList_angled (List.cons_ne_nil f bs)] at h
      refine absurd ?_ hs
      rw [show s = _ from h]
      exact rfl
  | cons e as =>
    rw [toList_angled (List.cons_ne_nil e as)] at h
    cases bs with
    | nil =>
      refine absurd ?_ hs'
      rw [show s' = _ from h.symm]
      exact rfl
    | cons f bs =>
      rw [toList_angled (List.cons_ne_nil f bs)] at h
      exact argsText_inj has hbs hd ih (by decide) h

theorem atMark_angled (args : List (String × TypeExpr)) {s : List Char} (hs : AtMark s) :
    AtMark ((angled (canonicalEach args)).toList ++ s) := by
  cases args with
  | nil => exact hs
  | cons e args =>
    rw [toList_angled (List.cons_ne_nil e args)]
    simp [AtMark, argsText, isMark]

/-- By induction outside bounds: the first word is the qualified name of a definition or the name of
a variable, and only the former has a dot; what comes after it settles the arguments and the
nullability. -/
theorem readsBack {t : TypeExpr} (ht : t.Readable) : t.ReadsBack := by
  induction t using inductOutsideBounds with
  | inst d as n ih =>
    obtain ⟨hpackage, hname, has⟩ := ht
    intro u r r' hu hd hr hr' h
    have hword := QualifiedName.unmarked_text hpackage hname.1
    have hafter := atMark_angled as (hr.nullMark_append n)
    rw [toList_canonical_inst] at h
    cases u with
    | inst e bs m =>
      obtain ⟨hpackage', hname', hbs⟩ := hu
      obtain ⟨hnames, hdbs⟩ := everywhere_inst.mp hd
      have hword' := QualifiedName.unmarked_text hpackage' hname'.1
      have hafter' := atMark_angled bs (hr'.nullMark_append m)
      rw [toList_canonical_inst] at h
      obtain ⟨htext, h⟩ := hword.append_inj hword' hafter hafter' h
      obtain ⟨hargs, h⟩ := angled_append_inj has hbs hdbs ih (hr.not_opening n) (hr'.not_opening m) h
      obtain ⟨rfl, rfl⟩ := hr.nullMark_inj hr' h
      have hsame := Definition.sameAs_iff.mpr (QualifiedName.text_inj hname.2 hname'.2 htext)
      exact ⟨sameAs_inst_iff.mpr ⟨rfl, hsame, hargs.sameAs hnames⟩, rfl⟩
    | var y b m =>
      rw [toList_canonical_var] at h
      obtain ⟨htext, _⟩ := hword.append_inj hu.1 hafter (hr'.nullMark_append m) h
      exact absurd (htext ▸ d.qualified.dot_mem_text) hu.2
    | fn qs s => exact hu.elim
  | var x b n =>
    intro u r r' hu hd hr hr' h
    rw [toList_canonical_var] at h
    cases u with
    | inst e bs m =>
      obtain ⟨hpackage', hname', hbs⟩ := hu
      have hword' := QualifiedName.unmarked_text hpackage' hname'.1
      rw [toList_canonical_inst] at h
      obtain ⟨htext, _⟩ := ht.1.append_inj hword' (hr.nullMark_append n)
        (atMark_angled bs (hr'.nullMark_append m)) h
      exact absurd (htext ▸ e.qualified.dot_mem_text) ht.2
    | var y c m =>
      rw [toList_canonical_var] at h
      obtain ⟨hname, hafter⟩ :=
        ht.1.append_inj hu.1 (hr.nullMark_append n) (hr'.nullMark_append m) h
      obtain ⟨hnull, hrest⟩ := hr.nullMark_inj hr' hafter
      exact ⟨by simp [sameAs, hname, hnull], hrest⟩
    | fn qs s => exact hu.elim
  | fn ps q _ _ => exact ht.elim

end TypeExpr

/-- Of types with readable names and without function types in their arguments, those with one
canonical name are equal.  That no argument list binds a parameter twice is true of all types that
can be made. -/
theorem Instance.sameAs_of_canonicalName {a b : Instance} (ha : a.toExpr.Readable)
    (hb : b.toExpr.Readable) (hd : b.toExpr.Distinct) (h : a.canonicalName = b.canonicalName) :
    a.sameAs b = true := by
  have hend : AtEnd [] := nofun
  have htext : a.toExpr.canonical.toList ++ [] = b.toExpr.canonical.toList ++ [] := by
    rw [← Instance.canonicalName, h, Instance.canonicalName]
  exact (TypeExpr.readsBack ha b.toExpr [] [] hb hd hend hend htext).1

namespace Atlas

def box (args : Bindings) : TypeExpr := .inst ⟨0, ⟨"", "Box"⟩, .classKind⟩ args true

/-- A map to boxes of a variable without a name. -/
def index (bound : Option TypeExpr) : Instance where
  definition := ⟨1, ⟨"p.q", "Map"⟩, .classKind⟩
  args := [("K", .var "T" none true), ("V", box [("E", .var "" bound true)])]
  nullable := true

theorem index_readable (bound : Option TypeExpr) : (index bound).toExpr.Readable := by
  have hmap : Unmarked "p.q" ∧ Undotted "Map" := by decide
  have hbox : Unmarked "" ∧ Undotted "Box" := by decide
  have hnames : Undotted "K" ∧ Undotted "V" ∧ Undotted "E" ∧ Undotted "T" ∧ Undotted "" := by
    decide
  obtain ⟨hk, hv, he, ht, hempty⟩ := hnames
  exact ⟨hmap.1, hmap.2, hk, ht, hv, ⟨hbox.1, hbox.2, he, hempty, trivial⟩, trivial⟩

theorem index_read :
    (index none).canonicalName = "p.q.Map<K=T?,V=.Box<E=?>?>?" ∧
      (index none).canonicalName = (index (some (box []))).canonicalName ∧
      (index none).sameAs (index (some (box []))) = true := by
  have htext : (index none).canonicalName = (index (some (box []))).canonicalName := rfl
  have hdistinct : (index (some (box []))).toExpr.Distinct := by
    unfold TypeExpr.Distinct
    decide
  refine ⟨by cbv, htext, ?_⟩
  exact Instance.sameAs_of_canonicalName (index_readable none) (index_readable _) hdistinct htext

end Atlas

end NominalTypes
