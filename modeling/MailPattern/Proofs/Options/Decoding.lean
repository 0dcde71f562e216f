import Mathlib.Data.List.Induction
import Mathlib.Data.List.Nodup
import MailPattern.Options.Decode

/-!
# Proofs — Options — Decoding

Which records stand for options, for which, and what is wrong with the others
(`Options.decoding`).  A record stands for options if it is sparse: no option is named twice, and
what is named has a value of its type (`Options.Sparse`).  Then the order of its fields does not matter,
nor by which of its names an option is given, nor what has no name of an option at all: the options
depend on `Options.named` alone, and there only up to order.

The fault of any other record does depend on the order.  It is that of the first field that makes the
record cease to be sparse (`Options.Faulty`).
-/

namespace MailPattern

/-! ### Names and values -/

namespace Field

/-- No two options share a name. -/
theorem eq_of_mem_names {f g : Field} {name : String} (hf : name ∈ f.names) (hg : name ∈ g.names) :
    f = g := by
  have hdisjoint : all.all fun f => all.all fun g =>
      f == g || f.names.all fun name => !g.names.contains name := by decide +kernel
  have h := List.all_eq_true.mp (List.all_eq_true.mp hdisjoint f f.mem_all) g g.mem_all
  rcases Bool.or_eq_true_iff.mp h with h | h
  · exact eq_of_beq h
  · have hnot := List.all_eq_true.mp h name hf
    rw [List.contains_iff_mem.mpr hg] at hnot
    cases hnot

theorem mem_names_of_ofName? {f : Field} {name : String} (h : ofName? name = some f) :
    name ∈ f.names := by
  have hcontains := List.find?_some (p := fun f : Field => f.names.contains name) h
  exact List.contains_iff_mem.mp hcontains

/-- A name gives the field that it is a name of, and no other. -/
theorem ofName?_eq_some {f : Field} {name : String} : ofName? name = some f ↔ name ∈ f.names := by
  constructor
  · exact mem_names_of_ofName?
  · intro hf
    have hsome : (ofName? name).isSome = true :=
      List.find?_isSome.mpr ⟨f, f.mem_all, List.contains_iff_mem.mpr hf⟩
    obtain ⟨g, hg⟩ := Option.isSome_iff_exists.mp hsome
    rw [hg, eq_of_mem_names hf (mem_names_of_ofName? hg)]

/-- Any other name gives none. -/
theorem ofName?_eq_none {name : String} : ofName? name = none ↔ ∀ f : Field, name ∉ f.names := by
  rw [Option.eq_none_iff_forall_ne_some]
  exact forall_congr' fun f => not_congr ofName?_eq_some

/-- The document that gives an option this value. -/
def document : (f : Field) → f.Value → Document
  | .topLevelDomains, texts => .list (texts.map .text)
  | .useSafeEngine, b | .exact, b | .strict, b | .gmailRules, b | .allowUtf8Username, b
  | .allowLocalhost, b | .allowIpv4, b | .allowIpv6, b | .returnPatternOnly, b => .bool b

/-- What is wrong with a document that gives an option no value: it is not a truth value, not a list,
or the first item that is no text. -/
inductive Misfit : Field → Document → Fault → Prop where
  | boolean {f : Field} {d : Document} (hf : f ≠ .topLevelDomains) (hd : ∀ b, d ≠ .bool b) :
      Misfit f d (.of d .boolean)
  | sequence {d : Document} (hd : ∀ ds, d ≠ .list ds) : Misfit .topLevelDomains d (.of d .sequence)
  | string (texts : List String) {d : Document} (ds : List Document) (hd : ∀ s, d ≠ .text s) :
      Misfit .topLevelDomains (.list (texts.map .text ++ d :: ds)) (.of d .string)

end Field

namespace Options

open MailPattern.Field

/-- A list of texts is read as these texts. -/
theorem strings_texts (texts : List String) : strings (texts.map .text) = .ok texts := by
  induction texts with
  | nil => rfl
  | cons s texts ih => exact congrArg (Except.map (s :: ·)) ih

/-- The first of a list that is no text is the fault. -/
theorem strings_misfit {d : Document} (hd : ∀ s, d ≠ .text s) (texts : List String)
    (ds : List Document) : strings (texts.map .text ++ d :: ds) = .error (.of d .string) := by
  induction texts with
  | nil =>
    cases d with
    | text s => exact absurd rfl (hd s)
    | _ => rfl
  | cons s texts ih => exact congrArg (Except.map (s :: ·)) ih

/-- A list holds texts only, or there is a first item that is none. -/
theorem texts_or_misfit (ds : List Document) : (∃ texts : List String, ds = texts.map .text) ∨
    ∃ (texts : List String) (d : Document) (rest : List Document),
      (∀ s, d ≠ .text s) ∧ ds = texts.map .text ++ d :: rest := by
  induction ds with
  | nil => exact .inl ⟨[], rfl⟩
  | cons d ds ih =>
    by_cases hd : ∃ s, d = .text s
    · obtain ⟨s, rfl⟩ := hd
      rcases ih with ⟨texts, rfl⟩ | ⟨texts, d, rest, hd, rfl⟩
      · exact .inl ⟨s :: texts, rfl⟩
      · exact .inr ⟨s :: texts, d, rest, hd, rfl⟩
    · exact .inr ⟨[], d, ds, not_exists.mp hd, rfl⟩

/-- The value of a field is read back from its document. -/
theorem valueOf_document (f : Field) (v : f.Value) : valueOf f (f.document v) = .ok v := by
  cases f with
  | topLevelDomains => exact strings_texts v
  | _ => rfl

/-- A document that does not fit is refused for the fault that it has. -/
theorem valueOf_misfit {f : Field} {d : Document} {fault : Fault} (h : f.Misfit d fault) :
    valueOf f d = .error fault := by
  cases h with
  | boolean hf hd =>
    cases f with
    | topLevelDomains => exact absurd rfl hf
    | _ =>
      cases d with
      | bool b => exact absurd rfl (hd b)
      | _ => rfl
  | sequence hd =>
    cases d with
    | list ds => exact absurd rfl (hd ds)
    | _ => rfl
  | string texts ds hd => exact strings_misfit hd texts ds

/-- A document gives an option a value, or is a misfit. -/
theorem document_or_misfit (f : Field) (d : Document) :
    (∃ v, d = f.document v) ∨ ∃ fault, f.Misfit d fault := by
  by_cases hf : f = .topLevelDomains
  · subst hf
    by_cases hd : ∃ ds, d = .list ds
    · obtain ⟨ds, rfl⟩ := hd
      rcases texts_or_misfit ds with ⟨texts, rfl⟩ | ⟨texts, d, rest, hd, rfl⟩
      · exact .inl ⟨texts, rfl⟩
      · exact .inr ⟨_, .string texts rest hd⟩
    · exact .inr ⟨_, .sequence (not_exists.mp hd)⟩
  · by_cases hd : ∃ b, d = .bool b
    · obtain ⟨b, rfl⟩ := hd
      cases f with
      | topLevelDomains => exact absurd rfl hf
      | _ => exact .inl ⟨b, rfl⟩
    · exact .inr ⟨_, .boolean hf (not_exists.mp hd)⟩

end Options

/-- Each value of a field has a document of its own. -/
theorem Field.document_inj {f : Field} {v w : f.Value} (h : f.document v = f.document w) : v = w :=
  Except.ok.inj (((Options.valueOf_document f v).symm.trans (congrArg _ h)).trans
    (Options.valueOf_document f w))

namespace Options

open MailPattern.Field

/-! ### Records -/

/-- No two fields name one option, and what is named has a value of its type. -/
structure Sparse (fields : List (String × Document)) : Prop where
  once : fields.Pairwise fun x y => ∀ f : Field, ¬(x.1 ∈ f.names ∧ y.1 ∈ f.names)
  typed : ∀ x ∈ fields, ∀ f : Field, x.1 ∈ f.names → ∃ v, x.2 = f.document v

/-- The first field that makes a record cease to be sparse, and its fault: it names an option a second
time, or it is a misfit. -/
def Faulty (fields : List (String × Document)) (fault : Fault) : Prop :=
  ∃ before name d after, ∃ f : Field, fields = before ++ (name, d) :: after ∧ Sparse before ∧
    name ∈ f.names ∧
    ((∃ x ∈ before, x.1 ∈ f.names) ∧ fault = .duplicate f ∨
      (∀ x ∈ before, x.1 ∉ f.names) ∧ f.Misfit d fault)

/-- The options that are named, each with its document. -/
def named (fields : List (String × Document)) : List (Field × Document) :=
  fields.filterMap fun x => (ofName? x.1).map (·, x.2)

variable {fields fields' : List (String × Document)} {fault : Fault}

namespace Sparse

theorem nil : Sparse [] := ⟨.nil, nofun⟩

/-- One more entry keeps fields sparse if it repeats none and fits its field, if it has one. -/
theorem append_singleton {x : String × Document} : Sparse (fields ++ [x]) ↔ Sparse fields ∧
    ∀ f : Field, x.1 ∈ f.names → (∀ y ∈ fields, y.1 ∉ f.names) ∧ ∃ v, x.2 = f.document v := by
  constructor
  · intro h
    have honce := List.pairwise_append.mp h.once
    refine ⟨⟨honce.1, fun y hy => h.typed y (List.mem_append_left _ hy)⟩, fun f hf => ⟨?_, ?_⟩⟩
    · exact fun y hy hyf => honce.2.2 y hy x (List.mem_singleton_self x) f ⟨hyf, hf⟩
    · exact h.typed x (List.mem_append_right _ (List.mem_singleton_self x)) f hf
  · rintro ⟨h, hx⟩
    refine ⟨List.pairwise_append.mpr ⟨h.once, List.pairwise_singleton .., ?_⟩, fun y hy => ?_⟩
    · rintro y hy z hz f ⟨hyf, hzf⟩
      obtain rfl := List.mem_singleton.mp hz
      exact (hx f hzf).1 y hy hyf
    · rcases List.mem_append.mp hy with hy | hy
      · exact h.typed y hy
      · obtain rfl := List.mem_singleton.mp hy
        exact fun f hf => (hx f hf).2

/-- What comes first in sparse fields is sparse. -/
theorem of_append (h : Sparse (fields ++ fields')) : Sparse fields :=
  ⟨(List.pairwise_append.mp h.once).1, fun x hx => h.typed x (List.mem_append_left _ hx)⟩

end Sparse

/-- A faulty record is not sparse. -/
theorem Faulty.not_sparse (h : Faulty fields fault) : ¬ Sparse fields := by
  obtain ⟨before, name, d, after, f, rfl, -, hname, hfault⟩ := h
  intro hs
  rw [List.append_cons] at hs
  obtain ⟨hbefore, v, hv⟩ := (Sparse.append_singleton.mp hs.of_append).2 f hname
  rcases hfault with ⟨⟨x, hx, hxf⟩, -⟩ | ⟨-, hmisfit⟩
  · exact hbefore x hx hxf
  · obtain rfl : d = f.document v := hv
    cases (valueOf_document f v).symm.trans (valueOf_misfit hmisfit)

/-- The first fault stays first, whatever follows. -/
theorem Faulty.append (h : Faulty fields fault) (rest : List (String × Document)) :
    Faulty (fields ++ rest) fault := by
  obtain ⟨before, name, d, after, f, rfl, h⟩ := h
  exact ⟨before, name, d, after ++ rest, f, List.append_assoc .., h⟩

/-- The fields are sparse, and these are the values that they give. -/
structure Gathered (fields : List (String × Document)) (o : Overrides) : Prop where
  sparse : Sparse fields
  value : ∀ (f : Field) (v : f.Value), o f = some v ↔ ∃ name ∈ f.names, (name, f.document v) ∈ fields

namespace Gathered

variable {o : Overrides} {name : String} {f : Field}

theorem nil : Gathered [] .empty := ⟨.nil, fun _ _ => ⟨nofun, fun ⟨_, _, h⟩ => by cases h⟩⟩

/-- A field has a value exactly if one of its names is given. -/
theorem isSome (h : Gathered fields o) : (o f).isSome = true ↔ ∃ x ∈ fields, x.1 ∈ f.names := by
  rw [Option.isSome_iff_exists]
  constructor
  · rintro ⟨v, hv⟩
    obtain ⟨name, hname, hmem⟩ := (h.value f v).mp hv
    exact ⟨_, hmem, hname⟩
  · rintro ⟨⟨name, d⟩, hmem, hname⟩
    obtain ⟨v, rfl⟩ := h.sparse.typed _ hmem f hname
    exact ⟨v, (h.value f v).mpr ⟨name, hname, hmem⟩⟩

/-- A field that names no option changes nothing. -/
theorem unknown (h : Gathered fields o) {x : String × Document} (hx : ∀ f : Field, x.1 ∉ f.names) :
    Gathered (fields ++ [x]) o := by
  refine ⟨Sparse.append_singleton.mpr ⟨h.sparse, fun f hf => absurd hf (hx f)⟩, fun g v => ?_⟩
  rw [h.value g v]
  refine exists_congr fun name => and_congr_right fun hname => ?_
  rw [List.mem_append, List.mem_singleton, or_iff_left]
  rintro rfl
  exact hx g hname

/-- A field that names an option for the first time gives it its value. -/
theorem set (h : Gathered fields o) (hname : name ∈ f.names) (hf : ∀ x ∈ fields, x.1 ∉ f.names)
    (v : f.Value) : Gathered (fields ++ [(name, f.document v)]) (o.set f v) := by
  refine ⟨Sparse.append_singleton.mpr ⟨h.sparse, fun g hg => ?_⟩, fun g w => ?_⟩
  · obtain rfl := eq_of_mem_names hname hg
    exact ⟨hf, v, rfl⟩
  · by_cases hgf : g = f
    · subst hgf
      rw [Overrides.set_self, Option.some.injEq]
      constructor
      · rintro rfl
        exact ⟨name, hname, List.mem_append_right _ (List.mem_singleton_self _)⟩
      · rintro ⟨name', hname', hmem⟩
        rcases List.mem_append.mp hmem with hmem | hmem
        · exact absurd hname' (hf _ hmem)
        · exact (document_inj (Prod.ext_iff.mp (List.mem_singleton.mp hmem)).2).symm
    · rw [Overrides.set_of_ne _ hgf, h.value g w]
      refine exists_congr fun name' => and_congr_right fun hname' => ?_
      rw [List.mem_append, List.mem_singleton, or_iff_left]
      intro heq
      obtain rfl := (Prod.ext_iff.mp heq).1
      exact hgf (eq_of_mem_names hname' hname)

end Gathered

/-! ### Taking one field after the other -/

/-- Fields are read from the front, the rest after what comes first. -/
theorem ofRecord_append (o : Overrides) (fields rest : List (String × Document)) :
    ofRecord o (fields ++ rest) = (ofRecord o fields).bind (ofRecord · rest) := by
  fun_induction ofRecord o fields with
  | case1 o => rfl
  | case2 o name d fields hnone ih => rw [List.cons_append, ofRecord, hnone, ← ih]
  | case3 o name d fields f hf hsome =>
    rw [List.cons_append, ofRecord, hf]
    simp only [hsome, if_true, Except.bind]
  | case4 o name d fields f hf hsome fault hfault =>
    rw [List.cons_append, ofRecord, hf]
    simp only [hsome, Bool.false_eq_true, if_false, hfault, Except.bind]
  | case5 o name d fields f hf hsome v hv ih =>
    rw [List.cons_append, ofRecord, hf]
    simp only [hsome, Bool.false_eq_true, if_false, hv, ih]

/-- What one field does that names no option. -/
theorem ofRecord_unknown {x : String × Document} (hx : ∀ f : Field, x.1 ∉ f.names) (o : Overrides) :
    ofRecord o [x] = .ok o := by
  obtain ⟨name, d⟩ := x
  rw [ofRecord, ofName?_eq_none.mpr hx, ofRecord]

/-- What one field does that names an option. -/
theorem ofRecord_named {name : String} {f : Field} (hname : name ∈ f.names) (o : Overrides)
    (d : Document) : ofRecord o [(name, d)] =
      if (o f).isSome = true then .error (.duplicate f) else (valueOf f d).map (o.set f) := by
  rw [ofRecord, ofName?_eq_some.mpr hname]
  dsimp only
  cases valueOf f d <;> rfl

/-- **A record gives the values of its fields, or it is faulty.** -/
theorem ofRecord_cases (fields : List (String × Document)) :
    (∃ o, ofRecord .empty fields = .ok o ∧ Gathered fields o) ∨
      ∃ fault, ofRecord .empty fields = .error fault ∧ Faulty fields fault := by
  induction fields using List.reverseRecOn with
  | nil => exact .inl ⟨_, rfl, .nil⟩
  | append_singleton fields x ih =>
    rw [ofRecord_append]
    rcases ih with ⟨o, ho, hgathered⟩ | ⟨fault, hfault, hfaulty⟩
    · rw [ho]
      show (∃ o', ofRecord o [x] = .ok o' ∧ _) ∨ ∃ fault, ofRecord o [x] = .error fault ∧ _
      by_cases hx : ∃ f : Field, x.1 ∈ f.names
      · obtain ⟨name, d⟩ := x
        obtain ⟨f, hname⟩ := hx
        rw [ofRecord_named hname]
        by_cases hsome : (o f).isSome = true
        · refine .inr ⟨_, if_pos hsome, fields, name, d, [], f, rfl, hgathered.sparse, hname, .inl ?_⟩
          exact ⟨hgathered.isSome.mp hsome, rfl⟩
        · have hfirst : ∀ x ∈ fields, x.1 ∉ f.names := fun x hx hxf =>
            hsome (hgathered.isSome.mpr ⟨x, hx, hxf⟩)
          rw [if_neg hsome]
          rcases document_or_misfit f d with ⟨v, rfl⟩ | ⟨fault, hmisfit⟩
          · rw [valueOf_document]
            exact .inl ⟨_, rfl, hgathered.set hname hfirst v⟩
          · rw [valueOf_misfit hmisfit]
            exact .inr ⟨fault, rfl, fields, name, d, [], f, rfl, hgathered.sparse, hname,
              .inr ⟨hfirst, hmisfit⟩⟩
      · rw [not_exists] at hx
        exact .inl ⟨o, ofRecord_unknown hx o, hgathered.unknown hx⟩
    · rw [hfault]
      exact .inr ⟨fault, rfl, hfaulty.append [x]⟩

/-- Sparse fields are read, and all that they give is gathered. -/
theorem Sparse.ofRecord (h : Sparse fields) :
    ∃ o, Options.ofRecord .empty fields = .ok o ∧ Gathered fields o :=
  (ofRecord_cases fields).resolve_right fun ⟨_, _, hfaulty⟩ => hfaulty.not_sparse h

/-- Reading goes wrong at the first fault. -/
theorem ofRecord_eq_error : ofRecord .empty fields = .error fault ↔ Faulty fields fault := by
  constructor
  · intro h
    rcases ofRecord_cases fields with ⟨o, ho, -⟩ | ⟨fault', hfault, hfaulty⟩
    · cases ho.symm.trans h
    · rwa [← Except.error.inj (hfault.symm.trans h)]
  · rintro ⟨before, name, d, after, f, rfl, hbefore, hname, hfault⟩
    obtain ⟨o, ho, hgathered⟩ := hbefore.ofRecord
    rw [List.append_cons, ofRecord_append, ofRecord_append, ho]
    show ((Options.ofRecord o [(name, d)]).bind _) = _
    rw [ofRecord_named hname]
    rcases hfault with ⟨hagain, rfl⟩ | ⟨hfirst, hmisfit⟩
    · rw [if_pos (hgathered.isSome.mpr hagain)]
      rfl
    · rw [if_neg fun hsome => ?_, valueOf_misfit hmisfit]
      · rfl
      · obtain ⟨x, hx, hxf⟩ := hgathered.isSome.mp hsome
        exact hfirst x hx hxf

/-! ### Options -/

/-- Every option has the value that the fields give it, and its default if none does. -/
def Agrees (o : Options) (fields : List (String × Document)) : Prop :=
  ∀ f : Field, (∀ x ∈ fields, x.1 ∈ f.names → x.2 = f.document (f.get o)) ∧
    ((∀ x ∈ fields, x.1 ∉ f.names) → f.get o = f.get {})

/-- Two options are the same if the fields agree with both. -/
theorem Agrees.unique {o o' : Options} (h : o.Agrees fields) (h' : o'.Agrees fields) : o = o' := by
  rw [← ofFields_get o, ← ofFields_get o']
  refine congrArg ofFields (funext fun f => ?_)
  by_cases hf : ∃ x ∈ fields, x.1 ∈ f.names
  · obtain ⟨x, hx, hxf⟩ := hf
    exact document_inj (((h f).1 x hx hxf).symm.trans ((h' f).1 x hx hxf))
  · have hnot : ∀ x ∈ fields, x.1 ∉ f.names := fun x hx hxf => hf ⟨x, hx, hxf⟩
    rw [(h f).2 hnot, (h' f).2 hnot]

/-- Options with what was gathered agree with the fields. -/
theorem Gathered.agrees {o : Overrides} (h : Gathered fields o) : o.apply.Agrees fields := by
  intro f
  rw [Overrides.get_apply]
  refine ⟨fun x hx hxf => ?_, fun hnot => ?_⟩
  · obtain ⟨name, d⟩ := x
    obtain ⟨v, rfl⟩ := h.sparse.typed _ hx f hxf
    rw [(h.value f v).mpr ⟨name, hxf, hx⟩]
    rfl
  · have hnone : (o f).isSome ≠ true := fun hsome => by
      obtain ⟨x, hx, hxf⟩ := h.isSome.mp hsome
      exact hnot x hx hxf
    rw [Option.not_isSome_iff_eq_none.mp hnone]
    rfl

/-- **Options are read exactly from sparse fields, and agree with them.** -/
theorem ofDocument_eq_ok {o : Options} :
    ofDocument (.record fields) = .ok o ↔ Sparse fields ∧ o.Agrees fields := by
  constructor
  · intro h
    rcases ofRecord_cases fields with ⟨ov, hov, hgathered⟩ | ⟨fault, hfault, -⟩
    · rw [ofDocument, overridesOf, hov] at h
      cases h
      exact ⟨hgathered.sparse, hgathered.agrees⟩
    · rw [ofDocument, overridesOf, hfault] at h
      cases h
  · rintro ⟨hs, ho⟩
    obtain ⟨ov, hov, hgathered⟩ := hs.ofRecord
    rw [ofDocument, overridesOf, hov, ho.unique hgathered.agrees]
    rfl

/-- **A record is refused for its first fault.** -/
theorem ofDocument_eq_error :
    ofDocument (.record fields) = .error fault ↔ Faulty fields fault := by
  rw [← ofRecord_eq_error, ofDocument, overridesOf]
  cases ofRecord .empty fields <;> simp [Except.map]

/-! ### What is named -/

/-- The named fields are the entries that are under a name of a field. -/
theorem mem_named {f : Field} {d : Document} :
    (f, d) ∈ named fields ↔ ∃ name ∈ f.names, (name, d) ∈ fields := by
  constructor
  · intro h
    obtain ⟨⟨name, d'⟩, hmem, hfield⟩ := List.mem_filterMap.mp h
    obtain ⟨f', hf', heq⟩ := Option.map_eq_some_iff.mp hfield
    cases heq
    exact ⟨name, ofName?_eq_some.mp hf', hmem⟩
  · rintro ⟨name, hname, hmem⟩
    refine List.mem_filterMap.mpr ⟨_, hmem, ?_⟩
    rw [ofName?_eq_some.mpr hname]
    rfl

/-- Fields are sparse if the named ones are each given once and fit. -/
theorem sparse_iff_named : Sparse fields ↔
    ((named fields).map Prod.fst).Nodup ∧ ∀ f d, (f, d) ∈ named fields → ∃ v, d = f.document v := by
  have honce : ((named fields).map Prod.fst).Nodup ↔
      fields.Pairwise fun x y => ∀ f : Field, ¬(x.1 ∈ f.names ∧ y.1 ∈ f.names) := by
    rw [List.Nodup, named, List.map_filterMap, List.pairwise_filterMap]
    refine List.Pairwise.iff fun x y => ?_
    simp only [Option.map_eq_some_iff, ofName?_eq_some, Option.map_map, Function.comp_def,
      exists_eq_right, not_and]
    constructor
    · exact fun h f hx hy => h f hx f hy rfl
    · rintro h f hx g hy rfl
      exact h f hx hy
  have htyped : (∀ f d, (f, d) ∈ named fields → ∃ v, d = f.document v) ↔
      ∀ x ∈ fields, ∀ f : Field, x.1 ∈ f.names → ∃ v, x.2 = f.document v := by
    constructor
    · exact fun h x hx f hf => h f x.2 (mem_named.mpr ⟨x.1, hf, hx⟩)
    · intro h f d hmem
      obtain ⟨name, hname, hmem⟩ := mem_named.mp hmem
      exact h _ hmem f hname
  rw [honce, htyped]
  exact ⟨fun h => ⟨h.once, h.typed⟩, fun h => ⟨h.1, h.2⟩⟩

/-- Options agree with fields if they agree with the named ones. -/
theorem agrees_iff_named {o : Options} : o.Agrees fields ↔
    ∀ f : Field, (∀ d, (f, d) ∈ named fields → d = f.document (f.get o)) ∧
      ((∀ d, (f, d) ∉ named fields) → f.get o = f.get {}) := by
  simp only [mem_named, Agrees]
  refine forall_congr' fun f => and_congr ⟨?_, ?_⟩ (imp_congr_left ⟨?_, ?_⟩)
  · rintro h d ⟨name, hname, hmem⟩
    exact h _ hmem hname
  · exact fun h x hx hxf => h x.2 ⟨x.1, hxf, hx⟩
  · rintro h d ⟨name, hname, hmem⟩
    exact h _ hmem hname
  · exact fun h x hx hxf => h x.2 ⟨x.1, hxf, hx⟩

/-- Only what is named matters, and not in which order. -/
theorem ofDocument_eq_ok_of_perm (h : (named fields).Perm (named fields')) {o : Options} :
    ofDocument (.record fields) = .ok o ↔ ofDocument (.record fields') = .ok o := by
  rw [ofDocument_eq_ok, ofDocument_eq_ok, sparse_iff_named, sparse_iff_named, agrees_iff_named,
    agrees_iff_named, (h.map Prod.fst).nodup_iff]
  simp only [h.mem_iff]

/-- **A record stands for options exactly if it is sparse**: for those with the values that it gives and
the defaults of all others, whatever its order, the names used, and what else is in it.  Any other
record has the fault of the first field that makes it cease to be sparse. -/
theorem decoding (fields : List (String × Document)) :
    ((∃ o, ofDocument (.record fields) = .ok o) ↔ Sparse fields) ∧
    (∀ o, ofDocument (.record fields) = .ok o ↔ Sparse fields ∧ o.Agrees fields) ∧
    (∀ fields', (named fields).Perm (named fields') →
      ∀ o, ofDocument (.record fields) = .ok o ↔ ofDocument (.record fields') = .ok o) ∧
    ∀ fault, ofDocument (.record fields) = .error fault ↔ Faulty fields fault := by
  refine ⟨⟨fun ⟨o, ho⟩ => (ofDocument_eq_ok.mp ho).1, fun h => ?_⟩, fun o => ofDocument_eq_ok,
    fun fields' h o => ofDocument_eq_ok_of_perm h, fun fault => ofDocument_eq_error⟩
  obtain ⟨ov, -, hgathered⟩ := h.ofRecord
  exact ⟨ov.apply, ofDocument_eq_ok.mpr ⟨h, hgathered.agrees⟩⟩

end Options

end MailPattern
