import MailPattern.Proofs.Options.Decoding

/-!
# Proofs — Options — Merging

There are several ways to say what differs from the defaults: to set one option after the other, to
name options in a record, and to list values from the first option on.  All come to the same options
(`Options.merging`), since each says of an option what the overrides have for it, and the defaults are
those of the options.

Every option can be given in each of these ways, so all options are reached.
-/

namespace MailPattern

/-! ### Ways to give overrides -/

namespace Overrides

/-- A value for every option. -/
def full (o : Options) : Overrides := fun f => some (f.get o)

/-- What is given once these options have been set, in turn, to what the overrides have for them. -/
def setEach (ov o : Overrides) (fs : List Field) : Overrides :=
  fs.foldl (fun o f => o.setMaybe f (ov f)) o

/-- The fields of a record that gives each option under the name chosen for it. -/
def fields (ov : Overrides) (name : Field → String) : List (String × Document) :=
  Field.all.filterMap fun f => (ov f).map fun v => (name f, f.document v)

/-- What is given of these options. -/
def documents (ov : Overrides) (fs : List Field) : List Document :=
  fs.filterMap fun f => (ov f).map f.document

/-- The items of a list of all that is given, in the order of the options. -/
def items (ov : Overrides) : List Document := ov.documents Field.all

variable {ov o : Overrides} {f g : Field} {fs : List Field}

theorem apply_full (o : Options) : (full o).apply = o := Options.ofFields_get o

/-! ### Settings -/

theorem setMaybe_of_ne (h : g ≠ f) (v : Option f.Value) : o.setMaybe f v g = o g := by
  cases v with
  | none => rfl
  | some v => exact set_of_ne o h v

/-- Setting some of the options leaves out the overrides of the others. -/
theorem setEach_apply (ov : Overrides) (fs : List Field) (g : Field) :
    ov.setEach .empty fs g = if g ∈ fs then ov g else none := by
  induction fs using List.reverseRecOn with
  | nil => rfl
  | append_singleton fs f ih =>
    have hlast : ov.setEach .empty (fs ++ [f]) = (ov.setEach .empty fs).setMaybe f (ov f) := List.foldl_append
    simp only [hlast, List.mem_append, List.mem_singleton]
    by_cases hg : g = f
    · subst hg
      rw [if_pos (.inr rfl)]
      cases hv : ov g with
      | none =>
        show ov.setEach .empty fs g = none
        rw [ih, hv, ite_self]
      | some v => exact set_self _ g v
    · rw [setMaybe_of_ne hg, ih]
      simp only [hg, or_false]

/-- **The order in which options are set does not matter, nor what is left out that has no value.** -/
theorem setEach_eq (h : ∀ f, ov f ≠ none → f ∈ fs) : ov.setEach .empty fs = ov := by
  funext g
  rw [setEach_apply]
  split
  · rfl
  · rename_i hg
    by_contra hne
    exact hg (h g (Ne.symm hne))

end Overrides

namespace Options

open MailPattern.Field

variable {ov o : Overrides} {fs rest : List Field} {n : Nat}

/-! ### Records -/

/-- The fields of a record are the overrides that have a value, under their names. -/
theorem mem_fields {name : Field → String} {x : String × Document} :
    x ∈ ov.fields name ↔ ∃ f v, ov f = some v ∧ x = (name f, f.document v) := by
  simp only [Overrides.fields, List.mem_filterMap, Option.map_eq_some_iff]
  exact ⟨fun ⟨f, _, v, hv, hx⟩ => ⟨f, v, hv, hx.symm⟩,
    fun ⟨f, v, hv, hx⟩ => ⟨f, f.mem_all, v, hv, hx.symm⟩⟩

section Record

variable {name : Field → String} {unknown : List (String × Document)}
  (hname : ∀ f : Field, name f ∈ f.names) (hunknown : ∀ x ∈ unknown, ∀ f : Field, x.1 ∉ f.names)
include hname hunknown

/-- What names an option in the record is the field that gives it. -/
theorem eq_document_of_mem {x : String × Document} (hx : x ∈ ov.fields name ++ unknown) {f : Field}
    (hf : x.1 ∈ f.names) : ∃ v, ov f = some v ∧ x = (name f, f.document v) := by
  rcases List.mem_append.mp hx with hx | hx
  · obtain ⟨g, v, hv, rfl⟩ := mem_fields.mp hx
    obtain rfl := eq_of_mem_names hf (hname g)
    exact ⟨v, hv, rfl⟩
  · exact absurd hf (hunknown x hx f)

/-- The record of some overrides has no field twice and no value of another kind. -/
theorem sparse_fields (ov : Overrides) : Sparse (ov.fields name ++ unknown) where
  once := by
    refine List.pairwise_append.mpr ⟨?_, ?_, fun x _ y hy f hf => hunknown y hy f hf.2⟩
    · refine List.pairwise_filterMap.mpr ((by decide : Field.all.Nodup).imp fun hne x hx y hy f hf => ?_)
      obtain ⟨v, -, rfl⟩ := Option.map_eq_some_iff.mp hx
      obtain ⟨w, -, rfl⟩ := Option.map_eq_some_iff.mp hy
      exact hne ((eq_of_mem_names (hname _) hf.1).trans (eq_of_mem_names (hname _) hf.2).symm)
    · exact List.pairwise_of_forall_mem_list fun x hx y _ f hf => hunknown x hx f hf.1
  typed x hx f hf := by
    obtain ⟨v, -, rfl⟩ := eq_document_of_mem hname hunknown hx hf
    exact ⟨v, rfl⟩

/-- The options agree with the record of their overrides. -/
theorem agrees_fields (ov : Overrides) : ov.apply.Agrees (ov.fields name ++ unknown) := by
  intro f
  rw [Overrides.get_apply]
  refine ⟨fun x hx hf => ?_, fun hnot => ?_⟩
  · obtain ⟨v, hv, rfl⟩ := eq_document_of_mem hname hunknown hx hf
    rw [hv, Option.getD_some]
  · cases hv : ov f with
    | none => rfl
    | some v =>
      exact absurd (hname f) (hnot _ (List.mem_append_left _ (mem_fields.mpr ⟨f, v, hv, rfl⟩)))

/-- **A record gives the overrides under any names, in any order, with whatever else is in it.** -/
theorem ofDocument_record {fields : List (String × Document)}
    (h : fields.Perm (ov.fields name ++ unknown)) : ofDocument (.record fields) = .ok ov.apply :=
  (ofDocument_eq_ok_of_perm (h.filterMap _)).mpr (ofDocument_eq_ok.mpr
    ⟨sparse_fields hname hunknown ov, agrees_fields hname hunknown ov⟩)

end Record

/-! ### Lists -/

theorem ofItems_nil (n : Nat) (o : Overrides) (fs : List Field) : ofItems n o fs [] = .ok o := by
  rw [ofItems]

/-- The items for some options give them what the overrides have, and those for the others go on. -/
theorem ofItems_documents (h : ∀ f ∈ fs, ov f ≠ none) (more : List Document) :
    ofItems n o (fs ++ rest) (ov.documents fs ++ more) =
      ofItems n (ov.setEach o fs) rest more := by
  induction fs generalizing o with
  | nil => rfl
  | cons f fs ih =>
    obtain ⟨hf, hfs⟩ := List.forall_mem_cons.mp h
    obtain ⟨v, hv⟩ := Option.ne_none_iff_exists'.mp hf
    have hdocuments : ov.documents (f :: fs) = f.document v :: ov.documents fs := by
      rw [Overrides.documents, List.filterMap_cons, hv]
      rfl
    have heach : ov.setEach o (f :: fs) = ov.setEach (o.set f v) fs := by
      rw [Overrides.setEach, List.foldl_cons, hv]
      rfl
    rw [hdocuments, List.cons_append, List.cons_append, ofItems, valueOf_document, heach]
    exact ih hfs

/-- Nothing is given of the other options. -/
theorem documents_eq_nil (h : ∀ f ∈ fs, ov f = none) : ov.documents fs = [] :=
  List.filterMap_eq_nil_iff.mpr fun f hf => by rw [h f hf, Option.map_none]

/-- **A list gives the overrides if these are of the first options.** -/
theorem ofDocument_items {k : Nat} (h : ∀ f, ov f ≠ none ↔ f ∈ Field.all.take k) :
    ov.items = ov.documents (Field.all.take k) ∧ ofDocument (.list ov.items) = .ok ov.apply := by
  have hnodup : (Field.all.take k ++ Field.all.drop k).Nodup := by
    rw [List.take_append_drop]
    decide
  have hlater : ∀ f ∈ Field.all.drop k, ov f = none := fun f hf => by
    by_contra hne
    exact (List.nodup_append.mp hnodup).2.2 f ((h f).mp hne) f hf rfl
  have hitems : ov.items = ov.documents (Field.all.take k) := by
    conv_lhs => rw [Overrides.items, ← List.take_append_drop k Field.all, Overrides.documents,
      List.filterMap_append]
    exact (congrArg _ (documents_eq_nil hlater)).trans (List.append_nil _)
  refine ⟨hitems, ?_⟩
  have hgiven := @ofItems_documents ov .empty (Field.all.take k) (Field.all.drop k) ov.items.length
    (fun f hf => (h f).mpr hf) []
  rw [List.take_append_drop, List.append_nil, ← hitems, Overrides.setEach_eq fun f => (h f).mp] at hgiven
  rw [ofDocument, overridesOf, hgiven, ofItems_nil]
  rfl

/-- A list with more items than there are options left is refused. -/
theorem exists_fault_of_length {ds : List Document} (h : fs.length < ds.length) :
    ∃ fault, ofItems n o fs ds = .error fault := by
  induction fs generalizing o ds with
  | nil =>
    obtain ⟨d, ds, rfl⟩ := List.exists_cons_of_length_pos h
    exact ⟨.tooMany n, rfl⟩
  | cons f fs ih =>
    obtain ⟨d, ds, rfl⟩ := List.exists_cons_of_length_pos (Nat.zero_lt_of_lt h)
    rw [ofItems]
    split
    · exact ⟨_, rfl⟩
    · exact ih (Nat.lt_of_succ_lt_succ h)

/-! ### All ways -/

/-- Whatever way the overrides are given, these options come of it. -/
structure Merged (ov : Overrides) (o : Options) : Prop where
  /-- They are set in any order; what has no value may be set too. -/
  settings (fs : List Field) (h : ∀ f, ov f ≠ none → f ∈ fs) : (ov.setEach .empty fs).apply = o
  /-- A record names them, each by any of its names, in any order and with whatever else is in it. -/
  record (name : Field → String) (unknown fields : List (String × Document))
    (hname : ∀ f : Field, name f ∈ f.names) (hunknown : ∀ x ∈ unknown, ∀ f : Field, x.1 ∉ f.names)
    (hfields : fields.Perm (ov.fields name ++ unknown)) : ofDocument (.record fields) = .ok o
  /-- If they are those of the first options, their values make a list. -/
  items (k : Nat) (hk : k ≤ Field.all.length) (h : ∀ f, ov f ≠ none ↔ f ∈ Field.all.take k) :
    ov.items.length = k ∧ ofDocument (.list ov.items) = .ok o

theorem merged_apply (ov : Overrides) : Merged ov ov.apply where
  settings fs h := by rw [Overrides.setEach_eq h]
  record name unknown fields hname hunknown hfields := ofDocument_record hname hunknown hfields
  items k hk h := by
    obtain ⟨hitems, hdocument⟩ := ofDocument_items h
    refine ⟨?_, hdocument⟩
    rw [hitems, Overrides.documents, List.filterMap_length_eq_length.mpr, List.length_take_of_le hk]
    intro f hf
    rw [Option.isSome_map, Option.isSome_iff_ne_none]
    exact (h f).mpr hf

/-- **All ways to give overrides come to the same options**, those that have the values given and the
defaults of all others.  All options are reached by giving all their values, in each way.  A list that
goes on after the last option is refused, for that if it is right so far. -/
theorem merging : (∀ ov : Overrides, Merged ov ov.apply) ∧
    (∀ o : Options, Merged (.full o) o ∧ ofDocument (.list (Overrides.full o).items) = .ok o) ∧
    (∀ items : List Document, Field.all.length < items.length →
      ∃ fault, ofDocument (.list items) = .error fault) ∧
    ∀ (o : Options) (d : Document) (ds : List Document),
      ofDocument (.list ((Overrides.full o).items ++ d :: ds)) =
        .error (.tooMany (Field.all.length + (d :: ds).length)) := by
  have hfull (o : Options) : Merged (.full o) o := by
    have h := merged_apply (.full o)
    rwa [Overrides.apply_full] at h
  refine ⟨merged_apply, fun o => ⟨hfull o, ?_⟩, fun items hlong => ?_, fun o d ds => ?_⟩
  · exact ((hfull o).items Field.all.length (Nat.le_refl _)
      fun f => ⟨fun _ => f.mem_all, fun _ => Option.some_ne_none _⟩).2
  · obtain ⟨fault, hfault⟩ := exists_fault_of_length (n := items.length) (o := .empty) hlong
    exact ⟨fault, by rw [ofDocument, overridesOf, hfault]; rfl⟩
  · have hgiven := @ofItems_documents (.full o) .empty Field.all [] (Field.all.length + (d :: ds).length)
      (fun _ _ => Option.some_ne_none _) (d :: ds)
    rw [List.append_nil, ← Overrides.items] at hgiven
    have hlength : ((Overrides.full o).items ++ d :: ds).length = Field.all.length + (d :: ds).length := by
      rw [List.length_append]
      rfl
    rw [ofDocument, overridesOf, hlength, hgiven]
    rfl

/-- Two options under other names than their own, and a name of none. -/
theorem merging_aliases : ofDocument (.record [("colour", .null), ("tlds", .list [.text "uk"]),
    ("allowIPv6", .bool true)]) = .ok { allowIpv6 := true, topLevelDomains := ["uk"] } := by
  refine (merging.1 ((Overrides.empty.set .allowIpv6 true).set .topLevelDomains ["uk"])).record
    (fun f => if f = .allowIpv6 then "allowIPv6" else if f = .topLevelDomains then "tlds" else f.name)
    [("colour", .null)] _ (fun f => ?_) (fun x hx f => ?_) (List.reverse_perm _).symm
  · cases f <;> decide
  · obtain rfl := List.mem_singleton.mp hx
    cases f <;> decide

end Options

end MailPattern
