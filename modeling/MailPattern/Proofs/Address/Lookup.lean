import Mathlib.Data.List.Chain
import Mathlib.Data.String.Basic
import MailPattern.Address.TopLevel

/-!
# Proofs — Address — Lookup

A name is found in the table of top-level domains exactly where it stands, and else the place is
told where it would have to be put.  This needs that the table is strictly ascending, which is
decided on the bytes of its entries: the order of texts by code point is that of their bytes.
-/

namespace MailPattern

namespace TopLevel

variable {entries : List String} {key : String}

/-! ### The order of bytes -/

/-- The bytes of a text. -/
def bytes (s : String) : List UInt8 := s.toUTF8.data.toList

theorem bytes_eq (s : String) : bytes s = s.toList.flatMap String.utf8EncodeChar := by
  rw [bytes, String.toUTF8_eq_toByteArray, ← String.utf8Encode_toList, List.utf8Encode]
  simp

/-- The bytes of a smaller character are smaller, and not only as they are fewer: no more bytes
behind them change that. -/
theorem encode_lt {c d : Char} (h : c < d) (bs bs' : List UInt8) :
    String.utf8EncodeChar c ++ bs < String.utf8EncodeChar d ++ bs' := by
  have hlt : c.val.toNat < d.val.toNat := h
  have hd : d.val.toNat ≤ 0x10ffff := by
    have := d.valid
    simp only [UInt32.isValidChar, Nat.isValidChar] at this
    omega
  unfold String.utf8EncodeChar
  dsimp only
  -- The number of bytes does not fall as the character grows: ten cases of sixteen are left.
  repeat' split
  all_goals try omega
  all_goals
    simp only [List.cons_append, List.cons_lt_cons_iff, UInt8.lt_iff_toNat_lt, ← UInt8.toNat_inj,
      UInt8.toNat_ofNat', Nat.reducePow]
    simp (disch := omega) only [Nat.mod_eq_of_lt]
    omega

theorem flatMap_encode_lt {cs ds : List Char} (h : cs < ds) :
    cs.flatMap String.utf8EncodeChar < ds.flatMap String.utf8EncodeChar := by
  induction (show List.Lex (· < ·) cs ds from h) with
  | @nil d ds =>
    rw [List.flatMap_nil, List.flatMap_cons]
    cases hd : String.utf8EncodeChar d with
    | nil => exact absurd hd String.utf8EncodeChar_ne_nil
    | cons => exact List.nil_lt_cons ..
  | rel hcd =>
    rw [List.flatMap_cons, List.flatMap_cons]
    exact encode_lt hcd _ _
  | cons _ ih =>
    rw [List.flatMap_cons, List.flatMap_cons]
    exact List.append_left_lt (ih ‹_›)

/-- The order of texts by code point is that of their bytes. -/
theorem bytes_lt_iff {a b : String} : bytes a < bytes b ↔ a < b := by
  have hmono {a b : String} (h : a < b) : bytes a < bytes b := by
    rw [bytes_eq, bytes_eq]
    exact flatMap_encode_lt h
  refine ⟨fun h => ?_, hmono⟩
  rcases lt_trichotomy a b with hab | rfl | hba
  · exact hab
  · exact absurd h (List.lt_irrefl _)
  · exact absurd (List.lt_trans h (hmono hba)) (List.lt_irrefl _)

/-- The table is strictly ascending. -/
theorem pairwise_table : table.Pairwise (· < ·) := by
  have hbytes : (table.map bytes).IsChain (· < ·) := by decide +kernel
  rw [List.isChain_iff_pairwise, List.pairwise_map] at hbytes
  exact hbytes.imp bytes_lt_iff.mp

/-! ### Places -/

/-- What a place tells: where the key stands among the entries, or where it would have to be
put. -/
def Place.Holds (entries : List String) (key : String) : Place → Prop
  | .found i => entries[i]? = some key
  | .insertAt i =>
    i ≤ entries.length ∧ (∀ entry ∈ entries.take i, entry < key) ∧
      ∀ entry ∈ entries.drop i, key < entry

theorem lt_of_getElem? (h : entries.Pairwise (· < ·)) {i j : Nat} {a b : String}
    (ha : entries[i]? = some a) (hb : entries[j]? = some b) (hij : i < j) : a < b := by
  obtain ⟨hi, rfl⟩ := List.getElem?_eq_some_iff.mp ha
  obtain ⟨hj, rfl⟩ := List.getElem?_eq_some_iff.mp hb
  exact List.pairwise_iff_getElem.mp h i j hi hj hij

theorem Place.Holds.smaller {i j : Nat} {entry : String} (h : Place.Holds entries key (.insertAt i))
    (hentry : entries[j]? = some entry) (hij : j < i) : entry < key :=
  h.2.1 entry (List.mem_of_getElem? ((List.getElem?_take_of_lt hij).trans hentry))

theorem Place.Holds.greater {i j : Nat} {entry : String} (h : Place.Holds entries key (.insertAt i))
    (hentry : entries[j]? = some entry) (hij : i ≤ j) : key < entry := by
  refine h.2.2 entry (List.mem_of_getElem? (i := j - i) ?_)
  rw [List.getElem?_drop, Nat.add_sub_cancel' hij, hentry]

/-- Of an ascending list, no two places hold. -/
theorem Place.Holds.eq (h : entries.Pairwise (· < ·)) {p q : Place} (hp : p.Holds entries key)
    (hq : q.Holds entries key) : p = q := by
  have hkey {i j : Nat} (hi : entries[i]? = some key) (hj : Place.Holds entries key (.insertAt j)) :
      False := by
    rcases Nat.lt_or_ge i j with hij | hij
    · exact lt_irrefl _ (hj.smaller hi hij)
    · exact lt_irrefl _ (hj.greater hi hij)
  have hinsert {i j : Nat} (hi : Place.Holds entries key (.insertAt i))
      (hj : Place.Holds entries key (.insertAt j)) : ¬ i < j := fun hij =>
    have hentry := List.getElem?_eq_getElem (Nat.lt_of_lt_of_le hij hj.1)
    lt_asymm (hj.smaller hentry hij) (hi.greater hentry (Nat.le_refl _))
  cases p with
  | found i => cases q with
    | found j =>
      rcases Nat.lt_trichotomy i j with hij | rfl | hij
      · exact absurd (lt_of_getElem? h hp hq hij) (lt_irrefl _)
      · rfl
      · exact absurd (lt_of_getElem? h hq hp hij) (lt_irrefl _)
    | insertAt j => exact (hkey hp hq).elim
  | insertAt i => cases q with
    | found j => exact (hkey hq hp).elim
    | insertAt j =>
      rw [Nat.le_antisymm (Nat.le_of_not_lt (hinsert hq hp)) (Nat.le_of_not_lt (hinsert hp hq))]

/-! ### Halving -/

/-- What the search keeps: the key is past all entries before `low`, and ahead of all from
`low + size` on. -/
structure Within (entries : List String) (key : String) (low size : Nat) : Prop where
  le : low + size ≤ entries.length
  smaller {i : Nat} {entry : String} (h : entries[i]? = some entry) (hi : i < low) : entry < key
  greater {i : Nat} {entry : String} (h : entries[i]? = some entry) (hi : low + size ≤ i) :
    key < entry

namespace Within

variable {low size i : Nat} {entry : String}

theorem all (entries : List String) (key : String) : Within entries key 0 entries.length where
  le := Nat.le_of_eq (Nat.zero_add _)
  smaller _ hi := absurd hi (Nat.not_lt_zero _)
  greater h hi := by
    obtain ⟨hlt, -⟩ := List.getElem?_eq_some_iff.mp h
    omega

/-- Nothing is left to look at. -/
theorem holds (h : Within entries key low 0) : Place.Holds entries key (.insertAt low) := by
  refine ⟨h.le, fun entry hentry => ?_, fun entry hentry => ?_⟩
  · obtain ⟨i, hi⟩ := List.mem_iff_getElem?.mp hentry
    rw [List.getElem?_take] at hi
    split at hi
    · exact h.smaller hi ‹_›
    · exact nomatch hi
  · obtain ⟨i, hi⟩ := List.mem_iff_getElem?.mp hentry
    rw [List.getElem?_drop] at hi
    exact h.greater hi (Nat.le_add_right _ _)

/-- If the entry looked at is too small, so are all before it. -/
theorem above (h : Within entries key low size) (hasc : entries.Pairwise (· < ·)) (hi : i < size)
    (hentry : entries[low + i]? = some entry) (hlt : entry < key) :
    Within entries key (low + i + 1) (size - i - 1) where
  le := by have := h.le; omega
  smaller {j e} he hj := by
    rcases Nat.lt_or_eq_of_le (Nat.le_of_lt_succ hj) with hj | rfl
    · exact lt_trans (lt_of_getElem? hasc he hentry hj) hlt
    · rwa [Option.some_inj.mp (he.symm.trans hentry)]
  greater he hj := h.greater he (by omega)

/-- If the entry looked at is too great, so are all behind it. -/
theorem below (h : Within entries key low size) (hasc : entries.Pairwise (· < ·)) (hi : i < size)
    (hentry : entries[low + i]? = some entry) (hlt : key < entry) : Within entries key low i where
  le := by have := h.le; omega
  smaller := h.smaller
  greater {j e} he hj := by
    rcases Nat.lt_or_eq_of_le hj with hj | rfl
    · exact lt_trans hlt (lt_of_getElem? hasc hentry he hj)
    · rwa [Option.some_inj.mp (he.symm.trans hentry)]

end Within

/-- Halving an interval that a name belongs in tells where it belongs. -/
theorem searchFrom_holds (hasc : entries.Pairwise (· < ·)) {low size : Nat}
    (h : Within entries key low size) :
    (searchFrom entries.toArray key low size).Holds entries key := by
  fun_induction searchFrom entries.toArray key low size with
  | case1 low => exact h.holds
  | case2 low size hsize half hnone =>
    have := h.le
    rw [List.getElem?_toArray, List.getElem?_eq_none_iff] at hnone
    omega
  | case3 low size hsize half hentry => rwa [List.getElem?_toArray] at hentry
  | case4 low size hsize half entry hentry hne hlt ih =>
    rw [List.getElem?_toArray] at hentry
    exact ih (h.above hasc (by omega) hentry hlt)
  | case5 low size hsize half entry hentry hne hlt ih =>
    rw [List.getElem?_toArray] at hentry
    exact ih (h.below hasc (by omega) hentry (lt_of_le_of_ne (not_lt.mp hlt) (Ne.symm hne)))

/-- In an ascending list, the place searched for is the one that holds. -/
theorem search_eq_iff (hasc : entries.Pairwise (· < ·)) {place : Place} :
    search entries.toArray key = place ↔ place.Holds entries key := by
  have h : (search entries.toArray key).Holds entries key :=
    searchFrom_holds hasc (Within.all entries key)
  exact ⟨fun heq => heq ▸ h, fun hplace => h.eq hasc hplace⟩

/-- The place of `key` from `low` on, by the order of bytes. -/
def searchBytesFrom (entries : Array String) (key : String) (low size : Nat) : Place :=
  if size = 0 then .insertAt low
  else
    let half := size / 2
    match entries[low + half]? with
    | none => .insertAt low
    | some entry =>
      if bytes entry = bytes key then .found (low + half)
      else if bytes entry < bytes key then
        searchBytesFrom entries key (low + half + 1) (size - half - 1)
      else searchBytesFrom entries key low half
termination_by size

/-- The place of `key` in the `entries`, by the order of bytes. -/
def searchBytes (entries : Array String) (key : String) : Place :=
  searchBytesFrom entries key 0 entries.size

theorem bytes_inj {a b : String} : bytes a = bytes b ↔ a = b := by
  refine ⟨fun h => ?_, congrArg bytes⟩
  rcases lt_trichotomy a b with hab | rfl | hba
  · exact absurd (h ▸ bytes_lt_iff.mpr hab) (List.lt_irrefl _)
  · rfl
  · exact absurd (h ▸ bytes_lt_iff.mpr hba) (List.lt_irrefl _)

/-- Comparing bytes finds what comparing characters finds. -/
theorem searchBytes_eq (entries : Array String) (key : String) :
    searchBytes entries key = search entries key := by
  have hfrom (low size : Nat) :
      searchBytesFrom entries key low size = searchFrom entries key low size := by
    fun_induction searchFrom entries key low size with
    | case1 low => rw [searchBytesFrom, if_pos rfl]
    | case2 low size hsize half hnone =>
      subst half
      rw [searchBytesFrom, if_neg hsize]
      simp only [hnone]
    | case3 low size hsize half hentry =>
      subst half
      rw [searchBytesFrom, if_neg hsize]
      simp only [hentry, if_pos]
    | case4 low size hsize half entry hentry hne hlt ih =>
      subst half
      rw [searchBytesFrom, if_neg hsize]
      simp only [hentry, bytes_inj, bytes_lt_iff, if_neg hne, if_pos hlt, ih]
    | case5 low size hsize half entry hentry hne hlt ih =>
      subst half
      rw [searchBytesFrom, if_neg hsize]
      simp only [hentry, bytes_inj, bytes_lt_iff, if_neg hne, if_neg hlt, ih]
  exact hfrom 0 entries.size

/-- **The table is searched by halving.**  A name is found where it stands, and else told where it
would have to be put: behind all smaller entries and ahead of all greater ones.  This is the one
answer there is, and the order of bytes gives it too. -/
theorem lookup : table.Pairwise (· < ·) ∧ (table.Pairwise fun a b => bytes a < bytes b) ∧
    ∀ s : String,
      (∀ i, search table.toArray s = .found i ↔ table[i]? = some s) ∧
      (∀ i, search table.toArray s = .insertAt i ↔ i ≤ table.length ∧
        (∀ entry ∈ table.take i, entry < s) ∧ ∀ entry ∈ table.drop i, s < entry) ∧
      (∃! place : Place, place.Holds table s) ∧
      searchBytes table.toArray s = search table.toArray s := by
  refine ⟨pairwise_table, pairwise_table.imp bytes_lt_iff.mpr, fun s => ?_⟩
  have hplace (place : Place) : search table.toArray s = place ↔ place.Holds table s :=
    search_eq_iff pairwise_table
  have hsearch : (search table.toArray s).Holds table s := (hplace _).mp rfl
  exact ⟨fun i => hplace (.found i), fun i => hplace (.insertAt i),
    ⟨_, hsearch, fun place h => h.eq pairwise_table hsearch⟩, searchBytes_eq _ s⟩

end TopLevel

end MailPattern
