import MailPattern.Address.Compose
import MailPattern.Proofs.Pattern.Written

/-!
# Proofs — Address — Tree

The trees that the patterns of an address are read as, in both dialects.  The trees follow the
texts piece by piece: a definition here for each fragment, and the fact that the fragment is
written so.  Only the domains of a whitelist vary without bound; each is a sequence of its
characters.
-/

namespace MailPattern

open Pattern

namespace Fragment

/-! ### Trees -/

/-- As often as possible. -/
def star : Count := ⟨0, none, true⟩

/-- As often as possible, once at least. -/
def plus : Count := ⟨1, none, true⟩

/-- So many times. -/
def exactly (n : Nat) : Count := ⟨n, some n, true⟩

/-- Once if possible. -/
def maybe : Count := ⟨0, some 1, true⟩

/-- Branches in brackets. -/
def anyOf (branches : List (List Pattern)) : Pattern := .group none (ofBranches (branches.map ofItems))

/-- Items in brackets. -/
def all (items : List Pattern) : Pattern := .group none (ofItems items)

/-- A letter or digit of ASCII. -/
def alnum : CharSet := ⟨[('a', 'z'), ('0', '9')], false⟩

/-- What the username may hold by the rules of webmail providers. -/
def gmailSet : CharSet := ⟨alnum.ranges ++ "_.+".toList.map fun c => (c, c), false⟩

/-- What the username may hold in ASCII. -/
def asciiSet : CharSet :=
  ⟨alnum.ranges ++ "!#$%&'.*+-/=?^_`\x7b|\x7d~".toList.map fun c => (c, c), false⟩

/-- What the username may hold in Unicode. -/
def utf8Set : CharSet :=
  ⟨asciiSet.ranges ++ [('\u00a0', '\ud7ff'), ('\uf900', '\ufdcf'), ('\ufdf0', '\uffef')], false⟩

/-- A letter or digit of a host. -/
def wordSet : CharSet := ⟨[('a', 'z'), ('\u00a1', '\uffff'), ('0', '9')], false⟩

/-- A letter of a top-level domain. -/
def letterSet : CharSet := ⟨[('a', 'z'), ('\u00a1', '\uffff')], false⟩

/-- A digit in base sixteen. -/
def hexSet : CharSet := ⟨[('a', 'f'), ('A', 'F'), ('0', '9')], false⟩

/-- A digit, from the first up to the last. -/
def digits (first last : Char) : Pattern := .chars ⟨[(first, last)], false⟩

/-- The first label of a host. -/
def hostTree : Pattern :=
  all [.repeated star (all [.chars wordSet, .repeated star (.chars ⟨[('-', '-'), ('_', '_')], false⟩)]),
    .repeated plus (.chars wordSet)]

/-- The further labels of a host. -/
def domainTree : Pattern :=
  .repeated star (all [.char '.', .repeated star (all [.chars wordSet, .repeated star (.char '-')]),
    .repeated plus (.chars wordSet)])

/-- A top-level domain by form. -/
def strictTree : Pattern := all [.repeated ⟨2, none, true⟩ (.chars letterSet)]

/-- A number from 0 to 255. -/
def octetTree : Pattern :=
  anyOf [[.char '2', .char '5', digits '0' '5'], [.char '2', digits '0' '4', digits '0' '9'],
    [.char '1', digits '0' '9', digits '0' '9'], [digits '1' '9', digits '0' '9'], [digits '0' '9']]

/-- Four numbers with dots between them. -/
def ipv4Items : List Pattern := [octetTree, .repeated (exactly 3) (all [.char '.', octetTree])]

/-- Up to four digits in base sixteen. -/
def hexTree : Pattern := .repeated ⟨1, some 4, true⟩ (.chars hexSet)

/-- Hexadecimal groups after colons. -/
def colonTree (least most : Nat) : Pattern :=
  .repeated ⟨least, some most, true⟩ (all [.char ':', hexTree])

/-- Hexadecimal groups before colons, and then one of the branches. -/
def groupsItems (count : Nat) (branches : List (List Pattern)) : List Pattern :=
  [.repeated (exactly count) (all [hexTree, .char ':']), anyOf branches]

/-- What may follow `n` hexadecimal groups with colons, where at least two more are missing:
an IPv4 address or up to `m` groups after a double colon, or that alone. -/
def restBranches (m : Nat) : List (List Pattern) :=
  [colonTree 0 (m - 2) :: .char ':' :: ipv4Items, [colonTree 1 m], [.char ':']]

/-- The hexadecimal groups of an IPv6 address, by how many stand before a double colon. -/
def ipv6Branches : List (List Pattern) :=
  [groupsItems 7 [[hexTree], [.char ':']],
    groupsItems 6 [ipv4Items, [.char ':', hexTree], [.char ':']],
    groupsItems 5 [.char ':' :: ipv4Items, [colonTree 1 2], [.char ':']],
    groupsItems 4 (restBranches 3), groupsItems 3 (restBranches 4), groupsItems 2 (restBranches 5),
    groupsItems 1 (restBranches 6), [all [.char ':', anyOf (restBranches 7)]]]

/-- A zone after a percent sign. -/
def zoneTree : Pattern :=
  .repeated maybe (all [.char '%',
    .repeated plus (.chars ⟨[('0', '9'), ('a', 'z'), ('A', 'Z')], false⟩)])

/-- An IPv6 address. -/
def ipv6Items : List Pattern := [anyOf ipv6Branches, zoneTree]

/-- A class that holds no character. -/
def neverTree : Pattern := .chars ⟨[('\x00', CharSet.last)], true⟩

/-- The items between anchors. -/
def anchoredTree (items : List Pattern) : Pattern := all (.start :: (items ++ [.stop]))

end Fragment

/-- The class of a username after its first character. -/
def Username.set : Username → CharSet
  | .gmail => Fragment.gmailSet
  | .utf8 => Fragment.utf8Set
  | .ascii => Fragment.asciiSet

/-- A letter or digit of ASCII, and then at least one character of the class. -/
def Username.items (u : Username) : List Pattern :=
  [.chars Fragment.alnum, Fragment.all [.repeated Fragment.plus (.chars u.set)]]

/-- The entries of a whitelist in the order in which they are tried, each as its characters. -/
def Whitelist.branches (entries : List String) : List (List Pattern) :=
  if entries.isEmpty then [[Fragment.neverTree]]
  else (sorted entries).map fun e => e.toList.map .char

namespace Options

/-- What may stand after the last dot. -/
def topLevelTree (o : Options) : Pattern :=
  if o.strict then Fragment.strictTree else Fragment.anyOf (Whitelist.branches o.topLevelDomains)

/-- A host with a top-level domain. -/
def hostItems (o : Options) : List Pattern :=
  [Fragment.hostTree, Fragment.domainTree, Fragment.all [.char '.', o.topLevelTree]]

/-- The branches of the domain. -/
def domainItems (o : Options) : List (List Pattern) :=
  (if o.allowLocalhost then ["localhost".toList.map .char] else []) ++
  (if o.allowIpv4 then [Fragment.ipv4Items] else []) ++
  (if o.allowIpv6 then [Fragment.ipv6Items] else []) ++ [o.hostItems]

/-- The tree of an address anywhere in a text. -/
def tree (o : Options) : Pattern :=
  Fragment.all (o.username.items ++ [.char '@', Fragment.anyOf o.domainItems])

/-- The tree of an address that is the whole text. -/
def anchoredTree (o : Options) : Pattern := Fragment.all [.start, o.tree, .stop]

end Options

/-! ### Reading -/

section Written

variable (d : Dialect)

namespace Fragment

variable {d} in
/-- A star after an item. -/
theorem starred {s : String} {p : Pattern} {k : Nat} (h : WrittenAtom d s p k)
    (hp : p.repeatable .extended = true) : Written d (s ++ "*") [.repeated star p] k :=
  h.counted _ hp (by decide) fun _ => by cases d <;> rfl

variable {d} in
/-- A plus sign after an item. -/
theorem plussed {s : String} {p : Pattern} {k : Nat} (h : WrittenAtom d s p k)
    (hp : p.repeatable .extended = true) : Written d (s ++ "+") [.repeated plus p] k :=
  h.counted _ hp (by decide) fun _ => by cases d <;> rfl

theorem writtenAtom_word : WrittenAtom d r"[a-z\x{a1}-\x{ffff}0-9]" (.chars wordSet) 0 :=
  writtenAtom_chars (by decide) (by decide) fun _ _ => by cases d <;> rfl

/-- The first label. -/
theorem written_host : Written d host [hostTree] 2 := by
  have hjoin : WrittenAtom d "[-_]" (.chars ⟨[('-', '-'), ('_', '_')], false⟩) 0 :=
    writtenAtom_chars (by decide) (by decide) fun _ _ => by cases d <;> rfl
  have hlabel := ((writtenAtom_word d).written.append (starred hjoin rfl)).group
  exact ((starred hlabel rfl).append
    (plussed (writtenAtom_word d) rfl)).group.written

/-- The further labels. -/
theorem written_domain : Written d domain [domainTree] 2 := by
  have hhyphen : WrittenAtom d "-" (.char '-') 0 :=
    writtenAtom_plain (by decide) (by decide) fun _ _ => by cases d <;> rfl
  have hlabel := ((writtenAtom_word d).written.append (starred hhyphen rfl)).group
  exact starred ((writtenAtom_char d '.').written.append ((starred hlabel rfl).append
    (plussed (writtenAtom_word d) rfl))).group rfl

theorem written_strict : Written d strictTopLevel [strictTree] 1 := by
  have hletter : WrittenAtom d r"[a-z\x{a1}-\x{ffff}]" (.chars letterSet) 0 :=
    writtenAtom_chars (by decide) (by decide) fun _ _ => by cases d <;> rfl
  exact (hletter.counted "{2,}" rfl (by decide)
    fun _ => by cases d <;> rfl).group.written

theorem written_localhost : Written d localhost ("localhost".toList.map .char) 0 :=
  written_escape d "localhost"

/-- A number up to 255. -/
theorem writtenAtom_octet : WrittenAtom d octet octetTree 1 := by
  have hdigit : WrittenAtom d "[0-9]" (digits '0' '9') 0 :=
    writtenAtom_chars (by decide) (by decide) fun _ _ => by cases d <;> rfl
  have hupTo5 : WrittenAtom d "[0-5]" (digits '0' '5') 0 :=
    writtenAtom_chars (by decide) (by decide) fun _ _ => by cases d <;> rfl
  have hupTo4 : WrittenAtom d "[0-4]" (digits '0' '4') 0 :=
    writtenAtom_chars (by decide) (by decide) fun _ _ => by cases d <;> rfl
  have hfirst : WrittenAtom d "[1-9]" (digits '1' '9') 0 :=
    writtenAtom_chars (by decide) (by decide) fun _ _ => by cases d <;> rfl
  have h1 := (writtenAtom_char d '1').written
  have h2 := (writtenAtom_char d '2').written
  have h5 := (writtenAtom_char d '5').written
  exact (WrittenChoice.cons (h2.append (h5.append hupTo5.written)) <|
    .cons (h2.append (hupTo4.written.append hdigit.written)) <|
    .cons (h1.append (hdigit.written.append hdigit.written)) <|
    .cons (hfirst.written.append hdigit.written) hdigit.written.choice).group

/-- Four of them. -/
theorem written_ipv4 : Written d ipv4 ipv4Items 2 := by
  have hdot : Written d r"\." [.char '.'] 0 := (writtenAtom_char d '.').written
  have hgroup := (hdot.append (writtenAtom_octet d).written).group
  have htext : ipv4 = octet ++ ("(?:" ++ (r"\." ++ octet) ++ ")" ++ "{3}") := by
    have hopen : r"(?:\." = "(?:" ++ r"\." := rfl
    have hclose : "){3}" = ")" ++ "{3}" := rfl
    simp only [ipv4, hopen, hclose, String.append_assoc]
  rw [htext]
  exact (writtenAtom_octet d).written.append (hgroup.counted _ rfl (by decide)
    fun _ => by cases d <;> rfl)

/-- A group of an IPv6 address. -/
theorem written_hexGroup : Written d hexGroup [hexTree] 0 := by
  have hhex : WrittenAtom d "[a-fA-F0-9]" (.chars hexSet) 0 :=
    writtenAtom_chars (by decide) (by decide) fun _ _ => by cases d <;> rfl
  exact hhex.counted "{1,4}" rfl (by decide) fun _ => by cases d <;> rfl

theorem written_colon : Written d ":" [.char ':'] 0 := (writtenAtom_char d ':').written

variable {d} in
/-- Groups behind colons, as many as the numbers in braces say. -/
theorem written_colonGroups (least most : String) {m n : Nat}
    (h : ∀ rest, Token.next? d true (("\x7b" ++ least ++ "," ++ most ++ "\x7d").toList ++ rest) =
      some (Token.ofBounds (m, some n) false rest)) :
    Written d (colonGroups least most) [colonTree m n] 1 := by
  have hgroup := ((written_colon d).append (written_hexGroup d)).group
  have htext : colonGroups least most =
      "(?:" ++ (":" ++ hexGroup) ++ ")" ++ ("\x7b" ++ least ++ "," ++ most ++ "\x7d") := by
    simp only [colonGroups, String.append_assoc]
    rfl
  rw [htext]
  refine hgroup.counted _ rfl (fun hnil => ?_) h
  have := congrArg List.length hnil
  simp [String.toList_append] at this

variable {d} in
/-- So many groups before colons, and then a choice. -/
theorem written_groupsThen (count : String) {n k : Nat} {texts : List String}
    {branches : List (List Pattern)}
    (h : ∀ rest, Token.next? d true (("\x7b" ++ count ++ "\x7d").toList ++ rest) =
      some (Token.ofBounds (n, some n) false rest)) (hb : WrittenChoice d texts branches k) :
    Written d (groupsThen count texts) (groupsItems n branches) (max 1 (k + 1)) := by
  have hgroup := ((written_hexGroup d).append (written_colon d)).group
  have htext : groupsThen count texts = "(?:" ++ (hexGroup ++ ":") ++ ")" ++ ("\x7b" ++ count ++ "\x7d") ++
      ("(?:" ++ "|".intercalate texts ++ ")") := by
    simp only [groupsThen, String.append_assoc]
    rfl
  rw [htext]
  refine Written.append (hgroup.counted _ rfl (fun hnil => ?_) h) hb.group.written
  have := congrArg List.length hnil
  simp [String.toList_append] at this

variable {d} in
/-- What may follow fewer groups than five. -/
theorem written_rest (most most' : String) {m : Nat}
    (h : ∀ rest, Token.next? d true (("\x7b" ++ "0" ++ "," ++ most' ++ "\x7d").toList ++ rest) =
      some (Token.ofBounds (0, some (m - 2)) false rest))
    (h' : ∀ rest, Token.next? d true (("\x7b" ++ "1" ++ "," ++ most ++ "\x7d").toList ++ rest) =
      some (Token.ofBounds (1, some m) false rest)) :
    WrittenChoice d [colonGroups "0" most' ++ ":" ++ ipv4, colonGroups "1" most, ":"]
      (restBranches m) 2 :=
  .cons (((written_colonGroups _ _ h).append (written_colon d)).append (written_ipv4 d)) <|
    .cons (written_colonGroups _ _ h') (written_colon d).choice

theorem written_zone : Written d r"(?:%[0-9a-zA-Z]{1,})?" [zoneTree] 1 := by
  have hpercent : WrittenAtom d "%" (.char '%') 0 := writtenAtom_char d '%'
  have hclass : WrittenAtom d "[0-9a-zA-Z]"
      (.chars ⟨[('0', '9'), ('a', 'z'), ('A', 'Z')], false⟩) 0 :=
    writtenAtom_chars (by decide) (by decide) fun _ _ => by cases d <;> rfl
  have hmany : Written d ("[0-9a-zA-Z]" ++ "{1,}")
      [.repeated ⟨1, none, true⟩ (.chars ⟨[('0', '9'), ('a', 'z'), ('A', 'Z')], false⟩)] 0 :=
    hclass.counted "{1,}" rfl (by decide)
    fun _ => by cases d <;> rfl
  exact (hpercent.written.append hmany).group.counted "?" rfl (by decide)
    fun _ => by cases d <;> rfl

/-- The whole of an IPv6 address, branch by branch. -/
theorem written_ipv6 : Written d ipv6 ipv6Items 5 := by
  have hcolon := (written_colon d).choice
  have h7 := written_groupsThen "7" (n := 7) (fun _ => by cases d <;> rfl)
    (.cons (written_hexGroup d) hcolon)
  have h6 := written_groupsThen "6" (n := 6) (fun _ => by cases d <;> rfl)
    (.cons (written_ipv4 d) (.cons ((written_colon d).append (written_hexGroup d)) hcolon))
  have h5 := written_groupsThen "5" (n := 5) (fun _ => by cases d <;> rfl)
    (.cons ((written_colon d).append (written_ipv4 d))
      (.cons (written_colonGroups "1" "2" (m := 1) (n := 2)
        fun _ => by cases d <;> rfl) hcolon))
  have h4 := written_groupsThen "4" (n := 4) (fun _ => by cases d <;> rfl)
    (written_rest (d := d) "3" "1" (m := 3) (fun _ => by cases d <;> rfl)
      fun _ => by cases d <;> rfl)
  have h3 := written_groupsThen "3" (n := 3) (fun _ => by cases d <;> rfl)
    (written_rest (d := d) "4" "2" (m := 4) (fun _ => by cases d <;> rfl)
      fun _ => by cases d <;> rfl)
  have h2 := written_groupsThen "2" (n := 2) (fun _ => by cases d <;> rfl)
    (written_rest (d := d) "5" "3" (m := 5) (fun _ => by cases d <;> rfl)
      fun _ => by cases d <;> rfl)
  have h1 := written_groupsThen "1" (n := 1) (fun _ => by cases d <;> rfl)
    (written_rest (d := d) "6" "4" (m := 6) (fun _ => by cases d <;> rfl)
      fun _ => by cases d <;> rfl)
  have h0 := ((written_colon d).append (written_rest (d := d) "7" "5" (m := 7)
    (fun _ => by cases d <;> rfl) fun _ => by cases d <;> rfl).group.written).group.written
  have hlast : ∀ s : String,
      "(?::(?:" ++ s ++ "))" = "(?:" ++ (":" ++ ("(?:" ++ s ++ ")")) ++ ")" := by
    intro s
    have hopen : "(?::(?:" = "(?:" ++ (":" ++ "(?:") := rfl
    have hclose : "))" = ")" ++ ")" := rfl
    rw [hopen, hclose]
    simp only [String.append_assoc]
  have hgroups := (WrittenChoice.cons h7 (.cons h6 (.cons h5 (.cons h4 (.cons h3 (.cons h2
    (.cons h1 h0.choice))))))).group
  rw [ipv6, hlast]
  exact hgroups.written.append (written_zone d)

theorem writtenAtom_never : WrittenAtom d never neverTree 0 :=
  writtenAtom_chars (by decide) (by decide) fun _ _ => by cases d <;> rfl

variable {d} in
/-- Anchors around what is written. -/
theorem written_anchored {s : String} {items : List Pattern} {k : Nat} (h : Written d s items k) :
    WrittenAtom d (anchored s) (anchoredTree items) (k + 1) := by
  have htext : anchored s = "(?:" ++ ("^" ++ (s ++ "$")) ++ ")" := by
    have hopen : "(?:^" = "(?:" ++ "^" := rfl
    have hclose : "$)" = "$" ++ ")" := rfl
    simp only [anchored, hopen, hclose, String.append_assoc]
  rw [htext]
  have hgroup := ((written_start d).append (h.append (written_stop d))).group
  rwa [Nat.max_zero, Nat.zero_max] at hgroup

end Fragment

variable {d} in
/-- Branches that are written, with bars between them. -/
theorem writtenChoice_map (branches : List (String × List Pattern)) {k : Nat} (hne : branches ≠ [])
    (h : ∀ b ∈ branches, Written d b.1 b.2 k) :
    WrittenChoice d (branches.map (·.1)) (branches.map (·.2)) k := by
  induction branches with
  | nil => exact absurd rfl hne
  | cons b branches ih =>
    cases branches with
    | nil => exact (h b List.mem_cons_self).choice
    | cons c branches =>
      have := WrittenChoice.cons (h b List.mem_cons_self)
        (ih nofun fun e he => h e (List.mem_cons_of_mem b he))
      rwa [max_self] at this

/-- The username, by its rules. -/
theorem Username.written_fragment (u : Username) : Written d u.fragment u.items 1 := by
  have halnum : WrittenAtom d "[a-z0-9]" (.chars Fragment.alnum) 0 :=
    writtenAtom_chars (by decide) (by decide) fun _ _ => by cases d <;> rfl
  have hgmail : WrittenAtom d "[a-z0-9_.+]" (.chars Fragment.gmailSet) 0 :=
    writtenAtom_chars (by decide) (by decide) fun _ _ => by cases d <;> rfl
  have hutf8 : WrittenAtom d
      r"[a-z0-9!#$%&'.*+\-/=?^_`{|}~\x{a0}-\x{d7ff}\x{f900}-\x{fdcf}\x{fdf0}-\x{ffef}]"
      (.chars Fragment.utf8Set) 0 :=
    writtenAtom_chars (by decide) (by decide) fun _ _ => by cases d <;> rfl
  have hascii : WrittenAtom d r"[a-z0-9!#$%&'.*+\-/=?^_`{|}~]" (.chars Fragment.asciiSet) 0 :=
    writtenAtom_chars (by decide) (by decide) fun _ _ => by cases d <;> rfl
  cases u with
  | gmail => exact halnum.written.append (Fragment.plussed hgmail rfl).group.written
  | utf8 => exact halnum.written.append (Fragment.plussed hutf8 rfl).group.written
  | ascii => exact halnum.written.append (Fragment.plussed hascii rfl).group.written

theorem Whitelist.sorted_eq_nil {entries : List String} : sorted entries = [] ↔ entries = [] := by
  rw [← List.length_eq_zero_iff, sorted, List.length_mergeSort, List.length_eq_zero_iff]

/-- Each entry of a whitelist is read as its characters. -/
theorem Whitelist.exists_written (entries : List String) : ∃ texts,
    Whitelist.pattern entries = "|".intercalate texts ∧
      WrittenChoice d texts (Whitelist.branches entries) 0 := by
  unfold Whitelist.pattern Whitelist.branches
  split
  · exact ⟨[Fragment.never], rfl, (Fragment.writtenAtom_never d).written.choice⟩
  · rename_i hentries
    have hne : (sorted entries).map (fun e => (escape e, e.toList.map Pattern.char)) ≠ [] := by
      rwa [Ne, List.map_eq_nil_iff, sorted_eq_nil, ← List.isEmpty_iff]
    have hchoice := writtenChoice_map (d := d) (k := 0) _ hne fun b hb => by
      obtain ⟨e, -, rfl⟩ := List.mem_map.mp hb
      exact written_escape d e
    rw [List.map_map, List.map_map] at hchoice
    exact ⟨_, rfl, hchoice⟩

/-- The entries of a whitelist in brackets. -/
theorem Whitelist.written_pattern (entries : List String) :
    WrittenAtom d ("(?:" ++ Whitelist.pattern entries ++ ")")
      (Fragment.anyOf (Whitelist.branches entries)) 1 := by
  obtain ⟨texts, htexts, h⟩ := Whitelist.exists_written d entries
  rw [htexts]
  exact h.group

namespace Options

variable (o : Options)

/-- The dot and the top-level domain. -/
theorem written_topLevel : WrittenAtom d ("(?:" ++ (r"\." ++ o.topLevelPattern) ++ ")")
    (Fragment.all [.char '.', o.topLevelTree]) 2 := by
  have hdot : Written d r"\." [.char '.'] 0 := (writtenAtom_char d '.').written
  unfold topLevelPattern topLevelTree
  split
  · exact (hdot.append (Fragment.written_strict d)).group
  · exact (hdot.append (Whitelist.written_pattern d _).written).group

/-- The labels of a host, and its top-level domain. -/
theorem written_hostItems : Written d
    (Fragment.host ++ Fragment.domain ++ r"(?:\." ++ o.topLevelPattern ++ ")") o.hostItems 2 := by
  have htext : Fragment.host ++ Fragment.domain ++ r"(?:\." ++ o.topLevelPattern ++ ")" =
      Fragment.host ++ (Fragment.domain ++ ("(?:" ++ (r"\." ++ o.topLevelPattern) ++ ")")) := by
    have hopen : r"(?:\." = "(?:" ++ r"\." := rfl
    simp only [hopen, String.append_assoc]
  rw [htext]
  exact (Fragment.written_host d).append
    ((Fragment.written_domain d).append (o.written_topLevel d).written)

/-- The domains that the options allow. -/
theorem written_domainItems : WrittenChoice d o.domainBranches o.domainItems 5 := by
  have := writtenChoice_map (d := d) (k := 5)
    ((if o.allowLocalhost then [(Fragment.localhost, "localhost".toList.map .char)] else []) ++
      (if o.allowIpv4 then [(Fragment.ipv4, Fragment.ipv4Items)] else []) ++
      (if o.allowIpv6 then [(Fragment.ipv6, Fragment.ipv6Items)] else []) ++
      [(Fragment.host ++ Fragment.domain ++ r"(?:\." ++ o.topLevelPattern ++ ")", o.hostItems)])
    (by simp) ?_
  · convert this using 1
    · simp only [domainBranches, List.map_append, List.map_singleton]
      congr 1
      split <;> split <;> split <;> rfl
    · simp only [domainItems, List.map_append, List.map_singleton]
      congr 1
      split <;> split <;> split <;> rfl
  · intro b hb
    simp only [List.mem_append, List.mem_ite_nil_right, List.mem_singleton] at hb
    rcases hb with ((⟨-, rfl⟩ | ⟨-, rfl⟩) | ⟨-, rfl⟩) | rfl
    · exact (Fragment.written_localhost d).mono (by decide)
    · exact (Fragment.written_ipv4 d).mono (by decide)
    · exact Fragment.written_ipv6 d
    · exact (o.written_hostItems d).mono (by decide)

/-- **The whole pattern is written as its tree.** -/
theorem written_pattern : WrittenAtom d o.pattern o.tree 7 := by
  have hat : Written d "@" [.char '@'] 0 := (writtenAtom_char d '@').written
  have htext : o.pattern = "(?:" ++ (o.username.fragment ++
      ("@" ++ ("(?:" ++ "|".intercalate o.domainBranches ++ ")"))) ++ ")" := by
    have hopen : "@(?:" = "@" ++ "(?:" := rfl
    have hclose : "))" = ")" ++ ")" := rfl
    simp only [pattern, hopen, hclose, String.append_assoc]
  rw [htext]
  exact ((o.username.written_fragment d).append
    (hat.append (o.written_domainItems d).group.written)).group

theorem written_anchored : WrittenAtom d (anchored o.pattern) o.anchoredTree 8 :=
  Fragment.written_anchored (o.written_pattern d).written

end Options

end Written

end MailPattern
