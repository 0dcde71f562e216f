/-!
# Address — Fragment

The patterns of the parts of an address, as texts.  None remembers a group, looks around or has
an anchor, so they can be put together in any order.  Only lower case appears in them; that case
is ignored is said where a pattern is compiled.
-/

namespace MailPattern

/-- The rules for the part before the at sign. -/
inductive Username where
  | gmail
  | utf8
  | ascii
deriving DecidableEq, Repr

namespace Username

/-- The rules of webmail providers come before Unicode, and Unicode before ASCII. -/
def select (gmailRules allowUtf8 : Bool) : Username :=
  if gmailRules then .gmail else if allowUtf8 then .utf8 else .ascii

/-- A letter or digit of ASCII, and then at least one character of the class. -/
def fragment : Username → String
  | .gmail => r"[a-z0-9](?:[a-z0-9_.+]+)"
  | .utf8 =>
    r"[a-z0-9](?:[a-z0-9!#$%&'.*+\-/=?^_`{|}~\x{a0}-\x{d7ff}\x{f900}-\x{fdcf}\x{fdf0}-\x{ffef}]+)"
  | .ascii => r"[a-z0-9](?:[a-z0-9!#$%&'.*+\-/=?^_`{|}~]+)"

end Username

namespace Fragment

/-- A host label: letters and digits, with runs of hyphens and underscores between them. -/
def host : String := r"(?:(?:[a-z\x{a1}-\x{ffff}0-9][-_]*)*[a-z\x{a1}-\x{ffff}0-9]+)"

/-- Any number of further labels, each after a dot, with hyphens inside. -/
def domain : String := r"(?:\.(?:[a-z\x{a1}-\x{ffff}0-9]-*)*[a-z\x{a1}-\x{ffff}0-9]+)*"

/-- A top-level domain by form: two letters or more. -/
def strictTopLevel : String := r"(?:[a-z\x{a1}-\x{ffff}]{2,})"

/-- The name of the machine itself. -/
def localhost : String := "localhost"

/-- A number from 0 to 255 without leading zeros. -/
def octet : String := "(?:25[0-5]|2[0-4][0-9]|1[0-9][0-9]|[1-9][0-9]|[0-9])"

/-- Four octets with dots between them. -/
def ipv4 : String := octet ++ r"(?:\." ++ octet ++ r"){3}"

/-- Up to four digits in base sixteen. -/
def hexGroup : String := r"[a-fA-F0-9]{1,4}"

/-- Hexadecimal groups after colons, between `least` and `most` of them. -/
def colonGroups (least most : String) : String :=
  "(?::" ++ hexGroup ++ r"){" ++ least ++ "," ++ most ++ r"}"

/-- Hexadecimal groups before colons, `count` of them, and then one of the branches. -/
def groupsThen (count : String) (branches : List String) : String :=
  "(?:" ++ hexGroup ++ r":){" ++ count ++ r"}(?:" ++ "|".intercalate branches ++ ")"

/-- Eight hexadecimal groups, or fewer around a double colon, where an IPv4 address may stand
for the last two; then a zone may follow. -/
def ipv6 : String :=
  "(?:" ++ "|".intercalate [
    groupsThen "7" [hexGroup, ":"],
    groupsThen "6" [ipv4, ":" ++ hexGroup, ":"],
    groupsThen "5" [":" ++ ipv4, colonGroups "1" "2", ":"],
    groupsThen "4" [colonGroups "0" "1" ++ ":" ++ ipv4, colonGroups "1" "3", ":"],
    groupsThen "3" [colonGroups "0" "2" ++ ":" ++ ipv4, colonGroups "1" "4", ":"],
    groupsThen "2" [colonGroups "0" "3" ++ ":" ++ ipv4, colonGroups "1" "5", ":"],
    groupsThen "1" [colonGroups "0" "4" ++ ":" ++ ipv4, colonGroups "1" "6", ":"],
    "(?::(?:" ++ "|".intercalate
      [colonGroups "0" "5" ++ ":" ++ ipv4, colonGroups "1" "7", ":"] ++ "))"] ++
  ")" ++ r"(?:%[0-9a-zA-Z]{1,})?"

/-- A class that holds no character: an alternation without branches. -/
def never : String := r"[^\x00-\x{10FFFF}]"

end Fragment

end MailPattern
