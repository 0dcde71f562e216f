import MailPattern.Address.Whitelist
import MailPattern.Options

/-!
# Address — Compose

The pattern of an address: a username, an at sign, and a domain.  The domain is one of those the
options allow, tried in this order: `localhost`, an IPv4 address, an IPv6 address, and a host
with a top-level domain.
-/

namespace MailPattern

namespace Options

/-- The username rules that the options select. -/
def username (o : Options) : Username := .select o.gmailRules o.allowUtf8Username

/-- What may stand after the last dot. -/
def topLevelPattern (o : Options) : String :=
  if o.strict then Fragment.strictTopLevel else "(?:" ++ Whitelist.pattern o.topLevelDomains ++ ")"

/-- The branches of the domain. -/
def domainBranches (o : Options) : List String :=
  (if o.allowLocalhost then [Fragment.localhost] else []) ++
  (if o.allowIpv4 then [Fragment.ipv4] else []) ++
  (if o.allowIpv6 then [Fragment.ipv6] else []) ++
  [Fragment.host ++ Fragment.domain ++ r"(?:\." ++ o.topLevelPattern ++ ")"]

/-- The pattern of an address anywhere in a text. -/
def pattern (o : Options) : String :=
  "(?:" ++ o.username.fragment ++ "@(?:" ++ "|".intercalate o.domainBranches ++ "))"

end Options

/-- The pattern that matches where `pattern` matches the whole text. -/
def anchored (pattern : String) : String := "(?:^" ++ pattern ++ "$)"

end MailPattern
