import Buildkit.Lib.Strings

/-!
# URL parsing

`net/url.Parse` of the Go standard library, as far as the sources use it: the fragment is cut at
the first `#`; a scheme is the letters (then digits, `+`, `-`, `.`) before the first `:`; the query
is cut at the first `?`; a rest that does not start with `/` is opaque; after `//` the authority
runs to the next `/`, its host after the last `@`, and a `:` in the host starts a port, which must
be all digits. A control character or a malformed `%` escape in the path is an error.

Percent escapes are checked but not decoded, and the user information is not validated:
`String` gives the URL back as it was written.
-/

namespace Url

/-- `url.URL`, without `ForceQuery` and `RawPath`. -/
structure URL where
  scheme : String
  opaqueText : String
  user : Option String
  host : String
  path : String
  rawQuery : String
  fragment : String
  deriving DecidableEq, Repr

/-- `stringContainsCTLByte`. -/
def containsCTL (s : List Char) : Bool := s.any fun c => c.toNat < 0x20 || c.toNat = 0x7f

/-- A letter, as `getscheme` tells one. -/
def isLetter (c : Char) : Bool := ('a' ≤ c && c ≤ 'z') || ('A' ≤ c && c ≤ 'Z')

/-- A character that may follow the first one of a scheme. -/
def isSchemeTail (c : Char) : Bool := ('0' ≤ c && c ≤ '9') || c = '+' || c = '-' || c = '.'

/-- The loop of `getscheme` over the characters after `seen`. -/
def getSchemeGo (raw : List Char) : List Char → List Char → Except String (List Char × List Char)
  | _, [] => .ok ([], raw)
  | seen, c :: cs =>
    if isLetter c then getSchemeGo raw (seen ++ [c]) cs
    else if isSchemeTail c then
      if seen = [] then .ok ([], raw) else getSchemeGo raw (seen ++ [c]) cs
    else if c = ':' then
      if seen = [] then .error "missing protocol scheme" else .ok (seen, cs)
    else .ok ([], raw)

/-- `getscheme`: the scheme and the rest. -/
def getScheme (raw : List Char) : Except String (List Char × List Char) := getSchemeGo raw [] raw

/-- `validOptionalPort`. -/
def validOptionalPort (port : List Char) : Bool :=
  match port with
  | [] => true
  | c :: cs => c = ':' && cs.all fun b => '0' ≤ b && b ≤ '9'

/-- `parseHost`, for a host that is not an IPv6 literal: a `:` starts a port. -/
def parseHost (host : String) : Except String String :=
  if Strings.hasPrefix host "[" then .ok host
  else
    match Strings.cutLast host ':' with
    | some (_, port) =>
      if validOptionalPort (':' :: port.toList) then .ok host
      else .error ("invalid port \":" ++ port ++ "\" after host")
    | none => .ok host

/-- `parseAuthority`: the user information before the last `@`, and the host. -/
def parseAuthority (authority : String) : Except String (Option String × String) :=
  match Strings.cutLast authority '@' with
  | none => do
    let host ← parseHost authority
    .ok (none, host)
  | some (user, host) => do
    let host ← parseHost host
    .ok (some user, host)

/-- The escapes of a path are well formed: every `%` is followed by two hex digits. -/
def validEscapes : List Char → Bool
  | [] => true
  | '%' :: a :: b :: cs => a.isHexDigit && b.isHexDigit && validEscapes cs
  | '%' :: _ => false
  | _ :: cs => validEscapes cs

/-- `parse` of `net/url`, on a URL without its fragment. -/
def parseNoFragment (raw : String) : Except String URL := do
  if containsCTL raw.toList then .error "net/url: invalid control character in URL" else
  let (scheme, rest) ← getScheme raw.toList
  let scheme := String.ofList (scheme.map Char.toLower)
  let (rest, rawQuery) := ((Strings.cut (String.ofList rest) "?").getD (String.ofList rest, ""))
  if !Strings.hasPrefix rest "/" && scheme ≠ "" then
    .ok ⟨scheme, rest, none, "", "", rawQuery, ""⟩
  else if (scheme ≠ "" || !Strings.hasPrefix rest "///") && Strings.hasPrefix rest "//" then
    let auth := Strings.trimPrefix rest "//"
    let (authority, path) := match Strings.cut auth "/" with
      | some (a, p) => (a, "/" ++ p)
      | none => (auth, "")
    let (user, host) ← parseAuthority authority
    if validEscapes path.toList then .ok ⟨scheme, "", user, host, path, rawQuery, ""⟩
    else .error "invalid URL escape"
  else if validEscapes rest.toList then .ok ⟨scheme, "", none, "", rest, rawQuery, ""⟩
  else .error "invalid URL escape"

/-- `url.Parse`: the fragment is cut at the first `#`. -/
def parse (raw : String) : Except String URL :=
  match Strings.cut raw "#" with
  | some (u, frag) => do
    let url ← parseNoFragment u
    .ok { url with fragment := frag }
  | none => parseNoFragment raw

/-- `URL.String`. -/
def URL.toString (u : URL) : String :=
  let query := if u.rawQuery = "" then "" else "?" ++ u.rawQuery
  let frag := if u.fragment = "" then "" else "#" ++ u.fragment
  if u.opaqueText ≠ "" then u.scheme ++ ":" ++ u.opaqueText ++ query ++ frag
  else
    let user := (u.user.map (· ++ "@")).getD ""
    let auth := if u.scheme ≠ "" || u.host ≠ "" || u.user.isSome then "//" ++ user ++ u.host else ""
    (if u.scheme ≠ "" then u.scheme ++ ":" else "") ++ auth ++ u.path ++ query ++ frag

end Url
