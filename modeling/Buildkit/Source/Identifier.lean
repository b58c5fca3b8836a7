import Buildkit.Lib.Url
import Buildkit.Solver.Pb

/-!
# Source identifiers

`source.FromString` and `source.FromLLB` of `source/identifier.go` for git sources, with
`NewGitIdentifier` and `getRefAndSubdir` of `source/gitidentifier.go`. The identifier of a source
op is `<scheme>://<rest>`; for `git` the rest is a remote with an optional `#ref:subdir`
fragment. A remote that is no git transport gets `https://` in front and is parsed as a URL,
before the attributes of the op are applied; a remote that starts with `git@` is split at its
first `#` instead. The attributes then set `KeepGitDir` and replace the remote with the full URL
the client sent.

The identifiers of the other schemes are not modelled: `FromString` returns their scheme.
-/

namespace Buildkit

namespace Source

/-- `GitIdentifier`. -/
structure GitIdentifier where
  remote : String
  ref : String
  subdir : String
  keepGitDir : Bool
  deriving DecidableEq, Repr

/-- `Identifier`: a git identifier, or one of another scheme, which is not modelled. -/
inductive Identifier
  | git (g : GitIdentifier)
  | other (scheme : String)
  deriving DecidableEq, Repr

/-- `pb.AttrKeepGitDir`. -/
def attrKeepGitDir : String := "git.keepgitdir"

/-- `pb.AttrFullRemoteURL`. -/
def attrFullRemoteURL : String := "git.fullurl"

/-- `isGitTransport`. -/
def isGitTransport (str : String) : Bool :=
  Strings.hasPrefix str "http://" || Strings.hasPrefix str "https://" ||
    Strings.hasPrefix str "git://" || Strings.hasPrefix str "git@"

/-- `getRefAndSubdir`: the fragment split at its first `:`; the ref is `master` when empty. -/
def getRefAndSubdir (fragment : String) : String × String :=
  match Strings.cut fragment ":" with
  | some (ref, dir) => (if ref ≠ "" then ref else "master", dir)
  | none => (if fragment ≠ "" then fragment else "master", "")

/-- `NewGitIdentifier`. -/
def newGitIdentifier (remoteURL : String) : Except String GitIdentifier := do
  let remoteURL := if !isGitTransport remoteURL then "https://" ++ remoteURL else remoteURL
  let repo ← if Strings.hasPrefix remoteURL "git@" then
      -- `git@..` is not a URL: split at the first `#`
      let (remote, fragment) := (Strings.cut remoteURL "#").getD (remoteURL, "")
      let (ref, subdir) := getRefAndSubdir fragment
      pure (⟨remote, ref, subdir, false⟩ : GitIdentifier)
    else do
      let u ← Url.parse remoteURL
      let (ref, subdir) := getRefAndSubdir u.fragment
      pure ⟨{ u with fragment := "" }.toString, ref, subdir, false⟩
  if repo.subdir ≠ "" then .error "subdir not supported yet" else pure repo

/-- `FromString`. -/
def fromString (s : String) : Except String Identifier :=
  match Strings.cut s "://" with
  | none => .error ("failed to parse " ++ s ++ ": invalid")
  | some (scheme, rest) =>
    if scheme = "git" then (newGitIdentifier rest).map .git
    else if scheme = "docker-image" || scheme = "local" || scheme = "https" || scheme = "http" then
      .ok (.other scheme)
    else .error ("unknown schema " ++ scheme ++ ": not found")

/-- One attribute of a git source, as the loop of `FromLLB` applies it. -/
def applyGitAttr (g : GitIdentifier) (kv : String × String) : GitIdentifier :=
  if kv.1 = attrKeepGitDir then if kv.2 = "true" then { g with keepGitDir := true } else g
  else if kv.1 = attrFullRemoteURL then { g with remote := kv.2 }
  else g

/-- `FromLLB`, for a source op without platform. -/
def fromLLB (op : Pb.SourceOp) : Except String Identifier := do
  match ← fromString op.identifier with
  | .git g => pure (.git (op.attrs.foldl applyGitAttr g))
  | id => pure id

end Source

end Buildkit
