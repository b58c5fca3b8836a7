import Buildkit.Source.Identifier

/-!
# Git sources from the client

`llb.Git` of `client/llb/source.go`: each scheme prefix the remote starts with is cut off into the
identifier `git://<remote>[#ref]`, and the whole URL up to a `#` goes into the attribute
`git.fullurl`; `KeepGitDir` sets `git.keepgitdir`. The options other than `KeepGitDir` set
constraints of the op, which are not modelled.

The daemon applies the attributes only after it parsed the identifier (`Source.fromLLB`). For
`http://`, `https://` and `git://` remotes the parse succeeds and the full URL comes back. For an
scp-like remote `git@host:path` the client cuts off `git@`, the daemon puts `https://`
in front of `host:path`, and the URL parser reads the path as a port: the source is rejected.
-/

namespace Buildkit

namespace Client

open Source

/-- `llb.Git`: the source op of a git remote at a ref. -/
def git (remote ref : String) (keepGitDir : Bool) : Pb.SourceOp :=
  let (url, remote) := ["http://", "https://", "git://", "git@"].foldl
    (fun (acc : String × String) pre =>
      if Strings.hasPrefix acc.2 pre then (Strings.before acc.2 "#", Strings.trimPrefix acc.2 pre)
      else acc) ("", remote)
  let id := if ref ≠ "" then remote ++ "#" ++ ref else remote
  let attrs := (if keepGitDir then [(attrKeepGitDir, "true")] else []) ++
    (if url ≠ "" then [(attrFullRemoteURL, url)] else [])
  ⟨"git://" ++ id, attrs⟩

/-- The scp-like remote of the buildkit repository is rejected by the daemon: `https://` is put in
front of `github.com:moby/buildkit.git`, whose "port" `moby` is not a number. -/
theorem fromLLB_git_scp_rejected :
    fromLLB (git "git@github.com:moby/buildkit.git" "" false) =
      .error "invalid port \":moby\" after host" := by
  decide +kernel

end Client

end Buildkit
