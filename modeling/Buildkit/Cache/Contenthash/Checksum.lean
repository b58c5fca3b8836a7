import Buildkit.Lib.Loop
import Buildkit.Lib.Outcome
import Buildkit.Lib.Path
import Buildkit.Lib.Radix
import Buildkit.Lib.Strings
import Buildkit.Solver.Types

/-!
# Content checksums of a snapshot

`cache/contenthash/checksum.go` keeps the digests of the paths of a snapshot in an immutable
radix tree (`Radix`). A path is stored under its key, its bytes with every slash turned into a
NUL, so that `/dir` is `\0dir`. A directory has two records: its header, under its key and a NUL,
and its contents, under its key; the root's are `\0` and the empty key. `HandleChange` writes the
records of a stream of changes in a transaction, `scanPath` those of a walk over the mounted
snapshot, and `checksum` computes the digest of a record that has none: of a directory, from the
keys and digests of the records it reads after its header, skipping the records below each child
directory.

A Go string here is its bytes, read one character each (U+0000 to U+00FF): the path functions
and the conversions to keys work on bytes and see the same. `sha` is `digest.NewDigest` of the
SHA-256 of the bytes written to a hash, and `Mounted` what the checksums read of the mounted
snapshot. Go's map iteration is an `IterOrder`.

The loops and recursions run on fuel. `checksum` recurses once for each key along a chain of
keys of the tree, each extending the one before, and its directory loop reads each record at
most once, so the nodes of the tree bound both; `getFollowLinksWalk` and `needsScanFollow`
follow at most 256 links, and between two of them recurse once for each byte of a key that
grows by at most a link each time (`linkFuel`).

Two trees built by `HandleChange` show where the code parts from what it is meant to do. The
directory loop skips a child directory's records by seeking to the child's key followed by
`\0\xff`, and `Seek` passes over a node only when it stops above it: below a grandchild whose
name begins with `\xff` and that has records of its own, the seek stops inside it, and the loop
hashes the grandchild's header into the root's digest (`Checksum_reads_grandchild_header`). And
`getFollowLinksWalk` follows a symlink only at the parent of the key it looks for, so a path
below a directory reached through a symlink further up is not found
(`Checksum_not_found_below_linked_dir`).
-/

namespace Buildkit.Contenthash

open Radix

/-- `CacheRecordType`. -/
inductive CacheRecordType where
  | file
  | dir
  | dirHeader
  | symlink
  deriving DecidableEq, Repr

/-- `CacheRecord`. -/
structure CacheRecord where
  digest : Digest
  type : CacheRecordType
  linkname : String
  deriving DecidableEq, Repr

/-! ### Keys -/

/-- `[]byte(s)`. -/
def keyOf (s : String) : Key := s.toList.map fun c => c.toNat.toUInt8

/-- `string(b)`. -/
def stringOf (k : Key) : String := String.ofList (k.map Strings.runeOfByte)

/-- `convertPathToKey`: every slash turned into a NUL. -/
def convertPathToKey (p : Key) : Key := p.map fun b => if b = 47 then 0 else b

/-- `convertKeyToPath`: every NUL turned into a slash. -/
def convertKeyToPath (k : Key) : Key := k.map fun b => if b = 0 then 47 else b

/-- `bytes.TrimPrefix`. -/
def trimPrefix (s pre : Key) : Key := if pre.isPrefixOf s then s.drop pre.length else s

/-- `bytes.TrimSuffix`. -/
def trimSuffix (s suf : Key) : Key :=
  if suf.isSuffixOf s then s.take (s.length - suf.length) else s

/-- The loop of `splitKey`, from the index `i` down: where the key splits. -/
def splitKeyAt (k : Key) : Nat → Bool → Nat
  | 0, _ => 0
  | i + 1, foundBytes =>
    if foundBytes = true ∧ k.getD (i + 1) 0 = 0 then i + 1
    else splitKeyAt k i (foundBytes || k.getD (i + 1) 0 != 0)

/-- `splitKey`: the key of the parent and the last element, with the NUL before it. It is only
called on keys that are not empty. -/
def splitKey (k : Key) : Key × Key :=
  let i := splitKeyAt k (k.length - 1) false
  (k.take i, k.drop i)

/-! ### The state -/

/-- `cacheContext`: the tree, the transaction `HandleChange` writes in with the root of the tree
when it began (`node`), the directories whose contents changed in it, and whether the tree
changed since it was saved. -/
structure CacheContext where
  tree : Node CacheRecord
  txn : Option (Node CacheRecord × Node CacheRecord)
  dirtyMap : List String
  dirty : Bool

/-- `newCacheContext`, with nothing saved in the metadata. -/
def CacheContext.empty : CacheContext := ⟨.empty, none, [], false⟩

/-- `fsutil.ChangeKind`. -/
inductive ChangeKind where
  | add
  | modify
  | delete
  deriving DecidableEq, Repr

/-- What `HandleChange` reads of an `os.FileInfo`: whether it is a directory or a symlink, the
link name of its `*fstypes.Stat` if `Sys()` is one, and its digest if it is `Hashed`. -/
structure FileInfo where
  isDir : Bool
  isSymlink : Bool
  stat : Option String
  hashed : Option Digest
  deriving DecidableEq, Repr

/-- What `scanPath` reads of a file its walk visits: its path relative to the mount, whether it
is a directory or a symlink, and the target `os.Readlink` gives. -/
structure ScanEntry where
  rel : String
  isDir : Bool
  isSymlink : Bool
  linkname : String
  deriving DecidableEq, Repr

/-- What the checksums read of the mounted snapshot: the digest `prepareDigest` computes of the
file at a path after `Mount` and `Lstat`, and, below the directory of a path, the symlinks
`rootPath` follows with their targets and the files `filepath.Walk` visits; or the error that
any of them returns. -/
structure Mounted where
  digestOf : String → Outcome Digest
  scan : String → Outcome (List (String × String) × List ScanEntry)

/-- The directory marked dirty by a change at `p`. -/
def dirtyDir (p : String) : String :=
  let d := Path.dir p
  if d = "/" then "" else d

/-- The recursion of `addParentToMap`: the parents of a path up to the root `""`. -/
def parentsOf : Nat → String → List String
  | 0, _ => []
  | fuel + 1, d =>
    if d = "" then []
    else
      let d := dirtyDir d
      d :: parentsOf fuel d

/-- `addParentToMap`. -/
def addParentToMap (d : String) (m : List String) : List String :=
  (parentsOf (d.length + 1) d).foldl (fun m d => m.insert d) m

section Context

variable (sha : List UInt8 → Digest) (fs : Mounted) (ord : IterOrder String)

/-- `commitActiveTransaction`: the dirty directories and their parents get a contents record
without a digest, where they have one. Adding the parents while the first loop runs leaves the
map closed under parents, whichever of the new keys that loop visits. -/
def commitActiveTransaction (cc : CacheContext) : CacheContext :=
  match cc.txn with
  | none => cc
  | some (txn, _) =>
    let dirtyMap := cc.dirtyMap.foldl (fun m d => addParentToMap d m) cc.dirtyMap
    let txn := (ord.order dirtyMap).foldl (fun txn d =>
      let k := convertPathToKey (keyOf d)
      if (txn.get k).isSome then txn.insert k ⟨"", .dir, ""⟩ else txn) txn
    { cc with tree := txn, txn := none, dirtyMap := [] }

/-- The transaction `HandleChange` writes in: the open one, or one begun on the tree with the
records of the root faked in. -/
def CacheContext.beginTxn (cc : CacheContext) : Node CacheRecord × Node CacheRecord :=
  match cc.txn with
  | some t => t
  | none =>
    if (cc.tree.get [0]).isSome then (cc.tree, cc.tree)
    else ((cc.tree.insert [0] ⟨sha [], .dirHeader, ""⟩).insert [] ⟨"", .dir, ""⟩, cc.tree)

/-- `deleteDir`: the records below a directory that the tree had when the transaction began,
deleted. -/
def deleteDir (node : Node CacheRecord) (k : Key) (cr : CacheRecord) (txn : Node CacheRecord) :
    Node CacheRecord :=
  if cr.type = .dir then (node.walkPrefix (k ++ [0])).foldl (fun txn e => (txn.delete e.1).1) txn
  else txn

/-- `HandleChange`. -/
def handleChange (kind : ChangeKind) (p : String) (fi : FileInfo) (cc : CacheContext) :
    Outcome Unit × CacheContext :=
  let p := Path.join ["/", p]
  let p := if p = "/" then "" else p
  let k := convertPathToKey (keyOf p)
  let (txn, node) := cc.beginTxn sha
  match kind with
  | .delete =>
    let (txn, v) := txn.delete k
    let txn := match v with
      | some v => deleteDir node k v txn
      | none => txn
    (.ok (), { cc with txn := some (txn, node), dirtyMap := cc.dirtyMap.insert (dirtyDir p) })
  | _ =>
    match fi.stat, fi.hashed with
    | none, _ =>
      (.error (p ++ " invalid change without stat information"), { cc with txn := some (txn, node) })
    | some _, none => (.error ("invalid fileinfo: " ++ p), { cc with txn := some (txn, node) })
    | some linkname, some dgst =>
      let txn := match node.get k with
        | some v => deleteDir node k v txn
        | none => txn
      let cr : CacheRecord :=
        if fi.isSymlink then ⟨dgst, .symlink, linkname⟩ else ⟨dgst, .file, ""⟩
      -- a directory's contents record goes under its key, its header under the key and a NUL
      let (txn, k, p, cr) :=
        if fi.isDir then (txn.insert k ⟨"", .dir, ""⟩, k ++ [0], p ++ "/", { cr with type := .dirHeader })
        else (txn, k, p, cr)
      let txn := txn.insert k cr
      (.ok (), { cc with txn := some (txn, node), dirtyMap := cc.dirtyMap.insert (dirtyDir p) })

/-- A stream of changes handled in turn, up to the first that fails. -/
def handleChanges (cs : List (ChangeKind × String × FileInfo)) (cc : CacheContext) :
    Outcome Unit × CacheContext :=
  cs.foldl (fun r c => Outcome.andThen (handleChange sha c.1 c.2.1 c.2.2) r) (.ok (), cc)

/-- `scanPath`: the records of the files below the directory of `p` that the tree lacks. -/
def scanPath (p : String) (cc : CacheContext) : Outcome Unit × CacheContext :=
  let p := Path.join ["/", p]
  match fs.scan (Path.splitDir p) with
  | .ok (links, entries) =>
    let n := cc.tree
    let txn := links.foldl (fun txn l =>
      txn.insert (convertPathToKey (keyOf (Path.join ["/", l.1]))) ⟨"", .symlink, l.2⟩) cc.tree
    let txn := entries.foldl (fun txn e =>
      let k := keyOf (Path.join ["/", e.rel])
      let k := convertPathToKey (if k = keyOf "/" then [] else k)
      if (n.get k).isSome then txn
      else
        let cr : CacheRecord := if e.isSymlink then ⟨"", .symlink, e.linkname⟩ else ⟨"", .file, ""⟩
        if e.isDir then (txn.insert k ⟨"", .dir, ""⟩).insert (k ++ [0]) { cr with type := .dirHeader }
        else txn.insert k cr) txn
    (.ok (), { cc with tree := txn })
  | .error e => (.error e, cc)
  | .panic e => (.panic e, cc)

end Context

/-! ### Following links -/

/-- A bound on the recursion of `getFollowLinksWalk` and `needsScanFollow` from a key of `n`
bytes: 257 stretches between links, each of at most as many rounds as the key, grown by a link
each time, has bytes. -/
def linkFuel (root : Node CacheRecord) (n : Nat) : Nat :=
  257 * (n + 257 * ((root.walk.map fun e => e.2.linkname.length + 2).sum + 1) + 1)

/-- `getFollowLinksWalk`: the key and record found, with the count of links followed. -/
def getFollowLinksWalk (root : Node CacheRecord) :
    Nat → Key → Nat → Outcome (Option (Key × CacheRecord)) × Nat
  | 0, _, linksWalked => (.panic "runtime: goroutine stack exceeds limit", linksWalked)
  | fuel + 1, k, linksWalked =>
    match root.get k with
    | some cr => (.ok (some (k, cr)), linksWalked)
    | none =>
      if k = [] then (.ok none, linksWalked)
      else
        let (dir, file) := splitKey k
        match getFollowLinksWalk root fuel dir linksWalked with
        | (.ok (some (_, parent)), linksWalked) =>
          if parent.type = .symlink then
            let linksWalked := linksWalked + 1
            if linksWalked > 255 then (.error "too many links", linksWalked)
            else
              let dirPath := Path.clean (stringOf (convertKeyToPath dir))
              let dirPath := if dirPath = "." ∨ dirPath = "/" then "" else dirPath
              let link := Path.clean parent.linkname
              let link :=
                if !Path.isAbs link then Path.join ["/", Path.join [Path.dir dirPath, link]] else link
              getFollowLinksWalk root fuel (convertPathToKey (keyOf link) ++ file) linksWalked
          else (.ok none, linksWalked)
        | (.ok none, linksWalked) => (.ok none, linksWalked)
        | (.error e, linksWalked) => (.error e, linksWalked)
        | (.panic e, linksWalked) => (.panic e, linksWalked)

/-- `getFollowLinks`. -/
def getFollowLinks (root : Node CacheRecord) (k : Key) : Outcome (Option (Key × CacheRecord)) :=
  (getFollowLinksWalk root (linkFuel root k.length) k 0).1

/-- `needsScanFollow`: whether the path lacks a record, and neither has one of its parents, with
the count of links followed. -/
def needsScanFollow (root : Node CacheRecord) : Nat → String → Nat → Outcome Bool × Nat
  | 0, _, linksWalked => (.panic "runtime: goroutine stack exceeds limit", linksWalked)
  | fuel + 1, p, linksWalked =>
    let p := if p = "/" then "" else p
    match root.get (convertPathToKey (keyOf p)) with
    | none =>
      if p = "" then (.ok true, linksWalked)
      else needsScanFollow root fuel (Path.clean (Path.dir p)) linksWalked
    | some cr =>
      if cr.type = .symlink then
        if linksWalked > 255 then (.error "too many links", linksWalked)
        else
          let link := Path.clean cr.linkname
          let link := if !Path.isAbs cr.linkname then Path.join ["/", Path.dir p, link] else link
          needsScanFollow root fuel link (linksWalked + 1)
      else (.ok false, linksWalked)

/-- `needsScan`. -/
def needsScan (root : Node CacheRecord) (p : String) : Outcome Bool :=
  (needsScanFollow root (linkFuel root (keyOf p).length) p 0).1

/-! ### Computing digests -/

section Digests

variable (sha : List UInt8 → Digest) (fs : Mounted) (ord : IterOrder String)

/-- The loop of `checksum` over the records after the header of the directory `k`, whose key and
a NUL is `next`: `subk` is the key the iterator gave, if it gave one, and `h` the bytes written
to the hash so far. `sub` is the recursive call, on a key and the transaction. -/
def checksumDir (sub : Key → Node CacheRecord → Outcome (CacheRecord × Bool) × Node CacheRecord)
    (root : Node CacheRecord) (k next : Key) :
    Nat → Seeker CacheRecord → Option Key → List UInt8 → Node CacheRecord →
      Outcome (List UInt8) × Node CacheRecord
  | 0, _, _, h, txn => (.ok h, txn)
  | fuel + 1, iter, subk, h, txn =>
    match subk with
    | none => (.ok h, txn)
    | some subk =>
      if !next.isPrefixOf subk then (.ok h, txn)
      else
        let h := h ++ trimPrefix subk k
        match sub subk txn with
        | (.ok (subcr, _), txn) =>
          let h := h ++ keyOf subcr.digest
          -- skip the records below a child directory
          let iter := if subcr.type = .dir then root.seek (subk ++ [0, 0xff]) else iter
          let (r, iter) := iter.next
          checksumDir sub root k next fuel iter (r.map (·.1)) h txn
        | (.error e, txn) => (.error e, txn)
        | (.panic e, txn) => (.panic e, txn)

/-- `cacheContext.checksum`: the record of the key with its digest, and whether it computed the
digest, with the transaction it wrote the record to. -/
def checksum (root : Node CacheRecord) :
    Nat → Key → Node CacheRecord → Outcome (CacheRecord × Bool) × Node CacheRecord
  | 0, _, txn => (.panic "runtime: goroutine stack exceeds limit", txn)
  | fuel + 1, k, txn =>
    match getFollowLinks root k with
    -- the key `getFollowLinks` returns without a record is nil, so the message names no path
    | .ok none => (.error " not found: not found", txn)
    | .ok (some (k, cr)) =>
      if cr.digest ≠ "" then (.ok (cr, false), txn)
      else
        let dgst : Outcome Digest × Node CacheRecord :=
          match cr.type with
          | .dir =>
            let next := k ++ [0]
            match checksumDir (checksum root fuel) root k next (root.size + 1) (root.seek next)
                (some next) [] txn with
            | (.ok h, txn) => (.ok (sha h), txn)
            | (.error e, txn) => (.error e, txn)
            | (.panic e, txn) => (.panic e, txn)
          | _ => (fs.digestOf (stringOf (convertKeyToPath (trimSuffix k [0]))), txn)
        match dgst with
        | (.ok dgst, txn) =>
          let cr2 : CacheRecord := ⟨dgst, cr.type, cr.linkname⟩
          (.ok (cr2, true), txn.insert k cr2)
        | (.error e, txn) => (.error e, txn)
        | (.panic e, txn) => (.panic e, txn)
    | .error e => (.error e, txn)
    | .panic e => (.panic e, txn)

/-- `lazyChecksum`: the tree scanned first if the path needs it, and the records whose digests
were computed kept in it. -/
def lazyChecksum (p : String) (cc : CacheContext) : Outcome CacheRecord × CacheContext :=
  match needsScan cc.tree p with
  | .ok scan =>
    match (if scan then scanPath fs p cc else (.ok (), cc)) with
    | (.ok (), cc) =>
      let root := cc.tree
      match checksum sha fs root (root.size + 1) (convertPathToKey (keyOf p)) root with
      | (.ok (cr, updated), txn) => (.ok cr, { cc with tree := txn, dirty := updated })
      | (.error e, _) => (.error e, cc)
      | (.panic e, _) => (.panic e, cc)
    | (.error e, cc) => (.error e, cc)
    | (.panic e, cc) => (.panic e, cc)
  | .error e => (.error e, cc)
  | .panic e => (.panic e, cc)

/-- `checksumNoFollow`: a record with a digest in the tree when no transaction is open, or the
open transaction committed and the digest computed. The deferred save leaves the tree clean. -/
def checksumNoFollow (p : String) (cc : CacheContext) : Outcome CacheRecord × CacheContext :=
  let p := Path.join ["/", p]
  let p := if p = "/" then "" else p
  let saved : Option CacheRecord :=
    match cc.txn with
    | none =>
      match cc.tree.get (convertPathToKey (keyOf p)) with
      | some cr => if cr.digest ≠ "" then some cr else none
      | none => none
    | some _ => none
  match saved with
  | some cr => (.ok cr, cc)
  | none =>
    let cc := if cc.txn.isSome then commitActiveTransaction ord cc else cc
    let (r, cc) := lazyChecksum sha fs p cc
    (r, { cc with dirty := false })

/-- The loop of `cacheContext.Checksum`, with the links it may still follow. -/
def checksumLoop : Nat → String → CacheContext → Outcome Digest × CacheContext
  | 0, p, cc => (.error ("too many symlinks: " ++ p), cc)
  | left + 1, p, cc =>
    match checksumNoFollow sha fs ord p cc with
    | (.ok cr, cc) =>
      if cr.type = .symlink then
        let link :=
          if !Path.isAbs cr.linkname then Path.join [Path.dir p, cr.linkname] else cr.linkname
        checksumLoop left link cc
      else (.ok cr.digest, cc)
    | (.error e, cc) => (.error e, cc)
    | (.panic e, cc) => (.panic e, cc)

/-- `cacheContext.Checksum`: it follows up to `maxSymlinkLimit + 1`, 256, links. Go tells it
from the inner `checksum` by case only. -/
def Checksum (p : String) (cc : CacheContext) : Outcome Digest × CacheContext :=
  checksumLoop sha fs ord 256 p cc

end Digests

/-! ### Two trees built from changes -/

/-- A hash that tells its inputs apart: the bytes in hex after `sha256:`. -/
def hexSha (bs : List UInt8) : Digest :=
  let hex (n : Nat) : Char := if n < 10 then Char.ofNat (48 + n) else Char.ofNat (87 + n)
  "sha256:" ++ String.ofList (bs.flatMap fun b => [hex (b.toNat / 16), hex (b.toNat % 16)])

/-- A snapshot that cannot be mounted; the checksums below never read it. -/
def unmounted : Mounted := ⟨fun _ => .error "not mounted", fun _ => .error "not mounted"⟩

/-- The directory `/a` with the directory `/a/\xff` in it. The digest of `/a` hashes its header
and its one child, but the digest of the root hashes, after its header and `/a`, the header of
`/a/\xff` too: the seek past `/a` goes down into the node of `/a/\xff`, which has an edge. -/
theorem Checksum_reads_grandchild_header :
    let cc : CacheContext := (handleChanges hexSha
      [(.add, "/a", ⟨true, false, some "", some "sha256:a"⟩),
       (.add, "/a/\xff", ⟨true, false, some "", some "sha256:b"⟩)] .empty).2
    let dA : Digest :=
      hexSha ([0] ++ keyOf "sha256:a" ++ [0, 0xff] ++ keyOf (hexSha ([0] ++ keyOf "sha256:b")))
    (Checksum hexSha unmounted .stored "/a" cc).1 = .ok dA ∧
    (Checksum hexSha unmounted .stored "/" cc).1 =
      .ok (hexSha ([0] ++ keyOf (hexSha []) ++ [0, 97] ++ keyOf dA ++
        [0, 97, 0, 0xff, 0] ++ keyOf "sha256:b")) := by
  decide +kernel

/-- The symlink `/x` to `/y`, and the file `/y/t/f`. `/x/t` resolves to `/y/t`, through the link
at its parent, but `/x/t/f` is not found: its parent resolves to the directory `/y/t`, which
`getFollowLinksWalk` does not look into. -/
theorem Checksum_not_found_below_linked_dir :
    let cc : CacheContext := (handleChanges hexSha
      [(.add, "/x", ⟨false, true, some "/y", some "sha256:l"⟩),
       (.add, "/y", ⟨true, false, some "", some "sha256:y"⟩),
       (.add, "/y/t", ⟨true, false, some "", some "sha256:t"⟩),
       (.add, "/y/t/f", ⟨false, false, some "", some "sha256:f"⟩)] .empty).2
    (Checksum hexSha unmounted .stored "/x/t" cc).1 =
        (Checksum hexSha unmounted .stored "/y/t" cc).1 ∧
      (Checksum hexSha unmounted .stored "/x/t/f" cc).1 = .error " not found: not found" ∧
      (Checksum hexSha unmounted .stored "/y/t/f" cc).1 = .ok "sha256:f" := by
  decide +kernel

end Buildkit.Contenthash
