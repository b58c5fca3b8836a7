import Buildkit.Solver.Types

/-!
# The LLB messages

The messages of `solver/pb/ops.proto` that the modelled functions read and write. A message
field that is a pointer in the generated Go code (`*Meta`, `*CacheOpt`, ...) is an `Option`; a
`map<string, string>` is a list of entries, as the loops over it see it; an enumeration is an
inductive type. `Platform`, `WorkerConstraints`, `CopyOp` and `BuildOp` are not read by any
modelled function and are left out.
-/

namespace Buildkit

namespace Pb

/-- `pb.Input`: the digest of the op that produces the input, and the output index. -/
structure Input where
  digest : Digest
  index : Int
  deriving DecidableEq, Repr

/-- `pb.NetMode`. -/
inductive NetMode
  | unset
  | host
  | none
  deriving DecidableEq, Repr

/-- `pb.ProxyEnv`. -/
structure ProxyEnv where
  httpProxy : String
  httpsProxy : String
  ftpProxy : String
  noProxy : String
  deriving DecidableEq, Repr

/-- `pb.HostIP`. -/
structure HostIP where
  host : String
  ip : String
  deriving DecidableEq, Repr

/-- `pb.Meta`. -/
structure Meta where
  args : List String
  env : List String
  cwd : String
  user : String
  proxyEnv : Option ProxyEnv
  extraHosts : List HostIP
  deriving DecidableEq, Repr

/-- `pb.MountType`. -/
inductive MountType
  | bind
  | secret
  | ssh
  | cache
  | tmpfs
  deriving DecidableEq, Repr

/-- The name `MountType.String` gives. -/
def MountType.name : MountType → String
  | .bind => "BIND"
  | .secret => "SECRET"
  | .ssh => "SSH"
  | .cache => "CACHE"
  | .tmpfs => "TMPFS"

/-- `pb.CacheSharingOpt`. -/
inductive CacheSharingOpt
  | shared
  | «private»
  | locked
  deriving DecidableEq, Repr

/-- `pb.CacheOpt`. -/
structure CacheOpt where
  id : String
  sharing : CacheSharingOpt
  deriving DecidableEq, Repr

/-- `pb.SecretOpt`, and `pb.SSHOpt`, which has the same fields. -/
structure SecretOpt where
  id : String
  uid : Nat
  gid : Nat
  mode : Nat
  optional : Bool
  deriving DecidableEq, Repr

/-- `pb.Empty`, the input index of a mount without input. -/
def empty : Int := -1

/-- `pb.SkipOutput`, the output index of a mount without output. -/
def skipOutput : Int := -1

/-- `pb.RootMount`. -/
def rootMount : String := "/"

/-- `pb.Mount`. -/
structure Mount where
  input : Int
  selector : String
  dest : String
  output : Int
  readonly : Bool
  mountType : MountType
  cacheOpt : Option CacheOpt
  secretOpt : Option SecretOpt
  sshOpt : Option SecretOpt
  deriving DecidableEq, Repr

/-- `pb.ExecOp`. -/
structure ExecOp where
  «meta» : Option Meta
  mounts : List Mount
  network : NetMode
  deriving DecidableEq, Repr

/-- `pb.SourceOp`: the identifier and the attributes. -/
structure SourceOp where
  identifier : String
  attrs : List (String × String)
  deriving DecidableEq, Repr

/-- The `op` field of `pb.Op`, a `oneof`; the kinds no modelled function looks into are told
apart only by name. -/
inductive OpValue
  | exec (e : ExecOp)
  | source (s : SourceOp)
  | copy
  | build
  | none
  deriving DecidableEq, Repr

/-- `pb.Op`. -/
structure Op where
  inputs : List Input
  op : OpValue
  deriving DecidableEq, Repr

/-- `pb.OpMetadata`, without `caps`. -/
structure OpMetadata where
  ignoreCache : Bool
  description : List (String × String)
  exportCache : Option Bool
  deriving DecidableEq, Repr

/-- The zero `OpMetadata`, what a Go map gives for a missing key. -/
def OpMetadata.zero : OpMetadata := ⟨false, [], none⟩

/-- `pb.Definition`: the marshalled ops, and the metadata by digest. -/
structure Definition where
  «def» : List String
  metadata : List (Digest × OpMetadata)
  deriving DecidableEq, Repr

end Pb

end Buildkit
