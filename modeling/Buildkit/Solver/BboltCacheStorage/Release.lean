import Buildkit.Solver.BboltCacheStorage
import Buildkit.Solver.MemoryCacheStorage

/-!
# `Release` in the bbolt store and in the in-memory store

The cascade of the bbolt store stops at a key without a result bucket: its
`emptyBranchWithParents` returns at once for such a key, before it looks at the key's links or
backlinks. A key that only ever received links has no result bucket. So on a chain of links
`q → p → k` with a result on `k`, releasing the result deletes `k` and the link `p → k`, and
then stops at `p`: the link `q → p` stays, and `Exists q` still holds. The in-memory store goes
on through `p` to `q` and deletes both, which is what `testResultReleaseMultiLevel` of the
storage test suite expects of every store.
-/

namespace Buildkit

open Bolt BboltCacheStorage

/-- After the links `q → p → k`, a result `r` on `k` and its release, the bbolt store still knows
`q` and the in-memory store does not, for every encoding of links without `@` and in every
iteration order. -/
theorem release_chain_exists_diverges (marshal : CacheInfoLink → String) {l : CacheInfoLink}
    (hm : '@' ∉ (marshal l).toList) (ord ord' : IterOrder String) :
    (newStore.run marshal ord [.addLink "q" l "p", .addLink "p" l "k",
        .addResult "k" ⟨0, "r"⟩, .release "r"]).map (·.exists "q") = some true ∧
      (newInMemoryCacheStorage.run ord' [.addLink "q" l "p", .addLink "p" l "k",
        .addResult "k" ⟨0, "r"⟩, .release "r"]).map (·.exists "q") = some false := by
  -- the link `p → k` splits back into its target, which the cascade from `k` compares with `k`
  have hk : splitKey (linkKey marshal l "k") = [marshal l, "k"] := splitKey_linkKey hm (by decide)
  constructor
  · simp [Store.run, Store.apply, Store.addLink, Store.addResult, Store.release,
      Store.releaseHelper, Store.emptyBranchWithParents, Store.emptyParent, Store.dropLinksTo,
      Store.releaseFuel, Store.exists, linkKey_ne_empty, hk, isEmptyBucket, deleteBucket, newStore]
  · simp [InMemoryStore.run, InMemoryStore.apply, InMemoryStore.addLink, InMemoryStore.addResult,
      InMemoryStore.release, InMemoryStore.releaseKey, InMemoryStore.dropResult,
      InMemoryStore.emptyBranchWithParents, InMemoryStore.emptyParent, InMemoryStore.releaseFuel,
      InMemoryStore.exists, InMemoryStore.ensureKey, InMemoryStore.modifyKey,
      InMemoryKey.removeLinksTo, newInMemoryCacheStorage, newInMemoryKey]

theorem release_chain_exists_diverges_stored :
    '@' ∉ "L".toList ∧
      (newStore.run (fun _ => "L") IterOrder.stored [.addLink "q" ⟨0, 0, "d", ""⟩ "p",
          .addLink "p" ⟨0, 0, "d", ""⟩ "k", .addResult "k" ⟨0, "r"⟩, .release "r"]).map
          (·.exists "q") = some true ∧
      (newInMemoryCacheStorage.run IterOrder.stored [.addLink "q" ⟨0, 0, "d", ""⟩ "p",
          .addLink "p" ⟨0, 0, "d", ""⟩ "k", .addResult "k" ⟨0, "r"⟩, .release "r"]).map
          (·.exists "q") = some false :=
  ⟨by decide, release_chain_exists_diverges (fun _ => "L") (by decide) _ _⟩

end Buildkit
