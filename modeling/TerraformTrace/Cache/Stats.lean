import TerraformTrace.Cache.Basic
import TerraformTrace.Number.Binary64

/-!
# TerraformTrace.Cache.Stats

A summary of a cache at one moment. Rates and averages have two decimal places; ages
are differences of clock readings.
-/

namespace TerraformTrace

/-- Counts of a cache's use. -/
structure CacheStats where
  size : Nat
  hits : Nat
  misses : Nat
  /-- Mean number of accesses of an entry. -/
  averageAccesses : Binary64
  /-- Age of the entry stored first. -/
  oldestAge : Binary64
  /-- Age of the entry stored last. -/
  newestAge : Binary64
deriving DecidableEq, Repr

/-- Reads that found a value, as a percentage of all reads. -/
def CacheStats.hitRate (stats : CacheStats) : Binary64 :=
  let reads := stats.hits + stats.misses
  if reads = 0 then .zero
  else (Binary64.ofRatio false stats.hits reads * Binary64.ofNat 100).roundPlaces 2

namespace Cache

/-- The least of some numbers by a relation, or `start`. -/
def extreme (less : Binary64 → Binary64 → Bool) (start : Binary64) (xs : List Binary64) :
    Binary64 :=
  xs.foldl (fun best x => if less x best then x else best) start

/-- The summary of a cache. Without entries, the average and the ages are zero. -/
def stats {α : Type} (cache : Cache Binary64 α) : CacheStats :=
  let created := cache.entries.map (·.2.created)
  let accesses := cache.entries.foldl (fun total entry => total + entry.2.accesses) 0
  let summary : CacheStats :=
    { size := cache.size, hits := cache.hits, misses := cache.misses
      averageAccesses := .zero, oldestAge := .zero, newestAge := .zero }
  match created with
  | [] => summary
  | first :: rest =>
    { summary with
      averageAccesses := (Binary64.ofRatio false accesses cache.size).roundPlaces 2
      oldestAge := cache.now - extreme (fun x y => x < y) first rest
      newestAge := cache.now - extreme (fun x y => y < x) first rest }

end Cache

end TerraformTrace
