import TerraformTrace.Text.Basic

/-!
# TerraformTrace.Cache.Basic

A bounded cache whose entries expire. Entries stand in the order of their last use;
a new key in a full cache takes the place of the least recently used one. An entry
older than the time to live is dropped when it is read or swept, however often it was
used. Invalidation drops every entry whose key contains a fragment.

The cache is parametric in the time type: expiry needs only a difference and an order.
The clock is part of the cache, because every operation happens at one reading of it.
-/

namespace TerraformTrace

/-- A stored value and its use. -/
structure CacheEntry (τ α : Type) where
  value : α
  /-- When the value was stored. -/
  created : τ
  /-- One for storing the value, and one for every read since. -/
  accesses : Nat
  /-- When the value was last stored or read. -/
  accessed : τ
deriving DecidableEq, Repr

/-- A clock and what is stored. -/
structure Cache (τ α : Type) where
  /-- How long an entry may be read after it was stored. -/
  ttl : τ
  /-- The greatest number of entries. -/
  capacity : Nat
  /-- The reading of the clock. -/
  now : τ
  /-- The entries, least recently used first. -/
  entries : List (Text × CacheEntry τ α) := []
  /-- Reads that found a value. -/
  hits : Nat := 0
  /-- Reads that found none. -/
  misses : Nat := 0
  /-- Whether expired entries are removed periodically. -/
  sweeping : Bool := false
deriving Repr

/-- Why a cache cannot be made or a sweeper not be started. -/
inductive CacheError
  /-- A cache holds at least one entry. -/
  | capacity
  /-- Periodic sweeps need something that runs them. -/
  | noLoop
deriving DecidableEq, Repr

/-- The wording of an error. -/
def CacheError.message : CacheError → Text
  | .capacity => "Cache capacity must be at least 1".toList
  | .noLoop => "no running event loop".toList

namespace Cache

variable {τ α : Type}

/-- An empty cache, if it may hold an entry. -/
def create (ttl : τ) (capacity : Int) (now : τ) : Except CacheError (Cache τ α) :=
  if capacity < 1 then .error .capacity else .ok { ttl, capacity := capacity.toNat, now }

/-- Number of entries, expired ones too. -/
def size (cache : Cache τ α) : Nat := cache.entries.length

/-- The keys, least recently used first. -/
def keys (cache : Cache τ α) : List Text := cache.entries.map (·.1)

/-- Whether a key has an entry, expired or not. -/
def contains (cache : Cache τ α) (key : Text) : Bool := cache.keys.contains key

/-- The entries without that of a key. -/
def without (cache : Cache τ α) (key : Text) : List (Text × CacheEntry τ α) :=
  cache.entries.filter (·.1 ≠ key)

/-- Stores a value now. A new key in a full cache displaces the least recently used
entry. -/
def set (cache : Cache τ α) (key : Text) (value : α) : Cache τ α :=
  let room :=
    if !cache.contains key && cache.capacity ≤ cache.size then
      { cache with entries := cache.entries.tail }
    else cache
  { room with
    entries := room.without key ++
      [(key, { value, created := cache.now, accesses := 1, accessed := cache.now })] }

/-- Drops every entry whose key contains a fragment, and counts them. The empty fragment
stands for nothing. -/
def invalidate (cache : Cache τ α) (fragment : Text) : Nat × Cache τ α :=
  if fragment.isEmpty then (0, cache)
  else
    let kept := cache.entries.filter fun entry => !Text.occursIn fragment entry.1
    (cache.size - kept.length, { cache with entries := kept })

/-- Drops every entry and resets the counters. -/
def clear (cache : Cache τ α) : Cache τ α := { cache with entries := [], hits := 0, misses := 0 }

/-- Lets time pass. -/
def advance [Add τ] (cache : Cache τ α) (by_ : τ) : Cache τ α :=
  { cache with now := cache.now + by_ }

section Expiry

variable [Sub τ] [LT τ] [DecidableLT τ]

/-- Whether an entry is older than the time to live. -/
def isExpired (cache : Cache τ α) (entry : CacheEntry τ α) : Bool :=
  cache.ttl < cache.now - entry.created

/-- Reads a value. An expired entry is dropped and counts as a miss; a hit becomes the
most recently used entry. -/
def get (cache : Cache τ α) (key : Text) : Option α × Cache τ α :=
  match cache.entries.lookup key with
  | none => (none, { cache with misses := cache.misses + 1 })
  | some entry =>
    if cache.isExpired entry then
      (none, { cache with entries := cache.without key, misses := cache.misses + 1 })
    else
      let used := { entry with accesses := entry.accesses + 1, accessed := cache.now }
      (some entry.value,
        { cache with entries := cache.without key ++ [(key, used)], hits := cache.hits + 1 })

/-- Drops every expired entry, and counts them. -/
def sweep (cache : Cache τ α) : Nat × Cache τ α :=
  let kept := cache.entries.filter fun entry => !cache.isExpired entry.2
  (cache.size - kept.length, { cache with entries := kept })

/-- One period of the sweeper, if it runs. -/
def tick (cache : Cache τ α) : Cache τ α := if cache.sweeping then cache.sweep.2 else cache

end Expiry

/-- Starts the periodic sweep; `running` says whether there is something to run it. -/
def startSweeper (cache : Cache τ α) (running : Bool) : Except CacheError (Cache τ α) :=
  if cache.sweeping then .ok cache
  else if running then .ok { cache with sweeping := true }
  else .error .noLoop

/-- Stops the sweeper. -/
def stopSweeper (cache : Cache τ α) : Cache τ α := { cache with sweeping := false }

end Cache

end TerraformTrace
