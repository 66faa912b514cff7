import Mathlib.Algebra.Order.Ring.Int
import Mathlib.Data.Finset.Card
import TerraformTrace.Cache.Basic
import TerraformTrace.Number.Binary64

/-!
# TerraformTrace.Proofs.CacheHistory

What a cache holds follows from what was done to it. A history lists the moments of a cache,
the latest first: the step, the reading of the clock, and what a read found. `Tracks` says what
the entries and counters of a cache are in terms of its history, and every step keeps it.

For the proof there are two sorts of steps. Most of them drop entries and add none
(`Tracks.drop`): a read that finds nothing, an invalidation, a clearing, a sweep, a wait. The
others move one key behind all others (`Tracks.use`): a read that finds its key, and a write,
which drops the first entry of a full cache before.

**Time.** Readings of the clock have to be ordered, and the clock must not be put back; that
is all that the entries and counters ask for (`run_entries_spec`), and numbers with rounding
will do. What a read gives depends on differences of readings (`run_get_spec`), so there they
are exact: time is an ordered group. The two differ in when the time of an entry counts as over,
which `Tracks` leaves open (`IsDeadline`).
-/

namespace TerraformTrace

theorem Text.occursIn_iff {fragment text : Text} :
    Text.occursIn fragment text = true ↔ fragment <:+: text := by
  induction text with
  | nil => simp [Text.occursIn]
  | cons c rest ih =>
    rw [Text.occursIn, Bool.or_eq_true, List.isPrefixOf_iff_prefix, ih, List.infix_cons_iff]

/-! ### Numbers as readings of a clock -/

namespace Binary64

/-- At a lower exponent the significand is a multiple. -/
theorem alignTo_eq {lower least exponent : Int} (hlower : lower ≤ least) (hleast : least ≤ exponent)
    (negative : Bool) (significand : Nat) :
    alignTo lower negative significand exponent =
      alignTo least negative significand exponent * Nat.pow 2 (least - lower).toNat := by
  have hshift : (exponent - lower).toNat = (exponent - least).toNat + (least - lower).toNat := by
    omega
  have hmagnitude : significand * Nat.pow 2 (exponent - lower).toNat =
      significand * Nat.pow 2 (exponent - least).toNat * Nat.pow 2 (least - lower).toNat := by
    rw [hshift, Nat.mul_assoc]
    exact congrArg _ (Nat.pow_add ..)
  unfold alignTo
  cases negative with
  | true => simp only [if_true, hmagnitude, Int.natCast_mul, Int.neg_mul]
  | false => simp only [Bool.false_eq_true, if_false, hmagnitude, Int.natCast_mul]

/-- Finite numbers are compared at any exponent that is low enough. -/
theorem finite_lt_iff {a b : Bool} {m n : Nat} {lower p q : Int} (hp : lower ≤ p) (hq : lower ≤ q) :
    finite a m p < finite b n q ↔ alignTo lower a m p < alignTo lower b n q := by
  have hmin : lower ≤ min p q := Int.le_min.mpr ⟨hp, hq⟩
  have hpos : (0 : Int) < Nat.pow 2 (min p q - lower).toNat :=
    Int.natCast_pos.mpr (Nat.two_pow_pos _)
  rw [alignTo_eq hmin (Int.min_le_left ..), alignTo_eq hmin (Int.min_le_right ..),
    Int.mul_lt_mul_right hpos]
  exact decide_eq_true_iff

theorem lt_trans {x y z : Binary64} (hxy : x < y) (hyz : y < z) : x < z := by
  match x, y, z with
  | .finite a m p, .finite b n q, .finite c o r =>
    have hp : min p (min q r) ≤ p := Int.min_le_left ..
    have hq : min p (min q r) ≤ q := by omega
    have hr : min p (min q r) ≤ r := by omega
    rw [finite_lt_iff hp hq] at hxy
    rw [finite_lt_iff hq hr] at hyz
    exact (finite_lt_iff hp hr).mpr (Int.lt_trans hxy hyz)
  | .infinity a, .infinity b, .infinity c => cases a <;> cases b <;> cases c <;> trivial
  | .infinity a, .infinity b, .finite .. => cases a <;> cases b <;> trivial
  | .infinity a, .finite .., .infinity c => cases a <;> cases c <;> trivial
  | .infinity a, .finite .., .finite .. => exact hxy
  | .finite .., .infinity b, .infinity c => cases b <;> cases c <;> trivial
  | .finite .., .infinity b, .finite .. => cases b <;> trivial
  | .finite .., .finite .., .infinity c => exact hyz
  | .nan, _, _ | .infinity _, .nan, _ | .finite .., .nan, _ => cases hxy
  | .infinity _, .infinity _, .nan | .infinity _, .finite .., .nan
  | .finite .., .infinity _, .nan | .finite .., .finite .., .nan => cases hyz

instance : LE Binary64 := ⟨fun x y => x = y ∨ x < y⟩

instance : Std.IsPreorder Binary64 where
  le_refl _ := .inl rfl
  le_trans := by
    rintro x y z (rfl | hxy) (rfl | hyz)
    · exact .inl rfl
    · exact .inr hyz
    · exact .inr hxy
    · exact .inr (lt_trans hxy hyz)

end Binary64

namespace Cache

variable {τ α : Type}

theorem mem_keys {cache : Cache τ α} {key : Text} :
    key ∈ cache.keys ↔ ∃ entry, (key, entry) ∈ cache.entries := by
  simp [keys]

/-! ### Histories -/

/-- What can be done to a cache. -/
inductive Step (τ α : Type)
  | get (key : Text)
  | set (key : Text) (value : α)
  | invalidate (fragment : Text)
  | clear
  | sweep
  | wait (time : τ)

/-- The clock is never put back. -/
def Step.IsForward [Zero τ] [LE τ] : Step τ α → Prop
  | .wait time => 0 ≤ time
  | _ => True

/-- A step that was taken. -/
structure Moment (τ α : Type) where
  step : Step τ α
  /-- The reading of the clock before the step. -/
  time : τ
  /-- What a read found. -/
  found : Option α

namespace Moment

variable (moment : Moment τ α)

/-- The key that a moment used: it was set, or read and found. -/
def used? : Option Text :=
  match moment.step with
  | .set key _ => some key
  | .get key => if moment.found.isSome then some key else none
  | _ => none

/-- Whether a moment set a key. -/
def sets (key : Text) : Bool :=
  match moment.step with
  | .set other _ => other = key
  | _ => false

/-- Whether a moment says what a key holds from then on: it sets the key, drops the keys with
a fragment that the key has, or drops all keys. -/
def decides (key : Text) : Bool :=
  match moment.step with
  | .set other _ => other = key
  | .invalidate fragment => fragment ≠ [] ∧ fragment <:+: key
  | .clear => true
  | _ => false

/-- Whether a moment was a read. -/
def isRead : Bool :=
  match moment.step with
  | .get _ => true
  | _ => false

/-- Whether a moment cleared the cache. -/
def isClear : Bool :=
  match moment.step with
  | .clear => true
  | _ => false

variable {moment}

theorem used?_of_sets {key : Text} (h : moment.sets key = true) : moment.used? = some key := by
  unfold sets at h
  split at h
  next other _ hstep =>
    rw [decide_eq_true_eq] at h
    simp [used?, hstep, h]
  · cases h

theorem sets_eq_false {key : Text} (h : moment.used? ≠ some key) : moment.sets key = false :=
  Bool.eq_false_iff.mpr fun hsets => h (used?_of_sets hsets)

end Moment

/-- The moments of a cache, the latest first. -/
abbrev History (τ α : Type) := List (Moment τ α)

namespace History

/-- The latest moment that decided on a key set it to a value. -/
def LatestSet (history : History τ α) (key : Text) (time : τ) (value : α) : Prop :=
  history.find? (·.decides key) = some { step := .set key value, time, found := none }

/-- When a key was last used. -/
def lastUse? (history : History τ α) (key : Text) : Option τ :=
  (history.find? (·.used? = some key)).map (·.time)

/-- The keys used since the last use of a key, with repetitions. -/
def usedSince (history : History τ α) (key : Text) : List Text :=
  (history.filterMap Moment.used?).takeWhile (· ≠ key)

/-- How often a key was read and found since it was last set. -/
def hitsSince (history : History τ α) (key : Text) : Nat :=
  (history.takeWhile (!·.sets key)).countP (·.used? = some key)

/-- How many reads there were since the cache was last cleared. -/
def readsSinceClear (history : History τ α) : Nat :=
  (history.takeWhile (!·.isClear)).countP Moment.isRead

variable {history : History τ α} {moment : Moment τ α} {key : Text}

theorem LatestSet.unique {time time' : τ} {value value' : α} (h : history.LatestSet key time value)
    (h' : history.LatestSet key time' value') : time = time' ∧ value = value' := by
  unfold LatestSet at h h'
  rw [h] at h'
  cases h'
  exact ⟨rfl, rfl⟩

theorem latestSet_cons {time : τ} {value : α} (h : moment.decides key = false) :
    LatestSet (moment :: history) key time value ↔ history.LatestSet key time value := by
  simp [LatestSet, h]

/-- A moment that decides on a key without setting it leaves it with no value. -/
theorem not_latestSet_cons {time : τ} {value : α} (h : moment.decides key = true)
    (hsets : moment.sets key = false) : ¬ LatestSet (moment :: history) key time value := by
  intro hlatest
  simp only [LatestSet, List.find?_cons, h, Option.some.injEq] at hlatest
  simp [hlatest, Moment.sets] at hsets

theorem lastUse?_cons (h : moment.used? ≠ some key) :
    lastUse? (moment :: history) key = history.lastUse? key := by
  simp [lastUse?, h]

theorem hitsSince_cons (h : moment.used? ≠ some key) :
    hitsSince (moment :: history) key = history.hitsSince key := by
  simp [hitsSince, Moment.sets_eq_false h, h]

theorem readsSinceClear_read (h : moment.isRead = true) :
    readsSinceClear (moment :: history) = history.readsSinceClear + 1 := by
  have hclear : moment.isClear = false := by
    unfold Moment.isRead at h
    split at h
    next hstep => simp [Moment.isClear, hstep]
    · cases h
  simp [readsSinceClear, hclear, h]

theorem readsSinceClear_skip (hclear : moment.isClear = false) (h : moment.isRead = false) :
    readsSinceClear (moment :: history) = history.readsSinceClear := by
  simp [readsSinceClear, hclear, h]

theorem usedSince_cons_of_none (h : moment.used? = none) :
    usedSince (moment :: history) key = history.usedSince key := by
  simp [usedSince, h]

theorem usedSince_cons_of_ne {other : Text} (h : moment.used? = some other) (hne : other ≠ key) :
    usedSince (moment :: history) key = other :: history.usedSince key := by
  simp [usedSince, h, hne]

end History

/-! ### What a cache owes to its history -/

/-- A cache with all that was done to it. -/
structure Recorded (τ α : Type) where
  cache : Cache τ α
  history : History τ α := []

/-- What the entry of a key is, by the history. -/
structure Owed [LE τ] (history : History τ α) (now : τ) (key : Text) (entry : CacheEntry τ α) :
    Prop where
  latest : history.LatestSet key entry.created entry.value
  lastUse : history.lastUse? key = some entry.accessed
  created : entry.created ≤ entry.accessed
  accessed : entry.accessed ≤ now
  accesses : entry.accesses = 1 + history.hitsSince key

/-- A moment that neither uses a key nor decides on it changes nothing for its entry. -/
theorem Owed.cons [LE τ] [Std.IsPreorder τ] {history : History τ α} {now now' : τ} {key : Text}
    {entry : CacheEntry τ α} {moment : Moment τ α} (h : Owed history now key entry)
    (hnow : now ≤ now') (hunused : moment.used? ≠ some key)
    (hdecides : moment.decides key = false) : Owed (moment :: history) now' key entry where
  latest := (History.latestSet_cons hdecides).mpr h.latest
  lastUse := (History.lastUse?_cons hunused).trans h.lastUse
  created := h.created
  accessed := Std.le_trans h.accessed hnow
  accesses := by rw [History.hitsSince_cons hunused, h.accesses]

section Steps

variable [Add τ] [Sub τ] [LT τ] [DecidableLT τ]

/-- The cache after a step. -/
def apply (cache : Cache τ α) : Step τ α → Cache τ α
  | .get key => (cache.get key).2
  | .set key value => cache.set key value
  | .invalidate fragment => (cache.invalidate fragment).2
  | .clear => cache.clear
  | .sweep => cache.sweep.2
  | .wait time => cache.advance time

/-- What a step finds. -/
def finds (cache : Cache τ α) : Step τ α → Option α
  | .get key => (cache.get key).1
  | _ => none

/-- The moment at which a step is taken. -/
def Recorded.moment (past : Recorded τ α) (step : Step τ α) : Moment τ α where
  step
  time := past.cache.now
  found := past.cache.finds step

/-- Takes a step. -/
def Recorded.take (past : Recorded τ α) (step : Step τ α) : Recorded τ α where
  cache := past.cache.apply step
  history := past.moment step :: past.history

/-- Takes some steps, one after the other. -/
def Recorded.run (past : Recorded τ α) (steps : List (Step τ α)) : Recorded τ α :=
  steps.foldl Recorded.take past

section Clock

variable [LE τ]

/-- A step that does not put the clock back. -/
def Recorded.GoesForward (past : Recorded τ α) : Step τ α → Prop
  | .wait time => past.cache.now ≤ past.cache.now + time
  | _ => True

/-- Steps of which none puts the clock back. -/
def Recorded.RunsForward (past : Recorded τ α) : List (Step τ α) → Prop
  | [] => True
  | step :: steps => past.GoesForward step ∧ (past.take step).RunsForward steps

end Clock

/-! ### What a read can do -/

omit [Add τ] in
/-- A read misses, finds an expired entry and drops it, or finds a value and makes its key the
last one. -/
theorem get_cases (cache : Cache τ α) (key : Text) :
    (key ∉ cache.keys ∧ cache.get key = (none, { cache with misses := cache.misses + 1 })) ∨
    ∃ entry, (key, entry) ∈ cache.entries ∧
      ((cache.ttl < cache.now - entry.created ∧ cache.get key =
        (none, { cache with entries := cache.without key, misses := cache.misses + 1 })) ∨
      (¬cache.ttl < cache.now - entry.created ∧ cache.get key = (some entry.value,
        { cache with
          entries := cache.without key ++
            [(key, { entry with accesses := entry.accesses + 1, accessed := cache.now })]
          hits := cache.hits + 1 }))) := by
  unfold get
  split
  next hlookup =>
    refine .inl ⟨?_, rfl⟩
    rw [mem_keys]
    rintro ⟨entry, hmem⟩
    exact absurd rfl (bne_iff_ne.mp (List.lookup_eq_none_iff.mp hlookup _ hmem))
  next entry hlookup =>
    obtain ⟨before, after, hentries, -⟩ := List.lookup_eq_some_iff.mp hlookup
    refine .inr ⟨entry, by simp [hentries], ?_⟩
    split
    next hexpired => exact .inl ⟨by simpa [isExpired] using hexpired, rfl⟩
    next hfresh => exact .inr ⟨by simpa [isExpired] using hfresh, rfl⟩

end Steps

/-! ### Steps -/

/-- A way to say at what readings of the clock an entry from some time is out of date: when it
has expired, and from then on. -/
structure IsDeadline [LE τ] [Sub τ] [LT τ] (ttl : τ) (Over : τ → τ → Prop) : Prop where
  expired : ∀ {now time}, ttl < now - time → Over now time
  later : ∀ {now now' time}, now ≤ now' → Over now time → Over now' time

/-- What a cache is, by its history. A key that was set and not dropped since has an entry,
unless its time is over or as many other keys were used after it as the cache has room for. -/
structure Recorded.Tracks [LE τ] (ttl : τ) (capacity : Nat) (Over : τ → τ → Prop)
    (past : Recorded τ α) : Prop where
  ttl_eq : past.cache.ttl = ttl
  capacity_eq : past.cache.capacity = capacity
  size : past.cache.size ≤ capacity
  nodup : past.cache.keys.Nodup
  order : past.cache.keys.Pairwise fun earlier later => later ∈ past.history.usedSince earlier
  accessed : past.cache.entries.Pairwise fun earlier later => earlier.2.accessed ≤ later.2.accessed
  owed : ∀ key entry, (key, entry) ∈ past.cache.entries →
    Owed past.history past.cache.now key entry
  counted : past.cache.hits + past.cache.misses = past.history.readsSinceClear
  gone : ∀ key time value, past.history.LatestSet key time value →
    key ∈ past.cache.keys ∨ Over past.cache.now time ∨
      capacity ≤ (past.history.usedSince key).toFinset.card

namespace Recorded.Tracks

open History

variable [LE τ] {ttl : τ} {capacity : Nat} {Over : τ → τ → Prop}
  {past : Recorded τ α} {moment : Moment τ α}

section Taken

variable (h : past.Tracks ttl capacity Over)

include h

/-- The first of the entries of a full cache gives way to a key that is new: all other keys were
used after it, and so is the new one. -/
theorem card_usedSince_of_full {key : Text}
    (hused : moment.used? = some key) (hnew : key ∉ past.cache.keys)
    (hfull : capacity ≤ past.cache.size) {first : Text × CacheEntry τ α}
    {rest : List (Text × CacheEntry τ α)} (hentries : past.cache.entries = first :: rest) :
    capacity ≤ (usedSince (moment :: past.history) first.1).toFinset.card := by
  have hkeys : past.cache.keys = first.1 :: rest.map (·.1) := by simp [Cache.keys, hentries]
  have hne : key ≠ first.1 := fun heq => hnew (by simp [hkeys, heq])
  have hnodup := h.nodup
  have horder := h.order
  rw [hkeys] at hnew hnodup horder
  have hlater : (key :: rest.map (·.1)).toFinset ⊆
      (usedSince (moment :: past.history) first.1).toFinset := by
    rw [usedSince_cons_of_ne hused hne]
    intro other hmem
    rw [List.mem_toFinset, List.mem_cons] at hmem ⊢
    exact hmem.imp_right ((List.pairwise_cons.mp horder).1 other)
  calc capacity
      ≤ (key :: rest.map (·.1)).length := by simpa [Cache.size, hentries] using hfull
    _ = (key :: rest.map (·.1)).toFinset.card :=
        (List.toFinset_card_of_nodup (List.nodup_cons.mpr
          ⟨fun hmem => hnew (List.mem_cons_of_mem _ hmem), (List.nodup_cons.mp hnodup).2⟩)).symm
    _ ≤ _ := Finset.card_le_card hlater

/-- A key that has an entry leaves room when it is taken out. -/
theorem length_without_lt {key : Text}
    (hmem : key ∈ past.cache.keys) : (past.cache.without key).length < capacity := by
  obtain ⟨entry, hmem⟩ := mem_keys.mp hmem
  refine lt_of_lt_of_le ?_ h.size
  exact List.length_filter_lt_length_iff_exists.mpr ⟨(key, entry), hmem, by simp⟩

variable [Std.IsPreorder τ]

/-- A moment that uses a key puts it behind all others. It may drop an entry only if as many
other keys were used after its key as the cache has room for. -/
theorem use {key : Text} {entry : CacheEntry τ α}
    {room : List (Text × CacheEntry τ α)} {hits : Nat}
    (hused : moment.used? = some key)
    (hothers : ∀ other, other ≠ key → moment.decides other = false)
    (howed : Owed (moment :: past.history) past.cache.now key entry)
    (haccessed : entry.accessed = past.cache.now)
    (hroom : room.Sublist past.cache.entries)
    (hsize : (room.filter (·.1 ≠ key)).length < capacity)
    (hevicted : ∀ other entry, (other, entry) ∈ past.cache.entries → other ≠ key →
      (other, entry) ∈ room ∨ capacity ≤ (usedSince (moment :: past.history) other).toFinset.card)
    (hcounted : hits + past.cache.misses = readsSinceClear (moment :: past.history)) :
    Tracks ttl capacity Over
      { cache := { past.cache with entries := room.filter (·.1 ≠ key) ++ [(key, entry)], hits }
        history := moment :: past.history } := by
  have hkept : (room.filter (·.1 ≠ key)).Sublist past.cache.entries :=
    List.filter_sublist.trans hroom
  have hne : ∀ other ∈ room.filter (·.1 ≠ key), other.1 ≠ key := fun other hmem => by
    simpa using (List.mem_filter.mp hmem).2
  have hunused : ∀ other, other ≠ key → moment.used? ≠ some other := fun other hother => by
    simpa [hused] using hother.symm
  have hsince : ∀ other, other ≠ key →
      usedSince (moment :: past.history) other = key :: past.history.usedSince other :=
    fun other hother => usedSince_cons_of_ne hused hother.symm
  constructor
  case ttl_eq => exact h.ttl_eq
  case capacity_eq => exact h.capacity_eq
  case size =>
    rw [Cache.size, List.length_append]
    exact hsize
  case nodup =>
    rw [Cache.keys, List.map_append, List.nodup_append]
    refine ⟨h.nodup.sublist (hkept.map _), List.nodup_singleton _, ?_⟩
    simp only [List.mem_map, List.map_cons, List.map_nil, List.mem_singleton]
    rintro _ ⟨other, hmem, rfl⟩ _ rfl
    exact hne other hmem
  case order =>
    rw [Cache.keys, List.map_append, List.pairwise_append]
    refine ⟨?_, List.pairwise_singleton _ _, ?_⟩
    · refine (h.order.sublist (hkept.map _)).imp_of_mem ?_
      intro earlier later hearlier _ hlater
      obtain ⟨other, hmem, rfl⟩ := List.mem_map.mp hearlier
      rw [hsince _ (hne other hmem)]
      exact List.mem_cons_of_mem _ hlater
    · simp only [List.mem_map, List.map_cons, List.map_nil, List.mem_singleton]
      rintro _ ⟨other, hmem, rfl⟩ _ rfl
      rw [hsince _ (hne other hmem)]
      exact List.mem_cons_self
  case accessed =>
    rw [List.pairwise_append]
    refine ⟨h.accessed.sublist hkept, List.pairwise_singleton _ _, ?_⟩
    rintro other hmem _ hlast
    rw [List.mem_singleton.mp hlast, haccessed]
    exact (h.owed other.1 other.2 (hkept.subset hmem)).accessed
  case owed =>
    intro other found hmem
    rcases List.mem_append.mp hmem with hmem | hlast
    · have hother := hne _ hmem
      exact (h.owed other found (hkept.subset hmem)).cons (Std.le_refl _) (hunused other hother)
        (hothers other hother)
    · obtain ⟨rfl, rfl⟩ := Prod.mk.inj (List.mem_singleton.mp hlast)
      exact howed
  case counted => exact hcounted
  case gone =>
    intro other time value hlatest
    by_cases hother : other = key
    · exact .inl (by simp [Cache.keys, hother])
    rw [latestSet_cons (hothers other hother)] at hlatest
    rcases h.gone other time value hlatest with hmem | hover | hcount
    · obtain ⟨found, hmem⟩ := mem_keys.mp hmem
      rcases hevicted other found hmem hother with hstays | hcount
      · refine .inl (mem_keys.mpr ⟨found, List.mem_append_left _ ?_⟩)
        exact List.mem_filter.mpr ⟨hstays, by simpa using hother⟩
      · exact .inr (.inr hcount)
    · exact .inr (.inl hover)
    · refine .inr (.inr (hcount.trans (Finset.card_le_card ?_)))
      rw [hsince other hother, List.toFinset_cons]
      exact Finset.subset_insert _ _

variable [Sub τ] [LT τ] (hdeadline : IsDeadline ttl Over)

include hdeadline

/-- A moment that uses no key may drop the entries it decides on and those whose time is over. -/
theorem drop {now : τ} {entries : List (Text × CacheEntry τ α)} {hits misses : Nat}
    (hunused : moment.used? = none) (hnow : past.cache.now ≤ now)
    (hentries : entries.Sublist past.cache.entries)
    (hkept : ∀ key entry, (key, entry) ∈ entries → moment.decides key = false)
    (hdropped : ∀ key entry, (key, entry) ∈ past.cache.entries → moment.decides key = false →
      (key, entry) ∈ entries ∨ Over now entry.created)
    (hcounted : hits + misses = readsSinceClear (moment :: past.history)) :
    Tracks ttl capacity Over
      { cache := { past.cache with now, entries, hits, misses }
        history := moment :: past.history } where
  ttl_eq := h.ttl_eq
  capacity_eq := h.capacity_eq
  size := le_trans hentries.length_le h.size
  nodup := h.nodup.sublist (hentries.map _)
  order := by
    simp only [usedSince_cons_of_none hunused]
    exact h.order.sublist (hentries.map _)
  accessed := h.accessed.sublist hentries
  owed key entry hmem :=
    (h.owed key entry (hentries.subset hmem)).cons hnow (by simp [hunused]) (hkept key entry hmem)
  counted := hcounted
  gone key time value hlatest := by
    cases hdecides : moment.decides key with
    | true =>
      have hsets := Moment.sets_eq_false (show moment.used? ≠ some key by simp [hunused])
      exact absurd hlatest (not_latestSet_cons hdecides hsets)
    | false =>
      rw [latestSet_cons hdecides] at hlatest
      simp only [usedSince_cons_of_none hunused]
      rcases h.gone key time value hlatest with hmem | hover | hused
      · obtain ⟨entry, hmem⟩ := mem_keys.mp hmem
        obtain ⟨rfl, -⟩ := (h.owed key entry hmem).latest.unique hlatest
        rcases hdropped key entry hmem hdecides with hkept | hover
        · exact .inl (mem_keys.mpr ⟨entry, hkept⟩)
        · exact .inr (.inl hover)
      · exact .inr (.inl (hdeadline.later hnow hover))
      · exact .inr (.inr hused)

variable [Add τ] [DecidableLT τ]

theorem get (key : Text) :
    (past.take (.get key)).Tracks ttl capacity Over := by
  have hcounted : past.cache.hits + past.cache.misses + 1 =
      readsSinceClear (past.moment (.get key) :: past.history) := by
    rw [readsSinceClear_read rfl, h.counted]
  rcases past.cache.get_cases key with
    ⟨-, hget⟩ | ⟨entry, hmem, ⟨hexpired, hget⟩ | ⟨-, hget⟩⟩
  · have hunused : (past.moment (.get key)).used? = none := by
      simp [Recorded.moment, finds, Moment.used?, hget]
    simp only [Recorded.take, apply, hget]
    exact h.drop hdeadline hunused (Std.le_refl _) (List.Sublist.refl _) (fun _ _ _ => rfl)
      (fun _ _ hmem _ => .inl hmem) hcounted
  · have hunused : (past.moment (.get key)).used? = none := by
      simp [Recorded.moment, finds, Moment.used?, hget]
    simp only [Recorded.take, apply, hget]
    refine h.drop hdeadline hunused (Std.le_refl _) List.filter_sublist (fun _ _ _ => rfl) ?_
      hcounted
    intro other found hfound _
    by_cases hother : other = key
    · subst hother
      -- The entries of one key were all made by its latest write.
      have hlatest := (h.owed other found hfound).latest
      obtain ⟨hcreated, -⟩ := hlatest.unique (h.owed other entry hmem).latest
      rw [hcreated]
      exact .inr (hdeadline.expired (h.ttl_eq ▸ hexpired))
    · exact .inl (List.mem_filter.mpr ⟨hfound, by simpa using hother⟩)
  · have hused : (past.moment (.get key)).used? = some key := by
      simp [Recorded.moment, finds, Moment.used?, hget]
    have howed := h.owed key entry hmem
    simp only [Recorded.take, apply, hget]
    refine h.use hused (fun _ _ => rfl) ?_ rfl (List.Sublist.refl _)
      (h.length_without_lt (mem_keys.mpr ⟨entry, hmem⟩)) (fun _ _ hmem _ => .inl hmem)
      (by rw [← hcounted]; omega)
    exact
      { latest := (latestSet_cons rfl).mpr howed.latest
        lastUse := by simp [lastUse?, hused]; rfl
        created := Std.le_trans howed.created howed.accessed
        accessed := Std.le_refl _
        accesses := by
          have hsets : (past.moment (.get key)).sets key = false := rfl
          simp [hitsSince, hsets, hused, howed.accesses, Nat.add_assoc] }

omit hdeadline in
theorem set (hcapacity : 0 < capacity) (key : Text) (value : α) :
    (past.take (.set key value)).Tracks ttl capacity Over := by
  have hothers : ∀ other, other ≠ key → (past.moment (.set key value)).decides other = false :=
    fun other hother => by simpa [Moment.decides, Recorded.moment] using hother.symm
  have howed : Owed (past.moment (.set key value) :: past.history) past.cache.now key
      { value, created := past.cache.now, accesses := 1, accessed := past.cache.now } :=
    { latest := by simp [LatestSet, Moment.decides, Recorded.moment, finds]
      lastUse := by simp [lastUse?, Moment.used?, Recorded.moment]
      created := Std.le_refl _
      accessed := Std.le_refl _
      accesses := by simp [hitsSince, Moment.sets, Recorded.moment] }
  have hcounted : past.cache.hits + past.cache.misses =
      readsSinceClear (past.moment (.set key value) :: past.history) := by
    rw [readsSinceClear_skip rfl rfl, h.counted]
  simp only [Recorded.take, apply, Cache.set]
  split
  next hfull =>
    simp only [Cache.contains, h.capacity_eq, Bool.and_eq_true, Bool.not_eq_true',
      decide_eq_true_eq, List.contains_eq_mem, decide_eq_false_iff_not] at hfull
    obtain ⟨hnew, hfull⟩ := hfull
    refine h.use rfl hothers howed rfl (List.tail_sublist _) ?_ ?_ hcounted
    · refine lt_of_le_of_lt (List.length_filter_le _ _) ?_
      have hsize := h.size
      simp only [Cache.size] at hsize hfull
      rw [List.length_tail]
      omega
    · intro other found hmem _
      cases hentries : past.cache.entries with
      | nil => simp [hentries] at hmem
      | cons first rest =>
        rcases List.mem_cons.mp (hentries ▸ hmem) with hfirst | hmem
        · have hused : (past.moment (.set key value)).used? = some key := rfl
          have hcard := h.card_usedSince_of_full hused hnew hfull hentries
          rw [← hfirst] at hcard
          exact .inr hcard
        · exact .inl hmem
  next hroom =>
    refine h.use rfl hothers howed rfl (List.Sublist.refl _) ?_ (fun _ _ hmem _ => .inl hmem)
      hcounted
    by_cases hmem : key ∈ past.cache.keys
    · exact h.length_without_lt hmem
    · simp [Cache.contains, hmem, h.capacity_eq] at hroom
      exact lt_of_le_of_lt (List.length_filter_le _ _) hroom

theorem invalidate (fragment : Text) :
    (past.take (.invalidate fragment)).Tracks ttl capacity Over := by
  have hcounted : past.cache.hits + past.cache.misses =
      readsSinceClear (past.moment (.invalidate fragment) :: past.history) := by
    rw [readsSinceClear_skip rfl rfl, h.counted]
  simp only [Recorded.take, apply, Cache.invalidate]
  split
  next hempty =>
    have hkept : ∀ key, (past.moment (.invalidate fragment)).decides key = false := fun key => by
      simp [Recorded.moment, Moment.decides, List.isEmpty_iff.mp hempty]
    exact h.drop hdeadline rfl (Std.le_refl _) (List.Sublist.refl _) (fun key _ _ => hkept key)
      (fun _ _ hmem _ => .inl hmem) hcounted
  next hfragment =>
    have hne : fragment ≠ [] := fun hempty => hfragment (List.isEmpty_iff.mpr hempty)
    have hkept : ∀ key, (past.moment (.invalidate fragment)).decides key =
        Text.occursIn fragment key := fun key => by
      rw [Bool.eq_iff_iff, Text.occursIn_iff]
      simp [Recorded.moment, Moment.decides, hne]
    refine h.drop hdeadline rfl (Std.le_refl _) List.filter_sublist ?_ ?_ hcounted
    · intro key entry hmem
      simpa [hkept] using (List.mem_filter.mp hmem).2
    · intro key entry hmem hdecides
      rw [hkept] at hdecides
      exact .inl (List.mem_filter.mpr ⟨hmem, by simp [hdecides]⟩)

theorem clear : (past.take .clear).Tracks ttl capacity Over :=
  h.drop hdeadline rfl (Std.le_refl _) (List.nil_sublist _) (fun _ _ hmem => nomatch hmem)
    (fun _ _ _ hdecides => nomatch hdecides) rfl

theorem sweep : (past.take .sweep).Tracks ttl capacity Over := by
  refine h.drop hdeadline rfl (Std.le_refl _) List.filter_sublist (fun _ _ _ => rfl) ?_
    (by rw [readsSinceClear_skip rfl rfl, h.counted])
  intro key entry hmem _
  by_cases hexpired : past.cache.ttl < past.cache.now - entry.created
  · rw [h.ttl_eq] at hexpired
    exact .inr (hdeadline.expired hexpired)
  · exact .inl (List.mem_filter.mpr ⟨hmem, by simpa [isExpired] using hexpired⟩)

theorem wait {time : τ} (htime : past.cache.now ≤ past.cache.now + time) :
    (past.take (.wait time)).Tracks ttl capacity Over :=
  h.drop hdeadline rfl htime (List.Sublist.refl _) (fun _ _ _ => rfl)
    (fun _ _ hmem _ => .inl hmem) (by rw [readsSinceClear_skip rfl rfl, h.counted])

theorem take (hcapacity : 0 < capacity) {step : Step τ α}
    (hforward : past.GoesForward step) : (past.take step).Tracks ttl capacity Over := by
  cases step with
  | get key => exact h.get hdeadline key
  | set key value => exact h.set hcapacity key value
  | invalidate fragment => exact h.invalidate hdeadline fragment
  | clear => exact h.clear hdeadline
  | sweep => exact h.sweep hdeadline
  | wait time => exact h.wait hdeadline hforward

end Taken

theorem run [Std.IsPreorder τ] [Add τ] [Sub τ] [LT τ] [DecidableLT τ]
    (hdeadline : IsDeadline ttl Over) (hcapacity : 0 < capacity)
    {steps : List (Step τ α)} (hforward : past.RunsForward steps)
    (h : past.Tracks ttl capacity Over) : (past.run steps).Tracks ttl capacity Over := by
  induction steps generalizing past with
  | nil => exact h
  | cons step steps ih => exact ih hforward.2 (h.take hdeadline hcapacity hforward.1)

end Recorded.Tracks

/-! ### Every run of a cache -/

theorem tracks_of_create [LE τ] {ttl now : τ} {capacity : Int} {cache : Cache τ α}
    (hcreate : create ttl capacity now = .ok cache) (Over : τ → τ → Prop) :
    0 < capacity.toNat ∧ Recorded.Tracks ttl capacity.toNat Over { cache } := by
  unfold create at hcreate
  split at hcreate
  · cases hcreate
  · cases hcreate
    refine ⟨by omega, ?_⟩
    constructor <;> simp [size, keys, History.LatestSet, History.readsSinceClear]

/-- Whatever is done to a cache while the clock is not put back, its keys are distinct and no
more than it has room for. They stand in the order of their last use: of two keys, the later one
was used after the last use of the earlier. An entry tells when it was last used and how often it
was found since it was set, and the counters tell the reads since the last clearing. -/
theorem run_entries_spec [LE τ] [Std.IsPreorder τ] [Add τ] [Sub τ] [LT τ] [DecidableLT τ]
    {ttl start : τ} {capacity : Int} {cache : Cache τ α}
    (hcreate : create ttl capacity start = .ok cache) {steps : List (Step τ α)}
    (hforward : Recorded.RunsForward { cache } steps) {past : Recorded τ α}
    (hpast : past = Recorded.run { cache } steps) :
    past.cache.keys.Nodup ∧ (past.cache.size : Int) ≤ capacity ∧
    (past.cache.keys.Pairwise fun earlier later => later ∈ past.history.usedSince earlier) ∧
    (past.cache.entries.Pairwise fun earlier later =>
      earlier.2.accessed ≤ later.2.accessed) ∧
    (∀ key entry, (key, entry) ∈ past.cache.entries →
      past.history.lastUse? key = some entry.accessed ∧
      entry.created ≤ entry.accessed ∧ entry.accessed ≤ past.cache.now ∧
      entry.accesses = 1 + past.history.hitsSince key) ∧
    past.cache.hits + past.cache.misses = past.history.readsSinceClear := by
  obtain ⟨hcapacity, hempty⟩ := tracks_of_create hcreate fun _ _ => True
  have htracks := hempty.run ⟨fun _ => trivial, fun _ _ => trivial⟩ hcapacity hforward
  rw [← hpast] at htracks
  refine ⟨htracks.nodup, ?_, htracks.order, htracks.accessed, ?_, htracks.counted⟩
  · have hsize := htracks.size
    omega
  · intro key entry hmem
    have howed := htracks.owed key entry hmem
    exact ⟨howed.lastUse, howed.created, howed.accessed, howed.accesses⟩

/-- A cache for two entries. -/
def pair (ttl now : τ) : Cache τ Nat := { ttl, capacity := 2, now }

/-- `a` is read after `b` was set, so that `c` takes the place of `b`. -/
def displacing (time : τ) : List (Step τ Nat) :=
  [.set ['a'] 1, .set ['b'] 2, .get ['a'], .wait time, .set ['c'] 3]

/-- The cache with a clock that shows seconds with rounding. -/
def rounded : Cache Binary64 Nat := pair (.ofNat 10) .zero

def displacedRounded : Recorded Binary64 Nat :=
  Recorded.run { cache := rounded } (displacing (.ofNat 3))

theorem displaced_entries :
    create (.ofNat 10) 2 .zero = .ok rounded ∧
    Recorded.RunsForward { cache := rounded } (displacing (.ofNat 3)) ∧
    displacedRounded.cache.keys = [['a'], ['c']] ∧
    (displacedRounded.cache.keys.Pairwise fun earlier later =>
      later ∈ displacedRounded.history.usedSince earlier) ∧
    ∀ key entry, (key, entry) ∈ displacedRounded.cache.entries →
      entry.accesses = 1 + displacedRounded.history.hitsSince key := by
  have hcreate : create (.ofNat 10) 2 .zero = .ok rounded := rfl
  have hforward : Recorded.RunsForward { cache := rounded } (displacing (.ofNat 3)) := by
    refine ⟨trivial, trivial, trivial, .inr ?_, trivial, trivial⟩
    decide +kernel
  obtain ⟨-, -, horder, -, hentries, -⟩ :=
    run_entries_spec hcreate hforward (show displacedRounded = _ from rfl)
  exact ⟨hcreate, hforward, by decide +kernel, horder,
    fun key entry hmem => (hentries key entry hmem).2.2.2⟩

/-! ### Exact time -/

section Exact

variable [AddCommGroup τ] [LinearOrder τ] [IsOrderedAddMonoid τ]

/-- Waiting for some time does not put the clock back. -/
theorem runsForward_of_isForward {steps : List (Step τ α)} (past : Recorded τ α)
    (h : ∀ step ∈ steps, step.IsForward) : past.RunsForward steps := by
  induction steps generalizing past with
  | nil => trivial
  | cons step steps ih =>
    obtain ⟨hstep, hsteps⟩ := List.forall_mem_cons.mp h
    refine ⟨?_, ih _ hsteps⟩
    cases step with
    | wait time => exact le_add_of_nonneg_right hstep
    | _ => trivial

theorem isDeadline_sub (ttl : τ) : IsDeadline ttl fun now time => ttl < now - time where
  expired h := h
  later hnow h := h.trans_le (sub_le_sub_right hnow _)

/-- What a read gives was set by the latest write of its key, was not dropped since, and is not
older than the time to live, whenever it was read before. A key that was set, was not dropped
since and still gives nothing is older than the time to live, or as many other keys as the cache
has room for were used after its last use. -/
theorem run_get_spec {ttl start : τ} {capacity : Int} {cache : Cache τ α}
    (hcreate : create ttl capacity start = .ok cache) {steps : List (Step τ α)}
    (hforward : ∀ step ∈ steps, step.IsForward) {past : Recorded τ α}
    (hpast : past = Recorded.run { cache } steps) (key : Text) :
    (∀ value, (past.cache.get key).1 = some value →
      ∃ time, past.history.LatestSet key time value ∧ past.cache.now - time ≤ ttl) ∧
    ((past.cache.get key).1 = none → ∀ time value, past.history.LatestSet key time value →
      ttl < past.cache.now - time ∨
      capacity ≤ ((past.history.usedSince key).toFinset.card : Int)) := by
  obtain ⟨hcapacity, hempty⟩ := tracks_of_create hcreate fun now time => ttl < now - time
  have htracks := hempty.run (isDeadline_sub ttl) hcapacity (runsForward_of_isForward _ hforward)
  rw [← hpast] at htracks
  rcases past.cache.get_cases key with
    ⟨hmissing, hget⟩ | ⟨entry, hmem, ⟨hexpired, hget⟩ | ⟨hfresh, hget⟩⟩
  all_goals rw [hget]
  · refine ⟨fun _ hnone => (nomatch hnone), fun _ time value hlatest => ?_⟩
    rcases htracks.gone key time value hlatest with hmem | hover | hused
    · exact absurd hmem hmissing
    · exact .inl hover
    · exact .inr (by omega)
  · refine ⟨fun _ hnone => (nomatch hnone), fun _ time value hlatest => ?_⟩
    obtain ⟨rfl, -⟩ := (htracks.owed key entry hmem).latest.unique hlatest
    rw [htracks.ttl_eq] at hexpired
    exact .inl hexpired
  · refine ⟨?_, fun hsome => (nomatch hsome)⟩
    rintro value ⟨⟩
    rw [htracks.ttl_eq, not_lt] at hfresh
    exact ⟨entry.created, (htracks.owed key entry hmem).latest, hfresh⟩

end Exact

/-- The three keys in a cache whose clock shows whole seconds. -/
def displaced : Recorded Int Nat := Recorded.run { cache := pair 10 0 } (displacing 3)

theorem displaced_reads :
    create 10 2 0 = .ok (pair (10 : Int) 0) ∧ (∀ step ∈ displacing (3 : Int), step.IsForward) ∧
    (displaced.cache.get ['a']).1 = some 1 ∧
    (∃ time, displaced.history.LatestSet ['a'] time 1 ∧ displaced.cache.now - time ≤ 10) ∧
    (displaced.cache.get ['b']).1 = none ∧ displaced.history.LatestSet ['b'] 0 2 ∧
    (10 < displaced.cache.now - 0 ∨
      2 ≤ ((displaced.history.usedSince ['b']).toFinset.card : Int)) := by
  have hforward : ∀ step ∈ displacing (3 : Int), step.IsForward := by
    simp [displacing, Step.IsForward]
  have hspec :=
    run_get_spec (show create 10 2 0 = .ok (pair (10 : Int) 0) from rfl) hforward
      (show displaced = _ from rfl)
  have hfound : (displaced.cache.get ['a']).1 = some 1 := by decide
  have hnone : (displaced.cache.get ['b']).1 = none := by decide
  have hlatest : displaced.history.LatestSet ['b'] 0 2 := rfl
  exact ⟨rfl, hforward, hfound, (hspec ['a']).1 1 hfound, hnone, hlatest,
    (hspec ['b']).2 hnone 0 2 hlatest⟩

end Cache

end TerraformTrace
