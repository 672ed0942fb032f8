import AgosMemory.Storage.Store

/-!
# TTL reaper

A daily job: active rows past the lifetime of their tier are deprecated, and deprecated rows past the
grace period are purged. Both lists are read first and then worked off row by row.
-/

namespace AgosMemory.Reaper

open Library Library.Program Store

variable {F : Type} [F64 F]

/-- The retention settings, in days; a lifetime of zero is none. -/
structure MemoryConfig where
  ttlWorkingDays : Nat
  ttlEpisodicDays : Nat
  ttlSemanticDays : Nat
  ttlProceduralDays : Nat
  ttlGraceDays : Nat
  deriving DecidableEq, Repr

def MemoryConfig.ttlForTier (cfg : MemoryConfig) : Tier → Nat
  | .working => cfg.ttlWorkingDays
  | .episodic => cfg.ttlEpisodicDays
  | .semantic => cfg.ttlSemanticDays
  | .procedural => cfg.ttlProceduralDays

/-- Milliseconds of a day. -/
def DAY_MILLIS : Int := 86400000

/-- Active memories past the lifetime of their tier. -/
def expiredMemories (env : Env F) (now : Int) (cfg : MemoryConfig) : Write F (List Int) :=
  query env fun db => .ok ((db.memories.filter fun m => m.status = .active ∧
    0 < cfg.ttlForTier m.tier ∧
    m.createdAt + cfg.ttlForTier m.tier * DAY_MILLIS < now).map Memory.id)

/-- `status = 'deprecated' AND deleted_at IS NOT NULL AND deleted_at + ?1 < ?2` -/
def pastGrace (graceMillis now : Int) (m : Memory F) : Bool :=
  m.status = .deprecated ∧ m.deletedAt.any fun t => t + graceMillis < now

/-- Find deprecated memories older than the grace period (eligible for hard purge). -/
def deprecatedPastGrace (env : Env F) (graceMillis : Int) : Write F (List (Int × String)) := do
  let now ← nowMillis env
  query env fun db =>
    .ok ((db.memories.filter (pastGrace graceMillis now)).map fun m => (m.id, m.publicId))

/-- Outcome of a TTL reaper run. -/
structure ReaperReport where
  softDeprecated : Nat
  hardPurged : Nat
  deriving DecidableEq, Repr

/-- Run the TTL reaper. -/
def runTtlReaper (env : Env F) (cfg : MemoryConfig) : Write F ReaperReport := do
  let now ← nowMillis env
  let expired ← expiredMemories env now cfg
  forEach expired (deprecateForTtl env)
  let pastGrace ← deprecatedPastGrace env (cfg.ttlGraceDays * DAY_MILLIS)
  forEach pastGrace fun row => hardPurgeForTtl env row.1
  return ⟨expired.length, pastGrace.length⟩

end AgosMemory.Reaper
