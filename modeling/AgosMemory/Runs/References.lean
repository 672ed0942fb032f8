import AgosMemory.Runs.Ages
import AgosMemory.Runs.Survival

/-!
# What a repetition does to the row it repeats

The bump of a duplicate writes the reading of the clock as the time of the last reference, and the hard
filter of a recall excludes rows that were referenced before they were created. The creation time comes
from a file or from an earlier reading, so a bump can hide the row it counts.
-/

namespace AgosMemory

open Library Library.Program Store Recall

variable {F : Type} [F64 F] {env : Env F}

/-- A bump of a duplicate: by a source that repeats it, or by a consolidation. -/
inductive Repeat where
  | embedded (kind : String) (now : Int)
  | noVector (kind : String) (now : Int)
  | imported (kind : String) (now : Int)
  | consolidation
  deriving DecidableEq, Repr

namespace Repeat

def run (env : Env F) (id : Int) : Repeat → Write F Unit
  | .embedded kind now => Persist.bumpEmbedded env id kind now
  | .noVector kind now => Persist.bumpNoVector env id kind now
  | .imported kind now => Export.bumpImported env id kind now
  | .consolidation => bumpRefCount env id

/-- The reading of the clock that it writes. -/
def reading (env : Env F) (c : Conn F) : Repeat → Int
  | .embedded _ now | .noVector _ now | .imported _ now => now
  | .consolidation => env.clock c.ticks

/-- A consolidation has no source of its own. -/
def Trusted : Repeat → Prop
  | .embedded kind _ | .noVector kind _ | .imported kind _ => trustForSourceKind kind = .trusted
  | .consolidation => True

/-- What the filter reads of a row, apart from the time of the last reference. -/
structure SameFiltered (m m' : Memory F) : Prop where
  id : m'.id = m.id
  agentId : m'.agentId = m.agentId
  tier : m'.tier = m.tier
  status : m'.status = m.status
  trust : m'.trust = m.trust
  expiresAt : m'.expiresAt = m.expiresAt
  supersededById : m'.supersededById = m.supersededById
  createdAt : m'.createdAt = m.createdAt

omit [F64 F] in
private theorem trust_after_trusted {kind : String} (h : trustForSourceKind kind = .trusted)
    (trust : Trust) :
    trustAfterSource trust kind = trust := by
  unfold trustAfterSource
  rw [h]
  cases trust <;> decide

/-- What a bump by a trusted source does: the row is updated, and its last reference is now. -/
def Updates (c c' : Conn F) (m : Memory F) (now : Int) : Prop :=
  ∃ f : Memory F → Memory F, c'.db.memories = (c.db.updateMemory m.id f).memories ∧
    SameFiltered m (f m) ∧ (∀ m', (f m').id = m'.id ∧ (f m').supersedesId = m'.supersedesId) ∧
    (f m).lastReferencedAt = some now

section

variable {c c' : Conn F} {m : Memory F}

omit [F64 F] in
private theorem updates_of_bump {shape : BumpShape} {kind : String} {now : Int}
    (hids : (c.db.memories.map Memory.id).Nodup) (hm : m ∈ c.db.memories)
    (htrusted : trustForSourceKind kind = .trusted)
    (h : bump env shape m.id kind now c = (.ok (), c')) : Updates c c' m now := by
  obtain ⟨m₀, sk, cluster, hfound, hmemories⟩ := bump_ok h
  obtain rfl := Option.some.inj ((memory?_of_nodup hids hm).symm.trans hfound)
  refine ⟨_, hmemories, ?_, fun _ => ⟨rfl, rfl⟩, rfl⟩
  constructor
  case trust => exact trust_after_trusted htrusted m.trust
  all_goals rfl

omit [F64 F] in
private theorem updates_of_run {r : Repeat} (hids : (c.db.memories.map Memory.id).Nodup)
    (hm : m ∈ c.db.memories) (htrusted : r.Trusted) (h : r.run env m.id c = (.ok (), c')) :
    Updates c c' m (r.reading env c) := by
  cases r with
  | embedded kind now => exact updates_of_bump hids hm htrusted h
  | noVector kind now => exact updates_of_bump hids hm htrusted h
  | imported kind now => exact updates_of_bump hids hm htrusted h
  | consolidation =>
    obtain ⟨now, c₁, hnow, hrun⟩ := bind_ok h
    obtain ⟨hclock, rfl⟩ := Prod.mk.inj hnow
    obtain rfl := Except.ok.inj hclock
    have hdb := (Prod.mk.inj (Except.ok.inj (exec_ok hrun))).2.symm
    exact ⟨_, congrArg Db.memories hdb, ⟨rfl, rfl, rfl, rfl, rfl, rfl, rfl, rfl⟩,
      fun _ => ⟨rfl, rfl⟩, rfl⟩

omit [F64 F] in
/-- A row that no other one replaces is not replaced by an update that keeps the links. -/
theorem Updates.successor {m' : Memory F} {f : Memory F → Memory F} {id : Int} {db db' : Db F}
    (hmemories : db'.memories = (db.updateMemory id f).memories)
    (hlinks : ∀ s, (f s).id = s.id ∧ (f s).supersedesId = s.supersedesId) (hid : m'.id = m.id)
    (h : (successorId db m).isNone = true) : (successorId db' m').isNone = true := by
  rw [successorId, Option.isNone_iff_eq_none, Option.map_eq_none_iff, List.find?_eq_none] at h ⊢
  intro s hs
  rw [hmemories] at hs
  obtain ⟨s₀, hs₀, rfl⟩ := mem_updateMemory.mp hs
  rw [hid]
  split
  · rw [(hlinks s₀).2]
    exact h s₀ hs₀
  · exact h s₀ hs₀

omit [F64 F] in
/-- The filter on the row of a bump: what is left to check is the time of the last reference. -/
private theorem admits_of_sameFiltered {filter : HardFilter} {db db' : Db F} {m' : Memory F}
    {now : Int}
    (hsame : SameFiltered m m') (hlast : m'.lastReferencedAt = some now)
    (hsuccessor : (successorId db' m').isNone = true)
    (h : filter.admits (rowFromSql db m) = true) :
    filter.admits (rowFromSql db' m') = decide (m.createdAt ≤ now) := by
  obtain ⟨⟨hrest, _⟩, _⟩ := (Bool.and_eq_true_iff.mp h).imp_left Bool.and_eq_true_iff.mp
  unfold rowFromSql at hrest
  unfold HardFilter.admits rowFromSql
  dsimp only at hrest ⊢
  rw [hsame.agentId, hsame.tier, hsame.status, hsame.trust, hsame.expiresAt, hsame.supersededById,
    hsame.createdAt, hlast, hrest, hsuccessor]
  rfl

omit [F64 F] in
/-- A row that the filter admits, bumped by a trusted source, is still admitted exactly if the clock
had reached its creation time. -/
theorem keeps_admitted_iff (env : Env F) (filter : HardFilter) (r : Repeat) (c c' : Conn F)
    (m : Memory F) (hids : (c.db.memories.map Memory.id).Nodup) (hm : m ∈ c.db.memories)
    (hadmits : filter.admits (rowFromSql c.db m) = true) (htrusted : r.Trusted)
    (h : r.run env m.id c = (.ok (), c')) :
    (∃ m' ∈ c'.db.memories, m'.id = m.id ∧ filter.admits (rowFromSql c'.db m') = true) ↔
      m.createdAt ≤ r.reading env c := by
  obtain ⟨f, hmemories, hsame, hlinks, hlast⟩ := updates_of_run hids hm htrusted h
  obtain ⟨hleft, _⟩ := Bool.and_eq_true_iff.mp hadmits
  obtain ⟨_, hsuccessor⟩ := Bool.and_eq_true_iff.mp hleft
  have hadmitted : filter.admits (rowFromSql c'.db (f m)) =
      decide (m.createdAt ≤ r.reading env c) :=
    admits_of_sameFiltered hsame hlast (Updates.successor hmemories hlinks hsame.id hsuccessor) hadmits
  constructor
  · rintro ⟨m', hm', hid, hstill⟩
    rw [hmemories] at hm'
    obtain ⟨m₀, hm₀, rfl⟩ := mem_updateMemory.mp hm'
    have hid₀ : m₀.id = m.id := by
      split at hid
      · exact (hlinks m₀).1.symm.trans hid
      · exact hid
    obtain rfl := List.inj_on_of_nodup_map hids hm₀ hm hid₀
    rw [if_pos rfl, hadmitted] at hstill
    exact of_decide_eq_true hstill
  · intro hreached
    refine ⟨f m, ?_, hsame.id, hadmitted.trans (decide_eq_true hreached)⟩
    rw [hmemories]
    exact mem_updateMemory.mpr ⟨m, hm, (if_pos rfl).symm⟩

end

/-! ## A row from a file -/

/-- The filter that excludes the least. -/
def widestFilter : HardFilter := .fromQuery "a" (widestQuery (F := ℚ)) 0

/-- The repetition of a fact that was imported with a creation time in the past. -/
theorem keeps_admitted_sample : ∃ m c', m ∈ (importedAt 0).db.memories ∧
    (Repeat.embedded "user" 9).run sampleEnv m.id (importedAt 0) = (.ok (), c') ∧
    ((∃ m' ∈ c'.db.memories, m'.id = m.id ∧ widestFilter.admits (rowFromSql c'.db m') = true) ↔
      m.createdAt ≤ 9) := by
  have hrows : (importedAt 0).db.memories.map (fun m => (m.id, m.createdAt,
      widestFilter.admits (rowFromSql (importedAt 0).db m))) = [(1, 0, true)] := by decide +kernel
  have hrun : ((Repeat.embedded "user" 9).run sampleEnv 1 (importedAt 0)).1 = .ok () := by
    decide +kernel
  have hrow := List.mem_singleton_self ((1, 0, true) : Int × Int × Bool)
  rw [← hrows] at hrow
  obtain ⟨m, hm, heq⟩ := List.mem_map.mp hrow
  obtain ⟨hid, heq⟩ := Prod.mk.inj heq
  obtain ⟨_, hadmits⟩ := Prod.mk.inj heq
  rw [← hid] at hrun
  have hids : ((importedAt 0).db.memories.map Memory.id).Nodup := by decide +kernel
  have htrusted : Repeat.Trusted (.embedded "user" 9) := show trustForSourceKind "user" = _ by decide
  have hdone := Program.run_of_outcome hrun
  have hkept := keeps_admitted_iff sampleEnv widestFilter (.embedded "user" 9) (importedAt 0) _ m hids
    hm hadmits htrusted hdone
  exact ⟨m, _, hm, hdone, hkept⟩

/-- A row that was created in the future of the clock, as its file has it, disappears when its fact is
remembered again. -/
theorem repeat_hides : ¬ ∀ (ops : List (Op ℚ)) (filter : HardFilter) (r : Repeat) (m : Memory ℚ)
    (c' : Conn ℚ), m ∈ (runOps sampleEnv ops (emptyStore ℚ "a" 1)).db.memories →
    filter.admits (rowFromSql (runOps sampleEnv ops (emptyStore ℚ "a" 1)).db m) = true →
    r.Trusted → r.run sampleEnv m.id (runOps sampleEnv ops (emptyStore ℚ "a" 1)) = (.ok (), c') →
    ∃ m' ∈ c'.db.memories, m'.id = m.id ∧ filter.admits (rowFromSql c'.db m') = true := by
  intro h
  have hrows : (importedAt 100).db.memories.map (fun m => (m.id,
      widestFilter.admits (rowFromSql (importedAt 100).db m))) = [(1, true)] := by decide +kernel
  have hrun : ((Repeat.embedded "user" 9).run sampleEnv 1 (importedAt 100)).1 = .ok () := by
    decide +kernel
  have hhidden : ∀ m' ∈ ((Repeat.embedded "user" 9).run sampleEnv 1 (importedAt 100)).2.db.memories,
      widestFilter.admits (rowFromSql
        ((Repeat.embedded "user" 9).run sampleEnv 1 (importedAt 100)).2.db m') = false := by
    decide +kernel
  have hrow := List.mem_singleton_self ((1, true) : Int × Bool)
  rw [← hrows] at hrow
  obtain ⟨m, hm, heq⟩ := List.mem_map.mp hrow
  obtain ⟨hid, hadmits⟩ := Prod.mk.inj heq
  rw [← hid] at hrun hhidden
  have htrusted : Repeat.Trusted (.embedded "user" 9) := show trustForSourceKind "user" = _ by decide
  have hdone := Program.run_of_outcome hrun
  have hall := h [importAt 100] widestFilter (.embedded "user" 9) m
  have hstore : runOps sampleEnv [importAt 100] (emptyStore ℚ "a" 1) = importedAt 100 := rfl
  rw [hstore] at hall
  obtain ⟨m', hm', _, hstill⟩ := hall _ hm hadmits htrusted hdone
  rw [hhidden m' hm'] at hstill
  cases hstill

end Repeat

end AgosMemory
