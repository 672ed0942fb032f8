import AgosMemory.Runs.Thresholds

/-!
# The clusters of a dedup pass

The pass is a leader clustering of the active rows of each tier. Its clusters cover the rows: each row
is tagged with the cluster of an owner of its tier that it is near to, owners of a tier are apart, and
an owner's references grow by the rows that joined it.
-/

namespace AgosMemory.Consolidate

open Library Store Summarize
open Library.Client hiding fail lift onlyIf forEach foldEach attempt
open Library.Program (bind_ok bind_of_ok)

variable {F : Type} [F64 F] {env : Env F} {cfg : Config F}

/-! ## What a pass writes -/

/-- The cluster id that a pass tags a row with, when the row is listed. -/
def tagFor (homes : List (Member F × Cluster F)) (id : Int) : Option String :=
  (homes.find? fun p => p.1.id = id).map fun p => p.2.clusterId

/-- How many rows other than itself have a row as the owner of their cluster. -/
def joined (homes : List (Member F × Cluster F)) (id : Int) : Nat :=
  homes.countP fun p => p.2.ownerId = id ∧ p.1.id ≠ id

/-- A row after a pass. -/
def rowAfter (homes : List (Member F × Cluster F)) (r : Memory F) : Memory F := { r with
  dedupClusterId := (tagFor homes r.id).or r.dedupClusterId
  refCount := r.refCount + joined homes r.id }

/-- A row apart from the times of its last change and of its last reference. -/
def stampless (r : Memory F) : Memory F := { r with updatedAt := 0, lastReferencedAt := none }

section

omit [F64 F]

variable {m : Member F} {cl : Cluster F} {homes : List (Member F × Cluster F)} {id : Int}

private theorem tagFor_cons : tagFor ((m, cl) :: homes) id =
    if m.id = id then some cl.clusterId else tagFor homes id := by
  unfold tagFor
  by_cases h : m.id = id
  · rw [List.find?_cons_of_pos (by simpa using h), if_pos h]
    rfl
  · rw [List.find?_cons_of_neg (by simpa using h), if_neg h]

private theorem joined_cons : joined ((m, cl) :: homes) id =
    joined homes id + if cl.ownerId = id ∧ m.id ≠ id then 1 else 0 := by
  unfold joined
  rw [List.countP_cons]
  simp only [decide_eq_true_eq]

private theorem tagFor_eq_none (h : ∀ p ∈ homes, p.1.id ≠ id) : tagFor homes id = none := by
  rw [tagFor, Option.map_eq_none_iff, List.find?_eq_none]
  intro p hp
  simpa using h p hp

/-- A listed row is tagged with its home. -/
private theorem tagFor_of_mem (h : (homes.map fun p => p.1.id).Nodup) {p : Member F × Cluster F}
    (hp : p ∈ homes) : tagFor homes p.1.id = some p.2.clusterId := by
  induction homes with
  | nil => cases hp
  | cons q homes ih =>
    obtain ⟨hnew, hrest⟩ := List.nodup_cons.mp h
    rw [tagFor_cons]
    rcases List.mem_cons.mp hp with rfl | hp
    · exact if_pos rfl
    · have hother : q.1.id ≠ p.1.id := fun heq =>
        hnew (List.mem_map.mpr ⟨p, hp, heq.symm⟩)
      rw [if_neg hother]
      exact ih hrest hp

/-- A row that joins a cluster is tagged, and the owner counts it. -/
private theorem rowAfter_join {r : Memory F} {now now' : Int} (howner : cl.ownerId ≠ m.id)
    (hfresh : ∀ p ∈ homes, p.1.id ≠ m.id) :
    let bumped := if r.id = cl.ownerId then
      { r with refCount := r.refCount + 1, lastReferencedAt := some now } else r
    stampless (rowAfter homes (if bumped.id = m.id then
        { bumped with dedupClusterId := some cl.clusterId, updatedAt := now' } else bumped)) =
      stampless (rowAfter ((m, cl) :: homes) r) := by
  intro bumped
  by_cases hbumped : r.id = cl.ownerId
  · have hother : r.id ≠ m.id := hbumped ▸ howner
    have hb : bumped = { r with refCount := r.refCount + 1, lastReferencedAt := some now } :=
      if_pos hbumped
    rw [hb, if_neg hother]
    unfold rowAfter stampless
    rw [tagFor_cons, joined_cons, if_neg hother.symm, if_pos ⟨hbumped.symm, hother.symm⟩]
    simp only [Nat.cast_add, Nat.cast_one, Memory.mk.injEq, true_and, and_true]
    omega
  · have hb : bumped = r := if_neg hbumped
    have hno : ¬ (cl.ownerId = r.id ∧ m.id ≠ r.id) := fun h => hbumped h.1.symm
    rw [hb]
    unfold rowAfter stampless
    rw [tagFor_cons, joined_cons, if_neg hno, Nat.add_zero]
    by_cases hself : r.id = m.id
    · rw [if_pos hself, if_pos hself.symm]
      dsimp only
      rw [hself, tagFor_eq_none hfresh]
      rfl
    · rw [if_neg hself, if_neg fun h => hself h.symm]

/-- A row that starts a cluster is tagged. -/
private theorem rowAfter_lead {r : Memory F} {now : Int} (howner : cl.ownerId = m.id)
    (hfresh : ∀ p ∈ homes, p.1.id ≠ m.id) :
    stampless (rowAfter homes (if r.id = m.id then
        { r with dedupClusterId := some cl.clusterId, updatedAt := now } else r)) =
      stampless (rowAfter ((m, cl) :: homes) r) := by
  have hno : ¬ (cl.ownerId = r.id ∧ m.id ≠ r.id) := fun h => h.2 (howner.symm.trans h.1)
  unfold rowAfter stampless
  rw [tagFor_cons, joined_cons, if_neg hno, Nat.add_zero]
  by_cases hself : r.id = m.id
  · rw [if_pos hself, if_pos hself.symm]
    dsimp only
    rw [hself, tagFor_eq_none hfresh]
    rfl
  · rw [if_neg hself, if_neg fun h => hself h.symm]

end

/-! ## The pass -/

section

variable {c c' : Conn F} {threshold : F}

/-- A pass that completes adds the clusters of the founders, tags each listed row with its home, and
counts each row that joined. -/
private theorem dedupPass_rows {ms : List (Member F)} {st st' : List (Cluster F) × Nat}
    (h : Program.foldEach ms st (fun st m => (dedupStep env threshold st m).alone) c =
      (.ok st', c')) (hids : (ms.map Member.id).Nodup)
    (howners : ∀ cl ∈ st.1, cl.ownerId ∉ ms.map Member.id) :
    c'.db = { c.db with memories := c'.db.memories } ∧
      c'.db.memories.map stampless = c.db.memories.map fun r => stampless
        (rowAfter (Leaders.homes (near threshold) (clusterOf env) st.1 ms) r) := by
  induction ms generalizing st c with
  | nil =>
    obtain ⟨rfl, rfl⟩ := Program.pure_ok h
    refine ⟨rfl, List.map_congr_left fun r _ => ?_⟩
    show stampless r = stampless { r with refCount := r.refCount + ((0 : Nat) : Int) }
    rw [Int.natCast_zero, Int.add_zero]
  | cons m ms ih =>
    obtain ⟨st₁, c₁, hstep, hrest⟩ := bind_ok h
    replace hstep : (dedupStep env threshold st m).alone c = (.ok st₁, c₁) := hstep
    obtain ⟨hnew, hids⟩ := List.nodup_cons.mp hids
    have hlater : ∀ cl ∈ st.1, cl.ownerId ∉ ms.map Member.id := fun cl hcl hmem =>
      howners cl hcl (List.mem_cons_of_mem _ hmem)
    have hfresh : ∀ leaders, ∀ p ∈ Leaders.homes (near threshold) (clusterOf env) leaders ms,
        p.1.id ≠ m.id := by
      intro leaders p hp heq
      refine hnew (heq ▸ List.mem_map_of_mem ?_)
      have hall : (Leaders.homes (near threshold) (clusterOf env) leaders ms).map Prod.fst = ms :=
        Leaders.map_homes leaders ms
      rw [← hall]
      exact List.mem_map_of_mem hp
    cases hfind : st.1.find? (near threshold m) with
    | some cl =>
      rw [dedupStep_join hfind] at hstep
      obtain ⟨_, c₂, hbump, hstep⟩ := bind_ok hstep
      obtain ⟨_, c₃, htag, hpure⟩ := bind_ok hstep
      obtain ⟨rfl, rfl⟩ := Program.pure_ok hpure
      obtain ⟨now, hdb₂⟩ := bumpRefCount_ok hbump
      obtain ⟨now', hdb₃⟩ := setDedupCluster_ok htag
      obtain ⟨hother, hrows⟩ := ih hrest hids hlater
      have howner : cl.ownerId ≠ m.id := fun heq =>
        howners cl (List.mem_of_find?_eq_some hfind) (heq ▸ List.mem_cons_self)
      refine ⟨by rw [hother, hdb₃, Db.updateMemory, hdb₂]; rfl, ?_⟩
      rw [hrows, hdb₃, hdb₂, Leaders.homes_of_join hfind]
      show ((c.db.memories.map _).map _).map _ = _
      rw [List.map_map, List.map_map]
      exact List.map_congr_left fun r _ => rowAfter_join howner (hfresh st.1)
    | none =>
      rw [dedupStep_lead hfind] at hstep
      obtain ⟨_, c₂, htag, hpure⟩ := bind_ok hstep
      obtain ⟨rfl, rfl⟩ := Program.pure_ok hpure
      obtain ⟨now, hdb₂⟩ := setDedupCluster_ok htag
      have howners' : ∀ cl ∈ st.1 ++ [clusterOf env m], cl.ownerId ∉ ms.map Member.id := by
        intro cl hcl
        rcases List.mem_append.mp hcl with hcl | hcl
        · exact hlater cl hcl
        · rw [List.mem_singleton.mp hcl]
          exact hnew
      obtain ⟨hother, hrows⟩ := ih hrest hids howners'
      have howner : (clusterOf env m).ownerId = m.id := rfl
      refine ⟨by rw [hother, hdb₂]; rfl, ?_⟩
      rw [hrows, hdb₂, Leaders.homes_of_lead hfind]
      show (c.db.memories.map _).map _ = _
      rw [List.map_map]
      exact List.map_congr_left fun r _ => rowAfter_lead howner (hfresh _)

end

/-! ## The listed rows -/

section

variable {dim : Nat} {db : Db F}

/-- A row as it is compared. -/
def asMember (cfg : Config F) (dim : Nat) (db : Db F) (r : Memory F) : Member F :=
  ⟨r.id, r.publicId, r.tier, comparedBy cfg dim db r⟩

omit [F64 F] in
/-- Each active row is listed once. -/
private theorem members_perm (cfg : Config F) (dim : Nat) (db : Db F) : (members cfg dim db).Perm
    ((db.memories.filter fun r => r.status = .active).map (asMember cfg dim db)) := by
  unfold members dedupRows
  rw [List.map_map]
  exact (List.perm_insertionSort dedupOrder _).map (asMember cfg dim db)

omit [F64 F] in
private theorem members_nodup {β : Type} {f : Memory F → β} {g : Member F → β}
    (hf : ∀ r, g (asMember cfg dim db r) = f r) (hrows : (db.memories.map f).Nodup) :
    ((members cfg dim db).map g).Nodup := by
  refine ((members_perm cfg dim db).map g).nodup_iff.mpr ?_
  rw [List.map_map]
  have hcomp : g ∘ asMember cfg dim db = f := funext hf
  rw [hcomp]
  exact hrows.sublist (List.filter_sublist.map f)

omit [F64 F] in
/-- Within a tier the rows are listed by id. -/
private theorem members_sorted (cfg : Config F) (dim : Nat) (db : Db F) :
    (members cfg dim db).Pairwise fun a b => a.tier = b.tier → a.id ≤ b.id := by
  have htotal := dedupOrder_total (F := F)
  have htrans := dedupOrder_trans (F := F)
  unfold members dedupRows
  rw [List.map_map, List.pairwise_map]
  refine (List.pairwise_insertionSort dedupOrder _).imp fun {a b} hab htier => ?_
  rcases hab with hsql | ⟨_, hid⟩
  · replace htier : a.tier = b.tier := htier
    rw [htier] at hsql
    exact absurd hsql (String.lt_irrefl _)
  · exact hid

end

/-! ## The cover -/

section

variable {F : Type} [Field F] [LinearOrder F] [IsStrictOrderedRing F] [F64 F] [Exact F]
  {env : Env F} {cfg : Config F} {threshold : F}

/-- The clusters cover the listed rows. -/
structure Cover (env : Env F) (threshold : F) (ms : List (Member F)) (clusters : List (Cluster F))
    (homes : List (Member F × Cluster F)) : Prop where
  rows : homes.map Prod.fst = ms
  owner : ∀ cl ∈ clusters, ∃ o ∈ ms, cl = clusterOf env o ∧ (o, cl) ∈ homes
  home : ∀ p ∈ homes, p.2 ∈ clusters ∧ p.2.tier = p.1.tier ∧ p.2.ownerId ≤ p.1.id ∧
    (p.2.ownerId = p.1.id ∨ threshold ≤ cosineSimilarity p.1.vec p.2.ownerVec)
  tag : ∀ p ∈ homes, tagFor homes p.1.id = some p.2.clusterId
  apart : ∀ cl ∈ clusters, ∀ cl' ∈ clusters, cl ≠ cl' → cl.tier = cl'.tier →
    cosineSimilarity cl.ownerVec cl'.ownerVec < threshold
  ids : (clusters.map Cluster.clusterId).Nodup

private theorem cosineSimilarity_comm (v w : List F) :
    cosineSimilarity v w = cosineSimilarity w v := by
  unfold cosineSimilarity
  rw [List.zipWith_comm]
  congr 3
  funext x y
  rw [Exact.mul, Exact.mul, mul_comm]

omit [Field F] [LinearOrder F] [IsStrictOrderedRing F] [Exact F] in
private theorem near_iff {m : Member F} {cl : Cluster F} : near threshold m cl = true ↔
    cl.tier = m.tier ∧ F64.le threshold (cosineSimilarity m.vec cl.ownerVec) = true := by
  rw [near, Bool.and_eq_true, decide_eq_true_eq]

omit [F64 F] [Exact F] [Field F] [LinearOrder F] [IsStrictOrderedRing F] in
/-- The cluster ids of rows with distinct public ids are distinct. -/
private theorem clusterIds_nodup {ms : List (Member F)} (hsha : Function.Injective env.sha256Hex)
    (hpublic : (ms.map Member.publicId).Nodup) :
    ((ms.map (clusterOf env)).map Cluster.clusterId).Nodup := by
  have hinj : Function.Injective (clusterIdOf env) := fun a b hab =>
    hsha (String.append_right_inj _ |>.mp hab)
  have hmap : (ms.map (clusterOf env)).map Cluster.clusterId =
      (ms.map Member.publicId).map (clusterIdOf env) := by
    rw [List.map_map, List.map_map]
    rfl
  rw [hmap]
  exact hpublic.map hinj

/-- Leader clustering of rows listed by id within their tier covers them. -/
private theorem cover_of_leaders {ms : List (Member F)} (hsha : Function.Injective env.sha256Hex)
    (hids : (ms.map Member.id).Nodup) (hpublic : (ms.map Member.publicId).Nodup)
    (hsorted : ms.Pairwise fun a b => a.tier = b.tier → a.id ≤ b.id) :
    Cover env threshold ms
      ((Leaders.founders (near threshold) (clusterOf env) [] ms).map (clusterOf env))
      (Leaders.homes (near threshold) (clusterOf env) [] ms) where
  rows := Leaders.map_homes [] ms
  owner cl hcl := by
    obtain ⟨o, ho, rfl⟩ := List.mem_map.mp hcl
    exact ⟨o, (Leaders.founders_sublist [] ms).subset ho, rfl, Leaders.founder_home ho⟩
  home p hp := by
    obtain ⟨hmem, hnear⟩ := Leaders.mem_homes hp
    have hbefore : p.2.tier = p.1.tier → p.2.ownerId ≤ p.1.id :=
      Leaders.homes_before (R := fun cl m => cl.tier = m.tier → cl.ownerId ≤ m.id)
        (fun _ _ => le_refl _) (List.forall_mem_nil _) hsorted p hp
    rcases hnear with hnear | ⟨_, hself⟩
    · obtain ⟨htier, hle⟩ := near_iff.mp hnear
      rw [Exact.le, decide_eq_true_eq] at hle
      exact ⟨hmem, htier, hbefore htier, .inr hle⟩
    · have htier : p.2.tier = p.1.tier := by rw [hself]; rfl
      exact ⟨hmem, htier, hbefore htier, .inl (by rw [hself]; rfl)⟩
  tag p hp := by
    have hnodup : ((Leaders.homes (near threshold) (clusterOf env) [] ms).map
        fun p => p.1.id).Nodup := by
      have hall : (Leaders.homes (near threshold) (clusterOf env) [] ms).map Prod.fst = ms :=
        Leaders.map_homes [] ms
      rw [← hall, List.map_map] at hids
      exact hids
    exact tagFor_of_mem hnodup hp
  apart := by
    have hsymm : Std.Symm fun cl cl' : Cluster F =>
        cl.tier = cl'.tier → cosineSimilarity cl.ownerVec cl'.ownerVec < threshold :=
      ⟨fun cl cl' h htier => cosineSimilarity_comm cl.ownerVec cl'.ownerVec ▸ h htier.symm⟩
    have hfar : (Leaders.founders (near threshold) (clusterOf env) [] ms).Pairwise
        fun a b => near threshold b (clusterOf env a) = false := (Leaders.founders_far [] ms).2
    refine List.Pairwise.forall (List.pairwise_map.mpr (hfar.imp fun {a b} hab htier => ?_))
    rw [cosineSimilarity_comm]
    refine lt_of_not_ge fun hle => ?_
    have hnear : near threshold b (clusterOf env a) = true :=
      near_iff.mpr ⟨htier, by rw [Exact.le, decide_eq_true_eq]; exact hle⟩
    rw [hab] at hnear
    cases hnear
  ids := clusterIds_nodup hsha
    (hpublic.sublist ((Leaders.founders_sublist [] ms).map Member.publicId))

/-- A dedup pass that completes covers the active rows: each is tagged with the cluster of its home,
each owner counts the rows that joined it, nothing else but times changes, and the number it reports
is that of the rows less that of the clusters. -/
theorem consolidation_covers (env : Env F) (cfg : Config F) (c c' : Conn F) (merged : Nat)
    (hids : (c.db.memories.map Memory.id).Nodup)
    (hpublic : (c.db.memories.map Memory.publicId).Nodup)
    (hsha : Function.Injective env.sha256Hex)
    (h : (dedupConsolidation env cfg).alone c = (.ok merged, c')) :
    ∃ clusters homes,
      Cover env cfg.dedupThreshold (members cfg (dimRead env c) c.db) clusters homes ∧
      (members cfg (dimRead env c) c.db).Perm ((c.db.memories.filter fun r =>
        r.status = .active).map (asMember cfg (dimRead env c) c.db)) ∧
      c'.db = { c.db with memories := c'.db.memories } ∧
      c'.db.memories.map stampless = c.db.memories.map (fun r => stampless (rowAfter homes r)) ∧
      merged + clusters.length = (members cfg (dimRead env c) c.db).length := by
  obtain ⟨c₀, st, hdb, hpass, _⟩ := dedupConsolidation_ok h
  have hmembers : ((members cfg (dimRead env c) c.db).map Member.id).Nodup :=
    members_nodup (fun _ => rfl) hids
  obtain ⟨hother, hrows⟩ := dedupPass_rows hpass hmembers (List.forall_mem_nil _)
  rw [hdb] at hother hrows
  refine ⟨_, _, cover_of_leaders hsha hmembers (members_nodup (fun _ => rfl) hpublic)
    (members_sorted cfg _ c.db), members_perm cfg _ c.db, hother, hrows, ?_⟩
  rw [(merged_eq h).2, List.length_map]
  exact Leaders.merges_add_founders [] (members cfg (dimRead env c) c.db)

theorem consolidation_covers_sample : ∃ c',
    (dedupConsolidation sampleEnv sampleConfig).alone (sampleDesk "sky").conn = (.ok 1, c') ∧
    ∃ clusters homes, Cover sampleEnv sampleConfig.dedupThreshold
        (members sampleConfig 1536 (sampleDesk "sky").conn.db) clusters homes ∧
      (members sampleConfig 1536 (sampleDesk "sky").conn.db).Perm
        (((sampleDesk "sky").conn.db.memories.filter fun r => r.status = .active).map
          (asMember sampleConfig 1536 (sampleDesk "sky").conn.db)) ∧
      c'.db = { (sampleDesk "sky").conn.db with memories := c'.db.memories } ∧
      c'.db.memories.map stampless =
        (sampleDesk "sky").conn.db.memories.map (fun r => stampless (rowAfter homes r)) ∧
      1 + clusters.length = (members sampleConfig 1536 (sampleDesk "sky").conn.db).length := by
  have hrun : ((dedupConsolidation sampleEnv sampleConfig).alone (sampleDesk "sky").conn).1 =
      .ok 1 := by decide +kernel
  exact ⟨_, Prod.ext hrun rfl, consolidation_covers sampleEnv sampleConfig _ _ 1 (by decide)
    (by decide) (fun _ _ h => h) (Prod.ext hrun rfl)⟩

end

end AgosMemory.Consolidate
