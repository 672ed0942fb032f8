import AgosMemory.SystemEdits
import AgosMemory.Storage.Wellformed

/-!
# Invariants that hold while nothing goes wrong

An invariant that some statements break is stated under a condition on the histories: each rewrite,
bump and status change of the run satisfies its part of a `Watch`. The histories only grow, so the
condition on the last state covers all earlier ones. Without faults a closure that started its
statements finishes them.
-/

namespace AgosMemory

open Library Library.Program Store

variable {F : Type} [F64 F] {env : Env F} {G : Grant}

/-- The dimension is fixed, and nothing leaves a history. -/
structure Grows (db db' : Db F) : Prop where
  embedDim : db'.embedDim = db.embedDim
  rewrites : ∀ p ∈ db.rewrites, p ∈ db'.rewrites
  bumps : ∀ p ∈ db.bumps, p ∈ db'.bumps
  restated : ∀ p ∈ db.restated, p ∈ db'.restated

omit [F64 F] in
theorem Grows.of_eq {db db' : Db F} (hdim : db'.embedDim = db.embedDim)
    (hrewrites : db'.rewrites = db.rewrites) (hbumps : db'.bumps = db.bumps)
    (hrestated : db'.restated = db.restated) : Grows db db' :=
  ⟨hdim, fun _ h => hrewrites ▸ h, fun _ h => hbumps ▸ h, fun _ h => hrestated ▸ h⟩

omit [F64 F] in
theorem Grows.trans {a b c : Db F} (hab : Grows a b) (hbc : Grows b c) : Grows a c where
  embedDim := hbc.embedDim.trans hab.embedDim
  rewrites p hp := hbc.rewrites p (hab.rewrites p hp)
  bumps p hp := hbc.bumps p (hab.bumps p hp)
  restated p hp := hbc.restated p (hab.restated p hp)

theorem Store.Edit.grows {db db' : Db F} (he : Edit env G db db') : Grows db db' := by
  cases he with
  | insertRow hrow _ _ _ _ =>
    obtain ⟨_, _, rfl⟩ := insertMemoryRow_ok hrow
    exact .of_eq rfl rfl rfl rfl
  | insertVersion hv _ _ =>
    obtain ⟨_, _, rfl⟩ := insertVersion_ok hv
    exact .of_eq rfl rfl rfl rfl
  | insertVec _ _ hv =>
    obtain ⟨_, rfl⟩ := insertVec_ok hv
    exact .of_eq rfl rfl rfl rfl
  | retext hm _ _ hr =>
    obtain ⟨_, _, rfl⟩ := retext_ok hm hr
    exact ⟨rfl, fun _ h => List.mem_append_left _ h, fun _ h => h, fun _ h => h⟩
  | bump hm _ hr =>
    obtain ⟨_, _, rfl⟩ := mergeSource_ok hm hr
    exact ⟨rfl, fun _ h => h, fun _ h => List.mem_append_left _ h, fun _ h => h⟩
  | restate _ _ _ => exact ⟨rfl, fun _ h => h, fun _ h => h, fun _ h => List.mem_append_left _ h⟩
  | touch _ _ _ => exact .of_eq rfl rfl rfl rfl
  | updateVec _ _ => exact .of_eq rfl rfl rfl rfl
  | purge _ hd =>
    rw [deletePhase_ok hd]
    exact .of_eq rfl rfl rfl rfl
  | other same => exact .of_eq same.embedDim same.rewrites same.bumps same.restated

/-- What every run does. -/
structure Carries (env : Env F) (db db' : Db F) : Prop where
  wellformed : Wellformed env db → Wellformed env db'
  grows : Grows db db'

omit [F64 F] in
theorem Carries.trans {a b c : Db F} (hab : Carries env a b) (hbc : Carries env b c) :
    Carries env a c :=
  ⟨hbc.wellformed ∘ hab.wellformed, hab.grows.trans hbc.grows⟩

theorem carries_of_edits {db db' : Db F} (h : Relation.ReflTransGen (Edit env G) db db') :
    Carries env db db' :=
  preserves_of_edits h (fun _ _ he hc => hc.trans ⟨he.wellformed, he.grows⟩) ⟨id, .of_eq rfl rfl rfl rfl⟩

/-- The writes that an invariant tolerates, given the row as it was before. -/
structure Watch (F : Type) where
  rewrite : Memory F → String → Prop
  bump : Memory F → BumpShape → String → Prop
  restate : Memory F → Status → Prop

/-- All writes of the history are tolerated. -/
structure Watch.Clean (w : Watch F) (db : Db F) : Prop where
  rewrites : ∀ p ∈ db.rewrites, w.rewrite p.1 p.2
  bumps : ∀ p ∈ db.bumps, w.bump p.1 p.2.1 p.2.2
  restated : ∀ p ∈ db.restated, w.restate p.1 p.2

omit [F64 F] in
theorem Watch.Clean.before {w : Watch F} {db db' : Db F} (h : w.Clean db') (hg : Grows db db') :
    w.Clean db :=
  ⟨fun p hp => h.rewrites p (hg.rewrites p hp), fun p hp => h.bumps p (hg.bumps p hp),
    fun p hp => h.restated p (hg.restated p hp)⟩

/-- An invariant survives, if all writes up to the last state are tolerated. -/
structure Keeps (env : Env F) (w : Watch F) (inv : Db F → Prop) (c c' : Conn F) : Prop where
  carries : Carries env c.db c'.db
  keeps : Wellformed env c.db → w.Clean c'.db → inv c.db → inv c'.db

section

variable {w : Watch F} {inv : Db F → Prop}

instance : Std.Refl (Keeps env w inv) where
  refl _ := ⟨⟨id, .of_eq rfl rfl rfl rfl⟩, fun _ _ h => h⟩

instance : IsTrans (Conn F) (Keeps env w inv) where
  trans _ _ _ hab hbc := by
    refine ⟨hab.carries.trans hbc.carries, fun ha hclean h => ?_⟩
    exact hbc.keeps (hab.carries.wellformed ha) hclean
      (hab.keeps ha (hclean.before hbc.carries.grows) h)

/-- An invariant that each edit of a grant keeps. -/
theorem keeps_of_edits {c c' : Conn F} (he : Edits env G c c')
    (step : ∀ db db', Edit env G db db' → Wellformed env db → w.Clean db' → inv db → inv db') :
    Keeps env w inv c c' := by
  have hdb := he.db
  refine ⟨carries_of_edits hdb, ?_⟩
  generalize c'.db = db' at hdb
  induction hdb with
  | refl => exact fun _ _ h => h
  | tail hstart hedit ih =>
    intro hc hclean h
    have hedits := carries_of_edits hstart
    exact step _ _ hedit (hedits.wellformed hc) hclean
      (ih hc (hclean.before hedit.grows) h)

/-- What a closure does, given what its statements do and the invariant of its last state. -/
private theorem keepsFrom_closure {α : Type} {P : Conn F → Prop} {m : Write F α} {G : Grant}
    (he : MovesFrom P (Edits env G) m)
    (h : ∀ s, P s → Wellformed env s.db → w.Clean (m s).2.db → inv s.db → inv (m s).2.db) :
    MovesFrom P (Keeps env w inv) m :=
  fun s hs => ⟨carries_of_edits (he s hs).db, h s hs⟩

theorem keeps_closure {α : Type} {m : Write F α} {G : Grant} (he : Moves (Edits env G) m)
    (h : ∀ s, Wellformed env s.db → w.Clean (m s).2.db → inv s.db → inv (m s).2.db) :
    Moves (Keeps env w inv) m :=
  fun s => ⟨carries_of_edits (he s).db, h s⟩

end

/-! ## Without faults -/

omit [F64 F] in
/-- A statement that cannot fail on its own: it takes effect, or the schema refuses it. -/
theorem exec_noFault (hfault : ∀ n, env.fault n = false) {α : Type}
    {f : Db F → Except Error (α × Db F)} (s : Conn F) :
    (∃ a t, exec env f s = (.ok a, t) ∧ f s.db = .ok (a, t.db)) ∨
      ∃ e t, exec env f s = (.error e, t) ∧ f s.db = .error e ∧ t.db = s.db := by
  unfold exec
  simp only [hfault, Bool.false_eq_true, if_false]
  cases hf : f s.db with
  | ok r => exact .inl ⟨r.1, _, rfl, rfl⟩
  | error e => exact .inr ⟨e, _, rfl, rfl, rfl⟩

omit [F64 F] in
theorem run_noFault (hfault : ∀ n, env.fault n = false) {f : Db F → Db F} (s : Conn F) :
    ∃ t, run env f s = (.ok (), t) ∧ t.db = f s.db := by
  rcases exec_noFault hfault (f := fun db => .ok ((), f db)) s with ⟨a, t, ht, hf⟩ | ⟨e, t, _, hf, _⟩
  · exact ⟨t, ht, (Prod.mk.inj (Except.ok.inj hf)).2.symm⟩
  · cases hf

/-- Two statements that belong together, the second an update that always succeeds. -/
theorem keeps_exec_run (hfault : ∀ n, env.fault n = false) {w : Watch F} {inv : Db F → Prop}
    {P : Conn F → Prop} {α : Type} {f : Db F → Except Error (α × Db F)} {g : Db F → Db F}
    {G : Grant} (he : MovesFrom P (Edits env G) (exec env f >>= fun _ => run env g))
    (h : ∀ s a db, P s → f s.db = .ok (a, db) → Wellformed env s.db → w.Clean (g db) →
      inv s.db → inv (g db)) :
    MovesFrom P (Keeps env w inv) (exec env f >>= fun _ => run env g) := by
  refine keepsFrom_closure he fun s hs hdb hclean hinv => ?_
  rcases exec_noFault hfault (f := f) s with ⟨a, t, ht, hf⟩ | ⟨e, t, ht, _, ht'⟩
  · obtain ⟨u, hu, hu'⟩ := run_noFault hfault (f := g) t
    rw [bind_of_ok _ ht, hu] at hclean ⊢
    show inv u.db
    have hclean : w.Clean u.db := hclean
    rw [hu'] at hclean ⊢
    exact h s a t.db hs hf hdb hclean hinv
  · rw [bind_of_error _ ht]
    show inv t.db
    rw [ht']
    exact hinv

/-- A new row can always take its first version. -/
theorem insertVersion_fresh {db db' : Db F} (hdb : Wellformed env db) {r : NewRow F} {m : Memory F}
    (hrow : insertMemoryRow r db = .ok (m, db')) {v : MemoryVersion} (hv : v.memoryId = m.id) :
    insertVersion v db' = .ok ((), { db' with versions := db'.versions ++ [v] }) := by
  obtain ⟨hbuilt, _, rfl⟩ := insertMemoryRow_ok hrow
  have hid : m.id = db.memorySeq + 1 := hbuilt.id
  have hnew : ∀ v' ∈ db.versions, v'.memoryId ≠ m.id := fun v' hv' heq => by
    have := hdb.versionBound v' hv'
    omega
  unfold insertVersion
  rw [if_neg, if_neg]
  · rw [List.any_eq_true, not_exists]
    intro v' h
    exact hnew v' h.1 ((of_decide_eq_true h.2).1.trans hv)
  · rw [hv, Option.isNone_iff_eq_none, memory?_eq_none]
    exact fun h => h m (List.mem_append_right _ (List.mem_singleton_self m)) rfl

/-- A row and its first version are inserted together or not at all. -/
theorem insertRow_version (hfault : ∀ n, env.fault n = false) {r : NewRow F}
    {v : Memory F → MemoryVersion} {α : Type} {k : Memory F → Write F α} {s : Conn F}
    {P : Except Error α × Conn F → Prop} (hv : ∀ m, (v m).memoryId = m.id)
    (hdb : Wellformed env s.db) (herror : ∀ e t, t.db = s.db → P (.error e, t))
    (hok : ∀ m db t, insertMemoryRow r s.db = .ok (m, db) →
      t.db = { db with versions := db.versions ++ [v m] } → P (k m t)) :
    P ((exec env (insertMemoryRow r) >>= fun m => exec env (insertVersion (v m)) >>= fun _ =>
      k m) s) := by
  rcases exec_noFault hfault (f := insertMemoryRow r) s with ⟨m, t, ht, hf⟩ | ⟨e, t, ht, _, hs⟩
  · have hversion := insertVersion_fresh hdb hf (hv m)
    rw [bind_of_ok _ ht]
    rcases exec_noFault hfault (f := insertVersion (v m)) t with ⟨_, u, hu, hu'⟩ | ⟨e, _, _, he, _⟩
    · rw [bind_of_ok _ hu]
      rw [hversion] at hu'
      exact hok m t.db u hf (Prod.mk.inj (Except.ok.inj hu')).2.symm
    · rw [hversion] at he
      cases he
  · rw [bind_of_error _ ht]
    exact herror e t hs

/-- A vector of the right dimension can always follow its new row. -/
theorem insertVec_fresh {db db' : Db F} (hdb : Wellformed env db) {r : NewRow F} {m : Memory F}
    (hrow : insertMemoryRow r db = .ok (m, db')) {versions : List MemoryVersion} {v : VecRow F}
    (hv : v.rowid = m.id) (hdim : v.embedding.length = db.embedDim) :
    insertVec v { db' with versions } = .ok ((), { db' with
      versions, vecs := db'.vecs ++ [v], vecLog := db'.vecLog ++ [.insert v] }) := by
  obtain ⟨hbuilt, _, rfl⟩ := insertMemoryRow_ok hrow
  have hid : m.id = db.memorySeq + 1 := hbuilt.id
  unfold insertVec
  rw [if_neg (not_not.mpr hdim), if_neg]
  rw [List.any_eq_true, not_exists]
  intro v' h
  obtain ⟨m', hm', hrowid, _⟩ := hdb.vecs v' h.1
  have := hdb.idBound m' hm'
  have := of_decide_eq_true h.2
  omega

/-- The vector of a new row is inserted without fail. -/
theorem exec_insertVec_fresh (hfault : ∀ n, env.fault n = false) {db db' : Db F}
    (hdb : Wellformed env db) {r : NewRow F} {m : Memory F}
    (hrow : insertMemoryRow r db = .ok (m, db')) {versions : List MemoryVersion} {v : VecRow F}
    (hv : v.rowid = m.id) (hdim : v.embedding.length = db.embedDim) {t : Conn F}
    (ht : t.db = { db' with versions }) :
    ∃ u, exec env (insertVec v) t = (.ok (), u) ∧
      u.db = { db' with
        versions, vecs := db'.vecs ++ [v], vecLog := db'.vecLog ++ [.insert v] } := by
  have hvec : insertVec v { db' with versions } = .ok ((), { db' with
      versions, vecs := db'.vecs ++ [v], vecLog := db'.vecLog ++ [.insert v] }) :=
    insertVec_fresh hdb hrow hv hdim
  rw [← ht] at hvec
  rcases exec_noFault hfault (f := insertVec v) t with ⟨_, u, hu, hu'⟩ | ⟨e, _, _, he, _⟩
  · rw [hvec] at hu'
    exact ⟨u, hu, (Prod.mk.inj (Except.ok.inj hu')).2.symm⟩
  · rw [hvec] at he
    cases he

end AgosMemory
