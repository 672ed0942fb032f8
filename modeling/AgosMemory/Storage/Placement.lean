import AgosMemory.Storage.Chunks
import AgosMemory.Storage.Positions

/-!
# The positions follow the chunks

Through any statements that the chunks accept, the positions that are followed without the chunks are
those in `_rowids`.
-/

namespace AgosMemory.Vec0

open Library

variable {α : Type} {layout : Layout α} {t t' : Table α} {p : Positions} {rowid : Int} {value : α}

/-- The positions are those of the table. -/
structure Follows (p : Positions) (t : Table α) : Prop where
  rowids : p.rowids = t.rowids
  chunkSeq : p.chunkSeq = t.chunkSeq

theorem follows_empty : Follows {} ({} : Table α) := ⟨rfl, rfl⟩

/-! ## Where the next row goes -/

private theorem latestChunk?_eq_none (h : t.latestChunk? = none) : t.chunks = [] := by
  unfold Table.latestChunk? at h
  rw [List.find?_eq_none] at h
  by_contra hne
  have hids : (t.chunks.map Chunk.id).max? ≠ none :=
    mt List.max?_eq_none_iff.mp (mt List.map_eq_nil_iff.mp hne)
  obtain ⟨id, hid⟩ := Option.ne_none_iff_exists'.mp hids
  obtain ⟨c, hc, rfl⟩ := List.mem_map.mp (List.max?_mem hid)
  exact h c hc (decide_eq_true hid.symm)

/-- The newest chunk is the one with the greatest id among the positions. -/
theorem Sound.max_chunkId (h : Sound layout t) (hoccupied : Occupied t) {c : Chunk α}
    (hc : t.latestChunk? = some c) : (t.rowids.map RowidsRow.chunkId).max? = some c.id := by
  have hmem : c ∈ t.chunks := List.mem_of_find?_eq_some hc
  have hmax : some c.id = (t.chunks.map Chunk.id).max? := of_decide_eq_true
    (List.find?_some (p := fun c : Chunk α => decide (some c.id = (t.chunks.map Chunk.id).max?)) hc)
  obtain ⟨_, hle⟩ := List.max?_eq_some_iff.mp hmax.symm
  rw [List.max?_eq_some_iff]
  constructor
  · obtain ⟨i, hi⟩ := hoccupied c hmem
    obtain ⟨row, hslot⟩ := (h.sized c hmem).slot_isSome hi
    exact List.mem_map.mpr ⟨_, h.owned c hmem i row hslot, rfl⟩
  · intro id hid
    obtain ⟨r, hr, rfl⟩ := List.mem_map.mp hid
    obtain ⟨c', hc', hid', _⟩ := h.placed r hr
    exact hle _ (hid' ▸ List.mem_map_of_mem hc')

/-- A position has a row exactly if its bit is set. -/
theorem Sound.used_eq (h : Sound layout t) (hp : Follows p t) {c : Chunk α} (hc : c ∈ t.chunks)
    (i : Nat) : p.used c.id i = c.validity.get i := by
  unfold Positions.used
  rw [hp.rowids, Bool.eq_iff_iff, List.any_eq_true]
  simp only [Bool.and_eq_true, decide_eq_true_eq]
  constructor
  · rintro ⟨r, hr, hid, rfl⟩
    obtain ⟨c', hc', hid', v, hslot⟩ := h.placed r hr
    obtain rfl := h.eq_of_id hc' hc (hid'.trans hid)
    exact (slot_eq_some.mp hslot).1
  · intro hi
    obtain ⟨row, hslot⟩ := (h.sized c hc).slot_isSome hi
    exact ⟨_, h.owned c hc i row hslot, rfl, rfl⟩

/-- The available position, found without the chunks. -/
theorem Sound.insert_position (h : Sound layout t) (hoccupied : Occupied t) (hp : Follows p t)
    {a : Available α} (ha : Vec0.insertNextAvailableStep layout t = .ok a) (rowid : Int) :
    p.insert layout.chunkSize rowid =
      ⟨a.table.chunkSeq, t.rowids ++ [⟨rowid, a.chunkId, a.chunkOffset⟩]⟩ := by
  have hfresh : p.putFresh rowid = ⟨(fresh layout t).table.chunkSeq,
      t.rowids ++ [⟨rowid, (fresh layout t).chunkId, (fresh layout t).chunkOffset⟩]⟩ := by
    unfold Positions.putFresh Positions.put fresh
    rw [hp.rowids, hp.chunkSeq]
    rfl
  unfold Positions.insert
  unfold Vec0.insertNextAvailableStep at ha
  cases hlatest : t.latestChunk? with
  | none =>
    rw [hlatest] at ha
    obtain rfl := Except.ok.inj ha
    have hrowids : t.rowids = [] := by
      rw [List.eq_nil_iff_forall_not_mem]
      intro r hr
      obtain ⟨c, hc, _⟩ := h.placed r hr
      rw [latestChunk?_eq_none hlatest] at hc
      cases hc
    rw [← hfresh, hp.rowids, hrowids]
    rfl
  | some c =>
    have hc : c ∈ t.chunks := List.mem_of_find?_eq_some hlatest
    have hused : (fun i => !p.used c.id i) = fun i => !c.validity.get i := by
      funext i
      rw [h.used_eq hp hc]
    rw [hlatest] at ha
    dsimp only at ha
    rw [if_neg (not_not_intro (h.sized c hc).validity), Bitmap.firstClear_eq,
      (h.sized c hc).validity, layout.eight_mul] at ha
    rw [hp.rowids, h.max_chunkId hoccupied hlatest]
    dsimp only
    rw [hused]
    cases hfirst : (List.range layout.chunkSize).find? fun i => !c.validity.get i with
    | none =>
      rw [hfirst] at ha
      obtain rfl := Except.ok.inj ha
      exact hfresh
    | some i =>
      rw [hfirst] at ha
      obtain rfl := Except.ok.inj ha
      show p.put rowid c.id i = _
      unfold Positions.put
      rw [hp.rowids, hp.chunkSeq]

/-! ## The statements -/

private theorem insertWriteFinalStep_ok {a : Available α}
    (h : insertWriteFinalStep layout rowid value a = .ok t') : t'.chunkSeq = a.table.chunkSeq ∧
      t'.rowids = a.table.rowids.map fun r =>
        if r.rowid = rowid then ⟨rowid, a.chunkId, a.chunkOffset⟩ else r := by
  unfold insertWriteFinalStep at h
  split at h
  · cases h
  · split at h
    · cases h
    · split at h
      · cases h
      · obtain rfl := Except.ok.inj h
        exact ⟨rfl, rfl⟩

theorem Follows.insert (hp : Follows p t) (h : Sound layout t) (hoccupied : Occupied t)
    (hrun : Vec0.insert layout rowid value t = .ok t') :
    Follows (p.insert layout.chunkSize rowid) t' := by
  unfold Vec0.insert insertRowidStep at hrun
  cases hcheck : layout.check value with
  | error e =>
    rw [hcheck] at hrun
    cases hrun
  | ok _ =>
    rw [hcheck] at hrun
    by_cases hany : (t.rowids.any fun r => r.rowid = rowid) = true
    · rw [if_pos hany] at hrun
      cases hrun
    · rw [if_neg hany] at hrun
      have hnew : rowid ∉ t.rowids.map RowidsRow.rowid := fun hmem => hany (by
        obtain ⟨r, hr, heq⟩ := List.mem_map.mp hmem
        exact List.any_eq_true.mpr ⟨r, hr, decide_eq_true heq⟩)
      change (insertNextAvailableStep layout { t with rowids := t.rowids ++ [⟨rowid, 0, 0⟩] } >>=
        fun a => insertWriteFinalStep layout rowid value a) = .ok t' at hrun
      rw [insertNextAvailableStep_rowids] at hrun
      obtain ⟨a, c, hnext, hfree⟩ := h.insertNextAvailableStep
      rw [hnext] at hrun
      obtain ⟨hseq, hrowids⟩ := insertWriteFinalStep_ok hrun
      rw [h.insert_position hoccupied hp hnext]
      refine ⟨?_, hseq.symm⟩
      rw [hrowids]
      exact (updatePosition_new hnew a.chunkId).symm

/-- A write to the blobs of a chunk leaves the positions. -/
theorem Follows.of_chunks (hp : Follows p t) {chunks : List (Chunk α)} :
    Follows p { t with chunks } := ⟨hp.rowids, hp.chunkSeq⟩

theorem Follows.update (hp : Follows p t) {f : α → α} (hrun : Vec0.update rowid f t = .ok t') :
    Follows p t' := by
  unfold Vec0.update at hrun
  split at hrun
  · cases hrun
  · split at hrun
    · cases hrun
    · split at hrun
      · cases hrun
      · obtain rfl := Except.ok.inj hrun
        exact hp.of_chunks

theorem Follows.clearValidity (hp : Follows p t) {id : Int} {i : Nat}
    (hrun : Vec0.clearValidity id i t = .ok t') : Follows p t' := by
  unfold Vec0.clearValidity at hrun
  split at hrun
  · cases hrun
  · split at hrun
    · cases hrun
    · split at hrun
      · cases hrun
      · obtain rfl := Except.ok.inj hrun
        exact hp.of_chunks

theorem Follows.clearRowid (hp : Follows p t) {id : Int} {i : Nat}
    (hrun : Vec0.clearRowid id i t = .ok t') : Follows p t' := by
  unfold Vec0.clearRowid at hrun
  split at hrun
  · cases hrun
  · split at hrun
    · cases hrun
    · obtain rfl := Except.ok.inj hrun
      exact hp.of_chunks

theorem Follows.clearColumns (hp : Follows p t) {id : Int} {i : Nat}
    (hrun : Vec0.clearColumns layout id i t = .ok t') : Follows p t' := by
  unfold Vec0.clearColumns at hrun
  split at hrun
  · cases hrun
  · split at hrun
    · cases hrun
    · obtain rfl := Except.ok.inj hrun
      exact hp.of_chunks

theorem Follows.deleteChunkIfEmpty (hp : Follows p t) {id : Int}
    (hrun : Vec0.deleteChunkIfEmpty id t = .ok t') : Follows p t' := by
  unfold Vec0.deleteChunkIfEmpty at hrun
  split at hrun
  · cases hrun
  · split at hrun
    · obtain rfl := Except.ok.inj hrun
      exact hp.of_chunks
    · obtain rfl := Except.ok.inj hrun
      exact hp

theorem Follows.delete (hp : Follows p t) (hrun : Vec0.delete layout rowid t = .ok t') :
    Follows { p with rowids := p.rowids.filter fun r => r.rowid ≠ rowid } t' := by
  unfold Vec0.delete at hrun
  split at hrun
  · cases hrun
  · simp only [bind, Except.bind] at hrun
    split at hrun
    · cases hrun
    next t₁ h₁ =>
    split at hrun
    · cases hrun
    next t₂ h₂ =>
    split at hrun
    · cases hrun
    next t₃ h₃ =>
    have hp₃ := ((hp.clearValidity h₁).clearRowid h₂).clearColumns h₃
    have hdeleted : Follows { p with rowids := p.rowids.filter fun r => r.rowid ≠ rowid }
        (t₃.deleteRowids rowid) :=
      ⟨congrArg (List.filter fun r => r.rowid ≠ rowid) hp₃.rowids, hp₃.chunkSeq⟩
    exact hdeleted.deleteChunkIfEmpty hrun

variable {rows : List (Int × α)}

theorem Follows.statement (hp : Follows p t) (h : Stores layout t rows) {s : Statement α}
    (hrun : s.run layout t = .ok t') : Follows (p.step layout.chunkSize s) t' := by
  cases s with
  | insert rowid value => exact hp.insert h.sound h.occupied hrun
  | update rowid f =>
    change (Vec0.read t rowid >>= _) = _ at hrun
    rw [h.read_eq] at hrun
    cases hfind : rows.find? fun row => row.1 = rowid with
    | none =>
      rw [hfind] at hrun
      obtain rfl := Except.ok.inj hrun
      exact hp
    | some row =>
      rw [hfind] at hrun
      exact hp.update hrun
  | delete rowid =>
    change (Vec0.read t rowid >>= _) = _ at hrun
    rw [h.read_eq] at hrun
    cases hfind : rows.find? fun row => row.1 = rowid with
    | none =>
      rw [hfind] at hrun
      obtain rfl := Except.ok.inj hrun
      refine ⟨?_, hp.chunkSeq⟩
      show p.rowids.filter _ = _
      rw [hp.rowids, List.filter_eq_self]
      intro r hr
      refine decide_eq_true fun heq => ?_
      obtain ⟨c, hc, _, v, hslot⟩ := h.sound.placed r hr
      refine List.find?_eq_none.mp hfind (r.rowid, v) ?_ (decide_eq_true heq)
      exact (h.same _ _).mpr ⟨c, hc, _, hslot⟩
    | some row =>
      rw [hfind] at hrun
      exact hp.delete hrun

/-- Statements of which none fails. -/
theorem Follows.run (hp : Follows p t) (h : Stores layout t rows) {ss : List (Statement α)}
    (hok : ∀ o ∈ outcomes (Statement.run layout) ss t, o = .ok ()) :
    Follows (ss.foldl (Positions.step layout.chunkSize) p) (final (Statement.run layout) ss t) := by
  induction ss generalizing p t rows with
  | nil => exact hp
  | cons s ss ih =>
    unfold outcomes at hok
    obtain ⟨hs, hss⟩ := List.forall_mem_cons.mp hok
    have hstep := h.statement s
    unfold final
    cases hrun : s.run layout t with
    | error e =>
      rw [hrun] at hs
      cases hs
    | ok t' =>
      rw [hrun] at hss hstep
      cases hplain : s.plain layout rows with
      | error e =>
        rw [hplain] at hstep
        cases hstep
      | ok rows' =>
        rw [hplain] at hstep
        cases hstep with
        | done h' => exact ih (hp.statement h hrun) h' hss

end AgosMemory.Vec0
