import AgosMemory.Storage.Vec0
import Mathlib.Data.List.Nodup

/-!
# The rows of the vector table

What the chunks hold, read position by position, is the table as a list of rows. Each statement keeps
the chunks and `_rowids` in agreement, and its outcome is that of the statement on the list.
-/

namespace AgosMemory.Vec0

open Library

variable {α : Type} {layout : Layout α} {t t' : Table α} {c : Chunk α} {i j : Nat} {rowid : Int}
  {value : α}

/-! ## Positions -/

/-- The row at a position in use. -/
def Chunk.slot (c : Chunk α) (i : Nat) : Option (Int × α) :=
  if c.validity.get i then c.rowids[i]?.bind fun rowid => c.columns[i]?.map fun v => (rowid, v)
  else none

/-- The blobs of a chunk have the sizes of the declaration. -/
structure Chunk.Sized (layout : Layout α) (c : Chunk α) : Prop where
  validity : c.validity.length = layout.chunkSize / 8
  rowids : c.rowids.length = layout.chunkSize
  columns : c.columns.length = layout.chunkSize

/-- A position not in use is zeroed. -/
def Chunk.Wiped (layout : Layout α) (c : Chunk α) : Prop :=
  ∀ i < layout.chunkSize, c.validity.get i = false →
    c.rowids[i]? = some 0 ∧ c.columns[i]? = some layout.blank

theorem Layout.eight_mul (layout : Layout α) : 8 * (layout.chunkSize / 8) = layout.chunkSize :=
  Nat.mul_div_cancel' layout.whole

theorem Chunk.Sized.lt (h : c.Sized layout) (hi : c.validity.get i = true) : i < layout.chunkSize := by
  by_contra hge
  have hlen : 8 * c.validity.length ≤ i := by
    rw [h.validity, layout.eight_mul]
    omega
  rw [Bitmap.get_of_length_le hlen] at hi
  cases hi

theorem slot_eq_some {row : Int × α} : c.slot i = some row ↔
    c.validity.get i = true ∧ c.rowids[i]? = some row.1 ∧ c.columns[i]? = some row.2 := by
  unfold Chunk.slot
  cases c.validity.get i with
  | false => simp
  | true => cases c.rowids[i]? <;> cases c.columns[i]? <;> simp [Prod.ext_iff]

theorem Chunk.Sized.slot_isSome (h : c.Sized layout) (hi : c.validity.get i = true) :
    ∃ row, c.slot i = some row := by
  have hlt := h.lt hi
  refine ⟨(c.rowids.get ⟨i, h.rowids ▸ hlt⟩, c.columns.get ⟨i, h.columns ▸ hlt⟩),
    slot_eq_some.mpr ⟨hi, ?_, ?_⟩⟩
  · exact List.getElem?_eq_getElem _
  · exact List.getElem?_eq_getElem _

private theorem slot_lt (h : c.Sized layout) {row : Int × α} (hslot : c.slot i = some row) :
    i < layout.chunkSize := h.lt (slot_eq_some.mp hslot).1

theorem slot_of_clear (h : c.validity.get i = false) : c.slot i = none := by
  unfold Chunk.slot
  rw [h]
  rfl

/-! ## Agreement -/

/-- `_rowids` and the chunks agree. -/
structure Sound (layout : Layout α) (t : Table α) : Prop where
  sized : ∀ c ∈ t.chunks, c.Sized layout
  wiped : ∀ c ∈ t.chunks, c.Wiped layout
  ids : (t.chunks.map Chunk.id).Pairwise (· < ·)
  seq : ∀ c ∈ t.chunks, c.id ≤ t.chunkSeq
  keys : (t.rowids.map RowidsRow.rowid).Nodup
  placed : ∀ r ∈ t.rowids, ∃ c ∈ t.chunks, c.id = r.chunkId ∧ ∃ v, c.slot r.chunkOffset = some (r.rowid, v)
  owned : ∀ c ∈ t.chunks, ∀ i row, c.slot i = some row → ⟨row.1, c.id, i⟩ ∈ t.rowids

/-- The table has the row. -/
def Holds (t : Table α) (rowid : Int) (value : α) : Prop :=
  ∃ c ∈ t.chunks, ∃ i, c.slot i = some (rowid, value)

theorem find?_of_mem {β κ : Type} [DecidableEq κ] {key : β → κ} {l : List β} (h : (l.map key).Nodup)
    {a : β} (ha : a ∈ l) : (l.find? fun b => key b = key a) = some a := by
  cases hfind : l.find? fun b => key b = key a with
  | none => exact absurd (decide_eq_true rfl) (List.find?_eq_none.mp hfind a ha)
  | some b =>
    have hmem := List.mem_of_find?_eq_some hfind
    have hkey : key b = key a :=
      of_decide_eq_true (List.find?_some (p := fun b => decide (key b = key a)) hfind)
    exact congrArg some (List.inj_on_of_nodup_map h hmem ha hkey)

namespace Sound

variable (h : Sound layout t)
include h

theorem nodup : (t.chunks.map Chunk.id).Nodup := h.ids.imp ne_of_lt

private theorem chunk?_of_mem (hc : c ∈ t.chunks) : t.chunk? c.id = some c := find?_of_mem h.nodup hc

theorem eq_of_id {c c' : Chunk α} (hc : c ∈ t.chunks) (hc' : c' ∈ t.chunks) (hid : c.id = c'.id) :
    c = c' := List.inj_on_of_nodup_map h.nodup hc hc' hid

/-- `_rowids` has the position of a row. -/
private theorem position?_of_slot (hc : c ∈ t.chunks) (hslot : c.slot i = some (rowid, value)) :
    t.position? rowid = some ⟨rowid, c.id, i⟩ := find?_of_mem h.keys (h.owned c hc i _ hslot)

/-- What `_rowids` says of a row that is stored. -/
private theorem position?_some {r : RowidsRow} (hr : t.position? rowid = some r) : r.rowid = rowid ∧
    ∃ c ∈ t.chunks, c.id = r.chunkId ∧ ∃ v, c.slot r.chunkOffset = some (rowid, v) := by
  have hrowid : r.rowid = rowid := of_decide_eq_true
    (List.find?_some (p := fun r : RowidsRow => decide (r.rowid = rowid)) hr)
  exact ⟨hrowid, hrowid ▸ h.placed r (List.mem_of_find?_eq_some hr)⟩

/-- A rowid has one value. -/
private theorem holds_unique {v v' : α} (hv : Holds t rowid v) (hv' : Holds t rowid v') : v = v' := by
  obtain ⟨c, hc, i, hslot⟩ := hv
  obtain ⟨c', hc', i', hslot'⟩ := hv'
  have hposition := (h.position?_of_slot hc hslot).symm.trans (h.position?_of_slot hc' hslot')
  obtain ⟨_, hid, rfl⟩ := RowidsRow.mk.inj (Option.some.inj hposition)
  obtain rfl := h.eq_of_id hc hc' hid
  exact (Prod.mk.inj (Option.some.inj (hslot.symm.trans hslot'))).2

private theorem read_of_holds (hv : Holds t rowid value) : read t rowid = .ok (some value) := by
  obtain ⟨c, hc, i, hslot⟩ := hv
  unfold read
  rw [h.position?_of_slot hc hslot]
  dsimp only
  rw [h.chunk?_of_mem hc]
  dsimp only
  rw [(slot_eq_some.mp hslot).2.2]

private theorem position?_eq_none (hnone : ∀ v, ¬ Holds t rowid v) : t.position? rowid = none := by
  cases hr : t.position? rowid with
  | none => rfl
  | some r =>
    obtain ⟨_, c, hc, _, v, hslot⟩ := h.position?_some hr
    exact absurd ⟨c, hc, _, hslot⟩ (hnone v)

private theorem read_of_not_holds (hnone : ∀ v, ¬ Holds t rowid v) : read t rowid = .ok none := by
  unfold read
  rw [h.position?_eq_none hnone]

end Sound

/-! ## A write at one position -/

/-- What a write leaves: another content at one position of a chunk, and `_rowids` to match. -/
structure Written (layout : Layout α) (t : Table α) (c : Chunk α) (i : Nat) (s : Option (Int × α))
    (new : Chunk α) (t' : Table α) : Prop where
  chunks : ∀ c', c' ∈ t'.chunks ↔ c' = new ∨ c' ∈ t.chunks ∧ c'.id ≠ c.id
  ids : t'.chunks.map Chunk.id = t.chunks.map Chunk.id
  seq : t'.chunkSeq = t.chunkSeq
  id : new.id = c.id
  sized : new.Sized layout
  wiped : new.Wiped layout
  slot : ∀ j, new.slot j = if j = i then s else c.slot j
  keys : (t'.rowids.map RowidsRow.rowid).Nodup
  rowids : ∀ r, r ∈ t'.rowids ↔ (∃ row, s = some row ∧ r = ⟨row.1, c.id, i⟩) ∨
    r ∈ t.rowids ∧ ¬ (r.chunkId = c.id ∧ r.chunkOffset = i)

namespace Written

variable {s : Option (Int × α)} {new : Chunk α} (hw : Written layout t c i s new t')
include hw

theorem sound (h : Sound layout t) (hc : c ∈ t.chunks) : Sound layout t' where
  sized c' hc' := by
    rcases (hw.chunks c').mp hc' with rfl | ⟨hold, _⟩
    · exact hw.sized
    · exact h.sized c' hold
  wiped c' hc' := by
    rcases (hw.chunks c').mp hc' with rfl | ⟨hold, _⟩
    · exact hw.wiped
    · exact h.wiped c' hold
  ids := hw.ids ▸ h.ids
  seq c' hc' := by
    rw [hw.seq]
    rcases (hw.chunks c').mp hc' with rfl | ⟨hold, _⟩
    · exact hw.id ▸ h.seq c hc
    · exact h.seq c' hold
  keys := hw.keys
  placed r hr := by
    rcases (hw.rowids r).mp hr with ⟨row, rfl, rfl⟩ | ⟨hold, haway⟩
    · refine ⟨new, (hw.chunks new).mpr (.inl rfl), hw.id, row.2, ?_⟩
      rw [hw.slot, if_pos rfl]
    · obtain ⟨c', hc', hid, v, hslot⟩ := h.placed r hold
      by_cases hsame : c'.id = c.id
      · obtain rfl := h.eq_of_id hc' hc hsame
        refine ⟨new, (hw.chunks new).mpr (.inl rfl), hw.id.trans hid, v, ?_⟩
        rw [hw.slot, if_neg fun hoff => haway ⟨hid.symm, hoff⟩, hslot]
      · exact ⟨c', (hw.chunks c').mpr (.inr ⟨hc', hsame⟩), hid, v, hslot⟩
  owned c' hc' j row hslot := by
    rw [hw.rowids]
    rcases (hw.chunks c').mp hc' with rfl | ⟨hold, hother⟩
    · rw [hw.slot] at hslot
      rw [hw.id]
      by_cases hj : j = i
      · rw [if_pos hj] at hslot
        exact .inl ⟨row, hslot, by rw [hj]⟩
      · rw [if_neg hj] at hslot
        exact .inr ⟨h.owned c hc j row hslot, fun hat => hj hat.2⟩
    · exact .inr ⟨h.owned c' hold j row hslot, fun hat => hother hat.1⟩

/-- The rows after a write: the one written, and those at other positions. -/
theorem holds_iff (h : Sound layout t) (hc : c ∈ t.chunks) :
    Holds t' rowid value ↔ s = some (rowid, value) ∨
      ∃ c' ∈ t.chunks, ∃ j, ¬ (c'.id = c.id ∧ j = i) ∧ c'.slot j = some (rowid, value) := by
  constructor
  · rintro ⟨c', hc', j, hslot⟩
    rcases (hw.chunks c').mp hc' with rfl | ⟨hold, hother⟩
    · rw [hw.slot] at hslot
      by_cases hj : j = i
      · rw [if_pos hj] at hslot
        exact .inl hslot
      · rw [if_neg hj] at hslot
        exact .inr ⟨c, hc, j, fun hat => hj hat.2, hslot⟩
    · exact .inr ⟨c', hold, j, fun hat => hother hat.1, hslot⟩
  · rintro (hs | ⟨c', hc', j, haway, hslot⟩)
    · refine ⟨new, (hw.chunks new).mpr (.inl rfl), i, ?_⟩
      rw [hw.slot, if_pos rfl, hs]
    · by_cases hsame : c'.id = c.id
      · obtain rfl := h.eq_of_id hc' hc hsame
        refine ⟨new, (hw.chunks new).mpr (.inl rfl), j, ?_⟩
        rw [hw.slot, if_neg fun hj => haway ⟨rfl, hj⟩, hslot]
      · exact ⟨c', (hw.chunks c').mpr (.inr ⟨hc', hsame⟩), j, hslot⟩

end Written

private theorem mem_updateChunk (h : (t.chunks.map Chunk.id).Nodup) (hc : c ∈ t.chunks)
    {f : Chunk α → Chunk α} {c' : Chunk α} : c' ∈ (t.updateChunk c.id f).chunks ↔
      c' = f c ∨ c' ∈ t.chunks ∧ c'.id ≠ c.id := by
  unfold Table.updateChunk
  rw [List.mem_map]
  constructor
  · rintro ⟨old, hold, rfl⟩
    by_cases hid : old.id = c.id
    · rw [if_pos hid, List.inj_on_of_nodup_map h hold hc hid]
      exact .inl rfl
    · rw [if_neg hid]
      exact .inr ⟨hold, hid⟩
  · rintro (rfl | ⟨hold, hid⟩)
    · exact ⟨c, hc, if_pos rfl⟩
    · exact ⟨c', hold, if_neg hid⟩

private theorem ids_updateChunk {id : Int} {f : Chunk α → Chunk α} (hf : ∀ c, (f c).id = c.id) :
    (t.updateChunk id f).chunks.map Chunk.id = t.chunks.map Chunk.id := by
  unfold Table.updateChunk
  rw [List.map_map]
  refine List.map_congr_left fun c _ => ?_
  show (if c.id = id then f c else c).id = c.id
  split
  · exact hf c
  · rfl

private theorem updateChunk_updateChunk {id : Int} {f g : Chunk α → Chunk α}
    (hf : ∀ c, (f c).id = c.id) :
    (t.updateChunk id f).updateChunk id g = t.updateChunk id (g ∘ f) := by
  unfold Table.updateChunk
  dsimp only
  rw [List.map_map]
  congr 1
  refine List.map_congr_left fun c _ => ?_
  show (if (if c.id = id then f c else c).id = id then g (if c.id = id then f c else c)
    else (if c.id = id then f c else c)) = if c.id = id then g (f c) else c
  by_cases hid : c.id = id
  · rw [if_pos hid, if_pos ((hf c).trans hid), if_pos hid]
  · rw [if_neg hid, if_neg hid, if_neg hid]

private theorem chunk?_updateChunk {id : Int} {f : Chunk α → Chunk α} (hf : ∀ c, (f c).id = c.id) :
    (t.updateChunk id f).chunk? id = (t.chunk? id).map f := by
  unfold Table.updateChunk Table.chunk?
  dsimp only
  induction t.chunks with
  | nil => rfl
  | cons c rest ih =>
    rw [List.map_cons]
    by_cases hid : c.id = id
    · simp [hid, hf]
    · simp [hid, ih]

/-- The chunk with another content at a position. -/
def Chunk.put (layout : Layout α) (i : Nat) (s : Option (Int × α)) (c : Chunk α) : Chunk α :=
  { c with
    validity := c.validity.set i s.isSome
    columns := c.columns.set i ((s.map Prod.snd).getD layout.blank)
    rowids := c.rowids.set i ((s.map Prod.fst).getD 0) }

theorem Chunk.Sized.put (h : c.Sized layout) (i : Nat) (s : Option (Int × α)) :
    (c.put layout i s).Sized layout where
  validity := (Bitmap.length_set _ _ _).trans h.validity
  rowids := List.length_set.trans h.rowids
  columns := List.length_set.trans h.columns

theorem Chunk.Sized.get_put (h : c.Sized layout) (hi : i < layout.chunkSize) (s : Option (Int × α)) :
    (c.put layout i s).validity.get j = if j = i then s.isSome else c.validity.get j := by
  refine Bitmap.get_set ?_
  rw [h.validity, layout.eight_mul]
  exact hi

theorem Chunk.Sized.slot_put (h : c.Sized layout) (hi : i < layout.chunkSize) (s : Option (Int × α)) :
    (c.put layout i s).slot j = if j = i then s else c.slot j := by
  unfold Chunk.slot
  rw [h.get_put hi]
  by_cases hj : j = i
  · subst hj
    rw [if_pos rfl, if_pos rfl]
    cases s with
    | none => rfl
    | some row =>
      have hrowid : (c.rowids.set j row.1)[j]? = some row.1 :=
        List.getElem?_set_self (h.rowids.symm ▸ hi)
      have hvalue : (c.columns.set j row.2)[j]? = some row.2 :=
        List.getElem?_set_self (h.columns.symm ▸ hi)
      show (c.rowids.set j row.1)[j]?.bind (fun rowid =>
        (c.columns.set j row.2)[j]?.map fun v => (rowid, v)) = some row
      rw [hrowid, hvalue]
      rfl
  · rw [if_neg hj, if_neg hj]
    show (if c.validity.get j then (c.rowids.set i _)[j]?.bind _ else none) = _
    rw [List.getElem?_set_ne (Ne.symm hj)]
    congr 1
    show ((c.rowids[j]?).bind fun rowid => (c.columns.set i _)[j]?.map fun v => (rowid, v)) = _
    rw [List.getElem?_set_ne (Ne.symm hj)]

theorem Chunk.Wiped.put (h : c.Wiped layout) (hsized : c.Sized layout) (hi : i < layout.chunkSize)
    (s : Option (Int × α)) : (c.put layout i s).Wiped layout := by
  intro j hj hclear
  rw [hsized.get_put hi] at hclear
  by_cases heq : j = i
  · subst heq
    rw [if_pos rfl] at hclear
    obtain rfl := Option.not_isSome_iff_eq_none.mp (Bool.eq_false_iff.mp hclear)
    exact ⟨List.getElem?_set_self (hsized.rowids.symm ▸ hi),
      List.getElem?_set_self (hsized.columns.symm ▸ hi)⟩
  · rw [if_neg heq] at hclear
    obtain ⟨hrowid, hvalue⟩ := h j hj hclear
    exact ⟨(List.getElem?_set_ne (Ne.symm heq)).trans hrowid,
      (List.getElem?_set_ne (Ne.symm heq)).trans hvalue⟩

theorem Sound.written_put (h : Sound layout t) (hc : c ∈ t.chunks) (hi : i < layout.chunkSize)
    {s : Option (Int × α)} {rowids : List RowidsRow} (hkeys : (rowids.map RowidsRow.rowid).Nodup)
    (hrowids : ∀ r, r ∈ rowids ↔ (∃ row, s = some row ∧ r = ⟨row.1, c.id, i⟩) ∨
      r ∈ t.rowids ∧ ¬ (r.chunkId = c.id ∧ r.chunkOffset = i)) :
    Written layout t c i s (c.put layout i s)
      { t.updateChunk c.id (Chunk.put layout i s) with rowids } where
  chunks _ := mem_updateChunk h.nodup hc
  ids := ids_updateChunk fun _ => rfl
  seq := rfl
  id := rfl
  sized := (h.sized c hc).put i s
  wiped := (h.wiped c hc).put (h.sized c hc) hi s
  slot _ := (h.sized c hc).slot_put hi s
  keys := hkeys
  rowids := hrowids

/-! ## Inserting -/

private theorem sized_blankChunk (layout : Layout α) (id : Int) :
    (blankChunk layout id).Sized layout where
  validity := Bitmap.length_zero _
  rowids := List.length_replicate
  columns := List.length_replicate

private theorem slot_blankChunk {id : Int} :
    (blankChunk layout id).slot i = none := slot_of_clear Bitmap.get_zero

private theorem mem_newChunk {c' : Chunk α} : c' ∈ (newChunk layout t).chunks ↔
    c' ∈ t.chunks ∨ c' = blankChunk layout (t.chunkSeq + 1) := by
  show c' ∈ t.chunks ++ [_] ↔ _
  rw [List.mem_append, List.mem_singleton]

private theorem holds_newChunk : Holds (newChunk layout t) rowid value ↔ Holds t rowid value := by
  constructor
  · rintro ⟨c, hc, i, hslot⟩
    rcases mem_newChunk.mp hc with hold | rfl
    · exact ⟨c, hold, i, hslot⟩
    · rw [slot_blankChunk] at hslot
      cases hslot
  · rintro ⟨c, hc, hslot⟩
    exact ⟨c, mem_newChunk.mpr (.inl hc), hslot⟩

theorem Sound.newChunk (h : Sound layout t) : Sound layout (newChunk layout t) where
  sized c hc := by
    rcases mem_newChunk.mp hc with hold | rfl
    · exact h.sized c hold
    · exact sized_blankChunk layout _
  wiped c hc := by
    rcases mem_newChunk.mp hc with hold | rfl
    · exact h.wiped c hold
    · exact fun i hi _ => ⟨List.getElem?_replicate_of_lt hi, List.getElem?_replicate_of_lt hi⟩
  ids := by
    show ((t.chunks ++ [_]).map Chunk.id).Pairwise (· < ·)
    rw [List.map_append, List.pairwise_append]
    refine ⟨h.ids, List.pairwise_singleton _ _, fun id hid id' hid' => ?_⟩
    obtain ⟨c, hc, rfl⟩ := List.mem_map.mp hid
    have hnext : id' = t.chunkSeq + 1 := List.mem_singleton.mp hid'
    have hseq := h.seq c hc
    omega
  seq c hc := by
    show c.id ≤ t.chunkSeq + 1
    rcases mem_newChunk.mp hc with hold | rfl
    · have hseq := h.seq c hold
      omega
    · exact Int.le_refl _
  keys := h.keys
  placed r hr := by
    obtain ⟨c, hc, hplaced⟩ := h.placed r hr
    exact ⟨c, mem_newChunk.mpr (.inl hc), hplaced⟩
  owned c hc i row hslot := by
    rcases mem_newChunk.mp hc with hold | rfl
    · exact h.owned c hold i row hslot
    · rw [slot_blankChunk] at hslot
      cases hslot

/-- A position that is free, in a table with the same rows. -/
structure Free (layout : Layout α) (t : Table α) (a : Available α) (c : Chunk α) : Prop where
  sound : Sound layout a.table
  mem : c ∈ a.table.chunks
  id : c.id = a.chunkId
  lt : a.chunkOffset < layout.chunkSize
  clear : c.validity.get a.chunkOffset = false
  rowids : a.table.rowids = t.rowids
  others : ∀ c' ∈ a.table.chunks, c'.id ≠ a.chunkId → c' ∈ t.chunks
  holds : ∀ rowid value, Holds a.table rowid value ↔ Holds t rowid value

theorem Sound.free_fresh (h : Sound layout t) :
    Free layout t (fresh layout t) (blankChunk layout (t.chunkSeq + 1)) where
  sound := h.newChunk
  mem := mem_newChunk.mpr (.inr rfl)
  id := rfl
  lt := layout.positive
  clear := Bitmap.get_zero
  rowids := rfl
  others c' hc' hid := by
    rcases mem_newChunk.mp hc' with hold | rfl
    · exact hold
    · exact absurd rfl hid
  holds _ _ := holds_newChunk

theorem Sound.insertNextAvailableStep (h : Sound layout t) :
    ∃ a c, insertNextAvailableStep layout t = .ok a ∧ Free layout t a c := by
  unfold Vec0.insertNextAvailableStep
  cases hlatest : t.latestChunk? with
  | none => exact ⟨_, _, rfl, h.free_fresh⟩
  | some c =>
    have hc : c ∈ t.chunks := List.mem_of_find?_eq_some hlatest
    have hsized := h.sized c hc
    dsimp only
    rw [if_neg (not_not_intro hsized.validity)]
    cases hfirst : c.validity.firstClear with
    | none => exact ⟨_, _, rfl, h.free_fresh⟩
    | some offset =>
      rw [Bitmap.firstClear_eq] at hfirst
      have hlt := List.mem_range.mp (List.mem_of_find?_eq_some hfirst)
      rw [hsized.validity, layout.eight_mul] at hlt
      have hclear := List.find?_some (p := fun i => !c.validity.get i) hfirst
      exact ⟨⟨t, c.id, offset⟩, c, rfl, {
        sound := h, mem := hc, id := rfl, lt := hlt, clear := by simpa using hclear
        rowids := rfl, others := fun _ hc' _ => hc', holds := fun _ _ => Iff.rfl }⟩

/-- Every chunk has a row. -/
def Occupied (t : Table α) : Prop := ∀ c ∈ t.chunks, ∃ i, c.validity.get i = true

/-- The search does not read `_rowids`. -/
theorem insertNextAvailableStep_rowids {rowids : List RowidsRow} :
    Vec0.insertNextAvailableStep layout { t with rowids } =
      (Vec0.insertNextAvailableStep layout t).map fun a =>
        { a with table := { a.table with rowids } } := by
  unfold Vec0.insertNextAvailableStep
  have hlatest : { t with rowids }.latestChunk? = t.latestChunk? := rfl
  rw [hlatest]
  cases t.latestChunk? with
  | none => rfl
  | some c =>
    dsimp only
    split
    · rfl
    · cases c.validity.firstClear <;> rfl

private theorem position?_eq_none_iff :
    t.position? rowid = none ↔ rowid ∉ t.rowids.map RowidsRow.rowid := by
  unfold Table.position?
  simp [List.find?_eq_none]

theorem updatePosition_new {rowids : List RowidsRow} (hnew : rowid ∉ rowids.map RowidsRow.rowid)
    (chunkId : Int) : ((rowids ++ [(⟨rowid, 0, 0⟩ : RowidsRow)]).map fun r =>
      if r.rowid = rowid then ⟨rowid, chunkId, i⟩ else r) = rowids ++ [⟨rowid, chunkId, i⟩] := by
  rw [List.map_append, List.map_singleton, if_pos rfl]
  congr 1
  refine (List.map_congr_left fun r hr => ?_).trans (List.map_id _)
  have hne : ¬ r.rowid = rowid := fun heq => hnew (heq ▸ List.mem_map_of_mem hr)
  exact if_neg hne

theorem Sound.insert (h : Sound layout t) (hoccupied : Occupied t)
    (hcheck : layout.check value = .ok ()) (hnew : ∀ v, ¬ Holds t rowid v) :
    ∃ t', Vec0.insert layout rowid value t = .ok t' ∧ Sound layout t' ∧ Occupied t' ∧
      ∀ r v, Holds t' r v ↔ (r = rowid ∧ v = value) ∨ Holds t r v := by
  have hkey := position?_eq_none_iff.mp (h.position?_eq_none hnew)
  have hunique : ¬ (t.rowids.any fun r => r.rowid = rowid) = true := by
    rw [List.any_eq_true]
    rintro ⟨r, hr, heq⟩
    exact hkey (of_decide_eq_true heq ▸ List.mem_map_of_mem hr)
  obtain ⟨a, c, hnext, hfree⟩ := h.insertNextAvailableStep
  have hsized := hfree.sound.sized c hfree.mem
  have hfind : ({ a.table with rowids := t.rowids ++ [⟨rowid, 0, 0⟩] } : Table α).chunk? a.chunkId =
      some c := hfree.id ▸ hfree.sound.chunk?_of_mem hfree.mem
  refine ⟨{ a.table.updateChunk c.id (Chunk.put layout a.chunkOffset (some (rowid, value))) with
    rowids := t.rowids ++ [⟨rowid, c.id, a.chunkOffset⟩] }, ?_, ?_⟩
  · unfold Vec0.insert insertRowidStep
    rw [hcheck, if_neg hunique]
    show (Vec0.insertNextAvailableStep layout _ >>= _) = _
    rw [insertNextAvailableStep_rowids, hnext]
    show insertWriteFinalStep layout rowid value _ = _
    unfold insertWriteFinalStep
    dsimp only
    rw [hfind]
    dsimp only
    rw [if_neg (not_not_intro hsized.columns), if_neg (not_not_intro hsized.rowids), hfree.id]
    unfold Table.updatePosition Table.updateChunk
    dsimp only
    rw [updatePosition_new hkey]
    rfl
  · have hslot : c.slot a.chunkOffset = none := slot_of_clear hfree.clear
    have haway : ∀ r ∈ t.rowids, ¬ (r.chunkId = c.id ∧ r.chunkOffset = a.chunkOffset) := by
      rintro r hr ⟨hid, hoff⟩
      obtain ⟨c', hc', hid', v, hv⟩ := hfree.sound.placed r (hfree.rowids ▸ hr)
      obtain rfl := hfree.sound.eq_of_id hc' hfree.mem (hid'.trans hid)
      rw [hoff, hslot] at hv
      cases hv
    have hkeys : ((t.rowids ++ [RowidsRow.mk rowid c.id a.chunkOffset]).map RowidsRow.rowid).Nodup := by
      rw [List.map_append, List.map_singleton, ← List.concat_eq_append]
      exact h.keys.concat hkey
    have hwritten := hfree.sound.written_put hfree.mem hfree.lt (s := some (rowid, value)) hkeys
      (fun r => by
        rw [List.mem_append, List.mem_singleton, hfree.rowids]
        constructor
        · rintro (hr | rfl)
          · exact .inr ⟨hr, haway r hr⟩
          · exact .inl ⟨_, rfl, rfl⟩
        · rintro (⟨row, hrow, rfl⟩ | ⟨hr, _⟩)
          · obtain rfl := Option.some.inj hrow
            exact .inr rfl
          · exact .inl hr)
    refine ⟨hwritten.sound hfree.sound hfree.mem, fun c' hc' => ?_, fun r v => ?_⟩
    · rcases (hwritten.chunks c').mp hc' with rfl | ⟨hold, hid⟩
      · refine ⟨a.chunkOffset, ?_⟩
        rw [hsized.get_put hfree.lt, if_pos rfl]
        rfl
      · exact hoccupied c' (hfree.others c' hold (hfree.id ▸ hid))
    · rw [hwritten.holds_iff hfree.sound hfree.mem, ← hfree.holds]
      refine or_congr ?_ ⟨?_, ?_⟩
      · rw [Option.some.injEq, Prod.mk.injEq, eq_comm, @eq_comm _ value]
      · rintro ⟨c', hc', j, _, hv⟩
        exact ⟨c', hc', j, hv⟩
      · rintro ⟨c', hc', j, hv⟩
        refine ⟨c', hc', j, fun hat => ?_, hv⟩
        obtain rfl := hfree.sound.eq_of_id hc' hfree.mem hat.1
        rw [hat.2, hslot] at hv
        cases hv

/-! ## Updating and deleting -/

section

variable {r : RowidsRow} {s : Option (Int × α)} {new : Chunk α}

/-- Only the row of a position is there. -/
theorem Sound.at_iff (h : Sound layout t) (hc : c ∈ t.chunks) (hslot : c.slot i = some (rowid, value))
    (hr : r ∈ t.rowids) : r.chunkId = c.id ∧ r.chunkOffset = i ↔ r.rowid = rowid := by
  constructor
  · rintro ⟨hid, hoff⟩
    obtain ⟨c', hc', hid', v, hv⟩ := h.placed r hr
    obtain rfl := h.eq_of_id hc' hc (hid'.trans hid)
    rw [hoff, hslot] at hv
    exact (Prod.mk.inj (Option.some.inj hv)).1.symm
  · intro hkey
    have hsame := List.inj_on_of_nodup_map h.keys hr (h.owned c hc i _ hslot) hkey
    rw [hsame]
    exact ⟨rfl, rfl⟩

theorem Written.holds_iff_of_slot (hw : Written layout t c i s new t') (h : Sound layout t)
    (hc : c ∈ t.chunks) (hslot : c.slot i = some (rowid, value)) (r : Int) (v : α) :
    Holds t' r v ↔ s = some (r, v) ∨ r ≠ rowid ∧ Holds t r v := by
  rw [hw.holds_iff h hc]
  refine or_congr Iff.rfl ?_
  constructor
  · rintro ⟨c', hc', j, haway, hv⟩
    refine ⟨fun heq => haway ?_, c', hc', j, hv⟩
    exact (h.at_iff hc hslot (h.owned c' hc' j _ hv)).mpr heq
  · rintro ⟨hne, c', hc', j, hv⟩
    refine ⟨c', hc', j, fun hat => hne ?_, hv⟩
    exact (h.at_iff hc hslot (h.owned c' hc' j _ hv)).mp hat

theorem Chunk.slot_revise {f : α → α} (hslot : c.slot i = some (rowid, value)) :
    (c.revise i f).slot j = if j = i then some (rowid, f value) else c.slot j := by
  obtain ⟨hvalid, hrowid, hvalue⟩ := slot_eq_some.mp hslot
  by_cases hj : j = i
  · subst hj
    rw [if_pos rfl]
    refine slot_eq_some.mpr ⟨hvalid, hrowid, ?_⟩
    show (c.columns.modify j f)[j]? = _
    rw [List.getElem?_modify_eq, hvalue]
    rfl
  · rw [if_neg hj]
    show (if c.validity.get j then c.rowids[j]?.bind fun rowid =>
      (c.columns.modify i f)[j]?.map fun v => (rowid, v) else none) = c.slot j
    rw [List.getElem?_modify_ne _ _ (Ne.symm hj)]
    rfl

theorem Sound.update (h : Sound layout t) (hoccupied : Occupied t) (f : α → α)
    (hv : Holds t rowid value) : ∃ t', Vec0.update rowid f t = .ok t' ∧ Sound layout t' ∧ Occupied t' ∧
      ∀ r v, Holds t' r v ↔ (r = rowid ∧ v = f value) ∨ r ≠ rowid ∧ Holds t r v := by
  obtain ⟨c, hc, i, hslot⟩ := hv
  have hsized := h.sized c hc
  have hlt := slot_lt hsized hslot
  have hsome := slot_eq_some.mp hslot
  refine ⟨t.updateChunk c.id (Chunk.revise i f), ?_, ?_⟩
  · unfold Vec0.update
    rw [h.position?_of_slot hc hslot]
    dsimp only
    rw [h.chunk?_of_mem hc]
    dsimp only
    rw [if_neg (by rw [hsized.columns]; omega)]
  · have hwritten : Written layout t c i (some (rowid, f value)) (c.revise i f)
        (t.updateChunk c.id (Chunk.revise i f)) := {
      chunks := fun _ => mem_updateChunk h.nodup hc
      ids := ids_updateChunk fun _ => rfl
      seq := rfl
      id := rfl
      sized := ⟨hsized.validity, hsized.rowids, (List.length_modify _ _ _).trans hsized.columns⟩
      wiped := fun j hj hclear => by
        have hne : i ≠ j := by
          rintro rfl
          exact Bool.false_ne_true (hclear.symm.trans hsome.1)
        obtain ⟨hrowid, hvalue⟩ := h.wiped c hc j hj hclear
        exact ⟨hrowid, (List.getElem?_modify_ne _ _ hne).trans hvalue⟩
      slot := fun _ => Chunk.slot_revise hslot
      keys := h.keys
      rowids := fun r => by
        have howned := h.owned c hc i _ hslot
        constructor
        · intro hr
          by_cases hat : r.chunkId = c.id ∧ r.chunkOffset = i
          · have hkey := (h.at_iff hc hslot hr).mp hat
            exact .inl ⟨_, rfl, List.inj_on_of_nodup_map h.keys hr howned hkey⟩
          · exact .inr ⟨hr, hat⟩
        · rintro (⟨row, hrow, rfl⟩ | ⟨hr, _⟩)
          · obtain rfl := Option.some.inj hrow
            exact howned
          · exact hr }
    refine ⟨hwritten.sound h hc, fun c' hc' => ?_, fun r v => ?_⟩
    · rcases (hwritten.chunks c').mp hc' with rfl | ⟨hold, _⟩
      · exact ⟨i, hsome.1⟩
      · exact hoccupied c' hold
    · rw [hwritten.holds_iff_of_slot h hc hslot, Option.some.injEq, Prod.mk.injEq, eq_comm,
        @eq_comm _ v]

/-- A chunk none of whose positions is in use can go. -/
theorem Sound.deleteChunkIfEmpty (h : Sound layout t) (hc : c ∈ t.chunks)
    (hothers : ∀ c' ∈ t.chunks, c'.id ≠ c.id → ∃ i, c'.validity.get i = true) :
    ∃ t', Vec0.deleteChunkIfEmpty c.id t = .ok t' ∧ Sound layout t' ∧ Occupied t' ∧
      ∀ r v, Holds t' r v ↔ Holds t r v := by
  unfold Vec0.deleteChunkIfEmpty
  rw [h.chunk?_of_mem hc]
  dsimp only
  by_cases hempty : (c.validity.all fun x => x = 0) = true
  · rw [if_pos hempty]
    have hclear := Bitmap.all_zero_iff.mp hempty
    have hmem : ∀ c', c' ∈ t.chunks.filter (fun c' => c'.id ≠ c.id) ↔ c' ∈ t.chunks ∧ c'.id ≠ c.id :=
      fun c' => by rw [List.mem_filter, decide_eq_true_eq]
    have haway : ∀ c' ∈ t.chunks, ∀ j row, c'.slot j = some row → c'.id ≠ c.id := by
      intro c' hc' j row hslot hid
      obtain rfl := h.eq_of_id hc' hc hid
      rw [slot_of_clear (hclear j)] at hslot
      cases hslot
    refine ⟨_, rfl, ?_, fun c' hc' => ?_, fun r v => ⟨?_, ?_⟩⟩
    · exact {
        sized := fun c' hc' => h.sized c' ((hmem c').mp hc').1
        wiped := fun c' hc' => h.wiped c' ((hmem c').mp hc').1
        ids := h.ids.sublist (List.filter_sublist.map _)
        seq := fun c' hc' => h.seq c' ((hmem c').mp hc').1
        keys := h.keys
        placed := fun r hr => by
          obtain ⟨c', hc', hid, v, hslot⟩ := h.placed r hr
          exact ⟨c', (hmem c').mpr ⟨hc', haway c' hc' _ _ hslot⟩, hid, v, hslot⟩
        owned := fun c' hc' => h.owned c' ((hmem c').mp hc').1 }
    · obtain ⟨hold, hid⟩ := (hmem c').mp hc'
      exact hothers c' hold hid
    · rintro ⟨c', hc', j, hslot⟩
      exact ⟨c', ((hmem c').mp hc').1, j, hslot⟩
    · rintro ⟨c', hc', j, hslot⟩
      exact ⟨c', (hmem c').mpr ⟨hc', haway c' hc' _ _ hslot⟩, j, hslot⟩
  · rw [if_neg hempty]
    refine ⟨t, rfl, h, fun c' hc' => ?_, fun _ _ => Iff.rfl⟩
    by_cases hid : c'.id = c.id
    · obtain rfl := h.eq_of_id hc' hc hid
      by_contra hnone
      exact hempty (Bitmap.all_zero_iff.mpr fun i => Bool.eq_false_iff.mpr fun hi => hnone ⟨i, hi⟩)
    · exact hothers c' hc' hid

/-- The byte of a valid position is not zero from its bit on. -/
private theorem byte_of_valid {b : Bitmap} (hi : b.get i = true) :
    ∃ bx, b[i / 8]? = some bx ∧ ¬ bx >>> (i % 8) = 0 := by
  have hlt : i / 8 < b.length := by
    by_contra hge
    have hle : 8 * b.length ≤ i := by omega
    rw [Bitmap.get_of_length_le hle] at hi
    cases hi
  refine ⟨b[i / 8], List.getElem?_eq_getElem hlt, fun hzero => ?_⟩
  unfold Bitmap.get at hi
  rw [List.getD_eq_getElem _ _ hlt, hzero] at hi
  exact absurd hi (by decide)

theorem Sound.delete (h : Sound layout t) (hoccupied : Occupied t) (hv : Holds t rowid value) :
    ∃ t', Vec0.delete layout rowid t = .ok t' ∧ Sound layout t' ∧ Occupied t' ∧
      ∀ r v, Holds t' r v ↔ r ≠ rowid ∧ Holds t r v := by
  obtain ⟨c, hc, i, hslot⟩ := hv
  have hsized := h.sized c hc
  have hlt := slot_lt hsized hslot
  have hkeys : ((t.rowids.filter fun r => r.rowid ≠ rowid).map RowidsRow.rowid).Nodup :=
    h.keys.sublist (List.filter_sublist.map _)
  have hwritten := h.written_put hc hlt (s := none) hkeys
    (fun r => by
      rw [List.mem_filter, decide_eq_true_eq]
      constructor
      · rintro ⟨hr, hne⟩
        exact .inr ⟨hr, fun hat => hne ((h.at_iff hc hslot hr).mp hat)⟩
      · rintro (⟨row, hrow, _⟩ | ⟨hr, haway⟩)
        · cases hrow
        · exact ⟨hr, fun hkey => haway ((h.at_iff hc hslot hr).mpr hkey)⟩)
  obtain ⟨t', hdrop, hsound, hoccupied', hholds⟩ :=
    (hwritten.sound h hc).deleteChunkIfEmpty ((hwritten.chunks _).mpr (.inl rfl)) fun c' hc' hid => by
      rcases (hwritten.chunks c').mp hc' with rfl | ⟨hold, _⟩
      · exact absurd rfl hid
      · exact hoccupied c' hold
  refine ⟨t', ?_, hsound, hoccupied', fun r v => ?_⟩
  · obtain ⟨bx, hbyte, hset⟩ := byte_of_valid (slot_eq_some.mp hslot).1
    have hfind := h.chunk?_of_mem hc
    have hvalidity : clearValidity c.id i t = .ok (t.updateChunk c.id (Chunk.clearBit i)) := by
      unfold clearValidity
      rw [hfind]
      dsimp only
      rw [hbyte]
      exact if_neg hset
    have hrowid : ∀ t : Table α, t.chunk? c.id = some (c.clearBit i) →
        clearRowid c.id i t = .ok (t.updateChunk c.id (Chunk.zeroRowid i)) := by
      intro t hfind
      unfold clearRowid
      rw [hfind]
      have hlen : ¬ (c.clearBit i).rowids.length ≤ i := Nat.not_le.mpr (hsized.rowids.symm ▸ hlt)
      exact if_neg hlen
    have hcolumns : ∀ t : Table α, t.chunk? c.id = some ((c.clearBit i).zeroRowid i) →
        clearColumns layout c.id i t = .ok (t.updateChunk c.id (Chunk.zeroColumns layout i)) := by
      intro t hfind
      unfold clearColumns
      rw [hfind]
      have hlen : ¬ ((c.clearBit i).zeroRowid i).columns.length ≤ i :=
        Nat.not_le.mpr (hsized.columns.symm ▸ hlt)
      exact if_neg hlen
    have hfind₁ : (t.updateChunk c.id (Chunk.clearBit i)).chunk? c.id = some (c.clearBit i) := by
      rw [chunk?_updateChunk (f := Chunk.clearBit i) fun _ => rfl, hfind]
      rfl
    have hfind₂ : ((t.updateChunk c.id (Chunk.clearBit i)).updateChunk c.id
        (Chunk.zeroRowid i)).chunk? c.id = some ((c.clearBit i).zeroRowid i) := by
      rw [chunk?_updateChunk (f := Chunk.zeroRowid i) fun _ => rfl, hfind₁]
      rfl
    unfold Vec0.delete
    rw [h.position?_of_slot hc hslot]
    show (clearValidity c.id i t >>= _) = _
    rw [hvalidity]
    show (clearRowid c.id i _ >>= _) = _
    rw [hrowid _ hfind₁]
    show (clearColumns layout c.id i _ >>= _) = _
    rw [hcolumns _ hfind₂, updateChunk_updateChunk (f := Chunk.clearBit i) fun _ => rfl,
      updateChunk_updateChunk (f := Chunk.zeroRowid i ∘ Chunk.clearBit i) fun _ => rfl]
    exact hdrop
  · rw [hholds, hwritten.holds_iff_of_slot h hc hslot]
    simp

end

/-! ## Runs -/

variable {rows : List (Int × α)}

/-- The chunks store the rows of a list. -/
structure Stores (layout : Layout α) (t : Table α) (rows : List (Int × α)) : Prop where
  sound : Sound layout t
  occupied : Occupied t
  keys : (rows.map Prod.fst).Nodup
  same : ∀ rowid value, (rowid, value) ∈ rows ↔ Holds t rowid value

theorem stores_empty (layout : Layout α) : Stores layout {} [] where
  sound := ⟨nofun, nofun, .nil, nofun, .nil, nofun, nofun⟩
  occupied := nofun
  keys := .nil
  same rowid value := ⟨nofun, fun ⟨_, hc, _⟩ => by cases hc⟩

theorem Stores.not_holds (h : Stores layout t rows) (hnone : rowid ∉ rows.map Prod.fst) (v : α) :
    ¬ Holds t rowid v :=
  fun hv => hnone (List.mem_map_of_mem ((h.same rowid v).mpr hv))

theorem Stores.read_eq (h : Stores layout t rows) (rowid : Int) :
    Vec0.read t rowid = .ok ((rows.find? fun row => row.1 = rowid).map Prod.snd) := by
  cases hfind : rows.find? fun row => row.1 = rowid with
  | none =>
    refine h.sound.read_of_not_holds (h.not_holds fun hmem => ?_)
    obtain ⟨row, hrow, heq⟩ := List.mem_map.mp hmem
    exact List.find?_eq_none.mp hfind row hrow (decide_eq_true heq)
  | some row =>
    have hkey : row.1 = rowid := of_decide_eq_true
      (List.find?_some (p := fun row : Int × α => decide (row.1 = rowid)) hfind)
    exact h.sound.read_of_holds ((h.same _ _).mp (hkey ▸ List.mem_of_find?_eq_some hfind))

/-- A statement on the two sides fails with the same error, or leaves tables that agree. -/
inductive Agree (layout : Layout α) : Except Error (Table α) → Except Error (List (Int × α)) → Prop
  | failed (e : Error) : Agree layout (.error e) (.error e)
  | done {t : Table α} {rows : List (Int × α)} (h : Stores layout t rows) : Agree layout (.ok t) (.ok rows)

theorem Stores.insert (h : Stores layout t rows) (rowid : Int) (value : α) :
    Agree layout ((Statement.insert rowid value).run layout t)
      ((Statement.insert rowid value).plain layout rows) := by
  unfold Statement.run Statement.plain
  dsimp only
  cases hcheck : layout.check value with
  | error e =>
    unfold Vec0.insert
    rw [hcheck]
    exact .failed e
  | ok _ =>
    dsimp only
    by_cases hkey : rowid ∈ rows.map Prod.fst
    · obtain ⟨⟨r, v⟩, hrow, rfl⟩ := List.mem_map.mp hkey
      obtain ⟨c, hc, i, hslot⟩ := (h.same r v).mp hrow
      have hany : (rows.any fun row => row.1 = r) = true :=
        List.any_eq_true.mpr ⟨_, hrow, decide_eq_true rfl⟩
      have htaken : (t.rowids.any fun row => row.rowid = r) = true :=
        List.any_eq_true.mpr ⟨_, h.sound.owned c hc i _ hslot, decide_eq_true rfl⟩
      have hrun : Vec0.insert layout r value t =
          .error (.storage "UNIQUE constraint failed on vec_memories primary key") := by
        unfold Vec0.insert insertRowidStep
        rw [hcheck, if_pos htaken]
        rfl
      rw [if_pos hany, hrun]
      exact .failed _
    · have hany : ¬ (rows.any fun row => row.1 = rowid) = true := by
        rw [List.any_eq_true]
        rintro ⟨row, hrow, heq⟩
        exact hkey (of_decide_eq_true heq ▸ List.mem_map_of_mem hrow)
      obtain ⟨t', hrun, hsound, hoccupied, hholds⟩ :=
        h.sound.insert h.occupied hcheck (h.not_holds hkey)
      rw [hrun, if_neg hany]
      refine .done ⟨hsound, hoccupied, ?_, fun r v => ?_⟩
      · rw [List.map_append, List.map_singleton, ← List.concat_eq_append]
        exact h.keys.concat hkey
      · rw [List.mem_append, List.mem_singleton, hholds, h.same, Prod.mk.injEq, or_comm]

theorem Stores.update (h : Stores layout t rows) (rowid : Int) (f : α → α) :
    Agree layout ((Statement.update rowid f).run layout t)
      ((Statement.update rowid f).plain layout rows) := by
  show Agree layout (Vec0.read t rowid >>= _)
    (.ok (rows.map fun row => if row.1 = rowid then (row.1, f row.2) else row))
  have hfst : (rows.map fun row => if row.1 = rowid then (row.1, f row.2) else row).map Prod.fst =
      rows.map Prod.fst := by
    rw [List.map_map]
    exact List.map_congr_left fun row _ => apply_ite Prod.fst _ _ _ |>.trans (ite_self _)
  have hmem : ∀ r w, (r, w) ∈ (rows.map fun row => if row.1 = rowid then (row.1, f row.2) else row) ↔
      (∃ v, Holds t rowid v ∧ r = rowid ∧ w = f v) ∨ r ≠ rowid ∧ Holds t r w := by
    intro r w
    rw [List.mem_map]
    constructor
    · rintro ⟨⟨k, v⟩, hrow, heq⟩
      by_cases hk : k = rowid
      · rw [if_pos hk] at heq
        obtain ⟨rfl, rfl⟩ := Prod.mk.inj heq
        exact .inl ⟨v, hk ▸ (h.same k v).mp hrow, hk, rfl⟩
      · rw [if_neg hk] at heq
        obtain ⟨rfl, rfl⟩ := Prod.mk.inj heq
        exact .inr ⟨hk, (h.same k v).mp hrow⟩
    · rintro (⟨v, hv, rfl, rfl⟩ | ⟨hne, hw⟩)
      · exact ⟨_, (h.same _ v).mpr hv, if_pos rfl⟩
      · exact ⟨_, (h.same r w).mpr hw, if_neg hne⟩
  by_cases hkey : rowid ∈ rows.map Prod.fst
  · obtain ⟨⟨r, v⟩, hrow, rfl⟩ := List.mem_map.mp hkey
    have hv := (h.same r v).mp hrow
    obtain ⟨t', hrun, hsound, hoccupied, hholds⟩ := h.sound.update h.occupied f hv
    rw [h.sound.read_of_holds hv]
    show Agree layout (Vec0.update r f t) _
    rw [hrun]
    refine .done ⟨hsound, hoccupied, hfst ▸ h.keys, fun r' w => ?_⟩
    rw [hmem, hholds]
    refine or_congr ⟨?_, ?_⟩ Iff.rfl
    · rintro ⟨v', hv', rfl, rfl⟩
      exact ⟨rfl, congrArg f (h.sound.holds_unique hv' hv)⟩
    · rintro ⟨rfl, rfl⟩
      exact ⟨v, hv, rfl, rfl⟩
  · rw [h.sound.read_of_not_holds (h.not_holds hkey)]
    refine .done ⟨h.sound, h.occupied, hfst ▸ h.keys, fun r w => ?_⟩
    rw [hmem]
    constructor
    · rintro (⟨v, hv, _⟩ | ⟨_, hw⟩)
      · exact absurd hv (h.not_holds hkey v)
      · exact hw
    · intro hw
      exact .inr ⟨fun heq => h.not_holds hkey w (heq ▸ hw), hw⟩

theorem Stores.delete (h : Stores layout t rows) (rowid : Int) :
    Agree layout ((Statement.delete rowid : Statement α).run layout t)
      ((Statement.delete rowid : Statement α).plain layout rows) := by
  show Agree layout (Vec0.read t rowid >>= _) (.ok (rows.filter fun row => row.1 ≠ rowid))
  have hfilter : ∀ r w, (r, w) ∈ rows.filter (fun row => row.1 ≠ rowid) ↔
      r ≠ rowid ∧ Holds t r w := by
    intro r w
    rw [List.mem_filter, decide_eq_true_eq, h.same, and_comm]
  have hkeys : ((rows.filter fun row => row.1 ≠ rowid).map Prod.fst).Nodup :=
    h.keys.sublist (List.filter_sublist.map _)
  by_cases hkey : rowid ∈ rows.map Prod.fst
  · obtain ⟨⟨r, v⟩, hrow, rfl⟩ := List.mem_map.mp hkey
    have hv := (h.same r v).mp hrow
    obtain ⟨t', hrun, hsound, hoccupied, hholds⟩ := h.sound.delete h.occupied hv
    rw [h.sound.read_of_holds hv]
    show Agree layout (Vec0.delete layout r t) _
    rw [hrun]
    exact .done ⟨hsound, hoccupied, hkeys, fun r w => (hfilter r w).trans (hholds r w).symm⟩
  · rw [h.sound.read_of_not_holds (h.not_holds hkey)]
    refine .done ⟨h.sound, h.occupied, hkeys, fun r w => (hfilter r w).trans ⟨And.right, fun hw => ?_⟩⟩
    refine ⟨?_, hw⟩
    rintro rfl
    exact h.not_holds hkey w hw

theorem Stores.statement (h : Stores layout t rows) (s : Statement α) :
    Agree layout (s.run layout t) (s.plain layout rows) := by
  cases s with
  | insert rowid value => exact h.insert rowid value
  | update rowid f => exact h.update rowid f
  | delete rowid => exact h.delete rowid

theorem Stores.run (h : Stores layout t rows) (ss : List (Statement α)) :
    outcomes (Statement.run layout) ss t = outcomes (Statement.plain layout) ss rows ∧
      Stores layout (final (Statement.run layout) ss t) (final (Statement.plain layout) ss rows) := by
  induction ss generalizing t rows with
  | nil => exact ⟨rfl, h⟩
  | cons s ss ih =>
    unfold outcomes final
    have hstep := h.statement s
    generalize s.run layout t = r, s.plain layout rows = r' at hstep
    cases hstep with
    | failed e => exact ⟨congrArg (_ :: ·) (ih h).1, (ih h).2⟩
    | done h' => exact ⟨congrArg (_ :: ·) (ih h').1, (ih h').2⟩

/-! ## What is stored -/

def Chunk.slots (layout : Layout α) (c : Chunk α) : List (Int × α) :=
  (List.range layout.chunkSize).filterMap c.slot

/-- The rows, chunk by chunk and position by position. -/
def slots (layout : Layout α) (t : Table α) : List (Int × α) := t.chunks.flatMap (Chunk.slots layout)

theorem Chunk.Sized.mem_slots (h : c.Sized layout) {row : Int × α} :
    row ∈ c.slots layout ↔ ∃ i, c.slot i = some row := by
  unfold Chunk.slots
  rw [List.mem_filterMap]
  exact ⟨fun ⟨i, _, hslot⟩ => ⟨i, hslot⟩, fun ⟨i, hslot⟩ =>
    ⟨i, List.mem_range.mpr (slot_lt h hslot), hslot⟩⟩

theorem Sound.mem_slots (h : Sound layout t) : (rowid, value) ∈ slots layout t ↔ Holds t rowid value := by
  unfold slots Holds
  rw [List.mem_flatMap]
  exact exists_congr fun c => and_congr_right fun hc => (h.sized c hc).mem_slots

/-- A row is at one position of one chunk. -/
theorem Sound.slot_inj (h : Sound layout t) {c' : Chunk α} (hc : c ∈ t.chunks) (hc' : c' ∈ t.chunks)
    {row row' : Int × α} (hslot : c.slot i = some row) (hslot' : c'.slot j = some row')
    (hkey : row.1 = row'.1) : c = c' ∧ i = j := by
  have hsame := List.inj_on_of_nodup_map h.keys (h.owned c hc i row hslot)
    (h.owned c' hc' j row' hslot') hkey
  obtain ⟨_, hid, hoff⟩ := RowidsRow.mk.inj hsame
  exact ⟨h.eq_of_id hc hc' hid, hoff⟩

theorem Sound.nodup_slots (h : Sound layout t) : (slots layout t).Nodup := by
  unfold slots
  rw [List.nodup_flatMap]
  constructor
  · intro c hc
    refine List.nodup_range.filterMap fun i j row hi hj => ?_
    exact (h.slot_inj hc hc hi hj rfl).2
  · have hdistinct := List.nodup_iff_pairwise_ne.mp h.nodup.of_map
    refine hdistinct.imp_of_mem fun {c c'} hc hc' hne row hrow hrow' => ?_
    obtain ⟨i, hi⟩ := (h.sized c hc).mem_slots.mp hrow
    obtain ⟨j, hj⟩ := (h.sized c' hc').mem_slots.mp hrow'
    exact hne (h.slot_inj hc hc' hi hj rfl).1

theorem Stores.slots_perm (h : Stores layout t rows) : (slots layout t).Perm rows :=
  (List.perm_ext_iff_of_nodup h.sound.nodup_slots h.keys.of_map).mpr fun row =>
    h.sound.mem_slots.trans (h.same row.1 row.2).symm

/-- The rows of some rowids, one after the other. -/
theorem Sound.mapM_scanRow (h : Sound layout t) {rowids : List Int}
    (hheld : ∀ rowid ∈ rowids, ∃ v, Holds t rowid v) : ∃ listed, rowids.mapM (scanRow t) = .ok listed ∧
      listed.map Prod.fst = rowids ∧ ∀ row ∈ listed, Holds t row.1 row.2 := by
  induction rowids with
  | nil => exact ⟨[], rfl, rfl, List.forall_mem_nil _⟩
  | cons rowid rowids ih =>
    obtain ⟨⟨v, hv⟩, hrest⟩ := List.forall_mem_cons.mp hheld
    obtain ⟨listed, hlisted, hkeys, hholds⟩ := ih hrest
    have hrow : scanRow t rowid = .ok (rowid, v) := by
      unfold scanRow
      rw [h.read_of_holds hv]
      rfl
    refine ⟨(rowid, v) :: listed, ?_, congrArg (rowid :: ·) hkeys, ?_⟩
    · rw [List.mapM_cons, hrow]
      show (List.mapM (scanRow t) rowids >>= _) = _
      rw [hlisted]
      rfl
    · exact List.forall_mem_cons.mpr ⟨hv, hholds⟩

/-- A full scan goes through `_rowids` and lists the rows. -/
theorem Stores.fullscan (h : Stores layout t rows) :
    ∃ listed, fullscan t = .ok listed ∧ listed.Perm rows := by
  have hsorted := List.perm_insertionSort RowidsRow.Upto t.rowids
  have hplaced : ∀ rowid ∈ (t.rowids.insertionSort RowidsRow.Upto).map RowidsRow.rowid,
      ∃ v, Holds t rowid v := by
    intro rowid hrowid
    obtain ⟨r, hr, rfl⟩ := List.mem_map.mp hrowid
    obtain ⟨c, hc, _, v, hslot⟩ := h.sound.placed r (hsorted.mem_iff.mp hr)
    exact ⟨v, c, hc, _, hslot⟩
  obtain ⟨listed, hlisted, hkeys, hholds⟩ := h.sound.mapM_scanRow hplaced
  have hnodup : (listed.map Prod.fst).Nodup := by
    rw [hkeys, (hsorted.map RowidsRow.rowid).nodup_iff]
    exact h.sound.keys
  refine ⟨listed, hlisted, (List.perm_ext_iff_of_nodup hnodup.of_map h.keys.of_map).mpr fun row => ?_⟩
  constructor
  · exact fun hrow => (h.same _ _).mpr (hholds row hrow)
  · intro hrow
    obtain ⟨c, hc, i, hslot⟩ := (h.same _ _).mp hrow
    have hkey : row.1 ∈ listed.map Prod.fst := by
      rw [hkeys]
      exact List.mem_map.mpr ⟨_, hsorted.mem_iff.mpr (h.sound.owned c hc i row hslot), rfl⟩
    obtain ⟨row', hrow', heq⟩ := List.mem_map.mp hkey
    have hvalue : row'.2 = row.2 := h.sound.holds_unique (heq ▸ hholds row' hrow') ⟨c, hc, i, hslot⟩
    exact Prod.ext heq hvalue ▸ hrow'

/-- Every chunk has at least one of the rows. -/
theorem Stores.chunks_le (h : Stores layout t rows) : t.chunks.length ≤ rows.length := by
  rw [← h.slots_perm.length_eq]
  unfold slots
  rw [List.length_flatMap, ← List.length_map (f := fun c => (Chunk.slots layout c).length)]
  refine List.length_le_sum_of_one_le _ fun n hn => ?_
  obtain ⟨c, hc, rfl⟩ := List.mem_map.mp hn
  obtain ⟨i, hi⟩ := h.occupied c hc
  obtain ⟨row, hslot⟩ := (h.sound.sized c hc).slot_isSome hi
  exact List.length_pos_of_mem ((h.sound.sized c hc).mem_slots.mpr ⟨i, hslot⟩)

/-- Nothing of a deleted or overwritten row is left in a chunk. -/
theorem Stores.residue (h : Stores layout t rows) (hc : c ∈ t.chunks) (hvalue : value ∈ c.columns) :
    value = layout.blank ∨ ∃ rowid, (rowid, value) ∈ rows := by
  obtain ⟨i, hi, rfl⟩ := List.getElem_of_mem hvalue
  have hsized := h.sound.sized c hc
  cases hvalid : c.validity.get i with
  | false =>
    have hwiped := (h.sound.wiped c hc i (hsized.columns ▸ hi) hvalid).2
    rw [List.getElem?_eq_getElem hi] at hwiped
    exact .inl (Option.some.inj hwiped)
  | true =>
    obtain ⟨row, hslot⟩ := hsized.slot_isSome hvalid
    have hcolumn := (slot_eq_some.mp hslot).2.2
    rw [List.getElem?_eq_getElem hi] at hcolumn
    rw [Option.some.inj hcolumn]
    exact .inr ⟨row.1, (h.same _ _).mpr ⟨c, hc, i, hslot⟩⟩

/-- What the chunks store after a run: the rows of the list and nothing else. -/
structure Intact (layout : Layout α) (t : Table α) (rows : List (Int × α)) : Prop where
  read : ∀ rowid, Vec0.read t rowid = .ok ((rows.find? fun row => row.1 = rowid).map Prod.snd)
  scan : ∃ listed, fullscan t = .ok listed ∧ listed.Perm rows
  residue : ∀ c ∈ t.chunks, ∀ value ∈ c.columns,
    value = layout.blank ∨ ∃ rowid, (rowid, value) ∈ rows
  occupied : t.chunks.length ≤ rows.length

/-- Any sequence of statements on the chunked table has the outcomes of the statements on a plain list of
rows, so none fails for an internal reason, and leaves the rows of that list. -/
theorem run_intact (layout : Layout α) (ss : List (Statement α)) :
    outcomes (Statement.run layout) ss {} = outcomes (Statement.plain layout) ss [] ∧
      Intact layout (final (Statement.run layout) ss {}) (final (Statement.plain layout) ss []) := by
  obtain ⟨houtcomes, h⟩ := (stores_empty layout).run ss
  exact ⟨houtcomes, h.read_eq, h.fullscan, fun _ hc _ hvalue => h.residue hc hvalue, h.chunks_le⟩

end AgosMemory.Vec0
