import AgosMemory.Cli.Export
import AgosMemory.Library.Keyset

/-!
# When the export is complete

The read loop is keyset pagination with the address of the last element of a batch as its cursor. It
returns every eligible row exactly when, after each full batch, that address lies between the ids
already read and the ids still to come.
-/

namespace AgosMemory.Export

open Library

variable {F : Type}

/-- What the keys of `memories` guarantee: positive ids, the table in id order, and public ids
that name one row. -/
structure KeyOrder (db : Db F) : Prop where
  sorted : db.memories.Pairwise fun a b => a.id < b.id
  positive : ∀ m ∈ db.memories, 0 < m.id
  unique : (db.memories.map Memory.publicId).Nodup

/-- The rows an export should contain, in id order. -/
def eligibleRows (db : Db F) (agent tier : String) : List (Memory F) :=
  db.memories.filter (eligible db agent tier)

/-- The tier an export asks for, with the empty text for all tiers. -/
def tierArg (tier : Option String) : String := tier.getD ""

/-- After each full batch, the rows above the address of its last element are the unread ones. -/
def CursorsSeparate (db : Db F) (agent tier : String) (addr : Nat → Int) : Prop :=
  ∀ k, BATCH * (k + 1) ≤ (eligibleRows db agent tier).length →
    (eligibleRows db agent tier).filter (fun m => addr k < m.id) =
      (eligibleRows db agent tier).drop (BATCH * (k + 1))

private theorem eligibleRows_sorted {db : Db F} (h : KeyOrder db) (agent tier : String) :
    (eligibleRows db agent tier).Pairwise fun a b => a.id < b.id :=
  h.sorted.filter _

private theorem batchRows_eq_page {db : Db F} (h : KeyOrder db) (agent tier : String) (cursor : Int) :
    batchRows db agent tier cursor =
      Keyset.page Memory.id BATCH (eligibleRows db agent tier) cursor := by
  have hfilter : db.memories.filter (fun m => eligible db agent tier m && cursor < m.id) =
      Keyset.above Memory.id (eligibleRows db agent tier) cursor := by
    rw [Keyset.above, eligibleRows, List.filter_filter]
    congr 1
    funext m
    rw [Bool.and_comm]
  have hsorted : (Keyset.above Memory.id (eligibleRows db agent tier) cursor).Pairwise
      fun a b => a.id ≤ b.id :=
    ((eligibleRows_sorted h agent tier).filter _).imp fun hab => Int.le_of_lt hab
  rw [batchRows, hfilter, hsorted.insertionSort_eq]
  rfl

/-- The loop accumulates what keyset pagination returns. -/
private theorem exportLoop_eq_pages {db : Db F} (h : KeyOrder db) (schemaVersion : Int)
    (agent tier : String) (addr : Nat → Int) (fuel k : Nat) (lastId : Int) (written : Nat)
    (out : List (ExportRow F)) :
    exportLoop db schemaVersion agent tier addr fuel k lastId written out =
      (Keyset.pages Memory.id BATCH (eligibleRows db agent tier) addr fuel k lastId).map
        fun rows => (out ++ rows.map (exportRow schemaVersion), written + rows.length) := by
  induction fuel generalizing k lastId written out with
  | zero => rfl
  | succ fuel ih =>
    simp only [exportLoop, Keyset.pages, batchRows_eq_page h, List.isEmpty_map, List.length_map]
    split
    · simp
    · split
      · rfl
      · rw [ih, Option.map_map]
        congr 1
        funext rows
        simp [Nat.add_assoc]

private theorem exportJsonl_eq (db : Db F) (schemaVersion : Int) (agent : String)
    {tier : Option String}
    (ht : ∀ t ∈ tier, t ∈ TIERS) (addr : Nat → Int) (fuel : Nat) :
    exportJsonl db schemaVersion agent tier addr fuel =
      .ok (exportLoop db schemaVersion agent (tierArg tier) addr fuel 0 0 0 []) := by
  cases tier with
  | none => rfl
  | some t => rw [exportJsonl, if_pos (ht t rfl)]; rfl

/-- The lines of an export name their rows, so they determine them. -/
private theorem eq_of_exported {db : Db F} (h : KeyOrder db) (schemaVersion : Int)
    {agent tier : String}
    {rows : List (Memory F)} (hmem : ∀ m ∈ rows, m ∈ eligibleRows db agent tier)
    (heq : rows.map (exportRow schemaVersion) =
      (eligibleRows db agent tier).map (exportRow schemaVersion)) :
    rows = eligibleRows db agent tier := by
  have hlen : rows.length = (eligibleRows db agent tier).length := by
    simpa using congrArg List.length heq
  apply List.ext_getElem hlen
  intro i hi hi'
  have hrow := List.getElem_of_eq heq (i := i) (by simpa using hi)
  rw [List.getElem_map, List.getElem_map] at hrow
  apply List.inj_on_of_nodup_map h.unique
  · exact (List.mem_filter.mp (hmem _ (List.getElem_mem hi))).1
  · exact (List.mem_filter.mp (List.getElem_mem hi')).1
  · exact congrArg ExportRow.publicId hrow

/-- The completed export, as keyset pagination sees it. -/
private theorem complete_iff_pages {db : Db F} (h : KeyOrder db) (schemaVersion : Int)
    (agent : String)
    {tier : Option String} (ht : ∀ t ∈ tier, t ∈ TIERS) (addr : Nat → Int) (fuel : Nat) :
    exportJsonl db schemaVersion agent tier addr fuel =
        .ok (some ((eligibleRows db agent (tierArg tier)).map (exportRow schemaVersion),
          (eligibleRows db agent (tierArg tier)).length)) ↔
      Keyset.pages Memory.id BATCH (eligibleRows db agent (tierArg tier)) addr fuel 0 0 =
        some (eligibleRows db agent (tierArg tier)) := by
  rw [exportJsonl_eq db schemaVersion agent ht, exportLoop_eq_pages h]
  constructor
  · intro heq
    obtain ⟨rows, hrows, hout⟩ := Option.map_eq_some_iff.mp (Except.ok.inj heq)
    rw [hrows, eq_of_exported h schemaVersion (Keyset.mem_of_pages hrows) (Prod.mk.inj hout).1]
  · intro hrows
    simp [hrows]

private theorem pages_iff_separate {db : Db F} (h : KeyOrder db) (agent tier : String)
    (addr : Nat → Int) :
    (∃ fuel, Keyset.pages Memory.id BATCH (eligibleRows db agent tier) addr fuel 0 0 =
        some (eligibleRows db agent tier)) ↔ CursorsSeparate db agent tier addr := by
  have hstart : Keyset.above Memory.id (eligibleRows db agent tier) 0 =
      (eligibleRows db agent tier).drop 0 := by
    rw [List.drop_zero]
    exact List.filter_eq_self.mpr fun m hm =>
      decide_eq_true (h.positive m (List.mem_filter.mp hm).1)
  have hiff : (∃ fuel, Keyset.pages Memory.id BATCH (eligibleRows db agent tier) addr fuel 0 0 =
      some ((eligibleRows db agent tier).drop 0)) ↔ _ :=
    Keyset.pages_eq_drop_iff (eligibleRows_sorted h agent tier) (by decide) hstart
  simp only [List.drop_zero, Nat.zero_add] at hiff
  exact hiff

/-- The export ends with one line for each eligible row, in id order, and counts them, if and only
if the address taken for the cursor separates read from unread rows after every full batch. -/
theorem export_complete_iff {db : Db F} (h : KeyOrder db) (schemaVersion : Int) (agent : String)
    {tier : Option String} (ht : ∀ t ∈ tier, t ∈ TIERS) (addr : Nat → Int) :
    (∃ fuel, exportJsonl db schemaVersion agent tier addr fuel =
        .ok (some ((eligibleRows db agent (tierArg tier)).map (exportRow schemaVersion),
          (eligibleRows db agent (tierArg tier)).length))) ↔
      CursorsSeparate db agent (tierArg tier) addr := by
  rw [← pages_iff_separate h]
  exact exists_congr fun fuel => complete_iff_pages h schemaVersion agent ht addr fuel

/-- An address above every id separates the rows only when no row is left to read. -/
private theorem cursorsSeparate_of_high {db : Db F} {agent tier : String} {addr : Nat → Int}
    (haddr : ∀ k, ∀ m ∈ db.memories, m.id ≤ addr k) :
    CursorsSeparate db agent tier addr ↔ (eligibleRows db agent tier).length ≤ BATCH := by
  have hnone : ∀ k, (eligibleRows db agent tier).filter (fun m => addr k < m.id) = [] := by
    intro k
    rw [List.filter_eq_nil_iff]
    intro m hm
    have := haddr k m (List.mem_filter.mp hm).1
    simpa using this
  constructor
  · intro hsep
    by_contra hlong
    have hdrop := hsep 0 (by rw [Nat.zero_add, Nat.mul_one]; omega)
    rw [hnone, Nat.zero_add, Nat.mul_one, eq_comm, List.drop_eq_nil_iff] at hdrop
    exact hlong hdrop
  · intro hshort k hk
    have : BATCH * 1 ≤ BATCH * (k + 1) := Nat.mul_le_mul_left BATCH (by omega)
    rw [hnone, eq_comm, List.drop_eq_nil_iff]
    omega

/-! ## A store with many rows -/

def sampleRow (id : Int) (n : Nat) : Memory ℚ where
  id
  publicId := String.ofList (List.replicate n 'm')
  agentId := "default"
  tier := .semantic
  kind := .fact
  text := "fact"
  textHash := "hash"
  importanceCurrent := 1 / 2
  confidence := 1
  status := .active
  trust := .trusted
  sourceKind := .user
  createdAt := 0
  updatedAt := 0

/-- `n` active rows whose ids are given in order. -/
def sampleDb (ids : Nat → Int) (n : Nat) : Db ℚ :=
  { memories := (List.range n).map fun i => sampleRow (ids i) i, memorySeq := ids n }

private theorem mem_sampleDb {ids : Nat → Int} {n : Nat} {m : Memory ℚ}
    (hm : m ∈ (sampleDb ids n).memories) : ∃ i < n, m = sampleRow (ids i) i := by
  obtain ⟨i, hi, rfl⟩ := List.mem_map.mp hm
  exact ⟨i, List.mem_range.mp hi, rfl⟩

private theorem sampleDb_keyOrder {ids : Nat → Int} (hmono : ∀ i j, i < j → ids i < ids j)
    (hpos : 0 < ids 0) (n : Nat) : KeyOrder (sampleDb ids n) where
  sorted := by
    rw [sampleDb, List.pairwise_map]
    exact List.pairwise_lt_range.imp fun h => hmono _ _ h
  positive := by
    intro m hm
    obtain ⟨i, _, rfl⟩ := mem_sampleDb hm
    rcases Nat.eq_zero_or_pos i with rfl | hi
    · exact hpos
    · exact Int.lt_trans hpos (hmono 0 i hi)
  unique := by
    rw [sampleDb, List.map_map]
    refine List.Nodup.map (fun a b h => ?_) List.nodup_range
    have hchars := String.ofList_injective h
    simpa [sampleRow] using congrArg List.length hchars

private theorem sampleDb_eligible (ids : Nat → Int) (n : Nat) :
    eligibleRows (sampleDb ids n) "default" "" = (sampleDb ids n).memories := by
  apply List.filter_eq_self.mpr
  intro m hm
  obtain ⟨i, _, rfl⟩ := mem_sampleDb hm
  rfl

private theorem sampleDb_eligible_length (ids : Nat → Int) (n : Nat) :
    (eligibleRows (sampleDb ids n) "default" "").length = n := by
  rw [sampleDb_eligible, sampleDb, List.length_map, List.length_range]

/-- The rows, and one more. -/
private theorem sampleDb_eligible_succ (ids : Nat → Int) (n : Nat) :
    eligibleRows (sampleDb ids (n + 1)) "default" "" =
      eligibleRows (sampleDb ids n) "default" "" ++ [sampleRow (ids n) n] := by
  rw [sampleDb_eligible, sampleDb_eligible, sampleDb, List.range_succ, List.map_append]
  rfl

private theorem noTier_listed : ∀ t ∈ (none : Option String), t ∈ TIERS := by simp

/-- A heap address for the cursor. -/
def heapAddress : Int := 0x7f0000000000

/-- The ids of 500 rows, and then ids above the heap. -/
def jumped (i : Nat) : Int := if i < 500 then i + 1 else heapAddress + i

private theorem jumped_increasing (i j : Nat) (h : i < j) : jumped i < jumped j := by
  unfold jumped heapAddress
  split <;> split <;> omega

/-- The address lies between the 500th row and the last one. -/
private theorem jumped_separate :
    CursorsSeparate (sampleDb jumped 501) "default" "" fun _ => heapAddress := by
  intro k hk
  rw [sampleDb_eligible_length] at hk
  obtain rfl : k = 0 := by
    unfold BATCH at hk
    omega
  have hnone : (eligibleRows (sampleDb jumped 500) "default" "").filter
      (fun m => heapAddress < m.id) = [] := by
    refine List.filter_eq_nil_iff.mpr fun m hm h => ?_
    rw [sampleDb_eligible] at hm
    obtain ⟨i, hlow, rfl⟩ := mem_sampleDb hm
    have hid : heapAddress < jumped i := of_decide_eq_true h
    rw [jumped, if_pos hlow, heapAddress] at hid
    omega
  have hlen : (eligibleRows (sampleDb jumped 500) "default" "").length = BATCH * (0 + 1) :=
    sampleDb_eligible_length jumped 500
  rw [sampleDb_eligible_succ, List.filter_append, hnone, List.nil_append, List.drop_left' hlen,
    List.filter_cons_of_pos (by decide), List.filter_nil]

/-- Two batches whose ids happen to lie on the two sides of the address. -/
theorem export_complete_jumped :
    ∃ fuel, exportJsonl (sampleDb jumped 501) 5 "default" none (fun _ => heapAddress) fuel =
      .ok (some ((eligibleRows (sampleDb jumped 501) "default" "").map (exportRow 5),
        (eligibleRows (sampleDb jumped 501) "default" "").length)) :=
  (export_complete_iff (sampleDb_keyOrder jumped_increasing (by decide) 501) 5 "default"
    noTier_listed fun _ => heapAddress).mpr jumped_separate

/-- The ids that rows get in turn. -/
def counted (i : Nat) : Int := i + 1

private theorem counted_increasing (i j : Nat) (h : i < j) : counted i < counted j := by
  unfold counted
  omega

private theorem counted_incomplete {n : Nat} (hn : BATCH < n) {addr : Int} (haddr : n ≤ addr) :
    ¬ CursorsSeparate (sampleDb counted n) "default" "" fun _ => addr := by
  have hhigh : ∀ k : Nat, ∀ m ∈ (sampleDb counted n).memories, m.id ≤ (fun _ : Nat => addr) k := by
    intro k m hm
    obtain ⟨i, hi, rfl⟩ := mem_sampleDb hm
    show counted i ≤ addr
    unfold counted
    omega
  rw [cursorsSeparate_of_high hhigh, sampleDb_eligible_length]
  omega

/-- With 501 active rows and a heap address for the cursor, no run of the loop is complete. -/
theorem export_incomplete :
    ¬ ∃ fuel, exportJsonl (sampleDb counted 501) 5 "default" none (fun _ => heapAddress) fuel =
      .ok (some ((eligibleRows (sampleDb counted 501) "default" "").map (exportRow 5),
        (eligibleRows (sampleDb counted 501) "default" "").length)) := by
  rintro ⟨fuel, h⟩
  have horder := sampleDb_keyOrder counted_increasing (by decide) 501
  have hpages := (complete_iff_pages horder 5 "default" noTier_listed (fun _ => heapAddress)
    fuel).mp h
  have hsep := (pages_iff_separate horder "default" "" _).mp ⟨fuel, hpages⟩
  exact counted_incomplete (by decide) (by decide) hsep

end AgosMemory.Export
