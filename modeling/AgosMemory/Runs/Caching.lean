import AgosMemory.Library.Along
import AgosMemory.Recall.Cache
import Mathlib.Data.List.Forall2
import Mathlib.Data.List.Nodup

/-!
# Bookkeeping of the embeddings cache

Beside the table runs a ledger that books every use: the uses of an entry since it was inserted, the
instant of the last one and the dimension that the embedder last produced. The table answers like the
embedder in every run. It keeps the ledger only as long as nothing uses an entry twice.
-/

namespace AgosMemory.Caching

open Library Recall

/-! ## The ledger -/

/-- What should be known of one entry. -/
structure Use where
  key : String × String
  count : Int
  last : Int
  dim : Nat

/-- Book one use at `now`, with the dimension if a vector was produced; an entry that is not there is
opened if it was stored. -/
def noteUse (key : String × String) (now : Int) (produced : Option Nat) (stored : Bool) :
    List Use → List Use
  | [] => if stored then [⟨key, 1, now, produced.getD 0⟩] else []
  | u :: ledger =>
    if u.key = key then { u with count := u.count + 1, last := now, dim := produced.getD u.dim } :: ledger
    else u :: noteUse key now produced stored ledger

/-- A row agrees with its use. -/
structure Kept (row : CacheRow) (u : Use) : Prop where
  key : row.key = u.key
  count : row.useCount = u.count
  last : row.lastUsedAt = u.last
  dim : row.vector.length = 4 * u.dim

/-- The table agrees with the ledger, entry by entry. -/
abbrev Books (cache : List CacheRow) (ledger : List Use) : Prop := List.Forall₂ Kept cache ledger

private theorem books_cons {row : CacheRow} {u : Use} {cache : List CacheRow} {ledger : List Use} :
    Books (row :: cache) (u :: ledger) ↔ Kept row u ∧ Books cache ledger := List.forall₂_cons

theorem Books.keys {cache : List CacheRow} {ledger : List Use} (h : Books cache ledger) :
    cache.map CacheRow.key = ledger.map Use.key := by
  induction h with
  | nil => rfl
  | cons hkept _ ih => rw [List.map_cons, List.map_cons, hkept.key, ih]

/-- A table that books a use without a change to the entry is off. -/
private theorem books_noteUse_unchanged {cache : List CacheRow} {ledger : List Use}
    (h : Books cache ledger)
    {key : String × String} (hkey : key ∈ cache.map CacheRow.key) (now : Int) (produced : Option Nat)
    (stored : Bool) : ¬ Books cache (noteUse key now produced stored ledger) := by
  induction h with
  | nil => cases hkey
  | @cons row u cache ledger hkept _ ih =>
    unfold noteUse
    intro hbooks
    by_cases hu : u.key = key
    · rw [if_pos hu] at hbooks
      obtain ⟨hrow, -⟩ := books_cons.mp hbooks
      have hbefore := hkept.count
      have hafter := hrow.count
      dsimp only at hafter
      omega
    · rw [if_neg hu] at hbooks
      obtain ⟨-, hrest⟩ := books_cons.mp hbooks
      refine ih ?_ hrest
      rcases List.mem_cons.mp hkey with hfirst | hin
      · exact absurd (hfirst.trans hkept.key).symm hu
      · exact hin

/-- A table without the entry stays right about the others. -/
private theorem books_noteUse_absent {cache : List CacheRow} {ledger : List Use}
    (h : Books cache ledger)
    {key : String × String} (hkey : key ∉ cache.map CacheRow.key) (now : Int)
    (produced : Option Nat) : noteUse key now produced false ledger = ledger := by
  induction h with
  | nil => rfl
  | @cons row u cache ledger hkept _ ih =>
    rw [List.map_cons, List.mem_cons, not_or] at hkey
    unfold noteUse
    rw [if_neg fun hu => hkey.1 (hu.symm.trans hkept.key.symm), ih hkey.2]

/-- An upsert books a use exactly if an entry that is there has the dimension produced. -/
private theorem books_upsert_iff {cache : List CacheRow} {ledger : List Use} (h : Books cache ledger)
    (hnodup : (cache.map CacheRow.key).Nodup) (new : CacheRow) (hnew : new.useCount = 1) {dim : Nat}
    (hdim : new.vector.length = 4 * dim) :
    Books (cacheUpsert new cache) (noteUse new.key new.lastUsedAt (some dim) true ledger) ↔
      ∀ row ∈ cache, row.key = new.key → row.vector.length = 4 * dim := by
  induction h with
  | nil => exact iff_of_true (.cons ⟨rfl, hnew, rfl, hdim⟩ .nil) (List.forall_mem_nil _)
  | @cons row u cache ledger hkept hrest ih =>
    obtain ⟨hfirst, hnodup⟩ := List.nodup_cons.mp hnodup
    unfold cacheUpsert noteUse
    by_cases hrow : row.key = new.key
    · have hu : u.key = new.key := hkept.key.symm.trans hrow
      -- no other row has the key
      have hothers : ∀ other ∈ cache, other.key = new.key → other.vector.length = 4 * dim :=
        fun other hother hkey =>
          absurd (List.mem_map.mpr ⟨other, hother, hkey.trans hrow.symm⟩) hfirst
      rw [if_pos hrow, if_pos hu, books_cons, List.forall_mem_cons]
      constructor
      · rintro ⟨hnow, -⟩
        exact ⟨fun _ => hnow.dim, hothers⟩
      · rintro ⟨hlength, -⟩
        have hcount := hkept.count
        exact ⟨⟨hkept.key, congrArg (· + 1) hcount, rfl, hlength hrow⟩, hrest⟩
    · have hu : u.key ≠ new.key := fun hu => hrow (hkept.key.trans hu)
      rw [if_neg hrow, if_neg hu, books_cons, List.forall_mem_cons, ih hnodup]
      constructor
      · rintro ⟨-, hall⟩
        exact ⟨fun hkey => absurd hkey hrow, hall⟩
      · rintro ⟨-, hall⟩
        exact ⟨hkept, hall⟩

/-- What is taken out of both by key leaves them in agreement. -/
theorem Books.filter {cache : List CacheRow} {ledger : List Use} (h : Books cache ledger)
    (p : String × String → Bool) :
    Books (cache.filter fun row => p row.key) (ledger.filter fun u => p u.key) := by
  induction h with
  | nil => exact .nil
  | @cons row u cache ledger hkept _ ih =>
    rw [List.filter_cons, List.filter_cons, hkept.key]
    split
    · exact .cons hkept ih
    · exact ih

private theorem mem_upsert_key {new : CacheRow} {cache : List CacheRow} {key : String × String} :
    key ∈ (cacheUpsert new cache).map CacheRow.key ↔ key = new.key ∨ key ∈ cache.map CacheRow.key := by
  induction cache with
  | nil => simp [cacheUpsert]
  | cons row cache ih =>
    unfold cacheUpsert
    split
    · next hrow =>
      have hsame : CacheRow.key { row with lastUsedAt := new.lastUsedAt, useCount := row.useCount + 1 } =
          row.key := rfl
      rw [List.map_cons, List.map_cons, List.mem_cons, List.mem_cons, hsame, hrow]
      tauto
    · rw [List.map_cons, List.map_cons, List.mem_cons, List.mem_cons, ih]
      tauto

private theorem upsert_keys_nodup {new : CacheRow} {cache : List CacheRow}
    (h : (cache.map CacheRow.key).Nodup) : ((cacheUpsert new cache).map CacheRow.key).Nodup := by
  induction cache with
  | nil => exact List.nodup_singleton _
  | cons row cache ih =>
    obtain ⟨hfirst, hcache⟩ := List.nodup_cons.mp h
    unfold cacheUpsert
    split
    · exact h
    · next hrow =>
      refine List.nodup_cons.mpr ⟨fun hin => ?_, ih hcache⟩
      rcases mem_upsert_key.mp hin with hnew | hin
      · exact hrow hnew
      · exact hfirst hin

/-! ## A deterministic embedder -/

variable {F : Type} {codec : F32Bytes F} {sha256Hex : String → String}
  {f : String → Nat → String → Option (List F)}

/-- A family of answers by model, dimension and text: each is a vector of that many `f32`. -/
structure Deterministic (codec : F32Bytes F) (f : String → Nat → String → Option (List F)) : Prop where
  length : ∀ model dim text vec, f model dim text = some vec → vec.length = dim
  f32 : ∀ model dim text vec, f model dim text = some vec → ∀ x ∈ vec, codec.IsF32 x

/-- An embedder that answers as the family says, at every call. -/
def Answers (f : String → Nat → String → Option (List F)) (e : Embedder F) : Prop :=
  ∀ n text, firstVector (e.embed n [text]) = f e.model e.dim text

/-- Every entry holds what the embedder says to its text, at some dimension. -/
structure Truthful (codec : F32Bytes F) (sha256Hex : String → String)
    (f : String → Nat → String → Option (List F)) (cache : List CacheRow) : Prop where
  keys : (cache.map CacheRow.key).Nodup
  vectors : ∀ row ∈ cache, ∃ text dim vec, row.contentHash = sha256Hex text ∧
    f row.embedModel dim text = some vec ∧ row.vector = blob codec vec

theorem Truthful.nil : Truthful codec sha256Hex f [] := ⟨List.nodup_nil, List.forall_mem_nil _⟩

/-- A vector that the cache gives is the one that the embedder gives. -/
private theorem cachedVector_eq (hinj : Function.Injective sha256Hex) (hf : Deterministic codec f)
    {c : CachedCall F} (hanswers : Answers f c.embedder) {cache : List CacheRow}
    (h : Truthful codec sha256Hex f cache) {vec : List F}
    (hvec : cachedVector codec sha256Hex c cache = some vec) :
    c.embedded = some vec ∧ c.key sha256Hex ∈ cache.map CacheRow.key := by
  unfold cachedVector at hvec
  split at hvec
  · cases hvec
  · obtain ⟨row, hrow, hdecode⟩ := Option.bind_eq_some_iff.mp hvec
    have hmem := List.mem_of_find?_eq_some hrow
    have hkey : row.key = c.key sha256Hex := by simpa using List.find?_some hrow
    obtain ⟨hhash, hmodel⟩ := Prod.mk.inj hkey
    obtain ⟨text, dim, stored, hstored, hsays, hblob⟩ := h.vectors row hmem
    obtain rfl : c.query.text = text := hinj (hhash.symm.trans hstored)
    rw [hblob, decode_blob codec (hf.f32 _ _ _ _ hsays)] at hdecode
    split at hdecode
    · next hdim =>
      obtain rfl := Option.some.inj hdecode
      refine ⟨?_, List.mem_map.mpr ⟨row, hmem, hkey⟩⟩
      rw [CachedCall.embedded, hanswers, ← hdim, hf.length _ _ _ _ hsays, ← hsays, hmodel]
    · cases hdecode

theorem Truthful.upsert {new : CacheRow} (hnew : ∃ text dim vec, new.contentHash = sha256Hex text ∧
    f new.embedModel dim text = some vec ∧ new.vector = blob codec vec) {cache : List CacheRow}
    (h : Truthful codec sha256Hex f cache) : Truthful codec sha256Hex f (cacheUpsert new cache) := by
  refine ⟨upsert_keys_nodup h.keys, ?_⟩
  obtain ⟨-, hvectors⟩ := h
  induction cache with
  | nil => exact List.forall_mem_singleton.mpr hnew
  | cons row cache ih =>
    obtain ⟨hrow, hcache⟩ := List.forall_mem_cons.mp hvectors
    unfold cacheUpsert
    split
    · exact List.forall_mem_cons.mpr ⟨hrow, hcache⟩
    · exact List.forall_mem_cons.mpr ⟨hrow, ih hcache⟩

/-- Through the cache a query has the vector that the embedder gives it, and every entry stays true. -/
private theorem queryEmbedding_truthful (hinj : Function.Injective sha256Hex)
    (hf : Deterministic codec f)
    {c : CachedCall F} (hanswers : Answers f c.embedder) {cache : List CacheRow}
    (h : Truthful codec sha256Hex f cache) :
    (queryEmbedding codec sha256Hex c cache).1 = c.embedded ∧
      Truthful codec sha256Hex f (queryEmbedding codec sha256Hex c cache).2 := by
  rcases queryEmbedding_cases codec sha256Hex c cache with ⟨vec, hvec, heq⟩ | ⟨-, hnone, heq⟩ |
    ⟨vec, -, hsome, heq⟩
  · rw [heq]
    exact ⟨(cachedVector_eq hinj hf hanswers h hvec).1.symm, h⟩
  · rw [heq]
    exact ⟨hnone.symm, h⟩
  · rw [heq]
    refine ⟨hsome.symm, ?_⟩
    dsimp only
    split
    · exact h
    · have hsays : f c.embedder.model c.embedder.dim c.query.text = some vec :=
        (hanswers c.call c.query.text).symm.trans hsome
      exact h.upsert ⟨c.query.text, c.embedder.dim, vec, rfl, hsays, rfl⟩

/-! ## Operations -/

/-- What is done to the cache. -/
inductive CacheOp (F : Type) where
  | recallWith (c : CachedCall F)
  | evict (e : Eviction)
  | status (schema : Int) (agentId : String) (raw : List (String × Int))

structure CacheState where
  cache : List CacheRow
  ledger : List Use

def CacheState.empty : CacheState := ⟨[], []⟩

/-- The table has an entry of this key. -/
def holds (cache : List CacheRow) (key : String × String) : Bool := cache.any fun row => row.key = key

theorem holds_iff {cache : List CacheRow} {key : String × String} :
    holds cache key = true ↔ key ∈ cache.map CacheRow.key := by
  simp [holds]

/-- Book what a recall used: an answer from the cache, or a vector that was produced. -/
def CacheState.recalled (codec : F32Bytes F) (sha256Hex : String → String) (c : CachedCall F)
    (s : CacheState) : CacheState :=
  let answer := queryEmbedding codec sha256Hex c s.cache
  match answer.1 with
  | none => ⟨answer.2, s.ledger⟩
  | some vec =>
    let produced := if (cachedVector codec sha256Hex c s.cache).isSome then none else some vec.length
    ⟨answer.2, noteUse (c.key sha256Hex) c.now produced (holds answer.2 (c.key sha256Hex)) s.ledger⟩

def CacheState.step (codec : F32Bytes F) (sha256Hex : String → String) (s : CacheState) :
    CacheOp F → CacheState
  | .recallWith c => if Text.trim c.query.text = "" then s else s.recalled codec sha256Hex c
  | .evict e =>
    let cache := (evictEmbeddingsCache e s.cache).2
    ⟨cache, s.ledger.filter fun u => holds cache u.key⟩
  | .status _ _ _ => s

/-- What is asked of one operation: a recall answers as with the embedder alone, and the table agrees
with the ledger after it; what an eviction removes was used neither within the age nor often enough;
and the status counts the rows. -/
def CacheOp.Sound [F64 F] (codec : F32Bytes F) (sha256Hex : String → String) (s : CacheState)
    (op : CacheOp F) : Prop :=
  let s' := s.step codec sha256Hex op
  match op with
  | .recallWith c => (recallCached codec sha256Hex c s.cache).1 = recallEmbedding c ∧
      Books s'.cache s'.ledger
  | .evict e => Books s'.cache s'.ledger ∧ ∀ u ∈ s.ledger, u ∉ s'.ledger →
      u.last < e.now - e.maxAgeMillis ∧ u.count < e.minUseCount
  | .status schema agentId raw =>
    (Recall.status schema agentId raw s.cache).embeddingsCache.entries = s.cache.length

/-- An operation that the bookkeeping survives: a recall whose embedder refuses, or that finds no entry
of its text and model, or that does not get to read one of its own dimension and then books it; and a
status at which the latest use of all equals the number of rows. -/
def CacheOp.Booked (sha256Hex : String → String) (s : CacheState) : CacheOp F → Prop
  | .recallWith c => Text.trim c.query.text = "" ∨ c.embedded = none ∨
      ∀ row ∈ s.cache, row.key = c.key sha256Hex →
        c.readFails = true ∧ c.writeFails = false ∧ row.vector.length = 4 * c.embedder.dim
  | .evict _ => True
  | .status _ _ _ => (s.cache.map CacheRow.lastUsedAt).max?.getD 0 = s.cache.length

instance (sha256Hex : String → String) (s : CacheState) :
    ∀ op : CacheOp F, Decidable (op.Booked sha256Hex s)
  | .recallWith _ => inferInstanceAs (Decidable (_ ∨ _ ∨ _))
  | .evict _ => inferInstanceAs (Decidable True)
  | .status _ _ _ => inferInstanceAs (Decidable (_ = _))

/-- The operations of a run: the embedders answer as the family says, and the clock of an eviction
stands after 1970. -/
def CacheOp.Usual (f : String → Nat → String → Option (List F)) : CacheOp F → Prop
  | .recallWith c => Answers f c.embedder
  | .evict e => 0 ≤ e.now ∧ InI64 e.now ∧ InI64 e.maxAgeMillis
  | .status _ _ _ => True

/-! ## One operation -/

/-- A read that was not refused sees an entry of its own dimension. -/
private theorem readFails_of_none {c : CachedCall F} {cache : List CacheRow}
    (hnodup : (cache.map CacheRow.key).Nodup) (hnone : cachedVector codec sha256Hex c cache = none)
    {row : CacheRow} (hrow : row ∈ cache) (hkey : row.key = c.key sha256Hex)
    (hlength : row.vector.length = 4 * c.embedder.dim) : c.readFails = true := by
  by_contra hreads
  unfold cachedVector at hnone
  rw [if_neg hreads] at hnone
  cases hfind : cache.find? fun row => row.key = c.key sha256Hex with
  | none =>
    have habsent := List.find?_eq_none.mp hfind row hrow
    exact habsent (decide_eq_true hkey)
  | some found =>
    have hfound : found.key = c.key sha256Hex := by simpa using List.find?_some hfind
    obtain rfl := List.inj_on_of_nodup_map hnodup (List.mem_of_find?_eq_some hfind) hrow
      (hfound.trans hkey.symm)
    rw [hfind, Option.bind_some] at hnone
    unfold decodeBlob at hnone
    rw [if_neg (by omega)] at hnone
    cases hnone

section

variable [F64 F]

private theorem recallWithClock_blank {reads : Reads F} {agentId : String} {q : RecallQuery F}
    {now : Int}
    (h : Text.trim q.text = "") : recallWithClock reads agentId q now =
      .error (.invalidInput "recall query text is empty") := by
  unfold recallWithClock
  rw [if_pos h]
  rfl

/-- A recall answers as with the embedder alone. -/
private theorem recallCached_fst (hinj : Function.Injective sha256Hex) (hf : Deterministic codec f)
    {c : CachedCall F} (hanswers : Answers f c.embedder) {cache : List CacheRow}
    (h : Truthful codec sha256Hex f cache) :
    (recallCached codec sha256Hex c cache).1 = recallEmbedding c := by
  unfold recallCached recallEmbedding
  split
  · next hblank => exact (recallWithClock_blank hblank).symm
  · rw [← (queryEmbedding_truthful hinj hf hanswers h).1]

/-- A recall is sound exactly if the bookkeeping survives it. -/
private theorem recall_sound_iff (hinj : Function.Injective sha256Hex) (hf : Deterministic codec f)
    {c : CachedCall F} (hanswers : Answers f c.embedder) {s : CacheState}
    (h : Truthful codec sha256Hex f s.cache) (hbooks : Books s.cache s.ledger) :
    (CacheOp.recallWith c).Sound codec sha256Hex s ↔ (CacheOp.recallWith c).Booked sha256Hex s := by
  unfold CacheOp.Sound CacheOp.Booked
  simp only [CacheState.step]
  rw [and_iff_right (recallCached_fst hinj hf hanswers h)]
  by_cases hblank : Text.trim c.query.text = ""
  · rw [if_pos hblank]
    exact iff_of_true hbooks (.inl hblank)
  rw [if_neg hblank, or_iff_right hblank]
  unfold CacheState.recalled
  rcases queryEmbedding_cases codec sha256Hex c s.cache with ⟨vec, hvec, heq⟩ | ⟨_, hnone, heq⟩ |
    ⟨vec, hcached, hsome, heq⟩
  · -- an answer from the cache is a use that the table does not book
    obtain ⟨hembedded, hkey⟩ := cachedVector_eq hinj hf hanswers h hvec
    rw [heq]
    refine iff_of_false (books_noteUse_unchanged hbooks hkey _ _ _) ?_
    rintro (hnone | hall)
    · rw [hembedded] at hnone
      cases hnone
    · obtain ⟨row, hrow, hrowKey⟩ := List.mem_map.mp hkey
      unfold cachedVector at hvec
      rw [if_pos (hall row hrow hrowKey).1] at hvec
      cases hvec
  · rw [heq]
    exact iff_of_true hbooks (.inl hnone)
  · have hlength : vec.length = c.embedder.dim :=
      hf.length _ _ _ _ ((hanswers c.call c.query.text).symm.trans hsome)
    have hsay : c.embedded ≠ none := by
      rw [hsome]
      exact Option.some_ne_none _
    rw [heq, or_iff_right hsay]
    simp only [hcached, Option.isSome_none, Bool.false_eq_true, if_false, hlength]
    by_cases hwrite : c.writeFails = true
    · simp only [hwrite, if_true]
      by_cases hkey : c.key sha256Hex ∈ s.cache.map CacheRow.key
      · refine iff_of_false (books_noteUse_unchanged hbooks hkey _ _ _) fun hall => ?_
        obtain ⟨row, hrow, hrowKey⟩ := List.mem_map.mp hkey
        cases (hall row hrow hrowKey).2.1
      · have hheld : holds s.cache (c.key sha256Hex) = false :=
          Bool.eq_false_iff.mpr fun hheld => hkey (holds_iff.mp hheld)
        rw [hheld, books_noteUse_absent hbooks hkey]
        refine iff_of_true hbooks fun row hrow hrowKey => ?_
        exact absurd (List.mem_map.mpr ⟨row, hrow, hrowKey⟩) hkey
    · have hstored : holds (cacheUpsert (cacheEntry codec sha256Hex c vec) s.cache)
          (c.key sha256Hex) = true :=
        holds_iff.mpr (mem_upsert_key.mpr (.inl rfl))
      have hblob : (cacheEntry codec sha256Hex c vec).vector.length = 4 * c.embedder.dim := by
        rw [← hlength]
        exact length_blob codec vec
      have hiff := books_upsert_iff hbooks h.keys (cacheEntry codec sha256Hex c vec) rfl hblob
      simp only [hwrite, Bool.false_eq_true, if_false, hstored]
      refine hiff.trans ⟨fun hall row hrow hkey => ?_, fun hall row hrow hkey => ?_⟩
      · have hdim := hall row hrow hkey
        exact ⟨readFails_of_none h.keys hcached hrow hkey hdim, trivial, hdim⟩
      · exact (hall row hrow hkey).2.2

end

/-! ## Evictions -/

/-- The cutoff of an eviction is never above the exact difference. -/
private theorem cutoff_le {now maxAge : Int} (hnow : 0 ≤ now) (hnowRange : InI64 now)
    (hage : InI64 maxAge) :
    wrapI64 (now - maxAge) ≤ now - maxAge := by
  unfold InI64 at hnowRange hage
  unfold wrapI64 Int.bmod
  dsimp only
  split <;> omega

/-- The ledger follows what is taken out of the table by key. -/
theorem Books.evict {cache : List CacheRow} {ledger : List Use} (h : Books cache ledger)
    (p : String × String → Bool) :
    let left := cache.filter fun row => p row.key
    Books left (ledger.filter fun u => holds left u.key) := by
  intro left
  have hsame : (ledger.filter fun u => holds left u.key) = ledger.filter fun u => p u.key := by
    refine List.filter_congr fun u hu => ?_
    have hkey : u.key ∈ cache.map CacheRow.key := h.keys ▸ List.mem_map_of_mem hu
    obtain ⟨row, hrow, hrowKey⟩ := List.mem_map.mp hkey
    by_cases hp : p u.key = true
    · rw [hp]
      refine holds_iff.mpr (List.mem_map.mpr ⟨row, List.mem_filter.mpr ⟨hrow, ?_⟩, hrowKey⟩)
      rw [hrowKey, hp]
    · rw [Bool.eq_false_iff.mpr hp]
      refine Bool.eq_false_iff.mpr fun hin => hp ?_
      obtain ⟨other, hother, hotherKey⟩ := List.mem_map.mp (holds_iff.mp hin)
      rw [← hotherKey]
      exact (List.mem_filter.mp hother).2
  rw [hsame]
  exact h.filter p

/-- What an eviction leaves is chosen by key. -/
private theorem evict_filter (e : Eviction) (cache : List CacheRow) : ∃ p : String × String → Bool,
    (evictEmbeddingsCache e cache).2 = cache.filter (fun row => p row.key) ∧
      ∀ row ∈ cache, p row.key = false → ∃ other ∈ e.matching cache, other.key = row.key := by
  unfold evictEmbeddingsCache
  by_cases hlimit : e.deleteLimit = true
  · refine ⟨fun key => decide (key ∉ (e.doomed cache).map CacheRow.key), by simp only [hlimit, if_true],
      fun row _ hp => ?_⟩
    obtain ⟨other, hother, hkey⟩ := List.mem_map.mp (not_not.mp (of_decide_eq_false hp))
    refine ⟨other, ?_, hkey⟩
    unfold Eviction.doomed at hother
    dsimp only at hother
    split at hother
    · exact (List.mem_insertionSort _).mp hother
    · exact (List.mem_insertionSort _).mp (List.mem_of_mem_take hother)
  · refine ⟨fun _ => true, ?_, fun _ _ hp => by cases hp⟩
    simp only [hlimit, Bool.false_eq_true, if_false, List.filter_true]

/-- An eviction keeps the agreement, and removes what was neither used within the age nor often. -/
private theorem evict_sound [F64 F] {e : Eviction} (hnow : 0 ≤ e.now) (hrange : InI64 e.now)
    (hage : InI64 e.maxAgeMillis) {s : CacheState} (hkeys : (s.cache.map CacheRow.key).Nodup)
    (hbooks : Books s.cache s.ledger) : (CacheOp.evict e : CacheOp F).Sound codec sha256Hex s := by
  obtain ⟨p, hleft, hgone⟩ := evict_filter e s.cache
  unfold CacheOp.Sound
  simp only [CacheState.step, hleft]
  refine ⟨hbooks.evict p, fun u hu hout => ?_⟩
  obtain ⟨row, hrow, hkept⟩ : ∃ row ∈ s.cache, Kept row u := by
    obtain ⟨i, rfl⟩ := List.mem_iff_get.mp hu
    have hi : i.val < s.cache.length := hbooks.length_eq.symm ▸ i.isLt
    exact ⟨s.cache.get ⟨i.val, hi⟩, List.get_mem _ _,
      (List.forall₂_iff_get.mp hbooks).2 i.val hi i.isLt⟩
  have hp : p row.key = false := by
    by_contra hp
    refine hout (List.mem_filter.mpr ⟨hu, holds_iff.mpr ?_⟩)
    exact List.mem_map.mpr ⟨row, List.mem_filter.mpr ⟨hrow, Bool.of_not_eq_false hp⟩, hkept.key⟩
  obtain ⟨other, hother, hkey⟩ := hgone row hrow hp
  obtain ⟨hmem, hmatch⟩ := List.mem_filter.mp hother
  obtain rfl := List.inj_on_of_nodup_map hkeys hmem hrow hkey
  obtain ⟨hold, hrare⟩ := of_decide_eq_true hmatch
  rw [← hkept.last, ← hkept.count]
  exact ⟨hold.trans_le (cutoff_le hnow hrange hage), hrare⟩

/-! ## Runs -/

/-- Every entry stays true, whatever is done. -/
private theorem step_truthful (hinj : Function.Injective sha256Hex) (hf : Deterministic codec f)
    {op : CacheOp F} (hop : op.Usual f) {s : CacheState}
    (h : Truthful codec sha256Hex f s.cache) :
    Truthful codec sha256Hex f (s.step codec sha256Hex op).cache := by
  cases op with
  | recallWith c =>
    simp only [CacheState.step]
    split
    · exact h
    · have hafter := (queryEmbedding_truthful hinj hf hop h).2
      unfold CacheState.recalled
      dsimp only
      split <;> exact hafter
  | evict e =>
    obtain ⟨p, hleft, -⟩ := evict_filter e s.cache
    simp only [CacheState.step, hleft]
    exact ⟨h.keys.sublist (List.filter_sublist.map _),
      fun row hrow => h.vectors row (List.mem_of_mem_filter hrow)⟩
  | status _ _ _ => exact h

/-- In every run a recall answers as with the embedder alone, the table keeps the ledger, evictions
spare what is in use and the status counts the rows, exactly if no recall uses an entry that is there
and each status meets a table whose latest use happens to equal its size. -/
theorem cache_sound_iff [F64 F] (hinj : Function.Injective sha256Hex) (hf : Deterministic codec f)
    (ops : List (CacheOp F)) (hops : ∀ op ∈ ops, op.Usual f) :
    Along (CacheState.step codec sha256Hex) (fun s op => op.Sound codec sha256Hex s) .empty ops ↔
      Along (CacheState.step codec sha256Hex) (fun s op => op.Booked sha256Hex s) .empty ops := by
  refine along_congr (I := fun s => Truthful codec sha256Hex f s.cache ∧ Books s.cache s.ledger)
    (fun op hop s hs => ?_) (fun op hop s hs hsound => ?_) ⟨.nil, .nil⟩
  · obtain ⟨htrue, hbooks⟩ := hs
    cases op with
    | recallWith c => exact recall_sound_iff hinj hf (hops _ hop) htrue hbooks
    | evict e =>
      obtain ⟨hnow, hrange, hage⟩ := hops _ hop
      exact iff_of_true (evict_sound hnow hrange hage htrue.keys hbooks) trivial
    | status _ _ _ => exact Iff.rfl
  · refine ⟨step_truthful hinj hf (hops op hop) hs.1, ?_⟩
    cases op with
    | recallWith c => exact hsound.2
    | evict e => exact hsound.1
    | status _ _ _ => exact hs.2

/-- In every run, whatever is booked, a recall answers as with the embedder alone. -/
theorem cache_transparent [F64 F] (hinj : Function.Injective sha256Hex) (hf : Deterministic codec f)
    (ops : List (CacheOp F)) (hops : ∀ op ∈ ops, op.Usual f) (c : CachedCall F)
    (hanswers : Answers f c.embedder) :
    (recallCached codec sha256Hex c (ops.foldl (CacheState.step codec sha256Hex) .empty).cache).1 =
      recallEmbedding c := by
  refine recallCached_fst hinj hf hanswers ?_
  have hrun : ∀ (ops : List (CacheOp F)) (s : CacheState), (∀ op ∈ ops, op.Usual f) →
      Truthful codec sha256Hex f s.cache →
      Truthful codec sha256Hex f (ops.foldl (CacheState.step codec sha256Hex) s).cache := by
    intro ops
    induction ops with
    | nil => exact fun s _ hs => hs
    | cons op ops ih =>
      intro s hops hs
      exact ih _ (fun o ho => hops o (List.mem_cons_of_mem _ ho))
        (step_truthful hinj hf (hops op List.mem_cons_self) hs)
  exact hrun ops .empty hops .nil

/-! ## One table -/

/-- Bytes of the natural numbers below 256. -/
def byteCodec : F32Bytes ℚ where
  IsF32 x := ∃ n < 256, x = (n : Nat)
  toLeBytes x := [UInt8.ofNat x.num.toNat, 0, 0, 0]
  fromLeBytes bytes := (bytes.headD 0).toNat
  length_toLeBytes _ := rfl
  from_toLeBytes x hx := by
    obtain ⟨n, hn, rfl⟩ := hx
    simp only [Rat.num_natCast, Int.toNat_natCast, List.headD_cons, UInt8.toNat_ofNat',
      Nat.mod_eq_of_lt hn]

/-- The length of the text, in every component. -/
def lengthVector (dim : Nat) (text : String) : List ℚ := List.replicate dim (text.length % 256 : Nat)

def lengthEmbedder (dim : Nat) : Embedder ℚ where
  model := "length"
  dim
  embed _ texts := .ok (texts.map (lengthVector dim))

private theorem lengthVector_deterministic :
    Deterministic byteCodec fun _ dim text => some (lengthVector dim text) where
  length _ dim text vec h := by
    rw [← Option.some.inj h]
    exact List.length_replicate
  f32 _ dim text vec h x hx := by
    rw [← Option.some.inj h] at hx
    exact ⟨text.length % 256, Nat.mod_lt _ (by decide), List.eq_of_mem_replicate hx⟩

/-- A recall of one text against an empty store. -/
def askSky (dim : Nat) (now : Int) : CachedCall ℚ where
  embedder := lengthEmbedder dim
  call := 0
  readFails := false
  writeFails := false
  agentId := "default"
  query := sampleQuery
  now
  legs _ _ _ := .ok ([], [])
  gate2 := .ok {}
  gate3 := .ok {}

/-- An entry is used once, counted, evicted when it is old and inserted again. -/
def bookedRun : List (CacheOp ℚ) :=
  [.recallWith (askSky 1 1), .status 1 "default" [], .evict ⟨true, 1000, 10, 2, -1⟩,
    .recallWith (askSky 2 1000)]

theorem cache_sound_sample : Along (CacheState.step byteCodec id)
    (fun s op => op.Sound byteCodec id s) .empty bookedRun := by
  refine (cache_sound_iff Function.injective_id lengthVector_deterministic bookedRun ?_).mpr
    (by decide +kernel)
  intro op hop
  simp only [bookedRun, List.mem_cons, List.not_mem_nil, or_false] at hop
  rcases hop with rfl | rfl | rfl | rfl
  · exact fun _ _ => rfl
  · trivial
  · exact ⟨by decide, by decide, by decide⟩
  · exact fun _ _ => rfl

def ranTable (ops : List (CacheOp ℚ)) : List CacheRow :=
  (ops.foldl (CacheState.step byteCodec id) .empty).cache

/-- Used at 5 and at 9 an entry counts one use at 5, so that it is evicted for a cutoff of 8 and two
uses; at another dimension it keeps its vector; and the status gives the instant as the number of rows. -/
theorem cache_unsound :
    (ranTable [.recallWith (askSky 1 5), .recallWith (askSky 1 9)]).map
        (fun row => (row.lastUsedAt, row.useCount)) = [(5, 1)] ∧
      ranTable [.recallWith (askSky 1 5), .recallWith (askSky 1 9), .evict ⟨true, 20, 12, 2, -1⟩] =
        [] ∧
      (ranTable [.recallWith (askSky 1 5), .recallWith (askSky 2 9)]).map
        (fun row => row.vector.length) = [4] ∧
      (status 1 "default" [] (ranTable [.recallWith (askSky 1 5)])).embeddingsCache.entries = 5 ∧
      (ranTable [.recallWith (askSky 1 5)]).length = 1 := by
  refine ⟨?_, ?_, ?_, ?_, ?_⟩ <;> decide +kernel

end AgosMemory.Caching
