import AgosMemory.Library.Clients
import AgosMemory.Storage.Schema

/-!
# Verified snapshots

`snapshot_to` copies the database in one writer job and verifies the copy in further steps, with the
others at work between any two of them. What SQLite and the file system answer is a parameter.
-/

namespace AgosMemory.Snapshot

open Library
open Library.Client (call)

variable {D : Type}

/-! ## The call -/

/-- A file at the target: the image of a database, or what a copy that broke off has left. -/
inductive File (D : Type) where
  | image (d : D)
  | broken

/-- The committed database, and the file at the target. -/
structure World (D : Type) where
  db : D
  file : Option (File D) := none

/-- What SQLite and the file system answer in one call. A copy that breaks off may leave a file. -/
structure Weather (D : Type) where
  utf8 : Bool := true
  vacuum : Option (Error × Bool) := none
  openFails : Option Error := none
  integrity : File D → Except Error String
  snapshotCount : String → Option Error := fun _ => none
  checkout : Option Error := none
  liveCount : String → Option Error := fun _ => none
  stat : Except Error Nat

/-- Result of a verified snapshot. -/
structure SnapshotReport where
  path : String
  bytes : Nat
  integrity : String
  tables : List (String × Int)

/-- The tables that are counted. -/
def CORE_TABLES : List String :=
  ["agents", "meta", "sessions", "turns", "memories", "memory_versions", "memory_links",
    "embeddings_cache", "jobs", "jobs_dead", "llm_calls", "token_ledger", "recalls", "recall_items",
    "pins", "forget_audit", "tombstones"]

/-- An answer, unless it failed. -/
def answered {α : Type} (fault : Option Error) (a : α) : Except Error α :=
  match fault with
  | some e => .error e
  | none => .ok a

/-- Row counts, table by table. -/
def tableCounts (count : String → Except Error Int) :
    List String → Except Error (List (String × Int))
  | [] => .ok []
  | t :: ts => do
    let n ← count t
    let counts ← tableCounts count ts
    return (t, n) :: counts

/-- `{:?}` of the counts. -/
def debugCounts (counts : List (String × Int)) : String :=
  "[" ++ String.intercalate ", " (counts.map fun c => "(\"" ++ c.1 ++ "\", " ++ toString c.2 ++ ")") ++
    "]"

section

variable (rows : D → String → Int) (w : Weather D)

/-- `VACUUM INTO ?1`, a job of the writer. -/
def vacuumInto : Program Error (World D) Unit := fun s =>
  if s.file.isSome then (.error (.storage "output file already exists"), s)
  else
    match w.vacuum with
    | some (e, leaves) => (.error e, if leaves then { s with file := some .broken } else s)
    | none => (.ok (), { s with file := some (.image s.db) })

/-- Open the copy, check its integrity and count its rows. -/
def verifyCopy (out : String) (file : Option (File D)) :
    Except Error (String × List (String × Int)) := do
  match file with
  | none => throw (.storage ("cannot open snapshot " ++ out ++ ": unable to open database file"))
  | some file =>
    answered w.openFails ()
    let integrity ← w.integrity file
    match file with
    | .broken => throw (.storage "file is not a database")
    | .image d =>
      let counts ← tableCounts (fun t => answered (w.snapshotCount t) (rows d t)) CORE_TABLES
      return (integrity, counts)

/-- The counts of the live database: every statement reads what is committed by then. -/
def liveCounts : List String → Client Error (World D) (List (String × Int))
  | [] => pure []
  | t :: ts => do
    let n ← call fun s => (answered (w.liveCount t) (rows s.db t), s)
    let counts ← liveCounts ts
    return (t, n) :: counts

/-- Write a consistent snapshot of the database to `out`. -/
def snapshotTo (out : String) : Client Error (World D) SnapshotReport := do
  let found ← call fun s => (.ok s.file.isSome, s)
  if found then
    Client.fail (.invalidInput ("snapshot target " ++ out ++ " already exists; remove it first"))
  else if !w.utf8 then Client.fail (.invalidInput "snapshot path is not valid UTF-8")
  else do
    call (vacuumInto w)
    let (integrity, snapshotCounts) ← call fun s => (verifyCopy rows w out s.file, s)
    Client.lift (answered w.checkout ())
    let live ← liveCounts rows w CORE_TABLES
    if snapshotCounts ≠ live then
      Client.fail (.storage ("snapshot verification failed: table counts differ (snapshot " ++
        debugCounts snapshotCounts ++ " vs live " ++ debugCounts live ++ ")"))
    else do
      let bytes ← Client.lift w.stat
      return ⟨out, bytes, integrity, snapshotCounts⟩

end

/-! ## What is asked of it -/

/-- The steps of one call, each with the states around it. -/
abbrev Log (D : Type) := List (World D × World D)

/-- Nothing fails in the call, and the copy of `d` is in order. -/
structure Faultless (w : Weather D) (d : D) : Prop where
  utf8 : w.utf8 = true
  vacuum : w.vacuum = none
  openFails : w.openFails = none
  integrity : w.integrity (.image d) = .ok "ok"
  snapshotCount : ∀ t ∈ CORE_TABLES, w.snapshotCount t = none
  checkout : w.checkout = none
  liveCount : ∀ t ∈ CORE_TABLES, w.liveCount t = none
  stat : ∃ n, w.stat = .ok n

/-- A report is for a sound image of what was committed at the second step, which is at the target
from then on; a call in which nothing fails gives one; and a call that fails leaves the target as it
is. -/
structure Verified (w : Weather D) (log : Log D) (r : Except Error SnapshotReport) : Prop where
  image : ∀ report, r = .ok report → report.integrity = "ok" ∧
    ∃ a b rest, log = a :: b :: rest ∧ ∀ c ∈ b :: rest, c.2.file = some (.image b.1.db)
  calm : ∀ a b rest, log = a :: b :: rest → a.1.file = none → b.1.file = none →
    Faultless w b.1.db → ∃ report, r = .ok report
  clean : ∀ e, r = .error e → ∀ c ∈ log, c.2.file = c.1.file

/-- The call is refused before anything is written: something is at the target, its path is not
UTF-8, or the copy breaks off and leaves nothing. -/
def Refused (w : Weather D) (log : Log D) : Prop :=
  (∃ a rest, log = a :: rest ∧ a.1.file ≠ none) ∨ w.utf8 = false ∨
    ∃ a b rest, log = a :: b :: rest ∧ (b.1.file ≠ none ∨ ∃ e, w.vacuum = some (e, false))

/-- Nothing fails, and each core table has the same number of rows when it is counted as when the
copy was taken. -/
def Steady (rows : D → String → Int) (w : Weather D) (log : Log D) : Prop :=
  ∃ a b c rest, log = a :: b :: c :: rest ∧ Faultless w b.1.db ∧
    ∀ (j : Nat) (t : String) (s : World D × World D), CORE_TABLES[j]? = some t →
      rest[j]? = some s → rows s.1.db t = rows b.1.db t

/-- A file that is at the target stays as it is. -/
def Grows (s t : World D) : Prop := ∀ f, s.file = some f → t.file = some f

instance : Std.Refl (Grows (D := D)) where
  refl _ _ h := h

instance : IsTrans (World D) Grows where
  trans _ _ _ hab hbc f h := hbc f (hab f h)

/-! ## Counts -/

section

variable {rows : D → String → Int} {w : Weather D}

private theorem answered_none {α : Type} {fault : Option Error} {a : α} (h : fault = none) :
    answered fault a = .ok a := by
  rw [h]
  rfl

private theorem answered_some {α : Type} {fault : Option Error} {a : α} (h : fault ≠ none) :
    ∃ e, answered fault a = .error e := by
  cases fault with
  | none => exact absurd rfl h
  | some e => exact ⟨e, rfl⟩

/-- The counts are there if no statement fails. -/
private theorem tableCounts_cases (fault : String → Option Error) (f : String → Int)
    (ts : List String) :
    (∀ t ∈ ts, fault t = none) ∧
        tableCounts (fun t => answered (fault t) (f t)) ts = .ok (ts.map fun t => (t, f t)) ∨
      (∃ t ∈ ts, fault t ≠ none) ∧
        ∃ e, tableCounts (fun t => answered (fault t) (f t)) ts = .error e := by
  induction ts with
  | nil => exact .inl ⟨List.forall_mem_nil _, rfl⟩
  | cons t ts ih =>
    unfold tableCounts
    by_cases ht : fault t = none
    · rw [answered_none ht]
      rcases ih with ⟨hall, heq⟩ | ⟨⟨t', ht', hfault⟩, e, heq⟩
      · refine .inl ⟨List.forall_mem_cons.mpr ⟨ht, hall⟩, ?_⟩
        rw [heq]
        rfl
      · refine .inr ⟨⟨t', List.mem_cons_of_mem _ ht', hfault⟩, e, ?_⟩
        rw [heq]
        rfl
    · obtain ⟨e, he⟩ : ∃ e, answered (fault t) (f t) = .error e := answered_some ht
      refine .inr ⟨⟨t, List.mem_cons_self, ht⟩, e, ?_⟩
      rw [he]
      rfl

/-- The copy of `d` is verified, or something failed. -/
private theorem verifyCopy_cases (out : String) (d : D) :
    (∃ integrity, w.openFails = none ∧ w.integrity (.image d) = .ok integrity ∧
        (∀ t ∈ CORE_TABLES, w.snapshotCount t = none) ∧
        verifyCopy rows w out (some (.image d)) =
          .ok (integrity, CORE_TABLES.map fun t => (t, rows d t))) ∨
      ¬ Faultless w d ∧ ∃ e, verifyCopy rows w out (some (.image d)) = .error e := by
  unfold verifyCopy
  by_cases hopen : w.openFails = none
  · cases hintegrity : w.integrity (.image d) with
    | error e =>
      refine .inr ⟨fun h => ?_, e, by simp only [answered_none hopen, hintegrity]; rfl⟩
      rw [h.integrity] at hintegrity
      cases hintegrity
    | ok integrity =>
      rcases tableCounts_cases w.snapshotCount (rows d) CORE_TABLES with ⟨hall, heq⟩ |
        ⟨⟨t, ht, hfault⟩, e, heq⟩
      · exact .inl ⟨integrity, hopen, rfl, hall,
          by simp only [answered_none hopen, hintegrity, heq]; rfl⟩
      · exact .inr ⟨fun h => hfault (h.snapshotCount t ht), e,
          by simp only [answered_none hopen, hintegrity, heq]; rfl⟩
  · obtain ⟨e, he⟩ : ∃ e, answered w.openFails () = .error e := answered_some hopen
    exact .inr ⟨fun h => hopen h.openFails, e, by simp only [he]; rfl⟩

/-- The steps of the live counts: each is a look at the database, and the file stays. -/
def LiveSteps (rows : D → String → Int) (w : Weather D) (ts : List String) (f : File D) (log : Log D)
    (all : Log D) (r : Except Error (List (String × Int))) : Prop :=
  ∃ lives : Log D, all = log ++ lives ∧ (∀ c ∈ lives, c.2.file = some f) ∧
    ((∃ t ∈ ts, w.liveCount t ≠ none) ∧ (∃ e, r = .error e) ∨
      (∀ t ∈ ts, w.liveCount t = none) ∧ lives.length = ts.length ∧
        r = .ok (List.zipWith (fun t c => (t, rows c.1.db t)) ts lives))

private theorem moves_look {α : Type} (f : World D → Except Error α) :
    Program.Moves (Client.Within (fun _ => True) Grows) fun s => (f s, s) :=
  fun _ _ => ⟨trivial, fun _ h => h⟩

private theorem liveCounts_serves (ts : List String) (f : File D) (log : Log D) {s : World D}
    (hs : s.file = some f) : (liveCounts rows w ts).Serves (fun _ => True) Grows
      (LiveSteps rows w ts f log) log s := by
  induction ts generalizing log s with
  | nil =>
    exact ⟨[], (List.append_nil _).symm, List.forall_mem_nil _,
      .inr ⟨List.forall_mem_nil _, rfl, rfl⟩⟩
  | cons t ts ih =>
    refine Client.serves_call_bind (moves_look _) (fun u e v _ hsu hrun => ?_)
      (fun u n v _ hsu hrun => ?_)
    · obtain ⟨herror, rfl⟩ := Prod.mk.inj hrun
      refine ⟨[(u, u)], rfl, ?_, .inl ⟨⟨t, List.mem_cons_self, fun hnone => ?_⟩, e, rfl⟩⟩
      · rintro c hc
        rw [List.mem_singleton.mp hc]
        exact hsu f hs
      · rw [answered_none hnone] at herror
        cases herror
    · obtain ⟨hok, rfl⟩ := Prod.mk.inj hrun
      have hu : u.file = some f := hsu f hs
      have hfine : w.liveCount t = none := by
        by_contra hfault
        obtain ⟨e, he⟩ : ∃ e, answered (w.liveCount t) (rows u.db t) = .error e :=
          answered_some hfault
        rw [he] at hok
        cases hok
      rw [answered_none hfine] at hok
      obtain rfl := Except.ok.inj hok
      refine (ih (log ++ [(u, u)]) hu).bind (fun all e h => ?_) (fun all counts _ h => ?_)
      · obtain ⟨lives, rfl, hfile, ⟨⟨t', ht', hfault⟩, herror⟩ | ⟨-, -, hok⟩⟩ := h
        · refine ⟨(u, u) :: lives, by simp, List.forall_mem_cons.mpr ⟨hu, hfile⟩,
            .inl ⟨⟨t', List.mem_cons_of_mem _ ht', hfault⟩, e, rfl⟩⟩
        · cases hok
      · obtain ⟨lives, rfl, hfile, ⟨-, ⟨e, herror⟩⟩ | ⟨hall, hlength, hok⟩⟩ := h
        · cases herror
        · refine ⟨(u, u) :: lives, by simp, List.forall_mem_cons.mpr ⟨hu, hfile⟩,
            .inr ⟨List.forall_mem_cons.mpr ⟨hfine, hall⟩, congrArg (· + 1) hlength, ?_⟩⟩
          rw [Except.ok.inj hok]
          rfl

/-- Two lists of counts are one exactly if they agree on each table. -/
private theorem counts_eq_iff (f : String → Int) (g : World D × World D → String → Int)
    (ts : List String)
    (lives : Log D) (h : lives.length = ts.length) :
    ts.map (fun t => (t, f t)) = List.zipWith (fun t c => (t, g c t)) ts lives ↔
      ∀ (j : Nat) (t : String) (c : World D × World D), ts[j]? = some t → lives[j]? = some c →
        g c t = f t := by
  induction ts generalizing lives with
  | nil => exact iff_of_true rfl fun j t c ht => by cases ht
  | cons t ts ih =>
    cases lives with
    | nil => cases h
    | cons c lives =>
      rw [List.map_cons, List.zipWith_cons_cons, List.cons.injEq,
        ih lives (Nat.succ.inj h), Prod.mk.injEq]
      constructor
      · rintro ⟨⟨-, hfirst⟩, hrest⟩ j t' c' ht hc
        cases j with
        | zero =>
          obtain rfl := Option.some.inj ht
          obtain rfl := Option.some.inj hc
          exact hfirst.symm
        | succ j => exact hrest j t' c' ht hc
      · intro hall
        exact ⟨⟨rfl, (hall 0 t c rfl rfl).symm⟩, fun j t' c' ht hc => hall (j + 1) t' c' ht hc⟩

/-! ## Outcomes -/

/-- The call that ended is verified exactly if it was refused, or nothing failed and no count moved. -/
def Exactly (rows : D → String → Int) (w : Weather D) (log : Log D)
    (r : Except Error SnapshotReport) : Prop :=
  Verified w log r ↔ Refused w log ∨ Steady rows w log

/-- A call that fails without a trace. -/
private theorem exactly_refused {log : Log D} {e : Error} (hrefused : Refused w log)
    (hsame : ∀ c ∈ log, c.2.file = c.1.file)
    (hcalm : ∀ a b rest, log = a :: b :: rest → a.1.file = none → b.1.file = none →
      ¬ Faultless w b.1.db) : Exactly rows w log (.error e) := by
  refine iff_of_true ⟨nofun, fun a b rest hlog ha hb hfine => ?_, fun _ _ => hsame⟩ (.inl hrefused)
  exact absurd hfine (hcalm a b rest hlog ha hb)

/-- The steps up to the copy: nothing was at the target, and the copy went through. -/
structure Copied (w : Weather D) (a b : World D × World D) : Prop where
  free : a.1.file = none
  utf8 : w.utf8 = true
  still : b.1.file = none
  vacuum : w.vacuum = none
  copied : b.2.file = some (.image b.1.db)

theorem Copied.not_refused {a b : World D × World D} (h : Copied w a b) (rest : Log D) :
    ¬ Refused w (a :: b :: rest) := by
  rintro (⟨x, xs, hlog, hfile⟩ | hutf8 | ⟨x, y, xs, hlog, hfile | ⟨e, hvacuum⟩⟩)
  · obtain ⟨rfl, -⟩ := List.cons.inj hlog
    exact hfile h.free
  · rw [h.utf8] at hutf8
    cases hutf8
  · obtain ⟨-, hlog⟩ := List.cons.inj hlog
    obtain ⟨rfl, -⟩ := List.cons.inj hlog
    exact hfile h.still
  · rw [h.vacuum] at hvacuum
    cases hvacuum

/-- A call that fails after the copy leaves it there. -/
theorem Copied.exactly_error {a b : World D × World D} (h : Copied w a b) {rest : Log D} {e : Error}
    (hsteady : ¬ Steady rows w (a :: b :: rest)) : Exactly rows w (a :: b :: rest) (.error e) := by
  refine iff_of_false (fun hverified => ?_) (not_or.mpr ⟨h.not_refused rest, hsteady⟩)
  have hclean := hverified.clean e rfl b (List.mem_cons_of_mem _ List.mem_cons_self)
  rw [h.copied, h.still] at hclean
  cases hclean

theorem Copied.exactly_ok {a b : World D × World D} (h : Copied w a b) {rest : Log D}
    {report : SnapshotReport} (hfile : ∀ c ∈ rest, c.2.file = some (.image b.1.db))
    (hsteady : report.integrity = "ok" ↔ Steady rows w (a :: b :: rest)) :
    Exactly rows w (a :: b :: rest) (.ok report) := by
  unfold Exactly
  rw [or_iff_right (h.not_refused rest), ← hsteady]
  constructor
  · exact fun hverified => (hverified.image report rfl).1
  · intro hok
    refine ⟨fun other hother => ?_, fun _ _ _ _ _ _ _ => ⟨report, rfl⟩,
      fun _ herror => by cases herror⟩
    rw [← Except.ok.inj hother]
    exact ⟨hok, a, b, rest, rfl, List.forall_mem_cons.mpr ⟨h.copied, hfile⟩⟩

/-- A steady call is one whose counts agree. -/
theorem steady_iff {a b c : World D × World D} {lives : Log D} (hfine : Faultless w b.1.db) :
    Steady rows w (a :: b :: c :: lives) ↔ ∀ (j : Nat) (t : String) (s : World D × World D),
      CORE_TABLES[j]? = some t → lives[j]? = some s → rows s.1.db t = rows b.1.db t := by
  constructor
  · rintro ⟨a', b', c', rest, hlog, -, hall⟩
    cases hlog
    exact hall
  · exact fun hall => ⟨a, b, c, lives, rfl, hfine, hall⟩

theorem Steady.faultless {a b : World D × World D} {rest : Log D}
    (h : Steady rows w (a :: b :: rest)) : Faultless w b.1.db := by
  obtain ⟨a', b', c', rest', hlog, hfine, -⟩ := h
  cases hlog
  exact hfine

/-- What a copy does to the target. -/
private theorem vacuumInto_cases (w : Weather D) (s : World D) :
    (s.file ≠ none ∧ vacuumInto w s = (.error (.storage "output file already exists"), s)) ∨
    (∃ e, s.file = none ∧ w.vacuum = some (e, false) ∧ vacuumInto w s = (.error e, s)) ∨
    (∃ e, s.file = none ∧ w.vacuum = some (e, true) ∧
      vacuumInto w s = (.error e, { s with file := some .broken })) ∨
    s.file = none ∧ w.vacuum = none ∧
      vacuumInto w s = (.ok (), { s with file := some (.image s.db) }) := by
  unfold vacuumInto
  cases hfile : s.file with
  | some f => exact .inl ⟨Option.some_ne_none f, rfl⟩
  | none =>
    cases hvacuum : w.vacuum with
    | none => exact .inr (.inr (.inr ⟨rfl, rfl, rfl⟩))
    | some fault =>
      obtain ⟨e, leaves⟩ := fault
      cases leaves with
      | false => exact .inr (.inl ⟨e, rfl, rfl, rfl⟩)
      | true => exact .inr (.inr (.inl ⟨e, rfl, rfl, rfl⟩))

private theorem moves_vacuumInto (w : Weather D) :
    Program.Moves (Client.Within (fun _ => True) Grows) (vacuumInto w) := by
  refine fun s _ => ⟨trivial, fun f hf => ?_⟩
  rcases vacuumInto_cases w s with ⟨-, heq⟩ | ⟨e, -, -, heq⟩ | ⟨e, hnone, -, -⟩ | ⟨hnone, -, -⟩
  · rw [heq]
    exact hf
  · rw [heq]
    exact hf
  · rw [hnone] at hf
    cases hf
  · rw [hnone] at hf
    cases hf

/-- From the copy on. -/
private theorem verify_serves (out : String) {a b : World D × World D} (h : Copied w a b) :
    (do
      let (integrity, snapshotCounts) ← call fun s => (verifyCopy rows w out s.file, s)
      Client.lift (answered w.checkout ())
      let live ← liveCounts rows w CORE_TABLES
      if snapshotCounts ≠ live then
        Client.fail (.storage ("snapshot verification failed: table counts differ (snapshot " ++
          debugCounts snapshotCounts ++ " vs live " ++ debugCounts live ++ ")"))
      else do
        let bytes ← Client.lift w.stat
        return ⟨out, bytes, integrity, snapshotCounts⟩ : Client Error (World D) SnapshotReport).Serves
      (fun _ => True) Grows (Exactly rows w) [a, b] b.2 := by
  refine Client.serves_call_bind (moves_look _) (fun u e v _ hbu hrun => ?_)
    (fun u checked v _ hbu hrun => ?_)
  · obtain ⟨herror, rfl⟩ := Prod.mk.inj hrun
    refine h.exactly_error fun hsteady => ?_
    rw [hbu _ h.copied] at herror
    rcases verifyCopy_cases out b.1.db with ⟨_, _, _, _, hok⟩ | ⟨hfault, -⟩
    · rw [hok] at herror
      cases herror
    · exact hfault hsteady.faultless
  · obtain ⟨hchecked, rfl⟩ := Prod.mk.inj hrun
    have hu : u.file = some (.image b.1.db) := hbu _ h.copied
    rw [hu] at hchecked
    rcases verifyCopy_cases out b.1.db with ⟨integrity, hopen, hintegrity, hcounts, hok⟩ |
      ⟨-, e, herror⟩
    · rw [hok] at hchecked
      obtain rfl := Except.ok.inj hchecked
      by_cases hcheckout : w.checkout = none
      · rw [answered_none hcheckout]
        refine (liveCounts_serves CORE_TABLES _ _ hu).bind (fun all e hsteps => ?_)
          (fun all counts _ hsteps => ?_)
        · obtain ⟨lives, rfl, -, ⟨⟨t, ht, hfault⟩, -⟩ | ⟨-, -, hok⟩⟩ := hsteps
          · exact h.exactly_error fun hsteady => hfault (hsteady.faultless.liveCount t ht)
          · cases hok
        · obtain ⟨lives, rfl, hfile, ⟨-, e, herror⟩ | ⟨hlive, hlength, hok⟩⟩ := hsteps
          · cases herror
          obtain rfl := Except.ok.inj hok
          have hiff := counts_eq_iff (rows b.1.db) (fun c t => rows c.1.db t) CORE_TABLES lives
            hlength
          by_cases hsame : CORE_TABLES.map (fun t => (t, rows b.1.db t)) =
              List.zipWith (fun t c => (t, rows c.1.db t)) CORE_TABLES lives
          · rw [if_neg (not_not.mpr hsame)]
            cases hstat : w.stat with
            | error e =>
              refine h.exactly_error fun hsteady => ?_
              obtain ⟨n, hn⟩ := hsteady.faultless.stat
              rw [hstat] at hn
              cases hn
            | ok bytes =>
              refine h.exactly_ok (List.forall_mem_cons.mpr ⟨hu, hfile⟩)
                ⟨fun hgood => ?_, fun hsteady => ?_⟩
              · refine (steady_iff ⟨h.utf8, h.vacuum, hopen, ?_, hcounts, hcheckout, hlive, bytes,
                  hstat⟩).mpr (hiff.mp hsame)
                rw [hintegrity]
                exact congrArg Except.ok hgood
              · have hgood := hsteady.faultless.integrity
                rw [hintegrity] at hgood
                exact Except.ok.inj hgood
          · rw [if_pos hsame]
            refine h.exactly_error fun hsteady => hsame (hiff.mpr ?_)
            exact (steady_iff hsteady.faultless).mp hsteady
      · obtain ⟨e, he⟩ : ∃ e, answered w.checkout () = .error e := answered_some hcheckout
        rw [he]
        exact h.exactly_error fun hsteady => hcheckout hsteady.faultless.checkout
    · rw [herror] at hchecked
      cases hchecked

private theorem snapshotTo_serves (out : String) (s : World D) :
    (snapshotTo rows w out).Serves (fun _ => True) Grows (Exactly rows w) [] s := by
  refine Client.serves_call_bind (moves_look _) (fun u e v _ _ hrun => ?_)
    (fun u found v _ _ hrun => ?_)
  · obtain ⟨herror, -⟩ := Prod.mk.inj hrun
    cases herror
  · obtain ⟨hfound, rfl⟩ := Prod.mk.inj hrun
    obtain rfl := Except.ok.inj hfound
    have hshort : ∀ x y rest, [(u, u)] ≠ x :: y :: rest := fun x y rest hlog => by cases hlog
    have hsame : ∀ c ∈ [(u, u)], c.2.file = c.1.file := fun c hc => by
      rw [List.mem_singleton.mp hc]
    cases hfile : u.file with
    | some f =>
      refine exactly_refused (.inl ⟨(u, u), [], rfl, ?_⟩) hsame
        fun x y rest hlog => absurd hlog (hshort x y rest)
      rw [hfile]
      exact Option.some_ne_none f
    | none =>
      by_cases hutf8 : w.utf8 = true
      · simp only [hutf8, Option.isSome_none, Bool.false_eq_true, if_false, Bool.not_true]
        refine Client.serves_call_bind (moves_vacuumInto w) (fun t e v _ _ hrun => ?_)
          (fun t _ v _ _ hrun => ?_)
        · rcases vacuumInto_cases w t with ⟨hthere, heq⟩ | ⟨e', hnone, hvacuum, heq⟩ |
            ⟨e', hnone, hvacuum, heq⟩ | ⟨-, -, heq⟩
          · obtain ⟨-, rfl⟩ := Prod.mk.inj (heq.symm.trans hrun)
            refine exactly_refused (.inr (.inr ⟨(u, u), (t, t), [], rfl, .inl hthere⟩)) ?_
              fun x y rest hlog _ hy => ?_
            · exact List.forall_mem_cons.mpr ⟨rfl, List.forall_mem_singleton.mpr rfl⟩
            · cases hlog
              exact absurd hy hthere
          · obtain ⟨-, rfl⟩ := Prod.mk.inj (heq.symm.trans hrun)
            refine exactly_refused (.inr (.inr ⟨(u, u), (t, t), [], rfl, .inr ⟨e', hvacuum⟩⟩)) ?_
              fun x y rest hlog _ _ hfine => ?_
            · exact List.forall_mem_cons.mpr ⟨rfl, List.forall_mem_singleton.mpr rfl⟩
            · rw [hfine.vacuum] at hvacuum
              cases hvacuum
          · -- the copy broke off and left a file
            obtain ⟨-, rfl⟩ := Prod.mk.inj (heq.symm.trans hrun)
            refine iff_of_false (fun hverified => ?_) (not_or.mpr ⟨?_, fun hsteady => ?_⟩)
            · have hclean := hverified.clean e rfl _ (List.mem_cons_of_mem _ List.mem_cons_self)
              rw [hnone] at hclean
              cases hclean
            · rintro (⟨x, xs, hlog, hx⟩ | hbad | ⟨x, y, xs, hlog, hy | ⟨e'', hleaves⟩⟩)
              · cases hlog
                exact hx hfile
              · rw [hutf8] at hbad
                cases hbad
              · cases hlog
                exact hy hnone
              · rw [hvacuum] at hleaves
                cases hleaves
            · have hfine := hsteady.faultless.vacuum
              rw [hvacuum] at hfine
              cases hfine
          · rw [heq] at hrun
            cases hrun
        · rcases vacuumInto_cases w t with ⟨-, heq⟩ | ⟨e', -, -, heq⟩ | ⟨e', -, -, heq⟩ |
            ⟨hnone, hvacuum, heq⟩
          · rw [heq] at hrun
            cases hrun
          · rw [heq] at hrun
            cases hrun
          · rw [heq] at hrun
            cases hrun
          · obtain ⟨-, rfl⟩ := Prod.mk.inj (heq.symm.trans hrun)
            have hcopied : Copied w (u, u) (t, { t with file := some (.image t.db) }) :=
              ⟨hfile, hutf8, hnone, hvacuum, rfl⟩
            exact verify_serves out hcopied
      · simp only [hutf8, Option.isSome_none, Bool.false_eq_true, if_false]
        refine exactly_refused (.inr (.inl (Bool.eq_false_iff.mpr hutf8))) hsame
          fun x y rest hlog => absurd hlog (hshort x y rest)

/-! ## Every interleaving -/

/-- What is asked of the store: a snapshot, or work of any kind that leaves a file at the target as
it is. -/
inductive Request (D : Type) where
  | snapshot (out : String) (w : Weather D)
  | other (client : Client Error (World D) SnapshotReport)
      (keeps : client.Keeps (fun _ => True) Grows)

def clientOf (rows : D → String → Int) : Request D → Client Error (World D) SnapshotReport
  | .snapshot out w => snapshotTo rows w out
  | .other client _ => client

/-- What holds of the steps and the outcome of a request. -/
def Outcome (rows : D → String → Int) : Request D → Log D → Except Error SnapshotReport → Prop
  | .snapshot _ w => Exactly rows w
  | .other _ _ => fun _ _ => True

/-- In every interleaving a snapshot that has ended is verified exactly if it was refused before
anything was written, or nothing failed, the copy was in order, and no write changed the number of rows
of a core table between the copy and its count. -/
theorem snapshot_verified_iff (rows : D → String → Int) (s : World D)
    (events : List (Pool.Event (Request D))) {k : Nat} {out : String} {w : Weather D}
    {r : Except Error SnapshotReport}
    (hk : (Pool.run (clientOf rows) events ⟨s, []⟩).clients[k]? = some (.snapshot out w, .done r)) :
    let log := Pool.stepsOf (clientOf rows) events ⟨s, []⟩ k
    Verified w log r ↔ Refused w log ∨ Steady rows w log := by
  have hclient : ∀ (i : Request D) (s : World D), (clientOf rows i).Serves (fun _ => True) Grows
      (Outcome rows i) [] s := by
    intro i s
    cases i with
    | snapshot out w => exact snapshotTo_serves out s
    | other client keeps => exact keeps.serves fun _ _ => trivial
  exact Pool.serves_run hclient trivial hk

end

/-! ## Two runs -/

/-- A database as the number of its memories and of the edits made to them. -/
def sampleRows (d : Nat × Nat) (table : String) : Int := if table = "memories" then d.1 else 0

def fairWeather : Weather (Nat × Nat) where
  integrity _ := .ok "ok"
  stat := .ok 4096

/-- The check finds something in the copy. -/
def foulWeather : Weather (Nat × Nat) :=
  { fairWeather with integrity := fun _ => .ok "row 1 missing from index idx_memories_status" }

/-- A job of the writer. -/
def job (f : Nat × Nat → Nat × Nat) : Request (Nat × Nat) :=
  .other (call fun s => (.error (.storage "done"), { s with db := f s.db }))
    fun _ => ⟨fun _ => ⟨trivial, fun _ h => h⟩, trivial⟩

/-- A snapshot with a job between its copy and its counts. -/
def interrupted (w : Weather (Nat × Nat)) (f : Nat × Nat → Nat × Nat) :
    List (Pool.Event (Request (Nat × Nat))) :=
  [.start (.snapshot "out.db" w), .start (job f), .advance 0, .advance 0, .advance 1] ++
    List.replicate 18 (.advance 0)

def ended (w : Weather (Nat × Nat)) (f : Nat × Nat → Nat × Nat) :
    Pool (Request (Nat × Nat)) Error (World (Nat × Nat)) SnapshotReport :=
  Pool.run (clientOf sampleRows) (interrupted w f) ⟨⟨(1, 0), none⟩, []⟩

/-- An edit in between does not disturb the snapshot. -/
theorem snapshot_verified_sample : ∃ r,
    (ended fairWeather fun d => (d.1, d.2 + 1)).clients[0]? =
      some (.snapshot "out.db" fairWeather, .done (.ok r)) ∧
    Verified fairWeather (Pool.stepsOf (clientOf sampleRows)
      (interrupted fairWeather fun d => (d.1, d.2 + 1)) ⟨⟨(1, 0), none⟩, []⟩ 0) (.ok r) := by
  have hended : (ended fairWeather fun d => (d.1, d.2 + 1)).clients[0]? =
      some (.snapshot "out.db" fairWeather, .done (.ok ⟨"out.db", 4096, "ok",
        CORE_TABLES.map fun t => (t, sampleRows (1, 0) t)⟩)) := by
    rfl
  refine ⟨_, hended, (snapshot_verified_iff sampleRows _ _ hended).mpr (.inr ?_)⟩
  have hone : ∀ c ∈ Pool.stepsOf (clientOf sampleRows)
      (interrupted fairWeather fun d => (d.1, d.2 + 1)) ⟨⟨(1, 0), none⟩, []⟩ 0, c.1.db.1 = 1 := by
    decide
  refine ⟨_, _, _, _, rfl, ⟨rfl, rfl, rfl, rfl, fun _ _ => rfl, rfl, fun _ _ => rfl, 4096, rfl⟩,
    fun j t c _ hc => ?_⟩
  have hmem := hone c (List.mem_cons_of_mem _ (List.mem_cons_of_mem _
    (List.mem_cons_of_mem _ (List.mem_of_getElem? hc))))
  unfold sampleRows
  rw [hmem]
  rfl

/-- A memory that is saved in between makes the snapshot fail and leaves a file that stands in the
way of the next one, and a copy that is not in order is reported as a success. -/
theorem snapshot_unverified :
    (∃ e f, (ended fairWeather fun d => (d.1 + 1, d.2)).clients[0]? =
        some (.snapshot "out.db" fairWeather, .done (.error e)) ∧
      (ended fairWeather fun d => (d.1 + 1, d.2)).shared.file = some f ∧
      ¬ Verified fairWeather (Pool.stepsOf (clientOf sampleRows)
        (interrupted fairWeather fun d => (d.1 + 1, d.2)) ⟨⟨(1, 0), none⟩, []⟩ 0) (.error e)) ∧
    ∃ report, (ended foulWeather id).clients[0]? =
        some (.snapshot "out.db" foulWeather, .done (.ok report)) ∧ report.integrity ≠ "ok" := by
  refine ⟨⟨_, .image (1, 0), rfl, rfl, fun hverified => ?_⟩, _, rfl, by decide⟩
  have hclean := hverified.clean _ rfl _ (List.mem_cons_of_mem _ List.mem_cons_self)
  cases hclean

end AgosMemory.Snapshot
