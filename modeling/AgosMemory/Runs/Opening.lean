import AgosMemory.Storage.Migrate

/-!
# Opening under interleaving and crashes

Openers of one database file take their steps in any order, and any of them may stop at any point. Behind
the lock the preparation of the database is a sequential program, so what holds of one opener that runs
alone and is cut off anywhere holds of all of them. Where there is no `flock` the lock file is the lock,
and nobody ever removes it.
-/

namespace AgosMemory.Opening

open Library Client Program Exclusive

/-! ## The pid line -/

private theorem trim_digits {digits : List Char} (h : ∀ c ∈ digits, c.isDigit = true) :
    Text.trim (String.ofList digits) = String.ofList digits := by
  have hspaces : ∀ s ∈ Text.spaces, ¬ s.isDigit = true := Text.forall_of_all (by decide)
  have hplain : ∀ l : List Char, (∀ c ∈ l, c.isDigit = true) → l.dropWhile Text.isSpace = l := by
    intro l hl
    cases l with
    | nil => rfl
    | cons c cs =>
      exact List.dropWhile_cons_of_neg fun hspace =>
        hspaces c (List.contains_iff_mem.mp hspace) (hl c List.mem_cons_self)
  unfold Text.trim
  rw [String.toList_ofList, hplain _ h, hplain _ fun c hc => h c (List.mem_reverse.mp hc),
    List.reverse_reverse]

/-- The digits of a pid. -/
def pidDigits (o : Opener) : List Char := Nat.toDigits 10 o.pid.toNat

private theorem pidDigits_digit {o : Opener} : ∀ c ∈ pidDigits o, c.isDigit = true := fun _ hc =>
  Nat.isDigit_of_mem_toDigits (by decide) (by decide) hc

private theorem parseU32_pidDigits (o : Opener) :
    parseU32 (String.ofList (pidDigits o)) = some o.pid := by
  have hsign : (pidDigits o).head? ≠ some '+' := fun hhead =>
    absurd (pidDigits_digit _ (List.mem_of_head? hhead)) (by decide)
  have hempty : (pidDigits o).isEmpty = false :=
    Bool.eq_false_iff.mpr fun h => Nat.toDigits_ne_nil (List.isEmpty_iff.mp h)
  have hvalue : Nat.ofDigitChars 10 (pidDigits o) 0 = o.pid.toNat := Nat.ofDigitChars_ten_toDigits
  unfold parseU32
  dsimp only
  rw [String.toList_ofList, if_neg hsign, hempty, List.all_eq_true.mpr pidDigits_digit, hvalue,
    if_neg (by decide), if_neg (Nat.not_le.mpr o.pid.toNat_lt), UInt32.ofNat_toNat]

private theorem pidOfLine_pidDigits (o : Opener) :
    pidOfLine (String.ofList ("pid ".toList ++ pidDigits o)) = some o.pid := by
  have hlist : (String.ofList ("pid ".toList ++ pidDigits o)).toList = "pid ".toList ++ pidDigits o :=
    String.toList_ofList
  have hdrop : ("pid ".toList ++ pidDigits o).drop 4 = pidDigits o := rfl
  unfold pidOfLine
  rw [hlist, if_pos (List.isPrefixOf_iff_prefix.mpr (List.prefix_append _ _)), hdrop,
    trim_digits pidDigits_digit, parseU32_pidDigits]

/-- One line, with its newline or without. -/
private theorem lines_single {line rest : List Char} (hplain : ∀ c ∈ line, c ≠ '\n' ∧ c ≠ '\r')
    (hne : line ≠ []) (hrest : rest = [] ∨ rest = ['\n']) :
    Diff.lines (String.ofList (line ++ rest)) = [String.ofList line] := by
  have hsplit : ∀ c ∈ line, (c == '\n') = false := fun c hc => beq_false_of_ne (hplain c hc).1
  unfold Diff.lines
  rw [String.toList_ofList]
  rcases hrest with rfl | rfl
  · rw [List.append_nil, List.splitOnP_eq_singleton hsplit]
    simp [hne]
  · have hstrip : Diff.stripCr line = line :=
      if_neg fun hlast => (hplain _ (List.mem_of_getLast? hlast)).2 rfl
    rw [List.splitOnP_append_cons_of_forall_mem hsplit '\n' rfl, List.splitOnP_nil]
    simp [hstrip]

/-- A pid that was written whole is read back. -/
private theorem holderPid_pidDigits (o : Opener) {rest : List Char}
    (hrest : rest = [] ∨ rest = ['\n']) :
    holderPid (some ("pid ".toList ++ pidDigits o ++ rest)) = o.pid := by
  have hplain : ∀ c ∈ "pid ".toList ++ pidDigits o, c ≠ '\n' ∧ c ≠ '\r' := by
    have hlabel : ∀ c ∈ "pid ".toList, c ≠ '\n' ∧ c ≠ '\r' := Text.forall_of_all (by decide)
    intro c hc
    rcases List.mem_append.mp hc with hc | hc
    · exact hlabel c hc
    · have hdigit := pidDigits_digit c hc
      exact ⟨fun h => absurd hdigit (h ▸ by decide), fun h => absurd hdigit (h ▸ by decide)⟩
  unfold holderPid
  rw [Option.bind_some, lines_single hplain (List.cons_ne_nil _ _) hrest, List.findSome?_cons,
    pidOfLine_pidDigits]
  rfl

private theorem holderPid_label : holderPid (some "pid ".toList) = 0 := by decide +kernel

/-- What a reader takes for the pid, after each number of writes. -/
private theorem holderPid_written (o : Opener) (n : Nat) :
    holderPid (some (o.pidLine.take n).flatten) = 0 ∨
      holderPid (some (o.pidLine.take n).flatten) = o.pid := by
  match n with
  | 0 => exact .inl rfl
  | 1 => exact .inl holderPid_label
  | 2 => exact .inr (holderPid_pidDigits o (.inl rfl))
  | n + 3 =>
    have hall : o.pidLine.take (n + 3) = o.pidLine :=
      List.take_of_length_le (Nat.le_add_left 3 n)
    rw [hall]
    exact .inr (holderPid_pidDigits o (.inr rfl))

/-! ## Taking the lock -/

/-- What a client that does not have the lock leaves of the files: at most it creates the lock file. -/
def Untouched (w w' : World) : Prop :=
  w'.db = w.db ∧ (w'.sidecar = w.sidecar ∨ w.sidecar = none ∧ w'.sidecar = some [])

instance : Std.Refl Untouched := ⟨fun _ => ⟨rfl, .inl rfl⟩⟩

instance : IsTrans World Untouched where
  trans a b c hab hbc := by
    obtain ⟨hdb, hside⟩ := hab
    obtain ⟨hdb', hside'⟩ := hbc
    refine ⟨hdb'.trans hdb, ?_⟩
    rcases hside with hside | ⟨hnone, hsome⟩
    · rw [← hside]
      exact hside'
    · rcases hside' with hside' | ⟨hnone', -⟩
      · exact .inr ⟨hnone, hside'.trans hsome⟩
      · rw [hsome] at hnone'
        cases hnone'

theorem Untouched.sidecar_eq {w w' : World} (h : Untouched w w') {text : List Char}
    (hsome : w.sidecar = some text) : w'.sidecar = some text := by
  rcases h.2 with hside | ⟨hnone, -⟩
  · exact hside.trans hsome
  · rw [hsome] at hnone
    cases hnone

/-- No pid, the one the file named before, or that of an opener that has taken the lock. -/
def Names (old : UInt32) (l : Locked Opener World) (pid : UInt32) : Prop :=
  pid = 0 ∨ pid = old ∨ ∃ o ∈ l.taken, o.pid = pid

theorem Names.mono {old pid : UInt32} {l l' : Locked Opener World} (h : Names old l pid)
    (htaken : ∃ t, l'.taken = l.taken ++ t) : Names old l' pid := by
  obtain ⟨t, ht⟩ := htaken
  rcases h with h | h | ⟨o, ho, hpid⟩
  · exact .inl h
  · exact .inr (.inl h)
  · exact .inr (.inr ⟨o, ht ▸ List.mem_append_left _ ho, hpid⟩)

/-- The invariant: `J` of the database, and whom the lock file names. -/
structure Named (J : Db → Prop) (old : UInt32) (l : Locked Opener World) : Prop where
  db : J l.shared.db
  names : Names old l (holderPid l.shared.sidecar)

/-- A step of the files is a step of the database. -/
def OnDb (D : Db → Db → Prop) (w w' : World) : Prop := D w.db w'.db

/-- How an opener ends: refused by the lock, or with the lock and a result for which `P` holds. -/
def Ends (P : Opener → Except Error Unit → Db → Prop) (old : UInt32) (k : Nat) (o : Opener)
    (r : Except Error Unit) (l : Locked Opener World) : Prop :=
  (∃ pid, r = .error (.dbLocked o.path pid) ∧ Names old l pid) ∨
    (l.holder = some k ∧ P o r l.shared.db)

section

variable {J : Db → Prop} {D : Db → Db → Prop} {P : Opener → Except Error Unit → Db → Prop}
  {old : UInt32} {k : Nat} {o : Opener} {l t : Locked Opener World}

/-- One step of opener `k` on the files. -/
abbrev Opens (J : Db → Prop) (D : Db → Db → Prop) (old : UInt32) (k : Nat)
    (Q : Except Error Unit → Locked Opener World → Prop) (c : Client Error (Locked Opener World) Unit)
    (l : Locked Opener World) : Prop :=
  c.Secure (Named J old) (Kept Untouched k) (Hall.Guarantee Untouched (OnDb D) k) Q l

/-- The end of `acquire_flock`. -/
def Acquired (old : UInt32) (k : Nat) (o : Opener) (r : Except Error Unit)
    (l : Locked Opener World) : Prop :=
  (∃ pid, r = .error (.dbLocked o.path pid) ∧ Names old l pid) ∨ (r = .ok () ∧ l.holder = some k)

/-- What the holder may do to the lock file. -/
private theorem guarantee_sidecar (hrefl : ∀ db, D db db) (hk : t.holder = some k)
    (text : List Char) :
    Hall.Guarantee Untouched (OnDb D) k t
      { t with shared := { t.shared with sidecar := some text } } :=
  ⟨⟨⟨[], (List.append_nil _).symm⟩, fun _ _ => Iff.rfl, fun hno => absurd hk hno⟩, hrefl _⟩

/-- Writing the rest of the pid line. -/
private theorem opens_writes (hrefl : ∀ db, D db db) {before after : List (List Char)}
    (hline : before ++ after <+: o.pidLine) (hk : l.holder = some k) (ho : o ∈ l.taken)
    (hside : l.shared.sidecar = some before.flatten) :
    Opens J D old k (Acquired old k o)
      (forEach after fun piece => call (shared (writePiece piece))) l := by
  induction after generalizing before l with
  | nil => exact .inr ⟨rfl, hk⟩
  | cons piece after ih =>
    refine secure_call_bind fun t ht hkept => ?_
    have hheld := hkept.holder.mpr hk
    have htext := (hkept.shared hk).sidecar_eq hside
    have hmem : o ∈ t.taken := by
      obtain ⟨more, hmore⟩ := hkept.taken
      exact hmore ▸ List.mem_append_left _ ho
    have hnext : t.shared.sidecar.getD [] ++ piece = (before ++ [piece]).flatten := by
      rw [htext, List.flatten_append, List.flatten_singleton]
      rfl
    have hprefix : before ++ [piece] ++ after <+: o.pidLine := by
      rwa [List.append_assoc, List.singleton_append]
    have htake : before ++ [piece] = o.pidLine.take (before ++ [piece]).length :=
      List.prefix_iff_eq_take.mp ((List.prefix_append _ _).trans hprefix)
    refine ⟨(), _, rfl, ⟨⟨ht.db, ?_⟩, guarantee_sidecar hrefl hheld _⟩,
      ih hprefix hheld hmem (congrArg some hnext)⟩
    show Names old t (holderPid (some (t.shared.sidecar.getD [] ++ piece)))
    rw [hnext, htake]
    exact (holderPid_written o _).imp id fun h => .inr ⟨o, hmem, h.symm⟩

private theorem opens_acquire (hrefl : ∀ db, D db db) (hk : l.holder ≠ some k) :
    Opens J D old k (Acquired old k o) (acquireFlock k o) l := by
  unfold acquireFlock
  refine secure_call_bind fun t ht hkept => ⟨(), _, rfl, ⟨⟨ht.db, ?_⟩, ?_⟩, ?_⟩
  · -- an empty file names nobody, like a missing one
    show Names old t (holderPid (some (t.shared.sidecar.getD [])))
    cases hside : t.shared.sidecar with
    | none => exact .inl rfl
    | some text => exact hside ▸ ht.names
  · refine ⟨⟨⟨[], (List.append_nil _).symm⟩, fun _ _ => Iff.rfl, fun _ => ⟨rfl, ?_⟩⟩, hrefl _⟩
    show some (t.shared.sidecar.getD []) = t.shared.sidecar ∨ _
    cases hside : t.shared.sidecar with
    | none =>
      refine .inr ⟨rfl, ?_⟩
      show some (t.shared.sidecar.getD []) = some []
      rw [hside]
      rfl
    | some text => exact .inl rfl
  · have hfree : t.holder ≠ some k := fun h => hk (hkept.holder.mp h)
    refine secure_call_bind fun u hu hkept => ?_
    have hfree' : u.holder ≠ some k := fun h => hfree (hkept.holder.mp h)
    cases hholder : u.holder with
    | some j =>
      have hrun : (tryLock k o : Program Error (Locked Opener World) Bool) u = (.ok false, u) := by
        unfold tryLock
        rw [hholder]
      refine ⟨false, u, hrun, ⟨hu, ⟨⟨[], (List.append_nil _).symm⟩, fun _ _ => Iff.rfl,
        fun _ => Std.Refl.refl _⟩, hrefl _⟩, ?_⟩
      exact secure_call_bind fun v hv _ => ⟨holderPid v.shared.sidecar, v, rfl,
        ⟨hv, ⟨⟨[], (List.append_nil _).symm⟩, fun _ _ => Iff.rfl, fun _ => Std.Refl.refl _⟩, hrefl _⟩,
        .inl ⟨_, rfl, hv.names⟩⟩
    | none =>
      have hrun : (tryLock k o : Program Error (Locked Opener World) Bool) u =
          (.ok true, { u with holder := some k, taken := u.taken ++ [o] }) := by
        unfold tryLock
        rw [hholder]
      refine ⟨true, _, hrun, ⟨⟨hu.db, hu.names.mono ⟨[o], rfl⟩⟩, ⟨⟨[o], rfl⟩, fun j hj => ?_,
        fun _ => Std.Refl.refl _⟩, hrefl _⟩, ?_⟩
      · rw [hholder]
        exact ⟨fun h => absurd (Option.some.inj h).symm hj, fun h => (by cases h)⟩
      · refine secure_call_bind fun v hv hkept => ?_
        have hheld : v.holder = some k := hkept.holder.mpr rfl
        have hmem : o ∈ v.taken := by
          obtain ⟨more, hmore⟩ := hkept.taken
          exact hmore ▸ List.mem_append_left _ (List.mem_append_right _ List.mem_cons_self)
        have hnone : [] ++ o.pidLine.take o.written <+: o.pidLine := List.take_prefix _ _
        exact ⟨(), _, rfl, ⟨⟨hv.db, .inl rfl⟩, guarantee_sidecar hrefl hheld _⟩,
          opens_writes hrefl hnone hheld hmem rfl⟩

private theorem opens_prepare (hrefl : ∀ db, D db db)
    (hprepare : ∀ o db, (prepare o).Secure J Eq D (P o) db)
    (hk : l.holder ≠ some k) : Opens J D old k (Ends P old k o) (openStore k o) l := by
  refine Secure.bind (opens_acquire hrefl hk) ?_ ?_
  · rintro e l (hbusy | ⟨hok, -⟩)
    · exact .inl hbusy
    · cases hok
  · rintro ⟨⟩ l (⟨_, hbusy, -⟩ | ⟨-, hheld⟩)
    · cases hbusy
    · exact @Hall.secure_zoom Opener Error World Unit Db World.db (fun w db => { w with db })
        (Named J old) J Untouched (OnDb D) D (P o) (Ends P old k o) k (fun _ _ => rfl)
        (fun _ _ h => h.1) (fun _ h => h.db) (fun _ _ h hd => ⟨hd, h.names⟩) (fun _ _ h => h) _ _
        (fun _ _ hk _ hP => .inr ⟨hk, hP⟩) hheld (hprepare o _)

/-- What an opener that runs alone on the database does, all of them do behind the lock. -/
private theorem rules_openStore (hrefl : ∀ db, D db db)
    (hprepare : ∀ o db, (prepare o).Secure J Eq D (P o) db) :
    Hall.Rules openStore (Named J old) Untouched (OnDb D) (Ends P old) where
  refl w := hrefl w.db
  released k l h := by
    have hnames : Names old (release k l) (holderPid l.shared.sidecar) :=
      h.names.mono ⟨[], by rw [release_taken, List.append_nil]⟩
    constructor
    · rw [release_shared]
      exact h.db
    · rwa [release_shared]
  stable k o r l t hkept := by
    rintro (⟨pid, hr, hnames⟩ | ⟨hheld, hP⟩)
    · exact .inl ⟨pid, hr, hnames.mono hkept.taken⟩
    · refine .inr ⟨hkept.holder.mpr hheld, ?_⟩
      rw [(hkept.shared hheld).1]
      exact hP
  secure k o l hk := opens_prepare hrefl hprepare hk

end

/-! ## Runs of openers -/

/-- The files as they are, with the lock free and nobody there. -/
def idle (w : World) : Hall Opener Error World Unit := ⟨⟨w, none, []⟩, []⟩

/-- Opener `k` has returned a store that is still open. -/
def IsOpen (h : Hall Opener Error World Unit) (k : Nat) (o : Opener) : Prop :=
  h.At k o (.done (.ok ()))

/-- The versions that the file takes on, state by state. -/
def newVersions : List World → List Int
  | w :: w' :: ws =>
    if w'.db.userVersion = w.db.userVersion then newVersions (w' :: ws)
    else w'.db.userVersion :: newVersions (w' :: ws)
  | [] | [_] => []

/-- What openers do to a database over any number of steps. -/
structure Grows (db db' : Db) : Prop where
  version : db.userVersion ≤ db'.userVersion
  catalog : ∀ o ∈ db.catalog, o ∈ db'.catalog
  vecDim : ∀ d, db.vecDim = some d → db'.vecDim = some d
  embedDim : ∀ d, db.embedDim = some d → db'.embedDim = some d
  agents : db.agents <+: db'.agents

theorem Moves.grows {a b c : Db} (h : Moves a b) (h' : Grows b c) : Grows a c where
  version := by
    have hversion := h'.version
    rcases h.version with heq | heq <;> omega
  catalog o ho := h'.catalog o (h.catalog o ho)
  vecDim d hd := h'.vecDim d (h.vecDim d hd)
  embedDim d hd := h'.embedDim d (h.embedDim d hd)
  agents := h.agents.trans h'.agents

/-- Along a chain of steps the version goes up by one at a time. -/
private theorem grows_of_chain {w w' : World} {ws : List World}
    (hchain : List.IsChain (OnDb Moves) (w :: ws))
    (hlast : (w :: ws).getLast? = some w') : Grows w.db w'.db ∧
      newVersions (w :: ws) = (List.range (w'.db.userVersion - w.db.userVersion).toNat).map fun (i : Nat) =>
        w.db.userVersion + 1 + (i : Int) := by
  induction ws generalizing w with
  | nil =>
    obtain rfl : w = w' := Option.some.inj hlast
    refine ⟨⟨le_refl _, fun _ h => h, fun _ h => h, fun _ h => h, List.prefix_rfl⟩, ?_⟩
    rw [Int.sub_self]
    rfl
  | cons v ws ih =>
    rw [List.isChain_cons_cons] at hchain
    rw [List.getLast?_cons_cons] at hlast
    obtain ⟨hgrows, hversions⟩ := ih hchain.2 hlast
    refine ⟨hchain.1.grows hgrows, ?_⟩
    unfold newVersions
    rcases hchain.1.version with heq | heq
    · rw [if_pos heq, hversions, heq]
    · have hle := hgrows.version
      have hcount : (w'.db.userVersion - w.db.userVersion).toNat =
          (w'.db.userVersion - v.db.userVersion).toNat + 1 := by omega
      rw [if_neg (by omega), hversions, hcount, List.range_succ_eq_map, List.map_cons, List.map_map, heq]
      refine congrArg₂ List.cons (by simp) (List.map_congr_left fun i _ => ?_)
      show w.db.userVersion + 1 + 1 + (i : Int) = w.db.userVersion + 1 + ((i + 1 : Nat) : Int)
      omega

/-- What holds in every state of a run of openers. -/
structure Orderly (w : World) (states : List World) (h : Hall Opener Error World Unit) : Prop where
  written : Written h.locked.shared.db
  grows : Grows w.db h.locked.shared.db
  /-- Each migration is committed once, in order, and none is skipped. -/
  migrated : newVersions (w :: states) =
    (List.range (h.locked.shared.db.userVersion - w.db.userVersion).toNat).map fun (i : Nat) =>
      w.db.userVersion + 1 + (i : Int)
  /-- There is one open store at most, on a complete database. -/
  single : ∀ j k o o', IsOpen h j o → IsOpen h k o' → j = k
  ready : ∀ k o, IsOpen h k o → Ready o h.locked.shared.db
  /-- The lock is the only thing that an opener can fail on by itself. -/
  refused : ∀ k o e, h.At k o (.done (.error e)) → ∃ pid, e = .dbLocked o.path pid

section

variable {w : World} (events : List (Hall.Event Opener))

private theorem sound_openers {J : Db → Prop} {D : Db → Db → Prop}
    {P : Opener → Except Error Unit → Db → Prop} (hrefl : ∀ db, D db db)
    (hprepare : ∀ o db, (prepare o).Secure J Eq D (P o) db) (hw : J w.db) :
    ((idle w).run openStore events).Sound (Named J (holderPid w.sidecar)) Untouched (OnDb D)
        (Ends P (holderPid w.sidecar)) ∧
      List.IsChain (OnDb D) (w :: (idle w).trace openStore events) :=
  (Hall.sound_empty (⟨hw, .inr (.inl rfl)⟩ : Named J _ (idle w).locked) rfl).run
    (rules_openStore hrefl hprepare) events

/-- The end of an opener, in every run. -/
private theorem ends_openers {J : Db → Prop} {D : Db → Db → Prop}
    {P : Opener → Except Error Unit → Db → Prop} (hrefl : ∀ db, D db db)
    (hprepare : ∀ o db, (prepare o).Secure J Eq D (P o) db) (hw : J w.db) {k : Nat} {o : Opener}
    {r : Except Error Unit} (hat : ((idle w).run openStore events).At k o (.done r)) :
    Ends P (holderPid w.sidecar) k o r ((idle w).run openStore events).locked :=
  (sound_openers events hrefl hprepare hw).1.clients k o _ hat

/-- Openers of a database that openers have left, in any number and any order of their steps, each of
them cut off anywhere or not: the migrations are committed once and in order, whoever commits them, and a
store is open on a complete database only, by itself. -/
theorem openers_orderly (hw : Written w.db) :
    Orderly w ((idle w).trace openStore events) ((idle w).run openStore events) := by
  have hprepare : ∀ o db, (prepare o).Secure Written Eq Moves (Done fun _ => Ready o) db :=
    fun _ _ => runs_prepare
  obtain ⟨hsound, hchain⟩ := sound_openers events Moves.refl hprepare hw
  have hopen : ∀ k o, IsOpen ((idle w).run openStore events) k o →
      ((idle w).run openStore events).locked.holder = some k ∧
        Ready o ((idle w).run openStore events).locked.shared.db := by
    intro k o hat
    rcases ends_openers events Moves.refl hprepare hw hat with ⟨_, hr, _⟩ | ⟨hheld, _, _, hready⟩
    · cases hr
    · exact ⟨hheld, hready⟩
  obtain ⟨hgrows, hversions⟩ := grows_of_chain hchain (Hall.trace_getLast? openStore events (idle w))
  refine ⟨hsound.locked.db, hgrows, hversions, fun j k o o' hj hk => ?_, fun k o hk => (hopen k o hk).2,
    fun k o e hat => ?_⟩
  · exact Option.some.inj ((hopen j o hj).1.symm.trans (hopen k o' hk).1)
  · rcases ends_openers events Moves.refl hprepare hw hat with ⟨pid, hr, _⟩ | ⟨_, _, hr, _⟩
    · exact ⟨pid, Except.error.inj hr⟩
    · cases hr

private theorem written_empty : Written {} where
  nonneg := le_refl _
  supported := by decide
  schema := ⟨fun _ h => (by cases h), fun _ h => (by cases h)⟩
  unpinned _ := rfl
  pinned _ h := by cases h

/-- An opener and, after it was killed in its third migration, another one. -/
def sampleEvents : List (Hall.Event Opener) :=
  .start ⟨"m.db", "default", 12, 1, 0, 3⟩ :: .start ⟨"m.db", "default", 345, 2, 0, 2⟩ ::
    List.replicate 12 (.advance 0) ++ .stop 0 :: List.replicate 40 (.advance 1)

theorem openers_orderly_sample : Orderly ⟨{}, none⟩ ((idle ⟨{}, none⟩).trace openStore sampleEvents)
    ((idle ⟨{}, none⟩).run openStore sampleEvents) ∧
      newVersions (⟨{}, none⟩ :: (idle ⟨{}, none⟩).trace openStore sampleEvents) = [1, 2, 3, 4, 5] :=
  ⟨openers_orderly sampleEvents written_empty, by decide +kernel⟩

/-- The writes of the pid line change the lock file only. -/
private theorem writes_alone (pieces : List (List Char)) (l : Locked Opener World) :
    ∃ l', (forEach pieces fun piece => call (shared (writePiece piece)) :
        Client Error (Locked Opener World) Unit).alone l = (.ok (), l') ∧
      l'.shared.db = l.shared.db ∧ l'.holder = l.holder := by
  induction pieces generalizing l with
  | nil => exact ⟨l, rfl, rfl, rfl⟩
  | cons piece pieces ih =>
    rw [Client.forEach, alone_bind, alone_call]
    obtain ⟨l', hrun, hdb, hholder⟩ := ih (shared (writePiece piece) l).2
    exact ⟨l', hrun, hdb, hholder⟩

private theorem acquire_alone {l : Locked Opener World} (hfree : l.holder = none) (k : Nat)
    (o : Opener) :
    ∃ l', (acquireFlock k o).alone l = (.ok (), l') ∧ l'.shared.db = l.shared.db := by
  let opened : Locked Opener World :=
    { l with shared := { l.shared with sidecar := some (l.shared.sidecar.getD []) } }
  let locked : Locked Opener World := { opened with holder := some k, taken := l.taken ++ [o] }
  obtain ⟨l', hrun, hdb, -⟩ := writes_alone (o.pidLine.take o.written)
    { locked with shared := { locked.shared with sidecar := some [] } }
  have hopened : shared openLockFile l = (.ok (), opened) := rfl
  have hlock : (tryLock k o : Program Error (Locked Opener World) Bool) opened = (.ok true, locked) := by
    have hopen : opened.holder = none := hfree
    unfold tryLock
    rw [hopen]
  refine ⟨l', ?_, hdb⟩
  unfold acquireFlock
  rw [alone_bind, alone_call, bind_of_ok _ hopened, alone_bind, alone_call, bind_of_ok _ hlock]
  exact hrun

private theorem onDb_alone {α : Type} (c : Client Error Db α) (l : Locked Opener World) :
    (onDb c).alone l = ((c.alone l.shared.db).1,
      { l with shared := { l.shared with db := (c.alone l.shared.db).2 } }) := by
  unfold onDb
  apply alone_zoom
  · exact fun _ _ => rfl
  · exact fun _ _ _ => rfl
  · exact fun _ => rfl

/-- However openers were cut off, and whatever they left, the next one that finds the lock free and
comes to its end opens the store. -/
theorem opening_recovers (hw : Written w.db)
    (hfree : ((idle w).run openStore events).locked.holder = none) (o : Opener) :
    ∃ n, IsOpen ((idle w).run openStore (events ++ .start o ::
      List.replicate n (.advance ((idle w).run openStore events).clients.length)))
        ((idle w).run openStore events).clients.length o := by
  have hprepare : ∀ o db, (prepare o).Secure Written Eq Moves (Done fun _ => Ready o) db :=
    fun _ _ => runs_prepare
  have hwritten := (sound_openers events Moves.refl hprepare hw).1.locked.db
  generalize hh : (idle w).run openStore events = h at hfree hwritten
  have hat : (h.step openStore (.start o)).At h.clients.length o (openStore h.clients.length o) :=
    Hall.at_append_iff.mpr (.inr ⟨rfl, rfl, rfl⟩)
  obtain ⟨n, hdone, -⟩ := Hall.run_alone openStore hat
  refine ⟨n, ?_⟩
  rw [Hall.run_append, hh]
  obtain ⟨l', hacquire, hdb⟩ := acquire_alone hfree h.clients.length o
  have hprepared : Done (fun _ => Ready o) ((prepare o).alone l'.shared.db).1
      ((prepare o).alone l'.shared.db).2 := runs_prepare.alone (hdb ▸ hwritten)
  obtain ⟨_, hok, -⟩ := hprepared
  have hopen : ((openStore h.clients.length o).alone h.locked).1 = .ok () := by
    unfold openStore
    rw [alone_bind, bind_of_ok _ hacquire, onDb_alone]
    exact hok
  show (h.run openStore (.start o :: List.replicate n (.advance h.clients.length))).At _ _ _
  rw [← hopen]
  exact hdone

/-- The first opener was killed in its migrations. -/
theorem opening_recovers_sample :
    let events : List (Hall.Event Opener) :=
      .start ⟨"m.db", "default", 12, 1, 0, 3⟩ :: List.replicate 12 (.advance 0) ++ [.stop 0]
    let h := (idle ⟨{}, none⟩).run openStore events
    h.locked.shared.db.userVersion = 2 ∧ ∃ n, IsOpen ((idle ⟨{}, none⟩).run openStore
      (events ++ .start ⟨"m.db", "default", 6, 3, 0, 1⟩ ::
        List.replicate n (.advance h.clients.length))) h.clients.length ⟨"m.db", "default", 6, 3, 0, 1⟩ :=
  ⟨by decide +kernel, opening_recovers _ written_empty (by decide +kernel) _⟩

/-- Whatever the database, an opener that has ended has the lock, or was refused with a pid: none, the one
that the lock file named to begin with, or that of an opener that has taken the lock in this run. -/
theorem refused_names (k : Nat) (o : Opener) (r : Except Error Unit)
    (hat : ((idle w).run openStore events).At k o (.done r)) :
    ((idle w).run openStore events).locked.holder = some k ∨ ∃ pid, r = .error (.dbLocked o.path pid) ∧
      Names (holderPid w.sidecar) ((idle w).run openStore events).locked pid := by
  have hprepare : ∀ o db, (prepare o).Secure (fun _ => True) Eq (fun _ _ => True) (fun _ _ => True) db :=
    fun o _ => secure_trivial (prepare o)
  rcases ends_openers events (fun _ => trivial) hprepare trivial hat with hrefused | ⟨hheld, -⟩
  · exact .inr hrefused
  · exact .inl hheld

/-- The lock file of an opener that is long gone. -/
def staleFile : World := ⟨{}, some ['7', '\n']⟩

/-- The second opener comes while the first one is writing its pid. -/
def refusedEvents : List (Hall.Event Opener) :=
  .start ⟨"m.db", "default", 12, 1, 0, 3⟩ :: List.replicate 5 (.advance 0) ++
    .start ⟨"m.db", "default", 345, 2, 0, 3⟩ :: List.replicate 3 (.advance 1)

theorem refused_names_sample :
    ((idle staleFile).run openStore refusedEvents).locked.holder = some 1 ∨
      ∃ pid, (.error (.dbLocked "m.db" 12) : Except Error Unit) = .error (.dbLocked "m.db" pid) ∧
        Names (holderPid staleFile.sidecar) ((idle staleFile).run openStore refusedEvents).locked pid :=
  refused_names refusedEvents 1 ⟨"m.db", "default", 345, 2, 0, 3⟩ (.error (.dbLocked "m.db" 12)) rfl

/-- The database but for its journal mode. -/
def SameData (db db' : Db) : Prop := { db' with wal := db.wal } = db

/-- A database of a newer version stays as it is, but for its journal mode, and no store is ever open
on it. -/
theorem newer_untouched (hnewer : SCHEMA_VERSION < w.db.userVersion) :
    SameData w.db ((idle w).run openStore events).locked.shared.db ∧
      ∀ k o r, ((idle w).run openStore events).At k o (.done r) →
        r = .error (.schemaTooNew w.db.userVersion SCHEMA_VERSION) ∨
          ∃ pid, r = .error (.dbLocked o.path pid) := by
  have hmigrate : ∀ db, migrate.Secure (SameData w.db) Eq (fun _ _ => True)
      (fun r _ => r = .error (.schemaTooNew w.db.userVersion SCHEMA_VERSION)) db := by
    intro db
    have hcheck : (call checkSchemaSupported).Secure (SameData w.db) Eq (fun _ _ => True)
        (fun r _ => r = .error (.schemaTooNew w.db.userVersion SCHEMA_VERSION)) db := by
      refine secure_call fun t ht _ => ?_
      have hversion : ({ t with wal := w.db.wal } : Db).userVersion = w.db.userVersion :=
        congrArg Db.userVersion ht
      dsimp only at hversion
      unfold checkSchemaSupported
      rw [hversion, if_pos hnewer]
      exact ⟨⟨ht, trivial⟩, rfl⟩
    exact hcheck.bind (fun e _ he => congrArg _ (Except.error.inj he)) fun _ _ hok => (by cases hok)
  have hprepare : ∀ o db, (prepare o).Secure (SameData w.db) Eq (fun _ _ => True)
      (fun r _ => r = .error (.schemaTooNew w.db.userVersion SCHEMA_VERSION)) db := fun o db =>
    secure_call_bind fun t ht _ => ⟨(), _, rfl, ⟨ht, trivial⟩, (hmigrate _).bind
      (fun e _ he => congrArg _ (Except.error.inj he)) fun _ _ hok => (by cases hok)⟩
  have hsame : SameData w.db w.db := rfl
  refine ⟨(sound_openers events (fun _ => trivial) hprepare hsame).1.locked.db, fun k o r hat => ?_⟩
  rcases ends_openers events (fun _ => trivial) hprepare hsame hat with ⟨pid, hr, -⟩ | ⟨-, hr⟩
  · exact .inr ⟨pid, hr⟩
  · exact .inl hr

end

/-- A database of version 12, two openers at once, and a third after the first is cut off. -/
theorem newer_untouched_sample :
    let w : World := ⟨{ userVersion := 12, embedDim := some 768 }, none⟩
    let events : List (Hall.Event Opener) :=
      .start ⟨"m.db", "default", 12, 1, 0, 3⟩ :: .start ⟨"m.db", "default", 13, 2, 0, 3⟩ ::
        List.replicate 4 (.advance 0) ++ List.replicate 4 (.advance 1) ++ .stop 0 ::
          .start ⟨"m.db", "default", 14, 3, 0, 3⟩ :: List.replicate 10 (.advance 2)
    SameData w.db ((idle w).run openStore events).locked.shared.db ∧
      ∀ k o r, ((idle w).run openStore events).At k o (.done r) →
        r = .error (.schemaTooNew 12 SCHEMA_VERSION) ∨ ∃ pid, r = .error (.dbLocked o.path pid) :=
  newer_untouched _ (by decide)

/-! ## Where there is no `flock` -/

private theorem digitChar_of_mem {b n : Nat} {c : Char} (h : c ∈ Nat.toDigits b n) :
    ∃ m : Nat, c = m.digitChar := by
  have hcore : ∀ (fuel n : Nat) (cs : List Char), (∀ d ∈ cs, ∃ m : Nat, d = m.digitChar) →
      ∀ d ∈ Nat.toDigitsCore b fuel n cs, ∃ m : Nat, d = m.digitChar := by
    intro fuel
    induction fuel with
    | zero => exact fun n cs hcs => hcs
    | succ fuel ih =>
      intro n cs hcs
      have hcons : ∀ d ∈ (n % b).digitChar :: cs, ∃ m : Nat, d = m.digitChar := by
        intro d hd
        rcases List.mem_cons.mp hd with rfl | hd
        · exact ⟨_, rfl⟩
        · exact hcs d hd
      rw [Nat.toDigitsCore]
      split
      · exact hcons
      · exact ih _ _ hcons
  exact hcore _ _ _ (fun d hd => (by cases hd)) c h

/-- The token names nobody. -/
private theorem holderPid_token (o : Opener) : holderPid (some (o.token ++ ['\n'])) = 0 := by
  have hdigit : ∀ c ∈ o.token, ∃ m : Nat, c = m.digitChar := fun _ hc => digitChar_of_mem hc
  have hplain : ∀ c ∈ o.token, c ≠ '\n' ∧ c ≠ '\r' := by
    intro c hc
    obtain ⟨m, rfl⟩ := hdigit c hc
    exact ⟨Nat.digitChar_ne _ (by decide), Nat.digitChar_ne _ (by decide)⟩
  have hlabel : pidOfLine (String.ofList o.token) = none := by
    have hlist : (String.ofList o.token).toList = o.token := String.toList_ofList
    refine if_neg fun hprefix => ?_
    rw [hlist] at hprefix
    have hfirst : 'p' ∈ o.token :=
      (List.isPrefixOf_iff_prefix.mp hprefix).subset List.mem_cons_self
    obtain ⟨m, hm⟩ := hdigit _ hfirst
    exact Nat.digitChar_ne 'p' (by decide) hm.symm
  unfold holderPid
  rw [Option.bind_some, lines_single hplain Nat.toDigits_ne_nil (.inr rfl), List.findSome?_cons, hlabel]
  rfl

/-- The invariant of the other platforms: nobody has got in and the lock file is as it was, or one opener
has created it. -/
structure Once (w : World) (l : Locked Opener World) : Prop where
  names : holderPid l.shared.sidecar = holderPid w.sidecar
  entered : (l.taken = [] ∧ l.holder = none ∧ l.shared.sidecar = w.sidecar) ∨
    (w.sidecar = none ∧ l.shared.sidecar.isSome = true ∧ ∃ o, l.taken = [o])

/-- An opener has got in, or was refused. -/
def Admitted (w : World) (o : Opener) (r : Except Error Unit) (l : Locked Opener World) : Prop :=
  o ∈ l.taken ∨ r = .error (.dbLocked o.path (holderPid w.sidecar))

section

variable {w : World} {k : Nat} {o : Opener} {l : Locked Opener World}

private theorem once_oExcl :
    (openStoreOExcl k o).Secure (Once w) (Kept Untouched k)
      (Hall.Guarantee Untouched (fun _ _ => True) k) (Admitted w o) l := by
  have hacquire : (acquireOExcl k o).Secure (Once w) (Kept Untouched k)
      (Hall.Guarantee Untouched (fun _ _ => True) k)
      (fun r l => (r = .ok () ∧ l.holder = some k ∧ o ∈ l.taken) ∨
        r = .error (.dbLocked o.path (holderPid w.sidecar))) l := by
    unfold acquireOExcl
    refine secure_call_bind fun t ht hkept => ?_
    cases hside : t.shared.sidecar with
    | some text =>
      have hrun : createLockFile k o t = (.ok false, t) := by
        unfold createLockFile
        rw [hside]
      refine ⟨false, t, hrun, ⟨ht, ⟨⟨[], (List.append_nil _).symm⟩, fun _ _ => Iff.rfl,
        fun _ => Std.Refl.refl _⟩, trivial⟩, ?_⟩
      exact secure_call_bind fun u hu _ => ⟨holderPid u.shared.sidecar, u, rfl,
        ⟨hu, ⟨⟨[], (List.append_nil _).symm⟩, fun _ _ => Iff.rfl, fun _ => Std.Refl.refl _⟩, trivial⟩,
        .inr (hu.names ▸ rfl)⟩
    | none =>
      obtain ⟨hnobody, hfree, hsame⟩ : t.taken = [] ∧ t.holder = none ∧ t.shared.sidecar = w.sidecar :=
        ht.entered.resolve_right fun h => absurd h.2.1 (by rw [hside]; decide)
      have hrun : createLockFile k o t =
          (.ok true, ⟨{ t.shared with sidecar := some [] }, some k, [o]⟩) := by
        unfold createLockFile tryLock
        rw [hside]
        dsimp only
        rw [hfree, hnobody]
        rfl
      have hnone : w.sidecar = none := hsame.symm.trans hside
      refine ⟨true, _, hrun, ⟨⟨by rw [hnone]; rfl, .inr ⟨hnone, rfl, o, rfl⟩⟩,
        ⟨⟨[o], by rw [hnobody]; rfl⟩, fun j hj => ?_, fun _ => ⟨rfl, .inr ⟨hside, rfl⟩⟩⟩, trivial⟩, ?_⟩
      · rw [hfree]
        exact ⟨fun h => absurd (Option.some.inj h).symm hj, fun h => (by cases h)⟩
      · refine secure_call fun u hu hkept => ?_
        have hheld : u.holder = some k := hkept.holder.mpr rfl
        have htext : u.shared.sidecar = some [] := (hkept.shared rfl).sidecar_eq rfl
        have hmem : o ∈ u.taken := by
          obtain ⟨more, hmore⟩ := hkept.taken
          exact hmore ▸ List.mem_append_left _ List.mem_cons_self
        have hwritten : (shared (writePiece (o.token ++ ['\n'])) u).2 =
            { u with shared := { u.shared with sidecar := some (o.token ++ ['\n']) } } := by
          show ({ u with shared := { u.shared with sidecar := some (u.shared.sidecar.getD [] ++ _) } } :
            Locked Opener World) = _
          rw [htext]
          rfl
        obtain ⟨-, -, he⟩ : w.sidecar = none ∧ u.shared.sidecar.isSome = true ∧ ∃ o, u.taken = [o] :=
          hu.entered.resolve_left fun h => by rw [hheld] at h; cases h.2.1
        rw [hwritten]
        exact ⟨⟨⟨by rw [hnone]; exact holderPid_token o, .inr ⟨hnone, rfl, he⟩⟩,
          ⟨⟨[], (List.append_nil _).symm⟩, fun _ _ => Iff.rfl, fun hno => absurd hheld hno⟩, trivial⟩,
          .inl ⟨rfl, hheld, hmem⟩⟩
  refine Secure.bind hacquire ?_ ?_
  · rintro e l (⟨hok, -⟩ | hrefused)
    · cases hok
    · exact .inr (congrArg _ (Except.error.inj hrefused))
  · rintro ⟨⟩ l (⟨-, hheld, hmem⟩ | hrefused)
    · exact @Hall.secure_zoom Opener Error World Unit Db World.db (fun w db => { w with db })
        (Once w) (fun _ => True) Untouched (fun _ _ => True) (fun _ _ => True) (fun _ _ => True)
        (Admitted w o) k (fun _ _ => rfl) (fun _ _ h => h.1) (fun _ _ => trivial)
        (fun _ _ h _ => ⟨h.names, h.entered⟩) (fun _ _ _ => trivial) _ _
        (fun _ _ _ ⟨_, hmore⟩ _ => .inl (hmore ▸ List.mem_append_left _ hmem)) hheld
        (secure_trivial (prepare o))
    · cases hrefused

private theorem rules_openStoreOExcl (w : World) : Hall.Rules openStoreOExcl (Once w) Untouched
    (fun _ _ => True) (fun _ o => Admitted w o) where
  refl _ := trivial
  released k l h := by
    constructor
    · rw [release_shared]
      exact h.names
    · rw [release_shared, release_taken]
      refine h.entered.imp (fun ⟨hnobody, hfree, hside⟩ => ⟨hnobody, ?_, hside⟩) id
      unfold release
      rw [if_neg fun h => by rw [hfree] at h; cases h]
      exact hfree
  stable k o r l t hkept := by
    rintro (hmem | hrefused)
    · obtain ⟨more, hmore⟩ := hkept.taken
      exact .inl (hmore ▸ List.mem_append_left _ hmem)
    · exact .inr hrefused
  secure _ _ _ _ := once_oExcl

/-- Without `flock` one opener gets past the lock, ever: whether its store is open, closed or was cut off,
every other opener is refused, and the pid it is told is the one in a file that was there before, or 0. -/
theorem oExcl_once (events : List (Hall.Event Opener)) :
    let h := (idle w).run openStoreOExcl events
    (h.locked.taken = [] ∨ w.sidecar = none ∧ ∃ o, h.locked.taken = [o]) ∧
      ∀ k o r, h.At k o (.done r) →
        h.locked.taken = [o] ∨ r = .error (.dbLocked o.path (holderPid w.sidecar)) := by
  have hsound := ((Hall.sound_empty (⟨rfl, .inl ⟨rfl, rfl, rfl⟩⟩ : Once w (idle w).locked) rfl).run
    (rules_openStoreOExcl w) events).1
  have htaken := hsound.locked.entered.imp And.left fun h => (⟨h.1, h.2.2⟩ : _ ∧ _)
  refine ⟨htaken, fun k o r hat => ?_⟩
  rcases hsound.clients k o _ hat with hmem | hrefused
  · rcases htaken with hnobody | ⟨-, o', ho'⟩
    · rw [hnobody] at hmem
      cases hmem
    · rw [ho', List.mem_singleton] at hmem
      exact .inl (hmem ▸ ho')
  · exact .inr hrefused

end

end AgosMemory.Opening
