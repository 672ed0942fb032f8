import AgosMemory.Library.Delimited
import AgosMemory.Library.Doubled
import AgosMemory.Recall.Filter
import AgosMemory.Words

/-!
# Query encoders

The text of a query becomes a `MATCH` expression of quoted words, and ids become SQL literals. Both are
read back by grammars of their own, and both readers take U+0000 for the end of their input.
-/

namespace AgosMemory.Recall

open Library

/-! ## The encoders -/

/-- `"\"" + w.replace('"', "\"\"") + "\""` and its like for `'`. -/
def enclosed (mark : Char) (s : String) : String :=
  String.ofList (Doubled.enclose mark s.toList)

/-- MATCH expression for a free-text query: bare terms, all of which must appear. -/
def ftsMatchExpr (text : String) : String :=
  Text.join " " ((Text.splitWhitespace text).map (enclosed '"'))

/-- SQL string literal with embedded quotes doubled. -/
def quote (s : String) : String := enclosed '\'' s

/-- Comma-joined SQL literal list. -/
def quoteList (items : List String) : String := Text.join "," (items.map quote)

def gate3Lead : String := "m.public_id IN ("

/-- The condition that gate 3 adds to the filter. -/
def gate3Condition (publicIds : List String) : String :=
  gate3Lead ++ quoteList publicIds ++ ")"

/-! ## The `MATCH` language -/

inductive Token where
  | lp | rp | lcp | rcp | colon | comma | plus | star | minus | caret
  | and | or | not
  | word (quoted : Bool) (text : List Char)
  deriving DecidableEq, Repr

/-- `fts5ExprIsspace` -/
def isBlank (c : Char) : Bool := c = ' ' || c = '\t' || c = '\n' || c = '\r'

/-- `sqlite3Fts5IsBareword` -/
def isBareword (c : Char) : Bool :=
  c.isAlphanum || c = '_' || c = '\x1a' || 128 ≤ c.toNat

def punctuation : List (Char × Token) :=
  [('(', .lp), (')', .rp), ('{', .lcp), ('}', .rcp), (':', .colon), (',', .comma), ('+', .plus),
    ('*', .star), ('-', .minus), ('^', .caret)]

/-- An operator in capitals, or a word. -/
def bareword (text : List Char) : Token :=
  if text = "OR".toList then .or
  else if text = "NOT".toList then .not
  else if text = "AND".toList then .and
  else .word false text

/-- `fts5ExprGetToken`: a token and what follows it, or the end; `none` is a syntax error. -/
def nextToken (s : List Char) : Option (Option (Token × List Char)) :=
  match s.dropWhile isBlank with
  | [] => some none
  | c :: rest =>
    if c = '\x00' then some none
    else
      match punctuation.lookup c with
      | some t => some (some (t, rest))
      | none =>
        if c = '"' then
          (Doubled.content '"' '\x00' rest).map fun p => some (.word true p.1, p.2)
        else if isBareword c then
          some (some (bareword (c :: rest.takeWhile isBareword), rest.dropWhile isBareword))
        else none

def tokensFrom : Nat → List Char → Option (List Token)
  | 0, _ => none
  | fuel + 1, s =>
    match nextToken s with
    | none => none
    | some none => some []
    | some (some (t, rest)) => (tokensFrom fuel rest).map fun ts => t :: ts

/-- The tokens of an expression; each takes at least one character. -/
def tokens (expr : String) : Option (List Token) :=
  tokensFrom (expr.toList.length + 1) expr.toList

/-- The strings of a phrase, each with whether a star follows it. -/
abbrev Phrase := List (List Char × Bool)

inductive Query where
  | phrase (initial : Bool) (p : Phrase)
  | near (ps : List Phrase) (distance : Option (List Char))
  | columns (excluded : Bool) (names : List (List Char)) (q : Query)
  | implicitAnd (a b : Query)
  | and (a b : Query)
  | or (a b : Query)
  | not (a b : Query)

/-- `phrase ::= STRING star_opt | phrase PLUS STRING star_opt` -/
inductive IsPhrase : List Token → Phrase → Prop where
  | string (quoted : Bool) (s : List Char) : IsPhrase [.word quoted s] [(s, false)]
  | starred (quoted : Bool) (s : List Char) : IsPhrase [.word quoted s, .star] [(s, true)]
  | plus {ts : List Token} {p : Phrase} (quoted : Bool) (s : List Char) : IsPhrase ts p →
      IsPhrase (ts ++ [.plus, .word quoted s]) (p ++ [(s, false)])
  | plusStarred {ts : List Token} {p : Phrase} (quoted : Bool) (s : List Char) : IsPhrase ts p →
      IsPhrase (ts ++ [.plus, .word quoted s, .star]) (p ++ [(s, true)])

/-- `nearphrases ::= phrase | nearphrases phrase` -/
inductive IsPhrases : List Token → List Phrase → Prop where
  | one {ts : List Token} {p : Phrase} : IsPhrase ts p → IsPhrases ts [p]
  | more {ts us : List Token} {ps : List Phrase} {p : Phrase} : IsPhrases ts ps → IsPhrase us p →
      IsPhrases (ts ++ us) (ps ++ [p])

/-- `colsetlist ::= STRING | colsetlist STRING` -/
inductive IsColumns : List Token → List (List Char) → Prop where
  | one (quoted : Bool) (s : List Char) : IsColumns [.word quoted s] [s]
  | more {ts : List Token} {names : List (List Char)} (quoted : Bool) (s : List Char) :
      IsColumns ts names → IsColumns (ts ++ [.word quoted s]) (names ++ [s])

/-- `colset`, with whether a minus stands before it. -/
inductive IsColset : List Token → Bool → List (List Char) → Prop where
  | one (quoted : Bool) (s : List Char) : IsColset [.word quoted s] false [s]
  | braces {ts : List Token} {names : List (List Char)} : IsColumns ts names →
      IsColset (.lcp :: ts ++ [.rcp]) false names
  | minus {ts : List Token} {names : List (List Char)} : IsColset ts false names →
      IsColset (.minus :: ts) true names

/-- `nearset` -/
inductive IsNearset : List Token → Query → Prop where
  | phrase {ts : List Token} {p : Phrase} : IsPhrase ts p → IsNearset ts (.phrase false p)
  | initial {ts : List Token} {p : Phrase} : IsPhrase ts p →
      IsNearset (.caret :: ts) (.phrase true p)
  | near {ts : List Token} {ps : List Phrase} : IsPhrases ts ps →
      IsNearset (.word false "NEAR".toList :: .lp :: ts ++ [.rp]) (.near ps none)
  | within {ts : List Token} {ps : List Phrase} (quoted : Bool) (n : List Char) : IsPhrases ts ps →
      IsNearset (.word false "NEAR".toList :: .lp :: ts ++ [.comma, .word quoted n, .rp])
        (.near ps (some n))

/-- How tightly an expression binds. -/
inductive Level where
  | item | list | factor | negation | conjunction | disjunction
  deriving DecidableEq, Repr

/-- The grammar of the expressions; `NOT` binds closer than `AND` and `AND` closer than `OR`. -/
inductive Derives : Level → List Token → Query → Prop where
  | nearset {ts : List Token} {q : Query} : IsNearset ts q → Derives .item ts q
  | inColumns {cs ts : List Token} {minus : Bool} {names : List (List Char)} {q : Query} :
      IsColset cs minus names → IsNearset ts q →
      Derives .item (cs ++ .colon :: ts) (.columns minus names q)
  | first {ts : List Token} {q : Query} : Derives .item ts q → Derives .list ts q
  | next {ts us : List Token} {a b : Query} : Derives .list ts a → Derives .item us b →
      Derives .list (ts ++ us) (.implicitAnd a b)
  | ofList {ts : List Token} {q : Query} : Derives .list ts q → Derives .factor ts q
  | parens {ts : List Token} {q : Query} : Derives .disjunction ts q →
      Derives .factor (.lp :: ts ++ [.rp]) q
  | parensInColumns {cs ts : List Token} {minus : Bool} {names : List (List Char)} {q : Query} :
      IsColset cs minus names → Derives .disjunction ts q →
      Derives .factor (cs ++ .colon :: .lp :: ts ++ [.rp]) (.columns minus names q)
  | ofFactor {ts : List Token} {q : Query} : Derives .factor ts q → Derives .negation ts q
  | not {ts us : List Token} {a b : Query} : Derives .negation ts a → Derives .factor us b →
      Derives .negation (ts ++ .not :: us) (.not a b)
  | ofNegation {ts : List Token} {q : Query} : Derives .negation ts q → Derives .conjunction ts q
  | and {ts us : List Token} {a b : Query} : Derives .conjunction ts a → Derives .negation us b →
      Derives .conjunction (ts ++ .and :: us) (.and a b)
  | ofConjunction {ts : List Token} {q : Query} : Derives .conjunction ts q →
      Derives .disjunction ts q
  | or {ts us : List Token} {a b : Query} : Derives .disjunction ts a → Derives .conjunction us b →
      Derives .disjunction (ts ++ .or :: us) (.or a b)

/-- A query that a `MATCH` expression stands for. -/
def Parses (expr : String) (q : Query) : Prop :=
  ∃ ts, tokens expr = some ts ∧ Derives .disjunction ts q

/-! ## Expressions of quoted words -/

/-- The query for one word. -/
def term (w : List Char) : Query := .phrase false [(w, false)]

/-- The implicit conjunction of words. -/
def conjunction (w : List Char) (ws : List (List Char)) : Query :=
  ws.foldl (fun q v => .implicitAnd q (term v)) (term w)

private theorem conjunction_append (w : List Char) (ws : List (List Char)) (v : List Char) :
    conjunction w (ws ++ [v]) = .implicitAnd (conjunction w ws) (term v) := by
  rw [conjunction, List.foldl_append]
  rfl

/-- Nothing but quoted words. -/
def Quoted (ts : List Token) : Prop := ∀ t ∈ ts, ∃ w, t = .word true w

private theorem quoted_map (ws : List (List Char)) : Quoted (ws.map (.word true)) := by
  intro t ht
  obtain ⟨w, _, rfl⟩ := List.mem_map.mp ht
  exact ⟨w, rfl⟩

theorem Quoted.left {ts us : List Token} (h : Quoted (ts ++ us)) : Quoted ts :=
  fun t ht => h t (List.mem_append_left us ht)

theorem Quoted.right {ts us : List Token} (h : Quoted (ts ++ us)) : Quoted us :=
  fun t ht => h t (List.mem_append_right ts ht)

/-- An operator is no quoted word. -/
theorem Quoted.elim {ts : List Token} (h : Quoted ts) {t : Token} (ht : t ∈ ts)
    (hop : ∀ w, t ≠ .word true w) {P : Prop} : P := by
  obtain ⟨w, rfl⟩ := h t ht
  exact absurd rfl (hop w)

theorem IsPhrase.of_quoted {ts : List Token} {p : Phrase} (h : IsPhrase ts p) (hq : Quoted ts) :
    ∃ w, ts = [.word true w] ∧ p = [(w, false)] := by
  cases h with
  | string quoted s =>
    obtain ⟨w, hw⟩ := hq _ List.mem_cons_self
    obtain ⟨rfl, rfl⟩ := Token.word.inj hw
    exact ⟨s, rfl, rfl⟩
  | starred quoted s => exact hq.elim (t := .star) (by simp) (by simp)
  | plus quoted s _ => exact hq.elim (t := .plus) (by simp) (by simp)
  | plusStarred quoted s _ => exact hq.elim (t := .plus) (by simp) (by simp)

theorem IsNearset.of_quoted {ts : List Token} {q : Query} (h : IsNearset ts q) (hq : Quoted ts) :
    ∃ w, ts = [.word true w] ∧ q = term w := by
  cases h with
  | phrase hp =>
    obtain ⟨w, rfl, rfl⟩ := hp.of_quoted hq
    exact ⟨w, rfl, rfl⟩
  | initial _ => exact hq.elim (t := .caret) (by simp) (by simp)
  | near _ => exact hq.elim (t := .lp) (by simp) (by simp)
  | within quoted n _ => exact hq.elim (t := .lp) (by simp) (by simp)

/-- Quoted words derive nothing but their conjunction. -/
theorem Derives.of_quoted {level : Level} {ts : List Token} {q : Query} (h : Derives level ts q)
    (hq : Quoted ts) : ∃ w ws, ts = (w :: ws).map (.word true) ∧ q = conjunction w ws ∧
      (level = .item → ws = []) := by
  induction h with
  | nearset hn =>
    obtain ⟨w, rfl, rfl⟩ := hn.of_quoted hq
    exact ⟨w, [], rfl, rfl, fun _ => rfl⟩
  | inColumns _ _ => exact hq.elim (t := .colon) (by simp) (by simp)
  | next _ _ iha ihb =>
    obtain ⟨w, ws, rfl, rfl, _⟩ := iha hq.left
    obtain ⟨v, vs, rfl, rfl, hone⟩ := ihb hq.right
    obtain rfl := hone rfl
    exact ⟨w, ws ++ [v], by simp, (conjunction_append w ws v).symm, fun h => by cases h⟩
  | parens _ _ => exact hq.elim (t := .lp) (by simp) (by simp)
  | parensInColumns _ _ _ => exact hq.elim (t := .colon) (by simp) (by simp)
  | not _ _ _ _ => exact hq.elim (t := .not) (by simp) (by simp)
  | and _ _ _ _ => exact hq.elim (t := .and) (by simp) (by simp)
  | or _ _ _ _ => exact hq.elim (t := .or) (by simp) (by simp)
  | first _ ih | ofList _ ih | ofFactor _ ih | ofNegation _ ih | ofConjunction _ ih =>
    obtain ⟨w, ws, hts, hconj, _⟩ := ih hq
    exact ⟨w, ws, hts, hconj, fun h => by cases h⟩

private theorem derives_list (w : List Char) (ws : List (List Char)) :
    Derives .list ((w :: ws).map (.word true)) (conjunction w ws) := by
  induction ws using List.reverseRecOn with
  | nil => exact .first (.nearset (.phrase (.string true w)))
  | append_singleton ws v ih =>
    have hlast : Derives .item [.word true v] (term v) := .nearset (.phrase (.string true v))
    have h := Derives.next ih hlast
    rw [conjunction_append]
    simpa using h

/-- Quoted words have one derivation, and none if there are none. -/
private theorem derives_quoted_iff (ws : List (List Char)) (q : Query) :
    Derives .disjunction (ws.map (.word true)) q ↔ ∃ v vs, ws = v :: vs ∧ q = conjunction v vs := by
  constructor
  · intro h
    obtain ⟨v, vs, hts, hq, _⟩ := h.of_quoted (quoted_map ws)
    refine ⟨v, vs, List.map_injective_iff.mpr (fun a b hab => ?_) hts, hq⟩
    exact (Token.word.inj hab).2
  · rintro ⟨v, vs, rfl, rfl⟩
    exact .ofConjunction (.ofNegation (.ofFactor (.ofList (derives_list v vs))))

/-! ## Reading a `MATCH` expression -/

/-- The characters of an expression of quoted words. -/
def quotedWords (ws : List (List Char)) : List Char :=
  [' '].intercalate (ws.map (Doubled.enclose '"'))

private theorem toList_ftsMatchExpr (text : String) :
    (ftsMatchExpr text).toList = quotedWords (words Text.isSpace text.toList) := by
  rw [ftsMatchExpr, Text.toList_join, Text.splitWhitespace, List.map_map, List.map_map]
  refine congrArg (List.intercalate [' ']) (List.map_congr_left fun w _ => ?_)
  simp [enclosed]

private theorem nextToken_blank (s : List Char) : nextToken (' ' :: s) = nextToken s := by
  rw [nextToken, List.dropWhile_cons_of_pos (by decide), ← nextToken]

private theorem nextToken_quote {rest : List Char} (hrest : rest.head? ≠ some '"') (w : List Char) :
    nextToken (Doubled.enclose '"' w ++ rest) =
      if '\x00' ∈ w then none else some (some (.word true w, rest)) := by
  have hstop : '\x00' ≠ '"' := by decide
  have hread := Doubled.content_double hstop hrest w
  have htext : Doubled.enclose '"' w ++ rest =
      '"' :: (Doubled.double '"' w ++ '"' :: rest) := by simp [Doubled.enclose]
  have hlookup : punctuation.lookup '"' = none := by decide
  rw [htext, nextToken, List.dropWhile_cons_of_neg (by decide)]
  dsimp only
  rw [if_neg (by decide : '"' ≠ '\x00'), hlookup]
  dsimp only
  rw [if_pos rfl, hread]
  by_cases hw : '\x00' ∈ w
  · rw [if_pos hw, if_pos hw, Option.map_none]
  · rw [if_neg hw, if_neg hw, Option.map_some]

/-- What follows a word is read as the rest of the words. -/
private theorem quotedWords_cons (w : List Char) (ws : List (List Char)) : ∃ rest,
    quotedWords (w :: ws) = Doubled.enclose '"' w ++ rest ∧ rest.head? ≠ some '"' ∧
      ∀ fuel, tokensFrom fuel rest = tokensFrom fuel (quotedWords ws) := by
  cases ws with
  | nil => exact ⟨[], by simp [quotedWords, List.intercalate], by simp, fun _ => rfl⟩
  | cons v vs =>
    refine ⟨' ' :: quotedWords (v :: vs), ?_, by simp, fun fuel => ?_⟩
    · rw [quotedWords, List.map_cons, List.map_cons, List.intercalate_cons_cons, List.append_assoc]
      rfl
    · cases fuel with
      | zero => rfl
      | succ n => rw [tokensFrom, tokensFrom, nextToken_blank]

/-- One token for each word; a word with U+0000 is an error. -/
private theorem tokensFrom_quotedWords {fuel : Nat} {ws : List (List Char)} (h : ws.length < fuel) :
    tokensFrom fuel (quotedWords ws) =
      if ∃ w ∈ ws, '\x00' ∈ w then none else some (ws.map (.word true)) := by
  induction ws generalizing fuel with
  | nil =>
    obtain ⟨n, rfl⟩ := Nat.exists_eq_add_of_lt h
    simp [tokensFrom, quotedWords, nextToken]
  | cons w ws ih =>
    obtain ⟨n, rfl⟩ : ∃ n, fuel = n + 1 := ⟨fuel - 1, by omega⟩
    obtain ⟨rest, htext, hrest, htail⟩ := quotedWords_cons w ws
    have hlt : ws.length < n := by
      rw [List.length_cons] at h
      omega
    rw [htext, tokensFrom, nextToken_quote hrest]
    by_cases hw : '\x00' ∈ w
    · rw [if_pos hw, if_pos ⟨w, List.mem_cons_self, hw⟩]
    · rw [if_neg hw]
      dsimp only
      rw [htail, ih hlt]
      by_cases hws : ∃ v ∈ ws, '\x00' ∈ v
      · rw [if_pos hws, if_pos (by
          obtain ⟨v, hv, hmem⟩ := hws
          exact ⟨v, List.mem_cons_of_mem _ hv, hmem⟩)]
        rfl
      · rw [if_neg hws, if_neg (by
          rintro ⟨v, hv, hmem⟩
          rcases List.mem_cons.mp hv with rfl | hv
          · exact hw hmem
          · exact hws ⟨v, hv, hmem⟩)]
        rfl

private theorem length_le_quotedWords (ws : List (List Char)) :
    ws.length ≤ (quotedWords ws).length := by
  induction ws with
  | nil => exact Nat.zero_le _
  | cons w ws ih =>
    cases ws with
    | nil => simp [quotedWords, List.intercalate, Doubled.enclose]
    | cons v vs =>
      rw [quotedWords, List.map_cons, List.map_cons, List.intercalate_cons_cons,
        List.length_append, List.length_append]
      have htail : (v :: vs).length ≤ (quotedWords (v :: vs)).length := ih
      rw [quotedWords, List.map_cons] at htail
      simp only [List.length_cons] at htail ⊢
      omega

private theorem tokens_ftsMatchExpr (text : String) : tokens (ftsMatchExpr text) =
    if '\x00' ∈ text.toList then none
    else some ((words Text.isSpace text.toList).map (.word true)) := by
  have hfuel := Nat.lt_succ_of_le (length_le_quotedWords (words Text.isSpace text.toList))
  have hnul := exists_word (p := Text.isSpace) (s := text.toList) (a := '\x00') (by decide)
  rw [tokens, toList_ftsMatchExpr, tokensFrom_quotedWords hfuel]
  simp only [hnul]

/-- The expression of a text stands for one query, the conjunction of its words. -/
def MatchExact (text : String) : Prop :=
  ∃ w ws, words Text.isSpace text.toList = w :: ws ∧
    ∀ q, Parses (ftsMatchExpr text) q ↔ q = conjunction w ws

private theorem matchExact_iff (text : String) :
    MatchExact text ↔ '\x00' ∉ text.toList ∧ words Text.isSpace text.toList ≠ [] := by
  unfold MatchExact Parses
  rw [tokens_ftsMatchExpr]
  constructor
  · rintro ⟨w, ws, hwords, hparse⟩
    obtain ⟨ts, hts, _⟩ := (hparse (conjunction w ws)).mpr rfl
    refine ⟨fun hnul => ?_, hwords ▸ List.cons_ne_nil w ws⟩
    rw [if_pos hnul] at hts
    cases hts
  · rintro ⟨hnul, hne⟩
    obtain ⟨w, ws, hwords⟩ := List.exists_cons_of_ne_nil hne
    refine ⟨w, ws, hwords, fun q => ?_⟩
    rw [if_neg hnul, hwords]
    constructor
    · rintro ⟨ts, hts, hq⟩
      obtain rfl := Option.some.inj hts
      obtain ⟨v, vs, hcons, rfl⟩ := (derives_quoted_iff (w :: ws) q).mp hq
      obtain ⟨rfl, rfl⟩ := List.cons.inj hcons
      rfl
    · rintro rfl
      exact ⟨_, rfl, (derives_quoted_iff (w :: ws) _).mpr ⟨w, ws, rfl, rfl⟩⟩

/-! ## Reading SQL literals -/

/-- A string literal of SQL, and what follows it. -/
def readLiteral : List Char → Option (List Char × List Char) := Doubled.read '\'' '\x00'

/-- The literals of a list up to its closing bracket. -/
def readLiterals : Nat → List Char → Option (List (List Char))
  | 0, _ => none
  | fuel + 1, s =>
    match readLiteral s with
    | some (name, ',' :: rest) => (readLiterals fuel rest).map fun names => name :: names
    | some (name, ')' :: _) => some [name]
    | _ => none

/-- The names in the list of gate 3. -/
def readIn (condition : String) : Option (List (List Char)) :=
  (Delimited.expect gate3Lead.toList condition.toList).bind fun s =>
    if s.head? = some ')' then some [] else readLiterals s.length s

private theorem readLiteral_quote_iff (s : String) {rest : List Char}
    (hrest : rest.head? ≠ some '\'') :
    readLiteral ((quote s).toList ++ rest) = some (s.toList, rest) ↔ '\x00' ∉ s.toList := by
  rw [quote, enclosed, String.toList_ofList]
  exact Doubled.read_enclose_iff (by decide) hrest s.toList

private theorem readLiteral_quote (s : String) {rest : List Char} (hrest : rest.head? ≠ some '\'') :
    readLiteral ((quote s).toList ++ rest) =
      if '\x00' ∈ s.toList then none else some (s.toList, rest) := by
  rw [quote, enclosed, String.toList_ofList]
  exact Doubled.read_enclose (by decide) hrest s.toList

/-- The literals of a list are read back one by one; one with U+0000 ends the statement. -/
private theorem readLiterals_quoteList {fuel : Nat} (id : String) (ids : List String)
    (h : ids.length < fuel) (rest : List Char) :
    readLiterals fuel ((quoteList (id :: ids)).toList ++ ')' :: rest) =
      if ∃ i ∈ id :: ids, '\x00' ∈ i.toList then none
      else some ((id :: ids).map String.toList) := by
  induction ids generalizing fuel id with
  | nil =>
    obtain ⟨n, rfl⟩ : ∃ n, fuel = n + 1 := ⟨fuel - 1, by omega⟩
    have htext : quoteList [id] = quote id := rfl
    rw [htext, readLiterals, readLiteral_quote id (by simp)]
    by_cases hid : '\x00' ∈ id.toList
    · simp [hid]
    · simp [hid]
  | cons v ids ih =>
    obtain ⟨n, rfl⟩ : ∃ n, fuel = n + 1 := ⟨fuel - 1, by omega⟩
    have hlt : ids.length < n := by
      rw [List.length_cons] at h
      omega
    have htext : (quoteList (id :: v :: ids)).toList ++ ')' :: rest =
        (quote id).toList ++ ',' :: ((quoteList (v :: ids)).toList ++ ')' :: rest) := by
      have hjoin : quoteList (id :: v :: ids) = quote id ++ "," ++ quoteList (v :: ids) := rfl
      rw [hjoin, String.toList_append, String.toList_append]
      simp
    rw [htext, readLiterals, readLiteral_quote id (by simp)]
    by_cases hid : '\x00' ∈ id.toList
    · simp [hid]
    · rw [if_neg hid]
      change (readLiterals n ((quoteList (v :: ids)).toList ++ ')' :: rest)).map
        (fun names => id.toList :: names) = _
      rw [ih v hlt]
      simp only [List.mem_cons (a := _) (b := id), exists_eq_or_imp, hid, false_or]
      split <;> rfl

private theorem length_lt_quoteList (id : String) (ids : List String) :
    ids.length < (quoteList (id :: ids)).toList.length := by
  induction ids generalizing id with
  | nil =>
    have htext : (quoteList [id]).toList = Doubled.enclose '\'' id.toList := by
      simp [quoteList, Text.join, quote, enclosed]
    rw [htext]
    simp [Doubled.enclose]
  | cons v ids ih =>
    have hjoin : quoteList (id :: v :: ids) = quote id ++ "," ++ quoteList (v :: ids) := rfl
    have htail := ih v
    rw [hjoin, String.toList_append, String.toList_append, List.length_append, List.length_append]
    have hcomma : ",".toList.length = 1 := rfl
    rw [List.length_cons]
    omega

/-- Gate 3 asks for the fused ids exactly when none of them has U+0000. -/
private theorem readIn_gate3Condition_iff (ids : List String) :
    readIn (gate3Condition ids) = some (ids.map String.toList) ↔
      ∀ id ∈ ids, '\x00' ∉ id.toList := by
  have htext : (gate3Lead ++ quoteList ids ++ ")").toList =
      gate3Lead.toList ++ ((quoteList ids).toList ++ [')']) := by
    rw [String.toList_append, String.toList_append, List.append_assoc]
    rfl
  rw [readIn, gate3Condition, htext, Delimited.expect_append, Option.bind_some]
  cases ids with
  | nil => exact iff_of_true rfl (List.forall_mem_nil _)
  | cons id ids =>
    have hhead : ((quoteList (id :: ids)).toList ++ [')']).head? ≠ some ')' := by
      cases ids with
      | nil => simp [quoteList, Text.join, quote, enclosed, Doubled.enclose]
      | cons v ids =>
        have hjoin : quoteList (id :: v :: ids) = quote id ++ "," ++ quoteList (v :: ids) := rfl
        rw [hjoin]
        simp [quote, enclosed, Doubled.enclose]
    have hlt := length_lt_quoteList id ids
    rw [if_neg hhead, readLiterals_quoteList id ids (by rw [List.length_append]; omega) []]
    split
    · next hnul =>
      obtain ⟨i, hi, hmem⟩ := hnul
      exact iff_of_false (fun h => by cases h) (fun h => h i hi hmem)
    · next hnul => exact iff_of_true rfl fun i hi hmem => hnul ⟨i, hi, hmem⟩

/-- So where the statement is prepared, it loads the rows with the names that it lists. -/
theorem survivingPublicIds_named {F : Type} {filter : HardFilter} {db : Db F}
    {ids surviving : List String} {names : List (List Char)}
    (hnames : readIn (gate3Condition ids) = some names)
    (h : survivingPublicIds filter db ids = .ok surviving) :
    surviving = (admittedRows filter db fun m => m.publicId.toList ∈ names).map
      CanonicalRow.publicId := by
  have hsame : ∀ m : Memory F, (m.publicId.toList ∈ ids.map String.toList) ↔ m.publicId ∈ ids := by
    intro m
    rw [List.mem_map]
    constructor
    · rintro ⟨id, hid, heq⟩
      rwa [← String.toList_inj.mp heq]
    · exact fun h => ⟨_, h, rfl⟩
  obtain ⟨hplain, rfl⟩ := survivingPublicIds_ok_iff.mp h
  have hids : ∀ id ∈ ids, '\x00' ∉ id.toList := fun id hid =>
    hplain (List.ne_nil_of_mem hid) id (List.mem_cons_of_mem _ hid)
  rw [(readIn_gate3Condition_iff ids).mpr hids] at hnames
  obtain rfl := Option.some.inj hnames
  simp only [hsame]

/-! ## Both encoders -/

/-- The expression of a text stands for the conjunction of its words and nothing else exactly when the
text has a word and no U+0000; a literal is read back, and gate 3 asks for the fused ids, exactly when
there is no U+0000 in them. -/
theorem encoders_exact_iff (text s : String) (rest : List Char) (ids : List String) :
    (MatchExact text ↔ '\x00' ∉ text.toList ∧ Text.trim text ≠ "") ∧
    (rest.head? ≠ some '\'' →
      (readLiteral ((quote s).toList ++ rest) = some (s.toList, rest) ↔ '\x00' ∉ s.toList)) ∧
    (readIn (gate3Condition ids) = some (ids.map String.toList) ↔
      ∀ id ∈ ids, '\x00' ∉ id.toList) := by
  refine ⟨?_, fun hrest => readLiteral_quote_iff s hrest, readIn_gate3Condition_iff ids⟩
  rw [matchExact_iff, ne_eq, words_eq_nil_iff_trimList, ← Text.trim_eq_empty_iff]

/-- A query of two words, a public id in a list of two, and what follows it in the statement. -/
theorem encoders_exact_sample :
    MatchExact "blue sky" ∧ readLiteral ((quote "m'1").toList ++ [')']) = some ("m'1".toList, [')']) ∧
      readIn (gate3Condition ["m'1", "m2"]) = some ["m'1".toList, "m2".toList] := by
  obtain ⟨hquery, hliteral, hids⟩ := encoders_exact_iff "blue sky" "m'1" [')'] ["m'1", "m2"]
  exact ⟨hquery.mpr ⟨by decide, by decide⟩, (hliteral (by decide)).mpr (by decide),
    hids.mpr (by decide)⟩

/-- A query and an id with U+0000: the expression is refused and the literal is not closed. -/
theorem encoders_stop_at_nul :
    (∀ q, ¬ Parses (ftsMatchExpr "sky\x00") q) ∧
    readLiteral (quote "m\x00").toList = none ∧
    readIn (gate3Condition ["m1", "m\x00"]) = none := by
  refine ⟨fun q ⟨ts, hts, _⟩ => ?_, by decide +kernel, by decide +kernel⟩
  have hnone : tokens (ftsMatchExpr "sky\x00") = none := by decide +kernel
  rw [hnone] at hts
  cases hts

end AgosMemory.Recall
