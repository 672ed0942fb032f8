import AgosMemory.Library.Trim
import AgosMemory.Server.Auth

/-!
# What the server authorizes

A token is asked for byte by byte: the scheme in any case, a space, and the token with blanks around
it. The header is read as visible ASCII and the credential without the blanks around it, so a token
that is not such a text itself is one that nobody can present.
-/

namespace AgosMemory.Server

open Library (trimList)

variable {F : Type} [F64 F]

/-! ## Text -/

/-- The blanks that a header value may hold. -/
def isBlank (c : Char) : Bool := c = ' ' || c = '\t'

/-- A text without the blanks around it. -/
def strip (s : String) : String := String.ofList (trimList isBlank s.toList)

private theorem trim_eq (s : String) :
    Text.trim s = String.ofList (trimList Text.isSpace s.toList) := rfl

private theorem splitOnce_some {sep : Char} {s a b : String} :
    splitOnce sep s = some (a, b) ↔ s.toList = a.toList ++ sep :: b.toList ∧ sep ∉ a.toList := by
  have hbefore : sep ∉ s.toList.takeWhile (· ≠ sep) := by
    intro hmem
    have hne := List.mem_takeWhile_imp hmem
    simp at hne
  unfold splitOnce
  constructor
  · intro h
    cases hrest : s.toList.dropWhile (· ≠ sep) with
    | nil =>
      rw [hrest] at h
      cases h
    | cons d rest =>
      rw [hrest] at h
      obtain ⟨rfl, rfl⟩ := Prod.mk.inj (Option.some.inj h)
      have hd := List.head?_dropWhile_not (fun c => decide (c ≠ sep)) s.toList
      rw [hrest] at hd
      have hd : d = sep := by simpa using hd
      rw [String.toList_ofList, String.toList_ofList]
      refine ⟨?_, hbefore⟩
      calc s.toList = s.toList.takeWhile (· ≠ sep) ++ s.toList.dropWhile (· ≠ sep) :=
            List.takeWhile_append_dropWhile.symm
        _ = s.toList.takeWhile (· ≠ sep) ++ sep :: rest := by rw [hrest, hd]
  · rintro ⟨hs, hnotin⟩
    have hall : ∀ c ∈ a.toList, decide (c ≠ sep) = true := fun c hc =>
      decide_eq_true fun heq => hnotin (heq ▸ hc)
    rw [hs, List.takeWhile_append_of_pos hall, List.dropWhile_append_of_pos hall]
    simp

/-- A character of a visible text. -/
def Visible (c : Char) : Prop := c = '\t' ∨ 32 ≤ c.toNat ∧ c.toNat < 127

/-- Of the characters of a visible text only blanks are white space. -/
private theorem isSpace_of_visible {c : Char} (h : Visible c) : Text.isSpace c = isBlank c := by
  have hall : ∀ n < 127, n = 9 ∨ 32 ≤ n →
      Text.isSpace (Char.ofNat n) = isBlank (Char.ofNat n) := by decide +kernel
  have hc := hall c.toNat
  rw [Char.ofNat_toNat] at hc
  rcases h with rfl | ⟨hlow, hhigh⟩
  · exact hc (by decide) (by decide)
  · exact hc hhigh (.inr hlow)

private theorem trim_of_visible {s : String} (h : ∀ c ∈ s.toList, Visible c) :
    Text.trim s = strip s := by
  rw [trim_eq, strip, Library.trimList_congr fun c hc => isSpace_of_visible (h c hc)]

/-! ## Bytes -/

private theorem utf8_injective {a b : String} (h : utf8 a = utf8 b) : a = b := by
  have hbytes : a.toByteArray = b.toByteArray := by
    rw [← String.ofList_toList (s := a), ← String.ofList_toList (s := b),
      String.toByteArray_ofList, String.toByteArray_ofList, List.utf8Encode, List.utf8Encode]
    exact congrArg List.toByteArray h
  exact String.toByteArray_inj.mp hbytes

private theorem utf8EncodeChar_ascii {c : Char} (h : c.toNat < 128) :
    String.utf8EncodeChar c = [UInt8.ofNat c.toNat] :=
  if_pos (Nat.le_of_lt_succ h)

private theorem utf8EncodeChar_high {c : Char} (h : 128 ≤ c.toNat) :
    ∀ b ∈ String.utf8EncodeChar c, 128 ≤ b.toNat := by
  have hc : 128 ≤ c.val.toNat := h
  have hbyte : ∀ n, 128 ≤ n % 256 → 128 ≤ (UInt8.ofNat n).toNat := fun n hn => by
    rw [UInt8.toNat_ofNat']
    exact hn
  unfold String.utf8EncodeChar
  simp only
  split
  · omega
  split
  · simp only [List.forall_mem_cons]
    exact ⟨hbyte _ (by omega), hbyte _ (by omega), List.forall_mem_nil _⟩
  split
  · simp only [List.forall_mem_cons]
    exact ⟨hbyte _ (by omega), hbyte _ (by omega), hbyte _ (by omega), List.forall_mem_nil _⟩
  · simp only [List.forall_mem_cons]
    exact ⟨hbyte _ (by omega), hbyte _ (by omega), hbyte _ (by omega), hbyte _ (by omega),
      List.forall_mem_nil _⟩

/-- The bytes of a character are ASCII if it is. -/
private theorem toNat_lt_of_bytes {c : Char} (h : ∀ b ∈ String.utf8EncodeChar c, b.toNat < 128) :
    c.toNat < 128 := by
  by_contra hhigh
  obtain ⟨b, hb⟩ := List.exists_mem_of_ne_nil _ (String.utf8EncodeChar_ne_nil (c := c))
  have hlow := h b hb
  have := utf8EncodeChar_high (by omega) b hb
  omega

/-- A character that a header value can hold. -/
def Sendable (c : Char) : Prop := c = '\t' ∨ 32 ≤ c.toNat ∧ c.toNat ≠ 127

private theorem sendable_iff (c : Char) : Sendable c ↔ ∀ b ∈ String.utf8EncodeChar c, Carried b := by
  by_cases hlow : c.toNat < 128
  · rw [utf8EncodeChar_ascii hlow, List.forall_mem_singleton]
    have hall : ∀ n < 128, (Char.ofNat n = '\t' ∨ 32 ≤ n ∧ n ≠ 127) ↔ Carried (UInt8.ofNat n) := by
      decide +kernel
    have hc := hall c.toNat hlow
    rwa [Char.ofNat_toNat] at hc
  · have hhigh : 128 ≤ c.toNat := by omega
    refine ⟨fun _ b hb => .inr ?_, fun _ => .inr (by omega)⟩
    have hb := utf8EncodeChar_high hhigh b hb
    refine ⟨UInt8.le_iff_toNat_le.mpr ?_, fun heq => ?_⟩
    · show 32 ≤ b.toNat
      omega
    · rw [heq] at hb
      exact absurd hb (by decide)

/-- The characters of a visible text are those whose bytes a visible value holds. -/
private theorem visible_iff (c : Char) :
    Visible c ↔ ∀ b ∈ String.utf8EncodeChar c, isVisibleAscii b = true := by
  by_cases hlow : c.toNat < 128
  · rw [utf8EncodeChar_ascii hlow, List.forall_mem_singleton]
    have hall : ∀ n < 128, (Char.ofNat n = '\t' ∨ 32 ≤ n ∧ n < 127) ↔
        isVisibleAscii (UInt8.ofNat n) = true := by decide +kernel
    have hc := hall c.toNat hlow
    rwa [Char.ofNat_toNat] at hc
  · refine ⟨fun h => ?_, fun h => absurd (toNat_lt_of_bytes fun b hb => ?_) hlow⟩
    · rcases h with rfl | h
      · exact absurd (by decide : ('\t').toNat < 128) hlow
      · omega
    · have hb := h b hb
      have hall : ∀ n < 256, isVisibleAscii (UInt8.ofNat n) = true → n < 128 := by decide +kernel
      exact hall b.toNat b.toNat_lt (by rwa [UInt8.ofNat_toNat])

/-- A value that reads as a text holds its bytes, and the text is visible. -/
private theorem toStr_some {v : HeaderValue} {t : String} :
    v.toStr = some t ↔ v.bytes = utf8 t ∧ ∀ c ∈ t.toList, Visible c := by
  have hread : v.bytes.all isVisibleAscii = true →
      utf8 (String.ofList (v.bytes.map fun b => Char.ofNat b.toNat)) = v.bytes := by
    intro hall
    have hchar : ∀ n < 256, isVisibleAscii (UInt8.ofNat n) = true →
        String.utf8EncodeChar (Char.ofNat n) = [UInt8.ofNat n] := by decide +kernel
    have hbytes : ∀ b ∈ v.bytes, String.utf8EncodeChar (Char.ofNat b.toNat) = [b] := by
      intro b hb
      have hb := hchar b.toNat b.toNat_lt
      rw [UInt8.ofNat_toNat] at hb
      exact hb (List.all_eq_true.mp hall b ‹_›)
    rw [utf8, String.toList_ofList, List.flatMap_map, List.flatMap_congr hbytes,
      List.flatMap_singleton']
  constructor
  · intro h
    unfold HeaderValue.toStr at h
    split at h
    · next hall =>
      have hsame := hread hall
      rw [Option.some.inj h] at hsame
      refine ⟨hsame.symm, fun c hc => (visible_iff c).mpr fun b hb => ?_⟩
      refine List.all_eq_true.mp hall b ?_
      rw [← hsame]
      exact List.mem_flatMap.mpr ⟨c, hc, hb⟩
    · cases h
  · rintro ⟨hbytes, hvisible⟩
    have hall : v.bytes.all isVisibleAscii = true := by
      rw [List.all_eq_true, hbytes]
      intro b hb
      obtain ⟨c, hc, hbc⟩ := List.mem_flatMap.mp hb
      exact (visible_iff c).mp (hvisible c hc) b hbc
    unfold HeaderValue.toStr
    rw [if_pos hall]
    exact congrArg some (utf8_injective ((hread hall).trans hbytes))

/-! ## Digests -/

private theorem foldl_xor_eq_zero (l : List (UInt8 × UInt8)) (acc : UInt8) :
    l.foldl (fun acc p => acc ||| (p.1 ^^^ p.2)) acc = 0 ↔ acc = 0 ∧ ∀ p ∈ l, p.1 = p.2 := by
  induction l generalizing acc with
  | nil => simp
  | cons p l ih =>
    rw [List.foldl_cons, ih, UInt8.or_eq_zero_iff, UInt8.xor_eq_zero_iff, List.forall_mem_cons,
      and_assoc]

private theorem zip_same {l l' : List UInt8} (hlength : l.length = l'.length)
    (h : ∀ p ∈ l.zip l', p.1 = p.2) : l = l' := by
  induction l generalizing l' with
  | nil => exact (List.length_eq_zero_iff.mp hlength.symm).symm
  | cons a l ih =>
    cases l' with
    | nil => cases hlength
    | cons b l' =>
      rw [List.zip_cons_cons, List.forall_mem_cons] at h
      exact congrArg₂ List.cons h.1 (ih (Nat.succ.inj hlength) h.2)

private theorem zip_self_same (l : List UInt8) : ∀ p ∈ l.zip l, p.1 = p.2 := by
  induction l with
  | nil => exact List.forall_mem_nil _
  | cons a l ih => exact List.forall_mem_cons.mpr ⟨rfl, ih⟩

/-- What is assumed of the digest: its size, and that no other text has the digest of the token. -/
structure Digest (sha256Hex : String → String) (token : String) : Prop where
  size : ∀ s, (utf8 (sha256Hex s)).length = 64
  injective : ∀ s, sha256Hex s = sha256Hex token → s = token

variable {sha256Hex : String → String} {token : String}

theorem Digest.ctEq_iff (h : Digest sha256Hex token) (credential : String) :
    ctEq sha256Hex credential token = true ↔ credential = token := by
  rw [ctEq, decide_eq_true_eq, foldl_xor_eq_zero]
  constructor
  · rintro ⟨_, hsame⟩
    exact h.injective _ (utf8_injective (zip_same ((h.size _).trans (h.size _).symm) hsame))
  · rintro rfl
    exact ⟨rfl, zip_self_same _⟩

/-! ## Requests -/

/-- A scheme, a space and a credential, the scheme being the one of a bearer token in any case. -/
def Bearer (value credential : String) : Prop :=
  ∃ scheme : String, value = scheme ++ " " ++ credential ∧ eqIgnoreAsciiCase scheme "Bearer" = true

private theorem bearer_letters {scheme : String} (h : eqIgnoreAsciiCase scheme "Bearer" = true)
    {c : Char}
    (hc : c ∈ scheme.toList) : c ≠ ' ' ∧ c.toNat < 128 := by
  have hlower : c.toLower ∈ "bearer".toList := by
    have hsame : scheme.toList.map Char.toLower = "bearer".toList := of_decide_eq_true h
    rw [← hsame]
    exact List.mem_map_of_mem hc
  have hletter : ∀ d ∈ "bearer".toList, d ≠ ' ' ∧ d.toNat < 128 := Text.forall_of_all (by decide)
  unfold Char.toLower at hlower
  split at hlower
  · next hupper =>
    refine ⟨fun heq => absurd hupper (by rw [heq]; decide), ?_⟩
    exact Nat.lt_of_le_of_lt (UInt32.le_iff_toNat_le.mp hupper.2) (by decide)
  · exact hletter c hlower

private theorem toList_bearer (scheme rest : String) :
    (scheme ++ " " ++ rest).toList = scheme.toList ++ ' ' :: rest.toList := by
  rw [String.toList_append, String.toList_append, List.append_assoc]
  rfl

private theorem bearerCredential_some {value credential : String} :
    bearerCredential value = some credential ↔
      ∃ rest, Bearer value rest ∧ Text.trim rest = credential ∧ credential ≠ "" := by
  unfold bearerCredential
  rw [Option.bind_eq_some_iff]
  constructor
  · rintro ⟨⟨scheme, rest⟩, hsplit, h⟩
    dsimp only at h
    split at h
    · cases h
    · next hgood =>
      rw [Bool.or_eq_true, not_or, Bool.not_eq_true', Bool.not_eq_false, decide_eq_true_eq] at hgood
      obtain rfl := Option.some.inj h
      refine ⟨rest, ⟨scheme, String.toList_inj.mp ?_, hgood.1⟩, rfl, hgood.2⟩
      rw [toList_bearer, (splitOnce_some.mp hsplit).1]
  · rintro ⟨rest, ⟨scheme, rfl, hscheme⟩, rfl, hne⟩
    refine ⟨(scheme, rest), splitOnce_some.mpr ⟨toList_bearer scheme rest, fun hmem =>
      (bearer_letters hscheme hmem).1 rfl⟩, ?_⟩
    dsimp only
    rw [hscheme, if_neg (by simpa using hne)]

/-- The value presents a token: the bearer scheme, a space and the token, with blanks around it. -/
def Presents (token : String) (v : HeaderValue) : Prop :=
  ∃ value rest, v.bytes = utf8 value ∧ Bearer value rest ∧ strip rest = strip token

/-- A server with a token lets a request in exactly if its header reads as a text whose credential,
without the white space around it, is the token. -/
private theorem authCheck_allow (hdigest : Digest sha256Hex token) (htoken : token ≠ "")
    (bind : String)
    (v : Option HeaderValue) :
    authCheck sha256Hex token bind v = .allow ↔ ∃ header value rest, v = some header ∧
      header.toStr = some value ∧ Bearer value rest ∧ Text.trim rest = token := by
  unfold authCheck authorize
  rw [if_pos htoken]
  constructor
  · intro h
    split at h
    · next credential hcredential =>
      split at h
      · next heq =>
        obtain rfl := (hdigest.ctEq_iff credential).mp heq
        obtain ⟨value, hvalue, hbearer⟩ := Option.bind_eq_some_iff.mp hcredential
        obtain ⟨header, rfl, hread⟩ := Option.bind_eq_some_iff.mp hvalue
        obtain ⟨rest, hrest, htrim, _⟩ := bearerCredential_some.mp hbearer
        exact ⟨header, value, rest, rfl, hread, hrest, htrim⟩
      · cases h
    · cases h
  · rintro ⟨header, value, rest, rfl, hread, hrest, htrim⟩
    have hcredential : bearerCredential value = some token :=
      bearerCredential_some.mpr ⟨rest, hrest, htrim, htoken⟩
    rw [Option.bind_some, hread, Option.bind_some, hcredential]
    exact if_pos ((hdigest.ctEq_iff token).mpr rfl)

/-! ## Tokens that can be presented -/

private theorem strip_strip (s : String) : strip (strip s) = strip s := by
  unfold strip
  rw [String.toList_ofList, Library.trimList_trimList]

private theorem mem_of_strip {s : String} {c : Char} (h : c ∈ (strip s).toList) : c ∈ s.toList := by
  unfold strip at h
  rw [String.toList_ofList] at h
  exact (Library.trimList_infix isBlank s.toList).subset h

/-- Around what is left of a text there were only blanks. -/
private theorem mem_strip_or_blank {s : String} {c : Char} (h : c ∈ s.toList) :
    c ∈ (strip s).toList ∨ isBlank c = true := by
  obtain ⟨before, after, hs, hbefore, hafter⟩ := Library.trimList_split isBlank s.toList
  rw [hs, List.mem_append, List.mem_append] at h
  rcases h with (h | h) | h
  · exact .inr (hbefore c h)
  · rw [strip, String.toList_ofList]
    exact .inl h
  · exact .inr (hafter c h)

theorem Bearer.mem {value rest : String} (h : Bearer value rest) {c : Char} (hc : c ∈ rest.toList) :
    c ∈ value.toList := by
  obtain ⟨scheme, rfl, _⟩ := h
  rw [toList_bearer]
  exact List.mem_append_right _ (List.mem_cons_of_mem _ hc)

theorem Bearer.unique {value rest rest' : String} (h : Bearer value rest)
    (h' : Bearer value rest') : rest = rest' := by
  obtain ⟨scheme, rfl, hscheme⟩ := h
  obtain ⟨scheme', hvalue, hscheme'⟩ := h'
  have hsplit : splitOnce ' ' (scheme ++ " " ++ rest) = some (scheme, rest) :=
    splitOnce_some.mpr ⟨toList_bearer _ _, fun hmem => (bearer_letters hscheme hmem).1 rfl⟩
  have hsplit' : splitOnce ' ' (scheme ++ " " ++ rest) = some (scheme', rest') :=
    splitOnce_some.mpr ⟨hvalue ▸ toList_bearer _ _,
      fun hmem => (bearer_letters hscheme' hmem).1 rfl⟩
  exact (Prod.mk.inj (Option.some.inj (hsplit.symm.trans hsplit'))).2

/-- The characters of a value in a header are ones that a header can hold. -/
private theorem sendable_of_bytes {header : HeaderValue} {value : String}
    (h : header.bytes = utf8 value)
    {c : Char} (hc : c ∈ value.toList) : Sendable c :=
  (sendable_iff c).mpr fun b hb => header.carried b (h ▸ List.mem_flatMap.mpr ⟨c, hc, hb⟩)

/-- Whoever is let in has presented the token. -/
private theorem presents_of_allow (hdigest : Digest sha256Hex token) (htoken : token ≠ "")
    {bind : String}
    {v : Option HeaderValue} (h : authCheck sha256Hex token bind v = .allow) :
    ∃ header, v = some header ∧ Presents token header := by
  obtain ⟨header, value, rest, rfl, hread, hrest, htrim⟩ :=
    (authCheck_allow hdigest htoken bind v).mp h
  obtain ⟨hbytes, hvisible⟩ := toStr_some.mp hread
  refine ⟨header, rfl, value, rest, hbytes, hrest, ?_⟩
  rw [← htrim, trim_of_visible fun c hc => hvisible c (hrest.mem hc), strip_strip]

/-- A token without blanks around it, in ASCII, or one with a character that no header can hold. -/
def Presentable (token : String) : Prop :=
  (strip token = token ∧ ∀ c ∈ token.toList, c.toNat < 128) ∨
    ∃ c ∈ (strip token).toList, ¬ Sendable c

private theorem allow_of_presents (hdigest : Digest sha256Hex token) (htoken : token ≠ "")
    {bind : String}
    {header : HeaderValue} (hgood : Presentable token) (h : Presents token header) :
    authCheck sha256Hex token bind (some header) = .allow := by
  obtain ⟨value, rest, hbytes, hrest, hstrip⟩ := h
  rcases hgood with ⟨hself, hascii⟩ | ⟨c, hc, hnot⟩
  · have hvisible : ∀ c ∈ value.toList, Visible c := by
      intro c hc
      have hsend := sendable_of_bytes hbytes hc
      have hlow : c.toNat < 128 := by
        obtain ⟨scheme, rfl, hscheme⟩ := hrest
        rw [toList_bearer, List.mem_append, List.mem_cons] at hc
        rcases hc with hc | rfl | hc
        · exact (bearer_letters hscheme hc).2
        · decide
        · rcases mem_strip_or_blank hc with hc | hc
          · rw [hstrip, hself] at hc
            exact hascii c hc
          · simp only [isBlank, Bool.or_eq_true, decide_eq_true_eq] at hc
            rcases hc with rfl | rfl <;> decide
      rcases hsend with rfl | ⟨hlo, hne⟩
      · exact .inl rfl
      · exact .inr ⟨hlo, by omega⟩
    refine (authCheck_allow hdigest htoken bind _).mpr
      ⟨header, value, rest, rfl, toStr_some.mpr ⟨hbytes, hvisible⟩, hrest, ?_⟩
    rw [trim_of_visible fun c hc => hvisible c (hrest.mem hc), hstrip, hself]
  · rw [← hstrip] at hc
    exact absurd (sendable_of_bytes hbytes (hrest.mem (mem_of_strip hc))) hnot

/-- If everyone who presents the token is let in, the token is one that can be presented. -/
private theorem presentable_of_allow (hdigest : Digest sha256Hex token) (htoken : token ≠ "")
    {bind : String} (h : ∀ header, Presents token header →
      authCheck sha256Hex token bind (some header) = .allow) : Presentable token := by
  by_cases hsend : ∃ c ∈ (strip token).toList, ¬ Sendable c
  · exact .inr hsend
  have hall : ∀ c ∈ ("Bearer" ++ " " ++ strip token).toList, Sendable c := by
    intro c hc
    rw [toList_bearer, List.mem_append, List.mem_cons] at hc
    rcases hc with hc | rfl | hc
    · have hletters : ∀ d ∈ "Bearer".toList, 32 ≤ d.toNat ∧ d.toNat ≠ 127 :=
        Text.forall_of_all (by decide)
      exact .inr (hletters c hc)
    · exact .inr (by decide)
    · by_contra hnot
      exact hsend ⟨c, hc, hnot⟩
  let header : HeaderValue := ⟨utf8 ("Bearer" ++ " " ++ strip token), fun b hb => by
    obtain ⟨c, hc, hbc⟩ := List.mem_flatMap.mp hb
    exact (sendable_iff c).mp (hall c hc) b hbc⟩
  have hbearer : Bearer ("Bearer" ++ " " ++ strip token) (strip token) := ⟨"Bearer", rfl, by decide⟩
  obtain ⟨header', value, rest, heq, hread, hrest, htrim⟩ :=
    (authCheck_allow hdigest htoken bind _).mp
      (h header ⟨_, strip token, rfl, hbearer, strip_strip token⟩)
  obtain rfl := Option.some.inj heq
  obtain ⟨hbytes, hvisible⟩ := toStr_some.mp hread
  obtain rfl : "Bearer" ++ " " ++ strip token = value := utf8_injective hbytes
  obtain rfl := hbearer.unique hrest
  have hstrip : ∀ c ∈ (strip token).toList, Visible c := fun c hc => hvisible c (hbearer.mem hc)
  rw [trim_of_visible hstrip, strip_strip] at htrim
  refine .inl ⟨htrim, fun c hc => ?_⟩
  rw [← htrim] at hc
  rcases hstrip c hc with rfl | ⟨_, hhigh⟩
  · decide
  · omega

/-- The checks of `validate` on the pair of bind and token. -/
def validateServer (server : ServerConfig) : Except Error Unit :=
  if !isLoopback server.bind then
    if server.token = "" then
      .error (.config ("binding to a non-loopback address (" ++ server.bind ++
        ") requires a token (set AGOS_MEMORY_TOKEN or server.token); refusing to start"))
    else if server.token.utf8ByteSize < 16 then
      .error (.config "server.token must be at least 16 characters")
    else .ok ()
  else .ok ()

/-- A check that was passed. -/
theorem passed {c : Prop} [Decidable c] {e : Error} {rest : Except Error Unit}
    (h : (if c then .error e else rest) = .ok ()) : ¬ c ∧ rest = .ok () := by
  by_cases hc : c
  · rw [if_pos hc] at h
    cases h
  · rw [if_neg hc] at h
    exact ⟨hc, h⟩

/-- Under settings that pass the other checks, those on the pair decide. -/
private theorem validate_eq {cfg : Config F} (h : cfg.validate = .ok ()) (server : ServerConfig) :
    ({ cfg with server } : Config F).validate = validateServer server := by
  unfold Config.validate at h ⊢
  dsimp only at h ⊢
  -- each other check passed for `cfg`, and reads nothing of the server
  iterate 9
    obtain ⟨hpassed, hrest⟩ := passed h
    rw [if_neg hpassed]
    clear h hpassed
    rename _ => h
  rfl

private theorem validateServer_iff (bind token : String) :
    validateServer ⟨bind, token⟩ = .ok () ↔ validateServerToken bind token = .ok () := by
  unfold validateServer validateServerToken
  dsimp only
  by_cases hloop : isLoopback bind = true
  · simp [hloop]
  · by_cases hempty : token = ""
    · subst hempty
      simp [hloop]
    · by_cases hshort : token.utf8ByteSize < 16 <;> simp [hloop, hempty, hshort]

/-- Under accepted settings, a server with a token lets in exactly the requests that present it if and
only if the token can be presented, a server without one serves only a loopback bind, and the two
startup checks accept the same pairs of bind and token. -/
theorem server_auth_exact (cfg : Config F) (hcfg : cfg.validate = .ok ())
    (hdigest : Digest sha256Hex cfg.server.token) :
    (cfg.server.token ≠ "" →
      ((∀ v, authCheck sha256Hex cfg.server.token cfg.server.bind v = .allow ↔
        ∃ header, v = some header ∧ Presents cfg.server.token header) ↔
      Presentable cfg.server.token)) ∧
    (cfg.server.token = "" → ∀ v,
      authCheck sha256Hex cfg.server.token cfg.server.bind v = .allow →
        isLoopback cfg.server.bind = true) ∧
    ∀ bind token : String, ({ cfg with server := ⟨bind, token⟩ } : Config F).validate = .ok () ↔
      validateServerToken bind token = .ok () := by
  refine ⟨fun htoken => ⟨fun h => ?_, fun hgood v => ⟨?_, ?_⟩⟩, fun hempty v h => ?_,
    fun bind token => ?_⟩
  · exact presentable_of_allow hdigest htoken fun header hpresents =>
      (h (some header)).mpr ⟨header, rfl, hpresents⟩
  · exact presents_of_allow hdigest htoken
  · rintro ⟨header, rfl, hpresents⟩
    exact allow_of_presents hdigest htoken hgood hpresents
  · unfold authCheck authorize at h
    rw [if_neg (not_not_intro hempty)] at h
    by_contra hloop
    rw [if_neg hloop] at h
    cases h
  · rw [validate_eq hcfg, validateServer_iff]

/-! ## A token with a blank at its end -/

def sampleConfig (token : String) : Config ℚ where
  dbPath := "agos.db"
  agentId := "default"
  session := ⟨30⟩
  memory := ⟨4 / 10, 92 / 100⟩
  «recall» := ⟨8, 1500, 35 / 100, ⟨4 / 10, 3 / 10, 2 / 10, 1 / 10⟩⟩
  server := ⟨"0.0.0.0:8710", token⟩

/-- The digest of a token, and one for all other texts. -/
def sampleSha256 (token text : String) : String :=
  if text = token then "1b136756f7d831d842f38fa0e3de109f1acce2e0e9dc28d4408a3554a3510469"
  else "e3b0c44298fc1c149afbf4c8996fb92427ae41e4649b934ca495991b7852b855"

private theorem digest_sample (token : String) : Digest (sampleSha256 token) token where
  size text := by
    unfold sampleSha256
    split <;> decide +kernel
  injective text h := by
    by_contra hne
    rw [sampleSha256, sampleSha256, if_neg hne, if_pos rfl] at h
    exact absurd h (by decide)

theorem server_auth_exact_sample :
    (sampleConfig "test-secret-token-1234").validate = .ok () ∧ ∀ v,
    authCheck (sampleSha256 "test-secret-token-1234") "test-secret-token-1234" "0.0.0.0:8710" v =
      .allow ↔ ∃ header, v = some header ∧ Presents "test-secret-token-1234" header := by
  have hvalid : (sampleConfig "test-secret-token-1234").validate = .ok () := by decide +kernel
  have hexact := server_auth_exact (sampleConfig "test-secret-token-1234") hvalid
    (digest_sample "test-secret-token-1234")
  refine ⟨hvalid, (hexact.1 (by decide)).mpr (.inl ⟨?_, ?_⟩)⟩
  · decide +kernel
  · exact Text.forall_of_all (by decide +kernel)

/-- A header that presents a token as `validate` accepts it is turned away: the credential is read
without the blank at its end, and the token is compared with it. -/
theorem padded_token_locked_out : ∃ header : HeaderValue,
    (sampleConfig "test-secret-token-1234 ").validate = .ok () ∧
    header.bytes = utf8 "Bearer test-secret-token-1234 " ∧
    Presents "test-secret-token-1234 " header ∧
    authCheck (sampleSha256 "test-secret-token-1234 ") "test-secret-token-1234 " "0.0.0.0:8710"
      (some header) = .reject "invalid token" := by
  refine ⟨⟨utf8 "Bearer test-secret-token-1234 ", by decide +kernel⟩, by decide +kernel, rfl,
    ⟨"Bearer test-secret-token-1234 ", "test-secret-token-1234 ", rfl, ⟨"Bearer", ?_, ?_⟩, rfl⟩, ?_⟩
  · decide
  · decide
  · decide +kernel

end AgosMemory.Server
