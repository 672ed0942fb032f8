import Mathlib.Data.List.Infix
import Mathlib.Tactic.Common

/-!
# Leftmost-first regular expressions

The fragment has single-character classes, their repetitions, sequencing, ordered choice and one
capture group. `matchesAt` lists the matches at a position in the order a backtracking engine tries
them, so the head of the list is the leftmost-first match.
-/

namespace Library

/-- Patterns over an alphabet. A repetition ranges over one character class. -/
inductive Regex (α : Type) where
  | eps
  | one (p : α → Bool)
  | reps (greedy : Bool) (least : Nat) (p : α → Bool)
  | seq (r t : Regex α)
  | alt (r t : Regex α)
  | group (r : Regex α)

namespace Regex

variable {α β : Type}

/-- What one match consumed, what it left, and the text of the capture group. -/
structure Match (α : Type) where
  text : List α
  rest : List α
  group : Option (List α) := none

/-- The ways to repeat a class, longest first when greedy and shortest first when lazy. -/
def star (greedy : Bool) (p : α → Bool) : List α → List (List α × List α)
  | [] => [([], [])]
  | c :: s =>
    if p c then
      let longer := (star greedy p s).map fun m => (c :: m.1, m.2)
      if greedy then longer ++ [([], c :: s)] else ([], c :: s) :: longer
    else [([], c :: s)]

def repeated (greedy : Bool) (p : α → Bool) : Nat → List α → List (List α × List α)
  | 0, s => star greedy p s
  | _ + 1, [] => []
  | n + 1, c :: s =>
    if p c then (repeated greedy p n s).map fun m => (c :: m.1, m.2) else []

/-- All matches starting exactly here, in the order of preference of the engine. -/
def matchesAt : Regex α → List α → List (Match α)
  | eps, s => [⟨[], s, none⟩]
  | one _, [] => []
  | one p, c :: s => if p c then [⟨[c], s, none⟩] else []
  | reps greedy n p, s => (repeated greedy p n s).map fun m => ⟨m.1, m.2, none⟩
  | seq r t, s => (matchesAt r s).flatMap fun m =>
      (matchesAt t m.rest).map fun k => ⟨m.text ++ k.text, k.rest, k.group <|> m.group⟩
  | alt r t, s => matchesAt r s ++ matchesAt t s
  | group r, s => (matchesAt r s).map fun m => { m with group := some m.text }

/-- The leftmost-first match at this position. -/
def matchHere (r : Regex α) (s : List α) : Option (Match α) := (matchesAt r s).head?

/-- The texts a pattern accepts, without any preference among them. -/
def Lang : Regex α → List α → Prop
  | eps, w => w = []
  | one p, w => ∃ c, p c = true ∧ w = [c]
  | reps _ n p, w => n ≤ w.length ∧ ∀ c ∈ w, p c = true
  | seq r t, w => ∃ u v, w = u ++ v ∧ Lang r u ∧ Lang t v
  | alt r t, w => Lang r w ∨ Lang t w
  | group r, w => Lang r w

theorem mem_star {greedy : Bool} {p : α → Bool} {s u v : List α} :
    (u, v) ∈ star greedy p s ↔ s = u ++ v ∧ ∀ c ∈ u, p c = true := by
  induction s generalizing u with
  | nil =>
    simp only [star, List.mem_singleton, Prod.mk.injEq]
    constructor
    · rintro ⟨rfl, rfl⟩; simp
    · rintro ⟨h, _⟩; simpa using h.symm
  | cons c s ih =>
    have hlonger : (u, v) ∈ (star greedy p s).map (fun m => (c :: m.1, m.2)) ↔
        ∃ u', u = c :: u' ∧ s = u' ++ v ∧ ∀ d ∈ u', p d = true := by
      simp only [List.mem_map, Prod.mk.injEq, Prod.exists]
      constructor
      · rintro ⟨a, b, hm, rfl, rfl⟩
        exact ⟨a, rfl, ih.mp hm⟩
      · rintro ⟨u', rfl, h⟩
        exact ⟨u', v, ih.mpr h, rfl, rfl⟩
    by_cases hp : p c = true
    · have hsplit : (u, v) ∈ star greedy p (c :: s) ↔
          (u = [] ∧ v = c :: s) ∨ ∃ u', u = c :: u' ∧ s = u' ++ v ∧ ∀ d ∈ u', p d = true := by
        cases greedy with
        | false =>
          simp only [star, hp, if_true, Bool.false_eq_true, if_false, List.mem_cons,
            Prod.mk.injEq, hlonger]
        | true =>
          simp only [star, hp, if_true, List.mem_append, List.mem_singleton, Prod.mk.injEq,
            hlonger]
          exact or_comm
      rw [hsplit]
      constructor
      · rintro (⟨rfl, rfl⟩ | ⟨u', rfl, rfl, h⟩)
        · simp
        · exact ⟨rfl, by simpa [hp] using h⟩
      · rintro ⟨h, hall⟩
        cases u with
        | nil => exact Or.inl ⟨rfl, h.symm⟩
        | cons d u' =>
          obtain ⟨rfl, rfl⟩ := List.cons.inj h
          exact Or.inr ⟨u', rfl, rfl, fun e he => hall e (List.mem_cons_of_mem _ he)⟩
    · simp only [star, hp, Bool.false_eq_true, if_false, List.mem_singleton, Prod.mk.injEq]
      constructor
      · rintro ⟨rfl, rfl⟩; simp
      · rintro ⟨h, hall⟩
        cases u with
        | nil => exact ⟨rfl, h.symm⟩
        | cons d u' =>
          obtain ⟨rfl, _⟩ := List.cons.inj h
          exact absurd (hall c (List.mem_cons_self)) hp

theorem mem_repeated {greedy : Bool} {p : α → Bool} {n : Nat} {s u v : List α} :
    (u, v) ∈ repeated greedy p n s ↔ s = u ++ v ∧ n ≤ u.length ∧ ∀ c ∈ u, p c = true := by
  induction n generalizing s u with
  | zero => simp [repeated, mem_star]
  | succ n ih =>
    cases s with
    | nil =>
      simp only [repeated, List.not_mem_nil, false_iff]
      rintro ⟨h, hn, _⟩
      have : u = [] := (List.append_eq_nil_iff.mp h.symm).1
      simp [this] at hn
    | cons c s =>
      by_cases hp : p c = true
      · simp only [repeated, hp, if_true, List.mem_map, Prod.mk.injEq, Prod.exists]
        constructor
        · rintro ⟨a, b, hm, rfl, rfl⟩
          obtain ⟨rfl, hn, hall⟩ := ih.mp hm
          exact ⟨rfl, by simpa using hn, by simpa [hp] using hall⟩
        · rintro ⟨h, hn, hall⟩
          cases u with
          | nil => simp at hn
          | cons d u' =>
            obtain ⟨rfl, rfl⟩ := List.cons.inj h
            exact ⟨u', v, ih.mpr ⟨rfl, by simpa using hn,
              fun e he => hall e (List.mem_cons_of_mem _ he)⟩, rfl, rfl⟩
      · simp only [repeated, hp, Bool.false_eq_true, if_false, List.not_mem_nil, false_iff]
        rintro ⟨h, hn, hall⟩
        cases u with
        | nil => simp at hn
        | cons d u' =>
          obtain ⟨rfl, _⟩ := List.cons.inj h
          exact hp (hall c (List.mem_cons_self))

/-- A match splits the text, and the part it takes is a word of the pattern. -/
theorem matchesAt_sound {r : Regex α} {s : List α} {m : Match α} (h : m ∈ matchesAt r s) :
    s = m.text ++ m.rest ∧ Lang r m.text := by
  induction r generalizing s m with
  | eps =>
    simp only [matchesAt, List.mem_singleton] at h
    subst h
    exact ⟨rfl, rfl⟩
  | one p =>
    cases s with
    | nil => simp [matchesAt] at h
    | cons c s =>
      by_cases hp : p c = true
      · simp only [matchesAt, hp, if_true, List.mem_singleton] at h
        subst h
        exact ⟨rfl, c, hp, rfl⟩
      · simp [matchesAt, hp] at h
  | reps greedy n p =>
    simp only [matchesAt, List.mem_map, Prod.exists] at h
    obtain ⟨u, v, hm, rfl⟩ := h
    obtain ⟨hs, hn, hall⟩ := mem_repeated.mp hm
    exact ⟨hs, hn, hall⟩
  | seq r t ihr iht =>
    simp only [matchesAt, List.mem_flatMap, List.mem_map] at h
    obtain ⟨a, ha, k, hk, rfl⟩ := h
    obtain ⟨hs, hla⟩ := ihr ha
    obtain ⟨hr, hlk⟩ := iht hk
    exact ⟨by simp [hs, hr], a.text, k.text, rfl, hla, hlk⟩
  | alt r t ihr iht =>
    simp only [matchesAt, List.mem_append] at h
    rcases h with h | h
    · exact ⟨(ihr h).1, Or.inl (ihr h).2⟩
    · exact ⟨(iht h).1, Or.inr (iht h).2⟩
  | group r ih =>
    simp only [matchesAt, List.mem_map] at h
    obtain ⟨a, ha, rfl⟩ := h
    exact ⟨(ih ha).1, (ih ha).2⟩

/-- Every word that begins the text is the text of some match. -/
theorem matchesAt_complete {r : Regex α} {u v : List α} (h : Lang r u) :
    ∃ m ∈ matchesAt r (u ++ v), m.text = u ∧ m.rest = v := by
  induction r generalizing u v with
  | eps =>
    have hu : u = [] := h
    subst hu
    exact ⟨_, List.mem_singleton_self _, rfl, rfl⟩
  | one p =>
    obtain ⟨c, hp, rfl⟩ := h
    exact ⟨⟨[c], v, none⟩, by simp [matchesAt, hp], rfl, rfl⟩
  | reps greedy n p =>
    exact ⟨⟨u, v, none⟩, List.mem_map.mpr ⟨(u, v), mem_repeated.mpr ⟨rfl, h⟩, rfl⟩, rfl, rfl⟩
  | seq r t ihr iht =>
    obtain ⟨a, b, rfl, ha, hb⟩ := h
    obtain ⟨m, hm, htm, hrm⟩ := ihr (v := b ++ v) ha
    obtain ⟨k, hk, htk, hrk⟩ := iht (v := v) hb
    refine ⟨⟨m.text ++ k.text, k.rest, k.group <|> m.group⟩, ?_, by rw [htm, htk], hrk⟩
    simp only [matchesAt, List.mem_flatMap, List.mem_map]
    exact ⟨m, by simpa using hm, k, by rw [hrm]; exact hk, rfl⟩
  | alt r t ihr iht =>
    rcases h with h | h
    · obtain ⟨m, hm, hw⟩ := ihr (v := v) h
      exact ⟨m, List.mem_append_left _ hm, hw⟩
    · obtain ⟨m, hm, hw⟩ := iht (v := v) h
      exact ⟨m, List.mem_append_right _ hm, hw⟩
  | group r ih =>
    obtain ⟨m, hm, ht, hr⟩ := ih (v := v) h
    exact ⟨{ m with group := some m.text }, List.mem_map.mpr ⟨m, hm, rfl⟩, ht, hr⟩

theorem matchHere_sound {r : Regex α} {s : List α} {m : Match α} (h : matchHere r s = some m) :
    s = m.text ++ m.rest ∧ Lang r m.text :=
  matchesAt_sound (List.mem_of_mem_head? h)

theorem matchHere_eq_none {r : Regex α} {s : List α} :
    matchHere r s = none ↔ ∀ w, w <+: s → ¬ Lang r w := by
  unfold matchHere
  rw [List.head?_eq_none_iff]
  constructor
  · rintro h w ⟨v, rfl⟩ hw
    obtain ⟨m, hm, _⟩ := matchesAt_complete (v := v) hw
    rw [h] at hm
    exact List.not_mem_nil hm
  · intro h
    apply List.eq_nil_iff_forall_not_mem.mpr
    intro m hm
    obtain ⟨hs, hw⟩ := matchesAt_sound hm
    exact h m.text ⟨m.rest, hs.symm⟩ hw

theorem matchHere_of_lang {r : Regex α} {s w : List α} (hp : w <+: s) (hw : Lang r w) :
    ∃ m, matchHere r s = some m := by
  cases h : matchHere r s with
  | some m => exact ⟨m, rfl⟩
  | none => exact absurd hw (matchHere_eq_none.mp h w hp)

/-- The first match of a sequence starts with some match of the left part and continues with the
first match of the right part. -/
theorem matchHere_seq_inv {r t : Regex α} {s : List α} {m : Match α}
    (h : matchHere (seq r t) s = some m) :
    ∃ a ∈ matchesAt r s, ∃ k, matchHere t a.rest = some k ∧
      m = ⟨a.text ++ k.text, k.rest, k.group <|> a.group⟩ := by
  unfold matchHere at h ⊢
  simp only [matchesAt] at h
  revert h
  induction matchesAt r s with
  | nil => intro h; cases h
  | cons a as ih =>
    intro h
    rw [List.flatMap_cons] at h
    cases hk : matchesAt t a.rest with
    | nil =>
      rw [hk, List.map_nil, List.nil_append] at h
      obtain ⟨a', ha', k, hk', hm⟩ := ih h
      exact ⟨a', List.mem_cons_of_mem _ ha', k, hk', hm⟩
    | cons k ks =>
      rw [hk, List.map_cons, List.cons_append, List.head?_cons] at h
      exact ⟨a, List.mem_cons_self, k, by rw [hk]; rfl, (Option.some.inj h).symm⟩

theorem mem_matchesAt_seq {r t : Regex α} {s : List α} {m : Match α} :
    m ∈ matchesAt (seq r t) s ↔ ∃ a ∈ matchesAt r s, ∃ k ∈ matchesAt t a.rest,
      m = ⟨a.text ++ k.text, k.rest, k.group <|> a.group⟩ := by
  simp only [matchesAt, List.mem_flatMap, List.mem_map, eq_comm]

/-- Whether a pattern has a capture group. -/
def captures : Regex α → Bool
  | eps | one _ | reps _ _ _ => false
  | seq r t | alt r t => captures r || captures t
  | group _ => true

theorem group_eq_none {r : Regex α} (hr : captures r = false) {s : List α} {m : Match α}
    (h : m ∈ matchesAt r s) : m.group = none := by
  induction r generalizing s m with
  | eps => simp only [matchesAt, List.mem_singleton] at h; rw [h]
  | one p =>
    cases s with
    | nil => cases h
    | cons c s =>
      simp only [matchesAt] at h
      split at h
      · rw [List.mem_singleton.mp h]
      · cases h
  | reps greedy n p =>
    obtain ⟨_, _, rfl⟩ := List.mem_map.mp h
    rfl
  | seq r t ihr iht =>
    simp only [captures, Bool.or_eq_false_iff] at hr
    obtain ⟨a, ha, k, hk, rfl⟩ := mem_matchesAt_seq.mp h
    simp [ihr hr.1 ha, iht hr.2 hk]
  | alt r t ihr iht =>
    simp only [captures, Bool.or_eq_false_iff] at hr
    rcases List.mem_append.mp h with h | h
    · exact ihr hr.1 h
    · exact iht hr.2 h
  | group r _ => cases hr

theorem star_greedy_head? (p : α → Bool) (s : List α) :
    (star true p s).head? = some (s.takeWhile p, s.dropWhile p) := by
  induction s with
  | nil => rfl
  | cons c s ih =>
    by_cases hp : p c = true
    · simp [star, hp, List.head?_append, ih]
    · simp [star, hp]

/-- A greedy repetition stops at the end of the text or at a character outside its class. -/
theorem matchHere_greedy_rest {n : Nat} {p : α → Bool} {s : List α} {m : Match α}
    (h : matchHere (reps true n p) s = some m) : ∀ c ∈ m.rest.head?, p c = false := by
  unfold matchHere at h
  simp only [matchesAt, List.head?_map, Option.map_eq_some_iff] at h
  obtain ⟨⟨u, v⟩, huv, rfl⟩ := h
  induction n generalizing s u with
  | zero =>
    rw [repeated, star_greedy_head?] at huv
    obtain ⟨_, rfl⟩ := Prod.mk.inj (Option.some.inj huv)
    intro c hc
    have := List.head?_dropWhile_not p s
    rw [hc] at this
    simpa using this
  | succ n ih =>
    cases s with
    | nil => cases huv
    | cons c s =>
      rw [repeated] at huv
      split at huv
      · rw [List.head?_map, Option.map_eq_some_iff] at huv
        obtain ⟨⟨u', v'⟩, huv, heq⟩ := huv
        obtain ⟨rfl, rfl⟩ := Prod.mk.inj heq
        exact ih u' huv
      · cases huv

/-- What a group captures is a part of the match. -/
theorem infix_of_group {r : Regex α} {s g : List α} {m : Match α} (h : m ∈ matchesAt r s)
    (hg : m.group = some g) : g <:+: m.text := by
  induction r generalizing s m with
  | eps =>
    rw [List.mem_singleton.mp h] at hg
    cases hg
  | one p =>
    cases s with
    | nil => cases h
    | cons c s =>
      simp only [matchesAt] at h
      split at h
      · rw [List.mem_singleton.mp h] at hg
        cases hg
      · cases h
  | reps greedy n p =>
    obtain ⟨_, _, rfl⟩ := List.mem_map.mp h
    cases hg
  | seq r t ihr iht =>
    obtain ⟨a, ha, k, hk, rfl⟩ := mem_matchesAt_seq.mp h
    cases hgroup : k.group with
    | some g' =>
      obtain rfl : g' = g := by simpa [hgroup] using hg
      exact (iht hk hgroup).trans (List.suffix_append _ _).isInfix
    | none =>
      have hfirst : a.group = some g := by simpa [hgroup] using hg
      exact (ihr ha hfirst).trans (List.prefix_append _ _).isInfix
  | alt r t ihr iht =>
    rcases List.mem_append.mp h with h | h
    · exact ihr h hg
    · exact iht h hg
  | group r _ =>
    obtain ⟨m', _, rfl⟩ := List.mem_map.mp h
    rw [← Option.some.inj hg]

/-! ## Reading through a projection -/

/-- The pattern on another alphabet, read through `f`. -/
def comap (f : β → α) : Regex α → Regex β
  | eps => eps
  | one p => one (p ∘ f)
  | reps greedy n p => reps greedy n (p ∘ f)
  | seq r t => seq (comap f r) (comap f t)
  | alt r t => alt (comap f r) (comap f t)
  | group r => group (comap f r)

def Match.map (f : β → α) (m : Match β) : Match α :=
  ⟨m.text.map f, m.rest.map f, m.group.map (List.map f)⟩

theorem star_comap (f : β → α) (greedy : Bool) (p : α → Bool) (s : List β) :
    star greedy p (s.map f) =
      (star greedy (p ∘ f) s).map fun m => (m.1.map f, m.2.map f) := by
  induction s with
  | nil => rfl
  | cons c s ih =>
    by_cases hp : p (f c) = true
    · cases greedy <;> simp [star, hp, ih, Function.comp_def]
    · simp [star, hp]

theorem repeated_comap (f : β → α) (greedy : Bool) (p : α → Bool) (n : Nat) (s : List β) :
    repeated greedy p n (s.map f) =
      (repeated greedy (p ∘ f) n s).map fun m => (m.1.map f, m.2.map f) := by
  induction n generalizing s with
  | zero => exact star_comap f greedy p s
  | succ n ih =>
    cases s with
    | nil => rfl
    | cons c s =>
      by_cases hp : p (f c) = true
      · simp [repeated, hp, ih, Function.comp_def]
      · simp [repeated, hp]

/-- Matching commutes with the projection. -/
theorem matchesAt_comap (f : β → α) (r : Regex α) (s : List β) :
    matchesAt r (s.map f) = (matchesAt (r.comap f) s).map (Match.map f) := by
  induction r generalizing s with
  | eps => rfl
  | one p =>
    cases s with
    | nil => rfl
    | cons c s => by_cases hp : p (f c) = true <;> simp [matchesAt, comap, hp, Match.map]
  | reps greedy n p =>
    simp only [matchesAt, comap, repeated_comap, List.map_map]
    rfl
  | seq r t ihr iht =>
    simp only [matchesAt, comap, ihr, List.flatMap_map, List.map_flatMap, List.map_map]
    congr 1
    funext m
    simp only [Match.map, iht, List.map_map]
    congr 1
    funext k
    cases hk : k.group <;> simp [Match.map, hk]
  | alt r t ihr iht => simp only [matchesAt, comap, ihr, iht, List.map_append]
  | group r ih =>
    simp only [matchesAt, comap, ih, List.map_map]
    rfl

theorem lang_comap (f : β → α) {r : Regex α} {w : List β} :
    Lang (r.comap f) w ↔ Lang r (w.map f) := by
  induction r generalizing w with
  | eps => exact List.map_eq_nil_iff.symm
  | one p =>
    constructor
    · rintro ⟨c, hc, rfl⟩
      exact ⟨f c, hc, rfl⟩
    · rintro ⟨c, hc, hw⟩
      obtain ⟨d, rfl, rfl⟩ := List.map_eq_singleton_iff.mp hw
      exact ⟨d, hc, rfl⟩
  | reps greedy n p =>
    simp only [comap, Lang, List.length_map, List.forall_mem_map, Function.comp_apply]
  | seq r t ihr iht =>
    constructor
    · rintro ⟨u, v, rfl, hu, hv⟩
      exact ⟨u.map f, v.map f, List.map_append, ihr.mp hu, iht.mp hv⟩
    · rintro ⟨u, v, hw, hu, hv⟩
      obtain ⟨u', v', rfl, rfl, rfl⟩ := List.map_eq_append_iff.mp hw
      exact ⟨u', v', rfl, ihr.mpr hu, iht.mpr hv⟩
  | alt r t ihr iht => exact or_congr ihr iht
  | group r ih => exact ih

theorem matchHere_comap (f : β → α) (r : Regex α) (s : List β) :
    matchHere r (s.map f) = (matchHere (r.comap f) s).map (Match.map f) := by
  rw [matchHere, matchesAt_comap, List.head?_map, matchHere]

end Regex

end Library
