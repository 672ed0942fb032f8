import Mathlib.Data.List.Find
import Mathlib.Data.List.GetD
import Mathlib.Tactic.Common

/-!
# Bitmaps

One bit for each position, eight to a byte, the lowest first.
-/

namespace Library

abbrev Bitmap := List (BitVec 8)

namespace Bitmap

variable {b b' : Bitmap} {i j k n : Nat} {x : BitVec 8} {value : Bool}

/-- `1 << k` -/
def bit (k : Nat) : BitVec 8 := BitVec.ofNat 8 1 <<< k

def setBit (k : Nat) (value : Bool) (x : BitVec 8) : BitVec 8 :=
  if value then x ||| bit k else x &&& ~~~ bit k

def get (b : Bitmap) (i : Nat) : Bool := b.getD (i / 8) 0 >>> (i % 8) &&& 1 = 1

def set (b : Bitmap) (i : Nat) (value : Bool) : Bitmap := b.modify (i / 8) (setBit (i % 8) value)

def and (b b' : Bitmap) : Bitmap := List.zipWith (fun x y => x &&& y) b b'

/-- Room for `n` positions, none of them set. -/
def zero (n : Nat) : Bitmap := List.replicate (n / 8) 0

/-- The bits of a test, set one by one. -/
def fill (n : Nat) (f : Nat → Bool) : Bitmap :=
  (List.range n).foldl (fun b i => b.set i (f i)) (zero n)

/-- The first position from `base` on that is not set. Full bytes are skipped. -/
def firstClearFrom : Bitmap → Nat → Option Nat
  | [], _ => none
  | x :: b, base =>
    if x = 255 then firstClearFrom b (base + 8)
    else
      match (List.range 8).find? fun j => x >>> j &&& 1 = 0 with
      | some j => some (base + j)
      | none => firstClearFrom b (base + 8)

def firstClear (b : Bitmap) : Option Nat := firstClearFrom b 0

/-! ## Bits of a byte -/

theorem and_one_iff (x : BitVec 8) : x &&& 1 = 1 ↔ x.getLsbD 0 = true := by
  rw [show (1 : BitVec 8) = BitVec.ofNat 8 1 from rfl, BitVec.and_one_eq_setWidth_ofBool_getLsbD]
  cases x.getLsbD 0 <;> decide

theorem and_one_eq_zero_iff (x : BitVec 8) : x &&& 1 = 0 ↔ x.getLsbD 0 = false := by
  rw [show (1 : BitVec 8) = BitVec.ofNat 8 1 from rfl, BitVec.and_one_eq_setWidth_ofBool_getLsbD]
  cases x.getLsbD 0 <;> decide

theorem getLsbD_bit {l : Nat} (hl : l < 8) : (bit k).getLsbD l = decide (l = k) := by
  unfold bit
  rw [BitVec.getLsbD_shiftLeft, Bool.eq_iff_iff]
  simp [hl]
  omega

theorem getLsbD_setBit {l : Nat} (hl : l < 8) :
    (setBit k value x).getLsbD l = if l = k then value else x.getLsbD l := by
  unfold setBit
  cases value with
  | true =>
    rw [if_pos rfl, BitVec.getLsbD_or, getLsbD_bit hl]
    split <;> simp_all
  | false =>
    rw [if_neg Bool.false_ne_true, BitVec.getLsbD_and, BitVec.getLsbD_not, getLsbD_bit hl]
    split <;> simp_all

theorem eq_full_iff : x = 255 ↔ ∀ l < 8, x.getLsbD l = true := by
  have hfull : ∀ l < 8, (255 : BitVec 8).getLsbD l = true := by decide
  refine ⟨fun h => h ▸ hfull, fun h => BitVec.eq_of_getLsbD_eq fun l hl => ?_⟩
  rw [h l hl, hfull l hl]

/-! ## Reading and writing -/

theorem get_eq_getLsbD (b : Bitmap) (i : Nat) : b.get i = (b.getD (i / 8) 0).getLsbD (i % 8) := by
  unfold get
  rw [Bool.eq_iff_iff, decide_eq_true_iff, and_one_iff, BitVec.getLsbD_ushiftRight, Nat.add_zero]

@[simp] theorem length_set (b : Bitmap) (i : Nat) (value : Bool) :
    (b.set i value).length = b.length := List.length_modify _ _ _

@[simp] theorem length_zero (n : Nat) : (zero n).length = n / 8 := List.length_replicate

theorem getD_modify {f : BitVec 8 → BitVec 8} (hk : k < b.length) :
    (b.modify k f).getD j 0 = if k = j then f (b.getD j 0) else b.getD j 0 := by
  rw [List.getD_eq_getElem?_getD, List.getD_eq_getElem?_getD, List.getElem?_modify]
  split
  next h =>
    subst h
    rw [List.getElem?_eq_getElem hk]
    rfl
  next => cases b[j]? <;> rfl

theorem get_set (hi : i < 8 * b.length) :
    (b.set i value).get j = if j = i then value else b.get j := by
  have hj : j % 8 < 8 := Nat.mod_lt _ (by decide)
  rw [get_eq_getLsbD, get_eq_getLsbD, set, getD_modify (by omega)]
  by_cases hbyte : i / 8 = j / 8
  · rw [if_pos hbyte, getLsbD_setBit hj]
    exact if_congr (by omega) rfl rfl
  · rw [if_neg hbyte, if_neg (by omega)]

theorem get_zero : (zero n).get i = false := by
  rw [get_eq_getLsbD, zero]
  by_cases h : i / 8 < n / 8
  · rw [List.getD_eq_getElem _ _ (by simpa using h), List.getElem_replicate]
    exact BitVec.getLsbD_zero
  · rw [List.getD_eq_default _ _ (by simpa using h)]
    exact BitVec.getLsbD_zero

theorem get_foldl_set {f : Nat → Bool} (hn : n ≤ 8 * b.length) :
    let filled := (List.range n).foldl (fun b i => Bitmap.set b i (f i)) b
    filled.length = b.length ∧ ∀ j, Bitmap.get filled j = if j < n then f j else b.get j := by
  induction n with
  | zero => exact ⟨rfl, fun j => (if_neg (Nat.not_lt_zero j)).symm⟩
  | succ n ih =>
    obtain ⟨hlength, hget⟩ := ih (by omega)
    rw [List.range_succ, List.foldl_append]
    refine ⟨(length_set _ _ _).trans hlength, fun j => ?_⟩
    show Bitmap.get (Bitmap.set _ n (f n)) j = _
    rw [get_set (by rw [hlength]; omega), hget]
    by_cases hj : j = n
    · rw [if_pos hj, if_pos (by omega), hj]
    · rw [if_neg hj]
      exact if_congr (by omega) rfl rfl

theorem le_length_zero (hn : 8 ∣ n) : n ≤ 8 * (zero n).length := by
  rw [length_zero]
  omega

theorem length_fill {f : Nat → Bool} (hn : 8 ∣ n) : (fill n f).length = n / 8 :=
  (get_foldl_set (le_length_zero hn)).1.trans (length_zero n)

theorem get_fill {f : Nat → Bool} (hn : 8 ∣ n) (hi : i < n) : (fill n f).get i = f i :=
  ((get_foldl_set (le_length_zero hn)).2 i).trans (if_pos hi)

theorem get_and (h : b.length = b'.length) : (b.and b').get i = (b.get i && b'.get i) := by
  simp only [get_eq_getLsbD, and, List.getD_eq_getElem?_getD, List.getElem?_zipWith]
  by_cases hi : i / 8 < b.length
  · rw [List.getElem?_eq_getElem hi, List.getElem?_eq_getElem (h ▸ hi)]
    exact BitVec.getLsbD_and
  · rw [List.getElem?_eq_none (by omega), List.getElem?_eq_none (by omega)]
    exact (Bool.and_self _).symm

/-- No position past the end is set. -/
theorem get_of_length_le (h : 8 * b.length ≤ i) : b.get i = false := by
  rw [get_eq_getLsbD, List.getD_eq_default _ _ (by omega)]
  exact BitVec.getLsbD_zero

/-- All bytes are zero exactly if nothing is set. -/
theorem all_zero_iff : (b.all fun x => x = 0) ↔ ∀ i, b.get i = false := by
  rw [List.all_eq_true]
  constructor
  · intro h i
    rw [get_eq_getLsbD]
    by_cases hi : i / 8 < b.length
    · rw [List.getD_eq_getElem _ _ hi, of_decide_eq_true (h _ (List.getElem_mem hi))]
      exact BitVec.getLsbD_zero
    · rw [List.getD_eq_default _ _ (by omega)]
      exact BitVec.getLsbD_zero
  · intro h x hx
    obtain ⟨k, hk, rfl⟩ := List.getElem_of_mem hx
    refine decide_eq_true (BitVec.eq_of_getLsbD_eq fun l hl => ?_)
    have hbit := h (8 * k + l)
    rw [get_eq_getLsbD, Nat.mul_add_div (by decide), Nat.div_eq_of_lt hl, Nat.add_zero,
      Nat.mul_add_mod, Nat.mod_eq_of_lt hl, List.getD_eq_getElem _ _ hk] at hbit
    rw [hbit]
    exact BitVec.getLsbD_zero.symm

/-! ## The first free position -/

theorem get_cons (hi : i < 8) : Bitmap.get (x :: b) i = x.getLsbD i := by
  rw [get_eq_getLsbD, Nat.div_eq_of_lt hi, Nat.mod_eq_of_lt hi]
  rfl

theorem get_cons_add : Bitmap.get (x :: b) (i + 8) = b.get i := by
  rw [get_eq_getLsbD, get_eq_getLsbD, Nat.add_div_right _ (by decide), Nat.add_mod_right]
  rfl

theorem find_clear : ((List.range 8).find? fun j => x >>> j &&& 1 = 0) =
    (List.range 8).find? fun j => !x.getLsbD j := by
  congr 1
  funext j
  rw [Bool.eq_iff_iff, decide_eq_true_iff, and_one_eq_zero_iff, BitVec.getLsbD_ushiftRight,
    Nat.add_zero, Bool.not_eq_true']

theorem firstClearFrom_eq (b : Bitmap) (base : Nat) : firstClearFrom b base =
    ((List.range (8 * b.length)).find? fun i => !b.get i).map fun i => base + i := by
  induction b generalizing base with
  | nil => rfl
  | cons x b ih =>
    have hsplit : List.range (8 * (x :: b).length) =
        List.range 8 ++ (List.range (8 * b.length)).map fun i => i + 8 := by
      rw [List.length_cons, Nat.mul_succ, Nat.add_comm, List.range_add]
      congr 1
      exact List.map_congr_left fun i _ => Nat.add_comm _ _
    have hfirst : ((List.range 8).find? fun i => !Bitmap.get (x :: b) i) =
        (List.range 8).find? fun j => x >>> j &&& 1 = 0 := by
      rw [find_clear]
      exact List.find?_congr fun i hi => by rw [get_cons (List.mem_range.mp hi)]
    have hrest : (((List.range (8 * b.length)).map fun i => i + 8).find? fun i =>
          !Bitmap.get (x :: b) i) =
        ((List.range (8 * b.length)).find? fun i => !Bitmap.get b i).map fun i => i + 8 := by
      rw [List.find?_map]
      simp only [Function.comp_def, get_cons_add]
    rw [hsplit, List.find?_append, hfirst, hrest]
    have hlater : firstClearFrom b (base + 8) =
        (((List.range (8 * b.length)).find? fun i => !Bitmap.get b i).map fun i => i + 8).map
          fun i => base + i := by
      rw [ih, Option.map_map]
      congr 1
      funext i
      simp only [Function.comp_apply]
      omega
    unfold firstClearFrom
    by_cases hfull : x = 255
    · have hnone : ((List.range 8).find? fun j => x >>> j &&& 1 = 0) = none := by
        rw [find_clear, List.find?_eq_none]
        intro j hj
        rw [eq_full_iff.mp hfull j (List.mem_range.mp hj)]
        decide
      rw [if_pos hfull, hnone, Option.none_or, hlater]
    · rw [if_neg hfull]
      cases ((List.range 8).find? fun j => x >>> j &&& 1 = 0) with
      | some j => rfl
      | none => rw [Option.none_or, ← hlater]

/-- The search finds the least position that is not set. -/
theorem firstClear_eq (b : Bitmap) :
    b.firstClear = (List.range (8 * b.length)).find? fun i => !b.get i := by
  unfold firstClear
  rw [firstClearFrom_eq]
  simp only [Nat.zero_add, Option.map_id']

end Bitmap

end Library
