import Mathlib

/-!
# Byte strings and fixed-width little-endian numbers

Byte strings are lists of `UInt8`.  This file supplies the two operations that
every binary format here is built from: cutting a slice out of a byte string,
and reading or writing a number as a fixed number of little-endian bytes.
-/

namespace Rapi.Foundation

open List

abbrev Bytes := List UInt8

instance Bytes.lawfulBEq : LawfulBEq Bytes := inferInstance

/-- The conversion of an unsigned number to a signed one. -/
def int64 (n : Nat) : Int := if n < 2 ^ 63 then n else n - 2 ^ 64

def ascii (text : String) : Bytes := text.toList.map fun c => UInt8.ofNat c.toNat

/-! ## Slices -/

def slice {α : Type*} (list : List α) (offset length : Nat) : List α :=
  (list.drop offset).take length

variable {α : Type*} {offset length : Nat} {list : List α}

theorem slice_append_left {before after : List α} (h : offset + length ≤ before.length) :
    slice (before ++ after) offset length = slice before offset length := by
  unfold slice
  rw [drop_append_of_le_length (by omega)]
  rw [take_append_of_le_length (by simp; omega)]

theorem slice_append_middle (before middle after : List α) :
    slice (before ++ (middle ++ after)) before.length middle.length = middle := by
  simp [slice]

theorem slice_length (h : offset + length ≤ list.length) :
    (slice list offset length).length = length := by
  simp only [slice, length_take, length_drop]
  omega

theorem slice_to_end (h : offset + length = list.length) :
    slice list offset length = list.drop offset := by
  unfold slice
  rw [take_of_length_le]
  simp only [length_drop]
  omega

/-- The slice `list[start:]`; there is none if it is out of range. -/
def sliceFrom? {α : Type*} (list : List α) (start : Int) : Option (List α) :=
  if 0 ≤ start ∧ start ≤ list.length then some (list.drop start.toNat) else none

/-- The slice `list[:stop]`; there is none if it is out of range. -/
def sliceTo? {α : Type*} (list : List α) (stop : Int) : Option (List α) :=
  if 0 ≤ stop ∧ stop ≤ list.length then some (list.take stop.toNat) else none

theorem sliceFrom?_sub {n : Nat} (h : n ≤ list.length) :
    sliceFrom? list (list.length - n) = some (list.drop (list.length - n)) := by
  rw [sliceFrom?, if_pos (by omega)]
  congr 2
  omega

theorem sliceTo?_sub {n : Nat} (h : n ≤ list.length) :
    sliceTo? list (list.length - n) = some (list.take (list.length - n)) := by
  rw [sliceTo?, if_pos (by omega)]
  congr 2
  omega

/-! ## Little-endian numbers -/

/-- The low `8 * width` bits of `value`, least significant byte first. -/
def putUint : Nat → Nat → Bytes
  | 0, _ => []
  | width + 1, value => UInt8.ofNat value :: putUint width (value / 256)

/-- The number whose little-endian bytes are given. -/
def uintOf : Bytes → Nat
  | [] => 0
  | byte :: rest => byte.toNat + 256 * uintOf rest

@[simp] theorem length_putUint (width value : Nat) : (putUint width value).length = width := by
  induction width generalizing value with
  | zero => rfl
  | succ width ih => simp [putUint, ih]

theorem uintOf_putUint (width value : Nat) :
    uintOf (putUint width value) = value % 256 ^ width := by
  induction width generalizing value with
  | zero => simp [putUint, uintOf, Nat.mod_one]
  | succ width ih =>
    have hlow : (UInt8.ofNat value).toNat = value % 256 := UInt8.toNat_ofNat'
    have hpow : 256 ^ (width + 1) = 256 * 256 ^ width := by ring
    simp only [putUint, uintOf]
    rw [ih, hlow, hpow, Nat.mod_mul]

theorem uintOf_lt (bytes : Bytes) : uintOf bytes < 256 ^ bytes.length := by
  induction bytes with
  | nil => simp [uintOf]
  | cons byte rest ih =>
    have hbyte : byte.toNat < 256 := byte.toNat_lt
    have hpow : 256 ^ (rest.length + 1) = 256 * 256 ^ rest.length := by ring
    simp only [uintOf, length_cons]
    omega

theorem putUint_uintOf (bytes : Bytes) : putUint bytes.length (uintOf bytes) = bytes := by
  induction bytes with
  | nil => rfl
  | cons byte rest ih =>
    have hbyte : byte.toNat < 256 := byte.toNat_lt
    have hdiv : (byte.toNat + 256 * uintOf rest) / 256 = uintOf rest := by omega
    have hlow : UInt8.ofNat (byte.toNat + 256 * uintOf rest) = byte := by
      apply UInt8.toNat_inj.mp
      rw [UInt8.toNat_ofNat']
      omega
    simp only [length_cons, uintOf, putUint, hdiv, hlow, ih]

/-! ## Decimal numerals -/

def decimal (n : Nat) : Bytes := (Nat.toDigits 10 n).map fun c => UInt8.ofNat c.toNat

theorem toNat_mem_toDigits {n : Nat} {c : Char} (hc : c ∈ Nat.toDigits 10 n) :
    48 ≤ c.toNat ∧ c.toNat ≤ 57 := by
  have hdigit := Nat.isDigit_of_mem_toDigits (by omega) (by omega) hc
  simp only [Char.isDigit, Bool.and_eq_true, decide_eq_true_eq] at hdigit
  exact ⟨UInt32.le_iff_toNat_le.mp hdigit.1, UInt32.le_iff_toNat_le.mp hdigit.2⟩

theorem map_decimal (n : Nat) :
    (decimal n).map (fun b => Char.ofNat b.toNat) = Nat.toDigits 10 n := by
  rw [decimal, map_map]
  conv_rhs => rw [← map_id (Nat.toDigits 10 n)]
  apply map_congr_left
  intro c hc
  have hsmall := toNat_mem_toDigits hc
  simp [Nat.mod_eq_of_lt (by omega : c.toNat < 256)]

theorem decimal_injective : Function.Injective decimal := by
  intro first second h
  rw [← Nat.ofDigitChars_ten_toDigits (n := first), ← map_decimal, h, map_decimal,
    Nat.ofDigitChars_ten_toDigits]

/-! ## Hexadecimal digits -/

def hexDigit (n : Nat) : UInt8 := UInt8.ofNat (if n < 10 then 48 + n else 87 + n)

def hexOf (data : Bytes) : Bytes :=
  data.flatMap fun b => [hexDigit (b.toNat / 16), hexDigit (b.toNat % 16)]

theorem length_hexOf (data : Bytes) : (hexOf data).length = 2 * data.length := by
  induction data with
  | nil => rfl
  | cons b rest ih =>
    have hrest : (hexOf (b :: rest)).length = 2 + (hexOf rest).length := by
      rw [hexOf, flatMap_cons, length_append]
      rfl
    rw [hrest, ih, length_cons]
    omega

end Rapi.Foundation
