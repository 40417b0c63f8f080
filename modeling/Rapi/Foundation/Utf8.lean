import Rapi.Foundation.Bytes

/-!
# UTF-8 text in byte strings

A byte string need not be UTF-8.  The first byte of a rune says how many bytes
follow it and between which bounds the second one lies; all later bytes are
continuation bytes.  `toValidUTF8` is what a writer of Unicode text makes of a
byte string: each byte that starts no rune becomes U+FFFD.
-/

namespace Rapi.Foundation.Utf8

open Foundation

/-! ## Runes -/

/-- The number of bytes that follow a first byte, and the bounds of the second
byte. -/
def lead (b : UInt8) : Option (Nat × UInt8 × UInt8) :=
  if b < 0x80 then some (0, 0, 0)
  else if b < 0xC2 then none
  else if b < 0xE0 then some (1, 0x80, 0xBF)
  else if b = 0xE0 then some (2, 0xA0, 0xBF)
  else if b = 0xED then some (2, 0x80, 0x9F)
  else if b < 0xF0 then some (2, 0x80, 0xBF)
  else if b = 0xF0 then some (3, 0x90, 0xBF)
  else if b < 0xF4 then some (3, 0x80, 0xBF)
  else if b = 0xF4 then some (3, 0x80, 0x8F)
  else none

def isContinuation (b : UInt8) : Bool := 0x80 ≤ b && b ≤ 0xBF

/-- Do the bytes after a first byte complete the rune? -/
def completes (count : Nat) (low high : UInt8) : Bytes → Bool
  | [] => count == 0
  | second :: rest =>
    count == rest.length + 1 && low ≤ second && second ≤ high && rest.all isContinuation

/-- How many bytes the first rune takes after its first byte, if a rune starts
with `first`. -/
def following (first : UInt8) (rest : Bytes) : Option Nat :=
  match lead first with
  | none => none
  | some (count, low, high) =>
    if completes count low high (rest.take count) then some count else none

variable {count : Nat} {rest s : Bytes} {first : UInt8}

theorem length_of_completes {low high : UInt8}
    (h : completes count low high rest) : rest.length = count := by
  cases rest with
  | nil =>
    simp only [completes, beq_iff_eq] at h
    exact h.symm
  | cons second rest =>
    simp only [completes, Bool.and_eq_true, beq_iff_eq] at h
    exact h.1.1.1.symm

theorem le_length_of_following (h : following first rest = some count) : count ≤ rest.length := by
  unfold following at h
  split at h
  · cases h
  · split at h
    · rename_i hcompletes
      cases h
      have hlength := length_of_completes hcompletes
      rw [List.length_take] at hlength
      omega
    · cases h

theorem following_congr {rest' : Bytes} (h : following first rest = some count)
    (htake : rest'.take count = rest.take count) : following first rest' = some count := by
  unfold following at h ⊢
  split at h
  · cases h
  · split at h
    · rename_i hcompletes
      cases h
      simp only [htake, hcompletes, if_true]
    · cases h

/-! ## Valid strings -/

/-- Is the string valid once the first `skip` bytes, the rest of a rune, are
passed over? -/
def validAfter : Nat → Bytes → Bool
  | _, [] => true
  | skip + 1, _ :: rest => validAfter skip rest
  | 0, first :: rest =>
    match following first rest with
    | none => false
    | some count => validAfter count rest

def valid (s : Bytes) : Bool := validAfter 0 s

def runeError : Bytes := [0xEF, 0xBF, 0xBD]

/-- The first `skip` bytes are copied, being the rest of a rune. -/
def replaceAfter : Nat → Bytes → Bytes
  | _, [] => []
  | skip + 1, first :: rest => first :: replaceAfter skip rest
  | 0, first :: rest =>
    match following first rest with
    | none => runeError ++ replaceAfter 0 rest
    | some count => first :: replaceAfter count rest

def toValidUTF8 (s : Bytes) : Bytes := replaceAfter 0 s

theorem replaceAfter_of_valid {skip : Nat} (h : validAfter skip s) : replaceAfter skip s = s := by
  induction s generalizing skip with
  | nil => cases skip <;> rfl
  | cons first rest ih =>
    cases skip with
    | succ skip => rw [replaceAfter, ih h]
    | zero =>
      rw [validAfter] at h
      rw [replaceAfter]
      split at h
      · cases h
      · simp only [ih h]

theorem take_replaceAfter (h : count ≤ s.length) :
    (replaceAfter count s).take count = s.take count := by
  induction count generalizing s with
  | zero => rfl
  | succ count ih =>
    cases s with
    | nil => simp at h
    | cons first rest =>
      simp only [List.length_cons, Nat.add_le_add_iff_right] at h
      simp only [replaceAfter, List.take_succ_cons, ih h]

theorem validAfter_replaceAfter (skip : Nat) (s : Bytes) :
    validAfter skip (replaceAfter skip s) := by
  induction s generalizing skip with
  | nil => cases skip <;> rfl
  | cons first rest ih =>
    cases skip with
    | succ skip =>
      rw [replaceAfter, validAfter]
      exact ih skip
    | zero =>
      rw [replaceAfter]
      split
      · -- U+FFFD is a rune of three bytes, whatever comes after it.
        exact ih 0
      · rename_i count hfollowing
        -- The rune stays a rune: its other bytes are copied.
        have hkept := following_congr hfollowing
          (take_replaceAfter (le_length_of_following hfollowing))
        simp only [validAfter, hkept]
        exact ih count

theorem valid_toValidUTF8 (s : Bytes) : valid (toValidUTF8 s) := validAfter_replaceAfter 0 s

theorem toValidUTF8_of_valid (h : valid s) : toValidUTF8 s = s := replaceAfter_of_valid h

theorem toValidUTF8_eq_self : toValidUTF8 s = s ↔ valid s := by
  constructor
  · intro h
    rw [← h]
    exact valid_toValidUTF8 s
  · exact toValidUTF8_of_valid

theorem valid_ascii_cons (h : first < 0x80) (rest : Bytes) :
    valid (first :: rest) = valid rest := by
  have hlead : lead first = some (0, 0, 0) := if_pos h
  have hfollowing : following first rest = some 0 := by simp [following, hlead, completes]
  simp only [valid, validAfter, hfollowing]

end Rapi.Foundation.Utf8
