import Rapi.Foundation.FilePath

/-!
# File name globs

Patterns for one path element, as a shell reads them: `*` stands for any bytes
other than the separator, `?` for one character, `[...]` for one character of a
class, and a backslash takes the next byte literally.  Characters are decoded
from UTF-8; a byte that starts no valid encoding counts as a character.
-/

namespace Rapi.Foundation.Glob

open Foundation

/-! ## Characters -/

def runeError : Nat := 0xFFFD

def isContinuation (byte : UInt8) : Bool := 0x80 ≤ byte && byte ≤ 0xBF

/-- The range of the second byte, which excludes overlong forms and surrogates. -/
def isSecond (first second : UInt8) : Bool :=
  let low := if first = 0xE0 then 0xA0 else if first = 0xF0 then 0x90 else 0x80
  let high := if first = 0xED then 0x9F else if first = 0xF4 then 0x8F else 0xBF
  low ≤ second && second ≤ high

def lowBits (byte : UInt8) : Nat := byte.toNat % 64

/-- The first character of a byte string and the bytes after it. -/
def decodeRune : Bytes → Option (Nat × Bytes)
  | [] => none
  | first :: rest =>
    if first < 0x80 then some (first.toNat, rest)
    else if 0xC2 ≤ first && first ≤ 0xDF then
      match rest with
      | b₁ :: after =>
        if isContinuation b₁ then some (first.toNat % 32 * 64 + lowBits b₁, after)
        else some (runeError, rest)
      | _ => some (runeError, rest)
    else if 0xE0 ≤ first && first ≤ 0xEF then
      match rest with
      | b₁ :: b₂ :: after =>
        if isSecond first b₁ && isContinuation b₂ then
          some ((first.toNat % 16 * 64 + lowBits b₁) * 64 + lowBits b₂, after)
        else some (runeError, rest)
      | _ => some (runeError, rest)
    else if 0xF0 ≤ first && first ≤ 0xF4 then
      match rest with
      | b₁ :: b₂ :: b₃ :: after =>
        if isSecond first b₁ && isContinuation b₂ && isContinuation b₃ then
          some (((first.toNat % 8 * 64 + lowBits b₁) * 64 + lowBits b₂) * 64 + lowBits b₃, after)
        else some (runeError, rest)
      | _ => some (runeError, rest)
    else some (runeError, rest)

/-! ## Patterns -/

inductive Token
  | star
  | any
  | literal (byte : UInt8)
  | oneOf (negated : Bool) (ranges : List (Nat × Nat))
  deriving DecidableEq, Repr

def star : UInt8 := 42
def question : UInt8 := 63
def backslash : UInt8 := 92
def openBracket : UInt8 := 91
def closeBracket : UInt8 := 93
def caret : UInt8 := 94
def hyphen : UInt8 := 45

/-- One end of a range in a character class; something must follow it. -/
def classMember : Bytes → Option (Nat × Bytes)
  | [] => none
  | first :: rest =>
    if first = hyphen ∨ first = closeBracket then none
    else
      let text := if first = backslash then rest else first :: rest
      match decodeRune text with
      | none => none
      | some (rune, after) =>
        if after = [] ∨ rune = runeError ∧ after.length + 1 = text.length
        then none
        else some (rune, after)

def parseRanges : Nat → List (Nat × Nat) → Bytes → Option (List (Nat × Nat) × Bytes)
  | 0, _, _ => none
  | fuel + 1, ranges, text =>
    if ranges ≠ [] ∧ text.head? = some closeBracket then some (ranges, text.tail)
    else
      match classMember text with
      | none => none
      | some (low, rest) =>
        if rest.head? = some hyphen then
          match classMember rest.tail with
          | none => none
          | some (high, after) => parseRanges fuel (ranges ++ [(low, high)]) after
        else parseRanges fuel (ranges ++ [(low, low)]) rest

def parseTokens : Nat → Bytes → Option (List Token)
  | _, [] => some []
  | 0, _ :: _ => none
  | fuel + 1, byte :: rest =>
    if byte = star then (parseTokens fuel rest).map (.star :: ·)
    else if byte = question then (parseTokens fuel rest).map (.any :: ·)
    else if byte = backslash then
      match rest with
      | [] => none
      | escaped :: rest => (parseTokens fuel rest).map (.literal escaped :: ·)
    else if byte = openBracket then
      let negated := rest.head? = some caret
      let members := if negated then rest.tail else rest
      match parseRanges members.length [] members with
      | none => none
      | some (ranges, rest) => (parseTokens fuel rest).map (.oneOf negated ranges :: ·)
    else (parseTokens fuel rest).map (.literal byte :: ·)

def parse (pattern : Bytes) : Option (List Token) := parseTokens pattern.length pattern

/-! ## Matching -/

/-- Skip some bytes, none of which is the separator, and go on. -/
def matchStar (continues : Bytes → Bool) : Bytes → Bool
  | [] => continues []
  | byte :: rest =>
    continues (byte :: rest) || (byte != FilePath.separator && matchStar continues rest)

def matchTokens : List Token → Bytes → Bool
  | [], name => name.isEmpty
  | .star :: tokens, name => matchStar (matchTokens tokens) name
  | .any :: tokens, name =>
    match decodeRune name with
    | none => false
    | some (_, rest) => name.head? != some FilePath.separator && matchTokens tokens rest
  | .literal byte :: tokens, name =>
    match name with
    | [] => false
    | first :: rest => first == byte && matchTokens tokens rest
  | .oneOf negated ranges :: tokens, name =>
    match decodeRune name with
    | none => false
    | some (rune, rest) =>
      (ranges.any fun r => r.1 ≤ rune && rune ≤ r.2) != negated && matchTokens tokens rest

/-- Whether the name matches; nothing when the pattern is malformed. -/
def matches? (pattern name : Bytes) : Option Bool := (parse pattern).map (matchTokens · name)

def isSpecial (byte : UInt8) : Bool :=
  byte ∈ [backslash, openBracket, closeBracket, star, question]

theorem parseTokens_plain {pattern : Bytes} (hplain : ∀ byte ∈ pattern, isSpecial byte = false)
    {fuel : Nat} (hfuel : pattern.length ≤ fuel) :
    parseTokens fuel pattern = some (pattern.map .literal) := by
  induction pattern generalizing fuel with
  | nil => cases fuel <;> rfl
  | cons byte pattern ih =>
    cases fuel with
    | zero => simp at hfuel
    | succ fuel =>
      have hrest := ih (fun b hb => hplain b (by simp [hb])) (by simpa using hfuel)
      have hbyte := hplain byte (by simp)
      simp only [isSpecial, List.mem_cons, List.not_mem_nil, or_false,
        decide_eq_false_iff_not, not_or] at hbyte
      simp [parseTokens, hbyte, hrest]

theorem matchTokens_literals (pattern name : Bytes) :
    matchTokens (pattern.map .literal) name = (pattern == name) := by
  induction pattern generalizing name with
  | nil => cases name <;> rfl
  | cons byte pattern ih =>
    cases name with
    | nil => rfl
    | cons first name =>
      simp only [List.map_cons, matchTokens, ih, List.cons_beq_cons, Bool.beq_comm (a := first)]

theorem matches?_plain {pattern : Bytes} (hplain : ∀ byte ∈ pattern, isSpecial byte = false)
    (name : Bytes) : matches? pattern name = some (pattern == name) := by
  simp [matches?, parse, parseTokens_plain hplain le_rfl, matchTokens_literals]

theorem matches?_star (name : Bytes) :
    matches? [star] name = some (!name.contains FilePath.separator) := by
  have hparse : parse [star] = some [.star] := rfl
  have hmatch : matchTokens [.star] name = !name.contains FilePath.separator := by
    induction name with
    | nil => rfl
    | cons byte name ih =>
      simp only [matchTokens] at ih
      simp [matchTokens, matchStar, ih, bne, beq_eq_decide, eq_comm]
  simp [matches?, hparse, hmatch]

end Rapi.Foundation.Glob
