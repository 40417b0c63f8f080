import Rapi.Foundation.Glob

/-!
# Matching paths against filter patterns

A pattern is split into parts, one for each path component.  `match` looks for
a place in the path where the parts fit one by one.  A part `**` is replaced by
`i` parts `*` for growing `i` before that, the first `**` of the pattern first.
-/

namespace Rapi.Filter

open Foundation
open Foundation.FilePath (separator)

inductive Error
  | badString
  | badPattern
  deriving DecidableEq, Repr

/-- The first pattern is `/` for an absolute pattern; `**` becomes empty. -/
structure PatternPart where
  pattern : Bytes
  isSimple : Bool
  deriving DecidableEq, Repr

structure Pattern where
  parts : List PatternPart
  isNegated : Bool
  deriving DecidableEq, Repr

def rootMarker : Bytes := [separator]

def doubleWildcard : Bytes := ascii "**"

def splitPath (p : Bytes) : List Bytes :=
  match p.splitOn separator with
  | [] :: rest => rootMarker :: rest
  | parts => parts

def prepareStr (str : Bytes) : Except Error (List Bytes) :=
  if str = [] then .error .badString else .ok (splitPath str)

def preparePart (part : Bytes) : PatternPart where
  pattern := if part = doubleWildcard then [] else part
  isSimple := !part.any Glob.isSpecial

def preparePattern (patternStr : Bytes) : Pattern :=
  let negate := patternStr.head? == some 33
  let patternStr := if negate then patternStr.tail else patternStr
  { parts := (splitPath (FilePath.clean patternStr)).map preparePart
    isNegated := negate }

def PatternPart.isWild (part : PatternPart) : Bool := part.pattern == []

def hasDoubleWildcard (parts : List PatternPart) : Option Nat := parts.findIdx? PatternPart.isWild

def filepathMatch (pattern name : Bytes) : Except Error Bool :=
  match Glob.matches? pattern name with
  | none => .error .badPattern
  | some matched => .ok matched

def matchPart (part : PatternPart) (str : Bytes) : Except Error Bool :=
  if part.isSimple then .ok (part.pattern == str)
  else filepathMatch part.pattern str

def isAbsolute (parts : List PatternPart) : Bool :=
  match parts with
  | [] => false
  | part :: _ => part.pattern == rootMarker

/-- The offsets that `match` tries, in this order. -/
def offsets (parts : List PatternPart) (strs : List Bytes) : List Nat :=
  if strs.length < parts.length then []
  else
    let maxOffset := if isAbsolute parts then 0 else strs.length - parts.length
    let minOffset := if !isAbsolute parts && strs.head? == some rootMarker then 1 else 0
    (List.range' minOffset (maxOffset + 1 - minOffset)).reverse

/-- Compare at one offset, the last part first. -/
def matchAt (parts : List PatternPart) (strs : List Bytes) (offset : Nat) : Except Error Bool :=
  (parts.zip (strs.drop offset)).reverse.allM fun pair => matchPart pair.1 pair.2

def matchStatic (parts : List PatternPart) (strs : List Bytes) : Except Error Bool :=
  if parts = [] then .ok (strs == [])
  else (offsets parts strs).anyM (matchAt parts strs)

def wildcard : PatternPart where
  pattern := [Glob.star]
  isSimple := false

def expandAt (parts : List PatternPart) (pos i : Nat) : List PatternPart :=
  parts.take pos ++ (List.replicate i wildcard ++ parts.drop (pos + 1))

/-- Models `match`; the number bounds the double wildcards in the pattern. -/
def matchParts : Nat → List PatternPart → List Bytes → Except Error Bool
  | 0, parts, strs => matchStatic parts strs
  | wild + 1, parts, strs =>
    match hasDoubleWildcard parts with
    | none => matchStatic parts strs
    | some pos =>
      (List.range (strs.length + 2 - parts.length)).anyM fun i =>
        matchParts wild (expandAt parts pos i) strs

def «match» (pattern : Pattern) (strs : List Bytes) : Except Error Bool :=
  matchParts (pattern.parts.countP PatternPart.isWild) pattern.parts strs

/-- Models `Match`. -/
def matchStr (patternStr str : Bytes) : Except Error Bool :=
  if patternStr = [] then .ok true
  else
    match prepareStr str with
    | .error error => .error error
    | .ok strs => «match» (preparePattern patternStr) strs

end Rapi.Filter
