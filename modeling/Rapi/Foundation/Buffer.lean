import Rapi.Foundation.Bytes

/-!
# Slices of byte arrays, and buffers that grow

Arrays live in a memory, and several slices may share one array.  Appending to a
slice writes into its array if that is large enough; otherwise the bytes move to
a new array.  When an array counts as large enough, and how large a new one is,
is a parameter.
-/

namespace Rapi.Foundation

open List

structure Memory where
  arrays : List Bytes

/-- The first `len` bytes of an array; a nil slice has none. -/
structure Slice where
  array : Option Nat
  len : Nat

structure Growth where
  choose : (len cap more : Nat) → Option Nat
  fits : ∀ {len cap more : Nat}, choose len cap more = none → len + more ≤ cap
  grows : ∀ {len cap more new : Nat}, choose len cap more = some new → len + more ≤ new

namespace Memory

def array (m : Memory) : Option Nat → Bytes
  | none => []
  | some a => m.arrays.getD a []

def write (m : Memory) (array : Option Nat) (bytes : Bytes) : Memory :=
  match array with
  | none => m
  | some a => ⟨m.arrays.set a bytes⟩

end Memory

namespace Slice

def cap (m : Memory) (s : Slice) : Nat := (m.array s.array).length

def content (m : Memory) (s : Slice) : Bytes := (m.array s.array).take s.len

def truncated (s : Slice) : Slice := { s with len := 0 }

def append (g : Growth) (chunk : Bytes) : Memory × Slice → Memory × Slice
  | (m, s) =>
    let array := m.array s.array
    match g.choose s.len array.length chunk.length with
    | none =>
      (m.write s.array (array.take s.len ++ chunk ++ array.drop (s.len + chunk.length)),
        ⟨s.array, s.len + chunk.length⟩)
    | some cap =>
      (⟨m.arrays ++ [array.take s.len ++ chunk ++ List.replicate (cap - (s.len + chunk.length)) 0]⟩,
        ⟨some m.arrays.length, s.len + chunk.length⟩)

def appendAll (g : Growth) (chunks : List Bytes) (ms : Memory × Slice) : Memory × Slice :=
  chunks.foldl (fun ms chunk => append g chunk ms) ms

end Slice

/-! ## What a buffer holds -/

def Slice.Within (m : Memory) (s : Slice) : Prop := s.len ≤ s.cap m

variable {g : Growth} {m : Memory} {s : Slice} {chunk : Bytes}

theorem Slice.within_truncated (m : Memory) (s : Slice) : s.truncated.Within m := Nat.zero_le _

theorem Slice.content_truncated (m : Memory) (s : Slice) : s.truncated.content m = [] := by
  simp [Slice.truncated, Slice.content]

theorem Memory.array_write (m : Memory) (array : Option Nat) (bytes : Bytes)
    (hlength : bytes.length = (m.array array).length) :
    (m.write array bytes).array array = bytes := by
  cases array with
  | none => exact (eq_nil_of_length_eq_zero hlength).symm
  | some a =>
    simp only [Memory.write, Memory.array, getD_eq_getElem?_getD] at hlength ⊢
    by_cases ha : a < m.arrays.length
    · simp [ha]
    · simp only [getElem?_eq_none (not_lt.mp ha), Option.getD_none] at hlength
      rw [getElem?_eq_none (by simpa using ha), Option.getD_none]
      exact (eq_nil_of_length_eq_zero hlength).symm

namespace Slice

theorem append_spec (hs : s.Within m) : (append g chunk (m, s)).2.Within (append g chunk (m, s)).1 ∧
      (append g chunk (m, s)).2.content (append g chunk (m, s)).1 = s.content m ++ chunk := by
  have hlen : s.len ≤ (m.array s.array).length := hs
  have htake : ((m.array s.array).take s.len ++ chunk).length = s.len + chunk.length := by
    rw [length_append, length_take, Nat.min_eq_left hlen]
  -- what stands behind the new bytes does not matter
  have hnew : ∀ (m' : Memory) (array : Option Nat) (rest : Bytes),
      m'.array array = (m.array s.array).take s.len ++ chunk ++ rest →
      Within m' ⟨array, s.len + chunk.length⟩ ∧
        content m' ⟨array, s.len + chunk.length⟩ = s.content m ++ chunk := by
    intro m' array rest harray
    refine ⟨?_, ?_⟩
    · rw [Within, cap, harray, length_append, htake]
      exact Nat.le_add_right _ _
    · rw [content, harray]
      exact take_left' htake
  cases hchoose : g.choose s.len (m.array s.array).length chunk.length with
  | none =>
    have hfits := g.fits hchoose
    simp only [append, hchoose]
    refine hnew _ _ _ (Memory.array_write m s.array _ ?_)
    rw [length_append, htake, length_drop]
    omega
  | some cap =>
    simp only [append, hchoose]
    refine hnew _ _ (replicate (cap - (s.len + chunk.length)) 0) ?_
    simp [Memory.array]

theorem appendAll_spec (g : Growth) (chunks : List Bytes) (hs : s.Within m) :
    (appendAll g chunks (m, s)).2.Within (appendAll g chunks (m, s)).1 ∧
      (appendAll g chunks (m, s)).2.content (appendAll g chunks (m, s)).1 =
        s.content m ++ chunks.flatten := by
  induction chunks generalizing m s with
  | nil => exact ⟨hs, by simp [appendAll]⟩
  | cons chunk chunks ih =>
    obtain ⟨hwithin, hcontent⟩ := append_spec hs
    obtain ⟨hrest, hall⟩ := ih hwithin
    refine ⟨hrest, hall.trans ?_⟩
    rw [hcontent, flatten_cons, append_assoc]

end Slice

end Rapi.Foundation
