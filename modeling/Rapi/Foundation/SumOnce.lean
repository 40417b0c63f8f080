import Mathlib

/-!
# Sums that count each key once

The elements of a list have a weight, and some of them have a key.  An element
with a key that was seen before does not count.  If elements with the same key
have the same weight, the order does not matter, and leaving out elements
changes nothing exactly if they have no weight or their keys are still there.
-/

namespace Rapi.Foundation

open Finset

section SumOnce

variable {α κ : Type} [DecidableEq κ] (key : α → Option κ) (weight : α → Nat)

def sumOnce : List α → Finset κ → Nat
  | [], _ => 0
  | a :: rest, seen =>
    match key a with
    | none => weight a + sumOnce rest seen
    | some k =>
      if k ∈ seen then sumOnce rest seen
      else weight a + sumOnce rest (insert k seen)

def keysOf (l : List α) : Finset κ := (l.filterMap key).toFinset

def withoutKey (l : List α) : Nat := ((l.filter fun a => (key a).isNone).map weight).sum

def WeighedBy (w : κ → Nat) (l : List α) : Prop := ∀ a ∈ l, ∀ k, key a = some k → weight a = w k

def SameWeights (l : List α) : Prop :=
  ∀ a ∈ l, ∀ b ∈ l, ∀ k, key a = some k → key b = some k → weight a = weight b

variable {key weight}

variable {l : List α}

theorem exists_weighedBy (h : SameWeights key weight l) : ∃ w, WeighedBy key weight w l := by
  classical
  have hchoice : ∀ k, ∃ n, ∀ a ∈ l, key a = some k → weight a = n := by
    intro k
    by_cases hk : ∃ a ∈ l, key a = some k
    · obtain ⟨a, ha, hkey⟩ := hk
      exact ⟨weight a, fun b hb hkey' => h b hb a ha k hkey' hkey⟩
    · exact ⟨0, fun a ha hkey => absurd ⟨a, ha, hkey⟩ hk⟩
  choose w hw using hchoice
  exact ⟨w, fun a ha k hkey => hw k a ha hkey⟩

theorem mem_keysOf {k : κ} : k ∈ keysOf key l ↔ ∃ a ∈ l, key a = some k := by simp [keysOf]

theorem sumOnce_eq {w : κ → Nat} (hw : WeighedBy key weight w l) (seen : Finset κ) :
    sumOnce key weight l seen = withoutKey key weight l + ∑ k ∈ keysOf key l \ seen, w k := by
  induction l generalizing seen with
  | nil => simp [sumOnce, withoutKey, keysOf]
  | cons a rest ih =>
    obtain ⟨ha, hrest⟩ := List.forall_mem_cons.mp hw
    rw [sumOnce]
    cases hkey : key a with
    | none =>
      have hkeys : keysOf key (a :: rest) = keysOf key rest := by simp [keysOf, hkey]
      simp only [hkeys, ih hrest, withoutKey, List.filter_cons, hkey,
        Option.isNone_none, if_true, List.map_cons, List.sum_cons]
      rw [Nat.add_assoc]
    | some k =>
      have hkeys : keysOf key (a :: rest) = insert k (keysOf key rest) := by simp [keysOf, hkey]
      have hwithout : withoutKey key weight (a :: rest) =
          withoutKey key weight rest := by
        simp [withoutKey, hkey]
      dsimp only
      rw [hkeys, hwithout]
      by_cases hseen : k ∈ seen
      · rw [if_pos hseen, ih hrest, insert_sdiff_of_mem _ hseen]
      · have hsplit : insert k (keysOf key rest) \ seen =
            insert k (keysOf key rest \ insert k seen) := by
          ext x
          simp only [mem_sdiff, mem_insert]
          by_cases hx : x = k <;> simp [hx, hseen]
        rw [if_neg hseen, ih hrest, hsplit, sum_insert (by simp), ha k hkey]
        omega

omit [DecidableEq κ] in
theorem withoutKey_eq_zero :
    withoutKey key weight l = 0 ↔ ∀ a ∈ l, key a = none → weight a = 0 := by
  rw [withoutKey, List.sum_eq_zero_iff]
  constructor
  · intro h a ha hkey
    exact h (weight a) (List.mem_map_of_mem (List.mem_filter.mpr ⟨ha, by simp [hkey]⟩))
  · intro h n hn
    obtain ⟨a, ha, rfl⟩ := List.mem_map.mp hn
    obtain ⟨ha, hkey⟩ := List.mem_filter.mp ha
    exact h a ha (by simpa using hkey)

theorem sumOnce_split {kept dropped : List α} (hperm : l.Perm (kept ++ dropped))
    (hsame : SameWeights key weight l) :
    ∃ missing, sumOnce key weight l ∅ = sumOnce key weight kept ∅ + missing ∧
      (missing = 0 ↔ ∀ a ∈ dropped,
        weight a = 0 ∨ ∃ k, key a = some k ∧ ∃ b ∈ kept, key b = some k) := by
  obtain ⟨w, hw⟩ := exists_weighedBy hsame
  have hmem : ∀ a, a ∈ l ↔ a ∈ kept ∨ a ∈ dropped := by
    intro a
    rw [hperm.mem_iff, List.mem_append]
  have hkept : WeighedBy key weight w kept := fun a ha => hw a ((hmem a).mpr (.inl ha))
  have hkeys : keysOf key l = keysOf key kept ∪ (keysOf key dropped \ keysOf key kept) := by
    ext k
    simp only [union_sdiff_self_eq_union, mem_union, mem_keysOf, hmem, or_and_right, exists_or]
  have hwithout : withoutKey key weight l =
      withoutKey key weight kept + withoutKey key weight dropped := by
    have hsum := ((hperm.filter fun a => (key a).isNone).map weight).sum_eq
    rw [List.filter_append, List.map_append, List.sum_append] at hsum
    exact hsum
  refine ⟨withoutKey key weight dropped + ∑ k ∈ keysOf key dropped \ keysOf key kept, w k, ?_, ?_⟩
  · rw [sumOnce_eq hw, sumOnce_eq hkept, sdiff_empty, sdiff_empty,
      hkeys, sum_union disjoint_sdiff, hwithout]
    omega
  · rw [Nat.add_eq_zero_iff, sum_eq_zero_iff, withoutKey_eq_zero]
    constructor
    · rintro ⟨hnone, hsome⟩ a ha
      cases hkey : key a with
      | none => exact .inl (hnone a ha hkey)
      | some k =>
        by_cases hk : k ∈ keysOf key kept
        · exact .inr ⟨k, rfl, mem_keysOf.mp hk⟩
        · refine .inl ?_
          rw [hw a ((hmem a).mpr (.inr ha)) k hkey]
          exact hsome k (mem_sdiff.mpr ⟨mem_keysOf.mpr ⟨a, ha, hkey⟩, hk⟩)
    · intro hdropped
      refine ⟨?_, ?_⟩
      · intro a ha hkey
        obtain hzero | ⟨k, hk, -⟩ := hdropped a ha
        · exact hzero
        · rw [hkey] at hk
          cases hk
      · intro k hk
        obtain ⟨hin, hout⟩ := mem_sdiff.mp hk
        obtain ⟨a, ha, hkey⟩ := mem_keysOf.mp hin
        obtain hzero | ⟨k', hk', hb⟩ := hdropped a ha
        · rw [← hw a ((hmem a).mpr (.inr ha)) k hkey]
          exact hzero
        · rw [hkey] at hk'
          cases hk'
          exact absurd (mem_keysOf.mpr hb) hout

end SumOnce

end Rapi.Foundation
