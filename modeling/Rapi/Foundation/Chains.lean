import Mathlib

/-!
# Chains of linked cells

A memory of cells that are linked by pointers is seen through its links: what
the cell at a pointer points to, if there is a cell.  A chain is the list of
the pointers that are passed on the way from a head to nil.  Chains that have
no cell in common can be changed one at a time.
-/

namespace Rapi.Foundation

open List

variable {α : Type*}

/-- The pointers from `head` to nil. -/
def Chain (link : α → Option (Option α)) : Option α → List α → Prop
  | head, [] => head = none
  | head, x :: xs => head = some x ∧ ∃ next, link x = some next ∧ Chain link next xs

def Linked (link : α → Option (Option α)) : List (Option α) → List (List α) → Prop :=
  List.Forall₂ (Chain link)

section Chains

variable {link link' : α → Option (Option α)} {head : Option α} {xs : List α}

theorem Chain.congr (h : Chain link head xs)
    (hsame : ∀ x ∈ xs, link' x = link x) : Chain link' head xs := by
  induction xs generalizing head with
  | nil => exact h
  | cons x xs ih =>
    obtain ⟨hhead, next, hnext, hrest⟩ := h
    have hx : link' x = link x := hsame x mem_cons_self
    exact ⟨hhead, next, hx.trans hnext, ih hrest fun y hy => hsame y (mem_cons_of_mem x hy)⟩

theorem Chain.isSome_of_mem (h : Chain link head xs) {x : α} (hx : x ∈ xs) : (link x).isSome := by
  induction xs generalizing head with
  | nil => cases hx
  | cons y ys ih =>
    obtain ⟨_, next, hnext, hrest⟩ := h
    rcases mem_cons.mp hx with rfl | hx
    · rw [hnext]
      rfl
    · exact ih hrest hx

variable {heads : List (Option α)} {chains : List (List α)}

theorem Linked.congr (h : Linked link heads chains)
    (hsame : ∀ x ∈ chains.flatten, link' x = link x) :
    Linked link' heads chains := by
  induction h with
  | nil => exact .nil
  | cons hchain _ ih =>
    rw [flatten_cons] at hsame
    refine .cons (hchain.congr ?_) (ih ?_)
    · exact fun x hx => hsame x (mem_append_left _ hx)
    · exact fun x hx => hsame x (mem_append_right _ hx)

theorem Linked.isSome_of_mem (h : Linked link heads chains) {x : α}
    (hx : x ∈ chains.flatten) : (link x).isSome := by
  induction h with
  | nil => cases hx
  | cons hchain _ ih =>
    rcases mem_append.mp hx with hx | hx
    · exact hchain.isSome_of_mem hx
    · exact ih hx

theorem Linked.getElem? (h : Linked link heads chains) {i : Nat} {head : Option α}
    (hi : heads[i]? = some head) : ∃ chain, chains[i]? = some chain ∧ Chain link head chain := by
  induction h generalizing i with
  | nil => cases hi
  | @cons first chain heads chains hchain _ ih =>
    cases i with
    | zero =>
      cases hi
      exact ⟨chain, rfl, hchain⟩
    | succ i => exact ih hi

theorem linked_replicate (n : Nat) : Linked link (List.replicate n none) (List.replicate n []) := by
  induction n with
  | zero => exact .nil
  | succ n ih => exact .cons rfl ih

end Chains

/-! ## Putting a cell in front of a chain -/

/-- `x` becomes the first cell of the chain with the given number. -/
def pushAt (chains : List (List α)) (i : Nat) (x : α) : List (List α) := chains.modify i (x :: ·)

@[simp] theorem length_pushAt (chains : List (List α)) (i : Nat) (x : α) :
    (pushAt chains i x).length = chains.length := by
  simp [pushAt]

variable {chains : List (List α)}

theorem flatten_pushAt {i : Nat} (h : i < chains.length) (x : α) :
    (pushAt chains i x).flatten.Perm (x :: chains.flatten) := by
  induction chains generalizing i with
  | nil => simp at h
  | cons chain chains ih =>
    cases i with
    | zero => simp [pushAt]
    | succ i =>
      have hlt : i < chains.length := by simpa using h
      have htail := (ih hlt).append_left chain
      rw [pushAt, modify_succ_cons, flatten_cons, flatten_cons]
      exact htail.trans perm_middle

theorem map_pushAt {β : Type*} (f : α → β) (chains : List (List α)) (i : Nat) (x : α) :
    (pushAt chains i x).map (List.map f) = pushAt (chains.map (List.map f)) i (f x) := by
  induction chains generalizing i with
  | nil => simp [pushAt]
  | cons chain chains ih =>
    cases i with
    | zero => simp [pushAt]
    | succ i =>
      have htail := ih i
      simp only [pushAt] at htail
      simp [pushAt, htail]

theorem map_map_congr {β : Type*} {f g : α → β} (h : ∀ x ∈ chains.flatten, f x = g x) :
    chains.map (List.map f) = chains.map (List.map g) := by
  apply map_congr_left
  intro chain hchain
  apply map_congr_left
  intro x hx
  exact h x (mem_flatten.mpr ⟨chain, hchain, hx⟩)

theorem Linked.pushAt {link link' : α → Option (Option α)} {heads : List (Option α)}
    (h : Linked link heads chains) {i : Nat} {head : Option α} {x : α} (hi : heads[i]? = some head)
    (hsame : ∀ y ∈ chains.flatten, link' y = link y) (hx : link' x = some head) :
    Linked link' (heads.set i (some x)) (pushAt chains i x) := by
  induction h generalizing i with
  | nil => cases hi
  | @cons first chain heads chains hchain hrest ih =>
    rw [flatten_cons] at hsame
    have hchain' : Chain link' first chain :=
      hchain.congr fun y hy => hsame y (mem_append_left _ hy)
    cases i with
    | zero =>
      cases hi
      refine .cons ⟨rfl, _, hx, hchain'⟩ (Linked.congr hrest ?_)
      exact fun y hy => hsame y (mem_append_right _ hy)
    | succ i =>
      refine .cons hchain' (ih hi ?_)
      exact fun y hy => hsame y (mem_append_right _ hy)

end Rapi.Foundation
