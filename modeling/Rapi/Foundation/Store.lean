import Mathlib

/-!
# Named files

A store is a list of files, each with a name and a content.  It is the model of
a backend, of which the code only uses that a saved file can be listed and
loaded under its name until it is removed.
-/

namespace Rapi.Foundation

open List

abbrev Store (κ ν : Type*) := List (κ × ν)

namespace Store

variable {κ ν : Type*}

def names (store : Store κ ν) : List κ := store.map Prod.fst

def save (store : Store κ ν) (name : κ) (content : ν) : Store κ ν := (name, content) :: store

section Names

variable [DecidableEq κ]

def load : Store κ ν → κ → Option ν
  | [], _ => none
  | (name, content) :: rest, wanted =>
    if name = wanted then some content else load rest wanted

def remove (store : Store κ ν) (name : κ) : Store κ ν := store.filter fun file => file.1 ≠ name

@[simp] theorem load_nil (wanted : κ) : load ([] : Store κ ν) wanted = none := rfl

theorem load_cons (name : κ) (content : ν) (rest : Store κ ν) (wanted : κ) :
    load ((name, content) :: rest) wanted =
      if name = wanted then some content else load rest wanted := rfl

@[simp] theorem load_save_self (store : Store κ ν) (name : κ) (content : ν) :
    (store.save name content).load name = some content := by
  simp [save, load_cons]

variable {name wanted : κ}

theorem load_save_of_ne (store : Store κ ν) (content : ν) (h : wanted ≠ name) :
    (store.save name content).load wanted = store.load wanted := by
  simp [save, load_cons, Ne.symm h]

theorem load_remove_of_ne (store : Store κ ν) (h : wanted ≠ name) :
    (store.remove name).load wanted = store.load wanted := by
  unfold remove
  induction store with
  | nil => rfl
  | cons file rest ih =>
    obtain ⟨first, content⟩ := file
    by_cases hfirst : first = name
    · have hother : first ≠ wanted := by
        rintro rfl
        exact h hfirst
      rw [filter_cons_of_neg (by simpa using hfirst), ih, load_cons, if_neg hother]
    · rw [filter_cons_of_pos (by simpa using hfirst), load_cons, load_cons, ih]

@[simp] theorem load_remove_self (store : Store κ ν) (name : κ) :
    (store.remove name).load name = none := by
  unfold remove
  induction store with
  | nil => rfl
  | cons file rest ih =>
    obtain ⟨first, content⟩ := file
    by_cases hfirst : first = name
    · rw [List.filter_cons_of_neg (by simpa using hfirst), ih]
    · rw [List.filter_cons_of_pos (by simpa using hfirst), load_cons, if_neg hfirst, ih]

theorem mem_names_iff {store : Store κ ν} :
    name ∈ store.names ↔ ∃ content, store.load name = some content := by
  induction store with
  | nil => simp [names]
  | cons file rest ih =>
    obtain ⟨first, content⟩ := file
    by_cases hfirst : first = name
    · simp [names, load_cons, hfirst]
    · rw [load_cons, if_neg hfirst, ← ih]
      simp [names, Ne.symm hfirst]

theorem mem_names_of_load {store : Store κ ν} {content : ν}
    (h : store.load name = some content) : name ∈ store.names := mem_names_iff.mpr ⟨content, h⟩

theorem load_save_iff {store : Store κ ν} {content stored : ν} (hfresh : name ∉ store.names) :
    (store.save name content).load wanted = some stored ↔
      store.load wanted = some stored ∨ stored = content ∧ wanted = name := by
  by_cases hname : wanted = name
  · subst hname
    have hload : store.load wanted ≠ some stored := fun h => hfresh (mem_names_of_load h)
    simp [hload, eq_comm]
  · simp [load_save_of_ne store content hname, hname]

theorem load_save_of_load {store : Store κ ν} {content stored : ν} (hfresh : name ∉ store.names)
    (h : store.load wanted = some stored) : (store.save name content).load wanted = some stored :=
  (load_save_iff hfresh).mpr (Or.inl h)

/-! ## Saving many files -/

section Many

variable {α : Type*} {name : α → κ} {content : α → ν} {l : List α}

theorem load_foldl_save_of_not_mem {k : κ} (h : k ∉ l.map name) (store : Store κ ν) :
    (l.foldl (fun d a => d.save (name a) (content a)) store).load k = store.load k := by
  induction l generalizing store with
  | nil => rfl
  | cons a rest ih =>
    rw [map_cons, mem_cons, not_or] at h
    rw [foldl_cons, ih h.2, load_save_of_ne store _ h.1]

theorem load_foldl_save_of_mem {k : κ} (h : k ∈ l.map name) (store : Store κ ν) :
    ∃ a ∈ l, name a = k ∧
      (l.foldl (fun d a => d.save (name a) (content a)) store).load k = some (content a) := by
  induction l generalizing store with
  | nil => cases h
  | cons a rest ih =>
    rw [foldl_cons]
    by_cases hrest : k ∈ rest.map name
    · obtain ⟨b, hb, hname, hload⟩ := ih hrest (store.save (name a) (content a))
      exact ⟨b, mem_cons_of_mem a hb, hname, hload⟩
    · obtain rfl : k = name a := by
        rw [map_cons, mem_cons] at h
        exact h.resolve_right hrest
      exact ⟨a, mem_cons_self, rfl, by rw [load_foldl_save_of_not_mem hrest, load_save_self]⟩

theorem load_foldl_save (hnodup : (l.map name).Nodup) {a : α} (ha : a ∈ l) (store : Store κ ν) :
    (l.foldl (fun d a => d.save (name a) (content a)) store).load (name a) = some (content a) := by
  obtain ⟨b, hb, hname, hload⟩ := load_foldl_save_of_mem (mem_map_of_mem ha) store
  rw [hload, inj_on_of_nodup_map hnodup hb ha hname]

end Many

end Names

end Store

end Rapi.Foundation
