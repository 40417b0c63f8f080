import Rapi.Foundation.Bytes

/-!
# Names that are not taken

A loop tries one name after the other until it finds one that is not taken.  The
names are different, so it is enough to try one more than there are taken names.
Where names are given one after the other in this way, who holds a name follows from
the order in which they were asked for.
-/

namespace Rapi.Foundation

section FreeName

variable {κ : Type*} [DecidableEq κ]

def firstFree (taken : List κ) (name : Nat → κ) : Nat → Nat → κ
  | 0, i => name i
  | fuel + 1, i => if name i ∈ taken then firstFree taken name fuel (i + 1) else name i

omit [DecidableEq κ] in
theorem not_all_taken {taken : List κ} {name : Nat → κ} (hinj : Function.Injective name) :
    ¬∀ j < taken.length + 1, name j ∈ taken := by
  intro htaken
  have hsubset : (List.range (taken.length + 1)).map name ⊆ taken := by
    intro k hk
    obtain ⟨j, hj, rfl⟩ := List.mem_map.mp hk
    exact htaken j (List.mem_range.mp hj)
  have hlength := ((List.nodup_range.map hinj).subperm hsubset).length_le
  simp at hlength

theorem exists_firstFree {taken : List κ} {name : Nat → κ} (hinj : Function.Injective name)
    {fuel i : Nat} (hfuel : i + fuel = taken.length) (hbefore : ∀ j < i, name j ∈ taken) :
    ∃ j, firstFree taken name fuel i = name j ∧ (∀ k < j, name k ∈ taken) ∧
      name j ∉ taken := by
  induction fuel generalizing i with
  | zero =>
    refine ⟨i, rfl, hbefore, fun hmem => ?_⟩
    apply not_all_taken hinj
    rw [← hfuel]
    exact Nat.forall_lt_succ_right.mpr ⟨hbefore, hmem⟩
  | succ fuel ih =>
    rw [firstFree]
    split
    · rename_i hmem
      exact ih (by omega) (Nat.forall_lt_succ_right.mpr ⟨hbefore, hmem⟩)
    · rename_i hfree
      exact ⟨i, rfl, hbefore, hfree⟩

end FreeName

def numbered (base : Bytes) (i : Nat) : Bytes :=
  if i = 0 then base else base ++ ascii "-" ++ decimal i

theorem numbered_injective (base : Bytes) : Function.Injective (numbered base) := by
  intro first second h
  by_cases hfirst : first = 0 <;> by_cases hsecond : second = 0
  · rw [hfirst, hsecond]
  · simp [numbered, hfirst, hsecond, ascii] at h
  · simp [numbered, hfirst, hsecond, ascii] at h
  · simp only [numbered, hfirst, hsecond, if_false] at h
    exact decimal_injective (List.append_cancel_left h)

/-! ## Names given one after the other -/

section Holds

variable {κ : Type*} {shares : κ → κ → Prop} {held : Bytes → κ → Prop}
  {earlier : List (κ × Bytes)} {owner : κ} {base name other : Bytes}

/-- The name is the first numbered one of which every holder shares it with the owner. -/
def Takes (shares : κ → κ → Prop) (held : Bytes → κ → Prop) (owner : κ)
    (base name : Bytes) : Prop :=
  ∃ i, name = numbered base i ∧
    (∀ j < i, ∃ holder, held (numbered base j) holder ∧ ¬shares owner holder) ∧
    ∀ holder, held name holder → shares owner holder

/-- The owners asked for names of the given bases, the last one first, and each took
one. -/
def Holds (shares : κ → κ → Prop) : List (κ × Bytes) → Bytes → κ → Prop
  | [], _, _ => False
  | (owner, base) :: earlier, name, holder =>
    Holds shares earlier name holder ∨
      holder = owner ∧ Takes shares (Holds shares earlier) owner base name

theorem Takes.unique (h : Takes shares held owner base name)
    (h' : Takes shares held owner base other) : name = other := by
  obtain ⟨i, rfl, hbefore, hfree⟩ := h
  obtain ⟨j, rfl, hbefore', hfree'⟩ := h'
  obtain hlt | rfl | hlt := Nat.lt_trichotomy i j
  · obtain ⟨holder, hheld, hshares⟩ := hbefore' i hlt
    exact absurd (hfree holder hheld) hshares
  · rfl
  · obtain ⟨holder, hheld, hshares⟩ := hbefore j hlt
    exact absurd (hfree' holder hheld) hshares

theorem Takes.holds_cons (h : Takes shares (Holds shares earlier) owner base name)
    (other : Bytes) (holder : κ) : Holds shares ((owner, base) :: earlier) other holder ↔
      Holds shares earlier other holder ∨ holder = owner ∧ other = name := by
  refine or_congr_right (and_congr_right' ⟨fun hother => hother.unique h, ?_⟩)
  rintro rfl
  exact h

/-- Whoever asks for a name, someone has it afterwards. -/
theorem exists_holds (h : (owner, base) ∈ earlier) :
    ∃ holder, Holds shares earlier base holder := by
  induction earlier with
  | nil => cases h
  | cons first earlier ih =>
    by_cases hheld : ∃ holder, Holds shares earlier base holder
    · obtain ⟨holder, hholder⟩ := hheld
      exact ⟨holder, Or.inl hholder⟩
    · obtain rfl | hmem := List.mem_cons.mp h
      · refine ⟨owner, Or.inr ⟨rfl, 0, rfl, fun j hj => absurd hj (Nat.not_lt_zero j), ?_⟩⟩
        exact fun holder hholder => absurd ⟨holder, hholder⟩ hheld
      · exact absurd (ih hmem) hheld

end Holds

end Rapi.Foundation
