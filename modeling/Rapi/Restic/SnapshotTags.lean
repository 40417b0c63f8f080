import Rapi.Restic.SnapshotPolicy

/-!
# Tags of a snapshot

A snapshot has a list of tags, in which a tag may be repeated.  The element `""` of
a list of wanted tags stands for a snapshot without tags.
-/

namespace Rapi.Restic.Policy

open List

namespace Snapshot

variable {τ : Type} {sn : Snapshot τ} {l : List String}

/-! ## Having tags -/

/-- What an element of a list of wanted tags asks for. -/
def Satisfies (sn : Snapshot τ) (tag : String) : Prop := tag ∈ sn.tags ∨ tag = "" ∧ sn.tags = []

theorem hasTag_iff (sn : Snapshot τ) (tag : String) : sn.hasTag tag ↔ tag ∈ sn.tags := by
  simp [hasTag]

theorem hasTags_iff_of_tags (htags : sn.tags ≠ []) (l : List String) :
    sn.hasTags l ↔ ∀ tag ∈ l, sn.Satisfies tag := by
  induction l with
  | nil => simp [hasTags]
  | cons tag l ih =>
    have hstep : sn.hasTags (tag :: l) = (sn.hasTag tag && sn.hasTags l) := by
      rw [hasTags, if_neg (by simp [htags])]
      cases sn.hasTag tag <;> rfl
    rw [hstep, Bool.and_eq_true, hasTag_iff, ih, forall_mem_cons]
    simp [Satisfies, htags]

/-- Only the first element counts if there are no tags. -/
theorem hasTags_cons_of_no_tags (htags : sn.tags = []) (tag : String)
    (l : List String) : sn.hasTags (tag :: l) = decide (tag = "") := by
  by_cases htag : tag = "" <;> simp [hasTags, hasTag, htags, htag]

/-- The order of the wanted tags matters to a snapshot without tags only, and only if
`""` is wanted with another tag. -/
theorem hasTags_iff_all_iff (sn : Snapshot τ) (l : List String) :
    ((sn.hasTags l ↔ ∀ tag ∈ l, sn.Satisfies tag) ∧
        ∀ other : List String, other.Perm l → sn.hasTags other = sn.hasTags l) ↔
      ¬(sn.tags = [] ∧ "" ∈ l ∧ ∃ tag ∈ l, tag ≠ "") := by
  constructor
  · rintro ⟨-, hperm⟩ ⟨htags, hempty, tag, htag, hne⟩
    have hfirst := hperm _ (perm_cons_erase hempty).symm
    have hsecond := hperm _ (perm_cons_erase htag).symm
    rw [hasTags_cons_of_no_tags htags] at hfirst hsecond
    rw [← hfirst] at hsecond
    simp [hne] at hsecond
  · intro hcond
    -- the specification holds of every list with these elements
    have hspec : ∀ other : List String, other.Perm l →
        (sn.hasTags other ↔ ∀ tag ∈ other, sn.Satisfies tag) := by
      intro other hperm
      by_cases htags : sn.tags = []
      · cases other with
        | nil => simp [hasTags]
        | cons tag rest =>
          have hrest : tag = "" → ∀ other ∈ rest, other = "" := by
            rintro rfl other hother
            by_contra hne
            exact hcond ⟨htags, hperm.subset mem_cons_self, other,
              hperm.subset (mem_cons_of_mem _ hother), hne⟩
          simp only [hasTags_cons_of_no_tags htags, decide_eq_true_eq, Satisfies, htags,
            not_mem_nil, and_true, false_or, forall_mem_cons]
          exact ⟨fun htag => ⟨htag, hrest htag⟩, And.left⟩
      · exact hasTags_iff_of_tags htags other
    refine ⟨hspec l (List.Perm.refl l), fun other hperm => ?_⟩
    rw [Bool.eq_iff_iff, hspec other hperm, hspec l (List.Perm.refl l)]
    exact ⟨fun h tag htag => h tag (hperm.symm.subset htag),
      fun h tag htag => h tag (hperm.subset htag)⟩

/-- A snapshot without tags asked for `""` twice, in both orders. -/
theorem hasTags_iff_all_iff_twice :
    let sn : Snapshot Unit := ⟨(), []⟩
    sn.hasTags ["", ""] ∧
      ((sn.hasTags ["", ""] ↔ ∀ tag ∈ ["", ""], sn.Satisfies tag) ∧
        ∀ other : List String, other.Perm ["", ""] → sn.hasTags other = sn.hasTags ["", ""]) :=
  ⟨rfl, (hasTags_iff_all_iff (⟨(), []⟩ : Snapshot Unit) ["", ""]).mpr (by simp)⟩

/-- A snapshot without tags has `["", "a"]`, but neither `a` nor `["a", ""]`. -/
theorem hasTags_depends_on_order :
    let sn : Snapshot Unit := ⟨(), []⟩
    sn.hasTags ["", "a"] ∧ ¬sn.Satisfies "a" ∧ sn.hasTags ["a", ""] = false := by
  refine ⟨rfl, ?_, rfl⟩
  simp [Satisfies]

/-! ## Changing tags -/

/-- The element at `i` is replaced by the last one, which is cut off. -/
def cutTag (tags : List String) (i : Nat) : List String :=
  let tags := tags.set i (tags.getLastD "")
  (tags.set (tags.length - 1) "").take (tags.length - 1)

def addTag (state : List String × Bool) (add : String) : List String × Bool :=
  if add ∈ state.1 then state else (state.1 ++ [add], true)

/-- The tags and whether any changes were made. -/
def addTags (tags addTags : List String) : List String × Bool := addTags.foldl addTag (tags, false)

/-- The inner loop stops after one tag. -/
def removeTag (state : List String × Bool) (remove : String) : List String × Bool :=
  if remove ∈ state.1 then (cutTag state.1 (state.1.idxOf remove), true) else state

def removeTags (tags removeTags : List String) : List String × Bool :=
  removeTags.foldl removeTag (tags, false)

theorem cutTag_perm {tags : List String} {i : Nat} (hi : i < tags.length) :
    (cutTag tags i).Perm (tags.eraseIdx i) := by
  obtain ⟨front, last, rfl⟩ : ∃ front last, tags = front ++ [last] :=
    ⟨tags.dropLast, tags.getLast (ne_nil_of_length_pos (by omega)),
      (dropLast_append_getLast _).symm⟩
  have hlength : (front ++ [last]).length = front.length + 1 := by simp
  simp only [cutTag, getLastD_concat, length_set, hlength, Nat.add_sub_cancel]
  obtain hlt | heq : i < front.length ∨ i = front.length := by omega
  · have hset : (front ++ [last]).set i last = front.set i last ++ [last] :=
      set_append_left i last hlt
    rw [hset, eraseIdx_append_of_lt_length hlt, take_set_of_le (by simp),
      take_left' (by simp), set_eq_take_append_cons_drop, if_pos hlt, eraseIdx_eq_take_drop_succ]
    rw [append_assoc]
    exact (perm_append_singleton last _).symm.append_left _
  · have herase : (front ++ [last]).eraseIdx i = front := by
      rw [eraseIdx_append_of_length_le heq.ge]
      simp [heq]
    rw [herase, heq]
    simp

theorem removeTag_of_mem {state : List String × Bool} {remove : String} (hmem : remove ∈ state.1) :
    (removeTag state remove).1.Perm (state.1.erase remove) ∧
      (removeTag state remove).2 := by
  rw [removeTag, if_pos hmem, ← eraseIdx_idxOf_eq_erase]
  exact ⟨cutTag_perm (idxOf_lt_length_iff.mpr hmem), rfl⟩

theorem removeTag_of_not_mem {state : List String × Bool} {remove : String}
    (hmem : remove ∉ state.1) : removeTag state remove = state := if_neg hmem

theorem removeTags_foldl_perm (l : List String) (state : List String × Bool) :
    (l.foldl removeTag state).1.Perm (state.1.diff l) := by
  induction l generalizing state with
  | nil => exact List.Perm.refl state.1
  | cons remove l ih =>
    rw [foldl_cons, diff_cons]
    refine (ih _).trans (List.Perm.diff_right l ?_)
    by_cases hmem : remove ∈ state.1
    · exact (removeTag_of_mem hmem).1
    · rw [removeTag_of_not_mem hmem, erase_of_not_mem hmem]

theorem count_removeTags (tags l : List String) (tag : String) :
    (removeTags tags l).1.count tag = tags.count tag - l.count tag := by
  rw [removeTags, (removeTags_foldl_perm l (tags, false)).count_eq tag, count_diff]

theorem removeTags_foldl_changed (l : List String) (state : List String × Bool) :
    l.foldl removeTag state = state ∨
      (l.foldl removeTag state).2 ∧
        (l.foldl removeTag state).1.length < state.1.length := by
  induction l generalizing state with
  | nil => exact Or.inl rfl
  | cons remove l ih =>
    rw [foldl_cons]
    by_cases hmem : remove ∈ state.1
    · obtain ⟨hperm, hchanged⟩ := removeTag_of_mem hmem
      have hlength : (removeTag state remove).1.length < state.1.length := by
        have hpos := length_pos_of_mem hmem
        rw [hperm.length_eq, length_erase_of_mem hmem]
        omega
      obtain hsame | ⟨htrue, hless⟩ := ih (removeTag state remove)
      · rw [hsame]
        exact Or.inr ⟨hchanged, hlength⟩
      · exact Or.inr ⟨htrue, hless.trans hlength⟩
    · rw [removeTag_of_not_mem hmem]
      exact ih state

theorem removeTags_changed_iff (tags l : List String) :
    (removeTags tags l).2 ↔ (removeTags tags l).1 ≠ tags := by
  obtain hsame | ⟨htrue, hless⟩ := removeTags_foldl_changed l (tags, false)
  · simp [removeTags, hsame]
  · have hne : (removeTags tags l).1 ≠ tags := by
      intro heq
      exact absurd (congrArg length heq) hless.ne
    exact iff_of_true htrue hne

theorem count_addTags_foldl (l : List String) (state : List String × Bool) (tag : String) :
    (l.foldl addTag state).1.count tag =
      state.1.count tag + if tag ∈ l ∧ tag ∉ state.1 then 1 else 0 := by
  induction l generalizing state with
  | nil => simp
  | cons add l ih =>
    rw [foldl_cons, ih, addTag]
    by_cases hadd : add ∈ state.1
    · rw [if_pos hadd]
      by_cases htag : tag = add
      · simp [htag, hadd]
      · simp [htag]
    · rw [if_neg hadd]
      by_cases htag : tag = add
      · simp [htag, hadd]
      · simp [htag, Ne.symm htag]

theorem removeTags_addTags_perm {tags l : List String} (hnone : ∀ tag ∈ l, tag ∉ tags) :
    (removeTags (addTags tags l).1 l).1.Perm tags := by
  rw [perm_iff_count]
  intro tag
  rw [count_removeTags, addTags, count_addTags_foldl]
  by_cases htag : tag ∈ l
  · have hzero : tags.count tag = 0 := count_eq_zero.mpr (hnone tag htag)
    have hpos : 0 < l.count tag := count_pos_iff.mpr htag
    rw [hzero, if_pos ⟨htag, hnone tag htag⟩]
    omega
  · rw [if_neg fun h => htag h.1, count_eq_zero.mpr htag]
    simp

/-- `RemoveTags` removes the tags if none of them is there more often than it is to be
removed. -/
theorem removeTags_removes_iff (tags l : List String) :
    ((∀ tag ∈ l, tag ∉ (removeTags tags l).1) ∧
        (∀ tag ∉ l, (removeTags tags l).1.count tag = tags.count tag) ∧
        ((removeTags tags l).2 ↔ (removeTags tags l).1 ≠ tags) ∧
        ((∀ tag ∈ l, tag ∉ tags) → (removeTags (addTags tags l).1 l).1.Perm tags)) ↔
      ∀ tag ∈ l, tags.count tag ≤ l.count tag := by
  have hgone : ∀ tag, tag ∉ (removeTags tags l).1 ↔ tags.count tag ≤ l.count tag := by
    intro tag
    rw [← count_eq_zero, count_removeTags, Nat.sub_eq_zero_iff_le]
  simp only [hgone]
  refine ⟨And.left, fun h => ⟨h, ?_, removeTags_changed_iff tags l, ?_⟩⟩
  · intro tag htag
    rw [count_removeTags, count_eq_zero.mpr htag, Nat.sub_zero]
  · exact removeTags_addTags_perm

theorem removeTags_removes_iff_repeated :
    (∀ tag ∈ ["a", "a"], ["a", "b", "a"].count tag ≤ ["a", "a"].count tag) ∧
      removeTags ["a", "b", "a"] ["a", "a"] = (["b"], true) ∧
      ∀ tag ∈ ["a", "a"], tag ∉ (removeTags ["a", "b", "a"] ["a", "a"]).1 :=
  ⟨by decide, by decide, ((removeTags_removes_iff ["a", "b", "a"] ["a", "a"]).mpr (by decide)).1⟩

/-- A tag that is there twice is left once. -/
theorem removeTags_leaves_tag : "a" ∈ (removeTags ["a", "a"] ["a"]).1 := by decide

end Snapshot

end Rapi.Restic.Policy
