import Rapi.Foundation.FilePath

/-!
# Containment of paths

`HasPathPrefix` goes up from a path, one directory at a time, until it meets the
base.  On the elements of the cleaned paths this is the prefix relation.
-/

namespace Rapi.Fs

open Foundation Foundation.FilePath List

def climb (base : Bytes) : Nat → Bytes → Bool
  | 0, _ => false
  | fuel + 1, p =>
    if base = dir p then true
    else if p = dir p then false
    else climb base fuel (dir p)

def hasPathPrefix (base p : Bytes) : Bool :=
  if isAbs base ≠ isAbs p then false
  else if clean base = clean p then true
  else climb (clean base) ((clean p).length + 1) (clean p)

private theorem climb_render {rooted : Bool} {base elements : List Bytes}
    (hbase : Normal rooted base) (h : Normal rooted elements) {fuel : Nat}
    (hfuel : elements.length < fuel) : climb (render rooted base) fuel (render rooted elements) ↔
      base <+: elements.dropLast := by
  induction elements using List.reverseRecOn generalizing fuel with
  | nil =>
    obtain ⟨fuel, rfl⟩ : ∃ n, fuel = n + 1 := ⟨fuel - 1, by omega⟩
    have hroot : render rooted base = render rooted [] ↔ base = [] :=
      ⟨fun heq => render_injective hbase h heq, fun heq => by rw [heq]⟩
    simp [climb, dir_render_nil, hroot]
  | append_singleton elements element ih =>
    obtain ⟨fuel, rfl⟩ : ∃ n, fuel = n + 1 := ⟨fuel - 1, by omega⟩
    have hup : render rooted (elements ++ [element]) ≠
        render rooted elements := by
      intro hsame
      simpa using render_injective h h.init hsame
    have hrest := ih h.init (by simpa using hfuel)
    rw [climb, dir_render_snoc h, if_neg hup, dropLast_concat]
    by_cases hsame : base = elements
    · simp [hsame]
    · have hne : render rooted base ≠ render rooted elements :=
        fun heq => hsame (render_injective hbase h.init heq)
      rw [if_neg hne, hrest]
      constructor
      · intro hprefix
        exact hprefix.trans ( dropLast_prefix elements)
      · intro hprefix
        cases elements using List.reverseRecOn with
        | nil => simpa using hprefix
        | append_singleton init last =>
          rw [prefix_concat_iff] at hprefix
          rw [dropLast_concat]
          exact hprefix.resolve_left hsame

theorem hasPathPrefix_iff (base p : Bytes) : hasPathPrefix base p ↔
      isAbs base = isAbs p ∧ elements base <+: elements p := by
  unfold hasPathPrefix
  by_cases habs : isAbs base = isAbs p
  · have hbase := clean_normal base
    have hp := clean_normal p
    have hlength : (elements p).length < (clean p).length + 1 :=
      Nat.lt_succ_of_le hp.length_le_render
    have hclimb : climb (clean base) ((clean p).length + 1) (clean p) =
        true ↔ elements base <+: (elements p).dropLast := by
      rw [habs] at hbase
      rw [clean, habs]
      exact climb_render hbase hp hlength
    by_cases hsame : clean base = clean p
    · have helements : elements base = elements p := by
        rw [clean, clean, habs] at hsame
        rw [habs] at hbase
        exact render_injective hbase hp hsame
      simp [habs, hsame, helements]
    · simp only [habs, ne_eq, not_true_eq_false, if_false, hsame, hclimb, true_and]
      constructor
      · intro hprefix
        exact hprefix.trans ( dropLast_prefix _)
      · intro hprefix
        cases helements : elements p using List.reverseRecOn with
        | nil => simpa [helements] using hprefix
        | append_singleton init last =>
          rw [helements, prefix_concat_iff] at hprefix
          rw [dropLast_concat]
          refine hprefix.resolve_left fun heq => hsame ?_
          rw [clean, clean, habs, heq, helements]
  · simp [habs]

/-! ## Paths below a base -/

/-- The path is the base, or goes on from it without going up again. -/
def Below (base p : Bytes) : Prop :=
  isAbs base = isAbs p ∧ ∃ rest, elements p = elements base ++ rest ∧ dotdot ∉ rest

/-- The base does nothing but go up, and the path goes up further. -/
def Above (base p : Bytes) : Prop :=
  isAbs base = isAbs p ∧ (∀ element ∈ elements base, element = dotdot) ∧
    (elements base).length < (elements p).count dotdot

theorem mem_drop_iff {count n : Nat} {names : List Bytes} (hnames : dotdot ∉ names) :
    dotdot ∈ (List.replicate count dotdot ++ names).drop n ↔ n < count := by
  rw [drop_append, drop_replicate, mem_append, mem_replicate]
  have hrest : dotdot ∉ names.drop (n - (List.replicate count dotdot).length) :=
    fun h => hnames (mem_of_mem_drop h)
  simp only [hrest, or_false, and_true]
  omega

theorem hasPathPrefix_above_iff (base p : Bytes) :
    (hasPathPrefix base p ∧ ¬Below base p) ↔ Above base p := by
  obtain ⟨count, names, hp, hnames⟩ := (clean_normal p).eq_append
  have hcount : (elements p).count dotdot = count := by
    rw [hp, count_append, count_replicate_self, count_eq_zero.mpr hnames, Nat.add_zero]
  have hdrop : ∀ {rest}, elements base ++ rest = elements p →
      (dotdot ∈ rest ↔ (elements base).length < count) := by
    intro rest hrest
    rw [← mem_drop_iff hnames, ← hp, ← hrest, drop_left]
  rw [hasPathPrefix_iff, Above, Below, hcount]
  constructor
  · rintro ⟨⟨habs, rest, hrest⟩, hnot⟩
    have hless : (elements base).length < count := by
      by_contra hnotLess
      exact hnot ⟨habs, rest, hrest.symm, fun hup => hnotLess ((hdrop hrest).mp hup)⟩
    refine ⟨habs, fun element helement => ?_, hless⟩
    have htake : elements base = (elements p).take (elements base).length := by
      rw [← hrest, take_left]
    rw [htake, hp, take_append_of_le_length (by simp; omega)] at helement
    exact (mem_replicate.mp (mem_of_mem_take helement)).2
  · rintro ⟨habs, hbase, hless⟩
    have hrest : elements base ++
        (List.replicate (count - (elements base).length) dotdot ++ names) = elements p := by
      rw [eq_replicate_of_mem hbase, ← append_assoc, replicate_append_replicate,
        length_replicate, hp]
      congr 2
      omega
    refine ⟨⟨habs, _, hrest⟩, ?_⟩
    rintro ⟨-, rest, hsame, hnot⟩
    exact hnot ((hdrop hsame.symm).mpr hless)

theorem iterate_dir_render {rooted : Bool} {elements : List Bytes} (h : Normal rooted elements) :
    dir^[elements.length] (render rooted elements) = render rooted [] := by
  induction elements using List.reverseRecOn with
  | nil => rfl
  | append_singleton elements element ih =>
    rw [length_append, length_singleton, Function.iterate_succ_apply, dir_render_snoc h, ih h.init]

/-- The base contains the path, unless the path goes up further than the base; and
the loop ends, whatever it looks for. -/
theorem hasPathPrefix_below_iff (base p : Bytes) :
    ((hasPathPrefix base p ↔ Below base p) ↔ ¬Above base p) ∧
    ∃ n ≤ (clean p).length, dir (dir^[n] (clean p)) = dir^[n] (clean p) := by
  constructor
  · have hbelow : Below base p → hasPathPrefix base p := by
      rintro ⟨habs, rest, hrest, -⟩
      exact (hasPathPrefix_iff base p).mpr ⟨habs, rest, hrest.symm⟩
    rw [← hasPathPrefix_above_iff]
    tauto
  · refine ⟨(elements p).length, (clean_normal p).length_le_render, ?_⟩
    rw [clean, iterate_dir_render (clean_normal p), dir_render_nil]

theorem hasPathPrefix_below_sample :
    hasPathPrefix (ascii "a/./b") (ascii "a/b//c") ↔
      Below (ascii "a/./b") (ascii "a/b//c") :=
  (hasPathPrefix_below_iff _ _).1.mpr (by rintro ⟨-, -, hless⟩; revert hless; decide)

/-- The parent directory counts as being below the current one. -/
theorem not_hasPathPrefix_below :
    ¬ ∀ base p : Bytes, hasPathPrefix base p ↔ Below base p := by
  intro hall
  obtain ⟨-, rest, hrest, hnot⟩ := (hall (ascii ".") (ascii "..")).mp (by decide)
  have helements : elements (ascii ".") = [] ∧ elements (ascii "..") = [dotdot] := by decide
  rw [helements.1, helements.2] at hrest
  rw [← nil_append rest, ← hrest] at hnot
  exact hnot (by simp)

end Rapi.Fs
