import Rapi.Foundation.Bytes

/-!
# Slash-separated paths

The lexical path operations of a Unix system on byte strings: cleaning a path,
joining two paths, and splitting off the last element.  A cleaned path is
determined by whether it is rooted and by its list of elements, and all the
operations are described on that list.
-/

namespace Rapi.Foundation.FilePath

open Foundation List

def separator : UInt8 := 47

def dot : Bytes := ascii "."

def dotdot : Bytes := ascii ".."

def isAbs (path : Bytes) : Bool := path.head? == some separator

/-- Take one more path element; `stack` holds the last element first. -/
def push (rooted : Bool) (stack : List Bytes) (element : Bytes) : List Bytes :=
  if element = [] ∨ element = dot then stack
  else if element = dotdot then
    match stack with
    | [] => if rooted then [] else [dotdot]
    | top :: rest => if top = dotdot then dotdot :: top :: rest else rest
  else element :: stack

def normalize (rooted : Bool) (elements : List Bytes) : List Bytes :=
  (elements.foldl (push rooted) []).reverse

def render (rooted : Bool) (elements : List Bytes) : Bytes :=
  if rooted then separator :: [separator].intercalate elements
  else if elements = [] then dot
  else [separator].intercalate elements

def elements (path : Bytes) : List Bytes := normalize (isAbs path) (path.splitOn separator)

def clean (path : Bytes) : Bytes := render (isAbs path) (elements path)

def join (first second : Bytes) : Bytes :=
  if first ≠ [] then clean (first ++ separator :: second)
  else if second ≠ [] then clean second
  else []

/-- Everything up to and including the last separator, cleaned. -/
def dir (path : Bytes) : Bytes := clean (path.reverse.dropWhile (· != separator)).reverse

/-- The last element, without trailing separators. -/
def base (path : Bytes) : Bytes :=
  if path = [] then dot
  else
    let last := ((path.reverse.dropWhile (· == separator)).takeWhile
      (· != separator)).reverse
    if last = [] then [separator] else last

/-! ## Normal element lists -/

/-- A name that stands for itself in a path. -/
structure Proper (element : Bytes) : Prop where
  nonempty : element ≠ []
  not_dot : element ≠ dot
  not_dotdot : element ≠ dotdot
  unseparated : separator ∉ element

inductive Normal (rooted : Bool) : List Bytes → Prop
  | parents (count : Nat) (h : rooted → count = 0) : Normal rooted (List.replicate count dotdot)
  | snoc {elements : List Bytes} {element : Bytes} : Normal rooted elements → Proper element →
      Normal rooted (elements ++ [element])

variable {element path : Bytes} {rooted : Bool} {rest : List Bytes}

theorem Proper.push_eq (h : Proper element) (rooted : Bool) (stack : List Bytes) :
    push rooted stack element = element :: stack := by
  simp [push, h.nonempty, h.not_dot, h.not_dotdot]

theorem normalize_snoc (rooted : Bool) (elements : List Bytes) (element : Bytes) :
    normalize rooted (elements ++ [element]) =
      (push rooted (normalize rooted elements).reverse element).reverse := by
  simp [normalize]

theorem normalize_snoc_nil (rooted : Bool) (elements : List Bytes) :
    normalize rooted (elements ++ [[]]) = normalize rooted elements := by
  simp [normalize, push]

theorem normalize_nil_cons (rooted : Bool) (elements : List Bytes) :
    normalize rooted ([] :: elements) = normalize rooted elements := by
  simp [normalize, push]

/-- A separator at the end of a path does not matter. -/
theorem clean_append_separator (h : path ≠ []) : clean (path ++ [separator]) = clean path := by
  have habs : isAbs (path ++ [separator]) = isAbs path := by cases path <;> simp_all [isAbs]
  rw [clean, elements, habs, splitOn_append_cons_self, splitOn_nil, normalize_snoc_nil]
  rfl

section Elements

variable {elements : List Bytes}

private theorem push_dotdot_replicate {count : Nat} (h : rooted → count = 0) :
    push rooted (List.replicate count dotdot) dotdot =
      List.replicate (if rooted then 0 else count + 1) dotdot := by
  have hne : ¬ (dotdot = [] ∨ dotdot = dot) := by decide
  cases count with
  | zero => cases rooted <;> simp [push, hne]
  | succ count =>
    have hrooted : rooted = false := by cases rooted <;> simp_all
    simp [push, hne, hrooted, replicate_succ]

theorem Normal.push (h : Normal rooted elements) (hsep : separator ∉ element) :
    Normal rooted (push rooted elements.reverse element).reverse := by
  by_cases hskip : element = [] ∨ element = dot
  · simpa [FilePath.push, hskip] using h
  by_cases hup : element = dotdot
  · subst hup
    cases h with
    | parents count hcount =>
      rw [reverse_replicate, push_dotdot_replicate hcount, reverse_replicate]
      exact .parents _ (by intro hrooted; simp [hrooted])
    | snoc hinit hlast => simpa [FilePath.push, hskip, hlast.not_dotdot] using hinit
  · have hproper : Proper element :=
      { nonempty := fun hnil => hskip (Or.inl hnil)
        not_dot := fun hdot => hskip (Or.inr hdot)
        not_dotdot := hup
        unseparated := hsep }
    rw [hproper.push_eq, reverse_cons, reverse_reverse]
    exact .snoc h hproper

theorem Normal.eq_append (h : Normal rooted elements) :
    ∃ count names, elements = replicate count dotdot ++ names ∧ dotdot ∉ names := by
  induction h with
  | parents count hcount => exact ⟨count, [], by simp, not_mem_nil⟩
  | @snoc elements element _ hproper ih =>
    obtain ⟨count, names, rfl, hnames⟩ := ih
    refine ⟨count, names ++ [element], by simp, ?_⟩
    simpa [hnames] using hproper.not_dotdot.symm

theorem normalize_normal (h : ∀ element ∈ elements, separator ∉ element) :
    Normal rooted (normalize rooted elements) := by
  induction elements using reverseRecOn with
  | nil => exact .parents 0 (fun _ => rfl)
  | append_singleton elements element ih =>
    rw [normalize_snoc]
    exact (ih fun e he => h e (by simp [he])).push (h element (by simp))

theorem Normal.normalize_eq (h : Normal rooted elements) :
    normalize rooted elements = elements := by
  induction h with
  | parents count hcount =>
    induction count with
    | zero => rfl
    | succ count ih =>
      have hrooted : rooted = false := by cases rooted <;> simp_all
      have hnone : rooted → count = 0 := by simp [hrooted]
      rw [replicate_succ', normalize_snoc, ih hnone, reverse_replicate, push_dotdot_replicate hnone]
      rw [hrooted, reverse_replicate, ← replicate_succ']
      rfl
  | snoc hinit hlast ih =>
    rw [normalize_snoc, ih, hlast.push_eq]
    simp

theorem Normal.of_mem (h : Normal rooted elements) (element : Bytes) (hmem : element ∈ elements) :
    element ≠ [] ∧ element ≠ dot ∧ separator ∉ element := by
  induction h with
  | parents count hcount =>
    rw [eq_of_mem_replicate hmem]
    decide
  | snoc hinit hlast ih =>
    rcases mem_append.mp hmem with hmem | hmem
    · exact ih hmem
    · rw [mem_singleton.mp hmem]
      exact ⟨hlast.nonempty, hlast.not_dot, hlast.unseparated⟩

theorem unseparated_splitOn (path : Bytes) :
    ∀ element ∈ path.splitOn separator, separator ∉ element := by
  induction path with
  | nil => simp
  | cons byte path ih =>
    rw [splitOn_cons_eq_if_modifyHead]
    split
    · simpa using ih
    · rename_i hbyte
      cases hsplit : path.splitOn separator with
      | nil => simp
      | cons first rest =>
        rw [hsplit] at ih
        intro element hmem
        rcases mem_cons.mp hmem with rfl | hmem
        · have hfirst := ih first (by simp)
          have hne : separator ≠ byte := by
            rintro rfl
            simp at hbyte
          simp [hfirst, hne]
        · exact ih element (by simp [hmem])

theorem Normal.init (h : Normal rooted (elements ++ [element])) : Normal rooted elements := by
  generalize hall : elements ++ [element] = all at h
  cases h with
  | parents count hcount =>
    cases count with
    | zero => simp at hall
    | succ count =>
      rw [replicate_succ'] at hall
      obtain ⟨rfl, -⟩ := append_inj' hall rfl
      exact .parents count (fun hr => absurd (hcount hr) (by simp))
  | snoc hinit hlast =>
    obtain ⟨rfl, -⟩ := append_inj' hall rfl
    exact hinit

theorem Normal.proper_last (h : Normal true (elements ++ [element])) : Proper element := by
  generalize hlist : elements ++ [element] = list at h
  cases h with
  | parents count hcount =>
    rw [hcount rfl] at hlist
    simp at hlist
  | snoc _ hlast =>
    obtain ⟨-, hsame⟩ := append_inj' hlist rfl
    rw [singleton_inj.mp hsame]
    exact hlast

/-! ## The operations on cleaned paths -/

private theorem intercalate_snoc (h : elements ≠ []) (element : Bytes) :
    [separator].intercalate (elements ++ [element]) =
      [separator].intercalate elements ++ separator :: element := by
  induction elements with
  | nil => exact absurd rfl h
  | cons first rest ih =>
    cases rest with
    | nil => simp
    | cons second rest =>
      have hrest := ih (by simp)
      simp only [cons_append, intercalate_cons_cons, append_assoc] at hrest ⊢
      rw [hrest]

section

variable (h : Normal rooted elements)

include h

theorem isAbs_render : isAbs (render rooted elements) = rooted := by
  cases rooted with
  | true => rfl
  | false =>
    cases elements with
    | nil => decide
    | cons first rest =>
      obtain ⟨hne, -, hsep⟩ := h.of_mem first (mem_cons_self ..)
      obtain ⟨byte, tail, rfl⟩ := exists_cons_of_ne_nil hne
      have hbyte : byte ≠ separator := by
        rintro rfl
        simp at hsep
      cases rest <;> simp [render, isAbs, hbyte]

theorem elements_render : FilePath.elements (render rooted elements) = elements := by
  rw [FilePath.elements, isAbs_render h]
  by_cases helements : elements = []
  · subst helements
    cases rooted <;> decide
  · have hsplit := splitOn_intercalate separator (fun e he => (h.of_mem e he).2.2) helements
    cases rooted with
    | false =>
      simp only [render, helements, if_false, Bool.false_eq_true, hsplit]
      exact h.normalize_eq
    | true =>
      have hroot := splitOn_append_cons_self (a := separator) [] ([separator].intercalate elements)
      simp only [nil_append, splitOn_nil, cons_append, hsplit] at hroot
      simp only [render, if_true, hroot, normalize_nil_cons]
      exact h.normalize_eq

theorem clean_render : clean (render rooted elements) = render rooted elements := by
  rw [clean, isAbs_render h, elements_render h]

theorem render_ne_nil : render rooted elements ≠ [] := by
  intro hnil
  have hclean := clean_render h
  rw [hnil] at hclean
  exact absurd hclean (by decide)

theorem Normal.length_le_render : elements.length ≤ (render rooted elements).length := by
  have hintercalate : elements.length ≤ ([separator].intercalate elements).length := by
    induction elements using reverseRecOn with
    | nil => simp
    | append_singleton elements element ih =>
      have hlast := length_pos_of_ne_nil (h.of_mem element (by simp)).1
      have hinit := ih h.init
      by_cases helements : elements = []
      · subst helements
        rw [nil_append, intercalate_singleton]
        exact hlast
      · rw [intercalate_snoc helements]
        simp only [length_append, length_cons, length_nil]
        omega
  unfold render
  split
  · exact Nat.le_succ_of_le hintercalate
  · split
    · simp [*]
    · exact hintercalate

private theorem render_snoc (element : Bytes) :
    ∃ before, render rooted (elements ++ [element]) = before ++ element ∧
      (before = [] ∨ ∃ stem, before = stem ++ [separator]) ∧
      clean before = render rooted elements := by
  by_cases helements : elements = []
  · subst helements
    cases rooted with
    | false => exact ⟨[], by simp [render], Or.inl rfl, by decide⟩
    | true => exact ⟨[separator], by simp [render], Or.inr ⟨[], rfl⟩, by decide⟩
  · refine ⟨render rooted elements ++ [separator], ?_, Or.inr ⟨_, rfl⟩, ?_⟩
    · cases rooted <;> simp [render, helements, intercalate_snoc helements]
    · rw [clean_append_separator (render_ne_nil h), clean_render h]

end

private theorem takeWhile_reverse_append {before : Bytes} (hsep : separator ∉ element)
    (hbefore : before = [] ∨ ∃ stem, before = stem ++ [separator]) :
    ((before ++ element).reverse.takeWhile (· != separator)).reverse = element ∧
      ((before ++ element).reverse.dropWhile (· != separator)).reverse = before := by
  have hall : ∀ byte ∈ element.reverse, (byte != separator) := by
    intro byte hmem
    rw [bne_iff_ne]
    rintro rfl
    exact hsep (mem_reverse.mp hmem)
  rw [reverse_append, takeWhile_append_of_pos hall, dropWhile_append_of_pos hall]
  rcases hbefore with rfl | ⟨stem, rfl⟩ <;> simp

theorem dir_render_snoc (h : Normal rooted (elements ++ [element])) :
    dir (render rooted (elements ++ [element])) = render rooted elements := by
  obtain ⟨-, -, hsep⟩ := h.of_mem element (by simp)
  obtain ⟨before, hrender, hbefore, hclean⟩ := render_snoc h.init element
  rw [dir, hrender, (takeWhile_reverse_append hsep hbefore).2, hclean]

theorem base_render_snoc (h : Normal rooted (elements ++ [element])) :
    base (render rooted (elements ++ [element])) = element := by
  obtain ⟨hne, -, hsep⟩ := h.of_mem element (by simp)
  obtain ⟨before, hrender, hbefore, -⟩ := render_snoc h.init element
  have hnonempty : before ++ element ≠ [] := by simp [hne]
  have hlast : (before ++ element).reverse.dropWhile (· == separator) =
      (before ++ element).reverse := by
    obtain ⟨byte, tail, htail⟩ := exists_cons_of_ne_nil (reverse_ne_nil_iff.mpr hne)
    have hbyte : byte ≠ separator := by
      rintro rfl
      exact hsep (mem_reverse.mp (by rw [htail]; simp))
    rw [reverse_append, htail]
    simp [hbyte]
  rw [hrender, base, if_neg hnonempty, hlast, (takeWhile_reverse_append hsep hbefore).1, if_neg hne]

end Elements

theorem clean_normal (path : Bytes) : Normal (isAbs path) (elements path) :=
  normalize_normal (unseparated_splitOn path)

theorem clean_clean (path : Bytes) : clean (clean path) = clean path :=
  clean_render (clean_normal path)

theorem dir_render_nil (rooted : Bool) : dir (render rooted []) = render rooted [] := by
  cases rooted <;> decide

theorem render_injective {first second : List Bytes} (hfirst : Normal rooted first)
    (hsecond : Normal rooted second)
    (h : render rooted first = render rooted second) : first = second := by
  rw [← elements_render hfirst, h, elements_render hsecond]

theorem join_separator (path : Bytes) :
    join [separator] path = render true (normalize true (path.splitOn separator)) := by
  have hsplit := splitOn_append_cons_self (a := separator) [separator] path
  have hroot : [separator].splitOn separator = [[], []] := by decide
  rw [join, if_pos (by simp), clean, elements, hsplit, hroot]
  rfl

theorem Normal.append {init : List Bytes} (h : Normal rooted init)
    (hrest : ∀ element ∈ rest, Proper element) : Normal rooted (init ++ rest) := by
  induction rest using reverseRecOn with
  | nil => simpa using h
  | append_singleton rest element ih =>
    rw [← append_assoc]
    exact .snoc (ih fun e he => hrest e (by simp [he])) (hrest element (by simp))

theorem normalize_append_proper (rooted : Bool) (init : List Bytes)
    (h : ∀ element ∈ rest, Proper element) :
    normalize rooted (init ++ rest) = normalize rooted init ++ rest := by
  induction rest using reverseRecOn with
  | nil => simp
  | append_singleton rest element ih =>
    rw [← append_assoc, normalize_snoc,
      ih fun e he => h e (by simp [he]), (h element (by simp)).push_eq]
    simp

theorem join_render (hpath : path ≠ []) (hrest : ∀ element ∈ rest, Proper element) :
    join path (render true rest) = render (isAbs path) (elements path ++ rest) := by
  have habs : isAbs (path ++ separator :: render true rest) = isAbs path := by
    cases path <;> simp_all [isAbs]
  have hsplit : (render true rest).splitOn separator =
      if rest = [] then [[], []] else [] :: rest := by
    by_cases hnil : rest = []
    · subst hnil
      decide
    · have hroot := splitOn_append_cons_self (a := separator) [] ([separator].intercalate rest)
      rw [splitOn_intercalate separator (fun e he => (hrest e he).unseparated) hnil] at hroot
      simpa [render, hnil] using hroot
  rw [join, if_pos hpath, clean, habs, elements, habs, splitOn_append_cons_self, hsplit]
  congr 1
  by_cases hnil : rest = []
  · have hblank : path.splitOn separator ++ [[], []] =
        (path.splitOn separator ++ [[]]) ++ [[]] := by simp
    rw [if_pos hnil, hblank, normalize_snoc_nil, normalize_snoc_nil, hnil, append_nil]
    rfl
  · have hblank : path.splitOn separator ++ [] :: rest =
        (path.splitOn separator ++ [[]]) ++ rest := by simp
    rw [if_neg hnil, hblank, normalize_append_proper _ _ hrest, normalize_snoc_nil]
    rfl

theorem join_proper (hpath : path ≠ []) (h : Proper element) :
    join path element = render (isAbs path) (elements path ++ [element]) := by
  have habs : isAbs (path ++ separator :: element) = isAbs path := by
    cases path <;> simp_all [isAbs]
  rw [join, if_pos hpath, clean, habs, elements, habs,
    splitOn_append_cons_self, splitOn_eq_singleton h.unseparated,
    normalize_append_proper _ _ (by simpa using h)]
  rfl

theorem ne_nil_of_isAbs (h : isAbs path) : path ≠ [] := by
  rintro rfl
  cases h

theorem isAbs_join (hpath : isAbs path) (h : Proper element) : isAbs (join path element) := by
  rw [join_proper (ne_nil_of_isAbs hpath) h, hpath]
  rfl

theorem elements_join (hpath : isAbs path) (h : Proper element) :
    elements (join path element) = elements path ++ [element] := by
  rw [join_proper (ne_nil_of_isAbs hpath) h]
  exact elements_render (.snoc (clean_normal path) h)

/-- A name that is its own last element below the root is proper, unless it is
the root itself, which adds nothing to a path. -/
theorem proper_of_base_join {name : Bytes} (hpath : isAbs path) (hclean : clean path = path)
    (hbase : base (join [separator] name) = name) (hne : path ≠ join path name) : Proper name := by
  have hnormal : Normal true (normalize true (name.splitOn separator)) :=
    normalize_normal (unseparated_splitOn name)
  rw [join_separator] at hbase
  induction hlist : normalize true (name.splitOn separator) using reverseRecOn with
  | nil =>
    rw [hlist] at hbase
    have hroot : name = render true [] := by
      rw [← hbase]
      decide
    rw [hroot, join_render (ne_nil_of_isAbs hpath) (by simp), append_nil] at hne
    exact absurd hclean.symm hne
  | append_singleton init last =>
    rw [hlist] at hbase hnormal
    rw [base_render_snoc hnormal] at hbase
    rw [← hbase]
    exact hnormal.proper_last

theorem render_eq_flatMap {elements : List Bytes} (h : elements ≠ []) :
    render true elements = elements.flatMap (separator :: ·) := by
  rw [render, if_pos rfl]
  induction elements with
  | nil => exact absurd rfl h
  | cons first rest ih =>
    cases rest with
    | nil => simp
    | cons second rest =>
      rw [flatMap_cons, ← ih (by simp)]
      simp

theorem render_append (hpath : isAbs path) (hclean : clean path = path)
    {names : List Bytes} (hne : names ≠ []) : render true (elements path ++ names) =
      (if path = [separator] then [] else path) ++ names.flatMap (separator :: ·) := by
  rw [render_eq_flatMap (by simp [hne]), flatMap_append]
  congr 1
  rw [clean, hpath] at hclean
  by_cases hnil : elements path = []
  · rw [hnil] at hclean ⊢
    exact (if_pos hclean.symm).symm
  · rw [render_eq_flatMap hnil] at hclean
    rw [hclean, if_neg]
    rintro rfl
    exact hnil (by decide)

end Rapi.Foundation.FilePath
