import Rapi.Filter.Pattern

/-!
# What a filter pattern means

A path matches a pattern when a contiguous run of its components matches the
parts one by one, with `**` standing for any number of components.  `match`
bounds the expansion of a `**` as if every later `**` took one component.  It
therefore finds exactly the runs that leave this room, and it misses a path all
of whose matching runs do not.
-/

namespace Rapi.Filter

open Foundation
open Foundation.FilePath (separator)
open List

/-! ## The specification -/

/-- `widths` are the numbers of components that the `**` stand for. -/
inductive RunMatches : List PatternPart → List Nat → List Bytes → Prop
  | nil : RunMatches [] [] []
  | component {part : PatternPart} {parts : List PatternPart}
      {widths : List Nat} {str : Bytes} {run : List Bytes} :
      part.isWild = false → filepathMatch part.pattern str = .ok true →
      RunMatches parts widths run → RunMatches (part :: parts) widths (str :: run)
  | wild {part : PatternPart} {parts : List PatternPart}
      {widths : List Nat} {run : List Bytes} (taken : List Bytes) :
      part.isWild → RunMatches parts widths run →
      RunMatches (part :: parts) (taken.length :: widths) (taken ++ run)

/-- A run of an absolute pattern starts at the root marker, any other after it. -/
def Starts (parts : List PatternPart) (strs before : List Bytes) : Prop :=
  if isAbsolute parts then before = []
  else strs.head? = some rootMarker → before ≠ []

def MatchedBy (parts : List PatternPart) (strs : List Bytes)
    (widths : List Nat) (run : List Bytes) : Prop :=
  ∃ before after, strs = before ++ (run ++ after) ∧
    Starts parts strs before ∧ RunMatches parts widths run

def Matches (parts : List PatternPart) (strs : List Bytes) : Prop :=
  ∃ widths run, MatchedBy parts strs widths run

/--
Placing the `**` from left to right keeps the pattern as short as the path, with
each `**` still to be placed counted as one component.
-/
def Fits (components : Nat) : Nat → List Nat → Prop
  | _, [] => True
  | length, width :: widths =>
    length + width ≤ components + 1 ∧ Fits components (length + width - 1) widths

def patternParts (patternStr : Bytes) : List PatternPart :=
  if patternStr = [] then [] else (preparePattern patternStr).parts

def WellFormed (parts : List PatternPart) : Prop := ∀ part ∈ parts, (Glob.parse part.pattern).isSome

/-! ## Prepared patterns and split paths -/

structure PatternPart.Valid (part : PatternPart) : Prop where
  parses : (Glob.parse part.pattern).isSome
  simple : part.isSimple → ∀ byte ∈ part.pattern, Glob.isSpecial byte = false

variable {part : PatternPart} {parts rest init : List PatternPart}
  {widths : List Nat} {run strs : List Bytes} {i : Nat}

theorem PatternPart.Valid.matchPart_eq (h : part.Valid) (str : Bytes) :
    matchPart part str = filepathMatch part.pattern str := by
  unfold matchPart
  split
  · rename_i hsimple
    simp [filepathMatch, Glob.matches?_plain (h.simple hsimple)]
  · rfl

theorem PatternPart.Valid.exists_ok (h : part.Valid) (str : Bytes) :
    ∃ matched, filepathMatch part.pattern str = .ok matched := by
  obtain ⟨tokens, htokens⟩ := Option.isSome_iff_exists.mp h.parses
  exact ⟨Glob.matchTokens tokens str, by simp [filepathMatch, Glob.matches?, htokens]⟩

theorem wildcard_valid : wildcard.Valid where
  parses := by decide
  simple := by simp [wildcard]

theorem filepathMatch_wildcard (str : Bytes) :
    filepathMatch wildcard.pattern str = .ok true ↔ separator ∉ str := by
  simp [filepathMatch, wildcard, Glob.matches?_star]

theorem preparePart_valid {part : Bytes} (h : (Glob.parse (preparePart part).pattern).isSome) :
    (preparePart part).Valid where
  parses := h
  simple := by
    intro hsimple byte hbyte
    simp only [preparePart, Bool.not_eq_true', any_eq_false, Bool.not_eq_true] at hsimple hbyte
    split at hbyte
    · simp at hbyte
    · exact hsimple byte hbyte

/-- The parts `match` works on: only the first can be the root marker. -/
structure Prepared (parts : List PatternPart) : Prop where
  valid : ∀ part ∈ parts, part.Valid
  rooted : ∀ part ∈ parts.tail, part.pattern ≠ rootMarker

theorem splitPath_tail (p : Bytes) : ∀ str ∈ (splitPath p).tail, separator ∉ str := by
  have hfree := FilePath.unseparated_splitOn p
  unfold splitPath
  split
  · rename_i rest hsplit
    intro str hstr
    exact hfree str (by simp_all)
  · intro str hstr
    exact hfree str (mem_of_mem_tail hstr)

theorem splitPath_ne_nil (p : Bytes) : splitPath p ≠ [] := by
  unfold splitPath
  split
  · simp
  · exact splitOn_ne_nil separator p

theorem preparePattern_prepared {patternStr : Bytes}
    (h : WellFormed (preparePattern patternStr).parts) :
    Prepared (preparePattern patternStr).parts := by
  constructor
  · intro part hpart
    have hparses := h part hpart
    obtain ⟨component, -, rfl⟩ := mem_map.mp hpart
    exact preparePart_valid hparses
  · intro part hpart
    simp only [preparePattern, ← map_tail] at hpart
    obtain ⟨component, hcomponent, rfl⟩ := mem_map.mp hpart
    have hfree := splitPath_tail _ component hcomponent
    simp only [preparePart]
    split
    · decide
    · rintro rfl
      simp [rootMarker] at hfree

/-- The components of a path; only the first can be the root marker. -/
structure Components (strs : List Bytes) : Prop where
  tail : ∀ str ∈ strs.tail, separator ∉ str
  head : strs.head? ≠ some rootMarker → ∀ str ∈ strs, separator ∉ str
  proper : ∃ before str after, strs = before ++ str :: after ∧
    (strs.head? = some rootMarker → before ≠ [])

theorem splitPath_components {str : Bytes} (h : str ≠ []) : Components (splitPath str) where
  tail := splitPath_tail str
  head := by
    have hfree := FilePath.unseparated_splitOn str
    unfold splitPath
    split
    · intro hroot
      simp at hroot
    · intro _ component hcomponent
      exact hfree component hcomponent
  proper := by
    cases hsplit : str.splitOn separator with
    | nil => exact absurd hsplit (splitOn_ne_nil separator str)
    | cons first rest =>
      cases first with
      | cons byte first =>
        refine ⟨[], byte :: first, rest, by simp [splitPath, hsplit], ?_⟩
        -- an element of a split path is not the root marker
        intro hroot
        have hfree := FilePath.unseparated_splitOn str (byte :: first) (by simp [hsplit])
        simp only [splitPath, hsplit, head?_cons, Option.some.injEq] at hroot
        simp [hroot, rootMarker] at hfree
      | nil =>
        cases rest with
        | cons second rest =>
          exact ⟨[rootMarker], second, rest, by simp [splitPath, hsplit], by simp⟩
        | nil =>
          have hempty : [separator].intercalate (str.splitOn separator) =
              str := intercalate_splitOn separator
          rw [hsplit] at hempty
          exact absurd hempty.symm (by simpa using h)

/-! ## Computations that decide a proposition -/

section Decides

variable {ε α : Type}

def Decides (result : Except ε Bool) (p : Prop) : Prop := ∃ b, result = .ok b ∧ (b ↔ p)

theorem Decides.iff {result : Except ε Bool} {p : Prop}
    (h : Decides result p) : result = .ok true ↔ p := by
  obtain ⟨b, rfl, hb⟩ := h
  simpa using hb

theorem Decides.congr {result : Except ε Bool} {p q : Prop}
    (h : Decides result p) (hpq : p ↔ q) : Decides result q := by
  obtain ⟨b, hresult, hb⟩ := h
  exact ⟨b, hresult, hb.trans hpq⟩

theorem decides_anyM {f : α → Except ε Bool} {p : α → Prop} (list : List α)
    (h : ∀ a ∈ list, Decides (f a) (p a)) : Decides (list.anyM f) (∃ a ∈ list, p a) := by
  induction list with
  | nil => exact ⟨false, rfl, by simp⟩
  | cons a list ih =>
    obtain ⟨b, hfirst, hb⟩ := h a (by simp)
    obtain ⟨c, hrest, hc⟩ := ih fun a ha => h a (by simp [ha])
    cases b with
    | true => exact ⟨true, by rw [anyM, hfirst]; rfl, by simp [← hb]⟩
    | false =>
      refine ⟨c, by rw [anyM, hfirst]; exact hrest, ?_⟩
      simp [hc, ← hb]

theorem decides_allM {f : α → Except ε Bool} {p : α → Prop} {list : List α}
    (h : ∀ a ∈ list, Decides (f a) (p a)) : Decides (list.allM f) (∀ a ∈ list, p a) := by
  induction list with
  | nil => exact ⟨true, rfl, by simp⟩
  | cons a list ih =>
    obtain ⟨b, hfirst, hb⟩ := h a (by simp)
    obtain ⟨c, hrest, hc⟩ := ih fun a ha => h a (by simp [ha])
    cases b with
    | false => exact ⟨false, by rw [allM, hfirst]; rfl, by simp [← hb]⟩
    | true =>
      refine ⟨c, by rw [allM, hfirst]; exact hrest, ?_⟩
      simp [hc, ← hb]

end Decides

/-! ## Patterns without double wildcards -/

theorem runMatches_component (hpart : part.isWild = false) : RunMatches (part :: parts) widths run ↔
      ∃ str rest, run = str :: rest ∧
        filepathMatch part.pattern str = .ok true ∧
        RunMatches parts widths rest := by
  constructor
  · intro h
    generalize run = run' at h
    cases h with
    | component _ hmatch hrest => exact ⟨_, _, rfl, hmatch, hrest⟩
    | wild _ hwild => simp [hpart] at hwild
  · rintro ⟨str, rest, rfl, hmatch, hrest⟩
    exact .component hpart hmatch hrest

theorem runMatches_wild (hpart : part.isWild) : RunMatches (part :: parts) (i :: widths) run ↔
      ∃ taken rest, run = taken ++ rest ∧ taken.length = i ∧
        RunMatches parts widths rest := by
  constructor
  · intro h
    cases h with
    | component hstatic => simp [hpart] at hstatic
    | wild taken _ hrest => exact ⟨taken, _, rfl, rfl, hrest⟩
  · rintro ⟨taken, rest, rfl, rfl, hrest⟩
    exact .wild taken hpart hrest

theorem RunMatches.length_widths (h : RunMatches parts widths run) :
    widths.length = parts.countP PatternPart.isWild := by
  induction h with
  | nil => rfl
  | component hstatic _ _ ih => simp [hstatic, ih]
  | wild _ hwild _ ih => simp [hwild, ih]

theorem RunMatches.length_eq (h : RunMatches parts [] run) : run.length = parts.length := by
  generalize hwidths : ([] : List Nat) = widths at h
  induction h with
  | nil => rfl
  | component _ _ _ ih => simp [ih hwidths]
  | wild _ _ _ => cases hwidths

private theorem runMatches_zip (hstatic : ∀ part ∈ parts, part.isWild = false)
    (hlength : parts.length ≤ strs.length) :
    (∀ pair ∈ parts.zip strs, filepathMatch pair.1.pattern pair.2 = .ok true) ↔
      RunMatches parts [] (strs.take parts.length) := by
  induction parts generalizing strs with
  | nil => simp [RunMatches.nil]
  | cons part parts ih =>
    cases strs with
    | nil => simp at hlength
    | cons str strs =>
      have hrest := ih (fun p hp => hstatic p (by simp [hp])) (by simpa using hlength)
      simp only [zip_cons_cons, forall_mem_cons, hrest, length_cons, take_succ_cons]
      simp [runMatches_component (hstatic part (by simp))]

theorem matchAt_decides (hvalid : ∀ part ∈ parts, part.Valid)
    (hstatic : ∀ part ∈ parts, part.isWild = false) {offset : Nat}
    (hlength : offset + parts.length ≤ strs.length) : Decides (matchAt parts strs offset)
      (RunMatches parts [] ((strs.drop offset).take parts.length)) := by
  have hall : Decides (matchAt parts strs offset) (∀ pair ∈ (parts.zip (strs.drop offset)).reverse,
        filepathMatch pair.1.pattern pair.2 = .ok true) := by
    apply decides_allM
    intro pair hpair
    have hpart := hvalid pair.1 (of_mem_zip (mem_reverse.mp hpair)).1
    obtain ⟨b, hb⟩ := hpart.exists_ok pair.2
    exact ⟨b, by rw [hpart.matchPart_eq, hb], by simp [hb]⟩
  apply hall.congr
  rw [← runMatches_zip hstatic (by simp; omega)]
  simp

theorem mem_offsets (hparts : parts ≠ []) {offset : Nat} : offset ∈ offsets parts strs ↔
      offset + parts.length ≤ strs.length ∧ Starts parts strs (strs.take offset) := by
  have hpos := length_pos_of_ne_nil hparts
  unfold offsets Starts
  by_cases hlength : strs.length < parts.length
  · simp only [hlength, if_true, not_mem_nil, false_iff, not_and]
    omega
  · have hstrs : strs ≠ [] := by
      rintro rfl
      exact hlength (by simpa using hpos)
    by_cases habs : isAbsolute parts
    · simp [hlength, habs, hstrs]
      omega
    · by_cases hroot : strs.head? = some rootMarker
      · simp [hlength, habs, hroot, hstrs, mem_range'_1]
        omega
      · simp [hlength, habs, hroot, mem_range'_1]
        omega

theorem matchStatic_decides (hparts : parts ≠ []) (hvalid : ∀ part ∈ parts, part.Valid)
    (hstatic : ∀ part ∈ parts, part.isWild = false) (strs : List Bytes) :
    Decides (matchStatic parts strs) (∃ run, MatchedBy parts strs [] run) := by
  rw [matchStatic, if_neg hparts]
  have hany := decides_anyM (offsets parts strs) fun offset hoffset =>
    matchAt_decides hvalid hstatic ((mem_offsets hparts).mp hoffset).1
  apply hany.congr
  constructor
  · rintro ⟨offset, hoffset, hrun⟩
    obtain ⟨-, hstart⟩ := (mem_offsets hparts).mp hoffset
    exact ⟨_, strs.take offset, _, by rw [take_append_drop, take_append_drop], hstart, hrun⟩
  · rintro ⟨run, before, after, rfl, hstart, hrun⟩
    have hlength := hrun.length_eq
    refine ⟨before.length, (mem_offsets hparts).mpr ⟨?_, ?_⟩, ?_⟩
    · simp [hlength]
    · simpa using hstart
    · simpa [← hlength] using hrun

/-! ## Expanding a double wildcard -/

theorem exists_first_wild {wild : Nat} (h : parts.countP PatternPart.isWild = wild + 1) :
    ∃ init part rest, parts = init ++ part :: rest ∧
      (∀ p ∈ init, p.isWild = false) ∧ part.isWild ∧
      hasDoubleWildcard parts = some init.length := by
  induction parts with
  | nil => simp at h
  | cons first parts ih =>
    cases hfirst : first.isWild with
    | true =>
      exact ⟨[], first, parts, rfl, by simp, hfirst,
        by simp [hasDoubleWildcard, findIdx?_cons, hfirst]⟩
    | false =>
      rw [countP_cons_of_neg (by simp [hfirst])] at h
      obtain ⟨init, part, rest, rfl, hinit, hpart, hpos⟩ := ih h
      refine ⟨first :: init, part, rest, rfl, ?_, hpart, ?_⟩
      · simpa [hfirst] using hinit
      · rw [hasDoubleWildcard] at hpos ⊢
        simp [findIdx?_cons, hfirst, hpos]

private theorem runMatches_wildcards : RunMatches (List.replicate i wildcard ++ rest) widths run ↔
      ∃ taken after, run = taken ++ after ∧ taken.length = i ∧
        (∀ str ∈ taken, separator ∉ str) ∧ RunMatches rest widths after := by
  induction i generalizing run with
  | zero => simp
  | succ i ih =>
    rw [replicate_succ, cons_append, runMatches_component (by decide)]
    constructor
    · rintro ⟨str, run, rfl, hfirst, hrun⟩
      obtain ⟨taken, after, rfl, hlength, hfree, hafter⟩ := ih.mp hrun
      rw [filepathMatch_wildcard] at hfirst
      exact ⟨str :: taken, after, rfl, by simp [hlength],
        forall_mem_cons.mpr ⟨hfirst, hfree⟩, hafter⟩
    · rintro ⟨taken, after, rfl, hlength, hfree, hafter⟩
      cases taken with
      | nil => simp at hlength
      | cons str taken =>
        rw [forall_mem_cons] at hfree
        exact ⟨str, taken ++ after, rfl, (filepathMatch_wildcard str).mpr hfree.1,
          ih.mpr ⟨taken, after, rfl, by simpa using hlength, hfree.2, hafter⟩⟩

/-- Replacing the first `**` by as many `*` as it stands for. -/
theorem runMatches_expand (hinit : ∀ p ∈ init, p.isWild = false) (hpart : part.isWild)
    (hfree : ∀ str ∈ run.drop init.length, separator ∉ str) :
    RunMatches (init ++ part :: rest) (i :: widths) run ↔
      RunMatches (init ++ (List.replicate i wildcard ++ rest)) widths run := by
  induction init generalizing run with
  | nil =>
    rw [nil_append, nil_append, runMatches_wildcards, runMatches_wild hpart]
    constructor
    · rintro ⟨taken, after, rfl, hlength, hrun⟩
      exact ⟨taken, after, rfl, hlength, fun str hstr => hfree str (by simp [hstr]), hrun⟩
    · rintro ⟨taken, after, rfl, hlength, -, hrun⟩
      exact ⟨taken, after, rfl, hlength, hrun⟩
  | cons first init ih =>
    have hfirst := hinit first (by simp)
    rw [cons_append, cons_append, runMatches_component hfirst, runMatches_component hfirst]
    have hrest : ∀ str after, run = str :: after →
        (RunMatches (init ++ part :: rest) (i :: widths) after ↔
          RunMatches (init ++ (replicate i wildcard ++ rest)) widths after) := by
      rintro str after rfl
      exact ih (fun p hp => hinit p (by simp [hp])) (by simpa using hfree)
    constructor
    · rintro ⟨str, after, hrun, hmatch, hafter⟩
      exact ⟨str, after, hrun, hmatch, (hrest str after hrun).mp hafter⟩
    · rintro ⟨str, after, hrun, hmatch, hafter⟩
      exact ⟨str, after, hrun, hmatch, (hrest str after hrun).mpr hafter⟩

/-! ## The search -/

private theorem isAbsolute_wild (hpart : part.isWild)
    (rest : List PatternPart) : isAbsolute (part :: rest) = false := by
  have hempty : part.pattern = [] := by simpa [PatternPart.isWild] using hpart
  simp [isAbsolute, hempty, rootMarker]

private theorem isAbsolute_expand (hpart : part.isWild)
    (hprepared : Prepared (init ++ part :: rest)) (i : Nat) :
    isAbsolute (init ++ (List.replicate i wildcard ++ rest)) =
      isAbsolute (init ++ part :: rest) := by
  cases init with
  | cons first init => rfl
  | nil =>
    rw [nil_append, nil_append, isAbsolute_wild hpart]
    cases i with
    | succ i => rfl
    | zero =>
      cases rest with
      | nil => rfl
      | cons second rest =>
        have hsecond := hprepared.rooted second (by simp)
        simpa [isAbsolute] using hsecond

private theorem prepared_expand (hprepared : Prepared (init ++ part :: rest))
    (i : Nat) : Prepared (init ++ (List.replicate i wildcard ++ rest)) := by
  have hwild : wildcard.pattern ≠ rootMarker := by decide
  constructor
  · intro p hp
    simp only [mem_append] at hp
    rcases hp with hp | hp | hp
    · exact hprepared.valid p (by simp [hp])
    · rw [eq_of_mem_replicate hp]
      exact wildcard_valid
    · exact hprepared.valid p (by simp [hp])
  · have hrest : ∀ p ∈ replicate i wildcard ++ rest, p.pattern ≠ rootMarker := by
      intro p hp
      rcases mem_append.mp hp with hp | hp
      · rw [eq_of_mem_replicate hp]
        exact hwild
      · refine hprepared.rooted p ?_
        cases init <;> simp [hp]
    intro p hp
    cases init with
    | nil => exact hrest p (mem_of_mem_tail hp)
    | cons first init =>
      rcases mem_append.mp hp with hp | hp
      · exact hprepared.rooted p (by simp [hp])
      · exact hrest p hp

/-- The root marker is never among the components a `**` stands for. -/
private theorem matchedBy_expand (hinit : ∀ p ∈ init, p.isWild = false)
    (hpart : part.isWild) (hprepared : Prepared (init ++ part :: rest))
    (hstrs : Components strs) (i : Nat) (widths : List Nat) (run : List Bytes) :
    MatchedBy (init ++ part :: rest) strs (i :: widths) run ↔
      MatchedBy (init ++ (List.replicate i wildcard ++ rest)) strs widths run := by
  have hiff : ∀ before after, strs = before ++ (run ++ after) →
      Starts (init ++ part :: rest) strs before →
      (RunMatches (init ++ part :: rest) (i :: widths) run ↔
        RunMatches (init ++ (replicate i wildcard ++ rest)) widths run) := by
    intro before after hsplit hstart
    apply runMatches_expand hinit hpart
    intro str hstr
    have hmem := mem_of_mem_drop hstr
    have hafter : before ≠ [] → str ∈ strs.tail := by
      intro hbefore
      obtain ⟨first, before, rfl⟩ := exists_cons_of_ne_nil hbefore
      simp [hsplit, hmem]
    cases init with
    | cons first init =>
      apply hstrs.tail
      by_cases hbefore : before = []
      · have hrun : str ∈ run.tail := by
          rw [← drop_one]
          exact mem_of_mem_drop (i := init.length) (by simpa [Nat.add_comm] using hstr)
        cases run with
        | nil => simp at hrun
        | cons _ run => simp_all
      · exact hafter hbefore
    | nil =>
      have habs := isAbsolute_wild hpart rest
      by_cases hroot : strs.head? = some rootMarker
      · have hbefore : before ≠ [] := by simpa [Starts, habs, hroot] using hstart
        exact hstrs.tail str (hafter hbefore)
      · exact hstrs.head hroot str (by simp [hsplit, hmem])
  unfold MatchedBy
  have habs := isAbsolute_expand hpart hprepared i
  simp only [Starts, habs] at hiff ⊢
  constructor
  · rintro ⟨before, after, hsplit, hstart, hrun⟩
    exact ⟨before, after, hsplit, hstart, (hiff before after hsplit hstart).mp hrun⟩
  · rintro ⟨before, after, hsplit, hstart, hrun⟩
    exact ⟨before, after, hsplit, hstart, (hiff before after hsplit hstart).mpr hrun⟩

/-- `match` finds exactly the non-empty runs whose double wildcards fit. -/
theorem matchParts_decides {wild : Nat} (hcount : parts.countP PatternPart.isWild = wild)
    (hprepared : Prepared parts) (hstrs : Components strs) : Decides (matchParts wild parts strs)
      (∃ widths run, run ≠ [] ∧ MatchedBy parts strs widths run ∧
        Fits strs.length parts.length widths) := by
  induction wild generalizing parts with
  | zero =>
    have hstatic : ∀ part ∈ parts, part.isWild = false := by simpa [countP_eq_zero] using hcount
    by_cases hparts : parts = []
    · subst hparts
      obtain ⟨before, str, after, rfl, -⟩ := hstrs.proper
      refine ⟨false, by simp [matchParts, matchStatic], ?_⟩
      simp only [Bool.false_eq_true, false_iff]
      rintro ⟨widths, run, hne, ⟨_, _, _, _, hrun⟩, -⟩
      cases hrun
      exact hne rfl
    · apply (matchStatic_decides hparts hprepared.valid hstatic strs).congr
      constructor
      · rintro ⟨run, hrun⟩
        refine ⟨[], run, ?_, hrun, trivial⟩
        obtain ⟨_, _, _, _, hmatch⟩ := hrun
        rintro rfl
        exact hparts (length_eq_zero_iff.mp hmatch.length_eq.symm)
      · rintro ⟨widths, run, -, hrun, -⟩
        obtain ⟨_, _, _, _, hmatch⟩ := id hrun
        obtain rfl : widths = [] := by rw [← length_eq_zero_iff, hmatch.length_widths, hcount]
        exact ⟨run, hrun⟩
  | succ wild ih =>
    obtain ⟨init, part, rest, rfl, hinit, hpart, hpos⟩ := exists_first_wild hcount
    simp only [matchParts, hpos]
    have hexpand : ∀ i, expandAt (init ++ part :: rest) init.length i =
        init ++ (replicate i wildcard ++ rest) := by
      intro i
      simp [expandAt]
    simp only [hexpand]
    have hrest : ∀ i, (init ++ (replicate i wildcard ++ rest)).countP
        PatternPart.isWild = wild := by
      intro i
      have hstar : wildcard.isWild = false := by decide
      simp [countP_append, countP_replicate, hstar, hpart] at hcount ⊢
      omega
    have hany := decides_anyM (range (strs.length + 2 - (init ++ part :: rest).length))
      fun i _ => ih (hrest i) (prepared_expand hprepared i)
    apply hany.congr
    constructor
    · rintro ⟨i, hi, widths, run, hne, hrun, hfits⟩
      refine ⟨i :: widths, run, hne,
        (matchedBy_expand hinit hpart hprepared hstrs i widths run).mpr hrun, ?_, ?_⟩
      · have := mem_range.mp hi
        omega
      · convert hfits using 1
        simp
        omega
    · rintro ⟨widths, run, hne, hrun, hfits⟩
      obtain ⟨_, _, _, _, hmatch⟩ := id hrun
      obtain ⟨i, widths, rfl⟩ : ∃ i rest, widths = i :: rest := by
        apply exists_cons_of_length_eq_add_one (n := wild)
        rw [hmatch.length_widths, hcount]
      refine ⟨i, mem_range.mpr ?_, widths, run, hne,
        (matchedBy_expand hinit hpart hprepared hstrs i widths run).mp hrun, ?_⟩
      · have := hfits.1
        omega
      · convert hfits.2 using 1
        simp
        omega

private theorem runMatches_singleton (hparts : parts ≠ []) {components : Nat}
    (h : RunMatches parts widths []) (hfits : Fits components parts.length widths)
    (hpos : 0 < components) (str : Bytes) : ∃ widths', RunMatches parts widths' [str] ∧
      Fits components parts.length widths' := by
  induction parts generalizing widths with
  | nil => exact absurd rfl hparts
  | cons part parts ih =>
    cases hpart : part.isWild with
    | false => simp [runMatches_component hpart] at h
    | true =>
      obtain ⟨i, rest, rfl⟩ : ∃ i rest, widths = i :: rest := by
        apply exists_cons_of_length_eq_add_one
        rw [h.length_widths, countP_cons_of_pos hpart]
      obtain ⟨taken, after, hempty, rfl, hrest⟩ := (runMatches_wild hpart).mp h
      obtain ⟨rfl, rfl⟩ : taken = [] ∧ after = [] := by simpa using hempty.symm
      by_cases hlast : parts = []
      · subst hlast
        cases hrest
        refine ⟨[1], RunMatches.wild [str] hpart .nil, ?_, trivial⟩
        change 1 + 1 ≤ components + 1
        omega
      · obtain ⟨widths', hrun, hfits'⟩ := ih hlast hrest hfits.2
        exact ⟨0 :: widths', RunMatches.wild [] hpart hrun, hfits.1, hfits'⟩

theorem match_decides {pattern : Pattern} (hparts : pattern.parts ≠ [])
    (hprepared : Prepared pattern.parts) (hstrs : Components strs) : Decides («match» pattern strs)
      (∃ widths run, MatchedBy pattern.parts strs widths run ∧
        Fits strs.length pattern.parts.length widths) := by
  apply (matchParts_decides rfl hprepared hstrs).congr
  constructor
  · rintro ⟨widths, run, -, hrun⟩
    exact ⟨widths, run, hrun⟩
  · rintro ⟨widths, run, hrun, hfits⟩
    by_cases hne : run = []
    · -- take one component after the root marker into the last `**`
      subst hne
      obtain ⟨_, _, -, -, hmatch⟩ := hrun
      obtain ⟨before, str, after, hsplit, hroot⟩ := hstrs.proper
      have hpos : 0 < strs.length := by simp [hsplit]
      obtain ⟨widths', hmatch', hfits'⟩ := runMatches_singleton hparts hmatch hfits hpos str
      refine ⟨widths', [str], by simp, ⟨before, after, hsplit, ?_, hmatch'⟩, hfits'⟩
      obtain ⟨part, parts, hcons⟩ := exists_cons_of_ne_nil hparts
      rw [hcons] at hmatch ⊢
      cases hpart : part.isWild with
      | false => simp [runMatches_component hpart] at hmatch
      | true => simpa [Starts, isAbsolute_wild hpart] using hroot
    · exact ⟨widths, run, hne, hrun, hfits⟩

theorem matchStr_decides {patternStr str : Bytes}
    (hwell : WellFormed (patternParts patternStr)) (hstr : str ≠ []) :
    Decides (matchStr patternStr str)
      (∃ widths run, MatchedBy (patternParts patternStr) (splitPath str) widths run ∧
        Fits (splitPath str).length (patternParts patternStr).length widths) := by
  have hcomponents := splitPath_components hstr
  by_cases hpattern : patternStr = []
  · subst hpattern
    refine ⟨true, rfl, iff_of_true rfl ?_⟩
    obtain ⟨before, str, after, hsplit, hroot⟩ := hcomponents.proper
    exact ⟨[], [], ⟨before, str :: after, hsplit, hroot, .nil⟩, trivial⟩
  · have hparts : patternParts patternStr = (preparePattern patternStr).parts := if_neg hpattern
    rw [hparts] at hwell ⊢
    have hne : (preparePattern patternStr).parts ≠ [] := by
      simpa [preparePattern] using splitPath_ne_nil _
    simpa [matchStr, prepareStr, hpattern, hstr] using
      match_decides hne (preparePattern_prepared hwell) hcomponents

/-! ## Where the search is complete -/

theorem matchStr_iff_matches {patternStr str : Bytes}
    (hwell : WellFormed (patternParts patternStr)) (hstr : str ≠ []) :
    (matchStr patternStr str = .ok true ↔
        Matches (patternParts patternStr) (splitPath str)) ↔
      (Matches (patternParts patternStr) (splitPath str) →
        ∃ widths run, MatchedBy (patternParts patternStr) (splitPath str)
            widths run ∧
          Fits (splitPath str).length (patternParts patternStr).length widths) := by
  rw [(matchStr_decides hwell hstr).iff]
  constructor
  · intro hiff
    exact hiff.mpr
  · intro hcomplete
    constructor
    · rintro ⟨widths, run, hrun, -⟩
      exact ⟨widths, run, hrun⟩
    · exact hcomplete

theorem matchStr_iff_matches_example :
    matchStr (ascii "foo/**/bar/**/x") (ascii "/home/foo/bar/x") = .ok true ↔
      Matches (patternParts (ascii "foo/**/bar/**/x"))
        (splitPath (ascii "/home/foo/bar/x")) := by
  refine (matchStr_iff_matches (by unfold WellFormed; decide) (by decide)).mpr fun _ => ?_
  refine ⟨[0, 0], [ascii "foo", ascii "bar", ascii "x"],
    ⟨[ascii "/", ascii "home"], [], by decide, fun _ => by decide, ?_⟩, ?_⟩
  · exact .component rfl rfl (.wild [] rfl
      (.component rfl rfl (.wild [] rfl (.component rfl rfl .nil))))
  · exact ⟨by decide, by decide, trivial⟩

/--
The first `**` has to stand for `m`, but while the second one is counted as a
component there is no room left for it.
-/
theorem matchStr_not_iff_matches :
    ¬ ∀ patternStr str : Bytes, str ≠ [] →
      WellFormed (patternParts patternStr) →
      (matchStr patternStr str = .ok true ↔
        Matches (patternParts patternStr) (splitPath str)) := by
  intro hall
  have hiff := hall (ascii "foo/**/bar/**/x") (ascii "foo/m/bar/x")
    (by decide) (by unfold WellFormed; decide)
  have hmiss : matchStr (ascii "foo/**/bar/**/x") (ascii "foo/m/bar/x") = .ok false := by decide
  rw [hmiss] at hiff
  refine absurd (hiff.mpr ⟨[1, 0],
    [ascii "foo", ascii "m", ascii "bar", ascii "x"], [], [], by decide, ?_, ?_⟩) (by decide)
  · intro hroot
    exact absurd hroot (by decide)
  · exact .component rfl rfl (.wild [ascii "m"] rfl
      (.component rfl rfl (.wild [] rfl (.component rfl rfl .nil))))

end Rapi.Filter
