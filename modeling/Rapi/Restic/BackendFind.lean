import Rapi.Restic.Blob

/-!
# Finding files by a prefix of the name

`PrefixLength` looks for a length at which the prefixes of all file names are
different, and `Find` looks for the only name with a prefix.  The backend lists the
names in any order and can fail after some of them.
-/

namespace Rapi.Restic.BackendFind

open Foundation List

inductive Error (ε : Type)
  | multipleIDMatches (pre : Bytes)
  | noIDByPrefix (pre : Bytes)
  | list (err : ε)
  deriving DecidableEq

variable {ε : Type}

structure Listing (ε : Type) where
  names : List Bytes
  err : Option ε := none

/-- `List` calls a function for each of the files and stops at an error. -/
def Listing.forEach {σ : Type} (listing : Listing ε)
    (fn : σ → Bytes → Except (Error ε) σ) (init : σ) : Except (Error ε) σ := do
  let last ← listing.names.foldlM fn init
  match listing.err with
  | some err => .error (.list err)
  | none => .ok last

def startsWith (pre name : Bytes) : Bool := pre.length ≤ name.length ∧ pre = name.take pre.length

/-- The callback of `Find`.  An empty `found` stands for no match. -/
def findMatch (pre found name : Bytes) : Except (Error ε) Bytes :=
  if startsWith pre name then
    if found = [] then .ok name else .error (.multipleIDMatches pre)
  else .ok found

def find (listing : Listing ε) (pre : Bytes) : Except (Error ε) Bytes := do
  let found ← listing.forEach (findMatch pre) []
  if found ≠ [] then .ok found else .error (.noIDByPrefix pre)

def minPrefixLength : Nat := 8

/-- The inner loop: no prefix of length `l` is the same as the last one. -/
def differ (l : Nat) : Bytes → List Bytes → Bool
  | _, [] => true
  | last, name :: names =>
    if last = name.take l then false else differ l (name.take l) names

/-- The outer loop, which ends at the size of an ID in bytes. -/
def lengthFrom (names : List Bytes) : Nat → Nat → Nat
  | 0, l => l
  | fuel + 1, l => if differ l [] names then l else lengthFrom names fuel (l + 1)

def prefixLength (listing : Listing ε) : Except (Error ε) Nat := do
  let names ← listing.forEach (fun list name => .ok (list ++ [name])) []
  .ok (lengthFrom names (idSize - minPrefixLength) minPrefixLength)

/-! ## Prefixes of names -/

variable {names : List Bytes} {l : Nat}

def Distinct (names : List Bytes) (l : Nat) : Prop := (names.map (·.take l)).Nodup

def NeighboursDiffer (names : List Bytes) (l : Nat) : Prop :=
  names.IsChain fun first second => first.take l ≠ second.take l

theorem Distinct.mono {more : Nat} (h : Distinct names l) (hle : l ≤ more) :
    Distinct names more := by
  have hmap : names.map (·.take l) = (names.map (·.take more)).map (·.take l) := by
    simp [take_take, Nat.min_eq_left hle]
  rw [Distinct, hmap] at h
  exact List.Nodup.of_map _ h

theorem Distinct.neighboursDiffer (h : Distinct names l) : NeighboursDiffer names l := by
  have hpairwise := pairwise_map.mp h
  exact hpairwise.isChain

theorem differ_iff_chain (last : Bytes) :
    differ l (last.take l) names ↔ NeighboursDiffer (last :: names) l := by
  induction names generalizing last with
  | nil => simp [differ, NeighboursDiffer]
  | cons name names ih =>
    rw [NeighboursDiffer, isChain_cons_cons, differ]
    split
    · simp_all
    · rename_i hne
      rw [ih name]
      exact (and_iff_right hne).symm

theorem differ_iff (hnames : ∀ name ∈ names, name.take l ≠ []) :
    differ l [] names ↔ NeighboursDiffer names l := by
  cases names with
  | nil => simp [differ, NeighboursDiffer]
  | cons name names =>
    have hne : [] ≠ name.take l := (hnames name mem_cons_self).symm
    rw [differ, if_neg hne, differ_iff_chain]

theorem lengthFrom_spec (names : List Bytes) (fuel l : Nat) :
    l ≤ lengthFrom names fuel l ∧ lengthFrom names fuel l ≤ l + fuel ∧
      (differ (lengthFrom names fuel l) [] names ∨
        lengthFrom names fuel l = l + fuel) ∧
      ∀ k, l ≤ k → k < lengthFrom names fuel l → differ k [] names = false := by
  induction fuel generalizing l with
  | zero => exact ⟨le_rfl, le_rfl, Or.inr rfl, fun k hk hlt => absurd hk (Nat.not_le.mpr hlt)⟩
  | succ fuel ih =>
    rw [lengthFrom]
    split
    · rename_i hdiffer
      exact ⟨le_rfl, by omega, Or.inl hdiffer, fun k hk hlt => absurd hlt (by omega)⟩
    · rename_i hsame
      obtain ⟨hlow, hhigh, hend, hbefore⟩ := ih (l + 1)
      refine ⟨by omega, by omega, ?_, fun k hk hlt => ?_⟩
      · obtain hdiffer | hend := hend
        · exact Or.inl hdiffer
        · exact Or.inr (by omega)
      · obtain rfl | hnext := Nat.eq_or_lt_of_le hk
        · exact Bool.eq_false_of_not_eq_true hsame
        · exact hbefore k hnext hlt

/-! ## Finding a name -/

theorem findMatch_of_not {pre found : Bytes} (hnone : ∀ name ∈ names, startsWith pre name = false) :
    names.foldlM (findMatch pre) found = (.ok found : Except (Error ε) Bytes) := by
  induction names with
  | nil => rfl
  | cons name names ih =>
    rw [foldlM_cons, findMatch, if_neg (by simp [hnone name mem_cons_self])]
    exact ih fun other hother => hnone other (mem_cons_of_mem _ hother)

theorem find_of_distinct (hdistinct : Distinct names l)
    (hlength : ∀ name ∈ names, l ≤ name.length ∧ name ≠ []) {name : Bytes} (hname : name ∈ names) :
    find (⟨names, none⟩ : Listing ε) (name.take l) = .ok name := by
  obtain ⟨before, after, rfl⟩ := append_of_mem hname
  have hlen : (name.take l).length = l := by simp [(hlength name hname).1]
  have hstarts : ∀ other : Bytes, startsWith (name.take l) other → name.take l = other.take l := by
    intro other hother
    have hboth := of_decide_eq_true hother
    rw [hlen] at hboth
    exact hboth.2
  have hother : ∀ other ∈ before ++ after, startsWith (name.take l) other = false := by
    intro other hmem
    by_contra hstart
    have hsame := hstarts other (by simpa using hstart)
    have hnodup : ((name :: (before ++ after)).map (·.take l)).Nodup :=
      (perm_middle.map _).nodup_iff.mp hdistinct
    apply (nodup_cons.mp hnodup).1
    exact mem_map.mpr ⟨other, hmem, hsame.symm⟩
  have hself : findMatch (name.take l) [] name = (.ok name : Except (Error ε) Bytes) := by
    have hstart : startsWith (name.take l) name := by
      simp [startsWith, hlen, (hlength name hname).1]
    rw [findMatch, if_pos hstart, if_pos rfl]
  have hfold : (before ++ name :: after).foldlM (findMatch (name.take l)) [] =
      (.ok name : Except (Error ε) Bytes) := by
    rw [foldlM_append, findMatch_of_not fun other hmem => hother other (mem_append_left after hmem)]
    change ((name :: after).foldlM (findMatch (name.take l)) [] : Except (Error ε) Bytes) = .ok name
    rw [foldlM_cons, hself]
    exact findMatch_of_not fun other hmem => hother other (mem_append_right before hmem)
  simp only [find, Listing.forEach, hfold]
  exact if_pos (hlength name hname).2

theorem prefixLength_eq (names : List Bytes) : prefixLength (⟨names, none⟩ : Listing ε) =
      .ok (lengthFrom names (idSize - minPrefixLength) minPrefixLength) := by
  have hfold : ∀ list : List Bytes, names.foldlM (fun list name => .ok (list ++ [name])) list =
        (.ok (list ++ names) : Except (Error ε) (List Bytes)) := by
    induction names with
    | nil => simp [pure, Except.pure]
    | cons name names ih =>
      intro list
      exact (ih (list ++ [name])).trans (by simp)
  simp only [prefixLength, Listing.forEach, hfold]
  rfl

/-- The prefixes are distinct if no two names share 32 digits, and if names that share
eight digits or more share no more than some two that follow each other. -/
theorem prefixLength_unique_iff (names : List Bytes)
    (hlength : ∀ name ∈ names, name.length = 64) :
    ∃ l, prefixLength (⟨names, none⟩ : Listing ε) = .ok l ∧
      ((Distinct names l ∧
          (∀ name ∈ names, find (⟨names, none⟩ : Listing ε) (name.take l) = .ok name) ∧
          minPrefixLength ≤ l ∧
          ∀ other, minPrefixLength ≤ other → Distinct names other → l ≤ other) ↔
        Distinct names 32 ∧
          ∀ other, 8 ≤ other → NeighboursDiffer names other → Distinct names other) := by
  refine ⟨_, prefixLength_eq names, ?_⟩
  obtain ⟨hlow, hhigh, hend, hbefore⟩ :=
    lengthFrom_spec names (idSize - minPrefixLength) minPrefixLength
  set l := lengthFrom names (idSize - minPrefixLength) minPrefixLength
  have hsizes : minPrefixLength = 8 ∧ idSize = 32 := ⟨rfl, rfl⟩
  have hdiffer : ∀ other, 8 ≤ other → (differ other [] names ↔ NeighboursDiffer names other) := by
    intro other hother
    refine differ_iff fun name hname hempty => ?_
    have hzero := congrArg length hempty
    simp [hlength name hname] at hzero
    omega
  have hleast : ∀ other, 8 ≤ other → NeighboursDiffer names other → l ≤ other := by
    intro other hother hneighbours
    by_contra hlt
    have hfalse := hbefore other (by omega) (by omega)
    rw [(hdiffer other hother).mpr hneighbours] at hfalse
    cases hfalse
  constructor
  · rintro ⟨hdistinct, -, -, -⟩
    exact ⟨hdistinct.mono (by omega), fun other hother hneighbours =>
      hdistinct.mono (hleast other hother hneighbours)⟩
  · rintro ⟨hdistinct, hneighbours⟩
    have hl : Distinct names l := by
      obtain htrue | hl := hend
      · exact hneighbours l hlow ((hdiffer l hlow).mp htrue)
      · rw [hl]
        exact hdistinct
    refine ⟨hl, fun name hname => find_of_distinct hl ?_ hname, hlow, ?_⟩
    · intro other hother
      have hlen := hlength other hother
      exact ⟨by omega, ne_nil_of_length_pos (by omega)⟩
    · exact fun other hother hdistinct => hleast other hother hdistinct.neighboursDiffer

section Samples

def sampleName (position : Nat) : Bytes := (List.replicate 64 48).set position 49

theorem prefixLength_unique_iff_neighbours :
    ∃ l, prefixLength (⟨[sampleName 9, sampleName 11], none⟩ : Listing Empty) = .ok l ∧
      Distinct [sampleName 9, sampleName 11] l := by
  obtain ⟨l, hl, hiff⟩ := prefixLength_unique_iff (ε := Empty) [sampleName 9, sampleName 11]
    (by decide)
  refine ⟨l, hl, (hiff.mpr ⟨by unfold Distinct; decide, fun other hother h => ?_⟩).1⟩
  simpa [Distinct, NeighboursDiffer] using h

/-- The two names with the longest common prefix do not follow each other. -/
theorem prefixLength_too_short :
    let names := [sampleName 20, sampleName 0, sampleName 21]
    prefixLength (⟨names, none⟩ : Listing Empty) = .ok 8 ∧ ¬Distinct names 8 ∧
      find (⟨names, none⟩ : Listing Empty) ((sampleName 20).take 8) =
        .error (.multipleIDMatches ((sampleName 20).take 8)) := by
  unfold Distinct
  decide

end Samples

end Rapi.Restic.BackendFind
