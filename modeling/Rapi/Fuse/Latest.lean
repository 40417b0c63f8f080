import Rapi.Fuse.SnapshotsDir

/-!
# The latest snapshot of a directory

A directory of snapshots remembers the name of the latest one.  The name is recorded
before it is made different from the names that are taken, so it may belong to an
older snapshot.
-/

namespace Rapi.Fuse

open Foundation List

variable {format : Int → Int → Bytes} {l before after : List Snapshot}

/-! ## The names of a list of snapshots -/

/-- The snapshots take their names one after the other, and none shares its name. -/
def Has (format : Int → Int → Bytes) (l : List Snapshot) : Bytes → Snapshot → Prop :=
  Holds (fun _ _ => False) (l.reverse.map fun sn => (sn, format sn.time sn.zone))

/-- The name that `sn` takes after the ones before it. -/
def GetsName (format : Int → Int → Bytes) (before : List Snapshot) (sn : Snapshot)
    (name : Bytes) : Prop :=
  Takes (fun _ _ => False) (Has format before) sn (format sn.time sn.zone) name

/-- The name of the first snapshot that is newer than all after it and does not have an
empty name. -/
def latestName (format : Int → Int → Bytes) : List Snapshot → Bytes
  | [] => []
  | sn :: after =>
    if format sn.time sn.zone ≠ [] ∧ ∀ other ∈ after, other.time < sn.time then
      format sn.time sn.zone
    else latestName format after

theorem has_concat {sn : Snapshot} {name : Bytes} (h : GetsName format before sn name)
    (other : Bytes) (holder : Snapshot) : Has format (before ++ [sn]) other holder ↔
      Has format before other holder ∨ holder = sn ∧ other = name := by
  rw [Has, reverse_append]
  exact h.holds_cons other holder

theorem exists_latestName (format : Int → Int → Bytes) (hl : l ≠ []) :
    ∃ sn ∈ l, format sn.time sn.zone = latestName format l := by
  induction l with
  | nil => exact absurd rfl hl
  | cons sn after ih =>
    rw [latestName]
    split
    · exact ⟨sn, mem_cons_self, rfl⟩
    · rename_i hreplaced
      cases after with
      | nil =>
        refine ⟨sn, mem_cons_self, ?_⟩
        by_contra hname
        exact hreplaced ⟨hname, fun other hother => absurd hother not_mem_nil⟩
      | cons next after =>
        obtain ⟨found, hfound, hname⟩ := ih (cons_ne_nil next after)
        exact ⟨found, mem_cons_of_mem sn hfound, hname⟩

theorem exists_has_latestName (format : Int → Int → Bytes) (hl : l ≠ []) :
    ∃ holder, Has format l (latestName format l) holder := by
  obtain ⟨sn, hsn, hname⟩ := exists_latestName format hl
  rw [← hname]
  exact exists_holds (mem_map.mpr ⟨sn, mem_reverse.mpr hsn, rfl⟩)

/-! ## The loop over the snapshots -/

def namesOf (format : Int → Int → Bytes) (l : List Snapshot) : Names := l.foldl (addName format) {}

theorem namesOf_concat (l : List Snapshot) (sn : Snapshot) :
    namesOf format (l ++ [sn]) = addName format (namesOf format l) sn := by
  rw [namesOf, foldl_append]
  rfl

theorem namesOf_entries (format : Int → Int → Bytes) (l : List Snapshot) :
    (namesOf format l).names.names.Nodup ∧
      (namesOf format l).names.map Prod.snd = l.reverse := by
  induction l using reverseRecOn with
  | nil => exact ⟨nodup_nil, rfl⟩
  | append_singleton l sn ih =>
    rw [namesOf_concat, reverse_append]
    exact ⟨nodup_cons.mpr ⟨Names.freeName_not_mem format _ sn, ih.1⟩, congrArg (sn :: ·) ih.2⟩

theorem getsName_freeName {d : Names}
    (h : ∀ name holder, d.names.load name = some holder ↔ Has format l name holder)
    (sn : Snapshot) : GetsName format l sn (d.freeName format sn) := by
  have hnames (name : Bytes) : name ∈ d.names.names ↔ ∃ holder, Has format l name holder :=
    Store.mem_names_iff.trans (exists_congr (h name))
  obtain ⟨i, hname, hbefore, hfree⟩ := d.exists_freeName format sn
  rw [hname]
  refine ⟨i, rfl, fun j hj => ?_, fun holder hholder => ?_⟩
  · obtain ⟨holder, hholder⟩ := (hnames _).mp (hbefore j hj)
    exact ⟨holder, hholder, not_false⟩
  · exact hfree ((hnames _).mpr ⟨holder, hholder⟩)

theorem load_namesOf (l : List Snapshot) (name : Bytes) (holder : Snapshot) :
    (namesOf format l).names.load name = some holder ↔ Has format l name holder := by
  induction l using reverseRecOn generalizing name holder with
  | nil => exact iff_of_false (by simp [namesOf]) not_false
  | append_singleton l sn ih =>
    rw [namesOf_concat, has_concat (getsName_freeName ih sn), ← ih]
    exact Store.load_save_iff (Names.freeName_not_mem format _ sn)

theorem has_append {sn : Snapshot} {name : Bytes} (h : Has format before name sn)
    (after : List Snapshot) : Has format (before ++ after) name sn := by
  induction after using reverseRecOn with
  | nil => rwa [append_nil]
  | append_singleton after other ih =>
    rw [← append_assoc]
    exact (has_concat (getsName_freeName (load_namesOf _) other) name sn).mpr (Or.inl ih)

theorem has_unique {name : Bytes} {first second : Snapshot} (h : Has format l name first)
    (h' : Has format l name second) : first = second := by
  rw [← load_namesOf] at h h'
  exact Option.some.inj (h.symm.trans h')

/-- What is recorded stays if it has a name and no snapshot is as new. -/
theorem latest_foldl (d : Names) (l : List Snapshot) : (l.foldl (addName format) d).latest =
      if d.latest ≠ [] ∧ ∀ other ∈ l, other.time < d.latestTime then d.latest
      else latestName format l := by
  induction l generalizing d with
  | nil => by_cases hlatest : d.latest = [] <;> simp [latestName, hlatest]
  | cons sn after ih =>
    rw [foldl_cons, ih]
    by_cases hnewer : d.latest = [] ∨ ¬sn.time < d.latestTime
    · have hnot : ¬(d.latest ≠ [] ∧ ∀ other ∈ sn :: after, other.time < d.latestTime) := by
        rintro ⟨hlatest, hold⟩
        exact hnewer.elim hlatest fun htime => htime (hold sn mem_cons_self)
      rw [if_neg hnot, latestName]
      simp only [addName, if_pos hnewer]
    · obtain ⟨hlatest, htime⟩ := not_or.mp hnewer
      rw [not_not] at htime
      simp only [addName, if_neg hnewer]
      simp only [forall_mem_cons, htime, true_and]
      split
      · rfl
      · -- one of the snapshots after it is as new as the recorded one, and so newer
        rename_i hreplaced
        rw [latestName, if_neg]
        rintro ⟨-, hold⟩
        refine hreplaced ⟨hlatest, fun other hother => ?_⟩
        exact (hold other hother).trans htime

/-- Each snapshot of the directory has one name, and the loop that looks for it ends.
The name of the latest snapshot is recorded if the snapshot that has the recorded name
is as new as all others. -/
theorem updateSnapshotNames_latest_iff (format : Int → Int → Bytes) (tag host : Bytes)
    (root : Root) (dir : Cached Names) (hcount : dir.snCount ≠ root.snCount) :
    let d := (updateSnapshotNames format tag host root dir).content
    let l := root.snapshots.filter (belongs tag host)
    (d.names.names.Nodup ∧ (d.names.map Prod.snd).Perm l) ∧
      (∀ before sn after, l = before ++ sn :: after →
        ∃ name, GetsName format before sn name ∧ d.names.load name = some sn) ∧
      ((∀ other ∈ l, ∃ sn, d.names.load d.latest = some sn ∧ other.time ≤ sn.time) ↔
        ∀ sn, Has format l (latestName format l) sn → ∀ other ∈ l, other.time ≤ sn.time) := by
  intro d l
  have hd : d = namesOf format l := by
    simp only [d, updateSnapshotNames, Cached.update, if_pos hcount]
    rfl
  have hlatest : d.latest = latestName format l := by
    rw [hd]
    exact (latest_foldl {} l).trans (if_neg fun h => h.1 rfl)
  obtain ⟨hnodup, hentries⟩ := namesOf_entries format l
  rw [hlatest, hd]
  simp only [load_namesOf]
  refine ⟨⟨hnodup, hentries ▸ l.reverse_perm⟩, ?_, ?_⟩
  · intro before sn after hl
    have hname : GetsName format before sn _ := getsName_freeName (load_namesOf before) sn
    refine ⟨_, hname, ?_⟩
    rw [hl, append_cons]
    exact has_append ((has_concat hname _ sn).mpr (Or.inr ⟨rfl, rfl⟩)) after
  · constructor
    · intro hlatest sn hsn other hother
      obtain ⟨found, hfound, htime⟩ := hlatest other hother
      rwa [has_unique hsn hfound]
    · intro hnewest other hother
      obtain ⟨sn, hsn⟩ := exists_has_latestName format (ne_nil_of_mem hother)
      exact ⟨sn, hsn, hnewest sn hsn other hother⟩

section Samples

/-- Snapshots of the same minute have the same name. -/
def minutes : Int → Int → Bytes := fun time _ => decimal (time / 60).toNat

/-- The newer one of two snapshots of the same minute comes first. -/
theorem updateSnapshotNames_latest_iff_newest_first :
    let l := [sampleSnapshot 61, sampleSnapshot 60, sampleSnapshot 59]
    ∀ sn, Has minutes l (latestName minutes l) sn → ∀ other ∈ l, other.time ≤ sn.time := by
  intro l
  have hlatest := updateSnapshotNames_latest_iff minutes [] (ascii "host")
    ⟨{ sampleSnapshot 62 with hostname := [] } :: l, 4, 0⟩ { content := {} } (by decide)
  refine hlatest.2.2.mp fun other hother => ⟨sampleSnapshot 61, by decide, ?_⟩
  revert other
  decide

/-- The older one of the two comes first, and its name is recorded. -/
theorem latest_not_newest :
    ¬∀ (format : Int → Int → Bytes) (tag host : Bytes) (root : Root) (dir : Cached Names),
      dir.snCount ≠ root.snCount →
      let d := (updateSnapshotNames format tag host root dir).content
      ∀ other ∈ root.snapshots.filter (belongs tag host),
        ∃ sn, d.names.load d.latest = some sn ∧ other.time ≤ sn.time := by
  intro hall
  obtain ⟨sn, hload, htime⟩ := hall minutes [] [] ⟨[sampleSnapshot 60, sampleSnapshot 61], 2, 0⟩
    { content := {} } (by decide) (sampleSnapshot 61) (by decide)
  obtain rfl : sampleSnapshot 60 = sn := Option.some.inj hload
  exact absurd htime (by decide)

end Samples

end Rapi.Fuse
