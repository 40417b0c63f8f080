import Rapi.Restorer.Passes
import Rapi.Restorer.TraverseTree

/-!
# When all files are restored

A file that is to become a hard link is lost when its path exists already:
`restoreHardlinkAt` removes the path and returns without making the link.  Files
that are opened for writing keep the inodes they have, so that files of
different content must not share one.  The size of a node decides whether it is
written at all and how much is allocated for it.  All files are restored exactly
when nothing of this goes wrong.
-/

namespace Rapi.Restorer

open Foundation Foundation.FilePath Restic List Option FileSystem

/-! ## Paths in the second pass -/

section Frame

variable {visits done : List Visit} {visit : Visit} {start fs fs' : FileSystem}

theorem Step.lookup_other (h : Step visits done visit fs fs') {path : Bytes}
    (hpath : path ≠ visit.target) : fs'.lookup path = fs.lookup path := by
  cases h with
  | special hother hmknod => rw [(mknod_spec hmknod).1]
  | kept hfile hlinked hnonempty => rfl
  | created hfile hlinked hempty hcreate =>
    obtain ⟨inode, -, -, hothers, -⟩ := create_spec hcreate
    exact hothers path hpath
  | relinked hfile hlinked hprimary hready hlink =>
    obtain ⟨inode, -, -, -, hothers, -⟩ := link_spec hlink
    exact hothers path hpath
  | lost hfile hlinked hoccupied => rw [lookup_remove, if_neg hpath]

theorem Step.specials_other (h : Step visits done visit fs fs') {path : Bytes}
    (hpath : path ≠ visit.target) (hspecial : path ∈ fs'.specials) : path ∈ fs.specials := by
  cases h with
  | special hother hmknod =>
    rw [(mknod_spec hmknod).2.1, mem_cons] at hspecial
    exact hspecial.resolve_left hpath
  | kept hfile hlinked hnonempty => exact hspecial
  | created hfile hlinked hempty hcreate =>
    obtain ⟨inode, -, -, -, hspecials, -⟩ := create_spec hcreate
    exact hspecials ▸ hspecial
  | relinked hfile hlinked hprimary hready hlink =>
    obtain ⟨inode, -, -, -, -, hspecials, -⟩ := link_spec hlink
    exact hspecials ▸ hspecial
  | lost hfile hlinked hoccupied => exact (mem_filter.mp hspecial).1

variable (htargets : (visits.map Visit.target).Nodup)
include htargets

private theorem target_ne {first second : Visit} (hfirst : first ∈ visits)
    (hsecond : second ∈ visits) (hne : first ≠ second) :
    first.target ≠ second.target := fun hsame =>
  hne (inj_on_of_nodup_map htargets hfirst hsecond hsame)

theorem Steps.frame (h : Steps visits start done fs) (hvisit : visit ∈ visits)
    (hnew : visit ∉ done) : fs.lookup visit.target = start.lookup visit.target ∧
      (visit.target ∈ fs.specials → visit.target ∈ start.specials) := by
  induction h with
  | start => exact ⟨rfl, id⟩
  | visit before hmem hfirst hdone step ih =>
    rw [mem_append, mem_singleton, not_or] at hnew
    have hpath := target_ne htargets hvisit hmem hnew.2
    obtain ⟨hlookup, hspecials⟩ := ih hnew.1
    exact ⟨(step.lookup_other hpath).trans hlookup,
      fun hspecial => hspecials (step.specials_other hpath hspecial)⟩

theorem Steps.lookup_lost (h : Steps visits start done fs) (hvisit : visit ∈ visits)
    (hdone : visit ∈ done) (hfile : visit.isFile) (hlinked : linked visits visit) {inode : Nat}
    (hstart : start.lookup visit.target = some inode) : fs.lookup visit.target = none := by
  induction h with
  | start => cases hdone
  | @visit done current fs fs' before hmem hfirst hsubset step ih =>
    by_cases hsame : visit = current
    · subst hsame
      have hfound := ((before.frame htargets hvisit hfirst).1).trans hstart
      cases step with
      | special hother hmknod => rw [hfile] at hother; cases hother
      | kept hfile hlink | created hfile hlink => rw [hlinked] at hlink; cases hlink
      | relinked hfile hlinked hprimary hready hlink =>
        obtain ⟨-, -, hnone, -⟩ := link_spec hlink
        rw [hnone] at hfound
        cases hfound
      | lost hfile hlinked hoccupied => rw [lookup_remove, if_pos rfl]
    · rw [step.lookup_other (target_ne htargets hvisit hmem hsame)]
      exact ih ((mem_append.mp hdone).resolve_right (by simpa using hsame))

end Frame

/-! ## Contents in the second pass -/

/-- A file that does not become a link to another one. -/
def Alone (visits : List Visit) (visit : Visit) : Prop :=
  visit ∈ visits ∧ visit.isFile ∧ linked visits visit = false

section Contents

variable {plaintext : ID → Bytes} {visits done : List Visit} {visit other : Visit}
  {start fs fs' : FileSystem} {inode : Nat}

/-- Two files that are alone and share an inode did so before. -/
def Separate (visits : List Visit) (start fs : FileSystem) : Prop :=
  ∀ visit other, Alone visits visit → Alone visits other → ∀ inode,
    fs.lookup visit.target = some inode → fs.lookup other.target = some inode → visit = other ∨
      start.lookup visit.target = some inode ∧ start.lookup other.target = some inode

/-- An empty file was made on this inode. -/
def Emptied (visits done : List Visit) (fs : FileSystem) (inode : Nat) : Prop :=
  ∃ visit ∈ done, Alone visits visit ∧ visit.isEmpty ∧
    fs.lookup visit.target = some inode

variable (htargets : (visits.map Visit.target).Nodup)
include htargets

theorem Separate.of_extends (h : start.Extends fs) : Separate visits start fs := by
  intro visit other hvisit hother inode hlookup hlookup'
  refine (h.shared _ _ _ hlookup hlookup').imp_left fun hsame => ?_
  exact inj_on_of_nodup_map htargets hvisit.1 hother.1 hsame

/-- What a step does to a file that is alone, other than the visited one. -/
private theorem Step.lookup_alone (h : Step visits done visit fs fs') (hvisit : visit ∈ visits)
    (hother : Alone visits other) (hready : other ≠ visit ∨ linked visits visit) :
    fs'.lookup other.target = fs.lookup other.target := by
  apply h.lookup_other
  apply target_ne htargets hother.1 hvisit
  rcases hready with hne | hlinked
  · exact hne
  · rintro rfl
    rw [hother.2.2] at hlinked
    cases hlinked

/-- Only an empty file changes inodes or paths of files that are alone. -/
private theorem Step.cases_alone (h : Step visits done visit fs fs') (hvisit : visit ∈ visits) :
    (∀ other, Alone visits other → fs'.lookup other.target = fs.lookup other.target) ∧
        fs'.inodes = fs.inodes ∧ ¬ (Alone visits visit ∧ visit.isEmpty) ∨
      ∃ inode, Alone visits visit ∧ visit.isEmpty ∧ fs.Extends fs' ∧
        fs'.lookup visit.target = some inode ∧
        fs'.inodes = Function.update fs.inodes inode [] := by
  have hstep := h
  cases h with
  | special hother hmknod =>
    obtain ⟨hlookup, -, hinodes⟩ := mknod_spec hmknod
    refine Or.inl ⟨fun other _ => by rw [hlookup], hinodes, fun hempty => ?_⟩
    rw [hempty.1.2.1] at hother
    cases hother
  | kept hfile hlinked hnonempty =>
    refine Or.inl ⟨fun _ _ => rfl, rfl, fun hempty => ?_⟩
    rw [hempty.2] at hnonempty
    cases hnonempty
  | created hfile hlinked hempty hcreate =>
    obtain ⟨inode, hsome, hbefore, hothers, -, hinodes⟩ := create_spec hcreate
    exact Or.inr ⟨inode, ⟨hvisit, hfile, hlinked⟩, hempty,
      .of_created hsome hbefore hothers, hsome, hinodes⟩
  | relinked hfile hlinked hprimary hready hlink =>
    obtain ⟨-, -, -, -, -, -, hinodes⟩ := link_spec hlink
    refine Or.inl ⟨fun other hother =>
      hstep.lookup_alone htargets hvisit hother (Or.inr hlinked), hinodes, fun hempty => ?_⟩
    rw [hempty.1.2.2] at hlinked
    cases hlinked
  | lost hfile hlinked hoccupied =>
    refine Or.inl ⟨fun other hother =>
      hstep.lookup_alone htargets hvisit hother (Or.inr hlinked), rfl, fun hempty => ?_⟩
    rw [hempty.1.2.2] at hlinked
    cases hlinked

theorem Steps.lookup_mono (h : Steps visits start done fs) (halone : Alone visits visit)
    (hstart : start.lookup visit.target = some inode) : fs.lookup visit.target = some inode := by
  induction h with
  | start => exact hstart
  | visit before hmem hnew hdone step ih =>
    rcases step.cases_alone htargets hmem with ⟨hkept, -⟩ | ⟨-, -, -, hadded, -⟩
    · rw [hkept visit halone, ih]
    · exact hadded.lookup_mono _ _ ih

theorem Steps.lookup_nonempty (h : Steps visits start done fs) (halone : Alone visits visit)
    (hnonempty : visit.isEmpty = false) : fs.lookup visit.target = start.lookup visit.target := by
  induction h with
  | start => rfl
  | @visit done current fs fs' before hmem hnew hdone step ih =>
    rw [← ih]
    rcases step.cases_alone htargets hmem with ⟨hkept, -⟩ | ⟨-, -, hempty, -⟩
    · exact hkept visit halone
    · refine step.lookup_alone htargets hmem halone (Or.inl ?_)
      rintro rfl
      rw [hempty] at hnonempty
      cases hnonempty

theorem Steps.separate (h : Steps visits start done fs) : Separate visits start fs := by
  induction h with
  | start => exact .of_extends htargets (.of_lookup_eq rfl)
  | visit before hmem hnew hdone step ih =>
    intro visit other hvisit hother inode hlookup hlookup'
    rcases step.cases_alone htargets hmem with ⟨hkept, -⟩ | ⟨-, -, -, hadded, -⟩
    · rw [hkept visit hvisit] at hlookup
      rw [hkept other hother] at hlookup'
      exact ih visit other hvisit hother inode hlookup hlookup'
    · rcases hadded.shared _ _ _ hlookup hlookup' with hsame | ⟨hlookup, hlookup'⟩
      · exact Or.inl (inj_on_of_nodup_map htargets hvisit.1 hother.1 hsame)
      · exact ih visit other hvisit hother inode hlookup hlookup'

/-- The second pass empties some inodes and leaves the others as they are. -/
theorem Steps.inodes (h : Steps visits start done fs) (inode : Nat) :
    (Emptied visits done fs inode → fs.inodes inode = []) ∧
      (¬ Emptied visits done fs inode → fs.inodes inode = start.inodes inode) := by
  induction h with
  | start =>
    refine ⟨?_, fun _ => rfl⟩
    rintro ⟨_, hmem, -⟩
    cases hmem
  | @visit done visit fs fs' before hmem hnew hdone step ih =>
    rcases step.cases_alone htargets hmem with
      ⟨hkept, hinodes, hnot⟩ | ⟨found, halone, hempty, hadded, hfound, hinodes⟩
    · have hsame : Emptied visits (done ++ [visit]) fs' inode ↔
          Emptied visits done fs inode := by
        constructor
        · rintro ⟨other, hother, halone, hempty, hlookup⟩
          rw [mem_append, mem_singleton] at hother
          have hold := hother.resolve_right fun heq => hnot (heq ▸ ⟨halone, hempty⟩)
          exact ⟨other, hold, halone, hempty, hkept other halone ▸ hlookup⟩
        · rintro ⟨other, hother, halone, hempty, hlookup⟩
          exact ⟨other, mem_append_left _ hother, halone, hempty,
            (hkept other halone).trans hlookup⟩
      rw [hsame, hinodes]
      exact ih
    · by_cases hsame : inode = found
      · subst hsame
        rw [hinodes, Function.update_self]
        exact ⟨fun _ => rfl, fun hnone => absurd ⟨visit, by simp, halone, hempty, hfound⟩ hnone⟩
      · rw [hinodes, Function.update_of_ne hsame]
        have hiff : Emptied visits (done ++ [visit]) fs' inode ↔
            Emptied visits done fs inode := by
          constructor
          · rintro ⟨other, hother, halone', hempty, hlookup⟩
            have hne : other ≠ visit := by
              rintro rfl
              rw [hfound] at hlookup
              exact hsame (Option.some.inj hlookup).symm
            rw [mem_append, mem_singleton] at hother
            refine ⟨other, hother.resolve_right hne, halone', hempty, ?_⟩
            rw [← step.lookup_alone htargets hmem halone' (Or.inl hne), hlookup]
          · rintro ⟨other, hother, halone', hempty, hlookup⟩
            exact ⟨other, mem_append_left _ hother, halone', hempty, hadded.lookup_mono _ _ hlookup⟩
        rw [hiff]
        exact ih

omit htargets in
/-- The path of the file leads to the inode of one that is alone and has the same
content. -/
def Owned (plaintext : ID → Bytes) (visits : List Visit) (fs : FileSystem) (visit : Visit) : Prop :=
  ∃ owner, Alone visits owner ∧ owner.content plaintext = visit.content plaintext ∧
    ∃ inode, fs.lookup owner.target = some inode ∧ fs.lookup visit.target = some inode

theorem Steps.owned (hconsistent : Consistent plaintext visits) (h : Steps visits start done fs)
    (hstart : ∀ visit, Alone visits visit → visit.isEmpty = false →
      start.lookup visit.target ≠ none) (hfree : ∀ visit ∈ visits, visit.isFile →
      linked visits visit → start.occupied visit.target = false) (hvisit : visit ∈ visits)
    (hfile : visit.isFile)
    (hready : visit ∈ done ∨ visit.isEmpty = false ∧ linked visits visit = false) :
    Owned plaintext visits fs visit := by
  induction h generalizing visit with
  | start =>
    obtain ⟨hnonempty, hlinked⟩ := hready.resolve_left (by simp)
    have halone : Alone visits visit := ⟨hvisit, hfile, hlinked⟩
    obtain ⟨inode, hinode⟩ := ne_none_iff_exists'.mp (hstart visit halone hnonempty)
    exact ⟨visit, halone, rfl, inode, hinode, hinode⟩
  | @visit done current fs fs' before hmem hnew hdone step ih =>
    by_cases hsame : visit = current
    · subst hsame
      cases step with
      | special hother hmknod => rw [hfile] at hother; cases hother
      | kept hfile hlinked hnonempty => exact ih hvisit hfile (Or.inr ⟨hnonempty, hlinked⟩)
      | created hfile hlinked hempty hcreate =>
        obtain ⟨inode, hsome, -⟩ := create_spec hcreate
        exact ⟨visit, ⟨hvisit, hfile, hlinked⟩, rfl, inode, hsome, hsome⟩
      | @relinked _ first hfile hlinked hprimary hready hlink =>
        obtain ⟨inode, hfound, -, hlinkedTo, hothers, -⟩ := link_spec hlink
        obtain ⟨hfirst, hfile', -, hkey⟩ := primary_spec hprimary
        obtain ⟨owner, halone, hcontent, found, hown, hsame⟩ := ih hfirst hfile'
          (hready.imp_right fun hnonempty => ⟨hnonempty, not_linked_primary hprimary⟩)
        rw [hfound] at hsame
        cases hsame
        refine ⟨owner, halone, hcontent.trans
          (hconsistent first hfirst visit hvisit hfile' hfile hkey), inode, ?_, hlinkedTo⟩
        rw [hothers, hown]
        apply target_ne htargets halone.1 hvisit
        rintro rfl
        rw [halone.2.2] at hlinked
        cases hlinked
      | lost hfile hlinked hoccupied =>
        obtain ⟨hlookup, hspecials⟩ := before.frame htargets hvisit hnew
        have hnone := hfree visit hvisit hfile hlinked
        simp only [FileSystem.occupied, hlookup, Bool.or_eq_true, Bool.or_eq_false_iff,
          decide_eq_true_eq, decide_eq_false_iff_not] at hoccupied hnone
        rw [hnone.1] at hoccupied
        exact absurd (hspecials (hoccupied.resolve_left (by simp))) hnone.2
    · obtain ⟨owner, halone, hcontent, inode, hown, hlookup⟩ := ih hvisit hfile
        (hready.imp_left fun hdone => (mem_append.mp hdone).resolve_right (by simpa using hsame))
      refine ⟨owner, halone, hcontent, inode, ?_, ?_⟩
      · rcases step.cases_alone htargets hmem with ⟨hkept, -⟩ | ⟨-, -, -, hadded, -⟩
        · rw [hkept owner halone, hown]
        · exact hadded.lookup_mono _ _ hown
      · rw [step.lookup_other (target_ne htargets hvisit hmem hsame), hlookup]

end Contents

/-! ## The whole restore -/

/-- The file is opened with truncation: it is made in the second pass, or has
blobs and a size that is not negative as a signed number. -/
def Visit.truncates (visit : Visit) : Bool :=
  visit.isEmpty || (visit.node.content ≠ [] && 0 ≤ visit.info.size)

/-- No hard link to be made was there before, and none was written before. -/
def LinksFree (visits : List Visit) (before : FileSystem) : Prop :=
  ∀ visit ∈ visits, visit.isFile → linked visits visit →
    (visit.node.content = [] ∨ 1 < visit.node.links) ∧ before.lookup visit.target = none

def Shared (fs : FileSystem) (visit other : Visit) : Prop :=
  ∃ inode, fs.lookup visit.target = some inode ∧ fs.lookup other.target = some inode

structure Restorable (plaintext : ID → Bytes) (visits : List Visit)
    (schedule : List FileEvent) (before : FileSystem) : Prop where
  links : LinksFree visits before
  /-- Files that are no links and share an inode have the same content. -/
  sharing : ∀ visit other, Alone visits visit → Alone visits other →
    Shared before visit other → visit.content plaintext = other.content plaintext
  empty : ∀ visit, Alone visits visit → visit.isEmpty → visit.content plaintext = []
  /-- No more is allocated than written, unless the inode is truncated again. -/
  size : ∀ visit first rest, Alone visits visit →
    schedule = first ++ .create visit.info true :: rest →
    visit.info.size ≤ (visit.content plaintext).length ∨
      ∃ other, Alone visits other ∧ Shared before visit other ∧
        (other.isEmpty ∨
          0 ≤ other.info.size ∧ ∃ allocated, .create other.info allocated ∈ rest)
  /-- What was there is not longer, or it is truncated. -/
  fits : ∀ visit, Alone visits visit → visit.truncates ∨
    (∃ inode, before.lookup visit.target = some inode ∧
      (before.inodes inode).length ≤ (visit.content plaintext).length) ∨
    ∃ other, Alone visits other ∧ Shared before visit other ∧ other.truncates

def AllRestored (plaintext : ID → Bytes) (visits : List Visit) (fs : FileSystem) : Prop :=
  ∀ visit ∈ visits, visit.isFile → fs.read visit.target = some (visit.content plaintext)

theorem AllRestored.exists_inode {plaintext : ID → Bytes} {visits : List Visit} {fs : FileSystem}
    {visit : Visit} (h : AllRestored plaintext visits fs) (halone : Alone visits visit) :
    ∃ inode, fs.lookup visit.target = some inode ∧
      fs.inodes inode = visit.content plaintext := map_eq_some_iff.mp (h visit halone.1 halone.2.1)

theorem chunks_info_ne_nil {plaintext : ID → Bytes} {visit : Visit} :
    visit.info.chunks plaintext ≠ [] ↔ visit.node.content ≠ [] := by
  unfold Visit.info FileInfo.chunks
  cases visit.node.content <;> simp [chunks]

theorem truncates_iff {visit : Visit} (hnonempty : visit.isEmpty = false) :
    visit.truncates ↔ visit.node.content ≠ [] ∧ 0 ≤ visit.info.size := by
  simp [Visit.truncates, hnonempty]

namespace RestoreTo

variable {plaintext : ID → Bytes} {dst : Bytes} {tree : Tree}
  {before after : FileSystem} (run : RestoreTo plaintext dst tree before after)
  (hdst : isAbs dst) (hnamed : tree.Named)

theorem opened : Opened dst run.schedule run.first.state.fs run.written :=
  runFileEvents_opened run.written_eq

section Passes

include run hdst hnamed

theorem collected : Collected before (visits dst tree) run.first.state := by
  have hevents := Tree.runEvents_of_traverse firstPass dst [separator] tree
    ⟨before, [], []⟩ (run.first_eq ▸ run.first_ok)
  rw [← run.first_eq] at hevents
  have hnodup := (visits_targets_nodup hdst hnamed).of_map
  have hstart : Collected before [] ⟨before, [], []⟩ := ⟨rfl, rfl, rfl, fun _ => rfl, by simp⟩
  exact firstPass_collected hstart hnodup hevents

theorem steps : Steps (visits dst tree) run.written (visits dst tree) after := by
  have hevents := Tree.runEvents_of_traverse (secondPass dst) dst [separator]
    tree ⟨run.written, run.first.state.idx⟩ (run.second_eq ▸ run.second_ok)
  rw [← run.second_eq] at hevents
  have htargets := visits_targets_nodup hdst hnamed
  have hjoin : ∀ visit ∈ visits dst tree, join dst visit.location = visit.target :=
    fun visit hvisit => join_location hdst hnamed hvisit
  have hlocations : ∀ visit ∈ visits dst tree, ∀ other ∈ visits dst tree,
      other.location = visit.location → other = visit := by
    intro visit hvisit other hother hsame
    apply inj_on_of_nodup_map htargets hother hvisit
    rw [← hjoin other hother, ← hjoin visit hvisit, hsame]
  have hidx : Indexed (visits dst tree) [] run.first.state.idx := by
    intro key
    rw [(run.collected hdst hnamed).idx]
    simp [firstEmpty]
  have hsteps := secondPass_steps htargets.of_map hjoin hlocations
    (nil_append _).symm .start hidx hevents
  rw [← run.after_eq] at hsteps
  exact hsteps

theorem extends_written : before.Extends run.written :=
  (FileSystem.Extends.of_lookup_eq (run.collected hdst hnamed).lookups).trans run.opened.added

theorem mem_files {file : FileInfo} (h : file ∈ run.first.state.files) :
    ∃ visit ∈ visits dst tree, visit.isFile ∧ visit.isEmpty = false ∧
      (visit.node.links ≤ 1 ∨ firstNonempty (visits dst tree) visit.key = some visit) ∧
      file = visit.info ∧ join dst file.location = visit.target := by
  obtain ⟨visit, hvisit, hfile, hnonempty, hfirst, rfl⟩ :=
    ((run.collected hdst hnamed).files file).mp h
  exact ⟨visit, hvisit, hfile, hnonempty, hfirst, rfl, join_location hdst hnamed hvisit⟩

variable {visit : Visit} (halone : Alone (visits dst tree) visit)

theorem lookup_of_event (hvisit : visit ∈ visits dst tree) {event : FileEvent}
    (hevent : event ∈ run.schedule) (hfile : event.file = visit.info) :
    run.written.lookup visit.target ≠ none := by
  have hleads := run.opened.leads event hevent
  rwa [eventPath, hfile, Visit.info, join_location hdst hnamed hvisit] at hleads

include halone in
theorem info_mem_files (hnonempty : visit.isEmpty = false) :
    visit.info ∈ run.first.state.files := by
  obtain ⟨hvisit, hfile, hlinked⟩ := halone
  rw [(run.collected hdst hnamed).files]
  refine ⟨visit, hvisit, hfile, hnonempty, ?_, rfl⟩
  by_cases hlinks : visit.node.links ≤ 1
  · exact Or.inl hlinks
  · right
    have hsome : (firstNonempty (visits dst tree) visit.key).isSome := by
      rw [firstNonempty, find?_isSome]
      exact ⟨visit, hvisit, by simp [hnonempty, Visit.linkable_iff, hfile]; omega⟩
    obtain ⟨first, hfirst⟩ := isSome_iff_exists.mp hsome
    by_contra hne
    have : linked (visits dst tree) visit :=
      linked_iff.mpr ⟨Or.inl hnonempty, first, by rw [primary, hfirst, some_or],
        fun hsame => hne (hsame ▸ hfirst)⟩
    rw [hlinked] at this
    cases this

theorem lookup_none_of_linked (h : LinksFree (visits dst tree) before)
    (hvisit : visit ∈ visits dst tree) (hfile : visit.isFile)
    (hlinked : linked (visits dst tree) visit) : run.written.lookup visit.target = none := by
  obtain ⟨hlinks, hbefore⟩ := h visit hvisit hfile hlinked
  by_contra hsome
  rcases run.opened.created _ hsome with hsome | ⟨file, _, hcreated, -, hsame⟩
  · rw [(run.collected hdst hnamed).lookups, hbefore] at hsome
    exact hsome rfl
  · obtain ⟨hmem, hblobs⟩ := run.scheduled.mem_of_create hcreated
    obtain ⟨other, hother, -, -, hfirst, rfl, htarget⟩ := run.mem_files hdst hnamed hmem
    rw [hsame] at htarget
    cases inj_on_of_nodup_map (visits_targets_nodup hdst hnamed) hvisit hother htarget
    have hmany := hlinks.resolve_left (chunks_info_ne_nil.mp hblobs)
    have hself := hfirst.resolve_left (Nat.not_le.mpr hmany)
    obtain ⟨-, first, hprimary, hne⟩ := linked_iff.mp hlinked
    rw [primary, hself, some_or] at hprimary
    exact hne (Option.some.inj hprimary).symm

theorem alone_of_lookup (h : LinksFree (visits dst tree) before) {file : FileInfo}
    (hmem : file ∈ run.first.state.files) {inode : Nat}
    (hlookup : run.written.lookup (join dst file.location) = some inode) :
    ∃ visit, Alone (visits dst tree) visit ∧ file = visit.info ∧
      run.written.lookup visit.target = some inode := by
  obtain ⟨visit, hvisit, hfile, -, -, hinfo, htarget⟩ := run.mem_files hdst hnamed hmem
  rw [htarget] at hlookup
  refine ⟨visit, ⟨hvisit, hfile, ?_⟩, hinfo, hlookup⟩
  rw [← Bool.not_eq_true]
  intro hlinked
  rw [run.lookup_none_of_linked hdst hnamed h hvisit hfile hlinked] at hlookup
  cases hlookup

theorem distinct_files : ∀ file ∈ run.first.state.files, ∀ other ∈ run.first.state.files,
      join dst file.location = join dst other.location → file = other := by
  intro file hfile other hother hsame
  obtain ⟨visit, hvisit, -, -, -, rfl, htarget⟩ := run.mem_files hdst hnamed hfile
  obtain ⟨second, hsecond, -, -, -, rfl, htarget'⟩ := run.mem_files hdst hnamed hother
  rw [htarget, htarget'] at hsame
  rw [inj_on_of_nodup_map (visits_targets_nodup hdst hnamed) hvisit hsecond hsame]

/-! ### Paths that are no links -/

theorem separate : Separate (visits dst tree) before after := by
  have htargets := visits_targets_nodup hdst hnamed
  intro visit other hvisit hother inode hlookup hlookup'
  rcases (run.steps hdst hnamed).separate htargets visit other hvisit hother inode
    hlookup hlookup' with hsame | ⟨hlookup, hlookup'⟩
  · exact Or.inl hsame
  · exact Separate.of_extends htargets (run.extends_written hdst hnamed) visit other
      hvisit hother inode hlookup hlookup'

include halone

theorem lookup_of_written {inode : Nat} (h : run.written.lookup visit.target = some inode) :
    after.lookup visit.target = some inode :=
  (run.steps hdst hnamed).lookup_mono (visits_targets_nodup hdst hnamed) halone h

theorem lookup_of_before {inode : Nat} (h : before.lookup visit.target = some inode) :
    after.lookup visit.target = some inode :=
  run.lookup_of_written hdst hnamed halone ((run.extends_written hdst hnamed).lookup_mono _ _ h)

end Passes

/-! ### The conditions are enough -/

section Enough

variable (h : Restorable plaintext (visits dst tree) run.schedule before) {visit : Visit}
  (halone : Alone (visits dst tree) visit)
include run hdst hnamed h halone

theorem written_of_nonempty (hnonempty : visit.isEmpty = false) :
    run.written.lookup visit.target ≠ none := by
  have hbefore : visit.truncates ∨ ∃ inode, before.lookup visit.target = some inode :=
    (h.fits visit halone).imp_right fun hfits => hfits.elim
      (fun ⟨inode, hinode, _⟩ => ⟨inode, hinode⟩)
      fun ⟨_, _, ⟨inode, hinode, _⟩, _⟩ => ⟨inode, hinode⟩
  rcases hbefore with htruncates | ⟨inode, hinode⟩
  · have hblobs := ((truncates_iff hnonempty).mp htruncates).1
    obtain ⟨allocated, hcreated⟩ := run.scheduled.created _
      (run.info_mem_files hdst hnamed halone hnonempty) (chunks_info_ne_nil.mpr hblobs)
    exact run.lookup_of_event hdst hnamed halone.1 hcreated rfl
  · rw [(run.extends_written hdst hnamed).lookup_mono _ _ hinode]
    simp

theorem inode_eq {inode : Nat} (hlookup : after.lookup visit.target = some inode) :
    after.inodes inode = visit.content plaintext := by
  have hinodes := (run.steps hdst hnamed).inodes (visits_targets_nodup hdst hnamed) inode
  have hcollected := run.collected hdst hnamed
  have hsame : ∀ other, Alone (visits dst tree) other → after.lookup other.target = some inode →
      other.content plaintext = visit.content plaintext := by
    intro other hother hfound
    rcases run.separate hdst hnamed other visit hother halone inode hfound hlookup with
      rfl | ⟨hbefore, hbefore'⟩
    · rfl
    · exact h.sharing other visit hother halone ⟨inode, hbefore, hbefore'⟩
  by_cases hemptied : Emptied (visits dst tree) (visits dst tree) after inode
  · rw [hinodes.1 hemptied]
    obtain ⟨other, -, hother, hempty, hfound⟩ := hemptied
    rw [← hsame other hother hfound, h.empty other hother hempty]
  rw [hinodes.2 hemptied]
  have hnonempty : ∀ other, Alone (visits dst tree) other →
      after.lookup other.target = some inode → other.isEmpty = false := by
    intro other hother hfound
    rw [← Bool.not_eq_true]
    exact fun hempty => hemptied ⟨other, hother.1, hother, hempty, hfound⟩
  have hleads : ∀ other, Alone (visits dst tree) other →
      after.lookup other.target = some inode → other.info ∈ run.first.state.files ∧
        run.written.lookup (join dst other.info.location) = some inode := by
    intro other hother hfound
    have hsome := run.written_of_nonempty hdst hnamed h hother (hnonempty other hother hfound)
    obtain ⟨found, hwritten⟩ := ne_none_iff_exists'.mp hsome
    have hagain := run.lookup_of_written hdst hnamed hother hwritten
    rw [hfound] at hagain
    cases hagain
    exact ⟨run.info_mem_files hdst hnamed hother (hnonempty other hother hfound),
      (congrArg _ (join_location hdst hnamed hother.1)).trans hwritten⟩
  have hwhole : ∀ file ∈ run.first.state.files,
      run.written.lookup (join dst file.location) = some inode →
      file.content plaintext = visit.content plaintext := by
    intro file hfile hfound
    obtain ⟨other, hother, rfl, hwritten⟩ := run.alone_of_lookup hdst hnamed h.links hfile hfound
    exact hsame other hother (run.lookup_of_written hdst hnamed hother hwritten)
  have hshared : ∀ other third, Alone (visits dst tree) other →
      Alone (visits dst tree) third → Shared before other third →
      after.lookup other.target = some inode → after.lookup third.target = some inode := by
    rintro other third hother hthird ⟨found, hbefore, hbefore'⟩ hafter
    rw [run.lookup_of_before hdst hnamed hother hbefore] at hafter
    cases hafter
    exact run.lookup_of_before hdst hnamed hthird hbefore'
  obtain ⟨hmem, hwritten⟩ := hleads visit halone hlookup
  refine run.scheduled.content_eq hwhole run.written_eq hmem hwritten ?_ ?_
  · have htruncated : ∀ other, Alone (visits dst tree) other → other.truncates →
        after.lookup other.target = some inode → ∃ file ∈ run.first.state.files,
          run.written.lookup (join dst file.location) = some inode ∧
            file.chunks plaintext ≠ [] ∧ 0 ≤ file.size := by
      intro other hother htruncates hfound
      obtain ⟨hblobs, hsize⟩ := (truncates_iff (hnonempty other hother hfound)).mp htruncates
      obtain ⟨hmem, hwritten⟩ := hleads other hother hfound
      exact ⟨other.info, hmem, hwritten, chunks_info_ne_nil.mpr hblobs, hsize⟩
    rcases h.fits visit halone with htruncates | ⟨found, hfound, hfits⟩ |
      ⟨other, hother, hboth, htruncates⟩
    · exact Or.inr (htruncated visit halone htruncates hlookup)
    · rw [run.lookup_of_before hdst hnamed halone hfound] at hlookup
      cases hlookup
      rw [hcollected.inodes]
      exact Or.inl hfits
    · exact Or.inr (htruncated other hother htruncates
        (hshared visit other halone hother hboth hlookup))
  · intro file first rest hsplit hfound hlater
    have hcreated : .create file true ∈ run.schedule := by simp [hsplit]
    obtain ⟨other, hother, rfl, hlookup'⟩ := run.alone_of_lookup hdst hnamed h.links
      (run.scheduled.mem_of_create hcreated).1 hfound
    have hafter := run.lookup_of_written hdst hnamed hother hlookup'
    rw [← hsame other hother hafter]
    refine (h.size other first rest hother hsplit).resolve_right ?_
    rintro ⟨third, hthird, hboth, hempty | ⟨hsize, allocated, hagain⟩⟩
    · exact hemptied ⟨third, hthird.1, hthird, hempty,
        hshared other third hother hthird hboth hafter⟩
    · refine absurd (hlater third.info allocated hagain ?_) (Int.not_lt.mpr hsize)
      exact (hleads third hthird (hshared other third hother hthird hboth hafter)).2

omit halone in
theorem allRestored (hconsistent : Consistent plaintext (visits dst tree))
    (hkinds : ∀ visit ∈ visits dst tree, visit.isFile →
      visit.target ∉ before.specials) : AllRestored plaintext (visits dst tree) after := by
  intro visit hvisit hfile
  have htargets := visits_targets_nodup hdst hnamed
  have hcollected := run.collected hdst hnamed
  have hfree : ∀ visit ∈ visits dst tree, visit.isFile → linked (visits dst tree) visit →
      run.written.occupied visit.target = false := by
    intro visit hvisit hfile hlinked
    rw [FileSystem.occupied, run.opened.specials, hcollected.specials,
      run.lookup_none_of_linked hdst hnamed h.links hvisit hfile hlinked]
    simpa using hkinds visit hvisit hfile
  obtain ⟨owner, halone, hcontent, inode, howner, hlookup⟩ :=
    (run.steps hdst hnamed).owned htargets hconsistent (fun visit halone hnonempty =>
        run.written_of_nonempty hdst hnamed h halone hnonempty) hfree hvisit hfile (Or.inl hvisit)
  rw [FileSystem.read, hlookup, map_some, run.inode_eq hdst hnamed h halone howner, hcontent]

end Enough

/-! ### The conditions are needed -/

section Needed

variable (h : AllRestored plaintext (visits dst tree) after) {visit : Visit}
include run hdst hnamed h

theorem linksFree_of_allRestored : LinksFree (visits dst tree) before := by
  intro visit hvisit hfile hlinked
  have hlost : run.written.lookup visit.target = none := by
    by_contra hsome
    obtain ⟨inode, hinode⟩ := ne_none_iff_exists'.mp hsome
    have hread := h visit hvisit hfile
    rw [FileSystem.read, (run.steps hdst hnamed).lookup_lost
      (visits_targets_nodup hdst hnamed) hvisit hvisit hfile hlinked hinode] at hread
    cases hread
  constructor
  · -- a file with a single link is written, and lost in the second pass
    by_contra hsingle
    rw [not_or, Nat.not_lt] at hsingle
    have hnonempty := ((linked_iff.mp hlinked).1).resolve_right (Nat.not_lt.mpr hsingle.2)
    have hmem : visit.info ∈ run.first.state.files :=
      ((run.collected hdst hnamed).files _).mpr
        ⟨visit, hvisit, hfile, hnonempty, Or.inl hsingle.2, rfl⟩
    obtain ⟨allocated, hcreated⟩ := run.scheduled.created _ hmem (chunks_info_ne_nil.mpr hsingle.1)
    exact run.lookup_of_event hdst hnamed hvisit hcreated rfl hlost
  · cases hbefore : before.lookup visit.target with
    | none => rfl
    | some inode =>
      rw [(run.extends_written hdst hnamed).lookup_mono _ _ hbefore] at hlost
      cases hlost

theorem empty_of_allRestored (halone : Alone (visits dst tree) visit)
    (hempty : visit.isEmpty) : visit.content plaintext = [] := by
  obtain ⟨inode, hlookup, hinode⟩ := h.exists_inode halone
  rw [← hinode]
  exact ((run.steps hdst hnamed).inodes (visits_targets_nodup hdst hnamed) inode).1
    ⟨visit, halone.1, halone, hempty, hlookup⟩

theorem sharing_of_allRestored {other : Visit} (halone : Alone (visits dst tree) visit)
    (hother : Alone (visits dst tree) other) (hshared : Shared before visit other) :
    visit.content plaintext = other.content plaintext := by
  obtain ⟨inode, hlookup, hlookup'⟩ := hshared
  have hread := h visit halone.1 halone.2.1
  have hread' := h other hother.1 hother.2.1
  rw [FileSystem.read, run.lookup_of_before hdst hnamed halone hlookup] at hread
  rw [FileSystem.read, run.lookup_of_before hdst hnamed hother hlookup'] at hread'
  exact Option.some.inj (hread.symm.trans hread')

/-- An inode that is not truncated from some event on does not get shorter. -/
theorem length_le_of_allRestored (halone : Alone (visits dst tree) visit)
    (hnonempty : visit.isEmpty = false) {first rest : List FileEvent} {mid : FileSystem}
    (hsplit : run.schedule = first ++ rest) (hrest : runFileEvents dst rest mid = some run.written)
    (hself : ∀ allocated, .create visit.info allocated ∈ rest → visit.info.size < 0)
    (hnone : ¬ ∃ other, Alone (visits dst tree) other ∧ Shared before visit other ∧
      (other.isEmpty ∨
        0 ≤ other.info.size ∧ ∃ allocated, .create other.info allocated ∈ rest)) :
    ∃ inode, run.written.lookup visit.target = some inode ∧
      (mid.inodes inode).length ≤ (visit.content plaintext).length := by
  have htargets := visits_targets_nodup hdst hnamed
  have hsteps := run.steps hdst hnamed
  obtain ⟨inode, hlookup, hinode⟩ := h.exists_inode halone
  refine ⟨inode, by rw [← hsteps.lookup_nonempty htargets halone hnonempty, hlookup], ?_⟩
  have hkept : after.inodes inode = run.written.inodes inode := by
    refine (hsteps.inodes htargets inode).2 ?_
    rintro ⟨other, -, hother, hempty, hfound⟩
    rcases run.separate hdst hnamed visit other halone hother inode hlookup hfound with
      rfl | hshared
    · rw [hempty] at hnonempty
      cases hnonempty
    · exact hnone ⟨other, hother, ⟨inode, hshared⟩, Or.inl hempty⟩
  rw [← hinode, hkept]
  refine runFileEvents_inode (I := ((mid.inodes inode).length ≤ ·.length)) hrest ?_ le_rfl
  intro event hevent hleads content hlength
  refine hlength.trans (length_le_apply ?_ content)
  rintro file allocated rfl
  have hcreated : .create file allocated ∈ run.schedule := by simp [hsplit, hevent]
  obtain ⟨other, hother, rfl, hwritten⟩ := run.alone_of_lookup hdst hnamed
    (run.linksFree_of_allRestored hdst hnamed h) (run.scheduled.mem_of_create hcreated).1 hleads
  rcases run.separate hdst hnamed visit other halone hother inode hlookup
    (run.lookup_of_written hdst hnamed hother hwritten) with rfl | hshared
  · exact hself allocated hevent
  · by_contra hsize
    exact hnone ⟨other, hother, ⟨inode, hshared⟩, Or.inr ⟨Int.not_lt.mp hsize, allocated, hevent⟩⟩

theorem size_of_allRestored (halone : Alone (visits dst tree) visit) {first rest : List FileEvent}
    (hsplit : run.schedule = first ++ .create visit.info true :: rest) :
    visit.info.size ≤ (visit.content plaintext).length ∨
      ∃ other, Alone (visits dst tree) other ∧ Shared before visit other ∧
        (other.isEmpty ∨
          0 ≤ other.info.size ∧ ∃ allocated, .create other.info allocated ∈ rest) := by
  by_contra hlarge
  rw [not_or, Int.not_le] at hlarge
  have hcreated : .create visit.info true ∈ run.schedule := by simp [hsplit]
  have hnonempty : visit.isEmpty = false := by
    obtain ⟨other, hother, -, hnonempty, -, -, htarget⟩ :=
      run.mem_files hdst hnamed (run.scheduled.mem_of_create hcreated).1
    rw [Visit.info, join_location hdst hnamed halone.1] at htarget
    rwa [inj_on_of_nodup_map (visits_targets_nodup hdst hnamed) halone.1 hother htarget]
  have honce : ∀ allocated, .create visit.info allocated ∉ rest := by
    intro allocated hagain
    have hordered := (pairwise_append.mp (hsplit ▸ run.scheduled.ordered)).2.1
    exact rel_of_pairwise_cons hordered hagain _ _ rfl rfl
  have hrun := run.written_eq
  rw [hsplit, runFileEvents_append] at hrun
  obtain ⟨mid, -, hrun⟩ := bind_eq_some_iff.mp hrun
  obtain ⟨next, inode, hrest, hlookup, hinodes⟩ := runFileEvents_cons_inv hrun
  obtain ⟨found, hfound, hlength⟩ := run.length_le_of_allRestored hdst hnamed h halone
    hnonempty (hsplit.trans (append_cons first _ rest)) hrest
    (fun allocated hagain => absurd hagain (honce allocated)) hlarge.2
  rw [eventPath, FileEvent.file, Visit.info, join_location hdst hnamed halone.1, hfound] at hlookup
  cases hlookup
  rw [hinodes, Function.update_self, FileEvent.apply, if_neg (by omega), if_pos rfl,
    length_replicate] at hlength
  omega

theorem fits_of_allRestored (halone : Alone (visits dst tree) visit) : visit.truncates ∨
      (∃ inode, before.lookup visit.target = some inode ∧
        (before.inodes inode).length ≤ (visit.content plaintext).length) ∨
      ∃ other, Alone (visits dst tree) other ∧ Shared before visit other ∧
        other.truncates := by
  by_contra hkept
  rw [not_or, not_or] at hkept
  obtain ⟨hself, hlong, hnone⟩ := hkept
  have hcollected := run.collected hdst hnamed
  have hnonempty : visit.isEmpty = false := by
    rw [← Bool.not_eq_true]
    exact fun hempty => hself (by simp [Visit.truncates, hempty])
  have htruncates : ∀ other : Visit, other.isEmpty ∨ 0 ≤ other.info.size ∧
      (∃ allocated, .create other.info allocated ∈ run.schedule) →
      other.truncates := by
    rintro other (hempty | ⟨hsize, allocated, hcreated⟩)
    · simp [Visit.truncates, hempty]
    · have hblobs := chunks_info_ne_nil.mp (run.scheduled.mem_of_create hcreated).2
      simp [Visit.truncates, hblobs, hsize]
  obtain ⟨inode, hlookup, hlength⟩ := run.length_le_of_allRestored hdst hnamed h halone
    hnonempty (nil_append _).symm run.written_eq (fun allocated hcreated => by
      by_contra hsize
      exact hself (htruncates visit (Or.inr ⟨Int.not_lt.mp hsize, allocated, hcreated⟩)))
    (fun ⟨other, hother, hshared, htruncated⟩ =>
      hnone ⟨other, hother, hshared, htruncates other htruncated⟩)
  rw [hcollected.inodes] at hlength
  rcases run.opened.created _ (hlookup ▸ some_ne_none inode) with
    hsome | ⟨file, allocated, hcreated, hsize, hsame⟩
  · rw [hcollected.lookups] at hsome
    obtain ⟨found, hfound⟩ := ne_none_iff_exists'.mp hsome
    rw [(run.extends_written hdst hnamed).lookup_mono _ _ hfound] at hlookup
    cases hlookup
    exact hlong ⟨inode, hfound, hlength⟩
  · obtain rfl := run.distinct_files hdst hnamed _ (run.scheduled.mem_of_create hcreated).1 _
      (run.info_mem_files hdst hnamed halone hnonempty)
      (hsame.trans (join_location hdst hnamed halone.1).symm)
    exact hself (htruncates visit (Or.inr ⟨hsize, allocated, hcreated⟩))

end Needed

/-- All files are restored exactly if the snapshot, the destination and the schedule
are fit for it. -/
theorem restores_iff (run : RestoreTo plaintext dst tree before after)
    (hdst : isAbs dst) (hnamed : tree.Named)
    (hconsistent : Consistent plaintext (visits dst tree))
    (hkinds : ∀ visit ∈ visits dst tree, visit.isFile →
      visit.target ∉ before.specials) :
    AllRestored plaintext (visits dst tree) after ↔
      Restorable plaintext (visits dst tree) run.schedule before := by
  refine ⟨fun h => ?_, fun h => run.allRestored hdst hnamed h hconsistent hkinds⟩
  exact ⟨run.linksFree_of_allRestored hdst hnamed h,
    fun visit other halone hother => run.sharing_of_allRestored hdst hnamed h halone hother,
    fun visit halone => run.empty_of_allRestored hdst hnamed h halone,
    fun visit first rest halone => run.size_of_allRestored hdst hnamed h halone,
    fun visit halone => run.fits_of_allRestored hdst hnamed h halone⟩

/-! ## Restoring twice -/

def twoNames : Tree :=
  .mk (.ofNat 9) (.cons ⟨ascii "a", .file, 1, 2, 5, 0, [.ofNat 1]⟩ .absent
      (.cons ⟨ascii "b", .file, 1, 2, 5, 0, [.ofNat 1]⟩ .absent .nil))

def oneByte (_ : ID) : Bytes := [7]

def destination : Bytes := ascii "/dst"

def twoNamesFile : FileInfo := ⟨1, ascii "/a", .ids [.ofNat 1]⟩

def twoNamesEvents : List FileEvent := [.create twoNamesFile false, .write twoNamesFile 0 [7]]

def restoreTwoNames (before : FileSystem) : FileSystem :=
  let first := twoNames.traverse newRestorer firstPass destination [separator]
    ⟨before, [], []⟩
  let written := (runFileEvents destination twoNamesEvents first.state.fs).getD before
  (twoNames.traverse newRestorer (secondPass destination) destination
    [separator] ⟨written, first.state.idx⟩).state.fs

theorem twoNames_schedule : Schedule oneByte [twoNamesFile] twoNamesEvents where
  created := by simp [twoNamesEvents]
  ordered := by simp [twoNamesEvents]
  complete := by simp [twoNamesEvents, twoNamesFile, FileInfo.chunks, chunks, oneByte]
  sound := by simp [twoNamesEvents, twoNamesFile, FileInfo.chunks, chunks, oneByte]

def firstRestore : RestoreTo oneByte destination twoNames .empty (restoreTwoNames .empty) where
  schedule := twoNamesEvents
  written := _
  first := _
  second := _
  first_eq := rfl
  first_ok := by decide
  scheduled := twoNames_schedule
  written_eq := rfl
  second_eq := rfl
  second_ok := by decide
  after_eq := rfl

def secondRestore : RestoreTo oneByte destination twoNames (restoreTwoNames .empty)
      (restoreTwoNames (restoreTwoNames .empty)) where
  schedule := twoNamesEvents
  written := _
  first := _
  second := _
  first_eq := rfl
  first_ok := by decide
  scheduled := twoNames_schedule
  written_eq := rfl
  second_eq := rfl
  second_ok := by decide
  after_eq := rfl

theorem twoNames_named : twoNames.Named := by
  have hproper : Proper (ascii "a") ∧ Proper (ascii "b") := by
    constructor <;> constructor <;> decide
  exact ⟨hproper.1, by decide, trivial, hproper.2, by decide, trivial, trivial⟩

theorem twoNames_content : ∀ visit ∈ visits destination twoNames,
    visit.content oneByte = [7] := by decide

theorem twoNames_consistent : Consistent oneByte (visits destination twoNames) := by
  intro visit hvisit other hother _ _ _
  rw [twoNames_content visit hvisit, twoNames_content other hother]

/-- The first restore is into an empty directory. -/
theorem restores_iff_twoNames :
    (∃ visit ∈ visits destination twoNames, visit.isFile) ∧
    AllRestored oneByte (visits destination twoNames) (restoreTwoNames .empty) := by
  have hsizes : ∀ visit ∈ visits destination twoNames, visit.isEmpty = false ∧
      visit.truncates ∧ visit.info.size = 1 := by decide
  refine ⟨by decide, (restores_iff firstRestore (by decide) twoNames_named
    twoNames_consistent (by decide)).mpr ⟨by unfold LinksFree; decide, ?_, ?_, ?_, ?_⟩⟩
  · rintro visit other _ _ ⟨inode, hlookup, -⟩
    cases hlookup
  · intro visit halone hempty
    rw [(hsizes visit halone.1).1] at hempty
    cases hempty
  · intro visit _ _ halone _
    rw [(hsizes visit halone.1).2.2, twoNames_content visit halone.1]
    exact Or.inl le_rfl
  · exact fun visit halone => Or.inl (hsizes visit halone.1).2.1

/-- The second one loses the hard link. -/
theorem not_restores_twice :
    ¬ ∀ (plaintext : ID → Bytes) (dst : Bytes) (tree : Tree)
      (before after : FileSystem), isAbs dst → tree.Named →
      Consistent plaintext (visits dst tree) →
      (∀ visit ∈ visits dst tree, visit.isFile →
        visit.target ∉ before.specials) →
      Nonempty (RestoreTo plaintext dst tree before after) →
      AllRestored plaintext (visits dst tree) after := by
  intro h
  have hall := h oneByte destination twoNames (restoreTwoNames .empty)
    (restoreTwoNames (restoreTwoNames .empty)) (by decide) twoNames_named
    twoNames_consistent (by decide) ⟨secondRestore⟩
  revert hall
  unfold AllRestored
  decide

end RestoreTo

end Rapi.Restorer
