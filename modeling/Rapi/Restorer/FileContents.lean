import Rapi.Restorer.RestoreTo

/-!
# The contents that the workers write

The collected files may lead to inodes that exist already, also several of them
to one.  When files on the same inode have the same content, a schedule leaves
the inode with this content, unless too much is allocated: the file that was
truncated last has all its blobs written after that, and no other write disagrees
with them.
-/

namespace Rapi.Restorer

open Foundation Foundation.FilePath Restic List Function

/-! ## The chunks of a file -/

section Chunks

variable {plaintext : ID → Bytes}

private theorem chunk_spec {ids : List ID} {start : Bytes}
    {chunk : Nat × Bytes} (h : chunk ∈ chunks plaintext start.length ids) :
    chunk.2 = slice (start ++ ids.flatMap plaintext) chunk.1 chunk.2.length ∧
      chunk.1 + chunk.2.length ≤ (start ++ ids.flatMap plaintext).length := by
  induction ids generalizing start with
  | nil => simp [chunks] at h
  | cons id ids ih =>
    rw [chunks, mem_cons] at h
    rw [flatMap_cons, ← append_assoc]
    rcases h with rfl | h
    · constructor
      · rw [append_assoc, slice, drop_left, take_left]
      · simp only [length_append]
        omega
    · rw [← length_append] at h
      exact ih h

private theorem chunk_covers {ids : List ID} {start position : Nat} (hstart : start ≤ position)
    (hend : position < start + (ids.flatMap plaintext).length) :
    ∃ chunk ∈ chunks plaintext start ids,
      chunk.1 ≤ position ∧ position < chunk.1 + chunk.2.length := by
  induction ids generalizing start with
  | nil => simp at hend; omega
  | cons id ids ih =>
    simp only [flatMap_cons, length_append] at hend
    rw [chunks]
    by_cases hfirst : position < start + (plaintext id).length
    · exact ⟨_, mem_cons_self, hstart, hfirst⟩
    · obtain ⟨chunk, hchunk, hinside⟩ := @ih (start + (plaintext id).length) (by omega) (by omega)
      exact ⟨chunk, mem_cons_of_mem _ hchunk, hinside⟩

end Chunks

def FileInfo.content (plaintext : ID → Bytes) (file : FileInfo) : Bytes :=
  match file.blobs with
  | .ids content => content.flatMap plaintext
  | .packs _ => []

variable {plaintext : ID → Bytes} {file : FileInfo}

theorem FileInfo.chunk_spec {chunk : Nat × Bytes} (h : chunk ∈ file.chunks plaintext) :
    chunk.2 = slice (file.content plaintext) chunk.1 chunk.2.length ∧
      chunk.1 + chunk.2.length ≤ (file.content plaintext).length := by
  unfold FileInfo.chunks at h
  unfold FileInfo.content
  split
  · rename_i ids hids
    rw [hids] at h
    exact @Restorer.chunk_spec _ _ [] _ h
  · rename_i blobs hblobs
    simp [hblobs] at h

theorem FileInfo.chunk_covers {position : Nat} (h : position < (file.content plaintext).length) :
    ∃ chunk ∈ file.chunks plaintext, chunk.1 ≤ position ∧ position < chunk.1 + chunk.2.length := by
  unfold FileInfo.content at h
  unfold FileInfo.chunks
  split
  · rename_i ids hids
    rw [hids] at h
    exact Restorer.chunk_covers (Nat.zero_le _) (by simpa using h)
  · rename_i blobs hblobs
    simp [hblobs] at h

/-! ## The events -/

def eventPath (dst : Bytes) (event : FileEvent) : Bytes := join dst event.file.location

def FileEvent.apply : FileEvent → Bytes → Bytes
  | .create file allocated, content =>
    if file.size < 0 then content
    else replicate (if allocated then file.size.toNat else 0) 0
  | .write _ offset data, content => overwrite content offset data

section Events

variable {dst : Bytes} {fs fs' : FileSystem} {event : FileEvent} {events : List FileEvent}

theorem runFileEvent_spec (h : runFileEvent dst fs event = some fs') :
    ∃ inode, fs'.lookup (eventPath dst event) = some inode ∧
      (fs.lookup (eventPath dst event) = some inode ∨
        (fs.lookup (eventPath dst event) = none ∧ inode = fs.fresh) ∧
          ∃ file allocated, event = .create file allocated ∧ 0 ≤ file.size) ∧
      (∀ other, other ≠ eventPath dst event → fs'.lookup other = fs.lookup other) ∧
      fs'.specials = fs.specials ∧
      fs'.inodes = update fs.inodes inode (event.apply (fs.inodes inode)) := by
  cases event with
  | write file offset data =>
    obtain ⟨inode, hlookup, hlookups, hspecials, hinodes⟩ :=
      FileSystem.modify_spec (show fs.writeAt _ _ _ = some fs' from h)
    rw [hlookups]
    exact ⟨inode, hlookup, Or.inl hlookup, fun _ _ => rfl, hspecials, hinodes⟩
  | create file allocated =>
    unfold runFileEvent at h
    dsimp only [FileEvent.apply] at h ⊢
    split at h
    · rename_i hnegative
      obtain ⟨inode, hlookup, rfl⟩ := Option.map_eq_some_iff.mp h
      refine ⟨inode, hlookup, Or.inl hlookup, fun _ _ => rfl, rfl, ?_⟩
      rw [if_pos hnegative, update_eq_self]
    rename_i hsize
    simp only [if_neg hsize]
    split at h
    · cases h
    rename_i opened hopened
    obtain ⟨inode, hlookup, hbefore, hothers, hspecials, hinodes⟩ := FileSystem.create_spec hopened
    have hcreates : ∃ other again, FileEvent.create file allocated = .create other again ∧
        0 ≤ other.size := ⟨file, allocated, rfl, Int.not_lt.mp hsize⟩
    split at h
    · obtain ⟨again, hagain, hlookups, hspecials', hinodes'⟩ := FileSystem.modify_spec h
      rw [hlookup] at hagain
      cases hagain
      rw [hlookups, hspecials', hinodes', hinodes, update_self, update_idem]
      refine ⟨inode, hlookup, hbefore.imp_right (⟨·, hcreates⟩), hothers, hspecials, ?_⟩
      rename_i hallocated
      rw [if_pos hallocated]
      rfl
    · rename_i hallocated
      cases h
      rw [if_neg hallocated]
      exact ⟨inode, hlookup, hbefore.imp_right (⟨·, hcreates⟩), hothers, hspecials, hinodes⟩

theorem runFileEvent_extends (h : runFileEvent dst fs event = some fs') : fs.Extends fs' := by
  obtain ⟨inode, hlookup, hbefore, hothers, -⟩ := runFileEvent_spec h
  exact .of_created hlookup (hbefore.imp_right And.left) hothers

structure Opened (dst : Bytes) (events : List FileEvent) (fs fs' : FileSystem) : Prop where
  added : fs.Extends fs'
  specials : fs'.specials = fs.specials
  leads : ∀ event ∈ events, fs'.lookup (eventPath dst event) ≠ none
  created : ∀ path, fs'.lookup path ≠ none → fs.lookup path ≠ none ∨
    ∃ file allocated, .create file allocated ∈ events ∧ 0 ≤ file.size ∧
      join dst file.location = path

theorem runFileEvents_opened (h : runFileEvents dst events fs = some fs') :
    Opened dst events fs fs' := by
  induction events generalizing fs with
  | nil =>
    cases h
    exact ⟨.of_lookup_eq rfl, rfl, by simp, fun _ => Or.inl⟩
  | cons event events ih =>
    rw [runFileEvents] at h
    split at h
    · cases h
    rename_i next hnext
    have hrest := ih h
    obtain ⟨inode, hlookup, hbefore, hothers, hspecials, -⟩ := runFileEvent_spec hnext
    refine ⟨(runFileEvent_extends hnext).trans hrest.added, hrest.specials.trans hspecials,
      forall_mem_cons.mpr ⟨?_, hrest.leads⟩, fun path hpath => ?_⟩
    · rw [hrest.added.lookup_mono _ _ hlookup]
      exact Option.some_ne_none inode
    · rcases hrest.created path hpath with hfound | ⟨file, allocated, hmem, hcreated⟩
      · by_cases hsame : path = eventPath dst event
        · subst hsame
          rcases hbefore with hbefore | ⟨-, file, allocated, rfl, hsize⟩
          · exact Or.inl (hbefore ▸ Option.some_ne_none inode)
          · exact Or.inr ⟨file, allocated, mem_cons_self, hsize, rfl⟩
        · exact Or.inl (hothers path hsame ▸ hfound)
      · exact Or.inr ⟨file, allocated, mem_cons_of_mem _ hmem, hcreated⟩

theorem runFileEvents_append (first second : List FileEvent) (fs : FileSystem) :
    runFileEvents dst (first ++ second) fs =
      (runFileEvents dst first fs).bind (runFileEvents dst second) := by
  induction first generalizing fs with
  | nil => rfl
  | cons event first ih =>
    simp only [cons_append, runFileEvents]
    split
    · rfl
    · exact ih _

theorem runFileEvents_cons_inv (h : runFileEvents dst (event :: events) fs = some fs') :
    ∃ next inode, runFileEvents dst events next = some fs' ∧
      fs'.lookup (eventPath dst event) = some inode ∧
      next.inodes = update fs.inodes inode (event.apply (fs.inodes inode)) := by
  rw [runFileEvents] at h
  split at h
  · cases h
  rename_i next hnext
  obtain ⟨inode, hlookup, -, -, -, hinodes⟩ := runFileEvent_spec hnext
  exact ⟨next, inode, h, (runFileEvents_opened h).added.lookup_mono _ _ hlookup, hinodes⟩

/-- The content of an inode is changed by the events on it, one after the other. -/
theorem runFileEvents_inode {inode : Nat} {I : Bytes → Prop}
    (h : runFileEvents dst events fs = some fs')
    (hevent : ∀ event ∈ events, fs'.lookup (eventPath dst event) = some inode →
      ∀ content, I content → I (event.apply content))
    (hstart : I (fs.inodes inode)) : I (fs'.inodes inode) := by
  induction events generalizing fs with
  | nil =>
    cases h
    exact hstart
  | cons event events ih =>
    rw [forall_mem_cons] at hevent
    obtain ⟨next, found, hrest, hlookup, hinodes⟩ := runFileEvents_cons_inv h
    refine ih hrest hevent.2 ?_
    rw [hinodes]
    by_cases hsame : inode = found
    · subst hsame
      rw [update_self]
      exact hevent.1 hlookup _ hstart
    · rwa [update_of_ne hsame]

theorem length_le_apply (h : ∀ file allocated, event = .create file allocated →
    file.size < 0) (content : Bytes) : content.length ≤ (event.apply content).length := by
  cases event with
  | create file allocated => rw [FileEvent.apply, if_pos (h file allocated rfl)]
  | write file offset data => exact length_le_overwrite content offset data

end Events

/-! ## The contents -/

private theorem exists_last {α : Type} {P : α → Prop} {list : List α} (h : ∃ a ∈ list, P a) :
    ∃ first a rest, list = first ++ a :: rest ∧ P a ∧ ∀ b ∈ rest, ¬ P b := by
  induction list with
  | nil => simp at h
  | cons a list ih =>
    by_cases hlater : ∃ b ∈ list, P b
    · obtain ⟨first, b, rest, rfl, hb⟩ := ih hlater
      exact ⟨a :: first, b, rest, rfl, hb⟩
    · have ha : P a := by simpa [hlater] using h
      exact ⟨[], a, list, rfl, ha, by simpa using hlater⟩

section Contents

variable {dst : Bytes} {files : List FileInfo} {start final : FileSystem}
  {events : List FileEvent} {inode : Nat} {whole : Bytes}

theorem Schedule.mem_of_create (hschedule : Schedule plaintext files events) {allocated : Bool}
    (h : .create file allocated ∈ events) : file ∈ files ∧ file.chunks plaintext ≠ [] := by
  rcases hschedule.sound _ h with
    ⟨file, hfile, hblobs, _, heq⟩ | ⟨file, hfile, chunk, -, heq⟩ <;> cases heq
  exact ⟨hfile, hblobs⟩

variable (hschedule : Schedule plaintext files events)
  (hwhole : ∀ file ∈ files, final.lookup (join dst file.location) = some inode →
    file.content plaintext = whole)
include hschedule hwhole

/-- What is written after the last truncation stays. -/
private theorem Schedule.content_of_split {first rest : List FileEvent} {mid : FileSystem}
    (hsplit : events = first ++ rest) (hrun : runFileEvents dst rest mid = some final)
    (hkept : ∀ file allocated, .create file allocated ∈ rest →
      final.lookup (join dst file.location) = some inode → file.size < 0)
    (hlength : (mid.inodes inode).length ≤ whole.length) (hfile : file ∈ files)
    (hleads : final.lookup (join dst file.location) = some inode)
    (hwritten : ∀ chunk ∈ file.chunks plaintext, .write file chunk.1 chunk.2 ∈ rest) :
    final.inodes inode = whole := by
  have hwrites : ∀ event ∈ rest, final.lookup (eventPath dst event) = some inode →
      ∀ content, event.apply content = content ∨ ∃ offset data,
        event.apply content = overwrite content offset data ∧
          data = slice whole offset data.length ∧ offset + data.length ≤ whole.length := by
    intro event hevent hlookup content
    rcases hschedule.sound event (by simp [hsplit, hevent]) with
      ⟨other, -, -, allocated, rfl⟩ | ⟨other, hother, chunk, hchunk, rfl⟩
    · exact Or.inl (if_pos (hkept other allocated hevent hlookup))
    · rw [← hwhole other hother hlookup]
      exact Or.inr ⟨chunk.1, chunk.2, rfl, FileInfo.chunk_spec hchunk⟩
  apply eq_of_agrees
  · refine runFileEvents_inode (I := (·.length ≤ whole.length)) hrun ?_ hlength
    intro event hevent hlookup content hcontent
    rcases hwrites event hevent hlookup content with hsame | ⟨offset, data, heq, -, hend⟩
    · rwa [hsame]
    · rw [heq]
      exact length_overwrite_le hcontent hend
  · intro position hposition
    rw [← hwhole file hfile hleads] at hposition
    obtain ⟨chunk, hchunk, hinside⟩ := FileInfo.chunk_covers hposition
    obtain ⟨before, after, hrest⟩ := append_of_mem (hwritten chunk hchunk)
    rw [hrest, runFileEvents_append] at hrun
    obtain ⟨written, -, hrun⟩ := Option.bind_eq_some_iff.mp hrun
    obtain ⟨next, found, hafter, hlookup, hinodes⟩ := runFileEvents_cons_inv hrun
    obtain rfl : inode = found := Option.some.inj (hleads.symm.trans hlookup)
    refine runFileEvents_inode (I := (Agrees · whole position)) hafter ?_ ?_
    · intro event hevent hlookup content hcontent
      rcases hwrites event (by simp [hrest, hevent]) hlookup content with
        hsame | ⟨offset, data, heq, hslice, -⟩
      · rwa [hsame]
      · rw [heq]
        exact agrees_overwrite hslice (Or.inl hcontent)
    · have hslice := (FileInfo.chunk_spec hchunk).1
      rw [hwhole file hfile hleads] at hslice
      rw [hinodes, update_self]
      exact agrees_overwrite hslice (Or.inr hinside)

/-- When the files on an inode have one content, it has this content in the end,
unless it was longer and is never truncated, or more is allocated for the file that
is truncated last. -/
theorem Schedule.content_eq (hrun : runFileEvents dst events start = some final)
    (hfile : file ∈ files) (hleads : final.lookup (join dst file.location) = some inode)
    (hfits : (start.inodes inode).length ≤ whole.length ∨
      ∃ file ∈ files, final.lookup (join dst file.location) = some inode ∧
        file.chunks plaintext ≠ [] ∧ 0 ≤ file.size)
    (hsize : ∀ (file : FileInfo) first rest, events = first ++ .create file true :: rest →
      final.lookup (join dst file.location) = some inode →
      (∀ other allocated, .create other allocated ∈ rest →
        final.lookup (join dst other.location) = some inode → other.size < 0) →
      file.size ≤ whole.length) : final.inodes inode = whole := by
  by_cases htruncated : ∃ event ∈ events, ∃ file allocated,
      event = .create file allocated ∧ 0 ≤ file.size ∧
        final.lookup (join dst file.location) = some inode
  · obtain ⟨first, _, rest, hsplit, ⟨last, allocated, rfl, hpositive, hlast⟩, hkept⟩ :=
      exists_last htruncated
    have hlater : ∀ other again, .create other again ∈ rest →
        final.lookup (join dst other.location) = some inode → other.size < 0 := by
      intro other again hmem hlookup
      by_contra hsome
      exact hkept _ hmem ⟨other, again, rfl, Int.not_lt.mp hsome, hlookup⟩
    have hmem : .create last allocated ∈ events := by simp [hsplit]
    rw [hsplit, runFileEvents_append] at hrun
    obtain ⟨mid, -, hrun⟩ := Option.bind_eq_some_iff.mp hrun
    obtain ⟨next, found, hrest, hlookup, hinodes⟩ := runFileEvents_cons_inv hrun
    obtain rfl : inode = found := Option.some.inj (hlast.symm.trans hlookup)
    refine hschedule.content_of_split hwhole
      (hsplit.trans (append_cons first _ rest)) hrest hlater ?_
      (hschedule.mem_of_create hmem).1 hlast fun chunk hchunk => ?_
    · rw [hinodes, update_self, FileEvent.apply, if_neg (Int.not_lt.mpr hpositive)]
      cases allocated with
      | false => simp
      | true =>
        have := hsize last first rest hsplit hlast hlater
        simpa using this
    · -- nothing of the file is written before it is opened
      have hwritten := hschedule.complete last (hschedule.mem_of_create hmem).1 chunk hchunk
      have hordered := (pairwise_append.mp (hsplit ▸ hschedule.ordered)).2.2
      rw [hsplit, mem_append, mem_cons] at hwritten
      rcases hwritten with hbefore | heq | hafter
      · exact absurd rfl (hordered _ hbefore _ mem_cons_self _ _ rfl)
      · cases heq
      · exact hafter
  · have hkept : ∀ other again, .create other again ∈ events →
        final.lookup (join dst other.location) = some inode → other.size < 0 := by
      intro other again hmem hlookup
      by_contra hsome
      exact htruncated ⟨_, hmem, other, again, rfl, Int.not_lt.mp hsome, hlookup⟩
    refine hschedule.content_of_split hwhole (nil_append _).symm hrun hkept ?_ hfile hleads
      (hschedule.complete file hfile)
    rcases hfits with hshort | ⟨other, hother, hlookup, hblobs, hpositive⟩
    · exact hshort
    · obtain ⟨allocated, hcreated⟩ := hschedule.created other hother hblobs
      exact absurd (hkept other allocated hcreated hlookup) (Int.not_lt.mpr hpositive)

end Contents

end Rapi.Restorer
