import Rapi.Foundation.Bytes
import Rapi.Foundation.Store

/-!
# A file system with hard links

A path of a regular file leads to an inode, which holds the content; several
paths can lead to one inode.  Of directories and special files only the paths
are kept.  Operations that fail return nothing.  No path is both a directory and
something else, which the operations on files do not check.
-/

namespace Rapi.Foundation

open List Store

structure FileSystem where
  files : Store Bytes Nat
  specials : List Bytes
  dirs : List Bytes
  inodes : Nat → Bytes
  fresh : Nat
  bounded : ∀ path inode, files.load path = some inode → inode < fresh

/-- Write into a byte string, filling a gap with zeros. -/
def overwrite (content : Bytes) (offset : Nat) (data : Bytes) : Bytes :=
  if data = [] then content
  else content.take offset ++ (List.replicate (offset - content.length) 0 ++
    (data ++ content.drop (offset + data.length)))

namespace FileSystem

def empty : FileSystem := ⟨[], [], [], fun _ => [], 0, by simp⟩

def lookup (fs : FileSystem) (path : Bytes) : Option Nat := fs.files.load path

def read (fs : FileSystem) (path : Bytes) : Option Bytes := (fs.lookup path).map fs.inodes

def occupied (fs : FileSystem) (path : Bytes) : Bool :=
  (fs.lookup path).isSome || path ∈ fs.specials

def pathExists (fs : FileSystem) (path : Bytes) : Bool := fs.occupied path || path ∈ fs.dirs

def setContent (fs : FileSystem) (inode : Nat) (content : Bytes) : FileSystem :=
  { fs with inodes := Function.update fs.inodes inode content }

def addFile (fs : FileSystem) (path : Bytes) (inode : Nat) (h : inode < fs.fresh) : FileSystem :=
  { fs with
    files := fs.files.save path inode
    bounded := by
      intro other found hload
      by_cases hsame : other = path
      · rw [hsame, load_save_self] at hload
        cases hload
        exact h
      · rw [load_save_of_ne _ _ hsame] at hload
        exact fs.bounded other found hload }

def grow (fs : FileSystem) : FileSystem :=
  { fs with
    fresh := fs.fresh + 1
    bounded := fun path inode h => Nat.lt_succ_of_lt (fs.bounded path inode h) }

/-- Open with creation and truncation.  This fails for a special file; a symbolic link
would be followed, so where there are any this is not what the call does. -/
def create (fs : FileSystem) (path : Bytes) : Option FileSystem :=
  if path ∈ fs.specials then none
  else
    match fs.lookup path with
    | some inode => some (fs.setContent inode [])
    | none => some ((fs.grow.addFile path fs.fresh (Nat.lt_succ_self _)).setContent fs.fresh [])

def modify (fs : FileSystem) (path : Bytes) (f : Bytes → Bytes) : Option FileSystem :=
  (fs.lookup path).map fun inode => fs.setContent inode (f (fs.inodes inode))

def allocate (fs : FileSystem) (path : Bytes) (size : Nat) : Option FileSystem :=
  fs.modify path fun content => content ++ List.replicate (size - content.length) 0

def writeAt (fs : FileSystem) (path : Bytes) (offset : Nat) (data : Bytes) : Option FileSystem :=
  fs.modify path fun content => overwrite content offset data

def remove (fs : FileSystem) (path : Bytes) : FileSystem :=
  { fs with
    files := fs.files.remove path
    specials := fs.specials.filter (· ≠ path)
    bounded := by
      intro other found hload
      by_cases hsame : other = path
      · rw [hsame, load_remove_self] at hload
        cases hload
      · rw [load_remove_of_ne _ hsame] at hload
        exact fs.bounded other found hload }

def link (fs : FileSystem) (target path : Bytes) : Option FileSystem :=
  if fs.occupied path then none
  else
    match h : fs.lookup target with
    | none => none
    | some inode => some (fs.addFile path inode (fs.bounded target inode h))

def mknod (fs : FileSystem) (path : Bytes) : Option FileSystem :=
  if fs.occupied path then none
  else some { fs with specials := path :: fs.specials }

def mkdirAll (fs : FileSystem) (path : Bytes) : Option FileSystem :=
  if fs.occupied path then none
  else some { fs with dirs := path :: fs.dirs }

/-! ## What the operations change -/

section Specifications

variable {fs fs' : FileSystem} {path : Bytes}

theorem lookup_addFile (inode : Nat) (h : inode < fs.fresh) (other : Bytes) :
    (fs.addFile path inode h).lookup other =
      if other = path then some inode else fs.lookup other := by
  unfold lookup addFile
  split
  · rename_i hsame
    rw [hsame]
    exact load_save_self _ _ _
  · rename_i hother
    exact load_save_of_ne _ _ hother

theorem create_spec (h : fs.create path = some fs') : ∃ inode, fs'.lookup path = some inode ∧
      (fs.lookup path = some inode ∨ fs.lookup path = none ∧ inode = fs.fresh) ∧
      (∀ other, other ≠ path → fs'.lookup other = fs.lookup other) ∧
      fs'.specials = fs.specials ∧
      fs'.inodes = Function.update fs.inodes inode [] := by
  unfold create at h
  split at h
  · cases h
  · split at h
    · rename_i inode hfound
      cases h
      exact ⟨inode, hfound, Or.inl hfound, fun _ _ => rfl, rfl, rfl⟩
    · rename_i hnone
      cases h
      refine ⟨fs.fresh, ?_, Or.inr ⟨hnone, rfl⟩, ?_, rfl, rfl⟩
      · exact (lookup_addFile _ (Nat.lt_succ_self _) _).trans (if_pos rfl)
      · intro other hother
        exact (lookup_addFile _ (Nat.lt_succ_self _) _).trans (if_neg hother)

theorem modify_spec {f : Bytes → Bytes} (h : fs.modify path f = some fs') :
    ∃ inode, fs.lookup path = some inode ∧ fs'.lookup = fs.lookup ∧
      fs'.specials = fs.specials ∧
      fs'.inodes = Function.update fs.inodes inode (f (fs.inodes inode)) := by
  obtain ⟨inode, hfound, rfl⟩ := Option.map_eq_some_iff.mp h
  exact ⟨inode, hfound, rfl, rfl, rfl⟩

theorem lookup_remove (other : Bytes) :
    (fs.remove path).lookup other = if other = path then none else fs.lookup other := by
  unfold lookup remove
  split
  · rename_i hsame
    rw [hsame]
    exact load_remove_self _ _
  · rename_i hother
    exact load_remove_of_ne _ hother

theorem link_spec {target : Bytes} (h : fs.link target path = some fs') :
    ∃ inode, fs.lookup target = some inode ∧ fs.lookup path = none ∧
      fs'.lookup path = some inode ∧
      (∀ other, other ≠ path → fs'.lookup other = fs.lookup other) ∧
      fs'.specials = fs.specials ∧ fs'.inodes = fs.inodes := by
  unfold link at h
  split at h
  · cases h
  · rename_i hfree
    split at h
    · cases h
    · rename_i inode hfound
      cases h
      refine ⟨inode, hfound, ?_, ?_, ?_, rfl, rfl⟩
      · simp only [occupied, Bool.or_eq_true, not_or] at hfree
        simpa using hfree.1
      · exact (lookup_addFile _ _ _).trans (if_pos rfl)
      · intro other hother
        exact (lookup_addFile _ _ _).trans (if_neg hother)

theorem mknod_spec (h : fs.mknod path = some fs') :
    fs'.lookup = fs.lookup ∧ fs'.specials = path :: fs.specials ∧
      fs'.inodes = fs.inodes := by
  unfold mknod at h
  split at h
  · cases h
  · cases h
    exact ⟨rfl, rfl, rfl⟩

theorem mkdirAll_spec (h : fs.mkdirAll path = some fs') :
    fs'.lookup = fs.lookup ∧ fs'.specials = fs.specials ∧ fs'.inodes = fs.inodes := by
  unfold mkdirAll at h
  split at h
  · cases h
  · cases h
    exact ⟨rfl, rfl, rfl⟩

end Specifications

/-- Paths were only added, each with an inode that no other path has. -/
structure Extends (fs fs' : FileSystem) : Prop where
  lookup_mono : ∀ path inode, fs.lookup path = some inode → fs'.lookup path = some inode
  shared : ∀ path other inode, fs'.lookup path = some inode → fs'.lookup other = some inode →
      path = other ∨ fs.lookup path = some inode ∧ fs.lookup other = some inode

namespace Extends

variable {fs fs' fs'' : FileSystem}

theorem of_lookup_eq (h : fs'.lookup = fs.lookup) : Extends fs fs' where
  lookup_mono path inode hfound := by rw [h, hfound]
  shared path other inode hpath hother := by
    rw [h] at hpath hother
    exact Or.inr ⟨hpath, hother⟩

theorem trans (h : Extends fs fs') (h' : Extends fs' fs'') : Extends fs fs'' where
  lookup_mono path inode hfound := h'.lookup_mono path inode (h.lookup_mono path inode hfound)
  shared path other inode hpath hother := by
    rcases h'.shared path other inode hpath hother with hsame | ⟨hpath, hother⟩
    · exact Or.inl hsame
    · exact h.shared path other inode hpath hother

theorem of_created {path : Bytes} {inode : Nat} (hcreated : fs'.lookup path = some inode)
    (hbefore : fs.lookup path = some inode ∨ fs.lookup path = none ∧ inode = fs.fresh)
    (hothers : ∀ other, other ≠ path → fs'.lookup other = fs.lookup other) : Extends fs fs' := by
  -- no path leads to the fresh inode before
  have hold : ∀ other found, fs'.lookup other = some found →
      fs.lookup other = some found ∨ other = path ∧ found = fs.fresh := by
    intro other found hfound
    by_cases hother : other = path
    · rw [hother, hcreated] at hfound
      cases hfound
      rcases hbefore with hbefore | ⟨-, hfresh⟩
      · exact Or.inl (hother ▸ hbefore)
      · exact Or.inr ⟨hother, hfresh⟩
    · exact Or.inl (hothers other hother ▸ hfound)
  have hbounded : ∀ other, fs.lookup other ≠ some fs.fresh := fun other h =>
    Nat.lt_irrefl _ (fs.bounded other _ h)
  constructor
  · intro other found hfound
    by_cases hother : other = path
    · rw [hother] at hfound ⊢
      rcases hbefore with hbefore | ⟨hnone, -⟩
      · rw [hcreated, ← hbefore, hfound]
      · rw [hnone] at hfound
        cases hfound
    · rw [hothers other hother, hfound]
  · intro first second found hfirst hsecond
    rcases hold first found hfirst with hfirst | ⟨rfl, rfl⟩
    · rcases hold second found hsecond with hsecond | ⟨-, rfl⟩
      · exact Or.inr ⟨hfirst, hsecond⟩
      · exact absurd hfirst (hbounded first)
    · rcases hold second _ hsecond with hsecond | ⟨rfl, -⟩
      · exact absurd hsecond (hbounded second)
      · exact Or.inl rfl

end Extends

end FileSystem

/-! ## Overwriting a part of a file -/

variable {content data : Bytes} {offset position : Nat}

theorem length_overwrite (hdata : data ≠ []) :
    (overwrite content offset data).length = max content.length (offset + data.length) := by
  rw [overwrite, if_neg hdata]
  simp only [length_append, length_take, length_replicate, length_drop]
  omega

theorem length_overwrite_le {size : Nat} (hcontent : content.length ≤ size)
    (hend : offset + data.length ≤ size) : (overwrite content offset data).length ≤ size := by
  by_cases hdata : data = []
  · rwa [overwrite, if_pos hdata]
  · rw [length_overwrite hdata]
    exact max_le hcontent hend

theorem length_le_overwrite (content : Bytes) (offset : Nat) (data : Bytes) :
    content.length ≤ (overwrite content offset data).length := by
  by_cases hdata : data = []
  · rw [overwrite, if_pos hdata]
  · rw [length_overwrite hdata]
    exact le_max_left _ _

theorem overwrite_end (content data : Bytes) :
    overwrite content content.length data = content ++ data := by
  unfold overwrite
  split
  · rename_i hempty
    rw [hempty, append_nil]
  · simp

theorem slice_overwrite_self (h : offset ≤ content.length) :
    slice (overwrite content offset data) offset data.length = data := by
  unfold overwrite
  split
  · rename_i hnil
    simp [hnil, slice]
  · have hfront : (content.take offset).length = offset := by
      rw [length_take]
      omega
    have hgap : offset - content.length = 0 := by omega
    rw [hgap, replicate_zero, nil_append]
    have hmiddle := slice_append_middle (content.take offset) data
      (content.drop (offset + data.length))
    rwa [hfront] at hmiddle

theorem take_overwrite (buf data : Bytes) : (overwrite buf 0 data).take data.length = data :=
  slice_overwrite_self (Nat.zero_le _)

theorem slice_overwrite_of_le {length : Nat} (hposition : offset + length ≤ position)
    (hcontent : offset + length ≤ content.length) (data : Bytes) :
    slice (overwrite content position data) offset length =
      slice content offset length := by
  unfold overwrite
  split
  · rfl
  · have hfits : offset + length ≤ (content.take position).length := by
      simp only [length_take]
      omega
    rw [slice_append_left hfits]
    unfold slice
    rw [drop_take, take_take, Nat.min_eq_left (by omega)]

theorem getElem?_overwrite_self (hposition : position ≤ content.length) (hdata : data ≠ []) :
    (overwrite content position data)[position]? = data.head? := by
  have hhead := congrArg head? (@slice_overwrite_self content data position hposition)
  have hlength : data.length ≠ 0 := fun hnone => hdata (length_eq_zero_iff.mp hnone)
  rwa [slice, head?_take, if_neg hlength, head?_drop] at hhead

def Agrees (content whole : Bytes) (position : Nat) : Prop :=
  ∃ byte, content[position]? = some byte ∧ whole[position]? = some byte

theorem eq_of_agrees {whole : Bytes} (hlength : content.length ≤ whole.length)
    (h : ∀ position < whole.length, Agrees content whole position) : content = whole := by
  apply ext_getElem?
  intro position
  by_cases hposition : position < whole.length
  · obtain ⟨byte, hcontent, hwhole⟩ := h position hposition
    rw [hcontent, hwhole]
  · rw [getElem?_eq_none (by omega), getElem?_eq_none (by omega)]

theorem agrees_overwrite {whole : Bytes} (hdata : data = slice whole offset data.length)
    (h : Agrees content whole position ∨ offset ≤ position ∧ position < offset + data.length) :
    Agrees (overwrite content offset data) whole position := by
  by_cases hempty : data = []
  · simp only [hempty, length_nil] at h
    rw [overwrite, if_pos hempty]
    exact h.resolve_right (by omega)
  rw [overwrite, if_neg hempty]
  by_cases hinside : offset ≤ position ∧ position < offset + data.length
  · have hbyte : data[position - offset]? = whole[position]? := by
      rw [hdata, slice, getElem?_take_of_lt (by omega), getElem?_drop]
      congr 1
      omega
    obtain ⟨byte, hsome⟩ : ∃ byte, data[position - offset]? = some byte :=
      Option.isSome_iff_exists.mp (by rw [isSome_getElem?]; omega)
    refine ⟨byte, ?_, hbyte.symm.trans hsome⟩
    rw [getElem?_append_right (by simp; omega), getElem?_append_right (by simp; omega),
      getElem?_append_left (by simp; omega), ← hsome]
    congr 1
    simp
    omega
  · obtain ⟨byte, hcontent, hwhole⟩ := h.resolve_right hinside
    have hlength := (List.getElem?_eq_some_iff.mp hcontent).1
    refine ⟨byte, ?_, hwhole⟩
    by_cases hbefore : position < offset
    · rw [getElem?_append_left (by simp; omega), getElem?_take_of_lt hbefore, hcontent]
    · rw [getElem?_append_right (by simp; omega), getElem?_append_right (by simp; omega),
        getElem?_append_right (by simp; omega), getElem?_drop, ← hcontent]
      congr 1
      simp
      omega

end Rapi.Foundation
