import Rapi.Foundation.Buffer
import Rapi.Restic.Blob

/-!
# The cache of blobs

The cache has a size in bytes and evicts the blobs that were not used for the
longest time.  It holds slices, and an evicted one is given to the caller, who
loads another blob into its array.  That is safe as long as no two slices in the
cache share an array, and none of them shares it with the buffer of the caller.
-/

namespace Rapi.Bloblru

open Foundation Restic List

def overhead : Nat := idSize + 64

/-- The entries of the LRU list, the most recently used one first. -/
structure Cache where
  entries : List (ID × Slice)
  free : Int
  size : Int

def new (size : Int) : Cache := ⟨[], size, size⟩

def noBuffer : Slice := ⟨none, 0⟩

namespace Cache

def maxEntries (c : Cache) : Int := c.size.tdiv overhead

def get (id : ID) (c : Cache) : Option Slice × Cache :=
  match c.entries.find? (·.1 = id) with
  | none => (none, c)
  | some e => (some e.2, { c with entries := e :: c.entries.eraseP (·.1 = id) })

/-- Removing from an empty list gives no blob. -/
def removeOldest (m : Memory) (c : Cache) : Option (Slice × Cache) :=
  match c.entries.getLast? with
  | none => none
  | some e =>
    some (e.2,
      { c with
        entries := c.entries.dropLast
        free := c.free + (e.2.cap m + overhead) })

/-- The loop that evicts blobs until there is room; it keeps the largest buffer.
There is no result if it removes from an empty list, which panics. -/
def makeRoom (m : Memory) (size : Int) : Nat → Slice → Cache → Option (Slice × Cache)
  | fuel, old, c =>
    if size ≤ c.free then some (old, c)
    else
      match fuel with
      | 0 => none
      | fuel + 1 =>
        match c.removeOldest m with
        | none => none
        | some (b, c) => makeRoom m size fuel (if old.cap m < b.cap m then b else old) c

/-- `Add` of the LRU list, which has a limit of its own. -/
def push (m : Memory) (id : ID) (blob : Slice) (c : Cache) : Cache :=
  let c := { c with entries := (id, blob) :: c.entries }
  if c.maxEntries < c.entries.length then
    match c.removeOldest m with
    | none => c
    | some (_, c) => c
  else c

def add (m : Memory) (id : ID) (blob : Slice) (c : Cache) : Option (Slice × Cache) :=
  let size : Int := blob.cap m + overhead
  if c.size < size then some (noBuffer, c)
  else if c.entries.any (·.1 = id) then some (noBuffer, c)
  else
    match c.makeRoom m size c.entries.length noBuffer with
    | none => none
    | some (old, c) =>
      let c := c.push m id blob
      some (old, { c with free := c.free - size })

end Cache

/-! ## Buffers that are cached and buffers that are not -/

abbrev Entries := List (ID × Slice)

def arrays (entries : Entries) : List (Option Nat) := entries.map fun e => e.2.array

def Stored (m : Memory) (blob : Slice) : Prop := ∃ a < m.arrays.length, blob.array = some a

/-- The entries are the blobs, each in an array of its own. -/
structure Holds (blobs : ID → Bytes) (m : Memory) (entries : Entries) : Prop where
  stored : ∀ e ∈ entries, Stored m e.2
  content : ∀ e ∈ entries, e.2.content m = blobs e.1
  nodup : (arrays entries).Nodup

def Unused (entries : Entries) (buf : Slice) : Prop := buf.array ∉ arrays entries

section Holds

variable {blobs : ID → Bytes} {m : Memory} {entries entries' : Entries}

theorem Holds.nil : Holds blobs m [] where
  stored _ he := absurd he not_mem_nil
  content _ he := absurd he not_mem_nil
  nodup := nodup_nil

theorem Holds.perm (h : Holds blobs m entries) (hperm : entries.Perm entries') :
    Holds blobs m entries' where
  stored e he := h.stored e (hperm.mem_iff.mpr he)
  content e he := h.content e (hperm.mem_iff.mpr he)
  nodup := (hperm.map _).nodup_iff.mp h.nodup

theorem Holds.sublist (h : Holds blobs m entries) (hsub : entries'.Sublist entries) :
    Holds blobs m entries' where
  stored e he := h.stored e (hsub.subset he)
  content e he := h.content e (hsub.subset he)
  nodup := h.nodup.sublist (hsub.map _)

theorem Holds.cons (h : Holds blobs m entries) {id : ID} {blob : Slice}
    (hstored : Stored m blob) (hcontent : blob.content m = blobs id)
    (hunused : Unused entries blob) : Holds blobs m ((id, blob) :: entries) where
  stored := forall_mem_cons.mpr ⟨hstored, h.stored⟩
  content := forall_mem_cons.mpr ⟨hcontent, h.content⟩
  nodup := nodup_cons.mpr ⟨hunused, h.nodup⟩

theorem Holds.unused_noBuffer (h : Holds blobs m entries) : Unused entries noBuffer := by
  intro hmem
  obtain ⟨e, he, hnone⟩ := mem_map.mp hmem
  obtain ⟨a, -, ha⟩ := h.stored e he
  exact absurd (ha.symm.trans hnone) (Option.some_ne_none a)

theorem Unused.mono {buf : Slice} (h : Unused entries buf)
    (hsub : entries' ⊆ entries) : Unused entries' buf :=
  fun hmem => h (map_subset _ hsub hmem)

end Holds

/-! ## The operations -/

namespace Cache

variable {blobs : ID → Bytes} {m : Memory} {c c' : Cache} {id : ID}

theorem get_perm (id : ID) (c : Cache) : (c.get id).2.entries.Perm c.entries := by
  cases hfind : c.entries.find? (·.1 = id) with
  | none => simp [get, hfind]
  | some e =>
    obtain ⟨hid, before, after, hentries, hbefore⟩ := find?_eq_some_iff_append.mp hfind
    have herase : c.entries.eraseP (·.1 = id) = before ++ after := by
      rw [hentries, eraseP_append_right _ fun b hb => by simpa using hbefore b hb,
        eraseP_cons, hid, cond_true]
    simp only [get, hfind, herase]
    rw [hentries]
    exact perm_middle.symm

theorem mem_of_get {blob : Slice} (h : (c.get id).1 = some blob) : (id, blob) ∈ c.entries := by
  cases hfind : c.entries.find? (·.1 = id) with
  | none => simp [get, hfind] at h
  | some e =>
    simp only [get, hfind, Option.some.injEq] at h
    have hid : e.1 = id := by simpa using find?_some hfind
    rw [← h, ← hid]
    exact mem_of_find?_eq_some hfind

theorem removeOldest_eq_some {b : Slice} (h : c.removeOldest m = some (b, c')) :
    ∃ id, c.entries = c'.entries ++ [(id, b)] := by
  cases hlast : c.entries.getLast? with
  | none => simp [removeOldest, hlast] at h
  | some e =>
    simp only [removeOldest, hlast, Option.some.injEq, Prod.mk.injEq] at h
    obtain ⟨rfl, rfl⟩ := h
    exact ⟨e.1, (dropLast_append_getLast? e hlast).symm⟩

/-- The blobs at the end of the list are evicted, and the buffer is one of them. -/
theorem makeRoom_eq_some {size : Int} {fuel : Nat} {old old' : Slice}
    (h : c.makeRoom m size fuel old = some (old', c')) :
    ∃ evicted, c.entries = c'.entries ++ evicted ∧
      (old' = old ∨ ∃ e ∈ evicted, old' = e.2) := by
  induction fuel generalizing old c with
  | zero =>
    rw [makeRoom] at h
    split at h
    · cases h
      exact ⟨[], (append_nil _).symm, Or.inl rfl⟩
    · cases h
  | succ fuel ih =>
    rw [makeRoom] at h
    split at h
    · cases h
      exact ⟨[], (append_nil _).symm, Or.inl rfl⟩
    · cases hremove : c.removeOldest m with
      | none => simp [hremove] at h
      | some removed =>
        obtain ⟨b, mid⟩ := removed
        simp only [hremove] at h
        obtain ⟨id, hentries⟩ := removeOldest_eq_some hremove
        obtain ⟨evicted, hmid, hold⟩ := ih h
        refine ⟨evicted ++ [(id, b)], ?_, ?_⟩
        · rw [hentries, hmid, append_assoc]
        · obtain hold | ⟨e, he, hold⟩ := hold
          · split at hold
            · exact Or.inr ⟨(id, b), by simp, hold⟩
            · exact Or.inl hold
          · exact Or.inr ⟨e, mem_append_left _ he, hold⟩

theorem push_sublist (m : Memory) (id : ID) (blob : Slice) (c : Cache) :
    (c.push m id blob).entries.Sublist ((id, blob) :: c.entries) := by
  rw [push]
  dsimp only
  split
  · split
    · exact List.Sublist.refl _
    · rename_i hremove
      obtain ⟨last, hentries⟩ := removeOldest_eq_some hremove
      dsimp only at hentries
      rw [hentries]
      exact sublist_append_left _ _
  · exact List.Sublist.refl _

/-- What is added is cached at most, and the buffer that is returned is not. -/
theorem add_spec {blob old : Slice} (h : Holds blobs m c.entries)
    (hstored : Stored m blob) (hcontent : blob.content m = blobs id)
    (hunused : Unused c.entries blob) (hadd : c.add m id blob = some (old, c')) :
    Holds blobs m c'.entries ∧ Unused c'.entries old := by
  rw [add] at hadd
  dsimp only at hadd
  split at hadd
  · cases hadd
    exact ⟨h, h.unused_noBuffer⟩
  split at hadd
  · cases hadd
    exact ⟨h, h.unused_noBuffer⟩
  cases hroom : c.makeRoom m (blob.cap m + overhead) c.entries.length noBuffer with
  | none => simp [hroom] at hadd
  | some result =>
    obtain ⟨evictedBuf, mid⟩ := result
    simp only [hroom, Option.some.injEq, Prod.mk.injEq] at hadd
    obtain ⟨rfl, rfl⟩ := hadd
    obtain ⟨evicted, hentries, hold⟩ := makeRoom_eq_some hroom
    have hsub : mid.entries.Sublist c.entries := by
      rw [hentries]
      exact sublist_append_left _ _
    have hpushed : Holds blobs m ((id, blob) :: mid.entries) :=
      (h.sublist hsub).cons hstored hcontent (hunused.mono hsub.subset)
    have hbuffer : Unused ((id, blob) :: mid.entries) evictedBuf := by
      obtain rfl | ⟨e, he, rfl⟩ := hold
      · exact hpushed.unused_noBuffer
      · -- an evicted array is neither that of the blob nor still in the cache
        intro hmem
        have hnodup := h.nodup
        rw [hentries, arrays, map_append] at hnodup
        have hevicted : e.2.array ∈ evicted.map fun e => e.2.array := mem_map_of_mem he
        obtain hblob | hmid := mem_cons.mp hmem
        · have hcached : e.2.array ∈ arrays c.entries := by
            rw [hentries, arrays, map_append]
            exact mem_append_right _ hevicted
          rw [hblob] at hcached
          exact hunused hcached
        · exact (nodup_append.mp hnodup).2.2 _ hmid _ hevicted rfl
    have hcache := push_sublist m id blob mid
    exact ⟨hpushed.sublist hcache, hbuffer.mono hcache.subset⟩

end Cache

end Rapi.Bloblru
