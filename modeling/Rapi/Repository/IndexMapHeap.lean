import Rapi.Repository.IndexMap

/-!
# The hash table of an index in memory

`indexMap` again, now with its pointers.  Entries are cells of a heap that are
linked to the chains of the buckets; a free list hands out cells, which are
allocated in batches and are linked to each other until they are used.  Growing
links the cells anew and moves none of them.  Following a nil pointer, or taking
a bucket that does not exist, gives no result; nor does a chain that does not
end within the given number of steps.
-/

namespace Rapi.Repository

open Foundation Restic List

structure Cell extends IndexEntry where
  next : Option Nat

abbrev Heap := List Cell

def zeroEntry : IndexEntry := ⟨.null, 0, 0, 0⟩

def entryAllocBatch : Nat := 256

/-- New cells, each linked to the one behind it. -/
def batch (base : Nat) : Heap :=
  (List.range entryAllocBatch).map fun i =>
    { zeroEntry with
      next := if i + 1 < entryAllocBatch then some (base + (i + 1)) else none }

structure PointerMap where
  heap : Heap
  buckets : List (Option Nat)
  numentries : Nat
  mh : ID → Nat
  free : Option Nat

namespace PointerMap

def new (mh : ID → Nat) : PointerMap := ⟨[], [], 0, mh, none⟩

def hash (m : PointerMap) (id : ID) : Nat := m.mh id &&& (m.buckets.length - 1)

def init (m : PointerMap) : PointerMap :=
  { m with buckets := List.replicate initialBuckets none }

def len (m : PointerMap) : Nat := m.numentries

def newEntry (m : PointerMap) : Option (Nat × PointerMap) := do
  let m :=
    match m.free with
    | none =>
      { m with
        heap := m.heap ++ batch m.heap.length
        free := some m.heap.length }
    | some _ => m
  let e ← m.free
  let cell ← m.heap[e]?
  return (e, { m with free := cell.next })

/-- The inner loop of `grow`. -/
def relink : Nat → Option Nat → PointerMap → Option PointerMap
  | _, none, m => some m
  | 0, some _, _ => none
  | fuel + 1, some e, m => do
      let cell ← m.heap[e]?
      let h := m.hash cell.id
      let head ← m.buckets[h]?
      relink fuel cell.next
        { m with
          heap := m.heap.set e { cell with next := head }
          buckets := m.buckets.set h (some e) }

def relinkAll : List (Option Nat) → PointerMap → Option PointerMap
  | [], m => some m
  | e :: old, m => do
      let m ← relink m.heap.length e m
      relinkAll old m

def grow (m : PointerMap) : Option PointerMap :=
  relinkAll m.buckets
    { m with
      buckets := List.replicate (growthFactor * m.buckets.length) none }

def makeRoom (m : PointerMap) : Option PointerMap :=
  if m.numentries = 0 then some m.init
  else if maxLoad * m.buckets.length ≤ m.numentries then m.grow
  else some m

def add (m : PointerMap) (entry : IndexEntry) : Option PointerMap := do
  let m ← m.makeRoom
  let h := m.hash entry.id
  let (e, m) ← m.newEntry
  let head ← m.buckets[h]?
  return { m with
    heap := m.heap.set e { entry with next := head }
    buckets := m.buckets.set h (some e)
    numentries := m.numentries + 1 }

def addAll (mh : ID → Nat) (adds : List IndexEntry) : Option PointerMap := adds.foldlM add (new mh)

section Visits

variable {σ : Type} (fn : IndexEntry → σ → Bool × σ)

/-- Walk along a chain until `fn` returns false. -/
def visitChain (heap : Heap) : Nat → Option Nat → σ → Option (Bool × σ)
  | _, none, s => some (true, s)
  | 0, some _, _ => none
  | fuel + 1, some e, s => do
      let cell ← heap[e]?
      match fn cell.toIndexEntry s with
      | (false, s) => return (false, s)
      | (true, s) => visitChain heap fuel cell.next s

def visitBuckets (heap : Heap) : List (Option Nat) → σ → Option (Bool × σ)
  | [], s => some (true, s)
  | e :: buckets, s => do
      match ← visitChain fn heap heap.length e s with
      | (false, s) => return (false, s)
      | (true, s) => visitBuckets heap buckets s

def foreach (m : PointerMap) (s : σ) : Option σ := (visitBuckets fn m.heap m.buckets s).map (·.2)

end Visits

def foreachWithID {σ : Type} (m : PointerMap) (id : ID) (fn : IndexEntry → σ → σ)
    (s : σ) : Option σ :=
  if m.buckets.length = 0 then some s
  else do
    let e ← m.buckets[m.hash id]?
    let visited ← visitChain
      (fun entry s => (true, if entry.id ≠ id then s else fn entry s)) m.heap m.heap.length e s
    return visited.2

/-- The walk stops at the first entry with the ID. -/
def get (m : PointerMap) (id : ID) : Option (Option IndexEntry) :=
  if m.buckets.length = 0 then some none
  else do
    let e ← m.buckets[m.hash id]?
    let visited ← visitChain
      (fun entry _ => if entry.id = id then (false, some entry) else (true, none))
      m.heap m.heap.length e none
    return visited.2

end PointerMap

/-! ## Heaps -/

def links (heap : Heap) (e : Nat) : Option (Option Nat) := heap[e]?.map Cell.next

/-- What a cell holds, apart from its link. -/
def entryAt (heap : Heap) (e : Nat) : IndexEntry := (heap.map Cell.toIndexEntry).getD e zeroEntry

section Heaps

variable {heap : Heap} {e : Nat}

theorem links_eq_some {next : Option Nat} : links heap e = some next ↔
      heap[e]? = some { entryAt heap e with next := next } := by
  unfold links entryAt
  rw [getD_eq_getElem?_getD, getElem?_map]
  cases heap[e]? with
  | none => simp
  | some cell =>
    cases cell
    simp

theorem lt_of_isSome_links (h : (links heap e).isSome) : e < heap.length := by
  by_contra hlarge
  rw [links, getElem?_eq_none (Nat.not_lt.mp hlarge)] at h
  cases h

theorem links_set_self (h : e < heap.length) (cell : Cell) :
    links (heap.set e cell) e = some cell.next := by
  simp [links, h]

theorem links_set_ne {e' : Nat} (h : e' ≠ e) (cell : Cell) :
    links (heap.set e cell) e' = links heap e' := by
  simp [links, getElem?_set_ne h.symm]

theorem entryAt_set_self (h : e < heap.length) (cell : Cell) :
    entryAt (heap.set e cell) e = cell.toIndexEntry := by
  simp [entryAt, getD_eq_getElem?_getD, h]

theorem entryAt_set_ne {e' : Nat} (h : e' ≠ e) (cell : Cell) :
    entryAt (heap.set e cell) e' = entryAt heap e' := by
  simp only [entryAt, getD_eq_getElem?_getD, getElem?_map, getElem?_set_ne h.symm]

theorem entryAt_relinked (next : Option Nat) :
    entryAt (heap.set e { entryAt heap e with next := next }) = entryAt heap := by
  funext e'
  by_cases he : e' = e
  · subst he
    by_cases hlt : e' < heap.length
    · rw [entryAt_set_self hlt]
    · rw [set_eq_of_length_le (Nat.not_lt.mp hlt)]
  · rw [entryAt_set_ne he]

theorem links_append_of_lt (h : e < heap.length) (more : Heap) :
    links (heap ++ more) e = links heap e := by
  rw [links, links, getElem?_append_left h]

theorem entryAt_append_of_lt (h : e < heap.length) (more : Heap) :
    entryAt (heap ++ more) e = entryAt heap e := by
  simp only [entryAt, getD_eq_getElem?_getD, getElem?_map, getElem?_append_left h]

theorem links_batch {i : Nat} (h : i < entryAllocBatch) :
    links (heap ++ batch heap.length) (heap.length + i) =
      some (if i + 1 < entryAllocBatch then some (heap.length + (i + 1))
        else none) := by
  rw [links, getElem?_append_right (Nat.le_add_right _ _)]
  simp [batch, h]

theorem chain_batch (heap : Heap) : Chain (links (heap ++ batch heap.length)) (some heap.length)
      (List.range' heap.length entryAllocBatch) := by
  have hfrom : ∀ n i, i + n = entryAllocBatch → Chain (links (heap ++ batch heap.length))
        (if i < entryAllocBatch then some (heap.length + i) else none)
        (range' (heap.length + i) n) := by
    intro n
    induction n with
    | zero =>
      intro i hi
      rw [if_neg (by omega)]
      rfl
    | succ n ih =>
      intro i hi
      rw [if_pos (by omega), range'_succ]
      exact ⟨rfl, _, links_batch (by omega), ih (i + 1) (by omega)⟩
  have hall := hfrom entryAllocBatch 0 (Nat.zero_add _)
  rwa [if_pos (by decide), Nat.add_zero] at hall

theorem length_le_of_chain {head : Option Nat} {es : List Nat} (h : Chain (links heap) head es)
    (hnodup : es.Nodup) : es.length ≤ heap.length := by
  have hsub : es ⊆ range heap.length := by
    intro e he
    exact mem_range.mpr (lt_of_isSome_links (h.isSome_of_mem he))
  have hle := (hnodup.subperm hsub).length_le
  rwa [length_range] at hle

end Heaps

/-! ## The list of entries behind the pointers -/

/-- The chains hold the entries of the given buckets, and share no cell with
each other or with the free list. -/
structure Holds (m : PointerMap) (buckets : Buckets) (chains : List (List Nat))
    (free : List Nat) : Prop where
  linked : Linked (links m.heap) m.buckets chains
  freed : Chain (links m.heap) m.free free
  nodup : (chains.flatten ++ free).Nodup
  entries : chains.map (List.map (entryAt m.heap)) = buckets

theorem Holds.length_buckets {m : PointerMap} {buckets : Buckets} {chains : List (List Nat)}
    {free : List Nat} (h : Holds m buckets chains free) : m.buckets.length = buckets.length := by
  rw [h.linked.length_eq, ← h.entries, length_map]

/-- What `prepend` does to the chains. -/
def place (mh : ID → Nat) (entry : Nat → IndexEntry) (chains : List (List Nat))
    (e : Nat) : List (List Nat) := pushAt chains (mh (entry e).id &&& (chains.length - 1)) e

section Place

variable {mh : ID → Nat} {entry : Nat → IndexEntry} {chains : List (List Nat)}

@[simp] theorem length_place (e : Nat) : (place mh entry chains e).length = chains.length :=
  length_pushAt _ _ _

theorem place_lt (h : 0 < chains.length) (id : ID) :
    mh id &&& (chains.length - 1) < chains.length := by
  have hmask : mh id &&& (chains.length - 1) ≤ chains.length - 1 := Nat.and_le_right
  omega

theorem flatten_place (h : 0 < chains.length) (e : Nat) :
    (place mh entry chains e).flatten.Perm (e :: chains.flatten) := flatten_pushAt (place_lt h _) e

theorem length_foldl_place (es : List Nat) :
    (es.foldl (place mh entry) chains).length = chains.length := by
  induction es generalizing chains with
  | nil => rfl
  | cons e es ih => rw [foldl_cons, ih, length_place]

theorem flatten_foldl_place (h : 0 < chains.length) (es : List Nat) :
    (es.foldl (place mh entry) chains).flatten.Perm (es ++ chains.flatten) := by
  induction es generalizing chains with
  | nil => exact List.Perm.refl _
  | cons e es ih =>
    have hplaced : 0 < (place mh entry chains e).length := by simpa using h
    have hrest := ih hplaced
    refine hrest.trans (((flatten_place h e).append_left es).trans ?_)
    exact perm_middle

theorem map_place (e : Nat) : (place mh entry chains e).map (List.map entry) =
      prepend mh (chains.map (List.map entry)) (entry e) := by
  rw [place, map_pushAt, prepend, bucketOf, length_map]
  rfl

theorem map_foldl_place (es : List Nat) : (es.foldl (place mh entry) chains).map (List.map entry) =
      (es.map entry).foldl (prepend mh) (chains.map (List.map entry)) := by
  induction es generalizing chains with
  | nil => rfl
  | cons e es ih => rw [foldl_cons, ih, map_place, map_cons, foldl_cons]

end Place

end Rapi.Repository
