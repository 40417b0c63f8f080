import Rapi.Foundation.Chains
import Rapi.Restic.Blob

/-!
# The hash table of an index

`indexMap` is a chained hash table from blob IDs to entries, which may hold
several entries for one ID.  A chain is a list here, and the free list of
entries is left out.  `mh` is the keyed hash function of the table.
-/

namespace Rapi.Repository

open Foundation Restic List

structure IndexEntry where
  id : ID
  packIndex : Nat
  offset : Nat
  length : Nat
  deriving DecidableEq

abbrev Buckets := List (List IndexEntry)

/-- The mask selects a bucket, as the number of buckets is a power of two. -/
def bucketOf (mh : ID → Nat) (buckets : Buckets) (id : ID) : Nat := mh id &&& (buckets.length - 1)

def prepend (mh : ID → Nat) (buckets : Buckets) (e : IndexEntry) : Buckets :=
  buckets.modify (bucketOf mh buckets e.id) (e :: ·)

def Placed (mh : ID → Nat) (buckets : Buckets) : Prop :=
  ∀ i bucket, buckets[i]? = some bucket → ∀ e ∈ bucket, bucketOf mh buckets e.id = i

structure IndexMap where
  mh : ID → Nat
  buckets : Buckets
  numentries : Nat
  placed : Placed mh buckets
  counted : numentries = buckets.flatten.length

section Buckets

variable {mh : ID → Nat} {buckets : Buckets}

@[simp] theorem length_prepend (e : IndexEntry) :
    (prepend mh buckets e).length = buckets.length := by
  simp [prepend]

theorem bucketOf_lt (h : 0 < buckets.length) (id : ID) :
    bucketOf mh buckets id < buckets.length := by
  have hmask : bucketOf mh buckets id ≤ buckets.length - 1 := Nat.and_le_right
  omega

theorem flatten_prepend (h : 0 < buckets.length) (e : IndexEntry) :
    (prepend mh buckets e).flatten.Perm (e :: buckets.flatten) :=
  flatten_pushAt (bucketOf_lt h e.id) e

theorem placed_prepend (h : Placed mh buckets) (e : IndexEntry) :
    Placed mh (prepend mh buckets e) := by
  intro i bucket hbucket other hother
  have hsame : bucketOf mh (prepend mh buckets e) other.id = bucketOf mh buckets other.id := by
    simp [bucketOf]
  rw [hsame]
  rw [prepend, getElem?_modify] at hbucket
  obtain ⟨old, hold, rfl⟩ := Option.map_eq_some_iff.mp hbucket
  split at hother
  · rename_i hindex
    rcases mem_cons.mp hother with rfl | hother
    · exact hindex
    · exact h i old hold other hother
  · exact h i old hold other hother

theorem placed_replicate (n : Nat) : Placed mh (List.replicate n []) := by
  intro i bucket hbucket e he
  have hmem := mem_of_getElem? hbucket
  rw [eq_of_mem_replicate hmem] at he
  cases he

end Buckets

/-! ## Growing -/

def growthFactor : Nat := 2

def maxLoad : Nat := 4

def initialBuckets : Nat := 64

def grow (mh : ID → Nat) (buckets : Buckets) : Buckets :=
  buckets.flatten.foldl (prepend mh) (List.replicate (growthFactor * buckets.length) [])

private theorem foldl_prepend {mh : ID → Nat} (es : List IndexEntry) {buckets : Buckets}
    (hplaced : Placed mh buckets) (hlength : 0 < buckets.length) :
    Placed mh (es.foldl (prepend mh) buckets) ∧
      (es.foldl (prepend mh) buckets).length = buckets.length ∧
      (es.foldl (prepend mh) buckets).flatten.Perm (es ++ buckets.flatten) := by
  induction es generalizing buckets with
  | nil => exact ⟨hplaced, rfl, List.Perm.refl _⟩
  | cons e es ih =>
    obtain ⟨hplaced', hlength', hperm⟩ := ih (placed_prepend hplaced e) (by simpa using hlength)
    refine ⟨hplaced', by rw [foldl_cons, hlength', length_prepend], ?_⟩
    refine hperm.trans ?_
    refine ((flatten_prepend hlength e).append_left es).trans ?_
    exact perm_middle

theorem length_grow (mh : ID → Nat) (buckets : Buckets) :
    (grow mh buckets).length = growthFactor * buckets.length := by
  have hfold : ∀ (es : List IndexEntry) (start : Buckets),
      (es.foldl (prepend mh) start).length = start.length := by
    intro es
    induction es with
    | nil => exact fun _ => rfl
    | cons e es ih =>
      intro start
      rw [foldl_cons, ih, length_prepend]
  rw [grow, hfold, length_replicate]

/-- The buckets that `add` prepends to. -/
def roomFor (mh : ID → Nat) (buckets : Buckets) (numentries : Nat) : Buckets :=
  if numentries = 0 then List.replicate initialBuckets []
  else if maxLoad * buckets.length ≤ numentries then grow mh buckets
  else buckets

theorem roomFor_spec (m : IndexMap) : Placed m.mh (roomFor m.mh m.buckets m.numentries) ∧
      0 < (roomFor m.mh m.buckets m.numentries).length ∧
      (roomFor m.mh m.buckets m.numentries).flatten.Perm m.buckets.flatten := by
  unfold roomFor
  split
  · rename_i hnone
    refine ⟨placed_replicate _, by simp [initialBuckets], ?_⟩
    rw [m.counted, length_eq_zero_iff] at hnone
    rw [hnone]
    simp
  · rename_i hsome
    have hlength : 0 < m.buckets.length := by
      rw [length_pos_iff]
      intro hempty
      rw [m.counted, hempty] at hsome
      exact hsome rfl
    split
    · have hgrown : 0 < (replicate (growthFactor * m.buckets.length)
          ([] : List IndexEntry)).length := by
        simp [growthFactor]
        omega
      obtain ⟨hplaced, hsame, hperm⟩ := foldl_prepend m.buckets.flatten
        (placed_replicate (growthFactor * m.buckets.length)) hgrown
      refine ⟨hplaced, ?_, ?_⟩
      · rw [grow, hsame]
        exact hgrown
      · rw [grow]
        simpa using hperm
    · exact ⟨m.placed, hlength, List.Perm.refl _⟩

namespace IndexMap

def new (mh : ID → Nat) : IndexMap where
  mh := mh
  buckets := []
  numentries := 0
  placed := by simp [Placed]
  counted := rfl

/-- All entries, in the order of `foreach`. -/
def entries (m : IndexMap) : List IndexEntry := m.buckets.flatten

def add (m : IndexMap) (e : IndexEntry) : IndexMap where
  mh := m.mh
  buckets := prepend m.mh (roomFor m.mh m.buckets m.numentries) e
  numentries := m.numentries + 1
  placed := placed_prepend (roomFor_spec m).1 e
  counted := by
    obtain ⟨-, hlength, hperm⟩ := roomFor_spec m
    rw [(flatten_prepend hlength e).length_eq, List.length_cons, hperm.length_eq, m.counted]

def foreachWithID (m : IndexMap) (id : ID) : List IndexEntry :=
  (m.buckets.getD (bucketOf m.mh m.buckets id) []).filter (·.id = id)

def get (m : IndexMap) (id : ID) : Option IndexEntry :=
  (m.buckets.getD (bucketOf m.mh m.buckets id) []).find? (·.id = id)

def len (m : IndexMap) : Nat := m.numentries

/-! ## A multimap -/

@[simp] theorem entries_new (mh : ID → Nat) : (new mh).entries = [] := rfl

theorem entries_add (m : IndexMap) (e : IndexEntry) : (m.add e).entries.Perm (e :: m.entries) := by
  obtain ⟨-, hlength, hperm⟩ := roomFor_spec m
  exact (flatten_prepend hlength e).trans (hperm.cons e)

private theorem filter_flatten {buckets : Buckets} {id : ID} {h start : Nat}
    (hplaced : ∀ i bucket, buckets[i]? = some bucket →
      ∀ e ∈ bucket, e.id = id → start + i = h) (hstart : start ≤ h) :
    buckets.flatten.filter (·.id = id) = (buckets.getD (h - start) []).filter (·.id = id) := by
  induction buckets generalizing start with
  | nil => simp
  | cons bucket buckets ih =>
    rw [flatten_cons, filter_append]
    have htail : ∀ i bucket', buckets[i]? = some bucket' →
        ∀ e ∈ bucket', e.id = id → start + 1 + i = h := by
      intro i bucket' hbucket e he hid
      have := hplaced (i + 1) bucket' (by simpa using hbucket) e he hid
      omega
    by_cases hhere : start = h
    · have hrest : buckets.flatten.filter (·.id = id) = [] := by
        rw [filter_eq_nil_iff]
        intro e he hid
        obtain ⟨bucket', hbucket, hmem⟩ := mem_flatten.mp he
        obtain ⟨i, hi, rfl⟩ := mem_iff_getElem.mp hbucket
        have := htail i _ (getElem?_eq_getElem hi) e hmem (by simpa using hid)
        omega
      rw [hrest, hhere]
      simp
    · have hfirst : bucket.filter (·.id = id) = [] := by
        rw [filter_eq_nil_iff]
        intro e he hid
        have := hplaced 0 bucket rfl e he (by simpa using hid)
        omega
      rw [hfirst, nil_append, ih htail (by omega)]
      congr 1
      rw [show h - start = (h - (start + 1)) + 1 by omega, getD_cons_succ]

theorem foreachWithID_eq (m : IndexMap) (id : ID) :
    m.foreachWithID id = m.entries.filter (·.id = id) := by
  refine (filter_flatten ?_ (Nat.zero_le _)).symm
  intro i bucket hbucket e he hid
  rw [Nat.zero_add, ← hid]
  exact (m.placed i bucket hbucket e he).symm

theorem get_isSome (m : IndexMap) (id : ID) : (m.get id).isSome ↔ ∃ e ∈ m.entries, e.id = id := by
  have hfilter := foreachWithID_eq m id
  rw [get, find?_isSome]
  constructor
  · rintro ⟨e, he, hid⟩
    have hmem : e ∈ m.foreachWithID id := mem_filter.mpr ⟨he, hid⟩
    rw [hfilter] at hmem
    exact ⟨e, (mem_filter.mp hmem).1, by simpa using hid⟩
  · rintro ⟨e, he, hid⟩
    have hmem : e ∈ m.entries.filter (·.id = id) := mem_filter.mpr ⟨he, by simpa using hid⟩
    rw [← hfilter] at hmem
    exact ⟨e, (mem_filter.mp hmem).1, by simpa using hid⟩

theorem mem_of_get {m : IndexMap} {id : ID} {e : IndexEntry}
    (h : m.get id = some e) : e ∈ m.entries ∧ e.id = id := by
  have hid : e.id = id := by simpa using find?_some h
  have hmem : e ∈ m.foreachWithID id := mem_filter.mpr ⟨mem_of_find?_eq_some h, by simpa using hid⟩
  rw [foreachWithID_eq] at hmem
  exact ⟨(mem_filter.mp hmem).1, hid⟩

/-! ## After a number of calls -/

theorem entries_foldl_add (mh : ID → Nat) (adds : List IndexEntry) :
    (adds.foldl add (new mh)).entries.Perm adds := by
  induction adds using reverseRecOn with
  | nil => exact List.Perm.refl _
  | append_singleton adds e ih =>
    rw [foldl_append]
    refine (entries_add _ e).trans ((ih.cons e).trans ?_)
    exact (perm_append_singleton e adds).symm

/-- The number of buckets is a power of two from the first call on, and no call
makes the load too high. -/
theorem sizes_foldl_add (mh : ID → Nat) (adds : List IndexEntry) :
    (adds ≠ [] → ∃ k, (adds.foldl add (new mh)).buckets.length = 2 ^ k) ∧
      (adds.foldl add (new mh)).numentries ≤
        maxLoad * (adds.foldl add (new mh)).buckets.length := by
  induction adds using reverseRecOn with
  | nil => exact ⟨fun h => absurd rfl h, Nat.le_refl 0⟩
  | append_singleton adds e ih =>
    obtain ⟨hpower, hload⟩ := ih
    have hcount : (adds.foldl add (new mh)).numentries = adds.length := by
      rw [(adds.foldl add (new mh)).counted]
      exact (entries_foldl_add mh adds).length_eq
    set m := adds.foldl add (new mh) with hm
    have hbuckets : (m.add e).buckets.length =
        (roomFor m.mh m.buckets m.numentries).length := length_prepend e
    rw [foldl_append, foldl_cons, foldl_nil, ← hm, hbuckets]
    change _ ∧ m.numentries + 1 ≤ _
    unfold roomFor
    split
    · rename_i hnone
      rw [length_replicate, hnone]
      exact ⟨fun _ => ⟨6, rfl⟩, by decide⟩
    · rename_i hsome
      obtain ⟨k, hk⟩ := hpower fun hnil => hsome (by rw [hcount, hnil]; rfl)
      split
      · rw [length_grow, growthFactor, hk]
        refine ⟨fun _ => ⟨k + 1, by ring⟩, ?_⟩
        rw [hk, maxLoad] at hload
        have hpos : 0 < 2 ^ k := Nat.pow_pos (by decide)
        rw [maxLoad]
        omega
      · exact ⟨fun _ => ⟨k, hk⟩, by omega⟩

end IndexMap

end Rapi.Repository
