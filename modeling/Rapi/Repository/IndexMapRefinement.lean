import Rapi.Repository.IndexMapHeap

/-!
# The table in memory is the table of lists

Every call of `add` on the pointers does what it does on the lists of entries,
and the walks along the chains see those lists.  The cells of the chains and of
the free list stay apart all the time, so that each walk ends.
-/

namespace Rapi.Repository

open Foundation Restic List

/-! ## Growing -/

namespace PointerMap

variable {m : PointerMap} {chains : List (List Nat)} {free : List Nat}

theorem relink_spec {fuel : Nat} {head : Option Nat} {es : List Nat}
    (hchain : Chain (links m.heap) head es) (hfuel : es.length ≤ fuel)
    (hlinked : Linked (links m.heap) m.buckets chains)
    (hnodup : (es ++ chains.flatten).Nodup) (hpos : 0 < chains.length) : ∃ heap buckets,
      relink fuel head m = some { m with heap := heap, buckets := buckets } ∧
      Linked (links heap) buckets (es.foldl (place m.mh (entryAt m.heap)) chains) ∧
      entryAt heap = entryAt m.heap ∧
      ∀ e, e ∉ es → links heap e = links m.heap e := by
  induction es generalizing fuel head m chains with
  | nil =>
    cases hchain
    refine ⟨m.heap, m.buckets, ?_, hlinked, rfl, fun _ _ => rfl⟩
    cases fuel <;> rfl
  | cons e es ih =>
    obtain ⟨rfl, next, hnext, hrest⟩ := hchain
    cases fuel with
    | zero => cases hfuel
    | succ fuel =>
      rw [cons_append, nodup_cons, mem_append, not_or] at hnodup
      obtain ⟨⟨hes, hout⟩, hnodup⟩ := hnodup
      have hlt : e < m.heap.length := lt_of_isSome_links (by rw [hnext]; rfl)
      have hlength := hlinked.length_eq
      set h := m.hash (entryAt m.heap e).id with hh
      have hplace : h = m.mh (entryAt m.heap e).id &&& (chains.length - 1) := by
        rw [hh, hash, hlength]
      have hbucket : h < m.buckets.length := by
        rw [hplace, hlength]
        exact place_lt hpos _
      obtain ⟨old, hold⟩ : ∃ old, m.buckets[h]? = some old := ⟨_, getElem?_eq_getElem hbucket⟩
      set heap := m.heap.set e { entryAt m.heap e with next := old } with hheap
      set m' := { m with heap := heap, buckets := m.buckets.set h (some e) } with hm'
      have hsame : ∀ y, y ≠ e → links heap y = links m.heap y :=
        fun y hy => links_set_ne hy _
      have hentries : entryAt heap = entryAt m.heap := entryAt_relinked old
      -- the cell leaves its old chain and becomes the head of its new one
      have hlinked' : Linked (links m'.heap) m'.buckets (place m.mh (entryAt m.heap) chains e) := by
        rw [place, ← hplace]
        refine hlinked.pushAt hold ?_ (links_set_self hlt _)
        intro y hy
        exact hsame y (fun heq => hout (heq ▸ hy))
      have hrest' : Chain (links m'.heap) next es :=
        hrest.congr fun y hy => hsame y (fun heq => hes (heq ▸ hy))
      have hnodup' : (es ++ (place m.mh (entryAt m.heap) chains e).flatten).Nodup := by
        have hplaced : (place m.mh (entryAt m.heap) chains e).flatten.Perm
            (e :: chains.flatten) := flatten_place hpos e
        have hperm := (hplaced.append_left es).trans perm_middle
        rw [hperm.nodup_iff, nodup_cons, mem_append, not_or]
        exact ⟨⟨hes, hout⟩, hnodup⟩
      obtain ⟨heap', buckets', hrun, hall, hsames, hframe⟩ :=
        ih hrest' (Nat.le_of_succ_le_succ hfuel) hlinked' hnodup' (by simpa using hpos)
      refine ⟨heap', buckets', ?_, ?_, hsames.trans hentries, ?_⟩
      · rw [relink, links_eq_some.mp hnext]
        simp only [Option.bind_eq_bind, Option.bind_some, ← hh, hold]
        exact hrun
      · rw [foldl_cons, ← hentries]
        rw [← hentries] at hall
        exact hall
      · intro y hy
        rw [mem_cons, not_or] at hy
        exact (hframe y hy.2).trans (hsame y hy.1)

theorem relinkAll_spec {heads : List (Option Nat)} {olds : List (List Nat)}
    (holds : Linked (links m.heap) heads olds) (hlinked : Linked (links m.heap) m.buckets chains)
    (hnodup : (olds.flatten ++ chains.flatten).Nodup) (hpos : 0 < chains.length) : ∃ heap buckets,
      relinkAll heads m = some { m with heap := heap, buckets := buckets } ∧
      Linked (links heap) buckets (olds.flatten.foldl (place m.mh (entryAt m.heap)) chains) ∧
      entryAt heap = entryAt m.heap ∧
      ∀ e, e ∉ olds.flatten → links heap e = links m.heap e := by
  induction olds generalizing heads m chains with
  | nil =>
    cases holds
    exact ⟨m.heap, m.buckets, rfl, hlinked, rfl, fun _ _ => rfl⟩
  | cons es olds ih =>
    obtain ⟨head, heads, hchain, hrest, rfl⟩ := forall₂_cons_right_iff.mp holds
    rw [flatten_cons, append_assoc] at hnodup
    obtain ⟨hes, hnodup', hdisjoint⟩ := nodup_append'.mp hnodup
    have hfirst : (es ++ chains.flatten).Nodup := by
      refine hnodup.sublist ?_
      exact (sublist_append_right _ _).append_left es
    obtain ⟨heap, buckets, hrun, hlinked', hentries, hframe⟩ :=
      relink_spec hchain (length_le_of_chain hchain hes) hlinked hfirst hpos
    -- the chains that are still to come are not touched
    have hrest' : Linked (links heap) heads olds := by
      refine Linked.congr hrest fun e he => hframe e fun hmem => ?_
      exact hdisjoint hmem (mem_append_left _ he)
    have hperm : (es.foldl (place m.mh (entryAt m.heap)) chains).flatten.Perm
        (es ++ chains.flatten) := flatten_foldl_place hpos es
    have hnext : (olds.flatten ++
        (es.foldl (place m.mh (entryAt m.heap)) chains).flatten).Nodup := by
      refine (hperm.append_left olds.flatten).nodup_iff.mpr ?_
      rw [← append_assoc] at hnodup ⊢
      refine (List.Perm.nodup_iff ?_).mp hnodup
      exact perm_append_comm.append_right _
    obtain ⟨heap', buckets', hruns, hall, hsame, hframes⟩ :=
      ih (m := ⟨heap, buckets, m.numentries, m.mh, m.free⟩) hrest' hlinked' hnext
        (by rwa [length_foldl_place])
    refine ⟨heap', buckets', ?_, ?_, hsame.trans hentries, ?_⟩
    · rw [relinkAll, hrun]
      exact hruns
    · rw [flatten_cons, foldl_append]
      rw [hentries] at hall
      exact hall
    · intro e he
      rw [flatten_cons, mem_append, not_or] at he
      exact (hframes e he.2).trans (hframe e he.1)

theorem grow_spec (hlinked : Linked (links m.heap) m.buckets chains)
    (hnodup : chains.flatten.Nodup) (hpos : 0 < chains.length) : ∃ heap buckets,
      grow m = some { m with heap := heap, buckets := buckets } ∧
      Linked (links heap) buckets (chains.flatten.foldl (place m.mh (entryAt m.heap))
          (List.replicate (growthFactor * chains.length) [])) ∧
      entryAt heap = entryAt m.heap ∧
      ∀ e, e ∉ chains.flatten → links heap e = links m.heap e := by
  have hempty : (replicate (growthFactor * chains.length) ([] : List Nat)).flatten = [] := by simp
  unfold grow
  rw [hlinked.length_eq]
  refine relinkAll_spec hlinked (linked_replicate _) ?_ ?_
  · rwa [hempty, append_nil]
  · rw [length_replicate]
    exact Nat.mul_pos (by decide) hpos

/-! ## Adding -/

theorem makeRoom_spec {buckets : Buckets} (h : Holds m buckets chains free)
    (hcount : m.numentries = buckets.flatten.length) : ∃ m' chains', m.makeRoom = some m' ∧
      Holds m' (roomFor m.mh buckets m.numentries) chains' free ∧
      m'.mh = m.mh ∧ m'.numentries = m.numentries := by
  have hlength := h.length_buckets
  obtain ⟨hlinked, hfreed, hnodup, hentries⟩ := h
  obtain ⟨hchains, hfree, hdisjoint⟩ := nodup_append'.mp hnodup
  unfold makeRoom roomFor
  rw [hlength]
  split
  · refine ⟨m.init, replicate initialBuckets [], rfl,
      ⟨linked_replicate _, hfreed, ?_, ?_⟩, rfl, rfl⟩
    · simpa using hfree
    · simp
  · rename_i hsome
    split
    · have hpos : 0 < chains.length := by
        rw [length_pos_iff]
        rintro rfl
        rw [hcount, ← hentries] at hsome
        exact hsome rfl
      obtain ⟨heap, heads, hgrow, hlinked', hsame, hframe⟩ := grow_spec hlinked hchains hpos
      refine ⟨_, _, hgrow, ⟨hlinked', ?_, ?_, ?_⟩, rfl, rfl⟩
      · exact hfreed.congr fun e he => hframe e fun hmem => hdisjoint hmem he
      · have hgrown : 0 < (replicate (growthFactor * chains.length) ([] : List Nat)).length := by
          rw [length_replicate]
          exact Nat.mul_pos (by decide) hpos
        have hperm : (chains.flatten.foldl (place m.mh (entryAt m.heap))
            (replicate (growthFactor * chains.length) [])).flatten.Perm _ :=
          flatten_foldl_place hgrown chains.flatten
        rw [flatten_replicate_nil, append_nil] at hperm
        exact (hperm.append_right free).nodup_iff.mpr hnodup
      · rw [hsame, map_foldl_place, Repository.grow, map_flatten, hentries,
          map_replicate, ← hentries, length_map]
        rfl
    · exact ⟨m, chains, rfl, ⟨hlinked, hfreed, hnodup, hentries⟩, rfl, rfl⟩

theorem newEntry_spec {buckets : Buckets} (h : Holds m buckets chains free) :
    ∃ e m' free', m.newEntry = some (e, m') ∧ Holds m' buckets chains free' ∧
      e < m'.heap.length ∧ e ∉ chains.flatten ++ free' ∧
      m'.buckets = m.buckets ∧ m'.mh = m.mh ∧ m'.numentries = m.numentries := by
  obtain ⟨hlinked, hfreed, hnodup, hentries⟩ := h
  cases free with
  | nil =>
    have hnone : m.free = none := hfreed
    have hold : ∀ e ∈ chains.flatten, e < m.heap.length := fun e he =>
      lt_of_isSome_links (hlinked.isSome_of_mem he)
    obtain ⟨-, next, hnext, hrest⟩ := chain_batch m.heap
    refine ⟨m.heap.length, { m with heap := m.heap ++ batch m.heap.length, free := next },
      range' (m.heap.length + 1) 255, ?_, ⟨?_, hrest, ?_, ?_⟩, ?_, ?_, rfl, rfl, rfl⟩
    · simp [newEntry, hnone, links_eq_some.mp hnext]
    · exact hlinked.congr fun e he => links_append_of_lt (hold e he) _
    · rw [append_nil] at hnodup
      refine nodup_append'.mpr ⟨hnodup, nodup_range', ?_⟩
      intro e he hnew
      have hlt := hold e he
      have hge := (mem_range'_1.mp hnew).1
      omega
    · rw [← hentries]
      exact map_map_congr fun e he => entryAt_append_of_lt (hold e he) _
    · simp [batch, entryAllocBatch]
    · rw [mem_append, not_or]
      constructor
      · exact fun hmem => absurd (hold _ hmem) (Nat.lt_irrefl _)
      · intro hmem
        have hge := (mem_range'_1.mp hmem).1
        omega
  | cons e free =>
    obtain ⟨hfree, next, hnext, hrest⟩ := hfreed
    have hlt : e < m.heap.length := lt_of_isSome_links (by rw [hnext]; rfl)
    have hperm : (chains.flatten ++ e :: free).Perm (e :: (chains.flatten ++ free)) := perm_middle
    rw [hperm.nodup_iff, nodup_cons] at hnodup
    refine ⟨e, { m with free := next }, free, ?_,
      ⟨hlinked, hrest, hnodup.2, hentries⟩, hlt, hnodup.1, rfl, rfl, rfl⟩
    simp [newEntry, hfree, links_eq_some.mp hnext]

theorem add_spec {table : IndexMap} (h : Holds m table.buckets chains free) (hmh : m.mh = table.mh)
    (hcount : m.numentries = table.numentries) (entry : IndexEntry) :
    ∃ m' chains' free', m.add entry = some m' ∧
      Holds m' (table.add entry).buckets chains' free' ∧
      m'.mh = table.mh ∧ m'.numentries = table.numentries + 1 := by
  obtain ⟨room, chains₁, hroom, hholds₁, hmh₁, hcount₁⟩ :=
    makeRoom_spec h (hcount.trans table.counted)
  obtain ⟨e, taken, free', htaken, hholds₂, hlt, hfresh, hbuckets, hmh₂, hcount₂⟩ :=
    newEntry_spec hholds₁
  rw [mem_append, not_or] at hfresh
  obtain ⟨hlinked, hfreed, hnodup, hentries⟩ := hholds₂
  rw [hmh, hcount] at hentries
  have hlength : room.buckets.length =
      (roomFor table.mh table.buckets table.numentries).length := by
    rw [← hentries, length_map, ← hlinked.length_eq, hbuckets]
  have hplace : room.hash entry.id = bucketOf table.mh
      (roomFor table.mh table.buckets table.numentries) entry.id := by
    rw [hash, bucketOf, hlength, hmh₁, hmh]
  have hbucket : room.hash entry.id < taken.buckets.length := by
    rw [hplace, hbuckets, hlength]
    exact bucketOf_lt (roomFor_spec table).2.1 _
  obtain ⟨head, hhead⟩ : ∃ head, taken.buckets[room.hash entry.id]? = some head :=
    ⟨_, getElem?_eq_getElem hbucket⟩
  have hsame : ∀ y, y ≠ e → links (taken.heap.set e { entry with next := head }) y =
        links taken.heap y := fun y hy => links_set_ne hy _
  refine ⟨{ taken with
      heap := taken.heap.set e { entry with next := head }
      buckets := taken.buckets.set (room.hash entry.id) (some e)
      numentries := taken.numentries + 1 },
    pushAt chains₁ (room.hash entry.id) e, free', ?_, ⟨?_, ?_, ?_, ?_⟩, ?_, ?_⟩
  · rw [add, hroom]
    simp only [Option.bind_eq_bind, Option.bind_some, htaken, hhead]
    rfl
  · refine hlinked.pushAt hhead ?_ (links_set_self hlt _)
    exact fun y hy => hsame y fun heq => hfresh.1 (heq ▸ hy)
  · exact hfreed.congr fun y hy => hsame y fun heq => hfresh.2 (heq ▸ hy)
  · have hpushed : room.hash entry.id < chains₁.length := by rwa [← hlinked.length_eq]
    have hperm := (flatten_pushAt hpushed e).append_right free'
    rw [hperm.nodup_iff, cons_append, nodup_cons, mem_append, not_or]
    exact ⟨hfresh, hnodup⟩
  · have hold : chains₁.map (map (entryAt (taken.heap.set e { entry with next := head }))) =
          roomFor table.mh table.buckets table.numentries := by
      rw [← hentries]
      refine map_map_congr fun y hy => entryAt_set_ne ?_ _
      exact fun heq => hfresh.1 (heq ▸ hy)
    rw [map_pushAt, hold, entryAt_set_self hlt, hplace]
    rfl
  · rw [hmh₂, hmh₁, hmh]
  · rw [hcount₂, hcount₁, hcount]

theorem addAll_spec (mh : ID → Nat) (adds : List IndexEntry) :
    ∃ m chains free, addAll mh adds = some m ∧
      Holds m (adds.foldl IndexMap.add (.new mh)).buckets chains free ∧
      m.mh = (adds.foldl IndexMap.add (.new mh)).mh ∧
      m.numentries = (adds.foldl IndexMap.add (.new mh)).numentries := by
  induction adds using reverseRecOn with
  | nil => exact ⟨new mh, [], [], rfl, ⟨.nil, rfl, nodup_nil, rfl⟩, rfl, rfl⟩
  | append_singleton adds entry ih =>
    obtain ⟨m, chains, free, hrun, hholds, hmh, hcount⟩ := ih
    obtain ⟨m', chains', free', hadd, hholds', hmh', hcount'⟩ := add_spec hholds hmh hcount entry
    rw [foldl_append]
    refine ⟨m', chains', free', ?_, hholds', hmh', hcount'⟩
    rw [addAll] at hrun ⊢
    rw [foldlM_append, hrun]
    simp [hadd]

/-! ## Visiting -/

/-- Visit a list until `fn` returns false. -/
def visitList {σ : Type} (fn : IndexEntry → σ → Bool × σ) : List IndexEntry → σ → Bool × σ
  | [], s => (true, s)
  | e :: es, s =>
    match fn e s with
    | (false, s) => (false, s)
    | (true, s) => visitList fn es s

section Visits

variable {σ : Type} {fn : IndexEntry → σ → Bool × σ}

theorem visitList_append (es es' : List IndexEntry) (s : σ) : visitList fn (es ++ es') s =
      match visitList fn es s with
      | (false, s) => (false, s)
      | (true, s) => visitList fn es' s := by
  induction es generalizing s with
  | nil => rfl
  | cons e es ih =>
    rw [cons_append, visitList, visitList]
    obtain ⟨go, s'⟩ := fn e s
    cases go with
    | false => rfl
    | true => exact ih s'

theorem visitList_of_true (hfn : ∀ e s, (fn e s).1) (es : List IndexEntry)
    (s : σ) : visitList fn es s = (true, es.foldl (fun s e => (fn e s).2) s) := by
  induction es generalizing s with
  | nil => rfl
  | cons e es ih =>
    have hfirst : fn e s = (true, (fn e s).2) := Prod.ext (hfn e s) rfl
    rw [visitList, hfirst]
    exact ih _

theorem visitChain_eq {heap : Heap} {fuel : Nat} {head : Option Nat} {es : List Nat}
    (hchain : Chain (links heap) head es) (hfuel : es.length ≤ fuel) (s : σ) :
    visitChain fn heap fuel head s = some (visitList fn (es.map (entryAt heap)) s) := by
  induction es generalizing fuel head s with
  | nil =>
    cases hchain
    cases fuel <;> rfl
  | cons e es ih =>
    obtain ⟨rfl, next, hnext, hrest⟩ := hchain
    cases fuel with
    | zero => cases hfuel
    | succ fuel =>
      rw [visitChain, links_eq_some.mp hnext, map_cons, visitList]
      simp only [Option.bind_eq_bind, Option.bind_some]
      obtain ⟨go, s'⟩ := fn (entryAt heap e) s
      cases go with
      | false => rfl
      | true => exact ih hrest (Nat.le_of_succ_le_succ hfuel) s'

theorem visitBuckets_eq {heap : Heap} {heads : List (Option Nat)} {chains : List (List Nat)}
    (hlinked : Linked (links heap) heads chains) (hnodup : chains.flatten.Nodup) (s : σ) :
    visitBuckets fn heap heads s = some (visitList fn (chains.flatten.map (entryAt heap)) s) := by
  induction hlinked generalizing s with
  | nil => rfl
  | @cons head es heads chains hchain _ ih =>
    rw [flatten_cons, nodup_append'] at hnodup
    have hfuel := length_le_of_chain hchain hnodup.1
    rw [visitBuckets, visitChain_eq hchain hfuel, flatten_cons, map_append, visitList_append]
    simp only [Option.bind_eq_bind, Option.bind_some]
    obtain ⟨go, s'⟩ := visitList fn (es.map (entryAt heap)) s
    cases go with
    | false => rfl
    | true => exact ih hnodup.2.1 s'

theorem visitList_find (id : ID) (es : List IndexEntry) : (visitList (fun entry _ =>
      if entry.id = id then (false, some entry) else (true, none)) es none).2 =
        es.find? (·.id = id) := by
  induction es with
  | nil => rfl
  | cons e es ih =>
    by_cases hid : e.id = id
    · simp [visitList, hid]
    · simp [visitList, hid, ih]

end Visits

section Views

variable {m : PointerMap} {table : IndexMap} {chains : List (List Nat)}
  {free : List Nat} (h : Holds m table.buckets chains free)

include h

theorem foreach_eq {σ : Type} (fn : IndexEntry → σ → Bool × σ) (s : σ) :
    m.foreach fn s = some (visitList fn table.entries s).2 := by
  have hnodup := (nodup_append'.mp h.nodup).1
  rw [foreach, visitBuckets_eq h.linked hnodup, map_flatten, h.entries]
  rfl

theorem buckets_eq_nil (hempty : m.buckets.length = 0) : table.buckets = [] := by
  rwa [h.length_buckets, length_eq_zero_iff] at hempty

variable (hmh : m.mh = table.mh)

include hmh

/-- The chain of an ID is the bucket of the table. -/
theorem visitChain_hash (hpos : m.buckets.length ≠ 0) (id : ID) :
    ∃ head, m.buckets[m.hash id]? = some head ∧
      ∀ {σ : Type} (fn : IndexEntry → σ → Bool × σ) (s : σ),
        visitChain fn m.heap m.heap.length head s = some (visitList fn
            (table.buckets.getD (bucketOf table.mh table.buckets id) []) s) := by
  have hlength := h.length_buckets
  have hplace : m.hash id = bucketOf table.mh table.buckets id := by
    rw [hash, bucketOf, hlength, hmh]
  have hlt : m.hash id < m.buckets.length := by
    rw [hplace, hlength]
    exact bucketOf_lt (by omega) id
  obtain ⟨head, hhead⟩ : ∃ head, m.buckets[m.hash id]? = some head := ⟨_, getElem?_eq_getElem hlt⟩
  obtain ⟨es, hes, hchain⟩ := h.linked.getElem? hhead
  have hnodup : es.Nodup := by
    have hmem := mem_of_getElem? hes
    exact (nodup_flatten.mp (nodup_append'.mp h.nodup).1).1 es hmem
  have hbucket : table.buckets.getD (bucketOf table.mh table.buckets id) [] =
      es.map (entryAt m.heap) := by
    rw [← hplace, ← h.entries, getD_eq_getElem?_getD, getElem?_map, hes]
    rfl
  refine ⟨head, hhead, fun fn s => ?_⟩
  rw [hbucket, visitChain_eq hchain (length_le_of_chain hchain hnodup)]

theorem foreachWithID_spec (id : ID) {σ : Type} (fn : IndexEntry → σ → σ) (s : σ) :
    m.foreachWithID id fn s = some ((table.foreachWithID id).foldl (fun s e => fn e s) s) := by
  unfold foreachWithID
  split
  · rename_i hempty
    simp [IndexMap.foreachWithID, buckets_eq_nil h hempty]
  · rename_i hpos
    obtain ⟨head, hhead, hvisit⟩ := visitChain_hash h hmh hpos id
    rw [hhead]
    simp only [Option.bind_eq_bind, Option.bind_some, hvisit]
    rw [visitList_of_true (fun _ _ => rfl)]
    simp only [Option.pure_def, IndexMap.foreachWithID, foldl_filter, decide_eq_true_eq]
    congr 2
    funext s e
    split <;> simp_all

theorem get_spec (id : ID) : m.get id = some (table.get id) := by
  unfold get
  split
  · rename_i hempty
    simp [IndexMap.get, buckets_eq_nil h hempty]
  · rename_i hpos
    obtain ⟨head, hhead, hvisit⟩ := visitChain_hash h hmh hpos id
    rw [hhead]
    simp only [Option.bind_eq_bind, Option.bind_some, hvisit, visitList_find]
    rfl

theorem hash_of_mem {i : Nat} {chain : List Nat} (hchain : chains[i]? = some chain) {e : Nat}
    (he : e ∈ chain) : m.hash (entryAt m.heap e).id = i := by
  have hlength := h.length_buckets
  have hbucket : table.buckets[i]? = some (chain.map (entryAt m.heap)) := by
    rw [← h.entries, getElem?_map, hchain]
    rfl
  have hplaced := table.placed i _ hbucket _ (mem_map_of_mem he)
  rwa [bucketOf, ← hlength, ← hmh] at hplaced

end Views

end PointerMap

/-- Whatever is added, the table in memory is a multimap of it. -/
theorem indexMap_is_multimap (mh : ID → Nat) (adds : List IndexEntry) :
    ∃ m chains free, PointerMap.addAll mh adds = some m ∧
      (adds = [] → m.buckets.length = 0) ∧
      (adds ≠ [] → ∃ k, m.buckets.length = 2 ^ k) ∧
      Linked (links m.heap) m.buckets chains ∧
      Chain (links m.heap) m.free free ∧ (chains.flatten ++ free).Nodup ∧
      (∀ i chain, chains[i]? = some chain →
        ∀ e ∈ chain, m.hash (entryAt m.heap e).id = i) ∧
      m.numentries ≤ 4 * m.buckets.length ∧
      (∃ es : List IndexEntry, es.Perm adds ∧
        ∀ {σ : Type} (fn : IndexEntry → σ → Bool × σ) (s : σ),
          (∀ e s, (fn e s).1) →
            m.foreach fn s = some (es.foldl (fun s e => (fn e s).2) s)) ∧
      (∀ id, ∃ es : List IndexEntry, es.Perm (adds.filter (·.id = id)) ∧
        ∀ {σ : Type} (fn : IndexEntry → σ → σ) (s : σ),
          m.foreachWithID id fn s = some (es.foldl (fun s e => fn e s) s)) ∧
      (∀ id, ∃ found, m.get id = some found ∧
        (found.isSome ↔ ∃ e ∈ adds, e.id = id) ∧
        ∀ e, found = some e → e ∈ adds ∧ e.id = id) ∧
      m.len = adds.length := by
  obtain ⟨m, chains, free, hrun, hholds, hmh, hcount⟩ := PointerMap.addAll_spec mh adds
  set table := adds.foldl IndexMap.add (.new mh) with htable
  have hperm : table.entries.Perm adds := IndexMap.entries_foldl_add mh adds
  have hlength := hholds.length_buckets
  have hsizes := IndexMap.sizes_foldl_add mh adds
  refine ⟨m, chains, free, hrun, ?_, ?_, hholds.linked, hholds.freed,
    hholds.nodup, ?_, ?_, ⟨table.entries, hperm, ?_⟩, ?_, ?_, ?_⟩
  · rintro rfl
    exact hlength
  · intro hne
    rw [hlength]
    exact hsizes.1 hne
  · intro i chain hchain e he
    exact PointerMap.hash_of_mem hholds hmh hchain he
  · rw [hcount, hlength]
    exact hsizes.2
  · intro σ fn s hfn
    rw [PointerMap.foreach_eq hholds, PointerMap.visitList_of_true hfn]
  · intro id
    refine ⟨table.foreachWithID id, ?_, fun fn s =>
      PointerMap.foreachWithID_spec hholds hmh id fn s⟩
    rw [IndexMap.foreachWithID_eq]
    exact hperm.filter _
  · intro id
    refine ⟨table.get id, PointerMap.get_spec hholds hmh id, ?_, ?_⟩
    · rw [IndexMap.get_isSome]
      simp only [hperm.mem_iff]
    · intro e he
      obtain ⟨hmem, hid⟩ := IndexMap.mem_of_get he
      exact ⟨hperm.mem_iff.mp hmem, hid⟩
  · rw [PointerMap.len, hcount, table.counted]
    exact hperm.length_eq

end Rapi.Repository
