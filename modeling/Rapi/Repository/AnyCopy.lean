import Rapi.Repository.LoadBlob

/-!
# Any good copy is found

`LoadBlob` at the level of its buffer.  The list of candidates is sorted in
place.  The buffer is a slice of an array that is made longer when a candidate
needs it; a read that fails may leave some bytes in it, the ciphertext is
decrypted where it stands, and the plaintext is moved to the front in the end.
-/

namespace Rapi.Repository

open Foundation Crypto Restic List Nat

/-! ## Sorting in place -/

section InPlace

variable {α : Type} (has : α → Bool)

/-- The loop of `sortCachedPacksFirst` from position `i`.  The first `c` elements
are those that were found so far. -/
def sortLoop : Nat → List α → Nat → Nat → List α → List α × Nat × List α
  | 0, blobs, _, c, noncached => (blobs, c, noncached)
  | k + 1, blobs, i, c, noncached =>
    match blobs[i]? with
    | none => (blobs, c, noncached)
    | some blob =>
      if has blob then sortLoop k (blobs.set c blob) (i + 1) (c + 1) noncached
      else sortLoop k blobs (i + 1) c (noncached ++ [blob])

def sortInPlace (blobs : List α) : List α :=
  let (blobs, c, noncached) := sortLoop has blobs.length blobs 0 0 []
  blobs.take c ++ (noncached ++ blobs.drop (c + noncached.length))

variable {has}

/-- The elements from `i` on are still there when their turn comes. -/
theorem sortLoop_eq {front rest : List α} {k : Nat} (hk : rest.length = k)
    {c : Nat} (hc : c ≤ front.length) (noncached : List α) :
    ∃ blobs, sortLoop has k (front ++ rest) front.length c noncached =
        (blobs, c + (rest.filter has).length, noncached ++ rest.filter (!has ·)) ∧
      blobs.length = front.length + rest.length ∧
      blobs.take (c + (rest.filter has).length) = front.take c ++ rest.filter has := by
  induction rest generalizing front k c noncached with
  | nil =>
    subst hk
    refine ⟨front ++ [], ?_, by simp, by simp⟩
    simp [sortLoop]
  | cons blob rest ih =>
    subst hk
    have hget : (front ++ blob :: rest)[front.length]? = some blob := by simp
    rw [length_cons, sortLoop, hget]
    dsimp only
    cases hhas : has blob with
    | true =>
      have hset : (front ++ blob :: rest).set c blob = (front ++ [blob]).set c blob ++ rest := by
        rw [← set_append_left _ _ (by simp; omega)]
        simp
      have hlength : ((front ++ [blob]).set c blob).length = front.length + 1 := by simp
      obtain ⟨blobs, hrun, hsize, htake⟩ := ih rfl
        (show c + 1 ≤ ((front ++ [blob]).set c blob).length by omega) noncached
      refine ⟨blobs, ?_, by rw [hsize, hlength]; omega, ?_⟩
      · rw [if_pos rfl, hset, ← hlength, hrun]
        simp [hhas]
        omega
      · have hfirst : ((front ++ [blob]).set c blob).take (c + 1) = front.take c ++ [blob] := by
          rw [take_add_one, take_set_of_le (le_refl c), getElem?_set_self (by simp; omega),
            take_append_of_le_length hc]
          rfl
        rw [filter_cons_of_pos hhas, length_cons, show c + ((rest.filter has).length + 1) =
            c + 1 + (rest.filter has).length by omega, htake, hfirst]
        simp
    | false =>
      have hlength : (front ++ [blob]).length = front.length + 1 := by simp
      obtain ⟨blobs, hrun, hsize, htake⟩ := ih rfl
        (show c ≤ (front ++ [blob]).length by omega) (noncached ++ [blob])
      refine ⟨blobs, ?_, by rw [hsize, hlength]; omega, ?_⟩
      · rw [if_neg Bool.false_ne_true, show front ++ blob :: rest =
          (front ++ [blob]) ++ rest by simp, ← hlength, hrun]
        simp [hhas]
      · rw [filter_cons_of_neg (by simp [hhas]), htake, take_append_of_le_length hc]

theorem sortInPlace_eq (blobs : List α) :
    sortInPlace has blobs = blobs.filter has ++ blobs.filter (!has ·) := by
  have hstart : 0 ≤ ([] : List α).length := le_refl 0
  obtain ⟨sorted, hrun, hsize, htake⟩ := @sortLoop_eq α has [] blobs blobs.length rfl 0 hstart []
  have hcount : sorted.length = (blobs.filter has).length + (blobs.filter (!has ·)).length := by
    rw [hsize, length_nil, zero_add]
    exact length_eq_length_filter_add has
  rw [nil_append, length_nil] at hrun
  simp only [zero_add, nil_append, take_nil] at hrun htake
  unfold sortInPlace
  rw [hrun]
  dsimp only
  rw [htake, drop_eq_nil_of_le (le_of_eq hcount), append_nil]

end InPlace

/-- `sortCachedPacksFirst` on the slice itself. -/
def sortPacksInPlace (cache : Option (ID → Bool)) (blobs : List PackedBlob) : List PackedBlob :=
  match cache with
  | none => blobs
  | some has =>
    if blobs.length = 1 then blobs else sortInPlace (has ·.packID) blobs

def isCached (cache : Option (ID → Bool)) (blob : PackedBlob) : Bool := cache.any (· blob.packID)

theorem sortPacksInPlace_eq (cache : Option (ID → Bool)) (blobs : List PackedBlob) :
    sortPacksInPlace cache blobs =
      blobs.filter (isCached cache) ++ blobs.filter (!isCached cache ·) := by
  cases cache with
  | none => simp [sortPacksInPlace, isCached]
  | some has =>
    rw [sortPacksInPlace]
    split
    · rename_i hone
      obtain ⟨blob, rfl⟩ := length_eq_one_iff.mp hone
      cases hhas : isCached (some has) blob <;> simp [hhas]
    · exact sortInPlace_eq blobs

/-- The blobs of cached packs come first, and nothing else changes its order. -/
theorem sortPacksInPlace_partition (cache : Option (ID → Bool))
    (blobs : List PackedBlob) :
    (sortPacksInPlace cache blobs).Perm blobs ∧
    (sortPacksInPlace cache blobs).Pairwise
      (fun first second => isCached cache second → isCached cache first) ∧
    (sortPacksInPlace cache blobs).filter (isCached cache) =
      blobs.filter (isCached cache) ∧
    (sortPacksInPlace cache blobs).filter (!isCached cache ·) =
      blobs.filter (!isCached cache ·) := by
  rw [sortPacksInPlace_eq]
  refine ⟨filter_append_perm _ _, ?_, by simp, by simp⟩
  rw [pairwise_append]
  refine ⟨?_, ?_, ?_⟩
  · exact pairwise_of_forall_mem_list fun first hfirst _ _ _ => (mem_filter.mp hfirst).2
  · refine pairwise_of_forall_mem_list fun _ _ second hsecond hcached => ?_
    simp [hcached] at hsecond
  · exact fun first hfirst _ _ _ => (mem_filter.mp hfirst).2

/-! ## The buffer -/

/-- A slice from the start of an array. -/
structure Scratch where
  array : Bytes
  len : Nat

/-- Give the slice the length of a blob. -/
def Scratch.resize (buf : Scratch) (length : Nat) : Scratch :=
  if buf.array.length < length then ⟨List.replicate length 0, length⟩
  else if buf.len ≠ length then ⟨buf.array, length⟩
  else buf

theorem Scratch.array_resize (buf : Scratch) (length : Nat) :
    (buf.resize length).array = reserve buf.array length := by
  unfold resize reserve
  split
  · rfl
  · split <;> rfl

theorem Scratch.len_resize (buf : Scratch) (length : Nat) : (buf.resize length).len = length := by
  unfold resize
  split
  · rfl
  · split
    · rfl
    · rename_i heq
      exact not_not.mp heq

/-- An entry of the index, and what reading it brings: all of its bytes, or an
error and the bytes that came before the error. -/
structure Candidate where
  blob : PackedBlob
  read : Except (Pack.Error × Bytes) Bytes
  complete : ∀ data, read = .ok data → data.length = blob.length
  within : ∀ err left, read = .error (err, left) → left.length ≤ blob.length

section Load

variable (key : Key) (hash : Bytes → ID) (cache : Option (ID → Bool)) (id : ID)

/-- The loop over the candidates; `count` is the number of all of them. -/
def loadCandidates (count : Nat) :
    List Candidate → Scratch → Option LoadError → Option (Except LoadError Bytes)
  | [], _, lastError => some (.error (lastError.getD (.fromPacks id count)))
  | c :: rest, buf, _ =>
    let buf := buf.resize c.blob.length
    match c.read with
    | .error (err, left) =>
      loadCandidates count rest { buf with array := overwrite buf.array 0 left }
        (some (.readFull c.blob.packID err))
    | .ok data =>
      let array := overwrite buf.array 0 data
      if data.length ≠ c.blob.length then
        loadCandidates count rest { buf with array := array }
          (some (.wrongLength id c.blob.length data.length))
      else
        match openBuffer key array buf.len with
        | none => none
        | some (.error reason, array) =>
          loadCandidates count rest { buf with array := array } (some (.decrypting id reason))
        | some (.ok plaintext, array) =>
          -- the plaintext is a slice of the array behind the nonce
          let plaintext := slice array ivSize plaintext.length
          if hash plaintext ≠ id then
            loadCandidates count rest { buf with array := array } (some (.invalidHash id))
          else some (.ok ((overwrite array 0 plaintext).take plaintext.length))

def sortCandidates (candidates : List Candidate) : List Candidate :=
  match cache with
  | none => candidates
  | some has =>
    if candidates.length = 1 then candidates
    else sortInPlace (has ·.blob.packID) candidates

def loadBlobInto (candidates : List Candidate) (buf : Scratch) : Option (Except LoadError Bytes) :=
  if candidates = [] then some (.error (.notFound id))
  else
    loadCandidates key hash id candidates.length (sortCandidates cache candidates) buf none

def Candidate.plaintext (c : Candidate) : Option Bytes :=
  match c.read with
  | .error _ => none
  | .ok data =>
    match key.open (data.take ivSize) (data.drop ivSize) with
    | .error _ => none
    | .ok plaintext => if hash plaintext = id then some plaintext else none

end Load

/-! ## What is returned -/

variable {data : Bytes}

/-- What decrypting in place does to a buffer that a blob was read into. -/
theorem openBuffer_overwrite {key : Key} (hlong : ivSize ≤ data.length) (buf : Bytes) :
    openBuffer key (overwrite buf 0 data) data.length =
      match key.open (data.take ivSize) (data.drop ivSize) with
      | .error reason => some (.error reason, overwrite buf 0 data)
      | .ok plaintext =>
        some (.ok plaintext, overwrite (overwrite buf 0 data) ivSize plaintext) := by
  have hshort : ¬data.length < ivSize := not_lt.mpr hlong
  cases hopen : key.open (data.take ivSize) (data.drop ivSize) with
  | error reason | ok plaintext => simp [openBuffer, hshort, take_overwrite, hopen]

theorem slice_decrypted (hlong : ivSize ≤ data.length) (array plaintext : Bytes) :
    slice (overwrite (overwrite array 0 data) ivSize plaintext) ivSize
      plaintext.length = plaintext := by
  have hdata : data ≠ [] := by
    rintro rfl
    exact absurd hlong (by decide)
  refine slice_overwrite_self ?_
  rw [length_overwrite hdata]
  omega

section Results

variable {key : Key} {hash : Bytes → ID} {cache : Option (ID → Bool)} {id : ID}

variable {c : Candidate} {candidates : List Candidate}

theorem Candidate.plaintext_eq_some {p : Bytes} : c.plaintext key hash id = some p ↔
      ∃ data, c.read = .ok data ∧ Decrypts key data p ∧ hash p = id := by
  unfold Candidate.plaintext Decrypts
  cases c.read with
  | error err => simp
  | ok data =>
    cases hopen : key.open (data.take ivSize) (data.drop ivSize) with
    | error reason => simp [hopen]
    | ok plaintext =>
      simp only [hopen, Option.ite_none_right_eq_some, Option.some.injEq, Except.ok.injEq]
      constructor
      · rintro ⟨hhash, rfl⟩
        exact ⟨data, rfl, hopen, hhash⟩
      · rintro ⟨_, rfl, hopen', hhash⟩
        rw [hopen] at hopen'
        cases hopen'
        exact ⟨hhash, rfl⟩

/-- A copy that is tried is read and is too short for a nonce. -/
def TriesShort (key : Key) (hash : Bytes → ID) (id : ID) (candidates : List Candidate) : Prop :=
  ∃ before c after, candidates = before ++ c :: after ∧
    (∀ b ∈ before, b.plaintext key hash id = none) ∧
    (∃ data, c.read = .ok data) ∧ c.blob.length < ivSize

theorem triesShort_cons {rest : List Candidate} : TriesShort key hash id (c :: rest) ↔
      ((∃ data, c.read = .ok data) ∧ c.blob.length < ivSize) ∨
        c.plaintext key hash id = none ∧ TriesShort key hash id rest := by
  constructor
  · rintro ⟨before, short, after, hsplit, hbefore, hshort⟩
    cases before with
    | nil =>
      cases hsplit
      exact .inl hshort
    | cons first before =>
      cases hsplit
      obtain ⟨hfirst, hbefore⟩ := forall_mem_cons.mp hbefore
      exact .inr ⟨hfirst, before, short, after, rfl, hbefore, hshort⟩
  · rintro (hshort | ⟨hc, before, short, after, rfl, hbefore, hshort⟩)
    · exact ⟨[], c, rest, rfl, by simp, hshort⟩
    · exact ⟨c :: before, short, after, rfl, forall_mem_cons.mpr ⟨hc, hbefore⟩, hshort⟩

theorem loadCandidates_eq {count : Nat} (hlong : ¬TriesShort key hash id candidates)
    (buf : Scratch) (lastError : Option LoadError) :
    ∃ result, loadCandidates key hash id count candidates buf lastError = some result ∧
      ∀ p, result = .ok p ↔ candidates.findSome? (Candidate.plaintext key hash id) = some p := by
  induction candidates generalizing buf lastError with
  | nil => exact ⟨_, rfl, by simp⟩
  | cons c rest ih =>
    rw [triesShort_cons, not_or, not_and, not_and, not_lt] at hlong
    obtain ⟨hc, hrest⟩ := hlong
    rw [loadCandidates, findSome?_cons]
    cases hread : c.read with
    | error failure =>
      have hbad : c.plaintext key hash id = none := by simp [Candidate.plaintext, hread]
      rw [hbad]
      exact ih (hrest hbad) _ _
    | ok data =>
      have hlength : data.length = c.blob.length := c.complete data hread
      have hdata : ivSize ≤ data.length := by
        rw [hlength]
        exact hc ⟨data, hread⟩
      simp only [Scratch.len_resize, ← hlength, ne_eq, not_true_eq_false,
        if_false, openBuffer_overwrite hdata]
      cases hopen : key.open (data.take ivSize) (data.drop ivSize) with
      | error reason =>
        have hbad : c.plaintext key hash id = none := by simp [Candidate.plaintext, hread, hopen]
        rw [hbad]
        exact ih (hrest hbad) _ _
      | ok plaintext =>
        simp only [slice_decrypted hdata, take_overwrite]
        by_cases hhash : hash plaintext = id
        · have hgood : c.plaintext key hash id = some plaintext := by
            simp [Candidate.plaintext, hread, hopen, hhash]
          rw [if_neg (not_not.mpr hhash), hgood]
          exact ⟨_, rfl, fun p => by simp⟩
        · have hbad : c.plaintext key hash id = none := by
            simp [Candidate.plaintext, hread, hopen, hhash]
          rw [if_pos hhash, hbad]
          exact ih (hrest hbad) _ _

theorem mem_sortCandidates : c ∈ sortCandidates cache candidates ↔ c ∈ candidates := by
  unfold sortCandidates
  split
  · rfl
  · split
    · rfl
    · rw [sortInPlace_eq, mem_append, mem_filter, mem_filter, ← and_or_left]
      simp

theorem sortCandidates_nil : sortCandidates cache [] = [] :=
  eq_nil_iff_forall_not_mem.mpr fun c hc => by
    rw [mem_sortCandidates] at hc
    cases hc

theorem loadBlobInto_eq (hlong : ¬TriesShort key hash id (sortCandidates cache candidates))
    (buf : Scratch) : ∃ result, loadBlobInto key hash cache id candidates buf = some result ∧
      ∀ p, result = .ok p ↔ (sortCandidates cache candidates).findSome?
        (Candidate.plaintext key hash id) = some p := by
  unfold loadBlobInto
  split
  · rename_i hnone
    refine ⟨_, rfl, fun p => ?_⟩
    simp [hnone, sortCandidates_nil]
  · exact loadCandidates_eq hlong buf none

theorem Candidate.exists_of_findSome? {p : Bytes}
    (h : (sortCandidates cache candidates).findSome? (Candidate.plaintext key hash id) = some p) :
    ∃ c ∈ candidates, ∃ data, c.read = .ok data ∧ Decrypts key data p ∧ hash p = id := by
  obtain ⟨c, hc, hplain⟩ := exists_of_findSome?_eq_some h
  obtain ⟨data, hfacts⟩ := Candidate.plaintext_eq_some.mp hplain
  exact ⟨c, mem_sortCandidates.mp hc, data, hfacts⟩

/-- A blob is loaded if there is a good copy, and then it is that copy. -/
theorem loadBlob_finds_any_copy (key : Key) (hash : Bytes → ID)
    (cache : Option (ID → Bool)) (id : ID) (candidates : List Candidate)
    (buf : Scratch) (hlong : ∀ c ∈ candidates, 32 ≤ c.blob.length) :
    ∃ result, loadBlobInto key hash cache id candidates buf = some result ∧
      ((∃ p, result = .ok p) ↔ ∃ c ∈ candidates, ∃ data p,
        c.read = .ok data ∧ Decrypts key data p ∧ hash p = id) ∧
      (∀ p, result = .ok p → hash p = id ∧ ∃ c ∈ candidates, ∃ data,
        c.read = .ok data ∧ Decrypts key data p) ∧
      ∀ p, result = .ok p ↔ (sortCandidates cache candidates).findSome?
        (Candidate.plaintext key hash id) = some p := by
  have hsorted : ¬TriesShort key hash id (sortCandidates cache candidates) := by
    rintro ⟨before, c, after, hsplit, -, -, hshort⟩
    have hc : c ∈ sortCandidates cache candidates := by simp [hsplit]
    have hlarge := hlong c (mem_sortCandidates.mp hc)
    rw [ivSize] at hshort
    omega
  obtain ⟨result, hrun, hresult⟩ := loadBlobInto_eq hsorted buf
  have hgood := fun p (hp : result = .ok p) => Candidate.exists_of_findSome? ((hresult p).mp hp)
  refine ⟨result, hrun, ⟨?_, ?_⟩, ?_, hresult⟩
  · rintro ⟨p, hp⟩
    obtain ⟨c, hc, data, hfacts⟩ := hgood p hp
    exact ⟨c, hc, data, p, hfacts⟩
  · rintro ⟨c, hc, data, p, hfacts⟩
    have hplain : c.plaintext key hash id = some p := Candidate.plaintext_eq_some.mpr ⟨data, hfacts⟩
    have hsome : ((sortCandidates cache candidates).findSome?
        (Candidate.plaintext key hash id)).isSome := by
      rw [findSome?_isSome_iff]
      exact ⟨c, mem_sortCandidates.mpr hc, by rw [hplain]; rfl⟩
    obtain ⟨found, hfound⟩ := Option.isSome_iff_exists.mp hsome
    exact ⟨found, (hresult found).mpr hfound⟩
  · intro p hp
    obtain ⟨c, hc, data, hread, hopen, hhash⟩ := hgood p hp
    exact ⟨hhash, c, hc, data, hread, hopen⟩

end Results

def sampleCandidates : List Candidate :=
  [{ blob := ⟨⟨⟨.ofNat 1, .data⟩, 40, 0⟩, .ofNat 8⟩
     read := .error (.eof, [7])
     complete := nofun
     within := by
       rintro err left h
       cases h
       decide },
    { blob := ⟨⟨⟨.ofNat 1, .data⟩, 34, 5⟩, .ofNat 9⟩
      read := .ok (sampleKey.encrypt sampleNonce [1, 2])
      complete := by
        rintro data h
        cases h
        simp [Key.length_encrypt, extension, ivSize, macSize]
      within := nofun }]

theorem loadBlob_finds_any_copy_sample :
    ∃ p, loadBlobInto sampleKey (fun _ => .ofNat 1) (some fun _ => true)
      (.ofNat 1) sampleCandidates ⟨[], 0⟩ = some (.ok p) := by
  obtain ⟨result, hrun, hiff, -⟩ := loadBlob_finds_any_copy sampleKey
    (fun _ => .ofNat 1) (some fun _ => true) (.ofNat 1) sampleCandidates ⟨[], 0⟩
    (by simp [sampleCandidates])
  have hgood : ∃ c ∈ sampleCandidates, ∃ data p, c.read = .ok data ∧
      Decrypts sampleKey data p ∧ (fun _ => ID.ofNat 1) p = ID.ofNat 1 := by
    refine ⟨_, mem_cons_of_mem _ mem_cons_self,
      sampleKey.encrypt sampleNonce [1, 2], [1, 2], rfl, ?_, rfl⟩
    rw [Decrypts, Key.take_encrypt, Key.drop_encrypt, Key.open_seal]
  obtain ⟨p, rfl⟩ := hiff.mpr hgood
  exact ⟨p, hrun⟩

/-! ## Reading from pack files -/

namespace PackReader

variable (r : PackReader)

theorem length_of_readAt {packID : ID} {offset length : Nat} {data : Bytes}
    (h : r.readAt packID offset length = .ok data) : data.length = length := by
  unfold readAt at h
  cases hfile : r.be packID with
  | error err => simp [hfile, bind, Except.bind] at h
  | ok file =>
    simp only [hfile, bind, Except.bind] at h
    exact Pack.length_of_readAt h

def candidate (pb : PackedBlob) : Candidate where
  blob := pb
  read :=
    match r.readAt pb.packID pb.offset pb.length with
    | .error err => .error (err, [])
    | .ok data => .ok data
  complete := by
    intro data hdata
    split at hdata
    · cases hdata
    · rename_i hread
      cases hdata
      exact r.length_of_readAt hread
  within := by
    intro err left hleft
    split at hleft
    · cases hleft
      exact zero_le _
    · cases hleft

theorem sortCandidates_map (cache : Option (ID → Bool)) (pbs : List PackedBlob) :
    sortCandidates cache (pbs.map r.candidate) =
      (sortCachedPacksFirst cache pbs).map r.candidate := by
  unfold sortCandidates sortCachedPacksFirst
  cases cache with
  | none => rfl
  | some has =>
    simp only [length_map]
    split
    · rfl
    · rw [sortInPlace_eq, map_append, filter_map, filter_map]
      rfl

theorem loadFrom_eq (id : ID) (count : Nat) (pbs : List PackedBlob) (buf : Bytes)
    (len : Nat) (lastError : Option LoadError) : r.loadFrom id count pbs buf lastError =
      loadCandidates r.key r.hash id count (pbs.map r.candidate) ⟨buf, len⟩
        lastError := by
  induction pbs generalizing buf len lastError with
  | nil => rfl
  | cons pb rest ih =>
    rw [loadFrom, map_cons, loadCandidates]
    simp only [candidate, Scratch.len_resize, Scratch.array_resize]
    cases hread : r.readAt pb.packID pb.offset pb.length with
    | error err =>
      have hleft : overwrite (reserve buf pb.length) 0 [] = reserve buf pb.length := if_pos rfl
      simp only [hleft]
      exact ih _ _ _
    | ok data =>
      have hlength := r.length_of_readAt hread
      simp only [hlength, ne_eq, not_true_eq_false, if_false]
      by_cases hshort : pb.length < ivSize
      · simp [openBuffer, hshort]
      · rw [← hlength] at hshort
        have hdata : ivSize ≤ data.length := not_lt.mp hshort
        rw [← hlength, openBuffer_overwrite hdata]
        cases r.key.open (data.take ivSize) (data.drop ivSize) with
        | error reason => exact ih _ _ _
        | ok plaintext =>
          simp only [slice_decrypted hdata]
          split
          · exact ih _ _ _
          · rfl

/-- The loop over the packs is the loop over their candidates, for a buffer of
any length. -/
theorem loadBlob_eq (t : BlobType) (id : ID) (buf : Bytes) (len : Nat) : r.loadBlob t id buf =
      loadBlobInto r.key r.hash r.cache id ((r.idx.lookup ⟨id, t⟩).map r.candidate) ⟨buf, len⟩ := by
  unfold loadBlob loadBlobInto
  simp only [map_eq_nil_iff, length_map]
  split
  · rfl
  · rw [r.loadFrom_eq id _ _ buf len, r.sortCandidates_map]

end PackReader

end Rapi.Repository
