import Rapi.Foundation.Buffer
import Rapi.Foundation.Retry
import Rapi.Restic.Blob

/-!
# Callbacks that are called again

The `Load` of a backend hands a reader to a callback, and calls it again with a
new reader when an attempt failed.  A failed attempt may have delivered any bytes
before its reader failed, or may have delivered all of its bytes to a callback
that succeeded.  The four callbacks here start from scratch each time.
-/

namespace Rapi.Repository.Callbacks

open Foundation Restic List

variable {ε : Type}

/-- What a callback finds: the reader, whose chunks are followed by its error if
it has one, and what goes wrong with the temporary file. -/
structure Handed (ε : Type) where
  chunks : List Bytes
  err : Option ε := none
  seek : Option ε := none
  truncate : Option ε := none

/-- An attempt fails before it has a reader, or may fail after the callback. -/
inductive Attempt (ε : Type)
  | refused (err : ε)
  | opened (rd : Handed ε) (err : Option ε)

def tryOnce {σ : Type} (fn : Handed ε → σ → Option ε × σ) : Attempt ε → σ → Option ε × σ
  | .refused err, s => (some err, s)
  | .opened rd err, s =>
    match fn rd s with
    | (some err, s) => (some err, s)
    | (none, s) => (err, s)

/-- `Load` with the attempts that it makes. -/
def load {σ : Type} (fn : Handed ε → σ → Option ε × σ) (failed : List (Attempt ε))
    (last : Attempt ε) (s : σ) : Option ε × σ :=
  let retried := retryUntil (tryOnce fn) (fun _ => none) (fun _ _ => none) failed last s
  (retried.err, retried.state)

/-! ## Into a buffer -/

/-- The callback of `LoadAll` and `LoadAndDecrypt`. -/
def readAll (g : Growth) (rd : Handed ε) : Memory × Slice → Option ε × Memory × Slice
  | (m, buf) =>
    let (m, wr) := Slice.appendAll g rd.chunks (m, buf.truncated)
    match rd.err with
    | some err => (some err, m, buf)
    | none => (none, m, wr)

def loadAll (g : Growth) (failed : List (Attempt ε)) (last : Attempt ε)
    (m : Memory) (buf : Slice) : Except ε (Memory × Slice) :=
  match load (readAll g) failed last (m, buf) with
  | (some err, _) => .error err
  | (none, m, buf) => .ok (m, buf)

inductive LoadError (ε : Type)
  /-- The supplied buffer is not empty, or the file is shorter than a nonce. -/
  | panics
  | load (err : ε)
  | invalidData
  | crypto (err : Crypto.OpenError)

/-- What `LoadAndDecrypt` does with the bytes of the file. -/
def decryptLoaded (key : Crypto.Key) (hash : Bytes → ID) (t : FileType) (id : ID)
    (buf : Bytes) : Except (LoadError ε) Bytes :=
  if t ≠ .config ∧ hash buf ≠ id then .error .invalidData
  else if buf.length < Crypto.ivSize then .error .panics
  else
    match key.open (buf.take Crypto.ivSize) (buf.drop Crypto.ivSize) with
    | .error err => .error (.crypto err)
    | .ok plaintext => .ok plaintext

def loadAndDecrypt (g : Growth) (key : Crypto.Key) (hash : Bytes → ID)
    (t : FileType) (id : ID) (failed : List (Attempt ε)) (last : Attempt ε)
    (m : Memory) (buf : Slice) : Except (LoadError ε) Bytes :=
  if buf.len ≠ 0 then .error .panics
  else
    match load (readAll g) failed last (m, buf) with
    | (some err, _) => .error (.load err)
    | (none, m, buf) => decryptLoaded key hash t id (buf.content m)

/-! ## Into a temporary file -/

structure TempFile where
  content : Bytes
  pos : Nat

namespace TempFile

def write (file : TempFile) (chunk : Bytes) : TempFile where
  content := file.content.take file.pos ++
    List.replicate (file.pos - file.content.length) 0 ++ chunk ++
    file.content.drop (file.pos + chunk.length)
  pos := file.pos + chunk.length

def writeAll (file : TempFile) (chunks : List Bytes) : TempFile := chunks.foldl write file

end TempFile

structure Download where
  tmpfile : TempFile
  hash : ID
  size : Int

/-- The hash is that of the bytes that went through the reader. -/
def download (hash : Bytes → ID) (rd : Handed ε) (d : Download) : Option ε × Download :=
  match rd.seek with
  | some err => (some err, d)
  | none =>
    let d := { d with tmpfile := { d.tmpfile with pos := 0 } }
    match rd.truncate with
    | some err => (some err, d)
    | none =>
      let file : TempFile := { d.tmpfile with content := [] }
      (rd.err,
        { tmpfile := file.writeAll rd.chunks
          hash := hash rd.chunks.flatten
          size := rd.chunks.flatten.length })

def downloadAndHash (hash : Bytes → ID) (failed : List (Attempt ε))
    (last : Attempt ε) (lastSeek : Option ε) : Except ε Download :=
  match load (download hash) failed last ⟨⟨[], 0⟩, .null, 0⟩ with
  | (some err, _) => .error err
  | (none, d) =>
    match lastSeek with
    | some err => .error err
    | none => .ok { d with tmpfile := { d.tmpfile with pos := 0 } }

/-! ## Into the bytes of the caller -/

/-- Puts what is read into `p`, from position `n` on, until `p` is full. -/
def readInto : List Bytes → Bytes → Nat → Bytes × Nat
  | [], p, n => (p, n)
  | chunk :: chunks, p, n =>
    if n < p.length then
      let got := chunk.take (p.length - n)
      readInto chunks (p.take n ++ got ++ p.drop (n + got.length)) (n + got.length)
    else (p, n)

/-- The errors of `io.ReadFull` for a reader that ends too early. -/
structure EOF (ε : Type) where
  eof : ε
  unexpectedEOF : ε

def readFull (e : EOF ε) (rd : Handed ε) : Bytes × Nat → Option ε × Bytes × Nat
  | (p, _) =>
    let (q, n) := readInto rd.chunks p 0
    if p.length ≤ n then (none, q, n)
    else
      match rd.err with
      | some err => (some err, q, n)
      | none => (some (if n = 0 then e.eof else e.unexpectedEOF), q, n)

def readAt (e : EOF ε) (failed : List (Attempt ε)) (last : Attempt ε) (p : Bytes) :
    Except ε (Bytes × Nat) :=
  match load (readFull e) failed last (p, 0) with
  | (some err, _) => .error err
  | (none, p, n) => .ok (p, n)

/-! ## Nothing of the failed attempts is left -/

/-- The attempt fails whatever attempts before it left behind. -/
def Fails {σ : Type} (fn : Handed ε → σ → Option ε × σ) (I : σ → Prop)
    (attempt : Attempt ε) : Prop := ∀ s, I s → (tryOnce fn attempt s).1 ≠ none

/-- The attempt delivers the bytes and nothing goes wrong. -/
def Completes (data : Bytes) (attempt : Attempt ε) : Prop :=
  ∃ chunks : List Bytes, chunks.flatten = data ∧
    attempt = .opened { chunks := chunks } none

/-- What a callback establishes from every state, keeping an invariant when it
fails, it has established when `Load` returns. -/
theorem load_rule {σ : Type} {fn : Handed ε → σ → Option ε × σ} {failed : List (Attempt ε)}
    {last : Attempt ε} {data : Bytes} {I Q : σ → Prop}
    (hfailed : ∀ attempt ∈ failed, Fails fn I attempt) (hlast : Completes data last)
    (hkeeps : ∀ rd s, I s → I (fn rd s).2)
    (hdone : ∀ chunks : List Bytes, chunks.flatten = data → ∀ s, I s →
      ∃ s', fn { chunks := chunks } s = (none, s') ∧ Q s') {s : σ} (hs : I s) :
    ∃ s', load fn failed last s = (none, s') ∧ Q s' := by
  have htry : ∀ attempt s, I s → I (tryOnce fn attempt s).2 := by
    intro attempt s hs
    cases attempt with
    | refused err => exact hs
    | opened rd err =>
      have hrd := hkeeps rd s hs
      cases hfn : fn rd s with
      | mk result s' =>
        rw [hfn] at hrd
        cases result <;> simpa [tryOnce, hfn] using hrd
  have hrule : ∃ s', retryUntil (tryOnce fn) (fun _ => none) (fun _ _ => none)
      failed last s = ⟨none, s', some last⟩ ∧ Q s' := by
    refine retryUntil_rule _ _ _ (I := I) ?_ ?_ hs
    · intro attempt hattempt s hs
      have hI := htry attempt s hs
      obtain ⟨err, herr⟩ := Option.ne_none_iff_exists'.mp (hfailed attempt hattempt s hs)
      exact ⟨err, _, Prod.ext herr rfl, rfl, rfl, hI⟩
    · intro s hs
      obtain ⟨chunks, hchunks, rfl⟩ := hlast
      obtain ⟨s', hfn, hQ⟩ := hdone chunks hchunks s hs
      exact ⟨s', by simp [tryOnce, hfn], hQ⟩
  obtain ⟨s', hresult, hQ⟩ := hrule
  exact ⟨s', by simp [load, hresult], hQ⟩

section Callbacks

variable {failed : List (Attempt ε)} {last : Attempt ε} {data : Bytes}

theorem load_readAll (g : Growth)
    (hfailed : ∀ attempt ∈ failed, Fails (readAll g) (fun _ => True) attempt)
    (hlast : Completes data last) (m : Memory) (buf : Slice) :
    ∃ m' buf', load (readAll g) failed last (m, buf) = (none, m', buf') ∧
      buf'.content m' = data := by
  have hdone : ∀ chunks : List Bytes, chunks.flatten = data → ∀ s : Memory × Slice, True → ∃ s',
        readAll g ({ chunks := chunks } : Handed ε) s = (none, s') ∧
          s'.2.content s'.1 = data := by
    intro chunks hchunks s _
    refine ⟨_, rfl, ?_⟩
    have happend := (Slice.appendAll_spec g chunks (Slice.within_truncated s.1 s.2)).2
    rw [Slice.content_truncated, nil_append, hchunks] at happend
    exact happend
  obtain ⟨⟨m', buf'⟩, hload, hcontent⟩ := load_rule hfailed hlast (fun _ _ => id) hdone trivial
  exact ⟨m', buf', hload, hcontent⟩

theorem TempFile.content_writeAll (chunks : List Bytes) {file : TempFile}
    (hpos : file.pos = file.content.length) :
    (file.writeAll chunks).content = file.content ++ chunks.flatten := by
  induction chunks generalizing file with
  | nil => simp [writeAll]
  | cons chunk chunks ih =>
    have hcontent : (file.write chunk).content = file.content ++ chunk := by simp [write, hpos]
    have hnext : (file.write chunk).pos = (file.write chunk).content.length := by
      rw [hcontent, length_append, ← hpos]
      rfl
    calc (file.writeAll (chunk :: chunks)).content
        = ((file.write chunk).writeAll chunks).content := rfl
      _ = (file.write chunk).content ++ chunks.flatten := ih hnext
      _ = file.content ++ (chunk :: chunks).flatten := by rw [hcontent, flatten_cons, append_assoc]

theorem load_download (hash : Bytes → ID)
    (hfailed : ∀ attempt ∈ failed, Fails (download hash) (fun _ => True) attempt)
    (hlast : Completes data last) (d : Download) :
    ∃ d' : Download, load (download hash) failed last d = (none, d') ∧
      d'.tmpfile.content = data ∧ d'.hash = hash data ∧ d'.size = data.length := by
  have hdone : ∀ chunks : List Bytes, chunks.flatten = data →
      ∀ d : Download, True → ∃ d' : Download,
        download hash ({ chunks := chunks } : Handed ε) d = (none, d') ∧
          d'.tmpfile.content = data ∧ d'.hash = hash data ∧
          d'.size = data.length := by
    rintro chunks rfl d _
    refine ⟨_, rfl, ?_, rfl, rfl⟩
    exact TempFile.content_writeAll chunks (show TempFile.pos ⟨[], 0⟩ = 0 from rfl)
  exact load_rule hfailed hlast (fun _ _ => id) hdone trivial

variable {p : Bytes}

theorem length_readInto (chunks : List Bytes) {n : Nat} (hn : n ≤ p.length) :
    (readInto chunks p n).1.length = p.length := by
  induction chunks generalizing p n with
  | nil => rfl
  | cons chunk chunks ih =>
    rw [readInto]
    split
    · have hgot : (chunk.take (p.length - n)).length ≤ p.length - n := length_take_le _ _
      rw [ih]
      · simp only [length_append, length_take, length_drop]
        omega
      · simp only [length_append, length_take, length_drop]
        omega
    · rfl

theorem readInto_eq (chunks : List Bytes) {n : Nat} (hn : n ≤ p.length)
    (henough : p.length ≤ n + chunks.flatten.length) : readInto chunks p n =
      (p.take n ++ chunks.flatten.take (p.length - n), p.length) := by
  induction chunks generalizing p n with
  | nil =>
    have hfull : n = p.length := Nat.le_antisymm hn (by simpa using henough)
    simp [readInto, hfull]
  | cons chunk chunks ih =>
    rw [readInto]
    split
    · rename_i hroom
      set got := chunk.take (p.length - n) with hgot
      have hlength : got.length = min (p.length - n) chunk.length := length_take
      have htaken : (p.take n ++ got).length = n + got.length := by
        rw [length_append, length_take, Nat.min_eq_left hn]
      have hsame : (p.take n ++ got ++ p.drop (n + got.length)).length =
          p.length := by
        rw [length_append, htaken, length_drop]
        omega
      rw [flatten_cons, length_append] at henough
      rw [ih (by omega) (by omega), hsame, take_left' htaken, append_assoc]
      -- what is still missing comes from the other chunks
      have hrest : p.length - (n + got.length) = p.length - n - chunk.length := by omega
      rw [flatten_cons, take_append, hrest]
    · have hfull : n = p.length := by omega
      simp [hfull]

theorem load_readFull (e : EOF ε)
    (hfailed : ∀ attempt ∈ failed, Fails (readFull e) (fun s => s.1.length = p.length) attempt)
    (hlast : Completes data last) (hdata : p.length ≤ data.length) :
    load (readFull e) failed last (p, 0) = (none, data.take p.length, p.length) := by
  have hkeeps : ∀ (rd : Handed ε) (s : Bytes × Nat), s.1.length = p.length →
      (readFull e rd s).2.1.length = p.length := by
    intro rd s hs
    have hlength := length_readInto rd.chunks (Nat.zero_le s.1.length)
    unfold readFull
    simp only
    split
    · exact hlength.trans hs
    · split <;> exact hlength.trans hs
  have hdone : ∀ chunks : List Bytes, chunks.flatten = data →
      ∀ s : Bytes × Nat, s.1.length = p.length → ∃ s',
        readFull e ({ chunks := chunks } : Handed ε) s = (none, s') ∧
          s' = (data.take p.length, p.length) := by
    rintro chunks rfl s hs
    have hread := readInto_eq chunks (Nat.zero_le s.1.length)
      (by rw [hs, Nat.zero_add]; exact hdata)
    refine ⟨_, ?_, rfl⟩
    simp [readFull, hread, hs]
  obtain ⟨s', hload, rfl⟩ := load_rule hfailed hlast hkeeps hdone (s := (p, 0)) rfl
  exact hload

end Callbacks

/-! ## The four callers -/

theorem loadAndDecrypt_eq (g : Growth) (key : Crypto.Key) (hash : Bytes → ID) (t : FileType)
    (id : ID) {data : Bytes} {failed : List (Attempt ε)} {last : Attempt ε}
    (hfailed : ∀ attempt ∈ failed, Fails (readAll g) (fun _ => True) attempt)
    (hlast : Completes data last) (m : Memory) {buf : Slice} (hbuf : buf.len = 0) :
    loadAndDecrypt g key hash t id failed last m buf =
      decryptLoaded key hash t id data := by
  obtain ⟨m', buf', hload, hcontent⟩ := load_readAll g hfailed hlast m buf
  simp [loadAndDecrypt, hbuf, hload, hcontent]

/-- Only the bytes of the last attempt are visible, whatever buffer is supplied. -/
theorem loads_are_repeatable (g : Growth) (key : Crypto.Key) (hash : Bytes → ID)
    (t : FileType) (id : ID) (e : EOF ε) (data : Bytes) (last : Attempt ε)
    (hlast : Completes data last) :
    (∀ failed m buf,
      (∀ attempt ∈ failed, Fails (readAll g) (fun _ => True) attempt) →
      ∃ m' buf', loadAll g failed last m buf = .ok (m', buf') ∧
        buf'.content m' = data) ∧
    (∀ failed m buf, buf.len = 0 →
      (∀ attempt ∈ failed, Fails (readAll g) (fun _ => True) attempt) →
      loadAndDecrypt g key hash t id failed last m buf =
        decryptLoaded key hash t id data) ∧
    (∀ failed,
      (∀ attempt ∈ failed, Fails (download hash) (fun _ => True) attempt) →
      downloadAndHash hash failed last none = .ok ⟨⟨data, 0⟩, hash data, data.length⟩) ∧
    ∀ failed p, p.length ≤ data.length →
      (∀ attempt ∈ failed,
        Fails (readFull e) (fun s => s.1.length = p.length) attempt) →
      readAt e failed last p = .ok (data.take p.length, p.length) := by
  refine ⟨?_, ?_, ?_, ?_⟩
  · intro failed m buf hfailed
    obtain ⟨m', buf', hload, hcontent⟩ := load_readAll g hfailed hlast m buf
    exact ⟨m', buf', by simp [loadAll, hload], hcontent⟩
  · intro failed m buf hempty hfailed
    exact loadAndDecrypt_eq g key hash t id hfailed hlast m hempty
  · intro failed hfailed
    obtain ⟨d, hload, hcontent, hsum, hsize⟩ := load_download hash hfailed hlast ⟨⟨[], 0⟩, .null, 0⟩
    simp [downloadAndHash, hload, hcontent, hsum, hsize]
  · intro failed p hdata hfailed
    simp [readAt, load_readFull e hfailed hlast hdata]

def sampleGrowth : Growth where
  choose len cap more := if len + more ≤ cap then none else some (2 * (len + more))
  fits := by
    intro len cap more hnone
    by_contra hfits
    simp [hfits] at hnone
  grows := by
    intro len cap more new hsome
    split at hsome <;> cases hsome
    omega

def sampleFailure : Attempt Unit := .opened { chunks := [[1, 2]], err := some () } none

def sampleSuccess : Attempt Unit := .opened { chunks := [[3], [4, 5]] } none

theorem loads_are_repeatable_sample :
    (∃ m buf, loadAll sampleGrowth [sampleFailure] sampleSuccess
        ⟨[[9, 9]]⟩ ⟨some 0, 2⟩ = .ok (m, buf) ∧ buf.content m = [3, 4, 5]) ∧
    downloadAndHash (fun _ => .null) [sampleFailure] sampleSuccess none =
      .ok ⟨⟨[3, 4, 5], 0⟩, .null, 3⟩ ∧
    readAt ⟨(), ()⟩ [sampleFailure] sampleSuccess [9, 9, 9] = .ok ([3, 4, 5], 3) := by
  have hloads := loads_are_repeatable sampleGrowth Crypto.sampleKey
    (fun _ => .null) .index .null ⟨(), ()⟩ [3, 4, 5] sampleSuccess ⟨[[3], [4, 5]], rfl, rfl⟩
  refine ⟨?_, ?_, ?_⟩
  · refine hloads.1 _ _ _ ?_
    rintro _ (_ | ⟨_, ⟨⟩⟩) s _
    simp [sampleFailure, tryOnce, readAll]
  · refine hloads.2.2.1 _ ?_
    rintro _ (_ | ⟨_, ⟨⟩⟩) s _
    simp [sampleFailure, tryOnce, download]
  · refine hloads.2.2.2 _ [9, 9, 9] (by decide) ?_
    rintro _ (_ | ⟨_, ⟨⟩⟩) s hs
    have hlength : s.1.length = 3 := hs
    simp [sampleFailure, tryOnce, readFull, readInto, hlength]

end Rapi.Repository.Callbacks
