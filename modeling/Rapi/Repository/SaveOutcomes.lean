import Rapi.Repository.Session

/-!
# The outcomes of saving a packer

What a call of `savePacker` that runs alone can lead to.  The answers of the
system may be restricted, for example to those of a backend that works.
-/

namespace Rapi.Repository

open Foundation Crypto Restic

abbrev Answers := (op : Op) → op.Res → Prop

/-! ## The index -/

/-- Exact duplicates may have been removed. -/
structure Adds (mi mi' : MasterIndex) (new : Multiset PackedBlob) : Prop where
  le : mi'.content ≤ new + mi.content
  mem : ∀ pb, pb ∈ mi'.content ↔ pb ∈ new + mi.content

theorem Adds.refl (mi : MasterIndex) : Adds mi mi 0 :=
  ⟨by rw [zero_add], fun pb => by rw [zero_add]⟩

theorem Adds.trans {mi₁ mi₂ mi₃ : MasterIndex} {new more : Multiset PackedBlob}
    (h : Adds mi₁ mi₂ new) (h' : Adds mi₂ mi₃ more) : Adds mi₁ mi₃ (new + more) := by
  constructor
  · refine h'.le.trans ?_
    rw [add_comm new more, add_assoc]
    exact add_le_add_right h.le more
  · intro pb
    rw [h'.mem, Multiset.mem_add, h.mem]
    simp only [Multiset.mem_add]
    tauto

/-- What a call can lead to; the first two are failures before the upload. -/
inductive Outcome (r : Repo) (P : Answers) (p : Packer) (s : RepoState) :
    Packer → Option SaveError → RepoState → Prop
  | unfinished {nonce : Nonce} {headerFault lengthFault : Pack.WriteFault}
      {p' : Packer} {failure : Pack.Error} (hheader : P (.writeFault p.tmpfile.closed) headerFault)
      (hlength : P (.writeFault p.tmpfile.closed) lengthFault)
      (hfinalize : p.finalize r.key nonce headerFault lengthFault = (p', .error failure)) :
      Outcome r P p s p' (some (.finalize failure)) s
  | unsought {p' : Packer} (position : Nat)
      (hseek : P (.seekFault p'.tmpfile.closed) (some position))
      (hopen : p'.tmpfile.closed = false) : Outcome r P p s (p'.seekTo position) (some .seek) s
  | rejected {nonce : Nonce} {p' : Packer} {bytesWritten : Nat} {s' : RepoState} (position : Nat)
      (hopen : p.tmpfile.closed = false)
      (hfinalize : p.finalize r.key nonce none none = (p', .ok bytesWritten))
      (hsave : P (.savePack (r.hash p'.packer.wr) p'.tmpfile.content (r.intact p')) (some position))
      (hleft : s' = s ∨ r.hash p'.packer.wr ∉ s.packs.names ∧ ∃ part,
        s' = { s with packs := s.packs.save (r.hash p'.packer.wr) part }) :
      Outcome r P p s (p'.seekTo position) (some .savePack) s'
  | uploaded {nonce : Nonce} {p' q : Packer} {bytesWritten : Nat}
      {err : Option SaveError} {s' : RepoState}
      (hnonce : P .newRandomNonce nonce) (hopen : p.tmpfile.closed = false)
      (hfinalize : p.finalize r.key nonce none none = (p', .ok bytesWritten))
      (hfresh : r.hash p'.packer.wr ∉ s.packs.names) (hintact : r.intact p')
      (hstore : Runs (system.restrict P) (r.storePacker (r.hash p'.packer.wr) p')
        { s with packs := s.packs.save (r.hash p'.packer.wr) p'.tmpfile.content } (q, err) s') :
      Outcome r P p s q err s'

section Outcomes

variable {r : Repo} {P : Answers} {s s' : RepoState} {p q : Packer} {id : ID}
  {err : Option SaveError}

theorem saveIndexes_adds {indexes : List Index}
    (h : Runs (system.restrict P) (saveIndexes indexes) s err s') : Adds s.idx s'.idx 0 ∧
      (∀ failure, err = some failure → failure.beforeUpload = false) ∧
      ((∀ file failed, P (.saveIndexFile file) failed → failed = false) → err = none) := by
  induction indexes generalizing s with
  | nil =>
    obtain ⟨failure, mid, ⟨hmerge, -⟩, hreturn⟩ := h.perform_inv
    obtain ⟨mi, heq, -, hle, hmem, -⟩ := s.idx.mergeFinalIndexes_spec
    simp only [system, exec, heq] at hmerge
    obtain ⟨rfl, rfl⟩ := hmerge
    cases hreturn
    exact ⟨⟨by rwa [zero_add], fun pb => by rw [zero_add]; exact hmem pb⟩,
      by rintro _ ⟨⟩, fun _ => rfl⟩
  | cons idx rest ih =>
    unfold saveIndexes at h
    cases hencode : idx.encode with
    | none =>
      rw [hencode] at h
      obtain ⟨res, -⟩ := h.perform_inv
      cases res
    | some file =>
      rw [hencode] at h
      obtain ⟨failed, mid, ⟨hsave, hP⟩, hrest⟩ := h.perform_inv
      have hidx : mid.idx = s.idx := by rcases hsave with ⟨id, -, rfl⟩ | ⟨-, rfl⟩ <;> rfl
      rw [← hidx]
      cases failed with
      | true =>
        cases hrest
        refine ⟨.refl _, ?_, fun hworks => ?_⟩
        · rintro _ ⟨⟩
          rfl
        · cases hworks _ _ hP
      | false => exact ih hrest

theorem saveFullIndex_adds (h : Runs (system.restrict P) saveFullIndex s err s') :
    Adds s.idx s'.idx 0 ∧
      (∀ failure, err = some failure → failure.beforeUpload = false) ∧
      ((∀ file failed, P (.saveIndexFile file) failed → failed = false) → err = none) := by
  obtain ⟨chosen, _, ⟨⟨now, mi, hchosen, rfl⟩, -⟩, hrest⟩ := h.perform_inv
  obtain ⟨⟨hle, hmem⟩, herr⟩ := saveIndexes_adds hrest
  have hsame : mi.content = s.idx.content := (MasterIndex.finalizeIf_spec _ hchosen).1
  rw [hsame] at hle hmem
  exact ⟨⟨hle, hmem⟩, herr⟩

/-- The blobs as they are listed under a pack ID. -/
def Packer.entries (p : Packer) (id : ID) : Multiset PackedBlob :=
  (p.packer.blobs.map (Index.packed id) : List PackedBlob)

/-! ## After the upload -/

theorem storePacker_keepsPacks (id : ID) (p : Packer) : (r.storePacker id p).All Op.KeepsPacks :=
  storePacker_all r trivial (fun _ _ => trivial) trivial
    (saveIndexes_all (fun _ => trivial) trivial trivial) id p

theorem storePacker_keepsManagers (id : ID) (p : Packer) :
    (r.storePacker id p).All Op.KeepsManagers :=
  storePacker_all r trivial (fun _ _ => trivial) trivial saveIndexes_keepsManagers id p

theorem storePacker_spec (h : Runs (system.restrict P) (r.storePacker id p) s (q, err) s') :
    q = p.close ∧ (err = none → Adds s.idx s'.idx (p.entries id)) ∧
      (∀ failure, err = some failure → failure.beforeUpload = false) ∧
      ((∀ fault, P .systemFault fault → fault = false) →
        (∀ file failed, P (.saveIndexFile file) failed → failed = false) → err = none) := by
  obtain ⟨closeFault, _, ⟨rfl, hclose⟩, hclosed⟩ := h.perform_inv
  cases closeFault with
  | true =>
    cases hclosed
    refine ⟨rfl, nofun, ?_, fun hworks => ?_⟩
    · rintro _ ⟨⟩
      rfl
    · cases hworks _ hclose
  | false =>
    obtain ⟨removeFault, mid, ⟨rfl, hremove⟩, hremoved⟩ := hclosed.perform_inv
    cases removeFault with
    | true =>
      cases hremoved
      refine ⟨rfl, nofun, ?_, fun hworks => ?_⟩
      · rintro _ ⟨⟩
        rfl
      · cases hworks _ hremove
    | false =>
      obtain ⟨_, _, ⟨⟨seed, now, mi, hstore, rfl⟩, -⟩, hstored⟩ := hremoved.perform_inv
      obtain ⟨hcontent, -⟩ := MasterIndex.storePack_spec rfl hstore
      have hadds : Adds mid.idx mi (p.entries id) :=
        ⟨by rw [hcontent]; exact le_rfl, fun pb => by rw [hcontent]; rfl⟩
      split at hstored
      · cases hstored
        exact ⟨rfl, fun _ => hadds, nofun, fun _ _ => rfl⟩
      · obtain ⟨failure, _, hsave, hreturn⟩ := hstored.bind_inv
        obtain ⟨hsaved, hfailed, hnone⟩ := saveFullIndex_adds hsave
        cases hreturn
        refine ⟨rfl, fun _ => ?_, hfailed, fun _ => hnone⟩
        have htrans := hadds.trans hsaved
        rwa [add_zero] at htrans

/-! ## The whole of `savePacker` -/

theorem Packer.faults_of_finalize {k : Key} {nonce : Nonce}
    {headerFault lengthFault : Pack.WriteFault} {bytesWritten : Nat} {p' : Packer}
    (h : p.finalize k nonce headerFault lengthFault = (p', .ok bytesWritten)) :
    headerFault = none ∧ lengthFault = none := by
  obtain rfl := Packer.finalize_closed h
  refine ⟨rfl, ?_⟩
  cases lengthFault with
  | none => rfl
  | some n =>
    have hresult := congrArg Prod.snd h
    simp only [Packer.finalize, Pack.Packer.finalize, Pack.writeResult] at hresult
    split at hresult
    · cases hresult
    · split at hresult
      · cases hresult
      · split at hresult
        · cases hresult
        · cases hresult

theorem savePacker_outcome (h : Runs (system.restrict P) (r.savePacker p) s (q, err) s') :
    Outcome r P p s q err s' := by
  obtain ⟨nonce, _, ⟨rfl, hnonce⟩, hdrawn⟩ := h.perform_inv
  obtain ⟨headerFault, _, ⟨⟨hclosed, rfl⟩, hheader⟩, hwritten⟩ := hdrawn.perform_inv
  obtain ⟨lengthFault, _, ⟨⟨-, rfl⟩, hlength⟩, hrest⟩ := hwritten.perform_inv
  cases hfinalize : p.finalize r.key nonce headerFault lengthFault with
  | mk p' result =>
    rw [hfinalize] at hrest
    cases result with
    | error failure =>
      cases hrest
      exact .unfinished hheader hlength hfinalize
    | ok bytesWritten =>
      obtain ⟨rfl, rfl⟩ := Packer.faults_of_finalize hfinalize
      have hopen : p.tmpfile.closed = false := by
        cases hc : p.tmpfile.closed with
        | false => rfl
        | true => cases hclosed hc
      have hopen' : p'.tmpfile.closed = false := by
        rw [← hopen]
        exact congrArg (·.1.tmpfile.closed) hfinalize.symm
      obtain ⟨seekFault, _, ⟨⟨-, rfl⟩, hseek⟩, hsought⟩ := hrest.perform_inv
      cases seekFault with
      | some position =>
        cases hsought
        exact .unsought position hseek hopen'
      | none =>
        obtain ⟨fault, mid, ⟨hsave, hP⟩, hstore⟩ := hsought.perform_inv
        cases fault with
        | some position =>
          cases hstore
          rcases hsave with ⟨hfault, -⟩ | ⟨-, hleft⟩
          · cases hfault
          · exact .rejected position hopen hfinalize hP hleft
        | none =>
          rcases hsave with ⟨-, hfresh, hintact, rfl⟩ | ⟨hfault, -⟩
          · exact .uploaded hnonce hopen hfinalize hfresh hintact hstore
          · cases hfault

theorem Outcome.ok (h : Outcome r P p s q none s') :
    p.tmpfile.closed = false ∧ ∃ nonce p' bytesWritten, P .newRandomNonce nonce ∧
      p.finalize r.key nonce none none = (p', .ok bytesWritten) ∧ r.intact p' ∧
      q = p'.close ∧ s'.pm = s.pm ∧ r.hash p'.packer.wr ∉ s.packs.names ∧
      s'.packs = s.packs.save (r.hash p'.packer.wr) p'.tmpfile.content ∧
      Adds s.idx s'.idx (p'.entries (r.hash p'.packer.wr)) := by
  cases h with
  | @uploaded nonce p' _ bytesWritten _ _ hnonce hopen hfinalize hfresh hintact hstore =>
    obtain ⟨rfl, hadds, -⟩ := storePacker_spec hstore
    have hpm := hstore.of_restrict.unchanged exec_keepsManagers (storePacker_keepsManagers _ _)
    have hpacks := hstore.of_restrict.unchanged exec_keepsPacks (storePacker_keepsPacks _ _)
    exact ⟨hopen, nonce, p', bytesWritten, hnonce, hfinalize, hintact, rfl, hpm,
      hfresh, hpacks, hadds rfl⟩

theorem savePacker_ok (h : Runs system (r.savePacker p) s (q, none) s') : ∃ nonce p' bytesWritten,
      p.finalize r.key nonce none none = (p', .ok bytesWritten) ∧ q = p'.close ∧
      s'.pm = s.pm ∧ r.hash p'.packer.wr ∉ s.packs.names ∧
      s'.packs = s.packs.save (r.hash p'.packer.wr) p'.tmpfile.content ∧
      Adds s.idx s'.idx (p'.entries (r.hash p'.packer.wr)) := by
  have hrestricted : Runs (system.restrict fun _ _ => True) (r.savePacker p) s
      (q, none) s' := h.restrict fun _ _ => trivial
  obtain ⟨-, nonce, p', bytesWritten, -, hfinalize, -, hrest⟩ := (savePacker_outcome hrestricted).ok
  exact ⟨nonce, p', bytesWritten, hfinalize, hrest⟩

end Outcomes

end Rapi.Repository
