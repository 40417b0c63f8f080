import Rapi.Repository.ListablePacks
import Rapi.Repository.Uploads

/-!
# Repeating a flush

After a rejected upload the packers stay in the lists of their managers.  Those
that were uploaded before are closed, so that a second flush fails.  Without
such packers it succeeds, but the second header of the rejected packer is
written where the first upload has left the file, which may be in the middle of
the blobs.  A backend with a hash notices this, and also a header that is written
over the first one.
-/

namespace Rapi.Repository

open Foundation Crypto Restic List Packer

/-- Nothing fails but writes to closed files; the nonces may be restricted. -/
def Works (drawn : Nonce → Prop) : Answers
  | .newRandomNonce, nonce => drawn nonce
  | .writeFault closed, fault => closed = false → fault = none
  | .seekFault closed, fault => closed = false → fault = none
  | .savePack _ _ intact, fault => intact → fault = none
  | .systemFault, fault => fault = false
  | .saveIndexFile _, failed => failed = false
  | _, _ => True

def Packer.area (p : Packer) : Nat := (p.packer.blobs.map Blob.length).sum

/-- The next write goes behind the blobs of an open file, and to its end if the backend
has a hash. -/
def Repeatable (r : Repo) (p : Packer) : Prop :=
  p.tmpfile.closed = false ∧ p.area ≤ p.tmpfile.position ∧
    (r.hasher = none ∨ p.tmpfile.position = p.tmpfile.content.length)

/-! ## Files that have all that was hashed -/

structure Complete (p : Packer) : Prop where
  header : ∃ header, Pack.makeHeader p.packer.blobs = .ok header
  content : p.tmpfile.content = p.packer.wr
  inside : ∀ b ∈ p.packer.blobs, b.offset + b.length ≤ p.area
  covered : ∀ position < p.area, ∃ b ∈ p.packer.blobs,
    b.offset ≤ position ∧ position < b.offset + b.length
  area_le : p.area ≤ p.packer.wr.length
  small : p.area < minPackSize

section Files

variable {c : Setting} {t : BlobType} {p p' : Packer} {k : Key} {nonce : Nonce} {bytesWritten : Nat}

theorem Shaped.area_eq (hp : Shaped c t p) : p.area = p.packer.bytes := hp.filled.bytes_eq.1.symm

theorem Kept.complete (ht : t ≠ .invalid) (hp : Kept c t p) : Complete p where
  header := Pack.exists_makeHeader fun b hb => by
    rw [hp.shaped.types b hb]
    exact ht
  content := hp.shaped.intact.content
  inside := by
    rw [hp.shaped.area_eq]
    exact hp.shaped.filled.pairwise_blobs.2
  covered := by
    rw [hp.shaped.area_eq]
    exact fun _ => hp.shaped.filled.covered
  area_le := by rw [hp.shaped.area_eq, hp.shaped.intact.bytes]
  small := by
    rw [hp.shaped.area_eq]
    exact hp.small

theorem Packer.finalize_fields (h : p.finalize k nonce none none = (p', .ok bytesWritten)) :
    p'.packer.blobs = p.packer.blobs ∧ p'.tmpfile.closed = p.tmpfile.closed ∧
      ∃ footer, p'.packer.wr = p.packer.wr ++ footer ∧
        p'.tmpfile.content = overwrite p.tmpfile.content p.tmpfile.position footer ∧
        footer.head? = nonce.bytes.head? := by
  cases hpacker : p.packer.finalize k nonce none none with
  | mk packer result =>
    simp only [Packer.finalize, hpacker, Prod.mk.injEq] at h
    obtain ⟨rfl, rfl⟩ := h
    have hblobs := p.packer.blobs_finalize k nonce none none
    rw [hpacker] at hblobs
    obtain ⟨header, hmake⟩ : ∃ header, Pack.makeHeader p.packer.blobs = .ok header := by
      obtain ⟨⟨_, header, hmake, -⟩, -⟩ := Pack.Packer.finalize_ok hpacker
      exact ⟨header, hmake⟩
    rw [Pack.finalize_eq hmake] at hpacker
    cases hpacker
    refine ⟨hblobs, rfl, _, append_assoc _ _ _, ?_, ?_⟩
    · simp only [TempFile.write, append_assoc, drop_left]
    · rw [Key.encrypt, append_assoc, head?_append_of_ne_nil]
      exact ne_nil_of_length_pos (by rw [nonce.length_bytes]; decide)

theorem Kept.complete_finalize (ht : t ≠ .invalid) (hp : Kept c t p) (hkey : c.key = k)
    (h : p.finalize k nonce none none = (p', .ok bytesWritten)) (position : Nat) :
    Complete (p'.seekTo position) := by
  subst hkey
  obtain ⟨hblobs, -, footer, hwr, -⟩ := finalize_fields h
  have hcomplete := hp.complete ht
  have harea : (p'.seekTo position).area = p.area :=
    congrArg (fun blobs => (blobs.map Blob.length).sum) hblobs
  constructor
  · exact hblobs.symm ▸ hcomplete.header
  · exact (hp.shaped.intact.finalize h).1.content
  · rw [harea]
    exact hblobs.symm ▸ hcomplete.inside
  · rw [harea]
    exact hblobs.symm ▸ hcomplete.covered
  · rw [harea]
    change p.area ≤ p'.packer.wr.length
    rw [hwr, length_append]
    exact hcomplete.area_le.trans (Nat.le_add_right _ _)
  · rw [harea]
    exact hcomplete.small

/-- Behind the blobs a second header does no harm. -/
theorem Complete.slice_finalize (hp : Complete p) {b : Blob}
    (hb : b ∈ p.packer.blobs) (hposition : p.area ≤ p.tmpfile.position)
    (h : p.finalize k nonce none none = (p', .ok bytesWritten)) :
    slice p'.tmpfile.content b.offset b.length = slice p.packer.wr b.offset b.length := by
  obtain ⟨-, -, footer, -, hcontent, -⟩ := finalize_fields h
  have hinside := hp.inside b hb
  rw [hcontent, slice_overwrite_of_le (hinside.trans hposition), hp.content]
  rw [hp.content]
  exact hinside.trans hp.area_le

theorem footer_ne_nil {footer : Bytes} (hhead : footer.head? = nonce.bytes.head?) :
    footer ≠ [] := by
  rintro rfl
  have hlength := nonce.length_bytes
  rw [head?_nil, eq_comm, head?_eq_none_iff] at hhead
  rw [hhead] at hlength
  cases hlength

/-- Before the end of the blobs it overwrites one of them. -/
theorem Complete.exists_damaged (hp : Complete p) (hposition : p.tmpfile.position < p.area)
    (hnonce : nonce.bytes.head? ≠ p.packer.wr[p.tmpfile.position]?)
    (h : p.finalize k nonce none none = (p', .ok bytesWritten)) :
    ∃ b ∈ p.packer.blobs, slice p'.tmpfile.content b.offset b.length ≠
      slice p.packer.wr b.offset b.length := by
  obtain ⟨-, -, footer, -, hcontent, hhead⟩ := finalize_fields h
  obtain ⟨b, hb, hstart, hend⟩ := hp.covered _ hposition
  refine ⟨b, hb, fun hsame => hnonce ?_⟩
  have hfooter := footer_ne_nil hhead
  have hbyte : (overwrite p.tmpfile.content p.tmpfile.position
      footer)[p.tmpfile.position]? = footer.head? := by
    refine getElem?_overwrite_self ?_ hfooter
    rw [hp.content]
    exact hposition.le.trans hp.area_le
  rw [← hcontent, hhead] at hbyte
  have hpoint := congrArg (·[p.tmpfile.position - b.offset]?) hsame
  simp only [slice] at hpoint
  rw [getElem?_take_of_lt (by omega), getElem?_take_of_lt (by omega),
    getElem?_drop, getElem?_drop, Nat.add_sub_cancel' hstart, hbyte] at hpoint
  exact hpoint

end Files

/-! ## A flush in which nothing fails -/

section Working

variable {r : Repo} {drawn : Nonce → Prop} {s s' : RepoState} {p q : Packer}
  {packers packers' : List Packer} {err : Option SaveError} {t : BlobType}

/-- A packer that nothing keeps from being saved. -/
structure Savable (r : Repo) (p : Packer) : Prop where
  isOpen : p.tmpfile.closed = false
  header : ∃ header, Pack.makeHeader p.packer.blobs = .ok header
  fits : ∀ b ∈ p.packer.blobs, b.offset ≤ Index.maxuint32 ∧ b.length ≤ Index.maxuint32
  intact : ∀ nonce p' bytesWritten,
    p.finalize r.key nonce none none = (p', .ok bytesWritten) → r.intact p'

theorem Complete.savable (hp : Complete p) (hrepeatable : Repeatable r p) : Savable r p := by
  obtain ⟨hopen, -, hhasher⟩ := hrepeatable
  refine ⟨hopen, hp.header, fun b hb => ?_, fun nonce p' bytesWritten h => ?_⟩
  · have hinside := hp.inside b hb
    have hsmall := hp.small
    have hmax : minPackSize ≤ Index.maxuint32 := by decide
    omega
  · obtain hnone | hend := hhasher
    · simp [Repo.intact, hnone]
    · -- at the end the file and what was hashed get the same bytes
      obtain ⟨-, -, footer, hwr, hcontent, -⟩ := finalize_fields h
      rw [hend, overwrite_end, hp.content] at hcontent
      simp [Repo.intact, hcontent, hwr]

theorem Outcome.works (hp : Savable r p)
    (h : Outcome r (Works drawn) p s q err s') : err = none := by
  cases h with
  | unfinished hheaderFault hlengthFault hfinalize =>
    obtain rfl := hheaderFault hp.isOpen
    obtain rfl := hlengthFault hp.isOpen
    obtain ⟨header, hmake⟩ := hp.header
    have hresult := congrArg Prod.snd hfinalize
    simp only [Packer.finalize, Pack.finalize_eq hmake] at hresult
    cases hresult
  | unsought position hseek hopen' => cases hseek hopen'
  | rejected position _ hfinalize hsave => cases hsave (hp.intact _ _ _ hfinalize)
  | uploaded _ _ _ _ _ hstore => exact (storePacker_spec hstore).2.2.2 (fun _ h => h) fun _ _ h => h

theorem savePackers_works (hpackers : ∀ p ∈ packers, Savable r p)
    (h : Runs (system.restrict (Works drawn)) (r.savePackers packers) s
      (packers', err) s') : err = none := by
  induction packers generalizing s packers' with
  | nil =>
    cases h
    rfl
  | cons p rest ih =>
    obtain ⟨hp, hrest⟩ := forall_mem_cons.mp hpackers
    obtain ⟨⟨saved, failure⟩, mid, hsave, hnext⟩ := h.bind_inv
    obtain rfl := (savePacker_outcome hsave).works hp
    obtain ⟨⟨others, failure⟩, _, hothers, hreturn⟩ := hnext.bind_inv
    cases hreturn
    exact ih hrest hothers

theorem flushManager_works (hpackers : ∀ p ∈ (s.pm t).packers, Savable r p)
    (h : Runs (system.restrict (Works drawn)) (r.flushManager t) s err s') : err = none := by
  obtain ⟨packers', mid, hsave, -, -⟩ := flushManager_inv h
  exact savePackers_works hpackers hsave

theorem flushPacks_works (hpackers : ∀ p ∈ s.heldPackers, Savable r p)
    (h : Runs (system.restrict (Works drawn)) r.flushPacks s err s') : err = none := by
  obtain ⟨failure, mid, hdata, hrest⟩ := h.bind_inv
  obtain rfl := flushManager_works (fun p hp => hpackers p (mem_append_left _ hp)) hdata
  obtain ⟨hpm, -⟩ := flushManager_uploads hdata
  refine flushManager_works (fun p hp => hpackers p ?_) hrest
  rw [hpm, Function.update_of_ne (by decide)] at hp
  exact mem_append_right _ hp

end Working

/-! ## What the index lists -/

theorem Adds.filter_eq {mi mi' : MasterIndex} {new : Multiset PackedBlob}
    {isNew : PackedBlob → Prop} [DecidablePred isNew] (h : Adds mi mi' new)
    (hold : ∀ pb ∈ mi.content, ¬ isNew pb) (hnew : ∀ pb ∈ new, isNew pb)
    (hnodup : new.Nodup) : mi'.content.filter isNew = new := by
  have hle : mi'.content.filter isNew ≤ new := by
    have hfilter := Multiset.filter_le_filter isNew h.le
    rwa [Multiset.filter_add, Multiset.filter_eq_self.mpr hnew,
      Multiset.filter_eq_nil.mpr hold, add_zero] at hfilter
  refine (Multiset.Nodup.ext (Multiset.nodup_of_le hle hnodup) hnodup).mpr fun pb => ?_
  rw [Multiset.mem_filter, h.mem, Multiset.mem_add]
  constructor
  · rintro ⟨hpb | hpb, hisNew⟩
    · exact hpb
    · exact absurd hisNew (hold pb hpb)
  · exact fun hpb => ⟨Or.inl hpb, hnew pb hpb⟩

variable {packers : List Packer} {ids : List ID}

theorem mem_listed {pb : PackedBlob} (h : pb ∈ listed packers ids) :
    pb.packID ∈ ids ∧ ∃ p ∈ packers, pb ∈ p.entries pb.packID := by
  induction packers generalizing ids with
  | nil => simp [listed] at h
  | cons p packers ih =>
    cases ids with
    | nil => simp [listed] at h
    | cons id ids =>
      have hcons : listed (p :: packers) (id :: ids) = p.entries id + listed packers ids := rfl
      rw [hcons, Multiset.mem_add] at h
      rcases h with h | h
      · obtain ⟨b, hb, rfl⟩ := mem_map.mp h
        exact ⟨mem_cons_self, p, mem_cons_self, h⟩
      · obtain ⟨hid, q, hq, hentry⟩ := ih h
        exact ⟨mem_cons_of_mem _ hid, q, mem_cons_of_mem _ hq, hentry⟩

theorem exists_listed {R : Packer → ID → Prop} (h : List.Forall₂ R packers ids) {p : Packer}
    (hp : p ∈ packers) : ∃ id, R p id ∧ ∀ pb ∈ p.entries id, pb ∈ listed packers ids := by
  induction h with
  | nil => cases hp
  | @cons q id packers ids hfirst _ ih =>
    have hcons : listed (q :: packers) (id :: ids) = q.entries id + listed packers ids := rfl
    rw [hcons]
    rcases mem_cons.mp hp with rfl | hp
    · exact ⟨id, hfirst, fun pb hpb => Multiset.mem_add.mpr (Or.inl hpb)⟩
    · obtain ⟨other, hR, hall⟩ := ih hp
      exact ⟨other, hR, fun pb hpb => Multiset.mem_add.mpr (Or.inr (hall pb hpb))⟩

theorem nodup_listed (hids : ids.Nodup) (hblobs : ∀ p ∈ packers, p.packer.blobs.Nodup) :
    (listed packers ids).Nodup := by
  induction packers generalizing ids with
  | nil => simp [listed]
  | cons p packers ih =>
    cases ids with
    | nil => simp [listed]
    | cons id ids =>
      obtain ⟨hid, hids⟩ := nodup_cons.mp hids
      obtain ⟨hp, hpackers⟩ := forall_mem_cons.mp hblobs
      have hcons : listed (p :: packers) (id :: ids) = p.entries id + listed packers ids := rfl
      rw [hcons, Multiset.nodup_add]
      refine ⟨?_, ih hids hpackers, ?_⟩
      · exact Multiset.coe_nodup.mpr (hp.map fun _ _ heq => congrArg PackedBlob.toBlob heq)
      · rw [Multiset.disjoint_left]
        intro pb hpb hrest
        obtain ⟨b, -, rfl⟩ := mem_map.mp hpb
        exact hid (mem_listed hrest).1

/-- The file of the packer is in the backend, with its blobs where they are listed. -/
def StoredUnder (s : RepoState) (p : Packer) (id : ID) : Prop :=
  ∃ content, s.packs.load id = some content ∧
    ∀ b ∈ p.packer.blobs, slice content b.offset b.length = slice p.packer.wr b.offset b.length

/-- Each blob of a packer has got one entry, which leads to its data. -/
def ListedOnce (s s' : RepoState) : Prop :=
  ∃ ids, List.Forall₂ (StoredUnder s') s.heldPackers ids ∧
    s'.idx.content.filter (·.packID ∉ s.packs.names) = listed s.heldPackers ids

/-! ## The second flush -/

section Again

variable {r : Repo} {drawn : Nonce → Prop} {s s₁ s₂ : RepoState}

/-- The packers of both managers, as the calls that have not failed leave them. -/
def HeldKept (r : Repo) (s : RepoState) : Prop :=
  ∀ t, t ≠ .invalid → ∀ p ∈ (s.pm t).packers, Kept (uncounted r s) t p

variable {p : Packer} {nonce : Nonce}

theorem HeldKept.exists_kept (h : HeldKept r s) (hp : p ∈ s.heldPackers) :
    ∃ t, t ≠ .invalid ∧ Kept (uncounted r s) t p := by
  rcases mem_append.mp hp with hp | hp
  · exact ⟨.data, by decide, h .data (by decide) p hp⟩
  · exact ⟨.tree, by decide, h .tree (by decide) p hp⟩

theorem HeldKept.nodup_blobs (h : HeldKept r s) (hp : p ∈ s.heldPackers) :
    p.packer.blobs.Nodup := by
  obtain ⟨t, -, hkept⟩ := h.exists_kept hp
  refine hkept.shaped.filled.nodup_blobs fun b hb => ?_
  exact lt_of_lt_of_le (by decide) (hkept.shaped.lengths b hb).1

theorem Kept.area_le {c : Setting} {t : BlobType} (hp : Kept c t p) :
    p.area ≤ p.tmpfile.position := by
  rw [hp.shaped.area_eq, hp.shaped.intact.bytes, hp.shaped.intact.position]

/-- The files that a rejected upload has not closed have all that was hashed. -/
theorem complete_of_rejected (hheld : HeldKept r s)
    (hfirst : Runs system r.flushPacks s (some .savePack) s₁) :
    ∀ p ∈ s₁.heldPackers, p.tmpfile.closed = false → Complete p := by
  obtain ⟨uploaded, before, p, after, before', nonce, p', bytesWritten, position,
    ids, hpackers, hpackers', -, hclosed, -, hfinalize, -⟩ := flushPacks_rejects hfirst
  intro q hq hopen
  rw [hpackers', mem_append, mem_cons] at hq
  rcases hq with hq | rfl | hq
  · rw [hclosed q hq] at hopen
    cases hopen
  · obtain ⟨t, ht, hkept⟩ := hheld.exists_kept (p := p) (by simp [hpackers])
    exact hkept.complete_finalize ht rfl hfinalize position
  · obtain ⟨t, ht, hkept⟩ := hheld.exists_kept (p := q) (by simp [hpackers, hq])
    exact hkept.complete ht

/-- What is uploaded from where one can go on writing is stored as it was hashed. -/
theorem Uploaded.storedUnder {packers : List Packer} {ids : List ID}
    (h : Uploaded r drawn s₁ s₂ packers ids)
    (hpackers : ∀ p ∈ packers, Complete p ∧ p.area ≤ p.tmpfile.position) :
    List.Forall₂ (StoredUnder s₂) packers ids := by
  refine ((forall₂_and_left _ _).mpr ⟨hpackers, h.stored⟩).imp ?_
  rintro p id ⟨⟨hcomplete, hposition⟩, -, nonce, p', bytesWritten, -, hfinalize, -, hload⟩
  exact ⟨_, hload, fun b hb => hcomplete.slice_finalize hb hposition hfinalize⟩

theorem listedOnce_of_repeatable (hheld : HeldKept r s)
    (hindex : ∀ pb ∈ s.idx.content, pb.packID ∈ s.packs.names)
    (hfirst : Runs system r.flushPacks s (some .savePack) s₁)
    (hrepeatable : ∀ p ∈ s₁.heldPackers, Repeatable r p)
    (hsecond : Runs (system.restrict (Works drawn)) r.flushPacks s₁ none s₂) : ListedOnce s s₂ := by
  have hcomplete := complete_of_rejected hheld hfirst
  obtain ⟨uploaded, before, p, after, before', nonce, p', bytesWritten, position,
    ids, hpackers, hpackers', hlength, hclosed, -, hfinalize, hbefore⟩ := flushPacks_rejects hfirst
  obtain ⟨others, hafter⟩ := flushPacks_uploads hsecond
  -- no packer was uploaded before in the same manager
  obtain rfl : before' = [] := by
    rw [eq_nil_iff_forall_not_mem]
    intro q hq
    have hopen := (hrepeatable q (by simp [hpackers', hq])).1
    rw [hclosed q hq] at hopen
    cases hopen
  obtain rfl : before = [] := eq_nil_of_length_eq_zero hlength.symm
  rw [append_nil] at hbefore
  rw [nil_append] at hpackers hpackers'
  rw [hpackers'] at hafter
  obtain ⟨hblobs, -, footer, hwr, -⟩ := finalize_fields hfinalize
  have hmem : ∀ q ∈ uploaded, q ∈ s.heldPackers := by
    intro q hq
    simp [hpackers, hq]
  refine ⟨ids ++ others, ?_, ?_⟩
  · rw [hpackers]
    refine rel_append ?_ ?_
    · have hstored := hbefore.storedUnder fun q hq => by
        obtain ⟨t, ht, hkept⟩ := hheld.exists_kept (hmem q hq)
        exact ⟨hkept.complete ht, hkept.area_le⟩
      refine hstored.imp ?_
      rintro q id ⟨content, hload, hslices⟩
      exact ⟨content, hafter.loads _ _ hload, hslices⟩
    · have hstored := hafter.storedUnder fun q hq => by
        rw [← hpackers'] at hq
        exact ⟨hcomplete q hq (hrepeatable q hq).1, (hrepeatable q hq).2.1⟩
      cases hstored with
      | cons hrejected hrest =>
        obtain ⟨content, hload, hslices⟩ := hrejected
        refine .cons ⟨content, hload, fun b hb => ?_⟩ hrest
        -- the blobs are in what was hashed before the first header
        obtain ⟨t, ht, hkept⟩ := hheld.exists_kept (p := p) (by simp [hpackers])
        have hinside := (hkept.complete ht).inside b hb
        have harea := (hkept.complete ht).area_le
        rw [hslices b (hblobs.symm ▸ hb)]
        change slice p'.packer.wr _ _ = _
        rw [hwr, slice_append_left (hinside.trans harea)]
  · have hadds : Adds s.idx s₂.idx (listed s.heldPackers (ids ++ others)) := by
      have htrans := hbefore.adds.trans hafter.adds
      rw [hpackers, listed_append hbefore.stored.length_eq]
      cases hafter.stored with
      | cons _ _ =>
        have hlisted : ∀ id ids, listed (p'.seekTo position :: after) (id :: ids) =
            listed (p :: after) (id :: ids) := by
          intro id ids
          change p'.entries id + _ = p.entries id + _
          rw [entries_finalize id hfinalize]
        rwa [hlisted] at htrans
    refine hadds.filter_eq ?_ ?_ ?_
    · exact fun pb hpb hnew => hnew (hindex pb hpb)
    · intro pb hpb
      rcases mem_append.mp (mem_listed hpb).1 with hid | hid
      · exact hbefore.fresh _ hid
      · exact fun hold => hafter.fresh _ hid (hbefore.names hold)
    · refine nodup_listed ?_ fun q hq => hheld.nodup_blobs hq
      exact (hbefore.trans hafter.anyNonce).nodup

/-- A blob that a second header overwrites is listed all the same. -/
theorem damaged_of_not_repeatable (hheld : HeldKept r s)
    (hfirst : Runs system r.flushPacks s (some .savePack) s₁)
    (hp : p ∈ s₁.heldPackers) (hposition : p.tmpfile.position < p.area)
    (hdrawn : ∀ nonce, drawn nonce → nonce.bytes.head? ≠ p.packer.wr[p.tmpfile.position]?)
    (hsecond : Runs (system.restrict (Works drawn)) r.flushPacks s₁ none s₂) :
    ∃ id content, s₂.packs.load id = some content ∧ ∃ b ∈ p.packer.blobs,
      Index.packed id b ∈ s₂.idx.content ∧
        slice content b.offset b.length ≠ slice p.packer.wr b.offset b.length := by
  obtain ⟨ids, huploaded⟩ := flushPacks_uploads hsecond
  obtain ⟨id, ⟨hopen, nonce, p', bytesWritten, hnonce, hfinalize, -, hload⟩,
    hlisted⟩ := exists_listed huploaded.stored hp
  obtain ⟨b, hb, hdamaged⟩ := (complete_of_rejected hheld hfirst p hp
    hopen).exists_damaged hposition (hdrawn nonce hnonce) hfinalize
  refine ⟨id, _, hload, b, hb, ?_, hdamaged⟩
  rw [huploaded.adds.mem, Multiset.mem_add]
  exact Or.inl (hlisted _ (mem_map_of_mem hb))

/-- A header that is not written to the end makes the file differ from what was hashed. -/
theorem not_intact_of_position {hash : Bytes → Bytes} {p' : Packer} {bytesWritten : Nat}
    (hp : Complete p) (hhasher : r.hasher = some hash) (hinjective : Function.Injective hash)
    (hposition : p.tmpfile.position ≠ p.tmpfile.content.length)
    (h : p.finalize r.key nonce none none = (p', .ok bytesWritten)) : r.intact p' = false := by
  obtain ⟨-, -, footer, hwr, hcontent, hhead⟩ := finalize_fields h
  have hfooter := footer_ne_nil hhead
  simp only [Repo.intact, hhasher, Option.all_some, decide_eq_false_iff_not]
  intro hsame
  have hlength := congrArg length (hinjective hsame)
  rw [hcontent, hwr, length_append, ← hp.content, length_overwrite hfooter] at hlength
  have hpos := length_pos_of_ne_nil hfooter
  omega

/-! ## The second flush comes to its end -/

def Repo.packID (r : Repo) (nonce : Nonce) (p : Packer) : ID :=
  r.hash (p.finalize r.key nonce none none).1.packer.wr

def FreshIDs (r : Repo) (nonce : Nonce) (packers : List Packer) (s : RepoState) : Prop :=
  (packers.map (r.packID nonce)).Nodup ∧ ∀ p ∈ packers, r.packID nonce p ∉ s.packs.names

theorem exists_savePacker (hdrawn : drawn nonce) (hauto : r.noAutoIndexUpdate) (hp : Savable r p)
    (hfresh : r.packID nonce p ∉ s.packs.names) :
    ∃ q s', Runs (system.restrict (Works drawn)) (r.savePacker p) s (q, none) s' ∧
      s'.pm = s.pm ∧ s'.packs.names = r.packID nonce p :: s.packs.names := by
  have hopen := hp.isOpen
  obtain ⟨header, hmake⟩ := hp.header
  cases hfinalize : p.finalize r.key nonce none none with
  | mk p' result =>
    have hresult : result = .ok (p.packer.bytes + header.length + Pack.headerSize) := by
      have hsnd := congrArg Prod.snd hfinalize
      simp only [Packer.finalize, Pack.finalize_eq hmake] at hsnd
      exact hsnd.symm
    subst hresult
    obtain ⟨hblobs, hclosed, -⟩ := finalize_fields hfinalize
    have hid : r.packID nonce p = r.hash p'.packer.wr := by rw [Repo.packID, hfinalize]
    rw [hid] at hfresh ⊢
    obtain ⟨mi, hstore⟩ := s.idx.exists_storePack
      (rfl : (Index.new (fun _ _ => 0) 0).final = false) (hblobs.symm ▸ hp.fits)
      (r.hash p'.packer.wr)
    refine ⟨p'.close, s.stored _ p'.tmpfile.content mi, ?_, rfl, rfl⟩
    refine Runs.perform nonce ⟨rfl, hdrawn⟩ ?_
    refine Runs.perform none ⟨⟨by simp [hopen], rfl⟩, fun _ => rfl⟩ ?_
    refine Runs.perform none ⟨⟨by simp [hopen], rfl⟩, fun _ => rfl⟩ ?_
    rw [hfinalize]
    refine Runs.perform none ⟨⟨by simp [hclosed, hopen], rfl⟩, fun _ => rfl⟩ ?_
    have hintact := hp.intact _ _ _ hfinalize
    refine Runs.perform none ⟨Or.inl ⟨rfl, hfresh, hintact, rfl⟩, fun _ => rfl⟩ ?_
    refine Runs.perform false ⟨rfl, rfl⟩ (Runs.perform false ⟨rfl, rfl⟩ ?_)
    refine Runs.perform () ⟨⟨_, _, mi, hstore, rfl⟩, trivial⟩ ?_
    rw [if_pos hauto]
    exact .ret

theorem exists_savePackers (hdrawn : drawn nonce)
    (hauto : r.noAutoIndexUpdate) {packers : List Packer}
    (hpackers : ∀ p ∈ packers, Savable r p) (hfresh : FreshIDs r nonce packers s) :
    ∃ packers' s', Runs (system.restrict (Works drawn)) (r.savePackers packers) s
        (packers', none) s' ∧ s'.pm = s.pm ∧
      ∀ id ∈ s'.packs.names, id ∈ packers.map (r.packID nonce) ∨
        id ∈ s.packs.names := by
  induction packers generalizing s with
  | nil => exact ⟨[], s, .ret, rfl, fun _ => Or.inr⟩
  | cons p rest ih =>
    obtain ⟨hnodup, hfresh⟩ := hfresh
    obtain ⟨hfirst, hnodup⟩ := nodup_cons.mp hnodup
    obtain ⟨hp, hrest⟩ := forall_mem_cons.mp hpackers
    obtain ⟨hpFresh, hrestFresh⟩ := forall_mem_cons.mp hfresh
    obtain ⟨q, mid, hsave, hpm, hnames⟩ := exists_savePacker hdrawn hauto hp hpFresh
    have hmid : FreshIDs r nonce rest mid := by
      refine ⟨hnodup, fun p' hp' hold => ?_⟩
      rw [hnames, mem_cons] at hold
      rcases hold with hsame | hold
      · exact hfirst (hsame ▸ mem_map_of_mem hp')
      · exact hrestFresh p' hp' hold
    obtain ⟨packers', s', hothers, hpm', hall⟩ := ih hrest hmid
    refine ⟨q :: packers', s', Runs.bind hsave (Runs.bind hothers .ret),
      hpm'.trans hpm, fun id hid => ?_⟩
    rcases hall id hid with hid | hid
    · exact Or.inl (mem_cons_of_mem _ hid)
    · rw [hnames, mem_cons] at hid
      rcases hid with rfl | hid
      · exact Or.inl mem_cons_self
      · exact Or.inr hid

theorem exists_flushManager {t : BlobType} (hdrawn : drawn nonce) (hauto : r.noAutoIndexUpdate)
    (hlocked : (s.pm t).locked = false) (hpackers : ∀ p ∈ (s.pm t).packers, Savable r p)
    (hfresh : FreshIDs r nonce (s.pm t).packers s) :
    ∃ s', Runs (system.restrict (Works drawn)) (r.flushManager t) s none s' ∧
      ∀ id ∈ s'.packs.names, id ∈ (s.pm t).packers.map (r.packID nonce) ∨
        id ∈ s.packs.names := by
  have hlockedFresh : FreshIDs r nonce (s.pm t).packers (s.setManager t ⟨[], true⟩) := hfresh
  obtain ⟨packers', mid, hsave, -, hnames⟩ := exists_savePackers hdrawn hauto hpackers hlockedFresh
  refine ⟨mid.setManager t ⟨(mid.pm t).packers ++ [], false⟩, ?_, hnames⟩
  refine Runs.perform _ ⟨⟨hlocked, rfl, rfl⟩, trivial⟩ ?_
  exact Runs.bind hsave (Runs.perform () ⟨rfl, trivial⟩ .ret)

theorem exists_flushPacks (hdrawn : drawn nonce) (hauto : r.noAutoIndexUpdate)
    (hlocked : ∀ t, (s.pm t).locked = false) (hpackers : ∀ p ∈ s.heldPackers, Savable r p)
    (hfresh : FreshIDs r nonce s.heldPackers s) :
    ∃ s', Runs (system.restrict (Works drawn)) r.flushPacks s none s' := by
  obtain ⟨hnodup, hfresh⟩ := hfresh
  rw [RepoState.heldPackers, map_append, nodup_append] at hnodup
  obtain ⟨hdata, htree, hdisjoint⟩ := hnodup
  have hdataFresh : FreshIDs r nonce (s.pm .data).packers s :=
    ⟨hdata, fun p hp => hfresh p (mem_append_left _ hp)⟩
  obtain ⟨mid, hfirst, hnames⟩ := exists_flushManager hdrawn hauto (hlocked .data)
    (fun p hp => hpackers p (mem_append_left _ hp)) hdataFresh
  obtain ⟨hpm, -⟩ := flushManager_uploads hfirst
  have hmid : mid.pm .tree = s.pm .tree := by rw [hpm, Function.update_of_ne (by decide)]
  have htreeFresh : FreshIDs r nonce (mid.pm .tree).packers mid := by
    rw [hmid]
    refine ⟨htree, fun p hp hold => ?_⟩
    rcases hnames _ hold with hold | hold
    · exact hdisjoint _ hold _ (mem_map_of_mem hp) rfl
    · exact hfresh p (mem_append_right _ hp) hold
  obtain ⟨s', hsecond, -⟩ := exists_flushManager hdrawn hauto (by rw [hmid]; exact hlocked .tree)
    (by rw [hmid]; exact fun p hp => hpackers p (mem_append_right _ hp)) htreeFresh
  exact ⟨s', Runs.bind hfirst hsecond⟩

/--
A second flush succeeds if each packer that is left can be written to behind its
blobs, and at the end of its file if the backend has a hash.  It fails if one of them
is closed or, with a hash, not at its end.  Otherwise it damages a blob for all nonces
but those that begin with the byte that is overwritten.
-/
theorem flush_again (hheld : HeldKept r s)
    (hindex : ∀ pb ∈ s.idx.content, pb.packID ∈ s.packs.names)
    (hfirst : Runs system r.flushPacks s (some .savePack) s₁) :
    ((∀ p ∈ s₁.heldPackers, Repeatable r p) →
      (∀ err s₂, Runs (system.restrict (Works fun _ => True)) r.flushPacks s₁ err
          s₂ → err = none ∧ ListedOnce s s₂) ∧
      ∀ nonce, r.noAutoIndexUpdate → (∀ t, (s₁.pm t).locked = false) →
        FreshIDs r nonce s₁.heldPackers s₁ →
        ∃ s₂, Runs (system.restrict (Works fun _ => True)) r.flushPacks s₁ none s₂) ∧
    ((∃ p ∈ s₁.heldPackers, p.tmpfile.closed ∨
        p.tmpfile.position ≠ p.tmpfile.content.length ∧
          ∃ hash, r.hasher = some hash ∧ Function.Injective hash) →
      ∀ err s₂, Runs (system.restrict (Works fun _ => True)) r.flushPacks s₁ err
        s₂ → err ≠ none) ∧
    ∀ p ∈ s₁.heldPackers, p.tmpfile.position < p.area → ∀ s₂,
      Runs (system.restrict (Works fun nonce =>
        nonce.bytes.head? ≠ p.packer.wr[p.tmpfile.position]?)) r.flushPacks s₁ none s₂ →
      ∃ id content, s₂.packs.load id = some content ∧ ∃ b ∈ p.packer.blobs,
        Index.packed id b ∈ s₂.idx.content ∧ slice content b.offset b.length ≠
          slice p.packer.wr b.offset b.length := by
  have hcomplete := complete_of_rejected hheld hfirst
  have hsavable : (∀ p ∈ s₁.heldPackers, Repeatable r p) → ∀ p ∈ s₁.heldPackers, Savable r p :=
    fun hrepeatable p hp => (hcomplete p hp (hrepeatable p hp).1).savable (hrepeatable p hp)
  refine ⟨fun hrepeatable => ⟨fun err s₂ hsecond => ?_, ?_⟩, ?_, ?_⟩
  · obtain rfl := flushPacks_works (hsavable hrepeatable) hsecond
    exact ⟨rfl, listedOnce_of_repeatable hheld hindex hfirst hrepeatable hsecond⟩
  · intro nonce hauto hlocked hfresh
    exact exists_flushPacks trivial hauto hlocked (hsavable hrepeatable) hfresh
  · rintro ⟨p, hp, hbad⟩ err s₂ hsecond rfl
    obtain ⟨ids, huploaded⟩ := flushPacks_uploads hsecond
    obtain ⟨id, ⟨hopen, nonce, p', bytesWritten, -, hfinalize, hintact, -⟩, -⟩ :=
      exists_listed huploaded.stored hp
    obtain hclosed | ⟨hposition, hash, hhasher, hinjective⟩ := hbad
    · rw [hclosed] at hopen
      cases hopen
    · rw [not_intact_of_position (hcomplete p hp hopen) hhasher hinjective hposition
        hfinalize] at hintact
      cases hintact
  · intro p hp hposition s₂ hsecond
    exact damaged_of_not_repeatable hheld hfirst hp hposition (fun _ h => h) hsecond

end Again

/-! ## One packer and two -/

def hashedRepo (hasher : Option (Bytes → Bytes)) : Repo :=
  { sampleRepo with hasher := hasher }

theorem samplePacker_kept (hasher : Option (Bytes → Bytes)) (s : RepoState) :
    Kept (uncounted (hashedRepo hasher) s) .data samplePacker := by
  have hadd : Packer.new.add .data (sampleRepo.blobID .null [])
      ((uncounted (hashedRepo hasher) s).key.encrypt sampleNonce []) none =
        (samplePacker, none) := rfl
  exact ⟨(Shaped.new.add (Nat.zero_le _) trivial hadd).1, by decide, by decide⟩

def samplePackers (packers : List Packer) : RepoState :=
  sampleStart.setManager .data ⟨packers, false⟩

theorem heldKept_sample (hasher : Option (Bytes → Bytes))
    (hpackers : ∀ p ∈ packers, p = samplePacker) :
    HeldKept (hashedRepo hasher) (samplePackers packers) := by
  intro t ht p hp
  cases t with
  | invalid => exact absurd rfl ht
  | data =>
    rw [hpackers p hp]
    exact samplePacker_kept hasher _
  | tree => cases hp

/-- An upload is rejected with the given number of bytes read, if the number of packs
is as given. -/
def rejects (packs position : Nat) : Op → RepoState → Option Nat
  | .savePack _ _ _, s => if s.packs.length = packs then some position else none
  | _, _ => none

/-- The whole file is read before the upload is rejected by a backend with a hash. -/
theorem flush_again_sample :
    ∃ s₁ s₂, Runs system (hashedRepo (some id)).flushPacks (samplePackers [samplePacker])
        (some .savePack) s₁ ∧
      Runs (system.restrict (Works fun _ => True)) (hashedRepo (some id)).flushPacks s₁ none
        s₂ ∧ ListedOnce (samplePackers [samplePacker]) s₂ := by
  obtain ⟨err, s₁, hfirst, rfl, hrepeatable, ⟨hinvalid, hdata, htree⟩, hfresh⟩ := exists_runs
    (playback sampleNonce (rejects 0 105)) (hashedRepo (some id)).flushPacks
    (samplePackers [samplePacker]) (fun found => found.1 = some .savePack ∧
      (∀ p ∈ found.2.heldPackers, p.tmpfile.closed = false ∧ p.area ≤ p.tmpfile.position ∧
        p.tmpfile.position = p.tmpfile.content.length) ∧
      ((found.2.pm .invalid).locked = false ∧ (found.2.pm .data).locked = false ∧
        (found.2.pm .tree).locked = false) ∧
      (found.2.heldPackers.map ((hashedRepo (some id)).packID sampleNonce)).Nodup ∧
      ∀ p ∈ found.2.heldPackers,
        (hashedRepo (some id)).packID sampleNonce p ∉ found.2.packs.names) (by decide +kernel)
  have hheld := heldKept_sample (some id) (fun p hp => mem_singleton.mp hp)
  obtain ⟨hall, hexists⟩ := (flush_again hheld nofun hfirst).1 fun p hp =>
    ⟨(hrepeatable p hp).1, (hrepeatable p hp).2.1, Or.inr (hrepeatable p hp).2.2⟩
  obtain ⟨s₂, hsecond⟩ := hexists sampleNonce rfl (by rintro (_ | _ | _) <;> assumption) hfresh
  exact ⟨s₁, s₂, hfirst, hsecond, (hall _ _ hsecond).2⟩

instance decidableWorks (op : Op) (res : op.Res) : Decidable (Works (fun _ => True) op res) := by
  cases op <;> unfold Works <;> infer_instance

def works : Playback (system.restrict (Works fun _ => True)) :=
  (playback sampleNonce fun _ _ => none).restrict _

/-- The upload of the second packer is rejected. -/
theorem not_flush_again :
    ¬ ∀ (r : Repo) (s s₁ s₂ : RepoState) (err : Option SaveError),
      HeldKept r s → (∀ pb ∈ s.idx.content, pb.packID ∈ s.packs.names) →
      Runs system r.flushPacks s (some .savePack) s₁ →
      Runs (system.restrict (Works fun _ => True)) r.flushPacks s₁ err s₂ →
      err = none ∧ ListedOnce s s₂ := by
  intro hall
  have hheld : HeldKept sampleRepo (samplePackers [samplePacker, samplePacker]) :=
    heldKept_sample none (by simp)
  -- nothing can be written to the file of the first packer
  obtain ⟨err, s₁, hfirst, rfl, hsecond⟩ := exists_runs
    (playback sampleNonce (rejects 1 0)) sampleRepo.flushPacks
    (samplePackers [samplePacker, samplePacker]) (fun found => found.1 = some .savePack ∧
      ((sampleRepo.flushPacks.play works found.2).any (·.1 ≠ none))) (by decide +kernel)
  obtain ⟨err, s₂, hsecond, herr⟩ := exists_runs works _ _ _ hsecond
  exact herr (hall _ _ _ _ _ hheld nofun hfirst hsecond).1

end Rapi.Repository
