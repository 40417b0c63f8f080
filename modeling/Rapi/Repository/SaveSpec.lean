import Rapi.Repository.Preservation

/-!
# What the calls leave behind

The programs keep `Sound`, whatever the other calls do at the same time and
whatever fails.  A call that succeeds owns nothing in the end but the
announcement of its blob.  A call that fails before `StorePack` keeps the blobs
it carried: they stay pending, but are in no packer that anyone will save.
-/

namespace Rapi.Repository

open Foundation Crypto Restic Multiset Logic MasterIndex
open RepoState (heldIn)

/-- The failures after which the blobs of the packer are not in the index. -/
def SaveError.beforeStore : SaveError → Bool
  | .saveIndex => false
  | .mergeIndexes _ => false
  | _ => true

/-- The failures after which the file of the packer is still open. -/
def SaveError.beforeUpload : SaveError → Bool
  | .finalize _ => true
  | .seek => true
  | .savePack => true
  | _ => false

variable {c : Setting} {r : Repo}

@[simp] theorem busy_iff {m : Multiset Token} : (logic c).busy m ↔ .broken ∉ m := Iff.rfl

variable {s s' : RepoState} {m frame : Multiset Token} {err : SaveError}
  {p : Packer} {id : ID} {t : BlobType}

theorem wp_panicked {α : Type} {Q : α → RepoState → Multiset Token → Prop}
    (hbusy : (logic c).busy m) : (logic c).wp system panicked Q s m :=
  ⟨hbusy, fun _ _ _ _ _ _ hexec => hexec.elim⟩

/-- What a call keeps, depending on its failure. -/
structure SavePost (err : Option SaveError) (m : Multiset Token) : Prop where
  success : err = none → m = 0
  stored : ∀ failure, err = some failure → failure.beforeStore = false → heldBy m = 0
  unbroken : .broken ∉ m
  indexed : err ≠ some .saveIndex → ∀ idx, .index idx ∉ m

theorem SavePost.nothing : SavePost none 0 := ⟨fun _ => rfl, nofun, by simp, by simp⟩

/-! ## Saving indexes -/

def IndexPost (err : Option SaveError) (_ : RepoState) (m : Multiset Token) : Prop :=
  SavePost err m ∧ ∀ failure, err = some failure → failure.beforeStore = false

private theorem indexPost_saveIndex (indexes : List Index) (s : RepoState) :
    IndexPost (some .saveIndex) s (indexes.map Token.index : List Token) := by
  refine ⟨⟨nofun, fun _ _ _ => ?_, by simp, by simp⟩, ?_⟩
  · rw [heldBy, ← map_coe, bind_map]
    simp
  · rintro _ ⟨⟩
    rfl

theorem wp_saveIndexes (indexes : List Index) (s : RepoState) :
    (logic c).wp system (saveIndexes indexes) IndexPost s
      (indexes.map Token.index : List Token) := by
  induction indexes generalizing s with
  | nil =>
    refine wp_perform (by simp) fun s₁ frame _ hinv res s' hexec => ?_
    obtain ⟨mi, hmerge, hpending, hle, hmem, hfinal, hopen⟩ := s₁.idx.mergeFinalIndexes_spec
    simp only [system, exec, hmerge] at hexec
    obtain ⟨rfl, rfl⟩ := hexec
    refine ⟨0, ?_, ?_, ?_⟩
    · rw [List.map_nil, coe_nil, zero_add] at hinv
      have hnone : ∀ idx ∈ ([] : List Index), ∀ pb ∈ idx.content,
          s₁.idx.InOpen pb := nofun
      exact Sound.reindex hinv hpending hle hmem
        (fun pb hpb => Or.inl ((hfinal pb).mp hpb)) (fun pb => (hopen pb).mp) hnone
    · exact Later.of_idx (keeps_mergeFinalIndexes hmerge)
    · exact wp_pure fun _ _ => ⟨.nothing, nofun⟩
  | cons idx rest ih =>
    unfold saveIndexes
    cases hencode : idx.encode with
    | none => exact wp_panicked (by simp)
    | some file =>
      refine wp_perform (by simp) fun s₁ frame _ hinv res s' hexec => ?_
      rcases hexec with ⟨id, hfresh, rfl⟩ | ⟨rfl, rfl⟩
      · refine ⟨(rest.map Token.index : List Token), ?_, ?_, ?_⟩
        · rw [List.map_cons, ← cons_coe, cons_add] at hinv
          exact Sound.saveIndexFile hinv hencode id
        · exact ⟨fun _ h => h, fun _ h => h, fun _ _ h => h, fun _ => List.mem_cons_of_mem _⟩
        · split
          · exact wp_pure fun s _ => indexPost_saveIndex rest s
          · exact ih _
      · refine ⟨_, hinv, Later.refl _, ?_⟩
        exact wp_pure fun s _ => indexPost_saveIndex (idx :: rest) s

private theorem wp_finalized {op : Op} {f : op.Res → RepoM (Option SaveError)}
    (hop : ∀ s₁ res s', exec op s₁ res s' → ∃ condition chosen mi,
      s₁.idx.finalizeIf condition = (chosen, mi) ∧ s' = { s₁ with idx := mi } ∧
      f res = saveIndexes chosen) : (logic c).wp system (Prog.perform op >>= f) IndexPost s 0 := by
  refine wp_perform (by simp) fun s₁ frame _ hinv res s' hexec => ?_
  obtain ⟨condition, chosen, mi, hchosen, rfl, hf⟩ := hop s₁ res s' hexec
  obtain ⟨hcontent, hpending, hfinal, -⟩ := finalizeIf_spec condition hchosen
  refine ⟨(chosen.map Token.index : List Token), ?_, ?_, ?_⟩
  · rw [zero_add] at hinv
    refine Sound.reindex hinv hpending (by rw [hcontent])
      (fun pb => by rw [hcontent]) (fun pb => (hfinal pb).mp) ?_ ?_
    · exact fun pb hpb => inOpen_finalizeIf hchosen (Or.inl hpb)
    · exact fun idx hidx pb hpb => inOpen_finalizeIf hchosen (Or.inr ⟨idx, hidx, hpb⟩)
  · exact Later.of_idx (keeps_finalizeIf condition hchosen)
  · rw [hf]
    exact wp_saveIndexes chosen _

theorem wp_saveFullIndex (s : RepoState) : (logic c).wp system saveFullIndex IndexPost s 0 := by
  refine wp_finalized ?_
  rintro s₁ chosen s' ⟨now, mi, hchosen, rfl⟩
  exact ⟨Index.indexFull now, chosen, mi, hchosen, rfl, rfl⟩

theorem wp_saveIndex (s : RepoState) : (logic c).wp system saveIndex IndexPost s 0 := by
  refine wp_finalized ?_
  rintro s₁ chosen s' ⟨mi, hchosen, rfl⟩
  exact ⟨fun _ => true, chosen, mi, hchosen, rfl, rfl⟩

/-! ## Saving packers -/

/-- A packer that was not stored is given up, in whatever state it is. -/
structure PackerPost (result : Packer × Option SaveError) (_ : RepoState)
    (m : Multiset Token) : Prop where
  save : SavePost result.2 m
  dropped : ∀ failure, result.2 = some failure → failure.beforeStore → m = {.dropped result.1}
  closed : (∀ failure, result.2 = some failure →
    failure.beforeUpload = false) → result.1.tmpfile.closed

private theorem packerPost_dropped (p : Packer) (hbefore : err.beforeStore)
    (hclosed : err.beforeUpload = false → p.tmpfile.closed) :
    PackerPost (p, some err) s {.dropped p} := by
  refine ⟨⟨nofun, ?_, by simp, by simp⟩, fun _ _ _ => rfl, fun hall => ?_⟩
  · rintro _ ⟨⟩ hstored
    rw [hbefore] at hstored
    cases hstored
  · exact hclosed (hall err rfl)

private theorem Sound.dropFinished (h : Sound c s ({.finished p} + frame)) (p' : Packer)
    (hhandles : p'.handles = p.handles) : Sound c s ({.dropped p'} + frame) :=
  h.drop p' (by simp [hhandles]) (by simp) (by simp) (by simp) (by simp) (by simp)

theorem wp_storePacker (hid : id ∉ c.start.packs.names)
    (hload : s.packs.load id = some p.tmpfile.content) :
    (logic c).wp system (r.storePacker id p) PackerPost s {.finished p} := by
  refine wp_perform (by simp) fun s₁ frame hs₁ hinv closeFault s' hexec => ?_
  cases hexec
  cases closeFault with
  | true =>
    refine ⟨_, Sound.dropFinished hinv p.close rfl, Later.refl _, ?_⟩
    exact wp_pure fun _ _ => packerPost_dropped _ rfl fun _ => rfl
  | false =>
    refine ⟨_, hinv, Later.refl _, ?_⟩
    refine wp_perform (by simp) fun s₂ frame hs₂ hinv removeFault s' hexec => ?_
    cases hexec
    cases removeFault with
    | true =>
      refine ⟨_, Sound.dropFinished hinv p.close rfl, Later.refl _, ?_⟩
      exact wp_pure fun _ _ => packerPost_dropped _ rfl fun _ => rfl
    | false =>
      refine ⟨_, hinv, Later.refl _, ?_⟩
      refine wp_perform (by simp) fun s₃ frame hs₃ hinv _ s' hexec => ?_
      obtain ⟨seed, now, mi, hstore, rfl⟩ := hexec
      have hload₃ : s₃.packs.load id = some p.tmpfile.content :=
        hs₃.packs _ _ (hs₂.packs _ _ (hs₁.packs _ _ hload))
      refine ⟨0, ?_, Later.storePack (Index.content_new seed now) hstore, ?_⟩
      · rw [zero_add]
        exact Sound.storePack hinv (Index.content_new seed now) hid hload₃ hstore
      · split
        · exact wp_pure fun _ _ => ⟨.nothing, nofun, fun _ => rfl⟩
        · refine wp_bind (wp_mono (wp_saveFullIndex _) ?_)
          rintro err s₄ m' _ ⟨hsave, hfailed⟩
          refine wp_pure fun _ _ => ⟨hsave, ?_, fun _ => rfl⟩
          intro failure herr hbefore
          rw [hfailed failure herr] at hbefore
          cases hbefore

private theorem Sound.finalizePacker {p' : Packer} {nonce : Nonce}
    {headerFault lengthFault : Pack.WriteFault} {bytesWritten : Nat}
    (h : Sound c s ({.packer p} + frame)) (hclosed : p.tmpfile.closed → headerFault = some 0)
    (hfinalize : p.finalize c.key nonce headerFault lengthFault = (p', .ok bytesWritten)) :
    Sound c s ({.finished p'} + frame) := by
  have hhandles := Packer.handles_finalize hfinalize
  refine h.transfer rfl rfl rfl ?_ ?_ fun hcarried => ?_
  · simp [hhandles]
  · constructor <;> simp
  · refine ⟨hcarried.listed, by simp, fun q hq => ?_⟩
    obtain rfl : q = p' := by simpa using hq
    rcases hcarried.packer p (by simp) with hp | hp
    · have hfault := hclosed hp
      rw [Packer.finalize_closed hfinalize] at hfault
      cases hfault
    · exact hp.finalize hfinalize

theorem wp_savePacker (hkey : c.key = r.key) :
    (logic c).wp system (r.savePacker p) PackerPost s {.packer p} := by
  refine wp_perform (by simp) fun s₁ frame _ hinv nonce s' hexec => ?_
  cases hexec
  refine ⟨_, hinv, Later.refl _, ?_⟩
  refine wp_perform (by simp) fun s₂ frame _ hinv headerFault s' hexec => ?_
  obtain ⟨hclosed, rfl⟩ := hexec
  refine ⟨_, hinv, Later.refl _, ?_⟩
  refine wp_perform (by simp) fun s₃ frame _ hinv lengthFault s' hexec => ?_
  obtain ⟨-, rfl⟩ := hexec
  cases hfinalize : p.finalize r.key nonce headerFault lengthFault with
  | mk p' result =>
    cases result with
    | error err =>
      refine ⟨{.dropped p'}, ?_, Later.refl _, ?_⟩
      · exact Sound.drop hinv p' (by simp [Packer.handles_finalize hfinalize])
          (by simp) (by simp) (by simp) (by simp) (by simp)
      · exact wp_pure fun _ _ => packerPost_dropped _ rfl fun h => by cases h
    | ok bytesWritten =>
      rw [← hkey] at hfinalize
      refine ⟨_, Sound.finalizePacker hinv hclosed hfinalize, Later.refl _, ?_⟩
      refine wp_perform (by simp) fun s₄ frame _ hinv seekFault s' hexec => ?_
      obtain ⟨-, rfl⟩ := hexec
      cases seekFault with
      | some position =>
        refine ⟨_, Sound.dropFinished hinv (p'.seekTo position) rfl, Later.refl _, ?_⟩
        exact wp_pure fun _ _ => packerPost_dropped _ rfl fun h => by cases h
      | none =>
        refine ⟨_, hinv, Later.refl _, ?_⟩
        refine wp_perform (by simp) fun s₅ frame _ hinv fault s' hexec => ?_
        have hsaved : ∀ content, r.hash p'.packer.wr ∉ s₅.packs.names → Later s₅ { s₅ with
              packs := s₅.packs.save (r.hash p'.packer.wr) content } :=
          fun _ hfresh => ⟨fun _ h => h, fun _ h => h,
            fun _ _ => Store.load_save_of_load hfresh, fun _ h => h⟩
        rcases hexec with ⟨rfl, hfresh, -, rfl⟩ | ⟨hfault, hleft⟩
        · refine ⟨_, Sound.savePack hinv hfresh, hsaved _ hfresh,
            wp_storePacker (fun hold => ?_) (by simp)⟩
          exact hfresh (Sound.old hinv _ hold)
        · obtain ⟨position, rfl⟩ := Option.isSome_iff_exists.mp hfault
          have hdropped := Sound.dropFinished hinv (p'.seekTo position) rfl
          rcases hleft with rfl | ⟨hfresh, part, rfl⟩
          · refine ⟨_, hdropped, Later.refl _, ?_⟩
            exact wp_pure fun _ _ => packerPost_dropped _ rfl fun h => by cases h
          · refine ⟨_, hdropped.savePack hfresh, hsaved _ hfresh, ?_⟩
            exact wp_pure fun _ _ => packerPost_dropped _ rfl fun h => by cases h

/-! ## Saving blobs -/

theorem takePacker_some {packers rest : List Packer} (h : takePacker packers = some (p, rest)) :
    (packers : Multiset Packer) = p ::ₘ (rest : Multiset Packer) := by
  unfold takePacker at h
  split at h
  · cases h
  · rename_i first others
    split at h
    · rename_i hnone
      cases h
      rw [List.getLast?_eq_none_iff.mp hnone]
      rfl
    · rename_i last hlast
      cases h
      obtain ⟨front, rfl⟩ := List.getLast?_eq_some_iff.mp hlast
      rw [List.dropLast_concat, cons_coe, coe_eq_coe]
      exact List.Perm.cons _ List.perm_append_comm

private theorem Sound.findPacker (ht : t ≠ .invalid) {bh : BlobHandle}
    (h : Sound c s ({.blob bh} + frame)) (hexec : exec (.findPacker t) s (some p) s') :
    Sound c s' ((.packer p ::ₘ {.blob bh}) + frame) ∧ Later s s' := by
  obtain ⟨-, hexec⟩ := hexec
  cases htake : takePacker (s.pm t).packers with
  | none =>
    simp only [htake, Option.some.injEq, reduceCtorEq, or_false] at hexec
    obtain ⟨rfl, rfl⟩ := hexec
    refine ⟨?_, Later.refl _⟩
    refine h.transfer rfl rfl rfl ?_ ?_ fun hcarried => ?_
    · simp [Packer.handles, Packer.new, Pack.Packer.new]
    · constructor <;> simp
    · refine ⟨hcarried.listed, fun q hq => ?_, by simp⟩
      obtain rfl : q = .new := by simpa using hq
      exact Or.inr Setting.Intact.new
  | some taken =>
    obtain ⟨first, rest⟩ := taken
    simp only [htake, Option.some.injEq] at hexec
    obtain ⟨rfl, rfl⟩ := hexec
    have hopen : s.openPackers = p ::ₘ (s.setManager t ⟨rest, false⟩).openPackers := by
      have hset := s.openPackers_setManager ht rest false
      rw [takePacker_some htake, add_cons, ← cons_add] at hset
      exact (add_right_cancel hset).symm
    refine ⟨?_, Later.of_eq rfl rfl rfl⟩
    refine h.transfer rfl rfl rfl ?_ ?_ fun hcarried => ?_
    · rw [heldIn, heldIn, hopen, cons_bind, heldBy_cons]
      simp only [Token.held]
      abel
    · constructor <;> simp
    · refine ⟨fun q hq => ?_, fun q hq => ?_, by simp⟩
      · exact hcarried.listed q (by simp [hopen, hq])
      · obtain rfl : q = p := by simpa using hq
        exact hcarried.listed q (by simp [hopen])

private theorem Sound.addToPacker {bh : BlobHandle} {p' : Packer}
    (h : Sound c s ((.packer p ::ₘ {.blob bh}) + frame))
    (hhandles : p'.handles = bh ::ₘ p.handles) (hopen : p.tmpfile.closed = false)
    (hintact : c.Intact p → c.Intact p') : Sound c s ({.packer p'} + frame) := by
  refine h.transfer rfl rfl rfl ?_ ?_ fun hcarried => ?_
  · simp [hhandles, add_comm]
  · constructor <;> simp
  · refine ⟨hcarried.listed, fun q hq => ?_, by simp⟩
    obtain rfl : q = p' := by simpa using hq
    rcases hcarried.packer p (by simp) with hp | hp
    · rw [hopen] at hp
      cases hp
    · exact Or.inr (hintact hp)

private theorem openPackers_append (ht : t ≠ .invalid) (s : RepoState) (packers : List Packer) :
    (s.setManager t ⟨(s.pm t).packers ++ packers, false⟩).openPackers =
      packers + s.openPackers := by
  have hset := s.openPackers_setManager ht ((s.pm t).packers ++ packers) false
  rw [← coe_add, add_comm (((s.pm t).packers : Multiset Packer)), ← add_assoc] at hset
  rw [add_right_cancel hset, add_comm]

private theorem Sound.insertPacker (ht : t ≠ .invalid) (h : Sound c s ({.packer p} + frame))
    (hexec : exec (.insertPacker t p) s () s') : Sound c s' (0 + frame) ∧ Later s s' := by
  obtain ⟨-, rfl⟩ := hexec
  have hopen := openPackers_append ht s [p]
  refine ⟨?_, Later.of_eq rfl rfl rfl⟩
  refine h.transfer rfl rfl rfl ?_ ?_ fun hcarried => ?_
  · rw [heldIn, heldIn, hopen, add_bind]
    simp [add_comm]
  · constructor <;> simp
  · refine ⟨fun q hq => ?_, by simp, by simp⟩
    rw [hopen, mem_add] at hq
    rcases hq with hq | hq
    · obtain rfl : q = p := by simpa using hq
      exact hcarried.packer q (by simp)
    · exact hcarried.listed q hq

private theorem savePost_failed (hbefore : err.beforeStore) (hunbroken : .broken ∉ m)
    (hindexed : ∀ idx, .index idx ∉ m) : SavePost (some err) m := by
  refine ⟨nofun, ?_, hunbroken, fun _ => hindexed⟩
  rintro _ ⟨⟩ hstored
  rw [hbefore] at hstored
  cases hstored

theorem wp_saveAndEncrypt {data : Bytes} (hkey : c.key = r.key) (hpassed : c.passed ⟨id, t⟩ data) :
    (logic c).wp system (r.saveAndEncrypt t data id)
      (fun err _ m => SavePost err m) s {.blob ⟨id, t⟩} := by
  refine wp_perform (by simp) fun s₁ frame _ hinv nonce s' hexec => ?_
  cases hexec
  refine ⟨_, hinv, Later.refl _, ?_⟩
  split
  · exact wp_panicked (by simp)
  rename_i ht
  refine wp_perform (by simp) fun s₂ frame _ hinv found s' hexec => ?_
  cases found with
  | none =>
    obtain ⟨-, hexec⟩ := hexec
    split at hexec
    · cases hexec.1
    · obtain ⟨-, rfl⟩ := hexec
      refine ⟨_, hinv, Later.refl _, wp_pure fun _ _ => ?_⟩
      exact savePost_failed rfl (by simp) (by simp)
  | some p =>
    obtain ⟨hinv', hlater⟩ := Sound.findPacker ht hinv hexec
    refine ⟨_, hinv', hlater, ?_⟩
    refine wp_perform (by simp) fun s₃ frame _ hinv fault s' hexec => ?_
    obtain ⟨hclosed, rfl⟩ := hexec
    cases hadd : p.add t id (r.key.encrypt nonce data) fault with
    | mk p' err =>
      cases err with
      | some err =>
        refine ⟨_, hinv, Later.refl _, wp_pure fun _ _ => ?_⟩
        exact savePost_failed rfl (by simp) (by simp)
      | none =>
        rw [← hkey] at hadd
        have hopen : p.tmpfile.closed = false := by
          refine Bool.eq_false_iff.mpr fun hp => ?_
          have hfault := hclosed hp
          rw [(Packer.add_spec hadd).1] at hfault
          cases hfault
        refine ⟨_, Sound.addToPacker hinv (Packer.handles_add hadd) hopen
          fun hintact => hintact.add hpassed hadd, Later.refl _, ?_⟩
        dsimp only
        split
        · refine wp_perform (by simp) fun s₄ frame _ hinv _ s' hexec => ?_
          obtain ⟨hinv', hlater⟩ := Sound.insertPacker ht hinv hexec
          refine ⟨_, hinv', hlater, ?_⟩
          exact wp_pure fun _ _ => .nothing
        · refine wp_bind (wp_mono (wp_savePacker hkey) ?_)
          rintro ⟨p, err⟩ s₄ m' _ hpost
          exact wp_pure fun _ _ => hpost.save

/-- The tokens of a call that has accepted its blob. -/
def accepted (bh : BlobHandle) (storeDuplicate known : Bool) : Multiset Token :=
  if known then if storeDuplicate then {.duplicate bh} else 0
  else {.announced bh}

section Accepted

variable (bh : BlobHandle) (storeDuplicate known : Bool)

@[simp] theorem heldBy_accepted : heldBy (accepted bh storeDuplicate known) = 0 := by
  cases known <;> cases storeDuplicate <;> rfl

@[simp] theorem broken_accepted : .broken ∉ accepted bh storeDuplicate known := by
  cases known <;> cases storeDuplicate <;> simp [accepted]

@[simp] theorem index_accepted (idx : Index) : .index idx ∉ accepted bh storeDuplicate known := by
  cases known <;> cases storeDuplicate <;> simp [accepted]

end Accepted

/-- The blob is known from now on. -/
structure BlobPost (bh : BlobHandle) (storeDuplicate : Bool) (result : ID × Bool × Option SaveError)
    (s : RepoState) (m : Multiset Token) : Prop where
  id : result.1 = bh.id
  has : s.idx.has bh
  left : ∃ used, SavePost result.2.2 used ∧
    m = used + accepted bh storeDuplicate result.2.1

section BlobPost

variable {bh : BlobHandle} {storeDuplicate : Bool}
  {result : ID × Bool × Option SaveError} {s : RepoState} {m : Multiset Token}
  (h : BlobPost bh storeDuplicate result s m)
include h

theorem BlobPost.accepted (hnone : result.2.2 = none) :
    m = accepted bh storeDuplicate result.2.1 := by
  obtain ⟨used, hsave, rfl⟩ := h.left
  rw [hsave.success hnone, zero_add]

theorem BlobPost.stored (hstored : ∀ failure, result.2.2 = some failure →
    failure.beforeStore = false) : heldBy m = 0 := by
  obtain ⟨used, hsave, rfl⟩ := h.left
  rw [heldBy_add, heldBy_accepted, add_zero]
  cases herr : result.2.2 with
  | none => simp [hsave.success herr]
  | some failure => exact hsave.stored failure herr (hstored failure herr)

theorem BlobPost.unbroken : .broken ∉ m := by
  obtain ⟨used, hsave, rfl⟩ := h.left
  simpa using hsave.unbroken

theorem BlobPost.indexed (herr : result.2.2 ≠ some .saveIndex) (idx : Index) : .index idx ∉ m := by
  obtain ⟨used, hsave, rfl⟩ := h.left
  simpa using hsave.indexed herr idx

end BlobPost

theorem wp_saveBlob {buf : Bytes} {newID : ID} {storeDuplicate : Bool} (hkey : c.key = r.key)
    (hid : newID = if id.isNull then r.hash buf else id) (hpassed : c.passed ⟨newID, t⟩ buf)
    (hduplicate : storeDuplicate → ¬ c.fresh ⟨newID, t⟩) :
    (logic c).wp system (r.saveBlob t buf id storeDuplicate)
      (BlobPost ⟨newID, t⟩ storeDuplicate) s 0 := by
  unfold Repo.saveBlob
  subst hid
  dsimp only
  generalize (if id.isNull then r.hash buf else id) = newID at *
  refine wp_perform (by simp) fun s₁ frame _ hinv new s' hexec => ?_
  obtain ⟨mi, hadd, rfl⟩ := hexec
  rw [zero_add] at hinv
  -- what is done with the blob while its acceptance is set aside
  have hsave : ∀ known s, s.idx.has ⟨newID, t⟩ → (logic c).wp system
        (r.saveAndEncrypt t buf newID >>= fun err =>
          pure (newID, known, err)) (BlobPost ⟨newID, t⟩ storeDuplicate) s
        ({.blob ⟨newID, t⟩} + accepted ⟨newID, t⟩ storeDuplicate known) := by
    intro known s hhas
    refine wp_bind (wp_mono (wp_frame (wp_saveAndEncrypt hkey hpassed) (by simp)) ?_)
    rintro err s₂ _ hs₂ ⟨used, rfl, hused⟩
    refine wp_pure fun s₃ hs₃ => ⟨rfl, ?_, used, hused, rfl⟩
    exact hs₃.has _ (hs₂.has _ hhas)
  obtain ⟨-, -, ⟨rfl, hhas, rfl⟩ | ⟨rfl, hhas, hpending⟩⟩ := addPending_spec hadd
  · cases storeDuplicate with
    | false =>
      refine ⟨0, by rwa [zero_add], Later.refl _, ?_⟩
      refine wp_pure fun s' hlater => ⟨rfl, ?_, 0, .nothing, rfl⟩
      exact hlater.has _ hhas
    | true => exact ⟨_, Sound.duplicate hinv (hduplicate rfl), Later.refl _, hsave true _ hhas⟩
  · have hknown : mi.has ⟨newID, t⟩ := by
      rw [has_iff, hpending]
      exact Or.inl (Finset.mem_insert_self _ _)
    exact ⟨_, Sound.addPending hinv hadd,
      Later.of_idx (keeps_addPending hadd), hsave false _ hknown⟩

/-! ## Flushing -/

private theorem heldBy_packers (packers : List Packer) :
    heldBy (packers.map Token.packer : List Token) =
      (packers : Multiset Packer).bind Packer.handles := by
  rw [heldBy, ← map_coe, bind_map]
  rfl

private theorem duties_packers (packers : List Packer) :
    Duties 0 (packers.map Token.packer : List Token) := by
  constructor
  · rw [announcedBy, ← map_coe, bind_map]
    simp
  · rw [savedBy, ← map_coe, bind_map]
    simp
  · simp
  · simp
  · simp

/-- The packers of the list after the first failure, and what is still owned. -/
structure PackersPost (result : List Packer × Option SaveError) (m : Multiset Token) : Prop where
  success : result.2 = none → m = 0
  held : ∀ bh ∈ heldBy m, ∃ p ∈ result.1, bh ∈ p.handles
  unbroken : .broken ∉ m
  indexed : result.2 ≠ some .saveIndex → ∀ idx, .index idx ∉ m
  intact : (∀ failure, result.2 = some failure → failure.beforeUpload = false) →
    ∀ p ∈ result.1, p.tmpfile.closed ∨ .packer p ∈ m

private theorem PackerPost.packers {rest : List Packer} (h : PackerPost (p, some err) s m) :
    PackersPost (p :: rest, some err) (m + (rest.map Token.packer : List Token)) := by
  refine ⟨nofun, fun bh hbh => ?_, ?_, fun herr idx hidx => ?_, fun hall q hq => ?_⟩
  · rw [heldBy_add, mem_add, heldBy_packers] at hbh
    rcases hbh with hbh | hbh
    · cases hbefore : err.beforeStore with
      | true =>
        rw [h.dropped err rfl hbefore] at hbh
        exact ⟨p, by simp, by simpa using hbh⟩
      | false =>
        rw [h.save.stored err rfl hbefore] at hbh
        simp at hbh
    · obtain ⟨q, hq, hbh⟩ := mem_bind.mp hbh
      exact ⟨q, List.mem_cons_of_mem _ hq, hbh⟩
  · simpa using h.save.unbroken
  · exact h.save.indexed herr idx (by simpa using hidx)
  · rcases List.mem_cons.mp hq with rfl | hq
    · exact Or.inl (h.closed hall)
    · exact Or.inr (by simp [hq])

theorem wp_savePackers (hkey : c.key = r.key) (packers : List Packer) (s : RepoState) :
    (logic c).wp system (r.savePackers packers) (fun result _ m => PackersPost result m) s
      (packers.map Token.packer : List Token) := by
  induction packers generalizing s with
  | nil => exact wp_pure fun _ _ => ⟨fun _ => rfl, by simp, by simp, by simp, by simp⟩
  | cons p rest ih =>
    rw [List.map_cons, ← cons_coe, ← singleton_add]
    refine wp_bind (wp_mono (wp_frame (wp_savePacker hkey) (by simp)) ?_)
    rintro ⟨p', err⟩ s₁ _ _ ⟨used, rfl, hused⟩
    cases err with
    | some err => exact wp_pure fun _ _ => hused.packers
    | none =>
      rw [hused.save.success rfl, zero_add]
      refine wp_bind (wp_mono (ih s₁) ?_)
      rintro ⟨rest', err⟩ s₂ m' _ hrest
      refine wp_pure fun _ _ => ⟨hrest.success, fun bh hbh => ?_,
        hrest.unbroken, hrest.indexed, fun hall q hq => ?_⟩
      · obtain ⟨q, hq, hbh⟩ := hrest.held bh hbh
        exact ⟨q, List.mem_cons_of_mem _ hq, hbh⟩
      · rcases List.mem_cons.mp hq with rfl | hq
        · exact Or.inl (hused.closed nofun)
        · exact hrest.intact hall q hq

private theorem Sound.lockPackers (ht : t ≠ .invalid) {packers : List Packer}
    (h : Sound c s (0 + frame)) (hexec : exec (.lockPackers t) s packers s') :
    Sound c s' ((packers.map Token.packer : List Token) + frame) ∧ Later s s' := by
  obtain ⟨-, rfl, rfl⟩ := hexec
  have hopen := s.openPackers_setManager ht [] true
  rw [coe_nil, add_zero] at hopen
  refine ⟨?_, Later.of_eq rfl rfl rfl⟩
  refine h.transfer rfl rfl rfl ?_ (duties_packers _) fun hcarried => ?_
  · rw [heldIn, heldIn, heldBy_packers,
      ← add_bind, hopen, heldBy_zero, add_zero]
  · refine ⟨fun p hp => ?_, fun p hp => ?_, by simp⟩
    · refine hcarried.listed p ?_
      rw [← hopen]
      exact mem_add.mpr (Or.inl hp)
    · refine hcarried.listed p ?_
      rw [← hopen]
      exact mem_add.mpr (Or.inr (by simpa using hp))

/-- What a flush leaves, depending on its failure. -/
structure FlushPost (err : Option SaveError) (m : Multiset Token) : Prop where
  held : heldBy m = 0
  success : err = none → m = 0
  unbroken : (∀ failure, err = some failure → failure.beforeUpload = false) → .broken ∉ m
  indexed : err ≠ some .saveIndex → ∀ idx, .index idx ∉ m

theorem FlushPost.nothing : FlushPost none 0 := ⟨rfl, fun _ => rfl, by simp, by simp⟩

private theorem Sound.unlockPackers (ht : t ≠ .invalid) {packers : List Packer}
    (h : Sound c s (m + frame)) (hpost : PackersPost (packers, some err) m)
    (hexec : exec (.unlockPackers t packers) s () s') :
    ∃ m', Sound c s' (m' + frame) ∧ FlushPost (some err) m' ∧ Later s s' := by
  cases hexec
  have hopen := openPackers_append ht s packers
  let marks : Multiset Token := .miscounted ::ₘ if err.beforeUpload then {.broken} else 0
  have hbroken : .broken ∈ marks ↔ err.beforeUpload := by
    cases hbefore : err.beforeUpload <;> simp [marks, hbefore]
  have hindex : ∀ idx, .index idx ∉ marks := by
    cases hbefore : err.beforeUpload <;> simp [marks, hbefore]
  have hempty : heldBy marks = 0 ∧ savedBy marks = 0 := by
    cases hbefore : err.beforeUpload <;> simp [marks, hbefore]
  refine ⟨marks + m.filter (·.held = 0), ?_, ⟨?_, by rintro ⟨⟩, ?_, ?_⟩, Later.of_eq rfl rfl rfl⟩
  · refine h.recount rfl rfl rfl ?_ ?_ ?_ ?_ (by simp [marks]) ?_
    · intro bh hbh
      rw [heldIn, hopen]
      simp only [add_bind, mem_add] at hbh ⊢
      rcases hbh with hbh | hbh
      · exact Or.inl (Or.inr hbh)
      · exact Or.inl (Or.inl (mem_bind.mpr (hpost.held bh hbh)))
    · intro bh hbh
      rw [savedBy_add, hempty.2, zero_add] at hbh
      obtain ⟨token, htoken, hbh⟩ := mem_bind.mp hbh
      exact mem_bind.mpr ⟨token, (mem_filter.mp htoken).1, hbh⟩
    · intro idx
      rw [mem_add, mem_filter]
      exact ⟨fun hidx => (hidx.resolve_left (hindex idx)).1, fun hidx => Or.inr ⟨hidx, rfl⟩⟩
    · exact fun hmem => absurd hmem hpost.unbroken
    · intro hnot hcarried
      refine ⟨fun p hp => ?_, fun p hp => ?_, fun p hp => ?_⟩
      · rw [hopen, mem_add] at hp
        rcases hp with hp | hp
        · have hupload : err.beforeUpload = false := by
            refine Bool.eq_false_iff.mpr fun hbefore => hnot ?_
            exact mem_add.mpr (Or.inl (hbroken.mpr hbefore))
          have hall : ∀ failure, some err = some failure → failure.beforeUpload = false := by
            rintro _ ⟨⟩
            exact hupload
          refine (hpost.intact hall p hp).elim Or.inl fun hp => ?_
          exact hcarried.packer p (by simp [hp])
        · exact hcarried.listed p hp
      · have hmarks : .packer p ∉ marks := by
          cases hbefore : err.beforeUpload <;> simp [marks, hbefore]
        refine hcarried.packer p (mem_add.mpr (Or.inl ?_))
        rw [mem_add, mem_filter] at hp
        exact (hp.resolve_left hmarks).1
      · have hmarks : .finished p ∉ marks := by
          cases hbefore : err.beforeUpload <;> simp [marks, hbefore]
        refine hcarried.finished p (mem_add.mpr (Or.inl ?_))
        rw [mem_add, mem_filter] at hp
        exact (hp.resolve_left hmarks).1
  · rw [heldBy_add, hempty.1, zero_add, heldBy, bind_congr
      (fun token htoken => (mem_filter.mp htoken).2), bind_zero]
  · intro hall hmem
    rw [mem_add, mem_filter, hbroken, hall err rfl] at hmem
    exact hmem.elim (by rintro ⟨⟩) fun hmem => hpost.unbroken hmem.1
  · intro herr idx hidx
    rw [mem_add, mem_filter] at hidx
    exact hidx.elim (hindex idx) fun hidx => hpost.indexed herr idx hidx.1

theorem wp_flushManager (hkey : c.key = r.key) (ht : t ≠ .invalid) (s : RepoState) :
    (logic c).wp system (r.flushManager t) (fun err _ m => FlushPost err m) s 0 := by
  refine wp_perform (by simp) fun s₁ frame _ hinv packers s' hexec => ?_
  obtain ⟨hinv', hlater⟩ := Sound.lockPackers ht hinv hexec
  refine ⟨_, hinv', hlater, ?_⟩
  refine wp_bind (wp_mono (wp_savePackers hkey packers _) ?_)
  rintro ⟨packers', err⟩ s₂ m _ hpost
  cases err with
  | some err =>
    refine wp_perform hpost.unbroken fun s₃ frame _ hinv _ s' hexec => ?_
    obtain ⟨m', hinv', hpost', hlater⟩ := Sound.unlockPackers ht hinv hpost hexec
    exact ⟨m', hinv', hlater, wp_pure fun _ _ => hpost'⟩
  | none =>
    obtain rfl : m = 0 := hpost.success rfl
    refine wp_perform (by simp) fun s₃ frame _ hinv _ s' hexec => ?_
    cases hexec
    refine ⟨0, ?_, Later.of_eq rfl rfl rfl, wp_pure fun _ _ => .nothing⟩
    have hopen := openPackers_append ht s₃ []
    rw [coe_nil, zero_add] at hopen
    refine Sound.transfer hinv rfl rfl rfl ?_ ?_ fun hcarried => ?_
    · rw [heldIn, heldIn, hopen]
    · exact ⟨rfl, rfl, fun _ => Iff.rfl, fun hmem => hmem, fun hmem => hmem⟩
    · exact ⟨hopen ▸ hcarried.listed, by simp, by simp⟩

theorem wp_flushPacks (hkey : c.key = r.key) (s : RepoState) :
    (logic c).wp system r.flushPacks (fun err _ m => FlushPost err m) s 0 := by
  refine wp_bind (wp_mono (wp_flushManager hkey (by decide) s) ?_)
  rintro err s₁ m _ hpost
  cases err with
  | some err => exact wp_pure fun _ _ => hpost
  | none =>
    rw [hpost.success rfl]
    exact wp_flushManager hkey (by decide) s₁

theorem IndexPost.flushPost {err : Option SaveError} (h : IndexPost err s m) : FlushPost err m := by
  obtain ⟨hsave, hstored⟩ := h
  refine ⟨?_, hsave.success, fun _ => hsave.unbroken, hsave.indexed⟩
  cases err with
  | none => rw [hsave.success rfl, heldBy_zero]
  | some failure => exact hsave.stored failure rfl (hstored failure rfl)

theorem wp_flush (hkey : c.key = r.key) (s : RepoState) :
    (logic c).wp system r.flush (fun err _ m => FlushPost err m) s 0 := by
  refine wp_bind (wp_mono (wp_flushPacks hkey s) ?_)
  rintro err s₁ m _ hpost
  cases err with
  | some err => exact wp_pure fun _ _ => hpost
  | none =>
    rw [hpost.success rfl]
    dsimp only
    split
    · exact wp_pure fun _ _ => .nothing
    · exact wp_mono (wp_saveIndex s₁) fun _ _ _ _ hpost => hpost.flushPost

end Rapi.Repository
