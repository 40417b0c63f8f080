import Rapi.Foundation.Playback
import Rapi.Repository.Merging

/-!
# Announcing blobs

Any number of goroutines call the functions of one master index.  Every call
runs under its lock, and is one action here.  A blob is pending when it is
announced, then in an open index, then in a final one, and maybe in the first
index in the end, so that it is known at every moment.
-/

namespace Rapi.Repository.MasterIndex

open Foundation Restic

namespace Announcing

inductive Call
  | addPending (bh : BlobHandle)
  | has (bh : BlobHandle)
  | edit (edit : Edit)

abbrev Call.Res : Call → Type
  | .addPending _ => Bool
  | .has _ => Bool
  | .edit _ => Unit

/-- `announced` lists the blobs for which `addPending` has returned true. -/
structure State where
  mi : MasterIndex
  announced : List BlobHandle

def exec : (call : Call) → State → call.Res → State → Prop
  | .addPending bh, s, new, s' =>
    s.mi.addPending bh = (new, s'.mi) ∧
      s'.announced = if new then bh :: s.announced else s.announced
  | .has bh, s, found, s' => found = s.mi.has bh ∧ s' = s
  | .edit edit, s, _, s' => s.mi.step edit = some s'.mi ∧ s'.announced = s.announced

def system : System State Call Call.Res where
  exec := exec
  env _ _ := False

end Announcing

/-! ## One call -/

section Calls

variable {mi mi' : MasterIndex}

theorem keeps_insert (mi : MasterIndex) (idx : Index) : mi.Keeps (mi.insert idx) := by
  refine ⟨fun _ => Or.inl, fun pb hpb => ?_⟩
  obtain ⟨other, hother, hpb⟩ := mem_content.mp hpb
  refine mem_content.mpr ⟨other, ?_, hpb⟩
  exact List.mem_append_left [idx] hother

theorem keeps_step {edit : Edit} (h : mi.step edit = some mi') : mi.Keeps mi' := by
  cases edit with
  | insert idx =>
    cases h
    exact keeps_insert mi idx
  | storePack id blobs seed now => exact keeps_storePack rfl h
  | finalizeNotFinalIndexes | finalizeFullIndexes now =>
    cases h
    exact keeps_finalizeIf _ rfl
  | mergeFinalIndexes => exact keeps_mergeFinalIndexes (mergeFinalIndexes_of_step h)

end Calls

namespace Announcing

/-! ## Any interleaving -/

variable {call : Call} {s s' : State} {res : call.Res}

def Grows (s s' : State) : Prop := ∀ bh, s.mi.has bh → s'.mi.has bh

theorem exec_grows (h : exec call s res s') : Grows s s' := by
  intro bh hhas
  cases call with
  | addPending other => exact (keeps_addPending h.1).has hhas
  | has other =>
    obtain ⟨-, rfl⟩ := h
    exact hhas
  | edit edit => exact (keeps_step h.1).has hhas

/-- What is announced is known, and was announced once. -/
structure Sound (s : State) : Prop where
  known : ∀ bh ∈ s.announced, s.mi.has bh
  once : s.announced.Nodup

theorem exec_sound (h : exec call s res s') (hs : Sound s) : Sound s' := by
  have hknown : ∀ bh ∈ s.announced, s'.mi.has bh :=
    fun bh hbh => exec_grows h bh (hs.known bh hbh)
  cases call with
  | addPending bh =>
    obtain ⟨hadd, hannounced⟩ := h
    obtain ⟨-, -, ⟨rfl, -, -⟩ | ⟨rfl, hnew, hpending⟩⟩ := addPending_spec hadd
    · rw [if_neg Bool.false_ne_true] at hannounced
      exact ⟨hannounced ▸ hknown, hannounced ▸ hs.once⟩
    · rw [if_pos rfl] at hannounced
      constructor
      · rw [hannounced, List.forall_mem_cons]
        refine ⟨has_iff.mpr (Or.inl ?_), hknown⟩
        rw [hpending]
        exact Finset.mem_insert_self _ _
      · rw [hannounced, List.nodup_cons]
        refine ⟨fun hbh => ?_, hs.once⟩
        rw [hs.known bh hbh] at hnew
        cases hnew
  | has bh =>
    obtain ⟨-, rfl⟩ := h
    exact hs
  | edit edit => exact ⟨h.2 ▸ hknown, h.2 ▸ hs.once⟩

variable {ι α : Type} [DecidableEq ι]

/-- The goroutines may run any programs that call the master index. -/
theorem announced_at_most_once {mi : MasterIndex}
    {threads : ι → Thread Call Call.Res α} {pool : Pool State Call Call.Res α ι}
    (h : Relation.ReflTransGen (Pool.Step system) ⟨⟨mi, []⟩, threads⟩ pool) :
    (∀ bh, pool.state.announced.count bh ≤ 1) ∧
      ∀ later, Relation.ReflTransGen (Pool.Step system) pool later →
        ∀ bh, pool.state.mi.has bh → later.state.mi.has bh := by
  have hsound : Sound (⟨mi, []⟩ : State) → Sound pool.state :=
    Pool.related (R := fun s s' => Sound s → Sound s') (fun _ => id)
      (fun _ _ _ h h' => h' ∘ h) (fun _ _ _ _ => exec_sound) (fun _ _ => False.elim) h
  refine ⟨fun bh => ?_, fun later hlater => ?_⟩
  · exact List.nodup_iff_count_le_one.mp (hsound ⟨nofun, .nil⟩).once bh
  · exact Pool.related (R := Grows) (fun _ _ => id)
      (fun _ _ _ h h' bh hbh => h' bh (h bh hbh)) (fun _ _ _ _ => exec_grows)
      (fun _ _ => False.elim) hlater

def playback : Playback system where
  answer
  | .addPending bh, s =>
    let added := s.mi.addPending bh
    let announced := if added.1 then bh :: s.announced else s.announced
    some ⟨(added.1, ⟨added.2, announced⟩), rfl, rfl⟩
  | .has bh, s => some ⟨(s.mi.has bh, s), rfl, rfl⟩
  | .edit edit, s =>
    (s.mi.step edit).attach.map fun ⟨mi, hmi⟩ => ⟨((), ⟨mi, s.announced⟩), hmi, rfl⟩

/-- Two goroutines announce the same blob. -/
theorem announced_at_most_once_twice :
    ∃ pool : Pool State Call Call.Res Bool Bool,
      Relation.ReflTransGen (Pool.Step system)
        ⟨⟨new (fun _ _ => 0) 0, []⟩,
          fun _ => .once (Prog.perform (Call.addPending sampleBlob.toBlobHandle))⟩
        pool ∧
      pool.Finished not ∧
      pool.state.announced.count sampleBlob.toBlobHandle ≤ 1 := by
  obtain ⟨pool, hsteps, hended⟩ := Pool.exists_steps playback ⟨⟨new (fun _ _ => 0) 0, []⟩,
      fun _ => .once (Prog.perform (Call.addPending sampleBlob.toBlobHandle))⟩
    [.thread false, .thread true] (fun pool => ∀ i, pool.result? i = some (!i)) (by decide +kernel)
  exact ⟨pool, hsteps, Pool.finished_of_result? hended, (announced_at_most_once hsteps).1 _⟩

end Announcing

end Rapi.Repository.MasterIndex
