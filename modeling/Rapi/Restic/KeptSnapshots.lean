import Rapi.Restic.SnapshotPolicy

/-!
# What a retention policy keeps

Each rule goes through the snapshots on its own: whether it fires at a snapshot
depends on the snapshots before it and on nothing that other rules did.
-/

namespace Rapi.Restic.Policy

open List

variable {τ : Type} {cal : Calendar τ} {latest : τ}

/-! ## One snapshot -/

/-- Snapshots are kept for a reason. -/
def Verdict.Grounded (v : Verdict) : Prop := v.keepSnap ↔ v.reasons ≠ []

theorem Verdict.grounded_keep (v : Verdict) (reason : String) : (v.keep reason).Grounded := by
  simp [Verdict.Grounded, Verdict.keep]

/-- The verdict after some more rules, of which one fires iff `fired`. -/
structure Verdict.Adds (v w : Verdict) (fired : Bool) : Prop where
  keepSnap : w.keepSnap = (v.keepSnap || fired)
  grounded : v.Grounded → w.Grounded

theorem Verdict.Adds.trans {u v w : Verdict} {a b : Bool} (huv : u.Adds v a)
    (hvw : v.Adds w b) : u.Adds w (a || b) where
  keepSnap := by rw [hvw.keepSnap, huv.keepSnap, Bool.or_assoc]
  grounded := hvw.grounded ∘ huv.grounded

theorem Verdict.adds_ite (v : Verdict) (fired : Bool) (reason : String) :
    v.Adds (if fired then v.keep reason else v) fired := by
  cases fired with
  | false => exact ⟨by simp, id⟩
  | true => exact ⟨by simp [Verdict.keep], fun _ => v.grounded_keep reason⟩

theorem adds_visitTags (cur : Snapshot τ) (tags : List (List String))
    (v : Verdict) : v.Adds (visitTags cur tags v) (tags.any cur.hasTags) := by
  induction tags generalizing v with
  | nil => exact ⟨by simp [visitTags], id⟩
  | cons l tags ih =>
    rw [any_cons, visitTags]
    split
    · rename_i hl
      have hadds := v.adds_ite (cur.hasTags l) ("has tags [" ++ String.intercalate ", " l ++ "]")
      rw [if_pos hl] at hadds
      exact hadds.trans (ih _)
    · rename_i hl
      rw [Bool.eq_false_of_not_eq_true hl, Bool.false_or]
      exact ih v

def withinFires (cal : Calendar τ) (latest : τ) (d : Duration) (cur : Snapshot τ) : Bool :=
  !d.isZero && recent cal latest d cur.time

theorem adds_visitWithin (cal : Calendar τ) (latest : τ) (cur : Snapshot τ) (d : Duration)
    (v : Verdict) : v.Adds (visitWithin cal latest cur d v) (withinFires cal latest d cur) := by
  have hadds := v.adds_ite (withinFires cal latest d cur) ("within " ++ d.text)
  unfold visitWithin
  unfold withinFires at hadds ⊢
  cases hzero : d.isZero <;> simpa [hzero] using hadds

namespace Bucket

def fires (cur : Snapshot τ) (nr : Nat) (b : Bucket τ) : Bool :=
  0 < b.count ∧ b.bucker cur.time nr ≠ b.last

def next (cur : Snapshot τ) (nr : Nat) (b : Bucket τ) : Bucket τ :=
  if b.fires cur nr then { b with last := b.bucker cur.time nr, count := b.count - 1 }
  else b

theorem visit_eq (cur : Snapshot τ) (nr : Nat) (b : Bucket τ) (v : Verdict) : b.visit cur nr v =
      (b.next cur nr, if b.fires cur nr then v.keep b.reason else v) := by
  by_cases hcount : 0 < b.count
  · by_cases hval : b.bucker cur.time nr = b.last
    · simp [visit, next, fires, hcount, hval]
    · simp [visit, next, fires, hcount, hval]
  · simp [visit, next, fires, hcount]

end Bucket

namespace BucketWithin

def fires (cal : Calendar τ) (latest : τ) (cur : Snapshot τ) (nr : Nat)
    (b : BucketWithin τ) : Bool :=
  withinFires cal latest b.within cur ∧ b.bucker cur.time nr ≠ b.last

def next (cal : Calendar τ) (latest : τ) (cur : Snapshot τ) (nr : Nat)
    (b : BucketWithin τ) : BucketWithin τ :=
  if b.fires cal latest cur nr then { b with last := b.bucker cur.time nr } else b

theorem visit_eq (cal : Calendar τ) (latest : τ) (cur : Snapshot τ) (nr : Nat)
    (b : BucketWithin τ) (v : Verdict) : b.visit cal latest cur nr v = (b.next cal latest cur nr,
        if b.fires cal latest cur nr then v.keep (b.reason ++ " " ++ b.within.text)
        else v) := by
  cases hzero : b.within.isZero with
  | true => simp [visit, next, fires, withinFires, hzero]
  | false =>
    cases hrecent : recent cal latest b.within cur.time with
    | false => simp [visit, next, fires, withinFires, hzero, hrecent]
    | true =>
      by_cases hval : b.bucker cur.time nr = b.last
      · simp [visit, next, fires, withinFires, hzero, hrecent, hval]
      · simp [visit, next, fires, withinFires, hzero, hrecent, hval]

end BucketWithin

theorem visitAll_spec {ρ : Type} {visit : ρ → Verdict → ρ × Verdict} {fires : ρ → Bool}
    {next : ρ → ρ} {reason : ρ → String} (hvisit : ∀ rule v, visit rule v =
      (next rule, if fires rule then v.keep (reason rule) else v)) (rules : List ρ) (v : Verdict) :
    (visitAll visit rules v).1 = rules.map next ∧
      v.Adds (visitAll visit rules v).2 (rules.any fires) := by
  induction rules generalizing v with
  | nil => exact ⟨rfl, by simp [visitAll], id⟩
  | cons rule rules ih =>
    simp only [visitAll, hvisit, map_cons, any_cons]
    obtain ⟨hrules, hadds⟩ := ih (if fires rule then v.keep (reason rule) else v)
    exact ⟨congrArg _ hrules, (v.adds_ite _ _).trans hadds⟩

/-! ## All snapshots -/

def keeps (cal : Calendar τ) (latest : τ) (p : ExpirePolicy) (bs : List (Bucket τ))
    (ws : List (BucketWithin τ)) (nr : Nat) (cur : Snapshot τ) : Bool :=
  p.tags.any cur.hasTags || withinFires cal latest p.within cur ||
    bs.any (Bucket.fires cur nr) || ws.any (BucketWithin.fires cal latest cur nr)

theorem applyRules_cons (cal : Calendar τ) (latest : τ) (p : ExpirePolicy) (bs : List (Bucket τ))
    (ws : List (BucketWithin τ)) (nr : Nat) (cur : Snapshot τ) (list : List (Snapshot τ)) :
    let rest := applyRules cal p latest (bs.map (Bucket.next cur nr))
      (ws.map (BucketWithin.next cal latest cur nr)) (nr + 1) list
    (keeps cal latest p bs ws nr cur ∧
      ∃ reason : KeepReason τ, reason.snapshot = cur ∧ reason.matched ≠ [] ∧
        applyRules cal p latest bs ws nr (cur :: list) =
          ⟨cur :: rest.keep, rest.remove, reason :: rest.reasons⟩) ∨
    (keeps cal latest p bs ws nr cur = false ∧
      applyRules cal p latest bs ws nr (cur :: list) =
        ⟨rest.keep, cur :: rest.remove, rest.reasons⟩) := by
  intro rest
  -- the verdict after the rules of each kind
  have htags := adds_visitTags cur p.tags ⟨false, []⟩
  have hwithin := adds_visitWithin cal latest cur p.within (visitTags cur p.tags ⟨false, []⟩)
  obtain ⟨hbs, hbuckets⟩ := visitAll_spec (Bucket.visit_eq cur nr) bs
    (visitWithin cal latest cur p.within (visitTags cur p.tags ⟨false, []⟩))
  obtain ⟨hws, hrest⟩ := visitAll_spec (BucketWithin.visit_eq cal latest cur nr) ws
    (visitAll (Bucket.visit cur nr) bs
      (visitWithin cal latest cur p.within (visitTags cur p.tags ⟨false, []⟩))).2
  have hall := ((htags.trans hwithin).trans hbuckets).trans hrest
  rw [applyRules]
  simp only [hbs, hws]
  generalize (visitAll (BucketWithin.visit cal latest cur nr) ws _).2 = v at *
  have hgrounded : v.Grounded := hall.grounded (by simp [Verdict.Grounded])
  have hkeep : v.keepSnap = keeps cal latest p bs ws nr cur := hall.keepSnap
  rw [← hkeep]
  cases hsnap : v.keepSnap with
  | true => exact .inl ⟨rfl, ⟨cur, v.reasons, _⟩, rfl, hgrounded.mp hsnap, rfl⟩
  | false => exact .inr ⟨rfl, rfl⟩

/-- A rule after it has seen some snapshots. -/
def after {ρ : Type} (next : Snapshot τ → Nat → ρ → ρ) : Nat → List (Snapshot τ) → ρ → ρ
  | _, [], rule => rule
  | nr, cur :: list, rule => after next (nr + 1) list (next cur nr rule)

variable {p : ExpirePolicy} {bs : List (Bucket τ)} {ws : List (BucketWithin τ)}
  {nr : Nat} {cur sn : Snapshot τ} {list : List (Snapshot τ)}

theorem mem_keep_applyRules : sn ∈ (applyRules cal p latest bs ws nr list).keep ↔
      ∃ seen rest, list = seen ++ sn :: rest ∧
        keeps cal latest p (bs.map (after Bucket.next nr seen))
          (ws.map (after (BucketWithin.next cal latest) nr seen)) (nr + seen.length) sn := by
  induction list generalizing bs ws nr with
  | nil => simp [applyRules]
  | cons cur list ih =>
    -- either the snapshot is the first one, or the first one was seen
    have hsplit : (∃ seen rest, cur :: list = seen ++ sn :: rest ∧
          keeps cal latest p (bs.map (after Bucket.next nr seen))
            (ws.map (after (BucketWithin.next cal latest) nr seen)) (nr + seen.length) sn) ↔
        (sn = cur ∧ keeps cal latest p bs ws nr cur) ∨
        sn ∈ (applyRules cal p latest (bs.map (Bucket.next cur nr))
          (ws.map (BucketWithin.next cal latest cur nr)) (nr + 1) list).keep := by
      rw [ih]
      constructor
      · rintro ⟨seen, rest, hlist, hkeeps⟩
        cases seen with
        | nil =>
          obtain ⟨rfl, rfl⟩ := List.cons.inj hlist
          exact .inl ⟨rfl, by simpa [after] using hkeeps⟩
        | cons first seen =>
          obtain ⟨rfl, rfl⟩ := List.cons.inj hlist
          refine .inr ⟨seen, rest, rfl, ?_⟩
          rw [map_map, map_map, Nat.add_right_comm]
          exact hkeeps
      · rintro (⟨rfl, hkeeps⟩ | ⟨seen, rest, rfl, hkeeps⟩)
        · exact ⟨[], list, rfl, by simpa [after] using hkeeps⟩
        · refine ⟨cur :: seen, rest, rfl, ?_⟩
          rw [map_map, map_map, Nat.add_right_comm] at hkeeps
          exact hkeeps
    rw [hsplit]
    rcases applyRules_cons cal latest p bs ws nr cur list with
      ⟨hkeeps, reason, -, -, heq⟩ | ⟨hkeeps, heq⟩
    · rw [heq, mem_cons]
      simp [hkeeps]
    · rw [heq]
      simp [hkeeps]

/-- The result splits the list, and there is a reason for each kept snapshot. -/
structure Splits (list : List (Snapshot τ)) (result : Retention τ) : Prop where
  keep : result.keep.Sublist list
  remove : result.remove.Sublist list
  all : (result.keep ++ result.remove).Perm list
  reasons : result.reasons.map KeepReason.snapshot = result.keep
  matched : ∀ reason ∈ result.reasons, reason.matched ≠ []

theorem splits_applyRules : Splits list (applyRules cal p latest bs ws nr list) := by
  induction list generalizing bs ws nr with
  | nil => exact ⟨.refl [], .refl [], .refl [], rfl, nofun⟩
  | cons cur list ih =>
    have hrest : Splits list (applyRules cal p latest (bs.map (Bucket.next cur nr))
      (ws.map (BucketWithin.next cal latest cur nr)) (nr + 1) list) := ih
    rcases applyRules_cons cal latest p bs ws nr cur list with
      ⟨-, reason, hsnapshot, hmatched, heq⟩ | ⟨-, heq⟩
    · rw [heq]
      constructor
      · exact hrest.keep.cons_cons cur
      · exact hrest.remove.cons cur
      · exact hrest.all.cons cur
      · simp [hsnapshot, hrest.reasons]
      · intro r hr
        rcases mem_cons.mp hr with rfl | hr
        · exact hmatched
        · exact hrest.matched r hr
    · rw [heq]
      constructor
      · exact hrest.keep.cons cur
      · exact hrest.remove.cons_cons cur
      · exact perm_middle.trans (hrest.all.cons cur)
      · exact hrest.reasons
      · exact hrest.matched

theorem splits_applyPolicy (cal : Calendar τ) (now : τ) (list : List (Snapshot τ))
    (p : ExpirePolicy) : Splits (newestFirst cal list) (applyPolicy cal now list p) := by
  unfold applyPolicy
  simp only
  split
  · constructor
    · exact .refl _
    · exact nil_sublist _
    · rw [append_nil]
    · simp [Function.comp_def]
    · simp
  · split
    · rename_i hlength
      rw [eq_nil_of_length_eq_zero hlength]
      exact ⟨.refl [], .refl [], .refl [], rfl, nofun⟩
    · exact splits_applyRules

/-! ## The rules of a policy -/

inductive Rule (τ : Type)
  | tags (l : List String)
  | within (d : Duration)
  | bucket (b : Bucket τ)
  | bucketWithin (b : BucketWithin τ)

/-- The rule fires at the snapshot that comes after those it has seen. -/
def Rule.Fires (cal : Calendar τ) (latest : τ) (seen : List (Snapshot τ))
    (sn : Snapshot τ) : Rule τ → Prop
  | .tags l => sn.hasTags l
  | .within d => withinFires cal latest d sn
  | .bucket b => (after Bucket.next 0 seen b).fires sn seen.length
  | .bucketWithin b =>
    (after (BucketWithin.next cal latest) 0 seen b).fires cal latest sn seen.length

def rules (cal : Calendar τ) (p : ExpirePolicy) : List (Rule τ) :=
  p.tags.map .tags ++ .within p.within ::
    (buckets cal p).map .bucket ++ (bucketsWithin cal p).map .bucketWithin

variable {now : τ} {rule : Rule τ} {q : ExpirePolicy}

theorem mem_keep_applyPolicy (hp : p.empty = false) : sn ∈ (applyPolicy cal now list p).keep ↔
      ∃ seen rest, newestFirst cal list = seen ++ sn :: rest ∧
        ∃ rule ∈ rules cal p, rule.Fires cal
          (findLatestTimestamp cal now (newestFirst cal list)) seen sn := by
  unfold applyPolicy
  simp only [hp, Bool.false_eq_true, if_false]
  split
  · rename_i hlength
    rw [eq_nil_of_length_eq_zero hlength]
    simp
  · rw [mem_keep_applyRules]
    refine exists_congr fun seen => exists_congr fun rest => and_congr_right fun _ => ?_
    simp only [keeps, rules, Rule.Fires, any_map, any_eq_true,
      Bool.or_eq_true, mem_append, mem_cons, mem_map,
      Function.comp_apply, Nat.zero_add, or_and_right, exists_or, or_assoc,
      exists_exists_and_eq_and, exists_eq_left]

def Rule.Active : Rule τ → Prop
  | .tags _ => True
  | .within d => d.isZero = false
  | .bucket b => 0 < b.count
  | .bucketWithin b => b.within.isZero = false

theorem after_next_of_count {b : Bucket τ} (hcount : ¬ 0 < b.count) (seen : List (Snapshot τ))
    (nr : Nat) : after Bucket.next nr seen b = b := by
  induction seen generalizing nr with
  | nil => rfl
  | cons cur seen ih =>
    have hnext : b.next cur nr = b := by simp [Bucket.next, Bucket.fires, hcount]
    rw [after, hnext]
    exact ih (nr + 1)

theorem within_after_next (cal : Calendar τ) (latest : τ) (b : BucketWithin τ)
    (seen : List (Snapshot τ)) (nr : Nat) :
    (after (BucketWithin.next cal latest) nr seen b).within = b.within := by
  induction seen generalizing nr b with
  | nil => rfl
  | cons cur seen ih =>
    rw [after, ih]
    unfold BucketWithin.next
    split <;> rfl

theorem active_of_fires {seen : List (Snapshot τ)}
    (hfires : rule.Fires cal latest seen sn) : rule.Active := by
  cases rule with
  | tags l => trivial
  | within d =>
    simp only [Rule.Fires, withinFires, Bool.and_eq_true] at hfires
    simpa [Rule.Active] using hfires.1
  | bucket b =>
    by_contra hcount
    simp only [Rule.Fires, after_next_of_count hcount, Bucket.fires, decide_eq_true_eq] at hfires
    exact hcount hfires.1
  | bucketWithin b =>
    simp only [Rule.Fires, BucketWithin.fires, withinFires, within_after_next,
      Bool.and_eq_true, decide_eq_true_eq] at hfires
    simpa [Rule.Active] using hfires.1.1

/-- The policies with one rule of the policy each. -/
def ExpirePolicy.parts (p : ExpirePolicy) : List ExpirePolicy :=
  p.tags.map (fun l => { tags := [l] }) ++ [{ within := p.within }, { last := p.last },
      { hourly := p.hourly }, { daily := p.daily }, { weekly := p.weekly },
      { monthly := p.monthly }, { yearly := p.yearly }, { withinHourly := p.withinHourly },
      { withinDaily := p.withinDaily }, { withinWeekly := p.withinWeekly },
      { withinMonthly := p.withinMonthly }, { withinYearly := p.withinYearly }]

open ExpirePolicy (parts)

/-- A rule that is not configured makes an empty policy. -/
def ExpirePolicy.singles (p : ExpirePolicy) : List ExpirePolicy := p.parts.filter fun q => !q.empty

theorem mem_rules : rule ∈ rules cal p ↔ (∃ l ∈ p.tags, .tags l = rule) ∨ rule = .within p.within ∨
      (∃ b ∈ buckets cal p, .bucket b = rule) ∨
      ∃ b ∈ bucketsWithin cal p, .bucketWithin b = rule := by
  simp only [rules, mem_append, mem_map, mem_cons, or_assoc]

theorem not_empty_of_active (hrule : rule ∈ rules cal p) (hactive : rule.Active) :
    p.empty = false := by
  by_contra hempty
  have hp : p = {} := by
    simp only [ExpirePolicy.empty] at hempty
    split at hempty
    · simp at hempty
    · rename_i htags
      simp only [ne_eq, not_not] at htags
      simpa [htags] using hempty
  subst hp
  rcases mem_rules.mp hrule with ⟨l, hl, rfl⟩ | rfl | ⟨b, hb, rfl⟩ | ⟨b, hb, rfl⟩
  · cases hl
  · exact absurd hactive (by simp [Rule.Active, Duration.isZero])
  · simp only [buckets, mem_cons, not_mem_nil, or_false] at hb
    rcases hb with rfl | rfl | rfl | rfl | rfl | rfl <;> exact absurd hactive (Int.lt_irrefl 0)
  · simp only [bucketsWithin, mem_cons, not_mem_nil, or_false] at hb
    rcases hb with rfl | rfl | rfl | rfl | rfl <;>
      exact absurd hactive (by simp [Rule.Active, Duration.isZero])

theorem exists_part (hrule : rule ∈ rules cal p) : ∃ q ∈ p.parts, rule ∈ rules cal q := by
  rcases mem_rules.mp hrule with ⟨l, hl, rfl⟩ | rfl | ⟨b, hb, rfl⟩ | ⟨b, hb, rfl⟩
  · refine ⟨{ tags := [l] }, ?_, by simp [rules]⟩
    exact mem_append_left _ (mem_map.mpr ⟨l, hl, rfl⟩)
  · exact ⟨{ within := p.within }, by simp [parts, rules]⟩
  · simp only [buckets, mem_cons, not_mem_nil, or_false] at hb
    rcases hb with rfl | rfl | rfl | rfl | rfl | rfl
    · exact ⟨{ last := p.last }, by simp [parts, rules, buckets]⟩
    · exact ⟨{ hourly := p.hourly }, by simp [parts, rules, buckets]⟩
    · exact ⟨{ daily := p.daily }, by simp [parts, rules, buckets]⟩
    · exact ⟨{ weekly := p.weekly }, by simp [parts, rules, buckets]⟩
    · exact ⟨{ monthly := p.monthly }, by simp [parts, rules, buckets]⟩
    · exact ⟨{ yearly := p.yearly }, by simp [parts, rules, buckets]⟩
  · simp only [bucketsWithin, mem_cons, not_mem_nil, or_false] at hb
    rcases hb with rfl | rfl | rfl | rfl | rfl
    · exact ⟨{ withinHourly := p.withinHourly }, by simp [parts, rules, bucketsWithin]⟩
    · exact ⟨{ withinDaily := p.withinDaily }, by simp [parts, rules, bucketsWithin]⟩
    · exact ⟨{ withinWeekly := p.withinWeekly }, by simp [parts, rules, bucketsWithin]⟩
    · exact ⟨{ withinMonthly := p.withinMonthly },
        by simp [parts, rules, bucketsWithin]⟩
    · exact ⟨{ withinYearly := p.withinYearly }, by simp [parts, rules, bucketsWithin]⟩

/-- Each rule of a part is a rule of the policy, or does nothing. -/
theorem mem_rules_of_part (hq : q ∈ p.parts) (hrule : rule ∈ rules cal q)
    (hactive : rule.Active) : rule ∈ rules cal p := by
  have hpart : (∀ l ∈ q.tags, l ∈ p.tags) ∧
      (q.within = p.within ∨ q.within = {}) ∧
      (∀ b ∈ buckets cal q, b ∈ buckets cal p ∨ b.count = 0) ∧
      ∀ b ∈ bucketsWithin cal q, b ∈ bucketsWithin cal p ∨ b.within = {} := by
    simp only [parts, mem_append, mem_map, mem_cons, not_mem_nil, or_false] at hq
    rcases hq with ⟨l, hl, rfl⟩ | rfl | rfl | rfl | rfl | rfl | rfl | rfl | rfl |
      rfl | rfl | rfl | rfl
    · simp [buckets, bucketsWithin, hl]
    all_goals simp [buckets, bucketsWithin]
  obtain ⟨htags, hwithin, hbuckets, hbucketsWithin⟩ := hpart
  rw [mem_rules] at hrule ⊢
  rcases hrule with ⟨l, hl, rfl⟩ | rfl | ⟨b, hb, rfl⟩ | ⟨b, hb, rfl⟩
  · exact .inl ⟨l, htags l hl, rfl⟩
  · rcases hwithin with hsame | hzero
    · exact .inr (.inl (congrArg _ hsame))
    · rw [hzero] at hactive
      exact absurd hactive (by simp [Rule.Active, Duration.isZero])
  · rcases hbuckets b hb with hsame | hzero
    · exact .inr (.inr (.inl ⟨b, hsame, rfl⟩))
    · exact absurd hactive (by simp [Rule.Active, hzero])
  · rcases hbucketsWithin b hb with hsame | hzero
    · exact .inr (.inr (.inr ⟨b, hsame, rfl⟩))
    · exact absurd hactive (by simp [Rule.Active, hzero, Duration.isZero])

theorem mem_keep_iff_singles (hp : p.empty = false) : sn ∈ (applyPolicy cal now list p).keep ↔
      ∃ q ∈ p.singles, sn ∈ (applyPolicy cal now list q).keep := by
  rw [mem_keep_applyPolicy hp]
  constructor
  · rintro ⟨seen, rest, hlist, rule, hrule, hfires⟩
    obtain ⟨q, hq, hrule⟩ := exists_part hrule
    have hempty := not_empty_of_active hrule (active_of_fires hfires)
    refine ⟨q, mem_filter.mpr ⟨hq, by simp [hempty]⟩, ?_⟩
    rw [mem_keep_applyPolicy hempty]
    exact ⟨seen, rest, hlist, rule, hrule, hfires⟩
  · rintro ⟨q, hq, hkeep⟩
    obtain ⟨hq, hempty⟩ := mem_filter.mp hq
    rw [mem_keep_applyPolicy (by simpa using hempty)] at hkeep
    obtain ⟨seen, rest, hlist, rule, hrule, hfires⟩ := hkeep
    exact ⟨seen, rest, hlist, rule, mem_rules_of_part hq hrule (active_of_fires hfires), hfires⟩

/-! ## Raised counts -/

/-- The policies differ only in their counts, and none got lower. -/
structure ExpirePolicy.Raises (p q : ExpirePolicy) : Prop where
  last : p.last ≤ q.last
  hourly : p.hourly ≤ q.hourly
  daily : p.daily ≤ q.daily
  weekly : p.weekly ≤ q.weekly
  monthly : p.monthly ≤ q.monthly
  yearly : p.yearly ≤ q.yearly
  rest : q = { p with
    last := q.last
    hourly := q.hourly
    daily := q.daily
    weekly := q.weekly
    monthly := q.monthly
    yearly := q.yearly }

/-- As long as the lower bucket has counts left, both have kept the same. -/
structure Bucket.Below (b c : Bucket τ) : Prop where
  bucker : b.bucker = c.bucker
  inStep : 0 < b.count → b.last = c.last ∧ b.count ≤ c.count

namespace Bucket.Below

variable {b c : Bucket τ}

theorem fires (h : b.Below c) (hfires : b.fires cur nr) : c.fires cur nr := by
  simp only [Bucket.fires, decide_eq_true_eq] at hfires ⊢
  obtain ⟨hlast, hcount⟩ := h.inStep hfires.1
  refine ⟨hfires.1.trans_le hcount, ?_⟩
  rw [← h.bucker, ← hlast]
  exact hfires.2

theorem next (h : b.Below c) : (b.next cur nr).Below (c.next cur nr) := by
  by_cases hfires : b.fires cur nr
  · have hcount : 0 < b.count := by
      simp only [Bucket.fires, decide_eq_true_eq] at hfires
      exact hfires.1
    obtain ⟨-, hle⟩ := h.inStep hcount
    rw [Bucket.next, if_pos hfires, Bucket.next, if_pos (h.fires hfires)]
    refine ⟨h.bucker, fun _ => ⟨by rw [h.bucker], ?_⟩⟩
    exact Int.sub_le_sub_right hle 1
  · rw [Bucket.next, if_neg hfires]
    refine ⟨?_, fun hcount => ?_⟩
    · unfold Bucket.next
      split <;> exact h.bucker
    · -- the upper bucket sees the same period, so it does not fire either
      obtain ⟨hlast, hle⟩ := h.inStep hcount
      have hsame : ¬ c.fires cur nr := by
        simp only [Bucket.fires, decide_eq_true_eq, not_and, not_not] at hfires ⊢
        intro _
        rw [← h.bucker, ← hlast]
        exact hfires hcount
      rw [Bucket.next, if_neg hsame]
      exact ⟨hlast, hle⟩

theorem after (h : b.Below c) (seen : List (Snapshot τ)) (nr : Nat) :
    (after Bucket.next nr seen b).Below (after Bucket.next nr seen c) := by
  induction seen generalizing b c nr with
  | nil => exact h
  | cons cur seen ih => exact ih h.next (nr + 1)

end Bucket.Below

theorem exists_below (hraises : p.Raises q) {b : Bucket τ} (hb : b ∈ buckets cal p) :
    ∃ c ∈ buckets cal q, b.Below c := by
  simp only [buckets, mem_cons, not_mem_nil, or_false] at hb
  rcases hb with rfl | rfl | rfl | rfl | rfl | rfl
  · exact ⟨_, .head _, rfl, fun _ => ⟨rfl, hraises.last⟩⟩
  · exact ⟨_, .tail _ (.head _), rfl, fun _ => ⟨rfl, hraises.hourly⟩⟩
  · exact ⟨_, .tail _ (.tail _ (.head _)), rfl, fun _ => ⟨rfl, hraises.daily⟩⟩
  · exact ⟨_, .tail _ (.tail _ (.tail _ (.head _))), rfl, fun _ => ⟨rfl, hraises.weekly⟩⟩
  · exact ⟨_, .tail _ (.tail _ (.tail _ (.tail _ (.head _)))), rfl, fun _ => ⟨rfl, hraises.monthly⟩⟩
  · exact ⟨_, .tail _ (.tail _ (.tail _ (.tail _ (.tail _ (.head _))))), rfl,
      fun _ => ⟨rfl, hraises.yearly⟩⟩

theorem keep_subset_of_raises (hp : p.empty = false) (hraises : p.Raises q)
    (hkeep : sn ∈ (applyPolicy cal now list p).keep) : sn ∈ (applyPolicy cal now list q).keep := by
  by_cases hq : q.empty
  · have hsorted := (splits_applyPolicy cal now list p).keep.subset hkeep
    simpa [applyPolicy, hq] using hsorted
  rw [mem_keep_applyPolicy hp] at hkeep
  obtain ⟨seen, rest, hlist, rule, hrule, hfires⟩ := hkeep
  rw [mem_keep_applyPolicy (Bool.eq_false_of_not_eq_true hq)]
  refine ⟨seen, rest, hlist, ?_⟩
  rcases mem_rules.mp hrule with ⟨l, hl, rfl⟩ | rfl | ⟨b, hb, rfl⟩ | ⟨b, hb, rfl⟩
  · refine ⟨.tags l, mem_rules.mpr (.inl ⟨l, ?_, rfl⟩), hfires⟩
    rw [hraises.rest]
    exact hl
  · refine ⟨.within p.within, mem_rules.mpr (.inr (.inl ?_)), hfires⟩
    rw [hraises.rest]
  · obtain ⟨c, hc, hbelow⟩ := exists_below hraises hb
    refine ⟨.bucket c, mem_rules.mpr (.inr (.inr (.inl ⟨c, hc, rfl⟩))), ?_⟩
    exact (hbelow.after seen 0).fires hfires
  · refine ⟨.bucketWithin b, mem_rules.mpr (.inr (.inr (.inr ⟨b, ?_, rfl⟩))), hfires⟩
    rw [hraises.rest]
    exact hb

/-! ## What the policy does -/

section Sorted

variable (cal) in
def NotOlder (a b : Snapshot τ) : Prop := cal.instant b.time ≤ cal.instant a.time

instance : DecidableRel (NotOlder cal) :=
  fun a b => inferInstanceAs (Decidable (cal.instant b.time ≤ cal.instant a.time))

instance : Std.Total (NotOlder cal) :=
  ⟨fun a b => le_total (cal.instant b.time) (cal.instant a.time)⟩

instance : IsTrans (Snapshot τ) (NotOlder cal) := ⟨fun _ _ _ hab hbc => le_trans hbc hab⟩

theorem pairwise_newestFirst (hdistinct : list.Pairwise fun a b =>
      cal.instant a.time ≠ cal.instant b.time) : (newestFirst cal list).Pairwise fun a b =>
      cal.instant b.time < cal.instant a.time := by
  have hperm : (newestFirst cal list).Perm list := perm_insertionSort _ list
  have hne := (hperm.pairwise_iff fun hab => Ne.symm hab).mpr hdistinct
  have hle : (newestFirst cal list).Pairwise (NotOlder cal) :=
    pairwise_insertionSort (NotOlder cal) list
  refine (hle.and hne).imp ?_
  rintro a b ⟨hab, hne⟩
  exact lt_of_le_of_ne hab (Ne.symm hne)

end Sorted

/-- The list is split, each rule keeps what it would keep alone, and higher counts
keep more. -/
theorem applyPolicy_splits_by_union (cal : Calendar τ) (now : τ)
    (list : List (Snapshot τ)) (p : ExpirePolicy) (hp : p.empty = false)
    (hdistinct : list.Pairwise fun a b => cal.instant a.time ≠ cal.instant b.time) :
    ((newestFirst cal list).Perm list ∧
      (newestFirst cal list).Pairwise fun a b =>
        cal.instant b.time < cal.instant a.time) ∧
    Splits (newestFirst cal list) (applyPolicy cal now list p) ∧
    (applyPolicy cal now list p).keep.Disjoint (applyPolicy cal now list p).remove ∧
    (∀ sn, sn ∈ (applyPolicy cal now list p).keep ↔
      ∃ q ∈ p.singles, sn ∈ (applyPolicy cal now list q).keep) ∧
    ∀ q, p.Raises q →
      (applyPolicy cal now list p).keep ⊆ (applyPolicy cal now list q).keep := by
  have hsorted := pairwise_newestFirst hdistinct
  have hsplits := splits_applyPolicy cal now list p
  have hnodup : (newestFirst cal list).Nodup := by
    refine hsorted.imp ?_
    rintro a b hlt rfl
    exact lt_irrefl _ hlt
  refine ⟨⟨perm_insertionSort _ list, hsorted⟩, hsplits, ?_, ?_, ?_⟩
  · exact disjoint_of_nodup_append (hsplits.all.nodup_iff.mpr hnodup)
  · exact fun sn => mem_keep_iff_singles hp
  · exact fun q hraises sn hkeep => keep_subset_of_raises hp hraises hkeep

/-- Times are hours, and a year has two days. -/
def sampleCalendar : Calendar Int where
  instant t := t
  zero := 0
  year t := t / 48
  month _ := 1
  day t := t / 24 % 2
  hour t := t % 24
  isoWeek t := (t / 48, 1)
  addDate t years _ days := t + 48 * years + 24 * days
  addHours t hours := t + hours

def sampleSnapshots : List (Snapshot Int) := [⟨100, []⟩, ⟨30, ["keep"]⟩, ⟨110, []⟩, ⟨60, []⟩]

theorem applyPolicy_splits_by_union_sample :
    (applyPolicy sampleCalendar 1000 sampleSnapshots
      { daily := 1, tags := [["keep"]] }).keep = [⟨110, []⟩, ⟨30, ["keep"]⟩] ∧
    Splits (newestFirst sampleCalendar sampleSnapshots)
      (applyPolicy sampleCalendar 1000 sampleSnapshots
        { daily := 1, tags := [["keep"]] }) := by
  refine ⟨by decide, ?_⟩
  exact (applyPolicy_splits_by_union sampleCalendar 1000 sampleSnapshots
    { daily := 1, tags := [["keep"]] } (by decide) (by decide)).2.1

end Rapi.Restic.Policy
