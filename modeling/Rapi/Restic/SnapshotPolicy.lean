import Mathlib

/-!
# Which snapshots to keep

`ApplyPolicy` goes through the snapshots from the newest to the oldest and asks
every rule of the policy whether the snapshot is to be kept.  Some rules remember
the period of the snapshot they kept last, and how many they may still keep.

What the package `time` does is a parameter.  Two times that are the same instant
need not agree on the calendar.
-/

namespace Rapi.Restic.Policy

structure Calendar (τ : Type) where
  instant : τ → Int
  zero : τ
  year : τ → Int
  month : τ → Int
  day : τ → Int
  hour : τ → Int
  isoWeek : τ → Int × Int
  addDate : τ → Int → Int → Int → τ
  addHours : τ → Int → τ

structure Duration where
  hours : Int := 0
  days : Int := 0
  months : Int := 0
  years : Int := 0
  deriving DecidableEq

namespace Duration

def isZero (d : Duration) : Bool := d.years = 0 ∧ d.months = 0 ∧ d.days = 0 ∧ d.hours = 0

def text (d : Duration) : String :=
  (if d.years ≠ 0 then toString d.years ++ "y" else "") ++
  (if d.months ≠ 0 then toString d.months ++ "m" else "") ++
  (if d.days ≠ 0 then toString d.days ++ "d" else "") ++
  (if d.hours ≠ 0 then toString d.hours ++ "h" else "")

end Duration

structure ExpirePolicy where
  last : Int := 0
  hourly : Int := 0
  daily : Int := 0
  weekly : Int := 0
  monthly : Int := 0
  yearly : Int := 0
  within : Duration := {}
  withinHourly : Duration := {}
  withinDaily : Duration := {}
  withinWeekly : Duration := {}
  withinMonthly : Duration := {}
  withinYearly : Duration := {}
  tags : List (List String) := []
  deriving DecidableEq

def ExpirePolicy.empty (p : ExpirePolicy) : Bool :=
  if p.tags ≠ [] then false else p = { tags := p.tags }

variable {τ : Type}

structure Snapshot (τ : Type) where
  time : τ
  tags : List String
  deriving DecidableEq

namespace Snapshot

def hasTag (sn : Snapshot τ) (tag : String) : Bool := sn.tags.any (tag = ·)

def hasTags (sn : Snapshot τ) : List String → Bool
  | [] => true
  | tag :: l =>
    if tag = "" ∧ sn.tags.length = 0 then true
    else if !sn.hasTag tag then false
    else sn.hasTags l

end Snapshot

section Buckers

variable (cal : Calendar τ)

/-- An integer of the form YYYYMMDDHH. -/
def ymdh (d : τ) (_ : Nat) : Int :=
  cal.year d * 1000000 + cal.month d * 10000 + cal.day d * 100 + cal.hour d

def ymd (d : τ) (_ : Nat) : Int := cal.year d * 10000 + cal.month d * 100 + cal.day d

/-- An integer of the form YYYYWW, where WW is the week number. -/
def yw (d : τ) (_ : Nat) : Int := (cal.isoWeek d).1 * 100 + (cal.isoWeek d).2

def ym (d : τ) (_ : Nat) : Int := cal.year d * 100 + cal.month d

def y (d : τ) (_ : Nat) : Int := cal.year d

def always (_ : τ) (nr : Nat) : Int := nr

/-- The newest time in the list that is not in the future. -/
def findLatestTimestamp (now : τ) (list : List (Snapshot τ)) : τ :=
  list.foldl (fun latest sn =>
    if cal.instant latest < cal.instant sn.time ∧
        cal.instant sn.time < cal.instant now then sn.time
    else latest) cal.zero

/-- The time is less than the duration before `latest`. -/
def recent (latest : τ) (d : Duration) (time : τ) : Bool :=
  cal.instant (cal.addHours (cal.addDate latest (-d.years) (-d.months) (-d.days))
    (-d.hours)) < cal.instant time

end Buckers

/-! ## The rules -/

/-- What is known of the snapshot at hand: `keepSnap` and `keepSnapReasons`. -/
structure Verdict where
  keepSnap : Bool
  reasons : List String

def Verdict.keep (v : Verdict) (reason : String) : Verdict where
  keepSnap := true
  reasons := v.reasons ++ [reason]

structure Bucket (τ : Type) where
  count : Int
  bucker : τ → Nat → Int
  last : Int
  reason : String

structure BucketWithin (τ : Type) where
  within : Duration
  bucker : τ → Nat → Int
  last : Int
  reason : String

/-- The rules of one kind are asked one after the other. -/
def visitAll {ρ : Type} (visit : ρ → Verdict → ρ × Verdict) : List ρ → Verdict → List ρ × Verdict
  | [], v => ([], v)
  | rule :: rules, v =>
    let (rule, v) := visit rule v
    let (rules, v) := visitAll visit rules v
    (rule :: rules, v)

def visitTags (cur : Snapshot τ) : List (List String) → Verdict → Verdict
  | [], v => v
  | l :: tags, v =>
    if cur.hasTags l then
      visitTags cur tags (v.keep ("has tags [" ++ String.intercalate ", " l ++ "]"))
    else visitTags cur tags v

def visitWithin (cal : Calendar τ) (latest : τ) (cur : Snapshot τ) (d : Duration)
    (v : Verdict) : Verdict :=
  if !d.isZero then
    if recent cal latest d cur.time then v.keep ("within " ++ d.text) else v
  else v

def Bucket.visit (cur : Snapshot τ) (nr : Nat) (b : Bucket τ) (v : Verdict) : Bucket τ × Verdict :=
  if 0 < b.count then
    let val := b.bucker cur.time nr
    if val ≠ b.last then ({ b with last := val, count := b.count - 1 }, v.keep b.reason)
    else (b, v)
  else (b, v)

def BucketWithin.visit (cal : Calendar τ) (latest : τ) (cur : Snapshot τ)
    (nr : Nat) (b : BucketWithin τ) (v : Verdict) : BucketWithin τ × Verdict :=
  if !b.within.isZero then
    if recent cal latest b.within cur.time then
      let val := b.bucker cur.time nr
      if val ≠ b.last then
        ({ b with last := val }, v.keep (b.reason ++ " " ++ b.within.text))
      else (b, v)
    else (b, v)
  else (b, v)

/-! ## The policy -/

def buckets (cal : Calendar τ) (p : ExpirePolicy) : List (Bucket τ) :=
  [⟨p.last, always, -1, "last snapshot"⟩, ⟨p.hourly, ymdh cal, -1, "hourly snapshot"⟩,
    ⟨p.daily, ymd cal, -1, "daily snapshot"⟩, ⟨p.weekly, yw cal, -1, "weekly snapshot"⟩,
    ⟨p.monthly, ym cal, -1, "monthly snapshot"⟩, ⟨p.yearly, y cal, -1, "yearly snapshot"⟩]

def bucketsWithin (cal : Calendar τ) (p : ExpirePolicy) : List (BucketWithin τ) :=
  [⟨p.withinHourly, ymdh cal, -1, "hourly within"⟩, ⟨p.withinDaily, ymd cal, -1, "daily within"⟩,
    ⟨p.withinWeekly, yw cal, -1, "weekly within"⟩, ⟨p.withinMonthly, ym cal, -1, "monthly within"⟩,
    ⟨p.withinYearly, y cal, -1, "yearly within"⟩]

/-- The counters are those of the six buckets, after the snapshot. -/
structure KeepReason (τ : Type) where
  snapshot : Snapshot τ
  matched : List String
  counters : List Int

structure Retention (τ : Type) where
  keep : List (Snapshot τ)
  remove : List (Snapshot τ)
  reasons : List (KeepReason τ)

/-- The rest of the loop, for the snapshots from number `nr` on. -/
def applyRules (cal : Calendar τ) (p : ExpirePolicy) (latest : τ) :
    List (Bucket τ) → List (BucketWithin τ) → Nat → List (Snapshot τ) → Retention τ
  | _, _, _, [] => ⟨[], [], []⟩
  | bs, ws, nr, cur :: list =>
    let v := visitTags cur p.tags ⟨false, []⟩
    let v := visitWithin cal latest cur p.within v
    let (bs, v) := visitAll (Bucket.visit cur nr) bs v
    let (ws, v) := visitAll (BucketWithin.visit cal latest cur nr) ws v
    let rest := applyRules cal p latest bs ws (nr + 1) list
    if v.keepSnap then
      { rest with
        keep := cur :: rest.keep
        reasons := ⟨cur, v.reasons, bs.map Bucket.count⟩ :: rest.reasons }
    else { rest with remove := cur :: rest.remove }

/-- With pairwise distinct times every way to sort gives this. -/
def newestFirst (cal : Calendar τ) (list : List (Snapshot τ)) : List (Snapshot τ) :=
  list.insertionSort fun a b => cal.instant b.time ≤ cal.instant a.time

def applyPolicy (cal : Calendar τ) (now : τ) (list : List (Snapshot τ))
    (p : ExpirePolicy) : Retention τ :=
  let list := newestFirst cal list
  if p.empty then
    ⟨list, [], list.map fun sn => ⟨sn, ["policy is empty"], List.replicate 6 0⟩⟩
  else if list.length = 0 then ⟨list, [], []⟩
  else
    applyRules cal p (findLatestTimestamp cal now list) (buckets cal p) (bucketsWithin cal p) 0 list

end Rapi.Restic.Policy
