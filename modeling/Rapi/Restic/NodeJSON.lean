import Rapi.Foundation.Utf8
import Rapi.Restic.Blob

/-!
# Nodes as JSON

The serialized form of a node.  Here a node has all the fields that are written
to a tree; byte strings that come from the file system need not be UTF-8.  The
name is written as the inside of a Go string literal, every other string goes
to JSON as it is.

The packages `time`, `strconv` and `encoding/json` are parameters as far as
their texts go.  What is kept of them: a string in a JSON text is UTF-8, and a
timestamp has a wall clock and a zone offset of whole minutes.
-/

namespace Rapi.Restic.NodeJSON

open Foundation Foundation.Utf8 Option Function

/-! ## Timestamps -/

/-- A moment in nanoseconds since January 1 of the year 1, UTC, and the offset in
seconds of the zone it is displayed in. -/
structure Time where
  instant : Int
  offset : Int
  offset_lt : offset.natAbs < 86400

namespace Time

def zero : Time := ⟨0, 0, by decide⟩

def equal (t u : Time) : Bool := t.instant == u.instant

end Time

/-- The calendar of `time`, as far as years go. -/
structure Calendar where
  year : Time → Int
  addYears : Time → Int → Time

/-- A time in RFC 3339: the wall clock with all its digits, and the zone in hours
and minutes. -/
structure Timestamp where
  clock : Int
  zone : Int
  zone_lt : zone.natAbs < 1440

def Timestamp.time (stamp : Timestamp) : Time where
  instant := stamp.clock - stamp.zone * 60 * 10 ^ 9
  offset := stamp.zone * 60
  offset_lt := by
    have := stamp.zone_lt
    omega

/-- The zone is cut down to minutes. -/
def Time.stamp (t : Time) : Timestamp where
  clock := t.instant + t.offset * 10 ^ 9
  zone := t.offset.tdiv 60
  zone_lt := by
    rw [Int.natAbs_tdiv]
    exact Nat.div_lt_of_lt_mul t.offset_lt

theorem Time.equal_stamp (t : Time) : t.stamp.time.equal t ↔ t.offset % 60 = 0 := by
  have hdiv : t.offset.tdiv 60 * 60 + t.offset.tmod 60 = t.offset := by
    rw [Int.mul_comm]
    exact Int.mul_tdiv_add_tmod t.offset 60
  have hmod : t.offset.tmod 60 = 0 ↔ t.offset % 60 = 0 := by
    rw [← Int.dvd_iff_tmod_eq_zero, Int.dvd_iff_emod_eq_zero]
  rw [← hmod]
  simp only [Time.equal, Timestamp.time, Time.stamp, beq_iff_eq]
  omega

namespace Calendar

/-- `Time.MarshalJSON`: a year has four digits. -/
def marshal (cal : Calendar) (t : Time) : Option Timestamp :=
  if cal.year t < 0 ∨ 10000 ≤ cal.year t then none else some t.stamp

def fixTime (cal : Calendar) (t : Time) : Time :=
  if cal.year t < 0 then cal.addYears t (-cal.year t)
  else if cal.year t > 9999 then cal.addYears t (-(cal.year t - 9999))
  else t

def InYears (cal : Calendar) (t : Time) : Prop := 0 ≤ cal.year t ∧ cal.year t ≤ 9999

variable {cal : Calendar} {t : Time}

theorem fixTime_of_inYears (h : cal.InYears t) : cal.fixTime t = t := by
  obtain ⟨hlow, hhigh⟩ := h
  rw [fixTime, if_neg (by omega), if_neg (by omega)]

theorem marshal_of_inYears (h : cal.InYears t) : cal.marshal t = some t.stamp := by
  obtain ⟨hlow, hhigh⟩ := h
  rw [marshal, if_neg (by omega)]

end Calendar

/-! ## Nodes -/

structure ExtendedAttribute where
  name : Bytes
  value : Bytes
  deriving DecidableEq

/-- `Content` and `Subtree` can be nil. -/
structure Node where
  name : Bytes
  type : Bytes
  mode : Nat
  modTime : Time
  accessTime : Time
  changeTime : Time
  uid : Nat
  gid : Nat
  user : Bytes
  group : Bytes
  inode : Nat
  deviceID : Nat
  size : Nat
  links : Nat
  linkTarget : Bytes
  extendedAttributes : List ExtendedAttribute
  device : Nat
  content : Option (List ID)
  subtree : Option ID
  error : Bytes

/-! ## Comparing nodes -/

structure MapValue where
  value : Bytes
  present : Bool

abbrev Attributes := Bytes → Option MapValue

/-- A later attribute takes the place of an earlier one with its name. -/
def attributesOf (attrs : List ExtendedAttribute) : Attributes :=
  attrs.foldl (fun m attr => update m attr.name (some ⟨attr.value, false⟩)) fun _ => none

/-- Fails if an attribute is not in the map or has another value there. -/
def markPresent : List ExtendedAttribute → Attributes → Option Attributes
  | [], m => some m
  | attr :: rest, m =>
    match m attr.name with
    | none => none
    | some v =>
      if v.value ≠ attr.value then none
      else markPresent rest (update m attr.name (some { v with present := true }))

namespace Node

def sameContent (node other : Node) : Bool :=
  match node.content, other.content with
  | none, content => content.isNone
  | some _, none => false
  | some ids, some ids' => ids == ids'

def sameExtendedAttributes (node other : Node) : Bool :=
  if node.extendedAttributes.length ≠ other.extendedAttributes.length then false
  else
    match markPresent other.extendedAttributes (attributesOf node.extendedAttributes) with
    | none => false
    | some m =>
      -- The keys of the map are the names of the attributes of `node`.
      node.extendedAttributes.all fun attr => (m attr.name).all (·.present)

def sameSubtree (node other : Node) : Bool :=
  match node.subtree, other.subtree with
  | some id, some id' => id == id'
  | none, none => true
  | _, _ => false

def equals (node other : Node) : Bool :=
  node.name == other.name &&
  node.type == other.type &&
  node.mode == other.mode &&
  node.modTime.equal other.modTime &&
  node.accessTime.equal other.accessTime &&
  node.changeTime.equal other.changeTime &&
  node.uid == other.uid &&
  node.gid == other.gid &&
  node.user == other.user &&
  node.group == other.group &&
  node.inode == other.inode &&
  node.deviceID == other.deviceID &&
  node.size == other.size &&
  node.links == other.links &&
  node.linkTarget == other.linkTarget &&
  node.device == other.device &&
  node.sameContent other &&
  node.sameExtendedAttributes other &&
  node.sameSubtree other &&
  node.error == other.error

end Node

/-! ## The JSON object of a node -/

inductive Key
  | name
  | type
  | mode
  | mtime
  | atime
  | ctime
  | uid
  | gid
  | user
  | group
  | inode
  | deviceID
  | size
  | links
  | linktarget
  | extendedAttributes
  | device
  | content
  | subtree
  | error

/-- What stands after a key.  IDs, byte strings and times have texts of their
own. -/
inductive Value
  | number (n : Nat)
  | text (s : Bytes)
  | time (stamp : Timestamp)
  | attributes (attrs : List ExtendedAttribute)
  | ids (list : Option (List ID))
  | id (subtree : ID)

/-- The fields of an object that are present. -/
abbrev Document := Key → Option Value

namespace Value

def number? : Value → Option Nat
  | number n => some n
  | _ => none

def text? : Value → Option Bytes
  | text s => some s
  | _ => none

def time? : Value → Option Time
  | time stamp => some stamp.time
  | _ => none

def attributes? : Value → Option (List ExtendedAttribute)
  | attributes attrs => some attrs
  | _ => none

def ids? : Value → Option (Option (List ID))
  | ids list => some list
  | _ => none

def id? : Value → Option (Option ID)
  | id subtree => some (some subtree)
  | _ => none

/-- A string of a JSON text. -/
def ofString (s : Bytes) : Value := .text (toValidUTF8 s)

def ofAttributes (attrs : List ExtendedAttribute) : Value :=
  .attributes (attrs.map fun attr => ⟨toValidUTF8 attr.name, attr.value⟩)

end Value

/-- A field with the option `omitempty`. -/
def omitEmpty (empty : Bool) (value : Value) : Option Value :=
  if empty then none else some value

/-- A field that is not in the text keeps its zero value. -/
def read {α : Type} (zero : α) (value? : Value → Option α) : Option Value → Option α
  | none => some zero
  | some value => value? value

/-- A struct of times is never empty. -/
def encode (cal : Calendar) (nj : Node) : Option Document := do
  let mtime ← cal.marshal nj.modTime
  let atime ← cal.marshal nj.accessTime
  let ctime ← cal.marshal nj.changeTime
  return fun
    | .name => some (.ofString nj.name)
    | .type => some (.ofString nj.type)
    | .mode => omitEmpty (nj.mode == 0) (.number nj.mode)
    | .mtime => some (.time mtime)
    | .atime => some (.time atime)
    | .ctime => some (.time ctime)
    | .uid => some (.number nj.uid)
    | .gid => some (.number nj.gid)
    | .user => omitEmpty nj.user.isEmpty (.ofString nj.user)
    | .group => omitEmpty nj.group.isEmpty (.ofString nj.group)
    | .inode => omitEmpty (nj.inode == 0) (.number nj.inode)
    | .deviceID => omitEmpty (nj.deviceID == 0) (.number nj.deviceID)
    | .size => omitEmpty (nj.size == 0) (.number nj.size)
    | .links => omitEmpty (nj.links == 0) (.number nj.links)
    | .linktarget => omitEmpty nj.linkTarget.isEmpty (.ofString nj.linkTarget)
    | .extendedAttributes =>
      omitEmpty nj.extendedAttributes.isEmpty (.ofAttributes nj.extendedAttributes)
    | .device => omitEmpty (nj.device == 0) (.number nj.device)
    | .content => some (.ids nj.content)
    | .subtree => nj.subtree.map .id
    | .error => omitEmpty nj.error.isEmpty (.ofString nj.error)

def decode (doc : Document) : Option Node := do
  let name ← read [] Value.text? (doc .name)
  let type ← read [] Value.text? (doc .type)
  let mode ← read 0 Value.number? (doc .mode)
  let modTime ← read .zero Value.time? (doc .mtime)
  let accessTime ← read .zero Value.time? (doc .atime)
  let changeTime ← read .zero Value.time? (doc .ctime)
  let uid ← read 0 Value.number? (doc .uid)
  let gid ← read 0 Value.number? (doc .gid)
  let user ← read [] Value.text? (doc .user)
  let group ← read [] Value.text? (doc .group)
  let inode ← read 0 Value.number? (doc .inode)
  let deviceID ← read 0 Value.number? (doc .deviceID)
  let size ← read 0 Value.number? (doc .size)
  let links ← read 0 Value.number? (doc .links)
  let linkTarget ← read [] Value.text? (doc .linktarget)
  let extendedAttributes ← read [] Value.attributes? (doc .extendedAttributes)
  let device ← read 0 Value.number? (doc .device)
  let content ← read none Value.ids? (doc .content)
  let subtree ← read none Value.id? (doc .subtree)
  let error ← read [] Value.text? (doc .error)
  return {
    name, type, mode, modTime, accessTime, changeTime, uid, gid, user, group,
    inode, deviceID, size, links, linkTarget, extendedAttributes, device,
    content, subtree, error }

/-! ## MarshalJSON and UnmarshalJSON -/

/-- String literals of Go.  A literal stands in double quotes, is UTF-8 whatever
the string is, and is read back. -/
structure Strconv where
  quote : Bytes → Bytes
  unquote : Bytes → Option Bytes
  inside : Bytes → Bytes
  quote_eq : ∀ s, quote s = ascii "\"" ++ inside s ++ ascii "\""
  valid_inside : ∀ s, valid (inside s)
  unquote_quote : ∀ s, unquote (quote s) = some s

/-- JSON texts of objects, which are read back. -/
structure Texts (Text : Type) where
  print : Document → Text
  parse : Text → Option Document
  parse_print : ∀ doc, parse (print doc) = some doc

inductive Error
  | yearOutsideOfRange
  | unmarshal
  | unquote
  deriving DecidableEq

section Codec

variable {Text : Type} (cal : Calendar) (strconv : Strconv) (json : Texts Text)

def marshalJSON (node : Node) : Except Error Text :=
  let node :=
    { node with
      modTime := cal.fixTime node.modTime
      accessTime := cal.fixTime node.accessTime
      changeTime := cal.fixTime node.changeTime }
  let name := strconv.quote node.name
  let nj := { node with name := slice name 1 (name.length - 2) }
  match encode cal nj with
  | none => .error .yearOutsideOfRange
  | some doc => .ok (json.print doc)

def unmarshalJSON (data : Text) : Except Error Node :=
  match (json.parse data).bind decode with
  | none => .error .unmarshal
  | some nj =>
    match strconv.unquote (ascii "\"" ++ nj.name ++ ascii "\"") with
    | none => .error .unquote
    | some name => .ok { nj with name := name }

end Codec

/-! ## What comes back -/

theorem read_number (n : Nat) : read 0 Value.number? (omitEmpty (n == 0) (.number n)) = some n := by
  unfold omitEmpty
  split
  · rename_i h
    rw [beq_iff_eq.mp h]
    rfl
  · rfl

theorem read_text (s : Bytes) :
    read [] Value.text? (omitEmpty s.isEmpty (.ofString s)) = some (toValidUTF8 s) := by
  cases s <;> rfl

theorem read_attributes (attrs : List ExtendedAttribute) :
    read [] Value.attributes? (omitEmpty attrs.isEmpty (.ofAttributes attrs)) =
      some (attrs.map fun attr => ⟨toValidUTF8 attr.name, attr.value⟩) := by
  cases attrs <;> rfl

theorem read_id (id : Option ID) : read none Value.id? (id.map .id) = some id := by cases id <;> rfl

namespace Node

/-- All times are in years that can be written. -/
structure InYears (cal : Calendar) (node : Node) : Prop where
  modTime : cal.InYears node.modTime
  accessTime : cal.InYears node.accessTime
  changeTime : cal.InYears node.changeTime

def received (node : Node) : Node :=
  { node with
    type := toValidUTF8 node.type
    modTime := node.modTime.stamp.time
    accessTime := node.accessTime.stamp.time
    changeTime := node.changeTime.stamp.time
    user := toValidUTF8 node.user
    group := toValidUTF8 node.group
    linkTarget := toValidUTF8 node.linkTarget
    extendedAttributes := node.extendedAttributes.map fun attr =>
      ⟨toValidUTF8 attr.name, attr.value⟩
    error := toValidUTF8 node.error }

end Node

variable {node : Node} {attrs : List ExtendedAttribute} {name : Bytes}

theorem decode_encode {cal : Calendar} (hyears : node.InYears cal) : (encode cal node).bind decode =
      some { node.received with name := toValidUTF8 node.name } := by
  obtain ⟨hmtime, hatime, hctime⟩ := hyears
  simp only [encode, Calendar.marshal_of_inYears hmtime,
    Calendar.marshal_of_inYears hatime, Calendar.marshal_of_inYears hctime,
    bind_eq_bind, bind_some, pure_def, decode, read_number, read_text, read_attributes, read_id]
  rfl

section RoundTrip

variable {Text : Type} {cal : Calendar} {strconv : Strconv} {json : Texts Text}

theorem Strconv.slice_quote (strconv : Strconv) (s : Bytes) :
    slice (strconv.quote s) 1 ((strconv.quote s).length - 2) = strconv.inside s := by
  rw [strconv.quote_eq]
  have hquote : ascii "\"" = [0x22] := rfl
  simp [slice, hquote]

theorem unmarshalJSON_marshalJSON {node : Node} (hyears : node.InYears cal) :
    (marshalJSON cal strconv json node).bind (unmarshalJSON strconv json) = .ok node.received := by
  let nj := { node with name := strconv.inside node.name }
  have hnj : nj.InYears cal := ⟨hyears.1, hyears.2, hyears.3⟩
  have hread := decode_encode hnj
  obtain ⟨doc, hdoc, hdecode⟩ := bind_eq_some_iff.mp hread
  have hmarshal : marshalJSON cal strconv json node = .ok (json.print doc) := by
    simp only [marshalJSON, Calendar.fixTime_of_inYears hyears.1,
      Calendar.fixTime_of_inYears hyears.2,
      Calendar.fixTime_of_inYears hyears.3, strconv.slice_quote]
    change (match encode cal nj with
      | none => _
      | some doc => _) = _
    rw [hdoc]
  -- The inside of the literal is UTF-8, so JSON keeps it.
  have hname : strconv.unquote
      (ascii "\"" ++ toValidUTF8 nj.name ++ ascii "\"") = some node.name := by
    rw [toValidUTF8_of_valid (strconv.valid_inside node.name),
      ← strconv.quote_eq, strconv.unquote_quote]
  rw [hmarshal]
  simp only [Except.bind, unmarshalJSON, json.parse_print, bind_some, hdecode, hname]
  rfl

end RoundTrip

/-! ## When it is the node that was written -/

/-- The values of the attributes do not depend on which one of a name is read. -/
def Consistent (attrs : List ExtendedAttribute) : Prop :=
  ∀ a ∈ attrs, ∀ b ∈ attrs, a.name = b.name → a.value = b.value

theorem attributesOf_append (attrs : List ExtendedAttribute) (attr : ExtendedAttribute) :
    attributesOf (attrs ++ [attr]) =
      update (attributesOf attrs) attr.name (some ⟨attr.value, false⟩) := by
  simp [attributesOf]

theorem exists_of_attributesOf {v : MapValue} (h : attributesOf attrs name = some v) :
    ∃ attr ∈ attrs, attr.name = name ∧ attr.value = v.value := by
  induction attrs using List.reverseRecOn with
  | nil => cases h
  | append_singleton attrs attr ih =>
    rw [attributesOf_append] at h
    by_cases hname : name = attr.name
    · subst hname
      rw [update_self] at h
      cases h
      exact ⟨attr, by simp, rfl, rfl⟩
    · rw [update_of_ne hname] at h
      obtain ⟨found, hfound, hfacts⟩ := ih h
      exact ⟨found, by simp [hfound], hfacts⟩

theorem exists_attributesOf {attr : ExtendedAttribute} (h : attr ∈ attrs) :
    ∃ v, attributesOf attrs attr.name = some v := by
  induction attrs using List.reverseRecOn with
  | nil => cases h
  | append_singleton attrs last ih =>
    rw [attributesOf_append]
    by_cases hname : attr.name = last.name
    · rw [hname, update_self]
      exact ⟨_, rfl⟩
    · rw [update_of_ne hname]
      apply ih
      rcases List.mem_append.mp h with h | h
      · exact h
      · rw [List.mem_singleton.mp h] at hname
        exact absurd rfl hname

/-- What a map says about an attribute. -/
def Agrees (m : Attributes) (attr : ExtendedAttribute) : Prop :=
  ∃ v, m attr.name = some v ∧ v.value = attr.value

theorem agrees_update {m : Attributes} {v : MapValue} (hv : m name = some v)
    (attr : ExtendedAttribute) : Agrees (update m name (some { v with present := true })) attr ↔
      Agrees m attr := by
  unfold Agrees
  by_cases hname : attr.name = name
  · rw [hname, update_self, hv]
    simp
  · rw [update_of_ne hname]

theorem markPresent_isSome (attrs : List ExtendedAttribute) (m : Attributes) :
    (markPresent attrs m).isSome ↔ ∀ attr ∈ attrs, Agrees m attr := by
  induction attrs generalizing m with
  | nil => simp [markPresent]
  | cons attr rest ih =>
    rw [List.forall_mem_cons, markPresent]
    split
    · rename_i hnone
      simp [Agrees, hnone]
    · rename_i v hv
      split
      · rename_i hvalue
        simp [Agrees, hv, hvalue]
      · rename_i hvalue
        rw [ih]
        have hsame : Agrees m attr := ⟨v, hv, not_not.mp hvalue⟩
        simp only [agrees_update hv, hsame, true_and]

theorem present_of_markPresent {m m' : Attributes} (h : markPresent attrs m = some m')
    (hname : (∃ attr ∈ attrs, attr.name = name) ∨ (m name).all (·.present)) :
    (m' name).all (·.present) := by
  induction attrs generalizing m with
  | nil =>
    cases h
    rcases hname with ⟨_, hmem, _⟩ | hname
    · cases hmem
    · exact hname
  | cons attr rest ih =>
    rw [markPresent] at h
    split at h
    · cases h
    · rename_i v hv
      split at h
      · cases h
      · apply ih h
        by_cases hattr : name = attr.name
        · right
          rw [hattr, update_self]
          rfl
        · rcases hname with ⟨found, hmem, hfound⟩ | hname
          · left
            rcases List.mem_cons.mp hmem with rfl | hmem
            · exact absurd hfound.symm hattr
            · exact ⟨found, hmem, hfound⟩
          · right
            rw [update_of_ne hattr]
            exact hname

theorem sameExtendedAttributes_self {other : Node}
    (hattrs : node.extendedAttributes = other.extendedAttributes)
    (hconsistent : Consistent other.extendedAttributes) : node.sameExtendedAttributes other := by
  have hagrees : ∀ attr ∈ other.extendedAttributes,
      Agrees (attributesOf other.extendedAttributes) attr := by
    intro attr hattr
    obtain ⟨v, hv⟩ := exists_attributesOf hattr
    obtain ⟨last, hlast, hname, hvalue⟩ := exists_of_attributesOf hv
    exact ⟨v, hv, hvalue ▸ hconsistent last hlast attr hattr hname⟩
  obtain ⟨m, hm⟩ := isSome_iff_exists.mp ((markPresent_isSome _ _).mpr hagrees)
  simp only [Node.sameExtendedAttributes, hattrs, ne_eq, not_true_eq_false,
    if_false, hm, List.all_eq_true]
  intro attr hattr
  exact present_of_markPresent hm (Or.inl ⟨attr, hattr, rfl⟩)

theorem agrees_of_sameExtendedAttributes {other : Node} (h : node.sameExtendedAttributes other) :
    ∀ attr ∈ other.extendedAttributes, Agrees (attributesOf node.extendedAttributes) attr := by
  unfold Node.sameExtendedAttributes at h
  split at h
  · cases h
  · split at h
    · cases h
    · rename_i m hm
      exact (markPresent_isSome _ _).mp (by simp [hm])

/-- The name can be any byte string.  All other strings have to be UTF-8, zones
have whole minutes, and two attributes of one name are the same. -/
structure Node.Plain (node : Node) : Prop where
  type : valid node.type
  user : valid node.user
  group : valid node.group
  linkTarget : valid node.linkTarget
  error : valid node.error
  attributes : ∀ attr ∈ node.extendedAttributes, valid attr.name
  consistent : Consistent node.extendedAttributes
  modTime : node.modTime.offset % 60 = 0
  accessTime : node.accessTime.offset % 60 = 0
  changeTime : node.changeTime.offset % 60 = 0

theorem same_attributes_received (node : Node) : node.received.sameExtendedAttributes node ↔
      (∀ attr ∈ node.extendedAttributes, valid attr.name) ∧
        Consistent node.extendedAttributes := by
  constructor
  · intro h
    have hagrees := agrees_of_sameExtendedAttributes h
    constructor
    · intro attr hattr
      obtain ⟨v, hv, _⟩ := hagrees attr hattr
      obtain ⟨found, hfound, hname, _⟩ := exists_of_attributesOf hv
      obtain ⟨source, _, rfl⟩ := List.mem_map.mp hfound
      rw [← hname]
      exact valid_toValidUTF8 source.name
    · intro a ha b hb hname
      obtain ⟨v, hv, hvalue⟩ := hagrees a ha
      obtain ⟨w, hw, hwalue⟩ := hagrees b hb
      rw [← hname, hv] at hw
      cases hw
      rw [← hvalue, ← hwalue]
  · rintro ⟨hvalid, hconsistent⟩
    apply sameExtendedAttributes_self _ hconsistent
    change node.extendedAttributes.map _ = node.extendedAttributes
    conv_rhs => rw [← List.map_id node.extendedAttributes]
    apply List.map_congr_left
    intro attr hattr
    rw [toValidUTF8_of_valid (hvalid attr hattr)]
    rfl

theorem sameContent_received (node : Node) : node.received.sameContent node := by
  simp only [Node.sameContent, Node.received]
  cases node.content <;> simp

theorem sameSubtree_received (node : Node) : node.received.sameSubtree node := by
  simp only [Node.sameSubtree, Node.received]
  cases node.subtree <;> simp

theorem equals_received (node : Node) : node.received.equals node ↔ node.Plain := by
  simp only [Node.equals, sameContent_received, sameSubtree_received,
    Bool.and_eq_true, same_attributes_received]
  simp only [Node.received, beq_iff_eq, toValidUTF8_eq_self, Time.equal_stamp]
  constructor
  · intro h
    exact
      { type := by tauto
        user := by tauto
        group := by tauto
        linkTarget := by tauto
        error := by tauto
        attributes := by tauto
        consistent := by tauto
        modTime := by tauto
        accessTime := by tauto
        changeTime := by tauto }
  · rintro ⟨htype, huser, hgroup, htarget, herror, hattributes, hconsistent, hmtime, hatime, hctime⟩
    simp only [htype, huser, hgroup, htarget, herror, hmtime, hatime, hctime,
      hconsistent, and_true, true_and]
    exact hattributes

/-- A node comes back as it was exactly if it is plain. -/
theorem roundTrip_iff_plain {Text : Type} (cal : Calendar) (strconv : Strconv)
    (json : Texts Text) (node : Node) (hyears : node.InYears cal) :
    (∃ node', (marshalJSON cal strconv json node).bind
        (unmarshalJSON strconv json) = .ok node' ∧
      node'.equals node) ↔ node.Plain := by
  rw [unmarshalJSON_marshalJSON hyears, ← equals_received]
  constructor
  · rintro ⟨node', hnode', hequals⟩
    cases hnode'
    exact hequals
  · intro hequals
    exact ⟨node.received, rfl, hequals⟩

/-! ## A link whose target is not UTF-8 -/

def hexDigit (n : UInt8) : UInt8 := if n < 10 then 0x30 + n else 0x57 + n

def digitValue (c : UInt8) : UInt8 := if c < 0x57 then c - 0x30 else c - 0x57

def escape (s : Bytes) : Bytes :=
  s.flatMap fun b => [0x5C, 0x78, hexDigit (b / 16), hexDigit (b % 16)]

def unescape : Bytes → Option Bytes
  | 0x5C :: 0x78 :: high :: low :: rest =>
    (unescape rest).map fun s => (digitValue high * 16 + digitValue low) :: s
  | [0x22] => some []
  | _ => none

theorem hexDigit_lt {n : UInt8} (h : n < 16) : hexDigit n < 0x80 := by
  unfold hexDigit
  split <;> grind

theorem digitValue_hexDigit {n : UInt8} (h : n < 16) : digitValue (hexDigit n) = n := by
  unfold digitValue hexDigit
  split <;> split <;> grind

theorem escape_cons (b : UInt8) (rest : Bytes) : escape (b :: rest) =
      0x5C :: 0x78 :: hexDigit (b / 16) :: hexDigit (b % 16) :: escape rest := rfl

theorem valid_escape (s : Bytes) : valid (escape s) := by
  induction s with
  | nil => rfl
  | cons b rest ih =>
    have hhigh : hexDigit (b / 16) < 0x80 := hexDigit_lt (by grind)
    have hlow : hexDigit (b % 16) < 0x80 := hexDigit_lt (by grind)
    rw [escape_cons, valid_ascii_cons (by decide), valid_ascii_cons (by decide),
      valid_ascii_cons hhigh, valid_ascii_cons hlow]
    exact ih

theorem unescape_escape (s : Bytes) : unescape (escape s ++ ascii "\"") = some s := by
  induction s with
  | nil => rfl
  | cons b rest ih =>
    have hbyte : digitValue (hexDigit (b / 16)) * 16 + digitValue (hexDigit (b % 16)) = b := by
      rw [digitValue_hexDigit (by grind), digitValue_hexDigit (by grind)]
      grind
    simp only [escape_cons, List.cons_append, unescape, ih, hbyte, map_some]

/-- Literals in which all bytes are escaped. -/
def escapeAll : Strconv where
  quote s := ascii "\"" ++ escape s ++ ascii "\""
  unquote literal := unescape literal.tail
  inside := escape
  quote_eq _ := rfl
  valid_inside := valid_escape
  unquote_quote := unescape_escape

def sameText : Texts Document := ⟨id, some, fun _ => rfl⟩

/-- All years have the mean length of a Gregorian year. -/
def meanYears : Calendar where
  year t := 1 + (t.instant + t.offset * 10 ^ 9) / (31556952 * 10 ^ 9)
  addYears t years := { t with
    instant := t.instant + years * (31556952 * 10 ^ 9) }

def sampleNode (name linkTarget : Bytes) : Node where
  name := name
  type := ascii "symlink"
  mode := 0o777
  modTime := .zero
  accessTime := .zero
  changeTime := .zero
  uid := 0
  gid := 0
  user := ascii "root"
  group := ascii "root"
  inode := 5
  deviceID := 1
  size := 0
  links := 1
  linkTarget := linkTarget
  extendedAttributes := [⟨ascii "user.a", [0xFF]⟩, ⟨ascii "user.b", []⟩]
  device := 0
  content := none
  subtree := none
  error := []

theorem inYears_sampleNode (name linkTarget : Bytes) :
    (sampleNode name linkTarget).InYears meanYears := by
  have hzero : meanYears.InYears .zero := by
    unfold Calendar.InYears
    decide
  exact ⟨hzero, hzero, hzero⟩

theorem roundTrip_iff_plain_sample :
    ∃ node', (marshalJSON meanYears escapeAll sameText
        (sampleNode [0xFF, 0x22] (ascii "a"))).bind
        (unmarshalJSON escapeAll sameText) = .ok node' ∧
      node'.equals (sampleNode [0xFF, 0x22] (ascii "a")) := by
  rw [roundTrip_iff_plain meanYears escapeAll sameText _ (inYears_sampleNode _ _)]
  exact
    { type := by decide
      user := by decide
      group := by decide
      linkTarget := by decide
      error := by decide
      attributes := by decide
      consistent := by
        unfold Consistent
        decide
      modTime := rfl
      accessTime := rfl
      changeTime := rfl }

/-- The target `[0xFF]` comes back as U+FFFD. -/
theorem not_roundTrip_linkTarget :
    ¬ ∀ node : Node, node.InYears meanYears →
      ∃ node', (marshalJSON meanYears escapeAll sameText node).bind
          (unmarshalJSON escapeAll sameText) = .ok node' ∧
        node'.equals node := by
  intro h
  obtain ⟨node', hnode', hequals⟩ := h (sampleNode (ascii "link") [0xFF]) (inYears_sampleNode _ _)
  rw [unmarshalJSON_marshalJSON (inYears_sampleNode _ _)] at hnode'
  cases hnode'
  have hplain := (equals_received _).mp hequals
  exact absurd hplain.linkTarget (by decide)

end Rapi.Restic.NodeJSON
