import LayeredConfig.Value.Basic

/-!
# Identity of values

When two values count as one and the same, without looking into containers.

- `MemberKey`, `Value.memberKey?`: what a set or a table knows a value by. It is the quantity or
  text of a scalar, the sign of zero forgotten, and the number of a container. An anonymous
  container has no such key, since it is no other object.
- `Value.sameMember`: whether a set holds two values only once, and a table has one entry for
  them as keys. It says that both values have one `MemberKey` (`sameMember_iff`).
- `Value.strictEqual`: whether a value is a given candidate; the undefined number is none.
- `Value.setOf`, `Value.tableOf`: new sets and tables as they arise by adding one member or pair
  after the other. A repeated member is dropped. A repeated key keeps its first place and takes
  the last value. A negatively signed zero is stored as zero.
-/

namespace LayeredConfig

/-- What tells a value apart from the other members of a set and from the other keys of a
table. -/
inductive MemberKey where
  | undefined
  | null
  | bool (value : Bool)
  | text (value : String)
  /-- A number without the sign of zero. -/
  | number (value : Number)
  | bigint (value : Int)
  /-- A container, by its number. -/
  | object (number : Nat)
deriving DecidableEq

/-- The key of a container. -/
def Identity.memberKey? : Identity → Option MemberKey
  | .anonymous => none
  | .numbered n => some (.object n)

namespace Value

/-- The key that a value has in every set and table; an anonymous container has none. -/
def memberKey? : Value → Option MemberKey
  | .undefined => some .undefined
  | .null => some .null
  | .bool b => some (.bool b)
  | .text s => some (.text s)
  | .number n => some (.number n.unsigned)
  | .bigint n => some (.bigint n)
  | .list i _ => i.memberKey?
  | .object i _ _ => i.memberKey?
  | .map i _ => i.memberKey?
  | .set i _ => i.memberKey?
  | .date i _ => i.memberKey?
  | .foreign i _ _ => i.memberKey?

/-- Whether two values are one member of a set or one key of a table. -/
def sameMember (a b : Value) : Bool :=
  match a.memberKey? with
  | some key => b.memberKey? = some key
  | none => false

/-- Whether two values are strictly equal: of one kind and equal as quantities or texts, or one
and the same container. -/
def strictEqual : Value → Value → Bool
  | .number .nan, _ => false
  | a, b => a.sameMember b

/-- The form in which a set or a table stores a member or key. -/
def asMember : Value → Value
  | .number n => .number n.unsigned
  | v => v

theorem sameMember_iff {a b : Value} :
    a.sameMember b = true ↔ ∃ key, a.memberKey? = some key ∧ b.memberKey? = some key := by
  cases h : a.memberKey? <;> simp [sameMember, h]

theorem sameMember_symm (a b : Value) : a.sameMember b = b.sameMember a := by
  rw [Bool.eq_iff_iff, sameMember_iff, sameMember_iff]
  exact exists_congr fun _ => and_comm

theorem sameMember_trans {a b c : Value} (h : a.sameMember b = true)
    (h' : b.sameMember c = true) : a.sameMember c = true := by
  obtain ⟨key, ha, hb⟩ := sameMember_iff.1 h
  obtain ⟨key', hb', hc⟩ := sameMember_iff.1 h'
  obtain rfl : key = key' := Option.some.inj (hb.symm.trans hb')
  exact sameMember_iff.2 ⟨key, ha, hc⟩

/-- An anonymous container is one member with no value, since each occurrence of one is an object
of its own. -/
theorem sameMember_of_memberKey?_eq_none {a : Value} (h : a.memberKey? = none) (b : Value) :
    a.sameMember b = false := by simp [sameMember, h]

theorem sameMember_of_strictEqual {a b : Value} (h : a.strictEqual b = true) :
    a.sameMember b = true := by
  unfold strictEqual at h
  split at h
  · simp at h
  · exact h

@[simp] theorem asMember_asMember (v : Value) : v.asMember.asMember = v.asMember := by
  cases v <;> simp [asMember]

@[simp] theorem memberKey?_asMember (v : Value) : v.asMember.memberKey? = v.memberKey? := by
  cases v <;> simp [asMember, memberKey?]

@[simp] theorem sameMember_asMember_left (a b : Value) :
    a.asMember.sameMember b = a.sameMember b := by simp [sameMember]

/-! ## Sets -/

/-- Adds a member that is not there yet. -/
def addMember (members : List Value) (v : Value) : List Value :=
  if members.any (·.sameMember v) then members else members ++ [v.asMember]

/-- The members of the set that arises by adding `vs` in turn. -/
def distinctMembers (vs : List Value) : List Value := vs.foldl addMember []

/-- The new set that arises by adding `vs` in turn. -/
def setOf (vs : List Value) : Value := .set .anonymous (distinctMembers vs)

/-! ## Tables -/

/-- Gives the key `k` of a table the value `v`. -/
def putPair (k v : Value) : List (Value × Value) → List (Value × Value)
  | [] => [(k.asMember, v)]
  | (k', v') :: rest =>
    if k'.sameMember k then (k', v) :: rest else (k', v') :: putPair k v rest

/-- The pairs of the table that arises by adding `pairs` in turn. -/
def distinctPairs (pairs : List (Value × Value)) : List (Value × Value) :=
  pairs.foldl (fun table pair => putPair pair.1 pair.2 table) []

/-- The new table that arises by adding the pairs in turn. -/
def tableOf (pairs : List (Value × Value)) : Value := .map .anonymous (distinctPairs pairs)

end Value

end LayeredConfig
