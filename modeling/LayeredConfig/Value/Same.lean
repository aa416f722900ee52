import LayeredConfig.Value.Basic

/-!
# Structural equality of values

`Value.same` compares values all the way down: numbers exactly, lists by position, maps and
foreign values by key and regardless of order, sets and tables as collections of members or
pairs regardless of order. A bare map differs from an ordinary one and a foreign value from one
of another type, types being known by their names; an entry that holds `undefined` differs from no
entry. Which objects the containers are makes no difference.
-/

namespace LayeredConfig

/-- The list without its first element that passes `p`; `none` if no element passes. -/
def removeFirst? {α : Type} (p : α → Bool) : List α → Option (List α)
  | [] => none
  | a :: rest => if p a then some rest else (removeFirst? p rest).map (a :: ·)

namespace Value

mutual

/-- Whether two values are structurally equal. -/
def same : Value → Value → Bool
  | .undefined, w => match w with
    | .undefined => true
    | _ => false
  | .null, w => match w with
    | .null => true
    | _ => false
  | .bool a, w => match w with
    | .bool b => a == b
    | _ => false
  | .text a, w => match w with
    | .text b => a == b
    | _ => false
  | .number a, w => match w with
    | .number b => a == b
    | _ => false
  | .bigint a, w => match w with
    | .bigint b => a == b
    | _ => false
  | .date _ a, w => match w with
    | .date _ b => a == b
    | _ => false
  | .list _ vs, w => match w with
    | .list _ ws => sameList vs ws
    | _ => false
  | .object _ bare es, w => match w with
    | .object _ bare' es' => bare == bare' && es.length == es'.length && sameEntries es es'
    | _ => false
  | .foreign _ c es, w => match w with
    | .foreign _ c' es' => c == c' && es.length == es'.length && sameEntries es es'
    | _ => false
  | .set _ vs, w => match w with
    | .set _ ws => sameMembers vs ws
    | _ => false
  | .map _ ps, w => match w with
    | .map _ qs => samePairs ps qs
    | _ => false

/-- Whether two lists are equal element by element. -/
def sameList : List Value → List Value → Bool
  | [], ws => ws.isEmpty
  | v :: vs, ws => match ws with
    | [] => false
    | w :: ws => v.same w && sameList vs ws

/-- Whether each of the entries has an equal one among `es'`. -/
def sameEntries : List (String × Value) → Entries Value → Bool
  | [], _ => true
  | (k, v) :: rest, es' =>
    (match Entries.get? es' k with
      | some w => v.same w
      | none => false) && sameEntries rest es'

/-- Whether the members can be paired off as equals. -/
def sameMembers : List Value → List Value → Bool
  | [], ws => ws.isEmpty
  | v :: vs, ws => match removeFirst? v.same ws with
    | some ws => sameMembers vs ws
    | none => false

/-- Whether the pairs can be paired off with equal keys and equal values. -/
def samePairs : List (Value × Value) → List (Value × Value) → Bool
  | [], qs => qs.isEmpty
  | (k, v) :: ps, qs => match removeFirst? (fun q => k.same q.1 && v.same q.2) qs with
    | some qs => samePairs ps qs
    | none => false

end

end Value

end LayeredConfig
