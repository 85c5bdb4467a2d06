import ChatWire.Json.Basic

/-!
# Members of objects

What a look-up finds in an object of which one member has been set: under the key of this member
the new value, under any other key what it found before. A member that is present is what is found,
and a missing one is found to be null.
-/

namespace ChatWire.Json

/-- Members and the entries of a table are looked up alike. -/
theorem find?_key_eq (members : List (String × Json)) (key : String) :
    (members.find? fun m => m.1 == key) = members.find? fun m => compare key m.1 = .eq := by
  refine congrArg members.find? (funext fun m => ?_)
  rw [Bool.eq_iff_iff, beq_iff_eq, decide_eq_true_iff, Std.compare_eq_iff_eq, eq_comm]

theorem get?_set_self (members : List (String × Json)) (key : String) (v : Json) :
    ((object members).set key v).get? key = some v := by
  rw [set, get?, find?_key_eq, Table.find?_insertEntry_self]
  rfl

theorem get?_set_of_ne (v : Json) {key key' : String} (h : key ≠ key') (member : Json) :
    (v.set key' member).get? key = v.get? key := by
  cases v with
  | object members =>
    rw [set, get?, get?, find?_key_eq, Table.find?_insertEntry_of_ne h, find?_key_eq]
  | _ => rfl

theorem get_set_self (members : List (String × Json)) (key : String) (v : Json) :
    ((object members).set key v).get key = v := by
  rw [get, get?_set_self, Option.getD_some]

theorem get_set_of_ne (v : Json) {key key' : String} (h : key ≠ key') (member : Json) :
    (v.set key' member).get key = v.get key := by
  rw [get, get, get?_set_of_ne v h]

theorem get_of_present? {value v : Json} {key : String} (h : value.present? key = some v) :
    value.get key = v := by
  rw [get, (Option.filter_eq_some_iff.1 h).1]
  rfl

theorem get_of_present?_eq_none {value : Json} {key : String} (h : value.present? key = none) :
    value.get key = .null := by
  unfold present? at h
  cases hget : value.get? key with
  | none => rw [get, hget, Option.getD_none]
  | some v =>
    rw [hget, Option.filter_some] at h
    cases v with
    | null => rw [get, hget, Option.getD_some]
    | _ => simp [isNull] at h

end ChatWire.Json
